import FinancialLedger.RecoveryLaws
set_option autoImplicit false

namespace FinancialLedger
open PosixFile Wal Recovery

theorem mem_accepted {β : Type} {xs : List β} {answers : List LedgerError} {i : Nat} {x : β}
    (hx : xs[i]? = some x) (ha : answers[i]? = some .none) : x ∈ accepted xs answers := by
  have hz : (xs.zip answers)[i]? = some (x,.none) :=
    List.getElem?_zip_eq_some.mpr ⟨hx,ha⟩
  exact List.mem_filterMap.mpr ⟨(x,.none),List.mem_of_getElem? hz,by simp⟩

namespace LedgerEngine

/-- The file ends on a record boundary: it is a sequence of whole records. -/
def Clean (e : LedgerEngine) : Prop := ∃ log, e.wal.bytes = logBytes log

section Acknowledged

def CommitsClean (e : LedgerEngine) (p : Popped) : Prop := e.Commits p → e.Clean

theorem process_wal_grows {e : LedgerEngine} (p : Popped) (hopen : e.walWriter.fdValid = true) :
    e.wal.bytes <+: (e.process p).wal.bytes := by
  obtain ⟨-,-,hb⟩ | ⟨-,-,-,n,-,hb⟩ | ⟨-,-,-,-,hb⟩ | ⟨-,-,hb⟩ := (process_wal p hopen).2
  · rw [hb]
  · exact ⟨_,hb.symm⟩
  · exact ⟨_,hb.symm⟩
  · exact ⟨_,hb.symm⟩

theorem processAll_wal_grows {e : LedgerEngine} (hopen : e.walWriter.fdValid = true)
    (ps : List Popped) : e.wal.bytes <+: (e.processAll ps).wal.bytes := by
  induction ps generalizing e with
  | nil => exact List.prefix_refl _
  | cons p ps ih => exact (process_wal_grows p hopen).trans (ih (process_wal p hopen).1)

theorem readAll_processAll {e : LedgerEngine} (hopen : e.walWriter.fdValid = true)
    (ps : List Popped) : readAll e.wal <+: readAll (e.processAll ps).wal := by
  obtain ⟨more,hmore⟩ := processAll_wal_grows hopen ps
  exact BinaryWalReader.records_grow hmore.symm _

theorem readAll_accepted {e : LedgerEngine} (hopen : e.walWriter.fdValid = true)
    {ps : List Popped} (hclean : StepRun.Along process CommitsClean e ps) {p : Popped}
    (hp : p ∈ accepted ps (e.answersTo ps)) : p.logged ∈ readAll (e.processAll ps).wal := by
  induction ps generalizing e with
  | nil => cases hp
  | cons q ps ih =>
    obtain ⟨hopen',hcases⟩ := process_wal q hopen
    rw [answersTo,accepted_cons] at hp
    by_cases hans : e.answer q = .none
    · rw [if_pos hans] at hp
      obtain rfl | hp := List.mem_cons.mp hp
      · -- the record was appended to whole records, so it is read now and later
        obtain ⟨log,hlog⟩ := hclean.1 (answer_eq_none.mp hans)
        have hb : (e.process p).wal.bytes = logBytes (log ++ [p.logged]) := by
          obtain ⟨hv,ha,-⟩ | ⟨-,ha,-⟩ | ⟨-,ha,-⟩ | ⟨-,-,hb⟩ := hcases
          · exact absurd (ha ▸ hans) hv
          · exact absurd hans ha
          · exact absurd hans ha
          · rw [hb,hlog]
            simp
        have hmem : p.logged ∈ readAll (e.process p).wal := by
          rw [readAll_log hb]
          simp
        exact (readAll_processAll hopen' ps).subset hmem
      · exact ih hopen' hclean.2 hp
    · rw [if_neg hans] at hp
      exact ih hopen' hclean.2 hp

/-- In a run that commits only to clean files, every acknowledged transaction can
be read back. -/
theorem acknowledged_durable (hash : IdempotencyKey → UInt64) (config : Config) (wal : File)
    (seed : LedgerState) (calls : List Call)
    (hclean : StepRun.Along process CommitsClean (seeded hash config wal seed)
      (calls.flatMap Call.dequeued)) (i : Nat) (p : Popped)
    (hp : (calls.flatMap Call.dequeued)[i]? = some p)
    (hans : ((seeded hash config wal seed).runCalls calls).answers[i]? =
      some (p.request.completion,.none)) :
    p.logged ∈ readAll ((seeded hash config wal seed).runCalls calls).wal := by
  rw [runCalls_eq] at hans ⊢
  rw [processAll_answers] at hans
  have hnone := (List.getElem?_zip_eq_some.mp hans).2
  exact readAll_accepted rfl hclean (mem_accepted hp hnone)

def poppedShort (id : TransactionId) (write : WriteOutcome) : Popped :=
  ⟨⟨samplePayment id,id.toNat⟩,⟨17,write,true⟩⟩

def aroundPayment : List Call :=
  [⟨10,[poppedShort 1 .failed,samplePopped 2]⟩,⟨10,[poppedShort 3 (.accepts 7)]⟩]

theorem acknowledged_durable_payment :
    (sampleEngine.runCalls aroundPayment).answers =
      [(1,.walWriteFailed),(2,.none),(3,.walWriteFailed)] ∧
    (samplePopped 2).logged ∈ readAll (sampleEngine.runCalls aroundPayment).wal := by
  have hans : (sampleEngine.runCalls aroundPayment).answers =
      [(1,.walWriteFailed),(2,.none),(3,.walWriteFailed)] := by decide +kernel
  have hclean : StepRun.Along process CommitsClean sampleEngine
      (aroundPayment.flatMap Call.dequeued) := by
    refine ⟨fun _ => ⟨[],rfl⟩,fun _ => ⟨[],by decide⟩,fun hcommits => ?_,trivial⟩
    exact absurd (answer_eq_none.mpr hcommits) (by decide +kernel)
  exact ⟨hans,acknowledged_durable (fun _ => 0) sampleConfig .empty sampleChart aroundPayment
    hclean 1 (samplePopped 2) rfl (congrArg (fun a => a[1]?) hans)⟩

def shortWriteRun : List Popped := [poppedShort 1 (.accepts 1),samplePopped 2]

theorem acknowledged_lost :
    (sampleEngine.runCalls [⟨10,shortWriteRun⟩]).answers = [(1,.walWriteFailed),(2,.none)] ∧
    (samplePopped 2).logged ∉ readAll (sampleEngine.runCalls [⟨10,shortWriteRun⟩]).wal := by
  refine ⟨by decide +kernel,?_⟩
  have hread : BinaryWalReader.opened.readNext (sampleEngine.runCalls [⟨10,shortWriteRun⟩]).wal
      .complete = (.corrupt,.opened) := by decide +kernel
  have hnil : readAll (sampleEngine.runCalls [⟨10,shortWriteRun⟩]).wal = [] :=
    congrArg Prod.fst (BinaryWalReader.drain_stop hread (by simp) [])
  rw [hnil]
  exact List.not_mem_nil

end Acknowledged

section Committed

/-- Left-over bytes at the end of the file keep the reader from whatever part of
the request's record is written behind them. -/
def Blocked (e : LedgerEngine) (p : Popped) : Prop :=
  ∀ f n, f.bytes = e.wal.bytes ++ (recordOf p.logged).take n → readAll f = readAll e.wal

/-- One to three bytes of a torn record: no record starts with these and then anew. -/
theorem blocked_of_torn {e : LedgerEngine} {log : List Transaction} {tx : Transaction} {k : Nat}
    (hpos : 0 < k) (hk : k < 4) (hb : e.wal.bytes = logBytes log ++ (recordOf tx).take k)
    (p : Popped) : e.Blocked p := by
  obtain ⟨rest,hrest⟩ := recordOf_magic tx
  obtain ⟨next,hnext⟩ := recordOf_magic p.logged
  have htorn : TornTail ((recordOf tx).take k) := ⟨tx,k,by simp [hrest]; omega,rfl⟩
  intro f n hf
  rw [hb,List.append_assoc] at hf
  rw [readAll_torn hb htorn]
  refine readAll_blocked hf (fun rec more hrec => ?_)
  obtain ⟨own,hown⟩ := rec.bytes_magic
  rw [hrest,hnext,hown] at hrec
  obtain rfl | rfl | rfl : k = 1 ∨ k = 2 ∨ k = 3 := by omega
  all_goals cases n <;> simp at hrec

/-- If the request reaches the log, its record is not left there whole without
the sync that the mode asks for, and does not complete an earlier torn one. -/
def Settled (e : LedgerEngine) (p : Popped) : Prop :=
  e.verdict p.request.tx = .none →
    (p.io.WritesAll e.wal p.request.tx → e.walWriter.Accepts e.wal p.request.tx p.io) ∧
    (e.Clean ∨ e.Blocked p)

theorem process_readAll {e : LedgerEngine} {p : Popped} (hopen : e.walWriter.fdValid = true)
    (hs : e.Settled p) :
    readAll (e.process p).wal = readAll e.wal ∨
      e.answer p = .none ∧ readAll (e.process p).wal = readAll e.wal ++ [p.logged] := by
  obtain ⟨-,-,hb⟩ | ⟨hv,ha,-,n,hn,hb⟩ | ⟨hv,-,hall,hrefused,-⟩ | ⟨hv,ha,hb⟩ :=
    (process_wal p hopen).2
  · exact .inl (by rw [hb])
  · obtain ⟨log,hlog⟩ | hblocked := (hs hv).2
    · have htorn : TornTail ((recordOf p.logged).take n) := ⟨p.logged,n,hn,rfl⟩
      rw [readAll_torn (hb.trans (by rw [hlog])) htorn,readAll_log hlog]
      exact .inl rfl
    · exact .inl (hblocked _ n hb)
  · exact absurd ((hs hv).1 hall) hrefused
  · obtain ⟨log,hlog⟩ | hblocked := (hs hv).2
    · have hb' : (e.process p).wal.bytes = logBytes (log ++ [p.logged]) := by
        rw [hb,hlog]
        simp
      rw [readAll_log hb',readAll_log hlog]
      exact .inr ⟨ha,rfl⟩
    · refine .inl (hblocked _ (recordOf p.logged).length ?_)
      rw [hb,List.take_length]

theorem processAll_readAll {e : LedgerEngine} {ps : List Popped}
    (hopen : e.walWriter.fdValid = true) (hs : StepRun.Along process Settled e ps) :
    ∃ applied : List Popped, applied.Sublist (accepted ps (e.answersTo ps)) ∧
      readAll (e.processAll ps).wal = readAll e.wal ++ applied.map Popped.logged := by
  induction ps generalizing e with
  | nil => exact ⟨[],by simp,by simp [processAll]⟩
  | cons p ps ih =>
    obtain ⟨applied,hsub,hread⟩ := ih (process_wal p hopen).1 hs.2
    have hall : e.processAll (p :: ps) = (e.process p).processAll ps := rfl
    rw [answersTo,accepted_cons,hall,hread]
    obtain hsame | ⟨hans,hnew⟩ := process_readAll hopen hs.1
    · refine ⟨applied,?_,by rw [hsame]⟩
      split
      · exact hsub.cons p
      · exact hsub
    · rw [if_pos hans,hnew]
      exact ⟨p :: applied,hsub.cons_cons p,by simp⟩

theorem seeded_answers (hash : IdempotencyKey → UInt64) (config : Config) (wal : File)
    (seed : LedgerState) (ps : List Popped) :
    ((seeded hash config wal seed).processAll ps).answers.map Prod.snd =
      (seeded hash config wal seed).answersTo ps := by
  rw [processAll_answers]
  exact List.map_snd_zip (by rw [answersTo_length,List.length_map])

/-- In a settled run, a later recovery applies, besides what was in the log
before, only requests that were answered with None. -/
theorem recover_applies_acknowledged (hash : IdempotencyKey → UInt64) (config : Config)
    (wal : File) (seed : LedgerState) (snapshotFile : File)
    (hsnap : Snapshot.Written seed 0 snapshotFile) (calls : List Call)
    (hs : StepRun.Along process Settled (seeded hash config wal seed)
      (calls.flatMap Call.dequeued)) :
    let e := (seeded hash config wal seed).runCalls calls
    let acknowledged := accepted (calls.flatMap Call.dequeued) (e.answers.map Prod.snd)
    ∃ (applied : List Popped) (walValidLength : Nat), applied.Sublist acknowledged ∧
      readAll e.wal = readAll wal ++ applied.map Popped.logged ∧
      (recover (some e.wal) (some snapshotFile) .complete).1 =
        checked ((readAll wal ++ applied.map Popped.logged).foldl replayRecord seed)
          walValidLength := by
  intro e acknowledged
  have he : e = (seeded hash config wal seed).processAll (calls.flatMap Call.dequeued) :=
    runCalls_eq _ calls
  obtain ⟨applied,hsub,hread⟩ := processAll_readAll (e := seeded hash config wal seed) rfl hs
  rw [← seeded_answers,← he] at hsub
  rw [← he] at hread
  obtain ⟨len,hrec⟩ := recover_readAll hsnap e.wal
  rw [hread] at hrec
  exact ⟨applied,len,hsub,hread,hrec⟩

def refusedRun : List Popped := [poppedShort 1 .failed,samplePopped 2]

theorem tornEngine_bytes : (sampleEngine.process (poppedShort 1 (.accepts 1))).wal.bytes = [0x47] := by
  decide +kernel

theorem tornEngine_blocked :
    (sampleEngine.process (poppedShort 1 (.accepts 1))).Blocked (samplePopped 2) := by
  obtain ⟨rest,hrest⟩ := recordOf_magic (samplePayment 1)
  have hb : (sampleEngine.process (poppedShort 1 (.accepts 1))).wal.bytes =
      logBytes [] ++ (recordOf (samplePayment 1)).take 1 := by
    rw [tornEngine_bytes,hrest]
    rfl
  exact blocked_of_torn (by decide) (by decide) hb _

theorem tornEngine_not_clean : ¬ (sampleEngine.process (poppedShort 1 (.accepts 1))).Clean := by
  rintro ⟨log,hlog⟩
  rw [tornEngine_bytes] at hlog
  cases log with
  | nil => cases hlog
  | cons tx log =>
    obtain ⟨rest,hrest⟩ := recordOf_magic tx
    simp [hrest] at hlog

theorem recover_applies_acknowledged_refused :
    (∃ applied : List Popped, applied.Sublist [samplePopped 2] ∧
      readAll (sampleEngine.runCalls [⟨10,refusedRun⟩]).wal = applied.map Popped.logged) ∧
    ¬ (sampleEngine.process (poppedShort 1 (.accepts 1))).Clean ∧
    ∃ applied : List Popped, applied.Sublist [samplePopped 2] ∧
      readAll (sampleEngine.runCalls [⟨10,shortWriteRun⟩]).wal = applied.map Popped.logged := by
  obtain ⟨f,hf⟩ := exists_chartSnapshot 0
  have hrun : ∀ calls, StepRun.Along process Settled sampleEngine (calls.flatMap Call.dequeued) →
      accepted (calls.flatMap Call.dequeued)
        ((sampleEngine.runCalls calls).answers.map Prod.snd) = [samplePopped 2] →
      ∃ applied : List Popped, applied.Sublist [samplePopped 2] ∧
        readAll (sampleEngine.runCalls calls).wal = applied.map Popped.logged := by
    intro calls hs hacc
    obtain ⟨applied,-,hsub,hread,-⟩ := recover_applies_acknowledged (fun _ => 0) sampleConfig
      .empty sampleChart f hf calls hs
    have hempty : readAll File.empty = [] := readAll_log rfl
    rw [hempty,List.nil_append] at hread
    exact ⟨applied,hacc ▸ hsub,hread⟩
  refine ⟨hrun _ ?_ (by decide +kernel),tornEngine_not_clean,hrun _ ?_ (by decide +kernel)⟩
  · exact ⟨fun _ => ⟨by decide,.inl ⟨[],rfl⟩⟩,fun _ => ⟨by decide,.inl ⟨[],by decide⟩⟩,trivial⟩
  · exact ⟨fun _ => ⟨by decide,.inl ⟨[],rfl⟩⟩,fun _ => ⟨by decide,.inr tornEngine_blocked⟩,trivial⟩

def unsyncedPayment : Popped := ⟨⟨samplePayment 1,1⟩,⟨17,.accepts 4096,false⟩⟩

/-- The client is told that the payment failed, and the writer does not apply
it, but the record is in the file and the next recovery does. -/
theorem failed_request_resurrected :
    (sampleEngine.runCalls [⟨10,[unsyncedPayment]⟩]).answers = [(1,.walSyncFailed)] ∧
    ((sampleEngine.runCalls [⟨10,[unsyncedPayment]⟩]).working.findAccount 1).map
      Account.balance = some 100 ∧
    ∃ snapshotFile recovered, Snapshot.Written sampleChart 0 snapshotFile ∧
      (recover (some (sampleEngine.runCalls [⟨10,[unsyncedPayment]⟩]).wal) (some snapshotFile)
        .complete).1 = .ok recovered ∧
      (recovered.state.findAccount 1).map Account.balance = some 105 := by
  refine ⟨by decide,by decide,?_⟩
  obtain ⟨f,hf⟩ := exists_chartSnapshot 0
  have hb : (sampleEngine.runCalls [⟨10,[unsyncedPayment]⟩]).wal.bytes =
      logBytes [unsyncedPayment.logged] ++ [] := by
    have hall : unsyncedPayment.io.WritesAll sampleEngine.wal unsyncedPayment.request.tx :=
      AppendIo.writesAll_accepts rfl (by decide) (by decide) _
    have hv : sampleEngine.verdict unsyncedPayment.request.tx = .none := by decide
    obtain ⟨hne,-⟩ | ⟨-,-,hshort,-⟩ | ⟨-,-,-,-,hb⟩ | ⟨-,hans,-⟩ :=
      (process_wal (e := sampleEngine) unsyncedPayment rfl).2
    · exact absurd hv hne
    · exact absurd hall hshort
    · have hempty : sampleEngine.wal.bytes = [] := rfl
      rw [hempty,List.nil_append] at hb
      rw [logBytes_cons,logBytes_nil,List.append_nil,List.append_nil]
      exact hb
    · exact absurd hans (by decide)
  have hrec := recover_torn hf (Nat.zero_le _) hb .nil
  have htrial : validateTrialBalance ([unsyncedPayment.logged].foldl replayRecord sampleChart) =
      .ok () := by decide
  rw [checked_balanced htrial] at hrec
  exact ⟨f,_,hf,congrArg Prod.fst hrec,by decide⟩

end Committed

end LedgerEngine

end FinancialLedger
