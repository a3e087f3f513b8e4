import FinancialLedger.Checkpoint
import FinancialLedger.SnapshotCrash
set_option autoImplicit false

/-!
The two files of a ledger over power failures: the log, which grows by whole records
and is on disk up to its last `fsync`, and the snapshot, which is replaced while the
writer goes on.
-/

namespace FinancialLedger
open PosixFile PosixDir Wal Recovery LedgerEngine
open Snapshot (Saver DiskCall Written Iteration Name)

structure Store where
  engine : LedgerEngine
  synced : Nat
  saver : Saver

namespace Store

/-- A request, a call of `flush` by the owner, a call of `write_snapshot` with the
working copy and the size of the log, and the next system call of that one. -/
inductive Action where
  | process (p : Popped)
  | flush (fsync : Bool)
  | checkpoint (order : (s : LedgerState) → Iteration s) (padding : UInt32)
  | snapshot (c : DiskCall)

def start (hash : IdempotencyKey → UInt64) (config : Config) (wal : File) (state : LedgerState)
    (d : Dir Name) : Store :=
  ⟨.seeded hash config wal state,wal.bytes.length,.start d⟩

def step (s : Store) : Action → Option Store
  | .process p => some
      { s with
        engine := s.engine.process p
        -- an append that is answered has been synced
        synced := if s.engine.walWriter.syncMode = .syncEveryWrite ∧ s.engine.answer p = .none
          then (s.engine.process p).wal.bytes.length else s.synced }
  | .flush fsync => some
      { s with
        engine := { s.engine with walWriter := (s.engine.walWriter.flush fsync).2 }
        synced := if s.engine.walWriter.dirtySinceSync = true ∧
            (s.engine.walWriter.flush fsync).2.dirtySinceSync = false
          then s.engine.wal.bytes.length else s.synced }
  | .checkpoint order padding =>
      (s.saver.step (.begin ⟨s.engine.working,order s.engine.working,
        UInt64.ofNat s.engine.walWriter.sizeBytes,padding⟩)).map (fun v => { s with saver := v })
  | .snapshot c => (s.saver.step (.call c)).map (fun v => { s with saver := v })

def Orderly (s : Store) : Action → Prop
  | .process p => s.engine.ErrorFree p ∧ s.engine.Fresh p
  | _ => True

def finishing (s : Store) (inFlight : Option Popped) : LedgerEngine :=
  inFlight.elim s.engine s.engine.process

/-- What the files may be after a power failure, between two requests or in the
middle of one: of the log any number of bytes, but all that were synced. The log's
entry in its directory, which `open` does not sync, is taken to be on disk. -/
def AfterCrash (s : Store) (inFlight : Option Popped) (wal : File) (snapshot : Option File) :
    Prop :=
  (∃ n, s.synced ≤ n ∧ wal = (s.finishing inFlight).wal.cut n) ∧
    s.saver.disk.AfterCrash .path snapshot

/-- A snapshot of the ledger after some of the transactions of the log, with the place
of the next one. -/
def Saved (seed : LedgerState) (log : List Transaction) (found : Option File) : Prop :=
  ∃ i f, i ≤ log.length ∧ found = some f ∧ Written ((log.take i).foldl replayRecord seed)
    (UInt64.ofNat (logBytes (log.take i)).length) f

/-- The log of an engine is `log`, and a replay of any part of it would apply all of
that part. -/
structure Logged (seed : LedgerState) (e : LedgerEngine) (log : List Transaction) : Prop where
  opened : e.walWriter.fdValid = true
  bytes : e.wal.bytes = logBytes log
  size : e.walWriter.sizeBytes = e.wal.bytes.length
  working : e.working = log.foldl replayRecord seed
  applies : ∀ i, seed.applyAll (log.take i) = .ok ((log.take i).foldl replayRecord seed)
  balanced : ∀ i, validateTrialBalance ((log.take i).foldl replayRecord seed) = .ok ()

structure Kept (seed : LedgerState) (s : Store) (log : List Transaction) (flushed : Nat) : Prop where
  logged : Logged seed s.engine log
  part : flushed ≤ log.length
  synced : s.synced = (logBytes (log.take flushed)).length
  prompt : s.engine.walWriter.syncMode = .syncEveryWrite → flushed = log.length
  saver : s.saver.Safe (Saved seed log)

section Log

variable {seed : LedgerState} {e : LedgerEngine} {log : List Transaction} {p : Popped}

theorem take_snoc (log : List Transaction) (tx : Transaction) (i : Nat) :
    (log ++ [tx]).take i = log.take i ∨ (log ++ [tx]).take i = log ++ [tx] := by
  rcases Nat.lt_or_ge log.length i with hi | hi
  · right
    exact List.take_of_length_le (by simp; omega)
  · left
    exact List.take_append_of_le_length hi

theorem Logged.process (h : Logged seed e log) (hio : e.ErrorFree p) (hfresh : e.Fresh p) :
    Logged seed (e.process p) (if e.answer p = .none then log ++ [p.logged] else log) := by
  obtain ⟨-,hopen,hbytes⟩ := process_errorFree h.opened hio
  have hsize := process_sizeBytes h.opened hio h.size
  have hwork := e.process_working p
  by_cases hans : e.answer p = .none
  · rw [if_pos hans] at hbytes hwork ⊢
    have hid : e.working.lastAppliedId < p.logged.id := hfresh (answer_eq_none.mp hans)
    have hlast : (log ++ [p.logged]).foldl replayRecord seed = (e.process p).working := by
      rw [List.foldl_append,← h.working,hwork]
      exact if_pos hid
    have hbalanced : validateTrialBalance e.working = .ok () := by
      have := h.balanced log.length
      rwa [List.take_length,← h.working] at this
    have happlied : seed.applyAll (log ++ [p.logged]) = .ok (e.process p).working := by
      have hall := h.applies log.length
      rw [List.take_length,← h.working] at hall
      rw [hwork]
      exact LedgerState.applyAll_snoc hall (apply_of_verdict (verdict_of_answer hans))
    refine ⟨hopen,?_,hsize,hlast.symm,fun i => ?_,fun i => ?_⟩
    · rw [hbytes,h.bytes]
      simp
    · obtain hi | hi := take_snoc log p.logged i
      · rw [hi]
        exact h.applies i
      · rw [hi,hlast]
        exact happlied
    · obtain hi | hi := take_snoc log p.logged i
      · rw [hi]
        exact h.balanced i
      · rw [hi,hlast]
        exact process_balanced hbalanced p
  · rw [if_neg hans] at hbytes hwork ⊢
    rw [List.append_nil] at hbytes
    exact ⟨hopen,hbytes.trans h.bytes,hsize,hwork.trans h.working,h.applies,h.balanced⟩

theorem exists_torn (log : List Transaction) (n : Nat) :
    ∃ i tail, i ≤ log.length ∧ TornTail tail ∧
      (logBytes log).take n = logBytes (log.take i) ++ tail ∧
      ∀ j, j ≤ log.length → (logBytes (log.take j)).length ≤ n → j ≤ i := by
  induction log generalizing n with
  | nil => exact ⟨0,[],Nat.le_refl _,.nil,by simp,fun j hj _ => hj⟩
  | cons tx log ih =>
    rcases Nat.lt_or_ge n (recordOf tx).length with hn | hn
    · refine ⟨0,(recordOf tx).take n,Nat.zero_le _,⟨tx,n,hn,rfl⟩,?_,fun j hj hle => ?_⟩
      · rw [logBytes_cons,List.take_append_of_le_length (Nat.le_of_lt hn)]
        rfl
      · cases j with
        | zero => exact Nat.le_refl _
        | succ j =>
          rw [List.take_succ_cons,logBytes_cons,List.length_append] at hle
          omega
    · obtain ⟨i,tail,hi,htail,htake,hmax⟩ := ih (n-(recordOf tx).length)
      refine ⟨i+1,tail,by simpa using hi,htail,?_,fun j hj hle => ?_⟩
      · rw [logBytes_cons,List.take_append,List.take_of_length_le hn,htake,List.take_succ_cons,
          logBytes_cons,List.append_assoc]
      · cases j with
        | zero => exact Nat.zero_le _
        | succ j =>
          rw [List.take_succ_cons,logBytes_cons,List.length_append] at hle
          have := hmax j (by simpa using hj) (by omega)
          omega

end Log

section Steps

variable {seed : LedgerState} {s s' : Store} {log : List Transaction} {flushed : Nat}

def records (s : Store) : Action → List Transaction
  | .process p => if s.engine.answer p = .none then [p.logged] else []
  | .flush _ => []
  | .checkpoint _ _ => []
  | .snapshot _ => []

theorem Saved.grow {found : Option File} (h : Saved seed log found) (more : List Transaction) :
    Saved seed (log ++ more) found := by
  obtain ⟨i,f,hi,hfound,hwritten⟩ := h
  refine ⟨i,f,by rw [List.length_append]; omega,hfound,?_⟩
  rwa [List.take_append_of_le_length hi]

theorem append_syncMode {w : BinaryWalWriter} (hopen : w.fdValid = true) (f : File)
    (tx : Transaction) (io : AppendIo) : (w.append f tx io).2.1.syncMode = w.syncMode := by
  obtain ⟨n,f',-,-,-,heq⟩ | ⟨f',-,-,-,-,heq⟩ | ⟨f',-,-,-,heq⟩ :=
    BinaryWalWriter.append_cases hopen f tx io <;> rw [heq]

theorem process_syncMode (e : LedgerEngine) (p : Popped) (hopen : e.walWriter.fdValid = true) :
    (e.process p).walWriter.syncMode = e.walWriter.syncMode := by
  have happend := append_syncMode hopen e.wal p.request.tx p.io
  obtain ⟨-,-,hp⟩ | ⟨-,-,w,f,ha,hp⟩ | ⟨-,-,w,f,ha,hp⟩ := e.process_cases p
  · rw [hp]
    rfl
  · rw [ha] at happend
    rw [hp]
    exact happend
  · rw [ha] at happend
    rw [hp,complete,publishIfDue_walWriter]
    exact happend

theorem flush_cases (w : BinaryWalWriter) (fsync : Bool) :
    (w.flush fsync).2 = w ∨ (w.flush fsync).2 = { w with dirtySinceSync := false } := by
  unfold BinaryWalWriter.flush
  split
  · exact .inl rfl
  · split
    · exact .inl rfl
    · split
      · exact .inl rfl
      · exact .inr rfl

theorem Logged.flush {e : LedgerEngine} (h : Logged seed e log) (fsync : Bool) :
    Logged seed { e with walWriter := (e.walWriter.flush fsync).2 } log := by
  obtain hw | hw := flush_cases e.walWriter fsync <;> rw [hw]
  · exact h
  · exact ⟨h.opened,h.bytes,h.size,h.working,h.applies,h.balanced⟩

theorem Kept.process (h : Kept seed s log flushed) {p : Popped} (hio : s.engine.ErrorFree p)
    (hfresh : s.engine.Fresh p) (hs : s.step (.process p) = some s') :
    ∃ flushed', Kept seed s' (log ++ s.records (.process p)) flushed' := by
  have hlogged := h.logged.process hio hfresh
  have hmode := process_syncMode s.engine p h.logged.opened
  simp only [step,Option.some.injEq] at hs
  subst hs
  simp only [records]
  by_cases hans : s.engine.answer p = .none
  · rw [if_pos hans] at hlogged ⊢
    have hsaver : s.saver.Safe (Saved seed (log ++ [p.logged])) :=
      h.saver.imp (fun _ hfound => hfound.grow _)
    by_cases hsync : s.engine.walWriter.syncMode = .syncEveryWrite
    · refine ⟨(log ++ [p.logged]).length,hlogged,Nat.le_refl _,?_,fun _ => rfl,hsaver⟩
      simp only [hsync,hans,and_self,if_true]
      rw [List.take_length,← hlogged.bytes]
    · refine ⟨flushed,hlogged,?_,?_,fun hc => absurd (hmode ▸ hc) hsync,hsaver⟩
      · have := h.part
        rw [List.length_append]
        omega
      · simp only [hsync,false_and,if_false]
        rw [List.take_append_of_le_length h.part]
        exact h.synced
  · rw [if_neg hans] at hlogged ⊢
    rw [List.append_nil]
    refine ⟨flushed,hlogged,h.part,?_,fun hc => h.prompt (hmode ▸ hc),h.saver⟩
    simp only [hans,and_false,if_false]
    exact h.synced

theorem Kept.flush (h : Kept seed s log flushed) {fsync : Bool}
    (hs : s.step (.flush fsync) = some s') : ∃ flushed', Kept seed s' log flushed' := by
  have hlogged := h.logged.flush fsync
  have hmode : (s.engine.walWriter.flush fsync).2.syncMode = s.engine.walWriter.syncMode := by
    obtain hw | hw := flush_cases s.engine.walWriter fsync <;> rw [hw]
  simp only [step,Option.some.injEq] at hs
  subst hs
  by_cases hall : s.engine.walWriter.dirtySinceSync = true ∧
      (s.engine.walWriter.flush fsync).2.dirtySinceSync = false
  · refine ⟨log.length,hlogged,Nat.le_refl _,?_,fun _ => rfl,h.saver⟩
    rw [if_pos hall,List.take_length]
    exact congrArg List.length h.logged.bytes
  · refine ⟨flushed,hlogged,h.part,?_,fun hc => h.prompt (hmode ▸ hc),h.saver⟩
    rw [if_neg hall]
    exact h.synced

theorem Kept.step (h : Kept seed s log flushed) {a : Action} (ha : s.Orderly a)
    (hs : s.step a = some s') : ∃ flushed', Kept seed s' (log ++ s.records a) flushed' := by
  cases a with
  | process p => exact h.process ha.1 ha.2 hs
  | flush fsync =>
    simp only [records,List.append_nil]
    exact h.flush hs
  | checkpoint order padding =>
    obtain ⟨v,hv,rfl⟩ := Option.map_eq_some_iff.mp hs
    simp only [records,List.append_nil]
    have hallows : Saver.Action.Allows (Saved seed log) (.begin ⟨s.engine.working,
        order s.engine.working,UInt64.ofNat s.engine.walWriter.sizeBytes,padding⟩) := by
      intro f hf
      refine ⟨log.length,f,Nat.le_refl _,rfl,?_⟩
      rw [List.take_length,← h.logged.working,← h.logged.bytes,← h.logged.size]
      exact hf
    exact ⟨flushed,h.logged,h.part,h.synced,h.prompt,h.saver.step hallows hv⟩
  | snapshot c =>
    obtain ⟨v,hv,rfl⟩ := Option.map_eq_some_iff.mp hs
    simp only [records,List.append_nil]
    exact ⟨flushed,h.logged,h.part,h.synced,h.prompt,h.saver.step (by trivial) hv⟩

end Steps

section Crash

variable {seed : LedgerState} {s : Store} {log : List Transaction} {flushed : Nat}
  {inFlight : Option Popped} {wal : File} {snapshot : Option File}

def surviving (s : Store) (log : List Transaction) (inFlight : Option Popped) : List Transaction :=
  log ++ inFlight.elim [] (fun p => s.records (.process p))

def InOrder (s : Store) (inFlight : Option Popped) : Prop :=
  ∀ p ∈ inFlight, s.engine.ErrorFree p ∧ s.engine.Fresh p

theorem Kept.finishing (h : Kept seed s log flushed) (hp : s.InOrder inFlight) :
    Logged seed (s.finishing inFlight) (s.surviving log inFlight) := by
  cases inFlight with
  | none =>
    rw [surviving,Option.elim_none,List.append_nil]
    exact h.logged
  | some p =>
    obtain ⟨hio,hfresh⟩ := hp p rfl
    have hnext := h.logged.process hio hfresh
    rw [surviving,Option.elim_some,records]
    split at hnext
    · case isTrue hans =>
      rw [if_pos hans]
      exact hnext
    · case isFalse hans =>
      rw [if_neg hans,List.append_nil]
      exact hnext

theorem recover_beyond {st : LedgerState} {walOffset : UInt64} {snapshotFile f : File}
    (hsnap : Written st walOffset snapshotFile) (hf : f.bytes.length ≤ walOffset.toNat)
    (hmax : walOffset.toNat ≤ maxFileSize) :
    recover (some f) (some snapshotFile) .complete = (checked st walOffset.toNat,some f) := by
  have hend := BinaryWalReader.readNext_end (f := f)
    (r := BinaryWalReader.opened.seek walOffset.toNat) rfl hf hmax
  have hdrain : (BinaryWalReader.opened.seek walOffset.toNat).drain f replayRecord
      RecoveryIo.complete.read st = (st,.endOfLog,BinaryWalReader.opened.seek walOffset.toNat) :=
    BinaryWalReader.drain_stop hend (by simp) st
  rw [recover_written hsnap,replayLog_endOfLog hdrain]
  rfl

/-- After a failure the log holds whole records up to some transaction, at least all
that were synced, and the snapshot is of some moment of the run; recovery returns
the later of the two states. -/
theorem Kept.recover (h : Kept seed s log flushed) (hp : s.InOrder inFlight)
    (hcrash : s.AfterCrash inFlight wal snapshot) :
    ∃ i i₀ wal', flushed ≤ i ∧ i ≤ (s.surviving log inFlight).length ∧ i₀ ≤ log.length ∧
      Recovery.recover (some wal) snapshot .complete =
        (.ok ⟨((s.surviving log inFlight).take (max i i₀)).foldl replayRecord seed,
          (logBytes ((s.surviving log inFlight).take (max i i₀))).length⟩,some wal') ∧
      (i₀ ≤ i → wal'.bytes = logBytes ((s.surviving log inFlight).take i) ∧
        Saved seed ((s.surviving log inFlight).take i) snapshot) := by
  obtain ⟨⟨n,hn,rfl⟩,hdisk⟩ := hcrash
  have hlogged := h.finishing hp
  obtain ⟨i₀,f,hi₀,rfl,hwritten⟩ := h.saver.found.afterCrash hdisk
  have hpre : ∀ j, j ≤ log.length → log.take j = (s.surviving log inFlight).take j :=
    fun j hj => (List.take_append_of_le_length hj).symm
  have hlonger : log.length ≤ (s.surviving log inFlight).length := by
    rw [surviving,List.length_append]
    omega
  rw [hpre i₀ hi₀] at hwritten
  generalize s.surviving log inFlight = later at *
  obtain ⟨i,tail,hi,htail,htake,hmax⟩ := exists_torn later n
  have hbytes : ((s.finishing inFlight).wal.cut n).bytes = logBytes (later.take i) ++ tail := by
    rw [File.cut_bytes,hlogged.bytes,htake]
  have hflushed : flushed ≤ i := by
    refine hmax flushed (Nat.le_trans h.part hlonger) ?_
    rw [← hpre flushed h.part,← h.synced]
    exact hn
  have hinside : (logBytes (later.take i₀)).length ≤ maxFileSize := by
    have hfits := (s.finishing inFlight).wal.fits
    rw [hlogged.bytes,← List.take_append_drop i₀ later,logBytes_append,List.length_append] at hfits
    omega
  have hoffset : (UInt64.ofNat (logBytes (later.take i₀)).length).toNat =
      (logBytes (later.take i₀)).length := by
    rw [UInt64.toNat_ofNat']
    simp only [maxFileSize] at hinside
    omega
  rcases Nat.lt_or_ge i i₀ with hlt | hge
  · -- the log was cut before the place that the snapshot names
    have hbeyond : n < (logBytes (later.take i₀)).length := by
      by_contra hle
      have := hmax i₀ (Nat.le_trans hi₀ hlonger) (Nat.not_lt.mp hle)
      omega
    refine ⟨i,i₀,(s.finishing inFlight).wal.cut n,hflushed,hi,hi₀,?_,
      fun hle => absurd hle (Nat.not_le.mpr hlt)⟩
    rw [recover_beyond hwritten ?_ (by rw [hoffset]; exact hinside),hoffset,Nat.max_eq_right (Nat.le_of_lt hlt),
      checked_balanced (hlogged.balanced i₀)]
    rw [hoffset,File.cut_bytes,List.length_take]
    omega
  · have hsplit : later.take i = later.take i₀ ++ (later.take i).drop i₀ := by
      have htwice : (later.take i).take i₀ = later.take i₀ := by
        rw [List.take_take,Nat.min_eq_left hge]
      rw [← htwice,List.take_append_drop]
    have hlog : logBytes (later.take i) =
        logBytes (later.take i₀) ++ logBytes ((later.take i).drop i₀) := by
      rw [← logBytes_append,← hsplit]
    have hdrop : ((s.finishing inFlight).wal.cut n).bytes.drop
        (UInt64.ofNat (logBytes (later.take i₀)).length).toNat =
          logBytes ((later.take i).drop i₀) ++ tail := by
      rw [hbytes,hoffset,hlog,List.append_assoc,List.drop_left]
    have hle : (UInt64.ofNat (logBytes (later.take i₀)).length).toNat ≤
        ((s.finishing inFlight).wal.cut n).bytes.length := by
      rw [hoffset,hbytes,hlog,List.length_append,List.length_append]
      omega
    have hrec := recover_torn hwritten hle hdrop htail
    rw [← List.foldl_append,← hsplit,hoffset,← List.length_append,← hlog,
      checked_balanced (hlogged.balanced i)] at hrec
    rw [← Nat.max_eq_left hge] at hrec
    refine ⟨i,i₀,((s.finishing inFlight).wal.cut n).cut (logBytes (later.take (max i i₀))).length,
      hflushed,hi,hi₀,hrec,fun _ => ⟨?_,i₀,f,?_,rfl,?_⟩⟩
    · rw [Nat.max_eq_left hge,File.cut_bytes,hbytes,List.take_left]
    · rw [List.length_take]
      omega
    · rwa [List.take_take,Nat.min_eq_left hge]

theorem Kept.readAll_synced (h : Kept seed s log flushed) :
    readAll (s.engine.wal.cut s.synced) = log.take flushed := by
  refine readAll_log ?_
  rw [File.cut_bytes,h.logged.bytes,h.synced]
  conv => lhs; rw [← List.take_append_drop flushed log,logBytes_append]
  rw [List.take_append_drop,List.take_left]

end Crash

section Runs

variable {seed : LedgerState} {hash : IdempotencyKey → UInt64} {config : Config} {d : Dir Name}
  {s : Store} {acts : List Action} {inFlight : Option Popped} {wal : File}
  {snapshot : Option File}

def Prepared (seed : LedgerState) (d : Dir Name) : Prop :=
  ∃ f, d.file .path = some f ∧ Written seed 0 f

theorem start_kept (hseed : validateTrialBalance seed = .ok ()) (hd : Prepared seed d) :
    Kept seed (start hash config .empty seed d) [] 0 := by
  obtain ⟨f,hf,hwritten⟩ := hd
  have hsaved : Saved seed [] (d.file .path) := ⟨0,f,Nat.le_refl _,hf,hwritten⟩
  refine ⟨⟨rfl,rfl,rfl,rfl,fun i => ?_,fun i => ?_⟩,Nat.le_refl _,rfl,fun _ => rfl,
    Saver.start_safe hsaved⟩
  · rw [List.take_nil]
    rfl
  · rw [List.take_nil]
    exact hseed

/-- A power failure at any moment of a run, in either sync mode and also in the middle
of a request or of a snapshot: recovery succeeds, and returns the ledger after a
first part of the committed transactions that contains all that were synced. -/
theorem recovers_synced (hseed : validateTrialBalance seed = .ok ()) (hd : Prepared seed d)
    (hrun : StepRun.exec step (start hash config .empty seed d) acts = some s)
    (horder : StepRun.Guarded step Orderly (start hash config .empty seed d) acts)
    (hflight : s.InOrder inFlight) (hcrash : s.AfterCrash inFlight wal snapshot) :
    ∃ recovered m, (recover (some wal) snapshot .complete).1 = .ok recovered ∧
      (readAll (s.engine.wal.cut s.synced)).length ≤ m ∧
      seed.applyAll ((readAll (s.finishing inFlight).wal).take m) = .ok recovered.state := by
  obtain ⟨log,flushed,h⟩ := StepRun.exec_invariant (fun s => ∃ log flushed, Kept seed s log flushed)
    (fun _ _ _ ⟨log,_,h⟩ ha hs => ⟨_,h.step ha hs⟩) ⟨[],0,start_kept hseed hd⟩ horder hrun
  obtain ⟨i,i₀,wal',hflushed,-,-,hrec,-⟩ := h.recover hflight hcrash
  have hlogged := h.finishing hflight
  refine ⟨_,max i i₀,congrArg Prod.fst hrec,?_,?_⟩
  · rw [h.readAll_synced,List.length_take]
    omega
  · rw [readAll_log hlogged.bytes]
    exact hlogged.applies _

def unpaid (f : File) : Store :=
  start (fun _ => 0) sampleConfig .empty sampleChart ((Dir.empty.create .path).setContents 0 f)

theorem payments_orderly :
    (sampleEngine.ErrorFree (samplePopped 1) ∧ sampleEngine.Fresh (samplePopped 1)) ∧
    (sampleEngine.process (samplePopped 1)).ErrorFree (samplePopped 2) ∧
    (sampleEngine.process (samplePopped 1)).Fresh (samplePopped 2) := by
  have hio : StepRun.Along LedgerEngine.process ErrorFree sampleEngine
      [samplePopped 1,samplePopped 2] :=
    along_errorFree (n := 4096) rfl (by decide) (by decide) (by decide)
  exact ⟨⟨hio.1,by decide⟩,hio.2.1,by decide⟩

def paidOnce (f : File) : Store :=
  { unpaid f with engine := sampleEngine.process (samplePopped 1), synced := paymentLog.bytes.length }

theorem step_unpaid (f : File) : (unpaid f).step (.process (samplePopped 1)) = some (paidOnce f) := by
  have hcond : sampleEngine.walWriter.syncMode = .syncEveryWrite ∧
      sampleEngine.answer (samplePopped 1) = .none := by decide
  exact congrArg (fun n => some (Store.mk _ n _)) (if_pos hcond)

theorem paidOnce_inOrder (f : File) : (paidOnce f).InOrder (some (samplePopped 2)) := by
  rintro p ⟨⟩
  exact payments_orderly.2

theorem recovers_synced_torn : ∃ f recovered m, Written sampleChart 0 f ∧ 1 ≤ m ∧
    (recover (some ((paidOnce f).finishing (some (samplePopped 2)) |>.wal.cut 100)) (some f)
      .complete).1 = .ok recovered ∧
    sampleChart.applyAll ((readAll ((paidOnce f).finishing (some (samplePopped 2))).wal).take m) =
      .ok recovered.state := by
  obtain ⟨f,hf⟩ := exists_chartSnapshot 0
  have hrun : StepRun.exec step (unpaid f) [.process (samplePopped 1)] = some (paidOnce f) :=
    StepRun.exec_cons.mpr ⟨_,step_unpaid f,rfl⟩
  have hfound : (paidOnce f).saver.disk.AfterCrash .path (some f) :=
    ⟨_,List.mem_singleton_self _,f,rfl,fun _ => rfl⟩
  have hsynced : (paidOnce f).synced ≤ 100 := paymentLog_length.trans_le (by decide)
  obtain ⟨recovered,m,hrec,hm,hstate⟩ := recovers_synced (by decide) ⟨f,rfl,hf⟩ hrun
    ⟨payments_orderly.1,fun _ _ => trivial⟩ (paidOnce_inOrder f) ⟨⟨100,hsynced,rfl⟩,hfound⟩
  have hread : readAll ((paidOnce f).engine.wal.cut (paidOnce f).synced) =
      [(samplePopped 1).logged] := by
    refine readAll_log ?_
    rw [File.cut_bytes]
    exact List.take_length.trans (paymentLog_bytes.trans (List.append_nil _))
  rw [hread] at hm
  exact ⟨f,recovered,m,hf,hm,hrec,hstate⟩

/-- A ledger that is started, runs, loses power and is started again from what recovery
returns, any number of times; with the transactions that were acknowledged. -/
inductive Life (seed : LedgerState) : Store → List Transaction → Prop where
  | start {hash : IdempotencyKey → UInt64} {config : Config} {d : Dir Name} :
      config.syncMode = .syncEveryWrite → Prepared seed d →
      Life seed (start hash config .empty seed d) []
  | step {s s' : Store} {acknowledged : List Transaction} {a : Action} :
      Life seed s acknowledged → s.Orderly a → s.step a = some s' →
      Life seed s' (acknowledged ++ s.records a)
  | restart {s : Store} {acknowledged : List Transaction} {inFlight : Option Popped}
      {wal wal' : File} {snapshot : Option File} {recovered : RecoveredState}
      {hash : IdempotencyKey → UInt64} {config : Config} {d : Dir Name} :
      Life seed s acknowledged → s.InOrder inFlight → s.AfterCrash inFlight wal snapshot →
      recover (some wal) snapshot .complete = (.ok recovered,some wal') →
      config.syncMode = .syncEveryWrite → d.file .path = snapshot →
      Life seed (Store.start hash config wal' recovered.state d) acknowledged

/-- A log whose every record is on disk. -/
structure Whole (seed : LedgerState) (s : Store) (log : List Transaction) : Prop where
  kept : Kept seed s log log.length
  mode : s.engine.walWriter.syncMode = .syncEveryWrite

theorem Whole.of_kept {log : List Transaction} {flushed : Nat} (h : Kept seed s log flushed)
    (hmode : s.engine.walWriter.syncMode = .syncEveryWrite) : Whole seed s log :=
  ⟨h.prompt hmode ▸ h,hmode⟩

theorem step_syncMode {s' : Store} {a : Action} (hopen : s.engine.walWriter.fdValid = true)
    (hs : s.step a = some s') : s'.engine.walWriter.syncMode = s.engine.walWriter.syncMode := by
  cases a with
  | process p =>
    simp only [step,Option.some.injEq] at hs
    subst hs
    exact process_syncMode s.engine p hopen
  | flush fsync =>
    simp only [step,Option.some.injEq] at hs
    subst hs
    obtain hw | hw := flush_cases s.engine.walWriter fsync <;> simp only [hw]
  | checkpoint order padding =>
    obtain ⟨v,-,rfl⟩ := Option.map_eq_some_iff.mp hs
    rfl
  | snapshot c =>
    obtain ⟨v,-,rfl⟩ := Option.map_eq_some_iff.mp hs
    rfl

theorem Whole.recover {log : List Transaction} (h : Whole seed s log) (hp : s.InOrder inFlight)
    (hcrash : s.AfterCrash inFlight wal snapshot) :
    ∃ i wal', log.length ≤ i ∧
      Recovery.recover (some wal) snapshot .complete =
        (.ok ⟨((s.surviving log inFlight).take i).foldl replayRecord seed,
          (logBytes ((s.surviving log inFlight).take i)).length⟩,some wal') ∧
      wal'.bytes = logBytes ((s.surviving log inFlight).take i) ∧
      Saved seed ((s.surviving log inFlight).take i) snapshot := by
  obtain ⟨i,i₀,wal',hi,-,hi₀,hrec,hwal⟩ := h.kept.recover hp hcrash
  have hle : i₀ ≤ i := Nat.le_trans hi₀ hi
  obtain ⟨hbytes,hsaved⟩ := hwal hle
  rw [Nat.max_eq_left hle] at hrec
  exact ⟨i,wal',hi,hrec,hbytes,hsaved⟩

theorem prefix_surviving {log : List Transaction} {i : Nat} (hi : log.length ≤ i) :
    log <+: (s.surviving log inFlight).take i := by
  rw [surviving,List.take_append,List.take_of_length_le hi]
  exact List.prefix_append _ _

theorem Life.whole {acknowledged : List Transaction} (hseed : validateTrialBalance seed = .ok ())
    (h : Life seed s acknowledged) : ∃ log, Whole seed s log ∧ acknowledged.Sublist log := by
  induction h with
  | start hmode hd => exact ⟨[],⟨start_kept hseed hd,hmode⟩,.slnil⟩
  | step _ ha hs ih =>
    obtain ⟨log,hwhole,hsub⟩ := ih
    obtain ⟨flushed,hkept⟩ := hwhole.kept.step ha hs
    have hmode := (step_syncMode hwhole.kept.logged.opened hs).trans hwhole.mode
    exact ⟨_,.of_kept hkept hmode,hsub.append (.refl _)⟩
  | @restart s acknowledged inFlight wal wal' snapshot recovered hash config d
      _ hp hcrash hrec hmode hd ih =>
    obtain ⟨log,hwhole,hsub⟩ := ih
    obtain ⟨i,file,hi,hrec',hbytes,hsaved⟩ := hwhole.recover hp hcrash
    obtain ⟨hstate,hfile⟩ := Prod.mk.inj (hrec.symm.trans hrec')
    cases hstate
    cases hfile
    have hlogged := hwhole.kept.finishing hp
    have hall : ∀ j, ((s.surviving log inFlight).take i).take j =
        (s.surviving log inFlight).take (min j i) := fun j => List.take_take
    refine ⟨(s.surviving log inFlight).take i,⟨⟨⟨rfl,hbytes,rfl,rfl,fun j => ?_,fun j => ?_⟩,
      Nat.le_refl _,?_,fun _ => rfl,Saver.start_safe (hd ▸ hsaved)⟩,hmode⟩,?_⟩
    · rw [hall]
      exact hlogged.applies _
    · rw [hall]
      exact hlogged.balanced _
    · rw [List.take_length]
      exact congrArg List.length hbytes
    · exact hsub.trans (prefix_surviving hi).sublist

end Runs

end Store

end FinancialLedger
