import FinancialLedger.CrashConsistency
import FinancialLedger.WalRoundTrip
set_option autoImplicit false

namespace FinancialLedger
open PosixFile Wal Recovery

namespace LedgerEngine

section Checkpoint

variable {s : LedgerState} {offset : Nat} {e : LedgerEngine} {p : Popped} {ps : List Popped}

/-- The log is made of whole records, and memory is at or past all of them. -/
structure Recorded (e : LedgerEngine) : Prop where
  opened : e.walWriter.fdValid = true
  applied : ∃ log, e.wal.bytes = logBytes log ∧ ∀ tx ∈ log, tx.id ≤ e.working.lastAppliedId

theorem seeded_recorded (hash : IdempotencyKey → UInt64) (config : Config) (seed : LedgerState) :
    Recorded (seeded hash config .empty seed) := ⟨rfl,[],rfl,nofun⟩

theorem Recorded.process (h : Recorded e) (hio : e.ErrorFree p) (hfresh : e.Fresh p) :
    Recorded (e.process p) := by
  obtain ⟨hopen,log,hlog,hids⟩ := h
  obtain ⟨-,hopen',hb⟩ := process_errorFree hopen hio
  have hlast := process_lastAppliedId hfresh
  by_cases hans : e.answer p = .none
  · rw [if_pos hans] at hb hlast
    have hid := hfresh (answer_eq_none.mp hans)
    refine ⟨hopen',log ++ [p.logged],by rw [hb,hlog]; simp,?_⟩
    intro tx htx
    rw [hlast]
    obtain htx | htx := List.mem_append.mp htx
    · exact UInt64.le_of_lt (UInt64.lt_of_le_of_lt (hids tx htx) hid)
    · rw [List.mem_singleton.mp htx]
      exact UInt64.le_refl _
  · rw [if_neg hans,List.append_nil] at hb
    rw [if_neg hans] at hlast
    exact ⟨hopen',log,hb.trans hlog,fun tx htx => hlast ▸ hids tx htx⟩

theorem Recorded.processAll (h : Recorded e)
    (hrun : StepRun.Along LedgerEngine.process (fun e p => e.ErrorFree p ∧ e.Fresh p) e ps) :
    Recorded (e.processAll ps) :=
  StepRun.foldl_invariant Recorded (fun _ _ h hg => h.process hg.1 hg.2) h hrun

theorem foldl_replayRecord_covered {log : List Transaction}
    (h : ∀ tx ∈ log, tx.id ≤ s.lastAppliedId) : log.foldl replayRecord s = s := by
  induction log with
  | nil => rfl
  | cons tx log ih =>
    have hskip : replayRecord s tx = s := if_neg (UInt64.not_lt.mpr (h tx List.mem_cons_self))
    rw [List.foldl_cons,hskip]
    exact ih (fun tx' htx' => h tx' (List.mem_cons_of_mem _ htx'))

/-- The memory at a moment between two requests of a run, and a record boundary
of the log at that moment. -/
def Checkpoint (e : LedgerEngine) (ps : List Popped) (s : LedgerState) (offset : Nat) : Prop :=
  ∃ i before later, s = (e.after ps i).working ∧
    (e.after ps i).wal.bytes = logBytes (before ++ later) ∧ offset = (logBytes before).length

theorem Checkpoint.covers (h : Checkpoint e ps s offset) (hrecorded : Recorded e)
    (hrun : StepRun.Along LedgerEngine.process (fun e p => e.ErrorFree p ∧ e.Fresh p) e ps) :
    Covers s offset (e.processAll ps) := by
  obtain ⟨i,before,later,rfl,hbytes,rfl⟩ := h
  rw [← List.take_append_drop i ps,StepRun.along_append] at hrun
  obtain ⟨hopen,log,hlog,hids⟩ := hrecorded.processAll hrun.1
  have hsame : log = before ++ later := (readAll_log hlog).symm.trans (readAll_log hbytes)
  have hskip : later.foldl replayRecord (e.after ps i).working = (e.after ps i).working :=
    foldl_replayRecord_covered (fun tx htx => hids tx (by simp [hsame,htx]))
  have hcovers : Covers (e.after ps i).working (logBytes before).length (e.after ps i) := by
    refine ⟨hopen,?_,later,?_,hskip.symm⟩
    · rw [hbytes,logBytes_append,List.length_append]
      omega
    · rw [hbytes,logBytes_append,List.drop_left]
  rw [e.processAll_after ps i]
  exact hcovers.processAll hrun.2

/-- Recovery from any checkpoint of the run, with whatever earlier record
boundary it names, is recovery from the seed. -/
theorem recover_checkpoint (hash : IdempotencyKey → UInt64) (config : Config) (seed : LedgerState)
    (hseed : validateTrialBalance seed = .ok ()) (seedFile : File)
    (hseedFile : Snapshot.Written seed 0 seedFile) (calls : List Call)
    (hio : StepRun.Along LedgerEngine.process ErrorFree (seeded hash config .empty seed)
      (calls.flatMap Call.dequeued))
    (hids : (seed.lastAppliedId :: (accepted (calls.flatMap Call.dequeued)
      (((seeded hash config .empty seed).runCalls calls).answers.map Prod.snd)).map
        (fun p => p.request.tx.id)).Pairwise (· < ·))
    (s : LedgerState) (walOffset : UInt64)
    (hpoint : Checkpoint (seeded hash config .empty seed) (calls.flatMap Call.dequeued) s
      walOffset.toNat)
    (snapshotFile : File) (hsnap : Snapshot.Written s walOffset snapshotFile) :
    let e := (seeded hash config .empty seed).runCalls calls
    recover (some e.wal) (some snapshotFile) .complete =
        recover (some e.wal) (some seedFile) .complete ∧
      recover (some e.wal) (some snapshotFile) .complete =
        (.ok ⟨e.working,e.wal.bytes.length⟩,some e.wal) := by
  intro e
  have he : e = (seeded hash config .empty seed).processAll (calls.flatMap Call.dequeued) :=
    runCalls_eq _ calls
  rw [← show e = (seeded hash config .empty seed).runCalls calls from rfl,he,seeded_answers] at hids
  have hrun := hio.and (along_fresh hids)
  have hmirrors := StepRun.foldl_invariant (Mirrors seed)
    (fun _ _ h hg => h.process hg.1 hg.2) (seeded_mirrors hash config hseed) hrun
  rw [show (calls.flatMap Call.dequeued).foldl LedgerEngine.process
    (seeded hash config .empty seed) = e from he.symm] at hmirrors
  have hcovers := hpoint.covers (seeded_recorded hash config seed) hrun
  rw [← he] at hcovers
  have hsame : e.wal.bytes = e.wal.bytes ++ [] := (List.append_nil _).symm
  have hpointed := hcovers.recover hsnap hsame .nil
  rw [checked_balanced hmirrors.balanced] at hpointed
  exact ⟨hpointed.trans (hmirrors.recover hseedFile hsame .nil).symm,hpointed⟩

theorem exists_paidSnapshot (n : UInt64) :
    ∃ f, Snapshot.Written (sampleEngine.process (samplePopped 1)).working n f :=
  Snapshot.exists_written ⟨[⟨2,.revenue,105,0⟩,⟨1,.asset,105,0⟩],by decide⟩ n (by decide)

theorem recover_checkpoint_payments :
    ∃ seedFile snapshotFile, Snapshot.Written sampleChart 0 seedFile ∧
      Snapshot.Written (sampleEngine.process (samplePopped 1)).working 0 snapshotFile ∧
      recover (some (sampleEngine.runCalls [⟨10,[samplePopped 1,samplePopped 2]⟩]).wal)
          (some snapshotFile) .complete =
        recover (some (sampleEngine.runCalls [⟨10,[samplePopped 1,samplePopped 2]⟩]).wal)
          (some seedFile) .complete := by
  obtain ⟨f,hf⟩ := exists_chartSnapshot 0
  obtain ⟨g,hg⟩ := exists_paidSnapshot 0
  have hio : StepRun.Along LedgerEngine.process ErrorFree sampleEngine
      [samplePopped 1,samplePopped 2] :=
    along_errorFree (n := 4096) rfl (by decide) (by decide) (by decide)
  have hpoint : Checkpoint sampleEngine [samplePopped 1,samplePopped 2]
      (sampleEngine.process (samplePopped 1)).working 0 :=
    ⟨1,[],[(samplePopped 1).logged],rfl,paymentLog_bytes.trans (List.append_nil _),rfl⟩
  exact ⟨f,g,hf,hg,(recover_checkpoint (fun _ => 0) sampleConfig sampleChart (by decide) f hf
    [⟨10,[samplePopped 1,samplePopped 2]⟩] hio (by decide +kernel) _ 0 hpoint g hg).1⟩

end Checkpoint

section Restart

theorem processAll_balanced (e : LedgerEngine) (h : validateTrialBalance e.working = .ok ())
    (ps : List Popped) : validateTrialBalance (e.processAll ps).working = .ok () :=
  StepRun.foldl_invariant (fun e => validateTrialBalance e.working = .ok ())
    (fun _ p h _ => process_balanced h p) h (StepRun.along_true _ e ps)

/-- An engine that is started on what a recovery returned and commits only ids
above all earlier ones can be recovered in its turn. -/
theorem recover_restarted (hash hash' : IdempotencyKey → UInt64) (config config' : Config)
    (seed : LedgerState) (calls calls' : List Call)
    (hio : StepRun.Along LedgerEngine.process ErrorFree (seeded hash config .empty seed)
      (calls.flatMap Call.dequeued))
    (hids : (seed.lastAppliedId :: (accepted (calls.flatMap Call.dequeued)
      (((seeded hash config .empty seed).runCalls calls).answers.map Prod.snd)).map
        (fun p => p.request.tx.id)).Pairwise (· < ·))
    (s : LedgerState) (walOffset : UInt64)
    (hpoint : Checkpoint (seeded hash config .empty seed) (calls.flatMap Call.dequeued) s
      walOffset.toNat)
    (snapshotFile : File) (hsnap : Snapshot.Written s walOffset snapshotFile)
    (recovered : RecoveredState) (wal : File)
    (hrec : recover (some ((seeded hash config .empty seed).runCalls calls).wal)
      (some snapshotFile) .complete = (.ok recovered,some wal))
    (hio' : StepRun.Along LedgerEngine.process ErrorFree
      (seeded hash' config' wal recovered.state) (calls'.flatMap Call.dequeued))
    (hfresh : StepRun.Along LedgerEngine.process Fresh
      (seeded hash' config' wal recovered.state) (calls'.flatMap Call.dequeued)) :
    let e := (seeded hash' config' wal recovered.state).runCalls calls'
    recover (some e.wal) (some snapshotFile) .complete =
      (.ok ⟨e.working,e.wal.bytes.length⟩,some e.wal) := by
  intro e
  have he : e = (seeded hash' config' wal recovered.state).processAll
    (calls'.flatMap Call.dequeued) := runCalls_eq _ calls'
  rw [runCalls_eq] at hids hrec
  rw [seeded_answers] at hids
  have hcovers := hpoint.covers (seeded_recorded hash config seed) (hio.and (along_fresh hids))
  have hfirst := hcovers.recover hsnap (List.append_nil _).symm .nil
  obtain ⟨hchecked,hwal⟩ := Prod.mk.inj (hfirst.symm.trans hrec)
  obtain ⟨hbalanced,rfl⟩ := checked_ok hchecked
  cases hwal
  have hsecond : Covers s walOffset.toNat (seeded hash' config'
      ((seeded hash config .empty seed).processAll (calls.flatMap Call.dequeued)).wal
      ((seeded hash config .empty seed).processAll (calls.flatMap Call.dequeued)).working) :=
    ⟨rfl,hcovers.inside,hcovers.replays⟩
  have hend := hsecond.processAll (hio'.and hfresh)
  rw [← he] at hend
  have hlast : validateTrialBalance e.working = .ok () := by
    rw [he]
    exact processAll_balanced (seeded hash' config' _ _) hbalanced _
  rw [hend.recover hsnap (List.append_nil _).symm .nil,checked_balanced hlast]

/-- A payment with another key; its id is the first one a fresh counter gives. -/
def nextPayment (id : TransactionId) : Popped :=
  ⟨⟨{ samplePayment id with idempotencyKey := ⟨1,0⟩ },2⟩,⟨18,.accepts 4096,true⟩⟩

def restartedEngine : LedgerEngine :=
  seeded (fun _ => 0) sampleConfig (sampleEngine.process (samplePopped 1)).wal
    (sampleEngine.process (samplePopped 1)).working

theorem restartedEngine_room {n : Nat} (h : n ≤ 10) :
    restartedEngine.wal.bytes.length+n*kMaxRecordSize ≤ maxFileSize := by
  have hrecords := Nat.mul_le_mul_right kMaxRecordSize h
  have hmax : 83+10*kMaxRecordSize ≤ maxFileSize := by decide
  rw [show restartedEngine.wal = paymentLog from rfl,paymentLog_length]
  omega

theorem recover_samplePayment {snapshotFile : File}
    (h : Snapshot.Written sampleChart 0 snapshotFile) :
    recover (some (sampleEngine.runCalls [⟨10,[samplePopped 1]⟩]).wal) (some snapshotFile)
        .complete =
      (.ok ⟨(sampleEngine.process (samplePopped 1)).working,
          (sampleEngine.process (samplePopped 1)).wal.bytes.length⟩,
        some (sampleEngine.process (samplePopped 1)).wal) := by
  have hmirrors : Mirrors sampleChart sampleEngine := seeded_mirrors _ _ (by decide)
  have hio : StepRun.Along LedgerEngine.process ErrorFree sampleEngine [samplePopped 1] :=
    along_errorFree (n := 4096) rfl (by decide) (by decide) (by decide)
  exact (hmirrors.process hio.1 (by decide)).recover h (List.append_nil _).symm .nil

theorem recover_restarted_fresh :
    ∃ snapshotFile, Snapshot.Written sampleChart 0 snapshotFile ∧
      recover (some (restartedEngine.runCalls [⟨10,[nextPayment 2]⟩]).wal) (some snapshotFile)
          .complete =
        (.ok ⟨(restartedEngine.runCalls [⟨10,[nextPayment 2]⟩]).working,
            (restartedEngine.runCalls [⟨10,[nextPayment 2]⟩]).wal.bytes.length⟩,
          some (restartedEngine.runCalls [⟨10,[nextPayment 2]⟩]).wal) := by
  obtain ⟨f,hf⟩ := exists_chartSnapshot 0
  have hio : StepRun.Along LedgerEngine.process ErrorFree sampleEngine [samplePopped 1] :=
    along_errorFree (n := 4096) rfl (by decide) (by decide) (by decide)
  have hio' : StepRun.Along LedgerEngine.process ErrorFree restartedEngine [nextPayment 2] :=
    along_errorFree (n := 4096) rfl (by decide) (by decide) (restartedEngine_room (by decide))
  have hpoint : Checkpoint sampleEngine [samplePopped 1] sampleChart 0 :=
    ⟨0,[],[],rfl,rfl,rfl⟩
  have hrec := recover_restarted (fun _ => 0) (fun _ => 0) sampleConfig sampleConfig sampleChart
    [⟨10,[samplePopped 1]⟩] [⟨10,[nextPayment 2]⟩] hio (by decide) sampleChart 0 hpoint f hf
    _ _ (recover_samplePayment hf) hio' ⟨by decide,trivial⟩
  exact ⟨f,hf,hrec⟩

/-- With the id 1 that its own counter gives, the payment is committed and then
skipped by the next recovery. -/
theorem restarted_lost :
    ∃ snapshotFile recovered, Snapshot.Written sampleChart 0 snapshotFile ∧
      recover (some (sampleEngine.runCalls [⟨10,[samplePopped 1]⟩]).wal) (some snapshotFile)
          .complete =
        (.ok ⟨(sampleEngine.process (samplePopped 1)).working,
            (sampleEngine.process (samplePopped 1)).wal.bytes.length⟩,
          some (sampleEngine.process (samplePopped 1)).wal) ∧
      (restartedEngine.runCalls [⟨10,[nextPayment 1]⟩]).answers = [(2,.none)] ∧
      ((restartedEngine.runCalls [⟨10,[nextPayment 1]⟩]).working.findAccount 1).map
        Account.balance = some 110 ∧
      (recover (some (restartedEngine.runCalls [⟨10,[nextPayment 1]⟩]).wal) (some snapshotFile)
        .complete).1 = .ok recovered ∧
      (recovered.state.findAccount 1).map Account.balance = some 105 := by
  obtain ⟨f,hf⟩ := exists_chartSnapshot 0
  have hio : StepRun.Along LedgerEngine.process ErrorFree restartedEngine [nextPayment 1] :=
    along_errorFree (n := 4096) rfl (by decide) (by decide) (restartedEngine_room (by decide))
  have hwal : (restartedEngine.runCalls [⟨10,[nextPayment 1]⟩]).wal.bytes =
      logBytes [(samplePopped 1).logged,(nextPayment 1).logged] ++ [] := by
    have hbytes := (processAll_errorFree rfl hio).2.1
    rw [show restartedEngine.answersTo [nextPayment 1] = [.none] by decide,
      show restartedEngine.wal = paymentLog from rfl,paymentLog_bytes] at hbytes
    rw [runCalls_eq]
    exact hbytes.trans (by simp [accepted])
  have hrec := recover_torn hf (Nat.zero_le _) hwal .nil
  have htrial : validateTrialBalance ([(samplePopped 1).logged,(nextPayment 1).logged].foldl
      replayRecord sampleChart) = .ok () := by decide
  rw [checked_balanced htrial] at hrec
  exact ⟨f,_,hf,recover_samplePayment hf,by decide,by decide,
    congrArg Prod.fst hrec,by decide⟩

end Restart

section Published

variable {e : LedgerEngine} {p : Popped} {ps : List Popped} {done : List Transaction}

def period (e : LedgerEngine) : Nat := max 1 e.publishSnapshotEveryN

theorem period_pos (e : LedgerEngine) : 0 < e.period := Nat.lt_of_lt_of_le Nat.one_pos (le_max_left ..)

/-- What readers see after the commits `done`: once there was a publish, the
last commits that do not fill a period lead from it to the working copy. -/
structure Publishes (done : List Transaction) (e : LedgerEngine) : Prop where
  counter : e.processedSincePublish = done.length%e.period
  lag : e.period ≤ done.length →
    e.published.applyAll (done.drop (done.length-done.length%e.period)) = .ok e.working
  kept : e.period ≤ done.length → e.published.imbalance = e.working.imbalance

theorem Publishes.start {e : LedgerEngine} (h : e.processedSincePublish = 0) : Publishes [] e :=
  ⟨h.trans (Nat.zero_mod _).symm,fun h => absurd h (Nat.not_le.mpr (period_pos _)),
    fun h => absurd h (Nat.not_le.mpr (period_pos _))⟩

theorem succ_mod_period (n k : Nat) (hk : 0 < k) :
    (n+1)%k = if k ≤ n%k+1 then 0 else n%k+1 := by
  have hlt := Nat.mod_lt n hk
  have hdiv := Nat.div_add_mod n k
  split
  · case isTrue hfull =>
    have hn : n+1 = k*(n/k+1) := by
      rw [Nat.mul_succ]
      omega
    rw [hn,Nat.mul_mod_right]
  · case isFalse hroom =>
    have hn : n+1 = n%k+1+k*(n/k) := by omega
    rw [hn,Nat.add_mul_mod_self_left,Nat.mod_eq_of_lt (by omega)]

theorem full_of_full_succ {n k : Nat} (hroom : ¬ k ≤ n%k+1) (hle : k ≤ n+1) : k ≤ n := by
  by_contra hsmall
  rw [Nat.mod_eq_of_lt (Nat.not_le.mp hsmall)] at hroom
  exact hroom hle

theorem publish_due_iff {n : Nat} (hcounter : e.processedSincePublish = n%e.period) :
    e.publishSnapshotEveryN ≤ e.processedSincePublish+1 ↔ e.period ≤ n%e.period+1 := by
  rw [hcounter]
  simp only [period]
  omega

theorem Publishes.commit (h : Publishes done e) {s : LedgerState} {tx : Transaction}
    (happly : e.working.apply tx = (.ok (),s)) (hkept : s.imbalance = e.working.imbalance) :
    Publishes (done ++ [tx]) ({ e with working := s } : LedgerEngine).publishIfDue := by
  obtain ⟨hcounter,hlag,himb⟩ := h
  have hpos := e.period_pos
  have hmod := succ_mod_period done.length e.period hpos
  have hlt := Nat.mod_lt done.length hpos
  have hlen : (done ++ [tx]).length = done.length+1 := by simp
  have hdue := publish_due_iff hcounter
  unfold publishIfDue
  split
  · case isTrue hpublish =>
    have hzero : (done.length+1)%e.period = 0 := hmod.trans (if_pos (hdue.mp hpublish))
    refine ⟨by rw [hlen]; exact hzero.symm,fun _ => ?_,fun _ => rfl⟩
    show s.applyAll ((done ++ [tx]).drop ((done ++ [tx]).length-(done ++ [tx]).length%e.period)) = _
    rw [hlen,hzero,Nat.sub_zero,← hlen,List.drop_length]
    rfl
  · case isFalse hwait =>
    have hroom : ¬ e.period ≤ done.length%e.period+1 := fun hfull => hwait (hdue.mpr hfull)
    have hnext : (done.length+1)%e.period = done.length%e.period+1 := hmod.trans (if_neg hroom)
    have hfull := @full_of_full_succ done.length e.period hroom
    refine ⟨by rw [hlen]; exact (congrArg (·+1) hcounter).trans hnext.symm,?_,?_⟩
    · intro hle
      show e.published.applyAll ((done ++ [tx]).drop
        ((done ++ [tx]).length-(done ++ [tx]).length%e.period)) = .ok s
      have hstart : done.length+1-(done.length%e.period+1) =
          done.length-done.length%e.period := by omega
      rw [hlen,hnext,hstart,List.drop_append_of_le_length (by omega)]
      have happlied := LedgerState.applyAll_snoc (hlag (hfull (hlen ▸ hle)))
        (show (e.working.apply tx).1 = .ok () by rw [happly])
      rwa [happly] at happlied
    · intro hle
      exact (himb (hfull (hlen ▸ hle))).trans hkept.symm

theorem process_period (e : LedgerEngine) (p : Popped) : (e.process p).period = e.period := by
  have hperiod : ∀ e : LedgerEngine, e.publishIfDue.publishSnapshotEveryN =
      e.publishSnapshotEveryN := by
    intro e
    unfold publishIfDue
    split <;> rfl
  obtain ⟨-,-,hp⟩ | ⟨-,-,w,f,-,hp⟩ | ⟨-,-,w,f,-,hp⟩ := e.process_cases p
  · rw [hp]
    rfl
  · rw [hp]
    rfl
  · rw [hp,period,complete,hperiod]
    rfl

theorem Publishes.process (h : Publishes done e) (p : Popped) :
    Publishes (done ++ (if e.answer p = .none then [p.request.tx] else [])) (e.process p) := by
  obtain ⟨hv,hans,hp⟩ | ⟨-,hans,w,f,-,hp⟩ | ⟨hv,hans,w,f,-,hp⟩ := e.process_cases p
  · rw [if_neg (hans ▸ hv),List.append_nil,hp]
    exact ⟨h.counter,h.lag,h.kept⟩
  · rw [if_neg hans,List.append_nil,hp]
    exact ⟨h.counter,h.lag,h.kept⟩
  · rw [if_pos hans,hp]
    have hmid : Publishes done
        ({ e.remember p.request.tx with walWriter := w, wal := f } : LedgerEngine) :=
      ⟨h.counter,h.lag,h.kept⟩
    have happly : e.working.apply p.request.tx = (.ok (),(e.working.apply p.request.tx).2) := by
      rw [← apply_of_verdict hv]
    obtain ⟨hcounter,hlag,hkept⟩ := hmid.commit happly (imbalance_apply_eq hv)
    exact ⟨hcounter,hlag,hkept⟩

theorem Publishes.processAll (h : Publishes done e) (ps : List Popped) :
    Publishes (done ++ (accepted ps (e.answersTo ps)).map (fun p => p.request.tx))
      (e.processAll ps) := by
  induction ps generalizing e done with
  | nil =>
    rw [accepted_nil,List.map_nil,List.append_nil]
    exact h
  | cons p ps ih =>
    have hstep := ih (h.process p)
    rw [List.append_assoc] at hstep
    rw [answersTo,accepted_cons]
    split
    · case isTrue hans =>
      rw [if_pos hans] at hstep
      exact hstep
    · case isFalse hans =>
      rw [if_neg hans] at hstep
      exact hstep

theorem process_sizeBytes (hopen : e.walWriter.fdValid = true) (hio : e.ErrorFree p)
    (h : e.walWriter.sizeBytes = e.wal.bytes.length) :
    (e.process p).walWriter.sizeBytes = (e.process p).wal.bytes.length := by
  obtain ⟨hv,hans,hp⟩ | ⟨hv,hans,w,f,ha,hp⟩ | ⟨hv,hans,w,f,ha,hp⟩ := e.process_cases p
  · rw [hp]
    exact h
  · have hverdict := (process_errorFree hopen hio).1
    exact absurd (hverdict.trans hv) hans
  · rw [hp,complete,publishIfDue_walWriter,publishIfDue_wal]
    obtain ⟨hb,-,hsize⟩ := BinaryWalWriter.append_ok hopen ha
    rw [hsize,hb,List.length_append,h]

theorem processAll_sizeBytes (hopen : e.walWriter.fdValid = true)
    (h : e.walWriter.sizeBytes = e.wal.bytes.length)
    (hio : StepRun.Along LedgerEngine.process ErrorFree e ps) :
    (e.processAll ps).walWriter.sizeBytes = (e.processAll ps).wal.bytes.length :=
  (StepRun.foldl_invariant (fun e => e.walWriter.fdValid = true ∧
      e.walWriter.sizeBytes = e.wal.bytes.length)
    (fun _ _ h hio => ⟨(process_errorFree h.1 hio).2.1,process_sizeBytes h.1 hio h.2⟩)
    ⟨hopen,h⟩ hio).2

theorem processAll_period (e : LedgerEngine) (ps : List Popped) :
    (e.processAll ps).period = e.period := by
  induction ps generalizing e with
  | nil => rfl
  | cons p ps ih => exact (ih (e.process p)).trans (e.process_period p)

/-- From the end of the log there is nothing to replay. -/
theorem recover_at_end {s : LedgerState} {snapshotFile : File}
    (hsize : e.walWriter.sizeBytes = e.wal.bytes.length)
    (hsnap : Snapshot.Written s (UInt64.ofNat e.walWriter.sizeBytes) snapshotFile) :
    (recover (some e.wal) (some snapshotFile) .complete).1 = checked s e.wal.bytes.length := by
  have hoffset : (UInt64.ofNat e.walWriter.sizeBytes).toNat = e.wal.bytes.length := by
    have hfits := e.wal.fits
    rw [UInt64.toNat_ofNat',hsize]
    simp only [maxFileSize] at hfits
    omega
  have hend : e.wal.bytes.drop (UInt64.ofNat e.walWriter.sizeBytes).toNat = logBytes [] ++ [] := by
    rw [hoffset,List.drop_length]
    rfl
  rw [recover_torn hsnap (Nat.le_of_eq hoffset) hend .nil,hoffset]
  rfl

theorem balances_eq_iff {s s' : LedgerState} {txs : List Transaction}
    (h : s.applyAll txs = .ok s') :
    (∀ id, (s.findAccount id).map Account.balance = (s'.findAccount id).map Account.balance) ↔
      ∀ id a, s.findAccount id = some a →
        legsDelta a.type id (txs.flatMap (fun tx => tx.legs.span)) = 0 := by
  refine forall_congr' (fun id => ?_)
  rw [LedgerState.findAccount_applyAll h id]
  cases ha : s.findAccount id with
  | none => simp
  | some a =>
    have hsum : ∀ d : Amount, a.balance = a.balance+d ↔ d = 0 := fun d => by
      constructor <;> intro hd <;> grind
    simp [Account.post,s.keyed id a ha,hsum]

/-- A snapshot of what readers see, paired with the end of the log: recovery has
nothing to replay and returns the published copy. Its balances are those of the
writer exactly if what was committed since the last publish cancels out. -/
theorem recover_published_iff (hash : IdempotencyKey → UInt64) (config : Config) (wal : File)
    (seed : LedgerState) (calls : List Call)
    (hio : StepRun.Along LedgerEngine.process ErrorFree (seeded hash config wal seed)
      (calls.flatMap Call.dequeued))
    (hpublished : max 1 config.publishSnapshotEveryN ≤ (accepted (calls.flatMap Call.dequeued)
      (((seeded hash config wal seed).runCalls calls).answers.map Prod.snd)).length)
    (snapshotFile : File)
    (hsnap : Snapshot.Written ((seeded hash config wal seed).runCalls calls).published
      (UInt64.ofNat ((seeded hash config wal seed).runCalls calls).walWriter.sizeBytes)
      snapshotFile) :
    let e := (seeded hash config wal seed).runCalls calls
    let committed := accepted (calls.flatMap Call.dequeued) (e.answers.map Prod.snd)
    let lagging := (committed.drop (committed.length-
      committed.length%max 1 config.publishSnapshotEveryN)).map (fun p => p.request.tx)
    (∃ recovered, (recover (some e.wal) (some snapshotFile) .complete).1 = .ok recovered ∧
      ∀ id, (recovered.state.findAccount id).map Account.balance =
        (e.working.findAccount id).map Account.balance) ↔
    validateTrialBalance seed = .ok () ∧ ∀ id a, e.published.findAccount id = some a →
      legsDelta a.type id (lagging.flatMap (fun tx => tx.legs.span)) = 0 := by
  intro e committed lagging
  have he : e = (seeded hash config wal seed).processAll (calls.flatMap Call.dequeued) :=
    runCalls_eq _ calls
  have hcommitted : committed = accepted (calls.flatMap Call.dequeued)
      ((seeded hash config wal seed).answersTo (calls.flatMap Call.dequeued)) := by
    rw [← seeded_answers,← he]
  have hperiod : e.period = max 1 config.publishSnapshotEveryN := by
    rw [he,processAll_period]
    rfl
  have hstart : Publishes [] (seeded hash config wal seed) := .start rfl
  have hpublishes := hstart.processAll (calls.flatMap Call.dequeued)
  rw [← he,List.nil_append,← hcommitted] at hpublishes
  have hfull : e.period ≤ (committed.map (fun p => p.request.tx)).length := by
    rw [hperiod,List.length_map]
    exact hpublished
  have hlag := hpublishes.lag hfull
  rw [← List.map_drop,List.length_map,hperiod] at hlag
  have hsize : e.walWriter.sizeBytes = e.wal.bytes.length := by
    rw [he]
    exact processAll_sizeBytes rfl rfl hio
  have hrec := recover_at_end hsize hsnap
  have hwork : e.working.imbalance = seed.imbalance := by
    have hstart : (seeded hash config wal seed).working.imbalance = seed.imbalance := rfl
    rw [he]
    exact processAll_working_invariant (fun s => s.imbalance = seed.imbalance)
      (fun _ _ _ hs hv => (imbalance_apply_eq hv).trans hs) hstart _
  have hseed : validateTrialBalance e.published = .ok () ↔ validateTrialBalance seed = .ok () := by
    rw [validateTrialBalance_iff,validateTrialBalance_iff,hpublishes.kept hfull,hwork]
  have hbalance := balances_eq_iff hlag
  rw [hrec]
  constructor
  · rintro ⟨recovered,hok,hsame⟩
    obtain ⟨htrial,rfl⟩ := checked_ok hok
    exact ⟨hseed.mp htrial,hbalance.mp hsame⟩
  · rintro ⟨htrial,hsame⟩
    exact ⟨_,checked_balanced (hseed.mpr htrial) _,hbalance.mpr hsame⟩

def pairedConfig : Config := { sampleConfig with publishSnapshotEveryN := 2 }

def pairedEngine : LedgerEngine := .seeded (fun _ => 0) pairedConfig .empty sampleChart

def threePayments : List Call := [⟨10,[samplePopped 1,samplePopped 2,samplePopped 3]⟩]

theorem exists_pairedSnapshot (e : LedgerEngine) (balance : Amount)
    (h : e.published.accounts.entries =
      ↑[(⟨2,⟨2,.revenue,balance,0⟩⟩ : Sigma (fun _ : AccountId => Account)),
        ⟨1,⟨1,.asset,balance,0⟩⟩]) :
    ∃ f, Snapshot.Written e.published (UInt64.ofNat e.walWriter.sizeBytes) f :=
  Snapshot.exists_written ⟨[⟨2,.revenue,balance,0⟩,⟨1,.asset,balance,0⟩],h.symm⟩ _
    (show Snapshot.kHeaderSize+2*Snapshot.kRecordSize ≤ maxRwCount by decide)

theorem legsDelta_refunded (type : AccountType) (id : AccountId) :
    legsDelta type id ((samplePayment 4).legs.span ++ (sampleWithdrawal 5 5).request.tx.legs.span) = 0 := by
  by_cases hone : id = 1 <;> by_cases htwo : id = 2 <;> cases hn : isDebitNormal type <;>
    simp_all [legsDelta,samplePayment,sampleWithdrawal,withdrawal,signedDelta,increases,eq_comm (b := id)]

def refundedConfig : Config := { sampleConfig with publishSnapshotEveryN := 3 }

def refundedEngine : LedgerEngine := .seeded (fun _ => 0) refundedConfig .empty sampleChart

def refundedCalls : List Call :=
  [⟨10,[samplePopped 1,samplePopped 2,samplePopped 3,samplePopped 4,sampleWithdrawal 5 5]⟩]

theorem recover_published_pair :
    ∃ snapshotFile recovered,
      (recover (some (refundedEngine.runCalls refundedCalls).wal) (some snapshotFile)
        .complete).1 = .ok recovered ∧
      (refundedEngine.runCalls refundedCalls).published.lastAppliedId = 3 ∧
      (refundedEngine.runCalls refundedCalls).working.lastAppliedId = 5 ∧
      (recovered.state.findAccount 1).map Account.balance = some 115 := by
  obtain ⟨f,hf⟩ := exists_pairedSnapshot (refundedEngine.runCalls refundedCalls) 115
    (by decide +kernel)
  have hio : StepRun.Along LedgerEngine.process ErrorFree refundedEngine
      (refundedCalls.flatMap Call.dequeued) :=
    along_errorFree (n := 4096) rfl (by decide) (by decide) (by decide)
  have hcommitted : accepted (refundedCalls.flatMap Call.dequeued)
      ((refundedEngine.runCalls refundedCalls).answers.map Prod.snd) =
        [samplePopped 1,samplePopped 2,samplePopped 3,samplePopped 4,sampleWithdrawal 5 5] := by
    rw [show (refundedEngine.runCalls refundedCalls).answers.map Prod.snd =
      [.none,.none,.none,.none,.none] by decide +kernel]
    rfl
  have hiff := recover_published_iff (fun _ => 0) refundedConfig .empty sampleChart refundedCalls hio
    (by rw [← refundedEngine,hcommitted]; decide) f hf
  dsimp only at hiff
  rw [← refundedEngine,hcommitted] at hiff
  obtain ⟨recovered,hok,hsame⟩ :=
    hiff.mpr ⟨by decide,fun id a _ => legsDelta_refunded a.type id⟩
  exact ⟨f,recovered,hok,by decide +kernel,by decide +kernel,(hsame 1).trans (by decide +kernel)⟩

/-- After the third payment the copy lacks it and the offset is behind its
record, so recovery loses it. -/
theorem published_lost :
    ∃ snapshotFile recovered,
      Snapshot.Written (pairedEngine.runCalls threePayments).published
        (UInt64.ofNat (pairedEngine.runCalls threePayments).walWriter.sizeBytes) snapshotFile ∧
      (pairedEngine.runCalls threePayments).answers = [(1,.none),(2,.none),(3,.none)] ∧
      ((pairedEngine.runCalls threePayments).working.findAccount 1).map Account.balance =
        some 115 ∧
      (recover (some (pairedEngine.runCalls threePayments).wal) (some snapshotFile)
        .complete).1 = .ok recovered ∧
      (recovered.state.findAccount 1).map Account.balance = some 110 := by
  obtain ⟨f,hf⟩ := exists_pairedSnapshot (pairedEngine.runCalls threePayments) 110
    (by decide +kernel)
  have hsize : (pairedEngine.runCalls threePayments).walWriter.sizeBytes =
      (pairedEngine.runCalls threePayments).wal.bytes.length := by
    rw [runCalls_eq]
    exact processAll_sizeBytes rfl rfl
      (along_errorFree (n := 4096) rfl (by decide) (by decide) (by decide))
  have htrial : validateTrialBalance (pairedEngine.runCalls threePayments).published = .ok () := by
    decide +kernel
  have hrec := recover_at_end hsize hf
  rw [checked_balanced htrial] at hrec
  exact ⟨f,_,hf,by decide +kernel,by decide +kernel,hrec,by decide +kernel⟩

end Published

end LedgerEngine

end FinancialLedger
