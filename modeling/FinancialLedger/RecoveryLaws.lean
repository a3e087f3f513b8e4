import FinancialLedger.Recovery
import FinancialLedger.SequentialLedger
set_option autoImplicit false

/-!
What one call of `recover` does for arbitrary files and arbitrary answers of the
kernel.
-/

namespace FinancialLedger.Recovery
open PosixFile Wal

/-- The state and the offset from which replay starts; none for a snapshot that
stops the recovery. -/
def replayStart (snapshotFile : Option File) (io : Snapshot.LoadIo) :
    Option (LedgerState × Nat) :=
  match Snapshot.loadSnapshot snapshotFile io with
  | .ok l => some (l.state,l.walOffset.toNat)
  | .error .snapshotCorrupt => none
  | .error _ => some (.empty,0)

def replayed (wal : Option File) (io : RecoveryIo) (offset : Nat) : List Transaction :=
  match wal, io.walOpens with
  | some f, true => (BinaryWalReader.opened.seek offset).visited f io.read
  | _, _ => []

section Cases

variable {wal snapshotFile : Option File} {io : RecoveryIo} {f : File} {s : LedgerState}
  {offset : Nat}

theorem recover_corrupt (h : replayStart snapshotFile io.snapshot = none) :
    recover wal snapshotFile io = (.error .snapshotCorrupt,wal) := by
  unfold replayStart at h
  unfold recover
  split at h
  · cases h
  · case h_2 hc => rw [hc]
  · cases h

theorem recover_started (h : replayStart snapshotFile io.snapshot = some (s,offset)) :
    recover wal snapshotFile io =
      match wal, io.walOpens with
      | some f, true => ((replayLog f io s offset).1,some (replayLog f io s offset).2)
      | _, _ => if offset ≠ 0 then (.error .walOpenFailed,wal) else (checked s 0,wal) := by
  unfold replayStart at h
  unfold recover
  split at h
  · case h_1 l hl =>
    cases h
    cases wal with
    | none => simp only [hl]
    | some f => cases io.walOpens <;> simp only [hl]
  · cases h
  · case h_3 error hne he =>
    cases h
    rw [he]
    split
    · case h_1 hc => exact absurd (Except.error.inj hc) hne
    · rfl

theorem recover_opened (h : replayStart snapshotFile io.snapshot = some (s,offset))
    (hopen : io.walOpens = true) {result : Result RecoveredState} {f' : File}
    (hreplay : replayLog f io s offset = (result,f')) :
    recover (some f) snapshotFile io = (result,some f') := by
  rw [recover_started h,hopen]
  show ((replayLog f io s offset).1,some (replayLog f io s offset).2) = _
  rw [hreplay]

theorem recover_file (h : replayStart snapshotFile io.snapshot = some (s,offset))
    (hopen : io.walOpens = true) :
    (recover (some f) snapshotFile io).2 = some (replayLog f io s offset).2 := by
  rw [recover_started h,hopen]

theorem replayLog_endOfLog {s' : LedgerState} {stop : BinaryWalReader}
    (h : (BinaryWalReader.opened.seek offset).drain f replayRecord io.read s =
      (s',.endOfLog,stop)) : replayLog f io s offset = (checked s' stop.lastValidOffset,f) := by
  rw [replayLog,h]
  exact if_pos rfl

theorem recover_unopened (h : replayStart snapshotFile io.snapshot = some (s,offset))
    (hopen : io.walOpens = false) :
    recover wal snapshotFile io =
      if offset ≠ 0 then (.error .walOpenFailed,wal) else (checked s 0,wal) := by
  rw [recover_started h,hopen]
  cases wal <;> rfl

theorem truncateWal_cases (f : File) (validOffset : Nat) (io : RecoveryIo) :
    (io.truncateOpens = false ∧ truncateWal f validOffset io = (.error .walOpenFailed,f)) ∨
    (f.ftruncate validOffset io.ftruncate = none ∧
      truncateWal f validOffset io = (.error .walWriteFailed,f)) ∨
    (∃ f', io.truncateOpens = true ∧ f.ftruncate validOffset io.ftruncate = some f' ∧
      (io.fsync = false ∧ truncateWal f validOffset io = (.error .walSyncFailed,f') ∨
        truncateWal f validOffset io = (.ok (),f'))) := by
  unfold truncateWal
  cases hopens : io.truncateOpens with
  | false => exact .inl ⟨rfl,rfl⟩
  | true =>
    cases ht : f.ftruncate validOffset io.ftruncate with
    | none => exact .inr (.inl ⟨rfl,rfl⟩)
    | some f' =>
      cases hsync : io.fsync with
      | false => exact .inr (.inr ⟨f',rfl,rfl,.inl ⟨rfl,rfl⟩⟩)
      | true => exact .inr (.inr ⟨f',rfl,rfl,.inr rfl⟩)

/-- The loop visits a run of well-formed records and stops behind it; what
follows depends on how it stopped and on `truncate_wal`. -/
theorem replayLog_cases (f : File) (io : RecoveryIo) (s : LedgerState) (offset : Nat) :
    ∃ (recs : List WellFormedRecord) (outcome : ReadResult),
      let stop := (BinaryWalReader.opened.seek offset).skip (runBytes recs).length
      let s' := (recs.map WellFormedRecord.tx).foldl replayRecord s
      RunAt f offset recs ∧
      (BinaryWalReader.opened.seek offset).visited f io.read = recs.map WellFormedRecord.tx ∧
      (BinaryWalReader.opened.seek offset).drain f replayRecord io.read s = (s',outcome,stop) ∧
      stop.readNext f (io.read recs.length) = (outcome,stop) ∧
      ((outcome = .endOfLog ∧ replayLog f io s offset = (checked s' stop.cursor,f)) ∨
        outcome ≠ .endOfLog ∧
          ((∃ error, replayLog f io s offset = (.error error,f)) ∨
          ∃ f', io.truncateOpens = true ∧ f.ftruncate stop.cursor io.ftruncate = some f' ∧
            (replayLog f io s offset = (.error .walSyncFailed,f') ∨
              replayLog f io s offset = (checked s' stop.cursor,f')))) := by
  obtain ⟨recs,outcome,hrun,hstop,-,hdrain⟩ :=
    (BinaryWalReader.opened.seek offset).exists_run (f := f) io.read rfl
  refine ⟨recs,outcome,hrun,?_,hdrain _ _ _,hstop,?_⟩
  · rw [BinaryWalReader.visited,hdrain,foldl_snoc]
    rfl
  · simp only [replayLog,hdrain]
    by_cases hend : outcome = .endOfLog
    · rw [if_pos hend]
      exact .inl ⟨hend,rfl⟩
    · rw [if_neg hend]
      refine .inr ⟨hend,?_⟩
      obtain ⟨-,ht⟩ | ⟨-,ht⟩ | ⟨f',hopens,hf',⟨-,ht⟩ | ht⟩ := truncateWal_cases f
        ((BinaryWalReader.opened.seek offset).skip (runBytes recs).length).lastValidOffset io
      · exact .inl ⟨_,by rw [ht]⟩
      · exact .inl ⟨_,by rw [ht]⟩
      · exact .inr ⟨f',hopens,hf',.inl (by rw [ht])⟩
      · exact .inr ⟨f',hopens,hf',.inr (by rw [ht]; rfl)⟩

end Cases

section AllOrNothing

/-- The results of the `apply` calls of the replay loop, which it drops. -/
def applyResults : LedgerState → List Transaction → List (Result Unit)
  | _, [] => []
  | s, tx :: txs =>
      if s.lastAppliedId < tx.id then (s.apply tx).1 :: applyResults (s.apply tx).2 txs
      else applyResults s txs

/-- The records whose id is above `last` and above the ids of all such records
before them. -/
def freshRecords : TransactionId → List Transaction → List Transaction
  | _, [] => []
  | last, tx :: txs =>
      if last < tx.id then tx :: freshRecords tx.id txs else freshRecords last txs

def Resolves (s : LedgerState) (tx : Transaction) : Prop :=
  ∀ leg ∈ tx.legs.span, (s.findAccount leg.accountId).isSome

instance (s : LedgerState) (tx : Transaction) : Decidable (Resolves s tx) :=
  inferInstanceAs (Decidable (∀ leg ∈ tx.legs.span, _))

theorem resolves_apply {s : LedgerState} {tx : Transaction} (h : Resolves s tx)
    (tx' : Transaction) : Resolves (s.apply tx).2 tx' ↔ Resolves s tx' := by
  have hfind := (s.apply_spec tx h).2.2
  simp only [Resolves,hfind,Option.isSome_map]

theorem applyResults_ok_iff (s : LedgerState) (txs : List Transaction) :
    (∀ r ∈ applyResults s txs, r = .ok ()) ↔
      ∀ tx ∈ freshRecords s.lastAppliedId txs, Resolves s tx := by
  induction txs generalizing s with
  | nil => simp [applyResults,freshRecords]
  | cons tx txs ih =>
    simp only [applyResults,freshRecords]
    split
    · case isTrue hid =>
      rw [List.forall_mem_cons,List.forall_mem_cons,s.apply_ok_iff tx]
      refine and_congr_right (fun h => ?_)
      have hlast := (s.apply_spec tx h).2.1
      rw [if_pos hid] at hlast
      rw [ih,hlast]
      simp only [resolves_apply h]
    · exact ih s

theorem applyAll_freshRecords {s : LedgerState} {txs : List Transaction}
    (h : ∀ tx ∈ freshRecords s.lastAppliedId txs, Resolves s tx) :
    s.applyAll (freshRecords s.lastAppliedId txs) = .ok (txs.foldl replayRecord s) := by
  induction txs generalizing s with
  | nil => rfl
  | cons tx txs ih =>
    simp only [freshRecords,List.foldl_cons,replayRecord] at h ⊢
    split at h
    · case isTrue hid =>
      obtain ⟨hok,hlast,-⟩ := s.apply_spec tx (h tx List.mem_cons_self)
      rw [if_pos hid] at hlast
      have hrest : ∀ tx' ∈ freshRecords (s.apply tx).2.lastAppliedId txs,
          Resolves (s.apply tx).2 tx' := by
        intro tx' htx'
        rw [hlast] at htx'
        exact (resolves_apply (h tx List.mem_cons_self) tx').mpr
          (h tx' (List.mem_cons_of_mem _ htx'))
      have hstep := ih hrest
      rw [hlast] at hstep
      rw [if_pos hid,if_pos hid,LedgerState.applyAll,
        show s.apply tx = (.ok (),(s.apply tx).2) by rw [← hok]]
      exact hstep
    · case isFalse hid =>
      rw [if_neg hid,if_neg hid]
      exact ih h

theorem recover_state {wal snapshotFile : Option File} {io : RecoveryIo} {s : LedgerState}
    {offset : Nat} (hstart : replayStart snapshotFile io.snapshot = some (s,offset))
    {recovered : RecoveredState} {wal' : Option File}
    (h : recover wal snapshotFile io = (.ok recovered,wal')) :
    recovered.state = (replayed wal io offset).foldl replayRecord s := by
  rw [recover_started hstart] at h
  split at h
  · case h_1 f hopen =>
    obtain ⟨recs,outcome,-,hvisited,-,-,⟨-,hreplay⟩ | ⟨-,⟨error,hreplay⟩ |
      ⟨f',-,-,hreplay | hreplay⟩⟩⟩ := replayLog_cases f io s offset
    · rw [hreplay] at h
      obtain ⟨-,rfl⟩ := checked_ok (Prod.mk.inj h).1
      simp only [replayed,hopen,hvisited]
    · rw [hreplay] at h
      cases h
    · rw [hreplay] at h
      cases h
    · rw [hreplay] at h
      obtain ⟨-,rfl⟩ := checked_ok (Prod.mk.inj h).1
      simp only [replayed,hopen,hvisited]
  · case h_2 hnone =>
    split at h
    · cases h
    · obtain ⟨-,rfl⟩ := checked_ok (Prod.mk.inj h).1
      unfold replayed
      split
      · case h_1 f hopen => exact absurd hopen (hnone f rfl)
      · rfl

/-- When recovery succeeds, every `apply` it made succeeded, and the state is the
snapshot with whole transactions applied, exactly if the records that pass the
id filter name only accounts of the snapshot. -/
theorem recover_applies_whole_iff (wal snapshotFile : Option File) (io : RecoveryIo)
    (s : LedgerState) (offset : Nat)
    (hstart : replayStart snapshotFile io.snapshot = some (s,offset))
    (recovered : RecoveredState) (wal' : Option File)
    (h : recover wal snapshotFile io = (.ok recovered,wal')) :
    ((∀ r ∈ applyResults s (replayed wal io offset), r = .ok ()) ∧
      s.applyAll (freshRecords s.lastAppliedId (replayed wal io offset)) = .ok recovered.state) ↔
    ∀ tx ∈ freshRecords s.lastAppliedId (replayed wal io offset), Resolves s tx := by
  rw [recover_state hstart h,applyResults_ok_iff]
  exact ⟨And.left,fun hres => ⟨hres,applyAll_freshRecords hres⟩⟩

theorem exists_chartSnapshot (walOffset : UInt64) :
    ∃ f, Snapshot.Written sampleChart walOffset f :=
  Snapshot.exists_written ⟨[⟨2,.revenue,100,0⟩,⟨1,.asset,100,0⟩],rfl⟩ walOffset (by decide)

theorem replayStart_written {s : LedgerState} {walOffset : UInt64} {snapshotFile : File}
    (h : Snapshot.Written s walOffset snapshotFile) :
    replayStart (some snapshotFile) .complete = some (s,walOffset.toNat) := by
  rw [replayStart,Snapshot.loadSnapshot_written h]

def paymentLog : File := (sampleEngine.process (samplePopped 1)).wal

theorem paymentLog_bytes : paymentLog.bytes = logBytes [(samplePopped 1).logged] ++ [] := by
  have hio : StepRun.Along LedgerEngine.process LedgerEngine.ErrorFree sampleEngine
      [samplePopped 1] :=
    LedgerEngine.along_errorFree (n := 4096) rfl (by decide) (by decide) (by decide)
  have hans : sampleEngine.answersTo [samplePopped 1] = [.none] := by decide
  have hbytes := (LedgerEngine.processAll_errorFree rfl hio).2.1
  rw [hans] at hbytes
  exact hbytes.trans (List.append_nil _).symm

theorem paymentLog_length : paymentLog.bytes.length = 83 := by
  rw [paymentLog_bytes,List.append_nil,logBytes_cons,logBytes_nil,List.append_nil,recordOf_length]
  decide

theorem paymentLog_cut :
    paymentLog.cut (0+(logBytes [(samplePopped 1).logged]).length) = paymentLog := by
  refine File.ext_bytes ?_
  rw [File.cut_bytes,Nat.zero_add,paymentLog_bytes,List.append_nil,List.take_length]

theorem replayLog_payment {s : LedgerState}
    (h : validateTrialBalance (replayRecord s (samplePopped 1).logged) = .ok ()) :
    replayLog paymentLog .complete s 0 = (.ok ⟨replayRecord s (samplePopped 1).logged,
      0+(logBytes [(samplePopped 1).logged]).length⟩,paymentLog) := by
  rw [replayLog_torn (Nat.zero_le _) paymentLog_bytes .nil s,List.foldl_cons,List.foldl_nil,
    checked_balanced h,paymentLog_cut]

theorem recover_payment_torn {s : LedgerState} {snapshotFile : File}
    (h : Snapshot.Written s 0 snapshotFile) :
    recover (some (paymentLog.cut 40)) (some snapshotFile) .complete =
      (checked s 0,some .empty) := by
  have hbytes : (paymentLog.cut 40).bytes.drop (0 : UInt64).toNat =
      logBytes [] ++ (recordOf (samplePopped 1).logged).take 40 := by
    rw [File.cut_bytes,paymentLog_bytes]
    simp
  rw [recover_torn h (Nat.zero_le _) hbytes ⟨_,40,by decide,rfl⟩]
  exact congrArg (fun f => (_,some f)) (File.ext_bytes rfl)

theorem replayed_paymentLog :
    replayed (some paymentLog) .complete 0 = [(samplePopped 1).logged] :=
  readAll_torn paymentLog_bytes .nil

theorem recover_applies_whole_payment :
    ∃ snapshotFile recovered, Snapshot.Written sampleChart 0 snapshotFile ∧
      (recover (some paymentLog) (some snapshotFile) .complete).1 = .ok recovered ∧
      sampleChart.applyAll [(samplePopped 1).logged] = .ok recovered.state := by
  obtain ⟨f,hf⟩ := exists_chartSnapshot 0
  have hrec := recover_opened (replayStart_written hf) rfl (replayLog_payment (by decide))
  have hwhole := (recover_applies_whole_iff (some paymentLog) (some f) .complete sampleChart 0
    (replayStart_written hf) _ _ hrec).mpr (by rw [replayed_paymentLog]; decide)
  rw [replayed_paymentLog] at hwhole
  exact ⟨f,_,hf,congrArg Prod.fst hrec,hwhole.2⟩

theorem recover_drops_record :
    ∃ recovered, recover (some paymentLog) none .complete = (.ok recovered,some paymentLog) ∧
      replayed (some paymentLog) .complete 0 = [(samplePopped 1).logged] ∧
      applyResults .empty [(samplePopped 1).logged] = [.error .accountNotFound] ∧
      recovered.state.findAccount 1 = none := by
  have hstart : replayStart none RecoveryIo.complete.snapshot = some (.empty,0) := rfl
  exact ⟨_,recover_opened hstart rfl (replayLog_payment (by decide)),replayed_paymentLog,by decide,by decide⟩

end AllOrNothing

section Failure

theorem checked_error {s : LedgerState} {n : Nat} {error : LedgerError}
    (h : checked s n = .error error) : error = .trialBalanceMismatch := by
  unfold checked validateTrialBalance at h
  split at h
  · case h_1 e he =>
    split at he
    · cases he
      cases h
      rfl
    · cases he
  · cases h

/-- A failed recovery leaves the log alone or has already cut it at the reader's
last valid offset, as it does behind every corrupt or truncated record. -/
theorem recover_error_log (wal snapshotFile : Option File) (io : RecoveryIo)
    (error : LedgerError) (wal' : Option File)
    (h : recover wal snapshotFile io = (.error error,wal')) :
    wal' = wal ∨ ∃ f f' s offset, wal = some f ∧ wal' = some f' ∧
      replayStart snapshotFile io.snapshot = some (s,offset) ∧
      (let stopped := (BinaryWalReader.opened.seek offset).drain f replayRecord io.read s
       stopped.2.1 ≠ .endOfLog ∧ f.ftruncate stopped.2.2.lastValidOffset true = some f') ∧
      (error = .walSyncFailed ∨ error = .trialBalanceMismatch) := by
  cases hstart : replayStart snapshotFile io.snapshot with
  | none =>
    rw [recover_corrupt hstart] at h
    exact .inl (Prod.mk.inj h).2.symm
  | some start =>
    obtain ⟨s,offset⟩ := start
    rw [recover_started hstart] at h
    split at h
    · case h_1 f hopen =>
      obtain ⟨recs,outcome,-,-,hdrain,-,⟨-,hreplay⟩ | ⟨hne,⟨e,hreplay⟩ |
        ⟨f',-,htrunc,hreplay⟩⟩⟩ := replayLog_cases f io s offset
      · rw [hreplay] at h
        exact .inl (Prod.mk.inj h).2.symm
      · rw [hreplay] at h
        exact .inl (Prod.mk.inj h).2.symm
      · rw [(File.ftruncate_some htrunc).1] at htrunc
        refine .inr ⟨f,f',s,offset,rfl,?_,rfl,?_,?_⟩
        · rcases hreplay with hreplay | hreplay
          · rw [hreplay] at h
            exact (Prod.mk.inj h).2.symm
          · rw [hreplay] at h
            exact (Prod.mk.inj h).2.symm
        · rw [hdrain]
          exact ⟨hne,htrunc⟩
        · rcases hreplay with hreplay | hreplay
          · rw [hreplay] at h
            cases h
            exact .inl rfl
          · rw [hreplay] at h
            exact .inr (checked_error (Prod.mk.inj h).1)
    · split at h
      · exact .inl (Prod.mk.inj h).2.symm
      · exact .inl (Prod.mk.inj h).2.symm

def lopsidedChart : LedgerState := .ofAccounts [⟨1,.asset,100,0⟩]

theorem recover_lopsided {snapshotFile : File}
    (h : Snapshot.Written lopsidedChart 0 snapshotFile) :
    recover (some (paymentLog.cut 40)) (some snapshotFile) .complete =
      (.error .trialBalanceMismatch,some .empty) := by
  rw [recover_payment_torn h]
  rfl

theorem exists_lopsidedSnapshot : ∃ f, Snapshot.Written lopsidedChart 0 f :=
  Snapshot.exists_written ⟨[⟨1,.asset,100,0⟩],rfl⟩ 0 (by decide)

theorem recover_error_log_torn :
    ∃ snapshotFile s offset, Snapshot.Written lopsidedChart 0 snapshotFile ∧
      replayStart (some snapshotFile) .complete = some (s,offset) ∧
      ((BinaryWalReader.opened.seek offset).drain (paymentLog.cut 40) replayRecord
        (fun _ => .complete) s).2.1 ≠ .endOfLog := by
  obtain ⟨snapshotFile,hsnap⟩ := exists_lopsidedSnapshot
  obtain hsame | ⟨f,f',s,offset,hf,-,hstart,⟨hne,-⟩,-⟩ := recover_error_log _ _ _ _ _
    (recover_lopsided hsnap)
  · exact absurd (congrArg (fun f => f.map File.bytes) hsame) (by decide)
  · cases hf
    exact ⟨snapshotFile,s,offset,hsnap,hstart,hne⟩

theorem failed_recovery_cuts :
    ∃ snapshotFile, Snapshot.Written lopsidedChart 0 snapshotFile ∧
      recover (some (paymentLog.cut 40)) (some snapshotFile) .complete =
        (.error .trialBalanceMismatch,some .empty) ∧
      (paymentLog.cut 40).bytes.length = 40 := by
  obtain ⟨snapshotFile,hsnap⟩ := exists_lopsidedSnapshot
  exact ⟨snapshotFile,hsnap,recover_lopsided hsnap,by decide⟩

end Failure

end FinancialLedger.Recovery
