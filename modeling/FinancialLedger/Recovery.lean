import FinancialLedger.Snapshot
import FinancialLedger.WalScan
set_option autoImplicit false

namespace FinancialLedger.Recovery
open PosixFile Wal

structure RecoveredState where
  state : LedgerState
  walValidLength : Nat

/-- The answers to the system calls of one recovery; `walOpens` is about the
read-only `open`, the last three belong to `truncate_wal`. -/
structure RecoveryIo where
  snapshot : Snapshot.LoadIo
  walOpens : Bool
  read : Nat → ReadIo
  truncateOpens : Bool
  ftruncate : Bool
  fsync : Bool

def RecoveryIo.complete : RecoveryIo := ⟨.complete,true,fun _ => .complete,true,true,true⟩

def truncateWal (f : File) (validOffset : Nat) (io : RecoveryIo) : Result Unit × File :=
  if io.truncateOpens = false then (.error .walOpenFailed,f)
  else
    match f.ftruncate validOffset io.ftruncate with
    | none => (.error .walWriteFailed,f)
    | some f' => if io.fsync = false then (.error .walSyncFailed,f') else (.ok (),f')

/-- One Ok record of the replay loop; the result of `apply` is dropped. -/
def replayRecord (s : LedgerState) (tx : Transaction) : LedgerState :=
  if s.lastAppliedId < tx.id then (s.apply tx).2 else s

def checked (s : LedgerState) (walValidLength : Nat) : Result RecoveredState :=
  match validateTrialBalance s with
  | .error e => .error e
  | .ok _ => .ok ⟨s,walValidLength⟩

/-- Replay an open log from `offset` on, and cut off what follows the last
valid record. -/
def replayLog (f : File) (io : RecoveryIo) (s : LedgerState) (offset : Nat) :
    Result RecoveredState × File :=
  match (BinaryWalReader.opened.seek offset).drain f replayRecord io.read s with
  | (s',outcome,reader) =>
      if outcome = .endOfLog then (checked s' reader.lastValidOffset,f)
      else
        match truncateWal f reader.lastValidOffset io with
        | (.error e,f') => (.error e,f')
        | (.ok _,f') => (checked s' reader.lastValidOffset,f')

/-- A missing file is one that `open` does not find. The second component is
the log afterwards. -/
def recover (wal snapshotFile : Option File) (io : RecoveryIo) :
    Result RecoveredState × Option File :=
  match Snapshot.loadSnapshot snapshotFile io.snapshot with
  | .error .snapshotCorrupt => (.error .snapshotCorrupt,wal)
  | loaded =>
      let start := match loaded with
        | .ok l => (l.state,l.walOffset.toNat)
        | .error _ => (LedgerState.empty,0)
      match wal, io.walOpens with
      | some f, true =>
          ((replayLog f io start.1 start.2).1,some (replayLog f io start.1 start.2).2)
      | _, _ =>
          if start.2 ≠ 0 then (.error .walOpenFailed,wal) else (checked start.1 0,wal)

theorem recover_written {s : LedgerState} {walOffset : UInt64} {snapshotFile : File}
    (h : Snapshot.Written s walOffset snapshotFile) (f : File) :
    recover (some f) (some snapshotFile) .complete =
      ((replayLog f .complete s walOffset.toNat).1,
        some (replayLog f .complete s walOffset.toNat).2) := by
  simp only [recover,RecoveryIo.complete,Snapshot.loadSnapshot_written h]

/-- The start of some record, possibly nothing: what may follow the last whole
record after a crash or a short write. -/
def TornTail (tail : List UInt8) : Prop :=
  ∃ tx n, n < (recordOf tx).length ∧ tail = (recordOf tx).take n

theorem TornTail.nil : TornTail [] :=
  ⟨⟨0,⟨0,0⟩,0,.empty⟩,0,recordOf_length_pos _,by simp⟩

theorem drain_torn {σ : Type} {f : File} {offset : Nat} {txs : List Transaction}
    {tail : List UInt8} (ho : offset ≤ f.bytes.length)
    (hf : f.bytes.drop offset = logBytes txs ++ tail) (ht : TornTail tail)
    (visit : σ → Transaction → σ) (s : σ) :
    ∃ outcome, (BinaryWalReader.opened.seek offset).drain f visit (fun _ => .complete) s =
        (txs.foldl visit s,outcome,
          (BinaryWalReader.opened.seek offset).skip (logBytes txs).length) ∧
      (outcome = .endOfLog ↔ tail = []) := by
  have hlog := BinaryWalReader.drain_log (r := BinaryWalReader.opened.seek offset) rfl rfl visit s hf
  obtain ⟨tx,n,hn,rfl⟩ := ht
  have hdrop : f.bytes.drop (offset+(logBytes txs).length) = (recordOf tx).take n := by
    rw [← List.drop_drop,hf,List.drop_left]
  have hlen := congrArg List.length hf
  rw [List.length_drop,List.length_append] at hlen
  have hfits := f.fits
  rcases Nat.eq_zero_or_pos n with rfl | hpos
  · refine ⟨.endOfLog,?_,by simp⟩
    rw [List.take_zero,List.length_nil] at hlen
    have hend := BinaryWalReader.readNext_end (f := f)
      (r := (BinaryWalReader.opened.seek offset).skip (logBytes txs).length) rfl
      (show f.bytes.length ≤ offset+_ by omega) (show offset+_ ≤ _ by omega)
    rw [hlog]
    exact BinaryWalReader.drain_stop hend (by simp) _
  · refine ⟨.truncated,?_,?_⟩
    · rw [hlog]
      exact BinaryWalReader.drain_stop (BinaryWalReader.readNext_torn rfl hpos hn hdrop) (by simp) _
    · simp only [reduceCtorEq,false_iff]
      intro hnil
      have := congrArg List.length hnil
      simp only [List.length_take,List.length_nil] at this
      omega

theorem replayLog_torn {f : File} {offset : Nat} {txs : List Transaction} {tail : List UInt8}
    (ho : offset ≤ f.bytes.length) (hf : f.bytes.drop offset = logBytes txs ++ tail)
    (ht : TornTail tail) (s : LedgerState) :
    replayLog f .complete s offset = (checked (txs.foldl replayRecord s)
      (offset+(logBytes txs).length),f.cut (offset+(logBytes txs).length)) := by
  obtain ⟨outcome,hd,hend⟩ := drain_torn ho hf ht replayRecord s
  have hlen := congrArg List.length hf
  rw [List.length_drop,List.length_append] at hlen
  have hvalid : ((BinaryWalReader.opened.seek offset).skip (logBytes txs).length).lastValidOffset =
      offset+(logBytes txs).length := rfl
  simp only [replayLog,RecoveryIo.complete,hd,hvalid]
  by_cases hnil : tail = []
  · rw [hnil,List.length_nil] at hlen
    rw [if_pos (hend.mpr hnil)]
    refine congrArg _ (File.ext_bytes ?_)
    rw [File.cut_bytes,List.take_of_length_le (by omega)]
  · rw [if_neg (fun h => hnil (hend.mp h))]
    simp [truncateWal,File.ftruncate_cut f (show offset+(logBytes txs).length ≤ _ by omega)]

theorem recover_torn {s : LedgerState} {walOffset : UInt64} {snapshotFile f : File}
    (hsnap : Snapshot.Written s walOffset snapshotFile) {txs : List Transaction}
    {tail : List UInt8} (ho : walOffset.toNat ≤ f.bytes.length)
    (hf : f.bytes.drop walOffset.toNat = logBytes txs ++ tail) (ht : TornTail tail) :
    recover (some f) (some snapshotFile) .complete = (checked (txs.foldl replayRecord s)
      (walOffset.toNat+(logBytes txs).length),
        some (f.cut (walOffset.toNat+(logBytes txs).length))) := by
  rw [recover_written hsnap,replayLog_torn ho hf ht]

theorem checked_balanced {s : LedgerState} (h : validateTrialBalance s = .ok ())
    (walValidLength : Nat) : checked s walValidLength = .ok ⟨s,walValidLength⟩ := by
  rw [checked,h]

theorem checked_ok {s : LedgerState} {n : Nat} {recovered : RecoveredState}
    (h : checked s n = .ok recovered) :
    validateTrialBalance s = .ok () ∧ recovered = ⟨s,n⟩ := by
  unfold checked at h
  split at h
  · cases h
  · case h_2 hok =>
    cases h
    exact ⟨hok,rfl⟩

/-- All records from the start of the file up to the first that is not Ok. -/
def readAll (f : File) : List Transaction := BinaryWalReader.opened.records f

theorem readAll_torn {f : File} {txs : List Transaction} {tail : List UInt8}
    (hf : f.bytes = logBytes txs ++ tail) (ht : TornTail tail) : readAll f = txs := by
  obtain ⟨outcome,hd,-⟩ := drain_torn (Nat.zero_le _) hf ht (fun l tx => l ++ [tx]) []
  rw [foldl_snoc] at hd
  exact congrArg Prod.fst hd

theorem readAll_log {f : File} {txs : List Transaction} (hf : f.bytes = logBytes txs) :
    readAll f = txs := readAll_torn (hf.trans (List.append_nil _).symm) .nil

theorem readAll_blocked {f : File} {txs : List Transaction} {tail : List UInt8}
    (hf : f.bytes = logBytes txs ++ tail)
    (ht : ∀ (rec : WellFormedRecord) rest, tail ≠ rec.bytes ++ rest) : readAll f = txs := by
  have hlog := BinaryWalReader.drain_log (r := .opened) (f := f) rfl rfl (fun l tx => l ++ [tx]) []
    hf
  have hdrop : f.bytes.drop (logBytes txs).length = tail := by rw [hf,List.drop_left]
  cases hr : (BinaryWalReader.opened.skip (logBytes txs).length).readNext f .complete with
  | mk res r' =>
    have hne : ∀ tx, res ≠ .ok tx := by
      rintro tx rfl
      obtain ⟨rec,rest,-,hrec,-⟩ := BinaryWalReader.readNext_wellFormed hr
      refine ht rec rest ?_
      rw [← hdrop,← hrec]
      exact congrArg f.bytes.drop (Nat.zero_add _).symm
    rw [readAll,BinaryWalReader.records,hlog,BinaryWalReader.drain_stop hr hne,foldl_snoc]
    rfl

theorem recover_readAll {s : LedgerState} {snapshotFile : File}
    (hsnap : Snapshot.Written s 0 snapshotFile) (f : File) :
    ∃ walValidLength, (recover (some f) (some snapshotFile) .complete).1 =
      checked ((readAll f).foldl replayRecord s) walValidLength := by
  have hstart : BinaryWalReader.opened.seek (0 : UInt64).toNat = .opened := rfl
  obtain ⟨recs,outcome,hrun,-,-,hdrain⟩ :=
    BinaryWalReader.opened.exists_run (f := f) (fun _ => .complete) rfl
  have hread : readAll f = recs.map WellFormedRecord.tx := by
    rw [readAll,BinaryWalReader.records,hdrain,foldl_snoc]
    rfl
  refine ⟨(BinaryWalReader.opened.skip (runBytes recs).length).lastValidOffset,?_⟩
  rw [recover_written hsnap,hread]
  simp only [replayLog,RecoveryIo.complete,hstart,hdrain]
  split
  · rfl
  · have hinside : (BinaryWalReader.opened.skip (runBytes recs).length).lastValidOffset ≤
        f.bytes.length := hrun.end_le (Nat.zero_le _)
    simp [truncateWal,File.ftruncate_cut f hinside]

end FinancialLedger.Recovery
