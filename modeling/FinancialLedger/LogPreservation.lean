import FinancialLedger.RecoveryLaws
import FinancialLedger.WalRoundTrip
set_option autoImplicit false

namespace FinancialLedger.Recovery
open PosixFile Wal

section Intact

theorem recover_undelivered {f : File} {snapshotFile : Option File} {io : RecoveryIo}
    {s : LedgerState} {offset : Nat} {before later : List WellFormedRecord}
    {rec : WellFormedRecord} (hstart : replayStart snapshotFile io.snapshot = some (s,offset))
    (hopen : io.walOpens = true) (htrunc : io.truncateOpens = true) (hcan : io.ftruncate = true)
    (hrun : RunAt f offset (before ++ rec :: later))
    (hbefore : ∀ i rec', before[i]? = some rec' → (io.read i).Delivers rec')
    (hproper : (io.read before.length).header.Proper)
    (hrec : ¬ (io.read before.length).Delivers rec) :
    offset+(runBytes before).length < f.bytes.length ∧
      (recover (some f) snapshotFile io).2 = some (f.cut (offset+(runBytes before).length)) := by
  have hdrain := BinaryWalReader.drain_undelivered (r := BinaryWalReader.opened.seek offset) rfl
    rfl replayRecord s io.read hrun hbefore hproper hrec
  obtain ⟨⟨rest,hd⟩,-⟩ := runAt_cons.mp (runAt_append.mp hrun).2
  have hroom := record_room hd
  have hlong : offset+(runBytes before).length < f.bytes.length := by
    rw [kHeaderSize_eq] at hroom
    omega
  have hvalid : ((BinaryWalReader.opened.seek offset).skip
      (runBytes before).length).lastValidOffset = offset+(runBytes before).length := rfl
  refine ⟨hlong,?_⟩
  rw [recover_file hstart hopen,replayLog,hdrain]
  simp only [reduceCtorEq,if_false,truncateWal,htrunc,hcan,Bool.true_eq_false,hvalid,
    File.ftruncate_cut f (Nat.le_of_lt hlong)]
  cases io.fsync <;> rfl

theorem recover_shortens {f f' : File} {snapshotFile : Option File} {io : RecoveryIo}
    {s : LedgerState} {offset : Nat}
    (hstart : replayStart snapshotFile io.snapshot = some (s,offset))
    (hf' : (recover (some f) snapshotFile io).2 = some f')
    (hshort : f'.bytes.length < f.bytes.length) :
    io.walOpens = true ∧ io.truncateOpens = true ∧ io.ftruncate = true ∧
      ∃ s' outcome stop, (BinaryWalReader.opened.seek offset).drain f replayRecord io.read s =
        (s',outcome,stop) ∧ f'.bytes.length = stop.cursor := by
  have hchanged : f' ≠ f := fun h => absurd hshort (h ▸ Nat.lt_irrefl _)
  cases hopen : io.walOpens with
  | false =>
    rw [recover_unopened hstart hopen] at hf'
    split at hf'
    · exact absurd (Option.some.inj hf').symm hchanged
    · exact absurd (Option.some.inj hf').symm hchanged
  | true =>
    rw [recover_file hstart hopen] at hf'
    obtain ⟨recs,outcome,-,-,hdrain,-,⟨-,hreplay⟩ | ⟨-,⟨error,hreplay⟩ |
      ⟨f₀,hopens,htrunc,hreplay⟩⟩⟩ := replayLog_cases f io s offset
    · rw [hreplay] at hf'
      exact absurd (Option.some.inj hf').symm hchanged
    · rw [hreplay] at hf'
      exact absurd (Option.some.inj hf').symm hchanged
    · have hsame : f₀ = f' := by
        rcases hreplay with hreplay | hreplay
        · rw [hreplay] at hf'
          exact Option.some.inj hf'
        · rw [hreplay] at hf'
          exact Option.some.inj hf'
      obtain ⟨hcan,-,hlen⟩ := File.ftruncate_some htrunc
      exact ⟨rfl,hopens,hcan,_,_,_,hdrain,hsame ▸ hlen⟩

/-- Recovery never cuts into a run of intact records, exactly if the kernel
delivers the records of the run or the file cannot be cut at all. -/
theorem recover_keeps_intact_iff (f : File) (snapshotFile : Option File) (io : RecoveryIo)
    (s : LedgerState) (offset : Nat)
    (hstart : replayStart snapshotFile io.snapshot = some (s,offset))
    (hproper : ∀ i, (io.read i).header.Proper) :
    (∀ recs, RunAt f offset recs → ∀ f', (recover (some f) snapshotFile io).2 = some f' →
      f'.bytes.length < f.bytes.length → offset+(runBytes recs).length ≤ f'.bytes.length) ↔
    ((∀ recs, RunAt f offset recs → ∀ i rec, recs[i]? = some rec → (io.read i).Delivers rec) ∨
      io.walOpens = false ∨ io.truncateOpens = false ∨ io.ftruncate = false) := by
  constructor
  · intro hkeeps
    by_contra hbad
    simp only [not_or,Bool.not_eq_false] at hbad
    obtain ⟨hreads,hopen,htrunc,hcan⟩ := hbad
    simp only [not_forall] at hreads
    obtain ⟨recs,hrun,i,rec₀,hget,hundelivered⟩ := hreads
    obtain ⟨before,rec,later,rfl,hbefore,hrec⟩ := exists_undelivered
      (show ¬ ∀ i rec, recs[i]? = some rec → (io.read i).Delivers rec from
        fun hall => hundelivered (hall i rec₀ hget))
    obtain ⟨hlong,hfile⟩ := recover_undelivered hstart hopen htrunc hcan hrun hbefore
      (hproper _) hrec
    have hlen : (f.cut (offset+(runBytes before).length)).bytes.length =
        offset+(runBytes before).length := by
      rw [File.cut_bytes,List.length_take_of_le (Nat.le_of_lt hlong)]
    have hpos : 0 < rec.bytes.length := by
      rw [rec.bytes_length,kHeaderSize_eq]
      omega
    have hle := hkeeps _ hrun _ hfile (by rw [hlen]; exact hlong)
    rw [hlen,runBytes_append,runBytes_cons,List.length_append,List.length_append] at hle
    omega
  · intro hcond recs hrun f' hf' hshort
    obtain ⟨hopen,htrunc,hcan,s',outcome,stop,hdrain,hlen⟩ := recover_shortens hstart hf' hshort
    rcases hcond with hreads | hclosed | hclosed | hclosed
    · rw [hlen]
      exact BinaryWalReader.run_le_stop rfl rfl hrun (hreads recs hrun) hdrain
    · cases hopen.symm.trans hclosed
    · cases htrunc.symm.trans hclosed
    · cases hcan.symm.trans hclosed

theorem paymentLog_run : RunAt paymentLog 0 [.ofTransaction (samplePopped 1).logged] := by
  have hrun := runBytes_ofTransaction [(samplePopped 1).logged]
  refine ⟨[],?_⟩
  rw [List.drop_zero,paymentLog_bytes]
  exact congrArg (· ++ []) hrun

def tornLog : File :=
  ⟨paymentLog.bytes ++ (recordOf (samplePopped 2).logged).take 40,by
    rw [List.length_append,paymentLog_length]
    exact Nat.le_trans (Nat.add_le_add_left (List.length_take_le _ _) _) (by decide)⟩

theorem tornLog_length : tornLog.bytes.length = 123 := by
  have hlen : 40 ≤ (recordOf (samplePopped 2).logged).length := by
    rw [recordOf_length]
    decide
  rw [tornLog,List.length_append,paymentLog_length,List.length_take,Nat.min_eq_left hlen]

theorem recover_keeps_intact_payment :
    ∃ snapshotFile f', Snapshot.Written sampleChart 0 snapshotFile ∧
      (recover (some tornLog) (some snapshotFile) .complete).2 = some f' ∧
      f'.bytes.length < tornLog.bytes.length ∧ 83 ≤ f'.bytes.length := by
  obtain ⟨snapshotFile,hsnap⟩ := exists_chartSnapshot 0
  have hlen : (runBytes [.ofTransaction (samplePopped 1).logged]).length = 83 := by
    rw [runBytes_cons,runBytes_nil,List.append_nil,WellFormedRecord.bytes_length]
    decide
  have hlog : (logBytes [(samplePopped 1).logged]).length = 83 := by
    rw [← runBytes_ofTransaction]
    exact hlen
  have hbytes : tornLog.bytes.drop (0 : UInt64).toNat =
      logBytes [(samplePopped 1).logged] ++ (recordOf (samplePopped 2).logged).take 40 := by
    show paymentLog.bytes ++ _ = _
    rw [paymentLog_bytes,List.append_nil]
  have hcut := congrArg Prod.snd (recover_torn hsnap (Nat.zero_le _) hbytes ⟨_,40,by decide,rfl⟩)
  have hshort : (tornLog.cut ((0 : UInt64).toNat+
      (logBytes [(samplePopped 1).logged]).length)).bytes.length < tornLog.bytes.length := by
    rw [File.cut_bytes,hlog,List.length_take,tornLog_length]
    decide
  have hkeeps := (recover_keeps_intact_iff tornLog (some snapshotFile) .complete sampleChart 0
    (replayStart_written hsnap) (fun _ => show ReadOutcome.complete.Proper by decide)).mpr
    (.inl (fun _ _ _ rec _ => ReadIo.complete_delivers rec)) _ (paymentLog_run.grow rfl) _ hcut
    hshort
  rw [hlen] at hkeeps
  exact ⟨snapshotFile,_,hsnap,hcut,hshort,hkeeps⟩

def failingRead : RecoveryIo := { RecoveryIo.complete with read := fun _ => ⟨.failed,.complete⟩ }

/-- One failed read of a log without any damage, and the log is empty. -/
theorem intact_record_cut :
    ∃ snapshotFile, Snapshot.Written sampleChart 0 snapshotFile ∧
      RunAt paymentLog 0 [.ofTransaction (samplePopped 1).logged] ∧
      recover (some paymentLog) (some snapshotFile) failingRead =
        (.ok ⟨sampleChart,0⟩,some .empty) := by
  obtain ⟨snapshotFile,hsnap⟩ := exists_chartSnapshot 0
  have hread : (BinaryWalReader.opened.seek 0).readNext paymentLog ⟨.failed,.complete⟩ =
      (.truncated,.opened) := rfl
  have hdrain : (BinaryWalReader.opened.seek 0).drain paymentLog replayRecord failingRead.read
      sampleChart = (sampleChart,.truncated,.opened) :=
    BinaryWalReader.drain_stop hread (by simp) _
  have htrial : validateTrialBalance sampleChart = .ok () := by decide
  have hempty : paymentLog.cut 0 = .empty := File.ext_bytes rfl
  have hreplay : replayLog paymentLog failingRead sampleChart (0 : UInt64).toNat =
      (.ok ⟨sampleChart,0⟩,.empty) := by
    rw [replayLog,show (0 : UInt64).toNat = 0 from rfl,hdrain]
    simp [truncateWal,failingRead,RecoveryIo.complete,BinaryWalReader.opened,
      File.ftruncate_cut paymentLog (Nat.zero_le _),hempty,checked_balanced htrial]
  exact ⟨snapshotFile,hsnap,paymentLog_run,recover_opened (replayStart_written hsnap) rfl hreplay⟩

end Intact

section Idempotence

/-- What recovery leaves behind it recovers to the same state and leaves alone. -/
theorem recover_idempotent (wal snapshotFile : Option File) (recovered : RecoveredState)
    (wal' : Option File) (h : recover wal snapshotFile .complete = (.ok recovered,wal')) :
    recover wal' snapshotFile .complete = (.ok recovered,wal') := by
  cases hstart : replayStart snapshotFile RecoveryIo.complete.snapshot with
  | none =>
    rw [recover_corrupt hstart] at h
    cases h
  | some start =>
    obtain ⟨s,offset⟩ := start
    cases wal with
    | none =>
      have hsame : wal' = none := by
        rw [recover_started hstart] at h
        dsimp only at h
        split at h
        · cases h
        · exact (Prod.mk.inj h).2.symm
      rw [hsame] at h ⊢
      exact h
    | some f =>
      obtain ⟨recs,outcome,hrun,-,-,hstop,⟨-,hreplay⟩ | ⟨hne,⟨error,hreplay⟩ |
        ⟨f',-,htrunc,hreplay | hreplay⟩⟩⟩ := replayLog_cases f .complete s offset
      · obtain ⟨-,hwal⟩ := Prod.mk.inj (h.symm.trans (recover_opened hstart rfl hreplay))
        rw [hwal] at h ⊢
        exact h
      · cases h.symm.trans (recover_opened hstart rfl hreplay)
      · cases h.symm.trans (recover_opened hstart rfl hreplay)
      · obtain ⟨hok,rfl⟩ := Prod.mk.inj (h.symm.trans (recover_opened hstart rfl hreplay))
        obtain ⟨-,hmax,-⟩ := File.ftruncate_some htrunc
        -- behind the end of the file the loop would have seen the end of the log
        have hinside : offset+(runBytes recs).length ≤ f.bytes.length := by
          by_contra hpast
          have hend := BinaryWalReader.readNext_end (f := f)
            (r := (BinaryWalReader.opened.seek offset).skip (runBytes recs).length) rfl
            (Nat.le_of_not_le hpast) hmax
          exact hne (congrArg Prod.fst (hstop.symm.trans hend))
        have hcut := File.ftruncate_cut f hinside
        obtain rfl := Option.some.inj (htrunc.symm.trans hcut)
        have hlen : (f.cut (offset+(runBytes recs).length)).bytes.length =
            offset+(runBytes recs).length := by
          rw [File.cut_bytes,List.length_take_of_le hinside]
        have hagain := BinaryWalReader.drain_run_end (r := BinaryWalReader.opened.seek offset) rfl
          rfl replayRecord s hrun.cut hlen
        rw [hok]
        exact recover_opened hstart rfl (@replayLog_endOfLog .complete _ s offset _ _ hagain)

theorem recover_idempotent_torn :
    ∃ snapshotFile, Snapshot.Written sampleChart 0 snapshotFile ∧
      recover (some (paymentLog.cut 40)) (some snapshotFile) .complete =
        (.ok ⟨sampleChart,0⟩,some .empty) ∧
      recover (some .empty) (some snapshotFile) .complete = (.ok ⟨sampleChart,0⟩,some .empty) := by
  obtain ⟨snapshotFile,hsnap⟩ := exists_chartSnapshot 0
  have hfirst := recover_payment_torn hsnap
  rw [checked_balanced (by decide)] at hfirst
  exact ⟨snapshotFile,hsnap,hfirst,recover_idempotent _ _ _ _ hfirst⟩

end Idempotence

section Resume

variable {f : File} {offset : Nat}

theorem drain_resumed {recs : List WellFormedRecord} (hrun : RunAt f offset recs)
    (hlen : f.bytes.length = offset+(runBytes recs).length) {w₀ w : BinaryWalWriter}
    {mode : SyncMode} {appends : List Append} {sizes : List Nat} {f' : File}
    (happend : (w₀.openFile mode (some f)).2.appendAll f appends = some (sizes,w,f')) :
    ∃ stop, (BinaryWalReader.opened.seek offset).drain f' (fun l tx => l ++ [tx])
      (fun _ => .complete) [] =
        (recs.map WellFormedRecord.tx ++ appends.map Append.logged,.endOfLog,stop) := by
  have hbytes := (BinaryWalWriter.appendAll_spec rfl happend).1
  have hnew : RunAt f' (offset+(runBytes recs).length)
      ((appends.map Append.logged).map WellFormedRecord.ofTransaction) := by
    refine ⟨[],?_⟩
    rw [runBytes_ofTransaction,← hlen,hbytes,List.drop_left,List.append_nil]
  have hall := runAt_append.mpr ⟨hrun.grow hbytes,hnew⟩
  have hend : f'.bytes.length = offset+(runBytes (recs ++
      (appends.map Append.logged).map WellFormedRecord.ofTransaction)).length := by
    rw [hbytes,List.length_append,hlen,runBytes_append,List.length_append,runBytes_ofTransaction,
      Nat.add_assoc]
  have hdrain := BinaryWalReader.drain_run_end (r := BinaryWalReader.opened.seek offset) rfl rfl
    (fun l tx => l ++ [tx]) [] hall hend
  rw [List.map_append,map_tx_ofTransaction,foldl_snoc,List.nil_append] at hdrain
  exact ⟨_,hdrain⟩

/-- What recovery says about the length of the log, and what reading on from the
snapshot will show. -/
structure Resumable (f f' : File) (io : RecoveryIo) (offset : Nat) (recovered : RecoveredState) :
    Prop where
  length : recovered.walValidLength = f'.bytes.length
  resumes : ∀ (w₀ w : BinaryWalWriter) mode appends sizes f'',
    (w₀.openFile mode (some f')).2.appendAll f' appends = some (sizes,w,f'') →
      ∃ stop, (BinaryWalReader.opened.seek offset).drain f'' (fun l tx => l ++ [tx])
        (fun _ => .complete) [] =
          (replayed (some f) io offset ++ appends.map Append.logged,.endOfLog,stop)

theorem Resumable.of_run {f' : File} {io : RecoveryIo} {recs : List WellFormedRecord}
    {s : LedgerState} (hrun : RunAt f' offset recs)
    (hreplayed : replayed (some f) io offset = recs.map WellFormedRecord.tx)
    (hlen : f'.bytes.length = offset+(runBytes recs).length) :
    Resumable f f' io offset ⟨s,offset+(runBytes recs).length⟩ := by
  refine ⟨hlen.symm,?_⟩
  intro w₀ w mode appends sizes f'' happend
  rw [hreplayed]
  exact drain_resumed hrun hlen happend

section Resume
variable {f f' snapshotFile : File} {io : RecoveryIo} {s : LedgerState} {offset : Nat}
  {recovered : RecoveredState}

theorem resumable_unopened_iff (hopen : io.walOpens = false)
    (hstart : replayStart (some snapshotFile) io.snapshot = some (s,offset))
    (h : recover (some f) (some snapshotFile) io = (.ok recovered,some f')) :
    Resumable f f' io offset recovered ↔ f.bytes = [] := by
  have hnone : replayed (some f) io offset = [] := by simp only [replayed,hopen]
  rw [recover_unopened hstart hopen] at h
  split at h
  · cases h
  case isFalse hzero =>
  obtain ⟨hok,hfile⟩ := Prod.mk.inj h
  obtain ⟨-,rfl⟩ := checked_ok hok
  cases hfile
  have hoffset : offset = 0 := not_not.mp hzero
  constructor
  · intro hres
    exact List.eq_nil_of_length_eq_zero hres.length.symm
  · intro hempty
    have hlen : f.bytes.length = offset+(runBytes []).length := by
      rw [hempty,hoffset]
      rfl
    rw [show 0 = offset+(runBytes []).length from hoffset.symm]
    exact Resumable.of_run List.nil_prefix hnone hlen

theorem resumable_opened_iff (hopen : io.walOpens = true)
    (hstart : replayStart (some snapshotFile) io.snapshot = some (s,offset))
    (hproper : ∀ i, (io.read i).header.Proper)
    (h : recover (some f) (some snapshotFile) io = (.ok recovered,some f')) :
    Resumable f f' io offset recovered ↔
      offset ≤ f.bytes.length ∨ (io.read 0).header = .failed := by
  obtain ⟨recs,outcome,hrun,hvisited,-,hstop,hcases⟩ := replayLog_cases f io s offset
  have hreplayed : replayed (some f) io offset = recs.map WellFormedRecord.tx := by
    simp only [replayed,hopen,hvisited]
  have hend := BinaryWalReader.readNext_endOfLog_iff (f := f)
    (r := (BinaryWalReader.opened.seek offset).skip (runBytes recs).length) rfl
    (hproper recs.length)
  rw [hstop] at hend
  have hcursor : ((BinaryWalReader.opened.seek offset).skip (runBytes recs).length).cursor =
      offset+(runBytes recs).length := rfl
  rw [hcursor] at hend hcases
  obtain ⟨heol,hreplay⟩ | ⟨hne,⟨error,hreplay⟩ | ⟨f₀,-,htrunc,hreplay | hreplay⟩⟩ := hcases
  · -- the loop saw the end of the file, and nothing was cut
    obtain ⟨hok,hfile⟩ := Prod.mk.inj (h.symm.trans (recover_opened hstart hopen hreplay))
    obtain ⟨-,rfl⟩ := checked_ok hok.symm
    cases hfile
    obtain ⟨hpast,hmax,hread⟩ := hend.mp heol
    constructor
    · intro hres
      have hlen : offset+(runBytes recs).length = f.bytes.length := hres.length
      exact .inl (by omega)
    · intro hcond
      have hinside : offset ≤ f.bytes.length := by
        obtain hinside | hfailed := hcond
        · exact hinside
        · by_contra hout
          rw [hrun.eq_nil (Nat.not_le.mp hout)] at hread
          exact hread hfailed
      have hlen : f.bytes.length = offset+(runBytes recs).length :=
        Nat.le_antisymm hpast (hrun.end_le hinside)
      exact Resumable.of_run hrun hreplayed hlen
  · cases h.symm.trans (recover_opened hstart hopen hreplay)
  · cases h.symm.trans (recover_opened hstart hopen hreplay)
  · -- the file now ends where the loop stopped, whether it was cut or extended
    obtain ⟨hok,hfile⟩ := Prod.mk.inj (h.symm.trans (recover_opened hstart hopen hreplay))
    obtain ⟨-,rfl⟩ := checked_ok hok.symm
    cases hfile
    obtain ⟨hcan,hmax,hlen⟩ := File.ftruncate_some htrunc
    refine iff_of_true ?_ ?_
    · have hkept : RunAt f' offset recs := by
        by_cases hinside : offset ≤ f.bytes.length
        · rw [hcan,File.ftruncate_cut f (hrun.end_le hinside)] at htrunc
          cases htrunc
          exact hrun.cut
        · rw [hrun.eq_nil (Nat.not_le.mp hinside)]
          exact List.nil_prefix
      exact Resumable.of_run hkept hreplayed hlen
    · by_contra hcond
      simp only [not_or,Nat.not_le] at hcond
      have hnil := RunAt.eq_nil hrun hcond.1
      rw [hnil] at hend hmax
      exact hne (hend.mpr ⟨by simp; omega,hmax,hcond.2⟩)

end Resume

/-- A recovered log can be resumed exactly if the snapshot's offset lies in it
(or the first read fails, which extends the file up to the offset); a log that
cannot be opened has to be empty. -/
theorem resumable_iff (f snapshotFile : File) (io : RecoveryIo)
    (loaded : Snapshot.LoadedSnapshot)
    (hload : Snapshot.loadSnapshot (some snapshotFile) io.snapshot = .ok loaded)
    (hproper : ∀ i, (io.read i).header.Proper) (recovered : RecoveredState) (f' : File)
    (h : recover (some f) (some snapshotFile) io = (.ok recovered,some f')) :
    Resumable f f' io loaded.walOffset.toNat recovered ↔
      io.walOpens = true ∧
          (loaded.walOffset.toNat ≤ f.bytes.length ∨ (io.read 0).header = .failed) ∨
        io.walOpens = false ∧ f.bytes = [] := by
  have hstart : replayStart (some snapshotFile) io.snapshot =
      some (loaded.state,loaded.walOffset.toNat) := by
    rw [replayStart,hload]
  cases hopen : io.walOpens with
  | false =>
    simp only [Bool.false_eq_true,false_and,true_and,false_or]
    exact resumable_unopened_iff hopen hstart h
  | true =>
    simp only [true_and,Bool.true_eq_false,false_and,or_false]
    exact resumable_opened_iff hopen hstart hproper h

theorem resumable_payment :
    ∃ snapshotFile recovered, Snapshot.Written sampleChart 0 snapshotFile ∧
      recover (some paymentLog) (some snapshotFile) .complete = (.ok recovered,some paymentLog) ∧
      Resumable paymentLog paymentLog .complete 0 recovered := by
  obtain ⟨snapshotFile,hsnap⟩ := exists_chartSnapshot 0
  have hrec := recover_opened (replayStart_written hsnap) rfl
    (replayLog_payment (show validateTrialBalance (replayRecord sampleChart _) = .ok () by
      decide))
  exact ⟨snapshotFile,_,hsnap,hrec,(resumable_iff paymentLog snapshotFile .complete
    ⟨sampleChart,0⟩ (Snapshot.loadSnapshot_written hsnap)
    (fun _ => show ReadOutcome.complete.Proper by decide) _ _ hrec).mpr
    (.inl ⟨rfl,.inl (Nat.zero_le _)⟩)⟩

/-- The snapshot is ahead of an empty log: recovery succeeds and reports a length
of 100, the next payment is written at 0, and a reader from 100 on never sees
it. -/
theorem resumed_record_hidden :
    ∃ snapshotFile w, Snapshot.Written sampleChart 100 snapshotFile ∧
      recover (some .empty) (some snapshotFile) .complete =
        (.ok ⟨sampleChart,100⟩,some .empty) ∧
      ((⟨false,.syncEveryWrite,0,false⟩ : BinaryWalWriter).openFile .syncEveryWrite
          (some .empty)).2.appendAll .empty [⟨samplePayment 1,(samplePopped 1).io⟩] =
        some ([83],w,paymentLog) ∧
      (BinaryWalReader.opened.seek 100).drain paymentLog (fun l tx => l ++ [tx])
        (fun _ => .complete) [] = ([],.endOfLog,⟨true,100,100⟩) := by
  obtain ⟨snapshotFile,hsnap⟩ := exists_chartSnapshot 100
  have hempty : (BinaryWalReader.opened.seek 100).readNext .empty .complete =
      (.endOfLog,⟨true,100,100⟩) := BinaryWalReader.readNext_end rfl (by decide) (by decide)
  have hpaid : (BinaryWalReader.opened.seek 100).readNext paymentLog .complete =
      (.endOfLog,⟨true,100,100⟩) :=
    BinaryWalReader.readNext_end rfl (paymentLog_length ▸ (by decide : 83 ≤ 100)) (by decide)
  have hdrain : (BinaryWalReader.opened.seek 100).drain .empty replayRecord
      (fun _ => .complete) sampleChart = (sampleChart,.endOfLog,⟨true,100,100⟩) :=
    BinaryWalReader.drain_stop hempty (by simp) _
  have hreplay := @replayLog_endOfLog .complete .empty sampleChart 100 _ _ hdrain
  rw [checked_balanced (by decide)] at hreplay
  have hshape : (((⟨false,.syncEveryWrite,0,false⟩ : BinaryWalWriter).openFile .syncEveryWrite
      (some .empty)).2.appendAll .empty [⟨samplePayment 1,(samplePopped 1).io⟩]).map
        (fun r => (r.1,r.2.1)) = some ([83],⟨true,.syncEveryWrite,83,false⟩) := by decide
  obtain ⟨⟨sizes,w,f⟩,happend,he⟩ := Option.map_eq_some_iff.mp hshape
  cases he
  have hf : f = paymentLog := by
    refine File.ext_bytes ?_
    rw [(BinaryWalWriter.appendAll_spec rfl happend).1,paymentLog_bytes,List.append_nil]
    rfl
  subst hf
  exact ⟨snapshotFile,_,hsnap,recover_opened (replayStart_written hsnap) rfl hreplay,happend,
    BinaryWalReader.drain_stop hpaid (by simp) _⟩

end Resume

end FinancialLedger.Recovery
