import FinancialLedger.WalScan
set_option autoImplicit false

namespace FinancialLedger.Wal
open PosixFile

structure Append where
  tx : Transaction
  io : AppendIo
  deriving DecidableEq, Repr

def Append.logged (a : Append) : Transaction := stamped a.tx a.io.now

/-- Append one after the other until one fails; on success `size_bytes` after
each of them, the writer and the file. -/
def BinaryWalWriter.appendAll :
    BinaryWalWriter → File → List Append → Option (List Nat × BinaryWalWriter × File)
  | w, f, [] => some ([],w,f)
  | w, f, a :: appends =>
      match w.append f a.tx a.io with
      | (.error _,_,_) => none
      | (.ok _,w',f') =>
          (w'.appendAll f' appends).map (fun (sizes,rest) => (w'.sizeBytes :: sizes,rest))

section Write

variable {w w' : BinaryWalWriter} {f f' : File} {appends : List Append} {sizes : List Nat}

theorem BinaryWalWriter.append_ok {tx : Transaction} {io : AppendIo} {u : Unit}
    (hv : w.fdValid = true) (h : w.append f tx io = (.ok u,w',f')) :
    f'.bytes = f.bytes ++ recordOf (stamped tx io.now) ∧ w'.fdValid = true ∧
      w'.sizeBytes = w.sizeBytes+(recordOf (stamped tx io.now)).length := by
  obtain ⟨n,f'',-,-,-,ha⟩ | ⟨f'',-,-,-,-,ha⟩ | ⟨f'',-,hb,-,ha⟩ := append_cases hv f tx io
  · cases ha.symm.trans h
  · cases ha.symm.trans h
  · cases ha.symm.trans h
    exact ⟨hb,hv,rfl⟩

theorem BinaryWalWriter.appendAll_spec (hv : w.fdValid = true)
    (h : w.appendAll f appends = some (sizes,w',f')) :
    f'.bytes = f.bytes ++ logBytes (appends.map Append.logged) ∧
    ∀ i, i < appends.length → sizes[i]? =
      some (w.sizeBytes+(logBytes ((appends.take (i+1)).map Append.logged)).length) := by
  induction appends generalizing w f sizes with
  | nil =>
    cases h
    exact ⟨by simp,nofun⟩
  | cons a appends ih =>
    rw [appendAll] at h
    rcases ha : w.append f a.tx a.io with ⟨error | u,w₁,f₁⟩
    · simp [ha] at h
    · simp only [ha,Option.map_eq_some_iff] at h
      obtain ⟨⟨sizes₁,w₂,f₂⟩,hrest,heq⟩ := h
      cases heq
      obtain ⟨hb,hv₁,hsize⟩ := append_ok hv ha
      obtain ⟨hbytes,hsizes⟩ := ih hv₁ hrest
      refine ⟨?_,?_⟩
      · rw [hbytes,hb,List.map_cons,logBytes_cons,List.append_assoc]
        rfl
      · intro i hi
        cases i with
        | zero =>
          rw [List.getElem?_cons_zero,hsize]
          simp [Append.logged]
        | succ i =>
          rw [List.getElem?_cons_succ,hsizes i (Nat.lt_of_succ_lt_succ hi),hsize,List.take_succ_cons,
            List.map_cons,logBytes_cons,List.length_append,Nat.add_assoc]
          rfl

end Write

section Read

variable {f : File} {r : BinaryWalReader}

theorem BinaryWalReader.afterCalls_log {txs : List Transaction} {rest : List UInt8}
    (hf : f.bytes = logBytes txs ++ rest) :
    BinaryWalReader.opened.afterCalls f (fun _ => .complete) txs.length =
      ⟨true,(logBytes txs).length,(logBytes txs).length⟩ := by
  have hrun : RunAt f BinaryWalReader.opened.cursor (txs.map WellFormedRecord.ofTransaction) :=
    ⟨rest,by rw [runBytes_ofTransaction,← hf]; rfl⟩
  have h := afterCalls_run (r := .opened) rfl rfl (fun _ => .complete) hrun
    (fun _ rec _ => ReadIo.complete_delivers rec)
  rw [List.length_map,runBytes_ofTransaction] at h
  rw [h,skip,show BinaryWalReader.opened.cursor = 0 from rfl,Nat.zero_add]
  rfl

theorem BinaryWalReader.readNext_log {txs : List Transaction} {tx : Transaction}
    {rest : List UInt8} (hf : f.bytes = logBytes txs ++ (recordOf tx ++ rest)) :
    (BinaryWalReader.opened.afterCalls f (fun _ => .complete) txs.length).readNext f .complete =
      (.ok tx,⟨true,(logBytes (txs ++ [tx])).length,(logBytes (txs ++ [tx])).length⟩) := by
  have hdrop : f.bytes.drop (logBytes txs).length =
      (WellFormedRecord.ofTransaction tx).bytes ++ rest := by
    rw [hf,List.drop_left]
    rfl
  rw [afterCalls_log hf,readNext_delivered rfl hdrop (ReadIo.complete_delivers _),skip,logBytes_append,
    List.length_append,logBytes_cons,logBytes_nil,List.append_nil]
  rfl

end Read

/-- What was appended to an empty file is read back in order, each record up to
the size the writer had after it; behind it the reader sees the end of the log
or, if a record was cut short there, a truncated one, and stays where it is. -/
theorem readNext_appendAll (w₀ : BinaryWalWriter) (mode : SyncMode) (appends : List Append)
    (sizes : List Nat) (w : BinaryWalWriter) (f f' : File) (g : List UInt8)
    (h : (w₀.openFile mode (some .empty)).2.appendAll .empty appends = some (sizes,w,f))
    (hf : f'.bytes = f.bytes ++ g) :
    let reader := fun i => BinaryWalReader.opened.afterCalls f' (fun _ => .complete) i
    (∀ i a, appends[i]? = some a → ∃ size, sizes[i]? = some size ∧
      (reader i).readNext f' .complete = (.ok a.logged,⟨true,size,size⟩)) ∧
    (g = [] → (reader appends.length).readNext f' .complete =
      (.endOfLog,reader appends.length)) ∧
    (∀ tx n, 0 < n → n < (recordOf tx).length → g = (recordOf tx).take n →
      (reader appends.length).readNext f' .complete = (.truncated,reader appends.length)) := by
  intro reader
  obtain ⟨hbytes,hsizes⟩ := BinaryWalWriter.appendAll_spec rfl h
  have hlog : f'.bytes = logBytes (appends.map Append.logged) ++ g := by
    rw [hf,hbytes]
    rfl
  have hend : reader appends.length = ⟨true,(logBytes (appends.map Append.logged)).length,
      (logBytes (appends.map Append.logged)).length⟩ := by
    have hafter := BinaryWalReader.afterCalls_log hlog
    rwa [List.length_map] at hafter
  refine ⟨?_,?_,?_⟩
  · intro i a ha
    have hi : i < appends.length := (List.getElem?_eq_some_iff.mp ha).1
    have htake : appends.take (i+1) = appends.take i ++ [a] := by
      rw [List.take_add_one,ha]
      rfl
    have hsplit : f'.bytes = logBytes ((appends.take i).map Append.logged) ++ (recordOf a.logged ++
        (logBytes ((appends.drop (i+1)).map Append.logged) ++ g)) := by
      rw [hlog]
      conv_lhs => rw [← List.take_append_drop (i+1) appends,htake]
      simp
    have hread := BinaryWalReader.readNext_log hsplit
    rw [List.length_map,List.length_take_of_le (Nat.le_of_lt hi)] at hread
    refine ⟨_,hsizes i hi,?_⟩
    rw [hread,htake,List.map_append]
    show _ = (ReadResult.ok a.logged,(⟨true,0+_,0+_⟩ : BinaryWalReader))
    rw [Nat.zero_add]
    rfl
  · intro hg
    rw [hg,List.append_nil] at hlog
    have hfits := f'.fits
    rw [hend]
    rw [hlog] at hfits
    exact BinaryWalReader.readNext_end rfl (Nat.le_of_eq (congrArg List.length hlog)) hfits
  · intro tx n hn hlt hg
    have hdrop : f'.bytes.drop (logBytes (appends.map Append.logged)).length =
        (recordOf tx).take n := by
      rw [hlog,List.drop_left,hg]
    rw [hend]
    exact BinaryWalReader.readNext_torn rfl hn hlt hdrop

def sampleAppends : List Append :=
  [⟨⟨9,⟨0,1⟩,0,.empty⟩,⟨17,.accepts 4096,false⟩⟩,
    ⟨⟨3,⟨0,1⟩,0,⟨[⟨1,.debit,5⟩,⟨2,.credit,-5⟩],by decide⟩⟩,⟨-18,.accepts 83,true⟩⟩]

theorem readNext_appendAll_torn :
    ∃ f', f'.bytes = logBytes (sampleAppends.map Append.logged) ++
        (recordOf ⟨4,⟨0,2⟩,0,.empty⟩).take 5 ∧
      BinaryWalReader.opened.readNext f' .complete =
        (.ok ⟨9,⟨0,1⟩,17,.empty⟩,⟨true,49,49⟩) ∧
      let reader := BinaryWalReader.opened.afterCalls f' (fun _ => .complete) 2
      reader.readNext f' .complete = (.truncated,reader) := by
  have hshape : (((⟨false,.syncEveryWrite,0,false⟩ : BinaryWalWriter).openFile .batchSyncFlush
      (some .empty)).2.appendAll .empty sampleAppends).map (fun r => (r.1,r.2.1)) =
        some ([49,132],⟨true,.batchSyncFlush,132,true⟩) := by decide
  obtain ⟨⟨sizes,w,f⟩,happend,he⟩ := Option.map_eq_some_iff.mp hshape
  cases he
  let f' : File := ⟨logBytes (sampleAppends.map Append.logged) ++
    (recordOf ⟨4,⟨0,2⟩,0,.empty⟩).take 5,by decide +kernel⟩
  have hbytes : f'.bytes = f.bytes ++ (recordOf ⟨4,⟨0,2⟩,0,.empty⟩).take 5 := by
    rw [(BinaryWalWriter.appendAll_spec rfl happend).1]
    rfl
  obtain ⟨hread,-,htorn⟩ := readNext_appendAll ⟨false,.syncEveryWrite,0,false⟩ .batchSyncFlush
    sampleAppends [49,132] ⟨true,.batchSyncFlush,132,true⟩ f f' _ happend hbytes
  obtain ⟨size,hsize,hfirst⟩ := hread 0 _ rfl
  cases hsize
  exact ⟨f',rfl,hfirst,htorn _ 5 (by decide) (by decide) rfl⟩

end FinancialLedger.Wal
