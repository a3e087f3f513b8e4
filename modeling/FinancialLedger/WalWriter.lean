import FinancialLedger.PosixFile
import FinancialLedger.WalCodec
set_option autoImplicit false

namespace FinancialLedger.Wal
open PodBytes PosixFile

inductive SyncMode where
  | syncEveryWrite
  | batchSyncFlush
  deriving DecidableEq, Repr

structure BinaryWalWriter where
  fdValid : Bool
  syncMode : SyncMode
  offset : Nat
  dirtySinceSync : Bool
  deriving DecidableEq, Repr

def BinaryWalWriter.sizeBytes (w : BinaryWalWriter) : Nat := w.offset

/-- `BinaryWalWriter::open`; no file stands for a failed `open` or `fstat`. -/
def BinaryWalWriter.openFile (w : BinaryWalWriter) (mode : SyncMode) :
    Option File → Result Unit × BinaryWalWriter
  | none => (.error .walOpenFailed,⟨false,w.syncMode,0,false⟩)
  | some f => (.ok (),⟨true,mode,f.bytes.length,false⟩)

structure AppendIo where
  now : Int64
  write : WriteOutcome
  fsync : Bool
  deriving DecidableEq, Repr

def BinaryWalWriter.flush (w : BinaryWalWriter) (fsync : Bool) : Result Unit × BinaryWalWriter :=
  if w.fdValid = false then (.error .walOpenFailed,w)
  else if w.dirtySinceSync = false then (.ok (),w)
  else if fsync = false then (.error .walSyncFailed,w)
  else (.ok (),{ w with dirtySinceSync := false })

/-- The bytes of a failed or short `write` stay in the file. -/
def BinaryWalWriter.append (w : BinaryWalWriter) (f : File) (tx : Transaction) (io : AppendIo) :
    Result Unit × BinaryWalWriter × File :=
  if w.fdValid = false then (.error .walOpenFailed,w,f)
  else
    match encodeTransactionPayload tx with
    | .error e => (.error e,w,f)
    | .ok payload =>
        let header : RecordHeader :=
          ⟨kMagic,kVersion,0,UInt32.ofNat payload.length,tx.id,io.now⟩
        let record := recordBytes header payload
        let written := f.write record io.write
        if written.1 ≠ some record.length then (.error .walWriteFailed,w,written.2)
        else
          let w' := { w with offset := w.offset+record.length, dirtySinceSync := true }
          match w.syncMode with
          | .syncEveryWrite => ((w'.flush io.fsync).1,(w'.flush io.fsync).2,written.2)
          | .batchSyncFlush => (.ok (),w',written.2)

def headerOf (tx : Transaction) : RecordHeader :=
  ⟨kMagic,kVersion,0,UInt32.ofNat (payloadBytes tx).length,tx.id,tx.createdAtNs⟩

def recordOf (tx : Transaction) : List UInt8 := recordBytes (headerOf tx) (payloadBytes tx)

/-- A transaction as the log keeps it: the append replaces its timestamp. -/
def stamped (tx : Transaction) (now : Int64) : Transaction := { tx with createdAtNs := now }

def logBytes (txs : List Transaction) : List UInt8 := txs.flatMap recordOf

@[simp] theorem logBytes_nil : logBytes [] = [] := rfl

@[simp] theorem logBytes_cons (tx : Transaction) (txs : List Transaction) :
    logBytes (tx :: txs) = recordOf tx ++ logBytes txs := List.flatMap_cons ..

@[simp] theorem logBytes_append (txs txs' : List Transaction) :
    logBytes (txs ++ txs') = logBytes txs ++ logBytes txs' := List.flatMap_append ..

theorem recordOf_length (tx : Transaction) :
    (recordOf tx).length = kHeaderSize+(payloadBytes tx).length+kCrcSize := by
  simp only [recordOf,recordBytes,List.length_append,Pod.length_toBytes]
  rfl

theorem kHeaderSize_eq : kHeaderSize = 28 := rfl
theorem kCrcSize_eq : kCrcSize = 4 := rfl
def kMaxRecordSize : Nat := kHeaderSize+kMaxPayloadSize+kCrcSize

theorem recordOf_length_le (tx : Transaction) : (recordOf tx).length ≤ kMaxRecordSize := by
  have h := payloadBytes_length_le tx
  rw [recordOf_length,kMaxRecordSize]
  omega

theorem recordOf_length_pos (tx : Transaction) : 0 < (recordOf tx).length := by
  rw [recordOf_length,kCrcSize_eq]
  omega

def AppendIo.WritesAll (io : AppendIo) (f : File) (tx : Transaction) : Prop :=
  (f.write (recordOf (stamped tx io.now)) io.write).1 =
    some (recordOf (stamped tx io.now)).length

instance (io : AppendIo) (f : File) (tx : Transaction) : Decidable (io.WritesAll f tx) :=
  inferInstanceAs (Decidable (_ = _))

theorem AppendIo.writesAll_accepts {io : AppendIo} {f : File} {n : Nat}
    (hw : io.write = .accepts n) (hn : kMaxRecordSize ≤ n)
    (hf : f.bytes.length+kMaxRecordSize ≤ maxFileSize) (tx : Transaction) :
    io.WritesAll f tx := by
  have hlen := recordOf_length_le (stamped tx io.now)
  have hmax : kMaxRecordSize ≤ maxRwCount := by decide
  rw [WritesAll,hw]
  exact File.write_accepts (by omega) (by omega) (by omega)

/-- The three ways an `append` on an open log ends: a torn record, a whole
record that was not synced, or success. -/
theorem BinaryWalWriter.append_cases {w : BinaryWalWriter} (hv : w.fdValid = true) (f : File)
    (tx : Transaction) (io : AppendIo) :
    (∃ n f', ¬ io.WritesAll f tx ∧ n < (recordOf (stamped tx io.now)).length ∧
      f'.bytes = f.bytes ++ (recordOf (stamped tx io.now)).take n ∧
      w.append f tx io = (.error .walWriteFailed,w,f')) ∨
    (∃ f', io.WritesAll f tx ∧ f'.bytes = f.bytes ++ recordOf (stamped tx io.now) ∧
      w.syncMode = .syncEveryWrite ∧ io.fsync = false ∧
      w.append f tx io = (.error .walSyncFailed,
        { w with
          offset := w.offset+(recordOf (stamped tx io.now)).length
          dirtySinceSync := true },f')) ∨
    (∃ f', io.WritesAll f tx ∧ f'.bytes = f.bytes ++ recordOf (stamped tx io.now) ∧
      (w.syncMode = .syncEveryWrite → io.fsync = true) ∧
      w.append f tx io = (.ok (),
        { w with
          offset := w.offset+(recordOf (stamped tx io.now)).length
          dirtySinceSync := decide (w.syncMode = .batchSyncFlush) },f')) := by
  have hrec : recordBytes ⟨kMagic,kVersion,0,UInt32.ofNat (payloadBytes tx).length,tx.id,io.now⟩
      (payloadBytes tx) = recordOf (stamped tx io.now) := rfl
  have hpos := recordOf_length_pos (stamped tx io.now)
  simp only [append,hv,Bool.true_eq_false,if_false,encodeTransactionPayload_eq,hrec,
    AppendIo.WritesAll]
  obtain ⟨n,hn,hb,hw⟩ := f.write_spec (recordOf (stamped tx io.now)) io.write
  by_cases hall : (f.write (recordOf (stamped tx io.now)) io.write).1 =
    some (recordOf (stamped tx io.now)).length
  · have hc := File.write_complete hall
    rw [if_neg (not_not.mpr hall)]
    cases hm : w.syncMode with
    | syncEveryWrite =>
      cases hs : io.fsync with
      | false => exact .inr (.inl ⟨_,hall,hc,rfl,rfl,by simp [flush]⟩)
      | true => exact .inr (.inr ⟨_,hall,hc,fun _ => rfl,by simp [flush]⟩)
    | batchSyncFlush => exact .inr (.inr ⟨_,hall,hc,nofun,rfl⟩)
  · rw [if_pos hall]
    refine .inl ⟨n,_,hall,?_,hb,rfl⟩
    rcases hw with hw | ⟨-,rfl⟩
    · exact Nat.lt_of_le_of_ne hn (fun h => hall (by rw [hw,h]))
    · exact hpos

theorem BinaryWalWriter.append_bytes {w : BinaryWalWriter} (hv : w.fdValid = true) {f : File}
    {tx : Transaction} {io : AppendIo} (hall : io.WritesAll f tx) :
    (w.append f tx io).2.2.bytes = f.bytes ++ recordOf (stamped tx io.now) := by
  obtain ⟨-,-,hshort,-⟩ | ⟨f',-,hb,-,-,ha⟩ | ⟨f',-,hb,-,ha⟩ := append_cases hv f tx io
  · exact absurd hall hshort
  · rw [ha]
    exact hb
  · rw [ha]
    exact hb

/-- The log is open, the kernel takes the whole record, and where the mode asks
for it, syncs it. -/
def BinaryWalWriter.Accepts (w : BinaryWalWriter) (f : File) (tx : Transaction) (io : AppendIo) :
    Prop :=
  w.fdValid = true ∧ io.WritesAll f tx ∧ (w.syncMode = .syncEveryWrite → io.fsync = true)

instance (w : BinaryWalWriter) (f : File) (tx : Transaction) (io : AppendIo) :
    Decidable (w.Accepts f tx io) := inferInstanceAs (Decidable (_ ∧ _ ∧ (_ → _)))

theorem BinaryWalWriter.append_ok_iff (w : BinaryWalWriter) (f : File) (tx : Transaction)
    (io : AppendIo) : (w.append f tx io).1 = .ok () ↔ w.Accepts f tx io := by
  cases hv : w.fdValid with
  | false => simp [append,Accepts,hv]
  | true =>
    obtain ⟨n,f',hshort,-,-,ha⟩ | ⟨f',-,-,hmode,hsync,ha⟩ | ⟨f',hall,-,hsync,ha⟩ :=
      append_cases hv f tx io
    · simp [ha,Accepts,hshort]
    · simp [ha,Accepts,hmode,hsync]
    · rw [ha]
      exact ⟨fun _ => ⟨hv,hall,hsync⟩,fun _ => rfl⟩

end FinancialLedger.Wal
