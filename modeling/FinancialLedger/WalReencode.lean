import FinancialLedger.WalScan
import FinancialLedger.Trapping
set_option autoImplicit false

/-!
Reading arbitrary bytes: which part of the record buffer each call touches, and
what the bytes that were accepted look like.
-/

namespace FinancialLedger.Wal
open PodBytes PosixFile

structure Access where
  start : Nat
  size : Nat
  deriving DecidableEq, Repr

def Access.Within (a : Access) (n : Nat) : Prop := a.start+a.size ≤ n

instance (a : Access) (n : Nat) : Decidable (a.Within n) := inferInstanceAs (Decidable (_ ≤ _))

def Access.shift (n : Nat) (a : Access) : Access := { a with start := n+a.start }

def getLegsAccesses (payload : List UInt8) : Nat → Nat → LegList → List Access
  | 0, _, _ => []
  | n+1, offset, legs =>
      let dirOffset := offset+PodBytes.sizeOf AccountId
      let amountOffset := dirOffset+PodBytes.sizeOf UInt8
      let dirByte := get UInt8 payload dirOffset
      ⟨offset,PodBytes.sizeOf AccountId⟩ :: ⟨dirOffset,PodBytes.sizeOf UInt8⟩ ::
        if dirByte > 1 then []
        else
          ⟨amountOffset,PodBytes.sizeOf Amount⟩ ::
            match legs.pushBack ⟨get AccountId payload offset,
              if dirByte = 0 then .debit else .credit,get Amount payload amountOffset⟩ with
            | none => []
            | some legs' => getLegsAccesses payload n (amountOffset+PodBytes.sizeOf Amount) legs'

/-- The copies of `decode_transaction_payload`, from the start of the payload. -/
def decodeAccesses (payload : List UInt8) : List Access :=
  if payload.length < kMinSize then []
  else
    let legCount := get UInt8 payload (PodBytes.sizeOf UInt64*2)
    [⟨0,PodBytes.sizeOf UInt64⟩,⟨PodBytes.sizeOf UInt64,PodBytes.sizeOf UInt64⟩,
      ⟨PodBytes.sizeOf UInt64*2,PodBytes.sizeOf UInt8⟩] ++
    if kMaxLegsPerTransaction < legCount.toNat then []
    else if payload.length ≠
        kMinSize+legCount.toNat*(PodBytes.sizeOf AccountId+1+PodBytes.sizeOf Amount) then []
    else getLegsAccesses payload legCount.toNat kMinSize .empty

/-- The header copied in, the body that `pread` may fill, the stored checksum,
the bytes it covers, and the payload. -/
def BinaryWalReader.bodyAccesses (r : BinaryWalReader) (f : File) (header : RecordHeader)
    (outcome : ReadOutcome) : List Access :=
  let size := header.payloadSize.toNat
  ⟨0,kHeaderSize⟩ :: ⟨kHeaderSize,size+kCrcSize⟩ ::
    match f.pread (size+kCrcSize) (r.cursor+kHeaderSize) outcome with
    | none => []
    | some body =>
        if body.length < size+kCrcSize then []
        else
          let payload := body.take size
          ⟨kHeaderSize+size,kCrcSize⟩ :: ⟨0,kHeaderSize+size⟩ ::
            if get UInt32 body size ≠ Crc32.compute (Pod.toBytes header ++ payload) then []
            else (decodeAccesses payload).map (Access.shift kHeaderSize)

/-- What one `read_next` touches of its record buffer. -/
def BinaryWalReader.bufferAccesses (r : BinaryWalReader) (f : File) (io : ReadIo) :
    List Access :=
  if r.fdValid = false then []
  else
    match f.pread kHeaderSize r.cursor io.header with
    | none => []
    | some bytes =>
        if bytes.length = 0 then []
        else if bytes.length < kHeaderSize then []
        else
          let header := get RecordHeader bytes 0
          if header.magic ≠ kMagic ∨ header.version ≠ kVersion ∨
              kMaxPayloadSize < header.payloadSize.toNat then []
          else r.bodyAccesses f header io.body

section Accesses

theorem getLegsAccesses_within {payload : List UInt8} {n offset : Nat} {legs : LegList}
    (h : offset+n*17 ≤ payload.length) :
    ∀ a ∈ getLegsAccesses payload n offset legs, a.Within payload.length := by
  have hid : PodBytes.sizeOf AccountId = 8 := rfl
  have hbyte : PodBytes.sizeOf UInt8 = 1 := rfl
  have hamount : PodBytes.sizeOf Amount = 8 := rfl
  induction n generalizing offset legs with
  | zero => simp [getLegsAccesses]
  | succ n ih =>
    intro a ha
    simp only [getLegsAccesses,List.mem_cons] at ha
    obtain rfl | rfl | ha := ha
    · simp only [Access.Within]
      omega
    · simp only [Access.Within]
      omega
    · split at ha
      · cases ha
      · obtain rfl | ha := List.mem_cons.mp ha
        · simp only [Access.Within]
          omega
        · split at ha
          · cases ha
          · exact ih (by omega) a ha

theorem decodeAccesses_within (payload : List UInt8) :
    ∀ a ∈ decodeAccesses payload, a.Within payload.length := by
  have hword : PodBytes.sizeOf UInt64 = 8 := rfl
  have hbyte : PodBytes.sizeOf UInt8 = 1 := rfl
  have hmin : kMinSize = 17 := rfl
  intro a ha
  simp only [decodeAccesses] at ha
  split at ha
  · cases ha
  case isFalse hlong =>
  rw [List.mem_append] at ha
  obtain ha | ha := ha
  · simp only [List.mem_cons,List.not_mem_nil,or_false] at ha
    obtain rfl | rfl | rfl := ha <;> simp only [Access.Within] <;> omega
  · split at ha
    · cases ha
    split at ha
    · cases ha
    case isFalse hsize => exact getLegsAccesses_within (Nat.le_of_eq (not_not.mp hsize).symm) a ha

theorem BinaryWalReader.bodyAccesses_within (r : BinaryWalReader) (f : File)
    {header : RecordHeader} (o : ReadOutcome) (h : header.payloadSize.toNat ≤ kMaxPayloadSize) :
    ∀ a ∈ r.bodyAccesses f header o, a.Within kMaxRecordSize := by
  have hmax : kMaxRecordSize = kHeaderSize+kMaxPayloadSize+kCrcSize := rfl
  intro a ha
  simp only [bodyAccesses,List.mem_cons] at ha
  obtain rfl | rfl | ha := ha
  · simp only [Access.Within]
    omega
  · simp only [Access.Within]
    omega
  split at ha
  · cases ha
  split at ha
  · cases ha
  simp only [List.mem_cons] at ha
  obtain rfl | rfl | ha := ha
  · simp only [Access.Within]
    omega
  · simp only [Access.Within]
    omega
  split at ha
  · cases ha
  · obtain ⟨b,hb,rfl⟩ := List.mem_map.mp ha
    have hwithin := decodeAccesses_within _ b hb
    simp only [Access.Within,Access.shift,List.length_take] at hwithin ⊢
    omega

theorem BinaryWalReader.bufferAccesses_within (r : BinaryWalReader) (f : File) (io : ReadIo) :
    ∀ a ∈ r.bufferAccesses f io, a.Within kMaxRecordSize := by
  intro a ha
  simp only [bufferAccesses] at ha
  split at ha
  · cases ha
  split at ha
  · cases ha
  split at ha
  · cases ha
  split at ha
  · cases ha
  split at ha
  · cases ha
  case isFalse hhdr =>
  simp only [not_or,Nat.not_lt] at hhdr
  exact r.bodyAccesses_within f io.body hhdr.2.2 a ha

end Accesses

section Trapping
open Trapping

variable (P : Access → Prop) [DecidablePred P]

def getTrapping (α : Type) [Pod α] (payload : List UInt8) (offset : Nat) : Option α :=
  guarded P [⟨offset,PodBytes.sizeOf α⟩] (get α payload offset)

def getLegsTrapping (payload : List UInt8) : Nat → Nat → LegList → Option (Result LegList)
  | 0, _, legs => some (.ok legs)
  | n+1, offset, legs =>
      (getTrapping P AccountId payload offset).bind fun accountId =>
      (getTrapping P UInt8 payload (offset+PodBytes.sizeOf AccountId)).bind fun dirByte =>
      if dirByte > 1 then some (.error .walCorruptRecord)
      else
        (getTrapping P Amount payload
          (offset+PodBytes.sizeOf AccountId+PodBytes.sizeOf UInt8)).bind fun amount =>
        match legs.pushBack ⟨accountId,if dirByte = 0 then .debit else .credit,amount⟩ with
        | none => some (.error .walCorruptRecord)
        | some legs' => getLegsTrapping payload n
            (offset+PodBytes.sizeOf AccountId+PodBytes.sizeOf UInt8+PodBytes.sizeOf Amount) legs'

def decodeTrapping (payload : List UInt8) (id : TransactionId) (timestampNs : Int64) :
    Option (Result Transaction) :=
  if payload.length < kMinSize then some (.error .walCorruptRecord)
  else
    (getTrapping P UInt64 payload 0).bind fun high =>
    (getTrapping P UInt64 payload (PodBytes.sizeOf UInt64)).bind fun low =>
    (getTrapping P UInt8 payload (PodBytes.sizeOf UInt64*2)).bind fun legCount =>
    if kMaxLegsPerTransaction < legCount.toNat then some (.error .walCorruptRecord)
    else if payload.length ≠
        kMinSize+legCount.toNat*(PodBytes.sizeOf AccountId+1+PodBytes.sizeOf Amount) then
      some (.error .walCorruptRecord)
    else
      (getLegsTrapping P payload legCount.toNat kMinSize .empty).map
        (Except.map fun legs => ⟨id,⟨high,low⟩,timestampNs,legs⟩)

theorem getLegsTrapping_eq (payload : List UInt8) (n offset : Nat) (legs : LegList) :
    getLegsTrapping P payload n offset legs =
      guarded P (getLegsAccesses payload n offset legs) (getLegs payload n offset legs) := by
  induction n generalizing offset legs with
  | zero => simp [getLegsTrapping,getLegsAccesses,getLegs]
  | succ n ih =>
    refine bind_guarded_cons P (bind_guarded_cons P ?_)
    dsimp only [getLegs]
    split
    · rw [guarded_nil]
    · refine bind_guarded_cons P ?_
      split <;> rename_i hpush <;> simp [hpush,ih]

theorem decodeTrapping_eq (payload : List UInt8) (id : TransactionId) (timestampNs : Int64) :
    decodeTrapping P payload id timestampNs =
      guarded P (decodeAccesses payload) (decodeTransactionPayload payload id timestampNs) := by
  unfold decodeTrapping decodeAccesses decodeTransactionPayload
  split
  · rw [guarded_nil]
  · simp only [List.cons_append,List.nil_append]
    refine bind_guarded_cons P (bind_guarded_cons P (bind_guarded_cons P ?_))
    split
    · rw [guarded_nil]
    · split
      · rw [guarded_nil]
      · rw [getLegsTrapping_eq,map_guarded]
        split <;> rename_i hlegs <;> simp [hlegs,Except.map]

end Trapping

section RecordBuffer
open Trapping

/-- The body of a record read into the buffer of `read_next`. Each access traps when it
leaves the buffer; the list holds the bytes that have been copied in. -/
def BinaryWalReader.readBodyTrapping (r : BinaryWalReader) (f : File) (header : RecordHeader)
    (outcome : ReadOutcome) : Option (ReadResult × BinaryWalReader) :=
  let within := fun a : Access => a.Within kMaxRecordSize
  let size := header.payloadSize.toNat
  (guarded within [⟨0,kHeaderSize⟩] (Pod.toBytes header)).bind fun start =>
  (guarded within [⟨kHeaderSize,size+kCrcSize⟩]
    (f.pread (size+kCrcSize) (r.cursor+kHeaderSize) outcome)).bind fun
  | none => some (.truncated,r)
  | some body =>
      if body.length < size+kCrcSize then some (.truncated,r)
      else
        let buffer := start ++ body
        (getTrapping within UInt32 buffer (kHeaderSize+size)).bind fun storedCrc =>
        (guarded within [⟨0,kHeaderSize+size⟩]
          (Crc32.compute (buffer.take (kHeaderSize+size)))).bind fun computedCrc =>
        if storedCrc ≠ computedCrc then some (.corrupt,r)
        else
          (decodeTrapping (fun a => within (a.shift kHeaderSize))
            ((buffer.drop kHeaderSize).take size) header.transactionId header.timestampNs).map fun
          | .error _ => (.corrupt,r)
          | .ok tx =>
              let cursor := r.cursor+(kHeaderSize+size+kCrcSize)
              (.ok tx,{ r with cursor := cursor, lastValidOffset := cursor })

def BinaryWalReader.readNextTrapping (r : BinaryWalReader) (f : File) (io : ReadIo) :
    Option (ReadResult × BinaryWalReader) :=
  if r.fdValid = false then some (.endOfLog,r)
  else
    match f.pread kHeaderSize r.cursor io.header with
    | none => some (.truncated,r)
    | some bytes =>
        if bytes.length = 0 then some (.endOfLog,r)
        else if bytes.length < kHeaderSize then some (.truncated,r)
        else
          let header := get RecordHeader bytes 0
          if header.magic ≠ kMagic ∨ header.version ≠ kVersion ∨
              kMaxPayloadSize < header.payloadSize.toNat then some (.corrupt,r)
          else r.readBodyTrapping f header io.body

theorem BinaryWalReader.readBodyTrapping_eq (r : BinaryWalReader) (f : File)
    (header : RecordHeader) (o : ReadOutcome) :
    r.readBodyTrapping f header o =
      guarded (Access.Within · kMaxRecordSize) (r.bodyAccesses f header o)
        (r.readBody f header o) := by
  have hheader : (Pod.toBytes header).length = kHeaderSize := Pod.length_toBytes header
  unfold readBodyTrapping bodyAccesses readBody
  dsimp only
  refine bind_guarded_cons _ (bind_guarded_cons _ ?_)
  cases f.pread (header.payloadSize.toNat+kCrcSize) (r.cursor+kHeaderSize) o with
  | none => simp
  | some body =>
    dsimp only
    split
    · rw [guarded_nil]
    have hcrc : get UInt32 (Pod.toBytes header ++ body) (kHeaderSize+header.payloadSize.toNat) =
        get UInt32 body header.payloadSize.toNat := by
      rw [← get_drop,← hheader,List.drop_left]
    have hcovered : (Pod.toBytes header ++ body).take (kHeaderSize+header.payloadSize.toNat) =
        Pod.toBytes header ++ body.take header.payloadSize.toNat := by
      rw [← hheader,List.take_length_add_append]
    have hspan : (Pod.toBytes header ++ body).drop kHeaderSize = body := by
      rw [← hheader,List.drop_left]
    refine bind_guarded_cons _ (bind_guarded_cons _ ?_)
    rw [hcrc,hcovered,hspan]
    split
    · rw [guarded_nil]
    · cases hdecode : decodeTransactionPayload (body.take header.payloadSize.toNat)
        header.transactionId header.timestampNs <;> simp [decodeTrapping_eq,guarded_map,hdecode]

theorem BinaryWalReader.readNextTrapping_eq (r : BinaryWalReader) (f : File) (io : ReadIo) :
    r.readNextTrapping f io =
        guarded (Access.Within · kMaxRecordSize) (r.bufferAccesses f io) (r.readNext f io) ∧
      r.readNextTrapping f io = some (r.readNext f io) := by
  have h : r.readNextTrapping f io =
      guarded (Access.Within · kMaxRecordSize) (r.bufferAccesses f io) (r.readNext f io) := by
    unfold readNextTrapping bufferAccesses readNext
    split
    · rw [guarded_nil]
    cases f.pread kHeaderSize r.cursor io.header with
    | none => simp
    | some bytes =>
      dsimp only
      split
      · rw [guarded_nil]
      split
      · rw [guarded_nil]
      split
      · rw [guarded_nil]
      · exact r.readBodyTrapping_eq f _ io.body
  refine ⟨h,?_⟩
  rw [h]
  exact (guarded_eq_some _).mpr (r.bufferAccesses_within f io)

end RecordBuffer

/-- The record that `append` encodes for a transaction, with the time of its
append in `createdAtNs`; `append` itself sets no flags. -/
def flaggedRecord (flags : UInt16) (tx : Transaction) : List UInt8 :=
  recordBytes { headerOf tx with flags := flags } (payloadBytes tx)

section Reencode

theorem WellFormedRecord.header_eq (rec : WellFormedRecord) :
    rec.header = { headerOf rec.tx with flags := rec.header.flags } := by
  obtain ⟨hid,htime,hpayload⟩ := decodeTransactionPayload_ok rec.decodes
  have hmagic := rec.magic
  have hversion := rec.version
  have hsize : rec.header.payloadSize = UInt32.ofNat (payloadBytes rec.tx).length := by
    rw [← hpayload,← rec.sized,UInt32.ofNat_toNat]
  cases hheader : rec.header with
  | mk magic version flags payloadSize transactionId timestampNs => simp_all [headerOf]

theorem WellFormedRecord.bytes_eq (rec : WellFormedRecord) :
    rec.bytes = flaggedRecord rec.header.flags rec.tx := by
  rw [flaggedRecord,← rec.header_eq,← rec.payload_eq]
  rfl

theorem WellFormedRecord.bytes_length_ge (rec : WellFormedRecord) : 49 ≤ rec.bytes.length := by
  have hmin : kMinSize = 17 := rfl
  rw [rec.bytes_length,rec.payload_length,kHeaderSize_eq,kCrcSize_eq]
  omega

theorem length_runBytes_ge (recs : List WellFormedRecord) :
    recs.length*49 ≤ (runBytes recs).length := by
  induction recs with
  | nil => simp
  | cons rec recs ih =>
    have hrec := rec.bytes_length_ge
    rw [runBytes_cons,List.length_append,List.length_cons]
    omega

variable {f : File}

theorem RunAt.header_at {offset i : Nat} {recs : List WellFormedRecord} {rec : WellFormedRecord}
    (h : RunAt f offset recs) (hi : recs[i]? = some rec) :
    get RecordHeader f.bytes (offset+(runBytes (recs.take i)).length) = rec.header := by
  obtain ⟨hlt,hget⟩ := List.getElem?_eq_some_iff.mp hi
  have hsplit : recs = recs.take i ++ rec :: recs.drop (i+1) := by
    rw [← hget,List.getElem_cons_drop,List.take_append_drop]
  rw [hsplit] at h
  obtain ⟨⟨rest,hd⟩,-⟩ := runAt_cons.mp (runAt_append.mp h).2
  rw [← Nat.add_zero (offset+_),← get_drop,hd,rec.bytes_append]
  exact get_append [] _ _ 0 rfl

def BinaryWalReader.Sound (f : File) (r : BinaryWalReader) : Prop :=
  r.lastValidOffset = r.cursor ∧ r.cursor ≤ f.bytes.length

theorem BinaryWalReader.Sound.step {r : BinaryWalReader} (h : r.Sound f) (io : ReadIo) :
    (r.readNext f io).2.Sound f ∧ r.lastValidOffset ≤ (r.readNext f io).2.lastValidOffset := by
  obtain hsame | ⟨tx,hok,hvalid⟩ := r.readNext_moves f io
  · rw [hsame]
    exact ⟨h,Nat.le_refl _⟩
  · have hcursor := readNext_ok hok
    refine ⟨⟨hvalid,hcursor.2⟩,?_⟩
    rw [h.1,hvalid]
    exact Nat.le_of_lt hcursor.1

theorem BinaryWalReader.Sound.afterCalls {r : BinaryWalReader} (h : r.Sound f)
    (io : Nat → ReadIo) (n : Nat) : (r.afterCalls f io n).Sound f := by
  induction n with
  | zero => exact h
  | succ n ih =>
    rw [afterCalls_succ]
    exact (ih.step (io n)).1

/-- Reading any bytes from any offset: the calls come to an end, stay inside the
record buffer and move only over whole records, and the bytes they accept are
those that the returned transactions encode to. -/
theorem readNext_reencodes (f : File) (offset : Nat) (ho : offset ≤ f.bytes.length)
    (io : Nat → ReadIo) :
    let reader := fun n => (BinaryWalReader.opened.seek offset).afterCalls f io n
    ∃ (returned : List (UInt16 × Transaction)) (outcome : ReadResult),
      returned.length ≤ (f.bytes.length-offset)/49 ∧
      (∀ i flags tx, returned[i]? = some (flags,tx) →
        ((reader i).readNext f (io i)).1 = .ok tx ∧
        (get RecordHeader f.bytes (reader i).cursor).flags = flags) ∧
      (reader returned.length).readNext f (io returned.length) =
        (outcome,reader returned.length) ∧
      (∀ tx, outcome ≠ .ok tx) ∧
      (∀ (σ : Type) (visit : σ → Transaction → σ) (s : σ),
        (reader 0).drain f visit io s =
          ((returned.map Prod.snd).foldl visit s,outcome,reader returned.length)) ∧
      (∀ n, ∀ a ∈ (reader n).bufferAccesses f (io n), a.Within kMaxRecordSize) ∧
      (∀ n, (reader n).lastValidOffset ≤ (reader (n+1)).lastValidOffset ∧
        (reader n).lastValidOffset ≤ f.bytes.length) ∧
      (f.bytes.take (reader returned.length).lastValidOffset).drop offset =
        returned.flatMap (fun (flags,tx) => flaggedRecord flags tx) := by
  intro reader
  obtain ⟨recs,outcome,h⟩ := BinaryWalReader.exists_reads (f := f) io
    (BinaryWalReader.opened.seek offset) rfl
  have hrun : RunAt f offset recs := h.run
  have hlast : reader recs.length =
      (BinaryWalReader.opened.seek offset).skip (runBytes recs).length := by
    have hreader := h.reader recs.length (Nat.le_refl _)
    rwa [List.take_length] at hreader
  refine ⟨recs.map (fun rec => (rec.header.flags,rec.tx)),outcome,?_,?_,?_,h.notOk,?_,?_,?_,?_⟩
  · have hend := hrun.end_le ho
    have hcount := length_runBytes_ge recs
    rw [List.length_map,Nat.le_div_iff_mul_le (by decide)]
    omega
  · intro i flags tx hi
    obtain ⟨rec,hrec,heq⟩ := Option.map_eq_some_iff.mp (List.getElem?_map .. ▸ hi)
    cases heq
    have hle : i ≤ recs.length := Nat.le_of_lt (List.getElem?_eq_some_iff.mp hrec).1
    have hcursor : (reader i).cursor = offset+(runBytes (recs.take i)).length :=
      congrArg BinaryWalReader.cursor (h.reader i hle)
    exact ⟨h.record i rec hrec,by rw [hcursor,hrun.header_at hrec]⟩
  · rw [List.length_map,hlast]
    exact h.stop
  · intro σ visit s
    rw [List.length_map,hlast,List.map_map]
    exact h.drained σ visit s
  · intro n
    exact (reader n).bufferAccesses_within f (io n)
  · intro n
    have hsound : (reader n).Sound f := BinaryWalReader.Sound.afterCalls ⟨rfl,ho⟩ io n
    have hnext : reader (n+1) = ((reader n).readNext f (io n)).2 :=
      BinaryWalReader.afterCalls_succ io n _
    rw [hnext]
    exact ⟨(hsound.step (io n)).2,hsound.1 ▸ hsound.2⟩
  · have hbytes : runBytes recs = (recs.map (fun rec => (rec.header.flags,rec.tx))).flatMap
        (fun (flags,tx) => flaggedRecord flags tx) := by
      rw [runBytes,List.flatMap_map]
      exact congrArg (fun g => List.flatMap g recs) (funext WellFormedRecord.bytes_eq)
    rw [List.length_map,hlast,← hbytes]
    exact hrun.take_drop

theorem readNext_reencodes_torn :
    ∃ f : File, f.bytes = recordOf ⟨1,⟨0,1⟩,0,.empty⟩ ++ [0,0] ∧
      ∃ flags tx, (BinaryWalReader.opened.readNext f .complete).1 = .ok tx ∧
        f.bytes.take (BinaryWalReader.opened.readNext f .complete).2.lastValidOffset =
          flaggedRecord flags tx := by
  obtain ⟨f,hf⟩ : ∃ f : File, f.bytes = recordOf ⟨1,⟨0,1⟩,0,.empty⟩ ++ [0,0] :=
    ⟨⟨_,by decide⟩,rfl⟩
  have hlength : (f.bytes.length-0)/49 = 1 := by
    rw [hf]
    decide
  have hrecord : f.bytes.drop BinaryWalReader.opened.cursor =
      (WellFormedRecord.ofTransaction ⟨1,⟨0,1⟩,0,.empty⟩).bytes ++ [0,0] := hf
  have hfirst : BinaryWalReader.opened.readNext f .complete = _ :=
    BinaryWalReader.readNext_delivered rfl hrecord (ReadIo.complete_delivers _)
  obtain ⟨returned,outcome,hcount,hcalls,hstop,hne,-,-,-,hbytes⟩ :=
    readNext_reencodes f 0 (Nat.zero_le _) (fun _ => .complete)
  have hopened : BinaryWalReader.opened.seek 0 = .opened := rfl
  refine ⟨f,hf,?_⟩
  rw [hlength] at hcount
  cases returned with
  | nil =>
    simp only [List.length_nil,BinaryWalReader.afterCalls,hopened,hfirst] at hstop
    exact absurd (congrArg Prod.fst hstop).symm (hne _)
  | cons first returned =>
    cases List.length_eq_zero_iff.mp (Nat.le_zero.mp (Nat.le_of_succ_le_succ hcount))
    obtain ⟨flags,tx⟩ := first
    obtain ⟨hok,-⟩ := hcalls 0 flags tx rfl
    simp only [BinaryWalReader.afterCalls,hopened] at hok
    simp only [List.length_singleton,BinaryWalReader.afterCalls,hopened,List.drop_zero,
      List.flatMap_singleton] at hbytes
    exact ⟨flags,tx,hok,hbytes⟩

end Reencode

end FinancialLedger.Wal
