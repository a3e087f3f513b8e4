import FinancialLedger.PodBytes
import FinancialLedger.Types
import FinancialLedger.Crc32
set_option autoImplicit false

namespace FinancialLedger.Wal
open PodBytes

def kMagic : UInt32 := 0x4C454447
def kVersion : UInt16 := 1

structure RecordHeader where
  magic : UInt32
  version : UInt16
  flags : UInt16
  payloadSize : UInt32
  transactionId : UInt64
  timestampNs : Int64
  deriving DecidableEq, Repr

instance : Pod RecordHeader :=
  ofEquiv (β := UInt32 × UInt16 × UInt16 × UInt32 × UInt64 × Int64)
    ⟨fun h => (h.magic,h.version,h.flags,h.payloadSize,h.transactionId,h.timestampNs),
      fun (m,v,f,p,i,t) => ⟨m,v,f,p,i,t⟩,fun _ => rfl,fun _ => rfl⟩

def kHeaderSize : Nat := PodBytes.sizeOf RecordHeader
def kCrcSize : Nat := PodBytes.sizeOf UInt32
def kMaxPayloadSize : Nat := 512

def directionByte : Direction → UInt8
  | .debit => 0
  | .credit => 1

def putLegs : List EntryLeg → List UInt8 → List UInt8
  | [], bytes => bytes
  | leg :: legs, bytes =>
      putLegs legs (put (put (put bytes leg.accountId) (directionByte leg.direction)) leg.amount)

/-- The used part of `EncodedPayload`; its `size` is the length. -/
def encodeTransactionPayload (tx : Transaction) : Result (List UInt8) :=
  let legs := tx.legs.span
  let required := PodBytes.sizeOf UInt64*2+PodBytes.sizeOf UInt8+
    legs.length*(PodBytes.sizeOf AccountId+1+PodBytes.sizeOf Amount)
  if required > kMaxPayloadSize then .error .walPayloadTooLarge
  else
    .ok (putLegs legs (put (put (put [] tx.idempotencyKey.high) tx.idempotencyKey.low)
      (UInt8.ofNat legs.length)))

def getLegs (payload : List UInt8) : Nat → Nat → LegList → Result LegList
  | 0, _, legs => .ok legs
  | n+1, offset, legs =>
      let accountId := get AccountId payload offset
      let dirByte := get UInt8 payload (offset+PodBytes.sizeOf AccountId)
      let amount := get Amount payload (offset+PodBytes.sizeOf AccountId+PodBytes.sizeOf UInt8)
      if dirByte > 1 then .error .walCorruptRecord
      else
        match legs.pushBack ⟨accountId,if dirByte = 0 then .debit else .credit,amount⟩ with
        | none => .error .walCorruptRecord
        | some legs' => getLegs payload n
            (offset+PodBytes.sizeOf AccountId+PodBytes.sizeOf UInt8+PodBytes.sizeOf Amount) legs'

def kMinSize : Nat := PodBytes.sizeOf UInt64*2+PodBytes.sizeOf UInt8

def decodeTransactionPayload (payload : List UInt8) (id : TransactionId) (timestampNs : Int64) :
    Result Transaction :=
  if payload.length < kMinSize then .error .walCorruptRecord
  else
    let high := get UInt64 payload 0
    let low := get UInt64 payload (PodBytes.sizeOf UInt64)
    let legCount := get UInt8 payload (PodBytes.sizeOf UInt64*2)
    if kMaxLegsPerTransaction < legCount.toNat then .error .walCorruptRecord
    else if payload.length ≠
        kMinSize+legCount.toNat*(PodBytes.sizeOf AccountId+1+PodBytes.sizeOf Amount) then
      .error .walCorruptRecord
    else
      match getLegs payload legCount.toNat kMinSize .empty with
      | .error e => .error e
      | .ok legs => .ok ⟨id,⟨high,low⟩,timestampNs,legs⟩

def recordBytes (header : RecordHeader) (payload : List UInt8) : List UInt8 :=
  let covered := Pod.toBytes header ++ payload
  covered ++ Pod.toBytes (Crc32.compute covered)

/-- A record that passes every check of the format; the checksum is part of its
bytes. -/
structure WellFormedRecord where
  header : RecordHeader
  payload : List UInt8
  tx : Transaction
  magic : header.magic = kMagic
  version : header.version = kVersion
  sized : header.payloadSize.toNat = payload.length
  small : payload.length ≤ kMaxPayloadSize
  decodes : decodeTransactionPayload payload header.transactionId header.timestampNs = .ok tx

def WellFormedRecord.bytes (rec : WellFormedRecord) : List UInt8 :=
  recordBytes rec.header rec.payload

theorem WellFormedRecord.bytes_length (rec : WellFormedRecord) :
    rec.bytes.length = kHeaderSize+(rec.payload.length+kCrcSize) := by
  simp only [bytes,recordBytes,List.length_append,Pod.length_toBytes,Nat.add_assoc]
  rfl

def runBytes (recs : List WellFormedRecord) : List UInt8 := recs.flatMap WellFormedRecord.bytes

@[simp] theorem runBytes_nil : runBytes [] = [] := rfl

@[simp] theorem runBytes_cons (rec : WellFormedRecord) (recs : List WellFormedRecord) :
    runBytes (rec :: recs) = rec.bytes ++ runBytes recs := List.flatMap_cons ..

@[simp] theorem runBytes_append (recs recs' : List WellFormedRecord) :
    runBytes (recs ++ recs') = runBytes recs ++ runBytes recs' := List.flatMap_append ..

def legBytes (leg : EntryLeg) : List UInt8 :=
  Pod.toBytes leg.accountId ++ (Pod.toBytes (directionByte leg.direction) ++ Pod.toBytes leg.amount)

def payloadBytes (tx : Transaction) : List UInt8 :=
  Pod.toBytes tx.idempotencyKey.high ++ (Pod.toBytes tx.idempotencyKey.low ++
    (Pod.toBytes (UInt8.ofNat tx.legs.span.length) ++ tx.legs.span.flatMap legBytes))

theorem putLegs_eq (legs : List EntryLeg) (bytes : List UInt8) :
    putLegs legs bytes = bytes ++ legs.flatMap legBytes := by
  induction legs generalizing bytes with
  | nil => simp [putLegs]
  | cons leg legs ih => simp [putLegs,ih,put,legBytes]

theorem encodeTransactionPayload_eq (tx : Transaction) :
    encodeTransactionPayload tx = .ok (payloadBytes tx) := by
  have hb := tx.legs.bound
  have hr : ¬ PodBytes.sizeOf UInt64*2+PodBytes.sizeOf UInt8+
      tx.legs.span.length*(PodBytes.sizeOf AccountId+1+PodBytes.sizeOf Amount) >
        kMaxPayloadSize := by
    show ¬ 8*2+1+tx.legs.span.length*(8+1+8) > 512
    simp only [kMaxLegsPerTransaction] at hb
    omega
  simp only [encodeTransactionPayload,if_neg hr,putLegs_eq]
  simp [put,payloadBytes]

theorem legBytes_length (leg : EntryLeg) : (legBytes leg).length = 17 := by
  simp only [legBytes,List.length_append,Pod.length_toBytes]
  rfl

theorem flatMap_legBytes_length (legs : List EntryLeg) :
    (legs.flatMap legBytes).length = legs.length*17 := by
  induction legs with
  | nil => rfl
  | cons leg legs ih =>
    simp only [List.flatMap_cons,List.length_append,legBytes_length,ih,List.length_cons]
    omega

theorem payloadBytes_length (tx : Transaction) :
    (payloadBytes tx).length = kMinSize+tx.legs.span.length*17 := by
  simp only [payloadBytes,List.length_append,Pod.length_toBytes,flatMap_legBytes_length]
  show 8+(8+(1+_)) = 8*2+1+_
  omega

theorem payloadBytes_length_le (tx : Transaction) : (payloadBytes tx).length ≤ kMaxPayloadSize := by
  have hb := tx.legs.bound
  rw [payloadBytes_length]
  show 8*2+1+tx.legs.span.length*17 ≤ 512
  simp only [kMaxLegsPerTransaction] at hb
  omega

theorem getLegs_flatMap (legs : List EntryLeg) (before : List UInt8) (acc : LegList)
    (hb : acc.span.length+legs.length ≤ kMaxLegsPerTransaction) :
    ∃ l, getLegs (before ++ legs.flatMap legBytes) legs.length before.length acc = .ok l ∧
      l.span = acc.span ++ legs := by
  induction legs generalizing before acc with
  | nil => exact ⟨acc,rfl,by simp⟩
  | cons leg legs ih =>
    have hl : acc.span.length+(legs.length+1) ≤ kMaxLegsPerTransaction := hb
    have hlen := legBytes_length leg
    have hsplit : before ++ (leg :: legs).flatMap legBytes =
        (before ++ legBytes leg) ++ legs.flatMap legBytes := by simp
    have hid : get AccountId (before ++ (leg :: legs).flatMap legBytes) before.length =
        leg.accountId := by
      simp only [List.flatMap_cons,legBytes,List.append_assoc]
      exact get_append before _ leg.accountId _ rfl
    have hdir : get UInt8 (before ++ (leg :: legs).flatMap legBytes)
        (before.length+PodBytes.sizeOf AccountId) = directionByte leg.direction := by
      simp only [List.flatMap_cons,legBytes,List.append_assoc]
      rw [← List.append_assoc]
      exact get_append _ _ _ _ (by simp [PodBytes.sizeOf])
    have hamount : get Amount (before ++ (leg :: legs).flatMap legBytes)
        (before.length+PodBytes.sizeOf AccountId+PodBytes.sizeOf UInt8) = leg.amount := by
      simp only [List.flatMap_cons,legBytes,List.append_assoc]
      rw [← List.append_assoc,← List.append_assoc]
      exact get_append _ _ _ _ (by simp [PodBytes.sizeOf,Nat.add_assoc])
    have hpush : acc.pushBack leg = some ⟨acc.span ++ [leg],by
        simp only [List.length_append,List.length_singleton]; omega⟩ := by
      rw [LegList.pushBack,dif_neg (by omega)]
    have hleg : (⟨leg.accountId,if directionByte leg.direction = 0 then .debit else .credit,
        leg.amount⟩ : EntryLeg) = leg := by
      cases leg with
      | mk id dir amount => cases dir <;> rfl
    have hnot : ¬ directionByte leg.direction > 1 := by
      cases leg.direction <;> decide
    have hoff : before.length+PodBytes.sizeOf AccountId+PodBytes.sizeOf UInt8+
        PodBytes.sizeOf Amount = (before ++ legBytes leg).length := by
      rw [List.length_append,hlen]
      rfl
    obtain ⟨l,hg,hs⟩ := ih (before ++ legBytes leg) ⟨acc.span ++ [leg],by
      simp only [List.length_append,List.length_singleton]; omega⟩ (by
        simp only [List.length_append,List.length_singleton]; omega)
    refine ⟨l,?_,by rw [hs]; simp⟩
    simp only [List.length_cons,getLegs,hid,hdir,hamount,if_neg hnot,hleg,hpush,hoff]
    rw [hsplit]
    exact hg

theorem decodeTransactionPayload_payloadBytes (tx : Transaction) (id : TransactionId)
    (now : Int64) :
    decodeTransactionPayload (payloadBytes tx) id now =
      .ok { tx with id := id, createdAtNs := now } := by
  have hb := tx.legs.bound
  have hlen := payloadBytes_length tx
  have hhigh : get UInt64 (payloadBytes tx) 0 = tx.idempotencyKey.high :=
    get_append [] _ _ 0 rfl
  have hlow : get UInt64 (payloadBytes tx) (PodBytes.sizeOf UInt64) = tx.idempotencyKey.low :=
    get_append _ _ _ _ (Pod.length_toBytes _)
  have hcount : get UInt8 (payloadBytes tx) (PodBytes.sizeOf UInt64*2) =
      UInt8.ofNat tx.legs.span.length := by
    rw [payloadBytes,← List.append_assoc]
    exact get_append _ _ _ _ (by simp [PodBytes.sizeOf]; omega)
  have hnat : (UInt8.ofNat tx.legs.span.length).toNat = tx.legs.span.length := by
    simp only [UInt8.toNat_ofNat',kMaxLegsPerTransaction] at *
    omega
  have hlegs : ∃ l, getLegs (payloadBytes tx) tx.legs.span.length kMinSize .empty = .ok l ∧
      l.span = tx.legs.span := by
    have hh : (Pod.toBytes tx.idempotencyKey.high ++ (Pod.toBytes tx.idempotencyKey.low ++
        Pod.toBytes (UInt8.ofNat tx.legs.span.length))).length = kMinSize := by
      simp only [List.length_append,Pod.length_toBytes]
      rfl
    have := getLegs_flatMap tx.legs.span (Pod.toBytes tx.idempotencyKey.high ++
      (Pod.toBytes tx.idempotencyKey.low ++
        Pod.toBytes (UInt8.ofNat tx.legs.span.length))) .empty (by simpa [LegList.empty] using hb)
    rw [hh] at this
    simpa [payloadBytes,LegList.empty] using this
  obtain ⟨l,hg,hs⟩ := hlegs
  have hsize : ¬ (payloadBytes tx).length ≠
      kMinSize+tx.legs.span.length*(PodBytes.sizeOf AccountId+1+PodBytes.sizeOf Amount) :=
    not_not.mpr hlen
  rw [decodeTransactionPayload,if_neg (by omega)]
  simp only [hhigh,hlow,hcount,hnat,if_neg (Nat.not_lt.mpr hb),if_neg hsize,hg]
  rw [LegList.ext_span hs]

theorem directionByte_of_le {b : UInt8} (h : ¬ b > 1) :
    directionByte (if b = 0 then .debit else .credit) = b := by
  have hb : b.toNat ≤ 1 := UInt8.not_lt.mp h
  by_cases h0 : b = 0
  · rw [if_pos h0,h0]
    rfl
  · rw [if_neg h0]
    have : b.toNat ≠ 0 := fun h => h0 (UInt8.toNat_inj.mp h)
    exact UInt8.toNat_inj.mp (show 1 = b.toNat by omega)

/-- The leg that one round of `getLegs` reads. -/
def legAt (payload : List UInt8) (offset : Nat) : EntryLeg :=
  ⟨get AccountId payload offset,
    if get UInt8 payload (offset+PodBytes.sizeOf AccountId) = 0 then .debit else .credit,
    get Amount payload (offset+PodBytes.sizeOf AccountId+PodBytes.sizeOf UInt8)⟩

theorem legBytes_legAt {payload : List UInt8} {offset : Nat} (hlen : offset+17 ≤ payload.length)
    (hdir : ¬ get UInt8 payload (offset+PodBytes.sizeOf AccountId) > 1) :
    legBytes (legAt payload offset) = (payload.drop offset).take 17 := by
  have hid : PodBytes.sizeOf AccountId = 8 := rfl
  have hbyte : PodBytes.sizeOf UInt8 = 1 := rfl
  have hamount : PodBytes.sizeOf Amount = 8 := rfl
  simp only [legBytes,legAt,directionByte_of_le hdir]
  rw [toBytes_get (by omega),toBytes_get (by omega),toBytes_get (by omega),hid,hbyte,hamount]
  rw [show (17 : Nat) = 8+(1+8) from rfl,List.take_add,List.take_add,List.drop_drop,
    List.drop_drop]

theorem getLegs_ok {payload : List UInt8} {n offset : Nat} {acc l : LegList}
    (hlen : offset+n*17 ≤ payload.length) (h : getLegs payload n offset acc = .ok l) :
    ∃ legs, l.span = acc.span ++ legs ∧ legs.length = n ∧
      legs.flatMap legBytes = (payload.drop offset).take (n*17) := by
  induction n generalizing offset acc with
  | zero =>
    cases h
    exact ⟨[],by simp⟩
  | succ n ih =>
    simp only [getLegs] at h
    split at h
    · cases h
    · case isFalse hdir =>
      split at h
      · cases h
      · case h_2 acc' hpush =>
        have hnext : offset+8+1+8+n*17 ≤ payload.length := by omega
        obtain ⟨legs,hspan,hcount,hbytes⟩ := ih hnext h
        refine ⟨legAt payload offset :: legs,?_,by rw [List.length_cons,hcount],?_⟩
        · rw [hspan,LegList.pushBack_span hpush,List.append_assoc]
          rfl
        · rw [List.flatMap_cons,legBytes_legAt (by omega) hdir,hbytes,
            show (n+1)*17 = 17+n*17 by omega,List.take_add,List.drop_drop]

theorem getLegs_error {payload : List UInt8} {n offset : Nat} {acc : LegList} {e : LedgerError}
    (h : getLegs payload n offset acc = .error e) : e = .walCorruptRecord := by
  induction n generalizing offset acc with
  | zero => cases h
  | succ n ih =>
    simp only [getLegs] at h
    split at h
    · exact (Except.error.inj h).symm
    · split at h
      · exact (Except.error.inj h).symm
      · exact ih h

theorem decodeTransactionPayload_error {payload : List UInt8} {id : TransactionId} {now : Int64}
    {e : LedgerError} (h : decodeTransactionPayload payload id now = .error e) :
    e = .walCorruptRecord := by
  simp only [decodeTransactionPayload] at h
  repeat (split at h; exact (Except.error.inj h).symm)
  split at h
  · case h_1 hlegs =>
    cases h
    exact getLegs_error hlegs
  · cases h

theorem decodeTransactionPayload_ok {payload : List UInt8} {id : TransactionId} {now : Int64}
    {tx : Transaction} (h : decodeTransactionPayload payload id now = .ok tx) :
    tx.id = id ∧ tx.createdAtNs = now ∧ payload = payloadBytes tx := by
  simp only [decodeTransactionPayload] at h
  split at h
  · cases h
  · split at h
    · cases h
    · case isFalse hmax =>
      split at h
      · cases h
      · case isFalse hsize =>
        split at h
        · cases h
        · case h_2 legs hlegs =>
          cases h
          refine ⟨rfl,rfl,?_⟩
          have hlen : payload.length =
              17+(get UInt8 payload (PodBytes.sizeOf UInt64*2)).toNat*17 := not_not.mp hsize
          have hword : PodBytes.sizeOf UInt64 = 8 := rfl
          have hbyte : PodBytes.sizeOf UInt8 = 1 := rfl
          obtain ⟨read,hspan,hcount,hbytes⟩ := getLegs_ok (Nat.le_of_eq hlen.symm) hlegs
          have hread : legs.span = read := by rw [hspan]; rfl
          simp only [payloadBytes,hread,hcount,hbytes,UInt8.ofNat_toNat]
          rw [toBytes_get (by omega),toBytes_get (by omega),toBytes_get (by omega)]
          generalize (get UInt8 payload (PodBytes.sizeOf UInt64*2)).toNat = n at hlen ⊢
          calc payload = payload.take (8+(8+(1+n*17))) :=
                (List.take_of_length_le (by omega)).symm
            _ = _ := by
                simp only [List.take_add,List.drop_drop,List.drop_zero]
                rfl

theorem WellFormedRecord.payload_eq (rec : WellFormedRecord) :
    rec.payload = payloadBytes rec.tx :=
  (decodeTransactionPayload_ok rec.decodes).2.2

theorem WellFormedRecord.payload_length (rec : WellFormedRecord) :
    rec.payload.length = kMinSize+rec.tx.legs.span.length*17 := by
  rw [rec.payload_eq,payloadBytes_length]

/-- Encoding never fails and decoding undoes it; a string of bytes that is
accepted is the encoding of the transaction returned, and the others are
corrupt records. -/
theorem transactionPayload_bijective :
    (∀ tx id now, ∃ payload, encodeTransactionPayload tx = .ok payload ∧
      decodeTransactionPayload payload id now = .ok { tx with id := id, createdAtNs := now }) ∧
    ∀ payload id now,
      (∃ tx, decodeTransactionPayload payload id now = .ok tx ∧ tx.id = id ∧
        tx.createdAtNs = now ∧ encodeTransactionPayload tx = .ok payload) ∨
      decodeTransactionPayload payload id now = .error .walCorruptRecord ∧
        ∀ tx, encodeTransactionPayload tx ≠ .ok payload := by
  constructor
  · intro tx id now
    exact ⟨payloadBytes tx,encodeTransactionPayload_eq tx,
      decodeTransactionPayload_payloadBytes tx id now⟩
  · intro payload id now
    cases h : decodeTransactionPayload payload id now with
    | ok tx =>
      obtain ⟨hid,hnow,hpayload⟩ := decodeTransactionPayload_ok h
      refine .inl ⟨tx,rfl,hid,hnow,?_⟩
      rw [hpayload]
      exact encodeTransactionPayload_eq tx
    | error e =>
      refine .inr ⟨congrArg _ (decodeTransactionPayload_error h),fun tx htx => ?_⟩
      rw [encodeTransactionPayload_eq] at htx
      rw [← Except.ok.inj htx,decodeTransactionPayload_payloadBytes] at h
      cases h

end FinancialLedger.Wal
