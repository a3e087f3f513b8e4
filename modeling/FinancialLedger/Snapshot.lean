import FinancialLedger.PosixFile
import FinancialLedger.PodBytes
import FinancialLedger.Crc32
import FinancialLedger.LedgerState
set_option autoImplicit false

namespace FinancialLedger.Snapshot
open PodBytes PosixFile

def kMagic : UInt32 := 0x534E4150
def kVersion : UInt16 := 1

/-- The struct is not packed: four bytes the program never sets stand between
the count and the first 64-bit field. -/
structure SnapshotHeader where
  magic : UInt32
  version : UInt16
  reserved : UInt16
  accountCount : UInt32
  padding : UInt32
  lastAppliedTxId : UInt64
  walOffset : UInt64
  deriving DecidableEq, Repr

instance : Pod SnapshotHeader :=
  ofEquiv (β := UInt32 × UInt16 × UInt16 × UInt32 × UInt32 × UInt64 × UInt64)
    ⟨fun h => (h.magic,h.version,h.reserved,h.accountCount,h.padding,h.lastAppliedTxId,h.walOffset),
      fun (m,v,r,c,p,l,w) => ⟨m,v,r,c,p,l,w⟩,fun _ => rfl,fun _ => rfl⟩

structure AccountRecord where
  id : AccountId
  type : UInt8
  balance : Amount
  overdraftLimit : Amount
  deriving DecidableEq, Repr

instance : Pod AccountRecord :=
  ofEquiv (β := AccountId × UInt8 × Amount × Amount)
    ⟨fun r => (r.id,r.type,r.balance,r.overdraftLimit),
      fun (i,t,b,o) => ⟨i,t,b,o⟩,fun _ => rfl,fun _ => rfl⟩

def AccountRecord.ofAccount (a : Account) : AccountRecord :=
  ⟨a.id,a.type.toByte,a.balance,a.overdraftLimit⟩

def AccountRecord.toAccount (r : AccountRecord) : Account :=
  ⟨r.id,AccountType.ofByte r.type,r.balance,r.overdraftLimit⟩

@[simp] theorem AccountRecord.toAccount_ofAccount (a : Account) :
    (AccountRecord.ofAccount a).toAccount = a := by
  simp [ofAccount,toAccount]

/-- The accounts in the order in which the map happens to iterate. -/
structure Iteration (s : LedgerState) where
  accounts : List Account
  complete : (accounts.map (fun a => (⟨a.id,a⟩ : Sigma (fun _ : AccountId => Account))) :
    Multiset (Sigma (fun _ : AccountId => Account))) = s.accounts.entries

/-- What the kernel and the stack hold ready for one `write_snapshot`. -/
structure WriteIo where
  opens : Bool
  buffer : WriteOutcome
  crc : WriteOutcome
  fsync : Bool
  rename : Bool
  padding : UInt32
  deriving DecidableEq, Repr

def headerFor (s : LedgerState) (it : Iteration s) (walOffset : UInt64) (padding : UInt32) :
    SnapshotHeader :=
  ⟨kMagic,kVersion,0,UInt32.ofNat it.accounts.length,padding,s.lastAppliedId,walOffset⟩

def snapshotBuffer (s : LedgerState) (it : Iteration s) (walOffset : UInt64) (padding : UInt32) :
    List UInt8 :=
  Pod.toBytes (headerFor s it walOffset padding) ++
    it.accounts.flatMap (fun a => Pod.toBytes (AccountRecord.ofAccount a))

/-- The answer and the file visible at `path` afterwards; before the rename all
bytes go to the temporary file. -/
def writeSnapshot (s : LedgerState) (it : Iteration s) (walOffset : UInt64) (io : WriteIo)
    (visible : Option File) : Result Unit × Option File :=
  if io.opens = false then (.error .snapshotOpenFailed,visible)
  else
    let buffer := snapshotBuffer s it walOffset io.padding
    let crc := Pod.toBytes (Crc32.compute buffer)
    let first := File.empty.write buffer io.buffer
    if first.1 ≠ some buffer.length then (.error .snapshotWriteFailed,visible)
    else
      let second := first.2.write crc io.crc
      if second.1 ≠ some crc.length then (.error .snapshotWriteFailed,visible)
      else if io.fsync = false then (.error .snapshotWriteFailed,visible)
      else if io.rename = false then (.error .snapshotWriteFailed,visible)
      else (.ok (),some second.2)

structure LoadedSnapshot where
  state : LedgerState
  walOffset : UInt64

structure LoadIo where
  header : ReadOutcome
  records : ReadOutcome
  crc : ReadOutcome
  deriving DecidableEq, Repr

def LoadIo.complete : LoadIo := ⟨.complete,.complete,.complete⟩

def kHeaderSize : Nat := PodBytes.sizeOf SnapshotHeader
def kRecordSize : Nat := PodBytes.sizeOf AccountRecord

def addRecords (records : List UInt8) : Nat → Nat → LedgerState → LedgerState
  | 0, _, s => s
  | n+1, i, s =>
      addRecords records n (i+1)
        (s.addAccount (get AccountRecord records (i*kRecordSize)).toAccount).2

def loadRecords (f : File) (header : SnapshotHeader) (io : LoadIo) : Result LoadedSnapshot :=
  let recordsSize := header.accountCount.toNat*kRecordSize
  match (if 0 < recordsSize then f.pread recordsSize kHeaderSize io.records else some []) with
  | none => .error .snapshotCorrupt
  | some records =>
      if records.length ≠ recordsSize then .error .snapshotCorrupt
      else
        match f.pread (PodBytes.sizeOf UInt32) (kHeaderSize+recordsSize) io.crc with
        | none => .error .snapshotCorrupt
        | some crc =>
            if crc.length ≠ PodBytes.sizeOf UInt32 then .error .snapshotCorrupt
            else if Crc32.compute (Pod.toBytes header ++ records) ≠ get UInt32 crc 0 then
              .error .snapshotCorrupt
            else .ok ⟨addRecords records header.accountCount.toNat 0
              { LedgerState.empty with lastAppliedId := header.lastAppliedTxId },header.walOffset⟩

def loadSnapshot (file : Option File) (io : LoadIo) : Result LoadedSnapshot :=
  match file with
  | none => .error .snapshotReadFailed
  | some f =>
      match f.pread kHeaderSize 0 io.header with
      | none => .error .snapshotCorrupt
      | some bytes =>
          if bytes.length ≠ kHeaderSize then .error .snapshotCorrupt
          else
            let header := get SnapshotHeader bytes 0
            if header.magic ≠ kMagic ∨ header.version ≠ kVersion then .error .snapshotCorrupt
            else loadRecords f header io

/-- A snapshot that was written without an error. -/
def Written (s : LedgerState) (walOffset : UInt64) (f : File) : Prop :=
  ∃ (it : Iteration s) (io : WriteIo) (visible : Option File),
    writeSnapshot s it walOffset io visible = (.ok (),some f)

theorem kRecordSize_eq : kRecordSize = 25 := rfl
theorem crcSize_eq : PodBytes.sizeOf UInt32 = 4 := rfl

section Accepted

def headerAt (bytes : List UInt8) : SnapshotHeader := get SnapshotHeader bytes 0

def recordsSize (bytes : List UInt8) : Nat := (headerAt bytes).accountCount.toNat*kRecordSize

def coveredSize (bytes : List UInt8) : Nat := kHeaderSize+recordsSize bytes

/-- The checks of `load_snapshot`, on the bytes of the file. Nothing is asked
about the bytes behind the checksum. -/
def Accepted (bytes : List UInt8) : Prop :=
  (headerAt bytes).magic = kMagic ∧ (headerAt bytes).version = kVersion ∧
    coveredSize bytes+PodBytes.sizeOf UInt32 ≤ bytes.length ∧
    Crc32.compute (bytes.take (coveredSize bytes)) = get UInt32 bytes (coveredSize bytes)

instance (bytes : List UInt8) : Decidable (Accepted bytes) :=
  inferInstanceAs (Decidable (_ ∧ _ ∧ _ ∧ _))

def loaded (bytes : List UInt8) : LoadedSnapshot :=
  ⟨addRecords ((bytes.drop kHeaderSize).take (recordsSize bytes))
      (headerAt bytes).accountCount.toNat 0
      { LedgerState.empty with lastAppliedId := (headerAt bytes).lastAppliedTxId },
    (headerAt bytes).walOffset⟩

def loadBytes (bytes : List UInt8) : Result LoadedSnapshot :=
  if Accepted bytes then .ok (loaded bytes) else .error .snapshotCorrupt

def LoadIo.Delivers (io : LoadIo) (bytes : List UInt8) : Prop :=
  io.header.Gives kHeaderSize ∧ io.records.Gives (recordsSize bytes) ∧
    io.crc.Gives (PodBytes.sizeOf UInt32)

theorem LoadIo.complete_delivers {bytes : List UInt8} (h : recordsSize bytes ≤ maxRwCount) :
    LoadIo.complete.Delivers bytes :=
  ⟨ReadOutcome.complete_gives (by decide),ReadOutcome.complete_gives h,
    ReadOutcome.complete_gives (by decide)⟩

variable {f : File} {io : LoadIo}

theorem toBytes_headerAt {bytes : List UInt8} (h : kHeaderSize ≤ bytes.length) :
    Pod.toBytes (headerAt bytes) = bytes.take kHeaderSize := by
  rw [headerAt,toBytes_get (Nat.le_trans (Nat.le_of_eq (Nat.zero_add _)) h),List.drop_zero]
  rfl

theorem take_coveredSize {bytes : List UInt8} (h : kHeaderSize ≤ bytes.length) :
    bytes.take (coveredSize bytes) =
      Pod.toBytes (headerAt bytes) ++ (bytes.drop kHeaderSize).take (recordsSize bytes) := by
  rw [toBytes_headerAt h,coveredSize,List.take_add]

theorem loadRecords_ok {l : LoadedSnapshot} (hlen : kHeaderSize ≤ f.bytes.length)
    (h : loadRecords f (headerAt f.bytes) io = .ok l) :
    coveredSize f.bytes+PodBytes.sizeOf UInt32 ≤ f.bytes.length ∧
      Crc32.compute (f.bytes.take (coveredSize f.bytes)) =
        get UInt32 f.bytes (coveredSize f.bytes) ∧ l = loaded f.bytes := by
  simp only [loadRecords] at h
  split at h
  · cases h
  case h_2 records hrecords =>
  split at h
  · cases h
  case isFalse hsize =>
  split at h
  · cases h
  case h_2 crc hcrc =>
  split at h
  · cases h
  case isFalse hfour =>
  split at h
  · cases h
  case isFalse hsum =>
  have hsize : records.length = recordsSize f.bytes := not_not.mp hsize
  have hread : records = (f.bytes.drop kHeaderSize).take (recordsSize f.bytes) := by
    split at hrecords
    · exact (File.pread_full hrecords (Nat.le_of_eq hsize.symm)).2
    · case isFalse hzero =>
      have hzero : recordsSize f.bytes = 0 := Nat.eq_zero_of_not_pos hzero
      rw [List.eq_nil_of_length_eq_zero (hsize.trans hzero),hzero,List.take_zero]
  have hstored : crc = (f.bytes.drop (coveredSize f.bytes)).take (PodBytes.sizeOf UInt32) :=
    (File.pread_full hcrc (Nat.le_of_eq (not_not.mp hfour).symm)).2
  have hroom := congrArg List.length hstored
  rw [not_not.mp hfour,List.length_take,List.length_drop,crcSize_eq] at hroom
  refine ⟨by rw [crcSize_eq]; omega,?_,?_⟩
  · rw [take_coveredSize hlen,← hread,not_not.mp hsum,hstored,get_copy]
  · rw [loaded,← hread]
    exact (Except.ok.inj h).symm

theorem loadSnapshot_ok {l : LoadedSnapshot} (h : loadSnapshot (some f) io = .ok l) :
    Accepted f.bytes ∧ l = loaded f.bytes := by
  simp only [loadSnapshot] at h
  split at h
  · cases h
  case h_2 bytes hread =>
  split at h
  · cases h
  case isFalse hsize =>
  split at h
  · cases h
  case isFalse hform =>
  have hsize : bytes.length = kHeaderSize := not_not.mp hsize
  have hbytes := (File.pread_full hread (Nat.le_of_eq hsize.symm)).2
  have hheader : get SnapshotHeader bytes 0 = headerAt f.bytes := by
    rw [hbytes]
    exact get_copy SnapshotHeader f.bytes 0
  have hlen : kHeaderSize ≤ f.bytes.length := by
    rw [hbytes,List.length_take,List.drop_zero] at hsize
    omega
  rw [hheader] at h hform
  rw [not_or,not_not,not_not] at hform
  obtain ⟨hroom,hsum,hl⟩ := loadRecords_ok hlen h
  exact ⟨⟨hform.1,hform.2,hroom,hsum⟩,hl⟩

theorem loadSnapshot_error {e : LedgerError} (h : loadSnapshot (some f) io = .error e) :
    e = .snapshotCorrupt := by
  simp only [loadSnapshot] at h
  split at h
  · exact (Except.error.inj h).symm
  split at h
  · exact (Except.error.inj h).symm
  split at h
  · exact (Except.error.inj h).symm
  simp only [loadRecords] at h
  split at h
  · exact (Except.error.inj h).symm
  split at h
  · exact (Except.error.inj h).symm
  split at h
  · exact (Except.error.inj h).symm
  split at h
  · exact (Except.error.inj h).symm
  split at h
  · exact (Except.error.inj h).symm
  · cases h

theorem loadSnapshot_of_not_accepted (h : ¬ Accepted f.bytes) :
    loadSnapshot (some f) io = .error .snapshotCorrupt := by
  cases hl : loadSnapshot (some f) io with
  | ok l => exact absurd (loadSnapshot_ok hl).1 h
  | error e => rw [loadSnapshot_error hl]

theorem loadSnapshot_of_accepted (h : Accepted f.bytes) (hio : io.Delivers f.bytes) :
    loadSnapshot (some f) io = .ok (loaded f.bytes) := by
  obtain ⟨hmagic,hversion,hroom,hsum⟩ := h
  obtain ⟨hheader,hrecords,hcrc⟩ := hio
  have hfits := f.fits
  have hsize : coveredSize f.bytes = kHeaderSize+recordsSize f.bytes := rfl
  have hlen : kHeaderSize ≤ f.bytes.length := by omega
  have hread : (if 0 < recordsSize f.bytes then
      f.pread (recordsSize f.bytes) kHeaderSize io.records else some []) =
        some ((f.bytes.drop kHeaderSize).take (recordsSize f.bytes)) := by
    split
    · exact f.pread_gives hrecords _ (by omega)
    · case isFalse hzero =>
      rw [Nat.eq_zero_of_not_pos hzero,List.take_zero]
  have htaken : ((f.bytes.drop kHeaderSize).take (recordsSize f.bytes)).length =
      recordsSize f.bytes := by
    rw [List.length_take,List.length_drop]
    omega
  have hstored : ((f.bytes.drop (coveredSize f.bytes)).take (PodBytes.sizeOf UInt32)).length =
      PodBytes.sizeOf UInt32 := by
    rw [List.length_take,List.length_drop]
    omega
  have hget : get SnapshotHeader ((f.bytes.drop 0).take kHeaderSize) 0 = headerAt f.bytes :=
    get_copy SnapshotHeader f.bytes 0
  have hload : loadRecords f (headerAt f.bytes) io = .ok (loaded f.bytes) := by
    have hcount : (headerAt f.bytes).accountCount.toNat*kRecordSize = recordsSize f.bytes := rfl
    have hpread : f.pread (PodBytes.sizeOf UInt32) (kHeaderSize+recordsSize f.bytes) io.crc =
        some ((f.bytes.drop (coveredSize f.bytes)).take (PodBytes.sizeOf UInt32)) :=
      f.pread_gives hcrc _ (by omega)
    simp only [loadRecords,hcount,hread,hpread]
    rw [if_neg (not_not.mpr htaken),if_neg (not_not.mpr hstored),← take_coveredSize hlen,hsum,
      get_copy,if_neg (not_not.mpr rfl)]
    rfl
  have hpread := f.pread_gives hheader 0 (by omega)
  have hwhole : ((f.bytes.drop 0).take kHeaderSize).length = kHeaderSize := by
    rw [List.length_take,List.drop_zero]
    omega
  simp only [loadSnapshot,hpread,hget]
  rw [if_neg (not_not.mpr hwhole),if_neg (by simp [hmagic,hversion])]
  exact hload

theorem loadSnapshot_eq_loadBytes (hio : io.Delivers f.bytes) :
    loadSnapshot (some f) io = loadBytes f.bytes := by
  unfold loadBytes
  split
  · case isTrue h => exact loadSnapshot_of_accepted h hio
  · case isFalse h => exact loadSnapshot_of_not_accepted h

end Accepted

section RoundTrip

theorem flatMap_record_length (accounts : List Account) :
    (accounts.flatMap (fun a => Pod.toBytes (AccountRecord.ofAccount a))).length =
      accounts.length*kRecordSize := by
  induction accounts with
  | nil => simp
  | cons a accounts ih =>
    rw [List.flatMap_cons,List.length_append,ih,Pod.length_toBytes,List.length_cons]
    show kRecordSize+_ = _
    rw [Nat.succ_mul]
    omega

theorem Iteration.find?_eq {s : LedgerState} (it : Iteration s) (id : AccountId) :
    it.accounts.find? (fun a => a.id = id) = s.findAccount id := by
  have hmem : ∀ a, a ∈ it.accounts ↔ s.findAccount a.id = some a := by
    intro a
    have hl : (⟨a.id,a⟩ : Sigma (fun _ : AccountId => Account)) ∈ s.accounts.entries ↔
        s.findAccount a.id = some a := by
      rw [← Finmap.mem_lookup_iff]
      rfl
    rw [← hl,← it.complete,Multiset.mem_coe,List.mem_map]
    constructor
    · intro h
      exact ⟨a,h,rfl⟩
    · intro ⟨b,hb,he⟩
      obtain ⟨-,hba⟩ := Sigma.mk.inj he
      exact eq_of_heq hba ▸ hb
  cases hf : it.accounts.find? (fun a => a.id = id) with
  | some a =>
    have hid : a.id = id := by simpa using List.find?_some hf
    rw [← hid]
    exact ((hmem a).mp (List.mem_of_find?_eq_some hf)).symm
  | none =>
    cases hs : s.findAccount id with
    | none => rfl
    | some a =>
      have hid : a.id = id := s.keyed id a hs
      have hin : a ∈ it.accounts := (hmem a).mpr (by rw [hid]; exact hs)
      have := List.find?_eq_none.mp hf a hin
      simp [hid] at this

theorem Iteration.rebuild {s : LedgerState} (it : Iteration s) :
    it.accounts.foldl (fun t a => (t.addAccount a).2)
      { LedgerState.empty with lastAppliedId := s.lastAppliedId } = s := by
  apply LedgerState.ext_find
  · intro id
    rw [LedgerState.findAccount_foldl_addAccount,it.find?_eq]
    simp [LedgerState.findAccount,LedgerState.empty]
  · rw [LedgerState.foldl_addAccount_lastAppliedId]

theorem addRecords_flatMap (accounts before : List Account) (s : LedgerState) :
    addRecords ((before ++ accounts).flatMap (fun a => Pod.toBytes (AccountRecord.ofAccount a)))
      accounts.length before.length s = accounts.foldl (fun t a => (t.addAccount a).2) s := by
  induction accounts generalizing before s with
  | nil => rfl
  | cons a accounts ih =>
    have hget : get AccountRecord ((before ++ a :: accounts).flatMap
        (fun a => Pod.toBytes (AccountRecord.ofAccount a))) (before.length*kRecordSize) =
          AccountRecord.ofAccount a := by
      rw [List.flatMap_append,List.flatMap_cons]
      exact get_append _ _ _ _ (flatMap_record_length before)
    have hstep := ih (before ++ [a]) (s.addAccount a).2
    rw [List.append_assoc,List.singleton_append,List.length_append] at hstep
    rw [List.length_cons,addRecords,hget,AccountRecord.toAccount_ofAccount,List.foldl_cons]
    exact hstep

def snapshotBytes (s : LedgerState) (it : Iteration s) (walOffset : UInt64) (padding : UInt32) :
    List UInt8 :=
  snapshotBuffer s it walOffset padding ++
    Pod.toBytes (Crc32.compute (snapshotBuffer s it walOffset padding))

section Bytes
variable (s : LedgerState) (it : Iteration s) (walOffset : UInt64) (padding : UInt32)

theorem snapshotBuffer_length : (snapshotBuffer s it walOffset padding).length =
    kHeaderSize+it.accounts.length*kRecordSize := by
  rw [snapshotBuffer,List.length_append,flatMap_record_length,Pod.length_toBytes]
  rfl

theorem snapshotBytes_length : (snapshotBytes s it walOffset padding).length =
    kHeaderSize+it.accounts.length*kRecordSize+PodBytes.sizeOf UInt32 := by
  rw [snapshotBytes,List.length_append,snapshotBuffer_length,Pod.length_toBytes]
  rfl

theorem headerAt_snapshotBytes :
    headerAt (snapshotBytes s it walOffset padding) = headerFor s it walOffset padding := by
  rw [headerAt,snapshotBytes,snapshotBuffer,List.append_assoc]
  exact get_append [] _ _ 0 rfl

theorem recordsSize_snapshotBytes (h : it.accounts.length < 2^32) :
    recordsSize (snapshotBytes s it walOffset padding) = it.accounts.length*kRecordSize := by
  rw [recordsSize,headerAt_snapshotBytes]
  show (UInt32.ofNat it.accounts.length).toNat*kRecordSize = _
  rw [UInt32.toNat_ofNat',Nat.mod_eq_of_lt h]

theorem snapshotBytes_accepted (h : it.accounts.length < 2^32) :
    Accepted (snapshotBytes s it walOffset padding) := by
  have hsize : coveredSize (snapshotBytes s it walOffset padding) =
      (snapshotBuffer s it walOffset padding).length := by
    rw [coveredSize,recordsSize_snapshotBytes s it walOffset padding h,snapshotBuffer_length]
  refine ⟨?_,?_,?_,?_⟩
  · rw [headerAt_snapshotBytes]
    rfl
  · rw [headerAt_snapshotBytes]
    rfl
  · rw [hsize,snapshotBuffer_length,snapshotBytes_length]
  · rw [hsize,snapshotBytes,List.take_left]
    have hget := get_append (snapshotBuffer s it walOffset padding) []
      (Crc32.compute (snapshotBuffer s it walOffset padding)) _ rfl
    rw [List.append_nil] at hget
    exact hget.symm

theorem loaded_snapshotBytes (h : it.accounts.length < 2^32) :
    loaded (snapshotBytes s it walOffset padding) = ⟨s,walOffset⟩ := by
  have hhdr : (Pod.toBytes (headerFor s it walOffset padding)).length = kHeaderSize :=
    Pod.length_toBytes _
  have hrecords : ((snapshotBytes s it walOffset padding).drop kHeaderSize).take
      (recordsSize (snapshotBytes s it walOffset padding)) =
        it.accounts.flatMap (fun a => Pod.toBytes (AccountRecord.ofAccount a)) := by
    rw [recordsSize_snapshotBytes s it walOffset padding h,snapshotBytes,snapshotBuffer,
      List.append_assoc,List.drop_left' hhdr,List.take_left' (flatMap_record_length _)]
  have hcount : (headerFor s it walOffset padding).accountCount.toNat = it.accounts.length := by
    show (UInt32.ofNat it.accounts.length).toNat = _
    rw [UInt32.toNat_ofNat',Nat.mod_eq_of_lt h]
  have hadd : addRecords (it.accounts.flatMap
      (fun a => Pod.toBytes (AccountRecord.ofAccount a))) it.accounts.length 0
        { LedgerState.empty with lastAppliedId := s.lastAppliedId } = s :=
    (addRecords_flatMap it.accounts [] _).trans it.rebuild
  rw [loaded,hrecords,headerAt_snapshotBytes,hcount]
  exact congrArg (fun t => (⟨t,walOffset⟩ : LoadedSnapshot)) hadd

end Bytes

def completeIo (padding : UInt32) : WriteIo :=
  ⟨true,.accepts maxRwCount,.accepts 4,true,true,padding⟩

theorem writeSnapshot_of_bytes {s : LedgerState} {it : Iteration s} {walOffset : UInt64}
    {padding : UInt32} {f : File} (h : (snapshotBuffer s it walOffset padding).length ≤ maxRwCount)
    (hf : f.bytes = snapshotBytes s it walOffset padding) :
    writeSnapshot s it walOffset (completeIo padding) none = (.ok (),some f) := by
  have hcrc : (Pod.toBytes (Crc32.compute (snapshotBuffer s it walOffset padding))).length = 4 :=
    Pod.length_toBytes _
  have hmax : maxRwCount+4 ≤ maxFileSize := by decide
  have hfirst : (File.empty.write (snapshotBuffer s it walOffset padding)
      (.accepts maxRwCount)).1 = some (snapshotBuffer s it walOffset padding).length :=
    File.write_accepts h h (show 0+_ ≤ _ by omega)
  have hbytes := File.write_complete hfirst
  have hsecond := File.write_accepts (n := 4) (Nat.le_of_eq hcrc) (by rw [hcrc]; decide) (by
    rw [hbytes,List.length_append]
    show 0+_+_ ≤ _
    omega :
    (File.empty.write (snapshotBuffer s it walOffset padding)
        (.accepts maxRwCount)).2.bytes.length+
      (Pod.toBytes (Crc32.compute (snapshotBuffer s it walOffset padding))).length ≤ maxFileSize)
  simp only [writeSnapshot,completeIo,Bool.true_eq_false,if_false]
  rw [if_neg (not_not.mpr hfirst),if_neg (not_not.mpr hsecond)]
  refine congrArg (fun g => (_,some g)) (File.ext_bytes ?_)
  rw [File.write_complete hsecond,hbytes,hf]
  rfl

theorem written_of_bytes {s : LedgerState} {it : Iteration s} {walOffset : UInt64}
    {padding : UInt32} {f : File} (h : (snapshotBuffer s it walOffset padding).length ≤ maxRwCount)
    (hf : f.bytes = snapshotBytes s it walOffset padding) : Written s walOffset f :=
  ⟨it,_,none,writeSnapshot_of_bytes h hf⟩

theorem exists_writeSnapshot {s : LedgerState} (it : Iteration s) (walOffset : UInt64)
    (padding : UInt32) (h : kHeaderSize+it.accounts.length*kRecordSize ≤ maxRwCount) :
    ∃ f, writeSnapshot s it walOffset (completeIo padding) none = (.ok (),some f) := by
  have hmax : maxRwCount+PodBytes.sizeOf UInt32 ≤ maxFileSize := by decide
  refine ⟨⟨snapshotBytes s it walOffset padding,?_⟩,writeSnapshot_of_bytes ?_ rfl⟩
  · rw [snapshotBytes_length]
    omega
  · rw [snapshotBuffer_length]
    exact h

theorem exists_written {s : LedgerState} (it : Iteration s) (walOffset : UInt64)
    (h : kHeaderSize+it.accounts.length*kRecordSize ≤ maxRwCount) :
    ∃ f, Written s walOffset f := by
  obtain ⟨f,hf⟩ := exists_writeSnapshot it walOffset 0 h
  exact ⟨f,it,_,none,hf⟩

/-- One `write` of the buffer has to transfer all of it, which bounds the number
of accounts. -/
theorem writeSnapshot_bytes {s : LedgerState} {it : Iteration s} {walOffset : UInt64}
    {io : WriteIo} {visible : Option File} {f : File}
    (h : writeSnapshot s it walOffset io visible = (.ok (),some f)) :
    f.bytes = snapshotBytes s it walOffset io.padding ∧
      it.accounts.length*kRecordSize ≤ maxRwCount := by
  unfold writeSnapshot at h
  split at h
  · cases h
  dsimp only at h
  split at h
  · cases h
  case isFalse hfirst =>
  split at h
  · cases h
  case isFalse hsecond =>
  split at h
  · cases h
  split at h
  · cases h
  cases h
  have hone := File.write_complete (not_not.mp hfirst)
  have htwo := File.write_complete (not_not.mp hsecond)
  refine ⟨?_,?_⟩
  · rw [htwo,hone]
    rfl
  · have hle := File.length_le_of_write (not_not.mp hfirst)
    rw [snapshotBuffer_length] at hle
    omega

theorem Written.bytes {s : LedgerState} {walOffset : UInt64} {f : File}
    (h : Written s walOffset f) : ∃ (it : Iteration s) (padding : UInt32),
      f.bytes = snapshotBuffer s it walOffset padding ++
        Pod.toBytes (Crc32.compute (snapshotBuffer s it walOffset padding)) ∧
      it.accounts.length*kRecordSize ≤ maxRwCount := by
  obtain ⟨it,io,visible,hw⟩ := h
  exact ⟨it,io.padding,writeSnapshot_bytes hw⟩

theorem accounts_lt {s : LedgerState} {it : Iteration s}
    (h : it.accounts.length*kRecordSize ≤ maxRwCount) : it.accounts.length < 2^32 := by
  simp only [kRecordSize_eq,maxRwCount] at h
  omega

theorem loadSnapshot_of_bytes {s : LedgerState} {it : Iteration s} {walOffset : UInt64}
    {padding : UInt32} {f : File} (hb : f.bytes = snapshotBytes s it walOffset padding)
    (hsmall : it.accounts.length*kRecordSize ≤ maxRwCount) :
    loadSnapshot (some f) .complete = .ok ⟨s,walOffset⟩ := by
  have hlt := accounts_lt hsmall
  have hsize := recordsSize_snapshotBytes s it walOffset padding hlt
  have hacc : Accepted f.bytes := by
    rw [hb]
    exact snapshotBytes_accepted s it walOffset padding hlt
  have hio : LoadIo.complete.Delivers f.bytes := by
    apply LoadIo.complete_delivers
    rw [hb,hsize]
    exact hsmall
  rw [loadSnapshot_of_accepted hacc hio,hb,loaded_snapshotBytes s it walOffset padding hlt]

theorem loadSnapshot_written {s : LedgerState} {walOffset : UInt64} {f : File}
    (h : Written s walOffset f) :
    loadSnapshot (some f) .complete = .ok ⟨s,walOffset⟩ := by
  obtain ⟨it,padding,hb,hsmall⟩ := h.bytes
  exact loadSnapshot_of_bytes hb hsmall

/-- Every state comes back from its snapshot, in whatever order the map was
iterated: account for account, with the last id and the offset. The first part
is about reads without any limit on their size, the last about the calls. -/
theorem snapshot_roundTrip (s : LedgerState) (it : Iteration s) (walOffset : UInt64)
    (padding : UInt32) (h : it.accounts.length < 2^32) :
    ∃ l, loadBytes (snapshotBytes s it walOffset padding) = .ok l ∧
      (∀ id, l.state.findAccount id = s.findAccount id) ∧
      l.state.lastAppliedId = s.lastAppliedId ∧ l.walOffset = walOffset ∧
      ∀ io visible f, io.padding = padding →
        writeSnapshot s it walOffset io visible = (.ok (),some f) →
          f.bytes = snapshotBytes s it walOffset padding ∧
            loadSnapshot (some f) .complete = .ok l := by
  refine ⟨⟨s,walOffset⟩,?_,fun _ => rfl,rfl,rfl,?_⟩
  · rw [loadBytes,if_pos (snapshotBytes_accepted s it walOffset padding h),
      loaded_snapshotBytes s it walOffset padding h]
  · intro io visible f hpadding hw
    obtain ⟨hb,hsmall⟩ := writeSnapshot_bytes hw
    rw [hpadding] at hb
    exact ⟨hb,loadSnapshot_of_bytes hb hsmall⟩

theorem snapshot_roundTrip_two : ∃ (s : LedgerState) (it : Iteration s) (l : LoadedSnapshot) (f : File),
    it.accounts = [⟨2,.revenue,-7,0⟩,⟨1,.asset,7,3⟩] ∧
      loadBytes (snapshotBytes s it 49 0xFFFFFFFF) = .ok l ∧
      l.state.findAccount 1 = some ⟨1,.asset,7,3⟩ ∧ l.walOffset = 49 ∧
      writeSnapshot s it 49 (completeIo 0xFFFFFFFF) none = (.ok (),some f) ∧
      loadSnapshot (some f) .complete = .ok l := by
  let s : LedgerState := .ofAccounts [⟨1,.asset,7,3⟩,⟨2,.revenue,-7,0⟩]
  let it : Iteration s := ⟨[⟨2,.revenue,-7,0⟩,⟨1,.asset,7,3⟩],by decide⟩
  obtain ⟨l,hl,hfind,-,hoffset,hwrites⟩ := snapshot_roundTrip s it 49 0xFFFFFFFF (by decide)
  obtain ⟨f,hf⟩ := exists_writeSnapshot it 49 0xFFFFFFFF (by decide)
  exact ⟨s,it,l,f,rfl,hl,(hfind 1).trans rfl,hoffset,hf,(hwrites _ _ _ rfl hf).2⟩

end RoundTrip

end FinancialLedger.Snapshot
