import FinancialLedger.WalScan
import FinancialLedger.Snapshot
set_option autoImplicit false

/-!
What the checks of the two file formats find when bytes of a file are changed.
-/

namespace FinancialLedger.Wal
open PodBytes PosixFile ReflectedCrc

theorem RecordHeader.get_payloadSize (header : RecordHeader) (rest : List UInt8) :
    get UInt32 (Pod.toBytes header ++ rest) 8 = header.payloadSize := by
  have hsplit : Pod.toBytes header ++ rest = (Pod.toBytes header.magic ++
      (Pod.toBytes header.version ++ Pod.toBytes header.flags)) ++
        (Pod.toBytes header.payloadSize ++ (Pod.toBytes (header.transactionId,header.timestampNs)
          ++ rest)) := by
    simp only [List.append_assoc]
    rfl
  rw [hsplit]
  exact get_append _ _ _ _ rfl

theorem get_legCount (tx : Transaction) (rest : List UInt8) :
    get UInt8 (payloadBytes tx ++ rest) 16 = UInt8.ofNat tx.legs.span.length := by
  have hsplit : payloadBytes tx ++ rest = (Pod.toBytes tx.idempotencyKey.high ++
      Pod.toBytes tx.idempotencyKey.low) ++ (Pod.toBytes (UInt8.ofNat tx.legs.span.length) ++
        (tx.legs.span.flatMap legBytes ++ rest)) := by
    simp only [payloadBytes,List.append_assoc]
  rw [hsplit]
  exact get_append _ _ _ _ rfl

namespace WellFormedRecord
variable (rec : WellFormedRecord)

theorem get_payloadSize (rest : List UInt8) :
    (get UInt32 (rec.bytes ++ rest) 8).toNat = rec.payload.length := by
  rw [rec.bytes_append,RecordHeader.get_payloadSize,rec.sized]

theorem get_legCount (rest : List UInt8) :
    (get UInt8 (rec.bytes ++ rest) 44).toNat = rec.tx.legs.span.length := by
  have hb := rec.tx.legs.bound
  have hhdr : (Pod.toBytes rec.header).length = 28 := Pod.length_toBytes _
  rw [← get_drop UInt8 _ 28 16,rec.bytes_append,List.drop_left' hhdr,rec.payload_eq,
    Wal.get_legCount,UInt8.toNat_ofNat']
  simp only [kMaxLegsPerTransaction] at hb
  omega

/-- The size in the header and the leg count in the payload fix the length
together; they lie too far apart for one burst. -/
theorem length_eq_of_burst {rec rec' : WellFormedRecord} {rest rest' : List UInt8}
    (h : Burst 4 (rec.bytes ++ rest) (rec'.bytes ++ rest')) :
    rec.payload.length = rec'.payload.length := by
  obtain htake | hdrop : (rec.bytes ++ rest).take 12 = (rec'.bytes ++ rest').take 12 ∨
      (rec.bytes ++ rest).drop 16 = (rec'.bytes ++ rest').drop 16 := h.take_or_drop (by decide)
  · have hfour : 8+PodBytes.sizeOf UInt32 ≤ 12 := by decide
    rw [← rec.get_payloadSize rest,← get_take UInt32 _ hfour,htake,get_take UInt32 _ hfour,
      rec'.get_payloadSize]
  · rw [rec.payload_length,rec'.payload_length,← rec.get_legCount rest,
      ← get_drop UInt8 _ 16 28,hdrop,get_drop,rec'.get_legCount]

/-- No burst of four bytes turns a well-formed record into the beginning of a
file from which one can be read. -/
theorem not_burst {rec rec' : WellFormedRecord} {damaged rest rest' : List UInt8}
    (hd : damaged ++ rest = rec'.bytes ++ rest') : ¬ Burst 4 rec.bytes damaged := by
  intro h
  have hburst : Burst 4 (rec.bytes ++ rest) (rec'.bytes ++ rest') := by
    rw [← hd]
    exact h.append_right rest
  have hlen : damaged.length = rec'.bytes.length := by
    rw [← h.length_eq,rec.bytes_length,rec'.bytes_length,length_eq_of_burst hburst]
  rw [(List.append_inj hd hlen).1] at h
  exact Crc32.compute_not_burst _ _ h

end WellFormedRecord

/-- A record as `append` left it, changed in four consecutive bytes or fewer and
followed by anything: the reader does not take it and stays where it is. -/
theorem readNext_damaged (w : BinaryWalWriter) (g : File) (tx : Transaction) (aio : AppendIo)
    (record damaged rest : List UInt8) (f : File) (r : BinaryWalReader) (io : ReadIo)
    (hv : w.fdValid = true) (hall : aio.WritesAll g tx)
    (hrecord : (w.append g tx aio).2.2.bytes = g.bytes ++ record)
    (hburst : Burst 4 record damaged) (hd : f.bytes.drop r.cursor = damaged ++ rest) :
    (∀ tx', (r.readNext f io).1 ≠ .ok tx') ∧ (r.readNext f io).2 = r := by
  have hrec : record = (WellFormedRecord.ofTransaction (stamped tx aio.now)).bytes :=
    List.append_cancel_left (hrecord.symm.trans (BinaryWalWriter.append_bytes hv hall))
  have hno : ∀ tx', (r.readNext f io).1 ≠ .ok tx' := by
    intro tx' hok
    obtain ⟨rec',rest',-,hbytes,-⟩ := BinaryWalReader.readNext_wellFormed (Prod.ext hok rfl)
    rw [hrec] at hburst
    exact WellFormedRecord.not_burst (hd.symm.trans hbytes) hburst
  exact ⟨hno,BinaryWalReader.readNext_stays rfl hno⟩

theorem readNext_damaged_payloadSize :
    ∃ f : File, f.bytes = (recordOf ⟨1,⟨0,1⟩,0,.empty⟩).set 8 34 ++ [0,0] ∧
      ∀ io tx, (BinaryWalReader.opened.readNext f io).1 ≠ .ok tx := by
  let f : File := ⟨(recordOf ⟨1,⟨0,1⟩,0,.empty⟩).set 8 34 ++ [0,0],by decide⟩
  have hall : (⟨0,.accepts 4096,true⟩ : AppendIo).WritesAll .empty ⟨1,⟨0,1⟩,7,.empty⟩ := by
    decide
  have hburst : Burst 4 (recordOf ⟨1,⟨0,1⟩,0,.empty⟩)
      ((recordOf ⟨1,⟨0,1⟩,0,.empty⟩).set 8 34) :=
    burst_set (by decide) (by decide) (by decide)
  refine ⟨f,rfl,fun io => (readNext_damaged ⟨true,.batchSyncFlush,0,false⟩ .empty
    ⟨1,⟨0,1⟩,7,.empty⟩ ⟨0,.accepts 4096,true⟩ _ _ [0,0] f .opened io rfl hall
    (BinaryWalWriter.append_bytes rfl hall) hburst rfl).1⟩

end FinancialLedger.Wal

namespace FinancialLedger.Snapshot
open PodBytes PosixFile ReflectedCrc

section Damage
variable {s : LedgerState} {it : Iteration s} {walOffset : UInt64} {padding : UInt32}

theorem coveredSize_snapshotBytes (h : it.accounts.length < 2^32) :
    coveredSize (snapshotBytes s it walOffset padding)+PodBytes.sizeOf UInt32 =
      (snapshotBytes s it walOffset padding).length := by
  rw [coveredSize,recordsSize_snapshotBytes s it walOffset padding h,snapshotBytes_length]

theorem not_accepted_take (h : it.accounts.length < 2^32) {n : Nat}
    (hn : n < (snapshotBytes s it walOffset padding).length) :
    ¬ Accepted ((snapshotBytes s it walOffset padding).take n) := by
  rintro ⟨-,-,hroom,-⟩
  have hlen : ((snapshotBytes s it walOffset padding).take n).length = n :=
    List.length_take_of_le (Nat.le_of_lt hn)
  have hheader : headerAt ((snapshotBytes s it walOffset padding).take n) =
      headerAt (snapshotBytes s it walOffset padding) := by
    apply get_take
    show 0+kHeaderSize ≤ n
    rw [hlen,coveredSize] at hroom
    omega
  have hsame : coveredSize ((snapshotBytes s it walOffset padding).take n) =
      coveredSize (snapshotBytes s it walOffset padding) := by
    rw [coveredSize,recordsSize,hheader]
    rfl
  rw [hlen,hsame,coveredSize_snapshotBytes h] at hroom
  omega

/-- A changed header announces fewer accounts than were written, and the four
bytes behind the last of them happen to be the checksum of what stands before. -/
def ReadsShorter (bytes bytes' : List UInt8) : Prop :=
  (headerAt bytes').magic = kMagic ∧ (headerAt bytes').version = kVersion ∧
    (headerAt bytes').accountCount < (headerAt bytes).accountCount ∧
    Crc32.compute (bytes'.take (coveredSize bytes')) = get UInt32 bytes' (coveredSize bytes')

instance (bytes bytes' : List UInt8) : Decidable (ReadsShorter bytes bytes') :=
  inferInstanceAs (Decidable (_ ∧ _ ∧ _ ∧ _))

theorem Accepted.bytes_eq {bytes : List UInt8} (h : Accepted bytes)
    (hend : coveredSize bytes+PodBytes.sizeOf UInt32 = bytes.length) :
    bytes = bytes.take (coveredSize bytes) ++
      Pod.toBytes (Crc32.compute (bytes.take (coveredSize bytes))) := by
  obtain ⟨-,-,-,hsum⟩ := h
  have hlast : (bytes.drop (coveredSize bytes)).length ≤ PodBytes.sizeOf UInt32 := by
    rw [List.length_drop]
    omega
  rw [hsum,toBytes_get (Nat.le_of_eq hend),List.take_of_length_le hlast,List.take_append_drop]

theorem accepted_burst_iff (h : it.accounts.length < 2^32) {bytes' : List UInt8}
    (hburst : Burst 4 (snapshotBytes s it walOffset padding) bytes') :
    Accepted bytes' ↔ ReadsShorter (snapshotBytes s it walOffset padding) bytes' := by
  have hlen := hburst.length_eq
  have hend : coveredSize (snapshotBytes s it walOffset padding)+PodBytes.sizeOf UInt32 =
      (snapshotBytes s it walOffset padding).length := coveredSize_snapshotBytes h
  have hcount : (headerAt bytes').accountCount < (headerAt (snapshotBytes s it walOffset
      padding)).accountCount ↔ coveredSize bytes' < coveredSize (snapshotBytes s it walOffset
        padding) := by
    rw [UInt32.lt_iff_toNat_lt,coveredSize,coveredSize,recordsSize,recordsSize,kRecordSize_eq]
    omega
  constructor
  · intro hacc
    obtain ⟨hmagic,hversion,hroom,hsum⟩ := hacc
    refine ⟨hmagic,hversion,hcount.mpr (Nat.lt_of_le_of_ne (by omega) ?_),hsum⟩
    -- with the same count both files are strings that end in their checksums
    intro hsame
    have hacc := snapshotBytes_accepted s it walOffset padding h
    rw [hacc.bytes_eq hend,Accepted.bytes_eq ⟨hmagic,hversion,hroom,hsum⟩ (by omega)] at hburst
    exact Crc32.compute_not_burst _ _ hburst
  · rintro ⟨hmagic,hversion,hless,hsum⟩
    have := hcount.mp hless
    exact ⟨hmagic,hversion,by omega,hsum⟩

end Damage

/-- A file cut short, or changed within four consecutive bytes. -/
def Damaged (bytes bytes' : List UInt8) : Prop :=
  bytes' <+: bytes ∧ bytes' ≠ bytes ∨ Burst 4 bytes bytes'

/-- Damage to a snapshot is found in every case but one. -/
theorem loadSnapshot_damaged_iff (s : LedgerState) (walOffset : UInt64) (f f' : File)
    (h : Written s walOffset f) (hd : Damaged f.bytes f'.bytes) :
    (∀ io, loadSnapshot (some f') io = .error .snapshotCorrupt) ↔
      ¬ (Burst 4 f.bytes f'.bytes ∧ ReadsShorter f.bytes f'.bytes) := by
  obtain ⟨it,padding,hb,hsmall⟩ := h.bytes
  have hb : f.bytes = snapshotBytes s it walOffset padding := hb
  have hlt := accounts_lt hsmall
  rw [hb] at hd ⊢
  obtain ⟨hcut,hne⟩ | hburst := hd
  · -- cut short: never accepted, and not as long as the file was
    have hn : f'.bytes.length < (snapshotBytes s it walOffset padding).length :=
      Nat.lt_of_le_of_ne hcut.length_le (fun hlen => hne (hcut.eq_of_length hlen))
    constructor
    · rintro - ⟨hburst,-⟩
      have := hburst.length_eq
      omega
    · intro _ io
      apply loadSnapshot_of_not_accepted
      rw [List.prefix_iff_eq_take.mp hcut]
      exact not_accepted_take hlt hn
  · have hacc := accepted_burst_iff hlt hburst
    constructor
    · rintro hall ⟨-,hshort⟩
      have hless : recordsSize f'.bytes ≤ maxRwCount := by
        have hcount := UInt32.lt_iff_toNat_lt.mp hshort.2.2.1
        have hsize := recordsSize_snapshotBytes s it walOffset padding hlt
        unfold recordsSize at hsize ⊢
        rw [kRecordSize_eq] at *
        omega
      have hload := loadSnapshot_of_accepted (hacc.mpr hshort) (LoadIo.complete_delivers hless)
      rw [hall] at hload
      cases hload
    · intro hnot io
      exact loadSnapshot_of_not_accepted (fun ha => hnot ⟨hburst,hacc.mp ha⟩)

/-- One account whose id is the checksum of a header without accounts. -/
def unluckyState : LedgerState := .ofAccounts [⟨0x8DF8D728,.asset,100,0⟩]

def unluckyIteration : Iteration unluckyState := ⟨[⟨0x8DF8D728,.asset,100,0⟩],by decide⟩

def unluckyFile : File := ⟨snapshotBytes unluckyState unluckyIteration 0 0,by decide⟩

theorem unluckyFile_written : Written unluckyState 0 unluckyFile :=
  @written_of_bytes unluckyState unluckyIteration 0 0 unluckyFile (by decide) rfl

/-- With the account count changed to zero the account is lost without an error. -/
theorem loadSnapshot_count_zeroed : ∃ f' l, Burst 4 unluckyFile.bytes f'.bytes ∧
    f'.bytes = unluckyFile.bytes.set 8 0 ∧ loadSnapshot (some f') .complete = .ok l ∧
      unluckyState.findAccount 0x8DF8D728 ≠ none ∧ l.state.findAccount 0x8DF8D728 = none := by
  let f' : File := ⟨unluckyFile.bytes.set 8 0,by decide⟩
  have hcrc : Crc32.compute (f'.bytes.take (coveredSize f'.bytes)) =
      get UInt32 f'.bytes (coveredSize f'.bytes) := by
    rw [← UInt32.toBitVec_inj,Crc32.compute_toBitVec]
    decide +kernel
  have hacc : Accepted f'.bytes := ⟨by decide,by decide,by decide,hcrc⟩
  have hsize : recordsSize f'.bytes ≤ maxRwCount := by decide
  have hburst : Burst 4 unluckyFile.bytes f'.bytes :=
    burst_set (by decide) (by decide) (by decide)
  have hload := loadSnapshot_of_accepted hacc (LoadIo.complete_delivers hsize)
  exact ⟨f',_,hburst,rfl,hload,by decide,by decide⟩

theorem loadSnapshot_count_raised : ∃ f', f'.bytes = unluckyFile.bytes.set 8 2 ∧
    ∀ io, loadSnapshot (some f') io = .error .snapshotCorrupt := by
  let f' : File := ⟨unluckyFile.bytes.set 8 2,by decide⟩
  have hburst : Burst 4 unluckyFile.bytes f'.bytes :=
    burst_set (by decide) (by decide) (by decide)
  have hcount : ¬ ReadsShorter unluckyFile.bytes f'.bytes := by decide
  exact ⟨f',rfl,(loadSnapshot_damaged_iff unluckyState 0 unluckyFile f' unluckyFile_written
    (.inr hburst)).mpr (fun h => hcount h.2)⟩

end FinancialLedger.Snapshot
