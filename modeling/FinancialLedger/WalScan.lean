import FinancialLedger.WalReader
set_option autoImplicit false

/-!
What the reader does on the bytes of well-formed records, whatever the kernel
answers to its reads.
-/

namespace FinancialLedger.Wal
open PodBytes PosixFile

/-- Both reads of one `read_next` hand out all that the record needs. -/
def ReadIo.Delivers (io : ReadIo) (rec : WellFormedRecord) : Prop :=
  io.header.Gives kHeaderSize ∧ io.body.Gives (rec.payload.length+kCrcSize)

instance (io : ReadIo) (rec : WellFormedRecord) : Decidable (io.Delivers rec) :=
  inferInstanceAs (Decidable (_ ∧ _))

theorem ReadIo.complete_delivers (rec : WellFormedRecord) : ReadIo.complete.Delivers rec := by
  have hsmall := rec.small
  have hmax : kMaxPayloadSize+kCrcSize ≤ maxRwCount := by decide
  exact ⟨ReadOutcome.complete_gives (by decide),ReadOutcome.complete_gives (by omega)⟩

/-- The reader behind `n` more bytes, all of them part of valid records. -/
def BinaryWalReader.skip (r : BinaryWalReader) (n : Nat) : BinaryWalReader :=
  { r with cursor := r.cursor+n, lastValidOffset := r.cursor+n }

section Record

variable {r : BinaryWalReader} {f : File} {io : ReadIo} {rec : WellFormedRecord}
  {rest : List UInt8}

theorem WellFormedRecord.bytes_append (rec : WellFormedRecord) (rest : List UInt8) :
    rec.bytes ++ rest = Pod.toBytes rec.header ++ (rec.payload ++
      (Pod.toBytes (Crc32.compute (Pod.toBytes rec.header ++ rec.payload)) ++ rest)) := by
  simp only [bytes,recordBytes,List.append_assoc]

theorem WellFormedRecord.bytes_magic (rec : WellFormedRecord) :
    ∃ rest, rec.bytes = 0x47 :: 0x44 :: 0x45 :: 0x4C :: rest := by
  have hmagic : Pod.toBytes rec.header.magic = [0x47,0x44,0x45,0x4C] := by
    rw [rec.magic]
    decide
  obtain ⟨rest,hrest⟩ : ∃ rest, Pod.toBytes rec.header = Pod.toBytes rec.header.magic ++ rest :=
    ⟨_,rfl⟩
  exact ⟨_,by rw [bytes,recordBytes,hrest,hmagic]; rfl⟩

theorem record_room {cursor : Nat} (hd : f.bytes.drop cursor = rec.bytes ++ rest) :
    cursor+kHeaderSize+(rec.payload.length+kCrcSize) ≤ f.bytes.length := by
  have htotal := congrArg List.length hd
  rw [List.length_drop,List.length_append,rec.bytes_length,kHeaderSize_eq] at htotal
  rw [kHeaderSize_eq]
  omega

theorem BinaryWalReader.readNext_header (hv : r.fdValid = true) {header : RecordHeader}
    (hd : f.bytes.drop r.cursor = Pod.toBytes header ++ rest) (hm : header.magic = kMagic)
    (hver : header.version = kVersion) (hs : header.payloadSize.toNat ≤ kMaxPayloadSize)
    (hio : io.header.Gives kHeaderSize) : r.readNext f io = r.readBody f header io.body := by
  have hlen : (Pod.toBytes header).length = kHeaderSize := Pod.length_toBytes header
  have hcur := cursor_le_of_drop hd (by
    intro h
    rw [List.append_eq_nil_iff] at h
    rw [h.1] at hlen
    cases hlen)
  have hfits := f.fits
  have hp := f.pread_gives hio r.cursor (by omega)
  rw [hd,List.take_left' hlen] at hp
  simp only [readNext,hv,Bool.true_eq_false,if_false,hp,hlen,get_toBytes]
  rw [if_neg (by decide),if_neg (by omega),if_neg]
  simp [hm,hver,hs]

theorem pread_body {cursor len : Nat} {o : ReadOutcome} {header : RecordHeader}
    (hd : f.bytes.drop cursor = Pod.toBytes header ++ rest) (hio : o.Gives len) :
    f.pread len (cursor+kHeaderSize) o = some (rest.take len) := by
  have hlen : (Pod.toBytes header).length = kHeaderSize := Pod.length_toBytes header
  have hrest : f.bytes.drop (cursor+kHeaderSize) = rest := by
    rw [← List.drop_drop,hd,List.drop_left' hlen]
  have htotal := congrArg List.length hd
  have hfits := f.fits
  simp only [List.length_drop,List.length_append,hlen,kHeaderSize_eq] at htotal
  rw [f.pread_gives hio,hrest]
  simp only [kHeaderSize_eq]
  omega

theorem BinaryWalReader.readNext_gives (hv : r.fdValid = true)
    (hd : f.bytes.drop r.cursor = rec.bytes ++ rest) (hio : io.header.Gives kHeaderSize) :
    r.readNext f io = r.readBody f rec.header io.body :=
  readNext_header hv (hd.trans (rec.bytes_append rest)) rec.magic rec.version
    (Nat.le_trans (Nat.le_of_eq rec.sized) rec.small) hio

theorem BinaryWalReader.readNext_delivered (hv : r.fdValid = true)
    (hd : f.bytes.drop r.cursor = rec.bytes ++ rest) (hio : io.Delivers rec) :
    r.readNext f io = (.ok rec.tx,r.skip rec.bytes.length) := by
  have hwhole : (rec.payload ++ Pod.toBytes (Crc32.compute
      (Pod.toBytes rec.header ++ rec.payload))).length = rec.payload.length+kCrcSize := by
    rw [List.length_append,Pod.length_toBytes]
    rfl
  have hcrc : get UInt32 (rec.payload ++ Pod.toBytes (Crc32.compute
      (Pod.toBytes rec.header ++ rec.payload))) rec.payload.length =
        Crc32.compute (Pod.toBytes rec.header ++ rec.payload) := by
    simpa using get_append rec.payload [] (Crc32.compute
      (Pod.toBytes rec.header ++ rec.payload)) _ rfl
  have hp := pread_body (hd.trans (rec.bytes_append rest)) hio.2
  rw [← List.append_assoc,List.take_left' hwhole] at hp
  rw [readNext_gives hv hd hio.1,readBody,rec.sized,hp]
  dsimp only
  rw [if_neg (by omega),List.take_left' rfl,hcrc,if_neg (not_not.mpr rfl),rec.decodes,skip,
    rec.bytes_length,Nat.add_assoc kHeaderSize]

/-- A read that fails or comes back short looks like a torn record. -/
theorem BinaryWalReader.readNext_undelivered (hv : r.fdValid = true)
    (hd : f.bytes.drop r.cursor = rec.bytes ++ rest) (hproper : io.header.Proper)
    (hio : ¬ io.Delivers rec) : r.readNext f io = (.truncated,r) := by
  have hroom := record_room hd
  by_cases hheader : io.header.Gives kHeaderSize
  · have hbody : ¬ io.body.Gives (rec.payload.length+kCrcSize) := fun h => hio ⟨hheader,h⟩
    rw [readNext_gives hv hd hheader,readBody,rec.sized]
    cases hp : f.pread (rec.payload.length+kCrcSize) (r.cursor+kHeaderSize) io.body with
    | none => rfl
    | some body => exact if_pos (File.pread_short hbody hroom hp).1
  · simp only [readNext,hv,Bool.true_eq_false,if_false]
    cases hp : f.pread kHeaderSize r.cursor io.header with
    | none => rfl
    | some bytes =>
      obtain ⟨hshort,hpos⟩ := File.pread_short hheader (by omega) hp
      have hne := hpos hproper
      dsimp only
      rw [if_neg (by omega),if_pos hshort]

theorem BinaryWalReader.readNext_cut (hv : r.fdValid = true) (rec : WellFormedRecord) {n : Nat}
    (hn : 0 < n) (hlt : n < rec.bytes.length) (hd : f.bytes.drop r.cursor = rec.bytes.take n) :
    r.readNext f .complete = (.truncated,r) := by
  have hhdr : (Pod.toBytes rec.header).length = kHeaderSize := Pod.length_toBytes _
  have hrec := rec.bytes_length
  rcases Nat.lt_or_ge n kHeaderSize with hshort | hlong
  · -- not even the header is whole
    have hlen : (rec.bytes.take n).length = n := List.length_take_of_le (Nat.le_of_lt hlt)
    have hcur := cursor_le_of_drop hd (fun h => by rw [h] at hlen; exact absurd hlen (by simp; omega))
    have hfits := f.fits
    have hp : f.pread kHeaderSize r.cursor .complete = some (rec.bytes.take n) := by
      rw [File.pread_complete f (by decide) (by omega),hd,List.take_take,
        Nat.min_eq_right (by omega)]
    simp only [readNext,hv,Bool.true_eq_false,if_false,ReadIo.complete,hp,hlen]
    rw [if_neg (by omega),if_pos hshort]
  · -- the header is whole and promises more than is there
    obtain ⟨hh,hb⟩ := ReadIo.complete_delivers rec
    have hsplit := rec.bytes_append []
    rw [List.append_nil,List.append_nil] at hsplit
    rw [hsplit,List.take_append,hhdr,List.take_of_length_le (by omega)] at hd
    rw [readNext_header hv hd rec.magic rec.version (Nat.le_trans (Nat.le_of_eq rec.sized) rec.small)
      hh,readBody,rec.sized,pread_body hd hb]
    dsimp only
    rw [if_pos]
    simp only [List.length_take]
    omega

theorem BinaryWalReader.readBody_ne_endOfLog (r : BinaryWalReader) (f : File)
    (header : RecordHeader) (o : ReadOutcome) : (r.readBody f header o).1 ≠ .endOfLog := by
  simp only [readBody]
  split
  · simp
  split
  · simp
  split
  · simp
  split
  · simp
  · simp

theorem BinaryWalReader.readNext_endOfLog_iff (hv : r.fdValid = true)
    (hproper : io.header.Proper) :
    (r.readNext f io).1 = .endOfLog ↔
      f.bytes.length ≤ r.cursor ∧ r.cursor ≤ maxFileSize ∧ io.header ≠ .failed := by
  have hhdr : kHeaderSize = 28 := rfl
  have hmax : 0 < maxRwCount := by decide
  simp only [readNext,hv,Bool.true_eq_false,if_false]
  cases ho : io.header with
  | failed => simp [File.pread]
  | upTo n =>
    have hn : n ≠ 0 := fun hz => hproper (by rw [ho,hz])
    by_cases hcur : r.cursor ≤ maxFileSize
    · simp only [File.pread,if_pos hcur,List.length_take,List.length_drop]
      split
      · simp only [true_iff]
        exact ⟨by omega,hcur,by simp⟩
      · have hlong : ¬ f.bytes.length ≤ r.cursor := by omega
        simp only [hlong,false_and,iff_false]
        split
        · simp
        split
        · simp
        · exact r.readBody_ne_endOfLog f _ _
    · simp [File.pread,hcur]

theorem BinaryWalReader.readNext_end (hv : r.fdValid = true) (hc : f.bytes.length ≤ r.cursor)
    (hmax : r.cursor ≤ maxFileSize) : r.readNext f .complete = (.endOfLog,r) := by
  have hp : f.pread kHeaderSize r.cursor .complete = some [] := by
    rw [File.pread_complete f (by decide) hmax,List.drop_of_length_le hc,List.take_nil]
  simp [readNext,hv,ReadIo.complete,hp]

theorem BinaryWalReader.readBody_wellFormed {header : RecordHeader} {o : ReadOutcome}
    {tx : Transaction} {r' : BinaryWalReader} (hm : header.magic = kMagic)
    (hver : header.version = kVersion) (hs : header.payloadSize.toNat ≤ kMaxPayloadSize)
    (hh : (f.bytes.drop r.cursor).take kHeaderSize = Pod.toBytes header)
    (h : r.readBody f header o = (.ok tx,r')) :
    ∃ (rec : WellFormedRecord) (rest : List UInt8), rec.tx = tx ∧
      f.bytes.drop r.cursor = rec.bytes ++ rest ∧ r' = r.skip rec.bytes.length := by
  simp only [readBody] at h
  cases hp : f.pread (header.payloadSize.toNat+kCrcSize) (r.cursor+kHeaderSize) o with
  | none => simp [hp] at h
  | some body =>
    simp only [hp] at h
    split at h
    · cases h
    case isFalse hbody =>
    split at h
    · cases h
    case isFalse hcrc =>
    split at h
    · cases h
    case h_2 tx' hdec =>
    obtain ⟨htx,hr'⟩ := Prod.mk.inj h
    cases htx
    obtain ⟨-,hbytes⟩ := File.pread_full hp (Nat.le_of_not_lt hbody)
    have hlen : body.length = header.payloadSize.toNat+kCrcSize := by
      rw [hbytes] at hbody ⊢
      simp only [List.length_take] at hbody ⊢
      omega
    have hpayload : (body.take header.payloadSize.toNat).length = header.payloadSize.toNat := by
      rw [List.length_take]
      omega
    let found : WellFormedRecord := ⟨header,body.take header.payloadSize.toNat,tx,hm,hver,
      hpayload.symm,Nat.le_trans (Nat.le_of_eq hpayload) hs,hdec⟩
    have hsum : Pod.toBytes (Crc32.compute (Pod.toBytes header ++
        body.take header.payloadSize.toNat)) = body.drop header.payloadSize.toNat := by
      rw [← not_not.mp hcrc,toBytes_get (Nat.le_of_eq hlen.symm),List.take_of_length_le]
      rw [List.length_drop,hlen]
      exact Nat.le_of_eq (Nat.add_sub_cancel_left ..)
    have hfound : found.bytes = Pod.toBytes header ++ body := by
      show recordBytes header _ = _
      rw [recordBytes,hsum,List.append_assoc,List.take_append_drop]
    refine ⟨found,(f.bytes.drop (r.cursor+kHeaderSize)).drop (header.payloadSize.toNat+kCrcSize),
      rfl,?_,?_⟩
    · rw [hfound,List.append_assoc,hbytes,List.take_append_drop,← hh,← List.drop_drop,
        List.take_append_drop]
    · rw [← hr',skip,found.bytes_length]
      show _ = ({ r with
        cursor := r.cursor+(kHeaderSize+((body.take header.payloadSize.toNat).length+kCrcSize))
        lastValidOffset := _ } : BinaryWalReader)
      rw [hpayload,Nat.add_assoc kHeaderSize]

theorem BinaryWalReader.readNext_wellFormed {tx : Transaction} {r' : BinaryWalReader}
    (h : r.readNext f io = (.ok tx,r')) :
    ∃ (rec : WellFormedRecord) (rest : List UInt8), rec.tx = tx ∧
      f.bytes.drop r.cursor = rec.bytes ++ rest ∧ r' = r.skip rec.bytes.length := by
  simp only [readNext] at h
  split at h
  · cases h
  cases hp : f.pread kHeaderSize r.cursor io.header with
  | none => simp [hp] at h
  | some bytes =>
    simp only [hp] at h
    split at h
    · cases h
    split at h
    · cases h
    case isFalse hshort =>
    split at h
    · cases h
    case isFalse hhdr =>
    simp only [not_or,not_not,Nat.not_lt] at hhdr
    obtain ⟨-,hbytes⟩ := File.pread_full hp (Nat.le_of_not_lt hshort)
    have hlen : bytes.length = kHeaderSize := by
      rw [hbytes] at hshort ⊢
      simp only [List.length_take] at hshort ⊢
      omega
    have hget : Pod.toBytes (get RecordHeader bytes 0) = bytes := by
      rw [toBytes_get (Nat.le_trans (Nat.le_of_eq (Nat.zero_add _)) (Nat.le_of_eq hlen.symm)),
        List.drop_zero]
      exact List.take_of_length_le (Nat.le_of_eq hlen)
    exact readBody_wellFormed hhdr.1 hhdr.2.1 hhdr.2.2 (hbytes.symm.trans hget.symm) h

end Record

/-- The records stand one after the other in the file, the first at `offset`. -/
def RunAt (f : File) (offset : Nat) (recs : List WellFormedRecord) : Prop :=
  runBytes recs <+: f.bytes.drop offset

section Run

variable {f : File} {recs : List WellFormedRecord}

theorem RunAt.end_le {offset : Nat} (h : RunAt f offset recs) (ho : offset ≤ f.bytes.length) :
    offset+(runBytes recs).length ≤ f.bytes.length := by
  have hlen := List.IsPrefix.length_le h
  rw [List.length_drop] at hlen
  omega

theorem RunAt.grow {f' : File} {more : List UInt8} (hf : f'.bytes = f.bytes ++ more) {offset : Nat}
    (h : RunAt f offset recs) : RunAt f' offset recs := by
  rw [RunAt,hf,List.drop_append]
  exact h.trans (List.prefix_append _ _)

theorem RunAt.take_drop {offset : Nat} (h : RunAt f offset recs) :
    (f.bytes.take (offset+(runBytes recs).length)).drop offset = runBytes recs := by
  rw [List.drop_take,Nat.add_sub_cancel_left]
  exact (List.prefix_iff_eq_take.mp h).symm

theorem RunAt.cut {offset : Nat} (h : RunAt f offset recs) :
    RunAt (f.cut (offset+(runBytes recs).length)) offset recs :=
  ⟨[],by rw [List.append_nil,File.cut_bytes,h.take_drop]⟩

theorem runAt_append {offset : Nat} {recs' : List WellFormedRecord} :
    RunAt f offset (recs ++ recs') ↔
      RunAt f offset recs ∧ RunAt f (offset+(runBytes recs).length) recs' := by
  simp only [RunAt,runBytes_append]
  constructor
  · rintro ⟨rest,hrest⟩
    rw [List.append_assoc] at hrest
    exact ⟨⟨_,hrest⟩,rest,by rw [← List.drop_drop,← hrest,List.drop_left]⟩
  · rintro ⟨⟨rest,hrest⟩,rest',hrest'⟩
    rw [← List.drop_drop,← hrest,List.drop_left] at hrest'
    exact ⟨rest',by rw [← hrest,← hrest',List.append_assoc]⟩

theorem runAt_cons {offset : Nat} {rec : WellFormedRecord} :
    RunAt f offset (rec :: recs) ↔ (∃ rest, f.bytes.drop offset = rec.bytes ++ rest) ∧
      RunAt f (offset+rec.bytes.length) recs := by
  have hone : runBytes [rec] = rec.bytes := List.append_nil _
  rw [← List.singleton_append,runAt_append,hone,RunAt,hone]
  exact and_congr_left' ⟨fun ⟨rest,h⟩ => ⟨rest,h.symm⟩,fun ⟨rest,h⟩ => ⟨rest,h.symm⟩⟩

@[simp] theorem BinaryWalReader.skip_skip (r : BinaryWalReader) (m n : Nat) :
    (r.skip m).skip n = r.skip (m+n) := by
  simp only [skip,Nat.add_assoc]

theorem BinaryWalReader.skip_zero {r : BinaryWalReader} (hl : r.lastValidOffset = r.cursor) :
    r.skip 0 = r := by
  cases r
  cases hl
  rfl

/-- The loop passes over delivered records and hands each of them to `visit`. -/
theorem BinaryWalReader.drain_run {σ : Type} {r : BinaryWalReader} (hv : r.fdValid = true)
    (hl : r.lastValidOffset = r.cursor) (visit : σ → Transaction → σ) (s : σ) (io : Nat → ReadIo)
    (hrun : RunAt f r.cursor recs) (hio : ∀ i rec, recs[i]? = some rec → (io i).Delivers rec) :
    r.drain f visit io s = (r.skip (runBytes recs).length).drain f visit
      (fun n => io (n+recs.length)) ((recs.map WellFormedRecord.tx).foldl visit s) := by
  induction recs generalizing r s io with
  | nil =>
    rw [show r.skip (runBytes []).length = r from skip_zero hl]
    rfl
  | cons rec recs ih =>
    obtain ⟨⟨rest,hrest⟩,htail⟩ := runAt_cons.mp hrun
    have hstep := ih (r := r.skip rec.bytes.length) hv rfl
      (visit s rec.tx) (fun n => io (n+1)) htail (fun i rec' h => hio (i+1) rec' h)
    rw [drain_ok (readNext_delivered hv hrest (hio 0 rec rfl)),hstep,skip_skip,runBytes_cons,
      List.length_append]
    rfl

def BinaryWalReader.afterCalls (f : File) :
    (Nat → ReadIo) → Nat → BinaryWalReader → BinaryWalReader
  | _, 0, r => r
  | io, n+1, r => afterCalls f (fun i => io (i+1)) n (r.readNext f (io 0)).2

theorem BinaryWalReader.afterCalls_succ (io : Nat → ReadIo) (n : Nat) (r : BinaryWalReader) :
    r.afterCalls f io (n+1) = ((r.afterCalls f io n).readNext f (io n)).2 := by
  induction n generalizing r io with
  | zero => rfl
  | succ n ih =>
    rw [afterCalls,ih]
    rfl

theorem BinaryWalReader.afterCalls_run {r : BinaryWalReader} (hv : r.fdValid = true)
    (hl : r.lastValidOffset = r.cursor) (io : Nat → ReadIo) (hrun : RunAt f r.cursor recs)
    (hio : ∀ i rec, recs[i]? = some rec → (io i).Delivers rec) :
    r.afterCalls f io recs.length = r.skip (runBytes recs).length := by
  induction recs generalizing r io with
  | nil => exact (skip_zero hl).symm
  | cons rec recs ih =>
    obtain ⟨⟨rest,hrest⟩,htail⟩ := runAt_cons.mp hrun
    have hstep := ih (r := r.skip rec.bytes.length) hv rfl (fun n => io (n+1)) htail
      (fun i rec' h => hio (i+1) rec' h)
    rw [List.length_cons,afterCalls,readNext_delivered hv hrest (hio 0 rec rfl),hstep,skip_skip,
      runBytes_cons,List.length_append]

/-- Call by call: each record of a run is returned in its turn, and then comes a
call that returns none. -/
structure BinaryWalReader.Reads (f : File) (r : BinaryWalReader) (io : Nat → ReadIo)
    (recs : List WellFormedRecord) (outcome : ReadResult) : Prop where
  run : RunAt f r.cursor recs
  reader : ∀ i, i ≤ recs.length → r.afterCalls f io i = r.skip (runBytes (recs.take i)).length
  record : ∀ i rec, recs[i]? = some rec → ((r.afterCalls f io i).readNext f (io i)).1 = .ok rec.tx
  stop : (r.skip (runBytes recs).length).readNext f (io recs.length) =
    (outcome,r.skip (runBytes recs).length)
  notOk : ∀ tx, outcome ≠ .ok tx
  drained : ∀ (σ : Type) (visit : σ → Transaction → σ) (s : σ), r.drain f visit io s =
    ((recs.map WellFormedRecord.tx).foldl visit s,outcome,r.skip (runBytes recs).length)

section Reads

variable {r r' : BinaryWalReader} {io : Nat → ReadIo} {outcome : ReadResult}

theorem BinaryWalReader.Reads.nil (hl : r.lastValidOffset = r.cursor)
    (hr : r.readNext f (io 0) = (outcome,r)) (hne : ∀ tx, outcome ≠ .ok tx) :
    r.Reads f io [] outcome where
  run := List.nil_prefix
  reader := by
    intro i hi
    cases Nat.le_zero.mp hi
    exact (skip_zero hl).symm
  record := by simp
  stop := by
    rw [runBytes_nil,List.length_nil,skip_zero hl]
    exact hr
  notOk := hne
  drained := by
    intro σ visit s
    rw [drain_stop hr hne,runBytes_nil,List.length_nil,skip_zero hl]
    rfl

theorem BinaryWalReader.Reads.cons {rec : WellFormedRecord} {rest : List UInt8}
    (hl : r.lastValidOffset = r.cursor)
    (hr : r.readNext f (io 0) = (.ok rec.tx,r.skip rec.bytes.length))
    (hd : f.bytes.drop r.cursor = rec.bytes ++ rest)
    (h : (r.skip rec.bytes.length).Reads f (fun n => io (n+1)) recs outcome) :
    r.Reads f io (rec :: recs) outcome where
  run := runAt_cons.mpr ⟨⟨rest,hd⟩,h.run⟩
  reader := by
    intro i hi
    cases i with
    | zero => exact (skip_zero hl).symm
    | succ i =>
      rw [afterCalls,hr,h.reader i (Nat.le_of_succ_le_succ hi),skip_skip,List.take_succ_cons,
        runBytes_cons,List.length_append]
  record := by
    intro i rec' hi
    cases i with
    | zero =>
      cases hi
      rw [afterCalls,hr]
    | succ i =>
      rw [afterCalls,hr]
      exact h.record i rec' hi
  stop := by
    have hstop := h.stop
    rw [skip_skip] at hstop
    rw [runBytes_cons,List.length_append]
    exact hstop
  notOk := h.notOk
  drained := by
    intro σ visit s
    rw [drain_ok hr,h.drained,skip_skip,runBytes_cons,List.length_append]
    rfl

end Reads

theorem BinaryWalReader.exists_reads (io : Nat → ReadIo) (r : BinaryWalReader)
    (hl : r.lastValidOffset = r.cursor) : ∃ recs outcome, r.Reads f io recs outcome := by
  refine induction_on_reads (f := f) (P := fun r io => r.lastValidOffset = r.cursor →
    ∃ recs outcome, r.Reads f io recs outcome) r io ?_ ?_ hl
  · intro r io r' tx hr ih hl
    obtain ⟨rec,rest,rfl,hd,rfl⟩ := readNext_wellFormed hr
    obtain ⟨recs,outcome,hreads⟩ := ih rfl
    exact ⟨rec :: recs,outcome,.cons hl hr hd hreads⟩
  · intro r io res r' hr hne hl
    cases readNext_stays hr hne
    exact ⟨[],res,.nil hl hr hne⟩

theorem BinaryWalReader.exists_run (io : Nat → ReadIo) (r : BinaryWalReader)
    (hl : r.lastValidOffset = r.cursor) :
    ∃ (recs : List WellFormedRecord) (outcome : ReadResult), RunAt f r.cursor recs ∧
      (r.skip (runBytes recs).length).readNext f (io recs.length) =
        (outcome,r.skip (runBytes recs).length) ∧
      (∀ tx, outcome ≠ .ok tx) ∧
      ∀ (σ : Type) (visit : σ → Transaction → σ) (s : σ), r.drain f visit io s =
        ((recs.map WellFormedRecord.tx).foldl visit s,outcome,r.skip (runBytes recs).length) := by
  obtain ⟨recs,outcome,h⟩ := exists_reads (f := f) io r hl
  exact ⟨recs,outcome,h.run,h.stop,h.notOk,h.drained⟩

theorem RunAt.eq_nil {offset : Nat} (hrun : RunAt f offset recs)
    (hpast : f.bytes.length < offset) : recs = [] := by
  cases recs with
  | nil => rfl
  | cons rec recs =>
    obtain ⟨⟨rest,hd⟩,-⟩ := runAt_cons.mp hrun
    have hroom := record_room hd
    omega

theorem BinaryWalReader.run_le_stop {σ : Type} {r : BinaryWalReader} (hv : r.fdValid = true)
    (hl : r.lastValidOffset = r.cursor) {visit : σ → Transaction → σ} {s s' : σ}
    {io : Nat → ReadIo} {outcome : ReadResult} {stop : BinaryWalReader}
    (hrun : RunAt f r.cursor recs) (hio : ∀ i rec, recs[i]? = some rec → (io i).Delivers rec)
    (hdrain : r.drain f visit io s = (s',outcome,stop)) :
    r.cursor+(runBytes recs).length ≤ stop.cursor := by
  obtain ⟨recs',outcome',-,-,-,hrest⟩ := exists_run (f := f) (fun n => io (n+recs.length))
    (r.skip (runBytes recs).length) rfl
  rw [drain_run hv hl visit s io hrun hio,hrest,skip_skip] at hdrain
  cases hdrain
  show r.cursor+_ ≤ r.cursor+_
  omega

theorem exists_undelivered {io : Nat → ReadIo}
    (h : ¬ ∀ i rec, recs[i]? = some rec → (io i).Delivers rec) :
    ∃ before rec later, recs = before ++ rec :: later ∧
      (∀ i rec', before[i]? = some rec' → (io i).Delivers rec') ∧
      ¬ (io before.length).Delivers rec := by
  induction recs generalizing io with
  | nil => exact absurd (fun _ _ hget => by cases hget) h
  | cons rec recs ih =>
    by_cases hfirst : (io 0).Delivers rec
    · have hrest : ¬ ∀ i rec', recs[i]? = some rec' → (io (i+1)).Delivers rec' := by
        intro hall
        refine h (fun i rec' hget => ?_)
        cases i with
        | zero =>
          cases hget
          exact hfirst
        | succ i => exact hall i rec' hget
      obtain ⟨before,bad,later,rfl,hbefore,hbad⟩ := ih hrest
      refine ⟨rec :: before,bad,later,rfl,?_,hbad⟩
      intro i rec' hget
      cases i with
      | zero =>
        cases hget
        exact hfirst
      | succ i => exact hbefore i rec' hget
    · exact ⟨[],rec,recs,rfl,nofun,hfirst⟩

theorem BinaryWalReader.drain_undelivered {σ : Type} {r : BinaryWalReader} (hv : r.fdValid = true)
    (hl : r.lastValidOffset = r.cursor) (visit : σ → Transaction → σ) (s : σ) (io : Nat → ReadIo)
    {before later : List WellFormedRecord} {rec : WellFormedRecord}
    (hrun : RunAt f r.cursor (before ++ rec :: later))
    (hbefore : ∀ i rec', before[i]? = some rec' → (io i).Delivers rec')
    (hproper : (io before.length).header.Proper) (hbad : ¬ (io before.length).Delivers rec) :
    r.drain f visit io s = ((before.map WellFormedRecord.tx).foldl visit s,.truncated,
      r.skip (runBytes before).length) := by
  obtain ⟨hfirst,hrest⟩ := runAt_append.mp hrun
  obtain ⟨⟨rest,hd⟩,-⟩ := runAt_cons.mp hrest
  have hread : (r.skip (runBytes before).length).readNext f (io (0+before.length)) =
      (.truncated,r.skip (runBytes before).length) := by
    rw [Nat.zero_add]
    exact readNext_undelivered hv hd hproper hbad
  rw [drain_run hv hl visit s io hfirst hbefore]
  exact drain_stop hread (by simp) _

theorem BinaryWalReader.drain_run_end {σ : Type} {r : BinaryWalReader} (hv : r.fdValid = true)
    (hl : r.lastValidOffset = r.cursor) (visit : σ → Transaction → σ) (s : σ)
    (hrun : RunAt f r.cursor recs) (hend : f.bytes.length = r.cursor+(runBytes recs).length) :
    r.drain f visit (fun _ => .complete) s = ((recs.map WellFormedRecord.tx).foldl visit s,
      .endOfLog,r.skip (runBytes recs).length) := by
  have hfits := f.fits
  have hread : (r.skip (runBytes recs).length).readNext f .complete =
      (.endOfLog,r.skip (runBytes recs).length) :=
    readNext_end hv (Nat.le_of_eq hend) (Nat.le_trans (Nat.le_of_eq hend.symm) hfits)
  rw [drain_run hv hl visit s _ hrun (fun i rec _ => ReadIo.complete_delivers rec)]
  exact drain_stop hread (by simp) _

end Run

section Log

theorem headerOf_payloadSize (tx : Transaction) :
    (headerOf tx).payloadSize.toNat = (payloadBytes tx).length := by
  have h := payloadBytes_length_le tx
  have hmax : kMaxPayloadSize = 512 := rfl
  show (UInt32.ofNat (payloadBytes tx).length).toNat = _
  rw [UInt32.toNat_ofNat']
  omega

def WellFormedRecord.ofTransaction (tx : Transaction) : WellFormedRecord where
  header := headerOf tx
  payload := payloadBytes tx
  tx := tx
  magic := rfl
  version := rfl
  sized := headerOf_payloadSize tx
  small := payloadBytes_length_le tx
  decodes := decodeTransactionPayload_payloadBytes tx _ _

@[simp] theorem WellFormedRecord.ofTransaction_bytes (tx : Transaction) :
    (ofTransaction tx).bytes = recordOf tx := rfl

theorem recordOf_magic (tx : Transaction) :
    ∃ rest, recordOf tx = 0x47 :: 0x44 :: 0x45 :: 0x4C :: rest :=
  (WellFormedRecord.ofTransaction tx).bytes_magic

theorem runBytes_ofTransaction (txs : List Transaction) :
    runBytes (txs.map WellFormedRecord.ofTransaction) = logBytes txs := by
  simp [runBytes,logBytes,List.flatMap_map]

theorem map_tx_ofTransaction (txs : List Transaction) :
    (txs.map WellFormedRecord.ofTransaction).map WellFormedRecord.tx = txs := by
  rw [List.map_map]
  exact List.map_id txs

variable {r : BinaryWalReader} {f : File}

theorem BinaryWalReader.readNext_torn (hv : r.fdValid = true) {tx : Transaction} {n : Nat}
    (hn : 0 < n) (hlt : n < (recordOf tx).length)
    (hd : f.bytes.drop r.cursor = (recordOf tx).take n) :
    r.readNext f .complete = (.truncated,r) :=
  readNext_cut hv (.ofTransaction tx) hn hlt hd

theorem BinaryWalReader.drain_log {σ : Type} (hv : r.fdValid = true)
    (hl : r.lastValidOffset = r.cursor) (visit : σ → Transaction → σ) (s : σ)
    {txs : List Transaction} {after : List UInt8}
    (hd : f.bytes.drop r.cursor = logBytes txs ++ after) :
    r.drain f visit (fun _ => .complete) s =
      (r.skip (logBytes txs).length).drain f visit (fun _ => .complete) (txs.foldl visit s) := by
  have hrun : RunAt f r.cursor (txs.map WellFormedRecord.ofTransaction) :=
    ⟨after,by rw [runBytes_ofTransaction,hd]⟩
  have hdrain := drain_run hv hl visit s (fun _ => .complete) hrun
    (fun i rec _ => ReadIo.complete_delivers rec)
  rwa [runBytes_ofTransaction,map_tx_ofTransaction] at hdrain

end Log

end FinancialLedger.Wal
