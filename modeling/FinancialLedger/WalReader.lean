import FinancialLedger.WalWriter
set_option autoImplicit false

namespace FinancialLedger.Wal
open PodBytes PosixFile

inductive ReadResult where
  | ok (tx : Transaction)
  | endOfLog
  | corrupt
  | truncated
  deriving DecidableEq, Repr

structure BinaryWalReader where
  fdValid : Bool
  cursor : Nat
  lastValidOffset : Nat
  deriving DecidableEq, Repr

def BinaryWalReader.opened : BinaryWalReader := ⟨true,0,0⟩

def BinaryWalReader.seek (r : BinaryWalReader) (offset : Nat) : BinaryWalReader :=
  { r with cursor := offset, lastValidOffset := offset }

/-- The kernel's answers to the two `pread` calls of one `read_next`. -/
structure ReadIo where
  header : ReadOutcome
  body : ReadOutcome
  deriving DecidableEq, Repr

def ReadIo.complete : ReadIo := ⟨.complete,.complete⟩

def BinaryWalReader.readBody (r : BinaryWalReader) (f : File) (header : RecordHeader)
    (outcome : ReadOutcome) : ReadResult × BinaryWalReader :=
  let size := header.payloadSize.toNat
  match f.pread (size+kCrcSize) (r.cursor+kHeaderSize) outcome with
  | none => (.truncated,r)
  | some body =>
      if body.length < size+kCrcSize then (.truncated,r)
      else
        let payload := body.take size
        if get UInt32 body size ≠ Crc32.compute (Pod.toBytes header ++ payload) then (.corrupt,r)
        else
          match decodeTransactionPayload payload header.transactionId header.timestampNs with
          | .error _ => (.corrupt,r)
          | .ok tx =>
              let cursor := r.cursor+(kHeaderSize+size+kCrcSize)
              (.ok tx,{ r with cursor := cursor, lastValidOffset := cursor })

def BinaryWalReader.readNext (r : BinaryWalReader) (f : File) (io : ReadIo) :
    ReadResult × BinaryWalReader :=
  if r.fdValid = false then (.endOfLog,r)
  else
    match f.pread kHeaderSize r.cursor io.header with
    | none => (.truncated,r)
    | some bytes =>
        if bytes.length = 0 then (.endOfLog,r)
        else if bytes.length < kHeaderSize then (.truncated,r)
        else
          let header := get RecordHeader bytes 0
          if header.magic ≠ kMagic ∨ header.version ≠ kVersion ∨
              kMaxPayloadSize < header.payloadSize.toNat then (.corrupt,r)
          else r.readBody f header io.body

theorem BinaryWalReader.readBody_ok {r : BinaryWalReader} {f : File} {header : RecordHeader}
    {o : ReadOutcome} {tx : Transaction} (h : (r.readBody f header o).1 = .ok tx) :
    r.cursor < (r.readBody f header o).2.cursor ∧
      (r.readBody f header o).2.cursor ≤ f.bytes.length := by
  unfold readBody at h ⊢
  cases hp : f.pread (header.payloadSize.toNat+kCrcSize) (r.cursor+kHeaderSize) o with
  | none => simp [hp] at h
  | some body =>
    have hlen := File.pread_length_le hp
    simp only [hp] at h ⊢
    split at h
    · cases h
    case isFalse hbody =>
    split at h
    · cases h
    case isFalse hcrc =>
    rw [if_neg hbody,if_neg hcrc]
    split at h
    · cases h
    case h_2 tx' htx =>
    simp only [htx,kHeaderSize_eq,kCrcSize_eq] at *
    omega

theorem BinaryWalReader.readNext_body {r : BinaryWalReader} {f : File} {io : ReadIo}
    {tx : Transaction} (h : (r.readNext f io).1 = .ok tx) :
    ∃ header, r.readNext f io = r.readBody f header io.body := by
  unfold readNext at h ⊢
  split at h
  · cases h
  case isFalse hfd =>
  rw [if_neg hfd]
  cases hp : f.pread kHeaderSize r.cursor io.header with
  | none => simp [hp] at h
  | some bytes =>
    simp only [hp] at h ⊢
    split at h
    · cases h
    case isFalse hempty =>
    split at h
    · cases h
    case isFalse hshort =>
    split at h
    · cases h
    case isFalse hhdr =>
    rw [if_neg hempty,if_neg hshort,if_neg hhdr]
    exact ⟨_,rfl⟩

/-- A record is returned only if all its bytes are in the file, and the cursor
moves behind them. -/
theorem BinaryWalReader.readNext_ok {r : BinaryWalReader} {f : File} {io : ReadIo}
    {tx : Transaction} (h : (r.readNext f io).1 = .ok tx) :
    r.cursor < (r.readNext f io).2.cursor ∧ (r.readNext f io).2.cursor ≤ f.bytes.length := by
  obtain ⟨header,hb⟩ := readNext_body h
  rw [hb] at h ⊢
  exact readBody_ok h

theorem BinaryWalReader.readBody_grow {r : BinaryWalReader} {f f' : File} {more : List UInt8}
    (hf : f'.bytes = f.bytes ++ more) {header : RecordHeader} {o : ReadOutcome}
    {tx : Transaction} (h : (r.readBody f header o).1 = .ok tx) :
    r.readBody f' header o = r.readBody f header o := by
  unfold readBody at h ⊢
  cases hp : f.pread (header.payloadSize.toNat+kCrcSize) (r.cursor+kHeaderSize) o with
  | none => simp [hp] at h
  | some body =>
    simp only [hp] at h ⊢
    split at h
    · cases h
    · case isFalse hbody => rw [File.pread_grow hf hp (Nat.le_of_not_lt hbody)]

theorem BinaryWalReader.readNext_grow {r : BinaryWalReader} {f f' : File} {more : List UInt8}
    (hf : f'.bytes = f.bytes ++ more) {io : ReadIo} {tx : Transaction}
    (h : (r.readNext f io).1 = .ok tx) : r.readNext f' io = r.readNext f io := by
  unfold readNext at h ⊢
  split at h
  · cases h
  case isFalse hfd =>
  cases hp : f.pread kHeaderSize r.cursor io.header with
  | none => simp [hp] at h
  | some bytes =>
    simp only [hp] at h ⊢
    split at h
    · cases h
    case isFalse hempty =>
    split at h
    · cases h
    case isFalse hshort =>
    split at h
    · cases h
    case isFalse hhdr =>
    rw [File.pread_grow hf hp (Nat.le_of_not_lt hshort),if_neg hfd,if_neg hfd]
    simp only [if_neg hempty,if_neg hshort,if_neg hhdr]
    exact readBody_grow hf h

theorem BinaryWalReader.cursor_of_ok {r r' : BinaryWalReader} {f : File} {io : ReadIo}
    {tx : Transaction} (h : r.readNext f io = (.ok tx,r')) :
    r.cursor < r'.cursor ∧ r'.cursor ≤ f.bytes.length := by
  have hok := readNext_ok (congrArg Prod.fst h)
  rwa [h] at hok

/-- Call `read_next` until it is not Ok and hand each record to `visit`; `io`
answers the calls in turn. -/
def BinaryWalReader.drain {σ : Type} (f : File) (visit : σ → Transaction → σ)
    (io : Nat → ReadIo) (r : BinaryWalReader) (s : σ) : σ × ReadResult × BinaryWalReader :=
  match h : (r.readNext f (io 0)).1 with
  | .ok tx => drain f visit (fun n => io (n+1)) (r.readNext f (io 0)).2 (visit s tx)
  | res => (s,res,(r.readNext f (io 0)).2)
termination_by f.bytes.length-r.cursor
decreasing_by
  have := readNext_ok h
  omega

theorem BinaryWalReader.drain_ok {σ : Type} {f : File} {visit : σ → Transaction → σ}
    {io : Nat → ReadIo} {r r' : BinaryWalReader} {tx : Transaction}
    (h : r.readNext f (io 0) = (.ok tx,r')) (s : σ) :
    r.drain f visit io s = r'.drain f visit (fun n => io (n+1)) (visit s tx) := by
  rw [drain]
  split
  · case h_1 tx' htx =>
    rw [h] at htx ⊢
    cases htx
    rfl
  · case h_2 hne => exact absurd (by rw [h]) (hne tx)

theorem BinaryWalReader.drain_stop {σ : Type} {f : File} {visit : σ → Transaction → σ}
    {io : Nat → ReadIo} {r r' : BinaryWalReader} {res : ReadResult}
    (h : r.readNext f (io 0) = (res,r')) (hne : ∀ tx, res ≠ .ok tx) (s : σ) :
    r.drain f visit io s = (s,res,r') := by
  rw [drain]
  split
  · case h_1 tx htx =>
    rw [h] at htx
    exact absurd htx (hne tx)
  · rw [h]

section Visited

variable {r : BinaryWalReader} {f : File} {io : Nat → ReadIo}

/-- Induction along the records that a reader returns: what the rest of the
calls give after a record, and what holds where reading stops. -/
theorem BinaryWalReader.induction_on_reads {P : BinaryWalReader → (Nat → ReadIo) → Prop}
    (r : BinaryWalReader) (io : Nat → ReadIo)
    (hok : ∀ r io r' tx, r.readNext f (io 0) = (.ok tx,r') → P r' (fun n => io (n+1)) → P r io)
    (hstop : ∀ r io res r', r.readNext f (io 0) = (res,r') → (∀ tx, res ≠ .ok tx) → P r io) :
    P r io := by
  induction hm : f.bytes.length-r.cursor using Nat.strongRecOn generalizing r io with
  | ind m ih =>
    cases hr : r.readNext f (io 0) with
    | mk res r' =>
      by_cases hres : ∃ tx, res = .ok tx
      · obtain ⟨tx,rfl⟩ := hres
        have hcur := cursor_of_ok hr
        exact hok r io r' tx hr (ih _ (by omega) r' _ rfl)
      · exact hstop r io res r' hr (fun tx h => hres ⟨tx,h⟩)

/-- The records the loop is handed before the first call that is not Ok. -/
def BinaryWalReader.visited (r : BinaryWalReader) (f : File) (io : Nat → ReadIo) :
    List Transaction :=
  (r.drain f (fun l tx => l ++ [tx]) io []).1

theorem BinaryWalReader.visited_stop {r' : BinaryWalReader} {res : ReadResult}
    (hr : r.readNext f (io 0) = (res,r')) (hne : ∀ tx, res ≠ .ok tx) : r.visited f io = [] :=
  congrArg Prod.fst (drain_stop hr hne [])

theorem foldl_snoc (txs acc : List Transaction) :
    txs.foldl (fun l tx => l ++ [tx]) acc = acc ++ txs := by
  induction txs generalizing acc with
  | nil => simp
  | cons tx txs ih => simp [ih]

theorem BinaryWalReader.drain_visited (r : BinaryWalReader) (f : File) (io : Nat → ReadIo) :
    ∀ (σ : Type) (visit : σ → Transaction → σ) (s : σ),
      (r.drain f visit io s).1 = (r.visited f io).foldl visit s := by
  refine induction_on_reads (f := f) (P := fun r io => ∀ (σ : Type) (visit : σ → Transaction → σ)
    (s : σ), (r.drain f visit io s).1 = (r.visited f io).foldl visit s) r io ?_ ?_
  · intro r io r' tx hr ih σ visit s
    have hvisited : r.visited f io = tx :: r'.visited f (fun n => io (n+1)) := by
      rw [visited,drain_ok hr,ih,foldl_snoc]
      rfl
    rw [hvisited,drain_ok hr,ih]
    rfl
  · intro r io res r' hr hne σ visit s
    rw [visited_stop hr hne]
    exact congrArg Prod.fst (drain_stop hr hne s)

end Visited

section Complete

variable {r : BinaryWalReader} {f : File}

theorem BinaryWalReader.drain_next {σ : Type} {visit : σ → Transaction → σ} {tx : Transaction}
    {r' : BinaryWalReader} (h : r.readNext f .complete = (.ok tx,r')) (s : σ) :
    r.drain f visit (fun _ => .complete) s = r'.drain f visit (fun _ => .complete) (visit s tx) :=
  drain_ok (show r.readNext f ((fun _ => .complete) 0) = _ from h) s

theorem BinaryWalReader.induction_on_records {P : BinaryWalReader → Prop} (r : BinaryWalReader)
    (hok : ∀ r r' tx, r.readNext f .complete = (.ok tx,r') → P r' → P r)
    (hstop : ∀ r res r', r.readNext f .complete = (res,r') → (∀ tx, res ≠ .ok tx) → P r) :
    P r := by
  refine induction_on_reads (f := f) (P := fun r io => (∀ n, io n = .complete) → P r) r
    (fun _ => .complete) ?_ ?_ (fun _ => rfl)
  · intro r io r' tx hr ih hio
    rw [hio 0] at hr
    exact hok r r' tx hr (ih (fun n => hio (n+1)))
  · intro r io res r' hr hne hio
    rw [hio 0] at hr
    exact hstop r res r' hr hne

def BinaryWalReader.records (r : BinaryWalReader) (f : File) : List Transaction :=
  (r.drain f (fun l tx => l ++ [tx]) (fun _ => .complete) []).1

theorem BinaryWalReader.records_stop {r' : BinaryWalReader} {res : ReadResult}
    (hr : r.readNext f .complete = (res,r')) (hne : ∀ tx, res ≠ .ok tx) : r.records f = [] :=
  visited_stop hr hne

theorem BinaryWalReader.drain_fst {σ : Type} (r : BinaryWalReader) (f : File)
    (visit : σ → Transaction → σ) (s : σ) :
    (r.drain f visit (fun _ => .complete) s).1 = (r.records f).foldl visit s :=
  r.drain_visited f _ σ visit s

theorem BinaryWalReader.records_ok {r' : BinaryWalReader} {tx : Transaction}
    (hr : r.readNext f .complete = (.ok tx,r')) : r.records f = tx :: r'.records f := by
  rw [records,drain_next hr,drain_fst,foldl_snoc]
  rfl

theorem BinaryWalReader.records_grow {f f' : File} {more : List UInt8}
    (hf : f'.bytes = f.bytes ++ more) (r : BinaryWalReader) : r.records f <+: r.records f' := by
  refine induction_on_records (f := f) (P := fun r => r.records f <+: r.records f') r ?_ ?_
  · intro r r' tx hr ih
    have hr' : r.readNext f' .complete = (.ok tx,r') := by
      rw [readNext_grow hf (by rw [hr]),hr]
    rw [records_ok hr,records_ok hr',List.cons_prefix_cons]
    exact ⟨rfl,ih⟩
  · intro r res r' hr hne
    rw [records_stop hr hne]
    exact List.nil_prefix

def BinaryWalReader.Moves (r : BinaryWalReader) (res : ReadResult × BinaryWalReader) : Prop :=
  res.2 = r ∨ ∃ tx, res.1 = .ok tx ∧ res.2.lastValidOffset = res.2.cursor

theorem BinaryWalReader.readBody_moves (r : BinaryWalReader) (f : File) (header : RecordHeader)
    (o : ReadOutcome) : r.Moves (r.readBody f header o) := by
  simp only [readBody]
  split
  · exact .inl rfl
  split
  · exact .inl rfl
  split
  · exact .inl rfl
  split
  · exact .inl rfl
  · exact .inr ⟨_,rfl,rfl⟩

theorem BinaryWalReader.readNext_moves (r : BinaryWalReader) (f : File) (io : ReadIo) :
    r.Moves (r.readNext f io) := by
  simp only [readNext]
  split
  · exact .inl rfl
  split
  · exact .inl rfl
  split
  · exact .inl rfl
  split
  · exact .inl rfl
  split
  · exact .inl rfl
  · exact r.readBody_moves f _ _

theorem BinaryWalReader.readNext_stays {r' : BinaryWalReader} {io : ReadIo} {res : ReadResult}
    (h : r.readNext f io = (res,r')) (hne : ∀ tx, res ≠ .ok tx) : r' = r := by
  have hmoves := r.readNext_moves f io
  rw [h] at hmoves
  obtain hsame | ⟨tx,hok,-⟩ := hmoves
  · exact hsame
  · exact absurd hok (hne tx)

theorem cursor_le_of_drop {cursor : Nat} {bs : List UInt8} (h : f.bytes.drop cursor = bs)
    (hne : bs ≠ []) : cursor < f.bytes.length := by
  by_contra hge
  rw [List.drop_of_length_le (by omega)] at h
  exact hne h.symm

end Complete

end FinancialLedger.Wal
