import Mathlib.Algebra.Group.Nat.Defs
import Mathlib.Data.List.Basic
set_option autoImplicit false

/-!
Regular files as the system calls show them to one process on 64-bit Linux.
Every call takes the outcome the kernel picks for it, so that a statement for
all outcomes is a statement about every failure pattern.
-/

namespace PosixFile

/-- Sizes and offsets are `off_t`, a signed 64-bit integer. -/
def maxFileSize : Nat := 2^63-1

/-- Linux transfers at most this many bytes in one `read` or `write`. -/
def maxRwCount : Nat := 0x7ffff000

structure File where
  bytes : List UInt8
  fits : bytes.length ≤ maxFileSize

theorem File.ext_bytes {f g : File} (h : f.bytes = g.bytes) : f = g := by
  cases f; cases g; simp_all

instance : DecidableEq File := fun f g =>
  decidable_of_iff (f.bytes = g.bytes) ⟨File.ext_bytes,fun h => by rw [h]⟩

def File.empty : File := ⟨[],by simp⟩

/-- The first `k` bytes of a file, as a crash may leave them. -/
def File.cut (f : File) (k : Nat) : File :=
  ⟨f.bytes.take k,by have := f.fits; simp only [List.length_take]; omega⟩

@[simp] theorem File.cut_bytes (f : File) (k : Nat) : (f.cut k).bytes = f.bytes.take k := rfl

inductive WriteOutcome where
  | failed
  | accepts (n : Nat)
  deriving DecidableEq, Repr

def File.writeCount (f : File) (data : List UInt8) (n : Nat) : Nat :=
  min (min n maxRwCount) (min data.length (maxFileSize-f.bytes.length))

/-- `write` on a descriptor positioned at the end of the file, as `O_APPEND`
positions it before every call. The result `none` stands for -1. -/
def File.write (f : File) (data : List UInt8) : WriteOutcome → Option Nat × File
  | .failed => (none,f)
  | .accepts n =>
      (some (f.writeCount data n),
        ⟨f.bytes ++ data.take (f.writeCount data n),by
          have := f.fits
          simp only [List.length_append,List.length_take,File.writeCount]
          omega⟩)

theorem File.write_spec (f : File) (data : List UInt8) (o : WriteOutcome) :
    ∃ n, n ≤ data.length ∧ (f.write data o).2.bytes = f.bytes ++ data.take n ∧
      ((f.write data o).1 = some n ∨ (f.write data o).1 = none ∧ n = 0) := by
  cases o with
  | failed => exact ⟨0,by omega,by simp [write],.inr ⟨rfl,rfl⟩⟩
  | accepts n =>
    refine ⟨f.writeCount data n,?_,rfl,.inl rfl⟩
    simp only [writeCount]; omega

theorem File.write_complete {f : File} {data : List UInt8} {o : WriteOutcome}
    (h : (f.write data o).1 = some data.length) :
    (f.write data o).2.bytes = f.bytes ++ data := by
  obtain ⟨n,_,hb,hn | ⟨hn,_⟩⟩ := f.write_spec data o
  · rw [hn] at h
    cases h
    rw [hb,List.take_length]
  · rw [hn] at h
    cases h

theorem File.length_le_of_write {f : File} {data : List UInt8} {o : WriteOutcome}
    (h : (f.write data o).1 = some data.length) : data.length ≤ maxRwCount := by
  cases o with
  | failed => simp [write] at h
  | accepts n =>
    simp only [write,Option.some.injEq,writeCount] at h
    omega

theorem File.write_accepts {f : File} {data : List UInt8} {n : Nat} (hn : data.length ≤ n)
    (hm : data.length ≤ maxRwCount) (hf : f.bytes.length+data.length ≤ maxFileSize) :
    (f.write data (.accepts n)).1 = some data.length := by
  simp only [write,writeCount,Option.some.injEq]
  omega

def writeAtCount (pos : Nat) (data : List UInt8) (n : Nat) : Nat :=
  min (min n maxRwCount) (min data.length (maxFileSize-pos))

/-- `write` at the descriptor's own offset. A gap before it is filled with
zeros, what stands there is overwritten. -/
def File.writeAt (f : File) (pos : Nat) (data : List UInt8) : WriteOutcome → Option Nat × File
  | .failed => (none,f)
  | .accepts n =>
      (some (writeAtCount pos data n),
        if h : writeAtCount pos data n = 0 then f
        else ⟨(f.bytes ++ List.replicate (pos-f.bytes.length) 0).take pos ++
            data.take (writeAtCount pos data n) ++ f.bytes.drop (pos+writeAtCount pos data n),by
          have := f.fits
          simp only [List.length_append,List.length_take,List.length_replicate,List.length_drop,
            writeAtCount] at h ⊢
          omega⟩)

theorem File.writeAt_end (f : File) (data : List UInt8) (o : WriteOutcome) :
    f.writeAt f.bytes.length data o = f.write data o := by
  cases o with
  | failed => rfl
  | accepts n =>
    refine Prod.ext rfl (File.ext_bytes ?_)
    show (dite _ _ _ : File).bytes = f.bytes ++ data.take (writeAtCount f.bytes.length data n)
    split
    · case isTrue h => rw [h,List.take_zero,List.append_nil]
    · simp

inductive ReadOutcome where
  | failed
  | upTo (n : Nat)
  deriving DecidableEq, Repr

def ReadOutcome.complete : ReadOutcome := .upTo maxRwCount

/-- `pread`; an offset that is negative as an `off_t` is refused. The result
`none` stands for -1. -/
def File.pread (f : File) (len offset : Nat) : ReadOutcome → Option (List UInt8)
  | .failed => none
  | .upTo n =>
      if offset ≤ maxFileSize then
        some ((f.bytes.drop offset).take (min len (min n maxRwCount)))
      else none

theorem File.pread_complete (f : File) {len offset : Nat} (hl : len ≤ maxRwCount)
    (ho : offset ≤ maxFileSize) :
    f.pread len offset .complete = some ((f.bytes.drop offset).take len) := by
  have h : min len (min maxRwCount maxRwCount) = len := by omega
  simp only [pread,ReadOutcome.complete,if_pos ho,h]

theorem File.pread_length_le {f : File} {len offset : Nat} {o : ReadOutcome} {bs : List UInt8}
    (h : f.pread len offset o = some bs) : bs.length ≤ f.bytes.length-offset := by
  cases o with
  | failed => cases h
  | upTo n =>
    simp only [pread] at h
    split at h
    · cases h
      simp only [List.length_take,List.length_drop]
      omega
    · cases h

/-- One call hands out `len` bytes where the file has them. -/
def ReadOutcome.Gives (o : ReadOutcome) (len : Nat) : Prop :=
  match o with
  | .failed => False
  | .upTo n => len ≤ min n maxRwCount

instance (o : ReadOutcome) (len : Nat) : Decidable (o.Gives len) :=
  match o with
  | .failed => inferInstanceAs (Decidable False)
  | .upTo n => inferInstanceAs (Decidable (len ≤ min n maxRwCount))

theorem ReadOutcome.complete_gives {len : Nat} (h : len ≤ maxRwCount) :
    ReadOutcome.complete.Gives len := by
  simp only [Gives,complete]
  omega

/-- `read` answers with 0 only at the end of a file. -/
def ReadOutcome.Proper (o : ReadOutcome) : Prop := o ≠ .upTo 0

instance (o : ReadOutcome) : Decidable o.Proper := inferInstanceAs (Decidable (_ ≠ _))

theorem File.pread_gives (f : File) {o : ReadOutcome} {len : Nat} (h : o.Gives len) (offset : Nat)
    (ho : offset ≤ maxFileSize) : f.pread len offset o = some ((f.bytes.drop offset).take len) := by
  cases o with
  | failed => exact h.elim
  | upTo n =>
    have hmin : min len (min n maxRwCount) = len := Nat.min_eq_left h
    rw [pread,if_pos ho,hmin]

theorem File.pread_full {f : File} {o : ReadOutcome} {len offset : Nat} {bs : List UInt8}
    (hp : f.pread len offset o = some bs) (hlen : len ≤ bs.length) :
    o.Gives len ∧ bs = (f.bytes.drop offset).take len := by
  cases o with
  | failed => cases hp
  | upTo n =>
    simp only [pread] at hp
    split at hp
    · cases hp
      rw [List.length_take] at hlen
      have hn : len ≤ min n maxRwCount := by omega
      rw [Nat.min_eq_left hn]
      exact ⟨hn,rfl⟩
    · cases hp

theorem File.pread_short {f : File} {o : ReadOutcome} {len offset : Nat} (h : ¬ o.Gives len)
    (ho : offset+len ≤ f.bytes.length) {bs : List UInt8} (hp : f.pread len offset o = some bs) :
    bs.length < len ∧ (o.Proper → 0 < bs.length) := by
  cases o with
  | failed => cases hp
  | upTo n =>
    have hn : ¬ len ≤ min n maxRwCount := h
    have hmax : 0 < maxRwCount := by decide
    rw [pread,if_pos (by have := f.fits; omega),Option.some.injEq] at hp
    subst hp
    simp only [List.length_take,List.length_drop,ReadOutcome.Proper]
    refine ⟨by omega,fun hproper => ?_⟩
    have hpos : n ≠ 0 := fun hz => hproper (by rw [hz])
    omega

theorem File.pread_grow {f f' : File} {more : List UInt8} (hf : f'.bytes = f.bytes ++ more)
    {len offset : Nat} {o : ReadOutcome} {bs : List UInt8} (h : f.pread len offset o = some bs)
    (hlen : len ≤ bs.length) : f'.pread len offset o = some bs := by
  cases o with
  | failed => cases h
  | upTo n =>
    simp only [pread] at h ⊢
    split at h
    · case isTrue ho =>
      cases h
      rw [List.length_take,List.length_drop] at hlen
      rw [if_pos ho,hf,List.drop_append,List.take_append_of_le_length]
      rw [List.length_drop]
      omega
    · cases h

/-- `ftruncate` shortens a file or extends it with zero bytes. -/
def File.ftruncate (f : File) (len : Nat) (succeeds : Bool) : Option File :=
  if h : succeeds = true ∧ len ≤ maxFileSize then
    some ⟨(f.bytes ++ List.replicate (len-f.bytes.length) 0).take len,by
      simp only [List.length_take]; omega⟩
  else none

theorem File.ftruncate_cut (f : File) {len : Nat} (h : len ≤ f.bytes.length) :
    f.ftruncate len true = some (f.cut len) := by
  have hl : len ≤ maxFileSize := by have := f.fits; omega
  have hz : len-f.bytes.length = 0 := by omega
  simp [ftruncate,hl,hz,cut]

theorem File.ftruncate_some {f f' : File} {len : Nat} {succeeds : Bool}
    (h : f.ftruncate len succeeds = some f') :
    succeeds = true ∧ len ≤ maxFileSize ∧ f'.bytes.length = len := by
  unfold ftruncate at h
  split at h
  · case isTrue hok =>
    cases h
    refine ⟨hok.1,hok.2,?_⟩
    simp only [List.length_take,List.length_append,List.length_replicate]
    omega
  · cases h

end PosixFile
