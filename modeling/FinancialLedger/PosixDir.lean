import Mathlib.Logic.Function.Basic
import FinancialLedger.PosixFile
set_option autoImplicit false

/-!
A directory that several open descriptors work on. A name refers to a file by
its number; a descriptor keeps the number it was opened with, whatever happens
to the names afterwards.
-/

namespace PosixDir
open PosixFile

structure Dir (ν : Type) where
  contents : Nat → File
  next : Nat
  entry : ν → Option Nat
  bound : ∀ x n, entry x = some n → n < next
  distinct : ∀ x y n, entry x = some n → entry y = some n → x = y

structure Descriptor where
  inode : Nat
  offset : Nat
  deriving DecidableEq, Repr

variable {ν : Type}

def Dir.empty : Dir ν := ⟨fun _ => .empty,0,fun _ => none,nofun,nofun⟩

/-- What a reader finds who opens the name now. -/
def Dir.file (d : Dir ν) (x : ν) : Option File := (d.entry x).map d.contents

def Dir.setContents (d : Dir ν) (inode : Nat) (f : File) : Dir ν :=
  { d with contents := Function.update d.contents inode f }

def Dir.write (d : Dir ν) (fd : Descriptor) (data : List UInt8) (o : WriteOutcome) :
    Option Nat × Descriptor × Dir ν :=
  let written := (d.contents fd.inode).writeAt fd.offset data o
  (written.1,⟨fd.inode,fd.offset+written.1.getD 0⟩,d.setContents fd.inode written.2)

theorem Dir.setContents_file {d : Dir ν} {x : ν} {inode : Nat} (h : d.entry x ≠ some inode)
    (f : File) : (d.setContents inode f).file x = d.file x := by
  show (d.entry x).map (Function.update d.contents inode f) = (d.entry x).map d.contents
  cases hx : d.entry x with
  | none => rfl
  | some n =>
    have hn : n ≠ inode := fun hn => h (by rw [hx,hn])
    simp only [Option.map_some,Function.update_of_ne hn]

/-- The descriptor is open on the file the name refers to, stands at its end,
and the file has these bytes. -/
structure Dir.Owns (d : Dir ν) (x : ν) (fd : Descriptor) (data : List UInt8) : Prop where
  entry : d.entry x = some fd.inode
  offset : fd.offset = data.length
  bytes : (d.contents fd.inode).bytes = data

section Owns
variable {d : Dir ν} {x : ν} {fd : Descriptor} {data : List UInt8}

theorem Dir.Owns.write_eq (h : d.Owns x fd data) (more : List UInt8) (o : WriteOutcome) :
    d.write fd more o = (((d.contents fd.inode).write more o).1,
      ⟨fd.inode,fd.offset+((d.contents fd.inode).write more o).1.getD 0⟩,
      d.setContents fd.inode ((d.contents fd.inode).write more o).2) := by
  have hend : fd.offset = (d.contents fd.inode).bytes.length := by rw [h.offset,h.bytes]
  simp only [write,hend,File.writeAt_end]

theorem Dir.Owns.write_contents (h : d.Owns x fd data) (more : List UInt8) (o : WriteOutcome) :
    (d.write fd more o).2.2.contents (d.write fd more o).2.1.inode =
      ((d.contents fd.inode).write more o).2 := by
  rw [h.write_eq]
  exact Function.update_self ..

theorem Dir.Owns.write (h : d.Owns x fd data) {more : List UInt8} {o : WriteOutcome}
    (hw : (d.write fd more o).1 = some more.length) :
    (d.write fd more o).2.2.Owns x (d.write fd more o).2.1 (data ++ more) := by
  rw [h.write_eq more o] at hw ⊢
  dsimp only at hw ⊢
  refine ⟨h.entry,?_,?_⟩
  · simp only [hw,h.offset,Option.getD_some,List.length_append]
  · simp only [setContents,Function.update_self,File.write_complete hw,h.bytes]

theorem Dir.Owns.write_file (h : d.Owns x fd data) {y : ν} (hy : y ≠ x) (more : List UInt8)
    (o : WriteOutcome) : (d.write fd more o).2.2.file y = d.file y :=
  setContents_file (fun hn => hy (d.distinct y x fd.inode hn h.entry)) _

end Owns

variable [DecidableEq ν]

def Dir.create (d : Dir ν) (x : ν) : Dir ν where
  contents := Function.update d.contents d.next .empty
  next := d.next+1
  entry := Function.update d.entry x (some d.next)
  bound y n h := by
    by_cases hy : y = x
    · rw [hy,Function.update_self] at h
      cases h
      omega
    · rw [Function.update_of_ne hy] at h
      have := d.bound y n h
      omega
  distinct y z n hy hz := by
    by_cases hyx : y = x <;> by_cases hzx : z = x
    · rw [hyx,hzx]
    · rw [hyx,Function.update_self] at hy
      rw [Function.update_of_ne hzx] at hz
      cases hy
      exact absurd (d.bound z _ hz) (Nat.lt_irrefl _)
    · rw [hzx,Function.update_self] at hz
      rw [Function.update_of_ne hyx] at hy
      cases hz
      exact absurd (d.bound y _ hy) (Nat.lt_irrefl _)
    · rw [Function.update_of_ne hyx] at hy
      rw [Function.update_of_ne hzx] at hz
      exact d.distinct y z n hy hz

/-- `open` for writing with `O_CREAT` and `O_TRUNC`: an existing file is emptied
under the descriptors that are open on it. -/
def Dir.openTrunc (d : Dir ν) (x : ν) : Descriptor × Dir ν :=
  match d.entry x with
  | some inode => (⟨inode,0⟩,d.setContents inode .empty)
  | none => (⟨d.next,0⟩,d.create x)

def movedEntry (entry : ν → Option Nat) (x y : ν) (inode : Nat) : ν → Option Nat :=
  Function.update (Function.update entry x none) y (some inode)

theorem movedEntry_eq {entry : ν → Option Nat} {x y z : ν} {inode n : Nat}
    (h : movedEntry entry x y inode z = some n) :
    z = y ∧ n = inode ∨ z ≠ y ∧ z ≠ x ∧ entry z = some n := by
  unfold movedEntry at h
  by_cases hy : z = y
  · rw [hy,Function.update_self] at h
    cases h
    exact .inl ⟨hy,rfl⟩
  · rw [Function.update_of_ne hy] at h
    by_cases hx : z = x
    · rw [hx,Function.update_self] at h
      cases h
    · rw [Function.update_of_ne hx] at h
      exact .inr ⟨hy,hx,h⟩

def Dir.move (d : Dir ν) (x y : ν) (inode : Nat) (h : d.entry x = some inode) : Dir ν where
  contents := d.contents
  next := d.next
  entry := movedEntry d.entry x y inode
  bound z n hz := by
    obtain ⟨-,rfl⟩ | ⟨-,-,hz⟩ := movedEntry_eq hz
    · exact d.bound x n h
    · exact d.bound z n hz
  distinct z w n hz hw := by
    obtain ⟨hzy,hn⟩ | ⟨-,hzx,hold⟩ := movedEntry_eq hz <;>
      obtain ⟨hwy,hm⟩ | ⟨-,hwx,hold'⟩ := movedEntry_eq hw
    · rw [hzy,hwy]
    · exact absurd (d.distinct w x n hold' (hn ▸ h)) hwx
    · exact absurd (d.distinct z x n hold (hm ▸ h)) hzx
    · exact d.distinct z w n hold hold'

/-- `rename`; there is no result when the old name does not exist. -/
def Dir.rename (d : Dir ν) (x y : ν) : Option (Dir ν) :=
  match h : d.entry x with
  | none => none
  | some inode => some (d.move x y inode h)

theorem Dir.openTrunc_owns (d : Dir ν) (x : ν) :
    (d.openTrunc x).2.Owns x (d.openTrunc x).1 [] := by
  unfold openTrunc
  split
  · case h_1 inode h =>
    exact ⟨h,rfl,by simp [setContents,File.empty]⟩
  · exact ⟨Function.update_self ..,rfl,by simp [create,File.empty]⟩

theorem Dir.openTrunc_file {d : Dir ν} {x y : ν} (hy : y ≠ x) :
    (d.openTrunc x).2.file y = d.file y := by
  unfold openTrunc
  split
  · case h_1 inode h =>
    exact setContents_file (fun hn => hy (d.distinct y x inode hn h)) .empty
  · show (Function.update d.entry x (some d.next) y).map _ = (d.entry y).map d.contents
    rw [Function.update_of_ne hy]
    cases hn : d.entry y with
    | none => rfl
    | some n =>
      have hlt := d.bound y n hn
      simp only [create,Option.map_some,Function.update_of_ne (Nat.ne_of_lt hlt)]

/-- What the owner wrote is what the new name shows. -/
theorem Dir.Owns.rename {d : Dir ν} {x : ν} {fd : Descriptor} {data : List UInt8}
    (h : d.Owns x fd data) (y : ν) :
    ∃ d', d.rename x y = some d' ∧ d'.file y = some (d.contents fd.inode) := by
  unfold Dir.rename
  split
  · case h_1 hnone => cases h.entry.symm.trans hnone
  · case h_2 inode hsome =>
    cases h.entry.symm.trans hsome
    refine ⟨_,rfl,?_⟩
    simp only [file,move,movedEntry,Function.update_self,Option.map_some]

end PosixDir
