import FinancialLedger.PosixDir
set_option autoImplicit false

/-!
A directory over a power failure. What a process sees is in memory; on disk there is
the contents of a file as of its last `fsync`, and the directory as it was at some
moment since its own last `fsync`. Of a file that was changed after its last `fsync`
nothing is known.
-/

namespace PosixDir
open PosixFile

structure Disk (ν : Type) where
  now : Dir ν
  clean : Nat → Bool
  entries : List (ν → Option Nat)
  current : now.entry ∈ entries
  known : ∀ entry ∈ entries, ∀ x n, entry x = some n → n < now.next

variable {ν : Type}

def Disk.settled (d : Dir ν) : Disk ν where
  now := d
  clean := fun _ => true
  entries := [d.entry]
  current := List.mem_singleton_self _
  known _ h := List.mem_singleton.mp h ▸ d.bound

/-- What the name may show after a failure. -/
def Disk.AfterCrash (k : Disk ν) (x : ν) (found : Option File) : Prop :=
  ∃ entry ∈ k.entries,
    match entry x with
    | none => found = none
    | some n => ∃ f, found = some f ∧ (k.clean n = true → f = k.now.contents n)

def Disk.write (k : Disk ν) (fd : Descriptor) (data : List UInt8) (o : WriteOutcome) :
    Option Nat × Descriptor × Disk ν :=
  let written := k.now.write fd data o
  (written.1,written.2.1,
    { now := written.2.2
      clean := Function.update k.clean fd.inode false
      entries := k.entries
      current := k.current
      known := k.known })

def Disk.fsync (k : Disk ν) (inode : Nat) : Disk ν :=
  { k with clean := Function.update k.clean inode true }

def Disk.fsyncDir (k : Disk ν) : Disk ν :=
  { k with
    entries := [k.now.entry]
    current := List.mem_singleton_self _
    known := fun _ h => List.mem_singleton.mp h ▸ k.now.bound }

section Names
variable [DecidableEq ν]

theorem Dir.next_le_openTrunc (d : Dir ν) (x : ν) : d.next ≤ (d.openTrunc x).2.next := by
  unfold openTrunc
  split
  · exact Nat.le_refl _
  · exact Nat.le_succ _

theorem Dir.rename_eq_some {d d' : Dir ν} {x y : ν} (h : d.rename x y = some d') :
    ∃ inode, d.entry x = some inode ∧ d'.entry = movedEntry d.entry x y inode ∧
      d'.contents = d.contents ∧ d'.next = d.next := by
  unfold rename at h
  split at h
  · cases h
  · case h_2 inode hx =>
    cases h
    exact ⟨inode,hx,rfl,rfl,rfl⟩

def Disk.openTrunc (k : Disk ν) (x : ν) : Descriptor × Disk ν :=
  ((k.now.openTrunc x).1,
    { now := (k.now.openTrunc x).2
      clean := Function.update k.clean (k.now.openTrunc x).1.inode false
      entries := k.entries ++ [(k.now.openTrunc x).2.entry]
      current := by simp
      known := by
        intro entry h y n hn
        obtain h | h := List.mem_append.mp h
        · exact Nat.lt_of_lt_of_le (k.known entry h y n hn) (k.now.next_le_openTrunc x)
        · rw [List.mem_singleton.mp h] at hn
          exact Dir.bound _ y n hn })

def Disk.rename (k : Disk ν) (x y : ν) : Option (Disk ν) :=
  match h : k.now.rename x y with
  | none => none
  | some d => some
      { now := d
        clean := k.clean
        entries := k.entries ++ [d.entry]
        current := by simp
        known := by
          intro entry he z n hn
          obtain ⟨-,-,-,-,hnext⟩ := Dir.rename_eq_some h
          obtain he | he := List.mem_append.mp he
          · rw [hnext]
            exact k.known entry he z n hn
          · rw [List.mem_singleton.mp he] at hn
            exact d.bound z n hn }

theorem Disk.rename_eq_some {k k' : Disk ν} {x y : ν} (h : k.rename x y = some k') :
    k.now.rename x y = some k'.now ∧ k'.clean = k.clean ∧
      k'.entries = k.entries ++ [k'.now.entry] := by
  unfold rename at h
  split at h
  · cases h
  · case h_2 d hd =>
    cases h
    exact ⟨hd,rfl,rfl⟩

theorem Disk.rename_eq_none {k : Disk ν} {x y : ν} (h : k.rename x y = none) :
    k.now.rename x y = none := by
  unfold rename at h
  split at h
  · case h_1 hd => exact hd
  · cases h

end Names

/-- Whenever the power fails, the name shows something with the property. -/
structure Disk.Holds (k : Disk ν) (x : ν) (P : Option File → Prop) : Prop where
  absent : ∀ entry ∈ k.entries, entry x = none → P none
  present : ∀ entry ∈ k.entries, ∀ n, entry x = some n →
    k.clean n = true ∧ P (some (k.now.contents n))

/-- The file that one name refers to now is not one the other may show. -/
def Disk.Private (k : Disk ν) (x y : ν) : Prop :=
  ∀ n, k.now.entry y = some n → ∀ entry ∈ k.entries, entry x ≠ some n

namespace Disk.Holds

variable {k k' : Disk ν} {x y : ν} {P Q : Option File → Prop}

theorem afterCrash (h : k.Holds x P) {found : Option File} (hf : k.AfterCrash x found) :
    P found := by
  obtain ⟨entry,hentry,hfound⟩ := hf
  split at hfound
  · case h_1 hx =>
    rw [hfound]
    exact h.absent entry hentry hx
  · case h_2 n hx =>
    obtain ⟨f,rfl,hclean⟩ := hfound
    obtain ⟨hn,hP⟩ := h.present entry hentry n hx
    rwa [hclean hn]

theorem imp (h : k.Holds x P) (hPQ : ∀ found, P found → Q found) : k.Holds x Q :=
  ⟨fun entry he hx => hPQ _ (h.absent entry he hx),
    fun entry he n hx => ⟨(h.present entry he n hx).1,hPQ _ (h.present entry he n hx).2⟩⟩

theorem settled {d : Dir ν} (h : P (d.file x)) : (Disk.settled d).Holds x P := by
  refine ⟨fun entry he hx => ?_,fun entry he n hx => ⟨rfl,?_⟩⟩
  · rw [List.mem_singleton.mp he] at hx
    rwa [Dir.file,hx] at h
  · rw [List.mem_singleton.mp he] at hx
    rwa [Dir.file,hx] at h

theorem write (h : k.Holds x P) (hp : k.Private x y) {fd : Descriptor}
    (hfd : k.now.entry y = some fd.inode) (data : List UInt8) (o : WriteOutcome) :
    (k.write fd data o).2.2.Holds x P ∧ (k.write fd data o).2.2.Private x y := by
  refine ⟨⟨h.absent,fun entry he n hx => ?_⟩,hp⟩
  have hne : n ≠ fd.inode := fun heq => hp fd.inode hfd entry he (heq ▸ hx)
  simp only [Disk.write,Dir.write,Dir.setContents,Function.update_of_ne hne]
  exact h.present entry he n hx

theorem fsync (h : k.Holds x P) (inode : Nat) : (k.fsync inode).Holds x P := by
  refine ⟨h.absent,fun entry he n hx => ⟨?_,(h.present entry he n hx).2⟩⟩
  rcases eq_or_ne n inode with rfl | hne
  · exact Function.update_self ..
  · exact (Function.update_of_ne hne ..).trans (h.present entry he n hx).1

theorem fsyncDir (h : k.Holds x P) (hp : k.Private x y) :
    k.fsyncDir.Holds x P ∧ k.fsyncDir.Private x y := by
  refine ⟨⟨fun entry he => ?_,fun entry he => ?_⟩,fun n hn entry he => ?_⟩ <;>
    rw [List.mem_singleton.mp he]
  · exact h.absent _ k.current
  · exact h.present _ k.current
  · exact hp n hn _ k.current

theorem fsyncDir_now (h : k.Holds x P) (hQ : Q (k.now.file x)) : k.fsyncDir.Holds x Q := by
  refine ⟨fun entry he hx => ?_,fun entry he n hx => ?_⟩
  · rw [List.mem_singleton.mp he] at hx
    rwa [Dir.file,hx] at hQ
  · rw [List.mem_singleton.mp he] at hx
    refine ⟨(h.present _ k.current n hx).1,?_⟩
    rwa [Dir.file,hx] at hQ

variable [DecidableEq ν]

theorem openTrunc (h : k.Holds x P) (hp : k.Private x y) (hxy : x ≠ y) :
    (k.openTrunc y).2.Holds x P ∧ (k.openTrunc y).2.Private x y := by
  -- the file that is opened is private, or has a number that was never used
  have hnew : ∀ entry ∈ k.entries, entry x ≠ some (k.now.openTrunc y).1.inode := by
    intro entry he hx
    unfold Dir.openTrunc at hx
    split at hx
    · case h_1 inode hy => exact hp inode hy entry he hx
    · exact Nat.lt_irrefl _ (k.known entry he x _ hx)
  have hentry : (k.now.openTrunc y).2.entry x = k.now.entry x := by
    unfold Dir.openTrunc
    split
    · rfl
    · exact Function.update_of_ne hxy ..
  have hcontents : ∀ n, n ≠ (k.now.openTrunc y).1.inode →
      (k.now.openTrunc y).2.contents n = k.now.contents n := by
    intro n hn
    unfold Dir.openTrunc at hn ⊢
    split at hn
    · exact Function.update_of_ne hn ..
    · exact Function.update_of_ne hn ..
  have hmem : ∀ entry ∈ (k.openTrunc y).2.entries, ∃ old ∈ k.entries, entry x = old x := by
    intro entry he
    obtain he | he := List.mem_append.mp he
    · exact ⟨entry,he,rfl⟩
    · exact ⟨k.now.entry,k.current,by rw [List.mem_singleton.mp he,hentry]⟩
  have howns : (k.now.openTrunc y).2.entry y = some (k.now.openTrunc y).1.inode :=
    (k.now.openTrunc_owns y).entry
  refine ⟨⟨fun entry he hx => ?_,fun entry he n hx => ?_⟩,fun n hn entry he => ?_⟩
  · obtain ⟨old,hold,heq⟩ := hmem entry he
    exact h.absent old hold (heq ▸ hx)
  · obtain ⟨old,hold,heq⟩ := hmem entry he
    rw [heq] at hx
    have hne : n ≠ (k.now.openTrunc y).1.inode := fun hn => hnew old hold (hn ▸ hx)
    obtain ⟨hclean,hP⟩ := h.present old hold n hx
    refine ⟨(Function.update_of_ne hne ..).trans hclean,?_⟩
    show P (some ((k.now.openTrunc y).2.contents n))
    rwa [hcontents n hne]
  · cases howns.symm.trans hn
    obtain ⟨old,hold,heq⟩ := hmem entry he
    rw [heq]
    exact hnew old hold

/-- A file that is on disk moves to the name: it or what was there is found. -/
theorem rename (h : k.Holds x P) {n : Nat} (hn : k.now.entry y = some n)
    (hclean : k.clean n = true) (hP : P (some (k.now.contents n))) (hxy : x ≠ y)
    (hr : k.rename y x = some k') : k'.Holds x P ∧ k'.Private x y := by
  obtain ⟨hdir,hclean',hentries⟩ := Disk.rename_eq_some hr
  obtain ⟨inode,hy,hentry,hcontents,-⟩ := Dir.rename_eq_some hdir
  cases hy.symm.trans hn
  have hx' : k'.now.entry x = some n := by simp [hentry,movedEntry]
  have hy' : k'.now.entry y = none := by simp [hentry,movedEntry,hxy.symm]
  refine ⟨⟨fun entry he hx => ?_,fun entry he m hx => ?_⟩,fun m hm => ?_⟩
  · rw [hentries] at he
    obtain he | he := List.mem_append.mp he
    · exact h.absent entry he hx
    · rw [List.mem_singleton.mp he,hx'] at hx
      cases hx
  · rw [hentries] at he
    rw [hclean',hcontents]
    obtain he | he := List.mem_append.mp he
    · exact h.present entry he m hx
    · rw [List.mem_singleton.mp he,hx'] at hx
      cases hx
      exact ⟨hclean,hP⟩
  · cases hy'.symm.trans hm

end Disk.Holds

end PosixDir
