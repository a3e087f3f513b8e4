import Mathlib.Logic.Function.Basic
import Mathlib.Data.List.Basic
import Mathlib.Data.List.Nodup
set_option autoImplicit false

/-!
Linked lists inside an array: a link field maps each index to the index after
it, and a negative number ends the list. Several lists may run through the same
field as long as they share no index.
-/

namespace IndexChain

def nil : Int := -1

theorem natCast_ne_nil (i : Nat) : (i : Int) ≠ nil := by unfold nil; omega

/-- Following `link` from `head` visits exactly the listed indices, in order. -/
def Linked (link : Nat → Int) : Int → List Nat → Prop
  | head, [] => head = nil
  | head, i :: l => head = i ∧ Linked link (link i) l

theorem linked_nil_iff {link : Nat → Int} {l : List Nat} : Linked link nil l ↔ l = [] := by
  cases l with
  | nil => simp [Linked]
  | cons i l => simp only [Linked,List.cons_ne_nil,iff_false,not_and]
                exact fun h => absurd h.symm (natCast_ne_nil i)

theorem Linked.congr {link link' : Nat → Int} {head : Int} {l : List Nat}
    (h : Linked link head l) (he : ∀ i ∈ l, link' i = link i) : Linked link' head l := by
  induction l generalizing head with
  | nil => exact h
  | cons i l ih =>
    obtain ⟨hi,hl⟩ := h
    refine ⟨hi,?_⟩
    rw [he i (by simp)]
    exact ih hl (fun j hj => he j (by simp [hj]))

theorem Linked.update {link : Nat → Int} {head : Int} {l : List Nat} {i : Nat} (v : Int)
    (h : Linked link head l) (hi : i ∉ l) : Linked (Function.update link i v) head l := by
  apply h.congr
  intro j hj
  have hne : j ≠ i := by
    rintro rfl
    exact hi hj
  exact Function.update_of_ne hne v link

theorem Linked.rest {link : Nat → Int} {head : Int} {before after : List Nat} {i : Nat}
    (h : Linked link head (before ++ i :: after)) : Linked link (link i) after := by
  induction before generalizing head with
  | nil => exact h.2
  | cons j before ih => exact ih h.2

def headIdx : List Nat → Int
  | [] => nil
  | i :: _ => i

theorem Linked.head_eq {link : Nat → Int} {head : Int} {l : List Nat} (h : Linked link head l) :
    head = headIdx l := by
  cases l with
  | nil => exact h
  | cons i l => exact h.1

theorem Linked.link_eq {link : Nat → Int} {head : Int} {before after : List Nat} {i : Nat}
    (h : Linked link head (before ++ i :: after)) : link i = headIdx after := h.rest.head_eq

theorem Linked.remove {link : Nat → Int} {head : Int} {before after : List Nat} {p i : Nat}
    (h : Linked link head (before ++ p :: i :: after))
    (hn : (before ++ p :: i :: after).Nodup) :
    Linked (Function.update link p (link i)) head (before ++ p :: after) := by
  induction before generalizing head with
  | nil =>
    obtain ⟨hp,_,ha⟩ := h
    refine ⟨hp,?_⟩
    rw [Function.update_self]
    have hm : p ∉ after := by
      have := (List.nodup_cons.mp hn).1
      simp_all
    exact ha.update _ hm
  | cons j before ih =>
    obtain ⟨hj,hl⟩ := h
    rw [List.cons_append,List.nodup_cons] at hn
    have hne : j ≠ p := by
      rintro rfl
      exact hn.1 (by simp)
    refine ⟨hj,?_⟩
    rw [Function.update_of_ne hne]
    exact ih hl hn.2

theorem Linked.snoc {link : Nat → Int} {head : Int} {before : List Nat} {p i : Nat}
    (h : Linked link head (before ++ [p])) (hn : (before ++ [p]).Nodup)
    (hi : i ∉ before ++ [p]) :
    Linked (Function.update (Function.update link i nil) p i) head (before ++ [p,i]) := by
  induction before generalizing head with
  | nil =>
    have hne : i ≠ p := by simpa using hi
    refine ⟨h.1,?_,?_⟩
    · rw [Function.update_self]
    · rw [Function.update_of_ne hne,Function.update_self]
      rfl
  | cons j before ih =>
    obtain ⟨hj,hl⟩ := h
    rw [List.cons_append,List.nodup_cons] at hn
    have hjp : j ≠ p := by
      rintro rfl
      exact hn.1 (by simp)
    have hij : j ≠ i := by
      rintro rfl
      exact hi (by simp)
    refine ⟨hj,?_⟩
    rw [Function.update_of_ne hjp,Function.update_of_ne hij]
    exact ih hl hn.2 (fun hc => hi (by simp_all))

theorem Linked.cons {link : Nat → Int} {head : Int} {l : List Nat} {i : Nat}
    (h : Linked link head l) (hi : i ∉ l) :
    Linked (Function.update link i head) i (i :: l) := by
  refine ⟨rfl,?_⟩
  rw [Function.update_self]
  exact h.update _ hi

structure DoublyLinked (next prev : Nat → Int) (head tail : Int) (l : List Nat) : Prop where
  forward : Linked next head l
  backward : Linked prev tail l.reverse

theorem DoublyLinked.prev_eq {next prev : Nat → Int} {head tail : Int} {before after : List Nat}
    {i : Nat} (h : DoublyLinked next prev head tail (before ++ i :: after)) :
    prev i = headIdx before.reverse := by
  have hb := h.backward
  simp only [List.reverse_append,List.reverse_cons,List.append_assoc,
    List.singleton_append] at hb
  exact hb.link_eq

theorem DoublyLinked.update {next prev : Nat → Int} {head tail : Int} {l : List Nat} {i : Nat}
    (v w : Int) (h : DoublyLinked next prev head tail l) (hi : i ∉ l) :
    DoublyLinked (Function.update next i v) (Function.update prev i w) head tail l :=
  ⟨h.forward.update v hi,h.backward.update w (by simpa using hi)⟩

/-- One direction of an unlink: the predecessor, or the head pointer when there
is none, skips the index. `pred` is what the opposite field holds for it. -/
theorem Linked.unlink {link : Nat → Int} {head pred : Int} {before after : List Nat} {i : Nat}
    (h : Linked link head (before ++ i :: after)) (hn : (before ++ i :: after).Nodup)
    (hp : pred = headIdx before.reverse) :
    Linked (if pred ≠ nil then Function.update link pred.toNat (link i) else link)
      (if pred ≠ nil then head else link i) (before ++ after) := by
  rcases List.eq_nil_or_concat before with rfl | ⟨front,p,rfl⟩
  · have hp' : pred = nil := hp
    simpa [hp'] using h.rest
  · have hp' : pred = (p : Int) := by simpa [headIdx] using hp
    have h' : Linked link head (front ++ p :: i :: after) := by simpa using h
    have hn' : (front ++ p :: i :: after).Nodup := by simpa using hn
    subst hp'
    simpa [natCast_ne_nil] using h'.remove hn'

theorem Linked.append {link : Nat → Int} {head last : Int} {l : List Nat} {i : Nat}
    (h : Linked link head l) (hn : l.Nodup) (hi : i ∉ l) (hl : last = headIdx l.reverse) :
    Linked (if last ≠ nil then Function.update (Function.update link i nil) last.toNat i
        else Function.update link i nil)
      (if head = nil then i else head) (l ++ [i]) := by
  rcases List.eq_nil_or_concat l with rfl | ⟨front,p,rfl⟩
  · have hh : head = nil := h
    have hl' : last = nil := hl
    simp [hh,hl',Linked]
  · have hl' : last = (p : Int) := by simpa [headIdx] using hl
    have hh : head ≠ nil := by
      intro hc
      rw [hc,linked_nil_iff] at h
      simp at h
    subst hl'
    simp only [List.concat_eq_append] at h hn hi ⊢
    simpa [natCast_ne_nil,hh] using h.snoc hn hi

theorem DoublyLinked.unlink {next prev : Nat → Int} {head tail : Int} {before after : List Nat}
    {i : Nat} (h : DoublyLinked next prev head tail (before ++ i :: after))
    (hn : (before ++ i :: after).Nodup) :
    DoublyLinked
      (if prev i ≠ nil then Function.update next (prev i).toNat (next i) else next)
      (if next i ≠ nil then Function.update prev (next i).toNat (prev i) else prev)
      (if prev i ≠ nil then head else next i) (if next i ≠ nil then tail else prev i)
      (before ++ after) := by
  refine ⟨h.forward.unlink hn h.prev_eq,?_⟩
  have hb : Linked prev tail (after.reverse ++ i :: before.reverse) := by
    simpa using h.backward
  have hn' : (after.reverse ++ i :: before.reverse).Nodup := by
    simpa using List.nodup_reverse.mpr hn
  have hnext : next i = headIdx after.reverse.reverse := by
    simpa using h.forward.link_eq
  simpa using hb.unlink hn' hnext

theorem DoublyLinked.pushFront {next prev : Nat → Int} {head tail : Int} {l : List Nat} {i : Nat}
    (h : DoublyLinked next prev head tail l) (hn : l.Nodup) (hi : i ∉ l) :
    DoublyLinked (Function.update next i head)
      (if head ≠ nil then Function.update (Function.update prev i nil) head.toNat i
        else Function.update prev i nil)
      i (if tail = nil then i else tail) (i :: l) := by
  refine ⟨h.forward.cons hi,?_⟩
  have hhead : head = headIdx l.reverse.reverse := by simpa using h.forward.head_eq
  simpa using h.backward.append (List.nodup_reverse.mpr hn) (by simpa using hi) hhead

end IndexChain
