import Mathlib.Data.List.Basic
import Mathlib.Data.List.Nodup
import Mathlib.Data.Finset.Card
set_option autoImplicit false

/-!
A bounded set with least-recently-used eviction, as the list of its members
from the most to the least recently used one.
-/

namespace LruSet

variable {κ : Type} [DecidableEq κ]

/-- Ask for `k`: was it there? Either way it is in front afterwards, and a full
set has dropped its last member for a new one. -/
def touch (capacity : Nat) (l : List κ) (k : κ) : Bool × List κ :=
  if k ∈ l then (true,k :: l.erase k)
  else (false,k :: (if l.length < capacity then l else l.dropLast))

def run (capacity : Nat) : List κ → List κ → List Bool × List κ
  | l, [] => ([],l)
  | l, k :: ks =>
      let r := run capacity (touch capacity l k).2 ks
      ((touch capacity l k).1 :: r.1,r.2)

theorem touch_length_le {capacity : Nat} {l : List κ} (hc : 0 < capacity)
    (hl : l.length ≤ capacity) (k : κ) : (touch capacity l k).2.length ≤ capacity := by
  unfold touch
  by_cases hk : k ∈ l
  · have := List.length_erase_of_mem hk
    have := List.length_pos_of_mem hk
    simp only [if_pos hk,List.length_cons]
    omega
  · simp only [if_neg hk,List.length_cons]
    split
    · omega
    · simp only [List.length_dropLast]
      omega

theorem touch_nodup {capacity : Nat} {l : List κ} (hn : l.Nodup) (k : κ) :
    (touch capacity l k).2.Nodup := by
  unfold touch
  by_cases hk : k ∈ l
  · simp only [if_pos hk]
    exact List.nodup_cons.mpr ⟨hn.not_mem_erase,hn.erase k⟩
  · simp only [if_neg hk]
    split
    · exact List.nodup_cons.mpr ⟨hk,hn⟩
    · exact List.nodup_cons.mpr ⟨fun h => hk (List.dropLast_subset l h),
        hn.sublist (List.dropLast_sublist l)⟩

theorem run_bounded {capacity : Nat} {l : List κ} (hc : 0 < capacity)
    (hl : l.length ≤ capacity) (hn : l.Nodup) (ks : List κ) :
    (run capacity l ks).2.length ≤ capacity ∧ (run capacity l ks).2.Nodup := by
  induction ks generalizing l with
  | nil => exact ⟨hl,hn⟩
  | cons k ks ih => exact ih (touch_length_le hc hl k) (touch_nodup hn k)

theorem mem_touch {capacity : Nat} {l : List κ} {k x : κ} (h : x ∈ (touch capacity l k).2) :
    x = k ∨ x ∈ l := by
  unfold touch at h
  split at h
  · exact (List.mem_cons.mp h).imp id List.mem_of_mem_erase
  · refine (List.mem_cons.mp h).imp id (fun hx => ?_)
    split at hx
    · exact hx
    · exact List.dropLast_subset l hx

theorem mem_touch_self (capacity : Nat) (l : List κ) (k : κ) : k ∈ (touch capacity l k).2 := by
  unfold touch
  split
  · exact List.mem_cons_self
  · exact List.mem_cons_self

theorem mem_run {capacity : Nat} {l ks : List κ} {x : κ} (h : x ∈ (run capacity l ks).2) :
    x ∈ l ∨ x ∈ ks := by
  induction ks generalizing l with
  | nil => exact .inl h
  | cons k ks ih =>
    obtain hx | hx := ih h
    · obtain rfl | hx := mem_touch hx
      · exact .inr List.mem_cons_self
      · exact .inl hx
    · exact .inr (List.mem_cons_of_mem k hx)

theorem mem_touch_of_card_le {capacity : Nat} {l : List κ} {k x : κ} (hn : l.Nodup)
    (hcard : (k :: l).toFinset.card ≤ capacity) (hx : x ∈ l) : x ∈ (touch capacity l k).2 := by
  unfold touch
  by_cases hk : k ∈ l
  · rw [if_pos hk]
    by_cases hxk : x = k
    · exact hxk ▸ List.mem_cons_self
    · exact List.mem_cons_of_mem k ((List.mem_erase_of_ne hxk).mpr hx)
  · have hlen := List.toFinset_card_of_nodup (List.nodup_cons.mpr ⟨hk,hn⟩)
    rw [List.length_cons] at hlen
    rw [if_neg hk,if_pos (by omega)]
    exact List.mem_cons_of_mem k hx

/-- A touch that does not drop `k` puts at most one member in front of it. -/
theorem touch_split {capacity : Nat} {front rest : List κ} {k : κ}
    (hn : (front ++ k :: rest).Nodup) (x : κ) :
    (∃ front' rest', (touch capacity (front ++ k :: rest) x).2 = front' ++ k :: rest' ∧
      ∀ y ∈ front', y = x ∨ y ∈ front) ∨
    x ∉ front ++ k :: rest ∧ rest = [] ∧ capacity ≤ front.length+1 := by
  unfold touch
  by_cases hx : x ∈ front ++ k :: rest
  · left
    simp only [if_pos hx]
    by_cases hfront : x ∈ front
    · refine ⟨x :: front.erase x,rest,by rw [List.erase_append_left _ hfront]; rfl,?_⟩
      intro y hy
      exact (List.mem_cons.mp hy).imp id List.mem_of_mem_erase
    · by_cases hk : x = k
      · refine ⟨[],front ++ rest,?_,nofun⟩
        rw [List.erase_append_right _ hfront,hk,List.erase_cons_head,List.nil_append]
      · refine ⟨x :: front,rest.erase x,?_,fun y hy => List.mem_cons.mp hy⟩
        rw [List.erase_append_right _ hfront,List.erase_cons_tail (by simpa using Ne.symm hk)]
        rfl
  · simp only [if_neg hx]
    by_cases hroom : (front ++ k :: rest).length < capacity
    · left
      exact ⟨x :: front,rest,by rw [if_pos hroom]; rfl,fun y hy => List.mem_cons.mp hy⟩
    · rw [if_neg hroom]
      cases rest with
      | nil =>
        right
        refine ⟨hx,rfl,?_⟩
        rw [List.length_append,List.length_singleton] at hroom
        omega
      | cons r rest =>
        left
        refine ⟨x :: front,(r :: rest).dropLast,?_,fun y hy => List.mem_cons.mp hy⟩
        rw [List.dropLast_append_cons,List.dropLast_cons_cons]
        rfl

/-- A member is dropped only after as many others as fit, counting those in front
of it. -/
theorem card_of_dropped {capacity : Nat} {front rest ks : List κ} {k : κ}
    (hn : (front ++ k :: rest).Nodup) (h : k ∉ (run capacity (front ++ k :: rest) ks).2) :
    capacity ≤ ((front ++ ks).toFinset.erase k).card := by
  induction ks generalizing front rest with
  | nil => exact absurd (List.mem_append_right front List.mem_cons_self) h
  | cons x ks ih =>
    have hn' : (touch capacity (front ++ k :: rest) x).2.Nodup := touch_nodup hn x
    obtain ⟨front',rest',htouch,hfront⟩ | ⟨hx,rfl,hfull⟩ := touch_split hn x
    · rw [run] at h
      rw [htouch] at hn' h
      refine Nat.le_trans (ih hn' h) (Finset.card_le_card (Finset.erase_subset_erase k ?_))
      intro y hy
      simp only [List.mem_toFinset,List.mem_append,List.mem_cons] at hy ⊢
      obtain hy | hy := hy
      · obtain rfl | hy := hfront y hy
        · exact .inr (.inl rfl)
        · exact .inl hy
      · exact .inr (.inr hy)
    · -- `k` was the last of a full list
      have hk : k ∉ x :: front := by
        intro hk
        obtain rfl | hk := List.mem_cons.mp hk
        · exact hx (List.mem_append_right front List.mem_cons_self)
        · exact List.disjoint_of_nodup_append hn hk List.mem_cons_self
      have hnew : (x :: front).Nodup :=
        List.nodup_cons.mpr ⟨fun hx' => hx (List.mem_append_left _ hx'),hn.of_append_left⟩
      calc capacity ≤ (x :: front).length := hfull
        _ = (x :: front).toFinset.card := (List.toFinset_card_of_nodup hnew).symm
        _ ≤ _ := by
            apply Finset.card_le_card
            intro y hy
            have hy := List.mem_toFinset.mp hy
            refine Finset.mem_erase.mpr ⟨fun hyk => hk (hyk ▸ hy),List.mem_toFinset.mpr ?_⟩
            obtain rfl | hy := List.mem_cons.mp hy
            · exact List.mem_append_right front List.mem_cons_self
            · exact List.mem_append_left _ hy

theorem card_of_dropped_touch {capacity : Nat} {l ks : List κ} {k : κ} (hn : l.Nodup)
    (h : k ∉ (run capacity (touch capacity l k).2 ks).2) :
    capacity ≤ (ks.toFinset.erase k).card := by
  have hn' : (touch capacity l k).2.Nodup := touch_nodup hn k
  obtain ⟨rest,hrest⟩ : ∃ rest, (touch capacity l k).2 = [] ++ k :: rest := by
    unfold touch
    split
    · exact ⟨_,rfl⟩
    · exact ⟨_,rfl⟩
  rw [hrest] at hn' h
  exact card_of_dropped hn' h

end LruSet
