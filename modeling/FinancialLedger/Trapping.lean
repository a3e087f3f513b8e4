import Mathlib.Data.List.Basic
set_option autoImplicit false

/-!
A computation whose steps may trap. Next to its result stands the list of the operations
it performs; it traps at the first one that is not allowed.
-/

namespace Trapping

variable {τ α β : Type} (P : τ → Prop) [DecidablePred P]

/-- The result, if all the operations on the way to it are allowed. -/
def guarded (ops : List τ) (a : α) : Option α := if ∀ x ∈ ops, P x then some a else none

@[simp] theorem guarded_nil (a : α) : guarded P [] a = some a := by simp [guarded]

theorem guarded_eq_some {ops : List τ} {a : α} :
    guarded P ops a = some a ↔ ∀ x ∈ ops, P x := by
  simp [guarded]

@[simp] theorem map_guarded (ops : List τ) (a : α) (f : α → β) :
    (guarded P ops a).map f = guarded P ops (f a) := by
  unfold guarded
  split <;> rfl

theorem guarded_map {υ : Type} (g : υ → τ) (ops : List υ) (a : α) :
    guarded P (ops.map g) a = guarded (fun x => P (g x)) ops a := by
  simp only [guarded,List.forall_mem_map]

/-- Operations of a second computation come behind those of the first. -/
theorem bind_guarded {ops ops' : List τ} {a : α} {b : β} {f : α → Option β}
    (h : f a = guarded P ops' b) : (guarded P ops a).bind f = guarded P (ops ++ ops') b := by
  unfold guarded at h ⊢
  by_cases hops : ∀ x ∈ ops, P x
  · rw [if_pos hops,Option.bind_some,h]
    refine if_congr ?_ rfl rfl
    rw [List.forall_mem_append]
    exact (and_iff_right hops).symm
  · rw [if_neg hops,if_neg (fun hall => hops (List.forall_mem_append.mp hall).1),Option.bind_none]

theorem bind_guarded_cons {x : τ} {ops : List τ} {a : α} {b : β} {f : α → Option β}
    (h : f a = guarded P ops b) : (guarded P [x] a).bind f = guarded P (x :: ops) b :=
  bind_guarded P h

end Trapping
