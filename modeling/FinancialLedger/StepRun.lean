import Mathlib.Logic.Basic
set_option autoImplicit false

/-!
Runs of a system that moves by single actions. An action that is not possible
in a state has no successor there, so the successful executions are exactly the
interleavings the system allows.
-/

namespace StepRun

variable {σ α : Type}

def exec (step : σ → α → Option σ) : σ → List α → Option σ
  | s, [] => some s
  | s, a :: acts => (step s a).bind (fun t => exec step t acts)

theorem exec_cons {step : σ → α → Option σ} {s u : σ} {a : α} {acts : List α} :
    exec step s (a :: acts) = some u ↔ ∃ t, step s a = some t ∧ exec step t acts = some u := by
  simp [exec,Option.bind_eq_some_iff]

theorem exec_append {step : σ → α → Option σ} {s t u : σ} {acts acts' : List α}
    (ht : exec step s acts = some t) (hu : exec step t acts' = some u) :
    exec step s (acts ++ acts') = some u := by
  induction acts generalizing s with
  | nil =>
    cases ht
    exact hu
  | cons a acts ih =>
    obtain ⟨v,hv,ht⟩ := exec_cons.mp ht
    exact exec_cons.mpr ⟨v,hv,ih ht⟩

/-- Every action of the run is taken in a state where `guard` allows it. -/
def Guarded (step : σ → α → Option σ) (guard : σ → α → Prop) : σ → List α → Prop
  | _, [] => True
  | s, a :: acts => guard s a ∧ ∀ t, step s a = some t → Guarded step guard t acts

theorem exec_invariant {step : σ → α → Option σ} {guard : σ → α → Prop} (inv : σ → Prop)
    (hstep : ∀ s a t, inv s → guard s a → step s a = some t → inv t)
    {s u : σ} {acts : List α} (hs : inv s) (hg : Guarded step guard s acts)
    (h : exec step s acts = some u) : inv u := by
  induction acts generalizing s with
  | nil =>
    cases h
    exact hs
  | cons a acts ih =>
    obtain ⟨t,ht,hu⟩ := exec_cons.mp h
    exact ih (hstep s a t hs hg.1 ht) (hg.2 t ht) hu

theorem guarded_true (step : σ → α → Option σ) (s : σ) (acts : List α) :
    Guarded step (fun _ _ => True) s acts := by
  induction acts generalizing s with
  | nil => trivial
  | cons a acts ih => exact ⟨trivial,fun t _ => ih t⟩

theorem guarded_of_mem (step : σ → α → Option σ) {allowed : α → Prop} {acts : List α}
    (h : ∀ a ∈ acts, allowed a) (s : σ) : Guarded step (fun _ a => allowed a) s acts := by
  induction acts generalizing s with
  | nil => trivial
  | cons a acts ih =>
    obtain ⟨ha,hrest⟩ := List.forall_mem_cons.mp h
    exact ⟨ha,fun t _ => ih hrest t⟩

theorem Guarded.and {step : σ → α → Option σ} {guard guard' : σ → α → Prop} {s : σ}
    {acts : List α} (hg : Guarded step guard s acts) (hg' : Guarded step guard' s acts) :
    Guarded step (fun s a => guard s a ∧ guard' s a) s acts := by
  induction acts generalizing s with
  | nil => trivial
  | cons a acts ih => exact ⟨⟨hg.1,hg'.1⟩,fun t ht => ih (hg.2 t ht) (hg'.2 t ht)⟩

/-- Where the invariant gives the property, and a step whose result has the property
is one the guard allows, the guarded runs are those that never lose the property. -/
theorem guarded_iff_always {step : σ → α → Option σ} {guard : σ → α → Prop} (inv post : σ → Prop)
    (hstep : ∀ s a t, inv s → guard s a → step s a = some t → inv t)
    (hpost : ∀ s, inv s → post s)
    (hguard : ∀ s a, inv s → (∀ t, step s a = some t → post t) → guard s a)
    {s : σ} {acts : List α} (hs : inv s) :
    Guarded step guard s acts ↔ ∀ n t, exec step s (acts.take n) = some t → post t := by
  induction acts generalizing s with
  | nil =>
    refine ⟨fun _ n t ht => ?_,fun _ => trivial⟩
    rw [List.take_nil] at ht
    cases ht
    exact hpost s hs
  | cons a acts ih =>
    constructor
    · rintro ⟨ha,hg⟩ n u hu
      cases n with
      | zero =>
        cases hu
        exact hpost s hs
      | succ n =>
        obtain ⟨t,ht,hu⟩ := exec_cons.mp hu
        exact (ih (hstep s a t hs ha ht)).mp (hg t ht) n u hu
    · intro h
      have ha : guard s a := by
        refine hguard s a hs (fun t ht => h 1 t ?_)
        exact exec_cons.mpr ⟨t,ht,rfl⟩
      refine ⟨ha,fun t ht => (ih (hstep s a t hs ha ht)).mpr (fun n u hu => h (n+1) u ?_)⟩
      exact exec_cons.mpr ⟨t,ht,hu⟩

theorem guarded_below {step : σ → α → Option σ} {size : σ → Nat}
    (hgrow : ∀ s a t, step s a = some t → size s ≤ size t) {s u : σ} {acts : List α} {n : Nat}
    (h : exec step s acts = some u) (hb : size u < n) :
    Guarded step (fun s a => ∀ t, step s a = some t → size t < n) s acts := by
  induction acts generalizing s with
  | nil => trivial
  | cons a acts ih =>
    obtain ⟨t,ht,hu⟩ := exec_cons.mp h
    have hle : size t ≤ size u :=
      exec_invariant (fun v => size t ≤ size v)
        (fun v b w hv _ hw => Nat.le_trans hv (hgrow v b w hw)) (Nat.le_refl _)
        (guarded_true step t acts) hu
    refine ⟨fun v hv => ?_,fun v hv => ?_⟩
    · cases ht.symm.trans hv
      omega
    · cases ht.symm.trans hv
      exact ih hu

/-- Where every state short of the goal has an allowed step that brings the rank
down, the goal can be reached. -/
theorem exec_reaches {step : σ → α → Option σ} {guard : σ → α → Prop} (inv goal : σ → Prop)
    (rank : σ → Nat)
    (hstep : ∀ s, inv s → goal s ∨ ∃ a t, guard s a ∧ step s a = some t ∧ inv t ∧ rank t < rank s)
    {s : σ} (hs : inv s) :
    ∃ acts t, Guarded step guard s acts ∧ exec step s acts = some t ∧ goal t := by
  induction hn : rank s using Nat.strongRecOn generalizing s with
  | ind n ih =>
    obtain hgoal | ⟨a,t,ha,ht,hinv,hless⟩ := hstep s hs
    · exact ⟨[],s,trivial,rfl,hgoal⟩
    · obtain ⟨acts,u,hg,hu,hgoal⟩ := ih (rank t) (hn ▸ hless) hinv rfl
      refine ⟨a :: acts,u,⟨ha,fun v hv => ?_⟩,exec_cons.mpr ⟨t,ht,hu⟩,hgoal⟩
      cases ht.symm.trans hv
      exact hg

instance Guarded.decidable (step : σ → α → Option σ) (guard : σ → α → Prop)
    [∀ s a, Decidable (guard s a)] : ∀ s acts, Decidable (Guarded step guard s acts)
  | _, [] => .isTrue trivial
  | s, a :: acts =>
      match h : step s a with
      | none => decidable_of_iff (guard s a)
          ⟨fun hg => ⟨hg,fun _ ht => by cases h.symm.trans ht⟩,And.left⟩
      | some t =>
          have := Guarded.decidable step guard t acts
          decidable_of_iff (guard s a ∧ Guarded step guard t acts)
            ⟨fun hg => ⟨hg.1,fun _ ht => Option.some.inj (h.symm.trans ht) ▸ hg.2⟩,
              fun hg => ⟨hg.1,hg.2 t h⟩⟩

section Total

def Along (f : σ → α → σ) (guard : σ → α → Prop) : σ → List α → Prop
  | _, [] => True
  | s, a :: acts => guard s a ∧ Along f guard (f s a) acts

theorem foldl_invariant {f : σ → α → σ} {guard : σ → α → Prop} (inv : σ → Prop)
    (hstep : ∀ s a, inv s → guard s a → inv (f s a)) {s : σ} {acts : List α} (hs : inv s)
    (hg : Along f guard s acts) : inv (acts.foldl f s) := by
  induction acts generalizing s with
  | nil => exact hs
  | cons a acts ih => exact ih (hstep s a hs hg.1) hg.2

theorem Along.imp {f : σ → α → σ} {guard post : σ → α → Prop} (inv : σ → Prop)
    (hstep : ∀ s a, inv s → guard s a → inv (f s a))
    (hpost : ∀ s a, inv s → guard s a → post s a) {s : σ} {acts : List α} (hs : inv s)
    (hg : Along f guard s acts) : Along f post s acts := by
  induction acts generalizing s with
  | nil => trivial
  | cons a acts ih => exact ⟨hpost s a hs hg.1,ih (hstep s a hs hg.1) hg.2⟩

theorem Along.and {f : σ → α → σ} {guard guard' : σ → α → Prop} {s : σ} {acts : List α}
    (hg : Along f guard s acts) (hg' : Along f guard' s acts) :
    Along f (fun s a => guard s a ∧ guard' s a) s acts := by
  induction acts generalizing s with
  | nil => trivial
  | cons a acts ih => exact ⟨⟨hg.1,hg'.1⟩,ih hg.2 hg'.2⟩

theorem along_append {f : σ → α → σ} {guard : σ → α → Prop} {s : σ} {acts acts' : List α} :
    Along f guard s (acts ++ acts') ↔
      Along f guard s acts ∧ Along f guard (acts.foldl f s) acts' := by
  induction acts generalizing s with
  | nil => simp [Along]
  | cons a acts ih => simp [Along,ih,and_assoc]

theorem Along.snoc {f : σ → α → σ} {guard : σ → α → Prop} {s : σ} {acts : List α} {a : α}
    (hg : Along f guard s acts) (ha : guard (acts.foldl f s) a) :
    Along f guard s (acts ++ [a]) :=
  along_append.mpr ⟨hg,ha,trivial⟩

theorem along_true (f : σ → α → σ) (s : σ) (acts : List α) :
    Along f (fun _ _ => True) s acts := by
  induction acts generalizing s with
  | nil => trivial
  | cons a acts ih => exact ⟨trivial,ih _⟩

end Total

end StepRun
