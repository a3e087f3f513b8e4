import FinancialLedger.StepRun
set_option autoImplicit false

/-!
One system described by another. The first moves by actions, some of which the
outside sees as events; the second is a relation of labelled steps, where a step
without a label is silent. If every action of the first can be answered by steps of
the second with the same event, every run of the first looks like one of the second.
-/

namespace Simulation

variable {σ α τ ε : Type}

/-- What the outside sees of a run. -/
def trace (step : σ → α → Option σ) (event : σ → α → Option ε) : σ → List α → List ε
  | _, [] => []
  | s, a :: acts => (event s a).toList ++ ((step s a).map (fun t => trace step event t acts)).getD []

/-- Runs of a system of labelled steps, with the labels that are not silent. -/
inductive Runs (Step : τ → Option ε → τ → Prop) : τ → List ε → τ → Prop where
  | refl (s : τ) : Runs Step s [] s
  | step {s t u : τ} {label : Option ε} {events : List ε} :
      Step s label t → Runs Step t events u → Runs Step s (label.toList ++ events) u

variable {Step : τ → Option ε → τ → Prop}

theorem Runs.single {s t : τ} {label : Option ε} (h : Step s label t) :
    Runs Step s label.toList t := by
  have hrun := Runs.step h (.refl t)
  rwa [List.append_nil] at hrun

theorem Runs.trans {s t u : τ} {events events' : List ε} (h : Runs Step s events t)
    (h' : Runs Step t events' u) : Runs Step s (events ++ events') u := by
  induction h with
  | refl s => exact h'
  | step hs _ ih =>
    rw [List.append_assoc]
    exact .step hs (ih h')

/-- A relation that every allowed action keeps by steps with the same event carries
over to whole runs. -/
theorem exec_runs {step : σ → α → Option σ} {event : σ → α → Option ε}
    {guard : σ → α → Prop} (related : σ → τ → Prop)
    (hsim : ∀ s a t b, related s b → guard s a → step s a = some t →
      ∃ c, Runs Step b (event s a).toList c ∧ related t c)
    {s u : σ} {b : τ} {acts : List α} (hs : related s b) (hg : StepRun.Guarded step guard s acts)
    (h : StepRun.exec step s acts = some u) :
    ∃ c, Runs Step b (trace step event s acts) c ∧ related u c := by
  induction acts generalizing s b with
  | nil =>
    cases h
    exact ⟨b,.refl b,hs⟩
  | cons a acts ih =>
    obtain ⟨t,ht,hu⟩ := StepRun.exec_cons.mp h
    obtain ⟨c,hc,hrel⟩ := hsim s a t b hs hg.1 ht
    obtain ⟨d,hd,hend⟩ := ih hrel (hg.2 t ht) hu
    refine ⟨d,?_,hend⟩
    rw [trace,ht]
    exact hc.trans hd

end Simulation
