import FinancialLedger.Deduplication
set_option autoImplicit false

/-!
What readers see: the published copy is the working copy at a commit, and how far
it may lag behind is exact.
-/

namespace FinancialLedger
open PosixFile Wal

namespace LedgerEngine

section Committed

/-- The requests of a run that were answered with None. -/
def committed (e : LedgerEngine) (ps : List Popped) : List Popped :=
  accepted ps (e.answersTo ps)

variable {e : LedgerEngine} {p : Popped} {ps : List Popped}

theorem committed_cons (e : LedgerEngine) (p : Popped) (ps : List Popped) :
    e.committed (p :: ps) =
      if e.answer p = .none then p :: (e.process p).committed ps
      else (e.process p).committed ps := accepted_cons ..

theorem committed_append (e : LedgerEngine) (ps ps' : List Popped) :
    e.committed (ps ++ ps') = e.committed ps ++ (e.processAll ps).committed ps' := by
  induction ps generalizing e with
  | nil => rfl
  | cons p ps ih =>
    rw [List.cons_append,committed_cons,committed_cons,ih]
    split <;> rfl

theorem committed_snoc (e : LedgerEngine) (ps : List Popped) (p : Popped) :
    (e.committed (ps ++ [p])).length =
      (e.committed ps).length+(if (e.processAll ps).answer p = .none then 1 else 0) := by
  rw [committed_append,List.length_append,committed_cons]
  split <;> rfl

theorem answersTo_take (e : LedgerEngine) (ps : List Popped) (i : Nat) :
    (e.answersTo ps).take i = e.answersTo (ps.take i) := by
  induction ps generalizing e i with
  | nil => rw [List.take_nil]; exact List.take_nil
  | cons p ps ih =>
    cases i with
    | zero => rfl
    | succ i => rw [List.take_succ_cons,answersTo,answersTo,List.take_succ_cons,ih]

theorem committed_take_le (e : LedgerEngine) (ps : List Popped) (i : Nat) :
    (e.committed (ps.take i)).length ≤ (e.committed ps).length := by
  have h := e.committed_append (ps.take i) (ps.drop i)
  rw [List.take_append_drop] at h
  rw [h,List.length_append]
  omega

theorem exists_committed_eq (e : LedgerEngine) {ps : List Popped} {c : Nat}
    (h : c ≤ (e.committed ps).length) :
    ∃ i, i ≤ ps.length ∧ (e.committed (ps.take i)).length = c := by
  induction ps generalizing e c with
  | nil => exact ⟨0,Nat.le_refl _,(Nat.le_zero.mp h).symm⟩
  | cons p ps ih =>
    cases c with
    | zero => exact ⟨0,Nat.zero_le _,rfl⟩
    | succ c =>
      rw [committed_cons] at h
      by_cases hans : e.answer p = .none
      · rw [if_pos hans,List.length_cons] at h
        obtain ⟨i,hi,hc⟩ := ih (e.process p) (Nat.le_of_succ_le_succ h)
        refine ⟨i+1,Nat.succ_le_succ hi,?_⟩
        rw [List.take_succ_cons,committed_cons,if_pos hans,List.length_cons,hc]
      · rw [if_neg hans] at h
        obtain ⟨i,hi,hc⟩ := ih (e.process p) h
        refine ⟨i+1,Nat.succ_le_succ hi,?_⟩
        rw [List.take_succ_cons,committed_cons,if_neg hans,hc]

end Committed

section Published

variable {e : LedgerEngine} {p : Popped} {ps : List Popped}

theorem publishIfDue_published (e : LedgerEngine) : e.publishIfDue.published =
    if e.publishSnapshotEveryN ≤ e.processedSincePublish+1 then e.working else e.published := by
  unfold publishIfDue
  split <;> rfl

/-- The copy is replaced by a commit that fills the period, and by nothing else. -/
theorem process_published_eq (e : LedgerEngine) (p : Popped) :
    (e.process p).published =
      if e.answer p = .none ∧ e.publishSnapshotEveryN ≤ e.processedSincePublish+1 then
        (e.process p).working else e.published := by
  have hworking := e.process_working p
  obtain ⟨hv,hans,hp⟩ | ⟨-,hans,w,f,-,hp⟩ | ⟨-,hans,w,f,-,hp⟩ := e.process_cases p
  · rw [if_neg (fun h => hv (hans ▸ h.1)),hp]
    rfl
  · rw [if_neg (fun h => hans h.1),hp]
    rfl
  · have hpublished : (e.process p).published =
        if e.publishSnapshotEveryN ≤ e.processedSincePublish+1 then
          (e.working.apply p.request.tx).2 else e.published := by
      rw [hp]
      exact publishIfDue_published _
    rw [hworking,if_pos hans,hpublished]
    simp only [hans,true_and]

theorem processAll_snoc (e : LedgerEngine) (ps : List Popped) (p : Popped) :
    e.processAll (ps ++ [p]) = (e.processAll ps).process p := List.foldl_append

/-- What readers see after a run: the copy from before until the first period is
full, then the working copy at the last commit that filled one. -/
structure Lags (e : LedgerEngine) (ps : List Popped) : Prop where
  early : (e.committed ps).length < e.period → (e.processAll ps).published = e.published
  seen : e.period ≤ (e.committed ps).length → ∀ i,
    (e.committed (ps.take i)).length = e.period*((e.committed ps).length/e.period) →
      (e.processAll ps).published = (e.after ps i).working

theorem after_snoc (e : LedgerEngine) (ps : List Popped) (p : Popped) (i : Nat) :
    ((ps ++ [p]).take i = ps.take i ∧ e.after (ps ++ [p]) i = e.after ps i) ∨
    ((ps ++ [p]).take i = ps ++ [p] ∧ e.after (ps ++ [p]) i = (e.processAll ps).process p) := by
  rcases Nat.lt_or_ge ps.length i with hi | hi
  · right
    have htake : (ps ++ [p]).take i = ps ++ [p] := List.take_of_length_le (by simp; omega)
    rw [after,htake]
    exact ⟨rfl,e.processAll_snoc ps p⟩
  · left
    have htake : (ps ++ [p]).take i = ps.take i := List.take_append_of_le_length hi
    rw [after,htake]
    exact ⟨rfl,rfl⟩

theorem mul_div_succ {n k : Nat} (hk : 0 < k) (h : ¬ k ≤ n%k+1) : k*((n+1)/k) = k*(n/k) := by
  have hmod := succ_mod_period n k hk
  rw [if_neg h] at hmod
  have h₁ := Nat.div_add_mod n k
  have h₂ := Nat.div_add_mod (n+1) k
  omega

theorem Lags.snoc (h : Lags e ps)
    (hcounter : (e.processAll ps).processedSincePublish = (e.committed ps).length%e.period)
    (hperiod : (e.processAll ps).period = e.period) (p : Popped) : Lags e (ps ++ [p]) := by
  have hpos := e.period_pos
  have hcount := e.committed_snoc ps p
  have hpublished := (e.processAll ps).process_published_eq p
  have hworking := (e.processAll ps).process_working p
  by_cases hans : (e.processAll ps).answer p = .none
  · -- a commit
    rw [if_pos hans] at hcount
    have hdue := publish_due_iff (hperiod ▸ hcounter)
    rw [hperiod] at hdue
    by_cases hfull : e.period ≤ (e.committed ps).length%e.period+1
    · rw [if_pos ⟨hans,hdue.mpr hfull⟩] at hpublished
      have hzero := succ_mod_period (e.committed ps).length e.period hpos
      rw [if_pos hfull] at hzero
      have hdiv := Nat.div_add_mod ((e.committed ps).length+1) e.period
      refine ⟨?_,?_⟩
      · intro hlt
        rw [hcount] at hlt
        rw [Nat.mod_eq_of_lt hlt] at hzero
        omega
      · -- only the end of the run has this many commits
        intro _ i hi
        rw [hcount] at hi
        obtain ⟨htake,-⟩ | ⟨-,hafter⟩ := e.after_snoc ps p i
        · have hle := e.committed_take_le ps i
          rw [htake] at hi
          omega
        · rw [processAll_snoc,hpublished,hafter]
    · rw [if_neg (fun h => hfull (hdue.mp h.2))] at hpublished
      have hlast := mul_div_succ hpos hfull
      have hdiv := Nat.div_add_mod (e.committed ps).length e.period
      refine ⟨?_,?_⟩
      · intro hlt
        rw [hcount] at hlt
        rw [processAll_snoc,hpublished]
        exact h.early (by omega)
      · intro hle i hi
        rw [hcount] at hle hi
        rw [hlast] at hi
        obtain ⟨htake,hafter⟩ | ⟨htake,-⟩ := e.after_snoc ps p i
        · rw [htake] at hi
          rw [processAll_snoc,hpublished,hafter]
          exact h.seen (full_of_full_succ hfull hle) i hi
        · rw [htake,hcount] at hi
          omega
  · -- anything else moves neither copy
    rw [if_neg hans,Nat.add_zero] at hcount
    rw [if_neg (fun h => hans h.1)] at hpublished
    rw [if_neg hans] at hworking
    refine ⟨?_,?_⟩
    · rw [hcount,processAll_snoc,hpublished]
      exact h.early
    · intro hle i hi
      rw [hcount] at hle hi
      rw [processAll_snoc,hpublished]
      obtain ⟨htake,hafter⟩ | ⟨htake,hafter⟩ := e.after_snoc ps p i
      · rw [htake] at hi
        rw [hafter]
        exact h.seen hle i hi
      · rw [htake,hcount] at hi
        rw [hafter,hworking]
        have hend := h.seen hle ps.length (by rw [List.take_length]; exact hi)
        rwa [after,List.take_length] at hend

theorem processAll_lags (e : LedgerEngine) (hstart : e.processedSincePublish = 0)
    (ps : List Popped) : Lags e ps := by
  have hpublishes := Publishes.start hstart
  induction ps using List.reverseRecOn with
  | nil =>
    exact ⟨fun _ => rfl,fun h => absurd h (Nat.not_le.mpr (period_pos _))⟩
  | append_singleton ps p ih =>
    have hcounter := (hpublishes.processAll ps).counter
    rw [List.nil_append,List.length_map,processAll_period] at hcounter
    exact ih.snoc hcounter (e.processAll_period ps) p

end Published

end LedgerEngine

end FinancialLedger
