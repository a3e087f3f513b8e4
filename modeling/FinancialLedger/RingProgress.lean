import FinancialLedger.RingInvariant
set_option autoImplicit false

/-!
Why a producer goes round the loop of `try_push` again: each time, some push has
gone through since it last looked.
-/

namespace FinancialLedger.RingBuffer

variable {α : Type}

/-- What an action is for one producer: it finds a cell ahead of its position or the
position gone, its weak compare-exchange fails for no reason, or it claims. -/
inductive Turn where
  | overtaken
  | failed
  | claims
  | other
  deriving DecidableEq

def Ring.turn (r : Ring α) (p : Nat) : Action α → Turn
  | .producer q spurious =>
      if q = p then
        match r.producers p with
        | .loadSeq _ pos => if 0 < diff (r.cell pos).sequence pos then .overtaken else .other
        | .compareExchange _ pos =>
            if r.enqueuePos ≠ pos then .overtaken else if spurious then .failed else .claims
        | _ => .other
      else .other
  | _ => .other

def Ring.counts (p : Nat) (kind : Turn) (r : Ring α) (a : Action α) : Nat :=
  if r.turn p a = kind then 1 else 0

/-- How many claims `p` knows of: those before the position it has loaded, or all
of them when it is about to load one. -/
def Ring.known (r : Ring α) (p : Nat) : Nat :=
  match r.producers p with
  | .loadSeq _ pos => pos
  | .compareExchange _ pos => pos
  | _ => r.claimed.length

section Known

variable {r r' : Ring α} {p : Nat}

/-- A cell that is ahead of the position shows that the position is claimed. -/
theorem Ring.Inv.claimed_of_diff_pos (h : r.Inv) (hb : r.claimed.length < 2^63) {pos : Nat}
    (hpos : pos ≤ r.claimed.length) (hd : 0 < diff (r.cell pos).sequence pos) :
    pos < r.claimed.length := by
  by_contra hge
  have hnext : pos = r.claimed.length := by omega
  have hbehind := h.behind
  have htwo := h.two
  have hseq : (r.cell pos).sequence ≤ pos := by
    rcases Nat.lt_or_ge pos (r.popped.length+(r.mask+1)) with hlap | hlap
    · rcases h.cells pos (by omega) hlap with ⟨-,hs⟩ | ⟨hl,-⟩ | ⟨hl,-⟩
      · exact Nat.le_of_eq hs
      · omega
      · omega
    · have hroom := h.room
      obtain ⟨k,hk⟩ := h.power
      have hfull : pos = r.popped.length+(r.mask+1) := by omega
      have hcell : r.cell pos = r.cell r.popped.length := by
        rw [cell,hfull,and_mask_next_lap hk,cell]
      rw [hcell]
      rcases h.cells r.popped.length (Nat.le_refl _) (by omega) with ⟨-,hs⟩ | ⟨-,hs,-⟩ | ⟨-,hs,-⟩
      · omega
      · omega
      · omega
  rw [diff,Int.bmod_def] at hd
  omega

theorem Ring.producerStep_others {q : Nat} {spurious : Bool}
    (hs : r.producerStep q spurious = some r') {p : Nat} (hp : p ≠ q) :
    r'.producers p = r.producers p := by
  simp only [Ring.producerStep] at hs
  split at hs
  all_goals try split at hs
  all_goals try split at hs
  all_goals cases hs
  all_goals exact goto_producers_ne _ _ hp

theorem Ring.consumerStep_producers (r : Ring α) : r.consumerStep.producers = r.producers := by
  unfold consumerStep
  split
  · split <;> rfl
  · rfl
  · rfl

theorem Ring.consumerStep_claimed (r : Ring α) : r.consumerStep.claimed = r.claimed := by
  unfold consumerStep
  split
  · split <;> rfl
  · rfl
  · rfl

theorem Ring.producerStep_consumer {spurious : Bool} (h : r.producerStep p spurious = some r') :
    r'.consumer = r.consumer := by
  simp only [Ring.producerStep] at h
  split at h
  all_goals try split at h
  all_goals try split at h
  all_goals cases h
  all_goals rfl

theorem Ring.step_claimed_le {a : Action α} (h : r.step a = some r') :
    r'.claimed.length ≤ r.claimed.length+1 := by
  cases a with
  | tryPush p item =>
    simp only [Ring.step] at h
    split at h
    · cases h
      exact Nat.le_succ _
    · cases h
  | producer p spurious =>
    simp only [Ring.step,Ring.producerStep] at h
    split at h
    all_goals try split at h
    all_goals try split at h
    all_goals cases h
    all_goals simp [goto,setCell]
  | consumer =>
    cases h
    rw [consumerStep_claimed]
    exact Nat.le_succ _

end Known

def overtaking : List (Action Nat) :=
  [.tryPush 0 7,.producer 0 false,.producer 0 false,.tryPush 1 8,.producer 1 false,
    .producer 1 false,.producer 1 false,.producer 0 false]

section Alone

variable {r r' : Ring α} {p : Nat}

/-- The accesses that `p` still makes in its call if nobody comes in between: a
position that is no longer the next one costs it another round. -/
def Ring.accessesLeft (r : Ring α) (p : Nat) : Nat :=
  match r.producers p with
  | .idle => 0
  | .loadPos _ => 6
  | .loadSeq _ pos => if pos = r.claimed.length then 5 else 7
  | .compareExchange _ pos => if pos = r.claimed.length then 4 else 6
  | .beginWrite _ _ => 3
  | .endWrite _ _ => 2
  | .storeSeq _ _ => 1

theorem Ring.accessesLeft_le (r : Ring α) (p : Nat) : r.accessesLeft p ≤ 7 := by
  unfold accessesLeft
  split
  all_goals try split
  all_goals omega

theorem Ring.accessesLeft_frame {n : Nat} (hp : r'.producers p = r.producers p)
    (hclaimed : r'.claimed.length = r.claimed.length+n) :
    r'.accessesLeft p ≤ r.accessesLeft p+2*n := by
  unfold accessesLeft
  rw [hp,hclaimed]
  cases r.producers p with
  | loadSeq item pos =>
    dsimp only
    split <;> split <;> omega
  | compareExchange item pos =>
    dsimp only
    split <;> split <;> omega
  | _ => exact Nat.le_add_right _ _

theorem Ring.exists_producerStep (hp : r.producers p ≠ .idle) (spurious : Bool) :
    ∃ r', r.producerStep p spurious = some r' := by
  unfold producerStep
  split
  · case h_1 hidle => exact absurd hidle hp
  all_goals try dsimp only
  all_goals try split
  all_goals try split
  all_goals exact ⟨_,rfl⟩

theorem Ring.Inv.accessesLeft_step (h : r.Inv) (hb : r.claimed.length < 2^63)
    (hs : r.producerStep p false = some r') : r'.accessesLeft p < r.accessesLeft p := by
  have hpositions := h.positions p
  have henq := h.enqueue
  unfold Positions at hpositions
  unfold producerStep at hs
  unfold accessesLeft
  cases hp : r.producers p with
  | idle => simp [hp] at hs
  | loadPos item =>
    simp only [hp,Option.some.injEq] at hs
    subst hs
    simp [goto,henq]
  | loadSeq item pos =>
    simp only [hp] at hs hpositions ⊢
    split at hs
    · cases hs
      by_cases hnext : pos = r.claimed.length
      · simp [goto,hnext]
      · simp [goto,hnext]
    · split at hs
      · cases hs
        simp only [goto,Function.update_self]
        split <;> omega
      · case isFalse hzero hneg =>
        cases hs
        have hlt := h.claimed_of_diff_pos hb hpositions (by omega)
        simp only [goto,Function.update_self]
        rw [if_neg (by omega)]
        omega
  | compareExchange item pos =>
    simp only [hp] at hs ⊢
    split at hs
    · cases hs
      simp only [goto,Function.update_self]
      split <;> omega
    · case isFalse hcas =>
      cases hs
      have hne : pos ≠ r.claimed.length := fun he => hcas ⟨by omega,trivial⟩
      simp only [goto,Function.update_self,henq,if_true]
      rw [if_neg hne]
      omega
  | beginWrite item pos =>
    simp only [hp,Option.some.injEq] at hs
    subst hs
    simp [goto]
  | endWrite item pos =>
    simp only [hp,Option.some.injEq] at hs
    subst hs
    simp [goto]
  | storeSeq item pos =>
    simp only [hp,Option.some.injEq] at hs
    subst hs
    simp [goto]

theorem Ring.Inv.runs_alone {n : Nat} (h : r.Inv) (hb : r.claimed.length+n < 2^63)
    (hn : r.accessesLeft p ≤ n) :
    ∃ m r', m ≤ n ∧ StepRun.exec Ring.step r (List.replicate m (.producer p false)) = some r' ∧
      r'.producers p = .idle := by
  induction n generalizing r with
  | zero =>
    refine ⟨0,r,Nat.le_refl _,rfl,?_⟩
    unfold accessesLeft at hn
    split at hn
    · assumption
    all_goals try split at hn
    all_goals omega
  | succ n ih =>
    by_cases hidle : r.producers p = .idle
    · exact ⟨0,r,Nat.zero_le _,rfl,hidle⟩
    · obtain ⟨u,hu⟩ := exists_producerStep hidle false
      have hless := h.accessesLeft_step (by omega) hu
      have hgrow := step_claimed_le (a := .producer p false) hu
      have hinv := h.step (a := .producer p false) hu (by omega)
      obtain ⟨m,r',hm,hrun,hend⟩ := ih hinv (by omega) (by omega)
      exact ⟨m+1,r',by omega,StepRun.exec_cons.mpr ⟨u,hu,hrun⟩,hend⟩

end Alone

/-- `try_push` is obstruction-free: wherever the other threads have stopped, and even
if one of them holds a claimed position, a producer that runs alone is out of its
call after at most seven accesses. -/
theorem Ring.push_returns_alone {k : Nat} (hk : 1 ≤ k) (hk' : k ≤ 63)
    {before : List (Action α)} {r : Ring α}
    (hr : StepRun.exec Ring.step (Ring.new (2^k)) before = some r)
    (hb : r.claimed.length+7 < 2^63) (p : Nat) :
    ∃ n r', n ≤ 7 ∧ StepRun.exec Ring.step r (List.replicate n (.producer p false)) = some r' ∧
      r'.producers p = .idle :=
  (Ring.exec_inv hk hk' hr (by omega)).runs_alone hb (r.accessesLeft_le p)

theorem Ring.push_returns_alone_overtaken :
    ∃ r, StepRun.exec Ring.step (Ring.new (2^1)) (overtaking.take 7) = some r ∧
      ∃ n r', n ≤ 7 ∧ StepRun.exec Ring.step r (List.replicate n (.producer 0 false)) = some r' ∧
        r'.producers 0 = .idle := by
  have hrun : (StepRun.exec Ring.step (Ring.new (2^1)) (overtaking.take 7)).map
      (fun r => r.claimed) = some [8] := by decide
  obtain ⟨r,hr,hclaimed⟩ := Option.map_eq_some_iff.mp hrun
  exact ⟨r,hr,Ring.push_returns_alone (by decide) (by decide) hr (by rw [hclaimed]; decide) 0⟩

end FinancialLedger.RingBuffer
