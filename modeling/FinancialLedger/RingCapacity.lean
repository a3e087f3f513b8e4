import FinancialLedger.RingInvariant
set_option autoImplicit false

/-!
How many items the queue holds, and when it hands one out.
-/

namespace FinancialLedger.RingBuffer

variable {α : Type}

/-- No call of `try_push` has started and not returned. -/
def Ring.Quiet (r : Ring α) : Prop := ∀ p, r.producers p = .idle

def Ring.tryPop (r : Ring α) : Ring α := r.consumerStep.consumerStep.consumerStep

/-- At most `capacity` accepted items wait; and when every push has returned, no
`try_pop` is under way and an item waits, `try_pop` succeeds. -/
def Ring.Bounded (capacity : Nat) (r : Ring α) : Prop :=
  r.claimed.length ≤ r.popped.length+capacity ∧
  (r.Quiet → r.consumer = .idle → r.popped.length < r.claimed.length →
    r.tryPop.popped.length = r.popped.length+1)

theorem Ring.Laps.tryPop_eq {r : Ring α} {k : Nat} (h : r.Laps k)
    (hclaim : ∀ p, (r.producers p).claim = none) (hidle : r.consumer = .idle)
    (hlt : r.popped.length < r.claimed.length) :
    r.tryPop = { r.setCell r.dequeuePos
        { r.cell r.dequeuePos with sequence := wrap (r.dequeuePos+r.mask+1) } with
      dequeuePos := wrap (r.dequeuePos+1)
      consumer := .idle
      popped := r.popped ++ [(r.cell r.dequeuePos).data] } := by
  have hseq : (r.cell r.popped.length).sequence = wrap (r.popped.length+1) := by
    rcases h.cells r.popped.length h.inLap_popped with ⟨hle,-⟩ | ⟨-,-,p,item,hc⟩ | hpub
    · omega
    · simp [hclaim p] at hc
    · exact hpub.2.1
  have hcheck : r.consumerStep = { r with consumer := .readData } := by
    have hzero := h.diff_eq_zero_iff.mpr ⟨hlt,hseq⟩
    simp only [Ring.consumerStep,hidle,hzero,ne_eq,not_true_eq_false,if_false]
  rw [tryPop,hcheck]
  rfl

theorem Ring.Laps.tryPop_popped {r : Ring α} {k : Nat} (h : r.Laps k) (hq : r.Quiet)
    (hidle : r.consumer = .idle) (hlt : r.popped.length < r.claimed.length) :
    r.tryPop.popped.length = r.popped.length+1 := by
  rw [h.tryPop_eq (fun p => by rw [hq p]; rfl) hidle hlt]
  exact List.length_append

theorem Ring.Laps.bounded {r : Ring α} {k : Nat} (h : r.Laps k) : r.Bounded (2^k) :=
  ⟨h.power ▸ h.room,h.tryPop_popped⟩

theorem Ring.Laps.fresh {r : Ring α} {k : Nat} (h : r.Laps k) {a : Action α}
    (hb : ∀ r', r.step a = some r' → r'.Bounded (2^k)) : r.Fresh a := by
  intro pos hpos
  obtain ⟨p,item,rfl,hp,rfl⟩ := claims_eq_some hpos
  have hlt : r.claimed.length+1 ≤ r.popped.length+2^k := by
    have hroom := (hb _ (step_claims hp)).1
    rwa [List.length_append] at hroom
  rw [← h.power] at hlt
  have hbehind := h.behind
  rw [h.enqueue,h.cell_wrap]
  exact ⟨h.free hlt,fun hone => by omega⟩

theorem Ring.Inv.guarded_fresh {r u : Ring α} {acts : List (Action α)} (h : r.Inv)
    (hu : StepRun.exec Ring.step r acts = some u) (hb : u.claimed.length < 2^63) :
    StepRun.Guarded Ring.step Ring.Fresh r acts := by
  induction acts generalizing r with
  | nil => trivial
  | cons a acts ih =>
    refine ⟨h.fresh a,fun t ht => ?_⟩
    obtain ⟨t',ht',hu⟩ := StepRun.exec_cons.mp hu
    cases ht.symm.trans ht'
    have hle : t.claimed.length ≤ u.claimed.length :=
      StepRun.exec_invariant (fun v => t.claimed.length ≤ v.claimed.length)
        (fun _ _ _ hs _ hv => Nat.le_trans hs (Ring.claimed_prefix_step hv).length_le)
        (Nat.le_refl _) (StepRun.guarded_true _ t acts) hu
    exact ih (h.step ht (by omega)) hu

/-- A run keeps to the capacity, and `try_pop` finds what waits, exactly when every
compare-exchange that succeeds takes a cell that is still free, and in a queue of
one cell an empty queue. Two cells and fewer than `2^63` pushes are enough. -/
theorem Ring.bounded_iff_fresh {k : Nat} (hk : k ≤ 63) (acts : List (Action α)) :
    ((∀ n r, StepRun.exec Ring.step (Ring.new (2^k)) (acts.take n) = some r → r.Bounded (2^k)) ↔
      StepRun.Guarded Ring.step Ring.Fresh (Ring.new (2^k)) acts) ∧
    (1 ≤ k → ∀ r, StepRun.exec Ring.step (Ring.new (2^k)) acts = some r →
      r.claimed.length < 2^63 → StepRun.Guarded Ring.step Ring.Fresh (Ring.new (2^k)) acts) := by
  constructor
  · exact (StepRun.guarded_iff_always (Ring.Laps · k) (Ring.Bounded (2^k))
      (fun _ _ _ h hfresh hs => h.step hfresh hs) (fun _ h => h.bounded)
      (fun _ _ h hb => h.fresh hb) (Ring.Laps.new hk)).symm
  · intro hone r hr hb
    exact (Ring.Inv.new hone hk).guarded_fresh hr hb

theorem Ring.bounded_iff_fresh_race :
    ∃ r, StepRun.exec Ring.step (Ring.new (2^1)) raceOfTwo = some r ∧ r.Bounded (2^1) := by
  obtain ⟨r,hr⟩ := Option.isSome_iff_exists.mp
    (show (StepRun.exec Ring.step (Ring.new (2^1)) raceOfTwo).isSome = true by decide)
  refine ⟨r,hr,(Ring.bounded_iff_fresh (by decide) raceOfTwo).1.mpr (by decide)
    raceOfTwo.length r ?_⟩
  rwa [List.take_length]

def pushTwice : List (Action Nat) :=
  .tryPush 0 7 :: List.replicate 6 (.producer 0 false) ++
    .tryPush 0 8 :: List.replicate 6 (.producer 0 false)

theorem Ring.bounded_one_fails :
    ∃ r, StepRun.exec Ring.step (Ring.new (2^0)) pushTwice = some r ∧ r.claimed = [7,8] ∧
      r.popped = [] ∧ r.producers 0 matches .idle ∧ r.tryPop.popped = [] ∧ ¬ r.Bounded (2^0) := by
  have hrun : (StepRun.exec Ring.step (Ring.new (2^0)) pushTwice).map
      (fun r => (r.claimed,r.popped,(r.producers 0 matches .idle : Bool),r.tryPop.popped)) =
        some ([7,8],[],true,[]) := by decide
  obtain ⟨r,hr,he⟩ := Option.map_eq_some_iff.mp hrun
  simp only [Prod.mk.injEq] at he
  obtain ⟨hclaimed,hpopped,hidle,hpop⟩ := he
  refine ⟨r,hr,hclaimed,hpopped,hidle,hpop,fun hb => ?_⟩
  have hroom := hb.1
  rw [hclaimed,hpopped] at hroom
  exact absurd hroom (by decide)

section Refusals

def Ring.PushRefused (r : Ring α) (p : Nat) : Prop :=
  (r.producers p).claim = none ∧
    ∃ spurious r', r.step (.producer p spurious) = some r' ∧ r'.producers p = .idle

/-- The consumer's next access is a whole call: `try_pop` returns false. -/
def Ring.PopRefused (r : Ring α) : Prop := r.consumer = .idle ∧ r.consumerStep.consumer = .idle

theorem Ring.pushRefused_iff {r : Ring α} {p : Nat} :
    r.PushRefused p ↔ ∃ item pos, r.producers p = .loadSeq item pos ∧
      diff (r.cell pos).sequence pos < 0 := by
  constructor
  · rintro ⟨hclaim,spurious,r',hs,hidle⟩
    simp only [Ring.step,Ring.producerStep] at hs
    cases hpc : r.producers p with
    | idle => simp [hpc] at hs
    | loadPos item =>
      simp only [hpc,Option.some.injEq] at hs
      simp [← hs] at hidle
    | loadSeq item pos =>
      refine ⟨item,pos,rfl,?_⟩
      simp only [hpc] at hs
      split at hs
      · cases hs
        simp at hidle
      · split at hs
        · case isTrue hneg => exact hneg
        · cases hs
          simp at hidle
    | compareExchange item pos =>
      simp only [hpc] at hs
      split at hs
      · cases hs
        simp at hidle
      · cases hs
        simp at hidle
    | beginWrite item pos => simp [hpc,Producer.claim] at hclaim
    | endWrite item pos => simp [hpc,Producer.claim] at hclaim
    | storeSeq item pos => simp [hpc,Producer.claim] at hclaim
  · rintro ⟨item,pos,hpc,hneg⟩
    refine ⟨by simp [hpc,Producer.claim],false,r.goto p .idle,?_,by simp⟩
    have hzero : ¬ diff (r.cell pos).sequence pos = 0 := by omega
    simp [Ring.step,Ring.producerStep,hpc,hzero,hneg]

theorem Ring.Laps.exists_inLap {r : Ring α} {k : Nat} (h : r.Laps k) (pos : Nat) :
    ∃ q, r.InLap q ∧ r.cell q = r.cell pos ∧ (q < pos → q+(r.mask+1) ≤ pos) := by
  have hm : r.mask = 2^k-1 := Nat.eq_sub_of_add_eq h.power
  have hpos : 0 < r.mask+1 := by omega
  let q := r.popped.length+(pos+r.mask*r.popped.length)%(r.mask+1)
  have hmod : q%(r.mask+1) = pos%(r.mask+1) := by
    have hsum : r.popped.length+(pos+r.mask*r.popped.length) =
        pos+(r.mask+1)*r.popped.length := by
      rw [Nat.add_mul,Nat.one_mul]
      omega
    rw [Nat.add_mod_mod,hsum,Nat.add_mul_mod_self_left]
  refine ⟨q,⟨Nat.le_add_right _ _,Nat.add_lt_add_left (Nat.mod_lt _ hpos) _⟩,?_,?_⟩
  · rw [cell,cell,hm,Nat.and_two_pow_sub_one_eq_mod,Nat.and_two_pow_sub_one_eq_mod,← h.power,hmod]
  · intro hlt
    obtain ⟨laps,hlaps⟩ := Nat.dvd_of_mod_eq_zero (Nat.sub_mod_eq_zero_of_mod_eq hmod.symm)
    cases laps with
    | zero => omega
    | succ laps =>
      rw [Nat.mul_succ] at hlaps
      omega

theorem Ring.Laps.full_of_diff_neg {r : Ring α} {k : Nat} (h : r.Laps k)
    (hb : r.claimed.length < 2^63) (hlap : r.popped.length+(r.mask+1) ≤ 2^63) {pos : Nat}
    (hpos : pos ≤ r.claimed.length) (hd : diff (r.cell pos).sequence pos < 0) :
    r.claimed.length = r.popped.length+(r.mask+1) := by
  obtain ⟨q,hq,hcell,hapart⟩ := h.exists_inLap pos
  have hroom := h.room
  have hbehind := hq.1
  have hahead := hq.2
  -- the sequence is the position's or one more, and short of the sign bit
  have hseq : q ≤ (r.cell q).sequence ∧ (r.cell q).sequence < 2^63 := by
    rcases h.cells q hq with ⟨-,hs⟩ | ⟨-,hs,-⟩ | ⟨hl,hs,-⟩
    · rw [hs,wrap_of_lt (by omega)]
      omega
    · rw [hs,wrap_of_lt (by omega)]
      omega
    · rw [hs,wrap_of_lt (by omega)]
      omega
  rw [← hcell,diff,Int.bmod_def] at hd
  have hlt : q < pos := by omega
  have := hapart hlt
  omega

theorem Ring.Laps.unpublished_of_popRefused {r : Ring α} {k : Nat} (h : r.Laps k)
    (hpop : r.PopRefused) : r.claimed.length = r.popped.length ∨
      ∃ p item, (r.producers p).claim = some (item,wrap r.popped.length) := by
  obtain ⟨hidle,hafter⟩ := hpop
  have hnot : ¬ (r.popped.length < r.claimed.length ∧
      (r.cell r.popped.length).sequence = wrap (r.popped.length+1)) := by
    intro hpub
    have hzero := h.diff_eq_zero_iff.mpr hpub
    simp [Ring.consumerStep,hidle,hzero] at hafter
  have hbehind := h.behind
  rcases h.cells r.popped.length h.inLap_popped with ⟨hle,-⟩ | ⟨-,-,hclaim⟩ | ⟨hlt,hs,-⟩
  · exact .inl (by omega)
  · exact .inr hclaim
  · exact absurd ⟨hlt,hs⟩ hnot

theorem Ring.exec_laps {k : Nat} (hk : 1 ≤ k) (hk' : k ≤ 63) {acts : List (Action α)}
    {r : Ring α} (h : StepRun.exec Ring.step (Ring.new (2^k)) acts = some r)
    (hb : r.claimed.length < 2^63) : r.Laps k :=
  StepRun.exec_invariant (Ring.Laps · k) (fun _ _ _ h hfresh hs => h.step hfresh hs)
    (Ring.Laps.new hk') ((Ring.Inv.new hk hk').guarded_fresh h hb) h

/-- A push is refused only by a full queue, as long as the current lap ends before
the sign bit of a position; and a pop only by an empty queue or by one whose oldest
position is claimed and not yet published. -/
theorem Ring.refusals_exact {k : Nat} (hk : 1 ≤ k) (hk' : k ≤ 63) {acts : List (Action α)}
    {r : Ring α} (h : StepRun.exec Ring.step (Ring.new (2^k)) acts = some r)
    (hb : r.claimed.length < 2^63) :
    (∀ p, r.PushRefused p → r.popped.length+2^k ≤ 2^63 →
      r.claimed.length = r.popped.length+2^k) ∧
    (r.PopRefused → r.claimed.length = r.popped.length ∨
      ∃ p item, (r.producers p).claim = some (item,r.popped.length)) := by
  have hlaps := Ring.exec_laps hk hk' h hb
  constructor
  · intro p hp hlap
    obtain ⟨item,pos,hpc,hd⟩ := Ring.pushRefused_iff.mp hp
    have hpos := (Ring.exec_inv hk hk' h hb).positions p
    simp only [Ring.Positions,hpc] at hpos
    rw [← hlaps.power] at hlap ⊢
    exact hlaps.full_of_diff_neg hb hlap hpos hd
  · intro hpop
    have hbehind := hlaps.behind
    have hpopped := hlaps.unpublished_of_popRefused hpop
    rwa [wrap_of_lt (by omega)] at hpopped

def pushThird : List (Action Nat) := pushTwice ++ [.tryPush 0 9,.producer 0 false]

theorem Ring.refusals_exact_third :
    ∃ r, StepRun.exec Ring.step (Ring.new (2^1)) pushThird = some r ∧ r.PushRefused 0 ∧
      r.claimed.length = r.popped.length+2^1 := by
  have hrun : (StepRun.exec Ring.step (Ring.new (2^1)) pushThird).map
      (fun r => (r.claimed,r.popped,(r.cell 2).sequence,
        match r.producers 0 with | .loadSeq item pos => some (item,pos) | _ => none)) =
        some ([7,8],[],1,some (9,2)) := by decide
  obtain ⟨r,hr,he⟩ := Option.map_eq_some_iff.mp hrun
  simp only [Prod.mk.injEq] at he
  obtain ⟨hclaimed,hpopped,hseq,hpc⟩ := he
  have hrefused : r.PushRefused 0 := by
    refine Ring.pushRefused_iff.mpr ⟨9,2,?_,by rw [hseq]; decide⟩
    split at hpc
    · cases hpc
      assumption
    · cases hpc
  have hb : r.claimed.length < 2^63 := by
    rw [hclaimed]
    decide
  refine ⟨r,hr,hrefused,(Ring.refusals_exact (by decide) (by decide) hr hb).1 0 hrefused ?_⟩
  rw [hpopped]
  decide

theorem Ring.exec_pushAlone {r : Ring α} {p : Nat} (item : α) (hp : r.producers p = .idle)
    (hd : diff (r.cell r.enqueuePos).sequence r.enqueuePos = 0) :
    StepRun.exec Ring.step r (.tryPush p item :: List.replicate 6 (.producer p false)) =
      some { r.setCell r.enqueuePos ⟨wrap (r.enqueuePos+1),some item⟩ with
        enqueuePos := wrap (r.enqueuePos+1)
        claimed := r.claimed ++ [item] } := by
  have hd' : diff (r.buffer (r.enqueuePos &&& r.mask)).sequence r.enqueuePos = 0 := hd
  have hback : Function.update r.producers p .idle = r.producers := by
    rw [← hp,Function.update_eq_self]
  simp [StepRun.exec,List.replicate,Ring.step,Ring.producerStep,hp,hd',hback,Ring.goto,
    Ring.setCell,Ring.cell]

structure Ring.Asleep (r : Ring Nat) (n : Nat) : Prop where
  claimed : r.claimed.length = n
  popped : r.popped.length = n
  consumer : r.consumer = .idle
  sleeper : r.producers 0 = .loadSeq 8 0
  others : ∀ p, p ≠ 0 → r.producers p = .idle

theorem Ring.Asleep.claim {r : Ring Nat} {n : Nat} (h : r.Asleep n) (p : Nat) :
    (r.producers p).claim = none := by
  rcases eq_or_ne p 0 with rfl | hp
  · simp [h.sleeper,Producer.claim]
  · simp [h.others p hp,Producer.claim]

theorem Ring.exists_asleep {k : Nat} (hk : 1 ≤ k) (hk' : k ≤ 63) {n : Nat} (hn : n < 2^63) :
    ∃ acts r, StepRun.exec Ring.step (Ring.new (2^k)) acts = some r ∧ r.Asleep n := by
  induction n with
  | zero =>
    refine ⟨[.tryPush 0 8,.producer 0 false],_,rfl,rfl,rfl,rfl,?_,?_⟩
    · rw [goto_producers_self]
      rfl
    · intro p hp
      rw [goto_producers_ne _ _ hp,goto_producers_ne _ _ hp]
      rfl
  | succ n ih =>
    obtain ⟨acts,r,hr,h⟩ := ih (by omega)
    have hclaimed := h.claimed
    have hpopped := h.popped
    have hlaps := Ring.exec_laps hk hk' hr (by omega)
    have hd : diff (r.cell r.enqueuePos).sequence r.enqueuePos = 0 := by
      rw [hlaps.enqueue,hlaps.cell_wrap,hlaps.free (by omega)]
      simp [diff]
    have hpush := StepRun.exec_append hr (Ring.exec_pushAlone 7 (h.others 1 (by decide)) hd)
    have hlen : (r.claimed ++ [7]).length = n+1 := by
      rw [List.length_append,hclaimed]
      rfl
    have hbound : (r.claimed ++ [7]).length < 2^63 := by omega
    have hwaits : r.popped.length < (r.claimed ++ [7]).length := by omega
    have hpop := (Ring.exec_laps hk hk' hpush hbound).tryPop_eq h.claim h.consumer hwaits
    have hall := StepRun.exec_append hpush (show StepRun.exec Ring.step _
      [.consumer,.consumer,.consumer] = some (Ring.tryPop _) from rfl)
    rw [hpop] at hall
    refine ⟨_,_,hall,hlen,?_,rfl,h.sleeper,h.others⟩
    rw [List.length_append,← hpopped]
    rfl

/-- A producer slept through `2^63-3` pushes to a queue of four cells, all of them
popped. To its position 0 the free cell, at position `2^63`, looks full. -/
theorem Ring.refused_empty : ∃ (acts : List (Action Nat)) (r : Ring Nat),
    StepRun.exec Ring.step (Ring.new (2^2)) acts = some r ∧ r.PushRefused 0 ∧
      r.claimed.length = 2^63-3 ∧ r.popped.length = 2^63-3 := by
  obtain ⟨acts,r,hr,h⟩ := Ring.exists_asleep (k := 2) (n := 2^63-3) (by decide) (by decide) (by decide)
  have hclaimed := h.claimed
  have hpopped := h.popped
  have hlaps := Ring.exec_laps (by decide) (by decide) hr (by omega)
  have hmask : r.mask = 3 := Nat.succ.inj hlaps.power
  have hseq : (r.cell 0).sequence = 2^63 := by
    have hcell : r.cell 0 = r.cell (2^63) := by simp [Ring.cell,hmask]
    have hin : r.InLap (2^63) := by
      unfold InLap
      omega
    rcases hlaps.cells (2^63) hin with ⟨-,hs⟩ | ⟨hlt,-⟩ | ⟨hlt,-⟩
    · rw [hcell,hs]
      rfl
    · omega
    · omega
  refine ⟨acts,r,hr,Ring.pushRefused_iff.mpr ⟨8,0,h.sleeper,?_⟩,hclaimed,hpopped⟩
  rw [hseq]
  decide

end Refusals

end FinancialLedger.RingBuffer
