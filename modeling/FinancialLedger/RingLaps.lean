import Mathlib.Tactic.ByContra
import FinancialLedger.RingBuffer
set_option autoImplicit false

/-!
What every access to the queue keeps, over runs of any length: positions and
sequence numbers are `size_t` values that wrap, and a producer may sleep inside a
call for as long as it likes.
-/

namespace FinancialLedger.RingBuffer

variable {α : Type}

def Producer.claim : Producer α → Option (α × Nat)
  | .beginWrite item pos => some (item,pos)
  | .endWrite item pos => some (item,pos)
  | .storeSeq item pos => some (item,pos)
  | _ => none

def Ring.claims (r : Ring α) : Action α → Option Nat
  | .producer p false =>
      match r.producers p with
      | .compareExchange _ pos => if r.enqueuePos = pos then some pos else none
      | _ => none
  | _ => none

/-- Where a compare-exchange succeeds, the cell has the sequence its producer saw
there; and a queue of one cell is empty then. -/
def Ring.Fresh (r : Ring α) (a : Action α) : Prop :=
  ∀ pos ∈ r.claims a, (r.cell pos).sequence = pos ∧
    (r.mask = 0 → r.claimed.length = r.popped.length)

instance (r : Ring α) (a : Action α) : Decidable (r.Fresh a) :=
  inferInstanceAs (Decidable (∀ pos ∈ r.claims a, _))

theorem Ring.claims_eq_some {r : Ring α} {a : Action α} {pos : Nat} (h : r.claims a = some pos) :
    ∃ p item, a = .producer p false ∧ r.producers p = .compareExchange item pos ∧
      r.enqueuePos = pos := by
  unfold claims at h
  split at h
  · case h_1 p =>
    split at h
    · case h_1 item q hp =>
      split at h
      · case isTrue he =>
        cases h
        exact ⟨p,item,rfl,hp,he⟩
      · cases h
    · cases h
  · cases h

theorem Ring.step_claims {r : Ring α} {p : Nat} {item : α}
    (hp : r.producers p = .compareExchange item r.enqueuePos) :
    r.step (.producer p false) = some { r.goto p (.beginWrite item r.enqueuePos) with
      enqueuePos := wrap (r.enqueuePos+1)
      claimed := r.claimed ++ [item] } := by
  simp [Ring.step,Ring.producerStep,hp]

section Counters

theorem and_mask_ne {mask k base q q' : Nat} (hk : mask+1 = 2^k) (hq : base ≤ q)
    (hq' : base ≤ q') (hl : q < base+(mask+1)) (hl' : q' < base+(mask+1)) (hne : q ≠ q') :
    q &&& mask ≠ q' &&& mask := by
  have hm : mask = 2^k-1 := by omega
  rw [hm,Nat.and_two_pow_sub_one_eq_mod,Nat.and_two_pow_sub_one_eq_mod,← hk]
  intro h
  -- two positions of one lap with the same cell differ by a multiple of the lap
  have hd := Nat.div_add_mod q (mask+1)
  have hd' := Nat.div_add_mod q' (mask+1)
  rcases Nat.lt_trichotomy (q/(mask+1)) (q'/(mask+1)) with hlt | heq | hgt
  · have := Nat.mul_le_mul_left (mask+1) (Nat.succ_le_of_lt hlt)
    rw [Nat.mul_succ] at this
    omega
  · rw [heq] at hd
    omega
  · have := Nat.mul_le_mul_left (mask+1) (Nat.succ_le_of_lt hgt)
    rw [Nat.mul_succ] at this
    omega

theorem and_mask_next_lap {mask k : Nat} (hk : mask+1 = 2^k) (q : Nat) :
    (q+(mask+1)) &&& mask = q &&& mask := by
  have hm : mask = 2^k-1 := by omega
  rw [hm,Nat.and_two_pow_sub_one_eq_mod,Nat.and_two_pow_sub_one_eq_mod,← hm,hk,
    Nat.add_mod_right]

theorem wrap_of_lt {n : Nat} (h : n < 2^64) : wrap n = n := Nat.mod_eq_of_lt h

theorem wrap_lt (a : Nat) : wrap a < 2^64 := Nat.mod_lt a (by omega)

theorem wrap_inj {a b : Nat} (h : wrap a = wrap b) (hle : a ≤ b) (hlt : b < a+2^64) : a = b := by
  unfold wrap at h
  omega

theorem wrap_wrap_add (a b : Nat) : wrap (wrap a+b) = wrap (a+b) := Nat.mod_add_mod a _ b

theorem wrap_succ_ne (a : Nat) : wrap (a+1) ≠ wrap a := by
  unfold wrap
  omega

theorem diff_eq_zero {seq pos : Nat} (hs : seq < 2^64) (hp : pos < 2^64) :
    diff seq pos = 0 ↔ seq = pos := by
  unfold diff
  constructor
  · intro h
    have hd := Int.dvd_of_bmod_eq_zero h
    omega
  · rintro rfl
    simp

end Counters

@[simp] theorem setCell_cell (r : Ring α) (q : Nat) (c : Cell α) : (r.setCell q c).cell q = c := by
  simp [Ring.setCell,Ring.cell]

@[simp] theorem goto_cell (r : Ring α) (p : Nat) (next : Producer α) (q : Nat) :
    (r.goto p next).cell q = r.cell q := rfl

@[simp] theorem goto_producers_self (r : Ring α) (p : Nat) (next : Producer α) :
    (r.goto p next).producers p = next := by
  simp [Ring.goto]

theorem goto_producers_ne (r : Ring α) {p p' : Nat} (next : Producer α) (h : p' ≠ p) :
    (r.goto p next).producers p' = r.producers p' := by
  simp [Ring.goto,h]

theorem goto_claim (r : Ring α) (p p' : Nat) (next : Producer α)
    (h : next.claim = (r.producers p).claim) :
    ((r.goto p next).producers p').claim = (r.producers p').claim := by
  rcases eq_or_ne p' p with rfl | hne
  · rw [goto_producers_self,h]
  · rw [goto_producers_ne r next hne]

theorem getElem?_grow {l l' : List α} (h : l <+: l') {q : Nat} {x : α}
    (hx : l[q]? = some x) : l'[q]? = some x := by
  obtain ⟨t,rfl⟩ := h
  rw [List.getElem?_append_left (List.getElem?_eq_some_iff.mp hx).1,hx]

def Ring.InLap (r : Ring α) (q : Nat) : Prop :=
  r.popped.length ≤ q ∧ q < r.popped.length+(r.mask+1)

/-- A position of the current lap is free, claimed, or published. -/
def Ring.Stage (r : Ring α) (q : Nat) : Prop :=
  (r.claimed.length ≤ q ∧ (r.cell q).sequence = wrap q) ∨
  (q < r.claimed.length ∧ (r.cell q).sequence = wrap q ∧
    ∃ p item, (r.producers p).claim = some (item,wrap q)) ∨
  (q < r.claimed.length ∧ (r.cell q).sequence = wrap (q+1) ∧ (r.cell q).data = r.claimed[q]?)

/-- What a producer between its claim and its publication can rely on. -/
def Ring.Owns (r : Ring α) (p : Nat) (item : α) (q : Nat) : Prop :=
  r.popped.length ≤ q ∧ r.claimed[q]? = some item ∧ (r.cell q).sequence = wrap q ∧
    (r.producers p = .storeSeq item (wrap q) → (r.cell q).data = some item)

/-- The positions `popped.length`, …, `popped.length+mask` occupy the cells one
to one, and each cell's sequence says which stage its position is in. -/
structure Ring.Laps (r : Ring α) (k : Nat) : Prop where
  size : k ≤ 63
  power : r.mask+1 = 2^k
  enqueue : r.enqueuePos = wrap r.claimed.length
  dequeue : r.dequeuePos = wrap r.popped.length
  behind : r.popped.length ≤ r.claimed.length
  room : r.claimed.length ≤ r.popped.length+(r.mask+1)
  cells : ∀ q, r.InLap q → r.Stage q
  owners : ∀ p item pos, (r.producers p).claim = some (item,pos) →
    ∃ q, pos = wrap q ∧ r.Owns p item q
  unique : ∀ p p' item item' pos, (r.producers p).claim = some (item,pos) →
    (r.producers p').claim = some (item',pos) → p = p'
  checked : r.consumer ≠ .idle → r.popped.length < r.claimed.length ∧
    (r.cell r.popped.length).sequence = wrap (r.popped.length+1)
  taken : ∀ out, r.consumer = .storeSeq out → out = r.claimed[r.popped.length]?
  history : r.popped = (r.claimed.take r.popped.length).map some

section Laps
variable {r : Ring α} {k : Nat}

theorem Ring.Laps.small (h : r.Laps k) : r.mask+1 ≤ 2^63 := by
  rw [h.power]
  exact Nat.pow_le_pow_right (by omega) h.size

theorem Ring.Laps.wrap_and_mask (h : r.Laps k) (q : Nat) : wrap q &&& r.mask = q &&& r.mask := by
  have hm : r.mask = 2^k-1 := Nat.eq_sub_of_add_eq h.power
  have hdvd : 2^k ∣ 2^64 := Nat.pow_dvd_pow 2 (Nat.le_succ_of_le h.size)
  rw [hm,Nat.and_two_pow_sub_one_eq_mod,Nat.and_two_pow_sub_one_eq_mod,wrap,
    Nat.mod_mod_of_dvd q hdvd]

theorem Ring.Laps.cell_wrap (h : r.Laps k) (q : Nat) : r.cell (wrap q) = r.cell q := by
  rw [cell,h.wrap_and_mask,cell]

theorem Ring.Laps.setCell_wrap (h : r.Laps k) (q : Nat) (c : Cell α) :
    r.setCell (wrap q) c = r.setCell q c := by
  rw [setCell,h.wrap_and_mask,setCell]

theorem Ring.Laps.setCell_cell_ne (h : r.Laps k) {q q' : Nat} (c : Cell α) (hq : r.InLap q)
    (hq' : r.InLap q') (hne : q' ≠ q) : (r.setCell q c).cell q' = r.cell q' := by
  show Function.update r.buffer (q &&& r.mask) c (q' &&& r.mask) = r.buffer (q' &&& r.mask)
  exact Function.update_of_ne (and_mask_ne h.power hq'.1 hq.1 hq'.2 hq.2 hne) c r.buffer

theorem Ring.Laps.wrap_inj (h : r.Laps k) {q q' : Nat} (hq : r.InLap q) (hq' : r.InLap q')
    (he : wrap q = wrap q') : q = q' := by
  have hsmall := h.small
  obtain ⟨hq,hl⟩ := hq
  obtain ⟨hq',hl'⟩ := hq'
  rcases Nat.le_total q q' with hle | hle
  · exact RingBuffer.wrap_inj he hle (by omega)
  · exact (RingBuffer.wrap_inj he.symm hle (by omega)).symm

theorem Ring.Owns.lt {p q : Nat} {item : α} (h : r.Owns p item q) : q < r.claimed.length :=
  (List.getElem?_eq_some_iff.mp h.2.1).1

theorem Ring.Laps.inLap (h : r.Laps k) {p q : Nat} {item : α} (hown : r.Owns p item q) :
    r.InLap q := ⟨hown.1,Nat.lt_of_lt_of_le hown.lt h.room⟩

theorem Ring.Laps.inLap_popped (_ : r.Laps k) : r.InLap r.popped.length :=
  ⟨Nat.le_refl _,by omega⟩

theorem Ring.Laps.sequence_lt (h : r.Laps k) {q : Nat} (hq : r.InLap q) :
    (r.cell q).sequence < 2^64 := by
  rcases h.cells q hq with ⟨-,hs⟩ | ⟨-,hs,-⟩ | ⟨-,hs,-⟩
  all_goals
    rw [hs]
    exact wrap_lt _

theorem Ring.Laps.goto (h : r.Laps k) {p : Nat} {next : Producer α}
    (hold : (r.producers p).claim = none) (hnext : next.claim = none) :
    (r.goto p next).Laps k := by
  have hclaim (p' : Nat) := goto_claim r p p' next (hnext.trans hold.symm)
  exact { h with
    cells := by
      intro q hq
      have hstage := h.cells q hq
      unfold Stage at hstage ⊢
      simp only [hclaim,goto_cell]
      exact hstage
    owners := by
      intro p' item pos hc
      rw [hclaim] at hc
      have hne : p' ≠ p := by
        rintro rfl
        cases hold.symm.trans hc
      unfold Owns
      rw [goto_producers_ne r next hne]
      exact h.owners p' item pos hc
    unique := by
      intro p1 p2 item item' pos h1 h2
      rw [hclaim] at h1 h2
      exact h.unique p1 p2 item item' pos h1 h2 }

/-- A cell whose sequence is in place for the next position is free, unless the
queue has a single cell with an item in it. -/
theorem Ring.Laps.room_of_fresh (h : r.Laps k)
    (hseq : (r.cell r.claimed.length).sequence = wrap r.claimed.length)
    (hone : r.mask = 0 → r.claimed.length = r.popped.length) :
    r.claimed.length < r.popped.length+(r.mask+1) := by
  have hroom := h.room
  have hsmall := h.small
  by_contra hge
  -- a full queue: the next position shares its cell with the oldest item
  have hfull : r.claimed.length = r.popped.length+(r.mask+1) := by omega
  rw [hfull,cell,and_mask_next_lap h.power] at hseq
  rcases h.cells r.popped.length h.inLap_popped with ⟨hle,-⟩ | ⟨-,hs,-⟩ | ⟨-,hs,-⟩
  · omega
  · have := RingBuffer.wrap_inj (hs.symm.trans hseq) (by omega) (by omega)
    omega
  · have := RingBuffer.wrap_inj (hs.symm.trans hseq) (by omega) (by omega)
    omega

theorem Ring.Laps.free (h : r.Laps k) (hlt : r.claimed.length < r.popped.length+(r.mask+1)) :
    (r.cell r.claimed.length).sequence = wrap r.claimed.length := by
  rcases h.cells _ ⟨h.behind,hlt⟩ with ⟨-,hs⟩ | ⟨hlt,-⟩ | ⟨hlt,-⟩
  · exact hs
  · omega
  · omega

theorem Ring.Laps.claimNext (h : r.Laps k) {p : Nat} {item : α}
    (hp : r.producers p = .compareExchange item r.enqueuePos)
    (hlt : r.claimed.length < r.popped.length+(r.mask+1)) :
    ({ r.goto p (.beginWrite item r.enqueuePos) with
        enqueuePos := wrap (r.enqueuePos+1)
        claimed := r.claimed ++ [item] } : Ring α).Laps k := by
  have hfree := h.free hlt
  have hgrow : r.claimed <+: r.claimed ++ [item] := List.prefix_append _ _
  have hclaim : ∀ p' i q, ((r.goto p (.beginWrite item r.enqueuePos)).producers p').claim =
      some (i,q) → (p' = p ∧ i = item ∧ q = wrap r.claimed.length) ∨
        (p' ≠ p ∧ (r.producers p').claim = some (i,q)) := by
    intro p' i q hc
    rcases eq_or_ne p' p with rfl | hne
    · rw [goto_producers_self,Producer.claim] at hc
      cases hc
      exact .inl ⟨rfl,rfl,h.enqueue⟩
    · rw [goto_producers_ne r _ hne] at hc
      exact .inr ⟨hne,hc⟩
  have hnew : ∀ p' i, (r.producers p').claim ≠ some (i,wrap r.claimed.length) := by
    intro p' i hc
    obtain ⟨q,he,hown⟩ := h.owners p' i _ hc
    have hl := hown.lt
    have := h.wrap_inj ⟨h.behind,hlt⟩ (h.inLap hown) he
    omega
  exact {
    size := h.size
    power := h.power
    enqueue := by
      rw [List.length_append,h.enqueue,wrap_wrap_add]
      rfl
    dequeue := h.dequeue
    behind := by
      rw [List.length_append]
      exact Nat.le_add_right_of_le h.behind
    room := by
      rw [List.length_append]
      exact hlt
    cells := by
      intro q hq
      unfold Stage
      rw [List.length_append]
      rcases h.cells q hq with ⟨hlen,hs⟩ | ⟨hlen,hs,p',i,hc⟩ | ⟨hlen,hs,hd⟩
      · rcases eq_or_ne q r.claimed.length with rfl | hne
        · exact .inr (.inl ⟨by simp,hfree,p,item,by simp [Producer.claim,h.enqueue]⟩)
        · exact .inl ⟨by simp only [List.length_singleton]; omega,hs⟩
      · have hne : p' ≠ p := by
          rintro rfl
          simp [hp,Producer.claim] at hc
        refine .inr (.inl ⟨by omega,hs,p',i,?_⟩)
        rwa [← goto_producers_ne r (.beginWrite item r.enqueuePos) hne] at hc
      · exact .inr (.inr ⟨by omega,hs,hd.trans (List.getElem?_append_left hlen).symm⟩)
    owners := by
      intro p' i pos hc
      rcases hclaim p' i pos hc with ⟨rfl,rfl,rfl⟩ | ⟨hne,hc⟩
      · refine ⟨_,rfl,h.behind,List.getElem?_concat_length,hfree,?_⟩
        simp
      · obtain ⟨q,he,hq,hitem,hs,hd⟩ := h.owners p' i pos hc
        refine ⟨q,he,hq,getElem?_grow hgrow hitem,hs,?_⟩
        rw [← goto_producers_ne r (.beginWrite item r.enqueuePos) hne] at hd
        exact hd
    unique := by
      intro p1 p2 i i' pos h1 h2
      rcases hclaim p1 i pos h1 with ⟨rfl,-,rfl⟩ | ⟨-,hc1⟩
      · rcases hclaim p2 i' _ h2 with ⟨rfl,-⟩ | ⟨-,hc2⟩
        · rfl
        · exact absurd hc2 (hnew p2 i')
      · rcases hclaim p2 i' pos h2 with ⟨rfl,-,rfl⟩ | ⟨-,hc2⟩
        · exact absurd hc1 (hnew p1 i)
        · exact h.unique p1 p2 i i' pos hc1 hc2
    checked := by
      intro hcon
      obtain ⟨hl,hs⟩ := h.checked hcon
      rw [List.length_append]
      exact ⟨Nat.lt_add_right 1 hl,hs⟩
    taken := by
      intro out hout
      obtain ⟨hl,-⟩ := h.checked (by rw [show r.consumer = .storeSeq out from hout]; exact nofun)
      exact (h.taken out hout).trans (List.getElem?_append_left hl).symm
    history := by
      show r.popped = ((r.claimed ++ [item]).take r.popped.length).map some
      rw [List.take_append_of_le_length h.behind]
      exact h.history }

theorem Ring.Laps.ownCell (h : r.Laps k) {p : Nat} {item : α} {pos : Nat} {c : Cell α}
    {next : Producer α} (hp : (r.producers p).claim = some (item,pos))
    (hstage : (next.claim = some (item,pos) ∧ c.sequence = (r.cell pos).sequence) ∨
      (next.claim = none ∧ c.sequence = wrap (pos+1) ∧ c.data = some item))
    (hwritten : next = .storeSeq item pos → c.data = some item) :
    ((r.setCell pos c).goto p next).Laps k := by
  obtain ⟨q,rfl,hown⟩ := h.owners p item pos hp
  have hl := hown.lt
  have hin := h.inLap hown
  obtain ⟨hq,hitem,hseq,-⟩ := hown
  rw [h.cell_wrap,hseq,wrap_wrap_add] at hstage
  rw [h.setCell_wrap]
  have hother : ∀ q', r.InLap q' → q' ≠ q →
      ((r.setCell q c).goto p next).cell q' = r.cell q' := by
    intro q' hq' hne
    rw [goto_cell]
    exact h.setCell_cell_ne c hin hq' hne
  have hclaim : ∀ p' i pos', (((r.setCell q c).goto p next).producers p').claim = some (i,pos') →
      (r.producers p').claim = some (i,pos') := by
    intro p' i pos' hc
    rcases eq_or_ne p' p with rfl | hne
    · rw [goto_producers_self] at hc
      rcases hstage with ⟨ha,-⟩ | ⟨hb,-⟩
      · rw [hp,← ha,hc]
      · rw [hb] at hc
        cases hc
    · rwa [goto_producers_ne _ next hne] at hc
  have hapart : ∀ p' i q', p' ≠ p → (r.producers p').claim = some (i,wrap q') → q' ≠ q := by
    rintro p' i q' hne hc rfl
    exact hne (h.unique p' p i item _ hc hp)
  exact {
    size := h.size
    power := h.power
    enqueue := h.enqueue
    dequeue := h.dequeue
    behind := h.behind
    room := h.room
    cells := by
      intro q' hq'
      unfold Stage
      rcases eq_or_ne q' q with rfl | hne
      · rw [goto_cell,setCell_cell]
        rcases hstage with ⟨ha,hs⟩ | ⟨-,hs,hd⟩
        · exact .inr (.inl ⟨hl,hs,p,item,by rw [goto_producers_self,ha]⟩)
        · exact .inr (.inr ⟨hl,hs,hd.trans hitem.symm⟩)
      · rw [hother q' hq' hne]
        rcases h.cells q' hq' with hfree | ⟨hl',hs',p',i,hc⟩ | hpub
        · exact .inl hfree
        · have hp' : p' ≠ p := by
            rintro rfl
            have he := (Prod.mk.inj (Option.some.inj (hc.symm.trans hp))).2
            exact hne (h.wrap_inj hq' hin he)
          refine .inr (.inl ⟨hl',hs',p',i,?_⟩)
          rwa [goto_producers_ne _ _ hp']
        · exact .inr (.inr hpub)
    owners := by
      intro p' i pos' hc
      rcases eq_or_ne p' p with rfl | hne
      · obtain ⟨ha,hs⟩ | ⟨hb,-⟩ := hstage
        · rw [goto_producers_self,ha] at hc
          cases hc
          refine ⟨q,rfl,hq,hitem,?_,?_⟩
          · rw [goto_cell,setCell_cell,hs]
          · rw [goto_producers_self,goto_cell,setCell_cell]
            exact hwritten
        · rw [goto_producers_self,hb] at hc
          cases hc
      · have hold := hclaim p' i pos' hc
        obtain ⟨q',rfl,hown'⟩ := h.owners p' i pos' hold
        refine ⟨q',rfl,?_⟩
        unfold Owns
        rw [hother q' (h.inLap hown') (hapart p' i q' hne hold),goto_producers_ne _ next hne]
        exact hown'
    unique := by
      intro p1 p2 i i' pos' h1 h2
      exact h.unique p1 p2 i i' pos' (hclaim p1 i pos' h1) (hclaim p2 i' pos' h2)
    checked := by
      intro hcon
      obtain ⟨hl',hs'⟩ := h.checked hcon
      have hne : r.popped.length ≠ q := by
        rintro rfl
        exact wrap_succ_ne _ (hs'.symm.trans hseq)
      exact ⟨hl',(congrArg Cell.sequence (hother _ h.inLap_popped hne)).trans hs'⟩
    taken := h.taken
    history := h.history }

theorem Ring.Laps.diff_eq_zero_iff (h : r.Laps k) :
    diff (r.cell r.dequeuePos).sequence (wrap (r.dequeuePos+1)) = 0 ↔
      r.popped.length < r.claimed.length ∧
        (r.cell r.popped.length).sequence = wrap (r.popped.length+1) := by
  rw [h.dequeue,h.cell_wrap,wrap_wrap_add,diff_eq_zero (h.sequence_lt h.inLap_popped) (wrap_lt _)]
  constructor
  · intro hseq
    rcases h.cells _ h.inLap_popped with ⟨-,hs⟩ | ⟨hl,-⟩ | ⟨hl,-⟩
    · exact absurd (hseq.symm.trans hs) (wrap_succ_ne _)
    · exact ⟨hl,hseq⟩
    · exact ⟨hl,hseq⟩
  · exact And.right

theorem Ring.Laps.data_popped (h : r.Laps k)
    (hs : (r.cell r.popped.length).sequence = wrap (r.popped.length+1)) :
    (r.cell r.popped.length).data = r.claimed[r.popped.length]? := by
  rcases h.cells _ h.inLap_popped with ⟨-,hf⟩ | ⟨-,hf,-⟩ | ⟨-,-,hd⟩
  · exact absurd (hs.symm.trans hf) (wrap_succ_ne _)
  · exact absurd (hs.symm.trans hf) (wrap_succ_ne _)
  · exact hd

/-- The consumer hands the cell of the oldest item over to the next lap. -/
theorem Ring.Laps.release (h : r.Laps k) {out : Option α} (hcon : r.consumer = .storeSeq out)
    {c : Cell α} (hc : c.sequence = wrap (r.popped.length+(r.mask+1))) :
    ({ r.setCell r.popped.length c with
      dequeuePos := wrap (r.popped.length+1)
      consumer := .idle
      popped := r.popped ++ [out] } : Ring α).Laps k := by
  obtain ⟨hlt,hs⟩ := h.checked (by simp [hcon])
  have hout := h.taken out hcon
  have hroom := h.room
  have hother : ∀ q, r.popped.length+1 ≤ q → q < r.popped.length+(r.mask+1) →
      (r.setCell r.popped.length c).cell q = r.cell q := by
    intro q hq hl
    exact h.setCell_cell_ne c h.inLap_popped ⟨by omega,hl⟩ (by omega)
  exact {
    size := h.size
    power := h.power
    enqueue := h.enqueue
    dequeue := by rw [List.length_append,List.length_singleton]
    behind := by
      rw [List.length_append]
      exact hlt
    room := by
      rw [List.length_append]
      show r.claimed.length ≤ r.popped.length+1+(r.mask+1)
      omega
    cells := by
      rintro q ⟨hq,hl⟩
      rw [List.length_append,List.length_singleton] at hq hl
      change q < r.popped.length+1+(r.mask+1) at hl
      rcases Nat.lt_or_ge q (r.popped.length+(r.mask+1)) with hlap | hlap
      · have hold := h.cells q ⟨by omega,hlap⟩
        unfold Stage at hold ⊢
        rw [← hother q hq hlap] at hold
        exact hold
      · -- the released cell is the free one at the end of the new lap
        have hq' : q = r.popped.length+(r.mask+1) := by omega
        refine .inl ⟨Nat.le_trans h.room (Nat.le_of_eq hq'.symm),?_⟩
        subst hq'
        show ((r.setCell r.popped.length c).buffer
          ((r.popped.length+(r.mask+1)) &&& r.mask)).sequence = _
        rw [and_mask_next_lap h.power]
        exact (congrArg Cell.sequence (setCell_cell r _ c)).trans hc
    owners := by
      intro p item pos hp
      obtain ⟨q,rfl,hown⟩ := h.owners p item pos hp
      have hl := hown.lt
      obtain ⟨hq,hitem,hseq,hd⟩ := hown
      have hne : q ≠ r.popped.length := by
        rintro rfl
        exact wrap_succ_ne _ (hs.symm.trans hseq)
      have hsame := hother q (by omega) (by omega)
      refine ⟨q,rfl,?_,hitem,?_,?_⟩
      · rw [List.length_append,List.length_singleton]
        omega
      · exact (congrArg Cell.sequence hsame).trans hseq
      · exact fun hstore => (congrArg Cell.data hsame).trans (hd hstore)
    unique := h.unique
    checked := fun hidle => absurd rfl hidle
    taken := nofun
    history := by
      rw [List.length_append,List.length_singleton]
      show r.popped ++ [out] = (r.claimed.take (r.popped.length+1)).map some
      rw [List.take_succ_eq_append_getElem hlt,List.map_append,← h.history,hout,
        List.getElem?_eq_getElem hlt]
      rfl }

theorem Ring.Laps.producerStep {r' : Ring α} (h : r.Laps k) {p : Nat} {spurious : Bool}
    (hfresh : r.Fresh (.producer p spurious)) (hs : r.producerStep p spurious = some r') :
    r'.Laps k := by
  unfold Ring.producerStep at hs
  cases hpc : r.producers p with
  | idle => simp [hpc] at hs
  | loadPos item =>
    simp only [hpc,Option.some.injEq] at hs
    subst hs
    exact h.goto (by simp [hpc,Producer.claim]) rfl
  | loadSeq item pos =>
    have hclaim : (r.producers p).claim = none := by simp [hpc,Producer.claim]
    simp only [hpc] at hs
    split at hs
    · cases hs
      exact h.goto hclaim rfl
    · split at hs
      · cases hs
        exact h.goto hclaim rfl
      · cases hs
        exact h.goto hclaim rfl
  | compareExchange item pos =>
    simp only [hpc] at hs
    split at hs
    · case isTrue he =>
      obtain ⟨rfl,rfl⟩ := he
      cases hs
      obtain ⟨hseq,hone⟩ := hfresh r.enqueuePos (by simp [Ring.claims,hpc])
      rw [h.enqueue,h.cell_wrap] at hseq
      exact h.claimNext hpc (h.room_of_fresh hseq hone)
    · cases hs
      exact h.goto (by simp [hpc,Producer.claim]) rfl
  | beginWrite item pos =>
    simp only [hpc,Option.some.injEq] at hs
    subst hs
    exact h.ownCell (by rw [hpc,Producer.claim]) (.inl ⟨rfl,rfl⟩) nofun
  | endWrite item pos =>
    simp only [hpc,Option.some.injEq] at hs
    subst hs
    exact h.ownCell (by rw [hpc,Producer.claim]) (.inl ⟨rfl,rfl⟩) (fun _ => rfl)
  | storeSeq item pos =>
    simp only [hpc,Option.some.injEq] at hs
    subst hs
    have hclaim : (r.producers p).claim = some (item,pos) := by rw [hpc,Producer.claim]
    obtain ⟨q,rfl,-,-,-,hd⟩ := h.owners p item pos hclaim
    refine h.ownCell hclaim (.inr ⟨rfl,rfl,?_⟩) nofun
    rw [h.cell_wrap]
    exact hd hpc

theorem Ring.Laps.consumerStep (h : r.Laps k) : r.consumerStep.Laps k := by
  unfold Ring.consumerStep
  cases hcon : r.consumer with
  | idle =>
    dsimp only
    split
    · exact h
    · case isFalse hd =>
      have hpub := h.diff_eq_zero_iff.mp (not_not.mp hd)
      exact { h with checked := fun _ => hpub, taken := nofun }
  | readData =>
    have hpub := h.checked (by simp [hcon])
    refine { h with checked := fun _ => hpub, taken := ?_ }
    rintro out ⟨⟩
    show (r.cell r.dequeuePos).data = _
    rw [h.dequeue,h.cell_wrap]
    exact h.data_popped hpub.2
  | storeSeq out =>
    dsimp only
    rw [h.dequeue,h.setCell_wrap,wrap_wrap_add,Nat.add_assoc,wrap_wrap_add]
    exact h.release hcon rfl

theorem Ring.Laps.step {r' : Ring α} {a : Action α} (h : r.Laps k) (hfresh : r.Fresh a)
    (hs : r.step a = some r') : r'.Laps k := by
  cases a with
  | tryPush p item =>
    simp only [Ring.step] at hs
    split at hs
    · case h_1 hpc =>
      cases hs
      exact h.goto (by simp [hpc,Producer.claim]) rfl
    · cases hs
  | producer p spurious => exact h.producerStep hfresh hs
  | consumer =>
    simp only [Ring.step,Option.some.injEq] at hs
    subst hs
    exact h.consumerStep

theorem Ring.Laps.new (hk : k ≤ 63) : (Ring.new (2^k) : Ring α).Laps k := by
  have hmask : (Ring.new (2^k) : Ring α).mask+1 = 2^k := Nat.sub_add_cancel Nat.one_le_two_pow
  exact {
    size := hk
    power := hmask
    enqueue := rfl
    dequeue := rfl
    behind := Nat.le_refl _
    room := Nat.zero_le _
    cells := by
      rintro q ⟨-,hl⟩
      rw [hmask] at hl
      have hq : q < 2^k := by simpa [Ring.new] using hl
      have hle : 2^k ≤ 2^63 := Nat.pow_le_pow_right (by omega) hk
      refine .inl ⟨Nat.zero_le q,?_⟩
      show q &&& 2^k-1 = wrap q
      rw [Nat.and_two_pow_sub_one_eq_mod,Nat.mod_eq_of_lt hq,wrap_of_lt (by omega)]
    owners := fun _ _ _ h => by cases h
    unique := fun _ _ _ _ _ h => by cases h
    checked := fun h => absurd rfl h
    taken := nofun
    history := rfl }

end Laps

end FinancialLedger.RingBuffer
