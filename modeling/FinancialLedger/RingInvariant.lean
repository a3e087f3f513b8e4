import FinancialLedger.RingLaps
set_option autoImplicit false

/-!
The queue while positions fit in `intptr_t`: positions are then the numbers of
claims and pops themselves, and a producer that slept finds its position gone.
-/

namespace FinancialLedger.RingBuffer

variable {α : Type}

def Ring.CellInv (r : Ring α) (q : Nat) : Prop :=
  (r.claimed.length ≤ q ∧ (r.cell q).sequence = q) ∨
  (q < r.claimed.length ∧ (r.cell q).sequence = q ∧
    ∃ p item, (r.producers p).claim = some (item,q)) ∨
  (q < r.claimed.length ∧ (r.cell q).sequence = q+1 ∧ (r.cell q).data = r.claimed[q]?)

/-- What a producer's program point promises about the shared state. -/
def Ring.ProducerInv (r : Ring α) (p : Nat) : Prop :=
  match r.producers p with
  | .idle | .loadPos _ => True
  | .loadSeq _ pos => pos ≤ r.claimed.length
  | .compareExchange _ pos =>
      pos ≤ r.claimed.length ∧ pos < r.popped.length+(r.mask+1)
  | .beginWrite item pos | .endWrite item pos =>
      r.popped.length ≤ pos ∧ r.claimed[pos]? = some item ∧ (r.cell pos).sequence = pos
  | .storeSeq item pos =>
      r.popped.length ≤ pos ∧ r.claimed[pos]? = some item ∧ (r.cell pos).sequence = pos ∧
        (r.cell pos).data = some item

def Ring.ConsumerInv (r : Ring α) : Prop :=
  match r.consumer with
  | .idle => True
  | .readData => (r.cell r.popped.length).sequence = r.popped.length+1
  | .storeSeq out => (r.cell r.popped.length).sequence = r.popped.length+1 ∧
      out = r.claimed[r.popped.length]?

/-- The positions `popped.length`, …, `popped.length+mask` occupy the cells one
to one, and each cell's sequence says which stage its position is in. -/
structure Ring.Inv (r : Ring α) : Prop where
  power : ∃ k, r.mask+1 = 2^k
  small : r.mask+1 ≤ 2^63
  two : 2 ≤ r.mask+1
  enqueue : r.enqueuePos = r.claimed.length
  dequeue : r.dequeuePos = r.popped.length
  behind : r.popped.length ≤ r.claimed.length
  room : r.claimed.length ≤ r.popped.length+(r.mask+1)
  cells : ∀ q, r.popped.length ≤ q → q < r.popped.length+(r.mask+1) → r.CellInv q
  producers : ∀ p, r.ProducerInv p
  unique : ∀ p p' item item' q, (r.producers p).claim = some (item,q) →
    (r.producers p').claim = some (item',q) → p = p'
  consumer : r.ConsumerInv
  history : r.popped = (r.claimed.take r.popped.length).map some

section Unwrapped
variable {r : Ring α} {k : Nat}

/-- A position that a producer has loaded and not yet claimed. -/
def Ring.Positions (r : Ring α) (p : Nat) : Prop :=
  match r.producers p with
  | .loadSeq _ pos => pos ≤ r.claimed.length
  | .compareExchange _ pos =>
      pos ≤ r.claimed.length ∧ pos < r.popped.length+(r.mask+1)
  | _ => True

theorem Ring.Inv.positions (h : r.Inv) (p : Nat) : r.Positions p := by
  have hp := h.producers p
  unfold ProducerInv at hp
  unfold Positions
  cases hpc : r.producers p with
  | loadSeq item pos => simpa only [hpc] using hp
  | compareExchange item pos => simpa only [hpc] using hp
  | _ => trivial

theorem Ring.Inv.claim_spec (h : r.Inv) {p : Nat} {item : α} {q : Nat}
    (hc : (r.producers p).claim = some (item,q)) :
    r.popped.length ≤ q ∧ q < r.claimed.length ∧ r.claimed[q]? = some item ∧
      (r.cell q).sequence = q := by
  have hp := h.producers p
  unfold Ring.ProducerInv at hp
  cases hpc : r.producers p with
  | idle => simp [hpc,Producer.claim] at hc
  | loadPos x => simp [hpc,Producer.claim] at hc
  | loadSeq x pos => simp [hpc,Producer.claim] at hc
  | compareExchange x pos => simp [hpc,Producer.claim] at hc
  | beginWrite x pos =>
    simp only [hpc,Producer.claim,Option.some.injEq,Prod.mk.injEq] at hc hp
    obtain ⟨rfl,rfl⟩ := hc
    exact ⟨hp.1,(List.getElem?_eq_some_iff.mp hp.2.1).1,hp.2⟩
  | endWrite x pos =>
    simp only [hpc,Producer.claim,Option.some.injEq,Prod.mk.injEq] at hc hp
    obtain ⟨rfl,rfl⟩ := hc
    exact ⟨hp.1,(List.getElem?_eq_some_iff.mp hp.2.1).1,hp.2⟩
  | storeSeq x pos =>
    simp only [hpc,Producer.claim,Option.some.injEq,Prod.mk.injEq] at hc hp
    obtain ⟨rfl,rfl⟩ := hc
    exact ⟨hp.1,(List.getElem?_eq_some_iff.mp hp.2.1).1,hp.2.1,hp.2.2.1⟩

theorem Ring.Inv.laps (h : r.Inv) (hb : r.claimed.length < 2^63) : ∃ k, 1 ≤ k ∧ r.Laps k := by
  obtain ⟨k,hk⟩ := h.power
  have hsmall := h.small
  have htwo := h.two
  have hbehind := h.behind
  have hroom := h.room
  rw [hk] at hsmall htwo
  have hwrap : ∀ q, q ≤ r.popped.length+(r.mask+1) → wrap q = q := fun q hq =>
    wrap_of_lt (by omega)
  refine ⟨k,?_,?_,hk,?_,?_,hbehind,hroom,?_,?_,?_,?_,?_,h.history⟩
  · by_contra hzero
    rw [Nat.lt_one_iff.mp (Nat.not_le.mp hzero)] at htwo
    omega
  · exact (Nat.pow_le_pow_iff_right (by omega)).mp hsmall
  · rw [hwrap _ hroom]
    exact h.enqueue
  · rw [hwrap _ (by omega)]
    exact h.dequeue
  · rintro q ⟨hq,hl⟩
    unfold Stage
    rw [hwrap q (by omega),hwrap (q+1) (by omega)]
    exact h.cells q hq hl
  · intro p item pos hc
    obtain ⟨hpos,hlt,hitem,hseq⟩ := h.claim_spec hc
    have hw := hwrap pos (by omega)
    refine ⟨pos,hw.symm,hpos,hitem,by rw [hw,hseq],?_⟩
    intro hstore
    have hp := h.producers p
    rw [hw] at hstore
    simp only [ProducerInv,hstore] at hp
    exact hp.2.2.2
  · exact h.unique
  · intro hcon
    have hs : (r.cell r.popped.length).sequence = r.popped.length+1 := by
      have hc := h.consumer
      unfold ConsumerInv at hc
      cases hpc : r.consumer with
      | idle => exact absurd hpc hcon
      | readData => simpa only [hpc] using hc
      | storeSeq out =>
        simp only [hpc] at hc
        exact hc.1
    refine ⟨?_,by rw [hwrap _ (by omega),hs]⟩
    rcases h.cells r.popped.length (Nat.le_refl _) (by omega) with ⟨-,hf⟩ | ⟨-,hf,-⟩ | ⟨hlt,-⟩
    · omega
    · omega
    · exact hlt
  · intro out hout
    have hc := h.consumer
    simp only [ConsumerInv,hout] at hc
    exact hc.2

theorem Ring.Laps.inv (h : r.Laps k) (hk : 1 ≤ k) (hb : r.claimed.length < 2^63)
    (hpos : ∀ p, r.Positions p) : r.Inv := by
  have hsmall := h.small
  have hbehind := h.behind
  have hroom := h.room
  have hwrap : ∀ q, q ≤ r.popped.length+(r.mask+1) → wrap q = q := fun q hq =>
    wrap_of_lt (by omega)
  have howns : ∀ p item pos, (r.producers p).claim = some (item,pos) → r.Owns p item pos ∧
      wrap pos = pos := by
    intro p item pos hc
    obtain ⟨q,rfl,hown⟩ := h.owners p item pos hc
    have hw := hwrap q (Nat.le_of_lt (h.inLap hown).2)
    rw [hw]
    exact ⟨hown,hw⟩
  exact {
    power := ⟨k,h.power⟩
    small := hsmall
    two := by
      rw [h.power]
      exact Nat.pow_le_pow_right Nat.two_pos hk
    enqueue := by rw [h.enqueue,hwrap _ hroom]
    dequeue := by rw [h.dequeue,hwrap _ (by omega)]
    behind := hbehind
    room := hroom
    cells := by
      intro q hq hl
      have hstage := h.cells q ⟨hq,hl⟩
      unfold Stage at hstage
      rw [hwrap q (by omega),hwrap (q+1) (by omega)] at hstage
      exact hstage
    producers := by
      intro p
      have hp := hpos p
      unfold Positions at hp
      unfold ProducerInv
      cases hpc : r.producers p with
      | idle => trivial
      | loadPos item => trivial
      | loadSeq item pos => simpa only [hpc] using hp
      | compareExchange item pos => simpa only [hpc] using hp
      | beginWrite item pos =>
        obtain ⟨⟨hq,hitem,hs,-⟩,hw⟩ := howns p item pos (by rw [hpc,Producer.claim])
        exact ⟨hq,hitem,hs.trans hw⟩
      | endWrite item pos =>
        obtain ⟨⟨hq,hitem,hs,-⟩,hw⟩ := howns p item pos (by rw [hpc,Producer.claim])
        exact ⟨hq,hitem,hs.trans hw⟩
      | storeSeq item pos =>
        obtain ⟨⟨hq,hitem,hs,hd⟩,hw⟩ := howns p item pos (by rw [hpc,Producer.claim])
        exact ⟨hq,hitem,hs.trans hw,hd (by rw [hpc,hw])⟩
    unique := h.unique
    consumer := by
      unfold ConsumerInv
      cases hcon : r.consumer with
      | idle => trivial
      | readData =>
        have hs := (h.checked (by simp [hcon])).2
        rwa [hwrap _ (by omega)] at hs
      | storeSeq out =>
        have hs := (h.checked (by simp [hcon])).2
        rw [hwrap _ (by omega)] at hs
        exact ⟨hs,h.taken out hcon⟩
    history := h.history }

/-- A producer that finds its position's sequence in place holds a position of
the current lap, however long it slept since it loaded the position. -/
theorem Ring.Laps.free_position (h : r.Laps k) (hk : 1 ≤ k) (hb : r.claimed.length < 2^63)
    {pos : Nat} (hpos : pos ≤ r.claimed.length)
    (hd : diff (r.cell pos).sequence pos = 0) : pos < r.popped.length+(r.mask+1) := by
  by_contra hge
  have hroom := h.room
  -- the position is one lap ahead of the oldest item, whose cell it shares
  have hlap : pos = r.popped.length+(r.mask+1) := by omega
  have hcell : r.cell pos = r.cell r.popped.length := by
    rw [Ring.cell,hlap,and_mask_next_lap h.power,Ring.cell]
  rw [diff_eq_zero (hcell ▸ h.sequence_lt h.inLap_popped) (by omega)] at hd
  have hnext : pos = r.claimed.length := by omega
  have hseq : (r.cell r.claimed.length).sequence = wrap r.claimed.length := by
    rw [← hnext,hd,wrap_of_lt (by omega)]
  have htwo : 2 ≤ r.mask+1 := h.power ▸ Nat.pow_le_pow_right Nat.two_pos hk
  have := h.room_of_fresh hseq (by omega)
  omega

theorem Ring.Positions.frame {r' : Ring α} {p : Nat} (h : r.Positions p)
    (hp : r'.producers p = r.producers p) (hmask : r'.mask = r.mask)
    (hclaimed : r.claimed.length ≤ r'.claimed.length)
    (hpopped : r.popped.length ≤ r'.popped.length) : r'.Positions p := by
  unfold Positions at h ⊢
  rw [hp,hmask]
  cases hpc : r.producers p with
  | loadSeq item pos =>
    simp only [hpc] at h ⊢
    omega
  | compareExchange item pos =>
    simp only [hpc] at h ⊢
    omega
  | _ => trivial

theorem Ring.Positions.goto {r' : Ring α} {p : Nat} {next : Producer α} (h : ∀ p, r.Positions p)
    (hprod : r'.producers = (r.goto p next).producers) (hmask : r'.mask = r.mask)
    (hclaimed : r.claimed.length ≤ r'.claimed.length) (hpopped : r'.popped = r.popped)
    (hnext : r'.Positions p) (p' : Nat) : r'.Positions p' := by
  rcases eq_or_ne p' p with rfl | hne
  · exact hnext
  · refine (h p').frame ?_ hmask hclaimed (Nat.le_of_eq (congrArg List.length hpopped.symm))
    rw [hprod,goto_producers_ne r next hne]

end Unwrapped

theorem Ring.claimed_prefix_step {r r' : Ring α} {a : Action α} (h : r.step a = some r') :
    r.claimed <+: r'.claimed := by
  cases a with
  | tryPush p item =>
    simp only [Ring.step] at h
    split at h
    · cases h
      exact List.prefix_refl _
    · cases h
  | producer p spurious =>
    simp only [Ring.step,Ring.producerStep] at h
    split at h
    all_goals try split at h
    all_goals try split at h
    all_goals cases h
    all_goals first
      | exact List.prefix_refl _
      | exact List.prefix_append _ _
  | consumer =>
    simp only [Ring.step,Ring.consumerStep,Option.some.injEq] at h
    subst h
    split
    · split <;> exact List.prefix_refl _
    · exact List.prefix_refl _
    · exact List.prefix_refl _

section Steps
variable {r r' : Ring α} {k : Nat} {a : Action α}

theorem Ring.Laps.positions_producer (h : r.Laps k) (hk : 1 ≤ k) (hb : r.claimed.length < 2^63)
    (hpos : ∀ p, r.Positions p) {p : Nat} {spurious : Bool}
    (hs : r.producerStep p spurious = some r') (p' : Nat) : r'.Positions p' := by
  have hloaded : r.enqueuePos ≤ r.claimed.length := by
    rw [h.enqueue]
    exact Nat.mod_le _ _
  unfold Ring.producerStep at hs
  have hp := hpos p
  unfold Positions at hp
  cases hpc : r.producers p with
  | idle => simp [hpc] at hs
  | loadPos item =>
    simp only [hpc,Option.some.injEq] at hs
    subst hs
    refine .goto hpos rfl rfl (Nat.le_refl _) rfl ?_ p'
    simp only [Positions,goto_producers_self]
    exact hloaded
  | loadSeq item pos =>
    simp only [hpc] at hs hp
    split at hs
    · case isTrue hd =>
      cases hs
      refine .goto hpos rfl rfl (Nat.le_refl _) rfl ?_ p'
      simp only [Positions,goto_producers_self]
      exact ⟨hp,h.free_position hk hb hp hd⟩
    · split at hs
      · cases hs
        exact .goto hpos rfl rfl (Nat.le_refl _) rfl (by simp [Positions]) p'
      · cases hs
        exact .goto hpos rfl rfl (Nat.le_refl _) rfl (by simp [Positions]) p'
  | compareExchange item pos =>
    simp only [hpc] at hs
    split at hs
    · cases hs
      refine Ring.Positions.goto hpos (by rfl) (by rfl) ?_ (by rfl) ?_ p'
      · exact (List.prefix_append _ _).length_le
      · simp [Positions]
    · cases hs
      refine .goto hpos rfl rfl (Nat.le_refl _) rfl ?_ p'
      simp only [Positions,goto_producers_self]
      exact hloaded
  | beginWrite item pos =>
    simp only [hpc,Option.some.injEq] at hs
    subst hs
    exact .goto hpos rfl rfl (Nat.le_refl _) rfl (by simp [Positions]) p'
  | endWrite item pos =>
    simp only [hpc,Option.some.injEq] at hs
    subst hs
    exact .goto hpos rfl rfl (Nat.le_refl _) rfl (by simp [Positions]) p'
  | storeSeq item pos =>
    simp only [hpc,Option.some.injEq] at hs
    subst hs
    exact .goto hpos rfl rfl (Nat.le_refl _) rfl (by simp [Positions]) p'

theorem Ring.Laps.positions_step (h : r.Laps k) (hk : 1 ≤ k) (hb : r.claimed.length < 2^63)
    (hpos : ∀ p, r.Positions p) (hs : r.step a = some r') (p' : Nat) : r'.Positions p' := by
  cases a with
  | tryPush p item =>
    simp only [Ring.step] at hs
    split at hs
    · cases hs
      exact .goto hpos rfl rfl (Nat.le_refl _) rfl (by simp [Positions]) p'
    · cases hs
  | producer p spurious => exact h.positions_producer hk hb hpos hs p'
  | consumer =>
    simp only [Ring.step,Ring.consumerStep,Option.some.injEq] at hs
    subst hs
    split
    · split
      · exact hpos p'
      · exact (hpos p').frame rfl rfl (Nat.le_refl _) (Nat.le_refl _)
    · exact (hpos p').frame rfl rfl (Nat.le_refl _) (Nat.le_refl _)
    · exact (hpos p').frame rfl rfl (Nat.le_refl _) (by simp)

theorem Ring.Inv.fresh (h : r.Inv) (a : Action α) : r.Fresh a := by
  intro pos hpos
  obtain ⟨p,item,rfl,hp,he⟩ := claims_eq_some hpos
  have hpc := h.producers p
  simp only [Ring.ProducerInv,hp] at hpc
  have henq := h.enqueue
  have hbehind := h.behind
  have htwo := h.two
  rcases h.cells pos (by omega) hpc.2 with ⟨-,hs⟩ | ⟨hl,-⟩ | ⟨hl,-⟩
  · exact ⟨hs,fun hone => by omega⟩
  · omega
  · omega

theorem Ring.Inv.step (h : r.Inv) (hs : r.step a = some r')
    (hb : r'.claimed.length < 2^63) : r'.Inv := by
  have hold : r.claimed.length < 2^63 :=
    Nat.lt_of_le_of_lt (Ring.claimed_prefix_step hs).length_le hb
  obtain ⟨k,hk,hlaps⟩ := h.laps hold
  exact (hlaps.step (h.fresh a) hs).inv hk hb (hlaps.positions_step hk hold h.positions hs)

theorem Ring.Inv.new (hk : 1 ≤ k) (hk' : k ≤ 63) : (Ring.new (2^k) : Ring α).Inv :=
  (Ring.Laps.new hk').inv hk (show 0 < 2^63 by decide) (fun _ => trivial)

end Steps

theorem Ring.exec_inv {k : Nat} (hk : 1 ≤ k) (hk' : k ≤ 63) {acts : List (Action α)} {r : Ring α}
    (h : StepRun.exec Ring.step (Ring.new (2^k)) acts = some r)
    (hb : r.claimed.length < 2^63) : r.Inv := by
  refine StepRun.exec_invariant (fun r => r.claimed.length < 2^63 → r.Inv)
    ?_ (fun _ => Ring.Inv.new hk hk') (StepRun.guarded_true _ _ acts) h hb
  intro s a t hs _ ht hb'
  have hle := (Ring.claimed_prefix_step ht).length_le
  exact (hs (by omega)).step ht hb'

def Ring.Writes (r : Ring α) (p pos : Nat) : Prop :=
  ∃ item, r.producers p = .beginWrite item pos ∨ r.producers p = .endWrite item pos

theorem Ring.Writes.claim {r : Ring α} {p pos : Nat} (h : r.Writes p pos) :
    ∃ item, (r.producers p).claim = some (item,pos) := by
  obtain ⟨item,h | h⟩ := h
  · exact ⟨item,by rw [h,Producer.claim]⟩
  · exact ⟨item,by rw [h,Producer.claim]⟩

/-- The queue hands out what was claimed, whole and in order. A producer that
copies into a cell is alone there: nobody else copies into it, and no unpopped
position other than its own lives in it. -/
theorem Ring.pops_prefix_of_claims {k : Nat} (hk : 1 ≤ k) (hk' : k ≤ 63)
    {acts : List (Action α)} {r : Ring α}
    (h : StepRun.exec Ring.step (Ring.new (2^k)) acts = some r)
    (hb : r.claimed.length < 2^63) :
    r.popped <+: r.claimed.map some ∧
    (∀ p p' pos pos', r.Writes p pos → r.Writes p' pos' →
      pos &&& r.mask = pos' &&& r.mask → p = p') ∧
    (∀ p pos q, r.Writes p pos → r.popped.length ≤ q → q < r.claimed.length →
      q &&& r.mask = pos &&& r.mask → q = pos) := by
  have hinv := Ring.exec_inv hk hk' h hb
  have hroom := hinv.room
  have hcell : ∀ p pos q, r.Writes p pos → r.popped.length ≤ q → q < r.claimed.length →
      q &&& r.mask = pos &&& r.mask → q = pos := by
    intro p pos q hw hq hql he
    obtain ⟨item,hc⟩ := hw.claim
    obtain ⟨hpos,hlt,-⟩ := hinv.claim_spec hc
    obtain ⟨j,hj⟩ := hinv.power
    by_contra hne
    exact and_mask_ne hj hq hpos (by omega) (by omega) hne he
  refine ⟨?_,?_,hcell⟩
  · rw [hinv.history]
    exact (List.take_prefix _ _).map some
  · intro p p' pos pos' hw hw' he
    obtain ⟨item,hc⟩ := hw.claim
    obtain ⟨item',hc'⟩ := hw'.claim
    obtain ⟨hpos,hlt,-⟩ := hinv.claim_spec hc
    obtain rfl := hcell p' pos' pos hw' hpos hlt he
    exact hinv.unique p p' item item' pos hc hc'

def raceOfTwo : List (Action Nat) :=
  [.tryPush 0 7,.tryPush 1 9,.producer 0 false,.producer 1 false,.producer 0 false,
    .producer 1 false,.producer 1 false,.producer 0 false,.producer 0 false,.producer 0 true,
    .producer 0 false,.producer 0 false,.producer 0 false,.producer 0 false,.producer 0 false,
    .consumer,.producer 1 false,.producer 1 false,.producer 1 false,
    .consumer,.consumer,.consumer,.consumer,.consumer,.consumer]

theorem Ring.pops_prefix_of_claims_race :
    ∃ r, StepRun.exec Ring.step (Ring.new (2^1)) raceOfTwo = some r ∧
      r.popped = [some 9,some 7] ∧ r.popped <+: r.claimed.map some := by
  have hrun : (StepRun.exec Ring.step (Ring.new (2^1)) raceOfTwo).map
      (fun r => (r.popped,r.claimed)) = some ([some 9,some 7],[9,7]) := by decide
  obtain ⟨r,hr,he⟩ := Option.map_eq_some_iff.mp hrun
  obtain ⟨hpopped,hclaimed⟩ := Prod.mk.inj he
  have hb : r.claimed.length < 2^63 := by
    rw [hclaimed]
    decide
  exact ⟨r,hr,hpopped,(Ring.pops_prefix_of_claims (by decide) (by decide) hr hb).1⟩

end FinancialLedger.RingBuffer
