import FinancialLedger.WeakRing
set_option autoImplicit false

/-!
The newest values of a weak queue are a queue with sequentially consistent accesses,
except that a producer may load an old position; and at each moment one view is up to
date with a cell: that of its last sequence number, of the producer that has claimed
it or of the consumer.
-/

namespace FinancialLedger.RingBuffer.WeakRing
open ViewMemory

variable {α ι κ : Type}

def newest (w : WeakRing α ι κ) : Ring α where
  mask := w.mask
  buffer := fun i => ⟨(w.memory.top (.sequence i)).value,w.data i⟩
  enqueuePos := (w.memory.top .enqueuePos).value
  dequeuePos := w.dequeuePos
  producers := w.producers
  consumer := w.consumer
  claimed := w.claimed
  popped := w.popped

def Guards (w : WeakRing α ι κ) (c : Nat) (v : Past (Loc ι)) : Prop :=
  w.memory.Guards (.sequence c) (.data c) v

def Carries (w : WeakRing α ι κ) (q : Nat) (v : Past (Loc ι)) : Prop :=
  ∀ u, w.sent[q]? = some u → u ≤ v

/-- No thread is between taking the cell and giving it back. -/
def AtRest (w : WeakRing α ι κ) (c : Nat) : Prop :=
  (∀ p item pos, (w.producers p).claim = some (item,pos) → w.cell pos ≠ c) ∧
    (w.consumer ≠ .idle → w.cell w.dequeuePos ≠ c)

/-- A position that a producer has loaded, and the message that it has found in its cell. -/
def Looked (w : WeakRing α ι κ) (p : Nat) : Prop :=
  match w.producers p with
  | .loadSeq _ pos => pos ≤ w.claimed.length
  | .compareExchange _ pos => ∃ t msg, w.memory.messages (.sequence (w.cell pos)) t = some msg ∧
      msg.value = pos ∧ msg.view ≤ w.view p
  | _ => True

structure Inv (w : WeakRing α ι κ) (k : Nat) : Prop where
  two : 1 ≤ k
  laps : w.newest.Laps k
  wf : w.memory.Wf
  claims : ∀ t, t ≤ w.claimed.length →
    ∃ msg, w.memory.messages .enqueuePos t = some msg ∧ msg.value = t
  lastClaim : w.memory.last .enqueuePos = w.claimed.length
  rising : ∀ c, w.memory.Rising (.sequence c)
  bounded : ∀ c, c ≤ w.mask → (w.memory.top (.sequence c)).value < 2^64
  looked : ∀ p, w.Looked p
  owned : ∀ p item pos, (w.producers p).claim = some (item,pos) →
    w.Guards (w.cell pos) (w.view p) ∧ w.Carries pos (w.view p)
  taken : w.consumer ≠ .idle →
    w.Guards (w.cell w.dequeuePos) (w.views .consumer) ∧ w.Carries w.dequeuePos (w.views .consumer)
  rest : ∀ c, w.AtRest c → w.Guards c (w.memory.top (.sequence c)).view
  published : ∀ q, w.popped.length ≤ q → q < w.claimed.length →
    (w.memory.top (.sequence (w.cell q))).value = q+1 →
    w.Carries q (w.memory.top (.sequence (w.cell q))).view
  received : ∀ q, q < w.popped.length → w.Carries q (w.views .consumer)
  sentLength : w.sent.length = w.claimed.length
  calm : w.memory.racy = false

section Facts

variable {w : WeakRing α ι κ} {k : Nat}

theorem Inv.wrap_eq (h : w.Inv k) (hb : w.claimed.length < 2^63) {q : Nat}
    (hq : q ≤ w.popped.length+(w.mask+1)) : wrap q = q := by
  have hsmall : w.mask+1 ≤ 2^63 := h.laps.small
  have hbehind : w.popped.length ≤ w.claimed.length := h.laps.behind
  exact wrap_of_lt (by omega)

theorem Inv.two_le (h : w.Inv k) : 2 ≤ w.mask+1 := by
  have hpower : w.mask+1 = 2^k := h.laps.power
  rw [hpower]
  exact Nat.pow_le_pow_right Nat.two_pos h.two

theorem Inv.dequeue (h : w.Inv k) (hb : w.claimed.length < 2^63) :
    w.dequeuePos = w.popped.length :=
  h.laps.dequeue.trans (h.wrap_eq hb (Nat.le_add_right _ _))

theorem Inv.claim_spec (h : w.Inv k) (hb : w.claimed.length < 2^63) {p pos : Nat} {item : α}
    (hp : (w.producers p).claim = some (item,pos)) :
    w.popped.length ≤ pos ∧ pos < w.claimed.length ∧
      (w.memory.top (.sequence (w.cell pos))).value = pos := by
  obtain ⟨q,rfl,hown⟩ := h.laps.owners p item pos hp
  have hlt := hown.lt
  have hroom : w.claimed.length ≤ w.popped.length+(w.mask+1) := h.laps.room
  have hle : q ≤ w.popped.length+(w.mask+1) := by
    have : q < w.claimed.length := hlt
    omega
  have hseq := hown.2.2.1
  rw [h.wrap_eq hb hle] at hseq ⊢
  exact ⟨hown.1,hlt,hseq⟩

theorem Inv.cell_ne (h : w.Inv k) {q q' : Nat} (hq : w.popped.length ≤ q)
    (hq' : w.popped.length ≤ q') (hl : q < w.popped.length+(w.mask+1))
    (hl' : q' < w.popped.length+(w.mask+1)) (hne : q ≠ q') : w.cell q ≠ w.cell q' :=
  and_mask_ne h.laps.power hq hq' hl hl' hne

theorem Inv.claim_cell (h : w.Inv k) (hb : w.claimed.length < 2^63) {p p' pos pos' : Nat}
    {item item' : α} (hp : (w.producers p).claim = some (item,pos))
    (hp' : (w.producers p').claim = some (item',pos')) (hne : p' ≠ p) :
    w.cell pos' ≠ w.cell pos := by
  obtain ⟨hq,hl,-⟩ := h.claim_spec hb hp
  obtain ⟨hq',hl',-⟩ := h.claim_spec hb hp'
  have hroom : w.claimed.length ≤ w.popped.length+(w.mask+1) := h.laps.room
  refine h.cell_ne hq' hq (by omega) (by omega) ?_
  rintro rfl
  exact hne (h.laps.unique p' p item' item _ hp' hp)

theorem Inv.taken_spec (h : w.Inv k) (hb : w.claimed.length < 2^63) (hcon : w.consumer ≠ .idle) :
    w.popped.length < w.claimed.length ∧
      (w.memory.top (.sequence (w.cell w.dequeuePos))).value = w.popped.length+1 := by
  obtain ⟨hlt,hseq⟩ := h.laps.checked hcon
  have htwo := h.two_le
  refine ⟨hlt,?_⟩
  rw [h.dequeue hb]
  exact hseq.trans (h.wrap_eq hb (by change w.popped.length+1 ≤ _; omega))

theorem Inv.taken_cell (h : w.Inv k) (hb : w.claimed.length < 2^63) (hcon : w.consumer ≠ .idle)
    {p pos : Nat} {item : α} (hp : (w.producers p).claim = some (item,pos)) :
    w.cell w.dequeuePos ≠ w.cell pos := by
  obtain ⟨hlt,hseq⟩ := h.taken_spec hb hcon
  obtain ⟨hq,hl,hseq'⟩ := h.claim_spec hb hp
  have hroom : w.claimed.length ≤ w.popped.length+(w.mask+1) := h.laps.room
  have hd := h.dequeue hb
  refine h.cell_ne (by omega) hq (by omega) (by omega) ?_
  intro he
  rw [he,hseq'] at hseq
  omega

theorem Inv.loaded_le (h : w.Inv k) {t : Nat} {msg : Message (Loc ι)}
    (hmsg : w.memory.messages .enqueuePos t = some msg) : msg.value ≤ w.claimed.length := by
  have hle := h.wf.le_last _ _ _ hmsg
  rw [h.lastClaim] at hle
  obtain ⟨msg',hmsg',hvalue⟩ := h.claims t hle
  cases hmsg.symm.trans hmsg'
  omega

theorem Inv.value_lt (h : w.Inv k) {pos t : Nat} {msg : Message (Loc ι)}
    (hmsg : w.memory.messages (.sequence (w.cell pos)) t = some msg) : msg.value < 2^64 :=
  Nat.lt_of_le_of_lt ((h.rising _).value_le h.wf hmsg) (h.bounded _ Nat.and_le_right)

theorem Inv.oldest_value (h : w.Inv k) (hb : w.claimed.length < 2^63) :
    (w.memory.top (.sequence (w.cell w.popped.length))).value = w.popped.length ∨
      (w.popped.length < w.claimed.length ∧
        (w.memory.top (.sequence (w.cell w.popped.length))).value = w.popped.length+1) := by
  have htwo := h.two_le
  have hwrap := h.wrap_eq hb (q := w.popped.length) (by omega)
  have hwrap' := h.wrap_eq hb (q := w.popped.length+1) (by omega)
  rcases h.laps.cells _ h.laps.inLap_popped with ⟨-,hs⟩ | ⟨-,hs,-⟩ | ⟨hl,hs,-⟩
  · exact .inl (hs.trans hwrap)
  · exact .inl (hs.trans hwrap)
  · exact .inr ⟨hl,hs.trans hwrap'⟩

end Facts

section Moves

variable {w w' : WeakRing α ι κ} {k p : Nat} {next : Producer α} {v : Past (Loc ι)}

@[simp] theorem moves_producers_self (w : WeakRing α ι κ) (p : Nat) (next : Producer α)
    (v : Past (Loc ι)) : (w.moves p next v).producers p = next := by
  simp [moves]

theorem moves_producers_ne (w : WeakRing α ι κ) {p p' : Nat} (next : Producer α)
    (v : Past (Loc ι)) (h : p' ≠ p) : (w.moves p next v).producers p' = w.producers p' := by
  simp [moves,h]

@[simp] theorem moves_view_self (w : WeakRing α ι κ) (p : Nat) (next : Producer α)
    (v : Past (Loc ι)) : (w.moves p next v).view p = v := by
  simp [moves,view]

theorem moves_view_ne (w : WeakRing α ι κ) {p p' : Nat} (next : Producer α)
    (v : Past (Loc ι)) (h : p' ≠ p) : (w.moves p next v).view p' = w.view p' := by
  simp [moves,view,h]

@[simp] theorem moves_views_consumer (w : WeakRing α ι κ) (p : Nat) (next : Producer α)
    (v : Past (Loc ι)) : (w.moves p next v).views .consumer = w.views .consumer := by
  simp [moves]

theorem moves_claim (h : next.claim = (w.producers p).claim) (p' : Nat) :
    ((w.moves p next v).producers p').claim = (w.producers p').claim :=
  goto_claim w.newest p p' next h

theorem Looked.frame (h : w.Looked p) (hp : w'.producers p = w.producers p)
    (hmask : w'.mask = w.mask) (hview : w'.view p = w.view p)
    (hclaimed : w.claimed.length ≤ w'.claimed.length)
    (hmessages : ∀ c t msg, w.memory.messages (.sequence c) t = some msg →
      w'.memory.messages (.sequence c) t = some msg) : w'.Looked p := by
  unfold Looked at h ⊢
  rw [hp,hview]
  cases hpc : w.producers p with
  | loadSeq item pos =>
    simp only [hpc] at h ⊢
    omega
  | compareExchange item pos =>
    simp only [hpc] at h ⊢
    obtain ⟨t,msg,hmsg,hrest⟩ := h
    refine ⟨t,msg,?_,hrest⟩
    rw [cell,hmask]
    exact hmessages _ t msg hmsg
  | _ => trivial

theorem Inv.look (h : w.Inv k) (hold : (w.producers p).claim = none) (hnext : next.claim = none)
    (hlooked : (w.moves p next v).Looked p) : (w.moves p next v).Inv k := by
  have hclaim := moves_claim (v := v) (hnext.trans hold.symm)
  exact { h with
    laps := h.laps.goto hold hnext
    looked := by
      intro p'
      rcases eq_or_ne p' p with rfl | hne
      · exact hlooked
      · exact (h.looked p').frame (moves_producers_ne w next v hne) rfl (moves_view_ne w next v hne)
          (Nat.le_refl _) (fun _ _ _ hmsg => hmsg)
    owned := by
      intro p' item pos hp
      rw [hclaim] at hp
      have hne : p' ≠ p := by
        rintro rfl
        cases hold.symm.trans hp
      rw [moves_view_ne w next v hne]
      exact h.owned p' item pos hp
    taken := by
      rw [moves_views_consumer]
      exact h.taken
    rest := by
      intro c hc
      refine h.rest c ⟨fun p' item pos hp => hc.1 p' item pos ?_,hc.2⟩
      rw [hclaim,hp]
    received := by
      rw [moves_views_consumer]
      exact h.received }

end Moves

section Claim

variable {w : WeakRing α ι κ} {k p t : Nat} {item : α}

def claiming (w : WeakRing α ι κ) (p : Nat) (item : α) (pos : Nat)
    (m : Memory (Loc ι) (Plain κ)) (v : Past (Loc ι)) : WeakRing α ι κ :=
  { w.moves p (.beginWrite item pos) v with
    memory := m
    claimed := w.claimed ++ [item]
    sent := w.sent ++ [w.view p] }

/-- A compare-exchange succeeds on the last message only. -/
theorem Inv.exchange_last (h : w.Inv k) {msg : Message (Loc ι)}
    (hmsg : w.memory.messages .enqueuePos t = some msg)
    (hfree : w.memory.messages .enqueuePos (t+1) = none) :
    t = w.claimed.length ∧ msg.value = w.claimed.length := by
  have hle := h.wf.le_last _ _ _ hmsg
  rw [h.lastClaim] at hle
  have hlast : t = w.claimed.length := by
    by_contra hne
    obtain ⟨msg',hmsg',-⟩ := h.claims (t+1) (by omega)
    cases hfree.symm.trans hmsg'
  obtain ⟨msg',hmsg',hvalue⟩ := h.claims t hle
  cases hmsg.symm.trans hmsg'
  exact ⟨hlast,hvalue.trans hlast⟩

/-- A sequence number equal to the next position was left by the consumer, so the
queue is not full. -/
theorem Inv.room_of_seen (h : w.Inv k) (hb : w.claimed.length < 2^63) {msg : Message (Loc ι)}
    (hmsg : w.memory.messages (.sequence (w.cell w.claimed.length)) t = some msg)
    (hvalue : msg.value = w.claimed.length) :
    w.claimed.length < w.popped.length+(w.mask+1) := by
  have hroom : w.claimed.length ≤ w.popped.length+(w.mask+1) := h.laps.room
  have htwo := h.two_le
  have hle := (h.rising _).value_le h.wf hmsg
  by_contra hge
  have hfull : w.claimed.length = w.popped.length+(w.mask+1) := by omega
  have hcell : w.cell w.claimed.length = w.cell w.popped.length := by
    rw [cell,hfull]
    exact and_mask_next_lap h.laps.power _
  rw [hcell,hvalue] at hle
  have hseq := h.oldest_value hb
  omega

theorem Inv.next_cell (h : w.Inv k) (hb : w.claimed.length < 2^63)
    (hlt : w.claimed.length < w.popped.length+(w.mask+1)) :
    w.AtRest (w.cell w.claimed.length) ∧
      (w.memory.top (.sequence (w.cell w.claimed.length))).value = w.claimed.length := by
  have hbehind : w.popped.length ≤ w.claimed.length := h.laps.behind
  refine ⟨⟨fun p item pos hp => ?_,fun hcon => ?_⟩,?_⟩
  · obtain ⟨hq,hl,-⟩ := h.claim_spec hb hp
    exact h.cell_ne hq hbehind (by omega) hlt (by omega)
  · obtain ⟨hl,-⟩ := h.taken_spec hb hcon
    rw [h.dequeue hb]
    exact h.cell_ne (Nat.le_refl _) hbehind (by omega) hlt (by omega)
  · exact (h.laps.free hlt).trans (h.wrap_eq hb (Nat.le_of_lt hlt))

theorem carries_claiming {q pos : Nat} {m : Memory (Loc ι) (Plain κ)} {u v : Past (Loc ι)}
    (h : w.Carries q u) (hq : q < w.sent.length) : (w.claiming p item pos m v).Carries q u := by
  intro u' hu
  refine h u' ?_
  rwa [claiming,List.getElem?_append_left hq] at hu

variable [DecidableEq ι]

theorem Inv.claimNext (h : w.Inv k) (hb : w.claimed.length+1 < 2^63)
    (hp : w.producers p = .compareExchange item w.claimed.length)
    (hlt : w.claimed.length < w.popped.length+(w.mask+1))
    (hle : (w.memory.top (.sequence (w.cell w.claimed.length))).view ≤ w.view p)
    {msg : Message (Loc ι)} (hvalue : msg.value = w.claimed.length+1)
    (hview : w.claimed.length+1 ≤ msg.view.1 .enqueuePos) {v : Past (Loc ι)}
    (hv : w.view p ≤ v) :
    (w.claiming p item w.claimed.length
      (w.memory.put .enqueuePos (w.claimed.length+1) msg) v).Inv k := by
  obtain ⟨hrest,hseq⟩ := h.next_cell (by omega) hlt
  have hlast := h.lastClaim
  have hbehind : w.popped.length ≤ w.claimed.length := h.laps.behind
  have hsent := h.sentLength
  have hother (i : Nat) : (Loc.sequence i : Loc ι) ≠ .enqueuePos := by simp
  have hfree : w.memory.messages .enqueuePos (w.claimed.length+1) = none := by
    by_contra hsome
    obtain ⟨msg',hmsg'⟩ := Option.ne_none_iff_exists'.mp hsome
    have := h.wf.le_last _ _ _ hmsg'
    omega
  have htop (i : Nat) := Memory.put_top_ne w.memory (w.claimed.length+1) msg (hother i)
  have hnew : w.newest.enqueuePos = w.claimed.length :=
    h.laps.enqueue.trans (h.wrap_eq (by omega) (Nat.le_of_lt hlt))
  generalize hm : w.memory.put .enqueuePos (w.claimed.length+1) msg = m at htop
  have hguards (c : Nat) (u : Past (Loc ι)) (hg : w.Guards c u) :
      (w.claiming p item w.claimed.length m v).Guards c u := by
    subst hm
    exact hg.put_other (hother c)
  have hnewest : (w.claiming p item w.claimed.length m v).newest =
      { w.newest.goto p (.beginWrite item w.newest.enqueuePos) with
        enqueuePos := wrap (w.newest.enqueuePos+1)
        claimed := w.newest.claimed ++ [item] } := by
    have htop' : (m.top .enqueuePos).value = wrap (w.claimed.length+1) := by
      rw [← hm,Memory.put_top_self (hlast ▸ Nat.lt_succ_self _),hvalue,h.wrap_eq (by omega) hlt]
    rw [hnew,← htop']
    simp only [newest,claiming,htop]
    rfl
  have hclaim : ∀ p' i q, p' ≠ p →
      ((w.claiming p item w.claimed.length m v).producers p').claim = some (i,q) →
        (w.producers p').claim = some (i,q) := by
    intro p' i q hne hc
    rwa [claiming,moves_producers_ne _ _ _ hne] at hc
  have hconsumer : (w.claiming p item w.claimed.length m v).views .consumer = w.views .consumer :=
    moves_views_consumer w p (.beginWrite item w.claimed.length) v
  exact {
    two := h.two
    laps := by
      rw [hnewest]
      refine h.laps.claimNext ?_ hlt
      rw [hnew]
      exact hp
    wf := hm ▸ h.wf.put hview hfree
    claims := by
      intro t ht
      rw [claiming,List.length_append,List.length_singleton] at ht
      rcases Nat.lt_or_eq_of_le ht with hlt' | rfl
      · obtain ⟨old,hold,heq⟩ := h.claims t (by omega)
        exact ⟨old,hm ▸ Memory.put_messages_old hold hfree,heq⟩
      · exact ⟨msg,hm ▸ Memory.put_messages_self _ _ _ _,hvalue⟩
    lastClaim := by
      show m.last .enqueuePos = _
      rw [← hm,Memory.put_last_self,hlast,claiming,List.length_append]
      exact max_eq_right (Nat.le_succ _)
    rising := fun c => hm ▸ (h.rising c).put_other (hother c)
    bounded := by
      intro c hc
      show (m.top (.sequence c)).value < 2^64
      rw [htop]
      exact h.bounded c hc
    looked := by
      intro p'
      rcases eq_or_ne p' p with rfl | hne
      · simp [Looked,claiming]
      · refine (h.looked p').frame (moves_producers_ne w _ v hne) rfl
          (moves_view_ne w (.beginWrite item w.claimed.length) v hne) (by simp [claiming]) ?_
        intro c t old hold
        exact hm ▸ Memory.put_messages_old hold hfree
    owned := by
      intro p' i q hc
      rcases eq_or_ne p' p with rfl | hne
      · simp only [claiming,moves_producers_self,Producer.claim,Option.some.injEq,
          Prod.mk.injEq] at hc
        obtain ⟨rfl,rfl⟩ := hc
        have hself : (w.claiming p' item w.claimed.length m v).view p' = v :=
          moves_view_self w p' (.beginWrite item w.claimed.length) v
        rw [hself]
        refine ⟨hguards _ _ ((h.rest _ hrest).mono (hle.trans hv)),?_⟩
        intro u hu
        rw [claiming,← hsent,List.getElem?_concat_length] at hu
        cases hu
        exact hv
      · have hold := hclaim p' i q hne hc
        obtain ⟨hg,hcarry⟩ := h.owned p' i q hold
        obtain ⟨-,hl,-⟩ := h.claim_spec (by omega) hold
        have hsame : (w.claiming p item w.claimed.length m v).view p' = w.view p' :=
          moves_view_ne w (.beginWrite item w.claimed.length) v hne
        rw [hsame]
        exact ⟨hguards _ _ hg,carries_claiming hcarry (by omega)⟩
    taken := by
      intro hcon
      obtain ⟨hg,hcarry⟩ := h.taken hcon
      obtain ⟨hl,-⟩ := h.taken_spec (by omega) hcon
      have hd := h.dequeue (by omega)
      rw [hconsumer]
      exact ⟨hguards _ _ hg,carries_claiming hcarry (by change w.dequeuePos < _; omega)⟩
    rest := by
      intro c hc
      show (w.claiming p item w.claimed.length m v).Guards c (m.top (.sequence c)).view
      rw [htop]
      refine hguards c _ (h.rest c ⟨fun p' i q hp' => ?_,hc.2⟩)
      have hne : p' ≠ p := by
        rintro rfl
        rw [hp] at hp'
        cases hp'
      refine hc.1 p' i q ?_
      rwa [claiming,moves_producers_ne _ _ _ hne]
    published := by
      intro q hq hl hvalue'
      change (m.top (.sequence (w.cell q))).value = q+1 at hvalue'
      show (w.claiming p item w.claimed.length m v).Carries q (m.top (.sequence (w.cell q))).view
      rw [claiming,List.length_append,List.length_singleton] at hl
      rw [htop] at hvalue' ⊢
      have hne : q ≠ w.claimed.length := by
        rintro rfl
        omega
      exact carries_claiming (h.published q hq (by omega) hvalue') (by omega)
    received := by
      intro q hq
      rw [hconsumer]
      exact carries_claiming (h.received q hq) (by change q < w.popped.length at hq; omega)
    sentLength := by
      rw [claiming,List.length_append,List.length_append,hsent]
      rfl
    calm := hm ▸ h.calm }

theorem Inv.claim (h : w.Inv k) (hb : w.claimed.length+1 < 2^63) {pos : Nat}
    {m : Memory (Loc ι) (Plain κ)} {v : Past (Loc ι)} {found : Message (Loc ι)}
    (hp : w.producers p = .compareExchange item pos)
    (hfound : w.memory.messages .enqueuePos t = some found) (hpos : found.value = pos)
    (hex : w.memory.exchange (w.view p) .enqueuePos (wrap (pos+1)) t = some (m,v)) :
    (w.claiming p item pos m v).Inv k := by
  obtain ⟨-,-,ht,hfree,rfl,view,hview,rfl⟩ := Memory.exchange_spec hex
  obtain ⟨rfl,hvalue⟩ := h.exchange_last hfound hfree
  obtain rfl : pos = w.claimed.length := hpos.symm.trans hvalue
  have hseen := h.looked p
  simp only [Looked,hp] at hseen
  obtain ⟨t,msg,hmsg,hsame,hle⟩ := hseen
  have hlt := h.room_of_seen (by omega) hmsg hsame
  obtain ⟨-,hseq⟩ := h.next_cell (by omega) hlt
  obtain rfl := (h.rising _).eq_top h.wf hmsg (by omega)
  exact h.claimNext hb hp hlt hle (h.wrap_eq (by omega) hlt) hview
    (Past.le_at (Nat.le_succ_of_le ht))

end Claim

section Write

variable {w : WeakRing α ι κ} {k p pos : Nat} {item : α} {next : Producer α}

def writing [DecidableEq κ] (w : WeakRing α ι κ) (p pos : Nat) (next : Producer α)
    (d : Option α) : WeakRing α ι κ :=
  let a := w.memory.access (w.view p) (.data (w.cell pos)) true
  { w.moves p next a.2 with
    memory := a.1
    data := Function.update w.data (w.cell pos) d }

theorem newest_writing [DecidableEq κ] (w : WeakRing α ι κ) (p pos : Nat) (next : Producer α)
    (d : Option α) : (w.writing p pos next d).newest =
      (w.newest.setCell pos { w.newest.cell pos with data := d }).goto p next := by
  have hbuffer : (w.writing p pos next d).newest.buffer =
      Function.update w.newest.buffer (pos &&& w.mask) { w.newest.cell pos with data := d } := by
    funext i
    rcases eq_or_ne i (w.cell pos) with rfl | hne
    · simp [newest,writing,Ring.cell,cell,Memory.access,Memory.top]
    · have hne' : i ≠ pos &&& w.mask := hne
      simp [newest,writing,hne,hne',Memory.access,Memory.top]
  exact congrArg (fun b => ({ w.newest.goto p next with buffer := b } : Ring α)) hbuffer

theorem Inv.write [DecidableEq κ] (h : w.Inv k) (hb : w.claimed.length < 2^63)
    (hp : (w.producers p).claim = some (item,pos)) (hnext : next.claim = some (item,pos))
    {d : Option α} (hwritten : next = .storeSeq item pos → d = some item) :
    (w.writing p pos next d).Inv k := by
  have hclaim := moves_claim (v := (w.memory.access (w.view p) (.data (w.cell pos)) true).2)
    (hnext.trans hp.symm)
  obtain ⟨hguard,hcarry⟩ := h.owned p item pos hp
  have hother (c : Nat) (u : Past (Loc ι)) (hne : c ≠ w.cell pos) (hg : w.Guards c u) :
      (w.writing p pos next d).Guards c u :=
    hg.access_other (fun he => hne (Plain.data.inj he))
  have hconsumer : (w.writing p pos next d).views .consumer = w.views .consumer := by
    simp [writing]
  exact { h with
    laps := by
      rw [newest_writing]
      exact h.laps.ownCell hp (.inl ⟨hnext,rfl⟩) hwritten
    wf := h.wf.access
    looked := by
      intro p'
      rcases eq_or_ne p' p with rfl | hne
      · have hself : (w.writing p' pos next d).producers p' = next := by
          simp [writing]
        unfold Looked
        rw [hself]
        cases next <;> trivial
      · exact (h.looked p').frame (by simp [writing,moves,hne]) rfl
          (by simp [writing,view,moves,hne]) (Nat.le_refl _) (fun _ _ _ hmsg => hmsg)
    owned := by
      intro p' item' pos' hp'
      have hold := (hclaim p').symm.trans hp'
      rcases eq_or_ne p' p with rfl | hne
      · cases hp.symm.trans hold
        have hself : (w.writing p' pos next d).view p' =
            (w.memory.access (w.view p') (.data (w.cell pos)) true).2 := by
          simp [writing,view,moves]
        rw [hself]
        exact ⟨hguard.access_self,fun u hu => (hcarry u hu).trans (Memory.le_access _ _ _ _)⟩
      · obtain ⟨hg,hc⟩ := h.owned p' item' pos' hold
        have hsame : (w.writing p pos next d).view p' = w.view p' := by
          simp [writing,view,moves,hne]
        rw [hsame]
        exact ⟨hother _ _ (h.claim_cell hb hp hold hne) hg,hc⟩
    taken := by
      intro hcon
      obtain ⟨hg,hc⟩ := h.taken hcon
      rw [hconsumer]
      exact ⟨hother _ _ (h.taken_cell hb hcon hp) hg,hc⟩
    rest := by
      intro c hc
      have hrest : w.AtRest c :=
        ⟨fun p' item' pos' hp' => hc.1 p' item' pos' ((hclaim p').trans hp'),hc.2⟩
      exact hother c _ (fun he => hrest.1 p item pos hp he.symm) (h.rest c hrest)
    received := by
      rw [hconsumer]
      exact h.received
    calm := hguard.known.access_racy.trans h.calm }

end Write

section Publish

variable [DecidableEq ι] {w : WeakRing α ι κ} {k p pos t : Nat} {item : α}

def publishing (w : WeakRing α ι κ) (p pos t : Nat) : WeakRing α ι κ :=
  let v := (w.view p).at (.sequence (w.cell pos)) t
  { w.moves p .idle v with
    memory := w.memory.put (.sequence (w.cell pos)) t ⟨wrap (pos+1),v⟩ }

theorem newest_publishing (h : w.memory.last (.sequence (w.cell pos)) < t) :
    (w.publishing p pos t).newest =
      (w.newest.setCell pos { w.newest.cell pos with sequence := wrap (pos+1) }).goto p .idle := by
  have hbuffer : (w.publishing p pos t).newest.buffer = Function.update w.newest.buffer
      (pos &&& w.mask) { w.newest.cell pos with sequence := wrap (pos+1) } := by
    funext i
    rcases eq_or_ne i (w.cell pos) with rfl | hne
    · have hlast : w.memory.last (.sequence (pos &&& w.mask)) < t := h
      simp [newest,publishing,moves,Ring.cell,cell,Memory.put_top_self hlast]
    · have hne' : i ≠ pos &&& w.mask := hne
      simp [newest,publishing,moves,hne,hne',Memory.put_top_ne]
  have henqueue : (w.publishing p pos t).newest.enqueuePos = w.newest.enqueuePos :=
    congrArg Message.value (Memory.put_top_ne _ _ _ (by simp))
  exact congrArg₂ (fun b e => ({ w.newest.goto p .idle with buffer := b, enqueuePos := e } : Ring α))
    hbuffer henqueue

theorem Inv.publish (h : w.Inv k) (hb : w.claimed.length < 2^63)
    (hp : w.producers p = .storeSeq item pos)
    (ht : (w.view p).1 (.sequence (w.cell pos)) < t)
    (hfree : w.memory.messages (.sequence (w.cell pos)) t = none) :
    (w.publishing p pos t).Inv k := by
  have hclaim : (w.producers p).claim = some (item,pos) := by rw [hp,Producer.claim]
  obtain ⟨hq,hl,hseq⟩ := h.claim_spec hb hclaim
  obtain ⟨hguard,hcarry⟩ := h.owned p item pos hclaim
  have hroom : w.claimed.length ≤ w.popped.length+(w.mask+1) := h.laps.room
  have hwrap := h.wrap_eq hb (q := pos+1) (by omega)
  have hlast : w.memory.last (.sequence (w.cell pos)) < t := Nat.lt_of_le_of_lt hguard.newest ht
  have hgrow := Past.le_at (Nat.le_of_lt ht)
  have hconsumer : (w.publishing p pos t).views .consumer = w.views .consumer := by
    simp [publishing]
  have hother (c : Nat) (u : Past (Loc ι)) (hne : c ≠ w.cell pos) (hg : w.Guards c u) :
      (w.publishing p pos t).Guards c u :=
    hg.put_other (fun he => hne (Loc.sequence.inj he))
  have htop (c : Nat) (hne : c ≠ w.cell pos) :
      (w.publishing p pos t).memory.top (.sequence c) = w.memory.top (.sequence c) :=
    Memory.put_top_ne _ _ _ (fun he => hne (Loc.sequence.inj he))
  have hself : (w.publishing p pos t).memory.top (.sequence (w.cell pos)) =
      ⟨wrap (pos+1),(w.view p).at (.sequence (w.cell pos)) t⟩ := Memory.put_top_self hlast
  have hapart : (Loc.enqueuePos : Loc ι) ≠ .sequence (w.cell pos) := by simp
  have hidle : (w.publishing p pos t).producers p = .idle := by simp [publishing]
  have hsame (p' : Nat) (hne : p' ≠ p) :
      (w.publishing p pos t).producers p' = w.producers p' := by
    simp [publishing,moves,hne]
  have hview (p' : Nat) (hne : p' ≠ p) : (w.publishing p pos t).view p' = w.view p' := by
    simp [publishing,view,moves,hne]
  exact {
    two := h.two
    laps := by
      rw [newest_publishing hlast]
      refine h.laps.producerStep (p := p) (fun _ hnone => by cases hnone)
        (show w.newest.producerStep p true = _ from ?_)
      simp [Ring.producerStep,newest,hp]
    wf := h.wf.put (by simp) hfree
    claims := by
      intro u hu
      obtain ⟨msg,hmsg,hvalue⟩ := h.claims u hu
      exact ⟨msg,Memory.put_messages_old hmsg hfree,hvalue⟩
    lastClaim := (Memory.put_last_ne _ _ _ hapart).trans h.lastClaim
    rising := by
      intro c
      rcases eq_or_ne c (w.cell pos) with rfl | hne
      · exact (h.rising _).put_self h.wf hlast (show _ < wrap (pos+1) by omega)
      · exact (h.rising c).put_other (fun he => hne (Loc.sequence.inj he))
    bounded := by
      intro c hc
      rcases eq_or_ne c (w.cell pos) with rfl | hne
      · rw [hself]
        exact wrap_lt _
      · rw [htop c hne]
        exact h.bounded c hc
    looked := by
      intro p'
      rcases eq_or_ne p' p with rfl | hne
      · simp [Looked,hidle]
      · exact (h.looked p').frame (hsame p' hne) rfl (hview p' hne) (Nat.le_refl _)
          (fun _ _ _ hmsg => Memory.put_messages_old hmsg hfree)
    owned := by
      intro p' item' pos' hp'
      have hne : p' ≠ p := by
        rintro rfl
        rw [hidle] at hp'
        cases hp'
      rw [hsame p' hne] at hp'
      obtain ⟨hg,hc⟩ := h.owned p' item' pos' hp'
      rw [hview p' hne]
      exact ⟨hother _ _ (h.claim_cell hb hclaim hp' hne) hg,hc⟩
    taken := by
      intro hcon
      obtain ⟨hg,hc⟩ := h.taken hcon
      rw [hconsumer]
      exact ⟨hother _ _ (h.taken_cell hb hcon hclaim) hg,hc⟩
    rest := by
      intro c hc
      rcases eq_or_ne c (w.cell pos) with rfl | hne
      · rw [hself]
        exact hguard.put_self ht
      · rw [htop c hne]
        refine hother c _ hne (h.rest c ⟨fun p' item' pos' hp' => ?_,hc.2⟩)
        rcases eq_or_ne p' p with rfl | hp''
        · cases hclaim.symm.trans hp'
          exact hne.symm
        · exact hc.1 p' item' pos' (by rw [hsame p' hp'',hp'])
    published := by
      intro q hq' hl' hvalue
      change (Memory.top (w.publishing p pos t).memory (.sequence (w.cell q))).value = q+1 at hvalue
      show w.Carries q (Memory.top (w.publishing p pos t).memory (.sequence (w.cell q))).view
      rcases eq_or_ne q pos with rfl | hne
      · rw [hself]
        exact fun u hu => (hcarry u hu).trans hgrow
      · have hcell : w.cell q ≠ w.cell pos := by
          change w.popped.length ≤ q at hq'
          change q < w.claimed.length at hl'
          exact h.cell_ne hq' hq (by omega) (by omega) hne
        rw [htop _ hcell] at hvalue ⊢
        exact h.published q hq' hl' hvalue
    received := by
      rw [hconsumer]
      exact h.received
    sentLength := h.sentLength
    calm := h.calm }

end Publish

section Consume

variable {w : WeakRing α ι κ} {k t : Nat} {v : Past (Loc ι)}

def receiving (w : WeakRing α ι κ) (next : Consumer α) (v : Past (Loc ι)) : WeakRing α ι κ :=
  { w with
    consumer := next
    views := Function.update w.views .consumer v }

@[simp] theorem receiving_view (w : WeakRing α ι κ) (next : Consumer α) (v : Past (Loc ι))
    (p : Nat) : (w.receiving next v).view p = w.view p := by
  simp [receiving,view]

@[simp] theorem receiving_views_consumer (w : WeakRing α ι κ) (next : Consumer α)
    (v : Past (Loc ι)) : (w.receiving next v).views .consumer = v := by
  simp [receiving]

theorem Inv.miss (h : w.Inv k) (hcon : w.consumer = .idle) (hle : w.views .consumer ≤ v) :
    (w.receiving .idle v).Inv k := by
  exact { h with
    laps := by
      have hsame : (w.receiving .idle v).newest = w.newest := by
        simp only [newest,receiving,hcon]
      rw [hsame]
      exact h.laps
    looked := by
      intro p
      exact (h.looked p).frame rfl rfl (receiving_view _ _ _ _) (Nat.le_refl _)
        (fun _ _ _ hmsg => hmsg)
    owned := by
      intro p item pos hp
      rw [receiving_view]
      exact h.owned p item pos hp
    taken := fun hidle => absurd rfl hidle
    rest := by
      intro c hc
      exact h.rest c ⟨hc.1,fun hidle => absurd hcon hidle⟩
    received := by
      intro q hq u hu
      rw [receiving_views_consumer]
      exact (h.received q hq u hu).trans hle }

theorem Inv.found_last (h : w.Inv k) (hb : w.claimed.length < 2^63) {msg : Message (Loc ι)}
    (hmsg : w.memory.messages (.sequence (w.cell w.dequeuePos)) t = some msg)
    (hd : diff msg.value (wrap (w.dequeuePos+1)) = 0) :
    msg = w.memory.top (.sequence (w.cell w.dequeuePos)) ∧ msg.value = w.popped.length+1 ∧
      w.popped.length < w.claimed.length := by
  have htwo := h.two_le
  have hle := (h.rising _).value_le h.wf hmsg
  have hold := h.oldest_value hb
  rw [h.dequeue hb] at hmsg hle hd ⊢
  rw [diff_eq_zero (h.value_lt hmsg) (wrap_lt _),h.wrap_eq hb (by omega)] at hd
  refine ⟨(h.rising _).eq_top h.wf hmsg (by omega),hd,?_⟩
  omega

theorem Inv.found (h : w.Inv k) (hb : w.claimed.length < 2^63) (hcon : w.consumer = .idle)
    (hle : w.views .consumer ≤ v) {msg : Message (Loc ι)}
    (hmsg : w.memory.messages (.sequence (w.cell w.dequeuePos)) t = some msg)
    (hd : diff msg.value (wrap (w.dequeuePos+1)) = 0) (hview : msg.view ≤ v) :
    (w.receiving .readData v).Inv k := by
  obtain ⟨rfl,hvalue,hlt⟩ := h.found_last hb hmsg hd
  have hroom : w.claimed.length ≤ w.popped.length+(w.mask+1) := h.laps.room
  have hrest : w.AtRest (w.cell w.dequeuePos) := by
    refine ⟨fun p item pos hp he => ?_,fun hidle => absurd hcon hidle⟩
    obtain ⟨hq,hl,hseq⟩ := h.claim_spec hb hp
    have hpos : pos = w.popped.length := by
      by_contra hne
      rw [h.dequeue hb] at he
      exact h.cell_ne hq (Nat.le_refl _) (by omega) (by omega) hne he
    rw [he] at hseq
    omega
  exact { h with
    laps := by
      have hstep : (w.receiving .readData v).newest = w.newest.consumerStep := by
        have hidle : w.newest.consumer = .idle := hcon
        have hzero : diff (w.newest.cell w.newest.dequeuePos).sequence
            (wrap (w.newest.dequeuePos+1)) = 0 := hd
        simp only [Ring.consumerStep,hidle,hzero,ne_eq,not_true_eq_false,if_false]
        rfl
      rw [hstep]
      exact h.laps.consumerStep
    looked := by
      intro p
      exact (h.looked p).frame rfl rfl (receiving_view _ _ _ _) (Nat.le_refl _)
        (fun _ _ _ hmsg => hmsg)
    owned := by
      intro p item pos hp
      rw [receiving_view]
      exact h.owned p item pos hp
    taken := by
      intro _
      rw [receiving_views_consumer]
      refine ⟨(h.rest _ hrest).mono hview,fun u hu => ?_⟩
      change w.sent[w.dequeuePos]? = some u at hu
      rw [h.dequeue hb] at hu hvalue hview
      exact (h.published _ (Nat.le_refl _) hlt hvalue u hu).trans hview
    rest := by
      intro c hc
      exact h.rest c ⟨hc.1,fun hidle => absurd hcon hidle⟩
    received := by
      intro q hq u hu
      rw [receiving_views_consumer]
      exact (h.received q hq u hu).trans hle }

def reading [DecidableEq κ] (w : WeakRing α ι κ) : WeakRing α ι κ :=
  let a := w.memory.access (w.views .consumer) (.data (w.cell w.dequeuePos)) false
  { w.receiving (.storeSeq (w.data (w.cell w.dequeuePos))) a.2 with memory := a.1 }

theorem Inv.read [DecidableEq κ] (h : w.Inv k) (hb : w.claimed.length < 2^63)
    (hcon : w.consumer = .readData) : w.reading.Inv k := by
  have hbusy : w.consumer ≠ .idle := by simp [hcon]
  obtain ⟨hguard,hcarry⟩ := h.taken hbusy
  have hle := Memory.le_access w.memory (w.views .consumer) (.data (w.cell w.dequeuePos)) false
  have hother (c : Nat) (u : Past (Loc ι)) (hne : c ≠ w.cell w.dequeuePos) (hg : w.Guards c u) :
      w.reading.Guards c u :=
    hg.access_other (fun he => hne (Plain.data.inj he))
  have hview (p : Nat) : w.reading.view p = w.view p := by simp [reading,receiving,view]
  have hself : w.reading.views .consumer =
      (w.memory.access (w.views .consumer) (.data (w.cell w.dequeuePos)) false).2 := by
    simp [reading]
  exact { h with
    laps := by
      have hstep : w.reading.newest = w.newest.consumerStep := by
        have hread : w.newest.consumer = .readData := hcon
        simp only [Ring.consumerStep,hread]
        rfl
      rw [hstep]
      exact h.laps.consumerStep
    wf := h.wf.access
    looked := by
      intro p
      exact (h.looked p).frame rfl rfl (hview p) (Nat.le_refl _) (fun _ _ _ hmsg => hmsg)
    owned := by
      intro p item pos hp
      obtain ⟨hg,hc⟩ := h.owned p item pos hp
      rw [hview]
      exact ⟨hother _ _ (h.taken_cell hb hbusy hp).symm hg,hc⟩
    taken := by
      intro _
      rw [hself]
      exact ⟨hguard.access_self,fun u hu => (hcarry u hu).trans hle⟩
    rest := by
      intro c hc
      have hne : w.cell w.dequeuePos ≠ c := hc.2 (by simp [reading,receiving])
      exact hother c _ hne.symm (h.rest c ⟨hc.1,fun _ => hne⟩)
    received := by
      intro q hq u hu
      rw [hself]
      exact (h.received q hq u hu).trans hle
    calm := hguard.known.access_racy.trans h.calm }

def releasing [DecidableEq ι] (w : WeakRing α ι κ) (out : Option α) (t : Nat) : WeakRing α ι κ :=
  let v := (w.views .consumer).at (.sequence (w.cell w.dequeuePos)) t
  { w.receiving .idle v with
    memory := w.memory.put (.sequence (w.cell w.dequeuePos)) t ⟨wrap (w.dequeuePos+w.mask+1),v⟩
    dequeuePos := wrap (w.dequeuePos+1)
    popped := w.popped ++ [out] }

theorem newest_releasing [DecidableEq ι] {out : Option α} (hcon : w.consumer = .storeSeq out)
    (h : w.memory.last (.sequence (w.cell w.dequeuePos)) < t) :
    (w.releasing out t).newest = w.newest.consumerStep := by
  have hbuffer : (w.releasing out t).newest.buffer = Function.update w.newest.buffer
      (w.dequeuePos &&& w.mask)
      { w.newest.cell w.dequeuePos with sequence := wrap (w.dequeuePos+w.mask+1) } := by
    funext i
    rcases eq_or_ne i (w.cell w.dequeuePos) with rfl | hne
    · have hlast : w.memory.last (.sequence (w.dequeuePos &&& w.mask)) < t := h
      simp [newest,releasing,receiving,Ring.cell,cell,Memory.put_top_self hlast]
    · have hne' : i ≠ w.dequeuePos &&& w.mask := hne
      simp [newest,releasing,receiving,hne,hne',Memory.put_top_ne]
  have henqueue : (w.releasing out t).newest.enqueuePos = w.newest.enqueuePos :=
    congrArg Message.value (Memory.put_top_ne _ _ _ (by simp))
  have hstore : w.newest.consumer = .storeSeq out := hcon
  simp only [Ring.consumerStep,hstore]
  exact congrArg₂ (fun b e => ({ w.newest with
    buffer := b, enqueuePos := e, dequeuePos := wrap (w.dequeuePos+1), consumer := .idle,
    popped := w.popped ++ [out] } : Ring α)) hbuffer henqueue

theorem Inv.release [DecidableEq ι] (h : w.Inv k) (hb : w.claimed.length < 2^63)
    {out : Option α} (hcon : w.consumer = .storeSeq out)
    (ht : (w.views .consumer).1 (.sequence (w.cell w.dequeuePos)) < t)
    (hfree : w.memory.messages (.sequence (w.cell w.dequeuePos)) t = none) :
    (w.releasing out t).Inv k := by
  have hbusy : w.consumer ≠ .idle := by simp [hcon]
  obtain ⟨hguard,hcarry⟩ := h.taken hbusy
  obtain ⟨hlt,hseq⟩ := h.taken_spec hb hbusy
  have htwo := h.two_le
  have hd := h.dequeue hb
  have hroom : w.claimed.length ≤ w.popped.length+(w.mask+1) := h.laps.room
  have hwrap := h.wrap_eq hb (q := w.popped.length+w.mask+1) (by omega)
  have hlast : w.memory.last (.sequence (w.cell w.dequeuePos)) < t :=
    Nat.lt_of_le_of_lt hguard.newest ht
  have hgrow := Past.le_at (Nat.le_of_lt ht)
  have hother (c : Nat) (u : Past (Loc ι)) (hne : c ≠ w.cell w.dequeuePos) (hg : w.Guards c u) :
      (w.releasing out t).Guards c u :=
    hg.put_other (fun he => hne (Loc.sequence.inj he))
  have htop (c : Nat) (hne : c ≠ w.cell w.dequeuePos) :
      (w.releasing out t).memory.top (.sequence c) = w.memory.top (.sequence c) :=
    Memory.put_top_ne _ _ _ (fun he => hne (Loc.sequence.inj he))
  have hself : (w.releasing out t).memory.top (.sequence (w.cell w.dequeuePos)) =
      ⟨wrap (w.dequeuePos+w.mask+1),(w.views .consumer).at (.sequence (w.cell w.dequeuePos)) t⟩ :=
    Memory.put_top_self hlast
  have hview (p : Nat) : (w.releasing out t).view p = w.view p := by
    simp [releasing,receiving,view]
  have hconsumer : (w.releasing out t).views .consumer =
      (w.views .consumer).at (.sequence (w.cell w.dequeuePos)) t := by
    simp [releasing]
  have hapart : (Loc.enqueuePos : Loc ι) ≠ .sequence (w.cell w.dequeuePos) := by simp
  exact {
    two := h.two
    laps := by
      rw [newest_releasing hcon hlast]
      exact h.laps.consumerStep
    wf := h.wf.put (by simp) hfree
    claims := by
      intro u hu
      obtain ⟨msg,hmsg,hvalue⟩ := h.claims u hu
      exact ⟨msg,Memory.put_messages_old hmsg hfree,hvalue⟩
    lastClaim := (Memory.put_last_ne _ _ _ hapart).trans h.lastClaim
    rising := by
      intro c
      rcases eq_or_ne c (w.cell w.dequeuePos) with rfl | hne
      · refine (h.rising _).put_self h.wf hlast ?_
        show _ < wrap (w.dequeuePos+w.mask+1)
        rw [hseq,hd,hwrap]
        omega
      · exact (h.rising c).put_other (fun he => hne (Loc.sequence.inj he))
    bounded := by
      intro c hc
      rcases eq_or_ne c (w.cell w.dequeuePos) with rfl | hne
      · rw [hself]
        exact wrap_lt _
      · rw [htop c hne]
        exact h.bounded c hc
    looked := by
      intro p
      exact (h.looked p).frame rfl rfl (hview p) (Nat.le_refl _)
        (fun _ _ _ hmsg => Memory.put_messages_old hmsg hfree)
    owned := by
      intro p item pos hp
      obtain ⟨hg,hc⟩ := h.owned p item pos hp
      rw [hview]
      exact ⟨hother _ _ (h.taken_cell hb hbusy hp).symm hg,hc⟩
    taken := fun hidle => absurd rfl hidle
    rest := by
      intro c hc
      rcases eq_or_ne c (w.cell w.dequeuePos) with rfl | hne
      · rw [hself]
        exact hguard.put_self ht
      · rw [htop c hne]
        exact hother c _ hne (h.rest c ⟨hc.1,fun _ => hne.symm⟩)
    published := by
      intro q hq hl hvalue
      change (Memory.top (w.releasing out t).memory (.sequence (w.cell q))).value = q+1 at hvalue
      show w.Carries q (Memory.top (w.releasing out t).memory (.sequence (w.cell q))).view
      change (w.popped ++ [out]).length ≤ q at hq
      change q < w.claimed.length at hl
      rw [List.length_append,List.length_singleton] at hq
      have hcell : w.cell q ≠ w.cell w.dequeuePos := by
        rw [hd]
        exact h.cell_ne (by omega) (Nat.le_refl _) (by omega) (by omega) (by omega)
      rw [htop _ hcell] at hvalue ⊢
      exact h.published q (by omega) hl hvalue
    received := by
      intro q hq u hu
      change q < (w.popped ++ [out]).length at hq
      rw [List.length_append,List.length_singleton] at hq
      rw [hconsumer]
      rcases Nat.lt_or_eq_of_le (Nat.le_of_lt_succ hq) with hlt' | rfl
      · exact (h.received q hlt' u hu).trans hgrow
      · exact (hcarry u (hd ▸ hu)).trans hgrow
    sentLength := h.sentLength
    calm := h.calm }

end Consume

section Steps

variable [DecidableEq ι] [DecidableEq κ] {w w' : WeakRing α ι κ} {k : Nat}

theorem Inv.producerStep (h : w.Inv k) {p t : Nat} {spurious : Bool}
    (hs : w.producerStep p t spurious = some w') (hb : w'.claimed.length < 2^63) : w'.Inv k := by
  unfold WeakRing.producerStep at hs
  have hold := h.looked p
  unfold Looked at hold
  cases hpc : w.producers p with
  | idle => simp [hpc] at hs
  | loadPos item =>
    simp only [hpc] at hs
    obtain ⟨⟨pos,v⟩,hload,rfl⟩ := Option.map_eq_some_iff.mp hs
    obtain ⟨msg,hmsg,rfl,-⟩ := Memory.load_spec hload
    refine h.look (by simp [hpc,Producer.claim]) rfl ?_
    simp only [Looked,moves_producers_self]
    exact h.loaded_le hmsg
  | loadSeq item pos =>
    simp only [hpc] at hs
    obtain ⟨⟨seq,v⟩,hload,hs⟩ := Option.map_eq_some_iff.mp hs
    obtain ⟨msg,hmsg,rfl,-,-,hview⟩ := Memory.load_spec hload
    have hclaim : (w.producers p).claim = none := by simp [hpc,Producer.claim]
    simp only [hpc] at hold
    dsimp only at hs
    split at hs
    · case isTrue hd =>
      subst hs
      refine h.look hclaim rfl ?_
      simp only [Looked,moves_producers_self,moves_view_self]
      rw [diff_eq_zero (h.value_lt hmsg) ?_] at hd
      · exact ⟨t,msg,hmsg,hd,hview rfl⟩
      · change w.claimed.length < 2^63 at hb
        omega
    · split at hs
      · subst hs
        exact h.look hclaim rfl (by simp [Looked])
      · subst hs
        exact h.look hclaim rfl (by simp [Looked])
  | compareExchange item pos =>
    simp only [hpc] at hs
    obtain ⟨⟨found,v⟩,hload,hs⟩ := Option.bind_eq_some_iff.mp hs
    obtain ⟨msg,hmsg,rfl,-⟩ := Memory.load_spec hload
    dsimp only at hs
    split at hs
    · case isTrue hc =>
      obtain ⟨⟨m,v'⟩,hex,rfl⟩ := Option.map_eq_some_iff.mp hs
      exact h.claim (by simpa using hb) hpc hmsg hc.1 hex
    · cases hs
      refine h.look (by simp [hpc,Producer.claim]) rfl ?_
      simp only [Looked,moves_producers_self]
      exact h.loaded_le hmsg
  | beginWrite item pos =>
    simp only [hpc,Option.some.injEq] at hs
    subst hs
    exact h.write hb (by rw [hpc,Producer.claim]) rfl (by simp)
  | endWrite item pos =>
    simp only [hpc,Option.some.injEq] at hs
    subst hs
    exact h.write hb (by rw [hpc,Producer.claim]) rfl (fun _ => rfl)
  | storeSeq item pos =>
    simp only [hpc] at hs
    obtain ⟨⟨m,v⟩,hstore,rfl⟩ := Option.map_eq_some_iff.mp hs
    obtain ⟨ht,hfree,rfl,view,-,rfl,hrelease⟩ := Memory.store_spec hstore
    obtain rfl := hrelease rfl
    exact h.publish hb hpc ht hfree

theorem Inv.consumerStep (h : w.Inv k) {t : Nat} (hs : w.consumerStep t = some w')
    (hb : w'.claimed.length < 2^63) : w'.Inv k := by
  unfold WeakRing.consumerStep at hs
  cases hcon : w.consumer with
  | idle =>
    simp only [hcon] at hs
    obtain ⟨⟨seq,v⟩,hload,rfl⟩ := Option.map_eq_some_iff.mp hs
    obtain ⟨msg,hmsg,rfl,hle,-,hview⟩ := Memory.load_spec hload
    by_cases hd : diff msg.value (wrap (w.dequeuePos+1)) = 0
    · simp only [hd,ne_eq,not_true_eq_false,if_false]
      exact h.found hb hcon hle hmsg hd (hview rfl)
    · simp only [ne_eq,hd,not_false_eq_true,if_true]
      exact h.miss hcon hle
  | readData =>
    simp only [hcon,Option.some.injEq] at hs
    subst hs
    exact h.read hb hcon
  | storeSeq out =>
    simp only [hcon] at hs
    obtain ⟨⟨m,v⟩,hstore,rfl⟩ := Option.map_eq_some_iff.mp hs
    obtain ⟨ht,hfree,rfl,view,-,rfl,hrelease⟩ := Memory.store_spec hstore
    obtain rfl := hrelease rfl
    exact h.release hb hcon ht hfree

theorem Inv.step (h : w.Inv k) {a : Action α} (hs : w.step a = some w')
    (hb : w'.claimed.length < 2^63) : w'.Inv k := by
  cases a with
  | tryPush p item =>
    simp only [WeakRing.step] at hs
    split at hs
    · case h_1 hpc =>
      cases hs
      exact h.look (by simp [hpc,Producer.claim]) rfl (by simp [Looked])
    · cases hs
  | producer p t spurious => exact h.producerStep hs hb
  | consumer t => exact h.consumerStep hs hb

end Steps

theorem Inv.new {k : Nat} (hk : 1 ≤ k) (hk' : k ≤ 63) (other : ι → Nat) :
    (WeakRing.new (2^k) other : WeakRing α ι κ).Inv k := by
  have hmessages : ∀ x t msg, (WeakRing.new (2^k) other : WeakRing α ι κ).memory.messages x t =
      some msg → t = 0 := by
    intro x t msg h
    simp only [WeakRing.new,Memory.init] at h
    split at h
    · assumption
    · cases h
  exact {
    two := hk
    laps := Ring.Laps.new hk'
    wf := .init _
    claims := by
      intro t ht
      obtain rfl : t = 0 := Nat.le_zero.mp ht
      exact ⟨_,rfl,rfl⟩
    lastClaim := rfl
    rising := by
      intro c t t' msg msg' h h' hlt
      have := hmessages _ _ _ h'
      omega
    bounded := by
      intro c hc
      have hle : 2^k ≤ 2^63 := Nat.pow_le_pow_right (by omega) hk'
      change c ≤ 2^k-1 at hc
      show c < 2^64
      omega
    looked := fun _ => trivial
    owned := fun _ _ _ h => by cases h
    taken := fun h => absurd rfl h
    rest := fun c _ => ⟨Nat.le_refl _,fun i b h => by cases h⟩
    published := fun q _ h => absurd h (Nat.not_lt_zero q)
    received := fun q h => absurd h (Nat.not_lt_zero q)
    sentLength := rfl
    calm := rfl }

theorem Inv.other {w : WeakRing α ι κ} {k : Nat} (h : w.Inv k) {thread : Thread}
    {m : Memory (Loc ι) (Plain κ)} {v : Past (Loc ι)} (hv : w.views thread ≤ v)
    (hm : w.memory.Keeps m (fun x => x.ofQueue = true) (fun y => y.ofQueue = true)) (hwf : m.Wf)
    (hcalm : m.racy = false) :
    ({ w with memory := m, views := Function.update w.views thread v } : WeakRing α ι κ).Inv k := by
  have hgrow (other : Thread) : w.views other ≤ Function.update w.views thread v other := by
    rcases eq_or_ne other thread with rfl | hne
    · rwa [Function.update_self]
    · rw [Function.update_of_ne hne]
  have htop (c : Nat) : m.top (.sequence c) = w.memory.top (.sequence c) := hm.top rfl
  have hguards (c : Nat) (u u' : Past (Loc ι)) (hle : u ≤ u') (hg : w.Guards c u) :
      m.Guards (.sequence c) (.data c) u' := (hm.guards rfl rfl hg).mono hle
  have hnewest : ({ w with
      memory := m
      views := Function.update w.views thread v } : WeakRing α ι κ).newest = w.newest := by
    simp only [newest,htop,hm.top (x := .enqueuePos) rfl]
  exact {
    two := h.two
    laps := hnewest ▸ h.laps
    wf := hwf
    claims := by
      rw [hm.messages .enqueuePos rfl]
      exact h.claims
    lastClaim := (hm.last .enqueuePos rfl).trans h.lastClaim
    rising := fun c => hm.rising rfl (h.rising c)
    bounded := fun c hc => (htop c).symm ▸ h.bounded c hc
    looked := by
      intro p
      have hlooked := h.looked p
      unfold Looked at hlooked ⊢
      dsimp only
      split at hlooked
      · exact hlooked
      · obtain ⟨t,msg,hmsg,hvalue,hle⟩ := hlooked
        exact ⟨t,msg,(congrFun (hm.messages _ rfl) t).trans hmsg,hvalue,hle.trans (hgrow _)⟩
      · trivial
    owned := by
      intro p item pos hp
      obtain ⟨hg,hc⟩ := h.owned p item pos hp
      exact ⟨hguards _ _ _ (hgrow _) hg,fun u hu => (hc u hu).trans (hgrow _)⟩
    taken := by
      intro hcon
      obtain ⟨hg,hc⟩ := h.taken hcon
      exact ⟨hguards _ _ _ (hgrow _) hg,fun u hu => (hc u hu).trans (hgrow _)⟩
    rest := by
      intro c hc
      show m.Guards _ _ (m.top (.sequence c)).view
      rw [htop]
      exact hguards c _ _ (le_refl _) (h.rest c hc)
    published := by
      intro q hq hl hvalue
      change (m.top (.sequence (w.cell q))).value = q+1 at hvalue
      show w.Carries q (m.top (.sequence (w.cell q))).view
      rw [htop] at hvalue ⊢
      exact h.published q hq hl hvalue
    received := fun q hq u hu => (h.received q hq u hu).trans (hgrow _)
    sentLength := h.sentLength
    calm := hcalm }

section Runs

variable [DecidableEq ι] [DecidableEq κ]

theorem step_claimed_le {w w' : WeakRing α ι κ} {a : Action α} (hs : w.step a = some w') :
    w.claimed.length ≤ w'.claimed.length := by
  cases a with
  | tryPush p item =>
    simp only [step] at hs
    split at hs
    · cases hs
      exact Nat.le_refl _
    · cases hs
  | producer p t spurious => exact (producerStep_claimed hs).length_le
  | consumer t =>
    obtain ⟨-,-,hclaimed,-⟩ := consumerStep_frame hs
    rw [hclaimed]

end Runs

end FinancialLedger.RingBuffer.WeakRing
