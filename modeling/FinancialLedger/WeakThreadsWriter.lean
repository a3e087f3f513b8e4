import FinancialLedger.WeakThreadsSteps
set_option autoImplicit false

/-!
The writer's steps, and what every run gives its clients: no data race, the answer of the
engine that takes the requests one by one, and copies that have in them what their reader
has heard of.
-/

namespace FinancialLedger
open Wal ViewMemory RingBuffer

namespace WeakThreads

variable {e : LedgerEngine} {s s' : WeakThreads} {k p : Nat}

structure WriterStep (s s' : WeakThreads) : Prop where
  sent : s'.ring.sent = s.ring.sent
  client : s'.client = s.client
  ticket : s'.ticket = s.ticket
  producers : s'.ring.producers = s.ring.producers
  views : ∀ p, s'.ring.view p = s.ring.view p
  consumer : s.ring.views .consumer ≤ s'.ring.views .consumer
  holds : s'.holds = s.holds
  heard : s'.heard = s.heard
  read : s'.read = s.read
  writes : ∀ v n, n < s.states.length → s.memory.KnowsWrites v (.other (.state n)) →
    s'.memory.KnowsWrites v (.other (.state n))

section Frames

theorem WriterStep.grows (hw : s.WriterStep s') (hx : s.Extends s') : s.Grows s' :=
  { hx with sent := by rw [hw.sent] }

theorem WriterStep.found (hw : s.WriterStep s') (hx : s.Extends s') (hm : s.Repoints e s')
    (h : s.Found e) : s'.Found e := by
  have hl : s.Learns e s' := {
    grows := hw.grows hx
    view := fun p => by rw [hw.views]
    writes := hw.writes
    sees := fun v q hs => hs.extends hx hm }
  refine h.grows hl ?_ ?_ ?_
  · rw [hw.holds]
    exact fun _ _ _ => .inl
  · rw [hw.heard]
    exact fun _ _ _ => .inl
  · rw [hw.read]
    exact fun _ _ => .inl

theorem WriterStep.apart (hw : s.WriterStep s') (hx : s.Extends s') (hm : s.Repoints e s')
    (hkeeps : s.memory.Keeps s'.memory (fun x => x = .other (.done p))
      (fun y => y = .other (.error p))) (herrors : s'.errors p = s.errors p)
    (hpopped : ∀ q, s.ticket p = some q → s.ring.popped.length ≤ q → s'.ring.popped.length ≤ q)
    (hserves : s'.writer.serves = some p ↔ s.writer.serves = some p)
    (hprocessed : s.writer.serves = some p → s'.processed = s.processed) : s.Apart e s' p where
  grows := hw.grows hx
  client := by rw [hw.client]
  producer := by rw [hw.producers]
  ticket := by rw [hw.ticket]
  errors := herrors
  view := hw.views p
  keeps := hkeeps
  consumer := hw.consumer
  popped := hpopped
  serves := hserves
  processed := hprocessed
  sees := fun v q hs => hs.extends hx hm

theorem WriterStep.placed (hw : s.WriterStep s') {q : Nat} (h : s.Placed p q) : s'.Placed p q := by
  rw [Placed,hw.ticket,hw.client,hw.producers]
  exact h

theorem WriterStep.unset (hw : s.WriterStep s') (hkeeps : s.memory.Keeps s'.memory
      (fun x => x = .other (.done p)) (fun _ => False)) (h : s.Unset p) : s'.Unset p := by
  rw [Unset,flag,hkeeps.top rfl,hkeeps.last _ rfl,hw.views]
  exact h

end Frames

section Pop

variable {ring : WeakRing PendingRequest Flag Object} {t : Nat}

theorem writerStep_pop (hring : s.ring.consumerStep t = some ring) {engine : LedgerEngine}
    {processed : List Popped} {writer : Writer} :
    s.WriterStep { s with
      ring := ring, engine := engine, processed := processed, writer := writer } := by
  obtain ⟨hframe,hproducers,-,hsent,-⟩ := WeakRing.consumerStep_frame hring
  exact {
    sent := hsent
    client := rfl
    ticket := rfl
    producers := hproducers
    views := fun p => hframe.views _ (by simp)
    consumer := hframe.view
    holds := rfl
    heard := rfl
    read := rfl
    writes := fun v n _ hk => hframe.keeps.knowsWrites rfl hk }

theorem copies_pop (h : s.Copies) (hring : s.ring.consumerStep t = some ring)
    {engine : LedgerEngine} {processed : List Popped} {writer : Writer}
    (hfresh : ∀ p error, writer ≠ .storePublished p error) :
    Copies { s with ring := ring, engine := engine, processed := processed, writer := writer } := by
  obtain ⟨hframe,-⟩ := WeakRing.consumerStep_frame hring
  exact h.frame rfl (hframe.keeps.messages _ rfl) hframe.view
    (fun p error hw => absurd hw (hfresh p error)) (fun v n hk => hframe.keeps.knowsWrites rfl hk)
    (fun i n b hi => .inl ((hframe.keeps.accesses _ rfl i b).mp hi))

theorem Inv.looks (h : s.Inv e k) (hpopping : s.writer = .popping)
    (hring : s.ring.consumerStep t = some ring) (hpopped : ring.popped = s.ring.popped)
    (hb : ring.claimed.length < 2^63) : ({ s with ring := ring } : WeakThreads).Inv e k := by
  obtain ⟨hframe,-,hclaimed,-⟩ := WeakRing.consumerStep_frame hring
  have hm := hframe.keeps.messages (.other .published) rfl
  have hx : s.Extends { s with ring := ring } :=
    ⟨List.prefix_refl _,List.prefix_refl _,by rw [hclaimed]⟩
  have hw : s.WriterStep { s with ring := ring } := writerStep_pop hring
  exact {
    told := h.told.aside ⟨rfl,rfl,rfl,rfl,rfl,hm,hframe.view,hx.claimed⟩
    flow := {
      ring := h.flow.ring.consumerStep hring hb
      requests := by rw [hpopped,hclaimed]; exact h.flow.requests
      tickets := by rw [hpopped,hclaimed]; exact h.flow.tickets
      serving := h.flow.serving }
    stages := fun p => (h.stages p).apart (hw.apart hx (.inl hm)
      (hframe.keeps.mono (by simp [Loc.ofQueue]) (by simp [Plain.ofQueue])) rfl
      (fun q _ hq => by rwa [hpopped]) Iff.rfl (fun _ => rfl))
    copies := copies_pop h.copies hring (by simp [hpopping])
    found := hw.found hx (.inl hm) h.found }

/-- What `try_pop` returns is the request that was claimed next. -/
theorem Flow.popped_next (h : s.Flow k) (hring : s.ring.consumerStep t = some ring)
    {out : Option PendingRequest} (hcon : s.ring.consumer = .storeSeq out)
    (hb : ring.claimed.length < 2^63) :
    ∃ r, out = some r ∧ s.ring.claimed[s.ring.popped.length]? = some r ∧
      ring.popped.length = s.ring.popped.length+1 ∧
      ∀ v, s.ring.sent[s.ring.popped.length]? = some v → v ≤ ring.views .consumer := by
  obtain ⟨-,-,hclaimed,hsent,hpopped⟩ := WeakRing.consumerStep_frame hring
  have hring' := h.ring.consumerStep hring hb
  simp only [hcon] at hpopped
  have hlen : ring.popped.length = s.ring.popped.length+1 := by simp [hpopped]
  have hhistory : ring.popped = (ring.claimed.take ring.popped.length).map some :=
    hring'.laps.history
  have hget : ring.popped[s.ring.popped.length]? = some out := by simp [hpopped]
  rw [hhistory,hlen,List.getElem?_map,List.getElem?_take,if_pos (Nat.lt_succ_self _),hclaimed] at hget
  obtain ⟨r,hr,rfl⟩ := Option.map_eq_some_iff.mp hget
  refine ⟨r,rfl,hr,hlen,fun v hv => ?_⟩
  exact hring'.received _ (by omega) v (hsent ▸ hv)

theorem serve_serves (s : WeakThreads) (r : Popped) :
    (s.serve r).writer.serves = some r.request.completion := by
  unfold WeakThreads.serve
  dsimp only
  split <;> rfl

theorem Stage.queued_spec (h : s.Stage e p) (hidle : s.writer.serves ≠ some p) {q : Nat}
    (hticket : s.ticket p = some q) (hq : q = s.processed.length) :
    s.Placed p q ∧ s.Asked p q ∧ ∃ v, s.ring.sent[q]? = some v ∧ s.Owns p v ∧ s.Unset p := by
  have habsurd {q' : Nat} (hticket' : s.ticket p = some q') (ha : s.Answered e p q') : False := by
    cases hticket.symm.trans hticket'
    have := ha.lt
    omega
  cases h with
  | ready _ _ ht => cases hticket.symm.trans ht
  | searching r _ _ _ ht => cases hticket.symm.trans ht
  | queued q' v hp ha _ hv ho hu =>
    cases hticket.symm.trans hp.1
    exact ⟨hp,ha,v,hv,ho,hu⟩
  | served q' _ _ hs => exact absurd hs hidle
  | completed q' hp ha => exact (habsurd hp.1 ha).elim
  | notified q' _ _ ht ha => exact (habsurd ht ha).elim

theorem Inv.takes (h : s.Inv e k) (hpopping : s.writer = .popping)
    (hring : s.ring.consumerStep t = some ring) {out : Option PendingRequest}
    (hcon : s.ring.consumer = .storeSeq out) (hb : ring.claimed.length < 2^63) (io : AppendIo)
    (torn : PendingRequest) : ({ s with ring := ring }.serve ⟨out.getD torn,io⟩).Inv e k := by
  obtain ⟨hframe,hproducers,hclaimed,hsent,-⟩ := WeakRing.consumerStep_frame hring
  obtain ⟨r,rfl,hr,hpopped,hreceived⟩ := h.flow.popped_next hring hcon hb
  rw [Option.getD_some]
  have hm := hframe.keeps.messages (.other .published) rfl
  have hticket := h.flow.tickets _ r (Nat.le_refl _) hr
  have hcount := h.flow.count
  obtain ⟨htold,hx⟩ := h.told.serve hpopping hm hframe.view hclaimed ⟨r,io⟩
  have hw : s.WriterStep ({ s with ring := ring }.serve ⟨r,io⟩) := writerStep_pop hring
  have hserves := serve_serves { s with ring := ring } ⟨r,io⟩
  have hkeeps (p : Nat) : s.memory.Keeps ring.memory (fun x => x = .other (.done p))
      (fun y => y = .other (.error p)) :=
    hframe.keeps.mono (by simp [Loc.ofQueue]) (by simp [Plain.ofQueue])
  exact {
    told := htold
    flow := {
      ring := h.flow.ring.consumerStep hring hb
      requests := by
        show (s.processed ++ [(⟨r,io⟩ : Popped)]).map Popped.request = ring.claimed.take ring.popped.length
        rw [hpopped,hclaimed,List.take_add_one,hr,List.map_append,h.flow.requests]
        rfl
      tickets := by
        show ∀ q r', ring.popped.length ≤ q → ring.claimed[q]? = some r' →
          s.ticket r'.completion = some q
        rw [hpopped,hclaimed]
        exact fun q r' hq => h.flow.tickets q r' (by omega)
      serving := by
        intro p hp
        cases hserves.symm.trans hp
        exact ⟨_,hticket,by simp [WeakThreads.serve,hcount]⟩ }
    stages := by
      intro p
      rcases eq_or_ne p r.completion with rfl | hne
      · obtain ⟨hplaced,ha,v,hv,ho,hu⟩ := (h.stages _).queued_spec (by simp [hpopping,Writer.serves])
          hticket hcount.symm
        refine .served s.ring.popped.length (hw.placed hplaced) (ha.grows (hw.grows hx)) hserves ?_ ?_
          (hw.unset ((hkeeps _).mono (fun _ hx => hx) (fun _ => False.elim)) hu)
        · simp [WeakThreads.serve,hcount]
        · exact (hkeeps _).guards rfl rfl (ho.mono (hreceived v hv))
      · refine (h.stages p).apart (hw.apart hx (.inl hm) (hkeeps p) rfl ?_ ?_ ?_)
        · intro q hq hle
          show ring.popped.length ≤ q
          rw [hpopped]
          refine Nat.lt_of_le_of_ne hle ?_
          rintro rfl
          obtain ⟨r',hr',hp⟩ := (h.stages p).asked hq
          cases hr.symm.trans hr'
          exact hne hp.symm
        · rw [hserves,hpopping]
          simp [Writer.serves,hne.symm]
        · simp [hpopping,Writer.serves]
    copies := by
      refine copies_pop h.copies hring ?_
      intro p error
      split <;> simp
    found := hw.found hx (.inl hm) h.found }

theorem Inv.pop (h : s.Inv e k) {io : AppendIo} {torn : PendingRequest}
    (hs : s.step (.pop t io torn) = some s') (hb : s'.ring.claimed.length < 2^63) : s'.Inv e k := by
  simp only [step] at hs
  split at hs
  · case h_1 hpopping =>
    obtain ⟨ring,hring,hs⟩ := Option.map_eq_some_iff.mp hs
    obtain ⟨-,-,-,-,hpopped⟩ := WeakRing.consumerStep_frame hring
    cases hcon : s.ring.consumer with
    | storeSeq out =>
      simp only [hcon] at hs
      subst hs
      exact h.takes hpopping hring hcon hb io torn
    | idle =>
      simp only [hcon] at hs hpopped
      subst hs
      exact h.looks hpopping hring hpopped hb
    | readData =>
      simp only [hcon] at hs hpopped
      subst hs
      exact h.looks hpopping hring hpopped hb
  · cases hs

end Pop

section Stores

def wrote (s : WeakThreads) (m : Memory (Loc Flag) (Plain Object)) (v : Past (Loc Flag))
    (states : List LedgerState) (errors : Nat → LedgerError) (writer : Writer) : WeakThreads :=
  { s.acts .consumer m v with states := states, errors := errors, writer := writer }

variable {m : Memory (Loc Flag) (Plain Object)} {v : Past (Loc Flag)} {t : Nat}
variable {states : List LedgerState} {errors : Nat → LedgerError} {writer : Writer}

@[simp] theorem wrote_views_self (s : WeakThreads) (m : Memory (Loc Flag) (Plain Object))
    (v : Past (Loc Flag)) (states : List LedgerState) (errors : Nat → LedgerError) (writer : Writer) :
    (s.wrote m v states errors writer).ring.views .consumer = v := acts_views_self s m v

theorem writerStep_wrote (hv : s.ring.views .consumer ≤ v)
    (hwrites : ∀ v n, n < s.states.length → s.memory.KnowsWrites v (.other (.state n)) →
      m.KnowsWrites v (.other (.state n))) : s.WriterStep (s.wrote m v states errors writer) where
  sent := rfl
  client := rfl
  ticket := rfl
  producers := rfl
  views := fun p => acts_view_consumer s p m v
  consumer := by simpa using hv
  holds := rfl
  heard := rfl
  read := rfl
  writes := hwrites

theorem Flow.wrote (h : s.Flow k) (hring : (s.acts .consumer m v).ring.Inv k)
    (hserves : ∀ p, writer.serves = some p → s.writer.serves = some p) :
    (s.wrote m v states errors writer).Flow k where
  ring := hring
  requests := h.requests
  tickets := h.tickets
  serving := fun p hp => h.serving p (hserves p hp)

theorem Stage.wrote (h : s.Stage e p) (hw : s.WriterStep (s.wrote m v states errors writer))
    (hx : s.Extends (s.wrote m v states errors writer))
    (hm : s.Repoints e (s.wrote m v states errors writer))
    (hkeeps : s.memory.Keeps m (fun x => x = .other (.done p)) (fun y => y = .other (.error p)))
    (herrors : errors p = s.errors p)
    (hserves : writer.serves = some p ↔ s.writer.serves = some p) :
    (s.wrote m v states errors writer).Stage e p :=
  h.apart (hw.apart hx hm hkeeps herrors (fun _ _ hq => hq) hserves (fun _ => rfl))

theorem Inv.writeState (h : s.Inv e k) {error : LedgerError}
    (hw : s.writer = .writeState p error) (hs : s.step (.writer t) = some s') : s'.Inv e k := by
  obtain ⟨htold,hx,hm⟩ := h.told.step hs
  simp only [step,writerStep,hw] at hs
  obtain rfl : s' = s.wrote _ _ _ s.errors (.storePublished p error) := (Option.some.inj hs).symm
  have hknows : s.memory.Knows (s.ring.views .consumer) (.other (.state s.states.length)) :=
    fun i b hi => absurd (h.copies.unused i _ b hi) (Nat.lt_irrefl _)
  have hle := Memory.le_access s.memory (s.ring.views .consumer) (.other (.state s.states.length)) true
  have hother (u : Past (Loc Flag)) (n : Nat) (hn : n < s.states.length)
      (hk : s.memory.KnowsWrites u (.other (.state n))) :
      (s.memory.access (s.ring.views .consumer) (.other (.state s.states.length)) true).1.KnowsWrites
        u (.other (.state n)) := by
    refine (Memory.keeps_access _ _ _ (fun _ => True) ?_).knowsWrites
      (Q := fun y => y = .other (.state n)) rfl hk
    simp [Nat.ne_of_gt hn]
  have hstep : s.WriterStep (s.wrote _ _ (s.states ++ [s.engine.working]) s.errors
      (.storePublished p error)) := writerStep_wrote hle hother
  exact {
    told := htold
    flow := h.flow.wrote (h.flow.acts_ring hle (Memory.keeps_access _ _ _ _ Bool.noConfusion)
      h.flow.ring.wf.access (hknows.access_racy.trans h.flow.ring.calm))
      (fun p' hp' => by rw [hw]; exact hp')
    stages := fun p' => (h.stages p').wrote hstep hx hm
      (Memory.keeps_access _ _ _ _ (by simp)) rfl (by rw [hw]; rfl)
    copies := {
      whole := by
        intro t msg hmsg
        obtain ⟨-,st,hst,-⟩ := h.told.pointers t msg hmsg
        exact hother _ _ (List.getElem?_eq_some_iff.mp hst).1 (h.copies.whole t msg hmsg)
      fresh := by
        intro _ _ _
        rw [wrote_views_self]
        simp only [wrote,List.length_append,List.length_singleton,Nat.add_sub_cancel]
        exact fun i hi => hknows.access_self i true hi
      unused := by
        intro i n b hi
        simp only [wrote,List.length_append,List.length_singleton]
        rcases (Memory.access_getElem? _ _ _ _).mp hi with hi | ⟨-,he,-⟩
        · exact Nat.lt_succ_of_lt (h.copies.unused i n b hi)
        · cases he
          exact Nat.lt_succ_self _ }
    found := hstep.found hx hm h.found }

theorem Inv.storePublished (h : s.Inv e k) {error : LedgerError}
    (hw : s.writer = .storePublished p error) (hs : s.step (.writer t) = some s') :
    s'.Inv e k := by
  obtain ⟨htold,hx,hm⟩ := h.told.step hs
  simp only [step,writerStep,hw] at hs
  obtain ⟨⟨m,v⟩,hstore,hs⟩ := Option.map_eq_some_iff.mp hs
  obtain ⟨ht,hfree,rfl,view,hview,rfl,hrelease⟩ := Memory.store_spec hstore
  cases hrelease rfl
  obtain rfl : s' = s.wrote (s.memory.put (.other .published) t
    ⟨s.states.length-1,(s.ring.views .consumer).at (.other .published) t⟩)
    ((s.ring.views .consumer).at (.other .published) t) s.states s.errors (.storeError p error) :=
    hs.symm
  have hle : s.ring.views .consumer ≤ (s.ring.views .consumer).at (.other .published) t :=
    Past.le_at (Nat.le_of_lt ht)
  have hstep : s.WriterStep (s.wrote (s.memory.put (.other .published) t
      ⟨s.states.length-1,(s.ring.views .consumer).at (.other .published) t⟩)
      ((s.ring.views .consumer).at (.other .published) t) s.states s.errors (.storeError p error)) :=
    writerStep_wrote hle (fun _ _ _ hk => hk)
  exact {
    told := htold
    flow := h.flow.wrote (h.flow.acts_ring hle (Memory.keeps_put _ _ _ _ Bool.noConfusion)
      (h.flow.ring.wf.put hview hfree) h.flow.ring.calm) (fun p' hp' => by rw [hw]; exact hp')
    stages := fun p' => (h.stages p').wrote hstep hx hm (Memory.keeps_put _ _ _ _ (by simp)) rfl
      (by rw [hw]; rfl)
    copies := {
      whole := by
        intro t' msg hmsg
        rcases Memory.put_messages_cases hmsg with ⟨-,-,rfl⟩ | hold
        · exact (h.copies.fresh p error hw).mono hle
        · exact h.copies.whole t' msg hold
      fresh := fun _ _ hw' => by cases hw'
      unused := h.copies.unused }
    found := hstep.found hx hm h.found }

theorem Flow.served (hf : s.Flow k) (h : s.Stage e p) (hs : s.writer.serves = some p) :
    ∃ q, s.Placed p q ∧ s.Asked p q ∧ q+1 = s.processed.length ∧
      s.Owns p (s.ring.views .consumer) ∧ s.Unset p := by
  obtain ⟨q,hticket,hq⟩ := hf.serving p hs
  have hcount := hf.count
  cases h with
  | ready _ _ ht => cases hticket.symm.trans ht
  | searching r _ _ _ ht => cases hticket.symm.trans ht
  | queued q' v hp _ hle =>
    cases hticket.symm.trans hp.1
    omega
  | served q' hp ha _ hq' ho hu => exact ⟨q',hp,ha,hq',ho,hu⟩
  | completed q' _ _ hs' => exact absurd hs hs'
  | notified q' _ _ _ _ hs' => exact absurd hs hs'

theorem Inv.storeError (h : s.Inv e k) {error : LedgerError}
    (hw : s.writer = .storeError p error) (hs : s.step (.writer t) = some s') : s'.Inv e k := by
  obtain ⟨htold,hx,hm⟩ := h.told.step hs
  simp only [step,writerStep,hw] at hs
  obtain rfl : s' = s.wrote _ _ s.states (Function.update s.errors p error) (.storeDone p) :=
    (Option.some.inj hs).symm
  obtain ⟨q,hplaced,ha,hq,ho,hu⟩ := h.flow.served (h.stages p) (by rw [hw]; rfl)
  have hle := Memory.le_access s.memory (s.ring.views .consumer) (.other (.error p)) true
  have hwrites (u : Past (Loc Flag)) (n : Nat) (hk : s.memory.KnowsWrites u (.other (.state n))) :
      (s.memory.access (s.ring.views .consumer) (.other (.error p)) true).1.KnowsWrites u
        (.other (.state n)) :=
    (Memory.keeps_access _ _ _ (fun _ => True) (by simp)).knowsWrites
      (Q := fun y => y = .other (.state n)) rfl hk
  have hstep : s.WriterStep (s.wrote _ _ s.states (Function.update s.errors p error) (.storeDone p)) :=
    writerStep_wrote hle (fun u n _ => hwrites u n)
  exact {
    told := htold
    flow := h.flow.wrote (h.flow.acts_ring hle (Memory.keeps_access _ _ _ _ Bool.noConfusion)
      h.flow.ring.wf.access (ho.known.access_racy.trans h.flow.ring.calm))
      (fun p' hp' => by rw [hw]; exact hp')
    stages := by
      intro p'
      rcases eq_or_ne p' p with rfl | hne
      · refine .served q (hstep.placed hplaced) (ha.grows (hstep.grows hx)) rfl hq ?_
          (hstep.unset (Memory.keeps_access _ _ _ _ (fun h => h)) hu)
        rw [wrote_views_self]
        exact ho.access_self
      · exact (h.stages p').wrote hstep hx hm (Memory.keeps_access _ _ _ _ (by simp [hne.symm]))
          (Function.update_of_ne hne _ _) (by rw [hw]; rfl)
    copies := by
      refine h.copies.frame rfl rfl hstep.consumer (fun _ _ hw' => by cases hw') hwrites ?_
      intro i n b hi
      rcases (Memory.access_getElem? _ _ _ _).mp hi with hi | ⟨-,he,-⟩
      · exact .inl hi
      · cases he
    found := hstep.found hx hm h.found }

/-- Who has seen the flag may read the answer, and gets copies with the request in them. -/
theorem Inv.storeDone (h : s.Inv e k) (hw : s.writer = .storeDone p)
    (hs : s.step (.writer t) = some s') : s'.Inv e k := by
  obtain ⟨htold,hx,hm⟩ := h.told.step hs
  obtain ⟨-,hanswer,-,u,hflag,hsees⟩ := h.told.raises hw hs
  simp only [step,writerStep,hw] at hs
  obtain ⟨⟨m,v⟩,hstore,hs⟩ := Option.map_eq_some_iff.mp hs
  obtain ⟨ht,hfree,rfl,view,hview,rfl,hrelease⟩ := Memory.store_spec hstore
  cases hrelease rfl
  obtain rfl : s' = s.wrote (s.memory.put (.other (.done p)) t
    ⟨1,(s.ring.views .consumer).at (.other (.done p)) t⟩)
    ((s.ring.views .consumer).at (.other (.done p)) t) s.states s.errors .popping := hs.symm
  obtain ⟨q,hplaced,ha,hq,ho,hu⟩ := h.flow.served (h.stages p) (by rw [hw]; rfl)
  have hle : s.ring.views .consumer ≤ (s.ring.views .consumer).at (.other (.done p)) t :=
    Past.le_at (Nat.le_of_lt ht)
  have hstep : s.WriterStep (s.wrote (s.memory.put (.other (.done p)) t
      ⟨1,(s.ring.views .consumer).at (.other (.done p)) t⟩)
      ((s.ring.views .consumer).at (.other (.done p)) t) s.states s.errors .popping) :=
    writerStep_wrote hle (fun _ _ _ hk => hk)
  have htop : (s.wrote (s.memory.put (.other (.done p)) t
      ⟨1,(s.ring.views .consumer).at (.other (.done p)) t⟩)
      ((s.ring.views .consumer).at (.other (.done p)) t) s.states s.errors .popping).flag p =
        ⟨1,(s.ring.views .consumer).at (.other (.done p)) t⟩ :=
    Memory.put_top_self (Nat.lt_of_le_of_lt ho.newest ht)
  exact {
    told := htold
    flow := h.flow.wrote (h.flow.acts_ring hle (Memory.keeps_put _ _ _ _ Bool.noConfusion)
      (h.flow.ring.wf.put hview hfree) h.flow.ring.calm) (fun p' hp' => by cases hp')
    stages := by
      intro p'
      rcases eq_or_ne p' p with rfl | hne
      · obtain rfl : q = s.processed.length-1 := by omega
        cases (Memory.put_messages_self _ _ _ _).symm.trans hflag
        refine .completed _ (hstep.placed hplaced) ⟨ha.grows (hstep.grows hx),hanswer⟩
          (by simp [wrote,Writer.serves]) ?_ ?_ ?_
        · rw [htop]
          exact ho.put_self ht
        · rw [htop]
          exact hsees
        · intro t' msg hmsg hvisible hvalue
          rw [htop]
          rw [hstep.views] at hvisible
          rcases Memory.put_messages_cases hmsg with ⟨-,-,rfl⟩ | hold
          · rfl
          · exact absurd (hu.value_eq h.flow.ring.wf hold hvisible) hvalue
      · exact (h.stages p').wrote hstep hx hm (Memory.keeps_put _ _ _ _ (by simp [hne.symm])) rfl
          (by rw [hw]; simp [Writer.serves,hne.symm])
    copies := h.copies.frame rfl (Memory.put_messages_ne _ _ _ (by simp)) hstep.consumer
      (fun _ _ hw' => by cases hw') (fun _ _ hk => hk) (fun _ _ _ hi => .inl hi)
    found := hstep.found hx hm h.found }

end Stores

section Runs

theorem Inv.writer (h : s.Inv e k) {t : Nat} (hs : s.step (.writer t) = some s') : s'.Inv e k := by
  cases hw : s.writer with
  | popping => simp [step,writerStep,hw] at hs
  | writeState p error => exact h.writeState hw hs
  | storePublished p error => exact h.storePublished hw hs
  | storeError p error => exact h.storeError hw hs
  | storeDone p => exact h.storeDone hw hs

theorem Inv.step (h : s.Inv e k) {a : Action} (hs : s.step a = some s')
    (hb : s'.ring.claimed.length < 2^63) : s'.Inv e k := by
  cases a with
  | submit p tx now t => exact h.submit hs
  | push p t spurious => exact h.push hs hb
  | poll p t => exact h.poll hs
  | readError p => exact h.readError hs
  | snapshot p t => exact h.snapshot hs
  | readState p => exact h.readState hs
  | pop t io torn => exact h.pop hs hb
  | writer t => exact h.writer hs

theorem Inv.start (hash : IdempotencyKey → UInt64) {config : Config} (wal : PosixFile.File)
    (seed : LedgerState) (hk : 1 ≤ k) (hk' : k ≤ 63) (hcap : config.ringBufferCapacity = 2^k) :
    (WeakThreads.start hash config wal seed).Inv (.seeded hash config wal seed) k where
  told := .start hash config wal seed
  flow := {
    ring := by
      rw [WeakThreads.start,hcap]
      exact .new hk hk' _
    requests := rfl
    tickets := fun q r _ hr => by cases hr
    serving := fun p hp => by cases hp }
  stages := fun p => .ready rfl rfl rfl ⟨Nat.le_refl _,fun i b hi => by cases hi⟩
  copies := {
    whole := fun t msg _ i hi => by cases hi
    fresh := fun p error hw => by cases hw
    unused := fun i n b hi => by cases hi }
  found := {
    holds := fun p n before hp => by cases hp
    heard := fun p q error hp => by cases hp
    read := fun before st hp => by cases hp }

theorem IsCopy.covers_all {st : LedgerState} (h : s.IsCopy e st) {before : List Nat}
    (hbefore : ∀ q ∈ before, s.Covers e q st) :
    ∃ j, j ≤ s.processed.length ∧ st = s.copyAt e j ∧ ∀ q ∈ before, q < j := by
  induction before with
  | nil =>
    obtain ⟨j,hj,hst⟩ := h
    exact ⟨j,hj,hst,by simp⟩
  | cons q before ih =>
    obtain ⟨j,hj,hst,hall⟩ := ih (fun q' hq' => hbefore q' (List.mem_cons_of_mem q hq'))
    obtain ⟨j',hq,hj',hst'⟩ := hbefore q List.mem_cons_self
    rcases Nat.lt_or_ge q j with hlt | hge
    · exact ⟨j,hj,hst,by simpa using ⟨hlt,hall⟩⟩
    · refine ⟨j',hj',hst',?_⟩
      simp only [List.mem_cons,forall_eq_or_imp]
      exact ⟨hq,fun q' hq' => Nat.lt_of_lt_of_le (hall q' hq') (by omega)⟩

/-- With the memory orders of the source, and no matter which messages the loads return:
nothing that the threads share outside the atomics is raced for, each answer that a client
reads is the one that the engine gives to the requests one by one in the order of the queue,
and each copy that a client reads is of a state that this engine published, after the last
request whose answer the client had read. -/
theorem clients_served (hash : IdempotencyKey → UInt64) {config : Config} (wal : PosixFile.File)
    (seed : LedgerState) (hk : 1 ≤ k) (hk' : k ≤ 63) (hcap : config.ringBufferCapacity = 2^k)
    {acts : List Action}
    (hrun : StepRun.exec step (start hash config wal seed) acts = some s)
    (hb : s.ring.claimed.length < 2^63) :
    s.memory.racy = false ∧
    s.processed.map Popped.request <+: s.ring.claimed ∧
    (∀ p q error, (p,q,error) ∈ s.heard →
      (∃ r, s.ring.claimed[q]? = some r ∧ r.completion = p) ∧
        ((LedgerEngine.seeded hash config wal seed).answersTo s.processed)[q]? = some error) ∧
    ∀ before st, (before,st) ∈ s.read → ∃ j, j ≤ s.processed.length ∧
      st = ((LedgerEngine.seeded hash config wal seed).after s.processed j).published ∧
      ∀ q ∈ before, q < j := by
  have hinv : s.Inv (.seeded hash config wal seed) k := by
    refine (StepRun.exec_invariant (fun u => u.Told (.seeded hash config wal seed) ∧
      (u.ring.claimed.length < 2^63 → u.Inv (.seeded hash config wal seed) k)) ?_
      ⟨.start hash config wal seed,fun _ => .start hash wal seed hk hk' hcap⟩
      (StepRun.guarded_true _ _ acts) hrun).2 hb
    rintro u a u' ⟨htold,hinv⟩ - hs
    obtain ⟨htold',hx,-⟩ := htold.step hs
    refine ⟨htold',fun hb' => (hinv ?_).step hs hb'⟩
    exact Nat.lt_of_le_of_lt hx.claimed.length_le hb'
  refine ⟨hinv.flow.ring.calm,?_,?_,?_⟩
  · rw [hinv.flow.requests]
    exact List.take_prefix _ _
  · intro p q error hp
    obtain ⟨ha,hans,-⟩ := hinv.found.heard p q error hp
    exact ⟨ha,hans⟩
  · intro before st hp
    obtain ⟨hcopy,hcovers⟩ := hinv.found.read before st hp
    exact hcopy.covers_all hcovers

theorem clients_served_payment :
    ∃ s, StepRun.exec step (start (fun _ => 0) sampleConfig .empty sampleChart)
        (LedgerEngine.paidUpToFlag ++
          [.writer 2,.poll 0 2,.readError 0,.snapshot 0 1,.readState 0]) = some s ∧
      s.memory.racy = false ∧ s.heard = [(0,0,.none)] ∧
      (sampleEngine.answersTo s.processed)[0]? = some .none ∧
      ∃ st, ([0],st) ∈ s.read ∧ st = (sampleEngine.after s.processed 1).published := by
  have hrun : (StepRun.exec step (start (fun _ => 0) sampleConfig .empty sampleChart)
      (LedgerEngine.paidUpToFlag ++
        [.writer 2,.poll 0 2,.readError 0,.snapshot 0 1,.readState 0])).map
      (fun s => (s.ring.claimed.length,s.heard,s.read.map Prod.fst)) =
        some (1,[(0,0,.none)],[[0]]) := by decide +kernel
  obtain ⟨s,hs,he⟩ := Option.map_eq_some_iff.mp hrun
  simp only [Prod.mk.injEq,List.map_eq_singleton_iff] at he
  obtain ⟨hclaimed,hnone,⟨before,st⟩,hread,rfl⟩ := he
  obtain ⟨hcalm,hprocessed,hheard,hcopies⟩ := clients_served (k := 12) (fun _ => 0) .empty sampleChart
    (by decide) (by decide) rfl hs (by rw [hclaimed]; decide)
  have hmem : ([0],st) ∈ s.read := by
    rw [hread]
    exact List.mem_singleton_self _
  obtain ⟨j,hj,hst,hlt⟩ := hcopies [0] st hmem
  have hpos := hlt 0 (List.mem_singleton_self _)
  have hle := hprocessed.length_le
  rw [List.length_map,hclaimed] at hle
  obtain rfl : j = 1 := by omega
  have hanswer := (hheard 0 0 .none (by rw [hnone]; exact List.mem_singleton_self _)).2
  exact ⟨s,hs,hcalm,hnone,hanswer,st,hmem,hst⟩

end Runs

end WeakThreads

end FinancialLedger
