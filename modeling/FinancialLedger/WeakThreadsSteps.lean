import FinancialLedger.WeakThreadsInvariant
set_option autoImplicit false

namespace FinancialLedger
open Wal ViewMemory RingBuffer

namespace WeakThreads

variable {e : LedgerEngine} {s s' : WeakThreads} {k p : Nat}

section Acts

variable {thread : Thread} {m : Memory (Loc Flag) (Plain Object)} {v : Past (Loc Flag)}

@[simp] theorem acts_memory (s : WeakThreads) (thread : Thread)
    (m : Memory (Loc Flag) (Plain Object)) (v : Past (Loc Flag)) :
    (s.acts thread m v).memory = m := rfl

@[simp] theorem acts_view_self (s : WeakThreads) (p : Nat) (m : Memory (Loc Flag) (Plain Object))
    (v : Past (Loc Flag)) : (s.acts (.producer p) m v).ring.view p = v := by
  simp [acts,WeakRing.view]

theorem acts_view_ne (s : WeakThreads) {p p' : Nat} (m : Memory (Loc Flag) (Plain Object))
    (v : Past (Loc Flag)) (h : p' ≠ p) :
    (s.acts (.producer p) m v).ring.view p' = s.ring.view p' := by
  simp [acts,WeakRing.view,h]

@[simp] theorem acts_views_consumer (s : WeakThreads) (p : Nat)
    (m : Memory (Loc Flag) (Plain Object)) (v : Past (Loc Flag)) :
    (s.acts (.producer p) m v).ring.views .consumer = s.ring.views .consumer := by
  simp [acts]

@[simp] theorem acts_view_consumer (s : WeakThreads) (p : Nat)
    (m : Memory (Loc Flag) (Plain Object)) (v : Past (Loc Flag)) :
    (s.acts .consumer m v).ring.view p = s.ring.view p := by
  simp [acts,WeakRing.view]

@[simp] theorem acts_views_self (s : WeakThreads) (m : Memory (Loc Flag) (Plain Object))
    (v : Past (Loc Flag)) : (s.acts .consumer m v).ring.views .consumer = v := by
  simp [acts]

@[simp] theorem acts_client (s : WeakThreads) (thread : Thread)
    (m : Memory (Loc Flag) (Plain Object)) (v : Past (Loc Flag)) :
    (s.acts thread m v).client = s.client := rfl

@[simp] theorem goto_ring (s : WeakThreads) (p : Nat) (next : Client) :
    (s.goto p next).ring = s.ring := rfl

@[simp] theorem goto_client_self (s : WeakThreads) (p : Nat) (next : Client) :
    (s.goto p next).client p = next := by
  simp [goto]

theorem goto_client_ne (s : WeakThreads) {p p' : Nat} (next : Client) (h : p' ≠ p) :
    (s.goto p next).client p' = s.client p' := by
  simp [goto,h]

end Acts

theorem Flow.acts_ring (h : s.Flow k) {thread : Thread} {m : Memory (Loc Flag) (Plain Object)}
    {v : Past (Loc Flag)} (hv : s.ring.views thread ≤ v)
    (hm : s.memory.Keeps m (fun x => x.ofQueue = true) (fun y => y.ofQueue = true)) (hwf : m.Wf)
    (hcalm : m.racy = false) : (s.acts thread m v).ring.Inv k :=
  h.ring.other hv hm hwf hcalm

/-- What an action of client `p` leaves as it is. -/
structure ClientStep (s s' : WeakThreads) (p : Nat) : Prop where
  grows : s.Grows s'
  engine : s'.engine = s.engine
  writer : s'.writer = s.writer
  errors : s'.errors = s.errors
  states : s'.states = s.states
  processed : s'.processed = s.processed
  popped : s'.ring.popped = s.ring.popped
  view : s.ring.view p ≤ s'.ring.view p
  consumer : s'.ring.views .consumer = s.ring.views .consumer
  client : ∀ p', p' ≠ p → s'.client p' = s.client p'
  ticket : ∀ p', p' ≠ p → s'.ticket p' = s.ticket p'
  producers : ∀ p', p' ≠ p → s'.ring.producers p' = s.ring.producers p'
  views : ∀ p', p' ≠ p → s'.ring.view p' = s.ring.view p'
  keeps : s.memory.Keeps s'.memory (fun x => x.ofQueue = false ∧ x ≠ .other (.done p))
    (fun y => ∃ p', p' ≠ p ∧ y = .other (.error p'))
  writes : ∀ v n, s.memory.KnowsWrites v (.other (.state n)) →
    s'.memory.KnowsWrites v (.other (.state n))
  unused : ∀ (i n : Nat) b, s'.memory.accesses[i]? = some (.other (.state n),b) →
    s.memory.accesses[i]? = some (.other (.state n),b) ∨ n < s.states.length

section ClientSteps

theorem ClientStep.published (hc : s.ClientStep s' p) :
    s.memory.Keeps s'.memory (fun x => x = .other .published) (fun _ => False) :=
  hc.keeps.mono (by simp [Loc.ofQueue]) (by simp)

theorem ClientStep.sees (hc : s.ClientStep s' p) (v : Past (Loc Flag)) (q : Nat)
    (h : s.Sees e v q) : s'.Sees e v q :=
  h.extends hc.grows.toExtends (.inl (hc.published.messages _ rfl))

theorem ClientStep.apart (hc : s.ClientStep s' p) {p' : Nat} (hne : p' ≠ p) :
    s.Apart e s' p' where
  grows := hc.grows
  client := hc.client p' hne
  producer := hc.producers p' hne
  ticket := hc.ticket p' hne
  errors := by rw [hc.errors]
  view := hc.views p' hne
  keeps := hc.keeps.mono (by simp [Loc.ofQueue,hne]) (by simp [hne])
  consumer := by rw [hc.consumer]
  popped := fun q _ hq => by rwa [hc.popped]
  serves := by rw [hc.writer]
  processed := fun _ => hc.processed
  sees := hc.sees

theorem ClientStep.copies (hc : s.ClientStep s' p) (h : s.Copies) : s'.Copies :=
  h.frame hc.states (hc.published.messages _ rfl) (by rw [hc.consumer])
    (fun _ _ hw => hc.writer ▸ hw) hc.writes hc.unused

theorem ClientStep.learns (hc : s.ClientStep s' p) : s.Learns e s' where
  grows := hc.grows
  view := by
    intro p'
    rcases eq_or_ne p' p with rfl | hne
    · exact hc.view
    · rw [hc.views p' hne]
  writes := fun v n _ => hc.writes v n
  sees := hc.sees

theorem ClientStep.flow (hc : s.ClientStep s' p) (h : s.Flow k) (hring : s'.ring.Inv k)
    (htickets : ∀ q r, s.ring.popped.length ≤ q → s'.ring.claimed[q]? = some r →
      s'.ticket r.completion = some q)
    (hserving : s.writer.serves = some p → s'.ticket p = s.ticket p) : s'.Flow k where
  ring := hring
  requests := by
    have hbehind : s.ring.popped.length ≤ s.ring.claimed.length := h.ring.laps.behind
    obtain ⟨rest,hrest⟩ := hc.grows.claimed
    rw [hc.processed,hc.popped,← hrest,List.take_append_of_le_length hbehind,h.requests]
  tickets := by
    rw [hc.popped]
    exact htickets
  serving := by
    intro p' hp'
    rw [hc.writer] at hp'
    have hticket : s'.ticket p' = s.ticket p' := by
      rcases eq_or_ne p' p with rfl | hne
      · exact hserving hp'
      · exact hc.ticket p' hne
    rw [hticket,hc.processed]
    exact h.serving p' hp'

theorem ClientStep.told (hc : s.ClientStep s' p) (h : s.Told e) : s'.Told e :=
  h.aside ⟨hc.engine,hc.writer,hc.errors,hc.states,hc.processed,hc.published.messages _ rfl,
    by rw [hc.consumer],hc.grows.claimed⟩

theorem ClientStep.inv (hc : s.ClientStep s' p) (h : s.Inv e k) (hflow : s'.Flow k)
    (hstage : s'.Stage e p) (hfound : s'.Found e) : s'.Inv e k where
  told := hc.told h.told
  flow := hflow
  stages := by
    intro p'
    rcases eq_or_ne p' p with rfl | hne
    · exact hstage
    · exact (h.stages p').apart (hc.apart hne)
  copies := hc.copies h.copies
  found := hfound

theorem Stage.waits (h : s.Stage e p) (hc : s.ClientStep s' p)
    (hm : s.memory.Keeps s'.memory (fun x => x = .other (.done p)) (fun y => y = .other (.error p)))
    {q : Nat} (hplaced : s.Placed p q) (hplaced' : s'.Placed p q) : s'.Stage e p := by
  have hflag : s'.flag p = s.flag p := hm.top rfl
  have howns (v : Past (Loc Flag)) (ho : s.Owns p v) : s'.Owns p v := hm.guards rfl rfl ho
  have hunset (hu : s.Unset p) : s'.Unset p := by
    rw [Unset,hflag,hm.last _ rfl]
    exact ⟨hu.1,Nat.le_trans hu.2 (hc.view.1 _)⟩
  cases h with
  | ready _ _ ht => cases ht.symm.trans hplaced.1
  | searching r _ _ _ ht => cases ht.symm.trans hplaced.1
  | notified q' hnotified => simp [Placed,hnotified] at hplaced
  | queued q' v hp ha hq hv ho hu =>
    cases hp.1.symm.trans hplaced.1
    exact .queued q v hplaced' (ha.grows hc.grows) (hc.popped ▸ hq)
      (getElem?_grow hc.grows.sent hv) (howns v ho) (hunset hu)
  | served q' hp ha hs hq ho hu =>
    cases hp.1.symm.trans hplaced.1
    refine .served q hplaced' (ha.grows hc.grows) (hc.writer ▸ hs) (hc.processed ▸ hq) ?_ (hunset hu)
    rw [hc.consumer]
    exact howns _ ho
  | completed q' hp ha hs ho hsees hclear =>
    cases hp.1.symm.trans hplaced.1
    refine .completed q hplaced' ⟨ha.1.grows hc.grows,?_⟩ (hc.writer ▸ hs) ?_ ?_ ?_
    · rw [hc.errors]
      exact answersTo_grows hc.grows ha.2
    · rw [hflag]
      exact howns _ ho
    · rw [hflag]
      exact hc.sees _ q hsees
    · intro t msg hmsg hle hvalue
      rw [hm.messages _ rfl] at hmsg
      rw [hflag]
      exact hclear t msg hmsg (Nat.le_trans (hc.view.1 _) hle) hvalue

theorem ClientStep.acts {m : Memory (Loc Flag) (Plain Object)} {v : Past (Loc Flag)}
    {client : Nat → Client} {ticket : Nat → Option Nat} {holds : Nat → Option (Nat × List Nat)}
    {heard : List (Nat × Nat × LedgerError)} {read : List (List Nat × LedgerState)}
    (hclient : ∀ p', p' ≠ p → client p' = s.client p')
    (hticket : ∀ p', p' ≠ p → ticket p' = s.ticket p') (hv : s.ring.view p ≤ v)
    (hkeeps : s.memory.Keeps m (fun x => x.ofQueue = false ∧ x ≠ .other (.done p))
      (fun y => ∃ p', p' ≠ p ∧ y = .other (.error p')))
    (hwrites : ∀ v n, s.memory.KnowsWrites v (.other (.state n)) →
      m.KnowsWrites v (.other (.state n)))
    (hunused : ∀ (i n : Nat) b, m.accesses[i]? = some (.other (.state n),b) →
      s.memory.accesses[i]? = some (.other (.state n),b) ∨ n < s.states.length) :
    s.ClientStep { s.acts (.producer p) m v with
      client := client, ticket := ticket, holds := holds, heard := heard, read := read } p where
  grows := ⟨⟨List.prefix_refl _,List.prefix_refl _,List.prefix_refl _⟩,List.prefix_refl _⟩
  engine := rfl
  writer := rfl
  errors := rfl
  states := rfl
  processed := rfl
  popped := rfl
  view := by simpa using hv
  consumer := acts_views_consumer s p m v
  client := hclient
  ticket := hticket
  producers := fun _ _ => rfl
  views := fun _ hne => acts_view_ne s m v hne
  keeps := hkeeps
  writes := hwrites
  unused := hunused

theorem Stage.placed (h : s.Stage e p) (hwaiting : s.client p = .waiting) :
    ∃ q, s.Placed p q ∧ s.ring.producers p = .idle := by
  have hidle {q : Nat} (hp : s.Placed p q) : s.ring.producers p = .idle := by
    rcases hp.2 with ⟨hcalling,-⟩ | ⟨-,hidle⟩
    · cases hwaiting.symm.trans hcalling
    · exact hidle
  cases h with
  | ready hready => cases hwaiting.symm.trans hready
  | searching r hcalling => cases hwaiting.symm.trans hcalling
  | notified q hnotified => cases hwaiting.symm.trans hnotified
  | queued q v hp => exact ⟨q,hp,hidle hp⟩
  | served q hp => exact ⟨q,hp,hidle hp⟩
  | completed q hp => exact ⟨q,hp,hidle hp⟩

theorem Unset.value_eq (h : s.Unset p) (hwf : s.memory.Wf) {t : Nat} {msg : Message (Loc Flag)}
    (hmsg : s.memory.messages (.other (.done p)) t = some msg)
    (hle : (s.ring.view p).1 (.other (.done p)) ≤ t) : msg.value = 0 := by
  have hlast := hwf.le_last _ t msg hmsg
  obtain rfl : t = s.memory.last (.other (.done p)) := Nat.le_antisymm hlast (Nat.le_trans h.2 hle)
  rw [hwf.messages_last] at hmsg
  cases hmsg
  exact h.1

/-- A flag that is seen up comes with the answer. -/
theorem Stage.answered (h : s.Stage e p) (hwf : s.memory.Wf) {q t : Nat}
    {msg : Message (Loc Flag)} (hplaced : s.Placed p q)
    (hmsg : s.memory.messages (.other (.done p)) t = some msg)
    (hle : (s.ring.view p).1 (.other (.done p)) ≤ t) (hvalue : msg.value ≠ 0) :
    s.Answered e p q ∧ s.writer.serves ≠ some p ∧ s.Owns p msg.view ∧ s.Sees e msg.view q := by
  cases h with
  | ready _ _ ht => cases ht.symm.trans hplaced.1
  | searching r _ _ _ ht => cases ht.symm.trans hplaced.1
  | notified q' hnotified => simp [Placed,hnotified] at hplaced
  | queued q' v hp ha hq hv ho hu => exact absurd (hu.value_eq hwf hmsg hle) hvalue
  | served q' hp ha hs hq ho hu => exact absurd (hu.value_eq hwf hmsg hle) hvalue
  | completed q' hp ha hs ho hsees hclear =>
    cases hp.1.symm.trans hplaced.1
    obtain rfl := hclear t msg hmsg hle hvalue
    exact ⟨ha,hs,ho,hsees⟩

theorem Inv.poll (h : s.Inv e k) {t : Nat} (hs : s.step (.poll p t) = some s') : s'.Inv e k := by
  simp only [step] at hs
  split at hs
  · case h_1 hwaiting =>
    obtain ⟨⟨value,v⟩,hload,rfl⟩ := Option.map_eq_some_iff.mp hs
    obtain ⟨msg,hmsg,rfl,hle,-,hview⟩ := Memory.load_spec hload
    have hvisible := Memory.load_visible hload
    have hwf : s.memory.Wf := h.flow.ring.wf
    obtain ⟨q,hplaced,hidle⟩ := (h.stages p).placed hwaiting
    have hc : s.ClientStep ((s.acts (.producer p) s.memory v).goto p
        (if msg.value ≠ 0 then .notified else .waiting)) p :=
      .acts (fun _ hne => goto_client_ne _ _ hne) (fun _ _ => rfl) hle (.refl _ _ _) (fun _ _ h => h)
        (fun _ _ _ h => .inl h)
    have hring : (s.acts (.producer p) s.memory v).ring.Inv k :=
      h.flow.acts_ring hle (.refl _ _ _) hwf h.flow.ring.calm
    refine hc.inv h (hc.flow h.flow hring h.flow.tickets (fun _ => rfl)) ?_
      (h.found.grows hc.learns (fun _ _ _ => .inl) (fun _ _ _ => .inl) (fun _ _ => .inl))
    by_cases hvalue : msg.value = 0
    · refine (h.stages p).waits hc (.refl _ _ _) hplaced ⟨hplaced.1,.inr ⟨?_,hidle⟩⟩
      simp [hvalue]
    · obtain ⟨ha,hserves,ho,hsees⟩ := (h.stages p).answered hwf hplaced hmsg hvisible hvalue
      refine .notified q (by simp [hvalue]) hidle hplaced.1 ha hserves ?_ ?_
      · rw [goto_ring,acts_view_self]
        exact ho.mono (hview rfl)
      · rw [goto_ring,acts_view_self]
        exact (hc.sees _ q hsees).mono (hview rfl)
  · cases hs

theorem Stage.notified_spec (h : s.Stage e p) (hnotified : s.client p = .notified) {q : Nat}
    (hticket : s.ticket p = some q) : s.ring.producers p = .idle ∧ s.Answered e p q ∧
      s.writer.serves ≠ some p ∧ s.Owns p (s.ring.view p) ∧ s.Sees e (s.ring.view p) q := by
  have habsurd {q' : Nat} (hp : s.Placed p q') : False := by
    simp [Placed,hnotified] at hp
  cases h with
  | ready hready => cases hnotified.symm.trans hready
  | searching r hcalling => cases hnotified.symm.trans hcalling
  | queued q' v hp => exact (habsurd hp).elim
  | served q' hp => exact (habsurd hp).elim
  | completed q' hp => exact (habsurd hp).elim
  | notified q' _ hidle ht ha hs ho hsees =>
    cases ht.symm.trans hticket
    exact ⟨hidle,ha,hs,ho,hsees⟩

theorem Answered.lt {q : Nat} (h : s.Answered e p q) : q < s.processed.length := by
  have hlt := (List.getElem?_eq_some_iff.mp h.2).1
  rwa [LedgerEngine.answersTo_length] at hlt

theorem Inv.readError (h : s.Inv e k) (hs : s.step (.readError p) = some s') : s'.Inv e k := by
  simp only [step] at hs
  split at hs
  · case h_1 q hnotified hticket =>
    have hs' := Option.some.inj hs
    obtain ⟨hidle,ha,hserves,ho,hsees⟩ := (h.stages p).notified_spec hnotified hticket
    have hle := Memory.le_access s.memory (s.ring.view p) (.other (.error p)) false
    have hview : s'.ring.view p = (s.memory.access (s.ring.view p) (.other (.error p)) false).2 := by
      rw [← hs']
      exact acts_view_self s p _ _
    have hc : s.ClientStep s' p := by
      rw [← hs']
      refine .acts (fun _ hne => goto_client_ne _ _ hne) (fun p' hne => by simp [hne]) hle
        (Memory.keeps_access _ _ _ _ ?_) (fun v n hk => hk.access_read) (fun i n b hi => ?_)
      · rintro ⟨p',hne,he⟩
        simp only [Plain.other.injEq,Object.error.injEq] at he
        exact hne he.symm
      · simpa [Memory.access_getElem?] using Or.inl hi
    have hring : s'.ring.Inv k := by
      rw [← hs']
      exact h.flow.acts_ring hle (Memory.keeps_access _ _ _ _ Bool.noConfusion)
        h.flow.ring.wf.access (ho.known.access_racy.trans h.flow.ring.calm)
    have hsees' : s'.Sees e (s'.ring.view p) q := (hc.sees _ q hsees).mono hc.view
    have hticket' : s'.ticket p = none := by simp [← hs']
    refine hc.inv h (hc.flow h.flow hring ?_ (fun hp => absurd hp hserves)) ?_ ?_
    · intro q' r hq' hr
      rw [show s'.ring.claimed = s.ring.claimed by simp [← hs',acts]] at hr
      have hold := h.flow.tickets q' r hq' hr
      have hne : r.completion ≠ p := by
        intro he
        rw [he,hticket] at hold
        cases hold
        have := ha.lt
        have := h.flow.count
        omega
      rwa [hc.ticket _ hne]
    · refine .ready (by simp [← hs']) (by simpa [← hs',acts] using hidle) hticket' ?_
      rw [hview,← hs']
      exact ho.access_self
    · refine h.found.grows hc.learns ?_ ?_ ?_
      · simpa [← hs',acts,goto] using fun _ _ _ => Or.inl
      · intro p' q' error hp
        rw [← hs'] at hp
        rcases List.mem_append.mp hp with hp | hp
        · exact .inl hp
        · cases List.mem_singleton.mp hp
          exact .inr ⟨ha.1.grows hc.grows,answersTo_grows hc.grows ha.2,hsees'⟩
      · simpa [← hs',acts,goto] using fun _ _ => Or.inl
  · cases hs

theorem Stage.ready_spec (h : s.Stage e p) (hready : s.client p = .ready) :
    s.ring.producers p = .idle ∧ s.ticket p = none ∧ s.Owns p (s.ring.view p) := by
  have habsurd {q : Nat} (hp : s.Placed p q) : False := by
    simp [Placed,hready] at hp
  cases h with
  | ready _ hidle ht ho => exact ⟨hidle,ht,ho⟩
  | searching r hcalling => cases hready.symm.trans hcalling
  | queued q v hp => exact (habsurd hp).elim
  | served q hp => exact (habsurd hp).elim
  | completed q hp => exact (habsurd hp).elim
  | notified q hnotified => cases hready.symm.trans hnotified

theorem mem_heardBy {q : Nat} (h : q ∈ s.heardBy p) : ∃ error, (p,q,error) ∈ s.heard := by
  simp only [heardBy,List.mem_map,List.mem_filter,decide_eq_true_eq] at h
  obtain ⟨⟨p',q',error⟩,⟨hmem,rfl⟩,rfl⟩ := h
  exact ⟨error,hmem⟩

/-- A client that has heard an answer gets a copy with its request in it. -/
theorem Inv.holds_snapshot (h : s.Inv e k) {t n : Nat} {v : Past (Loc Flag)}
    (hload : s.memory.load .acquire (s.ring.view p) (.other .published) t = some (n,v)) :
    s.memory.KnowsWrites v (.other (.state n)) ∧ ∃ st, s.states[n]? = some st ∧ s.IsCopy e st ∧
      ∀ q ∈ s.heardBy p, s.Covers e q st := by
  obtain ⟨msg,hmsg,rfl,-,-,hview⟩ := Memory.load_spec hload
  have hwrites := h.copies.whole t msg hmsg
  obtain ⟨-,st,hst,hcopy⟩ := h.told.pointers t msg hmsg
  refine ⟨hwrites.mono (hview rfl),st,hst,hcopy,fun q hq => ?_⟩
  obtain ⟨error,hmem⟩ := mem_heardBy hq
  obtain ⟨-,-,hsees⟩ := h.found.heard p q error hmem
  obtain ⟨st',hst',hcovers⟩ := hsees.2 t msg hmsg (Memory.load_visible hload)
  cases hst.symm.trans hst'
  exact hcovers

theorem Inv.snapshot (h : s.Inv e k) {t : Nat} (hs : s.step (.snapshot p t) = some s') :
    s'.Inv e k := by
  simp only [step] at hs
  split at hs
  · case h_1 hready =>
    obtain ⟨⟨n,v⟩,hload,hs'⟩ := Option.map_eq_some_iff.mp hs
    obtain ⟨-,-,-,hle,-⟩ := Memory.load_spec hload
    obtain ⟨hwrites,hcopy⟩ := h.holds_snapshot hload
    obtain ⟨hidle,hticket,ho⟩ := (h.stages p).ready_spec hready
    have hview : s'.ring.view p = v := by
      rw [← hs']
      exact acts_view_self s p _ _
    have hc : s.ClientStep s' p := by
      rw [← hs']
      exact .acts (fun _ _ => rfl) (fun _ _ => rfl) hle (.refl _ _ _) (fun _ _ h => h)
        (fun _ _ _ h => .inl h)
    have hring : s'.ring.Inv k := by
      rw [← hs']
      exact h.flow.acts_ring hle (.refl _ _ _) h.flow.ring.wf h.flow.ring.calm
    refine hc.inv h (hc.flow h.flow hring ?_ ?_) ?_ (h.found.grows hc.learns ?_ ?_ ?_)
    · rw [← hs']
      exact h.flow.tickets
    · simp [← hs',acts]
    · refine .ready (by simp [← hs',hready]) (by simpa [← hs',acts] using hidle)
        (by simpa [← hs',acts] using hticket) ?_
      rw [hview,← hs']
      exact ho.mono hle
    · intro p' n' before hp
      rw [← hs'] at hp
      dsimp only at hp
      rcases eq_or_ne p' p with rfl | hne
      · rw [Function.update_self] at hp
        cases hp
        right
        rw [Holds,hview,← hs']
        exact ⟨hwrites,hcopy⟩
      · rw [Function.update_of_ne hne] at hp
        exact .inl hp
    · simpa [← hs',acts] using fun _ _ _ => Or.inl
    · simpa [← hs',acts] using fun _ _ => Or.inl
  · cases hs

theorem Inv.readState (h : s.Inv e k) (hs : s.step (.readState p) = some s') : s'.Inv e k := by
  simp only [step] at hs
  split at hs
  · case h_1 n before hready hholds =>
    have hs' := Option.some.inj hs
    obtain ⟨hwrites,st,hst,hcopy,hcovers⟩ := h.found.holds p n before hholds
    obtain ⟨hidle,hticket,ho⟩ := (h.stages p).ready_spec hready
    have hn := (List.getElem?_eq_some_iff.mp hst).1
    have hle := Memory.le_access s.memory (s.ring.view p) (.other (.state n)) false
    have hview : s'.ring.view p = (s.memory.access (s.ring.view p) (.other (.state n)) false).2 := by
      rw [← hs']
      exact acts_view_self s p _ _
    have hc : s.ClientStep s' p := by
      rw [← hs']
      refine .acts (fun _ _ => rfl) (fun _ _ => rfl) hle
        (Memory.keeps_access _ _ _ _ (by simp)) (fun v n hk => hk.access_read) (fun i n' b hi => ?_)
      rcases (Memory.access_getElem? _ _ _ _).mp hi with hi | ⟨-,he,-⟩
      · exact .inl hi
      · cases he
        exact .inr hn
    have hring : s'.ring.Inv k := by
      rw [← hs']
      exact h.flow.acts_ring hle (Memory.keeps_access _ _ _ _ Bool.noConfusion)
        h.flow.ring.wf.access (hwrites.access_racy.trans h.flow.ring.calm)
    refine hc.inv h (hc.flow h.flow hring ?_ ?_) ?_ (h.found.grows hc.learns ?_ ?_ ?_)
    · rw [← hs']
      exact h.flow.tickets
    · simp [← hs',acts]
    · refine .ready (by simp [← hs',hready]) (by simpa [← hs',acts] using hidle)
        (by simpa [← hs',acts] using hticket) ?_
      rw [hview,← hs']
      exact (ho.access_other (by simp)).mono hle
    · simpa [← hs',acts] using fun _ _ _ => Or.inl
    · simpa [← hs',acts] using fun _ _ _ => Or.inl
    · intro before' st' hp
      rw [← hs'] at hp
      rcases List.mem_append.mp hp with hp | hp
      · exact .inl hp
      · cases List.mem_singleton.mp hp
        rw [List.getD_eq_getElem?_getD,hst]
        exact .inr (hc.learns.read ⟨hcopy,hcovers⟩)
  · cases hs

theorem Inv.submit (h : s.Inv e k) {tx : Transaction} {now : Int64} {t : Nat}
    (hs : s.step (.submit p tx now t) = some s') : s'.Inv e k := by
  simp only [step] at hs
  split at hs
  · case h_1 hready =>
    obtain ⟨⟨m,v⟩,hstore,hs⟩ := Option.bind_eq_some_iff.mp hs
    obtain ⟨ht,hfree,rfl,view,hview,rfl,-⟩ := Memory.store_spec hstore
    obtain ⟨hidle,hticket,ho⟩ := (h.stages p).ready_spec hready
    have hle : s.ring.view p ≤ (s.ring.view p).at (.other (.done p)) t := Past.le_at (Nat.le_of_lt ht)
    have hlast : s.memory.last (.other (.done p)) < t := Nat.lt_of_le_of_lt ho.newest ht
    have hidle' : (s.acts (.producer p) (s.memory.put (.other (.done p)) t ⟨0,view⟩)
        ((s.ring.view p).at (.other (.done p)) t)).ring.producers p = .idle := hidle
    simp only [WeakRing.step,hidle',Option.map_some,Option.some.injEq] at hs
    have hv : s'.ring.view p = (s.ring.view p).at (.other (.done p)) t := by simp [← hs]
    have hc : s.ClientStep s' p := {
      grows := by
        rw [← hs]
        exact ⟨⟨List.prefix_refl _,List.prefix_refl _,List.prefix_refl _⟩,List.prefix_refl _⟩
      engine := by rw [← hs]; rfl
      writer := by rw [← hs]; rfl
      errors := by rw [← hs]; rfl
      states := by rw [← hs]; rfl
      processed := by rw [← hs]; rfl
      popped := by rw [← hs]; rfl
      view := by rwa [hv]
      consumer := by simp [← hs,WeakRing.moves]
      client := fun p' hne => by simp [← hs,goto,hne]
      ticket := fun p' hne => by rw [← hs]; rfl
      producers := fun p' hne => by simp [← hs,WeakRing.moves,acts,hne]
      views := fun p' hne => by
        rw [← hs]
        exact (WeakRing.moves_view_ne _ _ _ hne).trans (acts_view_ne _ _ _ hne)
      keeps := by
        rw [← hs]
        exact Memory.keeps_put _ _ _ _ (fun hp => hp.2 rfl)
      writes := by
        rw [← hs]
        exact fun v n hk => hk
      unused := by
        rw [← hs]
        exact fun i n b hi => .inl hi }
    have hring : s'.ring.Inv k := by
      rw [← hs]
      refine (h.flow.acts_ring hle (Memory.keeps_put _ _ _ _ Bool.noConfusion)
        (h.flow.ring.wf.put hview hfree) h.flow.ring.calm).look ?_ rfl ?_
      · rw [hidle']
        rfl
      · simp [WeakRing.Looked]
    refine hc.inv h (hc.flow h.flow hring ?_ ?_) ?_ (h.found.grows hc.learns ?_ ?_ ?_)
    · rw [← hs]
      exact h.flow.tickets
    · rw [← hs]
      exact fun _ => rfl
    · refine .searching ⟨{ tx with createdAtNs := now },p⟩ (by simp [← hs]) ?_ rfl ?_ ?_ ⟨?_,?_⟩
      · simp [← hs,Producer.wants]
      · rw [← hs]
        exact hticket
      · rw [hv,← hs]
        exact ho.put_self ht
      · rw [← hs]
        exact congrArg Message.value (Memory.put_top_self hlast)
      · rw [hv,← hs,Past.at_self]
        exact Nat.le_of_eq ((Memory.put_last_self _ _ _ _).trans (max_eq_right (Nat.le_of_lt hlast)))
    · simpa [← hs,acts,goto] using fun _ _ _ => Or.inl
    · simpa [← hs,acts,goto] using fun _ _ _ => Or.inl
    · simpa [← hs,acts,goto] using fun _ _ => Or.inl
  · cases hs

section Push

variable {ring : WeakRing PendingRequest Flag Object}

def pushed (s : WeakThreads) (p : Nat) (ring : WeakRing PendingRequest Flag Object) : WeakThreads :=
  { s.goto p (s.afterPush p ring) with ring := ring, ticket := s.afterClaim p ring }

theorem Moves.sent_grows (hm : s.ring.Moves ring p) : s.ring.sent <+: ring.sent := by
  cases hm with
  | searches item _ _ _ hsent => rw [hsent]
  | turnsAway item _ _ _ hsent => rw [hsent]
  | claims item _ _ _ hsent =>
    rw [hsent]
    exact List.prefix_append _ _
  | copies item pos _ _ hsent => rw [hsent]
  | publishes item pos _ _ _ hsent => rw [hsent]

theorem clientStep_pushed (h : s.Flow k) {t : Nat} {spurious : Bool}
    (hs : s.ring.producerStep p t spurious = some ring) : s.ClientStep (s.pushed p ring) p := by
  obtain ⟨hframe,hproducers,hpopped⟩ := WeakRing.producerStep_frame hs
  have hsent := Moves.sent_grows (h.ring.producerStep_moves hs)
  exact {
    grows := ⟨⟨List.prefix_refl _,List.prefix_refl _,WeakRing.producerStep_claimed hs⟩,hsent⟩
    engine := rfl
    writer := rfl
    errors := rfl
    states := rfl
    processed := rfl
    popped := hpopped
    view := hframe.view
    consumer := hframe.views .consumer (by simp)
    client := fun p' hne => goto_client_ne s _ hne
    ticket := fun p' hne => by
      cases hp : ring.producers p <;> simp [pushed,afterClaim,hp,hne]
    producers := hproducers
    views := fun p' hne => hframe.views _ (by simp [hne])
    keeps := hframe.keeps.mono (fun x hx => hx.1) (by rintro y ⟨p',-,rfl⟩; rfl)
    writes := fun v n hk => hframe.keeps.knowsWrites rfl hk
    unused := fun i n b hi => .inl ((hframe.keeps.accesses _ rfl i b).mp hi) }

theorem Stage.searching_spec (h : s.Stage e p) {item : PendingRequest}
    (hw : (s.ring.producers p).wants = some item) :
    s.client p = .calling ∧ item.completion = p ∧ s.ticket p = none ∧
      s.Owns p (s.ring.view p) ∧ s.Unset p := by
  have habsurd {q : Nat} (hp : s.Placed p q) : False := by
    rcases hp.2 with ⟨-,r,hclaim⟩ | ⟨-,hidle⟩
    · cases (Producer.wants_of_claim hclaim).symm.trans hw
    · rw [hidle] at hw
      cases hw
  cases h with
  | ready _ hidle =>
    rw [hidle] at hw
    cases hw
  | searching r hc hr hp ht ho hu =>
    cases hr.symm.trans hw
    exact ⟨hc,hp,ht,ho,hu⟩
  | queued q v hp => exact (habsurd hp).elim
  | served q hp => exact (habsurd hp).elim
  | completed q hp => exact (habsurd hp).elim
  | notified q _ hidle =>
    rw [hidle] at hw
    cases hw

theorem Stage.claim_spec (h : s.Stage e p) {item : PendingRequest} {pos : Nat}
    (hclaim : (s.ring.producers p).claim = some (item,pos)) :
    s.client p = .calling ∧ s.Placed p pos := by
  have hplaced {q : Nat} (hp : s.Placed p q) : s.client p = .calling ∧ s.Placed p pos := by
    rcases hp.2 with ⟨hcalling,r,hr⟩ | ⟨-,hidle⟩
    · cases hr.symm.trans hclaim
      exact ⟨hcalling,hp⟩
    · rw [hidle] at hclaim
      cases hclaim
  cases h with
  | ready _ hidle =>
    rw [hidle] at hclaim
    cases hclaim
  | searching r _ hr => cases (Producer.wants_of_claim hclaim).symm.trans hr
  | queued q v hp => exact hplaced hp
  | served q hp => exact hplaced hp
  | completed q hp => exact hplaced hp
  | notified q _ hidle =>
    rw [hidle] at hclaim
    cases hclaim

theorem pushed_searches {item item' : PendingRequest} (hold : (s.ring.producers p).wants = some item)
    (hnew : (ring.producers p).wants = some item') :
    (s.pushed p ring).client p = .calling ∧ (s.pushed p ring).ticket = s.ticket := by
  cases hp : s.ring.producers p <;> cases hp' : ring.producers p <;>
    simp_all [pushed,afterPush,afterClaim,Producer.wants]

theorem pushed_turnsAway {item : PendingRequest} (hold : (s.ring.producers p).wants = some item)
    (hnew : ring.producers p = .idle) :
    (s.pushed p ring).client p = .ready ∧ (s.pushed p ring).ticket = s.ticket := by
  cases hp : s.ring.producers p <;> simp_all [pushed,afterPush,afterClaim,Producer.wants]

theorem pushed_claims {item item' : PendingRequest} {pos : Nat}
    (hold : (s.ring.producers p).wants = some item) (hnew : ring.producers p = .beginWrite item' pos) :
    (s.pushed p ring).client p = .calling ∧
      (s.pushed p ring).ticket = Function.update s.ticket p (some pos) := by
  cases hp : s.ring.producers p <;> simp_all [pushed,afterPush,afterClaim,Producer.wants]

theorem pushed_copies {item : PendingRequest} {pos : Nat}
    (hpc : s.ring.producers p = .beginWrite item pos ∧ ring.producers p = .endWrite item pos ∨
      s.ring.producers p = .endWrite item pos ∧ ring.producers p = .storeSeq item pos) :
    (s.pushed p ring).client p = .calling ∧ (s.pushed p ring).ticket = s.ticket := by
  rcases hpc with ⟨hold,hnew⟩ | ⟨hold,hnew⟩ <;> simp [pushed,afterPush,afterClaim,hold,hnew]

theorem pushed_publishes {item : PendingRequest} {pos : Nat}
    (hold : s.ring.producers p = .storeSeq item pos) (hnew : ring.producers p = .idle) :
    (s.pushed p ring).client p = .waiting ∧ (s.pushed p ring).ticket = s.ticket := by
  simp [pushed,afterPush,afterClaim,hold,hnew]

theorem Inv.tickets_pushed (h : s.Inv e k) (hm : s.ring.Moves ring p) {q : Nat}
    {r : PendingRequest} (hq : s.ring.popped.length ≤ q) (hr : ring.claimed[q]? = some r) :
    (s.pushed p ring).ticket r.completion = some q := by
  have hsame (hclaimed : ring.claimed = s.ring.claimed)
      (hticket : (s.pushed p ring).ticket = s.ticket) :
      (s.pushed p ring).ticket r.completion = some q := by
    rw [hclaimed] at hr
    rw [hticket]
    exact h.flow.tickets q r hq hr
  cases hm with
  | searches item hold hnew hclaimed => exact hsame hclaimed (pushed_searches hold hnew).2
  | turnsAway item hold hnew hclaimed => exact hsame hclaimed (pushed_turnsAway hold hnew).2
  | copies item pos hpc hclaimed => exact hsame hclaimed (pushed_copies hpc).2
  | publishes item pos hold hnew hclaimed => exact hsame hclaimed (pushed_publishes hold hnew).2
  | claims item hold hnew hclaimed =>
    obtain ⟨-,hitem,hnone,-⟩ := (h.stages p).searching_spec hold
    rw [(pushed_claims hold hnew).2]
    rw [hclaimed] at hr
    rcases Nat.lt_trichotomy q s.ring.claimed.length with hlt | rfl | hgt
    · rw [List.getElem?_append_left hlt] at hr
      have hticket := h.flow.tickets q r hq hr
      have hne : r.completion ≠ p := by
        rintro rfl
        cases hnone.symm.trans hticket
      rwa [Function.update_of_ne hne]
    · rw [List.getElem?_concat_length] at hr
      cases hr
      rw [hitem,Function.update_self]
    · rw [List.getElem?_eq_none (by simp; omega)] at hr
      cases hr

theorem Inv.serving_pushed (h : s.Inv e k) (hm : s.ring.Moves ring p)
    (hserves : s.writer.serves = some p) : (s.pushed p ring).ticket p = s.ticket p := by
  cases hm with
  | searches item hold hnew => rw [(pushed_searches hold hnew).2]
  | turnsAway item hold hnew => rw [(pushed_turnsAway hold hnew).2]
  | copies item pos hpc => rw [(pushed_copies hpc).2]
  | publishes item pos hold hnew => rw [(pushed_publishes hold hnew).2]
  | claims item hold hnew =>
    obtain ⟨-,-,hnone,-⟩ := (h.stages p).searching_spec hold
    obtain ⟨q,hq,-⟩ := h.flow.serving p hserves
    cases hnone.symm.trans hq

theorem Inv.stage_pushed (h : s.Inv e k) (hm : s.ring.Moves ring p)
    (hc : s.ClientStep (s.pushed p ring) p)
    (hkeep : s.memory.Keeps ring.memory (fun x => x.ofQueue = false) (fun y => y.ofQueue = false)) :
    (s.pushed p ring).Stage e p := by
  have hkeeps : s.memory.Keeps (s.pushed p ring).memory (fun x => x = .other (.done p))
      (fun y => y = .other (.error p)) :=
    hkeep.mono (by simp [Loc.ofQueue]) (by simp [Plain.ofQueue])
  have howns (v : Past (Loc Flag)) (ho : s.Owns p v) : (s.pushed p ring).Owns p v :=
    hkeeps.guards rfl rfl ho
  have hunset (hu : s.Unset p) : (s.pushed p ring).Unset p := by
    refine ⟨?_,?_⟩
    · rw [flag,hkeeps.top rfl]
      exact hu.1
    · rw [hkeeps.last _ rfl]
      exact Nat.le_trans hu.2 (hc.view.1 _)
  cases hm with
  | searches item hold hnew =>
    obtain ⟨hcalling,hitem,hnone,ho,hu⟩ := (h.stages p).searching_spec hold
    obtain ⟨hclient,hticket⟩ := pushed_searches hold hnew
    exact .searching item hclient hnew hitem (hticket ▸ hnone) ((howns _ ho).mono hc.view) (hunset hu)
  | turnsAway item hold hnew =>
    obtain ⟨hcalling,hitem,hnone,ho,hu⟩ := (h.stages p).searching_spec hold
    obtain ⟨hclient,hticket⟩ := pushed_turnsAway hold hnew
    exact .ready hclient hnew (hticket ▸ hnone) ((howns _ ho).mono hc.view)
  | claims item hold hnew hclaimed hsent =>
    obtain ⟨hcalling,hitem,hnone,ho,hu⟩ := (h.stages p).searching_spec hold
    obtain ⟨hclient,hticket⟩ := pushed_claims hold hnew
    have hbehind : s.ring.popped.length ≤ s.ring.claimed.length := h.flow.ring.laps.behind
    refine .queued s.ring.claimed.length (s.ring.view p) ⟨?_,.inl ⟨hclient,item,?_⟩⟩
      ⟨item,?_,hitem⟩ ?_ ?_ (howns _ ho) (hunset hu)
    · rw [hticket,Function.update_self]
    · rw [show (s.pushed p ring).ring.producers p = _ from hnew]
      rfl
    · rw [show (s.pushed p ring).ring.claimed = _ from hclaimed,List.getElem?_concat_length]
    · rwa [hc.popped]
    · rw [show (s.pushed p ring).ring.sent = _ from hsent,← h.flow.ring.sentLength,
        List.getElem?_concat_length]
  | copies item pos hpc =>
    have hclaim : (s.ring.producers p).claim = some (item,pos) ∧
        (ring.producers p).claim = some (item,pos) := by
      rcases hpc with ⟨hold,hnew⟩ | ⟨hold,hnew⟩ <;> simp [hold,hnew,Producer.claim]
    obtain ⟨hcalling,hplaced⟩ := (h.stages p).claim_spec hclaim.1
    obtain ⟨hclient,hticket⟩ := pushed_copies hpc
    exact (h.stages p).waits hc hkeeps hplaced
      ⟨hticket ▸ hplaced.1,.inl ⟨hclient,item,hclaim.2⟩⟩
  | publishes item pos hold hnew =>
    obtain ⟨hcalling,hplaced⟩ := (h.stages p).claim_spec (by rw [hold]; rfl)
    obtain ⟨hclient,hticket⟩ := pushed_publishes hold hnew
    exact (h.stages p).waits hc hkeeps hplaced ⟨hticket ▸ hplaced.1,.inr ⟨hclient,hnew⟩⟩

theorem Inv.push (h : s.Inv e k) {t : Nat} {spurious : Bool}
    (hs : s.step (.push p t spurious) = some s') (hb : s'.ring.claimed.length < 2^63) :
    s'.Inv e k := by
  simp only [step] at hs
  split at hs
  · obtain ⟨ring,hring,rfl⟩ := Option.map_eq_some_iff.mp hs
    obtain ⟨hframe,-⟩ := WeakRing.producerStep_frame hring
    have hm := h.flow.ring.producerStep_moves hring
    have hc : s.ClientStep (s.pushed p ring) p := clientStep_pushed h.flow hring
    exact hc.inv h (hc.flow h.flow (h.flow.ring.producerStep hring hb)
      (fun q r => h.tickets_pushed hm) (h.serving_pushed hm)) (h.stage_pushed hm hc hframe.keeps)
      (h.found.grows hc.learns (fun _ _ _ => .inl) (fun _ _ _ => .inl) (fun _ _ => .inl))
  · cases hs

end Push

end ClientSteps

end WeakThreads

end FinancialLedger
