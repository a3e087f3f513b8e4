import FinancialLedger.WeakThreads
set_option autoImplicit false

/-!
Publishing before acknowledging, with the two stores apart. Whatever the queue and the
clients do, whoever has seen a raised flag sees only pointers to copies with the request
in them.
-/

namespace FinancialLedger
open Wal ViewMemory RingBuffer

namespace LedgerEngine

theorem answersTo_snoc (e : LedgerEngine) (ps : List Popped) (p : Popped) :
    e.answersTo (ps ++ [p]) = e.answersTo ps ++ [(e.processAll ps).answer p] := by
  induction ps generalizing e with
  | nil => rfl
  | cons p' ps ih =>
    rw [List.cons_append,answersTo,answersTo,ih]
    rfl

theorem answersTo_mono (e : LedgerEngine) {ps ps' : List Popped} (h : ps <+: ps') :
    e.answersTo ps <+: e.answersTo ps' := by
  obtain ⟨rest,rfl⟩ := h
  have htake := e.answersTo_take (ps ++ rest) ps.length
  rw [List.take_left] at htake
  rw [← htake]
  exact List.take_prefix _ _

theorem after_published {e : LedgerEngine} (hstart : e.processedSincePublish = 0)
    (hone : e.period = 1) {ps : List Popped} {q j : Nat} (hq : q < j)
    (hans : (e.answersTo ps)[q]? = some .none) :
    (e.after ps j).published = (e.after ps j).working := by
  have hlags := e.processAll_lags hstart (ps.take j)
  have hcommitted : 1 ≤ (e.committed (ps.take j)).length := by
    rw [answersTo_getElem?] at hans
    obtain ⟨p,hp,hnone⟩ := Option.map_eq_some_iff.mp hans
    have htake : (ps.take j).take (q+1) = ps.take q ++ [p] := by
      rw [List.take_take,Nat.min_eq_left hq,List.take_add_one,hp]
      rfl
    have hle := e.committed_take_le (ps.take j) (q+1)
    rw [after] at hnone
    rw [htake,committed_snoc,if_pos hnone] at hle
    omega
  have hseen := hlags.seen (by rw [hone]; exact hcommitted) (ps.take j).length
  rw [hone,Nat.div_one,Nat.one_mul,List.take_length] at hseen
  have := hseen rfl
  rw [after,this,after,List.take_length]

end LedgerEngine

def Writer.serves : Writer → Option Nat
  | .popping => none
  | .writeState p _ => some p
  | .storePublished p _ => some p
  | .storeError p _ => some p
  | .storeDone p => some p

namespace WeakThreads

def Newest (s : WeakThreads) (msg : Message (Loc Flag)) : Prop :=
  ∃ t, s.memory.messages (.other .published) t = some msg ∧
    ∀ t' msg', s.memory.messages (.other .published) t' = some msg' → t' ≤ t

def Current (s : WeakThreads) : Prop :=
  match s.writer with
  | .writeState _ _ => s.engine.published = s.engine.working
  | .storePublished _ _ => s.states.getLast? = some s.engine.published
  | .popping | .storeError _ _ | .storeDone _ =>
      ∀ msg, s.Newest msg → s.states[msg.value]? = some s.engine.published

section Sequential

/-! The engine that takes the requests one by one. -/

variable (e : LedgerEngine)

def copyAt (s : WeakThreads) (j : Nat) : LedgerState :=
  (e.after s.processed j).published

def IsCopy (s : WeakThreads) (st : LedgerState) : Prop :=
  ∃ j, j ≤ s.processed.length ∧ st = s.copyAt e j

/-- The state is a copy that is no older than the request at position `q`. -/
def Covers (s : WeakThreads) (q : Nat) (st : LedgerState) : Prop :=
  ∃ j, q < j ∧ j ≤ s.processed.length ∧ st = s.copyAt e j

/-- With this view, `snapshot` returns a copy no older than position `q`. -/
def Sees (s : WeakThreads) (v : Past (Loc Flag)) (q : Nat) : Prop :=
  q < s.processed.length ∧ ∀ t msg, s.memory.messages (.other .published) t = some msg →
    v.1 (.other .published) ≤ t → ∃ st, s.states[msg.value]? = some st ∧ s.Covers e q st

def Report (s : WeakThreads) : Prop :=
  match s.writer with
  | .popping => True
  | .writeState _ error | .storePublished _ error | .storeError _ error =>
      (e.answersTo s.processed).getLast? = some error
  | .storeDone p => (e.answersTo s.processed).getLast? = some (s.errors p)

/-- What holds of the writer, whatever the queue hands it. -/
structure Told (s : WeakThreads) : Prop where
  engine : s.engine = e.processAll s.processed
  serving : ∀ p, s.writer.serves = some p →
    ∃ r, s.processed.getLast? = some r ∧ r.request.completion = p
  report : s.Report e
  pointers : ∀ t msg, s.memory.messages (.other .published) t = some msg →
    t ≤ (s.ring.views .consumer).1 (.other .published) ∧
      ∃ st, s.states[msg.value]? = some st ∧ s.IsCopy e st
  newest : ∃ msg, s.Newest msg
  current : s.Current

def Shows (s : WeakThreads) (q : Nat) : Prop :=
  q < s.processed.length ∧ ∃ msg st, s.Newest msg ∧ s.states[msg.value]? = some st ∧ s.Covers e q st

end Sequential

/-- The step is none of the writer's outside `try_pop`. -/
structure Aside (s s' : WeakThreads) : Prop where
  engine : s'.engine = s.engine
  writer : s'.writer = s.writer
  errors : s'.errors = s.errors
  states : s'.states = s.states
  processed : s'.processed = s.processed
  published : s'.memory.messages (.other .published) = s.memory.messages (.other .published)
  consumer : s.ring.views .consumer ≤ s'.ring.views .consumer
  claimed : s.ring.claimed <+: s'.ring.claimed

variable {e : LedgerEngine} {s s' : WeakThreads}

section Steps

theorem acts_aside {p : Nat} {m : Memory (Loc Flag) (Plain Object)} {v : Past (Loc Flag)}
    (hm : m.messages (.other .published) = s.memory.messages (.other .published)) :
    s.Aside (s.acts (.producer p) m v) :=
  ⟨rfl,rfl,rfl,rfl,rfl,hm,by simp [acts],List.prefix_refl _⟩

/-- What a step can be: of no concern to readers, the end of a `try_pop` with a request
to process, or one of the writer's accesses behind it. -/
theorem step_cases {a : Action} (hs : s.step a = some s') :
    s.Aside s' ∨
    (∃ t ring out r, s.writer = .popping ∧ s.ring.consumerStep t = some ring ∧
      s.ring.consumer = .storeSeq out ∧ s' = { s with ring := ring }.serve r) ∨
    ∃ t, s.writerStep t = some s' := by
  cases a with
  | submit p tx now t =>
    simp only [step] at hs
    split at hs
    · obtain ⟨⟨m,v⟩,hstore,hs⟩ := Option.bind_eq_some_iff.mp hs
      obtain ⟨-,-,-,_,-,rfl,-⟩ := Memory.store_spec hstore
      obtain ⟨ring,hring,rfl⟩ := Option.map_eq_some_iff.mp hs
      simp only [WeakRing.step] at hring
      split at hring
      · cases hring
        left
        exact ⟨rfl,rfl,rfl,rfl,rfl,Memory.put_messages_ne _ _ _ (by simp),
          by simp [acts,WeakRing.moves],List.prefix_refl _⟩
      · cases hring
    · cases hs
  | push p t spurious =>
    simp only [step] at hs
    split at hs
    · obtain ⟨ring,hring,rfl⟩ := Option.map_eq_some_iff.mp hs
      obtain ⟨hframe,-⟩ := WeakRing.producerStep_frame hring
      left
      exact ⟨rfl,rfl,rfl,rfl,rfl,hframe.keeps.messages _ rfl,
        le_of_eq (hframe.views .consumer (by simp)).symm,WeakRing.producerStep_claimed hring⟩
    · cases hs
  | poll p t =>
    simp only [step] at hs
    split at hs
    · obtain ⟨⟨value,v⟩,-,rfl⟩ := Option.map_eq_some_iff.mp hs
      left
      exact { acts_aside (s := s) (p := p) (v := v) rfl with }
    · cases hs
  | readError p =>
    simp only [step] at hs
    split at hs
    · cases hs
      left
      exact { acts_aside (s := s) (p := p) rfl with }
    · cases hs
  | snapshot p t =>
    simp only [step] at hs
    split at hs
    · obtain ⟨⟨n,v⟩,-,rfl⟩ := Option.map_eq_some_iff.mp hs
      left
      exact { acts_aside (s := s) (p := p) (v := v) rfl with }
    · cases hs
  | readState p =>
    simp only [step] at hs
    split at hs
    · cases hs
      left
      exact { acts_aside (s := s) (p := p) rfl with }
    · cases hs
  | pop t io torn =>
    simp only [step] at hs
    split at hs
    · case h_1 hpopping =>
      obtain ⟨ring,hring,hs⟩ := Option.map_eq_some_iff.mp hs
      obtain ⟨hframe,-,hclaimed,-⟩ := WeakRing.consumerStep_frame hring
      have haside : s.Aside { s with ring := ring } :=
        ⟨rfl,rfl,rfl,rfl,rfl,hframe.keeps.messages _ rfl,hframe.view,by rw [hclaimed]⟩
      cases hcon : s.ring.consumer with
      | storeSeq out =>
        simp only [hcon] at hs
        exact .inr (.inl ⟨t,ring,out,_,hpopping,hring,rfl,hs.symm⟩)
      | idle =>
        simp only [hcon] at hs
        exact .inl (hs ▸ haside)
      | readData =>
        simp only [hcon] at hs
        exact .inl (hs ▸ haside)
    · cases hs
  | writer t => exact .inr (.inr ⟨t,hs⟩)

theorem newest_congr {msg : Message (Loc Flag)}
    (hm : s'.memory.messages (.other .published) = s.memory.messages (.other .published)) :
    s'.Newest msg ↔ s.Newest msg := by
  rw [Newest,Newest,hm]

theorem Told.aside (h : s.Told e) (ha : s.Aside s') : s'.Told e where
  engine := by rw [ha.engine,ha.processed,h.engine]
  serving := by
    rw [ha.writer,ha.processed]
    exact h.serving
  report := by
    have hreport := h.report
    unfold Report at hreport ⊢
    rwa [ha.writer,ha.processed,ha.errors]
  pointers := by
    intro t msg hmsg
    rw [ha.published] at hmsg
    obtain ⟨ht,hcopy⟩ := h.pointers t msg hmsg
    refine ⟨Nat.le_trans ht (ha.consumer.1 _),?_⟩
    rw [ha.states]
    unfold IsCopy copyAt
    rwa [ha.processed]
  newest := by
    simp only [newest_congr ha.published]
    exact h.newest
  current := by
    have hcurrent := h.current
    unfold Current at hcurrent ⊢
    rw [ha.writer,ha.engine,ha.states]
    split
    · simpa [*] using hcurrent
    · simpa [*] using hcurrent
    all_goals
      intro msg hmsg
      simp only [*] at hcurrent
      exact hcurrent msg ((newest_congr ha.published).mp hmsg)

structure Extends (s s' : WeakThreads) : Prop where
  processed : s.processed <+: s'.processed
  states : s.states <+: s'.states
  claimed : s.ring.claimed <+: s'.ring.claimed

theorem copyAt_extends (hx : s.Extends s') {j : Nat} (hj : j ≤ s.processed.length) :
    s'.copyAt e j = s.copyAt e j := by
  obtain ⟨rest,hrest⟩ := hx.processed
  rw [copyAt,copyAt,LedgerEngine.after,LedgerEngine.after,← hrest,List.take_append_of_le_length hj]

theorem IsCopy.extends {st : LedgerState} (h : s.IsCopy e st) (hx : s.Extends s') :
    s'.IsCopy e st := by
  obtain ⟨j,hj,rfl⟩ := h
  exact ⟨j,Nat.le_trans hj hx.processed.length_le,(copyAt_extends hx hj).symm⟩

theorem Covers.extends {q : Nat} {st : LedgerState} (h : s.Covers e q st) (hx : s.Extends s') :
    s'.Covers e q st := by
  obtain ⟨j,hq,hj,rfl⟩ := h
  exact ⟨j,hq,Nat.le_trans hj hx.processed.length_le,(copyAt_extends hx hj).symm⟩

theorem Sees.mono {v v' : Past (Loc Flag)} {q : Nat} (h : s.Sees e v q) (hv : v ≤ v') :
    s.Sees e v' q :=
  ⟨h.1,fun t msg hmsg ht => h.2 t msg hmsg (Nat.le_trans (hv.1 _) ht)⟩

def Repoints (e : LedgerEngine) (s s' : WeakThreads) : Prop :=
  s'.memory.messages (.other .published) = s.memory.messages (.other .published) ∨
    ∃ new, s'.Newest new ∧ s'.states[new.value]? = some (s'.copyAt e s'.processed.length) ∧
      ∀ t msg, s'.memory.messages (.other .published) t = some msg →
        s.memory.messages (.other .published) t = some msg ∨ msg = new

theorem Sees.extends {v : Past (Loc Flag)} {q : Nat} (h : s.Sees e v q) (hx : s.Extends s')
    (hm : s.Repoints e s') : s'.Sees e v q := by
  have hlt := Nat.lt_of_lt_of_le h.1 hx.processed.length_le
  have hold (t : Nat) (msg : Message (Loc Flag))
      (hmsg : s.memory.messages (.other .published) t = some msg)
      (ht : v.1 (.other .published) ≤ t) :
      ∃ st, s'.states[msg.value]? = some st ∧ s'.Covers e q st := by
    obtain ⟨st,hst,hcovers⟩ := h.2 t msg hmsg ht
    exact ⟨st,getElem?_grow hx.states hst,hcovers.extends hx⟩
  refine ⟨hlt,fun t msg hmsg ht => ?_⟩
  rcases hm with hm | ⟨new,-,hcopy,hnew⟩
  · exact hold t msg (hm ▸ hmsg) ht
  · rcases hnew t msg hmsg with hmsg | rfl
    · exact hold t msg hmsg ht
    · exact ⟨_,hcopy,_,hlt,Nat.le_refl _,rfl⟩

theorem Shows.extends {q : Nat} (h : s.Shows e q) (hx : s.Extends s') (hm : s.Repoints e s') :
    s'.Shows e q := by
  have hlt := Nat.lt_of_lt_of_le h.1 hx.processed.length_le
  rcases hm with hm | ⟨new,hnewest,hcopy,-⟩
  · obtain ⟨-,msg,st,hmsg,hst,hcovers⟩ := h
    exact ⟨hlt,msg,st,(newest_congr hm).mpr hmsg,getElem?_grow hx.states hst,hcovers.extends hx⟩
  · exact ⟨hlt,new,_,hnewest,hcopy,_,hlt,Nat.le_refl _,rfl⟩

theorem Told.published_eq (h : s.Told e) : s.engine.published = s.copyAt e s.processed.length := by
  rw [copyAt,LedgerEngine.after,List.take_length,h.engine]

theorem Told.serve (h : s.Told e) {ring : WeakRing PendingRequest Flag Object}
    (hpopping : s.writer = .popping)
    (hm : ring.memory.messages (.other .published) = s.memory.messages (.other .published))
    (hv : s.ring.views .consumer ≤ ring.views .consumer)
    (hclaimed : ring.claimed = s.ring.claimed) (r : Popped) :
    ({ s with ring := ring }.serve r).Told e ∧ s.Extends ({ s with ring := ring }.serve r) := by
  have hnewest (msg : Message (Loc Flag)) :
      ({ s with ring := ring }.serve r).Newest msg ↔ s.Newest msg := newest_congr hm
  have hx : s.Extends ({ s with ring := ring }.serve r) :=
    ⟨List.prefix_append _ _,List.prefix_refl _,by simp [WeakThreads.serve,hclaimed]⟩
  refine ⟨{
    engine := by
      rw [WeakThreads.serve,LedgerEngine.processAll_snoc,← h.engine]
    serving := by
      intro p hp
      refine ⟨r,by simp [WeakThreads.serve],?_⟩
      simp only [WeakThreads.serve] at hp
      split at hp <;> exact Option.some.inj hp
    report := by
      have hlast : (e.answersTo (s.processed ++ [r])).getLast? = some (s.engine.answer r) := by
        rw [LedgerEngine.answersTo_snoc,List.getLast?_concat,← h.engine]
      cases hpub : publishes s.engine r with
      | true => simpa [Report,WeakThreads.serve,hpub] using hlast
      | false => simpa [Report,WeakThreads.serve,hpub] using hlast
    pointers := by
      intro t msg hmsg
      rw [show WeakThreads.memory _ = ring.memory from rfl,hm] at hmsg
      obtain ⟨ht,st,hst,hcopy⟩ := h.pointers t msg hmsg
      exact ⟨Nat.le_trans ht (hv.1 _),st,hst,hcopy.extends hx⟩
    newest := by
      simp only [hnewest]
      exact h.newest
    current := by
      have hcurrent := h.current
      have heq := s.engine.process_published_eq r
      simp only [Current,hpopping] at hcurrent
      cases hpub : publishes s.engine r with
      | true =>
        rw [if_pos (of_decide_eq_true hpub)] at heq
        simpa [Current,WeakThreads.serve,hpub] using heq
      | false =>
        rw [if_neg (of_decide_eq_false hpub)] at heq
        simp only [Current,hnewest]
        simp only [WeakThreads.serve,hpub,heq,Bool.false_eq_true,if_false]
        exact hcurrent },hx⟩

theorem Told.writeState (h : s.Told e) {p : Nat} {error : LedgerError}
    (hw : s.writer = .writeState p error) {t : Nat} (hs : s.writerStep t = some s') :
    s'.Told e := by
  simp only [writerStep,hw] at hs
  have hs' := Option.some.inj hs
  have hserving := h.serving p (by rw [hw]; rfl)
  have hreport := h.report
  have hcurrent := h.current
  simp only [Report,hw] at hreport
  simp only [Current,hw] at hcurrent
  subst hs'
  exact {
    engine := h.engine
    serving := by
      rintro p' hp'
      cases hp'
      exact hserving
    report := hreport
    pointers := by
      intro t msg hmsg
      obtain ⟨ht,st,hst,hcopy⟩ := h.pointers t msg hmsg
      refine ⟨?_,st,getElem?_grow (List.prefix_append _ _) hst,hcopy⟩
      simpa [acts,Memory.access] using ht
    newest := h.newest
    current := by simp [Current,acts,hcurrent] }

theorem Told.storePublished (h : s.Told e) {p : Nat} {error : LedgerError}
    (hw : s.writer = .storePublished p error) {t : Nat} (hs : s.writerStep t = some s') :
    s'.Told e ∧ ∃ new, s'.Newest new ∧
      s'.states[new.value]? = some (s'.copyAt e s'.processed.length) ∧
      ∀ t msg, s'.memory.messages (.other .published) t = some msg →
        s.memory.messages (.other .published) t = some msg ∨ msg = new := by
  simp only [writerStep,hw] at hs
  obtain ⟨⟨m,v⟩,hstore,rfl⟩ := Option.map_eq_some_iff.mp hs
  obtain ⟨ht,-,rfl,view,-,rfl,-⟩ := Memory.store_spec hstore
  have hserving := h.serving p (by rw [hw]; rfl)
  have hreport := h.report
  have hcurrent := h.current
  simp only [Report,hw] at hreport
  simp only [Current,hw,List.getLast?_eq_getElem?] at hcurrent
  have hcopy : s.states[s.states.length-1]? = some (s.copyAt e s.processed.length) := by
    rw [hcurrent,h.published_eq]
  have hmessages (t' : Nat) (msg : Message (Loc Flag))
      (hmsg : (s.memory.put (.other .published) t ⟨s.states.length-1,view⟩).messages
        (.other .published) t' = some msg) :
      (t' = t ∧ msg = ⟨s.states.length-1,view⟩) ∨
        s.memory.messages (.other .published) t' = some msg ∧ t' < t := by
    rcases Memory.put_messages_cases hmsg with ⟨-,rfl,rfl⟩ | hold
    · exact .inl ⟨rfl,rfl⟩
    · exact .inr ⟨hold,Nat.lt_of_le_of_lt (h.pointers t' msg hold).1 ht⟩
  have hself := Memory.put_messages_self s.memory (.other .published) t ⟨s.states.length-1,view⟩
  have hlast (t' : Nat) (msg : Message (Loc Flag))
      (hmsg : (s.memory.put (.other .published) t ⟨s.states.length-1,view⟩).messages
        (.other .published) t' = some msg) : t' ≤ t := by
    rcases hmessages t' msg hmsg with ⟨rfl,-⟩ | ⟨-,hlt⟩
    · exact Nat.le_refl _
    · exact Nat.le_of_lt hlt
  refine ⟨{
    engine := h.engine
    serving := ?_
    report := hreport
    pointers := ?_
    newest := ⟨_,t,hself,hlast⟩
    current := ?_ },_,⟨t,hself,hlast⟩,hcopy,?_⟩
  · rintro p' hp'
    cases hp'
    exact hserving
  · intro t' msg hmsg
    refine ⟨by simpa [acts] using hlast t' msg hmsg,?_⟩
    rcases hmessages t' msg hmsg with ⟨-,rfl⟩ | ⟨hold,-⟩
    · exact ⟨_,hcopy,_,Nat.le_refl _,rfl⟩
    · exact (h.pointers t' msg hold).2
  · rintro msg ⟨t',hmsg,hmax⟩
    have hle := hmax t _ hself
    rcases hmessages t' msg hmsg with ⟨-,rfl⟩ | ⟨-,hlt⟩
    · exact hcurrent
    · omega
  · intro t' msg hmsg
    exact (hmessages t' msg hmsg).symm.imp And.left And.right

theorem Told.storeError (h : s.Told e) {p : Nat} {error : LedgerError}
    (hw : s.writer = .storeError p error) {t : Nat} (hs : s.writerStep t = some s') :
    s'.Told e := by
  simp only [writerStep,hw] at hs
  have hs' := Option.some.inj hs
  have hserving := h.serving p (by rw [hw]; rfl)
  have hreport := h.report
  have hcurrent := h.current
  simp only [Report,hw] at hreport
  simp only [Current,hw] at hcurrent
  subst hs'
  exact {
    engine := h.engine
    serving := by
      rintro p' hp'
      cases hp'
      exact hserving
    report := by simpa [Report,acts] using hreport
    pointers := by
      intro t msg hmsg
      obtain ⟨ht,hst⟩ := h.pointers t msg hmsg
      refine ⟨?_,hst⟩
      simpa [acts,Memory.access] using ht
    newest := h.newest
    current := hcurrent }

theorem Told.storeDone (h : s.Told e) {p : Nat} (hw : s.writer = .storeDone p) {t : Nat}
    (hs : s.writerStep t = some s') :
    s'.Told e ∧ s'.memory.messages (.other .published) = s.memory.messages (.other .published) := by
  simp only [writerStep,hw] at hs
  obtain ⟨⟨m,v⟩,hstore,rfl⟩ := Option.map_eq_some_iff.mp hs
  obtain ⟨ht,-,rfl,view,-,rfl,-⟩ := Memory.store_spec hstore
  have hcurrent := h.current
  simp only [Current,hw] at hcurrent
  have hm : (s.memory.put (.other (.done p)) t ⟨1,view⟩).messages (.other .published) =
      s.memory.messages (.other .published) := Memory.put_messages_ne _ _ _ (by simp)
  refine ⟨{
    engine := h.engine
    serving := by simp [Writer.serves]
    report := trivial
    pointers := ?_
    newest := ?_
    current := ?_ },hm⟩
  · intro t' msg hmsg
    obtain ⟨ht',hst⟩ := h.pointers t' msg (hm ▸ hmsg)
    refine ⟨?_,hst⟩
    simpa [acts,Past.at] using ht'
  · obtain ⟨msg,hmsg⟩ := h.newest
    exact ⟨msg,(newest_congr hm).mpr hmsg⟩
  · intro msg hmsg
    exact hcurrent msg ((newest_congr hm).mp hmsg)

theorem Told.writerStep (h : s.Told e) {t : Nat} (hs : s.writerStep t = some s') :
    s'.Told e ∧ s.Extends s' ∧ s.Repoints e s' := by
  have hsame (hstates : s.states <+: s'.states) (hprocessed : s'.processed = s.processed)
      (hclaimed : s'.ring.claimed = s.ring.claimed) : s.Extends s' :=
    ⟨by rw [hprocessed],hstates,by rw [hclaimed]⟩
  cases hw : s.writer with
  | popping => simp [WeakThreads.writerStep,hw] at hs
  | writeState p error =>
    have htold := h.writeState hw hs
    simp only [WeakThreads.writerStep,hw] at hs
    have hs' := Option.some.inj hs
    exact ⟨htold,hsame (by simp [← hs']) (by simp [← hs',acts]) (by simp [← hs',acts]),
      .inl (by rw [← hs']; rfl)⟩
  | storePublished p error =>
    obtain ⟨htold,hnew⟩ := h.storePublished hw hs
    simp only [WeakThreads.writerStep,hw] at hs
    obtain ⟨_,_,hs'⟩ := Option.map_eq_some_iff.mp hs
    exact ⟨htold,hsame (by simp [← hs',acts]) (by simp [← hs',acts]) (by simp [← hs',acts]),
      .inr hnew⟩
  | storeError p error =>
    have htold := h.storeError hw hs
    simp only [WeakThreads.writerStep,hw] at hs
    have hs' := Option.some.inj hs
    exact ⟨htold,hsame (by simp [← hs',acts]) (by simp [← hs',acts]) (by simp [← hs',acts]),
      .inl (by rw [← hs']; rfl)⟩
  | storeDone p =>
    obtain ⟨htold,hm⟩ := h.storeDone hw hs
    simp only [WeakThreads.writerStep,hw] at hs
    obtain ⟨_,_,hs'⟩ := Option.map_eq_some_iff.mp hs
    exact ⟨htold,hsame (by simp [← hs',acts]) (by simp [← hs',acts]) (by simp [← hs',acts]),
      .inl hm⟩

theorem Told.step (h : s.Told e) {a : Action} (hs : s.step a = some s') :
    s'.Told e ∧ s.Extends s' ∧ s.Repoints e s' := by
  obtain ha | ⟨t,ring,out,r,hpopping,hring,-,rfl⟩ | ⟨t,hs⟩ := step_cases hs
  · exact ⟨h.aside ha,⟨by rw [ha.processed],by rw [ha.states],ha.claimed⟩,.inl ha.published⟩
  · obtain ⟨hframe,-,hclaimed,-⟩ := WeakRing.consumerStep_frame hring
    have hm := hframe.keeps.messages (.other .published) rfl
    obtain ⟨htold,hx⟩ := h.serve hpopping hm hframe.view hclaimed r
    exact ⟨htold,hx,.inl hm⟩
  · exact h.writerStep hs

theorem Told.start (hash : IdempotencyKey → UInt64) (config : Config) (wal : PosixFile.File)
    (seed : LedgerState) :
    (WeakThreads.start hash config wal seed).Told (.seeded hash config wal seed) := by
  have hmessages (t : Nat) (msg : Message (Loc Flag))
      (hmsg : (WeakThreads.start hash config wal seed).memory.messages (.other .published) t =
        some msg) : t = 0 ∧ msg.value = 0 := by
    simp only [WeakThreads.memory,WeakThreads.start,WeakRing.new,Memory.init] at hmsg
    split at hmsg
    · cases hmsg
      exact ⟨by assumption,rfl⟩
    · cases hmsg
  exact {
    engine := rfl
    serving := by simp [WeakThreads.start,Writer.serves]
    report := trivial
    pointers := by
      intro t msg hmsg
      obtain ⟨rfl,hvalue⟩ := hmessages t msg hmsg
      exact ⟨Nat.zero_le _,.empty,by rw [hvalue]; rfl,0,Nat.le_refl _,rfl⟩
    newest := ⟨_,0,rfl,fun t msg hmsg => Nat.le_of_eq (hmessages t msg hmsg).1⟩
    current := by
      rintro msg ⟨t,hmsg,-⟩
      rw [(hmessages t msg hmsg).2]
      rfl }

end Steps

section Runs

theorem Extends.refl (s : WeakThreads) : s.Extends s :=
  ⟨List.prefix_refl _,List.prefix_refl _,List.prefix_refl _⟩

theorem Extends.trans {u : WeakThreads} (h : s.Extends s') (h' : s'.Extends u) : s.Extends u :=
  ⟨h.processed.trans h'.processed,h.states.trans h'.states,h.claimed.trans h'.claimed⟩

theorem Told.run (h : s.Told e) {acts : List Action} (hrun : StepRun.exec WeakThreads.step s acts = some s') :
    s'.Told e ∧ s.Extends s' ∧ (∀ v q, s.Sees e v q → s'.Sees e v q) ∧
      ∀ q, s.Shows e q → s'.Shows e q := by
  refine StepRun.exec_invariant (fun u => u.Told e ∧ s.Extends u ∧
    (∀ v q, s.Sees e v q → u.Sees e v q) ∧ ∀ q, s.Shows e q → u.Shows e q) ?_
    ⟨h,.refl s,fun _ _ h => h,fun _ h => h⟩ (StepRun.guarded_true _ _ acts) hrun
  rintro u a u' ⟨htold,hx,hsees,hshows⟩ - hs
  obtain ⟨htold',hx',hm⟩ := htold.step hs
  exact ⟨htold',hx.trans hx',fun v q hv => (hsees v q hv).extends hx' hm,
    fun q hq => (hshows q hq).extends hx' hm⟩

/-- Raising the flag comes after everything that the request was to publish. -/
theorem Told.raises (h : s.Told e) {p t : Nat} (hw : s.writer = .storeDone p)
    (hs : s.step (.writer t) = some s') :
    (∃ r, s.processed.getLast? = some r ∧ r.request.completion = p) ∧
      (e.answersTo s.processed)[s.processed.length-1]? = some (s.errors p) ∧
      s'.Shows e (s.processed.length-1) ∧
      ∃ v, s'.memory.messages (.other (.done p)) t = some ⟨1,v⟩ ∧
        s'.Sees e v (s.processed.length-1) := by
  obtain ⟨r,hr,hp⟩ := h.serving p (by rw [hw]; rfl)
  obtain ⟨htold,hx,-⟩ := h.step hs
  obtain ⟨-,hm⟩ := h.storeDone hw hs
  have hreport := h.report
  have hcurrent := h.current
  simp only [Report,hw,List.getLast?_eq_getElem?,LedgerEngine.answersTo_length] at hreport
  simp only [Current,hw] at hcurrent
  have hpos : 0 < s.processed.length := by
    cases hps : s.processed with
    | nil => simp [hps] at hr
    | cons => simp
  have hcopy (msg : Message (Loc Flag)) (hmsg : s.Newest msg) :
      ∃ st, s'.states[msg.value]? = some st ∧ s'.Covers e (s.processed.length-1) st := by
    refine ⟨_,getElem?_grow hx.states (hcurrent msg hmsg),?_⟩
    exact Covers.extends ⟨s.processed.length,by omega,Nat.le_refl _,h.published_eq⟩ hx
  have hlt : s.processed.length-1 < s'.processed.length :=
    Nat.lt_of_lt_of_le (by omega) hx.processed.length_le
  refine ⟨⟨r,hr,hp⟩,hreport,⟨hlt,?_⟩,?_⟩
  · obtain ⟨msg,hmsg⟩ := h.newest
    obtain ⟨st,hst,hcovers⟩ := hcopy msg hmsg
    exact ⟨msg,st,(newest_congr hm).mpr hmsg,hst,hcovers⟩
  · simp only [WeakThreads.step,WeakThreads.writerStep,hw] at hs
    obtain ⟨⟨m,v⟩,hstore,hs⟩ := Option.map_eq_some_iff.mp hs
    obtain ⟨-,-,rfl,view,-,rfl,hview⟩ := Memory.store_spec hstore
    cases hview rfl
    refine ⟨_,by rw [← hs]; exact Memory.put_messages_self _ _ _ _,hlt,fun t' msg hmsg ht' => ?_⟩
    rw [hm] at hmsg
    refine hcopy msg ⟨t',hmsg,fun t'' msg'' hmsg'' => ?_⟩
    have hle : (s.ring.views .consumer).1 (.other .published) ≤ t' := by
      simpa [Past.at] using ht'
    exact Nat.le_trans (h.pointers t'' msg'' hmsg'').1 hle

end Runs

end WeakThreads

namespace LedgerEngine

theorem published_before_ack {hash : IdempotencyKey → UInt64} {config : Config}
    {wal : PosixFile.File} {seed : LedgerState} (hone : (seeded hash config wal seed).period = 1)
    {acts later : List WeakThreads.Action} {s s' s'' : WeakThreads} {p t : Nat}
    (hrun : StepRun.exec WeakThreads.step (.start hash config wal seed) acts = some s)
    (hw : s.writer = .storeDone p) (hnone : s.errors p = .none)
    (hs : s.step (.writer t) = some s') (hlater : StepRun.exec WeakThreads.step s' later = some s'') :
    ∃ r v, s.processed.getLast? = some r ∧ r.request.completion = p ∧
      s.processed <+: s''.processed ∧ s'.memory.messages (.other (.done p)) t = some ⟨1,v⟩ ∧
      (∃ msg j, s''.Newest msg ∧ s.processed.length ≤ j ∧ j ≤ s''.processed.length ∧
        s''.states[msg.value]? = some ((seeded hash config wal seed).after s''.processed j).working) ∧
      ∀ t' msg, s''.memory.messages (.other .published) t' = some msg →
        v.1 (.other .published) ≤ t' → ∃ j, s.processed.length ≤ j ∧ j ≤ s''.processed.length ∧
          s''.states[msg.value]? =
            some ((seeded hash config wal seed).after s''.processed j).working := by
  have htold := ((WeakThreads.Told.start hash config wal seed).run hrun).1
  obtain ⟨⟨r,hr,hp⟩,hanswer,hshows,v,hv,hsees⟩ := htold.raises hw hs
  obtain ⟨htold',hx,-⟩ := htold.step hs
  obtain ⟨-,hx',hsees',hshows'⟩ := htold'.run hlater
  have hprocessed := hx.processed.trans hx'.processed
  rw [hnone] at hanswer
  have hworking {st : LedgerState} (hst : s''.Covers (seeded hash config wal seed)
      (s.processed.length-1) st) : ∃ j, s.processed.length ≤ j ∧ j ≤ s''.processed.length ∧
        st = ((seeded hash config wal seed).after s''.processed j).working := by
    obtain ⟨j,hq,hj,rfl⟩ := hst
    exact ⟨j,by omega,hj,after_published rfl hone hq
      (getElem?_grow (answersTo_mono _ hprocessed) hanswer)⟩
  refine ⟨r,v,hr,hp,hprocessed,hv,?_,fun t' msg hmsg ht' => ?_⟩
  · obtain ⟨-,msg,st,hmsg,hst,hcovers⟩ := hshows' _ hshows
    obtain ⟨j,hle,hj,rfl⟩ := hworking hcovers
    exact ⟨msg,j,hmsg,hle,hj,hst⟩
  · obtain ⟨st,hst,hcovers⟩ := (hsees' v _ hsees).2 t' msg hmsg ht'
    obtain ⟨j,hle,hj,rfl⟩ := hworking hcovers
    exact ⟨j,hle,hj,hst⟩

/-- Readers see the empty state until the first period of commits is full, and then the
working copy right after the last commit that filled one. With a period of one, as soon as
a completion shows None the published copy has its request in it, and a thread that has
seen the flag can load no pointer to an older copy. -/
theorem published_exact (hash : IdempotencyKey → UInt64) (config : Config) (wal : PosixFile.File)
    (seed : LedgerState) (calls : List Call) :
    let e := seeded hash config wal seed
    let ps := calls.flatMap Call.dequeued
    let answers := (e.runCalls calls).answers.map Prod.snd
    let n := max 1 config.publishSnapshotEveryN
    let m := (accepted ps answers).length
    (m < n → (e.runCalls calls).published = .empty) ∧
    (n ≤ m → (∃ i, i ≤ ps.length ∧ (accepted (ps.take i) (answers.take i)).length = n*(m/n)) ∧
      ∀ i, (accepted (ps.take i) (answers.take i)).length = n*(m/n) →
        (e.runCalls calls).published = (e.after ps i).working) ∧
    (n = 1 → ∀ (acts later : List WeakThreads.Action) (s s' s'' : WeakThreads) (p t : Nat),
      StepRun.exec WeakThreads.step (.start hash config wal seed) acts = some s →
      s.writer = .storeDone p → s.errors p = .none → s.step (.writer t) = some s' →
      StepRun.exec WeakThreads.step s' later = some s'' →
      ∃ r v, s.processed.getLast? = some r ∧ r.request.completion = p ∧
        s.processed <+: s''.processed ∧ s'.memory.messages (.other (.done p)) t = some ⟨1,v⟩ ∧
        (∃ msg j, s''.Newest msg ∧ s.processed.length ≤ j ∧ j ≤ s''.processed.length ∧
          s''.states[msg.value]? = some (e.after s''.processed j).working) ∧
        ∀ t' msg, s''.memory.messages (.other .published) t' = some msg →
          v.1 (.other .published) ≤ t' → ∃ j, s.processed.length ≤ j ∧ j ≤ s''.processed.length ∧
            s''.states[msg.value]? = some (e.after s''.processed j).working) := by
  intro e ps answers n m
  have hrun : e.runCalls calls = e.processAll ps := runCalls_eq e calls
  have hanswers : answers = e.answersTo ps := by
    show (e.runCalls calls).answers.map Prod.snd = _
    rw [hrun]
    exact seeded_answers hash config wal seed ps
  have htake (i : Nat) : accepted (ps.take i) (answers.take i) = e.committed (ps.take i) := by
    rw [hanswers,answersTo_take]
    rfl
  have hm : m = (e.committed ps).length := by
    show (accepted ps answers).length = _
    rw [hanswers]
    rfl
  have hlags := e.processAll_lags rfl ps
  refine ⟨?_,?_,?_⟩
  · intro hlt
    rw [hrun]
    exact hlags.early (by rw [← hm]; exact hlt)
  · intro hle
    have hfull : n*(m/n) ≤ (e.committed ps).length := by
      rw [← hm]
      exact Nat.mul_div_le m n
    refine ⟨?_,?_⟩
    · obtain ⟨i,hi,hc⟩ := e.exists_committed_eq hfull
      exact ⟨i,hi,by rw [htake,hc]⟩
    · intro i hi
      rw [htake,hm] at hi
      rw [hrun]
      exact hlags.seen (by rw [← hm]; exact hle) i hi
  · intro hone acts later s s' s'' p t hacts hw hnone hs hlater
    exact published_before_ack hone hacts hw hnone hs hlater

def paidUpToFlag : List WeakThreads.Action :=
  [.submit 0 (samplePayment 1) 3 1,.push 0 0 false,.push 0 0 false,.push 0 0 false,
    .push 0 0 false,.push 0 0 false,.push 0 1 false,.pop 1 ⟨17,.accepts 4096,true⟩ ⟨samplePayment 9,9⟩,
    .pop 0 ⟨17,.accepts 4096,true⟩ ⟨samplePayment 9,9⟩,
    .pop 2 ⟨17,.accepts 4096,true⟩ ⟨samplePayment 9,9⟩,.writer 0,.writer 1,.writer 0]

theorem published_exact_second :
    (pairedEngine.runCalls
        [⟨1,[samplePopped 1]⟩,⟨10,[samplePopped 1,samplePopped 2,samplePopped 3]⟩]).published =
      (pairedEngine.after
        [samplePopped 1,samplePopped 1,samplePopped 2,samplePopped 3] 3).working ∧
    ∃ s s' s'', StepRun.exec WeakThreads.step (.start (fun _ => 0) sampleConfig .empty sampleChart)
        paidUpToFlag = some s ∧ s.step (.writer 2) = some s' ∧
      StepRun.exec WeakThreads.step s' [.poll 0 2,.readError 0,.snapshot 0 1] = some s'' ∧
      s''.holds 0 = some (1,[0]) ∧
      s''.states[1]? = some (sampleEngine.after s''.processed 1).working := by
  refine ⟨?_,?_⟩
  · obtain ⟨-,hlater,-⟩ := published_exact (fun _ => 0) pairedConfig .empty sampleChart
      [⟨1,[samplePopped 1]⟩,⟨10,[samplePopped 1,samplePopped 2,samplePopped 3]⟩]
    exact (hlater (by decide +kernel)).2 3 (by decide +kernel)
  · have hrun : (StepRun.exec WeakThreads.step (.start (fun _ => 0) sampleConfig .empty sampleChart)
        paidUpToFlag).map (fun s => (s.writer,s.errors 0,s.processed.length)) =
        some (.storeDone 0,.none,1) := by decide +kernel
    obtain ⟨s,hs,hrun⟩ := Option.map_eq_some_iff.mp hrun
    have hraise : (StepRun.exec WeakThreads.step (.start (fun _ => 0) sampleConfig .empty sampleChart)
        paidUpToFlag).bind (fun s => (s.step (.writer 2)).map (fun s' =>
          (s'.memory.messages (.other (.done 0)) 2).map (fun msg =>
            msg.view.1 (.other .published)))) = some (some 1) := by decide +kernel
    rw [hs,Option.bind_some] at hraise
    obtain ⟨s',hs',hflag⟩ := Option.map_eq_some_iff.mp hraise
    have hread : (StepRun.exec WeakThreads.step (.start (fun _ => 0) sampleConfig .empty sampleChart)
        paidUpToFlag).bind (fun s => (s.step (.writer 2)).bind (fun s' =>
          (StepRun.exec WeakThreads.step s' [.poll 0 2,.readError 0,.snapshot 0 1]).map (fun s'' =>
            ((s''.memory.messages (.other .published) 1).map Message.value,s''.processed.length,
              s''.holds 0)))) = some (some 1,1,some (1,[0])) := by decide +kernel
    rw [hs,Option.bind_some,hs',Option.bind_some] at hread
    obtain ⟨s'',hs'',hread⟩ := Option.map_eq_some_iff.mp hread
    simp only [Prod.mk.injEq] at hrun hread
    obtain ⟨hw,hnone,hone⟩ := hrun
    obtain ⟨hpointer,hcount,hholds⟩ := hread
    refine ⟨s,s',s'',hs,hs',hs'',hholds,?_⟩
    obtain ⟨-,-,hack⟩ := published_exact (fun _ => 0) sampleConfig .empty sampleChart []
    obtain ⟨r,v,-,-,-,hv,-,hsees⟩ := hack (by decide) _ _ s s' s'' 0 2 hs hw hnone hs' hs''
    rw [hv] at hflag
    obtain ⟨msg,hmsg,hvalue⟩ := Option.map_eq_some_iff.mp hpointer
    obtain ⟨j,hle,hj,hst⟩ := hsees 1 msg hmsg (Nat.le_of_eq (Option.some.inj hflag))
    obtain rfl : j = 1 := by omega
    rwa [hvalue] at hst

end LedgerEngine

end FinancialLedger
