import FinancialLedger.WeakPublication
set_option autoImplicit false

/-!
Who may touch a completion. The right to its flag and its answer goes from the client
through the queue to the writer and comes back with the flag; with it goes how far the
published copies have got.
-/

namespace FinancialLedger
open Wal ViewMemory RingBuffer

namespace RingBuffer.WeakRing

variable {α ι κ : Type} [DecidableEq ι] [DecidableEq κ]

inductive Moves (w w' : WeakRing α ι κ) (p : Nat) : Prop where
  | searches (item : α) : (w.producers p).wants = some item →
      (w'.producers p).wants = some item → w'.claimed = w.claimed → w'.sent = w.sent →
      Moves w w' p
  | turnsAway (item : α) : (w.producers p).wants = some item → w'.producers p = .idle →
      w'.claimed = w.claimed → w'.sent = w.sent → Moves w w' p
  | claims (item : α) : (w.producers p).wants = some item →
      w'.producers p = .beginWrite item w.claimed.length → w'.claimed = w.claimed ++ [item] →
      w'.sent = w.sent ++ [w.view p] → Moves w w' p
  | copies (item : α) (pos : Nat) :
      w.producers p = .beginWrite item pos ∧ w'.producers p = .endWrite item pos ∨
        w.producers p = .endWrite item pos ∧ w'.producers p = .storeSeq item pos →
      w'.claimed = w.claimed → w'.sent = w.sent → Moves w w' p
  | publishes (item : α) (pos : Nat) : w.producers p = .storeSeq item pos →
      w'.producers p = .idle → w'.claimed = w.claimed → w'.sent = w.sent → Moves w w' p

theorem Inv.producerStep_moves {w w' : WeakRing α ι κ} {k p t : Nat} {spurious : Bool}
    (h : w.Inv k) (hs : w.producerStep p t spurious = some w') : w.Moves w' p := by
  unfold WeakRing.producerStep at hs
  cases hp : w.producers p with
  | idle => simp [hp] at hs
  | loadPos item =>
    simp only [hp] at hs
    obtain ⟨_,_,rfl⟩ := Option.map_eq_some_iff.mp hs
    exact .searches item (by simp [hp,Producer.wants]) (by simp [Producer.wants]) rfl rfl
  | loadSeq item pos =>
    simp only [hp] at hs
    obtain ⟨⟨seq,v⟩,-,hs⟩ := Option.map_eq_some_iff.mp hs
    dsimp only at hs
    split at hs
    · subst hs
      exact .searches item (by simp [hp,Producer.wants]) (by simp [Producer.wants]) rfl rfl
    · split at hs
      · subst hs
        exact .turnsAway item (by simp [hp,Producer.wants]) (by simp) rfl rfl
      · subst hs
        exact .searches item (by simp [hp,Producer.wants]) (by simp [Producer.wants]) rfl rfl
  | compareExchange item pos =>
    simp only [hp] at hs
    obtain ⟨⟨found,v⟩,hload,hs⟩ := Option.bind_eq_some_iff.mp hs
    obtain ⟨msg,hmsg,rfl,-⟩ := Memory.load_spec hload
    dsimp only at hs
    split at hs
    · case isTrue hc =>
      obtain ⟨⟨m,v'⟩,hex,rfl⟩ := Option.map_eq_some_iff.mp hs
      obtain ⟨-,-,-,hfree,-⟩ := Memory.exchange_spec hex
      obtain ⟨-,hvalue⟩ := h.exchange_last hmsg hfree
      obtain rfl : pos = w.claimed.length := hc.1.symm.trans hvalue
      exact .claims item (by simp [hp,Producer.wants]) (by simp) rfl rfl
    · cases hs
      exact .searches item (by simp [hp,Producer.wants]) (by simp [Producer.wants]) rfl rfl
  | beginWrite item pos =>
    simp only [hp,Option.some.injEq] at hs
    subst hs
    exact .copies item pos (.inl ⟨hp,by simp⟩) rfl rfl
  | endWrite item pos =>
    simp only [hp,Option.some.injEq] at hs
    subst hs
    exact .copies item pos (.inr ⟨hp,by simp⟩) rfl rfl
  | storeSeq item pos =>
    simp only [hp] at hs
    obtain ⟨_,_,rfl⟩ := Option.map_eq_some_iff.mp hs
    exact .publishes item pos hp (by simp) rfl rfl

end RingBuffer.WeakRing

namespace WeakThreads

def Owns (s : WeakThreads) (p : Nat) (v : Past (Loc Flag)) : Prop :=
  s.memory.Guards (.other (.done p)) (.other (.error p)) v

def flag (s : WeakThreads) (p : Nat) : Message (Loc Flag) := s.memory.top (.other (.done p))

/-- The flag is down, and the client cannot see it up. -/
def Unset (s : WeakThreads) (p : Nat) : Prop :=
  (s.flag p).value = 0 ∧
    s.memory.last (.other (.done p)) ≤ (s.ring.view p).1 (.other (.done p))

/-- If the client sees the flag up, it is the last message. -/
def Clear (s : WeakThreads) (p : Nat) : Prop :=
  ∀ t msg, s.memory.messages (.other (.done p)) t = some msg →
    (s.ring.view p).1 (.other (.done p)) ≤ t → msg.value ≠ 0 → msg = s.flag p

def Asked (s : WeakThreads) (p q : Nat) : Prop :=
  ∃ r, s.ring.claimed[q]? = some r ∧ r.completion = p

section Sequential

variable (e : LedgerEngine)

def Answered (s : WeakThreads) (p q : Nat) : Prop :=
  s.Asked p q ∧ (e.answersTo s.processed)[q]? = some (s.errors p)

def Placed (s : WeakThreads) (p q : Nat) : Prop :=
  s.ticket p = some q ∧
    (s.client p = .calling ∧ (∃ r, (s.ring.producers p).claim = some (r,q)) ∨
      s.client p = .waiting ∧ s.ring.producers p = .idle)

inductive Stage (s : WeakThreads) (p : Nat) : Prop where
  | ready : s.client p = .ready → s.ring.producers p = .idle → s.ticket p = none →
      s.Owns p (s.ring.view p) → Stage s p
  | searching (r : PendingRequest) : s.client p = .calling →
      (s.ring.producers p).wants = some r → r.completion = p → s.ticket p = none →
      s.Owns p (s.ring.view p) → s.Unset p → Stage s p
  | queued (q : Nat) (v : Past (Loc Flag)) : s.Placed p q → s.Asked p q →
      s.ring.popped.length ≤ q → s.ring.sent[q]? = some v → s.Owns p v → s.Unset p → Stage s p
  | served (q : Nat) : s.Placed p q → s.Asked p q → s.writer.serves = some p →
      q+1 = s.processed.length → s.Owns p (s.ring.views .consumer) → s.Unset p → Stage s p
  | completed (q : Nat) : s.Placed p q → s.Answered e p q → s.writer.serves ≠ some p →
      s.Owns p (s.flag p).view → s.Sees e (s.flag p).view q → s.Clear p → Stage s p
  | notified (q : Nat) : s.client p = .notified → s.ring.producers p = .idle →
      s.ticket p = some q → s.Answered e p q → s.writer.serves ≠ some p →
      s.Owns p (s.ring.view p) → s.Sees e (s.ring.view p) q → Stage s p

end Sequential

section Growth

variable {e : LedgerEngine} {s s' : WeakThreads}

structure Grows (s s' : WeakThreads) : Prop extends s.Extends s' where
  sent : s.ring.sent <+: s'.ring.sent

theorem Asked.grows {p q : Nat} (h : s.Asked p q) (hg : s.Grows s') : s'.Asked p q := by
  obtain ⟨r,hr,hp⟩ := h
  exact ⟨r,getElem?_grow hg.claimed hr,hp⟩

theorem answersTo_grows (hg : s.Grows s') {q : Nat} {error : LedgerError}
    (h : (e.answersTo s.processed)[q]? = some error) :
    (e.answersTo s'.processed)[q]? = some error :=
  getElem?_grow (e.answersTo_mono hg.processed) h

structure Apart (e : LedgerEngine) (s s' : WeakThreads) (p : Nat) : Prop where
  grows : s.Grows s'
  client : s'.client p = s.client p
  producer : s'.ring.producers p = s.ring.producers p
  ticket : s'.ticket p = s.ticket p
  errors : s'.errors p = s.errors p
  view : s'.ring.view p = s.ring.view p
  keeps : s.memory.Keeps s'.memory (fun x => x = .other (.done p)) (fun y => y = .other (.error p))
  consumer : s.ring.views .consumer ≤ s'.ring.views .consumer
  popped : ∀ q, s.ticket p = some q → s.ring.popped.length ≤ q → s'.ring.popped.length ≤ q
  serves : s'.writer.serves = some p ↔ s.writer.serves = some p
  processed : s.writer.serves = some p → s'.processed = s.processed
  sees : ∀ v q, s.Sees e v q → s'.Sees e v q

variable {p : Nat}

theorem Apart.owns (h : s.Apart e s' p) {v : Past (Loc Flag)} (ho : s.Owns p v) : s'.Owns p v :=
  h.keeps.guards rfl rfl ho

theorem Apart.flag (h : s.Apart e s' p) : s'.flag p = s.flag p := h.keeps.top rfl

theorem Apart.unset (h : s.Apart e s' p) (hu : s.Unset p) : s'.Unset p := by
  rw [Unset,h.flag,h.keeps.last _ rfl,h.view]
  exact hu

theorem Apart.clear (h : s.Apart e s' p) (hc : s.Clear p) : s'.Clear p := by
  rw [Clear,h.flag,h.keeps.messages _ rfl,h.view]
  exact hc

theorem Apart.placed (h : s.Apart e s' p) {q : Nat} (hp : s.Placed p q) : s'.Placed p q := by
  rw [Placed,h.ticket,h.client,h.producer]
  exact hp

theorem Apart.answered (h : s.Apart e s' p) {q : Nat} (ha : s.Answered e p q) :
    s'.Answered e p q := by
  refine ⟨ha.1.grows h.grows,?_⟩
  rw [h.errors]
  exact answersTo_grows h.grows ha.2

theorem Stage.apart (h : s.Stage e p) (hf : s.Apart e s' p) : s'.Stage e p := by
  cases h with
  | ready hc hp ht ho =>
    refine .ready (hf.client.trans hc) (hf.producer.trans hp) (hf.ticket.trans ht) ?_
    rw [hf.view]
    exact hf.owns ho
  | searching r hc hw hr ht ho hu =>
    refine .searching r (hf.client.trans hc) (hf.producer ▸ hw) hr (hf.ticket.trans ht) ?_
      (hf.unset hu)
    rw [hf.view]
    exact hf.owns ho
  | queued q v hp ha hq hv ho hu =>
    exact .queued q v (hf.placed hp) (ha.grows hf.grows) (hf.popped q hp.1 hq)
      (getElem?_grow hf.grows.sent hv) (hf.owns ho) (hf.unset hu)
  | served q hp ha hs hq ho hu =>
    exact .served q (hf.placed hp) (ha.grows hf.grows) (hf.serves.mpr hs)
      (hf.processed hs ▸ hq) ((hf.owns ho).mono hf.consumer) (hf.unset hu)
  | completed q hp ha hs ho hsees hc =>
    have hflag := hf.flag
    refine .completed q (hf.placed hp) (hf.answered ha) (fun h => hs (hf.serves.mp h)) ?_ ?_
      (hf.clear hc)
    · rw [hflag]
      exact hf.owns ho
    · rw [hflag]
      exact hf.sees _ q hsees
  | notified q hc hp ht ha hs ho hsees =>
    refine .notified q (hf.client.trans hc) (hf.producer.trans hp) (hf.ticket.trans ht)
      (hf.answered ha) (fun h => hs (hf.serves.mp h)) ?_ ?_
    · rw [hf.view]
      exact hf.owns ho
    · rw [hf.view]
      exact hf.sees _ q hsees

end Growth

section Invariant

variable (e : LedgerEngine)

/-- Requests are processed in the order of the queue, and each goes back to its client. -/
structure Flow (s : WeakThreads) (k : Nat) : Prop where
  ring : s.ring.Inv k
  requests : s.processed.map Popped.request = s.ring.claimed.take s.ring.popped.length
  tickets : ∀ q r, s.ring.popped.length ≤ q → s.ring.claimed[q]? = some r →
    s.ticket r.completion = some q
  serving : ∀ p, s.writer.serves = some p → ∃ q, s.ticket p = some q ∧ q+1 = s.processed.length

/-- Every pointer ever stored releases the copy it is to, and nobody has touched the
next one. -/
structure Copies (s : WeakThreads) : Prop where
  whole : ∀ t msg, s.memory.messages (.other .published) t = some msg →
    s.memory.KnowsWrites msg.view (.other (.state msg.value))
  fresh : ∀ p error, s.writer = .storePublished p error →
    s.memory.KnowsWrites (s.ring.views .consumer) (.other (.state (s.states.length-1)))
  unused : ∀ (i n : Nat) b, s.memory.accesses[i]? = some (.other (.state n),b) → n < s.states.length

/-- Client `p` may read copy `n`, and what it had heard before is in it. -/
def Holds (s : WeakThreads) (p n : Nat) (before : List Nat) : Prop :=
  s.memory.KnowsWrites (s.ring.view p) (.other (.state n)) ∧
    ∃ st, s.states[n]? = some st ∧ s.IsCopy e st ∧ ∀ q ∈ before, s.Covers e q st

/-- Client `p` knows its answer to the request at position `q`. -/
def Heard (s : WeakThreads) (p q : Nat) (error : LedgerError) : Prop :=
  s.Asked p q ∧ (e.answersTo s.processed)[q]? = some error ∧ s.Sees e (s.ring.view p) q

structure Found (s : WeakThreads) : Prop where
  holds : ∀ p n before, s.holds p = some (n,before) → s.Holds e p n before
  heard : ∀ p q error, (p,q,error) ∈ s.heard → s.Heard e p q error
  read : ∀ before st, (before,st) ∈ s.read → s.IsCopy e st ∧ ∀ q ∈ before, s.Covers e q st

structure Inv (s : WeakThreads) (k : Nat) : Prop where
  told : s.Told e
  flow : s.Flow k
  stages : ∀ p, s.Stage e p
  copies : s.Copies
  found : s.Found e

end Invariant

section Frames

variable {e : LedgerEngine} {s s' : WeakThreads} {k : Nat}

structure Learns (e : LedgerEngine) (s s' : WeakThreads) : Prop where
  grows : s.Grows s'
  view : ∀ p, s.ring.view p ≤ s'.ring.view p
  writes : ∀ v n, n < s.states.length → s.memory.KnowsWrites v (.other (.state n)) →
    s'.memory.KnowsWrites v (.other (.state n))
  sees : ∀ v q, s.Sees e v q → s'.Sees e v q

theorem Learns.holds (hl : s.Learns e s') {p n : Nat} {before : List Nat}
    (h : s.Holds e p n before) : s'.Holds e p n before := by
  obtain ⟨hk,st,hst,hcopy,hcovers⟩ := h
  have hn := (List.getElem?_eq_some_iff.mp hst).1
  have hx := hl.grows.toExtends
  exact ⟨(hl.writes _ n hn hk).mono (hl.view p),st,getElem?_grow hx.states hst,hcopy.extends hx,
    fun q hq => (hcovers q hq).extends hx⟩

theorem Learns.heard (hl : s.Learns e s') {p q : Nat} {error : LedgerError}
    (h : s.Heard e p q error) : s'.Heard e p q error := by
  obtain ⟨ha,hans,hs⟩ := h
  exact ⟨ha.grows hl.grows,answersTo_grows hl.grows hans,(hl.sees _ q hs).mono (hl.view p)⟩

theorem Learns.read (hl : s.Learns e s') {before : List Nat} {st : LedgerState}
    (h : s.IsCopy e st ∧ ∀ q ∈ before, s.Covers e q st) :
    s'.IsCopy e st ∧ ∀ q ∈ before, s'.Covers e q st :=
  ⟨h.1.extends hl.grows.toExtends,fun q hq => (h.2 q hq).extends hl.grows.toExtends⟩

theorem Found.grows (h : s.Found e) (hl : s.Learns e s')
    (hholds : ∀ p n before, s'.holds p = some (n,before) →
      s.holds p = some (n,before) ∨ s'.Holds e p n before)
    (hheard : ∀ p q error, (p,q,error) ∈ s'.heard → (p,q,error) ∈ s.heard ∨ s'.Heard e p q error)
    (hread : ∀ before st, (before,st) ∈ s'.read → (before,st) ∈ s.read ∨
      s'.IsCopy e st ∧ ∀ q ∈ before, s'.Covers e q st) : s'.Found e where
  holds := fun p n before hp => (hholds p n before hp).elim
    (fun hp => hl.holds (h.holds p n before hp)) id
  heard := fun p q error hp => (hheard p q error hp).elim
    (fun hp => hl.heard (h.heard p q error hp)) id
  read := fun before st hp => (hread before st hp).elim
    (fun hp => hl.read (h.read before st hp)) id

theorem Copies.frame (h : s.Copies) (hstates : s'.states = s.states)
    (hm : s'.memory.messages (.other .published) = s.memory.messages (.other .published))
    (hview : s.ring.views .consumer ≤ s'.ring.views .consumer)
    (hfresh : ∀ p error, s'.writer = .storePublished p error → s.writer = .storePublished p error)
    (hwrites : ∀ v n, s.memory.KnowsWrites v (.other (.state n)) →
      s'.memory.KnowsWrites v (.other (.state n)))
    (hunused : ∀ (i n : Nat) b, s'.memory.accesses[i]? = some (.other (.state n),b) →
      s.memory.accesses[i]? = some (.other (.state n),b) ∨ n < s.states.length) : s'.Copies where
  whole := by
    rw [hm]
    exact fun t msg hmsg => hwrites _ _ (h.whole t msg hmsg)
  fresh := by
    intro p error hw
    rw [hstates]
    exact (hwrites _ _ (h.fresh p error (hfresh p error hw))).mono hview
  unused := by
    intro i n b hi
    rw [hstates]
    exact (hunused i n b hi).elim (h.unused i n b) id

theorem Flow.count (h : s.Flow k) : s.processed.length = s.ring.popped.length := by
  have hlen := congrArg List.length h.requests
  have hbehind : s.ring.popped.length ≤ s.ring.claimed.length := h.ring.laps.behind
  rw [List.length_map,List.length_take] at hlen
  omega

theorem Stage.asked {p q : Nat} (h : s.Stage e p) (ht : s.ticket p = some q) : s.Asked p q := by
  cases h with
  | ready _ _ ht' => cases ht.symm.trans ht'
  | searching r _ _ _ ht' => cases ht.symm.trans ht'
  | queued q' v hp ha =>
    cases ht.symm.trans hp.1
    exact ha
  | served q' hp ha =>
    cases ht.symm.trans hp.1
    exact ha
  | completed q' hp ha =>
    cases ht.symm.trans hp.1
    exact ha.1
  | notified q' _ _ ht' ha =>
    cases ht.symm.trans ht'
    exact ha.1

end Frames

end WeakThreads

end FinancialLedger
