import FinancialLedger.Interleaving
import FinancialLedger.RingProgress
set_option autoImplicit false

/-!
The threads around an engine. A client owns one `Completion`, hands a transaction to
`submit`, spins on the flag unless the queue was full, and reads the answer; the
writer stores the answer and then the flag.
-/

namespace FinancialLedger
open PosixFile Wal LedgerEngine

namespace RingBuffer

variable {α : Type}

def Producer.wants : Producer α → Option α
  | .loadPos item => some item
  | .loadSeq item _ => some item
  | .compareExchange item _ => some item
  | _ => none

theorem Producer.wants_of_claim {q : Producer α} {item : α} {pos : Nat}
    (h : q.claim = some (item,pos)) : q.wants = none := by
  cases q <;> first | rfl | cases h

/-- What an access of a producer can do: carry on looking for a position, find the
queue full, claim, work on the claimed cell, or publish it. -/
inductive Ring.Moves (r r' : Ring α) (p : Nat) : Prop where
  | searches (item : α) : (r.producers p).wants = some item → r.refused p = none →
      (r'.producers p).wants = some item → r'.claimed = r.claimed → Moves r r' p
  | turnsAway (item : α) : (r.producers p).wants = some item → r.refused p = some item →
      r'.producers p = .idle → r'.claimed = r.claimed → Moves r r' p
  | claims (item : α) (pos : Nat) : (r.producers p).wants = some item → r.refused p = none →
      (r'.producers p).claim = some (item,pos) → r'.claimed = r.claimed ++ [item] → Moves r r' p
  | copies (item : α) (pos : Nat) : (r.producers p).claim = some (item,pos) →
      r.refused p = none → (r'.producers p).claim = some (item,pos) → r'.claimed = r.claimed →
      Moves r r' p
  | publishes (item : α) (pos : Nat) : (r.producers p).claim = some (item,pos) →
      r.refused p = none → r'.producers p = .idle → r'.claimed = r.claimed → Moves r r' p

theorem Ring.producerStep_moves {r r' : Ring α} {p : Nat} {spurious : Bool}
    (h : r.producerStep p spurious = some r') : r.Moves r' p := by
  unfold Ring.producerStep at h
  cases hp : r.producers p with
  | idle => simp [hp] at h
  | loadPos item =>
    simp only [hp,Option.some.injEq] at h
    subst h
    exact .searches item (by simp [hp,Producer.wants]) (by simp [refused,hp])
      (by simp [Producer.wants]) rfl
  | loadSeq item pos =>
    simp only [hp] at h
    split at h
    · case isTrue hd =>
      cases h
      exact .searches item (by simp [hp,Producer.wants]) (by simp [refused,hp,hd])
        (by simp [Producer.wants]) rfl
    · split at h
      · case isTrue hd =>
        cases h
        exact .turnsAway item (by simp [hp,Producer.wants]) (by simp [refused,hp,hd]) (by simp) rfl
      · case isFalse hd =>
        cases h
        exact .searches item (by simp [hp,Producer.wants]) (by simp [refused,hp,hd])
          (by simp [Producer.wants]) rfl
  | compareExchange item pos =>
    simp only [hp] at h
    split at h
    · cases h
      exact .claims item pos (by simp [hp,Producer.wants]) (by simp [refused,hp])
        (by simp [goto,Producer.claim]) rfl
    · cases h
      exact .searches item (by simp [hp,Producer.wants]) (by simp [refused,hp])
        (by simp [Producer.wants]) rfl
  | beginWrite item pos =>
    simp only [hp,Option.some.injEq] at h
    subst h
    exact .copies item pos (by simp [hp,Producer.claim]) (by simp [refused,hp])
      (by simp [Producer.claim]) rfl
  | endWrite item pos =>
    simp only [hp,Option.some.injEq] at h
    subst h
    exact .copies item pos (by simp [hp,Producer.claim]) (by simp [refused,hp])
      (by simp [Producer.claim]) rfl
  | storeSeq item pos =>
    simp only [hp,Option.some.injEq] at h
    subst h
    exact .publishes item pos (by simp [hp,Producer.claim]) (by simp [refused,hp]) (by simp) rfl

theorem Ring.producerStep_popped {r r' : Ring α} {p : Nat} {spurious : Bool}
    (h : r.producerStep p spurious = some r') : r'.popped = r.popped := by
  simp only [Ring.producerStep] at h
  split at h
  all_goals try split at h
  all_goals try split at h
  all_goals cases h
  all_goals rfl

theorem Ring.step_mask {r r' : Ring α} {a : Action α} (h : r.step a = some r') :
    r'.mask = r.mask := by
  cases a with
  | tryPush p item =>
    simp only [Ring.step] at h
    split at h
    · cases h
      rfl
    · cases h
  | producer p spurious =>
    simp only [Ring.step,Ring.producerStep] at h
    split at h
    all_goals try split at h
    all_goals try split at h
    all_goals cases h
    all_goals rfl
  | consumer =>
    cases h
    unfold consumerStep
    split
    · split <;> rfl
    · rfl
    · rfl

theorem Ring.consumerStep_popped (r : Ring α) : r.popped <+: r.consumerStep.popped := by
  unfold consumerStep
  split
  · split <;> exact List.prefix_refl _
  · exact List.prefix_refl _
  · exact List.prefix_append _ _

end RingBuffer

structure Completion where
  done : Bool
  error : LedgerError
  deriving DecidableEq

/-- Where a client is: between two submissions, inside `submit`, in the loop on the
flag, or past the loop with the answer still to read. -/
inductive Client where
  | ready
  | calling
  | waiting
  | notified
  deriving DecidableEq

/-- The stores of `complete` that are still to come. -/
inductive Report where
  | storeError (completion : Nat) (error : LedgerError)
  | storeDone (completion : Nat)
  deriving DecidableEq

/-- Client `p` is producer `p` of the queue and owns completion `p`. -/
structure Threads where
  system : System
  client : Nat → Client
  completion : Nat → Completion
  report : Option Report

/-- What the outside sees: a client hands over a transaction, with the time that
`submit` puts on it, and a client has its answer. -/
inductive Event where
  | invoke (p : Nat) (tx : Transaction)
  | respond (p : Nat) (error : LedgerError)
  deriving DecidableEq

namespace Threads

def start (hash : IdempotencyKey → UInt64) (config : Config) (seed : LedgerState) : Threads where
  system := .start hash config seed
  client := fun _ => .ready
  completion := fun _ => ⟨false,.none⟩
  report := none

inductive Action where
  | allocateTransactionId (p : Nat)
  | submit (p : Nat) (tx : Transaction) (now : Int64)
  | push (p : Nat) (spurious : Bool)
  | poll (p : Nat)
  | readError (p : Nat)
  | writer (io : AppendIo) (torn : PendingRequest)

def goto (t : Threads) (p : Nat) (next : Client) : Threads :=
  { t with client := Function.update t.client p next }

def store (t : Threads) (p : Nat) (c : Completion) : Threads :=
  { t with completion := Function.update t.completion p c }

/-- `submit` returns when `try_push` does. -/
def afterPush (t : Threads) (p : Nat) (s : System) : Client :=
  match t.system.ring.refused p, s.ring.producers p with
  | some _, _ => .ready
  | none, .idle => .waiting
  | none, _ => .calling

def answered (t : Threads) (torn : PendingRequest) (s : System) : Option Report :=
  match t.system.inHand torn with
  | some _ => s.engine.answers.getLast?.map (fun a => .storeError a.1 a.2)
  | none => none

/-- One access to shared memory of a client, or one of the writer, which makes the
two stores of `complete` before it looks at the queue again. -/
def step (t : Threads) : Action → Option Threads
  | .allocateTransactionId p =>
      match t.client p with
      | .ready => (t.system.step (.allocateTransactionId p)).map (fun s => { t with system := s })
      | _ => none
  | .submit p tx now =>
      match t.client p with
      | .ready => (t.system.step (.submit p tx p now)).map (fun s =>
          { (t.goto p .calling).store p { t.completion p with done := false } with system := s })
      | _ => none
  | .push p spurious =>
      match t.client p with
      | .calling => (t.system.step (.producer p spurious)).map (fun s =>
          { t.goto p (t.afterPush p s) with system := s })
      | _ => none
  | .poll p =>
      match t.client p with
      | .waiting => some (if (t.completion p).done then t.goto p .notified else t)
      | _ => none
  | .readError p =>
      match t.client p with
      | .notified => some (t.goto p .ready)
      | _ => none
  | .writer io torn =>
      match t.report with
      | some (.storeError p error) =>
          some { t.store p { t.completion p with error := error } with report := some (.storeDone p) }
      | some (.storeDone p) =>
          some { t.store p { t.completion p with done := true } with report := none }
      | none => (t.system.step (.writer io torn)).map (fun s =>
          { t with system := s, report := t.answered torn s })

def event (t : Threads) : Action → Option Event
  | .submit p tx now => some (.invoke p { tx with createdAtNs := now })
  | .push p _ => (t.system.ring.refused p).map (fun _ => .respond p .queueFull)
  | .readError p => some (.respond p (t.completion p).error)
  | _ => none

end Threads

/-- What a client has asked for and what has become of it. -/
inductive Operation where
  | idle
  | invoked (tx : Transaction)
  | answered (error : LedgerError)
  deriving DecidableEq

structure View where
  client : Client
  producer : RingBuffer.Producer PendingRequest
  outstanding : List PendingRequest
  reporting : Option LedgerError
  completion : Completion

/-- The stages of an operation: in the loop of `try_push`, claimed, in the queue or
in the writer's hands, with the writer storing its answer, or complete. -/
inductive View.Stage (p : Nat) (v : View) : Operation → Prop where
  | ready : v.client = .ready → v.producer = .idle → v.outstanding = [] →
      v.reporting = none → Stage p v .idle
  | searching (r : PendingRequest) : v.client = .calling → v.producer.wants = some r →
      r.completion = p → v.outstanding = [] → v.reporting = none →
      v.completion.done = false → Stage p v (.invoked r.tx)
  | publishing (r : PendingRequest) (pos : Nat) : v.client = .calling →
      v.producer.claim = some (r,pos) → v.outstanding = [r] → v.reporting = none →
      v.completion.done = false → Stage p v (.invoked r.tx)
  | queued (r : PendingRequest) : v.client = .waiting → v.producer = .idle →
      v.outstanding = [r] → v.reporting = none → v.completion.done = false →
      Stage p v (.invoked r.tx)
  | reported (error : LedgerError) : v.client = .waiting → v.producer = .idle →
      v.outstanding = [] → v.reporting = some error → v.completion.done = false →
      Stage p v (.answered error)
  | completed : v.client = .waiting ∨ v.client = .notified → v.producer = .idle →
      v.outstanding = [] → v.reporting = none → v.completion.done = true →
      Stage p v (.answered v.completion.error)

section Stages

variable {p : Nat} {v : View} {operation : Operation}

theorem View.Stage.of_ready (h : v.Stage p operation) (hc : v.client = .ready) :
    operation = .idle ∧ v.producer = .idle ∧ v.outstanding = [] ∧ v.reporting = none := by
  cases h with
  | ready _ hprod hout hrep => exact ⟨rfl,hprod,hout,hrep⟩
  | searching r hc' => cases hc.symm.trans hc'
  | publishing r pos hc' => cases hc.symm.trans hc'
  | queued r hc' => cases hc.symm.trans hc'
  | reported e hc' => cases hc.symm.trans hc'
  | completed hc' =>
    rcases hc' with hc' | hc' <;> cases hc.symm.trans hc'

theorem View.Stage.ready_iff (h : v.Stage p operation) : v.client = .ready ↔ operation = .idle := by
  cases h with
  | ready hc => simp [hc]
  | searching r hc => simp [hc]
  | publishing r pos hc => simp [hc]
  | queued r hc => simp [hc]
  | reported e hc => simp [hc]
  | completed hc =>
    obtain hc | hc := hc
    · simp [hc]
    · simp [hc]

theorem View.Stage.of_calling (h : v.Stage p operation) (hc : v.client = .calling) :
    v.reporting = none ∧ v.completion.done = false ∧ ∃ r, operation = .invoked r.tx ∧
      ((v.producer.wants = some r ∧ r.completion = p ∧ v.outstanding = []) ∨
        ∃ pos, v.producer.claim = some (r,pos) ∧ v.outstanding = [r]) := by
  cases h with
  | ready hc' => cases hc.symm.trans hc'
  | searching r _ hwants hr hout hrep hdone =>
    exact ⟨hrep,hdone,r,rfl,.inl ⟨hwants,hr,hout⟩⟩
  | publishing r pos _ hclaim hout hrep hdone => exact ⟨hrep,hdone,r,rfl,.inr ⟨pos,hclaim,hout⟩⟩
  | queued r hc' => cases hc.symm.trans hc'
  | reported e hc' => cases hc.symm.trans hc'
  | completed hc' =>
    rcases hc' with hc' | hc' <;> cases hc.symm.trans hc'

theorem View.Stage.of_done (h : v.Stage p operation)
    (hc : v.client = .notified ∨ v.client = .waiting ∧ v.completion.done = true) :
    operation = .answered v.completion.error ∧ v.producer = .idle ∧ v.outstanding = [] ∧
      v.reporting = none ∧ v.completion.done = true := by
  have hnot : v.client = .waiting → v.completion.done = false → False := by
    rintro hw hd
    obtain hn | ⟨-,ht⟩ := hc
    · cases hw.symm.trans hn
    · cases hd.symm.trans ht
  have hcalls : v.client ≠ .ready ∧ v.client ≠ .calling := by
    obtain hn | ⟨hw,-⟩ := hc
    · simp [hn]
    · simp [hw]
  cases h with
  | ready hc' => exact absurd hc' hcalls.1
  | searching r hc' => exact absurd hc' hcalls.2
  | publishing r pos hc' => exact absurd hc' hcalls.2
  | queued r hc' _ _ _ hdone => exact (hnot hc' hdone).elim
  | reported e hc' _ _ _ hdone => exact (hnot hc' hdone).elim
  | completed _ hprod hout hrep hdone => exact ⟨rfl,hprod,hout,hrep,hdone⟩

theorem View.Stage.of_outstanding (h : v.Stage p operation) {r : PendingRequest}
    {rest : List PendingRequest} (ho : v.outstanding = r :: rest) :
    operation = .invoked r.tx ∧ rest = [] ∧ v.reporting = none ∧ v.completion.done = false ∧
      ((∃ pos, v.producer.claim = some (r,pos)) ∨ v.client = .waiting ∧ v.producer = .idle) := by
  cases h with
  | ready _ _ hout => cases ho.symm.trans hout
  | searching r' _ _ _ hout => cases ho.symm.trans hout
  | publishing r' pos _ hclaim hout hrep hdone =>
    cases ho.symm.trans hout
    exact ⟨rfl,rfl,hrep,hdone,.inl ⟨pos,hclaim⟩⟩
  | queued r' hc hprod hout hrep hdone =>
    cases ho.symm.trans hout
    exact ⟨rfl,rfl,hrep,hdone,.inr ⟨hc,hprod⟩⟩
  | reported e _ _ hout => cases ho.symm.trans hout
  | completed _ _ hout => cases ho.symm.trans hout

theorem View.Stage.of_reporting (h : v.Stage p operation) {error : LedgerError}
    (hr : v.reporting = some error) :
    operation = .answered error ∧ v.client = .waiting ∧ v.producer = .idle ∧
      v.outstanding = [] ∧ v.completion.done = false := by
  cases h with
  | ready _ _ _ hrep => cases hr.symm.trans hrep
  | searching r' _ _ _ _ hrep => cases hr.symm.trans hrep
  | publishing r' pos _ _ _ hrep => cases hr.symm.trans hrep
  | queued r' _ _ _ hrep => cases hr.symm.trans hrep
  | reported e hc hprod hout hrep hdone =>
    cases hr.symm.trans hrep
    exact ⟨rfl,hc,hprod,hout,hdone⟩
  | completed _ _ _ hrep => cases hr.symm.trans hrep

theorem View.Stage.producer_idle (h : v.Stage p operation) (hc : v.client ≠ .calling) :
    v.producer = .idle := by
  cases h with
  | ready _ hprod => exact hprod
  | searching r hc' => exact absurd hc' hc
  | publishing r pos hc' => exact absurd hc' hc
  | queued r _ hprod => exact hprod
  | reported e _ hprod => exact hprod
  | completed _ hprod => exact hprod

theorem View.Stage.of_waiting (h : v.Stage p operation) (hc : v.client = .waiting)
    (hout : v.outstanding = []) (hrep : v.reporting = none) : v.completion.done = true := by
  cases h with
  | ready hc' => cases hc.symm.trans hc'
  | searching r hc' => cases hc.symm.trans hc'
  | publishing r pos hc' => cases hc.symm.trans hc'
  | queued r _ _ ho => cases hout.symm.trans ho
  | reported e _ _ _ hr => cases hrep.symm.trans hr
  | completed _ _ _ _ hd => exact hd

end Stages

namespace Threads

/-- The requests with completion `p` that were accepted and not yet processed. -/
def outstanding (t : Threads) (p : Nat) : List PendingRequest :=
  (t.system.ring.claimed.drop t.system.handled).filter (fun r => r.completion = p)

def reporting (t : Threads) (p : Nat) : Option LedgerError :=
  match t.report with
  | some (.storeError q error) => if q = p then some error else none
  | some (.storeDone q) => if q = p then some (t.completion p).error else none
  | none => none

def view (t : Threads) (p : Nat) : View :=
  ⟨t.client p,t.system.ring.producers p,t.outstanding p,t.reporting p,t.completion p⟩

/-- Every client is in a stage of its operation. -/
structure Tracks (t : Threads) (operation : Nat → Operation) : Prop where
  ring : t.system.ring.Inv
  served : t.system.handled ≤ t.system.ring.popped.length
  stage : ∀ p, (t.view p).Stage p (operation p)

section Steps

variable {t t' : Threads} {operation : Nat → Operation} {p : Nat}

theorem reporting_congr {q : Nat} (hreport : t'.report = t.report)
    (herror : (t'.completion q).error = (t.completion q).error) :
    t'.reporting q = t.reporting q := by
  unfold reporting
  rw [hreport,herror]

theorem view_congr {q : Nat} (hclient : t'.client q = t.client q)
    (hproducer : t'.system.ring.producers q = t.system.ring.producers q)
    (houtstanding : t'.outstanding q = t.outstanding q) (hreport : t'.report = t.report)
    (hcompletion : t'.completion q = t.completion q) : t'.view q = t.view q := by
  rw [view,view,hclient,hproducer,houtstanding,hcompletion,
    reporting_congr hreport (congrArg Completion.error hcompletion)]

theorem Tracks.update (h : t.Tracks operation) (hring : t'.system.ring.Inv)
    (hserved : t'.system.handled ≤ t'.system.ring.popped.length) {next : Operation}
    (hothers : ∀ q, q ≠ p → t'.view q = t.view q) (hp : (t'.view p).Stage p next) :
    t'.Tracks (Function.update operation p next) := by
  refine ⟨hring,hserved,fun q => ?_⟩
  rcases eq_or_ne q p with rfl | hne
  · rw [Function.update_self]
    exact hp
  · rw [Function.update_of_ne hne,hothers q hne]
    exact h.stage q

theorem Tracks.stay (h : t.Tracks operation) (hring : t'.system.ring.Inv)
    (hserved : t'.system.handled ≤ t'.system.ring.popped.length)
    (hothers : ∀ q, q ≠ p → t'.view q = t.view q) (hp : (t'.view p).Stage p (operation p)) :
    t'.Tracks operation := by
  have hupdate := h.update hring hserved hothers hp
  rwa [Function.update_eq_self] at hupdate

theorem outstanding_same {q : Nat} (hclaimed : t'.system.ring.claimed = t.system.ring.claimed)
    (hhandled : t'.system.handled = t.system.handled) : t'.outstanding q = t.outstanding q := by
  rw [outstanding,outstanding,hclaimed,hhandled]

theorem outstanding_claim {r : PendingRequest}
    (hclaimed : t'.system.ring.claimed = t.system.ring.claimed ++ [r])
    (hhandled : t'.system.handled = t.system.handled)
    (hle : t.system.handled ≤ t.system.ring.claimed.length) (q : Nat) :
    t'.outstanding q = t.outstanding q ++ if r.completion = q then [r] else [] := by
  rw [outstanding,outstanding,hclaimed,hhandled,List.drop_append_of_le_length hle,
    List.filter_append]
  congr 1
  simp [List.filter_cons]

theorem outstanding_process {r : PendingRequest}
    (hclaimed : t'.system.ring.claimed = t.system.ring.claimed)
    (hhandled : t'.system.handled = t.system.handled+1)
    (hnext : t.system.ring.claimed[t.system.handled]? = some r) (q : Nat) :
    t.outstanding q = (if r.completion = q then [r] else []) ++ t'.outstanding q := by
  obtain ⟨hlt,hget⟩ := List.getElem?_eq_some_iff.mp hnext
  rw [outstanding,outstanding,hclaimed,hhandled,List.drop_eq_getElem_cons hlt,hget,
    List.filter_cons]
  split
  · case isTrue hq => rw [if_pos (of_decide_eq_true hq),List.singleton_append]
  · case isFalse hq => rw [if_neg (fun he => hq (decide_eq_true he)),List.nil_append]

theorem Tracks.handled_le (h : t.Tracks operation) :
    t.system.handled ≤ t.system.ring.claimed.length :=
  Nat.le_trans h.served h.ring.behind

theorem step_allocate (hs : t.step (.allocateTransactionId p) = some t') :
    t'.client = t.client ∧ t'.completion = t.completion ∧ t'.report = t.report ∧
      t'.system.engine = t.system.engine ∧ t'.system.handled = t.system.handled ∧
      t'.system.ring = t.system.ring ∧ t.system.nextTxId+1 ∈ t'.system.held p := by
  simp only [step,System.step] at hs
  split at hs
  · split at hs
    · cases hs
      exact ⟨rfl,rfl,rfl,rfl,rfl,rfl,by simp [System.give]⟩
    · cases hs
  · cases hs

theorem Tracks.allocate (h : t.Tracks operation)
    (hs : t.step (.allocateTransactionId p) = some t') :
    t'.Tracks operation ∧ t'.system.engine = t.system.engine := by
  obtain ⟨hclient,hcompletion,hreport,hengine,hhandled,hring,-⟩ := step_allocate hs
  refine ⟨⟨hring ▸ h.ring,by rw [hhandled,hring]; exact h.served,fun q => ?_⟩,hengine⟩
  rw [view_congr (by rw [hclient]) (by rw [hring]) (outstanding_same (by rw [hring]) hhandled)
    hreport (by rw [hcompletion])]
  exact h.stage q

theorem step_submit {tx : Transaction} {now : Int64}
    (hs : t.step (.submit p tx now) = some t') :
    t.client p = .ready ∧ t'.client = Function.update t.client p .calling ∧
      t'.completion = Function.update t.completion p { t.completion p with done := false } ∧
      t'.report = t.report ∧ t'.system.engine = t.system.engine ∧
      t'.system.handled = t.system.handled ∧
      t.system.ring.step (.tryPush p ⟨{ tx with createdAtNs := now },p⟩) = some t'.system.ring := by
  simp only [step] at hs
  split at hs
  · case h_1 hready =>
    obtain ⟨s,hsys,rfl⟩ := Option.map_eq_some_iff.mp hs
    simp only [System.step] at hsys
    split at hsys
    · obtain ⟨ring,hring,rfl⟩ := Option.map_eq_some_iff.mp hsys
      exact ⟨hready,rfl,rfl,rfl,rfl,rfl,hring⟩
    · cases hsys
  · cases hs

theorem tryPush_eq {α : Type} {r r' : RingBuffer.Ring α} {item : α}
    (h : r.step (.tryPush p item) = some r') : r' = r.goto p (.loadPos item) := by
  simp only [RingBuffer.Ring.step] at h
  split at h
  · cases h
    rfl
  · cases h

theorem Tracks.submit (h : t.Tracks operation) {tx : Transaction} {now : Int64}
    (hs : t.step (.submit p tx now) = some t') (hb : t'.system.ring.claimed.length < 2^63) :
    operation p = .idle ∧ t'.system.engine = t.system.engine ∧
      t'.Tracks (Function.update operation p (.invoked { tx with createdAtNs := now })) := by
  obtain ⟨hready,hclient,hcompletion,hreport,hengine,hhandled,hring⟩ := step_submit hs
  have hinv := h.ring.step hring hb
  have hnew := tryPush_eq hring
  obtain ⟨hidle,-,hout,hrep⟩ := (h.stage p).of_ready hready
  have houtstanding : ∀ q, t'.outstanding q = t.outstanding q := fun q =>
    outstanding_same (by rw [hnew]; rfl) hhandled
  refine ⟨hidle,hengine,h.update hinv ?_ (fun q hq => ?_) ?_⟩
  · rw [hhandled,hnew]
    exact h.served
  · refine view_congr ?_ ?_ (houtstanding q) hreport ?_
    · rw [hclient,Function.update_of_ne hq]
    · rw [hnew,RingBuffer.goto_producers_ne _ _ hq]
    · rw [hcompletion,Function.update_of_ne hq]
  · refine .searching ⟨{ tx with createdAtNs := now },p⟩ ?_ ?_ rfl ?_ ?_ ?_
    · simp [view,hclient]
    · simp [view,hnew,RingBuffer.Producer.wants]
    · exact (houtstanding p).trans hout
    · refine (reporting_congr hreport ?_).trans hrep
      simp [hcompletion]
    · simp [view,hcompletion]

theorem step_push {spurious : Bool} (hs : t.step (.push p spurious) = some t') :
    t.client p = .calling ∧ t'.client = Function.update t.client p (t.afterPush p t'.system) ∧
      t'.completion = t.completion ∧ t'.report = t.report ∧
      t'.system.engine = t.system.engine ∧ t'.system.handled = t.system.handled ∧
      t.system.ring.producerStep p spurious = some t'.system.ring := by
  simp only [step] at hs
  split at hs
  · case h_1 hcalling =>
    obtain ⟨s,hsys,rfl⟩ := Option.map_eq_some_iff.mp hs
    obtain ⟨ring,hring,hs'⟩ := Option.map_eq_some_iff.mp hsys
    split at hs' <;> cases hs' <;> exact ⟨hcalling,rfl,rfl,rfl,rfl,rfl,hring⟩
  · cases hs

theorem afterPush_calling {s : System} (hrefused : t.system.ring.refused p = none)
    (hbusy : s.ring.producers p ≠ .idle) : t.afterPush p s = .calling := by
  unfold afterPush
  rw [hrefused]
  split
  · case h_1 heq => cases heq
  · case h_2 hidle => exact absurd hidle hbusy
  · rfl

theorem Tracks.push (h : t.Tracks operation) {spurious : Bool}
    (hs : t.step (.push p spurious) = some t') (hb : t'.system.ring.claimed.length < 2^63) :
    t'.system.engine = t.system.engine ∧
      ((t.system.ring.refused p = none ∧ t'.Tracks operation) ∨
        ∃ r tx, t.system.ring.refused p = some r ∧ operation p = .invoked tx ∧
          t'.Tracks (Function.update operation p .idle)) := by
  obtain ⟨hcalling,hclient,hcompletion,hreport,hengine,hhandled,hring⟩ := step_push hs
  have hinv := h.ring.step (a := .producer p spurious) hring hb
  have hserved : t'.system.handled ≤ t'.system.ring.popped.length := by
    rw [hhandled,RingBuffer.Ring.producerStep_popped hring]
    exact h.served
  obtain ⟨hrep,hdone,r,hop,hstage⟩ := (h.stage p).of_calling hcalling
  have hrep' : (t'.view p).reporting = none :=
    (reporting_congr hreport (by rw [hcompletion])).trans hrep
  have hdone' : (t'.view p).completion.done = false := by
    rw [view,hcompletion]
    exact hdone
  have hclient' : (t'.view p).client = t.afterPush p t'.system := by simp [view,hclient]
  have hothers : (∀ q, q ≠ p → t'.outstanding q = t.outstanding q) →
      ∀ q, q ≠ p → t'.view q = t.view q := fun hout q hq =>
    view_congr (by rw [hclient,Function.update_of_ne hq])
      (RingBuffer.Ring.producerStep_others hring hq) (hout q hq) hreport (by rw [hcompletion])
  refine ⟨hengine,?_⟩
  cases RingBuffer.Ring.producerStep_moves hring with
  | searches item hwants hrefused hwants' hclaimed =>
    have hsame := fun q => outstanding_same (q := q) hclaimed hhandled
    obtain ⟨hr,hcomp,hout⟩ | ⟨pos,hclaim,-⟩ := hstage
    · cases hr.symm.trans hwants
      have hbusy : t'.system.ring.producers p ≠ .idle := fun hidle => by
        simp [hidle,RingBuffer.Producer.wants] at hwants'
      refine .inl ⟨hrefused,h.stay hinv hserved (hothers fun q _ => hsame q) ?_⟩
      rw [hop]
      exact .searching r (hclient'.trans (afterPush_calling hrefused hbusy)) hwants' hcomp
        ((hsame p).trans hout) hrep' hdone'
    · cases hwants.symm.trans (RingBuffer.Producer.wants_of_claim hclaim)
  | turnsAway item hwants hrefused hidle hclaimed =>
    have hsame := fun q => outstanding_same (q := q) hclaimed hhandled
    obtain ⟨hr,hcomp,hout⟩ | ⟨pos,hclaim,-⟩ := hstage
    · refine .inr ⟨item,r.tx,hrefused,hop,h.update hinv hserved (hothers fun q _ => hsame q) ?_⟩
      refine .ready (hclient'.trans ?_) hidle ((hsame p).trans hout) hrep'
      simp [afterPush,hrefused]
    · cases hwants.symm.trans (RingBuffer.Producer.wants_of_claim hclaim)
  | claims item pos hwants hrefused hclaim hclaimed =>
    obtain ⟨hr,hcomp,hout⟩ | ⟨pos,hclaim,-⟩ := hstage
    · cases hr.symm.trans hwants
      have hmore := outstanding_claim hclaimed hhandled h.handled_le
      have hbusy : t'.system.ring.producers p ≠ .idle := fun hidle => by
        simp [hidle,RingBuffer.Producer.claim] at hclaim
      refine .inl ⟨hrefused,h.stay hinv hserved (hothers fun q hq => ?_) ?_⟩
      · rw [hmore q,hcomp,if_neg hq.symm,List.append_nil]
      · rw [hop]
        refine .publishing r pos (hclient'.trans (afterPush_calling hrefused hbusy)) hclaim ?_
          hrep' hdone'
        show t'.outstanding p = [r]
        rw [hmore p,hcomp,if_pos rfl,show t.outstanding p = [] from hout,List.nil_append]
    · cases hwants.symm.trans (RingBuffer.Producer.wants_of_claim hclaim)
  | copies item pos hclaim hrefused hclaim' hclaimed =>
    have hsame := fun q => outstanding_same (q := q) hclaimed hhandled
    obtain ⟨hr,-,-⟩ | ⟨pos',hr,hout⟩ := hstage
    · cases hr.symm.trans (RingBuffer.Producer.wants_of_claim hclaim)
    · cases hr.symm.trans hclaim
      have hbusy : t'.system.ring.producers p ≠ .idle := fun hidle => by
        simp [hidle,RingBuffer.Producer.claim] at hclaim'
      refine .inl ⟨hrefused,h.stay hinv hserved (hothers fun q _ => hsame q) ?_⟩
      rw [hop]
      exact .publishing r pos (hclient'.trans (afterPush_calling hrefused hbusy)) hclaim'
        ((hsame p).trans hout) hrep' hdone'
  | publishes item pos hclaim hrefused hidle hclaimed =>
    have hsame := fun q => outstanding_same (q := q) hclaimed hhandled
    obtain ⟨hr,-,-⟩ | ⟨pos',hr,hout⟩ := hstage
    · cases hr.symm.trans (RingBuffer.Producer.wants_of_claim hclaim)
    · cases hr.symm.trans hclaim
      refine .inl ⟨hrefused,h.stay hinv hserved (hothers fun q _ => hsame q) ?_⟩
      rw [hop]
      refine .queued r (hclient'.trans ?_) hidle ((hsame p).trans hout) hrep' hdone'
      simp [afterPush,hrefused,hidle]

theorem Tracks.goto (h : t.Tracks operation) {next : Client} {op : Operation}
    (hp : ((t.goto p next).view p).Stage p op) :
    (t.goto p next).Tracks (Function.update operation p op) := by
  have hring : (t.goto p next).system.ring.Inv := h.ring
  refine h.update hring h.served (fun q hq => ?_) hp
  exact view_congr (Function.update_of_ne hq ..) rfl rfl rfl rfl

theorem Tracks.poll (h : t.Tracks operation) (hs : t.step (.poll p) = some t') :
    t'.Tracks operation ∧ t'.system = t.system := by
  simp only [step] at hs
  split at hs
  · case h_1 hwaiting =>
    cases hs
    split
    · case isTrue hdone =>
      obtain ⟨hop,hprod,hout,hrep,hd⟩ := (h.stage p).of_done (.inr ⟨hwaiting,hdone⟩)
      have hnext : ((t.goto p .notified).view p).Stage p (operation p) := by
        rw [hop]
        exact .completed (.inr (Function.update_self ..)) hprod hout hrep hd
      have htracks := h.goto hnext
      rw [Function.update_eq_self] at htracks
      exact ⟨htracks,rfl⟩
    · exact ⟨h,rfl⟩
  · cases hs

theorem Tracks.readError (h : t.Tracks operation) (hs : t.step (.readError p) = some t') :
    operation p = .answered (t.completion p).error ∧ t'.system = t.system ∧
      t'.Tracks (Function.update operation p .idle) := by
  simp only [step] at hs
  split at hs
  · case h_1 hnotified =>
    cases hs
    obtain ⟨hop,hprod,hout,hrep,hd⟩ := (h.stage p).of_done (.inl hnotified)
    exact ⟨hop,rfl,h.goto (.ready (Function.update_self ..) hprod hout hrep)⟩
  · cases hs

theorem Tracks.report (h : t.Tracks operation) {io : AppendIo} {torn : PendingRequest}
    {report : Report} (hreport : t.report = some report)
    (hs : t.step (.writer io torn) = some t') :
    t'.Tracks operation ∧ t'.system = t.system := by
  simp only [step,hreport] at hs
  cases report with
  | storeError p error =>
    obtain ⟨hop,hc,hprod,hout,hd⟩ := (h.stage p).of_reporting
      (show t.reporting p = some error by simp [reporting,hreport])
    simp only [Option.some.injEq] at hs
    have hsystem : t'.system = t.system := by rw [← hs]; rfl
    refine ⟨h.stay (hsystem ▸ h.ring) (hsystem ▸ h.served) (p := p) (fun q hq => ?_) ?_,hsystem⟩
    · simp [← hs,view,store,outstanding,reporting,hreport,hq,hq.symm]
    · rw [hop]
      refine .reported error ?_ ?_ ?_ ?_ ?_ <;> simp only [← hs]
      · exact hc
      · exact hprod
      · exact hout
      · simp [view,reporting,store]
      · simpa [view,store] using hd
  | storeDone p =>
    obtain ⟨hop,hc,hprod,hout,hd⟩ := (h.stage p).of_reporting
      (show t.reporting p = some (t.completion p).error by simp [reporting,hreport])
    simp only [Option.some.injEq] at hs
    have hsystem : t'.system = t.system := by rw [← hs]; rfl
    refine ⟨h.stay (hsystem ▸ h.ring) (hsystem ▸ h.served) (p := p) (fun q hq => ?_) ?_,hsystem⟩
    · simp [← hs,view,store,outstanding,reporting,hreport,hq,hq.symm]
    · have herror : (t'.view p).completion.error = (t.completion p).error := by
        simp [← hs,view,store]
      rw [hop,← herror]
      refine .completed (.inl ?_) ?_ ?_ ?_ ?_ <;> simp only [← hs]
      · exact hc
      · exact hprod
      · exact hout
      · rfl
      · simp [view,store]

theorem step_writer {io : AppendIo} {torn : PendingRequest} (hreport : t.report = none)
    (hs : t.step (.writer io torn) = some t') :
    t.system.step (.writer io torn) = some t'.system ∧ t'.client = t.client ∧
      t'.completion = t.completion ∧ t'.report = t.answered torn t'.system := by
  simp only [step,hreport] at hs
  obtain ⟨s,hsys,rfl⟩ := Option.map_eq_some_iff.mp hs
  exact ⟨hsys,rfl,rfl,rfl⟩

theorem Tracks.pop (h : t.Tracks operation) {io : AppendIo} {torn : PendingRequest}
    (hreport : t.report = none) (hhand : t.system.inHand torn = none)
    (hs : t.step (.writer io torn) = some t') (hb : t'.system.ring.claimed.length < 2^63) :
    t'.Tracks operation ∧ t'.system.engine = t.system.engine ∧
      t'.system.handled = t.system.handled := by
  obtain ⟨hsys,hclient,hcompletion,hreport'⟩ := step_writer hreport hs
  simp only [System.step,hhand,Option.some.injEq] at hsys
  have hring : t'.system.ring = t.system.ring.consumerStep := by rw [← hsys]
  have hhandled : t'.system.handled = t.system.handled := by rw [← hsys]
  have hnone : t'.report = t.report := by simp [hreport',hreport,answered,hhand]
  have hview : ∀ q, t'.view q = t.view q := fun q =>
    view_congr (by rw [hclient]) (by rw [hring,RingBuffer.Ring.consumerStep_producers])
      (outstanding_same (by rw [hring,RingBuffer.Ring.consumerStep_claimed]) hhandled) hnone
      (by rw [hcompletion])
  refine ⟨⟨?_,?_,fun q => hview q ▸ h.stage q⟩,by rw [← hsys],hhandled⟩
  · exact h.ring.step (a := .consumer) (by rw [hring]; rfl) hb
  · rw [hhandled,hring]
    exact Nat.le_trans h.served (RingBuffer.Ring.consumerStep_popped _).length_le

/-- The writer processes the request it has in hand: it is the one its client waits
for, and its answer is what the writer will store. -/
theorem Tracks.process (h : t.Tracks operation) {io : AppendIo} {torn request : PendingRequest}
    (hreport : t.report = none) (hhand : t.system.inHand torn = some request)
    (hs : t.step (.writer io torn) = some t') :
    operation request.completion = .invoked request.tx ∧
      t'.system.engine = t.system.engine.process ⟨request,io⟩ ∧
      t'.system.handled = t.system.handled+1 ∧
      t'.Tracks (Function.update operation request.completion
        (.answered (t.system.engine.answer ⟨request,io⟩))) := by
  obtain ⟨hsys,hclient,hcompletion,hreport'⟩ := step_writer hreport hs
  simp only [System.step,hhand,Option.some.injEq] at hsys
  have hring : t'.system.ring = t.system.ring := by rw [← hsys]
  have hengine : t'.system.engine = t.system.engine.process ⟨request,io⟩ := by rw [← hsys]
  have hhandled : t'.system.handled = t.system.handled+1 := by rw [← hsys]
  have hnew : t'.report = some (.storeError request.completion
      (t.system.engine.answer ⟨request,io⟩)) := by
    rw [hreport',answered,hhand,hengine,process_answers]
    simp
  have hnext := System.inHand_claimed h.ring hhand
  have hlt : t.system.handled < t.system.ring.popped.length := by
    obtain ⟨item,hitem,-⟩ := Option.map_eq_some_iff.mp hhand
    exact (List.getElem?_eq_some_iff.mp hitem).1
  have hless : ∀ q, t.outstanding q =
      (if request.completion = q then [request] else []) ++ t'.outstanding q :=
    outstanding_process (by rw [hring]) hhandled hnext
  have hout := hless request.completion
  rw [if_pos rfl,List.singleton_append] at hout
  obtain ⟨hop,hrest,-,hdone,hwaits⟩ := (h.stage request.completion).of_outstanding hout
  refine ⟨hop,hengine,hhandled,h.update (hring ▸ h.ring) (by rw [hhandled,hring]; omega)
    (fun q hq => ?_) ?_⟩
  · have hreporting : t'.reporting q = t.reporting q := by
      simp [reporting,hnew,hreport,hq.symm]
    have hsame := hless q
    rw [if_neg hq.symm,List.nil_append] at hsame
    rw [view,view,hclient,hcompletion,hring,hreporting,hsame]
  · obtain ⟨pos,hclaim⟩ | ⟨hc,hidle⟩ := hwaits
    · -- an unpublished position is behind what was popped, so it would be a second request
      obtain ⟨hpos,-,hitem,-⟩ := h.ring.claim_spec hclaim
      have hmem : request ∈ t'.outstanding request.completion := by
        refine List.mem_filter.mpr ⟨List.mem_of_getElem? (i := pos-(t.system.handled+1)) ?_,by simp⟩
        rw [hring,hhandled,List.getElem?_drop,← hitem]
        congr 1
        omega
      rw [hrest] at hmem
      cases hmem
    · refine .reported _ ?_ ?_ hrest ?_ ?_
      · rw [view,hclient]
        exact hc
      · rw [view,hring]
        exact hidle
      · simp [view,reporting,hnew]
      · rw [view,hcompletion]
        exact hdone

end Steps

end Threads

end FinancialLedger
