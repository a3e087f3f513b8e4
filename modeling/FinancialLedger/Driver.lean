import Mathlib.Algebra.BigOperators.Group.Finset.Basic
import Mathlib.Algebra.Order.BigOperators.Group.Finset
import Mathlib.Algebra.Ring.Nat
import FinancialLedger.Linearizability
import FinancialLedger.Publication
set_option autoImplicit false

/-!
The demo program: producers that each pay a fixed number of times and wait for every
answer, and a main thread that processes requests until all of them have finished.
-/

namespace FinancialLedger
open PosixFile Wal Recovery LedgerEngine

def kCash : AccountId := 1
def kRevenue : AccountId := 2
def kProducers : Nat := 4
def kTxPerProducer : Nat := 500

def driverConfig : Config := ⟨.syncEveryWrite,1024,2^17,16,by decide⟩

def driverChart : LedgerState :=
  .ofAccounts [⟨kCash,.asset,0,50000⟩,⟨kRevenue,.revenue,0,0⟩]

def driverPayment (id : TransactionId) : Transaction :=
  ⟨id,⟨id,id⟩,0,⟨[⟨kRevenue,.debit,10⟩,⟨kCash,.credit,10⟩],by decide⟩⟩

/-- Where a producer is in the body of its loop: at the test, with an id drawn, inside
`submit` or waiting, with the outcome to count, or past the loop. -/
inductive ProducerPoint where
  | top
  | allocated (id : TransactionId)
  | submitted
  | counting (accepted : Bool)
  | ended
  deriving DecidableEq

/-- Where the main thread is: at the test of its loop, inside a call of
`process_pending` that has taken some requests, in the last such call, or done. -/
inductive MainPoint where
  | testing
  | processing (processed : Nat)
  | draining (processed : Nat)
  | printing
  deriving DecidableEq

structure Driver where
  threads : Threads
  point : Nat → ProducerPoint
  i : Nat → Nat
  accepted : Nat
  rejected : Nat
  producersFinished : Nat
  main : MainPoint

/-- The writer is at the head of the loop of `process_pending`. -/
def Threads.atLoopHead (t : Threads) : Bool :=
  t.report.isNone && decide (t.system.ring.popped.length ≤ t.system.handled) &&
    (t.system.ring.consumer matches .idle)

/-- The next access of a call of `process_pending`, and how many requests it has taken
then; no number when the call returns, because it has taken enough or `try_pop` has
found nothing. -/
def Threads.pendingStep (t : Threads) (maxItems processed : Nat) (io : AppendIo)
    (torn : PendingRequest) : Option (Threads × Option Nat) :=
  if t.atLoopHead ∧ maxItems ≤ processed then some (t,none)
  else (t.step (.writer io torn)).map (fun t' =>
    (t',if t.atLoopHead ∧ t'.atLoopHead then none
      else some (processed+(t'.system.ring.popped.length-t.system.ring.popped.length))))

namespace Driver

inductive Action where
  | producer (p : Nat) (now : Int64) (spurious : Bool)
  | main (io : AppendIo) (torn : PendingRequest)

def start (stdHash : UInt64 → UInt64) : Driver where
  threads := .start (idempotencyKeyHash stdHash) driverConfig driverChart
  point := fun _ => .top
  i := fun _ => 0
  accepted := 0
  rejected := 0
  producersFinished := 0
  main := .testing

def goto (d : Driver) (p : Nat) (next : ProducerPoint) : Driver :=
  { d with point := Function.update d.point p next }

/-- The loop test, an increment of a counter or one access inside the engine. -/
def producerStep (d : Driver) (p : Nat) (now : Int64) (spurious : Bool) : Option Driver :=
  if kProducers ≤ p then none
  else
    match d.point p with
    | .top =>
        if d.i p < kTxPerProducer then
          (d.threads.step (.allocateTransactionId p)).map (fun t =>
            { d.goto p (.allocated (d.threads.system.nextTxId+1)) with threads := t })
        else some { d.goto p .ended with producersFinished := d.producersFinished+1 }
    | .allocated id =>
        (d.threads.step (.submit p (driverPayment id) now)).map (fun t =>
          { d.goto p .submitted with threads := t })
    | .submitted =>
        match d.threads.client p with
        | .calling =>
            (d.threads.step (.push p spurious)).map (fun t =>
              { d.goto p (if t.client p = .ready then .counting false else .submitted) with
                threads := t })
        | .waiting => (d.threads.step (.poll p)).map (fun t => { d with threads := t })
        | .notified =>
            (d.threads.step (.readError p)).map (fun t =>
              { d.goto p (.counting ((d.threads.completion p).error = .none)) with threads := t })
        | .ready => none
    | .counting true =>
        some { d.goto p .top with
          i := Function.update d.i p (d.i p+1)
          accepted := d.accepted+1 }
    | .counting false =>
        some { d.goto p .top with
          i := Function.update d.i p (d.i p+1)
          rejected := d.rejected+1 }
    | .ended => none

def mainStep (d : Driver) (io : AppendIo) (torn : PendingRequest) : Option Driver :=
  match d.main with
  | .testing =>
      some { d with main := if d.producersFinished < kProducers then .processing 0 else .draining 0 }
  | .processing n =>
      (d.threads.pendingStep 1024 n io torn).map (fun r =>
        { d with threads := r.1, main := r.2.elim .testing .processing })
  | .draining n =>
      (d.threads.pendingStep (2^20) n io torn).map (fun r =>
        { d with threads := r.1, main := r.2.elim .printing .draining })
  | .printing => none

def step (d : Driver) : Action → Option Driver
  | .producer p now spurious => d.producerStep p now spurious
  | .main io torn => d.mainStep io torn

end Driver

/-! What the demo is, without its engine: each producer draws a new id, has a payment
committed under it, counts it, and finishes after its last one. -/

inductive Status where
  | resting
  | live (id : TransactionId)
  | settled
  | ended
  deriving DecidableEq

def Status.begun : Status → Nat
  | .resting => 0
  | .live _ => 1
  | .settled => 1
  | .ended => 0

def Status.committed : Status → Nat
  | .resting => 0
  | .live _ => 0
  | .settled => 1
  | .ended => 0

def Status.over : Status → Nat
  | .resting => 0
  | .live _ => 0
  | .settled => 0
  | .ended => 1

structure Books where
  status : Nat → Status
  i : Nat → Nat
  next : TransactionId
  keys : List IdempotencyKey
  committed : Nat
  accepted : Nat
  finished : Nat

def total (f : Nat → Nat) : Nat := ∑ p ∈ Finset.range kProducers, f p

theorem total_shift {f g : Nat → Nat} {p : Nat} (hp : p < kProducers)
    (hothers : ∀ q, q ≠ p → g q = f q) : total g+f p = total f+g p := by
  have hmem : p ∈ Finset.range kProducers := Finset.mem_range.mpr hp
  have hf := Finset.add_sum_erase (Finset.range kProducers) f hmem
  have hg := Finset.add_sum_erase (Finset.range kProducers) g hmem
  have hsame : ∑ q ∈ (Finset.range kProducers).erase p, g q =
      ∑ q ∈ (Finset.range kProducers).erase p, f q :=
    Finset.sum_congr rfl (fun q hq => hothers q (Finset.ne_of_mem_erase hq))
  unfold total
  omega

theorem total_le {f : Nat → Nat} {c : Nat} (h : ∀ p, f p ≤ c) : total f ≤ kProducers*c := by
  have hle := Finset.sum_le_card_nsmul (Finset.range kProducers) f c (fun p _ => h p)
  rwa [Finset.card_range,Nat.nsmul_eq_mul] at hle

theorem total_le_add {f g : Nat → Nat} {c : Nat} (h : ∀ p, g p ≤ f p+c) :
    total g ≤ total f+kProducers*c := by
  have hle : total g ≤ total (fun p => f p+c) := Finset.sum_le_sum (fun p _ => h p)
  rwa [total,total,Finset.sum_add_distrib,Finset.sum_const,Finset.card_range,
    Nat.nsmul_eq_mul] at hle

theorem total_const (c : Nat) : total (fun _ => c) = kProducers*c := by
  rw [total,Finset.sum_const,Finset.card_range,Nat.nsmul_eq_mul]

theorem total_congr {f g : Nat → Nat} (h : ∀ p, p < kProducers → f p = g p) : total f = total g :=
  Finset.sum_congr rfl (fun p hp => h p (Finset.mem_range.mp hp))

/-- The accounts of the demo agree, and every id in use is new to the ledger and has
one owner. -/
structure Books.Balanced (b : Books) : Prop where
  bound : ∀ p, b.i p+(b.status p).begun ≤ kTxPerProducer
  last : ∀ p, b.status p = .ended → b.i p = kTxPerProducer
  next : b.next.toNat = total (fun p => b.i p+(b.status p).begun)
  committed : b.committed = total (fun p => b.i p+(b.status p).committed)
  accepted : b.accepted = total b.i
  finished : b.finished = total (fun p => (b.status p).over)
  fresh : ∀ p id, b.status p = .live id → id.toNat ≤ b.next.toNat ∧ ⟨id,id⟩ ∉ b.keys
  unique : ∀ p q id, b.status p = .live id → b.status q = .live id → p = q
  drawn : ∀ key ∈ b.keys, ∃ id : TransactionId, key = ⟨id,id⟩ ∧ id.toNat ≤ b.next.toNat

namespace Books.Balanced

variable {b : Books} {p : Nat}

theorem next_le (h : b.Balanced) : b.next.toNat ≤ kProducers*kTxPerProducer :=
  h.next ▸ total_le h.bound

theorem committed_le (h : b.Balanced) : b.committed ≤ b.next.toNat := by
  rw [h.committed,h.next]
  refine Finset.sum_le_sum (fun p _ => Nat.add_le_add_left ?_ _)
  cases b.status p <;> simp [Status.committed,Status.begun]

theorem next_succ (h : b.Balanced) : (b.next+1).toNat = b.next.toNat+1 := by
  have hle := h.next_le
  have hsmall : kProducers*kTxPerProducer < 2^63 := by decide
  rw [UInt64.toNat_add]
  show (b.next.toNat+1)%2^64 = _
  omega

/-- A producer moves on: what it has begun, has had committed, has counted and whether
it is over are booked where they belong. -/
theorem move (h : b.Balanced) (hp : p < kProducers) {b' : Books} {s : Status} {n : Nat}
    (hstatus : b'.status = Function.update b.status p s) (hi : b'.i = Function.update b.i p n)
    (hbound : n+s.begun ≤ kTxPerProducer) (hlast : s = .ended → n = kTxPerProducer)
    (hnext : b'.next.toNat+(b.i p+(b.status p).begun) = b.next.toNat+(n+s.begun))
    (hcommitted : b'.committed+(b.i p+(b.status p).committed) = b.committed+(n+s.committed))
    (haccepted : b'.accepted+b.i p = b.accepted+n)
    (hfinished : b'.finished+(b.status p).over = b.finished+s.over)
    (hfresh : ∀ q id, b'.status q = .live id → id.toNat ≤ b'.next.toNat ∧ ⟨id,id⟩ ∉ b'.keys)
    (hunique : ∀ q r id, b'.status q = .live id → b'.status r = .live id → q = r)
    (hdrawn : ∀ key ∈ b'.keys, ∃ id : TransactionId, key = ⟨id,id⟩ ∧ id.toNat ≤ b'.next.toNat) :
    b'.Balanced := by
  have hself : b'.status p = s ∧ b'.i p = n := by simp [hstatus,hi]
  have hother : ∀ q, q ≠ p → b'.status q = b.status q ∧ b'.i q = b.i q := by
    intro q hq
    simp [hstatus,hi,hq]
  have hnext' := total_shift (f := fun q => b.i q+(b.status q).begun)
    (g := fun q => b'.i q+(b'.status q).begun) hp (fun q hq => by simp [hother q hq])
  have hcommitted' := total_shift (f := fun q => b.i q+(b.status q).committed)
    (g := fun q => b'.i q+(b'.status q).committed) hp (fun q hq => by simp [hother q hq])
  have haccepted' := total_shift (f := b.i) (g := b'.i) hp (fun q hq => (hother q hq).2)
  have hfinished' := total_shift (f := fun q => (b.status q).over)
    (g := fun q => (b'.status q).over) hp (fun q hq => by simp [hother q hq])
  simp only [hself] at hnext' hcommitted' haccepted' hfinished'
  rw [← h.next] at hnext'
  rw [← h.committed] at hcommitted'
  rw [← h.accepted] at haccepted'
  rw [← h.finished] at hfinished'
  refine ⟨fun q => ?_,fun q hq => ?_,by omega,by omega,by omega,by omega,hfresh,hunique,hdrawn⟩
  · rcases eq_or_ne q p with rfl | hne
    · simpa only [hself] using hbound
    · simpa only [hother q hne] using h.bound q
  · rcases eq_or_ne q p with rfl | hne
    · rw [hself.1] at hq
      exact hself.2.trans (hlast hq)
    · rw [(hother q hne).1] at hq
      exact (hother q hne).2.trans (h.last q hq)

theorem live_update {status : Nat → Status} {s : Status} {q : Nat} {id : TransactionId}
    (h : Function.update status p s q = .live id) :
    q = p ∧ s = .live id ∨ q ≠ p ∧ status q = .live id := by
  rcases eq_or_ne q p with rfl | hne
  · rw [Function.update_self] at h
    exact .inl ⟨rfl,h⟩
  · rw [Function.update_of_ne hne] at h
    exact .inr ⟨hne,h⟩

theorem stay (h : b.Balanced) {s : Status} (hs : b.status p = s) :
    Balanced { b with status := Function.update b.status p s } := by
  rwa [← hs,Function.update_eq_self]

theorem allocate (h : b.Balanced) (hp : p < kProducers) (hrest : b.status p = .resting)
    (hi : b.i p < kTxPerProducer) :
    Balanced { b with
      status := Function.update b.status p (.live (b.next+1))
      next := b.next+1 } := by
  have hnext := h.next_succ
  have hnew : ∀ q, b.status q ≠ .live (b.next+1) := by
    intro q hq
    have := (h.fresh q _ hq).1
    omega
  refine h.move hp rfl (Function.update_eq_self p b.i).symm ?_ nofun ?_ ?_ rfl ?_ ?_ ?_ ?_
  · exact hi
  · simp only [hnext,hrest,Status.begun]
    omega
  · simp [hrest,Status.committed]
  · simp [hrest,Status.over]
  · intro q id hq
    obtain ⟨rfl,hid⟩ | ⟨-,hq⟩ := live_update hq
    · cases hid
      refine ⟨Nat.le_refl _,fun hmem => ?_⟩
      obtain ⟨id,hkey,hle⟩ := h.drawn _ hmem
      cases hkey
      omega
    · have hold := h.fresh q id hq
      exact ⟨by rw [hnext]; omega,hold.2⟩
  · intro q r id hq hr
    obtain ⟨hqp,hid⟩ | ⟨-,hold⟩ := live_update hq <;>
      obtain ⟨hrp,hid'⟩ | ⟨-,hold'⟩ := live_update hr
    · rw [hqp,hrp]
    · cases hid
      exact absurd hold' (hnew r)
    · cases hid'
      exact absurd hold (hnew q)
    · exact h.unique q r id hold hold'
  · intro key hkey
    obtain ⟨id,hid,hle⟩ := h.drawn key hkey
    exact ⟨id,hid,by rw [hnext]; omega⟩

theorem commit (h : b.Balanced) (hp : p < kProducers) {id : TransactionId}
    (hlive : b.status p = .live id) {keys : List IdempotencyKey}
    (hkeys : ∀ key ∈ keys, key = ⟨id,id⟩ ∨ key ∈ b.keys) :
    Balanced { b with
      status := Function.update b.status p .settled
      keys := keys
      committed := b.committed+1 } := by
  have hbound := h.bound p
  rw [hlive] at hbound
  refine h.move hp rfl (Function.update_eq_self p b.i).symm hbound nofun ?_ ?_ rfl ?_ ?_ ?_ ?_
  · simp [hlive,Status.begun]
  · simp only [hlive,Status.committed]
    omega
  · simp [hlive,Status.over]
  · intro q id' hq
    obtain ⟨-,hid⟩ | ⟨hne,hq⟩ := live_update hq
    · cases hid
    · have hold := h.fresh q id' hq
      refine ⟨hold.1,fun hmem => ?_⟩
      obtain hkey | hmem := hkeys _ hmem
      · cases hkey
        exact hne (h.unique q p id hq hlive)
      · exact hold.2 hmem
  · intro q r id' hq hr
    obtain ⟨-,hid⟩ | ⟨-,hq⟩ := live_update hq
    · cases hid
    · obtain ⟨-,hid⟩ | ⟨-,hr⟩ := live_update hr
      · cases hid
      · exact h.unique q r id' hq hr
  · intro key hkey
    obtain rfl | hmem := hkeys key hkey
    · exact ⟨id,rfl,(h.fresh p id hlive).1⟩
    · exact h.drawn key hmem

theorem move_dead (h : b.Balanced) (hp : p < kProducers) {b' : Books} {s : Status} {n : Nat}
    (hdead : ∀ id, s ≠ .live id)
    (hstatus : b'.status = Function.update b.status p s) (hi : b'.i = Function.update b.i p n)
    (hbound : n+s.begun ≤ kTxPerProducer) (hlast : s = .ended → n = kTxPerProducer)
    (hbegun : b.i p+(b.status p).begun = n+s.begun) (hnext : b'.next = b.next)
    (hkeys : b'.keys = b.keys)
    (hcommitted : b'.committed+(b.i p+(b.status p).committed) = b.committed+(n+s.committed))
    (haccepted : b'.accepted+b.i p = b.accepted+n)
    (hfinished : b'.finished+(b.status p).over = b.finished+s.over) : b'.Balanced := by
  have hlive : ∀ q id, b'.status q = .live id → b.status q = .live id := by
    intro q id hq
    rw [hstatus] at hq
    obtain ⟨-,hid⟩ | ⟨-,hq⟩ := live_update hq
    · exact absurd hid (hdead id)
    · exact hq
  refine h.move hp hstatus hi hbound hlast (by rw [hnext]; omega) hcommitted haccepted hfinished
    ?_ ?_ ?_
  · intro q id hq
    rw [hnext,hkeys]
    exact h.fresh q id (hlive q id hq)
  · exact fun q r id hq hr => h.unique q r id (hlive q id hq) (hlive r id hr)
  · rw [hnext,hkeys]
    exact h.drawn

theorem count (h : b.Balanced) (hp : p < kProducers) (hsettled : b.status p = .settled) :
    Balanced { b with
      status := Function.update b.status p .resting
      i := Function.update b.i p (b.i p+1)
      accepted := b.accepted+1 } := by
  have hbound := h.bound p
  rw [hsettled] at hbound
  refine h.move_dead hp (fun _ => Status.noConfusion) rfl rfl hbound nofun ?_ rfl rfl ?_ ?_ ?_
  · simp [hsettled,Status.begun]
  · simp [hsettled,Status.committed]
  · dsimp only
    omega
  · simp [hsettled,Status.over]

theorem finish (h : b.Balanced) (hp : p < kProducers) (hrest : b.status p = .resting)
    (hi : b.i p = kTxPerProducer) :
    Balanced { b with
      status := Function.update b.status p .ended
      finished := b.finished+1 } := by
  refine h.move_dead hp (fun _ => Status.noConfusion) rfl (Function.update_eq_self p b.i).symm ?_
    (fun _ => hi) ?_ rfl rfl ?_ rfl ?_
  · simp [hi,Status.begun]
  · simp [hrest,Status.begun]
  · simp [hrest,Status.committed]
  · simp [hrest,Status.over]

theorem ended_of_finished (h : b.Balanced) (hover : kProducers ≤ b.finished) (hp : p < kProducers) :
    b.status p = .ended := by
  by_contra hne
  have hshare : (b.status p).over = 0 := by
    cases hs : b.status p with
    | ended => exact absurd hs hne
    | _ => rfl
  have hle : total (fun q => (b.status q).over) ≤ total (fun q => if q = p then 0 else 1) := by
    refine Finset.sum_le_sum (fun q _ => ?_)
    rcases eq_or_ne q p with rfl | hqp
    · simp [hshare]
    · rw [if_neg hqp]
      cases b.status q <;> simp [Status.over]
  have hshift := total_shift (f := fun _ => 1) (g := fun q => if q = p then 0 else 1) hp
    (fun q hq => if_neg hq)
  rw [if_pos rfl,total_const] at hshift
  rw [← h.finished] at hle
  omega

theorem finished_of_ended (h : b.Balanced) (hended : ∀ p, p < kProducers → b.status p = .ended) :
    b.finished = kProducers := by
  have hall : total (fun p => (b.status p).over) = total (fun _ => 1) :=
    total_congr (fun p hp => by rw [hended p hp]; rfl)
  rw [h.finished,hall,total_const,Nat.mul_one]

theorem all_over (h : b.Balanced) (hover : kProducers ≤ b.finished) :
    b.committed = kProducers*kTxPerProducer ∧ b.accepted = kProducers*kTxPerProducer := by
  have hended : ∀ p, p < kProducers → b.status p = .ended := fun p hp =>
    h.ended_of_finished hover hp
  have hall : ∀ p, p < kProducers → b.i p = kTxPerProducer := fun p hp => h.last p (hended p hp)
  have hcommitted : total (fun p => b.i p+(b.status p).committed) =
      total (fun _ => kTxPerProducer) :=
    total_congr (fun p hp => by simp [hall p hp,hended p hp,Status.committed])
  have haccepted : total b.i = total (fun _ => kTxPerProducer) := total_congr hall
  rw [h.committed,h.accepted,hcommitted,haccepted,total_const]
  exact ⟨rfl,rfl⟩

end Books.Balanced

end FinancialLedger
