import Mathlib.Algebra.Group.Nat.Defs
import Mathlib.Logic.Function.Basic
import Mathlib.Data.List.Basic
import FinancialLedger.StepRun
set_option autoImplicit false

namespace FinancialLedger.RingBuffer

def wrap (n : Nat) : Nat := n%2^64

/-- `static_cast<intptr_t>(seq)-static_cast<intptr_t>(pos)`. -/
def diff (seq pos : Nat) : Int := ((seq : Int)-(pos : Int)).bmod (2^64)

/-- A slot. The item is copied in pieces, so its data is `none` from the first
piece of a copy to the last: whoever reads it then reads a torn item. -/
structure Cell (α : Type) where
  sequence : Nat
  data : Option α

/-- Where a producer is inside `try_push`: each constructor is named after the
access to shared memory that comes next. -/
inductive Producer (α : Type) where
  | idle
  | loadPos (item : α)
  | loadSeq (item : α) (pos : Nat)
  | compareExchange (item : α) (pos : Nat)
  | beginWrite (item : α) (pos : Nat)
  | endWrite (item : α) (pos : Nat)
  | storeSeq (item : α) (pos : Nat)

inductive Consumer (α : Type) where
  | idle
  | readData
  | storeSeq (out : Option α)

/-- The queue, its threads, and what happened so far: the items of successful
compare-exchanges and the results of successful `try_pop` calls, in order. -/
structure Ring (α : Type) where
  mask : Nat
  buffer : Nat → Cell α
  enqueuePos : Nat
  dequeuePos : Nat
  producers : Nat → Producer α
  consumer : Consumer α
  claimed : List α
  popped : List (Option α)

variable {α : Type}

def Ring.new (capacityPow2 : Nat) : Ring α where
  mask := capacityPow2-1
  buffer := fun i => ⟨i,none⟩
  enqueuePos := 0
  dequeuePos := 0
  producers := fun _ => .idle
  consumer := .idle
  claimed := []
  popped := []

def Ring.cell (r : Ring α) (pos : Nat) : Cell α := r.buffer (pos &&& r.mask)

def Ring.goto (r : Ring α) (p : Nat) (next : Producer α) : Ring α :=
  { r with producers := Function.update r.producers p next }

def Ring.setCell (r : Ring α) (pos : Nat) (c : Cell α) : Ring α :=
  { r with buffer := Function.update r.buffer (pos &&& r.mask) c }

/-- A call, or the next access of one thread. `spurious` is the choice a weak
compare-exchange has to fail although the expected value is there. -/
inductive Action (α : Type) where
  | tryPush (p : Nat) (item : α)
  | producer (p : Nat) (spurious : Bool)
  | consumer

def Ring.producerStep (r : Ring α) (p : Nat) (spurious : Bool) : Option (Ring α) :=
  match r.producers p with
  | .idle => none
  | .loadPos item => some (r.goto p (.loadSeq item r.enqueuePos))
  | .loadSeq item pos =>
      let d := diff (r.cell pos).sequence pos
      if d = 0 then some (r.goto p (.compareExchange item pos))
      else if d < 0 then some (r.goto p .idle)
      else some (r.goto p (.loadPos item))
  | .compareExchange item pos =>
      if r.enqueuePos = pos ∧ spurious = false then
        some { r.goto p (.beginWrite item pos) with
          enqueuePos := wrap (pos+1)
          claimed := r.claimed ++ [item] }
      else some (r.goto p (.loadSeq item r.enqueuePos))
  | .beginWrite item pos =>
      some ((r.setCell pos { r.cell pos with data := none }).goto p (.endWrite item pos))
  | .endWrite item pos =>
      some ((r.setCell pos { r.cell pos with data := some item }).goto p (.storeSeq item pos))
  | .storeSeq _ pos =>
      some ((r.setCell pos { r.cell pos with sequence := wrap (pos+1) }).goto p .idle)

def Ring.consumerStep (r : Ring α) : Ring α :=
  match r.consumer with
  | .idle =>
      if diff (r.cell r.dequeuePos).sequence (wrap (r.dequeuePos+1)) ≠ 0 then r
      else { r with consumer := .readData }
  | .readData => { r with consumer := .storeSeq (r.cell r.dequeuePos).data }
  | .storeSeq out =>
      { r.setCell r.dequeuePos
          { r.cell r.dequeuePos with sequence := wrap (r.dequeuePos+r.mask+1) } with
        dequeuePos := wrap (r.dequeuePos+1)
        consumer := .idle
        popped := r.popped ++ [out] }

def Ring.step (r : Ring α) : Action α → Option (Ring α)
  | .tryPush p item =>
      match r.producers p with
      | .idle => some (r.goto p (.loadPos item))
      | _ => none
  | .producer p spurious => r.producerStep p spurious
  | .consumer => some r.consumerStep

end FinancialLedger.RingBuffer
