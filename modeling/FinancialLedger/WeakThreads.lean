import FinancialLedger.Clients
import FinancialLedger.Publication
import FinancialLedger.WeakRingInvariant
set_option autoImplicit false

/-!
The threads around an engine with the memory orders of the source. The flag of a
completion orders the answer next to it, and the published pointer the copy it points
to; answers and copies themselves are plain memory.
-/

namespace FinancialLedger
open Wal ViewMemory RingBuffer

inductive Flag where
  | done (p : Nat)
  | published
  deriving DecidableEq

inductive Object where
  | error (p : Nat)
  | state (n : Nat)
  deriving DecidableEq

/-- The writer's next access: inside `try_pop`, or one of `publish_snapshot` and
`complete` for the request it has just processed. -/
inductive Writer where
  | popping
  | writeState (p : Nat) (error : LedgerError)
  | storePublished (p : Nat) (error : LedgerError)
  | storeError (p : Nat) (error : LedgerError)
  | storeDone (p : Nat)
  deriving DecidableEq

/-- Client `p` is producer `p` of the queue and owns completion `p`. Copies of the
state are numbered in the order they were made. -/
structure WeakThreads where
  ring : WeakRing PendingRequest Flag Object
  engine : LedgerEngine
  writer : Writer
  client : Nat → Client
  errors : Nat → LedgerError
  states : List LedgerState
  /-- The copy that a client's last `snapshot` returned, and what it had heard before. -/
  holds : Nat → Option (Nat × List Nat)
  /-- The position in the queue of the request that a client waits for. -/
  ticket : Nat → Option Nat
  processed : List Popped
  /-- Answers that clients have read: client, position and error. -/
  heard : List (Nat × Nat × LedgerError)
  /-- Copies that clients have read, each with what its client had heard. -/
  read : List (List Nat × LedgerState)

namespace WeakThreads

def start (hash : IdempotencyKey → UInt64) (config : Config) (wal : PosixFile.File)
    (seed : LedgerState) : WeakThreads where
  ring := .new config.ringBufferCapacity (fun _ => 0)
  engine := .seeded hash config wal seed
  writer := .popping
  client := fun _ => .ready
  errors := fun _ => .none
  states := [.empty]
  holds := fun _ => none
  ticket := fun _ => none
  processed := []
  heard := []
  read := []

inductive Action where
  | submit (p : Nat) (tx : Transaction) (now : Int64) (t : Nat)
  | push (p t : Nat) (spurious : Bool)
  | poll (p t : Nat)
  | readError (p : Nat)
  | snapshot (p t : Nat)
  | readState (p : Nat)
  | pop (t : Nat) (io : AppendIo) (torn : PendingRequest)
  | writer (t : Nat)

def memory (s : WeakThreads) : Memory (Loc Flag) (Plain Object) := s.ring.memory

def acts (s : WeakThreads) (thread : Thread) (m : Memory (Loc Flag) (Plain Object))
    (v : Past (Loc Flag)) : WeakThreads :=
  { s with ring := { s.ring with
      memory := m
      views := Function.update s.ring.views thread v } }

def goto (s : WeakThreads) (p : Nat) (next : Client) : WeakThreads :=
  { s with client := Function.update s.client p next }

def heardBy (s : WeakThreads) (p : Nat) : List Nat :=
  (s.heard.filter (fun h => h.1 = p)).map (fun h => h.2.1)

def afterPush (s : WeakThreads) (p : Nat) (ring : WeakRing PendingRequest Flag Object) : Client :=
  match s.ring.producers p, ring.producers p with
  | .storeSeq _ _, _ => .waiting
  | _, .idle => .ready
  | _, _ => .calling

def afterClaim (s : WeakThreads) (p : Nat) (ring : WeakRing PendingRequest Flag Object) :
    Nat → Option Nat :=
  match ring.producers p with
  | .beginWrite _ pos => Function.update s.ticket p (some pos)
  | _ => s.ticket

/-- A commit that completes a period is published. -/
def publishes (e : LedgerEngine) (p : Popped) : Bool :=
  e.answer p = .none ∧ e.publishSnapshotEveryN ≤ e.processedSincePublish+1

def serve (s : WeakThreads) (p : Popped) : WeakThreads :=
  { s with
    engine := s.engine.process p
    processed := s.processed ++ [p]
    writer := if publishes s.engine p
      then .writeState p.request.completion (s.engine.answer p)
      else .storeError p.request.completion (s.engine.answer p) }

def writerStep (s : WeakThreads) (t : Nat) : Option WeakThreads :=
  let v := s.ring.views .consumer
  match s.writer with
  | .popping => none
  | .writeState p error =>
      let (m,v) := s.memory.access v (.other (.state s.states.length)) true
      some { s.acts .consumer m v with
        states := s.states ++ [s.engine.working]
        writer := .storePublished p error }
  | .storePublished p error =>
      (s.memory.store .release v (.other .published) (s.states.length-1) t).map (fun (m,v) =>
        { s.acts .consumer m v with writer := .storeError p error })
  | .storeError p error =>
      let (m,v) := s.memory.access v (.other (.error p)) true
      some { s.acts .consumer m v with
        errors := Function.update s.errors p error
        writer := .storeDone p }
  | .storeDone p =>
      (s.memory.store .release v (.other (.done p)) 1 t).map (fun (m,v) =>
        { s.acts .consumer m v with writer := .popping })

def step (s : WeakThreads) : Action → Option WeakThreads
  | .submit p tx now t =>
      match s.client p with
      | .ready =>
          (s.memory.store .relaxed (s.ring.view p) (.other (.done p)) 0 t).bind (fun (m,v) =>
            let s' := s.acts (.producer p) m v
            (s'.ring.step (.tryPush p ⟨{ tx with createdAtNs := now },p⟩)).map (fun ring =>
              { s'.goto p .calling with ring := ring }))
      | _ => none
  | .push p t spurious =>
      match s.client p with
      | .calling => (s.ring.producerStep p t spurious).map (fun ring =>
          { s.goto p (s.afterPush p ring) with ring := ring, ticket := s.afterClaim p ring })
      | _ => none
  | .poll p t =>
      match s.client p with
      | .waiting =>
          (s.memory.load .acquire (s.ring.view p) (.other (.done p)) t).map (fun (value,v) =>
            (s.acts (.producer p) s.memory v).goto p (if value ≠ 0 then .notified else .waiting))
      | _ => none
  | .readError p =>
      match s.client p, s.ticket p with
      | .notified, some q =>
          let (m,v) := s.memory.access (s.ring.view p) (.other (.error p)) false
          some { (s.acts (.producer p) m v).goto p .ready with
            ticket := Function.update s.ticket p none
            heard := s.heard ++ [(p,q,s.errors p)] }
      | _, _ => none
  | .snapshot p t =>
      match s.client p with
      | .ready =>
          (s.memory.load .acquire (s.ring.view p) (.other .published) t).map (fun (n,v) =>
            { s.acts (.producer p) s.memory v with
              holds := Function.update s.holds p (some (n,s.heardBy p)) })
      | _ => none
  | .readState p =>
      match s.client p, s.holds p with
      | .ready, some (n,before) =>
          let (m,v) := s.memory.access (s.ring.view p) (.other (.state n)) false
          some { s.acts (.producer p) m v with
            read := s.read ++ [(before,s.states.getD n .empty)] }
      | _, _ => none
  | .pop t io torn =>
      match s.writer with
      | .popping => (s.ring.consumerStep t).map (fun ring =>
          match s.ring.consumer with
          | .storeSeq out => { s with ring := ring }.serve ⟨out.getD torn,io⟩
          | .idle | .readData => { s with ring := ring })
      | _ => none
  | .writer t => s.writerStep t

end WeakThreads

end FinancialLedger
