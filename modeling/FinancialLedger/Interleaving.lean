import FinancialLedger.CrashConsistency
import FinancialLedger.RingInvariant
set_option autoImplicit false

namespace FinancialLedger
open PosixFile Wal Recovery LedgerEngine

/-- The item of a push that is about to find the queue full. -/
def RingBuffer.Ring.refused {α : Type} (r : RingBuffer.Ring α) (p : Nat) : Option α :=
  match r.producers p with
  | .loadSeq item pos => if RingBuffer.diff (r.cell pos).sequence pos < 0 then some item else none
  | _ => none

/-- An engine with its threads: the queue, the id counter, the ids each producer
has drawn and not yet put in the queue, and the part that belongs to the writer,
which has processed the first `handled` of the requests it took off. -/
structure System where
  ring : RingBuffer.Ring PendingRequest
  nextTxId : TransactionId
  held : Nat → List TransactionId
  engine : LedgerEngine
  handled : Nat

namespace System

def start (hash : IdempotencyKey → UInt64) (config : Config) (seed : LedgerState) : System where
  ring := .new config.ringBufferCapacity
  nextTxId := 0
  held := fun _ => []
  engine := .seeded hash config .empty seed
  handled := 0

/-- `writer` comes with what the clock and the kernel answer if the step writes
to the log, and with what the writer would see if it had popped a torn item. -/
inductive Action where
  | allocateTransactionId (p : Nat)
  | submit (p : Nat) (tx : Transaction) (completion : Nat) (now : Int64)
  | producer (p : Nat) (spurious : Bool)
  | writer (io : AppendIo) (torn : PendingRequest)

/-- The request the writer has taken off the queue and not yet processed. -/
def inHand (s : System) (torn : PendingRequest) : Option PendingRequest :=
  s.ring.popped[s.handled]?.map (fun item => item.getD torn)

def give (s : System) (p : Nat) (ids : List TransactionId) : System :=
  { s with held := Function.update s.held p ids }

/-- Producers are between two calls when they draw an id, and submit only
transactions whose id they have drawn; a full queue gives the id back. The
writer pops and processes in turn. -/
def step (s : System) : Action → Option System
  | .allocateTransactionId p =>
      match s.ring.producers p with
      | .idle => some { s.give p (s.held p ++ [s.nextTxId+1]) with nextTxId := s.nextTxId+1 }
      | _ => none
  | .submit p tx completion now =>
      if tx.id ∈ s.held p then
        (s.ring.step (.tryPush p ⟨{ tx with createdAtNs := now },completion⟩)).map
          (fun ring => { s.give p ((s.held p).erase tx.id) with ring := ring })
      else none
  | .producer p spurious =>
      (s.ring.step (.producer p spurious)).map (fun ring =>
        match s.ring.refused p with
        | some request => { s.give p (s.held p ++ [request.tx.id]) with ring := ring }
        | none => { s with ring := ring })
  | .writer io torn =>
      match s.inHand torn with
      | some request =>
          some { s with engine := s.engine.process ⟨request,io⟩, handled := s.handled+1 }
      | none => some { s with ring := s.ring.consumerStep }

theorem step_cases {s t : System} {a : Action} (h : s.step a = some t) :
    (t.engine = s.engine ∧ t.handled = s.handled ∧
      (t.ring = s.ring ∨ ∃ move, s.ring.step move = some t.ring)) ∨
    ∃ io torn request, a = .writer io torn ∧ s.inHand torn = some request ∧
      t.engine = s.engine.process ⟨request,io⟩ ∧ t.handled = s.handled+1 ∧ t.ring = s.ring := by
  cases a with
  | allocateTransactionId p =>
    simp only [step] at h
    split at h
    · cases h
      exact .inl ⟨rfl,rfl,.inl rfl⟩
    · cases h
  | submit p tx completion now =>
    simp only [step] at h
    split at h
    · obtain ⟨ring,hring,rfl⟩ := Option.map_eq_some_iff.mp h
      exact .inl ⟨rfl,rfl,.inr ⟨_,hring⟩⟩
    · cases h
  | producer p spurious =>
    obtain ⟨ring,hring,rfl⟩ := Option.map_eq_some_iff.mp h
    split
    · exact .inl ⟨rfl,rfl,.inr ⟨_,hring⟩⟩
    · exact .inl ⟨rfl,rfl,.inr ⟨_,hring⟩⟩
  | writer io torn =>
    simp only [step] at h
    split at h
    · case h_1 request hreq =>
      cases h
      exact .inr ⟨io,torn,request,rfl,hreq,rfl,rfl,rfl⟩
    · cases h
      exact .inl ⟨rfl,rfl,.inr ⟨.consumer,rfl⟩⟩

def Processing (guard : LedgerEngine → Popped → Prop) (s : System) : Action → Prop
  | .writer io torn => ∀ request ∈ s.inHand torn, guard s.engine ⟨request,io⟩
  | _ => True

instance (guard : LedgerEngine → Popped → Prop) [∀ e p, Decidable (guard e p)] (s : System) :
    ∀ a, Decidable (s.Processing guard a)
  | .writer _ torn => inferInstanceAs (Decidable (∀ request ∈ s.inHand torn, _))
  | .allocateTransactionId _ => .isTrue trivial
  | .submit _ _ _ _ => .isTrue trivial
  | .producer _ _ => .isTrue trivial

section Processed

variable {guard : LedgerEngine → Popped → Prop} {s t : System} {a : Action} {acts : List Action}

def processing (s : System) : Action → List Popped
  | .writer io torn => (s.inHand torn).toList.map (fun request => ⟨request,io⟩)
  | _ => []

def processed (s : System) : List Action → List Popped
  | [] => []
  | a :: acts => s.processing a ++ ((s.step a).map (fun t => t.processed acts)).getD []

theorem step_processing (h : s.step a = some t) :
    t.engine = s.engine.processAll (s.processing a) := by
  obtain ⟨io,torn,rfl⟩ | hother : (∃ io torn, a = .writer io torn) ∨ s.processing a = [] := by
    cases a with
    | writer io torn => exact .inl ⟨io,torn,rfl⟩
    | allocateTransactionId p => exact .inr rfl
    | submit p tx completion now => exact .inr rfl
    | producer p spurious => exact .inr rfl
  · cases hreq : s.inHand torn with
    | none =>
      simp only [step,hreq,Option.some.injEq] at h
      subst h
      simp [processing,hreq,processAll]
    | some request =>
      simp only [step,hreq,Option.some.injEq] at h
      subst h
      simp [processing,hreq,processAll]
  · obtain ⟨he,-⟩ | ⟨io,torn,request,rfl,hreq,-⟩ := step_cases h
    · rw [hother,he]
      rfl
    · simp [processing,hreq] at hother

/-- However the threads interleave, the writer's part is a run of the engine alone. -/
theorem exec_processed (h : StepRun.exec step s acts = some t) :
    t.engine = s.engine.processAll (s.processed acts) := by
  induction acts generalizing s with
  | nil =>
    cases h
    rfl
  | cons a acts ih =>
    obtain ⟨u,hu,ht⟩ := StepRun.exec_cons.mp h
    rw [ih ht,step_processing hu,processed,hu,processAll,processAll,processAll,
      List.foldl_append]
    rfl

theorem guarded_processed (hg : StepRun.Guarded step (Processing guard) s acts) :
    StepRun.Along process guard s.engine (s.processed acts) := by
  induction acts generalizing s with
  | nil => trivial
  | cons a acts ih =>
    have hhead : StepRun.Along process guard s.engine (s.processing a) := by
      cases a with
      | writer io torn =>
        cases hreq : s.inHand torn with
        | none => simp [processing,hreq,StepRun.Along]
        | some request =>
          simp only [processing,hreq,Option.toList_some,List.map_cons,List.map_nil]
          exact ⟨hg.1 request hreq,trivial⟩
      | allocateTransactionId p => trivial
      | submit p tx completion now => trivial
      | producer p spurious => trivial
    refine StepRun.along_append.mpr ⟨hhead,?_⟩
    cases hu : s.step a with
    | none => trivial
    | some u =>
      have hrest := ih (hg.2 u hu)
      rw [step_processing hu] at hrest
      exact hrest

theorem exec_served {ps : List Popped} (h : StepRun.exec step s acts = some t)
    (hg : StepRun.Guarded step (Processing guard) s acts) (hps : s.processed acts = ps) :
    t.engine = s.engine.processAll ps ∧ StepRun.Along process guard s.engine ps := by
  subst hps
  exact ⟨exec_processed h,guarded_processed hg⟩

end Processed

section Recover

/-- In every interleaving without I/O errors whose commits come in the order of
their ids, a recovery gives back the writer's memory and leaves the log as it
is. -/
theorem recover_interleaved (hash : IdempotencyKey → UInt64) (config : Config)
    (seed : LedgerState) (hseed : validateTrialBalance seed = .ok ()) (snapshotFile : File)
    (hsnap : Snapshot.Written seed 0 snapshotFile) (acts : List Action) (s : System)
    (hrun : StepRun.exec step (start hash config seed) acts = some s)
    (hio : StepRun.Guarded step (Processing ErrorFree) (start hash config seed) acts)
    (horder : StepRun.Guarded step (Processing Fresh) (start hash config seed) acts) :
    recover (some s.engine.wal) (some snapshotFile) .complete =
      (.ok ⟨s.engine.working,s.engine.wal.bytes.length⟩,some s.engine.wal) := by
  have hmirror : Mirrors seed s.engine := by
    rw [exec_processed hrun]
    exact StepRun.foldl_invariant (Mirrors seed) (fun _ _ hm hg => hm.process hg.1 hg.2)
      (seeded_mirrors hash config hseed) ((guarded_processed hio).and (guarded_processed horder))
  exact hmirror.recover hsnap (List.append_nil _).symm .nil

def submitAlone (p : Nat) (tx : Transaction) : List Action :=
  .submit p tx p 0 :: List.replicate 6 (.producer p false)

def serveOne : List Action :=
  List.replicate 4 (.writer ⟨17,.accepts 4096,true⟩ ⟨samplePayment 0,0⟩)

def sampleSystem : System := start (fun _ => 0) sampleConfig sampleChart

def inOrder : List Action :=
  [.allocateTransactionId 1,.allocateTransactionId 2] ++ submitAlone 1 (samplePayment 1) ++
    submitAlone 2 (samplePayment 2) ++ serveOne ++ serveOne

theorem recover_interleaved_in_order :
    ∃ snapshotFile s recovered, Snapshot.Written sampleChart 0 snapshotFile ∧
      StepRun.exec step sampleSystem inOrder = some s ∧
      (recover (some s.engine.wal) (some snapshotFile) .complete).1 = .ok recovered ∧
      (recovered.state.findAccount 1).map Account.balance = some 110 := by
  obtain ⟨f,hf⟩ := exists_chartSnapshot 0
  have hbal : (StepRun.exec step sampleSystem inOrder).map
      (fun s => (s.engine.working.findAccount 1).map Account.balance) = some (some 110) := by
    decide +kernel
  obtain ⟨s,hrun,hs⟩ := Option.map_eq_some_iff.mp hbal
  have hrec := recover_interleaved (fun _ => 0) sampleConfig sampleChart (by decide) f hf inOrder
    s hrun (by decide +kernel) (by decide +kernel)
  exact ⟨f,s,_,hf,hrun,congrArg Prod.fst hrec,hs⟩

def overtaking : List Action :=
  [.allocateTransactionId 1,.allocateTransactionId 2] ++ submitAlone 2 (samplePayment 2) ++
    submitAlone 1 (samplePayment 1) ++ serveOne ++ serveOne

/-- Both payments are acknowledged and all system calls succeed, but replay
skips the one with the lower id, which was logged after the other. -/
theorem overtaken_lost :
    validateTrialBalance sampleChart = .ok () ∧
    ∃ snapshotFile s recovered, Snapshot.Written sampleChart 0 snapshotFile ∧
      StepRun.exec step sampleSystem overtaking = some s ∧
      StepRun.Guarded step (Processing ErrorFree) sampleSystem overtaking ∧
      s.engine.answers = [(2,.none),(1,.none)] ∧
      (s.engine.working.findAccount 1).map Account.balance = some 110 ∧
      (recover (some s.engine.wal) (some snapshotFile) .complete).1 = .ok recovered ∧
      (recovered.state.findAccount 1).map Account.balance = some 105 := by
  obtain ⟨f,hf⟩ := exists_chartSnapshot 0
  have hio : StepRun.Guarded step (Processing ErrorFree) sampleSystem overtaking := by
    decide +kernel
  obtain ⟨s,hrun⟩ := Option.isSome_iff_exists.mp
    (show (StepRun.exec step sampleSystem overtaking).isSome = true by decide)
  have hserved : sampleSystem.processed overtaking = [samplePopped 2,samplePopped 1] := by
    decide
  obtain ⟨hengine,halong⟩ := exec_served hrun hio hserved
  have hstart : sampleSystem.engine = sampleEngine := rfl
  rw [hstart] at hengine halong
  have hans : sampleEngine.answersTo [samplePopped 2,samplePopped 1] = [.none,.none] := by
    decide
  have hwal : s.engine.wal.bytes =
      logBytes [(samplePopped 2).logged,(samplePopped 1).logged] ++ [] := by
    have hbytes := (processAll_errorFree rfl halong).2.1
    rw [hans] at hbytes
    rw [hengine,hbytes]
    exact (List.append_nil _).symm
  have hrec := recover_torn hf (Nat.zero_le _) hwal .nil
  have htrial : validateTrialBalance ([(samplePopped 2).logged,(samplePopped 1).logged].foldl
      replayRecord sampleChart) = .ok () := by decide
  rw [checked_balanced htrial] at hrec
  refine ⟨by decide,f,s,_,hf,hrun,hio,?_,?_,congrArg Prod.fst hrec,by decide⟩
  · rw [hengine,processAll_answers,hans]
    rfl
  · rw [hengine]
    decide +kernel

end Recover

section ClaimOrder

variable {hash : IdempotencyKey → UInt64} {config : Config} {seed : LedgerState}
  {guard : LedgerEngine → Popped → Prop} {s t : System} {a : Action} {acts : List Action}

/-- The writer has processed the requests at the front of the queue, in the
order in which the producers claimed their places. -/
structure Serves (first : LedgerEngine) (guard : LedgerEngine → Popped → Prop) (s : System)
    (ps : List Popped) : Prop where
  engine : s.engine = first.processAll ps
  allowed : StepRun.Along process guard first ps
  requests : ps.map Popped.request = s.ring.claimed.take s.handled
  handled : s.handled ≤ s.ring.claimed.length

theorem step_claimed (h : s.step a = some t) : s.ring.claimed <+: t.ring.claimed := by
  obtain ⟨-,-,hring | ⟨move,hmove⟩⟩ | ⟨io,torn,request,-,-,-,-,hring⟩ := step_cases h
  · rw [hring]
  · exact RingBuffer.Ring.claimed_prefix_step hmove
  · rw [hring]

/-- The request in hand is never torn: it is the next claimed one. -/
theorem inHand_claimed (hinv : s.ring.Inv) {torn request : PendingRequest}
    (h : s.inHand torn = some request) : s.ring.claimed[s.handled]? = some request := by
  obtain ⟨item,hitem,rfl⟩ := Option.map_eq_some_iff.mp h
  rw [hinv.history,List.getElem?_map] at hitem
  obtain ⟨request,hreq,rfl⟩ := Option.map_eq_some_iff.mp hitem
  rw [List.getElem?_take] at hreq
  split at hreq
  · exact hreq
  · cases hreq

theorem Serves.step {first : LedgerEngine} {ps : List Popped} (hs : Serves first guard s ps)
    (hinv : s.ring.Inv) (hg : s.Processing guard a) (h : s.step a = some t) :
    ∃ ps', Serves first guard t ps' := by
  obtain ⟨hengine,hallowed,hreqs,hhandled⟩ := hs
  obtain ⟨more,hmore⟩ := step_claimed h
  obtain ⟨he,hn,-⟩ | ⟨io,torn,request,rfl,hreq,he,hn,hring⟩ := step_cases h
  · refine ⟨ps,he.trans hengine,hallowed,?_,?_⟩
    · rw [hreqs,hn,← hmore,List.take_append_of_le_length hhandled]
    · rw [hn,← hmore,List.length_append]
      omega
  · have hnext := inHand_claimed hinv hreq
    refine ⟨ps ++ [⟨request,io⟩],?_,hallowed.snoc ?_,?_,?_⟩
    · rw [he,hengine,processAll,processAll,List.foldl_append]
      rfl
    · exact (show s.engine = ps.foldl process first from hengine) ▸ hg request hreq
    · rw [hn,hring,List.map_append,hreqs,List.take_add_one,hnext]
      rfl
    · rw [hn,hring]
      exact (List.getElem?_eq_some_iff.mp hnext).1

theorem exec_serves {k : Nat} (hk : 1 ≤ k) (hk' : k ≤ 63)
    (hcapacity : config.ringBufferCapacity = 2^k)
    (h : StepRun.exec step (start hash config seed) acts = some s)
    (hg : StepRun.Guarded step (Processing guard) (start hash config seed) acts)
    (hb : s.ring.claimed.length < 2^63) :
    ∃ ps, Serves (seeded hash config .empty seed) guard s ps := by
  refine (StepRun.exec_invariant (fun s => s.ring.claimed.length < 2^63 → s.ring.Inv ∧
    ∃ ps, Serves (seeded hash config .empty seed) guard s ps) ?_ ?_ hg h hb).2
  · intro s a t hs hg ht hb'
    obtain ⟨hinv,ps,hps⟩ := hs (Nat.lt_of_le_of_lt (step_claimed ht).length_le hb')
    refine ⟨?_,hps.step hinv hg ht⟩
    obtain ⟨-,-,hring | ⟨move,hmove⟩⟩ | ⟨io,torn,request,-,-,-,-,hring⟩ := step_cases ht
    · exact hring ▸ hinv
    · exact hinv.step hmove hb'
    · exact hring ▸ hinv
  · intro _
    refine ⟨?_,[],rfl,trivial,rfl,Nat.le_refl _⟩
    show (RingBuffer.Ring.new config.ringBufferCapacity).Inv
    rw [hcapacity]
    exact RingBuffer.Ring.Inv.new hk hk'

theorem recover_claimed_in_order {k : Nat} (hk : 1 ≤ k) (hk' : k ≤ 63)
    (hcapacity : config.ringBufferCapacity = 2^k) (hseed : validateTrialBalance seed = .ok ())
    {snapshotFile : File} (hsnap : Snapshot.Written seed 0 snapshotFile)
    (hrun : StepRun.exec step (start hash config seed) acts = some s)
    (hio : StepRun.Guarded step (Processing ErrorFree) (start hash config seed) acts)
    (hb : s.ring.claimed.length < 2^63)
    (hids : (seed.lastAppliedId :: s.ring.claimed.map (fun r => r.tx.id)).Pairwise (· < ·)) :
    recover (some s.engine.wal) (some snapshotFile) .complete =
      (.ok ⟨s.engine.working,s.engine.wal.bytes.length⟩,some s.engine.wal) := by
  obtain ⟨ps,hengine,hallowed,hreqs,-⟩ := exec_serves hk hk' hcapacity hrun hio hb
  have hsub : ((accepted ps ((seeded hash config .empty seed).answersTo ps)).map
      (fun p => p.request.tx.id)).Sublist (s.ring.claimed.map (fun r => r.tx.id)) := by
    have hps : ps.map (fun p => p.request.tx.id) =
        (s.ring.claimed.take s.handled).map (fun r => r.tx.id) := by
      rw [← hreqs,List.map_map]
      rfl
    refine ((accepted_sublist ps _).map _).trans ?_
    rw [hps]
    exact (List.take_sublist _ _).map _
  have hfresh := along_fresh (e := seeded hash config .empty seed)
    (hids.sublist (hsub.cons_cons seed.lastAppliedId))
  have hmirror : Mirrors seed s.engine := by
    rw [hengine]
    exact StepRun.foldl_invariant (Mirrors seed) (fun _ _ hm hg => hm.process hg.1 hg.2)
      (seeded_mirrors hash config hseed) (hallowed.and hfresh)
  exact hmirror.recover hsnap (List.append_nil _).symm .nil

end ClaimOrder

end System

end FinancialLedger
