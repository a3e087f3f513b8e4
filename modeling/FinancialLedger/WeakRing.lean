import FinancialLedger.RingLaps
import FinancialLedger.ViewMemory
set_option autoImplicit false

/-!
`try_push` and `try_pop` with the memory orders they ask for. A load may return an old
value, and the copies of an item are plain accesses that nothing but the sequence
numbers orders. The queue shares the memory with the rest of its program.
-/

namespace FinancialLedger.RingBuffer
open ViewMemory

inductive Loc (ι : Type) where
  | enqueuePos
  | sequence (cell : Nat)
  | other (x : ι)
  deriving DecidableEq

inductive Plain (κ : Type) where
  | data (cell : Nat)
  | other (y : κ)
  deriving DecidableEq

def Loc.ofQueue {ι : Type} : Loc ι → Bool
  | .enqueuePos | .sequence _ => true
  | .other _ => false

def Plain.ofQueue {κ : Type} : Plain κ → Bool
  | .data _ => true
  | .other _ => false

inductive Thread where
  | producer (p : Nat)
  | consumer
  deriving DecidableEq

/-- The queue with a memory and the views of its threads. Next to the items of
successful compare-exchanges it keeps what had happened before each of them. -/
structure WeakRing (α ι κ : Type) where
  mask : Nat
  memory : Memory (Loc ι) (Plain κ)
  data : Nat → Option α
  dequeuePos : Nat
  producers : Nat → Producer α
  consumer : Consumer α
  views : Thread → Past (Loc ι)
  claimed : List α
  popped : List (Option α)
  sent : List (Past (Loc ι))

namespace WeakRing

variable {α ι κ : Type}

/-- Threads are started after the constructor, so its stores are seen by all. -/
def new (capacityPow2 : Nat) (other : ι → Nat) : WeakRing α ι κ where
  mask := capacityPow2-1
  memory := .init (fun
    | .enqueuePos => 0
    | .sequence i => i
    | .other x => other x)
  data := fun _ => none
  dequeuePos := 0
  producers := fun _ => .idle
  consumer := .idle
  views := fun _ => .start
  claimed := []
  popped := []
  sent := []

def cell (w : WeakRing α ι κ) (pos : Nat) : Nat := pos &&& w.mask

def view (w : WeakRing α ι κ) (p : Nat) : Past (Loc ι) := w.views (.producer p)

def moves (w : WeakRing α ι κ) (p : Nat) (next : Producer α) (v : Past (Loc ι)) :
    WeakRing α ι κ :=
  { w with
    producers := Function.update w.producers p next
    views := Function.update w.views (.producer p) v }

/-- A call, or the next access of one thread and the time of the message it reads or
writes, if it is an atomic one. -/
inductive Action (α : Type) where
  | tryPush (p : Nat) (item : α)
  | producer (p t : Nat) (spurious : Bool)
  | consumer (t : Nat)

variable [DecidableEq ι] [DecidableEq κ]

def producerStep (w : WeakRing α ι κ) (p t : Nat) (spurious : Bool) : Option (WeakRing α ι κ) :=
  match w.producers p with
  | .idle => none
  | .loadPos item =>
      (w.memory.load .relaxed (w.view p) .enqueuePos t).map (fun (pos,v) =>
        w.moves p (.loadSeq item pos) v)
  | .loadSeq item pos =>
      (w.memory.load .acquire (w.view p) (.sequence (w.cell pos)) t).map (fun (seq,v) =>
        let d := diff seq pos
        if d = 0 then w.moves p (.compareExchange item pos) v
        else if d < 0 then w.moves p .idle v
        else w.moves p (.loadPos item) v)
  | .compareExchange item pos =>
      (w.memory.load .relaxed (w.view p) .enqueuePos t).bind (fun (found,v) =>
        if found = pos ∧ spurious = false then
          (w.memory.exchange (w.view p) .enqueuePos (wrap (pos+1)) t).map (fun (m,v) =>
            { w.moves p (.beginWrite item pos) v with
              memory := m
              claimed := w.claimed ++ [item]
              sent := w.sent ++ [w.view p] })
        else some (w.moves p (.loadSeq item found) v))
  | .beginWrite item pos =>
      let (m,v) := w.memory.access (w.view p) (.data (w.cell pos)) true
      some { w.moves p (.endWrite item pos) v with
        memory := m
        data := Function.update w.data (w.cell pos) none }
  | .endWrite item pos =>
      let (m,v) := w.memory.access (w.view p) (.data (w.cell pos)) true
      some { w.moves p (.storeSeq item pos) v with
        memory := m
        data := Function.update w.data (w.cell pos) (some item) }
  | .storeSeq _ pos =>
      (w.memory.store .release (w.view p) (.sequence (w.cell pos)) (wrap (pos+1)) t).map
        (fun (m,v) => { w.moves p .idle v with memory := m })

def consumerStep (w : WeakRing α ι κ) (t : Nat) : Option (WeakRing α ι κ) :=
  match w.consumer with
  | .idle =>
      (w.memory.load .acquire (w.views .consumer) (.sequence (w.cell w.dequeuePos)) t).map
        (fun (seq,v) =>
          { w with
            consumer := if diff seq (wrap (w.dequeuePos+1)) ≠ 0 then .idle else .readData
            views := Function.update w.views .consumer v })
  | .readData =>
      let (m,v) := w.memory.access (w.views .consumer) (.data (w.cell w.dequeuePos)) false
      some { w with
        memory := m
        consumer := .storeSeq (w.data (w.cell w.dequeuePos))
        views := Function.update w.views .consumer v }
  | .storeSeq out =>
      (w.memory.store .release (w.views .consumer) (.sequence (w.cell w.dequeuePos))
        (wrap (w.dequeuePos+w.mask+1)) t).map (fun (m,v) =>
          { w with
            memory := m
            dequeuePos := wrap (w.dequeuePos+1)
            consumer := .idle
            views := Function.update w.views .consumer v
            popped := w.popped ++ [out] })

def step (w : WeakRing α ι κ) : Action α → Option (WeakRing α ι κ)
  | .tryPush p item =>
      match w.producers p with
      | .idle => some (w.moves p (.loadPos item) (w.view p))
      | _ => none
  | .producer p t spurious => w.producerStep p t spurious
  | .consumer t => w.consumerStep t

/-- A step of one thread: the rest of the memory is left alone, and so is what the
other threads know. -/
structure Frame (w w' : WeakRing α ι κ) (thread : Thread) : Prop where
  mask : w'.mask = w.mask
  keeps : w.memory.Keeps w'.memory (fun x => x.ofQueue = false) (fun y => y.ofQueue = false)
  view : w.views thread ≤ w'.views thread
  views : ∀ other, other ≠ thread → w'.views other = w.views other

section Frames

variable {w w' : WeakRing α ι κ}

omit [DecidableEq ι] [DecidableEq κ] in
theorem frame_moves {p : Nat} {next : Producer α} {v : Past (Loc ι)}
    {m : Memory (Loc ι) (Plain κ)} {data : Nat → Option α} {claimed : List α}
    {sent : List (Past (Loc ι))} (hle : w.view p ≤ v)
    (hm : w.memory.Keeps m (fun x => x.ofQueue = false) (fun y => y.ofQueue = false)) :
    let w' := { w.moves p next v with memory := m, data := data, claimed := claimed, sent := sent }
    w.Frame w' (.producer p) ∧ (∀ p', p' ≠ p → w'.producers p' = w.producers p') ∧
      w'.popped = w.popped where
  left := {
    mask := rfl
    keeps := hm
    view := by simpa [moves,WeakRing.view] using hle
    views := fun other hne => by simp [moves,hne] }
  right := ⟨fun p' hne => by simp [moves,hne],rfl⟩

theorem producerStep_frame {p t : Nat} {spurious : Bool}
    (h : w.producerStep p t spurious = some w') :
    w.Frame w' (.producer p) ∧ (∀ p', p' ≠ p → w'.producers p' = w.producers p') ∧
      w'.popped = w.popped := by
  have hkeep := Memory.Keeps.refl w.memory (fun x => x.ofQueue = false) (fun y => y.ofQueue = false)
  unfold producerStep at h
  split at h
  · cases h
  · obtain ⟨⟨pos,v⟩,hload,rfl⟩ := Option.map_eq_some_iff.mp h
    obtain ⟨-,-,-,hle,-⟩ := Memory.load_spec hload
    exact frame_moves hle hkeep
  · obtain ⟨⟨seq,v⟩,hload,hs⟩ := Option.map_eq_some_iff.mp h
    obtain ⟨-,-,-,hle,-⟩ := Memory.load_spec hload
    dsimp only at hs
    split at hs
    · subst hs
      exact frame_moves hle hkeep
    · split at hs
      · subst hs
        exact frame_moves hle hkeep
      · subst hs
        exact frame_moves hle hkeep
  · obtain ⟨⟨found,v⟩,hload,hs⟩ := Option.bind_eq_some_iff.mp h
    obtain ⟨-,-,-,hle,-⟩ := Memory.load_spec hload
    dsimp only at hs
    split at hs
    · obtain ⟨⟨m,v'⟩,hex,rfl⟩ := Option.map_eq_some_iff.mp hs
      obtain ⟨-,-,ht,-,rfl,-,-,rfl⟩ := Memory.exchange_spec hex
      exact frame_moves (Past.le_at (Nat.le_succ_of_le ht)) (Memory.keeps_put _ _ _ _ Bool.noConfusion)
    · cases hs
      exact frame_moves hle hkeep
  · case h_5 item pos hp =>
    cases h
    exact frame_moves (Memory.le_access _ _ (.data (w.cell pos)) true)
      (Memory.keeps_access _ _ _ _ Bool.noConfusion)
  · case h_6 item pos hp =>
    cases h
    exact frame_moves (Memory.le_access _ _ (.data (w.cell pos)) true)
      (Memory.keeps_access _ _ _ _ Bool.noConfusion)
  · obtain ⟨⟨m,v⟩,hstore,rfl⟩ := Option.map_eq_some_iff.mp h
    obtain ⟨ht,-,rfl,-,-,rfl,-⟩ := Memory.store_spec hstore
    exact frame_moves (Past.le_at (Nat.le_of_lt ht)) (Memory.keeps_put _ _ _ _ Bool.noConfusion)

theorem producerStep_claimed {p t : Nat} {spurious : Bool}
    (h : w.producerStep p t spurious = some w') : w.claimed <+: w'.claimed := by
  unfold producerStep at h
  split at h
  · cases h
  · obtain ⟨_,_,rfl⟩ := Option.map_eq_some_iff.mp h
    exact List.prefix_refl _
  · obtain ⟨_,_,hs⟩ := Option.map_eq_some_iff.mp h
    dsimp only at hs
    split at hs
    · subst hs
      exact List.prefix_refl _
    · split at hs <;> subst hs <;> exact List.prefix_refl _
  · obtain ⟨_,_,hs⟩ := Option.bind_eq_some_iff.mp h
    dsimp only at hs
    split at hs
    · obtain ⟨_,_,rfl⟩ := Option.map_eq_some_iff.mp hs
      exact List.prefix_append _ _
    · cases hs
      exact List.prefix_refl _
  · cases h
    exact List.prefix_refl _
  · cases h
    exact List.prefix_refl _
  · obtain ⟨_,_,rfl⟩ := Option.map_eq_some_iff.mp h
    exact List.prefix_refl _

theorem consumerStep_frame {t : Nat} (h : w.consumerStep t = some w') :
    w.Frame w' .consumer ∧ w'.producers = w.producers ∧ w'.claimed = w.claimed ∧
      w'.sent = w.sent ∧
      match w.consumer with
      | .storeSeq out => w'.popped = w.popped ++ [out]
      | .idle | .readData => w'.popped = w.popped := by
  unfold consumerStep at h
  split at h
  · case h_1 hcon =>
    obtain ⟨⟨seq,v⟩,hload,rfl⟩ := Option.map_eq_some_iff.mp h
    obtain ⟨-,-,-,hle,-⟩ := Memory.load_spec hload
    rw [hcon]
    exact ⟨⟨rfl,.refl _ _ _,by simpa using hle,fun other hne => by simp [hne]⟩,rfl,rfl,rfl,rfl⟩
  · case h_2 hcon =>
    cases h
    have hle := Memory.le_access w.memory (w.views .consumer) (.data (w.cell w.dequeuePos)) false
    rw [hcon]
    refine ⟨⟨rfl,Memory.keeps_access _ _ _ _ Bool.noConfusion,?_,fun other hne => by simp [hne]⟩,
      rfl,rfl,rfl,rfl⟩
    simp only [Function.update_self]
    exact hle
  · case h_3 out hcon =>
    obtain ⟨⟨m,v⟩,hstore,rfl⟩ := Option.map_eq_some_iff.mp h
    obtain ⟨ht,-,rfl,-,-,rfl,-⟩ := Memory.store_spec hstore
    rw [hcon]
    exact ⟨⟨rfl,Memory.keeps_put _ _ _ _ Bool.noConfusion,by simpa using Past.le_at (Nat.le_of_lt ht),
      fun other hne => by simp [hne]⟩,rfl,rfl,rfl,rfl⟩

end Frames

end WeakRing

end FinancialLedger.RingBuffer
