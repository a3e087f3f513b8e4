import FinancialLedger.Linearizability
set_option autoImplicit false

/-!
No client waits in vain: the writer alone brings every accepted request to its
answer, in a number of steps that depends only on how many wait.
-/

namespace FinancialLedger
open PosixFile Wal LedgerEngine

namespace Threads

variable {t t' : Threads} {operation : Nat → Operation}

theorem Tracks.claim_eq_none (h : t.Tracks operation) {p : Nat} (hp : t.client p ≠ .calling) :
    (t.system.ring.producers p).claim = none := by
  rw [show t.system.ring.producers p = .idle from (h.stage p).producer_idle hp]
  rfl

def headStart (t : Threads) : Nat :=
  if t.system.handled < t.system.ring.popped.length then 3
  else
    match t.system.ring.consumer with
    | .idle => 0
    | .readData => 1
    | .storeSeq _ => 2

def storesDue (t : Threads) : Nat :=
  match t.report with
  | some (.storeError _ _) => 2
  | some (.storeDone _) => 1
  | none => 0

/-- The writer's steps until all accepted requests are answered: three accesses of
`try_pop`, the processing and two stores for each. -/
def work (t : Threads) : Nat :=
  t.storesDue+(6*(t.system.ring.claimed.length-t.system.handled)-t.headStart)

theorem headStart_le (t : Threads) : t.headStart ≤ 3 := by
  unfold headStart
  split
  · exact Nat.le_refl _
  · split <;> omega

theorem work_le (t : Threads) :
    t.work ≤ 6*(t.system.ring.claimed.length-t.system.handled)+2 := by
  have hstores : t.storesDue ≤ 2 := by
    unfold storesDue
    split <;> omega
  unfold work
  omega

/-- The writer is not held up: every claimed position is published. -/
structure Flowing (t : Threads) (operation : Nat → Operation) : Prop where
  tracks : t.Tracks operation
  small : t.system.ring.claimed.length < 2^63
  published : ∀ p, (t.system.ring.producers p).claim = none

/-- What the writer's steps leave alone. -/
structure Alone (t t' : Threads) : Prop where
  client : t'.client = t.client
  producers : t'.system.ring.producers = t.system.ring.producers
  claimed : t'.system.ring.claimed = t.system.ring.claimed

theorem Flowing.of_alone (h : t.Flowing operation) {operation' : Nat → Operation}
    (halone : t.Alone t') (htracks : t'.Tracks operation') : t'.Flowing operation' :=
  ⟨htracks,halone.claimed ▸ h.small,halone.producers ▸ h.published⟩

theorem Flowing.consumerStep (h : t.Flowing operation)
    (hnone : t.system.ring.popped.length = t.system.handled)
    (hlt : t.system.handled < t.system.ring.claimed.length) :
    (t.system.ring.consumer = .idle ∧ t.system.ring.consumerStep.consumer = .readData ∧
        t.system.ring.consumerStep.popped = t.system.ring.popped) ∨
      (t.system.ring.consumer = .readData ∧
        (∃ out, t.system.ring.consumerStep.consumer = .storeSeq out) ∧
        t.system.ring.consumerStep.popped = t.system.ring.popped) ∨
      ((∃ out, t.system.ring.consumer = .storeSeq out) ∧
        t.system.ring.consumerStep.popped.length = t.system.ring.popped.length+1) := by
  obtain ⟨k,-,hlaps⟩ := h.tracks.ring.laps h.small
  unfold RingBuffer.Ring.consumerStep
  cases hcon : t.system.ring.consumer with
  | idle =>
    left
    have hseq : (t.system.ring.cell t.system.ring.popped.length).sequence =
        RingBuffer.wrap (t.system.ring.popped.length+1) := by
      rcases hlaps.cells _ hlaps.inLap_popped with ⟨hle,-⟩ | ⟨-,-,p,item,hc⟩ | hpub
      · omega
      · simp [h.published p] at hc
      · exact hpub.2.1
    have hzero := hlaps.diff_eq_zero_iff.mpr ⟨by omega,hseq⟩
    simp [hzero]
  | readData => simp
  | storeSeq out => simp

theorem exists_step_writer (t : Threads) (io : AppendIo) (torn : PendingRequest) :
    ∃ t', t.step (.writer io torn) = some t' := by
  simp only [step]
  split
  · exact ⟨_,rfl⟩
  · exact ⟨_,rfl⟩
  · simp only [System.step]
    split
    · exact ⟨_,rfl⟩
    · exact ⟨_,rfl⟩

theorem step_writer_alone {io : AppendIo} {torn : PendingRequest}
    (hs : t.step (.writer io torn) = some t') : t.Alone t' := by
  simp only [step] at hs
  split at hs
  · cases hs
    exact ⟨rfl,rfl,rfl⟩
  · cases hs
    exact ⟨rfl,rfl,rfl⟩
  · obtain ⟨s,hsys,rfl⟩ := Option.map_eq_some_iff.mp hs
    simp only [System.step] at hsys
    split at hsys
    · cases hsys
      exact ⟨rfl,rfl,rfl⟩
    · cases hsys
      exact ⟨rfl,t.system.ring.consumerStep_producers,t.system.ring.consumerStep_claimed⟩

theorem step_report_storesDue {io : AppendIo} {torn : PendingRequest} {report : Report}
    (hreport : t.report = some report) (hs : t.step (.writer io torn) = some t') :
    t'.storesDue+1 = t.storesDue := by
  cases report with
  | storeError p error =>
    simp only [step,hreport,Option.some.injEq] at hs
    simp [storesDue,hreport,← hs]
  | storeDone p =>
    simp only [step,hreport,Option.some.injEq] at hs
    simp [storesDue,hreport,← hs]

theorem Flowing.step_writer (h : t.Flowing operation) {io : AppendIo} {torn : PendingRequest}
    (hs : t.step (.writer io torn) = some t') :
    (∃ operation', t'.Flowing operation') ∧ t'.work ≤ t.work-1 := by
  have halone := step_writer_alone hs
  have hclaimed := congrArg List.length halone.claimed
  have hhead := t.headStart_le
  cases hreport : t.report with
  | some report =>
    obtain ⟨htracks,hsystem⟩ := h.tracks.report hreport hs
    have hdue := step_report_storesDue hreport hs
    have hsame : t'.headStart = t.headStart := by rw [headStart,headStart,hsystem]
    refine ⟨⟨operation,h.of_alone halone htracks⟩,?_⟩
    rw [work,work,hsame,hsystem]
    omega
  | none =>
    have hdue : t.storesDue = 0 := by simp [storesDue,hreport]
    obtain ⟨hsys,-,-,hreport'⟩ := Threads.step_writer hreport hs
    cases hhand : t.system.inHand torn with
    | some request =>
      obtain ⟨-,-,hhandled,htracks⟩ := h.tracks.process hreport hhand hs
      have hlt := (List.getElem?_eq_some_iff.mp (System.inHand_claimed h.tracks.ring hhand)).1
      have hpopped : t.headStart = 3 := by
        obtain ⟨item,hitem,-⟩ := Option.map_eq_some_iff.mp hhand
        exact if_pos (List.getElem?_eq_some_iff.mp hitem).1
      have hdue' : t'.storesDue ≤ 2 := by
        unfold storesDue
        split <;> omega
      refine ⟨⟨_,h.of_alone halone htracks⟩,?_⟩
      rw [work,work,hclaimed,hhandled,hpopped,hdue]
      omega
    | none =>
      obtain ⟨htracks,-,hhandled⟩ := h.tracks.pop hreport hhand hs (by rw [hclaimed]; exact h.small)
      simp only [System.step,hhand,Option.some.injEq] at hsys
      have hring : t'.system.ring = t.system.ring.consumerStep := by rw [← hsys]
      have hdue' : t'.storesDue = 0 := by simp [storesDue,hreport',answered,hhand]
      have hserved := h.tracks.served
      have hpopped : t.system.ring.popped.length = t.system.handled := by
        have hout := Option.map_eq_none_iff.mp hhand
        rw [List.getElem?_eq_none_iff] at hout
        omega
      refine ⟨⟨operation,h.of_alone halone htracks⟩,?_⟩
      rw [work,work,hclaimed,hhandled,hdue,hdue']
      rcases Nat.lt_or_ge t.system.handled t.system.ring.claimed.length with hlt | hge
      · have hmore : t'.headStart = t.headStart+1 := by
          unfold headStart
          rw [hhandled,hring]
          obtain ⟨hidle,hnext,hp⟩ | ⟨hread,⟨out,hnext⟩,hp⟩ | ⟨⟨out,hstore⟩,hp⟩ :=
            h.consumerStep hpopped hlt
          · simp [hp,hpopped,hidle,hnext]
          · simp [hp,hpopped,hread,hnext]
          · simp [hp,hpopped,hstore]
        omega
      · omega

/-- With no work left, every client that waits has its answer. -/
theorem Flowing.done (h : t.Flowing operation) (hwork : t.work = 0) {p : Nat}
    (hp : t.client p = .waiting) : (t.completion p).done = true := by
  have hhead := t.headStart_le
  have hreport : t.report = none := by
    cases hr : t.report with
    | none => rfl
    | some report => cases report <;> simp [work,storesDue,hr] at hwork
  have hempty : t.system.ring.claimed.drop t.system.handled = [] := by
    rw [List.drop_eq_nil_iff]
    unfold work at hwork
    omega
  have hout : (t.view p).outstanding = [] := by simp [view,outstanding,hempty]
  have hrep : (t.view p).reporting = none := by simp [view,reporting,hreport]
  exact (h.tracks.stage p).of_waiting hp hout hrep

theorem Flowing.exec_writer (h : t.Flowing operation) (ws : List (AppendIo × PendingRequest)) :
    ∃ t' operation', StepRun.exec step t (ws.map (fun w => .writer w.1 w.2)) = some t' ∧
      t'.Flowing operation' ∧ t'.client = t.client ∧ t'.work ≤ t.work-ws.length := by
  induction ws generalizing t operation with
  | nil => exact ⟨t,operation,rfl,h,rfl,Nat.le_refl _⟩
  | cons w ws ih =>
    obtain ⟨u,hu⟩ := t.exists_step_writer w.1 w.2
    obtain ⟨⟨next,hnext⟩,hless⟩ := h.step_writer hu
    obtain ⟨t',operation',hrun,hend,hclient,hwork⟩ := ih hnext
    refine ⟨t',operation',StepRun.exec_cons.mpr ⟨u,hu,hrun⟩,hend,?_,?_⟩
    · rw [hclient,(step_writer_alone hu).client]
    · rw [List.length_cons]
      omega

section Reachable

variable {hash : IdempotencyKey → UInt64} {config : Config} {seed : LedgerState} {k : Nat}
  {acts : List Action}

/-- No wake-up is lost: wherever an interleaving has come to, if no producer is in the
middle of filling its cell, the writer alone sets the flag of every client that
waits, within six steps for each accepted request and two for the answer at hand. -/
theorem writer_completes_all (hk : 1 ≤ k) (hk' : k ≤ 63)
    (hcapacity : config.ringBufferCapacity = 2^k)
    (hrun : StepRun.exec step (start hash config seed) acts = some t)
    (hb : t.system.ring.claimed.length < 2^63)
    (hpublished : ∀ p, (t.system.ring.producers p).claim = none)
    (ws : List (AppendIo × PendingRequest))
    (hws : 6*(t.system.ring.claimed.length-t.system.handled)+2 ≤ ws.length) :
    ∃ t', StepRun.exec step t (ws.map (fun w => .writer w.1 w.2)) = some t' ∧
      ∀ p, t.client p = .waiting → t'.client p = .waiting ∧ (t'.completion p).done = true := by
  obtain ⟨a,-,hsim⟩ := exec_simulates_trace hk hk' hcapacity hrun hb
  have hflowing : t.Flowing a.operation := ⟨hsim.tracks,hb,hpublished⟩
  obtain ⟨t',operation',hrun',hend,hclient,hwork⟩ := hflowing.exec_writer ws
  have hle := t.work_le
  refine ⟨t',hrun',fun p hp => ?_⟩
  have hp' : t'.client p = .waiting := by rw [hclient,hp]
  exact ⟨hp',hend.done (by omega) hp'⟩

theorem writer_completes_all_payment :
    ∃ t t', StepRun.exec step sampleThreads (payAndWait.take 9) = some t ∧
      (t.completion 1).done = false ∧
      StepRun.exec step t (List.replicate 8 writes) = some t' ∧ (t'.completion 1).done = true := by
  have hrun : (StepRun.exec step sampleThreads (payAndWait.take 9)).map
      (fun t => (t.client 0,t.client 1,(t.completion 1).done,
        t.system.ring.claimed.length,t.system.handled)) = some (.ready,.waiting,false,1,0) := by
    decide +kernel
  obtain ⟨t,ht,he⟩ := Option.map_eq_some_iff.mp hrun
  simp only [Prod.mk.injEq] at he
  obtain ⟨hzero,hone,hdone,hclaimed,hhandled⟩ := he
  have hb : t.system.ring.claimed.length < 2^63 := by omega
  obtain ⟨a,-,hsim⟩ := exec_simulates_trace (k := 12) (by decide) (by decide) rfl ht hb
  have hothers := exec_others (n := 2) (fun _ _ => rfl) (by decide) ht
  have hquiet : ∀ p, (t.system.ring.producers p).claim = none := by
    intro p
    refine hsim.tracks.claim_eq_none ?_
    match p with
    | 0 => simp [hzero]
    | 1 => simp [hone]
    | p+2 => simp [hothers (p+2) (by omega)]
  obtain ⟨t',ht',hall⟩ := writer_completes_all (k := 12) (by decide) (by decide) rfl ht hb hquiet
    (List.replicate 8 (⟨17,.accepts 4096,true⟩,⟨samplePayment 0,0⟩)) (by rw [hclaimed,hhandled]; decide)
  exact ⟨t,t',ht,hdone,ht',(hall 1 hone).2⟩

end Reachable

end Threads

end FinancialLedger
