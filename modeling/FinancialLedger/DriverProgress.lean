import FinancialLedger.ClientProgress
import FinancialLedger.DriverRun
set_option autoImplicit false

/-!
The demo never gets stuck: from wherever an interleaving has brought it, its threads
can run to the end of `main`.
-/

namespace FinancialLedger
open PosixFile Wal Recovery LedgerEngine

theorem Threads.work_claims {t t' : Threads} {n : Nat} (hreport : t'.report = t.report)
    (hpopped : t'.system.ring.popped = t.system.ring.popped)
    (hconsumer : t'.system.ring.consumer = t.system.ring.consumer)
    (hhandled : t'.system.handled = t.system.handled)
    (hclaimed : t'.system.ring.claimed.length = t.system.ring.claimed.length+n) :
    t'.work ≤ t.work+6*n := by
  unfold work storesDue headStart
  rw [hreport,hpopped,hconsumer,hhandled,hclaimed]
  omega

namespace Driver

variable {stdHash : UInt64 → UInt64} {d d' : Driver} {operation : Nat → Operation}
  {ps : List Popped} {p : Nat}

/-- What is left of a submission when the flag is up or nobody else moves. -/
def clientRank (t : Threads) (p : Nat) : Nat :=
  match t.client p with
  | .ready => 0
  | .calling => 4+t.system.ring.accessesLeft p
  | .waiting => 3
  | .notified => 2

def pointRank (t : Threads) (p : Nat) : ProducerPoint → Nat
  | .top => 14
  | .allocated _ => 13
  | .submitted => clientRank t p
  | .counting _ => 1
  | .ended => 0

def producerRank (d : Driver) (p : Nat) : Nat :=
  14*(kTxPerProducer-d.i p)+pointRank d.threads p (d.point p)

/-- With producers still running the main thread goes back into `process_pending`;
once all have finished it goes on to the end. -/
def mainRank (d : Driver) : Nat :=
  if kProducers ≤ d.producersFinished then
    match d.main with
    | .processing _ => 3
    | .testing => 2
    | .draining _ => 1
    | .printing => 0
  else
    match d.main with
    | .processing n => if n < 1024 then 0 else 2
    | .testing => 1
    | .draining _ => 0
    | .printing => 0

/-- A claim may send the other producers round again and gives the writer work, so it
has to count for more than both. -/
def rank (d : Driver) : Nat :=
  100*(3000-d.threads.system.ring.claimed.length)+4*total d.producerRank+4*d.threads.work+d.mainRank

theorem mainRank_le (d : Driver) : d.mainRank ≤ 3 := by
  unfold mainRank
  split
  · split <;> omega
  · split
    · split <;> omega
    all_goals omega

theorem rank_lt {n : Nat} (hp : p < kProducers) (hn : n ≤ 1)
    (hclaimed : d'.threads.system.ring.claimed.length = d.threads.system.ring.claimed.length+n)
    (hsmall : d.threads.system.ring.claimed.length+n ≤ 3000)
    (hwork : d'.threads.work ≤ d.threads.work+6*n)
    (hothers : ∀ q, q ≠ p → d'.producerRank q ≤ d.producerRank q+2*n)
    (hself : d'.producerRank p < d.producerRank p) : d'.rank < d.rank := by
  have hmain := d'.mainRank_le
  have hshift := total_shift (f := d.producerRank)
    (g := Function.update d.producerRank p (d'.producerRank p)) hp
    (fun q hq => Function.update_of_ne hq ..)
  rw [Function.update_self] at hshift
  have hle : total d'.producerRank ≤
      total (Function.update d.producerRank p (d'.producerRank p))+kProducers*(2*n) := by
    refine total_le_add (fun q => ?_)
    rcases eq_or_ne q p with rfl | hne
    · rw [Function.update_self]
      omega
    · rw [Function.update_of_ne hne]
      exact hothers q hne
  rw [show kProducers*(2*n) = 4*(2*n) from rfl] at hle
  unfold rank
  omega

theorem producerRank_others {q : Nat} {next : ProducerPoint} {n : Nat} (hq : q ≠ p)
    (hpoint : d'.point = Function.update d.point p next) (hi : d'.i q = d.i q)
    (hclient : d'.threads.client q = d.threads.client q)
    (hring : d'.threads.system.ring.producers q = d.threads.system.ring.producers q)
    (hclaimed : d'.threads.system.ring.claimed.length = d.threads.system.ring.claimed.length+n) :
    d'.producerRank q ≤ d.producerRank q+2*n := by
  have hleft := RingBuffer.Ring.accessesLeft_frame hring hclaimed
  unfold producerRank
  rw [hi,hpoint,Function.update_of_ne hq,Nat.add_assoc]
  refine Nat.add_le_add_left ?_ _
  cases d.point q with
  | submitted =>
    unfold pointRank clientRank
    rw [hclient]
    cases d.threads.client q with
    | calling =>
      dsimp only
      omega
    | _ => exact Nat.le_add_right _ _
  | _ => exact Nat.le_add_right _ _

theorem rank_lt_quiet (h : Follows stdHash d operation ps) (hp : p < kProducers)
    {next : ProducerPoint} (hpoint : d'.point = Function.update d.point p next)
    (hi : ∀ q, q ≠ p → d'.i q = d.i q)
    (hclient : ∀ q, q ≠ p → d'.threads.client q = d.threads.client q)
    (hring : ∀ q, q ≠ p →
      d'.threads.system.ring.producers q = d.threads.system.ring.producers q)
    (hclaimed : d'.threads.system.ring.claimed = d.threads.system.ring.claimed)
    (hpopped : d'.threads.system.ring.popped = d.threads.system.ring.popped)
    (hconsumer : d'.threads.system.ring.consumer = d.threads.system.ring.consumer)
    (hhandled : d'.threads.system.handled = d.threads.system.handled)
    (hreport : d'.threads.report = d.threads.report)
    (hself : d'.producerRank p < d.producerRank p) : d'.rank < d.rank := by
  have hsame : d'.threads.system.ring.claimed.length =
      d.threads.system.ring.claimed.length+0 := by rw [hclaimed,Nat.add_zero]
  have hsmall := h.claimed_le
  exact rank_lt hp (Nat.zero_le _) hsame (by omega)
    (Threads.work_claims hreport hpopped hconsumer hhandled hsame)
    (fun q hq => producerRank_others hq hpoint (hi q hq) (hclient q hq) (hring q hq) hsame) hself

theorem Follows.rank_push (h : Follows stdHash d operation ps) (hp : p < kProducers)
    (hpoint : d.point p = .submitted) {t : Threads}
    (hs : d.threads.step (.push p false) = some t) : rank { d with threads := t } < d.rank := by
  obtain ⟨hcalling,hclient,-,hreport,-,hhandled,hring⟩ := Threads.step_push hs
  obtain ⟨-,hready,-⟩ := h.push hs
  have hsmall := h.claimed_le
  have hstep := h.tracks.ring.accessesLeft_step (by omega) hring
  have hmore := Threads.step_claimed hs
  have hless := Threads.step_claimed_le hs
  obtain ⟨n,hn⟩ := Nat.exists_eq_add_of_le hmore
  refine rank_lt hp (n := n) (by omega) hn (by omega) ?_ (fun q hq => ?_) ?_
  · exact Threads.work_claims hreport (RingBuffer.Ring.producerStep_popped hring)
      (RingBuffer.Ring.producerStep_consumer hring) hhandled hn
  · exact producerRank_others hq (Function.update_eq_self p d.point).symm rfl
      (by rw [hclient,Function.update_of_ne hq])
      (RingBuffer.Ring.producerStep_others hring hq) hn
  · simp only [producerRank,pointRank,hpoint,clientRank,hcalling]
    refine Nat.add_lt_add_left ?_ _
    cases hc : t.client p with
    | ready => exact absurd hc hready
    | calling =>
      dsimp only
      omega
    | waiting =>
      dsimp only
      omega
    | notified =>
      dsimp only
      omega

theorem Follows.resting (h : Follows stdHash d operation ps) (hidle : operation p = .idle) :
    d.threads.client p = .ready ∧ d.threads.system.ring.producers p = .idle := by
  have hready : (d.threads.view p).client = .ready := (h.tracks.stage p).ready_iff.mpr hidle
  exact ⟨hready,((h.tracks.stage p).of_ready hready).2.1⟩

theorem Follows.move_top (h : Follows stdHash d operation ps) (hp : p < kProducers)
    (hpoint : d.point p = .top) : ∃ d', d.producerStep p 0 false = some d' ∧ d'.rank < d.rank := by
  have hidle : operation p = .idle := by simpa [hpoint,ProducerPoint.Agrees] using h.pace.points p
  obtain ⟨hready,hout⟩ := h.resting hidle
  simp only [Driver.producerStep,if_neg (Nat.not_le.mpr hp),hpoint]
  split
  · have hs : ∃ t, d.threads.step (.allocateTransactionId p) = some t := by
      simp [Threads.step,System.step,hready,hout]
    obtain ⟨t,ht⟩ := hs
    obtain ⟨hclient,-,hreport,-,hhandled,hring,-⟩ := Threads.step_allocate ht
    rw [ht]
    refine ⟨_,rfl,rank_lt_quiet h hp rfl (fun _ _ => rfl) (fun q _ => congrFun hclient q)
      (fun _ _ => by rw [hring]) (by rw [hring]) (by rw [hring]) (by rw [hring]) hhandled hreport ?_⟩
    simp [producerRank,goto,hpoint,pointRank]
  · refine ⟨_,rfl,rank_lt_quiet h hp rfl (fun _ _ => rfl) (fun _ _ => rfl) (fun _ _ => rfl) rfl rfl
      rfl rfl rfl ?_⟩
    simp [producerRank,goto,hpoint,pointRank]

theorem Follows.move_allocated (h : Follows stdHash d operation ps) (hp : p < kProducers)
    {id : TransactionId} (hpoint : d.point p = .allocated id) :
    ∃ d', d.producerStep p 0 false = some d' ∧ d'.rank < d.rank := by
  have hidle : operation p = .idle := by simpa [hpoint,ProducerPoint.Agrees] using h.pace.points p
  obtain ⟨hready,hout⟩ := h.resting hidle
  have hheld : (driverPayment id).id ∈ d.threads.system.held p := h.pace.held p id hpoint
  have hs : ∃ t, d.threads.step (.submit p (driverPayment id) 0) = some t := by
    simp [Threads.step,System.step,RingBuffer.Ring.step,hready,hheld,hout]
  obtain ⟨t,ht⟩ := hs
  obtain ⟨-,hclient,-,hreport,-,hhandled,hring⟩ := Threads.step_submit ht
  have hnew := Threads.tryPush_eq hring
  simp only [Driver.producerStep,if_neg (Nat.not_le.mpr hp),hpoint,ht]
  refine ⟨_,rfl,rank_lt_quiet h hp rfl (fun _ _ => rfl) (fun q hq => ?_) (fun q hq => ?_)
    (by rw [hnew]; rfl) (by rw [hnew]; rfl) (by rw [hnew]; rfl) hhandled hreport ?_⟩
  · rw [hclient,Function.update_of_ne hq]
  · rw [hnew,RingBuffer.goto_producers_ne _ _ hq]
  · simp [producerRank,goto,hpoint,pointRank,clientRank,hclient,RingBuffer.Ring.accessesLeft,hnew]

theorem Follows.move_submitted (h : Follows stdHash d operation ps) (hp : p < kProducers)
    (hpoint : d.point p = .submitted)
    (hdone : d.threads.client p = .waiting → (d.threads.completion p).done = true) :
    ∃ d', d.producerStep p 0 false = some d' ∧ d'.rank < d.rank := by
  simp only [Driver.producerStep,if_neg (Nat.not_le.mpr hp),hpoint]
  cases hclient : d.threads.client p with
  | ready =>
    have hidle := ((h.tracks.stage p).ready_iff (v := d.threads.view p)).mp hclient
    have hagrees := h.pace.points p
    rw [hpoint,hidle] at hagrees
    cases hagrees
  | calling =>
    obtain ⟨-,-,r,-,hinside⟩ := (h.tracks.stage p).of_calling hclient
    have hbusy : d.threads.system.ring.producers p ≠ .idle := by
      intro hidle
      obtain ⟨hwants,-⟩ | ⟨pos,hclaim,-⟩ := hinside
      · simp [Threads.view,hidle,RingBuffer.Producer.wants] at hwants
      · simp [Threads.view,hidle,RingBuffer.Producer.claim] at hclaim
    obtain ⟨ring,hring⟩ := RingBuffer.Ring.exists_producerStep hbusy false
    have hs : ∃ t, d.threads.step (.push p false) = some t := by
      simp [Threads.step,System.step,RingBuffer.Ring.step,hclient,hring]
    obtain ⟨t,ht⟩ := hs
    obtain ⟨-,hready,-⟩ := h.push ht
    refine ⟨{ d with threads := t },?_,h.rank_push hp hpoint ht⟩
    simp only [ht,Option.map_some,if_neg hready,goto]
    rw [← hpoint,Function.update_eq_self]
  | waiting =>
    have ht : d.threads.step (.poll p) = some (d.threads.goto p .notified) := by
      simp [Threads.step,hclient,hdone hclient]
    simp only [ht]
    refine ⟨_,rfl,rank_lt_quiet h hp (Function.update_eq_self p d.point).symm (fun _ _ => rfl)
      (fun q hq => Function.update_of_ne hq ..) (fun _ _ => rfl) rfl rfl rfl rfl rfl ?_⟩
    simp [producerRank,hpoint,pointRank,clientRank,hclient,Threads.goto]
  | notified =>
    have ht : d.threads.step (.readError p) = some (d.threads.goto p .ready) := by
      simp [Threads.step,hclient]
    simp only [ht]
    refine ⟨_,rfl,rank_lt_quiet h hp rfl (fun _ _ => rfl)
      (fun q hq => Function.update_of_ne hq ..) (fun _ _ => rfl) rfl rfl rfl rfl rfl ?_⟩
    simp [producerRank,hpoint,pointRank,clientRank,hclient,goto]

theorem Follows.move_counting (h : Follows stdHash d operation ps) (hp : p < kProducers)
    {accepted : Bool} (hpoint : d.point p = .counting accepted) :
    ∃ d', d.producerStep p 0 false = some d' ∧ d'.rank < d.rank := by
  have hagrees := h.pace.points p
  have hbound := h.pace.books.bound p
  rw [hpoint] at hagrees
  simp only [books,hpoint] at hbound
  cases hagrees.1
  simp only [Driver.producerStep,if_neg (Nat.not_le.mpr hp),hpoint]
  refine ⟨_,rfl,rank_lt_quiet h hp rfl (fun q hq => Function.update_of_ne hq ..) (fun _ _ => rfl)
    (fun _ _ => rfl) rfl rfl rfl rfl rfl ?_⟩
  simp only [producerRank,goto,hpoint,pointRank,Function.update_self]
  simp only [ProducerPoint.status,Status.begun] at hbound
  omega

def workingDisk : AppendIo := ⟨0,.accepts 4096,true⟩

theorem Follows.workingDisk_errorFree (h : Follows stdHash d operation ps) (torn : PendingRequest) :
    d.threads.Processing ErrorFree (.writer workingDisk torn) := by
  intro _ request _ _
  refine ⟨AppendIo.writesAll_accepts rfl (by decide) ?_ _,rfl⟩
  have hroom := h.pays.room
  have hle : ps.length*kMaxRecordSize ≤ 2004*kMaxRecordSize := by
    refine Nat.mul_le_mul_right _ ?_
    rw [← h.pays.handled]
    exact Nat.le_trans h.tracks.handled_le h.claimed_le
  have hmax : 2004*kMaxRecordSize+kMaxRecordSize ≤ maxFileSize := by decide
  omega

theorem total_producerRank_writer {t : Threads} (halone : d.threads.Alone t) (m : MainPoint) :
    total (producerRank { d with threads := t, main := m }) = total d.producerRank := by
  congr 1
  funext q
  simp only [producerRank]
  congr 1
  cases d.point q with
  | submitted =>
    simp only [pointRank,clientRank,RingBuffer.Ring.accessesLeft,halone.client,halone.producers,
      halone.claimed]
  | _ => rfl

theorem rank_writer {t : Threads} (halone : d.threads.Alone t) (hwork : t.work < d.threads.work)
    (m : MainPoint) : rank { d with threads := t, main := m } < d.rank := by
  have hmain := mainRank_le { d with threads := t, main := m }
  simp only [rank,total_producerRank_writer halone,halone.claimed]
  omega

theorem rank_main {m : MainPoint} (hmain : mainRank { d with main := m } < d.mainRank) :
    rank { d with main := m } < d.rank := by
  have halone : d.threads.Alone d.threads := ⟨rfl,rfl,rfl⟩
  have hsame := total_producerRank_writer halone m
  simp only [rank,hsame]
  omega

theorem Follows.flowing (h : Follows stdHash d operation ps)
    (hcalling : ∀ q, q < kProducers → d.threads.client q ≠ .calling) :
    d.threads.Flowing operation := by
  refine ⟨h.tracks,?_,fun q => h.tracks.claim_eq_none ?_⟩
  · have := h.claimed_le
    omega
  · rcases Nat.lt_or_ge q kProducers with hq | hq
    · exact hcalling q hq
    · rw [h.loop.others q hq]
      exact nofun

/-- A producer that waits keeps the main thread in its loop, and each of its steps
there brings the answer nearer. -/
theorem Follows.move_waiting (h : Follows stdHash d operation ps) (hp : p < kProducers)
    (hpoint : d.point p ≠ .ended) (hwaiting : d.threads.client p = .waiting)
    (hdone : (d.threads.completion p).done = false)
    (hcalling : ∀ q, q < kProducers → d.threads.client q ≠ .calling) (torn : PendingRequest) :
    ∃ d', d.mainStep workingDisk torn = some d' ∧ d'.rank < d.rank := by
  have hflowing := h.flowing hcalling
  have hwork : d.threads.work ≠ 0 := fun hzero => by
    simp [hflowing.done hzero hwaiting] at hdone
  have hrunning : ¬ kProducers ≤ d.producersFinished := by
    intro hover
    have hended : (d.point p).status (operation p) = .ended :=
      h.pace.books.ended_of_finished hover hp
    cases hd : d.point p with
    | ended => exact hpoint hd
    | submitted => cases ho : operation p <;> simp [hd,ho,ProducerPoint.status] at hended
    | _ => simp [hd,ProducerPoint.status] at hended
  have hover : ¬ d.main.over := fun hm => hrunning (h.pace.joined hm)
  unfold Driver.mainStep
  cases hmain : d.main with
  | draining n => simp [hmain,MainPoint.over] at hover
  | printing => simp [hmain,MainPoint.over] at hover
  | testing =>
    refine ⟨_,rfl,rank_main ?_⟩
    simp [mainRank,hrunning,hmain,Nat.not_le.mp hrunning]
  | processing n =>
    dsimp only
    unfold Threads.pendingStep
    split
    · case isTrue hfull =>
      refine ⟨_,rfl,rank_main ?_⟩
      simp [mainRank,hrunning,hmain,Nat.not_lt.mpr hfull.2]
    · obtain ⟨t,ht⟩ := d.threads.exists_step_writer workingDisk torn
      obtain ⟨-,hless⟩ := hflowing.step_writer ht
      rw [ht]
      exact ⟨_,rfl,rank_writer (Threads.step_writer_alone ht) (by omega) _⟩

theorem pendingStep_idle {t : Threads} (hring : t.system.ring.Inv)
    (hb : t.system.ring.claimed.length < 2^63) (hreport : t.report = none)
    (hserved : t.system.handled ≤ t.system.ring.popped.length)
    (hempty : t.system.ring.claimed.length ≤ t.system.handled) (maxItems n : Nat) (io : AppendIo)
    (torn : PendingRequest) : t.pendingStep maxItems n io torn = some (t,none) := by
  have hbehind := hring.behind
  obtain ⟨k,-,hlaps⟩ := hring.laps hb
  have hconsumer : t.system.ring.consumer = .idle := by
    by_contra hne
    have := (hlaps.checked hne).1
    omega
  have hhead : t.atLoopHead = true := by
    simp [Threads.atLoopHead,hreport,hconsumer]
    omega
  have hhand : t.system.inHand torn = none := by
    simp [System.inHand]
    omega
  have hstill : t.system.ring.consumerStep = t.system.ring := by
    have hnone := mt hlaps.diff_eq_zero_iff.mp (fun hc => by omega)
    simp [RingBuffer.Ring.consumerStep,hconsumer,hnone]
  have hstep : t.step (.writer io torn) = some t := by
    have hanswered : t.answered torn t.system = t.report := by
      simp [Threads.answered,hhand,hreport]
    simp only [Threads.step,hreport,System.step,hhand,hstill,Option.map_some]
    rw [hanswered]
  unfold Threads.pendingStep
  split
  · rfl
  · simp [hstep,hhead]

theorem Follows.move_ended (h : Follows stdHash d operation ps)
    (hended : ∀ q, q < kProducers → d.point q = .ended) (hmain : d.main ≠ .printing)
    (io : AppendIo) (torn : PendingRequest) :
    ∃ d', d.mainStep io torn = some d' ∧ d'.rank < d.rank := by
  have hfinished : d.producersFinished = kProducers :=
    h.pace.books.finished_of_ended (fun q hq => by simp [books,hended q hq,ProducerPoint.status])
  have hready : ∀ q, d.threads.client q = .ready := by
    intro q
    rcases Nat.lt_or_ge q kProducers with hq | hq
    · have hidle : operation q = .idle := by
        simpa [hended q hq,ProducerPoint.Agrees] using h.pace.points q
      exact (h.resting hidle).1
    · exact h.loop.others q hq
  have hquiet := fun q => (h.tracks.stage q).of_ready (hready q)
  have hempty : d.threads.system.ring.claimed.length ≤ d.threads.system.handled := by
    have hle := h.tracks.waiting_le (l := []) (fun q hq => absurd (hquiet q).2.2.1 hq)
    rw [List.length_nil] at hle
    omega
  have hreport : d.threads.report = none := by
    cases hr : d.threads.report with
    | none => rfl
    | some report =>
      cases report with
      | storeError q error => simpa [Threads.view,Threads.reporting,hr] using (hquiet q).2.2.2
      | storeDone q => simpa [Threads.view,Threads.reporting,hr] using (hquiet q).2.2.2
  have hsmall : d.threads.system.ring.claimed.length < 2^63 := by
    have := h.claimed_le
    omega
  have hpending := fun maxItems n =>
    pendingStep_idle h.tracks.ring hsmall hreport h.tracks.served hempty maxItems n io torn
  unfold Driver.mainStep
  cases hm : d.main with
  | printing => exact absurd hm hmain
  | testing =>
    refine ⟨_,rfl,rank_main ?_⟩
    simp [mainRank,hfinished,hm]
  | processing n =>
    simp only [hpending]
    refine ⟨_,rfl,rank_main ?_⟩
    simp [mainRank,hfinished,hm]
  | draining n =>
    simp only [hpending]
    refine ⟨_,rfl,rank_main ?_⟩
    simp [mainRank,hfinished,hm]

theorem Follows.progress (h : Follows stdHash d operation ps) (hmain : d.main ≠ .printing)
    (torn : PendingRequest) :
    ∃ act d', d.Processing ErrorFree act ∧ d.step act = some d' ∧ d'.rank < d.rank := by
  by_cases hmoves : ∃ p, p < kProducers ∧ d.point p ≠ .ended ∧
      (d.threads.client p = .waiting → (d.threads.completion p).done = true)
  · obtain ⟨p,hp,hpoint,hdone⟩ := hmoves
    have hstep : ∃ d', d.producerStep p 0 false = some d' ∧ d'.rank < d.rank := by
      cases hd : d.point p with
      | top => exact h.move_top hp hd
      | allocated id => exact h.move_allocated hp hd
      | submitted => exact h.move_submitted hp hd hdone
      | counting accepted => exact h.move_counting hp hd
      | ended => exact absurd hd hpoint
    obtain ⟨d',hs,hless⟩ := hstep
    exact ⟨.producer p 0 false,d',trivial,hs,hless⟩
  · -- every producer has finished or waits for an answer
    have hwaits : ∀ q, q < kProducers → d.point q ≠ .ended →
        d.threads.client q = .waiting ∧ (d.threads.completion q).done = false := by
      intro q hq hpoint
      by_contra hc
      refine hmoves ⟨q,hq,hpoint,fun hwaiting => ?_⟩
      by_contra hdone
      exact hc ⟨hwaiting,by simpa using hdone⟩
    have hstep : ∃ d', d.mainStep workingDisk torn = some d' ∧ d'.rank < d.rank := by
      by_cases hended : ∀ q, q < kProducers → d.point q = .ended
      · exact h.move_ended hended hmain workingDisk torn
      · obtain ⟨p,hp,hpoint⟩ : ∃ p, p < kProducers ∧ d.point p ≠ .ended := by
          simpa using hended
        obtain ⟨hwaiting,hdone⟩ := hwaits p hp hpoint
        refine h.move_waiting hp hpoint hwaiting hdone (fun q hq hcalling => ?_) torn
        by_cases hq' : d.point q = .ended
        · have hidle : operation q = .idle := by
            simpa [hq',ProducerPoint.Agrees] using h.pace.points q
          cases hcalling.symm.trans (h.resting hidle).1
        · cases hcalling.symm.trans (hwaits q hq hq').1
    obtain ⟨d',hs,hless⟩ := hstep
    exact ⟨.main workingDisk torn,d',h.workingDisk_errorFree torn,hs,hless⟩

theorem Follows.reaches_printing (h : Follows stdHash d operation ps) :
    ∃ more d', StepRun.Guarded Driver.step (Processing ErrorFree) d more ∧
      StepRun.exec Driver.step d more = some d' ∧ d'.main = .printing := by
  refine StepRun.exec_reaches (fun d => ∃ operation ps, Follows stdHash d operation ps)
    (fun d => d.main = .printing) rank ?_ ⟨operation,ps,h⟩
  rintro d ⟨operation,ps,h⟩
  by_cases hmain : d.main = .printing
  · exact .inl hmain
  · obtain ⟨act,d',hact,hs,hless⟩ := h.progress hmain ⟨driverPayment 0,0⟩
    exact .inr ⟨act,d',hact,hs,h.step hact hs,hless⟩

/-- No deadlock: as long as the disk has done its work, the demo can go on from every
state that an interleaving reaches to the end of `main`. -/
theorem can_finish {acts : List Action} (hrun : StepRun.exec step (start stdHash) acts = some d)
    (hio : StepRun.Guarded step (Processing ErrorFree) (start stdHash) acts) :
    ∃ more d', StepRun.Guarded step (Processing ErrorFree) d more ∧
      StepRun.exec step d more = some d' ∧ d'.main = .printing := by
  obtain ⟨operation,ps,h⟩ := exec_follows hrun hio
  exact h.reaches_printing

def firstSteps : List Action :=
  [.producer 0 0 false,.producer 1 0 false,.producer 1 0 false,.main workingDisk ⟨driverPayment 0,0⟩,
    .producer 1 0 false,.main workingDisk ⟨driverPayment 0,0⟩,.producer 1 0 false]

theorem can_finish_firstSteps : ∃ d more d',
    StepRun.exec step (start (fun _ => 0)) firstSteps = some d ∧
      StepRun.exec step d more = some d' ∧ d'.main = .printing := by
  have hsome : (StepRun.exec step (start (fun _ => 0)) firstSteps).isSome := by decide +kernel
  obtain ⟨d,hrun⟩ := Option.isSome_iff_exists.mp hsome
  have hio : StepRun.Guarded step (Processing ErrorFree) (start (fun _ => 0)) firstSteps := by
    decide +kernel
  obtain ⟨more,d',-,hmore,hmain⟩ := can_finish hrun hio
  exact ⟨d,more,d',hrun,hmore,hmain⟩

/-- Whatever the interleaving, if the disk does its work the program prints
`accepted=2000 rejected=0` and a balance of -20000 in both accounts, and from the
snapshot it then takes the recovery reads the same balances. -/
theorem prints {acts : List Action} (hrun : StepRun.exec step (start stdHash) acts = some d)
    (hio : StepRun.Guarded step (Processing ErrorFree) (start stdHash) acts)
    (hmain : d.main = .printing) :
    let engine := d.threads.system.engine
    d.accepted = 2000 ∧ d.rejected = 0 ∧
    (engine.published.findAccount kCash).map Account.balance = some (-20000) ∧
    (engine.published.findAccount kRevenue).map Account.balance = some (-20000) ∧
    (∃ f, Snapshot.Written engine.published (UInt64.ofNat engine.walWriter.sizeBytes) f) ∧
    ∀ f, Snapshot.Written engine.published (UInt64.ofNat engine.walWriter.sizeBytes) f →
      ∃ recovered, (recover (some engine.wal) (some f) .complete).1 = .ok recovered ∧
        (recovered.state.findAccount kCash).map Account.balance = some (-20000) ∧
        (recovered.state.findAccount kRevenue).map Account.balance = some (-20000) := by
  intro engine
  obtain ⟨operation,ps,h⟩ := exec_follows hrun hio
  obtain ⟨hall,haccepted⟩ := h.all_paid (h.pace.joined (by rw [hmain]; trivial))
  have hpublished := h.pays.published hall
  have hpaid := h.pays.paid
  rw [hall,← hpublished] at hpaid
  have hcash : (engine.published.findAccount kCash).map Account.balance = some (-20000) := by
    rw [hpaid.cash]
    decide
  have hrevenue : (engine.published.findAccount kRevenue).map Account.balance = some (-20000) := by
    rw [hpaid.revenue]
    decide
  refine ⟨haccepted,h.pace.rejected,hcash,hrevenue,hpaid.exists_written _,fun f hf => ?_⟩
  have hsize : engine.walWriter.sizeBytes = engine.wal.bytes.length := by
    rw [show engine = (firstEngine stdHash).processAll ps from h.pays.engine]
    exact processAll_sizeBytes rfl rfl h.pays.errorFree
  have htrial : validateTrialBalance engine.published = .ok () := by
    rw [hpublished,h.pays.engine]
    exact processAll_balanced (firstEngine stdHash)
      (show validateTrialBalance driverChart = .ok () by decide) ps
  have hrec := recover_at_end hsize hf
  rw [checked_balanced htrial] at hrec
  exact ⟨_,hrec,hcash,hrevenue⟩

theorem prints_run : ∃ acts d, StepRun.exec step (start (fun _ => 0)) acts = some d ∧
    d.accepted = 2000 ∧ d.rejected = 0 ∧
    (d.threads.system.engine.published.findAccount kCash).map Account.balance = some (-20000) := by
  obtain ⟨acts,d,hio,hrun,hmain⟩ := (start_follows (fun _ => 0)).reaches_printing
  obtain ⟨haccepted,hrejected,hcash,-⟩ := prints hrun hio hmain
  exact ⟨acts,d,hrun,haccepted,hrejected,hcash⟩

end Driver

end FinancialLedger
