import Mathlib.Data.List.Perm.Subperm
import FinancialLedger.Clients
import FinancialLedger.Deduplication
import FinancialLedger.RingCapacity
import FinancialLedger.Simulation
set_option autoImplicit false

/-!
What the engine is for its clients: a ledger that takes each transaction at one
moment between its invocation and its response.
-/

namespace FinancialLedger
open PosixFile Wal LedgerEngine

/-- A log that fails after the checks leaves the key behind and nothing else. -/
def SequentialLedger.remember (l : SequentialLedger) (tx : Transaction) : SequentialLedger :=
  { l with keys := (LruSet.touch l.capacity l.keys tx.idempotencyKey).2 }

/-- A sequential ledger and, for each client, what has become of its operation. -/
structure AtomicLedger where
  ledger : SequentialLedger
  operation : Nat → Operation

namespace AtomicLedger

def start (config : Config) (seed : LedgerState) : AtomicLedger :=
  ⟨⟨max config.idempotencyCapacity 1,[],seed⟩,fun _ => .idle⟩

def goto (a : AtomicLedger) (p : Nat) (next : Operation) : AtomicLedger :=
  { a with operation := Function.update a.operation p next }

/-- The clients see invocations and responses; what happens to the ledger in between
is silent. Where `mayRefuse` allows it an operation is turned away untouched, and
where `mayFail` allows it one that passes the checks ends in an error. -/
inductive Step (mayRefuse : Prop) (mayFail : LedgerError → Prop) :
    AtomicLedger → Option Event → AtomicLedger → Prop where
  | invoke {a : AtomicLedger} {p : Nat} (tx : Transaction) : a.operation p = .idle →
      Step mayRefuse mayFail a (some (.invoke p tx)) (a.goto p (.invoked tx))
  | commit {a : AtomicLedger} {p : Nat} {tx : Transaction} : a.operation p = .invoked tx →
      Step mayRefuse mayFail a none
        ({ a with ledger := (a.ledger.submit tx).2 }.goto p (.answered (a.ledger.submit tx).1))
  | fail {a : AtomicLedger} {p : Nat} {tx : Transaction} {error : LedgerError} :
      a.operation p = .invoked tx → (a.ledger.submit tx).1 = .none → mayFail error →
      Step mayRefuse mayFail a none
        ({ a with ledger := a.ledger.remember tx }.goto p (.answered error))
  | refuse {a : AtomicLedger} {p : Nat} {tx : Transaction} : a.operation p = .invoked tx →
      mayRefuse → Step mayRefuse mayFail a (some (.respond p .queueFull)) (a.goto p .idle)
  | respond {a : AtomicLedger} {p : Nat} {error : LedgerError} :
      a.operation p = .answered error →
      Step mayRefuse mayFail a (some (.respond p error)) (a.goto p .idle)

end AtomicLedger

/-- The errors of an append to an open log. -/
def IoError (error : LedgerError) : Prop := error = .walWriteFailed ∨ error = .walSyncFailed

theorem LedgerEngine.process_abs_open {e : LedgerEngine} (p : Popped)
    (hopen : e.walWriter.fdValid = true) :
    e.abs.submit p.request.tx = (e.answer p,(e.process p).abs) ∨
    ((e.abs.submit p.request.tx).1 = .none ∧ e.answer p ≠ .none ∧ IoError (e.answer p) ∧
      (e.process p).abs = e.abs.remember p.request.tx) := by
  obtain ⟨hkeys,hcap⟩ := e.process_keys p
  have hwork := e.process_working p
  obtain ⟨-,hans,-⟩ | ⟨hv,hans,w,f,ha,-⟩ | ⟨hv,hans,-⟩ := e.process_cases p
  · left
    simp only [SequentialLedger.submit,abs,hkeys,hcap,hwork,hans]
    rfl
  · right
    rw [if_neg hans] at hwork
    refine ⟨hv,hans,?_,by simp only [abs,SequentialLedger.remember,hkeys,hcap,hwork]⟩
    obtain ⟨n,f',-,-,-,heq⟩ | ⟨f',-,-,-,-,heq⟩ | ⟨f',-,-,-,heq⟩ :=
      BinaryWalWriter.append_cases hopen e.wal p.request.tx p.io
    · exact .inl (Except.error.inj (Prod.mk.inj (ha.symm.trans heq)).1)
    · exact .inr (Except.error.inj (Prod.mk.inj (ha.symm.trans heq)).1)
    · cases ha.symm.trans heq
  · left
    have hverdict : FinancialLedger.verdict e.idempotency.keys e.working p.request.tx = .none := hv
    simp only [SequentialLedger.submit,abs,hkeys,hcap,hwork,hans,hverdict]

namespace Threads

variable {t t' : Threads} {a : AtomicLedger} {act : Action}

structure Simulates (t : Threads) (a : AtomicLedger) : Prop where
  tracks : t.Tracks a.operation
  opened : t.system.engine.walWriter.fdValid = true
  ledger : a.ledger = t.system.engine.abs

def Permits (mayRefuse : Prop) (mayFail : LedgerError → Prop) (t : Threads) : Action → Prop
  | .push p _ => t.system.ring.refused p ≠ none → mayRefuse
  | .writer io torn => t.report = none → ∀ request, t.system.inHand torn = some request →
      t.system.engine.verdict request.tx = .none → t.system.engine.answer ⟨request,io⟩ ≠ .none →
        mayFail (t.system.engine.answer ⟨request,io⟩)
  | _ => True

theorem Simulates.of_engine (h : t.Simulates a) {operation : Nat → Operation}
    (hengine : t'.system.engine = t.system.engine) (htracks : t'.Tracks operation) :
    t'.Simulates { a with operation := operation } :=
  ⟨htracks,hengine ▸ h.opened,hengine ▸ h.ledger⟩

/-- An operation takes effect when the writer processes it; everything else that
happens to it is silent or is its invocation or its response. -/
theorem Simulates.step {mayRefuse : Prop} {mayFail : LedgerError → Prop} (h : t.Simulates a)
    (hb : t'.system.ring.claimed.length < 2^63) (hg : t.Permits mayRefuse mayFail act)
    (hs : t.step act = some t') :
    ∃ b, Simulation.Runs (AtomicLedger.Step mayRefuse mayFail) a (t.event act).toList b ∧
      t'.Simulates b := by
  cases act with
  | allocateTransactionId p =>
    obtain ⟨htracks,hengine⟩ := h.tracks.allocate hs
    exact ⟨a,.refl a,h.of_engine hengine htracks⟩
  | submit p tx now =>
    obtain ⟨hidle,hengine,htracks⟩ := h.tracks.submit hs hb
    exact ⟨_,.single (.invoke _ hidle),h.of_engine hengine htracks⟩
  | push p spurious =>
    obtain ⟨hengine,⟨hnone,htracks⟩ | ⟨r,tx,hsome,hop,htracks⟩⟩ := h.tracks.push hs hb
    · refine ⟨a,?_,h.of_engine hengine htracks⟩
      simp only [event,hnone,Option.map_none,Option.toList_none]
      exact .refl a
    · refine ⟨_,?_,h.of_engine hengine htracks⟩
      simp only [event,hsome,Option.map_some]
      exact .single (.refuse hop (hg (by simp [hsome])))
  | poll p =>
    obtain ⟨htracks,hsystem⟩ := h.tracks.poll hs
    exact ⟨a,.refl a,h.of_engine (by rw [hsystem]) htracks⟩
  | readError p =>
    obtain ⟨hop,hsystem,htracks⟩ := h.tracks.readError hs
    exact ⟨_,.single (.respond hop),h.of_engine (by rw [hsystem]) htracks⟩
  | writer io torn =>
    cases hreport : t.report with
    | some report =>
      obtain ⟨htracks,hsystem⟩ := h.tracks.report hreport hs
      exact ⟨a,.refl a,h.of_engine (by rw [hsystem]) htracks⟩
    | none =>
      cases hhand : t.system.inHand torn with
      | none =>
        obtain ⟨htracks,hengine,-⟩ := h.tracks.pop hreport hhand hs hb
        exact ⟨a,.refl a,h.of_engine hengine htracks⟩
      | some request =>
        obtain ⟨hop,hengine,-,htracks⟩ := h.tracks.process hreport hhand hs
        have hopen : t'.system.engine.walWriter.fdValid = true := by
          rw [hengine]
          exact (process_wal _ h.opened).1
        obtain hsame | ⟨hpass,hne,-,habs⟩ :=
          t.system.engine.process_abs_open ⟨request,io⟩ h.opened
        · rw [← h.ledger] at hsame
          refine ⟨_,.single (.commit hop),?_⟩
          rw [hsame]
          exact ⟨htracks,hopen,by rw [hengine]; rfl⟩
        · refine ⟨_,.single (.fail hop (h.ledger ▸ hpass) (hg hreport request hhand hpass hne)),
            htracks,hopen,?_⟩
          rw [hengine,habs,← h.ledger]
          rfl

theorem step_system (hs : t.step act = some t') :
    t'.system = t.system ∨ ∃ move, t.system.step move = some t'.system := by
  cases act with
  | writer io torn =>
    simp only [step] at hs
    split at hs
    · cases hs
      exact .inl rfl
    · cases hs
      exact .inl rfl
    · obtain ⟨s,hsys,rfl⟩ := Option.map_eq_some_iff.mp hs
      exact .inr ⟨_,hsys⟩
  | poll p =>
    simp only [step] at hs
    split at hs
    · cases hs
      exact .inl (by split <;> rfl)
    · cases hs
  | readError p =>
    simp only [step] at hs
    split at hs
    · cases hs
      exact .inl rfl
    · cases hs
  | _ =>
    simp only [step] at hs
    split at hs
    · obtain ⟨s,hsys,rfl⟩ := Option.map_eq_some_iff.mp hs
      exact .inr ⟨_,hsys⟩
    · cases hs

theorem step_nextTxId (hs : t.step act = some t') : t'.system.nextTxId =
    match act with
    | .allocateTransactionId _ => t.system.nextTxId+1
    | _ => t.system.nextTxId := by
  cases act with
  | allocateTransactionId p =>
    simp only [step,System.step] at hs
    split at hs
    · split at hs
      · cases hs
        rfl
      · cases hs
    · cases hs
  | submit p tx now =>
    simp only [step,System.step] at hs
    split at hs
    · split at hs
      · obtain ⟨s,hsys,rfl⟩ := Option.map_eq_some_iff.mp hs
        obtain ⟨ring,-,rfl⟩ := Option.map_eq_some_iff.mp hsys
        rfl
      · cases hs
    · cases hs
  | push p spurious =>
    simp only [step,System.step] at hs
    split at hs
    · obtain ⟨s,hsys,rfl⟩ := Option.map_eq_some_iff.mp hs
      obtain ⟨ring,-,rfl⟩ := Option.map_eq_some_iff.mp hsys
      dsimp only
      split <;> rfl
    · cases hs
  | poll p =>
    simp only [step] at hs
    split at hs
    · cases hs
      dsimp only
      split <;> rfl
    · cases hs
  | readError p =>
    simp only [step] at hs
    split at hs
    · cases hs
      rfl
    · cases hs
  | writer io torn =>
    simp only [step] at hs
    split at hs
    · cases hs
      rfl
    · cases hs
      rfl
    · obtain ⟨s,hsys,rfl⟩ := Option.map_eq_some_iff.mp hs
      simp only [System.step] at hsys
      split at hsys <;> cases hsys <;> rfl

theorem step_held {q : Nat} {id : TransactionId} (hs : t.step act = some t')
    (hid : id ∈ t.system.held q) (hact : ∀ tx now, act ≠ .submit q tx now) :
    id ∈ t'.system.held q := by
  have hgive : ∀ p ids, id ∈ (t.system.give p (t.system.held p ++ ids)).held q := by
    intro p ids
    rcases eq_or_ne q p with rfl | hne
    · simp [System.give,hid]
    · simp [System.give,hne,hid]
  cases act with
  | allocateTransactionId p =>
    simp only [step,System.step] at hs
    split at hs
    · split at hs
      · cases hs
        exact hgive p _
      · cases hs
    · cases hs
  | submit p tx now =>
    have hne : q ≠ p := fun he => hact tx now (by rw [he])
    simp only [step,System.step] at hs
    split at hs
    · split at hs
      · obtain ⟨s,hsys,rfl⟩ := Option.map_eq_some_iff.mp hs
        obtain ⟨ring,-,rfl⟩ := Option.map_eq_some_iff.mp hsys
        simpa [System.give,hne] using hid
      · cases hs
    · cases hs
  | push p spurious =>
    simp only [step,System.step] at hs
    split at hs
    · obtain ⟨s,hsys,rfl⟩ := Option.map_eq_some_iff.mp hs
      obtain ⟨ring,-,rfl⟩ := Option.map_eq_some_iff.mp hsys
      dsimp only
      split
      · exact hgive p _
      · exact hid
    · cases hs
  | poll p =>
    simp only [step] at hs
    split at hs
    · cases hs
      split <;> exact hid
    · cases hs
  | readError p =>
    simp only [step] at hs
    split at hs
    · cases hs
      exact hid
    · cases hs
  | writer io torn =>
    simp only [step] at hs
    split at hs
    · cases hs
      exact hid
    · cases hs
      exact hid
    · obtain ⟨s,hsys,rfl⟩ := Option.map_eq_some_iff.mp hs
      simp only [System.step] at hsys
      split at hsys <;> cases hsys <;> exact hid

theorem step_ring (hs : t.step act = some t') : t'.system.ring = t.system.ring ∨
    ∃ move, t.system.ring.step move = some t'.system.ring := by
  obtain hsame | ⟨move,hmove⟩ := step_system hs
  · exact .inl (by rw [hsame])
  · obtain ⟨-,-,hring⟩ | ⟨io,torn,request,-,-,-,-,hring⟩ := System.step_cases hmove
    · exact hring
    · exact .inl hring

theorem step_claimed (hs : t.step act = some t') :
    t.system.ring.claimed.length ≤ t'.system.ring.claimed.length := by
  obtain hsame | ⟨move,hmove⟩ := step_ring hs
  · rw [hsame]
  · exact (RingBuffer.Ring.claimed_prefix_step hmove).length_le

theorem step_claimed_le (hs : t.step act = some t') :
    t'.system.ring.claimed.length ≤ t.system.ring.claimed.length+1 := by
  obtain hsame | ⟨move,hmove⟩ := step_ring hs
  · rw [hsame]
    omega
  · exact RingBuffer.Ring.step_claimed_le hmove

theorem start_simulates {k : Nat} (hk : 1 ≤ k) (hk' : k ≤ 63) (hash : IdempotencyKey → UInt64)
    {config : Config} (hcapacity : config.ringBufferCapacity = 2^k) (seed : LedgerState) :
    (start hash config seed).Simulates (AtomicLedger.start config seed) := by
  refine ⟨⟨?_,Nat.le_refl _,fun p => .ready rfl rfl rfl rfl⟩,rfl,?_⟩
  · show (RingBuffer.Ring.new config.ringBufferCapacity).Inv
    rw [hcapacity]
    exact RingBuffer.Ring.Inv.new hk hk'
  · show _ = SequentialLedger.mk _ (seeded hash config .empty seed).idempotency.keys seed
    rw [seeded_keys]
    rfl

section ClosedLoop

theorem outstanding_length_le {p : Nat} {v : View} {operation : Operation}
    (h : v.Stage p operation) : v.outstanding.length ≤ 1 := by
  cases hout : v.outstanding with
  | nil => simp
  | cons r rest =>
    obtain ⟨-,hrest,-⟩ := h.of_outstanding hout
    simp [hrest]

theorem count_completion (t : Threads) (q : Nat) :
    ((t.system.ring.claimed.drop t.system.handled).map PendingRequest.completion).count q =
      (t.outstanding q).length := by
  rw [List.count_eq_countP,List.countP_map,List.countP_eq_length_filter]
  rfl

theorem Tracks.waiting_le {operation : Nat → Operation} (h : t.Tracks operation) {l : List Nat}
    (hl : ∀ q, t.outstanding q ≠ [] → q ∈ l) :
    t.system.ring.claimed.length-t.system.handled ≤ l.length := by
  have hnodup : ((t.system.ring.claimed.drop t.system.handled).map
      PendingRequest.completion).Nodup := by
    rw [List.nodup_iff_count_le_one]
    intro q
    rw [count_completion]
    exact outstanding_length_le (h.stage q)
  have hsub : (t.system.ring.claimed.drop t.system.handled).map PendingRequest.completion ⊆ l := by
    intro q hq
    rw [← List.count_pos_iff,count_completion] at hq
    exact hl q (List.ne_nil_of_length_pos hq)
  have hle := (List.subperm_of_subset hnodup hsub).length_le
  rwa [List.length_map,List.length_drop] at hle

theorem Tracks.lt_of_outstanding {operation : Nat → Operation} (h : t.Tracks operation)
    {n q : Nat} (hn : ∀ q, n ≤ q → t.client q = .ready) (hq : t.outstanding q ≠ []) : q < n := by
  by_contra hge
  exact hq ((h.stage q).of_ready (hn q (Nat.not_lt.mp hge))).2.2.1

theorem Tracks.waiting_lt {operation : Nat → Operation} (h : t.Tracks operation) {n p : Nat}
    (hn : ∀ q, n ≤ q → t.client q = .ready) (hp : p < n) (hout : t.outstanding p = []) :
    t.system.ring.claimed.length-t.system.handled < n := by
  have hle := h.waiting_le (l := (List.range n).erase p) (fun q hq => by
    have hne : q ≠ p := fun he => hq (he ▸ hout)
    exact (List.mem_erase_of_ne hne).mpr (List.mem_range.mpr (h.lt_of_outstanding hn hq)))
  rw [List.length_erase_of_mem (List.mem_range.mpr hp),List.length_range] at hle
  omega

/-- No more clients than cells: nobody finds the queue full. -/
theorem Tracks.not_refused {operation : Nat → Operation} (h : t.Tracks operation) {n p : Nat}
    (hn : ∀ q, n ≤ q → t.client q = .ready) (hcells : n ≤ t.system.ring.mask+1)
    (hb : t.system.ring.claimed.length+(t.system.ring.mask+1) ≤ 2^63)
    (hp : t.client p = .calling) : t.system.ring.refused p = none := by
  cases hrefused : t.system.ring.refused p with
  | none => rfl
  | some item =>
    unfold RingBuffer.Ring.refused at hrefused
    split at hrefused
    · case h_1 item' pos hpc =>
      split at hrefused
      · case isTrue hd =>
        obtain ⟨k,-,hlaps⟩ := h.ring.laps (by omega)
        have hpos := h.ring.positions p
        simp only [RingBuffer.Ring.Positions,hpc] at hpos
        have hbehind := h.ring.behind
        have hfull := hlaps.full_of_diff_neg (by omega) (by omega) hpos hd
        have hlt : p < n := by
          by_contra hge
          cases hp.symm.trans (hn p (Nat.not_lt.mp hge))
        have hout : t.outstanding p = [] := by
          obtain ⟨-,-,r,-,⟨-,-,hout⟩ | ⟨pos',hclaim,-⟩⟩ := (h.stage p).of_calling hp
          · exact hout
          · simp [view,hpc,RingBuffer.Producer.claim] at hclaim
        have hfew := h.waiting_lt hn hlt hout
        have hserved := h.served
        omega
      · cases hrefused
    · cases hrefused

end ClosedLoop

section Linearizable

variable {hash : IdempotencyKey → UInt64} {config : Config} {seed : LedgerState} {k : Nat}
  {acts : List Action}

theorem exec_simulates_trace (hk : 1 ≤ k) (hk' : k ≤ 63)
    (hcapacity : config.ringBufferCapacity = 2^k)
    (hrun : StepRun.exec step (start hash config seed) acts = some t)
    (hb : t.system.ring.claimed.length < 2^63) :
    ∃ a, Simulation.Runs (AtomicLedger.Step True IoError) (.start config seed)
        (Simulation.trace step event (start hash config seed) acts) a ∧ t.Simulates a := by
  have hsmall := StepRun.guarded_below
    (fun (s : Threads) b u (hu : s.step b = some u) => step_claimed hu) hrun hb
  have hsim : ∀ (s : Threads) b u c, s.Simulates c →
      (∀ u, s.step b = some u → u.system.ring.claimed.length < 2^63) → s.step b = some u →
      ∃ d, Simulation.Runs (AtomicLedger.Step True IoError) c (s.event b).toList d ∧
        u.Simulates d := by
    intro s b u c hs hbound hu
    refine hs.step (hbound u hu) ?_ hu
    cases b with
    | push p spurious => exact fun _ => trivial
    | writer io torn =>
      intro _ request _ hv hne
      obtain hsame | ⟨-,-,herror,-⟩ := s.system.engine.process_abs_open ⟨request,io⟩ hs.opened
      · exact absurd ((congrArg Prod.fst hsame).symm.trans hv) hne
      · exact herror
    | _ => trivial
  exact Simulation.exec_runs Simulates hsim (start_simulates hk hk' hash hcapacity seed) hsmall
    hrun

/-- Whatever the threads do, and whatever the kernel answers, the clients see a run of
the atomic ledger, in which operations may be turned away by a full queue or fail
after the checks with an error of the log. -/
theorem linearizable (hk : 1 ≤ k) (hk' : k ≤ 63) (hcapacity : config.ringBufferCapacity = 2^k)
    (hrun : StepRun.exec step (start hash config seed) acts = some t)
    (hb : t.system.ring.claimed.length < 2^63) :
    ∃ a, Simulation.Runs (AtomicLedger.Step True IoError) (.start config seed)
        (Simulation.trace step event (start hash config seed) acts) a ∧
      a.ledger = t.system.engine.abs := by
  obtain ⟨a,ha,hsim⟩ := exec_simulates_trace hk hk' hcapacity hrun hb
  exact ⟨a,ha,hsim.ledger⟩

def Processing (guard : LedgerEngine → Popped → Prop) (t : Threads) : Action → Prop
  | .writer io torn => t.report = none → t.system.Processing guard (.writer io torn)
  | _ => True

instance (guard : LedgerEngine → Popped → Prop) [∀ e p, Decidable (guard e p)] (t : Threads) :
    ∀ act, Decidable (t.Processing guard act)
  | .writer io torn => inferInstanceAs
      (Decidable (t.report = none → t.system.Processing guard (.writer io torn)))
  | .allocateTransactionId _ => .isTrue trivial
  | .submit _ _ _ => .isTrue trivial
  | .push _ _ => .isTrue trivial
  | .poll _ => .isTrue trivial
  | .readError _ => .isTrue trivial

def Action.Among (n : Nat) : Action → Prop
  | .submit p _ _ => p < n
  | _ => True

instance (n : Nat) : ∀ act, Decidable (Action.Among n act)
  | .submit p _ _ => inferInstanceAs (Decidable (p < n))
  | .writer _ _ => .isTrue trivial
  | .allocateTransactionId _ => .isTrue trivial
  | .push _ _ => .isTrue trivial
  | .poll _ => .isTrue trivial
  | .readError _ => .isTrue trivial

structure ClosedLoop (n k : Nat) (t : Threads) : Prop where
  others : ∀ q, n ≤ q → t.client q = .ready
  cells : t.system.ring.mask+1 = 2^k

theorem step_ready {q : Nat} (hs : t.step act = some t') (hq : t.client q = .ready)
    (hact : ∀ tx now, act ≠ .submit q tx now) : t'.client q = .ready := by
  cases act with
  | allocateTransactionId p =>
    simp only [step] at hs
    split at hs
    · obtain ⟨s,hsys,rfl⟩ := Option.map_eq_some_iff.mp hs
      exact hq
    · cases hs
  | submit p tx now =>
    obtain ⟨-,hclient,-⟩ := step_submit hs
    have hne : q ≠ p := fun he => hact tx now (by rw [he])
    rw [hclient,Function.update_of_ne hne,hq]
  | push p spurious =>
    obtain ⟨hcalling,hclient,-⟩ := step_push hs
    have hne : q ≠ p := by
      rintro rfl
      cases hq.symm.trans hcalling
    rw [hclient,Function.update_of_ne hne,hq]
  | poll p =>
    simp only [step] at hs
    split at hs
    · case h_1 hwaiting =>
      cases hs
      have hne : q ≠ p := by
        rintro rfl
        cases hq.symm.trans hwaiting
      split
      · exact (Function.update_of_ne hne ..).trans hq
      · exact hq
    · cases hs
  | readError p =>
    simp only [step] at hs
    split at hs
    · cases hs
      rcases eq_or_ne q p with rfl | hne
      · exact Function.update_self ..
      · exact (Function.update_of_ne hne ..).trans hq
    · cases hs
  | writer io torn =>
    simp only [step] at hs
    split at hs
    · cases hs
      exact hq
    · cases hs
      exact hq
    · obtain ⟨s,hsys,rfl⟩ := Option.map_eq_some_iff.mp hs
      exact hq

theorem exec_others {n : Nat} {s : Threads} (hs : ∀ q, n ≤ q → s.client q = .ready)
    (hclients : ∀ act ∈ acts, act.Among n) (hrun : StepRun.exec step s acts = some t) :
    ∀ q, n ≤ q → t.client q = .ready := by
  refine StepRun.exec_invariant (fun s : Threads => ∀ q, n ≤ q → s.client q = .ready) ?_ hs
    (StepRun.guarded_of_mem step hclients s) hrun
  intro s act u hs hact hu q hq
  refine step_ready hu (hs q hq) ?_
  rintro tx now rfl
  exact absurd hact (Nat.not_lt.mpr hq)

theorem ClosedLoop.step {n : Nat} (h : ClosedLoop n k t) (hact : act.Among n)
    (hs : t.step act = some t') : ClosedLoop n k t' := by
  refine ⟨fun q hq => step_ready hs (h.others q hq) ?_,?_⟩
  · rintro tx now rfl
    exact absurd hact (Nat.not_lt.mpr hq)
  · obtain hsame | ⟨move,hmove⟩ := step_ring hs
    · rw [hsame]
      exact h.cells
    · rw [RingBuffer.Ring.step_mask hmove]
      exact h.cells

/-- With no more clients than cells and a log that takes its records, no operation is
turned away and none fails: the clients see the ledger itself. -/
theorem linearizable_closed_loop (hk : 1 ≤ k) (hk' : k ≤ 63)
    (hcapacity : config.ringBufferCapacity = 2^k) {n : Nat} (hn : n ≤ 2^k)
    (hrun : StepRun.exec step (start hash config seed) acts = some t)
    (hclients : ∀ act ∈ acts, act.Among n)
    (hio : StepRun.Guarded step (Processing ErrorFree) (start hash config seed) acts)
    (hb : t.system.ring.claimed.length+2^k ≤ 2^63) :
    ∃ a, Simulation.Runs (AtomicLedger.Step False (fun _ => False)) (.start config seed)
        (Simulation.trace step event (start hash config seed) acts) a ∧
      a.ledger = t.system.engine.abs := by
  have hpos : 0 < 2^k := Nat.two_pow_pos k
  have hsmall := StepRun.guarded_below (n := 2^63-2^k+1)
    (fun (s : Threads) b u (hu : s.step b = some u) => step_claimed hu) hrun (by omega)
  have hsim : ∀ (s : Threads) b u c, s.Simulates c ∧ ClosedLoop n k s →
      ((∀ u, s.step b = some u → u.system.ring.claimed.length < 2^63-2^k+1) ∧ b.Among n) ∧
        s.Processing ErrorFree b → s.step b = some u →
      ∃ d, Simulation.Runs (AtomicLedger.Step False (fun _ => False)) c (s.event b).toList d ∧
        u.Simulates d ∧ ClosedLoop n k u := by
    rintro s b u c ⟨hs,hloop⟩ ⟨⟨hbound,hamong⟩,hfree⟩ hu
    have hafter := hbound u hu
    have hbefore := step_claimed hu
    have hpermits : s.Permits False (fun _ => False) b := by
      cases b with
      | push p spurious =>
        intro hrefused
        obtain ⟨hcalling,-⟩ := step_push hu
        have hcells := hloop.cells
        exact hrefused (hs.tracks.not_refused hloop.others (by omega) (by omega) hcalling)
      | writer io torn =>
        intro hreport request hhand hv hne
        have hans := (process_errorFree hs.opened (hfree hreport request hhand)).1
        exact hne (hans.trans hv)
      | _ => trivial
    obtain ⟨d,hd,hnext⟩ := hs.step (by omega) hpermits hu
    exact ⟨d,hd,hnext,hloop.step hamong hu⟩
  have hstart : ClosedLoop n k (start hash config seed) := by
    refine ⟨fun _ _ => rfl,?_⟩
    show config.ringBufferCapacity-1+1 = 2^k
    omega
  obtain ⟨a,ha,hend,-⟩ := Simulation.exec_runs (fun s c => s.Simulates c ∧ ClosedLoop n k s) hsim
    ⟨start_simulates hk hk' hash hcapacity seed,hstart⟩
    ((hsmall.and (StepRun.guarded_of_mem step hclients _)).and hio) hrun
  exact ⟨a,ha,hend.ledger⟩

end Linearizable

section Sample

def sampleThreads : Threads := start (fun _ => 0) sampleConfig sampleChart

def writes : Action := .writer ⟨17,.accepts 4096,true⟩ ⟨samplePayment 0,0⟩

def payAndWait : List Action :=
  [.allocateTransactionId 1,.submit 1 (samplePayment 1) 3] ++ List.replicate 6 (.push 1 false) ++
    .poll 1 :: List.replicate 6 writes ++ [.poll 1,.readError 1]

def stampedPayment : Transaction := { samplePayment 1 with createdAtNs := 3 }

theorem exists_payAndWait : ∃ t, StepRun.exec step sampleThreads payAndWait = some t ∧
    t.system.ring.claimed.length = 1 ∧
    Simulation.trace step event sampleThreads payAndWait =
      [.invoke 1 stampedPayment,.respond 1 .none] := by
  have hrun : (StepRun.exec step sampleThreads payAndWait).map
      (fun t => t.system.ring.claimed.length) = some 1 := by decide +kernel
  obtain ⟨t,ht,hone⟩ := Option.map_eq_some_iff.mp hrun
  exact ⟨t,ht,hone,by decide +kernel⟩

theorem linearizable_payment :
    ∃ a, Simulation.Runs (AtomicLedger.Step True IoError) (.start sampleConfig sampleChart)
      [.invoke 1 stampedPayment,.respond 1 .none] a := by
  obtain ⟨t,ht,hone,htrace⟩ := exists_payAndWait
  obtain ⟨a,ha,-⟩ := linearizable (k := 12) (by decide) (by decide) rfl ht (by omega)
  exact ⟨a,htrace ▸ ha⟩

theorem linearizable_closed_loop_payment :
    ∃ a, Simulation.Runs (AtomicLedger.Step False (fun _ => False))
      (.start sampleConfig sampleChart) [.invoke 1 stampedPayment,.respond 1 .none] a := by
  obtain ⟨t,ht,hone,htrace⟩ := exists_payAndWait
  obtain ⟨a,ha,-⟩ := linearizable_closed_loop (k := 12) (n := 2) (by decide) (by decide) rfl
    (by decide) ht (by decide) (by decide +kernel) (by rw [hone]; decide)
  exact ⟨a,htrace ▸ ha⟩

end Sample

end Threads

end FinancialLedger
