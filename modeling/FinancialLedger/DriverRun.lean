import FinancialLedger.Driver
set_option autoImplicit false

/-!
The demo prints the same numbers in every interleaving.
-/

namespace FinancialLedger
open PosixFile Wal Recovery LedgerEngine

def driverRequest (id : TransactionId) (now : Int64) : Transaction :=
  { driverPayment id with createdAtNs := now }

structure LedgerState.Paid (s : LedgerState) (k : Nat) : Prop where
  cash : s.findAccount kCash = some ⟨kCash,.asset,Int64.ofInt (-10*k),50000⟩
  revenue : s.findAccount kRevenue = some ⟨kRevenue,.revenue,Int64.ofInt (-10*k),0⟩
  others : ∀ id, id ≠ kCash → id ≠ kRevenue → s.findAccount id = none

section Payments

variable {s : LedgerState} {k : Nat} {id : TransactionId} {now : Int64}

theorem findAccount_ofAccounts (accounts : List Account) (id : AccountId) :
    (LedgerState.ofAccounts accounts).findAccount id = accounts.find? (fun a => a.id = id) := by
  have hempty : LedgerState.empty.findAccount id = none := Finmap.lookup_empty id
  rw [LedgerState.ofAccounts,LedgerState.findAccount_foldl_addAccount,hempty,Option.none_or]

theorem driverChart_paid : driverChart.Paid 0 := by
  refine ⟨by decide,by decide,fun id hcash hrevenue => ?_⟩
  simp [driverChart,findAccount_ofAccounts,hcash.symm,hrevenue.symm]

def paidAccounts (k : Nat) : List Account :=
  [⟨kRevenue,.revenue,Int64.ofInt (-10*k),0⟩,⟨kCash,.asset,Int64.ofInt (-10*k),50000⟩]

theorem LedgerState.Paid.accounts_eq (h : s.Paid k) :
    s.accounts = (LedgerState.ofAccounts (paidAccounts k)).accounts := by
  refine Finmap.ext_lookup (fun id => ?_)
  refine Eq.trans ?_ (findAccount_ofAccounts _ id).symm
  rcases eq_or_ne id kRevenue with rfl | hrevenue
  · exact h.revenue
  · rcases eq_or_ne id kCash with rfl | hcash
    · exact h.cash
    · refine (h.others id hcash hrevenue).trans ?_
      simp [paidAccounts,hcash.symm,hrevenue.symm]

theorem LedgerState.Paid.exists_written (h : s.Paid k) (walOffset : UInt64) :
    ∃ f, Snapshot.Written s walOffset f :=
  Snapshot.exists_written ⟨[⟨kCash,.asset,Int64.ofInt (-10*k),50000⟩,
    ⟨kRevenue,.revenue,Int64.ofInt (-10*k),0⟩],by rw [h.accounts_eq]; rfl⟩ walOffset
    (show Snapshot.kHeaderSize+2*Snapshot.kRecordSize ≤ maxRwCount by decide)

theorem driverRequest_legs (id : TransactionId) (now : Int64) :
    (driverRequest id now).legs.span = [⟨kRevenue,.debit,10⟩,⟨kCash,.credit,10⟩] := rfl

theorem driverRequest_shape (id : TransactionId) (now : Int64) :
    validateTransactionShape (driverRequest id now) = .ok () := by
  show validateTransactionShape (driverPayment 0) = .ok ()
  decide

theorem ofInt_sub_ten (k : Nat) :
    Int64.ofInt (-10*k)+(-10 : Int64) = Int64.ofInt (-10*(k+1 : Nat)) := by
  have hten : (-10 : Int64) = Int64.ofInt (-10) := by decide
  rw [hten,← Int64.ofInt_add]
  congr 1
  omega

theorem driverRequest_delta (id : TransactionId) (now : Int64) :
    legsDelta .asset kCash (driverRequest id now).legs.span = -10 ∧
      legsDelta .revenue kRevenue (driverRequest id now).legs.span = -10 := by
  rw [driverRequest_legs]
  decide

theorem LedgerState.Paid.exists_accounts (h : s.Paid k) :
    ∀ leg ∈ (driverRequest id now).legs.span, (s.findAccount leg.accountId).isSome := by
  simp [driverRequest_legs,h.cash,h.revenue]

theorem LedgerState.Paid.affordable (h : s.Paid k) (hk : k < 5000) :
    validateTransactionAgainstState (driverRequest id now) s.findAccount = .ok () := by
  refine validateTransactionAgainstState_iff.mpr ⟨h.exists_accounts,?_⟩
  simp only [driverRequest_legs,List.forall_mem_cons]
  refine ⟨?_,?_,by simp⟩
  · intro a ha hnormal
    rw [h.revenue] at ha
    cases ha
    cases hnormal
  · intro a ha _
    rw [h.cash] at ha
    cases ha
    have hfloor : (-(50000 : Int64)).toInt = -50000 := by decide
    rw [← driverRequest_legs id now,Account.post,(driverRequest_delta id now).1,ofInt_sub_ten,
      Int64.lt_iff_toInt_lt,Int64.toInt_ofInt_of_le (by omega) (by omega),hfloor]
    omega

theorem LedgerState.Paid.verdict_eq_none (h : s.Paid k) (hk : k < 5000)
    {keys : List IdempotencyKey} (hkey : ⟨id,id⟩ ∉ keys) :
    verdict keys s (driverRequest id now) = .none :=
  FinancialLedger.verdict_eq_none.mpr ⟨hkey,driverRequest_shape id now,h.affordable hk⟩

theorem LedgerState.Paid.apply (h : s.Paid k) :
    LedgerState.Paid (s.apply (driverRequest id now)).2 (k+1) := by
  have hfind := (s.apply_spec (driverRequest id now) h.exists_accounts).2.2
  obtain ⟨hcash,hrevenue⟩ := driverRequest_delta id now
  refine ⟨?_,?_,fun id hne hne' => ?_⟩
  · rw [hfind,h.cash,Option.map_some,Account.post,hcash,ofInt_sub_ten]
  · rw [hfind,h.revenue,Option.map_some,Account.post,hrevenue,ofInt_sub_ten]
  · rw [hfind,h.others id hne hne',Option.map_none]

end Payments

/-- What a producer's point in its loop says about its operation. -/
def ProducerPoint.Agrees : ProducerPoint → Operation → Prop
  | .top, op => op = .idle
  | .allocated _, op => op = .idle
  | .submitted, .idle => False
  | .submitted, .invoked tx => ∃ id now, tx = driverRequest id now
  | .submitted, .answered error => error = .none
  | .counting accepted, op => accepted = true ∧ op = .idle
  | .ended, op => op = .idle

def ProducerPoint.status : ProducerPoint → Operation → Status
  | .top, _ => .resting
  | .allocated id, _ => .live id
  | .submitted, .idle => .settled
  | .submitted, .invoked tx => .live tx.id
  | .submitted, .answered _ => .settled
  | .counting _, _ => .settled
  | .ended, _ => .ended

def MainPoint.over : MainPoint → Prop
  | .testing => False
  | .processing _ => False
  | .draining _ => True
  | .printing => True

namespace Driver

variable {stdHash : UInt64 → UInt64} {d d' : Driver} {operation : Nat → Operation}
  {ps : List Popped} {p : Nat}

def books (d : Driver) (operation : Nat → Operation) : Books where
  status := fun p => (d.point p).status (operation p)
  i := d.i
  next := d.threads.system.nextTxId
  keys := d.threads.system.engine.idempotency.keys
  committed := d.threads.system.handled
  accepted := d.accepted
  finished := d.producersFinished

def firstEngine (stdHash : UInt64 → UInt64) : LedgerEngine :=
  .seeded (idempotencyKeyHash stdHash) driverConfig .empty driverChart

/-- The engine has committed everything it has processed. -/
structure Pays (stdHash : UInt64 → UInt64) (t : Threads) (ps : List Popped) : Prop where
  engine : t.system.engine = (firstEngine stdHash).processAll ps
  errorFree : StepRun.Along process ErrorFree (firstEngine stdHash) ps
  opened : t.system.engine.walWriter.fdValid = true
  room : t.system.engine.wal.bytes.length ≤ ps.length*kMaxRecordSize
  commits : ((firstEngine stdHash).committed ps).length = ps.length
  handled : t.system.handled = ps.length
  paid : t.system.engine.working.Paid ps.length

/-- The threads of the demo are where their operations are, and the books agree. -/
structure Pace (d : Driver) (operation : Nat → Operation) : Prop where
  points : ∀ p, (d.point p).Agrees (operation p)
  others : ∀ p, kProducers ≤ p → d.point p = .top
  held : ∀ p id, d.point p = .allocated id → id ∈ d.threads.system.held p
  books : (d.books operation).Balanced
  rejected : d.rejected = 0
  joined : d.main.over → kProducers ≤ d.producersFinished

structure Follows (stdHash : UInt64 → UInt64) (d : Driver) (operation : Nat → Operation)
    (ps : List Popped) : Prop where
  tracks : d.threads.Tracks operation
  loop : Threads.ClosedLoop kProducers 10 d.threads
  pays : Pays stdHash d.threads ps
  pace : d.Pace operation

theorem Pays.of_engine {t t' : Threads} (h : Pays stdHash t ps)
    (hengine : t'.system.engine = t.system.engine)
    (hhandled : t'.system.handled = t.system.handled) : Pays stdHash t' ps := by
  obtain ⟨h1,h2,h3,h4,h5,h6,h7⟩ := h
  rw [← hengine] at h1 h3 h4 h7
  rw [← hhandled] at h6
  exact ⟨h1,h2,h3,h4,h5,h6,h7⟩

theorem Follows.claimed_le (h : Follows stdHash d operation ps) :
    d.threads.system.ring.claimed.length ≤ 2004 := by
  have hle := h.tracks.waiting_le (l := List.range kProducers) (fun q hq =>
    List.mem_range.mpr (h.tracks.lt_of_outstanding h.loop.others hq))
  rw [List.length_range] at hle
  have hcommitted : d.threads.system.handled ≤ d.threads.system.nextTxId.toNat :=
    h.pace.books.committed_le
  have hnext : d.threads.system.nextTxId.toNat ≤ kProducers*kTxPerProducer :=
    h.pace.books.next_le
  have hall : kProducers*kTxPerProducer = 2000 := by decide
  have hproducers : kProducers = 4 := rfl
  omega

theorem Follows.bound (h : Follows stdHash d operation ps) {act : Threads.Action} {t : Threads}
    (hs : d.threads.step act = some t) : t.system.ring.claimed.length < 2^63 := by
  have := h.claimed_le
  have := Threads.step_claimed_le hs
  omega

/-- Four producers and 1024 cells: `try_push` never finds the queue full. -/
theorem Follows.push (h : Follows stdHash d operation ps) {spurious : Bool} {t : Threads}
    (hs : d.threads.step (.push p spurious) = some t) :
    t.Tracks operation ∧ t.client p ≠ .ready ∧ t.system.engine = d.threads.system.engine ∧
      t.system.handled = d.threads.system.handled := by
  obtain ⟨hcalling,hclient,-,-,hengine,hhandled,-⟩ := Threads.step_push hs
  have hcells := h.loop.cells
  have hsmall := h.claimed_le
  have hrefused := h.tracks.not_refused h.loop.others (by rw [hcells]; decide) (by omega) hcalling
  obtain ⟨-,⟨-,htracks⟩ | ⟨r,tx,hsome,-⟩⟩ := h.tracks.push hs (h.bound hs)
  · refine ⟨htracks,?_,hengine,hhandled⟩
    rw [hclient,Function.update_self]
    unfold Threads.afterPush
    rw [hrefused]
    split
    · case h_1 heq => cases heq
    · exact nofun
    · exact nofun
  · cases hsome.symm.trans hrefused

theorem status_update (point : Nat → ProducerPoint) (operation : Nat → Operation) (p : Nat)
    (next : ProducerPoint) (op : Operation) :
    (fun q => (Function.update point p next q).status (Function.update operation p op q)) =
      Function.update (fun q => (point q).status (operation q)) p (next.status op) := by
  funext q
  rcases eq_or_ne q p with rfl | hne
  · simp
  · simp [hne]

theorem Pace.move (h : d.Pace operation) (hp : p < kProducers) {next : ProducerPoint}
    {op : Operation} (hpoint : d'.point = Function.update d.point p next)
    (hagrees : next.Agrees op)
    (hheld : ∀ q id, d'.point q = .allocated id → id ∈ d'.threads.system.held q)
    (hrejected : d'.rejected = d.rejected) (hmain : d'.main = d.main)
    (hfinished : d.producersFinished ≤ d'.producersFinished)
    (hbooks : Books.Balanced { d'.books operation with
      status := Function.update (d.books operation).status p (next.status op) }) :
    d'.Pace (Function.update operation p op) := by
  refine ⟨fun q => ?_,fun q hq => ?_,hheld,?_,hrejected.trans h.rejected,fun hover => ?_⟩
  · rcases eq_or_ne q p with rfl | hne
    · simpa only [hpoint,Function.update_self] using hagrees
    · simpa only [hpoint,Function.update_of_ne hne] using h.points q
  · rw [hpoint,Function.update_of_ne (by omega)]
    exact h.others q hq
  · unfold Driver.books at hbooks ⊢
    rwa [hpoint,status_update]
  · rw [hmain] at hover
    exact Nat.le_trans (h.joined hover) hfinished

theorem Pace.held_step (h : d.Pace operation) {act : Threads.Action} {t : Threads}
    (hs : d.threads.step act = some t) {next : ProducerPoint}
    (hpoint : d'.point = Function.update d.point p next) (hthreads : d'.threads = t)
    (hnext : ∀ id, next = .allocated id → id ∈ t.system.held p)
    (hact : ∀ q tx now, q ≠ p → act ≠ .submit q tx now) :
    ∀ q id, d'.point q = .allocated id → id ∈ d'.threads.system.held q := by
  intro q id hq
  rw [hthreads]
  rcases eq_or_ne q p with rfl | hne
  · rw [hpoint,Function.update_self] at hq
    exact hnext id hq
  · rw [hpoint,Function.update_of_ne hne] at hq
    exact Threads.step_held hs (h.held q id hq) (fun tx now => hact q tx now hne)

theorem Follows.allocate (h : Follows stdHash d operation ps) (hp : p < kProducers)
    (hpoint : d.point p = .top) (hi : d.i p < kTxPerProducer) {t : Threads}
    (hs : d.threads.step (.allocateTransactionId p) = some t) :
    Follows stdHash { d.goto p (.allocated (d.threads.system.nextTxId+1)) with threads := t }
      (Function.update operation p .idle) ps := by
  obtain ⟨-,-,-,hengine,hhandled,-,hdrawn⟩ := Threads.step_allocate hs
  have hidle : operation p = .idle := by simpa [hpoint,ProducerPoint.Agrees] using h.pace.points p
  have hnext := Threads.step_nextTxId hs
  refine ⟨?_,h.loop.step (by trivial) hs,h.pays.of_engine hengine hhandled,?_⟩
  · rw [← hidle,Function.update_eq_self]
    exact (h.tracks.allocate hs).1
  · refine h.pace.move hp rfl rfl ?_ rfl rfl (Nat.le_refl _) ?_
    · exact h.pace.held_step hs rfl rfl (by rintro id ⟨⟩; exact hdrawn) (fun _ _ _ _ => nofun)
    · simp only [books,goto,hengine,hhandled,hnext]
      exact h.pace.books.allocate hp (by simp [books,hpoint,ProducerPoint.status]) hi

theorem Follows.submit (h : Follows stdHash d operation ps) (hp : p < kProducers) {id : TransactionId}
    (hpoint : d.point p = .allocated id) {now : Int64} {t : Threads}
    (hs : d.threads.step (.submit p (driverPayment id) now) = some t) :
    Follows stdHash { d.goto p .submitted with threads := t }
      (Function.update operation p (.invoked (driverRequest id now))) ps := by
  obtain ⟨-,hengine,htracks⟩ := h.tracks.submit hs (h.bound hs)
  obtain ⟨-,-,-,-,-,hhandled,-⟩ := Threads.step_submit hs
  have hnext := Threads.step_nextTxId hs
  refine ⟨htracks,h.loop.step (by exact hp) hs,h.pays.of_engine hengine hhandled,?_⟩
  refine h.pace.move hp rfl ⟨id,now,rfl⟩ ?_ rfl rfl (Nat.le_refl _) ?_
  · exact h.pace.held_step hs rfl rfl nofun (fun q _ _ hq he => by cases he; exact hq rfl)
  · simp only [books,goto,hengine,hhandled,hnext]
    exact h.pace.books.stay (by simp only [books,hpoint]; rfl)

theorem Follows.stays (h : Follows stdHash d operation ps) {act : Threads.Action} {t : Threads}
    (hs : d.threads.step act = some t) (hact : ∀ q tx now, act ≠ .submit q tx now)
    (hloop : act.Among kProducers) (htracks : t.Tracks operation)
    (hengine : t.system.engine = d.threads.system.engine)
    (hhandled : t.system.handled = d.threads.system.handled)
    (hnext : t.system.nextTxId = d.threads.system.nextTxId) :
    Follows stdHash { d with threads := t } operation ps := by
  refine ⟨htracks,h.loop.step hloop hs,h.pays.of_engine hengine hhandled,h.pace.points,
    h.pace.others,?_,?_,h.pace.rejected,h.pace.joined⟩
  · exact fun q id hq => Threads.step_held hs (h.pace.held q id hq) (hact q)
  · simp only [books,hengine,hhandled,hnext]
    exact h.pace.books

theorem Follows.pushes (h : Follows stdHash d operation ps) (hpoint : d.point p = .submitted)
    {spurious : Bool} {t : Threads} (hs : d.threads.step (.push p spurious) = some t) :
    Follows stdHash { d.goto p (if t.client p = .ready then .counting false else .submitted) with
      threads := t } operation ps := by
  obtain ⟨htracks,hready,hengine,hhandled⟩ := h.push hs
  rw [if_neg hready,goto,← hpoint,Function.update_eq_self]
  exact h.stays hs (fun _ _ _ => nofun) (by trivial) htracks hengine hhandled
    (Threads.step_nextTxId hs)

theorem Follows.polls (h : Follows stdHash d operation ps) {t : Threads}
    (hs : d.threads.step (.poll p) = some t) : Follows stdHash { d with threads := t } operation ps := by
  obtain ⟨htracks,hsystem⟩ := h.tracks.poll hs
  exact h.stays hs (fun _ _ _ => nofun) (by trivial) htracks (by rw [hsystem]) (by rw [hsystem])
    (by rw [hsystem])

theorem Follows.readError (h : Follows stdHash d operation ps) (hp : p < kProducers)
    (hpoint : d.point p = .submitted) {t : Threads}
    (hs : d.threads.step (.readError p) = some t) :
    Follows stdHash
      { d.goto p (.counting ((d.threads.completion p).error = .none)) with threads := t }
      (Function.update operation p .idle) ps := by
  obtain ⟨hop,hsystem,htracks⟩ := h.tracks.readError hs
  have hnone : (d.threads.completion p).error = .none := by
    simpa [hpoint,hop,ProducerPoint.Agrees] using h.pace.points p
  refine ⟨htracks,h.loop.step (by trivial) hs,
    h.pays.of_engine (by rw [hsystem]) (by rw [hsystem]),?_⟩
  refine h.pace.move hp rfl ⟨decide_eq_true hnone,rfl⟩ ?_ rfl rfl (Nat.le_refl _) ?_
  · exact h.pace.held_step hs rfl rfl nofun (fun _ _ _ _ => nofun)
  · simp only [books,goto,hsystem]
    exact h.pace.books.stay (by simp only [books,hpoint,hop]; rfl)

theorem Follows.counts (h : Follows stdHash d operation ps) (hp : p < kProducers)
    {next : ProducerPoint} (hthreads : d'.threads = d.threads)
    (hpoint : d'.point = Function.update d.point p next) (hagrees : next.Agrees (operation p))
    (hnext : ∀ id, next ≠ .allocated id) (hrejected : d'.rejected = d.rejected)
    (hmain : d'.main = d.main) (hfinished : d.producersFinished ≤ d'.producersFinished)
    (hbooks : Books.Balanced { d'.books operation with
      status := Function.update (d.books operation).status p (next.status (operation p)) }) :
    Follows stdHash d' operation ps := by
  have hpace := h.pace.move hp hpoint hagrees ?_ hrejected hmain hfinished hbooks
  · rw [Function.update_eq_self] at hpace
    exact ⟨hthreads ▸ h.tracks,hthreads ▸ h.loop,hthreads ▸ h.pays,hpace⟩
  · intro q id hq
    rw [hthreads]
    rcases eq_or_ne q p with rfl | hne
    · rw [hpoint,Function.update_self] at hq
      exact absurd hq (hnext id)
    · rw [hpoint,Function.update_of_ne hne] at hq
      exact h.pace.held q id hq

theorem Follows.count (h : Follows stdHash d operation ps) (hp : p < kProducers)
    (hpoint : d.point p = .counting true) :
    Follows stdHash { d.goto p .top with
      i := Function.update d.i p (d.i p+1)
      accepted := d.accepted+1 } operation ps := by
  have hagrees := h.pace.points p
  rw [hpoint] at hagrees
  refine h.counts hp rfl rfl hagrees.2 nofun rfl rfl (Nat.le_refl _) ?_
  exact h.pace.books.count hp (by simp only [books,hpoint]; rfl)

theorem Follows.finish (h : Follows stdHash d operation ps) (hp : p < kProducers)
    (hpoint : d.point p = .top) (hi : ¬ d.i p < kTxPerProducer) :
    Follows stdHash { d.goto p .ended with producersFinished := d.producersFinished+1 }
      operation ps := by
  have hagrees := h.pace.points p
  have hbound := h.pace.books.bound p
  rw [hpoint] at hagrees
  simp only [books,hpoint] at hbound
  refine h.counts hp rfl rfl hagrees nofun rfl rfl (Nat.le_succ _) ?_
  exact h.pace.books.finish hp (by simp only [books,hpoint]; rfl) (Nat.le_antisymm hbound (Nat.not_lt.mp hi))

theorem Follows.producerStep (h : Follows stdHash d operation ps) {now : Int64} {spurious : Bool}
    (hs : d.producerStep p now spurious = some d') :
    ∃ operation', Follows stdHash d' operation' ps := by
  unfold Driver.producerStep at hs
  split at hs
  · cases hs
  · case isFalse hge =>
    have hp : p < kProducers := Nat.not_le.mp hge
    split at hs
    · case h_1 hpoint =>
      split at hs
      · case isTrue hi =>
        obtain ⟨t,ht,rfl⟩ := Option.map_eq_some_iff.mp hs
        exact ⟨_,h.allocate hp hpoint hi ht⟩
      · case isFalse hi =>
        cases hs
        exact ⟨_,h.finish hp hpoint hi⟩
    · case h_2 id hpoint =>
      obtain ⟨t,ht,rfl⟩ := Option.map_eq_some_iff.mp hs
      exact ⟨_,h.submit hp hpoint ht⟩
    · case h_3 hpoint =>
      split at hs
      · obtain ⟨t,ht,rfl⟩ := Option.map_eq_some_iff.mp hs
        exact ⟨_,h.pushes hpoint ht⟩
      · obtain ⟨t,ht,rfl⟩ := Option.map_eq_some_iff.mp hs
        exact ⟨_,h.polls ht⟩
      · obtain ⟨t,ht,rfl⟩ := Option.map_eq_some_iff.mp hs
        exact ⟨_,h.readError hp hpoint ht⟩
      · cases hs
    · case h_4 hpoint =>
      cases hs
      exact ⟨_,h.count hp hpoint⟩
    · case h_5 hpoint =>
      have hagrees := h.pace.points p
      rw [hpoint] at hagrees
      cases hagrees.1
    · cases hs

/-- Who waits for a payment to be processed is a producer that has submitted it. -/
theorem Pace.of_invoked (h : d.Pace operation) {tx : Transaction}
    (hop : operation p = .invoked tx) :
    p < kProducers ∧ d.point p = .submitted ∧ ∃ id now, tx = driverRequest id now := by
  have hagrees := h.points p
  have hpoint : d.point p = .submitted := by
    cases hd : d.point p <;> simp [hd,hop,ProducerPoint.Agrees] at hagrees ⊢
  refine ⟨?_,hpoint,by simpa [hpoint,hop,ProducerPoint.Agrees] using hagrees⟩
  by_contra hge
  cases hpoint.symm.trans (h.others p (Nat.not_lt.mp hge))

theorem Pays.snoc {t t' : Threads} (h : Pays stdHash t ps) {request : PendingRequest} {io : AppendIo}
    {id : TransactionId} {now : Int64} (htx : request.tx = driverRequest id now)
    (hio : t.system.engine.ErrorFree ⟨request,io⟩)
    (hans : t.system.engine.answer ⟨request,io⟩ = .none)
    (hengine : t'.system.engine = t.system.engine.process ⟨request,io⟩)
    (hhandled : t'.system.handled = t.system.handled+1) :
    Pays stdHash t' (ps ++ [⟨request,io⟩]) := by
  obtain ⟨-,hopen,hbytes⟩ := process_errorFree h.opened hio
  rw [if_pos hans] at hbytes
  refine ⟨?_,h.errorFree.snoc ?_,hengine ▸ hopen,?_,?_,?_,?_⟩
  · rw [hengine,h.engine,processAll_snoc]
  · show ErrorFree ((firstEngine stdHash).processAll ps) _
    rwa [← h.engine]
  · have hrecord := recordOf_length_le (Popped.logged ⟨request,io⟩)
    have hroom := h.room
    rw [hengine,hbytes,List.length_append,List.length_append,Nat.add_mul]
    simp only [List.length_singleton]
    omega
  · rw [committed_snoc,← h.engine,if_pos hans,h.commits,List.length_append]
    rfl
  · rw [hhandled,h.handled,List.length_append]
    rfl
  · rw [hengine,process_working,if_pos hans,List.length_append]
    simp only [htx]
    exact h.paid.apply

theorem Follows.writer (h : Follows stdHash d operation ps) {io : AppendIo} {torn : PendingRequest}
    {t : Threads} (hio : d.threads.Processing ErrorFree (.writer io torn))
    (hs : d.threads.step (.writer io torn) = some t) :
    ∃ operation' ps', Follows stdHash { d with threads := t } operation' ps' := by
  have hnext := Threads.step_nextTxId hs
  cases hreport : d.threads.report with
  | some report =>
    obtain ⟨htracks,hsystem⟩ := h.tracks.report hreport hs
    exact ⟨_,_,h.stays hs (fun _ _ _ => nofun) (by trivial) htracks (by rw [hsystem])
      (by rw [hsystem]) hnext⟩
  | none =>
    cases hhand : d.threads.system.inHand torn with
    | none =>
      obtain ⟨htracks,hengine,hhandled⟩ := h.tracks.pop hreport hhand hs (h.bound hs)
      exact ⟨_,_,h.stays hs (fun _ _ _ => nofun) (by trivial) htracks hengine hhandled hnext⟩
    | some request =>
      obtain ⟨hop,hengine,hhandled,htracks⟩ := h.tracks.process hreport hhand hs
      obtain ⟨hp,hpoint,id,now,htx⟩ := h.pace.of_invoked hop
      have hfree : d.threads.system.engine.ErrorFree ⟨request,io⟩ := hio hreport request hhand
      have hlive : (d.books operation).status request.completion = .live id := by
        simp only [books,hpoint,hop,htx]
        rfl
      have hless : ps.length < 5000 := by
        have hcommitted : d.threads.system.handled ≤ d.threads.system.nextTxId.toNat :=
          h.pace.books.committed_le
        have hdrawn : d.threads.system.nextTxId.toNat ≤ kProducers*kTxPerProducer :=
          h.pace.books.next_le
        have hall : kProducers*kTxPerProducer = 2000 := by decide
        have hhandled := h.pays.handled
        omega
      have hpass : d.threads.system.engine.verdict request.tx = .none :=
        htx ▸ h.pays.paid.verdict_eq_none hless (h.pace.books.fresh _ id hlive).2
      have hans := (process_errorFree h.pays.opened hfree).1.trans hpass
      rw [hans] at htracks
      refine ⟨_,_,htracks,h.loop.step (by trivial) hs,
        h.pays.snoc htx hfree hans hengine hhandled,?_⟩
      have hstays : d.point = Function.update d.point request.completion .submitted := by
        rw [← hpoint,Function.update_eq_self]
      refine h.pace.move hp hstays rfl ?_ rfl rfl (Nat.le_refl _) ?_
      · exact fun q id hq => Threads.step_held hs (h.pace.held q id hq) (fun _ _ => nofun)
      · simp only [books,hhandled,hnext]
        refine h.pace.books.commit hp hlive (fun key hkey => ?_)
        rw [hengine,(process_keys _ _).1] at hkey
        have hmem := LruSet.mem_touch hkey
        simp only [htx] at hmem
        exact hmem

theorem Follows.main (h : Follows stdHash d operation ps) {m : MainPoint}
    (hover : m.over → kProducers ≤ d.producersFinished) :
    Follows stdHash { d with main := m } operation ps :=
  ⟨h.tracks,h.loop,h.pays,h.pace.points,h.pace.others,h.pace.held,h.pace.books,h.pace.rejected,
    hover⟩

theorem pendingStep_cases {t t' : Threads} {maxItems n : Nat} {io : AppendIo}
    {torn : PendingRequest} {next : Option Nat}
    (hs : t.pendingStep maxItems n io torn = some (t',next)) :
    (t.atLoopHead ∧ maxItems ≤ n ∧ t' = t ∧ next = none) ∨ (t.step (.writer io torn) = some t' ∧
      next = if t.atLoopHead ∧ t'.atLoopHead then none
        else some (n+(t'.system.ring.popped.length-t.system.ring.popped.length))) := by
  unfold Threads.pendingStep at hs
  split at hs
  · case isTrue hc =>
    cases hs
    exact .inl ⟨hc.1,hc.2,rfl,rfl⟩
  · obtain ⟨u,hu,heq⟩ := Option.map_eq_some_iff.mp hs
    cases heq
    exact .inr ⟨hu,rfl⟩

theorem Follows.pendingStep (h : Follows stdHash d operation ps) {maxItems n : Nat} {io : AppendIo}
    {torn : PendingRequest} {t : Threads} {next : Option Nat}
    (hio : d.threads.Processing ErrorFree (.writer io torn))
    (hs : d.threads.pendingStep maxItems n io torn = some (t,next)) :
    ∃ operation' ps', Follows stdHash { d with threads := t } operation' ps' := by
  obtain ⟨-,-,rfl,-⟩ | ⟨hstep,-⟩ := pendingStep_cases hs
  · exact ⟨_,_,h⟩
  · exact h.writer hio hstep

theorem Follows.mainStep (h : Follows stdHash d operation ps) {io : AppendIo} {torn : PendingRequest}
    (hio : d.threads.Processing ErrorFree (.writer io torn)) (hs : d.mainStep io torn = some d') :
    ∃ operation' ps', Follows stdHash d' operation' ps' := by
  unfold Driver.mainStep at hs
  split at hs
  · cases hs
    refine ⟨_,_,h.main ?_⟩
    split
    · exact False.elim
    · case isFalse hge => exact fun _ => Nat.not_lt.mp hge
  · obtain ⟨⟨t,next⟩,ht,rfl⟩ := Option.map_eq_some_iff.mp hs
    obtain ⟨operation',ps',hnext⟩ := h.pendingStep hio ht
    refine ⟨_,_,hnext.main ?_⟩
    cases next <;> exact False.elim
  · case h_3 n hmain =>
    obtain ⟨⟨t,next⟩,ht,rfl⟩ := Option.map_eq_some_iff.mp hs
    obtain ⟨operation',ps',hnext⟩ := h.pendingStep hio ht
    exact ⟨_,_,hnext.main (fun _ => h.pace.joined (by rw [hmain]; trivial))⟩
  · cases hs

def Processing (guard : LedgerEngine → Popped → Prop) (d : Driver) : Action → Prop
  | .main io torn => d.threads.Processing guard (.writer io torn)
  | .producer _ _ _ => True

instance (guard : LedgerEngine → Popped → Prop) [∀ e p, Decidable (guard e p)] (d : Driver) :
    ∀ act, Decidable (d.Processing guard act)
  | .main io torn => inferInstanceAs (Decidable (d.threads.Processing guard (.writer io torn)))
  | .producer _ _ _ => .isTrue trivial

theorem Follows.step (h : Follows stdHash d operation ps) {act : Action}
    (hio : d.Processing ErrorFree act) (hs : d.step act = some d') :
    ∃ operation' ps', Follows stdHash d' operation' ps' := by
  cases act with
  | producer p now spurious =>
    obtain ⟨operation',hnext⟩ := h.producerStep hs
    exact ⟨_,_,hnext⟩
  | main io torn => exact h.mainStep hio hs

theorem start_follows (stdHash : UInt64 → UInt64) :
    Follows stdHash (start stdHash) (fun _ => .idle) [] := by
  have hsim : (Threads.start (idempotencyKeyHash stdHash) driverConfig driverChart).Simulates _ :=
    Threads.start_simulates (k := 10) (by decide) (by decide) (idempotencyKeyHash stdHash) rfl driverChart
  refine ⟨hsim.tracks,⟨fun _ _ => rfl,rfl⟩,⟨rfl,trivial,rfl,?_,rfl,rfl,driverChart_paid⟩,
    fun _ => rfl,fun _ _ => rfl,nofun,?_,rfl,False.elim⟩
  · exact Nat.zero_le _
  · refine ⟨fun _ => Nat.zero_le _,nofun,(total_const 0).symm,(total_const 0).symm,
      (total_const 0).symm,(total_const 0).symm,fun _ _ => Status.noConfusion,
      fun _ _ _ => Status.noConfusion,fun key hkey => ?_⟩
    have hempty : (Driver.books (start stdHash) (fun _ => .idle)).keys = [] := seeded_keys ..
    rw [hempty] at hkey
    cases hkey

theorem exec_follows {acts : List Action} (hrun : StepRun.exec step (start stdHash) acts = some d)
    (hio : StepRun.Guarded step (Processing ErrorFree) (start stdHash) acts) :
    ∃ operation ps, Follows stdHash d operation ps :=
  StepRun.exec_invariant (fun d => ∃ operation ps, Follows stdHash d operation ps)
    (fun _ _ _ ⟨_,_,h⟩ hio hs => h.step hio hs) ⟨_,_,start_follows stdHash⟩ hio hrun

theorem Follows.all_paid (h : Follows stdHash d operation ps)
    (hover : kProducers ≤ d.producersFinished) : ps.length = 2000 ∧ d.accepted = 2000 := by
  obtain ⟨hcommitted,haccepted⟩ := h.pace.books.all_over hover
  exact ⟨h.pays.handled.symm.trans hcommitted,haccepted⟩

/-- The period divides the number of payments, so the published copy is the last one. -/
theorem Pays.published {t : Threads} (h : Pays stdHash t ps) (hall : ps.length = 2000) :
    t.system.engine.published = t.system.engine.working := by
  have hlags := processAll_lags (firstEngine stdHash) rfl ps
  have hperiod : (firstEngine stdHash).period = 16 := rfl
  have hcommits := h.commits.trans hall
  have hseen := hlags.seen (by rw [hperiod,hcommits]; decide) ps.length (by
    rw [List.take_length,hperiod,hcommits])
  rw [h.engine,hseen,after,List.take_length]

end Driver

end FinancialLedger
