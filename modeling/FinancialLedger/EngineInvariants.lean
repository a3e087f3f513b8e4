import FinancialLedger.SequentialLedger
set_option autoImplicit false

namespace FinancialLedger
open Wal

namespace LedgerEngine

/-- An invariant of the working copy that every accepted transaction keeps is
kept by every run, whatever the log does. -/
theorem processAll_working_invariant (inv : LedgerState → Prop)
    (hstep : ∀ keys s tx, inv s → FinancialLedger.verdict keys s tx = .none → inv (s.apply tx).2)
    {e : LedgerEngine} (h : inv e.working) (ps : List Popped) :
    inv (e.processAll ps).working := by
  refine StepRun.foldl_invariant (fun e => inv e.working) ?_ h (StepRun.along_true process e ps)
  intro e p hinv _
  rw [process_working]
  split
  · case isTrue hnone => exact hstep _ _ _ hinv (verdict_of_answer hnone)
  · exact hinv

theorem processAll_published_invariant (inv : LedgerState → Prop)
    (hstep : ∀ keys s tx, inv s → FinancialLedger.verdict keys s tx = .none → inv (s.apply tx).2)
    {e : LedgerEngine} (h : inv e.working) (hp : inv e.published) (ps : List Popped) :
    inv (e.processAll ps).published := by
  induction ps generalizing e with
  | nil => exact hp
  | cons p ps ih =>
    have hw : inv (e.process p).working := processAll_working_invariant inv hstep h [p]
    apply ih hw
    obtain hold | hnew := e.process_published p
    · rw [hold]
      exact hp
    · rw [hnew]
      exact hw

end LedgerEngine

section TrialBalance

theorem imbalance_apply_eq {keys : List IdempotencyKey} {s : LedgerState} {tx : Transaction}
    (h : verdict keys s tx = .none) : (s.apply tx).2.imbalance = s.imbalance := by
  have hlegs := (validateTransactionShape_ok (verdict_eq_none.mp h).2.1).2.2.2
  rw [s.imbalance_apply tx (LedgerEngine.apply_of_verdict h),hlegs]
  grind

theorem imbalance_apply_of_verdict (keys : List IdempotencyKey) (s : LedgerState)
    (tx : Transaction) (hs : s.imbalance = 0) (h : verdict keys s tx = .none) :
    (s.apply tx).2.imbalance = 0 := (imbalance_apply_eq h).trans hs

/-- Double-entry conservation in every state a run reaches, for the writer and
for the readers, whatever is requested and whatever the log answers. -/
theorem LedgerEngine.trialBalance_preserved (hash : IdempotencyKey → UInt64) (config : Config)
    (wal : PosixFile.File) (seed : LedgerState) (h : validateTrialBalance seed = .ok ())
    (calls : List Call) :
    validateTrialBalance ((seeded hash config wal seed).runCalls calls).working = .ok () ∧
    validateTrialBalance ((seeded hash config wal seed).runCalls calls).published = .ok () := by
  have hseed : (seeded hash config wal seed).working.imbalance = 0 :=
    (validateTrialBalance_iff seed).mp h
  have hempty : (seeded hash config wal seed).published.imbalance = 0 :=
    show LedgerState.empty.imbalance = 0 by decide
  rw [runCalls_eq,validateTrialBalance_iff,validateTrialBalance_iff]
  constructor
  · exact processAll_working_invariant (fun s => s.imbalance = 0) imbalance_apply_of_verdict
      hseed _
  · exact processAll_published_invariant (fun s => s.imbalance = 0) imbalance_apply_of_verdict
      hseed hempty _

def withdrawal (amount : Amount) : Transaction :=
  ⟨5,⟨0,5⟩,0,⟨[⟨2,.debit,amount⟩,⟨1,.credit,amount⟩],by simp [kMaxLegsPerTransaction]⟩⟩

def sampleWithdrawal (id : TransactionId) (amount : Amount) : Popped :=
  ⟨⟨{ withdrawal amount with id := id, idempotencyKey := ⟨0,id⟩ },id.toNat⟩,
    ⟨17,.accepts 4096,true⟩⟩

def downToFloor : List LedgerEngine.Call :=
  [⟨10,[samplePopped 1,sampleWithdrawal 2 105]⟩,⟨10,[sampleWithdrawal 3 1]⟩]

theorem LedgerEngine.trialBalance_preserved_payment :
    validateTrialBalance sampleChart = .ok () ∧
    (sampleEngine.runCalls downToFloor).answers =
      [(1,.none),(2,.none),(3,.insufficientFunds)] ∧
    validateTrialBalance (sampleEngine.runCalls downToFloor).working = .ok () ∧
    validateTrialBalance (sampleEngine.runCalls downToFloor).published = .ok () :=
  ⟨by decide,by decide +kernel,trialBalance_preserved (fun _ => 0) sampleConfig .empty sampleChart
    (by decide) downToFloor⟩

end TrialBalance

section Overdraft

/-- Every Asset and Expense account is at or above its floor. -/
def LedgerState.AboveFloor (s : LedgerState) : Prop :=
  ∀ id a, s.findAccount id = some a → isDebitNormal a.type →
    -a.overdraftLimit.toInt ≤ a.balance.toInt

def Account.terms (a : Account) : AccountId × AccountType × Amount :=
  (a.id,a.type,a.overdraftLimit)

def LedgerState.SameTerms (seed s : LedgerState) : Prop :=
  ∀ id, (s.findAccount id).map Account.terms = (seed.findAccount id).map Account.terms

theorem LedgerState.sameTerms_apply {seed s : LedgerState} {tx : Transaction}
    {keys : List IdempotencyKey} (hs : seed.SameTerms s) (h : verdict keys s tx = .none) :
    seed.SameTerms (s.apply tx).2 := by
  intro id
  have hexists := (validateTransactionAgainstState_iff.mp (verdict_eq_none.mp h).2.2).1
  rw [(s.apply_spec tx hexists).2.2 id,Option.map_map,← hs id]
  rfl

theorem LedgerState.SameTerms.limits {seed s : LedgerState} (hs : seed.SameTerms s)
    (hlimit : ∀ id a, seed.findAccount id = some a → 0 ≤ a.overdraftLimit) (id : AccountId)
    (a : Account) (ha : s.findAccount id = some a) : 0 ≤ a.overdraftLimit := by
  have hterms := hs id
  rw [ha,Option.map_some] at hterms
  obtain ⟨b,hb,he⟩ := Option.map_eq_some_iff.mp hterms.symm
  have hsame : b.overdraftLimit = a.overdraftLimit := congrArg (fun t => t.2.2) he
  exact hsame ▸ hlimit id b hb

/-- A limit that is not negative can be negated, so the comparison of the
validator is the mathematical one. -/
theorem not_lt_neg_iff {balance limit : Amount} (h : 0 ≤ limit) :
    ¬ balance < -limit ↔ -limit.toInt ≤ balance.toInt := by
  have hlt := limit.toInt_lt
  have h0 : (0 : Int64).toInt = 0 := by decide
  have hge : 0 ≤ limit.toInt := by
    rw [← h0]
    exact Int64.le_iff_toInt_le.mp h
  have hneg : (-limit).toInt = -limit.toInt := by
    rw [Int64.toInt_neg,Int.bmod_def]
    omega
  rw [Int64.lt_iff_toInt_lt,hneg]
  omega

theorem LedgerState.aboveFloor_apply {s : LedgerState} {tx : Transaction}
    {keys : List IdempotencyKey} (hs : s.AboveFloor)
    (hlimit : ∀ id a, s.findAccount id = some a → 0 ≤ a.overdraftLimit)
    (h : verdict keys s tx = .none) : (s.apply tx).2.AboveFloor := by
  obtain ⟨hexists,hfloor⟩ := validateTransactionAgainstState_iff.mp (verdict_eq_none.mp h).2.2
  intro id b hb hd
  rw [(s.apply_spec tx hexists).2.2 id] at hb
  obtain ⟨a,ha,rfl⟩ := Option.map_eq_some_iff.mp hb
  by_cases hnamed : ∃ leg ∈ tx.legs.span, leg.accountId = id
  · obtain ⟨leg,hleg,rfl⟩ := hnamed
    exact (not_lt_neg_iff (hlimit _ a ha)).mp (hfloor leg hleg a ha hd)
  · -- no leg names the account, so its balance stays what it was
    have hid : a.id = id := s.keyed id a ha
    have hzero : legsDelta a.type a.id tx.legs.span = 0 := by
      apply legsDelta_unnamed
      intro leg hleg he
      exact hnamed ⟨leg,hleg,he.trans hid⟩
    have hsame : (a.post tx.legs.span).balance = a.balance := by
      rw [Account.post,hzero]
      grind
    rw [hsame]
    exact hs id a ha hd

/-- No run takes an Asset or Expense account below its floor, and no request
changes which accounts there are or any of their terms. -/
theorem LedgerEngine.overdraft_floor (hash : IdempotencyKey → UInt64) (config : Config)
    (wal : PosixFile.File) (seed : LedgerState)
    (hlimit : ∀ id a, seed.findAccount id = some a → 0 ≤ a.overdraftLimit)
    (hfloor : seed.AboveFloor) (calls : List Call) :
    ((seeded hash config wal seed).runCalls calls).working.AboveFloor ∧
    seed.SameTerms ((seeded hash config wal seed).runCalls calls).working := by
  rw [runCalls_eq]
  refine processAll_working_invariant (fun s => s.AboveFloor ∧ seed.SameTerms s) ?_
    (e := seeded hash config wal seed) ⟨hfloor,fun _ => rfl⟩ _
  intro keys s tx ⟨hs,hterms⟩ hverdict
  exact ⟨s.aboveFloor_apply hs (hterms.limits hlimit) hverdict,
    LedgerState.sameTerms_apply hterms hverdict⟩

theorem LedgerEngine.overdraft_floor_payment :
    sampleChart.AboveFloor ∧
    ((sampleEngine.runCalls downToFloor).working.findAccount 1).map Account.balance = some 0 ∧
    (sampleEngine.runCalls downToFloor).working.AboveFloor := by
  have hfloor : sampleChart.AboveFloor :=
    LedgerState.forall_ofAccounts (P := fun a => isDebitNormal a.type →
      -a.overdraftLimit.toInt ≤ a.balance.toInt) (by decide)
  exact ⟨hfloor,by decide +kernel,(overdraft_floor (fun _ => 0) sampleConfig .empty sampleChart
    (LedgerState.forall_ofAccounts (by decide)) hfloor downToFloor).1⟩

end Overdraft

end FinancialLedger
