import Mathlib.Algebra.Order.BigOperators.Group.Multiset
import FinancialLedger.Snapshot
set_option autoImplicit false

/-!
`validate_trial_balance` against the accounting identity of its comment. Its two
accumulators are 64 bits wide and unchecked.
-/

namespace FinancialLedger

abbrev AccountEntry := Sigma (fun _ : AccountId => Account)

/-- The loop over the accounts in one order of the map. -/
def validateTrialBalanceIn (order : List Account) : Result Unit :=
  let totals := order.foldl (fun totals a => addToTotals totals ⟨a.id,a⟩) (0,0)
  if totals.1 ≠ totals.2 then .error .trialBalanceMismatch else .ok ()

def AccountType.isCreditNormal (t : AccountType) : Bool :=
  t == .liability || t == .equity || t == .revenue

/-- A type byte that none of the enumerators has. -/
def AccountType.isUnnamed (t : AccountType) : Bool := !isDebitNormal t && !t.isCreditNormal

def sumOver (types : AccountType → Bool) (entries : Multiset AccountEntry) : Int :=
  (entries.map (fun e => if types e.2.type then e.2.balance.toInt else 0)).sum

def LedgerState.debitNormalSum (s : LedgerState) : Int :=
  sumOver isDebitNormal s.accounts.entries

def LedgerState.creditNormalSum (s : LedgerState) : Int :=
  sumOver AccountType.isCreditNormal s.accounts.entries

def LedgerState.unnamedSum (s : LedgerState) : Int :=
  sumOver AccountType.isUnnamed s.accounts.entries

theorem int64_ofInt_inj_iff (a b : Int) : Int64.ofInt a = Int64.ofInt b ↔ 2^64 ∣ a-b := by
  rw [← Int64.toInt_inj,Int64.toInt_ofInt,Int64.toInt_ofInt]
  simp only [Int64.size,Int.bmod_def]
  omega

theorem sumOver_cons (types : AccountType → Bool) (e : AccountEntry)
    (entries : Multiset AccountEntry) :
    sumOver types (e ::ₘ entries) =
      (if types e.2.type then e.2.balance.toInt else 0)+sumOver types entries := by
  simp [sumOver]

theorem foldl_addToTotals_ofInt (entries : Multiset AccountEntry) (t : Amount × Amount) :
    entries.foldl addToTotals t =
      (t.1+Int64.ofInt (sumOver isDebitNormal entries),
        t.2+Int64.ofInt (sumOver (fun type => !isDebitNormal type) entries)) := by
  induction entries using Multiset.induction generalizing t with
  | empty => simp [sumOver]
  | cons e entries ih =>
    rw [Multiset.foldl_cons,ih,sumOver_cons,sumOver_cons]
    cases hnormal : isDebitNormal e.2.type <;>
      simp [addToTotals,hnormal,Int64.ofInt_add,Int64.ofInt_toInt,Int64.add_assoc]

theorem sumOver_not_debitNormal (entries : Multiset AccountEntry) :
    sumOver (fun type => !isDebitNormal type) entries =
      sumOver AccountType.isCreditNormal entries+sumOver AccountType.isUnnamed entries := by
  have hsplit : ∀ (type : AccountType) (x : Int), (if (!isDebitNormal type) = true then x else 0) =
      (if type.isCreditNormal then x else 0)+(if type.isUnnamed then x else 0) := by
    intro type x
    cases type <;> simp [isDebitNormal,AccountType.isCreditNormal,AccountType.isUnnamed]
  simp only [sumOver,hsplit,Multiset.sum_map_add]

theorem validateTrialBalance_ok_iff (s : LedgerState) :
    validateTrialBalance s = .ok () ↔ 2^64 ∣ s.debitNormalSum-s.creditNormalSum-s.unnamedSum := by
  have htotals : s.totals = (Int64.ofInt s.debitNormalSum,
      Int64.ofInt (s.creditNormalSum+s.unnamedSum)) := by
    rw [LedgerState.totals,foldl_addToTotals_ofInt,sumOver_not_debitNormal]
    simp [LedgerState.debitNormalSum,LedgerState.creditNormalSum,LedgerState.unnamedSum]
  rw [validateTrialBalance_totals,htotals,int64_ofInt_inj_iff,Int.sub_sub]

theorem validateTrialBalanceIn_eq {s : LedgerState} (it : Snapshot.Iteration s) :
    validateTrialBalanceIn it.accounts = validateTrialBalance s := by
  have htotals : it.accounts.foldl (fun totals a => addToTotals totals ⟨a.id,a⟩) (0,0) = s.totals := by
    rw [LedgerState.totals,← it.complete,Multiset.coe_foldl,List.foldl_map]
  simp only [validateTrialBalanceIn,htotals,validateTrialBalance]

/-- The answer is the one about the mathematical sums unless the credit side is
off by accounts of no named type, or the difference of the sides is lost in the
accumulators. -/
theorem validateTrialBalanceIn_exact_iff (s : LedgerState) (it : Snapshot.Iteration s) :
    (validateTrialBalanceIn it.accounts = .ok () ↔ s.debitNormalSum = s.creditNormalSum) ↔
      (s.debitNormalSum = s.creditNormalSum → 2^64 ∣ s.unnamedSum) ∧
      (s.debitNormalSum ≠ s.creditNormalSum →
        ¬ 2^64 ∣ s.debitNormalSum-s.creditNormalSum-s.unnamedSum) := by
  rw [validateTrialBalanceIn_eq,validateTrialBalance_ok_iff]
  by_cases heq : s.debitNormalSum = s.creditNormalSum
  · simp [heq]
  · simp [heq]

/-- Four Asset accounts of 2^62 each, and nothing against them. -/
def assetsOnly : List Account :=
  [⟨1,.asset,0x4000000000000000,0⟩,⟨2,.asset,0x4000000000000000,0⟩,
    ⟨3,.asset,0x4000000000000000,0⟩,⟨4,.asset,0x4000000000000000,0⟩]

theorem validateTrialBalanceIn_masked :
    ∃ it : Snapshot.Iteration (.ofAccounts assetsOnly),
      validateTrialBalanceIn it.accounts = .ok () ∧
      (LedgerState.ofAccounts assetsOnly).debitNormalSum = 2^64 ∧
      (LedgerState.ofAccounts assetsOnly).creditNormalSum = 0 := by
  exact ⟨⟨assetsOnly.reverse,by decide⟩,by decide,by decide,by decide⟩

end FinancialLedger
