import FinancialLedger.Overflow
set_option autoImplicit false

/-!
The overdraft decision compares wrapped sums. Here it is set against the
decision on mathematical sums.
-/

namespace FinancialLedger

def Account.projected (a : Account) (legs : List EntryLeg) : Int :=
  a.balance.toInt+exactDelta a.type a.id legs

/-- All accounts exist, and none of those with a floor ends below it. -/
def LedgerState.Affordable (s : LedgerState) (legs : List EntryLeg) : Prop :=
  (∀ leg ∈ legs, (s.findAccount leg.accountId).isSome) ∧
  ∀ leg ∈ legs, ∀ a, s.findAccount leg.accountId = some a → a.Covers legs

def LedgerState.NamesOne (s : LedgerState) (legs : List EntryLeg) (P : Account → Prop) : Prop :=
  ∃ leg ∈ legs, ∃ a, s.findAccount leg.accountId = some a ∧ isDebitNormal a.type ∧ P a

/-- Below the floor, and within the range. -/
def Account.Short (legs : List EntryLeg) (a : Account) : Prop :=
  -2^63 ≤ a.projected legs ∧ a.projected legs < -a.overdraftLimit.toInt

/-- Below the range, where the wrapped sum is positive. -/
def Account.WrapsUp (legs : List EntryLeg) (a : Account) : Prop := a.projected legs < -2^63

/-- Above the range, where the wrapped sum is below the floor. -/
def Account.WrapsDown (legs : List EntryLeg) (a : Account) : Prop :=
  2^63 ≤ a.projected legs ∧ a.projected legs-2^64 < -a.overdraftLimit.toInt

theorem CheckedLegs.tail {leg : EntryLeg} {legs : List EntryLeg}
    (h : CheckedLegs (leg :: legs)) : CheckedLegs legs := by
  have hpos := h.positive leg (by simp)
  have hd := h.debits
  have hc := h.credits
  simp only [directionSum] at hd hc
  refine ⟨fun l hl => h.positive l (by simp [hl]),?_,?_⟩
  · split at hd <;> omega
  · split at hc <;> omega

theorem CheckedLegs.toInt_legsDelta {legs : List EntryLeg} (h : CheckedLegs legs)
    (type : AccountType) (id : AccountId) :
    (legsDelta type id legs).toInt = exactDelta type id legs := by
  induction legs with
  | nil => rfl
  | cons leg legs ih =>
    have hfits := h.fits type id
    have hleg : (if leg.accountId = id then signedDelta type leg.direction leg.amount
        else 0).toInt = if leg.accountId = id then leg.exact type else 0 := by
      split
      · exact toInt_signedDelta type leg (h.positive leg (by simp))
      · rfl
    simp only [exactDelta,← hleg,← ih h.tail] at hfits ⊢
    exact toInt_add_of_fits hfits

theorem Account.not_lt_floor_iff {a : Account} {legs : List EntryLeg} (h : CheckedLegs legs)
    (hlimit : 0 ≤ a.overdraftLimit) :
    ¬ (a.post legs).balance < -a.overdraftLimit ↔ ¬ a.Short legs ∧ ¬ a.WrapsDown legs := by
  have hbal := a.balance.toInt_lt
  have hbal' := a.balance.le_toInt
  have hmax := a.overdraftLimit.toInt_lt
  have h0 : (0 : Int64).toInt = 0 := by decide
  have hge : 0 ≤ a.overdraftLimit.toInt := by
    rw [← h0]
    exact Int64.le_iff_toInt_le.mp hlimit
  obtain ⟨hlo,hhi⟩ := h.fits a.type a.id
  rw [not_lt_neg_iff hlimit,post,Int64.toInt_add,h.toInt_legsDelta,Int.bmod_def]
  unfold Short WrapsDown projected
  omega

theorem Account.covers_iff (a : Account) (legs : List EntryLeg) :
    a.Covers legs ↔ (isDebitNormal a.type → ¬ a.Short legs ∧ ¬ a.WrapsUp legs) := by
  have hmax := a.overdraftLimit.toInt_lt
  unfold Covers Short WrapsUp projected
  refine imp_congr_right (fun _ => ?_)
  omega

theorem LedgerState.forall_named_iff {s : LedgerState} {legs : List EntryLeg}
    {P Q : Account → Prop} :
    (∀ leg ∈ legs, ∀ a, s.findAccount leg.accountId = some a → isDebitNormal a.type →
      ¬ P a ∧ ¬ Q a) ↔ ¬ s.NamesOne legs P ∧ ¬ s.NamesOne legs Q := by
  constructor
  · intro h
    constructor
    · rintro ⟨leg,hleg,a,ha,hd,hP⟩
      exact (h leg hleg a ha hd).1 hP
    · rintro ⟨leg,hleg,a,ha,hd,hQ⟩
      exact (h leg hleg a ha hd).2 hQ
  · rintro ⟨hP,hQ⟩ leg hleg a ha hd
    exact ⟨fun h => hP ⟨leg,hleg,a,ha,hd,h⟩,fun h => hQ ⟨leg,hleg,a,ha,hd,h⟩⟩

theorem LedgerState.affordable_iff (s : LedgerState) (legs : List EntryLeg) :
    s.Affordable legs ↔ (∀ leg ∈ legs, (s.findAccount leg.accountId).isSome) ∧
      ¬ s.NamesOne legs (Account.Short legs) ∧ ¬ s.NamesOne legs (Account.WrapsUp legs) := by
  simp only [Affordable,Account.covers_iff,forall_named_iff]

theorem validateTransactionAgainstState_exact {s : LedgerState} {tx : Transaction}
    (hlimit : ∀ id a, s.findAccount id = some a → 0 ≤ a.overdraftLimit)
    (hlegs : CheckedLegs tx.legs.span) :
    validateTransactionAgainstState tx s.findAccount = .ok () ↔
      (∀ leg ∈ tx.legs.span, (s.findAccount leg.accountId).isSome) ∧
      ¬ s.NamesOne tx.legs.span (Account.Short tx.legs.span) ∧
      ¬ s.NamesOne tx.legs.span (Account.WrapsDown tx.legs.span) := by
  rw [validateTransactionAgainstState_iff,← LedgerState.forall_named_iff]
  refine and_congr_right (fun _ => forall₄_congr (fun leg _ a ha => ?_))
  rw [Account.not_lt_floor_iff hlegs (hlimit _ a ha)]

/-- The decision on wrapped sums is the mathematical one exactly when a leg names no
account, or an account is short for both, or wrapping never changes a side: an
unaffordable withdrawal goes through where a sum falls below the range, and a
deposit is refused where it rises above it, unless both happen at once. -/
theorem LedgerState.overdraft_exact_iff (s : LedgerState) (tx : Transaction)
    (hlimit : ∀ id a, s.findAccount id = some a → 0 ≤ a.overdraftLimit)
    (hshape : validateTransactionShape tx = .ok ()) :
    (validateTransactionAgainstState tx s.findAccount = .ok () ↔ s.Affordable tx.legs.span) ↔
      (∃ leg ∈ tx.legs.span, s.findAccount leg.accountId = none) ∨
      s.NamesOne tx.legs.span (Account.Short tx.legs.span) ∨
      (s.NamesOne tx.legs.span (Account.WrapsUp tx.legs.span) ↔
        s.NamesOne tx.legs.span (Account.WrapsDown tx.legs.span)) := by
  obtain ⟨hpos,hdebit,hcredit,-⟩ := validateTransactionShape_ok hshape
  have hmissing : (∃ leg ∈ tx.legs.span, s.findAccount leg.accountId = none) ↔
      ¬ ∀ leg ∈ tx.legs.span, (s.findAccount leg.accountId).isSome := by
    simp
  rw [validateTransactionAgainstState_exact hlimit ⟨hpos,hdebit,hcredit⟩,affordable_iff,hmissing]
  tauto

def overdraftChart : LedgerState := .ofAccounts [⟨1,.asset,500,200⟩,⟨2,.revenue,0,0⟩]

theorem LedgerState.overdraft_exact_iff_withdrawal :
    validateTransactionAgainstState (withdrawal 800) overdraftChart.findAccount = .ok () ↔
      overdraftChart.Affordable (withdrawal 800).legs.span := by
  refine (LedgerState.overdraft_exact_iff overdraftChart (withdrawal 800)
    (LedgerState.forall_ofAccounts (by decide)) (by decide)).mpr (.inr (.inl ?_))
  exact ⟨⟨1,.credit,800⟩,by decide,⟨1,.asset,500,200⟩,by decide,by decide,by decide,by decide⟩

def deepChart : LedgerState :=
  .ofAccounts [⟨1,.asset,-Int64.maxValue,Int64.maxValue⟩,⟨2,.revenue,0,0⟩]

/-- A withdrawal of two more units passes, and leaves the account at the largest amount. -/
theorem LedgerState.overdraft_inexact :
    (∀ id a, deepChart.findAccount id = some a → 0 ≤ a.overdraftLimit) ∧
    validateTransactionShape (withdrawal 2) = .ok () ∧
    validateTransactionAgainstState (withdrawal 2) deepChart.findAccount = .ok () ∧
    ¬ deepChart.Affordable (withdrawal 2).legs.span ∧
    ((deepChart.apply (withdrawal 2)).2.findAccount 1).map Account.balance =
      some Int64.maxValue := by
  refine ⟨LedgerState.forall_ofAccounts (by decide),by decide,by decide,?_,by decide⟩
  rintro ⟨-,hcovers⟩
  have h := hcovers ⟨1,.credit,2⟩ (by decide) ⟨1,.asset,-Int64.maxValue,Int64.maxValue⟩
    (by decide) (by decide)
  exact absurd h (by decide)

end FinancialLedger
