import Mathlib.Data.List.Induction
import FinancialLedger.OverdraftDecision
set_option autoImplicit false

/-!
The validator projects the balance after all legs; `apply` stores the balance
after each of them.
-/

namespace FinancialLedger

/-- Between these legs the account is moved in one direction and then, by the
next leg that names it, in the other. -/
def Turns (id : AccountId) (done rest : List EntryLeg) : Prop :=
  ∃ last next, done.reverse.find? (fun leg => leg.accountId = id) = some last ∧
    rest.find? (fun leg => leg.accountId = id) = some next ∧ last.direction ≠ next.direction

theorem Account.projected_snoc (a : Account) (legs : List EntryLeg) (leg : EntryLeg) :
    a.projected (legs ++ [leg]) =
      a.projected legs+if leg.accountId = a.id then leg.exact a.type else 0 := by
  simp only [projected,exactDelta_snoc]
  omega

section Extremes
-- One side of the range: legs with `increases = up` lead towards its end, the others away from it.
variable {a : Account} {legs : List EntryLeg} (up : Bool) (P : Int → Prop)

theorem Account.holds_before_loss
    (hloss : ∀ leg ∈ legs, increases a.type leg.direction ≠ up →
      ∀ x, P x → P (x+leg.exact a.type))
    (hturn : ∀ done rest, legs = done ++ rest → Turns a.id done rest → P (a.projected done))
    (hstart : P a.balance.toInt) {done rest : List EntryLeg} (h : legs = done ++ rest)
    {next : EntryLeg} (hnext : rest.find? (fun leg => leg.accountId = a.id) = some next)
    (hdir : increases a.type next.direction ≠ up) : P (a.projected done) := by
  induction done using List.reverseRecOn generalizing rest next with
  | nil => simpa [projected,exactDelta] using hstart
  | append_singleton done leg ih =>
    have hsplit : legs = done ++ leg :: rest := by simpa using h
    by_cases hid : leg.accountId = a.id
    · by_cases hup : increases a.type leg.direction = up
      · refine hturn _ rest h ⟨leg,next,by simp [hid],hnext,?_⟩
        intro heq
        exact hdir (heq ▸ hup)
      · rw [projected_snoc,if_pos hid]
        exact hloss leg (by simp [hsplit]) hup _ (ih hsplit (by simp [hid]) hup)
    · rw [projected_snoc,if_neg hid,Int.add_zero]
      exact ih hsplit (by simpa [hid] using hnext) hdir

/-- What holds at the start, at the end and at every turn holds all the way. -/
theorem Account.holds_midway
    (hgain : ∀ leg ∈ legs, increases a.type leg.direction = up →
      ∀ x, P (x+leg.exact a.type) → P x)
    (hloss : ∀ leg ∈ legs, increases a.type leg.direction ≠ up →
      ∀ x, P x → P (x+leg.exact a.type))
    (hturn : ∀ done rest, legs = done ++ rest → Turns a.id done rest → P (a.projected done))
    (hstart : P a.balance.toInt) (hend : P (a.projected legs)) {done rest : List EntryLeg}
    (h : legs = done ++ rest) : P (a.projected done) := by
  induction rest generalizing done with
  | nil =>
    rw [List.append_nil] at h
    exact h ▸ hend
  | cons leg rest ih =>
    have hnext : P (a.projected (done ++ [leg])) := ih (by simpa using h)
    rw [projected_snoc] at hnext
    by_cases hid : leg.accountId = a.id
    · rw [if_pos hid] at hnext
      by_cases hup : increases a.type leg.direction = up
      · exact hgain leg (by simp [h]) hup _ hnext
      · exact holds_before_loss up P hloss hturn hstart h (by simp [hid]) hup
    · rwa [if_neg hid,Int.add_zero] at hnext

theorem Account.fits_midway (hpos : ∀ leg ∈ legs, 0 < leg.amount.toInt)
    (hturn : ∀ done rest, legs = done ++ rest → Turns a.id done rest →
      FitsInt64 (a.projected done))
    (hend : FitsInt64 (a.projected legs)) {done rest : List EntryLeg} (h : legs = done ++ rest) :
    FitsInt64 (a.projected done) := by
  have hexact : ∀ leg : EntryLeg, leg.exact a.type =
      if increases a.type leg.direction then leg.amount.toInt else -leg.amount.toInt :=
    fun leg => rfl
  constructor
  · refine holds_midway false (fun x => -2^63 ≤ x) ?_ ?_
      (fun _ _ hs ht => (hturn _ _ hs ht).1) a.balance.le_toInt hend.1 h
    all_goals
      intro leg hleg hup x hx
      have hamount := hpos leg hleg
      simp only [hexact,hup,if_true,if_false,Bool.false_eq_true] at hx ⊢
      omega
  · refine holds_midway true (fun x => x < 2^63) ?_ ?_
      (fun _ _ hs ht => (hturn _ _ hs ht).2) a.balance.toInt_lt hend.2 h
    all_goals
      intro leg hleg hup x hx
      have hamount := hpos leg hleg
      simp only [hexact,hup,if_true,if_false,Bool.false_eq_true] at hx ⊢
      omega

end Extremes

theorem TracksExactly.fits_of_ops {s₀ s : LedgerState} {before rest : List EntryLeg}
    (hpos : ∀ leg ∈ rest, 0 < leg.amount.toInt) (htrack : TracksExactly s₀ s before)
    (hexists : ∀ leg ∈ rest, (s₀.findAccount leg.accountId).isSome)
    (hops : ∀ x ∈ applyOps rest s, FitsInt64 x) {mid after : List EntryLeg}
    (hsplit : rest = mid ++ after) {id : AccountId} {a : Account}
    (ha : s₀.findAccount id = some a) : FitsInt64 (a.projected (before ++ mid)) := by
  induction mid generalizing s before rest with
  | nil =>
    obtain ⟨b,-,-,hbal⟩ := htrack id a ha
    rw [List.append_nil,Account.projected,s₀.keyed _ _ ha,← hbal]
    exact ⟨b.balance.le_toInt,b.balance.toInt_lt⟩
  | cons leg mid ih =>
    subst hsplit
    have hleg := hpos leg (by simp)
    obtain ⟨c,hc⟩ := Option.isSome_iff_exists.mp (hexists leg (by simp))
    obtain ⟨b,hb,-,-⟩ := htrack _ c hc
    simp only [List.cons_append,applyOps,hb,List.mem_append,List.mem_cons] at hops
    have hnow := hops _ (.inr (.inl rfl))
    have hrest := ih (fun l hl => hpos l (by simp [List.mem_append.mp hl])) (htrack.step hleg hb hnow)
      (fun l hl => hexists l (by simp [List.mem_append.mp hl]))
      (fun x hx => hops x (.inr (.inr hx))) rfl
    simpa using hrest

/-- A transaction whose final balances all fit overflows nowhere on the way,
provided the balance fits wherever an account's legs change direction. -/
theorem LedgerState.apply_midway_iff (s : LedgerState) (tx : Transaction)
    (hshape : validateTransactionShape tx = .ok ())
    (hstate : validateTransactionAgainstState tx s.findAccount = .ok ())
    (hfinal : ∀ leg ∈ tx.legs.span, ∀ a, s.findAccount leg.accountId = some a →
      FitsInt64 (a.projected tx.legs.span)) :
    (∀ x ∈ applyOps tx.legs.span s, FitsInt64 x) ↔
      ∀ done rest, tx.legs.span = done ++ rest → ∀ id a, s.findAccount id = some a →
        Turns id done rest → FitsInt64 (a.projected done) := by
  obtain ⟨hpos,-,-,-⟩ := validateTransactionShape_ok hshape
  have hexists := (validateTransactionAgainstState_iff.mp hstate).1
  constructor
  · intro hops done rest hsplit id a ha _
    simpa using (TracksExactly.refl s).fits_of_ops hpos hexists hops hsplit ha
  · intro hturn
    refine applyOps_fit hpos (TracksExactly.refl s) hexists ?_
    intro leg hleg a ha n
    have hfits := Account.fits_midway (a := a) hpos
      (fun done rest hsplit ht => hturn done rest hsplit _ a ha (s.keyed _ _ ha ▸ ht))
      (hfinal leg hleg a ha) (List.take_append_drop n tx.legs.span).symm
    rwa [Account.projected,s.keyed _ _ ha] at hfits

def fullChart : LedgerState := .ofAccounts [⟨1,.asset,Int64.maxValue,0⟩]

def debitCredit : Transaction := ⟨8,⟨0,8⟩,0,⟨[⟨1,.debit,1⟩,⟨1,.credit,1⟩],by decide⟩⟩

def creditDebit : Transaction :=
  { debitCredit with legs := ⟨[⟨1,.credit,1⟩,⟨1,.debit,1⟩],by decide⟩ }

theorem LedgerState.apply_midway_iff_creditDebit :
    (∀ x ∈ applyOps creditDebit.legs.span fullChart, FitsInt64 x) ∧
    Turns 1 [⟨1,.credit,1⟩] [⟨1,.debit,1⟩] ∧
    ∀ a, fullChart.findAccount 1 = some a → FitsInt64 (a.projected [⟨1,.credit,1⟩]) := by
  have hops : ∀ x ∈ applyOps creditDebit.legs.span fullChart, FitsInt64 x := by decide
  have hturns : Turns 1 [⟨1,.credit,1⟩] [⟨1,.debit,1⟩] := ⟨_,_,rfl,rfl,by decide⟩
  have hfinal : ∀ leg ∈ creditDebit.legs.span, ∀ a ∈ fullChart.findAccount leg.accountId,
      FitsInt64 (a.projected creditDebit.legs.span) := by decide
  refine ⟨hops,hturns,fun a ha => ?_⟩
  exact (LedgerState.apply_midway_iff fullChart creditDebit (by decide) (by decide) hfinal).mp hops
    _ _ rfl 1 a ha hturns

/-- Debited first, it leaves the range, although its final balance is the one it had. -/
theorem LedgerState.apply_overflows_midway :
    validateTransactionShape debitCredit = .ok () ∧
    validateTransactionAgainstState debitCredit fullChart.findAccount = .ok () ∧
    (∀ leg ∈ debitCredit.legs.span, ∀ a ∈ fullChart.findAccount leg.accountId,
      FitsInt64 (a.projected debitCredit.legs.span)) ∧
    ¬ ∀ x ∈ applyOps debitCredit.legs.span fullChart, FitsInt64 x := by
  decide

end FinancialLedger
