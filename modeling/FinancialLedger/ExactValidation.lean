import FinancialLedger.Overflow
set_option autoImplicit false

/-!
Both validators against integer arithmetic: what the shape check accepts, and
what the table of deltas holds after it.
-/

namespace FinancialLedger

/-- The subtraction of each guard that is evaluated and, past both, the sum. -/
def checkedAddOps (total delta : Int64) : List Int :=
  (if delta > 0 then [Int64.maxValue.toInt-delta.toInt] else []) ++
    if delta > 0 ∧ total > Int64.maxValue-delta then []
    else
      (if delta < 0 then [Int64.minValue.toInt-delta.toInt] else []) ++
        if delta < 0 ∧ total < Int64.minValue-delta then [] else [total.toInt+delta.toInt]

def shapeTotalsOps : List EntryLeg → Amount → Amount → List Int
  | [], _, _ => []
  | leg :: legs, debitTotal, creditTotal =>
      if leg.amount ≤ 0 then []
      else
        match leg.direction with
        | .debit =>
            checkedAddOps debitTotal leg.amount ++
              match checkedAdd debitTotal leg.amount with
              | none => []
              | some total => shapeTotalsOps legs total creditTotal
        | .credit =>
            checkedAddOps creditTotal leg.amount ++
              match checkedAdd creditTotal leg.amount with
              | none => []
              | some total => shapeTotalsOps legs debitTotal total

def validateShapeOps (tx : Transaction) : List Int :=
  let legs := tx.legs.span
  if legs.length < 2 then []
  else if kMaxLegsPerTransaction < legs.length then []
  else shapeTotalsOps legs 0 0

section Trapping
open Trapping

def trapSub (a b : Int64) : Option Int64 := guarded FitsInt64 [a.toInt-b.toInt] (a-b)

/-- A guard of `checked_add`: the subtraction is evaluated only if the sign asks for it. -/
def checkedAddTrapping (total delta : Int64) : Option (Option Int64) :=
  (if delta > 0 then (trapSub Int64.maxValue delta).map (fun room => decide (total > room))
    else some false).bind (fun above =>
  if above then some none
  else (if delta < 0 then (trapSub Int64.minValue delta).map (fun room => decide (total < room))
      else some false).bind (fun below =>
    if below then some none else (trapAdd total delta).map some))

def shapeTotalsTrapping :
    List EntryLeg → Amount → Amount → Option (Result (Amount × Amount))
  | [], debitTotal, creditTotal => some (.ok (debitTotal,creditTotal))
  | leg :: legs, debitTotal, creditTotal =>
      if leg.amount ≤ 0 then some (.error .zeroAmountLeg)
      else
        match leg.direction with
        | .debit => (checkedAddTrapping debitTotal leg.amount).bind (fun
            | none => some (.error .amountOverflow)
            | some total => shapeTotalsTrapping legs total creditTotal)
        | .credit => (checkedAddTrapping creditTotal leg.amount).bind (fun
            | none => some (.error .amountOverflow)
            | some total => shapeTotalsTrapping legs debitTotal total)

def validateShapeTrapping (tx : Transaction) : Option (Result Unit) :=
  let legs := tx.legs.span
  if legs.length < 2 then some (.error .tooFewLegs)
  else if kMaxLegsPerTransaction < legs.length then some (.error .tooManyLegs)
  else (shapeTotalsTrapping legs 0 0).map (fun
    | .error e => .error e
    | .ok (debitTotal,creditTotal) =>
        if debitTotal ≠ creditTotal then .error .unbalancedTransaction else .ok ())

theorem checkedAddTrapping_eq (total delta : Int64) :
    checkedAddTrapping total delta =
      guarded FitsInt64 (checkedAddOps total delta) (checkedAdd total delta) := by
  have hguard (sign : Prop) [Decidable sign] (test : Bool) (op : Int) (room : Int64)
      (f : Int64 → Bool) (hf : f room = test) :
      (if sign then (guarded FitsInt64 [op] room).map f else some false) =
        guarded FitsInt64 (if sign then [op] else []) (decide sign && test) := by
    by_cases h : sign <;> simp [h,hf]
  unfold checkedAddTrapping checkedAddOps checkedAdd
  rw [trapSub,hguard (delta > 0) _ _ _ _ rfl]
  refine bind_guarded _ ?_
  simp only [Bool.and_eq_true,decide_eq_true_eq]
  split
  · rw [guarded_nil]
  · rw [trapSub,hguard (delta < 0) _ _ _ _ rfl]
    refine bind_guarded _ ?_
    simp only [Bool.and_eq_true,decide_eq_true_eq]
    split
    · rw [guarded_nil]
    · rw [trapAdd,map_guarded]

theorem shapeTotalsTrapping_eq (legs : List EntryLeg) (debitTotal creditTotal : Amount) :
    shapeTotalsTrapping legs debitTotal creditTotal =
      guarded FitsInt64 (shapeTotalsOps legs debitTotal creditTotal)
        (shapeTotals legs debitTotal creditTotal) := by
  induction legs generalizing debitTotal creditTotal with
  | nil => simp [shapeTotalsTrapping,shapeTotalsOps,shapeTotals]
  | cons leg legs ih =>
    unfold shapeTotalsTrapping shapeTotalsOps shapeTotals
    split
    · rw [guarded_nil]
    · cases leg.direction with
      | debit =>
        simp only [checkedAddTrapping_eq]
        refine bind_guarded _ ?_
        cases checkedAdd debitTotal leg.amount with
        | none => rw [guarded_nil]
        | some total => exact ih total creditTotal
      | credit =>
        simp only [checkedAddTrapping_eq]
        refine bind_guarded _ ?_
        cases checkedAdd creditTotal leg.amount with
        | none => rw [guarded_nil]
        | some total => exact ih debitTotal total

theorem validateShapeTrapping_eq (tx : Transaction) :
    validateShapeTrapping tx =
      guarded FitsInt64 (validateShapeOps tx) (validateTransactionShape tx) := by
  unfold validateShapeTrapping validateShapeOps validateTransactionShape
  dsimp only
  split
  · rw [guarded_nil]
  · split
    · rw [guarded_nil]
    · cases h : shapeTotals tx.legs.span 0 0 <;> simp [shapeTotalsTrapping_eq,h]

end Trapping

structure WellShaped (legs : List EntryLeg) : Prop where
  atLeast : 2 ≤ legs.length
  atMost : legs.length ≤ 16
  positive : ∀ leg ∈ legs, 0 < leg.amount.toInt
  balanced : directionSum .debit legs = directionSum .credit legs
  fits : FitsInt64 (directionSum .debit legs)

section Shape

theorem checkedAddOps_fit (total delta : Int64) : ∀ x ∈ checkedAddOps total delta, FitsInt64 x := by
  have hlt := delta.toInt_lt
  have hle := delta.le_toInt
  have h0 : (0 : Int64).toInt = 0 := by decide
  have hmax : Int64.maxValue.toInt = 2^63-1 := by decide
  have hmin : Int64.minValue.toInt = -2^63 := by decide
  -- past both guards the sum is exact, so it is some balance
  have hsum : ¬ (delta > 0 ∧ total > Int64.maxValue-delta) →
      ¬ (delta < 0 ∧ total < Int64.minValue-delta) → FitsInt64 (total.toInt+delta.toInt) := by
    intro h₁ h₂
    have hsome : checkedAdd total delta = some (total+delta) := by simp [checkedAdd,h₁,h₂]
    rw [← (checkedAdd_eq_some_iff.mp hsome).2]
    exact ⟨(total+delta).le_toInt,(total+delta).toInt_lt⟩
  intro x hx
  simp only [checkedAddOps,List.mem_append] at hx
  obtain hx | hx := hx
  · split at hx
    · case isTrue hpos =>
        rw [gt_iff_lt,Int64.lt_iff_toInt_lt,h0] at hpos
        simp only [List.mem_singleton,hmax] at hx
        constructor <;> omega
    · cases hx
  · split at hx
    · cases hx
    · case isFalse h₁ =>
        simp only [List.mem_append] at hx
        obtain hx | hx := hx
        · split at hx
          · case isTrue hneg =>
              rw [Int64.lt_iff_toInt_lt,h0] at hneg
              simp only [List.mem_singleton,hmin] at hx
              constructor <;> omega
          · cases hx
        · split at hx
          · cases hx
          · case isFalse h₂ =>
              rw [List.mem_singleton.mp hx]
              exact hsum h₁ h₂

theorem shapeTotalsOps_fit (legs : List EntryLeg) (d c : Amount) :
    ∀ x ∈ shapeTotalsOps legs d c, FitsInt64 x := by
  induction legs generalizing d c with
  | nil => simp [shapeTotalsOps]
  | cons leg legs ih =>
    intro x hx
    unfold shapeTotalsOps at hx
    split at hx
    · cases hx
    cases hdir : leg.direction with
    | debit =>
      simp only [hdir,List.mem_append] at hx
      obtain hx | hx := hx
      · exact checkedAddOps_fit d leg.amount x hx
      · cases hadd : checkedAdd d leg.amount with
        | none => simp [hadd] at hx
        | some total => exact ih total c x (by simpa [hadd] using hx)
    | credit =>
      simp only [hdir,List.mem_append] at hx
      obtain hx | hx := hx
      · exact checkedAddOps_fit c leg.amount x hx
      · cases hadd : checkedAdd c leg.amount with
        | none => simp [hadd] at hx
        | some total => exact ih d total x (by simpa [hadd] using hx)

theorem checkedAdd_of_lt {total delta : Int64} (ht : 0 ≤ total.toInt) (hd : 0 < delta.toInt)
    (h : total.toInt+delta.toInt < 2^63) :
    ∃ sum, checkedAdd total delta = some sum ∧ sum.toInt = total.toInt+delta.toInt := by
  have hsum := toInt_add_of_fits (a := total) (b := delta) ⟨by omega,h⟩
  exact ⟨total+delta,checkedAdd_eq_some_iff.mpr ⟨rfl,hsum⟩,hsum⟩

/-- The loop goes through when the totals of all legs fit: those of the legs so
far are not larger. -/
theorem shapeTotals_total {legs : List EntryLeg} {d c : Amount}
    (hpos : ∀ leg ∈ legs, 0 < leg.amount.toInt) (hd : 0 ≤ d.toInt) (hc : 0 ≤ c.toInt)
    (hdebits : d.toInt+directionSum .debit legs < 2^63)
    (hcredits : c.toInt+directionSum .credit legs < 2^63) :
    ∃ d' c', shapeTotals legs d c = .ok (d',c') := by
  induction legs generalizing d c with
  | nil => exact ⟨d,c,rfl⟩
  | cons leg legs ih =>
    have hleg := hpos leg (by simp)
    have hrest : ∀ l ∈ legs, 0 < l.amount.toInt := fun l hl => hpos l (by simp [hl])
    have hne : ¬ leg.amount ≤ 0 := by
      have h0 : (0 : Int64).toInt = 0 := by decide
      rw [Int64.le_iff_toInt_le,h0]
      omega
    have hd' := directionSum_nonneg .debit hrest
    have hc' := directionSum_nonneg .credit hrest
    cases hdir : leg.direction with
    | debit =>
      simp only [directionSum,hdir,if_true,reduceCtorEq,if_false] at hdebits hcredits
      obtain ⟨sum,hsome,hsum⟩ := checkedAdd_of_lt hd hleg (by omega)
      obtain ⟨d',c',htotals⟩ := ih hrest (d := sum) (by omega) hc (by omega) (by omega)
      exact ⟨d',c',by simp [shapeTotals,hne,hdir,hsome,htotals]⟩
    | credit =>
      simp only [directionSum,hdir,if_true,reduceCtorEq,if_false] at hdebits hcredits
      obtain ⟨sum,hsome,hsum⟩ := checkedAdd_of_lt hc hleg (by omega)
      obtain ⟨d',c',htotals⟩ := ih hrest (c := sum) hd (by omega) (by omega) (by omega)
      exact ⟨d',c',by simp [shapeTotals,hne,hdir,hsome,htotals]⟩

theorem validateTransactionShape_iff (tx : Transaction) :
    validateTransactionShape tx = .ok () ↔ WellShaped tx.legs.span := by
  have h0 : (0 : Int64).toInt = 0 := by decide
  rw [validateTransactionShape_totals]
  constructor
  · rintro ⟨hatLeast,hatMost,total,ht⟩
    obtain ⟨hpos,hd,hc,-⟩ := shapeTotals_ok _ ht
    have hlt := total.toInt_lt
    have hle := total.le_toInt
    exact ⟨hatLeast,hatMost,hpos,by omega,by omega,by omega⟩
  · intro h
    have hdebits := h.fits.2
    have hcredits := h.balanced ▸ hdebits
    obtain ⟨d,c,ht⟩ := shapeTotals_total (d := 0) (c := 0) h.positive (by omega) (by omega)
      (by omega) (by omega)
    obtain ⟨-,hd,hc,-⟩ := shapeTotals_ok _ ht
    have heq : d = c := Int64.toInt_inj.mp (by rw [hd,hc,h.balanced])
    exact ⟨h.atLeast,h.atMost,d,heq ▸ ht⟩

theorem directionSum_perm (dir : Direction) {l l' : List EntryLeg} (h : l.Perm l') :
    directionSum dir l = directionSum dir l' := by
  induction h with
  | nil => rfl
  | cons leg h ih => simp only [directionSum,ih]
  | swap leg leg' l =>
    simp only [directionSum]
    omega
  | trans h h' ih ih' => exact ih.trans ih'

theorem WellShaped.perm {l l' : List EntryLeg} (h : WellShaped l) (hperm : l.Perm l') :
    WellShaped l' where
  atLeast := hperm.length_eq ▸ h.atLeast
  atMost := hperm.length_eq ▸ h.atMost
  positive := fun leg hleg => h.positive leg (hperm.mem_iff.mpr hleg)
  balanced := by
    rw [← directionSum_perm .debit hperm,← directionSum_perm .credit hperm]
    exact h.balanced
  fits := directionSum_perm .debit hperm ▸ h.fits

theorem validateShapeOps_fit (tx : Transaction) : ∀ x ∈ validateShapeOps tx, FitsInt64 x := by
  intro x hx
  simp only [validateShapeOps] at hx
  split at hx
  · cases hx
  split at hx
  · cases hx
  exact shapeTotalsOps_fit _ _ _ x hx

theorem validateShapeTrapping_some (tx : Transaction) :
    validateShapeTrapping tx = some (validateTransactionShape tx) := by
  rw [validateShapeTrapping_eq]
  exact (Trapping.guarded_eq_some _).mpr (validateShapeOps_fit tx)

/-- The shape check is the one on integers: its own arithmetic stays in range
whatever the amounts, and the order of the legs plays no part. -/
theorem validateTransactionShape_exact :
    (∀ tx, validateTransactionShape tx = .ok () ↔
      2 ≤ tx.legs.span.length ∧ tx.legs.span.length ≤ 16 ∧
      (∀ leg ∈ tx.legs.span, 0 < leg.amount.toInt) ∧
      directionSum .debit tx.legs.span = directionSum .credit tx.legs.span ∧
      FitsInt64 (directionSum .debit tx.legs.span)) ∧
    (∀ tx, ∀ x ∈ validateShapeOps tx, FitsInt64 x) ∧
    ∀ tx tx' : Transaction, tx.legs.span.Perm tx'.legs.span →
      (validateTransactionShape tx = .ok () ↔ validateTransactionShape tx' = .ok ()) := by
  refine ⟨?_,?_,?_⟩
  · intro tx
    rw [validateTransactionShape_iff]
    constructor
    · rintro ⟨h₁,h₂,h₃,h₄,h₅⟩
      exact ⟨h₁,h₂,h₃,h₄,h₅⟩
    · rintro ⟨h₁,h₂,h₃,h₄,h₅⟩
      exact ⟨h₁,h₂,h₃,h₄,h₅⟩
  · exact validateShapeOps_fit
  · intro tx tx' hperm
    rw [validateTransactionShape_iff,validateTransactionShape_iff]
    exact ⟨fun h => h.perm hperm,fun h => h.perm hperm.symm⟩

end Shape

def limitPayment : Transaction :=
  ⟨5,⟨0,5⟩,0,⟨[⟨1,.debit,Int64.maxValue-1⟩,⟨2,.credit,Int64.maxValue⟩,⟨1,.debit,1⟩],by decide⟩⟩

def creditFirst : Transaction :=
  { limitPayment with legs :=
      ⟨[⟨2,.credit,Int64.maxValue⟩,⟨1,.debit,Int64.maxValue-1⟩,⟨1,.debit,1⟩],by decide⟩ }

theorem validateTransactionShape_exact_limit :
    validateTransactionShape limitPayment = .ok () ∧
    validateTransactionShape creditFirst = .ok () ∧
    ∀ x ∈ validateShapeOps limitPayment, FitsInt64 x := by
  obtain ⟨hiff,hops,hperm⟩ := validateTransactionShape_exact
  have h : validateTransactionShape limitPayment = .ok () := (hiff _).mpr (by decide)
  exact ⟨h,(hperm limitPayment creditFirst (.swap _ _ _)).mp h,hops _⟩

section Table

theorem length_merge_le (id : AccountId) (delta : Amount) (pending : List PendingDelta) :
    (mergeDelta id delta pending).length ≤ pending.length+1 := by
  induction pending with
  | nil => simp [mergeDelta]
  | cons p pending ih =>
    unfold mergeDelta
    split <;> simp [ih]

theorem accumulateDeltas_length {lookup : AccountLookup} {legs : List EntryLeg}
    {pending table : List PendingDelta} (h : accumulateDeltas lookup legs pending = .ok table) :
    table.length ≤ pending.length+legs.length := by
  induction legs generalizing pending with
  | nil =>
    cases h
    simp
  | cons leg legs ih =>
    cases ha : lookup leg.accountId with
    | none => simp [accumulateDeltas,ha] at h
    | some a =>
      have hrest := ih (by simpa [accumulateDeltas,ha] using h)
      have hmerge := length_merge_le leg.accountId
        (signedDelta a.type leg.direction leg.amount) pending
      rw [List.length_cons]
      omega

theorem CheckedLegs.take {legs : List EntryLeg} (h : CheckedLegs legs) (n : Nat) :
    CheckedLegs (legs.take n) :=
  (show CheckedLegs (legs.take n ++ legs.drop n) by simpa using h).left

theorem CheckedLegs.table_bounds {legs : List EntryLeg} (h : CheckedLegs legs) {s : LedgerState}
    {table : List PendingDelta} (htable : accumulateDeltas s.findAccount legs [] = .ok table)
    {p : PendingDelta} (hp : p ∈ table) :
    ∃ a, s.findAccount p.accountId = some a ∧
      p.delta.toInt = exactDelta a.type p.accountId legs ∧
      -(2^63-1) ≤ p.delta.toInt ∧ p.delta.toInt ≤ 2^63-1 := by
  obtain ⟨hexists,-,hids,-⟩ := accumulateDeltas_ok _ htable (by simp)
  obtain hnil | ⟨leg,hleg,hid⟩ := (hids p.accountId).mp (List.mem_map_of_mem hp)
  · cases hnil
  obtain ⟨a,ha⟩ := Option.isSome_iff_exists.mp (hexists leg hleg)
  rw [hid] at ha
  have hdelta := h.delta_eq htable hp ha
  rw [s.keyed _ _ ha] at hdelta
  have hbounds := h.exactDelta_bounds a.type p.accountId
  exact ⟨a,ha,hdelta,by omega,by omega⟩

/-- Merging cannot overflow. After any number of legs the table fits its array
and every delta the range; past the last leg it holds each account once, with the
exact sum. -/
theorem accumulateDeltas_exact (s : LedgerState) (tx : Transaction)
    (hshape : validateTransactionShape tx = .ok ()) :
    let legs := tx.legs.span
    (∀ x ∈ accumulateOps s.findAccount legs [], -(2^63-1) ≤ x ∧ x ≤ 2^63-1) ∧
    (∀ n table, accumulateDeltas s.findAccount (legs.take n) [] = .ok table →
      table.length ≤ 16 ∧ ∀ p ∈ table, -(2^63-1) ≤ p.delta.toInt ∧ p.delta.toInt ≤ 2^63-1) ∧
    ((∀ leg ∈ legs, (s.findAccount leg.accountId).isSome) →
      ∃ table, accumulateDeltas s.findAccount legs [] = .ok table ∧
        (table.map PendingDelta.accountId).Nodup ∧
        (∀ id, id ∈ table.map PendingDelta.accountId ↔ ∃ leg ∈ legs, leg.accountId = id) ∧
        ∀ p ∈ table, ∃ a, s.findAccount p.accountId = some a ∧
          p.delta.toInt = exactDelta a.type p.accountId legs) := by
  intro legs
  have hwell : WellShaped legs := (validateTransactionShape_iff tx).mp hshape
  have hlegs : CheckedLegs legs :=
    ⟨hwell.positive,hwell.fits.2,hwell.balanced ▸ hwell.fits.2⟩
  refine ⟨?_,?_,?_⟩
  · exact (accumulateOps_bounds (show CheckedLegs ([] ++ legs) from hlegs)
      (exactTable_nil s.findAccount)).1
  · intro n table htable
    have hlength := accumulateDeltas_length htable
    have htake := List.length_take_le' n legs
    have hmost := hwell.atMost
    refine ⟨?_,?_⟩
    · rw [List.length_nil] at hlength
      omega
    · intro p hp
      obtain ⟨-,-,-,hbounds⟩ := (hlegs.take n).table_bounds htable hp
      exact hbounds
  · intro hexists
    obtain ⟨table,htable⟩ := accumulateDeltas_total hexists []
    obtain ⟨-,hnodup,hids,-⟩ := accumulateDeltas_ok _ htable (by simp)
    refine ⟨table,htable,hnodup,by simpa using hids,?_⟩
    intro p hp
    obtain ⟨a,ha,hdelta,-⟩ := hlegs.table_bounds htable hp
    exact ⟨a,ha,hdelta⟩

theorem accumulateDeltas_exact_limit : ∃ table,
    accumulateDeltas (LedgerState.ofAccounts [⟨1,.revenue,0,0⟩,⟨2,.asset,0,0⟩]).findAccount
      limitPayment.legs.span [] = .ok table ∧
    table.map (fun p => (p.accountId,p.delta.toInt)) = [(1,-(2^63-1)),(2,-(2^63-1))] ∧
    ∀ p ∈ table, -(2^63-1) ≤ p.delta.toInt ∧ p.delta.toInt ≤ 2^63-1 := by
  obtain ⟨-,hstages,hend⟩ := accumulateDeltas_exact
    (.ofAccounts [⟨1,.revenue,0,0⟩,⟨2,.asset,0,0⟩]) limitPayment (by decide)
  obtain ⟨table,htable,-⟩ := hend (by decide)
  have hvalue : table = [⟨1,-Int64.maxValue⟩,⟨2,-Int64.maxValue⟩] :=
    Except.ok.inj (htable.symm.trans (by decide))
  refine ⟨table,htable,?_,(hstages 3 table htable).2⟩
  rw [hvalue]
  decide

end Table

end FinancialLedger
