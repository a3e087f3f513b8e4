import FinancialLedger.EngineInvariants
import FinancialLedger.Trapping
set_option autoImplicit false

/-!
Signed overflow is undefined in the source language. Here the validators and
`apply` are followed once more, collecting the exact result of each signed
addition and negation they execute: with arithmetic that traps, they return what
they return exactly if all of these fit.
-/

namespace FinancialLedger

def FitsInt64 (x : Int) : Prop := -2^63 ≤ x ∧ x < 2^63

instance (x : Int) : Decidable (FitsInt64 x) := inferInstanceAs (Decidable (_ ∧ _))

def negationOps (type : AccountType) (leg : EntryLeg) : List Int :=
  if increases type leg.direction then [] else [-leg.amount.toInt]

def mergeOps (id : AccountId) (delta : Amount) : List PendingDelta → List Int
  | [] => []
  | p :: pending =>
      if p.accountId = id then [p.delta.toInt+delta.toInt] else mergeOps id delta pending

def accumulateOps (lookup : AccountLookup) : List EntryLeg → List PendingDelta → List Int
  | [], _ => []
  | leg :: legs, pending =>
      match lookup leg.accountId with
      | none => []
      | some account =>
          let delta := signedDelta account.type leg.direction leg.amount
          negationOps account.type leg ++ (mergeOps leg.accountId delta pending ++
            accumulateOps lookup legs (mergeDelta leg.accountId delta pending))

/-- The projected balance, and for a debit-normal account the negated limit;
the loop ends at the first account below its floor. -/
def projectOps (lookup : AccountLookup) : List PendingDelta → List Int
  | [] => []
  | p :: pending =>
      match lookup p.accountId with
      | none => []
      | some account =>
          (account.balance.toInt+p.delta.toInt) ::
            (if isDebitNormal account.type then
              -account.overdraftLimit.toInt ::
                (if account.balance+p.delta < -account.overdraftLimit then []
                else projectOps lookup pending)
            else projectOps lookup pending)

def validateOps (tx : Transaction) (lookup : AccountLookup) : List Int :=
  accumulateOps lookup tx.legs.span [] ++
    match accumulateDeltas lookup tx.legs.span [] with
    | .error _ => []
    | .ok pending => projectOps lookup pending

def applyOps : List EntryLeg → LedgerState → List Int
  | [], _ => []
  | leg :: legs, s =>
      match s.findAccount leg.accountId with
      | none => []
      | some account =>
          let delta := signedDelta account.type leg.direction leg.amount
          negationOps account.type leg ++ ((account.balance.toInt+delta.toInt) ::
            applyOps legs (s.setBalance leg.accountId (account.balance+delta)))

section Trapping
open Trapping

def trapAdd (a b : Int64) : Option Int64 := guarded FitsInt64 [a.toInt+b.toInt] (a+b)

def trapNeg (a : Int64) : Option Int64 := guarded FitsInt64 [-a.toInt] (-a)

def trapDelta (type : AccountType) (dir : Direction) (amount : Amount) : Option Amount :=
  if increases type dir then some amount else trapNeg amount

def mergeTrapping (id : AccountId) (delta : Amount) :
    List PendingDelta → Option (List PendingDelta)
  | [] => some [⟨id,delta⟩]
  | p :: pending =>
      if p.accountId = id then
        (trapAdd p.delta delta).map (fun sum => { p with delta := sum } :: pending)
      else (mergeTrapping id delta pending).map (fun rest => p :: rest)

def accumulateTrapping (lookup : AccountLookup) :
    List EntryLeg → List PendingDelta → Option (Result (List PendingDelta))
  | [], pending => some (.ok pending)
  | leg :: legs, pending =>
      match lookup leg.accountId with
      | none => some (.error .accountNotFound)
      | some account =>
          (trapDelta account.type leg.direction leg.amount).bind (fun delta =>
            (mergeTrapping leg.accountId delta pending).bind (accumulateTrapping lookup legs))

def projectTrapping (lookup : AccountLookup) : List PendingDelta → Option (Result Unit)
  | [] => some (.ok ())
  | p :: pending =>
      match lookup p.accountId with
      | none => some (.error .accountNotFound)
      | some account =>
          (trapAdd account.balance p.delta).bind (fun projected =>
            if isDebitNormal account.type then
              (trapNeg account.overdraftLimit).bind (fun floor =>
                if projected < floor then some (.error .insufficientFunds)
                else projectTrapping lookup pending)
            else projectTrapping lookup pending)

def validateTrapping (tx : Transaction) (lookup : AccountLookup) : Option (Result Unit) :=
  (accumulateTrapping lookup tx.legs.span []).bind (fun
    | .error e => some (.error e)
    | .ok pending => projectTrapping lookup pending)

def applyLegsTrapping : List EntryLeg → LedgerState → Option (Result Unit × LedgerState)
  | [], s => some (.ok (),s)
  | leg :: legs, s =>
      match s.findAccount leg.accountId with
      | none => some (.error .accountNotFound,s)
      | some account =>
          (trapDelta account.type leg.direction leg.amount).bind (fun delta =>
            (trapAdd account.balance delta).bind (fun balance =>
              applyLegsTrapping legs (s.setBalance leg.accountId balance)))

theorem trapDelta_eq (type : AccountType) (leg : EntryLeg) :
    trapDelta type leg.direction leg.amount = guarded FitsInt64 (negationOps type leg)
      (signedDelta type leg.direction leg.amount) := by
  unfold trapDelta negationOps signedDelta
  split
  · rw [guarded_nil]
  · rfl

theorem mergeTrapping_eq (id : AccountId) (delta : Amount) (pending : List PendingDelta) :
    mergeTrapping id delta pending =
      guarded FitsInt64 (mergeOps id delta pending) (mergeDelta id delta pending) := by
  induction pending with
  | nil => simp [mergeTrapping,mergeOps,mergeDelta]
  | cons p pending ih =>
    unfold mergeTrapping mergeOps mergeDelta
    split
    · rw [trapAdd,map_guarded]
    · rw [ih,map_guarded]

theorem accumulateTrapping_eq (lookup : AccountLookup) (legs : List EntryLeg)
    (pending : List PendingDelta) :
    accumulateTrapping lookup legs pending =
      guarded FitsInt64 (accumulateOps lookup legs pending)
        (accumulateDeltas lookup legs pending) := by
  induction legs generalizing pending with
  | nil => simp [accumulateTrapping,accumulateOps,accumulateDeltas]
  | cons leg legs ih =>
    cases ha : lookup leg.accountId with
    | none => simp [accumulateTrapping,accumulateOps,accumulateDeltas,ha]
    | some account =>
      simp only [accumulateTrapping,accumulateOps,accumulateDeltas,ha,trapDelta_eq]
      refine bind_guarded _ ?_
      rw [mergeTrapping_eq]
      exact bind_guarded _ (ih _)

theorem projectTrapping_eq (lookup : AccountLookup) (pending : List PendingDelta) :
    projectTrapping lookup pending =
      guarded FitsInt64 (projectOps lookup pending) (checkProjected lookup pending) := by
  induction pending with
  | nil => simp [projectTrapping,projectOps,checkProjected]
  | cons p pending ih =>
    cases ha : lookup p.accountId with
    | none => simp [projectTrapping,projectOps,checkProjected,ha]
    | some account =>
      simp only [projectTrapping,projectOps,checkProjected,ha]
      refine bind_guarded_cons _ ?_
      cases isDebitNormal account.type with
      | false => simpa using ih
      | true =>
        simp only [if_true,true_and]
        refine bind_guarded_cons _ ?_
        split
        · rw [guarded_nil]
        · exact ih

theorem validateTrapping_eq (tx : Transaction) (lookup : AccountLookup) :
    validateTrapping tx lookup = guarded FitsInt64 (validateOps tx lookup)
      (validateTransactionAgainstState tx lookup) := by
  unfold validateTrapping validateOps validateTransactionAgainstState
  rw [accumulateTrapping_eq]
  refine bind_guarded _ ?_
  cases accumulateDeltas lookup tx.legs.span [] with
  | error e => rw [guarded_nil]
  | ok pending => exact projectTrapping_eq lookup pending

/-- With arithmetic that traps, the loop of `apply` gets through exactly if each of these
sums and negations fits, and then does what it does. -/
theorem applyLegsTrapping_eq (legs : List EntryLeg) (s : LedgerState) :
    applyLegsTrapping legs s =
      guarded FitsInt64 (applyOps legs s) (LedgerState.applyLegs legs s) := by
  induction legs generalizing s with
  | nil => simp [applyLegsTrapping,applyOps,LedgerState.applyLegs]
  | cons leg legs ih =>
    cases ha : s.findAccount leg.accountId with
    | none => simp [applyLegsTrapping,applyOps,LedgerState.applyLegs,ha]
    | some account =>
      simp only [applyLegsTrapping,applyOps,LedgerState.applyLegs,ha,trapDelta_eq]
      refine bind_guarded _ ?_
      exact bind_guarded_cons _ (ih _)

end Trapping

def LedgerEngine.balanceOps (e : LedgerEngine) (p : Popped) : List Int :=
  if p.request.tx.idempotencyKey ∈ e.idempotency.keys then []
  else
    match validateTransactionShape p.request.tx with
    | .error _ => []
    | .ok _ =>
        validateOps p.request.tx e.working.findAccount ++
          (if e.answer p = .none then applyOps p.request.tx.legs.span e.working else [])

def EntryLeg.exact (type : AccountType) (leg : EntryLeg) : Int :=
  if increases type leg.direction then leg.amount.toInt else -leg.amount.toInt

def exactDelta (type : AccountType) (id : AccountId) : List EntryLeg → Int
  | [] => 0
  | leg :: legs => (if leg.accountId = id then leg.exact type else 0)+exactDelta type id legs

/-- The mathematical balance after all legs is not below the account's floor. -/
def Account.Covers (a : Account) (legs : List EntryLeg) : Prop :=
  isDebitNormal a.type → -a.overdraftLimit.toInt ≤ a.balance.toInt+exactDelta a.type a.id legs

section Exact

theorem toInt_add_of_fits {a b : Int64} (h : FitsInt64 (a.toInt+b.toInt)) :
    (a+b).toInt = a.toInt+b.toInt := by
  obtain ⟨hlo,hhi⟩ := h
  rw [Int64.toInt_add,Int.bmod_def]
  omega

theorem toInt_signedDelta (type : AccountType) (leg : EntryLeg) (h : 0 < leg.amount.toInt) :
    (signedDelta type leg.direction leg.amount).toInt = leg.exact type := by
  have hlt := leg.amount.toInt_lt
  unfold signedDelta EntryLeg.exact
  split
  · rfl
  · rw [Int64.toInt_neg,Int.bmod_def]
    omega

theorem negationOps_bounds {type : AccountType} {leg : EntryLeg} (h : 0 < leg.amount.toInt) :
    ∀ x ∈ negationOps type leg, -(2^63-1) ≤ x ∧ x ≤ 2^63-1 := by
  intro x hx
  have hlt := leg.amount.toInt_lt
  unfold negationOps at hx
  split at hx
  · cases hx
  · rw [List.mem_singleton] at hx
    subst hx
    constructor <;> omega

theorem exactDelta_append (type : AccountType) (id : AccountId) (l l' : List EntryLeg) :
    exactDelta type id (l ++ l') = exactDelta type id l+exactDelta type id l' := by
  induction l with
  | nil => simp [exactDelta]
  | cons leg l ih =>
    simp only [List.cons_append,exactDelta,ih]
    omega

theorem directionSum_append (dir : Direction) (l l' : List EntryLeg) :
    directionSum dir (l ++ l') = directionSum dir l+directionSum dir l' := by
  induction l with
  | nil => simp [directionSum]
  | cons leg l ih =>
    simp only [List.cons_append,directionSum,ih]
    omega

theorem directionSum_nonneg (dir : Direction) {legs : List EntryLeg}
    (h : ∀ leg ∈ legs, 0 < leg.amount.toInt) : 0 ≤ directionSum dir legs := by
  induction legs with
  | nil => exact Int.le_refl 0
  | cons leg legs ih =>
    have hleg := h leg (by simp)
    have hrest := ih (fun l hl => h l (by simp [hl]))
    simp only [directionSum]
    split <;> omega

theorem exactDelta_bounds (type : AccountType) (id : AccountId) {legs : List EntryLeg}
    (h : ∀ leg ∈ legs, 0 < leg.amount.toInt) {total : Int}
    (hd : directionSum .debit legs ≤ total) (hc : directionSum .credit legs ≤ total) :
    -total ≤ exactDelta type id legs ∧ exactDelta type id legs ≤ total := by
  have hsides : ∀ up down : Direction, (∀ dir, increases type dir = decide (dir = up)) →
      (∀ dir, dir = up ∨ dir = down) → up ≠ down →
      -directionSum down legs ≤ exactDelta type id legs ∧
        exactDelta type id legs ≤ directionSum up legs := by
    intro up down hinc hboth hne
    clear hd hc
    induction legs with
    | nil => simp [exactDelta,directionSum]
    | cons leg legs ih =>
      have hleg := h leg (by simp)
      obtain ⟨hlo,hhi⟩ := ih (fun l hl => h l (by simp [hl]))
      obtain hdir | hdir := hboth leg.direction
      · simp only [exactDelta,directionSum,EntryLeg.exact,hinc,hdir,hne,decide_true,if_true,
          if_false]
        split <;> omega
      · have hne' : ¬ down = up := fun h => hne h.symm
        simp only [exactDelta,directionSum,EntryLeg.exact,hinc,hdir,hne',decide_false,if_true,
          if_false,Bool.false_eq_true]
        split <;> omega
  obtain hn | hn := Bool.eq_false_or_eq_true (isDebitNormal type)
  · obtain ⟨hlo,hhi⟩ := hsides .debit .credit
      (by intro dir; cases dir <;> simp [increases,hn]) (by intro dir; cases dir <;> simp)
      (by decide)
    omega
  · obtain ⟨hlo,hhi⟩ := hsides .credit .debit
      (by intro dir; cases dir <;> simp [increases,hn]) (by intro dir; cases dir <;> simp)
      (by decide)
    omega

structure CheckedLegs (legs : List EntryLeg) : Prop where
  positive : ∀ leg ∈ legs, 0 < leg.amount.toInt
  debits : directionSum .debit legs < 2^63
  credits : directionSum .credit legs < 2^63

theorem CheckedLegs.left {done rest : List EntryLeg} (h : CheckedLegs (done ++ rest)) :
    CheckedLegs done := by
  have hrest : ∀ leg ∈ rest, 0 < leg.amount.toInt := fun l hl => h.positive l (by simp [hl])
  have hd := h.debits
  have hc := h.credits
  rw [directionSum_append] at hd hc
  have hd' := directionSum_nonneg .debit hrest
  have hc' := directionSum_nonneg .credit hrest
  exact ⟨fun l hl => h.positive l (by simp [hl]),by omega,by omega⟩

theorem CheckedLegs.exactDelta_bounds {legs : List EntryLeg} (h : CheckedLegs legs)
    (type : AccountType) (id : AccountId) :
    -(2^63-1) ≤ exactDelta type id legs ∧ exactDelta type id legs ≤ 2^63-1 :=
  FinancialLedger.exactDelta_bounds type id h.positive (Int.le_sub_one_of_lt h.debits)
    (Int.le_sub_one_of_lt h.credits)

theorem CheckedLegs.fits {legs : List EntryLeg} (h : CheckedLegs legs) (type : AccountType)
    (id : AccountId) : FitsInt64 (exactDelta type id legs) := by
  have hb := h.exactDelta_bounds type id
  constructor <;> omega

end Exact

section Validate

/-- The table holds the mathematical sums of the legs added so far. -/
def ExactTable (lookup : AccountLookup) (done : List EntryLeg) (pending : List PendingDelta) :
    Prop :=
  ∀ id a, lookup id = some a → (pendingFor id pending).toInt = exactDelta a.type id done

theorem mergeOps_eq {id : AccountId} {delta : Amount} {pending : List PendingDelta} {x : Int}
    (hx : x ∈ mergeOps id delta pending) : x = (pendingFor id pending).toInt+delta.toInt := by
  induction pending with
  | nil => cases hx
  | cons p pending ih =>
    by_cases hp : p.accountId = id
    · simpa [mergeOps,pendingFor,hp] using hx
    · simp only [mergeOps,pendingFor,if_neg hp] at hx ⊢
      exact ih hx

theorem exactDelta_snoc (type : AccountType) (id : AccountId) (done : List EntryLeg)
    (leg : EntryLeg) :
    exactDelta type id (done ++ [leg]) =
      exactDelta type id done+(if leg.accountId = id then leg.exact type else 0) := by
  rw [exactDelta_append]
  simp [exactDelta]

section Merge
variable {lookup : AccountLookup} {done : List EntryLeg} {pending : List PendingDelta}
  {leg : EntryLeg} {a : Account}

theorem ExactTable.sum (h : ExactTable lookup done pending) (hleg : 0 < leg.amount.toInt)
    (ha : lookup leg.accountId = some a) :
    (pendingFor leg.accountId pending).toInt+
      (signedDelta a.type leg.direction leg.amount).toInt =
        exactDelta a.type leg.accountId (done ++ [leg]) := by
  rw [h _ a ha,toInt_signedDelta a.type leg hleg,exactDelta_snoc,if_pos rfl]

theorem ExactTable.step (h : ExactTable lookup done pending) (hleg : 0 < leg.amount.toInt)
    (ha : lookup leg.accountId = some a)
    (hfit : FitsInt64 (exactDelta a.type leg.accountId (done ++ [leg]))) :
    ExactTable lookup (done ++ [leg]) (mergeDelta leg.accountId
      (signedDelta a.type leg.direction leg.amount) pending) := by
  have hsum := h.sum hleg ha
  intro id b hb
  rw [pendingFor_merge]
  by_cases hid : leg.accountId = id
  · subst hid
    cases ha.symm.trans hb
    rw [if_pos rfl,toInt_add_of_fits (hsum ▸ hfit),hsum]
  · have hzero : pendingFor id pending+0 = pendingFor id pending := by grind
    rw [if_neg hid,hzero,h id b hb,exactDelta_snoc,if_neg hid,Int.add_zero]

end Merge

theorem accumulateOps_bounds {lookup : AccountLookup} {done rest : List EntryLeg}
    {pending : List PendingDelta} (hlegs : CheckedLegs (done ++ rest))
    (hexact : ExactTable lookup done pending) :
    (∀ x ∈ accumulateOps lookup rest pending, -(2^63-1) ≤ x ∧ x ≤ 2^63-1) ∧
    ∀ table, accumulateDeltas lookup rest pending = .ok table →
      ExactTable lookup (done ++ rest) table := by
  induction rest generalizing done pending with
  | nil =>
    refine ⟨by simp [accumulateOps],?_⟩
    intro table h
    cases h
    simpa using hexact
  | cons leg rest ih =>
    have hpos := hlegs.positive leg (by simp)
    have hsplit : done ++ leg :: rest = (done ++ [leg]) ++ rest := by simp
    rw [hsplit] at hlegs
    cases ha : lookup leg.accountId with
    | none => simp [accumulateOps,accumulateDeltas,ha]
    | some a =>
      obtain ⟨hops,htable⟩ := ih hlegs (hexact.step hpos ha (hlegs.left.fits _ _))
      refine ⟨?_,?_⟩
      · intro x hx
        simp only [accumulateOps,ha,List.mem_append] at hx
        obtain hx | hx | hx := hx
        · exact negationOps_bounds hpos x hx
        · rw [mergeOps_eq hx,hexact.sum hpos ha]
          exact hlegs.left.exactDelta_bounds _ _
        · exact hops x hx
      · intro table ht
        rw [hsplit]
        exact htable table (by simpa [accumulateDeltas,ha] using ht)

theorem exactTable_nil (lookup : AccountLookup) : ExactTable lookup [] [] := fun _ _ _ => rfl

theorem CheckedLegs.delta_eq {legs : List EntryLeg} (h : CheckedLegs legs) {s : LedgerState}
    {table : List PendingDelta} (htable : accumulateDeltas s.findAccount legs [] = .ok table)
    {q : PendingDelta} (hq : q ∈ table) {a : Account} (ha : s.findAccount q.accountId = some a) :
    q.delta.toInt = exactDelta a.type a.id legs := by
  obtain ⟨-,hnd,-,-⟩ := accumulateDeltas_ok _ htable (by simp)
  have hsum := (accumulateOps_bounds (show CheckedLegs ([] ++ legs) from h)
    (exactTable_nil _)).2 table htable q.accountId a ha
  rw [pendingFor_mem hnd hq] at hsum
  rw [hsum,s.keyed _ _ ha]
  rfl

/-- The loop goes on only past accounts that are not below their floor, and as
long as nothing overflows, it sees that from the wrapped sums. -/
theorem projectOps_fit {lookup : AccountLookup} {pending : List PendingDelta}
    (hlimit : ∀ id a, lookup id = some a → 0 ≤ a.overdraftLimit)
    (hfit : ∀ before q after, pending = before ++ q :: after →
      (∀ q' ∈ before, ∀ b, lookup q'.accountId = some b → isDebitNormal b.type →
        -b.overdraftLimit.toInt ≤ b.balance.toInt+q'.delta.toInt) →
      ∀ a, lookup q.accountId = some a → FitsInt64 (a.balance.toInt+q.delta.toInt)) :
    ∀ x ∈ projectOps lookup pending, FitsInt64 x := by
  induction pending with
  | nil => simp [projectOps]
  | cons p pending ih =>
    intro x hx
    cases ha : lookup p.accountId with
    | none => simp [projectOps,ha] at hx
    | some a =>
      have hsum := hfit [] p pending rfl (by simp) a ha
      have hrest : (isDebitNormal a.type →
          -a.overdraftLimit.toInt ≤ a.balance.toInt+p.delta.toInt) →
          ∀ x ∈ projectOps lookup pending, FitsInt64 x := by
        intro hcovers
        refine ih ?_
        intro before q after hsplit hbefore
        refine hfit (p :: before) q after (by rw [hsplit,List.cons_append]) ?_
        intro q' hq' b hb
        obtain rfl | hq' := List.mem_cons.mp hq'
        · rw [ha] at hb
          cases hb
          exact hcovers
        · exact hbefore q' hq' b hb
      have hlt := a.overdraftLimit.toInt_lt
      have hfloor : ¬ a.balance+p.delta < -a.overdraftLimit ↔
          -a.overdraftLimit.toInt ≤ (a.balance+p.delta).toInt := not_lt_neg_iff (hlimit _ a ha)
      rw [toInt_add_of_fits hsum] at hfloor
      simp only [projectOps,ha,List.mem_cons] at hx
      obtain rfl | hx := hx
      · exact hsum
      split at hx
      · obtain rfl | hx := List.mem_cons.mp hx
        · have hge := hlimit _ a ha
          have h0 : (0 : Int64).toInt = 0 := by decide
          rw [Int64.le_iff_toInt_le,h0] at hge
          constructor <;> omega
        · split at hx
          · cases hx
          · case isFalse habove => exact hrest (fun _ => hfloor.mp habove) x hx
      · case isFalse hcredit => exact hrest (fun hdebit => absurd hdebit hcredit) x hx

theorem validateOps_fit {tx : Transaction} {s : LedgerState}
    (hlegs : CheckedLegs tx.legs.span)
    (hlimit : ∀ id a, s.findAccount id = some a → 0 ≤ a.overdraftLimit)
    (hfit : (∀ leg ∈ tx.legs.span, (s.findAccount leg.accountId).isSome) →
      ∀ done leg rest, tx.legs.span = done ++ leg :: rest →
        (∀ l ∈ done, ∀ a, s.findAccount l.accountId = some a → a.Covers tx.legs.span) →
        ∀ a, s.findAccount leg.accountId = some a →
          FitsInt64 (a.balance.toInt+exactDelta a.type a.id tx.legs.span)) :
    ∀ x ∈ validateOps tx s.findAccount, FitsInt64 x := by
  obtain ⟨hops,-⟩ := accumulateOps_bounds (show CheckedLegs ([] ++ tx.legs.span) from hlegs)
    (exactTable_nil s.findAccount)
  intro x hx
  rw [validateOps,List.mem_append] at hx
  obtain hx | hx := hx
  · have hb := hops x hx
    constructor <;> omega
  cases hacc : accumulateDeltas s.findAccount tx.legs.span [] with
  | error e => simp [hacc] at hx
  | ok table =>
    obtain ⟨hexists,-,-,-⟩ := accumulateDeltas_ok _ hacc (by simp)
    simp only [hacc] at hx
    refine projectOps_fit hlimit ?_ x hx
    intro before q after hsplit hbefore a ha
    obtain hnil | ⟨done,leg,rest,hspan,hid,hdone⟩ := accumulateDeltas_order (hsplit ▸ hacc)
    · cases hnil
    rw [hlegs.delta_eq hacc (by rw [hsplit]; simp) ha]
    refine hfit hexists done leg rest hspan ?_ a (hid ▸ ha)
    intro l hl b hb hdebit
    obtain ⟨q',hq',hid'⟩ := List.mem_map.mp (hdone l hl)
    rw [← hid'] at hb
    rw [← hlegs.delta_eq hacc (by rw [hsplit]; simp [hq']) hb]
    exact hbefore q' hq' b hb hdebit

end Validate

section Apply

def TracksExactly (s₀ s : LedgerState) (done : List EntryLeg) : Prop :=
  ∀ id a, s₀.findAccount id = some a → ∃ b, s.findAccount id = some b ∧ b.type = a.type ∧
    b.balance.toInt = a.balance.toInt+exactDelta a.type id done

theorem TracksExactly.refl (s : LedgerState) : TracksExactly s s [] := by
  intro id a ha
  exact ⟨a,ha,rfl,by simp [exactDelta]⟩

section Leg
variable {s₀ s : LedgerState} {done : List EntryLeg} {leg : EntryLeg} {a b : Account}

theorem TracksExactly.sum (h : TracksExactly s₀ s done) (hleg : 0 < leg.amount.toInt)
    (ha : s₀.findAccount leg.accountId = some a) (hb : s.findAccount leg.accountId = some b) :
    b.balance.toInt+(signedDelta b.type leg.direction leg.amount).toInt =
      a.balance.toInt+exactDelta a.type leg.accountId (done ++ [leg]) := by
  obtain ⟨c,hc,htype,hbal⟩ := h _ a ha
  cases hb.symm.trans hc
  rw [hbal,toInt_signedDelta b.type leg hleg,exactDelta_snoc,if_pos rfl,htype]
  omega

theorem TracksExactly.step (h : TracksExactly s₀ s done) (hleg : 0 < leg.amount.toInt)
    (hb : s.findAccount leg.accountId = some b)
    (hfit : FitsInt64 (b.balance.toInt+(signedDelta b.type leg.direction leg.amount).toInt)) :
    TracksExactly s₀ (s.setBalance leg.accountId
      (b.balance+signedDelta b.type leg.direction leg.amount)) (done ++ [leg]) := by
  intro id c hc
  obtain ⟨d,hd,hdtype,hdbal⟩ := h id c hc
  rw [LedgerState.findAccount_setBalance]
  by_cases hid : id = leg.accountId
  · subst hid
    cases hb.symm.trans hd
    rw [if_pos rfl,hb]
    exact ⟨_,rfl,hdtype,(toInt_add_of_fits hfit).trans (h.sum hleg hc hb)⟩
  · have hne : ¬ leg.accountId = id := fun h => hid h.symm
    rw [if_neg hid,exactDelta_snoc,if_neg hne,Int.add_zero]
    exact ⟨d,hd,hdtype,hdbal⟩

end Leg

theorem applyOps_fit {s₀ s : LedgerState} {done rest : List EntryLeg}
    (hpos : ∀ leg ∈ rest, 0 < leg.amount.toInt) (htrack : TracksExactly s₀ s done)
    (hexists : ∀ leg ∈ rest, (s₀.findAccount leg.accountId).isSome)
    (hfit : ∀ leg ∈ rest, ∀ a, s₀.findAccount leg.accountId = some a →
      ∀ n, FitsInt64 (a.balance.toInt+
        exactDelta a.type leg.accountId ((done ++ rest).take n))) :
    ∀ x ∈ applyOps rest s, FitsInt64 x := by
  induction rest generalizing done s with
  | nil => simp [applyOps]
  | cons leg rest ih =>
    have hleg := hpos leg (by simp)
    have hsplit : done ++ leg :: rest = (done ++ [leg]) ++ rest := by simp
    obtain ⟨a,ha⟩ := Option.isSome_iff_exists.mp (hexists leg (by simp))
    obtain ⟨b,hb,-,-⟩ := htrack _ a ha
    have hnow : FitsInt64 (b.balance.toInt+
        (signedDelta b.type leg.direction leg.amount).toInt) := by
      have hn := hfit leg (by simp) a ha (done.length+1)
      rw [hsplit,List.take_left' (by simp)] at hn
      rw [htrack.sum hleg ha hb]
      exact hn
    have hrest := ih (fun l hl => hpos l (by simp [hl])) (htrack.step hleg hb hnow)
      (fun l hl => hexists l (by simp [hl])) (by
        intro l hl c hc n
        rw [← hsplit]
        exact hfit l (by simp [hl]) c hc n)
    intro x hx
    simp only [applyOps,hb,List.mem_append,List.mem_cons] at hx
    obtain hx | rfl | hx := hx
    · have hneg := negationOps_bounds hleg x hx
      constructor <;> omega
    · exact hnow
    · exact hrest x hx

end Apply

end FinancialLedger
