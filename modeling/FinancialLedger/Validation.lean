import FinancialLedger.LedgerState
set_option autoImplicit false

namespace FinancialLedger

/-- `none` stands for the answer false. -/
def checkedAdd (total delta : Int64) : Option Int64 :=
  if delta > 0 ∧ total > Int64.maxValue-delta then none
  else if delta < 0 ∧ total < Int64.minValue-delta then none
  else some (total+delta)

def shapeTotals : List EntryLeg → Amount → Amount → Result (Amount × Amount)
  | [], debitTotal, creditTotal => .ok (debitTotal,creditTotal)
  | leg :: legs, debitTotal, creditTotal =>
      if leg.amount ≤ 0 then .error .zeroAmountLeg
      else
        match leg.direction with
        | .debit =>
            match checkedAdd debitTotal leg.amount with
            | none => .error .amountOverflow
            | some total => shapeTotals legs total creditTotal
        | .credit =>
            match checkedAdd creditTotal leg.amount with
            | none => .error .amountOverflow
            | some total => shapeTotals legs debitTotal total

def validateTransactionShape (tx : Transaction) : Result Unit :=
  let legs := tx.legs.span
  if legs.length < 2 then .error .tooFewLegs
  else if kMaxLegsPerTransaction < legs.length then .error .tooManyLegs
  else
    match shapeTotals legs 0 0 with
    | .error e => .error e
    | .ok (debitTotal,creditTotal) =>
        if debitTotal ≠ creditTotal then .error .unbalancedTransaction else .ok ()

abbrev AccountLookup := AccountId → Option Account

structure PendingDelta where
  accountId : AccountId
  delta : Amount
  deriving DecidableEq, Repr

/-- The nested search: add to the first entry of the account, or append one. -/
def mergeDelta (id : AccountId) (delta : Amount) : List PendingDelta → List PendingDelta
  | [] => [⟨id,delta⟩]
  | p :: pending =>
      if p.accountId = id then { p with delta := p.delta+delta } :: pending
      else p :: mergeDelta id delta pending

def accumulateDeltas (lookup : AccountLookup) :
    List EntryLeg → List PendingDelta → Result (List PendingDelta)
  | [], pending => .ok pending
  | leg :: legs, pending =>
      match lookup leg.accountId with
      | none => .error .accountNotFound
      | some account =>
          accumulateDeltas lookup legs (mergeDelta leg.accountId
            (signedDelta account.type leg.direction leg.amount) pending)

def checkProjected (lookup : AccountLookup) : List PendingDelta → Result Unit
  | [] => .ok ()
  | p :: pending =>
      match lookup p.accountId with
      -- The source dereferences here; the first loop has found every account.
      | none => .error .accountNotFound
      | some account =>
          if isDebitNormal account.type ∧ account.balance+p.delta < -account.overdraftLimit then
            .error .insufficientFunds
          else checkProjected lookup pending

def validateTransactionAgainstState (tx : Transaction) (lookup : AccountLookup) : Result Unit :=
  match accumulateDeltas lookup tx.legs.span [] with
  | .error e => .error e
  | .ok pending => checkProjected lookup pending

section Shape

theorem checkedAdd_eq (total delta : Int64) :
    checkedAdd total delta = if (total+delta).toInt = total.toInt+delta.toInt
      then some (total+delta) else none := by
  have ht := total.toInt_lt
  have ht' := total.le_toInt
  have hd := delta.toInt_lt
  have hd' := delta.le_toInt
  have hlt := (total+delta).toInt_lt
  have hle := (total+delta).le_toInt
  have h0 : (0 : Int64).toInt = 0 := by decide
  have hmax : (Int64.maxValue-delta).toInt = (2^63-1-delta.toInt).bmod (2^64) := by
    rw [Int64.toInt_sub]; rfl
  have hmin : (Int64.minValue-delta).toInt = (-2^63-delta.toInt).bmod (2^64) := by
    rw [Int64.toInt_sub]; rfl
  unfold checkedAdd
  simp only [gt_iff_lt,Int64.lt_iff_toInt_lt,h0,hmax,hmin]
  split
  · case isTrue h₁ =>
      simp only [Int.bmod_def] at h₁
      rw [if_neg (by omega)]
  · case isFalse h₁ =>
      split
      · case isTrue h₂ =>
          simp only [Int.bmod_def] at h₂
          rw [if_neg (by omega)]
      · case isFalse h₂ =>
          simp only [not_and_or,not_lt,Int64.toInt_add,Int.bmod_def] at h₁ h₂ ⊢
          rw [if_pos (by omega)]

theorem checkedAdd_eq_some_iff {total delta r : Int64} :
    checkedAdd total delta = some r ↔
      r = total+delta ∧ r.toInt = total.toInt+delta.toInt := by
  rw [checkedAdd_eq]
  constructor
  · intro h
    split at h
    · case isTrue hsum =>
        cases h
        exact ⟨rfl,hsum⟩
    · cases h
  · rintro ⟨rfl,hsum⟩
    rw [if_pos hsum]

def directionSum (dir : Direction) : List EntryLeg → Int
  | [] => 0
  | leg :: legs => (if leg.direction = dir then leg.amount.toInt else 0)+directionSum dir legs

theorem shapeTotals_cons_ok {leg : EntryLeg} {legs : List EntryLeg} {d c : Amount}
    {totals : Amount × Amount} (h : shapeTotals (leg :: legs) d c = .ok totals) :
    0 < leg.amount.toInt ∧ ∃ d' c', shapeTotals legs d' c' = .ok totals ∧
      d'.toInt = d.toInt+(if leg.direction = .debit then leg.amount.toInt else 0) ∧
      c'.toInt = c.toInt+(if leg.direction = .credit then leg.amount.toInt else 0) ∧
      d'-c' = d-c+leg.imbalance := by
  unfold shapeTotals at h
  split at h
  · cases h
  case isFalse hpos =>
  have h0 : (0 : Int64).toInt = 0 := by decide
  rw [Int64.le_iff_toInt_le,h0] at hpos
  refine ⟨by omega,?_⟩
  cases hdir : leg.direction with
  | debit =>
    simp only [hdir] at h
    cases hadd : checkedAdd d leg.amount with
    | none => simp [hadd] at h
    | some total =>
      obtain ⟨heq,hint⟩ := checkedAdd_eq_some_iff.mp hadd
      refine ⟨total,c,by simpa [hadd] using h,by simpa using hint,by simp,?_⟩
      simp only [EntryLeg.imbalance,hdir,if_pos,heq]
      grind
  | credit =>
    simp only [hdir] at h
    cases hadd : checkedAdd c leg.amount with
    | none => simp [hadd] at h
    | some total =>
      obtain ⟨heq,hint⟩ := checkedAdd_eq_some_iff.mp hadd
      refine ⟨d,total,by simpa [hadd] using h,by simp,by simpa using hint,?_⟩
      simp only [EntryLeg.imbalance,hdir,heq,reduceCtorEq,if_false]
      grind

theorem shapeTotals_ok (legs : List EntryLeg) {d c d' c' : Amount}
    (h : shapeTotals legs d c = .ok (d',c')) :
    (∀ leg ∈ legs, 0 < leg.amount.toInt) ∧
    d'.toInt = d.toInt+directionSum .debit legs ∧
    c'.toInt = c.toInt+directionSum .credit legs ∧
    d'-c' = d-c+legsImbalance legs := by
  induction legs generalizing d c with
  | nil =>
    simp only [shapeTotals,Except.ok.injEq,Prod.mk.injEq] at h
    obtain ⟨rfl,rfl⟩ := h
    refine ⟨by simp,by simp [directionSum],by simp [directionSum],?_⟩
    simp only [legsImbalance]
    grind
  | cons leg legs ih =>
    obtain ⟨hpos,d₁,c₁,hrest,hd₁,hc₁,him₁⟩ := shapeTotals_cons_ok h
    obtain ⟨hall,hd,hc,him⟩ := ih hrest
    refine ⟨by simpa [hpos] using hall,?_,?_,?_⟩
    · simp only [directionSum]
      omega
    · simp only [directionSum]
      omega
    · simp only [legsImbalance]
      grind

theorem validateTransactionShape_totals {tx : Transaction} :
    validateTransactionShape tx = .ok () ↔
      2 ≤ tx.legs.span.length ∧ tx.legs.span.length ≤ kMaxLegsPerTransaction ∧
        ∃ total, shapeTotals tx.legs.span 0 0 = .ok (total,total) := by
  simp only [validateTransactionShape]
  split
  · case isTrue hfew => simp [Nat.not_le.mpr hfew]
  split
  · case isTrue hmany => simp [Nat.not_le.mpr hmany]
  case isFalse hfew hmany =>
  simp only [Nat.le_of_not_lt hfew,Nat.le_of_not_lt hmany,true_and]
  cases ht : shapeTotals tx.legs.span 0 0 with
  | error e => simp
  | ok totals =>
    obtain ⟨d,c⟩ := totals
    by_cases heq : d = c
    · simp [heq]
    · have hne : ¬ c = d := fun h => heq h.symm
      simp [heq,hne]

theorem validateTransactionShape_ok {tx : Transaction}
    (h : validateTransactionShape tx = .ok ()) :
    (∀ leg ∈ tx.legs.span, 0 < leg.amount.toInt) ∧
    directionSum .debit tx.legs.span < 2^63 ∧ directionSum .credit tx.legs.span < 2^63 ∧
    legsImbalance tx.legs.span = 0 := by
  obtain ⟨-,-,total,ht⟩ := validateTransactionShape_totals.mp h
  obtain ⟨hall,hd,hc,him⟩ := shapeTotals_ok _ ht
  have h0 : (0 : Int64).toInt = 0 := by decide
  have hlt := total.toInt_lt
  refine ⟨hall,by omega,by omega,?_⟩
  grind

end Shape

section AgainstState

def pendingFor (id : AccountId) : List PendingDelta → Amount
  | [] => 0
  | p :: pending => if p.accountId = id then p.delta else pendingFor id pending

theorem pendingFor_merge (id id' : AccountId) (delta : Amount) (pending : List PendingDelta) :
    pendingFor id' (mergeDelta id delta pending) =
      pendingFor id' pending+(if id = id' then delta else 0) := by
  induction pending with
  | nil =>
    simp only [mergeDelta,pendingFor]
    split <;> grind
  | cons p pending ih =>
    by_cases hp : p.accountId = id
    · rw [mergeDelta,if_pos hp]
      simp only [pendingFor,hp]
      by_cases h : id = id'
      · simp only [if_pos h]
      · simp only [if_neg h]
        grind
    · simp only [mergeDelta,if_neg hp,pendingFor,ih]
      split <;> rename_i h
      · have : ¬ id = id' := fun hc => hp (h.trans hc.symm)
        simp only [if_neg this]
        grind
      · rfl

/-- Accounts stand in the table in the order in which the legs first name them. -/
theorem ids_merge (id : AccountId) (delta : Amount) (pending : List PendingDelta) :
    (mergeDelta id delta pending).map PendingDelta.accountId =
      pending.map PendingDelta.accountId ++
        (if id ∈ pending.map PendingDelta.accountId then [] else [id]) := by
  induction pending with
  | nil => simp [mergeDelta]
  | cons p pending ih =>
    by_cases hp : p.accountId = id
    · simp [mergeDelta,hp]
    · have hne : ¬ id = p.accountId := fun h => hp h.symm
      rw [mergeDelta,if_neg hp,List.map_cons,ih]
      simp [hne]

theorem mem_ids_merge (id id' : AccountId) (delta : Amount) (pending : List PendingDelta) :
    id' ∈ (mergeDelta id delta pending).map PendingDelta.accountId ↔
      id' = id ∨ id' ∈ pending.map PendingDelta.accountId := by
  rw [ids_merge,List.mem_append]
  by_cases hid : id ∈ pending.map PendingDelta.accountId
  · rw [if_pos hid]
    constructor
    · rintro (h | h)
      · exact .inr h
      · cases h
    · rintro (rfl | h)
      · exact .inl hid
      · exact .inl h
  · rw [if_neg hid,List.mem_singleton]
    exact Or.comm

theorem nodup_ids_merge (id : AccountId) (delta : Amount) {pending : List PendingDelta}
    (h : (pending.map PendingDelta.accountId).Nodup) :
    ((mergeDelta id delta pending).map PendingDelta.accountId).Nodup := by
  rw [ids_merge]
  split
  · simpa using h
  · case isFalse hid => exact h.append (List.nodup_singleton id) (by simpa using hid)

theorem pendingFor_mem {pending : List PendingDelta}
    (h : (pending.map PendingDelta.accountId).Nodup) {p : PendingDelta} (hp : p ∈ pending) :
    pendingFor p.accountId pending = p.delta := by
  induction pending with
  | nil => cases hp
  | cons q pending ih =>
    rw [List.map_cons,List.nodup_cons] at h
    rcases List.mem_cons.mp hp with rfl | hm
    · simp [pendingFor]
    · have hne : ¬ q.accountId = p.accountId := fun hc =>
        h.1 (hc ▸ List.mem_map_of_mem hm)
      simp only [pendingFor,if_neg hne,ih h.2 hm]

/-- The table after the first loop: one entry for each account named so far,
holding the sum of that account's legs. -/
theorem accumulateDeltas_ok {lookup : AccountLookup} (legs : List EntryLeg)
    {pending table : List PendingDelta}
    (h : accumulateDeltas lookup legs pending = .ok table)
    (hn : (pending.map PendingDelta.accountId).Nodup) :
    (∀ leg ∈ legs, (lookup leg.accountId).isSome) ∧
    (table.map PendingDelta.accountId).Nodup ∧
    (∀ id, id ∈ table.map PendingDelta.accountId ↔
      id ∈ pending.map PendingDelta.accountId ∨ ∃ leg ∈ legs, leg.accountId = id) ∧
    ∀ id a, lookup id = some a →
      pendingFor id table = pendingFor id pending+legsDelta a.type id legs := by
  induction legs generalizing pending with
  | nil =>
    simp only [accumulateDeltas,Except.ok.injEq] at h
    subst h
    refine ⟨by simp,hn,by simp,fun id a _ => ?_⟩
    simp only [legsDelta]
    grind
  | cons leg legs ih =>
    cases ha : lookup leg.accountId with
    | none => simp [accumulateDeltas,ha] at h
    | some account =>
      simp only [accumulateDeltas,ha] at h
      obtain ⟨hall,hnd,hids,hsum⟩ := ih h (nodup_ids_merge _ _ hn)
      refine ⟨?_,hnd,fun id => ?_,fun id a hid => ?_⟩
      · intro l hl
        rcases List.mem_cons.mp hl with rfl | hm
        · simp [ha]
        · exact hall l hm
      · rw [hids,mem_ids_merge]
        simp only [List.mem_cons,exists_eq_or_imp]
        constructor
        · rintro ((h₁ | h₁) | h₁)
          · exact .inr (.inl h₁.symm)
          · exact .inl h₁
          · exact .inr (.inr h₁)
        · rintro (h₁ | h₁ | h₁)
          · exact .inl (.inr h₁)
          · exact .inl (.inl h₁.symm)
          · exact .inr h₁
      · rw [hsum id a hid,pendingFor_merge]
        by_cases he : leg.accountId = id
        · rw [he,hid] at ha
          cases ha
          simp only [legsDelta,if_pos he]
          grind
        · simp only [legsDelta,if_neg he]
          grind

theorem accumulateDeltas_total {lookup : AccountLookup} {legs : List EntryLeg}
    (h : ∀ leg ∈ legs, (lookup leg.accountId).isSome) (pending : List PendingDelta) :
    ∃ table, accumulateDeltas lookup legs pending = .ok table := by
  induction legs generalizing pending with
  | nil => exact ⟨pending,rfl⟩
  | cons leg legs ih =>
    obtain ⟨a,ha⟩ := Option.isSome_iff_exists.mp (h leg (by simp))
    simp only [accumulateDeltas,ha]
    exact ih (fun l hl => h l (by simp [hl])) _

theorem accumulateDeltas_ids {lookup : AccountLookup} {legs : List EntryLeg}
    {pending table : List PendingDelta} (h : accumulateDeltas lookup legs pending = .ok table) :
    pending.map PendingDelta.accountId <+: table.map PendingDelta.accountId := by
  induction legs generalizing pending with
  | nil =>
    cases h
    exact List.prefix_refl _
  | cons leg legs ih =>
    cases ha : lookup leg.accountId with
    | none => simp [accumulateDeltas,ha] at h
    | some account =>
      simp only [accumulateDeltas,ha] at h
      have hrest := ih h
      rw [ids_merge] at hrest
      exact (List.prefix_append _ _).trans hrest

theorem accumulateDeltas_order {lookup : AccountLookup} {legs : List EntryLeg}
    {pending before after : List PendingDelta} {q : PendingDelta}
    (h : accumulateDeltas lookup legs pending = .ok (before ++ q :: after)) :
    q.accountId ∈ pending.map PendingDelta.accountId ∨
    ∃ done leg rest, legs = done ++ leg :: rest ∧ leg.accountId = q.accountId ∧
      ∀ l ∈ done, l.accountId ∈ before.map PendingDelta.accountId := by
  induction legs generalizing pending with
  | nil =>
    cases h
    exact .inl (by simp)
  | cons leg legs ih =>
    cases ha : lookup leg.accountId with
    | none => simp [accumulateDeltas,ha] at h
    | some account =>
      simp only [accumulateDeltas,ha] at h
      by_cases hq : q.accountId ∈ (mergeDelta leg.accountId
          (signedDelta account.type leg.direction leg.amount) pending).map PendingDelta.accountId
      · obtain hid | hold := (mem_ids_merge _ _ _ _).mp hq
        · exact .inr ⟨[],leg,legs,rfl,hid.symm,by simp⟩
        · exact .inl hold
      · obtain hmem | ⟨done,leg',rest,hlegs,hid,hdone⟩ := ih h
        · exact absurd hmem hq
        · refine .inr ⟨leg :: done,leg',rest,by rw [hlegs,List.cons_append],hid,?_⟩
          have hin := (mem_ids_merge leg.accountId leg.accountId
            (signedDelta account.type leg.direction leg.amount) pending).mpr (.inl rfl)
          obtain ⟨more,hmore⟩ := accumulateDeltas_ids h
          rw [List.map_append,List.map_cons] at hmore
          intro l hl
          obtain rfl | hl := List.mem_cons.mp hl
          · obtain ⟨mid,hmid,-⟩ | ⟨mid,hmid,hrest⟩ := List.append_eq_append_iff.mp hmore
            · rw [hmid]
              exact List.mem_append_left _ hin
            · cases mid with
              | nil =>
                rw [List.append_nil] at hmid
                exact hmid ▸ hin
              | cons m mid =>
                rw [List.cons_append] at hrest
                have hm := (List.cons.inj hrest).1
                exact absurd (by rw [hmid,hm]; simp) hq
          · exact hdone l hl

theorem checkProjected_ok {lookup : AccountLookup} {pending : List PendingDelta}
    (h : checkProjected lookup pending = .ok ()) {p : PendingDelta} (hp : p ∈ pending)
    {a : Account} (ha : lookup p.accountId = some a) (hd : isDebitNormal a.type) :
    ¬ a.balance+p.delta < -a.overdraftLimit := by
  induction pending with
  | nil => cases hp
  | cons q pending ih =>
    cases hq : lookup q.accountId with
    | none => simp [checkProjected,hq] at h
    | some account =>
      simp only [checkProjected,hq] at h
      split at h
      · cases h
      · rename_i hc
        rcases List.mem_cons.mp hp with rfl | hm
        · rw [ha] at hq
          cases hq
          exact fun hlt => hc ⟨hd,hlt⟩
        · exact ih h hm

theorem checkProjected_of_forall {lookup : AccountLookup} {pending : List PendingDelta}
    (h : ∀ p ∈ pending, ∃ a, lookup p.accountId = some a ∧
      (isDebitNormal a.type → ¬ a.balance+p.delta < -a.overdraftLimit)) :
    checkProjected lookup pending = .ok () := by
  induction pending with
  | nil => rfl
  | cons p pending ih =>
    obtain ⟨a,ha,hfloor⟩ := h p (by simp)
    have hrest := ih (fun q hq => h q (by simp [hq]))
    simp only [checkProjected,ha]
    rw [if_neg (fun hc => hfloor hc.1 hc.2),hrest]

theorem accumulateDeltas_post {s : LedgerState} {legs : List EntryLeg} {table : List PendingDelta}
    (h : accumulateDeltas s.findAccount legs [] = .ok table) {p : PendingDelta} (hp : p ∈ table)
    {a : Account} (ha : s.findAccount p.accountId = some a) :
    a.post legs = { a with balance := a.balance+p.delta } := by
  obtain ⟨-,hnd,-,hsum⟩ := accumulateDeltas_ok _ h (by simp)
  have hzero : pendingFor p.accountId []+legsDelta a.type p.accountId legs =
      legsDelta a.type p.accountId legs := by
    simp only [pendingFor]
    grind
  rw [Account.post,s.keyed _ _ ha,← pendingFor_mem hnd hp,hsum _ _ ha,hzero]

/-- A request passes when it names existing accounts only, and walking its legs
leaves every debit-normal account it names at or above its floor. -/
theorem validateTransactionAgainstState_iff {tx : Transaction} {s : LedgerState} :
    validateTransactionAgainstState tx s.findAccount = .ok () ↔
    (∀ leg ∈ tx.legs.span, (s.findAccount leg.accountId).isSome) ∧
    ∀ leg ∈ tx.legs.span, ∀ a, s.findAccount leg.accountId = some a → isDebitNormal a.type →
      ¬ (a.post tx.legs.span).balance < -a.overdraftLimit := by
  unfold validateTransactionAgainstState
  cases hacc : accumulateDeltas s.findAccount tx.legs.span [] with
  | error e =>
    refine ⟨nofun,fun h => ?_⟩
    obtain ⟨table,hok⟩ := accumulateDeltas_total h.1 []
    cases hok.symm.trans hacc
  | ok table =>
    obtain ⟨hall,-,hids,-⟩ := accumulateDeltas_ok _ hacc (by simp)
    constructor
    · intro h
      refine ⟨hall,fun leg hl a ha hd => ?_⟩
      obtain ⟨p,hp,hpid⟩ := List.mem_map.mp ((hids leg.accountId).mpr (.inr ⟨leg,hl,rfl⟩))
      rw [accumulateDeltas_post hacc hp (hpid ▸ ha)]
      exact checkProjected_ok h hp (hpid ▸ ha) hd
    · rintro ⟨-,hfloor⟩
      refine checkProjected_of_forall (fun p hp => ?_)
      obtain hnil | ⟨leg,hl,hid⟩ := (hids p.accountId).mp (List.mem_map_of_mem hp)
      · cases hnil
      obtain ⟨a,ha⟩ := Option.isSome_iff_exists.mp (hall leg hl)
      refine ⟨a,hid ▸ ha,fun hd => ?_⟩
      have habove := hfloor leg hl a ha hd
      rwa [accumulateDeltas_post hacc hp (hid ▸ ha)] at habove

end AgainstState

end FinancialLedger
