import Mathlib.Data.Finmap
import FinancialLedger.Types
set_option autoImplicit false

namespace FinancialLedger

/-- The contents of an `unordered_map` from ids to accounts. A `Finmap` has no
iteration order; code that iterates is a fold that no order can influence, or
takes the order as an argument. -/
abbrev AccountMap := Finmap (fun _ : AccountId => Account)

structure LedgerState where
  accounts : AccountMap
  /-- Accounts are only ever stored under their own id. -/
  keyed : ∀ id a, accounts.lookup id = some a → a.id = id
  lastAppliedId : TransactionId

def LedgerState.empty : LedgerState := ⟨∅,by simp,0⟩

def LedgerState.findAccount (s : LedgerState) (id : AccountId) : Option Account :=
  s.accounts.lookup id

theorem LedgerState.ext_find {s t : LedgerState} (hf : ∀ id, s.findAccount id = t.findAccount id)
    (hi : s.lastAppliedId = t.lastAppliedId) : s = t := by
  have hm : s.accounts = t.accounts := Finmap.ext_lookup hf
  cases s; cases t
  simp_all

/-- `emplace`: an id that is already present keeps its account. -/
def LedgerState.addAccount (s : LedgerState) (a : Account) : Bool × LedgerState :=
  if a.id ∈ s.accounts then (false,s)
  else
    (true,{ s with
      accounts := s.accounts.insert a.id a
      keyed := by
        intro id b h
        by_cases hid : id = a.id
        · subst hid
          rw [Finmap.lookup_insert] at h
          cases h
          rfl
        · rw [Finmap.lookup_insert_of_ne _ hid] at h
          exact s.keyed id b h })

theorem LedgerState.findAccount_addAccount (s : LedgerState) (a : Account) (id : AccountId) :
    (s.addAccount a).2.findAccount id =
      if id = a.id then some ((s.findAccount id).getD a) else s.findAccount id := by
  by_cases hm : a.id ∈ s.accounts
  · obtain ⟨b,hb⟩ := Finmap.mem_iff.mp hm
    by_cases hid : id = a.id
    · subst hid
      simp [addAccount,hm,findAccount,hb]
    · simp [addAccount,hm,hid]
  · have hn := Finmap.lookup_eq_none.mpr hm
    by_cases hid : id = a.id
    · subst hid
      simp [addAccount,hm,findAccount,hn]
    · simp [addAccount,hm,findAccount,hid,Finmap.lookup_insert_of_ne _ hid]

@[simp] theorem LedgerState.addAccount_lastAppliedId (s : LedgerState) (a : Account) :
    (s.addAccount a).2.lastAppliedId = s.lastAppliedId := by
  unfold addAccount
  split <;> rfl

theorem LedgerState.findAccount_foldl_addAccount (accounts : List Account) (s : LedgerState) (id : AccountId) :
    (accounts.foldl (fun t a => (t.addAccount a).2) s).findAccount id =
      (s.findAccount id).or (accounts.find? (fun a => a.id = id)) := by
  induction accounts generalizing s with
  | nil => simp
  | cons a accounts ih =>
    rw [List.foldl_cons,ih,findAccount_addAccount]
    by_cases hid : id = a.id
    · subst hid
      cases s.findAccount a.id <;> simp
    · have hne : ¬ a.id = id := fun h => hid h.symm
      simp [hid,hne]

theorem LedgerState.foldl_addAccount_lastAppliedId (accounts : List Account) (s : LedgerState) :
    (accounts.foldl (fun t a => (t.addAccount a).2) s).lastAppliedId = s.lastAppliedId := by
  induction accounts generalizing s with
  | nil => rfl
  | cons a accounts ih => rw [List.foldl_cons,ih,addAccount_lastAppliedId]

def LedgerState.ofAccounts (accounts : List Account) : LedgerState :=
  accounts.foldl (fun t a => (t.addAccount a).2) .empty

theorem LedgerState.forall_ofAccounts {P : Account → Prop} {accounts : List Account}
    (hP : ∀ a ∈ accounts, P a) (id : AccountId) (a : Account)
    (h : (ofAccounts accounts).findAccount id = some a) : P a := by
  have hempty : LedgerState.empty.findAccount id = none := Finmap.lookup_empty id
  rw [ofAccounts,findAccount_foldl_addAccount,hempty,Option.none_or] at h
  exact hP a (List.mem_of_find?_eq_some h)

/-- Store a new balance through the pointer `find_account_mut` returned. -/
def LedgerState.setBalance (s : LedgerState) (id : AccountId) (balance : Amount) : LedgerState where
  accounts := match s.accounts.lookup id with
    | none => s.accounts
    | some a => s.accounts.insert id { a with balance := balance }
  keyed := by
    intro id' b h
    cases ha : s.accounts.lookup id with
    | none => exact s.keyed id' b (by simpa [ha] using h)
    | some a =>
      simp only [ha] at h
      by_cases hid : id' = id
      · subst hid
        rw [Finmap.lookup_insert] at h
        cases h
        exact s.keyed id' a ha
      · rw [Finmap.lookup_insert_of_ne _ hid] at h
        exact s.keyed id' b h
  lastAppliedId := s.lastAppliedId

theorem LedgerState.findAccount_setBalance (s : LedgerState) (id id' : AccountId) (b : Amount) :
    (s.setBalance id b).findAccount id' =
      if id' = id then (s.findAccount id).map (fun a => { a with balance := b })
      else s.findAccount id' := by
  by_cases hid : id' = id
  · subst hid
    cases ha : s.accounts.lookup id' <;> simp [findAccount,setBalance,ha]
  · cases ha : s.accounts.lookup id <;>
      simp [findAccount,setBalance,ha,hid,Finmap.lookup_insert_of_ne]

/-- The leg loop of `apply`: legs before a missing account stay applied. -/
def LedgerState.applyLegs : List EntryLeg → LedgerState → Result Unit × LedgerState
  | [], s => (.ok (),s)
  | leg :: legs, s =>
      match s.findAccount leg.accountId with
      | none => (.error .accountNotFound,s)
      | some account => applyLegs legs (s.setBalance leg.accountId
          (account.balance+signedDelta account.type leg.direction leg.amount))

def LedgerState.apply (s : LedgerState) (tx : Transaction) : Result Unit × LedgerState :=
  match applyLegs tx.legs.span s with
  | (.error e,s') => (.error e,s')
  | (.ok _,s') =>
      (.ok (),if s'.lastAppliedId < tx.id then { s' with lastAppliedId := tx.id } else s')

def legsDelta (type : AccountType) (id : AccountId) : List EntryLeg → Amount
  | [] => 0
  | leg :: legs =>
      (if leg.accountId = id then signedDelta type leg.direction leg.amount else 0)+
        legsDelta type id legs

theorem legsDelta_unnamed {type : AccountType} {id : AccountId} {legs : List EntryLeg}
    (h : ∀ leg ∈ legs, leg.accountId ≠ id) : legsDelta type id legs = 0 := by
  induction legs with
  | nil => rfl
  | cons leg legs ih =>
    rw [legsDelta,if_neg (h leg (by simp)),ih (fun l hl => h l (by simp [hl]))]
    rfl

def Account.post (a : Account) (legs : List EntryLeg) : Account :=
  { a with balance := a.balance+legsDelta a.type a.id legs }

@[simp] theorem Account.post_nil (a : Account) : a.post [] = a := by
  have h : a.balance+0 = a.balance := by grind
  simp [post,legsDelta,h]

/-- One account at a time, walking the legs adds their sum, whatever the order
in which other accounts are named in between. -/
theorem LedgerState.applyLegs_spec (legs : List EntryLeg) (s : LedgerState)
    (h : ∀ leg ∈ legs, (s.findAccount leg.accountId).isSome) :
    (applyLegs legs s).1 = .ok () ∧
    (applyLegs legs s).2.lastAppliedId = s.lastAppliedId ∧
    ∀ id, (applyLegs legs s).2.findAccount id =
      (s.findAccount id).map (fun a => a.post legs) := by
  induction legs generalizing s with
  | nil => simp [applyLegs]
  | cons leg legs ih =>
    obtain ⟨a,ha⟩ := Option.isSome_iff_exists.mp (h leg (by simp))
    have hid : a.id = leg.accountId := s.keyed _ _ ha
    simp only [applyLegs,ha]
    obtain ⟨ho,hl,hf⟩ := ih (s.setBalance leg.accountId
      (a.balance+signedDelta a.type leg.direction leg.amount)) (by
        intro l hm
        have hs := h l (by simp [hm])
        rw [findAccount_setBalance]
        split
        · simp [ha]
        · exact hs)
    refine ⟨ho,hl,fun id => ?_⟩
    rw [hf,findAccount_setBalance]
    by_cases he : id = leg.accountId
    · subst he
      simp only [if_pos,ha,Option.map_some]
      simp only [Account.post,legsDelta,hid,if_pos]
      congr 2
      grind
    · cases hb : s.findAccount id with
      | none => simp [he]
      | some b =>
        have hne : ¬ leg.accountId = b.id := by
          rw [s.keyed _ _ hb]
          exact fun hc => he hc.symm
        simp only [if_neg he,Option.map_some,Account.post,legsDelta,if_neg hne]
        congr 2
        grind

theorem LedgerState.apply_spec (s : LedgerState) (tx : Transaction)
    (h : ∀ leg ∈ tx.legs.span, (s.findAccount leg.accountId).isSome) :
    (s.apply tx).1 = .ok () ∧
    (s.apply tx).2.lastAppliedId =
      (if s.lastAppliedId < tx.id then tx.id else s.lastAppliedId) ∧
    ∀ id, (s.apply tx).2.findAccount id =
      (s.findAccount id).map (fun a => a.post tx.legs.span) := by
  obtain ⟨ho,hl,hf⟩ := applyLegs_spec tx.legs.span s h
  have hp : applyLegs tx.legs.span s = (.ok (),(applyLegs tx.legs.span s).2) := by
    rw [← ho]
  rw [apply,hp]
  refine ⟨rfl,?_,fun id => ?_⟩
  · dsimp only
    rw [← hl]
    split <;> rfl
  · dsimp only
    split <;> exact hf id

theorem LedgerState.applyLegs_ok {legs : List EntryLeg} {s : LedgerState}
    (h : (applyLegs legs s).1 = .ok ()) : ∀ leg ∈ legs, (s.findAccount leg.accountId).isSome := by
  induction legs generalizing s with
  | nil => nofun
  | cons leg legs ih =>
    cases ha : s.findAccount leg.accountId with
    | none => simp [applyLegs,ha] at h
    | some a =>
      simp only [applyLegs,ha] at h
      intro l hl
      obtain rfl | hl := List.mem_cons.mp hl
      · simp [ha]
      · have hs := ih h l hl
        rw [findAccount_setBalance] at hs
        split at hs
        · case isTrue hid => simp [hid,ha]
        · exact hs

theorem LedgerState.apply_ok_iff (s : LedgerState) (tx : Transaction) :
    (s.apply tx).1 = .ok () ↔
      ∀ leg ∈ tx.legs.span, (s.findAccount leg.accountId).isSome := by
  refine ⟨fun h => ?_,fun h => (s.apply_spec tx h).1⟩
  rcases hp : applyLegs tx.legs.span s with ⟨error | u,s'⟩
  · simp [apply,hp] at h
  · exact applyLegs_ok (by rw [hp])

theorem legsDelta_append (type : AccountType) (id : AccountId) (legs legs' : List EntryLeg) :
    legsDelta type id (legs ++ legs') = legsDelta type id legs+legsDelta type id legs' := by
  induction legs with
  | nil => simp only [legsDelta,List.nil_append]; grind
  | cons leg legs ih => simp only [legsDelta,List.cons_append,ih]; grind

theorem Account.post_append (a : Account) (legs legs' : List EntryLeg) :
    a.post (legs ++ legs') = (a.post legs).post legs' := by
  simp only [post,legsDelta_append]
  congr 1
  grind

section TrialBalance

/-- One account of the trial-balance loop: the debit-normal and the
credit-normal accumulator. -/
def addToTotals (totals : Amount × Amount) (entry : Sigma (fun _ : AccountId => Account)) :
    Amount × Amount :=
  if isDebitNormal entry.2.type then (totals.1+entry.2.balance,totals.2)
  else (totals.1,totals.2+entry.2.balance)

instance : RightCommutative addToTotals where
  right_comm t a b := by
    unfold addToTotals
    split <;> split <;> simp only [Prod.mk.injEq] <;> grind

def LedgerState.totals (s : LedgerState) : Amount × Amount :=
  s.accounts.entries.foldl addToTotals (0,0)

def validateTrialBalance (s : LedgerState) : Result Unit :=
  if s.totals.1 ≠ s.totals.2 then .error .trialBalanceMismatch else .ok ()

def LedgerState.imbalance (s : LedgerState) : Amount := s.totals.1-s.totals.2

theorem validateTrialBalance_totals (s : LedgerState) :
    validateTrialBalance s = .ok () ↔ s.totals.1 = s.totals.2 := by
  unfold validateTrialBalance
  split <;> simp_all

theorem validateTrialBalance_iff (s : LedgerState) :
    validateTrialBalance s = .ok () ↔ s.imbalance = 0 := by
  rw [validateTrialBalance_totals]
  unfold LedgerState.imbalance
  constructor <;> intro h <;> grind

def Account.signedBalance (a : Account) : Amount :=
  if isDebitNormal a.type then a.balance else -a.balance

theorem foldl_addToTotals (entries : Multiset (Sigma (fun _ : AccountId => Account)))
    (t : Amount × Amount) :
    (entries.foldl addToTotals t).1-(entries.foldl addToTotals t).2 =
      (t.1-t.2)+((entries.foldl addToTotals (0,0)).1-(entries.foldl addToTotals (0,0)).2) := by
  induction entries using Multiset.induction generalizing t with
  | empty => simp only [Multiset.foldl_zero]; grind
  | cons e entries ih =>
    rw [Multiset.foldl_cons,Multiset.foldl_cons,ih,ih (addToTotals (0,0) e)]
    unfold addToTotals
    split <;> grind

theorem foldl_addToTotals_cons (e : Sigma (fun _ : AccountId => Account))
    (entries : Multiset (Sigma (fun _ : AccountId => Account))) :
    ((e ::ₘ entries).foldl addToTotals (0,0)).1-((e ::ₘ entries).foldl addToTotals (0,0)).2 =
      e.2.signedBalance+
        ((entries.foldl addToTotals (0,0)).1-(entries.foldl addToTotals (0,0)).2) := by
  rw [Multiset.foldl_cons,foldl_addToTotals]
  unfold addToTotals Account.signedBalance
  split <;> grind

theorem entries_insert_of_lookup {m : AccountMap} {id : AccountId} {a : Account}
    (h : m.lookup id = some a) (b : Account) :
    m.entries = ⟨id,a⟩ ::ₘ (m.erase id).entries ∧
    (m.insert id b).entries = ⟨id,b⟩ ::ₘ (m.erase id).entries := by
  have hn : id ∉ m.erase id := Finmap.notMem_erase_self
  have h₁ : (m.erase id).insert id a = m := by
    apply Finmap.ext_lookup
    intro x
    by_cases hx : x = id
    · subst hx
      rw [Finmap.lookup_insert,h]
    · rw [Finmap.lookup_insert_of_ne _ hx,Finmap.lookup_erase_ne hx]
  have h₂ : (m.erase id).insert id b = m.insert id b := by
    apply Finmap.ext_lookup
    intro x
    by_cases hx : x = id
    · subst hx
      rw [Finmap.lookup_insert,Finmap.lookup_insert]
    · rw [Finmap.lookup_insert_of_ne _ hx,Finmap.lookup_insert_of_ne _ hx,
        Finmap.lookup_erase_ne hx]
  constructor
  · rw [← Finmap.entries_insert_of_notMem hn,h₁]
  · rw [← Finmap.entries_insert_of_notMem hn,h₂]

theorem LedgerState.imbalance_setBalance {s : LedgerState} {id : AccountId} {a : Account}
    (h : s.findAccount id = some a) (b : Amount) :
    (s.setBalance id b).imbalance =
      s.imbalance+(({ a with balance := b } : Account).signedBalance-a.signedBalance) := by
  obtain ⟨h₁,h₂⟩ := entries_insert_of_lookup h { a with balance := b }
  have hs : (s.setBalance id b).accounts = s.accounts.insert id { a with balance := b } := by
    unfold setBalance
    unfold findAccount at h
    simp [h]
  simp only [imbalance,totals]
  rw [hs,h₂,h₁,foldl_addToTotals_cons,foldl_addToTotals_cons]
  grind

/-- What a leg does to the imbalance: the sign rule of the account types makes
it depend on the direction alone. -/
def EntryLeg.imbalance (leg : EntryLeg) : Amount :=
  if leg.direction = .debit then leg.amount else -leg.amount

theorem signedBalance_post_leg (a : Account) (leg : EntryLeg) :
    ({ a with balance := a.balance+signedDelta a.type leg.direction leg.amount } :
      Account).signedBalance-a.signedBalance = leg.imbalance := by
  unfold Account.signedBalance EntryLeg.imbalance signedDelta increases
  cases leg.direction <;> cases isDebitNormal a.type <;> simp <;> grind

def legsImbalance : List EntryLeg → Amount
  | [] => 0
  | leg :: legs => leg.imbalance+legsImbalance legs

theorem LedgerState.imbalance_applyLegs (legs : List EntryLeg) (s : LedgerState)
    (h : (applyLegs legs s).1 = .ok ()) :
    (applyLegs legs s).2.imbalance = s.imbalance+legsImbalance legs := by
  induction legs generalizing s with
  | nil => simp only [applyLegs,legsImbalance]; grind
  | cons leg legs ih =>
    cases ha : s.findAccount leg.accountId with
    | none => simp [applyLegs,ha] at h
    | some a =>
      simp only [applyLegs,ha] at h ⊢
      rw [ih _ h,imbalance_setBalance ha,signedBalance_post_leg]
      simp only [legsImbalance]
      grind

theorem LedgerState.imbalance_apply (s : LedgerState) (tx : Transaction)
    (h : (s.apply tx).1 = .ok ()) :
    (s.apply tx).2.imbalance = s.imbalance+legsImbalance tx.legs.span := by
  cases hp : applyLegs tx.legs.span s with
  | mk r s' =>
    cases r with
    | error e => simp [apply,hp] at h
    | ok u =>
      have hi := imbalance_applyLegs tx.legs.span s (by rw [hp])
      rw [hp] at hi
      rw [← hi,apply,hp]
      dsimp only
      split <;> rfl

end TrialBalance

end FinancialLedger
