import Mathlib.Data.List.Forall2
import FinancialLedger.SequentialLedger
set_option autoImplicit false

/-!
What `apply` does to a state: to each account what the validator projected, and to
all of them together the same in every order.
-/

namespace FinancialLedger

section Ids

theorem TransactionId.ite_lt_eq_max (m n : TransactionId) :
    (if m < n then n else m) = max m n := by
  show _ = if m ≤ n then n else m
  grind

theorem TransactionId.toNat_max (m n : TransactionId) :
    (max m n).toNat = max m.toNat n.toNat := by
  show (if m ≤ n then n else m).toNat = _
  have hle : m ≤ n ↔ m.toNat ≤ n.toNat := UInt64.le_iff_toNat_le
  split
  · case isTrue h =>
    have := hle.mp h
    omega
  · case isFalse h =>
    have := mt hle.mpr h
    omega

instance : RightCommutative (max : TransactionId → TransactionId → TransactionId) where
  right_comm a b c := by
    apply UInt64.toNat_inj.mp
    simp only [TransactionId.toNat_max]
    omega

end Ids

section Post
variable (type : AccountType) (id : AccountId) {legs legs' : List EntryLeg}

theorem legsDelta_perm (h : legs.Perm legs') : legsDelta type id legs = legsDelta type id legs' := by
  induction h with
  | nil => rfl
  | cons leg _ ih => simp only [legsDelta,ih]
  | swap leg leg' legs =>
    simp only [legsDelta]
    grind
  | trans _ _ ih ih' => exact ih.trans ih'

theorem Account.post_unnamed (a : Account) (h : ∀ leg ∈ legs, leg.accountId ≠ a.id) :
    a.post legs = a := by
  have hzero : a.balance+0 = a.balance := by grind
  simp only [post,legsDelta_unnamed h,hzero]

theorem Account.post_perm (a : Account) (h : legs.Perm legs') : a.post legs = a.post legs' := by
  simp only [post,legsDelta_perm a.type a.id h]

end Post

/-- For a validated transaction `apply` succeeds and leaves each account that a leg
names at the balance the validator's table projected for it. -/
theorem LedgerState.apply_projected (s : LedgerState) (tx : Transaction)
    (h : validateTransactionAgainstState tx s.findAccount = .ok ()) :
    (s.apply tx).1 = .ok () ∧
    (∃ table, accumulateDeltas s.findAccount tx.legs.span [] = .ok table ∧
      (∀ leg ∈ tx.legs.span, ∃ p ∈ table, p.accountId = leg.accountId) ∧
      ∀ p ∈ table, ∃ a, s.findAccount p.accountId = some a ∧
        (s.apply tx).2.findAccount p.accountId = some { a with balance := a.balance+p.delta }) ∧
    (∀ id, (∀ leg ∈ tx.legs.span, leg.accountId ≠ id) →
      (s.apply tx).2.findAccount id = s.findAccount id) ∧
    (s.apply tx).2.lastAppliedId = max s.lastAppliedId tx.id := by
  have hexists := (validateTransactionAgainstState_iff.mp h).1
  obtain ⟨hok,hlast,hfind⟩ := s.apply_spec tx hexists
  obtain ⟨table,htable⟩ := accumulateDeltas_total hexists []
  obtain ⟨-,-,hids,-⟩ := accumulateDeltas_ok _ htable (by simp)
  refine ⟨hok,⟨table,htable,?_,?_⟩,?_,hlast.trans (TransactionId.ite_lt_eq_max _ _)⟩
  · intro leg hleg
    obtain ⟨p,hp,hid⟩ := List.mem_map.mp ((hids leg.accountId).mpr (.inr ⟨leg,hleg,rfl⟩))
    exact ⟨p,hp,hid⟩
  · intro p hp
    obtain hnil | ⟨leg,hleg,hid⟩ := (hids p.accountId).mp (List.mem_map_of_mem hp)
    · cases hnil
    obtain ⟨a,ha⟩ := Option.isSome_iff_exists.mp (hexists leg hleg)
    rw [hid] at ha
    refine ⟨a,ha,?_⟩
    rw [hfind,ha,Option.map_some,accumulateDeltas_post htable hp ha]
  · intro id hid
    rw [hfind]
    cases ha : s.findAccount id with
    | none => rfl
    | some a =>
      have hpost := a.post_unnamed (s.keyed id a ha ▸ hid)
      simp [hpost]

def splitPayment : Transaction :=
  ⟨7,⟨0,7⟩,0,⟨[⟨1,.credit,30⟩,⟨3,.debit,50⟩,⟨1,.credit,20⟩],by decide⟩⟩

def splitChart : LedgerState :=
  .ofAccounts [⟨1,.asset,100,0⟩,⟨2,.revenue,100,0⟩,⟨3,.expense,0,0⟩]

theorem LedgerState.apply_projected_split : ∃ table,
    accumulateDeltas splitChart.findAccount splitPayment.legs.span [] = .ok table ∧
      ∀ p ∈ table, ∃ a, splitChart.findAccount p.accountId = some a ∧
        (splitChart.apply splitPayment).2.findAccount p.accountId =
          some { a with balance := a.balance+p.delta } := by
  obtain ⟨-,⟨table,htable,-,hfind⟩,-⟩ :=
    LedgerState.apply_projected splitChart splitPayment (by decide)
  exact ⟨table,htable,hfind⟩

/-- The same transactions in some order, each with its legs in some order. -/
def Reordered (txs txs' : List Transaction) : Prop :=
  ∃ between, List.Forall₂ (fun tx tx' => tx.id = tx'.id ∧ tx.legs.span.Perm tx'.legs.span) txs between ∧
    between.Perm txs'

section Order
variable {s t : LedgerState} {txs txs' : List Transaction}

theorem Reordered.ids (h : Reordered txs txs') :
    (txs.map Transaction.id).Perm (txs'.map Transaction.id) := by
  obtain ⟨between,hlegs,hperm⟩ := h
  have hsame : txs.map Transaction.id = between.map Transaction.id := by
    clear hperm
    induction hlegs with
    | nil => rfl
    | cons htx _ ih => simp only [List.map_cons,htx.1,ih]
  rw [hsame]
  exact hperm.map _

theorem Reordered.legs (h : Reordered txs txs') :
    (txs.flatMap (fun tx => tx.legs.span)).Perm (txs'.flatMap (fun tx => tx.legs.span)) := by
  obtain ⟨between,hlegs,hperm⟩ := h
  have hsame : (txs.flatMap (fun tx => tx.legs.span)).Perm
      (between.flatMap (fun tx => tx.legs.span)) := by
    clear hperm
    induction hlegs with
    | nil => exact .refl _
    | cons htx _ ih =>
      simp only [List.flatMap_cons]
      exact htx.2.append ih
  exact hsame.trans (hperm.flatMap_right _)

theorem LedgerState.applyAll_total
    (h : ∀ leg ∈ txs.flatMap (fun tx => tx.legs.span), (s.findAccount leg.accountId).isSome) :
    ∃ t, s.applyAll txs = .ok t := by
  induction txs generalizing s with
  | nil => exact ⟨s,rfl⟩
  | cons tx txs ih =>
    simp only [List.flatMap_cons,List.mem_append] at h
    obtain ⟨hok,-,hfind⟩ := s.apply_spec tx (fun leg hleg => h leg (.inl hleg))
    have hpair : s.apply tx = (.ok (),(s.apply tx).2) := Prod.ext hok rfl
    rw [applyAll,hpair]
    refine ih (fun leg hleg => ?_)
    rw [hfind,Option.isSome_map]
    exact h leg (.inr hleg)

theorem LedgerState.lastAppliedId_applyAll (h : s.applyAll txs = .ok t) :
    t.lastAppliedId = (txs.map Transaction.id).foldl max s.lastAppliedId := by
  induction txs generalizing s with
  | nil =>
    cases h
    rfl
  | cons tx txs ih =>
    rw [applyAll] at h
    rcases ha : s.apply tx with ⟨error | u,s₁⟩
    · simp [ha] at h
    · simp only [ha] at h
      have hlast := (s.apply_spec tx ((s.apply_ok_iff tx).mp (by rw [ha]))).2.1
      rw [ha,TransactionId.ite_lt_eq_max] at hlast
      rw [ih h,hlast,List.map_cons,List.foldl_cons]

/-- The order in which transactions are committed, and that of the legs in each of
them, is not to be seen in the state. -/
theorem LedgerState.applyAll_reordered (s : LedgerState) (txs txs' : List Transaction)
    (h : ∀ tx ∈ txs, ∀ leg ∈ tx.legs.span, (s.findAccount leg.accountId).isSome)
    (hr : Reordered txs txs') : ∃ t, s.applyAll txs = .ok t ∧ s.applyAll txs' = .ok t := by
  have hall : ∀ leg ∈ txs.flatMap (fun tx => tx.legs.span),
      (s.findAccount leg.accountId).isSome := by
    intro leg hleg
    obtain ⟨tx,htx,hleg⟩ := List.mem_flatMap.mp hleg
    exact h tx htx leg hleg
  obtain ⟨t,ht⟩ := applyAll_total hall
  obtain ⟨t',ht'⟩ := applyAll_total (fun leg hleg => hall leg (hr.legs.mem_iff.mpr hleg))
  have hsame : t = t' := by
    apply LedgerState.ext_find
    · intro id
      simp only [findAccount_applyAll ht,findAccount_applyAll ht',Account.post_perm _ hr.legs]
    · rw [lastAppliedId_applyAll ht,lastAppliedId_applyAll ht',hr.ids.foldl_eq]
  exact ⟨t,ht,hsame ▸ ht'⟩

theorem LedgerState.applyAll_reordered_split : ∃ t,
    splitChart.applyAll [splitPayment,{ splitPayment with id := 4 }] = .ok t ∧
    splitChart.applyAll [{ splitPayment with id := 4 },{ splitPayment with legs :=
      ⟨[⟨1,.credit,20⟩,⟨3,.debit,50⟩,⟨1,.credit,30⟩],by decide⟩ }] = .ok t := by
  refine LedgerState.applyAll_reordered splitChart _ _ (by decide) ⟨[_,_],?_,.swap _ _ []⟩
  exact .cons ⟨rfl,by decide⟩ (.cons ⟨rfl,.refl _⟩ .nil)

end Order

end FinancialLedger
