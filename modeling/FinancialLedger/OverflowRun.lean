import FinancialLedger.ApplyRange
set_option autoImplicit false

/-!
When a run of the engine overflows: which balances have to fit, for each request
in the state it is dequeued in.
-/

namespace FinancialLedger

section Order

/-- The entries in front of an account were made by legs in front of any leg that names it. -/
theorem accumulateDeltas_before {lookup : AccountLookup} {done rest : List EntryLeg}
    {leg : EntryLeg} {pending before after : List PendingDelta} {q : PendingDelta}
    (hn : (pending.map PendingDelta.accountId).Nodup)
    (h : accumulateDeltas lookup (done ++ leg :: rest) pending = .ok (before ++ q :: after))
    (hid : leg.accountId = q.accountId) {q' : PendingDelta} (hq' : q' ∈ before) :
    q'.accountId ∈ pending.map PendingDelta.accountId ∨ ∃ l ∈ done, l.accountId = q'.accountId := by
  induction done generalizing pending with
  | nil =>
    obtain ⟨-,hnd,-,-⟩ := accumulateDeltas_ok _ h hn
    cases ha : lookup leg.accountId with
    | none => simp [accumulateDeltas,ha] at h
    | some a =>
      simp only [List.nil_append,accumulateDeltas,ha] at h
      obtain ⟨more,hmore⟩ := accumulateDeltas_ids h
      rw [List.map_append,List.map_cons] at hmore hnd
      have hmem : q'.accountId ∈ before.map PendingDelta.accountId := List.mem_map_of_mem hq'
      have hnew : ∀ id ∈ before.map PendingDelta.accountId, id ≠ q.accountId := by
        intro id hmid heq
        exact (List.nodup_append.mp hnd).2.2 id hmid q.accountId (by simp) heq
      have hmerged : q.accountId ∈ (mergeDelta leg.accountId
          (signedDelta a.type leg.direction leg.amount) pending).map PendingDelta.accountId :=
        (mem_ids_merge _ _ _ _).mpr (.inl hid.symm)
      obtain ⟨mid,hmid,-⟩ | ⟨mid,hmid,-⟩ := List.append_eq_append_iff.mp hmore
      · exact absurd rfl (hnew q.accountId (by simp [hmid,hmerged]))
      · have hin := (mem_ids_merge leg.accountId q'.accountId
          (signedDelta a.type leg.direction leg.amount) pending).mp
          (hmid ▸ List.mem_append_left _ hmem)
        exact .inl (hin.resolve_left (fun heq => hnew _ hmem (heq.trans hid)))
  | cons l done ih =>
    cases ha : lookup l.accountId with
    | none => simp [accumulateDeltas,ha] at h
    | some a =>
      simp only [List.cons_append,accumulateDeltas,ha] at h
      obtain hold | ⟨l',hl',hid'⟩ := ih (nodup_ids_merge _ _ hn) h
      · obtain heq | hold := (mem_ids_merge _ _ _ _).mp hold
        · exact .inr ⟨l,by simp,heq.symm⟩
        · exact .inl hold
      · exact .inr ⟨l',by simp [hl'],hid'⟩

end Order

section Projected

theorem projectOps_reaches {lookup : AccountLookup} {before after : List PendingDelta}
    {q : PendingDelta} (hlimit : ∀ id a, lookup id = some a → 0 ≤ a.overdraftLimit)
    (hops : ∀ x ∈ projectOps lookup (before ++ q :: after), FitsInt64 x)
    (hbefore : ∀ q' ∈ before, ∃ b, lookup q'.accountId = some b ∧ (isDebitNormal b.type →
      -b.overdraftLimit.toInt ≤ b.balance.toInt+q'.delta.toInt))
    {a : Account} (ha : lookup q.accountId = some a) :
    FitsInt64 (a.balance.toInt+q.delta.toInt) := by
  induction before with
  | nil =>
    simp only [List.nil_append,projectOps,ha] at hops
    exact hops _ (by simp)
  | cons p before ih =>
    obtain ⟨b,hb,hcovers⟩ := hbefore p (by simp)
    simp only [List.cons_append,projectOps,hb,List.mem_cons] at hops
    have hsum := hops _ (.inl rfl)
    refine ih (fun x hx => hops x (.inr ?_)) (fun q' hq' => hbefore q' (by simp [hq']))
    by_cases hdebit : isDebitNormal b.type
    · have hfloor : ¬ b.balance+p.delta < -b.overdraftLimit := by
        rw [not_lt_neg_iff (hlimit _ b hb),toInt_add_of_fits hsum]
        exact hcovers hdebit
      simp [hdebit,hfloor,hx]
    · simp [hdebit,hx]

/-- The condition on the projected balances: that of a named account fits, unless an
account that is named before it ends below its floor. -/
def LedgerState.ProjectedFit (s : LedgerState) (legs : List EntryLeg) : Prop :=
  ∀ done leg rest, legs = done ++ leg :: rest →
    (∀ l ∈ done, ∀ a, s.findAccount l.accountId = some a → a.Covers legs) →
    ∀ a, s.findAccount leg.accountId = some a → FitsInt64 (a.projected legs)

theorem validateOps_fit_iff {tx : Transaction} {s : LedgerState}
    (hlegs : CheckedLegs tx.legs.span)
    (hlimit : ∀ id a, s.findAccount id = some a → 0 ≤ a.overdraftLimit)
    (hexists : ∀ leg ∈ tx.legs.span, (s.findAccount leg.accountId).isSome) :
    (∀ x ∈ validateOps tx s.findAccount, FitsInt64 x) ↔ s.ProjectedFit tx.legs.span := by
  refine ⟨fun hops done leg rest hspan hdone a ha => ?_,
    fun hfit => validateOps_fit hlegs hlimit (fun _ => hfit)⟩
  obtain ⟨table,hacc⟩ := accumulateDeltas_total hexists []
  obtain ⟨-,-,hids,-⟩ := accumulateDeltas_ok _ hacc (by simp)
  obtain ⟨q,hq,hid⟩ := List.mem_map.mp ((hids leg.accountId).mpr (.inr ⟨leg,by simp [hspan],rfl⟩))
  obtain ⟨before,after,rfl⟩ := List.append_of_mem hq
  have hdelta : ∀ q' ∈ before ++ q :: after, ∀ b, s.findAccount q'.accountId = some b →
      b.balance.toInt+q'.delta.toInt = b.projected tx.legs.span := by
    intro q' hq' b hb
    rw [hlegs.delta_eq hacc hq' hb,Account.projected]
  rw [← hid] at ha
  rw [← hdelta q hq a ha]
  have hproject : ∀ x ∈ projectOps s.findAccount (before ++ q :: after), FitsInt64 x := by
    intro x hx
    refine hops x ?_
    rw [validateOps,hacc]
    exact List.mem_append_right _ hx
  refine projectOps_reaches hlimit hproject (fun q' hq' => ?_) ha
  rw [hspan] at hacc
  obtain hnil | ⟨l,hl,hid'⟩ := accumulateDeltas_before (by simp) hacc hid.symm hq'
  · cases hnil
  obtain ⟨b,hb⟩ := Option.isSome_iff_exists.mp (hexists l (by simp [hspan,hl]))
  refine ⟨b,hid' ▸ hb,?_⟩
  rw [hdelta q' (by simp [hq']) b (hid' ▸ hb)]
  exact hdone l hl b hb

theorem LedgerState.ProjectedFit.all {s : LedgerState} {legs : List EntryLeg}
    (h : s.ProjectedFit legs) (hshort : ¬ s.NamesOne legs (Account.Short legs)) {leg : EntryLeg}
    (hleg : leg ∈ legs) {a : Account} (ha : s.findAccount leg.accountId = some a) :
    FitsInt64 (a.projected legs) := by
  have hcovers : ∀ done rest, legs = done ++ rest →
      ∀ l ∈ done, ∀ b, s.findAccount l.accountId = some b → b.Covers legs := by
    intro done
    induction done using List.reverseRecOn with
    | nil => simp
    | append_singleton done last ih =>
      intro rest hsplit l hl b hb
      rw [List.append_assoc] at hsplit
      obtain hl | hl := List.mem_append.mp hl
      · exact ih _ hsplit l hl b hb
      · obtain rfl := List.mem_singleton.mp hl
        have hfits := h done l rest hsplit (ih _ hsplit) b hb
        refine (b.covers_iff legs).mpr (fun hdebit => ⟨fun hb' => ?_,fun hup => ?_⟩)
        · exact hshort ⟨l,by simp [hsplit],b,hb,hdebit,hb'⟩
        · exact absurd hfits.1 (Int.not_le.mpr hup)
  obtain ⟨done,rest,hsplit⟩ := List.append_of_mem hleg
  exact h done leg rest hsplit (hcovers done _ hsplit) a ha

end Projected

theorem not_turns_of_nodup {legs done rest : List EntryLeg}
    (h : (legs.map EntryLeg.accountId).Nodup) (hsplit : legs = done ++ rest) (id : AccountId) :
    ¬ Turns id done rest := by
  rintro ⟨last,next,hlast,hnext,-⟩
  have hlast' : last ∈ done ∧ last.accountId = id :=
    ⟨List.mem_reverse.mp (List.mem_of_find?_eq_some hlast),by simpa using List.find?_some hlast⟩
  have hnext' : next ∈ rest ∧ next.accountId = id :=
    ⟨List.mem_of_find?_eq_some hnext,by simpa using List.find?_some hnext⟩
  rw [hsplit,List.map_append] at h
  exact (List.nodup_append.mp h).2.2 _ (List.mem_map_of_mem hlast'.1) _
    (List.mem_map_of_mem hnext'.1) (hlast'.2.trans hnext'.2.symm)

/-- A request with a new key that passes the shape check and names existing accounts
leaves the range with no projected balance, and if it is committed, nowhere between two
legs that move an account in opposite directions. -/
def LedgerEngine.BalancesFit (e : LedgerEngine) (p : Popped) : Prop :=
  let legs := p.request.tx.legs.span
  p.request.tx.idempotencyKey ∉ e.idempotency.keys →
    validateTransactionShape p.request.tx = .ok () →
    (∀ leg ∈ legs, (e.working.findAccount leg.accountId).isSome) →
    e.working.ProjectedFit legs ∧
    (e.Commits p → ∀ done rest, legs = done ++ rest → ∀ id a, e.working.findAccount id = some a →
      Turns id done rest → FitsInt64 (a.projected done))

namespace LedgerEngine

theorem mem_balanceOps {e : LedgerEngine} {p : Popped} {x : Int} :
    x ∈ e.balanceOps p ↔
      p.request.tx.idempotencyKey ∉ e.idempotency.keys ∧
      validateTransactionShape p.request.tx = .ok () ∧
      (x ∈ validateOps p.request.tx e.working.findAccount ∨
        e.Commits p ∧ x ∈ applyOps p.request.tx.legs.span e.working) := by
  unfold balanceOps
  by_cases hkey : p.request.tx.idempotencyKey ∈ e.idempotency.keys
  · simp [hkey]
  cases hs : validateTransactionShape p.request.tx with
  | error error => simp [hkey]
  | ok u =>
    by_cases hnone : e.answer p = .none
    · simp [hkey,hnone,answer_eq_none.mp hnone]
    · have hcommits : ¬ e.Commits p := fun h => hnone (answer_eq_none.mpr h)
      simp [hkey,hnone,hcommits]

theorem balanceOps_fit_iff {e : LedgerEngine} {p : Popped}
    (hlimit : ∀ id a, e.working.findAccount id = some a → 0 ≤ a.overdraftLimit) :
    (∀ x ∈ e.balanceOps p, FitsInt64 x) ↔ e.BalancesFit p := by
  simp only [mem_balanceOps,BalancesFit]
  constructor
  · intro hops hkey hshape hexists
    obtain ⟨hpos,hdebit,hcredit,-⟩ := validateTransactionShape_ok hshape
    refine ⟨(validateOps_fit_iff ⟨hpos,hdebit,hcredit⟩ hlimit hexists).mp
      (fun x hx => hops x ⟨hkey,hshape,.inl hx⟩),?_⟩
    intro hcommits done rest hsplit id a ha _
    simpa using (TracksExactly.refl e.working).fits_of_ops hpos hexists
      (fun x hx => hops x ⟨hkey,hshape,.inr ⟨hcommits,hx⟩⟩) hsplit ha
  · rintro hfit x ⟨hkey,hshape,hx | ⟨hcommits,hx⟩⟩
    · obtain ⟨hpos,hdebit,hcredit,-⟩ := validateTransactionShape_ok hshape
      exact validateOps_fit ⟨hpos,hdebit,hcredit⟩ hlimit
        (fun hexists => (hfit hkey hshape hexists).1) x hx
    · obtain ⟨hpos,hdebit,hcredit,-⟩ := validateTransactionShape_ok hshape
      have hagainst := (verdict_eq_none.mp (verdict_of_answer (answer_eq_none.mpr hcommits))).2.2
      obtain ⟨hexists,hshort,-⟩ :=
        (validateTransactionAgainstState_exact hlimit ⟨hpos,hdebit,hcredit⟩).mp hagainst
      obtain ⟨hprojected,hturn⟩ := hfit hkey hshape hexists
      refine applyOps_fit hpos (TracksExactly.refl _) hexists ?_ x hx
      intro leg hleg a ha n
      have hfits := Account.fits_midway (a := a) hpos
        (fun done rest hsplit ht =>
          hturn hcommits done rest hsplit _ a ha (e.working.keyed _ _ ha ▸ ht))
        (hprojected.all hshort hleg ha) (List.take_append_drop n _).symm
      rwa [Account.projected,e.working.keyed _ _ ha] at hfits

/-- With arithmetic that traps, the request gets through the same. -/
theorem balancesFit_iff_trapping {e : LedgerEngine} {p : Popped}
    (hlimit : ∀ id a, e.working.findAccount id = some a → 0 ≤ a.overdraftLimit) :
    e.BalancesFit p ↔
      (p.request.tx.idempotencyKey ∉ e.idempotency.keys →
        validateTransactionShape p.request.tx = .ok () →
        validateTrapping p.request.tx e.working.findAccount =
          some (validateTransactionAgainstState p.request.tx e.working.findAccount) ∧
        (e.Commits p → applyLegsTrapping p.request.tx.legs.span e.working =
          some (LedgerState.applyLegs p.request.tx.legs.span e.working))) := by
  rw [← balanceOps_fit_iff hlimit]
  simp only [mem_balanceOps,validateTrapping_eq,applyLegsTrapping_eq,Trapping.guarded_eq_some]
  constructor
  · intro h hkey hshape
    exact ⟨fun x hx => h x ⟨hkey,hshape,.inl hx⟩,
      fun hcommits x hx => h x ⟨hkey,hshape,.inr ⟨hcommits,hx⟩⟩⟩
  · rintro h x ⟨hkey,hshape,hx | ⟨hcommits,hx⟩⟩
    · exact (h hkey hshape).1 x hx
    · exact (h hkey hshape).2 hcommits x hx

/-- A run overflows nowhere exactly if every request leaves the accounts it names in range. -/
theorem balanceOps_fit_run (hash : IdempotencyKey → UInt64) (config : Config)
    (wal : PosixFile.File) (seed : LedgerState)
    (hlimit : ∀ id a, seed.findAccount id = some a → 0 ≤ a.overdraftLimit) (ps : List Popped) :
    StepRun.Along process (fun e p => ∀ x ∈ e.balanceOps p, FitsInt64 x)
        (seeded hash config wal seed) ps ↔
      StepRun.Along process BalancesFit (seeded hash config wal seed) ps := by
  have hterms : ∀ (e : LedgerEngine) (p : Popped), seed.SameTerms e.working →
      seed.SameTerms (e.process p).working := by
    intro e p hs
    exact processAll_working_invariant (fun s => seed.SameTerms s)
      (fun _ _ _ hs hv => LedgerState.sameTerms_apply hs hv) hs [p]
  constructor
  · refine StepRun.Along.imp (fun e => seed.SameTerms e.working) (fun e p hs _ => hterms e p hs) ?_
      (fun _ => rfl)
    intro e p hs hops
    exact (balanceOps_fit_iff (hs.limits hlimit)).mp hops
  · refine StepRun.Along.imp (fun e => seed.SameTerms e.working) (fun e p hs _ => hterms e p hs) ?_
      (fun _ => rfl)
    intro e p hs hfit
    exact (balanceOps_fit_iff (hs.limits hlimit)).mpr hfit

def poppedOf (tx : Transaction) : Popped := ⟨⟨tx,1⟩,⟨17,.accepts 4096,true⟩⟩

theorem balanceOps_fit_run_payment :
    StepRun.Along process (fun e p => ∀ x ∈ e.balanceOps p, FitsInt64 x) sampleEngine
      [samplePopped 1] ∧
    StepRun.Along process BalancesFit (seeded (fun _ => 0) sampleConfig .empty fullChart)
      [poppedOf creditDebit] ∧
    ¬ StepRun.Along process BalancesFit (seeded (fun _ => 0) sampleConfig .empty fullChart)
      [poppedOf debitCredit] := by
  refine ⟨?_,?_,?_⟩
  · refine (balanceOps_fit_run (fun _ => 0) sampleConfig .empty sampleChart
      (LedgerState.forall_ofAccounts (by decide)) [samplePopped 1]).mpr ⟨?_,trivial⟩
    intro _ _ _
    refine ⟨fun _ _ _ _ _ a ha => ?_,fun _ _ _ hsplit id _ _ hturns => ?_⟩
    · exact LedgerState.forall_ofAccounts
        (P := fun a => FitsInt64 (a.projected (samplePayment 1).legs.span)) (by decide) _ a ha
    · exact absurd hturns (not_turns_of_nodup (by decide) hsplit id)
  · exact (balanceOps_fit_run (fun _ => 0) sampleConfig .empty fullChart
      (LedgerState.forall_ofAccounts (by decide)) [poppedOf creditDebit]).mp ⟨by decide,trivial⟩
  · intro h
    have hops := (balanceOps_fit_run (fun _ => 0) sampleConfig .empty fullChart
      (LedgerState.forall_ofAccounts (by decide)) [poppedOf debitCredit]).mpr h
    have hmem : (2^63 : Int) ∈ (seeded (fun _ => 0) sampleConfig .empty fullChart).balanceOps
        (poppedOf debitCredit) := by decide
    exact absurd (hops.1 _ hmem) (by decide)

def maxedChart : LedgerState :=
  .ofAccounts [⟨1,.asset,Int64.maxValue,0⟩,⟨2,.revenue,Int64.maxValue,0⟩,⟨3,.expense,0,0⟩]

def fullPayment : Popped :=
  ⟨⟨⟨1,⟨0,1⟩,0,⟨[⟨3,.debit,1⟩,⟨2,.credit,1⟩],by decide⟩⟩,1⟩,⟨17,.accepts 4096,true⟩⟩

/-- The request is acknowledged, its projected balance left the range, and the
revenue account ends at the smallest amount. -/
theorem balanceOps_overflow :
    validateTrialBalance maxedChart = .ok () ∧
    (∀ id a, maxedChart.findAccount id = some a → 0 ≤ a.overdraftLimit) ∧
    ¬ StepRun.Along process (fun e p => ∀ x ∈ e.balanceOps p, FitsInt64 x)
      (seeded (fun _ => 0) sampleConfig .empty maxedChart) [fullPayment] ∧
    ((seeded (fun _ => 0) sampleConfig .empty maxedChart).process fullPayment).answers =
      [(1,.none)] ∧
    (((seeded (fun _ => 0) sampleConfig .empty maxedChart).process
      fullPayment).working.findAccount 2).map Account.balance = some Int64.minValue := by
  refine ⟨by decide,LedgerState.forall_ofAccounts (by decide),?_,by decide,
    by decide⟩
  intro h
  have hmem : (2^63 : Int) ∈ (seeded (fun _ => 0) sampleConfig .empty maxedChart).balanceOps
      fullPayment := by decide
  exact absurd (h.1 _ hmem) (by decide)

end LedgerEngine

end FinancialLedger
