import FinancialLedger.Engine
import FinancialLedger.StepRun
set_option autoImplicit false

namespace FinancialLedger
open PosixFile Wal

/-- What the engine is for: a ledger that takes transactions one at a time. It
has no queue, no file and no batches, only the recently seen keys, the most
recent one first, and the accounts. -/
structure SequentialLedger where
  capacity : Nat
  keys : List IdempotencyKey
  state : LedgerState

namespace SequentialLedger

def submit (l : SequentialLedger) (tx : Transaction) : LedgerError × SequentialLedger :=
  (verdict l.keys l.state tx,
    { l with
      keys := (LruSet.touch l.capacity l.keys tx.idempotencyKey).2
      state := if verdict l.keys l.state tx = .none then (l.state.apply tx).2 else l.state })

def run : SequentialLedger → List Transaction → List LedgerError × SequentialLedger
  | l, [] => ([],l)
  | l, tx :: txs =>
      let first := l.submit tx
      let rest := run first.2 txs
      (first.1 :: rest.1,rest.2)

theorem run_getElem? (l : SequentialLedger) (txs : List Transaction) (i : Nat) :
    (l.run txs).1[i]? = txs[i]?.map (fun tx =>
      verdict (l.run (txs.take i)).2.keys (l.run (txs.take i)).2.state tx) := by
  induction txs generalizing l i with
  | nil => simp [run]
  | cons tx txs ih =>
    cases i with
    | zero => simp [run,submit]
    | succ i => simp [run,ih]

end SequentialLedger

def accepted {β : Type} (xs : List β) (answers : List LedgerError) : List β :=
  (xs.zip answers).filterMap (fun x => if x.2 = .none then some x.1 else none)

@[simp] theorem accepted_nil {β : Type} (answers : List LedgerError) :
    accepted ([] : List β) answers = [] := by simp [accepted]

@[simp] theorem accepted_cons {β : Type} (x : β) (xs : List β) (a : LedgerError)
    (answers : List LedgerError) :
    accepted (x :: xs) (a :: answers) =
      if a = .none then x :: accepted xs answers else accepted xs answers := by
  by_cases h : a = .none
  · simp [accepted,h]
  · simp [accepted,h]

theorem accepted_sublist {β : Type} (xs : List β) (answers : List LedgerError) :
    (accepted xs answers).Sublist xs := by
  induction xs generalizing answers with
  | nil => simp
  | cons x xs ih =>
    cases answers with
    | nil => simp [accepted]
    | cons a answers =>
      rw [accepted_cons]
      split
      · exact (ih answers).cons_cons x
      · exact (ih answers).cons x

def LedgerState.applyAll : LedgerState → List Transaction → Result LedgerState
  | s, [] => .ok s
  | s, tx :: txs =>
      match s.apply tx with
      | (.ok _,s') => applyAll s' txs
      | (.error e,_) => .error e

theorem LedgerState.applyAll_snoc {s s' : LedgerState} {txs : List Transaction}
    {tx : Transaction} (h : s.applyAll txs = .ok s') (htx : (s'.apply tx).1 = .ok ()) :
    s.applyAll (txs ++ [tx]) = .ok (s'.apply tx).2 := by
  induction txs generalizing s with
  | nil =>
    cases h
    rcases ha : s'.apply tx with ⟨error | u,t⟩
    · simp [ha] at htx
    · simp [applyAll,ha]
  | cons t txs ih =>
    rw [applyAll] at h
    rw [List.cons_append,applyAll]
    rcases ha : s.apply t with ⟨error | u,s₁⟩
    · simp [ha] at h
    · simp only [ha] at h ⊢
      exact ih h

theorem LedgerState.findAccount_applyAll {s s' : LedgerState} {txs : List Transaction}
    (h : s.applyAll txs = .ok s') (id : AccountId) :
    s'.findAccount id =
      (s.findAccount id).map (fun a => a.post (txs.flatMap (fun tx => tx.legs.span))) := by
  induction txs generalizing s with
  | nil =>
    cases h
    simp
  | cons tx txs ih =>
    rw [applyAll] at h
    rcases ha : s.apply tx with ⟨error | u,s₁⟩
    · simp [ha] at h
    · simp only [ha] at h
      have hfind := (s.apply_spec tx ((s.apply_ok_iff tx).mp (by rw [ha]))).2.2 id
      rw [ha] at hfind
      rw [ih h,hfind,Option.map_map]
      simp [Function.comp_def,Account.post_append]

namespace LedgerEngine

def abs (e : LedgerEngine) : SequentialLedger :=
  ⟨e.idempotency.raw.capacity,e.idempotency.keys,e.working⟩

/-- The system calls that processing the request makes succeed. -/
def ErrorFree (e : LedgerEngine) (p : Popped) : Prop :=
  e.verdict p.request.tx = .none →
    p.io.WritesAll e.wal p.request.tx ∧ p.io.fsync = true

instance (e : LedgerEngine) (p : Popped) : Decidable (e.ErrorFree p) :=
  inferInstanceAs (Decidable (_ → _))

theorem apply_of_verdict {keys : List IdempotencyKey} {s : LedgerState} {tx : Transaction}
    (h : FinancialLedger.verdict keys s tx = .none) : (s.apply tx).1 = .ok () :=
  (s.apply_spec tx (validateTransactionAgainstState_iff.mp (verdict_eq_none.mp h).2.2).1).1

/-- On an open log, a request whose system calls succeed is answered as the
sequential ledger answers it, and its record is all that the file gains. -/
theorem process_errorFree {e : LedgerEngine} {p : Popped} (hopen : e.walWriter.fdValid = true)
    (hio : e.ErrorFree p) :
    e.answer p = e.verdict p.request.tx ∧ (e.process p).walWriter.fdValid = true ∧
    (e.process p).wal.bytes =
      e.wal.bytes ++ (if e.answer p = .none then recordOf p.logged else []) := by
  obtain ⟨hopen',hcases⟩ := process_wal p hopen
  obtain ⟨hv,hans,hb⟩ | ⟨hv,-,hshort,-⟩ | ⟨hv,-,-,hrefused,-⟩ | ⟨hv,hans,hb⟩ := hcases
  · rw [if_neg (hans ▸ hv),List.append_nil,hb]
    exact ⟨hans,hopen',rfl⟩
  · exact absurd (hio hv).1 hshort
  · exact absurd ⟨hopen,(hio hv).1,fun _ => (hio hv).2⟩ hrefused
  · rw [if_pos hans]
    exact ⟨hans.trans hv.symm,hopen',hb⟩

theorem along_errorFree {e : LedgerEngine} {ps : List Popped} {n : Nat}
    (hopen : e.walWriter.fdValid = true) (hn : kMaxRecordSize ≤ n)
    (hio : ∀ p ∈ ps, p.io.write = .accepts n ∧ p.io.fsync = true)
    (hroom : e.wal.bytes.length+ps.length*kMaxRecordSize ≤ maxFileSize) :
    StepRun.Along process ErrorFree e ps := by
  induction ps generalizing e with
  | nil => trivial
  | cons p ps ih =>
    obtain ⟨⟨hwrite,hsync⟩,hrest⟩ := List.forall_mem_cons.mp hio
    rw [List.length_cons,Nat.succ_mul] at hroom
    have hfirst : e.ErrorFree p :=
      fun _ => ⟨AppendIo.writesAll_accepts hwrite hn (by omega) _,hsync⟩
    obtain ⟨-,hopen',hb⟩ := process_errorFree hopen hfirst
    have hlen : (e.process p).wal.bytes.length ≤ e.wal.bytes.length+kMaxRecordSize := by
      have hrecord := recordOf_length_le p.logged
      rw [hb,List.length_append]
      split
      · omega
      · exact Nat.add_le_add_left (Nat.zero_le _) _
    exact ⟨hfirst,ih hopen' hrest (by omega)⟩

theorem process_abs {e : LedgerEngine} {p : Popped} (hopen : e.walWriter.fdValid = true)
    (hio : e.ErrorFree p) :
    e.abs.submit p.request.tx = (e.answer p,(e.process p).abs) := by
  have hans := (process_errorFree hopen hio).1
  obtain ⟨hkeys,hcap⟩ := e.process_keys p
  have hwork := e.process_working p
  simp only [SequentialLedger.submit,abs,hkeys,hcap,hwork,hans]
  rfl

def answersTo : LedgerEngine → List Popped → List LedgerError
  | _, [] => []
  | e, p :: ps => e.answer p :: answersTo (e.process p) ps

theorem answersTo_length (e : LedgerEngine) (ps : List Popped) :
    (e.answersTo ps).length = ps.length := by
  induction ps generalizing e with
  | nil => rfl
  | cons p ps ih => simp [answersTo,ih]

theorem processAll_answers (e : LedgerEngine) (ps : List Popped) :
    (e.processAll ps).answers =
      e.answers ++ (ps.map (fun p => p.request.completion)).zip (e.answersTo ps) := by
  induction ps generalizing e with
  | nil => simp [processAll,answersTo]
  | cons p ps ih =>
    have hstep := ih (e.process p)
    rw [processAll] at hstep
    rw [processAll,List.foldl_cons,hstep,process_answers]
    simp [answersTo]

theorem processAll_errorFree {e : LedgerEngine} {ps : List Popped}
    (hopen : e.walWriter.fdValid = true) (hio : StepRun.Along process ErrorFree e ps) :
    e.abs.run (ps.map (fun p => p.request.tx)) = (e.answersTo ps,(e.processAll ps).abs) ∧
    (e.processAll ps).wal.bytes =
      e.wal.bytes ++ logBytes ((accepted ps (e.answersTo ps)).map Popped.logged) ∧
    e.working.applyAll ((accepted ps (e.answersTo ps)).map (fun p => p.request.tx)) =
      .ok (e.processAll ps).working := by
  induction ps generalizing e with
  | nil => simp [SequentialLedger.run,answersTo,processAll,LedgerState.applyAll]
  | cons p ps ih =>
    obtain ⟨hans,hopen',hwal⟩ := process_errorFree hopen hio.1
    obtain ⟨hrun,hbytes,happly⟩ := ih hopen' hio.2
    have hall : e.processAll (p :: ps) = (e.process p).processAll ps := rfl
    have hwork := e.process_working p
    refine ⟨?_,?_,?_⟩
    · rw [List.map_cons,SequentialLedger.run,process_abs hopen hio.1]
      simp only [hrun,hall,answersTo]
    · rw [hall,hbytes,hwal,answersTo,accepted_cons]
      split <;> simp
    · rw [hall,answersTo,accepted_cons,← happly,hwork]
      split
      · case isTrue hnone =>
        have hok := apply_of_verdict (verdict_of_answer hnone)
        rcases ha : e.working.apply p.request.tx with ⟨error | u,s'⟩
        · rw [ha] at hok
          cases hok
        · rw [List.map_cons,LedgerState.applyAll,ha]
      · rfl

/-- Batching, the log and the published copies do not show: the engine is the
sequential ledger, its log gains one record for each accepted request, and the
working copy is what applying exactly those gives. -/
theorem runCalls_refines_sequential (e : LedgerEngine) (hopen : e.walWriter.fdValid = true)
    (calls : List Call)
    (hio : StepRun.Along process ErrorFree e (calls.flatMap Call.dequeued)) :
    let ps := calls.flatMap Call.dequeued
    let txs := ps.map (fun p => p.request.tx)
    let answers := (e.abs.run txs).1
    let committed := accepted ps answers
    answers.length = ps.length ∧
    (e.runCalls calls).answers =
      e.answers ++ (ps.map (fun p => p.request.completion)).zip answers ∧
    (∀ i tx, txs[i]? = some tx → (answers[i]? = some .none ↔
      tx.idempotencyKey ∉ (e.abs.run (txs.take i)).2.keys ∧
      validateTransactionShape tx = .ok () ∧
      validateTransactionAgainstState tx (e.abs.run (txs.take i)).2.state.findAccount = .ok ())) ∧
    e.working.applyAll (committed.map (fun p => p.request.tx)) = .ok (e.runCalls calls).working ∧
    (e.runCalls calls).abs = (e.abs.run txs).2 ∧
    (e.runCalls calls).wal.bytes = e.wal.bytes ++ logBytes (committed.map Popped.logged) := by
  intro ps txs answers committed
  obtain ⟨hrun,hbytes,happly⟩ := processAll_errorFree hopen hio
  have hanswers : answers = e.answersTo ps := congrArg Prod.fst hrun
  have hcalls : e.runCalls calls = e.processAll ps := runCalls_eq e calls
  have hcommitted : committed = accepted ps (e.answersTo ps) := by rw [← hanswers]
  refine ⟨by rw [hanswers,answersTo_length],?_,?_,?_,?_,?_⟩
  · rw [hcalls,processAll_answers,hanswers]
  · intro i tx htx
    rw [SequentialLedger.run_getElem?,htx,Option.map_some,Option.some.injEq]
    exact verdict_eq_none
  · rw [hcommitted,happly,hcalls]
  · rw [hcalls]
    exact (congrArg Prod.snd hrun).symm
  · rw [hcalls,hbytes,hcommitted]

theorem runCalls_refines_sequential_payment :
    (sampleEngine.runCalls [⟨10,[samplePopped 1,samplePopped 1]⟩]).answers =
      [(1,.none),(1,.duplicateTransaction)] ∧
    (sampleEngine.runCalls [⟨10,[samplePopped 1,samplePopped 1]⟩]).wal.bytes =
      recordOf (samplePopped 1).logged := by
  have hio : StepRun.Along process ErrorFree sampleEngine [samplePopped 1,samplePopped 1] :=
    along_errorFree (n := 4096) rfl (by decide) (by decide) (by decide)
  obtain ⟨-,hanswers,-,-,-,hwal⟩ := runCalls_refines_sequential sampleEngine rfl
    [⟨10,[samplePopped 1,samplePopped 1]⟩] hio
  have hspec : (sampleEngine.abs.run [samplePayment 1,samplePayment 1]).1 =
      [.none,.duplicateTransaction] := by decide
  have htxs : (([⟨10,[samplePopped 1,samplePopped 1]⟩] : List Call).flatMap Call.dequeued).map
      (fun p => p.request.tx) = [samplePayment 1,samplePayment 1] := rfl
  rw [htxs,hspec] at hanswers hwal
  refine ⟨hanswers,hwal.trans ?_⟩
  exact List.append_nil _

end LedgerEngine

end FinancialLedger
