import FinancialLedger.Validation
import FinancialLedger.CacheRefinement
import FinancialLedger.WalWriter
set_option autoImplicit false

namespace FinancialLedger
open PosixFile Wal

/-- Cache indices are `int32_t`, so the capacity has to fit in one. -/
structure Config where
  syncMode : SyncMode
  ringBufferCapacity : Nat
  idempotencyCapacity : Nat
  publishSnapshotEveryN : Nat
  fits : idempotencyCapacity < 2^31

/-- The completion is a slot of the caller, here a number. -/
structure PendingRequest where
  tx : Transaction
  completion : Nat
  deriving DecidableEq, Repr

/-- What the writer thread owns, the file its log descriptor refers to, and all
calls of `complete` so far. -/
structure LedgerEngine where
  publishSnapshotEveryN : Nat
  walWriter : BinaryWalWriter
  wal : File
  working : LedgerState
  published : LedgerState
  idempotency : LiveCache
  processedSincePublish : Nat
  answers : List (Nat × LedgerError)

/-- An engine that was constructed, has opened its log and whose working copy
was filled before the first request. -/
def LedgerEngine.seeded (hash : IdempotencyKey → UInt64) (config : Config) (wal : File)
    (seed : LedgerState) : LedgerEngine where
  publishSnapshotEveryN := config.publishSnapshotEveryN
  walWriter := ((⟨false,.syncEveryWrite,0,false⟩ : BinaryWalWriter).openFile config.syncMode
    (some wal)).2
  wal := wal
  working := seed
  published := .empty
  idempotency := .new hash config.idempotencyCapacity config.fits
  processedSincePublish := 0
  answers := []

def LedgerEngine.complete (e : LedgerEngine) (r : PendingRequest) (error : LedgerError) :
    LedgerEngine :=
  { e with answers := e.answers ++ [(r.completion,error)] }

/-- The counter and, every so often, a copy of the working state for readers. -/
def LedgerEngine.publishIfDue (e : LedgerEngine) : LedgerEngine :=
  if e.publishSnapshotEveryN ≤ e.processedSincePublish+1 then
    { e with published := e.working, processedSincePublish := 0 }
  else { e with processedSincePublish := e.processedSincePublish+1 }

def LedgerEngine.processRequest (e : LedgerEngine) (r : PendingRequest) (io : AppendIo) :
    LedgerEngine :=
  let seen := e.idempotency.checkAndInsert r.tx.idempotencyKey
  let e := { e with idempotency := seen.2 }
  if seen.1 then e.complete r .duplicateTransaction
  else
    match validateTransactionShape r.tx with
    | .error error => e.complete r error
    | .ok _ =>
        match validateTransactionAgainstState r.tx e.working.findAccount with
        | .error error => e.complete r error
        | .ok _ =>
            match e.walWriter.append e.wal r.tx io with
            | (.error error,w,f) => { e with walWriter := w, wal := f }.complete r error
            | (.ok _,w,f) =>
                { e with
                  walWriter := w
                  wal := f
                  working := (e.working.apply r.tx).2 }.publishIfDue.complete r .none

/-- A request that `try_pop` handed out, with what the clock and the kernel
answer while it is processed. -/
structure Popped where
  request : PendingRequest
  io : AppendIo
  deriving DecidableEq

def Popped.logged (p : Popped) : Transaction := stamped p.request.tx p.io.now

def LedgerEngine.process (e : LedgerEngine) (p : Popped) : LedgerEngine :=
  e.processRequest p.request p.io

/-- `process_pending`: `pending` are the requests `try_pop` hands out before it
first finds none. Returns the number of requests it processed. -/
def LedgerEngine.processPending : Nat → List Popped → LedgerEngine → Nat × LedgerEngine
  | 0, _, e => (0,e)
  | _+1, [], e => (0,e)
  | maxItems+1, p :: pending, e =>
      let rest := processPending maxItems pending (e.process p)
      (rest.1+1,rest.2)

/-- The answer of the three checks, given the keys the cache holds and the
state; `none` lets the request through to the log. -/
def verdict (keys : List IdempotencyKey) (s : LedgerState) (tx : Transaction) : LedgerError :=
  if tx.idempotencyKey ∈ keys then .duplicateTransaction
  else
    match validateTransactionShape tx with
    | .error error => error
    | .ok _ =>
        match validateTransactionAgainstState tx s.findAccount with
        | .error error => error
        | .ok _ => .none

def LedgerEngine.verdict (e : LedgerEngine) (tx : Transaction) : LedgerError :=
  FinancialLedger.verdict e.idempotency.keys e.working tx

def LedgerEngine.answer (e : LedgerEngine) (p : Popped) : LedgerError :=
  match e.verdict p.request.tx with
  | .none =>
      match (e.walWriter.append e.wal p.request.tx p.io).1 with
      | .ok _ => .none
      | .error error => error
  | error => error

section Checks

theorem shapeTotals_error {legs : List EntryLeg} {d c : Amount} {error : LedgerError}
    (h : shapeTotals legs d c = .error error) : error ≠ .none ∧ error ≠ .duplicateTransaction := by
  induction legs generalizing d c with
  | nil => cases h
  | cons leg legs ih =>
    simp only [shapeTotals] at h
    split at h
    · cases h
      decide
    · split at h
      · split at h
        · cases h
          decide
        · exact ih h
      · split at h
        · cases h
          decide
        · exact ih h

theorem validateTransactionShape_error {tx : Transaction} {error : LedgerError}
    (h : validateTransactionShape tx = .error error) : error ≠ .none ∧ error ≠ .duplicateTransaction := by
  simp only [validateTransactionShape] at h
  split at h
  · cases h
    decide
  split at h
  · cases h
    decide
  split at h
  · case h_1 e he =>
    cases h
    exact shapeTotals_error he
  · split at h
    · cases h
      decide
    · cases h

theorem accumulateDeltas_error {lookup : AccountLookup} {legs : List EntryLeg}
    {pending : List PendingDelta} {error : LedgerError}
    (h : accumulateDeltas lookup legs pending = .error error) : error ≠ .none ∧ error ≠ .duplicateTransaction := by
  induction legs generalizing pending with
  | nil => cases h
  | cons leg legs ih =>
    simp only [accumulateDeltas] at h
    split at h
    · cases h
      decide
    · exact ih h

theorem checkProjected_error {lookup : AccountLookup} {pending : List PendingDelta}
    {error : LedgerError} (h : checkProjected lookup pending = .error error) :
    error ≠ .none ∧ error ≠ .duplicateTransaction := by
  induction pending with
  | nil => cases h
  | cons p pending ih =>
    simp only [checkProjected] at h
    split at h
    · cases h
      decide
    · split at h
      · cases h
        decide
      · exact ih h

theorem validateTransactionAgainstState_error {tx : Transaction} {lookup : AccountLookup}
    {error : LedgerError} (h : validateTransactionAgainstState tx lookup = .error error) :
    error ≠ .none ∧ error ≠ .duplicateTransaction := by
  unfold validateTransactionAgainstState at h
  split at h
  · case h_1 e he =>
    cases h
    exact accumulateDeltas_error he
  · exact checkProjected_error h

theorem verdict_eq_none {keys : List IdempotencyKey} {s : LedgerState} {tx : Transaction} :
    verdict keys s tx = .none ↔ tx.idempotencyKey ∉ keys ∧
      validateTransactionShape tx = .ok () ∧
      validateTransactionAgainstState tx s.findAccount = .ok () := by
  unfold verdict
  split
  · case isTrue hk => simp [hk]
  · case isFalse hk =>
    cases hs : validateTransactionShape tx with
    | error error => simpa using fun h => (validateTransactionShape_error hs).1 h
    | ok u =>
      cases ha : validateTransactionAgainstState tx s.findAccount with
      | error error => simpa using fun h => (validateTransactionAgainstState_error ha).1 h
      | ok u' => simp [hk]

theorem verdict_eq_duplicate {keys : List IdempotencyKey} {s : LedgerState} {tx : Transaction} :
    verdict keys s tx = .duplicateTransaction ↔ tx.idempotencyKey ∈ keys := by
  unfold verdict
  split
  · case isTrue hk => simp [hk]
  · case isFalse hk =>
    simp only [hk,iff_false]
    cases hs : validateTransactionShape tx with
    | error error => exact (validateTransactionShape_error hs).2
    | ok u =>
      cases ha : validateTransactionAgainstState tx s.findAccount with
      | error error => exact (validateTransactionAgainstState_error ha).2
      | ok u' => simp

end Checks

namespace LedgerEngine

def remember (e : LedgerEngine) (tx : Transaction) : LedgerEngine :=
  { e with idempotency := (e.idempotency.checkAndInsert tx.idempotencyKey).2 }

theorem process_rejected {e : LedgerEngine} {p : Popped}
    (h : e.verdict p.request.tx ≠ .none) :
    e.process p = (e.remember p.request.tx).complete p.request (e.verdict p.request.tx) := by
  have hseen := (e.idempotency.checkAndInsert_spec p.request.tx.idempotencyKey).1
  simp only [verdict,FinancialLedger.verdict] at h ⊢
  simp only [process,processRequest,hseen,remember]
  split at h
  · case isTrue hk => simp [hk]
  · case isFalse hk =>
    simp only [hk,decide_false,if_false,Bool.false_eq_true]
    split at h
    · simp
    · split at h
      · simp
      · exact absurd rfl h

theorem process_passed {e : LedgerEngine} {p : Popped} (h : e.verdict p.request.tx = .none) :
    e.process p =
      match e.walWriter.append e.wal p.request.tx p.io with
      | (.error error,w,f) =>
          { e.remember p.request.tx with walWriter := w, wal := f }.complete p.request error
      | (.ok _,w,f) =>
          { e.remember p.request.tx with
            walWriter := w
            wal := f
            working := (e.working.apply p.request.tx).2 }.publishIfDue.complete p.request
              .none := by
  have hseen := (e.idempotency.checkAndInsert_spec p.request.tx.idempotencyKey).1
  obtain ⟨hk,hs,ha⟩ := verdict_eq_none.mp h
  simp only [process,processRequest,hseen,remember,hk,decide_false,Bool.false_eq_true,if_false,
    hs,ha]

theorem append_error {e : LedgerEngine} {tx : Transaction} {io : AppendIo}
    {error : LedgerError} {w : BinaryWalWriter} {f : File}
    (h : e.walWriter.append e.wal tx io = (.error error,w,f)) :
    error ≠ .none ∧ error ≠ .duplicateTransaction := by
  cases hv : e.walWriter.fdValid with
  | false =>
    rw [BinaryWalWriter.append,if_pos hv] at h
    cases h
    decide
  | true =>
    obtain ⟨n,f',-,-,-,ha⟩ | ⟨f',-,-,-,-,ha⟩ | ⟨f',-,-,-,ha⟩ :=
      BinaryWalWriter.append_cases hv e.wal tx io
    · rw [ha] at h
      cases h
      decide
    · rw [ha] at h
      cases h
      decide
    · rw [ha] at h
      cases h

/-- The three ends of a request: refused by a check, lost in the log, committed. -/
theorem process_cases (e : LedgerEngine) (p : Popped) :
    (e.verdict p.request.tx ≠ .none ∧ e.answer p = e.verdict p.request.tx ∧
      e.process p = (e.remember p.request.tx).complete p.request (e.answer p)) ∨
    (e.verdict p.request.tx = .none ∧ e.answer p ≠ .none ∧
      ∃ w f, e.walWriter.append e.wal p.request.tx p.io = (.error (e.answer p),w,f) ∧
        e.process p =
          { e.remember p.request.tx with walWriter := w, wal := f }.complete p.request
            (e.answer p)) ∨
    (e.verdict p.request.tx = .none ∧ e.answer p = .none ∧
      ∃ w f, e.walWriter.append e.wal p.request.tx p.io = (.ok (),w,f) ∧
        e.process p =
          { e.remember p.request.tx with
            walWriter := w
            wal := f
            working := (e.working.apply p.request.tx).2 }.publishIfDue.complete p.request
              .none) := by
  by_cases h : e.verdict p.request.tx = .none
  · have hp := process_passed h
    rcases ha : e.walWriter.append e.wal p.request.tx p.io with ⟨error | u,w,f⟩
    · have hans : e.answer p = error := by simp only [answer,h,ha]
      rw [ha] at hp
      exact .inr (.inl ⟨h,hans ▸ (append_error ha).1,w,f,by rw [hans],by rw [hans,hp]⟩)
    · rw [ha] at hp
      exact .inr (.inr ⟨h,by simp only [answer,h,ha],w,f,rfl,hp⟩)
  · have hans : e.answer p = e.verdict p.request.tx := by
      unfold answer
      split
      · case h_1 hn => exact absurd hn h
      · rfl
    exact .inl ⟨h,hans,by rw [hans]; exact process_rejected h⟩

section Fields

@[simp] theorem complete_working (e : LedgerEngine) (r : PendingRequest) (error : LedgerError) :
    (e.complete r error).working = e.working := rfl

@[simp] theorem publishIfDue_working (e : LedgerEngine) : e.publishIfDue.working = e.working := by
  unfold publishIfDue
  split <;> rfl

@[simp] theorem publishIfDue_wal (e : LedgerEngine) : e.publishIfDue.wal = e.wal := by
  unfold publishIfDue
  split <;> rfl

@[simp] theorem publishIfDue_walWriter (e : LedgerEngine) :
    e.publishIfDue.walWriter = e.walWriter := by
  unfold publishIfDue
  split <;> rfl

@[simp] theorem publishIfDue_idempotency (e : LedgerEngine) :
    e.publishIfDue.idempotency = e.idempotency := by
  unfold publishIfDue
  split <;> rfl

@[simp] theorem publishIfDue_answers (e : LedgerEngine) : e.publishIfDue.answers = e.answers := by
  unfold publishIfDue
  split <;> rfl

theorem process_working (e : LedgerEngine) (p : Popped) :
    (e.process p).working =
      if e.answer p = .none then (e.working.apply p.request.tx).2 else e.working := by
  obtain ⟨hne,hans,hp⟩ | ⟨-,hans,w,f,-,hp⟩ | ⟨-,hans,w,f,-,hp⟩ := e.process_cases p
  · rw [hp,if_neg (hans ▸ hne)]
    rfl
  · rw [hp,if_neg hans]
    rfl
  · rw [hp,if_pos hans,complete_working,publishIfDue_working]

theorem process_answers (e : LedgerEngine) (p : Popped) :
    (e.process p).answers = e.answers ++ [(p.request.completion,e.answer p)] := by
  obtain ⟨-,-,hp⟩ | ⟨-,-,w,f,-,hp⟩ | ⟨-,hans,w,f,-,hp⟩ := e.process_cases p
  · rw [hp]
    rfl
  · rw [hp]
    rfl
  · rw [hp,hans,complete,publishIfDue_answers]
    rfl

theorem process_keys (e : LedgerEngine) (p : Popped) :
    (e.process p).idempotency.keys = (LruSet.touch e.idempotency.raw.capacity
      e.idempotency.keys p.request.tx.idempotencyKey).2 ∧
    (e.process p).idempotency.raw.capacity = e.idempotency.raw.capacity := by
  obtain ⟨-,hcap,hkeys⟩ := e.idempotency.checkAndInsert_spec p.request.tx.idempotencyKey
  have hsame : (e.process p).idempotency =
      (e.idempotency.checkAndInsert p.request.tx.idempotencyKey).2 := by
    obtain ⟨-,-,hp⟩ | ⟨-,-,w,f,-,hp⟩ | ⟨-,-,w,f,-,hp⟩ := e.process_cases p
    · rw [hp]
      rfl
    · rw [hp]
      rfl
    · rw [hp,complete,publishIfDue_idempotency]
      rfl
  rw [hsame]
  exact ⟨hkeys,hcap⟩

theorem process_published (e : LedgerEngine) (p : Popped) :
    (e.process p).published = e.published ∨ (e.process p).published = (e.process p).working := by
  obtain ⟨-,-,hp⟩ | ⟨-,-,w,f,-,hp⟩ | ⟨-,-,w,f,-,hp⟩ := e.process_cases p
  · exact .inl (by rw [hp]; rfl)
  · exact .inl (by rw [hp]; rfl)
  · rw [hp]
    unfold publishIfDue
    split
    · exact .inr rfl
    · exact .inl rfl

end Fields

theorem verdict_of_answer {e : LedgerEngine} {p : Popped} (h : e.answer p = .none) :
    e.verdict p.request.tx = .none := by
  obtain ⟨hne,hans,-⟩ | ⟨hv,-⟩ | ⟨hv,-⟩ := e.process_cases p
  · exact absurd (hans ▸ h) hne
  · exact hv
  · exact hv

def Commits (e : LedgerEngine) (p : Popped) : Prop :=
  e.verdict p.request.tx = .none ∧ e.walWriter.Accepts e.wal p.request.tx p.io

instance (e : LedgerEngine) (p : Popped) : Decidable (e.Commits p) :=
  inferInstanceAs (Decidable (_ ∧ _))

theorem answer_eq_none {e : LedgerEngine} {p : Popped} : e.answer p = .none ↔ e.Commits p := by
  have happend := e.walWriter.append_ok_iff e.wal p.request.tx p.io
  unfold Commits
  obtain ⟨hne,hans,-⟩ | ⟨hv,hans,w,f,ha,-⟩ | ⟨hv,hans,w,f,ha,-⟩ := e.process_cases p
  · simp [hans,hne]
  · simp [← happend,ha,hv,hans]
  · simp [← happend,ha,hv,hans]

theorem answer_eq_duplicate {e : LedgerEngine} {p : Popped} :
    e.answer p = .duplicateTransaction ↔ p.request.tx.idempotencyKey ∈ e.idempotency.keys := by
  have hverdict : e.verdict p.request.tx = .duplicateTransaction ↔
      p.request.tx.idempotencyKey ∈ e.idempotency.keys := verdict_eq_duplicate
  rw [← hverdict]
  obtain ⟨-,hans,-⟩ | ⟨hv,-,w,f,ha,-⟩ | ⟨hv,hans,-⟩ := e.process_cases p
  · rw [hans]
  · simp [hv,(append_error ha).2]
  · simp [hv,hans]

/-- What a request does to an open log: nothing, a torn record, a whole record
that was not synced, or a committed one. -/
theorem process_wal {e : LedgerEngine} (p : Popped) (hopen : e.walWriter.fdValid = true) :
    (e.process p).walWriter.fdValid = true ∧
    ((e.verdict p.request.tx ≠ .none ∧ e.answer p = e.verdict p.request.tx ∧
        (e.process p).wal = e.wal) ∨
      (e.verdict p.request.tx = .none ∧ e.answer p ≠ .none ∧
        ¬ p.io.WritesAll e.wal p.request.tx ∧ ∃ n, n < (recordOf p.logged).length ∧
          (e.process p).wal.bytes = e.wal.bytes ++ (recordOf p.logged).take n) ∨
      (e.verdict p.request.tx = .none ∧ e.answer p ≠ .none ∧
        p.io.WritesAll e.wal p.request.tx ∧
        ¬ e.walWriter.Accepts e.wal p.request.tx p.io ∧
          (e.process p).wal.bytes = e.wal.bytes ++ recordOf p.logged) ∨
      (e.verdict p.request.tx = .none ∧ e.answer p = .none ∧
        (e.process p).wal.bytes = e.wal.bytes ++ recordOf p.logged)) := by
  obtain ⟨hne,hans,hp⟩ | ⟨hv,hans,w,f,ha,hp⟩ | ⟨hv,hans,w,f,ha,hp⟩ := e.process_cases p
  · rw [hp]
    exact ⟨hopen,.inl ⟨hne,hans,rfl⟩⟩
  · rw [hp]
    have hrefused : ¬ e.walWriter.Accepts e.wal p.request.tx p.io := by
      rw [← BinaryWalWriter.append_ok_iff,ha]
      exact nofun
    obtain ⟨n,f',hshort,hn,hb,heq⟩ | ⟨f',hall,hb,-,-,heq⟩ | ⟨f',-,-,-,heq⟩ :=
      BinaryWalWriter.append_cases hopen e.wal p.request.tx p.io
    · obtain ⟨-,hwf⟩ := Prod.mk.inj (ha.symm.trans heq)
      obtain ⟨rfl,rfl⟩ := Prod.mk.inj hwf
      exact ⟨hopen,.inr (.inl ⟨hv,hans,hshort,n,hn,hb⟩)⟩
    · obtain ⟨-,hwf⟩ := Prod.mk.inj (ha.symm.trans heq)
      obtain ⟨rfl,rfl⟩ := Prod.mk.inj hwf
      exact ⟨hopen,.inr (.inr (.inl ⟨hv,hans,hall,hrefused,hb⟩))⟩
    · cases ha.symm.trans heq
  · rw [hp,complete,publishIfDue_walWriter,publishIfDue_wal]
    obtain ⟨n,f',-,-,-,heq⟩ | ⟨f',-,-,-,-,heq⟩ | ⟨f',-,hb,-,heq⟩ :=
      BinaryWalWriter.append_cases hopen e.wal p.request.tx p.io
    · cases ha.symm.trans heq
    · cases ha.symm.trans heq
    · cases ha.symm.trans heq
      exact ⟨hopen,.inr (.inr (.inr ⟨hv,hans,hb⟩))⟩

def processAll (e : LedgerEngine) (ps : List Popped) : LedgerEngine := ps.foldl process e

theorem processAll_open {e : LedgerEngine} (hopen : e.walWriter.fdValid = true)
    (ps : List Popped) : (e.processAll ps).walWriter.fdValid = true := by
  induction ps generalizing e with
  | nil => exact hopen
  | cons p ps ih => exact ih (process_wal p hopen).1

structure Call where
  maxItems : Nat
  pending : List Popped

def Call.dequeued (c : Call) : List Popped := c.pending.take c.maxItems

def runCalls (e : LedgerEngine) (calls : List Call) : LedgerEngine :=
  calls.foldl (fun e c => (processPending c.maxItems c.pending e).2) e

theorem processPending_eq (maxItems : Nat) (ps : List Popped) (e : LedgerEngine) :
    processPending maxItems ps e =
      ((ps.take maxItems).length,e.processAll (ps.take maxItems)) := by
  induction maxItems generalizing ps e with
  | zero => simp [processPending,processAll]
  | succ maxItems ih =>
    cases ps with
    | nil => simp [processPending,processAll]
    | cons p ps => simp [processPending,ih,processAll]

/-- Only the sequence of dequeued requests matters, not how it is cut into
calls. -/
theorem runCalls_eq (e : LedgerEngine) (calls : List Call) :
    e.runCalls calls = e.processAll (calls.flatMap Call.dequeued) := by
  induction calls generalizing e with
  | nil => rfl
  | cons c calls ih =>
    rw [List.flatMap_cons,processAll,List.foldl_append]
    exact (congrArg (fun e' => runCalls e' calls)
      (congrArg Prod.snd (processPending_eq c.maxItems c.pending e))).trans (ih _)

end LedgerEngine

/-! A small chart and a payment on it, to try statements about runs on. -/

def sampleConfig : Config := ⟨.syncEveryWrite,4096,8,1,by decide⟩

def sampleChart : LedgerState := .ofAccounts [⟨1,.asset,100,0⟩,⟨2,.revenue,100,0⟩]

/-- Five units from account 2 to account 1; the id is also the key. -/
def samplePayment (id : TransactionId) : Transaction :=
  ⟨id,⟨0,id⟩,0,⟨[⟨1,.debit,5⟩,⟨2,.credit,5⟩],by decide⟩⟩

def sampleEngine : LedgerEngine := .seeded (fun _ => 0) sampleConfig .empty sampleChart

def samplePopped (id : TransactionId) : Popped :=
  ⟨⟨samplePayment id,id.toNat⟩,⟨17,.accepts 4096,true⟩⟩

end FinancialLedger
