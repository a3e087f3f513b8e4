import FinancialLedger.Durability
import FinancialLedger.EngineInvariants
set_option autoImplicit false

namespace FinancialLedger
open PosixFile Wal Recovery

namespace LedgerEngine

/-- The writer commits a request only if its id is above all committed ones. -/
def Fresh (e : LedgerEngine) (p : Popped) : Prop :=
  e.Commits p → e.working.lastAppliedId < p.request.tx.id

instance (e : LedgerEngine) (p : Popped) : Decidable (e.Fresh p) :=
  inferInstanceAs (Decidable (_ → _))

/-- A replay of the log from `offset` on turns the state `s` into the memory of
the engine. -/
structure Covers (s : LedgerState) (offset : Nat) (e : LedgerEngine) : Prop where
  opened : e.walWriter.fdValid = true
  inside : offset ≤ e.wal.bytes.length
  replays : ∃ log, e.wal.bytes.drop offset = logBytes log ∧ e.working = log.foldl replayRecord s

/-- Memory is what a replay of the log on the seed gives, and it would pass the
check at the end of a recovery. -/
structure Mirrors (seed : LedgerState) (e : LedgerEngine) : Prop where
  opened : e.walWriter.fdValid = true
  replays : ∃ log, e.wal.bytes = logBytes log ∧ e.working = log.foldl replayRecord seed
  balanced : validateTrialBalance e.working = .ok ()

section Mirror

variable {seed s : LedgerState} {offset : Nat} {e : LedgerEngine} {p : Popped} {ps : List Popped}

theorem Covers.process (h : Covers s offset e) (hio : e.ErrorFree p) (hfresh : e.Fresh p) :
    Covers s offset (e.process p) := by
  obtain ⟨hopen,hin,log,hlog,hwork⟩ := h
  obtain ⟨-,hopen',hb⟩ := process_errorFree hopen hio
  have hw := e.process_working p
  by_cases hans : e.answer p = .none
  · rw [if_pos hans] at hb hw
    -- the clock reading in the record is the only field that differs
    have hsame : e.working.apply p.logged = e.working.apply p.request.tx := rfl
    have hid : e.working.lastAppliedId < p.logged.id := hfresh (answer_eq_none.mp hans)
    refine ⟨hopen',?_,log ++ [p.logged],?_,?_⟩
    · rw [hb,List.length_append]
      omega
    · rw [hb,List.drop_append_of_le_length hin,hlog]
      simp
    · rw [List.foldl_append,← hwork,hw,← hsame]
      exact (if_pos hid).symm
  · rw [if_neg hans,List.append_nil] at hb
    rw [if_neg hans] at hw
    exact ⟨hopen',hb ▸ hin,log,hb ▸ hlog,hw.trans hwork⟩

theorem Covers.processAll (h : Covers s offset e)
    (hrun : StepRun.Along LedgerEngine.process (fun e p => e.ErrorFree p ∧ e.Fresh p) e ps) :
    Covers s offset (e.processAll ps) :=
  StepRun.foldl_invariant (Covers s offset) (fun _ _ h hg => h.process hg.1 hg.2) h hrun

/-- Recovery gives back the memory and the file that a torn record follows. -/
theorem Covers.recover {walOffset : UInt64} (h : Covers s walOffset.toNat e)
    {snapshotFile f : File} (hsnap : Snapshot.Written s walOffset snapshotFile)
    {tail : List UInt8} (hf : f.bytes = e.wal.bytes ++ tail) (ht : TornTail tail) :
    recover (some f) (some snapshotFile) .complete =
      (checked e.working e.wal.bytes.length,some e.wal) := by
  obtain ⟨-,hin,log,hlog,hwork⟩ := h
  have hlen := congrArg List.length hlog
  rw [List.length_drop] at hlen
  have hend : walOffset.toNat+(logBytes log).length = e.wal.bytes.length := by omega
  have hfile : f.cut e.wal.bytes.length = e.wal := File.ext_bytes (by
    rw [File.cut_bytes,hf,List.take_left])
  have hdrop : f.bytes.drop walOffset.toNat = logBytes log ++ tail := by
    rw [hf,List.drop_append_of_le_length hin,hlog]
  have hle : walOffset.toNat ≤ f.bytes.length := by
    rw [hf,List.length_append]
    omega
  rw [recover_torn hsnap hle hdrop ht,hend,hfile,hwork]

theorem Mirrors.covers (h : Mirrors seed e) : Covers seed 0 e :=
  ⟨h.opened,Nat.zero_le _,h.replays⟩

theorem seeded_mirrors (hash : IdempotencyKey → UInt64) (config : Config)
    (h : validateTrialBalance seed = .ok ()) : Mirrors seed (seeded hash config .empty seed) :=
  ⟨rfl,⟨[],rfl,rfl⟩,h⟩

theorem process_balanced (h : validateTrialBalance e.working = .ok ()) (p : Popped) :
    validateTrialBalance (e.process p).working = .ok () := by
  rw [validateTrialBalance_iff] at h ⊢
  exact processAll_working_invariant (fun s => s.imbalance = 0) imbalance_apply_of_verdict h [p]

theorem Mirrors.process (h : Mirrors seed e) (hio : e.ErrorFree p) (hfresh : e.Fresh p) :
    Mirrors seed (e.process p) :=
  have hcovers := h.covers.process hio hfresh
  ⟨hcovers.opened,hcovers.replays,process_balanced h.balanced p⟩

theorem Mirrors.recover (h : Mirrors seed e) {snapshotFile f : File}
    (hsnap : Snapshot.Written seed 0 snapshotFile) {tail : List UInt8}
    (hf : f.bytes = e.wal.bytes ++ tail) (ht : TornTail tail) :
    recover (some f) (some snapshotFile) .complete =
      (.ok ⟨e.working,e.wal.bytes.length⟩,some e.wal) := by
  have hcovers : Covers seed (0 : UInt64).toNat e := h.covers
  rw [hcovers.recover hsnap hf ht,checked_balanced h.balanced]

theorem process_lastAppliedId (hfresh : e.Fresh p) :
    (e.process p).working.lastAppliedId =
      if e.answer p = .none then p.request.tx.id else e.working.lastAppliedId := by
  rw [process_working]
  split
  · case isTrue hans =>
    have hexists := (validateTransactionAgainstState_iff.mp
      (verdict_eq_none.mp (verdict_of_answer hans)).2.2).1
    rw [(e.working.apply_spec p.request.tx hexists).2.1,if_pos (hfresh (answer_eq_none.mp hans))]
  · rfl

theorem along_fresh (h : (e.working.lastAppliedId ::
      (accepted ps (e.answersTo ps)).map (fun p => p.request.tx.id)).Pairwise (· < ·)) :
    StepRun.Along LedgerEngine.process Fresh e ps := by
  induction ps generalizing e with
  | nil => trivial
  | cons p ps ih =>
    rw [answersTo,accepted_cons] at h
    by_cases hans : e.answer p = .none
    · rw [if_pos hans,List.map_cons,List.pairwise_cons] at h
      have hfresh : e.Fresh p := fun _ => h.1 _ (by simp)
      have hlast := process_lastAppliedId hfresh
      rw [if_pos hans] at hlast
      exact ⟨hfresh,ih (hlast ▸ h.2)⟩
    · rw [if_neg hans] at h
      have hfresh : e.Fresh p := fun hcommit => absurd (answer_eq_none.mpr hcommit) hans
      have hlast := process_lastAppliedId hfresh
      rw [if_neg hans] at hlast
      exact ⟨hfresh,ih (hlast ▸ h)⟩

def after (e : LedgerEngine) (ps : List Popped) (i : Nat) : LedgerEngine :=
  e.processAll (ps.take i)

theorem processAll_after (e : LedgerEngine) (ps : List Popped) (i : Nat) :
    e.processAll ps = (e.after ps i).processAll (ps.drop i) := by
  rw [after,processAll,processAll,processAll,← List.foldl_append,List.take_append_drop]

/-- The `i`-th state is the last one whose log fits in the first `k` bytes of
the final log, and what follows it there is the start of the next record. -/
structure CutPoint (e : LedgerEngine) (ps : List Popped) (k i : Nat) : Prop where
  fits : (e.after ps i).wal.bytes.length ≤ k
  last : ∀ j, (e.after ps j).wal.bytes.length ≤ k →
    (e.after ps j).wal.bytes.length ≤ (e.after ps i).wal.bytes.length
  torn : ∃ tail, TornTail tail ∧
    (e.processAll ps).wal.bytes.take k = (e.after ps i).wal.bytes ++ tail

theorem cutPoint_zero {k : Nat} (hopen : e.walWriter.fdValid = true) (hio : e.ErrorFree p)
    (hlow : e.wal.bytes.length ≤ k) (hhigh : k < (e.process p).wal.bytes.length) :
    CutPoint e (p :: ps) k 0 := by
  obtain ⟨-,hopen',hb⟩ := process_errorFree hopen hio
  refine ⟨hlow,?_,?_⟩
  · intro j hj
    cases j with
    | zero => exact Nat.le_refl _
    | succ j =>
      have hgrow := (processAll_wal_grows hopen' (ps.take j)).length_le
      exact absurd (Nat.lt_of_lt_of_le hhigh hgrow) (Nat.not_lt.mpr hj)
  · obtain ⟨more,hmore⟩ := processAll_wal_grows hopen' ps
    have hans : e.answer p = .none := by
      by_contra hne
      rw [hb,if_neg hne,List.append_nil] at hhigh
      omega
    rw [if_pos hans] at hb
    have hn : k-e.wal.bytes.length < (recordOf p.logged).length := by
      rw [hb,List.length_append] at hhigh
      omega
    refine ⟨_,⟨p.logged,k-e.wal.bytes.length,hn,rfl⟩,?_⟩
    have hall : (e.processAll (p :: ps)).wal.bytes = e.wal.bytes ++ (recordOf p.logged ++ more) := by
      rw [← List.append_assoc,← hb]
      exact hmore.symm
    rw [hall,List.take_append,List.take_of_length_le hlow,
      List.take_append_of_le_length (Nat.le_of_lt hn)]
    rfl

theorem exists_cutPoint {k : Nat} (h : Mirrors seed e)
    (hrun : StepRun.Along LedgerEngine.process (fun e p => e.ErrorFree p ∧ e.Fresh p) e ps)
    (hlow : e.wal.bytes.length ≤ k) (hhigh : k ≤ (e.processAll ps).wal.bytes.length) :
    ∃ i, i ≤ ps.length ∧ Mirrors seed (e.after ps i) ∧ CutPoint e ps k i := by
  induction ps generalizing e with
  | nil =>
    have hk : k = e.wal.bytes.length := Nat.le_antisymm hhigh hlow
    refine ⟨0,Nat.le_refl _,h,hlow,?_,[],.nil,?_⟩
    · intro j _
      simp [after]
    · rw [hk,List.append_nil]
      exact List.take_length
  | cons p ps ih =>
    obtain ⟨⟨hio,hfresh⟩,hrest⟩ := hrun
    by_cases hcut : k < (e.process p).wal.bytes.length
    · exact ⟨0,Nat.zero_le _,h,cutPoint_zero h.opened hio hlow hcut⟩
    · have hstep := Nat.not_lt.mp hcut
      obtain ⟨i,hi,hmirror,hfits,hlast,htorn⟩ := ih (h.process hio hfresh) hrest hstep hhigh
      refine ⟨i+1,Nat.succ_le_succ hi,hmirror,hfits,?_,htorn⟩
      intro j hj
      cases j with
      | zero => exact (process_wal_grows p h.opened).length_le.trans (hlast 0 hstep)
      | succ j => exact hlast j hj

end Mirror

section Crash

/-- A crash that leaves any first `k` bytes of the log loses the requests after
the last whole record in them and nothing else: recovery gives the memory right
after that record was committed, and cuts the file behind it. -/
theorem recover_cut (hash : IdempotencyKey → UInt64) (config : Config) (seed : LedgerState)
    (hseed : validateTrialBalance seed = .ok ()) (snapshotFile : File)
    (hsnap : Snapshot.Written seed 0 snapshotFile) (calls : List Call)
    (hio : StepRun.Along process ErrorFree (seeded hash config .empty seed)
      (calls.flatMap Call.dequeued))
    (hids : (seed.lastAppliedId :: (accepted (calls.flatMap Call.dequeued)
      (((seeded hash config .empty seed).runCalls calls).answers.map Prod.snd)).map
        (fun p => p.request.tx.id)).Pairwise (· < ·))
    (k : Nat) (hk : k ≤ ((seeded hash config .empty seed).runCalls calls).wal.bytes.length) :
    let ps := calls.flatMap Call.dequeued
    let state := fun i => (seeded hash config .empty seed).processAll (ps.take i)
    ∃ i, i ≤ ps.length ∧ (state i).wal.bytes.length ≤ k ∧
      (∀ j, (state j).wal.bytes.length ≤ k →
        (state j).wal.bytes.length ≤ (state i).wal.bytes.length) ∧
      recover (some (((seeded hash config .empty seed).runCalls calls).wal.cut k))
          (some snapshotFile) .complete =
        (.ok ⟨(state i).working,(state i).wal.bytes.length⟩,some (state i).wal) := by
  intro ps state
  rw [runCalls_eq] at hids hk ⊢
  rw [seeded_answers] at hids
  have hrun := hio.and (along_fresh hids)
  obtain ⟨i,hi,hmirror,hfits,hlast,tail,htail,hcut⟩ :=
    exists_cutPoint (seeded_mirrors hash config hseed) hrun (Nat.zero_le k) hk
  exact ⟨i,hi,hfits,hlast,hmirror.recover hsnap hcut htail⟩

theorem recover_cut_payments :
    ∃ snapshotFile, Snapshot.Written sampleChart 0 snapshotFile ∧
      recover (some ((sampleEngine.runCalls [⟨10,[samplePopped 1,samplePopped 2]⟩]).wal.cut 150))
          (some snapshotFile) .complete =
        (.ok ⟨(sampleEngine.process (samplePopped 1)).working,
            (sampleEngine.process (samplePopped 1)).wal.bytes.length⟩,
          some (sampleEngine.process (samplePopped 1)).wal) := by
  obtain ⟨f,hf⟩ := exists_chartSnapshot 0
  have hio : StepRun.Along process ErrorFree sampleEngine [samplePopped 1,samplePopped 2] :=
    along_errorFree (n := 4096) rfl (by decide) (by decide) (by decide)
  obtain ⟨i,hi,hfits,hlast,hrec⟩ := recover_cut (fun _ => 0) sampleConfig sampleChart (by decide)
    f hf [⟨10,[samplePopped 1,samplePopped 2]⟩] hio (by decide +kernel) 150 (by decide +kernel)
  have hone := hlast 1 (by decide)
  match i, hi with
  | 0, _ => exact absurd hone (by decide)
  | 1, _ => exact ⟨f,hf,hrec⟩
  | 2, _ => exact absurd hfits (by decide +kernel)

end Crash

end LedgerEngine

end FinancialLedger
