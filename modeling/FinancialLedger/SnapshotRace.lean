import Mathlib.Data.Fintype.Basic
import FinancialLedger.PosixDir
import FinancialLedger.Snapshot
import FinancialLedger.StepRun
set_option autoImplicit false

namespace FinancialLedger.Snapshot
open PodBytes PosixFile PosixDir

/-!
Calls of `write_snapshot` on one path that overlap, as `write_snapshot_async`
starts them on detached threads. Every call uses the same temporary name.
-/

inductive Name where
  | path
  | tmp
  deriving DecidableEq, Repr

structure Job where
  state : LedgerState
  iteration : Iteration state
  walOffset : UInt64
  padding : UInt32

def Job.buffer (j : Job) : List UInt8 :=
  snapshotBuffer j.state j.iteration j.walOffset j.padding

def Job.crc (j : Job) : List UInt8 := Pod.toBytes (Crc32.compute j.buffer)

/-- How far a call has come. The descriptor is closed before the rename. -/
inductive Point where
  | start
  | opened (fd : Descriptor)
  | buffered (fd : Descriptor)
  | summed (fd : Descriptor)
  | synced
  | returned (result : Result Unit)

inductive SystemCall where
  | openTmp (succeeds : Bool)
  | writeBuffer (o : WriteOutcome)
  | writeCrc (o : WriteOutcome)
  | fsync (succeeds : Bool)
  | rename (succeeds : Bool)
  deriving DecidableEq, Repr

def Job.step (j : Job) (d : Dir Name) : Point → SystemCall → Option (Point × Dir Name)
  | .start, .openTmp succeeds =>
      if succeeds = false then some (.returned (.error .snapshotOpenFailed),d)
      else some (.opened (d.openTrunc .tmp).1,(d.openTrunc .tmp).2)
  | .opened fd, .writeBuffer o =>
      let written := d.write fd j.buffer o
      if written.1 ≠ some j.buffer.length then
        some (.returned (.error .snapshotWriteFailed),written.2.2)
      else some (.buffered written.2.1,written.2.2)
  | .buffered fd, .writeCrc o =>
      let written := d.write fd j.crc o
      if written.1 ≠ some j.crc.length then
        some (.returned (.error .snapshotWriteFailed),written.2.2)
      else some (.summed written.2.1,written.2.2)
  | .summed _, .fsync succeeds =>
      if succeeds = false then some (.returned (.error .snapshotWriteFailed),d)
      else some (.synced,d)
  | .synced, .rename succeeds =>
      if succeeds = false then some (.returned (.error .snapshotWriteFailed),d)
      else
        match d.rename .tmp .path with
        | none => some (.returned (.error .snapshotWriteFailed),d)
        | some d' => some (.returned (.ok ()),d')
  | _, _ => none

structure Writers (n : Nat) where
  dir : Dir Name
  job : Fin n → Job
  point : Fin n → Point

def Writers.visible {n : Nat} (w : Writers n) : Option File := w.dir.file .path

def Writers.step {n : Nat} (w : Writers n) (a : Fin n × SystemCall) : Option (Writers n) :=
  ((w.job a.1).step w.dir (w.point a.1) a.2).map (fun q =>
    ⟨q.2,w.job,Function.update w.point a.1 q.1⟩)

def Point.InFlight : Point → Bool
  | .start | .returned _ => false
  | .opened _ | .buffered _ | .summed _ | .synced => true

def Writers.Exclusive {n : Nat} (w : Writers n) (a : Fin n × SystemCall) : Prop :=
  a.2 = .openTmp true → ∀ i, i ≠ a.1 → (w.point i).InFlight = false

instance {n : Nat} (w : Writers n) (a : Fin n × SystemCall) : Decidable (w.Exclusive a) :=
  inferInstanceAs (Decidable (_ → ∀ _, _ → _))

section Alone

def Job.Progress (j : Job) (d : Dir Name) : Point → Prop
  | .start | .returned _ => True
  | .opened fd => d.Owns .tmp fd []
  | .buffered fd => d.Owns .tmp fd j.buffer ∧ j.buffer.length ≤ maxRwCount
  | .summed fd => d.Owns .tmp fd (j.buffer ++ j.crc) ∧ j.buffer.length ≤ maxRwCount
  | .synced => ∃ fd, d.Owns .tmp fd (j.buffer ++ j.crc) ∧ j.buffer.length ≤ maxRwCount

theorem Job.progress_idle (j : Job) (d : Dir Name) {p : Point} (h : p.InFlight = false) :
    j.Progress d p := by
  cases p with
  | start | returned => trivial
  | opened | buffered | summed | synced => cases h

theorem Name.path_ne_tmp : Name.path ≠ Name.tmp := nofun

theorem Job.step_progress {j : Job} {d d' : Dir Name} {p p' : Point} {c : SystemCall}
    (hp : j.Progress d p) (h : j.step d p c = some (p',d')) :
    j.Progress d' p' ∧ (d'.file .path = d.file .path ∨
      ∃ f, d'.file .path = some f ∧ Written j.state j.walOffset f) := by
  cases p <;> cases c <;> simp only [step,reduceCtorEq] at h
  case start.openTmp succeeds =>
    split at h <;> cases h
    · exact ⟨trivial,.inl rfl⟩
    · exact ⟨d.openTrunc_owns .tmp,.inl (Dir.openTrunc_file Name.path_ne_tmp)⟩
  case opened.writeBuffer fd o =>
    have howns : d.Owns .tmp fd [] := hp
    have hpath := howns.write_file Name.path_ne_tmp j.buffer o
    split at h <;> cases h
    · exact ⟨trivial,.inl hpath⟩
    · case isFalse hw =>
      have hall := not_not.mp hw
      refine ⟨⟨howns.write hall,?_⟩,.inl hpath⟩
      rw [howns.write_eq] at hall
      exact File.length_le_of_write hall
  case buffered.writeCrc fd o =>
    obtain ⟨howns,hsmall⟩ := hp
    have hpath := howns.write_file Name.path_ne_tmp j.crc o
    split at h <;> cases h
    · exact ⟨trivial,.inl hpath⟩
    · case isFalse hw => exact ⟨⟨howns.write (not_not.mp hw),hsmall⟩,.inl hpath⟩
  case summed.fsync fd succeeds =>
    split at h <;> cases h
    · exact ⟨trivial,.inl rfl⟩
    · exact ⟨⟨fd,hp⟩,.inl rfl⟩
  case synced.rename succeeds =>
    obtain ⟨fd,howns,hsmall⟩ := hp
    obtain ⟨renamed,hr,hfile⟩ := howns.rename .path
    rw [hr] at h
    split at h <;> cases h
    · exact ⟨trivial,.inl rfl⟩
    · exact ⟨trivial,.inr ⟨_,hfile,written_of_bytes hsmall howns.bytes⟩⟩

def Job.run (j : Job) (q : Point × Dir Name) (calls : List SystemCall) : Point × Dir Name :=
  calls.foldl (fun q c => (j.step q.2 q.1 c).getD q) q

def WriteIo.calls (io : WriteIo) : List SystemCall :=
  [.openTmp io.opens,.writeBuffer io.buffer,.writeCrc io.crc,.fsync io.fsync,.rename io.rename]

def Job.Ends (j : Job) (q : Point × Dir Name) (calls : List SystemCall)
    (answer : Result Unit × Option File) : Prop :=
  (j.run q calls).1 = .returned answer.1 ∧ (j.run q calls).2.file .path = answer.2

section Stages
variable {j : Job} {d : Dir Name} {fd : Descriptor} {data : List UInt8}

theorem Job.run_returned (j : Job) (d : Dir Name) (result : Result Unit)
    (calls : List SystemCall) : j.run (.returned result,d) calls = (.returned result,d) := by
  induction calls with
  | nil => rfl
  | cons c calls ih => cases c <;> exact ih

theorem Job.ends_returned (j : Job) (d : Dir Name) (result : Result Unit)
    (calls : List SystemCall) : j.Ends (.returned result,d) calls (result,d.file .path) := by
  rw [Ends,run_returned]
  exact ⟨rfl,rfl⟩

theorem Job.Ends.cons {q q' : Point × Dir Name} {c : SystemCall} {calls : List SystemCall}
    {answer : Result Unit × Option File} (h : j.step q.2 q.1 c = some q')
    (hend : j.Ends q' calls answer) : j.Ends q (c :: calls) answer := by
  have hrun : j.run q (c :: calls) = j.run q' calls := by
    rw [run,List.foldl_cons,h]
    rfl
  rw [Ends,hrun]
  exact hend

theorem Job.ends_synced (h : d.Owns .tmp fd data) (rename : Bool) :
    j.Ends (.synced,d) [.rename rename]
      (if rename = false then (.error .snapshotWriteFailed,d.file .path)
        else (.ok (),some (d.contents fd.inode))) := by
  obtain ⟨renamed,hr,hfile⟩ := h.rename Name.path
  cases rename with
  | false => exact .cons rfl (j.ends_returned d _ _)
  | true =>
    have hstep : j.step d .synced (.rename true) = some (.returned (.ok ()),renamed) := by
      simp only [step,hr,Bool.true_eq_false,if_false]
    exact .cons hstep (hfile ▸ j.ends_returned renamed (.ok ()) [])

theorem Job.ends_summed (h : d.Owns .tmp fd data) (fsync rename : Bool) :
    j.Ends (.summed fd,d) [.fsync fsync,.rename rename]
      (if fsync = false then (.error .snapshotWriteFailed,d.file .path)
        else if rename = false then (.error .snapshotWriteFailed,d.file .path)
        else (.ok (),some (d.contents fd.inode))) := by
  cases fsync with
  | false => exact .cons rfl (j.ends_returned d _ _)
  | true => exact .cons rfl (ends_synced h rename)

theorem Job.ends_buffered (h : d.Owns .tmp fd data) (o : WriteOutcome) (fsync rename : Bool) :
    j.Ends (.buffered fd,d) [.writeCrc o,.fsync fsync,.rename rename]
      (let second := (d.contents fd.inode).write j.crc o
        if second.1 ≠ some j.crc.length then (.error .snapshotWriteFailed,d.file .path)
        else if fsync = false then (.error .snapshotWriteFailed,d.file .path)
        else if rename = false then (.error .snapshotWriteFailed,d.file .path)
        else (.ok (),some second.2)) := by
  have hcount := congrArg Prod.fst (h.write_eq j.crc o)
  dsimp only at hcount ⊢
  rw [← h.write_contents,← h.write_file Name.path_ne_tmp j.crc o,← hcount]
  by_cases hall : (d.write fd j.crc o).1 = some j.crc.length
  · rw [if_neg (not_not.mpr hall)]
    exact .cons (if_neg (not_not.mpr hall)) (ends_summed (h.write hall) fsync rename)
  · rw [if_pos hall]
    exact .cons (if_pos hall) (j.ends_returned _ _ _)

theorem Job.ends_opened (h : d.Owns .tmp fd []) (o o' : WriteOutcome) (fsync rename : Bool) :
    j.Ends (.opened fd,d) [.writeBuffer o,.writeCrc o',.fsync fsync,.rename rename]
      (let first := File.empty.write j.buffer o
        if first.1 ≠ some j.buffer.length then (.error .snapshotWriteFailed,d.file .path)
        else
          let second := first.2.write j.crc o'
          if second.1 ≠ some j.crc.length then (.error .snapshotWriteFailed,d.file .path)
          else if fsync = false then (.error .snapshotWriteFailed,d.file .path)
          else if rename = false then (.error .snapshotWriteFailed,d.file .path)
          else (.ok (),some second.2)) := by
  have hempty : d.contents fd.inode = .empty := File.ext_bytes h.bytes
  have hcount := congrArg Prod.fst (h.write_eq j.buffer o)
  dsimp only at hcount ⊢
  rw [← hempty,← h.write_contents,← h.write_file Name.path_ne_tmp j.buffer o,← hcount]
  by_cases hall : (d.write fd j.buffer o).1 = some j.buffer.length
  · rw [if_neg (not_not.mpr hall)]
    exact .cons (if_neg (not_not.mpr hall)) (ends_buffered (h.write hall) o' fsync rename)
  · rw [if_pos hall]
    exact .cons (if_pos hall) (j.ends_returned _ _ _)

end Stages

theorem Job.ends_alone (j : Job) (io : WriteIo) (d : Dir Name) (hpad : io.padding = j.padding) :
    j.Ends (.start,d) io.calls
      (writeSnapshot j.state j.iteration j.walOffset io (d.file .path)) := by
  have hopened := ends_opened (j := j) (d.openTrunc_owns .tmp) io.buffer io.crc io.fsync io.rename
  rw [Dir.openTrunc_file Name.path_ne_tmp] at hopened
  unfold writeSnapshot
  rw [hpad]
  by_cases hopens : io.opens = false
  · rw [if_pos hopens]
    exact .cons (if_pos hopens) (j.ends_returned d _ _)
  · rw [if_neg hopens]
    exact .cons (if_neg hopens) hopened

end Alone

/-- While every open of the temporary file is exclusive, at most one call is in
flight and has made undisturbed progress. -/
structure Writers.Undisturbed {n : Nat} (start w : Writers n) : Prop where
  job : w.job = start.job
  alone : ∀ i k, (w.point i).InFlight = true → (w.point k).InFlight = true → i = k
  progress : ∀ i, (w.job i).Progress w.dir (w.point i)
  visible : w.visible = start.visible ∨
    ∃ i f, w.visible = some f ∧ Written (start.job i).state (start.job i).walOffset f

theorem Job.step_inFlight {j : Job} {d : Dir Name} {p : Point} {c : SystemCall}
    {q : Point × Dir Name} (h : j.step d p c = some q) :
    p.InFlight = true ∨ c = .openTmp true ∨ q.1.InFlight = false ∧ q.2 = d := by
  cases p <;> cases c <;> simp only [step,reduceCtorEq] at h <;> try exact .inl rfl
  case start.openTmp succeeds =>
    cases succeeds with
    | true => exact .inr (.inl rfl)
    | false =>
      cases h
      exact .inr (.inr ⟨rfl,rfl⟩)

theorem Writers.Undisturbed.step {n : Nat} {start w w' : Writers n} {a : Fin n × SystemCall}
    (hw : start.Undisturbed w) (hg : w.Exclusive a) (h : w.step a = some w') :
    start.Undisturbed w' := by
  obtain ⟨q,hq,rfl⟩ := Option.map_eq_some_iff.mp h
  obtain ⟨hprogress,hpath⟩ := Job.step_progress (hw.progress a.1) hq
  have hvisible : q.2.file .path = start.visible ∨ ∃ i f, q.2.file .path = some f ∧
      Written (start.job i).state (start.job i).walOffset f := by
    obtain hsame | ⟨f,hf,hwritten⟩ := hpath
    · rw [hsame]
      exact hw.visible
    · rw [hw.job] at hwritten
      exact .inr ⟨a.1,f,hf,hwritten⟩
  -- the others are idle, unless this was an open that failed
  have hothers : (∀ i, i ≠ a.1 → (w.point i).InFlight = false) ∨
      q.1.InFlight = false ∧ q.2 = w.dir := by
    obtain hfly | hopen | hfailed := Job.step_inFlight hq
    · refine .inl (fun i hi => ?_)
      cases hidle : (w.point i).InFlight with
      | false => rfl
      | true => exact absurd (hw.alone i a.1 hidle hfly) hi
    · exact .inl (hg hopen)
    · exact .inr hfailed
  refine ⟨hw.job,?_,?_,hvisible⟩
  · intro i k hi hk
    dsimp only at hi hk
    by_cases hia : i = a.1 <;> by_cases hka : k = a.1
    · rw [hia,hka]
    · rw [hia,Function.update_self] at hi
      rw [Function.update_of_ne hka] at hk
      obtain hidle | ⟨hidle,-⟩ := hothers
      · cases hk.symm.trans (hidle k hka)
      · cases hi.symm.trans hidle
    · rw [hka,Function.update_self] at hk
      rw [Function.update_of_ne hia] at hi
      obtain hidle | ⟨hidle,-⟩ := hothers
      · cases hi.symm.trans (hidle i hia)
      · cases hk.symm.trans hidle
    · rw [Function.update_of_ne hia] at hi
      rw [Function.update_of_ne hka] at hk
      exact hw.alone i k hi hk
  · intro i
    dsimp only
    by_cases hia : i = a.1
    · rw [hia,Function.update_self]
      exact hprogress
    · rw [Function.update_of_ne hia]
      obtain hidle | ⟨-,hdir⟩ := hothers
      · exact (w.job i).progress_idle q.2 (hidle i hia)
      · rw [hdir]
        exact hw.progress i

def Writers.Fresh {n : Nat} (w : Writers n) : Prop := ∀ i, w.point i = .start

theorem Writers.Fresh.undisturbed {n : Nat} {w : Writers n} (h : w.Fresh) :
    w.Undisturbed w := by
  refine ⟨rfl,?_,?_,.inl rfl⟩
  · intro i k hi
    rw [h i] at hi
    cases hi
  · intro i
    rw [h i]
    trivial

/-- However the calls of any number of writers interleave, as long as no call
opens the temporary file under another one, the path shows what it showed at the
start or the whole snapshot of one of the calls, and never becomes corrupt. -/
theorem exec_visible {n : Nat} {start w : Writers n} {acts : List (Fin n × SystemCall)}
    (hstart : start.Fresh) (hg : StepRun.Guarded Writers.step Writers.Exclusive start acts)
    (h : StepRun.exec Writers.step start acts = some w) :
    (w.visible = start.visible ∨ ∃ i f, w.visible = some f ∧
      Written (start.job i).state (start.job i).walOffset f ∧
      loadSnapshot w.visible .complete =
        .ok ⟨(start.job i).state,(start.job i).walOffset⟩) ∧
    (loadSnapshot start.visible .complete ≠ .error .snapshotCorrupt →
      loadSnapshot w.visible .complete ≠ .error .snapshotCorrupt) := by
  have hinv : start.Undisturbed w := StepRun.exec_invariant start.Undisturbed
    (fun _ _ _ hw hg h => hw.step hg h) hstart.undisturbed hg h
  obtain hsame | ⟨i,f,hf,hwritten⟩ := hinv.visible
  · rw [hsame]
    exact ⟨.inl rfl,id⟩
  · have hload := loadSnapshot_written hwritten
    rw [hf,hload]
    exact ⟨.inr ⟨i,f,rfl,hwritten,rfl⟩,fun _ => nofun⟩

def twoWriters : Writers 2 where
  dir := .empty
  job i := ⟨.empty,⟨[],rfl⟩,UInt64.ofNat i.val,0⟩
  point _ := .start

def wholeCall (i : Fin 2) : List (Fin 2 × SystemCall) :=
  [(i,.openTmp true),(i,.writeBuffer (.accepts 32)),(i,.writeCrc (.accepts 4)),(i,.fsync true),
    (i,.rename true)]

def inTurn : List (Fin 2 × SystemCall) := wholeCall 0 ++ wholeCall 1

theorem exec_visible_in_turn : ∃ w, StepRun.exec Writers.step twoWriters inTurn = some w ∧
    w.visible.isSome ∧
    (w.visible = twoWriters.visible ∨ ∃ i f, w.visible = some f ∧
      Written (twoWriters.job i).state (twoWriters.job i).walOffset f ∧
      loadSnapshot w.visible .complete =
        .ok ⟨(twoWriters.job i).state,(twoWriters.job i).walOffset⟩) ∧
    (loadSnapshot twoWriters.visible .complete ≠ .error .snapshotCorrupt →
      loadSnapshot w.visible .complete ≠ .error .snapshotCorrupt) := by
  have hrun : (StepRun.exec Writers.step twoWriters inTurn).map (fun w => w.visible.isSome) =
      some true := by
    decide
  obtain ⟨w,hw,hvisible⟩ := Option.map_eq_some_iff.mp hrun
  exact ⟨w,hw,hvisible,exec_visible (fun _ => rfl) (by decide) hw⟩

/-- The second call empties the file under the first, whose checksum then stands
behind a gap of zeros when it is renamed. -/
def overlapping : List (Fin 2 × SystemCall) :=
  [(0,.openTmp true),(0,.writeBuffer (.accepts 32)),(1,.openTmp true),(0,.writeCrc (.accepts 4)),
    (0,.fsync true),(0,.rename true)]

theorem overlapping_visible_corrupt : twoWriters.visible = none ∧
    ∃ w, StepRun.exec Writers.step twoWriters overlapping = some w ∧
      loadSnapshot w.visible .complete = .error .snapshotCorrupt := by
  have hrun : (StepRun.exec Writers.step twoWriters overlapping).map
      (fun w => (loadSnapshot w.visible .complete matches .error .snapshotCorrupt : Bool)) =
        some true := by
    decide
  obtain ⟨w,hw,hvisible⟩ := Option.map_eq_some_iff.mp hrun
  refine ⟨rfl,w,hw,?_⟩
  split at hvisible
  · case h_1 hload => exact hload
  · cases hvisible

end FinancialLedger.Snapshot
