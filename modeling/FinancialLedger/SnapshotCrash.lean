import FinancialLedger.PosixCrash
import FinancialLedger.SnapshotRace
set_option autoImplicit false

/-!
`write_snapshot` and power failures. The temporary file is synced before it gets the
name that recovery looks for, and the directory is synced afterwards.
-/

namespace FinancialLedger.Snapshot
open PodBytes PosixFile PosixDir

inductive DiskPoint where
  | running (p : Point)
  | renamed

inductive DiskCall where
  | call (c : SystemCall)
  | fsyncParentDir (succeeds : Bool)
  deriving DecidableEq, Repr

def DiskPoint.point : DiskPoint → Point
  | .running p => p
  | .renamed => .returned (.ok ())

/-- One system call of `write_snapshot`; the answer of `fsync_parent_dir` is dropped. -/
def Job.diskStep (j : Job) (k : Disk Name) : DiskPoint → DiskCall → Option (DiskPoint × Disk Name)
  | .running .start, .call (.openTmp succeeds) =>
      if succeeds = false then some (.running (.returned (.error .snapshotOpenFailed)),k)
      else some (.running (.opened (k.openTrunc .tmp).1),(k.openTrunc .tmp).2)
  | .running (.opened fd), .call (.writeBuffer o) =>
      let written := k.write fd j.buffer o
      if written.1 ≠ some j.buffer.length then
        some (.running (.returned (.error .snapshotWriteFailed)),written.2.2)
      else some (.running (.buffered written.2.1),written.2.2)
  | .running (.buffered fd), .call (.writeCrc o) =>
      let written := k.write fd j.crc o
      if written.1 ≠ some j.crc.length then
        some (.running (.returned (.error .snapshotWriteFailed)),written.2.2)
      else some (.running (.summed written.2.1),written.2.2)
  | .running (.summed fd), .call (.fsync succeeds) =>
      if succeeds = false then some (.running (.returned (.error .snapshotWriteFailed)),k)
      else some (.running .synced,k.fsync fd.inode)
  | .running .synced, .call (.rename succeeds) =>
      if succeeds = false then some (.running (.returned (.error .snapshotWriteFailed)),k)
      else
        match k.rename .tmp .path with
        | none => some (.running (.returned (.error .snapshotWriteFailed)),k)
        | some k' => some (.renamed,k')
  | .renamed, .fsyncParentDir succeeds =>
      some (.running (.returned (.ok ())),if succeeds then k.fsyncDir else k)
  | _, _ => none

section Step

variable {j : Job} {k k' : Disk Name} {p p' : DiskPoint} {c : DiskCall}

theorem Job.diskStep_now (h : j.diskStep k p c = some (p',k')) :
    (∃ call, c = .call call ∧ j.step k.now p.point call = some (p'.point,k'.now)) ∨
      (p = .renamed ∧ p'.point = p.point ∧ k'.now = k.now) := by
  cases p with
  | renamed =>
    cases c with
    | call c => cases h
    | fsyncParentDir succeeds =>
      cases h
      refine .inr ⟨rfl,rfl,?_⟩
      cases succeeds <;> rfl
  | running p =>
    cases c with
    | fsyncParentDir succeeds => cases p <;> cases h
    | call c =>
      refine .inl ⟨c,rfl,?_⟩
      cases p <;> cases c <;> simp only [diskStep,reduceCtorEq] at h
      case start.openTmp succeeds =>
        split at h <;> cases h
        · case isTrue hc => exact if_pos hc
        · case isFalse hc => exact if_neg hc
      case opened.writeBuffer fd o =>
        split at h <;> cases h
        · case isTrue hc => exact if_pos hc
        · case isFalse hc => exact if_neg hc
      case buffered.writeCrc fd o =>
        split at h <;> cases h
        · case isTrue hc => exact if_pos hc
        · case isFalse hc => exact if_neg hc
      case summed.fsync fd succeeds =>
        split at h <;> cases h
        · case isTrue hc => exact if_pos hc
        · case isFalse hc => exact if_neg hc
      case synced.rename succeeds =>
        split at h
        · case isTrue hc =>
          cases h
          exact if_pos hc
        · case isFalse hc =>
          split at h
          · case h_1 hnone =>
            cases h
            simp [step,DiskPoint.point,hc,Disk.rename_eq_none hnone]
          · case h_2 renamed hsome =>
            cases h
            simp [step,DiskPoint.point,hc,(Disk.rename_eq_some hsome).1]

/-- A call that is about to rename has its file on disk, and one that has renamed
shows it. -/
def Job.OnDisk (j : Job) (k : Disk Name) : DiskPoint → Prop
  | .running .synced => ∀ n, k.now.entry .tmp = some n → k.clean n = true
  | .renamed => ∃ f, k.now.file .path = some f ∧ Written j.state j.walOffset f
  | _ => True

/-- What an undisturbed call keeps, and what a power failure may find. -/
structure Job.Safe (j : Job) (P : Option File → Prop) (k : Disk Name) (p : DiskPoint) : Prop where
  progress : j.Progress k.now p.point
  onDisk : j.OnDisk k p
  found : k.Holds .path P
  apart : k.Private .path .tmp

theorem Job.Safe.diskStep {P : Option File → Prop} (hs : j.Safe P k p)
    (hP : ∀ f, Written j.state j.walOffset f → P (some f))
    (h : j.diskStep k p c = some (p',k')) : j.Safe P k' p' := by
  have hprogress : j.Progress k'.now p'.point := by
    obtain ⟨call,-,hnow⟩ | ⟨-,hpoint,hnow⟩ := diskStep_now h
    · exact (Job.step_progress hs.progress hnow).1
    · rw [hpoint,hnow]
      exact hs.progress
  cases p with
  | renamed =>
    cases c with
    | call c => cases h
    | fsyncParentDir succeeds =>
      cases h
      cases succeeds with
      | false => exact ⟨hprogress,trivial,hs.found,hs.apart⟩
      | true =>
        obtain ⟨hfound,hprivate⟩ := hs.found.fsyncDir hs.apart
        exact ⟨hprogress,trivial,hfound,hprivate⟩
  | running p =>
    cases c with
    | fsyncParentDir succeeds => cases p <;> cases h
    | call c =>
      cases p <;> cases c <;> simp only [Job.diskStep,reduceCtorEq] at h
      case start.openTmp succeeds =>
        split at h <;> cases h
        · exact ⟨hprogress,trivial,hs.found,hs.apart⟩
        · obtain ⟨hfound,hprivate⟩ := hs.found.openTrunc hs.apart Name.path_ne_tmp
          exact ⟨hprogress,trivial,hfound,hprivate⟩
      case opened.writeBuffer fd o =>
        have howns : k.now.Owns .tmp fd [] := hs.progress
        obtain ⟨hfound,hprivate⟩ := hs.found.write hs.apart howns.entry j.buffer o
        split at h <;> cases h
        · exact ⟨hprogress,trivial,hfound,hprivate⟩
        · exact ⟨hprogress,trivial,hfound,hprivate⟩
      case buffered.writeCrc fd o =>
        have howns : k.now.Owns .tmp fd j.buffer := hs.progress.1
        obtain ⟨hfound,hprivate⟩ := hs.found.write hs.apart howns.entry j.crc o
        split at h <;> cases h
        · exact ⟨hprogress,trivial,hfound,hprivate⟩
        · exact ⟨hprogress,trivial,hfound,hprivate⟩
      case summed.fsync fd succeeds =>
        have howns : k.now.Owns .tmp fd (j.buffer ++ j.crc) := hs.progress.1
        split at h <;> cases h
        · exact ⟨hprogress,trivial,hs.found,hs.apart⟩
        · refine ⟨hprogress,fun n hn => ?_,hs.found.fsync fd.inode,hs.apart⟩
          cases howns.entry.symm.trans hn
          exact Function.update_self ..
      case synced.rename succeeds =>
        obtain ⟨fd,howns,hsmall⟩ := hs.progress
        have hwritten : Written j.state j.walOffset (k.now.contents fd.inode) :=
          written_of_bytes hsmall howns.bytes
        split at h
        · cases h
          exact ⟨hprogress,trivial,hs.found,hs.apart⟩
        · split at h
          · cases h
            exact ⟨hprogress,trivial,hs.found,hs.apart⟩
          · case h_2 hsome =>
            cases h
            obtain ⟨hfound,hprivate⟩ := hs.found.rename howns.entry
              (hs.onDisk fd.inode howns.entry) (hP _ hwritten) Name.path_ne_tmp hsome
            obtain ⟨renamed,hr,hfile⟩ := howns.rename .path
            cases hr.symm.trans (Disk.rename_eq_some hsome).1
            exact ⟨hprogress,⟨_,hfile,hwritten⟩,hfound,hprivate⟩

end Step

structure Saver where
  disk : Disk Name
  current : Option (Job × DiskPoint)

namespace Saver

inductive Action where
  | begin (j : Job)
  | call (c : DiskCall)

def idle (s : Saver) : Bool :=
  match s.current with
  | none => true
  | some (_,.running (.returned _)) => true
  | some (_,.running .start) => false
  | some (_,.running (.opened _)) => false
  | some (_,.running (.buffered _)) => false
  | some (_,.running (.summed _)) => false
  | some (_,.running .synced) => false
  | some (_,.renamed) => false

def step (s : Saver) : Action → Option Saver
  | .begin j => if s.idle then some { s with current := some (j,.running .start) } else none
  | .call c =>
      match s.current with
      | none => none
      | some (j,p) => (j.diskStep s.disk p c).map (fun q => ⟨q.2,some (j,q.1)⟩)

def start (d : Dir Name) : Saver := ⟨.settled d,none⟩

/-- Whenever the power fails, recovery finds something with the property. -/
structure Safe (P : Option File → Prop) (s : Saver) : Prop where
  found : s.disk.Holds .path P
  apart : s.disk.Private .path .tmp
  call : ∀ j p, s.current = some (j,p) → j.Progress s.disk.now p.point ∧ j.OnDisk s.disk p ∧
    ∀ f, Written j.state j.walOffset f → P (some f)

variable {P : Option File → Prop} {s s' : Saver} {d : Dir Name} {acts : List Action}

def Action.Allows (P : Option File → Prop) : Action → Prop
  | .begin j => ∀ f, Written j.state j.walOffset f → P (some f)
  | .call _ => True

theorem Safe.step {a : Action} (hs : s.Safe P) (ha : a.Allows P) (h : s.step a = some s') :
    s'.Safe P := by
  cases a with
  | begin j =>
    simp only [Saver.step] at h
    split at h
    · cases h
      refine ⟨hs.found,hs.apart,?_⟩
      rintro j p ⟨⟩
      exact ⟨trivial,trivial,ha⟩
    · cases h
  | call c =>
    simp only [Saver.step] at h
    split at h
    · cases h
    · case h_2 j p hcurrent =>
      obtain ⟨q,hq,rfl⟩ := Option.map_eq_some_iff.mp h
      obtain ⟨hprogress,honDisk,hwritten⟩ := hs.call j p hcurrent
      have hsafe : j.Safe P s.disk p := ⟨hprogress,honDisk,hs.found,hs.apart⟩
      have hnext := hsafe.diskStep hwritten hq
      refine ⟨hnext.found,hnext.apart,?_⟩
      rintro j p ⟨⟩
      exact ⟨hnext.progress,hnext.onDisk,hwritten⟩

theorem Safe.imp {Q : Option File → Prop} (hs : s.Safe P) (h : ∀ found, P found → Q found) :
    s.Safe Q :=
  ⟨hs.found.imp h,hs.apart,fun j p hc =>
    ⟨(hs.call j p hc).1,(hs.call j p hc).2.1,fun f hf => h _ ((hs.call j p hc).2.2 f hf)⟩⟩

theorem Safe.exec (hs : s.Safe P) (hacts : ∀ a ∈ acts, a.Allows P)
    (h : StepRun.exec Saver.step s acts = some s') : s'.Safe P :=
  StepRun.exec_invariant (Safe P) (fun _ _ _ hs ha h => hs.step ha h) hs
    (StepRun.guarded_of_mem Saver.step hacts s) h

theorem start_safe (h : P (d.file .path)) : (start d).Safe P := by
  refine ⟨.settled h,fun n hn entry he hx => ?_,nofun⟩
  rw [List.mem_singleton.mp he] at hx
  exact Name.path_ne_tmp (d.distinct .path .tmp n hx hn)

def OneOf (calls : List Action) (found : Option File) : Prop :=
  ∃ j f, .begin j ∈ calls ∧ found = some f ∧ Written j.state j.walOffset f

theorem allows_oneOf {calls : List Action} (h : ∀ found, OneOf calls found → P found) :
    ∀ a ∈ calls, a.Allows P := by
  intro a ha
  cases a with
  | begin j => exact fun f hf => h _ ⟨j,f,ha,rfl,hf⟩
  | call c => trivial

/-- Whenever the power fails during any number of calls of `write_snapshot`, each of
which may fail anywhere, the path has what it had before or the whole snapshot of
one of the calls; and once `fsync_parent_dir` has worked for a call, it has the
snapshot of that call or of a later one. -/
theorem crash_atomic (hrun : StepRun.exec step (start d) acts = some s) :
    (∀ found, s.disk.AfterCrash .path found → found = d.file .path ∨ OneOf acts found) ∧
    ∀ j later s', s.current = some (j,.renamed) →
      StepRun.exec step s (.call (.fsyncParentDir true) :: later) = some s' →
      ∀ found, s'.disk.AfterCrash .path found → OneOf (.begin j :: later) found := by
  have hsafe : s.Safe (fun found => found = d.file .path ∨ OneOf acts found) :=
    (start_safe (.inl rfl)).exec (allows_oneOf (fun _ => .inr)) hrun
  refine ⟨fun found hfound => hsafe.found.afterCrash hfound,?_⟩
  intro j later s' hcurrent hafter found hfound
  obtain ⟨u,hu,hlater⟩ := StepRun.exec_cons.mp hafter
  simp only [step,hcurrent,Job.diskStep,Option.map_some,if_true,Option.some.injEq] at hu
  obtain ⟨-,⟨f,hfile,hwritten⟩,-⟩ := hsafe.call j _ hcurrent
  have hsynced : u.Safe (OneOf (.begin j :: later)) := by
    subst hu
    refine ⟨hsafe.found.fsyncDir_now ⟨j,f,List.mem_cons_self,hfile,hwritten⟩,
      (hsafe.found.fsyncDir hsafe.apart).2,?_⟩
    rintro j' p ⟨⟩
    exact ⟨trivial,trivial,fun g hg => ⟨j,g,List.mem_cons_self,rfl,hg⟩⟩
  have hall : ∀ a ∈ later, a.Allows (OneOf (.begin j :: later)) :=
    allows_oneOf (fun _ ⟨j',g,hj,hg⟩ => ⟨j',g,List.mem_cons_of_mem _ hj,hg⟩)
  exact (hsynced.exec hall hlater).found.afterCrash hfound

def savesEmpty (order : Iteration .empty) : List Action :=
  [.begin ⟨.empty,order,0,0⟩,.call (.call (.openTmp true)),
    .call (.call (.writeBuffer (.accepts 32))),.call (.call (.writeCrc (.accepts 4))),
    .call (.call (.fsync true)),.call (.call (.rename true))]

theorem crash_atomic_empty : ∃ order s j s',
    StepRun.exec step (start .empty) (savesEmpty order) = some s ∧
    s.step (.call (.fsyncParentDir true)) = some s' ∧
    ∀ found, s'.disk.AfterCrash .path found → OneOf [.begin j] found := by
  have hrun : (StepRun.exec step (start .empty) (savesEmpty ⟨[],rfl⟩)).map
      (fun s => (s.current matches some (_,.renamed) : Bool)) = some true := by decide
  obtain ⟨s,hs,hpoint⟩ := Option.map_eq_some_iff.mp hrun
  split at hpoint
  · case h_1 j hcurrent =>
    have hstep : s.step (.call (.fsyncParentDir true)) =
        some ⟨s.disk.fsyncDir,some (j,.running (.returned (.ok ())))⟩ := by
      simp only [step,hcurrent]
      rfl
    exact ⟨_,s,j,_,hs,hstep,(crash_atomic hs).2 j [] _ hcurrent (StepRun.exec_cons.mpr ⟨_,hstep,rfl⟩)⟩
  · cases hpoint

end Saver

end FinancialLedger.Snapshot
