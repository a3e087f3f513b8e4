import FinancialLedger.Checkpoint
set_option autoImplicit false

/-!
What the cache of recent keys guarantees over a run, and over a restart.
-/

namespace FinancialLedger
open PosixFile Wal Recovery

def Popped.key (p : Popped) : IdempotencyKey := p.request.tx.idempotencyKey

namespace LedgerEngine

section Keys

variable (e : LedgerEngine) (ps : List Popped)

theorem processAll_keys :
    (e.processAll ps).idempotency.keys = (LruSet.run e.idempotency.raw.capacity
      e.idempotency.keys (ps.map Popped.key)).2 ∧
    (e.processAll ps).idempotency.raw.capacity = e.idempotency.raw.capacity := by
  induction ps generalizing e with
  | nil => exact ⟨rfl,rfl⟩
  | cons p ps ih =>
    obtain ⟨hkeys,hcap⟩ := e.process_keys p
    obtain ⟨hrest,hcap'⟩ := ih (e.process p)
    rw [hkeys,hcap] at hrest
    exact ⟨hrest,hcap'.trans hcap⟩

theorem answersTo_getElem? (i : Nat) :
    (e.answersTo ps)[i]? = ps[i]?.map (fun p => (e.after ps i).answer p) := by
  induction ps generalizing e i with
  | nil => rfl
  | cons p ps ih =>
    cases i with
    | zero => rfl
    | succ i =>
      rw [answersTo,List.getElem?_cons_succ,List.getElem?_cons_succ]
      exact ih (e.process p) i

def between (i j : Nat) : List Popped := (ps.take j).drop (i+1)

variable {ps}

theorem after_eq_between {i j : Nat} (hij : i < j) {p : Popped} (hp : ps[i]? = some p) :
    e.after ps j = ((e.after ps i).process p).processAll (between ps i j) := by
  obtain ⟨hi,rfl⟩ := List.getElem?_eq_some_iff.mp hp
  have hlen : i < (ps.take j).length := by
    rw [List.length_take]
    omega
  have hsplit : ps.take j = ps.take i ++ ps[i] :: between ps i j := by
    calc ps.take j = (ps.take j).take i ++ (ps.take j).drop i := (List.take_append_drop i _).symm
      _ = _ := by
          rw [List.take_take,Nat.min_eq_left (Nat.le_of_lt hij),List.drop_eq_getElem_cons hlen,
            List.getElem_take]
          rfl
  rw [after,after,hsplit,processAll,List.foldl_append]
  rfl

/-- A key that was dequeued leaves the cache only after as many other keys as
the cache can hold were dequeued. -/
theorem capacity_le_between {i j : Nat} (hij : i < j) {p : Popped} (hp : ps[i]? = some p)
    (hgone : p.key ∉ (e.after ps j).idempotency.keys) :
    e.idempotency.raw.capacity ≤
      (((between ps i j).map Popped.key).toFinset.erase p.key).card := by
  obtain ⟨-,hcap⟩ := e.processAll_keys (ps.take i)
  obtain ⟨htouch,hcap'⟩ := (e.after ps i).process_keys p
  obtain ⟨hkeys,-⟩ := processAll_keys ((e.after ps i).process p) (between ps i j)
  have hcapacity : (e.after ps i).idempotency.raw.capacity = e.idempotency.raw.capacity := hcap
  rw [e.after_eq_between hij hp,hkeys,htouch,hcap',hcapacity] at hgone
  exact LruSet.card_of_dropped_touch (e.after ps i).idempotency.keys_nodup hgone

end Keys

section Window

variable (hash : IdempotencyKey → UInt64) (config : Config) (wal : File) (seed : LedgerState)

theorem seeded_keys : (seeded hash config wal seed).idempotency.keys = [] :=
  (LiveCache.new hash config.idempotencyCapacity config.fits).keys_eq
    (IdempotencyCache.new_represents hash config.fits)

theorem seeded_capacity : (seeded hash config wal seed).idempotency.raw.capacity =
    max config.idempotencyCapacity 1 := rfl

theorem runCalls_answer (calls : List Call) (i : Nat) :
    (((seeded hash config wal seed).runCalls calls).answers.map Prod.snd)[i]? =
      (calls.flatMap Call.dequeued)[i]?.map (fun p => ((seeded hash config wal seed).after
        (calls.flatMap Call.dequeued) i).answer p) := by
  rw [runCalls_eq,seeded_answers,answersTo_getElem?]

/-- A key is committed a second time only after as many other keys as the cache
can hold were dequeued, whatever became of them. -/
theorem committed_twice_apart (calls : List Call) :
    let ps := calls.flatMap Call.dequeued
    let answers := ((seeded hash config wal seed).runCalls calls).answers.map Prod.snd
    ∀ (i j : Nat) (p q : Popped), i < j → ps[i]? = some p → ps[j]? = some q → p.key = q.key →
      answers[i]? = some .none → answers[j]? = some .none →
        max config.idempotencyCapacity 1 ≤
          (((between ps i j).map Popped.key).toFinset.erase p.key).card := by
  intro ps answers i j p q hij hp hq hkey _ hnone
  have hans := runCalls_answer hash config wal seed calls j
  rw [show (calls.flatMap Call.dequeued)[j]? = some q from hq,Option.map_some] at hans
  have hpass := verdict_of_answer (Option.some.inj (hans.symm.trans hnone))
  have hgone : p.key ∉ ((seeded hash config wal seed).after ps j).idempotency.keys := by
    rw [hkey]
    exact (verdict_eq_none.mp hpass).1
  exact capacity_le_between _ hij hp hgone

def oneKeyConfig : Config := ⟨.syncEveryWrite,4096,0,1,by decide⟩

theorem committed_twice_apart_one :
    ((seeded (fun _ => 0) oneKeyConfig .empty sampleChart).runCalls
        [⟨10,[samplePopped 1,samplePopped 2,samplePopped 1]⟩]).answers.map Prod.snd =
      [.none,.none,.none] ∧
    1 ≤ (((between [samplePopped 1,samplePopped 2,samplePopped 1] 0 2).map
      Popped.key).toFinset.erase (samplePopped 1).key).card := by
  have hans : ((seeded (fun _ => 0) oneKeyConfig .empty sampleChart).runCalls
      [⟨10,[samplePopped 1,samplePopped 2,samplePopped 1]⟩]).answers.map Prod.snd =
        [.none,.none,.none] := by decide +kernel
  refine ⟨hans,committed_twice_apart (fun _ => 0) oneKeyConfig .empty sampleChart
    [⟨10,[samplePopped 1,samplePopped 2,samplePopped 1]⟩] 0 2 (samplePopped 1) (samplePopped 1)
    (by decide) rfl rfl rfl ?_ ?_⟩
  · rw [hans]
    rfl
  · rw [hans]
    rfl

/-- A duplicate was dequeued before and was then no duplicate, and until enough
other keys were dequeued every further request with its key is one, whatever the
first was answered. -/
theorem duplicate_iff_dequeued (calls : List Call) :
    let ps := calls.flatMap Call.dequeued
    let answers := ((seeded hash config wal seed).runCalls calls).answers.map Prod.snd
    (∀ (j : Nat) (q : Popped), ps[j]? = some q → answers[j]? = some .duplicateTransaction →
      ∃ (i : Nat) (p : Popped) (a : LedgerError), i < j ∧ ps[i]? = some p ∧ p.key = q.key ∧
        answers[i]? = some a ∧ a ≠ .duplicateTransaction) ∧
    ∀ (i j : Nat) (p q : Popped), i < j → ps[i]? = some p → ps[j]? = some q → p.key = q.key →
      (((between ps i j).map Popped.key).toFinset.erase p.key).card <
        max config.idempotencyCapacity 1 → answers[j]? = some .duplicateTransaction := by
  intro ps answers
  have hans (i : Nat) (p : Popped) (hp : ps[i]? = some p) :
      answers[i]? = some (((seeded hash config wal seed).after ps i).answer p) := by
    rw [show answers[i]? = _ from runCalls_answer hash config wal seed calls i,
      show (calls.flatMap Call.dequeued)[i]? = some p from hp,Option.map_some]
  have hseen (j : Nat) (k : IdempotencyKey)
      (hk : k ∈ ((seeded hash config wal seed).after ps j).idempotency.keys) :
      ∃ i p, i < j ∧ ps[i]? = some p ∧ p.key = k := by
    rw [after,(processAll_keys _ _).1,seeded_keys] at hk
    obtain hk | hk := LruSet.mem_run hk
    · cases hk
    · obtain ⟨p,hp,rfl⟩ := List.mem_map.mp hk
      obtain ⟨i,hi⟩ := List.mem_iff_getElem?.mp hp
      rw [List.getElem?_take] at hi
      split at hi
      · case isTrue hij => exact ⟨i,p,hij,hi,rfl⟩
      · cases hi
  constructor
  · intro j
    induction j using Nat.strongRecOn with
    | ind j ih =>
      intro q hq hdup
      rw [hans j q hq,Option.some.injEq,answer_eq_duplicate] at hdup
      obtain ⟨i,p,hij,hp,hkey⟩ := hseen j q.key hdup
      by_cases hfirst : ((seeded hash config wal seed).after ps i).answer p =
          .duplicateTransaction
      · obtain ⟨i',p',a,hi',hp',hkey',ha,hne⟩ := ih i hij p hp (by rw [hans i p hp,hfirst])
        exact ⟨i',p',a,by omega,hp',hkey'.trans hkey,ha,hne⟩
      · exact ⟨i,p,_,hij,hp,hkey,hans i p hp,hfirst⟩
  · intro i j p q hij hp hq hkey hfew
    rw [hans j q hq,Option.some.injEq,answer_eq_duplicate]
    by_contra hgone
    have hfull := capacity_le_between (seeded hash config wal seed) hij hp
      (show p.key ∉ _ by rw [hkey]; exact hgone)
    rw [seeded_capacity] at hfull
    omega

def refusedPopped : Popped := ⟨⟨{ samplePayment 1 with legs := .empty },0⟩,⟨16,.accepts 4096,true⟩⟩

theorem duplicate_iff_dequeued_refused :
    let ps := [refusedPopped,samplePopped 1]
    let answers := (sampleEngine.runCalls [⟨10,ps⟩]).answers.map Prod.snd
    answers[1]? = some .duplicateTransaction ∧ ∃ (i : Nat) (p : Popped) (a : LedgerError),
      i < 1 ∧ ps[i]? = some p ∧ answers[i]? = some a ∧ a ≠ .duplicateTransaction := by
  obtain ⟨hearlier,hlater⟩ := duplicate_iff_dequeued (fun _ => 0) sampleConfig .empty sampleChart
    [⟨10,[refusedPopped,samplePopped 1]⟩]
  have hdup := hlater 0 1 refusedPopped (samplePopped 1) (by decide) rfl rfl rfl (by decide)
  obtain ⟨i,p,a,hi,hp,-,ha,hne⟩ := hearlier 1 (samplePopped 1) rfl hdup
  exact ⟨hdup,i,p,a,hi,hp,ha,hne⟩

theorem retry_refused :
    (sampleEngine.runCalls [⟨10,[refusedPopped,samplePopped 1]⟩]).answers =
      [(0,.tooFewLegs),(1,.duplicateTransaction)] ∧ refusedPopped.key = (samplePopped 1).key ∧
    (sampleEngine.runCalls [⟨10,[refusedPopped,samplePopped 1]⟩]).wal = .empty := by
  refine ⟨by decide +kernel,rfl,File.ext_bytes ?_⟩
  decide +kernel

end Window

section Restart

/-- The requests that pass the checks and are handed to the log. -/
def handed : LedgerEngine → List Popped → List Popped
  | _, [] => []
  | e, p :: ps =>
      if e.verdict p.request.tx = .none then p :: handed (e.process p) ps
      else handed (e.process p) ps

variable {e : LedgerEngine} {ps : List Popped}

theorem handed_nodup (hfit : (e.idempotency.keys ++ ps.map Popped.key).toFinset.card ≤
      e.idempotency.raw.capacity) :
    ((e.handed ps).map Popped.key).Nodup ∧
      ∀ p ∈ e.handed ps, p.key ∉ e.idempotency.keys := by
  induction ps generalizing e with
  | nil => exact ⟨List.nodup_nil,nofun⟩
  | cons p ps ih =>
    obtain ⟨hkeys,hcap⟩ := e.process_keys p
    have hself : p.key ∈ (e.process p).idempotency.keys := by
      rw [hkeys]
      exact LruSet.mem_touch_self _ _ _
    have hsub : ∀ k ∈ e.idempotency.keys, k ∈ (e.process p).idempotency.keys := by
      intro k hk
      rw [hkeys]
      refine LruSet.mem_touch_of_card_le e.idempotency.keys_nodup ?_ hk
      refine Nat.le_trans (Finset.card_le_card ?_) hfit
      intro x hx
      simp only [List.mem_toFinset,List.mem_cons,List.mem_append,List.map_cons] at hx ⊢
      obtain rfl | hx := hx
      · exact .inr (.inl rfl)
      · exact .inl hx
    have hfit' : ((e.process p).idempotency.keys ++ ps.map Popped.key).toFinset.card ≤
        (e.process p).idempotency.raw.capacity := by
      rw [hcap]
      refine Nat.le_trans (Finset.card_le_card ?_) hfit
      intro x hx
      simp only [List.mem_toFinset,List.mem_cons,List.mem_append,List.map_cons] at hx ⊢
      obtain hx | hx := hx
      · rw [hkeys] at hx
        obtain rfl | hx := LruSet.mem_touch hx
        · exact .inr (.inl rfl)
        · exact .inl hx
      · exact .inr (.inr hx)
    obtain ⟨hnodup,hnew⟩ := ih hfit'
    have hlater : ∀ q ∈ (e.process p).handed ps, q.key ∉ e.idempotency.keys :=
      fun q hq hk => hnew q hq (hsub _ hk)
    rw [handed]
    split
    · case isTrue hpass =>
      refine ⟨?_,List.forall_mem_cons.mpr ⟨(verdict_eq_none.mp hpass).1,hlater⟩⟩
      rw [List.map_cons,List.nodup_cons]
      refine ⟨fun hmem => ?_,hnodup⟩
      obtain ⟨q,hq,hkey⟩ := List.mem_map.mp hmem
      exact hnew q hq (hkey ▸ hself)
    · exact ⟨hnodup,hlater⟩

/-- No `write` of the run is cut short. -/
def WritesWhole (e : LedgerEngine) (p : Popped) : Prop :=
  e.verdict p.request.tx = .none → p.io.WritesAll e.wal p.request.tx

theorem processAll_handed (hopen : e.walWriter.fdValid = true)
    (hwhole : StepRun.Along LedgerEngine.process WritesWhole e ps) :
    (e.processAll ps).wal.bytes =
      e.wal.bytes ++ logBytes ((e.handed ps).map Popped.logged) := by
  induction ps generalizing e with
  | nil => exact (List.append_nil _).symm
  | cons p ps ih =>
    obtain ⟨hopen',hcases⟩ := process_wal p hopen
    have hrest := ih hopen' hwhole.2
    have hall : e.processAll (p :: ps) = (e.process p).processAll ps := rfl
    rw [hall,hrest,handed]
    obtain ⟨hv,-,hb⟩ | ⟨hv,-,hshort,-⟩ | ⟨hv,-,-,-,hb⟩ | ⟨hv,-,hb⟩ := hcases
    · rw [if_neg hv,hb]
    · exact absurd (hwhole.1 hv) hshort
    · rw [if_pos hv,hb,List.map_cons,logBytes_cons,List.append_assoc]
    · rw [if_pos hv,hb,List.map_cons,logBytes_cons,List.append_assoc]

/-- The engine writes whole records, dies in the middle of at most one more, and
is recovered from one of its checkpoints without a read error. -/
structure WholeRestart (e : LedgerEngine) (ps : List Popped) (crashed : File)
    (snapshotFile : Option File) (io : RecoveryIo) : Prop where
  whole : StepRun.Along LedgerEngine.process WritesWhole e ps
  torn : ∃ tail, TornTail tail ∧ crashed.bytes = (e.processAll ps).wal.bytes ++ tail
  point : ∃ s walOffset f, Checkpoint e ps s walOffset.toNat ∧
    Snapshot.Written s walOffset f ∧ snapshotFile = some f
  reads : io = .complete

theorem WholeRestart.recovered_wal {crashed wal' : File} {snapshotFile : Option File}
    {io : RecoveryIo} {recovered : Result RecoveredState}
    (h : WholeRestart e ps crashed snapshotFile io) (hopen : e.walWriter.fdValid = true)
    (hrecover : recover (some crashed) snapshotFile io = (recovered,some wal')) :
    wal'.bytes = (e.processAll ps).wal.bytes := by
  obtain ⟨hwhole,⟨tail,htail,hcrashed⟩,⟨s,walOffset,f,hpoint,hwritten,rfl⟩,rfl⟩ := h
  obtain ⟨i,before,later,-,hbytes,hoffset⟩ := hpoint
  have hrun := hwhole
  rw [← List.take_append_drop i ps,StepRun.along_append] at hrun
  have hlater : (e.processAll ps).wal.bytes = logBytes before ++ (logBytes (later ++
      (handed (e.after ps i) (ps.drop i)).map Popped.logged)) := by
    have hrest := processAll_handed (processAll_open hopen (ps.take i)) hrun.2
    have hbytes : (e.processAll (ps.take i)).wal.bytes = logBytes (before ++ later) := hbytes
    rw [hbytes,logBytes_append,List.append_assoc] at hrest
    rw [e.processAll_after ps i,logBytes_append]
    exact hrest
  have hdrop : crashed.bytes.drop walOffset.toNat = logBytes (later ++
      (handed (e.after ps i) (ps.drop i)).map Popped.logged) ++ tail := by
    rw [hcrashed,hlater,hoffset,List.append_assoc,List.drop_left]
  have hlen : walOffset.toNat ≤ crashed.bytes.length := by
    rw [hcrashed,hlater,hoffset]
    simp only [List.length_append]
    omega
  rw [recover_torn hwritten hlen hdrop htail] at hrecover
  obtain ⟨-,hwal⟩ := Prod.mk.inj hrecover
  rw [← Option.some.inj hwal,File.cut_bytes,hcrashed,hlater,hoffset]
  exact List.take_left' (List.length_append ..)

/-- Two lifetimes with fewer keys than the cache holds: neither engine hands a
key to the log twice. When the records are written whole, the log at the end is
what the first engine was handed followed by what the second was. -/
theorem keys_distinct_per_engine (hash hash' : IdempotencyKey → UInt64) (config : Config)
    (wal crashed wal' : File) (seed : LedgerState) (calls calls' : List Call)
    (snapshotFile : Option File) (io : RecoveryIo) (recovered : RecoveredState)
    (hrecover : recover (some crashed) snapshotFile io = (.ok recovered,some wal'))
    (hkeys : ((calls.flatMap Call.dequeued ++ calls'.flatMap Call.dequeued).map
      Popped.key).toFinset.card < config.idempotencyCapacity) :
    let e := seeded hash config wal seed
    let e' := seeded hash' config wal' recovered.state
    let first := e.handed (calls.flatMap Call.dequeued)
    let second := e'.handed (calls'.flatMap Call.dequeued)
    (first.map Popped.key).Nodup ∧ (second.map Popped.key).Nodup ∧
    ∀ log, wal.bytes = logBytes log →
      WholeRestart e (calls.flatMap Call.dequeued) crashed snapshotFile io →
      StepRun.Along LedgerEngine.process WritesWhole e' (calls'.flatMap Call.dequeued) →
      readAll (e'.runCalls calls').wal =
        log ++ first.map Popped.logged ++ second.map Popped.logged := by
  intro e e' first second
  have hfits (hash : IdempotencyKey → UInt64) (wal : File) (seed : LedgerState)
      (ps : List Popped) (hsub : ∀ p ∈ ps, p ∈ calls.flatMap Call.dequeued ++
        calls'.flatMap Call.dequeued) :
      (((seeded hash config wal seed).handed ps).map Popped.key).Nodup := by
    refine (handed_nodup ?_).1
    rw [seeded_keys,List.nil_append,seeded_capacity]
    have hle : (ps.map Popped.key).toFinset.card ≤ ((calls.flatMap Call.dequeued ++
        calls'.flatMap Call.dequeued).map Popped.key).toFinset.card := by
      apply Finset.card_le_card
      intro k hk
      obtain ⟨p,hp,rfl⟩ := List.mem_map.mp (List.mem_toFinset.mp hk)
      exact List.mem_toFinset.mpr (List.mem_map_of_mem (hsub p hp))
    omega
  refine ⟨hfits hash wal seed _ (fun p hp => List.mem_append_left _ hp),
    hfits hash' wal' recovered.state _ (fun p hp => List.mem_append_right _ hp),?_⟩
  intro log hlog hrestart hwhole'
  have hfirst := processAll_handed rfl hrestart.whole
  have hsecond := processAll_handed rfl hwhole'
  have hwal : e'.wal.bytes = wal.bytes ++ logBytes (first.map Popped.logged) :=
    (hrestart.recovered_wal rfl hrecover).trans hfirst
  apply readAll_log
  rw [runCalls_eq,hsecond,hwal,hlog,logBytes_append,logBytes_append]

theorem errorFree_writesWhole (h : StepRun.Along LedgerEngine.process ErrorFree e ps) :
    StepRun.Along LedgerEngine.process WritesWhole e ps :=
  h.imp (fun _ => True) (fun _ _ _ _ => trivial) (fun _ _ _ hio hv => (hio hv).1) trivial

def retriedPayment : Popped :=
  ⟨⟨{ samplePayment 2 with idempotencyKey := (samplePopped 1).key },2⟩,⟨18,.accepts 4096,true⟩⟩

theorem keys_distinct_per_engine_payments :
    readAll (restartedEngine.runCalls [⟨2,[nextPayment 2,retriedPayment]⟩,
        ⟨2,[nextPayment 2,retriedPayment]⟩]).wal =
      [(samplePopped 1).logged,(nextPayment 2).logged,retriedPayment.logged] := by
  obtain ⟨f,hf⟩ := exists_chartSnapshot 0
  have hio : StepRun.Along LedgerEngine.process ErrorFree sampleEngine
      [samplePopped 1,samplePopped 1] :=
    along_errorFree (n := 4096) rfl (by decide) (by decide) (by decide)
  have hio' : StepRun.Along LedgerEngine.process ErrorFree restartedEngine
      [nextPayment 2,retriedPayment,nextPayment 2,retriedPayment] :=
    along_errorFree (n := 4096) rfl (by decide) (by decide) (restartedEngine_room (by decide))
  have hfirst : sampleEngine.handed [samplePopped 1,samplePopped 1] = [samplePopped 1] := by
    simp only [handed]
    rw [if_pos (by decide),if_neg (by decide)]
  have hsecond : restartedEngine.handed
      [nextPayment 2,retriedPayment,nextPayment 2,retriedPayment] =
        [nextPayment 2,retriedPayment] := by
    simp only [handed]
    rw [if_pos (by decide),if_pos (by decide +kernel),if_neg (by decide +kernel),
      if_neg (by decide +kernel)]
  have hcrashed : paymentLog.bytes =
      (sampleEngine.processAll [samplePopped 1,samplePopped 1]).wal.bytes ++ [] := by
    rw [paymentLog_bytes,processAll_handed rfl (errorFree_writesWhole hio),hfirst]
    rfl
  have hrestart : WholeRestart sampleEngine [samplePopped 1,samplePopped 1] paymentLog (some f)
      .complete :=
    ⟨errorFree_writesWhole hio,⟨[],.nil,hcrashed⟩,⟨sampleChart,0,f,⟨0,[],[],rfl,rfl,rfl⟩,hf,rfl⟩,
      rfl⟩
  have hread := (keys_distinct_per_engine (fun _ => 0) (fun _ => 0) sampleConfig .empty paymentLog
    paymentLog sampleChart [⟨10,[samplePopped 1,samplePopped 1]⟩]
    [⟨2,[nextPayment 2,retriedPayment]⟩,⟨2,[nextPayment 2,retriedPayment]⟩] (some f) .complete _
    (recover_samplePayment hf) (by decide)).2.2 [] rfl hrestart (errorFree_writesWhole hio')
  calc readAll (restartedEngine.runCalls [⟨2,[nextPayment 2,retriedPayment]⟩,
        ⟨2,[nextPayment 2,retriedPayment]⟩]).wal
      = [] ++ (sampleEngine.handed [samplePopped 1,samplePopped 1]).map Popped.logged ++
          (restartedEngine.handed [nextPayment 2,retriedPayment,nextPayment 2,
            retriedPayment]).map Popped.logged := hread
    _ = _ := by
        rw [hfirst,hsecond]
        rfl

/-- The recovered engine has no memory of the key and commits it a second time. -/
theorem retry_after_restart : ∃ snapshotFile recovered,
    Snapshot.Written sampleChart 0 snapshotFile ∧
    recover (some (sampleEngine.runCalls [⟨10,[samplePopped 1]⟩]).wal) (some snapshotFile)
      .complete = (.ok recovered,some (sampleEngine.runCalls [⟨10,[samplePopped 1]⟩]).wal) ∧
    readAll ((seeded (fun _ => 0) sampleConfig
      (sampleEngine.runCalls [⟨10,[samplePopped 1]⟩]).wal recovered.state).runCalls
        [⟨10,[retriedPayment]⟩]).wal = [(samplePopped 1).logged,retriedPayment.logged] ∧
    (samplePopped 1).logged.idempotencyKey = retriedPayment.logged.idempotencyKey := by
  obtain ⟨f,hf⟩ := exists_chartSnapshot 0
  have hio : StepRun.Along LedgerEngine.process ErrorFree restartedEngine [retriedPayment] :=
    along_errorFree (n := 4096) rfl (by decide) (by decide) (restartedEngine_room (by decide))
  have hbytes := processAll_handed rfl (errorFree_writesWhole hio)
  have hhanded : restartedEngine.handed [retriedPayment] = [retriedPayment] := by
    rw [handed,if_pos (by decide)]
    rfl
  rw [hhanded,show restartedEngine.wal = paymentLog from rfl,paymentLog_bytes] at hbytes
  refine ⟨f,_,hf,recover_samplePayment hf,readAll_log ?_,rfl⟩
  rw [runCalls_eq]
  exact hbytes.trans (by simp)

end Restart

end LedgerEngine

end FinancialLedger
