import ZenZip.Runtime.Trigger

namespace ZenZip

open Lib

namespace Store

theorem gc_keeps {s : Store} {runBefore eventBefore : Option Time} {id : RunId} {row : RunRow}
    (h : s.runs.get? id = some row) (hs : row.status.terminal = false) :
    (s.gc runBefore eventBefore).1.runs.get? id = some row := by
  cases runBefore with
  | none => exact h
  | some before =>
      show (s.runs.delete (aged before)).get? id = some row
      rw [Table.get?_delete, h]
      simp [Option.filter, aged, hs]

theorem requeueDead_row {s : Store} {j : JobRow} (hj : j ∈ s.jobs.rows) (hs : j.status = .dead)
    (now : Time) :
    requeueRow now j ∈ (s.requeueDead [j.id] now).1.jobs.rows := by
  refine List.mem_map.mpr ⟨j, hj, ?_⟩
  simp [hs]

end Store

theorem RunStatus.terminal_of_executable {s : RunStatus} (h : s.executable = true) :
    s.terminal = false := by
  cases s <;> first | rfl | cases h

theorem RunStatus.not_parked_of_executable {s : RunStatus} (h : s.executable = true) :
    s.parked = false := by
  cases s <;> first | rfl | cases h

namespace Sys

variable {E : WorkflowEngine} {σ σ' : Sys} {l : Label} {r : RunId}

/-- The run is not suspended, yet nothing is left that would execute it. -/
structure Stranded (σ : Sys) (r : RunId) : Prop where
  row : ∃ row, σ.store.runs.get? r = some row ∧ row.status.executable = true
  jobs : ∀ j ∈ σ.store.jobs.rows, j.payload = .execution r → j.status = .dead
  idle : ∀ (k : Nat) (t : Worker), σ.pool[k]? = some t → t.live = true → t.kind.run? ≠ some r ∧
    t.owes r = false

/-- The step is no intervention of an operator in favour of the run: it requeues
none of its jobs, cancels nothing and purges nobody. -/
def leavesAlone (r : RunId) (σ : Sys) : Label → Bool
  | .call i (.ok _) => match σ.pendingCall i with
    | some (.requeueDead ids) =>
        σ.store.jobs.rows.all (fun j => j.payload ≠ .execution r || j.id ∉ ids)
    | some (.cancelRunTree _) | some (.purgeSubject _) => false
    | _ => true
  | _ => true

theorem Stranded.row_kept (hst : σ.Stranded r) (h : Move E σ l σ') (hb : σ.Base)
    (hok : σ.leavesAlone r l = true) : σ'.store.runs.get? r = σ.store.runs.get? r := by
  obtain ⟨row, hrow, hs⟩ := hst.row
  rw [hrow]
  obtain hsame | ⟨i, t, c, k, locked, ht, hp, rfl, hch⟩ := h.run_cases hrow
  · exact hsame
  · have hlive := Thread.live_of_call hp
    have hown : (Worker.track t).own ≠ some r := by
      rw [(Worker.track_own t).1]
      exact (hst.idle i t ht hlive).1
    have hmay := (hb.obeys i t ht hlive).mayCall hp
    have hid := Table.key_of_get? hrow
    have hpend := pendingCall_eq ht hp
    obtain ⟨row', hch, _⟩ | ⟨hdel, hn⟩ := hch
    · cases hch with
      | completed | sleeping | waitingEvent | waitingChild => exact absurd (hid ▸ hmay.1) hown
      | failed =>
          exact absurd (hid ▸ hmay.1) hown
      | wokenParent _ hw | released _ _ _ _ hw | timedOut _ _ _ hw =>
          rw [hw] at hs
          cases hs
      | cancelled => simp [leavesAlone, hpend] at hok
    · cases c with
      | gc runBefore eventBefore =>
          rw [h.eq_stored ht hp]
          exact Store.gc_keeps hrow (RunStatus.terminal_of_executable hs)
      | purgeSubject => simp [leavesAlone, hpend] at hok
      | _ => cases hdel

theorem Stranded.jobs_dead (hst : σ.Stranded r) (h : Move E σ l σ') (hb : σ.Base)
    (hok : σ.leavesAlone r l = true) {j : JobRow} (hj : j ∈ σ'.store.jobs.rows)
    (hp : j.payload = .execution r) :
    j.status = .dead := by
  obtain ⟨row, hrow, hs⟩ := hst.row
  obtain ⟨i, hi, hm⟩ | ⟨k, t, c, hc, _, _, hn⟩ := h.job_origin hj
  · have hpi : i.payload = .execution r := hm.frame.2.1.symm.trans hp
    have hdead := hst.jobs i hi hpi
    cases hm with
    | same => exact hdead
    | claimed workflow limit cfg _ _ hid =>
        have := (claimIds_row hi hid).2.1
        rw [hdead] at this
        cases this
    | renewed _ _ _ hrun =>
        rw [hdead] at hrun
        cases hrun
    | called m t c _ _ _ hc hch =>
        obtain ⟨_, hmay⟩ := hb.obeys_calling hc
        obtain ⟨kk, hpr⟩ := hc.prog
        obtain ⟨locked, rfl⟩ := hc.label
        cases hch with
        | same => exact hdead
        | dead => rfl
        | retried =>
            obtain ⟨_, _, cj, hcj, hid, _⟩ := hmay
            rw [(Worker.track_own t).2] at hcj
            have hpc := (hb.row m t cj i hc.thread hcj hi hid.symm).2
            have hrun : t.kind.run? = some r := by
              rw [Kind.run?_of_job? hcj, ← hpc, hpi]
              rfl
            exact absurd hrun (hst.idle m t hc.thread (Thread.live_of_call hpr)).1
        | expired _ _ he =>
            simp only [Store.expired, hdead, Bool.and_eq_true, decide_eq_true_eq] at he
            cases he.1
        | requeued _ ids hid =>
            simp only [leavesAlone, pendingCall_eq hc.thread hpr, List.all_eq_true, Bool.or_eq_true,
              decide_eq_true_eq] at hok
            obtain hne | hnot := hok i hi
            · exact absurd hpi hne
            · exact absurd hid hnot
  · obtain ⟨kk, hpr⟩ := hc.prog
    obtain ⟨hrun, howes⟩ := hst.idle k t hc.thread (Thread.live_of_call hpr)
    cases hb.exec_new hc hn hp with
    | pushed _ _ _ hpay =>
        obtain hr | ⟨hr, _⟩ := hpay
        · rw [Worker.owes_iff.mpr (.inl hr)] at howes
          cases howes
        · exact absurd hr hrun
    | released row' _ _ _ hrow' hw =>
        obtain rfl : row = row' := Option.some.inj (hrow.symm.trans hrow')
        rw [hw] at hs
        cases hs
    | started _ _ _ _ hge => exact absurd hge (Nat.not_le_of_lt (hb.fresh.runs r row hrow))

theorem Stranded.nobody (hst : σ.Stranded r) (h : Move E σ l σ') (hb : σ.Base) {k : Nat}
    {u : Worker}
    (hu : σ'.pool[k]? = some u) (hl : u.live = true) : u.kind.run? ≠ some r ∧ u.owes r = false := by
  obtain ⟨row, hrow, hs⟩ := hst.row
  cases h.thread hu with
  | stays _ ht => exact hst.idle k u ht hl
  | spawned _ _ he =>
      subst he
      exact ⟨nofun, rfl⟩
  | claimed workflow limit cfg cj _ _ hcj he =>
      subst he
      refine ⟨fun hrun => ?_, rfl⟩
      obtain ⟨cj', hcj', hpc⟩ := Kind.job?_of_run? hrun
      cases hcj'
      obtain ⟨j, hj, hid, _, _, hpay⟩ := mem_claimOf (List.mem_of_getElem? hcj)
      have hpend := (claimIds_row hj hid).2.1
      rw [hst.jobs j hj (hpay.symm.trans hpc)] at hpend
      cases hpend
  | crashed _ _ _ he =>
      subst he
      cases hl
  | stored t c kk locked ht hp he =>
      subst he
      obtain ⟨hrun, howes⟩ := hst.idle k t ht (Thread.live_of_call hp)
      refine ⟨hrun, ?_⟩
      rw [← Bool.not_eq_true, Worker.owes_iff]
      rintro (hr | ⟨_, ho⟩)
      · obtain hr | hin := Track.mem_owes_after hr
        · rw [Worker.owes_iff.mpr (.inl hr)] at howes
          cases howes
        · obtain ⟨_, _, _, hid⟩ | ⟨row', hrow', hpk, _⟩ := hin.perform
          · exact absurd hid (Nat.ne_of_lt (hb.fresh.runs r row hrow))
          · obtain rfl : row = row' := Option.some.inj (hrow.symm.trans hrow')
            rw [RunStatus.not_parked_of_executable hs] at hpk
            cases hpk
      · exact hrun ho
  | answered t op kk ch res ht hp hres he =>
      subst he
      obtain ⟨hrun, howes⟩ := hst.idle k t ht (Thread.live_of_call hp)
      refine ⟨hrun, ?_⟩
      rw [← Bool.not_eq_true, Worker.owes_iff]
      rintro (hr | ⟨_, ho⟩)
      · have hr' := Track.mem_owes_next hres hr
        rw [Worker.owes_iff.mpr (.inl hr')] at howes
        cases howes
      · exact hrun ho

theorem Stranded.move (hst : σ.Stranded r) (h : Move E σ l σ') (hb : σ.Base)
    (hok : σ.leavesAlone r l = true) :
    σ'.Stranded r where
  row := by
    rw [hst.row_kept h hb hok]
    exact hst.row
  jobs _ hj := hst.jobs_dead h hb hok hj
  idle _ _ hu hl := hst.nobody h hb hu hl

theorem Stranded.run (hst : σ.Stranded r) (hb : σ.Base) (h : Run (step E) (leavesAlone r) σ σ') :
    σ'.Stranded r ∧ σ'.store.runs.get? r = σ.store.runs.get? r := by
  have hinv :=
    h.invariant (fun τ => τ.Base ∧ τ.Stranded r ∧ τ.store.runs.get? r = σ.store.runs.get? r)
    ⟨hb, hst, rfl⟩ ?_
  · exact hinv.2
  rintro τ l τ' _ ⟨hb, hst, he⟩ hok hs
  have hm := step_move hs
  exact ⟨hm.base hb, hst.move hm hb hok, (hst.row_kept hm hb hok).trans he⟩

theorem dies_frame {j : JobRow} (h : Move E σ l σ') (hd : σ.dies l j = true)
    (hj : j ∈ σ.store.jobs.rows) :
    σ'.store.runs = σ.store.runs ∧ σ'.store.steps = σ.store.steps ∧
      ∃ j' ∈ σ'.store.jobs.rows, j'.id = j.id ∧ j'.status = .dead ∧ j'.payload = j.payload := by
  cases h with
  | stored i t c k locked ht hp =>
      simp only [dies, pendingCall_eq ht hp] at hd
      cases c with
      | failDead id error fence =>
          refine ⟨rfl, rfl, Store.deadRow error σ.clock j, ?_, rfl, rfl, rfl⟩
          exact List.mem_map.mpr ⟨j, hj, if_pos hd⟩
      | sweepExpired t' =>
          simp only [Bool.and_eq_true, decide_eq_true_eq] at hd
          refine ⟨rfl, rfl, Store.expiredRow t' j, ?_, Store.expiredRow_id t' j, ?_, ?_⟩
          · exact List.mem_map.mpr ⟨j, hj, if_pos hd.1⟩
          · simp [Store.expiredRow, hd.2]
          · simp [Store.expiredRow, hd.2]
      | _ => cases hd
  | answered i t op k ch res ht hp hres =>
      cases hres with
      | clock =>
          simp [dies, pendingCall, ht, hp] at hd
      | _ => cases hd
  | _ => cases hd

/-- Dead-lettering leaves runs and journals as they are and keeps the job for an
operator, and a run that has lost its last job waits for one. -/
theorem dead_lettered_run_kept {clock : Time} {j : JobRow}
    (h : Run (step E) (fun _ _ => true) (init .empty clock) σ)
    (hs : step E σ l = some σ') (hj : j ∈ σ.store.jobs.rows) (hp : j.payload = .execution r)
    (hd : σ.dies l j = true) :
    σ'.store.runs = σ.store.runs ∧ σ'.store.steps = σ.store.steps ∧
      (∃ j' ∈ σ'.store.jobs.rows, j'.id = j.id ∧ j'.payload = .execution r ∧ j'.status = .dead ∧
        ∀ now, Store.requeueRow now j' ∈ (σ'.store.requeueDead [j.id] now).1.jobs.rows) ∧
      (σ'.Stranded r → ∀ σ'', Run (step E) (leavesAlone r) σ' σ'' →
        σ''.Stranded r ∧ σ''.store.runs.get? r = σ'.store.runs.get? r) := by
  have hm := step_move hs
  obtain ⟨hruns, hsteps, j', hj', hid, hst, hpay⟩ := dies_frame hm hd hj
  refine ⟨hruns, hsteps, ⟨j', hj', hid, hpay.trans hp, hst, fun now => ?_⟩, fun hstr σ'' h' => ?_⟩
  · rw [← hid]
    exact Store.requeueDead_row hj' hst now
  · exact hstr.run (hm.base (base_of_run h)) h'

section Sample

def loseLease (i : Nat) : List Label :=
  [.crash i, .tick 60001, .spawn .sweepExpired, callOk (i + 1), callOk (i + 1)]

/-- The run is claimed three times, and every claim is lost. -/
def loseAll : List Label :=
  startOrder 0 ++ loseLease 1 ++ [.claim "order" 1] ++ loseLease 3 ++ [.claim "order" 1] ++
    [.crash 5, .tick 60001, .spawn .sweepExpired, callOk 6]

def jobsOf (σ : Sys) (r : RunId) : List JobStatus :=
  (σ.store.jobs.select (fun j => j.payload = .execution r)).map (·.status)

theorem stranded_iff : σ.Stranded r ↔ (σ.statusOf r).any (·.executable) = true ∧
    σ.store.jobs.rows.all (fun j => j.payload ≠ .execution r || j.status = .dead) = true ∧
    σ.pool.all (fun t : Worker => !t.live || t.kind.run? ≠ some r && !t.owes r) = true := by
  constructor
  · rintro ⟨⟨row, hrow, hs⟩, hj, hi⟩
    refine ⟨by simp [statusOf, hrow, hs], ?_, ?_⟩
    · simp only [List.all_eq_true, Bool.or_eq_true, decide_eq_true_eq]
      intro j hjj
      by_cases hp : j.payload = .execution r
      · exact .inr (hj j hjj hp)
      · exact .inl hp
    · rw [List.all_eq_true]
      intro t ht
      obtain ⟨k, hk⟩ := List.mem_iff_getElem?.mp ht
      cases hl : t.live with
      | false => rfl
      | true =>
          obtain ⟨hrun, howes⟩ := hi k t hk hl
          simp [hrun, howes]
  · rintro ⟨hst, hj, hi⟩
    refine ⟨?_, fun j hjj hp => ?_, fun k t ht hl => ?_⟩
    · obtain ⟨s, hs, he⟩ := (Option.any_eq_true _ _).mp hst
      obtain ⟨row, hrow, rfl⟩ := Option.map_eq_some_iff.mp hs
      exact ⟨row, hrow, he⟩
    · simpa [hp] using List.all_eq_true.mp hj j hjj
    · simpa [hl] using List.all_eq_true.mp hi t (List.mem_of_getElem? ht)

theorem dead_lettered_run_kept_swept : ∃ σ σ',
    Run (step sampleEngine) (fun _ _ => true) (init .empty 0) σ ∧
    step sampleEngine σ (callOk 6) = some σ' ∧ σ'.Stranded 0 ∧ σ'.store.runs = σ.store.runs ∧
    ∀ σ'', Run (step sampleEngine) (leavesAlone 0) σ' σ'' → σ''.Stranded 0 := by
  obtain ⟨σ, h, hp⟩ :=
    Run.exists_of_replay (step sampleEngine) (fun _ _ => true) (init .empty 0) loseAll
    (fun σ => (σ.store.jobs.rows.any (fun j => j.payload = .execution 0 && σ.dies (callOk 6) j)) &&
      (step sampleEngine σ (callOk 6)).any (fun σ' => (σ'.statusOf 0).any (·.executable) &&
        (σ'.store.jobs.rows.all (fun j => j.payload ≠ .execution 0 || j.status = .dead) &&
        σ'.pool.all (fun t : Worker => !t.live || t.kind.run? ≠ some 0 && !t.owes 0))))
          (by decide +kernel)
  obtain ⟨hjobs, hstep⟩ := Bool.and_eq_true_iff.mp hp
  obtain ⟨j, hj, hjd⟩ := List.any_eq_true.mp hjobs
  obtain ⟨hpay, hd⟩ := Bool.and_eq_true_iff.mp hjd
  obtain ⟨σ', hs, hstr⟩ := (Option.any_eq_true _ _).mp hstep
  simp only [Bool.and_eq_true] at hstr
  have hstr := stranded_iff.mpr hstr
  obtain ⟨hruns, _, _, hlater⟩ := dead_lettered_run_kept h hs hj (of_decide_eq_true hpay) hd
  exact ⟨σ, σ', h, hs, hstr, hruns, fun σ'' h' => (hlater hstr σ'' h').1⟩

/-- Three lost leases leave a runnable run with a dead job and nobody to run it. -/
theorem dead_lettered_run_strands : ∃ σ,
    Run (step sampleEngine) (fun _ _ => true) (init .empty 0) σ ∧
    σ.statusOf 0 = some .runnable ∧ σ.jobsOf 0 = [.dead] ∧ σ.Stranded 0 := by
  obtain ⟨σ, h, hp⟩ := Run.exists_of_replay (step sampleEngine) (fun _ _ => true) (init .empty 0)
    (loseAll ++ [callOk 6])
    (fun σ => decide (σ.statusOf 0 = some .runnable ∧ σ.jobsOf 0 = [.dead]) &&
      ((σ.statusOf 0).any (·.executable) &&
      (σ.store.jobs.rows.all (fun j => j.payload ≠ .execution 0 || j.status = .dead) &&
      σ.pool.all (fun t : Worker => !t.live || t.kind.run? ≠ some 0 && !t.owes 0))))
        (by decide +kernel)
  obtain ⟨hst, hstr⟩ := Bool.and_eq_true_iff.mp hp
  obtain ⟨hst, hjobs⟩ := of_decide_eq_true hst
  simp only [Bool.and_eq_true] at hstr
  exact ⟨σ, h, hst, hjobs, stranded_iff.mpr hstr⟩

end Sample

end Sys

end ZenZip
