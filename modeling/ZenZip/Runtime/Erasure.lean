import ZenZip.Engine.Journal
import ZenZip.Runtime.Lineage
import ZenZip.Runtime.Terminal

namespace ZenZip

open Lib

namespace Store

def hasRun (s : Store) (id : RunId) : Bool := (s.runs.get? id).isSome

def Anchored (s : Store) : Prop := ∀ st ∈ s.steps.rows, s.hasRun st.runId = true

variable {s s' : Store}

theorem anchored_iff : s.Anchored ↔ ∀ k e, s.steps.get? k = some e → s.hasRun k.1 = true := by
  constructor
  · intro h k e he
    obtain ⟨hm, hk⟩ := Table.get?_eq_some_iff.mp he
    rw [← hk]
    exact h e hm
  · intro h st hst
    exact h st.key st (Table.get?_key hst)

theorem anchored_empty : Store.empty.Anchored := fun st h => by cases h

theorem Anchored.of_steps (h : s.Anchored) (hs : s'.steps = s.steps)
    (hr : ∀ id, s.hasRun id = true → s'.hasRun id = true) : s'.Anchored := by
  intro st hst
  rw [hs] at hst
  exact hr _ (h st hst)

theorem Anchored.of_write (h : s.Anchored) (k₀ : RunId × StepId) (hk : s'.hasRun k₀.1 = true)
    (hs : ∀ k, k ≠ k₀ → s'.steps.get? k = s.steps.get? k) (hr : s'.runs = s.runs) :
    s'.Anchored := by
  refine anchored_iff.mpr (fun k e he => ?_)
  by_cases hkk : k = k₀
  · rw [hkk]
    exact hk
  · rw [hs k hkk] at he
    have hrun := anchored_iff.mp h k e he
    rwa [hasRun, hr]

theorem Anchored.recordStep (h : s.Anchored) {r : RunId} (hr : s.hasRun r = true) (st : StepId)
    (kind : StepKind)
    (result : Option Json) (now : Time) : (s.recordStep r st kind result now).Anchored := by
  refine h.of_write (r, st) hr (fun k hk => ?_) rfl
  rw [get?_recordStep, if_neg hk]

theorem Anchored.delete (h : s.Anchored) (p : RunRow → Bool) :
    ({ s with
        steps := s.steps.delete (fun st => (s.runs.get? st.runId).any p),
        runs := s.runs.delete p } : Store).Anchored := by
  intro st hst
  obtain ⟨hm, hp⟩ := List.mem_filter.mp hst
  obtain ⟨r, hr⟩ := Option.isSome_iff_exists.mp (h st hm)
  have hkeep : p r = false := by simpa [hr] using hp
  show ((s.runs.delete p).get? st.runId).isSome = true
  rw [Table.get?_delete, hr, Option.filter_some, hkeep]
  rfl

end Store

namespace Call

def journalOf : Call → Option RunId
  | .recordStep id _ _ _ | .stepFailedAttempt id _ _ => some id
  | _ => none

variable {s : Store}

theorem perform_hasRun {c : Call} (hc : c.deletesRuns = false) (now : Time) (locked : List RunId)
    {id : RunId}
    (h : s.hasRun id = true) : (c.perform s now locked).1.hasRun id = true := by
  obtain ⟨r, hr⟩ := Option.isSome_iff_exists.mp h
  obtain hs | ⟨r', _, hs⟩ | ⟨hd, _⟩ := perform_run_cases c now locked hr
  · exact Option.isSome_iff_exists.mpr ⟨r, hs⟩
  · exact Option.isSome_iff_exists.mpr ⟨r', hs⟩
  · rw [hc] at hd
    cases hd

theorem perform_anchored (c : Call) (now : Time) (locked : List RunId) (h : s.Anchored)
    (hc : ∀ r, c.journalOf = some r → s.hasRun r = true) : (c.perform s now locked).1.Anchored := by
  cases c with
  | recordStep r st kind result => exact h.recordStep (hc r rfl) st kind result now
  | stepFailedAttempt r st error =>
      refine h.of_write (r, st) (hc r rfl) (fun k hk => ?_) rfl
      show (s.stepFailedAttempt r st error now).1.steps.get? k = _
      rw [Store.get?_stepFailedAttempt, if_neg hk]
  | emitEvent name payload targets =>
      refine Store.anchored_iff.mpr (fun k e he => ?_)
      refine perform_hasRun (c := .emitEvent name payload targets) rfl now locked ?_
      have he' : (s.emitInTx name payload targets locked now).1.steps.get? k = some e := he
      rw [emit_steps] at he'
      split at he'
      · next hm =>
          obtain ⟨w, hw, rfl⟩ := List.mem_map.mp hm
          exact Option.isSome_iff_exists.mpr ⟨w, Table.get?_key (Table.mem_select.mp hw).1⟩
      · exact Store.anchored_iff.mp h k e he'
  | gc runBefore eventBefore =>
      cases runBefore with
      | none => exact h
      | some before => exact h.delete (Store.aged before)
  | purgeSubject subject => exact h.delete (fun r => decide (r.subject = some subject))
  | push | ack | failRetry | failDead | sweepExpired | requeueDead | purgeDead | createRun
  | getRun | loadJournal
  | runCompleted | runFailed | runSleeping | runWaitingEvent | runWaitingChild | wakeParent
  | sweepEventTimeouts
  | cancelRunTree =>
      exact h.of_steps (perform_steps rfl now locked) (fun id => perform_hasRun rfl now locked)

end Call

namespace Label

def thread? : Label → Option Nat
  | .call i _ | .crash i | .renew i | .record i _ _ => some i
  | .tick _ | .spawn _ | .claim _ _ => none

end Label

namespace Sys

variable {E : WorkflowEngine} {σ σ' : Sys} {l : Label}

def attemptPresent (σ : Sys) (i : Nat) : Bool :=
  ((σ.pool[i]?).bind (fun t => t.kind.run?)).all σ.store.hasRun

/-- A journal entry is written for a run that is there, and a job is pushed for one. An
attempt of a run that is gone writes no journal entry, and starts no child. -/
def writesPresent (σ : Sys) : Label → Bool
  | .call i (.ok _) => match σ.pendingCall i with
    | some (.recordStep r _ _ _) | some (.stepFailedAttempt r _ _) =>
        σ.store.hasRun r && σ.attemptPresent i
    | some (.createRun run) =>
        (σ.store.runOfKey run.workflow run.idempotencyKey).isSome || σ.attemptPresent i
    | some (.push jobs) => jobs.all (fun job => job.run?.all σ.store.hasRun)
    | _ => true
  | .record i _ _ => σ.attemptPresent i
  | _ => true

variable {i : Nat} {t : Worker} {c : Call} {id : RunId}

theorem present_of_attempt (h : σ.attemptPresent i = true) (ht : σ.pool[i]? = some t)
    (hid : t.kind.run? = some id) :
    σ.store.hasRun id = true := by
  simpa [attemptPresent, ht, hid] using h

theorem writesPresent_journal (hok : σ.writesPresent l = true) (hc : σ.Calling l i t c) {r : RunId}
    (hr : c.journalOf = some r) : σ.store.hasRun r = true ∧ σ.attemptPresent i = true := by
  obtain ⟨k, hp⟩ := hc.prog
  obtain ⟨locked, rfl⟩ := hc.label
  cases c with
  | recordStep | stepFailedAttempt =>
      cases hr
      simpa only [writesPresent, pendingCall_eq hc.thread hp, Bool.and_eq_true] using hok
  | _ => cases hr

theorem writesPresent_child {run : NewRun} (hok : σ.writesPresent l = true)
    (hc : σ.Calling l i t (.createRun run)) :
    (σ.store.runOfKey run.workflow run.idempotencyKey).isSome = true ∨
    σ.attemptPresent i = true := by
  obtain ⟨k, hp⟩ := hc.prog
  obtain ⟨locked, rfl⟩ := hc.label
  simpa only [writesPresent, pendingCall_eq hc.thread hp, Bool.or_eq_true] using hok

theorem writesPresent_push {jobs : List PushJob} (hok : σ.writesPresent l = true)
    (hc : σ.Calling l i t (.push jobs))
    {job : PushJob} (hjob : job ∈ jobs) {r : RunId} (hr : job.run? = some r) :
    σ.store.hasRun r = true := by
  obtain ⟨k, hp⟩ := hc.prog
  obtain ⟨locked, rfl⟩ := hc.label
  simp only [writesPresent, pendingCall_eq hc.thread hp, List.all_eq_true] at hok
  exact (Option.all_eq_true _ _).mp (hok job hjob) r hr

theorem Move.anchored (h : Move E σ l σ') (hok : σ.writesPresent l = true) (hI : σ.store.Anchored) :
    σ'.store.Anchored := by
  cases h with
  | ticked | spawned | answered | crashed => exact hI
  | claimed | renewed => exact hI.of_steps rfl (fun _ h => h)
  | stored i t c k locked ht hp =>
      have hc : σ.Calling (.call i (.ok locked)) i t c := ⟨ht, ⟨k, hp⟩, locked, rfl⟩
      exact c.perform_anchored σ.clock locked hI (fun r hr => (writesPresent_journal hok hc hr).1)
  | recorded i t r stepId result ht hk =>
      exact hI.recordStep (present_of_attempt hok ht hk) stepId .run result σ.clock

theorem Move.run_new (h : Move E σ l σ') (hb : σ.Base) (hok : σ.writesPresent l = true) {q : RunId}
    {row : RunRow}
    (hn : σ.store.runs.get? q = none) (hq : σ'.store.runs.get? q = some row) {p : RunId}
    (hp : row.parentRunId = some p) : σ.store.hasRun p = true := by
  obtain ⟨r, hr, _⟩ | ⟨_, i, t, ⟨run, hc, rfl, rfl⟩ | ⟨_, _, _, _, _, _, rfl⟩⟩ :=
    h.run_origin hb.fresh hq
  · rw [hn] at hr
    cases hr
  · have hp : run.parentRunId = some p := hp
    obtain ⟨_, hnone, _⟩ | ⟨r, s, hown, hr, _⟩ := (hb.obeys_calling hc).2
    · rw [hnone] at hp
      cases hp
    · rw [hr] at hp
      cases hp
      rw [(Worker.track_own t).1] at hown
      obtain hkey | hpresent := writesPresent_child hok hc
      · obtain ⟨k, hprog⟩ := hc.prog
        obtain ⟨locked, rfl⟩ := hc.label
        obtain ⟨_, _, he⟩ | ⟨hnone, _⟩ := σ.store.createRun_cases run σ.clock
        · rw [h.eq_stored hc.thread hprog] at hq
          have hq' : (σ.store.createRun run σ.clock).1.runs.get? σ.store.nextId = _ := hq
          rw [he, hn] at hq'
          cases hq'
        · rw [hnone] at hkey
          cases hkey
      · exact present_of_attempt hpresent hc.thread hown
  · cases hp

/-- What the step of an attempt leaves behind of the attempt's data: nothing. The
journals, the events and the payloads of the jobs stay as they are, no run is started
or given anything, and a new job is one of a run that is there. -/
structure Silent (σ σ' : Sys) : Prop where
  steps : σ'.store.steps = σ.store.steps
  events : σ'.store.events = σ.store.events
  runs : ∀ q row', σ'.store.runs.get? q = some row' → ∃ row, σ.store.runs.get? q = some row ∧
    (row' = row ∨ row' = Store.wokenParentRow σ.clock row)
  jobs : ∀ j ∈ σ'.store.jobs.rows,
    (∃ j₀ ∈ σ.store.jobs.rows, j₀.id = j.id ∧ j₀.payload = j.payload) ∨
    ∃ r, j.payload = .execution r ∧ σ.store.hasRun r = true

theorem Silent.of_jobs {σ' : Sys} (hruns : σ'.store.runs = σ.store.runs)
    (hsteps : σ'.store.steps = σ.store.steps)
    (hevents : σ'.store.events = σ.store.events)
    (hjobs : ∀ j ∈ σ'.store.jobs.rows, ∃ j₀ ∈ σ.store.jobs.rows, j₀.id = j.id ∧
    j₀.payload = j.payload) :
    Silent σ σ' where
  steps := hsteps
  events := hevents
  runs q row' hq := ⟨row', by rwa [← hruns], .inl rfl⟩
  jobs j hj := .inl (hjobs j hj)

/-- The attempt of a run that is gone makes a call. -/
structure GoneCall (σ : Sys) (i : Nat) (t : Worker) (id : RunId) (c : Call) (locked : List RunId) :
    Prop where
  base : σ.Base
  run : t.kind.run? = some id
  gone : σ.store.hasRun id = false
  calling : σ.Calling (.call i (.ok locked)) i t c
  ok : σ.writesPresent (.call i (.ok locked)) = true

namespace GoneCall

variable {locked : List RunId}

theorem may (h : σ.GoneCall i t id c locked) : t.track.mayCall c :=
  (h.base.obeys_calling h.calling).2

theorem job (h : σ.GoneCall i t id c locked) : t.track.job ≠ none := by
  obtain ⟨cj, hcj, _⟩ := Kind.job?_of_run? h.run
  rw [(Worker.track_own t).2, hcj]
  nofun

theorem absent (h : σ.GoneCall i t id c locked) : σ.attemptPresent i ≠ true := by
  intro hpresent
  have hrun := present_of_attempt hpresent h.calling.thread h.run
  rw [h.gone] at hrun
  cases hrun

theorem steps (h : σ.GoneCall i t id c locked) :
    (c.perform σ.store σ.clock locked).1.steps = σ.store.steps := by
  cases hw : c.writesSteps with
  | false => exact c.perform_steps hw σ.clock locked
  | true =>
      cases c with
      | recordStep | stepFailedAttempt =>
          exact absurd (writesPresent_journal h.ok h.calling rfl).2 h.absent
      | emitEvent | gc | purgeSubject => exact absurd h.may h.job
      | _ => cases hw

theorem events (h : σ.GoneCall i t id c locked) :
    (c.perform σ.store σ.clock locked).1.events = σ.store.events := by
  cases c with
  | emitEvent | gc | cancelRunTree => exact absurd h.may h.job
  | push jobs => exact (σ.store.push_runs jobs σ.clock).2.2
  | createRun run =>
      obtain ⟨_, _, he⟩ | ⟨_, he⟩ := σ.store.createRun_cases run σ.clock
      · exact congrArg (fun x => x.1.events) he
      · exact congrArg (fun x => x.1.events) he
  | _ => rfl

theorem runs (h : σ.GoneCall i t id c locked) {q : RunId} {row' : RunRow}
    (hq : (c.perform σ.store σ.clock locked).1.runs.get? q = some row') :
    ∃ row, σ.store.runs.get? q = some row ∧
    (row' = row ∨ row' = Store.wokenParentRow σ.clock row) := by
  have hmay := h.may
  cases hrow : σ.store.runs.get? q with
  | none =>
      obtain hn | ⟨run, rfl, _, he, _⟩ | ⟨_, _, _, rfl, _⟩ :=
        Call.perform_run_of_none c σ.clock locked h.base.fresh.jobs hrow
      · rw [hn] at hq
        cases hq
      · obtain hkey | hpresent := writesPresent_child h.ok h.calling
        · obtain ⟨_, _, heq⟩ | ⟨hnone, _⟩ := σ.store.createRun_cases run σ.clock
          · rw [heq] at he
            exact absurd (congrArg (fun x => x.2.2) he) Bool.false_ne_true
          · rw [hnone] at hkey
            cases hkey
        · exact absurd hpresent h.absent
      · exact absurd hmay h.job
  | some row =>
      refine ⟨row, rfl, ?_⟩
      -- the run of the attempt has no row to change
      have hown (he : t.track.own = some row.id) : False := by
        rw [(Worker.track_own t).1, h.run] at he
        obtain rfl := Option.some.inj he
        have hgone := h.gone
        rw [Store.hasRun, Table.key_of_get? hrow, hrow] at hgone
        cases hgone
      obtain hs | ⟨row₁, hch, hrow₁⟩ | ⟨hdel, _⟩ := Call.perform_run_cases c σ.clock locked hrow
      · exact .inl (Option.some.inj (hq.symm.trans hs))
      · obtain rfl : row' = row₁ := Option.some.inj (hq.symm.trans hrow₁)
        cases hch with
        | completed | failed | sleeping | waitingEvent | waitingChild => exact (hown hmay.1).elim
        | wokenParent => exact .inr rfl
        | released | timedOut | cancelled => exact absurd hmay h.job
      · cases c with
        | gc | purgeSubject => exact absurd hmay h.job
        | _ => cases hdel

theorem jobs (h : σ.GoneCall i t id c locked) {j : JobRow}
    (hj : j ∈ (c.perform σ.store σ.clock locked).1.jobs.rows) :
    (∃ j₀ ∈ σ.store.jobs.rows, j₀.id = j.id ∧ j₀.payload = j.payload) ∨
      ∃ r, j.payload = .execution r ∧ σ.store.hasRun r = true := by
  obtain ⟨j₀, hj₀, hch⟩ | ⟨_, _, hnew⟩ := Call.perform_job_origin c hj
  · exact .inl ⟨j₀, hj₀, hch.frame.1.symm, hch.frame.2.1.symm⟩
  · right
    have hmay := h.may
    cases hnew with
    | pushed _ job jobs hjob hpushed =>
        obtain hnone | hexec := hmay.1
        · exact absurd hnone h.job
        · obtain ⟨r, hr⟩ := Option.ne_none_iff_exists'.mp (hexec job hjob)
          refine ⟨r, ?_, writesPresent_push h.ok h.calling hjob hr⟩
          rw [hpushed.payload]
          simp only [PushJob.run?, Payload.run?] at hr
          cases hp : job.payload with
          | execution r' =>
              rw [hp] at hr
              cases hr
              rfl
          | data _ =>
              rw [hp] at hr
              cases hr
    | released | started => exact absurd hmay h.job

end GoneCall

theorem Move.silent (h : Move E σ l σ') (hb : σ.Base) (hok : σ.writesPresent l = true)
    (hl : l.thread? = some i)
    (ht : σ.pool[i]? = some t) (hid : t.kind.run? = some id) (hgone : σ.store.hasRun id = false) :
    Silent σ σ' := by
  have hsame {τ : Sys} (hs : τ.store = σ.store) : Silent σ τ := by
    refine .of_jobs (by rw [hs]) (by rw [hs]) (by rw [hs]) (fun j hj => ⟨j, ?_, rfl, rfl⟩)
    rwa [← hs]
  cases h with
  | ticked | spawned | claimed => cases hl
  | answered | crashed =>
      refine hsame ?_
      rfl
  | renewed _ _ workflow job leaseMs =>
      refine .of_jobs rfl rfl rfl (fun j hj => ?_)
      obtain ⟨j₀, hj₀, rfl⟩ := List.mem_map.mp hj
      refine ⟨j₀, hj₀, ?_⟩
      split <;> exact ⟨rfl, rfl⟩
  | stored i' t' c k locked ht' hp =>
      cases hl
      obtain rfl : t' = t := Option.some.inj (ht'.symm.trans ht)
      have hc : σ.GoneCall i t' id c locked := ⟨hb, hid, hgone, ⟨ht, ⟨k, hp⟩, locked, rfl⟩, hok⟩
      exact ⟨hc.steps, hc.events, fun q row' hq => hc.runs hq, fun j hj => hc.jobs hj⟩
  | recorded i' t' r stepId result ht' hk =>
      cases hl
      have hpresent := present_of_attempt hok ht hid
      rw [hgone] at hpresent
      cases hpresent

/-- Nothing of a run that is gone has come to be since `σ`: no row of its own, no
journal entry, no job and no child. -/
structure Forgets (σ σ' : Sys) (id : RunId) : Prop where
  run : σ'.store.hasRun id = false
  steps : ∀ st ∈ σ'.store.steps.rows, st.runId ≠ id
  jobs : ∀ j ∈ σ'.store.jobs.rows, j.payload = .execution id →
    ∃ j₀ ∈ σ.store.jobs.rows, j₀.id = j.id
  children : ∀ q row, σ'.store.runs.get? q = some row → row.parentRunId = some id →
    (σ.store.runs.get? q).isSome

theorem Move.jobs_of_gone (h : Move E σ l σ') (hb : σ.Base) (hok : σ.writesPresent l = true)
    (hlt : id < σ.store.nextId) (hgone : σ.store.hasRun id = false) {j : JobRow}
    (hj : j ∈ σ'.store.jobs.rows)
    (hp : j.payload = .execution id) :
    ∃ j₀ ∈ σ.store.jobs.rows, j₀.id = j.id ∧ j₀.payload = .execution id := by
  obtain ⟨j₀, hj₀, hm⟩ | ⟨i, t, c, hc, _, _, hnew⟩ := h.job_origin hj
  · exact ⟨j₀, hj₀, hm.frame.1.symm, hm.frame.2.1.symm.trans hp⟩
  · cases hb.exec_new hc hnew hp with
    | pushed workflow delayMs =>
        have hpresent :=
          writesPresent_push hok hc List.mem_cons_self
            (PushJob.run?_workflowExecutionJob workflow id delayMs)
        rw [hgone] at hpresent
        cases hpresent
    | released _ _ _ _ hrow =>
        rw [Store.hasRun, hrow] at hgone
        cases hgone
    | started _ _ _ _ hge => exact absurd hge (Nat.not_le_of_lt hlt)

/-- What every state since `σ` keeps, in which the run was gone. -/
structure Erased (σ τ : Sys) (id : RunId) : Prop where
  base : τ.Base
  drawn : id < τ.store.nextId
  gone : τ.store.runs.get? id = none
  jobs : ∀ j ∈ τ.store.jobs.rows, j.payload = .execution id →
    ∃ j₀ ∈ σ.store.jobs.rows, j₀.id = j.id
  children : ∀ q row, τ.store.runs.get? q = some row → row.parentRunId = some id →
    (σ.store.runs.get? q).isSome

namespace Erased

variable {τ : Sys}

theorem hasRun (h : Erased σ τ id) : τ.store.hasRun id = false := by
  rw [Store.hasRun, h.gone]
  rfl

theorem init (hb : σ.Base) (hlt : id < σ.store.nextId) (hgone : σ.store.hasRun id = false) :
    Erased σ σ id where
  base := hb
  drawn := hlt
  gone := Option.isNone_iff_eq_none.mp (Option.isSome_eq_false_iff.mp hgone)
  jobs j hj _ := ⟨j, hj, rfl⟩
  children q row hq _ := by
    rw [hq]
    rfl

theorem step {l : Label} {τ' : Sys} (h : Erased σ τ id) (hm : Move E τ l τ')
    (hok : τ.writesPresent l = true) : Erased σ τ' id where
  base := hm.base h.base
  drawn := Nat.lt_of_lt_of_le h.drawn hm.nextId_le
  gone := hm.deleted h.base.fresh h.drawn h.gone
  jobs j hj hp := by
    obtain ⟨j₀, hj₀, hid, hp₀⟩ := hm.jobs_of_gone h.base hok h.drawn h.hasRun hj hp
    obtain ⟨j₁, hj₁, hid₁⟩ := h.jobs j₀ hj₀ hp₀
    exact ⟨j₁, hj₁, hid₁.trans hid⟩
  children q row hq hp := by
    cases hq₀ : τ.store.runs.get? q with
    | some row₀ =>
        refine h.children q row₀ hq₀ ?_
        obtain ⟨r, hr, rfl | ⟨_, _, _, _, hch⟩⟩ | ⟨hnone, _⟩ := hm.run_origin h.base.fresh hq
        · rw [← hp, Option.some.inj (hq₀.symm.trans hr)]
        · rw [← hp, hch.parent_eq.1, Option.some.inj (hq₀.symm.trans hr)]
        · rw [hnone] at hq₀
          cases hq₀
    | none =>
        have hpresent := hm.run_new h.base hok hq₀ hq hp
        rw [h.hasRun] at hpresent
        cases hpresent

theorem forgets (h : Erased σ τ id) (hI : τ.store.Anchored) : Forgets σ τ id where
  run := h.hasRun
  steps st hst he := by
    have hpresent := hI st hst
    rw [he, h.hasRun] at hpresent
    cases hpresent
  jobs := h.jobs
  children := h.children

end Erased

theorem forgets_of_run (hb : σ.Base) (hlt : id < σ.store.nextId) (hgone : σ.store.hasRun id = false)
    (hI : σ'.store.Anchored) (h : Run (step E) writesPresent σ σ') : Forgets σ σ' id := by
  have herased : Erased σ σ' id := by
    apply h.invariant (fun τ => Erased σ τ id) (.init hb hlt hgone)
    intro τ l τ' _ hτ hok hs
    exact hτ.step (step_move hs) hok
  exact herased.forgets hI

/-- Where journal entries, jobs and children are written of runs that are there, every
journal entry is of such a run. A run that has been deleted never returns: no entry, job
or child of it does, and its attempts still in flight put nothing into the store. -/
theorem erasure_final {clock : Time} (h : Run (step E) writesPresent (init .empty clock) σ) :
    σ.store.Anchored ∧ ∀ id σ₁ σ', σ.store.hasRun id = true → Run (step E) writesPresent σ σ₁ →
      σ₁.store.hasRun id = false → Run (step E) writesPresent σ₁ σ' →
      Forgets σ₁ σ' id ∧
      ∀ i t l σ'', σ'.pool[i]? = some t → t.kind.run? = some id → l.thread? = some i →
        σ'.writesPresent l = true → step E σ' l = some σ'' → Silent σ' σ'' := by
  have hanchored {τ τ' : Sys} (hr : Run (step E) writesPresent τ τ') (hI : τ.store.Anchored) :
    τ'.store.Anchored :=
    hr.invariant (fun τ => τ.store.Anchored) hI
      (fun _ _ _ _ hI hok hs => (step_move hs).anchored hok hI)
  have hσ := hanchored h Store.anchored_empty
  refine ⟨hσ, fun id σ₁ σ' hrow h₁ hgone h' => ?_⟩
  obtain ⟨r, hr⟩ := Option.isSome_iff_exists.mp hrow
  have hb := (base_of_run h).of_run h₁
  have hlt : id < σ₁.store.nextId := by
    refine h₁.invariant (fun τ => id < τ.store.nextId) ((fresh_of_run h).runs id r hr) ?_
    exact fun _ _ _ _ hlt _ hs => Nat.lt_of_lt_of_le hlt (step_move hs).nextId_le
  have hforgets := forgets_of_run hb hlt hgone (hanchored h' (hanchored h₁ hσ)) h'
  refine ⟨hforgets, fun i t l σ'' ht hid hl hok hs => ?_⟩
  exact (step_move hs).silent (hb.of_run h') hok hl ht hid hforgets.run

section Sample

/-- A run of a subject, whose attempt has read the journal when it is purged. -/
def startTagged : List Label :=
  [.spawn (.trigger "order" .null none 0 (some "u")), callOk 0, callOk 0, .claim "order" 1,
    callOk 1, callOk 1]

def purgeTagged : List Label := [.spawn (.purgeSubject "u"), callOk 2]

theorem erasure_final_attempt : ∃ σ σ', Run (step sampleEngine) writesPresent (init .empty 0) σ ∧
    Run (step sampleEngine) writesPresent σ σ' ∧ σ.store.hasRun 0 = true ∧ σ'.pool.length = 3 ∧
    σ'.store.hasRun 0 = false ∧ (∀ st ∈ σ'.store.steps.rows, st.runId ≠ 0) ∧
    ∀ q row, σ'.store.runs.get? q = some row → row.parentRunId = some 0 → False := by
  obtain ⟨σ, σ₁, h, h₁, hp⟩ :=
    Run.exists_of_replay₂ (step sampleEngine) writesPresent (init .empty 0)
    startTagged purgeTagged
    (fun σ σ₁ =>
      decide (σ.store.hasRun 0 = true ∧ σ₁.store.hasRun 0 = false ∧ σ₁.store.runs.rows = []) &&
      (replay (step sampleEngine) writesPresent
        σ₁ [.call 1 (.outcome (.ok (.completed none))), callOk 1]).any
        (fun σ' => σ'.pool.length = 3)) (by decide +kernel)
  rw [Bool.and_eq_true] at hp
  obtain ⟨hrow, hgone, hempty⟩ := of_decide_eq_true hp.1
  obtain ⟨σ', h', hlen⟩ := Run.exists_of_replay _ _ _ _ _ hp.2
  obtain ⟨hforgets, _⟩ := (erasure_final h).2 0 σ₁ σ' hrow h₁ hgone h'
  refine ⟨σ, σ', h, h₁.trans h', hrow, of_decide_eq_true hlen, hforgets.run, hforgets.steps,
    fun q row hq hp => ?_⟩
  obtain ⟨row₁, hrow₁⟩ := Option.isSome_iff_exists.mp (hforgets.children q row hq hp)
  have hmem := Table.mem_of_get? hrow₁
  rw [hempty] at hmem
  cases hmem

/-- The attempt records a step after the purge. -/
theorem purged_run_gets_step : ∃ σ σ', Run (step sampleEngine) (fun _ _ => true) (init .empty 0) σ ∧
    Run (step sampleEngine) (fun _ _ => true) σ σ' ∧ σ.store.hasRun 0 = false ∧
    σ.store.steps.rows = [] ∧
    ¬ σ'.store.Anchored ∧ ∃ st ∈ σ'.store.steps.rows, st.runId = 0 ∧ st.result = some
      (.str "secret") := by
  obtain ⟨σ, σ', h, h', hp⟩ :=
    Run.exists_of_replay₂ (step sampleEngine) (fun _ _ => true) (init .empty 0)
    (startTagged ++ purgeTagged) [.record 1 "charge" (some (.str "secret"))]
    (fun σ σ' =>
      decide (σ.store.hasRun 0 = false ∧ σ.store.steps.rows = [] ∧ σ'.store.hasRun 0 = false ∧
      ∃ st ∈ σ'.store.steps.rows, st.runId = 0 ∧ st.result = some (.str "secret")))
        (by decide +kernel)
  obtain ⟨hgone, hnone, hgone', st, hst, hid, hres⟩ := of_decide_eq_true hp
  refine ⟨σ, σ', h, h', hgone, hnone, fun ha => ?_, st, hst, hid, hres⟩
  have hpresent := ha st hst
  rw [hid, hgone'] at hpresent
  cases hpresent

end Sample

end Sys

end ZenZip
