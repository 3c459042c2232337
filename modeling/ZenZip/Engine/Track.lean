import ZenZip.System

namespace ZenZip

open Lib

/-- What the calls of a thread so far say about it: the run and the job it works
on, the row and the time it has read and the answer of its executor, the runs it
has made runnable without a job, the parent it has yet to wake, whether its own
run is asleep, handed over to a job or an event, or no longer in need of its job,
and whether it has given its job back or met with an error. -/
structure Track where
  own : Option RunId
  job : Option ClaimedJob
  run : Option RunRow
  outcome : Option ExecOutcome
  child : Option RunId
  read : Option Time
  owes : List RunId
  wakes : Option RunId
  sleeping : Bool
  handed : Bool
  released : Bool
  acked : Bool
  erred : Bool

/-- The parent step that `settle_parent` settles. -/
def RunRow.parentStep (r : RunRow) : Option (RunId × StepId) :=
  match r.parentRunId, r.parentStepId with
  | some p, some s => some (p, s)
  | _, _ => none

def Payload.run? : Payload → Option RunId
  | .execution id => some id
  | .data _ => none

namespace PushJob

def run? (job : PushJob) : Option RunId := job.payload.run?

@[simp] theorem run?_workflowExecutionJob (workflow : String) (id : RunId) (delayMs : Int) :
    (workflowExecutionJob workflow id delayMs).run? = some id := rfl

end PushJob

namespace Track

def parentStep (g : Track) : Option (RunId × StepId) := g.run.bind RunRow.parentStep

def pushed (g : Track) (ids : List RunId) : Track :=
  { g with owes := g.owes.filter (fun r => r ∉ ids),
           sleeping := g.sleeping && !ids.any (fun r => g.own = some r),
           handed := g.handed || ids.any (fun r => g.own = some r),
           released := g.released || ids.any (fun r => g.own = some r) }

def looked (g : Track) (id : RunId) : Option RunRow → Track
  | none =>
      { g with
        owes := g.owes.filter (fun r => r ≠ id),
        released := g.released || decide (g.own = some id) }
  | some row =>
    if g.own = some id then
      { g with run := g.run.or (some row), released := g.released || !row.status.executable }
    else g

def after (g : Track) : (c : Call) → c.Ret → Track
  | .push jobs, _ => g.pushed (jobs.filterMap PushJob.run?)
  | .getRun id, row => g.looked id row
  | .createRun _, (id, created) =>
    { g with child := some id, owes := if created then id :: g.owes else g.owes }
  | .wakeParent id, woken =>
      { g with wakes := none, owes := if woken then id :: g.owes else g.owes }
  | .sweepEventTimeouts _, waiters => { g with owes := waiters.map (·.runId) ++ g.owes }
  | .runSleeping _ _, _ => { g with sleeping := true }
  | .runWaitingEvent _ _ _ _ _, _ | .runWaitingChild _ _, _ =>
      { g with handed := true, released := true }
  | .runCompleted _ _, _ | .runFailed _ _, _ =>
    { g with released := true, wakes := g.parentStep.map Prod.fst }
  | .ack _ _, _ | .failRetry _ _ _ _, _ | .failDead _ _ _, _ => { g with acked := true }
  | _, _ => g

/-- An error leaves nobody to pay what is owed. -/
def failed (g : Track) : Track :=
  { g with owes := [], wakes := none, sleeping := false, erred := true }

def next (g : Track) : (op : Op) → Except String (Val op) → Track
  | .store c, .ok v => g.after c v
  | .store _, .error _ => g.failed
  | .executor _, .ok o => { g with outcome := some o }
  | .nowMs, .ok now => { g with read := some now }
  | _, _ => g

structure Idle (g : Track) : Prop where
  owes : g.owes = []
  wakes : g.wakes = none
  sleeping : g.sleeping = false

theorem Idle.congr {g g' : Track} (h : g.Idle) (ho : g'.owes = g.owes) (hw : g'.wakes = g.wakes)
    (hs : g'.sleeping = g.sleeping) : g'.Idle :=
  ⟨ho.trans h.owes, hw.trans h.wakes, hs.trans h.sleeping⟩

/-- The attempt still has its run in its hands. -/
structure Keeps (g : Track) : Prop where
  handed : g.handed = false
  acked : g.acked = false
  erred : g.erred = false

theorem Keeps.congr {g g' : Track} (h : g.Keeps) (hh : g'.handed = g.handed)
    (ha : g'.acked = g.acked)
    (he : g'.erred = g.erred) : g'.Keeps := ⟨hh.trans h.handed, ha.trans h.acked, he.trans h.erred⟩

def isAsleep (g : Track) : Bool :=
  match g.outcome with
  | some (.sleep _ _) => true
  | _ => false

/-- A run that sleeps is given a job that is due when it wakes. -/
def waits (g : Track) (delayMs : Int) : Prop :=
  ∀ s wakeAt, g.outcome = some (.sleep s wakeAt) → ∃ now, g.read = some now ∧ wakeAt ≤ now + delayMs

def pays (g : Track) (job : PushJob) (r : RunId) : Prop :=
  (∃ workflow delayMs, job = workflowExecutionJob workflow r delayMs) ∧
    (r ∈ g.owes ∨ g.own = some r ∧ g.Keeps ∧ g.waits job.delayMs)

/-- Where each call stands in the code, as far as the rest of the system relies on it. -/
def mayCall (g : Track) : Call → Prop
  | .push jobs => (g.job = none ∨ ∀ job ∈ jobs, job.run? ≠ none) ∧
      ∀ job ∈ jobs, ∀ r, job.run? = some r → jobs = [job] ∧ g.pays job r
  | .ack id fence =>
      g.Idle ∧ g.released = true ∧ ∃ job, g.job = some job ∧ job.id = id ∧ job.fence = fence
  | .failRetry id _ _ fence | .failDead id _ fence =>
    g.Idle ∧ (g.handed || g.isAsleep → g.erred = true) ∧ ∃ job, g.job = some job ∧ job.id = id ∧
      job.fence = fence
  | .createRun run =>
    (g.job = none ∧ run.parentRunId = none ∧ ∀ r s, run.idempotencyKey ≠ some (.invoke r s)) ∨
      ∃ r s, g.own = some r ∧ run.parentRunId = some r ∧ run.parentStepId = some s ∧
        run.idempotencyKey = some (.invoke r s) ∧ g.outcome.bind ExecOutcome.stepId? = some s
  | .getRun _ => True
  | .loadJournal id => g.own = some id ∧ g.outcome = none ∧ g.Keeps
  | .recordStep id stepId kind _ =>
    g.job = none ∨ g.parentStep = some (id, stepId) ∨
      g.own = some id ∧ g.Keeps ∧ ∃ o, g.outcome = some o ∧ o.records stepId kind = true
  | .stepFailedAttempt id stepId error =>
      g.own = some id ∧ g.outcome = some (.stepFailed stepId error)
  | .runCompleted id output => g.own = some id ∧ g.run ≠ none ∧ g.outcome = some (.completed output)
  | .runFailed id _ => g.own = some id ∧ g.run ≠ none
  | .runSleeping id wakeAt =>
      g.own = some id ∧ g.Keeps ∧ ∃ stepId, g.outcome = some (.sleep stepId wakeAt)
  | .runWaitingEvent id event stepId timeoutAt matchJson =>
    g.own = some id ∧ g.Keeps ∧ g.outcome = some (.event stepId event timeoutAt matchJson)
  | .runWaitingChild id child =>
    g.own = some id ∧ g.Keeps ∧ g.child = some child ∧ ∃ s w i, g.outcome = some (.invoke s w i)
  | .wakeParent id => g.wakes = some id
  | .sweepExpired _ | .requeueDead _ | .purgeDead _ | .gc _ _ | .purgeSubject _ | .emitEvent _ _ _
  | .sweepEventTimeouts _ | .cancelRunTree _ => g.job = none

def allowed (g : Track) : Op → Prop
  | .store c => g.mayCall c
  | .executor req => g.own = some req.runId ∧ g.outcome = none ∧ g.Keeps ∧ g.released = false
  | .nowMs | .fastrand _ => True

def answers : (op : Op) → Except String (Val op) → Prop
  | .store (.getRun id), .ok (some row) => row.id = id
  | .store (.sweepEventTimeouts _), .ok waiters => (waiters.map (·.runId)).Nodup
  | .nowMs, .error _ | .fastrand _, .error _ => False
  | _, _ => True

end Track

def tracking : Discipline Val Track := ⟨Track.next, Track.allowed, Track.answers⟩

namespace Track

variable {g : Track} {α β : Type}

theorem wp_call {c : Call} {Q : Track → Except String c.Ret → Prop} (ha : g.mayCall c)
    (he : ∀ e, Q g.failed (.error e))
    (hok : ∀ v : c.Ret, answers (.store c) (.ok v) → Q (g.after c v) (.ok v)) :
    tracking.wp (call c) Q g := by
  show tracking.wp (@Prog.op Op Val (.store c)) Q g
  rw [Discipline.wp_op]
  refine ⟨ha, fun r hr => ?_⟩
  cases r with
  | ok v => exact hok v hr
  | error e => exact he e

theorem wp_call_bind {c : Call} {f : c.Ret → M α} {Q : Track → Except String α → Prop}
    (ha : g.mayCall c)
    (he : ∀ e, Q g.failed (.error e))
    (hok : ∀ v : c.Ret, answers (.store c) (.ok v) → tracking.wp (f v) Q (g.after c v)) :
    tracking.wp (call c >>= f) Q g :=
  (tracking.wp_bind (call c) f Q g).mpr (wp_call ha he hok)

theorem wp_nowMs_bind {f : Time → M α} {Q : Track → Except String α → Prop}
    (hok : ∀ now, tracking.wp (f now) Q { g with read := some now }) :
    tracking.wp (nowMs >>= f) Q g := by
  show tracking.wp (@Prog.op Op Val .nowMs >>= f) Q g
  rw [Discipline.wp_bind, Discipline.wp_op]
  refine ⟨trivial, fun r hr => ?_⟩
  cases r with
  | ok now => exact hok now
  | error e => exact absurd hr not_false

theorem wp_delayFor_bind {b : Backoff} {attempt : Nat} {f : Int → M α}
    {Q : Track → Except String α → Prop}
    (hok : ∀ n, tracking.wp (f n) Q g) :
    tracking.wp (b.delayFor attempt >>= f) Q g := by
  rw [Discipline.wp_bind]
  show tracking.wp (@Prog.op Op Val (.fastrand _) >>= _) _ g
  rw [Discipline.wp_bind, Discipline.wp_op]
  refine ⟨trivial, fun r hr => ?_⟩
  cases r with
  | ok n => exact hok _
  | error e => exact absurd hr not_false

/-- The same thread, with nothing owed; where it went well its job is no longer
needed, and an attempt that has handed its run over ends well but for an error. -/
structure Done (g₀ g : Track) (r : Except String α) : Prop where
  own : g.own = g₀.own
  job : g.job = g₀.job
  idle : g.Idle
  released : ∀ a, r = .ok a → g.released = true
  kept : ∀ e, r = .error e → g.handed || g.isAsleep → g.erred = true

theorem idle_failed : g.failed.Idle := ⟨rfl, rfl, rfl⟩

theorem Done.of_failed {g₀ : Track} (ho : g.own = g₀.own) (hj : g.job = g₀.job) (e : String) :
    Done g₀ g.failed (.error e : Except String α) :=
  ⟨ho, hj, idle_failed, nofun, fun _ _ _ => rfl⟩

theorem Done.of_ok {g₀ : Track} {a : α} (ho : g.own = g₀.own) (hj : g.job = g₀.job) (hi : g.Idle)
    (hr : g.released = true) : Done g₀ g (.ok a) := ⟨ho, hj, hi, fun _ _ => hr, nofun⟩

theorem Done.of_throw {g₀ : Track} {e : String} (ho : g.own = g₀.own) (hj : g.job = g₀.job)
    (hi : g.Idle)
    (hk : (g.handed || g.isAsleep) = false) : Done g₀ g (.error e : Except String α) :=
  ⟨ho, hj, hi, nofun, fun _ _ h => absurd h (by rw [hk]; nofun)⟩

theorem looked_some (g : Track) (id : RunId) (row : RunRow) : ∃ run released,
    g.looked id (some row) = { g with run := run, released := g.released || released } := by
  simp only [looked]
  split
  · exact ⟨_, _, rfl⟩
  · exact ⟨g.run, false, by rw [Bool.or_false]⟩

theorem looked_eq (g : Track) (id : RunId) (row : Option RunRow) : ∃ run owes released,
    g.looked id row = { g with run := run, owes := owes, released := released } := by
  cases row with
  | none => exact ⟨_, _, _, rfl⟩
  | some row =>
      obtain ⟨run, released, h⟩ := looked_some g id row
      exact ⟨run, g.owes, _, h⟩

theorem looked_own {id : RunId} {row : RunRow} (h : g.own = some id) :
    g.looked id (some row) =
      { g with run := g.run.or (some row), released := g.released || !row.status.executable } :=
  if_pos h

theorem wp_enqueue {workflow : String} {id : RunId} {delayMs : Int}
    {Q : Track → Except String Unit → Prop}
    (hp : id ∈ g.owes ∨ g.own = some id ∧ g.Keeps ∧ g.waits delayMs)
    (he : ∀ e, Q g.failed (.error e))
    (hok : Q (g.pushed [id]) (.ok ())) :
    tracking.wp (WorkflowEngine.enqueue workflow id delayMs) Q g := by
  refine wp_call_bind ⟨.inr ?_, ?_⟩ he (fun _ _ => hok)
  · intro job hjob
    rw [List.mem_singleton] at hjob
    rw [hjob]
    nofun
  · intro job hjob r hr
    rw [List.mem_singleton] at hjob
    subst hjob
    cases hr
    exact ⟨rfl, ⟨workflow, delayMs, rfl⟩, hp⟩

theorem done_pushed {id : RunId} {g₀ : Track} (ho : g.own = g₀.own) (hj : g.job = g₀.job)
    (howes : ∀ r ∈ g.owes, r = id) (hwakes : g.wakes = none)
    (hsleep : g.sleeping = true → g.own = some id)
    (hrel : g.released = true ∨ g.own = some id) :
    Done g₀ (g.pushed [id]) (.ok () : Except String Unit) where
  kept := by
    intro _ h
    cases h
  own := ho
  job := hj
  idle := by
    refine ⟨?_, hwakes, ?_⟩
    · show g.owes.filter _ = []
      rw [List.filter_eq_nil_iff]
      intro r hr
      simp [howes r hr]
    · show (g.sleeping && _) = false
      cases hs : g.sleeping with
      | false => rfl
      | true => simp [hsleep hs]
  released := by
    rintro _ _
    show (g.released || _) = true
    obtain h | h := hrel
    · simp [h]
    · simp [h]

theorem wp_settleParent {g₀ : Track} {child : RunRow} {result : Except String Json}
    (ho : g.own = g₀.own)
    (hj : g.job = g₀.job) (hrun : g.run = some child)
    (howes : g.owes = []) (hsleep : g.sleeping = false)
    (hwakes : g.wakes = g.parentStep.map Prod.fst)
    (hrel : g.released = true) (hk : (g.handed || g.isAsleep) = false) :
    tracking.wp (WorkflowEngine.settleParent child result) (Done g₀) g := by
  unfold WorkflowEngine.settleParent
  split
  · next p s hp hs =>
      have hstep : g.parentStep = some (p, s) := by
        simp [parentStep, hrun, RunRow.parentStep, hp, hs]
      refine wp_call_bind (.inr (.inl hstep)) (.of_failed ho hj) (fun _ _ => ?_)
      refine wp_call_bind (by simp [after, mayCall, hwakes, hstep]) (.of_failed ho hj)
        (fun woken _ => ?_)
      cases woken with
      | false => exact .of_ok ho hj ⟨howes, rfl, hsleep⟩ hrel
      | true =>
          refine wp_call_bind trivial (.of_failed ho hj) (fun row _ => ?_)
          cases row with
          | none =>
              refine .of_throw ho hj ⟨?_, rfl, hsleep⟩ hk
              simp [after, looked, howes]
          | some parent =>
              obtain ⟨run, released, hl⟩ :=
                looked_some { g with wakes := none, owes := p :: g.owes } p parent
              simp only [after, if_true] at hl ⊢
              rw [hl]
              refine wp_enqueue (.inl List.mem_cons_self) (.of_failed ho hj)
                (done_pushed ho hj ?_ rfl ?_ ?_)
              · simp [howes]
              · simp [hsleep]
              · exact .inl (by simp [hrel])
  · next hnone =>
      have hstep : g.parentStep = none := by
        simp only [parentStep, hrun, Option.bind_some, RunRow.parentStep]
      exact .of_ok ho hj ⟨howes, by rw [hwakes, hstep]; rfl, hsleep⟩ hrel

structure Applying (g : Track) (run : RunRow) (o : ExecOutcome) : Prop where
  own : g.own = some run.id
  run : g.run = some run
  outcome : g.outcome = some o
  idle : g.Idle
  keeps : g.Keeps

theorem Applying.run_ne {run : RunRow} {o : ExecOutcome} (h : g.Applying run o) : g.run ≠ none := by
  rw [h.run]
  nofun

/-- Only a sleep ties the delay of the next job. -/
theorem Applying.waits {run : RunRow} {o : ExecOutcome} (h : g.Applying run o)
    (ho : ∀ s w, o ≠ .sleep s w)
    (delayMs : Int) : g.waits delayMs := by
  intro s w hs
  rw [h.outcome] at hs
  exact absurd (Option.some.inj hs) (ho s w)

theorem Applying.not_asleep {run : RunRow} {o : ExecOutcome} (h : g.Applying run o)
    (ho : ∀ s w, o ≠ .sleep s w) :
    (g.handed || g.isAsleep) = false := by
  unfold isAsleep
  rw [h.keeps.handed, h.outcome]
  cases o with
  | sleep s w => exact absurd rfl (ho s w)
  | _ => rfl

theorem wp_applyInvoke (E : WorkflowEngine) {run : RunRow} {stepId : StepId} {workflow : String}
    {input : Option Json} (h : g.Applying run (.invoke stepId workflow input)) :
    tracking.wp (E.applyInvoke run stepId workflow input) (Done g) g := by
  obtain ⟨howes, hwakes, hsleep⟩ := h.idle
  have hstep : g.outcome.bind ExecOutcome.stepId? = some stepId := by rw [h.outcome]; rfl
  have hrec : (ExecOutcome.invoke stepId workflow input).records stepId .invoke = true := by
    simp [ExecOutcome.records]
  unfold WorkflowEngine.applyInvoke
  split
  · refine wp_call_bind ⟨h.own, h.run_ne⟩ (.of_failed rfl rfl) (fun _ _ => ?_)
    exact wp_settleParent rfl rfl h.run howes hsleep rfl rfl (h.not_asleep nofun)
  · next cfg _ =>
      refine wp_call_bind (.inr ⟨run.id, stepId, h.own, rfl, rfl, rfl, hstep⟩)
        (.of_failed rfl rfl) ?_
      rintro ⟨childId, created⟩ _
      cases created with
      | true =>
          refine wp_call_bind ⟨h.own, h.keeps.congr rfl rfl rfl, rfl, _, _, _, h.outcome⟩
            (.of_failed rfl rfl) (fun _ _ => ?_)
          refine wp_enqueue (.inl List.mem_cons_self) (.of_failed rfl rfl)
            (done_pushed rfl rfl ?_ hwakes ?_ (.inl rfl))
          · simp [after, howes]
          · simp [after, hsleep]
      | false =>
          refine wp_call_bind trivial (.of_failed rfl rfl) (fun row _ => ?_)
          cases row with
          | none =>
              refine .of_throw rfl rfl ⟨?_, hwakes, hsleep⟩ (h.not_asleep nofun)
              simp [after, looked, howes]
          | some child =>
              obtain ⟨run', released, hl⟩ :=
                looked_some { g with child := some childId } childId child
              simp only [after, Bool.false_eq_true, if_false] at hl ⊢
              rw [hl]
              have hjournal (result : Json) : tracking.wp (do
                  let _ ← call (.recordStep run.id stepId .invoke (some result))
                  WorkflowEngine.enqueue run.workflow run.id 0) (Done g)
                  { g with
                    child := some childId, run := run', released := g.released || released } := by
                refine wp_call_bind
                  (.inr (.inr ⟨h.own, h.keeps.congr rfl rfl rfl, _, h.outcome, hrec⟩))
                    (.of_failed rfl rfl)
                  (fun _ _ => ?_)
                refine wp_enqueue (.inr ⟨h.own, h.keeps.congr rfl rfl rfl, h.waits nofun 0⟩)
                  (.of_failed rfl rfl)
                  (done_pushed rfl rfl ?_ hwakes (fun _ => h.own) (.inr h.own))
                simp [after, howes]
              have hpark : tracking.wp (do
                  let _ ← call (.runWaitingChild run.id childId)) (Done g)
                  { g with
                    child := some childId, run := run', released := g.released || released } := by
                refine wp_call_bind ⟨h.own, h.keeps.congr rfl rfl rfl, rfl, _, _, _, h.outcome⟩
                  (.of_failed rfl rfl) (fun _ _ => ?_)
                exact .of_ok rfl rfl ⟨howes, hwakes, hsleep⟩ rfl
              cases child.status with
              | completed | failed | cancelled => exact hjournal _
              | runnable | sleeping | waitEvent | waitChild => exact hpark

theorem wp_apply (E : WorkflowEngine) {run : RunRow} {o : ExecOutcome} (h : g.Applying run o) :
    tracking.wp (E.apply run o) (Done g) g := by
  obtain ⟨howes, hwakes, hsleep⟩ := h.idle
  cases o with
  | completed output =>
      refine wp_call_bind ⟨h.own, h.run_ne, h.outcome⟩ (.of_failed rfl rfl) (fun _ _ => ?_)
      exact wp_settleParent rfl rfl h.run howes hsleep rfl rfl (h.not_asleep nofun)
  | failed error =>
      refine wp_call_bind ⟨h.own, h.run_ne⟩ (.of_failed rfl rfl) (fun _ _ => ?_)
      exact wp_settleParent rfl rfl h.run howes hsleep rfl rfl (h.not_asleep nofun)
  | sleep stepId wakeAt =>
      refine wp_call_bind
        (.inr (.inr
          ⟨h.own, h.keeps.congr rfl rfl rfl, _, h.outcome, by simp [ExecOutcome.records]⟩))
        (.of_failed rfl rfl) (fun _ _ => ?_)
      refine wp_call_bind ⟨h.own, h.keeps.congr rfl rfl rfl, stepId, h.outcome⟩ (.of_failed rfl rfl)
        (fun _ _ => ?_)
      refine wp_nowMs_bind (fun now => ?_)
      refine wp_enqueue (.inr ⟨h.own, h.keeps.congr rfl rfl rfl, fun s w hs => ⟨now, rfl, ?_⟩⟩)
        (.of_failed rfl rfl)
        (done_pushed rfl rfl ?_ hwakes (fun _ => h.own) (.inr h.own))
      · have ho : some (ExecOutcome.sleep stepId wakeAt) = some (.sleep s w) :=
          h.outcome.symm.trans hs
        cases ho
        exact Int.le_add_of_sub_left_le (Int.le_max_left _ _)
      · simp [after, howes]
  | event stepId event timeoutAt matchJson =>
      refine wp_call_bind ⟨h.own, h.keeps.congr rfl rfl rfl, h.outcome⟩ (.of_failed rfl rfl)
        (fun _ _ => ?_)
      exact .of_ok rfl rfl ⟨howes, hwakes, hsleep⟩ rfl
  | invoke stepId workflow input => exact wp_applyInvoke E h
  | stepFailed stepId error =>
      refine wp_call_bind ⟨h.own, h.outcome⟩ (.of_failed rfl rfl) (fun attempts _ => ?_)
      split
      · refine wp_delayFor_bind (fun delay => ?_)
        refine wp_enqueue (.inr ⟨h.own, h.keeps.congr rfl rfl rfl, h.waits nofun delay⟩)
          (.of_failed rfl rfl)
          (done_pushed rfl rfl ?_ hwakes (fun _ => h.own) (.inr h.own))
        simp [after, howes]
      · refine wp_call_bind ⟨h.own, h.run_ne⟩ (.of_failed rfl rfl) (fun _ _ => ?_)
        exact wp_settleParent rfl rfl h.run howes hsleep rfl rfl (h.not_asleep nofun)

def start (own : Option RunId) (job : Option ClaimedJob) : Track :=
  ⟨own, job, none, none, none, none, [], none, false, false, false, false, false⟩

theorem idle_start (own : Option RunId) (job : Option ClaimedJob) : (start own job).Idle :=
  ⟨rfl, rfl, rfl⟩

theorem wp_executor_bind {req : ExecRequest} {f : ExecOutcome → M α}
    {Q : Track → Except String α → Prop}
    (ha : g.allowed (.executor req)) (he : ∀ e, Q g (.error e))
    (hok : ∀ o, tracking.wp (f o) Q { g with outcome := some o }) :
    tracking.wp (@Prog.op Op Val (.executor req) >>= f) Q g := by
  rw [Discipline.wp_bind, Discipline.wp_op]
  refine ⟨ha, fun r _ => ?_⟩
  cases r with
  | ok o => exact hok o
  | error e => exact he e

theorem wp_execute (E : WorkflowEngine) (workflow : String) (payload : Payload)
    (job : Option ClaimedJob) :
    tracking.wp (E.execute workflow payload) (Done (start payload.run? job))
      (start payload.run? job) := by
  cases payload with
  | data value => exact .of_throw rfl rfl (idle_start _ _) rfl
  | execution runId =>
      refine wp_call_bind trivial (.of_failed rfl rfl) (fun row hrow => ?_)
      cases row with
      | none => exact .of_ok rfl rfl ⟨rfl, rfl, rfl⟩ (by simp [after, looked, start, Payload.run?])
      | some run =>
          obtain rfl : run.id = runId := hrow
          have hown : (start (some run.id) job).own = some run.id := rfl
          show tracking.wp _ _ ((start (some run.id) job).looked run.id (some run))
          rw [looked_own hown]
          dsimp only
          split
          · next hs =>
              refine .of_ok rfl rfl ⟨rfl, rfl, rfl⟩ ?_
              cases hst : run.status <;> simp_all [start, RunStatus.executable]
          · next hs =>
              have hexec : run.status.executable = true := by
                cases hst : run.status <;> simp_all [RunStatus.executable]
              refine wp_call_bind ⟨rfl, rfl, ⟨rfl, rfl, rfl⟩⟩ (.of_failed rfl rfl)
                (fun journal _ => ?_)
              refine wp_executor_bind ⟨rfl, rfl, ⟨rfl, rfl, rfl⟩, by simp [after, start, hexec]⟩
                (fun e => ?_) (fun o => ?_)
              · exact .of_throw rfl rfl ⟨rfl, rfl, rfl⟩ rfl
              refine wp_call_bind trivial (.of_failed rfl rfl) (fun row' hrow' => ?_)
              cases row' with
              | none => exact .of_ok rfl rfl ⟨rfl, rfl, rfl⟩ (by simp [after, looked, start])
              | some current =>
                  simp only [after]
                  rw [looked_own rfl]
                  dsimp only
                  split
                  · next hc =>
                      exact .of_ok rfl rfl ⟨rfl, rfl, rfl⟩ (by simp [hc, RunStatus.executable])
                  · exact Discipline.wp_mono
                      _ (wp_apply E ⟨rfl, rfl, rfl, ⟨rfl, rfl, rfl⟩, ⟨rfl, rfl, rfl⟩⟩)
                      (fun _ _ h => ⟨h.own, h.job, h.idle, h.released, h.kept⟩)

/-- Where the code of a thread ends: nothing is owed, and a worker has given its
job back unless the store would not let it. -/
structure Ended (worker : Bool) (g : Track) : Prop where
  idle : g.Idle
  closed : worker = true → g.acked = true ∨ g.erred = true

theorem wp_runGroup (E : WorkflowEngine) (workflow : String) (job : ClaimedJob) :
    tracking.wp (runGroup E workflow job) (fun g _ => g.Ended true)
      (start job.payload.run? (some job)) := by
  unfold runGroup
  rw [Discipline.wp_bind, Discipline.wp_attempt]
  refine Discipline.wp_mono _ (wp_execute E workflow job.payload (some job)) (fun g r hd => ?_)
  have hlast {c : Call} {g : Track} (ha : g.mayCall c) (hg : ∀ v, (g.after c v).Ended true) :
      tracking.wp (do let _ ← (call c).attempt; return Reply.done) (fun g _ => g.Ended true) g := by
    rw [Discipline.wp_bind, Discipline.wp_attempt]
    exact wp_call ha (fun _ => ⟨idle_failed, fun _ => .inr rfl⟩) (fun v _ => hg v)
  cases r with
  | ok _ =>
      exact hlast ⟨hd.idle, hd.released () rfl, job, hd.job, rfl, rfl⟩
        (fun _ => ⟨hd.idle.congr rfl rfl rfl, fun _ => .inl rfl⟩)
  | error message =>
      have hkept := hd.kept message rfl
      simp only [Discipline.seq_ok]
      split
      · exact hlast ⟨hd.idle, hkept, job, hd.job, rfl, rfl⟩
          (fun _ => ⟨hd.idle.congr rfl rfl rfl, fun _ => .inl rfl⟩)
      · refine wp_nowMs_bind (fun now => ?_)
        refine wp_delayFor_bind (fun delay => ?_)
        exact hlast ⟨hd.idle.congr rfl rfl rfl, hkept, job, hd.job, rfl, rfl⟩
          (fun _ => ⟨hd.idle.congr rfl rfl rfl, fun _ => .inl rfl⟩)

/-- The sweep owes a job to the waiters it has not come to yet. -/
structure Sweeping (waiters : List Waiter) (g : Track) : Prop where
  job : g.job = none
  own : g.own = none
  owes : g.owes = waiters.map (·.runId)
  nodup : (waiters.map (·.runId)).Nodup
  wakes : g.wakes = none
  sleeping : g.sleeping = false

theorem wp_sweep (now : Time) :
    tracking.wp (WorkflowEngine.sweep now) (fun g _ => g.Idle)
      { start none none with read := some now } := by
  refine wp_call_bind rfl (fun _ => idle_failed) (fun waiters hnodup => ?_)
  rw [Discipline.wp_bind]
  refine Discipline.wp_forM _ Sweeping ?_ ?_ waiters _ ?_
  · intro w ws g h
    refine wp_call_bind (.inl h.job) (fun _ => idle_failed) (fun _ _ => ?_)
    refine wp_enqueue (.inl ?_) (fun _ => idle_failed) ?_
    · show w.runId ∈ g.owes
      simp [h.owes]
    · have hnd := h.nodup
      rw [List.map_cons, List.nodup_cons] at hnd
      refine ⟨h.job, h.own, ?_, hnd.2, h.wakes, ?_⟩
      · show g.owes.filter _ = _
        rw [h.owes, List.map_cons, List.filter_cons_of_neg (by simp), List.filter_eq_self]
        intro r hr
        simp only [List.mem_singleton, decide_not, Bool.not_eq_true', decide_eq_false_iff_not]
        rintro rfl
        exact hnd.1 hr
      · show (g.sleeping && _) = false
        rw [h.sleeping]
        rfl
  · intro g h
    exact ⟨h.owes, h.wakes, h.sleeping⟩
  · exact ⟨rfl, rfl, by simp [after, start], hnodup, rfl, rfl⟩

theorem wp_single {c : Call} {f : c.Ret → Reply} (ha : g.mayCall c) (hg : ∀ v, (g.after c v).Idle) :
    tracking.wp (do let v ← call c; return f v) (fun g _ => g.Idle) g :=
  wp_call_bind ha (fun _ => idle_failed) (fun v _ => hg v)

theorem wp_task (E : WorkflowEngine) {t : Task} (ht : t.admissible = true) :
    tracking.wp (t.prog E) (fun g _ => g.Idle) (start none none) := by
  have hidle : (start none none).Idle := idle_start none none
  cases t with
  | trigger workflow input key delayMs subject =>
      show tracking.wp (E.triggerBlocking workflow input key delayMs subject >>= _) _ _
      rw [Discipline.wp_bind]
      refine wp_call_bind (.inl ⟨rfl, rfl, ?_⟩) (fun _ => idle_failed) ?_
      · intro r s
        cases key <;> simp
      rintro ⟨id, created⟩ _
      cases created with
      | false => exact ⟨rfl, rfl, rfl⟩
      | true =>
          simp only [if_true]
          rw [Discipline.wp_bind]
          refine wp_enqueue (.inl List.mem_cons_self) (fun _ => idle_failed) ⟨?_, rfl, rfl⟩
          simp [pushed, after, start]
  | emit name payload =>
      show tracking.wp (E.emitBlocking name payload >>= _) _ _
      rw [Discipline.wp_bind]
      exact wp_call_bind rfl (fun _ => idle_failed) (fun _ _ => hidle)
  | cancel runId => exact wp_single rfl (fun _ => hidle)
  | sweep =>
      refine wp_nowMs_bind (fun now => ?_)
      rw [Discipline.wp_bind]
      refine Discipline.wp_mono _ (wp_sweep now) (fun g r hi => ?_)
      cases r <;> exact hi
  | sweepExpired =>
      refine wp_nowMs_bind (fun now => ?_)
      exact wp_single rfl (fun _ => hidle.congr rfl rfl rfl)
  | push jobs =>
      refine wp_single ⟨.inl rfl, ?_⟩ (fun _ => ⟨rfl, rfl, rfl⟩)
      intro job hjob r hr
      have := List.all_eq_true.mp ht job hjob
      simp only [PushJob.run?, Payload.run?] at hr
      cases hp : job.payload <;> simp_all
  | requeueDead ids => exact wp_single rfl (fun _ => hidle)
  | purgeDead queue => exact wp_single rfl (fun _ => hidle)
  | gc runBefore eventBefore => exact wp_single rfl (fun _ => hidle)
  | purgeSubject subject => exact wp_single rfl (fun _ => hidle)

end Track

end ZenZip
