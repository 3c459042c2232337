import ZenZip.Engine.Track

namespace ZenZip

open Lib

/-- What the calls of a thread have told it about runs: the workflows of some, and the rows
it has read. `own` is the workflow whose job it works on. -/
structure Lore where
  own : Option String
  runs : List (RunId × String)
  rows : List RunRow

namespace Lore

def start (own : Option String) : Lore := ⟨own, [], []⟩

def after (g : Lore) : (c : Call) → c.Ret → Lore
  | .getRun _, some row =>
      { g with runs := (row.id, row.workflow) :: g.runs, rows := row :: g.rows }
  | .createRun run, (id, _) => { g with runs := (id, run.workflow) :: g.runs }
  | .sweepEventTimeouts _, waiters =>
      { g with runs := waiters.map (fun w => (w.runId, w.workflow)) ++ g.runs }
  | _, _ => g

def next (g : Lore) : (op : Op) → Except String (Val op) → Lore
  | .store c, .ok v => g.after c v
  | _, _ => g

/-- New runs have a version that their workflow may have, a job of a run goes to the queue
of its workflow, and an executor gets the version of its run. -/
def allowed (P : String → Option String → Prop) (g : Lore) : Op → Prop
  | .store (.push jobs) =>
    ∀ job ∈ jobs, ∀ r, job.run? = some r → ∃ workflow, (r, workflow) ∈ g.runs ∧
      job.queue = workflowQueueName workflow
  | .store (.createRun run) => P run.workflow run.version
  | .store (.emitEvent _ _ targets) => ∀ t ∈ targets, P t.workflow t.version
  | .executor req =>
      g.own = some req.workflow ∧ ∃ row ∈ g.rows, row.id = req.runId ∧ row.version = req.version
  | _ => True

end Lore

/-- The discipline of versions, for a relation of workflows and the versions they may have. -/
def pinning (P : String → Option String → Prop) : Discipline Val Lore :=
  ⟨Lore.next, Lore.allowed P, Track.answers⟩

namespace WorkflowEngine

/-- Every registered workflow has a version that it may have. -/
def Pins (E : WorkflowEngine) (P : String → Option String → Prop) : Prop :=
  ∀ c ∈ E.configs, P c.name c.version

theorem Pins.config {E : WorkflowEngine} {P : String → Option String → Prop} (h : E.Pins P)
    {workflow : String}
    {cfg : WorkflowConfig} (hcfg : E.config workflow = some cfg) : P workflow cfg.version := by
  have hname := List.find?_some hcfg
  have hmem := h cfg (List.mem_of_find?_eq_some hcfg)
  rwa [of_decide_eq_true hname] at hmem

end WorkflowEngine

namespace Task

/-- A trigger is a call on the handle of a workflow that its process has registered. -/
def registered (E : WorkflowEngine) : Task → Bool
  | .trigger workflow _ _ _ _ => (E.config workflow).isSome
  | _ => true

end Task

namespace Lore

variable {P : String → Option String → Prop} {g : Lore} {α : Type}

def Follows (P : String → Option String → Prop) (p : M α) (g : Lore) : Prop :=
  (pinning P).wp p (fun _ _ => True) g

theorem follows_bind {β : Type} {p : M α} {f : α → M β}
    (h : (pinning P).wp p (fun g r => ∀ a, r = .ok a → Follows P (f a) g) g) :
    Follows P (p >>= f) g := by
  rw [Follows, Discipline.wp_bind]
  refine Discipline.wp_mono _ h (fun g r hr => ?_)
  cases r with
  | ok a => exact hr a rfl
  | error e => trivial

theorem follows_op_bind {op : Op} {f : Val op → M α} (ha : g.allowed P op)
    (hok : ∀ v : Val op, Track.answers op (.ok v) → Follows P (f v) (g.next op (.ok v))) :
    Follows P (@Prog.op Op Val op >>= f) g := by
  apply follows_bind
  rw [Discipline.wp_op]
  refine ⟨ha, fun r hr a he => ?_⟩
  subst he
  exact hok a hr

theorem follows_call_bind {c : Call} {f : c.Ret → M α} (ha : g.allowed P (.store c))
    (hok : ∀ v : c.Ret, Track.answers (.store c) (.ok v) → Follows P (f v) (g.after c v)) :
    Follows P (call c >>= f) g := follows_op_bind ha hok

theorem follows_seq {β : Type} {p : M α} {f : α → M β} (h : Follows P p g)
    (hf : ∀ a g, Follows P (f a) g) :
    Follows P (p >>= f) g :=
  follows_bind (Discipline.wp_mono _ h (fun g _ _ a _ => hf a g))

theorem follows_attempt {β : Type} {p : M α} {f : Except String α → M β} (h : Follows P p g)
    (hf : ∀ r g, Follows P (f r) g) : Follows P (p.attempt >>= f) g := by
  rw [Follows, Discipline.wp_bind, Discipline.wp_attempt]
  exact Discipline.wp_mono _ h (fun g r _ => hf r g)

theorem follows_pure (a : α) (g : Lore) : Follows P (pure a : M α) g := trivial

theorem follows_call {c : Call} (ha : g.allowed P (.store c)) : Follows P (call c) g := by
  show (pinning P).wp (@Prog.op Op Val (.store c)) _ g
  rw [Discipline.wp_op]
  exact ⟨ha, fun _ _ => trivial⟩

theorem follows_delayFor_bind {b : Backoff} {attempt : Nat} {f : Int → M α}
    (hok : ∀ n, Follows P (f n) g) :
    Follows P (b.delayFor attempt >>= f) g := by
  apply follows_bind
  show (pinning P).wp (@Prog.op Op Val (.fastrand _) >>= _) _ g
  rw [Discipline.wp_bind, Discipline.wp_op]
  refine ⟨trivial, fun r _ => ?_⟩
  cases r with
  | ok n => exact fun a _ => hok a
  | error e => exact nofun

theorem follows_enqueue {workflow : String} {id : RunId} {delayMs : Int}
    (h : (id, workflow) ∈ g.runs) :
    Follows P (WorkflowEngine.enqueue workflow id delayMs) g := by
  refine follows_call_bind ?_ (fun _ _ => follows_pure _ _)
  intro job hjob r hr
  rw [List.mem_singleton] at hjob
  subst hjob
  cases hr
  exact ⟨workflow, h, rfl⟩

theorem follows_settleParent (child : RunRow) (result : Except String Json) :
    Follows P (WorkflowEngine.settleParent child result) g := by
  unfold WorkflowEngine.settleParent
  split
  · refine follows_call_bind trivial (fun _ _ => ?_)
    refine follows_call_bind trivial (fun woken _ => ?_)
    cases woken with
    | false => trivial
    | true =>
        refine follows_call_bind trivial (fun row hrow => ?_)
        cases row with
        | none => trivial
        | some parent =>
            obtain rfl : parent.id = _ := hrow
            exact follows_enqueue List.mem_cons_self
  · trivial

theorem follows_applyInvoke {E : WorkflowEngine} (hE : E.Pins P) {run : RunRow} {stepId : StepId}
    {workflow : String}
    {input : Option Json} (h : (run.id, run.workflow) ∈ g.runs) :
    Follows P (E.applyInvoke run stepId workflow input) g := by
  unfold WorkflowEngine.applyInvoke
  split
  · exact follows_call_bind trivial (fun _ _ => follows_settleParent _ _)
  · next cfg hcfg =>
      refine follows_call_bind (hE.config hcfg) ?_
      rintro ⟨childId, created⟩ _
      have hrun : (run.id, run.workflow) ∈ (childId, workflow) :: g.runs := List.mem_cons_of_mem _ h
      cases created with
      | true => exact follows_call_bind trivial (fun _ _ => follows_enqueue List.mem_cons_self)
      | false =>
          refine follows_call_bind trivial (fun row _ => ?_)
          cases row with
          | none => trivial
          | some child =>
              have hown : (run.id, run.workflow) ∈ (child.id, child.workflow) ::
                (childId, workflow) :: g.runs :=
                List.mem_cons_of_mem _ hrun
              dsimp only
              split
              · exact follows_call_bind trivial (fun _ _ => follows_enqueue hown)
              · exact follows_call_bind trivial (fun _ _ => follows_enqueue hown)
              · exact follows_call_bind trivial (fun _ _ => follows_enqueue hown)
              · exact follows_call_bind trivial (fun _ _ => follows_pure _ _)

theorem follows_apply {E : WorkflowEngine} (hE : E.Pins P) {run : RunRow} (o : ExecOutcome)
    (h : (run.id, run.workflow) ∈ g.runs) : Follows P (E.apply run o) g := by
  cases o with
  | completed output | failed error =>
      exact follows_call_bind trivial (fun _ _ => follows_settleParent _ _)
  | sleep stepId wakeAt =>
      refine follows_call_bind trivial (fun _ _ => ?_)
      refine follows_call_bind trivial (fun _ _ => ?_)
      exact @follows_op_bind _ _ _ .nowMs _ trivial (fun _ _ => follows_enqueue h)
  | event stepId event timeoutAt matchJson =>
      exact follows_call_bind trivial (fun _ _ => follows_pure _ _)
  | invoke stepId workflow input => exact follows_applyInvoke hE h
  | stepFailed stepId error =>
      refine follows_call_bind trivial (fun attempts _ => ?_)
      split
      · exact follows_delayFor_bind (fun _ => follows_enqueue h)
      · exact follows_call_bind trivial (fun _ _ => follows_settleParent _ _)

theorem follows_execute {E : WorkflowEngine} (hE : E.Pins P) (workflow : String)
    (payload : Payload) :
    Follows P (E.execute workflow payload) (start (some workflow)) := by
  cases payload with
  | data value => trivial
  | execution runId =>
      refine follows_call_bind trivial (fun row hrow => ?_)
      cases row with
      | none => trivial
      | some run =>
          obtain rfl : run.id = runId := hrow
          dsimp only
          split
          · trivial
          · refine follows_call_bind trivial (fun journal _ => ?_)
            refine follows_op_bind ⟨rfl, run, List.mem_cons_self, rfl, rfl⟩ (fun o _ => ?_)
            refine follows_call_bind trivial (fun current _ => ?_)
            cases current with
            | none => trivial
            | some current =>
                dsimp only
                split
                · trivial
                · exact follows_apply hE o (List.mem_cons_of_mem _ List.mem_cons_self)

theorem follows_runGroup {E : WorkflowEngine} (hE : E.Pins P) (workflow : String)
    (job : ClaimedJob) :
    Follows P (runGroup E workflow job) (start (some workflow)) := by
  refine follows_attempt (follows_execute hE workflow job.payload) (fun r g => ?_)
  cases r with
  | ok _ => exact follows_attempt (follows_call trivial) (fun _ _ => follows_pure _ _)
  | error message =>
      dsimp only
      split
      · exact follows_attempt (follows_call trivial) (fun _ _ => follows_pure _ _)
      · refine @follows_op_bind _ _ _ .nowMs _ trivial (fun now _ => ?_)
        refine follows_delayFor_bind (fun delay => ?_)
        exact follows_attempt (follows_call trivial) (fun _ _ => follows_pure _ _)

theorem follows_sweep (now : Time) : Follows P (WorkflowEngine.sweep now) g := by
  refine follows_call_bind trivial (fun waiters _ => ?_)
  rw [Follows, Discipline.wp_bind]
  refine Discipline.wp_forM _ (fun ws g => ∀ w ∈ ws, (w.runId, w.workflow) ∈ g.runs) ?_ ?_
    waiters _ ?_
  · intro w ws g h
    have hrest (g' : Lore) (hg : g'.runs = g.runs) : ∀ w ∈ ws, (w.runId, w.workflow) ∈ g'.runs := by
      intro w' hw'
      rw [hg]
      exact h w' (List.mem_cons_of_mem _ hw')
    rw [Discipline.wp_bind]
    show (pinning P).wp (@Prog.op Op Val (.store (.recordStep _ _ _ _))) _ _
    rw [Discipline.wp_op]
    refine ⟨trivial, fun r _ => ?_⟩
    cases r with
    | error e => trivial
    | ok v =>
        rw [Discipline.seq_ok, WorkflowEngine.enqueue, Discipline.wp_bind]
        show (pinning P).wp (@Prog.op Op Val (.store (.push _))) _ _
        rw [Discipline.wp_op]
        refine ⟨?_, fun r _ => ?_⟩
        · intro job hjob r hr
          rw [List.mem_singleton] at hjob
          subst hjob
          cases hr
          exact ⟨w.workflow, h w List.mem_cons_self, rfl⟩
        · cases r with
          | error e => trivial
          | ok v => exact hrest _ rfl
  · exact fun _ _ => trivial
  · intro w hw
    exact List.mem_append_left _ (List.mem_map_of_mem hw)

theorem follows_task {E : WorkflowEngine} (hE : E.Pins P) {t : Task} (ha : t.admissible = true)
    (ht : t.registered E = true) : Follows P (t.prog E) (start none) := by
  cases t with
  | trigger workflow input key delayMs subject =>
      obtain ⟨cfg, hcfg⟩ := Option.isSome_iff_exists.mp ht
      refine follows_seq ?_ (fun _ _ => follows_pure _ _)
      refine follows_call_bind ?_ ?_
      · show P workflow ((E.config workflow).bind (·.version))
        rw [hcfg]
        exact hE.config hcfg
      · rintro ⟨id, created⟩ _
        cases created with
        | false => trivial
        | true =>
            exact follows_seq (follows_enqueue List.mem_cons_self) (fun _ _ => follows_pure _ _)
  | emit name payload =>
      refine follows_seq ?_ (fun _ _ => follows_pure _ _)
      refine follows_call_bind ?_ (fun _ _ => follows_pure _ _)
      intro t ht
      obtain ⟨c, hc, rfl⟩ := List.mem_map.mp ht
      exact hE c (List.mem_of_mem_filter hc)
  | sweep =>
      refine @follows_op_bind _ _ _ .nowMs _ trivial (fun now _ => ?_)
      exact follows_seq (follows_sweep now) (fun _ _ => follows_pure _ _)
  | sweepExpired =>
      refine @follows_op_bind _ _ _ .nowMs _ trivial (fun now _ => ?_)
      exact follows_call_bind trivial (fun _ _ => follows_pure _ _)
  | push jobs =>
      refine follows_call_bind ?_ (fun _ _ => follows_pure _ _)
      intro job hjob r hr
      have hdata := List.all_eq_true.mp ha job hjob
      rw [PushJob.run?] at hr
      cases hp : job.payload with
      | data v =>
          rw [hp] at hr
          cases hr
      | execution id =>
          rw [hp] at hdata
          cases hdata
  | cancel | requeueDead | purgeDead | gc | purgeSubject =>
      exact follows_call_bind trivial (fun _ _ => follows_pure _ _)

end Lore

end ZenZip
