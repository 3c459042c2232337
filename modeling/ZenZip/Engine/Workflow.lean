import ZenZip.Engine.Calls
import Mathlib.Algebra.Group.Int.Defs

namespace ZenZip

open Lib

structure Backoff where
  delayMs : Int
  maxDelayMs : Int

namespace Backoff

def default : Backoff := ⟨1000, 60000⟩

/-- The bounds of an `i64`, where `saturating_mul` stops. -/
def saturate (n : Int) : Int := max (-9223372036854775808) (min n 9223372036854775807)

def cappedFor (b : Backoff) (attempt : Nat) : Int :=
  max (min (saturate (b.delayMs * 2 ^ (min (attempt - 1) 20))) b.maxDelayMs) 1

def delayFor (b : Backoff) (attempt : Nat) : M Int := do
  let capped := b.cappedFor attempt
  let jitter ← @Prog.op Op Val (.fastrand (max (capped / 4) 1))
  return capped - capped / 8 + jitter

end Backoff

structure WorkflowConfig where
  name : String
  version : Option String
  concurrency : Nat
  stepMaxAttempts : Nat
  stepBackoff : Backoff
  leaseMs : Int
  triggers : List String

namespace WorkflowConfig

def new (name : String) : WorkflowConfig := ⟨name, none, 10, 3, .default, 60000, []⟩

end WorkflowConfig

/-- `split('.')`. -/
def segments : List Char → List (List Char)
  | [] => [[]]
  | c :: cs =>
    if c = '.' then [] :: segments cs
    else match segments cs with
      | [] => [[c]]
      | seg :: rest => (c :: seg) :: rest

def eventMatches (pattern name : String) : Bool :=
  let p := segments pattern.toList
  let n := segments name.toList
  let agree (xs : List (List Char)) : Bool := (xs.zip n).all (fun ab => ab.1 = ['*'] || ab.1 = ab.2)
  pattern = name ||
    if p.getLast? = some ['*', '*'] then decide (p.dropLast.length ≤ n.length) && agree p.dropLast
    else decide (p.length = n.length) && agree p

/-- The registered workflows; registration ends before the runtime starts. -/
structure WorkflowEngine where
  configs : List WorkflowConfig

namespace WorkflowEngine

def config (E : WorkflowEngine) (workflow : String) : Option WorkflowConfig :=
  E.configs.find? (fun c => c.name = workflow)

def triggerTargets (E : WorkflowEngine) (event : String) : List TriggerTarget :=
  (E.configs.filter (fun c => c.triggers.any (fun p => eventMatches p event))).map
    (fun c => ⟨c.name, c.version⟩)

def enqueue (workflow : String) (runId : RunId) (delayMs : Int) : M Unit := do
  let _ ← call (.push [workflowExecutionJob workflow runId delayMs])

def triggerBlocking (E : WorkflowEngine) (workflow : String) (input : Json)
    (idempotencyKey : Option String)
    (delayMs : Int) (subject : Option String) : M RunId := do
  let version := (E.config workflow).bind (·.version)
  let (runId, created) ← call (.createRun
    { workflow, input, version, idempotencyKey := idempotencyKey.map .text, parentRunId := none,
      parentStepId := none, subject })
  if created then enqueue workflow runId delayMs
  return runId

def emitBlocking (E : WorkflowEngine) (event : String) (payload : Json) : M (Nat × Nat) := do
  let outcome ← call (.emitEvent event payload (E.triggerTargets event))
  return (outcome.waiters.length, outcome.triggered.length)

def cancelBlocking (runId : RunId) : M Nat := call (.cancelRunTree runId)

def sweep (now : Time) : M Nat := do
  let waiters ← call (.sweepEventTimeouts now)
  forM waiters fun w => do
    let _ ← call
      (.recordStep w.runId w.stepId .waitForEvent (some (.obj [("timedOut", .bool true)])))
    enqueue w.workflow w.runId 0
  return waiters.length

def stepResult : Except String Json → Json
  | .ok output => .obj [("output", output)]
  | .error error => .obj [("error", .str error)]

/-- The step is recorded before the guarded wake. -/
def settleParent (child : RunRow) (result : Except String Json) : M Unit := do
  match child.parentRunId, child.parentStepId with
  | some parentId, some parentStep =>
    let _ ← call (.recordStep parentId parentStep .invoke (some (stepResult result)))
    if ← call (.wakeParent parentId) then
      let some parent ← call (.getRun parentId) | throw "parent run vanished"
      enqueue parent.workflow parentId 0
  | _, _ => return ()

def applyInvoke (E : WorkflowEngine) (run : RunRow) (stepId : StepId) (childWorkflow : String)
    (input : Option Json) : M Unit := do
  match E.config childWorkflow with
  | none =>
    let error := s!"step '{stepId}': unknown workflow '{childWorkflow}'"
    let _ ← call (.runFailed run.id error)
    settleParent run (.error error)
  | some cfg =>
    let (childId, created) ← call (.createRun
      { workflow := childWorkflow, input := input.getD .null, version := cfg.version,
        idempotencyKey := some (.invoke run.id stepId), parentRunId := some run.id,
        parentStepId := some stepId, subject := none })
    if created then
      let _ ← call (.runWaitingChild run.id childId)
      enqueue childWorkflow childId 0
    else
      let some child ← call (.getRun childId) | throw "child run vanished"
      match child.status with
      | .completed =>
        let result := stepResult (.ok (child.output.getD .null))
        let _ ← call (.recordStep run.id stepId .invoke (some result))
        enqueue run.workflow run.id 0
      | .failed | .cancelled =>
        let result := stepResult (.error (child.error.getD "child run failed"))
        let _ ← call (.recordStep run.id stepId .invoke (some result))
        enqueue run.workflow run.id 0
      | _ =>
        let _ ← call (.runWaitingChild run.id childId)

def apply (E : WorkflowEngine) (run : RunRow) : ExecOutcome → M Unit
  | .completed output => do
    let _ ← call (.runCompleted run.id output)
    settleParent run (.ok (output.getD .null))
  | .failed error => do
    let _ ← call (.runFailed run.id error)
    settleParent run (.error error)
  | .sleep stepId wakeAt => do
    let _ ← call (.recordStep run.id stepId .sleep none)
    let _ ← call (.runSleeping run.id wakeAt)
    let now ← nowMs
    enqueue run.workflow run.id (max (wakeAt - now) 0)
  | .event stepId event timeoutAt matchJson => do
    let _ ← call (.runWaitingEvent run.id event stepId timeoutAt matchJson)
  | .invoke stepId workflow input => applyInvoke E run stepId workflow input
  | .stepFailed stepId error => do
    let cfg := (E.config run.workflow).getD (.new run.workflow)
    let attempts ← call (.stepFailedAttempt run.id stepId error)
    if attempts < cfg.stepMaxAttempts then
      let delay ← cfg.stepBackoff.delayFor attempts
      enqueue run.workflow run.id delay
    else
      let finalError := s!"step '{stepId}' failed after {attempts} attempts: {error}"
      let _ ← call (.runFailed run.id finalError)
      settleParent run (.error finalError)

def execute (E : WorkflowEngine) (workflow : String) (payload : Payload) : M Unit := do
  let .execution runId := payload | throw "bad execution payload"
  let some run ← call (.getRun runId) | return ()
  if run.status ≠ .runnable ∧ run.status ≠ .sleeping then
    return ()
  let journal ← call (.loadJournal runId)
  let outcome ← @Prog.op Op Val (.executor ⟨runId, workflow, run.input, run.version, journal⟩)
  let some current ← call (.getRun runId) | return ()
  if current.status = .cancelled then
    return ()
  E.apply run outcome

end WorkflowEngine

end ZenZip
