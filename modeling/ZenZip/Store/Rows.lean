import ZenZip.Json
import ZenZip.Lib.Table

namespace ZenZip

abbrev RunId := Nat
abbrev JobId := Nat
abbrev StepId := String

/-- Milliseconds, as `now_ms` gives them. -/
abbrev Time := Int

inductive JobStatus
  | pending | running | dead
  deriving DecidableEq

inductive RunStatus
  | runnable | sleeping | waitEvent | waitChild | completed | failed | cancelled
  deriving DecidableEq

namespace RunStatus

/-- `status >= COMPLETED`. -/
def terminal : RunStatus → Bool
  | .completed | .failed | .cancelled => true
  | _ => false

/-- The statuses in which `execute` runs the workflow function. -/
def executable : RunStatus → Bool
  | .runnable | .sleeping => true
  | _ => false

def parked : RunStatus → Bool
  | .waitEvent | .waitChild => true
  | _ => false

theorem cases_executable_parked_terminal (s : RunStatus) :
    s.executable = true ∨ s.parked = true ∨ s.terminal = true := by
  cases s <;> decide

end RunStatus

inductive StepKind
  | run | sleep | waitForEvent | invoke
  deriving DecidableEq

/-- The payload of a job: `{"runId": ...}` as `workflow_execution_job` writes it,
or a caller's own. -/
inductive Payload
  | execution (runId : RunId)
  | data (value : Json)
  deriving DecidableEq

/-- A caller's key, or the engine's `zenzip.invoke:<run>:<step>`. -/
inductive IdempotencyKey
  | text (key : String)
  | invoke (runId : RunId) (stepId : StepId)
  deriving DecidableEq

structure JobRow where
  id : JobId
  queue : String
  payload : Payload
  status : JobStatus
  priority : Int
  attempt : Nat
  maxAttempts : Nat
  availableAt : Time
  leaseUntil : Option Time
  lastError : Option String
  fence : Nat
  concurrencyKey : Option String
  debounceKey : Option String
  createdAt : Time
  updatedAt : Time
  deriving DecidableEq

structure RunRow where
  id : RunId
  workflow : String
  status : RunStatus
  input : Json
  output : Option Json
  error : Option String
  version : Option String
  idempotencyKey : Option IdempotencyKey
  parentRunId : Option RunId
  parentStepId : Option StepId
  waitEvent : Option String
  waitStepId : Option StepId
  waitMatch : Option Json
  wakeAt : Option Time
  subject : Option String
  createdAt : Time
  updatedAt : Time
  deriving DecidableEq

structure StepRow where
  runId : RunId
  stepId : StepId
  kind : StepKind
  completed : Bool
  result : Option Json
  error : Option String
  attempts : Nat
  updatedAt : Time
  deriving DecidableEq

namespace StepRow

def key (s : StepRow) : RunId × StepId := (s.runId, s.stepId)

end StepRow

structure EventRow where
  id : Nat
  name : String
  payload : Json
  emittedAt : Time
  deriving DecidableEq

structure ThrottleCursor where
  queue : String
  tkey : String
  nextAt : Time
  deriving DecidableEq

namespace ThrottleCursor

def key (c : ThrottleCursor) : String × String := (c.queue, c.tkey)

end ThrottleCursor

structure PushJob where
  queue : String
  payload : Payload
  priority : Int
  delayMs : Int
  maxAttempts : Nat
  concurrencyKey : Option String
  debounceKey : Option String
  throttleKey : Option String
  throttleSpacingMs : Option Int
  deriving DecidableEq

structure ClaimedJob where
  id : JobId
  queue : String
  payload : Payload
  attempt : Nat
  maxAttempts : Nat
  fence : Nat
  deriving DecidableEq

structure NewRun where
  workflow : String
  input : Json
  version : Option String
  idempotencyKey : Option IdempotencyKey
  parentRunId : Option RunId
  parentStepId : Option StepId
  subject : Option String
  deriving DecidableEq

structure StepEntry where
  id : StepId
  kind : StepKind
  result : Option Json
  deriving DecidableEq

structure Waiter where
  runId : RunId
  workflow : String
  stepId : StepId
  deriving DecidableEq

structure TriggerTarget where
  workflow : String
  version : Option String
  deriving DecidableEq

structure TriggeredRun where
  workflow : String
  runId : RunId
  deriving DecidableEq

structure EmitOutcome where
  eventId : Nat
  waiters : List Waiter
  triggered : List TriggeredRun
  deriving DecidableEq

structure GcStats where
  runs : Nat
  steps : Nat
  events : Nat
  deriving DecidableEq

def workflowQueueName (name : String) : String := "zenzip.workflow." ++ name

def workflowExecutionJob (workflow : String) (runId : RunId) (delayMs : Int) : PushJob where
  queue := workflowQueueName workflow
  payload := .execution runId
  priority := 0
  delayMs := delayMs
  maxAttempts := 3
  concurrencyKey := none
  debounceKey := none
  throttleKey := none
  throttleSpacingMs := none

/-- The database. `nextId` stands for the supply of UUIDs v7: every id is used once and
later ids are greater. -/
structure Store where
  jobs : Lib.Table JobRow.id
  runs : Lib.Table RunRow.id
  steps : Lib.Table StepRow.key
  events : Lib.Table EventRow.id
  throttleCursors : Lib.Table ThrottleCursor.key
  nextId : Nat

namespace Store

def empty : Store := ⟨.empty, .empty, .empty, .empty, .empty, 0⟩

end Store

end ZenZip
