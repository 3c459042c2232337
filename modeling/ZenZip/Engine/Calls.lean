import ZenZip.Store.Emit
import ZenZip.Lib.Pool

namespace ZenZip

open Lib

inductive ExecOutcome
  | completed (output : Option Json)
  | sleep (stepId : StepId) (wakeAt : Time)
  | event (stepId : StepId) (event : String) (timeoutAt : Option Time) (matchJson : Option Json)
  | invoke (stepId : StepId) (workflow : String) (input : Option Json)
  | stepFailed (stepId : StepId) (error : String)
  | failed (error : String)
  deriving DecidableEq

namespace ExecOutcome

def stepId? : ExecOutcome → Option StepId
  | .sleep s _ | .event s _ _ _ | .invoke s _ _ | .stepFailed s _ => some s
  | .completed _ | .failed _ => none

/-- `apply` records the step of a sleep at once, and that of an invoke when it
finds the child ended. -/
def records : ExecOutcome → StepId → StepKind → Bool
  | .sleep s _, stepId, kind => s = stepId && kind = .sleep
  | .invoke s _ _, stepId, kind => s = stepId && kind = .invoke
  | _, _, _ => false

end ExecOutcome

structure ExecRequest where
  runId : RunId
  workflow : String
  input : Json
  version : Option String
  journal : List StepEntry
  deriving DecidableEq

/-- The store calls of the engine and of the runtime around it. The `child` of
`runWaitingChild` is no column: it is kept for the history of the run. -/
inductive Call
  | push (jobs : List PushJob)
  | ack (id : JobId) (fence : Nat)
  | failRetry (id : JobId) (error : String) (availableAt : Time) (fence : Nat)
  | failDead (id : JobId) (error : String) (fence : Nat)
  | sweepExpired (now : Time)
  | requeueDead (ids : List JobId)
  | purgeDead (queue : String)
  | gc (runBefore eventBefore : Option Time)
  | purgeSubject (subject : String)
  | createRun (run : NewRun)
  | getRun (id : RunId)
  | loadJournal (runId : RunId)
  | recordStep (runId : RunId) (stepId : StepId) (kind : StepKind) (result : Option Json)
  | stepFailedAttempt (runId : RunId) (stepId : StepId) (error : String)
  | runCompleted (id : RunId) (output : Option Json)
  | runFailed (id : RunId) (error : String)
  | runSleeping (id : RunId) (wakeAt : Time)
  | runWaitingEvent (id : RunId) (event : String) (stepId : StepId) (timeoutAt : Option Time)
      (matchJson : Option Json)
  | runWaitingChild (id : RunId) (child : RunId)
  | wakeParent (id : RunId)
  | emitEvent (name : String) (payload : Json) (targets : List TriggerTarget)
  | sweepEventTimeouts (now : Time)
  | cancelRunTree (root : RunId)
  deriving DecidableEq

namespace Call

abbrev Ret : Call → Type
  | .push _ => List JobId
  | .sweepExpired _ | .requeueDead _ | .purgeDead _ | .purgeSubject _ | .cancelRunTree _ => Nat
  | .gc _ _ => GcStats
  | .createRun _ => RunId × Bool
  | .getRun _ => Option RunRow
  | .loadJournal _ => List StepEntry
  | .stepFailedAttempt _ _ _ => Nat
  | .wakeParent _ => Bool
  | .emitEvent _ _ _ => EmitOutcome
  | .sweepEventTimeouts _ => List Waiter
  | .ack _ _ | .failRetry _ _ _ _ | .failDead _ _ _ | .recordStep _ _ _ _ | .runCompleted _ _
  | .runFailed _ _ | .runSleeping _ _ | .runWaitingEvent _ _ _ _ _ | .runWaitingChild _ _ => Unit

/-- Every call is one transaction of the store. -/
def perform (s : Store) (now : Time) (locked : List RunId) : (c : Call) → Store × c.Ret
  | .push jobs => s.push jobs now
  | .ack id fence => (s.ack id fence, ())
  | .failRetry id error availableAt fence => (s.failRetry id error availableAt fence now, ())
  | .failDead id error fence => (s.failDead id error fence now, ())
  | .sweepExpired at' => s.sweepExpired at'
  | .requeueDead ids => s.requeueDead ids now
  | .purgeDead queue => s.purgeDead queue
  | .gc runBefore eventBefore => s.gc runBefore eventBefore
  | .purgeSubject subject => s.purgeSubject subject
  | .createRun run => s.createRun run now
  | .getRun id => (s, s.getRun id)
  | .loadJournal runId => (s, s.loadJournal runId)
  | .recordStep runId stepId kind result => (s.recordStep runId stepId kind result now, ())
  | .stepFailedAttempt runId stepId error => s.stepFailedAttempt runId stepId error now
  | .runCompleted id output => (s.runCompleted id output now, ())
  | .runFailed id error => (s.runFailed id error now, ())
  | .runSleeping id wakeAt => (s.runSleeping id wakeAt now, ())
  | .runWaitingEvent id event stepId timeoutAt matchJson =>
    (s.runWaitingEvent id event stepId timeoutAt matchJson now, ())
  | .runWaitingChild id _ => (s.runWaitingChild id now, ())
  | .wakeParent id => s.wakeParent id now
  | .emitEvent name payload targets => s.emitInTx name payload targets locked now
  | .sweepEventTimeouts timeout => s.sweepEventTimeouts timeout locked
  | .cancelRunTree root => s.cancelRunTree root now

end Call

inductive Op
  | store (c : Call)
  | nowMs
  | fastrand (hi : Int)
  | executor (req : ExecRequest)

abbrev Val : Op → Type
  | .store c => c.Ret
  | .nowMs => Time
  | .fastrand _ => Int
  | .executor _ => ExecOutcome

abbrev M := Prog Val

def call (c : Call) : M c.Ret := @Prog.op Op Val (.store c)

def nowMs : M Time := @Prog.op Op Val .nowMs

end ZenZip
