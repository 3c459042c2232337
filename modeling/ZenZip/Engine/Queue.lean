import ZenZip.Engine.Workflow

namespace ZenZip

open Lib

inductive Reply
  | done
  | run (id : RunId)
  | count (n : Nat)
  | emitted (woken triggered : Nat)
  | collected (stats : GcStats)
  deriving DecidableEq

/-- `run_group` for the execution job of a workflow, whose groups have one job. -/
def runGroup (E : WorkflowEngine) (workflow : String) (job : ClaimedJob) : M Reply := do
  match ← (E.execute workflow job.payload).attempt with
  | .ok () =>
    let _ ← (call (.ack job.id job.fence)).attempt
  | .error message =>
    if job.maxAttempts ≤ job.attempt then
      let _ ← (call (.failDead job.id message job.fence)).attempt
    else
      let now ← nowMs
      let delay ← Backoff.default.delayFor job.attempt
      let _ ← (call (.failRetry job.id message (now + delay) job.fence)).attempt
  return .done

end ZenZip
