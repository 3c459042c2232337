import ZenZip.Crypto.Db

namespace ZenZip

open Lib

def executionPayload (id : RunId) : String := "\x7b\"runId\":\"" ++ toString id ++ "\"\x7d"

def executionJob (workflow : String) (id : RunId) (delayMs : Int) : PushJob :=
  { workflowExecutionJob workflow id delayMs with payload := .text (executionPayload id) }

/-- The journal entry of an event, put together by hand. -/
def eventEntry (payload : String) : String := "\x7b\"event\":" ++ payload ++ "\x7d"

/-- What an emit reads of a run that awaits its event. -/
structure Candidate where
  id : RunId
  workflow : String
  waitStepId : Option StepId
  waitMatch : Option Json
  deriving DecidableEq

namespace Store

def setCursor (s : Store) (queue tkey : String) (next : Time) : Store :=
  { s with
    throttleCursors := s.throttleCursors.upsert ⟨queue, tkey, next⟩
      (fun c => { c with nextAt := next }) (fun _ => rfl) }

def dropDebounced (s : Store) (job : PushJob) : Store :=
  { s with jobs := s.jobs.delete (debounced job) }

def addJob (s : Store) (job : PushJob) (availableAt now : Time) : Store × JobId :=
  ({ s with jobs := s.jobs.insert (newJobRow job s.nextId availableAt now), nextId := s.nextId + 1 }, s.nextId)

def addEvent (s : Store) (name : String) (payload : Json) (now : Time) : Store × Nat :=
  ({ s with events := s.events.insert ⟨s.nextId, name, payload, now⟩, nextId := s.nextId + 1 },
    s.nextId)

def deleteSteps (s : Store) (p : RunRow → Bool) : Store × Nat :=
  let ofRuns := fun st : StepRow => (s.runs.get? st.runId).any p
  ({ s with steps := s.steps.delete ofRuns }, (s.steps.select ofRuns).length)

def deleteRuns (s : Store) (p : RunRow → Bool) : Store × Nat :=
  ({ s with runs := s.runs.delete p }, (s.runs.select p).length)

def deleteEvents (s : Store) (before : Time) : Store × Nat :=
  let p := fun e : EventRow => decide (e.emittedAt < before)
  ({ s with events := s.events.delete p }, (s.events.select p).length)

def updateJobs (s : Store) (p : JobRow → Bool) (f : JobRow → JobRow) (hf : ∀ j, (f j).id = j.id) :
    Store × Nat :=
  ({ s with jobs := s.jobs.update p f hf }, (s.jobs.select p).length)

def exhausted (clock : Time) (j : JobRow) : Bool :=
  expired clock j && decide (j.maxAttempts ≤ j.attempt)

def exhaustedRow (now : Time) (j : JobRow) : JobRow :=
  { j with status := .dead, leaseUntil := none, lastError := some (j.lastError.getD "lease expired"), updatedAt := now }

def redeliveredRow (now : Time) (j : JobRow) : JobRow :=
  { j with status := .pending, leaseUntil := none, availableAt := now, updatedAt := now }

def awaiting (name : String) (locked : List RunId) (r : RunRow) : Bool :=
  r.status = .waitEvent && r.waitEvent = some name && r.id ∉ locked

theorem wokenRow_id (now : Time) (r : RunRow) : (wokenRow now r).id = r.id := rfl

def candidate (r : RunRow) : Candidate := ⟨r.id, r.workflow, r.waitStepId, r.waitMatch⟩

def candidates (s : Store) (name : String) (locked : List RunId) : List Candidate :=
  (s.runs.select (awaiting name locked)).map candidate

end Store

namespace Db

variable (E : Env)

def collapse (job : PushJob) : Stmts Db Unit :=
  if job.debounceKey.isSome then engine fun s => (s.dropDebounced job, ()) else pure ()

/-- Throttle takes the next start of its cursor in place of the delay. -/
def startAt (job : PushJob) (now : Time) : Stmts Db Time :=
  match job.throttleKey, job.throttleSpacingMs, E.backend with
  | some tkey, some spacing, .sqlite => do
    let start ← ask fun db => db.store.throttleStart job tkey now
    engine fun s => (s.setCursor job.queue tkey (start + max spacing 0), ())
    return start
  | some tkey, some spacing, .postgres => engine fun s =>
    (s.setCursor job.queue tkey (s.throttleStart job tkey now + max spacing 0),
      s.throttleStart job tkey now)
  | _, _, _ => pure (now + max job.delayMs 0)

/-- `pg_notify` for the other nodes. -/
def notify : Stmts Db Unit :=
  match E.backend with
  | .sqlite => pure ()
  | .postgres => ask fun _ => ()

def insertJobRow (job : PushJob) (now : Time) : Stmts Db JobId := do
  collapse job
  let availableAt ← startAt E job now
  let id ← sealing E fun enc s =>
    s.addJob { job with payload := job.payload.mapText enc } availableAt now
  notify E
  return id

def pushInner (jobs : List PushJob) (now : Time) : Stmts Db (List JobId) := do
  let ids ← Stmts.each (fun job => insertJobRow E job now) jobs
  Stmts.commit
  return ids

def runOfKey (run : NewRun) : Stmts Db (Option RunId) :=
  match run.idempotencyKey with
  | none => pure none
  | some key => ask fun db => db.store.runOfKey run.workflow (some key)

def createRunInner (run : NewRun) (now : Time) : Stmts Db (RunId × Bool) := do
  match ← runOfKey run with
  | some id => return (id, false)
  | none =>
      sealing E fun enc s =>
        (s.addRun { run with input := run.input.mapText enc } now, (s.nextId, true))

def recordStepInner (runId : RunId) (stepId : StepId) (kind : StepKind) (result : Option String)
    (now : Time) :
    Stmts Db Unit :=
  sealing E fun enc s =>
    (s.recordStep runId stepId kind (result.map (fun t => .str (enc t))) now, ())

def parsed : Json → Option Json
  | .str t => E.serde.fromStr t
  | _ => none

def wakes (payload : Json) (waitMatch : Option Json) : Bool :=
  matchSubset (waitMatch.bind (parsed E)) payload

def releaseWaiter (payload : String) (now : Time) (c : Candidate) : Stmts Db Waiter := do
  engine fun s =>
    (s.updateRun c.id (fun _ => true) (Store.wokenRow now) (Store.wokenRow_id now), ())
  let stepId := c.waitStepId.getD ""
  recordStepInner E c.id stepId .waitForEvent (some (eventEntry payload)) now
  let _ ← insertJobRow E (executionJob c.workflow c.id 0) now
  return ⟨c.id, c.workflow, stepId⟩

def executeNew (workflow : String) (now : Time) : RunId × Bool → Stmts Db (Option TriggeredRun)
  | (id, true) => do
    let _ ← insertJobRow E (executionJob workflow id 0) now
    return some ⟨workflow, id⟩
  | (_, false) => return none

def startTarget (input : String) (now : Time) (t : TriggerTarget) :
    Stmts Db (Option TriggeredRun) := do
  let result ← createRunInner E (Store.targetRun (.str input) t) now
  executeNew E t.workflow now result

def emitInTx (name payload : String) (targets : List TriggerTarget) (m : Moment) :
    Stmts Db EmitOutcome := do
  let value := (E.serde.fromStr payload).getD .null
  let eventId ← sealing E fun enc s => s.addEvent name (.str (enc payload)) m.now
  let candidates ← ask fun db => db.store.candidates name (E.lockedRows m)
  let waiters ← Stmts.each (releaseWaiter E payload m.now)
    (candidates.filter (fun c => wakes E value c.waitMatch))
  let input := E.serde.toString (Store.eventInput name value m.now)
  let triggered ← Stmts.each (startTarget E input m.now) targets
  return ⟨eventId, waiters, triggered.filterMap id⟩

def emitEvent (name payload : String) (targets : List TriggerTarget) (m : Moment) :
    Stmts Db EmitOutcome := do
  let outcome ← emitInTx E name payload targets m
  Stmts.commit
  return outcome

end Db

end ZenZip
