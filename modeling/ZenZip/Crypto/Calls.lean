import ZenZip.Crypto.Writes

namespace ZenZip

open Lib

namespace Store

def sweepDead (s : Store) (clock now : Time) : Store × Nat :=
  s.updateJobs (exhausted clock) (exhaustedRow now) (fun _ => rfl)

def sweepRetried (s : Store) (clock now : Time) : Store × Nat :=
  s.updateJobs (expired clock) (redeliveredRow now) (fun _ => rfl)

def renewed (leases : List (JobId × Nat)) (j : JobRow) : Bool :=
  leases.contains (j.id, j.fence) && j.status = .running

def renewedRow (leaseUntil now : Time) (j : JobRow) : JobRow :=
  { j with leaseUntil := some leaseUntil, updatedAt := now }

def deadIn (queue : String) (j : JobRow) : Bool := j.queue = queue && j.status = .dead

def deadJob (j : JobRow) : DeadJob :=
  ⟨j.id, j.queue, j.payload, j.attempt, j.lastError, j.createdAt⟩

def deadJobs (s : Store) (queue : String) (limit : Nat) : List DeadJob :=
  (((s.jobs.select (deadIn queue)).insertionSort (fun a b => b.updatedAt ≤ a.updatedAt)).take
    limit).map deadJob

def pendingCount (s : Store) (queue : String) : Nat :=
  (s.jobs.select (fun j => j.queue = queue && j.status = .pending)).length

def activeCount (s : Store) (queue : String) : Nat :=
  (s.jobs.select (SchedState.active queue)).length

def statOf (s : Store) (queue : String) : QueueStat where
  queue := queue
  pending := s.pendingCount queue
  running := (s.jobs.select (fun j => j.queue = queue && j.status = .running)).length
  dead := (s.jobs.select (deadIn queue)).length

def queueStats (s : Store) : List QueueStat :=
  ((s.jobs.rows.map (·.queue)).dedup.insertionSort (fun a b => a ≤ b)).map s.statOf

def runsList (s : Store) (workflow : Option String) (status : Option RunStatus) (limit : Nat) :
    List RunRow :=
  ((s.runs.select
    (fun r => (workflow.isNone || workflow = some r.workflow) &&
      (status.isNone || status = some r.status))
    ).insertionSort (fun a b => b.createdAt ≤ a.createdAt)).take limit

def stepsForRun (s : Store) (runId : RunId) : List StepRow :=
  (s.steps.select (fun st => st.runId = runId)).insertionSort (fun a b => a.updatedAt ≤ b.updatedAt)

def eventBefore (a b : EventRow) : Bool :=
  b.emittedAt < a.emittedAt || a.emittedAt = b.emittedAt && b.id ≤ a.id

def recentEvents (s : Store) (limit : Nat) : List EventRow :=
  (s.events.rows.insertionSort (fun a b => eventBefore a b)).take limit

end Store

/-- The row that an upsert leaves under the name it has. -/
def ScheduleRow.restored (stored r : ScheduleRow) : ScheduleRow := { stored with name := r.name }

theorem ScheduleRow.restored_name (stored r : ScheduleRow) :
    (stored.restored r).name = r.name := rfl

theorem SchedState.tickedRow_name (next now : Time) (r : ScheduleRow) :
    (tickedRow next now r).name = r.name := rfl

namespace Db

variable (E : Env)

def claim (queue : String) (limit : Nat) (leaseMs : Int) (keyLimit : Option Nat) (fair : Bool)
    (m : Moment) :
    Stmts Db (List ClaimedJob) := do
  -- the update adds `leaseMs` to the clock of the leases, and reads `m.now` otherwise
  let jobs ← engine fun s =>
    s.claim queue limit (E.leaseClock m + leaseMs - m.now) keyLimit fair m.now
  return jobs.map (ClaimedJob.mapText E.dec)

/-- Postgres claims with a window under a lock of the queue. -/
def claimLocked (queue : String) (limit : Nat) (leaseMs : Int) (keyLimit : Option Nat) (fair : Bool)
    (m : Moment) :
    Stmts Db (List ClaimedJob) := do
  ask fun _ => ()
  let jobs ← claim E queue limit leaseMs keyLimit fair m
  Stmts.commit
  return jobs

def renewLeases (leases : List (JobId × Nat)) (leaseMs : Int) (m : Moment) : Stmts Db Unit :=
  let row := Store.renewedRow (E.leaseClock m + leaseMs) (E.leaseClock m)
  match E.backend with
  | .sqlite => do
    let _ ← Stmts.each
      (fun l => engine fun s => s.updateJobs (Store.renewed [l]) row (fun _ => rfl)) leases
    Stmts.commit
  | .postgres => engine fun s => ((s.updateJobs (Store.renewed leases) row (fun _ => rfl)).1, ())

def sweepExpired (now : Time) (m : Moment) : Stmts Db Nat := do
  let clock := match E.backend with
    | .sqlite => now
    | .postgres => m.dbNow
  let dead ← engine fun s => s.sweepDead clock now
  let retried ← engine fun s => s.sweepRetried clock now
  return dead + retried

def gcRuns (before : Time) : Stmts Db (Nat × Nat) := do
  let steps ← engine fun s => s.deleteSteps (Store.aged before)
  let runs ← engine fun s => s.deleteRuns (Store.aged before)
  return (runs, steps)

def gc (runBefore eventBefore : Option Time) : Stmts Db GcStats := do
  let (runs, steps) ← (runBefore.elim (pure (0, 0)) gcRuns : Stmts Db (Nat × Nat))
  let events ← (eventBefore.elim (pure 0)
    (fun before => engine fun s => s.deleteEvents before) : Stmts Db Nat)
  Stmts.commit
  return ⟨runs, steps, events⟩

def deadJobs (queue : String) (limit : Nat) : Stmts Db (List DeadJob) := do
  let jobs ← ask fun db => db.store.deadJobs queue limit
  return jobs.map (DeadJob.mapText E.dec)

def requeueDead (ids : List JobId) (m : Moment) : Stmts Db Nat :=
  match E.backend with
  | .sqlite => do
    let changed ← Stmts.each (fun id => engine fun s => s.requeueDead [id] m.now) ids
    Stmts.commit
    return changed.foldr (· + ·) 0
  | .postgres => engine fun s => s.requeueDead ids m.now

def createRun (run : NewRun) (m : Moment) : Stmts Db (RunId × Bool) :=
  match E.backend with
  | .sqlite => createRunInner E run m.now
  | .postgres => do
    let result ← createRunInner E run m.now
    Stmts.commit
    return result

def purgeSubject (subject : String) : Stmts Db Nat := do
  let ofSubject := fun r : RunRow => decide (r.subject = some subject)
  let _ ← engine fun s => s.deleteSteps ofSubject
  let runs ← engine fun s => s.deleteRuns ofSubject
  Stmts.commit
  return runs

def getRun (id : RunId) : Stmts Db (Option RunRow) := do
  let row ← ask fun db => db.store.getRun id
  return row.map (RunRow.mapText E.dec)

def loadJournal (runId : RunId) : Stmts Db (List StepEntry) := do
  let entries ← ask fun db => db.store.loadJournal runId
  return entries.map (StepEntry.mapText E.dec)

def recordStep (runId : RunId) (stepId : StepId) (kind : StepKind) (result : Option String)
    (m : Moment) :
    Stmts Db Unit :=
  match E.backend with
  | .sqlite => recordStepInner E runId stepId kind result m.now
  | .postgres => do
    recordStepInner E runId stepId kind result m.now
    Stmts.commit

/-- Postgres clears the predicate of a wait as well. -/
def ended (f : RunRow → RunRow) (r : RunRow) : RunRow :=
  match E.backend with
  | .sqlite => f r
  | .postgres => { f r with waitMatch := none }

theorem ended_id {f : RunRow → RunRow} (hf : ∀ r, (f r).id = r.id) (r : RunRow) :
    (ended E f r).id = r.id := by
  unfold ended
  split <;> exact hf r

def updateRun (id : RunId) (f : RunRow → RunRow) (hf : ∀ r, (f r).id = r.id) : Stmts Db Unit :=
  engine fun s => (s.updateRun id (fun _ => true) f hf, ())

def runCompleted (id : RunId) (output : Option String) (m : Moment) : Stmts Db Unit :=
  sealing E fun enc s =>
    (s.updateRun id (fun _ => true)
      (ended E (Store.completedRow (output.map (fun t => .str (enc t))) m.now))
      (ended_id E (fun _ => rfl)), ())

def runFailed (id : RunId) (error : String) (m : Moment) : Stmts Db Unit :=
  updateRun id (ended E (Store.failedRow error m.now)) (ended_id E (fun _ => rfl))

/-- The predicate is stored as it is. -/
def runWaitingEvent (id : RunId) (event : String) (stepId : StepId) (timeoutAt : Option Time)
    (matchJson : Option String) (m : Moment) : Stmts Db Unit :=
  updateRun id (Store.waitingEventRow event stepId timeoutAt (matchJson.map .str) m.now)
    (fun _ => rfl)

def cancelRunTree (root : RunId) (m : Moment) : Stmts Db Nat :=
  match E.backend with
  | .sqlite => do
    let n ← engine fun s => s.cancelRunTree root m.now
    Stmts.commit
    return n
  | .postgres => engine fun s => Postgres.cancelRunTree s root m.now

def machineCreate (machine id initial : String) (m : Moment) : Stmts Db Bool :=
  .exec fun db =>
    ({ db with instances := db.instances.insert ⟨machine, id, initial, m.now, m.now⟩ },
      (db.instances.get? (machine, id)).isNone)

def moveInstance (machine id fromState toState : String) (m : Moment) : Stmts Db Bool :=
  .exec fun db =>
    let p := MachineStore.inState machine id fromState
    ({ db with
      instances := db.instances.update p (MachineStore.movedRow toState m.now) (fun _ => rfl) },
      !(db.instances.select p).isEmpty)

def addHistory (row : HistoryRow) : Stmts Db Unit :=
  .exec fun db => ({ db with history := db.history ++ [row] }, ())

def sendMoved (machine id fromState event toState eventName payload : String)
    (targets : List TriggerTarget)
    (m : Moment) : Stmts Db (Option EmitOutcome) := do
  addHistory ⟨machine, id, fromState, event, toState, m.now⟩
  let outcome ← emitInTx E eventName payload targets m
  Stmts.commit
  return some outcome

def machineSend (machine id fromState event toState eventName payload : String)
    (targets : List TriggerTarget)
    (m : Moment) : Stmts Db (Option EmitOutcome) := do
  let changed ← moveInstance machine id fromState toState m
  if changed then sendMoved E machine id fromState event toState eventName payload targets m
  else return none

def machineHistory (machine id : String) (limit : Nat) : Stmts Db (List HistoryRow) :=
  ask fun db =>
    ((db.historyOf machine id).reverse.insertionSort (fun a b => b.at' ≤ a.at')).take limit

def agentSessionGet (agent id : String) : Stmts Db (Option String) :=
  ask fun db => (db.sessions.get? (agent, id)).map (·.messages)

def agentSessionPut (agent id messages : String) (m : Moment) : Stmts Db Unit :=
  .exec fun db =>
    let row : SessionRow := ⟨agent, id, messages, m.now, m.now⟩
    ({ db with
      sessions :=
        db.sessions.upsert row (fun r => { r with messages, updatedAt := m.now }) (fun _ => rfl) },
      ())

def runsList (workflow : Option String) (status : Option RunStatus) (limit : Nat) :
    Stmts Db (List RunRow) := do
  let rows ← ask fun db => db.store.runsList workflow status limit
  return rows.map (RunRow.mapText E.dec)

def stepsForRun (runId : RunId) : Stmts Db (List StepRow) := do
  let rows ← ask fun db => db.store.stepsForRun runId
  return rows.map (StepRow.mapText E.dec)

def recentEvents (limit : Nat) : Stmts Db (List EventRow) := do
  let rows ← ask fun db => db.store.recentEvents limit
  return rows.map (EventRow.mapText E.dec)

def allSchedules : Stmts Db (List ScheduleRow) :=
  ask fun db => db.schedules.rows.insertionSort (fun a b => a.name ≤ b.name)

def storeSchedule (row : ScheduleRow) : Stmts Db ScheduleRow := do
  let existing ← ask fun db => db.schedules.get? row.name
  let stored := row.merged existing
  .exec fun db =>
    ({ db with schedules := db.schedules.upsert stored stored.restored stored.restored_name },
      stored)

def upsertSchedule (row : ScheduleRow) : Stmts Db ScheduleRow :=
  match E.backend with
  | .sqlite => storeSchedule row
  | .postgres => do
    let stored ← storeSchedule row
    Stmts.commit
    return stored

def setScheduleNext (name : String) (nextRunAt : Time) (lastRunAt : Option Time) : Stmts Db Unit :=
  .exec fun db =>
    let timed := fun r : ScheduleRow => { r with nextRunAt, lastRunAt := lastRunAt.or r.lastRunAt }
    ({ db with schedules := db.schedules.update (fun r => r.name = name) timed (fun _ => rfl) }, ())

def scheduleClaimTick (name : String) (observedNext newNext firedAt : Time) : Stmts Db Bool :=
  .exec fun db =>
    let p := SchedState.atTick name observedNext
    let schedules := db.schedules.update p _ (SchedState.tickedRow_name newNext firedAt)
    ({ db with schedules }, !(db.schedules.select p).isEmpty)

end Db

/-- The calls of the store. A payload is a text: `Json.str` in a row, `Payload.text` in a job. -/
inductive StoreCall
  | push (jobs : List PushJob)
  | claim (queue : String) (limit : Nat) (leaseMs : Int) (keyLimit : Option Nat) (fair : Bool)
  | ack (id : JobId) (fence : Nat)
  | failRetry (id : JobId) (error : String) (availableAt : Time) (fence : Nat)
  | failDead (id : JobId) (error : String) (fence : Nat)
  | renewLeases (leases : List (JobId × Nat)) (leaseMs : Int)
  | ping
  | sweepExpired (now : Time)
  | gc (runBefore eventBefore : Option Time)
  | pendingCount (queue : String)
  | activeCount (queue : String)
  | deadJobs (queue : String) (limit : Nat)
  | requeueDead (ids : List JobId)
  | purgeDead (queue : String)
  | createRun (run : NewRun)
  | purgeSubject (subject : String)
  | getRun (id : RunId)
  | loadJournal (runId : RunId)
  | recordStep (runId : RunId) (stepId : StepId) (kind : StepKind) (result : Option String)
  | stepFailedAttempt (runId : RunId) (stepId : StepId) (error : String)
  | runCompleted (id : RunId) (output : Option String)
  | runFailed (id : RunId) (error : String)
  | runSleeping (id : RunId) (wakeAt : Time)
  | runWaitingEvent (id : RunId) (event : String) (stepId : StepId) (timeoutAt : Option Time)
    (matchJson : Option String)
  | runWaitingChild (id : RunId)
  | wakeParent (id : RunId)
  | emitEvent (name payload : String) (targets : List TriggerTarget)
  | machineCreate (machine id initial : String)
  | machineState (machine id : String)
  | machineSend (machine id fromState event toState eventName payload : String)
    (targets : List TriggerTarget)
  | machineHistory (machine id : String) (limit : Nat)
  | agentSessionGet (agent id : String)
  | agentSessionPut (agent id messages : String)
  | runsList (workflow : Option String) (status : Option RunStatus) (limit : Nat)
  | stepsForRun (runId : RunId)
  | queueStats
  | allSchedules
  | recentEvents (limit : Nat)
  | sweepEventTimeouts (now : Time)
  | cancelRunTree (root : RunId)
  | upsertSchedule (row : ScheduleRow)
  | dueSchedules (now : Time)
  | setScheduleNext (name : String) (nextRunAt : Time) (lastRunAt : Option Time)
  | scheduleClaimTick (name : String) (observedNext newNext firedAt : Time)

namespace StoreCall

abbrev Ret : StoreCall → Type
  | .push _ => List JobId
  | .claim _ _ _ _ _ => List ClaimedJob
  | .gc _ _ => GcStats
  | .deadJobs _ _ => List DeadJob
  | .createRun _ => RunId × Bool
  | .getRun _ => Option RunRow
  | .loadJournal _ => List StepEntry
  | .wakeParent _ | .machineCreate _ _ _ | .scheduleClaimTick _ _ _ _ => Bool
  | .emitEvent _ _ _ => EmitOutcome
  | .machineState _ _ | .agentSessionGet _ _ => Option String
  | .machineSend _ _ _ _ _ _ _ _ => Option EmitOutcome
  | .machineHistory _ _ _ => List HistoryRow
  | .runsList _ _ _ => List RunRow
  | .stepsForRun _ => List StepRow
  | .queueStats => List QueueStat
  | .allSchedules | .dueSchedules _ => List ScheduleRow
  | .recentEvents _ => List EventRow
  | .sweepEventTimeouts _ => List Waiter
  | .upsertSchedule _ => ScheduleRow
  | .sweepExpired _ | .pendingCount _ | .activeCount _ | .requeueDead _ | .purgeDead
    _ | .purgeSubject _
  | .stepFailedAttempt _ _ _ | .cancelRunTree _ => Nat
  | .ack _ _ | .failRetry _ _ _ _ | .failDead _ _ _ | .renewLeases _ _ | .ping | .recordStep _ _ _ _
  | .runCompleted _ _ | .runFailed _ _ | .runSleeping _ _ | .runWaitingEvent
    _ _ _ _ _ | .runWaitingChild _
  | .agentSessionPut _ _ _ | .setScheduleNext _ _ _ => Unit

def stmts (E : Env) (m : Moment) : (c : StoreCall) → Stmts Db c.Ret
  | .push jobs => Db.pushInner E jobs m.now
  | .claim queue limit leaseMs keyLimit fair =>
    if E.backend = .postgres ∧ (fair = true ∨ keyLimit.isSome = true) then
      Db.claimLocked E queue limit leaseMs keyLimit fair m
    else Db.claim E queue limit leaseMs keyLimit fair m
  | .ack id fence => Db.engine fun s => (s.ack id fence, ())
  | .failRetry id error availableAt fence =>
      Db.engine fun s => (s.failRetry id error availableAt fence m.now, ())
  | .failDead id error fence => Db.engine fun s => (s.failDead id error fence m.now, ())
  | .renewLeases leases leaseMs => Db.renewLeases E leases leaseMs m
  | .ping => Db.ask fun _ => ()
  | .sweepExpired now => Db.sweepExpired E now m
  | .gc runBefore eventBefore => Db.gc runBefore eventBefore
  | .pendingCount queue => Db.ask fun db => db.store.pendingCount queue
  | .activeCount queue => Db.ask fun db => db.store.activeCount queue
  | .deadJobs queue limit => Db.deadJobs E queue limit
  | .requeueDead ids => Db.requeueDead E ids m
  | .purgeDead queue => Db.engine fun s => s.purgeDead queue
  | .createRun run => Db.createRun E run m
  | .purgeSubject subject => Db.purgeSubject subject
  | .getRun id => Db.getRun E id
  | .loadJournal runId => Db.loadJournal E runId
  | .recordStep runId stepId kind result => Db.recordStep E runId stepId kind result m
  | .stepFailedAttempt runId stepId error =>
      Db.engine fun s => s.stepFailedAttempt runId stepId error m.now
  | .runCompleted id output => Db.runCompleted E id output m
  | .runFailed id error => Db.runFailed E id error m
  | .runSleeping id wakeAt => Db.updateRun id (Store.sleepingRow wakeAt m.now) (fun _ => rfl)
  | .runWaitingEvent id event stepId timeoutAt matchJson =>
      Db.runWaitingEvent id event stepId timeoutAt matchJson m
  | .runWaitingChild id => Db.updateRun id (Store.waitingChildRow m.now) (fun _ => rfl)
  | .wakeParent id => Db.engine fun s => s.wakeParent id m.now
  | .emitEvent name payload targets => Db.emitEvent E name payload targets m
  | .machineCreate machine id initial => Db.machineCreate machine id initial m
  | .machineState machine id => Db.ask fun db => db.machineState machine id
  | .machineSend machine id fromState event toState eventName payload targets =>
    Db.machineSend E machine id fromState event toState eventName payload targets m
  | .machineHistory machine id limit => Db.machineHistory machine id limit
  | .agentSessionGet agent id => Db.agentSessionGet agent id
  | .agentSessionPut agent id messages => Db.agentSessionPut agent id messages m
  | .runsList workflow status limit => Db.runsList E workflow status limit
  | .stepsForRun runId => Db.stepsForRun E runId
  | .queueStats => Db.ask fun db => db.store.queueStats
  | .allSchedules => Db.allSchedules
  | .recentEvents limit => Db.recentEvents E limit
  | .sweepEventTimeouts now => Db.engine fun s => s.sweepEventTimeouts now (E.lockedRows m)
  | .cancelRunTree root => Db.cancelRunTree E root m
  | .upsertSchedule row => Db.upsertSchedule E row
  | .dueSchedules now => Db.ask fun db => db.schedules.select (SchedState.due now)
  | .setScheduleNext name nextRunAt lastRunAt => Db.setScheduleNext name nextRunAt lastRunAt
  | .scheduleClaimTick name observedNext newNext firedAt =>
      Db.scheduleClaimTick name observedNext newNext firedAt

/-- The calls that run in a transaction. The statements of the others commit one by one. -/
def inTransaction (E : Env) : StoreCall → Bool
  | .push _ | .gc _ _ | .purgeSubject _ | .emitEvent _ _ _ | .machineSend _ _ _ _ _ _ _ _ => true
  | .renewLeases _ _ | .requeueDead _ | .cancelRunTree _ => E.backend = .sqlite
  | .claim _ _ _ keyLimit fair => E.backend = .postgres && (fair || keyLimit.isSome)
  | .createRun _ | .recordStep _ _ _ _ | .upsertSchedule _ => E.backend = .postgres
  | _ => false

def perform (E : Env) (m : Moment) (fault : Fault) (c : StoreCall) (db : Db) :
    Except String c.Ret × Db :=
  if c.inTransaction E then (c.stmts E m).atomic db fault else (c.stmts E m).auto db fault

/-- A call, when it is made, and where it fails. -/
structure Request where
  call : StoreCall
  at' : Moment
  fault : Fault

abbrev Reply := (c : StoreCall) × Except String c.Ret

def serve (E : Env) (db : Db) (r : Request) : Db × Reply :=
  let (reply, db) := r.call.perform E r.at' r.fault db
  (db, ⟨r.call, reply⟩)

def serveAll (E : Env) (db : Db) (rs : List Request) : Db × List Reply := mapAccum (serve E) db rs

end StoreCall

end ZenZip
