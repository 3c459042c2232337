import ZenZip.Engine.Queue
import ZenZip.Lib.Run
import Mathlib.Logic.Function.Basic

namespace ZenZip

open Lib

/-- The work a client, an operator or the runtime's own timers start. -/
inductive Task
  | trigger (workflow : String) (input : Json) (idempotencyKey : Option String) (delayMs : Int)
      (subject : Option String)
  | emit (name : String) (payload : Json)
  | cancel (runId : RunId)
  | sweep
  | sweepExpired
  | push (jobs : List PushJob)
  | requeueDead (ids : List JobId)
  | purgeDead (queue : String)
  | gc (runBefore eventBefore : Option Time)
  | purgeSubject (subject : String)
  deriving DecidableEq

namespace Task

def prog (E : WorkflowEngine) : Task → M Reply
  | .trigger workflow input key delayMs subject => do
    let id ← E.triggerBlocking workflow input key delayMs subject
    return .run id
  | .emit name payload => do
    let (woken, triggered) ← E.emitBlocking name payload
    return .emitted woken triggered
  | .cancel runId => do
    let n ← WorkflowEngine.cancelBlocking runId
    return .count n
  | .sweep => do
    let now ← nowMs
    let n ← WorkflowEngine.sweep now
    return .count n
  | .sweepExpired => do
    let now ← nowMs
    let n ← call (.sweepExpired now)
    return .count n
  | .push jobs => do
    let _ ← call (.push jobs)
    return .done
  | .requeueDead ids => do
    let n ← call (.requeueDead ids)
    return .count n
  | .purgeDead queue => do
    let n ← call (.purgeDead queue)
    return .count n
  | .gc runBefore eventBefore => do
    let stats ← call (.gc runBefore eventBefore)
    return .collected stats
  | .purgeSubject subject => do
    let n ← call (.purgeSubject subject)
    return .count n

/-- Callers push payloads of their own, never execution jobs. -/
def admissible : Task → Bool
  | .push jobs => jobs.all (fun j => match j.payload with
    | .execution _ => false
    | .data _ => true)
  | _ => true

end Task

inductive Kind
  | worker (workflow : String) (job : ClaimedJob)
  | task (t : Task)
  deriving DecidableEq

namespace Kind

def run? : Kind → Option RunId
  | .worker _ job => match job.payload with
    | .execution id => some id
    | .data _ => none
  | .task _ => none

def job? : Kind → Option ClaimedJob
  | .worker _ job => some job
  | .task _ => none

def isWorker (k : Kind) : Bool := k.job?.isSome

end Kind

/-- The database, the clock, and for each parked parent the child it waits for,
which no column of the database says. -/
structure State where
  store : Store
  clock : Time
  parkedOn : RunId → Option RunId

inductive Choice
  | ok (locked : List RunId)
  | fail (e : String)
  | outcome (o : Except String ExecOutcome)
  | draw (n : Int)

namespace State

def parks (parkedOn : RunId → Option RunId) : Call → RunId → Option RunId
  | .runWaitingChild id child => Function.update parkedOn id (some child)
  | _ => parkedOn

/-- A store call is carried out, or fails and changes nothing; the executor
answers as it likes. -/
def exec (s : State) (ch : Choice) : (c : Op) → Config.Answer State Val c
  | .store c => match ch with
    | .ok locked => some (⟨(c.perform s.store s.clock locked).1, s.clock, parks s.parkedOn c⟩,
        .ok (c.perform s.store s.clock locked).2)
    | .fail e => some (s, .error e)
    | _ => none
  | .nowMs => match ch with
    | .ok _ => some (s, .ok s.clock)
    | _ => none
  | .fastrand hi => match ch with
    | .draw n => if 0 ≤ n ∧ n ≤ hi then some (s, .ok n) else none
    | _ => none
  | .executor _ => match ch with
    | .outcome o => some (s, o)
    | _ => none

end State

abbrev Worker := Thread Val Kind Reply

abbrev Sys := Config State Val Kind Reply

namespace Sys

def store (σ : Sys) : Store := σ.shared.store

def clock (σ : Sys) : Time := σ.shared.clock

/-- An empty database at some time, and nothing in flight. -/
def init (s : Store) (clock : Time) : Sys := ⟨⟨s, clock, fun _ => none⟩, []⟩

def withStore (σ : Sys) (s : Store) : Sys := { σ with shared := { σ.shared with store := s } }

end Sys

def crashed (t : Worker) : Bool :=
  match t.prog with
  | .throw _ => true
  | _ => false

def workerThread (E : WorkflowEngine) (workflow : String) (job : ClaimedJob) : Worker :=
  ⟨.worker workflow job, [], runGroup E workflow job⟩

def taskThread (E : WorkflowEngine) (t : Task) : Worker := ⟨.task t, [], t.prog E⟩

inductive Label
  | tick (d : Nat)
  | spawn (task : Task)
  | claim (workflow : String) (limit : Nat)
  | call (i : Nat) (ch : Choice)
  | crash (i : Nat)
  | renew (i : Nat)
  | record (i : Nat) (stepId : StepId) (result : Option Json)

namespace Sys

variable (E : WorkflowEngine)

def claimOf (σ : Sys) (workflow : String) (limit : Nat) (cfg : WorkflowConfig) :
    Store × List ClaimedJob :=
  σ.store.claim (workflowQueueName workflow) limit (max cfg.leaseMs 1000) none false σ.clock

/-- A dispatcher claims for a registered workflow and starts a worker for each job. -/
def claim (σ : Sys) (workflow : String) (limit : Nat) : Option Sys :=
  (E.config workflow).map (fun cfg =>
    (σ.withStore (σ.claimOf workflow limit cfg).1).spawn
      ((σ.claimOf workflow limit cfg).2.map (workerThread E workflow)))

/-- The heartbeat of `run_group`, while its handler runs. -/
def renew (σ : Sys) (i : Nat) : Option Sys :=
  match σ.pool[i]? with
  | some t => match t.kind, t.live with
    | .worker workflow job, true =>
      let leaseMs := max ((E.config workflow).getD (.new workflow)).leaseMs 1000
      some (σ.withStore (σ.store.renewLeases [(job.id, job.fence)] leaseMs σ.clock))
    | _, _ => none
  | none => none

/-- `recordStep` of the workflow function: a finished attempt may still have
parallel steps of its own running. -/
def record (σ : Sys) (i : Nat) (stepId : StepId) (result : Option Json) : Option Sys :=
  match σ.pool[i]? with
  | some t => match t.kind.run?, crashed t with
    | some runId, false => some (σ.withStore (σ.store.recordStep runId stepId .run result σ.clock))
    | _, _ => none
  | none => none

def step (σ : Sys) : Label → Option Sys
  | .tick d => some { σ with shared := { σ.shared with clock := σ.clock + d } }
  | .spawn task => if task.admissible then some (Config.spawn σ [taskThread E task]) else none
  | .claim workflow limit => claim E σ workflow limit
  | .call i ch => Config.call State.exec σ i ch
  | .crash i => Config.crash σ i
  | .renew i => renew E σ i
  | .record i stepId result => record σ i stepId result

end Sys

end ZenZip
