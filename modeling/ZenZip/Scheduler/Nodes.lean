import ZenZip.Scheduler.Tables
import ZenZip.Lib.Run

namespace ZenZip

open Lib

inductive SchedOp
  | store (c : SchedCall)
  | nowMs
  | fastrand (hi : Int)
  | handler (job : ClaimedJob)

abbrev SchedVal : SchedOp → Type
  | .store c => c.Ret
  | .nowMs => Time
  | .fastrand _ => Int
  | .handler _ => Unit

abbrev SchedM := Prog SchedVal

namespace Scheduler

def call (c : SchedCall) : SchedM c.Ret := @Prog.op SchedOp SchedVal (.store c)

def nowMs : SchedM Time := @Prog.op SchedOp SchedVal .nowMs

def ofResult {α : Type} : Except String α → SchedM α
  | .ok a => .ret a
  | .error e => .throw e

def delayOf (d : ScheduleDef) : SchedM Int :=
  if 0 < d.jitterMs then @Prog.op SchedOp SchedVal (.fastrand d.jitterMs) else pure 0

def fire (d : ScheduleDef) (occurrence firedAt : Time) : SchedM Unit := do
  let delay ← delayOf d
  let _ ← call (.push (tickJob d.name firedAt delay) d.name occurrence)

def upsertSchedule (row : ScheduleRow) : SchedM ScheduleRow := do
  let existing ← call (.readSchedule row.name)
  call (.writeSchedule row existing)

def replay (d : ScheduleDef) (now : Time) : Nat → Time → SchedM Unit
  | 0, t =>
    if t ≤ now then do
      let next ← ofResult (d.nextAfter now)
      let _ ← call (.claimTick d.name t next now)
    else pure ()
  | n + 1, t =>
    if t ≤ now then do
      let next ← ofResult (d.nextAfter t)
      let claimed ← call (.claimTick d.name t next now)
      if claimed then do
        fire d t t
        replay d now n next
      else pure ()
    else pure ()

def catchUp (d : ScheduleDef) (now missed : Time) : SchedM Unit :=
  match d.catchup with
  | .skip => do
    let next ← ofResult (d.nextAfter now)
    let _ ← call (.claimTick d.name missed next now)
  | .runOnce => pure ()
  | .all => replay d now maxCatchupFires missed

def bootOne (now : Time) (d : ScheduleDef) : SchedM Unit := do
  let next ← ofResult (d.nextAfter now)
  let stored ← upsertSchedule
    { name := d.name, spec := d.spec, overlap := d.overlap, catchup := d.catchup, nextRunAt := next,
      lastRunAt := none,
      enabled := true }
  if stored.nextRunAt ≤ now then catchUp d now stored.nextRunAt else pure ()

def boot (defs : List ScheduleDef) : SchedM Unit := do
  let now ← nowMs
  forM defs (bootOne now)

/-- `active_count(..).await.unwrap_or(1) == 0`, where the policy asks for it. -/
def mayFire (d : ScheduleDef) : SchedM Bool :=
  match d.overlap with
  | .skip => do
    let n ← (call (.activeCount (scheduleQueueName d.name))).attempt
    return n.toOption.getD 1 = 0
  | .allow | .queue => pure true

def tickDue (defs : List ScheduleDef) (now : Time) (row : ScheduleRow) : SchedM Unit :=
  match defs.find? (fun d => d.name = row.name) with
  | none => pure ()
  | some d => do
    let next := (d.nextAfter now).toOption.getD (now + 60000)
    match ← (call (.claimTick d.name row.nextRunAt next now)).attempt with
    | .ok true =>
      if ← mayFire d then
        let _ ← (fire d row.nextRunAt now).attempt
    | _ => pure ()

def tickAll (defs : List ScheduleDef) : SchedM Unit := do
  let now ← nowMs
  match ← (call (.dueSchedules now)).attempt with
  | .ok due => forM due (tickDue defs now)
  | .error _ => pure ()

/-- The loop of `run`, for as many rounds as the process lives. -/
def rounds (defs : List ScheduleDef) : Nat → SchedM Unit
  | 0 => pure ()
  | n + 1 => do
    tickAll defs
    rounds defs n

def run (defs : List ScheduleDef) (n : Nat) : SchedM Unit := do
  match ← (boot defs).attempt with
  | .ok _ => rounds defs n
  | .error _ => pure ()

/-- `run_group` for a tick, whose groups have one job. -/
def runGroup (job : ClaimedJob) : SchedM Unit := do
  match ← (@Prog.op SchedOp SchedVal (.handler job)).attempt with
  | .ok _ =>
    let _ ← (call (.ack job.id job.fence)).attempt
  | .error message =>
    if job.maxAttempts ≤ job.attempt then
      let _ ← (call (.failDead job.id message job.fence)).attempt
    else
      let now ← nowMs
      let delay ← @Prog.op SchedOp SchedVal
        (.fastrand (max (Backoff.default.cappedFor job.attempt / 4) 1))
      let capped := Backoff.default.cappedFor job.attempt
      let _ ← (call
        (.failRetry job.id message (now + (capped - capped / 8 + delay)) job.fence)).attempt

end Scheduler

/-- A scheduler of a node, or the group of a claimed tick. -/
inductive NodeKind
  | scheduler (node : Nat) (defs : List ScheduleDef)
  | group (node : Nat) (queue : String) (job : ClaimedJob)

namespace NodeKind

def node : NodeKind → Nat
  | .scheduler node _ => node
  | .group node _ _ => node

def job? : NodeKind → Option ClaimedJob
  | .scheduler _ _ => none
  | .group _ _ job => some job

def runs (queue : String) : NodeKind → Bool
  | .scheduler _ _ => false
  | .group _ q _ => q = queue

end NodeKind

abbrev Schedules := Table ScheduleDef.name

abbrev NodeThread := Thread SchedVal NodeKind Unit

abbrev SchedSys := Config SchedState SchedVal NodeKind Unit

/-- A call is carried out at a reading of the node's clock, or fails. -/
inductive Reading
  | ok (now : Time)
  | fail (e : String)
  | draw (n : Int)
  | outcome (r : Except String Unit)

inductive SchedLabel
  | boot (node : Nat) (names : List String) (rounds : Nat)
  | call (i : Nat) (ch : Reading)
  | crash (i : Nat)
  | dispatch (node : Nat) (name : String) (now : Time)
  | renew (i : Nat) (now : Time)
  | sweep (now : Time)

namespace SchedState

def exec (s : SchedState) (ch : Reading) : (op : SchedOp) → Config.Answer SchedState SchedVal op
  | .store c => match ch with
    | .ok now => some ({ (c.perform s now).1 with clock := now }, .ok (c.perform s now).2)
    | .fail e => some (s, .error e)
    | _ => none
  | .nowMs => match ch with
    | .ok now => some ({ s with clock := now }, .ok now)
    | _ => none
  | .fastrand hi => match ch with
    | .draw n => if 0 ≤ n ∧ n ≤ hi then some (s, .ok n) else none
    | _ => none
  | .handler _ => match ch with
    | .outcome r => some (s, r)
    | _ => none

end SchedState

def schedulerThread (R : Schedules) (node : Nat) (names : List String) (n : Nat) : NodeThread :=
  ⟨.scheduler node (names.filterMap R.get?), [], Scheduler.run (names.filterMap R.get?) n⟩

def groupThread (node : Nat) (queue : String) (job : ClaimedJob) : NodeThread :=
  ⟨.group node queue job, [], Scheduler.runGroup job⟩

namespace SchedSys

def store (σ : SchedSys) : Store := σ.shared.store

def init (s : Store) (schedules : Table ScheduleRow.name) (clock : Time) : SchedSys :=
  ⟨⟨s, schedules, [], [], clock⟩, []⟩

def withStore (σ : SchedSys) (s : Store) (now : Time) : SchedSys :=
  { σ with shared := { σ.shared with store := s, clock := now } }

def available (σ : SchedSys) (node : Nat) (d : ScheduleDef) : Nat :=
  d.concurrency - (σ.pool.filter (fun t : NodeThread => t.live && t.kind.node = node &&
    t.kind.runs (scheduleQueueName d.name))).length

def claimOf (σ : SchedSys) (node : Nat) (d : ScheduleDef) (now : Time) : Store × List ClaimedJob :=
  σ.store.claim (scheduleQueueName d.name) (min (σ.available node d) 32) 30000 none false now

variable (R : Schedules)

/-- A node claims for a registered schedule and starts a group for each job. -/
def dispatch (σ : SchedSys) (node : Nat) (name : String) (now : Time) : Option SchedSys :=
  (R.get? name).bind (fun d =>
    if σ.available node d = 0 then none
    else some ((σ.withStore (σ.claimOf node d now).1 now).spawn
      ((σ.claimOf node d now).2.map (groupThread node (scheduleQueueName d.name)))))

/-- The heartbeat of a group, while its handler runs. -/
def renew (σ : SchedSys) (i : Nat) (now : Time) : Option SchedSys :=
  match σ.pool[i]? with
  | some t => match t.kind.job?, t.live with
    | some job, true => some (σ.withStore (σ.store.renewLeases [(job.id, job.fence)] 30000 now) now)
    | _, _ => none
  | none => none

/-- A node id stands for one process: it boots when nothing of an earlier one is left. -/
def step (σ : SchedSys) : SchedLabel → Option SchedSys
  | .boot node names n =>
    if σ.pool.all (fun t : NodeThread => !(t.live && t.kind.node = node)) then
      some (Config.spawn σ [schedulerThread R node names n])
    else none
  | .call i ch => Config.call SchedState.exec σ i ch
  | .crash i => Config.crash σ i
  | .dispatch node name now => dispatch R σ node name now
  | .renew i now => renew σ i now
  | .sweep now => some (σ.withStore (σ.store.sweepExpired now).1 now)

end SchedSys

end ZenZip
