import ZenZip.Engine.Workflow

namespace ZenZip

open Lib

def scheduleQueueName (name : String) : String := "zenzip.schedule." ++ name

theorem scheduleQueueName_inj {name name' : String}
    (h : scheduleQueueName name = scheduleQueueName name') :
    name = name' := (String.append_right_inj _).mp h

inductive Overlap
  | skip | allow | queue
  deriving DecidableEq

inductive Catchup
  | skip | runOnce | all
  deriving DecidableEq

/-- Cap for `Catchup.all`. -/
def maxCatchupFires : Nat := 100

/-- A cron expression is left to its library: where it says the next occurrence is. -/
inductive ScheduleKind
  | every (ms : Int)
  | cron (next : Time → Except String Time)

structure ScheduleDef where
  name : String
  spec : String
  kind : ScheduleKind
  overlap : Overlap
  catchup : Catchup
  jitterMs : Int

namespace ScheduleDef

def every (name : String) (ms : Int) (overlap : Overlap) (catchup : Catchup) :
    Except String ScheduleDef :=
  if ms < 1 then .error "every interval must be >= 1ms"
  else .ok { name, spec := "every:" ++ ms.repr, kind := .every ms, overlap, catchup, jitterMs := 0 }

def nextAfter (d : ScheduleDef) (afterMs : Time) : Except String Time :=
  match d.kind with
  | .every ms => .ok (afterMs + ms)
  | .cron next => next afterMs

def Advances (d : ScheduleDef) : Prop := ∀ t t', d.nextAfter t = .ok t' → t < t'

theorem advances_every {name : String} {ms : Int} {overlap : Overlap} {catchup : Catchup}
    {d : ScheduleDef}
    (h : every name ms overlap catchup = .ok d) : d.Advances := by
  unfold every at h
  split at h
  · cases h
  · cases h
    intro t t' ht
    cases ht
    exact Int.lt_add_of_pos_right t (by omega)

def concurrency (d : ScheduleDef) : Nat :=
  match d.overlap with
  | .allow => 8
  | .skip | .queue => 1

end ScheduleDef

structure ScheduleRow where
  name : String
  spec : String
  overlap : Overlap
  catchup : Catchup
  nextRunAt : Time
  lastRunAt : Option Time
  enabled : Bool
  deriving DecidableEq

def tickJob (name : String) (firedAt : Time) (delayMs : Int) : PushJob where
  queue := scheduleQueueName name
  payload := .data (.obj [("firedAt", .int firedAt), ("schedule", .str name)])
  priority := 0
  delayMs := delayMs
  maxAttempts := 1
  concurrencyKey := none
  debounceKey := none
  throttleKey := none
  throttleSpacingMs := none

/-- A job pushed for an occurrence that had been claimed. -/
structure Fire where
  name : String
  occurrence : Time
  job : JobId
  deriving DecidableEq

namespace Fire

def tick (f : Fire) : String × Time := (f.name, f.occurrence)

end Fire

/-- The database, the occurrences claimed and fired so far, which no column says, and
the last reading of a clock. -/
structure SchedState where
  store : Store
  schedules : Table ScheduleRow.name
  claims : List (String × Time)
  fires : List Fire
  clock : Time

/-- The row that the second statement of `upsert_schedule` writes, by what the first has read. -/
def ScheduleRow.merged (row : ScheduleRow) : Option ScheduleRow → ScheduleRow
  | some e =>
      if e.spec = row.spec then
        { row with nextRunAt := e.nextRunAt, lastRunAt := e.lastRunAt, enabled := true }
      else { row with lastRunAt := none, enabled := true }
  | none => { row with lastRunAt := none, enabled := true }

namespace SchedState

variable (s : SchedState)

def readSchedule (name : String) : Option ScheduleRow := s.schedules.get? name

def writeSchedule (row : ScheduleRow) (existing : Option ScheduleRow) : SchedState × ScheduleRow :=
  let stored := row.merged existing
  ({ s with
    schedules :=
      s.schedules.upsert stored (fun r => { stored with name := r.name }) (fun _ => rfl) }, stored)

def due (now : Time) (r : ScheduleRow) : Bool := r.enabled && r.nextRunAt ≤ now

def dueSchedules (now : Time) : List ScheduleRow := s.schedules.select (due now)

/-- `name = ? AND next_run_at = ?`. -/
def atTick (name : String) (expected : Time) (r : ScheduleRow) : Bool :=
  decide (r.name = name) && r.nextRunAt = expected

def tickedRow (next now : Time) (r : ScheduleRow) : ScheduleRow :=
  { r with nextRunAt := next, lastRunAt := some now }

def scheduleClaimTick (name : String) (expected next now : Time) : SchedState × Bool :=
  if (s.schedules.select (atTick name expected)).isEmpty then (s, false)
  else ({ s with
    schedules := s.schedules.update (atTick name expected) (tickedRow next now) (fun _ => rfl),
                 claims := s.claims ++ [(name, expected)] }, true)

/-- `queue = ? AND status IN (0, 1)`. -/
def active (queue : String) (j : JobRow) : Bool :=
  j.queue = queue && (j.status = .pending || j.status = .running)

def activeCount (queue : String) : Nat := (s.store.jobs.select (active queue)).length

def pushTick (job : PushJob) (name : String) (occurrence now : Time) : SchedState × List JobId :=
  let (store, ids) := s.store.push [job] now
  ({ s with store, fires := s.fires ++ ids.map (fun id => ⟨name, occurrence, id⟩) }, ids)

end SchedState

/-- The store calls of the scheduler and of the consumers of its queues. The
`occurrence` of a push is kept for the history. -/
inductive SchedCall
  | readSchedule (name : String)
  | writeSchedule (row : ScheduleRow) (existing : Option ScheduleRow)
  | dueSchedules (now : Time)
  | claimTick (name : String) (expected next now : Time)
  | activeCount (queue : String)
  | push (job : PushJob) (name : String) (occurrence : Time)
  | ack (id : JobId) (fence : Nat)
  | failRetry (id : JobId) (error : String) (availableAt : Time) (fence : Nat)
  | failDead (id : JobId) (error : String) (fence : Nat)
  deriving DecidableEq

namespace SchedCall

abbrev Ret : SchedCall → Type
  | .readSchedule _ => Option ScheduleRow
  | .writeSchedule _ _ => ScheduleRow
  | .dueSchedules _ => List ScheduleRow
  | .claimTick _ _ _ _ => Bool
  | .activeCount _ => Nat
  | .push _ _ _ => List JobId
  | .ack _ _ | .failRetry _ _ _ _ | .failDead _ _ _ => Unit

def perform (s : SchedState) (now : Time) : (c : SchedCall) → SchedState × c.Ret
  | .readSchedule name => (s, s.readSchedule name)
  | .writeSchedule row existing => s.writeSchedule row existing
  | .dueSchedules now => (s, s.dueSchedules now)
  | .claimTick name expected next now => s.scheduleClaimTick name expected next now
  | .activeCount queue => (s, s.activeCount queue)
  | .push job name occurrence => s.pushTick job name occurrence now
  | .ack id fence => ({ s with store := s.store.ack id fence }, ())
  | .failRetry id error availableAt fence =>
      ({ s with store := s.store.failRetry id error availableAt fence now }, ())
  | .failDead id error fence => ({ s with store := s.store.failDead id error fence now }, ())

end SchedCall

section Rows

variable (s : SchedState)

theorem SchedState.get?_writeSchedule (row : ScheduleRow) (existing : Option ScheduleRow)
    (name : String) :
    (s.writeSchedule row existing).1.schedules.get? name =
      if name = row.name then some (row.merged existing) else s.schedules.get? name := by
  have hname : (row.merged existing).name = row.name := by
    cases existing with
    | none => rfl
    | some e =>
        simp only [ScheduleRow.merged]
        split <;> rfl
  show (s.schedules.upsert _ _ _).get? name = _
  rw [Table.get?_upsert, hname]
  split
  · next hn =>
      subst hn
      cases hg : s.schedules.get? row.name with
      | none => rfl
      | some r =>
          rw [Option.elim_some, Table.key_of_get? hg, ← hname]
  · rfl

theorem SchedState.get?_ticked (name : String) (expected next now : Time) (k : String) :
    (s.schedules.update (atTick name expected) (tickedRow next now) (fun _ => rfl)).get? k =
      if k = name then (s.schedules.get? k).map
        (fun r => if r.nextRunAt = expected then tickedRow next now r else r)
      else s.schedules.get? k := by
  have h := Table.get?_update_key s.schedules name (fun r => decide (r.nextRunAt = expected))
    (tickedRow next now)
    (fun _ => rfl) k
  simp only [decide_eq_true_eq] at h
  exact h

theorem SchedState.scheduleClaimTick_cases (name : String) (expected next now : Time) :
    s.scheduleClaimTick name expected next now = (s, false) ∨
    ∃ r, s.schedules.get? name = some r ∧ r.nextRunAt = expected ∧ ∃ s',
      s.scheduleClaimTick name expected next now = (s', true) ∧ s'.store = s.store ∧
      s'.fires = s.fires ∧
      s'.claims = s.claims ++ [(name, expected)] ∧
      ∀ k, s'.schedules.get? k = if k = name then some
        (tickedRow next now r) else s.schedules.get? k := by
  cases hsome : (s.schedules.select (atTick name expected)).isEmpty with
  | true =>
      refine .inl ?_
      rw [scheduleClaimTick, hsome]
      rfl
  | false =>
      obtain ⟨r, hr⟩ := List.exists_mem_of_ne_nil _ (List.isEmpty_eq_false_iff.mp hsome)
      obtain ⟨hm, hp⟩ := Table.mem_select.mp hr
      rw [atTick, Bool.and_eq_true] at hp
      have hget : s.schedules.get? name = some r :=
        Table.get?_eq_some_iff.mpr ⟨hm, of_decide_eq_true hp.1⟩
      have hnext : r.nextRunAt = expected := of_decide_eq_true hp.2
      refine .inr ⟨r, hget, hnext,
        { s with
          schedules :=
            s.schedules.update (atTick name expected) (tickedRow next now) (fun _ => rfl),
                 claims := s.claims ++ [(name, expected)] }, ?_, rfl, rfl, rfl, fun k => ?_⟩
      · rw [scheduleClaimTick, hsome]
        rfl
      · rw [get?_ticked]
        by_cases hk : k = name
        · subst hk
          rw [if_pos rfl, if_pos rfl, hget, Option.map_some, if_pos hnext]
        · rw [if_neg hk, if_neg hk]

end Rows

end ZenZip
