import ZenZip.Crypto.Columns

namespace ZenZip

open Lib

theorem Json.mapText_id (v : Json) : v.mapText id = v := by
  cases v <;> rfl

theorem Json.map_mapText_id (v : Option Json) : v.map (Json.mapText id) = v := by
  cases v <;> simp [Json.mapText_id]

theorem Payload.mapText_id (p : Payload) : p.mapText id = p := by
  cases p <;> simp [Payload.mapText, Json.mapText_id]

theorem mapText_claimedJob (j : ClaimedJob) : j.mapText id = j := by
  simp [ClaimedJob.mapText, Payload.mapText_id]

theorem mapText_deadJob (j : DeadJob) : j.mapText id = j := by
  simp [DeadJob.mapText, Payload.mapText_id]

theorem mapText_runRow (r : RunRow) : r.mapText id = r := by
  simp [RunRow.mapText, Json.mapText_id, Json.map_mapText_id]

theorem mapText_stepEntry (e : StepEntry) : e.mapText id = e := by
  simp [StepEntry.mapText, Json.map_mapText_id]

theorem mapText_stepRow (st : StepRow) : st.mapText id = st := by
  simp [StepRow.mapText, Json.map_mapText_id]

theorem mapText_eventRow (e : EventRow) : e.mapText id = e := by
  simp [EventRow.mapText, Json.mapText_id]

namespace Env

variable (E : Env)

/-- The same store, opened without a key. -/
def plain : Env := { E with crypto := .disabled }

theorem plain_backend : E.plain.backend = E.backend := rfl

theorem plain_dec : E.plain.dec = id := by
  funext stored
  exact Crypto.dec_disabled E.primitives stored

end Env

namespace Db

variable {α β : Type} {g : String → String} (E : Env)

def mapText (g : String → String) (db : Db) : Db := { db with store := db.store.mapText g }

theorem sim_ask {f : Db → α} (h : ∀ db, f (db.mapText g) = f db) :
    Stmts.Sim (mapText g) (ask f) (ask f) := by
  apply Stmts.sim_exec
  intro db
  rw [h]

theorem sim_engine {f : Store → Store × α} (h : Store.Blind g f) :
    Stmts.Sim (mapText g) (engine f) (engine f) := by
  apply Stmts.sim_exec
  intro db
  simp only [mapText, h db.store]

theorem sim_other {f : Db → Db × α} (h : ∀ db, f (db.mapText g) = ((f db).1.mapText g, (f db).2)) :
    Stmts.Sim (mapText g) (.exec f) (.exec f) :=
  Stmts.sim_exec h

section Unsealed

theorem sim_updateRun (id : RunId) (f : RunRow → RunRow) (hf : ∀ r, (f r).id = r.id)
    (hfg : ∀ r, f (r.mapText g) = (f r).mapText g) :
    Stmts.Sim (mapText g) (updateRun id f hf) (updateRun id f hf) :=
  sim_engine (Store.blind_updateRun id (fun _ => true) (fun _ => rfl) hf hfg)

theorem sim_runFailed (id : RunId) (error : String) (m : Moment) :
    Stmts.Sim (mapText g) (runFailed E id error m) (runFailed E.plain id error m) := by
  apply sim_updateRun
  intro r
  unfold ended
  split <;> rfl

theorem sim_renewLeases (leases : List (JobId × Nat)) (leaseMs : Int) (m : Moment) :
    Stmts.Sim (mapText g) (renewLeases E leases leaseMs m)
      (renewLeases E.plain leases leaseMs m) := by
  have hupdate (ls : List (JobId × Nat)) :=
    Store.blind_updateJobs (g := g) (p := Store.renewed ls) (fun _ => rfl)
    (f := Store.renewedRow (E.leaseClock m + leaseMs) (E.leaseClock m)) (fun _ => rfl)
      (fun _ => rfl)
  unfold renewLeases
  rw [Env.plain_backend]
  split
  · apply (Stmts.sim_each (fun l => sim_engine (hupdate [l])) leases).bind
    intro _
    exact Stmts.sim_commit
  · exact sim_engine (hupdate leases).discard

theorem sim_sweepExpired (now : Time) (m : Moment) :
    Stmts.Sim (mapText g) (sweepExpired E now m) (sweepExpired E.plain now m) := by
  have hdead (clock : Time) :=
    Store.blind_updateJobs (g := g) (p := Store.exhausted clock) (fun _ => rfl)
    (f := Store.exhaustedRow now) (fun _ => rfl) (fun _ => rfl)
  have hretried (clock : Time) :=
    Store.blind_updateJobs (g := g) (p := Store.expired clock) (fun _ => rfl)
    (f := Store.redeliveredRow now) (fun _ => rfl) (fun _ => rfl)
  unfold sweepExpired
  rw [Env.plain_backend]
  apply (sim_engine (hdead _)).bind
  intro dead
  apply (sim_engine (hretried _)).bind
  intro retried
  exact Stmts.sim_pure _

theorem sim_gc (runBefore eventBefore : Option Time) :
    Stmts.Sim (mapText g) (gc runBefore eventBefore) (gc runBefore eventBefore) := by
  have hruns (before : Time) : Stmts.Sim (mapText g) (gcRuns before) (gcRuns before) := by
    apply (sim_engine (Store.blind_deleteSteps (fun _ => rfl))).bind
    intro steps
    apply (sim_engine (Store.blind_deleteRuns (fun _ => rfl))).bind
    intro runs
    exact Stmts.sim_pure (runs, steps)
  have hcut : Stmts.Sim (mapText g) (runBefore.elim (pure (0, 0)) gcRuns)
    (runBefore.elim (pure (0, 0)) gcRuns) := by
    cases runBefore with
    | none => exact Stmts.sim_pure (0, 0)
    | some before => exact hruns before
  have hevents : Stmts.Sim (mapText g)
    (eventBefore.elim (pure 0) (fun before => engine fun s => s.deleteEvents before))
      (eventBefore.elim (pure 0) (fun before => engine fun s => s.deleteEvents before)) := by
    cases eventBefore with
    | none => exact Stmts.sim_pure 0
    | some before => exact sim_engine (Store.blind_deleteEvents before)
  apply hcut.bind
  rintro ⟨runs, steps⟩
  apply hevents.bind
  intro events
  exact Stmts.sim_commit.bind (fun _ => Stmts.sim_pure _)

theorem sim_requeueDead (ids : List JobId) (m : Moment) :
    Stmts.Sim (mapText g) (requeueDead E ids m) (requeueDead E.plain ids m) := by
  unfold requeueDead
  rw [Env.plain_backend]
  split
  · apply (Stmts.sim_each (fun id => sim_engine (Store.blind_requeueDead [id] m.now)) ids).bind
    intro changed
    exact Stmts.sim_commit.bind (fun _ => Stmts.sim_pure _)
  · exact sim_engine (Store.blind_requeueDead ids m.now)

theorem sim_purgeSubject (subject : String) :
    Stmts.Sim (mapText g) (purgeSubject subject) (purgeSubject subject) := by
  apply (sim_engine (Store.blind_deleteSteps (fun _ => rfl))).bind
  intro _
  exact (sim_engine (Store.blind_deleteRuns (fun _ => rfl))).committed

theorem sim_cancelRunTree (root : RunId) (m : Moment) :
    Stmts.Sim (mapText g) (cancelRunTree E root m) (cancelRunTree E.plain root m) := by
  unfold cancelRunTree
  rw [Env.plain_backend]
  split
  · exact (sim_engine (Store.blind_cancelRunTree root m.now)).committed
  · exact sim_engine (Store.blind_postgresCancelRunTree root m.now)

theorem sim_upsertSchedule (row : ScheduleRow) :
    Stmts.Sim (mapText g) (upsertSchedule E row) (upsertSchedule E.plain row) := by
  have hstore : Stmts.Sim (mapText g) (storeSchedule row) (storeSchedule row) := by
    apply (sim_ask (fun _ => rfl)).bind
    intro existing
    exact sim_other (fun _ => rfl)
  unfold upsertSchedule
  rw [Env.plain_backend]
  split
  · exact hstore
  · exact hstore.committed

end Unsealed

section Lawful

variable {E}

theorem sim_sealing {f : (String → String) → Store → Store × α}
    (h : ∀ n, Store.Reads E.dec (E.enc n) f) :
    Stmts.Sim (mapText E.dec) (sealing E f) (sealing E.plain f) := by
  apply Stmts.sim_exec
  intro db
  have hdb : f (E.plain.enc db.drawn) (db.store.mapText E.dec) = _ := h db.drawn db.store
  simp only [mapText, hdb]

variable (hP : E.primitives.Lawful)

include hP

theorem sim_insertJobRow (job : PushJob) (now : Time) :
    Stmts.Sim (mapText E.dec) (insertJobRow E job now) (insertJobRow E.plain job now) := by
  have hcollapse : Stmts.Sim (mapText E.dec) (collapse job) (collapse job) := by
    unfold collapse
    split
    · exact sim_engine (Store.blind_dropDebounced job)
    · exact Stmts.sim_pure ()
  have hstart : Stmts.Sim (mapText E.dec) (startAt E job now) (startAt E.plain job now) := by
    unfold startAt
    rw [Env.plain_backend]
    split
    · apply Stmts.Sim.bind (sim_ask (fun _ => rfl))
      intro start
      exact (sim_engine (Store.blind_setCursor _ _ _)).bind (fun _ => Stmts.sim_pure start)
    · exact sim_engine (fun _ => rfl)
    · exact Stmts.sim_pure _
  have hnotify : Stmts.Sim (mapText E.dec) (notify E) (notify E.plain) := by
    unfold notify
    rw [Env.plain_backend]
    split
    · exact Stmts.sim_pure ()
    · exact sim_ask (fun _ => rfl)
  apply hcollapse.bind
  intro _
  apply hstart.bind
  intro availableAt
  apply (sim_sealing (fun n => Store.reads_addJob (E.dec_enc hP n) job availableAt now)).bind
  intro id
  exact hnotify.bind (fun _ => Stmts.sim_pure id)

theorem sim_pushInner (jobs : List PushJob) (now : Time) :
    Stmts.Sim (mapText E.dec) (pushInner E jobs now) (pushInner E.plain jobs now) := by
  apply Stmts.Sim.committed
  exact Stmts.sim_each (fun job => sim_insertJobRow hP job now) jobs

theorem sim_createRunInner (run : NewRun) (now : Time) :
    Stmts.Sim (mapText E.dec) (createRunInner E run now) (createRunInner E.plain run now) := by
  have hkey : Stmts.Sim (mapText E.dec) (runOfKey run) (runOfKey run) := by
    unfold runOfKey
    split
    · exact Stmts.sim_pure none
    · exact sim_ask (fun db => Store.runOfKey_mapText db.store _ _)
  apply hkey.bind
  intro existing
  cases existing with
  | some id => exact Stmts.sim_pure (id, false)
  | none => exact sim_sealing (fun n => Store.reads_addRun (E.dec_enc hP n) run now)

theorem sim_recordStepInner (runId : RunId) (stepId : StepId) (kind : StepKind)
    (result : Option String) (now : Time) :
    Stmts.Sim (mapText E.dec) (recordStepInner E runId stepId kind result now)
      (recordStepInner E.plain runId stepId kind result now) :=
  sim_sealing (fun n => Store.reads_recordStep (E.dec_enc hP n) runId stepId kind result now)

theorem sim_releaseWaiter (payload : String) (now : Time) (c : Candidate) :
    Stmts.Sim (mapText E.dec) (releaseWaiter E payload now c)
      (releaseWaiter E.plain payload now c) := by
  have hwoken :=
    Store.blind_updateRun (g := E.dec) c.id (fun _ => true) (fun _ => rfl) (f := Store.wokenRow now)
    (Store.wokenRow_id now) (fun _ => rfl)
  apply (sim_engine hwoken).bind
  intro _
  apply (sim_recordStepInner hP _ _ _ _ _).bind
  intro _
  apply (sim_insertJobRow hP _ _).bind
  intro _
  exact Stmts.sim_pure _

theorem sim_startTarget (input : String) (now : Time) (t : TriggerTarget) :
    Stmts.Sim (mapText E.dec) (startTarget E input now t) (startTarget E.plain input now t) := by
  apply (sim_createRunInner hP _ _).bind
  rintro ⟨id, created⟩
  cases created with
  | true => exact (sim_insertJobRow hP _ now).bind (fun _ => Stmts.sim_pure _)
  | false => exact Stmts.sim_pure none

theorem sim_emitInTx (name payload : String) (targets : List TriggerTarget) (m : Moment) :
    Stmts.Sim (mapText E.dec) (emitInTx E name payload targets m)
      (emitInTx E.plain name payload targets m) := by
  apply (sim_sealing (fun n => Store.reads_addEvent (E.dec_enc hP n) name payload m.now)).bind
  intro eventId
  apply (sim_ask (fun db => Store.candidates_mapText db.store name (E.lockedRows m))).bind
  intro candidates
  apply (Stmts.sim_each (sim_releaseWaiter hP payload m.now) _).bind
  intro waiters
  apply (Stmts.sim_each (sim_startTarget hP _ m.now) targets).bind
  intro triggered
  exact Stmts.sim_pure _

theorem sim_emitEvent (name payload : String) (targets : List TriggerTarget) (m : Moment) :
    Stmts.Sim (mapText E.dec) (emitEvent E name payload targets m)
      (emitEvent E.plain name payload targets m) := by
  exact (sim_emitInTx hP name payload targets m).committed

theorem sim_machineSend (machine id fromState event toState eventName payload : String)
    (targets : List TriggerTarget)
    (m : Moment) :
    Stmts.Sim (mapText E.dec)
      (machineSend E machine id fromState event toState eventName payload targets m)
      (machineSend E.plain machine id fromState event toState eventName payload targets m) := by
  have hmove : Stmts.Sim (mapText E.dec) (moveInstance machine id fromState toState m)
      (moveInstance machine id fromState toState m) := sim_other (fun _ => rfl)
  apply hmove.bind
  intro changed
  cases changed with
  | false => exact Stmts.sim_pure none
  | true =>
      have hhistory : Stmts.Sim (mapText E.dec)
        (addHistory ⟨machine, id, fromState, event, toState, m.now⟩)
          (addHistory ⟨machine, id, fromState, event, toState, m.now⟩) := sim_other (fun _ => rfl)
      apply hhistory.bind
      intro _
      apply (sim_emitInTx hP eventName payload targets m).bind
      intro outcome
      exact Stmts.sim_commit.bind (fun _ => Stmts.sim_pure (some outcome))

theorem sim_createRun (run : NewRun) (m : Moment) :
    Stmts.Sim (mapText E.dec) (createRun E run m) (createRun E.plain run m) := by
  unfold createRun
  rw [Env.plain_backend]
  split
  · exact sim_createRunInner hP run m.now
  · exact (sim_createRunInner hP run m.now).committed

theorem sim_recordStep (runId : RunId) (stepId : StepId) (kind : StepKind) (result : Option String)
    (m : Moment) :
    Stmts.Sim (mapText E.dec) (recordStep E runId stepId kind result m)
      (recordStep E.plain runId stepId kind result m) := by
  unfold recordStep
  rw [Env.plain_backend]
  split
  · exact sim_recordStepInner hP runId stepId kind result m.now
  · exact (sim_recordStepInner hP runId stepId kind result m.now).bind (fun _ => Stmts.sim_commit)

theorem sim_runCompleted (id : RunId) (output : Option String) (m : Moment) :
    Stmts.Sim (mapText E.dec) (runCompleted E id output m) (runCompleted E.plain id output m) :=
  sim_sealing (fun n => Store.reads_runCompleted (E.dec_enc hP n) E id output m.now)

end Lawful

section Reads

theorem sim_reading {R : Type} {f : Db → List R} {row : (String → String) → R → R}
    (hrow : ∀ r, row id r = r)
    (h : ∀ db, f (db.mapText E.dec) = (f db).map (row E.dec)) :
    Stmts.Sim (mapText E.dec) (ask f >>= fun l => pure (l.map (row E.dec)))
      (ask f >>= fun l => pure (l.map (row E.plain.dec))) := by
  apply Stmts.sim_read
  intro db
  constructor
  · rfl
  · have hid : row id = id := funext hrow
    rw [Env.plain_dec, hid, List.map_id, h]

theorem sim_claim (queue : String) (limit : Nat) (leaseMs : Int) (keyLimit : Option Nat)
    (fair : Bool) (m : Moment) :
    Stmts.Sim (mapText E.dec) (claim E queue limit leaseMs keyLimit fair m)
      (claim E.plain queue limit leaseMs keyLimit fair m) := by
  apply Stmts.sim_read
  intro db
  have hclaim :=
    Store.claim_mapText (g := E.dec) db.store queue limit (E.leaseClock m + leaseMs - m.now)
      keyLimit fair m.now
  have hid : ClaimedJob.mapText id = id := funext mapText_claimedJob
  have hclock : E.plain.leaseClock m = E.leaseClock m := rfl
  simp only [mapText, hclock, hclaim, Env.plain_dec, hid, List.map_id]
  exact ⟨trivial, trivial⟩

theorem sim_claimLocked (queue : String) (limit : Nat) (leaseMs : Int) (keyLimit : Option Nat)
    (fair : Bool) (m : Moment) :
    Stmts.Sim (mapText E.dec) (claimLocked E queue limit leaseMs keyLimit fair m)
      (claimLocked E.plain queue limit leaseMs keyLimit fair m) := by
  apply (sim_ask (fun _ => rfl)).bind
  intro _
  exact (sim_claim E queue limit leaseMs keyLimit fair m).committed

theorem sim_getRun (runId : RunId) :
    Stmts.Sim (mapText E.dec) (getRun E runId) (getRun E.plain runId) := by
  apply Stmts.sim_read
  intro db
  constructor
  · rfl
  · show ((db.store.mapText E.dec).getRun runId).map (RunRow.mapText E.plain.dec) =
      (db.store.getRun runId).map (RunRow.mapText E.dec)
    rw [Store.getRun_mapText, Env.plain_dec, funext mapText_runRow, Option.map_map]
    rfl

theorem sim_deadJobs (queue : String) (limit : Nat) :
    Stmts.Sim (mapText E.dec) (deadJobs E queue limit) (deadJobs E.plain queue limit) :=
  sim_reading E mapText_deadJob (fun db => Store.deadJobs_mapText db.store queue limit)

theorem sim_loadJournal (runId : RunId) : Stmts.Sim (mapText E.dec) (loadJournal E runId)
    (loadJournal E.plain runId) :=
  sim_reading E mapText_stepEntry (fun db => Store.loadJournal_mapText db.store runId)

theorem sim_runsList (workflow : Option String) (status : Option RunStatus) (limit : Nat) :
    Stmts.Sim (mapText E.dec) (runsList E workflow status limit)
      (runsList E.plain workflow status limit) :=
  sim_reading E mapText_runRow (fun db => Store.runsList_mapText db.store workflow status limit)

theorem sim_stepsForRun (runId : RunId) : Stmts.Sim (mapText E.dec) (stepsForRun E runId)
    (stepsForRun E.plain runId) :=
  sim_reading E mapText_stepRow (fun db => Store.stepsForRun_mapText db.store runId)

theorem sim_recentEvents (limit : Nat) : Stmts.Sim (mapText E.dec) (recentEvents E limit)
    (recentEvents E.plain limit) :=
  sim_reading E mapText_eventRow (fun db => Store.recentEvents_mapText db.store limit)

end Reads

end Db

namespace StoreCall

open Db

variable {E : Env}

theorem sim_stmts (hP : E.primitives.Lawful) (m : Moment) (c : StoreCall) :
    Stmts.Sim (Db.mapText E.dec) (c.stmts E m) (c.stmts E.plain m) := by
  cases c with
  | push jobs => exact sim_pushInner hP jobs m.now
  | claim queue limit leaseMs keyLimit fair =>
      have hbackend : E.plain.backend = E.backend := rfl
      simp only [stmts, hbackend]
      split
      · exact sim_claimLocked E queue limit leaseMs keyLimit fair m
      · exact sim_claim E queue limit leaseMs keyLimit fair m
  | ack id fence => exact sim_engine (Store.blind_ack id fence)
  | failRetry id error availableAt fence =>
      exact sim_engine (Store.blind_failRetry id error availableAt fence m.now)
  | failDead id error fence => exact sim_engine (Store.blind_failDead id error fence m.now)
  | renewLeases leases leaseMs => exact sim_renewLeases E leases leaseMs m
  | ping => exact sim_ask (fun _ => rfl)
  | sweepExpired now => exact sim_sweepExpired E now m
  | gc runBefore eventBefore => exact sim_gc runBefore eventBefore
  | pendingCount queue => exact sim_ask (fun db => Store.count_jobs (fun _ => rfl) db.store)
  | activeCount queue => exact sim_ask (fun db => Store.count_jobs (fun _ => rfl) db.store)
  | deadJobs queue limit => exact sim_deadJobs E queue limit
  | requeueDead ids => exact sim_requeueDead E ids m
  | purgeDead queue => exact sim_engine (Store.blind_purgeDead queue)
  | createRun run => exact sim_createRun hP run m
  | purgeSubject subject => exact sim_purgeSubject subject
  | getRun id => exact sim_getRun E id
  | loadJournal runId => exact sim_loadJournal E runId
  | recordStep runId stepId kind result => exact sim_recordStep hP runId stepId kind result m
  | stepFailedAttempt runId stepId error =>
      exact sim_engine (Store.blind_stepFailedAttempt runId stepId error m.now)
  | runCompleted id output => exact sim_runCompleted hP id output m
  | runFailed id error => exact sim_runFailed E id error m
  | runSleeping id wakeAt =>
      exact sim_updateRun id (Store.sleepingRow wakeAt m.now) (fun _ => rfl) (fun _ => rfl)
  | runWaitingEvent id event stepId timeoutAt matchJson =>
      exact sim_updateRun id
        (Store.waitingEventRow event stepId timeoutAt (matchJson.map .str) m.now) (fun _ => rfl)
        (fun _ => rfl)
  | runWaitingChild id =>
      exact sim_updateRun id (Store.waitingChildRow m.now) (fun _ => rfl) (fun _ => rfl)
  | wakeParent id => exact sim_engine (Store.blind_wakeParent id m.now)
  | emitEvent name payload targets => exact sim_emitEvent hP name payload targets m
  | machineCreate machine id initial => exact sim_other (fun _ => rfl)
  | machineState machine id => exact sim_ask (fun _ => rfl)
  | machineSend machine id fromState event toState eventName payload targets =>
      exact sim_machineSend hP machine id fromState event toState eventName payload targets m
  | machineHistory machine id limit => exact sim_ask (fun _ => rfl)
  | agentSessionGet agent id => exact sim_ask (fun _ => rfl)
  | agentSessionPut agent id messages => exact sim_other (fun _ => rfl)
  | runsList workflow status limit => exact sim_runsList E workflow status limit
  | stepsForRun runId => exact sim_stepsForRun E runId
  | queueStats => exact sim_ask (fun db => Store.queueStats_mapText db.store)
  | allSchedules => exact sim_ask (fun _ => rfl)
  | recentEvents limit => exact sim_recentEvents E limit
  | sweepEventTimeouts now => exact sim_engine (Store.blind_sweepEventTimeouts now (E.lockedRows m))
  | cancelRunTree root => exact sim_cancelRunTree E root m
  | upsertSchedule row => exact sim_upsertSchedule E row
  | dueSchedules now => exact sim_ask (fun _ => rfl)
  | setScheduleNext name nextRunAt lastRunAt => exact sim_other (fun _ => rfl)
  | scheduleClaimTick name observedNext newNext firedAt => exact sim_other (fun _ => rfl)

theorem inTransaction_plain (c : StoreCall) : c.inTransaction E.plain = c.inTransaction E := by
  cases c <;> rfl

theorem perform_plain (hP : E.primitives.Lawful) (m : Moment) (fault : Fault) (c : StoreCall)
    (db : Db) :
    c.perform E.plain m fault (db.mapText E.dec) =
      ((c.perform E m fault db).1, (c.perform E m fault db).2.mapText E.dec) := by
  unfold perform
  rw [inTransaction_plain]
  split
  · exact (sim_stmts hP m c).atomic db fault
  · exact (sim_stmts hP m c).auto db fault

theorem serveAll_plain (hP : E.primitives.Lawful) (db : Db) (rs : List Request) :
    serveAll E.plain (db.mapText E.dec) rs =
    ((serveAll E db rs).1.mapText E.dec, (serveAll E db rs).2) := by
  induction rs generalizing db with
  | nil => rfl
  | cons r rs ih =>
      have hserve : serve E.plain (db.mapText E.dec) r =
        ((serve E db r).1.mapText E.dec, (serve E db r).2) := by
        simp only [serve, perform_plain hP]
      simp only [serveAll, mapAccum_cons, hserve]
      have hrest := ih (serve E db r).1
      simp only [serveAll] at hrest
      rw [hrest]

end StoreCall

/-- A text that no read takes for a ciphertext, as no JSON text is. -/
def Json.Unsealed (v : Json) : Prop := ∀ t, v = .str t → stripPrefix Crypto.encPrefix t = none

namespace Db

/-- The rows of a database that has had no key. -/
structure Plaintext (db : Db) : Prop where
  jobs : ∀ j ∈ db.store.jobs.rows, ∀ v, j.payload = .data v → v.Unsealed
  inputs : ∀ r ∈ db.store.runs.rows, r.input.Unsealed
  outputs : ∀ r ∈ db.store.runs.rows, ∀ v, r.output = some v → v.Unsealed
  results : ∀ st ∈ db.store.steps.rows, ∀ v, st.result = some v → v.Unsealed
  events : ∀ e ∈ db.store.events.rows, e.payload.Unsealed

section Plaintext

variable (E : Env)

theorem mapText_unsealed {v : Json} (h : v.Unsealed) : v.mapText E.dec = v := by
  cases v with
  | str t => exact congrArg Json.str (E.crypto.dec_plain E.primitives (h t rfl))
  | null | bool b | int n | float q | arr items | obj fields => rfl

theorem map_mapText_unsealed {v : Option Json} (h : ∀ w, v = some w → w.Unsealed) :
    v.map (Json.mapText E.dec) = v := by
  cases v with
  | none => rfl
  | some w => rw [Option.map_some, mapText_unsealed E (h w rfl)]

variable {E}

theorem Plaintext.mapText {db : Db} (h : db.Plaintext) : db.mapText E.dec = db := by
  have hjobs : db.store.jobs.map (JobRow.mapText E.dec) (JobRow.mapText_id E.dec) =
    db.store.jobs := by
    apply Table.map_eq_self
    intro j hj
    have hp : j.payload.mapText E.dec = j.payload := by
      cases hd : j.payload with
      | execution id => rfl
      | data v => exact congrArg Payload.data (mapText_unsealed E (h.jobs j hj v hd))
    rw [JobRow.mapText, hp]
  have hruns : db.store.runs.map (RunRow.mapText E.dec) (RunRow.mapText_id E.dec) =
    db.store.runs := by
    apply Table.map_eq_self
    intro r hr
    rw [RunRow.mapText, mapText_unsealed E (h.inputs r hr), map_mapText_unsealed E (h.outputs r hr)]
  have hsteps : db.store.steps.map (StepRow.mapText E.dec) (StepRow.mapText_key E.dec) =
    db.store.steps := by
    apply Table.map_eq_self
    intro st hst
    rw [StepRow.mapText, map_mapText_unsealed E (h.results st hst)]
  have hevents : db.store.events.map (EventRow.mapText E.dec) (EventRow.mapText_id E.dec) =
    db.store.events := by
    apply Table.map_eq_self
    intro e he
    rw [EventRow.mapText, mapText_unsealed E (h.events e he)]
  simp only [Db.mapText, Store.mapText, hjobs, hruns, hsteps, hevents]

end Plaintext

end Db

namespace StoreCall

/-- Whatever the calls and where they fail, a store with a key answers as one without a
key does on the rows as they are read: the rows themselves, where the key is new to them. -/
theorem encryption_transparent {E : Env} (hP : E.primitives.Lawful) (rs : List Request) :
    (∀ db, (serveAll E db rs).2 = (serveAll E.plain (db.mapText E.dec) rs).2) ∧
    ∀ db : Db, db.Plaintext → (serveAll E db rs).2 = (serveAll E.plain db rs).2 := by
  have hread (db : Db) : (serveAll E db rs).2 = (serveAll E.plain (db.mapText E.dec) rs).2 := by
    rw [serveAll_plain hP]
  refine ⟨hread, ?_⟩
  intro db hdb
  rw [hread db, hdb.mapText]

def legacy : Db :=
  { Db.empty with
    store := { Store.empty with events := Table.empty.insert ⟨0, "go", .str "1", 0⟩, nextId := 1 } }

theorem legacy_plaintext : legacy.Plaintext where
  jobs j hj := nomatch hj
  inputs r hr := nomatch hr
  outputs r hr := nomatch hr
  results st hst := nomatch hst
  events e he := by
    obtain rfl : e = ⟨0, "go", .str "1", 0⟩ := List.mem_singleton.mp he
    intro t ht
    cases ht
    decide

/-- The old event and the new one, the run that the new one starts and its job. -/
theorem encryption_transparent_legacy :
    let E := Env.tagged ⟨fun _ => none, fun _ => "2"⟩
    let rs : List
      Request := [.recentEvents 10, .emitEvent "go" "3" [⟨"ship", none⟩], .recentEvents 10,
        .getRun 2,
      .claim "zenzip.workflow.ship" 1 1000 none false].map (fun c => ⟨c, ⟨5, 5, []⟩, none⟩)
    (serveAll E legacy rs).2 = (serveAll E.plain legacy rs).2 :=
  (encryption_transparent Primitives.tagged_lawful _).2 legacy legacy_plaintext

end StoreCall

end ZenZip
