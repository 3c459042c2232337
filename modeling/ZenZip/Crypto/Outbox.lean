import ZenZip.Crypto.Calls
import ZenZip.JsonReader

namespace ZenZip

open Lib

namespace Db

variable (E : Env)

def execution (workflow : String) (id : RunId) (now : Time) (db : Db) : Db × JobId :=
  let job := { executionJob workflow id 0 with
    payload := .text (E.enc db.drawn (executionPayload id)) }
  let (store, jobId) := db.store.addJob job (now + 0) now
  ({ db with store, drawn := db.drawn + 1 }, jobId)

def woken (payload : String) (now : Time) (db : Db) (c : Candidate) : Db × Waiter :=
  let stepId := c.waitStepId.getD ""
  let store :=
    (db.store.updateRun c.id (fun _ => true) (Store.wokenRow now)
      (Store.wokenRow_id now)).recordStep c.id stepId
    .waitForEvent (some (.str (E.enc db.drawn (eventEntry payload)))) now
  ((execution E c.workflow c.id now { db with store, drawn := db.drawn + 1 }).1,
    ⟨c.id, c.workflow, stepId⟩)

def begun (input : String) (now : Time) (db : Db) (t : TriggerTarget) : Db × Option TriggeredRun :=
  let id := db.store.nextId
  let store := db.store.addRun (Store.targetRun (.str (E.enc db.drawn input)) t) now
  ((execution E t.workflow id now { db with store, drawn := db.drawn + 1 }).1,
    some ⟨t.workflow, id⟩)

def withEvent (name payload : String) (now : Time) (db : Db) : Db × Nat :=
  let (store, eventId) := db.store.addEvent name (.str (E.enc db.drawn payload)) now
  ({ db with store, drawn := db.drawn + 1 }, eventId)

/-- What an emit does where none of its statements fails. -/
def emitted (name payload : String) (targets : List TriggerTarget) (m : Moment) (db : Db) :
    Db × EmitOutcome :=
  let value := (E.serde.fromStr payload).getD .null
  let (db, eventId) := withEvent E name payload m.now db
  let candidates :=
    (db.store.candidates name (E.lockedRows m)).filter (fun c => wakes E value c.waitMatch)
  let (db, waiters) := mapAccum (woken E payload m.now) db candidates
  let (db, triggered) :=
    mapAccum (begun E (E.serde.toString (Store.eventInput name value m.now)) m.now) db targets
  (db, ⟨eventId, waiters, triggered.filterMap id⟩)

section Computes

variable {E}

theorem computes_execution (workflow : String) (id : RunId) (now : Time) :
    Stmts.Computes (insertJobRow E (executionJob workflow id 0) now)
      (execution E workflow id now) := by
  have hnotify : Stmts.Computes (notify E) (fun db => (db, ())) := by
    unfold notify
    split
    · exact Stmts.computes_pure ()
    · exact Stmts.computes_exec _
  have hstart : Stmts.Computes (startAt E (executionJob workflow id 0) now)
    (fun db => (db, now + 0)) :=
    Stmts.computes_pure (now + 0)
  have hcollapse : Stmts.Computes (collapse (executionJob workflow id 0)) (fun db => (db, ())) :=
    Stmts.computes_pure ()
  exact hcollapse.bind (fun _ => hstart.bind (fun availableAt =>
    (Stmts.computes_exec _).bind (fun jobId => hnotify.bind (fun _ => Stmts.computes_pure jobId))))

theorem computes_woken (payload : String) (now : Time) (c : Candidate) :
    Stmts.Computes (releaseWaiter E payload now c) (fun db => woken E payload now db c) :=
  (Stmts.computes_exec _).bind (fun _ => (Stmts.computes_exec _).bind (fun _ =>
    (computes_execution c.workflow c.id now).bind (fun _ => Stmts.computes_pure _)))

theorem computes_begun (input : String) (now : Time) (t : TriggerTarget) :
    Stmts.Computes (startTarget E input now t) (fun db => begun E input now db t) := by
  -- a target has no key, so its run is new
  have hrun : Stmts.Computes (createRunInner E (Store.targetRun (.str input) t) now) _ :=
    Stmts.computes_exec _
  have hjob : ∀ result, Stmts.Computes (executeNew E t.workflow now result) (fun db =>
      if result.2 then ((execution E t.workflow result.1 now db).1, some ⟨t.workflow, result.1⟩)
        else (db, none)) := by
    rintro ⟨id, created⟩
    cases created with
    | true => exact (computes_execution t.workflow id now).bind (fun _ => Stmts.computes_pure _)
    | false => exact Stmts.computes_pure none
  exact hrun.bind hjob

theorem computes_emitted (name payload : String) (targets : List TriggerTarget) (m : Moment) :
    Stmts.Computes (emitEvent E name payload targets m) (emitted E name payload targets m) := by
  have hemit : Stmts.Computes (emitInTx E name payload targets m)
    (emitted E name payload targets m) :=
    (Stmts.computes_exec _).bind (fun eventId => (Stmts.computes_exec _).bind (fun candidates =>
      (Stmts.computes_each (computes_woken payload m.now) _).bind (fun waiters =>
        (Stmts.computes_each (computes_begun _ m.now) targets).bind
          (fun triggered => Stmts.computes_pure _))))
  exact hemit.bind
    (fun outcome => (Stmts.computes_exec _).bind (fun _ => Stmts.computes_pure outcome))

end Computes

/-- Ids are used once and later ones are greater. -/
structure Fresh (db : Db) : Prop where
  jobs : ∀ j ∈ db.store.jobs.rows, j.id < db.store.nextId
  runs : ∀ r ∈ db.store.runs.rows, r.id < db.store.nextId
  events : ∀ e ∈ db.store.events.rows, e.id < db.store.nextId

/-- The tables that neither loop of an emit writes. -/
structure Framed (db db' : Db) : Prop where
  events : db'.store.events = db.store.events
  throttleCursors : db'.store.throttleCursors = db.store.throttleCursors
  instances : db'.instances = db.instances
  history : db'.history = db.history
  schedules : db'.schedules = db.schedules
  sessions : db'.sessions = db.sessions
  nextId_le : db.store.nextId ≤ db'.store.nextId

namespace Framed

variable {db db' db'' : Db}

theorem refl (db : Db) : Framed db db := ⟨rfl, rfl, rfl, rfl, rfl, rfl, Nat.le_refl _⟩

theorem trans (h : Framed db db') (h' : Framed db' db'') : Framed db db'' :=
  ⟨h'.events.trans h.events, h'.throttleCursors.trans h.throttleCursors,
    h'.instances.trans h.instances,
    h'.history.trans h.history, h'.schedules.trans h.schedules, h'.sessions.trans h.sessions,
    Nat.le_trans h.nextId_le h'.nextId_le⟩

end Framed

def ExecutionJob (workflow : String) (id : RunId) (now : Time) (j : JobRow) : Prop :=
  ∃ n, j = Store.newJobRow
    { executionJob workflow id 0 with payload := .text (E.enc n (executionPayload id)) } j.id
    (now + 0) now

def TargetRun (input : String) (now : Time) (t : TriggerTarget) (r : RunRow) : Prop :=
  ∃ n, r = Store.newRow (Store.targetRun (.str (E.enc n input)) t) r.id now

def entryKey (c : Candidate) : RunId × StepId := (c.id, c.waitStepId.getD "")

def WaitEntry (payload : String) (st : StepRow) : Prop :=
  st.completed = true ∧ st.kind = .waitForEvent ∧
    ∃ n, st.result = some (.str (E.enc n (eventEntry payload)))

/-- What the loop over the waiters leaves. -/
structure Woke (payload : String) (now : Time) (cs : List Candidate) (db db' : Db) : Prop where
  frame : Framed db db'
  jobs : ∃ js, db'.store.jobs.rows = db.store.jobs.rows ++ js ∧
    List.Forall₂ (fun c j => ExecutionJob E c.workflow c.id now j) cs js
  runs : db'.store.runs.rows = db.store.runs.rows.map (fun r =>
    if r.id ∈ cs.map (·.id) then Store.wokenRow now r else r)
  entries : ∀ c ∈ cs, db.store.journaled c.id (c.waitStepId.getD "") = false →
    ∃ st, db'.store.steps.get? (entryKey c) = some st ∧ WaitEntry E payload st
  steps : ∀ k, k ∉ cs.map entryKey → db'.store.steps.get? k = db.store.steps.get? k
  fresh : db'.Fresh

/-- What the loop over the targets leaves. -/
structure Began (input : String) (now : Time) (ts : List TriggerTarget) (db db' : Db) : Prop where
  frame : Framed db db'
  rows : ∃ rs js, db'.store.runs.rows = db.store.runs.rows ++ rs ∧
    db'.store.jobs.rows = db.store.jobs.rows ++ js ∧
    List.Forall₂ (TargetRun E input now) ts rs ∧
    List.Forall₂ (fun r j => ExecutionJob E r.workflow r.id now j) rs js
  steps : db'.store.steps = db.store.steps

def releases (name : String) (value : Json) (r : RunRow) : Bool :=
  r.status = .waitEvent && r.waitEvent = some name && wakes E value r.waitMatch

/-- A waiting run has its step, which its journal has not completed. -/
def Awaited (db : Db) : Prop :=
  ∀ r ∈ db.store.runs.rows, r.status = .waitEvent →
    ∃ stepId, r.waitStepId = some stepId ∧ db.store.journaled r.id stepId = false

/-- One event, with all that it wakes and starts, and nothing else. `value` is the payload as
the store reads it, `v` as the reader of the journal does. -/
structure Emitted (parse : String → Option Json) (name payload : String) (value v : Json)
    (targets : List TriggerTarget)
    (now : Time) (db db' : Db) : Prop where
  event : ∃ id n, db'.store.events.rows =
    db.store.events.rows ++ [⟨id, name, .str (E.enc n payload), now⟩]
  rows : ∃ rs ws js,
    db'.store.runs.rows =
      db.store.runs.rows.map
        (fun r => if releases E name value r then Store.wokenRow now r else r) ++ rs ∧
    db'.store.jobs.rows = db.store.jobs.rows ++ ws ++ js ∧
    List.Forall₂ (fun r j => ExecutionJob E r.workflow r.id now j)
      (db.store.runs.rows.filter (releases E name value)) ws ∧
    List.Forall₂ (TargetRun E (E.serde.toString (Store.eventInput name value now)) now) targets rs ∧
    List.Forall₂ (fun r j => ExecutionJob E r.workflow r.id now j) rs js
  entries : ∀ r ∈ db.store.runs.rows, releases E name value r = true →
    ∃ stepId st text, r.waitStepId = some stepId ∧ db'.store.steps.get? (r.id, stepId) = some st ∧
      st.completed = true ∧ st.kind = .waitForEvent ∧ st.result = some (.str text) ∧
      parse (E.dec text) = some (.obj [("event", v)])
  steps : ∀ k,
    (∀ r ∈ db.store.runs.rows, releases E name value r = true →
      ∀ stepId, r.waitStepId = some stepId →
    k ≠ (r.id, stepId)) → db'.store.steps.get? k = db.store.steps.get? k
  throttleCursors : db'.store.throttleCursors = db.store.throttleCursors
  instances : db'.instances = db.instances
  history : db'.history = db.history
  schedules : db'.schedules = db.schedules
  sessions : db'.sessions = db.sessions

section Rows

variable {E}

theorem execution_spec (workflow : String) (id : RunId) (now : Time) {db : Db} (hf : db.Fresh) :
    ∃ j, ExecutionJob E workflow id now j ∧
      (execution E workflow id now db).1.store.jobs.rows = db.store.jobs.rows ++ [j] ∧
      (execution E workflow id now db).1.store.runs = db.store.runs ∧
      (execution E workflow id now db).1.store.steps = db.store.steps ∧
      Framed db (execution E workflow id now db).1 ∧ (execution E workflow id now db).1.Fresh := by
  let job := { executionJob workflow id 0 with
    payload := .text (E.enc db.drawn (executionPayload id)) }
  have hnone : db.store.jobs.get? db.store.nextId = none :=
    Table.get?_eq_none_iff.mpr (fun j hj => Nat.ne_of_lt (hf.jobs j hj))
  have hrows : (execution E workflow id now db).1.store.jobs.rows =
      db.store.jobs.rows ++ [Store.newJobRow job db.store.nextId (now + 0) now] :=
        Table.rows_insert_fresh hnone
  refine ⟨_, ⟨db.drawn, rfl⟩, hrows, rfl, rfl, ⟨rfl, rfl, rfl, rfl, rfl, rfl, Nat.le_succ _⟩,
    ?_, ?_, ?_⟩
  · intro j hj
    rw [hrows, List.mem_append, List.mem_singleton] at hj
    obtain hj | rfl := hj
    · exact Nat.lt_succ_of_lt (hf.jobs j hj)
    · exact Nat.lt_succ_self _
  · intro r hr
    exact Nat.lt_succ_of_lt (hf.runs r hr)
  · intro e he
    exact Nat.lt_succ_of_lt (hf.events e he)

theorem waitEntry_recordStep (payload : String) (now : Time) (s : Store) (n : Nat) {runId : RunId}
    {stepId : StepId}
    (h : s.journaled runId stepId = false) :
    ∃ st, (s.recordStep runId stepId .waitForEvent (some (.str (E.enc n (eventEntry payload))))
      now).steps.get?
      (runId, stepId) = some st ∧ WaitEntry E payload st := by
  rw [Store.get?_recordStep, if_pos rfl]
  refine ⟨_, rfl, ?_⟩
  cases hst : s.steps.get? (runId, stepId) with
  | none => exact ⟨rfl, rfl, n, rfl⟩
  | some st =>
      have hopen : st.completed = false := by
        rwa [Store.journaled, hst] at h
      simp only [Option.elim_some, Store.completeRow, hopen]
      exact ⟨rfl, rfl, n, rfl⟩

theorem woken_spec (payload : String) (now : Time) {db : Db} (hf : db.Fresh) (c : Candidate) :
    Woke E payload now [c] db (woken E payload now db c).1 := by
  let stepId := c.waitStepId.getD ""
  let store :=
    (db.store.updateRun c.id (fun _ => true) (Store.wokenRow now)
      (Store.wokenRow_id now)).recordStep c.id stepId
    .waitForEvent (some (.str (E.enc db.drawn (eventEntry payload)))) now
  have hruns : store.runs.rows =
    db.store.runs.rows.map
      (fun r => if r.id ∈ [c].map (·.id) then Store.wokenRow now r else r) := by
    show db.store.runs.rows.map _ = _
    apply List.map_congr_left
    intro r _
    simp
  have hfresh : Fresh { db with store, drawn := db.drawn + 1 } := by
    refine ⟨hf.jobs, ?_, hf.events⟩
    intro r hr
    obtain ⟨q, hq, rfl⟩ := List.mem_map.mp (hruns ▸ hr)
    have hid : (if q.id ∈ [c].map (·.id) then Store.wokenRow now q else q).id = q.id := by
      split <;> rfl
    rw [hid]
    exact hf.runs q hq
  obtain ⟨j, hj, hjobs, hr, hs, hframe, hf'⟩ := execution_spec (E := E) c.workflow c.id now hfresh
  constructor
  · exact ⟨hframe.events, hframe.throttleCursors, hframe.instances, hframe.history,
      hframe.schedules, hframe.sessions,
      hframe.nextId_le⟩
  · exact ⟨[j], hjobs, .cons hj .nil⟩
  · exact (congrArg Table.rows hr).trans hruns
  · intro c' hc' hopen
    obtain rfl := List.mem_singleton.mp hc'
    obtain ⟨st, hst, hentry⟩ := waitEntry_recordStep (E := E) payload now
      (db.store.updateRun c'.id (fun _ => true) (Store.wokenRow now) (Store.wokenRow_id now))
        db.drawn hopen
    exact ⟨st, (congrArg (fun t => t.get? (entryKey c')) hs).trans hst, hentry⟩
  · intro k hk
    have hne : k ≠ (c.id, stepId) := fun he => hk (by simp [he, entryKey, stepId])
    refine (congrArg (fun t => t.get? k) hs).trans ?_
    show store.steps.get? k = _
    rw [Store.get?_recordStep, if_neg hne]
    rfl
  · exact hf'

theorem Woke.nil (payload : String) (now : Time) {db : Db} (hf : db.Fresh) :
    Woke E payload now [] db db where
  frame := .refl db
  jobs := ⟨[], by simp, .nil⟩
  runs := by simp
  entries c hc := nomatch hc
  steps _ _ := rfl
  fresh := hf

/-- The waiters are different runs, so no turn of the loop touches the entry of another. -/
theorem Woke.trans {payload : String} {now : Time} {cs cs' : List Candidate} {db db' db'' : Db}
    (h : Woke E payload now cs db db') (h' : Woke E payload now cs' db' db'')
    (hn : ((cs ++ cs').map (·.id)).Nodup) : Woke E payload now (cs ++ cs') db db'' := by
  have hother : ∀ c ∈ cs, ∀ c' ∈ cs', entryKey c ≠ entryKey c' := by
    intro c hc c' hc' he
    rw [List.map_append] at hn
    exact (List.nodup_append.mp hn).2.2 c.id (List.mem_map_of_mem hc) c'.id
      (List.mem_map_of_mem hc')
      (Prod.mk.inj he).1
  obtain ⟨js, hjs, hall⟩ := h.jobs
  obtain ⟨js', hjs', hall'⟩ := h'.jobs
  constructor
  · exact h.frame.trans h'.frame
  · exact ⟨js ++ js', by rw [hjs', hjs, List.append_assoc], List.rel_append hall hall'⟩
  · rw [h'.runs, h.runs, List.map_map]
    apply List.map_congr_left
    intro r _
    simp only [Function.comp_apply, List.map_append, List.mem_append]
    by_cases hr : r.id ∈ cs.map (·.id)
    · simp only [hr, if_true, true_or]
      split <;> rfl
    · simp [hr]
  · intro c hc hopen
    rcases List.mem_append.mp hc with hc | hc
    · obtain ⟨st, hst, hentry⟩ := h.entries c hc hopen
      refine ⟨st, ?_, hentry⟩
      rw [h'.steps (entryKey c), hst]
      intro hk
      obtain ⟨c', hc', he⟩ := List.mem_map.mp hk
      exact hother c hc c' hc' he.symm
    · apply h'.entries c hc
      have hsame : db'.store.steps.get? (entryKey c) = db.store.steps.get? (entryKey c) := by
        apply h.steps
        intro hk
        obtain ⟨c', hc', he⟩ := List.mem_map.mp hk
        exact hother c' hc' c hc he
      exact (congrArg (fun st => st.any (·.completed)) hsame).trans hopen
  · intro k hk
    rw [List.map_append, List.mem_append, not_or] at hk
    rw [h'.steps k hk.2, h.steps k hk.1]
  · exact h'.fresh

theorem mapAccum_woken (payload : String) (now : Time) (cs : List Candidate)
    (hn : (cs.map (·.id)).Nodup) {db : Db}
    (hf : db.Fresh) : Woke E payload now cs db (mapAccum (woken E payload now) db cs).1 := by
  induction cs generalizing db with
  | nil => exact .nil payload now hf
  | cons c cs ih =>
      have hfirst := woken_spec (E := E) payload now hf c
      have hrest := ih (List.nodup_cons.mp hn).2 hfirst.fresh
      rw [mapAccum_cons]
      exact hfirst.trans hrest hn

theorem begun_spec (input : String) (now : Time) {db : Db} (hf : db.Fresh) (t : TriggerTarget) :
    Began E input now [t] db (begun E input now db t).1 ∧ (begun E input now db t).1.Fresh := by
  let run := Store.targetRun (.str (E.enc db.drawn input)) t
  let store := db.store.addRun run now
  have hnone : db.store.runs.get? db.store.nextId = none :=
    Table.get?_eq_none_iff.mpr (fun r hr => Nat.ne_of_lt (hf.runs r hr))
  have hruns : store.runs.rows = db.store.runs.rows ++ [Store.newRow run db.store.nextId now] :=
    Table.rows_insert_fresh hnone
  have hfresh : Fresh { db with store, drawn := db.drawn + 1 } := by
    refine ⟨fun j hj => Nat.lt_succ_of_lt (hf.jobs j hj), ?_,
      fun e he => Nat.lt_succ_of_lt (hf.events e he)⟩
    intro r hr
    rw [hruns, List.mem_append, List.mem_singleton] at hr
    obtain hr | rfl := hr
    · exact Nat.lt_succ_of_lt (hf.runs r hr)
    · exact Nat.lt_succ_self _
  obtain ⟨j, hj, hjobs, hr, hs, hframe, hf'⟩ :=
    execution_spec (E := E) t.workflow db.store.nextId now hfresh
  refine ⟨⟨?_, ?_, hs⟩, hf'⟩
  · exact ⟨hframe.events, hframe.throttleCursors, hframe.instances, hframe.history,
      hframe.schedules, hframe.sessions,
      Nat.le_trans (Nat.le_succ _) hframe.nextId_le⟩
  · exact ⟨[_], [j], (congrArg Table.rows hr).trans hruns, hjobs, .cons ⟨db.drawn, rfl⟩ .nil,
      .cons hj .nil⟩

theorem mapAccum_begun (input : String) (now : Time) (ts : List TriggerTarget) {db : Db}
    (hf : db.Fresh) :
    Began E input now ts db (mapAccum (begun E input now) db ts).1 := by
  induction ts generalizing db with
  | nil => exact ⟨.refl db, ⟨[], [], by simp, by simp, .nil, .nil⟩, rfl⟩
  | cons t ts ih =>
      obtain ⟨hfirst, hf'⟩ := begun_spec (E := E) input now hf t
      have hrest := ih hf'
      obtain ⟨rs, js, hrs, hjs, hrun, hjob⟩ := hfirst.rows
      obtain ⟨rs', js', hrs', hjs', hrun', hjob'⟩ := hrest.rows
      rw [mapAccum_cons]
      refine ⟨hfirst.frame.trans hrest.frame, ⟨rs ++ rs', js ++ js', ?_, ?_, ?_, ?_⟩,
        hrest.steps.trans hfirst.steps⟩
      · rw [hrs', hrs, List.append_assoc]
      · rw [hjs', hjs, List.append_assoc]
      · exact List.rel_append hrun hrun'
      · exact List.rel_append hjob hjob'

theorem candidates_releases (name : String) (value : Json) (s : Store) :
    (s.candidates name []).filter (fun c => wakes E value c.waitMatch) =
      (s.runs.rows.filter (releases E name value)).map Store.candidate := by
  have hboth :
    (fun r : RunRow => ((fun c : Candidate => wakes E value c.waitMatch) ∘ Store.candidate) r &&
      Store.awaiting name [] r) = releases E name value := by
    funext r
    rw [releases, Store.awaiting, Function.comp_apply, Bool.and_comm]
    simp [Store.candidate]
  rw [Store.candidates, Table.select, List.filter_map, List.filter_filter, hboth]

theorem fresh_withEvent (name payload : String) (now : Time) {db : Db} (hf : db.Fresh) :
    (withEvent E name payload now db).1.store.events.rows =
      db.store.events.rows ++ [⟨db.store.nextId, name, .str (E.enc db.drawn payload), now⟩] ∧
    (withEvent E name payload now db).1.Fresh := by
  have hnone : db.store.events.get? db.store.nextId = none :=
    Table.get?_eq_none_iff.mpr (fun e he => Nat.ne_of_lt (hf.events e he))
  have hevents : (withEvent E name payload now db).1.store.events.rows =
      db.store.events.rows ++ [⟨db.store.nextId, name, .str (E.enc db.drawn payload), now⟩] :=
    Table.rows_insert_fresh hnone
  refine ⟨hevents, fun j hj => Nat.lt_succ_of_lt (hf.jobs j hj),
    fun r hr => Nat.lt_succ_of_lt (hf.runs r hr), ?_⟩
  intro e he
  rw [hevents, List.mem_append, List.mem_singleton] at he
  obtain he | rfl := he
  · exact Nat.lt_succ_of_lt (hf.events e he)
  · exact Nat.lt_succ_self _

theorem emitted_loops (hb : E.backend = .sqlite) {payload : String} {value : Json}
    (hvalid : E.serde.fromStr payload = some value)
    {db : Db} (hf : db.Fresh) (name : String) (targets : List TriggerTarget) (m : Moment) :
    ∃ db₁, Woke E payload m.now
      ((db.store.runs.rows.filter (releases E name value)).map Store.candidate)
        (withEvent E name payload m.now db).1 db₁ ∧
      Began E (E.serde.toString (Store.eventInput name value m.now)) m.now targets db₁
        (emitted E name payload targets m db).1 := by
  have hlocked : E.lockedRows m = [] := by
    rw [Env.lockedRows, hb]
  have hn : (((db.store.runs.rows.filter (releases E name value)).map Store.candidate).map
    (·.id)).Nodup := by
    rw [List.map_map]
    exact db.store.runs.nodup.sublist (List.filter_sublist.map RunRow.id)
  have hwoke :=
    mapAccum_woken (E := E) payload m.now _ hn (fresh_withEvent (E := E) name payload m.now hf).2
  have hbegan :=
    mapAccum_begun (E := E) (E.serde.toString (Store.eventInput name value m.now)) m.now targets
      hwoke.fresh
  refine ⟨_, hwoke, ?_⟩
  simp only [emitted, hvalid, Option.getD_some, hlocked, candidates_releases]
  exact hbegan

theorem mem_releases (name : String) (value : Json) {db : Db} {r : RunRow}
    (hr : r ∈ db.store.runs.rows) :
    r.id ∈ ((db.store.runs.rows.filter (releases E name value)).map Store.candidate).map (·.id) ↔
      releases E name value r = true := by
  rw [List.map_map]
  constructor
  · intro hid
    obtain ⟨q, hq, he⟩ := List.mem_map.mp hid
    obtain ⟨hq, hrel⟩ := List.mem_filter.mp hq
    rwa [← db.store.runs.key_injOn hq hr he]
  · intro hrel
    exact List.mem_map.mpr ⟨r, List.mem_filter.mpr ⟨hr, hrel⟩, rfl⟩

theorem Awaited.step {db : Db} (hw : db.Awaited) {name : String} {value : Json} {r : RunRow}
    (hr : r ∈ db.store.runs.rows)
    (hrel : releases E name value r = true) :
    r.waitStepId = some (r.waitStepId.getD "") ∧
      db.store.journaled r.id (r.waitStepId.getD "") = false := by
  simp only [releases, Bool.and_eq_true, decide_eq_true_eq] at hrel
  obtain ⟨stepId, hstep, hopen⟩ := hw r hr hrel.1.1
  rw [hstep, Option.getD_some]
  exact ⟨rfl, hopen⟩

theorem emitted_spec (hP : E.primitives.Lawful) (hb : E.backend = .sqlite)
    {parse : String → Option Json}
    (hparse : ∀ p v, parse p = some v → parse (eventEntry p) = some (.obj [("event", v)]))
    {payload : String} {value v : Json}
    (hvalid : E.serde.fromStr payload = some value) (hv : parse payload = some v) {db : Db}
    (hf : db.Fresh)
    (hw : db.Awaited) (name : String) (targets : List TriggerTarget) (m : Moment) :
    Emitted E parse name payload value v targets m.now db
      (emitted E name payload targets m db).1 := by
  obtain ⟨hevents, _⟩ := fresh_withEvent (E := E) name payload m.now hf
  obtain ⟨db₁, hwoke, hbegan⟩ := emitted_loops hb hvalid hf name targets m
  obtain ⟨ws, hws, hwall⟩ := hwoke.jobs
  obtain ⟨rs, js, hrs, hjs, hrun, hjob⟩ := hbegan.rows
  have hframe := hwoke.frame.trans hbegan.frame
  constructor
  · exact ⟨_, _, (congrArg Table.rows hframe.events).trans hevents⟩
  · refine ⟨rs, ws, js, ?_, ?_, List.forall₂_map_left_iff.mp hwall, hrun, hjob⟩
    · rw [hrs, hwoke.runs]
      congr 1
      apply List.map_congr_left
      intro r (hr : r ∈ db.store.runs.rows)
      have hmem := mem_releases (E := E) name value hr
      simp only [hmem]
    · rw [hjs, hws]
      rfl
  · intro r hr hrel
    obtain ⟨hstep, hopen⟩ := hw.step hr hrel
    obtain ⟨st, hst, hdone, hkind, n, hresult⟩ :=
      hwoke.entries (Store.candidate r) (List.mem_map_of_mem (List.mem_filter.mpr ⟨hr, hrel⟩)) hopen
    refine ⟨_, st, _, hstep, ?_, hdone, hkind, hresult, ?_⟩
    · rw [hbegan.steps]
      exact hst
    · rw [E.dec_enc hP n]
      exact hparse payload v hv
  · intro k hk
    rw [hbegan.steps, hwoke.steps k]
    · rfl
    · intro hmem
      obtain ⟨c, hc, rfl⟩ := List.mem_map.mp hmem
      obtain ⟨r, hr, rfl⟩ := List.mem_map.mp hc
      obtain ⟨hr, hrel⟩ := List.mem_filter.mp hr
      exact hk r hr hrel _ (hw.step hr hrel).1 rfl
  · exact hframe.throttleCursors
  · exact hframe.instances
  · exact hframe.history
  · exact hframe.schedules
  · exact hframe.sessions

end Rows

/-- An emit that succeeds is one exact step of the outbox, one that fails leaves every table
as it was, and one in which no statement fails succeeds. -/
theorem emit_exact {E : Env} (hP : E.primitives.Lawful) (hb : E.backend = .sqlite)
    {parse : String → Option Json}
    (hparse : ∀ p v, parse p = some v → parse (eventEntry p) = some (.obj [("event", v)]))
    {payload : String} {value v : Json}
    (hvalid : E.serde.fromStr payload = some value) (hv : parse payload = some v) {db : Db}
    (hf : db.Fresh)
    (hw : db.Awaited) (name : String) (targets : List TriggerTarget) (m : Moment) :
    (∀ fault outcome db', StoreCall.perform E m fault (.emitEvent name payload targets) db =
    (.ok outcome, db') →
      Emitted E parse name payload value v targets m.now db db') ∧
    (∀ fault e db', StoreCall.perform E m fault (.emitEvent name payload targets) db =
    (.error e, db') → db' = db) ∧
    ∃ outcome db',
      StoreCall.perform E m none (.emitEvent name payload targets) db = (.ok outcome, db') := by
  have hcomputes := computes_emitted (E := E) name payload targets m
  refine ⟨?_, ?_, ?_⟩
  · intro fault outcome db' hrun
    have hdb := hcomputes.atomic_ok hrun
    have hspec := emitted_spec hP hb hparse hvalid hv hf hw name targets m
    rwa [hdb] at hspec
  · intro fault e db' hrun
    exact Stmts.atomic_error hrun
  · exact ⟨_, _, hcomputes.atomic_total db⟩

theorem readJson_eventEntry (numeral : List Char → Json) (p : String) (v : Json)
    (h : readJson numeral p = some v) :
    readJson numeral (eventEntry p) = some (.obj [("event", v)]) := by
  have hentry := readJson_field numeral "event".toList h
  rw [readJson, eventEntry, String.toList_append, String.toList_append, List.append_assoc]
  exact hentry

def wholeNumber (text : List Char) : Json := .int (Nat.ofDigitChars 10 text 0)

def waitingDb : Db :=
  let run : NewRun := ⟨"order", .str "1", none, none, none, none, none⟩
  let row := Store.waitingEventRow "go" "wait#0" none none 0 (Store.newRow run 0 0)
  { Db.empty with store := { Store.empty with runs := Table.empty.insert row, nextId := 1 } }

theorem waitingDb_fresh : waitingDb.Fresh where
  jobs j hj := nomatch hj
  runs r hr := by
    obtain rfl := List.mem_singleton.mp hr
    decide
  events e he := nomatch he

theorem waitingDb_awaited : waitingDb.Awaited := by
  intro r hr _
  obtain rfl := List.mem_singleton.mp hr
  exact ⟨"wait#0", rfl, rfl⟩

theorem emit_exact_go :
    let E := Env.tagged ⟨readJson wholeNumber, fun _ => "2"⟩
    let m : Moment := ⟨5, 5, []⟩
    (∀ fault outcome db',
      StoreCall.perform E m fault (.emitEvent "go" "7" [⟨"ship", none⟩]) waitingDb =
        (.ok outcome, db') →
      Emitted E (readJson wholeNumber) "go" "7" (.int 7) (.int 7) [⟨"ship", none⟩] 5
        waitingDb db') ∧
    (∀ fault e db', StoreCall.perform E m fault (.emitEvent "go" "7" [⟨"ship", none⟩]) waitingDb =
      (.error e, db') →
      db' = waitingDb) ∧
    ∃ outcome db', StoreCall.perform E m none (.emitEvent "go" "7" [⟨"ship", none⟩]) waitingDb =
      (.ok outcome, db') :=
  emit_exact Primitives.tagged_lawful rfl (readJson_eventEntry wholeNumber) (by decide +kernel)
    (by decide +kernel)
    waitingDb_fresh waitingDb_awaited "go" [⟨"ship", none⟩] ⟨5, 5, []⟩

end Db

end ZenZip
