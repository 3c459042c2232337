import ZenZip.Crypto.Calls

namespace ZenZip

open Lib

theorem JobRow.mapText_id (g : String → String) (j : JobRow) : (j.mapText g).id = j.id := rfl

theorem RunRow.mapText_id (g : String → String) (r : RunRow) : (r.mapText g).id = r.id := rfl

theorem StepRow.mapText_key (g : String → String) (st : StepRow) :
    (st.mapText g).key = st.key := rfl

theorem EventRow.mapText_id (g : String → String) (e : EventRow) : (e.mapText g).id = e.id := rfl

namespace Store

variable {α : Type} (g : String → String)

/-- The payload columns rewritten text by text, everything else as it is. -/
def mapText (s : Store) : Store :=
  { s with jobs := s.jobs.map (JobRow.mapText g) (JobRow.mapText_id g),
           runs := s.runs.map (RunRow.mapText g) (RunRow.mapText_id g),
           steps := s.steps.map (StepRow.mapText g) (StepRow.mapText_key g),
           events := s.events.map (EventRow.mapText g) (EventRow.mapText_id g) }

/-- The operation works on the rows whatever their payloads say. -/
def Blind (op : Store → Store × α) : Prop := ∀ s, op (s.mapText g) = ((op s).1.mapText g, (op s).2)

/-- With the texts read back, the operation has written what it is given. -/
def Reads (enc : String → String) (op : (String → String) → Store → Store × α) : Prop :=
  ∀ s, op id (s.mapText g) = ((op enc s).1.mapText g, (op enc s).2)

variable {g}

theorem Blind.discard {op : Store → Store × α} (h : Blind g op) :
    Blind g (fun s => ((op s).1, ())) := by
  intro s
  simp only [h s]

section Jobs

variable {p : JobRow → Bool} (hp : ∀ j, p (j.mapText g) = p j)

include hp

theorem select_jobs (s : Store) : (s.mapText g).jobs.select p = (s.jobs.select p).map
    (JobRow.mapText g) :=
  Table.select_map s.jobs (JobRow.mapText_id g) hp

theorem count_jobs (s : Store) : ((s.mapText g).jobs.select p).length =
    (s.jobs.select p).length := by
  rw [select_jobs hp, List.length_map]

theorem blind_updateJobs {f : JobRow → JobRow} (hf : ∀ j, (f j).id = j.id)
    (hfg : ∀ j, f (j.mapText g) = (f j).mapText g) :
    Blind g (fun s => s.updateJobs p f hf) := by
  intro s
  have hjobs : (s.mapText g).jobs.update p f hf =
    (s.jobs.update p f hf).map (JobRow.mapText g) (JobRow.mapText_id g) :=
    Table.update_map s.jobs (JobRow.mapText_id g) hp hfg
  simp only [updateJobs, hjobs, count_jobs hp]
  rfl

theorem blind_deleteJobs : Blind g
    (fun s => ({ s with jobs := s.jobs.delete p }, (s.jobs.select p).length)) := by
  intro s
  have hjobs : (s.mapText g).jobs.delete p =
    (s.jobs.delete p).map (JobRow.mapText g) (JobRow.mapText_id g) :=
    Table.delete_map s.jobs (JobRow.mapText_id g) hp
  simp only [hjobs, count_jobs hp]
  rfl

end Jobs

theorem blind_dropDebounced (job : PushJob) : Blind g (fun s => (s.dropDebounced job, ())) :=
  (blind_deleteJobs (p := debounced job) (fun _ => rfl)).discard

theorem blind_ack (id : JobId) (fence : Nat) : Blind g (fun s => (s.ack id fence, ())) :=
  (blind_deleteJobs (p := fun j => j.id = id && j.fence = fence) (fun _ => rfl)).discard

theorem blind_purgeDead (queue : String) : Blind g (fun s => s.purgeDead queue) :=
  blind_deleteJobs (p := deadIn queue) (fun _ => rfl)

theorem blind_failRetry (id : JobId) (error : String) (availableAt : Time) (fence : Nat)
    (now : Time) :
    Blind g (fun s => (s.failRetry id error availableAt fence now, ())) :=
  (blind_updateJobs (p := fun j => j.id = id && j.fence = fence) (fun _ => rfl)
    (f := retryRow error availableAt now)
    (fun _ => rfl) (fun _ => rfl)).discard

theorem blind_failDead (id : JobId) (error : String) (fence : Nat) (now : Time) :
    Blind g (fun s => (s.failDead id error fence now, ())) :=
  (blind_updateJobs (p := fun j => j.id = id && j.fence = fence) (fun _ => rfl)
    (f := deadRow error now)
    (fun _ => rfl) (fun _ => rfl)).discard

theorem blind_requeueDead (ids : List JobId) (now : Time) :
    Blind g (fun s => s.requeueDead ids now) :=
  blind_updateJobs (p := fun j => j.id ∈ ids && j.status = .dead) (fun _ => rfl)
    (f := requeueRow now) (fun _ => rfl)
    (fun _ => rfl)

theorem reads_addJob {enc : String → String} (he : ∀ t, g (enc t) = t) (job : PushJob)
    (availableAt now : Time) :
    Reads g enc
      (fun enc s => s.addJob { job with payload := job.payload.mapText enc } availableAt now) := by
  intro s
  have hpayload : (job.payload.mapText enc).mapText g = job.payload.mapText id := by
    cases job.payload with
    | execution id => rfl
    | data v => cases v <;> simp [Payload.mapText, Json.mapText, he]
  have hrow : newJobRow { job with payload := job.payload.mapText id } s.nextId availableAt now =
      (newJobRow { job with payload := job.payload.mapText enc } s.nextId availableAt now).mapText
        g := by
    simp only [newJobRow, JobRow.mapText, hpayload]
  have hjobs := Table.insert_map s.jobs (JobRow.mapText_id g)
    (newJobRow { job with payload := job.payload.mapText enc } s.nextId availableAt now)
  rw [← hrow] at hjobs
  exact congrArg (fun jobs => ({ s.mapText g with jobs, nextId := s.nextId + 1 }, s.nextId)) hjobs

theorem blind_setCursor (queue tkey : String) (next : Time) :
    Blind g (fun s => (s.setCursor queue tkey next, ())) :=
  fun _ => rfl

theorem sort_map {R R' : Type} {m : R → R'} {r : R → R → Prop} {r' : R' → R' → Prop}
    [DecidableRel r] [DecidableRel r']
    (h : ∀ a b, r a b ↔ r' (m a) (m b)) (l : List R) :
    (l.map m).insertionSort r' = (l.insertionSort r).map m := by
  symm
  apply List.map_insertionSort
  intro a _ b _
  exact h a b

section Claim

variable (rows : List JobRow) (s : Store)

theorem rowNumber_mapText (j : JobRow) :
    rowNumber (rows.map (JobRow.mapText g)) (j.mapText g) = rowNumber rows j := by
  rw [rowNumber, List.filter_map, List.length_map, rowNumber]
  rfl

theorem runningOfKey_mapText (j : JobRow) :
    (s.mapText g).runningOfKey (j.mapText g) = s.runningOfKey j := by
  have hkey : (j.mapText g).concurrencyKey = j.concurrencyKey := rfl
  simp only [runningOfKey, hkey]
  cases j.concurrencyKey with
  | none => rfl
  | some k => exact count_jobs (fun _ => rfl) s

theorem ready_mapText (queue : String) (now : Time) :
    (s.mapText g).ready queue now = (s.ready queue now).map (JobRow.mapText g) :=
  select_jobs (fun _ => rfl) s

theorem claimIds_mapText (queue : String) (limit : Nat) (keyLimit : Option Nat) (fair : Bool)
    (now : Time) :
    (s.mapText g).claimIds queue limit keyLimit fair now =
    s.claimIds queue limit keyLimit fair now := by
  have hrank : ∀ j,
    (s.mapText g).keyRank ((s.ready queue now).map (JobRow.mapText g)) (j.mapText g) =
      s.keyRank (s.ready queue now) j := by
    intro j
    rw [keyRank, runningOfKey_mapText, rowNumber_mapText, keyRank]
  have hfair (rows l : List JobRow) :
      (l.map (JobRow.mapText g)).insertionSort
        (fun a b => fairBefore (rows.map (JobRow.mapText g)) a b) =
        (l.insertionSort (fun a b => fairBefore rows a b)).map (JobRow.mapText g) := by
    apply sort_map
    intro a b
    simp only [fairBefore, rowNumber_mapText]
    rfl
  have hid (l : List JobRow) : (l.map (JobRow.mapText g)).insertionSort (fun a b => a.id ≤ b.id) =
      (l.insertionSort (fun a b => a.id ≤ b.id)).map (JobRow.mapText g) :=
    sort_map (m := JobRow.mapText g) (fun _ _ => Iff.rfl) l
  have hclaim (l : List JobRow) : (l.map (JobRow.mapText g)).insertionSort
    (fun a b => claimBefore a b) =
      (l.insertionSort (fun a b => claimBefore a b)).map (JobRow.mapText g) :=
    sort_map (m := JobRow.mapText g) (fun _ _ => Iff.rfl) l
  have hids (l : List JobRow) : ((l.map (JobRow.mapText g)).take limit).map (·.id) =
    (l.take limit).map (·.id) := by
    rw [← List.map_take, List.map_map]
    rfl
  have hnull (j : JobRow) : (j.mapText g).concurrencyKey = j.concurrencyKey := rfl
  simp only [claimIds, ready_mapText, List.filter_map, hfair, hid, hclaim]
  cases keyLimit with
  | none =>
      have hpass : (fun j : JobRow => j.concurrencyKey.isNone || true) ∘ JobRow.mapText g =
          fun j => j.concurrencyKey.isNone || true := rfl
      rw [hpass]
      cases fair <;> exact hids _
  | some cap =>
      have hpass : (fun j : JobRow => j.concurrencyKey.isNone ||
            decide ((s.mapText g).keyRank ((s.ready queue now).map (JobRow.mapText g)) j ≤ cap)) ∘
              JobRow.mapText g =
          fun j => j.concurrencyKey.isNone || decide (s.keyRank (s.ready queue now) j ≤ cap) := by
        funext j
        rw [Function.comp_apply, hrank, hnull]
      rw [hpass]
      cases fair <;> exact hids _

theorem claim_mapText (queue : String) (limit : Nat) (leaseMs : Int) (keyLimit : Option Nat)
    (fair : Bool) (now : Time) :
    (s.mapText g).claim queue limit leaseMs keyLimit fair now =
      ((s.claim queue limit leaseMs keyLimit fair now).1.mapText g,
        (s.claim queue limit leaseMs keyLimit fair now).2.map (ClaimedJob.mapText g)) := by
  let p := fun j : JobRow => decide (j.id ∈ s.claimIds queue limit keyLimit fair now)
  have hp : ∀ j, p (j.mapText g) = p j := fun _ => rfl
  have hjobs : (s.mapText g).jobs.update p (claimRow leaseMs now) (fun _ => rfl) =
      (s.jobs.update p (claimRow leaseMs now) (fun _ => rfl)).map (JobRow.mapText g)
        (JobRow.mapText_id g) :=
    Table.update_map s.jobs (JobRow.mapText_id g) hp (fun _ => rfl)
  have hsort (l : List JobRow) : (l.map (JobRow.mapText g)).insertionSort
    (fun a b => claimBefore a b) =
      (l.insertionSort (fun a b => claimBefore a b)).map (JobRow.mapText g) :=
    sort_map (m := JobRow.mapText g) (fun _ _ => Iff.rfl) l
  have hclaimed : claimed ∘ JobRow.mapText g = ClaimedJob.mapText g ∘ claimed := rfl
  simp only [claim, claimIds_mapText]
  simp only [p] at hjobs hp
  rw [hjobs, Table.select_map _ (JobRow.mapText_id g) hp, hsort, List.map_map, List.map_map,
    hclaimed]
  rfl

end Claim

section Runs

variable {p : RunRow → Bool} (hp : ∀ r, p (r.mapText g) = p r)

include hp

theorem select_runs (s : Store) : (s.mapText g).runs.select p = (s.runs.select p).map
    (RunRow.mapText g) :=
  Table.select_map s.runs (RunRow.mapText_id g) hp

theorem any_runs (s : Store) (id : RunId) :
    ((s.mapText g).runs.get? id).any p = (s.runs.get? id).any p := by
  have hget : (s.mapText g).runs.get? id = (s.runs.get? id).map (RunRow.mapText g) :=
    Table.get?_map s.runs (RunRow.mapText_id g) id
  rw [hget, Option.any_map]
  simp [hp]

theorem blind_updateRuns {f : RunRow → RunRow} (hf : ∀ r, (f r).id = r.id)
    (hfg : ∀ r, f (r.mapText g) = (f r).mapText g) :
    Blind g (fun s => ({ s with runs := s.runs.update p f hf }, (s.runs.select p).length)) := by
  intro s
  have hruns : (s.mapText g).runs.update p f hf =
    (s.runs.update p f hf).map (RunRow.mapText g) (RunRow.mapText_id g) :=
    Table.update_map s.runs (RunRow.mapText_id g) hp hfg
  simp only [hruns, select_runs hp, List.length_map]
  rfl

theorem blind_deleteRuns : Blind g (fun s => s.deleteRuns p) := by
  intro s
  have hruns : (s.mapText g).runs.delete p =
    (s.runs.delete p).map (RunRow.mapText g) (RunRow.mapText_id g) :=
    Table.delete_map s.runs (RunRow.mapText_id g) hp
  simp only [deleteRuns, hruns, select_runs hp, List.length_map]
  rfl

theorem blind_deleteSteps : Blind g (fun s => s.deleteSteps p) := by
  intro s
  let ofRuns := fun st : StepRow => (s.runs.get? st.runId).any p
  have hread : (fun st : StepRow => ((s.mapText g).runs.get? st.runId).any p) = ofRuns := by
    funext st
    exact any_runs hp s st.runId
  have hsteps : (s.mapText g).steps.delete ofRuns =
    (s.steps.delete ofRuns).map (StepRow.mapText g) (StepRow.mapText_key g) :=
    Table.delete_map s.steps (StepRow.mapText_key g) (fun _ => rfl)
  have hselect : (s.mapText g).steps.select ofRuns =
    (s.steps.select ofRuns).map (StepRow.mapText g) :=
    Table.select_map s.steps (StepRow.mapText_key g) (fun _ => rfl)
  simp only [deleteSteps, hread, hsteps, hselect, List.length_map]
  rfl

end Runs

theorem blind_updateRun (id : RunId) (guard : RunRow → Bool)
    (hg : ∀ r, guard (r.mapText g) = guard r)
    {f : RunRow → RunRow} (hf : ∀ r, (f r).id = r.id)
    (hfg : ∀ r, f (r.mapText g) = (f r).mapText g) :
    Blind g (fun s => (s.updateRun id guard f hf, ())) := by
  apply Blind.discard (blind_updateRuns (p := fun r => decide (r.id = id) && guard r) _ hf hfg)
  intro r
  rw [RunRow.mapText_id, hg]

theorem blind_wakeParent (id : RunId) (now : Time) : Blind g (fun s => s.wakeParent id now) := by
  intro s
  have hrow := blind_updateRun (g := g) id (fun r => r.status = .waitChild) (fun _ => rfl)
    (f := wokenParentRow now) (fun _ => rfl) (fun _ => rfl) s
  have hany := any_runs (g := g) (p := fun r => r.status = .waitChild) (fun _ => rfl) s id
  simp only [wakeParent, hany]
  exact congrArg (fun t => (t.1, _)) hrow

section Cancel

variable (s : Store)

theorem childrenOf_mapText : (s.mapText g).childrenOf = s.childrenOf := by
  funext id
  rw [childrenOf, select_runs (fun _ => rfl), List.map_map, childrenOf]
  rfl

theorem cancelRow_mapText (id : RunId) (now : Time) :
    (s.mapText g).cancelRow id now = (s.cancelRow id now).mapText g :=
  congrArg Prod.fst (blind_updateRun (g := g) id (fun r => !r.status.terminal) (fun _ => rfl)
    (f := cancelledRow now) (fun _ => rfl) (fun _ => rfl) s)

theorem cancelLoop_mapText (now : Time) (fuel : Nat) (frontier : List RunId) (s : Store) :
    cancelLoop now fuel frontier (s.mapText g) =
      ((cancelLoop now fuel frontier s).1.mapText g, (cancelLoop now fuel frontier s).2) := by
  induction fuel generalizing frontier s with
  | zero => rfl
  | succ fuel ih =>
      cases frontier with
      | nil => rfl
      | cons id frontier =>
          have hgoing := any_runs (g := g) (p := fun r => !r.status.terminal) (fun _ => rfl) s id
          simp only [cancelLoop, hgoing]
          split
          · simp only [cancelRow_mapText, childrenOf_mapText, ih]
          · exact ih frontier s

theorem blind_cancelRunTree (root : RunId) (now : Time) :
    Blind g (fun s => s.cancelRunTree root now) := by
  intro s
  have hrows : (s.mapText g).runs.rows.length = s.runs.rows.length := List.length_map ..
  simp only [cancelRunTree, hrows]
  exact cancelLoop_mapText now _ [root] s

theorem tree_mapText (root : RunId) : Postgres.tree (s.mapText g) root = Postgres.tree s root := by
  have hrows : (s.mapText g).runs.rows.length = s.runs.rows.length := List.length_map ..
  rw [Postgres.tree, childrenOf_mapText, hrows, select_runs (fun _ => rfl), List.map_map,
    Postgres.tree]
  rfl

theorem blind_postgresCancelRunTree (root : RunId) (now : Time) :
    Blind g (fun s => Postgres.cancelRunTree s root now) := by
  intro s
  simp only [Postgres.cancelRunTree, tree_mapText]
  exact blind_updateRuns (p := fun r => decide (r.id ∈ Postgres.tree s root) && !r.status.terminal)
    (fun _ => rfl)
    (Postgres.cancelledRow_id now) (fun _ => rfl) s

end Cancel

theorem blind_sweepEventTimeouts (timeout : Time) (locked : List RunId) :
    Blind g (fun s => s.sweepEventTimeouts timeout locked) := by
  intro s
  have hp : ∀ r, timedOut timeout locked (r.mapText g) = timedOut timeout locked r := fun _ => rfl
  have hruns :=
    blind_updateRuns hp (f := timedOutRow timeout) (timedOutRow_id timeout) (fun _ => rfl) s
  simp only [sweepEventTimeouts, select_runs hp, List.map_map]
  exact congrArg (fun t => (t.1, _)) hruns

theorem blind_deleteEvents (before : Time) : Blind g (fun s => s.deleteEvents before) := by
  intro s
  let p := fun e : EventRow => decide (e.emittedAt < before)
  have hdelete : (s.mapText g).events.delete p =
    (s.events.delete p).map (EventRow.mapText g) (EventRow.mapText_id g) :=
    Table.delete_map s.events (EventRow.mapText_id g) (fun _ => rfl)
  have hselect : (s.mapText g).events.select p = (s.events.select p).map (EventRow.mapText g) :=
    Table.select_map s.events (EventRow.mapText_id g) (fun _ => rfl)
  simp only [deleteEvents]
  rw [hdelete, hselect, List.length_map]
  rfl

theorem blind_stepFailedAttempt (runId : RunId) (stepId : StepId) (error : String) (now : Time) :
    Blind g (fun s => s.stepFailedAttempt runId stepId error now) := by
  intro s
  let row : StepRow :=
    { runId, stepId, kind := .run, completed := false, result := none, error := some error,
      attempts := 1,
      updatedAt := now }
  let again :=
    fun r : StepRow => { r with attempts := r.attempts + 1, error := some error, updatedAt := now }
  have hsteps : (s.mapText g).steps.upsert row again (fun _ => rfl) =
      (s.steps.upsert row again (fun _ => rfl)).map (StepRow.mapText g) (StepRow.mapText_key g) :=
    Table.upsert_map s.steps (StepRow.mapText_key g) row (fun _ => rfl)
  have hget :=
    Table.get?_map (s.steps.upsert row again (fun _ => rfl)) (StepRow.mapText_key g) (runId, stepId)
  simp only [stepFailedAttempt]
  rw [hsteps, hget, Option.map_map]
  rfl

section Reads

variable {enc : String → String} (he : ∀ t, g (enc t) = t)

include he

theorem mapText_sealed (v : Json) : (v.mapText enc).mapText g = v.mapText id := by
  cases v <;> simp [Json.mapText, he]

theorem reads_addEvent (name payload : String) (now : Time) :
    Reads g enc (fun enc s => s.addEvent name (.str (enc payload)) now) := by
  intro s
  have hevents :=
    Table.insert_map s.events (EventRow.mapText_id g) ⟨s.nextId, name, .str (enc payload), now⟩
  have hrow : EventRow.mapText g ⟨s.nextId, name, .str (enc payload), now⟩ =
    ⟨s.nextId, name, .str payload, now⟩ := by
    simp [EventRow.mapText, Json.mapText, he]
  rw [hrow] at hevents
  exact congrArg
    (fun events => ({ s.mapText g with events, nextId := s.nextId + 1 }, s.nextId)) hevents

theorem reads_addRun (run : NewRun) (now : Time) :
    Reads g enc
      (fun enc s =>
        (s.addRun { run with input := run.input.mapText enc } now, (s.nextId, true))) := by
  intro s
  have hruns := Table.insert_map s.runs (RunRow.mapText_id g)
    (newRow { run with input := run.input.mapText enc } s.nextId now)
  have hrow : (newRow { run with input := run.input.mapText enc } s.nextId now).mapText g =
      newRow { run with input := run.input.mapText id } s.nextId now := by
    simp [RunRow.mapText, newRow, mapText_sealed he]
  rw [hrow] at hruns
  exact congrArg
    (fun runs => ({ s.mapText g with runs, nextId := s.nextId + 1 }, (s.nextId, true))) hruns

theorem reads_recordStep (runId : RunId) (stepId : StepId) (kind : StepKind)
    (result : Option String) (now : Time) :
    Reads g enc
      (fun enc s =>
        (s.recordStep runId stepId kind (result.map (fun t => .str (enc t))) now, ())) := by
  intro s
  have hresult : (result.map (fun t => Json.str (enc t))).map (Json.mapText g) =
    result.map .str := by
    cases result <;> simp [Json.mapText, he]
  have hrow (r : StepRow) : completeRow kind (result.map .str) now (r.mapText g) =
      (completeRow kind (result.map (fun t => .str (enc t))) now r).mapText g := by
    have hdone : (r.mapText g).completed = r.completed := rfl
    simp only [completeRow, hdone]
    split
    · rfl
    · simp only [StepRow.mapText, hresult]
  let row : StepRow := ⟨runId, stepId, kind, true, result.map (fun t => .str (enc t)), none, 0, now⟩
  have hsteps : (s.mapText g).steps.upsert (row.mapText g)
    _ (completeRow_key kind (result.map .str) now) =
      (s.steps.upsert row _ (completeRow_key kind (result.map (fun t => .str (enc t))) now)).map
        (StepRow.mapText g)
        (StepRow.mapText_key g) :=
    Table.upsert_map s.steps (StepRow.mapText_key g) row hrow
  simp only [row, StepRow.mapText, hresult] at hsteps
  exact congrArg (fun steps => ({ s.mapText g with steps }, ())) hsteps

theorem reads_runCompleted (E : Env) (id : RunId) (output : Option String) (now : Time) :
    Reads g enc (fun enc s =>
      (s.updateRun id (fun _ => true)
        (Db.ended E (completedRow (output.map (fun t => .str (enc t))) now))
        (Db.ended_id E (fun _ => rfl)), ())) := by
  intro s
  have houtput : (output.map (fun t => Json.str (enc t))).map (Json.mapText g) =
    output.map .str := by
    cases output <;> simp [Json.mapText, he]
  have hrow (r : RunRow) : Db.ended E (completedRow (output.map .str) now) (r.mapText g) =
      (Db.ended E (completedRow (output.map (fun t => .str (enc t))) now) r).mapText g := by
    unfold Db.ended
    split <;> simp [completedRow, RunRow.mapText, houtput]
  have hid (output : Option Json) : ∀ r, (Db.ended E (completedRow output now) r).id = r.id :=
    Db.ended_id E (fun _ => rfl)
  have hruns : (s.mapText g).runs.update (fun r => decide (r.id = id) && true)
    _ (hid (output.map .str)) =
      (s.runs.update (fun r => decide (r.id = id) && true)
        _ (hid (output.map (fun t => .str (enc t))))).map
        (RunRow.mapText g) (RunRow.mapText_id g) :=
    Table.update_map s.runs (RunRow.mapText_id g) (fun _ => rfl) hrow
  exact congrArg (fun runs => ({ s.mapText g with runs }, ())) hruns

end Reads

section Queries

variable (s : Store)

theorem runOfKey_mapText (workflow : String) (key : Option IdempotencyKey) :
    (s.mapText g).runOfKey workflow key = s.runOfKey workflow key := by
  cases key with
  | none => rfl
  | some k =>
      show ((s.runs.rows.map (RunRow.mapText g)).find? _).map _ = _
      rw [List.find?_map, Option.map_map]
      rfl

theorem candidates_mapText (name : String) (locked : List RunId) :
    (s.mapText g).candidates name locked = s.candidates name locked := by
  rw [candidates, select_runs (fun _ => rfl), List.map_map, candidates]
  rfl

theorem getRun_mapText (id : RunId) :
    (s.mapText g).getRun id = (s.getRun id).map (RunRow.mapText g) :=
  Table.get?_map s.runs (RunRow.mapText_id g) id

theorem loadJournal_mapText (runId : RunId) :
    (s.mapText g).loadJournal runId = (s.loadJournal runId).map (StepEntry.mapText g) := by
  have hselect : (s.mapText g).steps.select (fun r => r.runId = runId && r.completed) =
      (s.steps.select (fun r => r.runId = runId && r.completed)).map (StepRow.mapText g) :=
    Table.select_map s.steps (StepRow.mapText_key g) (fun _ => rfl)
  rw [loadJournal, hselect, List.map_map, loadJournal, List.map_map]
  rfl

theorem stepsForRun_mapText (runId : RunId) :
    (s.mapText g).stepsForRun runId = (s.stepsForRun runId).map (StepRow.mapText g) := by
  have hselect : (s.mapText g).steps.select (fun st => st.runId = runId) =
      (s.steps.select (fun st => st.runId = runId)).map (StepRow.mapText g) :=
    Table.select_map s.steps (StepRow.mapText_key g) (fun _ => rfl)
  rw [stepsForRun, hselect, sort_map (m := StepRow.mapText g) (fun _ _ => Iff.rfl)]
  rfl

theorem runsList_mapText (workflow : Option String) (status : Option RunStatus) (limit : Nat) :
    (s.mapText g).runsList workflow status limit = (s.runsList workflow status limit).map
      (RunRow.mapText g) := by
  rw [runsList, select_runs (fun _ => rfl),
    sort_map (m := RunRow.mapText g) (fun _ _ => Iff.rfl), ← List.map_take]
  rfl

theorem recentEvents_mapText (limit : Nat) :
    (s.mapText g).recentEvents limit = (s.recentEvents limit).map (EventRow.mapText g) := by
  have hrows : (s.mapText g).events.rows = s.events.rows.map (EventRow.mapText g) := rfl
  rw [recentEvents, hrows, sort_map (m := EventRow.mapText g) (fun _ _ => Iff.rfl), ← List.map_take]
  rfl

theorem deadJobs_mapText (queue : String) (limit : Nat) :
    (s.mapText g).deadJobs queue limit = (s.deadJobs queue limit).map (DeadJob.mapText g) := by
  rw [deadJobs, select_jobs (fun _ => rfl),
    sort_map (m := JobRow.mapText g) (fun _ _ => Iff.rfl), ← List.map_take,
    List.map_map, deadJobs, List.map_map]
  rfl

theorem statOf_mapText : (s.mapText g).statOf = s.statOf := by
  funext queue
  simp only [statOf, pendingCount,
    count_jobs (g := g) (p := fun j => j.queue = queue && j.status = .pending) (fun _ => rfl),
    count_jobs (g := g) (p := fun j => j.queue = queue && j.status = .running) (fun _ => rfl),
    count_jobs (g := g) (p := deadIn queue) (fun _ => rfl)]

theorem queueStats_mapText : (s.mapText g).queueStats = s.queueStats := by
  have hqueues : (s.mapText g).jobs.rows.map (·.queue) = s.jobs.rows.map (·.queue) := by
    show (s.jobs.rows.map (JobRow.mapText g)).map (·.queue) = _
    rw [List.map_map]
    rfl
  rw [queueStats, statOf_mapText, hqueues, queueStats]

end Queries

end Store

end ZenZip
