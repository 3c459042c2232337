import ZenZip.Store.Jobs

namespace ZenZip

open Lib

namespace Store

/-- The row a new run starts as. The columns of a wait and of the result are null. -/
def newRow (run : NewRun) (id : RunId) (now : Time) : RunRow :=
  { id, workflow := run.workflow, status := .runnable, input := run.input, output := none,
    error := none,
    version := run.version, idempotencyKey := run.idempotencyKey, parentRunId := run.parentRunId,
    parentStepId := run.parentStepId, waitEvent := none, waitStepId := none, waitMatch := none,
    wakeAt := none, subject := run.subject, createdAt := now, updatedAt := now }

/-- `SELECT id FROM runs WHERE workflow = ? AND idempotency_key = ?`; no key finds no run. -/
def runOfKey (s : Store) (workflow : String) (key : Option IdempotencyKey) : Option RunId :=
  match key with
  | none => none
  | some k =>
      (s.runs.rows.find? (fun r => r.workflow = workflow && r.idempotencyKey = some k)).map (·.id)

def addRun (s : Store) (run : NewRun) (now : Time) : Store :=
  { s with runs := s.runs.insert (newRow run s.nextId now), nextId := s.nextId + 1 }

theorem get?_addRun (s : Store) (run : NewRun) (now : Time) (k : RunId) :
    (s.addRun run now).runs.get? k =
      if k = s.nextId then some ((s.runs.get? k).getD (newRow run s.nextId now))
        else s.runs.get? k :=
  Table.get?_insert ..

def createRun (s : Store) (run : NewRun) (now : Time) : Store × (RunId × Bool) :=
  match s.runOfKey run.workflow run.idempotencyKey with
  | some id => (s, (id, false))
  | none => (s.addRun run now, (s.nextId, true))

theorem createRun_jobs (s : Store) (run : NewRun) (now : Time) :
    (s.createRun run now).1.jobs = s.jobs := by
  unfold createRun
  split <;> rfl

theorem createRun_steps (s : Store) (run : NewRun) (now : Time) :
    (s.createRun run now).1.steps = s.steps := by
  unfold createRun
  split <;> rfl

theorem createRun_nextId_le (s : Store) (run : NewRun) (now : Time) :
    s.nextId ≤ (s.createRun run now).1.nextId := by
  unfold createRun
  split
  · exact Nat.le_refl _
  · exact Nat.le_succ _

theorem createRun_cases (s : Store) (run : NewRun) (now : Time) :
    (∃ id, s.runOfKey run.workflow run.idempotencyKey = some id ∧
    s.createRun run now = (s, (id, false))) ∨
    (s.runOfKey run.workflow run.idempotencyKey = none ∧
      s.createRun run now = (s.addRun run now, (s.nextId, true))) := by
  unfold createRun
  cases h : s.runOfKey run.workflow run.idempotencyKey with
  | none => exact .inr ⟨rfl, rfl⟩
  | some id => exact .inl ⟨id, rfl, rfl⟩

theorem get?_createRun_of_some {s : Store} {id : RunId} {r : RunRow} (run : NewRun) (now : Time)
    (h : s.runs.get? id = some r) : (s.createRun run now).1.runs.get? id = some r := by
  obtain ⟨_, _, he⟩ | ⟨_, he⟩ := s.createRun_cases run now
  · rw [he]
    exact h
  · rw [he]
    simp [get?_addRun, h]

theorem runOfKey_eq_some {s : Store} {workflow : String} {key : Option IdempotencyKey} {id : RunId}
    (h : s.runOfKey workflow key = some id) :
    ∃ r, s.runs.get? id = some r ∧ r.workflow = workflow ∧ r.idempotencyKey = key := by
  cases key with
  | none => cases h
  | some k =>
      obtain ⟨r, hr, rfl⟩ := Option.map_eq_some_iff.mp h
      have hp := List.find?_some hr
      simp only [Bool.and_eq_true, decide_eq_true_eq] at hp
      exact ⟨r, Table.get?_key (List.mem_of_find?_eq_some hr), hp⟩

def getRun (s : Store) (id : RunId) : Option RunRow := s.runs.get? id

def loadJournal (s : Store) (runId : RunId) : List StepEntry :=
  (s.steps.select (fun r => r.runId = runId && r.completed)).map
    (fun r => ⟨r.stepId, r.kind, r.result⟩)

/-- A completed entry is left as it is. -/
def completeRow (kind : StepKind) (result : Option Json) (now : Time) (r : StepRow) : StepRow :=
  if r.completed then r else { r with completed := true, result, kind, updatedAt := now }

theorem completeRow_key (kind : StepKind) (result : Option Json) (now : Time) (r : StepRow) :
    (completeRow kind result now r).key = r.key := by
  unfold completeRow
  split <;> rfl

theorem completeRow_twice (kind : StepKind) (result : Option Json) (now : Time) (r : StepRow) :
    completeRow kind result now (completeRow kind result now r) =
    completeRow kind result now r := by
  unfold completeRow
  by_cases h : r.completed = true <;> simp [h]

def recordStep (s : Store) (runId : RunId) (stepId : StepId) (kind : StepKind)
    (result : Option Json)
    (now : Time) : Store :=
  let row : StepRow :=
    { runId, stepId, kind, completed := true, result, error := none, attempts := 0,
      updatedAt := now }
  { s with
    steps := s.steps.upsert row (completeRow kind result now) (completeRow_key kind result now) }

def journaled (s : Store) (runId : RunId) (stepId : StepId) : Bool :=
  (s.steps.get? (runId, stepId)).any (·.completed)

theorem get?_recordStep (s : Store) (runId : RunId) (stepId : StepId) (kind : StepKind)
    (result : Option Json) (now : Time) (k : RunId × StepId) :
    (s.recordStep runId stepId kind result now).steps.get? k =
      if k = (runId, stepId) then
        some ((s.steps.get? k).elim ⟨runId, stepId, kind, true, result, none, 0, now⟩
          (completeRow kind result now))
      else s.steps.get? k := Table.get?_upsert ..

theorem journaled_recordStep (s : Store) (runId : RunId) (stepId : StepId) (kind : StepKind)
    (result : Option Json) (now : Time) :
    (s.recordStep runId stepId kind result now).journaled runId stepId := by
  rw [journaled, get?_recordStep, if_pos rfl]
  cases s.steps.get? (runId, stepId) with
  | none => rfl
  | some r =>
      simp only [Option.elim_some, Option.any_some, completeRow]
      split
      · assumption
      · rfl

def stepFailedAttempt (s : Store) (runId : RunId) (stepId : StepId) (error : String) (now : Time) :
    Store × Nat :=
  let row : StepRow :=
    { runId, stepId, kind := .run, completed := false, result := none, error := some error,
      attempts := 1,
      updatedAt := now }
  let steps := s.steps.upsert row
    (fun r => { r with attempts := r.attempts + 1, error := some error, updatedAt := now })
      (fun _ => rfl)
  ({ s with steps }, ((steps.get? (runId, stepId)).map (·.attempts)).getD 0)

theorem get?_stepFailedAttempt (s : Store) (runId : RunId) (stepId : StepId) (error : String)
    (now : Time)
    (k : RunId × StepId) :
    (s.stepFailedAttempt runId stepId error now).1.steps.get? k =
      if k = (runId, stepId) then
        some ((s.steps.get? k).elim ⟨runId, stepId, .run, false, none, some error, 1, now⟩
          (fun r => { r with attempts := r.attempts + 1, error := some error, updatedAt := now }))
      else s.steps.get? k := Table.get?_upsert ..

/-- `UPDATE runs SET f WHERE id = ? AND guard`. -/
def updateRun (s : Store) (id : RunId) (guard : RunRow → Bool) (f : RunRow → RunRow)
    (hf : ∀ r, (f r).id = r.id) : Store :=
  { s with runs := s.runs.update (fun r => decide (r.id = id) && guard r) f hf }

theorem get?_updateRun (s : Store) (id : RunId) (guard : RunRow → Bool) (f : RunRow → RunRow)
    (hf : ∀ r, (f r).id = r.id) (k : RunId) :
    (s.updateRun id guard f hf).runs.get? k =
      if k = id then (s.runs.get? k).map (fun r => if guard r then f r else r) else s.runs.get? k :=
  Table.get?_update_key s.runs id guard f hf k

def completedRow (output : Option Json) (now : Time) (r : RunRow) : RunRow :=
  { r with
    status := .completed, output, waitEvent := none, waitStepId := none, wakeAt := none,
    updatedAt := now }

def failedRow (error : String) (now : Time) (r : RunRow) : RunRow :=
  { r with
    status := .failed, error := some error, waitEvent := none, waitStepId := none, wakeAt := none,
           updatedAt := now }

def sleepingRow (wakeAt now : Time) (r : RunRow) : RunRow :=
  { r with status := .sleeping, wakeAt := some wakeAt, updatedAt := now }

def waitingEventRow (event : String) (stepId : StepId) (timeoutAt : Option Time)
    (matchJson : Option Json)
    (now : Time) (r : RunRow) : RunRow :=
  { r with
    status := .waitEvent, waitEvent := some event, waitStepId := some stepId, wakeAt := timeoutAt,
           waitMatch := matchJson, updatedAt := now }

def waitingChildRow (now : Time) (r : RunRow) : RunRow :=
  { r with status := .waitChild, updatedAt := now }

def wokenParentRow (now : Time) (r : RunRow) : RunRow :=
  { r with status := .runnable, updatedAt := now }

def runCompleted (s : Store) (id : RunId) (output : Option Json) (now : Time) : Store :=
  s.updateRun id (fun _ => true) (completedRow output now) (fun _ => rfl)

def runFailed (s : Store) (id : RunId) (error : String) (now : Time) : Store :=
  s.updateRun id (fun _ => true) (failedRow error now) (fun _ => rfl)

def runSleeping (s : Store) (id : RunId) (wakeAt now : Time) : Store :=
  s.updateRun id (fun _ => true) (sleepingRow wakeAt now) (fun _ => rfl)

def runWaitingEvent (s : Store) (id : RunId) (event : String) (stepId : StepId)
    (timeoutAt : Option Time)
    (matchJson : Option Json) (now : Time) : Store :=
  s.updateRun id (fun _ => true) (waitingEventRow event stepId timeoutAt matchJson now)
    (fun _ => rfl)

def runWaitingChild (s : Store) (id : RunId) (now : Time) : Store :=
  s.updateRun id (fun _ => true) (waitingChildRow now) (fun _ => rfl)

def wakeParent (s : Store) (id : RunId) (now : Time) : Store × Bool :=
  (s.updateRun id (fun r => r.status = .waitChild) (wokenParentRow now) (fun _ => rfl),
    (s.runs.get? id).any (fun r => r.status = .waitChild))

def cancelledRow (now : Time) (r : RunRow) : RunRow :=
  { r with
    status := .cancelled, waitEvent := none, waitStepId := none, wakeAt := none, updatedAt := now }

def cancelRow (s : Store) (id : RunId) (now : Time) : Store :=
  s.updateRun id (fun r => !r.status.terminal) (cancelledRow now) (fun _ => rfl)

def childrenOf (s : Store) (id : RunId) : List RunId :=
  (s.runs.select (fun r => r.parentRunId = some id)).map (·.id)

theorem get?_cancelRow (s : Store) (id : RunId) (now : Time) (k : RunId) :
    (s.cancelRow id now).runs.get? k =
      if k = id then (s.runs.get? k).map
        (fun r => if !r.status.terminal then cancelledRow now r else r)
      else s.runs.get? k :=
  get?_updateRun s id (fun r => !r.status.terminal) (cancelledRow now) (fun _ => rfl) k

/-- The worklist of the cancellation: the top of the stack is cancelled unless
it has ended, and only then are its children pushed. -/
def cancelLoop (now : Time) : Nat → List RunId → Store → Store × Nat
  | 0, _, s => (s, 0)
  | _ + 1, [], s => (s, 0)
  | fuel + 1, id :: frontier, s =>
    if (s.runs.get? id).any (fun r => !r.status.terminal) then
      let s' := s.cancelRow id now
      let (s'', n) := cancelLoop now fuel ((s'.childrenOf id).reverse ++ frontier) s'
      (s'', n + 1)
    else cancelLoop now fuel frontier s

/-- Each row is pushed at most once, by its parent, so the number of rows bounds the loop. -/
def cancelRunTree (s : Store) (root : RunId) (now : Time) : Store × Nat :=
  cancelLoop now (s.runs.rows.length + 1) [root] s

theorem get?_cancelLoop (now : Time) (fuel : Nat) (frontier : List RunId) (s : Store) (k : RunId) :
    (cancelLoop now fuel frontier s).1.runs.get? k = s.runs.get? k ∨
      ∃ r, s.runs.get? k = some r ∧ r.status.terminal = false ∧
        (cancelLoop now fuel frontier s).1.runs.get? k = some (cancelledRow now r) := by
  induction fuel generalizing frontier s with
  | zero => exact .inl rfl
  | succ fuel ih =>
      cases frontier with
      | nil => exact .inl rfl
      | cons id frontier =>
          rw [cancelLoop]
          split
          · have hu := get?_cancelRow s id now k
            generalize s.cancelRow id now = s' at hu ⊢
            cases hr : s.runs.get? k with
            | none =>
                rw [hr, Option.map_none, ite_self] at hu
                obtain h | ⟨r, h, _⟩ := ih ((s'.childrenOf id).reverse ++ frontier) s'
                · exact .inl (h.trans hu)
                · rw [hu] at h
                  cases h
            | some r =>
                rw [hr, Option.map_some] at hu
                by_cases hc : k = id ∧ r.status.terminal = false
                · rw [if_pos hc.1, hc.2] at hu
                  refine .inr ⟨r, rfl, hc.2, ?_⟩
                  obtain h | ⟨r', h, ht, _⟩ := ih ((s'.childrenOf id).reverse ++ frontier) s'
                  · exact h.trans hu
                  · rw [hu] at h
                    cases h
                    cases ht
                · have hs : s'.runs.get? k = some r := by
                    rw [hu]
                    split
                    · next hk =>
                        rw [Bool.eq_true_of_not_eq_false (fun ht => hc ⟨hk, ht⟩)]
                        rfl
                    · rfl
                  rw [← hs]
                  exact ih ((s'.childrenOf id).reverse ++ frontier) s'
          · exact ih frontier s

structure CancelledBy (s s' : Store) (id : RunId) : Prop where
  before : ∃ r, s.runs.get? id = some r ∧ r.status.terminal = false
  after : ∃ r, s'.runs.get? id = some r ∧ r.status = .cancelled

theorem get?_cancelRow_self {s : Store} {id : RunId} {r : RunRow} (h : s.runs.get? id = some r)
    (ht : r.status.terminal = false) (now : Time) :
    (s.cancelRow id now).runs.get? id = some (cancelledRow now r) := by
  rw [get?_cancelRow, if_pos rfl, h, Option.map_some, ht]
  rfl

theorem get?_cancelRow_ne (s : Store) {id k : RunId} (h : k ≠ id) (now : Time) :
    (s.cancelRow id now).runs.get? k = s.runs.get? k := by
  rw [get?_cancelRow, if_neg h]

theorem cancelLoop_cancelled (now : Time) (fuel : Nat) (frontier : List RunId) (s : Store)
    {k : RunId}
    (hk : CancelledBy s (cancelLoop now fuel frontier s).1 k) :
    k ∈ frontier ∨ ∃ r p, s.runs.get? k = some r ∧ r.parentRunId = some p ∧
      CancelledBy s (cancelLoop now fuel frontier s).1 p := by
  have hstays {s s' : Store} (h : s' = s) : ¬ CancelledBy s s' k := by
    rintro ⟨⟨r, hr, ht⟩, r', hr', hs⟩
    subst h
    rw [hr] at hr'
    cases hr'
    rw [hs] at ht
    cases ht
  induction fuel generalizing frontier s with
  | zero => exact absurd hk (hstays rfl)
  | succ fuel ih =>
      cases frontier with
      | nil => exact absurd hk (hstays rfl)
      | cons id frontier =>
          rw [cancelLoop] at hk ⊢
          by_cases hact : (s.runs.get? id).any (fun r => !r.status.terminal) = true
          · simp only [hact, if_true] at hk ⊢
            by_cases hid : k = id
            · exact .inl (by simp [hid])
            obtain ⟨q, hq, hqt⟩ := (Option.any_eq_true _ _).mp hact
            have hqt : q.status.terminal = false := by simpa using hqt
            have hsame {p : RunId} (hp : p ≠ id) := s.get?_cancelRow_ne hp now
            have hself := get?_cancelRow_self hq hqt now
            generalize s.cancelRow id now = s' at hk hsame hself ⊢
            have hback {p : RunId}
              (hp : CancelledBy s'
                (cancelLoop now fuel ((s'.childrenOf id).reverse ++ frontier) s').1 p) :
                CancelledBy s
                  (cancelLoop now fuel ((s'.childrenOf id).reverse ++ frontier) s').1 p := by
              obtain ⟨⟨r, hr, ht⟩, ha⟩ := hp
              by_cases hpid : p = id
              · subst hpid
                rw [hself] at hr
                cases hr
                cases ht
              · exact ⟨⟨r, (hsame hpid).symm.trans hr, ht⟩, ha⟩
            have hk' : CancelledBy s'
              (cancelLoop now fuel ((s'.childrenOf id).reverse ++ frontier) s').1 k := by
              obtain ⟨⟨r, hr, ht⟩, ha⟩ := hk
              exact ⟨⟨r, (hsame hid).trans hr, ht⟩, ha⟩
            obtain hm | ⟨r, p, hr, hp, hc⟩ := ih ((s'.childrenOf id).reverse ++ frontier) s' hk'
            · rw [List.mem_append, List.mem_reverse] at hm
              obtain hm | hm := hm
              · obtain ⟨r, hr, rfl⟩ := List.mem_map.mp hm
                obtain ⟨hr, hp⟩ := Table.mem_select.mp hr
                refine .inr
                  ⟨r, id, (hsame hid).symm.trans (Table.get?_key hr), by simpa using hp,
                    ⟨q, hq, hqt⟩, ?_⟩
                obtain he | ⟨r', hr', ht', _⟩ :=
                  get?_cancelLoop now fuel ((s'.childrenOf id).reverse ++ frontier) s' id
                · exact ⟨_, he.trans hself, rfl⟩
                · rw [hself] at hr'
                  cases hr'
                  cases ht'
              · exact .inl (List.mem_cons_of_mem _ hm)
            · exact .inr ⟨r, p, (hsame hid).symm.trans hr, hp, hback hc⟩
          · simp only [hact] at hk ⊢
            obtain hm | hp := ih frontier s hk
            · exact .inl (List.mem_cons_of_mem _ hm)
            · exact .inr hp

theorem cancelLoop_steps (now : Time) (fuel : Nat) (frontier : List RunId) (s : Store) :
    (cancelLoop now fuel frontier s).1.steps = s.steps ∧
    (cancelLoop now fuel frontier s).1.jobs = s.jobs ∧
      (cancelLoop now fuel frontier s).1.nextId = s.nextId := by
  induction fuel generalizing frontier s with
  | zero => exact ⟨rfl, rfl, rfl⟩
  | succ fuel ih =>
      cases frontier with
      | nil => exact ⟨rfl, rfl, rfl⟩
      | cons id frontier =>
          rw [cancelLoop]
          split
          · exact ih ..
          · exact ih ..

def aged (before : Time) (r : RunRow) : Bool := r.status.terminal && r.updatedAt < before

def gcRuns (s : Store) (before : Time) : Store :=
  { s with steps := s.steps.delete (fun st => (s.runs.get? st.runId).any (aged before)),
           runs := s.runs.delete (aged before) }

def gc (s : Store) (runBefore eventBefore : Option Time) : Store × GcStats :=
  let s' := match runBefore with
    | some before => s.gcRuns before
    | none => s
  let events := match eventBefore with
    | some before => s.events.delete (fun e => e.emittedAt < before)
    | none => s.events
  ({ s' with events },
    ⟨s.runs.rows.length - s'.runs.rows.length, s.steps.rows.length - s'.steps.rows.length,
      s.events.rows.length - events.rows.length⟩)

def purgeSubject (s : Store) (subject : String) : Store × Nat :=
  let p := fun r : RunRow => decide (r.subject = some subject)
  ({ s with
    steps := s.steps.delete (fun st => (s.runs.get? st.runId).any p), runs := s.runs.delete p },
    (s.runs.select p).length)

end Store

end ZenZip
