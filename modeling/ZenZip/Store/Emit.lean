import ZenZip.Store.Runs

namespace ZenZip

open Lib

/-- Every key of an object predicate equals the same key of the payload; no
predicate, or one that is not an object, lets every payload through. -/
def matchSubset (matchJson : Option Json) (payload : Json) : Bool :=
  match matchJson with
  | some (.obj fields) => fields.all (fun f => payload.get f.1 = some f.2)
  | _ => true

namespace Store

def wokenRow (now : Time) (r : RunRow) : RunRow :=
  { r with
    status := .runnable, waitEvent := none, waitStepId := none, waitMatch := none, wakeAt := none,
           updatedAt := now }

def releaseWaiter (payload : Json) (now : Time) (s : Store) (r : RunRow) : Store × Waiter :=
  let stepId := r.waitStepId.getD ""
  let s := s.updateRun r.id (fun _ => true) (wokenRow now) (fun _ => rfl)
  let s := s.recordStep r.id stepId .waitForEvent (some (.obj [("event", payload)])) now
  let s := (s.insertJobRow (workflowExecutionJob r.workflow r.id 0) now).1
  (s, ⟨r.id, r.workflow, stepId⟩)

def targetRun (input : Json) (t : TriggerTarget) : NewRun :=
  ⟨t.workflow, input, t.version, none, none, none, none⟩

def startTarget (input : Json) (now : Time) (s : Store) (t : TriggerTarget) :
    Store × TriggeredRun :=
  let (s, id, _) := s.createRun (targetRun input t) now
  ((s.insertJobRow (workflowExecutionJob t.workflow id 0) now).1, ⟨t.workflow, id⟩)

@[simp] theorem releaseWaiter_nextId (payload : Json) (now : Time) (s : Store) (r : RunRow) :
    (releaseWaiter payload now s r).1.nextId = s.nextId + 1 := rfl

theorem get?_releaseWaiter (payload : Json) (now : Time) (s : Store) (r : RunRow) (k : RunId) :
    (releaseWaiter payload now s r).1.runs.get? k =
      if k = r.id then (s.runs.get? k).map (wokenRow now) else s.runs.get? k :=
  get?_updateRun s r.id (fun _ => true) (wokenRow now) (fun _ => rfl) k

/-- Waking a row twice is waking it once. -/
theorem get?_releaseWaiters (payload : Json) (now : Time) (s : Store) (ws : List RunRow)
    (k : RunId) :
    (mapAccum (releaseWaiter payload now) s ws).1.runs.get? k =
      if k ∈ ws.map (·.id) then (s.runs.get? k).map (wokenRow now) else s.runs.get? k := by
  induction ws generalizing s with
  | nil => simp
  | cons w ws ih =>
      rw [mapAccum_cons, ih, get?_releaseWaiter]
      by_cases hk : k = w.id
      · subst hk
        simp only [if_true, List.map_cons, List.mem_cons, true_or, Option.map_map]
        split <;> rfl
      · simp [hk]

theorem steps_releaseWaiter (payload : Json) (now : Time) (s : Store) (r : RunRow) :
    (releaseWaiter payload now s r).1.steps =
      (s.recordStep r.id (r.waitStepId.getD "") .waitForEvent (some (.obj [("event", payload)]))
        now).steps := rfl

theorem steps_startTarget (input : Json) (now : Time) (s : Store) (t : TriggerTarget) :
    (startTarget input now s t).1.steps = s.steps := createRun_steps s (targetRun input t) now

theorem get?_steps_releaseWaiters (payload : Json) (now : Time) (s : Store) (ws : List RunRow)
    (k : RunId × StepId) :
    (mapAccum (releaseWaiter payload now) s ws).1.steps.get? k =
      if k ∈ ws.map (fun w => (w.id, w.waitStepId.getD "")) then
        some ((s.steps.get? k).elim
          ⟨k.1, k.2, .waitForEvent, true, some (.obj [("event", payload)]), none, 0, now⟩
          (completeRow .waitForEvent (some (.obj [("event", payload)])) now))
      else s.steps.get? k := by
  induction ws generalizing s with
  | nil => simp
  | cons w ws ih =>
      rw [mapAccum_cons, ih, steps_releaseWaiter, get?_recordStep]
      by_cases hk : k = (w.id, w.waitStepId.getD "")
      · subst hk
        simp only [if_true, List.map_cons, List.mem_cons, true_or, Option.elim_some]
        split
        · cases s.steps.get? (w.id, w.waitStepId.getD "") with
          | none => rfl
          | some r => rw [Option.elim_some, completeRow_twice]
        · rfl
      · simp [hk]

theorem startTarget_fst (input : Json) (now : Time) (s : Store) (t : TriggerTarget) :
    (startTarget input now s t).1 =
      ((s.addRun (targetRun input t) now).insertJobRow (workflowExecutionJob t.workflow s.nextId 0)
        now).1 := rfl

theorem startTarget_nextId (input : Json) (now : Time) (s : Store) (t : TriggerTarget) :
    (startTarget input now s t).1.nextId = s.nextId + 2 := rfl

theorem startTarget_grows (input : Json) (now : Time) (s : Store) (t : TriggerTarget) :
    JobsGrow (fun _ => False)
      (fun j => s.nextId < j.id ∧ Pushed now (workflowExecutionJob t.workflow s.nextId 0) j) s
      (startTarget input now s t).1 := by
  have hgrow := insertJobRow_keeps (workflowExecutionJob t.workflow s.nextId 0) rfl
    (s.addRun (targetRun input t) now) now
  rw [startTarget_fst]
  refine ⟨hgrow.kept, fun j hj => ?_, Nat.le_trans (Nat.le_succ _) hgrow.nextId_le⟩
  obtain hj | ⟨hge, hlt, hp⟩ := hgrow.origin j hj
  · exact .inl hj
  · exact .inr ⟨Nat.le_of_succ_le hge, hlt, hge, hp⟩

theorem get?_startTarget_of_none {input : Json} {now : Time} {s : Store} {t : TriggerTarget}
    {id : RunId}
    (h : s.runs.get? id = none) :
    (startTarget input now s t).1.runs.get? id =
      if id = s.nextId then some (newRow (targetRun input t) id now) else none := by
  rw [startTarget_fst, insertJobRow_runs, get?_addRun, h, Option.getD_none]
  by_cases hid : id = s.nextId
  · subst hid
    rfl
  · simp [hid]

def Started (input : Json) (now : Time) (ts : List TriggerTarget) (n : Nat) (id : RunId)
    (s : Store) : Prop :=
  ∃ t ∈ ts, n ≤ id ∧ id < s.nextId ∧ s.runs.get? id = some (newRow (targetRun input t) id now) ∧
    ∃ j ∈ s.jobs.rows, n ≤ j.id ∧ Pushed now (workflowExecutionJob t.workflow id 0) j

theorem startTargets_of_none {input : Json} {now : Time} {s : Store} {ts : List TriggerTarget}
    {id : RunId}
    (hf : ∀ j ∈ s.jobs.rows, j.id < s.nextId) (h : s.runs.get? id = none) :
    (mapAccum (startTarget input now) s ts).1.runs.get? id = none ∨
      Started input now ts s.nextId id (mapAccum (startTarget input now) s ts).1 := by
  have hloop := @mapAccum_preserves _ _ _ (startTarget input now)
    (fun s' : Store => (∀ j ∈ s'.jobs.rows, j.id < s'.nextId) ∧ s.nextId ≤ s'.nextId ∧
      (s'.runs.get? id = none ∨ Started input now ts s.nextId id s')) ts ?_ s
        ⟨hf, Nat.le_refl _, .inl h⟩
  · exact hloop.2.2
  rintro s' t ht ⟨hf, hle, hid⟩
  have hgrow := startTarget_grows input now s' t
  refine ⟨hgrow.fresh hf, Nat.le_trans hle hgrow.nextId_le, ?_⟩
  obtain hnone | ⟨t', ht', hge, hlt, hrow, j, hj, hp⟩ := hid
  · rw [get?_startTarget_of_none hnone]
    by_cases he : id = s'.nextId
    · subst he
      refine .inr ⟨t, ht, hle, ?_, ?_, ?_⟩
      · rw [startTarget_nextId]
        exact Nat.lt_add_of_pos_right (by decide)
      · rw [get?_startTarget_of_none hnone, if_pos rfl]
      · rw [startTarget_fst]
        exact ⟨_, newJobRow_mem_insertJobRow _ _ _ (fun j hj => Nat.lt_succ_of_lt (hf j hj)),
          Nat.le_succ_of_le hle, pushed_newJobRow ..⟩
    · exact .inl (if_neg he)
  · have hrow' := get?_createRun_of_some (targetRun input t) now hrow
    have hj' := (hgrow.kept j hj).resolve_left not_false
    exact .inr ⟨t', ht', hge, Nat.lt_of_lt_of_le hlt hgrow.nextId_le, hrow', j, hj', hp⟩

theorem steps_startTargets (input : Json) (now : Time) (s : Store) (ts : List TriggerTarget) :
    (mapAccum (startTarget input now) s ts).1.steps = s.steps :=
  mapAccum_preserves _ (fun s' : Store => s'.steps = s.steps)
    (fun s' t _ h => (steps_startTarget input now s' t).trans h) rfl

theorem get?_startTargets_of_some {input : Json} {now : Time} {s : Store} {ts : List TriggerTarget}
    {id : RunId} {r : RunRow} (h : s.runs.get? id = some r) :
    (mapAccum (startTarget input now) s ts).1.runs.get? id = some r := by
  refine mapAccum_preserves _ (fun s' : Store => s'.runs.get? id = some r) ?_ h
  intro s' t _ h
  exact get?_createRun_of_some (targetRun input t) now h

theorem releaseWaiter_grows (payload : Json) (now : Time) (s : Store) (r : RunRow) :
    JobsGrow (fun _ => False) (Pushed now (workflowExecutionJob r.workflow r.id 0)) s
      (releaseWaiter payload now s r).1 where
  kept := (insertJobRow_keeps (workflowExecutionJob r.workflow r.id 0) rfl s now).kept
  origin := (insertJobRow_keeps (workflowExecutionJob r.workflow r.id 0) rfl s now).origin
  nextId_le := Nat.le_succ _

/-- The waiters an emit releases. `locked` are the rows another transaction
holds, which the Postgres statement skips; in SQLite there are none. -/
def waitersOf (s : Store) (name : String) (payload : Json) (locked : List RunId) : List RunRow :=
  s.runs.select (fun r => r.status = .waitEvent && r.waitEvent = some name && r.id ∉ locked &&
    matchSubset r.waitMatch payload)

def eventInput (name : String) (payload : Json) (now : Time) : Json :=
  .obj [("emittedAt", .int now), ("event", .str name), ("payload", payload)]

def emitInTx (s : Store) (name : String) (payload : Json) (targets : List TriggerTarget)
    (locked : List RunId) (now : Time) : Store × EmitOutcome :=
  let eventId := s.nextId
  let event : EventRow := ⟨eventId, name, payload, now⟩
  let (s, waiters) := mapAccum (releaseWaiter payload now)
    { s with events := s.events.insert event, nextId := s.nextId + 1 }
      (s.waitersOf name payload locked)
  let (s, triggered) := mapAccum (startTarget (eventInput name payload now) now) s targets
  (s, ⟨eventId, waiters, triggered⟩)

theorem releaseWaiters_grows (payload : Json) (now : Time) (s : Store) (ws : List RunRow) :
    JobsGrow (fun _ => False)
      (fun j => ∃ r ∈ ws, Pushed now (workflowExecutionJob r.workflow r.id 0) j) s
      (mapAccum (releaseWaiter payload now) s ws).1 :=
  JobsGrow.loop (fun s r hr => (releaseWaiter_grows payload now s r).mono (fun _ h => h)
    (fun _ h => ⟨r, hr, h⟩)) s

theorem startTargets_grows (input : Json) (now : Time) (s : Store) (ts : List TriggerTarget) :
    JobsGrow (fun _ => False)
      (fun j => ∃ t ∈ ts, ∃ id, s.nextId ≤ id ∧ id < j.id ∧
      Pushed now (workflowExecutionJob t.workflow id 0) j) s
      (mapAccum (startTarget input now) s ts).1 := by
  refine mapAccum_preserves _ (JobsGrow _ _ s) ?_ (JobsGrow.of_jobs_eq rfl (Nat.le_refl _))
  intro s' t ht h
  exact h.trans ((startTarget_grows input now s' t).mono (fun _ h => h)
    (fun _ ⟨hlt, hp⟩ => ⟨t, ht, s'.nextId, h.nextId_le, hlt, hp⟩))

section Emit

variable (s : Store) (name : String) (payload : Json) (targets : List TriggerTarget)
  (locked : List RunId)
  (now : Time)

def released : Store :=
  (mapAccum (releaseWaiter payload now)
    { s with events := s.events.insert ⟨s.nextId, name, payload, now⟩, nextId := s.nextId + 1 }
    (s.waitersOf name payload locked)).1

theorem emitInTx_fst : (s.emitInTx name payload targets locked now).1 =
    (mapAccum (startTarget (eventInput name payload now) now) (s.released name payload locked now)
      targets).1 := rfl

theorem released_grows : JobsGrow (fun _ => False)
    (fun j => ∃ r ∈ s.waitersOf name payload locked,
    Pushed now (workflowExecutionJob r.workflow r.id 0) j) s
    (s.released name payload locked now) := by
  have hevent : JobsGrow (fun _ => False)
      (fun j => ∃ r ∈ s.waitersOf name payload locked,
        Pushed now (workflowExecutionJob r.workflow r.id 0) j) s
      { s with events := s.events.insert ⟨s.nextId, name, payload, now⟩, nextId := s.nextId + 1 } :=
    .of_jobs_eq rfl (Nat.le_succ _)
  exact hevent.trans (releaseWaiters_grows payload now _ _)

theorem emitInTx_grows : JobsGrow (fun _ => False)
    (fun j => (∃ r ∈ s.waitersOf name payload locked,
    Pushed now (workflowExecutionJob r.workflow r.id 0) j) ∨
      ∃ t ∈ targets, ∃ id, s.nextId ≤ id ∧ id < j.id ∧ Pushed now
        (workflowExecutionJob t.workflow id 0) j) s
    (s.emitInTx name payload targets locked now).1 := by
  rw [emitInTx_fst]
  have hrel := s.released_grows name payload locked now
  have htar :=
    startTargets_grows (eventInput name payload now) now
      (s.released name payload locked now) targets
  refine (hrel.mono (fun _ h => h) (fun _ h => .inl h)).trans (htar.mono (fun _ h => h) ?_)
  rintro j ⟨t, ht, id, hge, hlt, hp⟩
  exact .inr ⟨t, ht, id, Nat.le_trans hrel.nextId_le hge, hlt, hp⟩

theorem get?_emitInTx_of_none {id : RunId} (hf : ∀ j ∈ s.jobs.rows, j.id < s.nextId)
    (h : s.runs.get? id = none) :
    (s.emitInTx name payload targets locked now).1.runs.get? id = none ∨
      Started (eventInput name payload now) now targets s.nextId id
        (s.emitInTx name payload targets locked now).1 := by
  have hrel := s.released_grows name payload locked now
  have hnone : (s.released name payload locked now).runs.get? id = none := by
    rw [released, get?_releaseWaiters, h]
    simp
  rw [emitInTx_fst]
  obtain hn | ⟨t, ht, hge, hlt, hrow, j, hj, hjge, hp⟩ := startTargets_of_none (hrel.fresh hf) hnone
  · exact .inl hn
  · exact .inr
      ⟨t, ht, Nat.le_trans hrel.nextId_le hge, hlt, hrow, j, hj,
        Nat.le_trans hrel.nextId_le hjge, hp⟩

theorem emitInTx_pushes (hf : ∀ j ∈ s.jobs.rows, j.id < s.nextId) {r : RunRow}
    (hr : r ∈ s.waitersOf name payload locked) :
    ∃ j ∈ (s.emitInTx name payload targets locked now).1.jobs.rows, s.nextId ≤ j.id ∧
      Pushed now (workflowExecutionJob r.workflow r.id 0) j := by
  have hrel : ∃ j ∈ (s.released name payload locked now).jobs.rows, s.nextId ≤ j.id ∧
      Pushed now (workflowExecutionJob r.workflow r.id 0) j := by
    refine mapAccum_each (releaseWaiter payload now)
      (fun s' : Store => (∀ j ∈ s'.jobs.rows, j.id < s'.nextId) ∧ s.nextId ≤ s'.nextId)
      (fun (r : RunRow) (s' : Store) => ∃ j ∈ s'.jobs.rows, s.nextId ≤ j.id ∧
        Pushed now (workflowExecutionJob r.workflow r.id 0) j) ?_ ?_ ?_ ?_ r hr
    · rintro s' r _ ⟨hf, hle⟩
      have hg := releaseWaiter_grows payload now s' r
      exact ⟨hg.fresh hf, Nat.le_trans hle hg.nextId_le⟩
    · rintro s' r _ ⟨hf, hle⟩
      exact ⟨_, newJobRow_mem_insertJobRow _ _ _ hf, hle, pushed_newJobRow ..⟩
    · rintro s' r r' _ ⟨j, hj, hge, hp⟩
      exact ⟨j, ((releaseWaiter_grows payload now s' r').kept j hj).resolve_left not_false, hge, hp⟩
    · exact ⟨fun j hj => Nat.lt_succ_of_lt (hf j hj), Nat.le_succ _⟩
  obtain ⟨j, hj, hge, hp⟩ := hrel
  rw [emitInTx_fst]
  exact ⟨j, ((startTargets_grows _ now _ targets).kept j hj).resolve_left not_false, hge, hp⟩

end Emit

/-- The new jobs of `s'` are for payloads in `P`, with one job for each. -/
structure OneEach (P : Payload → Prop) (s s' : Store) : Prop where
  grows : JobsGrow (fun _ => False) (fun j => P j.payload) s s'
  inj : ∀ j ∈ s'.jobs.rows, ∀ j' ∈ s'.jobs.rows, s.nextId ≤ j.id → s.nextId ≤ j'.id →
    j.payload = j'.payload → j = j'

namespace OneEach

variable {P Q : Payload → Prop} {s s' s'' : Store}

theorem of_jobs_eq (h : s'.jobs = s.jobs) (hn : s.nextId ≤ s'.nextId)
    (hf : ∀ j ∈ s.jobs.rows, j.id < s.nextId) :
    OneEach P s s' where
  grows := .of_jobs_eq h hn
  inj j hj _ _ hge := by
    rw [h] at hj
    exact absurd hge (Nat.not_le_of_lt (hf j hj))

theorem trans (h : OneEach P s s') (h' : OneEach Q s' s'') (hf : ∀ j ∈ s.jobs.rows, j.id < s.nextId)
    (hPQ : ∀ p, P p → ¬ Q p) : OneEach (fun p => P p ∨ Q p) s s'' where
  grows := (h.grows.mono (fun _ h => h) (fun _ h => .inl h)).trans
    (h'.grows.mono (fun _ h => h) (fun _ h => .inr h))
  inj := by
    have hold {j : JobRow} (hj : j ∈ s'.jobs.rows) (hge : s.nextId ≤ j.id) : P j.payload := by
      obtain hs | ⟨_, _, hp⟩ := h.grows.origin j hj
      · exact absurd hge (Nat.not_le_of_lt (hf j hs))
      · exact hp
    intro j hj j' hj' hge hge' he
    obtain hs | ⟨hn, _, hq⟩ := h'.grows.origin j hj
    · obtain hs' | ⟨_, _, hq'⟩ := h'.grows.origin j' hj'
      · exact h.inj j hs j' hs' hge hge' he
      · exact absurd hq' (hPQ _ (he ▸ hold hs hge))
    · obtain hs' | ⟨hn', _, _⟩ := h'.grows.origin j' hj'
      · exact absurd (he ▸ hq) (hPQ _ (hold hs' hge'))
      · exact h'.inj j hj j' hj' hn hn' he

theorem insertJobRow (job : PushJob) (h : job.debounceKey = none)
    (hf : ∀ j ∈ s.jobs.rows, j.id < s.nextId)
    (now : Time) : OneEach (fun p => p = job.payload) s (s.insertJobRow job now).1 where
  grows := (insertJobRow_keeps job h s now).mono (fun _ h => h) (fun _ h => h.payload)
  inj := by
    have hnew {j : JobRow} (hj : j ∈ (s.insertJobRow job now).1.jobs.rows) (hge : s.nextId ≤ j.id) :
        j = newJobRow job s.nextId (s.availableAt job now) now := by
      obtain ⟨hs, _⟩ | he := s.mem_insertJobRow job now hj
      · exact absurd hge (Nat.not_le_of_lt (hf j hs))
      · exact he
    intro j hj j' hj' hge hge' _
    rw [hnew hj hge, hnew hj' hge']

theorem releaseWaiters (payload : Json) (now : Time) (ws : List RunRow) (hn : (ws.map (·.id)).Nodup)
    (s : Store)
    (hf : ∀ j ∈ s.jobs.rows, j.id < s.nextId) :
    OneEach (fun p => ∃ w ∈ ws, p = .execution w.id) s
      (mapAccum (releaseWaiter payload now) s ws).1 := by
  induction ws generalizing s with
  | nil => exact .of_jobs_eq rfl (Nat.le_refl _) hf
  | cons w ws ih =>
      rw [List.map_cons, List.nodup_cons] at hn
      have hjob := insertJobRow (workflowExecutionJob w.workflow w.id 0) rfl hf now
      have hfirst : OneEach (fun p => p = .execution w.id) s (releaseWaiter payload now s w).1 :=
        ⟨⟨hjob.grows.kept, hjob.grows.origin, hjob.grows.nextId_le⟩, hjob.inj⟩
      have hrest := ih hn.2 (releaseWaiter payload now s w).1 (hfirst.grows.fresh hf)
      rw [mapAccum_cons]
      have hboth := hfirst.trans hrest hf ?_
      · refine ⟨hboth.grows.mono (fun _ h => h) ?_, hboth.inj⟩
        rintro j (he | ⟨w', hw', he⟩)
        · exact ⟨w, List.mem_cons_self, he⟩
        · exact ⟨w', List.mem_cons_of_mem _ hw', he⟩
      · rintro p rfl ⟨w', hw', he⟩
        exact hn.1 (List.mem_map.mpr ⟨w', hw', (Payload.execution.inj he).symm⟩)

theorem startTargets (input : Json) (now : Time) (ts : List TriggerTarget) (s : Store)
    (hf : ∀ j ∈ s.jobs.rows, j.id < s.nextId) :
    OneEach (fun p => ∃ id, s.nextId ≤ id ∧ p = .execution id) s
      (mapAccum (startTarget input now) s ts).1 := by
  induction ts generalizing s with
  | nil => exact .of_jobs_eq rfl (Nat.le_refl _) hf
  | cons t ts ih =>
      have hadd : ∀ j ∈ (s.addRun (targetRun input t) now).jobs.rows,
        j.id < (s.addRun (targetRun input t) now).nextId :=
        fun j hj => Nat.lt_succ_of_lt (hf j hj)
      have hrun : OneEach (fun p => p = .execution s.nextId) s (s.addRun (targetRun input t) now) :=
        .of_jobs_eq rfl (Nat.le_succ _) hf
      have hfirst : OneEach (fun p => p = .execution s.nextId) s (startTarget input now s t).1 := by
        have hjob := insertJobRow (workflowExecutionJob t.workflow s.nextId 0) rfl hadd now
        refine ⟨hrun.grows.trans hjob.grows, fun j hj j' hj' hge hge' he => ?_⟩
        refine hjob.inj j hj j' hj' ?_ ?_ he
        · obtain hs | ⟨hn, _⟩ := hjob.grows.origin j hj
          · exact absurd hge (Nat.not_le_of_lt (hf j hs))
          · exact hn
        · obtain hs | ⟨hn, _⟩ := hjob.grows.origin j' hj'
          · exact absurd hge' (Nat.not_le_of_lt (hf j' hs))
          · exact hn
      have hrest := ih (startTarget input now s t).1 (hfirst.grows.fresh hf)
      have hnext := startTarget_nextId input now s t
      rw [mapAccum_cons]
      have hboth := hfirst.trans hrest hf ?_
      · refine ⟨hboth.grows.mono (fun _ h => h) ?_, hboth.inj⟩
        rintro j (he | ⟨id, hge, he⟩)
        · exact ⟨s.nextId, Nat.le_refl _, he⟩
        · exact ⟨id, by omega, he⟩
      · rintro p rfl ⟨id, hge, he⟩
        cases he
        omega

end OneEach

theorem emitInTx_oneEach (s : Store) (name : String) (payload : Json) (targets : List TriggerTarget)
    (locked : List RunId) (now : Time) (hf : ∀ j ∈ s.jobs.rows, j.id < s.nextId)
    (hr : ∀ r ∈ s.runs.rows, r.id < s.nextId) :
    OneEach (fun p => (∃ w ∈ s.waitersOf name payload locked, p = .execution w.id) ∨
      ∃ id, s.nextId ≤ id ∧ p = .execution id) s
        (s.emitInTx name payload targets locked now).1 := by
  have hevent : ∀ j ∈ s.jobs.rows, j.id < s.nextId + 1 := fun j hj => Nat.lt_succ_of_lt (hf j hj)
  have hn : ((s.waitersOf name payload locked).map (·.id)).Nodup :=
    s.runs.nodup.sublist (List.filter_sublist.map RunRow.id)
  have hrel := OneEach.releaseWaiters payload now (s.waitersOf name payload locked) hn
    { s with events := s.events.insert ⟨s.nextId, name, payload, now⟩, nextId := s.nextId + 1 }
      hevent
  have hstart := OneEach.startTargets (eventInput name payload now) now targets
    (s.released name payload locked now) (hrel.grows.fresh hevent)
  have hboth := hrel.trans hstart hevent ?_
  · rw [emitInTx_fst]
    have hgrows := (s.released_grows name payload locked now).nextId_le
    refine ⟨?_, fun j hj j' hj' hge hge' he => ?_⟩
    · have hfirst : JobsGrow (fun _ => False) (fun j => (∃ w ∈ s.waitersOf name payload locked,
          j.payload = .execution w.id) ∨ ∃ id, s.nextId ≤ id ∧ j.payload = .execution id) s
          { s with
            events := s.events.insert ⟨s.nextId, name, payload, now⟩, nextId := s.nextId + 1 } :=
        .of_jobs_eq rfl (Nat.le_succ _)
      refine hfirst.trans (hboth.grows.mono (fun _ h => h) ?_)
      rintro j (hw | ⟨id, hge, he⟩)
      · exact .inl hw
      · exact .inr ⟨id, Nat.le_trans hgrows hge, he⟩
    · have hpast {j : JobRow} (hj : j ∈ (mapAccum (startTarget (eventInput name payload now) now)
          (s.released name payload locked now) targets).1.jobs.rows) (hge : s.nextId ≤ j.id) :
            s.nextId + 1 ≤ j.id := by
        obtain hs | ⟨hn, _⟩ := hboth.grows.origin j hj
        · exact absurd hge (Nat.not_le_of_lt (hf j hs))
        · exact hn
      exact hboth.inj j hj j' hj' (hpast hj hge) (hpast hj' hge') he
  · rintro p ⟨w, hw, rfl⟩ ⟨id, hge, he⟩
    cases he
    have hlt := hr w (Table.mem_select.mp hw).1
    have hle := (s.released_grows name payload locked now).nextId_le
    exact absurd (Nat.le_trans hle hge) (Nat.not_le_of_lt hlt)

def timedOut (now : Time) (locked : List RunId) (r : RunRow) : Bool :=
  r.status = .waitEvent && r.id ∉ locked && match r.wakeAt with
    | some t => t ≤ now
    | none => false

def timedOutRow (now : Time) (r : RunRow) : RunRow :=
  { r with
    status := .runnable, waitEvent := none, waitMatch := none, wakeAt := none, updatedAt := now }

theorem timedOutRow_id (now : Time) (r : RunRow) : (timedOutRow now r).id = r.id := rfl

def sweepEventTimeouts (s : Store) (timeout : Time) (locked : List RunId) : Store × List Waiter :=
  ({ s with runs := s.runs.update (timedOut timeout locked) (timedOutRow timeout) (fun _ => rfl) },
    (s.runs.select (timedOut timeout locked)).map
      (fun r => ⟨r.id, r.workflow, r.waitStepId.getD ""⟩))

end Store

end ZenZip
