import ZenZip.Engine.Calls

namespace ZenZip

open Lib

inductive RunChange (now : Time) : Call → RunRow → RunRow → Prop
  | completed (r) (output) : RunChange now (.runCompleted r.id output) r
    (Store.completedRow output now r)
  | failed (r) (error) : RunChange now (.runFailed r.id error) r (Store.failedRow error now r)
  | sleeping (r) (wakeAt) : RunChange now (.runSleeping r.id wakeAt) r
    (Store.sleepingRow wakeAt now r)
  | waitingEvent (r) (event stepId timeoutAt matchJson) :
      RunChange now (.runWaitingEvent r.id event stepId timeoutAt matchJson) r
        (Store.waitingEventRow event stepId timeoutAt matchJson now r)
  | waitingChild (r) (child) : RunChange now (.runWaitingChild r.id child) r
    (Store.waitingChildRow now r)
  | wokenParent (r) (h : r.status = .waitChild) : RunChange now (.wakeParent r.id) r
    (Store.wokenParentRow now r)
  | released (r) (name payload targets) (hs : r.status = .waitEvent) (hn : r.waitEvent = some name)
      (hm : matchSubset r.waitMatch payload = true) :
      RunChange now (.emitEvent name payload targets) r (Store.wokenRow now r)
  | timedOut (r) (timeout t) (hs : r.status = .waitEvent) (ht : r.wakeAt = some t)
    (hle : t ≤ timeout) :
      RunChange now (.sweepEventTimeouts timeout) r (Store.timedOutRow timeout r)
  | cancelled (r) (root) (h : r.status.terminal = false) :
      RunChange now (.cancelRunTree root) r (Store.cancelledRow now r)

namespace RunChange

variable {now : Time} {c : Call} {r r' : RunRow}

theorem parent_eq (h : RunChange now c r r') :
    r'.parentRunId = r.parentRunId ∧ r'.parentStepId = r.parentStepId := by
  cases h <;> exact ⟨rfl, rfl⟩

theorem idempotencyKey_eq (h : RunChange now c r r') : r'.idempotencyKey = r.idempotencyKey := by
  cases h <;> rfl

theorem input_eq (h : RunChange now c r r') : r'.input = r.input := by
  cases h <;> rfl

theorem workflow_eq (h : RunChange now c r r') : r'.workflow = r.workflow := by
  cases h <;> rfl

theorem version_eq (h : RunChange now c r r') : r'.version = r.version := by
  cases h <;> rfl

theorem of_waitEvent (h : RunChange now c r r') (hs : r'.status = .waitEvent) :
    ∃ event stepId timeoutAt matchJson, c = .runWaitingEvent r.id event stepId timeoutAt matchJson ∧
      r' = Store.waitingEventRow event stepId timeoutAt matchJson now r := by
  cases h with
  | waitingEvent _ event stepId timeoutAt matchJson =>
      exact ⟨event, stepId, timeoutAt, matchJson, rfl, rfl⟩
  | completed | failed | sleeping | waitingChild | wokenParent | released | timedOut | cancelled =>
      cases hs

end RunChange

namespace Call

def deletesRuns : Call → Bool
  | .gc _ _ | .purgeSubject _ => true
  | _ => false

variable {s : Store} {now : Time} {locked : List RunId} {id : RunId} {r : RunRow}

theorem updateRun_cases (k : RunId) (guard : RunRow → Bool) (f : RunRow → RunRow)
    (hf : ∀ r, (f r).id = r.id) (h : s.runs.get? id = some r) :
    (s.updateRun k guard f hf).runs.get? id = some r ∨
      k = r.id ∧ guard r = true ∧ (s.updateRun k guard f hf).runs.get? id = some (f r) := by
  rw [Store.get?_updateRun, h]
  by_cases hid : id = k
  · subst hid
    by_cases hg : guard r = true
    · exact .inr ⟨(Table.key_of_get? h).symm, hg, by simp [hg]⟩
    · exact .inl (by simp [hg])
  · exact .inl (by simp [hid])

theorem updateRun_none {guard : RunRow → Bool} {f : RunRow → RunRow} {hf : ∀ r, (f r).id = r.id}
    {k : RunId} (h : s.runs.get? id = none) : (s.updateRun k guard f hf).runs.get? id = none := by
  rw [Store.get?_updateRun, h]
  simp

theorem emit_runs_of_some (name : String) (payload : Json) (targets : List TriggerTarget)
    (now : Time) (locked : List RunId) (h : s.runs.get? id = some r) :
    (s.emitInTx name payload targets locked now).1.runs.get? id =
      some (if r ∈ s.waitersOf name payload locked then Store.wokenRow now r else r) := by
  have hw : id ∈ (s.waitersOf name payload locked).map (·.id) ↔
    r ∈ s.waitersOf name payload locked := by
    obtain ⟨hr, hid⟩ := Table.get?_eq_some_iff.mp h
    constructor
    · intro hm
      obtain ⟨w, hw, he⟩ := List.mem_map.mp hm
      have hwr := (Table.mem_select.mp hw).1
      rwa [s.runs.key_injOn hr hwr (hid.trans he.symm)]
    · intro hm
      exact List.mem_map.mpr ⟨r, hm, hid⟩
  apply Store.get?_startTargets_of_some
  rw [Store.get?_releaseWaiters]
  simp only [hw, h]
  split <;> rfl

theorem perform_run_cases (c : Call) (now : Time) (locked : List RunId)
    (h : s.runs.get? id = some r) :
    (c.perform s now locked).1.runs.get? id = some r ∨
    (∃ r', RunChange now c r r' ∧ (c.perform s now locked).1.runs.get? id = some r') ∨
    c.deletesRuns = true ∧ (c.perform s now locked).1.runs.get? id = none := by
  cases c with
  | push jobs =>
      refine .inl ?_
      exact mapAccum_preserves _ (fun s' : Store => s'.runs.get? id = some r) (fun _ _ _ h => h) h
  | ack | failRetry | failDead | sweepExpired | requeueDead | purgeDead | getRun | loadJournal
  | recordStep
  | stepFailedAttempt => exact .inl h
  | createRun run => exact .inl (Store.get?_createRun_of_some run now h)
  | gc runBefore eventBefore =>
      cases runBefore with
      | none => exact .inl h
      | some before =>
          show (s.runs.delete (Store.aged before)).get? id = some r ∨ _ ∨
            _ ∧ (s.runs.delete (Store.aged before)).get? id = none
          rw [Table.get?_delete, h]
          by_cases ha : Store.aged before r = true
          · exact .inr (.inr ⟨rfl, by simp [Option.filter, ha]⟩)
          · exact .inl (by simp [Option.filter, ha])
  | purgeSubject subject =>
      show (s.runs.delete _).get? id = some r ∨ _ ∨ _ ∧ (s.runs.delete _).get? id = none
      rw [Table.get?_delete, h]
      by_cases ha : r.subject = some subject
      · exact .inr (.inr ⟨rfl, by simp [Option.filter, ha]⟩)
      · exact .inl (by simp [Option.filter, ha])
  | runCompleted k output =>
      obtain hs | ⟨rfl, _, hu⟩ :=
        updateRun_cases k (fun _ => true) (Store.completedRow output now) (fun _ => rfl) h
      · exact .inl hs
      · exact .inr (.inl ⟨_, .completed r output, hu⟩)
  | runFailed k error =>
      obtain hs | ⟨rfl, _, hu⟩ :=
        updateRun_cases k (fun _ => true) (Store.failedRow error now) (fun _ => rfl) h
      · exact .inl hs
      · exact .inr (.inl ⟨_, .failed r error, hu⟩)
  | runSleeping k wakeAt =>
      obtain hs | ⟨rfl, _, hu⟩ :=
        updateRun_cases k (fun _ => true) (Store.sleepingRow wakeAt now) (fun _ => rfl) h
      · exact .inl hs
      · exact .inr (.inl ⟨_, .sleeping r wakeAt, hu⟩)
  | runWaitingEvent k event stepId timeoutAt matchJson =>
      obtain hs | ⟨rfl, _, hu⟩ := updateRun_cases k (fun _ => true)
        (Store.waitingEventRow event stepId timeoutAt matchJson now) (fun _ => rfl) h
      · exact .inl hs
      · exact .inr (.inl ⟨_, .waitingEvent r event stepId timeoutAt matchJson, hu⟩)
  | runWaitingChild k child =>
      obtain hs | ⟨rfl, _, hu⟩ :=
        updateRun_cases k (fun _ => true) (Store.waitingChildRow now) (fun _ => rfl) h
      · exact .inl hs
      · exact .inr (.inl ⟨_, .waitingChild r child, hu⟩)
  | wakeParent k =>
      obtain hs | ⟨rfl, hg, hu⟩ :=
        updateRun_cases k (fun r => r.status = .waitChild) (Store.wokenParentRow now)
        (fun _ => rfl) h
      · exact .inl hs
      · exact .inr (.inl ⟨_, .wokenParent r (by simpa using hg), hu⟩)
  | emitEvent name payload targets =>
      have he := emit_runs_of_some name payload targets now locked h
      by_cases hw : r ∈ s.waitersOf name payload locked
      · obtain ⟨_, hp⟩ := Table.mem_select.mp hw
        simp only [Bool.and_eq_true, decide_eq_true_eq] at hp
        rw [if_pos hw] at he
        exact .inr (.inl ⟨_, .released r name payload targets hp.1.1.1 hp.1.1.2 hp.2, he⟩)
      · rw [if_neg hw] at he
        exact .inl he
  | sweepEventTimeouts timeout =>
      have hu := Table.get?_update s.runs (Store.timedOut timeout locked)
        (Store.timedOutRow timeout)
        (fun _ => rfl) id
      rw [h, Option.map_some] at hu
      by_cases ht : Store.timedOut timeout locked r = true
      · rw [if_pos ht] at hu
        simp only [Store.timedOut, Bool.and_eq_true, decide_eq_true_eq] at ht
        cases hw : r.wakeAt with
        | none => simp [hw] at ht
        | some t =>
            rw [hw] at ht
            exact .inr (.inl ⟨_, .timedOut r timeout t ht.1.1 hw (by simpa using ht.2), hu⟩)
      · rw [if_neg ht] at hu
        exact .inl hu
  | cancelRunTree root =>
      obtain hs | ⟨r', hr', ht, hc⟩ :=
        Store.get?_cancelLoop now (s.runs.rows.length + 1) [root] s id
      · exact .inl (hs.trans h)
      · obtain rfl : r = r' := Option.some.inj (h.symm.trans hr')
        exact .inr (.inl ⟨_, .cancelled r root ht, hc⟩)

/-- A row that was not there is a new run: one a caller asked for, or one an emit
has started together with its job. -/
theorem perform_run_of_none (c : Call) (now : Time) (locked : List RunId)
    (hf : ∀ j ∈ s.jobs.rows, j.id < s.nextId)
    (h : s.runs.get? id = none) :
    (c.perform s now locked).1.runs.get? id = none ∨
    (∃ run, c = .createRun run ∧ id = s.nextId ∧
    s.createRun run now = (s.addRun run now, (id, true)) ∧
      (c.perform s now locked).1.runs.get? id = some (Store.newRow run id now)) ∨
    ∃ name payload targets, c = .emitEvent name payload targets ∧
      Store.Started (Store.eventInput name payload now) now targets s.nextId id
        (c.perform s now locked).1 := by
  cases c with
  | push jobs =>
      refine .inl ?_
      show (s.push jobs now).1.runs.get? id = none
      rwa [(s.push_runs jobs now).1]
  | ack | failRetry | failDead | sweepExpired | requeueDead | purgeDead | getRun | loadJournal
  | recordStep
  | stepFailedAttempt => exact .inl h
  | createRun run =>
      obtain ⟨_, _, he⟩ | ⟨_, he⟩ := s.createRun_cases run now
      · refine .inl ?_
        show (s.createRun run now).1.runs.get? id = none
        rwa [he]
      · by_cases hid : id = s.nextId
        · subst hid
          refine .inr (.inl ⟨run, rfl, rfl, he, ?_⟩)
          show (s.createRun run now).1.runs.get? s.nextId = _
          simp [he, Store.get?_addRun, h]
        · refine .inl ?_
          show (s.createRun run now).1.runs.get? id = _
          simp [he, Store.get?_addRun, h, hid]
  | gc runBefore eventBefore =>
      refine .inl ?_
      cases runBefore with
      | none => exact h
      | some before =>
          show (s.runs.delete (Store.aged before)).get? id = none
          rw [Table.get?_delete, h]
          rfl
  | purgeSubject subject =>
      refine .inl ?_
      show (s.runs.delete _).get? id = none
      rw [Table.get?_delete, h]
      rfl
  | runCompleted | runFailed | runSleeping | runWaitingEvent | runWaitingChild | wakeParent =>
      exact .inl (updateRun_none h)
  | emitEvent name payload targets =>
      obtain hn | hs := s.get?_emitInTx_of_none name payload targets locked now hf h
      · exact .inl hn
      · exact .inr (.inr ⟨name, payload, targets, rfl, hs⟩)
  | sweepEventTimeouts timeout =>
      refine .inl ?_
      have hu := Table.get?_update s.runs (Store.timedOut timeout locked)
        (Store.timedOutRow timeout)
        (fun _ => rfl) id
      rwa [h] at hu
  | cancelRunTree root =>
      obtain hs | ⟨r', hr', _⟩ := Store.get?_cancelLoop now (s.runs.rows.length + 1) [root] s id
      · exact .inl (hs.trans h)
      · rw [h] at hr'
        cases hr'

end Call

inductive JobChange (now : Time) : Call → JobRow → JobRow → Prop
  | same (c j) : JobChange now c j j
  | retried (j error availableAt) :
      JobChange now (.failRetry j.id error availableAt j.fence) j
        (Store.retryRow error availableAt now j)
  | dead (j error) : JobChange now (.failDead j.id error j.fence) j (Store.deadRow error now j)
  | expired (j t) (h : Store.expired t j = true) : JobChange now (.sweepExpired t) j
    (Store.expiredRow t j)
  | requeued (j ids) (hid : j.id ∈ ids) (h : j.status = .dead) :
      JobChange now (.requeueDead ids) j (Store.requeueRow now j)

inductive JobLoss : Call → JobRow → Prop
  | acked (j) : JobLoss (.ack j.id j.fence) j
  | purged (j queue) (h : j.status = .dead) : JobLoss (.purgeDead queue) j
  | debounced (j job jobs) (hjob : job ∈ jobs) (h : Store.debounced job j = true) : JobLoss
    (.push jobs) j

inductive JobNew (s : Store) (now : Time) : Call → JobRow → Prop
  | pushed (j job jobs) (hjob : job ∈ jobs) (h : Store.Pushed now job j) :
  JobNew s now (.push jobs) j
  | released (j r name payload targets locked) (hr : r ∈ s.waitersOf name payload locked)
      (h : Store.Pushed now (workflowExecutionJob r.workflow r.id 0) j) : JobNew s now
        (.emitEvent name payload targets) j
  | started (j t id name payload targets) (ht : t ∈ targets) (hid : s.nextId ≤ id) (hlt : id < j.id)
      (h : Store.Pushed now (workflowExecutionJob t.workflow id 0) j) :
      JobNew s now (.emitEvent name payload targets) j

theorem JobNew.pushed_of {s : Store} {now : Time} {c : Call} {j : JobRow} (h : JobNew s now c j) :
    ∃ job, Store.Pushed now job j := by
  cases h with
  | pushed _ job _ _ hp => exact ⟨job, hp⟩
  | released _ _ _ _ _ _ _ hp | started _ _ _ _ _ _ _ _ _ hp => exact ⟨_, hp⟩

namespace JobChange

variable {now : Time} {c : Call} {j j' : JobRow}

theorem frame (h : JobChange now c j j') :
    j'.id = j.id ∧ j'.payload = j.payload ∧ j'.fence = j.fence ∧
    j'.debounceKey = j.debounceKey ∧ j'.queue = j.queue ∧ j'.maxAttempts = j.maxAttempts := by
  cases h with
  | expired _ t _ =>
      unfold Store.expiredRow
      split <;> exact ⟨rfl, rfl, rfl, rfl, rfl, rfl⟩
  | _ => exact ⟨rfl, rfl, rfl, rfl, rfl, rfl⟩

end JobChange

namespace Call

variable {s : Store} {now : Time} {locked : List RunId} {j : JobRow}

theorem update_job_cases {c : Call} {p : JobRow → Bool} (f : JobRow → JobRow)
    (hf : ∀ j, (f j).id = j.id)
    (hc : p j = true → JobChange now c j (f j)) (h : j ∈ s.jobs.rows) :
    ∃ j', JobChange now c j j' ∧ j' ∈ (s.jobs.update p f hf).rows := by
  refine ⟨if p j then f j else j, ?_, Table.mem_update.mpr ⟨j, h, rfl⟩⟩
  split
  · next hp => exact hc hp
  · exact .same c j

theorem delete_job_cases {c : Call} {p : JobRow → Bool} (hc : p j = true → JobLoss c j)
    (h : j ∈ s.jobs.rows) :
    (∃ j', JobChange now c j j' ∧ j' ∈ (s.jobs.delete p).rows) ∨ JobLoss c j := by
  cases hp : p j with
  | true => exact .inr (hc hp)
  | false =>
      refine .inl ⟨j, .same c j, ?_⟩
      show j ∈ s.jobs.rows.filter _
      simp [h, hp]

theorem perform_job_cases (c : Call) (now : Time) (locked : List RunId) (h : j ∈ s.jobs.rows) :
    (∃ j', JobChange now c j j' ∧ j' ∈ (c.perform s now locked).1.jobs.rows) ∨ JobLoss c j := by
  cases c with
  | push jobs =>
      obtain ⟨job, hjob, hd⟩ | hk := (s.push_grows jobs now).kept j h
      · exact .inr (.debounced j job jobs hjob hd)
      · exact .inl ⟨j, .same _ j, hk⟩
  | ack id fence =>
      refine delete_job_cases (fun hp => ?_) h
      simp only [Bool.and_eq_true, decide_eq_true_eq] at hp
      obtain ⟨rfl, rfl⟩ := hp
      exact .acked j
  | failRetry id error availableAt fence =>
      refine .inl
        (update_job_cases (Store.retryRow error availableAt now) (fun _ => rfl) (fun hp => ?_) h)
      simp only [Bool.and_eq_true, decide_eq_true_eq] at hp
      obtain ⟨rfl, rfl⟩ := hp
      exact .retried j error availableAt
  | failDead id error fence =>
      refine .inl (update_job_cases (Store.deadRow error now) (fun _ => rfl) (fun hp => ?_) h)
      simp only [Bool.and_eq_true, decide_eq_true_eq] at hp
      obtain ⟨rfl, rfl⟩ := hp
      exact .dead j error
  | sweepExpired t =>
      exact .inl (update_job_cases (Store.expiredRow t) (Store.expiredRow_id t)
        (fun hp => .expired j t hp) h)
  | requeueDead ids =>
      refine .inl (update_job_cases (Store.requeueRow now) (fun _ => rfl) (fun hp => ?_) h)
      simp only [Bool.and_eq_true, decide_eq_true_eq] at hp
      exact .requeued j ids hp.1 hp.2
  | purgeDead queue =>
      refine delete_job_cases (fun hp => ?_) h
      simp only [Bool.and_eq_true, decide_eq_true_eq] at hp
      exact .purged j queue hp.2
  | emitEvent name payload targets =>
      exact .inl ⟨j, .same _ j,
        ((s.emitInTx_grows name payload targets locked now).kept j h).resolve_left not_false⟩
  | createRun run =>
      refine .inl ⟨j, .same _ j, ?_⟩
      show j ∈ (s.createRun run now).1.jobs.rows
      rwa [Store.createRun_jobs]
  | gc runBefore eventBefore =>
      refine .inl ⟨j, .same _ j, ?_⟩
      cases runBefore <;> exact h
  | cancelRunTree root =>
      refine .inl ⟨j, .same _ j, ?_⟩
      show j ∈ (s.cancelRunTree root now).1.jobs.rows
      rwa [Store.cancelRunTree, (Store.cancelLoop_steps ..).2.1]
  | purgeSubject | getRun | loadJournal | recordStep | stepFailedAttempt | runCompleted
  | runFailed | runSleeping
  | runWaitingEvent | runWaitingChild | wakeParent | sweepEventTimeouts =>
      exact .inl ⟨j, .same _ j, h⟩

theorem update_job_origin {c : Call} {p : JobRow → Bool} (f : JobRow → JobRow)
    (hf : ∀ j, (f j).id = j.id)
    (hc : ∀ j, p j = true → JobChange now c j (f j)) (h : j ∈ (s.jobs.update p f hf).rows) :
    ∃ i ∈ s.jobs.rows, JobChange now c i j := by
  obtain ⟨i, hi, rfl⟩ := Table.mem_update.mp h
  refine ⟨i, hi, ?_⟩
  split
  · next hp => exact hc i hp
  · exact .same c i

theorem delete_job_origin {p : JobRow → Bool} (h : j ∈ (s.jobs.delete p).rows) : j ∈ s.jobs.rows :=
  (List.mem_filter.mp h).1

theorem perform_job_origin (c : Call) (h : j ∈ (c.perform s now locked).1.jobs.rows) :
    (∃ i ∈ s.jobs.rows, JobChange now c i j) ∨
      s.nextId ≤ j.id ∧ j.id < (c.perform s now locked).1.nextId ∧ JobNew s now c j := by
  cases c with
  | push jobs =>
      obtain hj | ⟨hge, hlt, job, hjob, hp⟩ := (s.push_grows jobs now).origin j h
      · exact .inl ⟨j, hj, .same _ j⟩
      · exact .inr ⟨hge, hlt, .pushed j job jobs hjob hp⟩
  | ack => exact .inl ⟨j, delete_job_origin h, .same _ j⟩
  | purgeDead => exact .inl ⟨j, delete_job_origin h, .same _ j⟩
  | failRetry id error availableAt fence =>
      refine .inl
        (update_job_origin (Store.retryRow error availableAt now) (fun _ => rfl) (fun i hp => ?_) h)
      simp only [Bool.and_eq_true, decide_eq_true_eq] at hp
      obtain ⟨rfl, rfl⟩ := hp
      exact .retried i error availableAt
  | failDead id error fence =>
      refine .inl (update_job_origin (Store.deadRow error now) (fun _ => rfl) (fun i hp => ?_) h)
      simp only [Bool.and_eq_true, decide_eq_true_eq] at hp
      obtain ⟨rfl, rfl⟩ := hp
      exact .dead i error
  | sweepExpired t =>
      exact .inl (update_job_origin (Store.expiredRow t) (Store.expiredRow_id t)
        (fun i hp => .expired i t hp) h)
  | requeueDead ids =>
      refine .inl (update_job_origin (Store.requeueRow now) (fun _ => rfl) (fun i hp => ?_) h)
      simp only [Bool.and_eq_true, decide_eq_true_eq] at hp
      exact .requeued i ids hp.1 hp.2
  | emitEvent name payload targets =>
      obtain hj | ⟨hge, hlt, ⟨r, hr, hp⟩ | ⟨t, ht, id, hid, hid', hp⟩⟩ :=
        (s.emitInTx_grows name payload targets locked now).origin j h
      · exact .inl ⟨j, hj, .same _ j⟩
      · exact .inr ⟨hge, hlt, .released j r name payload targets locked hr hp⟩
      · exact .inr ⟨hge, hlt, .started j t id name payload targets ht hid hid' hp⟩
  | createRun run =>
      refine .inl ⟨j, ?_, .same _ j⟩
      rwa [← Store.createRun_jobs s run now]
  | gc runBefore eventBefore =>
      refine .inl ⟨j, ?_, .same _ j⟩
      cases runBefore <;> exact h
  | cancelRunTree root =>
      refine .inl ⟨j, ?_, .same _ j⟩
      have h' : j ∈ (s.cancelRunTree root now).1.jobs.rows := h
      rwa [Store.cancelRunTree, (Store.cancelLoop_steps ..).2.1] at h'
  | purgeSubject | getRun | loadJournal | recordStep | stepFailedAttempt | runCompleted
  | runFailed | runSleeping
  | runWaitingEvent | runWaitingChild | wakeParent | sweepEventTimeouts =>
      exact .inl ⟨j, h, .same _ j⟩

theorem perform_nextId_le (c : Call) : s.nextId ≤ (c.perform s now locked).1.nextId := by
  cases c with
  | push jobs => exact (s.push_grows jobs now).nextId_le
  | emitEvent name payload targets =>
      exact (s.emitInTx_grows name payload targets locked now).nextId_le
  | createRun run => exact s.createRun_nextId_le run now
  | gc runBefore eventBefore => cases runBefore <;> exact Nat.le_refl _
  | cancelRunTree root => exact Nat.le_of_eq (Store.cancelLoop_steps ..).2.2.symm
  | ack | failRetry | failDead | sweepExpired | requeueDead | purgeDead | purgeSubject | getRun
  | loadJournal
  | recordStep | stepFailedAttempt | runCompleted | runFailed | runSleeping | runWaitingEvent
  | runWaitingChild
  | wakeParent | sweepEventTimeouts => exact Nat.le_refl _

end Call

end ZenZip
