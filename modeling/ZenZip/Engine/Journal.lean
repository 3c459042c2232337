import ZenZip.Engine.Calls

namespace ZenZip

open Lib

namespace Store

variable {s : Store} {r : RunId} {st : StepId}

theorem journaled_iff : s.journaled r st = true ↔
    ∃ e, s.steps.get? (r, st) = some e ∧ e.completed = true :=
  Option.any_eq_true _ _

theorem loadJournal_recordStep_ne {k : RunId} (h : k ≠ r) (st : StepId) (kind : StepKind)
    (result : Option Json)
    (now : Time) : (s.recordStep k st kind result now).loadJournal r = s.loadJournal r := by
  refine Table.map_select_upsert _ _ _ _ _ _ (fun _ => ?_) (fun x hx => ?_)
  · simp [h]
  · have hk : x.runId = k := congrArg Prod.fst (Table.key_of_get? hx)
    have hk' : (completeRow kind result now x).runId = k :=
      (congrArg Prod.fst (completeRow_key kind result now x)).trans hk
    simp [hk, hk', h]

theorem loadJournal_recordStep_of_journaled (h : s.journaled r st = true) (kind : StepKind)
    (result : Option Json) (now : Time) :
    (s.recordStep r st kind result now).loadJournal r = s.loadJournal r := by
  obtain ⟨e, he, hc⟩ := journaled_iff.mp h
  refine Table.map_select_upsert _ _ _ _ _ _ (fun hn => ?_) (fun x hx => ?_)
  · exact absurd (hn.symm.trans he) nofun
  · obtain rfl : x = e := Option.some.inj (hx.symm.trans he)
    simp [completeRow, hc]

theorem loadJournal_stepFailedAttempt (k : RunId) (st : StepId) (error : String) (now : Time) :
    (s.stepFailedAttempt k st error now).1.loadJournal r = s.loadJournal r := by
  refine Table.map_select_upsert _ _ _ _ _ _ (fun _ => ?_) (fun x _ => ⟨rfl, fun _ => rfl⟩)
  simp

end Store

def Call.writesSteps : Call → Bool
  | .recordStep _ _ _ _ | .stepFailedAttempt _ _ _ | .emitEvent _ _ _ | .gc _ _
  | .purgeSubject _ => true
  | _ => false

inductive Completes (s : Store) (locked : List RunId) : Call → RunId → StepId → Prop
  | recorded (r st kind result) : Completes s locked (.recordStep r st kind result) r st
  | released (row name payload targets) (hr : row ∈ s.waitersOf name payload locked) :
      Completes s locked (.emitEvent name payload targets) row.id (row.waitStepId.getD "")

namespace Call

variable {s : Store} {r : RunId} {st : StepId} {c : Call}

theorem perform_steps (h : c.writesSteps = false) (now : Time) (locked : List RunId) :
    (c.perform s now locked).1.steps = s.steps := by
  cases c with
  | recordStep | stepFailedAttempt | emitEvent | gc | purgeSubject => cases h
  | push jobs => exact (s.push_runs jobs now).2.1
  | createRun run => exact s.createRun_steps run now
  | cancelRunTree root => exact (Store.cancelLoop_steps ..).1
  | _ => rfl

theorem perform_loadJournal (h : c.writesSteps = false) (now : Time) (locked : List RunId) :
    (c.perform s now locked).1.loadJournal r = s.loadJournal r := by
  rw [Store.loadJournal, perform_steps h, Store.loadJournal]

theorem emit_steps (name : String) (payload : Json) (targets : List TriggerTarget)
    (locked : List RunId) (now : Time)
    (k : RunId × StepId) :
    (s.emitInTx name payload targets locked now).1.steps.get? k =
      if k ∈ (s.waitersOf name payload locked).map (fun w => (w.id, w.waitStepId.getD "")) then
        some ((s.steps.get? k).elim
          ⟨k.1, k.2, .waitForEvent, true, some (.obj [("event", payload)]), none, 0, now⟩
          (Store.completeRow .waitForEvent (some (.obj [("event", payload)])) now))
      else s.steps.get? k := by
  rw [Store.emitInTx_fst, Store.steps_startTargets]
  exact Store.get?_steps_releaseWaiters payload now
    { s with events := s.events.insert ⟨s.nextId, name, payload, now⟩, nextId := s.nextId + 1 } _ k

theorem journaled_of_delete {p : StepRow → Bool}
    (h : ((s.steps.delete p).get? (r, st)).any (·.completed) = true) :
    s.journaled r st = true := by
  rw [Table.get?_delete] at h
  obtain ⟨e, he, hc⟩ := (Option.any_eq_true _ _).mp h
  exact Store.journaled_iff.mpr ⟨e, (Option.filter_eq_some_iff.mp he).1, hc⟩

theorem perform_journaled (c : Call) (now : Time) (locked : List RunId)
    (h : (c.perform s now locked).1.journaled r st = true) :
    s.journaled r st = true ∨ Completes s locked c r st := by
  cases c with
  | recordStep k st' kind result =>
      by_cases hk : (r, st) = (k, st')
      · cases hk
        exact .inr (.recorded r st kind result)
      · refine .inl ?_
        have h' : (s.recordStep k st' kind result now).journaled r st = true := h
        rwa [Store.journaled, Store.get?_recordStep, if_neg hk] at h'
  | stepFailedAttempt k st' error =>
      refine .inl ?_
      have h' : ((s.stepFailedAttempt k st' error now).1.steps.get? (r, st)).any (·.completed) =
        true := h
      rw [Store.get?_stepFailedAttempt] at h'
      split at h'
      · cases he : s.steps.get? (r, st) with
        | none =>
            rw [he] at h'
            cases h'
        | some e =>
            rw [he] at h'
            exact Store.journaled_iff.mpr ⟨e, he, h'⟩
      · exact h'
  | emitEvent name payload targets =>
      have h' : ((s.emitInTx name payload targets locked now).1.steps.get? (r, st)).any
        (·.completed) = true := h
      rw [emit_steps] at h'
      split at h'
      · next hm =>
          obtain ⟨w, hw, he⟩ := List.mem_map.mp hm
          cases he
          exact .inr (.released w name payload targets hw)
      · exact .inl h'
  | gc runBefore eventBefore =>
      cases runBefore with
      | none => exact .inl h
      | some before => exact .inl (journaled_of_delete h)
  | purgeSubject subject => exact .inl (journaled_of_delete h)
  | _ =>
      refine .inl ?_
      rwa [Store.journaled, perform_steps rfl] at h

end Call

end ZenZip
