import ZenZip.Sdk.Replay

namespace ZenZip

open Lib

theorem Attempt.advance_eq_event {a : Attempt} {fn : WorkflowFn} {now : Time} {stepId : StepId}
    {event : String}
    {timeoutAt : Option Time} {matchJson : Option Json}
    (h : a.advance fn now = .error (.event stepId event timeoutAt matchJson)) :
    ∃ timeout, fn a.input a.values = .waitForEvent stepId event timeout matchJson := by
  have hmiss {id : StepId} {kind : StepKind} {miss : Except ExecOutcome Attempt}
      (hm : a.await id kind miss = .error (.event stepId event timeoutAt matchJson)) :
      miss = .error (.event stepId event timeoutAt matchJson) := by
    obtain ⟨message, hf⟩ | ⟨_, hm⟩ := Attempt.await_eq_error hm
    · cases hf
    · exact hm
  unfold advance at h
  cases hfn : fn a.input a.values with
  | returns output | throws message =>
      rw [hfn] at h
      cases h
  | run id | sleep id duration | invoke id workflow input =>
      rw [hfn] at h
      cases hmiss h
  | waitForEvent id event timeout matchJson =>
      rw [hfn] at h
      cases hmiss h
      exact ⟨timeout, rfl⟩

namespace Replay

/-- The function waits for the event on the way that the journal takes it. -/
def Awaits (fn : WorkflowFn) (input : Json) (s : Store) (r : RunId) (stepId : StepId)
    (event : String)
    (matchJson : Option Json) : Prop :=
  ∃ t timeout, Trace fn input s r t ∧
    fn input (t.map StepEntry.value) = .waitForEvent stepId event timeout matchJson

/-- The engine lets the run wait for what an attempt has suspended on. -/
def asAsked (r : RunId) (outcomes : List ExecOutcome) : Label → Bool
  | .engine (.call (.runWaitingEvent k event stepId timeoutAt matchJson) _) =>
    k ≠ r || .event stepId event timeoutAt matchJson ∈ outcomes
  | _ => true

/-- Every event that the run is to be woken by is one that its function waits for. -/
structure Waiting (fn : WorkflowFn) (input : Json) (r : RunId) (σ : Replay) : Prop where
  consistent : Consistent fn input r σ
  outcomes : ∀ stepId event timeoutAt matchJson,
    .event stepId event timeoutAt matchJson ∈ σ.outcomes →
    Awaits fn input σ.store r stepId event matchJson
  row : ∀ run, σ.store.getRun r = some run → run.status = .waitEvent →
    ∃ stepId event, run.waitStepId = some stepId ∧
    run.waitEvent = some event ∧ Awaits fn input σ.store r stepId event run.waitMatch

variable {fn : WorkflowFn} {input : Json} {r : RunId} {s s' : Store} {σ σ' : Replay}
  {l : Time × Label}
  {stepId : StepId} {event : String} {matchJson : Option Json} {a : Attempt}

theorem Awaits.mono (h : Awaits fn input s r stepId event matchJson)
    (hsub : s.loadJournal r ⊆ s'.loadJournal r) :
    Awaits fn input s' r stepId event matchJson := by
  obtain ⟨t, timeout, ht, hfn⟩ := h
  exact ⟨t, timeout, ht.mono hsub, hfn⟩

theorem step_cases (h : step fn r σ l = some σ') :
    (∃ now op, l = (now, .engine op) ∧ permitted r σ.outcomes op = true ∧
    ((op.perform σ.store now).runs.get? r).isSome ∧
      σ' = { σ with store := op.perform σ.store now }) ∨
    (σ'.store = σ.store ∨ ∃ now id json, σ'.store = σ.store.recordStep r id .run (some json) now) ∧
      ∀ stepId event timeoutAt matchJson, .event stepId event timeoutAt matchJson ∈ σ'.outcomes →
        .event stepId event timeoutAt matchJson ∈ σ.outcomes ∨
        ∃ a now, σ.attempt = some a ∧ a.advance fn now = .error
          (.event stepId event timeoutAt matchJson) := by
  obtain ⟨now, l⟩ := l
  cases l with
  | start =>
      right
      simp only [Replay.step] at h
      split at h
      · cases h
        exact ⟨.inl rfl, fun _ _ _ _ ho => .inl ho⟩
      · cases h
  | advance =>
      right
      obtain ⟨a, ha, h⟩ := Option.bind_eq_some_iff.mp h
      split at h
      · cases h
        cases hadv : a.advance fn now with
        | ok a' => exact ⟨.inl rfl, fun _ _ _ _ ho => .inl ho⟩
        | error o =>
            refine ⟨.inl rfl, fun stepId event timeoutAt matchJson ho => ?_⟩
            rcases List.mem_cons.mp ho with rfl | ho
            · exact .inr ⟨a, now, ha, hadv⟩
            · exact .inl ho
      · cases h
  | returned result =>
      right
      obtain ⟨a, _, h⟩ := Option.bind_eq_some_iff.mp h
      obtain ⟨res, hret, rfl⟩ := Option.map_eq_some_iff.mp h
      unfold Attempt.returned at hret
      split at hret
      · cases hret
        cases result with
        | error message =>
            refine ⟨.inl rfl, fun _ _ _ _ ho => ?_⟩
            rcases List.mem_cons.mp ho with ho | ho
            · cases ho
            · exact .inl ho
        | ok json => exact ⟨.inl rfl, fun _ _ _ _ ho => .inl ho⟩
      · cases hret
  | record =>
      right
      obtain ⟨a, _, h⟩ := Option.bind_eq_some_iff.mp h
      split at h
      · next id json _ =>
          cases h
          exact ⟨.inr ⟨now, id, json, rfl⟩, fun _ _ _ _ ho => .inl ho⟩
      · cases h
  | recordFails error =>
      right
      obtain ⟨a, _, h⟩ := Option.bind_eq_some_iff.mp h
      split at h
      · cases h
        refine ⟨.inl rfl, fun _ _ _ _ ho => ?_⟩
        rcases List.mem_cons.mp ho with ho | ho
        · cases ho
        · exact .inl ho
      · cases h
  | crash =>
      right
      cases h
      exact ⟨.inl rfl, fun _ _ _ _ ho => .inl ho⟩
  | engine op =>
      left
      simp only [Replay.step] at h
      split at h
      · next hok =>
          cases h
          rw [Bool.and_eq_true] at hok
          exact ⟨now, op, rfl, hok.1, hok.2, rfl⟩
      · cases h

theorem Consistent.loadJournal_subset (h : Consistent fn input r σ)
    (hs : Replay.step fn r σ l = some σ') :
    σ.store.loadJournal r ⊆ σ'.store.loadJournal r := by
  obtain ⟨run, hrun, _⟩ := h.row
  have hrow := Option.isSome_of_eq_some hrun
  rcases step_cases hs with ⟨now, op, _, _, hrow', rfl⟩ | ⟨hst | ⟨now, id, json, hst⟩, _⟩
  · exact ((op.keepsJournal h.fresh now).kept h.fresh hrow hrow').journal
  · rw [hst]
    exact List.Subset.refl _
  · have hkeeps := Call.keepsJournal h.fresh (.recordStep r id .run (some json)) now []
    rw [hst]
    exact (hkeeps.kept h.fresh hrow hrow).journal

theorem Consistent.awaits {timeoutAt : Option Time} {now : Time} (h : Consistent fn input r σ)
    (ha : σ.attempt = some a)
    (hadv : a.advance fn now = .error (.event stepId event timeoutAt matchJson)) :
    Awaits fn input σ.store r stepId event matchJson := by
  obtain ⟨t, ht⟩ := h.attempt a ha
  obtain ⟨timeout, hfn⟩ := Attempt.advance_eq_event hadv
  rw [ht.input_eq, ht.values_eq] at hfn
  exact ⟨t, timeout, ht.trace, hfn⟩

theorem Waiting.step (h : Waiting fn input r σ) (hok : asAsked r σ.outcomes l.2 = true)
    (hs : Replay.step fn r σ l = some σ') :
    Waiting fn input r σ' := by
  have hsub := h.consistent.loadJournal_subset hs
  refine ⟨h.consistent.step hs, ?_, ?_⟩
  · intro stepId event timeoutAt matchJson ho
    apply Awaits.mono _ hsub
    rcases step_cases hs with ⟨now, op, _, _, _, rfl⟩ | ⟨_, hnew⟩
    · exact h.outcomes stepId event timeoutAt matchJson ho
    · rcases hnew stepId event timeoutAt matchJson ho with ho | ⟨a, now, ha, hadv⟩
      · exact h.outcomes stepId event timeoutAt matchJson ho
      · exact h.consistent.awaits ha hadv
  · intro run hrun hst
    have hold (hrun : σ.store.getRun r = some run) : ∃ stepId event, run.waitStepId = some stepId ∧
        run.waitEvent = some event ∧ Awaits fn input σ'.store r stepId event run.waitMatch := by
      obtain ⟨stepId, event, hid, hev, haw⟩ := h.row run hrun hst
      exact ⟨stepId, event, hid, hev, haw.mono hsub⟩
    rcases step_cases hs with ⟨now, op, rfl, _, _, rfl⟩ | ⟨hstore | ⟨now, id, json, hstore⟩, _⟩
    · cases op with
      | claim | renewLeases => exact hold hrun
      | call c locked =>
          obtain ⟨run₀, hrun₀, _⟩ := h.consistent.row
          obtain hc | ⟨run', hch, hc⟩ | ⟨_, hc⟩ := c.perform_run_cases now locked hrun₀
          · exact hold (hrun₀.trans (hc.symm.trans hrun))
          · obtain rfl : run' = run := Option.some.inj (hc.symm.trans hrun)
            obtain ⟨event, id, timeoutAt, matchJson, rfl, rfl⟩ := hch.of_waitEvent hst
            have hkey : run₀.id = r := Table.key_of_get? hrun₀
            have hmem : .event id event timeoutAt matchJson ∈ σ.outcomes := by
              simpa [asAsked, hkey] using hok
            exact ⟨id, event, rfl, rfl, (h.outcomes id event timeoutAt matchJson hmem).mono hsub⟩
          · cases hc.symm.trans hrun
    · rw [hstore] at hrun
      exact hold hrun
    · rw [hstore] at hrun
      exact hold hrun

theorem Waiting.init {run : RunRow} (hf : s.Fresh) (hrun : s.getRun r = some run)
    (hstatus : run.status = .runnable)
    (hj : s.loadJournal r = []) : Waiting fn run.input r (init s) where
  consistent := .init hf hrun hstatus hj
  outcomes _ _ _ _ ho := by cases ho
  row run' hrun' hs := by
    obtain rfl : run = run' := Option.some.inj (hrun.symm.trans hrun')
    rw [hstatus] at hs
    cases hs

end Replay

end ZenZip
