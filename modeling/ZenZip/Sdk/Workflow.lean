import ZenZip.Engine.Calls

namespace ZenZip

namespace Json

def truthy : Json → Bool
  | .null => false
  | .bool b => b
  | .int n => n ≠ 0
  | .float q => q ≠ 0
  | .str s => s ≠ ""
  | .arr _ | .obj _ => true

/-- A property of a parsed value, none where it is `undefined`; null has none to read. -/
def property : Json → String → Except Json (Option Json)
  | .null, k => .error (.str s!"Cannot read properties of null (reading '{k}')")
  | v, k => .ok (v.get k)

end Json

/-- What an awaited step gives the workflow function: a value, none for `undefined`,
or the error that it throws. -/
abbrev StepValue := Except Json (Option Json)

namespace StepKind

def text : StepKind → String
  | .run => "run"
  | .sleep => "sleep"
  | .waitForEvent => "waitForEvent"
  | .invoke => "invoke"

end StepKind

namespace StepEntry

/-- A journal entry as the step of its kind reads it. -/
def value (e : StepEntry) : StepValue :=
  let r := e.result.getD (.obj [])
  match e.kind with
  | .run => .ok e.result
  | .sleep => .ok none
  | .waitForEvent => do
    let timedOut ← r.property "timedOut"
    if timedOut.any Json.truthy then return some .null
    r.property "event"
  | .invoke => do
    if let some error ← r.property "error" then throw error
    r.property "output"

end StepEntry

/-- What a workflow function does next: it ends, or it awaits a step. -/
inductive Action
  | returns (output : Option Json)
  | throws (message : String)
  | run (id : StepId)
  | sleep (id : StepId) (duration : Int)
  | waitForEvent (id : StepId) (event : String) (timeout : Option Int) (matchJson : Option Json)
  | invoke (id : StepId) (workflow : String) (input : Option Json)

namespace Action

def request : Action → Option (StepId × StepKind)
  | .returns _ | .throws _ => none
  | .run id => some (id, .run)
  | .sleep id _ => some (id, .sleep)
  | .waitForEvent id _ _ _ => some (id, .waitForEvent)
  | .invoke id _ _ => some (id, .invoke)

end Action

/-- A sequential workflow function whose code depends only on the input and on what
its steps have given it so far. -/
abbrev WorkflowFn := Json → List StepValue → Action

namespace ExecOutcome

def suspends : ExecOutcome → StepId → StepKind → Bool
  | .sleep s _, stepId, kind => s = stepId && kind = .sleep
  | .event s _ _ _, stepId, kind => s = stepId && kind = .waitForEvent
  | .invoke s _ _, stepId, kind => s = stepId && kind = .invoke
  | _, _, _ => false

end ExecOutcome

/-- Where an attempt is: in the code of the workflow function, in the function of a
step, or between its result and the record of it. -/
inductive Position
  | ready
  | calling (id : StepId)
  | recording (id : StepId) (json : Json)
  deriving DecidableEq

namespace Position

def step? : Position → Option StepId
  | .ready => none
  | .calling id | .recording id _ => some id

end Position

structure Attempt where
  input : Json
  journal : List StepEntry
  usedIds : List StepId
  values : List StepValue
  position : Position

namespace Attempt

def start (input : Json) (journal : List StepEntry) : Attempt := ⟨input, journal, [], [], .ready⟩

def claim (a : Attempt) (id : StepId) (kind : StepKind) : Except String (Option StepEntry) :=
  if id ∈ a.usedIds then
    .error s!"duplicate step id \"{id}\" — every step in a run needs a unique, stable id"
  else match a.journal.find? (fun e => e.id = id) with
    | some e =>
      if e.kind = kind then .ok (some e)
      else .error (s!"step \"{id}\" changed kind from \"{e.kind.text}\" to \"{kind.text}\" — " ++
        "in-flight runs must keep stable step ids (docs: workflow versioning)")
    | none => .ok none

/-- A step with a journal entry gives its value, another one goes on as `miss`. -/
def await (a : Attempt) (id : StepId) (kind : StepKind) (miss : Except ExecOutcome Attempt) :
    Except ExecOutcome Attempt :=
  match a.claim id kind with
  | .error message => .error (.failed message)
  | .ok (some e) => .ok { a with usedIds := id :: a.usedIds, values := a.values ++ [e.value] }
  | .ok none => miss

section Await

variable {a a' : Attempt} {id : StepId} {kind : StepKind} {miss : Except ExecOutcome Attempt}
  {o : ExecOutcome}

theorem mem_of_claim {e : StepEntry} (h : a.claim id kind = .ok (some e)) :
    id ∉ a.usedIds ∧ e ∈ a.journal ∧ e.id = id ∧ e.kind = kind := by
  unfold claim at h
  split at h
  · cases h
  · next hid =>
      split at h
      · next e' he =>
          split at h
          · next hk =>
              cases h
              have hp := List.find?_some he
              exact ⟨hid, List.mem_of_find?_eq_some he, of_decide_eq_true hp, hk⟩
          · cases h
      · cases h

theorem not_mem_of_claim (h : a.claim id kind = .ok none) :
    id ∉ a.usedIds ∧ ∀ e ∈ a.journal, e.id ≠ id := by
  unfold claim at h
  split at h
  · cases h
  · next hid =>
      split at h
      · split at h <;> cases h
      · next he =>
          refine ⟨hid, fun e hm hi => ?_⟩
          have hne := List.find?_eq_none.mp he e hm
          exact hne (decide_eq_true hi)

theorem await_eq_ok (h : a.await id kind miss = .ok a') : id ∉ a.usedIds ∧
    ((∃ e ∈ a.journal, e.id = id ∧ e.kind = kind ∧
        a' = { a with usedIds := id :: a.usedIds, values := a.values ++ [e.value] }) ∨
      (∀ e ∈ a.journal, e.id ≠ id) ∧ miss = .ok a') := by
  unfold await at h
  split at h
  · cases h
  · next e he =>
      cases h
      obtain ⟨hid, hm, hi, hk⟩ := mem_of_claim he
      exact ⟨hid, .inl ⟨e, hm, hi, hk, rfl⟩⟩
  · next hn =>
      obtain ⟨hid, hj⟩ := not_mem_of_claim hn
      exact ⟨hid, .inr ⟨hj, h⟩⟩

theorem await_eq_error (h : a.await id kind miss = .error o) :
    (∃ message, o = .failed message) ∨ id ∉ a.usedIds ∧ miss = .error o := by
  unfold await at h
  split at h
  · next message _ =>
      cases h
      exact .inl ⟨message, rfl⟩
  · cases h
  · next hn => exact .inr ⟨(not_mem_of_claim hn).1, h⟩

end Await

/-- The workflow function up to its next await, or the outcome of the attempt. -/
def advance (a : Attempt) (fn : WorkflowFn) (now : Time) : Except ExecOutcome Attempt :=
  match fn a.input a.values with
  | .returns output => .error (.completed (some (output.getD .null)))
  | .throws message => .error (.failed message)
  | .run id => a.await id .run (.ok { a with usedIds := id :: a.usedIds, position := .calling id })
  | .sleep id duration => a.await id .sleep (.error (.sleep id (now + duration)))
  | .waitForEvent id event timeout matchJson =>
    a.await id .waitForEvent (.error (.event id event (timeout.map (now + ·)) matchJson))
  | .invoke id workflow input =>
      a.await id .invoke (.error (.invoke id workflow (some (input.getD .null))))

section Advance

variable {a a' : Attempt} {fn : WorkflowFn} {now : Time} {o : ExecOutcome}

theorem advance_eq_ok (h : a.advance fn now = .ok a') :
    ∃ id kind, (fn a.input a.values).request = some (id, kind) ∧
    id ∉ a.usedIds ∧
    ((∃ e ∈ a.journal, e.id = id ∧ e.kind = kind ∧
        a' = { a with usedIds := id :: a.usedIds, values := a.values ++ [e.value] }) ∨
      (∀ e ∈ a.journal, e.id ≠ id) ∧ kind = .run ∧
        a' = { a with usedIds := id :: a.usedIds, position := .calling id }) := by
  unfold advance at h
  cases hfn : fn a.input a.values with
  | returns output | throws message =>
      rw [hfn] at h
      cases h
  | run id =>
      rw [hfn] at h
      obtain ⟨hid, he | ⟨hn, hm⟩⟩ := await_eq_ok h
      · exact ⟨id, .run, rfl, hid, .inl he⟩
      · cases hm
        exact ⟨id, .run, rfl, hid, .inr ⟨hn, rfl, rfl⟩⟩
  | sleep id duration =>
      rw [hfn] at h
      obtain ⟨hid, he | ⟨_, hm⟩⟩ := await_eq_ok h
      · exact ⟨id, .sleep, rfl, hid, .inl he⟩
      · cases hm
  | waitForEvent id event timeout matchJson =>
      rw [hfn] at h
      obtain ⟨hid, he | ⟨_, hm⟩⟩ := await_eq_ok h
      · exact ⟨id, .waitForEvent, rfl, hid, .inl he⟩
      · cases hm
  | invoke id workflow input =>
      rw [hfn] at h
      obtain ⟨hid, he | ⟨_, hm⟩⟩ := await_eq_ok h
      · exact ⟨id, .invoke, rfl, hid, .inl he⟩
      · cases hm

theorem advance_eq_error (h : a.advance fn now = .error o) : (∃ message, o = .failed message) ∨
    (∃ output, fn a.input a.values = .returns output ∧ o = .completed (some (output.getD .null))) ∨
    ∃ id kind, (fn a.input a.values).request = some (id, kind) ∧ id ∉ a.usedIds ∧ kind ≠ .run ∧
      ∀ stepId k, o.suspends stepId k = (id = stepId && k = kind) := by
  unfold advance at h
  cases hfn : fn a.input a.values with
  | returns output =>
      rw [hfn] at h
      cases h
      exact .inr (.inl ⟨output, rfl, rfl⟩)
  | throws message =>
      rw [hfn] at h
      cases h
      exact .inl ⟨message, rfl⟩
  | run id =>
      rw [hfn] at h
      obtain hm | ⟨_, hm⟩ := await_eq_error h
      · exact .inl hm
      · cases hm
  | sleep id duration =>
      rw [hfn] at h
      obtain hm | ⟨hid, hm⟩ := await_eq_error h
      · exact .inl hm
      · cases hm
        exact .inr (.inr ⟨id, .sleep, rfl, hid, by decide, fun _ _ => rfl⟩)
  | waitForEvent id event timeout matchJson =>
      rw [hfn] at h
      obtain hm | ⟨hid, hm⟩ := await_eq_error h
      · exact .inl hm
      · cases hm
        exact .inr (.inr ⟨id, .waitForEvent, rfl, hid, by decide, fun _ _ => rfl⟩)
  | invoke id workflow input =>
      rw [hfn] at h
      obtain hm | ⟨hid, hm⟩ := await_eq_error h
      · exact .inl hm
      · cases hm
        exact .inr (.inr ⟨id, .invoke, rfl, hid, by decide, fun _ _ => rfl⟩)

end Advance

def returned (a : Attempt) (result : Except String Json) : Option (Except ExecOutcome Attempt) :=
  match a.position with
  | .calling id => some (match result with
    | .error message => .error (.stepFailed id message)
    | .ok json => .ok { a with position := .recording id json })
  | _ => none

def recorded (a : Attempt) (json : Json) : Attempt :=
  { a with values := a.values ++ [.ok (some json)], position := .ready }

end Attempt

/-- One execution without a journal, from the values `values` on: each step gives its
result of `results`, in this order, and the function returns `output`. -/
inductive Uninterrupted (fn : WorkflowFn) (input : Json) :
    List StepValue → List StepEntry → Option Json → Prop
  | returned {values output} (h : fn input values = .returns output) :
  Uninterrupted fn input values [] output
  | step {values e results output} (h : (fn input values).request = some (e.id, e.kind))
      (hrest : Uninterrupted fn input (values ++ [e.value]) results output) :
      Uninterrupted fn input values (e :: results) output

end ZenZip
