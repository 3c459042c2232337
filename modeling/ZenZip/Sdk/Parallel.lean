import ZenZip.Sdk.Workflow
import ZenZip.Engine.Workflow
import ZenZip.Ledger.Ops
import ZenZip.Lib.Run

namespace ZenZip

open Lib

namespace Parallel

inductive Signal
  | stepFailure (message : String)
  | sleep (wakeAt : Time)
  | event (name : String) (timeoutAt : Option Time) (matchJson : Option Json)
  | invoke (workflow : String) (input : Option Json)
  deriving DecidableEq

def Signal.outcome (id : StepId) : Signal → ExecOutcome
  | .stepFailure message => .stepFailed id message
  | .sleep wakeAt => .sleep id wakeAt
  | .event name timeoutAt matchJson => .event id name timeoutAt matchJson
  | .invoke workflow input => .invoke id workflow input

/-- How a step settles for the workflow function: a value, an `Error`, or a signal. -/
inductive Told
  | value (v : Option Json)
  | rejected (error : Json)
  | signal (s : Signal)

def Told.ofValue : StepValue → Told
  | .ok v => .value v
  | .error e => .rejected e

structure Event where
  id : StepId
  told : Told

/-- How the promise of the workflow function settles. It gets signals only from the steps
that have settled with them. -/
inductive Ending (history : List Event)
  | returns (output : Option Json)
  | throws (message : String)
  | rethrows (id : StepId) (s : Signal) (h : ⟨id, .signal s⟩ ∈ history)

def Ending.outcome {history : List Event} : Ending history → ExecOutcome
  | .returns output => .completed (some (output.getD .null))
  | .throws message => .failed message
  | .rethrows id s _ => s.outcome id

inductive StepCall
  | run (id : StepId)
  | sleep (id : StepId) (duration : Int)
  | waitForEvent (id : StepId) (event : String) (timeout : Option Int) (matchJson : Option Json)
  | invoke (id : StepId) (workflow : String) (input : Option Json)

namespace StepCall

def id : StepCall → StepId
  | .run id | .sleep id _ | .waitForEvent id _ _ _ | .invoke id _ _ => id

def kind : StepCall → StepKind
  | .run _ => .run
  | .sleep _ _ => .sleep
  | .waitForEvent _ _ _ _ => .waitForEvent
  | .invoke _ _ _ => .invoke

/-- What a step without a journal entry throws, if it does not call a function. -/
def signal (now : Time) : StepCall → Option Signal
  | .run _ => none
  | .sleep _ duration => some (.sleep (now + duration))
  | .waitForEvent _ event timeout matchJson => some (.event event (timeout.map (now + ·)) matchJson)
  | .invoke _ workflow input => some (.invoke workflow (some (input.getD .null)))

end StepCall

/-- The steps that the workflow function calls next, in this order, and how it settles. -/
structure Reaction (history : List Event) where
  calls : List StepCall
  ending : Option (Ending history)

/-- A workflow function, by its reaction to the steps that have settled so far. Steps that
it calls before it awaits one of them run in parallel. -/
abbrev Code := Json → (history : List Event) → Reaction history

inductive Fate
  | calling
  | recording (json : Json)
  | recorded
  | threw (message : String)
  deriving DecidableEq

namespace Fate

def settled : Fate → Bool
  | .recorded | .threw _ => true
  | .calling | .recording _ => false

def succeeded : Fate → Bool
  | .recording _ | .recorded => true
  | .calling | .threw _ => false

def failed : Fate → Bool
  | .threw _ => true
  | .calling | .recording _ | .recorded => false

end Fate

/-- A call of `executeAttempt`. Its code goes on after the outcome as long as steps settle. -/
structure Attempt where
  code : Code
  input : Json
  journal : List StepEntry
  usedIds : List StepId
  functions : List (StepId × Fate)
  /-- The steps that have settled and that the workflow function has not been told of. -/
  arriving : List Event
  history : List Event
  outcome : Option ExecOutcome

namespace Attempt

def claim (a : Attempt) (id : StepId) (kind : StepKind) : Except String (Option StepEntry) :=
  (⟨a.input, a.journal, a.usedIds, [], .ready⟩ : ZenZip.Attempt).claim id kind

def arrive (a : Attempt) (id : StepId) (told : Told) : Attempt :=
  { a with arriving := a.arriving ++ [⟨id, told⟩] }

def call (now : Time) (a : Attempt) (c : StepCall) : Attempt :=
  let used := { a with usedIds := c.id :: a.usedIds }
  match a.claim c.id c.kind with
  | .error message => used.arrive c.id (.rejected (.str message))
  | .ok (some e) => used.arrive c.id (.ofValue e.value)
  | .ok none => match c.signal now with
    | some s => used.arrive c.id (.signal s)
    | none => { used with functions := (c.id, .calling) :: a.functions }

/-- The workflow function goes on. Only the first outcome counts. -/
def react (now : Time) (a : Attempt) : Attempt :=
  let reaction := a.code a.input a.history
  { reaction.calls.foldl (call now) a with
    outcome := a.outcome.or (reaction.ending.map Ending.outcome) }

def start (code : Code) (now : Time) (input : Json) (journal : List StepEntry) : Attempt :=
  react now ⟨code, input, journal, [], [], [], [], none⟩

/-- The workflow function is told of a step that has settled, in any order. -/
def tell (now : Time) (a : Attempt) (j : Nat) : Option Attempt :=
  (a.arriving[j]?).map
    (fun e => react now { a with arriving := a.arriving.eraseIdx j, history := a.history ++ [e] })

def fate? (a : Attempt) (id : StepId) : Option Fate :=
  (a.functions.find? (fun f => f.1 = id)).map Prod.snd

def setFate (a : Attempt) (id : StepId) (fate : Fate) : Attempt :=
  { a with functions := a.functions.map (fun f => if f.1 = id then (id, fate) else f) }

def settle (a : Attempt) (id : StepId) : Except String Json → Attempt
  | .error message => (a.setFate id (.threw message)).arrive id (.signal (.stepFailure message))
  | .ok json => a.setFate id (.recording json)

def returned (a : Attempt) (id : StepId) (result : Except String Json) : Option Attempt :=
  match a.fate? id with
  | some .calling => some (a.settle id result)
  | _ => none

def recorded (a : Attempt) (id : StepId) : Option (Json × Attempt) :=
  match a.fate? id with
  | some (.recording json) => some (json, (a.setFate id .recorded).arrive id (.value (some json)))
  | _ => none

/-- Nothing of the attempt goes on by itself: no step function is running or has a result
that is not recorded, and the workflow function has been told of everything. -/
def quiet (a : Attempt) : Bool := a.functions.all (fun f => f.2.settled) && a.arriving.isEmpty

/-- What calls of steps do to an attempt: its functions are those of before and new ones. -/
structure Calls (a a' : Attempt) : Prop where
  code : a'.code = a.code
  input : a'.input = a.input
  journal : a'.journal = a.journal
  history : a'.history = a.history
  outcome : a'.outcome = a.outcome
  usedIds : a.usedIds ⊆ a'.usedIds
  functions : ∃ new : List StepId,
    a'.functions = new.map (fun id => (id, .calling)) ++ a.functions ∧ new.Nodup ∧
    ∀ id ∈ new, id ∉ a.usedIds ∧ id ∈ a'.usedIds ∧ ∀ e ∈ a.journal, e.id ≠ id
  arriving : ∀ e ∈ a'.arriving, e ∈ a.arriving ∨ ∀ message, e.told ≠ .signal (.stepFailure message)

section Calls

variable {a a' a'' : Attempt} {now : Time} {c : StepCall}

theorem Calls.refl (a : Attempt) : Calls a a where
  code := rfl
  input := rfl
  journal := rfl
  history := rfl
  outcome := rfl
  usedIds := List.Subset.refl _
  functions := ⟨[], rfl, List.nodup_nil, fun _ h => absurd h List.not_mem_nil⟩
  arriving _ h := .inl h

theorem Calls.trans (h : Calls a a') (h' : Calls a' a'') : Calls a a'' where
  code := h'.code.trans h.code
  input := h'.input.trans h.input
  journal := h'.journal.trans h.journal
  history := h'.history.trans h.history
  outcome := h'.outcome.trans h.outcome
  usedIds := List.Subset.trans h.usedIds h'.usedIds
  functions := by
    obtain ⟨new, hnew, hnodup, hids⟩ := h.functions
    obtain ⟨new', hnew', hnodup', hids'⟩ := h'.functions
    refine ⟨new' ++ new, ?_, ?_, ?_⟩
    · rw [hnew', hnew, List.map_append, List.append_assoc]
    · refine List.nodup_append.mpr ⟨hnodup', hnodup, fun id hid id' hid' => ?_⟩
      rintro rfl
      exact (hids' id hid).1 (hids id hid').2.1
    · intro id hid
      rcases List.mem_append.mp hid with hid | hid
      · obtain ⟨hn, hu, hj⟩ := hids' id hid
        rw [h.journal] at hj
        exact ⟨fun hused => hn (h.usedIds hused), hu, hj⟩
      · obtain ⟨hn, hu, hj⟩ := hids id hid
        exact ⟨hn, h'.usedIds hu, hj⟩
  arriving e he := by
    rcases h'.arriving e he with he | hn
    · exact h.arriving e he
    · exact .inr hn

theorem Calls.of_arrive {id : StepId} {told : Told}
    (hne : ∀ message, told ≠ .signal (.stepFailure message)) :
    Calls a ({ a with usedIds := id :: a.usedIds }.arrive id told) where
  code := rfl
  input := rfl
  journal := rfl
  history := rfl
  outcome := rfl
  usedIds := List.subset_cons_self _ _
  functions := ⟨[], rfl, List.nodup_nil, fun _ h => absurd h List.not_mem_nil⟩
  arriving e he := by
    rcases List.mem_append.mp he with he | he
    · exact .inl he
    · rw [List.mem_singleton] at he
      exact .inr (he ▸ hne)

theorem calls_call (now : Time) (a : Attempt) (c : StepCall) : Calls a (a.call now c) := by
  rw [call]
  split
  · exact .of_arrive nofun
  · next e _ =>
      refine .of_arrive (fun message h => ?_)
      cases hv : e.value with
      | ok v | error e' =>
          rw [hv] at h
          cases h
  · next hclaim =>
      obtain ⟨hid, hjournal⟩ := ZenZip.Attempt.not_mem_of_claim hclaim
      split
      · next s hs =>
          refine .of_arrive (fun message h => ?_)
          cases h
          cases c <;> cases hs
      · refine ⟨rfl, rfl, rfl, rfl, rfl, List.subset_cons_self _ _,
          ⟨[c.id], rfl, List.nodup_singleton _, ?_⟩, fun _ h => .inl h⟩
        intro id hmem
        rw [List.mem_singleton] at hmem
        subst hmem
        exact ⟨hid, List.mem_cons_self, hjournal⟩

theorem calls_foldl (now : Time) (cs : List StepCall) (a : Attempt) :
    Calls a (cs.foldl (call now) a) := by
  induction cs generalizing a with
  | nil => exact .refl a
  | cons c cs ih => exact (calls_call now a c).trans (ih (a.call now c))

end Calls

structure Sound (a : Attempt) : Prop where
  nodup : (a.functions.map Prod.fst).Nodup
  used : ∀ f ∈ a.functions, f.1 ∈ a.usedIds
  missed : ∀ f ∈ a.functions, ∀ e ∈ a.journal, e.id ≠ f.1
  failures : ∀ e ∈ a.arriving ++ a.history, ∀ message, e.told = .signal (.stepFailure message) →
    (e.id, .threw message) ∈ a.functions
  outcome : ∀ id message, a.outcome = some (.stepFailed id message) →
    (id, .threw message) ∈ a.functions

section Sound

variable {a a' : Attempt} {now : Time} {id : StepId}

theorem Sound.calls (h : Sound a) (hc : Calls a a') : Sound a' := by
  obtain ⟨new, hnew, hnodup, hids⟩ := hc.functions
  have hmem {f} (hf : f ∈ a'.functions) : (f.1 ∈ new) ∨ f ∈ a.functions := by
    rw [hnew] at hf
    rcases List.mem_append.mp hf with hf | hf
    · obtain ⟨id, hid, rfl⟩ := List.mem_map.mp hf
      exact .inl hid
    · exact .inr hf
  have hold {f} (hf : f ∈ a.functions) : f ∈ a'.functions := hnew ▸ List.mem_append_right _ hf
  refine ⟨?_, ?_, ?_, ?_, ?_⟩
  · have hfst : (new.map (fun id => (id, Fate.calling))).map Prod.fst = new := by
      rw [List.map_map]
      exact List.map_id' new
    rw [hnew, List.map_append, hfst, List.nodup_append]
    refine ⟨hnodup, h.nodup, ?_⟩
    intro id hid id' hid'
    rintro rfl
    obtain ⟨f, hf, rfl⟩ := List.mem_map.mp hid'
    exact (hids f.1 hid).1 (h.used f hf)
  · intro f hf
    rcases hmem hf with hf | hf
    · exact (hids f.1 hf).2.1
    · exact hc.usedIds (h.used f hf)
  · intro f hf
    rw [hc.journal]
    rcases hmem hf with hf | hf
    · exact (hids f.1 hf).2.2
    · exact h.missed f hf
  · intro e he message htold
    rw [hc.history] at he
    rcases List.mem_append.mp he with he | he
    · rcases hc.arriving e he with he | hne
      · exact hold (h.failures e (List.mem_append_left _ he) message htold)
      · exact absurd htold (hne message)
    · exact hold (h.failures e (List.mem_append_right _ he) message htold)
  · intro id message ho
    rw [hc.outcome] at ho
    exact hold (h.outcome id message ho)

theorem Sound.react (h : Sound a) : Sound (a.react now) := by
  have hc := calls_foldl now (a.code a.input a.history).calls a
  have hs := h.calls hc
  refine ⟨hs.nodup, hs.used, hs.missed, hs.failures, fun id message ho => ?_⟩
  have hor : a.outcome.or ((a.code a.input a.history).ending.map Ending.outcome) =
    some (.stepFailed id message) := ho
  rcases Option.or_eq_some_iff.mp hor with ho | ⟨_, ho⟩
  · exact hs.outcome id message (hc.outcome.trans ho)
  · obtain ⟨ending, _, he⟩ := Option.map_eq_some_iff.mp ho
    cases ending with
    | returns output | throws message' => cases he
    | rethrows id' s hmem =>
        cases s with
        | sleep | event | invoke => cases he
        | stepFailure message' =>
            cases he
            exact hs.failures _ (List.mem_append_right _ (hc.history.symm ▸ hmem)) _ rfl

theorem sound_start (code : Code) (now : Time) (input : Json) (journal : List StepEntry) :
    Sound (start code now input journal) := by
  apply Sound.react
  exact ⟨List.nodup_nil, nofun, nofun, nofun, nofun⟩

theorem Sound.tell {j : Nat} (h : Sound a) (ht : a.tell now j = some a') : Sound a' := by
  obtain ⟨e, he, rfl⟩ := Option.map_eq_some_iff.mp ht
  apply Sound.react
  refine ⟨h.nodup, h.used, h.missed, fun e' he' => h.failures e' ?_, h.outcome⟩
  rcases List.mem_append.mp he' with he' | he'
  · exact List.mem_append_left _ (List.mem_of_mem_eraseIdx he')
  · rcases List.mem_append.mp he' with he' | he'
    · exact List.mem_append_right _ he'
    · rw [List.mem_singleton] at he'
      exact List.mem_append_left _ (he' ▸ List.mem_of_getElem? he)

theorem mem_of_fate? {fate : Fate} (h : a.fate? id = some fate) : (id, fate) ∈ a.functions := by
  obtain ⟨f, hf, rfl⟩ := Option.map_eq_some_iff.mp h
  have hid : f.1 = id :=
    of_decide_eq_true (List.find?_some (p := fun f : StepId × Fate => f.1 = id) hf)
  exact hid ▸ List.mem_of_find?_eq_some hf

theorem mem_setFate {fate : Fate} {f : StepId × Fate} :
    f ∈ (a.setFate id fate).functions ↔ (f = (id, fate) ∧ ∃ g ∈ a.functions, g.1 = id) ∨
    f ∈ a.functions ∧ f.1 ≠ id := by
  rw [setFate, List.mem_map]
  constructor
  · rintro ⟨g, hg, rfl⟩
    by_cases hid : g.1 = id
    · rw [if_pos hid]
      exact .inl ⟨rfl, g, hg, hid⟩
    · rw [if_neg hid]
      exact .inr ⟨hg, hid⟩
  · rintro (⟨rfl, g, hg, hid⟩ | ⟨hf, hid⟩)
    · exact ⟨g, hg, if_pos hid⟩
    · exact ⟨f, hf, if_neg hid⟩

theorem ids_setFate (a : Attempt) (id : StepId) (fate : Fate) :
    (a.setFate id fate).functions.map Prod.fst = a.functions.map Prod.fst := by
  rw [setFate, List.map_map]
  apply List.map_congr_left
  intro f _
  rw [Function.comp_apply]
  split
  · next hid => exact hid.symm
  · rfl

theorem Sound.setFate {fate fate' : Fate} (h : Sound a) (hid : (id, fate) ∈ a.functions)
    (hf : fate.failed = false) :
    Sound (a.setFate id fate') := by
  have hkeep {id' message} (hm : (id', Fate.threw message) ∈ a.functions) :
      (id', .threw message) ∈ (a.setFate id fate').functions := by
    refine mem_setFate.mpr (.inr ⟨hm, ?_⟩)
    rintro rfl
    have heq := List.inj_on_of_nodup_map h.nodup hm hid rfl
    cases heq
    cases hf
  have hfst {f} (hm : f ∈ (a.setFate id fate').functions) : ∃ g ∈ a.functions, g.1 = f.1 := by
    rcases mem_setFate.mp hm with ⟨rfl, g, hg, hgid⟩ | ⟨hm, _⟩
    · exact ⟨g, hg, hgid⟩
    · exact ⟨f, hm, rfl⟩
  refine ⟨?_, ?_, ?_, fun e he message ht => hkeep (h.failures e he message ht),
    fun id' message ho => hkeep (h.outcome id' message ho)⟩
  · rw [ids_setFate]
    exact h.nodup
  · intro f hm
    obtain ⟨g, hg, hgid⟩ := hfst hm
    exact hgid ▸ h.used g hg
  · intro f hm
    obtain ⟨g, hg, hgid⟩ := hfst hm
    exact hgid ▸ h.missed g hg

theorem Sound.arrive {told : Told} (h : Sound a)
    (ht : ∀ message, told = .signal (.stepFailure message) → (id, .threw message) ∈ a.functions) :
    Sound (a.arrive id told) := by
  refine ⟨h.nodup, h.used, h.missed, fun e he => ?_, h.outcome⟩
  rw [Attempt.arrive, List.append_assoc, List.mem_append, List.mem_append, List.mem_singleton] at he
  rcases he with he | rfl | he
  · exact h.failures e (List.mem_append_left _ he)
  · exact ht
  · exact h.failures e (List.mem_append_right _ he)

theorem returned_cases {result : Except String Json} (h : a.returned id result = some a') :
    (id, .calling) ∈ a.functions ∧
    a' = a.settle id result := by
  unfold Attempt.returned at h
  split at h
  · next hfate =>
      cases h
      exact ⟨mem_of_fate? hfate, rfl⟩
  · cases h

theorem recorded_cases {json : Json} (h : a.recorded id = some (json, a')) :
    (id, .recording json) ∈ a.functions ∧
    a' = (a.setFate id .recorded).arrive id (.value (some json)) := by
  unfold Attempt.recorded at h
  split at h
  · next hfate =>
      cases h
      exact ⟨mem_of_fate? hfate, rfl⟩
  · cases h

theorem Sound.returned {result : Except String Json} (h : Sound a)
    (hr : a.returned id result = some a') : Sound a' := by
  obtain ⟨hmem, rfl⟩ := returned_cases hr
  cases result with
  | ok json => exact h.setFate hmem rfl
  | error message =>
      refine (h.setFate hmem rfl).arrive (fun message' ht => ?_)
      cases ht
      exact mem_setFate.mpr (.inl ⟨rfl, _, hmem, rfl⟩)

theorem Sound.recorded {json : Json} (h : Sound a) (hr : a.recorded id = some (json, a')) :
    Sound a' := by
  obtain ⟨hmem, rfl⟩ := recorded_cases hr
  exact (h.setFate hmem rfl).arrive nofun

end Sound

end Attempt

end Parallel

/-- One run without a crash: its store, the engine's execution under way, and all calls of
`executeAttempt`, the last one first, which the execution may be waiting for. -/
structure Parallel where
  store : Store
  engine : Option (M Unit)
  awaiting : Bool
  attempts : List Parallel.Attempt

namespace Parallel

inductive Label
  | start (workflow : String)
  | engine (rand : Int)
  | tell (n j : Nat)
  | returned (n : Nat) (id : StepId) (result : Except String Json)
  | record (n : Nat) (id : StepId)
  | other (op : StoreOp)

def init (s : Store) : Parallel := ⟨s, none, false, []⟩

/-- The calls that only the run's own execution makes. -/
def owned (r : RunId) : Call → Bool
  | .recordStep k _ kind _ => k = r && kind = .run
  | .stepFailedAttempt k _ _ | .runCompleted k _ | .runFailed k _ | .runSleeping k
    _ | .runWaitingEvent k _ _ _ _
  | .runWaitingChild k _ => k = r
  | _ => false

def permitted (r : RunId) : StoreOp → Bool
  | .call c _ => !owned r c
  | _ => true

variable (E : WorkflowEngine) (codes : Nat → Code) (r : RunId)

/-- The next call of the engine. No call of the store fails. -/
def engineStep (σ : Parallel) (now : Time) (rand : Int) : Option Parallel :=
  match σ.engine with
  | none => none
  | some (.ret _) | some (.throw _) => some { σ with engine := none }
  | some (.call (.store c) k) =>
    some { σ with
      store := (c.perform σ.store now []).1, engine := some (k (.ok (c.perform σ.store now []).2)) }
  | some (.call .nowMs k) => some { σ with engine := some (k (.ok now)) }
  | some (.call (.fastrand _) k) => some { σ with engine := some (k (.ok rand)) }
  | some (.call (.executor req) k) =>
    if σ.awaiting then
      (σ.attempts.head?.bind Attempt.outcome).map
        (fun o => { σ with engine := some (k (.ok o)), awaiting := false })
    else
      some { σ with
        attempts :=
          .start (codes σ.attempts.length) now req.input req.journal :: σ.attempts,
            awaiting := true }

/-- The executions of run `r` come one after the other; its attempts go on beside them, and
everything else happens to the store as long as the run is there. -/
def step (σ : Parallel) : Time × Label → Option Parallel
  | (_, .start workflow) =>
    if σ.engine.isNone then some { σ with engine := some (E.execute workflow (.execution r)) }
      else none
  | (now, .engine rand) => engineStep codes σ now rand
  | (now, .tell n j) => (σ.attempts[n]?.bind (fun a => a.tell now j)).map
      (fun a => { σ with attempts := σ.attempts.set n a })
  | (_, .returned n id result) => (σ.attempts[n]?.bind (fun a => a.returned id result)).map
      (fun a => { σ with attempts := σ.attempts.set n a })
  | (now, .record n id) => (σ.attempts[n]?.bind (fun a => a.recorded id)).map
      (fun (json, a) => { σ with
        store := σ.store.recordStep r id .run (some json) now
        attempts := σ.attempts.set n a })
  | (now, .other op) =>
    if permitted r op && ((op.perform σ.store now).runs.get? r).isSome then
      some { σ with store := op.perform σ.store now }
    else none

namespace StepAll

def isValue : Told → Bool
  | .value _ => true
  | .rejected _ | .signal _ => false

/-- `Promise.all` over the steps `ids`: it throws what the first of them has been rejected with, and
gives their results in order when it has all. -/
def ending (ids : List StepId) (history : List Event) : Option (Ending history) :=
  match h : history.find? (fun e => !isValue e.told) with
  | some ⟨id, .signal s⟩ => some (.rethrows id s (List.mem_of_find?_eq_some h))
  | some ⟨_, .rejected (.str message)⟩ => some (.throws message)
  | some _ => none
  | none =>
    let result (id : StepId) : Json := match history.find? (fun e => e.id = id) with
      | some ⟨_, .value (some v)⟩ => v
      | _ => .null
    if history.length = ids.length then some (.returns (some (.arr (ids.map result)))) else none

end StepAll

/-- The workflow `({ step }) => step.all(ids.map((id) => () => step.run(id, ...)))`. -/
def stepAll (ids : List StepId) : Code := fun _ history =>
  { calls := if history.isEmpty then ids.map .run else [], ending := StepAll.ending ids history }

end Parallel

end ZenZip
