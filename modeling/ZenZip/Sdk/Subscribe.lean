import ZenZip.Runtime.Terminal
import ZenZip.Crypto.Calls
import Mathlib.Data.List.Chain

namespace ZenZip

open Lib

/-- `RUN_STATUS_NAMES`. -/
def RunStatus.name : RunStatus → String
  | .runnable => "running"
  | .sleeping => "sleeping"
  | .waitEvent => "waitingEvent"
  | .waitChild => "waitingChild"
  | .completed => "completed"
  | .failed => "failed"
  | .cancelled => "cancelled"

structure StepUpdate where
  stepId : StepId
  kind : StepKind
  completed : Bool
  attempts : Nat
  error : Option String
  deriving DecidableEq

structure RunUpdate where
  runId : RunId
  workflow : String
  status : RunStatus
  terminal : Bool
  output : Option Json
  error : Option String
  steps : List StepUpdate

/-- What two updates are compared by. -/
def RunUpdate.sig (u : RunUpdate) : RunStatus × List StepUpdate := (u.status, u.steps)

def StepRow.update (s : StepRow) : StepUpdate :=
  ⟨s.stepId, s.kind, s.completed, s.attempts, s.error⟩

/-- Where `subscribe` stands: before it reads the run, between the two reads, at a `yield`, or at
its end. -/
inductive Subscription.Phase
  | polling
  | loaded (row : RunRow)
  | yielded (u : RunUpdate)
  | returned
  | threw (message : String)

structure Subscription where
  runId : RunId
  deadline : Option Time
  last : Option (RunStatus × List StepUpdate)
  first : Bool
  phase : Subscription.Phase
  updates : List RunUpdate

namespace Subscription

def start (runId : RunId) (deadline : Option Time) : Subscription :=
  ⟨runId, deadline, none, true, .polling, []⟩

/-- `getRun`. A run that is gone later has been collected. -/
def readRun (store : Store) (s : Subscription) : Subscription :=
  match store.runs.get? s.runId with
  | none => { s with phase := if s.first then .threw s!"run {s.runId} not found" else .returned }
  | some row => { s with first := false, phase := .loaded row }

def update (row : RunRow) (steps : List StepRow) : RunUpdate where
  runId := row.id
  workflow := row.workflow
  status := row.status
  terminal := row.status.terminal
  output := row.output
  error := row.error
  steps := steps.map StepRow.update

/-- What follows an update: the end, or after a while the next poll. -/
def proceed (now : Time) (u : RunUpdate) (s : Subscription) : Subscription :=
  if u.terminal then { s with phase := .returned }
  else if s.deadline.any (· ≤ now) then
    { s with phase := .threw s!"subscribe({s.runId}) timed out (status {u.status.name})" }
  else { s with phase := .polling }

/-- `dashboardRunSteps`, and the update if there is something new. -/
def readSteps (store : Store) (now : Time) (row : RunRow) (s : Subscription) : Subscription :=
  let u := update row (store.stepsForRun s.runId)
  if s.last = some u.sig then s.proceed now u
  else { s with last := some u.sig, phase := .yielded u, updates := s.updates ++ [u] }

end Subscription

structure Watched where
  sys : Sys
  sub : Subscription

namespace Watched

inductive Label
  | sys (l : ZenZip.Label)
  | readRun
  | readSteps
  | resume

variable (E : WorkflowEngine)

def step (w : Watched) : Label → Option Watched
  | .sys l => (Sys.step E w.sys l).map (fun σ => { w with sys := σ })
  | .readRun => match w.sub.phase with
    | .polling => some { w with sub := w.sub.readRun w.sys.store }
    | _ => none
  | .readSteps => match w.sub.phase with
    | .loaded row => some { w with sub := w.sub.readSteps w.sys.store w.sys.clock row }
    | _ => none
  | .resume => match w.sub.phase with
    | .yielded u => some { w with sub := w.sub.proceed w.sys.clock u }
    | _ => none

def keepsEnded (w : Watched) : Label → Bool
  | .sys l => w.sys.keepsEnded l
  | _ => true

def init (clock : Time) (runId : RunId) (deadline : Option Time) : Watched :=
  ⟨.init .empty clock, .start runId deadline⟩

def Reached (clock : Time) (runId : RunId) (deadline : Option Time) : Watched → Prop :=
  Run (step E) keepsEnded (init clock runId deadline)

end Watched

def Sys.Ended (σ : Sys) (id : RunId) (e : RunStatus × Option Json × Option String) : Prop :=
  id < σ.store.nextId ∧
    (σ.store.runs.get? id = none ∨ ∃ r, σ.store.runs.get? id = some r ∧ r.ending = e)

theorem Sys.Ended.move {E : WorkflowEngine} {σ σ' : Sys} {l : ZenZip.Label} {id : RunId}
    {e : RunStatus × Option Json × Option String}
    (h : σ.Ended id e) (hm : Move E σ l σ') (hok : σ.keepsEnded l = true) (hf : σ.store.Fresh)
    (ht : e.1.terminal = true) :
    σ'.Ended id e := by
  refine ⟨Nat.lt_of_lt_of_le h.1 hm.nextId_le, ?_⟩
  rcases h.2 with hn | ⟨r, hr, rfl⟩
  · exact .inl (hm.deleted hf h.1 hn)
  · exact hm.keeps_ending hok hr ht

def RunUpdate.ending (u : RunUpdate) : RunStatus × Option Json × Option String :=
  (u.status, u.output, u.error)

namespace Watched

/-- What a subscriber has been told. -/
structure Told (w : Watched) : Prop where
  fresh : w.sys.store.Fresh
  known : w.sub.first = false → w.sub.runId < w.sys.store.nextId
  changes : w.sub.updates.IsChain (fun a b => a.sig ≠ b.sig)
  last : w.sub.last = w.sub.updates.getLast?.map RunUpdate.sig
  terminal : ∀ u ∈ w.sub.updates, u.terminal = u.status.terminal
  ended : ∀ u ∈ w.sub.updates, u.terminal = true → w.sys.Ended w.sub.runId u.ending

def At (w : Watched) : Subscription.Phase → Prop
  | .polling | .threw _ => ∀ u ∈ w.sub.updates, u.terminal = false
  | .loaded row => w.sub.first = false ∧ (∀ u ∈ w.sub.updates, u.terminal = false) ∧
      (row.status.terminal = true → w.sys.Ended w.sub.runId row.ending)
  | .yielded u => ∃ front, w.sub.updates = front ++ [u] ∧ ∀ v ∈ front, v.terminal = false
  | .returned =>
      (∃ front u, w.sub.updates = front ++ [u] ∧ (∀ v ∈ front, v.terminal = false) ∧
        u.terminal = true) ∨
      (∀ u ∈ w.sub.updates, u.terminal = false) ∧ w.sub.runId < w.sys.store.nextId ∧
        w.sys.store.runs.get? w.sub.runId = none

variable {E : WorkflowEngine} {w w' : Watched} {clock : Time} {runId : RunId}
  {deadline : Option Time}

theorem told_init : (init clock runId deadline).Told ∧ (init clock runId deadline).At
    (init clock runId deadline).sub.phase := by
  refine ⟨⟨Store.Fresh.empty, ?_, .nil, rfl, ?_, ?_⟩, ?_⟩
  · intro h
    cases h
  · intro u hu
    cases hu
  · intro u hu
    cases hu
  · intro u hu
    cases hu

theorem Told.sys {σ' : Sys} {l : ZenZip.Label} (h : w.Told) (hat : w.At w.sub.phase)
    (hm : Sys.Move E w.sys l σ')
    (hok : w.sys.keepsEnded l = true) :
    (Told { w with sys := σ' }) ∧ At { w with sys := σ' } w.sub.phase := by
  have hended (e : RunStatus × Option Json × Option String) (ht : e.1.terminal = true)
    (he : w.sys.Ended w.sub.runId e) :
      σ'.Ended w.sub.runId e := he.move hm hok h.fresh ht
  refine ⟨⟨hm.fresh h.fresh, ?_, h.changes, h.last, h.terminal, ?_⟩, ?_⟩
  · intro hfirst
    exact Nat.lt_of_lt_of_le (h.known hfirst) hm.nextId_le
  · intro u hu ht
    refine hended _ ?_ (h.ended u hu ht)
    exact (h.terminal u hu).symm.trans ht
  · cases hphase : w.sub.phase with
    | polling | threw message =>
        rw [hphase] at hat
        exact hat
    | yielded u =>
        rw [hphase] at hat
        exact hat
    | loaded row =>
        rw [hphase] at hat
        exact ⟨hat.1, hat.2.1, fun ht => hended row.ending ht (hat.2.2 ht)⟩
    | returned =>
        rw [hphase] at hat
        rcases hat with hat | ⟨hnone, hlt, hgone⟩
        · exact .inl hat
        · exact .inr ⟨hnone, Nat.lt_of_lt_of_le hlt hm.nextId_le, hm.deleted h.fresh hlt hgone⟩

theorem Told.readRun (h : w.Told) (hat : w.At .polling) :
    Told { w with sub := w.sub.readRun w.sys.store } ∧ At
      { w with sub := w.sub.readRun w.sys.store } (w.sub.readRun w.sys.store).phase := by
  rw [Subscription.readRun]
  cases hget : w.sys.store.runs.get? w.sub.runId with
  | none =>
      refine ⟨⟨h.fresh, h.known, h.changes, h.last, h.terminal, h.ended⟩, ?_⟩
      cases hfirst : w.sub.first with
      | true => exact hat
      | false => exact .inr ⟨hat, h.known hfirst, hget⟩
  | some row =>
      have hlt := h.fresh.runs _ _ hget
      refine ⟨⟨h.fresh, fun _ => hlt, h.changes, h.last, h.terminal, h.ended⟩, rfl, hat,
        fun _ => ⟨hlt, .inr ⟨row, hget, rfl⟩⟩⟩

theorem Told.proceed_on {u : RunUpdate} (h : w.Told)
    (hall : ∀ v ∈ w.sub.updates, v.terminal = false) (hu : u.terminal = false) :
    Told { w with sub := w.sub.proceed w.sys.clock u } ∧
      At { w with sub := w.sub.proceed w.sys.clock u } (w.sub.proceed w.sys.clock u).phase := by
  rw [Subscription.proceed, if_neg (by simp [hu])]
  split
  · exact ⟨⟨h.fresh, h.known, h.changes, h.last, h.terminal, h.ended⟩, hall⟩
  · exact ⟨⟨h.fresh, h.known, h.changes, h.last, h.terminal, h.ended⟩, hall⟩

theorem Told.resume {u : RunUpdate} (h : w.Told) (hat : w.At (.yielded u)) :
    Told { w with sub := w.sub.proceed w.sys.clock u } ∧
      At { w with sub := w.sub.proceed w.sys.clock u } (w.sub.proceed w.sys.clock u).phase := by
  obtain ⟨front, hlast, hfront⟩ := hat
  cases hu : u.terminal with
  | true =>
      rw [Subscription.proceed, if_pos hu]
      exact ⟨⟨h.fresh, h.known, h.changes, h.last, h.terminal, h.ended⟩,
        .inl ⟨front, u, hlast, hfront, hu⟩⟩
  | false =>
      refine h.proceed_on ?_ hu
      intro v hv
      rw [hlast] at hv
      rcases List.mem_append.mp hv with hv | hv
      · exact hfront v hv
      · rw [List.mem_singleton.mp hv]
        exact hu

theorem Told.readSteps {row : RunRow} (h : w.Told) (hat : w.At (.loaded row)) :
    Told { w with sub := w.sub.readSteps w.sys.store w.sys.clock row } ∧
      At { w with sub := w.sub.readSteps w.sys.store w.sys.clock row }
        (w.sub.readSteps w.sys.store w.sys.clock row).phase := by
  obtain ⟨hfirst, hnone, hrow⟩ := hat
  rw [Subscription.readSteps]
  split
  · next hsame =>
      -- nothing is new, and the last update was not terminal
      rw [h.last] at hsame
      obtain ⟨v, hv, hsig⟩ := Option.map_eq_some_iff.mp hsame
      have hmem := List.mem_of_getLast? hv
      refine h.proceed_on hnone ?_
      have hstatus : v.status = row.status := congrArg Prod.fst hsig
      have hterminal := h.terminal v hmem
      rw [hnone v hmem, hstatus] at hterminal
      exact hterminal.symm
  · next hnew =>
      refine ⟨⟨h.fresh, h.known, ?_, ?_, ?_, ?_⟩, w.sub.updates, rfl, hnone⟩
      · rw [List.isChain_append]
        refine ⟨h.changes, .singleton _, ?_⟩
        intro v hv u hu
        cases hu
        intro hsig
        apply hnew
        rw [h.last, hv, Option.map_some, hsig]
      · rw [List.getLast?_concat]
        rfl
      · intro u hu
        rcases List.mem_append.mp hu with hu | hu
        · exact h.terminal u hu
        · rw [List.mem_singleton.mp hu]
          rfl
      · intro u hu ht
        rcases List.mem_append.mp hu with hu | hu
        · exact h.ended u hu ht
        · rw [List.mem_singleton.mp hu] at ht ⊢
          exact hrow ht

theorem Told.step {l : Label} (h : w.Told) (hat : w.At w.sub.phase) (hok : w.keepsEnded l = true)
    (hs : Watched.step E w l = some w') :
    w'.Told ∧ w'.At w'.sub.phase := by
  cases l with
  | sys l =>
      obtain ⟨σ', hstep, rfl⟩ := Option.map_eq_some_iff.mp hs
      exact h.sys hat (Sys.step_move hstep) hok
  | readRun =>
      simp only [Watched.step] at hs
      split at hs
      · next hphase =>
          cases hs
          rw [hphase] at hat
          exact h.readRun hat
      · cases hs
  | readSteps =>
      simp only [Watched.step] at hs
      split at hs
      · next row hphase =>
          cases hs
          rw [hphase] at hat
          exact h.readSteps hat
      · cases hs
  | resume =>
      simp only [Watched.step] at hs
      split at hs
      · next u hphase =>
          cases hs
          rw [hphase] at hat
          exact h.resume hat
      · cases hs

theorem Reached.told (h : Reached E clock runId deadline w) : w.Told ∧ w.At w.sub.phase :=
  h.invariant (fun w => w.Told ∧ w.At w.sub.phase) told_init fun _ _ _ _ hI hok hs =>
    hI.1.step hI.2 hok hs

/-- What `subscribe` yields, whatever happens meanwhile: updates that differ from the one before in
their status or steps, of which at most the last one is terminal; that one says how the run has
ended, for good. It returns behind a terminal update only, or where the run has been deleted. -/
theorem subscribe_faithful (h : Reached E clock runId deadline w) :
    w.sub.updates.IsChain (fun a b => a.sig ≠ b.sig) ∧
    (∀ u ∈ w.sub.updates.dropLast, u.terminal = false) ∧
    (∀ u ∈ w.sub.updates, u.terminal = true → ∀ r, w.sys.store.runs.get? w.sub.runId = some r →
      (r.status, r.output, r.error) = (u.status, u.output, u.error)) ∧
    (w.sub.phase = .returned → (∃ u, w.sub.updates.getLast? = some u ∧ u.terminal = true) ∨
      w.sys.store.runs.get? w.sub.runId = none) := by
  obtain ⟨htold, hat⟩ := h.told
  refine ⟨htold.changes, ?_, ?_, ?_⟩
  · cases hphase : w.sub.phase with
    | polling | threw message =>
        rw [hphase] at hat
        exact fun u hu => hat u (List.dropLast_subset _ hu)
    | loaded row =>
        rw [hphase] at hat
        exact fun u hu => hat.2.1 u (List.dropLast_subset _ hu)
    | yielded u =>
        rw [hphase] at hat
        obtain ⟨front, hlast, hfront⟩ := hat
        rw [hlast, List.dropLast_concat]
        exact hfront
    | returned =>
        rw [hphase] at hat
        rcases hat with ⟨front, u, hlast, hfront, _⟩ | ⟨hnone, _⟩
        · rw [hlast, List.dropLast_concat]
          exact hfront
        · exact fun u hu => hnone u (List.dropLast_subset _ hu)
  · intro u hu ht r hr
    rcases (htold.ended u hu ht).2 with hgone | ⟨r', hr', he⟩
    · rw [hgone] at hr
      cases hr
    · rw [hr'] at hr
      cases hr
      exact he
  · intro hphase
    rw [hphase] at hat
    rcases hat with ⟨front, u, hlast, _, hu⟩ | ⟨_, _, hgone⟩
    · left
      exact ⟨u, by rw [hlast, List.getLast?_concat], hu⟩
    · exact .inr hgone

section Sample

/-- A poll of the run: both reads, and on behind the update. -/
def poll : List Label := [.readRun, .readSteps, .resume]

/-- The subscriber polls while the run is open and sees it end; between its two reads the run is
looked at once more. -/
theorem subscribe_faithful_completed :
    ∃ w, Reached Sys.sampleEngine 0 0 none w ∧ w.sub.updates.length = 2 ∧
    (∀ u ∈ w.sub.updates.dropLast, u.terminal = false) := by
  obtain ⟨w, h, hp⟩ := Run.exists_of_replay (step Sys.sampleEngine) keepsEnded (init 0 0 none)
    ((Sys.startOrder 0).map .sys ++ poll ++
      (Sys.attemptUpTo 1 (.completed (some (.int 1)))).map .sys ++
      [.readRun, .sys (Sys.callOk 1), .readSteps] ++ poll)
    (fun w => decide (w.sub.updates.length = 2)) (by decide +kernel)
  exact ⟨w, h, of_decide_eq_true hp, (subscribe_faithful h).2.1⟩

end Sample

end Watched

end ZenZip
