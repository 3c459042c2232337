import ZenZip.Engine.Track

namespace ZenZip

open Lib

/-- What the calls of an emit or a sweep so far have done: the waiters it has
released, those whose job it has still to push, and whether the first of these
has its step. -/
structure Release where
  kind : Kind
  waiters : List Waiter
  todo : List Waiter
  noted : Bool

/-- `{"timedOut":true}`, and the envelope of an event. -/
def timeoutResult : Json := .obj [("timedOut", .bool true)]

def eventResult (payload : Json) : Json := .obj [("event", payload)]

namespace Release

def fresh (k : Kind) : Release := ⟨k, [], [], false⟩

def after (g : Release) : (c : Call) → c.Ret → Release
  | .emitEvent _ _ _, outcome => { g with waiters := outcome.waiters }
  | .sweepEventTimeouts _, waiters => { g with waiters, todo := waiters }
  | .recordStep _ _ _ _, _ => { g with noted := true }
  | .push _, _ => { g with todo := g.todo.tail, noted := false }
  | _, _ => g

/-- An error leaves nobody to do what was still to come. -/
def next (g : Release) : (op : Op) → Except String (Val op) → Release
  | .store c, .ok v => g.after c v
  | .store _, .error _ => { g with todo := [] }
  | _, _ => g

def mayCall (g : Release) : Call → Prop
  | .emitEvent name payload _ => g = fresh (.task (.emit name payload))
  | .sweepEventTimeouts _ => g = fresh (.task .sweep)
  | .recordStep id stepId kind result => ∃ w ws, g.todo = w :: ws ∧ g.noted = false ∧ id = w.runId ∧
      stepId = w.stepId ∧ kind = .waitForEvent ∧ result = some timeoutResult
  | .push jobs =>
      ∃ w ws, g.todo = w :: ws ∧ g.noted = true ∧ jobs = [workflowExecutionJob w.workflow w.runId 0]
  | _ => False

def allowed (g : Release) : Op → Prop
  | .store c => g.mayCall c
  | .nowMs => True
  | .fastrand _ | .executor _ => False

end Release

def releasing : Discipline Val Release := ⟨Release.next, Release.allowed, Track.answers⟩

namespace Release

variable {g : Release} {α : Type}

theorem wp_call_bind {c : Call} {f : c.Ret → M α} {Q : Release → Except String α → Prop}
    (ha : g.mayCall c)
    (he : ∀ e, Q { g with todo := [] } (.error e))
    (hok : ∀ v : c.Ret, Track.answers (.store c) (.ok v) → releasing.wp (f v) Q (g.after c v)) :
    releasing.wp (call c >>= f) Q g := by
  rw [Discipline.wp_bind]
  show releasing.wp (@Prog.op Op Val (.store c)) _ g
  rw [Discipline.wp_op]
  refine ⟨ha, fun r hr => ?_⟩
  cases r with
  | ok v => exact hok v hr
  | error e => exact he e

theorem wp_emit (E : WorkflowEngine) (name : String) (payload : Json) :
    releasing.wp (Task.prog E (.emit name payload)) (fun g _ => g.todo = [])
      (fresh (.task (.emit name payload))) := by
  show releasing.wp (E.emitBlocking name payload >>= _) _ _
  rw [Discipline.wp_bind]
  exact wp_call_bind rfl (fun _ => rfl) (fun _ _ => rfl)

theorem wp_sweep (E : WorkflowEngine) :
    releasing.wp (Task.prog E .sweep) (fun g _ => g.todo = []) (fresh (.task .sweep)) := by
  show releasing.wp (nowMs >>= fun now => WorkflowEngine.sweep now >>= _) _ _
  rw [Discipline.wp_bind]
  show releasing.wp (@Prog.op Op Val .nowMs) _ _
  rw [Discipline.wp_op]
  refine ⟨trivial, fun r hr => ?_⟩
  cases r with
  | error e => exact absurd hr not_false
  | ok now =>
      rw [Discipline.seq_ok, Discipline.wp_bind]
      have hsweep : releasing.wp (WorkflowEngine.sweep now) (fun g _ => g.todo = [])
        (fresh (.task .sweep)) := by
        refine wp_call_bind rfl (fun _ => rfl) (fun waiters _ => ?_)
        rw [Discipline.wp_bind]
        refine Discipline.wp_forM _ (fun ws g => g.todo = ws ∧ g.noted = false) ?_ ?_ waiters
          _ ⟨rfl, rfl⟩
        · rintro w ws g ⟨htodo, hn⟩
          refine wp_call_bind ⟨w, ws, htodo, hn, rfl, rfl, rfl, rfl⟩ (fun _ => rfl) (fun _ _ => ?_)
          refine wp_call_bind ⟨w, ws, htodo, rfl, rfl⟩ (fun _ => rfl) (fun _ _ => ?_)
          refine ⟨?_, rfl⟩
          show g.todo.tail = ws
          rw [htodo]
          rfl
        · rintro g ⟨htodo, _⟩
          exact htodo
      refine Discipline.wp_mono _ hsweep (fun g r hg => ?_)
      cases r with
      | ok n => exact hg
      | error e => exact hg

end Release

namespace Task

def isEvent : Task → Bool
  | .emit _ _ | .sweep => true
  | _ => false

theorem wp_event (E : WorkflowEngine) {t : Task} (h : t.isEvent = true) :
    releasing.wp (t.prog E) (fun g _ => g.todo = []) (.fresh (.task t)) := by
  cases t with
  | emit name payload => exact Release.wp_emit E name payload
  | sweep => exact Release.wp_sweep E
  | _ => cases h

end Task

end ZenZip
