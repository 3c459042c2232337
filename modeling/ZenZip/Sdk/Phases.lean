import ZenZip.Sdk.Parallel
import ZenZip.Sdk.Replay

namespace ZenZip.Parallel

open Lib

inductive Phase
  | begun
  /-- It has seen the run runnable or asleep. -/
  | checked
  | loaded (journal : List StepEntry)
  | answered (o : ExecOutcome)
  | counted (stepId : StepId) (error : String) (attempts : Nat)
  | left

def finalError (stepId : StepId) (attempts : Nat) (error : String) : String :=
  s!"step '{stepId}' failed after {attempts} attempts: {error}"

def isStepFailed : ExecOutcome → Bool
  | .stepFailed _ _ => true
  | _ => false

def stepMaxAttempts (E : WorkflowEngine) (row : RunRow) : Nat :=
  ((E.config row.workflow).getD (.new row.workflow)).stepMaxAttempts

namespace Phase

def looked (g : Phase) (row : Option RunRow) : Phase :=
  match g with
  | .begun => if row.any (fun row => row.status.executable) then .checked else .left
  | .answered o => if row.all (fun row => row.status = .cancelled) then .left else .answered o
  | g => g

def next (r : RunId) (g : Phase) : (op : Op) → Except String (Val op) → Phase
  | .store (.getRun k), .ok row => if k = r then g.looked row else g
  | .store (.loadJournal _), .ok journal => .loaded journal
  | .executor _, .ok o => .answered o
  | .store (.stepFailedAttempt _ stepId error), .ok attempts => .counted stepId error attempts
  | .store (.runFailed _ _), .ok _ => .left
  | _, _ => g

def applying (g : Phase) : Prop := ∃ o, g = .answered o ∧ isStepFailed o = false

def mayCall (r : RunId) (max : Nat) (g : Phase) : Call → Prop
  | .loadJournal k => k = r ∧ g = .checked
  | .stepFailedAttempt k stepId error => k = r ∧ g = .answered (.stepFailed stepId error)
  | .runFailed k error => k = r ∧ (g.applying ∨
      ∃ stepId message attempts, g = .counted stepId message attempts ∧ max ≤ attempts ∧
        error = finalError stepId attempts message)
  | .runCompleted k _ | .runSleeping k _ | .runWaitingEvent k _ _ _ _ | .runWaitingChild k _ =>
      k = r ∧ g.applying
  | .recordStep _ _ kind _ => kind ≠ .run
  | .push _ | .getRun _ | .wakeParent _ | .createRun _ => True
  | _ => False

def allowed (r : RunId) (max : Nat) (g : Phase) : Op → Prop
  | .store c => g.mayCall r max c
  | .executor req => g = .loaded req.journal
  | .nowMs | .fastrand _ => True

def answers (E : WorkflowEngine) (r : RunId) (max : Nat) : (op : Op) → Except String (Val op) → Prop
  | .store (.getRun k), .ok (some row) => row.id = k ∧ (k = r → stepMaxAttempts E row = max)
  | _, .ok _ => True
  | _, .error _ => False

/-- An execution ends when a failed step is counted, and the run failed if it was one failure too
many. -/
def Closed (max : Nat) : Phase → Except String Unit → Prop
  | .answered o, _ => isStepFailed o = false
  | .counted _ _ attempts, _ => attempts < max
  | _, _ => True

end Phase

def phases (E : WorkflowEngine) (r : RunId) (max : Nat) : Discipline Val Phase :=
  ⟨Phase.next r, Phase.allowed r max, Phase.answers E r max⟩

namespace Phase

variable {E : WorkflowEngine} {r : RunId} {max : Nat} {g : Phase} {α : Type}
  {Q : Phase → Except String α → Prop}

theorem wp_call_bind {c : Call} {f : c.Ret → M α} (ha : g.mayCall r max c)
    (hok : ∀ v : c.Ret, answers E r max (.store c) (.ok v) →
    (phases E r max).wp (f v) Q (g.next r (.store c) (.ok v))) :
    (phases E r max).wp (call c >>= f) Q g := by
  refine ((phases E r max).wp_bind (call c) f Q g).mpr
    (((phases E r max).wp_op (.store c) _ g).mpr ⟨ha, fun v hv => ?_⟩)
  cases v with
  | ok v => exact hok v hv
  | error e =>
      have hn : ¬ answers E r max (.store c) (.error e) := by cases c <;> exact not_false
      exact absurd hv hn

theorem wp_enqueue {workflow : String} {id : RunId} {delayMs : Int}
    {Q : Phase → Except String Unit → Prop}
    (hQ : Q g (.ok ())) : (phases E r max).wp (WorkflowEngine.enqueue workflow id delayMs) Q g :=
  wp_call_bind trivial (fun _ _ => hQ)

theorem wp_nowMs_bind {f : Time → M α} (hok : ∀ now, (phases E r max).wp (f now) Q g) :
    (phases E r max).wp (nowMs >>= f) Q g := by
  refine ((phases E r max).wp_bind nowMs f Q g).mpr
    (((phases E r max).wp_op .nowMs _ g).mpr ⟨trivial, fun v hv => ?_⟩)
  cases v with
  | ok now => exact hok now
  | error e => exact absurd hv not_false

theorem wp_delayFor_bind {b : Backoff} {attempt : Nat} {f : Int → M α}
    (hok : ∀ n, (phases E r max).wp (f n) Q g) :
    (phases E r max).wp (b.delayFor attempt >>= f) Q g := by
  rw [Discipline.wp_bind]
  show (phases E r max).wp (@Prog.op Op Val (.fastrand _) >>= _) _ g
  rw [Discipline.wp_bind, Discipline.wp_op]
  refine ⟨trivial, fun v hv => ?_⟩
  cases v with
  | ok n => exact hok _
  | error e => exact absurd hv not_false

def calm (g : Phase) : Prop := g = .left ∨ g.applying

theorem calm.closed {res : Except String Unit} (h : g.calm) : Closed max g res := by
  rcases h with rfl | ⟨o, rfl, ho⟩
  · trivial
  · exact ho

theorem calm.looked {row : Option RunRow} (h : g.calm) : (g.looked row).calm := by
  rcases h with rfl | ⟨o, rfl, ho⟩
  · exact .inl rfl
  · rw [Phase.looked]
    split
    · exact .inl rfl
    · exact .inr ⟨o, rfl, ho⟩

theorem calm.getRun {k : RunId} {row : Option RunRow} (h : g.calm) :
    (g.next r (.store (.getRun k)) (.ok row)).calm := by
  rw [next]
  split
  · exact h.looked
  · exact h

theorem wp_settleParent {child : RunRow} {result : Except String Json} (h : g.calm) :
    (phases E r max).wp (WorkflowEngine.settleParent child result) (Closed max) g := by
  unfold WorkflowEngine.settleParent
  split
  · refine wp_call_bind (by simp [mayCall]) (fun _ _ => wp_call_bind trivial (fun woken _ => ?_))
    cases woken with
    | false => exact h.closed
    | true =>
        refine wp_call_bind trivial (fun row _ => ?_)
        cases row with
        | none => exact h.getRun.closed
        | some parent => exact wp_enqueue h.getRun.closed
  · exact h.closed

theorem wp_applyInvoke {run : RunRow} {stepId : StepId} {workflow : String} {input : Option Json}
    (hr : run.id = r)
    (h : g.applying) : (phases E r max).wp (E.applyInvoke run stepId workflow input)
      (Closed max) g := by
  unfold WorkflowEngine.applyInvoke
  split
  · exact wp_call_bind ⟨hr, .inl h⟩ (fun _ _ => wp_settleParent (.inl rfl))
  · refine wp_call_bind trivial ?_
    rintro ⟨childId, created⟩ _
    cases created with
    | true => exact wp_call_bind ⟨hr, h⟩ (fun _ _ => wp_enqueue (calm.closed (.inr h)))
    | false =>
        refine wp_call_bind trivial (fun row _ => ?_)
        have hcalm : (g.next r (.store (.getRun childId)) (.ok row)).calm := calm.getRun (.inr h)
        cases row with
        | none => exact hcalm.closed
        | some child =>
            have hjournal (result : Json) : (phases E r max).wp (do
                let _ ← call (.recordStep run.id stepId .invoke (some result))
                WorkflowEngine.enqueue run.workflow run.id 0) (Closed max)
                (g.next r (.store (.getRun childId)) (.ok (some child))) :=
              wp_call_bind (by simp [mayCall]) (fun _ _ => wp_enqueue hcalm.closed)
            have hpark (hs : child.status ≠ .cancelled) : (phases E r max).wp (do
                let _ ← call (.runWaitingChild run.id childId)) (Closed max)
                (g.next r (.store (.getRun childId)) (.ok (some child))) := by
              have hsame : g.next r (.store (.getRun childId)) (.ok (some child)) = g := by
                obtain ⟨o, rfl, _⟩ := h
                rw [next]
                split
                · rw [Phase.looked, Option.all_some, if_neg (by simpa using hs)]
                · rfl
              rw [hsame]
              exact wp_call_bind ⟨hr, h⟩ (fun _ _ => calm.closed (.inr h))
            dsimp only
            cases hs : child.status with
            | completed | failed | cancelled => exact hjournal _
            | runnable | sleeping | waitEvent | waitChild => exact hpark (by rw [hs]; nofun)

theorem wp_apply {run : RunRow} {o : ExecOutcome} (hr : run.id = r)
    (hmax : stepMaxAttempts E run = max) :
    (phases E r max).wp (E.apply run o) (Closed max) (.answered o) := by
  cases o with
  | completed output =>
      have h : (Phase.answered (.completed output)).applying := ⟨_, rfl, rfl⟩
      exact wp_call_bind ⟨hr, h⟩ (fun _ _ => wp_settleParent (.inr h))
  | failed error =>
      have h : (Phase.answered (.failed error)).applying := ⟨_, rfl, rfl⟩
      exact wp_call_bind ⟨hr, .inl h⟩ (fun _ _ => wp_settleParent (.inl rfl))
  | sleep stepId wakeAt =>
      have h : (Phase.answered (.sleep stepId wakeAt)).applying := ⟨_, rfl, rfl⟩
      refine wp_call_bind (by simp [mayCall]) (fun _ _ => wp_call_bind ⟨hr, h⟩ (fun _ _ => ?_))
      exact wp_nowMs_bind (fun now => wp_enqueue rfl)
  | event stepId event timeoutAt matchJson =>
      have h : (Phase.answered (.event stepId event timeoutAt matchJson)).applying := ⟨_, rfl, rfl⟩
      exact wp_call_bind ⟨hr, h⟩ (fun _ _ => rfl)
  | invoke stepId workflow input => exact wp_applyInvoke hr ⟨_, rfl, rfl⟩
  | stepFailed stepId error =>
      refine wp_call_bind ⟨hr, rfl⟩ (fun attempts _ => ?_)
      rw [stepMaxAttempts] at hmax
      dsimp only
      rw [hmax]
      split
      · next hlt => exact wp_delayFor_bind (fun delay => wp_enqueue hlt)
      · next hle =>
          exact wp_call_bind ⟨hr, .inr ⟨stepId, error, attempts, rfl, Nat.le_of_not_lt hle, rfl⟩⟩
            (fun _ _ => wp_settleParent (.inl rfl))

theorem wp_execute (workflow : String) : (phases E r max).wp (E.execute workflow (.execution r))
    (Closed max) .begun := by
  refine wp_call_bind trivial (fun row hrow => ?_)
  have hlook (row : Option RunRow) (g : Phase) : g.next r (.store (.getRun r)) (.ok row) =
    g.looked row := if_pos rfl
  rw [hlook]
  cases row with
  | none => trivial
  | some run =>
      obtain ⟨hid, hmax⟩ : run.id = r ∧ (r = r → stepMaxAttempts E run = max) := hrow
      dsimp only
      split
      · next hs =>
          have hover : Phase.begun.looked (some run) = .left := by
            rw [Phase.looked, Option.any_some, if_neg]
            cases hst : run.status <;> simp_all [RunStatus.executable]
          rw [hover]
          trivial
      · next hs =>
          have hchecked : Phase.begun.looked (some run) = .checked := by
            rw [Phase.looked, Option.any_some, if_pos]
            cases hst : run.status <;> simp_all [RunStatus.executable]
          rw [hchecked]
          refine wp_call_bind ⟨rfl, rfl⟩ (fun journal _ => ?_)
          rw [Discipline.wp_bind, Discipline.wp_op]
          refine ⟨rfl, fun o ho => ?_⟩
          cases o with
          | error e => exact absurd ho not_false
          | ok o =>
              refine wp_call_bind trivial (fun row' _ => ?_)
              rw [hlook]
              cases row' with
              | none => trivial
              | some current =>
                  show (phases E r max).wp _ _ ((Phase.answered o).looked (some current))
                  rw [Phase.looked, Option.all_some]
                  dsimp only
                  split
                  · next hc =>
                      rw [if_pos (decide_eq_true hc)]
                      trivial
                  · next hc =>
                      rw [if_neg (by simpa using hc)]
                      exact wp_apply hid (hmax rfl)

end Phase

section Moves

variable (E : WorkflowEngine) (codes : Nat → Code) (r : RunId) (max : Nat)

/-- The execution under way is in a phase, and the attempt that it waits for runs in the phase that
has loaded its journal. -/
def Follows (σ : Parallel) : Option Phase → Prop
  | none => σ.engine = none ∧ σ.awaiting = false
  | some g => ∃ p, σ.engine = some p ∧ (phases E r max).wp p (Phase.Closed max) g ∧
      (σ.awaiting = true → ∃ req k, p = .call (.executor req) k)

def Row (s : Store) : Prop := ∃ row, s.runs.get? r = some row ∧ stepMaxAttempts E row = max

inductive Move (σ : Parallel) : Option Phase → Time × Label → Parallel → Option Phase → Prop
  | begun (l e) (hawait : σ.awaiting = false) : Move σ none l { σ with engine := e } (some .begun)
  | finished (l g res) (hawait : σ.awaiting = false) (hg : g.Closed max res) : Move σ (some g) l
    { σ with engine := none } none
  | called (now rand g c k) (hawait : σ.awaiting = false)
    (he : σ.engine = some (.call (.store c) k)) (hc : g.mayCall r max c) :
      Move σ (some g) (now, .engine rand)
        { σ with
          store := (c.perform σ.store now []).1,
          engine := some (k (.ok (c.perform σ.store now []).2)) }
        (some (g.next r (.store c) (.ok (c.perform σ.store now []).2)))
  | read (l g e) (hawait : σ.awaiting = false) : Move σ (some g) l { σ with engine := e } (some g)
  | opened (l journal code now input e) (hawait : σ.awaiting = false) :
      Move σ (some (.loaded journal)) l
        { σ with
          engine := e, attempts := .start code now input journal :: σ.attempts, awaiting := true }
        (some (.loaded journal))
  | answered (l journal a as o e) (hawait : σ.awaiting = true) (ha : σ.attempts = a :: as)
    (ho : a.outcome = some o) :
      Move σ (some (.loaded journal)) l { σ with engine := e, awaiting := false }
        (some (.answered o))
  | told (g now n j a a') (ha : σ.attempts[n]? = some a) (h : a.tell now j = some a') :
      Move σ g (now, .tell n j) { σ with attempts := σ.attempts.set n a' } g
  | returned (g now n id result a a') (ha : σ.attempts[n]? = some a)
    (h : a.returned id result = some a') :
      Move σ g (now, .returned n id result) { σ with attempts := σ.attempts.set n a' } g
  | recorded (g now n id json a a') (ha : σ.attempts[n]? = some a)
    (h : a.recorded id = some (json, a')) :
      Move σ g (now, .record n id)
        { σ with
          store := σ.store.recordStep r id .run (some json) now, attempts := σ.attempts.set n a' } g
  | other (g now op) (hp : permitted r op = true)
    (hr : ((op.perform σ.store now).runs.get? r).isSome) :
      Move σ g (now, .other op) { σ with store := op.perform σ.store now } g

variable {E codes r max} {σ σ' : Parallel} {g g' : Option Phase} {l : Time × Label}

theorem engineStep_move {now : Time} {rand : Int} (hf : Follows E r max σ g)
    (hrow : Row E r max σ.store)
    (h : engineStep codes σ now rand = some σ') :
    ∃ g', Move r max σ g (now, .engine rand) σ' g' ∧ Follows E r max σ' g' := by
  cases g with
  | none =>
      rw [engineStep, hf.1] at h
      cases h
  | some g =>
      obtain ⟨p, hp, hwp, hexec⟩ := hf
      have hawait {p'} (hp' : p = p') (hne : ∀ req k, p' ≠ .call (.executor req) k) : σ.awaiting =
        false := by
        cases ha : σ.awaiting with
        | false => rfl
        | true =>
            obtain ⟨req, k, hcall⟩ := hexec ha
            exact absurd (hp'.symm.trans hcall) (hne req k)
      rw [engineStep, hp] at h
      cases p with
      | ret u | throw e =>
          cases h
          have ha := hawait rfl nofun
          exact ⟨none, .finished _ g _ ha hwp, rfl, ha⟩
      | call op k =>
          obtain ⟨hallowed, hnext⟩ := hwp
          cases op with
          | nowMs =>
              cases h
              have ha := hawait rfl nofun
              refine ⟨some g, .read _ g _ ha, _, rfl, hnext (.ok now) trivial, fun ht => ?_⟩
              rw [ha] at ht
              cases ht
          | fastrand hi =>
              cases h
              have ha := hawait rfl nofun
              refine ⟨some g, .read _ g _ ha, _, rfl, hnext (.ok rand) trivial, fun ht => ?_⟩
              rw [ha] at ht
              cases ht
          | store c =>
              cases h
              have ha := hawait rfl nofun
              have hans : Phase.answers E r max (.store c) (.ok (c.perform σ.store now []).2) := by
                cases c with
                | getRun id =>
                    show Phase.answers E r max (.store (.getRun id)) (.ok (σ.store.runs.get? id))
                    cases hrun : σ.store.runs.get? id with
                    | none => trivial
                    | some row =>
                        refine ⟨Table.key_of_get? hrun, ?_⟩
                        rintro rfl
                        obtain ⟨row', hrow', hmax⟩ := hrow
                        obtain rfl : row' = row := Option.some.inj (hrow'.symm.trans hrun)
                        exact hmax
                | _ => trivial
              refine ⟨_, .called now rand g c k ha hp hallowed, _, rfl, hnext _ hans, fun ht => ?_⟩
              dsimp only at ht
              rw [ha] at ht
              cases ht
          | executor req =>
              obtain rfl : g = .loaded req.journal := hallowed
              dsimp only at h
              split at h
              · next ha =>
                  obtain ⟨o, ho, rfl⟩ := Option.map_eq_some_iff.mp h
                  obtain ⟨a, hhead, ho⟩ := Option.bind_eq_some_iff.mp ho
                  obtain ⟨as, has⟩ := List.head?_eq_some_iff.mp hhead
                  refine ⟨_, .answered _ _ a as o _ ha has ho, _, rfl, hnext (.ok o) trivial,
                    fun ht => ?_⟩
                  cases ht
              · next ha =>
                  cases h
                  rw [Bool.not_eq_true] at ha
                  exact ⟨some (.loaded req.journal), .opened _ _ _ _ _ _ ha, _, rfl, ⟨rfl, hnext⟩,
                    fun _ => ⟨req, k, rfl⟩⟩

theorem step_move (hf : Follows E r max σ g) (hrow : Row E r max σ.store)
    (h : step E codes r σ l = some σ') :
    ∃ g', Move r max σ g l σ' g' ∧ Follows E r max σ' g' := by
  obtain ⟨now, l⟩ := l
  have hsame {σ₁ : Parallel} (he : σ₁.engine = σ.engine) (ha : σ₁.awaiting = σ.awaiting) : Follows E
    r max σ₁ g := by
    cases g with
    | none => exact ⟨he.trans hf.1, ha.trans hf.2⟩
    | some g =>
        obtain ⟨p, hp, hwp, hexec⟩ := hf
        exact ⟨p, he.trans hp, hwp, fun ht => hexec (ha ▸ ht)⟩
  cases l with
  | start workflow =>
      rw [step] at h
      split at h
      · next hnone =>
          cases h
          have hengine : σ.engine = none := Option.isNone_iff_eq_none.mp hnone
          cases g with
          | some g =>
              obtain ⟨p, hp, _⟩ := hf
              rw [hengine] at hp
              cases hp
          | none =>
              refine ⟨some .begun, .begun _ _ hf.2, _, rfl, Phase.wp_execute workflow, fun ht => ?_⟩
              dsimp only at ht
              rw [hf.2] at ht
              cases ht
      · cases h
  | engine rand => exact engineStep_move hf hrow h
  | tell n j =>
      obtain ⟨a', ha', rfl⟩ := Option.map_eq_some_iff.mp h
      obtain ⟨a, ha, ht⟩ := Option.bind_eq_some_iff.mp ha'
      exact ⟨g, .told g now n j a a' ha ht, hsame rfl rfl⟩
  | returned n id result =>
      obtain ⟨a', ha', rfl⟩ := Option.map_eq_some_iff.mp h
      obtain ⟨a, ha, ht⟩ := Option.bind_eq_some_iff.mp ha'
      exact ⟨g, .returned g now n id result a a' ha ht, hsame rfl rfl⟩
  | record n id =>
      obtain ⟨⟨json, a'⟩, ha', rfl⟩ := Option.map_eq_some_iff.mp h
      obtain ⟨a, ha, ht⟩ := Option.bind_eq_some_iff.mp ha'
      exact ⟨g, .recorded g now n id json a a' ha ht, hsame rfl rfl⟩
  | other op =>
      rw [step] at h
      split at h
      · next hor =>
          cases h
          rw [Bool.and_eq_true] at hor
          exact ⟨g, .other g now op hor.1 hor.2, hsame rfl rfl⟩
      · cases h

theorem Move.row (h : Move r max σ g l σ' g') (hrow : Row E r max σ.store) :
    Row E r max σ'.store := by
  obtain ⟨row, hget, hmax⟩ := hrow
  have hcall {c : Call} {now : Time} {locked : List RunId}
      (hs : ((c.perform σ.store now locked).1.runs.get? r).isSome) : Row E r max
        (c.perform σ.store now locked).1 := by
    rcases Call.perform_run_cases c now locked hget with hsame | ⟨row', hch, hrow'⟩ | ⟨_, hnone⟩
    · exact ⟨row, hsame, hmax⟩
    · refine ⟨row', hrow', ?_⟩
      rw [stepMaxAttempts, hch.workflow_eq]
      exact hmax
    · rw [hnone] at hs
      cases hs
  cases h with
  | called now rand g c k ha he hc =>
      apply hcall
      have hkeeps : c.deletesRuns = false := by
        cases c with
        | gc | purgeSubject => exact hc.elim
        | _ => rfl
      rcases Call.perform_run_cases c now [] hget with hsame | ⟨row', _, hrow'⟩ | ⟨hd, _⟩
      · rw [hsame]
        rfl
      · rw [hrow']
        rfl
      · rw [hkeeps] at hd
        cases hd
  | other g now op hp hr =>
      cases op with
      | call c locked => exact hcall hr
      | claim | renewLeases => exact ⟨row, hget, hmax⟩
  | begun | finished | read | opened | answered | told | returned | recorded =>
      exact ⟨row, hget, hmax⟩

end Moves

end ZenZip.Parallel
