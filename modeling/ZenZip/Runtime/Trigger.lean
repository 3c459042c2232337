import ZenZip.Runtime.Coverage

namespace ZenZip

open Lib

namespace Worker

def returned (t : Worker) : Option Reply :=
  match t.prog with
  | .ret a => some a
  | _ => none

theorem returned_iff {t : Worker} {a : Reply} : t.returned = some a ↔ t.prog = .ret a := by
  unfold returned
  split
  · next b hb => simp [hb]
  · next hp =>
      constructor
      · intro h
        cases h
      · intro h
        exact absurd h (hp a)

end Worker

namespace Sys

variable {E : WorkflowEngine} {σ σ' : Sys} {l : Label}

/-- No two calls meet at a run that has no job yet: a trigger that finds the run
of its key finds it done, suspended or with nobody about to push its job. -/
def findsSettled (σ : Sys) : Label → Bool
  | .call i (.ok _) => match σ.pendingCall i with
    | some (.createRun run) => (σ.store.runOfKey run.workflow run.idempotencyKey).all (fun id =>
        (σ.store.runs.get? id).all (fun row => !row.status.executable) ||
          (List.range σ.pool.length).all (fun k => !σ.debtor id k))
    | _ => true
  | _ => true

def triggersWell (σ : Sys) (l : Label) : Bool := σ.strandsNone l && σ.findsSettled l

/-- Terminal, suspended, or with a job that will be claimed. -/
def Settled (σ : Sys) (id : RunId) : Prop :=
  (∃ row, σ.store.runs.get? id = some row ∧
    (row.status.terminal = true ∨ row.status.parked = true)) ∨
    ∃ j ∈ σ.store.jobs.rows, j.payload = .execution id ∧ (j.status = .pending ∨ j.status = .running)

inductive TriggerAt (E : WorkflowEngine) (workflow : String) (input : Json) (key : Option String)
    (delayMs : Int)
    (subject : Option String) : M Reply → Prop
  | create : TriggerAt E workflow input key delayMs subject
      ((Task.trigger workflow input key delayMs subject).prog E)
  | push (id : RunId) : TriggerAt E workflow input key delayMs subject (do
      let id ← (do
        WorkflowEngine.enqueue workflow id delayMs
        return id)
      return .run id)
  | returned (id : RunId) : TriggerAt E workflow input key delayMs subject (.ret (.run id))
  | failed (e : String) : TriggerAt E workflow input key delayMs subject (.throw e)

variable {workflow : String} {input : Json} {key : Option String} {delayMs : Int}
  {subject : Option String}

theorem TriggerAt.answer {op : Op} {k : Except String (Val op) → M Reply}
    (h : TriggerAt E workflow input key delayMs subject (.call op k)) (r : Except String (Val op)) :
    TriggerAt E workflow input key delayMs subject (k r) := by
  generalize hp : (Prog.call op k : M Reply) = p at h
  cases h with
  | create =>
      cases hp
      cases r with
      | ok v =>
          obtain ⟨id, created⟩ := v
          cases created with
          | true => exact .push id
          | false => exact .returned id
      | error e => exact .failed e
  | push id =>
      cases hp
      cases r with
      | ok v => exact .returned id
      | error e => exact .failed e
  | returned | failed => cases hp

theorem triggerAt_of_run {ok : Sys → Label → Bool} {clock : Time}
    (h : Run (step E) ok (init .empty clock) σ)
    {i : Nat} {t : Worker} (ht : σ.pool[i]? = some t)
    (hk : t.kind = .task (.trigger workflow input key delayMs subject)) :
    TriggerAt E workflow input key delayMs subject t.prog := by
  refine h.invariant (fun σ => ∀ (i : Nat) (t : Worker), σ.pool[i]? = some t →
    t.kind = .task (.trigger workflow input key delayMs subject) →
    TriggerAt E workflow input key delayMs subject t.prog) ?_ ?_ i t ht hk
  · intro i t ht
    cases ht
  · intro τ l τ' _ hI _ hs i t ht hk
    cases (step_move hs).thread ht with
    | stays _ ht => exact hI i t ht hk
    | spawned task _ he =>
        subst he
        cases hk
        exact .create
    | claimed _ _ _ _ _ _ _ he =>
        subst he
        cases hk
    | crashed _ _ _ he =>
        subst he
        exact .failed _
    | stored t₀ c k locked ht₀ hp he =>
        subst he
        have := hI i t₀ ht₀ hk
        rw [hp] at this
        exact this.answer _
    | answered t₀ op k ch r ht₀ hp _ he =>
        subst he
        have := hI i t₀ ht₀ hk
        rw [hp] at this
        exact this.answer _

theorem TriggerAt.returns {op : Op} {k : Except String (Val op) → M Reply}
    {r : Except String (Val op)} {id : RunId}
    (h : TriggerAt E workflow input key delayMs subject (.call op k)) (hr : k r = .ret (.run id)) :
    (∃ run, ∃ he : op = .store (.createRun run), he ▸ r = .ok (id, false)) ∨
      ∃ he : op = .store (.push [workflowExecutionJob workflow id delayMs]), ∃ v,
      he ▸ r = .ok v := by
  generalize hp : (Prog.call op k : M Reply) = p at h
  cases h with
  | create =>
      cases hp
      cases r with
      | ok v =>
          obtain ⟨id', created⟩ := v
          cases created with
          | true => cases hr
          | false =>
              cases hr
              exact .inl ⟨_, rfl, rfl⟩
      | error e => cases hr
  | push id' =>
      cases hp
      cases r with
      | ok v =>
          cases hr
          exact .inr ⟨rfl, v, rfl⟩
      | error e => cases hr
  | returned | failed => cases hp

theorem strandsNone_of_triggersWell (σ : Sys) (l : Label) (h : σ.triggersWell l = true) :
    σ.strandsNone l = true := (Bool.and_eq_true_iff.mp h).1

theorem found_settled {clock : Time} {i : Nat} {locked : List RunId} {id : RunId} {run : NewRun}
    {t : Worker}
    {k : Except String (Call.createRun run).Ret → M Reply}
    (h : Run (step E) triggersWell (init .empty clock) σ)
    (hok : σ.triggersWell (.call i (.ok locked)) = true)
    (hs : step E σ (.call i (.ok locked)) = some σ') (ht : σ.pool[i]? = some t)
    (hp : t.prog = .call (.store (.createRun run)) k)
    (hv : ((Call.createRun run).perform σ.store σ.clock locked).2 = (id, false))
    (hdone : k (.ok (id, false)) = .ret (.run id)) : σ'.Settled id := by
  have hcov := covered_of_run strandsNone_of_triggersWell (h.snoc hok hs)
  have hσ := (step_move hs).eq_stored ht hp
  have hv' : (σ.store.createRun run σ.clock).2 = (id, false) := hv
  obtain ⟨id', hkey, he⟩ | ⟨_, he⟩ := σ.store.createRun_cases run σ.clock
  · rw [he] at hv'
    cases hv'
    obtain ⟨row, hrow, _⟩ := Store.runOfKey_eq_some hkey
    have hrow' : σ'.store.runs.get? id = some row := by
      rw [hσ]
      show (σ.store.createRun run σ.clock).1.runs.get? id = some row
      rw [he]
      exact hrow
    obtain hexec | hpark | hterm := row.status.cases_executable_parked_terminal
    · obtain ⟨j, hj, hc⟩ | ⟨m, hm⟩ := hcov id row hrow' hexec
      · obtain ⟨hpay, hdead, _⟩ := covers_iff.mp hc
        refine .inr ⟨j, hj, hpay, ?_⟩
        cases hst : j.status with
        | pending => exact .inl rfl
        | running => exact .inr rfl
        | dead => exact absurd hst hdead
      · -- whoever owes the run its job owed it before this lookup
        have hfind := (Bool.and_eq_true_iff.mp hok).2
        simp only [findsSettled, pendingCall_eq ht hp, hkey, Option.all_some, hrow, hexec,
          Bool.not_true,
          Bool.false_or, List.all_eq_true, List.mem_range, Bool.not_eq_true'] at hfind
        obtain ⟨u, hu, hul, huo⟩ := debtor_iff.mp hm
        rw [hσ] at hu
        obtain ⟨rfl, rfl⟩ | ⟨hne, hu'⟩ := getElem?_set_cases hu (lt_of_getElem? ht)
        · rw [hv, Thread.live, Thread.answer_prog, hdone] at hul
          cases hul
        · have := hfind m (lt_of_getElem? hu')
          rw [debtor_iff.mpr ⟨u, hu', hul, huo⟩] at this
          cases this
    · exact .inl ⟨row, hrow', .inr hpark⟩
    · exact .inl ⟨row, hrow', .inl hterm⟩
  · rw [he] at hv'
    cases hv'

/-- Triggering is crash-atomic in the runs where no step strands a run: what a
trigger returns is terminal, suspended, or has a job. -/
theorem trigger_settled {clock : Time} {i : Nat} {ch : Choice} {id : RunId} {t : Worker}
    (h : Run (step E) triggersWell (init .empty clock) σ) (hok : σ.triggersWell (.call i ch) = true)
    (hs : step E σ (.call i ch) = some σ') (ht : σ'.pool[i]? = some t)
    (hk : t.kind = .task (.trigger workflow input key delayMs subject))
    (hret : t.returned = some (.run id)) :
    σ'.Settled id := by
  have hret := Worker.returned_iff.mp hret
  have hm := step_move hs
  cases hm.thread ht with
  | stays _ _ hcall => exact absurd rfl (hcall ch)
  | stored t₀ c k locked ht₀ hp he =>
      subst he
      have hat := triggerAt_of_run h ht₀ hk
      rw [hp] at hat
      obtain ⟨run, hc, hv⟩ | ⟨hc, v, hv⟩ := hat.returns hret
      · cases hc
        have hv : ((Call.createRun run).perform σ.store σ.clock locked).2 = (id, false) :=
          Except.ok.inj hv
        rw [Thread.answer_prog, hv] at hret
        exact found_settled h hok hs ht₀ hp hv hret
      · cases hc
        obtain ⟨j, hj, _, hpushed⟩ := Store.mem_push_singleton (base_of_run h).fresh.jobs
          (workflowExecutionJob workflow id delayMs) σ.clock
        refine .inr ⟨j, ?_, hpushed.payload, .inl hpushed.status⟩
        rw [hm.eq_stored ht₀ hp]
        exact hj
  | answered t₀ op k _ r ht₀ hp hres he =>
      subst he
      have hat := triggerAt_of_run h ht₀ hk
      rw [hp] at hat
      obtain ⟨run, rfl, hv⟩ | ⟨rfl, v, hv⟩ := hat.returns hret
      · cases hres
        cases hv
      · cases hres
        cases hv

section Sample

def triggerKeyed : Label := .spawn (.trigger "order" .null (some "k") 0 none)

def returnedBy (σ : Sys) (i : Nat) : Option Reply := (σ.pool[i]?).bind Worker.returned

theorem trigger_settled_keyed : ∃ σ σ', Run (step sampleEngine) triggersWell (init .empty 0) σ ∧
    step sampleEngine σ (callOk 1) = some σ' ∧ σ'.returnedBy 1 = some (.run 0) ∧ σ'.Settled 0 := by
  obtain ⟨σ, h, hp⟩ := Run.exists_of_replay (step sampleEngine) triggersWell (init .empty 0)
    [triggerKeyed, callOk 0, callOk 0, triggerKeyed]
    (fun σ => σ.triggersWell (callOk 1) && (step sampleEngine σ (callOk 1)).any (fun σ' =>
      (σ'.pool[1]?).any
        (fun t : Worker => decide (t.kind = .task (.trigger "order" .null (some "k") 0 none)) &&
        decide (t.returned = some (.run 0))))) (by decide +kernel)
  obtain ⟨hok, hstep⟩ := Bool.and_eq_true_iff.mp hp
  obtain ⟨σ', hs, hthread⟩ := (Option.any_eq_true _ _).mp hstep
  obtain ⟨t, ht, htt⟩ := (Option.any_eq_true _ _).mp hthread
  simp only [Bool.and_eq_true, decide_eq_true_eq] at htt
  have hret : σ'.returnedBy 1 = some (.run 0) := by rw [returnedBy, ht]; exact htt.2
  exact ⟨σ, σ', h, hs, hret, trigger_settled h hok hs ht htt.1 htt.2⟩

/-- A trigger that crashes between its two calls leaves its key a run that no
later trigger with the key gives a job. -/
theorem retriggered_run_has_no_job : ∃ σ,
    Run (step sampleEngine) (fun _ _ => true) (init .empty 0) σ ∧
    σ.returnedBy 1 = some (.run 0) ∧ σ.statusOf 0 = some .runnable ∧ σ.store.jobs.rows = [] ∧
    ¬ σ.Settled 0 := by
  obtain ⟨σ, h, hp⟩ := Run.exists_of_replay (step sampleEngine) (fun _ _ => true) (init .empty 0)
    [triggerKeyed, callOk 0, .crash 0, triggerKeyed, callOk 1]
    (fun σ => decide
      (σ.returnedBy 1 = some (.run 0) ∧ σ.statusOf 0 = some .runnable ∧ σ.store.jobs.rows = []))
    (by decide +kernel)
  obtain ⟨hret, hst, hjobs⟩ := of_decide_eq_true hp
  refine ⟨σ, h, hret, hst, hjobs, ?_⟩
  rintro (⟨row, hrow, hs⟩ | ⟨j, hj, _⟩)
  · simp only [statusOf, hrow, Option.map_some, Option.some.injEq] at hst
    rw [hst] at hs
    obtain hs | hs := hs <;> cases hs
  · rw [hjobs] at hj
    cases hj

end Sample

end Sys

end ZenZip
