import ZenZip.Engine.Journal
import ZenZip.Runtime.Lineage
import ZenZip.Runtime.Terminal

namespace ZenZip

open Lib

namespace Track

theorem outcome_after (g : Track) (c : Call) (v : c.Ret) : (g.after c v).outcome = g.outcome := by
  cases c with
  | getRun id =>
      obtain ⟨_, _, _, h⟩ := g.looked_eq id v
      rw [after, h]
  | createRun run =>
      obtain ⟨id, created⟩ := v
      rfl
  | _ => rfl

theorem outcome_next {g : Track} {op : Op} {ch : Choice} {clock : Time}
    {res : Except String (Val op)}
    (ha : Aside clock op ch res) (hop : g.allowed op) {o : ExecOutcome} (h : g.outcome = some o) :
    (g.next op res).outcome = some o := by
  cases ha with
  | failed | clock | draw => exact h
  | outcome req _ =>
      rw [hop.2.1] at h
      cases h

end Track

namespace Worker

def recorded (t : Worker) (r : RunId) (s : StepId) : Bool :=
  t.log.any (fun e => match e with
    | ⟨.store (.recordStep k st _ _), .ok _⟩ => k = r && st = s
    | _ => false)

end Worker

namespace Sys

/-- The attempt has an outcome to apply about a step that is completed. Only a
sleep completes its own step before it is through. -/
def late (σ : Sys) (t : Worker) : Bool :=
  match t.kind.run?, t.track.outcome with
  | some r, some (.sleep s _) => σ.store.journaled r s && !t.recorded r s
  | some r, some o => o.stepId?.any (fun s => σ.store.journaled r s)
  | _, _ => false

def waitsOn (σ : Sys) (r : RunId) (s : StepId) : Bool :=
  (σ.store.runs.get? r).any (fun row => row.status = .waitEvent && row.waitStepId = some s)

/-- The call has an effect on the run `r` of its attempt: it writes a status, counts
a failed attempt, starts a child or gives the run a job. -/
def touches (σ : Sys) (r : RunId) : Call → Bool
  | .push jobs => jobs.any (fun job => job.run? = some r)
  | .stepFailedAttempt _ _ _ => true
  | .createRun run => (σ.store.runOfKey run.workflow run.idempotencyKey).isNone
  | c => c.writesStatus.isSome

/-- The call completes no step that its run waits on, and no sleep that is
completed already. -/
def closesOpen (σ : Sys) : Call → Bool
  | .recordStep r s kind _ => !σ.waitsOn r s && (kind ≠ .sleep || !σ.store.journaled r s)
  | _ => true

/-- A late attempt does not touch its run, and no step is recorded that is waited
on or slept through. -/
def keepsFinished (σ : Sys) : Label → Bool
  | .call i (.ok _) => match σ.pool[i]?, σ.pendingCall i with
    | some t, some c => (!σ.late t || t.kind.run?.all (fun r => !σ.touches r c)) && σ.closesOpen c
    | _, _ => true
  | .record i s _ => (σ.pool[i]?).all (fun t : Worker => t.kind.run?.all (fun r => !σ.waitsOn r s))
  | _ => true

variable {E : WorkflowEngine} {σ σ' : Sys} {l : Label} {i : Nat} {t : Worker} {r : RunId}

theorem late_iff : σ.late t = true ↔ ∃ r o s, t.kind.run? = some r ∧ t.track.outcome = some o ∧
    o.stepId? = some s ∧ σ.store.journaled r s = true ∧ ∀ w, o = .sleep s w →
    t.recorded r s = false := by
  unfold late
  split
  · next r s w hr ho =>
      simp only [Bool.and_eq_true, Bool.not_eq_true']
      constructor
      · rintro ⟨hj, hn⟩
        exact ⟨r, _, s, hr, ho, rfl, hj, fun _ _ => hn⟩
      · rintro ⟨r', o', s', hr', ho', hs, hj, hn⟩
        rw [hr] at hr'
        rw [ho] at ho'
        cases hr'
        cases ho'
        cases hs
        exact ⟨hj, hn w rfl⟩
  · next r o hsleep hr ho =>
      rw [Option.any_eq_true]
      constructor
      · rintro ⟨s, hs, hj⟩
        exact ⟨r, o, s, hr, ho, hs, hj, fun w hw => absurd hw (hsleep s w)⟩
      · rintro ⟨r', o', s', hr', ho', hs, hj, _⟩
        rw [hr] at hr'
        rw [ho] at ho'
        cases hr'
        cases ho'
        exact ⟨s', hs, hj⟩
  · next hno =>
      constructor
      · intro h
        cases h
      · rintro ⟨r, o, s, hr, ho, _⟩
        exact absurd ho (hno r o hr)

theorem keepsFinished_call {c : Call} {k : Except String c.Ret → M Reply} {locked : List RunId}
    (hok : σ.keepsFinished (.call i (.ok locked)) = true) (ht : σ.pool[i]? = some t)
    (hp : t.prog = .call (.store c) k) :
    (σ.late t = true → ∀ r, t.kind.run? = some r → σ.touches r c = false) ∧
    σ.closesOpen c = true := by
  simp only [keepsFinished, ht, pendingCall_eq ht hp, Bool.and_eq_true, Bool.or_eq_true,
    Bool.not_eq_true',
    Option.all_eq_true] at hok
  refine ⟨fun hlate => ?_, hok.2⟩
  rcases hok.1 with hnot | hquiet
  · rw [hlate] at hnot
    cases hnot
  · exact hquiet

/-- The calls a worker makes are about its own run, its child's or its parent's. -/
theorem late_job (hlate : σ.late t = true) : t.track.job ≠ none := by
  obtain ⟨r, _, _, hr, _⟩ := late_iff.mp hlate
  obtain ⟨cj, hcj, _⟩ := Kind.job?_of_run? hr
  rw [(Worker.track_own t).2, hcj]
  nofun

/-- What an attempt leaves alone: the run and its steps, its jobs but for the one that
the attempt itself gives back, and the runs there are. -/
structure Untouched (σ σ' : Sys) (t : Worker) (r : RunId) : Prop where
  row : σ'.store.runs.get? r = σ.store.runs.get? r
  steps : ∀ s, σ'.store.steps.get? (r, s) = σ.store.steps.get? (r, s)
  journal : σ'.store.loadJournal r = σ.store.loadJournal r
  started : ∀ q, σ.store.runs.get? q = none → σ'.store.runs.get? q = none
  added : ∀ j ∈ σ'.store.jobs.rows, j.payload = .execution r →
    ∃ j₀ ∈ σ.store.jobs.rows, j₀.id = j.id
  others : ∀ j : JobRow, j.payload = .execution r → (∀ cj, t.kind.job? = some cj → cj.id ≠ j.id) →
    (j ∈ σ'.store.jobs.rows ↔ j ∈ σ.store.jobs.rows)

theorem Untouched.of_store {σ' : Sys} (h : σ'.store = σ.store) (t : Worker) (r : RunId) :
    Untouched σ σ' t r where
  row := by rw [h]
  steps s := by rw [h]
  journal := by rw [h]
  started q hq := by rw [h, hq]
  added j hj _ := ⟨j, h ▸ hj, rfl⟩
  others j _ _ := by rw [h]

/-- A thread makes a call, late, and the condition holds of it. -/
structure LateCall (σ : Sys) (i : Nat) (t : Worker) (r : RunId) (c : Call) (locked : List RunId) :
    Prop where
  base : σ.Base
  lineage : σ.Lineage
  late : σ.late t = true
  run : t.kind.run? = some r
  calling : σ.Calling (.call i (.ok locked)) i t c
  ok : σ.keepsFinished (.call i (.ok locked)) = true

namespace LateCall

variable {c : Call} {locked : List RunId}

theorem may (h : σ.LateCall i t r c locked) : t.track.mayCall c :=
  (h.base.obeys_calling h.calling).2

theorem job (h : σ.LateCall i t r c locked) : t.track.job ≠ none := late_job h.late

theorem quiet (h : σ.LateCall i t r c locked) : σ.touches r c = false := by
  obtain ⟨k, hp⟩ := h.calling.prog
  exact (keepsFinished_call h.ok h.calling.thread hp).1 h.late r h.run

theorem row (h : σ.LateCall i t r c locked) :
    (c.perform σ.store σ.clock locked).1.runs.get? r = σ.store.runs.get? r := by
  have hmay := h.may
  have hquiet := h.quiet
  have hlt := h.base.run_lt i t r h.calling.thread h.run
  cases hrow : σ.store.runs.get? r with
  | none =>
      obtain hn | ⟨_, rfl, hid, _⟩ | ⟨_, _, _, rfl, _⟩ :=
        Call.perform_run_of_none c σ.clock locked h.base.fresh.jobs hrow
      · exact hn
      · exact absurd hid (Nat.ne_of_lt hlt)
      · exact absurd hmay h.job
  | some row =>
      have hid := Table.key_of_get? hrow
      obtain hs | ⟨row', hch, _⟩ | ⟨hdel, _⟩ := Call.perform_run_cases c σ.clock locked hrow
      · exact hs
      · cases hch with
        | completed | failed | sleeping | waitingEvent | waitingChild => cases hquiet
        | wokenParent =>
            have hlt := h.lineage.wakes_lt h.calling.thread h.run hmay
            rw [hid] at hlt
            exact absurd hlt (Nat.lt_irrefl r)
        | released | timedOut | cancelled => exact absurd hmay h.job
      · cases c with
        | gc | purgeSubject => exact absurd hmay h.job
        | _ => cases hdel

theorem records {q : RunId} {st : StepId} {kind : StepKind} {result : Option Json}
    (h : σ.LateCall i t r (.recordStep q st kind result) locked) :
    q < r ∨ q = r ∧ σ.store.journaled r st = true := by
  obtain hnone | hpar | ⟨hown, _, o, ho, hrec⟩ := h.may
  · exact absurd hnone h.job
  · exact .inl (h.lineage.parentStep_lt h.calling.thread h.run hpar)
  · obtain ⟨r', o', s', hr', ho', hs', hj, _⟩ := late_iff.mp h.late
    rw [(Worker.track_own t).1, hr'] at hown
    cases hown
    rw [h.run] at hr'
    rw [ho] at ho'
    cases hr'
    cases ho'
    have hss : st = s' := by
      cases o <;> simp_all [ExecOutcome.records, ExecOutcome.stepId?]
    exact .inr ⟨rfl, hss ▸ hj⟩

theorem steps (h : σ.LateCall i t r c locked) (s : StepId) :
    (c.perform σ.store σ.clock locked).1.steps.get? (r, s) = σ.store.steps.get? (r, s) := by
  cases hws : c.writesSteps with
  | false => rw [Call.perform_steps hws]
  | true =>
      cases c with
      | recordStep q st kind result =>
          refine (Store.get?_recordStep σ.store q st kind result σ.clock (r, s)).trans ?_
          by_cases he : (r, s) = (q, st)
          · obtain ⟨rfl, rfl⟩ := Prod.mk.inj he
            obtain hlt | ⟨_, hj⟩ := h.records
            · exact absurd hlt (Nat.lt_irrefl r)
            · obtain ⟨e, hget, hdone⟩ := Store.journaled_iff.mp hj
              rw [if_pos rfl, hget, Option.elim_some, Store.completeRow, if_pos hdone]
          · rw [if_neg he]
      | stepFailedAttempt => cases h.quiet
      | emitEvent | gc | purgeSubject => exact absurd h.may h.job
      | _ => cases hws

theorem journal (h : σ.LateCall i t r c locked) :
    (c.perform σ.store σ.clock locked).1.loadJournal r = σ.store.loadJournal r := by
  cases hws : c.writesSteps with
  | false => exact Call.perform_loadJournal hws σ.clock locked
  | true =>
      cases c with
      | recordStep q st kind result =>
          obtain hlt | ⟨rfl, hj⟩ := h.records
          · exact Store.loadJournal_recordStep_ne (Nat.ne_of_lt hlt) st kind result σ.clock
          · exact Store.loadJournal_recordStep_of_journaled hj kind result σ.clock
      | stepFailedAttempt => cases h.quiet
      | emitEvent | gc | purgeSubject => exact absurd h.may h.job
      | _ => cases hws

theorem started (h : σ.LateCall i t r c locked) {q : RunId} (hq : σ.store.runs.get? q = none) :
    (c.perform σ.store σ.clock locked).1.runs.get? q = none := by
  obtain hnone | ⟨run, rfl, _, he, _⟩ | ⟨_, _, _, rfl, _⟩ :=
    Call.perform_run_of_none c σ.clock locked h.base.fresh.jobs hq
  · exact hnone
  · -- the key is new, so the call starts a child
    have hquiet := h.quiet
    obtain ⟨id, hkey, heq⟩ | ⟨hkey, _⟩ := σ.store.createRun_cases run σ.clock
    · rw [heq] at he
      exact absurd (congrArg (fun x => x.2.2) he) Bool.false_ne_true
    · rw [touches, hkey] at hquiet
      cases hquiet
  · exact absurd h.may h.job

theorem change {j j' : JobRow} (h : σ.LateCall i t r c locked) (hch : JobChange σ.clock c j j') :
    j' = j ∨ ∃ cj, t.kind.job? = some cj ∧ cj.id = j.id := by
  have hmay := h.may
  cases hch with
  | same => exact .inl rfl
  | retried | dead =>
      obtain ⟨_, _, cj, hcj, hid, _⟩ := hmay
      exact .inr ⟨cj, (Worker.track_own t).2.symm.trans hcj, hid⟩
  | expired | requeued => exact absurd hmay h.job

theorem loss {j : JobRow} (h : σ.LateCall i t r c locked) (hj : j ∈ σ.store.jobs.rows)
    (hp : j.payload = .execution r)
    (hloss : JobLoss c j) : ∃ cj, t.kind.job? = some cj ∧ cj.id = j.id := by
  have hmay := h.may
  cases hloss with
  | acked =>
      obtain ⟨_, _, cj, hcj, hid, _⟩ := hmay
      exact ⟨cj, (Worker.track_own t).2.symm.trans hcj, hid⟩
  | purged => exact absurd hmay h.job
  | debounced _ job jobs hjob hdeb =>
      exact absurd hdeb (Store.not_debounced (h.base.plain j hj r hp).1 job)

theorem origin {j : JobRow} (h : σ.LateCall i t r c locked)
    (hj : j ∈ (c.perform σ.store σ.clock locked).1.jobs.rows)
    (hp : j.payload = .execution r) : ∃ j₀ ∈ σ.store.jobs.rows, JobChange σ.clock c j₀ j := by
  obtain hold | ⟨_, _, hnew⟩ := Call.perform_job_origin c hj
  · exact hold
  · have hex := h.base.exec_new h.calling hnew hp
    cases hex with
    | pushed workflow delayMs =>
        have hquiet := h.quiet
        simp [touches] at hquiet
    | released | started => exact absurd h.may h.job

theorem others {j : JobRow} (h : σ.LateCall i t r c locked) (hp : j.payload = .execution r)
    (hown : ∀ cj, t.kind.job? = some cj → cj.id ≠ j.id) :
    j ∈ (c.perform σ.store σ.clock locked).1.jobs.rows ↔ j ∈ σ.store.jobs.rows := by
  constructor
  · intro hj
    obtain ⟨j₀, hj₀, hch⟩ := h.origin hj hp
    obtain rfl | ⟨cj, hcj, hid⟩ := h.change hch
    · exact hj₀
    · exact absurd (hid.trans hch.frame.1.symm) (hown cj hcj)
  · intro hj
    obtain ⟨j', hch, hj'⟩ | hloss := Call.perform_job_cases c σ.clock locked hj
    · obtain rfl | ⟨cj, hcj, hid⟩ := h.change hch
      · exact hj'
      · exact absurd hid (hown cj hcj)
    · obtain ⟨cj, hcj, hid⟩ := h.loss hj hp hloss
      exact absurd hid (hown cj hcj)

theorem untouched {σ' : Sys} (h : σ.LateCall i t r c locked)
    (hs : σ'.store = (c.perform σ.store σ.clock locked).1) : Untouched σ σ' t r := by
  constructor
  · rw [hs]
    exact h.row
  · rw [hs]
    exact h.steps
  · rw [hs]
    exact h.journal
  · rw [hs]
    exact fun q hq => h.started hq
  · rw [hs]
    intro j hj hp
    obtain ⟨j₀, hj₀, hch⟩ := h.origin hj hp
    exact ⟨j₀, hj₀, hch.frame.1.symm⟩
  · rw [hs]
    exact fun j hp hown => h.others hp hown

end LateCall

theorem recorded_answer {c : Call} {v : c.Ret} {p : M Reply} {s : StepId} :
    Worker.recorded (t.answer (.store c) (.ok v) p) r s =
      ((match c with
        | .recordStep k st _ _ => k = r && st = s
        | _ => false) || t.recorded r s) := by
  cases c <;> rfl

theorem late_stays (hb : σ.Base) (hl : σ.Lineage) (hlate : σ.late t = true)
    (ht : σ.pool[i]? = some t) {ch : Choice}
    (hok : σ.keepsFinished (.call i ch) = true) (h : Move E σ (.call i ch) σ') {u : Worker}
    (hu : σ'.pool[i]? = some u) : σ'.late u = true := by
  obtain ⟨r, o, s, hr, ho, hs, hj, hrec⟩ := late_iff.mp hlate
  cases h.thread hu with
  | stays _ _ hcall => exact absurd rfl (hcall ch)
  | answered t₀ op k _ res ht₀ hp hres he =>
      obtain rfl : t = t₀ := Option.some.inj (ht.symm.trans ht₀)
      subst he
      have hsame : σ'.store = σ.store := by
        cases h with
        | stored i t₁ c k₁ locked ht₁ hp₁ =>
            obtain rfl : t = t₁ := Option.some.inj (ht.symm.trans ht₁)
            rw [hp] at hp₁
            cases hp₁
            cases hres
        | answered => rfl
      have ho' := Track.outcome_next hres ((hb.obeys i t ht (Thread.live_of_call hp)).allowed hp) ho
      refine late_iff.mpr ⟨r, o, s, hr, ho', hs, by rwa [hsame], fun w hw => ?_⟩
      have hrec := hrec w hw
      cases hres with
      | failed c e => cases c <;> exact hrec
      | clock | draw => exact hrec
      | outcome req out => cases out <;> exact hrec
  | stored t₀ c k locked ht₀ hp he =>
      obtain rfl : t = t₀ := Option.some.inj (ht.symm.trans ht₀)
      subst he
      have hcall : σ.LateCall i t r c locked := ⟨hb, hl, hlate, hr, ⟨ht, ⟨k, hp⟩, locked, rfl⟩, hok⟩
      have hj' : (c.perform σ.store σ.clock locked).1.journaled r s = true := by
        rw [Store.journaled, hcall.steps s]
        exact hj
      have ho' :=
        (Track.outcome_after (Worker.track t) c (c.perform σ.store σ.clock locked).2).trans ho
      refine late_iff.mpr ⟨r, o, s, hr, ho', hs, by rwa [h.eq_stored ht hp], fun w hw => ?_⟩
      rw [recorded_answer, hrec w hw, Bool.or_false]
      subst hw
      cases hs
      have hmay := (hb.obeys i t ht (Thread.live_of_call hp)).mayCall hp
      have hopen := (keepsFinished_call hok ht hp).2
      cases c with
      | recordStep q s' kind result =>
          simp only [Bool.and_eq_false_iff, decide_eq_false_iff_not]
          refine Classical.not_and_iff_not_or_not.mp ?_
          rintro ⟨rfl, rfl⟩
          obtain hnone | hpar | ⟨_, _, o, ho', hkind⟩ := hmay
          · exact late_job hlate hnone
          · exact Nat.lt_irrefl _ (hl.parentStep_lt ht hr hpar)
          · rw [ho] at ho'
            cases ho'
            simp only [ExecOutcome.records, Bool.and_eq_true, decide_eq_true_eq] at hkind
            simp [closesOpen, hkind.2, hj] at hopen
      | _ => rfl

def WaitsOpen (σ : Sys) : Prop :=
  ∀ r row s, σ.store.runs.get? r = some row → row.status = .waitEvent → row.waitStepId = some s →
    σ.store.journaled r s = false

theorem Move.journaled (h : Move E σ l σ') {s : StepId} (hj : σ'.store.journaled r s = true) :
    σ.store.journaled r s = true ∨
    (∃ i t c k locked, σ.pool[i]? = some t ∧ t.prog = .call (.store c) k ∧
    l = .call i (.ok locked) ∧
      Completes σ.store locked c r s) ∨
    ∃ (i : Nat) (t : Worker) (result : Option Json), σ.pool[i]? = some t ∧ t.kind.run? = some r ∧
      l = .record i s result := by
  cases h with
  | ticked | spawned | answered | crashed | claimed | renewed => exact .inl hj
  | stored i t c k locked ht hp =>
      exact (Call.perform_journaled c σ.clock locked hj).imp_right
        (fun hc => .inl ⟨i, t, c, k, locked, ht, hp, rfl, hc⟩)
  | recorded i t q s' result ht hk =>
      have hj' : (σ.store.recordStep q s' .run result σ.clock).journaled r s = true := hj
      by_cases he : (r, s) = (q, s')
      · cases he
        exact .inr (.inr ⟨i, t, result, ht, hk, rfl⟩)
      · rw [Store.journaled, Store.get?_recordStep, if_neg he] at hj'
        exact .inl hj'

theorem Move.waitsOpen (h : Move E σ l σ') (hb : σ.Base) (hI : σ.WaitsOpen)
    (hok : σ.keepsFinished l = true) :
    σ'.WaitsOpen := by
  intro r row s hr hs hw
  rw [← Bool.not_eq_true]
  intro hj
  obtain ⟨row₀, hr₀, rfl | ⟨i, t, c, hc, hch⟩⟩ | ⟨_, _, _,
    ⟨_, _, _, rfl⟩ | ⟨_, _, _, _, _, _, rfl⟩⟩ :=
    h.run_origin hb.fresh hr
  · have hwaits : σ.waitsOn r s = true := by simp [waitsOn, hr₀, hs, hw]
    obtain hj₀ | ⟨i, t, c, k, locked, ht, hp, rfl, hcomp⟩ | ⟨i, t, result, ht, hk, rfl⟩ :=
      h.journaled hj
    · rw [hI r row s hr₀ hs hw] at hj₀
      cases hj₀
    · cases hcomp with
      | recorded _ _ kind result =>
          have hopen := (keepsFinished_call hok ht hp).2
          simp [closesOpen, hwaits] at hopen
      | released w name payload targets hmem =>
          -- the emit that completes the step wakes its run
          have he := Call.emit_runs_of_some name payload targets σ.clock locked hr₀
          obtain rfl : w = row :=
            σ.store.runs.key_injOn (Table.mem_select.mp hmem).1 (Table.mem_of_get? hr₀)
            (Table.key_of_get? hr₀).symm
          rw [if_pos hmem] at he
          rw [h.eq_stored ht hp] at hr
          have := Option.some.inj (hr.symm.trans he)
          rw [this] at hs
          cases hs
    · simp [keepsFinished, ht, hk, hwaits] at hok
  · obtain ⟨k, hp⟩ := hc.prog
    obtain ⟨locked, rfl⟩ := hc.label
    cases hch with
    | waitingEvent _ event stepId timeoutAt matchJson =>
        cases hw
        have hid := Table.key_of_get? hr₀
        have hmay := (hb.obeys i t hc.thread (Thread.live_of_call hp)).mayCall hp
        have hown : t.kind.run? = some r := by
          rw [← hid, ← (Worker.track_own t).1]
          exact hmay.1
        rw [h.eq_stored hc.thread hp] at hj
        have hlate : σ.late t = true :=
          late_iff.mpr ⟨r, _, s, hown, hmay.2.2, rfl, hj, fun _ hw => by cases hw⟩
        have hquiet := (keepsFinished_call hok hc.thread hp).1 hlate r hown
        cases hquiet
    | _ => cases hs
  · cases hs
  · cases hs

/-- What a late attempt does has no effect on its run. -/
theorem late_quiet {clock : Time} {ch : Choice}
    (h : Run (step E) keepsFinished (init .empty clock) σ)
    (hok : σ.keepsFinished (.call i ch) = true) (hs : step E σ (.call i ch) = some σ')
    (ht : σ.pool[i]? = some t)
    (hr : t.kind.run? = some r) (hlate : σ.late t = true) :
    Untouched σ σ' t r ∧ ∀ u, σ'.pool[i]? = some u → σ'.late u = true := by
  have hb := base_of_run h
  have hl := lineage_of_run h
  have hm := step_move hs
  refine ⟨?_, fun u => late_stays hb hl hlate ht hok hm⟩
  cases hm with
  | answered =>
      refine .of_store ?_ t r
      rfl
  | stored _ t₀ c k locked ht₀ hp =>
      obtain rfl : t = t₀ := Option.some.inj (ht.symm.trans ht₀)
      exact LateCall.untouched ⟨hb, hl, hlate, hr, ⟨ht, ⟨k, hp⟩, locked, rfl⟩, hok⟩ rfl

/-- While no late attempt touches its run, no run waits for a step that is done, no
failed step fails a run that has completed it, and an outcome about a completed
step is without effect: on the run, its steps, its jobs and its children. -/
theorem finished_steps_stay_closed {clock : Time}
    (h : Run (step E) keepsFinished (init .empty clock) σ) :
    σ.WaitsOpen ∧ ∀ (i : Nat) (ch : Choice) (t : Worker) (r : RunId) (σ' : Sys),
      σ.keepsFinished (.call i ch) = true → step E σ (.call i ch) = some σ' →
      σ.pool[i]? = some t → t.kind.run? = some r →
        (∀ s e, t.track.outcome = some (.stepFailed s e) → σ.statusOf r ≠ some .failed →
          σ'.statusOf r = some .failed → σ.store.journaled r s = false) ∧
        (σ.late t = true → Untouched σ σ' t r ∧ ∀ u, σ'.pool[i]? = some u → σ'.late u = true) := by
  constructor
  · refine h.invariant WaitsOpen (fun r row s hr => by cases hr) ?_
    intro τ l τ' hrun hI hok hs
    exact (step_move hs).waitsOpen (base_of_run hrun) hI hok
  · intro i ch t r σ' hok hs ht hr
    refine ⟨fun s e ho hbefore hafter => ?_, late_quiet h hok hs ht hr⟩
    rw [← Bool.not_eq_true]
    intro hj
    have hlate : σ.late t = true := late_iff.mpr ⟨r, _, s, hr, ho, rfl, hj, fun _ hw => by cases hw⟩
    have hsame := (late_quiet h hok hs ht hr hlate).1.row
    refine hbefore ?_
    rwa [statusOf, hsame] at hafter

section Sample

def overtaken (i : Nat) : List Label :=
  [.tick 60001, .spawn .sweepExpired, callOk (i + 1), callOk (i + 1), .claim "order" 1]

/-- An attempt is about to invoke a child that its successor has invoked, and that has ended. -/
def lateInvoke : List Label :=
  startOrder 0 ++ attemptUpTo 1 (.invoke "ship" "order" none) ++ overtaken 1 ++
    attemptUpTo 3 (.invoke "ship" "order" none) ++
      [callOk 3, callOk 3, callOk 3, .claim "order" 1] ++
    attemptUpTo 4 (.completed none) ++ [callOk 4, callOk 4]

/-- An attempt is about to wait for an event that its successor has waited for and got. -/
def lateWait : List Label :=
  startOrder 0 ++ attemptUpTo 1 (.event "approval" "approved" none none) ++ overtaken 1 ++
    attemptUpTo 3 (.event "approval" "approved" none none) ++
      [callOk 3, callOk 3,
        .spawn (.emit "approved" .null), callOk 4]

theorem finished_steps_stay_closed_late : ∃ σ σ' t,
    Run (step sampleEngine) keepsFinished (init .empty 0) σ ∧
    step sampleEngine σ (callOk 1) = some σ' ∧ σ.pool[1]? = some t ∧ σ.late t = true ∧
    Untouched σ σ' t 0 := by
  obtain ⟨σ, h, hp⟩ :=
    Run.exists_of_replay (step sampleEngine) keepsFinished (init .empty 0) lateInvoke
    (fun σ => σ.keepsFinished (callOk 1) && (step sampleEngine σ (callOk 1)).isSome &&
      (σ.pool[1]?).any (fun t : Worker => decide (t.kind.run? = some 0) && σ.late t))
        (by decide +kernel)
  simp only [Bool.and_eq_true] at hp
  obtain ⟨⟨hok, hstep⟩, hthread⟩ := hp
  obtain ⟨σ', hs⟩ := Option.isSome_iff_exists.mp hstep
  obtain ⟨t, ht, htt⟩ := (Option.any_eq_true _ _).mp hthread
  obtain ⟨hr, hlate⟩ := Bool.and_eq_true_iff.mp htt
  obtain ⟨huntouched, _⟩ :=
    ((finished_steps_stay_closed h).2 1 (.ok []) t 0 σ' hok hs ht (of_decide_eq_true hr)).2 hlate
  exact ⟨σ, σ', t, h, hs, ht, hlate, huntouched⟩

/-- A stale attempt parks its run on an event that has come. -/
theorem stale_attempt_reopens_wait : ∃ σ,
    Run (step sampleEngine) (fun _ _ => true) (init .empty 0) σ ∧
    σ.waitsOn 0 "approval" = true ∧ σ.store.journaled 0 "approval" = true := by
  obtain ⟨σ, h, hp⟩ := Run.exists_of_replay (step sampleEngine) (fun _ _ => true) (init .empty 0)
    (lateWait ++ [callOk 1]) (fun σ => σ.waitsOn 0 "approval" && σ.store.journaled 0 "approval")
      (by decide +kernel)
  exact ⟨σ, h, Bool.and_eq_true_iff.mp hp⟩

end Sample

end Sys

end ZenZip
