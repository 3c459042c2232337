import ZenZip.Sdk.Workflow
import ZenZip.Ledger.Journal
import ZenZip.Lib.Memo

namespace ZenZip

open Lib

namespace Call

variable {s : Store} {r : RunId} {x : StepEntry} {now : Time} {locked : List RunId}

theorem mem_loadJournal_of_delete {s' : Store} {p : StepRow → Bool}
    (hs : s'.steps = s.steps.delete p)
    (h : x ∈ s'.loadJournal r) : x ∈ s.loadJournal r := by
  obtain ⟨e, he, hrest⟩ := Store.mem_loadJournal.mp h
  rw [hs, Table.get?_delete] at he
  exact Store.mem_loadJournal.mpr ⟨e, (Option.filter_eq_some_iff.mp he).1, hrest⟩

theorem mem_of_completed {row e : StepRow} {kind : StepKind} {result : Option Json}
    (hrk : row.kind = kind)
    (hrr : row.result = result)
    (he : (s.steps.get? (r, x.id)).elim row (Store.completeRow kind result now) = e)
    (hk : e.kind = x.kind) (hres : e.result = x.result) :
    x ∈ s.loadJournal r ∨ kind = x.kind ∧ result = x.result := by
  subst he
  cases hs : s.steps.get? (r, x.id) with
  | none =>
      right
      rw [hs] at hk hres
      exact ⟨hrk.symm.trans hk, hrr.symm.trans hres⟩
  | some e =>
      rw [hs, Option.elim_some] at hk hres
      by_cases hc : e.completed = true
      · left
        rw [Store.completeRow_of_completed hc] at hk hres
        exact Store.mem_loadJournal.mpr ⟨e, hs, hc, hk, hres⟩
      · right
        rw [Store.completeRow, if_neg hc] at hk hres
        exact ⟨hk, hres⟩

theorem loadJournal_cases (c : Call) (h : x ∈ (c.perform s now locked).1.loadJournal r) :
    x ∈ s.loadJournal r ∨
    c = .recordStep r x.id x.kind x.result ∨
    ∃ name payload targets row, c = .emitEvent name payload targets ∧
    row ∈ s.waitersOf name payload locked ∧
      row.id = r ∧ row.waitStepId.getD "" = x.id ∧ x.kind = .waitForEvent := by
  cases c with
  | recordStep k st kind result =>
      obtain ⟨e, he, hc, hk, hres⟩ := Store.mem_loadJournal.mp h
      have he' : (s.recordStep k st kind result now).steps.get? (r, x.id) = some e := he
      rw [Store.get?_recordStep] at he'
      split at he'
      · next heq =>
          cases heq
          rcases mem_of_completed rfl rfl (Option.some.inj he') hk hres with hx | ⟨rfl, rfl⟩
          · exact .inl hx
          · exact .inr (.inl rfl)
      · exact .inl (Store.mem_loadJournal.mpr ⟨e, he', hc, hk, hres⟩)
  | stepFailedAttempt k st error =>
      left
      have h' : x ∈ (s.stepFailedAttempt k st error now).1.loadJournal r := h
      rwa [Store.loadJournal_stepFailedAttempt] at h'
  | emitEvent name payload targets =>
      obtain ⟨e, he, hc, hk, hres⟩ := Store.mem_loadJournal.mp h
      have he' := (emit_steps name payload targets locked now (r, x.id)).symm.trans he
      split at he'
      · next hm =>
          obtain ⟨row, hrow, heq⟩ := List.mem_map.mp hm
          rcases mem_of_completed rfl rfl (Option.some.inj he') hk hres with hx | ⟨hkind, _⟩
          · exact .inl hx
          · right
            right
            exact ⟨name, payload, targets, row, rfl, hrow, congrArg Prod.fst heq,
              congrArg Prod.snd heq, hkind.symm⟩
      · exact .inl (Store.mem_loadJournal.mpr ⟨e, he', hc, hk, hres⟩)
  | gc runBefore eventBefore =>
      left
      cases runBefore with
      | none => exact h
      | some before => exact mem_loadJournal_of_delete rfl h
  | purgeSubject subject => exact .inl (mem_loadJournal_of_delete rfl h)
  | _ =>
      left
      rwa [perform_loadJournal rfl] at h

end Call

/-- One run: its store, the attempt under way, and what the attempts before it have
answered. -/
structure Replay where
  store : Store
  attempt : Option Attempt
  outcomes : List ExecOutcome

namespace Replay

inductive Label
  | start
  | advance
  | returned (result : Except String Json)
  | record
  | recordFails (error : String)
  | crash
  | engine (op : StoreOp)

def init (s : Store) : Replay := ⟨s, none, []⟩

def suspended (outcomes : List ExecOutcome) (stepId : StepId) (kind : StepKind) : Bool :=
  outcomes.any (fun o => o.suspends stepId kind)

/-- The engine records for the run, and lets it wait on, only steps that an attempt has
suspended on. -/
def permits (r : RunId) (outcomes : List ExecOutcome) : Call → Bool
  | .recordStep k stepId kind _ => k ≠ r || suspended outcomes stepId kind
  | .runWaitingEvent k _ stepId _ _ => k ≠ r || suspended outcomes stepId .waitForEvent
  | _ => true

def permitted (r : RunId) (outcomes : List ExecOutcome) : StoreOp → Bool
  | .call c _ => permits r outcomes c
  | _ => true

theorem permits_of {r k : RunId} {outcomes : List ExecOutcome} {id : StepId} {kind : StepKind}
    (h : k = r → suspended outcomes id kind = true) :
    (decide (k ≠ r) || suspended outcomes id kind) = true := by
  rw [Bool.or_eq_true, decide_eq_true_eq]
  by_cases hr : k = r
  · exact .inr (h hr)
  · exact .inl hr

variable (fn : WorkflowFn) (r : RunId)

def proceed (σ : Replay) : Except ExecOutcome Attempt → Replay
  | .ok a => { σ with attempt := some a }
  | .error o => { σ with attempt := none, outcomes := o :: σ.outcomes }

/-- The attempts of run `r` come one after the other, among everything else that
happens to the store as long as the run is there. -/
def step (σ : Replay) : Time × Label → Option Replay
  | (_, .start) => match σ.attempt, σ.store.getRun r with
    | none, some run => some { σ with attempt := some (.start run.input (σ.store.loadJournal r)) }
    | _, _ => none
  | (now, .advance) => σ.attempt.bind (fun a =>
      if a.position = .ready then some (σ.proceed (a.advance fn now)) else none)
  | (_, .returned result) => σ.attempt.bind (fun a => (a.returned result).map σ.proceed)
  | (now, .record) => σ.attempt.bind (fun a => match a.position with
    | .recording id json =>
      some { σ with
        store := σ.store.recordStep r id .run (some json) now, attempt := some (a.recorded json) }
    | _ => none)
  | (_, .recordFails error) => σ.attempt.bind (fun a => match a.position with
    | .recording _ _ => some (σ.proceed (.error (.failed error)))
    | _ => none)
  | (_, .crash) => some { σ with attempt := none }
  | (now, .engine op) =>
    if permitted r σ.outcomes op && ((op.perform σ.store now).runs.get? r).isSome then
      some { σ with store := op.perform σ.store now }
    else none

variable {fn r} {σ σ' : Replay} {s s' : Store} {a a' : Attempt} {t t' : List StepEntry}
  {x y : StepEntry}

section Journal

theorem loadJournal_unique (hx : x ∈ s.loadJournal r) (hy : y ∈ s.loadJournal r) (h : x.id = y.id) :
    x = y := by
  obtain ⟨e, he, _, hk, hres⟩ := Store.mem_loadJournal.mp hx
  obtain ⟨e', he', _, hk', hres'⟩ := Store.mem_loadJournal.mp hy
  rw [h] at he
  obtain rfl : e = e' := Option.some.inj (he.symm.trans he')
  cases x
  cases y
  cases h
  cases hk
  cases hres
  cases hk'
  cases hres'
  rfl

theorem loadJournal_nodup (s : Store) (r : RunId) : (s.loadJournal r).Nodup := by
  have hn : (s.steps.select (fun e => e.runId = r && e.completed)).Nodup :=
    s.steps.nodup.of_map.sublist List.filter_sublist
  apply hn.map_on
  intro e he e' he' h
  obtain ⟨hm, hp⟩ := Table.mem_select.mp he
  obtain ⟨hm', hp'⟩ := Table.mem_select.mp he'
  simp only [Bool.and_eq_true, decide_eq_true_eq] at hp hp'
  apply s.steps.key_injOn hm hm'
  rw [StepRow.key, StepRow.key, hp.1, hp'.1]
  exact congrArg (Prod.mk r) (congrArg StepEntry.id h)

theorem journaled_iff_mem {stepId : StepId} : s.journaled r stepId = true ↔
    ∃ x ∈ s.loadJournal r, x.id = stepId := by
  rw [Store.journaled_iff]
  constructor
  · rintro ⟨e, he, hc⟩
    exact ⟨⟨stepId, e.kind, e.result⟩, Store.mem_loadJournal.mpr ⟨e, he, hc, rfl, rfl⟩, rfl⟩
  · rintro ⟨x, hx, rfl⟩
    obtain ⟨e, he, hc, _⟩ := Store.mem_loadJournal.mp hx
    exact ⟨e, he, hc⟩

end Journal

def question (e : StepEntry) : StepId × StepKind := (e.id, e.kind)

/-- What the function asks for after some results; a step id counts once. -/
def asks (fn : WorkflowFn) (input : Json) (t : List StepEntry) : Option (StepId × StepKind) :=
  ((fn input (t.map StepEntry.value)).request).filter (fun k => k.1 ∉ t.map StepEntry.id)

def answers (s : Store) (r : RunId) : Set StepEntry := {e | e ∈ s.loadJournal r}

abbrev Trace (fn : WorkflowFn) (input : Json) (s : Store) (r : RunId) : List StepEntry → Prop :=
  Memo.Path question (asks fn input) (answers s r)

section Trace

variable {input : Json} {id : StepId} {kind : StepKind}

theorem asks_eq_some_iff : asks fn input t = some (id, kind) ↔
    (fn input (t.map StepEntry.value)).request = some (id, kind) ∧ id ∉ t.map StepEntry.id := by
  rw [asks, Option.filter_eq_some_iff]
  exact and_congr_right (fun _ => decide_eq_true_iff)

theorem question_injOn (s : Store) (r : RunId) : Set.InjOn question (answers s r) := by
  intro x hx y hy h
  exact loadJournal_unique hx hy (congrArg Prod.fst h)

theorem trace_nodup (h : Trace fn input s r t) : (t.map StepEntry.id).Nodup := by
  induction h with
  | nil => exact List.nodup_nil
  | snoc h he hk ih =>
      rw [List.map_append, List.nodup_append]
      refine ⟨ih, List.nodup_singleton _, ?_⟩
      intro i hi j hj
      rw [List.map_singleton, List.mem_singleton] at hj
      subst hj
      rintro rfl
      exact (asks_eq_some_iff.mp hk).2 hi

theorem uninterrupted_of_trace {output : Option Json} {u : List StepEntry}
    (h : Trace fn input s r (t ++ u))
    (hret : fn input ((t ++ u).map StepEntry.value) = .returns output) :
    Uninterrupted fn input (t.map StepEntry.value) u output := by
  induction u generalizing t with
  | nil =>
      rw [List.append_nil] at hret
      exact .returned hret
  | cons e u ih =>
      apply Uninterrupted.step
      · exact (asks_eq_some_iff.mp h.next_of_append).1
      · rw [List.append_cons] at h hret
        have hu := ih h hret
        rwa [List.map_append, List.map_singleton] at hu

end Trace

structure Follows (fn : WorkflowFn) (input : Json) (s : Store) (r : RunId) (a : Attempt)
    (t : List StepEntry) : Prop where
  input_eq : a.input = input
  snapshot : a.journal ⊆ s.loadJournal r
  trace : Trace fn input s r t
  values_eq : a.values = t.map StepEntry.value
  usedIds_eq : a.usedIds = a.position.step?.toList ++ (t.map StepEntry.id).reverse
  own : ∀ e ∈ s.loadJournal r, e.kind = .run → e ∈ a.journal ∨ e ∈ t
  pending : ∀ id, a.position.step? = some id → asks fn input t = some (id, .run) ∧
    ∀ e ∈ s.loadJournal r, e.id ≠ id

/-- The invariant: everything that the journal has, that an attempt has suspended on
and that the runs of the function have seen lies on one trace. -/
structure Consistent (fn : WorkflowFn) (input : Json) (r : RunId) (σ : Replay) : Prop where
  fresh : σ.store.Fresh
  row : ∃ run, σ.store.getRun r = some run ∧ run.input = input ∧
    (run.status = .waitEvent → ∃ id, run.waitStepId = some id ∧
      suspended σ.outcomes id .waitForEvent = true)
  explored : Memo.Explored question (asks fn input) (answers σ.store r)
  open_ : ∀ id kind, suspended σ.outcomes id kind = true →
    kind ≠ .run ∧ ∃ t, Trace fn input σ.store r t ∧ asks fn input t = some (id, kind)
  completed : ∀ out, .completed out ∈ σ.outcomes → ∃ t output, Trace fn input σ.store r t ∧
    fn input (t.map StepEntry.value) = .returns output ∧ out = some (output.getD .null)
  attempt : ∀ a, σ.attempt = some a → ∃ t, Follows fn input σ.store r a t

section Grow

variable {input : Json} {outcomes : List ExecOutcome}

theorem Follows.grow (h : Follows fn input s r a t) (hsub : s.loadJournal r ⊆ s'.loadJournal r)
    (hnew : ∀ x ∈ s'.loadJournal r, x ∈ s.loadJournal r ∨
      x.kind ≠ .run ∧ ∃ t, Trace fn input s r t ∧ asks fn input t = some (x.id, x.kind)) :
    Follows fn input s' r a t where
  input_eq := h.input_eq
  snapshot := List.Subset.trans h.snapshot hsub
  trace := h.trace.mono hsub
  values_eq := h.values_eq
  usedIds_eq := h.usedIds_eq
  own x hx hk := by
    rcases hnew x hx with hx | ⟨hne, _⟩
    · exact h.own x hx hk
    · exact absurd hk hne
  pending id hid := by
    obtain ⟨hasks, hn⟩ := h.pending id hid
    refine ⟨hasks, fun x hx he => ?_⟩
    rcases hnew x hx with hx | ⟨hne, t', ht', hasks'⟩
    · exact hn x hx he
    · have hopen (k : StepKind) : ∀ e ∈ answers s r, question e ≠ (id, k) :=
        fun e hm hq => hn e hm (congrArg Prod.fst hq)
      rw [he] at hasks'
      have heq := h.trace.next_unique (question_injOn s r) hasks ht' hasks' (hopen _) (hopen _)
      exact hne (congrArg Prod.snd heq).symm

theorem Follows.record {id : StepId} {json : Json} (h : Follows fn input s r a t)
    (hp : a.position = .recording id json) (hsub : s.loadJournal r ⊆ s'.loadJournal r)
    (hmem : ⟨id, .run, some json⟩ ∈ s'.loadJournal r)
    (hnew : ∀ x ∈ s'.loadJournal r, x ∈ s.loadJournal r ∨ x = ⟨id, .run, some json⟩) :
    Follows fn input s' r (a.recorded json) (t ++ [⟨id, .run, some json⟩]) where
  input_eq := h.input_eq
  snapshot := List.Subset.trans h.snapshot hsub
  trace := by
    apply Memo.Path.snoc (h.trace.mono hsub) hmem
    exact (h.pending id (by rw [hp]; rfl)).1
  values_eq := by
    rw [Attempt.recorded, h.values_eq, List.map_append]
    rfl
  usedIds_eq := by
    rw [Attempt.recorded, h.usedIds_eq, hp, List.map_append, List.reverse_append]
    rfl
  own x hx hk := by
    rcases hnew x hx with hx | rfl
    · rcases h.own x hx hk with hj | ht
      · exact .inl hj
      · exact .inr (List.mem_append_left _ ht)
    · exact .inr (List.mem_append_right t (List.mem_singleton_self _))
  pending id' hid := by
    rw [Attempt.recorded] at hid
    cases hid

theorem not_mem_of_usedIds {id : StepId} (h : Follows fn input s r a t) (hp : a.position = .ready)
    (hid : id ∉ a.usedIds) :
    id ∉ t.map StepEntry.id := by
  rw [h.usedIds_eq, hp] at hid
  intro hm
  exact hid (List.mem_reverse.mpr hm)

theorem Follows.advance {now : Time} (h : Follows fn input s r a t)
    (hexp : Memo.Explored question (asks fn input) (answers s r)) (hp : a.position = .ready)
    (hadv : a.advance fn now = .ok a') : ∃ t', Follows fn input s r a' t' := by
  obtain ⟨id, kind, hreq, hid, hcase⟩ := Attempt.advance_eq_ok hadv
  rw [h.input_eq, h.values_eq] at hreq
  have hasks : asks fn input t = some (id, kind) :=
    asks_eq_some_iff.mpr ⟨hreq, not_mem_of_usedIds h hp hid⟩
  rcases hcase with ⟨e, he, rfl, rfl, rfl⟩ | ⟨hn, rfl, rfl⟩
  · refine ⟨t ++ [e], h.input_eq, h.snapshot, .snoc h.trace (h.snapshot he) hasks, ?_, ?_, ?_, ?_⟩
    · rw [h.values_eq, List.map_append, List.map_singleton]
    · rw [h.usedIds_eq, hp, List.map_append, List.reverse_append]
      rfl
    · intro x hx hk
      exact (h.own x hx hk).imp_right (List.mem_append_left [e])
    · intro id' hid'
      rw [hp] at hid'
      cases hid'
  · refine ⟨t, h.input_eq, h.snapshot, h.trace, h.values_eq, ?_, h.own, ?_⟩
    · rw [h.usedIds_eq, hp]
      rfl
    · intro id' hid'
      cases hid'
      refine ⟨hasks, fun x hx hxid => ?_⟩
      subst hxid
      -- the entry would be the next on the way to it, and a result of a step function
      obtain ⟨t', ht', hm⟩ := hexp x hx
      have hnt : x ∉ t := fun hxt => not_mem_of_usedIds h hp hid (List.mem_map_of_mem hxt)
      rcases h.trace.prefix_or_answered (question_injOn s r) hasks ht' with hpre | ⟨e, he, hq⟩
      · exact hnt (hpre.subset hm)
      · obtain rfl : e = x := loadJournal_unique (ht'.mem he) hx (congrArg Prod.fst hq)
        rcases h.own e hx (congrArg Prod.snd hq) with hj | hxt
        · exact hn e hj rfl
        · exact hnt hxt

end Grow

section Step

variable {input : Json}

theorem suspended_cons {o : ExecOutcome} {outcomes : List ExecOutcome} {id : StepId}
    {kind : StepKind} :
    suspended (o :: outcomes) id kind = true ↔
    o.suspends id kind = true ∨ suspended outcomes id kind = true := by
  rw [suspended, List.any_cons, Bool.or_eq_true]
  rfl

theorem Consistent.finish (h : Consistent fn input r σ) (o : ExecOutcome)
    (hopen : ∀ id kind, o.suspends id kind = true →
      kind ≠ .run ∧ ∃ t, Trace fn input σ.store r t ∧ asks fn input t = some (id, kind))
    (hcompleted : ∀ out, o = .completed out → ∃ t output, Trace fn input σ.store r t ∧
      fn input (t.map StepEntry.value) = .returns output ∧ out = some (output.getD .null)) :
    Consistent fn input r (σ.proceed (.error o)) where
  fresh := h.fresh
  row := by
    obtain ⟨run, hrun, hin, hwait⟩ := h.row
    refine ⟨run, hrun, hin, fun hs => ?_⟩
    obtain ⟨id, hid, hsusp⟩ := hwait hs
    exact ⟨id, hid, suspended_cons.mpr (.inr hsusp)⟩
  explored := h.explored
  open_ id kind hs := by
    rcases suspended_cons.mp hs with ho | ho
    · exact hopen id kind ho
    · exact h.open_ id kind ho
  completed out hm := by
    rcases List.mem_cons.mp hm with ho | ho
    · exact hcompleted out ho.symm
    · exact h.completed out ho
  attempt _ ha := by cases ha

theorem Consistent.fail (h : Consistent fn input r σ) {o : ExecOutcome}
    (hs : ∀ id kind, o.suspends id kind = false)
    (hc : ∀ out, o ≠ .completed out) : Consistent fn input r (σ.proceed (.error o)) := by
  apply h.finish
  · intro id kind ho
    rw [hs id kind] at ho
    cases ho
  · intro out ho
    exact absurd ho (hc out)

theorem Consistent.advance {now : Time} (h : Consistent fn input r σ) (ha : σ.attempt = some a)
    (hp : a.position = .ready) : Consistent fn input r (σ.proceed (a.advance fn now)) := by
  obtain ⟨t, ht⟩ := h.attempt a ha
  cases hadv : a.advance fn now with
  | ok a' =>
      obtain ⟨t', ht'⟩ := ht.advance h.explored hp hadv
      refine ⟨h.fresh, h.row, h.explored, h.open_, h.completed, fun _ he => ?_⟩
      cases he
      exact ⟨t', ht'⟩
  | error o =>
      rcases Attempt.advance_eq_error
        hadv with ⟨message, rfl⟩ | ⟨output, hret, rfl⟩ | ⟨id, kind, hreq, hid, hne, hsusp⟩
      · apply h.fail
        · exact fun _ _ => rfl
        · exact fun _ ho => by cases ho
      · apply h.finish
        · intro id kind ho
          cases ho
        · intro out ho
          cases ho
          rw [ht.input_eq, ht.values_eq] at hret
          exact ⟨t, output, ht.trace, hret, rfl⟩
      · apply h.finish
        · intro id' kind' ho
          rw [hsusp, Bool.and_eq_true, decide_eq_true_eq, decide_eq_true_eq] at ho
          obtain ⟨rfl, rfl⟩ := ho
          rw [ht.input_eq, ht.values_eq] at hreq
          exact ⟨hne, t, ht.trace, asks_eq_some_iff.mpr ⟨hreq, not_mem_of_usedIds ht hp hid⟩⟩
        · rintro out rfl
          have hs := hsusp id kind
          simp [ExecOutcome.suspends] at hs

theorem Consistent.returned {result : Except String Json} {res : Except ExecOutcome Attempt}
    (h : Consistent fn input r σ) (ha : σ.attempt = some a) (hret : a.returned result = some res) :
    Consistent fn input r (σ.proceed res) := by
  unfold Attempt.returned at hret
  split at hret
  · next id hp =>
      cases hret
      cases result with
      | error message =>
          apply h.fail
          · exact fun _ _ => rfl
          · exact fun _ ho => by cases ho
      | ok json =>
          refine ⟨h.fresh, h.row, h.explored, h.open_, h.completed, fun _ he => ?_⟩
          cases he
          obtain ⟨t, ht⟩ := h.attempt a ha
          refine ⟨t, ht.input_eq, ht.snapshot, ht.trace, ht.values_eq, ?_, ht.own, ?_⟩
          · rw [ht.usedIds_eq, hp]
            rfl
          · intro id' hid
            apply ht.pending id'
            rw [hp]
            exact hid
  · cases hret

theorem Consistent.grow (h : Consistent fn input r σ)
    (hsub : σ.store.loadJournal r ⊆ s'.loadJournal r)
    (hnew : ∀ x ∈ s'.loadJournal r, x ∈ σ.store.loadJournal r ∨
      ∃ t, Trace fn input σ.store r t ∧ asks fn input t = some (x.id, x.kind)) :
    Memo.Explored question (asks fn input) (answers s' r) ∧
    (∀ id kind, suspended σ.outcomes id kind = true →
      kind ≠ .run ∧ ∃ t, Trace fn input s' r t ∧ asks fn input t = some (id, kind)) ∧
    (∀ out, .completed out ∈ σ.outcomes → ∃ t output, Trace fn input s' r t ∧
      fn input (t.map StepEntry.value) = .returns output ∧ out = some (output.getD .null)) := by
  refine ⟨h.explored.extend hsub hnew, ?_, ?_⟩
  · intro id kind hs
    obtain ⟨hne, t, ht, ha⟩ := h.open_ id kind hs
    exact ⟨hne, t, ht.mono hsub, ha⟩
  · intro out ho
    obtain ⟨t, output, ht, hret⟩ := h.completed out ho
    exact ⟨t, output, ht.mono hsub, hret⟩

theorem Consistent.record {now : Time} {id : StepId} {json : Json} (h : Consistent fn input r σ)
    (ha : σ.attempt = some a) (hp : a.position = .recording id json) :
    Consistent fn input r
      { σ with
          store := σ.store.recordStep r id .run (some json) now,
          attempt := some (a.recorded json) } := by
  let c : Call := .recordStep r id .run (some json)
  obtain ⟨run, hrun, hin, hwait⟩ := h.row
  have hsub : σ.store.loadJournal r ⊆ (c.perform σ.store now []).1.loadJournal r :=
    ((c.keepsJournal h.fresh now []).kept h.fresh (Option.isSome_of_eq_some hrun)
      (Option.isSome_of_eq_some hrun)).journal
  have hnew : ∀ x ∈ (c.perform σ.store now []).1.loadJournal r, x ∈ σ.store.loadJournal r ∨
    x = ⟨id, .run, some json⟩ := by
    intro x hx
    obtain hx | hc | ⟨_, _, _, _, hc, _⟩ :=
      Call.loadJournal_cases (.recordStep r id .run (some json)) hx
    · exact .inl hx
    · right
      cases x
      cases hc
      rfl
    · cases hc
  obtain ⟨t, ht⟩ := h.attempt a ha
  have hasks := ht.pending id (by rw [hp]; rfl)
  have hmem : (⟨id, .run, some json⟩ : StepEntry) ∈ (c.perform σ.store now []).1.loadJournal r := by
    obtain ⟨x, hx, hid⟩ :=
      journaled_iff_mem.mp (σ.store.journaled_recordStep r id .run (some json) now)
    rcases hnew x hx with hold | rfl
    · exact absurd hid (hasks.2 x hold)
    · exact hx
  obtain ⟨hexplored, hopen, hcompleted⟩ := h.grow hsub (by
    intro x hx
    rcases hnew x hx with hold | rfl
    · exact .inl hold
    · exact .inr ⟨t, ht.trace, hasks.1⟩)
  refine ⟨h.fresh.perform c now [], ⟨run, hrun, hin, hwait⟩, hexplored, hopen, hcompleted, ?_⟩
  intro _ he
  cases he
  exact ⟨_, ht.record hp hsub hmem hnew⟩

theorem Consistent.engine {now : Time} {op : StoreOp} (h : Consistent fn input r σ)
    (hok : permitted r σ.outcomes op = true)
    (hrow : ((op.perform σ.store now).runs.get? r).isSome) :
    Consistent fn input r { σ with store := op.perform σ.store now } := by
  obtain ⟨run, hrun, hin, hwait⟩ := h.row
  have hsub : σ.store.loadJournal r ⊆ (op.perform σ.store now).loadJournal r :=
    ((op.keepsJournal h.fresh now).kept h.fresh (Option.isSome_of_eq_some hrun) hrow).journal
  have hnew : ∀ x ∈ (op.perform σ.store now).loadJournal r, x ∈ σ.store.loadJournal r ∨
      suspended σ.outcomes x.id x.kind = true := by
    intro x hx
    cases op with
    | claim | renewLeases => exact .inl hx
    | call c locked =>
        obtain hx | rfl | ⟨_, _, _, row, rfl, hw, hid, hst, hk⟩ := c.loadJournal_cases hx
        · exact .inl hx
        · right
          simpa [permitted, permits] using hok
        · right
          obtain ⟨hm, hp⟩ := Table.mem_select.mp hw
          simp only [Bool.and_eq_true, decide_eq_true_eq] at hp
          have hget : σ.store.getRun r = some row := by
            rw [← hid]
            exact Table.get?_key hm
          obtain rfl : run = row := Option.some.inj (hrun.symm.trans hget)
          obtain ⟨id, hwid, hsusp⟩ := hwait hp.1.1.1
          rw [hwid] at hst
          cases hst
          rwa [hk]
  have hnew' : ∀ x ∈ (op.perform σ.store now).loadJournal r, x ∈ σ.store.loadJournal r ∨
      x.kind ≠ .run ∧ ∃ t, Trace fn input σ.store r t ∧ asks fn input t = some (x.id, x.kind) :=
    fun x hx => (hnew x hx).imp_right (h.open_ x.id x.kind)
  obtain ⟨hexplored, hopen, hcompleted⟩ :=
    h.grow hsub (fun x hx => (hnew' x hx).imp_right And.right)
  refine ⟨op.fresh h.fresh, ?_, hexplored, hopen, hcompleted, ?_⟩
  · cases op with
    | claim | renewLeases => exact ⟨run, hrun, hin, hwait⟩
    | call c locked =>
        obtain hs | ⟨run', hch, hs⟩ | ⟨_, hs⟩ := c.perform_run_cases now locked hrun
        · exact ⟨run, hs, hin, hwait⟩
        · refine ⟨run', hs, hch.input_eq.trans hin, fun hst => ?_⟩
          obtain ⟨event, id, timeoutAt, matchJson, rfl, hwait⟩ := hch.of_waitEvent hst
          have hkey : run.id = r := Table.key_of_get? hrun
          refine ⟨id, congrArg RunRow.waitStepId hwait, ?_⟩
          simpa [permitted, permits, hkey] using hok
        · have hrow' : ((c.perform σ.store now locked).1.runs.get? r).isSome := hrow
          rw [hs] at hrow'
          cases hrow'
  · intro a ha
    obtain ⟨t, ht⟩ := h.attempt a ha
    exact ⟨t, ht.grow hsub hnew'⟩

theorem Consistent.step {l : Time × Label} (h : Consistent fn input r σ)
    (hs : step fn r σ l = some σ') :
    Consistent fn input r σ' := by
  obtain ⟨now, l⟩ := l
  cases l with
  | start =>
      simp only [Replay.step] at hs
      split at hs
      · next run _ hrun =>
          cases hs
          refine ⟨h.fresh, h.row, h.explored, h.open_, h.completed, fun _ he => ?_⟩
          cases he
          obtain ⟨run', hrun', hin, _⟩ := h.row
          obtain rfl : run = run' := Option.some.inj (hrun.symm.trans hrun')
          exact ⟨[], hin, List.Subset.refl _, .nil, rfl, rfl, fun _ hx _ => .inl hx,
            fun _ hid => by cases hid⟩
      · cases hs
  | advance =>
      obtain ⟨a, ha, hs⟩ := Option.bind_eq_some_iff.mp hs
      split at hs
      · next hp =>
          cases hs
          exact h.advance ha hp
      · cases hs
  | returned result =>
      obtain ⟨a, ha, hs⟩ := Option.bind_eq_some_iff.mp hs
      obtain ⟨res, hret, rfl⟩ := Option.map_eq_some_iff.mp hs
      exact h.returned ha hret
  | record =>
      obtain ⟨a, ha, hs⟩ := Option.bind_eq_some_iff.mp hs
      split at hs
      · next id json hp =>
          cases hs
          exact h.record ha hp
      · cases hs
  | recordFails error =>
      obtain ⟨a, ha, hs⟩ := Option.bind_eq_some_iff.mp hs
      split at hs
      · cases hs
        apply h.fail
        · exact fun _ _ => rfl
        · exact fun _ ho => by cases ho
      · cases hs
  | crash =>
      cases hs
      exact ⟨h.fresh, h.row, h.explored, h.open_, h.completed, fun _ he => by cases he⟩
  | engine op =>
      simp only [Replay.step] at hs
      split at hs
      · next hok =>
          cases hs
          rw [Bool.and_eq_true] at hok
          exact h.engine hok.1 hok.2
      · cases hs

theorem Consistent.init {run : RunRow} (hf : s.Fresh) (hrun : s.getRun r = some run)
    (hstatus : run.status = .runnable)
    (hj : s.loadJournal r = []) : Consistent fn run.input r (init s) where
  fresh := hf
  row := by
    refine ⟨run, hrun, rfl, fun hs => ?_⟩
    rw [hstatus] at hs
    cases hs
  explored e he := by
    have he' : e ∈ s.loadJournal r := he
    rw [hj] at he'
    cases he'
  open_ _ _ hs := by cases hs
  completed _ hm := by cases hm
  attempt _ ha := by cases ha

end Step

section Engine

variable {outcomes : List ExecOutcome}

/-- Every call is one that `permits` lets through, whatever the answers; the waiters of
a sweep have suspended on the steps it names. -/
def permitting (r : RunId) (outcomes : List ExecOutcome) : Discipline Val Unit where
  next _ _ _ := ()
  allowed _ op := match op with
    | .store c => permits r outcomes c = true
    | _ => True
  answers op answer := match op, answer with
    | .store (.sweepEventTimeouts _), .ok waiters =>
      ∀ w ∈ waiters, w.runId = r → suspended outcomes w.stepId .waitForEvent = true
    | _, _ => True

def Keeps {α : Type} (r : RunId) (outcomes : List ExecOutcome) (p : M α) : Prop :=
  (permitting r outcomes).wp p (fun _ _ => True) ()

namespace Keeps

variable {α : Type}

theorem op_bind (op : Op) {f : Val op → M α} (hop : (permitting r outcomes).allowed () op)
    (hf : ∀ v, (permitting r outcomes).answers op (.ok v) → Keeps r outcomes (f v)) :
    Keeps r outcomes (Prog.op op >>= f) := by
  rw [Keeps, Discipline.wp_bind, Discipline.wp_op]
  refine ⟨hop, fun v hv => ?_⟩
  cases v with
  | error e => exact trivial
  | ok v => exact hf v hv

theorem call_bind {c : Call} {f : c.Ret → M α} (hc : permits r outcomes c = true)
    (hf : ∀ v, (permitting r outcomes).answers (.store c) (.ok v) → Keeps r outcomes (f v)) :
    Keeps r outcomes (call c >>= f) := op_bind (.store c) hc hf

theorem delayFor_bind {b : Backoff} {attempt : Nat} {f : Int → M α}
    (hf : ∀ n, Keeps r outcomes (f n)) :
    Keeps r outcomes (b.delayFor attempt >>= f) := by
  rw [Keeps, Discipline.wp_bind, Backoff.delayFor, Discipline.wp_bind, Discipline.wp_op]
  refine ⟨trivial, fun jitter _ => ?_⟩
  cases jitter with
  | ok n => exact hf _
  | error e => exact trivial

theorem enqueue (workflow : String) (id : RunId) (delayMs : Int) :
    Keeps r outcomes (WorkflowEngine.enqueue workflow id delayMs) :=
  call_bind rfl (fun _ _ => trivial)

theorem settleParent {child : RunRow} (result : Except String Json)
    (hparent : child.parentRunId = some r → ∀ id, child.parentStepId = some id →
    suspended outcomes id .invoke = true) :
    Keeps r outcomes (WorkflowEngine.settleParent child result) := by
  unfold WorkflowEngine.settleParent
  split
  · next parentId parentStep hp hst =>
      apply call_bind
      · apply permits_of
        rintro rfl
        exact hparent hp parentStep hst
      · intro _ _
        apply call_bind rfl
        intro woken _
        cases woken with
        | false => exact trivial
        | true =>
            apply call_bind rfl
            intro parent _
            cases parent with
            | none => exact trivial
            | some parent => exact enqueue parent.workflow parentId 0
  · exact trivial

theorem applyInvoke (E : WorkflowEngine) {run : RunRow} {stepId : StepId} (workflow : String)
    (input : Option Json)
    (hown : run.id = r → suspended outcomes stepId .invoke = true)
    (hparent : run.parentRunId = some r → ∀ id, run.parentStepId = some id →
    suspended outcomes id .invoke = true) :
    Keeps r outcomes (E.applyInvoke run stepId workflow input) := by
  have hrecord (result : Json) : permits r outcomes
    (.recordStep run.id stepId .invoke (some result)) = true :=
    permits_of hown
  unfold WorkflowEngine.applyInvoke
  split
  · apply call_bind rfl
    intro _ _
    exact settleParent _ hparent
  · apply call_bind rfl
    rintro ⟨childId, created⟩ _
    cases created with
    | true => exact call_bind rfl (fun _ _ => enqueue _ _ _)
    | false =>
        apply call_bind rfl
        intro child _
        cases child with
        | none => exact trivial
        | some child =>
            simp only
            split
            · exact call_bind (hrecord _) (fun _ _ => enqueue _ _ _)
            · exact call_bind (hrecord _) (fun _ _ => enqueue _ _ _)
            · exact call_bind (hrecord _) (fun _ _ => enqueue _ _ _)
            · exact call_bind rfl (fun _ _ => trivial)

/-- `apply` keeps to it, for the run's own outcomes and for those of its children. -/
theorem apply (E : WorkflowEngine) {run : RunRow} {o : ExecOutcome}
    (hown : run.id = r → o ∈ outcomes)
    (hparent : run.parentRunId = some r → ∀ id, run.parentStepId = some id →
    suspended outcomes id .invoke = true) :
    Keeps r outcomes (E.apply run o) := by
  have hsusp (id : StepId) (kind : StepKind) (ho : o.suspends id kind = true) (hr : run.id = r) :
      suspended outcomes id kind = true := List.any_eq_true.mpr ⟨o, hown hr, ho⟩
  cases o with
  | completed output => exact call_bind rfl (fun _ _ => settleParent _ hparent)
  | failed error => exact call_bind rfl (fun _ _ => settleParent _ hparent)
  | sleep stepId wakeAt =>
      apply call_bind
      · apply permits_of
        exact hsusp stepId .sleep (by simp [ExecOutcome.suspends])
      · intro _ _
        apply call_bind rfl
        intro _ _
        exact op_bind .nowMs trivial (fun now _ => enqueue _ _ _)
  | event stepId event timeoutAt matchJson =>
      apply call_bind
      · apply permits_of
        exact hsusp stepId .waitForEvent (by simp [ExecOutcome.suspends])
      · intro _ _
        exact trivial
  | invoke stepId workflow input =>
      exact applyInvoke E workflow input
        (hsusp stepId .invoke (by simp [ExecOutcome.suspends])) hparent
  | stepFailed stepId error =>
      apply call_bind rfl
      intro attempts _
      split
      · exact delayFor_bind (fun delay => enqueue _ _ _)
      · exact call_bind rfl (fun _ _ => settleParent _ hparent)

theorem sweep (now : Time) : Keeps r outcomes (WorkflowEngine.sweep now) := by
  apply call_bind rfl
  intro waiters hw
  rw [Keeps, Discipline.wp_bind]
  apply Discipline.wp_forM
    _ (fun ws _ => ∀ w ∈ ws, w.runId = r → suspended outcomes w.stepId .waitForEvent = true)
  · intro w ws _ h
    refine Discipline.wp_mono _ (call_bind ?_ (fun _ _ => enqueue _ _ _)) ?_
    · apply permits_of
      exact h w List.mem_cons_self
    · intro _ res _
      cases res with
      | ok _ => exact fun w' hw' => h w' (List.mem_cons_of_mem w hw')
      | error _ => exact trivial
  · intro _ _
    exact trivial
  · exact hw

end Keeps

/-- What a sweep answers is what `permitting` takes it to answer. -/
theorem Consistent.sweep_answer {input : Json} (h : Consistent fn input r σ) (timeout : Time)
    (locked : List RunId) :
    (permitting r σ.outcomes).answers (.store (.sweepEventTimeouts timeout))
      (.ok (σ.store.sweepEventTimeouts timeout locked).2) := by
  intro w hw hid
  obtain ⟨row, hrow, rfl⟩ := List.mem_map.mp hw
  obtain ⟨hm, hp⟩ := Table.mem_select.mp hrow
  simp only [Store.timedOut, Bool.and_eq_true, decide_eq_true_eq] at hp
  obtain ⟨run, hrun, _, hwait⟩ := h.row
  have hget : σ.store.getRun r = some row := by
    rw [← hid]
    exact Table.get?_key hm
  obtain rfl : run = row := Option.some.inj (hrun.symm.trans hget)
  obtain ⟨id, hwid, hsusp⟩ := hwait hp.1.1
  rw [hwid]
  exact hsusp

end Engine

section Main

variable {input : Json}

theorem Consistent.not_journaled {id : StepId} (h : Consistent fn input r σ)
    (ha : σ.attempt = some a)
    (hid : a.position.step? = some id) : σ.store.journaled r id = false := by
  obtain ⟨t, ht⟩ := h.attempt a ha
  rw [Bool.eq_false_iff]
  intro hj
  obtain ⟨x, hx, hxid⟩ := journaled_iff_mem.mp hj
  exact (ht.pending id hid).2 x hx hxid

theorem Consistent.uninterrupted {out : Option Json} (h : Consistent fn input r σ)
    (hout : .completed out ∈ σ.outcomes) :
    ∃ results output, Uninterrupted fn input [] results output ∧ out = some (output.getD .null) ∧
      results.Perm (σ.store.loadJournal r) := by
  obtain ⟨t, output, ht, hret, hout⟩ := h.completed out hout
  have hstop : asks fn input t = none := by
    rw [asks, hret]
    rfl
  refine ⟨t, output, uninterrupted_of_trace (t := []) ht hret, hout, ?_⟩
  apply (List.perm_ext_iff_of_nodup (trace_nodup ht).of_map (loadJournal_nodup σ.store r)).mpr
  intro x
  exact h.explored.mem_iff (question_injOn σ.store r) ht hstop

/-- A run that completes over crashes, failures and suspensions is one uninterrupted
execution in which each step yields its recorded result, and no recorded step is called. -/
theorem replayed_once {run : RunRow} {ok : Replay → Time × Label → Bool} (hf : s.Fresh)
    (hrun : s.getRun r = some run)
    (hstatus : run.status = .runnable) (hj : s.loadJournal r = [])
    (h : Run (step fn r) ok (init s) σ) :
    (∀ out, .completed out ∈ σ.outcomes →
    ∃ results output, Uninterrupted fn run.input [] results output ∧
      out = some (output.getD .null) ∧ results.Perm (σ.store.loadJournal r)) ∧
    (∀ a id, σ.attempt = some a → a.position = .calling id → σ.store.journaled r id = false) := by
  have hinv : Consistent fn run.input r σ :=
    h.invariant (Consistent fn run.input r) (.init hf hrun hstatus hj)
      (fun _ _ _ _ hI _ hs => hI.step hs)
  constructor
  · intro out hout
    exact hinv.uninterrupted hout
  · intro a id ha hp
    apply hinv.not_journaled ha
    rw [hp]
    rfl

end Main

section Sample

/-- A payment, a pause, a wait and a child whose error is caught. -/
def order : WorkflowFn
  | _, [] => .run "pay"
  | _, [_] => .sleep "cooloff" 1000
  | _, [_, _] => .waitForEvent "confirmed" "order.confirmed" none none
  | _, [_, _, _] => .invoke "ship" "shipping" none
  | _, [.ok receipt, _, _, .error _] => .returns receipt
  | _, _ => .throws "unexpected"

def orderStore : Store :=
  ((Call.createRun ⟨"order", .null, none, none, none, none, none⟩).perform .empty 0 []).1

/-- The step fails, an attempt dies before the record and one after it, and the run
suspends three times. -/
def orderLabels : List (Time × Label) :=
  [(0, .start), (0, .advance), (0, .returned (.error "card declined")),
    (0, .engine (.call (.stepFailedAttempt 0 "pay" "card declined") [])),
    (1, .start), (1, .advance), (1, .returned (.ok (.str "receipt-1"))), (1, .crash),
    (2, .start), (2, .advance), (2, .returned (.ok (.str "receipt-2"))), (2, .record), (2, .crash),
    (3, .start), (3, .advance), (3, .advance),
      (3, .engine (.call (.recordStep 0 "cooloff" .sleep none) [])),
    (1003, .start), (1003, .advance), (1003, .advance), (1003, .advance),
    (1003, .engine (.call (.runWaitingEvent 0 "order.confirmed" "confirmed" none none) [])),
    (1004, .engine (.call (.emitEvent "order.confirmed" .null []) [])),
    (1005, .start), (1005, .advance), (1005, .advance), (1005, .advance), (1005, .advance),
    (1006, .engine
      (.call (.recordStep 0 "ship" .invoke
        (some (WorkflowEngine.stepResult (.error "no stock")))) [])),
    (1007, .start), (1007, .advance), (1007, .advance), (1007, .advance), (1007, .advance),
      (1007, .advance)]

theorem replayed_once_order : ∃ σ results output,
    Run (step order 0) (fun _ _ => true) (init orderStore) σ ∧
    .completed (some (.str "receipt-2")) ∈ σ.outcomes ∧
      Uninterrupted order .null [] results output ∧
    some (.str "receipt-2") = some (output.getD .null) ∧ results.Perm (σ.store.loadJournal 0) := by
  obtain ⟨σ, h, hp⟩ :=
    Run.exists_of_replay (step order 0) (fun _ _ => true) (init orderStore) orderLabels
    (fun σ => .completed (some (.str "receipt-2")) ∈ σ.outcomes) (by decide +kernel)
  have hout := of_decide_eq_true hp
  obtain ⟨results, output, hu, ho, hperm⟩ :=
    (replayed_once (.perform .empty _ 0 []) rfl rfl rfl h).1 _ hout
  exact ⟨σ, results, output, h, hout, hu, ho, hperm⟩

end Sample

end Replay

end ZenZip
