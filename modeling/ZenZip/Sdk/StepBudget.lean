import ZenZip.Sdk.Siblings

namespace ZenZip

open Lib

namespace Store

variable {s : Store} {r : RunId} {id : StepId}

/-- The `attempts` of a step, 0 without a row. -/
def stepAttempts (s : Store) (r : RunId) (id : StepId) : Nat :=
  ((s.steps.get? (r, id)).map (·.attempts)).getD 0

theorem stepAttempts_recordStep (k : RunId) (st : StepId) (kind : StepKind) (result : Option Json)
    (now : Time) :
    (s.recordStep k st kind result now).stepAttempts r id = s.stepAttempts r id := by
  rw [stepAttempts, get?_recordStep]
  split
  · next heq =>
      rw [stepAttempts, heq]
      cases s.steps.get? (k, st) with
      | none => rfl
      | some e =>
          rw [Option.elim_some, Option.map_some, Option.map_some, completeRow]
          split <;> rfl
  · rfl

theorem stepAttempts_stepFailedAttempt (s : Store) (r : RunId) (id st : StepId) (error : String)
    (now : Time) :
    (s.stepFailedAttempt r st error now).1.stepAttempts r id =
      s.stepAttempts r id + if id = st then 1 else 0 := by
  rw [stepAttempts, get?_stepFailedAttempt]
  by_cases heq : id = st
  · subst heq
    rw [if_pos rfl, if_pos rfl, stepAttempts]
    cases s.steps.get? (r, id) <;> rfl
  · rw [if_neg (fun h => heq (congrArg Prod.snd h)), if_neg heq]
    rfl

theorem stepAttempts_perform {c : Call} {now : Time} {locked : List RunId}
    (hc : ∀ st error, c ≠ .stepFailedAttempt r st error)
    (hr : ((c.perform s now locked).1.runs.get? r).isSome) :
    (c.perform s now locked).1.stepAttempts r id = s.stepAttempts r id := by
  have hdelete {p : RunRow → Bool} (hr : ((s.runs.delete p).get? r).isSome) :
      (s.steps.delete (fun st => (s.runs.get? st.runId).any p)).get? (r, id) =
        s.steps.get? (r, id) := by
    cases he : s.steps.get? (r, id) with
    | none => rw [Table.get?_delete, he, Option.filter_none]
    | some e => exact entry_of_delete hr he
  cases c with
  | recordStep k st kind result => exact stepAttempts_recordStep k st kind result now
  | stepFailedAttempt k st error =>
      have hk : k ≠ r := by
        rintro rfl
        exact hc st error rfl
      rw [stepAttempts, Call.perform, get?_stepFailedAttempt,
        if_neg (fun h => hk (congrArg Prod.fst h).symm), stepAttempts]
  | emitEvent name payload targets =>
      rw [stepAttempts, Call.perform, Call.emit_steps]
      split
      · rw [stepAttempts]
        cases s.steps.get? (r, id) with
        | none => rfl
        | some e =>
            rw [Option.elim_some, Option.map_some, Option.map_some, completeRow]
            split <;> rfl
      · rfl
  | gc runBefore eventBefore =>
      cases runBefore with
      | none => rfl
      | some before => exact congrArg (fun e => (e.map StepRow.attempts).getD 0) (hdelete hr)
  | purgeSubject subject => exact congrArg (fun e => (e.map StepRow.attempts).getD 0) (hdelete hr)
  | _ => rw [stepAttempts, Call.perform_steps rfl, stepAttempts]

end Store

namespace Parallel

def Ending.failure? {history : List Event} : Ending history → Option StepId
  | .rethrows id (.stepFailure _) _ => some id
  | _ => none

/-- The step whose failure an outcome is. -/
def failedStep? : ExecOutcome → Option StepId
  | .stepFailed id _ => some id
  | _ => none

theorem failedStep?_outcome {history : List Event} (ending : Ending history) :
    failedStep? ending.outcome = ending.failure? := by
  cases ending with
  | returns output | throws message => rfl
  | rethrows id s h => cases s <;> rfl

namespace Attempt

def calls (a : Attempt) (id : StepId) : Nat := (a.functions.map Prod.fst).count id

def failures (a : Attempt) (id : StepId) : Nat :=
  a.functions.countP (fun f => f.1 = id && f.2.failed)

def fails (a : Attempt) : Bool := a.functions.any (fun f => f.2.failed)

/-- If the workflow function ends when it is told of its step `j`, it lets the failures of its steps
through. -/
def letsThrough (a : Attempt) (j : Nat) : Bool :=
  a.outcome.isSome || (a.arriving[j]?).all (fun e =>
    ((a.code a.input (a.history ++ [e])).ending).all (fun ending =>
      a.functions.all (fun f => !f.2.failed || ending.failure? = some f.1)))

/-- At most one function has thrown, and its failure is the outcome of the attempt. -/
structure Counted (a : Attempt) : Prop where
  single : ∀ f ∈ a.functions, f.2.failed = true → ∀ f' ∈ a.functions, f'.2.failed = true →
    f'.1 = f.1
  reported : ∀ o, a.outcome = some o → ∀ f ∈ a.functions, f.2.failed = true →
    failedStep? o = some f.1

variable {a a' : Attempt} {id : StepId} {now : Time}

theorem failures_le_calls (a : Attempt) (id : StepId) : a.failures id ≤ a.calls id := by
  rw [calls, List.count_eq_countP, List.countP_map]
  apply List.countP_mono_left
  intro f _ hf
  rw [Bool.and_eq_true, decide_eq_true_eq] at hf
  exact beq_iff_eq.mpr hf.1

theorem failures_eq_zero (h : ∀ f ∈ a.functions, f.2.failed = true → f.1 ≠ id) :
    a.failures id = 0 := by
  rw [failures, List.countP_eq_zero]
  intro f hf hp
  rw [Bool.and_eq_true, decide_eq_true_eq] at hp
  exact h f hf hp.2 hp.1

theorem calls_le_one (h : a.Sound) (id : StepId) : a.calls id ≤ 1 :=
  List.nodup_iff_count_le_one.mp h.nodup id

theorem failures_of_outcome {o : ExecOutcome} (h : a.Sound) (hc : a.Counted)
    (ho : a.outcome = some o) (id : StepId) :
    a.failures id = if failedStep? o = some id then 1 else 0 := by
  split
  · next hid =>
      cases o with
      | stepFailed id' message =>
          cases hid
          have hle := (a.failures_le_calls id).trans (calls_le_one h id)
          have hpos : 0 < a.failures id := by
            rw [failures, List.countP_pos_iff]
            exact ⟨_, h.outcome id message ho, by simp [Fate.failed]⟩
          exact Nat.le_antisymm hle hpos
      | completed | sleep | event | invoke | failed => cases hid
  · next hid =>
      apply failures_eq_zero
      rintro f hf hfail rfl
      exact hid (hc.reported o ho f hf hfail)

theorem Calls.failed_mem {f : StepId × Fate} (h : Calls a a') (hf : f ∈ a'.functions)
    (hfail : f.2.failed = true) :
    f ∈ a.functions := by
  rcases h.mem_functions hf with hc | hold
  · rw [hc] at hfail
    cases hfail
  · exact hold

theorem Calls.failures_eq (h : Calls a a') (id : StepId) : a'.failures id = a.failures id := by
  obtain ⟨new, hnew, _⟩ := h.functions
  rw [failures, hnew, List.countP_append, List.countP_map, failures]
  have hzero : new.countP
    ((fun f : StepId × Fate => f.1 = id && f.2.failed) ∘ fun id => (id, Fate.calling)) = 0 := by
    rw [List.countP_eq_zero]
    intro id' _ hp
    simp [Fate.failed] at hp
  rw [hzero, Nat.zero_add]

theorem failures_setFate {fate fate' : Fate} (h : a.Sound) (hid : (id, fate) ∈ a.functions)
    (hf : fate.failed = false)
    (hf' : fate'.failed = false) (id' : StepId) :
    (a.setFate id fate').failures id' = a.failures id' := by
  rw [failures, setFate, List.countP_map, failures]
  apply List.countP_congr
  intro f hmem
  rw [Function.comp_apply]
  by_cases heq : f.1 = id
  · obtain rfl : f = (id, fate) := List.inj_on_of_nodup_map h.nodup hmem hid heq
    rw [if_pos rfl, hf, hf', Bool.and_false]
  · rw [if_neg heq]

theorem failed_setFate {fate' : Fate} {f : StepId × Fate} (hf' : fate'.failed = false)
    (hf : f ∈ (a.setFate id fate').functions) (hfail : f.2.failed = true) : f ∈ a.functions := by
  rcases mem_setFate.mp hf with ⟨rfl, _⟩ | ⟨hold, _⟩
  · rw [hf'] at hfail
    cases hfail
  · exact hold

theorem Counted.of_subset (h : a.Counted)
    (hsub : ∀ f ∈ a'.functions, f.2.failed = true → f ∈ a.functions)
    (ho : a'.outcome = a.outcome) : a'.Counted where
  single f hf hfail f' hf' hfail' :=
    h.single f (hsub f hf hfail) hfail f' (hsub f' hf' hfail') hfail'
  reported o ho' f hf hfail := h.reported o (ho ▸ ho') f (hsub f hf hfail) hfail

theorem counted_start (code : Code) (now : Time) (input : Json) (journal : List StepEntry) :
    (start code now input journal).Counted := by
  have hnone {f} (hf : f ∈ (start code now input journal).functions) (hfail : f.2.failed = true) :
    False := by
    rw [mem_functions_start hf] at hfail
    cases hfail
  exact ⟨fun f hf hfail => (hnone hf hfail).elim, fun _ _ f hf hfail => (hnone hf hfail).elim⟩

theorem outcome_of_tell {j : Nat} (h : a.tell now j = some a') : ∃ e, a.arriving[j]? = some e ∧
    a'.outcome = a.outcome.or ((a.code a.input (a.history ++ [e])).ending.map Ending.outcome) := by
  obtain ⟨e, he, rfl⟩ := Option.map_eq_some_iff.mp h
  exact ⟨e, he, rfl⟩

theorem Counted.tell {j : Nat} (h : a.Counted) (ht : a.tell now j = some a')
    (hlets : a.letsThrough j = true) : a'.Counted := by
  obtain ⟨e, he, hcalls⟩ := tell_calls ht
  have hsub {f} (hf : f ∈ a'.functions) (hfail : f.2.failed = true) : f ∈ a.functions :=
    hcalls.failed_mem hf hfail
  refine ⟨fun f hf hfail f' hf' hfail' =>
    h.single f (hsub hf hfail) hfail f' (hsub hf' hfail') hfail', ?_⟩
  intro o ho f hf hfail
  obtain ⟨e', he', houtcome⟩ := outcome_of_tell ht
  rw [houtcome] at ho
  rcases Option.or_eq_some_iff.mp ho with ho | ⟨hnone, ho⟩
  · exact h.reported o ho f (hsub hf hfail) hfail
  · obtain ⟨ending, hending, rfl⟩ := Option.map_eq_some_iff.mp ho
    rw [letsThrough, hnone, he', Option.isSome_none, Bool.false_or, Option.all_some, hending,
      Option.all_some,
      List.all_eq_true] at hlets
    have hf := hlets f (hsub hf hfail)
    rw [hfail, Bool.not_true, Bool.false_or, decide_eq_true_eq] at hf
    rw [failedStep?_outcome, hf]

theorem Counted.returned {result : Except String Json} (h : a.Counted)
    (hr : a.returned id result = some a')
    (hresult : ∀ message, result = .error message → a.outcome = none ∧ a.fails = false) :
    a'.Counted := by
  obtain ⟨_, rfl⟩ := returned_cases hr
  cases result with
  | ok json => exact h.of_subset (fun f hf hfail => failed_setFate rfl hf hfail) rfl
  | error message =>
      obtain ⟨hnone, hfails⟩ := hresult message rfl
      have hid {f} (hf : f ∈ (a.settle id (.error message)).functions) (hfail : f.2.failed = true) :
        f.1 = id := by
        rcases mem_setFate.mp hf with ⟨rfl, _⟩ | ⟨hold, _⟩
        · rfl
        · rw [fails, List.any_eq_false] at hfails
          exact absurd hfail (hfails f hold)
      refine ⟨fun f hf hfail f' hf' hfail' => (hid hf' hfail').trans (hid hf hfail).symm,
        fun o ho => ?_⟩
      rw [show (a.settle id (.error message)).outcome = a.outcome from rfl, hnone] at ho
      cases ho

theorem Counted.recorded {json : Json} (h : a.Counted) (hr : a.recorded id = some (json, a')) :
    a'.Counted := by
  obtain ⟨_, rfl⟩ := recorded_cases hr
  exact h.of_subset (fun f hf hfail => failed_setFate rfl hf hfail) rfl

end Attempt

def calls (as : List Attempt) (id : StepId) : Nat := as.foldr (fun a n => a.calls id + n) 0

def failures (as : List Attempt) (id : StepId) : Nat := as.foldr (fun a n => a.failures id + n) 0

theorem failures_le_calls (as : List Attempt) (id : StepId) : failures as id ≤ calls as id := by
  induction as with
  | nil => exact Nat.le_refl _
  | cons a as ih =>
      rw [failures, calls, List.foldr_cons, List.foldr_cons]
      exact Nat.add_le_add (a.failures_le_calls id) ih

theorem calls_eq_failures {as : List Attempt} {id : StepId}
    (h : ∀ a ∈ as, ∀ f ∈ a.functions, f.1 = id → f.2.failed = true) :
    calls as id = failures as id := by
  induction as with
  | nil => rfl
  | cons a as ih =>
      obtain ⟨ha, has⟩ := List.forall_mem_cons.mp h
      have hhead : a.calls id = a.failures id := by
        rw [Attempt.calls, Attempt.failures, List.count_eq_countP, List.countP_map]
        apply List.countP_congr
        intro f hf
        rw [Function.comp_apply, beq_iff_eq, Bool.and_eq_true, decide_eq_true_eq]
        exact ⟨fun heq => ⟨heq, ha f hf heq⟩, And.left⟩
      rw [calls, failures, List.foldr_cons, List.foldr_cons, hhead]
      exact congrArg _ (ih has)

def lastOutcome (σ : Parallel) : Option ExecOutcome := σ.attempts.head?.bind Attempt.outcome

def FailedBy (r : RunId) (σ : Parallel) (id : StepId) (n : Nat) : Prop :=
  ∃ message row, lastOutcome σ = some (.stepFailed id message) ∧ σ.store.runs.get? r = some row ∧
    row.status = .failed ∧ row.error = some (finalError id n message)

/-- No function of a step is called more than `max` times, and where no execution is under way, the
run has failed by a step if and only if the function of a step has thrown `max` times. -/
structure Budgeted (r : RunId) (max : Nat) (σ : Parallel) : Prop where
  calls : ∀ id, calls σ.attempts id ≤ max
  failed : σ.engine = none → ((∃ id n, FailedBy r σ id n) ↔ ∃ id, failures σ.attempts id = max)

/-- Each attempt starts after the functions before it have come back; a function throws only in an
attempt that has no outcome and no other failure, and the workflow function lets it through; and
nobody cancels the run. -/
def oneFailure (r : RunId) (σ : Parallel) (l : Time × Label) : Bool :=
  startsQuiet σ l && match l.2 with
    | .returned n _ (.error _) => σ.attempts[n]?.all (fun a => a.outcome.isNone && !a.fails)
    | .tell n j => σ.attempts[n]?.all (fun a => a.letsThrough j)
    | .other op => ((op.perform σ.store l.1).runs.get? r).all (fun row => row.status ≠ .cancelled)
    | _ => true

def uncounted (σ : Parallel) : Option Phase → Bool
  | some (.answered _) => true
  | _ => σ.awaiting

def Standing (r : RunId) (max : Nat) (σ : Parallel) : Option Phase → Prop
  | some .checked | some (.loaded _) | some (.answered _) =>
    (∀ row, σ.store.runs.get? r = some row → row.status ≠ .failed) ∧
      ∀ id, σ.store.stepAttempts r id < max
  | some (.counted id message n) =>
    (∀ row, σ.store.runs.get? r = some row → row.status ≠ .failed) ∧
      lastOutcome σ = some (.stepFailed id message) ∧
      n = σ.store.stepAttempts r id ∧ n ≤ max ∧ ∀ id', id' ≠ id → σ.store.stepAttempts r id' < max
  | none | some .begun | some .left =>
    (∀ id, max ≤ σ.store.stepAttempts r id → FailedBy r σ id max) ∧
      ∀ id n, FailedBy r σ id n → max ≤ σ.store.stepAttempts r id

/-- The invariant: the attempts of a step are its failures, up to the last attempt before its
outcome is counted. -/
structure Budget (r : RunId) (max : Nat) (σ : Parallel) (g : Option Phase) : Prop where
  counted : ∀ a ∈ σ.attempts, a.Counted
  ended : ∀ a ∈ σ.attempts.tail, a.outcome ≠ none
  waiting : σ.awaiting = true → ∃ journal, g = some (.loaded journal)
  last : σ.awaiting = false → ∀ a ∈ σ.attempts, a.outcome ≠ none
  answer : ∀ o, g = some (.answered o) → lastOutcome σ = some o
  column : ∀ id, σ.store.stepAttempts r id =
    failures (if uncounted σ g then σ.attempts.tail else σ.attempts) id
  tailCalls : ∀ id, Parallel.calls σ.attempts.tail id ≤ max
  tailFailures : ∀ id, Parallel.failures σ.attempts.tail id < max
  kept : ∀ row, σ.store.runs.get? r = some row → row.status ≠ .cancelled
  standing : Standing r max σ g

section Invariant

variable {E : WorkflowEngine} {codes : Nat → Code} {r : RunId} {max : Nat} {σ σ' : Parallel}
  {g g' : Option Phase}
  {l : Time × Label} {a a' : Attempt} {as : List Attempt} {s : Store} {row row' : RunRow}

theorem Budget.calls_le (h : Budget r max σ g) (hR : Remembers r σ g) (id : StepId) :
    calls σ.attempts id ≤ max := by
  cases hs : σ.attempts with
  | nil => exact Nat.zero_le _
  | cons a as =>
      have hcalls := h.tailCalls id
      have hfailures := h.tailFailures id
      have hsound := hR.sound
      have hmemo := hR.memo
      rw [hs] at hcalls hfailures hsound hmemo
      rw [List.tail_cons] at hcalls hfailures
      rw [calls, List.foldr_cons]
      by_cases hid : ∃ f ∈ a.functions, f.1 = id
      · obtain ⟨f, hf, rfl⟩ := hid
        have hthrown : ∀ b ∈ as, ∀ f' ∈ b.functions, f'.1 = f.1 → f'.2.failed = true := by
          intro b hb f' hf' heq
          by_contra hne
          obtain ⟨e, he, heid⟩ :=
            (List.pairwise_cons.mp hmemo).1 b hb f' hf' (Bool.eq_false_of_not_eq_true hne)
          exact (hsound a List.mem_cons_self).missed f hf e he (heid.trans heq)
        have hone := Attempt.calls_le_one (hsound a List.mem_cons_self) f.1
        have heq := calls_eq_failures hthrown
        rw [calls] at heq
        omega
      · have hzero : a.calls id = 0 := by
          rw [Attempt.calls, List.count_eq_zero, List.mem_map]
          exact hid
        rw [hzero, Nat.zero_add]
        exact hcalls

/-- A call of somebody else leaves a failed run as it is, and does not make it fail; only one
cancels it. -/
theorem row_of_foreign {c : Call} {now : Time} {locked : List RunId} (hc : owned r c = false)
    (hget : s.runs.get? r = some row) (hr : ((c.perform s now locked).1.runs.get? r).isSome) :
    ∃ row', (c.perform s now locked).1.runs.get? r = some row' ∧
      (row' = row ∨ row.status ≠ .failed ∧ row'.status ≠ .failed) ∧
      (row'.status = .cancelled → row.status = .cancelled ∨ ∃ root, c = .cancelRunTree root) := by
  have hid : row.id = r := Table.key_of_get? hget
  rcases Call.perform_run_cases c now locked hget with hsame | ⟨row', hch, hrow'⟩ | ⟨_, hnone⟩
  · exact ⟨row, hsame, .inl rfl, .inl⟩
  · refine ⟨row', hrow', ?_⟩
    cases hch with
    | completed | failed | sleeping | waitingEvent | waitingChild => simp [owned, hid] at hc
    | wokenParent _ h => exact ⟨.inr ⟨by rw [h]; nofun, nofun⟩, nofun⟩
    | released _ name payload targets hs hn hm => exact ⟨.inr ⟨by rw [hs]; nofun, nofun⟩, nofun⟩
    | timedOut _ timeout t hs ht hle => exact ⟨.inr ⟨by rw [hs]; nofun, nofun⟩, nofun⟩
    | cancelled _ root h =>
        refine ⟨.inr ⟨fun hs => ?_, nofun⟩, fun _ => .inr ⟨root, rfl⟩⟩
        rw [hs] at h
        cases h
  · rw [hnone] at hr
    cases hr

theorem Standing.congr (h : Standing r max σ g) (hstore : σ'.store = σ.store)
    (hlast : lastOutcome σ' = lastOutcome σ) :
    Standing r max σ' g := by
  unfold Standing FailedBy at h ⊢
  rw [hstore, hlast]
  exact h

theorem Budget.undisturbed (h : Budget r max σ g) (e : Option (M Unit))
    (hget : σ.store.runs.get? r = some row)
    (hget' : s.runs.get? r = some row')
    (hcases : row' = row ∨ row.status ≠ .failed ∧ row'.status ≠ .failed)
    (hcancelled : row'.status ≠ .cancelled)
    (hattempts : ∀ id, s.stepAttempts r id = σ.store.stepAttempts r id) :
    Budget r max { σ with store := s, engine := e } g := by
  have hunfailed (hf : ∀ row, σ.store.runs.get? r = some row → row.status ≠ .failed) :
      ∀ row, s.runs.get? r = some row → row.status ≠ .failed := by
    intro row₁ h₁
    obtain rfl : row' = row₁ := Option.some.inj (hget'.symm.trans h₁)
    rcases hcases with rfl | ⟨_, hne⟩
    · exact hf row' hget
    · exact hne
  have hfailedBy (id : StepId) (n : Nat) : FailedBy r { σ with store := s, engine := e } id n ↔
    FailedBy r σ id n := by
    constructor
    · rintro ⟨message, row₁, ho, h₁, hst, herr⟩
      obtain rfl : row' = row₁ := Option.some.inj (hget'.symm.trans h₁)
      rcases hcases with rfl | ⟨_, hne⟩
      · exact ⟨message, row', ho, hget, hst, herr⟩
      · exact absurd hst hne
    · rintro ⟨message, row₁, ho, h₁, hst, herr⟩
      obtain rfl : row = row₁ := Option.some.inj (hget.symm.trans h₁)
      rcases hcases with rfl | ⟨hne, _⟩
      · exact ⟨message, row', ho, hget', hst, herr⟩
      · exact absurd hst hne
  refine ⟨h.counted, h.ended, h.waiting, h.last, h.answer, fun id => ?_, h.tailCalls,
    h.tailFailures, ?_, ?_⟩
  · exact (hattempts id).trans (h.column id)
  · intro row₁ h₁
    obtain rfl : row' = row₁ := Option.some.inj (hget'.symm.trans h₁)
    exact hcancelled
  · have hst := h.standing
    unfold Standing at hst ⊢
    split at hst
    · exact ⟨hunfailed hst.1, fun id => (hattempts id).symm ▸ hst.2 id⟩
    · exact ⟨hunfailed hst.1, fun id => (hattempts id).symm ▸ hst.2 id⟩
    · exact ⟨hunfailed hst.1, fun id => (hattempts id).symm ▸ hst.2 id⟩
    · obtain ⟨hf, ho, hn, hle, hlt⟩ := hst
      exact ⟨hunfailed hf, ho, hn.trans (hattempts _).symm, hle,
        fun id hid => (hattempts id).symm ▸ hlt id hid⟩
    all_goals
      refine ⟨fun id hid => (hfailedBy id max).mpr (hst.1 id ((hattempts id) ▸ hid)),
        fun id n hid => ?_⟩
      exact (hattempts id).symm ▸ hst.2 id n ((hfailedBy id n).mp hid)

/-- The last attempt goes on. Once it has an outcome nothing in it throws. -/
theorem Budget.update (h : Budget r max σ g) (has : σ.attempts = a :: as) (hc : a'.Counted)
    (hout : ∀ o, a.outcome = some o → a'.outcome = some o)
    (hfail : a.outcome ≠ none → ∀ id, a'.failures id = a.failures id) :
    Budget r max { σ with attempts := a' :: as } g := by
  obtain ⟨hcounted, hended, hwaiting, hlast, hanswer, hcolumn, htailCalls, htailFailures, hkept,
    hstanding⟩ := h
  have hhead (hawait : σ.awaiting = false) : a.outcome ≠ none :=
    hlast hawait a (has ▸ List.mem_cons_self)
  have hsame (hawait : σ.awaiting = false) : lastOutcome { σ with attempts := a' :: as } =
    lastOutcome σ := by
    obtain ⟨o, ho⟩ := Option.ne_none_iff_exists'.mp (hhead hawait)
    rw [lastOutcome, lastOutcome, has]
    exact (hout o ho).trans ho.symm
  rw [has] at hcounted hended hlast hcolumn htailCalls htailFailures
  refine ⟨?_, hended, hwaiting, ?_, ?_, ?_, htailCalls, htailFailures, hkept, ?_⟩
  · exact List.forall_mem_cons.mpr ⟨hc, (List.forall_mem_cons.mp hcounted).2⟩
  · intro hawait
    obtain ⟨o, ho⟩ := Option.ne_none_iff_exists'.mp (hhead hawait)
    refine List.forall_mem_cons.mpr ⟨?_, (List.forall_mem_cons.mp (hlast hawait)).2⟩
    rw [hout o ho]
    nofun
  · intro o hg
    have ho := hanswer o hg
    rw [lastOutcome, has] at ho
    exact hout o ho
  · intro id
    rw [hcolumn id]
    cases hu : uncounted σ g with
    | true =>
        have hu' : uncounted { σ with attempts := a' :: as } g = true := hu
        rw [hu', if_pos rfl, if_pos rfl]
        rfl
    | false =>
        have hu' : uncounted { σ with attempts := a' :: as } g = false := hu
        have hawait : σ.awaiting = false := by
          unfold uncounted at hu
          split at hu
          · cases hu
          · exact hu
        rw [hu', if_neg Bool.false_ne_true, if_neg Bool.false_ne_true, failures, failures,
          List.foldr_cons, List.foldr_cons,
          hfail (hhead hawait) id]
  · by_cases hawait : σ.awaiting = true
    · obtain ⟨journal, rfl⟩ := hwaiting hawait
      exact hstanding
    · exact hstanding.congr rfl (hsame (Bool.eq_false_of_not_eq_true hawait))

theorem Budget.failures_last {o : ExecOutcome} (h : Budget r max σ g) (hR : Remembers r σ g)
    (ho : lastOutcome σ = some o)
    (id : StepId) : failures σ.attempts id = (if failedStep? o = some id then 1 else 0) +
      failures σ.attempts.tail id := by
  obtain ⟨a, hhead, hout⟩ := Option.bind_eq_some_iff.mp ho
  obtain ⟨as, has⟩ := List.head?_eq_some_iff.mp hhead
  have hmem : a ∈ σ.attempts := has ▸ List.mem_cons_self
  rw [← Attempt.failures_of_outcome (hR.sound a hmem) (h.counted a hmem) hout id, has]
  rfl

theorem Budget.column_counted (h : Budget r max σ g) (hc : uncounted σ g = false) (id : StepId) :
    σ.store.stepAttempts r id = failures σ.attempts id := by
  have hcolumn := h.column id
  rwa [hc, if_neg Bool.false_ne_true] at hcolumn

theorem Budget.phase (h : Budget r max σ g) (e : Option (M Unit)) (hawait : σ.awaiting = false)
    (hanswer : ∀ o, g' = some (.answered o) → lastOutcome σ = some o)
    (hcolumn : ∀ id, σ.store.stepAttempts r id =
    failures (if uncounted σ g' then σ.attempts.tail else σ.attempts) id)
    (hstanding : Standing r max σ g') : Budget r max { σ with engine := e } g' := by
  refine ⟨h.counted, h.ended, fun ht => ?_, h.last, hanswer, hcolumn, h.tailCalls, h.tailFailures,
    h.kept, ?_⟩
  · rw [hawait] at ht
    cases ht
  · exact hstanding.congr rfl rfl

theorem standing_of_below (hf : ∀ row, σ.store.runs.get? r = some row → row.status ≠ .failed)
    (hlt : ∀ id, σ.store.stepAttempts r id < max) : Standing r max σ none := by
  refine ⟨fun id hle => absurd hle (Nat.not_le_of_lt (hlt id)), fun id n hid => ?_⟩
  obtain ⟨message, row, _, hget, hs, _⟩ := hid
  exact absurd hs (hf row hget)

theorem isStepFailed_eq_false {o : ExecOutcome} : isStepFailed o = false ↔
    failedStep? o = none := by
  cases o <;> simp [isStepFailed, failedStep?]

/-- An outcome that is no failed step is not counted, and nothing has failed in the attempt. -/
theorem Budget.column_applying {o : ExecOutcome} (h : Budget r max σ (some (.answered o)))
    (hR : Remembers r σ (some (.answered o)))
    (ho : isStepFailed o = false) (id : StepId) :
    σ.store.stepAttempts r id = failures σ.attempts id := by
  rw [h.failures_last hR (h.answer o rfl), isStepFailed_eq_false.mp ho, if_neg nofun, Nat.zero_add]
  exact h.column id

theorem Budget.finished {phase : Phase} {res : Except String Unit} (h : Budget r max σ (some phase))
    (hR : Remembers r σ (some phase)) (hawait : σ.awaiting = false) (hg : phase.Closed max res) :
    Budget r max { σ with engine := none } none := by
  have hst := h.standing
  have hcolumn := h.column
  cases phase with
  | begun | left =>
      exact h.phase none hawait nofun hcolumn hst
  | checked | loaded journal =>
      exact h.phase none hawait nofun hcolumn (standing_of_below hst.1 hst.2)
  | answered o =>
      refine h.phase none hawait nofun (fun id => ?_) (standing_of_below hst.1 hst.2)
      show σ.store.stepAttempts r id =
        failures (if σ.awaiting then σ.attempts.tail else σ.attempts) id
      rw [hawait, if_neg Bool.false_ne_true]
      exact h.column_applying hR hg id
  | counted id message n =>
      obtain ⟨hf, _, hn, _, hlt⟩ := hst
      refine h.phase none hawait nofun hcolumn (standing_of_below hf (fun id' => ?_))
      by_cases hid : id' = id
      · rw [hid, ← hn]
        exact hg
      · exact hlt id' hid

theorem Budget.looked {phase : Phase} (h : Budget r max σ (some phase)) (e : Option (M Unit))
    (hawait : σ.awaiting = false)
    (hget : σ.store.runs.get? r = some row) :
    Budget r max { σ with engine := e } (some (phase.looked (some row))) := by
  have hst := h.standing
  have hsame : Budget r max { σ with engine := e } (some phase) :=
    h.phase e hawait h.answer h.column hst
  cases phase with
  | checked | loaded | counted | left => exact hsame
  | begun =>
      rw [Phase.looked, Option.any_some]
      split
      · next hexec =>
          -- a step with all its attempts would have failed the run
          have hne : row.status ≠ .failed := by
            intro hs
            rw [hs] at hexec
            cases hexec
          refine h.phase e hawait (fun _ ho => by cases ho) h.column
            ⟨fun row' h' => ?_, fun id => Nat.lt_of_not_le (fun hle => ?_)⟩
          · obtain rfl : row = row' := Option.some.inj (hget.symm.trans h')
            exact hne
          · obtain ⟨message, row', _, h', hs, _⟩ := hst.1 id hle
            obtain rfl : row = row' := Option.some.inj (hget.symm.trans h')
            exact hne hs
      · exact h.phase e hawait (fun _ ho => by cases ho) h.column hst
  | answered o =>
      rw [Phase.looked, Option.all_some, if_neg (by simpa using h.kept row hget)]
      exact hsame

theorem Budget.stepFailed {id : StepId} {message : String} {now : Time}
    (h : Budget r max σ (some (.answered (.stepFailed id message))))
    (hR : Remembers r σ (some (.answered (.stepFailed id message)))) (hawait : σ.awaiting = false)
    (e : Option (M Unit)) :
    Budget r max { σ with store := (σ.store.stepFailedAttempt r id message now).1, engine := e }
      (some (.counted id message (σ.store.stepFailedAttempt r id message now).2)) := by
  obtain ⟨hf, hlt⟩ := h.standing
  have hlast := h.answer _ rfl
  have hattempts (id' : StepId) := σ.store.stepAttempts_stepFailedAttempt r id' id message now
  refine ⟨h.counted, h.ended, fun ht => ?_, h.last, nofun, fun id' => ?_, h.tailCalls,
    h.tailFailures, h.kept, hf, hlast,
    rfl, ?_, fun id' hid => ?_⟩
  · dsimp only at ht
    rw [hawait] at ht
    cases ht
  · have hcolumn := h.column id'
    rw [uncounted, if_pos rfl] at hcolumn
    show (σ.store.stepFailedAttempt r id message now).1.stepAttempts r id' =
      failures (if σ.awaiting then σ.attempts.tail else σ.attempts) id'
    rw [hawait, if_neg Bool.false_ne_true, hattempts id', h.failures_last hR hlast, hcolumn,
      Nat.add_comm]
    congr 1
    by_cases hid : id' = id
    · rw [hid, if_pos rfl, failedStep?, if_pos rfl]
    · rw [if_neg hid, failedStep?, if_neg (fun heq => hid (Option.some.inj heq).symm)]
  · show (σ.store.stepFailedAttempt r id message now).1.stepAttempts r id ≤ max
    rw [hattempts id, if_pos rfl]
    exact hlt id
  · rw [hattempts id', if_neg hid]
    exact hlt id'

theorem Budget.runFailed {phase : Phase} {error : String} {now : Time}
    (h : Budget r max σ (some phase))
    (hR : Remembers r σ (some phase)) (hawait : σ.awaiting = false)
    (hget : σ.store.runs.get? r = some row)
    (hc : phase.mayCall r max (.runFailed r error)) (e : Option (M Unit)) :
    Budget r max { σ with store := σ.store.runFailed r error now, engine := e } (some .left) := by
  have hst := h.standing
  have hget' : (σ.store.runFailed r error now).runs.get? r =
    some (Store.failedRow error now row) := by
    refine (Store.get?_updateRun _ r (fun _ => true) (Store.failedRow error now) (fun _ => rfl)
      r).trans ?_
    rw [if_pos rfl, hget]
    rfl
  have hover (hcolumn : ∀ id, σ.store.stepAttempts r id = failures σ.attempts id)
      (hstanding : Standing r max { σ with store := σ.store.runFailed r error now } (some .left)) :
      Budget r max { σ with store := σ.store.runFailed r error now, engine := e } (some .left) := by
    refine ⟨h.counted, h.ended, fun ht => ?_, h.last, nofun, fun id => ?_, h.tailCalls,
      h.tailFailures, fun row' h' => ?_,
      hstanding.congr rfl rfl⟩
    · dsimp only at ht
      rw [hawait] at ht
      cases ht
    · show σ.store.stepAttempts r id =
        failures (if σ.awaiting then σ.attempts.tail else σ.attempts) id
      rw [hawait]
      exact hcolumn id
    · obtain rfl : Store.failedRow error now row = row' := Option.some.inj (hget'.symm.trans h')
      nofun
  rcases hc.2 with ⟨o, rfl, ho⟩ | ⟨id, message, n, rfl, hle, rfl⟩
  · refine hover (h.column_applying hR ho)
      ⟨fun id hle => absurd hle (Nat.not_le_of_lt (hst.2 id)), fun id n hid => ?_⟩
    obtain ⟨message, _, hlast, _⟩ := hid
    obtain rfl : o = .stepFailed id message := Option.some.inj ((h.answer o rfl).symm.trans hlast)
    cases ho
  · obtain ⟨_, hlast, hn, hmax, hlt⟩ := hst
    obtain rfl : n = max := Nat.le_antisymm hmax hle
    refine hover (h.column_counted hawait) ⟨fun id' hle' => ?_, fun id' n' hid => ?_⟩
    · by_cases hid : id' = id
      · subst hid
        exact ⟨message, _, hlast, hget', rfl, rfl⟩
      · exact absurd hle' (Nat.not_le_of_lt (hlt id' hid))
    · obtain ⟨message', _, hlast', _⟩ := hid
      cases Option.some.inj (hlast.symm.trans hlast')
      exact Nat.le_of_eq hn

theorem Budget.applied {phase : Phase} {f : RunRow → RunRow} {hf : ∀ row, (f row).id = row.id}
    (h : Budget r max σ (some phase))
    (hg : phase.applying) (hget : σ.store.runs.get? r = some row)
    (hstatus : (f row).status ≠ .failed ∧ (f row).status ≠ .cancelled) (e : Option (M Unit)) :
    Budget r max { σ with store := σ.store.updateRun r (fun _ => true) f hf, engine := e }
      (some phase) := by
  have hget' : (σ.store.updateRun r (fun _ => true) f hf).runs.get? r = some (f row) := by
    rw [Store.get?_updateRun, if_pos rfl, hget]
    rfl
  obtain ⟨o, rfl, _⟩ := hg
  exact h.undisturbed e hget hget' (.inr ⟨h.standing.1 row hget, hstatus.1⟩) hstatus.2
    (fun _ => rfl)

theorem Budget.foreign {c : Call} {now : Time} {locked : List RunId} (h : Budget r max σ g)
    (e : Option (M Unit))
    (hget : σ.store.runs.get? r = some row) (hc : owned r c = false)
    (hr : ((c.perform σ.store now locked).1.runs.get? r).isSome)
    (hcancel : ∀ row', (c.perform σ.store now locked).1.runs.get? r = some row' →
    row'.status = .cancelled →
      ∀ root, c ≠ .cancelRunTree root) :
    Budget r max { σ with store := (c.perform σ.store now locked).1, engine := e } g := by
  obtain ⟨row', hget', hcases, hcancelled⟩ := row_of_foreign hc hget hr
  refine h.undisturbed e hget hget' hcases (fun hs => ?_) (fun id => ?_)
  · rcases hcancelled hs with hs | ⟨root, heq⟩
    · exact h.kept row hget hs
    · exact hcancel row' hget' hs root heq
  · refine Store.stepAttempts_perform ?_ hr
    rintro st error rfl
    simp [owned] at hc

theorem Budget.called {phase : Phase} {c : Call} {now : Time} (h : Budget r max σ (some phase))
    (hR : Remembers r σ (some phase))
    (hawait : σ.awaiting = false) (hget : σ.store.runs.get? r = some row)
    (hc : phase.mayCall r max c)
    (hr : ((c.perform σ.store now []).1.runs.get? r).isSome) (e : Option (M Unit)) :
    Budget r max { σ with store := (c.perform σ.store now []).1, engine := e }
      (some (phase.next r (.store c) (.ok (c.perform σ.store now []).2))) := by
  cases c with
  | push | wakeParent | createRun => exact h.foreign e hget rfl hr (fun _ _ _ _ heq => by cases heq)
  | recordStep k st kind result =>
      have hne : kind ≠ .run := hc
      exact h.foreign e hget (by simp [owned, hne]) hr (fun _ _ _ _ heq => by cases heq)
  | getRun k =>
      show Budget r max { σ with engine := e }
        (some (if k = r then phase.looked (σ.store.runs.get? k) else phase))
      split
      · next heq =>
          rw [heq, hget]
          exact h.looked e hawait hget
      · exact h.phase e hawait h.answer h.column h.standing
  | loadJournal k =>
      obtain ⟨rfl, rfl⟩ := hc
      exact h.phase e hawait (fun _ ho => by cases ho) h.column h.standing
  | stepFailedAttempt k st error =>
      obtain ⟨rfl, rfl⟩ := hc
      exact h.stepFailed hR hawait e
  | runFailed k error =>
      have hk : k = r := hc.1
      subst hk
      exact h.runFailed hR hawait hget hc e
  | runCompleted k | runSleeping k | runWaitingEvent k | runWaitingChild k =>
      obtain ⟨rfl, hg⟩ := hc
      refine h.applied hg hget ⟨?_, ?_⟩ e <;> intro hs <;> cases hs
  | _ => exact hc.elim

theorem Budget.opened {journal : List StepEntry} {code : Code} {now : Time} {input : Json}
    (h : Budget r max σ (some (.loaded journal)))
    (hR : Remembers r σ (some (.loaded journal))) (hawait : σ.awaiting = false)
    (e : Option (M Unit)) :
    Budget r max
      { σ with
          engine := e, attempts := .start code now input journal :: σ.attempts, awaiting := true }
      (some (.loaded journal)) := by
  have hcolumn := h.column_counted hawait
  refine ⟨?_, h.last hawait, fun _ => ⟨journal, rfl⟩, nofun, nofun, hcolumn, h.calls_le hR,
    fun id => ?_, h.kept, h.standing⟩
  · exact List.forall_mem_cons.mpr ⟨Attempt.counted_start code now input journal, h.counted⟩
  · rw [List.tail_cons, ← hcolumn id]
    exact h.standing.2 id

theorem Budget.answered {journal : List StepEntry} {o : ExecOutcome}
    (h : Budget r max σ (some (.loaded journal)))
    (hawait : σ.awaiting = true) (has : σ.attempts = a :: as) (ho : a.outcome = some o)
    (e : Option (M Unit)) :
    Budget r max { σ with engine := e, awaiting := false } (some (.answered o)) := by
  have hlast : lastOutcome σ = some o := by
    rw [lastOutcome, has]
    exact ho
  refine ⟨h.counted, h.ended, nofun, fun _ => ?_, fun o' hg => ?_, fun id => ?_, h.tailCalls,
    h.tailFailures, h.kept, h.standing⟩
  · have hended := h.ended
    rw [has, List.tail_cons] at hended
    dsimp only
    rw [has]
    refine List.forall_mem_cons.mpr ⟨?_, hended⟩
    rw [ho]
    nofun
  · cases hg
    exact hlast
  · have hcol : σ.store.stepAttempts r id =
      failures (if σ.awaiting then σ.attempts.tail else σ.attempts) id := h.column id
    rwa [hawait, if_pos rfl] at hcol

theorem Budget.told {n j : Nat} {now : Time} (h : Budget r max σ g) (hR : Remembers r σ g)
    (ha : σ.attempts[n]? = some a)
    (ht : a.tell now j = some a') (hlets : a.letsThrough j = true) :
    Budget r max { σ with attempts := σ.attempts.set n a' } g := by
  obtain ⟨rfl, as, has⟩ := hR.head ha (Attempt.not_quiet_of_tell ht)
  have hmem : a ∈ σ.attempts := has ▸ List.mem_cons_self
  obtain ⟨e, _, hcalls⟩ := Attempt.tell_calls ht
  obtain ⟨_, _, houtcome⟩ := Attempt.outcome_of_tell ht
  rw [has, List.set_cons_zero]
  refine h.update has ((h.counted a hmem).tell ht hlets) (fun o ho => ?_)
    (fun _ id => hcalls.failures_eq id)
  rw [houtcome, ho, Option.some_or]

theorem Budget.returned {n : Nat} {id : StepId} {result : Except String Json} (h : Budget r max σ g)
    (hR : Remembers r σ g)
    (ha : σ.attempts[n]? = some a) (ht : a.returned id result = some a')
    (hresult : ∀ message, result = .error message → a.outcome = none ∧ a.fails = false) :
    Budget r max { σ with attempts := σ.attempts.set n a' } g := by
  have hcounted {b : Attempt} (hb : b ∈ σ.attempts) (hr : b.returned id result = some a')
      (hres : ∀ message, result = .error message → b.outcome = none ∧ b.fails = false) :
        a'.Counted :=
    (h.counted b hb).returned hr hres
  have hmem := List.mem_of_getElem? ha
  have hc := hcounted hmem ht hresult
  obtain ⟨hcalling, rfl⟩ := Attempt.returned_cases ht
  obtain ⟨rfl, as, has⟩ := hR.head ha (Attempt.not_quiet_of_fate hcalling rfl)
  have hset : σ.attempts.set 0 (a.settle id result) = a.settle id result :: as := by
    rw [has, List.set_cons_zero]
  rw [hset]
  cases result with
  | ok json =>
      exact h.update has hc (fun _ ho => ho)
        (fun _ id' => Attempt.failures_setFate (hR.sound a hmem) hcalling rfl rfl id')
  | error message =>
      exact h.update has hc (fun _ ho => ho) (fun hne => absurd (hresult message rfl).1 hne)

theorem Budget.recorded {n : Nat} {id : StepId} {json : Json} {now : Time} (h : Budget r max σ g)
    (hR : Remembers r σ g)
    (hget : σ.store.runs.get? r = some row) (ha : σ.attempts[n]? = some a)
    (ht : a.recorded id = some (json, a')) :
    Budget r max { σ with
      store := σ.store.recordStep r id .run (some json) now
      attempts := σ.attempts.set n a' } g := by
  have hmem := List.mem_of_getElem? ha
  have hc := (h.counted a hmem).recorded ht
  obtain ⟨hrecording, rfl⟩ := Attempt.recorded_cases ht
  obtain ⟨rfl, as, has⟩ := hR.head ha (Attempt.not_quiet_of_fate hrecording rfl)
  have hset : σ.attempts.set 0 ((a.setFate id .recorded).arrive id (.value (some json))) =
      (a.setFate id .recorded).arrive id (.value (some json)) :: as := by
        rw [has, List.set_cons_zero]
  rw [hset]
  have hstore : Budget r max { σ with store := σ.store.recordStep r id .run (some json) now } g :=
    h.undisturbed σ.engine hget hget (.inl rfl) (h.kept row hget)
      (fun _ => Store.stepAttempts_recordStep r id .run (some json) now)
  exact hstore.update has hc (fun _ ho => ho)
    (fun _ id' => Attempt.failures_setFate (hR.sound a hmem) hrecording rfl rfl id')

theorem Move.budget (h : Move r max σ g l σ' g') (hrow : Row E r max σ.store) (hR : Remembers r σ g)
    (hB : Budget r max σ g)
    (hok : oneFailure r σ l = true) : Budget r max σ' g' := by
  have hrow' := h.row hrow
  obtain ⟨row, hget, _⟩ := hrow
  obtain ⟨_, hok⟩ := Bool.and_eq_true_iff.mp hok
  cases h with
  | begun l e hawait => exact hB.phase e hawait nofun hB.column hB.standing
  | finished l g res hawait hg => exact hB.finished hR hawait hg
  | called now rand g c k hawait he hc =>
      refine hB.called hR hawait hget hc ?_ _
      obtain ⟨row', hget', _⟩ := hrow'
      rw [hget']
      rfl
  | read l g e hawait => exact hB.phase e hawait hB.answer hB.column hB.standing
  | opened l journal code now input e hawait => exact hB.opened hR hawait e
  | answered l journal a as o e hawait has ho => exact hB.answered hawait has ho e
  | told g now n j a a' ha ht =>
      have hlets : σ.attempts[n]?.all (fun a => a.letsThrough j) = true := hok
      rw [ha, Option.all_some] at hlets
      exact hB.told hR ha ht hlets
  | returned g now n id result a a' ha ht =>
      refine hB.returned hR ha ht ?_
      rintro message rfl
      have hfirst : σ.attempts[n]?.all (fun a => a.outcome.isNone && !a.fails) = true := hok
      rw [ha, Option.all_some, Bool.and_eq_true, Option.isNone_iff_eq_none,
        Bool.not_eq_true'] at hfirst
      exact hfirst
  | recorded g now n id json a a' ha ht => exact hB.recorded hR hget ha ht
  | other g now op hp hr =>
      cases op with
      | call c locked =>
          rw [permitted, Bool.not_eq_true'] at hp
          refine hB.foreign σ.engine hget hp hr (fun row' hget' hs => ?_)
          have hne : ((c.perform σ.store now locked).1.runs.get? r).all
            (fun row => row.status ≠ .cancelled) = true := hok
          rw [hget', Option.all_some, decide_eq_true_eq] at hne
          exact absurd hs hne
      | claim | renewLeases =>
          exact hB.undisturbed σ.engine hget hget (.inl rfl) (hB.kept row hget) (fun _ => rfl)

structure NewRun (s : Store) (r : RunId) (row : RunRow) : Prop where
  found : s.getRun r = some row
  runnable : row.status = .runnable
  steps : ∀ id, s.steps.get? (r, id) = none

theorem NewRun.budget (h : NewRun s r row) (hmax : 0 < max) : Budget r max (init s) none := by
  have hzero (id : StepId) : s.stepAttempts r id = 0 := by
    rw [Store.stepAttempts, h.steps id]
    rfl
  refine ⟨nofun, nofun, nofun, nofun, nofun, hzero, fun _ => Nat.zero_le _, fun _ => hmax,
    fun row' hget => ?_, ?_, ?_⟩
  · obtain rfl : row = row' := Option.some.inj (h.found.symm.trans hget)
    rw [h.runnable]
    nofun
  · intro id hle
    rw [show (init s).store.stepAttempts r id = 0 from hzero id] at hle
    omega
  · rintro id n ⟨_, _, hlast, _⟩
    cases hlast

theorem Budget.budgeted (h : Budget r max σ g) (hR : Remembers r σ g) (hf : Follows E r max σ g) :
    Budgeted r max σ := by
  refine ⟨h.calls_le hR, fun hnone => ?_⟩
  cases g with
  | some g =>
      obtain ⟨p, hp, _⟩ := hf
      rw [hnone] at hp
      cases hp
  | none =>
      have hcolumn := h.column_counted hf.2
      obtain ⟨hends, hhonest⟩ := h.standing
      constructor
      · rintro ⟨id, n, hid⟩
        have hle := hhonest id n hid
        rw [hcolumn id] at hle
        exact ⟨id, Nat.le_antisymm ((failures_le_calls _ id).trans (h.calls_le hR id)) hle⟩
      · rintro ⟨id, hid⟩
        exact ⟨id, max, hends id (by rw [hcolumn id, hid])⟩

theorem oneFailure_startsQuiet (σ : Parallel) (l : Time × Label) (h : oneFailure r σ l = true) :
    startsQuiet σ l = true :=
  (Bool.and_eq_true_iff.mp h).1

theorem budget_run (hnew : NewRun s r row) (hmax : 0 < stepMaxAttempts E row)
    (h : Run (step E codes r) (oneFailure r) (init s) σ) :
    Budgeted r (stepMaxAttempts E row) σ := by
  have hinv : Row E r (stepMaxAttempts E row) σ.store ∧
      ∃ g, Follows E r (stepMaxAttempts E row) σ g ∧ Remembers r σ g ∧
        Budget r (stepMaxAttempts E row) σ g := by
    refine h.invariant (fun σ => Row E r (stepMaxAttempts E row) σ.store ∧
      ∃ g, Follows E r (stepMaxAttempts E row) σ g ∧ Remembers r σ g ∧
        Budget r (stepMaxAttempts E row) σ g) ?_ ?_
    · exact ⟨⟨row, hnew.found, rfl⟩, none, ⟨rfl, rfl⟩, ⟨nofun, nofun, .nil, nofun, nofun⟩,
        hnew.budget hmax⟩
    · rintro σ l σ' _ ⟨hrow, g, hf, hR, hB⟩ hok hstep
      obtain ⟨g', hmove, hf'⟩ := step_move hf hrow hstep
      exact ⟨hmove.row hrow, g', hf', hmove.remembers hrow hR (oneFailure_startsQuiet σ l hok),
        hmove.budget hrow hR hB hok⟩
  obtain ⟨_, g, hf, hR, hB⟩ := hinv
  exact hB.budgeted hR hf

end Invariant

theorem stepMaxAttempts_pos {E : WorkflowEngine} (h : ∀ cfg ∈ E.configs, 0 < cfg.stepMaxAttempts)
    (row : RunRow) :
    0 < stepMaxAttempts E row := by
  rw [stepMaxAttempts]
  cases hc : E.config row.workflow with
  | none => exact Nat.succ_pos 2
  | some cfg => exact h cfg (List.mem_of_find?_eq_some hc)

/-- The step budget, in a run in which each attempt has one failure at most, which is its outcome.
Registration raises `step_max_attempts` to 1. -/
theorem step_budget {E : WorkflowEngine} {codes : Nat → Code} {r : RunId} {s : Store} {row : RunRow}
    {σ : Parallel}
    (hcfg : ∀ cfg ∈ E.configs, 0 < cfg.stepMaxAttempts) (hnew : NewRun s r row)
    (h : Run (step E codes r) (oneFailure r) (init s) σ) : Budgeted r (stepMaxAttempts E row) σ :=
  budget_run hnew (stepMaxAttempts_pos hcfg row) h

/-- The step functions of the last attempt: one throws, and its failure is counted. -/
def declines (id : StepId) (now : Time) : List (Time × Label) :=
  [(now, .returned 0 id (.error "declined")), (now, .tell 0 0)] ++ retrying now

theorem newRun_oneRun (workflow : String) :
    ∃ row, NewRun (oneRun workflow) 0 row ∧ stepMaxAttempts ⟨[]⟩ row = 3 :=
  ⟨_, ⟨rfl, rfl, fun _ => rfl⟩, rfl⟩

/-- The mail is sent in the first attempt, and the charge is declined in all three. -/
theorem step_budget_declined : ∃ σ,
    Run (step ⟨[]⟩ (fun _ => stepAll ["charge", "mail"]) 0) (oneFailure 0)
      (init (oneRun "order")) σ ∧
      failures σ.attempts "charge" = 3 ∧ Budgeted 0 3 σ := by
  obtain ⟨row, hnew, hmax⟩ := newRun_oneRun "order"
  obtain ⟨σ, h, hp⟩ :=
    Run.exists_of_replay (step ⟨[]⟩ (fun _ => stepAll ["charge", "mail"]) 0) (oneFailure 0)
    (init (oneRun "order"))
    (opening "order" 0 ++
      [(1, .returned 0 "mail" (.ok .null)), (1, .record 0 "mail"), (1, .tell 0 0)] ++
      declines "charge" 2 ++ opening "order" 1000 ++ [(1000, .tell 0 0)] ++
        declines "charge" 1001 ++
      opening "order" 3000 ++ [(3000, .tell 0 0)] ++
        [(3001, .returned 0 "charge" (.error "declined")),
          (3001, .tell 0 0)] ++
      List.replicate 5 (3001, .engine 0))
    (fun σ => failures σ.attempts "charge" = 3) (by decide +kernel)
  refine ⟨σ, h, of_decide_eq_true hp, ?_⟩
  have hbudget := step_budget (E := ⟨[]⟩) (fun _ hmem => absurd hmem List.not_mem_nil) hnew h
  rwa [hmax] at hbudget

/-- The charge and the mail fail in every attempt, in turn first: only the first failure of an
attempt is counted, and the charge is tried a fourth time. -/
theorem step_budget_exceeded : ∃ σ,
    Run (step ⟨[]⟩ (fun _ => stepAll ["charge", "mail"]) 0) (fun _ _ => true)
      (init (oneRun "order")) σ ∧ ¬ Budgeted 0 3 σ := by
  let late (id : StepId) (now : Time) : List
    (Time × Label) := [(now, .returned 0 id (.error "declined")), (now, .tell 0 0)]
  obtain ⟨σ, h, hp⟩ :=
    Run.exists_of_replay (step ⟨[]⟩ (fun _ => stepAll ["charge", "mail"]) 0) (fun _ _ => true)
    (init (oneRun "order"))
    (opening "order" 0 ++ declines "charge" 1 ++ late "mail" 2 ++ opening "order" 1000 ++
      declines "mail" 1001 ++
      late "charge" 1002 ++ opening "order" 3000 ++ declines "charge" 3001 ++ late "mail" 3002 ++
        opening "order" 7000)
    (fun σ => calls σ.attempts "charge" = 4) (by decide +kernel)
  refine ⟨σ, h, fun hb => ?_⟩
  have hle := hb.calls "charge"
  rw [of_decide_eq_true hp] at hle
  omega

end Parallel

end ZenZip
