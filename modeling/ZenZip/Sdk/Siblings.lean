import ZenZip.Sdk.Phases

namespace ZenZip.Parallel

open Lib

/-- The next call of the engine loads the journal for an attempt. -/
def loads (σ : Parallel) : Label → Bool
  | .engine _ => match σ.engine with
    | some (.call (.store (.loadJournal _)) _) => true
    | _ => false
  | _ => false

/-- An attempt loads its journal only when nothing of the attempts before it goes on. -/
def startsQuiet (σ : Parallel) (l : Time × Label) : Bool :=
  !loads σ l.2 || σ.attempts.all Attempt.quiet

/-- What the retry `b` knows of an attempt `a` before it: the results of all step functions that
succeed, so that it calls again only those that have failed. -/
structure Memoised (b a : Attempt) : Prop where
  recorded : ∀ f ∈ a.functions, f.2.succeeded = true → ∃ e ∈ b.journal, e.id = f.1
  retried : ∀ f ∈ a.functions, ∀ f' ∈ b.functions, f'.1 = f.1 → f.2.failed = true

namespace Attempt

variable {a a' : Attempt} {now : Time} {id : StepId}

theorem calls_react (now : Time) (a : Attempt) :
    Calls a { a.react now with outcome := a.outcome } := by
  have hc := calls_foldl now (a.code a.input a.history).calls a
  exact ⟨hc.code, hc.input, hc.journal, hc.history, rfl, hc.usedIds, hc.functions, hc.arriving⟩

theorem Calls.mem_functions {f : StepId × Fate} (h : Calls a a') (hf : f ∈ a'.functions) :
    f.2 = .calling ∨ f ∈ a.functions := by
  obtain ⟨new, hnew, _⟩ := h.functions
  rw [hnew] at hf
  rcases List.mem_append.mp hf with hf | hf
  · obtain ⟨id, _, rfl⟩ := List.mem_map.mp hf
    exact .inl rfl
  · exact .inr hf

theorem journal_start (code : Code) (now : Time) (input : Json) (journal : List StepEntry) :
    (start code now input journal).journal = journal := (calls_react now _).journal

theorem mem_functions_start {code : Code} {input : Json} {journal : List StepEntry}
    {f : StepId × Fate}
    (hf : f ∈ (start code now input journal).functions) : f.2 = .calling :=
  ((calls_react now _).mem_functions hf).resolve_right List.not_mem_nil

theorem tell_calls {j : Nat} (h : a.tell now j = some a') : ∃ e, a.arriving[j]? = some e ∧
    Calls { a with arriving := a.arriving.eraseIdx j, history := a.history ++ [e] }
      { a' with outcome := a.outcome } := by
  obtain ⟨e, he, rfl⟩ := Option.map_eq_some_iff.mp h
  exact ⟨e, he, calls_react now _⟩

theorem journal_settle (a : Attempt) (id : StepId) (result : Except String Json) :
    (a.settle id result).journal = a.journal := by
  cases result <;> rfl

theorem quiet_iff : a.quiet = true ↔ (∀ f ∈ a.functions, f.2.settled = true) ∧ a.arriving = [] := by
  rw [quiet, Bool.and_eq_true, List.all_eq_true, List.isEmpty_iff]

theorem recorded_of_quiet {f : StepId × Fate} (h : a.quiet = true) (hf : f ∈ a.functions)
    (hne : f.2.failed = false) :
    f.2 = .recorded := by
  have hs := (quiet_iff.mp h).1 f hf
  cases hfate : f.2 with
  | recorded => rfl
  | calling | recording json =>
      rw [hfate] at hs
      cases hs
  | threw message =>
      rw [hfate] at hne
      cases hne

theorem not_quiet_of_tell {j : Nat} (h : a.tell now j = some a') : a.quiet = false := by
  obtain ⟨e, he, _⟩ := tell_calls h
  rw [← Bool.not_eq_true, quiet_iff]
  rintro ⟨_, hn⟩
  rw [hn] at he
  cases he

theorem not_quiet_of_fate {fate : Fate} (h : (id, fate) ∈ a.functions) (hs : fate.settled = false) :
    a.quiet = false := by
  rw [← Bool.not_eq_true, quiet_iff]
  rintro ⟨hall, _⟩
  have ht : fate.settled = true := hall _ h
  rw [hs] at ht
  cases ht

end Attempt

section Memo

variable {E : WorkflowEngine} {codes : Nat → Code} {r : RunId} {max : Nat} {σ σ' : Parallel}
  {g g' : Option Phase}
  {l : Time × Label} {a a' : Attempt} {n : Nat}

theorem Move.journaled (h : Move r max σ g l σ' g') (hrow : Row E r max σ.store) {id : StepId}
    (hj : σ.store.journaled r id = true) : σ'.store.journaled r id = true := by
  have hrow' := h.row hrow
  obtain ⟨e, he, hc⟩ := Store.journaled_iff.mp hj
  have hcall (c : Call) (now : Time) (locked : List RunId)
    (hs : Row E r max (c.perform σ.store now locked).1) :
      (c.perform σ.store now locked).1.journaled r id = true := by
    obtain ⟨row, hget, _⟩ := hs
    obtain ⟨e', he', hc', _⟩ := c.perform_entry now locked (by rw [hget]; rfl) he hc
    exact Store.journaled_iff.mpr ⟨e', he', hc'⟩
  cases h with
  | called now rand g c k ha hengine hmay => exact hcall c now [] hrow'
  | recorded g now n id' json a a' ha h =>
      exact hcall (.recordStep r id' .run (some json)) now [] hrow'
  | other g now op hp hr =>
      cases op with
      | call c locked => exact hcall c now locked hrow'
      | claim | renewLeases => exact hj
  | begun | finished | read | opened | answered | told | returned => exact hj

/-- The invariant: the attempts before the last are over, and what their functions have given is in
every journal loaded since. -/
structure Remembers (r : RunId) (σ : Parallel) (g : Option Phase) : Prop where
  sound : ∀ a ∈ σ.attempts, a.Sound
  recorded : ∀ a ∈ σ.attempts, ∀ id, (id, .recorded) ∈ a.functions → σ.store.journaled r id = true
  memo : σ.attempts.Pairwise
    (fun b a => ∀ f ∈ a.functions, f.2.failed = false → ∃ e ∈ b.journal, e.id = f.1)
  quiet : ∀ a ∈ σ.attempts.tail, a.quiet = true
  loaded : ∀ journal, g = some (.loaded journal) → σ.awaiting = false →
    ∀ a ∈ σ.attempts, a.quiet = true ∧
    ∀ f ∈ a.functions, f.2.failed = false → ∃ e ∈ journal, e.id = f.1

theorem Remembers.head (h : Remembers r σ g) (ha : σ.attempts[n]? = some a) (hq : a.quiet = false) :
    n = 0 ∧ ∃ as, σ.attempts = a :: as := by
  cases hs : σ.attempts with
  | nil =>
      rw [hs] at ha
      cases ha
  | cons b as =>
      rw [hs] at ha
      cases n with
      | zero =>
          cases ha
          exact ⟨rfl, as, rfl⟩
      | succ n =>
          have hmem : a ∈ σ.attempts.tail := by
            rw [hs]
            exact List.mem_of_getElem? ha
          rw [h.quiet a hmem] at hq
          cases hq

theorem Remembers.update {s : Store} (h : Remembers r σ g) (ha : σ.attempts[n]? = some a)
    (hq : a.quiet = false)
    (hsound : a'.Sound) (hjournal : a'.journal = a.journal)
    (hstore : ∀ id, σ.store.journaled r id = true → s.journaled r id = true)
    (hrec : ∀ id, (id, .recorded) ∈ a'.functions → s.journaled r id = true) :
    Remembers r { σ with store := s, attempts := σ.attempts.set n a' } g := by
  obtain ⟨rfl, as, hs⟩ := h.head ha hq
  have hset : σ.attempts.set 0 a' = a' :: as := by rw [hs, List.set_cons_zero]
  obtain ⟨hsound', hrecorded, hmemo, hquiet, hloaded⟩ := h
  rw [hs] at hsound' hrecorded hmemo hquiet hloaded
  rw [hset]
  refine ⟨?_, ?_, ?_, hquiet, ?_⟩
  · exact List.forall_mem_cons.mpr ⟨hsound, (List.forall_mem_cons.mp hsound').2⟩
  · refine List.forall_mem_cons.mpr ⟨hrec, fun b hb id hid => ?_⟩
    exact hstore id (hrecorded b (List.mem_cons_of_mem _ hb) id hid)
  · obtain ⟨hhead, htail⟩ := List.pairwise_cons.mp hmemo
    refine List.pairwise_cons.mpr ⟨?_, htail⟩
    rw [hjournal]
    exact hhead
  · intro journal hg hawait
    have hquiet := (hloaded journal hg hawait a List.mem_cons_self).1
    rw [hquiet] at hq
    cases hq

theorem loaded_of_next {g : Phase} {c : Call} {v : c.Ret} {journal : List StepEntry}
    (h : g.next r (.store c) (.ok v) = .loaded journal) :
    (∃ k, c = .loadJournal k) ∨ g = .loaded journal := by
  cases c with
  | loadJournal k => exact .inl ⟨k, rfl⟩
  | getRun k =>
      right
      rw [Phase.next] at h
      split at h
      · unfold Phase.looked at h
        split at h
        · split at h <;> cases h
        · split at h <;> cases h
        · exact h
      · exact h
  | stepFailedAttempt | runFailed => cases h
  | _ => exact .inr h

theorem Move.remembers (h : Move r max σ g l σ' g') (hrow : Row E r max σ.store)
    (hI : Remembers r σ g)
    (hok : startsQuiet σ l = true) : Remembers r σ' g' := by
  have hkept := fun id (hj : σ.store.journaled r id = true) => h.journaled hrow hj
  cases h with
  | begun l e he => exact ⟨hI.sound, hI.recorded, hI.memo, hI.quiet, nofun⟩
  | finished l g res ha hg => exact ⟨hI.sound, hI.recorded, hI.memo, hI.quiet, nofun⟩
  | read l g e ha => exact ⟨hI.sound, hI.recorded, hI.memo, hI.quiet, hI.loaded⟩
  | answered l journal a as o e ha has ho => exact ⟨hI.sound, hI.recorded, hI.memo, hI.quiet, nofun⟩
  | other g now op hp hr =>
      exact ⟨hI.sound, fun a ha id hid => hkept id (hI.recorded a ha id hid), hI.memo, hI.quiet,
        hI.loaded⟩
  | called now rand g c k ha he hc =>
      refine ⟨hI.sound, fun a ha id hid => hkept id (hI.recorded a ha id hid), hI.memo,
        hI.quiet, ?_⟩
      intro journal hg hawait a hmem
      rcases loaded_of_next (Option.some.inj hg) with ⟨k', rfl⟩ | hsame
      · -- the attempts are all quiet, and what they have recorded is in the journal
        obtain ⟨rfl, rfl⟩ := hc
        cases hg
        have hload : loads σ (.engine rand) = true := by rw [loads, he]
        rw [startsQuiet, hload, Bool.not_true, Bool.false_or, List.all_eq_true] at hok
        refine ⟨hok a hmem, fun f hf hne => ?_⟩
        have hrec : (f.1, Fate.recorded) ∈ a.functions := by
          rw [← Attempt.recorded_of_quiet (hok a hmem) hf hne]
          exact hf
        exact Replay.journaled_iff_mem.mp (hI.recorded a hmem f.1 hrec)
      · exact hI.loaded journal (congrArg some hsame) ha a hmem
  | opened l journal code now input e ha =>
      have hall := hI.loaded journal rfl ha
      refine ⟨?_, ?_, ?_, fun a hmem => (hall a hmem).1, nofun⟩
      · exact List.forall_mem_cons.mpr ⟨Attempt.sound_start code now input journal, hI.sound⟩
      · refine List.forall_mem_cons.mpr ⟨fun id hid => ?_, hI.recorded⟩
        cases Attempt.mem_functions_start hid
      · refine List.pairwise_cons.mpr ⟨fun a hmem => ?_, hI.memo⟩
        rw [Attempt.journal_start]
        exact (hall a hmem).2
  | told g now n j a a' ha ht =>
      obtain ⟨e, _, hcalls⟩ := Attempt.tell_calls ht
      have hmem := List.mem_of_getElem? ha
      refine hI.update ha (Attempt.not_quiet_of_tell ht) ((hI.sound a hmem).tell ht) hcalls.journal
        (fun _ h => h) ?_
      intro id hid
      rcases hcalls.mem_functions (f := (id, .recorded)) hid with hc | hold
      · cases hc
      · exact hI.recorded a hmem id hold
  | returned g now n id result a a' ha ht =>
      have hmem := List.mem_of_getElem? ha
      have hsound := (hI.sound a hmem).returned ht
      obtain ⟨hcalling, rfl⟩ := Attempt.returned_cases ht
      refine hI.update ha (Attempt.not_quiet_of_fate hcalling rfl) hsound
        (Attempt.journal_settle a id result) (fun _ h => h) ?_
      intro id' hid'
      have hold : (id', Fate.recorded) ∈ a.functions := by
        cases result with
        | error message | ok json =>
            rcases Attempt.mem_setFate.mp hid' with ⟨heq, _⟩ | ⟨hold, _⟩
            · cases heq
            · exact hold
      exact hI.recorded a hmem id' hold
  | recorded g now n id json a a' ha ht =>
      have hmem := List.mem_of_getElem? ha
      have hsound := (hI.sound a hmem).recorded ht
      obtain ⟨hrecording, rfl⟩ := Attempt.recorded_cases ht
      refine hI.update ha (Attempt.not_quiet_of_fate hrecording rfl) hsound rfl hkept ?_
      intro id' hid'
      rcases Attempt.mem_setFate.mp hid' with ⟨heq, _⟩ | ⟨hold, _⟩
      · cases heq
        exact Store.journaled_recordStep ..
      · exact hkept id' (hI.recorded a hmem id' hold)

theorem remembers_run {s : Store} (hrow : Row E r max s)
    (h : Run (step E codes r) startsQuiet (init s) σ) :
    Row E r max σ.store ∧ ∃ g, Follows E r max σ g ∧ Remembers r σ g := by
  refine h.invariant
    (fun σ => Row E r max σ.store ∧ ∃ g, Follows E r max σ g ∧ Remembers r σ g) ?_ ?_
  · refine ⟨hrow, none, ⟨rfl, rfl⟩, nofun, nofun, .nil, nofun, nofun⟩
  · rintro σ l σ' _ ⟨hrow, g, hf, hI⟩ hok hstep
    obtain ⟨g', hmove, hf'⟩ := step_move hf hrow hstep
    exact ⟨hmove.row hrow, g', hf', hmove.remembers hrow hI hok⟩

theorem Remembers.memoised (h : Remembers r σ g) : σ.attempts.Pairwise Memoised := by
  refine h.memo.imp_of_mem (fun {b a} hb _ hmemo => ⟨fun f hf hs => ?_, fun f hf f' hf' heq => ?_⟩)
  · refine hmemo f hf ?_
    cases hfate : f.2 with
    | calling | threw message =>
        rw [hfate] at hs
        cases hs
    | recording json | recorded => rfl
  · by_contra hne
    obtain ⟨e, he, hid⟩ := hmemo f hf (Bool.eq_false_of_not_eq_true hne)
    exact (h.sound b hb).missed f' hf' e he (hid.trans heq.symm)

end Memo

/-- Where every attempt starts after the functions of the attempts before it have come back and
their results are recorded, a retry calls again only the functions that have failed. -/
theorem retries_only_failures {E : WorkflowEngine} {codes : Nat → Code} {r : RunId} {s : Store}
    {σ : Parallel}
    (hrow : (s.getRun r).isSome) (h : Run (step E codes r) startsQuiet (init s) σ) :
    σ.attempts.Pairwise Memoised := by
  obtain ⟨row, hget⟩ := Option.isSome_iff_exists.mp hrow
  have hthere : Row E r (stepMaxAttempts E row) s := ⟨row, hget, rfl⟩
  obtain ⟨_, g, _, hI⟩ := remembers_run hthere h
  exact hI.memoised

def oneRun (workflow : String) : Store :=
  (Store.empty.createRun ⟨workflow, .null, none, none, none, none, none⟩ 0).1

/-- The engine's calls from the start of an execution to its attempt. -/
def opening (workflow : String) (now : Time) : List (Time × Label) :=
  [(now, .start workflow), (now, .engine 0), (now, .engine 0), (now, .engine 0)]

def retrying (now : Time) : List (Time × Label) := List.replicate 6 (now, .engine 0)

/-- The charge is declined while the mail is being sent; the mail is sent before the retry, and the
second charge goes through. -/
theorem retries_only_failures_order : ∃ σ,
    Run (step ⟨[]⟩ (fun _ => stepAll ["charge", "mail"]) 0) startsQuiet (init (oneRun "order")) σ ∧
      σ.attempts.length = 2 ∧ σ.attempts.Pairwise Memoised := by
  obtain ⟨σ, h, hp⟩ :=
    Run.exists_of_replay (step ⟨[]⟩ (fun _ => stepAll ["charge", "mail"]) 0) startsQuiet
    (init (oneRun "order"))
    (opening "order" 0 ++ [(1, .returned 0 "charge" (.error "declined")), (1, .tell 0 0)] ++
      retrying 1 ++
      [(2, .returned 0 "mail" (.ok .null)), (2, .record 0 "mail"), (2, .tell 0 0)] ++
        opening "order" 1000 ++
      [(1001, .returned 0 "charge" (.ok .null))])
    (fun σ => σ.attempts.length = 2) (by decide +kernel)
  exact ⟨σ, h, of_decide_eq_true hp, retries_only_failures rfl h⟩

def forgets (b a : Attempt) : Bool :=
  a.functions.any (fun f => f.2.succeeded && b.functions.any (fun f' => f'.1 = f.1))

theorem Memoised.forgets_eq {a b : Attempt} (h : Memoised b a) : forgets b a = false := by
  rw [← Bool.not_eq_true, forgets, List.any_eq_true]
  rintro ⟨f, hf, hand⟩
  rw [Bool.and_eq_true, List.any_eq_true] at hand
  obtain ⟨hs, f', hf', heq⟩ := hand
  have hfailed := h.retried f hf f' hf' (of_decide_eq_true heq)
  cases hfate : f.2 with
  | calling | threw message =>
      rw [hfate] at hs
      cases hs
  | recording json | recorded =>
      rw [hfate] at hfailed
      cases hfailed

/-- The second of two attempts forgets what the first has done. -/
def forgetful : List Attempt → Bool
  | [b, a] => forgets b a
  | _ => false

/-- The retry of the charge sends the mail a second time, since the first one is still being sent.
-/
theorem retries_successes : ∃ σ,
    Run (step ⟨[]⟩ (fun _ => stepAll ["charge", "mail"]) 0) (fun _ _ => true)
      (init (oneRun "order")) σ ∧
      ¬ σ.attempts.Pairwise Memoised := by
  obtain ⟨σ, h, hp⟩ :=
    Run.exists_of_replay (step ⟨[]⟩ (fun _ => stepAll ["charge", "mail"]) 0) (fun _ _ => true)
    (init (oneRun "order"))
    (opening "order" 0 ++ [(1, .returned 0 "charge" (.error "declined")), (1, .tell 0 0)] ++
      retrying 1 ++
      opening "order" 1000 ++ [(1001, .returned 1 "mail" (.ok .null)), (1001, .record 1 "mail")])
    (fun σ => forgetful σ.attempts) (by decide +kernel)
  refine ⟨σ, h, fun hall => ?_⟩
  unfold forgetful at hp
  split at hp
  · next b a hs =>
      rw [hs] at hall
      rw [((List.pairwise_cons.mp hall).1 a List.mem_cons_self).forgets_eq] at hp
      cases hp
  · cases hp

end ZenZip.Parallel
