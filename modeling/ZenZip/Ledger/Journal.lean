import ZenZip.Ledger.Ops
import ZenZip.Postgres.Waiters
import ZenZip.Postgres.Cancel

namespace ZenZip

open Lib

namespace Postgres

/-- What a transaction does at its commit. `rows` are the rows that it has locked. -/
def perform (s : Store) (now : Time) (rows : List RunRow) : Call → Store
  | .emitEvent name payload targets => emitInTx s name payload targets rows now
  | .sweepEventTimeouts timeout => sweepEventTimeouts s timeout rows
  | .cancelRunTree root => (cancelRunTree s root now).1
  | c => (c.perform s now []).1

/-- A run of the Postgres store, in the order of the commits. No run is deleted. -/
def step (s : Store) (l : Time × Call × List RunRow) : Option Store :=
  if l.2.1.deletesRuns then none else some (perform s l.1 l.2.2 l.2.1)

end Postgres

namespace Store

/-- Of the runs that are still there no completed entry has changed, and no run that
was deleted has come back. -/
structure KeepsJournal (s s' : Store) : Prop where
  entry : ∀ r st e, r < s.nextId → (s'.runs.get? r).isSome → s.steps.get? (r, st) = some e →
    e.completed = true →
    ∃ e', s'.steps.get? (r, st) = some e' ∧ e'.completed = true ∧ e'.kind = e.kind ∧
      e'.result = e.result
  absent : ∀ r, r < s.nextId → s.runs.get? r = none → s'.runs.get? r = none
  nextId_le : s.nextId ≤ s'.nextId

variable {s s' s'' : Store} {r : RunId} {st : StepId} {e : StepRow}

namespace KeepsJournal

theorem refl (s : Store) : KeepsJournal s s where
  entry _ _ e _ _ he hc := ⟨e, he, hc, rfl, rfl⟩
  absent _ _ h := h
  nextId_le := Nat.le_refl _

theorem trans (h : KeepsJournal s s') (h' : KeepsJournal s' s'') : KeepsJournal s s'' where
  entry r st e hlt hr he hc := by
    have hlt' := Nat.lt_of_lt_of_le hlt h.nextId_le
    have hr' : (s'.runs.get? r).isSome := by
      cases hn : s'.runs.get? r with
      | some _ => rfl
      | none =>
          rw [h'.absent r hlt' hn] at hr
          cases hr
    obtain ⟨e', he', hc', hk, hres⟩ := h.entry r st e hlt hr' he hc
    obtain ⟨e'', he'', hc'', hk', hres'⟩ := h'.entry r st e' hlt' hr he' hc'
    exact ⟨e'', he'', hc'', hk'.trans hk, hres'.trans hres⟩
  absent r hlt h₀ := h'.absent r (Nat.lt_of_lt_of_le hlt h.nextId_le) (h.absent r hlt h₀)
  nextId_le := Nat.le_trans h.nextId_le h'.nextId_le

end KeepsJournal

theorem completeRow_of_completed (h : e.completed = true) (kind : StepKind) (result : Option Json)
    (now : Time) :
    completeRow kind result now e = e := if_pos h

theorem entry_of_delete {p : RunRow → Bool} (hr : ((s.runs.delete p).get? r).isSome)
    (he : s.steps.get? (r, st) = some e) :
    (s.steps.delete (fun st => (s.runs.get? st.runId).any p)).get? (r, st) = some e := by
  rw [Table.get?_delete, Option.isSome_filter] at hr
  rw [Table.get?_delete, he, Option.filter_some, if_pos]
  have hid : e.runId = r := congrArg Prod.fst (Table.key_of_get? he)
  rw [hid]
  cases hrow : s.runs.get? r with
  | none => rfl
  | some row =>
      rw [hrow, Option.any_some] at hr
      rw [Option.any_some]
      exact hr

end Store

namespace Call

variable {s : Store} {r : RunId} {st : StepId} {e : StepRow}

theorem perform_entry (c : Call) (now : Time) (locked : List RunId)
    (hr : ((c.perform s now locked).1.runs.get? r).isSome) (he : s.steps.get? (r, st) = some e)
    (hc : e.completed = true) : ∃ e', (c.perform s now locked).1.steps.get? (r, st) = some e' ∧
      e'.completed = true ∧ e'.kind = e.kind ∧ e'.result = e.result := by
  cases c with
  | recordStep k st' kind result =>
      refine ⟨e, (Store.get?_recordStep ..).trans ?_, hc, rfl, rfl⟩
      rw [he, Option.elim_some, Store.completeRow_of_completed hc, ite_self]
  | stepFailedAttempt k st' error =>
      have hget := Store.get?_stepFailedAttempt s k st' error now (r, st)
      rw [he, Option.elim_some] at hget
      split at hget
      · exact ⟨_, hget, hc, rfl, rfl⟩
      · exact ⟨e, hget, hc, rfl, rfl⟩
  | emitEvent name payload targets =>
      refine ⟨e, (emit_steps ..).trans ?_, hc, rfl, rfl⟩
      rw [he, Option.elim_some, Store.completeRow_of_completed hc, ite_self]
  | gc runBefore eventBefore =>
      cases runBefore with
      | none => exact ⟨e, he, hc, rfl, rfl⟩
      | some before => exact ⟨e, Store.entry_of_delete hr he, hc, rfl, rfl⟩
  | purgeSubject subject => exact ⟨e, Store.entry_of_delete hr he, hc, rfl, rfl⟩
  | _ =>
      refine ⟨e, ?_, hc, rfl, rfl⟩
      rwa [perform_steps rfl]

theorem keepsJournal (hf : s.Fresh) (c : Call) (now : Time) (locked : List RunId) :
    s.KeepsJournal (c.perform s now locked).1 where
  entry r st e _ hr he hc := c.perform_entry now locked hr he hc
  absent r hlt hn := by
    obtain hs | ⟨run, _, he, _⟩ | ⟨_, _, _, _, _, _, hge, _⟩ :=
      c.perform_run_of_none now locked hf.jobs hn
    · exact hs
    · exact absurd he (Nat.ne_of_lt hlt)
    · exact absurd hge (Nat.not_le_of_lt hlt)
  nextId_le := c.perform_nextId_le

end Call

theorem StoreOp.keepsJournal {s : Store} (hf : s.Fresh) (op : StoreOp) (now : Time) :
    s.KeepsJournal (op.perform s now) := by
  cases op with
  | call c locked => exact c.keepsJournal hf now locked
  | claim | renewLeases =>
      exact ⟨fun _ _ e _ _ he hc => ⟨e, he, hc, rfl, rfl⟩, fun _ _ h => h, Nat.le_refl _⟩

namespace Postgres

section Emit

variable {s : Store} (name : String) (payload : Json) (targets : List TriggerTarget)
  (rows : List RunRow) (now : Time)

def released (s : Store) : Store :=
  (mapAccum (Store.releaseWaiter payload now)
    { s with events := s.events.insert ⟨s.nextId, name, payload, now⟩, nextId := s.nextId + 1 }
    (rows.filter (fun r => matchSubset r.waitMatch payload))).1

theorem released_fresh (hf : s.Fresh) : (∀ j ∈ (released name payload rows now s).jobs.rows,
    j.id < (released name payload rows now s).nextId) ∧
    s.nextId ≤ (released name payload rows now s).nextId := by
  have hgrows := Store.releaseWaiters_grows payload now
    { s with events := s.events.insert ⟨s.nextId, name, payload, now⟩, nextId := s.nextId + 1 }
    (rows.filter (fun r => matchSubset r.waitMatch payload))
  refine ⟨hgrows.fresh (fun j hj => Nat.lt_succ_of_lt (hf.jobs j hj)), ?_⟩
  exact Nat.le_trans (Nat.le_succ _) hgrows.nextId_le

theorem emitInTx_grows (hf : s.Fresh) : (∀ j ∈ (emitInTx s name payload targets rows now).jobs.rows,
    j.id < (emitInTx s name payload targets rows now).nextId) ∧
    s.nextId ≤ (emitInTx s name payload targets rows now).nextId := by
  obtain ⟨hjobs, hle⟩ := released_fresh name payload rows now hf
  have hgrows :=
    Store.startTargets_grows (Store.eventInput name payload now) now
      (released name payload rows now s) targets
  exact ⟨hgrows.fresh hjobs, Nat.le_trans hle hgrows.nextId_le⟩

theorem emitInTx_run_of_none (hf : s.Fresh) {id : RunId} (h : s.runs.get? id = none) :
    (emitInTx s name payload targets rows now).runs.get? id = none ∨
      s.nextId ≤ id ∧ id < (emitInTx s name payload targets rows now).nextId := by
  obtain ⟨hjobs, hle⟩ := released_fresh name payload rows now hf
  have hnone : (released name payload rows now s).runs.get? id = none := by
    rw [released, Store.get?_releaseWaiters]
    split
    · exact congrArg (Option.map (Store.wokenRow now)) h
    · exact h
  obtain hn | ⟨t, _, hge, hlt, _⟩ :=
    @Store.startTargets_of_none (Store.eventInput name payload now) now _ targets id hjobs hnone
  · exact .inl hn
  · exact .inr ⟨Nat.le_trans hle hge, hlt⟩

theorem emitInTx_entry {r : RunId} {st : StepId} {e : StepRow} (he : s.steps.get? (r, st) = some e)
    (hc : e.completed = true) : (emitInTx s name payload targets rows now).steps.get? (r, st) =
      some e := by
  rw [emitInTx_eq, Store.steps_startTargets, Store.get?_steps_releaseWaiters]
  split
  · refine congrArg some ?_
    have he' : ({ s with
      events := s.events.insert ⟨s.nextId, name, payload, now⟩, nextId := s.nextId + 1 } :
        Store).steps.get?
        (r, st) = some e := he
    rw [he', Option.elim_some, Store.completeRow_of_completed hc]
  · exact he

end Emit

theorem update_fresh {s : Store} (hf : s.Fresh) (p : RunRow → Bool) (f : RunRow → RunRow)
    (hid : ∀ r, (f r).id = r.id) :
    ({ s with runs := s.runs.update p f hid } : Store).Fresh ∧
      s.KeepsJournal { s with runs := s.runs.update p f hid } := by
  constructor
  · refine ⟨hf.jobs, fun id r hr => ?_⟩
    rw [Table.get?_update] at hr
    obtain ⟨r₀, hr₀, _⟩ := Option.map_eq_some_iff.mp hr
    exact hf.runs id r₀ hr₀
  · refine ⟨fun _ _ e _ _ he hc => ⟨e, he, hc, rfl, rfl⟩, fun r _ hn => ?_, Nat.le_refl _⟩
    rw [Table.get?_update, hn, Option.map_none]

theorem perform_keeps {s : Store} (hf : s.Fresh) (now : Time) (rows : List RunRow) (c : Call) :
    (perform s now rows c).Fresh ∧ s.KeepsJournal (perform s now rows c) := by
  cases c with
  | sweepEventTimeouts timeout => exact update_fresh hf _ _ _
  | cancelRunTree root => exact update_fresh hf _ _ _
  | emitEvent name payload targets =>
      obtain ⟨hjobs, hle⟩ := emitInTx_grows name payload targets rows now hf
      constructor
      · refine ⟨hjobs, fun id r hr => ?_⟩
        cases hs : s.runs.get? id with
        | some r₀ => exact Nat.lt_of_lt_of_le (hf.runs id r₀ hs) hle
        | none =>
            obtain hn | ⟨_, hlt⟩ := emitInTx_run_of_none name payload targets rows now hf hs
            · exact absurd (hn.symm.trans hr) (fun h => by cases h)
            · exact hlt
      · refine ⟨fun r st e _ _ he hc =>
          ⟨e, emitInTx_entry name payload targets rows now he hc, hc, rfl, rfl⟩, ?_, hle⟩
        intro r hlt hs
        obtain hn | ⟨hge, _⟩ := emitInTx_run_of_none name payload targets rows now hf hs
        · exact hn
        · exact absurd hge (Nat.not_le_of_lt hlt)
  | _ => exact ⟨hf.perform _ now [], Call.keepsJournal hf _ now []⟩

theorem step_keeps {s s' : Store} {l : Time × Call × List RunRow} (hf : s.Fresh)
    (h : step s l = some s') :
    s'.Fresh ∧ s.KeepsJournal s' := by
  unfold step at h
  split at h
  · cases h
  · cases h
    exact perform_keeps hf l.1 l.2.2 l.2.1

end Postgres

/-- The completed entries of the run stay as they are, and its journal only grows. -/
structure JournalKept (s s' : Store) (r : RunId) : Prop where
  entry : ∀ st e, s.steps.get? (r, st) = some e → e.completed = true →
    ∃ e', s'.steps.get? (r, st) = some e' ∧ e'.completed = true ∧ e'.kind = e.kind ∧
      e'.result = e.result
  journal : s.loadJournal r ⊆ s'.loadJournal r

theorem Store.mem_loadJournal {s : Store} {r : RunId} {x : StepEntry} : x ∈ s.loadJournal r ↔
    ∃ e, s.steps.get? (r, x.id) = some e ∧ e.completed = true ∧ e.kind = x.kind ∧
    e.result = x.result := by
  rw [Store.loadJournal, List.mem_map]
  constructor
  · rintro ⟨e, he, rfl⟩
    obtain ⟨hmem, hp⟩ := Table.mem_select.mp he
    simp only [Bool.and_eq_true, decide_eq_true_eq] at hp
    obtain ⟨rfl, hc⟩ := hp
    exact ⟨e, Table.get?_key hmem, hc, rfl, rfl⟩
  · rintro ⟨e, he, hc, hk, hres⟩
    obtain ⟨hmem, hkey⟩ := Table.get?_eq_some_iff.mp he
    obtain ⟨hr, hst⟩ := Prod.mk.inj hkey
    refine ⟨e, Table.mem_select.mpr ⟨hmem, by simp [hr, hc]⟩, ?_⟩
    rw [hst, hk, hres]

theorem Store.KeepsJournal.kept {s s' : Store} {r : RunId} (h : s.KeepsJournal s') (hf : s.Fresh)
    (hr : (s.runs.get? r).isSome) (hr' : (s'.runs.get? r).isSome) : JournalKept s s' r := by
  obtain ⟨row, hrow⟩ := Option.isSome_iff_exists.mp hr
  have hlt := hf.runs r row hrow
  refine ⟨fun st e => h.entry r st e hlt hr', fun x hx => ?_⟩
  obtain ⟨e, he, hc, hk, hres⟩ := Store.mem_loadJournal.mp hx
  obtain ⟨e', he', hc', hk', hres'⟩ := h.entry r x.id e hlt hr' he hc
  exact Store.mem_loadJournal.mpr ⟨e', he', hc', hk'.trans hk, hres'.trans hres⟩

theorem Ledger.keepsJournal {σ σ' : Ledger} {ok : Ledger → Time × StoreOp → Bool}
    (hf : σ.store.Fresh)
    (h : Run Ledger.step ok σ σ') : σ'.store.Fresh ∧ σ.store.KeepsJournal σ'.store := by
  refine h.invariant (fun τ => τ.store.Fresh ∧ σ.store.KeepsJournal τ.store) ⟨hf, .refl _⟩ ?_
  rintro τ ⟨now, op⟩ τ' _ ⟨hfτ, hI⟩ _ hstep
  rw [store_of_step hstep]
  exact ⟨op.fresh hfτ, hI.trans (op.keepsJournal hfτ now)⟩

theorem Postgres.keepsJournal {s s' : Store} {ok : Store → Time × Call × List RunRow → Bool}
    (hf : s.Fresh)
    (h : Run Postgres.step ok s s') : s'.Fresh ∧ s.KeepsJournal s' := by
  refine h.invariant (fun t => t.Fresh ∧ s.KeepsJournal t) ⟨hf, .refl _⟩ ?_
  rintro t l t' _ ⟨hft, hI⟩ _ hstep
  obtain ⟨hft', hk⟩ := step_keeps hft hstep
  exact ⟨hft', hI.trans hk⟩

/-- Journal entries are recorded once, in either store. -/
theorem journal_kept {s : Store} (hs : s.Fresh) {r : RunId} :
    (∀ ok σ σ', Run Ledger.step ok (Ledger.init s) σ → Run Ledger.step ok σ σ' →
      (σ.store.runs.get? r).isSome → (σ'.store.runs.get? r).isSome →
      JournalKept σ.store σ'.store r) ∧
    ∀ ok t t', Run Postgres.step ok s t → Run Postgres.step ok t t' →
      (t.runs.get? r).isSome → (t'.runs.get? r).isSome → JournalKept t t' r := by
  constructor
  · intro ok σ σ' h h' hr hr'
    have hf := Ledger.fresh_of_run hs h
    exact (Ledger.keepsJournal hf h').2.kept hf hr hr'
  · intro ok t t' h h' hr hr'
    have hf := (Postgres.keepsJournal hs h).1
    exact (Postgres.keepsJournal hf h').2.kept hf hr hr'

/-- A second attempt fails the step, and then records another result. -/
theorem journal_kept_redelivered :
    (∃ σ σ', Run Ledger.step (fun _ _ => true) (Ledger.init .empty) σ ∧
      Run Ledger.step (fun _ _ => true) σ σ' ∧
      ⟨"pay", .run, some (.int 1)⟩ ∈ σ'.store.loadJournal 0) ∧
    ∃ t t', Run Postgres.step (fun _ _ => true) .empty t ∧
      Run Postgres.step (fun _ _ => true) t t' ∧
      ⟨"pay", .run, some (.int 1)⟩ ∈ t'.loadJournal 0 := by
  let first : List Call :=
    [.createRun ⟨"order", .null, none, none, none, none, none⟩,
      .recordStep 0 "pay" .run (some (.int 1))]
  let second : List
    Call := [.stepFailedAttempt 0 "pay" "boom", .recordStep 0 "pay" .run (some (.int 2))]
  let entry : StepEntry := ⟨"pay", .run, some (.int 1)⟩
  let shown (s s' : Store) : Bool :=
    ((s.runs.get? 0).isSome && (s'.runs.get? 0).isSome) && decide (entry ∈ s.loadJournal 0)
  constructor
  · obtain ⟨σ, σ', h, h', hp⟩ :=
      Run.exists_of_replay₂ Ledger.step (fun _ _ => true) (Ledger.init .empty)
      (first.map (fun c => (0, .call c []))) (second.map (fun c => (1, .call c [])))
      (fun σ σ' => shown σ.store σ'.store) (by decide)
    simp only [shown, Bool.and_eq_true, decide_eq_true_eq] at hp
    have hkept := (journal_kept .empty).1 _ σ σ' h h' hp.1.1 hp.1.2
    exact ⟨σ, σ', h, h', hkept.journal hp.2⟩
  · obtain ⟨t, t', h, h', hp⟩ := Run.exists_of_replay₂ Postgres.step (fun _ _ => true) .empty
      (first.map (fun c => (0, c, []))) (second.map (fun c => (1, c, []))) shown (by decide)
    simp only [shown, Bool.and_eq_true, decide_eq_true_eq] at hp
    have hkept := (journal_kept .empty).2 _ t t' h h' hp.1.1 hp.1.2
    exact ⟨t, t', h, h', hkept.journal hp.2⟩

end ZenZip
