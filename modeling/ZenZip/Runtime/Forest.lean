import ZenZip.Runtime.Keys
import ZenZip.Runtime.Lineage
import ZenZip.Postgres.Cancel

namespace ZenZip

open Lib

namespace Store

variable {s : Store} {root id k p : RunId} {r : RunRow} {now : Time}

theorem Descends.le (hlt : ∀ id r p, s.runs.get? id = some r → r.parentRunId = some p → p < id)
    (h : Descends s root k) : root ≤ k :=
  rank_le_of_descends (fun id r p _ hr hp _ => hlt id r p hr hp) h

theorem postgres_others (hs : s.Forest) (h : ¬ Descends s root k) :
    (Postgres.cancelRunTree s root now).1.runs.get? k = s.runs.get? k :=
  (treeCancelled_postgres hs root now).others k (fun hk => h hk.1)

theorem sqlite_others (hs : s.Forest) (h : ¬ Descends s root k) :
    (s.cancelRunTree root now).1.runs.get? k = s.runs.get? k := by
  obtain he | ⟨r, hr, ht, hc⟩ := get?_cancelLoop now (s.runs.rows.length + 1) [root] s k
  · exact he
  · have hlive : s.live k = true := live_iff.mpr ⟨r, hr, ht⟩
    have hdead : (s.cancelRunTree root now).1.live k = false := by
      rw [cancelRunTree, live_of_get? hc]
      rfl
    exact absurd (descends_of_cancelled hs hlive hdead) h

end Store

namespace Sys

variable {E : WorkflowEngine} {σ σ' : Sys} {l : Label}

/-- The steps that invoke runs are told apart by the keys of the runs, and a key
has one run. -/
structure Invoked (σ : Sys) : Prop where
  unique : σ.store.KeysUnique
  keyed : ∀ id row p, σ.store.runs.get? id = some row → row.parentRunId = some p →
    ∃ s, row.parentStepId = some s ∧ row.idempotencyKey = some (.invoke p s)

theorem invoked_init (clock : Time) : (init .empty clock).Invoked where
  unique workflow key id r id' r' h := by cases h
  keyed id row p h := by cases h

theorem Move.invokeKeyed (h : Move E σ l σ') (hb : σ.Base) (hI : σ.Invoked) {id p : RunId}
    {row : RunRow}
    (hr : σ'.store.runs.get? id = some row) (hp : row.parentRunId = some p) :
    ∃ s, row.parentStepId = some s ∧ row.idempotencyKey = some (.invoke p s) := by
  obtain ⟨r, hr₀, rfl | ⟨i, t, c, _, hch⟩⟩ | ⟨_, i, t,
    ⟨run, hc, rfl, rfl⟩ | ⟨_, _, _, _, _, _, rfl⟩⟩ :=
    h.run_origin hb.fresh hr
  · exact hI.keyed id row p hr₀ hp
  · obtain ⟨s, hs, hk⟩ := hI.keyed id r p hr₀ (hch.parent_eq.1.symm.trans hp)
    exact ⟨s, hch.parent_eq.2.trans hs, hch.idempotencyKey_eq.trans hk⟩
  · have hp : run.parentRunId = some p := hp
    obtain ⟨_, hnone, _⟩ | ⟨q, s, _, hq, hs, hk, _⟩ := (hb.obeys_calling hc).2
    · rw [hnone] at hp
      cases hp
    · rw [hq] at hp
      cases hp
      exact ⟨s, hs, hk⟩
  · cases hp

theorem Move.invoked (h : Move E σ l σ') (hb : σ.Base) (hI : σ.Invoked) : σ'.Invoked where
  unique := h.keysUnique hb.fresh hI.unique
  keyed _ _ _ := h.invokeKeyed hb hI

theorem invoked_of_run {ok : Sys → Label → Bool} {clock : Time}
    (h : Run (step E) ok (init .empty clock) σ) :
    σ.Invoked :=
  h.invariant Invoked (invoked_init clock)
    (fun _ _ _ hr hI _ hs => (step_move hs).invoked (base_of_run hr) hI)

theorem forest_of_run {ok : Sys → Label → Bool} {clock : Time}
    (h : Run (step E) ok (init .empty clock) σ) :
    σ.store.Forest := by
  apply Store.forest_of_lt
  intro r hr p hp
  exact (lineage_of_run h).older r.id r p (Table.get?_key hr) hp

/-- What parent links look like in any state that the system can be in: no run is above
itself, a step that invokes a workflow has one child of it, and a cancellation stays
below its root in both stores. -/
theorem family_trees {ok : Sys → Label → Bool} {clock : Time}
    (h : Run (step E) ok (init .empty clock) σ) :
    (∀ id r p, σ.store.runs.get? id = some r → r.parentRunId = some p →
    ¬ Store.Descends σ.store id p) ∧
    (∀ id r id' r' p, σ.store.runs.get? id = some r → σ.store.runs.get? id' = some r' →
      r.parentRunId = some p → r'.parentRunId = some p → r.parentStepId = r'.parentStepId →
      r.workflow = r'.workflow → id = id') ∧
    ∀ root now k, ¬ Store.Descends σ.store root k →
      (σ.store.cancelRunTree root now).1.runs.get? k = σ.store.runs.get? k ∧
      (Postgres.cancelRunTree σ.store root now).1.runs.get? k = σ.store.runs.get? k := by
  have hlt := (lineage_of_run h).older
  have hI := invoked_of_run h
  refine ⟨?_, ?_, ?_⟩
  · intro id r p hr hp hd
    exact absurd (hlt id r p hr hp) (Nat.not_lt.mpr (hd.le hlt))
  · intro id r id' r' p hr hr' hp hp' hs hw
    obtain ⟨s, hs₁, hk⟩ := hI.keyed id r p hr hp
    obtain ⟨s', hs₂, hk'⟩ := hI.keyed id' r' p hr' hp'
    rw [hs₁, hs₂] at hs
    cases hs
    apply hI.unique r.workflow (.invoke p s) id r id' r' hr hr'
    · simp [RunRow.named, hk]
    · simp [RunRow.named, hk', hw]
  · intro root now k hk
    exact ⟨Store.sqlite_others (forest_of_run h) hk, Store.postgres_others (forest_of_run h) hk⟩

/-- The parked run and its child. -/
theorem family_trees_invoke : ∃ σ, Run (step sampleEngine) (fun _ _ => true) (init .empty 0) σ ∧
    (∃ r, σ.store.runs.get? 2 = some r ∧ r.parentRunId = some 0 ∧ ¬ Store.Descends σ.store 2 0) ∧
    (σ.store.cancelRunTree 2 0).1.runs.get? 0 = σ.store.runs.get? 0 := by
  obtain ⟨σ, h, hp⟩ :=
    Run.exists_of_replay (step sampleEngine) (fun _ _ => true) (init .empty 0) invokeOrder
    (fun σ => (σ.store.runs.get? 2).any (fun r => r.parentRunId = some 0)) (by decide +kernel)
  rw [Option.any_eq_true] at hp
  obtain ⟨r, hr, hp⟩ := hp
  have hp := of_decide_eq_true hp
  obtain ⟨hacyclic, _, hcancel⟩ := family_trees h
  have hd := hacyclic 2 r 0 hr hp
  exact ⟨σ, h, ⟨r, hr, hp, hd⟩, (hcancel 2 0 0 hd).1⟩

end Sys

end ZenZip
