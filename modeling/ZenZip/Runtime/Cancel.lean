import ZenZip.Runtime.Terminal

namespace ZenZip

open Lib

namespace Store

/-- Parent links lead nowhere in a circle. -/
def Forest (s : Store) : Prop :=
  ∃ rank : RunId → Nat, ∀ id r p q, s.runs.get? id = some r → r.parentRunId = some p →
    s.runs.get? p = some q → rank p < rank id

theorem forest_of_lt {s : Store} (h : ∀ r ∈ s.runs.rows, ∀ p, r.parentRunId = some p → p < r.id) :
    s.Forest := by
  refine ⟨fun id => id, fun id r p q hr hp _ => ?_⟩
  have := h r (Table.mem_of_get? hr) p hp
  rwa [Table.key_of_get? hr] at this

theorem CancelledBy.root_le {s : Store} {root : RunId} {now : Time} {rank : RunId → Nat}
    (hrank : ∀ id r p q, s.runs.get? id = some r → r.parentRunId = some p → s.runs.get? p = some q →
      rank p < rank id) {k : RunId} (h : CancelledBy s (s.cancelRunTree root now).1 k) : rank root ≤
        rank k := by
  induction hn : rank k using Nat.strong_induction_on generalizing k with
  | _ n ih =>
      subst hn
      obtain hm | ⟨r, p, hr, hp, hc⟩ := cancelLoop_cancelled now (s.runs.rows.length + 1) [root] s h
      · rw [List.mem_singleton.mp hm]
      · obtain ⟨q, hq, _⟩ := hc.before
        have hlt := hrank k r p q hr hp hq
        exact Nat.le_trans (ih (rank p) hlt hc rfl) (Nat.le_of_lt hlt)

theorem cancelledBy_root {s : Store} {root : RunId} {now : Time} {r : RunRow}
    (hr : s.runs.get? root = some r)
    (ht : r.status.terminal = false) : CancelledBy s (s.cancelRunTree root now).1 root := by
  refine ⟨⟨r, hr, ht⟩, ?_⟩
  have hany : (s.runs.get? root).any (fun r => !r.status.terminal) = true := by simp [hr, ht]
  have hself := get?_cancelRow_self hr ht now
  simp only [cancelRunTree, cancelLoop, hany, if_true]
  obtain he | ⟨r', hr', ht', _⟩ := get?_cancelLoop now s.runs.rows.length
    (((s.cancelRow root now).childrenOf root).reverse ++ []) (s.cancelRow root now) root
  · exact ⟨_, he.trans hself, rfl⟩
  · rw [hself] at hr'
    cases hr'
    cases ht'

/-- What `settle_parent` leaves behind for the parent of an ended child. -/
structure ParentSettled (s : Store) (child : RunRow) (parent : RunId) : Prop where
  journal : ∃ stepId st error, child.parentStepId = some stepId ∧
    s.steps.get? (parent, stepId) = some st ∧
    st.completed = true ∧ st.result = some (WorkflowEngine.stepResult (.error error))
  runnable : ∃ r, s.runs.get? parent = some r ∧ r.status = .runnable
  job : ∃ j ∈ s.jobs.rows, j.payload = .execution parent ∧ j.status ≠ .dead

/-- Every run that waits for a child the cancellation has ended, and is not
itself cancelled, has been released. -/
def CancelSettles (s : Store) (root : RunId) (now : Time) : Prop :=
  ∀ c r p q, CancelledBy s (s.cancelRunTree root now).1 c → s.runs.get? c = some r →
    r.parentRunId = some p →
    s.runs.get? p = some q → q.status = .waitChild →
      ¬ CancelledBy s (s.cancelRunTree root now).1 p →
    ParentSettled (s.cancelRunTree root now).1 r p

/-- The root is still going and its parent waits for a child. -/
def parentWaits (s : Store) (root : RunId) : Bool :=
  (s.runs.get? root).any (fun r => !r.status.terminal &&
    (r.parentRunId.bind s.runs.get?).any (fun q => q.status = .waitChild))

theorem parentWaits_iff {s : Store} {root : RunId} : s.parentWaits root = true ↔
    ∃ r p q, s.runs.get? root = some r ∧ r.status.terminal = false ∧ r.parentRunId = some p ∧
      s.runs.get? p = some q ∧ q.status = .waitChild := by
  simp only [parentWaits, Option.any_eq_true, Bool.and_eq_true, Bool.not_eq_true',
    decide_eq_true_eq,
    Option.bind_eq_some_iff]
  constructor
  · rintro ⟨r, hr, ht, q, ⟨p, hp, hq⟩, hs⟩
    exact ⟨r, p, q, hr, ht, hp, hq, hs⟩
  · rintro ⟨r, p, q, hr, ht, hp, hq, hs⟩
    exact ⟨r, hr, ht, q, ⟨p, hp, hq⟩, hs⟩

theorem not_cancelSettles {s : Store} (hs : s.Forest) {root : RunId} (h : s.parentWaits root = true)
    (now : Time) :
    ¬ CancelSettles s root now := by
  intro hset
  obtain ⟨r, p, q, hr, ht, hp, hq, hqs⟩ := parentWaits_iff.mp h
  obtain ⟨rank, hrank⟩ := hs
  have hout : ¬ CancelledBy s (s.cancelRunTree root now).1 p := by
    intro hc
    have hle := CancelledBy.root_le hrank hc
    have hlt := hrank root r p q hr hp hq
    omega
  obtain ⟨q', hq', hq's⟩ := (hset root r p q (cancelledBy_root hr ht) hr hp hq hqs hout).runnable
  obtain he | ⟨_, _, _, hc⟩ := get?_cancelLoop now (s.runs.rows.length + 1) [root] s p
  · have : q' = q := Option.some.inj (hq'.symm.trans (he.trans hq))
    rw [this, hqs] at hq's
    cases hq's
  · have : q' = cancelledRow now _ := Option.some.inj (hq'.symm.trans hc)
    rw [this] at hq's
    cases hq's

/-- The cancellation leaves rows outside its set, and all jobs, as they were;
so it settles parents exactly when there is none to settle. -/
theorem cancelSettles_iff {s : Store} (hs : s.Forest) (root : RunId) (now : Time) :
    CancelSettles s root now ↔ s.parentWaits root = false := by
  rw [← Bool.not_eq_true]
  refine ⟨fun hset hw => not_cancelSettles hs hw now hset, ?_⟩
  intro hnone c r p q hc hr hp hq hqs hout
  obtain hm | ⟨r', p', hr', hp', hc'⟩ :=
    cancelLoop_cancelled now (s.runs.rows.length + 1) [root] s hc
  · obtain rfl := List.mem_singleton.mp hm
    obtain ⟨r', hr', ht⟩ := hc.before
    obtain rfl : r = r' := Option.some.inj (hr.symm.trans hr')
    exact absurd (parentWaits_iff.mpr ⟨r, p, q, hr, ht, hp, hq, hqs⟩) hnone
  · obtain rfl : r = r' := Option.some.inj (hr.symm.trans hr')
    obtain rfl : p = p' := Option.some.inj (hp.symm.trans hp')
    exact absurd hc' hout

end Store

namespace Sys

def invokeOrder : List Label :=
  startOrder 0 ++
    attemptUpTo 1 (.invoke "pay" "order" none) ++ [callOk 1, callOk 1, callOk 1, callOk 1]

theorem cancelSettles_top : ∃ σ, Run (step sampleEngine) (fun _ _ => true) (init .empty 0) σ ∧
    σ.statusOf 0 = some .waitChild ∧ σ.store.Forest ∧ Store.CancelSettles σ.store 0 0 := by
  obtain ⟨σ, h, hp⟩ :=
    Run.exists_of_replay (step sampleEngine) (fun _ _ => true) (init .empty 0) invokeOrder
    (fun σ => decide (σ.statusOf 0 = some .waitChild ∧ σ.store.parentWaits 0 = false) &&
      σ.store.runs.rows.all (fun r => r.parentRunId.all (· < r.id))) (by decide +kernel)
  simp only [Bool.and_eq_true, decide_eq_true_eq, List.all_eq_true, Option.all_eq_true] at hp
  have hf : σ.store.Forest := Store.forest_of_lt hp.2
  exact ⟨σ, h, hp.1.1, hf, (Store.cancelSettles_iff hf 0 0).mpr hp.1.2⟩

/-- A cancelled child leaves its parent waiting. -/
theorem cancelled_child_strands_parent : ∃ σ,
    Run (step sampleEngine) (fun _ _ => true) (init .empty 0) σ ∧
    σ.store.Forest ∧ σ.statusOf 0 = some .waitChild ∧ σ.statusOf 2 = some .runnable ∧
    ¬ Store.CancelSettles σ.store 2 0 := by
  obtain ⟨σ, h, hp⟩ :=
    Run.exists_of_replay (step sampleEngine) (fun _ _ => true) (init .empty 0) invokeOrder
    (fun σ => decide (σ.statusOf 0 = some .waitChild ∧ σ.statusOf 2 = some .runnable ∧
      σ.store.parentWaits 2 = true) &&
      σ.store.runs.rows.all (fun r => r.parentRunId.all (· < r.id))) (by decide +kernel)
  simp only [Bool.and_eq_true, decide_eq_true_eq, List.all_eq_true, Option.all_eq_true] at hp
  obtain ⟨⟨hs₀, hs₂, hw⟩, hlt⟩ := hp
  have hf : σ.store.Forest := Store.forest_of_lt hlt
  exact ⟨σ, h, hf, hs₀, hs₂, Store.not_cancelSettles hf hw 0⟩

end Sys

end ZenZip
