import ZenZip.Runtime.Base

namespace ZenZip

open Lib

/-- The look at its own run that an attempt goes by: the first one it got. -/
inductive Looks : (c : Call) → c.Ret → RunRow → Prop
  | mk (id row) : Looks (.getRun id) (some row) row

namespace Track

theorem run_after {g : Track} {c : Call} {v : c.Ret} {row : RunRow}
    (h : (g.after c v).run = some row) :
    g.run = some row ∨ ∃ id, c = .getRun id ∧ g.own = some id ∧ Looks c v row := by
  cases c with
  | getRun id =>
      cases v with
      | none => exact .inl h
      | some row' =>
          simp only [after, looked] at h
          split at h
          · next ho =>
              obtain h | ⟨_, h⟩ := Option.or_eq_some_iff.mp h
              · exact .inl h
              · cases h
                exact .inr ⟨id, rfl, ho, .mk id row⟩
          · exact .inl h
  | createRun run =>
      obtain ⟨id, created⟩ := v
      exact .inl h
  | _ => exact .inl h

theorem run_next {g : Track} {op : Op} {ch : Choice} {clock : Time} {res : Except String (Val op)}
    (ha : Aside clock op ch res) : (g.next op res).run = g.run := by
  cases ha with
  | failed | clock | draw => rfl
  | outcome req o => cases o <;> rfl

/-- The parent a thread is about to wake is that of the row it has seen. -/
def WakesParent (g : Track) : Prop := ∀ p, g.wakes = some p → g.parentStep.map Prod.fst = some p

theorem WakesParent.next {g : Track} (h : g.WakesParent) (op : Op) (r : Except String (Val op)) :
    (g.next op r).WakesParent := by
  cases op with
  | store c =>
      cases r with
      | error e => exact fun _ h => by cases h
      | ok v =>
          cases c with
          | getRun id =>
              cases v with
              | none => exact h
              | some row =>
                  intro p hp
                  by_cases ho : g.own = some id
                  · have hl := @looked_own g id row ho
                    simp only [Track.next, after] at hp ⊢
                    rw [hl] at hp ⊢
                    have hg := h p hp
                    cases hrun : g.run with
                    | none => simp [parentStep, hrun] at hg
                    | some row₀ => simpa [parentStep, hrun] using hg
                  · have hl : g.looked id (some row) = g := if_neg ho
                    simp only [Track.next, after] at hp ⊢
                    rw [hl] at hp ⊢
                    exact h p hp
          | runCompleted | runFailed => exact fun p hp => hp
          | wakeParent => exact fun _ h => by cases h
          | createRun run =>
              obtain ⟨id, created⟩ := v
              exact h
          | _ => exact h
  | executor | nowMs => cases r <;> exact h
  | fastrand => exact h

end Track

theorem Worker.wakes_parent (t : Worker) : t.track.WakesParent := by
  unfold track
  induction t.log with
  | nil => exact fun _ h => by cases h
  | cons e l ih => exact ih.next e.op e.res

namespace Sys

variable {E : WorkflowEngine} {σ σ' : Sys} {l : Label}

theorem Move.run_origin (h : Move E σ l σ') (hf : σ.store.Fresh) {id : RunId} {r' : RunRow}
    (hr' : σ'.store.runs.get? id = some r') :
    (∃ r, σ.store.runs.get? id = some r ∧
      (r' = r ∨ ∃ i t c, σ.Calling l i t c ∧ RunChange σ.clock c r r')) ∨
    σ.store.runs.get? id = none ∧ ∃ i t,
      ((∃ run, σ.Calling l i t (.createRun run) ∧ id = σ.store.nextId ∧
      r' = Store.newRow run id σ.clock) ∨
        ∃ name payload targets tg, σ.Calling l i t (.emitEvent name payload targets) ∧
        σ.store.nextId ≤ id ∧
          r' = Store.newRow
            (Store.targetRun (Store.eventInput name payload σ.clock) tg) id σ.clock) := by
  cases hr : σ.store.runs.get? id with
  | some r =>
      refine .inl ⟨r, rfl, ?_⟩
      obtain hs | ⟨i, t, c, k, locked, ht, hp, hl, ⟨r₁, hch, hr₁⟩ | ⟨_, hn⟩⟩ := h.run_cases hr
      · exact .inl (Option.some.inj (hr'.symm.trans hs))
      · obtain rfl : r' = r₁ := Option.some.inj (hr'.symm.trans hr₁)
        exact .inr ⟨i, t, c, ⟨ht, ⟨k, hp⟩, locked, hl⟩, hch⟩
      · rw [hn] at hr'
        cases hr'
  | none =>
      refine .inr ⟨rfl, ?_⟩
      cases h with
      | ticked | spawned | answered | crashed | claimed | renewed | recorded =>
          have hr'' : σ.store.runs.get? id = some r' := hr'
          rw [hr] at hr''
          cases hr''
      | stored i t c k locked ht hp =>
          have hc : σ.Calling (.call i (.ok locked)) i t c := ⟨ht, ⟨k, hp⟩, locked, rfl⟩
          have hr'' : (c.perform σ.store σ.clock locked).1.runs.get? id = some r' := hr'
          obtain hn | ⟨run, rfl, hid, _, hrow⟩ | ⟨name, payload, targets, rfl, tg, _, hge, _,
            hrow, _⟩ :=
            Call.perform_run_of_none c σ.clock locked hf.jobs hr
          · rw [hn] at hr''
            cases hr''
          · exact ⟨i, t, .inl ⟨run, hc, hid, Option.some.inj (hr''.symm.trans hrow)⟩⟩
          · exact ⟨i, t,
              .inr ⟨name, payload, targets, tg, hc, hge, Option.some.inj (hr''.symm.trans hrow)⟩⟩

/-- A parent is older than its child, the key of an invoked run names the step
that invoked it, and what an attempt has seen of its run's parent still holds. -/
structure Lineage (σ : Sys) : Prop where
  older : ∀ id row p, σ.store.runs.get? id = some row → row.parentRunId = some p → p < id
  keyed : ∀ id row p s, σ.store.runs.get? id = some row → row.idempotencyKey = some (.invoke p s) →
    row.parentRunId = some p ∧ row.parentStepId = some s
  seen : ∀ (i : Nat) (t : Worker) (row : RunRow), σ.pool[i]? = some t → t.track.run = some row →
    t.kind.run? = some row.id ∧ (∀ p, row.parentRunId = some p → p < row.id) ∧
      ∀ q, σ.store.runs.get? row.id = some q →
        q.parentRunId = row.parentRunId ∧ q.parentStepId = row.parentStepId

theorem lineage_init (clock : Time) : (init .empty clock).Lineage where
  older id row p h := by cases h
  keyed id row p s h := by cases h
  seen i t row h := by cases h

theorem Move.older (h : Move E σ l σ') (hb : σ.Base) (hl : σ.Lineage) {id : RunId} {row : RunRow}
    {p : RunId}
    (hr : σ'.store.runs.get? id = some row) (hp : row.parentRunId = some p) : p < id := by
  obtain ⟨r, hr₀, rfl | ⟨i, t, c, _, hch⟩⟩ | ⟨_, i, t,
    ⟨run, hc, rfl, rfl⟩ | ⟨_, _, _, _, _, _, rfl⟩⟩ :=
    h.run_origin hb.fresh hr
  · exact hl.older id row p hr₀ hp
  · exact hl.older id r p hr₀ (hch.parent_eq.1.symm.trans hp)
  · have hp : run.parentRunId = some p := hp
    obtain ⟨_, hnone, _⟩ | ⟨q, s, hown, hq, _⟩ := (hb.obeys_calling hc).2
    · rw [hnone] at hp
      cases hp
    · rw [hq] at hp
      cases hp
      rw [(Worker.track_own t).1] at hown
      exact hb.run_lt i t p hc.thread hown
  · cases hp

theorem Move.keyed (h : Move E σ l σ') (hb : σ.Base) (hl : σ.Lineage) {id : RunId} {row : RunRow}
    {p : RunId}
    {s : StepId} (hr : σ'.store.runs.get? id = some row)
    (hk : row.idempotencyKey = some (.invoke p s)) :
    row.parentRunId = some p ∧ row.parentStepId = some s := by
  obtain ⟨r, hr₀, rfl | ⟨i, t, c, _, hch⟩⟩ | ⟨_, i, t,
    ⟨run, hc, rfl, rfl⟩ | ⟨_, _, _, _, _, _, rfl⟩⟩ :=
    h.run_origin hb.fresh hr
  · exact hl.keyed id row p s hr₀ hk
  · obtain ⟨hp, hs⟩ := hl.keyed id r p s hr₀ (hch.idempotencyKey_eq.symm.trans hk)
    exact ⟨hch.parent_eq.1.trans hp, hch.parent_eq.2.trans hs⟩
  · have hk : run.idempotencyKey = some (.invoke p s) := hk
    obtain ⟨_, _, hkey⟩ | ⟨q, s', _, hq, hs', hkey, _⟩ := (hb.obeys_calling hc).2
    · exact absurd hk (hkey p s)
    · rw [hkey] at hk
      cases hk
      exact ⟨hq, hs'⟩
  · cases hk

theorem Move.seen (h : Move E σ l σ') (hb : σ.Base) (hl : σ.Lineage) {i : Nat} {t : Worker}
    {row : RunRow}
    (ht : σ'.pool[i]? = some t) (hrun : t.track.run = some row) :
    t.kind.run? = some row.id ∧ (∀ p, row.parentRunId = some p → p < row.id) ∧
      ∀ q, σ'.store.runs.get? row.id = some q →
        q.parentRunId = row.parentRunId ∧ q.parentStepId = row.parentStepId := by
  -- what was seen before the step
  have hkeep {t₀ : Worker} (ht₀ : σ.pool[i]? = some t₀) (hrun₀ : t₀.track.run = some row) :
      t₀.kind.run? = some row.id ∧ (∀ p, row.parentRunId = some p → p < row.id) ∧
        ∀ q, σ'.store.runs.get? row.id = some q →
          q.parentRunId = row.parentRunId ∧ q.parentStepId = row.parentStepId := by
    obtain ⟨hk, hlt, hrow⟩ := hl.seen i t₀ row ht₀ hrun₀
    refine ⟨hk, hlt, fun q hq => ?_⟩
    obtain ⟨r, hr₀, rfl | ⟨_, _, c, _, hch⟩⟩ | ⟨hnone, _⟩ := h.run_origin hb.fresh hq
    · exact hrow q hr₀
    · obtain ⟨hp, hs⟩ := hrow r hr₀
      exact ⟨hch.parent_eq.1.trans hp, hch.parent_eq.2.trans hs⟩
    · rw [h.deleted hb.fresh (hb.run_lt i t₀ row.id ht₀ hk) hnone] at hq
      cases hq
  cases h.thread ht with
  | stays _ ht₀ => exact hkeep ht₀ hrun
  | spawned _ _ he =>
      subst he
      cases hrun
  | claimed _ _ _ _ _ _ _ he =>
      subst he
      cases hrun
  | crashed t₀ ht₀ _ he =>
      subst he
      exact @hkeep t₀ ht₀ hrun
  | answered t₀ op k ch res ht₀ hp hres he =>
      subst he
      refine @hkeep t₀ ht₀ ?_
      rw [← hrun, Worker.track_answer]
      exact (Track.run_next hres).symm
  | stored t₀ c k locked ht₀ hp he =>
      subst he
      rw [Worker.track_answer] at hrun
      obtain hrun | ⟨id, rfl, ho, hlook⟩ := Track.run_after hrun
      · exact @hkeep t₀ ht₀ hrun
      · generalize hv : ((Call.getRun id).perform σ.store σ.clock locked).2 = v at hlook
        cases hlook
        have hv : σ.store.runs.get? id = some row := hv
        have hid := Table.key_of_get? hv
        subst hid
        refine ⟨(Worker.track_own t₀).1.symm.trans ho, fun p => hl.older row.id row p hv,
          fun q hq => ?_⟩
        rw [h.eq_stored ht₀ hp] at hq
        have hq : σ.store.runs.get? row.id = some q := hq
        rw [hv] at hq
        cases hq
        exact ⟨rfl, rfl⟩

theorem Move.lineage (h : Move E σ l σ') (hb : σ.Base) (hl : σ.Lineage) : σ'.Lineage where
  older _ _ _ := h.older hb hl
  keyed _ _ _ _ := h.keyed hb hl
  seen _ _ _ := h.seen hb hl

theorem Lineage.parentStep_lt (hl : σ.Lineage) {i : Nat} {t : Worker} {p r : RunId} {s : StepId}
    (ht : σ.pool[i]? = some t) (hr : t.kind.run? = some r) (hp : t.track.parentStep = some (p, s)) :
    p < r := by
  obtain ⟨row, hrow, hps⟩ := Option.bind_eq_some_iff.mp hp
  obtain ⟨hk, hlt, _⟩ := hl.seen i t row ht hrow
  rw [hr] at hk
  cases hk
  refine hlt p ?_
  simp only [RunRow.parentStep] at hps
  split at hps
  · next hpar _ =>
      cases hps
      exact hpar
  · cases hps

theorem Lineage.wakes_lt (hl : σ.Lineage) {i : Nat} {t : Worker} {p r : RunId}
    (ht : σ.pool[i]? = some t)
    (hr : t.kind.run? = some r) (hw : t.track.wakes = some p) : p < r := by
  obtain ⟨⟨p', s⟩, hps, rfl⟩ := Option.map_eq_some_iff.mp (t.wakes_parent p hw)
  exact hl.parentStep_lt ht hr hps

theorem lineage_of_run {ok : Sys → Label → Bool} {clock : Time}
    (h : Run (step E) ok (init .empty clock) σ) :
    σ.Lineage :=
  h.invariant Lineage (lineage_init clock)
    (fun _ _ _ hr hl _ hs => (step_move hs).lineage (base_of_run hr) hl)

end Sys

end ZenZip
