import ZenZip.Runtime.Base

namespace ZenZip

open Lib

namespace Call

def settles : Call → Option RunId
  | .runCompleted id _ | .runFailed id _ | .runWaitingEvent id _ _ _ _ | .runWaitingChild id _ =>
      some id
  | _ => none

end Call

/-- The answers after which a run needs no job from the caller any more. -/
inductive Pays : (c : Call) → c.Ret → RunId → Prop
  | pushed (jobs ids r) (h : r ∈ jobs.filterMap PushJob.run?) : Pays (.push jobs) ids r
  | gone (r) : Pays (.getRun r) none r

/-- The answers after which an attempt at `r` needs its own job no more. -/
inductive Releases (r : RunId) : (c : Call) → c.Ret → Prop
  | pushed (jobs ids) (h : r ∈ jobs.filterMap PushJob.run?) : Releases r (.push jobs) ids
  | gone : Releases r (.getRun r) none
  | idle (row) (h : row.status.executable = false) : Releases r (.getRun r) (some row)
  | settled (c v) (h : c.settles = some r) : Releases r c v

namespace Track

variable {g : Track} {c : Call} {v : c.Ret} {r : RunId}

theorem owes_after (c : Call) (v : c.Ret) (h : r ∈ g.owes) :
    r ∈ (g.after c v).owes ∨ Pays c v r := by
  cases c with
  | push jobs =>
      by_cases hr : r ∈ jobs.filterMap PushJob.run?
      · exact .inr (.pushed jobs v r hr)
      · exact .inl (List.mem_filter.mpr ⟨h, by simpa using hr⟩)
  | getRun id =>
      cases v with
      | none =>
          by_cases hr : r = id
          · subst hr
            exact .inr (.gone r)
          · exact .inl (List.mem_filter.mpr ⟨h, by simpa using hr⟩)
      | some row =>
          obtain ⟨run, released, hl⟩ := @looked_some g id row
          refine .inl ?_
          simp only [after]
          rwa [hl]
  | createRun run =>
      obtain ⟨id, created⟩ := v
      cases created with
      | false => exact .inl h
      | true => exact .inl (List.mem_cons_of_mem _ h)
  | wakeParent id =>
      cases v with
      | false => exact .inl h
      | true => exact .inl (List.mem_cons_of_mem _ h)
  | sweepEventTimeouts t => exact .inl (List.mem_append_right _ h)
  | _ => exact .inl h

theorem incurs_owes (h : Incurs c v r) : r ∈ (g.after c v).owes := by
  cases h with
  | created | woken => exact List.mem_cons_self
  | swept t ws w hw => exact List.mem_append_left _ (List.mem_map.mpr ⟨w, hw, rfl⟩)

theorem sleeping_after (c : Call) (v : c.Ret) (h : g.sleeping = true) (ho : g.own = some r) :
    (g.after c v).sleeping = true ∨ Pays c v r := by
  cases c with
  | push jobs =>
      by_cases hr : r ∈ jobs.filterMap PushJob.run?
      · exact .inr (.pushed jobs v r hr)
      · refine .inl ?_
        have hne : ∀ x ∈ jobs.filterMap PushJob.run?, g.own ≠ some x := by
          rintro x hx hox
          rw [ho] at hox
          cases hox
          exact hr hx
        simp only [after, pushed, h, Bool.true_and, Bool.not_eq_true', List.any_eq_false,
          decide_eq_true_eq]
        exact hne
  | getRun id =>
      obtain ⟨_, _, _, hl⟩ := g.looked_eq id v
      left
      rwa [after, hl]
  | runSleeping => exact .inl rfl
  | _ => exact .inl h

theorem released_after (h : (g.after c v).released = true) (hm : g.mayCall c) :
    g.released = true ∨ ∃ r, g.own = some r ∧ Releases r c v := by
  cases c with
  | push jobs =>
      simp only [after, pushed, Bool.or_eq_true, List.any_eq_true, decide_eq_true_eq] at h
      obtain h | ⟨r, hr, ho⟩ := h
      · exact .inl h
      · exact .inr ⟨r, ho, .pushed jobs v hr⟩
  | getRun id =>
      cases v with
      | none =>
          simp only [after, looked, Bool.or_eq_true, decide_eq_true_eq] at h
          obtain h | ho := h
          · exact .inl h
          · exact .inr ⟨id, ho, .gone⟩
      | some row =>
          by_cases ho : g.own = some id
          · simp only [after] at h
            rw [looked_own ho] at h
            simp only [Bool.or_eq_true, Bool.not_eq_true'] at h
            obtain h | hs := h
            · exact .inl h
            · exact .inr ⟨id, ho, .idle row hs⟩
          · have hl : g.looked id (some row) = g := if_neg ho
            simp only [after] at h
            rw [hl] at h
            exact .inl h
  | runCompleted id output => exact .inr ⟨id, hm.1, .settled _ _ rfl⟩
  | runFailed id error => exact .inr ⟨id, hm.1, .settled _ _ rfl⟩
  | runWaitingEvent id => exact .inr ⟨id, hm.1, .settled _ _ rfl⟩
  | runWaitingChild id => exact .inr ⟨id, hm.1, .settled _ _ rfl⟩
  | createRun run =>
      obtain ⟨id, created⟩ := v
      exact .inl h
  | _ => exact .inl h

theorem next_aside {op : Op} {ch : Choice} {clock : Time} {res : Except String (Val op)}
    (ha : Aside clock op ch res) : (g.next op res).released = g.released ∧
      ((∃ e, ch = .fail e ∧ g.next op res = g.failed) ∨
        (g.next op res).owes = g.owes ∧ (g.next op res).sleeping = g.sleeping ∧
          (g.next op res).wakes = g.wakes) := by
  cases ha with
  | failed c e => exact ⟨rfl, .inl ⟨e, rfl, rfl⟩⟩
  | clock | draw => exact ⟨rfl, .inr ⟨rfl, rfl, rfl⟩⟩
  | outcome req o => cases o <;> exact ⟨rfl, .inr ⟨rfl, rfl, rfl⟩⟩

theorem handed_aside {op : Op} {ch : Choice} {clock : Time} {res : Except String (Val op)}
    (ha : Aside clock op ch res) :
    (g.next op res).handed = g.handed ∧ (g.next op res).acked = g.acked ∧
      ((∃ e, ch = .fail e) ∨ (g.next op res).erred = g.erred) := by
  cases ha with
  | failed c e => exact ⟨rfl, rfl, .inl ⟨e, rfl⟩⟩
  | clock | draw => exact ⟨rfl, rfl, .inr rfl⟩
  | outcome req o => cases o <;> exact ⟨rfl, rfl, .inr rfl⟩

end Track

namespace Worker

/-- The thread has made the run runnable, or put it to sleep, and has not yet
pushed a job for it. -/
def owes (t : Worker) (r : RunId) : Bool :=
  decide (r ∈ t.track.owes) || (t.track.sleeping && decide (t.kind.run? = some r))

theorem owes_iff {t : Worker} {r : RunId} :
    t.owes r = true ↔ r ∈ t.track.owes ∨ t.track.sleeping = true ∧ t.kind.run? = some r := by
  simp [owes]

theorem live_of_owes {t : Worker} (ho : t.Obeys) {r : RunId} (h : t.owes r = true) :
    t.live = true := by
  cases hl : t.live with
  | true => rfl
  | false =>
      obtain ⟨howes, _, hsleep⟩ := ho.idle hl
      obtain h | ⟨h, _⟩ := owes_iff.mp h
      · rw [howes] at h
        cases h
      · rw [hsleep] at h
        cases h

theorem owes_answer {t : Worker} (c : Call) (v : c.Ret) (p : M Reply) {r : RunId}
    (h : t.owes r = true) :
    Worker.owes (t.answer (.store c) (.ok v) p) r = true ∨ Pays c v r := by
  obtain h | ⟨hs, ho⟩ := owes_iff.mp h
  · exact (Track.owes_after c v h).imp_left (fun h => owes_iff.mpr (.inl h))
  · have ho' : t.track.own = some r := (track_own t).1.trans ho
    exact (Track.sleeping_after c v hs ho').imp_left (fun h => owes_iff.mpr (.inr ⟨h, ho⟩))

end Worker

namespace Sys

variable {E : WorkflowEngine} {σ σ' : Sys} {l : Label}

theorem Move.length_le (h : Move E σ l σ') : σ.pool.length ≤ σ'.pool.length := by
  cases h with
  | ticked | renewed | recorded => exact Nat.le_refl _
  | spawned => simp [Config.spawn]
  | claimed => simp [Config.spawn, withStore]
  | stored | answered | crashed => exact Nat.le_of_eq List.length_set.symm

theorem Move.thread_of (h : Move E σ l σ') {k : Nat} {t : Worker} (ht : σ.pool[k]? = some t) :
    ∃ u, σ'.pool[k]? = some u ∧ ThreadMove E σ k u l := by
  have hlt := Nat.lt_of_lt_of_le (lt_of_getElem? ht) h.length_le
  exact ⟨σ'.pool[k], List.getElem?_eq_getElem hlt, h.thread (List.getElem?_eq_getElem hlt)⟩

end Sys

end ZenZip
