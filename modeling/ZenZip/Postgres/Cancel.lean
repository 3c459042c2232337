import ZenZip.Lib.Levels
import ZenZip.Runtime.Cancel

namespace ZenZip

open Lib

namespace Postgres

def cancelledRow (now : Time) (r : RunRow) : RunRow :=
  { r with
    status := .cancelled, waitEvent := none, waitStepId := none, waitMatch := none, wakeAt := none,
           updatedAt := now }

theorem cancelledRow_id (now : Time) (r : RunRow) : (cancelledRow now r).id = r.id := rfl

/-- `WITH RECURSIVE tree`. A forest has no more levels than rows. -/
def tree (s : Store) (root : RunId) : List RunId :=
  levels s.childrenOf s.runs.rows.length ((s.runs.select (fun r => r.id = root)).map (·.id))

def cancelRunTree (s : Store) (root : RunId) (now : Time) : Store × Nat :=
  let p := fun r : RunRow => decide (r.id ∈ tree s root) && !r.status.terminal
  ({ s with runs := s.runs.update p (cancelledRow now) (cancelledRow_id now) },
    (s.runs.select p).length)

theorem get?_cancelRunTree (s : Store) (root : RunId) (now : Time) (id : RunId) :
    (cancelRunTree s root now).1.runs.get? id = (s.runs.get? id).map (fun r =>
      if decide (r.id ∈ tree s root) && !r.status.terminal then cancelledRow now r else r) :=
  Table.get?_update s.runs _ (cancelledRow now) (cancelledRow_id now) id

end Postgres

namespace Store

inductive Descends (s : Store) (root : RunId) : RunId → Prop
  | root {r : RunRow} (h : s.runs.get? root = some r) : Descends s root root
  | child {p id : RunId} {r : RunRow} (h : Descends s root p) (hr : s.runs.get? id = some r)
      (hp : r.parentRunId = some p) : Descends s root id

def live (s : Store) (id : RunId) : Bool := (s.runs.get? id).any (fun r => !r.status.terminal)

/-- The outcome of a cancellation is that all live descendants of the root are
cancelled and counted, and nothing else has changed. -/
structure TreeCancelled (s : Store) (root : RunId) (out : Store × Nat) : Prop where
  cancelled : ∀ id, Descends s root id → s.live id = true → ∃ r, out.1.runs.get? id = some r ∧
    r.status = .cancelled
  others : ∀ id, ¬ (Descends s root id ∧ s.live id = true) → out.1.runs.get? id = s.runs.get? id
  none_left : ∀ id, Descends s root id → out.1.live id = false
  count : ∃ ids : List RunId, ids.Nodup ∧ (∀ id, id ∈ ids ↔ Descends s root id ∧ s.live id = true) ∧
    out.2 = ids.length

/-- A live run whose parent is a descendant of the root that has ended. -/
def Cut (s : Store) (root : RunId) : Prop :=
  ∃ p id r, Descends s root p ∧ s.live p = false ∧ s.runs.get? id = some r ∧
    r.parentRunId = some p ∧ s.live id = true

variable {s s' : Store} {root id k p : RunId} {r : RunRow} {now : Time}

theorem live_iff : s.live id = true ↔ ∃ r, s.runs.get? id = some r ∧ r.status.terminal = false := by
  rw [live, Option.any_eq_true]
  simp only [Bool.not_eq_true']

theorem live_of_get? (h : s.runs.get? id = some r) : s.live id = !r.status.terminal := by
  rw [live, h, Option.any_some]

theorem Descends.row (h : Descends s root id) : ∃ r, s.runs.get? id = some r := by
  cases h with
  | root h => exact ⟨_, h⟩
  | child _ hr _ => exact ⟨_, hr⟩

theorem mem_childrenOf : k ∈ s.childrenOf id ↔
    ∃ r, s.runs.get? k = some r ∧ r.parentRunId = some id := by
  rw [childrenOf, List.mem_map]
  constructor
  · rintro ⟨r, hr, rfl⟩
    obtain ⟨hr, hp⟩ := Table.mem_select.mp hr
    exact ⟨r, Table.get?_key hr, of_decide_eq_true hp⟩
  · rintro ⟨r, hr, hp⟩
    obtain ⟨hmem, hid⟩ := Table.get?_eq_some_iff.mp hr
    exact ⟨r, Table.mem_select.mpr ⟨hmem, decide_eq_true hp⟩, hid⟩

theorem linked_iff_descends :
    Linked s.childrenOf ((s.runs.select (fun r => r.id = root)).map (·.id)) id ↔
    Descends s root id := by
  constructor
  · intro h
    induction h with
    | start h =>
        obtain ⟨r, hr, rfl⟩ := List.mem_map.mp h
        obtain ⟨hmem, hroot⟩ := Table.mem_select.mp hr
        obtain rfl : r.id = root := of_decide_eq_true hroot
        exact .root (Table.get?_key hmem)
    | link _ hy ih =>
        obtain ⟨r, hr, hp⟩ := mem_childrenOf.mp hy
        exact .child ih hr hp
  · intro h
    induction h with
    | root h =>
        obtain ⟨hmem, hid⟩ := Table.get?_eq_some_iff.mp h
        exact .start (List.mem_map.mpr ⟨_, Table.mem_select.mpr ⟨hmem, decide_eq_true hid⟩, hid⟩)
    | child _ hr hp ih => exact .link ih (mem_childrenOf.mpr ⟨_, hr, hp⟩)

theorem mem_tree_iff (hs : s.Forest) : id ∈ Postgres.tree s root ↔ Descends s root id := by
  obtain ⟨rank, hrank⟩ := hs
  have hstart : (s.runs.select (fun r => r.id = root)).map (·.id) ⊆ s.runs.rows.map (·.id) :=
    (List.filter_sublist.map _).subset
  have hnext : ∀ x ∈ s.runs.rows.map (·.id), s.childrenOf x ⊆ s.runs.rows.map (·.id) :=
    fun _ _ => (List.filter_sublist.map _).subset
  have hlt : ∀ x ∈ s.runs.rows.map (·.id), ∀ y ∈ s.childrenOf x, rank x < rank y := by
    intro x hx y hy
    obtain ⟨q, hq⟩ := Table.mem_keys_iff.mp hx
    obtain ⟨r, hr, hp⟩ := mem_childrenOf.mp hy
    exact hrank y r x q hr hp hq
  have hmem := mem_levels_iff_linked (x := id) hstart hnext hlt
  rw [List.length_map] at hmem
  exact hmem.trans linked_iff_descends

theorem get?_cancelRunTree_postgres (hs : s.Forest) (h : s.runs.get? id = some r) :
    (Descends s root id ∧ s.live id = true →
      (Postgres.cancelRunTree s root now).1.runs.get? id = some (Postgres.cancelledRow now r)) ∧
    (¬ (Descends s root id ∧ s.live id = true) →
    (Postgres.cancelRunTree s root now).1.runs.get? id = some r) := by
  have hkey : r.id = id := Table.key_of_get? h
  rw [Postgres.get?_cancelRunTree, h, Option.map_some, hkey, live_of_get? h, ← mem_tree_iff hs]
  constructor
  · rintro ⟨hm, hlive⟩
    rw [decide_eq_true hm, hlive]
    rfl
  · intro hn
    rw [if_neg]
    rwa [Bool.and_eq_true, decide_eq_true_eq]

theorem treeCancelled_postgres (hs : s.Forest) (root : RunId) (now : Time) :
    TreeCancelled s root (Postgres.cancelRunTree s root now) := by
  constructor
  · intro id hd hlive
    obtain ⟨r, hr⟩ := hd.row
    exact ⟨_, (get?_cancelRunTree_postgres hs hr).1 ⟨hd, hlive⟩, rfl⟩
  · intro id hn
    cases hr : s.runs.get? id with
    | none =>
        rw [Postgres.get?_cancelRunTree, hr]
        rfl
    | some r => exact (get?_cancelRunTree_postgres hs hr).2 hn
  · intro id hd
    obtain ⟨r, hr⟩ := hd.row
    by_cases hlive : s.live id = true
    · rw [live_of_get? ((get?_cancelRunTree_postgres hs hr).1 ⟨hd, hlive⟩)]
      rfl
    · rw [live_of_get?
        ((get?_cancelRunTree_postgres hs hr).2 (fun h => hlive h.2)), ← live_of_get? hr]
      exact Bool.eq_false_of_not_eq_true hlive
  · let p := fun r : RunRow => decide (r.id ∈ Postgres.tree s root) && !r.status.terminal
    refine ⟨(s.runs.select p).map (·.id), s.runs.nodup.sublist (List.filter_sublist.map RunRow.id),
      fun id => ?_,
      (List.length_map _).symm⟩
    rw [List.mem_map]
    constructor
    · rintro ⟨r, hr, rfl⟩
      obtain ⟨hmem, hp⟩ := Table.mem_select.mp hr
      simp only [p, Bool.and_eq_true, decide_eq_true_eq] at hp
      refine ⟨(mem_tree_iff hs).mp hp.1, ?_⟩
      rw [live_of_get? (Table.get?_key hmem)]
      exact hp.2
    · rintro ⟨hd, hlive⟩
      obtain ⟨r, hr, ht⟩ := live_iff.mp hlive
      obtain ⟨hmem, rfl⟩ := Table.get?_eq_some_iff.mp hr
      exact ⟨r, Table.mem_select.mpr ⟨hmem, by simp [p, (mem_tree_iff hs).mpr hd, ht]⟩, rfl⟩

/-- The runs whose parent is live, each of which the worklist can still get. -/
def liveChildren (s : Store) : Nat := s.runs.rows.countP (fun r => r.parentRunId.any s.live)

theorem live_cancelRow (hlive : s.live id = true) (k : RunId) :
    (s.cancelRow id now).live k = (decide (k ≠ id) && s.live k) := by
  obtain ⟨r, hr, ht⟩ := live_iff.mp hlive
  by_cases hk : k = id
  · subst hk
    rw [live_of_get? (get?_cancelRow_self hr ht now)]
    simp [cancelledRow, RunStatus.terminal]
  · rw [live, get?_cancelRow_ne s hk, ← live]
    simp [hk]

theorem parent_cancelRow (h : s.runs.get? k = some r) (id : RunId) (now : Time) :
    ∃ r', (s.cancelRow id now).runs.get? k = some r' ∧ r'.parentRunId = r.parentRunId := by
  rw [get?_cancelRow, h, Option.map_some]
  split
  · split
    · exact ⟨_, rfl, rfl⟩
    · exact ⟨r, rfl, rfl⟩
  · exact ⟨r, rfl, rfl⟩

theorem liveChildren_cancelRow (hlive : s.live id = true) (now : Time) :
    ((s.cancelRow id now).childrenOf id).length +
      (s.cancelRow id now).liveChildren = s.liveChildren := by
  let f (r : RunRow) : RunRow :=
    if decide (r.id = id) && !r.status.terminal then cancelledRow now r else r
  have hrows : (s.cancelRow id now).runs.rows = s.runs.rows.map f := rfl
  have hparent (r : RunRow) : (f r).parentRunId = r.parentRunId := by
    simp only [f]
    split <;> rfl
  have hchildren : ((s.cancelRow id now).childrenOf id).length =
      (s.runs.rows.filter (fun r => r.parentRunId = some id)).countP
        (fun r => r.parentRunId.any s.live) := by
    rw [childrenOf, List.length_map, Table.select, hrows, ← List.countP_eq_length_filter,
      List.countP_map, List.countP_filter]
    refine List.countP_congr (fun r _ => ?_)
    by_cases hp : r.parentRunId = some id
    · simp [hparent, hp, hlive]
    · simp [hparent, hp]
  have hothers : (s.cancelRow id now).liveChildren =
      (s.runs.rows.filter (fun r => !decide (r.parentRunId = some id))).countP
        (fun r => r.parentRunId.any s.live) := by
    rw [liveChildren, hrows, List.countP_map, List.countP_filter]
    refine List.countP_congr (fun r _ => ?_)
    cases hp : r.parentRunId with
    | none => simp [hparent, hp]
    | some p => simp [hparent, hp, live_cancelRow hlive, and_comm]
  rw [hchildren, hothers, liveChildren, ← List.countP_eq_countP_filter_add]

theorem live_cancelLoop {fuel : Nat} {frontier : List RunId} (h : s.live id = false) :
    (cancelLoop now fuel frontier s).1.live id = false := by
  obtain he | ⟨r, hr, ht, _⟩ := get?_cancelLoop now fuel frontier s id
  · rwa [live, he]
  · rw [live_of_get? hr, ht] at h
    cases h

theorem cancelledBy_iff {fuel : Nat} {frontier : List RunId} :
    CancelledBy s (cancelLoop now fuel frontier s).1 k ↔
      s.live k = true ∧ (cancelLoop now fuel frontier s).1.live k = false := by
  constructor
  · rintro ⟨hbefore, r, hr, hs⟩
    rw [live_of_get? hr, hs]
    exact ⟨live_iff.mpr hbefore, rfl⟩
  · rintro ⟨hbefore, hafter⟩
    have hbefore := live_iff.mp hbefore
    refine ⟨hbefore, ?_⟩
    obtain ⟨r, hr, ht⟩ := hbefore
    obtain he | ⟨_, _, _, hc⟩ := get?_cancelLoop now fuel frontier s k
    · rw [live_of_get? (he.trans hr), ht] at hafter
      cases hafter
    · exact ⟨_, hc, rfl⟩

theorem cancelLoop_live (hlive : s.live id = true) (fuel : Nat) (frontier : List RunId) :
    cancelLoop now (fuel + 1) (id :: frontier) s =
      ((cancelLoop now fuel (((s.cancelRow id now).childrenOf id).reverse ++ frontier)
        (s.cancelRow id now)).1,
        (cancelLoop now fuel (((s.cancelRow id now).childrenOf id).reverse ++ frontier)
          (s.cancelRow id now)).2 + 1) :=
  if_pos hlive

theorem cancelLoop_dead (hdead : s.live id = false) (fuel : Nat) (frontier : List RunId) :
    cancelLoop now (fuel + 1) (id :: frontier) s = cancelLoop now fuel frontier s := by
  apply if_neg
  rw [← live, hdead]
  exact Bool.false_ne_true

/-- With fuel for what is on the worklist and what can still come, the loop ends
every run on it and every child of a run that it cancels. -/
theorem cancelLoop_ends (now : Time) (fuel : Nat) (frontier : List RunId) (s : Store)
    (hfuel : frontier.length + s.liveChildren ≤ fuel) :
    (∀ id ∈ frontier, (cancelLoop now fuel frontier s).1.live id = false) ∧
    ∀ p k r, s.live p = true → (cancelLoop now fuel frontier s).1.live p = false →
    s.runs.get? k = some r →
      r.parentRunId = some p → (cancelLoop now fuel frontier s).1.live k = false := by
  induction fuel generalizing frontier s with
  | zero =>
      obtain rfl : frontier = [] := List.eq_nil_of_length_eq_zero (by omega)
      exact ⟨fun id hid => (by cases hid),
        fun p k r hlive hafter => Bool.noConfusion (hlive.symm.trans hafter)⟩
  | succ fuel ih =>
      cases frontier with
      | nil =>
          exact ⟨fun id hid => (by cases hid),
            fun p k r hlive hafter => Bool.noConfusion (hlive.symm.trans hafter)⟩
      | cons id frontier =>
          by_cases hlive : s.live id = true
          · rw [cancelLoop_live hlive]
            have hmeasure := liveChildren_cancelRow hlive now
            rw [List.length_cons] at hfuel
            obtain ⟨hfront, hchild⟩ :=
              ih (((s.cancelRow id now).childrenOf id).reverse ++ frontier) (s.cancelRow id now)
              (by rw [List.length_append, List.length_reverse]; omega)
            constructor
            · intro k hk
              rcases List.mem_cons.mp hk with rfl | hk
              · exact live_cancelLoop (by simp [live_cancelRow hlive])
              · exact hfront k (List.mem_append_right _ hk)
            · intro p k r hp hafter hr hpr
              obtain ⟨r', hr', he⟩ := parent_cancelRow hr id now
              have hpr' : r'.parentRunId = some p := he.trans hpr
              by_cases hpid : p = id
              · subst hpid
                exact hfront k
                  (List.mem_append_left
                    _ (List.mem_reverse.mpr (mem_childrenOf.mpr ⟨r', hr', hpr'⟩)))
              · exact hchild p k r' (by simp [live_cancelRow hlive, hpid, hp]) hafter hr' hpr'
          · have hdead : s.live id = false := Bool.eq_false_of_not_eq_true hlive
            rw [cancelLoop_dead hdead]
            rw [List.length_cons] at hfuel
            obtain ⟨hfront, hchild⟩ := ih frontier s (by omega)
            refine ⟨fun k hk => ?_, hchild⟩
            rcases List.mem_cons.mp hk with rfl | hk
            · exact live_cancelLoop hdead
            · exact hfront k hk

theorem cancelLoop_count (now : Time) (fuel : Nat) (frontier : List RunId) (s : Store) :
    ∃ ids : List RunId, ids.Nodup ∧
      (∀ k, k ∈ ids ↔ s.live k = true ∧ (cancelLoop now fuel frontier s).1.live k = false) ∧
      (cancelLoop now fuel frontier s).2 = ids.length := by
  have hnone (s : Store) : ∃ ids : List RunId, ids.Nodup ∧
    (∀ k, k ∈ ids ↔ s.live k = true ∧ s.live k = false) ∧
      0 = ids.length := by
    refine ⟨[], List.nodup_nil, fun k => ⟨fun hk => (by cases hk), ?_⟩, rfl⟩
    rintro ⟨hlive, hdead⟩
    exact Bool.noConfusion (hlive.symm.trans hdead)
  induction fuel generalizing frontier s with
  | zero => exact hnone s
  | succ fuel ih =>
      cases frontier with
      | nil => exact hnone s
      | cons id frontier =>
          by_cases hlive : s.live id = true
          · rw [cancelLoop_live hlive]
            obtain ⟨ids, hn, hids, hcount⟩ :=
              ih (((s.cancelRow id now).childrenOf id).reverse ++ frontier) (s.cancelRow id now)
            have hmem (k : RunId) : k ∈ ids ↔ k ≠ id ∧ s.live k = true ∧ (cancelLoop now fuel
                (((s.cancelRow id now).childrenOf id).reverse ++ frontier)
                  (s.cancelRow id now)).1.live k = false := by
              rw [hids, live_cancelRow hlive]
              simp [and_assoc]
            refine ⟨id :: ids, List.nodup_cons.mpr ⟨fun hm => ((hmem id).mp hm).1 rfl, hn⟩,
              fun k => ?_, ?_⟩
            · rw [List.mem_cons, hmem]
              constructor
              · rintro (rfl | ⟨_, h⟩)
                · exact ⟨hlive, live_cancelLoop (by simp [live_cancelRow hlive])⟩
                · exact h
              · intro h
                by_cases hk : k = id
                · exact .inl hk
                · exact .inr ⟨hk, h⟩
            · rw [List.length_cons, ← hcount]
          · rw [cancelLoop_dead (Bool.eq_false_of_not_eq_true hlive)]
            exact ih frontier s

theorem cancelRunTree_ends (s : Store) (root : RunId) (now : Time) :
    (s.cancelRunTree root now).1.live root = false ∧
    ∀ p k r, s.live p = true → (s.cancelRunTree root now).1.live p = false →
    s.runs.get? k = some r →
      r.parentRunId = some p → (s.cancelRunTree root now).1.live k = false := by
  have hfuel : [root].length + s.liveChildren ≤ s.runs.rows.length + 1 := by
    have hle : s.liveChildren ≤ s.runs.rows.length := List.countP_le_length
    rw [List.length_singleton]
    omega
  obtain ⟨hroot, hchild⟩ := cancelLoop_ends now (s.runs.rows.length + 1) [root] s hfuel
  exact ⟨hroot root (List.mem_singleton_self root), hchild⟩

theorem descends_of_cancelled (hs : s.Forest) (hlive : s.live k = true)
    (hdead : (s.cancelRunTree root now).1.live k = false) : Descends s root k := by
  obtain ⟨rank, hrank⟩ := hs
  induction hn : rank k using Nat.strong_induction_on generalizing k with
  | _ n ih =>
      subst hn
      obtain hm | ⟨r, p, hr, hp, hc⟩ := cancelLoop_cancelled now (s.runs.rows.length + 1) [root] s
        (cancelledBy_iff.mpr ⟨hlive, hdead⟩)
      · obtain rfl := List.mem_singleton.mp hm
        obtain ⟨r, hr, _⟩ := live_iff.mp hlive
        exact .root hr
      · obtain ⟨q, hq, _⟩ := hc.before
        obtain ⟨hlive', hdead'⟩ := cancelledBy_iff.mp hc
        exact .child (ih (rank p) (hrank k r p q hr hp hq) hlive' hdead' rfl) hr hp

theorem rank_le_of_descends {rank : RunId → Nat} (hrank : ∀ id r p q, s.runs.get? id = some r →
    r.parentRunId = some p → s.runs.get? p = some q → rank p < rank id) (h : Descends s root k) :
    rank root ≤ rank k := by
  induction h with
  | root => exact Nat.le_refl _
  | child h hr hp ih =>
      obtain ⟨q, hq⟩ := h.row
      exact Nat.le_trans ih (Nat.le_of_lt (hrank _ _ _ q hr hp hq))

theorem cancelled_of_not_cut (hcut : ¬ s.Cut root) (h : Descends s root k) :
    (s.cancelRunTree root now).1.live k = false := by
  induction h with
  | root => exact (cancelRunTree_ends s root now).1
  | @child p id r h hr hp ih =>
      by_cases hlive : s.live id = true
      · by_cases hplive : s.live p = true
        · exact (cancelRunTree_ends s root now).2 p id r hplive ih hr hp
        · exact absurd ⟨p, id, r, h, Bool.eq_false_of_not_eq_true hplive, hr, hp, hlive⟩ hcut
      · exact live_cancelLoop (Bool.eq_false_of_not_eq_true hlive)

theorem treeCancelled_of_not_cut (hs : s.Forest) (hcut : ¬ s.Cut root) (now : Time) :
    TreeCancelled s root (s.cancelRunTree root now) := by
  constructor
  · intro id hd hlive
    exact (cancelledBy_iff.mpr ⟨hlive, cancelled_of_not_cut hcut hd⟩).after
  · intro id hn
    obtain he | ⟨r, hr, ht, hc⟩ := get?_cancelLoop now (s.runs.rows.length + 1) [root] s id
    · exact he
    · have hlive : s.live id = true := live_iff.mpr ⟨r, hr, ht⟩
      exact absurd
        ⟨descends_of_cancelled hs hlive (by rw [cancelRunTree, live_of_get? hc]; rfl), hlive⟩ hn
  · exact fun id hd => cancelled_of_not_cut hcut hd
  · obtain ⟨ids, hn, hids, hcount⟩ := cancelLoop_count now (s.runs.rows.length + 1) [root] s
    refine ⟨ids, hn, fun id => (hids id).trans ?_, hcount⟩
    constructor
    · rintro ⟨hlive, hdead⟩
      exact ⟨descends_of_cancelled hs hlive hdead, hlive⟩
    · rintro ⟨hd, hlive⟩
      exact ⟨hlive, cancelled_of_not_cut hcut hd⟩

theorem not_treeCancelled_of_cut (hs : s.Forest) (hcut : s.Cut root) (now : Time) :
    ¬ TreeCancelled s root (s.cancelRunTree root now) := by
  intro h
  obtain ⟨p, id, r, hd, hdead, hr, hp, hlive⟩ := hcut
  have hid := h.none_left id (.child hd hr hp)
  obtain ⟨rank, hrank⟩ := hs
  obtain ⟨q, hq⟩ := hd.row
  obtain hm | ⟨r', p', hr', hp', hc⟩ := cancelLoop_cancelled now (s.runs.rows.length + 1) [root] s
    (cancelledBy_iff.mpr ⟨hlive, hid⟩)
  · obtain rfl := List.mem_singleton.mp hm
    have hle := rank_le_of_descends hrank hd
    have hlt := hrank id r p q hr hp hq
    omega
  · obtain rfl : r = r' := Option.some.inj (hr.symm.trans hr')
    obtain rfl : p = p' := Option.some.inj (hp.symm.trans hp')
    exact Bool.noConfusion ((cancelledBy_iff.mp hc).1.symm.trans hdead)

/-- Both stores cancel a whole tree, and so the same runs, exactly when no live run of it
hangs below an ended one. -/
theorem trees_cancelled_iff (hs : s.Forest) (root : RunId) (now : Time) :
    TreeCancelled s root (s.cancelRunTree root now) ∧
      TreeCancelled s root (Postgres.cancelRunTree s root now) ↔
      ¬ s.Cut root := by
  constructor
  · rintro ⟨h, _⟩ hcut
    exact not_treeCancelled_of_cut hs hcut now h
  · intro hcut
    exact ⟨treeCancelled_of_not_cut hs hcut now, treeCancelled_postgres hs root now⟩

end Store

namespace Sys

def cutOrder : List Label :=
  invokeOrder ++ [.claim "order" 1] ++ attemptUpTo 2 (.invoke "sub" "order" none) ++
    [.spawn (.cancel 2), callOk 3, callOk 2]

theorem trees_cancelled_chain : ∃ σ, Run (step sampleEngine) (fun _ _ => true) (init .empty 0) σ ∧
    σ.statusOf 0 = some .waitChild ∧ σ.statusOf 2 = some .runnable ∧
    Store.TreeCancelled σ.store 0 (σ.store.cancelRunTree 0 0) ∧
    Store.TreeCancelled σ.store 0 (Postgres.cancelRunTree σ.store 0 0) := by
  obtain ⟨σ, h, hp⟩ :=
    Run.exists_of_replay (step sampleEngine) (fun _ _ => true) (init .empty 0) invokeOrder
    (fun σ => decide (σ.statusOf 0 = some .waitChild ∧ σ.statusOf 2 = some .runnable) &&
      σ.store.runs.rows.all (fun r => r.parentRunId.all (fun p => p < r.id && σ.store.live p)))
        (by decide +kernel)
  simp only [Bool.and_eq_true, decide_eq_true_eq, List.all_eq_true, Option.all_eq_true] at hp
  obtain ⟨⟨hs₀, hs₂⟩, hparents⟩ := hp
  have hf : σ.store.Forest := Store.forest_of_lt (fun r hr p hp => (hparents r hr p hp).1)
  have hcut : ¬ σ.store.Cut 0 := by
    rintro ⟨p, id, r, _, hdead, hr, hp, _⟩
    have hlive := (hparents r (Table.mem_of_get? hr) p hp).2
    exact Bool.noConfusion (hlive.symm.trans hdead)
  exact ⟨σ, h, hs₀, hs₂, (Store.trees_cancelled_iff hf 0 0).mpr hcut⟩

/-- A run that was started under a cancelled one outlives the cancellation of the whole
tree in SQLite, and not in Postgres. -/
theorem cut_run_survives : ∃ σ, Run (step sampleEngine) (fun _ _ => true) (init .empty 0) σ ∧
    σ.store.Forest ∧ (σ.store.cancelRunTree 0 0).2 = 1 ∧
    (Postgres.cancelRunTree σ.store 0 0).2 = 2 ∧
    ¬ (Store.TreeCancelled σ.store 0 (σ.store.cancelRunTree 0 0) ∧
      Store.TreeCancelled σ.store 0 (Postgres.cancelRunTree σ.store 0 0)) := by
  obtain ⟨σ, h, hp⟩ :=
    Run.exists_of_replay (step sampleEngine) (fun _ _ => true) (init .empty 0) cutOrder
    (fun σ => σ.store.runs.rows.all (fun r => r.parentRunId.all (· < r.id)) &&
      ((σ.store.runs.get? 0).isSome &&
        (σ.store.runs.get? 2).any (fun r => r.parentRunId = some 0 && r.status.terminal) &&
        (σ.store.runs.get? 4).any (fun r => r.parentRunId = some 2 && !r.status.terminal)) &&
      decide ((σ.store.cancelRunTree 0 0).2 = 1 ∧ (Postgres.cancelRunTree σ.store 0 0).2 = 2))
        (by decide +kernel)
  simp only [Bool.and_eq_true, decide_eq_true_eq, List.all_eq_true, Option.all_eq_true,
    Option.any_eq_true,
    Option.isSome_iff_exists, Bool.not_eq_true'] at hp
  obtain ⟨⟨hlt, ⟨⟨r₀, h₀⟩, r₂, h₂, hp₂, ht₂⟩, r₄, h₄, hp₄, ht₄⟩, hcounts⟩ := hp
  have hf : σ.store.Forest := Store.forest_of_lt hlt
  have hcut : σ.store.Cut 0 := by
    refine ⟨2, 4, r₄, .child (.root h₀) h₂ hp₂, ?_, h₄, hp₄, Store.live_iff.mpr ⟨r₄, h₄, ht₄⟩⟩
    rw [Store.live_of_get? h₂, ht₂]
    rfl
  exact ⟨σ, h, hf, hcounts.1, hcounts.2,
    fun hboth => Store.not_treeCancelled_of_cut hf hcut 0 hboth.1⟩

end Sys

end ZenZip
