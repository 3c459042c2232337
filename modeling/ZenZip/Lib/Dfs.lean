import Mathlib.Data.List.Basic

namespace ZenZip.Lib.Dfs

variable {A : Type} [DecidableEq A] (next : A → List (Option A))

abbrev Path := List Nat

def sweep (f : List A → Option A → List A × List Path) :
    List A → Nat → List (Option A) → List A × List Path
  | seen, _, [] => (seen, [])
  | seen, i, o :: os =>
    ((sweep f (f seen o).1 (i + 1) os).1,
      (f seen o).2.map (i :: ·) ++ (sweep f (f seen o).1 (i + 1) os).2)

/-- Depth-first search: the vertices seen at its end, and the paths on which it has come to the new
ones. -/
def visit : Nat → List A → Option A → List A × List Path
  | 0, seen, _ => (seen, [])
  | _ + 1, seen, none => (seen, [])
  | n + 1, seen, some a =>
    if a ∈ seen then (seen, [])
    else ((sweep (visit n) (a :: seen) 0 (next a)).1, [] ::
      (sweep (visit n) (a :: seen) 0 (next a)).2)

def walk : Option A → Path → Option A
  | o, [] => o
  | none, _ :: _ => none
  | some a, i :: p => walk ((next a)[i]?.join) p

structure Covers (target : Path → Option A) (seen seen' : List A) (paths : List Path) : Prop where
  mono : ∀ a ∈ seen, a ∈ seen'
  new : ∀ q ∈ paths, ∃ a, target q = some a ∧ a ∈ seen' ∧ a ∉ seen
  cover : ∀ a ∈ seen', a ∉ seen → ∃ q ∈ paths, target q = some a
  inj : ∀ q ∈ paths, ∀ q' ∈ paths, target q = target q' → q = q'

namespace Covers

variable {target target' : Path → Option A} {seen seen₁ seen₂ : List A} {paths paths' : List Path}

omit [DecidableEq A] in
theorem nil (target : Path → Option A) (seen : List A) : Covers target seen seen [] where
  mono a h := h
  new q h := by cases h
  cover a h hn := absurd h hn
  inj q h := by cases h

omit [DecidableEq A] in
theorem single {a : A} (ha : a ∉ seen) (ht : target [] = some a) :
    Covers target seen (a :: seen) [[]] where
  mono b h := List.mem_cons_of_mem a h
  new q h := by
    rw [List.mem_singleton.mp h]
    exact ⟨a, ht, List.mem_cons_self, ha⟩
  cover b h hn := by
    rcases List.mem_cons.mp h with rfl | h
    · exact ⟨[], List.mem_singleton_self _, ht⟩
    · exact absurd h hn
  inj q h q' h' _ := by rw [List.mem_singleton.mp h, List.mem_singleton.mp h']

theorem append (h : Covers target seen seen₁ paths) (h' : Covers target seen₁ seen₂ paths') :
    Covers target seen seen₂ (paths ++ paths') where
  mono a ha := h'.mono a (h.mono a ha)
  new q hq := by
    rcases List.mem_append.mp hq with hq | hq
    · obtain ⟨a, ht, ha, hn⟩ := h.new q hq
      exact ⟨a, ht, h'.mono a ha, hn⟩
    · obtain ⟨a, ht, ha, hn⟩ := h'.new q hq
      exact ⟨a, ht, ha, fun hs => hn (h.mono a hs)⟩
  cover a ha hn := by
    by_cases h₁ : a ∈ seen₁
    · obtain ⟨q, hq, ht⟩ := h.cover a h₁ hn
      exact ⟨q, List.mem_append_left _ hq, ht⟩
    · obtain ⟨q, hq, ht⟩ := h'.cover a ha h₁
      exact ⟨q, List.mem_append_right _ hq, ht⟩
  inj q hq q' hq' heq := by
    have hdisjoint {q q' : Path} (hq : q ∈ paths) (hq' : q' ∈ paths') : target q ≠ target q' := by
      intro he
      obtain ⟨a, ht, ha, -⟩ := h.new q hq
      obtain ⟨b, ht', -, hb⟩ := h'.new q' hq'
      rw [ht, ht'] at he
      exact hb (Option.some.inj he ▸ ha)
    rcases List.mem_append.mp hq with hq | hq
    · rcases List.mem_append.mp hq' with hq' | hq'
      · exact h.inj q hq q' hq' heq
      · exact absurd heq (hdisjoint hq hq')
    · rcases List.mem_append.mp hq' with hq' | hq'
      · exact absurd heq.symm (hdisjoint hq' hq)
      · exact h'.inj q hq q' hq' heq

omit [DecidableEq A] in
theorem map_cons {i : Nat} (h : Covers target seen seen₁ paths)
    (ht : ∀ q, target' (i :: q) = target q) :
    Covers target' seen seen₁ (paths.map (i :: ·)) where
  mono := h.mono
  new q hq := by
    obtain ⟨p, hp, rfl⟩ := List.mem_map.mp hq
    rw [ht]
    exact h.new p hp
  cover a ha hn := by
    obtain ⟨p, hp, htp⟩ := h.cover a ha hn
    exact ⟨i :: p, List.mem_map_of_mem hp, (ht p).trans htp⟩
  inj q hq q' hq' heq := by
    obtain ⟨p, hp, rfl⟩ := List.mem_map.mp hq
    obtain ⟨p', hp', rfl⟩ := List.mem_map.mp hq'
    rw [ht, ht] at heq
    rw [h.inj p hp p' hp' heq]

end Covers

variable {next}

theorem sweep_covers {f : List A → Option A → List A × List Path}
    (hf : ∀ seen o, Covers (walk next o) seen (f seen o).1 (f seen o).2)
    {a : A} {os : List (Option A)} {i : Nat} (hos : ∀ j, os[j]? = (next a)[i + j]?)
    (seen : List A) :
    Covers (walk next (some a)) seen (sweep f seen i os).1 (sweep f seen i os).2 := by
  induction os generalizing i seen with
  | nil => exact .nil _ seen
  | cons o os ih =>
      have hfirst : (next a)[i]? = some o := (hos 0).symm
      have hchild : Covers (walk next (some a)) seen (f seen o).1 ((f seen o).2.map (i :: ·)) := by
        refine (hf seen o).map_cons (fun q => ?_)
        rw [walk, hfirst]
        rfl
      refine hchild.append (ih (fun j => ?_) _)
      rw [show i + 1 + j = i + (j + 1) by omega, ← hos (j + 1)]
      rfl

theorem visit_covers (next : A → List (Option A)) (n : Nat) (seen : List A) (o : Option A) :
    Covers (walk next o) seen (visit next n seen o).1 (visit next n seen o).2 := by
  induction n generalizing seen o with
  | zero => exact .nil _ seen
  | succ n ih =>
      cases o with
      | none => exact .nil _ seen
      | some a =>
          by_cases ha : a ∈ seen
          · rw [visit, if_pos ha]
            exact .nil _ seen
          · rw [visit, if_neg ha]
            exact (Covers.single ha rfl).append
              (sweep_covers ih (fun j => by rw [Nat.zero_add]) (a :: seen))

section Prefixes

omit [DecidableEq A] in
theorem mem_sweep {f : List A → Option A → List A × List Path} {seen : List A} {i : Nat}
    {os : List (Option A)} {q : Path}
    (h : q ∈ (sweep f seen i os).2) : ∃ j seen' o p, q = j :: p ∧ i ≤ j ∧ p ∈ (f seen' o).2 ∧
      ∀ p' ∈ (f seen' o).2, j :: p' ∈ (sweep f seen i os).2 := by
  induction os generalizing i seen with
  | nil => cases h
  | cons o os ih =>
      rcases List.mem_append.mp h with h | h
      · obtain ⟨p, hp, rfl⟩ := List.mem_map.mp h
        exact ⟨i, seen, o, p, rfl, Nat.le_refl i, hp,
          fun p' hp' => List.mem_append_left _ (List.mem_map_of_mem hp')⟩
      · obtain ⟨j, seen', o', p, rfl, hj, hp, hall⟩ := ih h
        exact ⟨j, seen', o', p, rfl, Nat.le_of_succ_le hj, hp,
          fun p' hp' => List.mem_append_right _ (hall p' hp')⟩

omit [DecidableEq A] in
theorem cons_mem_sweep {f : List A → Option A → List A × List Path} {seen : List A} {i : Nat}
    {o : Option A}
    {os : List (Option A)} {q : Path} : i :: q ∈ (sweep f seen i (o :: os)).2 ↔
    q ∈ (f seen o).2 := by
  rw [sweep, List.mem_append]
  constructor
  · rintro (h | h)
    · obtain ⟨p, hp, heq⟩ := List.mem_map.mp h
      rw [← (List.cons.inj heq).2]
      exact hp
    · obtain ⟨j, seen', o', p, heq, hj, -⟩ := mem_sweep h
      have hij := (List.cons.inj heq).1
      omega
  · exact fun h => .inl (List.mem_map_of_mem h)

omit [DecidableEq A] in
theorem cons_mem_sweep_rest {f : List A → Option A → List A × List Path} {seen : List A} {i j : Nat}
    {o : Option A}
    {os : List (Option A)} {q : Path} :
    (i + (j + 1)) :: q ∈ (sweep f seen i (o :: os)).2 ↔
    (i + 1 + j) :: q ∈ (sweep f (f seen o).1 (i + 1) os).2 := by
  rw [sweep, List.mem_append, show i + (j + 1) = i + 1 + j by omega]
  refine or_iff_right (fun h => ?_)
  obtain ⟨p, -, heq⟩ := List.mem_map.mp h
  have hij := (List.cons.inj heq).1
  omega

theorem visit_none (next : A → List (Option A)) (n : Nat) (seen : List A) :
    visit next n seen none = (seen, []) := by
  cases n <;> rfl

end Prefixes

section Fuel

def left (all seen : List A) : Nat := (all.filter (fun a => a ∉ seen)).length

variable {all seen seen' : List A} {a : A} {n : Nat}

theorem left_le (h : ∀ a ∈ seen, a ∈ seen') : left all seen' ≤ left all seen := by
  rw [left, left, ← List.countP_eq_length_filter, ← List.countP_eq_length_filter]
  refine List.countP_mono_left (fun a _ ha => ?_)
  rw [decide_eq_true_eq] at ha ⊢
  exact fun hs => ha (h a hs)

theorem left_lt (h : a ∈ all) (ha : a ∉ seen) : left all (a :: seen) < left all seen := by
  have hsub : all.filter (fun b => b ∉ a :: seen) =
    (all.filter (fun b => b ∉ seen)).filter (fun b => b ≠ a) := by
    rw [List.filter_filter]
    refine List.filter_congr (fun b _ => ?_)
    by_cases hb : b = a <;> simp [hb]
  rw [left, left, hsub]
  exact List.length_filter_lt_length_iff_exists.mpr
    ⟨a, List.mem_filter.mpr ⟨h, by simpa using ha⟩, by simp⟩

structure Complete (next : A → List (Option A)) (seen seen' : List A) (os : List (Option A)) :
    Prop where
  roots : ∀ a, some a ∈ os → a ∈ seen'
  next : ∀ a ∈ seen', a ∉ seen → ∀ b, some b ∈ next a → b ∈ seen'

theorem sweep_complete {f : List A → Option A → List A × List Path}
    (hcovers : ∀ seen o, Covers (walk next o) seen (f seen o).1 (f seen o).2)
    {bound : Nat}
    (hf : ∀ seen o, (∀ a, o = some a → a ∈ all) → left all seen < bound →
    Complete next seen (f seen o).1 [o])
    {os : List (Option A)} (hos : ∀ a, some a ∈ os → a ∈ all) (i : Nat)
    (hleft : left all seen < bound) :
    (∀ a ∈ seen, a ∈ (sweep f seen i os).1) ∧ Complete next seen (sweep f seen i os).1 os := by
  induction os generalizing seen i with
  | nil => exact ⟨fun a h => h, fun a h => absurd h List.not_mem_nil, fun a h hn => absurd h hn⟩
  | cons o os ih =>
      have hmono := (hcovers seen o).mono
      have hfirst := hf seen o (fun a ha => hos a (by rw [ha]; exact List.mem_cons_self)) hleft
      obtain ⟨hmono', hrest⟩ :=
        ih (fun a ha => hos a (List.mem_cons_of_mem o ha)) (i + 1)
          (Nat.lt_of_le_of_lt (left_le hmono) hleft)
      refine ⟨fun a ha => hmono' a (hmono a ha), fun a ha => ?_, fun a ha hn b hb => ?_⟩
      · rcases List.mem_cons.mp ha with rfl | ha
        · exact hmono' a (hfirst.roots a (List.mem_singleton_self _))
        · exact hrest.roots a ha
      · by_cases h₁ : a ∈ (f seen o).1
        · exact hmono' b (hfirst.next a h₁ hn b hb)
        · exact hrest.next a ha h₁ b hb

theorem visit_complete (hall : ∀ a ∈ all, ∀ b, some b ∈ next a → b ∈ all) {o : Option A}
    (ho : ∀ a, o = some a → a ∈ all)
    (hn : left all seen < n) : Complete next seen (visit next n seen o).1 [o] := by
  induction n generalizing seen o with
  | zero => exact absurd hn (Nat.not_lt_zero _)
  | succ n ih =>
      cases o with
      | none =>
          exact ⟨fun a h => absurd (List.mem_singleton.mp h) (Option.some_ne_none a),
            fun a h hn => absurd h hn⟩
      | some a =>
          by_cases ha : a ∈ seen
          · rw [visit, if_pos ha]
            refine ⟨fun b hb => ?_, fun b h hn => absurd h hn⟩
            rw [Option.some.inj (List.mem_singleton.mp hb)]
            exact ha
          · rw [visit, if_neg ha]
            have hleft : left all (a :: seen) < n :=
              Nat.lt_of_lt_of_le (left_lt (ho a rfl) ha) (Nat.le_of_lt_succ hn)
            obtain ⟨hmono, hrest⟩ :=
              sweep_complete (visit_covers next n) (fun seen o ho hs => ih ho hs)
                (hall a (ho a rfl)) 0 hleft
            refine ⟨fun b hb => ?_, fun b hb hn b' hb' => ?_⟩
            · rw [Option.some.inj (List.mem_singleton.mp hb)]
              exact hmono a List.mem_cons_self
            · by_cases hba : b = a
              · rw [hba] at hb'
                exact hrest.roots b' hb'
              · exact hrest.next b hb (fun hs => (List.mem_cons.mp hs).elim hba hn) b' hb'

omit [DecidableEq A] in
theorem walk_mem {o : Option A} (h : Complete next [] seen' [o]) {q : Path}
    (hq : walk next o q = some a) : a ∈ seen' := by
  have hstep (q : Path) : ∀ b, b ∈ seen' → ∀ a, walk next (some b) q = some a → a ∈ seen' := by
    induction q with
    | nil =>
        intro b hb a ha
        rw [← Option.some.inj ha]
        exact hb
    | cons i q ih =>
        intro b hb a ha
        rw [walk] at ha
        cases hjoin : (next b)[i]?.join with
        | none =>
            rw [hjoin] at ha
            cases q <;> cases ha
        | some c =>
            rw [hjoin] at ha
            refine ih c (h.next b hb List.not_mem_nil c ?_) a ha
            exact List.mem_of_getElem? (Option.join_eq_some_iff.mp hjoin)
  cases o with
  | none => cases q <;> cases hq
  | some b => exact hstep q b (h.roots b (List.mem_singleton_self _)) a hq

end Fuel

end ZenZip.Lib.Dfs
