import ZenZip.Lib.Run
import Mathlib.Data.List.Perm.Subperm
import Mathlib.Data.List.Range

namespace ZenZip.Lib

/-- Runners that start one behind the other, each on a pass of a runner that has started; who has
passed. -/
structure Relay where
  started : Nat
  passed : List Nat

namespace Relay

def start : Relay := ⟨1, []⟩

/-- A runner passes once, and only one of those that do. -/
def step (passes : Nat → Bool) (s : Relay) (k : Nat) : Option Relay :=
  if k < s.started ∧ k ∉ s.passed ∧ passes k = true then some ⟨s.started + 1, k :: s.passed⟩
    else none

abbrev Reached (passes : Nat → Bool) : Relay → Prop := Run (step passes) (fun _ _ => true) start

/-- All starts but the first one are passes of different runners. -/
structure Counted (passes : Nat → Bool) (s : Relay) : Prop where
  nodup : s.passed.Nodup
  length : s.passed.length + 1 = s.started
  runner : ∀ k ∈ s.passed, k < s.started ∧ passes k = true

variable {passes : Nat → Bool} {s s' : Relay} {k g : Nat}

theorem step_eq_some (h : step passes s k = some s') :
    k < s.started ∧ k ∉ s.passed ∧ passes k = true ∧ s' = ⟨s.started + 1, k :: s.passed⟩ := by
  obtain ⟨⟨hk, hp, hpass⟩, he⟩ := Option.ite_none_right_eq_some.mp h
  exact ⟨hk, hp, hpass, (Option.some.inj he).symm⟩

theorem Counted.start : Counted passes start where
  nodup := List.nodup_nil
  length := rfl
  runner k hk := by cases hk

theorem Counted.step (h : Counted passes s) (hs : Relay.step passes s k = some s') :
    Counted passes s' := by
  obtain ⟨hk, hp, hpass, rfl⟩ := step_eq_some hs
  constructor
  · exact List.nodup_cons.mpr ⟨hp, h.nodup⟩
  · simp [h.length]
  · intro j hj
    rcases List.mem_cons.mp hj with rfl | hj
    · exact ⟨Nat.lt_succ_of_lt hk, hpass⟩
    · obtain ⟨hlt, hpass'⟩ := h.runner j hj
      exact ⟨Nat.lt_succ_of_lt hlt, hpass'⟩

theorem Reached.counted (h : Reached passes s) : Counted passes s :=
  h.invariant (Counted passes) .start fun _ _ _ _ hI _ hs => hI.step hs

theorem length_le_of_lt {ks : List Nat} (hn : ks.Nodup) (hlt : ∀ k ∈ ks, k < g + 1 ∧ k ≠ g) :
    ks.length ≤ g := by
  have hsub : ks ⊆ List.range g := by
    intro k hk
    obtain ⟨hle, hne⟩ := hlt k hk
    exact List.mem_range.mpr (by omega)
  have hle := (List.subperm_of_subset hn hsub).length_le
  rwa [List.length_range] at hle

theorem Reached.started_le (hg : passes g = false) (h : Reached passes s) : s.started ≤ g + 1 := by
  refine h.invariant (fun s => s.started ≤ g + 1) (Nat.le_add_left 1 g) ?_
  intro s k s' hr hle _ hs
  have hbefore := Reached.counted hr
  have hcounted := hbefore.step hs
  obtain ⟨hk, _, _, rfl⟩ := step_eq_some hs
  dsimp only
  by_contra hgt
  -- all of the runners up to `g` have started, so those who have passed are too few
  have hstarted : s.started = g + 1 := by omega
  have hpassed : (k :: s.passed).length ≤ g := by
    apply length_le_of_lt hcounted.nodup
    intro j hj
    obtain ⟨_, hpass⟩ := hcounted.runner j hj
    refine ⟨?_, fun hjg => ?_⟩
    · rw [← hstarted]
      rcases List.mem_cons.mp hj with rfl | hj
      · exact hk
      · exact (hbefore.runner j hj).1
    · rw [hjg, hg] at hpass
      cases hpass
  have hlength := hbefore.length
  rw [List.length_cons] at hpassed
  omega

end Relay

end ZenZip.Lib
