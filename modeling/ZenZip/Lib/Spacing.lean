import Mathlib.Algebra.Order.Group.Basic
import Mathlib.Data.List.Chain

namespace ZenZip.Lib

section Spacing

variable {α : Type} [AddCommGroup α] [LinearOrder α] {gap t u w x : α} {l : List α} {n : Nat}

/-- Every element lies at least `gap` behind the one before it. -/
def Spaced (gap : α) (l : List α) : Prop := l.IsChain (fun a b => a + gap ≤ b)

def inWindow (t w : α) (l : List α) : List α := l.filter (fun a => t ≤ a ∧ a < t + w)

theorem mem_inWindow : x ∈ inWindow t w l ↔ x ∈ l ∧ t ≤ x ∧ x < t + w := by
  rw [inWindow, List.mem_filter, decide_eq_true_eq]

theorem inWindow_eq_self (h : ∀ x ∈ l, t ≤ x ∧ x < t + w) : inWindow t w l = l :=
  List.filter_eq_self.mpr (fun x hx => decide_eq_true (h x hx))

variable [IsOrderedAddMonoid α]

theorem Spaced.pairwise (h : Spaced gap l) (hgap : 0 ≤ gap) :
    l.Pairwise (fun a b => a + gap ≤ b) := by
  have htrans : IsTrans α (fun a b => a + gap ≤ b) := by
    constructor
    intro a b c hab hbc
    exact hab.trans ((le_add_of_nonneg_right hgap).trans hbc)
  exact List.isChain_iff_pairwise.mp h

theorem exists_add_nsmul_le (h : (x :: l).Pairwise (fun a b => a + gap ≤ b)) :
    ∃ y ∈ x :: l, x + l.length • gap ≤ y := by
  induction l generalizing x with
  | nil =>
      refine ⟨x, List.mem_cons_self, ?_⟩
      rw [List.length_nil, zero_nsmul, add_zero]
  | cons y l ih =>
      obtain ⟨hx, hl⟩ := List.pairwise_cons.mp h
      obtain ⟨z, hz, hle⟩ := ih hl
      refine ⟨z, List.mem_cons_of_mem x hz, ?_⟩
      calc x + (l.length + 1) • gap = (x + gap) + l.length • gap := by rw [succ_nsmul', add_assoc]
        _ ≤ y + l.length • gap := add_le_add_left (hx y List.mem_cons_self) _
        _ ≤ z := hle

theorem lt_of_nsmul_lt (hgap : 0 ≤ gap) {m : Nat} (h : m • gap < n • gap) : m < n :=
  Monotone.reflect_lt (fun _ _ hmn => nsmul_le_nsmul_left hgap hmn) h

/-- At most `n` elements lie in a window that is not wider than `n` gaps. -/
theorem Spaced.length_inWindow_le (h : Spaced gap l) (hgap : 0 ≤ gap) (hw : w ≤ n • gap) :
    (inWindow t w l).length ≤ n := by
  have hpairwise : (inWindow t w l).Pairwise (fun a b => a + gap ≤ b) := (h.pairwise hgap).filter _
  have hin : ∀ y ∈ inWindow t w l, t ≤ y ∧ y < t + w := fun y hy => (mem_inWindow.mp hy).2
  cases hl : inWindow t w l with
  | nil => exact Nat.zero_le n
  | cons x l' =>
      rw [hl] at hpairwise hin
      obtain ⟨y, hy, hlast⟩ := exists_add_nsmul_le hpairwise
      have hlt : t + l'.length • gap < t + n • gap := by
        calc t + l'.length • gap ≤ x + l'.length • gap :=
          add_le_add_left (hin x List.mem_cons_self).1 _
          _ ≤ y := hlast
          _ < t + w := (hin y hy).2
          _ ≤ t + n • gap := add_le_add_right hw t
      exact lt_of_nsmul_lt hgap (lt_of_add_lt_add_left hlt)

/-- At most `n` elements and a gap behind each of them lie between two bounds that `n + 1` gaps do
not fit between. -/
theorem Spaced.length_le (h : Spaced gap l) (hgap : 0 ≤ gap)
    (hin : ∀ y ∈ l, t ≤ y ∧ y + gap ≤ u) (hu : u < t + (n + 1) • gap) : l.length ≤ n := by
  cases l with
  | nil => exact Nat.zero_le n
  | cons x l' =>
      obtain ⟨y, hy, hlast⟩ := exists_add_nsmul_le (h.pairwise hgap)
      have hlt : t + (l'.length + 1) • gap < t + (n + 1) • gap := by
        calc t + (l'.length + 1) • gap ≤ x + (l'.length + 1) • gap :=
          add_le_add_left (hin x List.mem_cons_self).1 _
          _ = x + l'.length • gap + gap := by rw [succ_nsmul, add_assoc]
          _ ≤ y + gap := add_le_add_left hlast gap
          _ ≤ u := (hin y hy).2
          _ < t + (n + 1) • gap := hu
      exact Nat.le_of_lt_succ (lt_of_nsmul_lt hgap (lt_of_add_lt_add_left hlt))

end Spacing

end ZenZip.Lib
