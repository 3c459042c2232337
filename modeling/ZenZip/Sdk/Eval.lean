import ZenZip.Lib.EditDistance

namespace ZenZip.Eval

open Lib

abbrev CodeUnit := UInt16

/-- An array of numbers. A cell that was never written is undefined, and so is what is computed from
it. -/
abbrev Cells := List (Option Nat)

def read (row : Cells) (j : Nat) : Option Nat := row[j]?.join

def cell (prev curr : Cells) (x y : CodeUnit) (j : Nat) : Option Nat := do
  let above ← read prev j
  let left ← read curr (j - 1)
  let diagonal ← read prev (j - 1)
  return min (min (above + 1) (left + 1)) (diagonal + if x = y then 0 else 1)

def fill (x : CodeUnit) (prev : Cells) : List CodeUnit → Nat → Cells → Cells
  | [], _, curr => curr
  | y :: b, j, curr => fill x prev b (j + 1) (curr.set j (cell prev curr x y j))

/-- The outer loop, from the row `i` on. The row that is done and the one before it change places.
-/
def rows (b : List CodeUnit) : List CodeUnit → Nat → Cells → Cells → Cells
  | [], _, prev, _ => prev
  | x :: a, i, prev, curr => rows b a (i + 1) (fill x prev b 1 (curr.set 0 (some i))) prev

def levenshtein (a b : List CodeUnit) : Option Nat :=
  if a.length = 0 then some b.length
  else if b.length = 0 then some a.length
  else read (rows b a 1 ((List.range (b.length + 1)).map some) (List.replicate (b.length + 1) none))
    b.length

section Rows

variable {a b c d : List CodeUnit} {x y : CodeUnit} {prev curr row : Cells} {i j k : Nat}

/-- The first `j` cells hold the distances of `c` from what comes first in `b`. Both lists are
compared from the back. -/
structure Filled (b c : List CodeUnit) (j : Nat) (row : Cells) : Prop where
  length_eq : row.length = b.length + 1
  read_eq : ∀ k < j, k ≤ b.length → read row k = some (editDistance c (b.take k).reverse)

theorem read_set (row : Cells) (j k : Nat) (v : Option Nat) (hj : j < row.length) :
    read (row.set j v) k = if k = j then v else read row k := by
  rw [read, read, List.getElem?_set]
  by_cases h : j = k
  · subst h
    rw [if_pos rfl, if_pos hj, if_pos rfl]
    rfl
  · rw [if_neg h, if_neg (Ne.symm h)]

theorem take_succ_reverse {y : CodeUnit} (h : b.drop k = y :: d) :
    (b.take (k + 1)).reverse = y :: (b.take k).reverse := by
  have hget : b[k]? = some y := by rw [← List.head?_drop, h, List.head?_cons]
  rw [List.take_add_one, hget, Option.toList_some, List.reverse_append]
  rfl

theorem cell_eq (hprev : Filled b c (b.length + 1) prev) (hcurr : Filled b (x :: c) (k + 1) curr)
    (h : b.drop k = y :: d) :
    cell prev curr x y (k + 1) = some (editDistance (x :: c) (b.take (k + 1)).reverse) := by
  have hk : k < b.length := by
    by_contra hle
    rw [List.drop_eq_nil_of_le (Nat.le_of_not_lt hle)] at h
    cases h
  have habove := hprev.read_eq (k + 1) (Nat.succ_lt_succ hk) hk
  have hleft := hcurr.read_eq k (Nat.lt_succ_self k) (Nat.le_of_lt hk)
  have hdiagonal := hprev.read_eq k (Nat.lt_succ_of_lt hk) (Nat.le_of_lt hk)
  rw [take_succ_reverse h] at habove ⊢
  rw [cell, Nat.add_sub_cancel, habove, hleft, hdiagonal, editDistance_cons_cons]
  rfl

theorem Filled.set (h : Filled b c (k + 1) row) (hk : k + 1 ≤ b.length) {v : Option Nat}
    (hv : v = some (editDistance c (b.take (k + 1)).reverse)) :
    Filled b c (k + 2) (row.set (k + 1) v) := by
  refine ⟨by rw [List.length_set, h.length_eq], fun m hm hle => ?_⟩
  rw [read_set row (k + 1) m v (by rw [h.length_eq]; omega)]
  split
  · next hmk => rw [hmk, hv]
  · exact h.read_eq m (by omega) hle

theorem fill_eq (hprev : Filled b c (b.length + 1) prev) (hcurr : Filled b (x :: c) (k + 1) curr)
    (h : b.drop k = d) :
    Filled b (x :: c) (b.length + 1) (fill x prev d (k + 1) curr) := by
  induction d generalizing k curr with
  | nil =>
      rw [List.drop_eq_nil_iff] at h
      exact ⟨hcurr.length_eq, fun m hm hle => hcurr.read_eq m (by omega) hle⟩
  | cons y d ih =>
      have hk : k < b.length := by
        by_contra hle
        rw [List.drop_eq_nil_of_le (Nat.le_of_not_lt hle)] at h
        cases h
      apply ih (hcurr.set hk (cell_eq hprev hcurr h))
      rw [← List.drop_drop, h]
      rfl

/-- The outer loop: before the row `i`, the one before it is filled for what comes first in the
text. -/
theorem rows_eq (hprev : Filled b c (b.length + 1) prev) (hcurr : curr.length = b.length + 1)
    (hi : i = c.length + 1) :
    Filled b (a.reverse ++ c) (b.length + 1) (rows b a i prev curr) := by
  induction a generalizing c i prev curr with
  | nil => exact hprev
  | cons x a ih =>
      have hfirst : Filled b (x :: c) 1 (curr.set 0 (some i)) := by
        refine ⟨by rw [List.length_set, hcurr], fun m hm _ => ?_⟩
        obtain rfl : m = 0 := by omega
        rw [read_set curr 0 0 _ (by omega), if_pos rfl, hi]
        simp
      rw [List.reverse_cons, List.append_assoc]
      exact ih (fill_eq hprev hfirst rfl) hprev.length_eq (by rw [hi]; rfl)

theorem filled_range (b : List CodeUnit) :
    Filled b [] (b.length + 1) ((List.range (b.length + 1)).map some) := by
  refine ⟨by rw [List.length_map, List.length_range], fun m hm hle => ?_⟩
  rw [read, List.getElem?_map, List.getElem?_range hm, editDistance_nil_left, List.length_reverse,
    List.length_take,
    Nat.min_eq_left hle]
  rfl

/-- The result is the least number of code units to insert, delete or replace. -/
theorem levenshtein_isLeast (a b : List CodeUnit) :
    ∃ n, levenshtein a b = some n ∧ IsLeast {n | Edits n a b} n := by
  refine ⟨editDistance a b, ?_, isLeast_editDistance a b⟩
  rw [levenshtein]
  split
  · next ha => rw [List.length_eq_zero_iff.mp ha, editDistance_nil_left]
  split
  · next hb => rw [List.length_eq_zero_iff.mp hb, editDistance_nil_right]
  · have hblank : (List.replicate (b.length + 1) (none : Option Nat)).length = b.length + 1 :=
      List.length_replicate
    have hrows : Filled b (a.reverse ++ []) (b.length + 1)
        (rows b a 1 ((List.range (b.length + 1)).map some) (List.replicate (b.length + 1) none)) :=
      rows_eq (filled_range b) hblank rfl
    rw [hrows.read_eq b.length (Nat.lt_succ_self _) (Nat.le_refl _), List.append_nil,
      List.take_length, editDistance_reverse]

example : levenshtein [107, 105, 116] [115, 105, 116, 116] = some 2 := by decide

end Rows

end ZenZip.Eval
