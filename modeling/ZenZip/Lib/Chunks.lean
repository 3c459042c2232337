import Mathlib.Data.List.Basic

namespace ZenZip.Lib

variable {α : Type}

def chunksWithin (n : Nat) : Nat → List α → List (List α)
  | 0, _ | _ + 1, [] => []
  | fuel + 1, a :: l => (a :: l).take n :: chunksWithin n fuel ((a :: l).drop n)

def chunks (n : Nat) (l : List α) : List (List α) := chunksWithin n l.length l

variable {n fuel : Nat} {l : List α}

theorem length_drop_cons_le {a : α} (hn : 0 < n) (h : (a :: l).length ≤ fuel + 1) :
    ((a :: l).drop n).length ≤ fuel := by
  rw [List.length_drop]
  omega

theorem flatten_chunksWithin (hn : 0 < n) (h : l.length ≤ fuel) :
    (chunksWithin n fuel l).flatten = l := by
  induction fuel generalizing l with
  | zero => rw [List.length_eq_zero_iff.mp (Nat.le_zero.mp h), chunksWithin, List.flatten_nil]
  | succ fuel ih =>
      cases l with
      | nil => rfl
      | cons a l =>
          rw [chunksWithin, List.flatten_cons, ih (length_drop_cons_le hn h), List.take_append_drop]

theorem flatten_chunks (hn : 0 < n) (l : List α) : (chunks n l).flatten = l :=
  flatten_chunksWithin hn (Nat.le_refl _)

theorem length_chunksWithin_le {k : Nat} (h : l.length ≤ k * n) :
    (chunksWithin n fuel l).length ≤ k := by
  induction fuel generalizing l k with
  | zero => exact Nat.zero_le k
  | succ fuel ih =>
      cases l with
      | nil => exact Nat.zero_le k
      | cons a l =>
          cases k with
          | zero => simp at h
          | succ k =>
              rw [chunksWithin, List.length_cons]
              refine Nat.succ_le_succ (ih ?_)
              rw [List.length_drop]
              rw [Nat.succ_mul] at h
              omega

theorem length_chunks_le {k : Nat} (h : l.length ≤ k * n) : (chunks n l).length ≤ k :=
  length_chunksWithin_le h

theorem mem_chunksWithin (hn : 0 < n) {c : List α} (h : c ∈ chunksWithin n fuel l) :
    c ≠ [] ∧ c.length ≤ n := by
  induction fuel generalizing l with
  | zero => cases h
  | succ fuel ih =>
      cases l with
      | nil => cases h
      | cons a l =>
          rcases List.mem_cons.mp h with rfl | h
          · refine ⟨?_, List.length_take_le _ _⟩
            rw [ne_eq, List.take_eq_nil_iff, not_or]
            exact ⟨Nat.ne_of_gt hn, List.cons_ne_nil _ _⟩
          · exact ih h

theorem mem_chunks (hn : 0 < n) {c : List α} (h : c ∈ chunks n l) : c ≠ [] ∧ c.length ≤ n :=
  mem_chunksWithin hn h

end ZenZip.Lib
