import Mathlib.Order.Bounds.Basic
import Mathlib.Order.MinMax

namespace ZenZip.Lib

section EditDistance

variable {α : Type} {a b c s t : List α} {n m : Nat}

/-- One element is inserted, deleted or replaced. -/
inductive Edit : List α → List α → Prop
  | insert (p : List α) (x : α) (s : List α) : Edit (p ++ s) (p ++ x :: s)
  | delete (p : List α) (x : α) (s : List α) : Edit (p ++ x :: s) (p ++ s)
  | replace (p : List α) (x y : α) (s : List α) : Edit (p ++ x :: s) (p ++ y :: s)

inductive Edits : Nat → List α → List α → Prop
  | refl (a : List α) : Edits 0 a a
  | step {n : Nat} {a b c : List α} (h : Edit a b) (hs : Edits n b c) : Edits (n + 1) a c

theorem Edit.cons (h : Edit a b) (x : α) : Edit (x :: a) (x :: b) := by
  cases h with
  | insert p y s => exact .insert (x :: p) y s
  | delete p y s => exact .delete (x :: p) y s
  | replace p y z s => exact .replace (x :: p) y z s

theorem Edits.cons (h : Edits n a b) (x : α) : Edits n (x :: a) (x :: b) := by
  induction h with
  | refl a => exact .refl (x :: a)
  | step h _ ih => exact .step (h.cons x) ih

theorem Edit.reverse (h : Edit a b) : Edit a.reverse b.reverse := by
  cases h with
  | insert p x s => simpa using Edit.insert s.reverse x p.reverse
  | delete p x s => simpa using Edit.delete s.reverse x p.reverse
  | replace p x y s => simpa using Edit.replace s.reverse x y p.reverse

theorem Edits.reverse (h : Edits n a b) : Edits n a.reverse b.reverse := by
  induction h with
  | refl a => exact .refl a.reverse
  | step h _ ih => exact .step h.reverse ih

theorem edits_reverse_iff : Edits n a.reverse b.reverse ↔ Edits n a b := by
  constructor
  · intro h
    have hback := h.reverse
    rwa [List.reverse_reverse, List.reverse_reverse] at hback
  · exact Edits.reverse

theorem edits_nil_left (b : List α) : Edits b.length [] b := by
  induction b with
  | nil => exact .refl []
  | cons y b ih => exact .step (.insert [] y []) (ih.cons y)

theorem edits_nil_right (a : List α) : Edits a.length a [] := by
  induction a with
  | nil => exact .refl []
  | cons x a ih => exact .step (.delete [] x a) ih

variable [DecidableEq α]

def editDistance : List α → List α → Nat
  | [], b => b.length
  | a, [] => a.length
  | x :: a, y :: b =>
    min (min (editDistance a (y :: b) + 1) (editDistance (x :: a) b + 1))
      (editDistance a b + if x = y then 0 else 1)
termination_by a b => a.length + b.length

@[simp] theorem editDistance_nil_left (b : List α) : editDistance [] b = b.length := by
  rw [editDistance]

@[simp] theorem editDistance_nil_right (a : List α) : editDistance a [] = a.length := by
  cases a with
  | nil => rw [editDistance]
  | cons x a => rw [editDistance]; exact nofun

theorem editDistance_cons_cons (x y : α) (a b : List α) : editDistance (x :: a) (y :: b) =
    min (min (editDistance a (y :: b) + 1) (editDistance (x :: a) b + 1))
      (editDistance a b + if x = y then 0 else 1) := by
  rw [editDistance]

theorem edits_editDistance (a b : List α) : Edits (editDistance a b) a b := by
  induction a, b using editDistance.induct with
  | case1 b =>
      rw [editDistance_nil_left]
      exact edits_nil_left b
  | case2 a _ =>
      rw [editDistance_nil_right]
      exact edits_nil_right a
  | case3 x a y b hdelete hinsert hboth =>
      rw [editDistance_cons_cons]
      rcases min_choice (min (editDistance a (y :: b) + 1) (editDistance (x :: a) b + 1))
        (editDistance a b + if x = y then 0 else 1) with h | h <;> rw [h]
      · rcases min_choice (editDistance a (y :: b) + 1) (editDistance (x :: a) b + 1) with h | h
          <;> rw [h]
        · exact .step (.delete [] x a) hdelete
        · exact .step (.insert [] y (x :: a)) (hinsert.cons y)
      · split
        · next heq =>
            rw [heq]
            exact hboth.cons y
        · exact .step (.replace [] x y a) (hboth.cons y)

theorem editDistance_cons_left_le (x : α) (a b : List α) :
    editDistance (x :: a) b ≤ editDistance a b + 1 := by
  cases b with
  | nil => simp
  | cons y b =>
      rw [editDistance_cons_cons]
      omega

theorem editDistance_cons_right_le (a : List α) (y : α) (b : List α) :
    editDistance a (y :: b) ≤ editDistance a b + 1 := by
  cases a with
  | nil => simp
  | cons x a =>
      rw [editDistance_cons_cons]
      omega

theorem editDistance_tail_le (x : α) (a b : List α) :
    editDistance a b ≤ editDistance (x :: a) b + 1 := by
  induction b with
  | nil =>
      rw [editDistance_nil_right, editDistance_nil_right, List.length_cons]
      omega
  | cons y b ih =>
      have hright := editDistance_cons_right_le a y b
      rw [editDistance_cons_cons]
      split <;> omega

theorem editDistance_cons_le (h : ∀ b, editDistance s b ≤ editDistance t b + 1) (x : α)
    (b : List α) :
    editDistance (x :: s) b ≤ editDistance (x :: t) b + 1 := by
  induction b with
  | nil => simpa using h []
  | cons y b ih =>
      have hdelete := h (y :: b)
      have hboth := h b
      rw [editDistance_cons_cons, editDistance_cons_cons]
      split <;> omega

theorem editDistance_head_le (x y : α) (a b : List α) :
    editDistance (x :: a) b ≤ editDistance (y :: a) b + 1 := by
  induction b with
  | nil => simp
  | cons z b ih =>
      rw [editDistance_cons_cons, editDistance_cons_cons]
      split <;> split <;> omega

theorem editDistance_append_le (h : ∀ b, editDistance s b ≤ editDistance t b + 1) (p b : List α) :
    editDistance (p ++ s) b ≤ editDistance (p ++ t) b + 1 := by
  induction p generalizing b with
  | nil => exact h b
  | cons x p ih => exact editDistance_cons_le ih x b

theorem Edit.editDistance_le (h : Edit a b) (c : List α) :
    editDistance a c ≤ editDistance b c + 1 := by
  cases h with
  | insert p x s => exact editDistance_append_le (editDistance_tail_le x s) p c
  | delete p x s => exact editDistance_append_le (editDistance_cons_left_le x s) p c
  | replace p x y s => exact editDistance_append_le (editDistance_head_le x y s) p c

theorem Edits.editDistance_le (h : Edits n a b) : editDistance a b ≤ n := by
  induction h with
  | refl a =>
      induction a with
      | nil => simp
      | cons x a ih =>
          rw [editDistance_cons_cons, if_pos rfl]
          omega
  | @step n a b c h _ ih =>
      have hone := h.editDistance_le c
      omega

theorem isLeast_editDistance (a b : List α) : IsLeast {n | Edits n a b} (editDistance a b) :=
  ⟨edits_editDistance a b, fun _ h => h.editDistance_le⟩

theorem editDistance_reverse (a b : List α) :
    editDistance a.reverse b.reverse = editDistance a b := by
  apply Nat.le_antisymm
  · exact (edits_editDistance a b).reverse.editDistance_le
  · exact (edits_reverse_iff.mp (edits_editDistance a.reverse b.reverse)).editDistance_le

end EditDistance

end ZenZip.Lib
