import Mathlib.Data.List.Infix

namespace ZenZip.Lib

namespace Text

variable {A B : Type} {s c : A} {p x y : List A} {xs : List (List A)}

/-- `slice(0, n)`: a string is indexed by its UTF-16 units, and half of a pair is no character. -/
def sliceUnits : Nat → List Char → List Char
  | 0, _ | _ + 1, [] => []
  | n + 1, c :: cs =>
    if c.toNat < 65536 then c :: sliceUnits n cs
    else match n with
      | 0 => [Char.ofNat 65533]
      | n + 1 => c :: sliceUnits n cs

theorem of_all {P : A → Prop} [DecidablePred P] (h : x.all (fun a => P a) = true) :
    ∀ a ∈ x, P a := by
  intro a ha
  exact of_decide_eq_true (List.all_eq_true.mp h a ha)

theorem before_last_inj {x' y' : List A} (hy : c ∉ y) (hy' : c ∉ y')
    (h : x ++ c :: y = x' ++ c :: y') : x = x' := by
  rcases List.append_eq_append_iff.mp h with ⟨t, hx, ht⟩ | ⟨t, hx, ht⟩
  · cases t with
    | nil => rw [hx, List.append_nil]
    | cons d t =>
        obtain ⟨-, rfl⟩ := List.cons.inj ht
        exact absurd (List.mem_append_right t List.mem_cons_self) hy
  · cases t with
    | nil => rw [hx, List.append_nil]
    | cons d t =>
        obtain ⟨-, rfl⟩ := List.cons.inj ht
        exact absurd (List.mem_append_right t List.mem_cons_self) hy'

theorem intercalate_cons (s : A) (x y : List A) (xs : List (List A)) :
    [s].intercalate (x :: y :: xs) = x ++ s :: [s].intercalate (y :: xs) := by
  rw [List.intercalate_cons_cons, List.append_assoc, List.singleton_append]

theorem intercalate_append {ys : List (List A)} (s : A) (hx : xs ≠ []) (hy : ys ≠ []) :
    [s].intercalate (xs ++ ys) = [s].intercalate xs ++ s :: [s].intercalate ys := by
  induction xs with
  | nil => exact absurd rfl hx
  | cons x xs ih =>
      cases xs with
      | nil =>
          obtain ⟨y, ys, rfl⟩ := List.exists_cons_of_ne_nil hy
          rw [List.intercalate_singleton]
          exact intercalate_cons s x y ys
      | cons z xs =>
          rw [List.cons_append, List.cons_append, intercalate_cons, intercalate_cons,
            List.append_assoc, List.cons_append]
          have hrest := ih (List.cons_ne_nil z xs)
          rw [List.cons_append] at hrest
          rw [hrest]

theorem mem_intercalate (h : c ∈ [s].intercalate xs) : c = s ∨ ∃ x ∈ xs, c ∈ x := by
  induction xs with
  | nil => cases h
  | cons x xs ih =>
      cases xs with
      | nil =>
          rw [List.intercalate_singleton] at h
          exact .inr ⟨x, List.mem_singleton_self x, h⟩
      | cons y xs =>
          rw [intercalate_cons, List.mem_append, List.mem_cons] at h
          rcases h with h | h | h
          · exact .inr ⟨x, List.mem_cons_self, h⟩
          · exact .inl h
          · rcases ih h with hs | ⟨z, hz, hc⟩
            · exact .inl hs
            · exact .inr ⟨z, List.mem_cons_of_mem x hz, hc⟩

theorem map_intercalate (f : A → B) (s : A) (xs : List (List A)) :
    ([s].intercalate xs).map f = [f s].intercalate (xs.map (List.map f)) := by
  induction xs with
  | nil => rfl
  | cons x xs ih =>
      cases xs with
      | nil => rw [List.map_singleton, List.intercalate_singleton, List.intercalate_singleton]
      | cons y xs =>
          rw [intercalate_cons, List.map_append, List.map_cons, ih]
          exact (intercalate_cons (f s) (x.map f) (y.map f) (xs.map (List.map f))).symm

theorem prefix_append_cons_iff (hs : s ∉ p) : p <+: x ++ s :: y ↔ p <+: x := by
  constructor
  · intro h
    rcases List.prefix_or_prefix_of_prefix h (List.prefix_append x (s :: y)) with hp | ⟨t, rfl⟩
    · exact hp
    · cases t with
      | nil =>
          rw [List.append_nil]
      | cons c t =>
          have hc := (List.prefix_append_right_inj x).mp h
          rw [List.cons_prefix_cons] at hc
          rw [hc.1] at hs
          simp at hs
  · intro h
    exact h.trans (List.prefix_append x (s :: y))

theorem prefix_intercalate_iff (hs : s ∉ p) : p <+: [s].intercalate (x :: xs) ↔ p <+: x := by
  cases xs with
  | nil => rw [List.intercalate_singleton]
  | cons y xs => rw [intercalate_cons, prefix_append_cons_iff hs]

/-- The pieces of two texts one after the other: where they meet, two pieces are one. -/
def joinAt : List (List A) → List (List A) → List (List A)
  | [x], y :: ys => (x ++ y) :: ys
  | x :: xs, ys => x :: joinAt xs ys
  | [], ys => ys

theorem joinAt_cons_cons (x z : List A) (xs ys : List (List A)) :
    joinAt (x :: z :: xs) ys = x :: joinAt (z :: xs) ys := by
  cases ys <;> rfl

theorem joinAt_cons_left (c : A) (x y : List A) (xs ys : List (List A)) :
    joinAt ((c :: x) :: xs) (y :: ys) = (joinAt (x :: xs) (y :: ys)).modifyHead (c :: ·) := by
  cases xs with
  | nil => rfl
  | cons z xs => rw [joinAt_cons_cons, joinAt_cons_cons, List.modifyHead_cons]

theorem joinAt_concat (xs : List (List A)) (x y : List A) :
    joinAt (xs ++ [x]) [y] = xs ++ [x ++ y] := by
  induction xs with
  | nil => rfl
  | cons z xs ih =>
      obtain ⟨w, ws, hw⟩ :=
        List.exists_cons_of_ne_nil (List.append_ne_nil_of_right_ne_nil xs (List.cons_ne_nil x []))
      rw [List.cons_append, hw, joinAt_cons_cons, ← hw, ih, List.cons_append]

theorem joinAt_ne_nil {xs ys : List (List A)} (h : ys ≠ []) : joinAt xs ys ≠ [] := by
  cases xs with
  | nil => exact h
  | cons x xs =>
      obtain ⟨y, ys, rfl⟩ := List.exists_cons_of_ne_nil h
      cases xs <;> exact List.cons_ne_nil _ _

theorem mem_joinAt {z : List A} {xs ys : List (List A)} (h : z ∈ joinAt xs ys) (hc : c ∈ z) :
    (∃ x ∈ xs, c ∈ x) ∨ ∃ y ∈ ys, c ∈ y := by
  induction xs with
  | nil => exact .inr ⟨z, h, hc⟩
  | cons x xs ih =>
      cases xs with
      | nil =>
          cases ys with
          | nil => exact .inl ⟨z, h, hc⟩
          | cons y ys =>
              rcases List.mem_cons.mp h with rfl | h
              · rcases List.mem_append.mp hc with hc | hc
                · exact .inl ⟨x, List.mem_singleton_self x, hc⟩
                · exact .inr ⟨y, List.mem_cons_self, hc⟩
              · exact .inr ⟨z, List.mem_cons_of_mem y h, hc⟩
      | cons w xs =>
          rw [joinAt_cons_cons] at h
          rcases List.mem_cons.mp h with rfl | h
          · exact .inl ⟨z, List.mem_cons_self, hc⟩
          · rcases ih h with ⟨v, hv, hc⟩ | hy
            · exact .inl ⟨v, List.mem_cons_of_mem x hv, hc⟩
            · exact .inr hy

section Split

variable [BEq A]

theorem splitOn_append (s : A) (x y : List A) :
    (x ++ y).splitOn s = joinAt (x.splitOn s) (y.splitOn s) := by
  obtain ⟨head, back, hy⟩ := List.exists_cons_of_ne_nil (List.splitOn_ne_nil s y)
  induction x with
  | nil =>
      rw [List.nil_append, List.splitOn_nil, hy]
      rfl
  | cons c x ih =>
      obtain ⟨z, zs, hx⟩ := List.exists_cons_of_ne_nil (List.splitOn_ne_nil s x)
      rw [List.cons_append, List.splitOn_cons_eq_if_modifyHead, List.splitOn_cons_eq_if_modifyHead,
        ih, hx, hy]
      by_cases hc : (c == s) = true
      · rw [if_pos hc, if_pos hc, joinAt_cons_cons]
      · rw [if_neg hc, if_neg hc, List.modifyHead_cons, joinAt_cons_left]

variable [LawfulBEq A]

theorem splitOn_inj (h : x.splitOn s = y.splitOn s) : x = y := by
  have hx : [s].intercalate (x.splitOn s) = x := List.intercalate_splitOn s
  rw [← hx, h, List.intercalate_splitOn]

theorem not_mem_of_mem_splitOn (h : x ∈ y.splitOn s) : s ∉ x := by
  induction y generalizing x with
  | nil =>
      rw [List.splitOn_nil, List.mem_singleton] at h
      rw [h]
      exact List.not_mem_nil
  | cons c y ih =>
      obtain ⟨z, zs, hy⟩ := List.exists_cons_of_ne_nil (List.splitOn_ne_nil s y)
      rw [List.splitOn_cons_eq_if_modifyHead, hy] at h
      rw [hy] at ih
      by_cases hc : (c == s) = true
      · rw [if_pos hc, List.mem_cons] at h
        rcases h with rfl | h
        · exact List.not_mem_nil
        · exact ih h
      · rw [if_neg hc, List.modifyHead_cons, List.mem_cons] at h
        rcases h with rfl | h
        · rw [List.mem_cons, not_or]
          exact ⟨fun he => hc (beq_iff_eq.mpr he.symm), ih List.mem_cons_self⟩
        · exact ih (List.mem_cons_of_mem z h)

theorem splitOn_append_piece (h : s ∉ y) :
    ∃ names last, (x ++ y).splitOn s = names ++ [last ++ y] := by
  obtain ⟨names, last, hx⟩ :=
    (List.eq_nil_or_concat (x.splitOn s)).resolve_left (List.splitOn_ne_nil s x)
  refine ⟨names, last, ?_⟩
  rw [splitOn_append, List.splitOn_eq_singleton h, hx, List.concat_eq_append, joinAt_concat]

/-- The pieces of a text start those of another when the text is the other, or starts it up
to a separator. -/
theorem splitOn_prefix_iff : x.splitOn s <+: y.splitOn s ↔ y = x ∨ x ++ [s] <+: y := by
  constructor
  · rintro ⟨t, ht⟩
    by_cases hnil : t = []
    · rw [hnil, List.append_nil] at ht
      exact .inl (splitOn_inj ht).symm
    · have hx : [s].intercalate (x.splitOn s) = x := List.intercalate_splitOn s
      have hy : [s].intercalate (y.splitOn s) = y := List.intercalate_splitOn s
      rw [← ht, intercalate_append s (List.splitOn_ne_nil s x) hnil, hx] at hy
      right
      exact ⟨[s].intercalate t, by rw [List.append_assoc, List.singleton_append, hy]⟩
  · rintro (rfl | ⟨t, rfl⟩)
    · exact List.prefix_rfl
    · rw [List.append_assoc, List.singleton_append, List.splitOn_append_cons_self]
      exact List.prefix_append _ _

end Split

section Numerals

variable {m n : Nat} {x y : List Char} {c : Char}

theorem isDigit_of_mem_repr (h : c ∈ n.repr.toList) : c.isDigit = true := by
  rw [Nat.toList_repr] at h
  exact Nat.isDigit_of_mem_toDigits (by decide) (Nat.le_refl 10) h

theorem repr_inj (h : m.repr.toList = n.repr.toList) : m = n := by
  rw [Nat.toList_repr, Nat.toList_repr] at h
  rw [← Nat.ofDigitChars_toDigits (b := 10) (by decide) (Nat.le_refl 10) (n := m), h]
  exact Nat.ofDigitChars_toDigits (by decide) (Nat.le_refl 10)

theorem repr_append_cons_inj (hc : c.isDigit = false)
    (h : m.repr.toList ++ c :: x = n.repr.toList ++ c :: y) :
    m = n ∧ x = y := by
  have hdigits (n : Nat) (x : List Char) : (n.repr.toList ++ c :: x).takeWhile Char.isDigit =
    n.repr.toList := by
    rw [List.takeWhile_append_of_pos (fun _ => isDigit_of_mem_repr),
      List.takeWhile_cons_of_neg (by rw [hc]; decide),
      List.append_nil]
  have hrepr : m.repr.toList = n.repr.toList := by
    rw [← hdigits m x, h, hdigits]
  refine ⟨repr_inj hrepr, ?_⟩
  rw [hrepr] at h
  exact List.tail_eq_of_cons_eq (List.append_cancel_left h)

end Numerals

end Text

end ZenZip.Lib
