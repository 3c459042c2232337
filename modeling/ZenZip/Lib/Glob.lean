import Mathlib.Data.List.Forall2
import Mathlib.Data.List.Infix

namespace ZenZip.Lib.Glob

variable {S : Type} {star r : S} {a b : S} {p n : List S}

/-- Segment by segment, where the star fits every segment. -/
def Fits (star : S) : List S → List S → Prop := List.Forall₂ (fun a b => a = star ∨ a = b)

/-- A last segment `r` fits all that is left. -/
def Matches (star r : S) (p n : List S) : Prop :=
  Fits star p n ∨ ∃ pre front, p = pre ++ [r] ∧ front <+: n ∧ Fits star pre front

theorem fits_refl (p : List S) : Fits star p p := by
  induction p with
  | nil => exact .nil
  | cons a p ih => exact .cons (.inr rfl) ih

theorem fits_cons_iff : Fits star (a :: p) (b :: n) ↔ (a = star ∨ a = b) ∧ Fits star p n :=
  List.forall₂_cons

theorem Fits.matches (h : Fits star p n) : Matches star r p n := .inl h

theorem matches_of_fits_prefix (h : Fits star p n) (m : List S) :
    Matches star r (p ++ [r]) (n ++ m) :=
  .inr ⟨p, n, rfl, List.prefix_append n m, h⟩

theorem matches_append_rest_iff : Matches star r (p ++ [r]) n ↔ Fits star p (n.take p.length) := by
  constructor
  · rintro (h | ⟨pre, front, hp, hfront, h⟩)
    · have htake := List.forall₂_take p.length h
      rwa [List.take_left] at htake
    · obtain ⟨rfl, _⟩ := List.append_inj' hp rfl
      rwa [h.length_eq, ← List.prefix_iff_eq_take.mp hfront]
  · intro h
    exact .inr ⟨p, _, rfl, List.take_prefix _ _, h⟩

theorem matches_iff_fits (h : p.getLast? ≠ some r) : Matches star r p n ↔ Fits star p n := by
  constructor
  · rintro (hp | ⟨pre, front, rfl, _, _⟩)
    · exact hp
    · simp at h
  · exact .inl

theorem Matches.head (h : Matches star r (a :: p) (b :: n)) (ha : a ≠ r ∨ p ≠ []) :
    a = star ∨ a = b := by
  rcases h with h | ⟨pre, front, hp, hfront, h⟩
  · exact (fits_cons_iff.mp h).1
  · cases pre with
    | nil =>
        cases hp
        simp at ha
    | cons c pre =>
        cases h with
        | cons hc h =>
            cases hp
            rw [List.cons_prefix_cons] at hfront
            rwa [hfront.1] at hc

theorem Matches.tail (h : Matches star r (a :: p) (b :: n)) (ha : a ≠ r ∨ p ≠ []) :
    Matches star r p n := by
  rcases h with h | ⟨pre, front, hp, hfront, h⟩
  · exact .inl (fits_cons_iff.mp h).2
  · cases pre with
    | nil =>
        cases hp
        simp at ha
    | cons c pre =>
        cases h with
        | cons hc h =>
            cases hp
            rw [List.cons_prefix_cons] at hfront
            exact .inr ⟨pre, _, rfl, hfront.2, h⟩

theorem Matches.cons (h : Matches star r p n) (ha : a = star ∨ a = b) :
    Matches star r (a :: p) (b :: n) := by
  rcases h with h | ⟨pre, front, rfl, hfront, h⟩
  · exact .inl (.cons ha h)
  · exact .inr ⟨a :: pre, b :: front, rfl, List.cons_prefix_cons.mpr ⟨rfl, hfront⟩, .cons ha h⟩

theorem matches_cons_iff (ha : a ≠ r ∨ p ≠ []) : Matches star r (a :: p) (b :: n) ↔
    (a = star ∨ a = b) ∧ Matches star r p n :=
  ⟨fun h => ⟨h.head ha, h.tail ha⟩, fun h => h.2.cons h.1⟩

theorem matches_rest (n : List S) : Matches star r [r] n :=
  .inr ⟨[], [], rfl, List.nil_prefix, .nil⟩

end ZenZip.Lib.Glob
