import ZenZip.Sdk.Namespace

namespace ZenZip

open Lib

/-- A wildcard stands in the pattern where a namespace would put its name. -/
def firstIsWildcard (pattern : String) : Bool :=
  let p := pattern.toList.splitOn '.'
  p.head? = some star || p = [starStar]

namespace Namespace

variable {x y : List Char} {xs ys : List (List Char)}

/-- Behind the same name, a first segment matches itself only, by induction on the segments of the
name. -/
theorem matches_joinAt_iff {as : List (List Char)} (ha : as ≠ []) :
    Glob.Matches star starStar (Text.joinAt as ((':' :: x) :: xs))
      (Text.joinAt as ((':' :: y) :: ys)) ↔
      x = y ∧ Glob.Matches star starStar xs ys := by
  induction as with
  | nil => exact absurd rfl ha
  | cons a as ih =>
      cases as with
      | nil =>
          obtain ⟨hstar, hrest⟩ := ne_of_colon_mem (show ':' ∈ a ++ ':' :: x by simp)
          rw [Text.joinAt, Text.joinAt, Glob.matches_cons_iff (.inl hrest)]
          apply and_congr_left'
          constructor
          · intro h
            have heq := List.append_cancel_left (h.resolve_left hstar)
            exact (List.cons.inj heq).2
          · rintro rfl
            exact .inr rfl
      | cons a' as =>
          rw [Text.joinAt_cons_cons, Text.joinAt_cons_cons,
            Glob.matches_cons_iff (.inr (Text.joinAt_ne_nil (List.cons_ne_nil _ _))),
              ih (List.cons_ne_nil _ _)]
          exact and_iff_right (.inr rfl)

theorem eventMatches_scoped_iff (ns : Namespace) {pattern event : String}
    (hp : pattern.toList.splitOn '.' = x :: xs)
    (he : event.toList.splitOn '.' = y :: ys) :
    eventMatches (ns.key pattern) (ns.key event) = true ↔
    x = y ∧ Glob.Matches star starStar xs ys := by
  obtain ⟨x', xs', hx, hcolon⟩ := splitOn_colon pattern.toList
  obtain ⟨y', ys', hy, hcolon'⟩ := splitOn_colon event.toList
  cases hp.symm.trans hx
  cases he.symm.trans hy
  rw [eventMatches_key_iff, hcolon, hcolon', matches_joinAt_iff (List.splitOn_ne_nil _ _)]

/-- Both matchers give a scoped pattern the meaning that it has outside. -/
def KeepsMeaning (ns : Namespace) (pattern event : String) : Prop :=
  Events.eventMatches (ns.key pattern) (ns.key event) = Events.eventMatches pattern event ∧
    eventMatches (ns.key pattern) (ns.key event) = eventMatches pattern event

theorem keepsMeaning_iff {ns : Namespace} {pattern event : String} : ns.KeepsMeaning pattern event ↔
    (eventMatches (ns.key pattern) (ns.key event) = true ↔ eventMatches pattern event = true) := by
  rw [KeepsMeaning, Events.eventMatches_eq, Events.eventMatches_eq, and_self, Bool.eq_iff_iff]

theorem exists_lost {pattern : String} (h : firstIsWildcard pattern = true) :
    ∃ event, eventMatches pattern event = true ∧
    ∀ ns : Namespace, eventMatches (ns.key pattern) (ns.key event) = false := by
  obtain ⟨p, ps, hp⟩ := List.exists_cons_of_ne_nil (List.splitOn_ne_nil '.' pattern.toList)
  have hdots : ∀ seg ∈ [] :: ps, '.' ∉ seg := by
    intro seg hseg
    rcases List.mem_cons.mp hseg with rfl | hmem
    · simp
    · exact Text.not_mem_of_mem_splitOn (hp ▸ List.mem_cons_of_mem p hmem)
  have hevent : (String.ofList (['.'].intercalate ([] :: ps))).toList.splitOn '.' = [] :: ps := by
    rw [String.toList_ofList]
    exact List.splitOn_intercalate '.' hdots (List.cons_ne_nil _ _)
  rw [firstIsWildcard, hp, Bool.or_eq_true, decide_eq_true_eq, decide_eq_true_eq] at h
  refine ⟨.ofList (['.'].intercalate ([] :: ps)), ?_, fun ns => ?_⟩
  · rw [eventMatches_iff, hp, hevent]
    rcases h with hstar | hrest
    · obtain rfl : p = star := Option.some.inj hstar
      exact (Glob.fits_refl ps).matches.cons (.inl rfl)
    · cases hrest
      exact Glob.matches_rest _
  · rw [← Bool.not_eq_true, eventMatches_scoped_iff ns hp hevent]
    rintro ⟨rfl, _⟩
    rcases h with hstar | hrest
    · cases hstar
    · cases hrest

/-- In a namespace a pattern keeps its meaning for all events if and only if no wildcard stands
first in it. -/
theorem scoped_meaning_iff (ns : Namespace) (pattern : String) :
    (∀ event, ns.KeepsMeaning pattern event) ↔ firstIsWildcard pattern = false := by
  constructor
  · intro h
    rw [← Bool.not_eq_true]
    intro hwild
    obtain ⟨event, hmatch, hlost⟩ := exists_lost hwild
    have hkeeps := keepsMeaning_iff.mp (h event)
    rw [hlost ns, hmatch] at hkeeps
    exact absurd (hkeeps.mpr rfl) Bool.false_ne_true
  · intro h event
    obtain ⟨p, ps, hp⟩ := List.exists_cons_of_ne_nil (List.splitOn_ne_nil '.' pattern.toList)
    obtain ⟨e, es, he⟩ := List.exists_cons_of_ne_nil (List.splitOn_ne_nil '.' event.toList)
    rw [firstIsWildcard, hp, Bool.or_eq_false_iff, decide_eq_false_iff_not,
      decide_eq_false_iff_not] at h
    have hstar : p ≠ star := fun heq => h.1 (congrArg some heq)
    have hrest : p ≠ starStar ∨ ps ≠ [] := by
      by_contra hboth
      rw [not_or, not_not, not_not] at hboth
      exact h.2 (by rw [hboth.1, hboth.2])
    rw [keepsMeaning_iff, eventMatches_scoped_iff ns hp he, eventMatches_iff, hp, he,
      Glob.matches_cons_iff hrest,
      or_iff_right hstar]

/-- A subscriber of a tenant to `*.created` is not told of the tenant's `order.created`. -/
theorem scoped_meaning_lost : ¬ ∀ (ns : Namespace) (pattern event : String),
    ns.KeepsMeaning pattern event := by
  intro h
  have hkeeps := keepsMeaning_iff.mp (h ⟨"acme"⟩ "*.created" "order.created")
  exact absurd (hkeeps.mpr (by decide)) (by decide)

end Namespace

end ZenZip
