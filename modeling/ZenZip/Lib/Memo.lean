import Mathlib.Data.Set.Function
import Mathlib.Data.List.Infix

namespace ZenZip.Lib

namespace Memo

variable {E K : Type} (key : E → K) (next : List E → Option K)

/-- The answers that a deterministic client can have been given so far, when it asks
for one key after the other and every answer is an entry of `J`. -/
inductive Path (J : Set E) : List E → Prop
  | nil : Path J []
  | snoc {t : List E} {e : E} (h : Path J t) (he : e ∈ J) (hk : next t = some (key e)) : Path J
    (t ++ [e])

/-- No entry is there that the client has not asked for. -/
def Explored (J : Set E) : Prop := ∀ e ∈ J, ∃ t, Path key next J t ∧ e ∈ t

variable {key next} {J J' : Set E} {t t' u : List E} {e : E} {k k' : K}

theorem path_snoc_iff : Path key next J (t ++ [e]) ↔ Path key next J t ∧ e ∈ J ∧ next t = some
    (key e) := by
  constructor
  · intro h
    generalize hl : t ++ [e] = l at h
    cases h with
    | nil => simp at hl
    | snoc h he hk =>
        obtain ⟨rfl, hlast⟩ := List.append_inj' hl rfl
        cases hlast
        exact ⟨h, he, hk⟩
  · rintro ⟨h, he, hk⟩
    exact .snoc h he hk

namespace Path

theorem mono (hJ : J ⊆ J') (h : Path key next J t) : Path key next J' t := by
  induction h with
  | nil => exact .nil
  | snoc _ he hk ih => exact .snoc ih (hJ he) hk

theorem mem (h : Path key next J t) (he : e ∈ t) : e ∈ J := by
  induction h with
  | nil => cases he
  | snoc _ he' _ ih =>
      rcases List.mem_append.mp he with he | he
      · exact ih he
      · rw [List.mem_singleton] at he
        rwa [he]

theorem of_append (h : Path key next J (t ++ u)) : Path key next J t := by
  induction u using List.reverseRecOn with
  | nil => rwa [List.append_nil] at h
  | append_singleton u e ih =>
      rw [← List.append_assoc] at h
      apply ih
      exact (path_snoc_iff.mp h).1

theorem next_of_append (h : Path key next J (t ++ e :: u)) : next t = some (key e) := by
  rw [List.append_cons] at h
  exact (path_snoc_iff.mp h.of_append).2.2

theorem comparable (hkey : Set.InjOn key J) (h : Path key next J t) (h' : Path key next J t') :
    t <+: t' ∨ t' <+: t := by
  induction h with
  | nil => exact .inl List.nil_prefix
  | @snoc t e h he hk ih =>
      rcases ih with ⟨u, rfl⟩ | hp
      · cases u with
        | nil =>
            right
            rw [List.append_nil]
            exact List.prefix_append t [e]
        | cons e' u =>
            left
            have hk' := hk.symm.trans h'.next_of_append
            have he' : e' ∈ J := h'.mem (by simp)
            obtain rfl : e = e' := hkey he he' (Option.some.inj hk')
            have hp := List.prefix_append (t ++ [e]) u
            rwa [List.append_assoc, List.singleton_append] at hp
      · right
        exact hp.trans (List.prefix_append t [e])

theorem prefix_of_stop (hkey : Set.InjOn key J) (h : Path key next J t) (hstop : next t = none)
    (h' : Path key next J t') : t' <+: t := by
  rcases h.comparable hkey h' with ⟨u, rfl⟩ | hp
  · cases u with
    | nil => rw [List.append_nil]
    | cons e u =>
        rw [h'.next_of_append] at hstop
        cases hstop
  · exact hp

theorem prefix_or_answered (hkey : Set.InjOn key J) (h : Path key next J t) (hk : next t = some k)
    (h' : Path key next J t') : t' <+: t ∨ ∃ e ∈ t', key e = k := by
  rcases h.comparable hkey h' with ⟨u, rfl⟩ | hp
  · cases u with
    | nil =>
        left
        rw [List.append_nil]
    | cons e u =>
        right
        refine ⟨e, by simp, ?_⟩
        exact Option.some.inj (h'.next_of_append.symm.trans hk)
  · exact .inl hp

theorem next_unique (hkey : Set.InjOn key J) (h : Path key next J t) (hk : next t = some k)
    (h' : Path key next J t') (hk' : next t' = some k') (hn : ∀ e ∈ J, key e ≠ k)
    (hn' : ∀ e ∈ J, key e ≠ k') :
    k = k' := by
  rcases h.prefix_or_answered hkey hk h' with hp | ⟨e, he, hek⟩
  · rcases h'.prefix_or_answered hkey hk' h with hp' | ⟨e, he, hek⟩
    · obtain rfl : t = t' := hp'.eq_of_length_le hp.length_le
      exact Option.some.inj (hk.symm.trans hk')
    · exact absurd hek (hn' e (h.mem he))
  · exact absurd hek (hn e (h'.mem he))

end Path

namespace Explored

theorem extend (h : Explored key next J) (hJ : J ⊆ J')
    (hnew : ∀ e ∈ J', e ∈ J ∨ ∃ t, Path key next J t ∧ next t = some (key e)) :
    Explored key next J' := by
  intro e he
  rcases hnew e he with he | ⟨t, ht, hk⟩
  · obtain ⟨t, ht, hm⟩ := h e he
    exact ⟨t, ht.mono hJ, hm⟩
  · refine ⟨t ++ [e], .snoc (ht.mono hJ) he hk, ?_⟩
    exact List.mem_append_right t (List.mem_singleton_self e)

theorem mem_iff (h : Explored key next J) (hkey : Set.InjOn key J) (ht : Path key next J t)
    (hstop : next t = none) :
    e ∈ t ↔ e ∈ J := by
  constructor
  · exact ht.mem
  · intro he
    obtain ⟨t', ht', hm⟩ := h e he
    exact (ht.prefix_of_stop hkey hstop ht').subset hm

end Explored

end Memo

end ZenZip.Lib
