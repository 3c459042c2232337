import Mathlib.Logic.Function.Basic
import Mathlib.Data.List.Forall2

namespace ZenZip.Lib

inductive Trie.Part (K N : Type)
  | lit (k : K)
  | wild (name : N)

/-- Values under patterns. A node has at most one wildcard child, under the name that
came first. -/
inductive Trie (K N V : Type)
  | node (children : K → Option (Trie K N V)) (wild : Option (N × Trie K N V)) (value : Option V)

variable {K N V : Type}

def Trie.Part.Fits : Trie.Part K N → K → Prop
  | .lit k, x => k = x
  | .wild _, _ => True

namespace Trie

def children : Trie K N V → K → Option (Trie K N V)
  | .node children _ _ => children

def wild : Trie K N V → Option (N × Trie K N V)
  | .node _ wild _ => wild

def value : Trie K N V → Option V
  | .node _ _ value => value

def empty : Trie K N V := .node (fun _ => none) none none

/-- The value that stands first under a pattern stays. -/
def insert [DecidableEq K] (v : V) : List (Part K N) → Trie K N V → Trie K N V
  | [], .node children wild value => .node children wild (value.or (some v))
  | .lit k :: ps, .node children wild value =>
      .node (Function.update children k (some (insert v ps ((children k).getD empty)))) wild value
  | .wild n :: ps, .node children wild value =>
      .node children (some ((wild.getD (n, empty)).1, insert v ps (wild.getD (n, empty)).2)) value

def get : List (Part K N) → Trie K N V → Option V
  | [], .node _ _ value => value
  | .lit k :: ps, .node children _ _ => get ps ((children k).getD empty)
  | .wild n :: ps, .node _ wild _ => get ps (wild.getD (n, empty)).2

inductive Reaches : Trie K N V → List K → V → Prop
  | here {t v} (hv : t.value = some v) : Reaches t [] v
  | lit {t c k xs v} (hc : t.children k = some c) (h : Reaches c xs v) : Reaches t (k :: xs) v
  | wild {t c n k xs v} (hw : t.wild = some (n, c)) (h : Reaches c xs v) : Reaches t (k :: xs) v

theorem not_reaches_empty {xs : List K} {v : V} : ¬ Reaches (empty : Trie K N V) xs v := by
  intro h
  cases h with
  | here hv => cases hv
  | lit hc _ => cases hc
  | wild hw _ => cases hw

theorem reaches_getD {t : Option (Trie K N V)} {xs : List K} {v : V}
    (h : Reaches (t.getD empty) xs v) :
    ∃ c, t = some c ∧ Reaches c xs v := by
  cases t with
  | none => exact absurd h not_reaches_empty
  | some c => exact ⟨c, rfl, h⟩

variable [DecidableEq K] {ps : List (Part K N)} {t : Trie K N V} {xs : List K} {u v : V}

theorem reaches_insert (h : Reaches (insert v ps t) xs u) :
    Reaches t xs u ∨ u = v ∧ List.Forall₂ Part.Fits ps xs := by
  induction ps generalizing t xs with
  | nil =>
      obtain ⟨children, wild, value⟩ := t
      cases h with
      | here hv =>
          cases value with
          | none =>
              cases hv
              exact .inr ⟨rfl, .nil⟩
          | some w => exact .inl (.here hv)
      | lit hc h => exact .inl (.lit hc h)
      | wild hw h => exact .inl (.wild hw h)
  | cons p ps ih =>
      obtain ⟨children, wild, value⟩ := t
      cases p with
      | lit k =>
          cases h with
          | here hv => exact .inl (.here hv)
          | wild hw h => exact .inl (.wild hw h)
          | @lit _ c x xs _ hc h =>
              by_cases hx : x = k
              · subst hx
                rw [insert, Trie.children, Function.update_self] at hc
                cases hc
                rcases ih h with h | ⟨rfl, hfit⟩
                · obtain ⟨c, hc, h⟩ := reaches_getD h
                  exact .inl (.lit hc h)
                · exact .inr ⟨rfl, .cons rfl hfit⟩
              · rw [insert, Trie.children, Function.update_of_ne hx] at hc
                exact .inl (.lit hc h)
      | wild n =>
          cases h with
          | here hv => exact .inl (.here hv)
          | lit hc h => exact .inl (.lit hc h)
          | wild hw h =>
              cases hw
              rcases ih h with h | ⟨rfl, hfit⟩
              · cases wild with
                | none => exact absurd h not_reaches_empty
                | some w => exact .inl (.wild rfl h)
              · exact .inr ⟨rfl, .cons trivial hfit⟩

end Trie

end ZenZip.Lib
