import Mathlib.Logic.Function.Basic

namespace ZenZip.Lib

variable {S A : Type}

/-- A step of a digest from which both the digest before it and the symbol can be told,
given the other. -/
structure Reversible (step : S → A → S) : Prop where
  state : ∀ a, Function.Injective (fun s => step s a)
  symbol : ∀ s, Function.Injective (step s)

namespace Reversible

variable {step : S → A → S}

theorem foldl_injective (h : Reversible step) (l : List A) :
    Function.Injective (fun s => l.foldl step s) := by
  induction l with
  | nil => exact fun _ _ he => he
  | cons a l ih =>
      intro s s' he
      exact h.state a (ih he)

theorem foldl_ne (h : Reversible step) (s : S) (before after : List A) {a b : A} (hab : a ≠ b) :
    (before ++ a :: after).foldl step s ≠ (before ++ b :: after).foldl step s := by
  rw [List.foldl_append, List.foldl_append, List.foldl_cons, List.foldl_cons]
  intro he
  exact hab (h.symbol _ (h.foldl_injective after he))

end Reversible

theorem reversible_xor_mul {w : Nat} {p q : BitVec w} (hinv : p * q = 1#w) {code : A → BitVec w}
    (hcode : Function.Injective code) : Reversible (fun s a => (s ^^^ code a) * p) := by
  have hmul : Function.Injective (fun s : BitVec w => s * p) := by
    intro s s' he
    have he : s * p = s' * p := he
    calc
      s = s * p * q := by rw [BitVec.mul_assoc, hinv, BitVec.mul_one]
      _ = s' * p * q := by rw [he]
      _ = s' := by rw [BitVec.mul_assoc, hinv, BitVec.mul_one]
  have hxor {x y z : BitVec w} (he : x ^^^ z = y ^^^ z) : x = y := by
    have := congrArg (· ^^^ z) he
    simpa [BitVec.xor_assoc] using this
  constructor
  · intro a s s' he
    exact hxor (hmul he)
  · intro s a b he
    apply hcode
    apply @hxor _ _ s
    rw [BitVec.xor_comm, BitVec.xor_comm (code b)]
    exact hmul he

end ZenZip.Lib
