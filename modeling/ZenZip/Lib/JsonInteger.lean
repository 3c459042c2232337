import Mathlib.Algebra.Group.Nat.Defs
import ZenZip.Lib.JsonTokens

namespace ZenZip.Lib

/-- The double next to an integer: a significand of 53 bits, and of two as near the even one. -/
def nearestDouble (n : Int) : Int :=
  if n.natAbs < 2 ^ 53 then n
  else
    let unit := 2 ^ (n.natAbs.log2 - 52)
    let low := n.natAbs / unit
    let left := n.natAbs % unit
    n.sign * ((if 2 * left < unit ∨ 2 * left = unit ∧ low % 2 = 0 then low else low + 1) *
      unit : Nat)

namespace JsonText

def integerValue : List Char → Option Int
  | '-' :: ds => if ds.all Char.isDigit then some (-(Nat.ofDigitChars 10 ds 0)) else none
  | ds => if ds.all Char.isDigit then some (Nat.ofDigitChars 10 ds 0) else none

def numberValue (text : List Char) : Option Int := (integerValue text).map nearestDouble

variable {n : Nat} {rest : List Char}

theorem head?_toDigits (h : 0 < n) : (Nat.toDigits 10 n).head? ≠ some '0' := by
  induction n using Nat.strongRecOn with
  | ind n ih =>
      rw [Nat.toDigits_eq_if (by decide)]
      split
      · next hlt =>
          have hall : ∀ k < 10, 0 < k → [k.digitChar].head? ≠ some '0' := by decide
          exact hall n hlt h
      · next hle =>
          have hrest := ih (n / 10) (by omega) (by omega)
          rw [List.head?_append_of_ne_nil _ Nat.toDigits_ne_nil]
          exact hrest

theorem all_isDigit_repr (n : Nat) : n.repr.toList.all Char.isDigit = true :=
  List.all_eq_true.mpr (fun _ => Text.isDigit_of_mem_repr)

theorem repr_ne_nil (n : Nat) : n.repr.toList ≠ [] := by
  rw [Nat.toList_repr]
  exact Nat.toDigits_ne_nil

theorem digits_repr (n : Nat) : digits n.repr.toList = some (n.repr.toList, []) := by
  have hall := all_isDigit_repr n
  obtain ⟨c, cs, hcs⟩ := List.exists_cons_of_ne_nil (repr_ne_nil n)
  rw [hcs] at hall ⊢
  rw [digits, List.takeWhile_eq_self_iff.mpr (List.all_eq_true.mp hall),
    List.dropWhile_eq_nil_iff.mpr (List.all_eq_true.mp hall)]

theorem integer_repr (n : Nat) : integer n.repr.toList = some (n.repr.toList, []) := by
  rcases Nat.eq_zero_or_pos n with rfl | hpos
  · rfl
  · have hhead := head?_toDigits hpos
    have hdigits := digits_repr n
    rw [Nat.toList_repr] at hdigits ⊢
    rw [integer.eq_2 _ (fun cs he => ?_), hdigits]
    rw [he] at hhead
    exact hhead rfl

theorem unsigned_repr (n : Nat) : minus n.repr.toList = ([], n.repr.toList) := by
  have hall := all_isDigit_repr n
  rw [minus.eq_2 _ (fun cs he => ?_)]
  rw [he] at hall
  cases hall

theorem number_of_integer {cs : List Char} (h : integer (minus cs).2 = some ((minus cs).2, [])) :
    number cs = some ((minus cs).1 ++ (minus cs).2, []) := by
  show (integer (minus cs).2).bind _ = _
  rw [h]
  show some _ = some _
  rw [List.append_nil, List.append_nil]

theorem number_repr (n : Int) (h : Ends rest) :
    number (n.repr.toList ++ rest) = some (n.repr.toList, rest) := by
  have hself : number n.repr.toList = some (n.repr.toList, []) := by
    cases n with
    | ofNat n =>
        have hi := integer_repr n
        have hm := unsigned_repr n
        have hn := @number_of_integer n.repr.toList (by rw [hm, hi])
        rw [hm] at hn
        exact hn
    | negSucc n =>
        have hi := integer_repr (n + 1)
        have hcs : (Int.negSucc n).repr.toList = '-' :: (n + 1).repr.toList := by
          show ("-" ++ (n + 1).repr).toList = _
          rw [String.toList_append]
          rfl
        have hn := @number_of_integer ('-' :: (n + 1).repr.toList) hi
        rw [hcs]
        exact hn
  rw [number_append h, hself]
  rfl

theorem integerValue_repr (n : Int) : integerValue n.repr.toList = some n := by
  cases n with
  | ofNat n =>
      have hall := all_isDigit_repr n
      show integerValue n.repr.toList = _
      rw [integerValue.eq_2 _ (fun cs he => ?_), if_pos hall, Nat.toList_repr,
        Nat.ofDigitChars_toDigits (by decide) (Nat.le_refl 10)]
      · rfl
      · rw [he] at hall
        cases hall
  | negSucc n =>
      have hcs : (Int.negSucc n).repr.toList = '-' :: (n + 1).repr.toList := by
        show ("-" ++ (n + 1).repr).toList = _
        rw [String.toList_append]
        rfl
      rw [hcs, integerValue, if_pos (all_isDigit_repr (n + 1)), Nat.toList_repr,
        Nat.ofDigitChars_toDigits (by decide) (Nat.le_refl 10)]
      rfl

theorem isNumeral_of_mem_repr {n : Int} {c : Char} (h : c ∈ n.repr.toList) :
    isNumeral c = true := by
  have hn : number (n.repr.toList ++ []) = some (n.repr.toList, []) :=
    number_repr n (fun c hc => by cases hc)
  exact (number_consumed hn).2.numeral c h

end JsonText

end ZenZip.Lib
