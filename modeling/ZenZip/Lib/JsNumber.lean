import ZenZip.Lib.Doubles
import ZenZip.Lib.JsonText

namespace ZenZip.Lib.Js

open JsonText

def magnitude (text : List Char) : ℚ :=
  let cs := (minus text).2
  let ds := cs.takeWhile Char.isDigit
  let rest := cs.dropWhile Char.isDigit
  let fs := match rest with
    | '.' :: cs => cs.takeWhile Char.isDigit
    | _ => []
  let e : Int := match rest.dropWhile (fun c => c ≠ 'e' && c ≠ 'E') with
    | _ :: '-' :: cs => -(Nat.ofDigitChars 10 cs 0)
    | _ :: '+' :: cs => Nat.ofDigitChars 10 cs 0
    | _ :: cs => Nat.ofDigitChars 10 cs 0
    | [] => 0
  Nat.ofDigitChars 10 (ds ++ fs) 0 * 10 ^ (e - fs.length)

structure Decimal where
  digits : Nat
  exponent : Int

def Decimal.value (d : Decimal) : ℚ := d.digits * 10 ^ d.exponent

/-- The neighbours of `x` among the numbers of `k` digits that are doubles' texts for `x`; of two
the nearer one. -/
def digitsOf (x : ℚ) (k : Nat) : Option Decimal :=
  let e := Int.log 10 x + 1 - k
  let low : Decimal := ⟨⌊x / 10 ^ e⌋.toNat, e⟩
  let high : Decimal := ⟨⌊x / 10 ^ e⌋.toNat + 1, e⟩
  if toDouble low.value = x then
    if toDouble high.value = x ∧
        (high.value - x < x - low.value ∨ high.value - x = x - low.value ∧
          high.digits % 2 = 0) then some high
    else some low
  else if toDouble high.value = x then some high
  else none

/-- The fewest digits that tell a double from all others; seventeen always do. -/
def shortest (x : ℚ) : Decimal :=
  ((List.range 17).findSome? (fun k => digitsOf x (k + 1))).getD ⟨0, 0⟩

def layout (ds : List Char) (n : Int) : List Char :=
  if ds.length ≤ n ∧ n ≤ 21 then ds ++ List.replicate (n - ds.length).toNat '0'
  else if 0 < n ∧ n ≤ 21 then ds.take n.toNat ++ '.' :: ds.drop n.toNat
  else if -6 < n ∧ n ≤ 0 then '0' :: '.' :: (List.replicate (-n).toNat '0' ++ ds)
  else
    ds.take 1 ++ (if ds.length = 1 then [] else '.' :: ds.drop 1) ++
      'e' :: (if 0 < n then '+' else '-') :: (n - 1).natAbs.repr.toList

def Decimal.text (d : Decimal) : List Char :=
  let ds := d.digits.repr.toList
  layout (ds.reverse.dropWhile (· = '0')).reverse (ds.length + d.exponent)

/-- A number of JSON as `String` writes what `JSON.parse` makes of it. -/
def number (text : List Char) : List Char :=
  let x := toDouble (magnitude text)
  if x = 0 then ['0']
  else (minus text).1 ++ if 2 ^ 1024 ≤ x then "Infinity".toList else (shortest x).text

example : number "1.0".toList = "1".toList := by decide +kernel

example : number "12345678901234567890".toList = "12345678901234567000".toList := by decide +kernel

example : number "-0.00000015".toList = "-1.5e-7".toList := by decide +kernel

end ZenZip.Lib.Js
