import Mathlib.Tactic.SplitIfs

namespace ZenZip.Lib

/-- What a JSON text stands for. A number is kept as it is written. -/
inductive JsonValue
  | null
  | bool (b : Bool)
  | number (text : List Char)
  | string (s : List Char)
  | array (items : List JsonValue)
  | object (fields : List (List Char × JsonValue))

namespace JsonText

abbrev Reader (A : Type) := List Char → Option (A × List Char)

section Strings

def unhex (c : Char) : Option Nat :=
  if '0' ≤ c ∧ c ≤ '9' then some (c.toNat - 48)
  else if 'a' ≤ c ∧ c ≤ 'f' then some (c.toNat - 87)
  else if 'A' ≤ c ∧ c ≤ 'F' then some (c.toNat - 55)
  else none

def hex4 : Reader Nat
  | a :: b :: c :: d :: cs => do
    let a ← unhex a
    let b ← unhex b
    let c ← unhex c
    let d ← unhex d
    some (((a * 16 + b) * 16 + c) * 16 + d, cs)
  | _ => none

/-- A code unit alone: half of a pair stands for no character. -/
def unit (u : Nat) : Char := if 55296 ≤ u ∧ u < 57344 then Char.ofNat 65533 else Char.ofNat u

def lowUnit : Reader Nat
  | '\\' :: 'u' :: cs =>
      (hex4 cs).bind (fun (v, cs) => if 56320 ≤ v ∧ v < 57344 then some (v, cs) else none)
  | _ => none

def escape : Reader Char
  | '"' :: cs => some ('"', cs)
  | '\\' :: cs => some ('\\', cs)
  | '/' :: cs => some ('/', cs)
  | 'b' :: cs => some (Char.ofNat 8, cs)
  | 'f' :: cs => some (Char.ofNat 12, cs)
  | 'n' :: cs => some ('\n', cs)
  | 'r' :: cs => some ('\r', cs)
  | 't' :: cs => some ('\t', cs)
  | 'u' :: cs => (hex4 cs).map (fun (u, cs) =>
    if 55296 ≤ u ∧ u < 56320 then
      match lowUnit cs with
      | some (v, cs) => (Char.ofNat (65536 + (u - 55296) * 1024 + (v - 56320)), cs)
      | none => (unit u, cs)
    else (unit u, cs))
  | _ => none

def stringBody : Nat → Reader (List Char)
  | 0, _ => none
  | _, [] => none
  | n + 1, c :: cs =>
    if c = '"' then some ([], cs)
    else if c = '\\' then
      (escape cs).bind (fun (d, cs) => (stringBody n cs).map (fun (s, cs) => (d :: s, cs)))
    else if c.toNat < 32 then none
    else (stringBody n cs).map (fun (s, cs) => (c :: s, cs))

def hexDigit (n : Nat) : Char := if n < 10 then Char.ofNat (48 + n) else Char.ofNat (87 + n)

def escapeChar (c : Char) : List Char :=
  if c = '"' then ['\\', '"']
  else if c = '\\' then ['\\', '\\']
  else if c = Char.ofNat 8 then ['\\', 'b']
  else if c = Char.ofNat 12 then ['\\', 'f']
  else if c = '\n' then ['\\', 'n']
  else if c = '\r' then ['\\', 'r']
  else if c = '\t' then ['\\', 't']
  else if c.toNat < 32 then ['\\', 'u', '0', '0', hexDigit (c.toNat / 16), hexDigit (c.toNat % 16)]
  else [c]

def quote (s : List Char) : List Char := '"' :: (s.flatMap escapeChar ++ ['"'])

theorem hex4_control (n : Nat) (h : n < 32) (cs : List Char) :
    hex4 ('0' :: '0' :: hexDigit (n / 16) :: hexDigit (n % 16) :: cs) = some (n, cs) := by
  have hhigh : unhex (hexDigit (n / 16)) = some (n / 16) := by
    have hall : ∀ k < 2, unhex (hexDigit k) = some k := by decide
    exact hall _ (by omega)
  have hlow : unhex (hexDigit (n % 16)) = some (n % 16) := by
    have hall : ∀ k < 16, unhex (hexDigit k) = some k := by decide
    exact hall _ (by omega)
  have hzero : unhex '0' = some 0 := by decide
  simp only [hex4, hzero, hhigh, hlow, Option.bind_eq_bind, Option.bind_some, Option.some.injEq,
    Prod.mk.injEq, and_true]
  omega

theorem stringBody_escapeChar (n : Nat) (c : Char) (cs : List Char) :
    stringBody (n + 1) (escapeChar c ++ cs) = (stringBody n cs).map
      (fun (s, cs) => (c :: s, cs)) := by
  unfold escapeChar
  split
  · next h => rw [h]; rfl
  split
  · next h => rw [h]; rfl
  split
  · next h => rw [h]; rfl
  split
  · next h => rw [h]; rfl
  split
  · next h => rw [h]; rfl
  split
  · next h => rw [h]; rfl
  split
  · next h => rw [h]; rfl
  split
  · next hlt =>
      have hunit : unit c.toNat = c := by
        rw [unit, if_neg (by omega), Char.ofNat_toNat]
      have hescape : escape
        ('u' :: '0' :: '0' :: hexDigit (c.toNat / 16) :: hexDigit (c.toNat % 16) :: cs) =
          some (c, cs) := by
        simp only [escape, hex4_control c.toNat hlt, Option.map_some]
        rw [if_neg (by omega), hunit]
      simp only [List.cons_append, List.nil_append, stringBody]
      rw [if_neg (by decide), if_pos trivial, hescape]
      rfl
  · next hquote hslash _ _ _ _ _ hlt =>
      simp only [List.cons_append, List.nil_append, stringBody]
      rw [if_neg hquote, if_neg hslash, if_neg hlt]

theorem stringBody_quote {n : Nat} {s : List Char} (h : s.length < n) (cs : List Char) :
    stringBody n (s.flatMap escapeChar ++ '"' :: cs) = some (s, cs) := by
  induction s generalizing n with
  | nil =>
      obtain ⟨m, rfl⟩ := Nat.exists_eq_succ_of_ne_zero (Nat.ne_of_gt h)
      rfl
  | cons c s ih =>
      obtain ⟨m, rfl⟩ :=
        Nat.exists_eq_succ_of_ne_zero (Nat.ne_of_gt (Nat.lt_of_le_of_lt (Nat.zero_le _) h))
      rw [List.flatMap_cons, List.append_assoc, stringBody_escapeChar,
        ih (Nat.lt_of_succ_lt_succ h)]
      rfl

end Strings

section Values

def isWhitespace (c : Char) : Bool := c = ' ' || c = '\n' || c = '\r' || c = '\t'

def skip (cs : List Char) : List Char := cs.dropWhile isWhitespace

def stringLiteral : Reader (List Char)
  | '"' :: cs => stringBody (cs.length + 1) cs
  | _ => none

def digits : Reader (List Char)
  | cs => match cs.takeWhile Char.isDigit with
    | [] => none
    | ds => some (ds, cs.dropWhile Char.isDigit)

/-- A zero has no digits after it. -/
def integer : Reader (List Char)
  | '0' :: cs => some (['0'], cs)
  | cs => digits cs

def fraction : Reader (List Char)
  | '.' :: cs => (digits cs).map (fun (ds, cs) => ('.' :: ds, cs))
  | cs => some ([], cs)

def sign : List Char → List Char × List Char
  | '+' :: cs => (['+'], cs)
  | '-' :: cs => (['-'], cs)
  | cs => ([], cs)

def exponent : Reader (List Char)
  | c :: cs =>
    if c = 'e' || c = 'E' then
      (digits (sign cs).2).map (fun (ds, rest) => (c :: (sign cs).1 ++ ds, rest))
    else some ([], c :: cs)
  | [] => some ([], [])

def minus : List Char → List Char × List Char
  | '-' :: cs => (['-'], cs)
  | cs => ([], cs)

def number (cs : List Char) : Option (List Char × List Char) := do
  let (i, cs') ← integer (minus cs).2
  let (f, cs') ← fraction cs'
  let (e, cs') ← exponent cs'
  some ((minus cs).1 ++ i ++ f ++ e, cs')

def literal : Reader JsonValue
  | 't' :: 'r' :: 'u' :: 'e' :: cs => some (.bool true, cs)
  | 'f' :: 'a' :: 'l' :: 's' :: 'e' :: cs => some (.bool false, cs)
  | 'n' :: 'u' :: 'l' :: 'l' :: cs => some (.null, cs)
  | cs => (number cs).map (fun (text, cs) => (.number text, cs))

mutual

def value : Nat → Reader JsonValue
  | 0, _ => none
  | n + 1, cs => match skip cs with
    | '"' :: cs => (stringLiteral ('"' :: cs)).map (fun (s, cs) => (.string s, cs))
    | '\x7b' :: cs => match skip cs with
      | '\x7d' :: cs => some (.object [], cs)
      | cs => (fields n cs).map (fun (fs, cs) => (.object fs, cs))
    | '[' :: cs => match skip cs with
      | ']' :: cs => some (.array [], cs)
      | cs => (items n cs).map (fun (vs, cs) => (.array vs, cs))
    | cs => literal cs

def fields : Nat → Reader (List (List Char × JsonValue))
  | 0, _ => none
  | n + 1, cs => (stringLiteral (skip cs)).bind (fun (k, cs) => match skip cs with
    | ':' :: cs => (value n cs).bind (fun (v, cs) => match skip cs with
      | ',' :: cs => (fields n cs).map (fun (fs, cs) => ((k, v) :: fs, cs))
      | '\x7d' :: cs => some ([(k, v)], cs)
      | _ => none)
    | _ => none)

def items : Nat → Reader (List JsonValue)
  | 0, _ => none
  | n + 1, cs => (value n cs).bind (fun (v, cs) => match skip cs with
    | ',' :: cs => (items n cs).map (fun (vs, cs) => (v :: vs, cs))
    | ']' :: cs => some ([v], cs)
    | _ => none)

end

/-- `JSON.parse`. Every level of nesting takes a character. -/
def parse (cs : List Char) : Option JsonValue :=
  match value (cs.length + 1) cs with
  | some (v, rest) => if skip rest = [] then some v else none
  | none => none

def stringifyField (k s : List Char) : List Char :=
  '\x7b' :: (quote k ++ ':' :: (quote s ++ ['\x7d']))

theorem stringLiteral_quote (s cs : List Char) : stringLiteral (quote s ++ cs) = some (s, cs) := by
  have hlen : s.length ≤ (s.flatMap escapeChar).length := by
    induction s with
    | nil => exact Nat.le_refl 0
    | cons c s ih =>
        have hone : 1 ≤ (escapeChar c).length := by
          unfold escapeChar
          split_ifs <;> simp
        rw [List.flatMap_cons, List.length_append, List.length_cons]
        omega
  rw [quote, List.cons_append, List.append_assoc]
  refine stringBody_quote ?_ cs
  rw [List.length_append]
  omega

theorem skip_quote (s cs : List Char) : skip (quote s ++ cs) = quote s ++ cs := rfl

theorem value_quote (n : Nat) (s cs : List Char) :
    value (n + 1) (quote s ++ cs) = some (.string s, cs) := by
  have hlit := stringLiteral_quote s cs
  rw [value, skip_quote]
  simp only [quote, List.cons_append] at hlit ⊢
  rw [hlit]
  rfl

theorem fields_quote (n : Nat) (k s : List Char) :
    fields (n + 2) (quote k ++ ':' :: (quote s ++ ['\x7d'])) = some ([(k, .string s)], []) := by
  have hcolon (cs : List Char) : skip (':' :: cs) = ':' :: cs := rfl
  rw [fields, skip_quote, stringLiteral_quote, Option.bind_some]
  simp only [hcolon, value_quote, Option.bind_some]
  rfl

theorem value_stringifyField (n : Nat) (k s : List Char) :
    value (n + 3) (stringifyField k s) = some (.object [(k, .string s)], []) := by
  have hfields := fields_quote n k s
  have hbrace (cs : List Char) : skip ('\x7b' :: cs) = '\x7b' :: cs := rfl
  rw [value, stringifyField, hbrace]
  simp only [skip_quote]
  exact congrArg (Option.map (fun (fs, cs) => (JsonValue.object fs, cs))) hfields

theorem parse_stringifyField (k s : List Char) :
    parse (stringifyField k s) = some (.object [(k, .string s)]) := by
  obtain ⟨n, hn⟩ : ∃ n, (stringifyField k s).length + 1 = n + 3 := by
    refine ⟨(stringifyField k s).length - 2, ?_⟩
    have hlen : 2 ≤ (stringifyField k s).length := by
      simp only [stringifyField, quote, List.length_cons, List.length_append]
      omega
    omega
  rw [parse, hn, value_stringifyField]
  rfl

end Values

end JsonText

end ZenZip.Lib
