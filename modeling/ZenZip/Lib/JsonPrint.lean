import ZenZip.Lib.JsonGrammar

namespace ZenZip.Lib.JsonText

mutual

/-- `JSON.stringify`, with the numbers as they are written. -/
def stringify : JsonValue → List Char
  | .null => ['n', 'u', 'l', 'l']
  | .bool true => ['t', 'r', 'u', 'e']
  | .bool false => ['f', 'a', 'l', 's', 'e']
  | .number text => text
  | .string s => quote s
  | .array vs => '[' :: (stringifyItems vs ++ [']'])
  | .object fs => '\x7b' :: (stringifyFields fs ++ ['\x7d'])

def stringifyItems : List JsonValue → List Char
  | [] => []
  | [v] => stringify v
  | v :: w :: vs => stringify v ++ ',' :: stringifyItems (w :: vs)

def stringifyFields : List (List Char × JsonValue) → List Char
  | [] => []
  | [(k, v)] => quote k ++ ':' :: stringify v
  | (k, v) :: f :: fs => quote k ++ ':' :: (stringify v ++ ',' :: stringifyFields (f :: fs))

end

mutual

def Numeric : JsonValue → Prop
  | .null | .bool _ | .string _ => True
  | .number text => number text = some (text, [])
  | .array vs => NumericItems vs
  | .object fs => NumericFields fs

def NumericItems : List JsonValue → Prop
  | [] => True
  | v :: vs => Numeric v ∧ NumericItems vs

def NumericFields : List (List Char × JsonValue) → Prop
  | [] => True
  | (_, v) :: fs => Numeric v ∧ NumericFields fs

end

section Tokens

variable {c : Char} {cs rest : List Char} {v : JsonValue}

theorem skip_of_not_isWhitespace (h : isWhitespace c = false) (cs : List Char) :
    skip (c :: cs) = c :: cs := by
  rw [skip, List.dropWhile_cons_of_neg (by simp [h])]

theorem ends_of_not_isNumeral (h : isNumeral c = false) (cs : List Char) : Ends (c :: cs) := by
  intro d hd
  cases hd
  exact h

theorem reads_quote (s rest : List Char) : Reads (.value (.string s)) (quote s ++ rest) rest :=
  .string (stringLiteral_quote s rest)

theorem not_isWhitespace_of_isNumeral (h : isNumeral c = true) : isWhitespace c = false := by
  by_contra hw
  have hspace := isSpace_of_isWhitespace (Bool.not_eq_false _ ▸ hw)
  rw [isSpace_of_isNumeral h] at hspace
  cases hspace

theorem reads_number {text : List Char} (h : number text = some (text, [])) (hrest : Ends rest) :
    Reads (.value (.number text)) (text ++ rest) rest := by
  obtain ⟨hne, hconsumed⟩ := number_consumed h
  obtain ⟨c, cs, rfl⟩ := List.exists_cons_of_ne_nil hne
  have hc : isNumeral c = true := hconsumed.numeral c List.mem_cons_self
  apply Reads.literal
  rw [List.cons_append, skip_of_not_isWhitespace (not_isWhitespace_of_isNumeral hc),
    literal_eq_number hc, ← List.cons_append,
    number_append hrest, h]
  rfl

end Tokens

mutual

theorem reads_stringify {rest : List Char} (hrest : Ends rest) :
    ∀ v, Numeric v → Reads (.value v) (stringify v ++ rest) rest
  | .null, _ => .literal rfl
  | .bool true, _ => .literal rfl
  | .bool false, _ => .literal rfl
  | .number _, h => reads_number h hrest
  | .string s, _ => reads_quote s rest
  | .array [], _ => .emptyArray rfl rfl
  | .array (v :: vs), h => by
      have hitems := reads_stringifyItems rest (v :: vs) (by simp) h
      refine .array ?_ hitems
      rw [stringify, List.cons_append, List.append_assoc]
      rfl
  | .object [], _ => .emptyObject rfl rfl
  | .object (f :: fs), h => by
      have hfields := reads_stringifyFields rest (f :: fs) (by simp) h
      refine .object ?_ hfields
      rw [stringify, List.cons_append, List.append_assoc]
      rfl

theorem reads_stringifyItems (rest : List Char) :
    ∀ vs, vs ≠ [] → NumericItems vs → Reads (.items vs) (stringifyItems vs ++ ']' :: rest) rest
  | [], hne, _ => absurd rfl hne
  | [v], _, h => .lastItem (reads_stringify (ends_of_not_isNumeral rfl rest) v h.1) rfl
  | v :: w :: vs, _, h => by
      rw [stringifyItems, List.append_assoc, List.cons_append]
      exact .item (reads_stringify (ends_of_not_isNumeral rfl _) v h.1) rfl
        (reads_stringifyItems rest (w :: vs) (by simp) h.2)

theorem reads_stringifyFields (rest : List Char) :
    ∀ fs, fs ≠ [] → NumericFields fs → Reads (.fields fs)
      (stringifyFields fs ++ '\x7d' :: rest) rest
  | [], hne, _ => absurd rfl hne
  | [(k, v)], _, h => by
      rw [stringifyFields, List.append_assoc, List.cons_append]
      exact .lastField (stringLiteral_quote k _) rfl
        (reads_stringify (ends_of_not_isNumeral rfl rest) v h.1) rfl
  | (k, v) :: f :: fs, _, h => by
      rw [stringifyFields, List.append_assoc, List.cons_append, List.append_assoc, List.cons_append]
      exact .field (stringLiteral_quote k _) rfl
        (reads_stringify (ends_of_not_isNumeral rfl _) v h.1) rfl
        (reads_stringifyFields rest (f :: fs) (by simp) h.2)

end

theorem parse_stringify {v : JsonValue} (h : Numeric v) : parse (stringify v) = some v := by
  have hreads : Reads (.value v) (stringify v ++ []) [] :=
    reads_stringify (fun c hc => by cases hc) v h
  rw [List.append_nil] at hreads
  exact parse_eq_some.mpr ⟨[], hreads, rfl⟩

end ZenZip.Lib.JsonText
