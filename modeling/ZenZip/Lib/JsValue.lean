import Mathlib.Data.List.Sort
import ZenZip.Lib.JsNumber
import ZenZip.Lib.JsonPrint
import ZenZip.Lib.Table

namespace ZenZip.Lib.Js

open JsonText

section Fields

variable {A B : Type} {fs : List (List Char × A)} {f : List Char × A} {k : List Char}

/-- `o[k] = v`: an entry keeps its place. -/
def setField : List (List Char × A) → List Char × A → List (List Char × A)
  | [], f => [f]
  | g :: fs, f => if g.1 = f.1 then f :: fs else g :: setField fs f

def arrayIndex (k : List Char) : Option Nat :=
  let n := Nat.ofDigitChars 10 k 0
  if k.all Char.isDigit && n.repr.toList = k && n < 2 ^ 32 - 1 then some n else none

def ownFields (fs : List (List Char × A)) : List (List Char × A) :=
  let own := fs.foldl setField []
  (own.filter (fun f => (arrayIndex f.1).isSome)).insertionSort
      (fun f g => (arrayIndex f.1).getD 0 ≤ (arrayIndex g.1).getD 0) ++
    own.filter (fun f => !(arrayIndex f.1).isSome)

theorem find?_setField (l : List (List Char × A)) (f : List Char × A) (k : List Char) :
    (setField l f).find? (fun g => g.1 = k) = if f.1 = k then some f else l.find?
      (fun g => g.1 = k) := by
  induction l with
  | nil => by_cases h : f.1 = k <;> simp [setField, h]
  | cons g l ih =>
      rw [setField]
      by_cases hg : g.1 = f.1
      · rw [if_pos hg]
        by_cases h : f.1 = k
        · simp [h]
        · simp [h, hg]
      · rw [if_neg hg, List.find?_cons, ih]
        by_cases h : f.1 = k
        · have hne : ¬g.1 = k := fun hk => hg (hk.trans h.symm)
          simp [h, hne]
        · by_cases hk : g.1 = k
          · simp [hk, h]
          · simp [hk, h]

theorem find?_foldl_setField (fs l : List (List Char × A)) (k : List Char) :
    (fs.foldl setField l).find? (fun f => f.1 = k) =
      (fs.reverse.find? (fun f => f.1 = k)).or (l.find? (fun f => f.1 = k)) := by
  induction fs generalizing l with
  | nil => rfl
  | cons f fs ih =>
      rw [List.foldl_cons, ih, find?_setField, List.reverse_cons, List.find?_append]
      by_cases h : f.1 = k
      · simp [h]
      · simp [h]

theorem nodup_setField {l : List (List Char × A)} (h : (l.map (·.1)).Nodup) (f : List Char × A) :
    ((setField l f).map (·.1)).Nodup ∧ ∀ k ∈ (setField l f).map (·.1), k = f.1 ∨ k ∈ l.map
      (·.1) := by
  induction l with
  | nil => simp [setField]
  | cons g l ih =>
      obtain ⟨hg, hl⟩ := List.nodup_cons.mp h
      obtain ⟨hnodup, hkeys⟩ := ih hl
      rw [setField]
      by_cases he : g.1 = f.1
      · rw [if_pos he, List.map_cons, ← he]
        exact ⟨h, fun k hk => .inr hk⟩
      · rw [if_neg he, List.map_cons]
        constructor
        · refine List.nodup_cons.mpr ⟨fun hmem => ?_, hnodup⟩
          rcases hkeys _ hmem with hf | hmem
          · exact he hf
          · exact hg hmem
        · intro k hk
          rcases List.mem_cons.mp hk with rfl | hk
          · exact .inr List.mem_cons_self
          · exact (hkeys k hk).imp_right (List.mem_cons_of_mem _)

theorem nodup_foldl_setField {l : List (List Char × A)} (h : (l.map (·.1)).Nodup)
    (fs : List (List Char × A)) :
    ((fs.foldl setField l).map (·.1)).Nodup := by
  induction fs generalizing l with
  | nil => exact h
  | cons f fs ih => exact ih (nodup_setField h f).1

theorem ownFields_perm (fs : List (List Char × A)) : (ownFields fs).Perm (fs.foldl setField []) :=
  ((List.perm_insertionSort _ _).append_right _).trans (List.filter_append_perm _ _)

theorem find?_perm {l l' : List (List Char × A)} (h : l.Perm l') (hn : (l.map (·.1)).Nodup)
    (k : List Char) :
    l.find? (fun f => f.1 = k) = l'.find? (fun f => f.1 = k) := by
  have hn' : (l'.map (·.1)).Nodup := (h.map _).nodup hn
  apply Option.ext
  intro f
  have hl := Table.get?_eq_some_iff (t := (⟨l, hn⟩ : Table (fun f : List Char × A => f.1))) (k := k)
    (r := f)
  have hl' :=
    Table.get?_eq_some_iff (t := (⟨l', hn'⟩ : Table (fun f : List Char × A => f.1))) (k := k)
      (r := f)
  exact hl.trans ((and_congr_left' h.mem_iff).trans hl'.symm)

theorem find?_ownFields (fs : List (List Char × A)) (k : List Char) :
    (ownFields fs).reverse.find? (fun f => f.1 = k) = fs.reverse.find? (fun f => f.1 = k) := by
  have hnodup := nodup_foldl_setField (l := ([] : List (List Char × A))) List.nodup_nil fs
  have hperm : (fs.foldl setField []).Perm (ownFields fs).reverse :=
    (ownFields_perm fs).symm.trans (List.reverse_perm _).symm
  rw [← find?_perm hperm hnodup, find?_foldl_setField, List.find?_nil, Option.or_none]

end Fields

section Values

mutual

/-- The value that JavaScript has for a text of JSON: a double for each number, and no key twice. -/
def value : JsonValue → JsonValue
  | .null => .null
  | .bool b => .bool b
  | .number text => .number (number text)
  | .string s => .string s
  | .array vs => .array (values vs)
  | .object fs => .object (ownFields (entries fs))

def values : List JsonValue → List JsonValue
  | [] => []
  | v :: vs => value v :: values vs

def entries : List (List Char × JsonValue) → List (List Char × JsonValue)
  | [] => []
  | (k, v) :: fs => (k, value v) :: entries fs

end

/-- `JSON.parse`. -/
def parse (cs : List Char) : Option JsonValue := (JsonText.parse cs).map value

mutual

/-- A number that is not finite is `null` in JSON. -/
def finite : JsonValue → JsonValue
  | .null => .null
  | .bool b => .bool b
  | .number text => if JsonText.number text = some (text, []) then .number text else .null
  | .string s => .string s
  | .array vs => .array (finites vs)
  | .object fs => .object (finiteFields fs)

def finites : List JsonValue → List JsonValue
  | [] => []
  | v :: vs => finite v :: finites vs

def finiteFields : List (List Char × JsonValue) → List (List Char × JsonValue)
  | [] => []
  | (k, v) :: fs => (k, finite v) :: finiteFields fs

end

def stringify (v : JsonValue) : List Char := JsonText.stringify (finite v)

/-- What arrives of a value that is sent as JSON. -/
def carried (v : JsonValue) : JsonValue := value (finite v)

mutual

/-- `String(v)`; `none` where it throws, for an object that has a `toString` of its own, which is no
function. -/
def text : JsonValue → Option (List Char)
  | .null => some "null".toList
  | .bool true => some "true".toList
  | .bool false => some "false".toList
  | .number text => some text
  | .string s => some s
  | .array vs => joined vs
  | .object fs =>
      if (fs.map (·.1)).contains "toString".toList then none else some "[object Object]".toList

def joined : List JsonValue → Option (List Char)
  | [] => some []
  | [.null] => some []
  | [v] => text v
  | .null :: w :: vs => (joined (w :: vs)).map (',' :: ·)
  | v :: w :: vs => (text v).bind (fun s => (joined (w :: vs)).map (fun t => s ++ ',' :: t))

end

def unrenderable : List Char := "Cannot convert object to primitive value".toList

def truthy : JsonValue → Bool
  | .null => false
  | .bool b => b
  | .number text => text ≠ ['0']
  | .string s => s ≠ []
  | .array _ | .object _ => true

/-- `v[k]`; of two entries of one name the last one counts. -/
def prop (v : JsonValue) (k : List Char) : Option JsonValue :=
  match v with
  | .object fs => (fs.reverse.find? (fun f => f.1 = k)).map (·.2)
  | _ => none

theorem entries_eq (fs : List (List Char × JsonValue)) :
    entries fs = fs.map (fun f => (f.1, value f.2)) := by
  induction fs with
  | nil => rfl
  | cons f fs ih => rw [entries, ih, List.map_cons]

theorem finiteFields_eq (fs : List (List Char × JsonValue)) :
    finiteFields fs = fs.map (fun f => (f.1, finite f.2)) := by
  induction fs with
  | nil => rfl
  | cons f fs ih => rw [finiteFields, ih, List.map_cons]

theorem values_eq (vs : List JsonValue) : values vs = vs.map value := by
  induction vs with
  | nil => rfl
  | cons v vs ih => rw [values, ih, List.map_cons]

theorem finites_eq (vs : List JsonValue) : finites vs = vs.map finite := by
  induction vs with
  | nil => rfl
  | cons v vs ih => rw [finites, ih, List.map_cons]

theorem find?_map_snd (g : JsonValue → JsonValue) (fs : List (List Char × JsonValue))
    (k : List Char) :
    ((fs.map (fun f => (f.1, g f.2))).reverse.find? (fun f => f.1 = k)).map (·.2) =
      ((fs.reverse.find? (fun f => f.1 = k)).map (·.2)).map g := by
  rw [← List.map_reverse, List.find?_map, Option.map_map, Option.map_map]
  rfl

theorem prop_value (v : JsonValue) (k : List Char) : prop (value v) k = (prop v k).map value := by
  cases v with
  | null | bool | number | string | array => rfl
  | object fs => rw [value, prop, find?_ownFields, entries_eq, find?_map_snd, prop]

theorem prop_finite (v : JsonValue) (k : List Char) :
    prop (finite v) k = (prop v k).map finite := by
  cases v with
  | null | bool | string | array => rfl
  | number text =>
      rw [finite]
      split <;> rfl
  | object fs => rw [finite, prop, finiteFields_eq, find?_map_snd, prop]

theorem prop_carried (v : JsonValue) (k : List Char) :
    prop (carried v) k = (prop v k).map carried := by
  rw [carried, prop_value, prop_finite, Option.map_map]
  rfl

theorem carried_array (vs : List JsonValue) : carried (.array vs) = .array (vs.map carried) := by
  rw [carried, finite, value, finites_eq, values_eq, List.map_map]
  rfl

mutual

theorem numeric_finite : ∀ v, Numeric (finite v)
  | .null | .bool _ | .string _ => trivial
  | .number text => by
      rw [finite]
      split
      · next h => exact h
      · exact trivial
  | .array vs => numericItems_finites vs
  | .object fs => numericFields_finiteFields fs

theorem numericItems_finites : ∀ vs, NumericItems (finites vs)
  | [] => trivial
  | v :: vs => ⟨numeric_finite v, numericItems_finites vs⟩

theorem numericFields_finiteFields : ∀ fs, NumericFields (finiteFields fs)
  | [] => trivial
  | (_, v) :: fs => ⟨numeric_finite v, numericFields_finiteFields fs⟩

end

theorem parse_stringify (v : JsonValue) : parse (stringify v) = some (carried v) := by
  rw [parse, stringify, JsonText.parse_stringify (numeric_finite v)]
  rfl

end Values

end ZenZip.Lib.Js
