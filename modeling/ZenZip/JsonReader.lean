import ZenZip.Json
import ZenZip.Lib.JsonLines

namespace ZenZip

open Lib JsonText

variable (numeral : List Char → Json)

mutual

def ofValue : JsonValue → Json
  | .null => .null
  | .bool b => .bool b
  | .number text => numeral text
  | .string s => .str (String.ofList s)
  | .array items => .arr (ofItems items)
  | .object fields => .obj (ofFields fields)

def ofItems : List JsonValue → List Json
  | [] => []
  | v :: vs => ofValue v :: ofItems vs

/-- Of the fields with one key the first has the place and the last the value. -/
def ofFields : List (List Char × JsonValue) → List (String × Json)
  | [] => []
  | (k, v) :: fs => match (ofFields fs).find? (fun f => f.1 = String.ofList k) with
    | some f => f :: (ofFields fs).filter (fun f => f.1 ≠ String.ofList k)
    | none => (String.ofList k, ofValue v) :: ofFields fs

end

/-- `JSON.parse`. -/
def parseJson (text : List Char) : Option Json := (parse text).map (ofValue numeral)

def readJson (t : String) : Option Json := parseJson numeral t.toList

theorem readJson_field (k : List Char) {p : String} {v : Json} (h : readJson numeral p = some v) :
    parseJson numeral ('\x7b' :: (quote k ++ ':' :: (p.toList ++ ['\x7d']))) = some
      (.obj [(String.ofList k, v)]) := by
  obtain ⟨w, hw, rfl⟩ := Option.map_eq_some_iff.mp h
  rw [parseJson, parse_field k hw]
  rfl

end ZenZip
