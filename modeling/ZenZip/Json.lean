import Mathlib.Data.Rat.Defs

namespace ZenZip

/-- A JSON text, taken as the value it denotes. Numbers compare as `serde_json`
compares them: integers by value, other numbers as the rational they stand for.
Object fields come once each: in key order where the engine has parsed the text, in
the order of the text where it passes it on. -/
inductive Json
  | null
  | bool (b : Bool)
  | int (n : Int)
  | float (q : Rat)
  | str (s : String)
  | arr (items : List Json)
  | obj (fields : List (String × Json))

namespace Json

mutual

def decEq : (a b : Json) → Decidable (a = b)
  | .null, .null => isTrue rfl
  | .bool a, .bool b => decidable_of_iff (a = b) (by simp)
  | .int a, .int b => decidable_of_iff (a = b) (by simp)
  | .float a, .float b => decidable_of_iff (a = b) (by simp)
  | .str a, .str b => decidable_of_iff (a = b) (by simp)
  | .arr a, .arr b => match decEqItems a b with
    | isTrue h => isTrue (by rw [h])
    | isFalse h => isFalse (by simpa using h)
  | .obj a, .obj b => match decEqFields a b with
    | isTrue h => isTrue (by rw [h])
    | isFalse h => isFalse (by simpa using h)
  | .null, .bool _ | .null, .int _ | .null, .float _ | .null, .str _ | .null, .arr _ | .null, .obj _
  | .bool _, .null | .bool _, .int _ | .bool _, .float _ | .bool _, .str _ | .bool _,
    .arr _ | .bool _, .obj _
  | .int _, .null | .int _, .bool _ | .int _, .float _ | .int _, .str _ | .int _,
    .arr _ | .int _, .obj _
  | .float _, .null | .float _, .bool _ | .float _, .int _ | .float _, .str _ | .float _, .arr _
  | .float _, .obj _
  | .str _, .null | .str _, .bool _ | .str _, .int _ | .str _, .float _ | .str _,
    .arr _ | .str _, .obj _
  | .arr _, .null | .arr _, .bool _ | .arr _, .int _ | .arr _, .float _ | .arr _,
    .str _ | .arr _, .obj _
  | .obj _, .null | .obj _, .bool _ | .obj _, .int _ | .obj _, .float _ | .obj _, .str _
  | .obj _, .arr _ =>
    isFalse (by simp)

def decEqItems : (a b : List Json) → Decidable (a = b)
  | [], [] => isTrue rfl
  | [], _ :: _ | _ :: _, [] => isFalse (by simp)
  | x :: xs, y :: ys => match decEq x y, decEqItems xs ys with
    | isTrue hx, isTrue hs => isTrue (by rw [hx, hs])
    | isFalse hx, _ => isFalse (fun h => hx (List.cons.inj h).1)
    | _, isFalse hs => isFalse (fun h => hs (List.cons.inj h).2)

def decEqFields : (a b : List (String × Json)) → Decidable (a = b)
  | [], [] => isTrue rfl
  | [], _ :: _ | _ :: _, [] => isFalse (by simp)
  | (k, x) :: xs, (l, y) :: ys =>
      match (inferInstance : Decidable (k = l)), decEq x y, decEqFields xs ys with
    | isTrue hk, isTrue hx, isTrue hs => isTrue (by rw [hk, hx, hs])
    | isFalse hk, _, _ => isFalse (fun h => hk (Prod.mk.inj (List.cons.inj h).1).1)
    | _, isFalse hx, _ => isFalse (fun h => hx (Prod.mk.inj (List.cons.inj h).1).2)
    | _, _, isFalse hs => isFalse (fun h => hs (List.cons.inj h).2)

end

instance : DecidableEq Json := decEq

def get : Json → String → Option Json
  | .obj fields, k => (fields.find? (fun f => f.1 = k)).map (·.2)
  | _, _ => none

end Json

end ZenZip
