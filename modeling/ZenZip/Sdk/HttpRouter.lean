import ZenZip.Lib.Trie
import ZenZip.Sdk.Address
import Mathlib.Data.List.TakeWhile

namespace ZenZip

open Lib

/-- The bytes of a text in which an escape stands for its byte. -/
def unescape : List Char → Option (List UInt8)
  | [] => some []
  | '%' :: a :: b :: cs =>
      if a ∈ hexDigits ∧
        b ∈ hexDigits then (unescape cs).map (UInt8.ofNat (16 * hexVal a + hexVal b) :: ·) else none
  | '%' :: _ => none
  | c :: cs => (unescape cs).map (String.utf8EncodeChar c ++ ·)

def decodeURIComponent (s : List Char) : Except String (List Char) :=
  match (unescape s).bind (fun bytes => String.fromUTF8? ⟨bytes.toArray⟩) with
  | some t => .ok t.toList
  | none => .error "URI malformed"

/-- `toUpperCase` of a method, a token of ASCII letters. -/
def toUpperCase (s : List Char) : List Char := s.map Char.toUpper

/-- The segments that the trie sees: the empty ones are skipped. -/
def pathSegments (path : List Char) : List (List Char) := (path.splitOn '/').filter (· ≠ [])

def part : List Char → Trie.Part (List Char) (List Char)
  | ':' :: name => .wild name
  | seg => .lit seg

abbrev RouteNode (H : Type) := Trie (List Char) (List Char) H

abbrev Params := List Char → Option (List Char)

/-- `params[name] = text` on an object, whose prototype no text replaces. -/
def setParam (params : Params) (name text : List Char) : Params :=
  if name = "__proto__".toList then params else Function.update params name (some text)

namespace RouteNode

variable {H : Type}

/-- The loop of `match` over the characters of a path. -/
def walk (node : RouteNode H) (params : Params) : List Char → Except String (Option (H × Params))
  | [] => .ok (node.value.map (·, params))
  | c :: cs =>
      if c = '/' then walk node params cs
      else
        match node.children (c :: cs.takeWhile (· ≠ '/')) with
        | some child => walk child params ((cs.dropWhile (· ≠ '/')).drop 1)
        | none =>
            match node.wild with
            | none => .ok none
            | some (name, child) =>
                match decodeURIComponent (c :: cs.takeWhile (· ≠ '/')) with
                | .error e => .error e
                | .ok v => walk child (setParam params name v) ((cs.dropWhile (· ≠ '/')).drop 1)
termination_by path => path.length
decreasing_by
  all_goals
    have hle :=
      (List.dropWhile_sublist (fun c => decide (c ≠ '/')) : cs.dropWhile _ |>.Sublist cs).length_le
    simp only [List.length_cons, List.length_drop]
    omega

def descend (node : RouteNode H) (params : Params) :
    List (List Char) → Except String (Option (H × Params))
  | [] => .ok (node.value.map (·, params))
  | seg :: segs =>
      match node.children seg with
      | some child => descend child params segs
      | none =>
          match node.wild with
          | none => .ok none
          | some (name, child) =>
              match decodeURIComponent seg with
              | .error e => .error e
              | .ok v => descend child (setParam params name v) segs

end RouteNode

theorem pathSegments_slash (cs : List Char) : pathSegments ('/' :: cs) = pathSegments cs := by
  have hsplit := List.splitOn_append_cons_self (a := '/') ([] : List Char) cs
  rw [List.nil_append] at hsplit
  rw [pathSegments, hsplit, List.splitOn_nil, List.singleton_append,
    List.filter_cons_of_neg (by simp), pathSegments]

theorem pathSegments_cons {c : Char} (hc : c ≠ '/') (cs : List Char) : pathSegments (c :: cs) =
    (c :: cs.takeWhile (· ≠ '/')) :: pathSegments ((cs.dropWhile (· ≠ '/')).drop 1) := by
  have hmem : '/' ∉ c :: cs.takeWhile (· ≠ '/') := by
    intro hm
    rcases List.mem_cons.mp hm with he | hm
    · exact hc he.symm
    · simpa using List.mem_takeWhile_imp hm
  have happ : c :: cs = (c :: cs.takeWhile (· ≠ '/')) ++ cs.dropWhile (· ≠ '/') := by
    rw [List.cons_append, List.takeWhile_append_dropWhile]
  cases hrest : cs.dropWhile (· ≠ '/') with
  | nil =>
      rw [hrest, List.append_nil] at happ
      rw [pathSegments, happ, List.splitOn_eq_singleton hmem]
      simp [pathSegments]
  | cons d rest =>
      have hd : d = '/' := by
        have h := List.head?_dropWhile_not (fun c => decide (c ≠ '/')) cs
        rw [hrest] at h
        simpa using h
      rw [hrest, hd] at happ
      rw [pathSegments, happ, List.splitOn_append_cons_self_of_not_mem hmem,
        List.filter_cons_of_pos (by simp)]
      rfl

namespace RouteNode

variable {H : Type}

/-- A match sees the segments of a path and nothing else of it. -/
theorem walk_eq_descend (node : RouteNode H) (params : Params) (path : List Char) :
    walk node params path = descend node params (pathSegments path) := by
  induction node, params, path using walk.induct with
  | case1 node params =>
      rw [walk]
      rfl
  | case2 node params cs ih =>
      rw [walk, if_pos rfl, ih, pathSegments_slash]
  | case3 node params c cs hc child hchild ih =>
      rw [walk, if_neg hc, pathSegments_cons hc, descend]
      simp only [hchild]
      exact ih
  | case4 node params c cs hc hchild hwild =>
      rw [walk, if_neg hc, pathSegments_cons hc, descend]
      simp only [hchild, hwild]
  | case5 node params c cs hc hchild name child hwild e he =>
      rw [walk, if_neg hc, pathSegments_cons hc, descend]
      simp only [hchild, hwild, he]
  | case6 node params c cs hc hchild name child hwild v hv ih =>
      rw [walk, if_neg hc, pathSegments_cons hc, descend]
      simp only [hchild, hwild, hv]
      exact ih

theorem reaches_of_descend {node : RouteNode H} {params params' : Params}
    {segs : List (List Char)} {h : H}
    (hd : descend node params segs = .ok (some (h, params'))) : node.Reaches segs h := by
  induction segs generalizing node params with
  | nil =>
      rw [descend] at hd
      cases hv : node.value with
      | none =>
          rw [hv] at hd
          cases hd
      | some v =>
          rw [hv] at hd
          cases hd
          exact .here hv
  | cons seg segs ih =>
      rw [descend] at hd
      cases hc : node.children seg with
      | some child =>
          simp only [hc] at hd
          exact .lit hc (ih hd)
      | none =>
          simp only [hc] at hd
          cases hw : node.wild with
          | none =>
              simp only [hw] at hd
              cases hd
          | some w =>
              simp only [hw] at hd
              cases hv : decodeURIComponent seg with
              | error e =>
                  simp only [hv] at hd
                  cases hd
              | ok v =>
                  simp only [hv] at hd
                  exact .wild hw (ih hd)

end RouteNode

structure HttpRouter (H : Type) where
  trees : List Char → Option (RouteNode H)
  size : Nat

namespace HttpRouter

variable {H : Type}

def empty : HttpRouter H := ⟨fun _ => none, 0⟩

def add (r : HttpRouter H) (method path : List Char) (handler : H) : Except String (HttpRouter H) :=
  if path.head? ≠ some '/' then .error s!"route path must start with \"/\": {String.ofList path}"
  else
    let root := (r.trees (toUpperCase method)).getD .empty
    let parts := (pathSegments path).map part
    .ok {
      trees := Function.update r.trees (toUpperCase method) (some (root.insert handler parts))
      size := if (root.get parts).isNone then r.size + 1 else r.size
    }

def match? (r : HttpRouter H) (method path : List Char) : Except String (Option (H × Params)) :=
  match r.trees method with
  | none => .ok none
  | some root => root.walk (fun _ => none) path

theorem match?_eq_descend (r : HttpRouter H) (method path : List Char) : r.match? method path =
    match r.trees method with
    | none => .ok none
    | some root => root.descend (fun _ => none) (pathSegments path) := by
  rw [match?]
  cases r.trees method with
  | none => rfl
  | some root => exact root.walk_eq_descend _ path

theorem match?_congr (r : HttpRouter H) (method : List Char) {path path' : List Char}
    (h : pathSegments path = pathSegments path') :
    r.match? method path = r.match? method path' := by
  rw [match?_eq_descend, match?_eq_descend, h]

def Reaches (r : HttpRouter H) (method : List Char) (segs : List (List Char)) (h : H) : Prop :=
  ∃ root, r.trees method = some root ∧ root.Reaches segs h

theorem not_reaches_empty {method : List Char} {segs : List (List Char)} {h : H} :
    ¬ (empty : HttpRouter H).Reaches method segs h := by
  rintro ⟨root, hroot, _⟩
  cases hroot

theorem reaches_of_match {r : HttpRouter H} {method path : List Char} {h : H} {params : Params}
    (hm : r.match? method path = .ok (some (h, params))) :
    r.Reaches method (pathSegments path) h := by
  rw [match?_eq_descend] at hm
  cases hroot : r.trees method with
  | none =>
      simp only [hroot] at hm
      cases hm
  | some root =>
      simp only [hroot] at hm
      exact ⟨root, hroot, RouteNode.reaches_of_descend hm⟩

theorem reaches_add {r r' : HttpRouter H} {method path method' : List Char} {handler h : H}
    {segs : List (List Char)}
    (ha : r.add method path handler = .ok r') (hr : r'.Reaches method' segs h) :
    r.Reaches method' segs h ∨
      h = handler ∧ method' = toUpperCase method ∧ List.Forall₂ Trie.Part.Fits
        ((pathSegments path).map part) segs := by
  unfold add at ha
  split at ha
  · cases ha
  · cases ha
    obtain ⟨root, hroot, hreach⟩ := hr
    by_cases hmethod : method' = toUpperCase method
    · subst hmethod
      simp only [Function.update_self] at hroot
      cases hroot
      rcases Trie.reaches_insert hreach with hreach | ⟨rfl, hfit⟩
      · obtain ⟨root, hroot, hreach⟩ := Trie.reaches_getD hreach
        exact .inl ⟨root, hroot, hreach⟩
      · exact .inr ⟨rfl, rfl, hfit⟩
    · simp only [Function.update_of_ne hmethod] at hroot
      exact .inl ⟨root, hroot, hreach⟩

end HttpRouter

end ZenZip
