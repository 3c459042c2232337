import Mathlib.Data.List.Infix
import ZenZip.Lib.Dfs

namespace ZenZip.Secrets

open Lib.Dfs

/-- What is not an object: `N` are the numbers, `O` what else `typeof` does not call an object. -/
inductive Prim (N O : Type) where
  | text (s : String)
  | number (n : N)
  | null
  | undefined
  | other (o : O)
deriving DecidableEq

inductive Val (N O : Type) where
  | prim (c : Prim N O)
  | ref (a : Nat)
deriving DecidableEq

abbrev Slot (N O : Type) := Option String × Val N O

/-- An array, whose items have no key, or an object with its entries in their order. -/
structure Node (N O : Type) where
  array : Bool
  slots : List (Slot N O)
deriving DecidableEq

abbrev Heap (N O : Type) := List (Node N O)

structure State (N O : Type) where
  heap : Heap N O
  seen : List Nat
deriving DecidableEq

structure UrlLib (U : Type) where
  parse : String → Option U
  password : U → String
  setPassword : U → String → U
  href : U → String

variable {N O U : Type}

def Prim.textual : Prim N O → Bool
  | .text _ => true
  | .number _ => true
  | _ => false

def Val.textual : Val N O → Bool
  | .prim c => c.textual
  | .ref _ => false

def Val.object : Val N O → Option Nat
  | .prim _ => none
  | .ref a => some a

def secretWords : List String :=
  ["pass", "secret", "token", "apikey", "api_key", "api-key", "encryptionkey", "authorization",
    "credential", "bearer"]

/-- `SECRET_KEY_RE.test`. -/
def secretKeyRe (key : String) : Bool :=
  secretWords.any (fun word => decide (word.toList <:+: key.toList.map Char.toLower))

def afterUser (cs : List Char) : Option (List Char) :=
  if "//".toList <+: cs then
    match (cs.drop 2).dropWhile (fun c => c ≠ '/' && c ≠ '@') with
    | '@' :: rest => some rest
    | _ => none
  else none

def maskUser : List Char → List Char
  | [] => []
  | c :: cs =>
    match afterUser (c :: cs) with
    | some rest => "//***@".toList ++ rest
    | none => c :: maskUser cs

def redactUrl (lib : UrlLib U) (url : String) : String :=
  match lib.parse url with
  | some u => lib.href (if lib.password u = "" then u else lib.setPassword u "***")
  | none => String.ofList (maskUser url.toList)

def shown (lib : UrlLib U) : Prim N O → Prim N O
  | .text s => .text (if "://".toList <:+: s.toList then redactUrl lib s else s)
  | c => c

def masked (k : Option String) (v : Val N O) : Bool := k.any secretKeyRe && v.textual

/-- Assigned to `__proto__`, an object or null becomes the prototype, which has the property's
place here, and anything else is dropped. -/
def assigned (k : Option String) : Val N O → Val N O
  | .ref a => .ref a
  | .prim .null => .prim .null
  | .prim c => if k = some "__proto__" then .prim .undefined else .prim c

def State.assign (st : State N O) (out : Nat) (k : Option String) (w : Val N O) : State N O :=
  { st with
    heap := st.heap.modify out
      (fun node => { node with slots := node.slots ++ [(k, assigned k w)] }) }

def redactSlot (redact : State N O → Val N O → Option (State N O × Val N O)) (st : State N O)
    (slot : Slot N O) :
    Option (State N O × Val N O) :=
  if masked slot.1 slot.2 then some (st, .prim (.text "***")) else redact st slot.2

/-- The loop over the items or the entries; `out` is the array or the object that it fills. -/
def fill (redact : State N O → Val N O → Option (State N O × Val N O)) (out : Nat) :
    List (Slot N O) → State N O → Option (State N O)
  | [], st => some st
  | slot :: slots, st => do
    let (st, w) ← redactSlot redact st slot
    fill redact out slots (st.assign out slot.1 w)

/-- `none` when the depth that is left does not suffice. -/
def redactSecrets (lib : UrlLib U) : Nat → State N O → Val N O → Option (State N O × Val N O)
  | _, st, .prim c => some (st, .prim (shown lib c))
  | 0, _, .ref _ => none
  | n + 1, st, .ref a =>
    if a ∈ st.seen then some (st, .ref a)
    else do
      let node ← st.heap[a]?
      let st' ← fill (redactSecrets lib n) st.heap.length node.slots
        ⟨st.heap ++ [⟨node.array, []⟩], a :: st.seen⟩
      some (st', .ref st.heap.length)

/-- A value with all the objects that it leads to. -/
structure Graph (N O : Type) where
  nodes : Heap N O
  root : Val N O
  root_lt : ∀ a, root = .ref a → a < nodes.length
  slot_lt : ∀ node ∈ nodes, ∀ s ∈ node.slots, ∀ a, s.2 = .ref a → a < nodes.length
  keyed : ∀ node ∈ nodes, ∀ s ∈ node.slots, s.1.isNone = node.array
  distinct : ∀ node ∈ nodes, (node.slots.filterMap Prod.fst).Nodup

/-- A call from outside, with nothing seen. It cannot go deeper than there are objects. -/
def Graph.redactSecrets (lib : UrlLib U) (g : Graph N O) : Option (State N O × Val N O) :=
  Secrets.redactSecrets lib (g.nodes.length + 1) ⟨g.nodes, []⟩ g.root

section Look

/-- What a reader sees at one place of a value. -/
inductive Obs (N O : Type) where
  | prim (c : Prim N O)
  | node (array : Bool) (keys : List (Option String))

def slot (h : Heap N O) (a i : Nat) : Option (Slot N O) := h[a]?.bind (fun node => node.slots[i]?)

def shape (h : Heap N O) (a : Nat) : Option (Obs N O) :=
  h[a]?.map (fun node => .node node.array (node.slots.map Prod.fst))

def look (h : Heap N O) : Val N O → Path → Option (Obs N O)
  | .prim c, [] => some (.prim c)
  | .prim _, _ :: _ => none
  | .ref a, [] => shape h a
  | .ref a, i :: p =>
    match slot h a i with
    | some s => look h s.2 p
    | none => none

def next (h : Heap N O) (a : Nat) : List (Option Nat) :=
  (h[a]?.elim [] Node.slots).map (fun s => s.2.object)

variable {h z : Heap N O} {a b i : Nat} {node : Node N O}

theorem next_of_getElem? (ha : h[a]? = some node) :
    next h a = node.slots.map (fun s => s.2.object) := by
  rw [next, ha]
  rfl

theorem slot_of_getElem? (ha : h[a]? = some node) : slot h a i = node.slots[i]? := by
  rw [slot, ha]
  rfl

theorem next_getElem? (h : Heap N O) (a i : Nat) :
    (next h a)[i]? = (slot h a i).map (fun s => s.2.object) := by
  cases ha : h[a]? with
  | none =>
      rw [next, slot, ha]
      rfl
  | some node => rw [next_of_getElem? ha, slot_of_getElem? ha, List.getElem?_map]

theorem slot_append (ha : a < h.length) : slot (h ++ z) a i = slot h a i := by
  rw [slot, slot, List.getElem?_append_left ha]

theorem shape_append (ha : a < h.length) : shape (h ++ z) a = shape h a := by
  rw [shape, shape, List.getElem?_append_left ha]

/-- No object of the heap leads out of it. -/
def Closed (h : Heap N O) : Prop := ∀ a i s b, slot h a i = some s → s.2 = .ref b → b < h.length

theorem Graph.closed (g : Graph N O) : Closed g.nodes := by
  intro a i s b hs hb
  obtain ⟨node, ha, hi⟩ := Option.bind_eq_some_iff.mp hs
  exact g.slot_lt node (List.mem_of_getElem? ha) s (List.mem_of_getElem? hi) b hb

theorem look_append (hclosed : Closed h) (ha : a < h.length) (p : Path) :
    look (h ++ z) (.ref a) p = look h (.ref a) p := by
  induction p generalizing a with
  | nil => exact shape_append ha
  | cons i p ih =>
      rw [look, look, slot_append ha]
      cases hs : slot h a i with
      | none => rfl
      | some s =>
          obtain ⟨k, v⟩ := s
          cases v with
          | prim c => cases p <;> rfl
          | ref b => exact ih (hclosed a i _ b hs rfl)

end Look

end ZenZip.Secrets
