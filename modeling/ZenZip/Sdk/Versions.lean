import ZenZip.Lib.Rolling
import ZenZip.Lib.Table
import ZenZip.Sdk.Eval
import Mathlib.Data.List.Basic

namespace ZenZip

open Lib
open Eval (CodeUnit)

/-- `hash ^= source.charCodeAt(i); hash = Math.imul(hash, 0x01000193)`. -/
def fnvStep (hash : BitVec 32) (c : CodeUnit) : BitVec 32 :=
  (hash ^^^ c.toBitVec.setWidth 32) * 0x01000193#32

/-- `toString(16).padStart(8, "0")`. -/
def hex8 (n : Nat) : String := String.ofList ((Nat.toDigits 16 n).leftpad 8 '0')

def hashDefinition (source : List CodeUnit) : String :=
  hex8 (source.foldl fnvStep 0x811c9dc5#32).toNat

section Hex

def hexValue (c : Char) : Nat := if c.isDigit then c.toNat - 48 else c.toNat - 87

def hexNumber (cs : List Char) : Nat := cs.foldl (fun n c => 16 * n + hexValue c) 0

theorem hexValue_digitChar {n : Nat} (h : n < 16) : hexValue n.digitChar = n := by
  have hall : ∀ n : Fin 16, hexValue (Nat.digitChar n) = n := by decide
  exact hall ⟨n, h⟩

theorem hexNumber_concat (cs : List Char) (c : Char) :
    hexNumber (cs ++ [c]) = 16 * hexNumber cs + hexValue c := by
  rw [hexNumber, List.foldl_append]
  rfl

theorem hexNumber_toDigits (n : Nat) : hexNumber (Nat.toDigits 16 n) = n := by
  induction n using Nat.strong_induction_on with
  | _ n ih =>
      rw [Nat.toDigits_eq_if (by decide)]
      split
      · next h =>
          show 16 * 0 + hexValue n.digitChar = n
          rw [hexValue_digitChar h, Nat.zero_add]
      · rw [hexNumber_concat, ih (n / 16) (by omega), hexValue_digitChar (Nat.mod_lt n (by decide))]
        omega

theorem hexNumber_leftpad (k : Nat) (cs : List Char) :
    hexNumber (cs.leftpad k '0') = hexNumber cs := by
  have hzeros (n : Nat) : (List.replicate n '0').foldl (fun n c => 16 * n + hexValue c) 0 = 0 := by
    induction n with
    | zero => rfl
    | succ n ih => rwa [List.replicate_succ, List.foldl_cons]
  rw [List.leftpad, hexNumber, List.foldl_append, hzeros]
  rfl

theorem hex8_injective : Function.Injective hex8 := by
  intro m n h
  have hlist : (Nat.toDigits 16 m).leftpad 8 '0' = (Nat.toDigits 16 n).leftpad 8 '0' :=
    String.ofList_injective h
  calc
    m = hexNumber ((Nat.toDigits 16 m).leftpad 8 '0') := by
      rw [hexNumber_leftpad, hexNumber_toDigits]
    _ = n := by rw [hlist, hexNumber_leftpad, hexNumber_toDigits]

theorem hex8_ne_empty (n : Nat) : hex8 n ≠ "" := by
  intro h
  have hnil : (Nat.toDigits 16 n).leftpad 8 '0' = [] := String.ofList_injective h
  rw [List.leftpad, List.append_eq_nil_iff] at hnil
  exact Nat.toDigits_ne_nil hnil.2

end Hex

theorem reversible_fnvStep : Reversible fnvStep := by
  have hinv : 0x01000193#32 * 0x359c449b#32 = 1#32 := by decide
  have hcode : Function.Injective (fun c : CodeUnit => c.toBitVec.setWidth 32) := by
    intro a b h
    apply UInt16.toBitVec_inj.mp
    have h := congrArg BitVec.toNat h
    apply BitVec.eq_of_toNat_eq
    have hlt (c : CodeUnit) : c.toBitVec.toNat < 2 ^ 32 := Nat.lt_trans c.toBitVec.isLt (by decide)
    rwa [BitVec.toNat_setWidth, BitVec.toNat_setWidth, Nat.mod_eq_of_lt (hlt a),
      Nat.mod_eq_of_lt (hlt b)] at h
  exact reversible_xor_mul hinv hcode

/-- A definition in which one character is replaced by another has another hash. -/
theorem hashDefinition_ne (before after : List CodeUnit) {a b : CodeUnit} (h : a ≠ b) :
    hashDefinition (before ++ a :: after) ≠ hashDefinition (before ++ b :: after) := by
  intro he
  exact reversible_fnvStep.foldl_ne _ before after h (BitVec.eq_of_toNat_eq (hex8_injective he))

/-- A function of the SDK's user: its source text, and what it does. -/
structure Definition (F : Type) where
  source : List CodeUnit
  fn : F

namespace Definition

variable {F : Type}

def version (d : Definition F) : String := hashDefinition d.source

theorem version_ne_empty (d : Definition F) : d.version ≠ "" := hex8_ne_empty _

end Definition

/-- The handle of a workflow. A legacy definition is under its hash. -/
structure Workflow (F : Type) where
  current : Definition F
  versions : Table (Prod.fst : String × Definition F → String)
  hashed : ∀ v e, versions.get? v = some e → e.2.version = v

namespace Workflow

variable {F : Type}

/-- `app.workflow(name, fn)`. -/
def new (fn : Definition F) : Workflow F := ⟨fn, .empty, fun _ _ h => by cases h⟩

/-- `version(legacyFn)`; the last function of a hash counts. -/
def version (w : Workflow F) (legacy : Definition F) : Workflow F where
  current := w.current
  versions := w.versions.upsert (legacy.version, legacy) (fun e => (e.1, legacy)) (fun _ => rfl)
  hashed := by
    intro v e h
    rw [Table.get?_upsert] at h
    split at h
    · next hv =>
        subst hv
        cases he : w.versions.get? legacy.version with
        | none =>
            rw [he] at h
            cases h
            rfl
        | some e₀ =>
            rw [he] at h
            cases h
            rfl
    · exact w.hashed v e h

def legacy? (w : Workflow F) (pinned : String) : Option (Definition F) :=
  (w.versions.get? pinned).map Prod.snd

/-- `_route(pinned)`; the version of what it picks is that definition's hash. -/
def route (w : Workflow F) (pinned : Option String) : Definition F :=
  ((pinned.filter (· ≠ "")).bind w.legacy?).getD w.current

def knows (w : Workflow F) (d : Definition F) : Prop := d = w.current ∨ ∃ v, w.legacy? v = some d

/-- Whether `executeAttempt` warns that a run was started by another version. -/
def warns (expected : String) (pinned : Option String) : Bool :=
  expected ≠ "" && pinned.any (fun v => v ≠ "" && v ≠ expected)

variable {w : Workflow F} {d : Definition F} {v : String}

theorem version_of_legacy? (h : w.legacy? v = some d) : d.version = v := by
  obtain ⟨e, he, rfl⟩ := Option.map_eq_some_iff.mp h
  exact w.hashed v e he

theorem knows_route (w : Workflow F) (pinned : Option String) : w.knows (w.route pinned) := by
  rw [route]
  cases h : (pinned.filter (· ≠ "")).bind w.legacy? with
  | none => exact .inl rfl
  | some d =>
      obtain ⟨v, _, hd⟩ := Option.bind_eq_some_iff.mp h
      exact .inr ⟨v, hd⟩

theorem route_some (w : Workflow F) (hv : v ≠ "") :
    w.route (some v) = (w.legacy? v).getD w.current := by
  rw [route, Option.filter_some, if_pos (decide_eq_true hv), Option.bind_some]

theorem route_of_knows (h : w.knows d) : (w.route (some d.version)).version = d.version := by
  rw [w.route_some d.version_ne_empty]
  cases hl : w.legacy? d.version with
  | some d' => exact version_of_legacy? hl
  | none =>
      obtain rfl | ⟨v, hv⟩ := h
      · rfl
      · obtain rfl := version_of_legacy? hv
        exact absurd (hl.symm.trans hv) nofun

/-- A run is never put on another definition without a warning. -/
theorem warns_iff (w : Workflow F) (d : Definition F) :
    warns (w.route (some d.version)).version (some d.version) = true ↔
      (w.route (some d.version)).version ≠ d.version := by
  rw [warns, Option.any_some, decide_eq_true (Definition.version_ne_empty _),
    decide_eq_true d.version_ne_empty, Bool.true_and, Bool.true_and, decide_eq_true_eq]
  exact ne_comm

theorem warns_eq_false (h : w.knows d) :
    warns (w.route (some d.version)).version (some d.version) = false := by
  rw [← Bool.not_eq_true, warns_iff]
  exact fun hne => hne (route_of_knows h)

theorem legacy?_version (w : Workflow F) (d : Definition F) :
    (w.version d).legacy? d.version = some d := by
  have hget :=
    Table.get?_upsert w.versions (d.version, d) (fun e => (e.1, d)) (fun _ => rfl) d.version
  rw [if_pos rfl] at hget
  rw [legacy?, version, hget]
  cases w.versions.get? d.version <;> rfl

/-- A deploy that replaces one character of a definition is never silent: runs of the old
definition get the new one with a warning, and the old one again once it is registered. -/
theorem edit_noticed (w : Workflow F) (d : Definition F) (before after : List CodeUnit)
    {a b : CodeUnit} (hab : a ≠ b)
    (hd : d.source = before ++ a :: after) (hw : w.current.source = before ++ b :: after)
    (hold : w.legacy? d.version = none) :
    w.route (some d.version) = w.current ∧
      warns (w.route (some d.version)).version (some d.version) = true ∧
      (w.version d).route (some d.version) = d ∧
      warns ((w.version d).route (some d.version)).version (some d.version) = false := by
  have hroute : w.route (some d.version) = w.current := by
    rw [w.route_some d.version_ne_empty, hold]
    rfl
  have hnew : (w.version d).route (some d.version) = d := by
    rw [(w.version d).route_some d.version_ne_empty, legacy?_version]
    rfl
  refine ⟨hroute, ?_, hnew, warns_eq_false (.inr ⟨d.version, legacy?_version w d⟩)⟩
  rw [warns_iff, hroute, Definition.version, Definition.version, hd, hw]
  exact (hashDefinition_ne before after hab).symm

/-- `() => 1` becomes `() => 2`. -/
theorem edit_noticed_digit :
    let one : Definition Unit := ⟨[40, 41, 32, 61, 62, 32, 49], ()⟩
    let w : Workflow Unit := new ⟨[40, 41, 32, 61, 62, 32, 50], ()⟩
    warns (w.route (some one.version)).version (some one.version) = true ∧
      (w.version one).route (some one.version) = one := by
  have hab : (49 : CodeUnit) ≠ 50 := by decide
  obtain ⟨_, hwarns, hroute, _⟩ := edit_noticed (new ⟨[40, 41, 32, 61, 62, 32, 50], ()⟩)
    ⟨[40, 41, 32, 61, 62, 32, 49], ()⟩ [40, 41, 32, 61, 62, 32] [] hab rfl rfl rfl
  exact ⟨hwarns, hroute⟩

end Workflow

end ZenZip
