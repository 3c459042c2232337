import ZenZip.Lib.JsonTokens
import Mathlib.Data.List.Infix

namespace ZenZip.Lib.JsonText

theorem skip_skip (cs : List Char) : skip (skip cs) = skip cs := by
  induction cs with
  | nil => rfl
  | cons c cs ih =>
      by_cases h : isWhitespace c = true
      · have hskip : skip (c :: cs) = skip cs := List.dropWhile_cons_of_pos h
        rw [hskip, ih]
      · have hskip : skip (c :: cs) = c :: cs := List.dropWhile_cons_of_neg h
        rw [hskip, hskip]

theorem length_skip_le (cs : List Char) : (skip cs).length ≤ cs.length :=
  (List.dropWhile_suffix isWhitespace).length_le

inductive Part
  | value (v : JsonValue)
  | fields (fs : List (List Char × JsonValue))
  | items (vs : List JsonValue)

/-- The reader of the part returns it, with so much fuel. -/
def Part.Got : Part → Nat → List Char → List Char → Prop
  | .value v, n, cs, rest => JsonText.value n cs = some (v, rest)
  | .fields fs, n, cs, rest => JsonText.fields n cs = some (fs, rest)
  | .items vs, n, cs, rest => JsonText.items n cs = some (vs, rest)

inductive Reads : Part → List Char → List Char → Prop
  | string {cs s rest} (h : stringLiteral (skip cs) = some (s, rest)) :
  Reads (.value (.string s)) cs rest
  | literal {cs v rest} (h : literal (skip cs) = some (v, rest)) : Reads (.value v) cs rest
  | emptyObject {cs body rest} (h : skip cs = '\x7b' :: body) (he : skip body = '\x7d' :: rest) :
    Reads (.value (.object [])) cs rest
  | object {cs body fs rest} (h : skip cs = '\x7b' :: body) (hf : Reads (.fields fs) body rest) :
    Reads (.value (.object fs)) cs rest
  | emptyArray {cs body rest} (h : skip cs = '[' :: body) (he : skip body = ']' :: rest) : Reads
    (.value (.array [])) cs rest
  | array {cs body vs rest} (h : skip cs = '[' :: body) (hi : Reads (.items vs) body rest) : Reads
    (.value (.array vs)) cs rest
  | lastField {cs k cs₁ cs₂ v cs₃ rest} (hk : stringLiteral (skip cs) = some (k, cs₁))
    (hc : skip cs₁ = ':' :: cs₂)
      (hv : Reads (.value v) cs₂ cs₃) (he : skip cs₃ = '\x7d' :: rest) : Reads
        (.fields [(k, v)]) cs rest
  | field {cs k cs₁ cs₂ v cs₃ cs₄ fs rest} (hk : stringLiteral (skip cs) = some (k, cs₁))
    (hc : skip cs₁ = ':' :: cs₂)
      (hv : Reads (.value v) cs₂ cs₃) (hs : skip cs₃ = ',' :: cs₄)
        (hf : Reads (.fields fs) cs₄ rest) :
      Reads (.fields ((k, v) :: fs)) cs rest
  | lastItem {cs v cs₁ rest} (hv : Reads (.value v) cs cs₁) (he : skip cs₁ = ']' :: rest) : Reads
    (.items [v]) cs rest
  | item {cs v cs₁ cs₂ vs rest} (hv : Reads (.value v) cs cs₁) (hs : skip cs₁ = ',' :: cs₂)
    (hi : Reads (.items vs) cs₂ rest) :
      Reads (.items (v :: vs)) cs rest

variable {n : Nat} {cs cs' rest : List Char} {p : Part}

namespace Reads

theorem of_skip (h : Reads p cs rest) (hs : skip cs' = skip cs) : Reads p cs' rest := by
  induction h generalizing cs' with
  | string h => exact .string (hs ▸ h)
  | literal h => exact .literal (hs ▸ h)
  | emptyObject h he => exact .emptyObject (hs.trans h) he
  | object h hf => exact .object (hs.trans h) hf
  | emptyArray h he => exact .emptyArray (hs.trans h) he
  | array h hi => exact .array (hs.trans h) hi
  | lastField hk hc hv he => exact .lastField (hs ▸ hk) hc hv he
  | field hk hc hv hsep hf => exact .field (hs ▸ hk) hc hv hsep hf
  | lastItem hv he ih => exact .lastItem (ih hs) he
  | item hv hsep hi ih => exact .item (ih hs) hsep hi

end Reads

section Sound

variable {v : JsonValue} {fs : List (List Char × JsonValue)} {vs : List JsonValue}
  (ih : ∀ p cs rest, Part.Got p n cs rest → Reads p cs rest)
include ih

theorem reads_of_value (h : value (n + 1) cs = some (v, rest)) : Reads (.value v) cs rest := by
  rw [value] at h
  split at h
  · next body hbody =>
      cases hs : stringLiteral ('"' :: body) with
      | none =>
          rw [hs] at h
          cases h
      | some r =>
          rw [hs] at h
          cases h
          exact .string (hbody ▸ hs)
  · next body hbody =>
      split at h
      · next hclose =>
          cases h
          exact .emptyObject hbody hclose
      · cases hf : fields n (skip body) with
        | none =>
            rw [hf] at h
            cases h
        | some r =>
            rw [hf] at h
            cases h
            exact .object hbody
              ((ih (.fields r.1) (skip body) r.2 hf).of_skip (skip_skip body).symm)
  · next body hbody =>
      split at h
      · next hclose =>
          cases h
          exact .emptyArray hbody hclose
      · cases hi : items n (skip body) with
        | none =>
            rw [hi] at h
            cases h
        | some r =>
            rw [hi] at h
            cases h
            exact .array hbody ((ih (.items r.1) (skip body) r.2 hi).of_skip (skip_skip body).symm)
  · exact .literal h

theorem reads_of_fields (h : fields (n + 1) cs = some (fs, rest)) : Reads (.fields fs) cs rest := by
  rw [fields] at h
  obtain ⟨⟨k, cs₁⟩, hk, h⟩ := Option.bind_eq_some_iff.mp h
  dsimp only at h
  split at h
  · next cs₂ hc =>
      obtain ⟨⟨v, cs₃⟩, hv, h⟩ := Option.bind_eq_some_iff.mp h
      dsimp only at h
      have hvalue := ih (.value v) cs₂ cs₃ hv
      split at h
      · next cs₄ hs =>
          obtain ⟨⟨fs', rest'⟩, hf, heq⟩ := Option.map_eq_some_iff.mp h
          cases heq
          exact .field hk hc hvalue hs (ih (.fields fs') cs₄ rest' hf)
      · next rest' he =>
          cases h
          exact .lastField hk hc hvalue he
      · cases h
  · cases h

theorem reads_of_items (h : items (n + 1) cs = some (vs, rest)) : Reads (.items vs) cs rest := by
  rw [items] at h
  obtain ⟨⟨v, cs₁⟩, hv, h⟩ := Option.bind_eq_some_iff.mp h
  dsimp only at h
  have hvalue := ih (.value v) cs cs₁ hv
  split at h
  · next cs₂ hs =>
      obtain ⟨⟨vs', rest'⟩, hi, heq⟩ := Option.map_eq_some_iff.mp h
      cases heq
      exact .item hvalue hs (ih (.items vs') cs₂ rest' hi)
  · next rest' he =>
      cases h
      exact .lastItem hvalue he
  · cases h

end Sound

theorem reads_of_got (h : p.Got n cs rest) : Reads p cs rest := by
  induction n generalizing p cs rest with
  | zero =>
      cases p with
      | value v => cases (show value 0 cs = some (v, rest) from h)
      | fields fs => cases (show fields 0 cs = some (fs, rest) from h)
      | items vs => cases (show items 0 cs = some (vs, rest) from h)
  | succ n ih =>
      have ih' (p : Part) (cs rest : List Char) (h : p.Got n cs rest) : Reads p cs rest := ih h
      cases p with
      | value v => exact reads_of_value ih' h
      | fields fs => exact reads_of_fields ih' h
      | items vs => exact reads_of_items ih' h

section Complete

theorem length_stringLiteral {s : List Char} (h : stringLiteral cs = some (s, rest)) :
    rest.length + 2 ≤ cs.length := by
  obtain ⟨t, rfl, -, -⟩ := stringLiteral_local h
  simp only [List.length_cons, List.length_append]
  omega

theorem length_literal {v : JsonValue} (h : literal cs = some (v, rest)) :
    rest.length < cs.length := by
  obtain ⟨t, rfl, hne, -⟩ := literal_local h
  have hpos : 0 < t.length := List.length_pos_of_ne_nil hne
  rw [List.length_append]
  omega

theorem value_skip (n : Nat) (cs : List Char) : value n (skip cs) = value n cs := by
  cases n with
  | zero => rfl
  | succ n => rw [value, value, skip_skip]

theorem fields_skip (n : Nat) (cs : List Char) : fields n (skip cs) = fields n cs := by
  cases n with
  | zero => rfl
  | succ n => rw [fields, fields, skip_skip]

theorem items_skip (n : Nat) (cs : List Char) : items n (skip cs) = items n cs := by
  cases n with
  | zero => rfl
  | succ n => rw [items, items, value_skip]

variable {c : Char} {body : List Char} {v : JsonValue} {fs : List (List Char × JsonValue)}
  {vs : List JsonValue}

theorem value_string {s : List Char} (h : stringLiteral (skip cs) = some (s, rest)) :
    value (n + 1) cs = some (.string s, rest) := by
  obtain ⟨t, hcs, -⟩ := stringLiteral_local h
  rw [value, hcs]
  rw [hcs] at h
  show (stringLiteral _).map _ = _
  rw [h]
  rfl

theorem value_literal (h : literal (skip cs) = some (v, rest)) :
    value (n + 1) cs = some (v, rest) := by
  rw [value]
  split
  · next hcs =>
      rw [hcs] at h
      cases h
  · next hcs =>
      rw [hcs] at h
      cases h
  · next hcs =>
      rw [hcs] at h
      cases h
  · exact h

theorem value_object (h : skip cs = '\x7b' :: body) (hf : fields n body = some (fs, rest)) :
    value (n + 1) cs = some (.object fs, rest) := by
  rw [value, h]
  split
  · next heq => exact absurd (List.cons.inj heq).1 (by decide)
  · next heq =>
      rw [← (List.cons.inj heq).2]
      split
      · next hclose =>
          rw [← fields_skip, hclose] at hf
          cases n <;> cases hf
      · rw [fields_skip, hf]
        rfl
  · next heq => exact absurd (List.cons.inj heq).1 (by decide)
  · next hobject _ => exact absurd rfl (hobject body)

theorem value_array (h : skip cs = '[' :: body) (hi : items n body = some (vs, rest)) :
    value (n + 1) cs = some (.array vs, rest) := by
  rw [value, h]
  split
  · next heq => exact absurd (List.cons.inj heq).1 (by decide)
  · next heq => exact absurd (List.cons.inj heq).1 (by decide)
  · next heq =>
      rw [← (List.cons.inj heq).2]
      split
      · next hclose =>
          rw [← items_skip, hclose] at hi
          rcases n with - | - | n <;> cases hi
      · rw [items_skip, hi]
        rfl
  · next harray => exact absurd rfl (harray body)

theorem Reads.got (h : Reads p cs rest) :
    rest.length < cs.length ∧ ∀ m, cs.length ≤ m + rest.length → p.Got m cs rest := by
  induction h with
  | @string cs s rest h =>
      have hlen := length_stringLiteral h
      have hskip := length_skip_le cs
      refine ⟨by omega, fun m hm => ?_⟩
      obtain ⟨m, rfl⟩ := Nat.exists_eq_succ_of_ne_zero (show m ≠ 0 by omega)
      exact value_string h
  | @literal cs v rest h =>
      have hlen := length_literal h
      have hskip := length_skip_le cs
      refine ⟨by omega, fun m hm => ?_⟩
      obtain ⟨m, rfl⟩ := Nat.exists_eq_succ_of_ne_zero (show m ≠ 0 by omega)
      exact value_literal h
  | @emptyObject cs body rest h he =>
      have hskip := length_skip_le cs
      have hskip' := length_skip_le body
      rw [h, List.length_cons] at hskip
      rw [he, List.length_cons] at hskip'
      refine ⟨by omega, fun m hm => ?_⟩
      obtain ⟨m, rfl⟩ := Nat.exists_eq_succ_of_ne_zero (show m ≠ 0 by omega)
      show value (m + 1) cs = _
      simp only [value, h, he]
  | @object cs body fs rest h hf ih =>
      have hskip := length_skip_le cs
      rw [h, List.length_cons] at hskip
      refine ⟨by omega, fun m hm => ?_⟩
      obtain ⟨m, rfl⟩ := Nat.exists_eq_succ_of_ne_zero (show m ≠ 0 by omega)
      exact value_object h (ih.2 m (by omega))
  | @emptyArray cs body rest h he =>
      have hskip := length_skip_le cs
      have hskip' := length_skip_le body
      rw [h, List.length_cons] at hskip
      rw [he, List.length_cons] at hskip'
      refine ⟨by omega, fun m hm => ?_⟩
      obtain ⟨m, rfl⟩ := Nat.exists_eq_succ_of_ne_zero (show m ≠ 0 by omega)
      show value (m + 1) cs = _
      simp only [value, h, he]
  | @array cs body vs rest h hi ih =>
      have hskip := length_skip_le cs
      rw [h, List.length_cons] at hskip
      refine ⟨by omega, fun m hm => ?_⟩
      obtain ⟨m, rfl⟩ := Nat.exists_eq_succ_of_ne_zero (show m ≠ 0 by omega)
      exact value_array h (ih.2 m (by omega))
  | @lastField cs k cs₁ cs₂ v cs₃ rest hk hc hv he ih =>
      have hlen := length_stringLiteral hk
      have hskip := length_skip_le cs
      have hskip₁ := length_skip_le cs₁
      have hskip₃ := length_skip_le cs₃
      rw [hc, List.length_cons] at hskip₁
      rw [he, List.length_cons] at hskip₃
      refine ⟨by omega, fun m hm => ?_⟩
      obtain ⟨m, rfl⟩ := Nat.exists_eq_succ_of_ne_zero (show m ≠ 0 by omega)
      have hvalue : value m cs₂ = some (v, cs₃) := ih.2 m (by omega)
      show fields (m + 1) cs = _
      simp only [fields, hk, Option.bind_some, hc, hvalue, he]
  | @field cs k cs₁ cs₂ v cs₃ cs₄ fs rest hk hc hv hs hf ihv ihf =>
      have hlen := length_stringLiteral hk
      have hskip := length_skip_le cs
      have hskip₁ := length_skip_le cs₁
      have hskip₃ := length_skip_le cs₃
      rw [hc, List.length_cons] at hskip₁
      rw [hs, List.length_cons] at hskip₃
      refine ⟨by omega, fun m hm => ?_⟩
      obtain ⟨m, rfl⟩ := Nat.exists_eq_succ_of_ne_zero (show m ≠ 0 by omega)
      have hvalue : value m cs₂ = some (v, cs₃) := ihv.2 m (by omega)
      have hfields : fields m cs₄ = some (fs, rest) := ihf.2 m (by omega)
      show fields (m + 1) cs = _
      simp only [fields, hk, Option.bind_some, hc, hvalue, hs, hfields, Option.map_some]
  | @lastItem cs v cs₁ rest hv he ih =>
      have hskip₁ := length_skip_le cs₁
      rw [he, List.length_cons] at hskip₁
      refine ⟨by omega, fun m hm => ?_⟩
      obtain ⟨m, rfl⟩ := Nat.exists_eq_succ_of_ne_zero (show m ≠ 0 by omega)
      have hvalue : value m cs = some (v, cs₁) := ih.2 m (by omega)
      show items (m + 1) cs = _
      simp only [items, hvalue, Option.bind_some, he]
  | @item cs v cs₁ cs₂ vs rest hv hs hi ihv ihi =>
      have hskip₁ := length_skip_le cs₁
      rw [hs, List.length_cons] at hskip₁
      refine ⟨by omega, fun m hm => ?_⟩
      obtain ⟨m, rfl⟩ := Nat.exists_eq_succ_of_ne_zero (show m ≠ 0 by omega)
      have hvalue : value m cs = some (v, cs₁) := ihv.2 m (by omega)
      have hitems : items m cs₂ = some (vs, rest) := ihi.2 m (by omega)
      show items (m + 1) cs = _
      simp only [items, hvalue, Option.bind_some, hs, hitems, Option.map_some]

theorem Reads.value_eq (h : Reads (.value v) cs rest) : value (cs.length + 1) cs = some (v, rest) :=
  h.got.2 (cs.length + 1) (by omega)

theorem parse_eq_some : parse cs = some v ↔ ∃ rest, Reads (.value v) cs rest ∧ skip rest = [] := by
  constructor
  · intro h
    rw [parse] at h
    split at h
    · next v' rest hv =>
        split at h
        · next hrest =>
            cases h
            exact ⟨rest, reads_of_got (p := .value v) hv, hrest⟩
        · cases h
    · cases h
  · rintro ⟨rest, hv, hrest⟩
    rw [parse, hv.value_eq]
    exact if_pos hrest

theorem literal_ne_object (h : literal cs = some (v, rest)) (fs : List (List Char × JsonValue)) :
    v ≠ .object fs := by
  rintro rfl
  rw [literal.eq_def] at h
  split at h
  case h_4 =>
    obtain ⟨⟨t, r⟩, hn, heq⟩ := Option.map_eq_some_iff.mp h
    cases heq
  all_goals cases h

theorem Reads.skip_object (h : Reads (.value (.object fs)) cs rest) :
    ∃ body, skip cs = '\x7b' :: body := by
  cases h with
  | literal h => exact absurd rfl (literal_ne_object h fs)
  | emptyObject h he => exact ⟨_, h⟩
  | object h hf => exact ⟨_, h⟩

theorem parse_eq_none (h : Reads (.value v) cs rest) (hrest : skip rest ≠ []) :
    parse cs = none := by
  rw [parse, h.value_eq]
  exact if_neg hrest

end Complete

end ZenZip.Lib.JsonText
