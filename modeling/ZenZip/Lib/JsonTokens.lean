import ZenZip.Lib.JsonText
import ZenZip.Lib.Text
import Mathlib.Data.List.TakeWhile

namespace ZenZip.Lib.JsonText

def isNumeral (c : Char) : Bool := c.isDigit || c = '+' || c = '-' || c = '.' || c = 'e' || c = 'E'

section Strings

variable {cs rest : List Char} {n v : Nat} {d : Char} {s : List Char}

theorem unhex_eq_none {c : Char} (h : c = '"' ∨ c = '\n') : unhex c = none := by
  rcases h with rfl | rfl <;> decide

theorem hex4_local (h : hex4 cs = some (v, rest)) :
    ∃ t, cs = t ++ rest ∧ '"' ∉ t ∧ '\n' ∉ t ∧ ∀ rest', hex4 (t ++ rest') = some (v, rest') := by
  rw [hex4.eq_def] at h
  split at h
  · next c₁ c₂ c₃ c₄ cs =>
      obtain ⟨a, h₁, h⟩ := Option.bind_eq_some_iff.mp h
      obtain ⟨b, h₂, h⟩ := Option.bind_eq_some_iff.mp h
      obtain ⟨c, h₃, h⟩ := Option.bind_eq_some_iff.mp h
      obtain ⟨d, h₄, h⟩ := Option.bind_eq_some_iff.mp h
      cases h
      have hout (c : Char) (hc : c = '"' ∨ c = '\n') : c ∉ [c₁, c₂, c₃, c₄] := by
        intro hmem
        have hnone := unhex_eq_none hc
        simp only [List.mem_cons, List.not_mem_nil, or_false] at hmem
        rcases hmem with rfl | rfl | rfl | rfl <;> simp_all
      refine ⟨[c₁, c₂, c₃, c₄], rfl, hout _ (.inl rfl), hout _ (.inr rfl), fun rest' => ?_⟩
      simp [hex4, h₁, h₂, h₃, h₄]
  · cases h

theorem lowUnit_local (h : lowUnit cs = some (v, rest)) :
    ∃ t, cs = t ++ rest ∧ '"' ∉ t ∧ '\n' ∉ t ∧ ∀ rest', lowUnit (t ++ rest') = some (v, rest') := by
  rw [lowUnit.eq_def] at h
  split at h
  · next cs =>
      obtain ⟨⟨u, r⟩, hu, h⟩ := Option.bind_eq_some_iff.mp h
      dsimp only at h
      split at h
      · next hrange =>
          cases h
          obtain ⟨t, rfl, hq, hn, hagain⟩ := hex4_local hu
          refine ⟨'\\' :: 'u' :: t, rfl, by simpa using hq, by simpa using hn, fun rest' => ?_⟩
          simp only [List.cons_append, lowUnit, hagain, Option.bind_some, if_pos hrange]
      · cases h
  · cases h

theorem lowUnit_eq_none {t : List Char} (h : lowUnit (t ++ '"' :: rest) = none)
    (rest' : List Char) :
    lowUnit (t ++ '"' :: rest') = none := by
  cases hl : lowUnit (t ++ '"' :: rest') with
  | none => rfl
  | some r =>
      obtain ⟨l, heq, hq, -, hagain⟩ := lowUnit_local (hl : lowUnit _ = some (r.1, r.2))
      have hprefix : l <+: t ++ '"' :: rest' := ⟨r.2, heq.symm⟩
      obtain ⟨t', rfl⟩ := (Text.prefix_append_cons_iff hq).mp hprefix
      rw [List.append_assoc, hagain] at h
      cases h

theorem escape_local (h : escape cs = some (d, rest)) :
    ∃ t, cs = t ++ rest ∧ (∃ c ∈ t, isNumeral c = false) ∧ '\n' ∉ t ∧
      ∀ rest', (lowUnit rest = none → lowUnit rest' = none) → escape (t ++ rest') = some
        (d, rest') := by
  rw [escape.eq_def] at h
  split at h
  case h_9 cs =>
      obtain ⟨⟨u, r⟩, hu, hd⟩ := Option.map_eq_some_iff.mp h
      obtain ⟨t, rfl, -, hn, hagain⟩ := hex4_local hu
      clear h hu
      dsimp only at hd
      split at hd
      · next hrange =>
          split at hd
          · next v r' hl =>
              obtain ⟨hchar, rfl⟩ := Prod.mk.inj hd
              obtain ⟨l, rfl, -, hn', hagain'⟩ := lowUnit_local hl
              refine ⟨'u' :: t ++ l, by simp, ⟨'u', by simp, rfl⟩, by simp [hn, hn'],
                fun rest' _ => ?_⟩
              simp only [List.cons_append, List.append_assoc, escape, hagain, hagain',
                Option.map_some, if_pos hrange, hchar]
          · next hl =>
              cases hd
              refine ⟨'u' :: t, rfl, ⟨'u', by simp, rfl⟩, by simpa using hn, fun rest' hlow => ?_⟩
              simp only [List.cons_append, escape, hagain, hlow hl, Option.map_some, if_pos hrange]
      · next hrange =>
          cases hd
          refine ⟨'u' :: t, rfl, ⟨'u', by simp, rfl⟩, by simpa using hn, fun rest' _ => ?_⟩
          simp only [List.cons_append, escape, hagain, Option.map_some, if_neg hrange]
  case h_10 => cases h
  all_goals
    cases h
    exact ⟨[_], rfl, ⟨_, List.mem_singleton_self _, rfl⟩, by decide, fun rest' _ => rfl⟩

theorem stringBody_local (h : stringBody n cs = some (s, rest)) :
    ∃ t, cs = t ++ '"' :: rest ∧ '\n' ∉ t ∧ ∀ m rest',
      t.length < m → stringBody m (t ++ '"' :: rest') = some (s, rest') := by
  induction n generalizing cs s with
  | zero => cases h
  | succ n ih =>
      cases cs with
      | nil => cases h
      | cons c cs =>
          rw [stringBody] at h
          split at h
          · next hc =>
              cases h
              subst hc
              refine ⟨[], rfl, List.not_mem_nil, fun m rest' hm => ?_⟩
              obtain ⟨m, rfl⟩ := Nat.exists_eq_succ_of_ne_zero (Nat.ne_of_gt hm)
              rfl
          next hquote =>
          split at h
          · next hslash =>
              subst hslash
              obtain ⟨⟨d, cs₁⟩, he, h⟩ := Option.bind_eq_some_iff.mp h
              obtain ⟨⟨s', rest₁⟩, hb, heq⟩ := Option.map_eq_some_iff.mp h
              cases heq
              obtain ⟨t, rfl, hn, hagain⟩ := ih hb
              obtain ⟨e, rfl, hne, hn', hescape⟩ := escape_local he
              refine ⟨'\\' :: e ++ t, by simp, by simp [hn, hn'], fun m rest' hm => ?_⟩
              obtain ⟨m, rfl⟩ := Nat.exists_eq_succ_of_ne_zero (Nat.ne_of_gt (Nat.zero_lt_of_lt hm))
              rw [List.cons_append, List.cons_append, List.append_assoc, stringBody,
                if_neg (by decide), if_pos rfl,
                hescape _ (fun hl => lowUnit_eq_none hl rest')]
              show (stringBody m (t ++ '"' :: rest')).map _ = _
              rw [hagain m rest' (by simp at hm; omega)]
              rfl
          next hslash =>
          split at h
          · cases h
          · next hcontrol =>
              obtain ⟨⟨s', rest₁⟩, hb, heq⟩ := Option.map_eq_some_iff.mp h
              cases heq
              obtain ⟨t, rfl, hn, hagain⟩ := ih hb
              have hc : '\n' ≠ c := by
                rintro rfl
                exact hcontrol (by decide)
              refine ⟨c :: t, rfl, by simp [hc, hn], fun m rest' hm => ?_⟩
              obtain ⟨m, rfl⟩ := Nat.exists_eq_succ_of_ne_zero (Nat.ne_of_gt (Nat.zero_lt_of_lt hm))
              rw [List.cons_append, stringBody, if_neg hquote, if_neg hslash, if_neg hcontrol,
                hagain m rest' (Nat.lt_of_succ_lt_succ hm)]
              rfl

theorem stringLiteral_local (h : stringLiteral cs = some (s, rest)) :
    ∃ t, cs = '"' :: (t ++ '"' :: rest) ∧ '\n' ∉ t ∧ ∀ rest',
      stringLiteral ('"' :: (t ++ '"' :: rest')) = some (s, rest') := by
  rw [stringLiteral.eq_def] at h
  split at h
  · obtain ⟨t, rfl, hn, hagain⟩ := stringBody_local h
    refine ⟨t, rfl, hn, fun rest' => hagain _ rest' ?_⟩
    rw [List.length_append]
    omega
  · cases h

end Strings

section Numbers

def Ends (cs : List Char) : Prop := ∀ c ∈ cs.head?, isNumeral c = false

variable {cs x t rest : List Char} {c : Char}

theorem isNumeral_of_isDigit (h : c.isDigit = true) : isNumeral c = true := by
  rw [isNumeral, h]
  rfl

theorem not_isDigit (h : isNumeral c = false) : c.isDigit = false := by
  cases hd : c.isDigit with
  | false => rfl
  | true => rw [isNumeral_of_isDigit hd] at h; cases h

def followed {A : Type} (rest : List Char) (r : A × List Char) : A × List Char := (r.1, r.2 ++ rest)

theorem takeWhile_isDigit_append (h : Ends rest) (x : List Char) :
    (x ++ rest).takeWhile Char.isDigit = x.takeWhile Char.isDigit := by
  induction x with
  | nil =>
      cases rest with
      | nil => rfl
      | cons c rest =>
          have hc := not_isDigit (h c rfl)
          rw [List.nil_append, List.takeWhile_cons_of_neg (by rw [hc]; decide), List.takeWhile_nil]
  | cons c x ih =>
      by_cases hc : c.isDigit = true
      · rw [List.cons_append, List.takeWhile_cons_of_pos hc, List.takeWhile_cons_of_pos hc, ih]
      · rw [List.cons_append, List.takeWhile_cons_of_neg hc, List.takeWhile_cons_of_neg hc]

theorem dropWhile_isDigit_append (h : Ends rest) (x : List Char) :
    (x ++ rest).dropWhile Char.isDigit = x.dropWhile Char.isDigit ++ rest := by
  have htake := takeWhile_isDigit_append h x
  have hx : x.takeWhile Char.isDigit ++ x.dropWhile Char.isDigit = x :=
    List.takeWhile_append_dropWhile
  have hall : (x ++ rest).takeWhile Char.isDigit ++ (x ++ rest).dropWhile Char.isDigit = x ++
    rest := List.takeWhile_append_dropWhile
  refine List.append_cancel_left
    (?_ : x.takeWhile Char.isDigit ++ _ = x.takeWhile Char.isDigit ++ _)
  rw [← List.append_assoc, hx, ← htake, hall]

theorem digits_append (h : Ends rest) (x : List Char) :
    digits (x ++ rest) = (digits x).map (followed rest) := by
  rw [digits, digits, takeWhile_isDigit_append h, dropWhile_isDigit_append h]
  split <;> rfl

theorem digits_eq_none (h : Ends rest) : digits rest = none := by
  have hnil := digits_append h []
  rw [List.nil_append] at hnil
  exact hnil

theorem integer_append (h : Ends rest) (x : List Char) :
    integer (x ++ rest) = (integer x).map (followed rest) := by
  cases x with
  | nil =>
      cases rest with
      | nil => rfl
      | cons c rest =>
          have hzero : c ≠ '0' := by
            rintro rfl
            cases h '0' rfl
          rw [List.nil_append, integer.eq_2 _ (fun cs he => hzero (List.cons.inj he).1),
            digits_eq_none h]
          rfl
  | cons c x =>
      by_cases hzero : c = '0'
      · subst hzero
        rfl
      · have hne (cs cs' : List Char) : c :: cs = '0' :: cs' → False :=
          fun he => hzero (List.cons.inj he).1
        rw [List.cons_append, integer.eq_2 _ (hne (x ++ rest)),
          integer.eq_2 _ (hne x), ← List.cons_append, digits_append h]

theorem fraction_append (h : Ends rest) (x : List Char) :
    fraction (x ++ rest) = (fraction x).map (followed rest) := by
  cases x with
  | nil =>
      cases rest with
      | nil => rfl
      | cons c rest =>
          have hpoint : c ≠ '.' := by
            rintro rfl
            cases h '.' rfl
          rw [List.nil_append, fraction.eq_2 _ (fun cs he => hpoint (List.cons.inj he).1)]
          rfl
  | cons c x =>
      by_cases hpoint : c = '.'
      · subst hpoint
        rw [List.cons_append, fraction, fraction, digits_append h, Option.map_map, Option.map_map]
        rfl
      · have hne (cs cs' : List Char) : c :: cs = '.' :: cs' → False :=
          fun he => hpoint (List.cons.inj he).1
        rw [List.cons_append, fraction.eq_2 _ (hne (x ++ rest)), fraction.eq_2 _ (hne x)]
        rfl

theorem sign_append (h : Ends rest) (x : List Char) :
    sign (x ++ rest) = followed rest (sign x) := by
  cases x with
  | nil =>
      cases rest with
      | nil => rfl
      | cons c rest =>
          rw [List.nil_append, sign.eq_3 _ (fun cs he => ?_) (fun cs he => ?_)]
          · rfl
          · cases he
            cases h '+' rfl
          · cases he
            cases h '-' rfl
  | cons c x =>
      by_cases hplus : c = '+'
      · subst hplus
        rfl
      by_cases hminus : c = '-'
      · subst hminus
        rfl
      rw [List.cons_append,
        sign.eq_3 _ (fun cs he => hplus (List.cons.inj he).1)
          (fun cs he => hminus (List.cons.inj he).1),
        sign.eq_3 _ (fun cs he => hplus (List.cons.inj he).1)
          (fun cs he => hminus (List.cons.inj he).1)]
      rfl

theorem minus_append (h : Ends rest) (x : List Char) :
    minus (x ++ rest) = followed rest (minus x) := by
  cases x with
  | nil =>
      cases rest with
      | nil => rfl
      | cons c rest =>
          rw [List.nil_append, minus.eq_2 _ (fun cs he => ?_)]
          · rfl
          · cases he
            cases h '-' rfl
  | cons c x =>
      by_cases hminus : c = '-'
      · subst hminus
        rfl
      rw [List.cons_append, minus.eq_2 _ (fun cs he => hminus (List.cons.inj he).1),
        minus.eq_2 _ (fun cs he => hminus (List.cons.inj he).1)]
      rfl

theorem exponent_append (h : Ends rest) (x : List Char) :
    exponent (x ++ rest) = (exponent x).map (followed rest) := by
  cases x with
  | nil =>
      cases rest with
      | nil => rfl
      | cons c rest =>
          have hc : (c = 'e' || c = 'E') = false := by
            have hout := h c rfl
            simp only [isNumeral, Bool.or_eq_false_iff] at hout ⊢
            exact ⟨hout.1.2, hout.2⟩
          rw [List.nil_append, exponent, hc]
          rfl
  | cons c x =>
      rw [List.cons_append, exponent, exponent, sign_append h]
      by_cases hc : (c = 'e' || c = 'E') = true
      · rw [if_pos hc, if_pos hc]
        show (digits ((sign x).2 ++ rest)).map _ = _
        rw [digits_append h, Option.map_map, Option.map_map]
        rfl
      · rw [if_neg hc, if_neg hc]
        rfl

theorem number_append (h : Ends rest) (x : List Char) :
    number (x ++ rest) = (number x).map (followed rest) := by
  rw [number, number, minus_append h]
  show (integer ((minus x).2 ++ rest)).bind _ = _
  rw [integer_append h]
  cases integer (minus x).2 with
  | none => rfl
  | some r =>
      show (fraction (r.2 ++ rest)).bind _ = _
      rw [fraction_append h]
      show _ = ((fraction r.2).bind _).map _
      cases fraction r.2 with
      | none => rfl
      | some r' =>
          show (exponent (r'.2 ++ rest)).bind _ = _
          rw [exponent_append h]
          show _ = ((exponent r'.2).bind _).map _
          cases exponent r'.2 <;> rfl

/-- `t` is read off the front, and is a part of a number. -/
structure Consumed (cs t rest : List Char) : Prop where
  eq : cs = t ++ rest
  numeral : ∀ c ∈ t, isNumeral c = true

namespace Consumed

theorem nil (cs : List Char) : Consumed cs [] cs := ⟨rfl, fun c h => by cases h⟩

theorem cons (hc : isNumeral c = true) (h : Consumed cs t rest) :
    Consumed (c :: cs) (c :: t) rest where
  eq := by rw [h.eq, List.cons_append]
  numeral a ha := by
    rcases List.mem_cons.mp ha with rfl | ha
    · exact hc
    · exact h.numeral a ha

theorem append {cs₁ t₁ : List Char} (h : Consumed cs t cs₁) (h₁ : Consumed cs₁ t₁ rest) :
    Consumed cs (t ++ t₁) rest where
  eq := by rw [h.eq, h₁.eq, List.append_assoc]
  numeral a ha := (List.mem_append.mp ha).elim (h.numeral a) (h₁.numeral a)

end Consumed

theorem digits_consumed (h : digits cs = some (t, rest)) : t ≠ [] ∧ Consumed cs t rest := by
  rw [digits] at h
  split at h
  · cases h
  · next hne =>
      cases h
      refine ⟨hne, List.takeWhile_append_dropWhile.symm, fun c hc => ?_⟩
      exact isNumeral_of_isDigit (List.mem_takeWhile_imp hc)

theorem integer_consumed (h : integer cs = some (t, rest)) : t ≠ [] ∧ Consumed cs t rest := by
  rw [integer.eq_def] at h
  split at h
  · cases h
    exact ⟨by simp, (Consumed.nil _).cons (by decide)⟩
  · exact digits_consumed h

theorem fraction_consumed (h : fraction cs = some (t, rest)) : Consumed cs t rest := by
  rw [fraction.eq_def] at h
  split at h
  · obtain ⟨⟨ds, r⟩, hd, heq⟩ := Option.map_eq_some_iff.mp h
    cases heq
    exact (digits_consumed hd).2.cons (by decide)
  · cases h
    exact .nil _

theorem sign_consumed (cs : List Char) : Consumed cs (sign cs).1 (sign cs).2 := by
  rw [sign.eq_def]
  split
  · exact (Consumed.nil _).cons (by decide)
  · exact (Consumed.nil _).cons (by decide)
  · exact .nil _

theorem minus_consumed (cs : List Char) : Consumed cs (minus cs).1 (minus cs).2 := by
  rw [minus.eq_def]
  split
  · exact (Consumed.nil _).cons (by decide)
  · exact .nil _

theorem exponent_consumed (h : exponent cs = some (t, rest)) : Consumed cs t rest := by
  rw [exponent.eq_def] at h
  split at h
  · next c cs =>
      split at h
      · next hc =>
          obtain ⟨⟨ds, r⟩, hd, heq⟩ := Option.map_eq_some_iff.mp h
          cases heq
          refine ((sign_consumed cs).append (digits_consumed hd).2).cons ?_
          rw [isNumeral, Bool.or_assoc, hc, Bool.or_true]
      · cases h
        exact .nil _
  · cases h
    exact .nil _

theorem number_consumed (h : number cs = some (t, rest)) : t ≠ [] ∧ Consumed cs t rest := by
  obtain ⟨⟨i, cs₁⟩, hi, h⟩ := Option.bind_eq_some_iff.mp h
  obtain ⟨⟨f, cs₂⟩, hf, h⟩ := Option.bind_eq_some_iff.mp h
  obtain ⟨⟨e, cs₃⟩, he, h⟩ := Option.bind_eq_some_iff.mp h
  cases h
  obtain ⟨hne, hinteger⟩ := integer_consumed hi
  refine ⟨by simp [hne], ?_⟩
  exact (((minus_consumed cs).append hinteger).append (fraction_consumed hf)).append
    (exponent_consumed he)

theorem number_local (h : number cs = some (t, rest)) (hrest : Ends rest) {rest' : List Char}
    (hrest' : Ends rest') :
    number (t ++ rest') = some (t, rest') := by
  rw [(number_consumed h).2.eq, number_append hrest] at h
  obtain ⟨⟨t₁, r⟩, hr, heq⟩ := Option.map_eq_some_iff.mp h
  obtain ⟨rfl, hnil⟩ := Prod.mk.inj heq
  obtain rfl : r = [] := List.append_left_eq_self.mp hnil
  rw [number_append hrest', hr]
  rfl

end Numbers

section Literals

variable {c : Char} {cs rest : List Char} {v : JsonValue}

/-- Whitespace of JavaScript: what `trim` takes off the ends of a text. -/
def isSpace (c : Char) : Bool :=
  decide (9 ≤ c.toNat ∧ c.toNat ≤ 13 ∨ c.toNat = 32 ∨ c.toNat = 160 ∨ c.toNat = 5760 ∨
    8192 ≤ c.toNat ∧ c.toNat ≤ 8202 ∨
    c.toNat = 8232 ∨ c.toNat = 8233 ∨ c.toNat = 8239 ∨ c.toNat = 8287 ∨ c.toNat = 12288 ∨
      c.toNat = 65279)

theorem isSpace_of_isWhitespace (h : isWhitespace c = true) : isSpace c = true := by
  simp only [isWhitespace, Bool.or_eq_true, decide_eq_true_eq] at h
  rcases h with ((rfl | rfl) | rfl) | rfl <;> decide

theorem isSpace_eq_false (h : 32 < c.toNat) (h' : c.toNat < 160) : isSpace c = false := by
  rw [isSpace, decide_eq_false_iff_not]
  omega

theorem isSpace_of_isNumeral (h : isNumeral c = true) : isSpace c = false := by
  simp only [isNumeral, Bool.or_eq_true, decide_eq_true_eq] at h
  rcases h with ((((h | rfl) | rfl) | rfl) | rfl) | rfl
  · have hle : '0'.toNat ≤ c.toNat ∧ c.toNat ≤ '9'.toNat := by
      rw [Char.isDigit, Bool.and_eq_true, decide_eq_true_eq, decide_eq_true_eq] at h
      exact h
    have hlow : '0'.toNat = 48 := rfl
    have hhigh : '9'.toNat = 57 := rfl
    exact isSpace_eq_false (by omega) (by omega)
  all_goals decide

theorem literal_eq_number (h : isNumeral c = true) (cs : List Char) :
    literal (c :: cs) = (number (c :: cs)).map (fun (t, cs) => (.number t, cs)) := by
  rw [literal.eq_def]
  split
  · next heq =>
      cases heq
      cases h
  · next heq =>
      cases heq
      cases h
  · next heq =>
      cases heq
      cases h
  · rfl

theorem literal_local (h : literal cs = some (v, rest)) :
    ∃ t, cs = t ++ rest ∧ t ≠ [] ∧ (∀ c ∈ t, isSpace c = false) ∧
      (Ends rest → ∀ rest', Ends rest' → literal (t ++ rest') = some (v, rest')) := by
  rw [literal.eq_def] at h
  split at h
  case h_4 =>
    obtain ⟨⟨t, r⟩, hn, heq⟩ := Option.map_eq_some_iff.mp h
    cases heq
    obtain ⟨hne, hconsumed⟩ := number_consumed hn
    refine ⟨t, hconsumed.eq, hne, fun c hc => isSpace_of_isNumeral (hconsumed.numeral c hc),
      fun hrest rest' hrest' => ?_⟩
    obtain ⟨c, t', rfl⟩ := List.exists_cons_of_ne_nil hne
    have hagain := number_local hn hrest hrest'
    rw [List.cons_append] at hagain ⊢
    rw [literal_eq_number (hconsumed.numeral c List.mem_cons_self), hagain]
    rfl
  case h_1 =>
    cases h
    exact ⟨['t', 'r', 'u', 'e'], rfl, by decide, by simp [isSpace], fun _ rest' _ => rfl⟩
  case h_2 =>
    cases h
    exact ⟨['f', 'a', 'l', 's', 'e'], rfl, by decide, by simp [isSpace], fun _ rest' _ => rfl⟩
  case h_3 =>
    cases h
    exact ⟨['n', 'u', 'l', 'l'], rfl, by decide, by simp [isSpace], fun _ rest' _ => rfl⟩

end Literals

end ZenZip.Lib.JsonText
