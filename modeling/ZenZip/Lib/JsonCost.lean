import ZenZip.Lib.JsonGrammar

namespace ZenZip.Lib.JsonText

def special (c : Char) : Bool := c = '"' || c = '\\' || decide (c.toNat < 32)

def Verbatim (s : List Char) : Prop := ∀ c ∈ s, special c = false

instance (s : List Char) : Decidable (Verbatim s) :=
  decidable_of_iff (s.all (fun c => !special c) = true) (by simp [Verbatim])

/-- How many characters are of no number. -/
def weight (cs : List Char) : Nat := cs.countP (fun c => !isNumeral c)

def cost (s : List Char) : Nat := weight s + s.countP special

def leafCost : JsonValue → Nat
  | .string s => cost s + 2
  | _ => 0

def fieldCost (f : List Char × JsonValue) : Nat := cost f.1 + leafCost f.2 + 4

def fieldsCost : List (List Char × JsonValue) → Nat
  | [] => 0
  | f :: fs => fieldCost f + fieldsCost fs

def Part.cost : Part → Nat
  | .value v => leafCost v
  | .fields fs => fieldsCost fs
  | .items _ => 0

variable {cs s rest : List Char} {c d : Char} {k : List Char} {v : JsonValue}
  {fs : List (List Char × JsonValue)}

theorem weight_cons (c : Char) (cs : List Char) :
    weight (c :: cs) = weight cs + if isNumeral c then 0 else 1 := by
  rw [weight, List.countP_cons]
  cases isNumeral c <;> rfl

theorem weight_append (x y : List Char) : weight (x ++ y) = weight x + weight y :=
  List.countP_append

theorem weight_skip_le (cs : List Char) : weight (skip cs) ≤ weight cs :=
  (List.dropWhile_suffix isWhitespace).sublist.countP_le

theorem weight_of_skip (h : skip cs = c :: rest) (hc : isNumeral c = false) :
    weight rest + 1 ≤ weight cs := by
  have hle := weight_skip_le cs
  rw [h, weight_cons, hc] at hle
  exact hle

theorem cost_cons (c : Char) (s : List Char) :
    cost (c :: s) = cost s + (if isNumeral c then 0 else 1) + if special c then 1 else 0 := by
  rw [cost, weight_cons, List.countP_cons, cost]
  omega

theorem weight_escape (h : escape cs = some (d, rest)) : weight rest + 1 ≤ weight cs := by
  obtain ⟨t, rfl, ⟨c, hc, hn⟩, -⟩ := escape_local h
  have hpos : 0 < weight t := List.countP_pos_iff.mpr ⟨c, hc, by rw [hn]; rfl⟩
  rw [weight_append]
  omega

theorem weight_stringBody {n : Nat} (h : stringBody n cs = some (s, rest)) :
    weight rest + cost s + 1 ≤ weight cs := by
  induction n generalizing cs s with
  | zero => cases h
  | succ n ih =>
      cases cs with
      | nil => cases h
      | cons c cs =>
          rw [stringBody] at h
          split at h
          · next hc =>
              cases h
              rw [hc, weight_cons]
              exact Nat.le_refl _
          next hquote =>
          split at h
          · next hslash =>
              obtain ⟨⟨d, cs₁⟩, he, h⟩ := Option.bind_eq_some_iff.mp h
              obtain ⟨⟨s', rest₁⟩, hb, heq⟩ := Option.map_eq_some_iff.mp h
              cases heq
              have hbody := ih hb
              have hescape := weight_escape he
              rw [hslash, weight_cons, if_neg (by decide), cost_cons]
              split <;> split <;> omega
          next hslash =>
          split at h
          · cases h
          · next hcontrol =>
              obtain ⟨⟨s', rest₁⟩, hb, heq⟩ := Option.map_eq_some_iff.mp h
              cases heq
              have hbody := ih hb
              have hverbatim : special c = false := by
                simp [special, hquote, hslash, Nat.not_lt.mp hcontrol]
              rw [weight_cons, cost_cons, hverbatim]
              simp only [Bool.false_eq_true, if_false]
              omega

theorem weight_stringLiteral (h : stringLiteral cs = some (s, rest)) :
    weight rest + cost s + 2 ≤ weight cs := by
  rw [stringLiteral.eq_def] at h
  split at h
  · have hbody := weight_stringBody h
    rw [weight_cons, if_neg (by decide)]
    omega
  · cases h

theorem weight_literal (h : literal cs = some (v, rest)) : weight rest ≤ weight cs := by
  obtain ⟨t, rfl, -⟩ := literal_local h
  rw [weight_append]
  exact Nat.le_add_left _ _

theorem leafCost_literal (h : literal cs = some (v, rest)) : leafCost v = 0 := by
  rw [literal.eq_def] at h
  split at h
  case h_4 =>
    obtain ⟨⟨t, r⟩, hn, heq⟩ := Option.map_eq_some_iff.mp h
    cases heq
    rfl
  all_goals
    cases h
    rfl

theorem Reads.weight_le {p : Part} (h : Reads p cs rest) : weight rest + p.cost ≤ weight cs := by
  induction h with
  | @string cs s rest h =>
      have hlit := weight_stringLiteral h
      have hskip := weight_skip_le cs
      show weight rest + (cost s + 2) ≤ weight cs
      omega
  | @literal cs v rest h =>
      show weight rest + leafCost v ≤ weight cs
      rw [leafCost_literal h]
      exact (weight_literal h).trans (weight_skip_le cs)
  | @emptyObject cs body rest h he =>
      have hopen := weight_of_skip h rfl
      have hclose := weight_of_skip he rfl
      show weight rest + 0 ≤ weight cs
      omega
  | object h hf ih =>
      have hopen := weight_of_skip h rfl
      exact Nat.le_trans (Nat.le_add_right _ _) (Nat.le_trans ih (Nat.le_of_succ_le hopen))
  | @emptyArray cs body rest h he =>
      have hopen := weight_of_skip h rfl
      have hclose := weight_of_skip he rfl
      show weight rest + 0 ≤ weight cs
      omega
  | array h hi ih =>
      have hopen := weight_of_skip h rfl
      exact Nat.le_trans ih (Nat.le_of_succ_le hopen)
  | @lastField cs k cs₁ cs₂ v cs₃ rest hk hc hv he ih =>
      have hkey := weight_stringLiteral hk
      have hskip := weight_skip_le cs
      have hcolon := weight_of_skip hc rfl
      have hclose := weight_of_skip he rfl
      have hvalue : weight cs₃ + leafCost v ≤ weight cs₂ := ih
      show weight rest + (cost k + leafCost v + 4 + 0) ≤ weight cs
      omega
  | @field cs k cs₁ cs₂ v cs₃ cs₄ fs rest hk hc hv hs hf ihv ihf =>
      have hkey := weight_stringLiteral hk
      have hskip := weight_skip_le cs
      have hcolon := weight_of_skip hc rfl
      have hcomma := weight_of_skip hs rfl
      have hvalue : weight cs₃ + leafCost v ≤ weight cs₂ := ihv
      have hfields : weight rest + fieldsCost fs ≤ weight cs₄ := ihf
      show weight rest + (cost k + leafCost v + 4 + fieldsCost fs) ≤ weight cs
      omega
  | lastItem hv he ih =>
      have hclose := weight_of_skip he rfl
      exact Nat.le_trans (Nat.le_of_succ_le hclose) (Nat.le_trans (Nat.le_add_right _ _) ih)
  | item hv hs hi ihv ihi =>
      have hcomma := weight_of_skip hs rfl
      exact Nat.le_trans ihi
        (Nat.le_trans (Nat.le_of_succ_le hcomma) (Nat.le_trans (Nat.le_add_right _ _) ihv))

theorem fieldsCost_of_parse (h : parse cs = some (.object fs)) : fieldsCost fs + 1 ≤ weight cs := by
  obtain ⟨rest, hreads, -⟩ := parse_eq_some.mp h
  cases hreads with
  | literal h => exact absurd rfl (literal_ne_object h fs)
  | emptyObject h he =>
      have hopen := weight_of_skip h rfl
      show 0 + 1 ≤ weight cs
      omega
  | object h hf =>
      have hopen := weight_of_skip h rfl
      have hfields : weight rest + fieldsCost fs ≤ _ := hf.weight_le
      omega

theorem fieldCost_le {f : List Char × JsonValue} (h : f ∈ fs) : fieldCost f ≤ fieldsCost fs := by
  induction fs with
  | nil => cases h
  | cons f' fs ih =>
      show fieldCost f ≤ fieldCost f' + fieldsCost fs
      rcases List.mem_cons.mp h with rfl | h
      · exact Nat.le_add_right _ _
      · exact Nat.le_trans (ih h) (Nat.le_add_left _ _)

theorem fieldCost_add_le {f g : List Char × JsonValue} (hne : f ≠ g) (hf : f ∈ fs) (hg : g ∈ fs) :
    fieldCost f + fieldCost g ≤ fieldsCost fs := by
  induction fs with
  | nil => cases hf
  | cons f' fs ih =>
      show fieldCost f + fieldCost g ≤ fieldCost f' + fieldsCost fs
      rcases List.mem_cons.mp hf with rfl | hf'
      · rcases List.mem_cons.mp hg with rfl | hg'
        · exact absurd rfl hne
        · exact Nat.add_le_add_left (fieldCost_le hg') _
      · rcases List.mem_cons.mp hg with rfl | hg'
        · rw [Nat.add_comm]
          exact Nat.add_le_add_left (fieldCost_le hf') _
        · exact Nat.le_trans (ih hf' hg') (Nat.le_add_left _ _)

/-- The property of a parsed object: of two fields with one key the last counts. -/
def lookup (k : List Char) (fs : List (List Char × JsonValue)) : Option JsonValue :=
  ((fs.filter (fun f => f.1 = k)).getLast?).map (·.2)

theorem mem_of_lookup (h : lookup k fs = some v) : (k, v) ∈ fs := by
  obtain ⟨⟨k', v'⟩, hlast, rfl⟩ := Option.map_eq_some_iff.mp h
  obtain ⟨hmem, hkey⟩ := List.mem_filter.mp (List.mem_of_getLast? hlast)
  obtain rfl : k' = k := of_decide_eq_true hkey
  exact hmem

section VerbatimText

theorem special_eq_false : special c = false ↔ c ≠ '"' ∧ c ≠ '\\' ∧ 32 ≤ c.toNat := by
  simp [special, and_assoc]

theorem verbatim_iff_countP : Verbatim s ↔ s.countP special = 0 := by
  rw [List.countP_eq_zero, Verbatim]
  exact forall₂_congr (fun c _ => by rw [Bool.not_eq_true])

theorem escapeChar_of_verbatim (h : special c = false) : escapeChar c = [c] := by
  obtain ⟨hquote, hslash, hcontrol⟩ := special_eq_false.mp h
  have hne (d : Char) (hd : d.toNat < 32) : c ≠ d := by
    rintro rfl
    omega
  rw [escapeChar, if_neg hquote, if_neg hslash, if_neg (hne _ (by decide)),
    if_neg (hne _ (by decide)), if_neg (hne _ (by decide)),
    if_neg (hne _ (by decide)), if_neg (hne _ (by decide)), if_neg (by omega)]

theorem quote_of_verbatim (h : Verbatim s) : quote s = '"' :: (s ++ ['"']) := by
  have hflat : s.flatMap escapeChar = s := by
    induction s with
    | nil => rfl
    | cons c s ih =>
        rw [List.flatMap_cons, escapeChar_of_verbatim (h c List.mem_cons_self),
          ih (fun d hd => h d (List.mem_cons_of_mem c hd))]
        rfl
  rw [quote, hflat]

theorem stringLiteral_of_verbatim (h : Verbatim s) (cs : List Char) :
    stringLiteral ('"' :: (s ++ '"' :: cs)) = some (s, cs) := by
  have hlit := stringLiteral_quote s cs
  rw [quote_of_verbatim h, List.cons_append, List.append_assoc, List.singleton_append] at hlit
  exact hlit

end VerbatimText

end ZenZip.Lib.JsonText
