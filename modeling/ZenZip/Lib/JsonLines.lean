import ZenZip.Lib.JsonGrammar
import Mathlib.Data.List.DropRight

namespace ZenZip.Lib.JsonText

/-- The second text is the first without some of the whitespace about its line ends, and `z` comes
after it. -/
inductive Thinned (z : List Char) : List Char → List Char → Prop
  | nil : Thinned z [] z
  | keep (c : Char) {d t : List Char} (h : Thinned z d t) : Thinned z (c :: d) (c :: t)
  | drop (b : List Char) {d t : List Char} (hspace : ∀ c ∈ b, isSpace c = true) (hline : '\n' ∈ b)
    (h : Thinned z d t) :
      Thinned z (b ++ d) t

/-- No number goes on here, not even when whitespace is taken out. -/
def Settled (cs : List Char) : Prop := Ends (cs.dropWhile isSpace)

variable {z d t p cs rest b : List Char} {c q : Char}

section Spaces

theorem skip_append (hspace : ∀ c ∈ b, isSpace c = true) (hc : isSpace c = false)
    (h : skip (b ++ d) = c :: rest) :
    skip d = c :: rest := by
  induction b with
  | nil => exact h
  | cons a b ih =>
      by_cases ha : isWhitespace a = true
      · have hskip : skip (a :: b ++ d) = skip (b ++ d) := List.dropWhile_cons_of_pos ha
        rw [hskip] at h
        exact ih (fun c hc => hspace c (List.mem_cons_of_mem a hc)) h
      · have hskip : skip (a :: b ++ d) = a :: b ++ d := List.dropWhile_cons_of_neg ha
        rw [hskip] at h
        cases h
        rw [hspace c List.mem_cons_self] at hc
        cases hc

theorem skip_eq_nil : skip cs = [] ↔ ∀ c ∈ cs, isWhitespace c = true := List.dropWhile_eq_nil_iff

theorem settled_cons (hc : isSpace c = true) : Settled (c :: cs) ↔ Settled cs := by
  rw [Settled, Settled, List.dropWhile_cons_of_pos hc]

theorem settled_append (hspace : ∀ c ∈ b, isSpace c = true) : Settled (b ++ cs) ↔ Settled cs := by
  induction b with
  | nil => rfl
  | cons a b ih =>
      rw [List.cons_append, settled_cons (hspace a List.mem_cons_self)]
      exact ih (fun c hc => hspace c (List.mem_cons_of_mem a hc))

theorem settled_of_solid (hc : isSpace c = false) : Settled (c :: cs) ↔ isNumeral c = false := by
  rw [Settled, List.dropWhile_cons_of_neg (by rw [hc]; decide)]
  constructor
  · intro h
    exact h c rfl
  · intro h a ha
    cases ha
    exact h

theorem Settled.ends (h : Settled cs) : Ends cs := by
  intro c hc
  cases cs with
  | nil => cases hc
  | cons a cs =>
      cases hc
      cases hspace : isSpace c with
      | false => exact (settled_of_solid hspace).mp h
      | true =>
          cases hn : isNumeral c with
          | false => rfl
          | true =>
              rw [isSpace_of_isNumeral hn] at hspace
              cases hspace

theorem settled_of_skip (h : skip cs = c :: rest) (hc : isSpace c = false)
    (hn : isNumeral c = false) : Settled cs := by
  induction cs with
  | nil => cases h
  | cons a cs ih =>
      by_cases ha : isWhitespace a = true
      · have hskip : skip (a :: cs) = skip cs := List.dropWhile_cons_of_pos ha
        rw [hskip] at h
        exact (settled_cons (isSpace_of_isWhitespace ha)).mpr (ih h)
      · have hskip : skip (a :: cs) = a :: cs := List.dropWhile_cons_of_neg ha
        rw [hskip] at h
        cases h
        exact (settled_of_solid hc).mpr hn

theorem settled_of_skip_eq_nil (h : skip cs = []) : Settled cs := by
  have hspace : ∀ c ∈ cs, isSpace c = true :=
    fun c hc => isSpace_of_isWhitespace (skip_eq_nil.mp h c hc)
  rw [Settled, List.dropWhile_eq_nil_iff.mpr hspace]
  intro c hc
  cases hc

end Spaces

namespace Thinned

theorem append (x : List Char) (h : Thinned z d t) : Thinned z (x ++ d) (x ++ t) := by
  induction x with
  | nil => exact h
  | cons c x ih => exact ih.keep c

theorem of_solid (h : Thinned z (c :: d) t) (hc : isSpace c = false) :
    ∃ t', t = c :: t' ∧ Thinned z d t' := by
  generalize hx : c :: d = x at h
  cases h with
  | nil => cases hx
  | keep a h =>
      cases hx
      exact ⟨_, rfl, h⟩
  | drop b hspace hline h =>
      cases b with
      | nil => cases hline
      | cons a b =>
          cases hx
          rw [hspace c List.mem_cons_self] at hc
          cases hc

theorem of_line (h : Thinned z (p ++ q :: d) t) (hp : '\n' ∉ p) (hq : isSpace q = false) :
    ∃ t', t = p ++ q :: t' ∧ Thinned z d t' := by
  induction p generalizing t with
  | nil => exact h.of_solid hq
  | cons c p ih =>
      generalize hx : c :: p ++ q :: d = x at h
      cases h with
      | nil => cases hx
      | keep a h =>
          cases hx
          obtain ⟨t', rfl, ht⟩ := ih h (fun hn => hp (List.mem_cons_of_mem c hn))
          exact ⟨t', rfl, ht⟩
      | drop b hspace hline h =>
          have hout : q ∉ b := fun hb => by
            rw [hspace q hb] at hq
            cases hq
          have hstart : b <+: c :: p := (Text.prefix_append_cons_iff hout).mp ⟨_, hx.symm⟩
          exact absurd (hstart.subset hline) hp

theorem of_solids (h : Thinned z (p ++ d) t) (hp : ∀ c ∈ p, isSpace c = false) :
    ∃ t', t = p ++ t' ∧ Thinned z d t' := by
  induction p generalizing t with
  | nil => exact ⟨t, rfl, h⟩
  | cons c p ih =>
      obtain ⟨t₁, rfl, h₁⟩ := h.of_solid (hp c List.mem_cons_self)
      obtain ⟨t', rfl, ht⟩ := ih h₁ (fun c hc => hp c (List.mem_cons_of_mem _ hc))
      exact ⟨t', rfl, ht⟩

theorem of_skip (h : Thinned z d t) (hd : skip d = c :: rest) (hc : isSpace c = false) :
    ∃ t', skip t = c :: t' ∧ Thinned z rest t' := by
  induction h with
  | nil => cases hd
  | @keep a d t h ih =>
      by_cases ha : isWhitespace a = true
      · have hskip (cs : List Char) : skip (a :: cs) = skip cs := List.dropWhile_cons_of_pos ha
        rw [hskip] at hd ⊢
        exact ih hd
      · have hskip (cs : List Char) : skip (a :: cs) = a :: cs := List.dropWhile_cons_of_neg ha
        rw [hskip] at hd
        cases hd
        exact ⟨t, hskip t, h⟩
  | drop b hspace hline h ih => exact ih (skip_append hspace hc hd)

theorem skip_eq (h : Thinned z d t) (hd : skip d = []) : skip t = skip z := by
  induction h with
  | nil => rfl
  | @keep a d t h ih =>
      have ha : isWhitespace a = true := skip_eq_nil.mp hd a List.mem_cons_self
      have hskip (cs : List Char) : skip (a :: cs) = skip cs := List.dropWhile_cons_of_pos ha
      rw [hskip] at hd ⊢
      exact ih hd
  | @drop b d t hspace hline h ih =>
      exact ih (skip_eq_nil.mpr (fun c hc => skip_eq_nil.mp hd c (List.mem_append_right b hc)))

theorem settled (h : Thinned z d t) (hd : Settled d) (hz : Settled z) : Settled t := by
  induction h with
  | nil => exact hz
  | @keep a d t h ih =>
      cases ha : isSpace a with
      | true => exact (settled_cons ha).mpr (ih ((settled_cons ha).mp hd))
      | false => exact (settled_of_solid ha).mpr ((settled_of_solid ha).mp hd)
  | drop b hspace hline h ih => exact ih ((settled_append hspace).mp hd)

theorem stringLiteral {s : List Char} (h : Thinned z d t)
    (hs : stringLiteral (skip d) = some (s, rest)) :
    ∃ t', JsonText.stringLiteral (skip t) = some (s, t') ∧ Thinned z rest t' := by
  obtain ⟨p, heq, hp, hagain⟩ := stringLiteral_local hs
  obtain ⟨t₁, ht, h₁⟩ := h.of_skip heq rfl
  obtain ⟨t', rfl, h'⟩ := h₁.of_line hp rfl
  refine ⟨t', ?_, h'⟩
  rw [ht]
  exact hagain t'

theorem reads {part : Part} (hr : Reads part d rest) (hz : Settled z) (h : Thinned z d t)
    (hrest : Settled rest) :
    ∃ t', Thinned z rest t' ∧ Reads part t t' := by
  induction hr generalizing t with
  | string hs =>
      obtain ⟨t', ht, h'⟩ := h.stringLiteral hs
      exact ⟨t', h', .string ht⟩
  | literal hl =>
      obtain ⟨p, heq, hne, hsolid, hagain⟩ := literal_local hl
      obtain ⟨c, p, rfl⟩ := List.exists_cons_of_ne_nil hne
      obtain ⟨t₁, ht, h₁⟩ := h.of_skip heq (hsolid c List.mem_cons_self)
      obtain ⟨t', rfl, h'⟩ := h₁.of_solids (fun a ha => hsolid a (List.mem_cons_of_mem c ha))
      refine ⟨t', h', .literal ?_⟩
      rw [ht]
      exact hagain hrest.ends t' (h'.settled hrest hz).ends
  | emptyObject hopen hclose =>
      obtain ⟨t₁, ht₁, h₁⟩ := h.of_skip hopen rfl
      obtain ⟨t', ht', h'⟩ := h₁.of_skip hclose rfl
      exact ⟨t', h', .emptyObject ht₁ ht'⟩
  | object hopen hf ih =>
      obtain ⟨t₁, ht₁, h₁⟩ := h.of_skip hopen rfl
      obtain ⟨t', h', hreads⟩ := ih h₁ hrest
      exact ⟨t', h', .object ht₁ hreads⟩
  | emptyArray hopen hclose =>
      obtain ⟨t₁, ht₁, h₁⟩ := h.of_skip hopen rfl
      obtain ⟨t', ht', h'⟩ := h₁.of_skip hclose rfl
      exact ⟨t', h', .emptyArray ht₁ ht'⟩
  | array hopen hi ih =>
      obtain ⟨t₁, ht₁, h₁⟩ := h.of_skip hopen rfl
      obtain ⟨t', h', hreads⟩ := ih h₁ hrest
      exact ⟨t', h', .array ht₁ hreads⟩
  | lastField hk hc hv hclose ih =>
      obtain ⟨t₁, hk', h₁⟩ := h.stringLiteral hk
      obtain ⟨t₂, hc', h₂⟩ := h₁.of_skip hc rfl
      obtain ⟨t₃, h₃, hv'⟩ := ih h₂ (settled_of_skip hclose rfl rfl)
      obtain ⟨t', hclose', h'⟩ := h₃.of_skip hclose rfl
      exact ⟨t', h', .lastField hk' hc' hv' hclose'⟩
  | field hk hc hv hs hf ihv ihf =>
      obtain ⟨t₁, hk', h₁⟩ := h.stringLiteral hk
      obtain ⟨t₂, hc', h₂⟩ := h₁.of_skip hc rfl
      obtain ⟨t₃, h₃, hv'⟩ := ihv h₂ (settled_of_skip hs rfl rfl)
      obtain ⟨t₄, hs', h₄⟩ := h₃.of_skip hs rfl
      obtain ⟨t', h', hf'⟩ := ihf h₄ hrest
      exact ⟨t', h', .field hk' hc' hv' hs' hf'⟩
  | lastItem hv hclose ih =>
      obtain ⟨t₁, h₁, hv'⟩ := ih h (settled_of_skip hclose rfl rfl)
      obtain ⟨t', hclose', h'⟩ := h₁.of_skip hclose rfl
      exact ⟨t', h', .lastItem hv' hclose'⟩
  | item hv hs hi ihv ihi =>
      obtain ⟨t₁, h₁, hv'⟩ := ihv h (settled_of_skip hs rfl rfl)
      obtain ⟨t₂, hs', h₂⟩ := h₁.of_skip hs rfl
      obtain ⟨t', h', hi'⟩ := ihi h₂ hrest
      exact ⟨t', h', .item hv' hs' hi'⟩

end Thinned

section Lines

variable {lines : List (List Char)} {v : JsonValue}

/-- `String.prototype.trim`. -/
def trim (cs : List Char) : List Char := (cs.dropWhile isSpace).rdropWhile isSpace

theorem exists_trim (cs : List Char) : ∃ lead trail, cs = lead ++ (trim cs ++ trail) ∧
    (∀ c ∈ lead, isSpace c = true) ∧ ∀ c ∈ trail, isSpace c = true := by
  refine ⟨cs.takeWhile isSpace, (cs.dropWhile isSpace).rtakeWhile isSpace, ?_,
    fun c => List.mem_takeWhile_imp,
    fun c => List.mem_rtakeWhile_imp⟩
  rw [trim, List.rdropWhile_append_rtakeWhile, List.takeWhile_append_dropWhile]

theorem trim_cons (hc : isSpace c = true) : trim (c :: cs) = trim cs := by
  rw [trim, trim, List.dropWhile_cons_of_pos hc]

theorem space_block {s lead : List Char} (hs : ∀ c ∈ s, isSpace c = true)
    (hlead : ∀ c ∈ lead, isSpace c = true) :
    ∀ c ∈ s ++ '\n' :: lead, isSpace c = true := by
  intro c hc
  rcases List.mem_append.mp hc with hc | hc
  · exact hs c hc
  · rcases List.mem_cons.mp hc with rfl | hc
    · rfl
    · exact hlead c hc

theorem thinned_lines (z : List Char) {s : List Char} (hs : ∀ c ∈ s, isSpace c = true)
    (lines : List (List Char)) :
    Thinned z (s ++ '\n' :: lines.flatMap (· ++ ['\n'])) (lines.flatMap trim ++ z) := by
  induction lines generalizing s with
  | nil =>
      have hdrop :=
        Thinned.nil.drop (z := z) (s ++ ['\n']) (space_block hs (fun c hc => by cases hc)) (by simp)
      rw [List.append_nil] at hdrop
      exact hdrop
  | cons line lines ih =>
      obtain ⟨lead, trail, heq, hlead, htrail⟩ := exists_trim line
      have hdrop :=
        ((ih htrail).append (trim line)).drop (s ++ '\n' :: lead) (space_block hs hlead) (by simp)
      have htext : s ++ '\n' :: (line :: lines).flatMap (· ++ ['\n']) =
          s ++ '\n' :: lead ++ (trim line ++ (trail ++ '\n' :: lines.flatMap (· ++ ['\n']))) := by
        rw [List.flatMap_cons]
        conv_lhs => rw [heq]
        simp
      rw [htext, List.flatMap_cons, List.append_assoc (trim line)]
      exact hdrop

theorem intercalate_line (h : lines ≠ []) : ['\n'].intercalate lines ++ ['\n'] = lines.flatMap
    (· ++ ['\n']) := by
  induction lines with
  | nil => exact absurd rfl h
  | cons x xs ih =>
      cases xs with
      | nil => simp
      | cons y ys =>
          have hrest := ih (List.cons_ne_nil y ys)
          rw [Text.intercalate_cons, List.append_assoc, List.cons_append, hrest,
            List.flatMap_cons (x := x), List.append_assoc]
          rfl

/-- A text that is one value is read in front of anything that no number goes on with. -/
theorem reads_append (h : parse cs = some v) (hz : Settled z) :
    ∃ rest, Reads (.value v) (cs ++ z) rest ∧ skip rest = skip z := by
  obtain ⟨rest, hreads, hrest⟩ := parse_eq_some.mp h
  have hend := Thinned.nil.append (z := z) cs
  rw [List.append_nil] at hend
  obtain ⟨rest', h', hreads'⟩ := Thinned.reads hreads hz hend (settled_of_skip_eq_nil hrest)
  exact ⟨rest', hreads', h'.skip_eq hrest⟩

theorem parse_field (k : List Char) (h : parse cs = some v) :
    parse ('\x7b' :: (quote k ++ ':' :: (cs ++ ['\x7d']))) = some (.object [(k, v)]) := by
  have hz : Settled ['\x7d'] := (settled_of_solid rfl).mpr rfl
  obtain ⟨rest, hreads, hrest⟩ := reads_append h hz
  exact parse_eq_some.mpr
    ⟨[], .object rfl (.lastField (stringLiteral_quote k _) rfl hreads hrest), rfl⟩

/-- A text read line by line, each without the whitespace at its ends, is the same value. -/
theorem reads_trimmed (h : parse (['\n'].intercalate lines) = some v) (hz : Settled z) :
    ∃ rest, Reads (.value v) (lines.flatMap trim ++ z) rest ∧ skip rest = skip z := by
  have hne : lines ≠ [] := by
    rintro rfl
    cases h
  obtain ⟨rest₁, hreads₁, hrest₁⟩ := reads_append h (z := ['\n']) (settled_of_skip_eq_nil rfl)
  have hreads₂ : Reads (.value v) ('\n' :: (['\n'].intercalate lines ++ ['\n'])) rest₁ :=
    hreads₁.of_skip rfl
  rw [intercalate_line hne] at hreads₂
  have hthin := thinned_lines z (s := []) (fun c hc => by cases hc) lines
  obtain ⟨rest₂, h₂, hreads₃⟩ := Thinned.reads hreads₂ hz hthin (settled_of_skip_eq_nil hrest₁)
  exact ⟨rest₂, hreads₃, h₂.skip_eq hrest₁⟩

theorem parse_trimmed (h : parse (['\n'].intercalate lines) = some v) :
    parse (lines.flatMap trim) = some v := by
  obtain ⟨rest, hreads, hrest⟩ := reads_trimmed h (z := []) (settled_of_skip_eq_nil rfl)
  rw [List.append_nil] at hreads
  exact parse_eq_some.mpr ⟨rest, hreads, hrest⟩

theorem parse_trimmed_append (h : parse (['\n'].intercalate lines) = some v) (hz : Settled z)
    (hne : skip z ≠ []) :
    parse (lines.flatMap trim ++ z) = none := by
  obtain ⟨rest, hreads, hrest⟩ := reads_trimmed h hz
  refine parse_eq_none hreads ?_
  rw [hrest]
  exact hne

end Lines

end ZenZip.Lib.JsonText
