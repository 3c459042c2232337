import ZenZip.Lib.Text
import Mathlib.Data.Nat.Digits.Defs

namespace ZenZip

open Lib

def inRange (bits net len a : Nat) : Bool := a / 2 ^ (bits - len) = net / 2 ^ (bits - len)

def decimal (n : Nat) : List Char := Nat.toDigits 10 n

def number (s : List Char) : Option Nat :=
  if s.all Char.isDigit then some (Nat.ofDigits 10 (s.reverse.map (fun c => c.toNat - 48)))
    else none

theorem number_decimal (n : Fin 256) : number (decimal n) = some n.val := by
  revert n
  decide +kernel

theorem isDigit_of_mem_decimal {n : Nat} {c : Char} (h : c ∈ decimal n) : c.isDigit = true :=
  Nat.isDigit_of_mem_toDigits (by decide) (by decide) h

structure IPv4 where
  a : Fin 256
  b : Fin 256
  c : Fin 256
  d : Fin 256
  deriving DecidableEq

namespace IPv4

def value (ip : IPv4) : Nat := ((ip.a.val * 256 + ip.b.val) * 256 + ip.c.val) * 256 + ip.d.val

def parts (ip : IPv4) : List (List Char) := [decimal ip.a, decimal ip.b, decimal ip.c, decimal ip.d]

def render (ip : IPv4) : List Char := ['.'].intercalate ip.parts

/-- The ranges that the guard lists. -/
def blockedRanges : List (IPv4 × Nat) :=
  [(⟨10, 0, 0, 0⟩, 8), (⟨127, 0, 0, 0⟩, 8), (⟨0, 0, 0, 0⟩, 8), (⟨169, 254, 0, 0⟩, 16),
    (⟨172, 16, 0, 0⟩, 12),
    (⟨192, 168, 0, 0⟩, 16), (⟨100, 64, 0, 0⟩, 10), (⟨224, 0, 0, 0⟩, 3)]

def blocked (n : Nat) : Bool := blockedRanges.any (fun r => inRange 32 r.1.value r.2 n)

variable (ip : IPv4)

theorem value_lt : ip.value < 2 ^ 32 := by
  rw [value]
  omega

theorem isDigit_of_mem_parts {part : List Char} {x : Char} (hp : part ∈ ip.parts) (hx : x ∈ part) :
    x.isDigit = true := by
  simp only [parts, List.mem_cons, List.not_mem_nil, or_false] at hp
  rcases hp with rfl | rfl | rfl | rfl <;> exact isDigit_of_mem_decimal hx

theorem mem_render {x : Char} (hx : x ∈ ip.render) : x = '.' ∨ x.isDigit = true := by
  rcases Text.mem_intercalate hx with h | ⟨part, hp, hx⟩
  · exact .inl h
  · exact .inr (ip.isDigit_of_mem_parts hp hx)

theorem splitOn_render : ip.render.splitOn '.' = ip.parts := by
  apply List.splitOn_intercalate
  · intro part hp hx
    have hd := ip.isDigit_of_mem_parts hp hx
    cases hd
  · exact List.cons_ne_nil _ _

theorem dot_mem_render : '.' ∈ ip.render := by
  rw [render, parts, Text.intercalate_cons]
  exact List.mem_append_right _ List.mem_cons_self

end IPv4

def hexDigits : List Char := "0123456789abcdefABCDEF".toList

def hexVal (c : Char) : Nat := if c.isDigit then c.toNat - 48 else c.toLower.toNat - 87

structure Hextet where
  text : List Char
  digits : ∀ c ∈ text, c ∈ hexDigits
  nonempty : 1 ≤ text.length
  short : text.length ≤ 4

namespace Hextet

def value (h : Hextet) : Nat := Nat.ofDigits 16 (h.text.reverse.map hexVal)

variable (h : Hextet)

theorem ne_nil : h.text ≠ [] := by
  intro he
  have hn := h.nonempty
  rw [he] at hn
  cases hn

theorem hexVal_lt : ∀ c ∈ hexDigits, hexVal c < 16 := Text.of_all (by decide)

theorem value_lt : h.value < 65536 := by
  have hlt : h.value < 16 ^ (h.text.reverse.map hexVal).length := by
    apply Nat.ofDigits_lt_base_pow_length (by decide)
    intro x hx
    obtain ⟨c, hc, rfl⟩ := List.mem_map.mp hx
    exact hexVal_lt c (h.digits c (List.mem_reverse.mp hc))
  rw [List.length_map, List.length_reverse] at hlt
  exact Nat.lt_of_lt_of_le hlt (Nat.pow_le_pow_right (by decide) h.short)

end Hextet

/-- The textual forms of an IPv6 address: eight groups, or fewer around a `::`, and the
last two groups possibly dotted. -/
inductive IPv6Text
  | full (groups : List Hextet) (dotted : Option IPv4)
  (h : groups.length + 2 * dotted.toList.length = 8)
  | compressed (head tail : List Hextet) (dotted : Option IPv4)
    (h : head.length + tail.length + 2 * dotted.toList.length ≤ 7)

namespace IPv6Text

/-- What stands between the colons on one side of a `::`. -/
def side (parts : List (List Char)) : List (List Char) := if parts = [] then [[]] else parts

def parts : IPv6Text → List (List Char)
  | .full groups dotted _ => groups.map Hextet.text ++ dotted.toList.map IPv4.render
  | .compressed head tail dotted _ =>
    side (head.map Hextet.text) ++ [] ::
      side (tail.map Hextet.text ++ dotted.toList.map IPv4.render)

def render (t : IPv6Text) : List Char := [':'].intercalate t.parts

def pair (ip : IPv4) : List Nat := [ip.a.val * 256 + ip.b.val, ip.c.val * 256 + ip.d.val]

def groups : IPv6Text → List Nat
  | .full groups dotted _ => groups.map Hextet.value ++ dotted.toList.flatMap pair
  | .compressed head tail dotted _ =>
    head.map Hextet.value ++
      (List.replicate (8 - (head.length + tail.length + 2 * dotted.toList.length)) 0 ++
        (tail.map Hextet.value ++ dotted.toList.flatMap pair))

def value (t : IPv6Text) : Nat := Nat.ofDigits 65536 t.groups.reverse

section Parts

theorem mem_side {xs : List (List Char)} {part : List Char} (h : part ∈ side xs) :
    part = [] ∨ part ∈ xs := by
  unfold side at h
  split at h
  · exact .inl (List.mem_singleton.mp h)
  · exact .inr h

theorem side_ne_nil (xs : List (List Char)) : side xs ≠ [] := by
  unfold side
  split
  · exact List.cons_ne_nil _ _
  · assumption

theorem mem_parts {t : IPv6Text} {part : List Char} (h : part ∈ t.parts) :
    part = [] ∨ (∃ g : Hextet, part = g.text) ∨ ∃ ip : IPv4, part = ip.render := by
  have htexts {xs : List Hextet} {dotted : Option IPv4}
    (h : part ∈ xs.map Hextet.text ++ dotted.toList.map IPv4.render) :
      (∃ g : Hextet, part = g.text) ∨ ∃ ip : IPv4, part = ip.render := by
    rcases List.mem_append.mp h with h | h
    · obtain ⟨g, _, rfl⟩ := List.mem_map.mp h
      exact .inl ⟨g, rfl⟩
    · obtain ⟨ip, _, rfl⟩ := List.mem_map.mp h
      exact .inr ⟨ip, rfl⟩
  cases t with
  | full groups dotted _ => exact .inr (htexts h)
  | compressed head tail dotted _ =>
      rcases List.mem_append.mp h with h | h
      · rcases mem_side h with h | h
        · exact .inl h
        · obtain ⟨g, _, rfl⟩ := List.mem_map.mp h
          exact .inr (.inl ⟨g, rfl⟩)
      · rcases List.mem_cons.mp h with h | h
        · exact .inl h
        · exact (mem_side h).imp_right htexts

theorem colon_not_mem_parts {t : IPv6Text} {part : List Char} (h : part ∈ t.parts) :
    ':' ∉ part := by
  intro hc
  rcases mem_parts h with rfl | ⟨g, rfl⟩ | ⟨ip, rfl⟩
  · cases hc
  · exact absurd (g.digits ':' hc) (by decide)
  · rcases ip.mem_render hc with he | hd
    · exact absurd he (by decide)
    · cases hd

theorem one_lt_length_parts (t : IPv6Text) : 1 < t.parts.length := by
  cases t with
  | full groups dotted h =>
      have hd : dotted.toList.length ≤ 1 := by cases dotted <;> simp
      simp only [IPv6Text.parts, List.length_append, List.length_map]
      omega
  | compressed head tail dotted h =>
      have hs := List.length_pos_of_ne_nil (side_ne_nil (head.map Hextet.text))
      simp only [IPv6Text.parts, List.length_append, List.length_cons]
      omega

theorem splitOn_render (t : IPv6Text) : t.render.splitOn ':' = t.parts := by
  apply List.splitOn_intercalate ':' (fun _ h => colon_not_mem_parts h)
  exact List.ne_nil_of_length_pos (Nat.lt_of_succ_lt t.one_lt_length_parts)

end Parts

section Value

theorem pair_value (ip : IPv4) : Nat.ofDigits 65536 (pair ip).reverse = ip.value := by
  simp only [pair, IPv4.value, List.reverse_cons, List.reverse_nil, List.nil_append,
    List.cons_append,
    Nat.ofDigits_cons, Nat.ofDigits_nil]
  omega

theorem length_pairs (dotted : Option IPv4) :
    (dotted.toList.flatMap pair).length = 2 * dotted.toList.length := by
  cases dotted <;> rfl

theorem length_groups (t : IPv6Text) : t.groups.length = 8 := by
  cases t with
  | full groups dotted h =>
      rw [IPv6Text.groups, List.length_append, List.length_map, length_pairs]
      exact h
  | compressed head tail dotted h =>
      simp only [IPv6Text.groups, List.length_append, List.length_map, List.length_replicate,
        length_pairs]
      omega

theorem groups_lt (t : IPv6Text) : ∀ g ∈ t.groups, g < 65536 := by
  have hpairs (dotted : Option IPv4) : ∀ g ∈ dotted.toList.flatMap pair, g < 65536 := by
    intro g hg
    cases dotted with
    | none => cases hg
    | some ip =>
        simp only [Option.toList_some, List.flatMap_singleton, pair, List.mem_cons,
          List.not_mem_nil, or_false] at hg
        rcases hg with rfl | rfl <;> omega
  have hvalues (xs : List Hextet) : ∀ g ∈ xs.map Hextet.value, g < 65536 := by
    intro g hg
    obtain ⟨h, _, rfl⟩ := List.mem_map.mp hg
    exact h.value_lt
  intro g hg
  cases t with
  | full groups dotted h =>
      rcases List.mem_append.mp hg with hg | hg
      · exact hvalues groups g hg
      · exact hpairs dotted g hg
  | compressed head tail dotted h =>
      simp only [IPv6Text.groups, List.mem_append, List.mem_replicate] at hg
      rcases hg with hg | ⟨_, rfl⟩ | hg | hg
      · exact hvalues head g hg
      · decide
      · exact hvalues tail g hg
      · exact hpairs dotted g hg

def first (t : IPv6Text) : Nat := t.groups.headD 0

theorem value_div_first (t : IPv6Text) : t.value / 2 ^ 112 = t.first := by
  have hdrop := Nat.ofDigits_div_pow_eq_ofDigits_drop 7 (by decide) t.groups.reverse
    (fun g hg => t.groups_lt g (List.mem_reverse.mp hg))
  have hlen := t.length_groups
  rw [first]
  cases hg : t.groups with
  | nil =>
      rw [hg] at hlen
      cases hlen
  | cons g gs =>
      rw [hg] at hlen hdrop
      rw [value, hg]
      refine hdrop.trans ?_
      have hgs : gs.reverse.length = 7 := by
        rw [List.length_reverse]
        exact Nat.succ.inj hlen
      rw [List.reverse_cons, ← hgs, List.drop_left, Nat.ofDigits_singleton]
      rfl

theorem value_lt (t : IPv6Text) : t.value < 2 ^ 128 := by
  have hlt : t.value < 65536 ^ t.groups.reverse.length := by
    apply Nat.ofDigits_lt_base_pow_length (by decide)
    intro g hg
    exact t.groups_lt g (List.mem_reverse.mp hg)
  rw [List.length_reverse, t.length_groups] at hlt
  exact Nat.lt_of_lt_of_le hlt (by decide)

theorem value_of_pair {t : IPv6Text} {gs : List Nat} {ip : IPv4} (h : t.groups = gs ++ pair ip) :
    t.value % 2 ^ 32 = ip.value ∧ t.value / 2 ^ 32 = Nat.ofDigits 65536 gs.reverse := by
  have hlt := ip.value_lt
  rw [value, h, List.reverse_append, Nat.ofDigits_append, pair_value]
  have hlen : (pair ip).reverse.length = 2 := rfl
  rw [hlen]
  omega

end Value

end IPv6Text

namespace IPv6

/-- `fe80::/10` -/
def linkLocal (n : Nat) : Bool := inRange 128 (0xfe80 * 2 ^ 112) 10 n

/-- `fc00::/7` -/
def uniqueLocal (n : Nat) : Bool := inRange 128 (0xfc00 * 2 ^ 112) 7 n

/-- `::ffff:0:0/96`, where the embedded address is blocked. -/
def blockedMapped (n : Nat) : Bool :=
  inRange 128 (0xffff * 2 ^ 32) 96 n && IPv4.blocked (n % 2 ^ 32)

def blocked (n : Nat) : Bool := n = 0 || n = 1 || linkLocal n || uniqueLocal n || blockedMapped n

end IPv6

section IsIP

def isHextet (x : List Char) : Bool :=
  1 ≤ x.length && x.length ≤ 4 && x.all (fun c => c ∈ hexDigits)

def isOctet (x : List Char) : Bool := (List.range 256).any (fun n => decimal n = x)

def isIPv4 (s : List Char) : Bool := (s.splitOn '.').length = 4 && (s.splitOn '.').all isOctet

/-- The groups that these parts stand for; only the last one may be dotted. -/
def width (parts : List (List Char)) : Option Nat :=
  if parts.all isHextet then some parts.length
  else if parts.dropLast.all isHextet && parts.getLast?.any isIPv4 then some (parts.length + 1)
  else none

def fits (head tail : List (List Char)) : Bool :=
  let m :=
    if head = [[]] then some 0
    else if head.all isHextet && !head.isEmpty then some head.length
    else none
  let n := if tail = [[]] then some 0 else if tail.isEmpty then none else width tail
  match m, n with
  | some m, some n => m + n ≤ 7
  | _, _ => false

def isIPv6 (s : List Char) : Bool :=
  let parts := s.splitOn ':'
  width parts = some 8 ||
    (List.range parts.length).any
      (fun i => parts[i]? = some [] && fits (parts.take i) (parts.drop (i + 1)))

/-- `net.isIP`, which allows no leading zeros in a dotted address. -/
def isIP (s : List Char) : Nat := if isIPv4 s then 4 else if isIPv6 s then 6 else 0

theorem isIPv4_render (ip : IPv4) : isIPv4 ip.render = true := by
  have hoctet (n : Fin 256) : isOctet (decimal n) = true :=
    List.any_eq_true.mpr ⟨n.val, List.mem_range.mpr n.isLt, decide_eq_true rfl⟩
  rw [isIPv4, ip.splitOn_render, IPv4.parts]
  simp [hoctet]

theorem isHextet_text (h : Hextet) : isHextet h.text = true := by
  simp only [isHextet, Bool.and_eq_true, decide_eq_true_eq, List.all_eq_true]
  exact ⟨⟨h.nonempty, h.short⟩, h.digits⟩

theorem isHextet_texts (xs : List Hextet) : (xs.map Hextet.text).all isHextet = true := by
  rw [List.all_eq_true]
  intro x hx
  obtain ⟨h, _, rfl⟩ := List.mem_map.mp hx
  exact isHextet_text h

theorem isHextet_render (ip : IPv4) : isHextet ip.render = false := by
  rw [Bool.eq_false_iff]
  intro h
  simp only [isHextet, Bool.and_eq_true, List.all_eq_true, decide_eq_true_eq] at h
  exact absurd (h.2 '.' ip.dot_mem_render) (by decide)

theorem width_texts (xs : List Hextet) (dotted : Option IPv4) :
    width (xs.map Hextet.text ++ dotted.toList.map IPv4.render) = some
      (xs.length + 2 * dotted.toList.length) := by
  cases dotted with
  | none =>
      have hall := isHextet_texts xs
      simp [width, hall]
  | some ip =>
      have hall := isHextet_texts xs
      have hdot := isHextet_render ip
      have hip := isIPv4_render ip
      simp [width, hall, hdot, hip]

theorem fits_sides {head tail : List Hextet} {dotted : Option IPv4}
    (h : head.length + tail.length + 2 * dotted.toList.length ≤ 7) :
    fits (IPv6Text.side (head.map Hextet.text))
      (IPv6Text.side (tail.map Hextet.text ++ dotted.toList.map IPv4.render)) = true := by
  have hhead : (if IPv6Text.side (head.map Hextet.text) = [[]] then some 0
      else if (IPv6Text.side (head.map Hextet.text)).all isHextet &&
        !(IPv6Text.side (head.map Hextet.text)).isEmpty then
        some (IPv6Text.side (head.map Hextet.text)).length else none) = some head.length := by
    cases head with
    | nil => rfl
    | cons g gs =>
        have hall := isHextet_texts (g :: gs)
        have hne := g.ne_nil
        simp only [List.map_cons] at hall
        simp [IPv6Text.side, hall, hne]
  have htail :
    (if IPv6Text.side (tail.map Hextet.text ++ dotted.toList.map IPv4.render) = [[]] then some 0
      else if (IPv6Text.side
        (tail.map Hextet.text ++ dotted.toList.map IPv4.render)).isEmpty then none
      else width (IPv6Text.side (tail.map Hextet.text ++ dotted.toList.map IPv4.render))) =
        some (tail.length + 2 * dotted.toList.length) := by
    by_cases hnil : tail.map Hextet.text ++ dotted.toList.map IPv4.render = []
    · obtain ⟨ht, hd⟩ := List.append_eq_nil_iff.mp hnil
      rw [List.map_eq_nil_iff] at ht hd
      rw [ht, hd]
      rfl
    · have hne : tail.map Hextet.text ++ dotted.toList.map IPv4.render ≠ [[]] := by
        intro he
        have hw := width_texts tail dotted
        rw [he] at hw
        cases hw
      simp only [IPv6Text.side, if_neg hnil, if_neg hne, width_texts]
      simp [hnil]
  rw [fits, hhead, htail]
  simp only [decide_eq_true_eq]
  omega

theorem isIPv6_render (t : IPv6Text) : isIPv6 t.render = true := by
  rw [isIPv6, t.splitOn_render, Bool.or_eq_true]
  cases t with
  | full groups dotted h =>
      left
      rw [IPv6Text.parts, width_texts, h]
      rfl
  | compressed head tail dotted h =>
      right
      rw [List.any_eq_true]
      refine ⟨(IPv6Text.side (head.map Hextet.text)).length, ?_, ?_⟩
      · rw [List.mem_range, IPv6Text.parts, List.length_append, List.length_cons]
        omega
      · rw [IPv6Text.parts, List.take_left, List.append_cons, List.drop_left' (by simp)]
        simp [fits_sides h]

theorem isIP_v4 (ip : IPv4) : isIP ip.render = 4 := by
  rw [isIP, isIPv4_render]
  rfl

theorem mem_of_isIPv4 {s : List Char} {c : Char} (h : isIPv4 s = true) (hc : c ∈ s) :
    c = '.' ∨ c.isDigit = true := by
  rw [isIPv4, Bool.and_eq_true, List.all_eq_true] at h
  have hjoin : ['.'].intercalate (s.splitOn '.') = s := List.intercalate_splitOn '.'
  rw [← hjoin] at hc
  rcases Text.mem_intercalate hc with he | ⟨x, hx, hc⟩
  · exact .inl he
  · right
    obtain ⟨n, _, hn⟩ := List.any_eq_true.mp (h.2 x hx)
    rw [← of_decide_eq_true hn] at hc
    exact isDigit_of_mem_decimal hc

theorem isIP_v6 (t : IPv6Text) : isIP t.render = 6 := by
  have h4 : isIPv4 t.render = false := by
    rw [Bool.eq_false_iff]
    intro h
    have hcolon : ':' ∉ t.render := by
      intro hc
      rcases mem_of_isIPv4 h hc with he | hd
      · exact absurd he (by decide)
      · cases hd
    have hlen :=
      congrArg List.length (t.splitOn_render.symm.trans (List.splitOn_eq_singleton hcolon))
    exact absurd hlen (Nat.ne_of_gt t.one_lt_length_parts)
  rw [isIP, h4, isIPv6_render]
  rfl

end IsIP

end ZenZip
