import ZenZip.Sdk.Address

namespace ZenZip

open Lib

namespace Ssrf

/-- `\d+\.\d+\.\d+\.\d+` -/
def isDotted (s : List Char) : Bool :=
  (s.splitOn '.').length = 4 && (s.splitOn '.').all (fun x => x ≠ [] && x.all Char.isDigit)

def mappedPrefix : List Char := "::ffff:".toList

/-- `v.match(/::ffff:(\d+\.\d+\.\d+\.\d+)$/)`: what it captures, of the first match. -/
def mapped (v : List Char) : Option (List Char) :=
  v.tails.findSome? (fun s =>
    if mappedPrefix.isPrefixOf s && isDotted (s.drop mappedPrefix.length) then
      some (s.drop mappedPrefix.length)
    else none)

theorem mapped_eq_some {v m : List Char} (h : mapped v = some m) :
    ∃ pre, v = pre ++ (mappedPrefix ++ m) ∧ isDotted m = true := by
  obtain ⟨s, hs, hm⟩ := List.exists_of_findSome?_eq_some h
  obtain ⟨pre, rfl⟩ := (List.mem_tails s v).mp hs
  split at hm
  · next hp =>
      rw [Bool.and_eq_true, List.isPrefixOf_iff_prefix] at hp
      obtain ⟨⟨rest, rfl⟩, hd⟩ := hp
      rw [List.drop_left] at hm hd
      cases hm
      exact ⟨pre, rfl, hd⟩
  · cases hm

theorem mapped_isSome {pre m : List Char} (hm : isDotted m = true) :
    (mapped (pre ++ (mappedPrefix ++ m))).isSome := by
  rw [mapped, List.findSome?_isSome_iff]
  refine ⟨mappedPrefix ++ m, (List.mem_tails _ _).mpr (List.suffix_append _ _), ?_⟩
  have hp : mappedPrefix.isPrefixOf (mappedPrefix ++ m) = true :=
    List.isPrefixOf_iff_prefix.mpr (List.prefix_append _ _)
  rw [List.drop_left, hp, hm]
  rfl

theorem length_mapped_lt {v m : List Char} (h : mapped v = some m) : m.length < v.length := by
  obtain ⟨pre, rfl, _⟩ := mapped_eq_some h
  have hlen : mappedPrefix.length = 7 := by decide
  rw [List.length_append, List.length_append, hlen]
  omega

def toLowerCase (s : List Char) : List Char := s.map Char.toLower

/-- The checks on the first two numbers of a dotted address. -/
def reserved (a b : Nat) : Bool :=
  a = 10 || a = 127 || a = 0 || (a = 169 && b = 254) || (a = 172 && 16 ≤ b && b ≤ 31) ||
    (a = 192 && b = 168) ||
    (a = 100 && 64 ≤ b && b ≤ 127) || 224 ≤ a

def isPrivateIp (ip : List Char) : Bool :=
  if isIP ip = 4 then
    match (ip.splitOn '.').map number with
    | [some a, some b, some _, some _] => reserved a b
    | _ => true
  else if isIP ip = 6 then
    let v := toLowerCase ip
    if v = "::1".toList || v = "::".toList then true
    else if "fe80".toList.isPrefixOf v then true
    else if "fc".toList.isPrefixOf v || "fd".toList.isPrefixOf v then true
    else match _hm : mapped v with
      | some m => isPrivateIp m
      | none => false
  else true
termination_by ip.length
decreasing_by
  have hlt := length_mapped_lt _hm
  simpa only [v, toLowerCase, List.length_map] using hlt

structure SsrfOptions where
  allowHosts : Option (List (List Char))
  allowPrivate : Bool
  allowSchemes : Option (List (List Char))

namespace SsrfOptions

def default : SsrfOptions := ⟨none, false, none⟩

end SsrfOptions

structure Url where
  protocol : List Char
  hostname : List Char
  deriving DecidableEq

/-- `hostname.replace(/^\[|\]$/g, "")` -/
def stripBrackets (s : List Char) : List Char :=
  let s := if s.head? = some '[' then s.tail else s
  if s.getLast? = some ']' then s.dropLast else s

/-- The URL parser and the resolver are parameters; an error is the text of what is thrown. -/
def assertPublicUrl (parse : List Char → Option Url)
    (lookup : List Char → Except String (List (List Char)))
    (url : List Char) (options : SsrfOptions) : Except String Unit := do
  let some parsed := parse url | throw s!"SSRF guard: invalid URL \"{String.ofList url}\""
  let schemes := options.allowSchemes.getD ["http:".toList, "https:".toList]
  if parsed.protocol ∉ schemes then
    throw s!"SSRF guard: scheme \"{String.ofList parsed.protocol}\" not allowed"
  let host := stripBrackets parsed.hostname
  if let some allowHosts := options.allowHosts then
    if !allowHosts.any (fun h => toLowerCase h = toLowerCase host) then
      throw s!"SSRF guard: host \"{String.ofList host}\" not in allowHosts"
  if options.allowPrivate then return ()
  let addresses ← if isIP host ≠ 0 then pure [host] else lookup host
  if addresses = [] then throw s!"SSRF guard: \"{String.ofList host}\" did not resolve"
  forM addresses fun addr => do
    if isPrivateIp addr then
      throw s!"SSRF guard: \"{String.ofList host}\" resolves to a private/blocked address ({String.ofList addr})"

section V4

variable (ip : IPv4)

theorem isDotted_render : isDotted ip.render = true := by
  rw [isDotted, ip.splitOn_render]
  have hne : ∀ part ∈ ip.parts, part ≠ [] := by
    have hdec (n : Fin 256) : decimal n ≠ [] := by
      revert n
      decide +kernel
    intro part hp
    simp only [IPv4.parts, List.mem_cons, List.not_mem_nil, or_false] at hp
    rcases hp with rfl | rfl | rfl | rfl <;> apply hdec
  simp only [Bool.and_eq_true, List.all_eq_true, decide_eq_true_eq]
  refine ⟨rfl, fun part hp => ⟨hne part hp, fun c hc => ip.isDigit_of_mem_parts hp hc⟩⟩

theorem reserved_eq_blocked : reserved ip.a ip.b = IPv4.blocked ip.value := by
  have hhigh : ip.value / 2 ^ 16 = ip.a.val * 256 + ip.b.val := by
    rw [IPv4.value]
    omega
  have ha := ip.a.isLt
  have hb := ip.b.isLt
  generalize ip.value = v at hhigh ⊢
  rw [Bool.eq_iff_iff]
  simp only [reserved, IPv4.blocked, IPv4.blockedRanges, inRange, IPv4.value, List.any_cons,
    List.any_nil, Bool.or_eq_true,
    Bool.and_eq_true, decide_eq_true_eq, Bool.or_false, or_assoc]
  -- the guard names its ranges in the order of the list
  refine or_congr ?_
    (or_congr ?_ (or_congr ?_ (or_congr ?_ (or_congr ?_ (or_congr ?_ (or_congr ?_ ?_)))))) <;>
      norm_num <;> omega

theorem isPrivateIp_v4 : isPrivateIp ip.render = IPv4.blocked ip.value := by
  rw [isPrivateIp, isIP_v4, if_pos rfl, ip.splitOn_render, IPv4.parts]
  simp only [List.map_cons, List.map_nil, number_decimal]
  exact reserved_eq_blocked ip

end V4

section Hextet

theorem lower_eq_iff : ∀ c ∈ hexDigits, ∀ d ∈ "0123456789abcdef".toList, c.toLower = d ↔
    hexVal c = hexVal d := by
  have hall : hexDigits.all
    (fun c => "0123456789abcdef".toList.all (fun d => c.toLower = d ↔ hexVal c = hexVal d)) =
      true := by
    decide +kernel
  intro c hc
  exact Text.of_all (List.all_eq_true.mp hall c hc)

theorem lower_digit {c : Char} (h : c.isDigit = true) : c.toLower = c := by
  unfold Char.toLower
  rw [dif_neg]
  rintro ⟨hl, _⟩
  simp only [Char.isDigit, Bool.and_eq_true, decide_eq_true_eq] at h
  have hle := UInt32.le_trans hl h.2
  revert hle
  decide

theorem prefix_lower_iff {p x : List Char} (hp : ∀ d ∈ p, d ∈ "0123456789abcdef".toList)
    (hx : ∀ c ∈ x, c ∈ hexDigits) :
    p.isPrefixOf (toLowerCase x) = true ↔ p.map hexVal <+: x.map hexVal := by
  rw [List.isPrefixOf_iff_prefix]
  induction p generalizing x with
  | nil => exact iff_of_true List.nil_prefix List.nil_prefix
  | cons d p ih =>
      cases x with
      | nil => simp [toLowerCase]
      | cons c x =>
          have hc := lower_eq_iff c (hx c List.mem_cons_self) d (hp d List.mem_cons_self)
          have hrest :=
            @ih x (fun d hd => hp d (List.mem_cons_of_mem _ hd))
              (fun c hc => hx c (List.mem_cons_of_mem _ hc))
          rw [toLowerCase, List.map_cons, List.map_cons, List.map_cons, List.cons_prefix_cons,
            List.cons_prefix_cons,
            eq_comm, hc, eq_comm]
          exact and_congr_right (fun _ => hrest)

variable (g : Hextet)

theorem hexVals_lt : ∀ x ∈ g.text.map hexVal, x < 16 := by
  intro x hx
  obtain ⟨c, hc, rfl⟩ := List.mem_map.mp hx
  exact Hextet.hexVal_lt c (g.digits c hc)

theorem value_lt_pow : g.value < 16 ^ g.text.length := by
  have hlt :=
    @Nat.ofDigits_lt_base_pow_length 16 (g.text.reverse.map hexVal) (by decide) (fun x hx => by
    rw [List.map_reverse, List.mem_reverse] at hx
    exact hexVals_lt g x hx)
  rwa [List.length_map, List.length_reverse] at hlt

theorem length_eq_four (h : 4096 ≤ g.value) : g.text.length = 4 := by
  have hlt := value_lt_pow g
  have hs := g.short
  apply Nat.le_antisymm hs
  by_contra hlen
  have hpow : 16 ^ g.text.length ≤ 16 ^ 3 := Nat.pow_le_pow_right (by decide) (by omega)
  omega

theorem fe80_prefix_iff : "fe80".toList.isPrefixOf (toLowerCase g.text) = true ↔
    g.value = 0xfe80 := by
  rw [prefix_lower_iff (Text.of_all (by decide)) g.digits]
  constructor
  · intro h
    have heq := h.eq_of_length_le (by
      rw [List.length_map]
      exact g.short)
    rw [Hextet.value, List.map_reverse, ← heq]
    decide
  · intro h
    have hlen := length_eq_four g (by omega)
    have heq : (g.text.map hexVal).reverse = ("fe80".toList.map hexVal).reverse := by
      apply @Nat.ofDigits_inj_of_len_eq 16 (by decide)
      · rw [List.length_reverse, List.length_map, hlen]
        decide
      · intro x hx
        exact hexVals_lt g x (List.mem_reverse.mp hx)
      · decide
      · rw [← List.map_reverse]
        exact h
    rw [List.reverse_injective heq]

/-- The group is spelled as if it were one of `fc00::/7`. -/
def startsLocal (x : List Char) : Bool := "fc".toList.isPrefixOf x || "fd".toList.isPrefixOf x

theorem startsLocal_iff : startsLocal (toLowerCase g.text) = true ↔
    "fc".toList.map hexVal <+: g.text.map hexVal ∨
    "fd".toList.map hexVal <+: g.text.map hexVal := by
  rw [startsLocal, Bool.or_eq_true, prefix_lower_iff (Text.of_all (by decide)) g.digits,
    prefix_lower_iff (Text.of_all (by decide)) g.digits]

theorem startsLocal_of_value (h : g.value / 512 = 126) :
    startsLocal (toLowerCase g.text) = true := by
  rw [startsLocal_iff]
  have hlen := length_eq_four g (by omega)
  have hlt := hexVals_lt g
  rw [Hextet.value, List.map_reverse] at h
  rw [← List.length_map (f := hexVal)] at hlen
  generalize g.text.map hexVal = xs at *
  match xs, hlen with
  | [a, b, c, d], _ =>
      have ha := hlt a (by simp)
      have hb := hlt b (by simp)
      have hc := hlt c (by simp)
      have hd := hlt d (by simp)
      simp [Nat.ofDigits_cons] at h
      have hfc : "fc".toList.map hexVal = [15, 12] := by decide
      have hfd : "fd".toList.map hexVal = [15, 13] := by decide
      rw [hfc, hfd]
      simp
      omega

theorem value_of_startsLocal (h : startsLocal (toLowerCase g.text) = true) :
    g.text.length < 4 ∧ 0 < g.value ∧ g.value < 4096 ∨ g.value / 512 = 126 := by
  rw [startsLocal_iff] at h
  have hs := g.short
  have hlt := hexVals_lt g
  rw [Hextet.value, List.map_reverse]
  rw [← List.length_map (f := hexVal)] at hs ⊢
  have hfc : "fc".toList.map hexVal = [15, 12] := by decide
  have hfd : "fd".toList.map hexVal = [15, 13] := by decide
  rw [hfc, hfd] at h
  obtain ⟨b, hb, rest, hrest⟩ : ∃ b, (b = 12 ∨ b = 13) ∧
    ∃ rest, 15 :: b :: rest = g.text.map hexVal := by
    rcases h with ⟨rest, hr⟩ | ⟨rest, hr⟩
    · exact ⟨12, .inl rfl, rest, hr⟩
    · exact ⟨13, .inr rfl, rest, hr⟩
  rw [← hrest] at hs hlt ⊢
  match rest, hs with
  | [], _ =>
      left
      simp [Nat.ofDigits_cons]
      omega
  | [c], _ =>
      have hc := hlt c (by simp)
      left
      simp [Nat.ofDigits_cons]
      omega
  | [c, d], _ =>
      have hc := hlt c (by simp)
      have hd := hlt d (by simp)
      right
      simp [Nat.ofDigits_cons]
      omega

end Hextet

section V6

variable {t : IPv6Text}

theorem lower_colon {x : List Char} (h : ':' ∈ toLowerCase x) : ':' ∈ x := by
  obtain ⟨c, hc, he⟩ := List.mem_map.mp h
  have hcolon : c = ':' := by
    unfold Char.toLower at he
    split at he
    · next hu =>
        have hval := congrArg (fun c : Char => c.val.toNat) he
        have hlow := UInt32.le_iff_toNat_le.mp hu.1
        have hhigh := UInt32.le_iff_toNat_le.mp hu.2
        simp at hval hlow hhigh
        omega
    · exact he
  rwa [hcolon] at hc

theorem lower_render (t : IPv6Text) :
    toLowerCase t.render = [':'].intercalate (t.parts.map toLowerCase) := by
  rw [IPv6Text.render, toLowerCase, Text.map_intercalate]
  rfl

theorem splitOn_lower (t : IPv6Text) :
    (toLowerCase t.render).splitOn ':' = t.parts.map toLowerCase := by
  rw [lower_render]
  apply List.splitOn_intercalate
  · intro part hp hc
    obtain ⟨x, hx, rfl⟩ := List.mem_map.mp hp
    exact IPv6Text.colon_not_mem_parts hx (lower_colon hc)
  · intro hn
    have hlen := t.one_lt_length_parts
    rw [List.map_eq_nil_iff.mp hn] at hlen
    cases hlen

def firstPart (t : IPv6Text) : List Char := toLowerCase (t.parts.headD [])

theorem prefix_render_iff {p : List Char} (hp : ':' ∉ p) :
    p.isPrefixOf (toLowerCase t.render) = p.isPrefixOf (firstPart t) := by
  rw [Bool.eq_iff_iff, List.isPrefixOf_iff_prefix, List.isPrefixOf_iff_prefix, lower_render,
    firstPart]
  have hlen := t.one_lt_length_parts
  cases ht : t.parts with
  | nil =>
      rw [ht] at hlen
      cases hlen
  | cons x xs => exact Text.prefix_intercalate_iff hp

theorem firstPart_cases (t : IPv6Text) :
    (∃ g : Hextet, firstPart t = toLowerCase g.text ∧ t.first = g.value) ∨ firstPart t = [] ∧
    t.first = 0 := by
  cases t with
  | full groups dotted h =>
      left
      cases groups with
      | nil =>
          have hd : dotted.toList.length ≤ 1 := by cases dotted <;> simp
          simp only [List.length_nil] at h
          omega
      | cons g gs => exact ⟨g, rfl, rfl⟩
  | compressed head tail dotted h =>
      cases head with
      | nil =>
          right
          refine ⟨rfl, ?_⟩
          obtain ⟨n, hn⟩ : ∃ n,
            8 - (([] : List Hextet).length + tail.length + 2 * dotted.toList.length) = n + 1 := by
            refine ⟨7 - (([] : List Hextet).length + tail.length + 2 * dotted.toList.length), ?_⟩
            omega
          rw [IPv6Text.first, IPv6Text.groups, hn]
          rfl
      | cons g gs => exact .inl ⟨g, rfl, rfl⟩

def mappedDotted : IPv6Text → Option IPv4
  | .compressed _ [g] dotted _ => if toLowerCase g.text = "ffff".toList then dotted else none
  | _ => none

theorem not_dotted_lower (g : Hextet) : isDotted (toLowerCase g.text) = false := by
  rw [Bool.eq_false_iff]
  intro h
  have hdot : '.' ∉ toLowerCase g.text := by
    intro hm
    obtain ⟨c, hc, he⟩ := List.mem_map.mp hm
    have hne : ∀ c ∈ hexDigits, c.toLower ≠ '.' := Text.of_all (by decide)
    exact hne c (g.digits c hc) he
  rw [isDotted, List.splitOn_eq_singleton hdot] at h
  simp at h

theorem lower_ipv4 (ip : IPv4) : toLowerCase ip.render = ip.render := by
  have hlower : ∀ c ∈ ip.render, c.toLower = id c := by
    intro c hc
    rcases ip.mem_render hc with rfl | hd
    · decide
    · exact lower_digit hd
  rw [toLowerCase, List.map_congr_left hlower, List.map_id]

theorem parts_of_mapped {m : List Char} (h : mapped (toLowerCase t.render) = some m) :
    isDotted m = true ∧ ∃ p, t.parts.map toLowerCase = p ++ [[], "ffff".toList, m] := by
  obtain ⟨pre, hv, hm⟩ := mapped_eq_some h
  refine ⟨hm, pre.splitOn ':', ?_⟩
  have hcolon : ':' ∉ m := by
    intro hc
    rw [isDotted, Bool.and_eq_true, List.all_eq_true] at hm
    have hjoin : ['.'].intercalate (m.splitOn '.') = m := List.intercalate_splitOn '.'
    rw [← hjoin] at hc
    rcases Text.mem_intercalate hc with he | ⟨x, hx, hc⟩
    · exact absurd he (by decide)
    · have hd := hm.2 x hx
      simp only [Bool.and_eq_true, List.all_eq_true] at hd
      exact absurd (hd.2 ':' hc) (by decide)
  have hp : pre ++ (mappedPrefix ++ m) = pre ++ ':' :: ([] ++ ':' :: ("ffff".toList ++ ':' :: m)) :=
    rfl
  have hffff : "ffff".toList.splitOn ':' = ["ffff".toList] := by decide
  rw [← splitOn_lower, hv, hp, List.splitOn_append_cons_self, List.splitOn_append_cons_self,
    List.splitOn_append_cons_self,
    List.splitOn_eq_singleton hcolon, List.splitOn_nil, hffff]
  rfl

theorem mapped_of_mappedDotted {ip : IPv4} (h : mappedDotted t = some ip) :
    (mapped (toLowerCase t.render)).isSome := by
  unfold mappedDotted at h
  split at h
  · next head g dotted hlen =>
      split at h
      · next hg =>
          subst h
          have hside : (IPv6Text.side (head.map Hextet.text)).map toLowerCase ≠ [] := by
            intro hn
            exact IPv6Text.side_ne_nil _ (List.map_eq_nil_iff.mp hn)
          have hparts : (IPv6Text.parts (.compressed head [g] (some ip) hlen)).map toLowerCase =
              (IPv6Text.side (head.map Hextet.text)).map toLowerCase ++
                [[], "ffff".toList, ip.render] := by
            have htail : IPv6Text.side ([g].map Hextet.text ++ (some ip).toList.map IPv4.render) =
              [g.text, ip.render] := rfl
            rw [IPv6Text.parts, htail, List.map_append, List.map_cons, List.map_cons,
              List.map_singleton, hg, lower_ipv4]
            rfl
          rw [lower_render, hparts, Text.intercalate_append ':' hside (List.cons_ne_nil _ _),
            Text.intercalate_cons,
            Text.intercalate_cons, List.intercalate_singleton]
          exact @mapped_isSome _ ip.render (isDotted_render ip)
      · cases h
  · cases h

theorem nil_not_mem_texts (xs : List Hextet) (dotted : Option IPv4) :
    [] ∉ (xs.map Hextet.text ++ dotted.toList.map IPv4.render).map toLowerCase := by
  intro h
  obtain ⟨x, hx, hn⟩ := List.mem_map.mp h
  rw [List.map_eq_nil_iff.mp hn] at hx
  rcases List.mem_append.mp hx with hx | hx
  · obtain ⟨g, _, hg⟩ := List.mem_map.mp hx
    exact g.ne_nil hg
  · obtain ⟨ip, _, hip⟩ := List.mem_map.mp hx
    have hdot := ip.dot_mem_render
    rw [hip] at hdot
    cases hdot

theorem tail_of_append_eq {A : Type} {e f m : A} {xs ys p : List A}
    (h : (xs ++ [e]) ++ ys = p ++ [e, f, m])
    (hys : e ∉ ys) (hne : ys ≠ []) (hf : f ≠ e) : ys = [f, m] := by
  rcases List.append_eq_append_iff.mp h with ⟨u, _, hu⟩ | ⟨u, hu, hrest⟩
  · rw [hu] at hys
    simp at hys
  · match u, hu, hrest with
    | [], _, hrest =>
        rw [List.nil_append] at hrest
        rw [← hrest] at hys
        simp at hys
    | [x], _, hrest => exact (List.cons.inj hrest).2.symm
    | [x, y], hu, hrest =>
        have hlast := congrArg List.getLast? hu
        have hy := (List.cons.inj (List.cons.inj hrest).2).1
        simp at hlast
        exact absurd (hy.trans hlast.symm) hf
    | x :: y :: z :: u, _, hrest =>
        have hnil := (List.cons.inj (List.cons.inj (List.cons.inj hrest).2).2).2
        exact absurd (List.append_eq_nil_iff.mp hnil.symm).2 hne

theorem mappedDotted_of_tail {head tail : List Hextet} {dotted : Option IPv4} {m : List Char}
    (hlen : head.length + tail.length + 2 * dotted.toList.length ≤ 7) (hm : isDotted m = true)
    (h : (tail.map Hextet.text ++ dotted.toList.map IPv4.render).map
      toLowerCase = ["ffff".toList, m]) :
    ∃ ip, mappedDotted (.compressed head tail dotted hlen) = some ip ∧ m = ip.render := by
  have hparts := congrArg List.length h
  simp only [List.length_map, List.length_append, List.length_cons, List.length_nil] at hparts
  match tail, dotted, h, hparts with
  | [], none, _, hparts | [], some ip, _, hparts | [g], none, _, hparts => simp at hparts
  | [g], some ip, h, _ =>
      obtain ⟨hg, hrest⟩ := List.cons.inj h
      obtain ⟨hip, _⟩ := List.cons.inj hrest
      exact ⟨ip, if_pos hg, hip.symm.trans (lower_ipv4 ip)⟩
  | [g, g'], none, h, _ =>
      obtain ⟨_, hrest⟩ := List.cons.inj h
      obtain ⟨hm', _⟩ := List.cons.inj hrest
      rw [← hm', not_dotted_lower] at hm
      cases hm
  | [g, g'], some ip, _, hparts => simp at hparts
  | g :: g' :: g'' :: gs, _, _, hparts =>
      simp only [List.length_cons] at hparts
      omega

theorem mappedDotted_of_mapped {m : List Char} (h : mapped (toLowerCase t.render) = some m) :
    ∃ ip, mappedDotted t = some ip ∧ m = ip.render := by
  obtain ⟨hm, p, hp⟩ := parts_of_mapped h
  cases t with
  | full groups dotted hlen =>
      have hnil : [] ∈ (IPv6Text.parts (.full groups dotted hlen)).map toLowerCase := by
        rw [hp]
        simp
      exact absurd hnil (nil_not_mem_texts groups dotted)
  | compressed head tail dotted hlen =>
      have hne : m ≠ [] := by
        rintro rfl
        cases hm
      rw [IPv6Text.parts, List.map_append, List.map_cons] at hp
      by_cases htail : tail.map Hextet.text ++ dotted.toList.map IPv4.render = []
      · -- the text ends with its `::`
        have hlast := congrArg List.getLast? hp
        rw [IPv6Text.side, IPv6Text.side, if_pos htail] at hlast
        simp [toLowerCase] at hlast
        exact (hne hlast).elim
      · have hside : IPv6Text.side (tail.map Hextet.text ++ dotted.toList.map IPv4.render) =
            tail.map Hextet.text ++ dotted.toList.map IPv4.render := if_neg htail
        have hnil := nil_not_mem_texts tail dotted
        rw [hside] at hp
        apply mappedDotted_of_tail hlen hm
        rw [List.append_cons] at hp
        apply tail_of_append_eq hp hnil
        · intro hn
          exact htail (List.map_eq_nil_iff.mp hn)
        · exact List.cons_ne_nil _ _

theorem mapped_render (t : IPv6Text) :
    mapped (toLowerCase t.render) = (mappedDotted t).map IPv4.render := by
  cases hd : mappedDotted t with
  | none =>
      cases hm : mapped (toLowerCase t.render) with
      | none => rfl
      | some m =>
          obtain ⟨ip, hip, _⟩ := mappedDotted_of_mapped hm
          rw [hd] at hip
          cases hip
  | some ip =>
      obtain ⟨m, hm⟩ := Option.isSome_iff_exists.mp (mapped_of_mappedDotted hd)
      obtain ⟨ip', hip, rfl⟩ := mappedDotted_of_mapped hm
      rw [hd] at hip
      cases hip
      exact hm

/-- The spellings of `::` and `::1` that the guard knows. -/
def spelledShort (t : IPv6Text) : Bool :=
  toLowerCase t.render = "::1".toList || toLowerCase t.render = "::".toList

theorem value_of_tail {tail : List Hextet} {dotted : Option IPv4}
    (hlen : ([] : List Hextet).length + tail.length + 2 * dotted.toList.length ≤ 7) :
    IPv6Text.value (.compressed [] tail dotted hlen) =
      Nat.ofDigits 65536
        (tail.map Hextet.value ++ dotted.toList.flatMap IPv6Text.pair).reverse := by
  rw [IPv6Text.value, IPv6Text.groups, List.map_nil, List.nil_append, List.reverse_append,
    List.reverse_replicate,
    Nat.ofDigits_append_replicate_zero]

theorem value_of_lower_one {g : Hextet} (h : toLowerCase g.text = ['1']) : g.value = 1 := by
  obtain ⟨c, hc, hone⟩ := List.map_eq_singleton_iff.mp h
  have hmem : c ∈ hexDigits := by
    apply g.digits c
    rw [hc]
    exact List.mem_singleton_self c
  have hval := (lower_eq_iff c hmem '1' (by decide)).mp hone
  rw [Hextet.value, hc]
  simp only [List.reverse_singleton, List.map_singleton, Nat.ofDigits_singleton]
  exact hval

theorem value_of_parts {x : List Char} (h : t.parts.map toLowerCase = [[], [], x])
    (hx : x = [] ∨ x = ['1']) :
    t.value = 0 ∨ t.value = 1 := by
  have hdot (ip : IPv4) : x ≠ toLowerCase ip.render := by
    rintro rfl
    rw [lower_ipv4] at hx
    have hm := ip.dot_mem_render
    rcases hx with he | he
    · rw [he] at hm
      cases hm
    · rw [he] at hm
      exact absurd hm (by decide)
  cases t with
  | full groups dotted hlen =>
      have hnil : [] ∈ (IPv6Text.parts (.full groups dotted hlen)).map toLowerCase := by
        rw [h]
        exact List.mem_cons_self
      exact absurd hnil (nil_not_mem_texts groups dotted)
  | compressed head tail dotted hlen =>
      cases head with
      | cons g gs =>
          have hg : toLowerCase g.text = [] := (List.cons.inj h).1
          exact absurd (List.map_eq_nil_iff.mp hg) g.ne_nil
      | nil =>
          have htail : (IPv6Text.side (tail.map Hextet.text ++ dotted.toList.map IPv4.render)).map
            toLowerCase = [x] :=
            (List.cons.inj (List.cons.inj h).2).2
          rw [value_of_tail]
          match tail, dotted, htail with
          | [], none, _ => exact .inl rfl
          | [], some ip, htail => exact absurd (List.cons.inj htail).1.symm (hdot ip)
          | [g], none, htail =>
              have hg : toLowerCase g.text = x := (List.cons.inj htail).1
              rcases hx with rfl | rfl
              · exact absurd (List.map_eq_nil_iff.mp hg) g.ne_nil
              · right
                simp only [List.map_singleton, Option.toList_none, List.flatMap_nil,
                  List.append_nil, List.reverse_singleton,
                  Nat.ofDigits_singleton]
                exact value_of_lower_one hg
          | [g], some ip, htail => cases (List.cons.inj htail).2
          | g :: g' :: gs, _, htail => cases (List.cons.inj htail).2

theorem value_of_spelledShort (h : spelledShort t = true) : t.value = 0 ∨ t.value = 1 := by
  rw [spelledShort, Bool.or_eq_true, decide_eq_true_eq, decide_eq_true_eq] at h
  have hsplit := splitOn_lower t
  rcases h with h | h
  · apply value_of_parts (x := ['1'])
    · rw [← hsplit, h]
      decide
    · exact .inr rfl
  · apply value_of_parts (x := [])
    · rw [← hsplit, h]
      decide
    · exact .inl rfl

def endsBlocked (t : IPv6Text) : Bool := (mappedDotted t).any (fun ip => IPv4.blocked ip.value)

theorem isPrivateIp_v6 (t : IPv6Text) : isPrivateIp t.render =
    (spelledShort t || t.first = 0xfe80 || startsLocal (firstPart t) || endsBlocked t) := by
  have hfe80 : "fe80".toList.isPrefixOf (toLowerCase t.render) = decide (t.first = 0xfe80) := by
    rw [prefix_render_iff (by decide), Bool.eq_iff_iff, decide_eq_true_eq]
    obtain ⟨g, hg, hf⟩ | ⟨hg, hf⟩ := firstPart_cases t
    · rw [hg, hf]
      exact fe80_prefix_iff g
    · rw [hg, hf]
      decide
  have hlocal :
    ("fc".toList.isPrefixOf (toLowerCase t.render) ||
      "fd".toList.isPrefixOf (toLowerCase t.render)) =
      startsLocal (firstPart t) := by
    rw [prefix_render_iff (by decide), prefix_render_iff (by decide)]
    rfl
  rw [isPrivateIp, isIP_v6, if_neg (by decide), if_pos rfl]
  simp only [hfe80, hlocal]
  split
  · next hs =>
      have hs' : spelledShort t = true := hs
      rw [hs']
      rfl
  · next hs =>
      have hs' : spelledShort t = false := Bool.eq_false_iff.mpr hs
      rw [hs']
      split
      · next hf => rw [hf]; rfl
      · next hf =>
          rw [Bool.eq_false_iff.mpr hf]
          split
          · next hl => rw [hl]; rfl
          · next hl =>
              rw [Bool.eq_false_iff.mpr hl, endsBlocked]
              split
              · next m hm =>
                  rw [mapped_render] at hm
                  obtain ⟨ip, hip, rfl⟩ := Option.map_eq_some_iff.mp hm
                  rw [hip, isPrivateIp_v4]
                  rfl
              · next hm =>
                  rw [mapped_render] at hm
                  rw [Option.map_eq_none_iff.mp hm]
                  rfl

/-- The first group is one of two or three digits that start like those of `fc00::/7`. -/
def shortLocal (t : IPv6Text) : Bool := startsLocal (firstPart t) && (firstPart t).length < 4

/-- The spellings that the guard reads as the address they denote. -/
def plain (t : IPv6Text) : Bool :=
  if t.value = 0 ∨ t.value = 1 then spelledShort t
  else if IPv6.linkLocal t.value then t.first = 0xfe80 || endsBlocked t
  else if IPv6.uniqueLocal t.value then true
  else if IPv6.blockedMapped t.value then endsBlocked t
  else !shortLocal t && !endsBlocked t

theorem linkLocal_iff (t : IPv6Text) : IPv6.linkLocal t.value = true ↔ t.first / 64 = 1018 := by
  rw [← t.value_div_first, IPv6.linkLocal, inRange, decide_eq_true_eq]
  omega

theorem uniqueLocal_iff (t : IPv6Text) : IPv6.uniqueLocal t.value = true ↔ t.first / 512 = 126 := by
  rw [← t.value_div_first, IPv6.uniqueLocal, inRange, decide_eq_true_eq]
  omega

theorem div_of_blockedMapped (h : IPv6.blockedMapped t.value = true) :
    t.value / 2 ^ 32 = 0xffff := by
  rw [IPv6.blockedMapped, Bool.and_eq_true, inRange, decide_eq_true_eq] at h
  omega

theorem first_of_value (h : t.value / 2 ^ 32 ≤ 0xffff) : t.first = 0 := by
  rw [← t.value_div_first]
  omega

theorem value_of_lower_ffff {g : Hextet} (h : toLowerCase g.text = "ffff".toList) :
    g.value = 0xffff := by
  have hp : "ffff".toList.isPrefixOf (toLowerCase g.text) = true := by
    rw [h]
    decide
  rw [prefix_lower_iff (Text.of_all (by decide)) g.digits] at hp
  have heq := hp.eq_of_length_le (by
    rw [List.length_map]
    exact g.short)
  rw [Hextet.value, List.map_reverse, ← heq]
  decide

theorem value_of_mappedDotted {ip : IPv4} (h : mappedDotted t = some ip) :
    0xffff ≤ t.value / 2 ^ 32 := by
  unfold mappedDotted at h
  split at h
  · next head g dotted hlen =>
      split at h
      · next hg =>
          subst h
          have hgroups : IPv6Text.groups (.compressed head [g] (some ip) hlen) =
              ((head.map Hextet.value ++
                List.replicate (8 - (head.length + [g].length + 2 * (some ip).toList.length)) 0) ++
                [g.value]) ++ IPv6Text.pair ip := by
            rw [IPv6Text.groups, List.append_assoc, List.append_assoc]
            rfl
          rw [(IPv6Text.value_of_pair hgroups).2, List.reverse_append, List.reverse_singleton,
            List.singleton_append,
            Nat.ofDigits_cons, value_of_lower_ffff hg]
          exact Nat.le_add_right _ _
      · cases h
  · cases h

theorem isPrivateIp_iff (t : IPv6Text) : isPrivateIp t.render = IPv6.blocked t.value ↔
    plain t = true := by
  have hends (h : endsBlocked t = true) : 0xffff ≤ t.value / 2 ^ 32 := by
    obtain ⟨ip, hip, _⟩ := (Option.any_eq_true _ _).mp h
    exact value_of_mappedDotted hip
  have hlocal (h : startsLocal (firstPart t) = true) :
      (firstPart t).length < 4 ∧ 0 < t.first ∧ t.first < 4096 ∨ t.first / 512 = 126 := by
    obtain ⟨g, hg, hf⟩ | ⟨hg, _⟩ := firstPart_cases t
    · rw [hg] at h ⊢
      rw [hf, toLowerCase, List.length_map]
      exact value_of_startsLocal g h
    · rw [hg] at h
      cases h
  have hlocal' (h : t.first / 512 = 126) : startsLocal (firstPart t) = true := by
    obtain ⟨g, hg, hf⟩ | ⟨_, hf⟩ := firstPart_cases t
    · rw [hg]
      rw [hf] at h
      exact startsLocal_of_value g h
    · rw [hf] at h
      cases h
  have hno (h : t.first / 512 ≠ 126) (h' : ¬ (0 < t.first ∧ t.first < 4096)) :
      startsLocal (firstPart t) = false := by
    rw [Bool.eq_false_iff]
    intro hl
    rcases hlocal hl with hs | hs
    · exact h' hs.2
    · exact h hs
  rw [isPrivateIp_v6, IPv6.blocked, plain]
  by_cases hn : t.value = 0 ∨ t.value = 1
  · have hzero : t.first = 0 := first_of_value (by omega)
    have hF : decide (t.first = 0xfe80) = false := decide_eq_false (by omega)
    have hL := hno (by omega) (by omega)
    have hE : endsBlocked t = false := Bool.eq_false_iff.mpr (fun h => by have := hends h; omega)
    have hn' : (decide (t.value = 0) || decide (t.value = 1)) = true := by simpa using hn
    rw [if_pos hn, hF, hL, hE, hn']
    simp
  · have hS : spelledShort t = false :=
      Bool.eq_false_iff.mpr (fun h => hn (value_of_spelledShort h))
    have hn' : (decide (t.value = 0) || decide (t.value = 1)) = false := by simpa using hn
    rw [if_neg hn, hn', hS]
    cases hA : IPv6.linkLocal t.value with
    | true =>
        have hfirst := (linkLocal_iff t).mp hA
        have hL := hno (by omega) (by omega)
        simp [hL]
    | false =>
        have hfirst : t.first / 64 ≠ 1018 := fun h => by
          rw [(linkLocal_iff t).mpr h] at hA
          cases hA
        have hF : decide (t.first = 0xfe80) = false := decide_eq_false (by omega)
        cases hB : IPv6.uniqueLocal t.value with
        | true =>
            have hL := hlocal' ((uniqueLocal_iff t).mp hB)
            simp [hF, hL]
        | false =>
            have hfirst' : t.first / 512 ≠ 126 := fun h => by
              rw [(uniqueLocal_iff t).mpr h] at hB
              cases hB
            cases hM : IPv6.blockedMapped t.value with
            | true =>
                have hzero : t.first = 0 := first_of_value (Nat.le_of_eq (div_of_blockedMapped hM))
                have hL := hno hfirst' (by omega)
                simp [hF, hL]
            | false =>
                have hL : shortLocal t = startsLocal (firstPart t) := by
                  rw [shortLocal]
                  cases hl : startsLocal (firstPart t) with
                  | false => rfl
                  | true =>
                      have hlen := (hlocal hl).resolve_right hfirst'
                      exact decide_eq_true hlen.1
                simp [hF, hL]

end V6

inductive Literal
  | v4 (ip : IPv4)
  | v6 (t : IPv6Text)

namespace Literal

def text : Literal → List Char
  | .v4 ip => ip.render
  | .v6 t => t.render

/-- The host name that a URL parser gives for it. -/
def hostname : Literal → List Char
  | .v4 ip => ip.render
  | .v6 t => '[' :: t.render ++ [']']

def blocked : Literal → Bool
  | .v4 ip => IPv4.blocked ip.value
  | .v6 t => IPv6.blocked t.value

def plain : Literal → Bool
  | .v4 _ => true
  | .v6 t => Ssrf.plain t

theorem stripBrackets_hostname (h : Literal) : stripBrackets h.hostname = h.text := by
  cases h with
  | v6 t => simp [stripBrackets, hostname, text]
  | v4 ip =>
      have hmem {c : Char} (hc : c ≠ '.') (hd : c.isDigit = false) : c ∉ ip.render := by
        intro hm
        rcases ip.mem_render hm with he | he
        · exact hc he
        · rw [hd] at he
          cases he
      have hhead : ip.render.head? ≠ some '[' :=
        fun h => hmem (by decide) (by decide) (List.mem_of_head? h)
      have hlast : ip.render.getLast? ≠ some ']' :=
        fun h => hmem (by decide) (by decide) (List.mem_of_getLast? h)
      simp [stripBrackets, hostname, text, hhead, hlast]

theorem isIP_text (h : Literal) : isIP h.text ≠ 0 := by
  cases h with
  | v4 ip =>
      rw [text, isIP_v4]
      decide
  | v6 t =>
      rw [text, isIP_v6]
      decide

end Literal

theorem assertPublicUrl_literal {parse : List Char → Option Url}
    {lookup : List Char → Except String (List (List Char))}
    {url protocol : List Char} {h : Literal} (hurl : parse url = some ⟨protocol, h.hostname⟩)
    (hp : protocol = "http:".toList ∨ protocol = "https:".toList) :
    (∃ e, assertPublicUrl parse lookup url .default = .error e) ↔ isPrivateIp h.text = true := by
  have hmem : protocol ∈ ["http:".toList, "https:".toList] := by
    rcases hp with rfl | rfl
    · exact List.mem_cons_self
    · exact List.mem_cons_of_mem _ List.mem_cons_self
  have hcheck : assertPublicUrl parse lookup url .default =
      if isPrivateIp h.text = true then
        .error s!"SSRF guard: \"{String.ofList h.text}\" resolves to a private/blocked address ({String.ofList h.text})"
      else .ok () := by
    rw [assertPublicUrl, hurl]
    simp only [SsrfOptions.default, Option.getD_none, h.stripBrackets_hostname]
    rw [if_neg (not_not_intro hmem)]
    cases hpriv : isPrivateIp h.text with
    | true =>
        simp [h.isIP_text, hpriv, bind, Except.bind, pure, Except.pure, throw, throwThe,
          MonadExceptOf.throw]
    | false => simp [h.isIP_text, hpriv, bind, Except.bind, pure, Except.pure]
  rw [hcheck]
  split
  · next hpriv => exact iff_of_true ⟨_, rfl⟩ hpriv
  · next hpriv =>
      refine iff_of_false ?_ hpriv
      rintro ⟨e, he⟩
      cases he

/-- The guard takes an address by its value exactly where it is spelled plainly, and
lets the other blocked literals through. -/
theorem classified_by_value_iff (h : Literal) (parse : List Char → Option Url)
    (lookup : List Char → Except String (List (List Char))) (url protocol : List Char) :
    (isPrivateIp h.text = h.blocked ↔ h.plain = true) ∧
    (parse url = some ⟨protocol, h.hostname⟩ → protocol = "http:".toList ∨
    protocol = "https:".toList →
      ((h.blocked = true → ∃ e, assertPublicUrl parse lookup url .default = .error e) ↔
        (h.blocked = true → h.plain = true))) := by
  have htext : isPrivateIp h.text = h.blocked ↔ h.plain = true := by
    cases h with
    | v4 ip => exact iff_of_true (isPrivateIp_v4 ip) rfl
    | v6 t => exact isPrivateIp_iff t
  constructor
  · exact htext
  · intro hurl hp
    apply forall_congr'
    intro hb
    rw [assertPublicUrl_literal hurl hp, ← htext, hb]

section Sample

def linkLocalOne : IPv6Text :=
  .compressed [⟨"fe80".toList, Text.of_all (by decide), by decide, by decide⟩]
    [⟨"1".toList, Text.of_all (by decide), by decide, by decide⟩] none (by decide)

/-- `127.0.0.1` as the URL parser spells its IPv4-mapped address. -/
def mappedLoopback : IPv6Text :=
  .compressed []
    [⟨"ffff".toList, Text.of_all (by decide), by decide, by decide⟩,
      ⟨"7f00".toList, Text.of_all (by decide), by decide, by decide⟩,
    ⟨"1".toList, Text.of_all (by decide), by decide, by decide⟩] none (by decide)

/-- A URL parser on two inputs. -/
def parseUrl (url : List Char) : Option Url :=
  if url = "http://[FE80::1]:3000/".toList then some ⟨"http:".toList, "[fe80::1]".toList⟩
  else if url = "http://[::ffff:127.0.0.1]/".toList then
    some ⟨"http:".toList, "[::ffff:7f00:1]".toList⟩
  else none

theorem classified_by_value_link_local :
    isPrivateIp linkLocalOne.render = true ∧ IPv6.blocked linkLocalOne.value = true ∧
    ∃ e, assertPublicUrl parseUrl (fun _ => .ok []) "http://[FE80::1]:3000/".toList .default =
    .error e := by
  have hblocked : (Literal.v6 linkLocalOne).blocked = true := by decide +kernel
  have hplain : (Literal.v6 linkLocalOne).plain = true := by decide +kernel
  have hurl : parseUrl "http://[FE80::1]:3000/".toList =
    some ⟨"http:".toList, (Literal.v6 linkLocalOne).hostname⟩ := by
    decide +kernel
  have hiff :=
    classified_by_value_iff (.v6 linkLocalOne) parseUrl (fun _ => .ok [])
      "http://[FE80::1]:3000/".toList "http:".toList
  constructor
  · exact (hiff.1.mpr hplain).trans hblocked
  · exact ⟨hblocked, (hiff.2 hurl (.inl rfl)).mpr (fun _ => hplain) hblocked⟩

/-- The guard lets the mapped loopback address through. -/
theorem mapped_loopback_passes : mappedLoopback.render = "::ffff:7f00:1".toList ∧
    IPv6.blocked mappedLoopback.value = true ∧
    isPrivateIp mappedLoopback.render = false ∧
    parseUrl "http://[::ffff:127.0.0.1]/".toList =
    some ⟨"http:".toList, (Literal.v6 mappedLoopback).hostname⟩ ∧
    ¬ ∃ e, assertPublicUrl parseUrl (fun _ => .ok []) "http://[::ffff:127.0.0.1]/".toList .default =
      .error e := by
  have hpriv : isPrivateIp mappedLoopback.render = false := by
    rw [isPrivateIp_v6]
    decide +kernel
  have hurl : parseUrl "http://[::ffff:127.0.0.1]/".toList =
    some ⟨"http:".toList, (Literal.v6 mappedLoopback).hostname⟩ := by
    decide +kernel
  refine ⟨by decide +kernel, by decide +kernel, hpriv, hurl, ?_⟩
  intro he
  have htrue := (assertPublicUrl_literal hurl (.inl rfl)).mp he
  exact absurd (hpriv.symm.trans htrue) (by decide)

end Sample

end Ssrf

end ZenZip
