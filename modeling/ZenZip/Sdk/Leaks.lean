import ZenZip.Sdk.Redaction

namespace ZenZip.Secrets

open Lib.Dfs

variable {N O U : Type}

section Paths

variable {h h' : Heap N O} {a b i : Nat} {k : Option String} {c : Prim N O}

theorem walk_slot {s : Slot N O} (hs : slot h a i = some s) (q : Path) :
    walk (next h) (some a) (i :: q) = walk (next h) s.2.object q := by
  rw [walk, next_getElem?, hs]
  rfl

theorem walk_none (q : Path) (hq : walk (next h) none q = some a) : False := by
  cases q <;> cases hq

theorem slot_keys (hshape : ∀ a, shape h' a = shape h a) (a i : Nat) :
    (slot h' a i).map Prod.fst = (slot h a i).map Prod.fst := by
  have heq := hshape a
  rw [shape, shape] at heq
  rw [slot, slot]
  cases hn : h[a]? with
  | none =>
      cases hn' : h'[a]? with
      | none => rfl
      | some node' => rw [hn, hn'] at heq; cases heq
  | some node =>
      cases hn' : h'[a]? with
      | none => rw [hn, hn'] at heq; cases heq
      | some node' =>
          rw [hn, hn'] at heq
          have hkeys := (Obs.node.inj (Option.some.inj heq)).2
          rw [Option.bind_some, Option.bind_some, ← List.getElem?_map, ← List.getElem?_map, hkeys]

theorem look_leaf (lib : UrlLib U) (h h' : Heap N O) (f : Bool) (k : Option String) (c : Prim N O)
    (p : Path) :
    look h (if f then copied lib k c else .prim c) p = look h'
      (if f then copied lib k c else .prim c) p := by
  cases f with
  | false => exact look_prim h h' c p
  | true => exact look_copied h h' k c p

theorem view_congr {lib : UrlLib U} (hshape : ∀ a, shape h' a = shape h a)
    (hnext : next h' = next h) {fresh : Path → Bool}
    (hleaf : ∀ q b i k c c', walk (next h) (some a) q = some b → slot h b i = some (k, .prim c) →
      slot h' b i = some (k, .prim c') →
      (if fresh q then copied lib k c else .prim c) =
      (if fresh q then copied lib k c' else .prim c')) (p : Path) :
    view lib h fresh a p = view lib h' fresh a p := by
  induction p generalizing a fresh with
  | nil => exact (hshape a).symm
  | cons i p ih =>
      have hkeys := slot_keys hshape a i
      have hobject : (slot h' a i).map (fun s => s.2.object) =
        (slot h a i).map (fun s => s.2.object) := by
        rw [← next_getElem?, ← next_getElem?, hnext]
      rw [view, view]
      cases hs : slot h a i with
      | none =>
          rw [hs] at hkeys
          rw [Option.map_eq_none_iff.mp hkeys]
      | some s =>
          obtain ⟨k, v⟩ := s
          rw [hs] at hkeys hobject
          obtain ⟨⟨k', v'⟩, hs', hk⟩ := Option.map_eq_some_iff.mp hkeys
          rw [hs', Option.map_some, Option.map_some, Option.some_inj] at hobject
          subst hk
          rw [hs']
          cases v with
          | prim c =>
              cases v' with
              | prim c' =>
                  simp only
                  rw [hleaf [] a i k' c c' rfl hs hs']
                  exact look_leaf lib h h' (fresh []) k' c' p
              | ref b => cases hobject
          | ref b =>
              cases v' with
              | prim c' => cases hobject
              | ref b' =>
                  rw [Option.some.inj hobject]
                  refine ih (fun q d j k c c' hq => hleaf (i :: q) d j k c c' ?_)
                  rw [walk_slot hs]
                  exact hq

theorem view_leaf {lib : UrlLib U} {fresh : Path → Bool} {q : Path}
    (hq : walk (next h) (some a) q = some b)
    (hs : slot h b i = some (k, .prim c)) :
    view lib h fresh a (q ++ [i]) = look h (if fresh q then copied lib k c else .prim c) [] := by
  induction q generalizing a fresh with
  | nil =>
      rw [← Option.some.inj hq] at hs
      rw [List.nil_append, view, hs]
  | cons j q ih =>
      rw [List.cons_append, view]
      cases hj : slot h a j with
      | none =>
          rw [walk, next_getElem?, hj] at hq
          exact absurd hq (walk_none q)
      | some s =>
          obtain ⟨k', v⟩ := s
          rw [walk_slot hj] at hq
          cases v with
          | prim d => exact absurd hq (walk_none q)
          | ref d => exact ih hq

end Paths

section Leaf

variable {k : Option String} {c c' : Prim N O}

/-- A string or a number under the key is not kept in a copy. -/
def hidden (k : Option String) : Bool := k.any secretKeyRe || k == some "__proto__"

theorem shown_textual (lib : UrlLib U) (h : c.textual = true) : (shown lib c).textual = true := by
  cases c with
  | text s => rfl
  | number n => rfl
  | null | undefined | other o => cases h

theorem assigned_proto (h : c.textual = true) :
    assigned (some "__proto__") (.prim c) = .prim .undefined := by
  cases c with
  | text s => rfl
  | number n => rfl
  | null | undefined | other o => cases h

theorem copied_hidden (lib : UrlLib U) (hk : hidden k = true) (hc : c.textual = true)
    (hc' : c'.textual = true) :
    copied lib k c = copied lib k c' := by
  have hval {d : Prim N O} (hd : d.textual = true) : masked k (.prim d) = k.any secretKeyRe := by
    rw [masked, Val.textual, hd, Bool.and_true]
  rw [copied, copied, hval hc, hval hc']
  rcases Bool.or_eq_true_iff.mp hk with hs | hp
  · rw [hs, if_pos rfl, if_pos rfl]
  · rw [eq_of_beq hp]
    split
    · rfl
    · rw [assigned_proto (shown_textual lib hc), assigned_proto (shown_textual lib hc')]

theorem copied_text (lib : UrlLib U) (hk : hidden k = false) {s : String}
    (hs : ¬ "://".toList <:+: s.toList) :
    copied lib k (.text s : Prim N O) = .prim (.text s) := by
  obtain ⟨hsecret, hproto⟩ := Bool.or_eq_false_iff.mp hk
  rw [copied, masked, hsecret, Bool.false_and, if_neg Bool.false_ne_true, shown, if_neg hs]
  exact if_neg (fun h => by rw [h] at hproto; cases hproto)

end Leaf

namespace Graph

variable (lib : UrlLib U) (g : Graph N O)

def target (q : Path) : Option Nat := walk (next g.nodes) g.root.object q

/-- A path goes through a property whose key matches. -/
def passes (h : Heap N O) : Option Nat → Path → Prop
  | some a, i :: p =>
    match slot h a i with
    | some s => s.1.any secretKeyRe = true ∨ passes h s.2.object p
    | none => False
  | _, _ => False

/-- The slot is reachable through a property whose key matches. -/
def UnderSecret (a i : Nat) : Prop :=
  ∃ q, g.target q = some a ∧ passes g.nodes g.root.object (q ++ [i])

/-- `g'` differs from `g` only in strings and numbers under secret keys. -/
structure Variant (g' : Graph N O) : Prop where
  root : g'.root = g.root
  length : g'.nodes.length = g.nodes.length
  shape : ∀ a, shape g'.nodes a = shape g.nodes a
  slot : ∀ a i s s', slot g.nodes a i = some s → slot g'.nodes a i = some s' →
    s' = s ∨ g.UnderSecret a i ∧ s.2.textual = true ∧ s'.2.textual = true

/-- The redacted output does not depend on the secrets, and the input is as before. -/
def LeaksNothing : Prop := ∀ g' : Graph N O, g.Variant g' → ∃ st w st' w',
  g.redactSecrets lib = some (st, w) ∧ g'.redactSecrets lib = some (st', w') ∧
  (∀ p, look st.heap w p = look st'.heap w' p) ∧ g.nodes <+: st.heap ∧ g'.nodes <+: st'.heap

/-- Every string and number that is met on a path through a matching key sits itself under such a
key, in an object that no other path leads to. -/
def Clean : Prop :=
  ∀ q a i k c, g.target q = some a → slot g.nodes a i = some (k, .prim c) → c.textual = true →
  passes g.nodes g.root.object (q ++ [i]) → hidden k = true ∧ ∀ q', g.target q' = some a → q' = q

section Outcome

def paths : List Path := (visit (next g.nodes) (g.nodes.length + 1) [] g.root.object).2

def outcome (p : Path) : Option (Obs N O) :=
  match g.root with
  | .prim c => look g.nodes (.prim (shown lib c)) p
  | .ref a => view lib g.nodes (freshOf g.paths) a p

theorem left_lt_length : left (List.range g.nodes.length) [] < g.nodes.length + 1 := by
  refine Nat.lt_succ_of_le (Nat.le_trans (List.length_filter_le _ _) ?_)
  rw [List.length_range]

theorem redacted : ∃ st w, g.redactSecrets lib = some (st, w) ∧ g.nodes <+: st.heap ∧
    ∀ p, look st.heap w p = g.outcome lib p := by
  cases hroot : g.root with
  | prim c =>
      refine ⟨⟨g.nodes, []⟩, .prim (shown lib c), ?_, List.prefix_refl _, fun p => ?_⟩
      · rw [redactSecrets, hroot]
        rfl
      · rw [outcome, hroot]
  | ref a =>
      obtain ⟨new, b, hrun⟩ := run_exists lib g.closed [] 0 (g.root_lt a hroot) g.left_lt_length
      have hres := hrun.run [] rfl
      simp only [List.append_nil] at hres
      rw [← hroot] at hres
      refine ⟨_, _, hres, List.prefix_append g.nodes new, fun p => ?_⟩
      have hlook := hrun.look [] [] rfl p
      simp only [List.append_nil] at hlook
      rw [outcome, hroot, paths, hroot]
      exact hlook

theorem covers : Covers g.target []
    (visit (next g.nodes) (g.nodes.length + 1) [] g.root.object).1 g.paths :=
  visit_covers (next g.nodes) _ [] g.root.object

theorem fresh_path {q : Path} {a : Nat} (hq : g.target q = some a) :
    ∃ q' ∈ g.paths, g.target q' = some a := by
  have hall : ∀ a ∈ List.range g.nodes.length, ∀ b, some b ∈ next g.nodes a →
    b ∈ List.range g.nodes.length := by
    intro a _ b hb
    obtain ⟨i, hi⟩ := List.mem_iff_getElem?.mp hb
    rw [next_getElem?] at hi
    obtain ⟨⟨k, v⟩, hs, hv⟩ := Option.map_eq_some_iff.mp hi
    cases v with
    | prim c => cases hv
    | ref b' =>
        cases hv
        exact List.mem_range.mpr (g.closed a i _ _ hs rfl)
  have hroot : ∀ a, g.root.object = some a → a ∈ List.range g.nodes.length := by
    intro a ha
    cases hv : g.root with
    | prim c => rw [hv] at ha; cases ha
    | ref b =>
        rw [hv] at ha
        cases ha
        exact List.mem_range.mpr (g.root_lt _ hv)
  exact g.covers.cover a (walk_mem (visit_complete hall hroot g.left_lt_length) hq) List.not_mem_nil

variable {g} {g' : Graph N O}

namespace Variant

theorem object_eq (h : g.Variant g') {a i : Nat} {s s' : Slot N O}
    (hs : Secrets.slot g.nodes a i = some s)
    (hs' : Secrets.slot g'.nodes a i = some s') : s'.2.object = s.2.object := by
  rcases h.slot a i s s' hs hs' with rfl | ⟨-, ht, ht'⟩
  · rfl
  · have htext {v : Val N O} (hv : v.textual = true) : v.object = none := by
      cases v with
      | prim c => rfl
      | ref b => cases hv
    rw [htext ht, htext ht']

theorem next_eq (h : g.Variant g') : next g'.nodes = next g.nodes := by
  funext a
  apply List.ext_getElem?
  intro i
  have hkeys := slot_keys h.shape a i
  rw [next_getElem?, next_getElem?]
  cases hs : Secrets.slot g.nodes a i with
  | none =>
      rw [hs] at hkeys
      rw [Option.map_eq_none_iff.mp hkeys]
  | some s =>
      rw [hs] at hkeys
      obtain ⟨s', hs', -⟩ := Option.map_eq_some_iff.mp hkeys
      rw [hs', Option.map_some, Option.map_some, h.object_eq hs hs']

theorem paths_eq (h : g.Variant g') : g'.paths = g.paths := by
  rw [paths, paths, h.next_eq, h.length, h.root]

end Variant

theorem Clean.outcome_eq (hclean : g.Clean) (h : g.Variant g') (p : Path) :
    g.outcome lib p = g'.outcome lib p := by
  rw [outcome, outcome, h.root, h.paths_eq]
  cases hroot : g.root with
  | prim c => exact look_prim _ _ _ p
  | ref a =>
      refine view_congr h.shape h.next_eq (fun q b i k c c' hq hs hs' => ?_) p
      rcases h.slot b i _ _ hs hs' with heq | ⟨⟨q₁, hq₁, hpass⟩, ht, ht'⟩
      · rw [Val.prim.inj (Prod.ext_iff.mp heq).2]
      · obtain ⟨hk, honly⟩ := hclean q₁ b i k c hq₁ hs ht hpass
        have htarget : g.target q = some b := by
          rw [target, hroot]
          exact hq
        obtain ⟨q₂, hmem, hq₂⟩ := g.fresh_path htarget
        have hfresh : freshOf g.paths q = true := by
          rw [honly q htarget, ← honly q₂ hq₂]
          exact decide_eq_true hmem
        rw [if_pos hfresh, if_pos hfresh]
        exact copied_hidden lib hk ht ht'

end Outcome

section Mark

def markSlots (h : Heap N O) (a i : Nat) (t : String) : Heap N O :=
  h.modify a (fun node =>
    { node with slots := node.slots.modify i (fun s => (s.1, .prim (.text t))) })

variable {h : Heap N O} {a b i j : Nat} {t : String}

theorem markSlots_getElem? (h : Heap N O) (a i : Nat) (t : String) (b : Nat) :
    (markSlots h a i t)[b]? =
    h[b]?.map (fun node => if a = b then
      { node with slots := node.slots.modify i (fun s => (s.1, .prim (.text t))) } else node) := by
  rw [markSlots, List.getElem?_modify]
  rfl

theorem modify_keys (slots : List (Slot N O)) (i : Nat) (t : String) :
    (slots.modify i (fun s => (s.1, .prim (.text t)))).map Prod.fst = slots.map Prod.fst := by
  apply List.ext_getElem?
  intro j
  rw [List.getElem?_map, List.getElem?_map, List.getElem?_modify]
  cases slots[j]? with
  | none => rfl
  | some s => by_cases hij : i = j <;> simp [hij]

theorem shape_mark (h : Heap N O) (a i : Nat) (t : String) (b : Nat) :
    shape (markSlots h a i t) b = shape h b := by
  rw [shape, shape, markSlots_getElem?]
  cases h[b]? with
  | none => rfl
  | some node =>
      by_cases hab : a = b
      · simp [hab, modify_keys]
      · simp [hab]

theorem slot_mark (h : Heap N O) (a i : Nat) (t : String) : slot (markSlots h a i t) a i =
    (slot h a i).map (fun s => (s.1, .prim (.text t))) := by
  rw [slot, slot, markSlots_getElem?]
  cases h[a]? with
  | none => rfl
  | some node => simp

theorem slot_mark_ne (h : Heap N O) (t : String) (hne : ¬ (a = b ∧ i = j)) :
    slot (markSlots h a i t) b j = slot h b j := by
  rw [slot, slot, markSlots_getElem?]
  cases h[b]? with
  | none => rfl
  | some node =>
      by_cases hab : a = b
      · have hij : i ≠ j := fun hij => hne ⟨hab, hij⟩
        simp [hab, hij]
      · simp [hab]

theorem mem_mark {node : Node N O} (hn : node ∈ markSlots h a i t) :
    ∃ node₀ ∈ h, node.array = node₀.array ∧
    node.slots.map Prod.fst = node₀.slots.map Prod.fst ∧
    ∀ s ∈ node.slots, ∀ b, s.2 = .ref b → s ∈ node₀.slots := by
  obtain ⟨c, hc⟩ := List.mem_iff_getElem?.mp hn
  rw [markSlots_getElem?] at hc
  obtain ⟨node₀, hn₀, rfl⟩ := Option.map_eq_some_iff.mp hc
  refine ⟨node₀, List.mem_of_getElem? hn₀, ?_⟩
  by_cases hac : a = c
  · rw [if_pos hac]
    refine ⟨rfl, modify_keys node₀.slots i t, fun s hs b hb => ?_⟩
    obtain ⟨j, hj⟩ := List.mem_iff_getElem?.mp hs
    rw [List.getElem?_modify] at hj
    obtain ⟨s₀, hs₀, heq⟩ := Option.map_eq_some_iff.mp hj
    by_cases hij : i = j
    · rw [if_pos hij] at heq
      rw [← heq] at hb
      cases hb
    · rw [if_neg hij] at heq
      rw [← heq]
      exact List.mem_of_getElem? hs₀
  · rw [if_neg hac]
    exact ⟨rfl, rfl, fun s hs _ _ => hs⟩

def mark (g : Graph N O) (a i : Nat) (t : String) : Graph N O where
  nodes := markSlots g.nodes a i t
  root := g.root
  root_lt b hb := by
    rw [markSlots, List.length_modify]
    exact g.root_lt b hb
  slot_lt node hn s hs b hb := by
    obtain ⟨node₀, hn₀, -, -, hrefs⟩ := mem_mark hn
    rw [markSlots, List.length_modify]
    exact g.slot_lt node₀ hn₀ s (hrefs s hs b hb) b hb
  keyed node hn s hs := by
    obtain ⟨node₀, hn₀, harray, hkeys, -⟩ := mem_mark hn
    have hk : s.1 ∈ node.slots.map Prod.fst := List.mem_map_of_mem hs
    rw [hkeys] at hk
    obtain ⟨s₀, hs₀, heq⟩ := List.mem_map.mp hk
    rw [← heq, harray]
    exact g.keyed node₀ hn₀ s₀ hs₀
  distinct node hn := by
    obtain ⟨node₀, hn₀, -, hkeys, -⟩ := mem_mark hn
    have hcomp (slots : List (Slot N O)) : slots.filterMap Prod.fst =
      (slots.map Prod.fst).filterMap id := by
      rw [List.filterMap_map]
      rfl
    rw [hcomp, hkeys, ← hcomp]
    exact g.distinct node₀ hn₀

theorem mark_variant {g : Graph N O} {k : Option String} {c : Prim N O}
    (hs : slot g.nodes a i = some (k, .prim c))
    (hc : c.textual = true) (hunder : g.UnderSecret a i) (t : String) :
    g.Variant (g.mark a i t) where
  root := rfl
  length := List.length_modify _ _ _
  shape := shape_mark g.nodes a i t
  slot b j s s' hb hb' := by
    by_cases hab : a = b ∧ i = j
    · obtain ⟨rfl, rfl⟩ := hab
      rw [mark, slot_mark, hs] at hb'
      rw [hs] at hb
      cases hb
      cases hb'
      exact .inr ⟨hunder, hc, rfl⟩
    · rw [mark, slot_mark_ne g.nodes t hab, hb] at hb'
      exact .inl (Option.some.inj hb').symm

end Mark

section Iff

variable {lib} {g g' : Graph N O} {a i : Nat} {k : Option String} {c : Prim N O}

theorem LeaksNothing.outcome_eq (h : g.LeaksNothing lib) (hv : g.Variant g') (p : Path) :
    g.outcome lib p = g'.outcome lib p := by
  obtain ⟨st, w, st', w', hcall, hcall', hlook, -⟩ := h g' hv
  obtain ⟨st₁, w₁, hcall₁, -, hlook₁⟩ := g.redacted lib
  obtain ⟨st₂, w₂, hcall₂, -, hlook₂⟩ := g'.redacted lib
  rw [hcall] at hcall₁
  rw [hcall'] at hcall₂
  cases hcall₁
  cases hcall₂
  rw [← hlook₁, ← hlook₂]
  exact hlook p

theorem outcome_leaf (lib : UrlLib U) {q : Path} (hq : g.target q = some a)
    (hs : slot g.nodes a i = some (k, .prim c)) :
    ∃ d, (if freshOf g.paths q then copied lib k c else .prim c) = .prim d ∧
      g.outcome lib (q ++ [i]) = some (.prim d) := by
  have hprim : ∃ d, (if freshOf g.paths q then copied lib k c else .prim c) = .prim d := by
    split
    · exact copied_prim lib k c
    · exact ⟨c, rfl⟩
  obtain ⟨d, hd⟩ := hprim
  refine ⟨d, hd, ?_⟩
  rw [target] at hq
  rw [outcome]
  cases hroot : g.root with
  | prim c' =>
      rw [hroot] at hq
      exact absurd hq (walk_none q)
  | ref r =>
      rw [hroot] at hq
      simp only
      rw [view_leaf hq hs, hd]
      rfl

/-- The value is tried with two texts in the slot. -/
theorem LeaksNothing.clean (h : g.LeaksNothing lib) : g.Clean := by
  intro q a i k c hq hs hc hpass
  have hvariant (t : String) := mark_variant hs hc ⟨q, hq, hpass⟩ t
  have hleaf (q' : Path) (hq' : g.target q' = some a) :
      (if freshOf g.paths q' then copied lib k (.text "a" : Prim N O) else .prim (.text "a")) =
        if freshOf g.paths q' then copied lib k (.text "b") else .prim (.text "b") := by
    have hmark (t : String) : ∃ d,
      (if freshOf g.paths q' then copied lib k (.text t : Prim N O) else .prim (.text t)) =
        .prim d ∧
        g.outcome lib (q' ++ [i]) = some (.prim d) := by
      have htarget : (g.mark a i t).target q' = some a := by
        rw [target, (hvariant t).next_eq]
        exact hq'
      have hslot : slot (g.mark a i t).nodes a i = some (k, .prim (.text t)) := by
        rw [mark, slot_mark, hs]
        rfl
      obtain ⟨d, hd, hout⟩ := outcome_leaf lib htarget hslot
      rw [(hvariant t).paths_eq] at hd
      exact ⟨d, hd, (h.outcome_eq (hvariant t) _).trans hout⟩
    obtain ⟨d, hd, hout⟩ := hmark "a"
    obtain ⟨d', hd', hout'⟩ := hmark "b"
    rw [hd, hd', Obs.prim.inj (Option.some.inj (hout.symm.trans hout'))]
  have hfresh {q' : Path} (hq' : g.target q' = some a) : q' ∈ g.paths := by
    by_contra hmem
    have heq := hleaf q' hq'
    rw [freshOf, decide_eq_false hmem] at heq
    exact absurd (Prim.text.inj (Val.prim.inj heq)) (by decide)
  constructor
  · by_contra hk
    have heq := hleaf q hq
    rw [freshOf, decide_eq_true (hfresh hq), if_pos rfl, if_pos rfl,
      copied_text lib (Bool.not_eq_true _ ▸ hk) (by decide),
      copied_text lib (Bool.not_eq_true _ ▸ hk) (by decide)] at heq
    exact absurd (Prim.text.inj (Val.prim.inj heq)) (by decide)
  · exact fun q' hq' => g.covers.inj q' (hfresh hq') q (hfresh hq) (hq'.trans hq.symm)

theorem Clean.leaksNothing (lib : UrlLib U) (hclean : g.Clean) : g.LeaksNothing lib := by
  intro g' hv
  obtain ⟨st, w, hcall, hinput, hlook⟩ := g.redacted lib
  obtain ⟨st', w', hcall', hinput', hlook'⟩ := g'.redacted lib
  refine ⟨st, w, st', w', hcall, hcall', fun p => ?_, hinput, hinput'⟩
  rw [hlook, hlook']
  exact hclean.outcome_eq lib hv p

end Iff

end Graph

/-- A value leaks nothing when what is under its secret keys is directly there, and is met once. -/
theorem leaksNothing_iff (lib : UrlLib U) (g : Graph N O) : g.LeaksNothing lib ↔ g.Clean :=
  ⟨Graph.LeaksNothing.clean, Graph.Clean.leaksNothing lib⟩

def shared (t : String) : Graph Nat Unit where
  nodes := [⟨false, [(some "a", .ref 1), (some "b", .ref 1)]⟩,
    ⟨false, [(some "password", .prim (.text t))]⟩]
  root := .ref 0
  root_lt a h := by
    rw [← Val.ref.inj h]
    exact Nat.zero_lt_two
  slot_lt := by
    simp only [List.forall_mem_cons, List.length_cons, List.length_nil]
    refine ⟨⟨fun a h => ?_, fun a h => ?_, fun s hs => ?_⟩, ⟨fun a h => ?_, fun s hs => ?_⟩,
      fun node hn => ?_⟩
    · rw [← Val.ref.inj h]
      exact Nat.one_lt_two
    · rw [← Val.ref.inj h]
      exact Nat.one_lt_two
    · cases hs
    · cases h
    · cases hs
    · cases hn
  keyed := by
    simp only [List.forall_mem_cons]
    exact ⟨⟨rfl, rfl, fun s hs => by cases hs⟩, ⟨rfl, fun s hs => by cases hs⟩,
      fun node hn => by cases hn⟩
  distinct := by simp

def noUrls : UrlLib Unit := ⟨fun _ => none, fun _ => "", fun u _ => u, fun _ => ""⟩

theorem shared_variant (t t' : String) : (shared t).Variant (shared t') where
  root := rfl
  length := rfl
  shape a := by
    match a with
    | 0 => rfl
    | 1 => rfl
    | a + 2 => rfl
  slot a i s s' hs hs' := by
    match a, i with
    | 0, 0 => cases hs; cases hs'; exact .inl rfl
    | 0, 1 => cases hs; cases hs'; exact .inl rfl
    | 0, i + 2 => cases hs
    | 1, 0 =>
        cases hs
        cases hs'
        have hkey : secretKeyRe "password" = true := by decide +kernel
        exact .inr ⟨⟨[0], rfl, .inr (.inl hkey)⟩, rfl, rfl⟩
    | 1, i + 1 => cases hs
    | a + 2, i => cases hs

theorem shared_leaks : ¬ (shared "x").LeaksNothing noUrls := by
  intro h
  obtain ⟨st, w, st', w', hcall, hcall', hlook, -⟩ := h (shared "y") (shared_variant "x" "y")
  have hcopy : (shared "x").redactSecrets noUrls = some (⟨(shared "x").nodes ++
      [⟨false, [(some "a", .ref 3), (some "b", .ref 1)]⟩,
        ⟨false, [(some "password", .prim (.text "***"))]⟩], [1, 0]⟩, .ref 2) := by
    decide +kernel
  have hcopy' : (shared "y").redactSecrets noUrls = some (⟨(shared "y").nodes ++
      [⟨false, [(some "a", .ref 3), (some "b", .ref 1)]⟩,
        ⟨false, [(some "password", .prim (.text "***"))]⟩], [1, 0]⟩, .ref 2) := by
    decide +kernel
  rw [hcopy] at hcall
  rw [hcopy'] at hcall'
  cases hcall
  cases hcall'
  have hleak := hlook [1, 0]
  exact absurd (Prim.text.inj (Obs.prim.inj (Option.some.inj hleak))) (by decide)

end ZenZip.Secrets
