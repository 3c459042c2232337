import ZenZip.Lib.Trie
import Mathlib.Data.List.Induction

namespace ZenZip.Lib.Trie

variable {K N V : Type}

abbrev Entry (K N V : Type) := List (Part K N) × V

def Part.name? : Part K N → Option N
  | .lit _ => none
  | .wild n => some n

section Insert

variable [DecidableEq K] (v : V) (ps : List (Part K N)) (t : Trie K N V)

theorem children_insert_nil : (insert v [] t).children = t.children := by
  cases t
  rfl

theorem children_insert_lit (k : K) : (insert v (.lit k :: ps) t).children =
    Function.update t.children k (some (insert v ps ((t.children k).getD empty))) := by
  cases t
  rfl

theorem children_insert_wild (n : N) : (insert v (.wild n :: ps) t).children = t.children := by
  cases t
  rfl

theorem wild_insert_nil : (insert v [] t).wild = t.wild := by
  cases t
  rfl

theorem wild_insert_lit (k : K) : (insert v (.lit k :: ps) t).wild = t.wild := by
  cases t
  rfl

theorem wild_insert_wild (n : N) : (insert v (.wild n :: ps) t).wild =
    some ((t.wild.getD (n, empty)).1, insert v ps (t.wild.getD (n, empty)).2) := by
  cases t
  rfl

theorem value_insert_nil : (insert v [] t).value = t.value.or (some v) := by
  cases t
  rfl

theorem value_insert_cons (p : Part K N) : (insert v (p :: ps) t).value = t.value := by
  cases t
  cases p <;> rfl

end Insert

section Along

variable [DecidableEq K]

/-- What is left of a pattern behind another one, whatever the wildcards are called. -/
def strip : List (Part K N) → List (Part K N) → Option (List (Part K N))
  | [], q => some q
  | .lit k :: p, .lit l :: q => if k = l then strip p q else none
  | .wild _ :: p, .wild _ :: q => strip p q
  | _ :: _, _ => none

def along (p : List (Part K N)) (ts : List (Entry K N V)) : List (Entry K N V) :=
  ts.filterMap (fun e => (strip p e.1).map (fun q => (q, e.2)))

theorem strip_cons (p : Part K N) (ps q : List (Part K N)) :
    strip (p :: ps) q = (strip [p] q).bind (strip ps) := by
  cases q with
  | nil => cases p <;> rfl
  | cons r q =>
      cases p with
      | wild n => cases r <;> rfl
      | lit k =>
          cases r with
          | wild n => rfl
          | lit l =>
              rw [strip, strip]
              split <;> rfl

theorem along_append (p : List (Part K N)) (ts us : List (Entry K N V)) :
    along p (ts ++ us) = along p ts ++ along p us :=
  List.filterMap_append

theorem mem_along {p : List (Part K N)} {ts : List (Entry K N V)} {q : List (Part K N)} {v : V} :
    (q, v) ∈ along p ts ↔ ∃ r, (r, v) ∈ ts ∧ strip p r = some q := by
  rw [along, List.mem_filterMap]
  constructor
  · rintro ⟨⟨r, w⟩, hm, he⟩
    obtain ⟨q', hq, heq⟩ := Option.map_eq_some_iff.mp he
    cases heq
    exact ⟨r, hm, hq⟩
  · rintro ⟨r, hm, hq⟩
    exact ⟨(r, v), hm, by rw [hq]; rfl⟩

end Along

def firstName (ts : List (Entry K N V)) : Option N :=
  ts.findSome? (fun e => e.1.head?.bind Part.name?)

theorem along_eq_nil_of_firstName [DecidableEq K] {ts : List (Entry K N V)} (n : N)
    (h : firstName ts = none) :
    along [.wild n] ts = [] := by
  rw [along, List.filterMap_eq_nil_iff]
  intro e he
  obtain ⟨q, v⟩ := e
  have hnone := List.findSome?_eq_none_iff.mp h (q, v) he
  cases q with
  | nil => rfl
  | cons p q =>
      cases p with
      | lit k => rfl
      | wild m => cases hnone

theorem firstName_of_mem {ts : List (Entry K N V)} {n : N} {ps : List (Part K N)} {v : V}
    (h : (.wild n :: ps, v) ∈ ts) : ∃ m, firstName ts = some m := by
  cases hn : firstName ts with
  | some m => exact ⟨m, rfl⟩
  | none => cases List.findSome?_eq_none_iff.mp hn _ h

section Build

variable [DecidableEq K]

def build (ts : List (Entry K N V)) : Trie K N V := ts.foldl (fun t e => t.insert e.2 e.1) empty

theorem build_concat (ts : List (Entry K N V)) (e : Entry K N V) :
    build (ts ++ [e]) = (build ts).insert e.2 e.1 := by
  rw [build, List.foldl_append]
  rfl

theorem value_build (ts : List (Entry K N V)) :
    (build ts).value = (ts.find? (fun e => e.1.isEmpty)).map Prod.snd := by
  induction ts using List.reverseRecOn with
  | nil => rfl
  | append_singleton ts e ih =>
      obtain ⟨ps, v⟩ := e
      rw [build_concat, List.find?_append]
      cases ps with
      | nil =>
          rw [value_insert_nil, ih]
          cases ts.find? (fun e => e.1.isEmpty) <;> rfl
      | cons p ps =>
          rw [value_insert_cons, ih]
          cases ts.find? (fun e => e.1.isEmpty) <;> rfl

theorem children_build (ts : List (Entry K N V)) (k : K) : (build ts).children k =
    if (along [.lit k] ts).isEmpty then none else some (build (along [.lit k] ts)) := by
  induction ts using List.reverseRecOn with
  | nil => rfl
  | append_singleton ts e ih =>
      obtain ⟨ps, v⟩ := e
      have hskip (h : along [.lit k] [(ps, v)] = [])
        (hc : (insert v ps (build ts)).children k = (build ts).children k) :
          (build (ts ++ [(ps, v)])).children k =
            if (along [.lit k] (ts ++ [(ps, v)])).isEmpty then none
              else some (build (along [.lit k] (ts ++ [(ps, v)]))) := by
        rw [build_concat, along_append, h, List.append_nil, ← ih, hc]
      cases ps with
      | nil => exact hskip rfl (by rw [children_insert_nil])
      | cons p ps =>
          cases p with
          | wild n => exact hskip rfl (by rw [children_insert_wild])
          | lit l =>
              by_cases hk : k = l
              · subst hk
                have hone : along [.lit k] [((.lit k :: ps : List (Part K N)), v)] = [(ps, v)] := by
                  simp [along, strip]
                have hbelow : ((build ts).children k).getD empty = build (along [.lit k] ts) := by
                  rw [ih]
                  cases along [.lit k] ts <;> rfl
                rw [build_concat, children_insert_lit, Function.update_self, along_append, hone,
                  build_concat, hbelow]
                simp
              · apply hskip
                · simp [along, strip, hk]
                · rw [children_insert_lit, Function.update_of_ne hk]

theorem wild_build (ts : List (Entry K N V)) (n : N) :
    (build ts).wild = (firstName ts).map (fun m => (m, build (along [.wild n] ts))) := by
  induction ts using List.reverseRecOn with
  | nil => rfl
  | append_singleton ts e ih =>
      obtain ⟨ps, v⟩ := e
      have hskip (h : along [.wild n] [(ps, v)] = []) (hn : ps.head?.bind Part.name? = none)
          (hw : (insert v ps (build ts)).wild = (build ts).wild) : (build (ts ++ [(ps, v)])).wild =
            (firstName (ts ++ [(ps, v)])).map
              (fun m => (m, build (along [.wild n] (ts ++ [(ps, v)])))) := by
        have hfirst : firstName (ts ++ [(ps, v)]) = firstName ts := by
          rw [firstName, List.findSome?_append, List.findSome?_cons, hn, List.findSome?_nil,
            Option.or_none, firstName]
        rw [build_concat, along_append, h, List.append_nil, hfirst, ← ih, hw]
      cases ps with
      | nil => exact hskip rfl rfl (by rw [wild_insert_nil])
      | cons p ps =>
          cases p with
          | lit k => exact hskip rfl rfl (by rw [wild_insert_lit])
          | wild m =>
              have hone : along [.wild n] [((.wild m :: ps : List (Part K N)), v)] = [(ps, v)] :=
                rfl
              have hfirst : firstName (ts ++ [((.wild m :: ps : List (Part K N)), v)]) =
                (firstName ts).or (some m) := by
                rw [firstName, List.findSome?_append, firstName]
                rfl
              rw [build_concat, wild_insert_wild, along_append, hone, build_concat, hfirst, ih]
              cases hts : firstName ts with
              | some m' => rfl
              | none =>
                  rw [along_eq_nil_of_firstName n hts]
                  rfl

end Build

section Preferred

/-- Of two patterns that fit the same keys the first one is preferred: at the first place where
they differ it has the literal. Patterns that differ in names only are alike. -/
def preferable : List (Part K N) → List (Part K N) → Bool
  | .lit _ :: _, .wild _ :: _ => true
  | .wild _ :: _, .lit _ :: _ => false
  | _ :: p, _ :: q => preferable p q
  | [], _ | _, [] => true

variable {k : K} {keys : List K} {n : N}

theorem fits_lit_iff {q : List (Part K N)} : List.Forall₂ Part.Fits (.lit k :: q) (k :: keys) ↔
    List.Forall₂ Part.Fits q keys := by
  rw [List.forall₂_cons]
  exact and_iff_right rfl

theorem fits_wild_iff {q : List (Part K N)} : List.Forall₂ Part.Fits (.wild n :: q) (k :: keys) ↔
    List.Forall₂ Part.Fits q keys := by
  rw [List.forall₂_cons]
  exact and_iff_right trivial

theorem cases_of_fits {q : List (Part K N)} (h : List.Forall₂ Part.Fits q (k :: keys)) :
    (∃ p, q = .lit k :: p ∧ List.Forall₂ Part.Fits p keys) ∨ ∃ n p, q = .wild n :: p ∧
    List.Forall₂ Part.Fits p keys := by
  cases h with
  | @cons a _ p _ ha hp =>
      cases a with
      | lit l =>
          cases ha
          exact .inl ⟨p, rfl, hp⟩
      | wild n => exact .inr ⟨n, p, rfl, hp⟩

variable [DecidableEq K]

def same (p q : List (Part K N)) : Bool := (strip p q).any List.isEmpty

/-- The entry that `keys` are for: of the patterns that fit the preferred one, of those alike
the first one. -/
structure Preferred (ts : List (Entry K N V)) (keys : List K) (b : Entry K N V) : Prop where
  fits : List.Forall₂ Part.Fits b.1 keys
  least : ∀ e ∈ ts, List.Forall₂ Part.Fits e.1 keys → preferable b.1 e.1 = true
  first : ts.find? (fun e => same b.1 e.1) = some b

variable {ts : List (Entry K N V)} {b : List (Part K N)} {v : V}

theorem strip_lit_eq_some {q r : List (Part K N)} : strip [.lit k] r = some q ↔
    r = .lit k :: q := by
  constructor
  · intro h
    cases r with
    | nil => cases h
    | cons p r =>
        cases p with
        | wild n => cases h
        | lit l =>
            rw [strip] at h
            split at h
            · next hk =>
                cases h
                rw [hk]
            · cases h
  · rintro rfl
    rw [strip, if_pos rfl, strip]

theorem strip_wild_eq_some {q r : List (Part K N)} : strip [.wild n] r = some q ↔
    ∃ m, r = .wild m :: q := by
  constructor
  · intro h
    cases r with
    | nil => cases h
    | cons p r =>
        cases p with
        | lit k => cases h
        | wild m =>
            cases h
            exact ⟨m, rfl⟩
  · rintro ⟨m, rfl⟩
    rfl

theorem find?_along (p : Part K N) (b : List (Part K N)) :
    (along [p] ts).find? (fun e => same b e.1) =
      (ts.find? (fun e => same (p :: b) e.1)).bind
        (fun e => (strip [p] e.1).map (fun q => (q, e.2))) := by
  rw [along, List.find?_filterMap]
  congr 2
  funext e
  have hcons : same (p :: b) e.1 = ((strip [p] e.1).bind (strip b)).any List.isEmpty := by
    rw [same, strip_cons p b]
  rw [hcons]
  cases strip [p] e.1 <;> rfl

theorem same_wild (m n : N) (p q : List (Part K N)) :
    same (.wild m :: p) q = same (.wild n :: p) q := by
  cases q with
  | nil => rfl
  | cons r q => cases r <;> rfl

theorem find?_of_find?_along {p : Part K N}
    (h : (along [p] ts).find? (fun e => same b e.1) = some (b, v)) :
    ∃ r, ts.find? (fun e => same (p :: b) e.1) = some (r, v) ∧ strip [p] r = some b := by
  rw [find?_along] at h
  obtain ⟨⟨r, u⟩, hr, hs⟩ := Option.bind_eq_some_iff.mp h
  obtain ⟨q, hq, heq⟩ := Option.map_eq_some_iff.mp hs
  cases heq
  exact ⟨r, hr, hq⟩

theorem preferred_nil_iff : Preferred ts [] (b, v) ↔ b = [] ∧ ts.find? (fun e => e.1.isEmpty) = some
    (b, v) := by
  constructor
  · rintro ⟨hfits, _, hfirst⟩
    cases hfits
    exact ⟨rfl, hfirst⟩
  · rintro ⟨rfl, hfirst⟩
    exact ⟨.nil, fun e he hfits => rfl, hfirst⟩

theorem preferred_lit (h : Preferred ts (k :: keys) (.lit k :: b, v)) :
    Preferred (along [.lit k] ts) keys (b, v) where
  fits := fits_lit_iff.mp h.fits
  least e he hfits := by
    obtain ⟨r, hr, hs⟩ := mem_along.mp he
    obtain rfl := strip_lit_eq_some.mp hs
    exact h.least _ hr (fits_lit_iff.mpr hfits)
  first := by
    rw [find?_along, h.first, Option.bind_some, strip_lit_eq_some.mpr rfl]
    rfl

theorem preferred_wild (m : N) (h : Preferred ts (k :: keys) (.wild n :: b, v)) :
    Preferred (along [.wild m] ts) keys (b, v) where
  fits := fits_wild_iff.mp h.fits
  least e he hfits := by
    obtain ⟨r, hr, hs⟩ := mem_along.mp he
    obtain ⟨_, rfl⟩ := strip_wild_eq_some.mp hs
    exact h.least _ hr (fits_wild_iff.mpr hfits)
  first := by
    simp only [find?_along, same_wild m n]
    rw [h.first]
    rfl

theorem not_fits_of_preferred_wild (h : Preferred ts (k :: keys) (.wild n :: b, v))
    {e : Entry K N V}
    (he : e ∈ along [.lit k] ts) : ¬ List.Forall₂ Part.Fits e.1 keys := by
  intro hfits
  obtain ⟨r, hr, hs⟩ := mem_along.mp he
  obtain rfl := strip_lit_eq_some.mp hs
  exact absurd (h.least _ hr (fits_lit_iff.mpr hfits)) Bool.false_ne_true

theorem Preferred.unique {b c : Entry K N V} (hb : Preferred ts keys b) (hc : Preferred ts keys c) :
    b = c := by
  induction keys generalizing ts b c with
  | nil =>
      obtain ⟨_, hfirst⟩ := preferred_nil_iff.mp hb
      obtain ⟨_, hfirst'⟩ := preferred_nil_iff.mp hc
      exact Option.some.inj (hfirst.symm.trans hfirst')
  | cons k keys ih =>
      obtain ⟨p, u⟩ := b
      obtain ⟨q, w⟩ := c
      have hbc := hb.least _ (List.mem_of_find?_eq_some hc.first) hc.fits
      have hcb := hc.least _ (List.mem_of_find?_eq_some hb.first) hb.fits
      rcases cases_of_fits hb.fits with ⟨p, rfl, hp⟩ | ⟨m, p, rfl, hp⟩
      · rcases cases_of_fits hc.fits with ⟨q, rfl, hq⟩ | ⟨n, q, rfl, hq⟩
        · cases ih (preferred_lit hb) (preferred_lit hc)
          rfl
        · cases hcb
      · rcases cases_of_fits hc.fits with ⟨q, rfl, hq⟩ | ⟨n, q, rfl, hq⟩
        · cases hbc
        · cases ih (preferred_wild m hb) (preferred_wild m hc)
          have hfirst := hc.first
          simp only [same_wild n m] at hfirst
          exact Option.some.inj (hb.first.symm.trans hfirst)

theorem exists_preferred {e : Entry K N V} (he : e ∈ ts) (hfits : List.Forall₂ Part.Fits e.1 keys) :
    ∃ b, Preferred ts keys b := by
  induction keys generalizing ts e with
  | nil =>
      obtain ⟨q, w⟩ := e
      cases hfits
      cases hfirst : ts.find? (fun e => e.1.isEmpty) with
      | none => exact absurd rfl (List.find?_eq_none.mp hfirst _ he)
      | some b =>
          have hempty := List.find?_some (p := fun e : Entry K N V => e.1.isEmpty) hfirst
          exact ⟨b, preferred_nil_iff.mpr ⟨List.isEmpty_iff.mp hempty, hfirst⟩⟩
  | cons k keys ih =>
      obtain ⟨q, w⟩ := e
      by_cases hlit : ∃ e ∈ along [.lit k] ts, List.Forall₂ Part.Fits e.1 keys
      · obtain ⟨e, hm, hf⟩ := hlit
        obtain ⟨⟨b, v⟩, hb⟩ := ih hm hf
        obtain ⟨r, hr, hs⟩ := find?_of_find?_along hb.first
        obtain rfl := strip_lit_eq_some.mp hs
        refine ⟨(.lit k :: b, v), fits_lit_iff.mpr hb.fits, fun e' he' hf' => ?_, hr⟩
        obtain ⟨q', w'⟩ := e'
        rcases cases_of_fits hf' with ⟨p, rfl, hp⟩ | ⟨m, p, rfl, hp⟩
        · exact hb.least _ (mem_along.mpr ⟨_, he', strip_lit_eq_some.mpr rfl⟩) hp
        · rfl
      · rcases cases_of_fits hfits with ⟨p, rfl, hp⟩ | ⟨n, p, rfl, hp⟩
        · exact absurd ⟨_, mem_along.mpr ⟨_, he, strip_lit_eq_some.mpr rfl⟩, hp⟩ hlit
        · obtain ⟨⟨b, v⟩, hb⟩ :=
            ih (mem_along.mpr ⟨_, he, strip_wild_eq_some (n := n).mpr ⟨n, rfl⟩⟩) hp
          obtain ⟨r, hr, hs⟩ := find?_of_find?_along hb.first
          obtain ⟨m, rfl⟩ := strip_wild_eq_some.mp hs
          refine ⟨(.wild m :: b, v), fits_wild_iff.mpr hb.fits, fun e' he' hf' => ?_, ?_⟩
          · obtain ⟨q', w'⟩ := e'
            rcases cases_of_fits hf' with ⟨p', rfl, hp'⟩ | ⟨m', p', rfl, hp'⟩
            · exact absurd ⟨_, mem_along.mpr ⟨_, he', strip_lit_eq_some.mpr rfl⟩, hp'⟩ hlit
            · exact hb.least _ (mem_along.mpr ⟨_, he', strip_wild_eq_some.mpr ⟨m', rfl⟩⟩) hp'
          · simpa only [same_wild m n] using hr

end Preferred

section Follow

/-- The way down a trie that never turns back: the key itself before the wildcard. It leaves the
names that it met with their keys. -/
def follow (t : Trie K N V) : List K → Option (V × List (N × K))
  | [] => t.value.map (fun v => (v, []))
  | k :: keys =>
      match t.children k with
      | some c => follow c keys
      | none => t.wild.bind (fun w => (follow w.2 keys).map (fun r => (r.1, (w.1, k) :: r.2)))

variable [DecidableEq K]

/-- On the way of a pattern no other one has the key itself where this one has a wildcard. -/
def clear : List (Entry K N V) → List (Part K N) → List K → Bool
  | ts, .lit k :: ps, _ :: keys => clear (along [.lit k] ts) ps keys
  | ts, .wild n :: ps, k :: keys =>
      (along [.lit k] ts).isEmpty && clear (along [.wild n] ts) ps keys
  | _, _, _ => true

/-- The keys under a pattern's wildcards, each with the name that came first at its place. -/
def kept : List (Entry K N V) → List (Part K N) → List K → List (N × K)
  | ts, .lit k :: ps, _ :: keys => kept (along [.lit k] ts) ps keys
  | ts, .wild n :: ps, k :: keys => ((firstName ts).getD n, k) :: kept (along [.wild n] ts) ps keys
  | _, _, _ => []

def own : List (Part K N) → List K → List (N × K)
  | .lit _ :: ps, _ :: keys => own ps keys
  | .wild n :: ps, k :: keys => (n, k) :: own ps keys
  | _, _ => []

variable {ts : List (Entry K N V)} {keys : List K} {v : V} {names : List (N × K)}

theorem map_snd_kept (ts : List (Entry K N V)) (ps : List (Part K N)) (keys : List K) :
    (kept ts ps keys).map Prod.snd = (own ps keys).map Prod.snd := by
  induction ps generalizing ts keys with
  | nil => rfl
  | cons p ps ih =>
      cases keys with
      | nil => cases p <;> rfl
      | cons k keys =>
          cases p with
          | lit l => exact ih _ keys
          | wild n => exact congrArg (k :: ·) (ih _ keys)

omit [DecidableEq K] in
theorem map_fst_own (ps : List (Part K N)) :
    ((own ps keys).map Prod.fst).Sublist (ps.filterMap Part.name?) := by
  induction ps generalizing keys with
  | nil => exact List.nil_sublist _
  | cons p ps ih =>
      cases keys with
      | nil => cases p <;> exact List.nil_sublist _
      | cons k keys =>
          cases p with
          | lit l => exact ih
          | wild n => exact ih.cons_cons n

omit [DecidableEq K] in
theorem reaches_of_follow {t : Trie K N V} (h : follow t keys = some (v, names)) :
    Reaches t keys v := by
  induction keys generalizing t names with
  | nil =>
      obtain ⟨w, hw, heq⟩ := Option.map_eq_some_iff.mp h
      cases heq
      exact .here hw
  | cons k keys ih =>
      rw [follow] at h
      cases hc : t.children k with
      | some c =>
          simp only [hc] at h
          exact .lit hc (ih h)
      | none =>
          simp only [hc] at h
          obtain ⟨⟨n, c⟩, hw, h⟩ := Option.bind_eq_some_iff.mp h
          obtain ⟨⟨u, bs⟩, hf, heq⟩ := Option.map_eq_some_iff.mp h
          cases heq
          exact .wild hw (ih hf)

theorem fits_of_reaches_build {u : V} (h : Reaches (build ts) keys u) :
    ∃ e ∈ ts, e.2 = u ∧ List.Forall₂ Part.Fits e.1 keys := by
  induction ts using List.reverseRecOn with
  | nil => exact absurd h not_reaches_empty
  | append_singleton ts e ih =>
      rw [build_concat] at h
      rcases reaches_insert h with h | ⟨rfl, hfit⟩
      · obtain ⟨e', hm, hu⟩ := ih h
        exact ⟨e', List.mem_append_left _ hm, hu⟩
      · exact ⟨e, List.mem_append_right _ List.mem_cons_self, rfl, hfit⟩

theorem fits_of_follow (h : follow (build ts) keys = some (v, names)) :
    ∃ e ∈ ts, List.Forall₂ Part.Fits e.1 keys := by
  obtain ⟨e, hm, _, hf⟩ := fits_of_reaches_build (reaches_of_follow h)
  exact ⟨e, hm, hf⟩

theorem follow_iff {b : Entry K N V} (h : Preferred ts keys b) :
    follow (build ts) keys = some (v, names) ↔
    clear ts b.1 keys = true ∧ v = b.2 ∧ names = kept ts b.1 keys := by
  obtain ⟨ps, u⟩ := b
  induction ps generalizing ts keys names with
  | nil =>
      cases h.fits
      obtain ⟨_, hfirst⟩ := preferred_nil_iff.mp h
      rw [follow, value_build, hfirst]
      simp [clear, kept, eq_comm]
  | cons p ps ih =>
      cases keys with
      | nil => cases h.fits
      | cons k keys =>
          cases p with
          | lit l =>
              obtain rfl : l = k := (List.forall₂_cons.mp h.fits).1
              have hb := preferred_lit h
              have hne : (along [.lit l] ts).isEmpty = false := by
                rw [List.isEmpty_eq_false_iff]
                exact List.ne_nil_of_mem (List.mem_of_find?_eq_some hb.first)
              rw [follow, children_build, hne]
              exact ih hb
          | wild n =>
              rw [follow, children_build, clear, kept]
              cases hempty : (along [.lit k] ts).isEmpty with
              | true =>
                  obtain ⟨m, hm⟩ := firstName_of_mem (List.mem_of_find?_eq_some h.first)
                  have hih (bs : List (N × K)) : follow (build (along [.wild n] ts)) keys =
                    some (v, bs) ↔
                      clear (along [.wild n] ts) ps keys = true ∧ v = u ∧
                        bs = kept (along [.wild n] ts) ps keys :=
                    ih (preferred_wild n h)
                  rw [wild_build ts n, hm]
                  simp only [if_true, Option.map_some, Option.bind_some, Option.getD_some,
                    Bool.true_and]
                  constructor
                  · intro hf
                    obtain ⟨⟨w, bs⟩, hw, heq⟩ := Option.map_eq_some_iff.mp hf
                    cases heq
                    obtain ⟨hc, hv, rfl⟩ := (hih bs).mp hw
                    exact ⟨hc, hv, rfl⟩
                  · rintro ⟨hc, hv, rfl⟩
                    rw [(hih _).mpr ⟨hc, hv, rfl⟩]
                    rfl
              | false =>
                  simp only [Bool.false_eq_true, if_false, Bool.false_and, false_and, iff_false]
                  intro hf
                  obtain ⟨e, he, hfits⟩ := fits_of_follow hf
                  exact not_fits_of_preferred_wild h he hfits

end Follow

end ZenZip.Lib.Trie
