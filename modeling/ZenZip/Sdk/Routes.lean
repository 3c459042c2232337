import ZenZip.Lib.Patterns
import ZenZip.Sdk.Router
import Mathlib.Data.List.Nodup
import Mathlib.Data.List.Perm.Subperm

namespace ZenZip

open Lib

abbrev Named := List Char × List Char

def Decoded (x y : Named) : Prop := y.1 = x.1 ∧ decodeURIComponent x.2 = .ok y.2

def setParams (params : Params) (ys : List Named) : Params :=
  ys.foldl (fun p y => setParam p y.1 y.2) params

namespace RouteNode

variable {H : Type}

theorem descend_eq_some_iff {node : RouteNode H} {params params' : Params} {segs : List (List Char)}
    {h : H} :
    descend node params segs = .ok (some (h, params')) ↔
      ∃ xs ys, node.follow segs = some (h, xs) ∧ List.Forall₂ Decoded xs ys ∧
      params' = setParams params ys := by
  induction segs generalizing node params with
  | nil =>
      rw [descend, Trie.follow]
      cases node.value with
      | none => simp
      | some v =>
          constructor
          · intro hd
            cases hd
            exact ⟨[], [], rfl, .nil, rfl⟩
          · rintro ⟨xs, ys, hf, hxy, rfl⟩
            cases hf
            cases hxy
            rfl
  | cons seg segs ih =>
      rw [descend, Trie.follow]
      cases hc : node.children seg with
      | some child => exact ih
      | none =>
          cases hw : node.wild with
          | none => simp
          | some w =>
              obtain ⟨name, child⟩ := w
              simp only [Option.bind_some]
              constructor
              · intro hd
                cases hv : decodeURIComponent seg with
                | error e =>
                    simp only [hv] at hd
                    cases hd
                | ok v =>
                    simp only [hv] at hd
                    obtain ⟨xs, ys, hf, hxy, rfl⟩ := ih.mp hd
                    exact ⟨(name, seg) :: xs, (name, v) :: ys, by rw [hf]; rfl,
                      .cons ⟨rfl, hv⟩ hxy, rfl⟩
              · rintro ⟨xs, ys, hf, hxy, rfl⟩
                obtain ⟨⟨u, xs'⟩, hchild, heq⟩ := Option.map_eq_some_iff.mp hf
                cases heq
                cases hxy with
                | @cons _ y _ ys hy hxy =>
                    obtain ⟨name', v⟩ := y
                    obtain ⟨rfl, hv⟩ := hy
                    simp only [hv]
                    exact ih.mpr ⟨xs', ys, hchild, hxy, rfl⟩

end RouteNode

theorem mem_of_setParams {ys : List Named} {name text : List Char}
    (h : setParams (fun _ => none) ys name = some text) :
    (name, text) ∈ ys ∧ name ≠ "__proto__".toList := by
  induction ys using List.reverseRecOn with
  | nil => cases h
  | append_singleton ys y ih =>
      rw [setParams, List.foldl_append] at h
      change setParam (setParams _ ys) y.1 y.2 name = some text at h
      unfold setParam at h
      split at h
      · obtain ⟨hm, hn⟩ := ih h
        exact ⟨List.mem_append_left _ hm, hn⟩
      · next hn =>
          by_cases hname : name = y.1
          · subst hname
            rw [Function.update_self] at h
            cases h
            exact ⟨List.mem_append_right _ List.mem_cons_self, hn⟩
          · rw [Function.update_of_ne hname] at h
            obtain ⟨hm, hn⟩ := ih h
            exact ⟨List.mem_append_left _ hm, hn⟩

theorem setParams_of_mem {ys : List Named} {name text : List Char} (hnd : (ys.map Prod.fst).Nodup)
    (hn : name ≠ "__proto__".toList) (h : (name, text) ∈ ys) :
    setParams (fun _ => none) ys name = some text := by
  induction ys using List.reverseRecOn with
  | nil => cases h
  | append_singleton ys y ih =>
      rw [List.map_append, List.nodup_append] at hnd
      obtain ⟨hys, _, hdisj⟩ := hnd
      rw [setParams, List.foldl_append]
      change setParam (setParams _ ys) y.1 y.2 name = some text
      rcases List.mem_append.mp h with hm | hm
      · have hne := hdisj name (List.mem_map_of_mem hm) y.1 (List.mem_map_of_mem List.mem_cons_self)
        unfold setParam
        split
        · exact ih hys hm
        · rw [Function.update_of_ne hne]
          exact ih hys hm
      · obtain rfl := List.mem_singleton.mp hm
        rw [setParam, if_neg hn, Function.update_self]

theorem mem_decoded {xs ys : List Named} (h : List.Forall₂ Decoded xs ys) {name text : List Char} :
    (name, text) ∈ ys ↔ ∃ seg, (name, seg) ∈ xs ∧ decodeURIComponent seg = .ok text := by
  induction h with
  | nil => simp
  | @cons x y xs ys hxy _ ih =>
      obtain ⟨n, seg⟩ := x
      obtain ⟨n', t⟩ := y
      obtain ⟨rfl, hseg⟩ := hxy
      simp only [List.mem_cons, ih]
      constructor
      · rintro (heq | ⟨seg', hm, ht⟩)
        · cases heq
          exact ⟨seg, .inl rfl, hseg⟩
        · exact ⟨seg', .inr hm, ht⟩
      · rintro ⟨seg', heq | hm, ht⟩
        · cases heq
          cases hseg.symm.trans ht
          exact .inl rfl
        · exact .inr ⟨seg', hm, ht⟩

theorem exists_decoded_iff {xs : List Named} :
    (∃ ys, List.Forall₂ Decoded xs ys) ↔ ∀ x ∈ xs, ∃ text, decodeURIComponent x.2 = .ok text := by
  induction xs with
  | nil => exact ⟨fun _ x hx => (List.not_mem_nil hx).elim, fun _ => ⟨[], .nil⟩⟩
  | cons x xs ih =>
      rw [List.forall_mem_cons, ← ih]
      constructor
      · rintro ⟨_, h⟩
        cases h with
        | cons hxy h => exact ⟨⟨_, hxy.2⟩, _, h⟩
      · rintro ⟨⟨text, ht⟩, ys, hys⟩
        exact ⟨(x.1, text) :: ys, .cons ⟨rfl, ht⟩ hys⟩

theorem map_fst_decoded {xs ys : List Named} (h : List.Forall₂ Decoded xs ys) :
    ys.map Prod.fst = xs.map Prod.fst := by
  induction h with
  | nil => rfl
  | cons hxy _ ih => rw [List.map_cons, List.map_cons, hxy.1, ih]

theorem perm_of_subset {xs ys : List Named} (hnd : (xs.map Prod.fst).Nodup)
    (hlen : ys.length = xs.length) (h : xs ⊆ ys) :
    xs.Perm ys :=
  (List.subperm_of_subset (List.Nodup.of_map Prod.fst hnd) h).perm_of_length_le hlen.le

/-- The router after `add` calls; one that throws leaves it as it is. -/
def HttpRouter.addAll {H : Type} (rs : List (Route H)) : HttpRouter H :=
  rs.foldl (fun r a => (r.add a.method a.path a.handler).toOption.getD r) .empty

abbrev Pattern := List (Trie.Part (List Char) (List Char))

def Route.pattern {H : Type} (a : Route H) : Pattern := (pathSegments a.path).map part

def patterns {H : Type} (rs : List (Route H)) (method : List Char) : List (Pattern × H) :=
  (rs.filter (fun a => a.path.head? = some '/' ∧ toUpperCase a.method = method)).map
    (fun a => (a.pattern, a.handler))

namespace HttpRouter

variable {H : Type} (rs : List (Route H)) (method : List Char)

theorem trees_addAll : (addAll rs).trees method =
    if (patterns rs method).isEmpty then none else some (Trie.build (patterns rs method)) := by
  induction rs using List.reverseRecOn with
  | nil => rfl
  | append_singleton rs a ih =>
      have hall : addAll (rs ++ [a]) =
        ((addAll rs).add a.method a.path a.handler).toOption.getD (addAll rs) := by
        rw [addAll, List.foldl_append]
        rfl
      have happ : patterns (rs ++ [a]) method = patterns rs method ++ patterns [a] method := by
        rw [patterns, List.filter_append, List.map_append, patterns, patterns]
      have hskip (hnil : patterns [a] method = [])
        (ht : (addAll (rs ++ [a])).trees method = (addAll rs).trees method) :
          (addAll (rs ++ [a])).trees method = if (patterns (rs ++ [a]) method).isEmpty then none
            else some (Trie.build (patterns (rs ++ [a]) method)) := by
        rw [happ, hnil, List.append_nil, ht, ih]
      by_cases hpath : a.path.head? = some '/'
      · by_cases hmethod : toUpperCase a.method = method
        · have hone : patterns [a] method = [(a.pattern, a.handler)] := by
            simp [patterns, hpath, hmethod]
          have hroot : ((addAll rs).trees method).getD .empty =
            Trie.build (patterns rs method) := by
            rw [ih]
            cases patterns rs method <;> rfl
          rw [hall, HttpRouter.add, if_neg (not_not_intro hpath), happ, hone, Trie.build_concat]
          subst hmethod
          simp only [Except.toOption, Option.getD_some, Function.update_self, hroot]
          simp [Route.pattern]
        · apply hskip
          · rw [patterns, List.filter_cons_of_neg (by simp [hmethod])]
            rfl
          · rw [hall, HttpRouter.add, if_neg (not_not_intro hpath)]
            exact Function.update_of_ne (Ne.symm hmethod) _ _
      · apply hskip
        · rw [patterns, List.filter_cons_of_neg (by simp [hpath])]
          rfl
        · rw [hall, HttpRouter.add, if_pos hpath]
          rfl

theorem match?_addAll (path : List Char) : (addAll rs).match? method path =
    RouteNode.descend (Trie.build (patterns rs method)) (fun _ => none) (pathSegments path) := by
  rw [match?_eq_descend, trees_addAll]
  cases patterns rs method with
  | nil => cases pathSegments path <;> rfl
  | cons e es => rfl

structure Implements (r : HttpRouter H) (ts : List (Pattern × H)) (method path : List Char) :
    Prop where
  found : (∃ handler params, r.match? method path = .ok (some (handler, params))) ↔
    ∃ e ∈ ts, List.Forall₂ Trie.Part.Fits e.1 (pathSegments path)
  chosen : ∀ handler params, r.match? method path = .ok (some (handler, params)) →
    ∃ b, Trie.Preferred ts (pathSegments path) b ∧ handler = b.2 ∧ ∀ name text,
      params name = some text ↔
      ∃ seg, (name, seg) ∈ Trie.own b.1 (pathSegments path) ∧ decodeURIComponent seg = .ok text

/-- The preferred pattern is not hidden by a static part of another one, its segments decode, and
the names kept for them are its own, up to an order that does not show. -/
def Respected (ts : List (Pattern × H)) (segs : List (List Char)) : Prop :=
  ∀ b, Trie.Preferred ts segs b → Trie.clear ts b.1 segs = true ∧ ∀ x ∈ Trie.own b.1 segs,
    x.1 ≠ "__proto__".toList ∧ (∃ text, decodeURIComponent x.2 = .ok text) ∧
      ∃ y ∈ Trie.kept ts b.1 segs, y.1 = x.1 ∧ decodeURIComponent y.2 = decodeURIComponent x.2

variable {rs method} {path : List Char} {handler : H} {params : Params}

theorem match?_addAll_iff : (addAll rs).match? method path = .ok (some (handler, params)) ↔
    ∃ xs ys, (Trie.build (patterns rs method)).follow (pathSegments path) = some (handler, xs) ∧
      List.Forall₂ Decoded xs ys ∧ params = setParams (fun _ => none) ys := by
  rw [match?_addAll, RouteNode.descend_eq_some_iff]

theorem exists_own {ts : List (Pattern × H)} {ps : Pattern} {segs : List (List Char)} {y : Named}
    (h : y ∈ Trie.kept ts ps segs) : ∃ x ∈ Trie.own ps segs, x.2 = y.2 := by
  have hm := List.mem_map_of_mem (f := Prod.snd) h
  rw [Trie.map_snd_kept] at hm
  exact List.mem_map.mp hm

theorem exists_kept (ts : List (Pattern × H)) {ps : Pattern} {segs : List (List Char)} {x : Named}
    (h : x ∈ Trie.own ps segs) : ∃ y ∈ Trie.kept ts ps segs, y.2 = x.2 := by
  have hm := List.mem_map_of_mem (f := Prod.snd) h
  rw [← Trie.map_snd_kept ts] at hm
  exact List.mem_map.mp hm

theorem respected_of_implements (h : Implements (addAll rs) (patterns rs method) method path) :
    Respected (patterns rs method) (pathSegments path) := by
  intro b hb
  obtain ⟨handler, params, hm⟩ := h.found.mpr ⟨b, List.mem_of_find?_eq_some hb.first, hb.fits⟩
  obtain ⟨b', hb', _, hparams⟩ := h.chosen handler params hm
  obtain rfl := hb'.unique hb
  obtain ⟨xs, ys, hf, hxy, rfl⟩ := match?_addAll_iff.mp hm
  obtain ⟨hclear, _, rfl⟩ := (Trie.follow_iff hb).mp hf
  refine ⟨hclear, fun x hx => ?_⟩
  obtain ⟨y, hy, hyx⟩ := exists_kept (patterns rs method) hx
  obtain ⟨text, ht⟩ := exists_decoded_iff.mp ⟨ys, hxy⟩ y hy
  rw [hyx] at ht
  obtain ⟨hm, hn⟩ := mem_of_setParams ((hparams x.1 text).mpr ⟨x.2, hx, ht⟩)
  obtain ⟨seg, hseg, hdec⟩ := (mem_decoded hxy).mp hm
  exact ⟨hn, ⟨text, ht⟩, _, hseg, rfl, hdec.trans ht.symm⟩

theorem setParams_kept {ts : List (Pattern × H)} {segs : List (List Char)} {b : Pattern × H}
    (hd : (b.1.filterMap Trie.Part.name?).Nodup)
    (hown : ∀ x ∈ Trie.own b.1 segs, x.1 ≠ "__proto__".toList ∧
      (∃ text, decodeURIComponent x.2 = .ok text) ∧
      ∃ y ∈ Trie.kept ts b.1 segs, y.1 = x.1 ∧ decodeURIComponent y.2 = decodeURIComponent x.2)
    {ys : List Named} (hys : List.Forall₂ Decoded (Trie.kept ts b.1 segs) ys)
    (name text : List Char) :
    setParams (fun _ => none) ys name = some text ↔
      ∃ seg, (name, seg) ∈ Trie.own b.1 segs ∧ decodeURIComponent seg = .ok text := by
  obtain ⟨zs, hzs⟩ := exists_decoded_iff.mpr (fun x hx => (hown x hx).2.1)
  have hnd : (zs.map Prod.fst).Nodup := by
    rw [map_fst_decoded hzs]
    exact (Trie.map_fst_own b.1).nodup hd
  have hlen : ys.length = zs.length := by
    have h := congrArg List.length (Trie.map_snd_kept ts b.1 segs)
    rw [List.length_map, List.length_map] at h
    rw [← hys.length_eq, ← hzs.length_eq, h]
  have hperm : zs.Perm ys := by
    apply perm_of_subset hnd hlen
    intro z hz
    obtain ⟨seg, hm, ht⟩ := (mem_decoded hzs).mp hz
    obtain ⟨_, _, y, hy, hname, hdec⟩ := hown _ hm
    exact (mem_decoded hys).mpr ⟨y.2, by rw [← hname]; exact hy, hdec.trans ht⟩
  rw [← mem_decoded hzs]
  constructor
  · intro h
    exact hperm.mem_iff.mpr (mem_of_setParams h).1
  · intro h
    obtain ⟨seg, hm, _⟩ := (mem_decoded hzs).mp h
    exact setParams_of_mem ((hperm.map Prod.fst).nodup_iff.mp hnd) (hown _ hm).1
      (hperm.mem_iff.mp h)

theorem implements_of_respected
    (hd : ∀ e ∈ patterns rs method, (e.1.filterMap Trie.Part.name?).Nodup)
    (h : Respected (patterns rs method) (pathSegments path)) :
    Implements (addAll rs) (patterns rs method) method path where
  found := by
    constructor
    · rintro ⟨handler, params, hm⟩
      obtain ⟨xs, ys, hf, _, _⟩ := match?_addAll_iff.mp hm
      exact Trie.fits_of_follow hf
    · rintro ⟨e, he, hfits⟩
      obtain ⟨b, hb⟩ := Trie.exists_preferred he hfits
      obtain ⟨hclear, hown⟩ := h b hb
      have hkept : ∀ y ∈ Trie.kept (patterns rs method) b.1 (pathSegments path), ∃ text,
        decodeURIComponent y.2 = .ok text := by
        intro y hy
        obtain ⟨x, hx, hxy⟩ := exists_own hy
        rw [← hxy]
        exact (hown x hx).2.1
      obtain ⟨ys, hys⟩ := exists_decoded_iff.mpr hkept
      exact ⟨b.2, _,
        match?_addAll_iff.mpr ⟨_, ys, (Trie.follow_iff hb).mpr ⟨hclear, rfl, rfl⟩, hys, rfl⟩⟩
  chosen handler params hm := by
    obtain ⟨xs, ys, hf, hys, rfl⟩ := match?_addAll_iff.mp hm
    obtain ⟨e, he, hfits⟩ := Trie.fits_of_follow hf
    obtain ⟨b, hb⟩ := Trie.exists_preferred he hfits
    obtain ⟨_, rfl, rfl⟩ := (Trie.follow_iff hb).mp hf
    exact ⟨b, hb, rfl, setParams_kept (hd b (List.mem_of_find?_eq_some hb.first)) (h b hb).2 hys⟩

/-- For every table and path a match is the one of the linear specification exactly when the
preferred pattern is respected. -/
theorem implements_iff (rs : List (Route H))
    (hd : ∀ a ∈ rs, (a.pattern.filterMap Trie.Part.name?).Nodup)
    (method path : List Char) : Implements (addAll rs) (patterns rs method) method path ↔
      Respected (patterns rs method) (pathSegments path) := by
  refine ⟨respected_of_implements, implements_of_respected ?_⟩
  intro e he
  obtain ⟨a, ha, rfl⟩ := List.mem_map.mp he
  exact hd a (List.mem_of_mem_filter ha)

def users : List (Route Nat) :=
  [⟨"GET".toList, "/users/:id".toList, 0⟩, ⟨"GET".toList, "/users/me".toList, 1⟩]

theorem implements_users : Implements (addAll users)
    (patterns users "GET".toList) "GET".toList "/users/7".toList := by
  refine (implements_iff users (by decide) "GET".toList "/users/7".toList).mpr fun b hb => ?_
  have hmem :
    b ∈ [([.lit "users".toList, .wild "id".toList], 0),
      ([.lit "users".toList, .lit "me".toList], 1)] :=
    List.mem_of_find?_eq_some hb.first
  have hfits : List.Forall₂ Trie.Part.Fits b.1 ["users".toList, "7".toList] := hb.fits
  rcases List.mem_cons.mp hmem with rfl | hmem
  · refine ⟨rfl, fun x hx => ?_⟩
    obtain rfl : x = ("id".toList, "7".toList) := List.mem_singleton.mp hx
    exact ⟨by decide, ⟨"7".toList, rfl⟩, _, List.mem_singleton.mpr rfl, rfl, rfl⟩
  · obtain rfl := List.mem_singleton.mp hmem
    simp [Trie.Part.Fits] at hfits

def crossed : List (Route Nat) :=
  [⟨"GET".toList, "/a/b".toList, 0⟩, ⟨"GET".toList, "/:x/c".toList, 1⟩]

/-- The static part of one pattern hides another one that fits. -/
theorem not_implements_crossed :
    ¬ ∀ rs : List (Route Nat), (∀ a ∈ rs, (a.pattern.filterMap Trie.Part.name?).Nodup) →
    ∀ method path, Implements (addAll rs) (patterns rs method) method path := by
  intro h
  have hfound := (h crossed (by decide) "GET".toList "/a/c".toList).found
  have hmem : ([.wild "x".toList, .lit "c".toList], 1) ∈ patterns crossed "GET".toList :=
    List.mem_cons_of_mem _ List.mem_cons_self
  obtain ⟨handler, params, hm⟩ := hfound.mpr ⟨_, hmem, .cons trivial (.cons rfl .nil)⟩
  have hnone : (addAll crossed).match? "GET".toList "/a/c".toList = .ok none := by
    rw [match?_addAll]
    rfl
  rw [hnone] at hm
  cases hm

end HttpRouter

end ZenZip
