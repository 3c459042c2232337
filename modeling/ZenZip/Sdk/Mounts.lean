import ZenZip.Sdk.Chain

namespace ZenZip

open Lib

variable {H B : Type}

def isParam (seg : List Char) : Bool := seg.head? = some ':'

/-- A pattern at or under a mount, segment by segment; a parameter of the mount stands
over any segment. -/
def liesUnder : List (List Char) → List (List Char) → Bool
  | [], _ => true
  | _ :: _, [] => false
  | m :: mount, s :: pattern => (m = s || isParam m) && liesUnder mount pattern

/-- Between slashes, empty where the mount is empty, and the parameters of the mount as
they are written. -/
def spelledLike : List (List Char) → List (List Char) → Bool
  | [], _ => true
  | _ :: _, [] => false
  | m :: mount, s :: path =>
      (m.isEmpty = s.isEmpty && (!isParam m || m = s)) && spelledLike mount path

theorem part_of_not_isParam {seg : List Char} (h : isParam seg = false) : part seg = .lit seg := by
  unfold part
  split
  · cases h
  · rfl

/-- A path that fits a pattern under the mount starts with the text of the mount exactly
where it is spelled like it. -/
theorem prefix_iff_spelledLike {mount pattern path : List (List Char)}
    (hc : liesUnder (mount.filter (· ≠ [])) pattern = true)
    (hf : List.Forall₂ Trie.Part.Fits (pattern.map part) (path.filter (· ≠ []))) :
    mount <+: path ↔ spelledLike mount path = true := by
  induction mount generalizing path pattern with
  | nil => exact iff_of_true List.nil_prefix rfl
  | cons m mount ih =>
      cases path with
      | nil => exact iff_of_false (by simp) (by simp [spelledLike])
      | cons s path =>
          rw [List.cons_prefix_cons, spelledLike, Bool.and_eq_true]
          by_cases hm : m = []
          · subst hm
            by_cases hs : s = []
            · subst hs
              rw [List.filter_cons_of_neg (by simp)] at hc hf
              exact and_congr (by simp [isParam]) (ih hc hf)
            · apply iff_of_false
              · rintro ⟨he, _⟩
                exact hs he.symm
              · rintro ⟨he, _⟩
                simp [hs] at he
          · by_cases hs : s = []
            · subst hs
              apply iff_of_false
              · rintro ⟨he, _⟩
                exact hm he
              · rintro ⟨he, _⟩
                simp [hm] at he
            · rw [List.filter_cons_of_pos (by simpa using hm)] at hc
              rw [List.filter_cons_of_pos (by simpa using hs)] at hf
              cases pattern with
              | nil => cases hc
              | cons p pattern =>
                  rw [liesUnder, Bool.and_eq_true, Bool.or_eq_true, decide_eq_true_eq] at hc
                  rw [List.map_cons, List.forall₂_cons] at hf
                  apply and_congr _ (ih hc.2 hf.2)
                  have hlen : m.isEmpty = s.isEmpty := by
                    rw [List.isEmpty_eq_false_iff.mpr hm, List.isEmpty_eq_false_iff.mpr hs]
                  cases hp : isParam m with
                  | true => simp [hlen]
                  | false =>
                      -- the trie compares literal segments, so they agree by now
                      have he : m = s := by
                        rcases hc.1 with rfl | hpar
                        · have hfit := hf.1
                          rw [part_of_not_isParam hp] at hfit
                          exact hfit
                        · rw [hp] at hpar
                          cases hpar
                      simp [he]

namespace MiddlewareLayer

variable {layer : MiddlewareLayer B} {r : Route H} {path : List Char}

def covers (layer : MiddlewareLayer B) (r : Route H) : Bool :=
  liesUnder (mountSegments layer.path) (pathSegments r.path)

/-- The path has its slashes where the mount path has them, and the parameters of the
mount path are in it as they are written. -/
def spelled (layer : MiddlewareLayer B) (path : List Char) : Bool :=
  match layer.path with
  | none => true
  | some mount =>
      mount = ['/'] || mount = [] || spelledLike ((stripSlash mount).splitOn '/') (path.splitOn '/')

theorem pathMatches_iff {mount : List Char} (h : ¬(mount = ['/'] ∨ mount = [])) :
    pathMatches mount path = true ↔ (stripSlash mount).splitOn '/' <+: path.splitOn '/' := by
  rw [pathMatches, if_neg h, Text.splitOn_prefix_iff, Bool.or_eq_true, decide_eq_true_eq,
    List.isPrefixOf_iff_prefix]

theorem accepts_iff_spelled (hc : layer.covers r = true)
    (hf : List.Forall₂ Trie.Part.Fits ((pathSegments r.path).map part) (pathSegments path)) :
    layer.accepts path = true ↔ layer.spelled path = true := by
  rw [covers] at hc
  rw [accepts, spelled]
  cases hmount : layer.path with
  | none => exact Iff.rfl
  | some mount =>
      by_cases hroot : mount = ['/'] ∨ mount = []
      · have hmatch : pathMatches mount path = true := by
          rw [pathMatches, if_pos hroot]
        rcases hroot with rfl | rfl <;> simp [hmatch]
      · rw [hmount, mountSegments, Option.getD_some, ← pathSegments_stripSlash] at hc
        have hprefix := (pathMatches_iff hroot).trans (prefix_iff_spelledLike hc hf)
        obtain ⟨h1, h2⟩ := not_or.mp hroot
        simp [h1, h2, hprefix]

end MiddlewareLayer

/-- Of the requests that resolve to a route under its mount path, a layer takes, and runs
ahead of the handler for, those whose path is spelled like the mount path. -/
theorem runs_before_iff {app : App H B} (hb : app.Built) {layer : MiddlewareLayer B}
    (hl : layer ∈ app.middleware)
    {method path : List Char} {r : Route H} {params : Params}
    (hm : app.router.match? method path = .ok (some (r, params))) (hc : layer.covers r = true) :
    (layer.accepts path = true ↔ layer.spelled path = true) ∧
    ∀ c, Chain.Reached app.middleware path c → ∀ front back, c.trace = front ++ .dispatch :: back →
    layer.isError = false →
      (.handle layer ∈ front ↔ layer.spelled path = true) := by
  have hspelled := layer.accepts_iff_spelled hc (hb.fits hm).2
  constructor
  · exact hspelled
  · intro c hreached front back htrace herror
    exact (hreached.handled_iff htrace hl herror).trans hspelled

section Sample

def auth : Middleware Unit := ⟨3, ()⟩

def guarded : App Unit Unit :=
  ((App.empty.use (some "/api/admin".toList) [.fn auth]).1.get "/api/admin/x".toList ()).1

theorem guarded_built : guarded.Built :=
  (Run.refl.snoc (l := .use (some "/api/admin".toList) [.fn auth]) rfl rfl).snoc
    (l := .route "GET".toList "/api/admin/x".toList ()) rfl rfl

def adminLayer : MiddlewareLayer Unit := middlewareLayer auth (some "/api/admin".toList)

def adminRoute : Route Unit := ⟨"GET".toList, "/api/admin/x".toList, ()⟩

theorem guarded_match : guarded.router.match? "GET".toList "/api/admin/x".toList = .ok
    (some (adminRoute, fun _ => none)) := by
  rw [HttpRouter.match?_eq_descend]
  rfl

theorem runs_before_iff_admin : adminLayer.accepts "/api/admin/x".toList = true ∧
    ∃ c front, Chain.Reached guarded.middleware "/api/admin/x".toList c ∧
    c.trace = front ++ [.dispatch] ∧
      .handle adminLayer ∈ front := by
  have hspelled : adminLayer.spelled "/api/admin/x".toList = true := by decide +kernel
  have hmem : adminLayer ∈ guarded.middleware := List.mem_cons_self
  have hiff := runs_before_iff guarded_built hmem guarded_match (by decide +kernel)
  constructor
  · exact hiff.1.mpr hspelled
  · have hreached : Chain.Reached guarded.middleware "/api/admin/x".toList _ :=
      Run.refl.snoc (l := .next) rfl rfl
    exact ⟨_, [.handle adminLayer], hreached, rfl, (hiff.2 _ hreached _ _ rfl rfl).mpr hspelled⟩

/-- A doubled slash gets past the layer to the handler. -/
theorem doubled_slash_skips_auth :
    guarded.Built ∧ adminLayer ∈ guarded.middleware ∧ adminLayer.isError = false ∧
    adminLayer.covers adminRoute = true ∧
    (∃ params, guarded.router.match? "GET".toList "/api//admin/x".toList =
    .ok (some (adminRoute, params))) ∧
    adminLayer.accepts "/api//admin/x".toList = false ∧
    ∃ c, Chain.Reached guarded.middleware "/api//admin/x".toList c ∧ c.trace = [.dispatch] := by
  refine ⟨guarded_built, List.mem_cons_self, rfl, by decide +kernel, ?_, by decide +kernel, _,
    Run.refl, rfl⟩
  exact ⟨_, (HttpRouter.match?_congr _ _ (by decide +kernel)).trans guarded_match⟩

end Sample

end ZenZip
