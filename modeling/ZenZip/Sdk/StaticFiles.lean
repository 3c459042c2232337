import ZenZip.Lib.PosixPath
import ZenZip.Sdk.HttpRouter

namespace ZenZip

open Lib PosixPath

/-- What `statSync` finds at a path. It throws where there is nothing. -/
inductive EntryKind
  | file
  | directory
  | other
deriving DecidableEq

abbrev StatSync := List Char → Option EntryKind

def mimeTypes : List (String × String) :=
  [(".html", "text/html; charset=utf-8"), (".js", "text/javascript; charset=utf-8"),
    (".mjs", "text/javascript; charset=utf-8"),
    (".css", "text/css; charset=utf-8"), (".json", "application/json; charset=utf-8"),
      (".map", "application/json; charset=utf-8"),
    (".txt", "text/plain; charset=utf-8"), (".svg", "image/svg+xml"), (".png", "image/png"),
      (".jpg", "image/jpeg"),
    (".jpeg", "image/jpeg"), (".gif", "image/gif"), (".webp", "image/webp"),
      (".ico", "image/x-icon"), (".woff", "font/woff"),
    (".woff2", "font/woff2"), (".wasm", "application/wasm")]

def mimeOf (file : List Char) : String :=
  (mimeTypes.lookup (String.ofList ((extname file).map Char.toLower))).getD
    "application/octet-stream"

/-- `index` and `prefix`, where the empty text is as good as none. -/
structure StaticOptions where
  index : Option (List Char) := some "index.html".toList
  mount : List Char := []

namespace StaticOptions

def mountPath (options : StaticOptions) : List Char :=
  if options.mount.getLast? = some '/' then options.mount.dropLast else options.mount

/-- What is left of a request's path behind the mount. -/
def rel (options : StaticOptions) (path : List Char) : Option (List Char) :=
  if options.mount = [] then some path
  else if path ≠ options.mountPath ∧ ¬ options.mountPath ++ ['/'] <+: path then none
  else if path.drop options.mountPath.length = [] then some ['/']
  else some (path.drop options.mountPath.length)

def directoryIndex (options : StaticOptions) : Option (List Char) := options.index.filter (· ≠ [])

end StaticOptions

/-- An answer with a file; a HEAD request gets no body. -/
structure ServedFile where
  file : List Char
  contentType : String
  body : Bool
deriving DecidableEq

def pickIndex (options : StaticOptions) (stat : StatSync) (target : List Char) :
    Option (List Char) :=
  match options.directoryIndex with
  | none => none
  | some index =>
      if stat (join [target, index]) = some .file then some (join [target, index]) else none

def ServedFile.answer (method : String) (file : List Char) : ServedFile :=
  ⟨file, mimeOf file, method = "GET"⟩

/-- The file for a path that is within the root, or the index of the directory there. -/
def pickFile (options : StaticOptions) (stat : StatSync) (target : List Char) :
    Option (List Char) :=
  match stat target with
  | none | some .other => none
  | some .file => some target
  | some .directory => pickIndex options stat target

def targetOf (rootDir decoded : List Char) : List Char :=
  join [rootDir, (normalize decoded).dropWhile (fun c => c = '/' ∨ c = '\\')]

/-- The middleware of `serveStatic(root, options)`; without an answer it calls `next`. -/
def serveStatic (cwd root : List Char) (options : StaticOptions) (stat : StatSync) (method : String)
    (path : List Char) :
    Option ServedFile :=
  let rootDir := resolve cwd root
  if method ≠ "GET" ∧ method ≠ "HEAD" then none
  else
    match options.rel path with
    | none => none
    | some rel =>
      match decodeURIComponent rel with
      | .error _ => none
      | .ok decoded =>
        let target := targetOf rootDir decoded
        -- an attempt to leave the root is not answered
        if target ≠ rootDir ∧ ¬ rootDir ++ ['/'] <+: target then none
        else (pickFile options stat target).map (ServedFile.answer method)

def rootNames (cwd root : List Char) : List Path :=
  resolveNames true ((if isAbsolute root then root else cwd ++ '/' :: root).splitOn '/')

theorem proper_resolved (path : List Char) : ∀ x ∈ resolveNames true (path.splitOn '/'), Proper x :=
  proper_resolveNames fun _ hx => Text.not_mem_of_mem_splitOn hx

theorem proper_rootNames (cwd root : List Char) : ∀ x ∈ rootNames cwd root, Proper x :=
  proper_resolved _

theorem resolve_eq (cwd root : List Char) :
    resolve cwd root = render true (rootNames cwd root) false := rfl

section Contained

variable {names below : List Path} {options : StaticOptions} {stat : StatSync}
  {target file : List Char}

theorem targetOf_eq (hnames : ∀ x ∈ names, Proper x) (decoded : List Char) :
    ∃ resolved trailing, (∀ x ∈ resolved, Proper x) ∧
      targetOf (render true names false) decoded = render true resolved trailing := by
  refine ⟨_, _, ?_, join_render hnames _⟩
  intro x hx
  refine proper_foldl (fun y hy => Text.not_mem_of_mem_splitOn hy) ?_ x (List.mem_reverse.mp hx)
  exact fun y hy => hnames y (List.mem_reverse.mp hy)

theorem contained_iff {resolved : List Path} {trailing : Bool} (hnames : ∀ x ∈ names, Proper x)
    (hresolved : ∀ x ∈ resolved, Proper x) :
    (render true resolved trailing = render true names false ∨
    render true names false ++ ['/'] <+: render true resolved trailing) ↔
      names <+: resolved ∧ (names = [] → resolved = []) := by
  by_cases hne : names = []
  · rw [← Text.splitOn_prefix_iff, hne, splitOn_root]
    by_cases hr : resolved = []
    · simp [hr, splitOn_root]
    · obtain ⟨name, rest, rfl⟩ := List.exists_cons_of_ne_nil hr
      have hname := (hresolved name List.mem_cons_self).1
      simp [splitOn_render hresolved hr, hname.symm]
  · rw [within_iff hnames hresolved hne]
    simp [hne]

theorem pickFile_cases (h : pickFile options stat target = some file) :
    (file = target ∧ stat target = some .file) ∨
    (stat target = some .directory ∧ ∃ index, options.directoryIndex = some index ∧
    file = join [target, index] ∧
      stat file = some .file) := by
  rw [pickFile] at h
  split at h
  · cases h
  · cases h
  · rename_i hstat
    cases h
    exact .inl ⟨rfl, hstat⟩
  · rename_i hstat
    rw [pickIndex] at h
    split at h
    · cases h
    · rename_i index hindex
      split at h
      · rename_i hfile
        cases h
        exact .inr ⟨hstat, index, hindex, rfl, hfile⟩
      · cases h

end Contained

/-- What the middleware is for: a tree of files and directories, its files and the index files of
its directories. -/
structure Site where
  entry : List Path → Option EntryKind
  index : Option Path

def Site.answerIndex (site : Site) (names : List Path) : Option (List Path) :=
  match site.index with
  | none => none
  | some index =>
      if site.entry (names ++ [index]) = some .file then some (names ++ [index]) else none

def Site.answer (site : Site) (names : List Path) (trailing : Bool) : Option (List Path) :=
  match site.entry names with
  | none | some .other => none
  | some .file => if trailing then none else some names
  | some .directory => site.answerIndex names

/-- A file system with the site's tree at `root`; a slash at the end of a path asks for a directory.
-/
structure Mounted (site : Site) (root : List Path) (options : StaticOptions) (stat : StatSync) :
    Prop where
  index : options.directoryIndex = site.index
  named : ∀ index, site.index = some index → Proper index
  found : ∀ names, (∀ x ∈ names, Proper x) →
    stat (render true (root ++ names) false) = site.entry names
  slash : ∀ names, (∀ x ∈ names, Proper x) →
    stat (render true (root ++ names) true) = (site.entry names).filter (· = .directory)

section Sample

def sampleSite : Site where
  entry names :=
    if names = [] then some .directory
    else if names = ["index.html".toList] ∨ names = ["a b".toList] then some .file
    else none
  index := some "index.html".toList

def sampleStat : StatSync := fun path =>
  match (path.splitOn '/').filter (· ≠ []) with
  | ['s', 'r', 'v'] :: names =>
      if path.getLast? = some '/' then (sampleSite.entry names).filter (· = .directory)
        else sampleSite.entry names
  | _ => none

theorem filter_render {names : List Path} (h : ∀ x ∈ names, Proper x) (trailing : Bool) :
    ((render true names trailing).splitOn '/').filter (· ≠ []) = names := by
  by_cases hne : names = []
  · rw [hne, splitOn_root]
    rfl
  · have hall : names.filter (· ≠ []) = names :=
      List.filter_eq_self.mpr fun x hx => by simpa using (h x hx).1
    rw [splitOn_render h hne, List.cons_append, List.filter_cons_of_neg (by simp),
      List.filter_append, hall]
    cases trailing <;> simp

theorem rootNames_sample : rootNames "/".toList "/srv".toList = ["srv".toList] := by decide

theorem sampleStat_render {names : List Path} (h : ∀ x ∈ names, Proper x) (trailing : Bool) :
    sampleStat (render true ("srv".toList :: names) trailing) =
      if trailing then (sampleSite.entry names).filter
        (· = .directory) else sampleSite.entry names := by
  have hall : ∀ x ∈ "srv".toList :: names, Proper x := by
    intro x hx
    rcases List.mem_cons.mp hx with rfl | hx
    · decide
    · exact h x hx
  have hfilter := filter_render hall trailing
  simp only [sampleStat, hfilter, getLast_render_iff hall (List.cons_ne_nil _ _)]
  rfl

theorem sampleStat_mounted : Mounted sampleSite (rootNames "/".toList "/srv".toList)
    {} sampleStat where
  index := rfl
  named := by
    intro index h
    cases h
    decide
  found := by
    intro names h
    rw [rootNames_sample]
    exact sampleStat_render h false
  slash := by
    intro names h
    rw [rootNames_sample]
    exact sampleStat_render h true

end Sample

section Served

variable {cwd root path : List Char} {options : StaticOptions} {stat : StatSync} {method : String}
  {s : ServedFile}

theorem serveStatic_cases (h : serveStatic cwd root options stat method path = some s) :
    ∃ rel decoded, options.rel path = some rel ∧ decodeURIComponent rel = .ok decoded ∧
      (targetOf (resolve cwd root) decoded = resolve cwd root ∨
      resolve cwd root ++ ['/'] <+: targetOf (resolve cwd root) decoded) ∧
      pickFile options stat (targetOf (resolve cwd root) decoded) = some s.file := by
  rw [serveStatic] at h
  split at h
  · cases h
  · split at h
    · cases h
    · rename_i rel hrel
      split at h
      · cases h
      · rename_i decoded hdecoded
        dsimp only at h
        split at h
        · cases h
        · rename_i hin
          obtain ⟨file, hfile, rfl⟩ := Option.map_eq_some_iff.mp h
          refine ⟨rel, decoded, hrel, hdecoded, ?_, hfile⟩
          rw [not_and_or, not_not, not_not] at hin
          exact hin

/-- Whatever the request asks for, the file that it gets is below the root. -/
theorem served_below_root (hindex : ∀ index, options.directoryIndex = some index → Proper index)
    (h : serveStatic cwd root options stat method path = some s) :
    ∃ below trailing, (∀ x ∈ below, Proper x) ∧
      s.file = render true (rootNames cwd root ++ below) trailing ∧ stat s.file = some .file := by
  obtain ⟨rel, decoded, -, -, hin, hpick⟩ := serveStatic_cases h
  have hroot := proper_rootNames cwd root
  rw [resolve_eq] at hin hpick
  obtain ⟨resolved, trailing, hresolved, htarget⟩ := targetOf_eq hroot decoded
  rw [htarget] at hin hpick
  obtain ⟨⟨below, hbelow⟩, -⟩ := (contained_iff hroot hresolved).mp hin
  have hproper : ∀ x ∈ below, Proper x := by
    intro x hx
    exact hresolved x (hbelow ▸ List.mem_append_right _ hx)
  rcases pickFile_cases hpick with ⟨hfile, hstat⟩ | ⟨-, index, hsome, hfile, hstat⟩
  · refine ⟨below, trailing, hproper, ?_, ?_⟩
    · rw [hfile, hbelow]
    · rw [hfile, hstat]
  · have hname := hindex index hsome
    refine ⟨below ++ [index], false, ?_, ?_, hstat⟩
    · intro x hx
      rcases List.mem_append.mp hx with hx | hx
      · exact hproper x hx
      · rw [List.mem_singleton.mp hx]
        exact hname
    · rw [hfile, join_name hresolved hname, ← hbelow, List.append_assoc]

theorem served_below_root_dots : ∃ below trailing, (∀ x ∈ below, Proper x) ∧
    "/srv/index.html".toList = render true (rootNames "/".toList "/srv".toList ++ below) trailing ∧
      sampleStat "/srv/index.html".toList = some .file := by
  have hindex : ∀ index, StaticOptions.directoryIndex {} = some index → Proper index := by
    intro index h
    cases h
    decide
  have h : serveStatic "/".toList "/srv".toList {} sampleStat "GET" "/../index.html".toList =
      some (.answer "GET" "/srv/index.html".toList) := by decide
  exact served_below_root hindex h

end Served

section Refines

variable {site : Site} {root names : List Path} {options : StaticOptions} {stat : StatSync}

theorem proper_append (hroot : ∀ x ∈ root, Proper x) (hnames : ∀ x ∈ names, Proper x) :
    ∀ x ∈ root ++ names, Proper x := by
  intro x hx
  rcases List.mem_append.mp hx with hx | hx
  · exact hroot x hx
  · exact hnames x hx

theorem pickIndex_refines (hm : Mounted site root options stat) (hroot : ∀ x ∈ root, Proper x)
    (hnames : ∀ x ∈ names, Proper x)
    (trailing : Bool) : pickIndex options stat (render true (root ++ names) trailing) =
      (site.answerIndex names).map (fun names => render true (root ++ names) false) := by
  rw [pickIndex, Site.answerIndex, hm.index]
  cases hi : site.index with
  | none => rfl
  | some index =>
      have hindex := hm.named index hi
      have hbelow : ∀ x ∈ names ++ [index], Proper x :=
        proper_append hnames fun x hx => (List.mem_singleton.mp hx).symm ▸ hindex
      simp only [join_name (proper_append hroot hnames) hindex, List.append_assoc,
        hm.found (names ++ [index]) hbelow]
      by_cases hfile : site.entry (names ++ [index]) = some .file
      · rw [if_pos hfile, if_pos hfile, Option.map_some]
      · rw [if_neg hfile, if_neg hfile, Option.map_none]

theorem pickFile_refines (hm : Mounted site root options stat) (hroot : ∀ x ∈ root, Proper x)
    (hnames : ∀ x ∈ names, Proper x)
    (trailing : Bool) : pickFile options stat (render true (root ++ names) trailing) =
      (site.answer names trailing).map (fun names => render true (root ++ names) false) := by
  have hindex := pickIndex_refines hm hroot hnames trailing
  have hstat : stat (render true (root ++ names) trailing) =
      if trailing then (site.entry names).filter (· = .directory) else site.entry names := by
    cases trailing with
    | false => exact hm.found names hnames
    | true => exact hm.slash names hnames
  rw [pickFile, Site.answer, hstat]
  cases he : site.entry names with
  | none => cases trailing <;> rfl
  | some kind =>
      cases kind with
      | file => cases trailing <;> rfl
      | other => cases trailing <;> rfl
      | directory => cases trailing <;> exact hindex

theorem targetOf_absolute {decoded : List Char} (hroot : ∀ x ∈ root, Proper x)
    (habs : isAbsolute decoded = true)
    (hfirst : ∀ x ∈ (resolveNames true (decoded.splitOn '/')).head?, x.head? ≠ some '\\') :
    targetOf (render true root false) decoded = render true
      (root ++ resolveNames true (decoded.splitOn '/'))
      (decoded.getLast? = some '/' ∧ resolveNames true (decoded.splitOn '/') ≠ []) := by
  rw [targetOf, normalize_absolute habs]
  have hnames := proper_resolved decoded
  generalize resolveNames true (decoded.splitOn '/') = names at *
  cases names with
  | nil =>
      have hdrop : (render true [] (decoded.getLast? = some '/')).dropWhile
        (fun c => c = '/' ∨ c = '\\') = [] := rfl
      rw [hdrop, join_render hroot, List.splitOn_nil, List.foldl_cons, push_skip (.inl rfl),
        List.foldl_nil, List.reverse_reverse,
        List.append_nil]
      simp
  | cons name rest =>
      have hproper := hnames name List.mem_cons_self
      obtain ⟨c, cs, rfl⟩ := List.exists_cons_of_ne_nil hproper.1
      have hslash : c ≠ '/' := fun hc => hproper.2.1 (hc ▸ List.mem_cons_self)
      have hback : c ≠ '\\' := fun hc => hfirst (c :: cs) (by simp) (by simp [hc])
      have htext : ∃ t, ['/'].intercalate ((c :: cs) :: rest) = c :: t := by
        cases rest with
        | nil => exact ⟨cs, List.intercalate_singleton⟩
        | cons other rest => exact ⟨_, Text.intercalate_cons '/' (c :: cs) other rest⟩
      obtain ⟨t, ht⟩ := htext
      have hdrop (trailing : Bool) : (render true ((c :: cs) :: rest) trailing).dropWhile
        (fun c => c = '/' ∨ c = '\\') =
          ['/'].intercalate ((c :: cs) :: rest) ++ (if trailing then ['/'] else []) := by
        simp [render, ht, hslash, hback]
      rw [hdrop, join_names hroot hnames (List.cons_ne_nil _ _)]
      simp

end Refines

section Serves

variable {cwd root path rel decoded : List Char} {site : Site} {options : StaticOptions}
  {stat : StatSync} {method : String}

/-- A path that starts at the root never leads out of it. -/
theorem serveStatic_eq (stat : StatSync) (hmethod : method = "GET" ∨ method = "HEAD")
    (hroot : rootNames cwd root ≠ [])
    (hrel : options.rel path = some rel) (hdecoded : decodeURIComponent rel = .ok decoded)
    (habs : isAbsolute decoded = true)
    (hfirst : ∀ x ∈ (resolveNames true (decoded.splitOn '/')).head?, x.head? ≠ some '\\') :
    serveStatic cwd root options stat method path =
      (pickFile options stat
        (render true (rootNames cwd root ++ resolveNames true (decoded.splitOn '/'))
        (decoded.getLast? = some '/' ∧ resolveNames true (decoded.splitOn '/') ≠ []))).map
          (.answer method) := by
  have hproper := proper_rootNames cwd root
  have hnames := proper_resolved decoded
  have htarget := targetOf_absolute hproper habs hfirst
  have hin : ¬ (targetOf (resolve cwd root) decoded ≠ resolve cwd root ∧
      ¬ resolve cwd root ++ ['/'] <+: targetOf (resolve cwd root) decoded) := by
    rw [not_and_or, not_not, not_not, resolve_eq, htarget,
      contained_iff hproper (proper_append hproper hnames)]
    exact ⟨List.prefix_append _ _, fun hnil => absurd hnil hroot⟩
  have hget : ¬ (method ≠ "GET" ∧ method ≠ "HEAD") := by
    rw [not_and_or, not_not, not_not]
    exact hmethod
  rw [serveStatic]
  dsimp only
  rw [if_neg hget, hrel]
  dsimp only
  rw [hdecoded]
  dsimp only
  rw [if_neg hin, resolve_eq, htarget]

/-- Over a tree at the root, the middleware answers as the site does: with the file that the path of
the request leads to when `..` cannot leave the root. -/
theorem serveStatic_refines (hm : Mounted site (rootNames cwd root) options stat)
    (hmethod : method = "GET" ∨ method = "HEAD")
    (hroot : rootNames cwd root ≠ []) (hrel : options.rel path = some rel)
    (hdecoded : decodeURIComponent rel = .ok decoded)
    (habs : isAbsolute decoded = true)
    (hfirst : ∀ x ∈ (resolveNames true (decoded.splitOn '/')).head?, x.head? ≠ some '\\') :
    serveStatic cwd root options stat method path =
      (site.answer (resolveNames true (decoded.splitOn '/'))
        (decoded.getLast? = some '/' ∧ resolveNames true (decoded.splitOn '/') ≠ [])).map
          (fun names => .answer method (render true (rootNames cwd root ++ names) false)) := by
  rw [serveStatic_eq stat hmethod hroot hrel hdecoded habs hfirst,
    pickFile_refines hm (proper_rootNames cwd root) (proper_resolved decoded),
    Option.map_map]
  rfl

theorem serveStatic_refines_dots :
    serveStatic "/".toList "/srv".toList {} sampleStat "GET" "/x/../..//a%20b".toList =
    (sampleSite.answer (resolveNames true ("/x/../..//a b".toList.splitOn '/'))
      ("/x/../..//a b".toList.getLast? = some '/' ∧
      resolveNames true ("/x/../..//a b".toList.splitOn '/') ≠ [])).map
        (fun names =>
          .answer "GET" (render true (rootNames "/".toList "/srv".toList ++ names) false)) :=
  serveStatic_refines sampleStat_mounted (.inl rfl) (by decide)
    (show _ = some "/x/../..//a%20b".toList from rfl) (by decide) rfl (by decide)

end Serves

def escapeDigit (n : Nat) : Char := hexDigits.getD (if n < 10 then n else n + 6) '0'

def escapeByte (b : UInt8) : List Char :=
  ['%', escapeDigit (b.toNat / 16), escapeDigit (b.toNat % 16)]

/-- A text as a client writes it in a path: the characters that it keeps, the bytes of the others.
-/
def escapeText (keep : Char → Bool) (s : List Char) : List Char :=
  s.flatMap fun c => if keep c then [c] else (String.utf8EncodeChar c).flatMap escapeByte

section Escape

variable {keep : Char → Bool}

theorem hexVal_escapeDigit : ∀ n < 16,
    escapeDigit n ∈ hexDigits ∧ hexVal (escapeDigit n) = n := by decide

theorem unescape_escapeByte (b : UInt8) (cs : List Char) :
    unescape (escapeByte b ++ cs) = (unescape cs).map (b :: ·) := by
  have hb : b.toNat < 256 := b.toNat_lt
  obtain ⟨hhigh, hhighVal⟩ := hexVal_escapeDigit (b.toNat / 16) (by omega)
  obtain ⟨hlow, hlowVal⟩ := hexVal_escapeDigit (b.toNat % 16) (by omega)
  have hval : 16 * (b.toNat / 16) + b.toNat % 16 = b.toNat := by omega
  simp only [escapeByte, List.cons_append, List.nil_append, unescape]
  rw [if_pos ⟨hhigh, hlow⟩, hhighVal, hlowVal, hval, UInt8.ofNat_toNat]

theorem unescape_escapeBytes (bytes : List UInt8) (cs : List Char) :
    unescape (bytes.flatMap escapeByte ++ cs) = (unescape cs).map (bytes ++ ·) := by
  induction bytes with
  | nil => simp
  | cons b bytes ih =>
      rw [List.flatMap_cons, List.append_assoc, unescape_escapeByte, ih, Option.map_map]
      rfl

theorem unescape_cons {c : Char} (hc : c ≠ '%') (cs : List Char) :
    unescape (c :: cs) = (unescape cs).map (String.utf8EncodeChar c ++ ·) := by
  rw [unescape]
  · exact fun _ _ _ h _ => hc h
  · exact hc

theorem unescape_escapeText (hkeep : keep '%' = false) (s : List Char) :
    unescape (escapeText keep s) = some (s.flatMap String.utf8EncodeChar) := by
  induction s with
  | nil => rfl
  | cons c s ih =>
      rw [escapeText] at ih
      rw [escapeText, List.flatMap_cons, List.flatMap_cons]
      by_cases hc : keep c = true
      · have hne : c ≠ '%' := by
          rintro rfl
          rw [hkeep] at hc
          cases hc
        rw [if_pos hc, List.singleton_append, unescape_cons hne, ih, Option.map_some]
      · rw [if_neg hc, unescape_escapeBytes, ih, Option.map_some]

theorem decodeURIComponent_escapeText (hkeep : keep '%' = false) (s : List Char) :
    decodeURIComponent (escapeText keep s) = .ok s := by
  have hbytes : (⟨(s.flatMap String.utf8EncodeChar).toArray⟩ : ByteArray) =
    (String.ofList s).toByteArray := by
    rw [String.toByteArray_ofList, List.utf8Encode, ← List.data_toByteArray]
  have hvalid : String.fromUTF8? (String.ofList s).toByteArray = some (String.ofList s) := by
    rw [String.fromUTF8?, dif_pos (String.ofList s).isValidUTF8]
    rfl
  rw [decodeURIComponent, unescape_escapeText hkeep, Option.bind_some, hbytes, hvalid]
  simp

theorem escapeText_slash (hslash : keep '/' = true) (x : List Char) :
    escapeText keep ('/' :: x) = '/' :: escapeText keep x := by
  rw [escapeText, List.flatMap_cons, if_pos hslash, List.singleton_append, escapeText]

end Escape

theorem StaticOptions.rel_mountPath (options : StaticOptions) (x : List Char) :
    options.rel (options.mountPath ++ '/' :: x) = some ('/' :: x) := by
  rw [rel]
  by_cases hm : options.mount = []
  · rw [if_pos hm, mountPath, hm]
    rfl
  · have hin : options.mountPath ++ ['/'] <+: options.mountPath ++ '/' :: x := ⟨x, by simp⟩
    rw [if_neg hm, if_neg (fun h => h.2 hin), List.drop_left, if_neg (List.cons_ne_nil _ _)]

section Reachable

variable {cwd root : List Char} {names : List Path} {site : Site} {options : StaticOptions}
  {stat : StatSync} {method : String}
  {keep : Char → Bool}

/-- A client that writes out the names of a file of the site gets it. -/
theorem file_served (hm : Mounted site (rootNames cwd root) options stat)
    (hmethod : method = "GET" ∨ method = "HEAD")
    (hroot : rootNames cwd root ≠ []) (hpercent : keep '%' = false) (hslash : keep '/' = true)
    (hnames : ∀ x ∈ names, Proper x) (hne : names ≠ [])
    (hfirst : ∀ x ∈ names.head?, x.head? ≠ some '\\')
    (hfile : site.entry names = some .file) :
    serveStatic cwd root options stat method
      (options.mountPath ++ escapeText keep (render true names false)) =
      some (.answer method (render true (rootNames cwd root ++ names) false)) := by
  have hresolve : resolveNames true ((render true names false).splitOn '/') = names :=
    resolveNames_splitOn_render hnames
  have hslash' : ∃ x, render true names false = '/' :: x := by
    cases names with
    | nil => exact ⟨[], rfl⟩
    | cons name rest => exact ⟨_, rfl⟩
  obtain ⟨x, hx⟩ := hslash'
  have hrel : options.rel (options.mountPath ++ escapeText keep (render true names false)) =
    some (escapeText keep (render true names false)) := by
    rw [hx, escapeText_slash hslash]
    exact options.rel_mountPath _
  have heq :=
    serveStatic_eq stat hmethod hroot hrel (decodeURIComponent_escapeText hpercent _)
      isAbsolute_render (by rwa [hresolve])
  rw [hresolve, pickFile_refines hm (proper_rootNames cwd root) hnames] at heq
  have hlast := getLast_render hnames hne
  rw [heq, Site.answer, hfile]
  simp [hlast]

theorem file_served_space :
    serveStatic "/".toList "/srv".toList {} sampleStat "GET"
        ((StaticOptions.mountPath {}) ++ escapeText (· = '/') (render true ["a b".toList] false)) =
      some (.answer "GET"
        (render true (rootNames "/".toList "/srv".toList ++ ["a b".toList]) false)) := by
  have hnames : ∀ x ∈ ["a b".toList], Proper x := by
    intro x hx
    rw [List.mem_singleton.mp hx]
    decide
  exact file_served sampleStat_mounted (.inl rfl) (by decide) rfl rfl hnames (by decide) (by decide)
    (by decide)

end Reachable

end ZenZip
