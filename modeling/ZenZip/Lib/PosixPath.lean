import ZenZip.Lib.Text

namespace ZenZip.Lib.PosixPath

abbrev Path := List Char

def dot : Path := ['.']

def dotDot : Path := ['.', '.']

def Proper (name : Path) : Prop := name ≠ [] ∧ '/' ∉ name ∧ name ≠ dot ∧ name ≠ dotDot

instance (name : Path) : Decidable (Proper name) := inferInstanceAs (Decidable (_ ∧ _ ∧ _ ∧ _))

def up (absolute : Bool) : List Path → List Path
  | [] => if absolute then [] else [dotDot]
  | top :: rest => if top = dotDot then dotDot :: top :: rest else rest

def push (absolute : Bool) (stack : List Path) (name : Path) : List Path :=
  if name = [] ∨ name = dot then stack
  else if name = dotDot then up absolute stack
  else name :: stack

def resolveNames (absolute : Bool) (names : List Path) : List Path :=
  (names.foldl (push absolute) []).reverse

def isAbsolute : Path → Bool
  | '/' :: _ => true
  | _ => false

def render (absolute : Bool) (names : List Path) (trailing : Bool) : Path :=
  match names with
  | [] => if absolute then ['/'] else if trailing then ['.', '/'] else dot
  | _ =>
      (if absolute then ['/'] else []) ++ ['/'].intercalate names ++
        (if trailing then ['/'] else [])

def normalize (path : Path) : Path :=
  if path = [] then dot
  else render (isAbsolute path) (resolveNames (isAbsolute path) (path.splitOn '/'))
    (path.getLast? = some '/')

def join (paths : List Path) : Path := normalize (['/'].intercalate (paths.filter (· ≠ [])))

/-- `resolve` of a relative path starts where the process runs, of an absolute one at the root. -/
def resolve (cwd path : Path) : Path :=
  render true
    (resolveNames true ((if isAbsolute path then path else cwd ++ '/' :: path).splitOn '/')) false

def basename (path : Path) : Path := ((path.splitOn '/').filter (· ≠ [])).getLast?.getD []

/-- From the last dot on, unless the name starts there. -/
def extname (path : Path) : Path :=
  let name := basename path
  let stem := (name.reverse.dropWhile (· ≠ '.')).drop 1
  if name = dotDot ∨ stem = [] then [] else name.drop stem.length

section Push

variable {absolute : Bool} {stack names : List Path} {name : Path}

theorem push_proper (h : Proper name) : push absolute stack name = name :: stack := by
  rw [push, if_neg (not_or.mpr ⟨h.1, h.2.2.1⟩), if_neg h.2.2.2]

theorem push_skip (h : name = [] ∨ name = dot) : push absolute stack name = stack := by
  rw [push, if_pos h]

theorem push_dotDot (hstack : ∀ x ∈ stack, Proper x) : push true stack dotDot = stack.tail := by
  rw [push, if_neg (by decide), if_pos rfl]
  cases stack with
  | nil => rfl
  | cons top rest => rw [up, if_neg (hstack top List.mem_cons_self).2.2.2, List.tail_cons]

theorem push_cases (hname : '/' ∉ name) (hstack : ∀ x ∈ stack, Proper x) :
    ((name = [] ∨ name = dot) ∧ push true stack name = stack) ∨
    (name = dotDot ∧ push true stack name = stack.tail) ∨
    (Proper name ∧ push true stack name = name :: stack) := by
  by_cases hskip : name = [] ∨ name = dot
  · exact .inl ⟨hskip, push_skip hskip⟩
  · by_cases hup : name = dotDot
    · rw [hup]
      exact .inr (.inl ⟨rfl, push_dotDot hstack⟩)
    · have hp : Proper name := ⟨(not_or.mp hskip).1, hname, (not_or.mp hskip).2, hup⟩
      exact .inr (.inr ⟨hp, push_proper hp⟩)

theorem proper_push (hname : '/' ∉ name) (hstack : ∀ x ∈ stack, Proper x) :
    ∀ x ∈ push true stack name, Proper x := by
  rcases push_cases hname hstack with ⟨-, hp⟩ | ⟨-, hp⟩ | ⟨hproper, hp⟩
  · rw [hp]
    exact hstack
  · rw [hp]
    exact fun x hx => hstack x (List.mem_of_mem_tail hx)
  · rw [hp]
    intro x hx
    rcases List.mem_cons.mp hx with rfl | hx
    · exact hproper
    · exact hstack x hx

theorem proper_foldl (hnames : ∀ x ∈ names, '/' ∉ x) (hstack : ∀ x ∈ stack, Proper x) :
    ∀ x ∈ names.foldl (push true) stack, Proper x := by
  induction names generalizing stack with
  | nil => exact hstack
  | cons name names ih =>
      exact ih (fun x hx => hnames x (List.mem_cons_of_mem name hx))
        (proper_push (hnames name List.mem_cons_self) hstack)

theorem foldl_proper (hnames : ∀ x ∈ names, Proper x) :
    names.foldl (push absolute) stack = names.reverse ++ stack := by
  induction names generalizing stack with
  | nil => rfl
  | cons name names ih =>
      rw [List.foldl_cons, push_proper (hnames name List.mem_cons_self),
        ih fun x hx => hnames x (List.mem_cons_of_mem name hx),
        List.reverse_cons, List.append_assoc, List.singleton_append]

theorem proper_resolveNames (hnames : ∀ x ∈ names, '/' ∉ x) :
    ∀ x ∈ resolveNames true names, Proper x := by
  intro x hx
  exact proper_foldl hnames (by simp) x (List.mem_reverse.mp hx)

end Push

section Render

variable {names other : List Path} {trailing : Bool}

theorem noSlash (h : ∀ x ∈ names, Proper x) : ∀ x ∈ names, '/' ∉ x := fun x hx => (h x hx).2.1

theorem splitOn_render (h : ∀ x ∈ names, Proper x) (hne : names ≠ []) :
    (render true names trailing).splitOn '/' = [] :: names ++ (if trailing then [[]] else []) := by
  obtain ⟨name, rest, rfl⟩ := List.exists_cons_of_ne_nil hne
  have hsplit := List.splitOn_intercalate '/' (noSlash h) hne
  cases trailing with
  | false =>
      have hr : render true (name :: rest) false = '/' :: ['/'].intercalate (name :: rest) := by
        simp [render]
      rw [hr, List.splitOn_cons_eq_if_modifyHead, if_pos (by simp), hsplit]
      simp
  | true =>
      have hr : render true (name :: rest) true =
        '/' :: (['/'].intercalate (name :: rest) ++ '/' :: []) := by simp [render]
      rw [hr, List.splitOn_cons_eq_if_modifyHead, if_pos (by simp), List.splitOn_append_cons_self,
        hsplit, List.splitOn_nil]
      simp

theorem splitOn_root : (render true [] trailing).splitOn '/' = [[], []] := by
  cases trailing <;> rfl

theorem within_iff (h : ∀ x ∈ names, Proper x) (hother : ∀ x ∈ other, Proper x) (hne : names ≠ []) :
    (render true other trailing = render true names false ∨
    render true names false ++ ['/'] <+: render true other trailing) ↔
      names <+: other := by
  rw [← Text.splitOn_prefix_iff, splitOn_render h hne]
  by_cases ho : other = []
  · rw [ho, splitOn_root]
    constructor
    · intro hp
      obtain ⟨name, rest, rfl⟩ := List.exists_cons_of_ne_nil hne
      have hname := (List.cons_prefix_cons.mp (List.cons_prefix_cons.mp hp).2).1
      exact absurd hname (h name List.mem_cons_self).1
    · intro hp
      exact absurd (List.prefix_nil.mp hp) hne
  · rw [splitOn_render hother ho]
    simp only [Bool.false_eq_true, if_false, List.append_nil, List.cons_append,
      List.cons_prefix_cons, true_and]
    constructor
    · intro hp
      cases trailing with
      | false => simpa using hp
      | true =>
          rcases List.prefix_concat_iff.mp hp with heq | hp
          · have hlast : [] ∈ names := by
              rw [heq]
              simp
            exact absurd rfl (h [] hlast).1
          · exact hp
    · intro hp
      exact hp.trans (List.prefix_append _ _)

theorem normalize_absolute {path : Path} (h : isAbsolute path = true) :
    normalize path = render true (resolveNames true (path.splitOn '/'))
      (path.getLast? = some '/') := by
  have hne : path ≠ [] := by
    rintro rfl
    cases h
  rw [normalize, if_neg hne, h]

theorem resolveNames_splitOn_render (h : ∀ x ∈ names, Proper x) :
    resolveNames true ((render true names trailing).splitOn '/') = names := by
  by_cases hne : names = []
  · rw [hne, splitOn_root]
    rfl
  · rw [splitOn_render h hne, resolveNames, List.cons_append, List.foldl_cons, push_skip (.inl rfl),
      List.foldl_append, foldl_proper h]
    cases trailing with
    | false => simp
    | true => simp [push_skip]

theorem getLast_render (h : ∀ x ∈ names, Proper x) (hne : names ≠ []) :
    (render true names false).getLast? ≠ some '/' := by
  intro hlast
  obtain ⟨front, hfront⟩ := List.getLast?_eq_some_iff.mp hlast
  have hsplit : (render true names false).splitOn '/' = [] :: names ++ [] := splitOn_render h hne
  rw [hfront, List.splitOn_append_cons_self, List.splitOn_nil] at hsplit
  have hmem : ([] : Path) ∈ names := by
    have hl := congrArg List.getLast? hsplit
    simp only [List.append_nil, List.getLast?_concat, List.getLast?_cons_of_ne_nil hne] at hl
    exact List.mem_of_getLast? hl.symm
  exact (h [] hmem).1 rfl

theorem getLast_render_iff (h : ∀ x ∈ names, Proper x) (hne : names ≠ []) :
    (render true names trailing).getLast? = some '/' ↔ trailing = true := by
  cases trailing with
  | false => simpa using getLast_render h hne
  | true =>
      obtain ⟨name, rest, rfl⟩ := List.exists_cons_of_ne_nil hne
      exact iff_of_true List.getLast?_concat rfl

theorem getLast_render_concat {absolute : Bool} {name : Path} (h : name ≠ []) :
    (render absolute (names ++ [name]) false).getLast? = name.getLast? := by
  have hlast : (['/'].intercalate (names ++ [name])).getLast? = name.getLast? := by
    by_cases hne : names = []
    · rw [hne, List.nil_append, List.intercalate_singleton]
    · rw [Text.intercalate_append '/' hne (List.cons_ne_nil _ _), List.intercalate_singleton,
        List.getLast?_append_of_ne_nil _ (List.cons_ne_nil _ _), List.getLast?_cons_of_ne_nil h]
  have hne : ['/'].intercalate (names ++ [name]) ≠ [] := by
    intro he
    rw [he, List.getLast?_nil] at hlast
    exact h (List.getLast?_eq_none_iff.mp hlast.symm)
  have hcons : ∃ x xs, names ++ [name] = x :: xs := List.exists_cons_of_ne_nil (by simp)
  obtain ⟨x, xs, hx⟩ := hcons
  rw [hx] at hlast hne ⊢
  simp only [render, Bool.false_eq_true, if_false, List.append_nil]
  rw [List.getLast?_append_of_ne_nil _ hne, hlast]

theorem getLast_normalize {path name : Path} (hsplit : path.splitOn '/' = names ++ [name])
    (h : Proper name) :
    (normalize path).getLast? = name.getLast? := by
  have hne : path ≠ [] := by
    rintro rfl
    rw [List.splitOn_nil] at hsplit
    have hlast := congrArg List.getLast? hsplit
    rw [List.getLast?_concat] at hlast
    exact h.1 (Option.some.inj hlast).symm
  have hslash : ¬ path.getLast? = some '/' := by
    intro hlast
    obtain ⟨front, rfl⟩ := List.getLast?_eq_some_iff.mp hlast
    rw [List.splitOn_append_cons_self, List.splitOn_nil] at hsplit
    exact h.1 (List.cons.inj (List.append_inj_right' hsplit rfl)).1.symm
  rw [normalize, if_neg hne, hsplit, resolveNames, List.foldl_append, List.foldl_cons,
    List.foldl_nil, push_proper h, List.reverse_cons,
    decide_eq_false hslash]
  exact getLast_render_concat h.1

theorem isAbsolute_render : isAbsolute (render true names trailing) = true := by
  cases names <;> rfl

end Render

section Join

variable {root names : List Path}

theorem resolveNames_append_splitOn (x y : Path) :
    resolveNames true ((x ++ '/' :: y).splitOn '/') =
    ((y.splitOn '/').foldl (push true) ((x.splitOn '/').foldl (push true) [])).reverse := by
  rw [List.splitOn_append_cons_self, resolveNames, List.foldl_append]

theorem foldl_splitOn_render {trailing : Bool} (hroot : ∀ x ∈ root, Proper x) :
    ((render true root trailing).splitOn '/').foldl (push true) [] = root.reverse := by
  have h : resolveNames true ((render true root trailing).splitOn '/') = root :=
    resolveNames_splitOn_render hroot
  rw [resolveNames] at h
  rw [← h, List.reverse_reverse, h]

theorem render_ne_nil {trailing : Bool} : render true root trailing ≠ [] := by
  cases root <;> simp [render]

theorem join_below {trailing : Bool} {rel : Path} (hroot : ∀ x ∈ root, Proper x) (hrel : rel ≠ []) :
    join [render true root trailing, rel] =
      render true ((rel.splitOn '/').foldl (push true) root.reverse).reverse
        (rel.getLast? = some '/') := by
  have hj : ([render true root trailing, rel] : List Path).filter (· ≠ []) =
    [render true root trailing, rel] := by
    simp [render_ne_nil, hrel]
  have habs : isAbsolute (render true root trailing ++ '/' :: rel) = true := by
    cases root <;> rfl
  have hlast : (render true root trailing ++ '/' :: rel).getLast? = rel.getLast? := by
    rw [List.getLast?_append_of_ne_nil _ (List.cons_ne_nil _ _), List.getLast?_cons_of_ne_nil hrel]
  rw [join, hj, Text.intercalate_cons, List.intercalate_singleton, normalize_absolute habs,
    resolveNames_append_splitOn,
    foldl_splitOn_render hroot, hlast]

theorem join_render (hroot : ∀ x ∈ root, Proper x) (rel : Path) :
    join [render true root false, rel] =
      render true ((rel.splitOn '/').foldl (push true) root.reverse).reverse
        (rel.getLast? = some '/') := by
  by_cases hrel : rel = []
  · have hj : ([render true root false, []] : List Path).filter (· ≠ []) =
      [render true root false] := by simp [render_ne_nil]
    rw [hrel, join, hj, List.intercalate_singleton, normalize_absolute isAbsolute_render,
      resolveNames, foldl_splitOn_render hroot,
      List.splitOn_nil, List.foldl_cons, push_skip (.inl rfl), List.foldl_nil, List.reverse_reverse]
    by_cases hne : root = []
    · rw [hne]
      rfl
    · simp [getLast_render hroot hne]
  · exact join_below hroot hrel

theorem getLast_join (dir : Path) {rel name : Path} (hsplit : rel.splitOn '/' = names ++ [name])
    (h : Proper name) :
    (join [dir, rel]).getLast? = name.getLast? := by
  have hrel : rel ≠ [] := by
    rintro rfl
    rw [List.splitOn_nil] at hsplit
    have hlast := congrArg List.getLast? hsplit
    rw [List.getLast?_concat] at hlast
    exact h.1 (Option.some.inj hlast).symm
  by_cases hdir : dir = []
  · have hj : ([dir, rel] : List Path).filter (· ≠ []) = [rel] := by simp [hdir, hrel]
    rw [join, hj, List.intercalate_singleton]
    exact getLast_normalize hsplit h
  · have hj : ([dir, rel] : List Path).filter (· ≠ []) = [dir, rel] := by simp [hdir, hrel]
    rw [join, hj, Text.intercalate_cons, List.intercalate_singleton]
    have hjoined : (dir ++ '/' :: rel).splitOn '/' = (dir.splitOn '/' ++ names) ++ [name] := by
      rw [List.splitOn_append_cons_self, hsplit, List.append_assoc]
    exact getLast_normalize hjoined h

theorem join_name {trailing : Bool} {name : Path} (hroot : ∀ x ∈ root, Proper x) (h : Proper name) :
    join [render true root trailing, name] = render true (root ++ [name]) false := by
  have hsplit : name.splitOn '/' = [name] := List.splitOn_eq_singleton h.2.1
  have hlast : name.getLast? ≠ some '/' := fun hl => h.2.1 (List.mem_of_getLast? hl)
  rw [join_below hroot h.1, hsplit, List.foldl_cons, List.foldl_nil, push_proper h,
    List.reverse_cons, List.reverse_reverse]
  simp [hlast]

theorem join_names {trailing : Bool} (hroot : ∀ x ∈ root, Proper x) (hnames : ∀ x ∈ names, Proper x)
    (hne : names ≠ []) :
    join [render true root false, ['/'].intercalate names ++ (if trailing then ['/'] else [])] =
    render true (root ++ names) trailing := by
  have hsplit : (['/'].intercalate names ++ (if trailing then ['/'] else [])).splitOn '/' = names ++
    (if trailing then [[]] else []) := by
    cases trailing with
    | false => simpa using List.splitOn_intercalate '/' (noSlash hnames) hne
    | true =>
        simp only [if_true]
        rw [List.splitOn_append_cons_self, List.splitOn_intercalate '/' (noSlash hnames) hne,
          List.splitOn_nil]
  have hfold : (names ++ (if trailing then [[]] else [])).foldl (push true) root.reverse =
    names.reverse ++ root.reverse := by
    rw [List.foldl_append, foldl_proper hnames]
    cases trailing with
    | false => rfl
    | true => simp [push_skip]
  have hlast : (['/'].intercalate names ++ (if trailing then ['/'] else [])).getLast? = some '/' ↔
    trailing = true := by
    cases trailing with
    | true => simp
    | false =>
        have hl := getLast_render hnames hne
        obtain ⟨name, rest, rfl⟩ := List.exists_cons_of_ne_nil hne
        have hcons : ['/'].intercalate (name :: rest) ≠ [] := by
          cases rest with
          | nil => simpa using (hnames name List.mem_cons_self).1
          | cons other rest => simp
        have hr : render true (name :: rest) false = '/' :: ['/'].intercalate (name :: rest) := by
          simp [render]
        rw [hr, List.getLast?_cons_of_ne_nil hcons] at hl
        simpa using hl
  rw [join_render hroot, hsplit, hfold, List.reverse_append, List.reverse_reverse,
    List.reverse_reverse]
  simp only [hlast, Bool.decide_eq_true]

end Join

end ZenZip.Lib.PosixPath
