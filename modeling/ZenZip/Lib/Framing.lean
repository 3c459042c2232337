import ZenZip.Lib.Text

namespace ZenZip.Lib.Framing

variable {A : Type} [DecidableEq A] {s : A} {x y l : List A}

/-- The pieces of a text between two separators in a row, which are looked for from the left. -/
def splitPairs (s : A) : List A → List (List A)
  | [] => [[]]
  | [a] => [[a]]
  | a :: b :: cs =>
      if a = s ∧ b = s then [] :: splitPairs s cs else (splitPairs s (b :: cs)).modifyHead (a :: ·)

def rest (s : A) (x : List A) : List A := (splitPairs s x).getLast?.getD []

theorem splitPairs_ne_nil (s : A) (x : List A) : splitPairs s x ≠ [] := by
  fun_induction splitPairs s x with
  | case1 => exact List.cons_ne_nil _ _
  | case2 a => exact List.cons_ne_nil _ _
  | case3 a b cs h ih => exact List.cons_ne_nil _ _
  | case4 a b cs h ih => simpa using ih

theorem splitPairs_singleton (h : splitPairs s x = [l]) : l = x := by
  fun_induction splitPairs s x generalizing l with
  | case1 =>
      cases h
      rfl
  | case2 a =>
      cases h
      rfl
  | case3 a b cs hab ih => exact absurd (List.cons.inj h).2 (splitPairs_ne_nil s cs)
  | case4 a b cs hab ih =>
      obtain ⟨f, fs, hf⟩ := List.exists_cons_of_ne_nil (splitPairs_ne_nil s (b :: cs))
      rw [hf, List.modifyHead_cons] at h
      cases h
      rw [ih hf]

theorem splitPairs_append (s : A) (x y : List A) :
    splitPairs s (x ++ y) = (splitPairs s x).dropLast ++ splitPairs s (rest s x ++ y) := by
  rw [rest]
  fun_induction splitPairs s x with
  | case1 => rfl
  | case2 a => rfl
  | case3 a b cs hab ih =>
      obtain ⟨f, fs, hf⟩ := List.exists_cons_of_ne_nil (splitPairs_ne_nil s cs)
      rw [List.cons_append, List.cons_append, splitPairs, if_pos hab, ih, hf]
      rfl
  | case4 a b cs hab ih =>
      obtain ⟨f, fs, hf⟩ := List.exists_cons_of_ne_nil (splitPairs_ne_nil s (b :: cs))
      cases fs with
      | nil =>
          rw [hf, splitPairs_singleton hf]
          rfl
      | cons f' fs =>
          rw [hf] at ih ⊢
          rw [List.cons_append, List.cons_append, splitPairs, if_neg hab, ← List.cons_append, ih]
          rfl

theorem splitPairs_rest (s : A) (x : List A) : splitPairs s (rest s x) = [rest s x] := by
  have happend := splitPairs_append s x []
  have hlast : splitPairs s x = (splitPairs s x).dropLast ++ [rest s x] := by
    rw [rest, List.getLast?_eq_some_getLast (splitPairs_ne_nil s x)]
    exact (List.dropLast_append_getLast (splitPairs_ne_nil s x)).symm
  rw [List.append_nil, List.append_nil] at happend
  exact List.append_cancel_left (happend.symm.trans hlast)

/-- The pieces that are complete after each part of a text, and what is left in the buffer. -/
def feed (s : A) : List A → List (List A) → List (List A) × List A
  | buffer, [] => ([], buffer)
  | buffer, t :: ts =>
    ((splitPairs s (buffer ++ t)).dropLast ++ (feed s (rest s (buffer ++ t)) ts).1,
      (feed s (rest s (buffer ++ t)) ts).2)

theorem feed_eq {buffer : List A} (h : splitPairs s buffer = [buffer]) (ts : List (List A)) :
    feed s buffer ts =
    ((splitPairs s (buffer ++ ts.flatten)).dropLast, rest s (buffer ++ ts.flatten)) := by
  induction ts generalizing buffer with
  | nil => rw [List.flatten_nil, List.append_nil, rest, h]; rfl
  | cons t ts ih =>
      have hsplit := splitPairs_append s (buffer ++ t) ts.flatten
      rw [feed, ih (splitPairs_rest s (buffer ++ t)), List.flatten_cons, ← List.append_assoc, rest,
        rest, rest, hsplit,
        List.dropLast_append_of_ne_nil (splitPairs_ne_nil s _),
          List.getLast?_append_of_ne_nil _ (splitPairs_ne_nil s _)]
      rfl

section Lines

variable {lines : List (List A)}

theorem splitPairs_append_left (h : s ∉ l) (hy : y ≠ []) :
    splitPairs s (l ++ y) = (splitPairs s y).modifyHead (l ++ ·) := by
  induction l with
  | nil =>
      obtain ⟨f, fs, hf⟩ := List.exists_cons_of_ne_nil (splitPairs_ne_nil s y)
      rw [List.nil_append, hf]
      rfl
  | cons a l ih =>
      rw [List.mem_cons, not_or] at h
      obtain ⟨b, z, hz⟩ := List.exists_cons_of_ne_nil (show l ++ y ≠ [] by simp [hy])
      rw [List.cons_append, hz, splitPairs, if_neg (fun hab => h.1 hab.1.symm), ← hz, ih h.2,
        List.modifyHead_modifyHead]
      rfl

theorem splitPairs_pair (s : A) (x : List A) :
    splitPairs s (s :: s :: x) = [] :: splitPairs s x := by
  rw [splitPairs, if_pos ⟨rfl, rfl⟩]

theorem splitPairs_cons_of_ne {a : A} (h : a ≠ s) (x : List A) :
    splitPairs s (s :: a :: x) = (splitPairs s (a :: x)).modifyHead (s :: ·) := by
  rw [splitPairs, if_neg (fun hab => h hab.2)]

theorem splitPairs_lines (h : ∀ l ∈ lines, l ≠ [] ∧ s ∉ l) (x : List A) :
    splitPairs s ([s].intercalate lines ++ s :: s :: x) =
    [s].intercalate lines :: splitPairs s x := by
  induction lines with
  | nil => exact splitPairs_pair s x
  | cons l lines ih =>
      obtain ⟨hne, hs⟩ := h l List.mem_cons_self
      have hrest := ih (fun l' hl => h l' (List.mem_cons_of_mem l hl))
      cases lines with
      | nil =>
          rw [List.intercalate_singleton, splitPairs_append_left hs (List.cons_ne_nil _ _),
            splitPairs_pair, List.modifyHead_cons,
            List.append_nil]
      | cons l' lines =>
          obtain ⟨hne', hs'⟩ := h l' (List.mem_cons_of_mem l List.mem_cons_self)
          obtain ⟨a, z, hz⟩ : ∃ a z, [s].intercalate (l' :: lines) ++ s :: s :: x = a :: z ∧
            a ≠ s := by
            obtain ⟨a, l'', rfl⟩ := List.exists_cons_of_ne_nil hne'
            have ha : a ≠ s := fun he => hs' (he ▸ List.mem_cons_self)
            cases lines with
            | nil => exact ⟨a, _, by rw [List.intercalate_singleton, List.cons_append], ha⟩
            | cons l₃ lines =>
                exact ⟨a, _, by rw [Text.intercalate_cons, List.cons_append, List.cons_append], ha⟩
          rw [Text.intercalate_cons, List.append_assoc, List.cons_append,
            splitPairs_append_left hs (List.cons_ne_nil _ _), hz.1,
            splitPairs_cons_of_ne hz.2, ← hz.1, hrest, List.modifyHead_cons, List.modifyHead_cons]

end Lines

end ZenZip.Lib.Framing
