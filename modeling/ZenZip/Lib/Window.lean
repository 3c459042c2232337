import Mathlib.Data.List.Chain

namespace ZenZip.Lib

section Slice

variable {α : Type} {n : Int} {l t : List α}

/-- `l.slice(-n)` of JavaScript: the last `n` elements. As `-0` counts from the start, it is the
whole list for 0, and for a negative `n` it leaves out the first `-n`. -/
def sliceLast (n : Int) (l : List α) : List α :=
  if 0 < n then l.drop (l.length - n.toNat) else l.drop (-n).toNat

def keeps (n : Int) (d : Nat) : Bool := n = 0 || (0 < n && d ≤ n.toNat)

theorem sliceLast_suffix (n : Int) (l : List α) : sliceLast n l <:+ l := by
  unfold sliceLast
  split <;> exact List.drop_suffix _ _

theorem drop_suffix_drop (h : t <:+ l) {k : Nat} (hk : k ≤ l.length - t.length) :
    t <:+ l.drop k := by
  obtain ⟨u, rfl⟩ := h
  rw [List.length_append, Nat.add_sub_cancel] at hk
  rw [List.drop_append_of_le_length hk]
  exact List.suffix_append _ t

theorem keeps_iff {d : Nat} : keeps n d = true ↔ n = 0 ∨ 0 < n ∧ d ≤ n.toNat := by
  simp only [keeps, Bool.or_eq_true, Bool.and_eq_true, decide_eq_true_eq]

theorem keeps_mono {d d' : Nat} (h : keeps n d = true) (hle : d' ≤ d) : keeps n d' = true := by
  rw [keeps_iff] at h ⊢
  exact h.imp_right (And.imp_right hle.trans)

theorem suffix_sliceLast (h : t <:+ l) (hk : keeps n t.length = true) : t <:+ sliceLast n l := by
  unfold sliceLast
  rcases keeps_iff.mp hk with rfl | ⟨hpos, hle⟩
  · simpa using h
  · rw [if_pos hpos]
    apply drop_suffix_drop h
    have hlen := h.length_le
    omega

end Slice

section Closed

variable {α : Type} (R : α → α → Prop) (b : α)

def Ends (l : List α) : Prop := (l ++ [b]).IsChain R

def Closed (l : List α) : Prop := (b :: (l ++ [b])).IsChain R

variable {R b} {l l' : List α} {x y : α}

theorem closed_iff (hb : R b b) : Closed R b l ↔ (∀ x ∈ l.head?, R b x) ∧ Ends R b l := by
  rw [Closed, List.isChain_cons]
  cases l with
  | nil => simp [hb, Ends]
  | cons x l => simp [Ends]

theorem Closed.ends (h : Closed R b l) : Ends R b l := (List.isChain_cons.mp h).2

theorem Ends.suffix (h : Ends R b l) (hs : l' <:+ l) : Ends R b l' := by
  obtain ⟨u, rfl⟩ := hs
  rw [Ends, List.append_assoc] at h
  exact h.right_of_append

/-- Where the end of one list and the start of another one both fit `b`, they fit each other. -/
theorem Ends.append (hR : ∀ x y, R x b → R b y → R x y) (h : Ends R b l) (h' : Closed R b l') :
    Ends R b (l ++ l') := by
  induction l with
  | nil => exact h'.ends
  | cons x l ih =>
      rw [Ends, List.cons_append, List.isChain_cons] at h
      rw [Ends, List.cons_append, List.cons_append, List.isChain_cons]
      refine ⟨?_, ih h.2⟩
      cases l with
      | nil =>
          intro y hy
          exact hR x y (h.1 b rfl) ((List.isChain_cons.mp h').1 y hy)
      | cons z l => exact h.1

theorem Closed.append (hR : ∀ x y, R x b → R b y → R x y) (h : Closed R b l) (h' : Closed R b l') :
    Closed R b (l ++ l') := by
  rw [Closed, List.isChain_cons]
  refine ⟨?_, h.ends.append hR h'⟩
  cases l with
  | nil => exact (List.isChain_cons.mp h').1
  | cons x l => exact (List.isChain_cons.mp h).1

theorem closed_append_pair_iff {z : α} (hz : R z b) (hxy : R x y) (hy : R y b) :
    Closed R b (l ++ [z] ++ [x, y]) ↔ Closed R b (l ++ [z]) ∧ R z x := by
  have hlong : b :: (l ++ [z] ++ [x, y] ++ [b]) = (b :: l) ++ z :: [x, y, b] := by simp
  have hshort : b :: (l ++ [z] ++ [b]) = (b :: l) ++ z :: [b] := by simp
  have hsplit (u : List α) : ((b :: l) ++ z :: u).IsChain R ↔
    ((b :: l) ++ [z]).IsChain R ∧ (z :: u).IsChain R :=
    List.isChain_split
  rw [Closed, Closed, hlong, hshort, hsplit, hsplit]
  simp [hz, hxy, hy]

section Image

variable {β : Type} {S : β → β → Prop} {b' : β} {g : α → Option β}

/-- What fits `x` on the one side fits `x'` on the other. -/
def Follows (R : α → α → Prop) (S : β → β → Prop) (b : α) (b' : β) (g : α → Option β) (x : α)
    (x' : β) : Prop :=
  (∀ y y', g y = some y' → R x y → S x' y') ∧ (R x b → S x' b')

theorem isChain_filterMap {x' : β} (hskip : ∀ x y z, g y = none → R x y → R y z → R x z)
    (hmap : ∀ y ∈ l, ∀ y', g y = some y' → Follows R S b b' g y y') (hx : Follows R S b b' g x x')
    (h : (x :: (l ++ [b])).IsChain R) : (x' :: (l.filterMap g ++ [b'])).IsChain S := by
  induction l generalizing x x' with
  | nil =>
      rw [List.nil_append, List.isChain_pair] at h
      simpa using hx.2 h
  | cons y l ih =>
      have hmap' : ∀ z ∈ l, ∀ z', g z = some z' → Follows R S b b' g z z' :=
        fun z hz => hmap z (List.mem_cons_of_mem y hz)
      rw [List.cons_append, List.isChain_cons_cons] at h
      cases hg : g y with
      | none =>
          rw [List.filterMap_cons_none hg]
          apply ih hmap' hx
          cases l with
          | nil =>
              rw [List.nil_append, List.isChain_pair] at h ⊢
              exact hskip x y b hg h.1 h.2
          | cons z l =>
              rw [List.cons_append, List.isChain_cons_cons] at h ⊢
              exact ⟨hskip x y z hg h.1 h.2.1, h.2.2⟩
      | some y' =>
          rw [List.filterMap_cons_some hg, List.cons_append, List.isChain_cons_cons]
          exact ⟨hx.1 y y' hg h.1, ih hmap' (hmap y List.mem_cons_self y' hg) h.2⟩

theorem Closed.filterMap (hskip : ∀ x y z, g y = none → R x y → R y z → R x z)
    (hmap : ∀ y ∈ l, ∀ y', g y = some y' → Follows R S b b' g y y') (hb : Follows R S b b' g b b')
    (h : Closed R b l) :
    Closed S b' (l.filterMap g) :=
  isChain_filterMap hskip hmap hb h

end Image

end Closed

end ZenZip.Lib
