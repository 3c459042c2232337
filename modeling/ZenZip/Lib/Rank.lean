import Mathlib.Data.List.Nodup
import Mathlib.Data.List.Range
import Mathlib.Data.List.Perm.Subperm
import Mathlib.Data.List.Sort

namespace ZenZip.Lib

section Rank

variable {A : Type} (r : A → A → Bool) (l : List A)

/-- The place of an element in the order `r`, counted from one. -/
def rank (x : A) : Nat := (l.filter (fun y => r y x)).length

/-- `r` is a total order of the elements of `l`, of which none comes twice. -/
structure Orders : Prop where
  nodup : l.Nodup
  total : ∀ x ∈ l, ∀ y ∈ l, r x y = true ∨ r y x = true
  antisymm : ∀ x ∈ l, ∀ y ∈ l, r x y = true → r y x = true → x = y
  trans : ∀ x ∈ l, ∀ y ∈ l, ∀ z ∈ l, r x y = true → r y z = true → r x z = true

variable {r l} {x y : A}

theorem length_le_of_subset {l l' : List A} (hn : l.Nodup) (h : l ⊆ l') : l.length ≤ l'.length :=
  (hn.subperm h).length_le

theorem pairwise_sorted (total : ∀ x y, r x y = true ∨ r y x = true)
    (trans : ∀ x y z, r x y = true → r y z = true → r x z = true) (l : List A) :
    (l.insertionSort (fun x y => r x y)).Pairwise (fun x y => r x y = true) := by
  have htotal : Std.Total (fun x y => r x y = true) := ⟨total⟩
  have htrans : IsTrans A (fun x y => r x y = true) := ⟨trans⟩
  exact List.pairwise_insertionSort _ l

namespace Orders

theorem refl (h : Orders r l) (hx : x ∈ l) : r x x = true := by
  obtain hr | hr := h.total x hx x hx
  · exact hr
  · exact hr

theorem sublist (h : Orders r l) {l' : List A} (hl : l'.Sublist l) : Orders r l' where
  nodup := h.nodup.sublist hl
  total x hx y hy := h.total x (hl.subset hx) y (hl.subset hy)
  antisymm x hx y hy := h.antisymm x (hl.subset hx) y (hl.subset hy)
  trans x hx y hy z hz := h.trans x (hl.subset hx) y (hl.subset hy) z (hl.subset hz)

theorem rank_lt (h : Orders r l) (hx : x ∈ l) (hy : y ∈ l) (hr : r x y = true) (hne : x ≠ y) :
    rank r l x < rank r l y := by
  have hn : (y :: l.filter (fun z => r z x)).Nodup := by
    refine List.nodup_cons.mpr ⟨fun hm => ?_, h.nodup.filter _⟩
    exact hne (h.antisymm x hx y hy hr (List.mem_filter.mp hm).2)
  refine length_le_of_subset hn (fun z hz => List.mem_filter.mpr ?_)
  rcases List.mem_cons.mp hz with rfl | hz
  · exact ⟨hy, h.refl hy⟩
  · obtain ⟨hz, hzx⟩ := List.mem_filter.mp hz
    exact ⟨hz, h.trans z hz x hx y hy hzx hr⟩

theorem rank_injOn (h : Orders r l) (hx : x ∈ l) (hy : y ∈ l) (he : rank r l x = rank r l y) :
    x = y := by
  by_contra hne
  obtain hr | hr := h.total x hx y hy
  · exact absurd he (Nat.ne_of_lt (h.rank_lt hx hy hr hne))
  · exact absurd he (Nat.ne_of_gt (h.rank_lt hy hx hr (fun he => hne he.symm)))

theorem rank_pos (h : Orders r l) (hx : x ∈ l) : 1 ≤ rank r l x :=
  List.length_pos_of_mem (List.mem_filter.mpr ⟨hx, h.refl hx⟩)

theorem rank_perm (h : Orders r l) : (l.map (rank r l)).Perm (List.range' 1 l.length) := by
  have hn : (l.map (rank r l)).Nodup := h.nodup.map_on (fun x hx y hy he => h.rank_injOn hx hy he)
  have hsub : l.map (rank r l) ⊆ List.range' 1 l.length := by
    intro n hm
    obtain ⟨x, hx, rfl⟩ := List.mem_map.mp hm
    have hle : rank r l x ≤ l.length := List.length_filter_le _ l
    exact List.mem_range'_1.mpr ⟨h.rank_pos hx, by omega⟩
  refine (hn.subperm hsub).perm_of_length_le ?_
  rw [List.length_map, List.length_range']

theorem length_rank_le (h : Orders r l) (m : Nat) :
    (l.filter (fun x => rank r l x ≤ m)).length = min m l.length := by
  have hmap : (l.filter (fun x => rank r l x ≤ m)).map (rank r l) =
    (l.map (rank r l)).filter (fun n => n ≤ m) := by
    rw [List.filter_map]
    rfl
  have hcount (start n : Nat) (hs : 1 ≤ start) :
      ((List.range' start n).filter (fun i => i ≤ m)).length = min (m + 1 - start) n := by
    induction n generalizing start with
    | zero => simp
    | succ n ih =>
        rw [List.range'_succ, List.filter_cons]
        have hrest := ih (start + 1) (Nat.le_add_left 1 start)
        split
        · next hle =>
            have hle := of_decide_eq_true hle
            rw [List.length_cons, hrest]
            omega
        · next hlt =>
            have hlt : ¬ start ≤ m := fun hle => hlt (decide_eq_true hle)
            rw [hrest]
            omega
  calc (l.filter (fun x => rank r l x ≤ m)).length
      = ((l.map (rank r l)).filter (fun n => n ≤ m)).length := by rw [← hmap, List.length_map]
    _ = ((List.range' 1 l.length).filter (fun n => n ≤ m)).length :=
      (h.rank_perm.filter _).length_eq
    _ = min m l.length := by rw [hcount 1 l.length (Nat.le_refl 1), Nat.add_sub_cancel]

theorem mem_take_iff (h : Orders r l) {l' : List A} (hperm : l'.Perm l)
    (hs : l'.Pairwise (fun x y => r x y = true)) {m : Nat} :
    x ∈ l'.take m ↔ x ∈ l ∧ rank r l x ≤ m := by
  have hrank (x : A) : rank r l x = (l'.filter (fun y => r y x)).length :=
    (hperm.filter _).length_eq.symm
  have hsplit := List.take_append_drop m l'
  have hn : l'.Nodup := hperm.nodup_iff.mpr h.nodup
  rw [← hsplit] at hs hn
  have hbefore : ∀ y ∈ l'.take m, ∀ z ∈ l'.drop m, r y z = true := (List.pairwise_append.mp hs).2.2
  have hdisjoint := (List.nodup_append.mp hn).2.2
  have hmem {z : A} (hz : z ∈ l') : z ∈ l := hperm.subset hz
  constructor
  · intro hx
    refine ⟨hmem (List.mem_of_mem_take hx), ?_⟩
    rw [hrank]
    refine Nat.le_trans (length_le_of_subset ((hperm.nodup_iff.mpr h.nodup).filter _) ?_)
      (List.length_take_le m l')
    intro y hy
    obtain ⟨hy, hyx⟩ := List.mem_filter.mp hy
    rw [← hsplit] at hy
    refine (List.mem_append.mp hy).resolve_right (fun hd => ?_)
    have he := h.antisymm y (hmem (List.mem_of_mem_drop hd)) x (hmem (List.mem_of_mem_take hx)) hyx
      (hbefore x hx y hd)
    exact hdisjoint x hx y hd he.symm
  · rintro ⟨hx, hle⟩
    by_contra hnot
    have hd : x ∈ l'.drop m := by
      have hx' : x ∈ l'.take m ++ l'.drop m := by
        rw [hsplit]
        exact hperm.symm.subset hx
      exact (List.mem_append.mp hx').resolve_left hnot
    have hcons : (x :: l'.take m).Nodup := List.nodup_cons.mpr ⟨hnot, (List.nodup_append.mp hn).1⟩
    have hsub : x :: l'.take m ⊆ l'.filter (fun y => r y x) := by
      intro y hy
      rcases List.mem_cons.mp hy with rfl | hy
      · exact List.mem_filter.mpr ⟨List.mem_of_mem_drop hd, h.refl hx⟩
      · exact List.mem_filter.mpr ⟨List.mem_of_mem_take hy, hbefore y hy x hd⟩
    have hlen := length_le_of_subset hcons hsub
    have hpos := List.length_pos_of_mem hd
    rw [← hrank, List.length_cons, List.length_take] at hlen
    rw [List.length_drop] at hpos
    omega

end Orders

end Rank

end ZenZip.Lib
