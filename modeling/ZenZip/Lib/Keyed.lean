import ZenZip.Lib.Table

namespace ZenZip.Lib

section Keyed

variable {K V : Type} [DecidableEq K] {l l' : List (K × V)} {k : K}

def valuesOf (l : List (K × V)) (k : K) : List V := (l.filter (fun x => x.1 = k)).map Prod.snd

@[simp] theorem valuesOf_nil (k : K) : valuesOf ([] : List (K × V)) k = [] := rfl

theorem valuesOf_append (l l' : List (K × V)) (k : K) :
    valuesOf (l ++ l') k = valuesOf l k ++ valuesOf l' k := by
  rw [valuesOf, List.filter_append, List.map_append]
  rfl

theorem valuesOf_map {W : Type} (g : V → W) (l : List (K × V)) (k : K) :
    valuesOf (l.map (fun x => (x.1, g x.2))) k = (valuesOf l k).map g := by
  rw [valuesOf, valuesOf, List.filter_map, List.map_map, List.map_map]
  rfl

theorem valuesOf_map_mk (vs : List V) (k' k : K) :
    valuesOf (vs.map (Prod.mk k')) k = if k' = k then vs else [] := by
  induction vs with
  | nil => simp
  | cons v vs ih =>
      rw [List.map_cons, ← List.singleton_append, valuesOf_append, ih]
      by_cases h : k' = k
      · simp [valuesOf, h]
      · simp [valuesOf, h]

theorem valuesOf_rows (t : Table (Prod.fst : K × V → K)) (k : K) :
    valuesOf t.rows k = ((t.get? k).map Prod.snd).toList := by
  cases h : t.get? k with
  | none =>
      rw [valuesOf,
        List.filter_eq_nil_iff.mpr
          (fun x hx hk => Table.get?_eq_none_iff.mp h x hx (of_decide_eq_true hk))]
      rfl
  | some x => exact congrArg (List.map Prod.snd) (Table.select_key h)

theorem filter_key_eq (l : List (K × V)) (k : K) : l.filter (fun x => x.1 = k) = (valuesOf l k).map
    (Prod.mk k) := by
  rw [valuesOf, List.map_map]
  refine (List.map_id _).symm.trans (List.map_congr_left (fun x hx => ?_))
  have hk : x.1 = k := of_decide_eq_true (List.mem_filter.mp hx).2
  rw [Function.comp_apply, ← hk]
  rfl

theorem perm_iff_valuesOf [DecidableEq V] :
    l.Perm l' ↔ ∀ k, (valuesOf l k).Perm (valuesOf l' k) := by
  constructor
  · intro h k
    exact (h.filter _).map _
  · intro h
    rw [List.perm_iff_count]
    intro x
    have hfilter : (l.filter (fun y => y.1 = x.1)).Perm (l'.filter (fun y => y.1 = x.1)) := by
      rw [filter_key_eq, filter_key_eq]
      exact (h x.1).map _
    have hcount (m : List (K × V)) : (m.filter (fun y => y.1 = x.1)).count x = m.count x :=
      List.count_filter (decide_eq_true rfl)
    rw [← hcount l, ← hcount l', hfilter.count_eq]

end Keyed

end ZenZip.Lib
