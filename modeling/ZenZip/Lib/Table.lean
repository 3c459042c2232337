import Mathlib.Data.List.Nodup
import Mathlib.Data.List.Basic

namespace ZenZip.Lib

/-- Rows under a primary key, in insertion order. The key constraint is part of
the value, so no statement below can break it. -/
structure Table {K R : Type} (key : R → K) where
  rows : List R
  nodup : (rows.map key).Nodup

namespace Table

variable {K R : Type} {key : R → K} [DecidableEq K]

def empty : Table key := ⟨[], List.nodup_nil⟩

def get? (t : Table key) (k : K) : Option R := t.rows.find? (fun r => key r = k)

def select (t : Table key) (p : R → Bool) : List R := t.rows.filter p

/-- `INSERT ... ON CONFLICT DO NOTHING`. -/
def insert (t : Table key) (r : R) : Table key :=
  if h : key r ∈ t.rows.map key then t
  else ⟨t.rows ++ [r], by
    rw [List.map_append, List.map_singleton]
    exact List.nodup_append.mpr ⟨t.nodup, List.nodup_singleton _, by
      intro a ha b hb he
      rw [List.mem_singleton] at hb
      subst hb he
      exact h ha⟩⟩

/-- `UPDATE ... SET f WHERE p`; the assignment leaves the key alone. -/
def update (t : Table key) (p : R → Bool) (f : R → R) (hf : ∀ r, key (f r) = key r) : Table key :=
  ⟨t.rows.map (fun r => if p r then f r else r), by
    have h : ∀ r : R, key (if p r then f r else r) = key r := by
      intro r
      split
      · exact hf r
      · rfl
    simpa [List.map_map, Function.comp_def, h] using t.nodup⟩

/-- `DELETE ... WHERE p`. -/
def delete (t : Table key) (p : R → Bool) : Table key :=
  ⟨t.rows.filter (fun r => !p r), t.nodup.sublist (List.filter_sublist.map key)⟩

/-- `INSERT ... ON CONFLICT DO UPDATE SET f`. -/
def upsert (t : Table key) (r : R) (f : R → R) (hf : ∀ r, key (f r) = key r) : Table key :=
  if key r ∈ t.rows.map key then t.update (fun x => key x = key r) f hf else t.insert r

omit [DecidableEq K] in
theorem key_injOn (t : Table key) {r s : R} (hr : r ∈ t.rows) (hs : s ∈ t.rows)
    (h : key r = key s) :
    r = s := List.inj_on_of_nodup_map t.nodup hr hs h

theorem get?_eq_some_iff {t : Table key} {k : K} {r : R} : t.get? k = some r ↔
    r ∈ t.rows ∧ key r = k := by
  constructor
  · intro h
    exact ⟨List.mem_of_find?_eq_some h, by simpa using List.find?_some h⟩
  · rintro ⟨hr, hk⟩
    cases hs : t.get? k with
    | none =>
        have := List.find?_eq_none.mp hs r hr
        simp [hk] at this
    | some s =>
        have hk' : key s = k := by simpa using List.find?_some hs
        rw [t.key_injOn hr (List.mem_of_find?_eq_some hs) (hk.trans hk'.symm)]

theorem get?_eq_none_iff {t : Table key} {k : K} : t.get? k = none ↔ ∀ r ∈ t.rows, key r ≠ k := by
  simp [get?, List.find?_eq_none]

theorem mem_of_get? {t : Table key} {k : K} {r : R} (h : t.get? k = some r) : r ∈ t.rows :=
  (get?_eq_some_iff.mp h).1

theorem key_of_get? {t : Table key} {k : K} {r : R} (h : t.get? k = some r) : key r = k :=
  (get?_eq_some_iff.mp h).2

theorem get?_key {t : Table key} {r : R} (h : r ∈ t.rows) : t.get? (key r) = some r :=
  get?_eq_some_iff.mpr ⟨h, rfl⟩

theorem mem_keys_iff {t : Table key} {k : K} : k ∈ t.rows.map key ↔ ∃ r, t.get? k = some r := by
  simp only [List.mem_map, get?_eq_some_iff]

@[simp] theorem get?_empty (k : K) : (empty : Table key).get? k = none := rfl

omit [DecidableEq K] in
@[simp] theorem rows_empty : (empty : Table key).rows = [] := rfl

omit [DecidableEq K] in
theorem mem_select {t : Table key} {p : R → Bool} {r : R} : r ∈ t.select p ↔ r ∈ t.rows ∧ p r := by
  simp [select]

theorem select_key {t : Table key} {k : K} {r : R} (h : t.get? k = some r) :
    t.select (fun r => key r = k) = [r] := by
  obtain ⟨hr, hk⟩ := get?_eq_some_iff.mp h
  have hn : (t.select (fun r => key r = k)).Nodup := t.nodup.of_map.sublist List.filter_sublist
  refine List.perm_singleton.mp
    ((List.perm_ext_iff_of_nodup hn (List.nodup_singleton r)).mpr (fun x => ?_))
  rw [mem_select, List.mem_singleton]
  constructor
  · rintro ⟨hx, he⟩
    exact t.key_injOn hx hr ((of_decide_eq_true he).trans hk.symm)
  · rintro rfl
    exact ⟨hr, decide_eq_true hk⟩

omit [DecidableEq K] in
theorem mem_update {t : Table key} {p : R → Bool} {f : R → R} {hf : ∀ r, key (f r) = key r}
    {r : R} :
    r ∈ (t.update p f hf).rows ↔ ∃ s ∈ t.rows, (if p s then f s else s) = r := List.mem_map

theorem get?_update (t : Table key) (p : R → Bool) (f : R → R) (hf : ∀ r, key (f r) = key r)
    (k : K) :
    (t.update p f hf).get? k = (t.get? k).map (fun r => if p r then f r else r) := by
  have hk : ∀ r : R, key (if p r then f r else r) = key r := by
    intro r
    split
    · exact hf r
    · rfl
  have hcomp : ((fun r => decide (key r = k)) ∘ fun r => if p r then f r else r) = fun r =>
    decide (key r = k) := by
    funext r
    rw [Function.comp_apply, hk]
  rw [get?, update, List.find?_map, hcomp, get?]

theorem get?_delete (t : Table key) (p : R → Bool) (k : K) :
    (t.delete p).get? k = (t.get? k).filter (fun r => !p r) := by
  ext r
  simp only [get?_eq_some_iff, Option.filter_eq_some_iff, delete, List.mem_filter]
  tauto

theorem get?_insert (t : Table key) (r : R) (k : K) :
    (t.insert r).get? k = if k = key r then some ((t.get? k).getD r) else t.get? k := by
  by_cases h : key r ∈ t.rows.map key
  · obtain ⟨s, hs⟩ := mem_keys_iff.mp h
    simp only [insert, h, dite_true]
    split
    · next hk => rw [hk, hs, Option.getD_some]
    · rfl
  · have hn : t.get? (key r) = none := by
      rw [get?_eq_none_iff]
      intro s hs hk
      exact h (List.mem_map.mpr ⟨s, hs, hk⟩)
    simp only [insert, h, dite_false]
    split
    · next hk =>
        subst hk
        rw [hn, Option.getD_none, get?_eq_some_iff]
        exact ⟨List.mem_append_right _ (List.mem_singleton_self r), rfl⟩
    · next hk =>
        have hk' : ¬ key r = k := fun he => hk he.symm
        simp [get?, List.find?_append, hk']

theorem get?_insert_fresh {t : Table key} {r : R} (h : t.get? (key r) = none) (k : K) :
    (t.insert r).get? k = if k = key r then some r else t.get? k := by
  rw [get?_insert]
  split
  · next hk => rw [hk, h, Option.getD_none]
  · rfl

theorem rows_insert_fresh {t : Table key} {r : R} (h : t.get? (key r) = none) :
    (t.insert r).rows = t.rows ++ [r] := by
  have hn : key r ∉ t.rows.map key := by
    rw [mem_keys_iff, h]
    simp
  simp [insert, hn]

theorem get?_upsert (t : Table key) (r : R) (f : R → R) (hf : ∀ r, key (f r) = key r) (k : K) :
    (t.upsert r f hf).get? k = if k = key r then some ((t.get? k).elim r f) else t.get? k := by
  by_cases h : key r ∈ t.rows.map key
  · obtain ⟨s, hs⟩ := mem_keys_iff.mp h
    simp only [upsert, h, if_true, get?_update]
    split
    · next hk => subst hk; simp [hs, key_of_get? hs]
    · next hk =>
        cases ht : t.get? k with
        | none => rfl
        | some x =>
            have hx : key x ≠ key r := by rw [key_of_get? ht]; exact hk
            simp [hx]
  · have hn : t.get? (key r) = none := by
      rw [Option.eq_none_iff_forall_ne_some]
      intro s hs
      exact h (mem_keys_iff.mpr ⟨s, hs⟩)
    simp only [upsert, h, if_false, get?_insert_fresh hn]
    split
    · next hk => rw [hk, hn, Option.elim_none]
    · rfl

/-- A read that cannot tell the rows of the key before and after the upsert. -/
theorem map_select_upsert {B : Type} (t : Table key) (r : R) (f : R → R)
    (hf : ∀ r, key (f r) = key r)
    (p : R → Bool) (g : R → B) (hnew : t.get? (key r) = none → p r = false)
    (hold : ∀ x, t.get? (key r) = some x → p (f x) = p x ∧ (p x = true → g (f x) = g x)) :
    ((t.upsert r f hf).select p).map g = (t.select p).map g := by
  by_cases h : key r ∈ t.rows.map key
  · have hrow : ∀ x ∈ t.rows, p (if key x = key r then f x else x) = p x ∧
        (p x = true → g (if key x = key r then f x else x) = g x) := by
      intro x hx
      split
      · next hk => exact hold x (get?_eq_some_iff.mpr ⟨hx, hk⟩)
      · exact ⟨rfl, fun _ => rfl⟩
    simp only [upsert, h, if_true, select, update, decide_eq_true_eq, List.filter_map, List.map_map]
    have hfilter : t.rows.filter (p ∘ fun x => if key x = key r then f x else x) =
      t.rows.filter p :=
      List.filter_congr (fun x hx => (hrow x hx).1)
    rw [hfilter]
    refine List.map_congr_left (fun x hx => ?_)
    obtain ⟨hx, hp⟩ := List.mem_filter.mp hx
    exact (hrow x hx).2 hp
  · have hn : t.get? (key r) = none := by
      rw [get?_eq_none_iff]
      intro x hx hk
      exact h (List.mem_map.mpr ⟨x, hx, hk⟩)
    simp [upsert, h, select, rows_insert_fresh hn, hnew hn]

omit [DecidableEq K] in
theorem update_congr (t : Table key) {p q : R → Bool} {f : R → R} {hf : ∀ r, key (f r) = key r}
    (h : ∀ r ∈ t.rows, p r = q r) : t.update p f hf = t.update q f hf := by
  simp only [update, mk.injEq]
  refine List.map_congr_left (fun r hr => ?_)
  rw [h r hr]

theorem get?_update_key (t : Table key) (k₀ : K) (q : R → Bool) (f : R → R)
    (hf : ∀ r, key (f r) = key r) (k : K) :
    (t.update (fun r => decide (key r = k₀) && q r) f hf).get? k =
      if k = k₀ then (t.get? k).map (fun r => if q r then f r else r) else t.get? k := by
  rw [get?_update]
  cases ht : t.get? k with
  | none => simp
  | some r => by_cases hk : k = k₀ <;> simp [key_of_get? ht, hk]

section Map

omit [DecidableEq K] in
theorem keys_map {g : R → R} (hg : ∀ r, key (g r) = key r) (l : List R) :
    (l.map g).map key = l.map key := by
  rw [List.map_map]
  exact List.map_congr_left (fun r _ => hg r)

def map (t : Table key) (g : R → R) (hg : ∀ r, key (g r) = key r) : Table key :=
  ⟨t.rows.map g, by
    rw [keys_map hg]
    exact t.nodup⟩

variable (t : Table key) {g : R → R} (hg : ∀ r, key (g r) = key r)

omit [DecidableEq K] in
@[simp] theorem rows_map : (t.map g hg).rows = t.rows.map g := rfl

omit [DecidableEq K] in
theorem map_eq_self (h : ∀ r ∈ t.rows, g r = r) : t.map g hg = t := by
  rcases t with ⟨rows, hn⟩
  simp only [map, mk.injEq]
  rw [List.map_congr_left h, List.map_id']

theorem get?_map (k : K) : (t.map g hg).get? k = (t.get? k).map g := by
  have hcomp : ((fun r => decide (key r = k)) ∘ g) = fun r => decide (key r = k) := by
    funext r
    rw [Function.comp_apply, hg]
  rw [get?, rows_map, List.find?_map, hcomp, get?]

omit [DecidableEq K] in
theorem select_map {p : R → Bool} (hp : ∀ r, p (g r) = p r) :
    (t.map g hg).select p = (t.select p).map g := by
  have hcomp : p ∘ g = p := funext hp
  rw [select, rows_map, List.filter_map, hcomp, select]

omit [DecidableEq K] in
theorem update_map {p : R → Bool} {f f' : R → R} {hf : ∀ r, key (f r) = key r}
    {hf' : ∀ r, key (f' r) = key r}
    (hp : ∀ r, p (g r) = p r) (hfg : ∀ r, f' (g r) = g (f r)) :
    (t.map g hg).update p f' hf' = (t.update p f hf).map g hg := by
  simp only [update, map, mk.injEq, List.map_map]
  refine List.map_congr_left (fun r _ => ?_)
  rw [Function.comp_apply, Function.comp_apply, hp, hfg]
  split <;> rfl

omit [DecidableEq K] in
theorem delete_map {p : R → Bool} (hp : ∀ r, p (g r) = p r) :
    (t.map g hg).delete p = (t.delete p).map g hg := by
  have hcomp : (fun r => !p r) ∘ g = fun r => !p r := by
    funext r
    rw [Function.comp_apply, hp]
  simp only [delete, map, List.filter_map, hcomp]

theorem insert_map (r : R) : (t.map g hg).insert (g r) = (t.insert r).map g hg := by
  have hmem : key (g r) ∈ (t.map g hg).rows.map key ↔ key r ∈ t.rows.map key := by
    rw [rows_map, keys_map hg, hg]
  by_cases h : key r ∈ t.rows.map key
  · rw [insert, dif_pos (hmem.mpr h), insert, dif_pos h]
  · rw [insert, dif_neg (fun hm => h (hmem.mp hm)), insert, dif_neg h]
    simp only [map, List.map_append, List.map_singleton]

theorem upsert_map (r : R) {f f' : R → R} {hf : ∀ r, key (f r) = key r}
    {hf' : ∀ r, key (f' r) = key r}
    (hfg : ∀ r, f' (g r) = g (f r)) :
    (t.map g hg).upsert (g r) f' hf' = (t.upsert r f hf).map g hg := by
  simp only [upsert, rows_map, keys_map hg, hg]
  by_cases h : key r ∈ t.rows.map key
  · rw [if_pos h, if_pos h]
    exact t.update_map hg (fun r => by rw [hg]) hfg
  · rw [if_neg h, if_neg h]
    exact t.insert_map hg r

end Map

end Table

end ZenZip.Lib
