import ZenZip.Lib.Rank

namespace ZenZip.Lib

section Levels

variable {A : Type} (next : A → List A)

def level : Nat → List A → List A
  | 0, l => l
  | n + 1, l => level n (l.flatMap next)

/-- A recursive query: the working table is added to the result and replaced by
what it joins with. -/
def levels : Nat → List A → List A
  | 0, _ => []
  | n + 1, l => l ++ levels n (l.flatMap next)

inductive Linked (l : List A) : A → Prop
  | start {x : A} (h : x ∈ l) : Linked l x
  | link {x y : A} (h : Linked l x) (hy : y ∈ next x) : Linked l y

variable {next} {l : List A} {x : A}

theorem mem_levels_iff {n : Nat} : x ∈ levels next n l ↔ ∃ i < n, x ∈ level next i l := by
  induction n generalizing l with
  | zero => simp [levels]
  | succ n ih =>
      rw [levels, List.mem_append, ih]
      constructor
      · rintro (hx | ⟨i, hi, hx⟩)
        · exact ⟨0, Nat.zero_lt_succ n, hx⟩
        · exact ⟨i + 1, Nat.succ_lt_succ hi, hx⟩
      · rintro ⟨i, hi, hx⟩
        cases i with
        | zero => exact .inl hx
        | succ i => exact .inr ⟨i, Nat.lt_of_succ_lt_succ hi, hx⟩

theorem level_succ (n : Nat) (l : List A) :
    level next (n + 1) l = (level next n l).flatMap next := by
  induction n generalizing l with
  | zero => rfl
  | succ n ih => exact ih (l.flatMap next)

theorem linked_iff : Linked next l x ↔ ∃ i, x ∈ level next i l := by
  constructor
  · intro h
    induction h with
    | start h => exact ⟨0, h⟩
    | link _ hy ih =>
        obtain ⟨i, hi⟩ := ih
        refine ⟨i + 1, ?_⟩
        rw [level_succ]
        exact List.mem_flatMap.mpr ⟨_, hi, hy⟩
  · rintro ⟨i, hi⟩
    induction i generalizing x with
    | zero => exact .start hi
    | succ i ih =>
        rw [level_succ] at hi
        obtain ⟨y, hy, hx⟩ := List.mem_flatMap.mp hi
        exact .link (ih hy) hx

section Finite

variable {U : List A} {rank : A → Nat} (hl : l ⊆ U) (hnext : ∀ x ∈ U, next x ⊆ U)
  (hrank : ∀ x ∈ U, ∀ y ∈ next x, rank x < rank y)

include hl hnext hrank

theorem chain_of_level {n : Nat} (h : x ∈ level next n l) :
    ∃ c : List A, c.length = n + 1 ∧ c.Nodup ∧ c ⊆ U ∧ x ∈ U ∧ ∀ y ∈ c, rank y ≤ rank x := by
  induction n generalizing x with
  | zero =>
      refine ⟨[x], rfl, List.nodup_singleton x, List.cons_subset.mpr ⟨hl h, List.nil_subset U⟩,
        hl h, ?_⟩
      intro y hy
      rw [List.mem_singleton.mp hy]
  | succ n ih =>
      rw [level_succ] at h
      obtain ⟨y, hy, hx⟩ := List.mem_flatMap.mp h
      obtain ⟨c, hlen, hn, hc, hyU, hle⟩ := ih hy
      have hlt := hrank y hyU x hx
      have hxU := hnext y hyU hx
      refine ⟨x :: c, congrArg Nat.succ hlen, ?_, List.cons_subset.mpr ⟨hxU, hc⟩, hxU, ?_⟩
      · refine List.nodup_cons.mpr ⟨fun hm => ?_, hn⟩
        have := hle x hm
        omega
      · intro z hz
        rcases List.mem_cons.mp hz with rfl | hz
        · exact Nat.le_refl _
        · have := hle z hz
          omega

theorem mem_levels_iff_linked : x ∈ levels next U.length l ↔ Linked next l x := by
  rw [mem_levels_iff, linked_iff]
  constructor
  · rintro ⟨i, _, hx⟩
    exact ⟨i, hx⟩
  · rintro ⟨i, hx⟩
    obtain ⟨c, hlen, hn, hc, _⟩ := chain_of_level hl hnext hrank hx
    have hle := length_le_of_subset hn hc
    exact ⟨i, by omega, hx⟩

end Finite

end Levels

end ZenZip.Lib
