import ZenZip.Ledger.KeyLimit

namespace ZenZip

open Lib

namespace Store

def idBefore (a b : JobRow) : Bool := a.id ≤ b.id

section Priority

variable {s : Store} {queue : String} {limit cap : Nat} {leaseMs : Int} {now : Time}
  {a b j : JobRow} {ids ids' : List JobId}

theorem idBefore_iff : idBefore a b = true ↔ @LE.le Nat _ a.id b.id := decide_eq_true_iff

theorem orders_id (s : Store) (queue : String) (now : Time) :
    Orders idBefore (s.ready queue now) where
  nodup := (s.orders_ready queue now).nodup
  total x _ y _ := by
    rw [idBefore_iff, idBefore_iff]
    omega
  antisymm x hx y hy hxy hyx := by
    rw [idBefore_iff] at hxy hyx
    have he : @Eq Nat x.id y.id := by omega
    exact s.jobs.key_injOn (mem_ready.mp hx).1 (mem_ready.mp hy).1 he
  trans x _ y _ z _ hxy hyz := by
    rw [idBefore_iff] at hxy hyz ⊢
    omega

theorem pairwise_idBefore (rows : List JobRow) :
    (rows.insertionSort (fun a b => a.id ≤ b.id)).Pairwise (fun a b => idBefore a b = true) := by
  have htotal : Std.Total (fun a b : JobRow => a.id ≤ b.id) := ⟨fun a b => Nat.le_total a.id b.id⟩
  have htrans : IsTrans JobRow (fun a b => a.id ≤ b.id) := ⟨fun _ _ _ => Nat.le_trans⟩
  exact (List.pairwise_insertionSort (fun a b : JobRow => a.id ≤ b.id) rows).imp idBefore_iff.mpr

theorem orders_admitted (s : Store) (queue : String) (cap : Nat) (now : Time) :
    Orders idBefore (s.admitted queue cap now) :=
  (s.orders_id queue now).sublist List.filter_sublist

theorem mem_ready_of_admitted (h : j ∈ s.admitted queue cap now) : j ∈ s.ready queue now :=
  List.mem_of_mem_filter h

theorem mem_ids_iff {rows : List JobRow} (hrows : rows ⊆ s.ready queue now)
    (hj : j ∈ s.ready queue now) :
    j.id ∈ rows.map (·.id) ↔ j ∈ rows := by
  rw [List.mem_map]
  constructor
  · rintro ⟨i, hi, he⟩
    rwa [← s.jobs.key_injOn (mem_ready.mp (hrows hi)).1 (mem_ready.mp hj).1 he]
  · exact fun h => ⟨j, h, rfl⟩

theorem mem_keyed_iff (hj : j ∈ s.ready queue now) :
    j.id ∈ s.claimIds queue limit (some cap) false now ↔
    j ∈ s.admitted queue cap now ∧ rank idBefore (s.admitted queue cap now) j ≤ limit := by
  have hperm := List.perm_insertionSort (fun a b : JobRow => a.id ≤ b.id) (s.admitted queue cap now)
  have hids : s.claimIds queue limit (some cap) false now =
      (((s.admitted queue cap now).insertionSort (fun a b => a.id ≤ b.id)).take limit).map (·.id) :=
        rfl
  rw [hids, mem_ids_iff
    (fun i hi => mem_ready_of_admitted (hperm.subset (List.mem_of_mem_take hi))) hj]
  exact (s.orders_admitted queue cap now).mem_take_iff hperm (pairwise_idBefore _)

theorem mem_plain_iff (hj : j ∈ s.ready queue now) : j.id ∈ s.claimIds queue limit none false now ↔
    rank claimBefore (s.ready queue now) j ≤ limit := by
  have hperm := List.perm_insertionSort (fun a b => claimBefore a b) (s.ready queue now)
  have hids : s.claimIds queue limit none false now =
      (((s.ready queue now).insertionSort (fun a b => claimBefore a b)).take limit).map (·.id) :=
        rfl
  rw [hids, mem_ids_iff (fun i hi => hperm.subset (List.mem_of_mem_take hi)) hj]
  rw [(s.orders_ready queue now).mem_take_iff hperm (pairwise_claimBefore _)]
  exact and_iff_right hj

/-- Which rows a claim updates depends on the ids that it has selected, not on their order. -/
theorem claim_congr {keyLimit keyLimit' : Option Nat} {fair fair' : Bool}
    (h : ∀ id, id ∈ s.claimIds queue limit keyLimit fair now ↔
    id ∈ s.claimIds queue limit keyLimit' fair' now) :
    s.claim queue limit leaseMs keyLimit fair now =
    s.claim queue limit leaseMs keyLimit' fair' now := by
  have hsel : (fun j : JobRow => decide (j.id ∈ s.claimIds queue limit keyLimit fair now)) =
      fun j => decide (j.id ∈ s.claimIds queue limit keyLimit' fair' now) := by
    funext j
    exact decide_eq_decide.mpr (h j.id)
  simp only [claim, hsel]

end Priority

/-- The claim picks by priority: like a plain one where the cap admits every ready job, which hands
out the first by priority and age, and never one in place of an admitted job of higher priority. -/
def PicksByPriority (s : Store) (queue : String) (limit : Nat) (leaseMs : Int) (cap : Nat)
    (now : Time) : Prop :=
  ((∀ j ∈ s.ready queue now, j ∈ s.admitted queue cap now) →
    s.claim queue limit leaseMs (some cap) false now = s.claim queue limit leaseMs none false now ∧
    (s.claim queue limit leaseMs (some cap) false now).2.map (·.id) =
      (((s.ready queue now).insertionSort (fun a b => claimBefore a b)).take limit).map (·.id)) ∧
  ∀ a ∈ s.ready queue now, ∀ b ∈ s.admitted queue cap now,
    a.id ∈ s.claimIds queue limit (some cap) false now →
    b.id ∉ s.claimIds queue limit (some cap) false now → b.priority ≤ a.priority

/-- None of the jobs that the cap admits has a higher priority than one of the `limit` oldest of
them. -/
def OldestFirst (s : Store) (queue : String) (limit cap : Nat) (now : Time) : Prop :=
  ∀ a ∈ s.admitted queue cap now, ∀ b ∈ s.admitted queue cap now,
    rank idBefore (s.admitted queue cap now) a ≤ limit →
    limit < rank idBefore (s.admitted queue cap now) b → b.priority ≤ a.priority

section Picks

variable {s : Store} {queue : String} {limit cap : Nat} {leaseMs : Int} {now : Time}
  {a b j : JobRow}

theorem no_higher_left_iff : (∀ a ∈ s.ready queue now, ∀ b ∈ s.admitted queue cap now,
    a.id ∈ s.claimIds queue limit (some cap) false now →
      b.id ∉ s.claimIds queue limit (some cap) false now →
      b.priority ≤ a.priority) ↔ s.OldestFirst queue limit cap now := by
  constructor
  · intro h a ha b hb hle hlt
    apply h a (mem_ready_of_admitted ha) b hb
    · exact (mem_keyed_iff (mem_ready_of_admitted ha)).mpr ⟨ha, hle⟩
    · intro hid
      have hle := ((mem_keyed_iff (mem_ready_of_admitted hb)).mp hid).2
      exact Nat.not_le_of_lt hlt hle
  · intro h a ha b hb hid hnot
    obtain ⟨hadm, hle⟩ := (mem_keyed_iff ha).mp hid
    apply h a hadm b hb hle
    by_contra hge
    exact hnot ((mem_keyed_iff (mem_ready_of_admitted hb)).mpr ⟨hb, Nat.le_of_not_lt hge⟩)

theorem rank_claimBefore_le (h : s.OldestFirst queue limit cap now)
    (hall : ∀ j ∈ s.ready queue now, j ∈ s.admitted queue cap now)
    (ha : a ∈ s.ready queue now) (hle : rank idBefore (s.admitted queue cap now) a ≤ limit) :
    rank claimBefore (s.ready queue now) a ≤ limit := by
  have horders := s.orders_admitted queue cap now
  let oldest :=
    (s.admitted queue cap now).filter (fun j => rank idBefore (s.admitted queue cap now) j ≤ limit)
  have hsub : (s.ready queue now).filter (fun y => claimBefore y a) ⊆ oldest := by
    intro y hy
    obtain ⟨hy, hya⟩ := List.mem_filter.mp hy
    refine List.mem_filter.mpr ⟨hall y hy, decide_eq_true ?_⟩
    rcases claimBefore_iff.mp hya with hlt | ⟨_, hid⟩
    · by_contra hgt
      have hpriority := h a (hall a ha) y (hall y hy) hle (Nat.lt_of_not_le hgt)
      omega
    · by_cases hne : y = a
      · rwa [hne]
      · have hlt := horders.rank_lt (hall y hy) (hall a ha) (idBefore_iff.mpr hid) hne
        omega
  have hlen := length_le_of_subset ((s.orders_ready queue now).nodup.filter _) hsub
  rw [horders.length_rank_le] at hlen
  exact Nat.le_trans hlen (Nat.min_le_left _ _)

/-- Without a job that the cap keeps out, a keyed claim is a plain one if the oldest come first. -/
theorem claim_eq_plain (h : s.OldestFirst queue limit cap now)
    (hall : ∀ j ∈ s.ready queue now, j ∈ s.admitted queue cap now) :
    s.claim queue limit leaseMs (some cap) false now =
    s.claim queue limit leaseMs none false now := by
  have hadmitted : s.admitted queue cap now = s.ready queue now :=
    List.filter_eq_self.mpr (fun j hj => (List.mem_filter.mp (hall j hj)).2)
  have hsub (j : JobRow) (hj : j ∈ s.ready queue now)
    (hle : rank idBefore (s.ready queue now) j ≤ limit) :
      rank claimBefore (s.ready queue now) j ≤ limit := by
    rw [← hadmitted] at hle
    exact rank_claimBefore_le h hall hj hle
  -- both take as many jobs as there are, up to the limit
  have hback (j : JobRow) (hj : j ∈ s.ready queue now)
    (hle : rank claimBefore (s.ready queue now) j ≤ limit) :
      rank idBefore (s.ready queue now) j ≤ limit := by
    by_contra hgt
    let oldest := (s.ready queue now).filter (fun j => rank idBefore (s.ready queue now) j ≤ limit)
    have hnodup : (j :: oldest).Nodup := by
      refine List.nodup_cons.mpr ⟨fun hm => ?_, (s.orders_ready queue now).nodup.filter _⟩
      exact hgt (of_decide_eq_true (List.mem_filter.mp hm).2)
    have hmore : j ::
      oldest ⊆ (s.ready queue now).filter
        (fun j => rank claimBefore (s.ready queue now) j ≤ limit) := by
      intro i hi
      rcases List.mem_cons.mp hi with rfl | hi
      · exact List.mem_filter.mpr ⟨hj, decide_eq_true hle⟩
      · obtain ⟨hi, hp⟩ := List.mem_filter.mp hi
        exact List.mem_filter.mpr ⟨hi, decide_eq_true (hsub i hi (of_decide_eq_true hp))⟩
    have hlen := length_le_of_subset hnodup hmore
    rw [List.length_cons, (s.orders_id queue now).length_rank_le,
      (s.orders_ready queue now).length_rank_le] at hlen
    omega
  apply claim_congr
  intro id
  have hready {keyLimit : Option Nat} (hid : id ∈ s.claimIds queue limit keyLimit false now) :
      ∃ j ∈ s.ready queue now, j.id = id := by
    obtain ⟨j, hj, rfl, hrest⟩ := claimIds_ready hid
    exact ⟨j, mem_ready.mpr ⟨hj, hrest⟩, rfl⟩
  constructor
  · intro hid
    obtain ⟨j, hj, rfl⟩ := hready hid
    have hle := ((mem_keyed_iff hj).mp hid).2
    rw [hadmitted] at hle
    exact (mem_plain_iff hj).mpr (hsub j hj hle)
  · intro hid
    obtain ⟨j, hj, rfl⟩ := hready hid
    refine (mem_keyed_iff hj).mpr ⟨hall j hj, ?_⟩
    rw [hadmitted]
    exact hback j hj ((mem_plain_iff hj).mp hid)

theorem claimBefore_claimRow (now' : Time) (a b : JobRow) :
    claimBefore (claimRow leaseMs now' a) (claimRow leaseMs now' b) = claimBefore a b := rfl

theorem select_claim (ids : List JobId) :
    (s.jobs.update (fun j => j.id ∈ ids) (claimRow leaseMs now) (fun _ => rfl)).select
    (fun j => j.id ∈ ids) = (s.jobs.select (fun j => j.id ∈ ids)).map (claimRow leaseMs now) := by
  have hid (i : JobRow) : (if decide (i.id ∈ ids) = true then claimRow leaseMs now i else i).id =
    i.id := by
    split
    · rfl
    · rfl
  simp only [Table.select, Table.update, List.filter_map]
  have hfilter : s.jobs.rows.filter ((fun j => decide (j.id ∈ ids)) ∘
      fun i => if decide (i.id ∈ ids) = true then claimRow leaseMs now i else i) =
      s.jobs.rows.filter (fun j => decide (j.id ∈ ids)) := by
    apply List.filter_congr
    intro i _
    rw [Function.comp_apply, hid]
  rw [hfilter]
  apply List.map_congr_left
  intro i hi
  exact if_pos (List.mem_filter.mp hi).2

theorem claim_plain_ids (s : Store) (queue : String) (limit : Nat) (leaseMs : Int) (now : Time) :
    (s.claim queue limit leaseMs none false now).2.map (·.id) =
      (((s.ready queue now).insertionSort (fun a b => claimBefore a b)).take limit).map (·.id) := by
  let sorted := (s.ready queue now).insertionSort (fun a b => claimBefore a b)
  let ids := s.claimIds queue limit none false now
  let selected := s.jobs.select (fun j => j.id ∈ ids)
  have hperm : sorted.Perm (s.ready queue now) := List.perm_insertionSort _ _
  have hready {j : JobRow} (hj : j ∈ sorted.take limit) : j ∈ s.ready queue now :=
    hperm.subset (List.mem_of_mem_take hj)
  have hmem (j : JobRow) : j ∈ selected ↔ j ∈ sorted.take limit := by
    constructor
    · intro hj
      obtain ⟨hj, hid⟩ := Table.mem_select.mp hj
      obtain ⟨i, hi, he⟩ := List.mem_map.mp (of_decide_eq_true hid)
      rwa [← s.jobs.key_injOn (mem_ready.mp (hready hi)).1 hj he]
    · intro hj
      exact Table.mem_select.mpr
        ⟨(mem_ready.mp (hready hj)).1, decide_eq_true (List.mem_map_of_mem hj)⟩
  have hnodup : selected.Nodup := s.jobs.nodup.of_map.sublist List.filter_sublist
  have htaken : (sorted.take limit).Nodup :=
    (hperm.nodup_iff.mpr (s.orders_ready queue now).nodup).sublist (List.take_sublist _ _)
  have hsorted : selected.insertionSort (fun a b => claimBefore a b) = sorted.take limit := by
    have hs := pairwise_claimBefore selected
    have ht : (sorted.take limit).Pairwise (fun a b => claimBefore a b = true) :=
      (pairwise_claimBefore _).sublist (List.take_sublist _ _)
    refine List.Perm.eq_of_pairwise (fun a b ha hb hab hba => ?_) hs ht ?_
    · have ha := (hmem a).mp ((List.perm_insertionSort _ _).subset ha)
      exact (s.orders_ready queue now).antisymm a (hready ha) b (hready hb) hab hba
    · exact (List.perm_insertionSort _ _).trans
        ((List.perm_ext_iff_of_nodup hnodup htaken).mpr hmem)
  calc (s.claim queue limit leaseMs none false now).2.map (·.id)
      = ((selected.map (claimRow leaseMs now)).insertionSort (fun a b => claimBefore a b)).map
        (·.id) := by
        simp only [claim, select_claim, List.map_map, ids, selected]
        rfl
    _ = (selected.insertionSort (fun a b => claimBefore a b)).map (·.id) := by
        rw [← List.map_insertionSort (r := fun a b => claimBefore a b)
          (s := fun a b => claimBefore a b)
          (claimRow leaseMs now) selected (fun a _ b _ => by rw [claimBefore_claimRow]),
            List.map_map]
        rfl
    _ = (sorted.take limit).map (·.id) := by rw [hsorted]

/-- A keyed claim picks by priority exactly where no job has a higher priority than one of the
oldest. -/
theorem picks_by_priority_iff (s : Store) (queue : String) (limit : Nat) (leaseMs : Int) (cap : Nat)
    (now : Time) :
    s.PicksByPriority queue limit leaseMs cap now ↔ s.OldestFirst queue limit cap now := by
  constructor
  · exact fun h => no_higher_left_iff.mp h.2
  · intro h
    refine ⟨fun hall => ?_, no_higher_left_iff.mpr h⟩
    have heq : s.claim queue limit leaseMs (some cap) false now =
      s.claim queue limit leaseMs none false now :=
      claim_eq_plain h hall
    refine ⟨heq, ?_⟩
    rw [heq]
    exact s.claim_plain_ids queue limit leaseMs now

/-- Two jobs, the younger one of higher priority: a keyed claim of one takes the older job. -/
theorem old_job_before_priority : ¬ (Store.empty.push [
    { queue := "q", payload := .data .null, priority := 0, delayMs := 0, maxAttempts := 1,
      concurrencyKey := none,
      debounceKey := none, throttleKey := none, throttleSpacingMs := none },
    { queue := "q", payload := .data .null, priority := 5, delayMs := 0, maxAttempts := 1,
      concurrencyKey := none,
      debounceKey := none, throttleKey := none, throttleSpacingMs := none }] 0).1.PicksByPriority
        "q" 1 60000 100 1 := by
  rintro ⟨_, hleft⟩
  revert hleft
  decide

end Picks

end Store

end ZenZip
