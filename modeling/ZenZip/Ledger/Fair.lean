import ZenZip.Ledger.KeyLimit
import Mathlib.Data.List.Dedup

namespace ZenZip

open Lib

namespace Store

/-- The concurrency keys with a ready job. The jobs without a key are one group
more, as in `PARTITION BY`. -/
def readyKeys (s : Store) (queue : String) (now : Time) : List (Option String) :=
  ((s.ready queue now).map (·.concurrencyKey)).dedup

def keyOf (key : Option String) (j : JobRow) : Bool := j.concurrencyKey = key

section Fair

variable {s : Store} {queue : String} {limit : Nat} {now : Time} {key : Option String} {j : JobRow}

theorem mem_readyKeys : key ∈ s.readyKeys queue now ↔
    ∃ j ∈ s.ready queue now, j.concurrencyKey = key := by
  rw [readyKeys, List.mem_dedup, List.mem_map]

theorem rowNumber_eq (rows : List JobRow) (hkey : j.concurrencyKey = key) :
    rowNumber rows j = rank claimBefore (rows.filter (keyOf key)) j := by
  rw [rowNumber, rank, List.filter_filter, hkey]
  exact congrArg List.length (List.filter_congr (fun i _ => Bool.and_comm _ _))

theorem orders_keyOf (s : Store) (queue : String) (now : Time) (key : Option String) :
    Orders claimBefore ((s.ready queue now).filter (keyOf key)) :=
  (s.orders_ready queue now).sublist List.filter_sublist

theorem mem_filter_keyOf (hj : j ∈ s.ready queue now) (hkey : j.concurrencyKey = key) :
    j ∈ (s.ready queue now).filter (keyOf key) :=
  List.mem_filter.mpr ⟨hj, decide_eq_true hkey⟩

theorem rowNumber_pos (hj : j ∈ s.ready queue now) : 1 ≤ rowNumber (s.ready queue now) j := by
  rw [rowNumber_eq _ rfl]
  exact (s.orders_keyOf queue now _).rank_pos (mem_filter_keyOf hj rfl)

theorem rowNumber_injOn {i : JobRow} (hi : i ∈ s.ready queue now) (hj : j ∈ s.ready queue now)
    (hkey : i.concurrencyKey = j.concurrencyKey)
    (he : rowNumber (s.ready queue now) i = rowNumber (s.ready queue now) j) : i = j := by
  rw [rowNumber_eq _ hkey, rowNumber_eq _ rfl] at he
  exact (s.orders_keyOf queue now _).rank_injOn (mem_filter_keyOf hi hkey)
    (mem_filter_keyOf hj rfl) he

theorem exists_head (hkey : key ∈ s.readyKeys queue now) :
    ∃ j ∈ s.ready queue now, j.concurrencyKey = key ∧ rowNumber (s.ready queue now) j = 1 := by
  obtain ⟨i, hi, hi'⟩ := mem_readyKeys.mp hkey
  have hsome : 0 < ((s.ready queue now).filter (keyOf key)).length :=
    List.length_pos_of_mem (mem_filter_keyOf hi hi')
  have hcount := (s.orders_keyOf queue now key).length_rank_le 1
  have hpos : 0 < (((s.ready queue now).filter (keyOf key)).filter
      (fun j => rank claimBefore ((s.ready queue now).filter (keyOf key)) j ≤ 1)).length := by omega
  obtain ⟨j, hj⟩ := List.exists_mem_of_length_pos hpos
  obtain ⟨hj, hle⟩ := List.mem_filter.mp hj
  obtain ⟨hready, hj'⟩ := List.mem_filter.mp hj
  have hj' : j.concurrencyKey = key := of_decide_eq_true hj'
  have hle := of_decide_eq_true hle
  rw [← rowNumber_eq _ hj'] at hle
  exact ⟨j, hready, hj', Nat.le_antisymm hle (rowNumber_pos hready)⟩

def fairOrder (s : Store) (queue : String) (now : Time) : List JobRow :=
  (s.ready queue now).insertionSort (fun a b => fairBefore (s.ready queue now) a b)

theorem claimIds_fair (s : Store) (queue : String) (limit : Nat) (now : Time) :
    s.claimIds queue limit none true now = ((s.fairOrder queue now).take limit).map (·.id) := by
  have hall : (s.ready queue now).filter (fun j => j.concurrencyKey.isNone || true) =
    s.ready queue now :=
    List.filter_eq_self.mpr (fun j _ => Bool.or_true _)
  simp only [claimIds, hall, if_true, fairOrder]

theorem mem_fairOrder : j ∈ s.fairOrder queue now ↔ j ∈ s.ready queue now :=
  List.mem_insertionSort _

theorem fairBefore_iff {rows : List JobRow} {a b : JobRow} : fairBefore rows a b = true ↔
    rowNumber rows a < rowNumber rows b ∨ rowNumber rows a = rowNumber rows b ∧
      (b.priority < a.priority ∨ a.priority = b.priority ∧ @LE.le Nat _ a.id b.id) := by
  rw [← claimBefore_iff, fairBefore, Bool.or_eq_true, Bool.and_eq_true, decide_eq_true_eq,
    decide_eq_true_eq]

theorem fairOrder_pairwise (s : Store) (queue : String) (now : Time) :
    (s.fairOrder queue now).Pairwise (fun a b => fairBefore (s.ready queue now) a b = true) := by
  apply pairwise_sorted
  · intro a b
    rw [fairBefore_iff, fairBefore_iff]
    omega
  · intro a b c
    rw [fairBefore_iff, fairBefore_iff, fairBefore_iff]
    omega

/-- Every group with a ready job has one among the first, as many as there are groups. -/
theorem head_mem_take (hroom : (s.readyKeys queue now).length ≤ limit)
    (hkey : key ∈ s.readyKeys queue now) :
    ∃ j ∈ (s.fairOrder queue now).take limit, j.concurrencyKey = key := by
  obtain ⟨j, hj, hjkey, hone⟩ := exists_head hkey
  let taken := (s.fairOrder queue now).take limit
  by_contra hnone
  have hsplit : taken ++ (s.fairOrder queue now).drop limit = s.fairOrder queue now :=
    List.take_append_drop _ _
  have hrest : j ∈ (s.fairOrder queue now).drop limit := by
    have hm : j ∈ taken ++ (s.fairOrder queue now).drop limit := by
      rw [hsplit]
      exact mem_fairOrder.mpr hj
    refine (List.mem_append.mp hm).resolve_left (fun hm => ?_)
    exact hnone ⟨j, hm, hjkey⟩
  have hready (i : JobRow) (hi : i ∈ taken) : i ∈ s.ready queue now :=
    mem_fairOrder.mp (List.mem_of_mem_take hi)
  -- What stands before the first of a key is the first of its own.
  have hfirst (i : JobRow) (hi : i ∈ taken) : rowNumber (s.ready queue now) i = 1 := by
    have hsorted := s.fairOrder_pairwise queue now
    rw [← hsplit] at hsorted
    have hbefore := fairBefore_iff.mp ((List.pairwise_append.mp hsorted).2.2 i hi j hrest)
    have hpos := rowNumber_pos (hready i hi)
    omega
  have hnodup : taken.Nodup :=
    ((List.perm_insertionSort _ _).nodup_iff.mpr (s.orders_ready queue now).nodup).sublist
    (List.take_sublist _ _)
  have hkeys : (key :: taken.map (·.concurrencyKey)).Nodup := by
    refine List.nodup_cons.mpr ⟨fun hm => ?_, hnodup.map_on (fun i hi i' hi' he => ?_)⟩
    · obtain ⟨i, hi, hi'⟩ := List.mem_map.mp hm
      exact hnone ⟨i, hi, hi'⟩
    · exact rowNumber_injOn (hready i hi) (hready i' hi') he
        ((hfirst i hi).trans (hfirst i' hi').symm)
  have hsub : key :: taken.map (·.concurrencyKey) ⊆ s.readyKeys queue now := by
    intro k hk
    rcases List.mem_cons.mp hk with rfl | hk
    · exact hkey
    · obtain ⟨i, hi, rfl⟩ := List.mem_map.mp hk
      exact mem_readyKeys.mpr ⟨i, hready i hi, rfl⟩
  have hle := length_le_of_subset hkeys hsub
  have hlength : 0 < ((s.fairOrder queue now).drop limit).length := List.length_pos_of_mem hrest
  rw [List.length_drop] at hlength
  rw [List.length_cons, List.length_map, List.length_take] at hle
  omega

/-- A fair claim takes a job of every group with a ready one exactly if its limit
allows one for each. -/
theorem serves_all_iff :
    (∀ key ∈ s.readyKeys queue now, ∃ j ∈ s.ready queue now, j.concurrencyKey = key ∧
    j.id ∈ s.claimIds queue limit none true now) ↔ (s.readyKeys queue now).length ≤ limit := by
  rw [claimIds_fair]
  constructor
  · intro h
    have hsub : s.readyKeys queue now ⊆ ((s.fairOrder queue now).take limit).map
      (·.concurrencyKey) := by
      intro key hkey
      obtain ⟨j, hj, hjkey, hid⟩ := h key hkey
      obtain ⟨i, hi, he⟩ := List.mem_map.mp hid
      have hrow := (mem_ready.mp (mem_fairOrder.mp (List.mem_of_mem_take hi))).1
      obtain rfl := s.jobs.key_injOn hrow (mem_ready.mp hj).1 he
      exact List.mem_map.mpr ⟨i, hi, hjkey⟩
    have hle := length_le_of_subset (List.nodup_dedup _) hsub
    rw [List.length_map, List.length_take] at hle
    exact Nat.le_trans hle (Nat.min_le_left _ _)
  · intro hroom key hkey
    obtain ⟨j, hj, hjkey⟩ := head_mem_take hroom hkey
    exact ⟨j, mem_fairOrder.mp (List.mem_of_mem_take hj), hjkey, List.mem_map.mpr ⟨j, hj, rfl⟩⟩

end Fair

end Store

namespace StoreOp

def fairClaim (queue : String) : StoreOp → Bool
  | .claim q limit _ keyLimit fair => q = queue && 1 ≤ limit && keyLimit.isNone && fair
  | _ => false

/-- Pushes of one priority, acks, and fair claims. -/
def fairTraffic (queue : String) (priority : Int) : StoreOp → Bool
  | .call (.push jobs) _ => jobs.all (fun job => job.priority = priority)
  | .call (.ack _ _) _ => true
  | op => op.fairClaim queue

/-- A claim on the queue is fair and has room for every group with a ready job. -/
def roomy (queue : String) (s : Store) (now : Time) : StoreOp → Bool
  | .claim q limit leaseMs keyLimit fair => q ≠ queue ||
      fairClaim queue (.claim q limit leaseMs keyLimit fair) &&
        (s.readyKeys queue now).length ≤ limit
  | _ => true

def served (queue key : String) (s : Store) (now : Time) (op : StoreOp) : List JobRow :=
  (s.taken ((op.hands s now).map (·.id)) key).filter (fun j => j.queue = queue)

end StoreOp

namespace Store

def waits (s : Store) (queue key : String) (now : Time) : Bool :=
  (s.ready queue now).any (ofKey key)

end Store

namespace Ledger

def passesOver (queue key other : String) (σ : Ledger) (l : Time × StoreOp) : Bool :=
  (l.2.served queue key σ.store l.1).isEmpty && (l.2.served queue other σ.store l.1).isEmpty &&
    σ.store.waits queue other l.1

/-- Where two jobs of `key` are claimed and none in between, a key that has a
ready job from the one to the other is served as well. `ok` are the steps that
can be taken. -/
structure FairBetween (ok : Ledger → Time × StoreOp → Bool) (queue : String) (σ₀ : Ledger) :
    Prop where
  within : ∀ σ now op key other, Run step ok σ₀ σ → ok σ (now, op) = true → key ≠ other →
    2 ≤ (op.served queue key σ.store now).length → σ.store.waits queue other now = true →
    op.served queue other σ.store now ≠ []
  across : ∀ σ now op σ₁ σ₂ now' op' key other, Run step ok σ₀ σ → ok σ (now, op) = true →
    key ≠ other →
    op.served queue key σ.store now ≠ [] → σ.store.waits queue other now = true →
      step σ (now, op) = some σ₁ →
    Run step (fun τ l => ok τ l && passesOver queue key other τ l) σ₁ σ₂ →
    ok σ₂ (now', op') = true → op'.served queue key σ₂.store now' ≠ [] →
      σ₂.store.waits queue other now' = true →
    op.served queue other σ.store now ≠ [] ∨ op'.served queue other σ₂.store now' ≠ []

variable {s : Store} {now : Time} {op : StoreOp} {queue key other : String}

theorem claims_of_served {j : JobRow} (hj : j ∈ op.served queue key s now) :
    ∃ limit leaseMs keyLimit fair, op = .claim queue limit leaseMs keyLimit fair := by
  obtain ⟨hj, hq⟩ := List.mem_filter.mp hj
  obtain ⟨hrow, hp⟩ := Table.mem_select.mp hj
  rw [Bool.and_eq_true] at hp
  obtain ⟨cj, hcj, he⟩ := List.mem_map.mp (of_decide_eq_true hp.1)
  obtain ⟨i, hi, q, limit, leaseMs, keyLimit, fair, rfl, hid, _, rfl, _⟩ := StoreOp.mem_hands hcj
  obtain ⟨i', hi', he', hq', _⟩ := Store.claimIds_ready hid
  have hi'j : @Eq Nat i'.id j.id := he'.trans he
  obtain rfl := s.jobs.key_injOn hi' hrow hi'j
  obtain rfl : q = queue := hq'.symm.trans (of_decide_eq_true hq)
  exact ⟨limit, leaseMs, keyLimit, fair, rfl⟩

theorem served_of_roomy (hok : op.roomy queue s now = true)
    (hserved : op.served queue key s now ≠ [])
    (hwaits : s.waits queue other now = true) : op.served queue other s now ≠ [] := by
  obtain ⟨j, hj⟩ := List.exists_mem_of_ne_nil _ hserved
  obtain ⟨limit, leaseMs, keyLimit, fair, rfl⟩ := claims_of_served hj
  simp only [StoreOp.roomy, StoreOp.fairClaim, ne_eq, not_true_eq_false, decide_false,
    Bool.false_or, decide_true,
    Bool.true_and, Bool.and_eq_true, decide_eq_true_eq, Option.isNone_iff_eq_none] at hok
  obtain ⟨⟨⟨_, rfl⟩, rfl⟩, hroom⟩ := hok
  obtain ⟨i, hi, hkey⟩ := List.any_eq_true.mp hwaits
  have hmem : some other ∈ s.readyKeys queue now :=
    Store.mem_readyKeys.mpr ⟨i, hi, of_decide_eq_true hkey⟩
  obtain ⟨k, hk, hkkey, hid⟩ := Store.serves_all_iff.mpr hroom (some other) hmem
  obtain ⟨hrow, hq, _⟩ := Store.mem_ready.mp hk
  refine List.ne_nil_of_mem (a := k)
    (List.mem_filter.mpr ⟨Table.mem_select.mpr ⟨hrow, ?_⟩, decide_eq_true hq⟩)
  rw [Bool.and_eq_true]
  exact ⟨decide_eq_true (Store.mem_claim_ids.mpr hid), decide_eq_true hkkey⟩

/-- Claims are fair across batches in every run whose claims have room for all the
groups with ready jobs, which are the claims that leave none of them out. -/
theorem roomy_claims_fair (queue : String) :
    (∀ s, FairBetween (fun σ l => l.2.roomy queue σ.store l.1) queue (init s)) ∧
    ∀ (s : Store) (now : Time) (limit : Nat), (s.readyKeys queue now).length ≤ limit ↔
      ∀ key ∈ s.readyKeys queue now, ∃ j ∈ s.ready queue now, j.concurrencyKey = key ∧
        j.id ∈ s.claimIds queue limit none true now := by
  refine ⟨fun s => ⟨?_, ?_⟩, fun s now limit => Store.serves_all_iff.symm⟩
  · intro σ now op key other _ hok _ htwo hwaits
    have hserved : op.served queue key σ.store now ≠ [] := List.ne_nil_of_length_pos (by omega)
    exact served_of_roomy hok hserved hwaits
  · intro σ now op σ₁ σ₂ now' op' key other _ _ _ _ _ _ _ hok' hserved' hwaits'
    exact .inr (served_of_roomy hok' hserved' hwaits')

/-- Two jobs of one key and one of another: claims of one job take the first key twice. -/
theorem single_claims_not_fair :
    ¬ ∀ queue priority, FairBetween (fun _ l => l.2.fairTraffic queue priority) queue
      (init .empty) := by
  let job (key : String) : PushJob :=
    { queue := "q", payload := .data .null, priority := 0, delayMs := 0, maxAttempts := 1,
      concurrencyKey := some key,
      debounceKey := none, throttleKey := none, throttleSpacingMs := none }
  let claim : StoreOp := .claim "q" 1 60000 none true
  intro h
  obtain ⟨σ, hrun, hp⟩ := Run.exists_of_replay step (fun _ l => l.2.fairTraffic "q" 0) (init .empty)
    [(0, .call (.push [job "a", job "a", job "b"]) [])]
    (fun σ => !(claim.served "q" "a" σ.store 1).isEmpty &&
      (claim.served "q" "b" σ.store 1).isEmpty &&
      σ.store.waits "q" "b" 1 &&
        (step σ (1, claim)).any (fun σ₁ => !(claim.served "q" "a" σ₁.store 2).isEmpty &&
        (claim.served "q" "b" σ₁.store 2).isEmpty && σ₁.store.waits "q" "b" 2)) (by decide)
  simp only [Bool.and_eq_true, Bool.not_eq_true', List.isEmpty_iff, List.isEmpty_eq_false_iff] at hp
  obtain ⟨⟨⟨ha, hb⟩, hwaits⟩, hnext⟩ := hp
  obtain ⟨σ₁, hstep, hp⟩ := (Option.any_eq_true _ _).mp hnext
  simp only [Bool.and_eq_true, Bool.not_eq_true', List.isEmpty_iff, List.isEmpty_eq_false_iff] at hp
  obtain ⟨⟨ha', hb'⟩, hwaits'⟩ := hp
  obtain hne | hne :=
    (h "q" 0).across σ 1 claim σ₁ σ₁ 2 claim "a" "b" hrun (by decide) (by decide) ha hwaits
      hstep .refl
    (by decide) ha' hwaits'
  · exact hne hb
  · exact hne hb'

end Ledger

end ZenZip
