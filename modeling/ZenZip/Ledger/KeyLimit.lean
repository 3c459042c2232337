import ZenZip.Ledger.Ops
import ZenZip.Lib.Rank

namespace ZenZip

open Lib

namespace Store

def ofKey (key : String) (j : JobRow) : Bool := j.concurrencyKey = some key

def running (queue key : String) (j : JobRow) : Bool :=
  j.queue = queue && j.status = .running && ofKey key j

def runningCount (s : Store) (queue key : String) : Nat :=
  (s.jobs.select (running queue key)).length

def admitted (s : Store) (queue : String) (cap : Nat) (now : Time) : List JobRow :=
  (s.ready queue now).filter
    (fun j => j.concurrencyKey.isNone || s.keyRank (s.ready queue now) j ≤ cap)

section Keyed

variable {s : Store} {queue key : String} {limit cap : Nat} {leaseMs : Int} {fair : Bool}
  {now : Time} {j : JobRow}

theorem claimIds_keyed (s : Store) (queue : String) (limit cap : Nat) (fair : Bool) (now : Time) :
    ∃ ordered : List JobRow, ordered.Perm (s.admitted queue cap now) ∧
    s.claimIds queue limit (some cap) fair now = (ordered.take limit).map (·.id) := by
  cases fair with
  | true => exact ⟨_, List.perm_insertionSort _ _, rfl⟩
  | false => exact ⟨_, List.perm_insertionSort _ _, rfl⟩

theorem mem_ready : j ∈ s.ready queue now ↔
    j ∈ s.jobs.rows ∧ j.queue = queue ∧ j.status = .pending ∧ j.availableAt ≤ now := by
  rw [ready, Table.mem_select]
  simp only [Bool.and_eq_true, decide_eq_true_eq, and_assoc]

theorem claimBefore_iff {a b : JobRow} : claimBefore a b = true ↔
    b.priority < a.priority ∨ a.priority = b.priority ∧ @LE.le Nat _ a.id b.id := by
  simp [claimBefore]

theorem pairwise_claimBefore (rows : List JobRow) :
    (rows.insertionSort (fun a b => claimBefore a b)).Pairwise
      (fun a b => claimBefore a b = true) := by
  apply pairwise_sorted
  · intro a b
    rw [claimBefore_iff, claimBefore_iff]
    omega
  · intro a b c
    rw [claimBefore_iff, claimBefore_iff, claimBefore_iff]
    omega

theorem orders_ready (s : Store) (queue : String) (now : Time) :
    Orders claimBefore (s.ready queue now) where
  nodup := s.jobs.nodup.of_map.sublist List.filter_sublist
  total x _ y _ := by
    rw [claimBefore_iff, claimBefore_iff]
    omega
  antisymm x hx y hy hxy hyx := by
    rw [claimBefore_iff] at hxy hyx
    have he : @Eq Nat x.id y.id := by omega
    exact s.jobs.key_injOn (mem_ready.mp hx).1 (mem_ready.mp hy).1 he
  trans x _ y _ z _ hxy hyz := by
    rw [claimBefore_iff] at hxy hyz ⊢
    omega

theorem keyRank_eq (hq : j.queue = queue) (hkey : j.concurrencyKey = some key)
    (rows : List JobRow) :
    s.keyRank rows j = s.runningCount queue key + rank claimBefore (rows.filter (ofKey key)) j := by
  have hrunning : s.runningOfKey j = s.runningCount queue key := by
    unfold runningOfKey
    rw [hkey, hq]
    rfl
  have hrow : rowNumber rows j = rank claimBefore (rows.filter (ofKey key)) j := by
    rw [rowNumber, rank, List.filter_filter, hkey]
    refine congrArg List.length (List.filter_congr (fun i _ => ?_))
    rw [Bool.and_comm]
    rfl
  rw [keyRank, hrunning, hrow]

theorem admitted_ofKey (hle : s.runningCount queue key ≤ cap) :
    ((s.admitted queue cap now).filter (ofKey key)).length =
      min (cap - s.runningCount queue key) ((s.ready queue now).filter (ofKey key)).length := by
  have horders := (s.orders_ready queue now).sublist (List.filter_sublist (p := ofKey key))
  rw [← horders.length_rank_le, admitted, List.filter_filter, List.filter_filter]
  refine congrArg List.length (List.filter_congr (fun j hj => ?_))
  cases hkey : ofKey key j with
  | false => simp
  | true =>
      have hkey : j.concurrencyKey = some key := of_decide_eq_true hkey
      rw [keyRank_eq (mem_ready.mp hj).2.1 hkey]
      simp only [hkey, Option.isNone_some, Bool.false_or, Bool.true_and, Bool.and_true,
        decide_eq_decide]
      omega

def taken (s : Store) (ids : List JobId) (key : String) : List JobRow :=
  s.jobs.select (fun j => decide (j.id ∈ ids) && ofKey key j)

theorem taken_nodup (ids : List JobId) : (s.taken ids key).Nodup :=
  s.jobs.nodup.of_map.sublist List.filter_sublist

theorem taken_subset : s.taken (s.claimIds queue limit (some cap) fair now) key ⊆
    (s.admitted queue cap now).filter (ofKey key) := by
  intro j hj
  obtain ⟨hrow, hp⟩ := Table.mem_select.mp hj
  simp only [Bool.and_eq_true, decide_eq_true_eq] at hp
  obtain ⟨ordered, hperm, hids⟩ := s.claimIds_keyed queue limit cap fair now
  rw [hids] at hp
  obtain ⟨i, hi, he⟩ := List.mem_map.mp hp.1
  have hadmitted := hperm.mem_iff.mp (List.mem_of_mem_take hi)
  have hready := (mem_ready.mp (List.mem_of_mem_filter hadmitted)).1
  obtain rfl := s.jobs.key_injOn hready hrow he
  exact List.mem_filter.mpr ⟨hadmitted, hp.2⟩

theorem mem_claimIds_of_admitted (hlt : (s.claimIds queue limit (some cap) fair now).length < limit)
    (hj : j ∈ s.admitted queue cap now) : j.id ∈ s.claimIds queue limit (some cap) fair now := by
  obtain ⟨ordered, hperm, hids⟩ := s.claimIds_keyed queue limit cap fair now
  rw [hids] at hlt ⊢
  rw [List.length_map, List.length_take] at hlt
  have hall : ordered.take limit = ordered := List.take_of_length_le (by omega)
  rw [hall]
  exact List.mem_map.mpr ⟨j, hperm.mem_iff.mpr hj, rfl⟩

theorem subset_taken (hlt : (s.claimIds queue limit (some cap) fair now).length < limit) :
    (s.admitted queue cap now).filter (ofKey key) ⊆ s.taken
      (s.claimIds queue limit (some cap) fair now) key := by
  intro j hj
  obtain ⟨hadmitted, hkey⟩ := List.mem_filter.mp hj
  have hready := (mem_ready.mp (List.mem_of_mem_filter hadmitted)).1
  have hid := mem_claimIds_of_admitted hlt hadmitted
  refine Table.mem_select.mpr ⟨hready, ?_⟩
  rw [Bool.and_eq_true]
  exact ⟨decide_eq_true hid, hkey⟩

theorem claim_length : (s.claim queue limit leaseMs (some cap) fair now).2.length =
    (s.claimIds queue limit (some cap) fair now).length := by
  have hids : (s.claimIds queue limit (some cap) fair now).Nodup := by
    obtain ⟨ordered, hperm, hids⟩ := s.claimIds_keyed queue limit cap fair now
    have hadmitted : ((s.admitted queue cap now).map (·.id)).Nodup :=
      s.jobs.nodup.sublist ((List.filter_sublist.trans List.filter_sublist).map JobRow.id)
    rw [hids]
    exact ((hperm.map _).nodup_iff.mpr hadmitted).sublist ((List.take_sublist limit ordered).map _)
  have hclaimed : ((s.claim queue limit leaseMs (some cap) fair now).2.map (·.id)).Nodup :=
    claim_nodup
  have hperm := (List.perm_ext_iff_of_nodup hclaimed hids).mpr (fun id => mem_claim_ids)
  rw [← hperm.length_eq, List.length_map]

theorem runningCount_claim :
    (s.claim queue limit leaseMs (some cap) fair now).1.runningCount queue key =
    s.runningCount queue key +
      (s.taken (s.claimIds queue limit (some cap) fair now) key).length := by
  let ids := s.claimIds queue limit (some cap) fair now
  let f (j : JobRow) : JobRow := if j.id ∈ ids then claimRow leaseMs now j else j
  have hpending (j : JobRow) (hj : j ∈ s.jobs.rows) (hid : j.id ∈ ids) : j.queue = queue ∧
    j.status = .pending := by
    obtain ⟨i, hi, he, hq, hs, _⟩ := claimIds_ready hid
    obtain rfl := s.jobs.key_injOn hi hj he
    exact ⟨hq, hs⟩
  have hrows : (s.claim queue limit leaseMs (some cap) fair now).1.jobs.rows =
    s.jobs.rows.map f := by
    simp [claim, Table.update, f, ids]
  have htaken : (s.jobs.rows.filter (fun j => decide (j.id ∈ ids))).countP (running queue key ∘ f) =
      (s.taken ids key).length := by
    rw [taken, Table.select, ← List.countP_eq_length_filter, List.countP_filter]
    refine List.countP_congr (fun j hj => ?_)
    by_cases hid : j.id ∈ ids
    · have hf : f j = claimRow leaseMs now j := if_pos hid
      simp [hf, hid, running, claimRow, ofKey, (hpending j hj hid).1]
    · simp [hid]
  have hleft : (s.jobs.rows.filter (fun j => !decide (j.id ∈ ids))).countP (running queue key ∘ f) =
      s.runningCount queue key := by
    rw [runningCount, Table.select, ← List.countP_eq_length_filter, List.countP_filter]
    refine List.countP_congr (fun j hj => ?_)
    by_cases hid : j.id ∈ ids
    · simp [hid, running, (hpending j hj hid).2]
    · have hf : f j = j := if_neg hid
      simp [hf, hid]
  rw [runningCount, Table.select, hrows, ← List.countP_eq_length_filter, List.countP_map,
    List.countP_eq_countP_filter_add _ _ (fun j => decide (j.id ∈ ids)), htaken, hleft,
      Nat.add_comm]

theorem runningCount_claim_le (hle : s.runningCount queue key ≤ cap) :
    (s.claim queue limit leaseMs (some cap) fair now).1.runningCount queue key ≤ cap := by
  have htaken : (s.taken (s.claimIds queue limit (some cap) fair now) key).length ≤
      ((s.admitted queue cap now).filter (ofKey key)).length :=
        length_le_of_subset (taken_nodup _) taken_subset
  rw [admitted_ofKey hle] at htaken
  rw [runningCount_claim]
  omega

/-- What a claim below its limit leaves ready has a key that is at its cap. -/
theorem claim_conserves (hle : ∀ key, s.runningCount queue key ≤ cap)
    (hlt : (s.claim queue limit leaseMs (some cap) fair now).2.length < limit)
    (hj : j ∈ (s.claim queue limit leaseMs (some cap) fair now).1.ready queue now) :
    ∃ key, j.concurrencyKey = some key ∧
      cap ≤ (s.claim queue limit leaseMs (some cap) fair now).1.runningCount queue key := by
  rw [claim_length] at hlt
  obtain ⟨hrow, hq, hpending, havailable⟩ := mem_ready.mp hj
  obtain ⟨i, hi, rfl⟩ := mem_claim_jobs.mp hrow
  by_cases hid : i.id ∈ s.claimIds queue limit (some cap) fair now
  · rw [if_pos hid] at hpending
    cases hpending
  rw [if_neg hid] at hq hpending havailable ⊢
  have hready : i ∈ s.ready queue now := mem_ready.mpr ⟨hi, hq, hpending, havailable⟩
  have hblocked : i ∉ s.admitted queue cap now := fun hm => hid (mem_claimIds_of_admitted hlt hm)
  cases hkey : i.concurrencyKey with
  | none =>
      refine absurd (List.mem_filter.mpr ⟨hready, ?_⟩) hblocked
      rw [hkey]
      rfl
  | some key =>
      refine ⟨key, rfl, ?_⟩
      have hrank : cap < s.keyRank (s.ready queue now) i := by
        refine Nat.lt_of_not_le (fun hle => hblocked (List.mem_filter.mpr ⟨hready, ?_⟩))
        rw [decide_eq_true hle, Bool.or_true]
      rw [keyRank_eq hq hkey] at hrank
      have hroom : rank claimBefore ((s.ready queue now).filter (ofKey key)) i ≤
          ((s.ready queue now).filter (ofKey key)).length := List.length_filter_le _ _
      have hn : ((s.admitted queue cap now).filter (ofKey key)).Nodup :=
        ((s.orders_ready queue now).nodup.filter _).filter _
      have hall := length_le_of_subset hn (subset_taken hlt)
      rw [admitted_ofKey (hle key)] at hall
      rw [runningCount_claim]
      omega

end Keyed

theorem runningCount_le {s s' : Store} {queue key : String}
    (h : ∀ j' ∈ s'.jobs.rows, running queue key j' = true →
    ∃ j ∈ s.jobs.rows, running queue key j = true ∧ j.id = j'.id) :
    s'.runningCount queue key ≤ s.runningCount queue key := by
  have hn : ((s'.jobs.select (running queue key)).map (·.id)).Nodup :=
    s'.jobs.nodup.sublist (List.filter_sublist.map JobRow.id)
  have hsub : (s'.jobs.select (running queue key)).map (·.id) ⊆
    (s.jobs.select (running queue key)).map (·.id) := by
    intro id hm
    obtain ⟨j', hj', rfl⟩ := List.mem_map.mp hm
    obtain ⟨hrow, hr⟩ := Table.mem_select.mp hj'
    obtain ⟨j, hj, hr', he⟩ := h j' hrow hr
    exact List.mem_map.mpr ⟨j, Table.mem_select.mpr ⟨hj, hr'⟩, he⟩
  have hle := length_le_of_subset hn hsub
  rwa [List.length_map, List.length_map] at hle

end Store

namespace StoreOp

variable {s : Store} {now : Time} {op : StoreOp} {queue key : String}

def caps (queue : String) (cap : Nat) : StoreOp → Bool
  | .claim q _ _ keyLimit _ => q ≠ queue || keyLimit = some cap
  | _ => true

theorem running_origin {j : JobRow}
    (hop : ∀ limit leaseMs keyLimit fair, op ≠ .claim queue limit leaseMs keyLimit fair)
    (hj : j ∈ (op.perform s now).jobs.rows) (hr : Store.running queue key j = true) :
    ∃ i ∈ s.jobs.rows, Store.running queue key i = true ∧ i.id = j.id := by
  obtain ⟨i, hi, hch⟩ | ⟨_, _, c, locked, rfl, hn⟩ := op.job_origin hj
  · refine ⟨i, hi, ?_, hch.frame.1.symm⟩
    cases hch with
    | same => exact hr
    | renewed leases leaseMs _ _ hrunning => exact hr
    | claimed q limit leaseMs keyLimit fair _ hid =>
        obtain ⟨i', hi', he, hq, _⟩ := Store.claimIds_ready hid
        obtain rfl := s.jobs.key_injOn hi' hi he
        simp only [Store.running, Store.claimRow, Bool.and_eq_true] at hr
        obtain rfl : q = queue := hq.symm.trans (of_decide_eq_true hr.1.1)
        exact absurd rfl (hop limit leaseMs keyLimit fair)
    | called c locked _ _ hch =>
        cases hch with
        | same => exact hr
        | retried | dead | requeued =>
            simp [Store.running, Store.retryRow, Store.deadRow, Store.requeueRow] at hr
        | expired _ t _ =>
            unfold Store.expiredRow at hr
            split at hr <;> simp [Store.running] at hr
  · obtain ⟨_, hp⟩ := hn.pushed_of
    simp [Store.running, hp.status] at hr

theorem runningCount_le (op : StoreOp) {cap : Nat} (hop : op.caps queue cap = true)
    (h : s.runningCount queue key ≤ cap) : (op.perform s now).runningCount queue key ≤ cap := by
  by_cases hclaim : ∃ limit leaseMs keyLimit fair, op = .claim queue limit leaseMs keyLimit fair
  · obtain ⟨limit, leaseMs, keyLimit, fair, rfl⟩ := hclaim
    obtain rfl : keyLimit = some cap := by simpa [caps] using hop
    exact Store.runningCount_claim_le h
  · refine Nat.le_trans (Store.runningCount_le (fun j hj hr => running_origin ?_ hj hr)) h
    exact fun limit leaseMs keyLimit fair he => hclaim ⟨limit, leaseMs, keyLimit, fair, he⟩

end StoreOp

namespace Ledger

variable {σ σ' : Ledger} {s : Store} {queue : String} {cap : Nat}

/-- A capped key never has more running jobs than its cap, and a claim below its
limit leaves no job behind that the cap would let run. -/
theorem key_limit_kept (hs : ∀ key, s.runningCount queue key ≤ cap)
    (h : Run step (fun _ l => l.2.caps queue cap) (init s) σ) :
    (∀ key, σ.store.runningCount queue key ≤ cap) ∧
    ∀ now limit leaseMs fair σ',
      step σ (now, .claim queue limit leaseMs (some cap) fair) = some σ' →
      (StoreOp.hands σ.store now (.claim queue limit leaseMs (some cap) fair)).length < limit →
      ∀ j ∈ σ'.store.jobs.rows, j.queue = queue → j.status = .pending → j.availableAt ≤ now →
        ∃ key, j.concurrencyKey = some key ∧ cap ≤ σ'.store.runningCount queue key := by
  have hcap : ∀ key, σ.store.runningCount queue key ≤ cap := by
    refine h.invariant (fun τ => ∀ key, τ.store.runningCount queue key ≤ cap) hs ?_
    rintro τ ⟨now, op⟩ τ' _ hI hok hstep key
    rw [store_of_step hstep]
    exact op.runningCount_le hok (hI key)
  refine ⟨hcap, ?_⟩
  intro now limit leaseMs fair σ' hstep hlt j hj hq hpending havailable
  rw [store_of_step hstep] at hj ⊢
  exact Store.claim_conserves hcap hlt (Store.mem_ready.mpr ⟨hj, hq, hpending, havailable⟩)

/-- Two jobs of one key, a third of another and one without: a claim of ten takes all but
the second. -/
theorem key_limit_kept_blocked : ∃ σ σ', Run step (fun _ l => l.2.caps "q" 1) (init .empty) σ ∧
    step σ (1, .claim "q" 10 60000 (some 1) true) = some σ' ∧
    ∃ j, σ'.store.jobs.get? 1 = some j ∧ j.status = .pending ∧
      ∃ key, j.concurrencyKey = some key ∧ 1 ≤ σ'.store.runningCount "q" key := by
  let job (key : Option String) : PushJob :=
    { queue := "q", payload := .data .null, priority := 0, delayMs := 0, maxAttempts := 1,
      concurrencyKey := key,
      debounceKey := none, throttleKey := none, throttleSpacingMs := none }
  obtain ⟨σ, hrun, hp⟩ := Run.exists_of_replay step (fun _ l => l.2.caps "q" 1) (init .empty)
    [(0, .call (.push [job (some "a"), job (some "a"), job (some "b"), job none]) [])]
    (fun σ => ((step σ (1, .claim "q" 10 60000 (some 1) true)).any
      (fun σ' => (σ'.store.jobs.get? 1).any
      (fun j => j.queue = "q" && j.status = .pending && j.availableAt ≤ 1))) &&
      (StoreOp.hands σ.store 1 (.claim "q" 10 60000 (some 1) true)).length = 3) (by decide)
  rw [Bool.and_eq_true] at hp
  obtain ⟨σ', hstep, hj⟩ := (Option.any_eq_true _ _).mp hp.1
  obtain ⟨j, hj, hready⟩ := (Option.any_eq_true _ _).mp hj
  simp only [Bool.and_eq_true, decide_eq_true_eq] at hready
  have hlt : (StoreOp.hands σ.store 1 (.claim "q" 10 60000 (some 1) true)).length < 10 := by
    rw [of_decide_eq_true hp.2]
    decide
  obtain ⟨_, hconserved⟩ := key_limit_kept (fun _ => Nat.zero_le _) hrun
  obtain ⟨hmem, _⟩ := Table.get?_eq_some_iff.mp hj
  exact ⟨σ, σ', hrun, hstep, j, hj, hready.1.2,
    hconserved 1 10 60000 true σ' hstep hlt j hmem hready.1.1 hready.1.2 hready.2⟩

end Ledger

end ZenZip
