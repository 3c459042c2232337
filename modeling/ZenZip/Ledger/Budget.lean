import ZenZip.Ledger.Fences

namespace ZenZip

open Lib

/-- What `run_group` does with one job of its group when the handler returns.
The delay of a retry is the backoff's. -/
def ClaimedJob.settle (job : ClaimedJob) (now delay : Time) : Except String Unit → StoreOp
  | .ok () => .call (.ack job.id job.fence) []
  | .error message =>
    if job.maxAttempts ≤ job.attempt then .call (.failDead job.id message job.fence) []
    else .call (.failRetry job.id message (now + delay) job.fence) []

namespace Ledger

/-- Every `ack`, `fail_retry` and `fail_dead` is a claimed job settled as `run_group`
settles it, however late. -/
def follows (σ : Ledger) (l : Time × StoreOp) : Bool :=
  match l.2 with
  | .call (.ack id fence) _ => σ.claims.any (fun c => c.id = id && c.fence = fence)
  | .call (.failRetry id _ _ fence) _ =>
      σ.claims.any (fun c => c.id = id && c.fence = fence && c.attempt < c.maxAttempts)
  | .call (.failDead id _ fence) _ =>
      σ.claims.any (fun c => c.id = id && c.fence = fence && c.maxAttempts ≤ c.attempt)
  | _ => true

theorem follows_settle {σ : Ledger} {job : ClaimedJob} (h : job ∈ σ.claims) (now at' delay : Time)
    (result : Except String Unit) : follows σ (now, job.settle at' delay result) = true := by
  cases result with
  | ok u => exact List.any_eq_true.mpr ⟨job, h, by simp⟩
  | error message =>
      by_cases hle : job.maxAttempts ≤ job.attempt
      · rw [ClaimedJob.settle, if_pos hle]
        exact List.any_eq_true.mpr ⟨job, h, by simp [hle]⟩
      · rw [ClaimedJob.settle, if_neg hle]
        exact List.any_eq_true.mpr ⟨job, h, by simp [Nat.lt_of_not_le hle]⟩

end Ledger

namespace Store

def Allowed (s : Store) : Prop := ∀ j ∈ s.jobs.rows, 1 ≤ j.maxAttempts

variable {s : Store}

theorem Allowed.insertJobRow (h : s.Allowed) (job : PushJob) (now : Time) :
    (s.insertJobRow job now).1.Allowed := by
  intro j hj
  obtain ⟨hj, _⟩ | rfl := s.mem_insertJobRow job now hj
  · exact h j hj
  · exact Nat.le_max_right _ _

theorem Allowed.emitInTx (h : s.Allowed) (name : String) (payload : Json)
    (targets : List TriggerTarget)
    (locked : List RunId) (now : Time) :
    (s.emitInTx name payload targets locked now).1.Allowed := by
  rw [emitInTx_fst]
  refine mapAccum_preserves _ Allowed (fun s' t _ hs' => ?_) ?_
  · rw [startTarget_fst]
    exact Allowed.insertJobRow (s := s'.addRun (targetRun _ t) now) hs' _ now
  · exact mapAccum_preserves (releaseWaiter payload now) Allowed
      (fun s' r _ hs' => hs'.insertJobRow (workflowExecutionJob r.workflow r.id 0) now) h

end Store

theorem StoreOp.allowed {s : Store} (h : s.Allowed) (op : StoreOp) (now : Time) :
    (op.perform s now).Allowed := by
  intro j hj
  obtain ⟨i, hi, hch⟩ | ⟨_, _, c, locked, rfl, hn⟩ := op.job_origin hj
  · rw [hch.frame.2.2.2.1]
    exact h i hi
  · cases hn with
    | pushed _ job jobs =>
        have hpush : (s.push jobs now).1.Allowed :=
          mapAccum_preserves _ Store.Allowed (fun s' job _ hs' => hs'.insertJobRow job now) h
        exact hpush j hj
    | released | started => exact h.emitInTx _ _ _ _ _ j hj

namespace StoreOp

variable {s : Store} {now : Time} {op : StoreOp} {i j : JobRow}

theorem not_restores_of_fresh (hf : s.Fresh) {id : JobId} (hid : s.nextId ≤ id) :
    op.restores s id = false := by
  have hn : s.jobs.get? id = none := by
    rw [Table.get?_eq_none_iff]
    intro j hj he
    exact absurd (he ▸ hf.jobs j hj) (Nat.not_lt_of_le hid)
  cases op with
  | claim | renewLeases => rfl
  | call c locked =>
      cases c with
      | requeueDead ids => simp [restores, hn]
      | _ => rfl

theorem not_mem_hands_of_fresh (hf : s.Fresh) {id : JobId} (hid : s.nextId ≤ id) :
    id ∉ (op.hands s now).map ClaimedJob.id := by
  intro hm
  obtain ⟨c, hc, rfl⟩ := List.mem_map.mp hm
  obtain ⟨i, _, hi, _⟩ := hands_fence hc
  obtain ⟨hmem, he⟩ := Table.get?_eq_some_iff.mp hi
  exact absurd (he ▸ hf.jobs i hmem) (Nat.not_lt_of_le hid)

theorem attempt_eq (op : StoreOp) (hf : s.Fresh) (hi : i ∈ s.jobs.rows)
    (hj : j ∈ (op.perform s now).jobs.rows)
    (hid : j.id = i.id) : j.attempt = if op.restores s i.id then 0
      else if i.id ∈ (op.hands s now).map ClaimedJob.id then i.attempt + 1 else i.attempt := by
  cases op with
  | claim queue limit leaseMs keyLimit fair =>
      obtain ⟨i', hi', rfl⟩ := Store.mem_claim_jobs.mp hj
      have hid' : i'.id = i.id := by
        split at hid <;> exact hid
      obtain rfl := s.jobs.key_injOn hi' hi hid'
      simp only [restores, hands, Store.mem_claim_ids]
      split <;> rfl
  | renewLeases leases leaseMs =>
      obtain ⟨i', hi', rfl⟩ := List.mem_map.mp hj
      have hid' : i'.id = i.id := by
        split at hid <;> exact hid
      obtain rfl := s.jobs.key_injOn hi' hi hid'
      simp only [restores, hands, List.map_nil, List.not_mem_nil]
      split <;> rfl
  | call c locked =>
      by_cases hr : (StoreOp.call c locked).restores s i.id = true
      · rw [if_pos hr]
        cases c with
        | requeueDead ids =>
            obtain ⟨i', hi', rfl⟩ := List.mem_map.mp hj
            have hid' : i'.id = i.id := by
              split at hid <;> exact hid
            obtain rfl := s.jobs.key_injOn hi' hi hid'
            simp only [restores, Table.get?_key hi, Option.any_some] at hr
            rw [if_pos hr]
            rfl
        | _ => cases hr
      · rw [if_neg hr, if_neg (fun h => by cases h)]
        obtain ⟨i', hi', hch⟩ | ⟨hge, _⟩ := job_origin _ hj
        · obtain rfl := s.jobs.key_injOn hi' hi (hch.frame.1.symm.trans hid)
          cases hch with
          | same => rfl
          | called c locked _ _ hch =>
              cases hch with
              | requeued _ ids hmem hdead =>
                  refine absurd ?_ hr
                  simp [restores, Table.get?_key hi, hmem, hdead]
              | expired _ t _ =>
                  unfold Store.expiredRow
                  split <;> rfl
              | _ => rfl
        · rw [hid] at hge
          exact absurd (hf.jobs i hi) (Nat.not_lt_of_le hge)

theorem Change.attempt_le (h : Change s now op i j) (hfence : j.fence = i.fence) :
    j.attempt ≤ i.attempt := by
  cases h with
  | same => exact Nat.le_refl _
  | claimed => exact absurd hfence (Nat.succ_ne_self _)
  | renewed => exact Nat.le_refl _
  | called c locked _ _ hch =>
      cases hch with
      | requeued => exact Nat.zero_le _
      | expired _ t _ =>
          unfold Store.expiredRow
          split <;> exact Nat.le_refl _
      | _ => exact Nat.le_refl _

end StoreOp

namespace Ledger

/-- The attempts of every row are within its budget, and count its claims since it
was pushed or requeued. -/
structure Budgeted (σ : Ledger) : Prop where
  allowed : σ.store.Allowed
  pending : ∀ j ∈ σ.store.jobs.rows, j.status = .pending → j.attempt < j.maxAttempts
  within : ∀ j ∈ σ.store.jobs.rows, j.attempt ≤ j.maxAttempts
  spent : ∀ j ∈ σ.store.jobs.rows, σ.spent j.id = j.attempt
  unspent : ∀ id, σ.store.nextId ≤ id → σ.spent id = 0
  claims : ∀ c ∈ σ.claims, ∀ j, σ.store.jobs.get? c.id = some j →
    j.maxAttempts = c.maxAttempts ∧ (j.fence = c.fence → j.attempt ≤ c.attempt)
  claimed : ∀ c ∈ σ.claims, c.attempt ≤ c.maxAttempts

namespace Budgeted

variable {σ σ' : Ledger} {now : Time} {op : StoreOp} {i j : JobRow}

theorem init : (Ledger.init .empty).Budgeted where
  allowed j hj := by cases hj
  pending j hj := by cases hj
  within j hj := by cases hj
  spent j hj := by cases hj
  unspent _ _ := rfl
  claims c hc := by cases hc
  claimed c hc := by cases hc

theorem change (h : σ.Budgeted) (hok : follows σ (now, op) = true) (hi : i ∈ σ.store.jobs.rows)
    (hch : StoreOp.Change σ.store now op i j) :
    (j.status = .pending → j.attempt < j.maxAttempts) ∧ j.attempt ≤ j.maxAttempts := by
  have hwithin := h.within i hi
  cases hch with
  | same => exact ⟨h.pending i hi, hwithin⟩
  | renewed leases leaseMs _ _ hrunning => exact ⟨h.pending i hi, hwithin⟩
  | claimed queue limit leaseMs keyLimit fair _ hid =>
      obtain ⟨i', hi', he, _, hpending, _⟩ := Store.claimIds_ready hid
      obtain rfl := σ.store.jobs.key_injOn hi' hi he
      exact ⟨fun hp => (by cases hp), h.pending i' hi' hpending⟩
  | called c locked _ _ hch =>
      cases hch with
      | same => exact ⟨h.pending i hi, hwithin⟩
      | dead => exact ⟨fun hp => (by cases hp), hwithin⟩
      | requeued _ ids _ _ => exact ⟨fun _ => h.allowed i hi, Nat.zero_le _⟩
      | expired _ t _ =>
          unfold Store.expiredRow
          split
          · exact ⟨fun hp => (by cases hp), hwithin⟩
          · next hlt => exact ⟨fun _ => Nat.lt_of_not_le hlt, hwithin⟩
      | retried _ error availableAt =>
          refine ⟨fun _ => ?_, hwithin⟩
          obtain ⟨c, hc, hp⟩ := List.any_eq_true.mp hok
          simp only [Bool.and_eq_true, decide_eq_true_eq] at hp
          obtain ⟨⟨hid, hfence⟩, hlt⟩ := hp
          have hget : σ.store.jobs.get? c.id = some i := by
            rw [hid]
            exact Table.get?_key hi
          obtain ⟨hmax, hle⟩ := h.claims c hc i hget
          calc i.attempt ≤ c.attempt := hle hfence.symm
            _ < c.maxAttempts := hlt
            _ = i.maxAttempts := hmax.symm

theorem spent_eq (hs : Ledger.step σ (now, op) = some σ') (id : JobId) : σ'.spent id =
    if op.restores σ.store id then 0
    else if id ∈ (op.hands σ.store now).map ClaimedJob.id then σ.spent id + 1 else σ.spent id := by
  cases hs
  rfl

theorem spent_of_fresh (hf : σ.store.Fresh) (hs : Ledger.step σ (now, op) = some σ') {id : JobId}
    (hid : σ.store.nextId ≤ id) : σ'.spent id = σ.spent id := by
  rw [spent_eq hs, StoreOp.not_restores_of_fresh hf hid, if_neg Bool.false_ne_true,
    if_neg (StoreOp.not_mem_hands_of_fresh hf hid)]

theorem hands_row {c : ClaimedJob} (hc : c ∈ op.hands σ.store now) :
    ∃ i' ∈ (op.perform σ.store now).jobs.rows, i'.id = c.id ∧ i'.fence = c.fence ∧
    i'.attempt = c.attempt ∧
      i'.maxAttempts = c.maxAttempts := by
  obtain ⟨i, _, _, _, leaseMs, _, _, rfl, _, _, rfl, hi'⟩ := StoreOp.mem_hands hc
  exact ⟨_, hi', rfl, rfl, rfl, rfl⟩

theorem step (h : σ.Budgeted) (hF : σ.Fenced) (hf : σ.store.Fresh)
    (hok : follows σ (now, op) = true)
    (hs : Ledger.step σ (now, op) = some σ') : σ'.Budgeted := by
  have hstore := store_of_step hs
  have hallowed := op.allowed h.allowed now
  have hrow : ∀ j ∈ (op.perform σ.store now).jobs.rows,
      (j.status = .pending → j.attempt < j.maxAttempts) ∧ j.attempt ≤ j.maxAttempts ∧
        σ'.spent j.id = j.attempt := by
    intro j hj
    obtain ⟨i, hi, hch⟩ | ⟨hge, _, c, locked, rfl, hn⟩ := op.job_origin hj
    · obtain ⟨hpending, hwithin⟩ := h.change hok hi hch
      refine ⟨hpending, hwithin, ?_⟩
      rw [op.attempt_eq hf hi hj hch.frame.1, spent_eq hs, hch.frame.1, h.spent i hi]
    · obtain ⟨_, hp⟩ := hn.pushed_of
      rw [spent_of_fresh hf hs hge, h.unspent _ hge, hp.attempt]
      exact ⟨fun _ => hallowed j hj, Nat.zero_le _, rfl⟩
  constructor
  · rwa [hstore]
  · rw [hstore]
    exact fun j hj => (hrow j hj).1
  · rw [hstore]
    exact fun j hj => (hrow j hj).2.1
  · rw [hstore]
    exact fun j hj => (hrow j hj).2.2
  · intro id hid
    rw [hstore] at hid
    have hge := Nat.le_trans op.nextId_le hid
    rw [spent_of_fresh hf hs hge]
    exact h.unspent id hge
  · intro c hc j hj
    rw [claims_of_step hs, List.mem_append] at hc
    rw [hstore] at hj
    obtain ⟨hmem, hid⟩ := Table.get?_eq_some_iff.mp hj
    rcases hc with hc | hc
    · obtain ⟨i', hi', hid', _, hattempt, hmax⟩ := hands_row hc
      obtain rfl := (op.perform σ.store now).jobs.key_injOn hi' hmem (hid'.trans hid.symm)
      exact ⟨hmax, fun _ => Nat.le_of_eq hattempt⟩
    · obtain ⟨i, hi, hch⟩ | ⟨hge, _⟩ := op.job_origin hmem
      · have hget : σ.store.jobs.get? c.id = some i := by
          rw [← hid, hch.frame.1]
          exact Table.get?_key hi
        obtain ⟨hmax, hle⟩ := h.claims c hc i hget
        obtain ⟨_, _, _, hmax', _, hfence⟩ := hch.frame
        refine ⟨hmax'.trans hmax, fun he => ?_⟩
        have hi' : i.fence = c.fence := Nat.le_antisymm (he ▸ hfence) (hF.below c hc i hget)
        exact Nat.le_trans (hch.attempt_le (he.trans hi'.symm)) (hle hi')
      · rw [hid] at hge
        exact absurd (hF.known c hc) (Nat.not_lt_of_le hge)
  · intro c hc
    rw [claims_of_step hs, List.mem_append] at hc
    rcases hc with hc | hc
    · obtain ⟨i', hi', _, _, hattempt, hmax⟩ := hands_row hc
      rw [← hattempt, ← hmax]
      exact (hrow i' hi').2.1
    · exact h.claimed c hc

end Budgeted

variable {σ : Ledger}

/-- No job is claimed more often than its attempts allow. -/
theorem budget_kept (h : Run step follows (init .empty) σ) :
    (∀ j ∈ σ.store.jobs.rows, 1 ≤ j.maxAttempts ∧
    (j.status = .pending → j.attempt < j.maxAttempts) ∧
      (j.status = .running → j.attempt ≤ j.maxAttempts)) ∧
    (∀ j ∈ σ.store.jobs.rows, σ.spent j.id = j.attempt ∧ σ.spent j.id ≤ j.maxAttempts) ∧
    ∀ c ∈ σ.claims, c.attempt ≤ c.maxAttempts := by
  have hB : σ.Budgeted := by
    refine h.invariant Budgeted .init ?_
    rintro τ ⟨now, op⟩ τ' hrun hI hok hstep
    exact hI.step (.of_run .empty hrun) (fresh_of_run .empty hrun) hok hstep
  refine ⟨fun j hj => ⟨hB.allowed j hj, hB.pending j hj, fun _ => hB.within j hj⟩, fun j hj => ?_,
    hB.claimed⟩
  rw [hB.spent j hj]
  exact ⟨rfl, hB.within j hj⟩

/-- An error, a lost lease and a second error take a job to the dead letters, and the
worker that lost the lease reports its own error in between. -/
theorem budget_kept_mixed : ∃ σ, Run step follows (init .empty) σ ∧
    ∃ j ∈ σ.store.jobs.rows, j.status = .dead ∧ σ.claims.length = 3 ∧
    σ.spent j.id ≤ j.maxAttempts := by
  obtain ⟨σ, hrun, hp⟩ := Run.exists_of_replay step follows (init .empty)
    [(0, .call (.push [workflowExecutionJob "order" 7 0]) []),
      (1, .claim "zenzip.workflow.order" 5 60000 none false),
      (2, .call (.failRetry 0 "boom" 100 1) []),
      (100, .claim "zenzip.workflow.order" 5 60000 none true),
      (70000, .call (.sweepExpired 70000) []),
      (70001, .claim "zenzip.workflow.order" 5 60000 (some 2) false),
      (70002, .call (.failRetry 0 "late" 70003 2) []),
      (70004, .call (.failDead 0 "boom" 3) [])]
    (fun σ => σ.store.jobs.rows.any (fun j => j.status = .dead) && σ.claims.length = 3) (by decide)
  simp only [Bool.and_eq_true, decide_eq_true_eq] at hp
  obtain ⟨j, hj, hdead⟩ := List.any_eq_true.mp hp.1
  exact ⟨σ, hrun, j, hj, of_decide_eq_true hdead, hp.2, ((budget_kept hrun).2.1 j hj).2⟩

end Ledger

end ZenZip
