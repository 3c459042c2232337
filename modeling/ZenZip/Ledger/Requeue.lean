import ZenZip.Ledger.Fences

namespace ZenZip

open Lib

/-- The token of an outcome: `run_group` reports each of its jobs once. -/
def StoreOp.report : StoreOp → Option (JobId × Nat)
  | .call (.ack id fence) _ | .call (.failRetry id _ _ fence) _ | .call (.failDead id _ fence) _ =>
      some (id, fence)
  | _ => none

/-- The store with the claims that have not reported yet, and the dead jobs that were
requeued and are not claimed again. -/
structure Claimers where
  ledger : Ledger
  running : List (JobId × Nat)
  requeued : JobId → Bool

/-- An operation of the store, or the end of a claimer that will not report. -/
inductive ClaimerStep
  | op (now : Time) (op : StoreOp)
  | lost (token : JobId × Nat)

def ClaimedJob.token (c : ClaimedJob) : JobId × Nat := (c.id, c.fence)

namespace Claimers

def init : Claimers := ⟨.init .empty, [], fun _ => false⟩

def step (σ : Claimers) : ClaimerStep → Option Claimers
  | .op now op =>
    if op.report.all (fun t => σ.running.any (fun r => r = t)) then
      (σ.ledger.step (now, op)).map (fun ledger =>
        { ledger,
          running := (op.hands σ.ledger.store now).map ClaimedJob.token ++
            σ.running.filter (fun t => op.report ≠ some t),
          requeued := fun id => op.restores σ.ledger.store id ||
            σ.requeued id && id ∉ (op.hands σ.ledger.store now).map ClaimedJob.id })
    else none
  | .lost token => some { σ with running := σ.running.filter (fun t => t ≠ token) }

/-- The last claimer of a dead job is done with it when the job is requeued. -/
def settled (σ : Claimers) : ClaimerStep → Bool
  | .op _ (.call (.requeueDead ids) _) => σ.ledger.store.jobs.rows.all (fun j =>
      !(j.id ∈ ids && j.status = .dead && σ.running.any (fun r => r = (j.id, j.fence))))
  | _ => true

variable {σ σ' : Claimers} {now : Time} {op : StoreOp} {ok : Claimers → ClaimerStep → Bool}

theorem of_step (h : step σ (.op now op) = some σ') : (∀ t, op.report = some t → t ∈ σ.running) ∧
    σ.ledger.step (now, op) = some σ'.ledger ∧ σ'.ledger.store = op.perform σ.ledger.store now ∧
    σ'.running = (op.hands σ.ledger.store now).map ClaimedJob.token ++
      σ.running.filter (fun t => op.report ≠ some t) ∧
    ∀ id, σ'.requeued id = (op.restores σ.ledger.store id ||
      σ.requeued id && id ∉ (op.hands σ.ledger.store now).map ClaimedJob.id) := by
  simp only [step] at h
  split at h
  · next hall =>
      obtain ⟨ledger, hledger, rfl⟩ := Option.map_eq_some_iff.mp h
      refine ⟨fun t ht => ?_, hledger, Ledger.store_of_step hledger, rfl, fun _ => rfl⟩
      rw [ht] at hall
      obtain ⟨r, hr, he⟩ := List.any_eq_true.mp hall
      rwa [← of_decide_eq_true he]
  · cases h

theorem ledger_run (h : Run step ok init σ) :
    Run Ledger.step (fun _ _ => true) (.init .empty) σ.ledger := by
  refine h.invariant (fun σ => Run Ledger.step (fun _ _ => true) (.init .empty) σ.ledger) .refl ?_
  rintro τ l τ' _ hI _ hstep
  cases l with
  | op now op => exact hI.snoc rfl (of_step hstep).2.1
  | lost token =>
      cases hstep
      exact hI

/-- A job that is requeued waits with all its attempts, and no claimer holds its fence. -/
structure Owned (σ : Claimers) : Prop where
  known : ∀ id, σ.requeued id = true → id < σ.ledger.store.nextId
  waits : ∀ j ∈ σ.ledger.store.jobs.rows, σ.requeued j.id = true →
    j.status = .pending ∧ j.attempt = 0 ∧ (j.id, j.fence) ∉ σ.running

theorem same_of_pending {s : Store} {i j : JobRow} (h : StoreOp.Change s now op i j)
    (hpending : i.status = .pending)
    (hreport : op.report ≠ some (i.id, i.fence))
    (hhands : i.id ∉ (op.hands s now).map ClaimedJob.id) : j = i := by
  cases h with
  | same => rfl
  | claimed queue limit leaseMs keyLimit fair _ hid =>
      exact (hhands (Store.mem_claim_ids.mpr hid)).elim
  | renewed leases leaseMs _ _ hrunning =>
      rw [hpending] at hrunning
      cases hrunning
  | called c locked _ _ h =>
      cases h with
      | same => rfl
      | retried | dead => exact (hreport rfl).elim
      | expired _ t he =>
          simp only [Store.expired, hpending] at he
          cases he
      | requeued _ ids _ hdead =>
          rw [hpending] at hdead
          cases hdead

theorem restores_dead {s : Store} {id : JobId} (h : op.restores s id = true) :
    ∃ ids locked j, op = .call (.requeueDead ids) locked ∧ id ∈ ids ∧ s.jobs.get? id = some j ∧
    j.status = .dead := by
  unfold StoreOp.restores at h
  split at h
  · next ids locked =>
      rw [Bool.and_eq_true] at h
      obtain ⟨j, hj, hdead⟩ := (Option.any_eq_true _ _).mp h.2
      exact ⟨ids, locked, j, rfl, of_decide_eq_true h.1, hj, of_decide_eq_true hdead⟩
  · cases h

theorem mem_requeued {s : Store} {ids : List JobId} {locked : List RunId} {j : JobRow}
    (hj : j ∈ s.jobs.rows)
    (hid : j.id ∈ ids) (hdead : j.status = .dead) :
    Store.requeueRow now j ∈
      ((StoreOp.call (.requeueDead ids) locked).perform s now).jobs.rows := by
  refine List.mem_map.mpr ⟨j, hj, if_pos ?_⟩
  rw [Bool.and_eq_true, decide_eq_true_iff, decide_eq_true_iff]
  exact ⟨hid, hdead⟩

theorem not_settled_iff {now : Time} {ids : List JobId} {locked : List RunId} :
    settled σ (.op now (.call (.requeueDead ids) locked)) = false ↔
      ∃ j ∈ σ.ledger.store.jobs.rows, j.id ∈ ids ∧ j.status = .dead ∧
      (j.id, j.fence) ∈ σ.running := by
  simp only [settled, List.all_eq_false, Bool.not_eq_true', Bool.not_eq_false, Bool.and_eq_true,
    decide_eq_true_eq,
    List.any_eq_true, exists_eq_right, and_assoc]

theorem Owned.step (h : σ.Owned) (hrun : Run Claimers.step ok init σ)
    (hok : settled σ (.op now op) = true)
    (hs : Claimers.step σ (.op now op) = some σ') : σ'.Owned := by
  obtain ⟨hreport, _, hstore, hrunning, hrequeued⟩ := of_step hs
  have hfresh := Ledger.fresh_of_run .empty (ledger_run hrun)
  constructor
  · intro id hid
    rw [hstore]
    refine Nat.lt_of_lt_of_le ?_ op.nextId_le
    rw [hrequeued, Bool.or_eq_true, Bool.and_eq_true] at hid
    rcases hid with hid | hid
    · obtain ⟨_, _, j, _, _, hj, _⟩ := restores_dead hid
      rw [← Table.key_of_get? hj]
      exact hfresh.jobs j (Table.mem_of_get? hj)
    · exact h.known id hid.1
  · intro j hj hid
    rw [hstore] at hj
    rw [hrequeued, Bool.or_eq_true, Bool.and_eq_true] at hid
    rcases hid with hid | ⟨hid, hhands⟩
    · obtain ⟨ids, locked, i, rfl, hmem, hget, hdead⟩ := restores_dead hid
      obtain ⟨hi, he⟩ := Table.get?_eq_some_iff.mp hget
      rw [← he] at hmem
      have hrow : j = Store.requeueRow now i :=
        Table.key_injOn _ hj (mem_requeued hi hmem hdead) he.symm
      rw [hrow]
      refine ⟨rfl, rfl, fun hm => ?_⟩
      rw [hrunning] at hm
      have hm : (i.id, i.fence) ∈ σ.running := List.mem_of_mem_filter hm
      have hnot : settled σ (.op now (.call (.requeueDead ids) locked)) = false :=
        not_settled_iff.mpr ⟨i, hi, hmem, hdead, hm⟩
      rw [hok] at hnot
      cases hnot
    · have hhands := of_decide_eq_true hhands
      obtain ⟨i, hi, hch⟩ | ⟨hge, _⟩ := op.job_origin hj
      · rw [hch.frame.1] at hid hhands
        obtain ⟨hpending, hattempt, hnot⟩ := h.waits i hi hid
        obtain rfl := same_of_pending hch hpending (fun he => hnot (hreport _ he)) hhands
        refine ⟨hpending, hattempt, fun hm => ?_⟩
        rw [hrunning, List.mem_append] at hm
        rcases hm with hm | hm
        · obtain ⟨c, hc, he⟩ := List.mem_map.mp hm
          exact hhands (List.mem_map.mpr ⟨c, hc, (Prod.mk.inj he).1⟩)
        · exact hnot (List.mem_of_mem_filter hm)
      · exact absurd (h.known j.id hid) (Nat.not_lt_of_le hge)

theorem Owned.of_run (h : Run Claimers.step settled init σ) : σ.Owned := by
  have hinit : init.Owned := by
    constructor
    · intro id hid
      cases hid
    · intro j hj
      cases hj
  refine h.invariant Owned hinit ?_
  intro τ l τ' hrun hI hok hstep
  cases l with
  | op now op => exact hI.step hrun hok hstep
  | lost token =>
      cases hstep
      refine ⟨hI.known, fun j hj hid => ?_⟩
      obtain ⟨hpending, hattempt, hnot⟩ := hI.waits j hj hid
      exact ⟨hpending, hattempt, fun hm => hnot (List.mem_of_mem_filter hm)⟩

theorem Owned.undisturbed (h : σ.Owned) (hs : Claimers.step σ (.op now op) = some σ')
    (hop : op.fenced = true) {id : JobId}
    (hid : σ.requeued id = true) : σ'.ledger.store.jobs.get? id = σ.ledger.store.jobs.get? id := by
  obtain ⟨hreport, _, hstore, _, _⟩ := of_step hs
  have hnone : op.hands σ.ledger.store now = [] := by
    cases op with
    | claim => cases hop
    | call | renewLeases => rfl
  have hhands : id ∉ (op.hands σ.ledger.store now).map ClaimedJob.id := by
    rw [hnone]
    exact List.not_mem_nil
  rw [hstore]
  cases hget : σ.ledger.store.jobs.get? id with
  | some j =>
      obtain ⟨hj, rfl⟩ := Table.get?_eq_some_iff.mp hget
      obtain ⟨hpending, _, hnot⟩ := h.waits j hj hid
      obtain ⟨j', hch, hj'⟩ | ⟨c, locked, rfl, hl⟩ := op.job_cases now hj
      · obtain rfl := same_of_pending hch hpending (fun he => hnot (hreport _ he)) hhands
        exact Table.get?_key hj'
      · cases hl with
        | acked => exact (hnot (hreport _ rfl)).elim
        | purged | debounced => cases hop
  | none =>
      rw [Table.get?_eq_none_iff] at hget ⊢
      intro j hj hjid
      obtain ⟨i, hi, hch⟩ | ⟨_, _, c, locked, rfl, hnew⟩ := op.job_origin hj
      · exact hget i hi (hch.frame.1.symm.trans hjid)
      · cases hnew <;> cases hop

/-- A requeued job belongs to its next claimer, if the last one is done when it is requeued;
otherwise that one's late ack deletes it. -/
theorem requeued_undisturbed (h : Run step settled init σ) :
    (∀ j ∈ σ.ledger.store.jobs.rows, σ.requeued j.id = true → j.status = .pending ∧ j.attempt = 0) ∧
    (∀ now op σ', step σ (.op now op) = some σ' → op.fenced = true → ∀ id, σ.requeued id = true →
      σ'.ledger.store.jobs.get? id = σ.ledger.store.jobs.get? id) ∧
    ∀ now ids locked σ', step σ (.op now (.call (.requeueDead ids) locked)) = some σ' →
      settled σ (.op now (.call (.requeueDead ids) locked)) = false →
      ∃ id fence σ'', σ'.requeued id = true ∧ (σ'.ledger.store.jobs.get? id).isSome ∧
        step σ' (.op now (.call (.ack id fence) [])) = some σ'' ∧
        σ''.ledger.store.jobs.get? id = none := by
  have howned := Owned.of_run h
  refine ⟨fun j hj hid => ?_, fun now op σ' hstep hop id hid =>
    howned.undisturbed hstep hop hid, ?_⟩
  · obtain ⟨hpending, hattempt, _⟩ := howned.waits j hj hid
    exact ⟨hpending, hattempt⟩
  · intro now ids locked σ' hstep hnot
    obtain ⟨j, hj, hid, hdead, hm⟩ := not_settled_iff.mp hnot
    obtain ⟨_, _, hstore, hrunning, hrequeued⟩ := of_step hstep
    have hrow : σ'.ledger.store.jobs.get? j.id = some (Store.requeueRow now j) := by
      rw [hstore]
      exact Table.get?_key (mem_requeued hj hid hdead)
    have hm' : (j.id, j.fence) ∈ σ'.running := by
      rw [hrunning]
      exact List.mem_filter.mpr ⟨hm, rfl⟩
    refine ⟨j.id, j.fence, _, ?_, by rw [hrow]; rfl,
      if_pos (List.any_eq_true.mpr ⟨_, hm', decide_eq_true rfl⟩), ?_⟩
    · rw [hrequeued, Bool.or_eq_true]
      refine .inl ((Bool.and_eq_true _ _).mpr ⟨decide_eq_true hid, ?_⟩)
      rw [Table.get?_key hj]
      exact decide_eq_true hdead
    · have hdeleted :=
        Table.get?_delete σ'.ledger.store.jobs (fun i => i.id = j.id && i.fence = j.fence) j.id
      rw [hrow] at hdeleted
      refine hdeleted.trans (Option.filter_some_neg ?_)
      simp [Store.requeueRow]

/-- The second claimer reports the death of the job, and the first one acks it after the requeue. -/
theorem requeued_undisturbed_stale : ∃ σ σ', Run step settled init σ ∧ σ.requeued 0 = true ∧
    step σ (.op 70005 (.call (.ack 0 1) [])) = some σ' ∧
    σ'.ledger.store.jobs.get? 0 = σ.ledger.store.jobs.get? 0 ∧
    (σ.ledger.store.jobs.get? 0).isSome := by
  let job : PushJob :=
    { queue := "q", payload := .data .null, priority := 0, delayMs := 0, maxAttempts := 2,
      concurrencyKey := none,
      debounceKey := none, throttleKey := none, throttleSpacingMs := none }
  obtain ⟨σ, hrun, hp⟩ := Run.exists_of_replay step settled init
    [.op 0 (.call (.push [job]) []), .op 1 (.claim "q" 1 60000 none false),
      .op 70000 (.call (.sweepExpired 70000) []),
      .op 70001 (.claim "q" 1 60000 none false), .op 70002 (.call (.failDead 0 "boom" 2) []),
      .op 70003 (.call (.requeueDead [0]) [])]
    (fun σ => σ.requeued 0 && (step σ (.op 70005 (.call (.ack 0 1) []))).isSome &&
      (σ.ledger.store.jobs.get? 0).isSome)
    (by decide)
  simp only [Bool.and_eq_true] at hp
  obtain ⟨σ', hstep⟩ := Option.isSome_iff_exists.mp hp.1.2
  exact ⟨σ, σ', hrun, hp.1.1, hstep,
    (requeued_undisturbed hrun).2.1 70005 _ σ' hstep rfl 0 hp.1.1, hp.2⟩

/-- The lease of a job's only attempt runs out, the job is requeued, and its first claimer acks it.
-/
theorem late_ack_deletes : ∃ σ, Run step (fun _ _ => true) init σ ∧ σ.requeued 0 = true ∧
    (σ.ledger.store.jobs.get? 0).isSome ∧ ∃ σ', step σ (.op 70002 (.call (.ack 0 1) [])) = some σ' ∧
      σ'.ledger.store.jobs.get? 0 = none := by
  let job : PushJob :=
    { queue := "q", payload := .data .null, priority := 0, delayMs := 0, maxAttempts := 1,
      concurrencyKey := none,
      debounceKey := none, throttleKey := none, throttleSpacingMs := none }
  obtain ⟨σ, hrun, hp⟩ := Run.exists_of_replay step (fun _ _ => true) init
    [.op 0 (.call (.push [job]) []), .op 1 (.claim "q" 1 60000 none false),
      .op 70000 (.call (.sweepExpired 70000) []),
      .op 70001 (.call (.requeueDead [0]) [])]
    (fun σ => σ.requeued 0 && (σ.ledger.store.jobs.get? 0).isSome &&
      (step σ (.op 70002 (.call (.ack 0 1) []))).any
        (fun σ' => (σ'.ledger.store.jobs.get? 0).isNone)) (by decide)
  simp only [Bool.and_eq_true] at hp
  obtain ⟨σ', hstep, hgone⟩ := (Option.any_eq_true _ _).mp hp.2
  exact ⟨σ, hrun, hp.1.1, hp.1.2, σ', hstep, Option.isNone_iff_eq_none.mp hgone⟩

end Claimers

end ZenZip
