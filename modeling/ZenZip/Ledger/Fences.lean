import ZenZip.Ledger.Ops

namespace ZenZip

open Lib

namespace StoreOp

variable {s : Store} {now : Time} {op : StoreOp} {j : JobRow} {cj : ClaimedJob}

theorem hands_fence (h : cj ∈ op.hands s now) :
    ∃ i i', s.jobs.get? cj.id = some i ∧ (op.perform s now).jobs.get? cj.id = some i' ∧
      i'.fence = cj.fence ∧ i.fence < cj.fence := by
  obtain ⟨i, hi, queue, limit, leaseMs, keyLimit, fair, rfl, _, _, rfl, hi'⟩ := mem_hands h
  exact ⟨i, Store.claimRow leaseMs now i, Table.get?_key hi, Table.get?_key hi', rfl,
    Nat.lt_succ_self _⟩

theorem perform_of_stale (hop : op.fenced = true) (hj : j ∈ s.jobs.rows)
    (hstale : ∀ f, (j.id, f) ∈ op.tokens → f < j.fence) : j ∈ (op.perform s now).jobs.rows := by
  have hfresh (hm : (j.id, j.fence) ∈ op.tokens) : False := Nat.lt_irrefl _ (hstale j.fence hm)
  obtain ⟨j', hch, hj'⟩ | ⟨c, locked, rfl, hl⟩ := job_cases op now hj
  · cases hch with
    | same => exact hj'
    | claimed => cases hop
    | renewed leases leaseMs _ hid _ => exact (hfresh hid).elim
    | called c locked _ _ hch =>
        cases hch with
        | same => exact hj'
        | retried | dead => exact (hfresh List.mem_cons_self).elim
        | expired | requeued => cases hop
  · cases hl with
    | acked => exact (hfresh List.mem_cons_self).elim
    | purged | debounced => cases hop

end StoreOp

namespace Ledger

/-- The fences of a job's claims rise, and no row is behind a claim of its job. -/
structure Fenced (σ : Ledger) : Prop where
  known : ∀ c ∈ σ.claims, c.id < σ.store.nextId
  below : ∀ c ∈ σ.claims, ∀ j, σ.store.jobs.get? c.id = some j → c.fence ≤ j.fence
  rising : σ.claims.Pairwise (fun c' c => c'.id = c.id → c.fence < c'.fence)

namespace Fenced

variable {σ σ' : Ledger} {now : Time} {op : StoreOp}

theorem init (s : Store) : (Ledger.init s).Fenced where
  known c hc := by cases hc
  below c hc := by cases hc
  rising := .nil

theorem step (h : σ.Fenced) (hf : σ.store.Fresh) (hs : Ledger.step σ (now, op) = some σ') :
    σ'.Fenced := by
  have hstore := store_of_step hs
  have hclaims := claims_of_step hs
  constructor
  · intro c hc
    rw [hclaims, List.mem_append] at hc
    rw [hstore]
    have hlt : c.id < σ.store.nextId := by
      rcases hc with hc | hc
      · obtain ⟨i, _, hi, _⟩ := StoreOp.hands_fence hc
        rw [← Table.key_of_get? hi]
        exact hf.jobs i (Table.mem_of_get? hi)
      · exact h.known c hc
    exact Nat.lt_of_lt_of_le hlt op.nextId_le
  · intro c hc j hj
    rw [hclaims, List.mem_append] at hc
    rw [hstore] at hj
    rcases hc with hc | hc
    · obtain ⟨_, i', _, hi', he, _⟩ := StoreOp.hands_fence hc
      obtain rfl : i' = j := Option.some.inj (hi'.symm.trans hj)
      exact Nat.le_of_eq he.symm
    · have hlt := h.known c hc
      have hid := Table.key_of_get? hj
      obtain ⟨i, hi, hch⟩ | ⟨hge, _⟩ := op.job_origin (Table.mem_of_get? hj)
      · have hi' : σ.store.jobs.get? c.id = some i := by
          rw [← hid, hch.frame.1]
          exact Table.get?_key hi
        exact Nat.le_trans (h.below c hc i hi') hch.frame.2.2.2.2.2
      · exact absurd (hid ▸ hlt) (Nat.not_lt_of_le hge)
  · rw [hclaims]
    refine List.pairwise_append.mpr ⟨?_, h.rising, ?_⟩
    · have hn := List.pairwise_map.mp (op.hands_nodup σ.store now)
      exact hn.imp (fun hne he => absurd he hne)
    · intro c' hc' c hc he
      obtain ⟨i, _, hi, _, _, hlt⟩ := StoreOp.hands_fence hc'
      rw [he] at hi
      exact Nat.lt_of_le_of_lt (h.below c hc i hi) hlt

theorem of_run {ok : Ledger → Time × StoreOp → Bool} {s : Store} (hs : s.Fresh)
    (h : Run Ledger.step ok (Ledger.init s) σ) : σ.Fenced := by
  refine h.invariant Fenced (.init s) ?_
  rintro τ ⟨now, op⟩ τ' hrun hI _ hstep
  exact hI.step (fresh_of_run hs hrun) hstep

end Fenced

variable {σ : Ledger} {ok : Ledger → Time × StoreOp → Bool} {s : Store}

/-- Fencing tokens protect a job that has been claimed again. -/
theorem fences_protect (hs : s.Fresh) (h : Run step ok (init s) σ) :
    σ.claims.Pairwise (fun c' c => (c'.id, c'.fence) ≠ (c.id, c.fence)) ∧
    σ.claims.Pairwise (fun c' c => c'.id = c.id → c.fence < c'.fence) ∧
    (∀ c ∈ σ.claims, ∀ j, σ.store.jobs.get? c.id = some j → c.fence ≤ j.fence) ∧
    ∀ now op σ', step σ (now, op) = some σ' →
      (∀ c ∈ op.hands σ.store now, ∃ j j', σ.store.jobs.get? c.id = some j ∧
        σ'.store.jobs.get? c.id = some j' ∧ j'.fence = c.fence ∧ j.fence < c.fence) ∧
      (op.fenced = true → ∀ id j, σ.store.jobs.get? id = some j →
        (∀ f, (id, f) ∈ op.tokens → f < j.fence) → σ'.store.jobs.get? id = some j) := by
  have hfenced := Fenced.of_run hs h
  refine ⟨?_, hfenced.rising, hfenced.below, ?_⟩
  · refine hfenced.rising.imp (fun {c' c} hlt he => ?_)
    obtain ⟨hid, hfence⟩ := Prod.mk.inj he
    exact Nat.ne_of_gt (hlt hid) hfence
  · intro now op σ' hstep
    rw [store_of_step hstep]
    constructor
    · exact fun c hc => StoreOp.hands_fence hc
    · intro hop id j hj hstale
      obtain ⟨hmem, rfl⟩ := Table.get?_eq_some_iff.mp hj
      exact Table.get?_key (StoreOp.perform_of_stale hop hmem hstale)

/-- A worker that lost its lease acks a job that was claimed again. -/
theorem fences_protect_reclaimed : ∃ σ, Run step (fun _ _ => true) (init .empty) σ ∧
    σ.claims.map (fun c => (c.id, c.fence)) = [(0, 2), (0, 1)] ∧
    ∃ j, σ.store.jobs.get? 0 = some j ∧ j.fence = 2 ∧
      ((StoreOp.call (.ack 0 1) []).perform σ.store 70002).jobs.get? 0 = some j := by
  obtain ⟨σ, hrun, hp⟩ := Run.exists_of_replay step (fun _ _ => true) (init .empty)
    [(0, .call (.push [workflowExecutionJob "order" 7 0]) []),
      (1, .claim "zenzip.workflow.order" 5 60000 none false),
      (70000, .call (.sweepExpired 70000) []),
      (70001, .claim "zenzip.workflow.order" 5 60000 (some 1) true)]
    (fun σ => σ.claims.map (fun c => (c.id, c.fence)) = [(0, 2), (0, 1)] &&
      (σ.store.jobs.get? 0).any (fun j => j.fence = 2)) (by decide)
  simp only [Bool.and_eq_true, decide_eq_true_eq] at hp
  obtain ⟨j, hj, hfence⟩ := (Option.any_eq_true _ _).mp hp.2
  have hfence : j.fence = 2 := of_decide_eq_true hfence
  obtain ⟨_, _, _, hstep⟩ := fences_protect .empty hrun
  obtain ⟨_, hstale⟩ := hstep 70002 (.call (.ack 0 1) []) _ rfl
  refine ⟨σ, hrun, hp.1, j, hj, hfence, hstale rfl 0 j hj (fun f hf => ?_)⟩
  obtain ⟨_, rfl⟩ := Prod.mk.inj (List.mem_singleton.mp hf)
  rw [hfence]
  exact Nat.one_lt_two

end Ledger

end ZenZip
