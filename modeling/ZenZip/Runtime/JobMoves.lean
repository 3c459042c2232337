import ZenZip.Runtime.Ids

namespace ZenZip

open Lib

namespace Sys

/-- Thread `i` is about to make call `c`, and this step carries it out. -/
structure Calling (σ : Sys) (l : Label) (i : Nat) (t : Worker) (c : Call) : Prop where
  thread : σ.pool[i]? = some t
  prog : ∃ k, t.prog = .call (.store c) k
  label : ∃ locked, l = .call i (.ok locked)

inductive JobMove (E : WorkflowEngine) (σ : Sys) : Label → JobRow → JobRow → Prop
  | same (l j) : JobMove E σ l j j
  | claimed (workflow limit cfg j) (hcfg : E.config workflow = some cfg)
      (hid : j.id ∈ σ.store.claimIds (workflowQueueName workflow) limit none false σ.clock) :
      JobMove E σ (.claim workflow limit) j (Store.claimRow (max cfg.leaseMs 1000) σ.clock j)
  | renewed (i j leaseUntil) (h : j.status = .running) :
      JobMove E σ (.renew i) j { j with leaseUntil, updatedAt := σ.clock }
  | called (i t c l j j') (hc : σ.Calling l i t c) (h : JobChange σ.clock c j j') : JobMove E
    σ l j j'

variable {E : WorkflowEngine} {σ σ' : Sys} {l : Label} {j j' : JobRow}

theorem claimIds_row {queue : String} {limit : Nat}
    (hj : j ∈ σ.store.jobs.rows) (hid : j.id ∈ σ.store.claimIds queue limit none false σ.clock) :
    j.queue = queue ∧ j.status = .pending ∧ j.availableAt ≤ σ.clock := by
  obtain ⟨i, hi, he, hrest⟩ := Store.claimIds_ready hid
  rwa [σ.store.jobs.key_injOn hi hj he] at hrest

theorem JobMove.frame (h : JobMove E σ l j j') : j'.id = j.id ∧ j'.payload = j.payload ∧
    j'.debounceKey = j.debounceKey ∧ j.fence ≤ j'.fence := by
  cases h with
  | same => exact ⟨rfl, rfl, rfl, Nat.le_refl _⟩
  | claimed => exact ⟨rfl, rfl, rfl, Nat.le_succ _⟩
  | renewed => exact ⟨rfl, rfl, rfl, Nat.le_refl _⟩
  | called i t c _ _ _ _ h =>
      obtain ⟨hid, hp, hf, hd, _⟩ := h.frame
      exact ⟨hid, hp, hd, Nat.le_of_eq hf.symm⟩

theorem Move.job_cases (h : Move E σ l σ') (hj : j ∈ σ.store.jobs.rows) :
    (∃ j', JobMove E σ l j j' ∧ j' ∈ σ'.store.jobs.rows) ∨ ∃ i t c, σ.Calling l i t c ∧
    JobLoss c j := by
  cases h with
  | ticked | spawned | answered | crashed | recorded => exact .inl ⟨j, .same _ j, hj⟩
  | claimed workflow limit cfg hcfg =>
      have hm :
          (if j.id ∈ σ.store.claimIds (workflowQueueName workflow) limit none false σ.clock then
            Store.claimRow (max cfg.leaseMs 1000) σ.clock j else j) ∈
              (σ.claimOf workflow limit cfg).1.jobs.rows :=
        Store.mem_claim_jobs.mpr ⟨j, hj, rfl⟩
      refine .inl ⟨_, ?_, hm⟩
      split
      · next hid => exact .claimed workflow limit cfg j hcfg hid
      · exact .same _ j
  | stored i t c k locked ht hp =>
      have hc : σ.Calling (.call i (.ok locked)) i t c := ⟨ht, ⟨k, hp⟩, locked, rfl⟩
      obtain ⟨j', hch, hj'⟩ | hl := Call.perform_job_cases c σ.clock locked hj
      · exact .inl ⟨j', .called i t c _ j j' hc hch, hj'⟩
      · exact .inr ⟨i, t, c, hc, hl⟩
  | renewed i t workflow job leaseMs =>
      refine .inl ⟨_, ?_, List.mem_map.mpr ⟨j, hj, rfl⟩⟩
      split
      · next hp =>
          simp only [Bool.and_eq_true, decide_eq_true_eq] at hp
          exact .renewed i j _ hp.2
      · exact .same _ j

theorem Move.job_origin (h : Move E σ l σ') (hj : j ∈ σ'.store.jobs.rows) :
    (∃ i ∈ σ.store.jobs.rows, JobMove E σ l i j) ∨
      ∃ i t c, σ.Calling l i t c ∧ σ.store.nextId ≤ j.id ∧ j.id < σ'.store.nextId ∧
      JobNew σ.store σ.clock c j := by
  cases h with
  | ticked | spawned | answered | crashed | recorded => exact .inl ⟨j, hj, .same _ j⟩
  | claimed workflow limit cfg hcfg =>
      obtain ⟨i, hi, rfl⟩ := Store.mem_claim_jobs.mp hj
      refine .inl ⟨i, hi, ?_⟩
      split
      · next hid => exact .claimed workflow limit cfg i hcfg hid
      · exact .same _ i
  | stored i t c k locked ht hp =>
      have hc : σ.Calling (.call i (.ok locked)) i t c := ⟨ht, ⟨k, hp⟩, locked, rfl⟩
      obtain ⟨j₀, hj₀, hch⟩ | ⟨hge, hlt, hn⟩ := Call.perform_job_origin c hj
      · exact .inl ⟨j₀, hj₀, .called i t c _ j₀ j hc hch⟩
      · exact .inr ⟨i, t, c, hc, hge, hlt, hn⟩
  | renewed i t workflow job leaseMs =>
      obtain ⟨j₀, hj₀, rfl⟩ := List.mem_map.mp hj
      refine .inl ⟨j₀, hj₀, ?_⟩
      split
      · next hp =>
          simp only [Bool.and_eq_true, decide_eq_true_eq] at hp
          exact .renewed i j₀ _ hp.2
      · exact .same _ j₀

end Sys

end ZenZip
