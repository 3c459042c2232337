import ZenZip.Ledger.Ops
import Mathlib.Data.List.Range

namespace ZenZip

open Lib

namespace Store

variable {s : Store} {j : JobRow}

theorem push_ids (s : Store) (jobs : List PushJob) (now : Time) :
    (s.push jobs now).2 = List.range' s.nextId jobs.length := by
  induction jobs generalizing s with
  | nil => rfl
  | cons job jobs ih =>
      rw [List.length_cons, List.range'_succ]
      exact congrArg (s.nextId :: ·) (ih (s.insertJobRow job now).1)

theorem push_nextId (s : Store) (jobs : List PushJob) (now : Time) :
    (s.push jobs now).1.nextId = s.nextId + jobs.length := by
  induction jobs generalizing s with
  | nil => rfl
  | cons job jobs ih =>
      have h := ih (s.insertJobRow job now).1
      rw [insertJobRow_nextId, Nat.add_assoc, Nat.add_comm 1] at h
      exact h

/-- A later job of the batch takes the place of an earlier one with its debounce key. -/
def Superseded (jobs : List PushJob) (n : Nat) (job : PushJob) : Prop :=
  job.debounceKey.isSome ∧
    ∃ m later, n < m ∧ jobs[m]? = some later ∧ later.queue = job.queue ∧
      later.debounceKey = job.debounceKey

theorem Superseded.cons {jobs : List PushJob} {n : Nat} {job : PushJob} (first : PushJob)
    (h : Superseded jobs n job) : Superseded (first :: jobs) (n + 1) job := by
  obtain ⟨hkey, m, later, hlt, hm, hq⟩ := h
  exact ⟨hkey, m + 1, later, Nat.succ_lt_succ hlt, hm, hq⟩

theorem superseded_of_debounced {jobs : List PushJob} {now : Time} {job first later : PushJob}
    (hp : Pushed now job j) (hl : later ∈ jobs) (hd : debounced later j = true) :
    Superseded (first :: jobs) 0 job := by
  simp only [debounced, Bool.and_eq_true, decide_eq_true_eq] at hd
  obtain ⟨⟨⟨hsome, hq⟩, _⟩, hkey⟩ := hd
  have hkey' : later.debounceKey = job.debounceKey := hkey.symm.trans hp.debounceKey
  obtain ⟨m, hm⟩ := List.mem_iff_getElem?.mp hl
  refine ⟨?_, m + 1, later, Nat.zero_lt_succ m, hm, hq.symm.trans hp.queue, hkey'⟩
  rwa [← hkey']

theorem push_nth (hf : ∀ j ∈ s.jobs.rows, j.id < s.nextId) {jobs : List PushJob} {n : Nat}
    {job : PushJob}
    (hn : jobs[n]? = some job) (now : Time) :
    (∃ j ∈ (s.push jobs now).1.jobs.rows, j.id = s.nextId + n ∧ Pushed now job j) ∨
    Superseded jobs n job := by
  induction jobs generalizing s n with
  | nil => cases hn
  | cons first jobs ih =>
      have hrest := (s.insertJobRow first now).1.push_grows jobs now
      cases n with
      | zero =>
          obtain rfl : first = job := Option.some.inj hn
          have hp := s.pushed_newJobRow first s.nextId now
          obtain ⟨later, hl, hd⟩ | hj := hrest.kept _ (newJobRow_mem_insertJobRow s first now hf)
          · exact .inr (superseded_of_debounced hp hl hd)
          · exact .inl ⟨_, hj, rfl, hp⟩
      | succ n =>
          have hfresh := (s.insertJobRow_grows first now).fresh hf
          obtain ⟨j, hj, hid, hp⟩ | hsup := ih hfresh (n := n) hn
          · refine .inl ⟨j, hj, ?_, hp⟩
            rw [hid, insertJobRow_nextId, Nat.add_assoc, Nat.add_comm 1]
          · exact .inr (hsup.cons first)

theorem push_origin {jobs : List PushJob} {now : Time} (h : j ∈ (s.push jobs now).1.jobs.rows) :
    j ∈ s.jobs.rows ∨ ∃ n job, jobs[n]? = some job ∧ j.id = s.nextId + n ∧ Pushed now job j := by
  induction jobs generalizing s with
  | nil => exact .inl h
  | cons first jobs ih =>
      obtain hj | ⟨n, job, hn, hid, hp⟩ := ih (s := (s.insertJobRow first now).1) h
      · obtain ⟨hj, _⟩ | rfl := s.mem_insertJobRow first now hj
        · exact .inl hj
        · exact .inr ⟨0, first, rfl, rfl, s.pushed_newJobRow first s.nextId now⟩
      · refine .inr ⟨n + 1, job, hn, ?_, hp⟩
        rw [hid, insertJobRow_nextId, Nat.add_assoc, Nat.add_comm 1]

end Store

namespace Ledger

variable {σ σ₁ σ' : Ledger} {ok : Ledger → Time × StoreOp → Bool} {s : Store} {id : JobId}
  {queue : String}
  {payload : Payload}

def Held (s : Store) (id : JobId) (queue : String) (payload : Payload) : Prop :=
  ∃ j, s.jobs.select (fun j => j.id = id) = [j] ∧ j.queue = queue ∧ j.payload = payload

/-- Between `σ` and `σ'` the job was acked with the fence of its row, purged while
dead, or displaced by a debounced push while pending. It has not come back. -/
def Deleted (ok : Ledger → Time × StoreOp → Bool) (σ σ' : Ledger) (id : JobId) : Prop :=
  σ'.store.jobs.get? id = none ∧ ∃ τ τ' now c locked j, Run step ok σ τ ∧
    step τ (now, .call c locked) = some τ' ∧ Run step ok τ' σ' ∧ τ.store.jobs.get? id = some j ∧
      JobLoss c j

theorem held_iff : Held s id queue payload ↔ ∃ j, s.jobs.get? id = some j ∧ j.queue = queue ∧
    j.payload = payload := by
  constructor
  · rintro ⟨j, hj, hq, hp⟩
    have hmem : j ∈ s.jobs.select (fun j => j.id = id) := by
      rw [hj]
      exact List.mem_singleton_self j
    obtain ⟨hrow, hid⟩ := Table.mem_select.mp hmem
    exact ⟨j, Table.get?_eq_some_iff.mpr ⟨hrow, of_decide_eq_true hid⟩, hq, hp⟩
  · rintro ⟨j, hj, hq, hp⟩
    exact ⟨j, Table.select_key hj, hq, hp⟩

theorem held_step {now : Time} {op : StoreOp} (hf : σ.store.Fresh)
    (h : Held σ.store id queue payload)
    (hs : step σ (now, op) = some σ') : Held σ'.store id queue payload ∨
      σ'.store.jobs.get? id = none ∧ ∃ c locked j, op = .call c locked ∧
      σ.store.jobs.get? id = some j ∧ JobLoss c j := by
  obtain ⟨j, hj, hq, hp⟩ := held_iff.mp h
  obtain ⟨hmem, hid⟩ := Table.get?_eq_some_iff.mp hj
  rw [store_of_step hs]
  cases hn : (op.perform σ.store now).jobs.get? id with
  | none =>
      obtain ⟨j', hch, hj'⟩ | ⟨c, locked, hop, hl⟩ := op.job_cases now hmem
      · exact absurd (hch.frame.1.trans hid) (Table.get?_eq_none_iff.mp hn j' hj')
      · exact .inr ⟨rfl, c, locked, j, hop, hj, hl⟩
  | some j' =>
      refine .inl (held_iff.mpr ⟨j', hn, ?_⟩)
      have hid' : j'.id = id := Table.key_of_get? hn
      obtain ⟨i, hi, hch⟩ | ⟨hge, _⟩ := op.job_origin (Table.mem_of_get? hn)
      · have he : i.id = j.id := (hch.frame.1.symm.trans hid').trans hid.symm
        obtain rfl : i = j := σ.store.jobs.key_injOn hi hmem he
        exact ⟨hch.frame.2.2.1.trans hq, hch.frame.2.1.trans hp⟩
      · have hlt := hf.jobs j hmem
        rw [hid, ← hid'] at hlt
        exact absurd hlt (Nat.not_lt_of_le hge)

theorem gone_step {now : Time} {op : StoreOp} (hlt : id < σ.store.nextId)
    (h : σ.store.jobs.get? id = none)
    (hs : step σ (now, op) = some σ') : σ'.store.jobs.get? id = none := by
  rw [store_of_step hs, Table.get?_eq_none_iff]
  intro j hj he
  obtain ⟨i, hi, hch⟩ | ⟨hge, _⟩ := op.job_origin hj
  · exact Table.get?_eq_none_iff.mp h i hi (hch.frame.1.symm.trans he)
  · rw [he] at hge
    exact absurd hlt (Nat.not_lt_of_le hge)

theorem nextId_of_run (h : Run step ok σ σ') : σ.store.nextId ≤ σ'.store.nextId := by
  refine h.invariant (fun τ => σ.store.nextId ≤ τ.store.nextId) (Nat.le_refl _) ?_
  rintro τ ⟨now, op⟩ τ' _ hI _ hstep
  rw [store_of_step hstep]
  exact Nat.le_trans hI op.nextId_le

theorem gone_run (hlt : id < σ.store.nextId) (h : σ.store.jobs.get? id = none)
    (hrun : Run step ok σ σ') :
    σ'.store.jobs.get? id = none := by
  refine hrun.invariant (fun τ => τ.store.jobs.get? id = none) h ?_
  rintro τ ⟨now, op⟩ τ' hτ hI _ hstep
  exact gone_step (Nat.lt_of_lt_of_le hlt (nextId_of_run hτ)) hI hstep

theorem held_run (hf : σ.store.Fresh) (h : Held σ.store id queue payload)
    (hrun : Run step ok σ σ') :
    Held σ'.store id queue payload ∨ Deleted ok σ σ' id := by
  obtain ⟨j₀, hj₀, _⟩ := held_iff.mp h
  have hlt : id < σ.store.nextId := by
    rw [← Table.key_of_get? hj₀]
    exact hf.jobs j₀ (Table.mem_of_get? hj₀)
  have hboth : σ'.store.Fresh ∧ (Held σ'.store id queue payload ∨ Deleted ok σ σ' id) := by
    refine hrun.invariant
      (fun τ => τ.store.Fresh ∧ (Held τ.store id queue payload ∨ Deleted ok σ τ id)) ⟨hf, .inl h⟩ ?_
    rintro τ ⟨now, op⟩ τ' hτ ⟨hfτ, hI⟩ hok hstep
    constructor
    · rw [store_of_step hstep]
      exact op.fresh hfτ
    rcases hI with hheld | ⟨hnone, ρ, ρ', now', c, locked, j, hρ, hdel, hρ', hj, hl⟩
    · obtain hheld | ⟨hnone, c, locked, j, rfl, hj, hl⟩ := held_step hfτ hheld hstep
      · exact .inl hheld
      · exact .inr ⟨hnone, τ, τ', now, c, locked, j, hτ, hstep, .refl, hj, hl⟩
    · have hgone := gone_step (Nat.lt_of_lt_of_le hlt (nextId_of_run hτ)) hnone hstep
      exact .inr ⟨hgone, ρ, ρ', now', c, locked, j, hρ, hdel, hρ'.snoc hok hstep, hj, hl⟩
  exact hboth.2

theorem push_row (hf : s.Fresh) {now : Time} {jobs : List PushJob} {n : Nat} {job : PushJob}
    (hjob : jobs[n]? = some job) :
    Held (s.push jobs now).1 (s.nextId + n) job.queue job.payload ∨
      Store.Superseded jobs n job ∧ (s.push jobs now).1.jobs.get? (s.nextId + n) = none := by
  cases hrow : (s.push jobs now).1.jobs.get? (s.nextId + n) with
  | some j =>
      left
      refine held_iff.mpr ⟨j, hrow, ?_⟩
      obtain ⟨hmem, hjid⟩ := Table.get?_eq_some_iff.mp hrow
      obtain hold | ⟨m, job', hm, hid', hp⟩ := Store.push_origin hmem
      · have hlt := hf.jobs j hold
        rw [hjid] at hlt
        exact absurd hlt (Nat.not_lt_of_le (Nat.le_add_right _ _))
      · obtain rfl : n = m := Nat.add_left_cancel (hjid.symm.trans hid')
        obtain rfl : job = job' := Option.some.inj (hjob.symm.trans hm)
        exact ⟨hp.queue, hp.payload⟩
  | none =>
      right
      obtain ⟨j, hj, hjid, _⟩ | hsup := Store.push_nth hf.jobs hjob now
      · exact absurd hjid (Table.get?_eq_none_iff.mp hrow j hj)
      · exact ⟨hsup, rfl⟩

/-- Jobs are conserved: what a push returned has its one row until one of three
operations deletes it, and no operation but a push or an emit makes a job. -/
theorem jobs_conserved (hs : s.Fresh) (h : Run step ok (init s) σ) {now : Time}
    {jobs : List PushJob}
    {locked : List RunId} (hpush : step σ (now, .call (.push jobs) locked) = some σ₁)
    (hrun : Run step ok σ₁ σ') :
    ((σ.store.push jobs now).2.Nodup ∧ (σ.store.push jobs now).2.length = jobs.length ∧
      (∀ id ∈ (σ.store.push jobs now).2, σ.store.nextId ≤ id)) ∧
    (∀ (n : Nat) (id : JobId) (job : PushJob), (σ.store.push jobs now).2[n]? = some id →
    jobs[n]? = some job →
      Held σ'.store id job.queue job.payload ∨ Deleted ok σ₁ σ' id ∨
        Store.Superseded jobs n job ∧ σ'.store.jobs.get? id = none) ∧
    (∀ j ∈ σ₁.store.jobs.rows, j ∈ σ.store.jobs.rows ∨
      ∃ (n : Nat) (job : PushJob), (σ.store.push jobs now).2[n]? = some j.id ∧ jobs[n]? = some job ∧
      Store.Pushed now job j) ∧
    ∀ (now : Time) (op : StoreOp), ∀ j ∈ (op.perform σ'.store now).jobs.rows,
      (∃ i ∈ σ'.store.jobs.rows, i.id = j.id ∧ i.queue = j.queue ∧ i.payload = j.payload) ∨
        σ'.store.nextId ≤ j.id ∧ ∃ c locked, op = .call c locked ∧ JobNew σ'.store now c j := by
  have hf := fresh_of_run hs h
  have hstore : σ₁.store = (σ.store.push jobs now).1 := store_of_step hpush
  have hf₁ : σ₁.store.Fresh := by
    rw [hstore]
    exact hf.perform (.push jobs) now locked
  have hnth (n : Nat) (hn : n < jobs.length) : (σ.store.push jobs now).2[n]? =
    some (σ.store.nextId + n) := by
    rw [Store.push_ids, List.getElem?_range' hn, Nat.one_mul]
  refine ⟨?_, ?_, ?_, ?_⟩
  · rw [Store.push_ids]
    refine ⟨List.nodup_range', List.length_range', fun id hid => ?_⟩
    exact (List.mem_range'_1.mp hid).1
  · intro n id job hid hjob
    have hn : n < jobs.length := (List.getElem?_eq_some_iff.mp hjob).1
    obtain rfl : σ.store.nextId + n = id := Option.some.inj ((hnth n hn).symm.trans hid)
    have hrow := @push_row σ.store hf now jobs n job hjob
    rw [← hstore] at hrow
    rcases hrow with hheld | ⟨hsup, hnone⟩
    · obtain hheld | hdel := held_run hf₁ hheld hrun
      · exact .inl hheld
      · exact .inr (.inl hdel)
    · have hlt : σ.store.nextId + n < σ₁.store.nextId := by
        rw [hstore, Store.push_nextId]
        exact Nat.add_lt_add_left hn _
      exact .inr (.inr ⟨hsup, gone_run hlt hnone hrun⟩)
  · intro j hj
    rw [hstore] at hj
    obtain hold | ⟨n, job, hn, hid, hp⟩ := Store.push_origin hj
    · exact .inl hold
    · refine .inr ⟨n, job, ?_, hn, hp⟩
      rw [hid]
      exact hnth n (List.getElem?_eq_some_iff.mp hn).1
  · intro now op j hj
    obtain ⟨i, hi, hch⟩ | ⟨hge, _, hnew⟩ := op.job_origin hj
    · exact .inl ⟨i, hi, hch.frame.1.symm, hch.frame.2.2.1.symm, hch.frame.2.1.symm⟩
    · exact .inr ⟨hge, hnew⟩

/-- A job that superseded another of its batch outlives the worker that claimed it. -/
theorem jobs_conserved_crash : ∃ σ₁ σ', step (init .empty) (0, .call (.push (List.replicate 2
      { workflowExecutionJob "order" 7 0 with debounceKey := some "k" })) []) = some σ₁ ∧
    Run step (fun _ _ => true) σ₁ σ' ∧ Held σ'.store 1 "zenzip.workflow.order" (.execution 7) := by
  let job : PushJob := { workflowExecutionJob "order" 7 0 with debounceKey := some "k" }
  let push : StoreOp := .call (.push (List.replicate 2 job)) []
  obtain ⟨σ₁, σ', hpush, hrun, hp⟩ : ∃ σ₁ σ', step (init .empty) (0, push) = some σ₁ ∧
      Run step (fun _ _ => true) σ₁ σ' ∧ (σ'.store.jobs.get? 1).isSome = true := by
    obtain ⟨σ', hrun, hp⟩ := Run.exists_of_replay step (fun _ _ => true)
      ((step (init .empty) (0, push)).getD (init .empty))
      [(1, .claim "zenzip.workflow.order" 5 60000 none false),
        (70000, .call (.sweepExpired 70000) [])]
      (fun σ => (σ.store.jobs.get? 1).isSome) (by decide)
    exact ⟨_, σ', rfl, hrun, hp⟩
  have hstart : Run step (fun _ _ => true) (init .empty) (init .empty) := .refl
  have hconserved := (jobs_conserved .empty hstart hpush hrun).2.1
  obtain hheld | ⟨hnone, _⟩ | ⟨_, hnone⟩ := hconserved 1 1 job rfl rfl
  · exact ⟨σ₁, σ', hpush, hrun, hheld⟩
  · rw [hnone] at hp
    cases hp
  · rw [hnone] at hp
    cases hp

end Ledger

end ZenZip
