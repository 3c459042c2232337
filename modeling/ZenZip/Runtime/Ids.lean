import ZenZip.Runtime.Steps

namespace ZenZip

open Lib

namespace Store

structure Fresh (s : Store) : Prop where
  jobs : ∀ j ∈ s.jobs.rows, j.id < s.nextId
  runs : ∀ id r, s.runs.get? id = some r → id < s.nextId

theorem Fresh.empty : Store.empty.Fresh where
  jobs j hj := by cases hj
  runs id r h := by cases h

variable {s : Store}

theorem Fresh.perform (h : s.Fresh) (c : Call) (now : Time) (locked : List RunId) :
    (c.perform s now locked).1.Fresh where
  jobs j hj := by
    obtain ⟨i, hi, hc⟩ | ⟨_, hlt, _⟩ := Call.perform_job_origin c hj
    · rw [hc.frame.1]
      exact Nat.lt_of_lt_of_le (h.jobs i hi) (Call.perform_nextId_le c)
    · exact hlt
  runs id r hr := by
    cases hs : s.runs.get? id with
    | some r₀ => exact Nat.lt_of_lt_of_le (h.runs id r₀ hs) (Call.perform_nextId_le c)
    | none =>
        obtain hn | ⟨run, rfl, hid, he, _⟩ | ⟨name, payload, targets, rfl, t, _, _, hlt, _⟩ :=
          Call.perform_run_of_none c now locked h.jobs hs
        · rw [hn] at hr
          cases hr
        · subst hid
          show s.nextId < (s.createRun run now).1.nextId
          rw [he]
          exact Nat.lt_succ_self _
        · exact hlt

theorem Fresh.of_jobs (h : s.Fresh) {jobs : Table JobRow.id}
    (hj : ∀ j ∈ jobs.rows, ∃ i ∈ s.jobs.rows, i.id = j.id) :
    ({ s with jobs } : Store).Fresh where
  jobs j hjj := by
    obtain ⟨i, hi, he⟩ := hj j hjj
    rw [← he]
    exact h.jobs i hi
  runs := h.runs

end Store

namespace Sys

variable {E : WorkflowEngine} {σ σ' : Sys} {l : Label}

theorem Move.fresh (h : Move E σ l σ') (hf : σ.store.Fresh) : σ'.store.Fresh := by
  cases h with
  | ticked | spawned | answered | crashed => exact hf
  | claimed workflow limit cfg _ =>
      refine hf.of_jobs (fun j hj => ?_)
      obtain ⟨i, hi, rfl⟩ := Table.mem_update.mp hj
      refine ⟨i, hi, ?_⟩
      split <;> rfl
  | stored i t c k locked => exact hf.perform c σ.clock locked
  | renewed i t workflow job leaseMs =>
      refine hf.of_jobs (fun j hj => ?_)
      obtain ⟨i, hi, rfl⟩ := Table.mem_update.mp hj
      refine ⟨i, hi, ?_⟩
      split <;> rfl
  | recorded => exact ⟨hf.jobs, hf.runs⟩

theorem fresh_of_run {ok : Sys → Label → Bool} {clock : Time}
    (h : Run (step E) ok (init .empty clock) σ) :
    σ.store.Fresh :=
  h.invariant (fun σ => σ.store.Fresh) Store.Fresh.empty
    (fun _ _ _ _ hI _ hs => (step_move hs).fresh hI)

theorem Move.run_cases (h : Move E σ l σ') {id : RunId} {r : RunRow}
    (hr : σ.store.runs.get? id = some r) :
    σ'.store.runs.get? id = some r ∨
    ∃ i t c k locked, σ.pool[i]? = some t ∧ t.prog = .call (.store c) k ∧ l = .call i (.ok locked) ∧
      ((∃ r', RunChange σ.clock c r r' ∧ σ'.store.runs.get? id = some r') ∨
        c.deletesRuns = true ∧ σ'.store.runs.get? id = none) := by
  cases h with
  | ticked | spawned | answered | crashed | claimed | renewed | recorded => exact .inl hr
  | stored i t c k locked ht hp =>
      obtain hs | hc := Call.perform_run_cases c σ.clock locked hr
      · exact .inl hs
      · exact .inr ⟨i, t, c, k, locked, ht, hp, rfl, hc⟩

theorem Move.deleted (h : Move E σ l σ') (hf : σ.store.Fresh) {id : RunId}
    (hlt : id < σ.store.nextId)
    (hn : σ.store.runs.get? id = none) : σ'.store.runs.get? id = none := by
  cases h with
  | ticked | spawned | answered | crashed | claimed | renewed | recorded => exact hn
  | stored i t c k locked ht hp =>
      obtain hs | ⟨run, _, he, _⟩ | ⟨_, _, _, _, _, _, hge, _⟩ :=
        Call.perform_run_of_none c σ.clock locked hf.jobs hn
      · exact hs
      · exact absurd he (Nat.ne_of_lt hlt)
      · exact absurd hge (Nat.not_le_of_lt hlt)

theorem Move.nextId_le (h : Move E σ l σ') : σ.store.nextId ≤ σ'.store.nextId := by
  cases h with
  | ticked | spawned | answered | crashed | claimed | renewed | recorded => exact Nat.le_refl _
  | stored i t c k locked => exact Call.perform_nextId_le c

end Sys

end ZenZip
