import ZenZip.Ledger.Ops

namespace ZenZip

open Lib

namespace Postgres

/-- A plain claim skips the rows that another transaction has locked, a windowed one waits for them.
-/
def claimIds (s : Store) (queue : String) (limit : Nat) (keyLimit : Option Nat) (fair : Bool)
    (locked : List JobId)
    (now : Time) : List JobId :=
  if fair || keyLimit.isSome then s.claimIds queue limit keyLimit fair now
  else { s with jobs := s.jobs.delete (fun j => j.id ∈ locked) : Store }.claimIds queue limit none
    false now

/-- `lease_until = DB_NOW + lease_ms`. -/
def claimRow (leaseMs : Int) (now dbNow : Time) (j : JobRow) : JobRow :=
  { j with
    status := .running, attempt := j.attempt + 1, leaseUntil := some (dbNow + leaseMs),
    updatedAt := now,
           fence := j.fence + 1 }

theorem claimRow_id (leaseMs : Int) (now dbNow : Time) (j : JobRow) :
    (claimRow leaseMs now dbNow j).id = j.id := rfl

def claim (s : Store) (queue : String) (limit : Nat) (leaseMs : Int) (keyLimit : Option Nat)
    (fair : Bool)
    (locked : List JobId) (now dbNow : Time) : Store × List ClaimedJob :=
  let ids := claimIds s queue limit keyLimit fair locked now
  let jobs :=
    s.jobs.update (fun j => j.id ∈ ids) (claimRow leaseMs now dbNow) (claimRow_id leaseMs now dbNow)
  ({ s with jobs },
    ((jobs.select (fun j => j.id ∈ ids)).insertionSort (fun a b => Store.claimBefore a b)).map
      Store.claimed)

def deadRow (now : Time) (j : JobRow) : JobRow :=
  { j with
    status := .dead, leaseUntil := none, lastError := some (j.lastError.getD "lease expired"),
    updatedAt := now }

def retriedRow (now : Time) (j : JobRow) : JobRow :=
  { j with status := .pending, leaseUntil := none, availableAt := now, updatedAt := now }

theorem deadRow_id (now : Time) (j : JobRow) : (deadRow now j).id = j.id := rfl

theorem retriedRow_id (now : Time) (j : JobRow) : (retriedRow now j).id = j.id := rfl

/-- The first statement of `sweep_expired`. -/
def sweepDead (s : Store) (now dbNow : Time) : Store × Nat :=
  let p := fun j : JobRow => Store.expired dbNow j && j.maxAttempts ≤ j.attempt
  ({ s with jobs := s.jobs.update p (deadRow now) (deadRow_id now) }, (s.jobs.select p).length)

/-- The second statement of `sweep_expired`. -/
def sweepRetry (s : Store) (now dbNow : Time) : Store × Nat :=
  ({ s with jobs := s.jobs.update (Store.expired dbNow) (retriedRow now) (retriedRow_id now) },
    (s.jobs.select (Store.expired dbNow)).length)

/-- A sweep between its two statements, with the clock reading and the count of the first one. -/
structure Sweep where
  now : Time
  reading : Time
  dead : Nat
  deriving DecidableEq

end Postgres

structure Sweeping where
  store : Store
  clock : Time
  sweeps : List Postgres.Sweep

inductive SweepStep
  | tick (t : Time)
  | claim (queue : String) (limit : Nat) (leaseMs : Int) (keyLimit : Option Nat) (fair : Bool)
    (locked : List JobId) (now : Time)
  | renewLeases (leases : List (JobId × Nat)) (leaseMs : Int)
  | other (s' : Store)
  | sweepDead (now : Time)
  | sweepRetry (sweep : Postgres.Sweep)

def Store.KeepsRunning (s s' : Store) : Prop :=
  ∀ j ∈ s'.jobs.rows, j.status = .running → j ∈ s.jobs.rows

instance (s s' : Store) : Decidable (s.KeepsRunning s') :=
  inferInstanceAs (Decidable (∀ j ∈ s'.jobs.rows, j.status = .running → j ∈ s.jobs.rows))

/-- Reports, pushes, requeues and the rest leave the running jobs as they are, or end them. -/
theorem Call.keepsRunning (c : Call) (s : Store) (now : Time) (locked : List RunId) :
    s.KeepsRunning (c.perform s now locked).1 := by
  intro j hj hrunning
  obtain ⟨i, hi, hch⟩ | ⟨_, _, hnew⟩ := Call.perform_job_origin c hj
  · cases hch with
    | same => exact hi
    | retried | dead | requeued => cases hrunning
    | expired _ t h =>
        unfold Store.expiredRow at hrunning
        split at hrunning
        · cases hrunning
        · cases hrunning
  · obtain ⟨job, hp⟩ := hnew.pushed_of
    rw [hp.status] at hrunning
    cases hrunning

namespace Postgres

variable {s : Store} {now dbNow : Time} {j : JobRow}

/-- The sweep of the other store has one clock reading. -/
theorem sweep_eq (s : Store) (now : Time) :
    (sweepRetry (sweepDead s now now).1 now now).1 = (s.sweepExpired now).1 := by
  have hrow : (fun j => if Store.expired now j then retriedRow now j else j) ∘
      (fun j => if Store.expired now j && j.maxAttempts ≤ j.attempt then deadRow now j else j) =
      fun j => if Store.expired now j then Store.expiredRow now j else j := by
    funext j
    rw [Function.comp_apply]
    by_cases hexpired : Store.expired now j = true
    · by_cases hspent : j.maxAttempts ≤ j.attempt
      · have hdead : Store.expired now (deadRow now j) = false := rfl
        simp [hexpired, hspent, hdead, Store.expiredRow]
        rfl
      · simp [hexpired, hspent, Store.expiredRow]
        rfl
    · simp [hexpired]
  have hjobs : (sweepRetry (sweepDead s now now).1 now now).1.jobs =
    (s.sweepExpired now).1.jobs := by
    simp only [sweepRetry, sweepDead, Store.sweepExpired, Table.update, List.map_map, hrow]
  exact congrArg (fun jobs => { s with jobs }) hjobs

theorem get?_sweepDead (hj : j ∈ s.jobs.rows) : (sweepDead s now dbNow).1.jobs.get? j.id =
    some (if Store.expired dbNow j && j.maxAttempts ≤ j.attempt then deadRow now j else j) := by
  rw [sweepDead, Table.get?_update, Table.get?_key hj, Option.map_some]

theorem get?_sweepRetry (hj : j ∈ s.jobs.rows) : (sweepRetry s now dbNow).1.jobs.get? j.id =
    some (if Store.expired dbNow j then retriedRow now j else j) := by
  rw [sweepRetry, Table.get?_update, Table.get?_key hj, Option.map_some]

/-- Every expired job is dead if its attempts are used up and waits otherwise; the others are as
they were. -/
def SweptRight (dbNow : Time) (s s' : Store) : Prop :=
  ∀ j ∈ s.jobs.rows, ∃ j', s'.jobs.get? j.id = some j' ∧
    if Store.expired dbNow j then j'.status =
      (if j.maxAttempts ≤ j.attempt then .dead else .pending) else j' = j

theorem sweptRight_iff : SweptRight dbNow s (sweepRetry s now dbNow).1 ↔
    ∀ j ∈ s.jobs.rows, Store.expired dbNow j = true → j.attempt < j.maxAttempts := by
  constructor
  · intro h j hj hexpired
    obtain ⟨j', hj', hstatus⟩ := h j hj
    rw [get?_sweepRetry hj, if_pos hexpired] at hj'
    cases hj'
    rw [if_pos hexpired] at hstatus
    by_contra hspent
    rw [if_pos (Nat.le_of_not_lt hspent)] at hstatus
    cases hstatus
  · intro h j hj
    refine ⟨_, get?_sweepRetry hj, ?_⟩
    by_cases hexpired : Store.expired dbNow j = true
    · rw [if_pos hexpired, if_pos hexpired, if_neg (Nat.not_le_of_lt (h j hj hexpired))]
      rfl
    · rw [if_neg hexpired, if_neg hexpired]

end Postgres

namespace Sweeping

def init : Sweeping := ⟨.empty, 0, []⟩

def step (σ : Sweeping) : SweepStep → Option Sweeping
  | .tick t => if σ.clock ≤ t then some { σ with clock := t } else none
  | .claim queue limit leaseMs keyLimit fair locked now =>
    some { σ with
      store := (Postgres.claim σ.store queue limit leaseMs keyLimit fair locked now σ.clock).1 }
  | .renewLeases leases leaseMs =>
      some { σ with store := σ.store.renewLeases leases leaseMs σ.clock }
  | .other s' => if σ.store.KeepsRunning s' then some { σ with store := s' } else none
  | .sweepDead now =>
    let (store, dead) := Postgres.sweepDead σ.store now σ.clock
    some { σ with store, sweeps := ⟨now, σ.clock, dead⟩ :: σ.sweeps }
  | .sweepRetry sweep =>
    if sweep ∈ σ.sweeps then
      some { σ with
        store := (Postgres.sweepRetry σ.store sweep.now σ.clock).1, sweeps := σ.sweeps.erase sweep }
    else none

def leased (_ : Sweeping) : SweepStep → Bool
  | .claim _ _ leaseMs _ _ _ _ => 0 ≤ leaseMs
  | .renewLeases _ leaseMs => 0 ≤ leaseMs
  | _ => true

/-- The lease of a running job without attempts left has not ended when the first statement looked.
-/
def Held (σ : Sweeping) (reading : Time) : Prop :=
  reading ≤ σ.clock ∧ ∀ j ∈ σ.store.jobs.rows, j.status = .running → j.maxAttempts ≤ j.attempt →
    ∀ u, j.leaseUntil = some u → reading ≤ u

variable {σ σ' : Sweeping} {l : SweepStep} {reading : Time} {sweep : Postgres.Sweep}

theorem Held.of_running (h : σ.Held reading) (hclock : σ.clock ≤ σ'.clock)
    (hrows : ∀ j ∈ σ'.store.jobs.rows, j.status = .running →
    j.leaseUntil.all (fun u => σ.clock ≤ u) = true ∨
      j ∈ σ.store.jobs.rows) : σ'.Held reading := by
  refine ⟨Int.le_trans h.1 hclock, fun j hj hrunning hspent u hu => ?_⟩
  rcases hrows j hj hrunning with hnew | hj
  · rw [hu, Option.all_some] at hnew
    exact Int.le_trans h.1 (of_decide_eq_true hnew)
  · exact h.2 j hj hrunning hspent u hu

theorem mem_changed {p : JobRow → Bool} {f : JobRow → JobRow} {rows : List JobRow} {j : JobRow}
    (h : j ∈ rows.map (fun i => if p i then f i else i)) :
    (∃ i ∈ rows, p i = true ∧ j = f i) ∨ j ∈ rows ∧ p j = false := by
  obtain ⟨i, hi, rfl⟩ := List.mem_map.mp h
  split
  · next hp => exact .inl ⟨i, hi, hp, rfl⟩
  · next hp => exact .inr ⟨hi, Bool.eq_false_of_not_eq_true hp⟩

theorem running_of_step (hok : leased σ l = true) (hs : step σ l = some σ') : σ.clock ≤ σ'.clock ∧
    ∀ j ∈ σ'.store.jobs.rows, j.status = .running →
      j.leaseUntil.all (fun u => σ.clock ≤ u) = true ∨ j ∈ σ.store.jobs.rows := by
  cases l with
  | tick t =>
      obtain ⟨hle, he⟩ := Option.ite_none_right_eq_some.mp hs
      cases he
      exact ⟨hle, fun j hj _ => .inr hj⟩
  | claim queue limit leaseMs keyLimit fair locked now =>
      cases hs
      refine ⟨Int.le_refl _, fun j hj _ => ?_⟩
      obtain ⟨i, _, _, rfl⟩ | ⟨hj, _⟩ := mem_changed hj
      · have hlease := of_decide_eq_true hok
        exact .inl (decide_eq_true (Int.le_add_of_nonneg_right hlease))
      · exact .inr hj
  | renewLeases leases leaseMs =>
      cases hs
      refine ⟨Int.le_refl _, fun j hj _ => ?_⟩
      obtain ⟨i, _, _, rfl⟩ | ⟨hj, _⟩ := mem_changed hj
      · have hlease := of_decide_eq_true hok
        exact .inl (decide_eq_true (Int.le_add_of_nonneg_right hlease))
      · exact .inr hj
  | other s' =>
      obtain ⟨hkeeps, he⟩ := Option.ite_none_right_eq_some.mp hs
      cases he
      exact ⟨Int.le_refl _, fun j hj hrunning => .inr (hkeeps j hj hrunning)⟩
  | sweepDead now =>
      cases hs
      refine ⟨Int.le_refl _, fun j hj hrunning => ?_⟩
      obtain ⟨i, _, _, rfl⟩ | ⟨hj, _⟩ := mem_changed hj
      · cases hrunning
      · exact .inr hj
  | sweepRetry sweep =>
      obtain ⟨_, he⟩ := Option.ite_none_right_eq_some.mp hs
      cases he
      refine ⟨Int.le_refl _, fun j hj hrunning => ?_⟩
      obtain ⟨i, _, _, rfl⟩ | ⟨hj, _⟩ := mem_changed hj
      · cases hrunning
      · exact .inr hj

theorem expired_iff {now : Time} {j : JobRow} : Store.expired now j = true ↔
    ∃ u, j.status = .running ∧ j.leaseUntil = some u ∧ u < now := by
  rw [Store.expired, Bool.and_eq_true, decide_eq_true_iff]
  cases j.leaseUntil with
  | none => simp
  | some u => simp

theorem held_sweepDead (now : Time) (hs : step σ (.sweepDead now) = some σ') : σ'.Held σ.clock := by
  cases hs
  refine ⟨Int.le_refl _, fun j hj hrunning hspent u hu => ?_⟩
  obtain ⟨i, _, _, rfl⟩ | ⟨_, hp⟩ := mem_changed hj
  · cases hrunning
  · simp only [Store.expired, hrunning, hu, hspent, decide_true, Bool.true_and, Bool.and_true,
      decide_eq_false_iff_not] at hp
    exact Int.not_lt.mp hp

theorem sweeps_of_step (hs : step σ l = some σ') (hm : sweep ∈ σ'.sweeps) :
    sweep ∈ σ.sweeps ∨ ∃ now, l = .sweepDead now ∧ sweep.reading = σ.clock := by
  cases l with
  | sweepDead now =>
      cases hs
      rcases List.mem_cons.mp hm with rfl | hm
      · exact .inr ⟨now, rfl, rfl⟩
      · exact .inl hm
  | claim | renewLeases =>
      cases hs
      exact .inl hm
  | tick | other =>
      obtain ⟨_, he⟩ := Option.ite_none_right_eq_some.mp hs
      cases he
      exact .inl hm
  | sweepRetry sweep' =>
      obtain ⟨_, he⟩ := Option.ite_none_right_eq_some.mp hs
      cases he
      exact .inl (List.mem_of_mem_erase hm)

theorem held_of_run (h : Run step leased init σ) : ∀ sweep ∈ σ.sweeps, σ.Held sweep.reading := by
  refine h.invariant (fun σ => ∀ sweep ∈ σ.sweeps, σ.Held sweep.reading)
    (fun sweep hm => by cases hm) ?_
  intro τ l τ' _ hI hok hs sweep hm
  obtain ⟨hclock, hrows⟩ := running_of_step hok hs
  rcases sweeps_of_step hs hm with hm | ⟨now, rfl, he⟩
  · exact (hI sweep hm).of_running hclock hrows
  · rw [he]
    exact held_sweepDead now hs

/-- The second statement keeps to the budget exactly when no expired job has used its attempts up;
with leases that do not end before they begin, when no lease of such a job ends between the two
readings. -/
theorem sweep_keeps_budget_iff (hs : step σ (.sweepRetry sweep) = some σ') :
    (Postgres.SweptRight σ.clock σ.store σ'.store ↔
      ∀ j ∈ σ.store.jobs.rows, Store.expired σ.clock j = true → j.attempt < j.maxAttempts) ∧
    (Run step leased init σ → (Postgres.SweptRight σ.clock σ.store σ'.store ↔
      ∀ j ∈ σ.store.jobs.rows, j.status = .running → j.maxAttempts ≤ j.attempt →
        ∀ u, j.leaseUntil = some u → sweep.reading ≤ u → σ.clock ≤ u)) ∧
    ∀ now σ'', step σ (.sweepDead now) = some σ'' →
    ∀ j ∈ σ.store.jobs.rows, σ''.store.jobs.get? j.id =
      some (if Store.expired σ.clock j && j.maxAttempts ≤ j.attempt then Postgres.deadRow now j
        else j) := by
  obtain ⟨hm, he⟩ := Option.ite_none_right_eq_some.mp hs
  cases he
  refine ⟨Postgres.sweptRight_iff, fun hrun => Postgres.sweptRight_iff.trans ?_, ?_⟩
  · constructor
    · intro h j hj hrunning hspent u hu _
      by_contra hlt
      have hexpired : Store.expired σ.clock j = true := by
        simp only [Store.expired, hrunning, hu, decide_true, Bool.true_and, decide_eq_true_eq]
        exact Int.not_le.mp hlt
      exact absurd (h j hj hexpired) (Nat.not_lt_of_le hspent)
    · intro h j hj hexpired
      by_contra hspent
      obtain ⟨u, hrunning, hu, hlt⟩ := expired_iff.mp hexpired
      have hspent := Nat.le_of_not_lt hspent
      have hreading := (held_of_run hrun sweep hm).2 j hj hrunning hspent u hu
      exact absurd hlt (Int.not_lt.mpr (h j hj hrunning hspent u hu hreading))
  · intro now σ'' hdead j hj
    cases hdead
    exact Postgres.get?_sweepDead hj

/-- The lease of the only attempt has ended when the sweep begins. -/
theorem sweep_keeps_budget_ended : ∃ σ σ' sweep, step σ (.sweepRetry sweep) = some σ' ∧
    Postgres.SweptRight σ.clock σ.store σ'.store ∧
    (σ.store.jobs.rows.any (fun j => j.status = .dead)) = true := by
  let job : PushJob :=
    { queue := "q", payload := .data .null, priority := 0, delayMs := 0, maxAttempts := 1,
      concurrencyKey := none,
      debounceKey := none, throttleKey := none, throttleSpacingMs := none }
  obtain ⟨σ, hrun, hp⟩ := Run.exists_of_replay step leased init
    [.other (Store.empty.push [job] 0).1, .claim "q" 1 60000 none false [] 0, .tick 60001,
      .sweepDead 60001, .tick 60002]
    (fun σ => (step σ (.sweepRetry ⟨60001, 60001, 1⟩)).isSome &&
      σ.store.jobs.rows.all (fun j => j.status = .dead) &&
      σ.store.jobs.rows.any (fun j => j.status = .dead)) (by decide)
  rw [Bool.and_eq_true, Bool.and_eq_true] at hp
  obtain ⟨σ', hs⟩ := Option.isSome_iff_exists.mp hp.1.1
  refine ⟨σ, σ', _, hs, ((sweep_keeps_budget_iff hs).2.1 hrun).mpr (fun j hj hrunning => ?_), hp.2⟩
  have hdead := of_decide_eq_true (List.all_eq_true.mp hp.1.2 j hj)
  rw [hdead] at hrunning
  cases hrunning

/-- The lease of the only attempt ends with the first statement's reading: the second one lets the
job go again. -/
theorem spent_job_retried : ∃ σ σ' sweep,
    Run step leased init σ ∧ step σ (.sweepRetry sweep) = some σ' ∧
    (∃ j ∈ σ.store.jobs.rows, j.status = .running ∧ j.maxAttempts ≤ j.attempt ∧
      ∃ j', σ'.store.jobs.get? j.id = some j' ∧ j'.status = .pending ∧
      j'.maxAttempts ≤ j'.attempt) ∧
    ¬ Postgres.SweptRight σ.clock σ.store σ'.store := by
  let job : PushJob :=
    { queue := "q", payload := .data .null, priority := 0, delayMs := 0, maxAttempts := 1,
      concurrencyKey := none,
      debounceKey := none, throttleKey := none, throttleSpacingMs := none }
  obtain ⟨σ, hrun, hp⟩ := Run.exists_of_replay step leased init
    [.other (Store.empty.push [job] 0).1, .claim "q" 1 60000 none false [] 0, .tick 60000,
      .sweepDead 60000, .tick 60001]
    (fun σ => (step σ (.sweepRetry ⟨60000, 60000, 0⟩)).any
      (fun σ' => σ.store.jobs.rows.any (fun j =>
      j.status = .running && j.maxAttempts ≤
        j.attempt && Store.expired σ.clock j && (σ'.store.jobs.get? j.id).any (fun j' =>
        j'.status = .pending && j'.maxAttempts ≤ j'.attempt)))) (by decide)
  obtain ⟨σ', hs, hp⟩ := (Option.any_eq_true _ _).mp hp
  obtain ⟨j, hj, hp⟩ := List.any_eq_true.mp hp
  simp only [Bool.and_eq_true, decide_eq_true_eq] at hp
  obtain ⟨⟨⟨hrunning, hspent⟩, hexpired⟩, hafter⟩ := hp
  obtain ⟨j', hj', hp'⟩ := (Option.any_eq_true _ _).mp hafter
  simp only [Bool.and_eq_true, decide_eq_true_eq] at hp'
  refine ⟨σ, σ', _, hrun, hs, ⟨j, hj, hrunning, hspent, j', hj', hp'.1, hp'.2⟩, fun hright => ?_⟩
  obtain ⟨i, hi, hstatus⟩ := hright j hj
  rw [hi] at hj'
  cases hj'
  rw [if_pos hexpired, if_pos hspent, hp'.1] at hstatus
  cases hstatus

end Sweeping

end ZenZip
