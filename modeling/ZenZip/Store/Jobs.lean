import ZenZip.Store.Rows
import ZenZip.Lib.Accum
import Mathlib.Data.List.Sort

namespace ZenZip.Store

open Lib

def debounced (job : PushJob) (j : JobRow) : Bool :=
  job.debounceKey.isSome && j.queue = job.queue && j.status = .pending && j.debounceKey =
    job.debounceKey

theorem not_debounced {j : JobRow} (h : j.debounceKey = none) (job : PushJob) :
    debounced job j ≠ true := by
  intro hd
  simp only [debounced, Bool.and_eq_true, decide_eq_true_eq, h] at hd
  rw [← hd.2] at hd
  exact absurd hd.1.1.1 (by simp)

def throttleStart (s : Store) (job : PushJob) (tkey : String) (now : Time) : Time :=
  max (((s.throttleCursors.get? (job.queue, tkey)).map (·.nextAt)).getD now) now

/-- Throttle takes the next start of its cursor in place of the delay. -/
def availableAt (s : Store) (job : PushJob) (now : Time) : Time :=
  match job.throttleKey, job.throttleSpacingMs with
  | some tkey, some _ => s.throttleStart job tkey now
  | _, _ => now + max job.delayMs 0

def newJobRow (job : PushJob) (id : JobId) (availableAt now : Time) : JobRow where
  id := id
  queue := job.queue
  payload := job.payload
  status := .pending
  priority := job.priority
  attempt := 0
  maxAttempts := max job.maxAttempts 1
  availableAt := availableAt
  leaseUntil := none
  lastError := none
  fence := 0
  concurrencyKey := job.concurrencyKey
  debounceKey := job.debounceKey
  createdAt := now
  updatedAt := now

/-- A row that an insert of `job` at `now` may have left. Its start is known
where no throttle sets it. -/
structure Pushed (now : Time) (job : PushJob) (j : JobRow) : Prop where
  queue : j.queue = job.queue
  payload : j.payload = job.payload
  status : j.status = .pending
  attempt : j.attempt = 0
  fence : j.fence = 0
  debounceKey : j.debounceKey = job.debounceKey
  availableAt : job.throttleKey = none → j.availableAt = now + max job.delayMs 0

theorem pushed_newJobRow (s : Store) (job : PushJob) (id : JobId) (now : Time) :
    Pushed now job (newJobRow job id (s.availableAt job now) now) := by
  refine ⟨rfl, rfl, rfl, rfl, rfl, rfl, fun h => ?_⟩
  show s.availableAt job now = _
  simp [availableAt, h]

/-- Debounce drops the pending jobs of the key before the insert. Ids are in the order of the
inserts, as those of UUIDs v7 are where one process draws them, or clocks that agree with it. -/
def insertJobRow (s : Store) (job : PushJob) (now : Time) : Store × JobId :=
  let throttleCursors := match job.throttleKey, job.throttleSpacingMs with
    | some tkey, some spacing =>
      let next := s.throttleStart job tkey now + max spacing 0
      s.throttleCursors.upsert ⟨job.queue, tkey, next⟩ (fun c => { c with nextAt := next })
        (fun _ => rfl)
    | _, _ => s.throttleCursors
  let jobs :=
    (s.jobs.delete (debounced job)).insert (newJobRow job s.nextId (s.availableAt job now) now)
  ({ s with jobs, throttleCursors, nextId := s.nextId + 1 }, s.nextId)

section InsertJob

variable (s : Store) (job : PushJob) (now : Time)

@[simp] theorem insertJobRow_runs : (s.insertJobRow job now).1.runs = s.runs := rfl

@[simp] theorem insertJobRow_steps : (s.insertJobRow job now).1.steps = s.steps := rfl

@[simp] theorem insertJobRow_nextId : (s.insertJobRow job now).1.nextId = s.nextId + 1 := rfl

@[simp] theorem insertJobRow_id : (s.insertJobRow job now).2 = s.nextId := rfl

theorem mem_insertJobRow {j : JobRow} (h : j ∈ (s.insertJobRow job now).1.jobs.rows) :
    (j ∈ s.jobs.rows ∧ debounced job j = false) ∨ j = newJobRow job s.nextId
      (s.availableAt job now) now := by
  have hj := Table.get?_key h
  simp only [insertJobRow, Table.get?_insert, Table.get?_delete] at hj
  have hold (k : JobRow) (hk : (s.jobs.get? j.id).filter (fun r => !debounced job r) = some k) :
      k ∈ s.jobs.rows ∧ debounced job k = false := by
    obtain ⟨hk, hn⟩ := Option.filter_eq_some_iff.mp hk
    exact ⟨Table.mem_of_get? hk, by simpa using hn⟩
  split at hj
  · cases hd : (s.jobs.get? j.id).filter (fun r => !debounced job r) with
    | none =>
        rw [hd, Option.getD_none, Option.some.injEq] at hj
        exact .inr hj.symm
    | some k =>
        rw [hd, Option.getD_some, Option.some.injEq] at hj
        subst hj
        exact .inl (hold k hd)
  · exact .inl (hold j hj)

theorem mem_insertJobRow_of_mem {j : JobRow} (h : j ∈ s.jobs.rows) (hd : debounced job j = false) :
    j ∈ (s.insertJobRow job now).1.jobs.rows := by
  have hj : (s.jobs.delete (debounced job)).get? j.id = some j := by
    rw [Table.get?_delete, Table.get?_key h, Option.filter_some, hd]
    rfl
  have hget : (s.insertJobRow job now).1.jobs.get? j.id = some j := by
    simp only [insertJobRow, Table.get?_insert, hj, Option.getD_some, ite_self]
  exact Table.mem_of_get? hget

theorem newJobRow_mem_insertJobRow (h : ∀ j ∈ s.jobs.rows, j.id < s.nextId) :
    newJobRow job s.nextId (s.availableAt job now) now ∈ (s.insertJobRow job now).1.jobs.rows := by
  have hn : (s.jobs.delete (debounced job)).get? s.nextId = none := by
    rw [Table.get?_delete, Option.filter_eq_none_iff]
    intro j hj
    have hlt := h j (Table.mem_of_get? hj)
    exact absurd (Table.key_of_get? hj) (Nat.ne_of_lt hlt)
  have hget : (s.insertJobRow job now).1.jobs.get? s.nextId =
      some (newJobRow job s.nextId (s.availableAt job now) now) := by
    simp only [insertJobRow, Table.get?_insert, hn]
    simp [newJobRow]
  exact Table.mem_of_get? hget

end InsertJob

/-- The jobs of `s'` are those of `s`, without some that satisfy `D`, and new
ones that satisfy `P`. -/
structure JobsGrow (D P : JobRow → Prop) (s s' : Store) : Prop where
  kept : ∀ j ∈ s.jobs.rows, D j ∨ j ∈ s'.jobs.rows
  origin : ∀ j ∈ s'.jobs.rows, j ∈ s.jobs.rows ∨ s.nextId ≤ j.id ∧ j.id < s'.nextId ∧ P j
  nextId_le : s.nextId ≤ s'.nextId

namespace JobsGrow

variable {D P : JobRow → Prop} {s s' s'' : Store}

theorem of_jobs_eq (h : s'.jobs = s.jobs) (hn : s.nextId ≤ s'.nextId) : JobsGrow D P s s' where
  kept j hj := .inr (by rwa [h])
  origin j hj := .inl (by rwa [← h])
  nextId_le := hn

theorem trans (h : JobsGrow D P s s') (h' : JobsGrow D P s' s'') : JobsGrow D P s s'' where
  kept j hj := (h.kept j hj).elim .inl (h'.kept j)
  origin j hj := by
    obtain hj | ⟨hge, hlt, hp⟩ := h'.origin j hj
    · obtain hj | ⟨hge, hlt, hp⟩ := h.origin j hj
      · exact .inl hj
      · exact .inr ⟨hge, Nat.lt_of_lt_of_le hlt h'.nextId_le, hp⟩
    · exact .inr ⟨Nat.le_trans h.nextId_le hge, hlt, hp⟩
  nextId_le := Nat.le_trans h.nextId_le h'.nextId_le

theorem mono {D' P' : JobRow → Prop} (h : JobsGrow D P s s') (hD : ∀ j, D j → D' j)
    (hP : ∀ j, P j → P' j) :
    JobsGrow D' P' s s' where
  kept j hj := (h.kept j hj).imp_left (hD j)
  origin j hj := (h.origin j hj).imp_right (fun ⟨hge, hlt, hp⟩ => ⟨hge, hlt, hP j hp⟩)
  nextId_le := h.nextId_le

theorem loop {A B : Type} {f : Store → A → Store × B} {as : List A}
    (h : ∀ s, ∀ a ∈ as, JobsGrow D P s (f s a).1) (s : Store) :
    JobsGrow D P s (mapAccum f s as).1 :=
  mapAccum_preserves f (JobsGrow D P s) (fun s' a ha hs => hs.trans (h s' a ha))
    (of_jobs_eq rfl (Nat.le_refl _))

theorem fresh (h : JobsGrow D P s s') (hs : ∀ j ∈ s.jobs.rows, j.id < s.nextId) :
    ∀ j ∈ s'.jobs.rows, j.id < s'.nextId := by
  intro j hj
  obtain hj | ⟨_, hlt, _⟩ := h.origin j hj
  · exact Nat.lt_of_lt_of_le (hs j hj) h.nextId_le
  · exact hlt

end JobsGrow

theorem insertJobRow_grows (s : Store) (job : PushJob) (now : Time) :
    JobsGrow (fun j => debounced job j = true) (Pushed now job) s (s.insertJobRow job now).1 where
  kept j hj := by
    cases hd : debounced job j with
    | true => exact .inl rfl
    | false => exact .inr (s.mem_insertJobRow_of_mem job now hj hd)
  origin j hj := by
    obtain ⟨hj, _⟩ | rfl := s.mem_insertJobRow job now hj
    · exact .inl hj
    · exact .inr ⟨Nat.le_refl _, Nat.lt_succ_self _, s.pushed_newJobRow job s.nextId now⟩
  nextId_le := Nat.le_succ _

theorem insertJobRow_keeps (job : PushJob) (h : job.debounceKey = none) (s : Store) (now : Time) :
    JobsGrow (fun _ => False) (Pushed now job) s (s.insertJobRow job now).1 :=
  (s.insertJobRow_grows job now).mono (fun j hj => by simp [debounced, h] at hj) (fun _ h => h)

def push (s : Store) (jobs : List PushJob) (now : Time) : Store × List JobId :=
  mapAccum (fun s job => s.insertJobRow job now) s jobs

theorem push_grows (s : Store) (jobs : List PushJob) (now : Time) :
    JobsGrow (fun j => ∃ job ∈ jobs, debounced job j = true)
      (fun j => ∃ job ∈ jobs, Pushed now job j)
      s (s.push jobs now).1 :=
  JobsGrow.loop (fun s job hjob => (s.insertJobRow_grows job now).mono (fun _ h => ⟨job, hjob, h⟩)
    (fun _ h => ⟨job, hjob, h⟩)) s

theorem mem_push_singleton {s : Store} (hf : ∀ j ∈ s.jobs.rows, j.id < s.nextId) (job : PushJob)
    (now : Time) :
    ∃ j ∈ (s.push [job] now).1.jobs.rows, j.id = s.nextId ∧ Pushed now job j :=
  ⟨_, newJobRow_mem_insertJobRow s job now hf, rfl, s.pushed_newJobRow job s.nextId now⟩

theorem push_runs (s : Store) (jobs : List PushJob) (now : Time) :
    (s.push jobs now).1.runs = s.runs ∧ (s.push jobs now).1.steps = s.steps ∧
    (s.push jobs now).1.events = s.events :=
  mapAccum_preserves
    _ (fun s' : Store => s'.runs = s.runs ∧ s'.steps = s.steps ∧ s'.events = s.events)
    (fun _ _ _ h => h) ⟨rfl, rfl, rfl⟩

/-- `ORDER BY priority DESC, id ASC`. -/
def claimBefore (a b : JobRow) : Bool :=
  b.priority < a.priority || a.priority = b.priority && a.id ≤ b.id

def ready (s : Store) (queue : String) (now : Time) : List JobRow :=
  s.jobs.select (fun j => j.queue = queue && j.status = .pending && j.availableAt ≤ now)

/-- `ROW_NUMBER()` of a ready job within its concurrency key. -/
def rowNumber (rows : List JobRow) (j : JobRow) : Nat :=
  (rows.filter (fun i => i.concurrencyKey = j.concurrencyKey && claimBefore i j)).length

def runningOfKey (s : Store) (j : JobRow) : Nat :=
  match j.concurrencyKey with
  | none => 0
  | some k => (s.jobs.select (fun r =>
      r.queue = j.queue && r.status = .running && r.concurrencyKey = some k)).length

def keyRank (s : Store) (rows : List JobRow) (j : JobRow) : Nat :=
  s.runningOfKey j + rowNumber rows j

def fairBefore (rows : List JobRow) (a b : JobRow) : Bool :=
  rowNumber rows a < rowNumber rows b || rowNumber rows a = rowNumber rows b && claimBefore a b

def claimIds (s : Store) (queue : String) (limit : Nat) (keyLimit : Option Nat) (fair : Bool)
    (now : Time) : List JobId :=
  let rows := s.ready queue now
  let admitted := rows.filter (fun j => j.concurrencyKey.isNone ||
    match keyLimit with
    | none => true
    | some cap => s.keyRank rows j ≤ cap)
  let ordered :=
    if fair then admitted.insertionSort (fun a b => fairBefore rows a b)
    else if keyLimit.isSome then admitted.insertionSort (fun a b => a.id ≤ b.id)
    else rows.insertionSort (fun a b => claimBefore a b)
  (ordered.take limit).map (·.id)

def claimRow (leaseMs : Int) (now : Time) (j : JobRow) : JobRow :=
  { j with status := .running, attempt := j.attempt + 1, leaseUntil := some (now + leaseMs),
           updatedAt := now, fence := j.fence + 1 }

def claimed (j : JobRow) : ClaimedJob :=
  ⟨j.id, j.queue, j.payload, j.attempt, j.maxAttempts, j.fence⟩

def claim (s : Store) (queue : String) (limit : Nat) (leaseMs : Int) (keyLimit : Option Nat)
    (fair : Bool) (now : Time) : Store × List ClaimedJob :=
  let ids := s.claimIds queue limit keyLimit fair now
  let jobs := s.jobs.update (fun j => j.id ∈ ids) (claimRow leaseMs now) (fun _ => rfl)
  ({ s with jobs },
    ((jobs.select (fun j => j.id ∈ ids)).insertionSort (fun a b => claimBefore a b)).map claimed)

theorem claimIds_ready {s : Store} {queue : String} {limit : Nat} {keyLimit : Option Nat}
    {fair : Bool}
    {now : Time} {id : JobId} (h : id ∈ s.claimIds queue limit keyLimit fair now) :
    ∃ j ∈ s.jobs.rows, j.id = id ∧ j.queue = queue ∧ j.status = .pending ∧ j.availableAt ≤ now := by
  have hready : ∀ j ∈ s.ready queue now, ∃ i ∈ s.jobs.rows, i.id = j.id ∧ i.queue = queue ∧
      i.status = .pending ∧ i.availableAt ≤ now := by
    intro j hj
    obtain ⟨hj, hp⟩ := Table.mem_select.mp hj
    simp only [Bool.and_eq_true, decide_eq_true_eq] at hp
    exact ⟨j, hj, rfl, hp.1.1, hp.1.2, hp.2⟩
  simp only [claimIds] at h
  obtain ⟨j, hj, rfl⟩ := List.mem_map.mp h
  have hj := List.mem_of_mem_take hj
  split at hj
  · rw [List.mem_insertionSort] at hj
    exact hready j (List.mem_of_mem_filter hj)
  · split at hj
    · rw [List.mem_insertionSort] at hj
      exact hready j (List.mem_of_mem_filter hj)
    · rw [List.mem_insertionSort] at hj
      exact hready j hj

section Claim

variable {s : Store} {queue : String} {limit : Nat} {leaseMs : Int} {keyLimit : Option Nat}
  {fair : Bool}
  {now : Time}

theorem mem_claim_jobs {j : JobRow} :
    j ∈ (s.claim queue limit leaseMs keyLimit fair now).1.jobs.rows ↔
    ∃ i ∈ s.jobs.rows,
    (if i.id ∈ s.claimIds queue limit keyLimit fair now then claimRow leaseMs now i else i) =
    j := by
  have hrows : (s.claim queue limit leaseMs keyLimit fair now).1.jobs.rows = s.jobs.rows.map
      (fun i => if i.id ∈ s.claimIds queue limit keyLimit fair now then claimRow leaseMs now i
        else i) := by
    simp [claim, Table.update]
  rw [hrows, List.mem_map]

theorem mem_claim {cj : ClaimedJob} (h : cj ∈ (s.claim queue limit leaseMs keyLimit fair now).2) :
    ∃ i ∈ s.jobs.rows, i.id ∈ s.claimIds queue limit keyLimit fair now ∧ cj = claimed
      (claimRow leaseMs now i) := by
  obtain ⟨j, hj, rfl⟩ := List.mem_map.mp h
  rw [List.mem_insertionSort] at hj
  obtain ⟨hj, hid⟩ := Table.mem_select.mp hj
  obtain ⟨i, hi, rfl⟩ := mem_claim_jobs.mp hj
  have hid := of_decide_eq_true hid
  by_cases hc : i.id ∈ s.claimIds queue limit keyLimit fair now
  · rw [if_pos hc]
    exact ⟨i, hi, hc, rfl⟩
  · rw [if_neg hc] at hid
    exact absurd hid hc

theorem mem_claim_ids {id : JobId} : id ∈
    (s.claim queue limit leaseMs keyLimit fair now).2.map (·.id) ↔
    id ∈ s.claimIds queue limit keyLimit fair now := by
  constructor
  · intro h
    obtain ⟨cj, hcj, rfl⟩ := List.mem_map.mp h
    obtain ⟨i, _, hid, rfl⟩ := mem_claim hcj
    exact hid
  · intro h
    obtain ⟨j, hj, rfl, _⟩ := claimIds_ready h
    refine List.mem_map.mpr ⟨claimed (claimRow leaseMs now j), List.mem_map.mpr ⟨_, ?_, rfl⟩, rfl⟩
    rw [List.mem_insertionSort]
    exact Table.mem_select.mpr ⟨mem_claim_jobs.mpr ⟨j, hj, if_pos h⟩, decide_eq_true h⟩

theorem claim_nodup : ((s.claim queue limit leaseMs keyLimit fair now).2.map (·.id)).Nodup := by
  show ((List.map claimed _).map _).Nodup
  rw [List.map_map]
  have hperm := List.perm_insertionSort (fun a b => claimBefore a b)
    ((s.claim queue limit leaseMs keyLimit fair now).1.jobs.select
      (fun j => j.id ∈ s.claimIds queue limit keyLimit fair now))
  refine (hperm.map _).nodup_iff.mpr ?_
  exact (s.claim queue limit leaseMs keyLimit fair now).1.jobs.nodup.sublist
    (List.filter_sublist.map JobRow.id)

end Claim

def ack (s : Store) (id : JobId) (fence : Nat) : Store :=
  { s with jobs := s.jobs.delete (fun j => j.id = id && j.fence = fence) }

def retryRow (error : String) (availableAt now : Time) (j : JobRow) : JobRow :=
  { j with
    status := .pending, availableAt, lastError := some error, leaseUntil := none, updatedAt := now }

def failRetry (s : Store) (id : JobId) (error : String) (availableAt : Time) (fence : Nat)
    (now : Time) : Store :=
  let jobs :=
    s.jobs.update (fun j => j.id = id && j.fence = fence) (retryRow error availableAt now)
      (fun _ => rfl)
  { s with jobs }

def deadRow (error : String) (now : Time) (j : JobRow) : JobRow :=
  { j with status := .dead, lastError := some error, leaseUntil := none, updatedAt := now }

def failDead (s : Store) (id : JobId) (error : String) (fence : Nat) (now : Time) : Store :=
  let jobs :=
    s.jobs.update (fun j => j.id = id && j.fence = fence) (deadRow error now) (fun _ => rfl)
  { s with jobs }

def renewLeases (s : Store) (leases : List (JobId × Nat)) (leaseMs : Int) (now : Time) : Store :=
  let jobs := s.jobs.update (fun j => (j.id, j.fence) ∈ leases && j.status = .running)
    (fun j => { j with leaseUntil := some (now + leaseMs), updatedAt := now }) (fun _ => rfl)
  { s with jobs }

/-- `status = 1 AND lease_until < now`. -/
def expired (now : Time) (j : JobRow) : Bool :=
  j.status = .running && match j.leaseUntil with
    | some u => u < now
    | none => false

def expiredRow (now : Time) (j : JobRow) : JobRow :=
  if j.maxAttempts ≤ j.attempt then
    { j with
      status := .dead, leaseUntil := none, lastError := some (j.lastError.getD "lease expired"),
             updatedAt := now }
  else { j with status := .pending, leaseUntil := none, availableAt := now, updatedAt := now }

theorem expiredRow_id (now : Time) (j : JobRow) : (expiredRow now j).id = j.id := by
  unfold expiredRow
  split <;> rfl

/-- The two statements of the sweep touch different rows: those out of attempts
are dead before the second one looks. -/
def sweepExpired (s : Store) (now : Time) : Store × Nat :=
  ({ s with jobs := s.jobs.update (expired now) (expiredRow now) (expiredRow_id now) },
    (s.jobs.select (expired now)).length)

def requeueRow (now : Time) (j : JobRow) : JobRow :=
  { j with
    status := .pending, attempt := 0, lastError := none, availableAt := now, updatedAt := now }

def requeueDead (s : Store) (ids : List JobId) (now : Time) : Store × Nat :=
  let p := fun j : JobRow => j.id ∈ ids && j.status = .dead
  ({ s with jobs := s.jobs.update p (requeueRow now) (fun _ => rfl) }, (s.jobs.select p).length)

def purgeDead (s : Store) (queue : String) : Store × Nat :=
  let p := fun j : JobRow => j.queue = queue && j.status = .dead
  ({ s with jobs := s.jobs.delete p }, (s.jobs.select p).length)

end ZenZip.Store
