import ZenZip.Lib.Run
import ZenZip.Store.Jobs
import Mathlib.Data.List.Induction

namespace ZenZip

open Lib

/-- A row that a push transaction has inserted. Nobody sees its id before the commit, which draws
it. -/
structure Inserted where
  job : PushJob
  availableAt : Time
  now : Time

/-- A push transaction of Postgres: the rows that its deletes have found and locked, and its
inserts. -/
structure OpenPush where
  dropped : List JobId
  inserts : List Inserted

/-- The store, the push transactions in progress, and for each debounce key the job that was pushed
last. -/
structure Debounce where
  store : Store
  pushes : List OpenPush
  latest : String × String → Option JobId

/-- `push` is the transaction of SQLite, which holds the database; the transactions of Postgres run
side by side. `availableAt` is what the delay or the throttle says. -/
inductive DebounceOp
  | push (job : PushJob)
  | begin
  | insert (i : Nat) (job : PushJob) (availableAt : Time)
  | commit (i : Nat)
  | rollback (i : Nat)
  | claim (ids : List JobId) (leaseMs : Int)
  | ack (id : JobId) (fence : Nat)
  | failRetry (id : JobId) (error : String) (availableAt : Time) (fence : Nat)
  | failDead (id : JobId) (error : String) (fence : Nat)
  | sweepExpired
  | requeueDead (ids : List JobId)

def sameBucket (a b : PushJob) : Bool :=
  a.debounceKey.isSome && b.queue = a.queue && b.debounceKey = a.debounceKey

/-- `DELETE FROM jobs` and `INSERT INTO jobs`, as far as the transaction sees. -/
def OpenPush.insert (t : OpenPush) (s : Store) (job : PushJob) (availableAt now : Time) :
    OpenPush :=
  ⟨t.dropped ++ (s.jobs.select (Store.debounced job)).map (·.id),
    t.inserts.filter (fun x => !sameBucket job x.job) ++ [⟨job, availableAt, now⟩]⟩

theorem Store.claimRow_id (leaseMs : Int) (now : Time) (j : JobRow) :
    (Store.claimRow leaseMs now j).id = j.id := rfl

/-- The update of a claim. It takes pending rows that are due, which ones of them is its query's. -/
def Store.claimRows (s : Store) (ids : List JobId) (leaseMs : Int) (now : Time) : Store :=
  { s with
    jobs := s.jobs.update (fun j => j.id ∈ ids) (Store.claimRow leaseMs now)
      (Store.claimRow_id leaseMs now) }

theorem Store.claim_eq_claimRows (s : Store) (queue : String) (limit : Nat) (leaseMs : Int)
    (keyLimit : Option Nat)
    (fair : Bool) (now : Time) : (s.claim queue limit leaseMs keyLimit fair now).1 =
      s.claimRows (s.claimIds queue limit keyLimit fair now) leaseMs now := rfl

namespace Debounce

def init : Debounce := ⟨.empty, [], fun _ => none⟩

def marked (σ : Debounce) (job : PushJob) : String × String → Option JobId :=
  match job.debounceKey with
  | some k => Function.update σ.latest (job.queue, k) (some σ.store.nextId)
  | none => σ.latest

def place (σ : Debounce) (x : Inserted) : Debounce :=
  { σ with
    store := { σ.store with
      jobs := σ.store.jobs.insert (Store.newJobRow x.job σ.store.nextId x.availableAt x.now)
      nextId := σ.store.nextId + 1 }
    latest := σ.marked x.job }

def without (σ : Debounce) (i : Nat) (t : OpenPush) : Debounce :=
  { σ with
    store := { σ.store with jobs := σ.store.jobs.delete (fun j => j.id ∈ t.dropped) },
    pushes := σ.pushes.eraseIdx i }

/-- Another statement waits for the row, or skips it. -/
def locked (σ : Debounce) (id : JobId) : Bool := σ.pushes.any (fun t => id ∈ t.dropped)

def claimable (σ : Debounce) (now : Time) (id : JobId) : Bool :=
  !σ.locked id && (σ.store.jobs.get? id).any (fun j => j.status = .pending && j.availableAt ≤ now)

def step (σ : Debounce) : Time × DebounceOp → Option Debounce
  | (now, .push job) =>
      some { σ with store := (σ.store.insertJobRow job now).1, latest := σ.marked job }
  | (_, .begin) => some { σ with pushes := ⟨[], []⟩ :: σ.pushes }
  | (now, .insert i job availableAt) => σ.pushes[i]?.map (fun t =>
      { σ with pushes := σ.pushes.set i (t.insert σ.store job availableAt now) })
  | (_, .commit i) => σ.pushes[i]?.map (fun t => t.inserts.foldl place (σ.without i t))
  | (_, .rollback i) => σ.pushes[i]?.map (fun _ => { σ with pushes := σ.pushes.eraseIdx i })
  | (now, .claim ids leaseMs) =>
      if ids.all (σ.claimable now) then some { σ with store := σ.store.claimRows ids leaseMs now }
        else none
  | (_, .ack id fence) =>
      if σ.locked id then none else some { σ with store := σ.store.ack id fence }
  | (now, .failRetry id error availableAt fence) =>
      if σ.locked id then none
        else some { σ with store := σ.store.failRetry id error availableAt fence now }
  | (now, .failDead id error fence) =>
      if σ.locked id then none else some { σ with store := σ.store.failDead id error fence now }
  | (now, .sweepExpired) => some { σ with store := (σ.store.sweepExpired now).1 }
  | (now, .requeueDead ids) => some { σ with store := (σ.store.requeueDead ids now).1 }

def isLatest (latest : String × String → Option JobId) (j : JobRow) : Bool :=
  match j.debounceKey with
  | some k => latest (j.queue, k) = some j.id
  | none => true

def returns (now : Time) : DebounceOp → JobRow → Bool
  | .failRetry id _ _ fence, j => j.id = id && j.fence = fence
  | .sweepExpired, j => Store.expired now j && j.attempt < j.maxAttempts
  | .requeueDead ids, j => j.id ∈ ids && j.status = .dead
  | _, _ => false

/-- The deletes of a transaction have found all jobs that are pending under its keys when it
commits. -/
def complete (σ : Debounce) : DebounceOp → Bool
  | .commit i => σ.pushes[i]?.all (fun t => t.inserts.all (fun x =>
      σ.store.jobs.rows.all (fun j => !Store.debounced x.job j || j.id ∈ t.dropped)))
  | _ => true

/-- Only jobs that were pushed last become pending again, and no push commits past another one. -/
def calm (σ : Debounce) (l : Time × DebounceOp) : Bool :=
  σ.complete l.2 && σ.store.jobs.rows.all (fun j => !returns l.1 l.2 j || isLatest σ.latest j)

/-- At most one job of a key is pending, and it is the one that was pushed last. -/
structure Collapsed (σ : Debounce) : Prop where
  single : ∀ i ∈ σ.store.jobs.rows, ∀ j ∈ σ.store.jobs.rows, i.status = .pending →
    j.status = .pending →
    i.debounceKey.isSome → i.queue = j.queue → i.debounceKey = j.debounceKey → i = j
  latest : ∀ j ∈ σ.store.jobs.rows, j.status = .pending → ∀ k, j.debounceKey = some k →
    σ.latest (j.queue, k) = some j.id

theorem isLatest_iff {latest : String × String → Option JobId} {j : JobRow} :
    isLatest latest j = true ↔ ∀ k, j.debounceKey = some k → latest (j.queue, k) = some j.id := by
  rw [isLatest]
  cases hk : j.debounceKey with
  | none => simp
  | some k => simp

/-- That the pending jobs are the latest ones is all, since ids are unique. -/
theorem collapsed_iff {σ : Debounce} :
    Collapsed σ ↔ ∀ j ∈ σ.store.jobs.rows, j.status = .pending → isLatest σ.latest j = true := by
  constructor
  · intro h j hj hs
    exact isLatest_iff.mpr (h.latest j hj hs)
  · intro h
    refine ⟨fun i hi j hj hsi hsj hsome hq hk => ?_, fun j hj hs => isLatest_iff.mp (h j hj hs)⟩
    obtain ⟨k, hki⟩ := Option.isSome_iff_exists.mp hsome
    have hi' := isLatest_iff.mp (h i hi hsi) k hki
    have hj' := isLatest_iff.mp (h j hj hsj) k (hk ▸ hki)
    rw [hq, hj'] at hi'
    exact σ.store.jobs.key_injOn hi hj (Option.some.inj hi').symm

theorem collapsed_update_iff {σ : Debounce} (h : Collapsed σ) (p : JobRow → Bool)
    (f : JobRow → JobRow)
    (hf : ∀ j, (f j).id = j.id) (hq : ∀ j, (f j).queue = j.queue)
    (hk : ∀ j, (f j).debounceKey = j.debounceKey) :
    Collapsed { σ with store := { σ.store with jobs := σ.store.jobs.update p f hf } } ↔
      ∀ j ∈ σ.store.jobs.rows, p j = true → (f j).status = .pending →
      isLatest σ.latest j = true := by
  have hsame (j : JobRow) : isLatest σ.latest (f j) = isLatest σ.latest j := by
    rw [isLatest, isLatest, hk, hq, hf]
  rw [collapsed_iff]
  constructor
  · intro hc j hj hp hs
    rw [← hsame]
    have hmem : f j ∈ (σ.store.jobs.update p f hf).rows := Table.mem_update.mpr ⟨j, hj, if_pos hp⟩
    exact hc (f j) hmem hs
  · intro hr j' hj' hs
    have hmem : j' ∈ (σ.store.jobs.update p f hf).rows := hj'
    obtain ⟨j, hj, rfl⟩ := Table.mem_update.mp hmem
    split at hs
    · next hp =>
        rw [if_pos hp, hsame]
        exact hr j hj hp hs
    · next hp =>
        rw [if_neg hp]
        exact collapsed_iff.mp h j hj hs

theorem Collapsed.of_delete {σ σ' : Debounce} (h : Collapsed σ) {p : JobRow → Bool}
    (hjobs : σ'.store.jobs = σ.store.jobs.delete p) (hlatest : σ'.latest = σ.latest) :
    Collapsed σ' := by
  rw [collapsed_iff, hjobs, hlatest]
  intro j hj hs
  exact collapsed_iff.mp h j (List.mem_of_mem_filter hj) hs

def Drawn (σ : Debounce) : Prop := ∀ j ∈ σ.store.jobs.rows, j.id < σ.store.nextId

section Place

variable {σ : Debounce} {x : Inserted}

theorem mem_place (hd : Drawn σ) {j : JobRow} : j ∈ (σ.place x).store.jobs.rows ↔
    j ∈ σ.store.jobs.rows ∨ j = Store.newJobRow x.job σ.store.nextId x.availableAt x.now := by
  have hfresh : σ.store.jobs.get? σ.store.nextId = none :=
    Table.get?_eq_none_iff.mpr (fun i hi => (hd i hi).ne)
  have hrows :=
    Table.rows_insert_fresh (r := Store.newJobRow x.job σ.store.nextId x.availableAt x.now) hfresh
  rw [place, hrows, List.mem_append, List.mem_singleton]

theorem Drawn.place (hd : Drawn σ) : Drawn (σ.place x) := by
  intro j hj
  rcases (mem_place hd).mp hj with hj | rfl
  · exact Nat.lt_succ_of_lt (hd j hj)
  · exact Nat.lt_succ_self _

theorem debounced_iff {job : PushJob} {j : JobRow} : Store.debounced job j = true ↔
    ∃ k, job.debounceKey = some k ∧ j.debounceKey = some k ∧ j.queue = job.queue ∧
    j.status = .pending := by
  simp only [Store.debounced, Bool.and_eq_true, decide_eq_true_eq, Option.isSome_iff_exists]
  constructor
  · rintro ⟨⟨⟨⟨k, hk⟩, hq⟩, hs⟩, hj⟩
    exact ⟨k, hk, hj.trans hk, hq, hs⟩
  · rintro ⟨k, hk, hj, hq, hs⟩
    exact ⟨⟨⟨⟨k, hk⟩, hq⟩, hs⟩, hj.trans hk.symm⟩

theorem isLatest_place {j : JobRow} (hs : j.status = .pending)
    (hx : Store.debounced x.job j = false) :
    isLatest (σ.place x).latest j = isLatest σ.latest j := by
  rw [Debounce.place, marked, isLatest, isLatest]
  cases hj : j.debounceKey with
  | none => rfl
  | some k =>
      cases hk : x.job.debounceKey with
      | none => rfl
      | some k' =>
          have hne : (j.queue, k) ≠ (x.job.queue, k') := by
            intro he
            obtain ⟨hq, rfl⟩ := Prod.mk.inj he
            exact Bool.false_ne_true (hx.symm.trans (debounced_iff.mpr ⟨k, hk, hj, hq, hs⟩))
          simp only [Function.update_of_ne hne]

theorem isLatest_newJobRow :
    isLatest (σ.place x).latest (Store.newJobRow x.job σ.store.nextId x.availableAt x.now) =
    true := by
  rw [isLatest_iff]
  intro k hk
  have hk : x.job.debounceKey = some k := hk
  simp only [Debounce.place, marked, hk]
  exact Function.update_self _ _ _

theorem Collapsed.place (hd : Drawn σ) (h : Collapsed σ)
    (hx : ∀ j ∈ σ.store.jobs.rows, Store.debounced x.job j = false) :
    Collapsed (σ.place x) := by
  rw [collapsed_iff]
  intro j hj hs
  rcases (mem_place hd).mp hj with hj | rfl
  · rw [isLatest_place hs (hx j hj)]
    exact collapsed_iff.mp h j hj hs
  · exact isLatest_newJobRow

theorem sameBucket_comm (a b : PushJob) : sameBucket a b = sameBucket b a := by
  rw [Bool.eq_iff_iff]
  simp only [sameBucket, Bool.and_eq_true, decide_eq_true_eq]
  constructor
  · rintro ⟨⟨ha, hq⟩, hk⟩
    exact ⟨⟨hk ▸ ha, hq.symm⟩, hk.symm⟩
  · rintro ⟨⟨hb, hq⟩, hk⟩
    exact ⟨⟨hk ▸ hb, hq.symm⟩, hk.symm⟩

theorem debounced_newJobRow (job : PushJob) (id : JobId) :
    Store.debounced job (Store.newJobRow x.job id x.availableAt x.now) = sameBucket job x.job := by
  rw [Bool.eq_iff_iff, debounced_iff]
  simp only [sameBucket, Bool.and_eq_true, decide_eq_true_eq, Option.isSome_iff_exists]
  constructor
  · rintro ⟨k, hk, hj, hq, _⟩
    exact ⟨⟨⟨k, hk⟩, hq⟩, Eq.trans hj hk.symm⟩
  · rintro ⟨⟨⟨k, hk⟩, hq⟩, hj⟩
    exact ⟨k, hk, hj.trans hk, hq, rfl⟩

end Place

section Commit

variable {σ : Debounce} {xs : List Inserted}

theorem drawn_foldl (hd : Drawn σ) (xs : List Inserted) : Drawn (xs.foldl place σ) := by
  induction xs generalizing σ with
  | nil => exact hd
  | cons x xs ih => exact ih hd.place

theorem mem_foldl_of_mem (hd : Drawn σ) {j : JobRow} (hj : j ∈ σ.store.jobs.rows) :
    j ∈ (xs.foldl place σ).store.jobs.rows := by
  induction xs generalizing σ with
  | nil => exact hj
  | cons x xs ih => exact ih hd.place ((mem_place hd).mpr (.inl hj))

theorem nextId_le_foldl (σ : Debounce) (xs : List Inserted) :
    σ.store.nextId ≤ (xs.foldl place σ).store.nextId := by
  induction xs generalizing σ with
  | nil => exact Nat.le_refl _
  | cons x xs ih => exact Nat.le_trans (Nat.le_succ _) (ih (σ.place x))

theorem pushes_foldl (σ : Debounce) (xs : List Inserted) :
    (xs.foldl place σ).pushes = σ.pushes := by
  induction xs generalizing σ with
  | nil => rfl
  | cons x xs ih => exact ih (σ.place x)

theorem latest_foldl {x : Inserted} (hx : x ∈ xs) {k : String} (hk : x.job.debounceKey = some k) :
    ∃ id, (xs.foldl place σ).latest (x.job.queue, k) = some id ∧ σ.store.nextId ≤ id := by
  induction xs using List.reverseRecOn with
  | nil => cases hx
  | append_singleton xs y ih =>
      have hlast : (xs ++ [y]).foldl place σ = (xs.foldl place σ).place y := by
        rw [List.foldl_append]
        rfl
      rw [hlast]
      by_cases hy : ∃ k', y.job.debounceKey = some k' ∧ (x.job.queue, k) = (y.job.queue, k')
      · obtain ⟨k', hk', he⟩ := hy
        refine ⟨_, ?_, nextId_le_foldl σ xs⟩
        rw [he]
        simp only [place, marked, hk']
        exact Function.update_self _ _ _
      · have hxs : x ∈ xs := by
          rcases List.mem_append.mp hx with hx | hx
          · exact hx
          · obtain rfl := List.mem_singleton.mp hx
            exact absurd ⟨k, hk, rfl⟩ hy
        have hkeep : ((xs.foldl place σ).place y).latest (x.job.queue, k) =
          (xs.foldl place σ).latest (x.job.queue, k) := by
          simp only [place, marked]
          cases hky : y.job.debounceKey with
          | none => rfl
          | some k' => exact Function.update_of_ne (fun he => hy ⟨k', hky, he⟩) _ _
        rw [hkeep]
        exact ih hxs

theorem Collapsed.foldl (hd : Drawn σ) (h : Collapsed σ)
    (hp : xs.Pairwise (fun x y => sameBucket x.job y.job = false))
    (hx : ∀ x ∈ xs, ∀ j ∈ σ.store.jobs.rows, Store.debounced x.job j = false) :
    Collapsed (xs.foldl Debounce.place σ) := by
  induction xs generalizing σ with
  | nil => exact h
  | cons x xs ih =>
      obtain ⟨hfirst, hrest⟩ := List.pairwise_cons.mp hp
      obtain ⟨hx, hxs⟩ := List.forall_mem_cons.mp hx
      refine ih hd.place (h.place hd hx) hrest (fun y hy j hj => ?_)
      rcases (mem_place hd).mp hj with hj | rfl
      · exact hxs y hy j hj
      · rw [debounced_newJobRow, sameBucket_comm]
        exact hfirst y hy

theorem collapsed_foldl_iff (hd : Drawn σ) (h : Collapsed σ)
    (hp : xs.Pairwise (fun x y => sameBucket x.job y.job = false)) :
    Collapsed (xs.foldl place σ) ↔
    ∀ x ∈ xs, ∀ j ∈ σ.store.jobs.rows, Store.debounced x.job j = false := by
  refine ⟨fun hc x hx j hj => ?_, h.foldl hd hp⟩
  rw [← Bool.not_eq_true]
  intro hdeb
  obtain ⟨k, hk, hjk, hq, hs⟩ := debounced_iff.mp hdeb
  obtain ⟨id, hid, hle⟩ := latest_foldl (σ := σ) hx hk
  have hlatest := hc.latest j (mem_foldl_of_mem hd hj) hs k hjk
  rw [hq, hid] at hlatest
  exact absurd (hd j hj) (by rw [← Option.some.inj hlatest]; exact Nat.not_lt.mpr hle)

end Commit

structure Kept (σ : Debounce) : Prop where
  drawn : Drawn σ
  apart : ∀ t ∈ σ.pushes, t.inserts.Pairwise (fun x y => sameBucket x.job y.job = false)
  collapsed : Collapsed σ

variable {σ σ' : Debounce} {now : Time} {op : DebounceOp}

theorem OpenPush.apart_insert {t : OpenPush}
    (h : t.inserts.Pairwise (fun x y => sameBucket x.job y.job = false))
    (s : Store) (job : PushJob) (availableAt now : Time) :
    (t.insert s job availableAt now).inserts.Pairwise
      (fun x y => sameBucket x.job y.job = false) := by
  rw [OpenPush.insert, List.pairwise_append]
  refine ⟨h.filter _, List.pairwise_singleton _ _, fun x hx y hy => ?_⟩
  obtain rfl := List.mem_singleton.mp hy
  have hx := (List.mem_filter.mp hx).2
  rw [sameBucket_comm]
  simpa using hx

theorem Collapsed.congr (h : Collapsed σ) (hjobs : σ'.store.jobs = σ.store.jobs)
    (hlatest : σ'.latest = σ.latest) :
    Collapsed σ' := by
  rw [collapsed_iff, hjobs, hlatest]
  exact collapsed_iff.mp h

theorem calm_of_returns (hr : ∀ j, returns now op j = false) (hc : σ.complete op = true) :
    calm σ (now, op) = true := by
  rw [calm, hc, Bool.true_and, List.all_eq_true]
  intro j _
  rw [hr]
  rfl

theorem calm_iff_returns (hc : σ.complete op = true) : calm σ (now, op) = true ↔
    ∀ j ∈ σ.store.jobs.rows, returns now op j = true → isLatest σ.latest j = true := by
  rw [calm, hc, Bool.true_and, List.all_eq_true]
  refine forall₂_congr (fun j _ => ?_)
  cases returns now op j <;> simp

theorem Collapsed.push (h : Kept σ) (job : PushJob) (now : Time) :
    Collapsed { σ with store := (σ.store.insertJobRow job now).1, latest := σ.marked job } := by
  let τ : Debounce :=
    { σ with store := { σ.store with jobs := σ.store.jobs.delete (Store.debounced job) } }
  have hdrawn : Drawn τ := by
    intro j hj
    exact h.drawn j (List.mem_of_mem_filter hj)
  have hτ : Collapsed τ := h.collapsed.of_delete rfl rfl
  have hplace : Collapsed (τ.place ⟨job, σ.store.availableAt job now, now⟩) := by
    refine hτ.place hdrawn (fun j hj => ?_)
    simpa using (List.mem_filter.mp hj).2
  exact hplace.congr rfl rfl

theorem collapsed_commit_iff (h : Kept σ) {i : Nat} {t : OpenPush} (ht : σ.pushes[i]? = some t) :
    Collapsed (t.inserts.foldl place (σ.without i t)) ↔ calm σ (now, .commit i) = true := by
  have hdrawn : Drawn (σ.without i t) := by
    intro j hj
    exact h.drawn j (List.mem_of_mem_filter hj)
  have hwithout : Collapsed (σ.without i t) := h.collapsed.of_delete rfl rfl
  have hcalm : calm σ (now, .commit i) = true ↔ ∀ x ∈ t.inserts, ∀ j ∈ σ.store.jobs.rows,
      (!Store.debounced x.job j || decide (j.id ∈ t.dropped)) = true := by
    rw [calm, complete, ht]
    simp only [returns, Option.all_some, List.all_eq_true, Bool.and_eq_true, Bool.not_false,
      Bool.true_or, implies_true,
      and_true]
  rw [collapsed_foldl_iff hdrawn hwithout (h.apart t (List.mem_of_getElem? ht)), hcalm]
  refine forall₂_congr (fun x _ => ?_)
  constructor
  · intro hx j hj
    by_cases hm : j.id ∈ t.dropped
    · simp [hm]
    · rw [hx j (List.mem_filter.mpr ⟨hj, by simpa using hm⟩)]
      rfl
  · intro hx j hj
    obtain ⟨hj, hm⟩ := List.mem_filter.mp hj
    simpa [show j.id ∉ t.dropped by simpa using hm] using hx j hj

theorem expiredRow_bucket (now : Time) (j : JobRow) : (Store.expiredRow now j).queue = j.queue ∧
    (Store.expiredRow now j).debounceKey = j.debounceKey := by
  unfold Store.expiredRow
  split <;> exact ⟨rfl, rfl⟩

theorem pending_expiredRow_iff (now : Time) (j : JobRow) :
    (Store.expiredRow now j).status = .pending ↔ j.attempt < j.maxAttempts := by
  unfold Store.expiredRow
  split
  · next h => exact iff_of_false (by simp) (Nat.not_lt.mpr h)
  · next h => exact iff_of_true rfl (Nat.lt_of_not_le h)

theorem collapsed_step_iff (h : Kept σ) (hs : step σ (now, op) = some σ') :
    Collapsed σ' ↔ calm σ (now, op) = true := by
  cases op with
  | push job =>
      cases hs
      exact iff_of_true (Collapsed.push h job now) (calm_of_returns (fun _ => rfl) rfl)
  | begin =>
      cases hs
      exact iff_of_true (h.collapsed.congr rfl rfl) (calm_of_returns (fun _ => rfl) rfl)
  | insert i job availableAt =>
      obtain ⟨t, _, rfl⟩ := Option.map_eq_some_iff.mp hs
      exact iff_of_true (h.collapsed.congr rfl rfl) (calm_of_returns (fun _ => rfl) rfl)
  | commit i =>
      obtain ⟨t, ht, rfl⟩ := Option.map_eq_some_iff.mp hs
      exact collapsed_commit_iff h ht
  | rollback i =>
      obtain ⟨t, _, rfl⟩ := Option.map_eq_some_iff.mp hs
      exact iff_of_true (h.collapsed.congr rfl rfl) (calm_of_returns (fun _ => rfl) rfl)
  | claim ids leaseMs =>
      rw [step] at hs
      split at hs
      · cases hs
        refine iff_of_true ?_ (calm_of_returns (fun _ => rfl) rfl)
        refine (collapsed_update_iff h.collapsed (fun j => j.id ∈ ids) (Store.claimRow leaseMs now)
          (fun _ => rfl)
          (fun _ => rfl) (fun _ => rfl)).mpr ?_
        rintro j _ _ ⟨⟩
      · cases hs
  | ack id fence =>
      rw [step] at hs
      split at hs
      · cases hs
      · cases hs
        exact iff_of_true (h.collapsed.of_delete rfl rfl) (calm_of_returns (fun _ => rfl) rfl)
  | failRetry id error availableAt fence =>
      rw [step] at hs
      split at hs
      · cases hs
      · cases hs
        rw [calm_iff_returns rfl]
        refine (collapsed_update_iff h.collapsed (fun j => j.id = id && j.fence = fence)
          (Store.retryRow error availableAt now)
          (fun _ => rfl) (fun _ => rfl) (fun _ => rfl)).trans ?_
        exact forall₂_congr (fun j _ => imp_congr_right (fun _ => imp_iff_right rfl))
  | failDead id error fence =>
      rw [step] at hs
      split at hs
      · cases hs
      · cases hs
        refine iff_of_true ?_ (calm_of_returns (fun _ => rfl) rfl)
        refine (collapsed_update_iff h.collapsed (fun j => j.id = id && j.fence = fence)
          (Store.deadRow error now)
          (fun _ => rfl) (fun _ => rfl) (fun _ => rfl)).mpr ?_
        rintro j _ _ ⟨⟩
  | sweepExpired =>
      cases hs
      rw [calm_iff_returns rfl]
      refine (collapsed_update_iff h.collapsed (Store.expired now) (Store.expiredRow now)
        (Store.expiredRow_id now)
        (fun j => (expiredRow_bucket now j).1) (fun j => (expiredRow_bucket now j).2)).trans
          (forall₂_congr (fun j _ => ?_))
      rw [pending_expiredRow_iff, returns, Bool.and_eq_true, decide_eq_true_eq, and_imp]
  | requeueDead ids =>
      cases hs
      rw [calm_iff_returns rfl]
      refine (collapsed_update_iff h.collapsed (fun j => j.id ∈ ids && j.status = .dead)
        (Store.requeueRow now)
        (fun _ => rfl) (fun _ => rfl) (fun _ => rfl)).trans ?_
      exact forall₂_congr (fun j _ => imp_congr_right (fun _ => imp_iff_right rfl))

theorem drawn_update (hd : Drawn σ) (p : JobRow → Bool) (f : JobRow → JobRow)
    (hf : ∀ j, (f j).id = j.id) :
    Drawn { σ with store := { σ.store with jobs := σ.store.jobs.update p f hf } } := by
  intro j hj
  have hmem : j ∈ (σ.store.jobs.update p f hf).rows := hj
  obtain ⟨i, hi, rfl⟩ := Table.mem_update.mp hmem
  have hid : (if p i = true then f i else i).id = i.id := by
    split
    · exact hf i
    · rfl
  rw [hid]
  exact hd i hi

theorem drawn_apart_step (h : Kept σ) (hs : step σ (now, op) = some σ') : Drawn σ' ∧
    ∀ t ∈ σ'.pushes, t.inserts.Pairwise (fun x y => sameBucket x.job y.job = false) := by
  cases op with
  | push job =>
      cases hs
      exact ⟨(σ.store.insertJobRow_grows job now).fresh h.drawn, h.apart⟩
  | begin =>
      cases hs
      exact ⟨h.drawn, List.forall_mem_cons.mpr ⟨List.Pairwise.nil, h.apart⟩⟩
  | insert i job availableAt =>
      obtain ⟨t, ht, rfl⟩ := Option.map_eq_some_iff.mp hs
      refine ⟨h.drawn, fun u hu => ?_⟩
      rcases List.mem_or_eq_of_mem_set hu with hu | rfl
      · exact h.apart u hu
      · exact OpenPush.apart_insert (h.apart t (List.mem_of_getElem? ht)) σ.store job
          availableAt now
  | commit i =>
      obtain ⟨t, _, rfl⟩ := Option.map_eq_some_iff.mp hs
      have hdrawn : Drawn (σ.without i t) := by
        intro j hj
        exact h.drawn j (List.mem_of_mem_filter hj)
      refine ⟨drawn_foldl hdrawn t.inserts, fun u hu => ?_⟩
      rw [pushes_foldl] at hu
      exact h.apart u (List.mem_of_mem_eraseIdx hu)
  | rollback i =>
      obtain ⟨t, _, rfl⟩ := Option.map_eq_some_iff.mp hs
      exact ⟨h.drawn, fun u hu => h.apart u (List.mem_of_mem_eraseIdx hu)⟩
  | claim ids leaseMs =>
      rw [step] at hs
      split at hs
      · cases hs
        exact ⟨drawn_update h.drawn (fun j => j.id ∈ ids) (Store.claimRow leaseMs now)
          (fun _ => rfl), h.apart⟩
      · cases hs
  | ack id fence =>
      rw [step] at hs
      split at hs
      · cases hs
      · cases hs
        exact ⟨fun j hj => h.drawn j (List.mem_of_mem_filter hj), h.apart⟩
  | failRetry id error availableAt fence =>
      rw [step] at hs
      split at hs
      · cases hs
      · cases hs
        exact ⟨drawn_update h.drawn (fun j => j.id = id && j.fence = fence)
          (Store.retryRow error availableAt now) (fun _ => rfl), h.apart⟩
  | failDead id error fence =>
      rw [step] at hs
      split at hs
      · cases hs
      · cases hs
        exact ⟨drawn_update h.drawn (fun j => j.id = id && j.fence = fence)
          (Store.deadRow error now) (fun _ => rfl), h.apart⟩
  | sweepExpired =>
      cases hs
      exact ⟨drawn_update h.drawn _ _ (Store.expiredRow_id now), h.apart⟩
  | requeueDead ids =>
      cases hs
      exact ⟨drawn_update h.drawn (fun j => j.id ∈ ids && j.status = .dead) (Store.requeueRow now)
        (fun _ => rfl), h.apart⟩

theorem Kept.stepped (h : Kept σ) (hc : calm σ (now, op) = true) (hs : step σ (now, op) = some σ') :
    Kept σ' := by
  obtain ⟨hdrawn, hapart⟩ := drawn_apart_step h hs
  exact ⟨hdrawn, hapart, (collapsed_step_iff h hs).mpr hc⟩

theorem kept_init : Kept init where
  drawn j hj := by cases hj
  apart t ht := by cases ht
  collapsed := collapsed_iff.mpr (fun j hj => by cases hj)

theorem Kept.of_run (h : Run step calm init σ) : Kept σ :=
  h.invariant Kept kept_init (fun _ _ _ _ hk hc hs => hk.stepped hc hs)

/-- In every calm run the pushes of a key collapse to the last one, and the first step that is not
calm is the first that breaks this. -/
theorem collapsed_of_run (h : Run step calm init σ) :
    Collapsed σ ∧ ∀ l σ', step σ l = some σ' → (Collapsed σ' ↔ calm σ l = true) :=
  ⟨(Kept.of_run h).collapsed, fun _ _ hs => collapsed_step_iff (Kept.of_run h) hs⟩

def mail (payload : Json) : PushJob := ⟨"mail", .data payload, 0, 0, 3, none, some "a", none, none⟩

theorem collapsed_of_run_mail : ∃ σ, σ.store.jobs.rows.map (·.id) = [1] ∧ Collapsed σ ∧
    ∀ l σ', step σ l = some σ' → (Collapsed σ' ↔ calm σ l = true) := by
  obtain ⟨σ, hrun, hp⟩ := Run.exists_of_replay step calm init
    [(0, .push (mail .null)), (1, .begin), (1, .insert 0 (mail .null) 1), (2, .commit 0)]
    (fun σ => σ.store.jobs.rows.map (·.id) = [1]) (by decide)
  exact ⟨σ, of_decide_eq_true hp, collapsed_of_run hrun⟩

/-- A job that fails while a later one is pending comes back beside it. -/
theorem retry_stays_beside : ∃ σ, Run step (fun _ _ => true) init σ ∧ ¬ Collapsed σ := by
  obtain ⟨σ, hrun, hp⟩ := Run.exists_of_replay step (fun _ _ => true) init
    [(0, .push (mail .null)), (0, .claim [0] 1000), (1, .push (mail .null)),
      (2, .failRetry 0 "timeout" 3 1)]
    (fun σ => σ.latest ("mail", "a") =
      some 1 && σ.store.jobs.rows.any (fun j => j.id = 0 && j.queue = "mail" &&
      j.status = .pending && j.debounceKey = some "a")) (by decide)
  refine ⟨σ, hrun, fun hc => ?_⟩
  simp only [Bool.and_eq_true, decide_eq_true_eq, List.any_eq_true] at hp
  obtain ⟨hlatest, j, hj, ⟨⟨hid, hq⟩, hs⟩, hk⟩ := hp
  have hsame := hc.latest j hj hs "a" hk
  rw [hq, hlatest, hid] at hsame
  cases hsame

end Debounce

end ZenZip
