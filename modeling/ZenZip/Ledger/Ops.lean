import ZenZip.Engine.Journal
import ZenZip.Runtime.Ids

namespace ZenZip

open Lib

/-- One operation of the store, by whoever calls it. `locked` are the rows that
the statement skips. -/
inductive StoreOp
  | call (c : Call) (locked : List RunId)
  | claim (queue : String) (limit : Nat) (leaseMs : Int) (keyLimit : Option Nat) (fair : Bool)
  | renewLeases (leases : List (JobId × Nat)) (leaseMs : Int)

namespace StoreOp

def perform (s : Store) (now : Time) : StoreOp → Store
  | .call c locked => (c.perform s now locked).1
  | .claim queue limit leaseMs keyLimit fair => (s.claim queue limit leaseMs keyLimit fair now).1
  | .renewLeases leases leaseMs => s.renewLeases leases leaseMs now

def hands (s : Store) (now : Time) : StoreOp → List ClaimedJob
  | .claim queue limit leaseMs keyLimit fair => (s.claim queue limit leaseMs keyLimit fair now).2
  | _ => []

def restores (s : Store) : StoreOp → JobId → Bool
  | .call (.requeueDead ids) _, id => id ∈ ids && (s.jobs.get? id).any (fun j => j.status = .dead)
  | _, _ => false

def tokens : StoreOp → List (JobId × Nat)
  | .call (.ack id fence) _ | .call (.failRetry id _ _ fence) _ | .call (.failDead id _ fence) _ =>
      [(id, fence)]
  | .renewLeases leases _ => leases
  | _ => []

def fenced : StoreOp → Bool
  | .call (.ack _ _) _ | .call (.failRetry _ _ _ _) _ | .call (.failDead _ _ _) _
  | .renewLeases _ _ => true
  | _ => false

inductive Change (s : Store) (now : Time) : StoreOp → JobRow → JobRow → Prop
  | same (op j) : Change s now op j j
  | called (c locked j j') (h : JobChange now c j j') : Change s now (.call c locked) j j'
  | claimed (queue limit leaseMs keyLimit fair j)
    (hid : j.id ∈ s.claimIds queue limit keyLimit fair now) :
      Change s now (.claim queue limit leaseMs keyLimit fair) j (Store.claimRow leaseMs now j)
  | renewed (leases leaseMs j) (hid : (j.id, j.fence) ∈ leases) (h : j.status = .running) :
      Change s now (.renewLeases leases leaseMs) j
        { j with leaseUntil := some (now + leaseMs), updatedAt := now }

variable {s : Store} {now : Time} {op : StoreOp} {j j' : JobRow}

theorem Change.frame (h : Change s now op j j') :
    j'.id = j.id ∧ j'.payload = j.payload ∧ j'.queue = j.queue ∧
    j'.maxAttempts = j.maxAttempts ∧ j'.concurrencyKey = j.concurrencyKey ∧ j.fence ≤ j'.fence := by
  cases h with
  | same => exact ⟨rfl, rfl, rfl, rfl, rfl, Nat.le_refl _⟩
  | called c locked _ _ h =>
      have hkey : j'.concurrencyKey = j.concurrencyKey := by
        cases h with
        | expired _ t _ =>
            unfold Store.expiredRow
            split <;> rfl
        | _ => rfl
      obtain ⟨hid, hp, hf, _, hq, hm⟩ := h.frame
      exact ⟨hid, hp, hq, hm, hkey, Nat.le_of_eq hf.symm⟩
  | claimed => exact ⟨rfl, rfl, rfl, rfl, rfl, Nat.le_succ _⟩
  | renewed => exact ⟨rfl, rfl, rfl, rfl, rfl, Nat.le_refl _⟩

theorem job_cases (op : StoreOp) (now : Time) (h : j ∈ s.jobs.rows) :
    (∃ j', Change s now op j j' ∧ j' ∈ (op.perform s now).jobs.rows) ∨
      ∃ c locked, op = .call c locked ∧ JobLoss c j := by
  cases op with
  | call c locked =>
      obtain ⟨j', hch, hj'⟩ | hl := Call.perform_job_cases c now locked h
      · exact .inl ⟨j', .called c locked j j' hch, hj'⟩
      · exact .inr ⟨c, locked, rfl, hl⟩
  | claim queue limit leaseMs keyLimit fair =>
      refine .inl ⟨_, ?_, Store.mem_claim_jobs.mpr ⟨j, h, rfl⟩⟩
      split
      · next hid => exact .claimed queue limit leaseMs keyLimit fair j hid
      · exact .same _ j
  | renewLeases leases leaseMs =>
      refine .inl ⟨_, ?_, List.mem_map.mpr ⟨j, h, rfl⟩⟩
      split
      · next hp =>
          simp only [Bool.and_eq_true, decide_eq_true_eq] at hp
          exact .renewed leases leaseMs j hp.1 hp.2
      · exact .same _ j

theorem job_origin (op : StoreOp) (h : j ∈ (op.perform s now).jobs.rows) :
    (∃ i ∈ s.jobs.rows, Change s now op i j) ∨
      s.nextId ≤ j.id ∧ j.id < (op.perform s now).nextId ∧ ∃ c locked, op = .call c locked ∧
      JobNew s now c j := by
  cases op with
  | call c locked =>
      obtain ⟨i, hi, hch⟩ | ⟨hge, hlt, hn⟩ := Call.perform_job_origin c h
      · exact .inl ⟨i, hi, .called c locked i j hch⟩
      · exact .inr ⟨hge, hlt, c, locked, rfl, hn⟩
  | claim queue limit leaseMs keyLimit fair =>
      obtain ⟨i, hi, rfl⟩ := Store.mem_claim_jobs.mp h
      refine .inl ⟨i, hi, ?_⟩
      split
      · next hid => exact .claimed queue limit leaseMs keyLimit fair i hid
      · exact .same _ i
  | renewLeases leases leaseMs =>
      obtain ⟨i, hi, rfl⟩ := List.mem_map.mp h
      refine .inl ⟨i, hi, ?_⟩
      split
      · next hp =>
          simp only [Bool.and_eq_true, decide_eq_true_eq] at hp
          exact .renewed leases leaseMs i hp.1 hp.2
      · exact .same _ i

theorem nextId_le (op : StoreOp) : s.nextId ≤ (op.perform s now).nextId := by
  cases op with
  | call c locked => exact Call.perform_nextId_le c
  | claim | renewLeases => exact Nat.le_refl _

theorem fresh (op : StoreOp) (h : s.Fresh) : (op.perform s now).Fresh := by
  cases op with
  | call c locked => exact h.perform c now locked
  | claim queue limit leaseMs keyLimit fair =>
      refine h.of_jobs (fun j hj => ?_)
      obtain ⟨i, hi, rfl⟩ := Table.mem_update.mp hj
      refine ⟨i, hi, ?_⟩
      split <;> rfl
  | renewLeases leases leaseMs =>
      refine h.of_jobs (fun j hj => ?_)
      obtain ⟨i, hi, rfl⟩ := Table.mem_update.mp hj
      refine ⟨i, hi, ?_⟩
      split <;> rfl

theorem mem_hands {cj : ClaimedJob} (h : cj ∈ op.hands s now) :
    ∃ i ∈ s.jobs.rows, ∃ queue limit leaseMs keyLimit fair,
    op = .claim queue limit leaseMs keyLimit fair ∧
    i.id ∈ s.claimIds queue limit keyLimit fair now ∧
      i.status = .pending ∧ cj = Store.claimed (Store.claimRow leaseMs now i) ∧
      Store.claimRow leaseMs now i ∈ (op.perform s now).jobs.rows := by
  cases op with
  | call c locked => cases h
  | renewLeases leases leaseMs => cases h
  | claim queue limit leaseMs keyLimit fair =>
      obtain ⟨i, hi, hid, hcj⟩ := Store.mem_claim h
      obtain ⟨i', hi', he, _, hs, _⟩ := Store.claimIds_ready hid
      have hpending : i.status = .pending := by
        rwa [s.jobs.key_injOn hi' hi he] at hs
      refine ⟨i, hi, queue, limit, leaseMs, keyLimit, fair, rfl, hid, hpending, hcj, ?_⟩
      exact Store.mem_claim_jobs.mpr ⟨i, hi, if_pos hid⟩

theorem hands_nodup (op : StoreOp) (s : Store) (now : Time) :
    ((op.hands s now).map ClaimedJob.id).Nodup := by
  cases op with
  | call | renewLeases => exact List.nodup_nil
  | claim => exact Store.claim_nodup

end StoreOp

/-- The store, all the claims so far with the latest first, and for each job the
claims since it was pushed or last requeued. -/
structure Ledger where
  store : Store
  claims : List ClaimedJob
  spent : JobId → Nat

namespace Ledger

def init (s : Store) : Ledger := ⟨s, [], fun _ => 0⟩

def step (σ : Ledger) (l : Time × StoreOp) : Option Ledger :=
  some ⟨l.2.perform σ.store l.1, l.2.hands σ.store l.1 ++ σ.claims, fun id =>
    if l.2.restores σ.store id then 0
    else if id ∈ (l.2.hands σ.store l.1).map ClaimedJob.id then σ.spent id + 1
    else σ.spent id⟩

variable {σ σ' : Ledger} {ok : Ledger → Time × StoreOp → Bool} {s : Store} {now : Time}
  {op : StoreOp}

theorem store_of_step (h : step σ (now, op) = some σ') : σ'.store = op.perform σ.store now := by
  cases h
  rfl

theorem claims_of_step (h : step σ (now, op) = some σ') :
    σ'.claims = op.hands σ.store now ++ σ.claims := by
  cases h
  rfl

theorem fresh_of_run (hs : s.Fresh) (h : Run step ok (init s) σ) : σ.store.Fresh := by
  refine h.invariant (fun σ => σ.store.Fresh) hs ?_
  rintro σ ⟨now, op⟩ σ' _ hI _ hstep
  rw [store_of_step hstep]
  exact op.fresh hI

end Ledger

end ZenZip
