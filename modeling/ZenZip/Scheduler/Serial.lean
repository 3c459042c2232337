import ZenZip.Scheduler.Ticks
import ZenZip.Scheduler.Occurrences
import ZenZip.Ledger.KeyLimit

namespace ZenZip

open Lib

namespace NodeKind

def tick? (queue : String) : NodeKind → Option ClaimedJob
  | .scheduler _ _ => none
  | .group _ q job => if q = queue then some job else none

theorem job?_of_tick? {queue : String} {kind : NodeKind} {job : ClaimedJob}
    (h : kind.tick? queue = some job) :
    kind.job? = some job ∧ kind.runs queue = true := by
  cases kind with
  | scheduler => cases h
  | group node q job' =>
      simp only [tick?] at h
      split at h
      · next hq =>
          cases h
          exact ⟨rfl, decide_eq_true hq⟩
      · cases h

end NodeKind

namespace Store

variable {s : Store} {queue : String} {limit : Nat} {leaseMs : Int} {now : Time}

def pendingIn (s : Store) (queue : String) : List JobRow :=
  s.jobs.select (fun j => j.queue = queue && j.status = .pending)

theorem mem_pendingIn {j : JobRow} : j ∈ s.pendingIn queue ↔
    j ∈ s.jobs.rows ∧ j.queue = queue ∧ j.status = .pending := by
  simp [pendingIn, Table.mem_select]

theorem mem_ready_iff {j : JobRow} : j ∈ s.ready queue now ↔
    j ∈ s.pendingIn queue ∧ j.availableAt ≤ now := by
  simp [ready, mem_pendingIn, Table.mem_select, and_assoc]

theorem claim_length_le (s : Store) (queue : String) (limit : Nat) (leaseMs : Int) (now : Time) :
    (s.claim queue limit leaseMs none false now).2.length ≤ limit := by
  have hsub : (s.claim queue limit leaseMs none false now).2.map (·.id) ⊆ s.claimIds queue limit
    none false now :=
    fun _ h => mem_claim_ids.mp h
  have hlen := length_le_of_subset claim_nodup hsub
  rw [List.length_map] at hlen
  refine Nat.le_trans hlen ?_
  simp only [claimIds, Option.isSome_none, Bool.false_eq_true, if_false, List.length_map]
  exact List.length_take_le _ _

theorem claimIds_first (hlimit : limit ≤ 1) {id : JobId}
    (h : id ∈ s.claimIds queue limit none false now) :
    ∃ j ∈ s.ready queue now, j.id = id ∧ ∀ i ∈ s.ready queue now, claimBefore j i = true := by
  have hsorted := pairwise_claimBefore (s.ready queue now)
  have hmem {i : JobRow} : i ∈ (s.ready queue now).insertionSort (fun a b => claimBefore a b) ↔
    i ∈ s.ready queue now :=
    List.mem_insertionSort _
  simp only [claimIds, Option.isSome_none, Bool.false_eq_true, if_false] at h
  obtain ⟨j, hj, rfl⟩ := List.mem_map.mp h
  obtain rfl | rfl : limit = 0 ∨ limit = 1 := by omega
  · cases hj
  cases hl : (s.ready queue now).insertionSort (fun a b => claimBefore a b) with
  | nil =>
      rw [hl] at hj
      cases hj
  | cons head rest =>
      rw [hl] at hj hsorted hmem
      cases List.mem_singleton.mp hj
      have hready := hmem.mp List.mem_cons_self
      refine ⟨j, hready, rfl, fun i hi => ?_⟩
      rcases List.mem_cons.mp (hmem.mpr hi) with rfl | hi
      · exact (s.orders_ready queue now).refl hready
      · exact List.rel_of_pairwise_cons hsorted hi

theorem pendingIn_claim {keyLimit : Option Nat} {fair : Bool} {queue' : String} {j : JobRow}
    (h : j ∈ (s.claim queue limit leaseMs keyLimit fair now).1.pendingIn queue') :
    j ∈ s.pendingIn queue' ∧ j.id ∉ s.claimIds queue limit keyLimit fair now := by
  obtain ⟨hj, hq, hs⟩ := mem_pendingIn.mp h
  obtain ⟨i, hi, he⟩ := mem_claim_jobs.mp hj
  split at he
  · subst he
    cases hs
  · next hid =>
      subst he
      exact ⟨mem_pendingIn.mpr ⟨hi, hq, hs⟩, hid⟩

end Store

def NodeThread.pushed (t : NodeThread) (id : JobId) : Bool :=
  t.log.any (fun e => match e with
    | ⟨.store (.push _ _ _), .ok ids⟩ => ids.contains id
    | _ => false)

theorem NodeThread.pushed_answer {t : NodeThread} {id : JobId} (h : NodeThread.pushed t id = true)
    (op : SchedOp)
    (r : Except String (SchedVal op)) (p : SchedM Unit) :
    NodeThread.pushed (t.answer op r p) id = true := by
  rw [pushed, Thread.answer_log, List.any_cons, Bool.or_eq_true]
  exact .inr h

namespace SchedSys

variable {R : Schedules} {σ σ' : SchedSys} {l : SchedLabel} {name : String}

def atPush : SchedM Unit → Bool
  | .call (.fastrand _) _ | .call (.store (.activeCount _)) _ | .call (.store (.push _ _ _)) _ =>
      true
  | _ => false

/-- A scheduler still has to push an occurrence before `o`. -/
def overtakes (R : Schedules) (name : String) (σ : SchedSys) (o : Time) : Bool :=
  σ.pool.any (fun t : NodeThread => atPush t.prog &&
    (NodeThread.track R t).holds.any (fun x => x.1 = name && decide (x.2 < o)))

def aloneOn (σ : SchedSys) (node : Nat) (queue : String) : Bool :=
  σ.pool.all (fun t : NodeThread => !(t.live && t.kind.runs queue && t.kind.node ≠ node))

/-- A push of thread `i` at this reading gives its tick the last of the ids. They are
UUIDs v7: those of one process follow each other, and those of two are ordered by the
clocks of the two. -/
def lastId (σ : SchedSys) (name : String) (i : Nat) (now : Time) : Bool :=
  (σ.store.pendingIn (scheduleQueueName name)).all (fun j =>
    j.createdAt < now || (σ.pool[i]?).any (fun t => NodeThread.pushed t j.id))

/-- The ticks of the schedule are pushed in the order of their claims, by clocks that are
in this order, too, and claimed when no other node executes one and none before them
waits for its start. -/
def inTurn (R : Schedules) (name : String) (σ : SchedSys) : SchedLabel → Bool
  | .call i ch => keepsCursor name σ (.call i ch) && match ch, σ.pendingCall i with
    | .ok now, some (.push _ name' occurrence) =>
      name' ≠ name || !σ.overtakes R name occurrence && σ.lastId name i now
    | _, _ => true
  | .dispatch node name' now =>
      name' ≠ name || (σ.store.ready (scheduleQueueName name) now).isEmpty ||
      σ.aloneOn node (scheduleQueueName name) &&
        (σ.store.ready (scheduleQueueName name) now).any (fun j =>
        (σ.store.pendingIn (scheduleQueueName name)).all (fun i => j.id ≤ i.id))
  | _ => true

theorem inTurn_push {i : Nat} {t : NodeThread} {job : PushJob} {occurrence now : Time}
    {k : Except String (List JobId) → SchedM Unit}
    (hok : inTurn R name σ (.call i (.ok now)) = true)
    (ht : σ.pool[i]? = some t) (hp : t.prog = .call (.store (.push job name occurrence)) k) :
    σ.overtakes R name occurrence = false ∧ ∀ j ∈ σ.store.pendingIn (scheduleQueueName name),
      j.createdAt < now ∨ NodeThread.pushed t j.id = true := by
  simp only [inTurn, pendingCall_eq ht hp, ne_eq, not_true_eq_false, decide_false, Bool.false_or,
    Bool.and_eq_true,
    Bool.not_eq_true', lastId, List.all_eq_true, Bool.or_eq_true, decide_eq_true_eq, ht,
      Option.any_some] at hok
  exact hok.2

theorem Move.pushed (h : Move R σ l σ') {t : NodeThread} (ht : t ∈ σ.pool) :
    ∃ t' ∈ σ'.pool, ∀ id, NodeThread.pushed t id = true → NodeThread.pushed t' id = true := by
  obtain ⟨i, hi⟩ := List.getElem?_of_mem ht
  have hset {u v : NodeThread} {n : Nat} (hu : σ.pool[n]? = some u)
      (hv : ∀ id, NodeThread.pushed u id = true → NodeThread.pushed v id = true) :
      ∃ t' ∈ σ.pool.set n v, ∀ id, NodeThread.pushed t id = true →
        NodeThread.pushed t' id = true := by
    by_cases hn : n = i
    · subst hn
      obtain rfl : u = t := Option.some.inj (hu.symm.trans hi)
      exact ⟨v, List.mem_of_getElem? (List.getElem?_set_self (lt_of_getElem? hu)), hv⟩
    · refine ⟨t, List.mem_of_getElem? (i := i) ?_, fun _ h => h⟩
      rw [List.getElem?_set_ne hn, hi]
  cases h with
  | booted | dispatched => exact ⟨t, List.mem_append_left _ ht, fun _ h => h⟩
  | renewed | swept => exact ⟨t, ht, fun _ h => h⟩
  | stored _ u c k now hu => exact hset hu (fun _ h => NodeThread.pushed_answer h ..)
  | answered _ u op k _ s r hu => exact hset hu (fun _ h => NodeThread.pushed_answer h ..)
  | crashed _ u hu => exact hset hu (fun _ h => h)

theorem ThreadMove.atPush {j : Nat} {u : NodeThread} (h : ThreadMove R σ j u l)
    (ha : atPush u.prog = true)
    {x : String × Time} (hx : (NodeThread.track R u).holds = some x) :
    (∃ t, σ.pool[j]? = some t ∧ SchedSys.atPush t.prog = true ∧
    (NodeThread.track R t).holds = some x ∧
      ∀ job name' occurrence k now, t.prog = .call (.store (.push job name' occurrence)) k →
      l ≠ .call j (.ok now)) ∨
    ∃ t c k now, σ.pool[j]? = some t ∧ t.prog = .call (.store c) k ∧ l = .call j (.ok now) ∧
      claims c (c.perform σ.shared now).2 = some x := by
  cases h with
  | stays _ hj hcall => exact .inl ⟨u, hj, ha, hx, fun _ _ _ _ now _ => hcall (.ok now)⟩
  | booted _ _ _ hu | claimed _ _ _ _ _ _ _ _ hu =>
      subst hu
      cases hx
  | crashed t _ _ hu =>
      subst hu
      cases ha
  | stored t c k now ht hp hu =>
      subst hu
      obtain hc | ⟨hh, queue, rfl⟩ := next_holds hx
      · exact .inr ⟨t, c, k, now, ht, hp, rfl, hc⟩
      · exact .inl ⟨t, ht, by rw [hp]; rfl, hh, fun _ _ _ _ _ h => by cases hp.symm.trans h⟩
  | answered t op k ch s r ht hp hr hu =>
      subst hu
      obtain ⟨hh, ⟨hi, rfl⟩ | ⟨queue, rfl⟩⟩ := aside_holds hr hx <;>
        exact .inl ⟨t, ht, by rw [hp]; rfl, hh, fun _ _ _ _ _ h => by cases hp.symm.trans h⟩

/-- Of two pending ticks, the one with the lower id has been pushed at an earlier reading, or
by the same process: the order of the ids is that of UUIDs v7. -/
def Aged (σ : SchedSys) (name : String) : Prop :=
  ∀ j ∈ σ.store.pendingIn (scheduleQueueName name),
    ∀ j' ∈ σ.store.pendingIn (scheduleQueueName name), j.id < j'.id →
    j.createdAt < j'.createdAt ∨ ∃ t ∈ σ.pool, NodeThread.pushed t j.id = true ∧
      NodeThread.pushed t j'.id = true

/-- The ticks are pushed in order, started in order and executed one by one. -/
structure Serial (R : Schedules) (name : String) (σ : SchedSys) : Prop where
  claiming : σ.Claiming R name
  ticks : σ.Ticks R
  ordered : (σ.shared.firesOf name).Pairwise
    (fun f f' => f.job < f'.job ∧ f.occurrence < f'.occurrence)
  behind : ∀ (i : Nat) (t : NodeThread) o, σ.pool[i]? = some t → atPush t.prog = true →
    (NodeThread.track R t).holds = some (name, o) → ∀ f ∈ σ.shared.firesOf name, f.occurrence < o
  started : ∀ (i : Nat) (t : NodeThread) job, σ.pool[i]? = some t →
    t.kind.tick? (scheduleQueueName name) = some job →
    (∃ f ∈ σ.shared.firesOf name, f.job = job.id) ∧
      ∀ j ∈ σ.store.pendingIn (scheduleQueueName name), job.id < j.id
  inOrder : ∀ (i i' : Nat) (t t' : NodeThread) job job', σ.pool[i]? = some t →
    σ.pool[i']? = some t' → i < i' →
    t.kind.tick? (scheduleQueueName name) = some job →
      t'.kind.tick? (scheduleQueueName name) = some job' → job.id < job'.id
  alone : ∀ (i i' : Nat) (t t' : NodeThread), σ.pool[i]? = some t → σ.pool[i']? = some t' →
    t.live = true →
    t'.live = true → t.kind.runs (scheduleQueueName name) = true →
      t'.kind.runs (scheduleQueueName name) = true → i = i'
  aged : σ.Aged name

theorem Move.firesOf (h : Move R σ l σ') (hI : σ.Ticks R) (name : String) :
    σ'.shared.firesOf name = σ.shared.firesOf name ∨ ∃ job occurrence now,
    Pushes σ l σ' job name occurrence now ∧
      σ'.shared.firesOf name = σ.shared.firesOf name ++ [⟨name, occurrence, σ.store.nextId⟩] := by
  obtain ⟨_, hf⟩ | ⟨job, name', occurrence, now, hpush⟩ := h.jobs hI
  · exact .inl (SchedState.firesOf_of_eq hf name)
  · by_cases hn : name' = name
    · subst hn
      exact .inr ⟨job, occurrence, now, hpush, SchedState.firesOf_append hpush.eq.2.1⟩
    · exact .inl (SchedState.firesOf_append_ne hpush.eq.2.1 hn)

/-- A push of the schedule comes behind every tick pushed before it, and before every
tick that is still to be pushed. -/
theorem Pushes.inTurn {job : PushJob} {occurrence now : Time}
    (h : Pushes σ l σ' job name occurrence now)
    (hok : inTurn R name σ l = true) (hI : σ.Serial R name) :
    (∀ f ∈ σ.shared.firesOf name, f.occurrence < occurrence) ∧
    ∀ (j : Nat) (t : NodeThread) o, σ.pool[j]? = some t → SchedSys.atPush t.prog = true →
      (NodeThread.track R t).holds = some (name, o) →
      (∀ job name' occurrence k now, t.prog = .call (.store (.push job name' occurrence)) k →
      l ≠ .call j (.ok now)) →
      occurrence < o := by
  cases h with
  | mk i t job name occurrence k now ht hp =>
      obtain ⟨_, hholds, _⟩ : (NodeThread.track R t).mayCall R (.push job name occurrence) :=
        (hI.ticks.obeying i t ht).allowed hp
      have hat : SchedSys.atPush t.prog = true := by
        rw [hp]
        rfl
      refine ⟨hI.behind i t occurrence ht hat hholds, fun j u o hu hat' hholds' hnot => ?_⟩
      have hle : occurrence ≤ o := by
        refine Int.not_lt.mp (fun hlt => ?_)
        have hover : σ.overtakes R name occurrence = true := by
          refine List.any_eq_true.mpr ⟨u, List.mem_of_getElem? hu, ?_⟩
          simp [hat', hholds', hlt]
        have hnot := (inTurn_push hok ht hp).1
        rw [hover] at hnot
        cases hnot
      have hne : occurrence ≠ o := by
        rintro rfl
        obtain rfl := hI.claiming.exclusive j i u t occurrence hu ht hholds' hholds
        cases hu.symm.trans ht
        exact hnot _ _ _ _ now hp rfl
      exact Int.lt_iff_le_and_ne.mpr ⟨hle, hne⟩

theorem Move.pending (h : Move R σ l σ') (hI : σ.Ticks R) {queue : String} {j : JobRow}
    (hj : j ∈ σ'.store.pendingIn queue) : j ∈ σ.store.pendingIn queue ∨ j.id = σ.store.nextId := by
  obtain ⟨hj, hq, hs⟩ := Store.mem_pendingIn.mp hj
  obtain ⟨hages, _⟩ | ⟨job, name, occurrence, now, hpush⟩ := h.jobs hI
  · obtain ⟨j₀, hj₀, hage⟩ := hages.rows j hj
    obtain rfl := hage.pending hs
    exact .inl (Store.mem_pendingIn.mpr ⟨hj₀, hq, hs⟩)
  · rw [hpush.eq.1] at hj
    obtain hj | rfl := SchedState.mem_pushTick hj
    · exact .inl (Store.mem_pendingIn.mpr ⟨hj, hq, hs⟩)
    · exact .inr rfl

theorem Move.new_pending (h : Move R σ l σ') (hI : σ.Ticks R) {j : JobRow}
    (hj : j ∈ σ'.store.pendingIn (scheduleQueueName name))
    (hnew : j ∉ σ.store.pendingIn (scheduleQueueName name)) :
    ∃ i t job occurrence k now, l = .call i (.ok now) ∧ σ.pool[i]? = some t ∧
      t.prog = .call (.store (.push job name occurrence)) k ∧ j.createdAt = now ∧
      j.id = σ.store.nextId ∧
      ∃ t' ∈ σ'.pool, NodeThread.pushed t' j.id = true ∧
        ∀ id, NodeThread.pushed t id = true → NodeThread.pushed t' id = true := by
  obtain ⟨hj, hq, hs⟩ := Store.mem_pendingIn.mp hj
  obtain ⟨hages, _⟩ | ⟨job, name', occurrence, now, hpush⟩ := h.jobs hI
  · obtain ⟨j₀, hj₀, hage⟩ := hages.rows j hj
    obtain rfl := hage.pending hs
    exact absurd (Store.mem_pendingIn.mpr ⟨hj₀, hq, hs⟩) hnew
  · obtain ⟨_, firedAt, delay, _, rfl⟩ := hpush.tick hI.obeying
    rw [hpush.eq.1] at hj
    obtain hj | rfl := SchedState.mem_pushTick hj
    · exact absurd (Store.mem_pendingIn.mpr ⟨hj, hq, hs⟩) hnew
    · obtain rfl : name' = name := scheduleQueueName_inj hq
      cases hpush with
      | mk i t _ _ _ k _ ht hp =>
          refine ⟨i, t, _, occurrence, k, now, rfl, ht, hp, rfl, rfl, _,
            List.mem_of_getElem? (List.getElem?_set_self (lt_of_getElem? ht)), ?_, fun _ h =>
              NodeThread.pushed_answer h ..⟩
          rw [NodeThread.pushed, Thread.answer_log, List.any_cons, Bool.or_eq_true]
          exact .inl (List.contains_iff_mem.mpr List.mem_cons_self)

theorem Ticks.fired (hI : σ.Ticks R) {j : JobRow}
    (hj : j ∈ σ.store.pendingIn (scheduleQueueName name)) :
    ∃ f ∈ σ.shared.firesOf name, f.job = j.id := by
  obtain ⟨hj, hq, _⟩ := Store.mem_pendingIn.mp hj
  obtain ⟨f, hf, hid, hfq⟩ := (hI.rows j hj).fired
  have hname : f.name = name := scheduleQueueName_inj (hfq.symm.trans hq)
  exact ⟨f, List.mem_filter.mpr ⟨hf, decide_eq_true hname⟩, hid⟩

theorem available_pos {d : ScheduleDef} (hqueue : d.overlap = .queue) {node : Nat}
    (h : σ.available node d ≠ 0) :
    σ.available node d = 1 ∧ ∀ t ∈ σ.pool, Thread.live t = true → t.kind.node = node →
      t.kind.runs (scheduleQueueName d.name) = false := by
  simp only [available, ScheduleDef.concurrency, hqueue] at h ⊢
  have hnil : (σ.pool.filter (fun t : NodeThread => t.live && t.kind.node = node &&
      t.kind.runs (scheduleQueueName d.name))) = [] := List.eq_nil_of_length_eq_zero (by omega)
  rw [hnil]
  refine ⟨rfl, fun t ht hl hn => ?_⟩
  have := List.filter_eq_nil_iff.mp hnil t ht
  simpa [hl, hn] using this

/-- The groups of the schedule are those of before, and one for the oldest tick,
claimed when no other was executing. -/
theorem Move.turn {d : ScheduleDef} (hd : R.get? name = some d) (hqueue : d.overlap = .queue)
    (h : Move R σ l σ')
    (hok : SchedSys.inTurn R name σ l = true) (hI : σ.Serial R name) {i : Nat} {t : NodeThread}
    {job : ClaimedJob}
    (ht : σ'.pool[i]? = some t) (hk : t.kind.tick? (scheduleQueueName name) = some job) :
    (∃ u, σ.pool[i]? = some u ∧ u.kind = t.kind ∧ (t.live = true → u.live = true)) ∨
    (i = σ.pool.length ∧
    (∀ u ∈ σ.pool, Thread.live u = true → u.kind.runs (scheduleQueueName name) = false) ∧
      (∃ j ∈ σ.store.pendingIn (scheduleQueueName name), j.id = job.id) ∧
      ∀ j ∈ σ'.store.pendingIn (scheduleQueueName name), job.id < j.id) := by
  refine (h.group ht (NodeKind.job?_of_tick? hk).1).imp_right ?_
  rintro ⟨node, name', now, d', rfl, hd', hge, hcj, rfl⟩
  have hname : name' = name := by
    simp only [groupThread, NodeKind.tick?] at hk
    split at hk
    · next hq => rw [← Table.key_of_get? hd', scheduleQueueName_inj hq]
    · cases hk
  subst hname
  obtain rfl : d' = d := Option.some.inj (hd'.symm.trans hd)
  have hdname : d'.name = name' := Table.key_of_get? hd
  cases h with
  | dispatched _ _ _ d'' hd'' ha =>
      obtain rfl : d'' = d' := Option.some.inj (hd''.symm.trans hd)
      obtain ⟨havailable, hnode⟩ := available_pos hqueue ha
      have hlimit : min (σ.available node d'') 32 = 1 := by
        rw [havailable]
        rfl
      simp only [claimOf, hlimit, hdname] at hcj ht ⊢
      obtain ⟨r, hr, hid, rfl⟩ := Store.mem_claim (List.mem_of_getElem? hcj)
      obtain ⟨first, hfirst, he, hbefore⟩ := Store.claimIds_first (Nat.le_refl 1) hid
      obtain rfl :=
        σ.store.jobs.key_injOn (Store.mem_pendingIn.mp (Store.mem_ready_iff.mp hfirst).1).1 hr he
      have hready : (σ.store.ready (scheduleQueueName name') now).isEmpty = false :=
        List.isEmpty_eq_false_iff.mpr (List.ne_nil_of_mem hfirst)
      simp only [SchedSys.inTurn, ne_eq, not_true_eq_false, decide_false, hready, Bool.false_or,
        Bool.and_eq_true] at hok
      obtain ⟨oldest, holdest, hleast⟩ := List.any_eq_true.mp hok.2
      have hpriority {j : JobRow} (hj : j ∈ σ.store.ready (scheduleQueueName name') now) :
        j.priority = 0 :=
        (hI.ticks.rows j (Store.mem_pendingIn.mp (Store.mem_ready_iff.mp hj).1).1).priority
      have hle := Store.claimBefore_iff.mp (hbefore oldest holdest)
      rw [hpriority holdest, hpriority hfirst] at hle
      have hlen := Store.claim_length_le σ.store (scheduleQueueName name') 1 30000 now
      have hlt := lt_of_getElem? hcj
      refine ⟨by omega, fun u hu hl => ?_, ⟨first, (Store.mem_ready_iff.mp hfirst).1, rfl⟩,
        fun j hj => ?_⟩
      · by_cases hn : u.kind.node = node
        · exact hdname ▸ hnode u hu hl hn
        · have := List.all_eq_true.mp hok.1 u hu
          simpa [hl, hn] using this
      · obtain ⟨hj, hnid⟩ := Store.pendingIn_claim hj
        have hleast := of_decide_eq_true (List.all_eq_true.mp hleast j hj)
        have hne : first.id ≠ j.id := fun he => hnid (he ▸ hid)
        show first.id < j.id
        have hle : first.id ≤ oldest.id := (hle.resolve_left (Int.lt_irrefl 0)).2
        exact Nat.lt_of_le_of_ne (Nat.le_trans hle hleast) hne

theorem Move.aged (h : Move R σ l σ') (hok : inTurn R name σ l = true) (hI : σ.Serial R name) :
    σ'.Aged name := by
  have hfresh {j : JobRow} (hj : j ∈ σ.store.pendingIn (scheduleQueueName name)) : j.id <
    σ.store.nextId := by
    obtain ⟨f, hf, hid⟩ := hI.ticks.fired hj
    exact hid ▸ hI.ticks.fires f (List.mem_of_mem_filter hf)
  intro j hj j' hj' hlt
  by_cases hold : j ∈ σ.store.pendingIn (scheduleQueueName name)
  · by_cases hold' : j' ∈ σ.store.pendingIn (scheduleQueueName name)
    · refine (hI.aged j hold j' hold' hlt).imp_right ?_
      rintro ⟨t, ht, hpushed, hpushed'⟩
      obtain ⟨u, hu, hkeep⟩ := h.pushed ht
      exact ⟨u, hu, hkeep _ hpushed, hkeep _ hpushed'⟩
    · obtain ⟨i, t, job, occurrence, k, now, rfl, ht, hp, hnow, hid, u, hu, hself, hkeep⟩ :=
        h.new_pending hI.ticks hj' hold'
      obtain hbefore | hpushed := (inTurn_push hok ht hp).2 j hold
      · exact .inl (hnow ▸ hbefore)
      · exact .inr ⟨u, hu, hkeep _ hpushed, hself⟩
  · obtain ⟨_, _, _, _, _, _, _, _, _, _, hid, _⟩ := h.new_pending hI.ticks hj hold
    obtain hold' | hid' := h.pending hI.ticks hj'
    · exact absurd (hid ▸ hlt) (Nat.not_lt.mpr (Nat.le_of_lt (hfresh hold')))
    · rw [hid, hid'] at hlt
      exact absurd hlt (Nat.lt_irrefl _)

section Sample

end Sample

end SchedSys

end ZenZip
