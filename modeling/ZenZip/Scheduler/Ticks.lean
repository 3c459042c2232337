import ZenZip.Scheduler.Steps
import ZenZip.Lib.Rank

namespace ZenZip

open Lib

/-- What a call that pushes nothing makes of a job. -/
structure JobRow.Ages (j j' : JobRow) : Prop where
  id : j'.id = j.id
  queue : j'.queue = j.queue
  priority : j'.priority = j.priority
  maxAttempts : j'.maxAttempts = j.maxAttempts
  pending : j'.status = .pending → j' = j
  running : j'.status = .running →
    j.status = .pending ∧ j'.attempt = j.attempt + 1 ∨ j.status = .running ∧ j'.attempt = j.attempt

theorem JobRow.Ages.refl (j : JobRow) : j.Ages j :=
  ⟨rfl, rfl, rfl, rfl, fun _ => rfl, fun h => .inr ⟨h, rfl⟩⟩

namespace Store

variable {s s' : Store}

structure Ages (s s' : Store) : Prop where
  nextId : s'.nextId = s.nextId
  rows : ∀ j' ∈ s'.jobs.rows, ∃ j ∈ s.jobs.rows, j.Ages j'

theorem Ages.refl (s : Store) : s.Ages s := ⟨rfl, fun j hj => ⟨j, hj, .refl j⟩⟩

theorem ages_update {p : JobRow → Bool} {f : JobRow → JobRow} {hf : ∀ j, (f j).id = j.id}
    (h : ∀ j ∈ s.jobs.rows, p j = true → j.Ages (f j)) :
    s.Ages { s with jobs := s.jobs.update p f hf } := by
  refine ⟨rfl, fun j' hj' => ?_⟩
  obtain ⟨j, hj, rfl⟩ := List.mem_map.mp hj'
  refine ⟨j, hj, ?_⟩
  split
  · next hp => exact h j hj hp
  · exact .refl j

theorem claim_ages (s : Store) (queue : String) (limit : Nat) (leaseMs : Int)
    (keyLimit : Option Nat) (fair : Bool)
    (now : Time) : s.Ages (s.claim queue limit leaseMs keyLimit fair now).1 := by
  refine ages_update (fun j hj hid => ?_)
  obtain ⟨i, hi, he, _, hpending, _⟩ := claimIds_ready (of_decide_eq_true hid)
  obtain rfl := s.jobs.key_injOn hi hj he
  exact ⟨rfl, rfl, rfl, rfl, nofun, fun _ => .inl ⟨hpending, rfl⟩⟩

theorem ack_ages (s : Store) (id : JobId) (fence : Nat) : s.Ages (s.ack id fence) :=
  ⟨rfl, fun j hj => ⟨j, List.mem_of_mem_filter hj, .refl j⟩⟩

theorem failDead_ages (s : Store) (id : JobId) (error : String) (fence : Nat) (now : Time) :
    s.Ages (s.failDead id error fence now) :=
  ages_update (fun _ _ _ => ⟨rfl, rfl, rfl, rfl, nofun, nofun⟩)

theorem renewLeases_ages (s : Store) (leases : List (JobId × Nat)) (leaseMs : Int) (now : Time) :
    s.Ages (s.renewLeases leases leaseMs now) := by
  refine ages_update (fun j _ hp => ?_)
  rw [Bool.and_eq_true] at hp
  have hrunning : j.status = .running := of_decide_eq_true hp.2
  exact ⟨rfl, rfl, rfl, rfl, fun h => (by cases hrunning.symm.trans h),
    fun _ => .inr ⟨hrunning, rfl⟩⟩

theorem sweepExpired_ages (now : Time)
    (h : ∀ j ∈ s.jobs.rows, j.status = .running → j.maxAttempts ≤ j.attempt) :
    s.Ages (s.sweepExpired now).1 := by
  refine ages_update (fun j hj hp => ?_)
  rw [expired, Bool.and_eq_true] at hp
  have hdead := h j hj (of_decide_eq_true hp.1)
  rw [expiredRow, if_pos hdead]
  exact ⟨rfl, rfl, rfl, rfl, nofun, nofun⟩

end Store

namespace SchedState

variable {s s' : SchedState}

theorem mem_active {queue : String} {j : JobRow} : j ∈ s.store.jobs.select (active queue) ↔
    j ∈ s.store.jobs.rows ∧ j.queue = queue ∧ (j.status = .pending ∨ j.status = .running) := by
  simp [Table.mem_select, active]

theorem nodup_active (s : SchedState) (queue : String) :
    ((s.store.jobs.select (active queue)).map JobRow.id).Nodup :=
  s.store.jobs.nodup.sublist (List.filter_sublist.map _)

theorem activeCount_le_of_ages (h : s.store.Ages s'.store) (queue : String) :
    s'.activeCount queue ≤ s.activeCount queue := by
  have hsub : (s'.store.jobs.select (active queue)).map JobRow.id ⊆
    (s.store.jobs.select (active queue)).map JobRow.id := by
    intro id hid
    obtain ⟨j', hj', rfl⟩ := List.mem_map.mp hid
    obtain ⟨hj', hq, hs⟩ := mem_active.mp hj'
    obtain ⟨j, hj, hage⟩ := h.rows j' hj'
    refine List.mem_map.mpr ⟨j, mem_active.mpr ⟨hj, hage.queue.symm.trans hq, ?_⟩, hage.id.symm⟩
    obtain hp | hr := hs
    · exact .inl (hage.pending hp ▸ hp)
    · exact (hage.running hr).imp And.left And.left
  have hlen := length_le_of_subset (s'.nodup_active queue) hsub
  simpa only [activeCount, List.length_map] using hlen

theorem mem_pushTick {job : PushJob} {name : String} {occurrence now : Time} {j : JobRow}
    (h : j ∈ (s.pushTick job name occurrence now).1.store.jobs.rows) : j ∈ s.store.jobs.rows ∨
      j = Store.newJobRow job s.store.nextId (s.store.availableAt job now) now :=
  (Store.mem_insertJobRow s.store job now h).imp_left And.left

theorem activeCount_pushTick_le (s : SchedState) (job : PushJob) (name : String)
    (occurrence now : Time) (queue : String) :
    (s.pushTick job name occurrence now).1.activeCount queue ≤
      s.activeCount queue + if job.queue = queue then 1 else 0 := by
  have hactive {j : JobRow}
      (h : j ∈ (s.pushTick job name occurrence now).1.store.jobs.select (active queue)) :
      j ∈ s.store.jobs.select (active queue) ∨ j.id = s.store.nextId ∧ job.queue = queue := by
    obtain ⟨hj, hq, hs⟩ := mem_active.mp h
    obtain hj | rfl := mem_pushTick hj
    · exact .inl (mem_active.mpr ⟨hj, hq, hs⟩)
    · exact .inr ⟨rfl, hq⟩
  have hnodup := (s.pushTick job name occurrence now).1.nodup_active queue
  split
  · have hsub : ((s.pushTick job name occurrence now).1.store.jobs.select (active queue)).map
      JobRow.id ⊆ s.store.nextId :: (s.store.jobs.select (active queue)).map JobRow.id :=
        by
      intro id hid
      obtain ⟨j, hj, rfl⟩ := List.mem_map.mp hid
      obtain hj | ⟨hid, _⟩ := hactive hj
      · exact List.mem_cons_of_mem _ (List.mem_map_of_mem hj)
      · exact hid ▸ List.mem_cons_self
    have hlen := length_le_of_subset hnodup hsub
    simpa only [activeCount, List.length_cons, List.length_map] using hlen
  · next hne =>
      have hsub : ((s.pushTick job name occurrence now).1.store.jobs.select (active queue)).map
        JobRow.id ⊆
          (s.store.jobs.select (active queue)).map JobRow.id := by
        intro id hid
        obtain ⟨j, hj, rfl⟩ := List.mem_map.mp hid
        obtain hj | ⟨_, hq⟩ := hactive hj
        · exact List.mem_map_of_mem hj
        · exact absurd hq hne
      have hlen := length_le_of_subset hnodup hsub
      simpa only [activeCount, List.length_map, Nat.add_zero] using hlen

structure Ticked (s : SchedState) (j : JobRow) : Prop where
  maxAttempts : j.maxAttempts = 1
  priority : j.priority = 0
  attempt : j.status = .running → 1 ≤ j.attempt
  fired : ∃ f ∈ s.fires, f.job = j.id ∧ j.queue = scheduleQueueName f.name

theorem Ticked.ages (hf : s'.fires = s.fires) {j j' : JobRow} (h : s.Ticked j) (hage : j.Ages j') :
    s'.Ticked j' where
  maxAttempts := hage.maxAttempts.trans h.maxAttempts
  priority := hage.priority.trans h.priority
  attempt hr := by
    obtain ⟨_, he⟩ | ⟨hr, he⟩ := hage.running hr
    · rw [he]
      exact Nat.succ_pos _
    · rw [he]
      exact h.attempt hr
  fired := by
    rw [hf, hage.id, hage.queue]
    exact h.fired

end SchedState

namespace SchedSys

variable {R : Schedules} {σ σ' : SchedSys} {l : SchedLabel}

/-- The queues of the schedules hold ticks only, which are tried once. -/
structure Ticks (R : Schedules) (σ : SchedSys) : Prop where
  obeying : σ.Obeying R
  rows : ∀ j ∈ σ.store.jobs.rows, σ.shared.Ticked j
  groups : ∀ (i : Nat) (t : NodeThread) job, σ.pool[i]? = some t → t.kind.job? = some job →
    job.maxAttempts ≤ job.attempt
  fires : ∀ f ∈ σ.shared.fires, f.job < σ.store.nextId

theorem ticks_init (R : Schedules) (schedules : Table ScheduleRow.name) (clock : Time) :
    (init .empty schedules clock).Ticks R where
  obeying i t ht := by cases ht
  rows j hj := by cases hj
  groups i t job ht := by cases ht
  fires f hf := by cases hf

inductive Pushes (σ : SchedSys) : SchedLabel → SchedSys → PushJob → String → Time → Time → Prop
  | mk (i t job name occurrence k now) (ht : σ.pool[i]? = some t)
      (hp : t.prog = .call (.store (.push job name occurrence)) k) :
      Pushes σ (.call i (.ok now)) (σ.stored i t (.push job name occurrence) k now) job name
        occurrence now

theorem Move.jobs (h : Move R σ l σ') (hI : σ.Ticks R) :
    (σ.store.Ages σ'.store ∧ σ'.shared.fires = σ.shared.fires) ∨
    ∃ job name occurrence now, Pushes σ l σ' job name occurrence now := by
  cases h with
  | booted | crashed => exact .inl ⟨.refl _, rfl⟩
  | answered i t op k ch s r ht hp hr => cases hr <;> exact .inl ⟨.refl _, rfl⟩
  | dispatched => exact .inl ⟨Store.claim_ages .., rfl⟩
  | renewed => exact .inl ⟨Store.renewLeases_ages .., rfl⟩
  | swept now =>
      refine .inl ⟨Store.sweepExpired_ages now (fun j hj hr => ?_), rfl⟩
      rw [(hI.rows j hj).maxAttempts]
      exact (hI.rows j hj).attempt hr
  | stored i t c k now ht hp =>
      cases c with
      | push job name occurrence =>
          exact .inr ⟨job, name, occurrence, now, .mk i t job name occurrence k now ht hp⟩
      | claimTick name expected next at' =>
          refine .inl ?_
          obtain he | ⟨r, _, _, s', he, hs, hf, _⟩ :=
            σ.shared.scheduleClaimTick_cases name expected next at'
          · have he' : (SchedCall.claimTick name expected next at').perform σ.shared now =
              (σ.shared, false) := he
            rw [SchedSys.stored, he']
            exact ⟨.refl _, rfl⟩
          · have he' : (SchedCall.claimTick name expected next at').perform σ.shared now =
              (s', true) := he
            rw [SchedSys.stored, he']
            exact ⟨by rw [store, store, ← hs]; exact .refl _, hf⟩
      | failRetry id error availableAt fence =>
          obtain ⟨job, hjob, _, _, hlt⟩ : (NodeThread.track R t).mayCall R
            (.failRetry id error availableAt fence) :=
            (hI.obeying i t ht).allowed hp
          rw [NodeThread.track_job] at hjob
          exact absurd hlt (Nat.not_lt.mpr (hI.groups i t job ht hjob))
      | ack id fence => exact .inl ⟨Store.ack_ages .., rfl⟩
      | failDead id error fence => exact .inl ⟨Store.failDead_ages .., rfl⟩
      | readSchedule | dueSchedules | activeCount | writeSchedule => exact .inl ⟨.refl _, rfl⟩

theorem Pushes.eq {job : PushJob} {name : String} {occurrence now : Time}
    (h : Pushes σ l σ' job name occurrence now) :
    σ'.store = (σ.shared.pushTick job name occurrence now).1.store ∧
      σ'.shared.fires = σ.shared.fires ++ [⟨name, occurrence, σ.store.nextId⟩] ∧
      σ'.store.nextId = σ.store.nextId + 1 := by
  cases h
  exact ⟨rfl, rfl, rfl⟩

theorem Pushes.tick {job : PushJob} {name : String} {occurrence now : Time}
    (h : Pushes σ l σ' job name occurrence now)
    (hI : σ.Obeying R) : ∃ d firedAt delay, R.get? name = some d ∧
    job = tickJob name firedAt delay := by
  cases h with
  | mk i t job name occurrence k now ht hp =>
      obtain ⟨_, _, d, firedAt, delay, hd, hjob, _⟩ : (NodeThread.track R t).mayCall R
        (.push job name occurrence) :=
        (hI i t ht).allowed hp
      exact ⟨d, firedAt, delay, hd, hjob⟩

theorem Move.ticked (h : Move R σ l σ') (hI : σ.Ticks R) {j : JobRow}
    (hj : j ∈ σ'.store.jobs.rows) :
    σ'.shared.Ticked j := by
  obtain ⟨hages, hf⟩ | ⟨job, name, occurrence, now, hpush⟩ := h.jobs hI
  · obtain ⟨j₀, hj₀, hage⟩ := hages.rows j hj
    exact (hI.rows j₀ hj₀).ages hf hage
  · obtain ⟨hstore, hfires, _⟩ := hpush.eq
    obtain ⟨d, firedAt, delay, _, rfl⟩ := hpush.tick hI.obeying
    rw [hstore] at hj
    obtain hj | rfl := SchedState.mem_pushTick hj
    · obtain ⟨hmax, hprio, hatt, f, hf, hid⟩ := hI.rows j hj
      exact ⟨hmax, hprio, hatt, f, by rw [hfires]; exact List.mem_append_left _ hf, hid⟩
    · refine ⟨rfl, rfl, nofun, ⟨name, occurrence, σ.store.nextId⟩, ?_, rfl, rfl⟩
      rw [hfires]
      exact List.mem_append_right _ List.mem_cons_self

theorem Move.group (h : Move R σ l σ') {i : Nat} {t : NodeThread} {job : ClaimedJob}
    (ht : σ'.pool[i]? = some t)
    (hk : t.kind.job? = some job) :
    (∃ u, σ.pool[i]? = some u ∧ u.kind = t.kind ∧ (t.live = true → u.live = true)) ∨
    ∃ node name now d, l = .dispatch node name now ∧ R.get? name = some d ∧ σ.pool.length ≤ i ∧
      (σ.claimOf node d now).2[i - σ.pool.length]? = some job ∧ t = groupThread node
        (scheduleQueueName d.name) job := by
  cases h.thread ht with
  | stays _ hj => exact .inl ⟨t, hj, rfl, id⟩
  | booted node names n hu =>
      subst hu
      cases hk
  | claimed node name now d cj hd hge hcj hu =>
      subst hu
      cases hk
      exact .inr ⟨node, name, now, d, rfl, hd, hge, hcj, rfl⟩
  | stored u c k now hu hp he =>
      subst he
      exact .inl ⟨u, hu, rfl, fun _ => Thread.live_of_call hp⟩
  | answered u op k ch s r hu hp _ he =>
      subst he
      exact .inl ⟨u, hu, rfl, fun _ => Thread.live_of_call hp⟩
  | crashed u hu hl he =>
      subst he
      exact .inl ⟨u, hu, rfl, fun _ => hl⟩

theorem Move.ticks (h : Move R σ l σ') (hI : σ.Ticks R) : σ'.Ticks R where
  obeying := h.obeying hI.obeying
  rows _ hj := h.ticked hI hj
  groups i t job ht hk := by
    obtain ⟨u, hu, hkind, _⟩ | ⟨node, name, now, d, _, _, _, hcj, _⟩ := h.group ht hk
    · exact hI.groups i u job hu (hkind ▸ hk)
    · obtain ⟨j, hj, _, rfl⟩ := Store.mem_claim (List.mem_of_getElem? hcj)
      show j.maxAttempts ≤ j.attempt + 1
      rw [(hI.rows j hj).maxAttempts]
      exact Nat.le_add_left 1 _
  fires f hf := by
    obtain ⟨hages, he⟩ | ⟨job, name, occurrence, now, hpush⟩ := h.jobs hI
    · rw [hages.nextId]
      exact hI.fires f (he ▸ hf)
    · obtain ⟨_, hfires, hnext⟩ := hpush.eq
      rw [hfires] at hf
      rw [hnext]
      rcases List.mem_append.mp hf with hf | hf
      · exact Nat.lt_succ_of_lt (hI.fires f hf)
      · cases List.mem_singleton.mp hf
        exact Nat.lt_succ_self _

end SchedSys

end ZenZip
