import ZenZip.Scheduler.Track

namespace ZenZip

open Lib

inductive SchedAside (s : SchedState) : (op : SchedOp) → Reading → SchedState →
    Except String (SchedVal op) → Prop
  | failed (c e) : SchedAside s (.store c) (.fail e) s (.error e)
  | clock (now) : SchedAside s .nowMs (.ok now) { s with clock := now } (.ok now)
  | draw (hi n) (h : 0 ≤ n ∧ n ≤ hi) : SchedAside s (.fastrand hi) (.draw n) s (.ok n)
  | outcome (job r) : SchedAside s (.handler job) (.outcome r) s r

theorem SchedAside.answers {s s' : SchedState} {op : SchedOp} {ch : Reading}
    {r : Except String (SchedVal op)}
    (h : SchedAside s op ch s' r) : NodeTrack.answers op r := by
  cases h with
  | failed c e => cases c <;> trivial
  | clock | draw | outcome => trivial

theorem SchedState.exec_cases {s s' : SchedState} {ch : Reading} {op : SchedOp}
    {r : Except String (SchedVal op)}
    (h : s.exec ch op = some (s', r)) :
    (∃ c now, ch = .ok now ∧ ∃ he : op = .store c, s' = { (c.perform s now).1 with clock := now } ∧
      he ▸ r = .ok (c.perform s now).2) ∨ SchedAside s op ch s' r := by
  cases op with
  | store c =>
      cases ch with
      | ok now =>
          cases h
          exact .inl ⟨c, now, rfl, rfl, rfl, rfl⟩
      | fail e =>
          cases h
          exact .inr (.failed c e)
      | draw | outcome => cases h
  | nowMs =>
      cases ch with
      | ok now =>
          cases h
          exact .inr (.clock now)
      | fail | draw | outcome => cases h
  | fastrand hi =>
      cases ch with
      | draw n =>
          simp only [exec] at h
          split at h
          · next hn =>
              cases h
              exact .inr (.draw hi n hn)
          · cases h
      | ok | fail | outcome => cases h
  | handler job =>
      cases ch with
      | outcome r =>
          cases h
          exact .inr (.outcome job _)
      | ok | fail | draw => cases h

namespace SchedSys

def stored (σ : SchedSys) (i : Nat) (t : NodeThread) (c : SchedCall)
    (k : Except String c.Ret → SchedM Unit)
    (now : Time) : SchedSys :=
  ⟨{ (c.perform σ.shared now).1 with clock := now },
    σ.pool.set i
      (t.answer (.store c) (.ok (c.perform σ.shared now).2) (k (.ok (c.perform σ.shared now).2)))⟩

def answered (σ : SchedSys) (i : Nat) (t : NodeThread) (op : SchedOp)
    (k : Except String (SchedVal op) → SchedM Unit)
    (s : SchedState) (r : Except String (SchedVal op)) : SchedSys :=
  ⟨s, σ.pool.set i (t.answer op r (k r))⟩

inductive Move (R : Schedules) (σ : SchedSys) : SchedLabel → SchedSys → Prop
  | booted (node names n) (hfree : ∀ t ∈ σ.pool, Thread.live t = true → t.kind.node ≠ node) :
      Move R σ (.boot node names n) (Config.spawn σ [schedulerThread R node names n])
  | stored (i t c k now) (ht : σ.pool[i]? = some t) (hp : t.prog = .call (.store c) k) :
      Move R σ (.call i (.ok now)) (σ.stored i t c k now)
  | answered (i t op k ch s r) (ht : σ.pool[i]? = some t) (hp : t.prog = .call op k)
      (hr : SchedAside σ.shared op ch s r) : Move R σ (.call i ch) (σ.answered i t op k s r)
  | crashed (i t) (ht : σ.pool[i]? = some t) (hl : t.live = true) :
      Move R σ (.crash i) { σ with pool := σ.pool.set i t.crash }
  | dispatched (node name now d) (hd : R.get? name = some d) (ha : σ.available node d ≠ 0) :
      Move R σ (.dispatch node name now) ((σ.withStore (σ.claimOf node d now).1 now).spawn
        ((σ.claimOf node d now).2.map (groupThread node (scheduleQueueName d.name))))
  | renewed (i now t job) (ht : σ.pool[i]? = some t) (hk : t.kind.job? = some job)
    (hl : t.live = true) :
      Move R σ (.renew i now)
        (σ.withStore (σ.store.renewLeases [(job.id, job.fence)] 30000 now) now)
  | swept (now) : Move R σ (.sweep now) (σ.withStore (σ.store.sweepExpired now).1 now)

theorem step_move {R : Schedules} {σ σ' : SchedSys} {l : SchedLabel} (h : step R σ l = some σ') :
    Move R σ l σ' := by
  cases l with
  | boot node names n =>
      simp only [step] at h
      split at h
      · next hfree =>
          cases h
          refine .booted node names n (fun t ht hl hn => ?_)
          have := List.all_eq_true.mp hfree t ht
          simp [hl, hn] at this
      · cases h
  | call i ch =>
      obtain ⟨t, op, k, s, r, ht, hp, he, rfl⟩ := Config.call_eq_some h
      obtain ⟨c, now, rfl, rfl, rfl, hr⟩ | ha := SchedState.exec_cases he
      · cases hr
        exact .stored i t c k now ht hp
      · exact .answered i t op k ch s r ht hp ha
  | crash i =>
      obtain ⟨t, ht, hl, rfl⟩ := Config.crash_eq_some h
      exact .crashed i t ht hl
  | dispatch node name now =>
      obtain ⟨d, hd, h⟩ := Option.bind_eq_some_iff.mp h
      split at h
      · cases h
      · next ha =>
          cases h
          exact .dispatched node name now d hd ha
  | renew i now =>
      simp only [step, renew] at h
      split at h
      · next t ht =>
          split at h
          · next job hk hl =>
              cases h
              exact .renewed i now t job ht hk hl
          · cases h
      · cases h
  | sweep now =>
      cases h
      exact .swept now

inductive ThreadMove (R : Schedules) (σ : SchedSys) (j : Nat) (u : NodeThread) : SchedLabel → Prop
  | stays (l) (h : σ.pool[j]? = some u) (hcall : ∀ ch, l ≠ .call j ch) (hcrash : l ≠ .crash j) :
  ThreadMove R σ j u l
  | booted (node names n) (hu : u = schedulerThread R node names n) (hj : σ.pool.length ≤ j) :
      ThreadMove R σ j u (.boot node names n)
  | claimed (node name now d cj) (hd : R.get? name = some d) (hj : σ.pool.length ≤ j)
      (hcj : (σ.claimOf node d now).2[j - σ.pool.length]? = some cj)
      (hu : u = groupThread node (scheduleQueueName d.name) cj) : ThreadMove R σ j u
        (.dispatch node name now)
  | stored (t c k now) (ht : σ.pool[j]? = some t) (hp : t.prog = .call (.store c) k)
      (hu : u = t.answer (.store c) (.ok (c.perform σ.shared now).2)
        (k (.ok (c.perform σ.shared now).2))) :
      ThreadMove R σ j u (.call j (.ok now))
  | answered (t op k ch s r) (ht : σ.pool[j]? = some t) (hp : t.prog = .call op k)
    (hr : SchedAside σ.shared op ch s r)
      (hu : u = t.answer op r (k r)) : ThreadMove R σ j u (.call j ch)
  | crashed (t) (ht : σ.pool[j]? = some t) (hl : t.live = true) (hu : u = t.crash) : ThreadMove R σ
    j u (.crash j)

variable {R : Schedules} {σ σ' : SchedSys} {l : SchedLabel}

theorem Move.thread (h : Move R σ l σ') {j : Nat} {u : NodeThread} (hu : σ'.pool[j]? = some u) :
    ThreadMove R σ j u l := by
  cases h with
  | renewed | swept => exact .stays _ hu (fun _ => nofun) nofun
  | booted node names n =>
      obtain hlt | hge := Nat.lt_or_ge j σ.pool.length
      · exact .stays _ (by rwa [Config.spawn, List.getElem?_append_left hlt] at hu)
          (fun _ => nofun) nofun
      · rw [Config.spawn, List.getElem?_append_right hge, List.getElem?_singleton] at hu
        split at hu
        · cases hu
          exact .booted node names n rfl hge
        · cases hu
  | dispatched node name now d hd =>
      have hu' : (σ.pool ++
        (σ.claimOf node d now).2.map (groupThread node (scheduleQueueName d.name)))[j]? = some u :=
          hu
      obtain hlt | hge := Nat.lt_or_ge j σ.pool.length
      · refine .stays _ ?_ (fun _ => nofun) nofun
        rwa [List.getElem?_append_left hlt] at hu'
      · rw [List.getElem?_append_right hge, List.getElem?_map] at hu'
        obtain ⟨cj, hcj, rfl⟩ := Option.map_eq_some_iff.mp hu'
        exact .claimed node name now d cj hd hge hcj rfl
  | stored i t c k now ht hp =>
      obtain ⟨rfl, rfl⟩ | ⟨hne, hj⟩ := getElem?_set_cases hu (lt_of_getElem? ht)
      · exact .stored t c k now ht hp rfl
      · exact .stays _ hj (fun _ h => hne (by cases h; rfl)) nofun
  | answered i t op k ch s r ht hp hr =>
      obtain ⟨rfl, rfl⟩ | ⟨hne, hj⟩ := getElem?_set_cases hu (lt_of_getElem? ht)
      · exact .answered t op k ch s r ht hp hr rfl
      · exact .stays _ hj (fun _ h => hne (by cases h; rfl)) nofun
  | crashed i t ht hl =>
      obtain ⟨rfl, rfl⟩ | ⟨hne, hj⟩ := getElem?_set_cases hu (lt_of_getElem? ht)
      · exact .crashed t ht hl rfl
      · exact .stays _ hj (fun _ => nofun) (fun h => hne (by cases h; rfl))

theorem Move.eq_stored {i : Nat} {now : Time} {t : NodeThread} {c : SchedCall}
    {k : Except String c.Ret → SchedM Unit}
    (h : Move R σ (.call i (.ok now)) σ') (ht : σ.pool[i]? = some t)
    (hp : t.prog = .call (.store c) k) :
    σ' = σ.stored i t c k now := by
  cases h with
  | stored _ t₁ c₁ k₁ _ ht₁ hp₁ =>
      obtain rfl : t₁ = t := Option.some.inj (ht₁.symm.trans ht)
      rw [hp] at hp₁
      cases hp₁
      rfl
  | answered _ t₁ op k₁ _ s r ht₁ hp₁ hr =>
      obtain rfl : t₁ = t := Option.some.inj (ht₁.symm.trans ht)
      rw [hp] at hp₁
      cases hp₁
      cases hr

def Obeying (R : Schedules) (σ : SchedSys) : Prop :=
  ∀ (i : Nat) (t : NodeThread), σ.pool[i]? = some t → NodeThread.Obeys R t

theorem Move.obeying (h : Move R σ l σ') (hI : σ.Obeying R) : σ'.Obeying R := by
  intro j u hu
  cases h.thread hu with
  | stays _ hj => exact hI j u hj
  | booted node names n he =>
      subst he
      exact NodeThread.obeys_schedulerThread R node names n
  | claimed node name now d cj _ _ _ he =>
      subst he
      exact NodeThread.obeys_groupThread R node _ cj
  | stored t c k now ht hp he =>
      subst he
      refine (hI j t ht).answer hp ?_
      cases c with
      | dueSchedules at' =>
          intro row hm
          obtain ⟨_, hp⟩ := Table.mem_select.mp hm
          rw [SchedState.due, Bool.and_eq_true] at hp
          exact of_decide_eq_true hp.2
      | _ => trivial
  | answered t op k ch s r ht hp hr he =>
      subst he
      exact (hI j t ht).answer hp hr.answers
  | crashed t _ _ he =>
      subst he
      exact NodeThread.obeys_crash R t

def pendingCall (σ : SchedSys) (i : Nat) : Option SchedCall :=
  match σ.pool[i]? with
  | some t => match t.prog with
    | .call (.store c) _ => some c
    | _ => none
  | none => none

theorem pendingCall_eq {i : Nat} {t : NodeThread} {c : SchedCall}
    {k : Except String c.Ret → SchedM Unit}
    (ht : σ.pool[i]? = some t) (hp : t.prog = .call (.store c) k) : σ.pendingCall i = some c := by
  simp [pendingCall, ht, hp]

end SchedSys

end ZenZip
