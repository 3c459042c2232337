import ZenZip.Scheduler.Ticks
import ZenZip.Scheduler.Occurrences

namespace ZenZip

open Lib

namespace SchedSys

variable {R : Schedules} {σ σ' : SchedSys} {l : SchedLabel} {name : String}

/-- A scheduler that has counted no active tick of the schedule and still has its
own to push. -/
def clearFor (R : Schedules) (name : String) (t : NodeThread) : Bool :=
  t.live && (NodeThread.track R t).clear && (NodeThread.track R t).holds.any (fun x => x.1 = name)

def aloneClear (R : Schedules) (name : String) (σ : SchedSys) (i : Nat) : Bool :=
  (List.range σ.pool.length).all (fun j => j = i || !(σ.pool[j]?).any (clearFor R name))

/-- No node counts the ticks of the schedule between the count of another and its
push, and a replay pushes none while one is active or about to be pushed. -/
def countsAlone (R : Schedules) (name : String) (σ : SchedSys) : SchedLabel → Bool
  | .call i (.ok _) => match σ.pendingCall i with
    | some (.activeCount queue) => queue ≠ scheduleQueueName name || σ.aloneClear R name i
    | some (.push _ name' _) => name' ≠ name || (σ.pool[i]?).any (clearFor R name) ||
        (R.get? name).all (fun d => d.catchup ≠ .all) ||
        σ.shared.activeCount (scheduleQueueName name) = 0 && σ.aloneClear R name i
    | _ => true
  | _ => true

theorem clearFor_iff {t : NodeThread} : clearFor R name t = true ↔ t.live = true ∧
    (NodeThread.track R t).clear = true ∧ ∃ occurrence, (NodeThread.track R t).holds = some
      (name, occurrence) := by
  rw [clearFor, Bool.and_eq_true, Bool.and_eq_true, and_assoc]
  refine and_congr_right (fun _ => and_congr_right (fun _ => ?_))
  cases (NodeThread.track R t).holds with
  | none => simp
  | some x => simp [Prod.ext_iff]

theorem aloneClear_eq {i j : Nat} {t : NodeThread} (h : σ.aloneClear R name i = true)
    (ht : σ.pool[j]? = some t)
    (hc : clearFor R name t = true) : j = i := by
  have hj := List.all_eq_true.mp h j (List.mem_range.mpr (lt_of_getElem? ht))
  rw [ht, Option.any_some, hc] at hj
  simpa using hj

theorem ThreadMove.clear {j : Nat} {u : NodeThread} (h : ThreadMove R σ j u l) (hI : σ.Obeying R)
    (hc : clearFor R name u = true) :
    (∃ t, σ.pool[j]? = some t ∧ clearFor R name t = true ∧
      ∀ job name' occurrence k now, t.prog = .call (.store (.push job name' occurrence)) k →
      l ≠ .call j (.ok now)) ∨
    ∃ t k now, σ.pool[j]? = some t ∧
      t.prog = .call (.store (.activeCount (scheduleQueueName name))) k ∧
      l = .call j (.ok now) ∧ σ.shared.activeCount (scheduleQueueName name) = 0 := by
  obtain ⟨hlive, hclear, occurrence, hholds⟩ := clearFor_iff.mp hc
  cases h with
  | stays _ hj hcall => exact .inl ⟨u, hj, hc, fun _ _ _ _ now _ => hcall (.ok now)⟩
  | booted _ _ _ hu | claimed _ _ _ _ _ _ _ _ hu =>
      subst hu
      cases hclear
  | crashed t _ _ hu =>
      subst hu
      cases hlive
  | stored t c k now ht hp hu =>
      subst hu
      have hwas := Thread.live_of_call hp
      have hmay : (NodeThread.track R t).mayCall R c := (hI j t ht).allowed hp
      cases c with
      | activeCount queue =>
          obtain ⟨_, name', o, hh, rfl⟩ := hmay
          cases hh.symm.trans hholds
          exact .inr ⟨t, k, now, ht, hp, rfl, of_decide_eq_true hclear⟩
      | _ => cases hclear
  | answered t op k ch s r ht hp hr hu =>
      subst hu
      have hwas := Thread.live_of_call hp
      cases hr with
      | failed c e =>
          cases c with
          | activeCount =>
              exact .inl ⟨t, ht, clearFor_iff.mpr ⟨hwas, hclear, occurrence, hholds⟩,
                fun _ _ _ _ _ h => by cases hp.symm.trans h⟩
          | _ => cases hclear
      | clock | outcome => cases hclear
      | draw =>
          exact .inl ⟨t, ht, clearFor_iff.mpr ⟨hwas, hclear, occurrence, hholds⟩,
            fun _ _ _ _ _ h => by cases hp.symm.trans h⟩

/-- At most one tick of the schedule is active, and none while a scheduler is about
to push one. -/
structure Apart (R : Schedules) (name : String) (σ : SchedSys) : Prop where
  ticks : σ.Ticks R
  active : σ.shared.activeCount (scheduleQueueName name) ≤ 1
  clear : ∀ (i : Nat) (t : NodeThread), σ.pool[i]? = some t → clearFor R name t = true →
    σ.shared.activeCount (scheduleQueueName name) = 0
  alone : ∀ (i i' : Nat) (t t' : NodeThread), σ.pool[i]? = some t → σ.pool[i']? = some t' →
    clearFor R name t = true → clearFor R name t' = true → i = i'

theorem apart_init (R : Schedules) (name : String) (schedules : Table ScheduleRow.name)
    (clock : Time) :
    (init .empty schedules clock).Apart R name where
  ticks := ticks_init R schedules clock
  active := Nat.zero_le 1
  clear i t ht := by cases ht
  alone i i' t t' ht := by cases ht

theorem Move.alone (h : Move R σ l σ') (hok : countsAlone R name σ l = true) (hI : σ.Apart R name)
    {i i' : Nat}
    {t t' : NodeThread} (ht : σ'.pool[i]? = some t) (ht' : σ'.pool[i']? = some t')
    (hc : clearFor R name t = true)
    (hc' : clearFor R name t' = true) : i = i' := by
  have hcount {j : Nat} {u : NodeThread} {k : Except String Nat → SchedM Unit} {now : Time}
    (hu : σ.pool[j]? = some u)
      (hp : u.prog = .call (.store (.activeCount (scheduleQueueName name))) k)
        (hl : l = .call j (.ok now)) :
      σ.aloneClear R name j = true := by
    subst hl
    simpa [countsAlone, pendingCall_eq hu hp] using hok
  obtain ⟨u, hu, huc, _⟩ | ⟨u, k, now, hu, hp, hl, _⟩ := (h.thread ht).clear hI.ticks.obeying hc <;>
    obtain ⟨u', hu', huc', _⟩ | ⟨u', k', now', hu', hp', hl', _⟩ :=
      (h.thread ht').clear hI.ticks.obeying hc'
  · exact hI.alone i i' u u' hu hu' huc huc'
  · exact aloneClear_eq (hcount hu' hp' hl') hu huc
  · exact (aloneClear_eq (hcount hu hp hl) hu' huc').symm
  · cases hl.symm.trans hl'
    rfl

/-- Before a push of the schedule no tick is active, and nobody else is about to push. -/
theorem Pushes.first {job : PushJob} {occurrence now : Time} {d : ScheduleDef}
    (hd : R.get? name = some d)
    (hskip : d.overlap = .skip) (h : Pushes σ l σ' job name occurrence now)
    (hok : countsAlone R name σ l = true)
    (hI : σ.Apart R name) : σ.shared.activeCount (scheduleQueueName name) = 0 ∧
      ∀ (j : Nat) (u : NodeThread), σ'.pool[j]? = some u → clearFor R name u = true → False := by
  cases h with
  | mk i t job name occurrence k now ht hp =>
      obtain ⟨_, hholds, d', _, _, hd', _, hguard⟩ : (NodeThread.track R t).mayCall R
        (.push job name occurrence) :=
        (hI.ticks.obeying i t ht).allowed hp
      obtain rfl : d' = d := Option.some.inj (hd'.symm.trans hd)
      have hfirst : σ.shared.activeCount (scheduleQueueName name) = 0 ∧
          ∀ (j : Nat) (u : NodeThread), σ.pool[j]? = some u → clearFor R name u = true → j = i := by
        by_cases hclear : clearFor R name t = true
        · exact ⟨hI.clear i t ht hclear, fun j u hu hc => hI.alone j i u t hu ht hc hclear⟩
        · have hall : d'.catchup = .all := (hguard hskip).resolve_left (fun hc =>
            hclear (clearFor_iff.mpr ⟨Thread.live_of_call hp, hc, occurrence, hholds⟩))
          simp only [countsAlone, pendingCall_eq ht hp, ht, Option.any_some, hclear, hd, ne_eq,
            not_true_eq_false,
            decide_false, Bool.false_or, Option.all_some, hall, Bool.and_eq_true,
              decide_eq_true_eq] at hok
          exact ⟨hok.1, fun j u hu hc => aloneClear_eq hok.2 hu hc⟩
      refine ⟨hfirst.1, fun j u hu hc => ?_⟩
      have hmove : Move R σ (.call i (.ok now)) (σ.stored i t (.push job name occurrence) k now) :=
        .stored i t _ k now ht hp
      obtain ⟨w, hw, hwc, hnopush⟩ | ⟨w, k', now', hw, hp', hl, _⟩ :=
        (hmove.thread hu).clear hI.ticks.obeying hc
      · obtain rfl := hfirst.2 j w hw hwc
        cases hw.symm.trans ht
        exact hnopush _ _ _ _ now hp rfl
      · cases hl
        cases hw.symm.trans ht
        cases hp'.symm.trans hp

theorem Move.apart {d : ScheduleDef} (hd : R.get? name = some d) (hskip : d.overlap = .skip)
    (h : Move R σ l σ')
    (hok : countsAlone R name σ l = true) (hI : σ.Apart R name) : σ'.Apart R name := by
  have hkept (hle : σ'.shared.activeCount (scheduleQueueName name) ≤
    σ.shared.activeCount (scheduleQueueName name)) :
      σ'.Apart R name := by
    refine ⟨h.ticks hI.ticks, Nat.le_trans hle hI.active, fun i t ht hc => Nat.le_zero.mp ?_,
      fun i i' t t' ht ht' hc hc' => h.alone hok hI ht ht' hc hc'⟩
    obtain ⟨u, hu, huc, _⟩ | ⟨_, _, _, _, _, _, h0⟩ := (h.thread ht).clear hI.ticks.obeying hc
    · exact hI.clear i u hu huc ▸ hle
    · exact h0 ▸ hle
  obtain ⟨hages, _⟩ | ⟨job, name', occurrence, now, hpush⟩ := h.jobs hI.ticks
  · exact hkept (SchedState.activeCount_le_of_ages hages _)
  · have hle := σ.shared.activeCount_pushTick_le job name' occurrence now (scheduleQueueName name)
    have hcount : (σ.shared.pushTick job name' occurrence now).1.activeCount
      (scheduleQueueName name) =
        σ'.shared.activeCount (scheduleQueueName name) := by
      rw [SchedState.activeCount, ← hpush.eq.1]
      rfl
    obtain ⟨_, firedAt, delay, _, rfl⟩ := hpush.tick hI.ticks.obeying
    rw [hcount] at hle
    by_cases hn : name' = name
    · subst hn
      obtain ⟨h0, hnone⟩ := hpush.first hd hskip hok hI
      rw [h0, tickJob, if_pos rfl] at hle
      exact ⟨h.ticks hI.ticks, hle, fun i t ht hc => (hnone i t ht hc).elim,
        fun i _ t _ ht _ hc _ => (hnone i t ht hc).elim⟩
    · rw [tickJob, if_neg (fun he => hn (scheduleQueueName_inj he)), Nat.add_zero] at hle
      exact hkept hle

/-- While no count is overtaken and no replay finds a tick active, the ticks of a
schedule that skips are never pending or running together. -/
theorem skip_never_overlaps {d : ScheduleDef} (hd : R.get? name = some d)
    (hskip : d.overlap = .skip)
    {schedules : Table ScheduleRow.name} {clock : Time}
    (h : Run (step R) (countsAlone R name) (init .empty schedules clock) σ) :
    σ.shared.activeCount (scheduleQueueName name) ≤ 1 := by
  have hI : σ.Apart R name := by
    refine h.invariant (Apart R name) (apart_init R name schedules clock) ?_
    exact fun _ _ _ _ hI hok hs => (step_move hs).apart hd hskip hok hI
  exact hI.active

section Sample

/-- The second tick is fired when the first is done. -/
theorem skip_never_overlaps_done : ∃ σ, Run (step (sampleSchedules .skip .all))
    (countsAlone (sampleSchedules .skip .all) "report") (init .empty .empty 0) σ ∧
    σ.shared.fires.map Fire.tick = [("report", 100), ("report", 200)] ∧
    σ.shared.activeCount (scheduleQueueName "report") ≤ 1 := by
  obtain ⟨σ, h, hp⟩ := Run.exists_of_replay (step (sampleSchedules .skip .all))
    (countsAlone (sampleSchedules .skip .all) "report") (init .empty .empty 0)
    [.boot 0 ["report"] 2, callAt 0 0, callAt 0 0, callAt 0 0, callAt 0 100, callAt 0 100,
      callAt 0 100, callAt 0 100,
      callAt 0 100, .dispatch 0 "report" 100, .call 1 (.outcome (.ok ())), callAt 1 110,
        callAt 0 200, callAt 0 200,
      callAt 0 200, callAt 0 200, callAt 0 200]
    (fun σ => decide (σ.shared.fires.map Fire.tick = [("report", 100), ("report", 200)]))
      (by decide +kernel)
  exact ⟨σ, h, of_decide_eq_true hp, skip_never_overlaps (get?_sampleSchedules .skip .all) rfl h⟩

/-- A boot that replays two missed occurrences leaves two ticks pending. -/
theorem replayed_ticks_overlap : ∃ σ,
    Run (step (sampleSchedules .skip .all)) (fun _ _ => true) (init .empty .empty 0) σ ∧
    σ.shared.activeCount (scheduleQueueName "report") = 2 := by
  obtain ⟨σ, h, hp⟩ :=
    Run.exists_of_replay (step (sampleSchedules .skip .all)) (fun _ _ => true)
      (init .empty .empty 0)
    [.boot 0 ["report"] 0, callAt 0 0, callAt 0 0, callAt 0 0, .boot 1 ["report"] 0, callAt 1 250,
      callAt 1 250,
      callAt 1 250, callAt 1 250, callAt 1 250, callAt 1 250, callAt 1 250]
    (fun σ => decide (σ.shared.activeCount (scheduleQueueName "report") = 2)) (by decide +kernel)
  exact ⟨σ, h, of_decide_eq_true hp⟩

end Sample

end SchedSys

end ZenZip
