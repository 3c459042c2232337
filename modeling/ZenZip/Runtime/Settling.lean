import ZenZip.Runtime.Coverage
import ZenZip.Runtime.Lineage

namespace ZenZip

open Lib

namespace Call

def parks : Call → Option RunId
  | .runWaitingEvent id _ _ _ _ | .runWaitingChild id _ => some id
  | _ => none

def returns : Call → Bool
  | .ack _ _ | .failRetry _ _ _ _ | .failDead _ _ _ => true
  | _ => false

end Call

namespace Track

variable {g : Track} {c : Call} {v : c.Ret}

theorem erred_after (g : Track) (c : Call) (v : c.Ret) : (g.after c v).erred = g.erred := by
  cases c with
  | getRun id =>
      obtain ⟨_, _, _, h⟩ := g.looked_eq id v
      rw [after, h]
  | createRun run =>
      obtain ⟨id, created⟩ := v
      rfl
  | _ => rfl

theorem acked_after (g : Track) (c : Call) (v : c.Ret) :
    (g.after c v).acked = (g.acked || c.returns) := by
  cases c with
  | getRun id =>
      obtain ⟨_, _, _, h⟩ := g.looked_eq id v
      rw [after, h]
      simp [Call.returns]
  | createRun run =>
      obtain ⟨id, created⟩ := v
      simp [after, Call.returns]
  | _ => simp [after, pushed, Call.returns]

theorem handed_after (h : (g.after c v).handed = true) : g.handed = true ∨ c.parks.isSome = true ∨
    ∃ jobs r, c = .push jobs ∧ g.own = some r ∧ r ∈ jobs.filterMap PushJob.run? := by
  cases c with
  | push jobs =>
      simp only [after, pushed, Bool.or_eq_true, List.any_eq_true, decide_eq_true_eq] at h
      obtain h | ⟨r, hr, ho⟩ := h
      · exact .inl h
      · exact .inr (.inr ⟨jobs, r, rfl, ho, hr⟩)
  | runWaitingEvent | runWaitingChild => exact .inr (.inl rfl)
  | getRun id =>
      obtain ⟨_, _, _, hl⟩ := g.looked_eq id v
      rw [after, hl] at h
      exact .inl h
  | createRun run =>
      obtain ⟨id, created⟩ := v
      exact .inl h
  | _ => exact .inl h

theorem handed_mono (h : g.handed = true) (c : Call) (v : c.Ret) : (g.after c v).handed = true := by
  cases c with
  | push jobs => simp [after, pushed, h]
  | getRun id =>
      obtain ⟨_, _, _, hl⟩ := g.looked_eq id v
      rwa [after, hl]
  | createRun run =>
      obtain ⟨id, created⟩ := v
      exact h
  | runWaitingEvent | runWaitingChild => rfl
  | _ => exact h

theorem handed_parks (h : c.parks.isSome = true) : (g.after c v).handed = true := by
  cases c with
  | runWaitingEvent | runWaitingChild => rfl
  | _ => cases h

theorem handed_push {jobs : List PushJob} (v : (Call.push jobs).Ret) {r : RunId}
    (ho : g.own = some r)
    (hr : r ∈ jobs.filterMap PushJob.run?) : (g.after (.push jobs) v).handed = true := by
  simp only [after, pushed, Bool.or_eq_true, List.any_eq_true, decide_eq_true_eq]
  exact .inr ⟨r, hr, ho⟩

theorem keeps_of_parks {r : RunId} (hm : g.mayCall c) (h : c.parks = some r) :
    g.own = some r ∧ g.Keeps := by
  cases c with
  | runWaitingEvent | runWaitingChild =>
      cases h
      exact ⟨hm.1, hm.2.1⟩
  | _ => cases h

end Track

namespace Sys

variable {E : WorkflowEngine} {σ σ' : Sys} {l : Label} {r : RunId}

/-- What holds of every worker: it owes its own run nothing, and the job it has
given back is not running under its claim. -/
structure Settling (σ : Sys) : Prop where
  owes_other : ∀ (k : Nat) (t : Worker) (r : RunId), σ.pool[k]? = some t → t.kind.run? = some r →
    r ∉ t.track.owes
  returned : ∀ (k : Nat) (t : Worker) (j : JobRow), σ.pool[k]? = some t → t.track.acked = true →
    j ∈ σ.store.jobs.rows → t.holds j = true → j.status ≠ .running

theorem settling_init (clock : Time) : (init .empty clock).Settling where
  owes_other k t r h := by cases h
  returned k t j h := by cases h

theorem Move.owes_other (h : Move E σ l σ') (hb : σ.Base) (hl : σ.Lineage) (hs : σ.Settling)
    {k : Nat} {t : Worker}
    (ht : σ'.pool[k]? = some t) (hr : t.kind.run? = some r) : r ∉ t.track.owes := by
  cases h.thread ht with
  | stays _ ht₀ => exact hs.owes_other k t r ht₀ hr
  | spawned _ _ he =>
      subst he
      cases hr
  | claimed _ _ _ _ _ _ _ he =>
      subst he
      exact nofun
  | crashed t₀ ht₀ _ he =>
      subst he
      exact hs.owes_other k t₀ r ht₀ hr
  | answered t₀ op kk ch res ht₀ hp hres he =>
      subst he
      intro ho
      exact hs.owes_other k t₀ r ht₀ hr (Track.mem_owes_next hres ho)
  | stored t₀ c kk locked ht₀ hp he =>
      subst he
      intro ho
      obtain ho | hin := Track.mem_owes_after ho
      · exact hs.owes_other k t₀ r ht₀ hr ho
      · have hmay := (hb.obeys k t₀ ht₀ (Thread.live_of_call hp)).mayCall hp
        generalize hv : (c.perform σ.store σ.clock locked).2 = v at hin
        cases hin with
        | created run r =>
            have hv : (σ.store.createRun run σ.clock).2 = (r, true) := hv
            obtain ⟨_, _, he⟩ | ⟨_, he⟩ := σ.store.createRun_cases run σ.clock
            · rw [he] at hv
              cases hv
            · rw [he] at hv
              cases hv
              exact Nat.lt_irrefl _ (hb.run_lt k t₀ σ.store.nextId ht₀ hr)
        | woken r => exact Nat.lt_irrefl r (hl.wakes_lt ht₀ hr hmay)
        | swept =>
            obtain ⟨cj, hcj, _⟩ := Kind.job?_of_run? hr
            have hmay : (Worker.track t₀).job = none := hmay
            rw [(Worker.track_own t₀).2] at hmay
            exact absurd (hmay.symm.trans hcj) nofun

theorem Calling.returned {i : Nat} {t : Worker} {c : Call} (hc : σ.Calling l i t c)
    (h : Move E σ l σ')
    (hb : σ.Base) (hret : c.returns = true) {j : JobRow} (hj : j ∈ σ'.store.jobs.rows)
    (hh : t.holds j = true) :
    j.status ≠ .running := by
  obtain ⟨k, hp⟩ := hc.prog
  obtain ⟨locked, rfl⟩ := hc.label
  have hmay := (hb.obeys i t hc.thread (Thread.live_of_call hp)).mayCall hp
  obtain ⟨cj, hcj, hid, hf⟩ := Worker.holds_iff.mp hh
  rw [h.eq_stored hc.thread hp] at hj
  have hjob {id : JobId} {fence : Nat}
    (hg : ∃ job, (Worker.track t).job = some job ∧ job.id = id ∧ job.fence = fence) :
      j.id = id ∧ j.fence = fence := by
    obtain ⟨job, hjob, rfl, rfl⟩ := hg
    rw [(Worker.track_own t).2, hcj] at hjob
    cases hjob
    exact ⟨hid.symm, hf.symm⟩
  cases c with
  | ack id fence =>
      obtain ⟨rfl, rfl⟩ := hjob hmay.2.2
      have hj : j ∈ σ.store.jobs.rows.filter (fun i => !(i.id = j.id && i.fence = j.fence)) := hj
      have := (List.mem_filter.mp hj).2
      simp at this
  | failRetry id error availableAt fence =>
      obtain ⟨rfl, rfl⟩ := hjob hmay.2.2
      obtain ⟨i, hi, he⟩ := List.mem_map.mp hj
      split at he
      · rw [← he]
        nofun
      · next hn =>
          subst he
          simp at hn
  | failDead id error fence =>
      obtain ⟨rfl, rfl⟩ := hjob hmay.2.2
      obtain ⟨i, hi, he⟩ := List.mem_map.mp hj
      split at he
      · rw [← he]
        nofun
      · next hn =>
          subst he
          simp at hn
  | _ => cases hret

theorem Move.holds_running (h : Move E σ l σ') (hb : σ.Base) {k : Nat} {t : Worker} {j' : JobRow}
    (ht : σ.pool[k]? = some t) (hj' : j' ∈ σ'.store.jobs.rows) (hh : t.holds j' = true)
    (hs : j'.status = .running) :
    ∃ j ∈ σ.store.jobs.rows, t.holds j = true ∧ j.status = .running := by
  obtain ⟨cj, hcj, hid, hf⟩ := Worker.holds_iff.mp hh
  obtain ⟨j, hj, hm⟩ | ⟨_, _, _, _, hge, _, _⟩ := h.job_origin hj'
  · have hold {hid' : j'.id = j.id} {hf' : j'.fence = j.fence} (hst : j.status = .running) :
        ∃ j ∈ σ.store.jobs.rows, t.holds j = true ∧ j.status = .running :=
      ⟨j, hj, Worker.holds_iff.mpr ⟨cj, hcj, hid.trans hid', hf.trans hf'⟩, hst⟩
    cases hm with
    | same => exact @hold rfl rfl hs
    | claimed =>
        have := (hb.row k t cj j ht hcj hj hid.symm).1
        have hf : cj.fence = j.fence + 1 := hf
        omega
    | renewed _ _ _ hrun => exact @hold rfl rfl hrun
    | called _ _ _ _ _ _ _ hch =>
        cases hch with
        | same => exact @hold rfl rfl hs
        | retried | dead | requeued => cases hs
        | expired _ t he =>
            unfold Store.expiredRow at hs
            split at hs <;> cases hs
  · rw [← hid] at hge
    exact absurd hge (Nat.not_le_of_lt (hb.job_lt k t cj ht hcj))

theorem Move.returned (h : Move E σ l σ') (hb : σ.Base) (hs : σ.Settling) {k : Nat} {t : Worker}
    {j : JobRow}
    (ht : σ'.pool[k]? = some t) (ha : t.track.acked = true) (hj : j ∈ σ'.store.jobs.rows)
    (hh : t.holds j = true) :
    j.status ≠ .running := by
  intro hrun
  have hkeep {t₀ : Worker} (ht₀ : σ.pool[k]? = some t₀) (ha₀ : t₀.track.acked = true)
    (hh₀ : t₀.holds j = true) :
      False := by
    obtain ⟨j₀, hj₀, hh₀, hs₀⟩ := h.holds_running hb ht₀ hj hh₀ hrun
    exact hs.returned k t₀ j₀ ht₀ ha₀ hj₀ hh₀ hs₀
  cases h.thread ht with
  | stays _ ht₀ => exact hkeep ht₀ ha hh
  | spawned _ _ he =>
      subst he
      cases ha
  | claimed _ _ _ _ _ _ _ he =>
      subst he
      cases ha
  | crashed t₀ ht₀ _ he =>
      subst he
      exact @hkeep t₀ ht₀ ha hh
  | answered t₀ op kk ch res ht₀ hp hres he =>
      subst he
      rw [Worker.track_answer, (Track.handed_aside hres).2.1] at ha
      exact @hkeep t₀ ht₀ ha hh
  | stored t₀ c kk locked ht₀ hp he =>
      subst he
      have ha : Track.acked (Track.after (Worker.track t₀) c (c.perform σ.store σ.clock locked).2) =
        true := ha
      rw [Track.acked_after, Bool.or_eq_true] at ha
      obtain ha | hret := ha
      · exact @hkeep t₀ ht₀ ha hh
      · have hc : σ.Calling (.call k (.ok locked)) k t₀ c := ⟨ht₀, ⟨kk, hp⟩, locked, rfl⟩
        exact hc.returned h hb hret hj hh hrun

theorem Move.settling (h : Move E σ l σ') (hb : σ.Base) (hl : σ.Lineage) (hs : σ.Settling) :
    σ'.Settling where
  owes_other _ _ _ := h.owes_other hb hl hs
  returned _ _ _ := h.returned hb hs

theorem settling_of_run {ok : Sys → Label → Bool} {clock : Time}
    (h : Run (step E) ok (init .empty clock) σ) :
    σ.Settling :=
  h.invariant Settling (settling_init clock)
    (fun _ _ _ hr hI _ hs => (step_move hs).settling (base_of_run hr) (lineage_of_run hr) hI)

/-- No attempt that has handed the run over is lost before its ack. -/
def keepsHanded (r : RunId) (σ : Sys) : Label → Bool
  | .crash i | .call i (.fail _) =>
      (σ.pool[i]?).all (fun t : Worker => t.kind.run? ≠ some r || !t.track.handed)
  | _ => true

/-- No attempt at the run has met with an error after handing it over. -/
def Unbroken (σ : Sys) (r : RunId) : Prop :=
  ∀ (k : Nat) (t : Worker), σ.pool[k]? = some t → t.kind.run? = some r → t.track.handed = true →
    t.track.erred = false

theorem Move.unbroken (h : Move E σ l σ') (hb : σ.Base) (hs : σ.Settling) (hI : σ.Unbroken r)
    (hok : σ.keepsHanded r l = true) : σ'.Unbroken r := by
  intro k t ht hr hh
  cases h.thread ht with
  | stays _ ht₀ => exact hI k t ht₀ hr hh
  | spawned _ _ he | claimed _ _ _ _ _ _ _ he =>
      subst he
      rfl
  | crashed t₀ ht₀ _ he =>
      subst he
      exact hI k t₀ ht₀ hr hh
  | answered t₀ op kk ch res ht₀ hp hres he =>
      subst he
      rw [Worker.track_answer] at hh ⊢
      obtain ⟨hhe, _, ⟨e, rfl⟩ | he⟩ := @Track.handed_aside (Worker.track t₀) _ _ _ _ hres
      · rw [hhe] at hh
        have hr : t₀.kind.run? = some r := hr
        simp [keepsHanded, ht₀, hr, hh] at hok
      · rw [hhe] at hh
        rw [he]
        exact hI k t₀ ht₀ hr hh
  | stored t₀ c kk locked ht₀ hp he =>
      subst he
      have hh : Track.handed
        (Track.after (Worker.track t₀) c (c.perform σ.store σ.clock locked).2) = true := hh
      show Track.erred (Track.after (Worker.track t₀) c (c.perform σ.store σ.clock locked).2) =
        false
      have hmay := (hb.obeys k t₀ ht₀ (Thread.live_of_call hp)).mayCall hp
      rw [Track.erred_after]
      obtain hh | hpark | ⟨jobs, q, rfl, ho, hq⟩ := Track.handed_after hh
      · exact hI k t₀ ht₀ hr hh
      · obtain ⟨q, hq⟩ := Option.isSome_iff_exists.mp hpark
        exact (Track.keeps_of_parks hmay hq).2.erred
      · obtain ⟨job, hjob, hrun⟩ := List.mem_filterMap.mp hq
        obtain ⟨_, _, hin | ⟨_, hkeeps, _⟩⟩ := hmay.2 job hjob q hrun
        · rw [(Worker.track_own t₀).1] at ho
          exact absurd hin (hs.owes_other k t₀ q ht₀ ho)
        · exact hkeeps.erred

end Sys

end ZenZip
