import ZenZip.Engine.Track
import ZenZip.Runtime.Ids

namespace ZenZip

open Lib

namespace Payload

theorem run?_eq_some {p : Payload} {id : RunId} (h : p.run? = some id) : p = .execution id := by
  cases p with
  | execution r =>
      cases h
      rfl
  | data v => cases h

end Payload

namespace Kind

theorem run?_of_job? {k : Kind} {cj : ClaimedJob} (h : k.job? = some cj) :
    k.run? = cj.payload.run? := by
  cases k with
  | worker workflow job =>
      cases h
      simp only [run?]
      cases cj.payload <;> rfl
  | task t => cases h

theorem job?_of_run? {k : Kind} {r : RunId} (h : k.run? = some r) :
    ∃ cj, k.job? = some cj ∧ cj.payload = .execution r := by
  cases k with
  | worker workflow job =>
      refine ⟨job, rfl, ?_⟩
      have h' : job.payload.run? = some r := by
        rw [← @run?_of_job? (.worker workflow job) job rfl, h]
      exact Payload.run?_eq_some h'
  | task t => cases h

end Kind

namespace Track

theorem after_own (g : Track) (c : Call) (v : c.Ret) :
    (g.after c v).own = g.own ∧ (g.after c v).job = g.job := by
  cases c with
  | getRun id =>
      obtain ⟨_, _, _, h⟩ := g.looked_eq id v
      rw [after, h]
      exact ⟨rfl, rfl⟩
  | _ => exact ⟨rfl, rfl⟩

theorem next_own (g : Track) (op : Op) (r : Except String (Val op)) :
    (g.next op r).own = g.own ∧ (g.next op r).job = g.job := by
  cases op with
  | store c =>
      cases r with
      | ok v => exact g.after_own c v
      | error e => exact ⟨rfl, rfl⟩
  | executor | nowMs => cases r <;> exact ⟨rfl, rfl⟩
  | fastrand => exact ⟨rfl, rfl⟩

end Track

namespace Worker

def track (t : Worker) : Track := tracking.ghost (.start t.kind.run? t.kind.job?) t.log

def Obeys (t : Worker) : Prop := tracking.wp t.prog (fun g _ => g.Ended t.kind.isWorker) t.track

theorem track_own (t : Worker) : t.track.own = t.kind.run? ∧ t.track.job = t.kind.job? := by
  unfold track
  induction t.log with
  | nil => exact ⟨rfl, rfl⟩
  | cons e l ih =>
      obtain ⟨ho, hj⟩ := (tracking.ghost (.start t.kind.run? t.kind.job?) l).next_own e.op e.res
      exact ⟨ho.trans ih.1, hj.trans ih.2⟩

theorem track_answer (t : Worker) (op : Op) (r : Except String (Val op)) (p : M Reply) :
    Worker.track (t.answer op r p) = t.track.next op r := rfl

theorem Obeys.mayCall {t : Worker} {c : Call} {k : Except String c.Ret → M Reply} (h : t.Obeys)
    (hp : t.prog = .call (.store c) k) : t.track.mayCall c := by
  rw [Obeys, hp] at h
  exact h.1

theorem Obeys.allowed {t : Worker} {op : Op} {k : Except String (Val op) → M Reply} (h : t.Obeys)
    (hp : t.prog = .call op k) : t.track.allowed op := by
  rw [Obeys, hp] at h
  exact h.1

theorem Obeys.answer {t : Worker} {op : Op} {k : Except String (Val op) → M Reply} (h : t.Obeys)
    (hp : t.prog = .call op k) {r : Except String (Val op)} (hr : Track.answers op r) :
    Worker.Obeys (t.answer op r (k r)) := by
  rw [Obeys, hp] at h
  exact h.2 r hr

theorem Obeys.ended {t : Worker} (h : t.Obeys) (hl : t.live = false) :
    t.track.Ended t.kind.isWorker := by
  unfold Obeys at h
  unfold Thread.live Prog.live at hl
  split at hl
  · cases hl
  · next hp =>
      cases hprog : t.prog with
      | ret a =>
          rw [hprog] at h
          exact h
      | throw e =>
          rw [hprog] at h
          exact h
      | call c k => exact absurd hprog (hp c k)

theorem Obeys.idle {t : Worker} (h : t.Obeys) (hl : t.live = false) : t.track.Idle :=
  (h.ended hl).idle

theorem obeys_workerThread (E : WorkflowEngine) (workflow : String) (job : ClaimedJob) :
    (workerThread E workflow job).Obeys := by
  have h := Track.wp_runGroup E workflow job
  have hrun : (Kind.worker workflow job).run? = job.payload.run? := Kind.run?_of_job? rfl
  show tracking.wp _ _ (.start (Kind.worker workflow job).run? (some job))
  rw [hrun]
  exact h

theorem obeys_taskThread (E : WorkflowEngine) {t : Task} (ht : t.admissible = true) :
    (taskThread E t).Obeys :=
  Discipline.wp_mono _ (Track.wp_task E ht) (fun _ _ hi => ⟨hi, nofun⟩)

end Worker

theorem Call.answers_perform (s : Store) (now : Time) (locked : List RunId) (c : Call) :
    Track.answers (.store c) (.ok (c.perform s now locked).2) := by
  cases c with
  | getRun id =>
      simp only [Track.answers, perform]
      cases h : s.getRun id with
      | none => trivial
      | some row => exact Table.key_of_get? h
  | sweepEventTimeouts t =>
      show (((s.runs.select _).map _).map _).Nodup
      rw [List.map_map]
      exact s.runs.nodup.sublist (List.filter_sublist.map RunRow.id)
  | _ => trivial

theorem Aside.answers {clock : Time} {op : Op} {ch : Choice} {r : Except String (Val op)}
    (h : Aside clock op ch r) : Track.answers op r := by
  cases h with
  | failed c e => cases c <;> trivial
  | clock | draw => trivial
  | outcome req o => cases o <;> trivial

end ZenZip
