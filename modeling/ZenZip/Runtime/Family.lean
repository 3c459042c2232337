import ZenZip.Runtime.Coverage
import ZenZip.Runtime.DeadLetter
import ZenZip.Runtime.Lineage

namespace ZenZip

open Lib

inductive Begets : (c : Call) → c.Ret → RunId → Prop
  | mk (run id created) : Begets (.createRun run) (id, created) id

namespace Track

theorem child_after {g : Track} {c : Call} {v : c.Ret} {id : RunId}
    (h : (g.after c v).child = some id) :
    g.child = some id ∨ Begets c v id := by
  cases c with
  | createRun run =>
      obtain ⟨id', created⟩ := v
      cases h
      exact .inr (.mk run id created)
  | getRun id' =>
      obtain ⟨_, _, _, hl⟩ := g.looked_eq id' v
      rw [after, hl] at h
      exact .inl h
  | _ => exact .inl h

theorem child_next {g : Track} {op : Op} {ch : Choice} {clock : Time} {res : Except String (Val op)}
    (ha : Aside clock op ch res) : (g.next op res).child = g.child := by
  cases ha with
  | failed | clock | draw => rfl
  | outcome req o => cases o <;> rfl

theorem wakes_after {g : Track} {c : Call} {v : c.Ret} {p : RunId} (hw : g.wakes = some p)
    (hp : g.WakesParent)
    (hm : g.mayCall c) : (g.after c v).wakes = some p ∨ c = .wakeParent p := by
  cases c with
  | getRun id =>
      obtain ⟨_, _, _, hl⟩ := g.looked_eq id v
      rw [after, hl]
      exact .inl hw
  | createRun run =>
      obtain ⟨id, created⟩ := v
      exact .inl hw
  | runCompleted | runFailed => exact .inl (hp p hw)
  | wakeParent id =>
      have hm : g.wakes = some id := hm
      rw [hw] at hm
      cases hm
      exact .inr rfl
  | _ => exact .inl hw

end Track

namespace Sys

variable {E : WorkflowEngine} {σ σ' : Sys} {l : Label} {p c : RunId}

/-- A run with a parent names the parent's step, and the child an attempt knows
of has the attempt's run for its parent. -/
structure Kinship (σ : Sys) : Prop where
  stepped : ∀ id row p, σ.store.runs.get? id = some row → row.parentRunId = some p →
    row.parentStepId ≠ none
  begot : ∀ (k : Nat) (t : Worker) (p c : RunId), σ.pool[k]? = some t → t.kind.run? = some p →
    t.track.child = some c →
    c < σ.store.nextId ∧ ∀ row, σ.store.runs.get? c = some row → row.parentRunId = some p

theorem kinship_init (clock : Time) : (init .empty clock).Kinship where
  stepped id row p h := by cases h
  begot k t p c h := by cases h

theorem Move.stepped (h : Move E σ l σ') (hb : σ.Base) (hI : σ.Kinship) {id : RunId} {row : RunRow}
    (hr : σ'.store.runs.get? id = some row) (hp : row.parentRunId = some p) :
    row.parentStepId ≠ none := by
  obtain ⟨r, hr₀, rfl | ⟨i, t, c, _, hch⟩⟩ | ⟨_, i, t,
    ⟨run, hc, rfl, rfl⟩ | ⟨_, _, _, _, _, _, rfl⟩⟩ :=
    h.run_origin hb.fresh hr
  · exact hI.stepped id row p hr₀ hp
  · rw [hch.parent_eq.2]
    exact hI.stepped id r p hr₀ (hch.parent_eq.1.symm.trans hp)
  · have hp : run.parentRunId = some p := hp
    obtain ⟨_, hnone, _⟩ | ⟨q, s, _, _, hs, _⟩ := (hb.obeys_calling hc).2
    · rw [hnone] at hp
      cases hp
    · show run.parentStepId ≠ none
      rw [hs]
      nofun
  · cases hp

theorem Lineage.begets (hl : σ.Lineage) (hf : σ.store.Fresh) {t : Worker} {call : Call}
    {locked : List RunId}
    (hm : t.track.mayCall call) (hr : t.kind.run? = some p)
    (hbeg : Begets call (call.perform σ.store σ.clock locked).2 c) :
    c < (call.perform σ.store σ.clock locked).1.nextId ∧
      ∀ row, (call.perform σ.store σ.clock locked).1.runs.get? c = some row →
      row.parentRunId = some p := by
  generalize hv : (call.perform σ.store σ.clock locked).2 = v at hbeg
  cases hbeg with
  | mk run _ created =>
      obtain ⟨cj, hcj, _⟩ := Kind.job?_of_run? hr
      obtain ⟨hjob, _⟩ | ⟨q, s, hown, hpar, _, hkey, _⟩ := hm
      · rw [(Worker.track_own t).2, hcj] at hjob
        cases hjob
      · rw [(Worker.track_own t).1, hr] at hown
        cases hown
        have hv : (σ.store.createRun run σ.clock).2 = (c, created) := hv
        show c < (σ.store.createRun run σ.clock).1.nextId ∧
          ∀ row, (σ.store.createRun run σ.clock).1.runs.get? c = some row → row.parentRunId = some p
        obtain ⟨id, hid, he⟩ | ⟨_, he⟩ := σ.store.createRun_cases run σ.clock
        · rw [he] at hv ⊢
          cases hv
          obtain ⟨row₀, hrow₀, _, hk⟩ := Store.runOfKey_eq_some hid
          refine ⟨hf.runs c row₀ hrow₀, fun row hrow => ?_⟩
          obtain rfl := Option.some.inj (hrow₀.symm.trans hrow)
          exact (hl.keyed c row₀ p s hrow₀ (hk.trans hkey)).1
        · rw [he] at hv ⊢
          cases hv
          refine ⟨Nat.lt_succ_self _, fun row hrow => ?_⟩
          have hnone : σ.store.runs.get? σ.store.nextId = none := by
            rw [Option.eq_none_iff_forall_ne_some]
            intro row₀ hrow₀
            exact Nat.lt_irrefl _ (hf.runs σ.store.nextId row₀ hrow₀)
          rw [Store.get?_addRun, hnone, if_pos rfl] at hrow
          cases hrow
          exact hpar

theorem Move.parent_kept (h : Move E σ l σ') (hb : σ.Base) (hlt : c < σ.store.nextId)
    (hI : ∀ row, σ.store.runs.get? c = some row → row.parentRunId = some p) {row : RunRow}
    (hrow : σ'.store.runs.get? c = some row) : row.parentRunId = some p := by
  obtain ⟨r, hr₀, rfl | ⟨_, _, _, _, hch⟩⟩ | ⟨hnone, _⟩ := h.run_origin hb.fresh hrow
  · exact hI row hr₀
  · exact hch.parent_eq.1.trans (hI r hr₀)
  · rw [h.deleted hb.fresh hlt hnone] at hrow
    cases hrow

theorem Move.begot (h : Move E σ l σ') (hb : σ.Base) (hl : σ.Lineage) (hI : σ.Kinship) {k : Nat}
    {t : Worker}
    (ht : σ'.pool[k]? = some t) (hr : t.kind.run? = some p) (hc : t.track.child = some c) :
    c < σ'.store.nextId ∧ ∀ row, σ'.store.runs.get? c = some row → row.parentRunId = some p := by
  have hkeep {t₀ : Worker} (ht₀ : σ.pool[k]? = some t₀) (hr₀ : t₀.kind.run? = some p)
      (hc₀ : t₀.track.child = some c) :
      c < σ'.store.nextId ∧ ∀ row, σ'.store.runs.get? c = some row → row.parentRunId = some p := by
    obtain ⟨hlt, hrow⟩ := hI.begot k t₀ p c ht₀ hr₀ hc₀
    exact ⟨Nat.lt_of_lt_of_le hlt h.nextId_le, fun row => h.parent_kept hb hlt hrow⟩
  cases h.thread ht with
  | stays _ ht₀ => exact hkeep ht₀ hr hc
  | spawned _ _ he | claimed _ _ _ _ _ _ _ he =>
      subst he
      cases hc
  | crashed t₀ ht₀ _ he =>
      subst he
      exact @hkeep t₀ ht₀ hr hc
  | answered t₀ op kk ch res ht₀ hp hres he =>
      subst he
      rw [Worker.track_answer, Track.child_next hres] at hc
      exact @hkeep t₀ ht₀ hr hc
  | stored t₀ call kk locked ht₀ hp he =>
      subst he
      obtain hc | hbeg := Track.child_after hc
      · exact @hkeep t₀ ht₀ hr hc
      · rw [h.eq_stored ht₀ hp]
        exact hl.begets hb.fresh ((hb.obeys k t₀ ht₀ (Thread.live_of_call hp)).mayCall hp) hr hbeg

theorem kinship_of_run {ok : Sys → Label → Bool} {clock : Time}
    (h : Run (step E) ok (init .empty clock) σ) :
    σ.Kinship := by
  refine h.invariant Kinship (kinship_init clock) (fun τ l τ' hr hI _ hs => ⟨?_, ?_⟩)
  · intro id row p
    exact (step_move hs).stepped (base_of_run hr) hI
  · intro k t p c
    exact (step_move hs).begot (base_of_run hr) (lineage_of_run hr) hI

def waitsFor (σ : Sys) (p c : RunId) : Bool :=
  (σ.store.runs.get? p).any (fun row => row.status = .waitChild) && σ.shared.parkedOn p = some c

/-- The thread is an attempt at the child that has ended it and is yet to wake the parent. -/
def waker (σ : Sys) (p c : RunId) (k : Nat) : Bool :=
  (σ.pool[k]?).any (fun t : Worker => t.live && t.kind.run? = some c && t.track.wakes = some p)

def unfinished (σ : Sys) (p c : RunId) : Bool :=
  (σ.store.runs.get? c).any (fun row => !row.status.terminal) ||
    (List.range σ.pool.length).any (σ.waker p c)

/-- The step leaves the parent with somebody to wake it: it does not strand the child,
takes out no thread that is about to wake the parent, and does not park it on a
child that has ended; and it is no cancellation and no purge. -/
def keepsFamily (p c : RunId) (σ : Sys) (l : Label) : Bool :=
  !σ.strands l c && match l with
    | .crash i | .call i (.fail _) => !(σ.waitsFor p c && σ.waker p c i)
    | .call i (.ok _) => match σ.pendingCall i with
      | some (.runWaitingChild id child) => id ≠ p || child ≠ c || σ.unfinished p c
      | some (.cancelRunTree _) | some (.purgeSubject _) => false
      | _ => true
    | _ => true

theorem waker_iff {k : Nat} : σ.waker p c k = true ↔
    ∃ t : Worker, σ.pool[k]? = some t ∧ t.live = true ∧
    t.kind.run? = some c ∧ t.track.wakes = some p := by
  simp [waker, Option.any_eq_true, and_assoc]

theorem waitsFor_iff : σ.waitsFor p c = true ↔
    (∃ row, σ.store.runs.get? p = some row ∧ row.status = .waitChild) ∧
    σ.shared.parkedOn p = some c := by
  simp [waitsFor, Option.any_eq_true]

def Attended (σ : Sys) (p c : RunId) : Prop :=
  σ.waitsFor p c = true →
    (∃ row, σ.store.runs.get? c = some row ∧ row.status.terminal = false ∧
      row.parentRunId = some p) ∨
      ∃ k, σ.waker p c k = true

/-- A parent comes to be parked on a child by the call of its own attempt. -/
theorem Move.waitsFor_origin (h : Move E σ l σ') (hb : σ.Base) (hw : σ'.waitsFor p c = true) :
    σ.waitsFor p c = true ∨ ∃ i t, σ.Calling l i t (.runWaitingChild p c) := by
  obtain ⟨⟨row', hrow', hs'⟩, hpark'⟩ := waitsFor_iff.mp hw
  have hpark : σ.shared.parkedOn p = some c ∨ ∃ i t, σ.Calling l i t (.runWaitingChild p c) := by
    cases h with
    | ticked | spawned | claimed | answered | crashed | renewed | recorded => exact .inl hpark'
    | stored i t call k locked ht hp =>
        have hpark' : State.parks σ.shared.parkedOn call p = some c := hpark'
        cases call with
        | runWaitingChild id child =>
            by_cases hid : p = id
            · subst hid
              rw [State.parks, Function.update_self] at hpark'
              cases hpark'
              exact .inr ⟨i, t, ht, ⟨k, hp⟩, locked, rfl⟩
            · rw [State.parks, Function.update_of_ne hid] at hpark'
              exact .inl hpark'
        | _ => exact .inl hpark'
  obtain hpark | hcall := hpark
  · obtain ⟨row, hrow, rfl | ⟨i, t, call, hc, hch⟩⟩ | ⟨_, _, _,
      ⟨_, _, _, rfl⟩ | ⟨_, _, _, _, _, _, rfl⟩⟩ :=
      h.run_origin hb.fresh hrow'
    · exact .inl (waitsFor_iff.mpr ⟨⟨row', hrow, hs'⟩, hpark⟩)
    · cases hch with
      | waitingChild _ child =>
          have hid := Table.key_of_get? hrow
          rw [hid] at hc
          obtain ⟨_, _, _, rfl, rfl, _⟩ := hc.answered h
          have hpark' : Function.update σ.shared.parkedOn p (some child) p = some c := hpark'
          rw [Function.update_self] at hpark'
          cases hpark'
          exact .inr ⟨i, t, hc⟩
      | _ => cases hs'
    · cases hs'
    · cases hs'
  · exact .inr hcall

theorem Move.waker_kept (h : Move E σ l σ') (hb : σ.Base) {k : Nat} (hk : σ.waker p c k = true) :
    σ'.waker p c k = true ∨ (l = .crash k ∨ ∃ e, l = .call k (.fail e)) ∨ ∃ t, σ.Calling l k t
      (.wakeParent p) := by
  obtain ⟨t, ht, hl, hr, hw⟩ := waker_iff.mp hk
  obtain ⟨u, hu, hmove⟩ := h.thread_of ht
  -- a thread with a parent to wake has not come to its end
  have hlive {v : Worker} (ho : v.Obeys) (hv : v.track.wakes = some p) : v.live = true := by
    rw [← Bool.not_eq_false]
    intro hdead
    rw [(ho.idle hdead).wakes] at hv
    cases hv
  cases hmove with
  | stays _ ht₀ =>
      obtain rfl := Option.some.inj (ht.symm.trans ht₀)
      exact .inl (waker_iff.mpr ⟨t, hu, hl, hr, hw⟩)
  | spawned _ _ _ hj =>
      have := lt_of_getElem? ht
      omega
  | claimed _ _ _ _ _ hge =>
      have := lt_of_getElem? ht
      omega
  | crashed => exact .inr (.inl (.inl rfl))
  | answered t₀ op kk ch res ht₀ hp hres he =>
      obtain rfl := Option.some.inj (ht.symm.trans ht₀)
      subst he
      obtain ⟨_, ⟨e, rfl, _⟩ | ⟨_, _, hwakes⟩⟩ := @Track.next_aside t.track _ _ _ _ hres
      · exact .inr (.inl (.inr ⟨e, rfl⟩))
      · have hw' : (Worker.track (t.answer op res (kk res))).wakes = some p := by
          rw [Worker.track_answer, hwakes]
          exact hw
        have hob := (hb.obeys k t ht hl).answer hp hres.answers
        exact .inl (waker_iff.mpr ⟨_, hu, hlive hob hw', hr, hw'⟩)
  | stored t₀ call kk locked ht₀ hp he =>
      obtain rfl := Option.some.inj (ht.symm.trans ht₀)
      subst he
      have hmay := (hb.obeys k t ht hl).mayCall hp
      obtain hw' | rfl :=
        @Track.wakes_after t.track call (call.perform σ.store σ.clock locked).2 p hw
          t.wakes_parent hmay
      · have hob :=
          (hb.obeys k t ht hl).answer hp (Call.answers_perform σ.store σ.clock locked call)
        exact .inl (waker_iff.mpr ⟨_, hu, hlive hob hw', hr, hw'⟩)
      · exact .inr (.inr ⟨t, ht, ⟨kk, hp⟩, locked, rfl⟩)

theorem Calling.ends {i : Nat} {t : Worker} {call : Call} {row : RunRow} (hc : σ.Calling l i t call)
    (h : Move E σ l σ')
    (hb : σ.Base) (hl : σ.Lineage) (hk : σ.Kinship) (hrow : σ.store.runs.get? c = some row)
    (hpar : row.parentRunId = some p)
    (hends : (∃ output, call = .runCompleted c output) ∨ ∃ error, call = .runFailed c error) :
    σ'.waker p c i = true := by
  obtain ⟨k, locked, hp, rfl, rfl, hu⟩ := hc.answered h
  have hob := hb.obeys i t hc.thread (Thread.live_of_call hp)
  have hmay := hob.mayCall hp
  have hob' := hob.answer hp (Call.answers_perform σ.store σ.clock locked call)
  obtain ⟨hown, hrun⟩ : t.track.own = some c ∧ t.track.run ≠ none := by
    obtain ⟨output, rfl⟩ | ⟨error, rfl⟩ := hends
    · exact ⟨hmay.1, hmay.2.1⟩
    · exact ⟨hmay.1, hmay.2⟩
  rw [(Worker.track_own t).1] at hown
  obtain ⟨row₀, hrow₀⟩ := Option.ne_none_iff_exists'.mp hrun
  obtain ⟨hr₀, _, hseen⟩ := hl.seen i t row₀ hc.thread hrow₀
  have hid : row₀.id = c := Option.some.inj (hr₀.symm.trans hown)
  rw [hid] at hseen
  obtain ⟨hp₀, hs₀⟩ := hseen row hrow
  obtain ⟨s, hs⟩ := Option.ne_none_iff_exists'.mp (hk.stepped c row p hrow hpar)
  have hstep : t.track.parentStep = some (p, s) := by
    rw [hpar] at hp₀
    rw [hs] at hs₀
    simp [Track.parentStep, hrow₀, RunRow.parentStep, ← hp₀, ← hs₀]
  have hwakes : Track.wakes
    (Track.after (Worker.track t) call (call.perform σ.store σ.clock locked).2) = some p := by
    obtain ⟨output, rfl⟩ | ⟨error, rfl⟩ := hends
    · simp [Track.after, hstep]
    · simp [Track.after, hstep]
  refine waker_iff.mpr ⟨_, hu, ?_, hown, hwakes⟩
  rw [← Bool.not_eq_false]
  intro hdead
  have hw := (hob'.idle hdead).wakes
  rw [Worker.track_answer] at hw
  exact absurd (hwakes.symm.trans hw) (fun h => by cases h)

theorem keepsFamily_call (hok : σ.keepsFamily p c l = true) {i : Nat} {t : Worker} {call : Call}
    (hc : σ.Calling l i t call) : (call = .runWaitingChild p c → σ.unfinished p c = true) ∧
      (∀ root, call ≠ .cancelRunTree root) ∧ ∀ subject, call ≠ .purgeSubject subject := by
  obtain ⟨k, hp⟩ := hc.prog
  obtain ⟨locked, rfl⟩ := hc.label
  simp only [keepsFamily, Bool.and_eq_true, pendingCall_eq hc.thread hp] at hok
  refine ⟨?_, ?_, ?_⟩
  · rintro rfl
    simpa using hok.2
  · rintro root rfl
    cases hok.2
  · rintro subject rfl
    cases hok.2

theorem Move.attended_run (h : Move E σ l σ') (hb : σ.Base) (hl : σ.Lineage) (hk : σ.Kinship)
    (hok : σ.keepsFamily p c l = true) {row : RunRow} (hrow : σ.store.runs.get? c = some row)
    (hs : row.status.terminal = false) (hpar : row.parentRunId = some p) :
    (∃ row, σ'.store.runs.get? c = some row ∧ row.status.terminal = false ∧
    row.parentRunId = some p) ∨
      ∃ k, σ'.waker p c k = true := by
  have hid := Table.key_of_get? hrow
  obtain hsame | ⟨i, t, call, k, locked, ht, hp, hlabel, hcase⟩ := h.run_cases hrow
  · exact .inl ⟨row, hsame, hs, hpar⟩
  · have hc : σ.Calling l i t call := ⟨ht, ⟨k, hp⟩, locked, hlabel⟩
    obtain ⟨_, hcancel, hpurge⟩ := keepsFamily_call hok hc
    obtain ⟨row', hch, hrow'⟩ | ⟨hdel, hn⟩ := hcase
    · have hpar' : row'.parentRunId = some p := hch.parent_eq.1.trans hpar
      cases hch with
      | completed _ output =>
          rw [hid] at hc
          exact .inr ⟨i, hc.ends h hb hl hk hrow hpar (.inl ⟨output, rfl⟩)⟩
      | failed _ error =>
          rw [hid] at hc
          exact .inr ⟨i, hc.ends h hb hl hk hrow hpar (.inr ⟨error, rfl⟩)⟩
      | cancelled _ root => exact absurd rfl (hcancel root)
      | sleeping | waitingEvent | waitingChild | wokenParent | released | timedOut =>
          exact .inl ⟨_, hrow', rfl, hpar'⟩
    · subst hlabel
      cases call with
      | gc runBefore eventBefore =>
          rw [h.eq_stored ht hp] at hn
          have hn : (σ.store.gc runBefore eventBefore).1.runs.get? c = none := hn
          rw [Store.gc_keeps hrow hs] at hn
          cases hn
      | purgeSubject subject => exact absurd rfl (hpurge subject)
      | _ => cases hdel

theorem Move.attended (h : Move E σ l σ') (hb : σ.Base) (hl : σ.Lineage) (hk : σ.Kinship)
    (hI : σ.Attended p c)
    (hok : σ.keepsFamily p c l = true) : σ'.Attended p c := by
  intro hw'
  obtain hw | ⟨i, t, hc⟩ := h.waitsFor_origin hb hw'
  · obtain ⟨row, hrow, hs, hpar⟩ | ⟨k, hwaker⟩ := hI hw
    · exact h.attended_run hb hl hk hok hrow hs hpar
    · obtain hkept | hout | ⟨t, hc⟩ := h.waker_kept hb hwaker
      · exact .inr ⟨k, hkept⟩
      · obtain rfl | ⟨e, rfl⟩ := hout
        · simp [keepsFamily, hw, hwaker] at hok
        · simp [keepsFamily, hw, hwaker] at hok
      · -- the parent that is woken is no longer parked
        obtain ⟨⟨prow, hprow, hps⟩, _⟩ := waitsFor_iff.mp hw
        obtain ⟨⟨prow', hprow', hps'⟩, _⟩ := waitsFor_iff.mp hw'
        obtain ⟨_, locked, _, rfl, rfl, _⟩ := hc.answered h
        have hu := σ.store.get?_updateRun p (fun r => r.status = .waitChild)
          (Store.wokenParentRow σ.clock) (fun _ => rfl) p
        rw [hprow, if_pos rfl, Option.map_some, if_pos (decide_eq_true hps)] at hu
        obtain rfl := Option.some.inj (hu.symm.trans hprow')
        cases hps'
  · obtain ⟨k, hp⟩ := hc.prog
    have hmay := (hb.obeys_calling hc).2
    have hown : t.kind.run? = some p := (Worker.track_own t).1.symm.trans hmay.1
    obtain ⟨hlt, hpar⟩ := hk.begot i t p c hc.thread hown hmay.2.2.1
    have hatt := (keepsFamily_call hok hc).1 rfl
    simp only [unfinished, Bool.or_eq_true, Option.any_eq_true, Bool.not_eq_true',
      List.any_eq_true] at hatt
    obtain ⟨row, hrow, hs⟩ | ⟨k, _, hwaker⟩ := hatt
    · exact h.attended_run hb hl hk hok hrow hs (hpar row hrow)
    · obtain hkept | hout | ⟨t', hc'⟩ := h.waker_kept hb hwaker
      · exact .inr ⟨k, hkept⟩
      · obtain ⟨locked, rfl⟩ := hc.label
        obtain hout | ⟨e, hout⟩ := hout
        · cases hout
        · cases hout
      · exact absurd (hc.unique hc').2.2 (fun h => by cases h)

theorem attended_of_run {clock : Time} (h : Run (step E) (keepsFamily p c) (init .empty clock) σ) :
    σ.Attended p c := by
  refine h.invariant (fun σ => σ.Attended p c) (fun hw => by cases hw) ?_
  intro τ l τ' hr hI hok hs
  exact (step_move hs).attended (base_of_run hr) (lineage_of_run hr) (kinship_of_run hr) hI hok

/-- No job of the run is pending or running, no attempt at it is in flight, and
no call in flight is to push one. -/
structure Quiet (σ : Sys) (r : RunId) : Prop where
  jobs : ∀ j ∈ σ.store.jobs.rows, j.payload = .execution r → j.status = .dead
  attempts : ∀ (k : Nat) (t : Worker), σ.pool[k]? = some t → t.live = true → t.kind.run? ≠ some r
  owes : ∀ k, σ.debtor r k = false

/-- Where all is quiet, a parent is parked on a child that is itself suspended. -/
theorem quiet_parent_waits_on_suspended {clock : Time}
    (h : Run (step E) (keepsFamily p c) (init .empty clock) σ)
    (hq : σ.Quiet c) (hw : σ.waitsFor p c = true) :
    ∃ row, σ.store.runs.get? c = some row ∧ row.status.parked = true := by
  have hstrands : ∀ (τ : Sys) l, τ.keepsFamily p c l = true → τ.strands l c = false := by
    intro τ l hok
    simp only [keepsFamily, Bool.and_eq_true, Bool.not_eq_true'] at hok
    exact hok.1
  obtain ⟨row, hrow, hs, _⟩ | ⟨k, hk⟩ := attended_of_run h hw
  · refine ⟨row, hrow, ?_⟩
    obtain hexec | hpark | hend := row.status.cases_executable_parked_terminal
    · obtain ⟨j, hj, hc⟩ | ⟨k, hk⟩ := coversRun_of_run hstrands h row hrow hexec
      · obtain ⟨hp, hst, _⟩ := covers_iff.mp hc
        exact absurd (hq.jobs j hj hp) hst
      · rw [hq.owes k] at hk
        cases hk
    · exact hpark
    · rw [hs] at hend
      cases hend
  · obtain ⟨t, ht, hl, hr, _⟩ := waker_iff.mp hk
    exact absurd hr (hq.attempts k t ht hl)

section Sample

/-- A run invokes a child, and the child waits for an event. -/
def childWaits : List Label :=
  startOrder 0 ++
    attemptUpTo 1 (.invoke "sub" "order" none) ++ [callOk 1, callOk 1, callOk 1, callOk 1,
    .claim "order" 1] ++
      attemptUpTo 2 (.event "approval" "approved" none none) ++ [callOk 2, callOk 2]

def quiet (σ : Sys) (r : RunId) : Bool :=
  σ.store.jobs.rows.all (fun j => j.payload ≠ .execution r || j.status = .dead) &&
    σ.pool.all (fun t : Worker => !t.live || t.kind.run? ≠ some r && !t.owes r)

theorem Quiet.of_eq {r : RunId} (h : σ.quiet r = true) : σ.Quiet r := by
  simp only [quiet, Bool.and_eq_true, List.all_eq_true, Bool.or_eq_true, Bool.not_eq_true',
    decide_eq_true_eq] at h
  obtain ⟨hjobs, hpool⟩ := h
  refine ⟨fun j hj hp => (hjobs j hj).resolve_left (fun hn => hn hp), fun k t ht hl => ?_,
    fun k => ?_⟩
  · obtain hn | ⟨hr, _⟩ := hpool t (List.mem_of_getElem? ht)
    · rw [hl] at hn
      cases hn
    · exact hr
  · rw [← Bool.not_eq_true, debtor_iff]
    rintro ⟨t, ht, hl, ho⟩
    obtain hn | ⟨_, hn⟩ := hpool t (List.mem_of_getElem? ht)
    · rw [hl] at hn
      cases hn
    · rw [ho] at hn
      cases hn

theorem quiet_parent_waits_on_suspended_event : ∃ σ,
    Run (step sampleEngine) (keepsFamily 0 2) (init .empty 0) σ ∧
    σ.Quiet 2 ∧ σ.waitsFor 0 2 = true ∧ ∃ row, σ.store.runs.get? 2 = some row ∧
    row.status.parked = true := by
  obtain ⟨σ, h, hp⟩ :=
    Run.exists_of_replay (step sampleEngine) (keepsFamily 0 2) (init .empty 0) childWaits
    (fun σ => σ.quiet 2 && σ.waitsFor 0 2) (by decide +kernel)
  obtain ⟨hq, hw⟩ := Bool.and_eq_true_iff.mp hp
  exact ⟨σ, h, .of_eq hq, hw, quiet_parent_waits_on_suspended h (.of_eq hq) hw⟩

/-- A parent whose child waits for an event is parked with neither run in flight. -/
theorem parent_waits_with_waiting_child : ∃ σ,
    Run (step sampleEngine) (fun _ _ => true) (init .empty 0) σ ∧
    σ.Quiet 0 ∧ σ.Quiet 2 ∧ σ.waitsFor 0 2 = true ∧ σ.statusOf 2 = some .waitEvent := by
  obtain ⟨σ, h, hp⟩ :=
    Run.exists_of_replay (step sampleEngine) (fun _ _ => true) (init .empty 0) childWaits
    (fun σ => (σ.quiet 0 && σ.quiet 2) &&
      (σ.waitsFor 0 2 && decide (σ.statusOf 2 = some .waitEvent))) (by decide +kernel)
  obtain ⟨hq, hw⟩ := Bool.and_eq_true_iff.mp hp
  obtain ⟨hq₀, hq₂⟩ := Bool.and_eq_true_iff.mp hq
  obtain ⟨hw, hs⟩ := Bool.and_eq_true_iff.mp hw
  exact ⟨σ, h, .of_eq hq₀, .of_eq hq₂, hw, of_decide_eq_true hs⟩

end Sample

end Sys

end ZenZip
