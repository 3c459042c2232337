import ZenZip.Engine.Release
import ZenZip.Engine.Journal
import ZenZip.Runtime.Debts
import ZenZip.Runtime.Terminal

namespace ZenZip

open Lib

def RunRow.waiter (r : RunRow) : Waiter := ⟨r.id, r.workflow, r.waitStepId.getD ""⟩

namespace Worker

def release (t : Worker) : Release := releasing.ghost (.fresh t.kind) t.log

theorem release_kind (t : Worker) : t.release.kind = t.kind := by
  unfold release
  induction t.log with
  | nil => rfl
  | cons e l ih =>
      have hnext (g : Release) (op : Op) (r : Except String (Val op)) : (g.next op r).kind =
        g.kind := by
        cases op with
        | store c =>
            cases r with
            | error e => rfl
            | ok v => cases c <;> rfl
        | nowMs | fastrand | executor => cases r <;> rfl
      exact (hnext _ e.op e.res).trans ih

theorem release_answer (t : Worker) (op : Op) (r : Except String (Val op)) (p : M Reply) :
    Worker.release (t.answer op r p) = t.release.next op r := rfl

end Worker

namespace Store

theorem emitInTx_waiters (s : Store) (name : String) (payload : Json) (targets : List TriggerTarget)
    (locked : List RunId) (now : Time) :
    (s.emitInTx name payload targets locked now).2.waiters =
    (s.waitersOf name payload locked).map RunRow.waiter := by
  show (mapAccum (releaseWaiter payload now) _ (s.waitersOf name payload locked)).2 = _
  have h := @mapAccum_map _ _ _ _ (releaseWaiter payload now) id RunRow.waiter
    (s.waitersOf name payload locked)
    (fun _ _ _ => rfl)
      { s with events := s.events.insert ⟨s.nextId, name, payload, now⟩, nextId := s.nextId + 1 }
  rwa [List.map_id] at h

theorem nodup_waiters (s : Store) (p : RunRow → Bool) :
    (((s.runs.select p).map RunRow.waiter).map Waiter.runId).Nodup := by
  rw [List.map_map]
  exact s.runs.nodup.sublist (List.filter_sublist.map RunRow.id)

end Store

namespace Sys

def eventsOnly : Label → Bool
  | .tick _ | .call _ _ | .crash _ => true
  | .spawn task => task.isEvent
  | _ => false

/-- No sweep is lost, or meets with an error of the store, between the release of
its waiters and the push of the last one's job. -/
def keepsSweeps (σ : Sys) (l : Label) : Bool :=
  eventsOnly l && match l with
    | .crash i | .call i (.fail _) => (σ.pool[i]?).all (fun t : Worker => t.release.todo.isEmpty)
    | _ => true

variable {E : WorkflowEngine} {σ σ' : Sys} {l : Label}

/-- What a thread of emits and sweeps keeps: it follows the code, ends with
nothing to do, and has released no run twice. -/
structure Releasing (t : Worker) : Prop where
  obeys : t.live = true → releasing.wp t.prog (fun g _ => g.todo = []) t.release
  idle : t.live = false → t.release.todo = []
  nodup : (t.release.waiters.map Waiter.runId).Nodup
  suffix : t.release.todo <:+ t.release.waiters

theorem Releasing.mayCall {t : Worker} (ht : Releasing t) {c : Call}
    {k : Except String c.Ret → M Reply}
    (hp : t.prog = .call (.store c) k) : t.release.mayCall c := by
  have h := ht.obeys (Thread.live_of_call hp)
  rw [hp] at h
  exact h.1

theorem Releasing.answer {t : Worker} (ht : Releasing t) {op : Op}
    {k : Except String (Val op) → M Reply}
    (hp : t.prog = .call op k) {r : Except String (Val op)} (hr : Track.answers op r)
    (hn : ((t.release.next op r).waiters.map Waiter.runId).Nodup)
    (hs : (t.release.next op r).todo <:+ (t.release.next op r).waiters) :
    Releasing (t.answer op r (k r)) := by
  have h := ht.obeys (Thread.live_of_call hp)
  rw [hp] at h
  have hrest := h.2 r hr
  refine ⟨fun _ => hrest, fun hdead => ?_, hn, hs⟩
  have hdead : (k r).live = false := hdead
  rw [Worker.release_answer]
  cases hk : k r with
  | ret a =>
      rw [hk] at hrest
      exact hrest
  | throw e =>
      rw [hk] at hrest
      exact hrest
  | call c k' =>
      rw [hk] at hdead
      cases hdead

theorem Move.releasing (h : Move E σ l σ') (hok : σ.keepsSweeps l = true)
    (hI : ∀ (m : Nat) (t : Worker), σ.pool[m]? = some t → Releasing t) {m : Nat} {t : Worker}
    (ht : σ'.pool[m]? = some t) : Releasing t := by
  cases h.thread ht with
  | stays _ ht₀ => exact hI m t ht₀
  | spawned task _ he =>
      subst he
      have hevent : task.isEvent = true := by
        simpa [keepsSweeps, eventsOnly] using hok
      exact ⟨fun _ => Task.wp_event E hevent, fun _ => rfl, List.nodup_nil, List.nil_suffix⟩
  | claimed => simp [keepsSweeps, eventsOnly] at hok
  | crashed t₀ ht₀ _ he =>
      subst he
      have h₀ := hI m t₀ ht₀
      have htodo : (Worker.release t₀).todo = [] := by
        simpa [keepsSweeps, eventsOnly, ht₀, List.isEmpty_iff] using hok
      exact ⟨nofun, fun _ => htodo, h₀.nodup, h₀.suffix⟩
  | answered t₀ op kk ch res ht₀ hp hres he =>
      subst he
      have h₀ := hI m t₀ ht₀
      refine h₀.answer hp hres.answers ?_ ?_
      · cases hres with
        | failed | clock | draw => exact h₀.nodup
        | outcome req o => cases o <;> exact h₀.nodup
      · cases hres with
        | failed => exact List.nil_suffix
        | clock | draw => exact h₀.suffix
        | outcome req o => cases o <;> exact h₀.suffix
  | stored t₀ c kk locked ht₀ hp he =>
      subst he
      have h₀ := hI m t₀ ht₀
      have hmay := h₀.mayCall hp
      refine h₀.answer hp (Call.answers_perform σ.store σ.clock locked c) ?_ ?_
      · cases c with
        | emitEvent name payload targets =>
            show ((σ.store.emitInTx name payload targets locked σ.clock).2.waiters.map _).Nodup
            rw [Store.emitInTx_waiters]
            exact σ.store.nodup_waiters _
        | sweepEventTimeouts t => exact σ.store.nodup_waiters (Store.timedOut t locked)
        | _ => exact h₀.nodup
      · cases c with
        | emitEvent name payload targets =>
            have hfresh : Worker.release t₀ = _ := hmay
            show (Worker.release t₀).todo <:+ _
            rw [hfresh]
            exact List.nil_suffix
        | sweepEventTimeouts t => exact List.suffix_refl _
        | push jobs => exact (List.tail_suffix _).trans h₀.suffix
        | _ => exact h₀.suffix

def release (σ : Sys) (m : Nat) : Option Release := (σ.pool[m]?).map Worker.release

inductive EventMove (σ σ' : Sys) : Prop
  | quiet (hs : σ'.store = σ.store) (hold : ∀ m g, σ.release m = some g → σ'.release m = some g)
      (hnew : ∀ m g, σ'.release m = some g → σ.release m = some g ∨ g.waiters = [])
  | emitted (i name payload targets locked)
    (hg : σ.release i = some (.fresh (.task (.emit name payload))))
      (hs : σ'.store = (σ.store.emitInTx name payload targets locked σ.clock).1)
      (hr : σ'.release = Function.update σ.release i (some ⟨.task (.emit name payload),
        (σ.store.waitersOf name payload locked).map RunRow.waiter, [], false⟩))
  | swept (i timeout locked) (hg : σ.release i = some (.fresh (.task .sweep)))
      (hs : σ'.store = (σ.store.sweepEventTimeouts timeout locked).1)
      (hr : σ'.release = Function.update σ.release i (some ⟨.task .sweep,
        (σ.store.sweepEventTimeouts timeout locked).2,
          (σ.store.sweepEventTimeouts timeout locked).2, false⟩))
  | noted (i g w ws) (hg : σ.release i = some g) (ht : g.todo = w :: ws) (hn : g.noted = false)
      (hs : σ'.store =
        σ.store.recordStep w.runId w.stepId .waitForEvent (some timeoutResult) σ.clock)
      (hr : σ'.release = Function.update σ.release i (some { g with noted := true }))
  | pushed (i g w ws) (hg : σ.release i = some g) (ht : g.todo = w :: ws) (hn : g.noted = true)
      (hs : σ'.store = (σ.store.push [workflowExecutionJob w.workflow w.runId 0] σ.clock).1)
      (hr : σ'.release = Function.update σ.release i (some { g with todo := ws, noted := false }))

theorem release_set {i : Nat} {t : Worker} {s : State} (ht : σ.pool[i]? = some t) (u : Worker) :
    Sys.release ⟨s, σ.pool.set i u⟩ = Function.update σ.release i (some u.release) := by
  funext m
  by_cases hm : m = i
  · subst hm
    rw [Function.update_self]
    show ((σ.pool.set m u)[m]?).map _ = _
    rw [List.getElem?_set_self (lt_of_getElem? ht), Option.map_some]
  · rw [Function.update_of_ne hm]
    show ((σ.pool.set i u)[m]?).map _ = (σ.pool[m]?).map _
    rw [List.getElem?_set_ne (Ne.symm hm)]

theorem release_of {m : Nat} {t : Worker} (ht : σ.pool[m]? = some t) :
    σ.release m = some t.release := by
  rw [release, ht]
  rfl

theorem release_same {i : Nat} {t u : Worker} {s : State} (ht : σ.pool[i]? = some t)
    (hu : u.release = t.release) :
    Sys.release ⟨s, σ.pool.set i u⟩ = σ.release := by
  rw [release_set ht, hu, ← release_of ht, Function.update_eq_self]

theorem EventMove.of_same (hs : σ'.store = σ.store) (hr : σ'.release = σ.release) :
    EventMove σ σ' := by
  refine .quiet hs (fun m g hg => ?_) (fun m g hg => .inl ?_)
  · rwa [hr]
  · rwa [hr] at hg

theorem Move.events (h : Move E σ l σ') (hok : σ.keepsSweeps l = true)
    (hI : ∀ (m : Nat) (t : Worker), σ.pool[m]? = some t → Releasing t) : EventMove σ σ' := by
  cases h with
  | ticked => exact .of_same rfl rfl
  | claimed | renewed | recorded => simp [keepsSweeps, eventsOnly] at hok
  | spawned task =>
      refine .quiet rfl (fun m g hg => ?_) (fun m g hg => ?_)
      · obtain ⟨t, ht, rfl⟩ := Option.map_eq_some_iff.mp hg
        have hlt := lt_of_getElem? ht
        refine Option.map_eq_some_iff.mpr ⟨t, ?_, rfl⟩
        rwa [Config.spawn, List.getElem?_append_left hlt]
      · obtain ⟨t, ht, rfl⟩ := Option.map_eq_some_iff.mp hg
        obtain hlt | hge := Nat.lt_or_ge m σ.pool.length
        · rw [Config.spawn, List.getElem?_append_left hlt] at ht
          exact .inl (release_of ht)
        · rw [Config.spawn, List.getElem?_append_right hge, List.getElem?_singleton] at ht
          split at ht
          · cases ht
            exact .inr rfl
          · cases ht
  | crashed i t ht hl => exact .of_same rfl (release_same ht rfl)
  | answered i t op k ch res ht hp hres =>
      refine .of_same rfl (release_same ht ?_)
      show t.release.next op res = t.release
      cases hres with
      | failed c e =>
          have htodo : t.release.todo = [] := by
            simpa [keepsSweeps, eventsOnly, ht, List.isEmpty_iff] using hok
          show { t.release with todo := [] } = t.release
          rw [← htodo]
      | clock | draw => rfl
      | outcome req o => cases o <;> rfl
  | stored i t c k locked ht hp =>
      have hmay := (hI i t ht).mayCall hp
      have hset :=
        @release_set σ i t
          ⟨(c.perform σ.store σ.clock locked).1, σ.clock, State.parks σ.shared.parkedOn c⟩ ht
        (t.answer (.store c) (.ok (c.perform σ.store σ.clock locked).2)
          (k (.ok (c.perform σ.store σ.clock locked).2)))
      have hg := release_of ht
      cases c with
      | emitEvent name payload targets =>
          have hfresh : t.release = .fresh (.task (.emit name payload)) := hmay
          rw [hfresh] at hg
          refine .emitted i name payload targets locked hg rfl
            (hset.trans (congrArg _ (congrArg some ?_)))
          show { t.release with
            waiters := (σ.store.emitInTx name payload targets locked σ.clock).2.waiters } = _
          rw [hfresh, Store.emitInTx_waiters]
          rfl
      | sweepEventTimeouts timeout =>
          have hfresh : t.release = .fresh (.task .sweep) := hmay
          rw [hfresh] at hg
          refine .swept i timeout locked hg rfl (hset.trans (congrArg _ (congrArg some ?_)))
          show Release.mk t.release.kind _ _ t.release.noted = _
          rw [hfresh]
          rfl
      | recordStep id stepId kind result =>
          obtain ⟨w, ws, htodo, hn, rfl, rfl, rfl, rfl⟩ := hmay
          exact .noted i t.release w ws hg htodo hn rfl hset
      | push jobs =>
          obtain ⟨w, ws, htodo, hn, rfl⟩ := hmay
          refine .pushed i t.release w ws hg htodo hn rfl
            (hset.trans (congrArg _ (congrArg some ?_)))
          show { t.release with todo := t.release.todo.tail, noted := false } = _
          rw [htodo]
          rfl
      | _ => exact hmay.elim

end Sys

/-- A change of the store that is about other runs than the row's. -/
structure Leaves (row : RunRow) (s s' : Store) : Prop where
  found : ∀ r, s.runs.get? row.id = some r → s'.runs.get? row.id = some r
  steps : s'.steps.get? (row.id, row.waiter.stepId) = s.steps.get? (row.id, row.waiter.stepId)
  jobs : ∀ j ∈ s.jobs.rows, j ∈ s'.jobs.rows

namespace Leaves

variable {row : RunRow} {s : Store} {now : Time} {locked : List RunId}

theorem refl : Leaves row s s where
  found _ hr := hr
  steps := rfl
  jobs _ hj := hj

theorem emit (name : String) (payload : Json) (targets : List TriggerTarget)
    (hn : ∀ w ∈ s.waitersOf name payload locked, w.id ≠ row.id) :
    Leaves row s (s.emitInTx name payload targets locked now).1 where
  found r hr := by
    rw [Call.emit_runs_of_some name payload targets now locked hr, if_neg]
    intro hw
    exact hn r hw (Table.key_of_get? hr)
  steps := by
    rw [Call.emit_steps, if_neg]
    intro hm
    obtain ⟨w, hw, he⟩ := List.mem_map.mp hm
    exact hn w hw (congrArg Prod.fst he)
  jobs j hj := ((s.emitInTx_grows name payload targets locked now).kept j hj).resolve_left not_false

theorem sweep (timeout : Time)
    (hn : ∀ w ∈ s.runs.select (Store.timedOut timeout locked), w.id ≠ row.id) :
    Leaves row s (s.sweepEventTimeouts timeout locked).1 where
  found r hr := by
    have hu := Table.get?_update s.runs (Store.timedOut timeout locked) (Store.timedOutRow timeout)
      (fun _ => rfl) row.id
    rw [hr, Option.map_some, if_neg] at hu
    · exact hu
    · intro hto
      exact hn r (Table.mem_select.mpr ⟨Table.mem_of_get? hr, hto⟩) (Table.key_of_get? hr)
  steps := rfl
  jobs _ hj := hj

theorem record (w : Waiter) (kind : StepKind) (result : Option Json) (hn : w.runId ≠ row.id) :
    Leaves row s (s.recordStep w.runId w.stepId kind result now) where
  found _ hr := hr
  steps := by
    rw [Store.get?_recordStep, if_neg]
    intro he
    exact hn (congrArg Prod.fst he).symm
  jobs _ hj := hj

theorem push (workflow : String) (id : RunId) (delayMs : Int) :
    Leaves row s (s.push [workflowExecutionJob workflow id delayMs] now).1 where
  found r hr := by rwa [(s.push_runs _ now).1]
  steps := by rw [(s.push_runs _ now).2.1]
  jobs j hj :=
    ((Store.insertJobRow_keeps (workflowExecutionJob workflow id delayMs) rfl s now).kept j
      hj).resolve_left
    not_false

end Leaves

/-- Which side can have released a wait, and with what result. -/
inductive ReleasedBy (row : RunRow) : Kind → Json → Prop
  | event (name payload) (hn : row.waitEvent = some name)
  (hm : matchSubset row.waitMatch payload = true) :
      ReleasedBy row (.task (.emit name payload)) (eventResult payload)
  | timeout (t) (ht : row.wakeAt = some t) : ReleasedBy row (.task .sweep) timeoutResult

/-- The wait is in the journal, with the result unless it was there at the start. -/
structure Noted (s₀ : Store) (row : RunRow) (result : Json) (s : Store) : Prop where
  closed : s.journaled row.id row.waiter.stepId = true
  result : s₀.journaled row.id row.waiter.stepId = false →
    ∃ e, s.steps.get? (row.id, row.waiter.stepId) = some e ∧ e.result = some result

/-- How far a thread has come with a wait that it has released. -/
inductive Progress (s₀ : Store) (row : RunRow) (result : Json) (s : Store) (g : Release) : Prop
  | ahead (hr : result = timeoutResult) (hw : row.waiter ∈ g.todo)
      (hn : g.todo.head? = some row.waiter → g.noted = false)
      (hs : s.steps.get? (row.id, row.waiter.stepId) = s₀.steps.get? (row.id, row.waiter.stepId))
  | noted (ws) (hw : g.todo = row.waiter :: ws) (hn : g.noted = true) (hj : Noted s₀ row result s)
  | done (hw : row.waiter ∉ g.todo) (hj : Noted s₀ row result s)
      (hjob : ∃ j ∈ s.jobs.rows, j.payload = .execution row.id ∧ j.status = .pending)

theorem Noted.leave {s₀ s s' : Store} {row : RunRow} {result : Json} (hn : Noted s₀ row result s)
    (h : Leaves row s s') :
    Noted s₀ row result s' where
  closed := by
    rw [Store.journaled, h.steps]
    exact hn.closed
  result := by
    rw [h.steps]
    exact hn.result

theorem Progress.leave {s₀ s s' : Store} {row : RunRow} {result : Json} {g : Release}
    (hp : Progress s₀ row result s g) (h : Leaves row s s') : Progress s₀ row result s' g := by
  cases hp with
  | ahead hr hw hn hs => exact .ahead hr hw hn (h.steps.trans hs)
  | noted ws hw hn hj => exact .noted ws hw hn (hj.leave h)
  | done hw hj hjob =>
      obtain ⟨j, hj', hp⟩ := hjob
      exact .done hw (hj.leave h) ⟨j, h.jobs j hj', hp⟩

theorem Noted.of_entry {s₀ s s' : Store} {row : RunRow} {result : Json} {now : Time}
    (hs : s.steps.get? (row.id, row.waiter.stepId) = s₀.steps.get? (row.id, row.waiter.stepId))
    (hs' : s'.steps.get? (row.id, row.waiter.stepId) =
    some ((s.steps.get? (row.id, row.waiter.stepId)).elim
      ⟨row.id, row.waiter.stepId, .waitForEvent, true, some result, none, 0, now⟩
      (Store.completeRow .waitForEvent (some result) now))) : Noted s₀ row result s' := by
  cases he : s.steps.get? (row.id, row.waiter.stepId) with
  | none =>
      rw [he, Option.elim_none] at hs'
      exact ⟨by rw [Store.journaled, hs']; rfl, fun _ => ⟨_, hs', rfl⟩⟩
  | some e =>
      rw [he, Option.elim_some] at hs'
      refine ⟨?_, fun hopen => ⟨_, hs', ?_⟩⟩
      · rw [Store.journaled, hs', Option.any_some, Store.completeRow]
        split
        · assumption
        · rfl
      · have hc : e.completed = false := by
          rw [Store.journaled, ← hs, he] at hopen
          exact hopen
        simp [Store.completeRow, hc]

namespace Sys

/-- The wait is as it was, or one thread has released it. -/
inductive WaitState (s₀ : Store) (row : RunRow) (σ : Sys) : Prop
  | waiting (hrow : σ.store.runs.get? row.id = some row)
      (hnone : ∀ m g w, σ.release m = some g → w ∈ g.waiters → w.runId ≠ row.id)
      (hs : σ.store.steps.get? (row.id, row.waiter.stepId) =
        s₀.steps.get? (row.id, row.waiter.stepId))
  | released (i g result) (hg : σ.release i = some g) (hby : ReleasedBy row g.kind result)
    (hw : row.waiter ∈ g.waiters)
      (honly : ∀ m g' w, σ.release m = some g' → w ∈ g'.waiters → w.runId = row.id → m = i)
      (hrow : ∃ r, σ.store.runs.get? row.id = some r ∧ r.status = .runnable)
      (hp : Progress s₀ row result σ.store g)

variable {σ σ' : Sys} {s₀ : Store} {row : RunRow}

def Tidy (σ : Sys) : Prop :=
  ∀ m g, σ.release m = some g → (g.waiters.map Waiter.runId).Nodup ∧ g.todo <:+ g.waiters

theorem WaitState.leave (h : WaitState s₀ row σ) (hl : Leaves row σ.store σ'.store)
    (hold : ∀ m g, σ.release m = some g → row.waiter ∈ g.waiters → ∃ g', σ'.release m = some g' ∧
    g'.kind = g.kind ∧
      g'.waiters = g.waiters ∧ ∀ result, Progress s₀ row result σ.store g →
      Progress s₀ row result σ'.store g')
    (hnew : ∀ m g w, σ'.release m = some g → w ∈ g.waiters → w.runId = row.id →
      ∃ g₀, σ.release m = some g₀ ∧ w ∈ g₀.waiters) : WaitState s₀ row σ' := by
  cases h with
  | waiting hrow hnone hs =>
      refine .waiting (hl.found row hrow) (fun m g w hg hw hid => ?_) (hl.steps.trans hs)
      obtain ⟨g₀, hg₀, hw₀⟩ := hnew m g w hg hw hid
      exact hnone m g₀ w hg₀ hw₀ hid
  | released i g result hg hby hw honly hrow hp =>
      obtain ⟨g', hg', hkind, hwaiters, hprog⟩ := hold i g hg hw
      refine .released i g' result hg' (by rwa [hkind]) (by rwa [hwaiters])
        (fun m g₁ w hg₁ hw₁ hid => ?_) ?_ (hprog result hp)
      · obtain ⟨g₀, hg₀, hw₀⟩ := hnew m g₁ w hg₁ hw₁ hid
        exact honly m g₀ w hg₀ hw₀ hid
      · obtain ⟨r, hr, hs⟩ := hrow
        exact ⟨r, hl.found r hr, hs⟩

theorem release_update {i m : Nat} {g₁ g : Release}
    (hr : σ'.release = Function.update σ.release i (some g₁))
    (hg : σ'.release m = some g) : m = i ∧ g = g₁ ∨ m ≠ i ∧ σ.release m = some g := by
  rw [hr] at hg
  by_cases hm : m = i
  · subst hm
    rw [Function.update_self] at hg
    cases hg
    exact .inl ⟨rfl, rfl⟩
  · rw [Function.update_of_ne hm] at hg
    exact .inr ⟨hm, hg⟩

theorem WaitState.leave_at (h : WaitState s₀ row σ) (hl : Leaves row σ.store σ'.store) {i : Nat}
    {g g₁ : Release}
    (hg : σ.release i = some g) (hr : σ'.release = Function.update σ.release i (some g₁))
    (hold : row.waiter ∈ g.waiters → g₁.kind = g.kind ∧ g₁.waiters = g.waiters ∧
      ∀ result, Progress s₀ row result σ.store g → Progress s₀ row result σ'.store g₁)
    (hnew : ∀ w ∈ g₁.waiters, w.runId = row.id → w ∈ g.waiters) : WaitState s₀ row σ' := by
  refine h.leave hl (fun m g₀ hg₀ hw => ?_) (fun m g₀ w hg₀ hw hid => ?_)
  · by_cases hm : m = i
    · subst hm
      obtain rfl := Option.some.inj (hg.symm.trans hg₀)
      exact ⟨g₁, by rw [hr, Function.update_self], hold hw⟩
    · exact ⟨g₀, by rw [hr, Function.update_of_ne hm]; exact hg₀, rfl, rfl, fun _ hp => hp.leave hl⟩
  · obtain ⟨rfl, rfl⟩ | ⟨_, hold⟩ := release_update hr hg₀
    · exact ⟨g, hg, hnew w hw hid⟩
    · exact ⟨g₀, hold, hw⟩

theorem WaitState.of_waiting (hI : WaitState s₀ row σ) {w : RunRow}
    (hget : σ.store.runs.get? row.id = some w)
    (hs : w.status = .waitEvent) : w = row ∧ σ.store.runs.get? row.id = some row ∧
    (∀ m g w', σ.release m = some g → w' ∈ g.waiters → w'.runId ≠ row.id) ∧
    σ.store.steps.get? (row.id, row.waiter.stepId) = s₀.steps.get? (row.id, row.waiter.stepId) := by
  cases hI with
  | released _ _ _ _ _ _ _ hrow =>
      obtain ⟨r, hr, hrunnable⟩ := hrow
      obtain rfl := Option.some.inj (hget.symm.trans hr)
      rw [hs] at hrunnable
      cases hrunnable
  | waiting hrow hnone hsteps => exact ⟨Option.some.inj (hget.symm.trans hrow), hrow, hnone, hsteps⟩

theorem released_once {i : Nat} {g : Release}
    (hr : σ'.release = Function.update σ.release i (some g))
    (hnone : ∀ m g w', σ.release m = some g → w' ∈ g.waiters → w'.runId ≠ row.id) :
    ∀ m g' w, σ'.release m = some g' → w ∈ g'.waiters → w.runId = row.id → m = i := by
  intro m g' w hg hw hid
  obtain ⟨hm, _⟩ | ⟨_, hold⟩ := release_update hr hg
  · exact hm
  · exact absurd hid (hnone m g' w hold hw)

theorem WaitState.emitted (hI : WaitState s₀ row σ) (hs : σ.store.Sound) {i : Nat} {name : String}
    {payload : Json}
    {targets : List TriggerTarget} {locked : List RunId}
    (hg : σ.release i = some (.fresh (.task (.emit name payload))))
    (hst : σ'.store = (σ.store.emitInTx name payload targets locked σ.clock).1)
    (hr : σ'.release = Function.update σ.release i (some ⟨.task (.emit name payload),
      (σ.store.waitersOf name payload locked).map RunRow.waiter, [], false⟩)) : WaitState s₀ row
        σ' := by
  by_cases hmem : ∃ w ∈ σ.store.waitersOf name payload locked, w.id = row.id
  · obtain ⟨w, hw, hid⟩ := hmem
    obtain ⟨hwrow, hp⟩ := Table.mem_select.mp hw
    simp only [Bool.and_eq_true, decide_eq_true_eq] at hp
    have hget : σ.store.runs.get? row.id = some w := by
      rw [← hid]
      exact Table.get?_key hwrow
    obtain ⟨rfl, hrow, hnone, hsteps⟩ := hI.of_waiting hget hp.1.1.1
    have hrow' := Call.emit_runs_of_some name payload targets σ.clock locked hrow
    rw [if_pos hw, ← hst] at hrow'
    have hin : (w.id, w.waiter.stepId) ∈ (σ.store.waitersOf name payload locked).map
        (fun w => (w.id, w.waitStepId.getD "")) := List.mem_map.mpr ⟨w, hw, rfl⟩
    have hentry :=
      @Call.emit_steps σ.store name payload targets locked σ.clock (w.id, w.waiter.stepId)
    rw [if_pos hin, ← hst] at hentry
    obtain ⟨j, hj, _, hpushed⟩ :=
      σ.store.emitInTx_pushes name payload targets locked σ.clock hs.fresh.jobs hw
    rw [← hst] at hj
    exact .released i _ (eventResult payload) (by rw [hr, Function.update_self])
      (.event name payload hp.1.1.2 hp.2)
      (List.mem_map.mpr ⟨w, hw, rfl⟩) (released_once hr hnone) ⟨_, hrow', rfl⟩
      (.done (fun hmem => by cases hmem) (.of_entry hsteps hentry)
        ⟨j, hj, hpushed.payload, hpushed.status⟩)
  · have hn : ∀ w ∈ σ.store.waitersOf name payload locked, w.id ≠ row.id :=
      fun w hw hid => hmem ⟨w, hw, hid⟩
    refine hI.leave_at (hst ▸ .emit name payload targets hn) hg hr (fun hw => by cases hw)
      (fun w hw hid => ?_)
    obtain ⟨w₀, hw₀, rfl⟩ := List.mem_map.mp hw
    exact absurd hid (hn w₀ hw₀)

theorem WaitState.swept (hI : WaitState s₀ row σ) {i : Nat} {timeout : Time} {locked : List RunId}
    (hg : σ.release i = some (.fresh (.task .sweep)))
    (hst : σ'.store = (σ.store.sweepEventTimeouts timeout locked).1)
    (hr : σ'.release = Function.update σ.release i (some ⟨.task .sweep,
      (σ.store.sweepEventTimeouts timeout locked).2, (σ.store.sweepEventTimeouts timeout locked).2,
      false⟩)) :
    WaitState s₀ row σ' := by
  by_cases hmem : ∃ w ∈ σ.store.runs.select (Store.timedOut timeout locked), w.id = row.id
  · obtain ⟨w, hw, hid⟩ := hmem
    obtain ⟨hwrow, hp⟩ := Table.mem_select.mp hw
    have hstatus : w.status = .waitEvent := by
      simp only [Store.timedOut, Bool.and_eq_true, decide_eq_true_eq] at hp
      exact hp.1.1
    have hget : σ.store.runs.get? row.id = some w := by
      rw [← hid]
      exact Table.get?_key hwrow
    obtain ⟨rfl, hrow, hnone, hsteps⟩ := hI.of_waiting hget hstatus
    have hu := Table.get?_update σ.store.runs (Store.timedOut timeout locked)
      (Store.timedOutRow timeout) (fun _ => rfl) w.id
    rw [hrow, Option.map_some, if_pos hp] at hu
    have hu : σ'.store.runs.get? w.id = some (Store.timedOutRow timeout w) := by
      rw [hst]
      exact hu
    have hwaiter : w.waiter ∈ (σ.store.sweepEventTimeouts timeout locked).2 :=
      List.mem_map.mpr ⟨w, hw, rfl⟩
    obtain ⟨t, ht⟩ : ∃ t, w.wakeAt = some t := by
      cases hwake : w.wakeAt with
      | none => simp [Store.timedOut, hwake] at hp
      | some t => exact ⟨t, rfl⟩
    refine .released i _ timeoutResult (by rw [hr, Function.update_self]) (.timeout t ht) hwaiter
      (released_once hr hnone) ⟨_, hu, rfl⟩ (.ahead rfl hwaiter (fun _ => rfl) ?_)
    rw [hst]
    exact hsteps
  · have hn : ∀ w ∈ σ.store.runs.select (Store.timedOut timeout locked), w.id ≠ row.id :=
      fun w hw hid => hmem ⟨w, hw, hid⟩
    refine hI.leave_at (hst ▸ .sweep timeout hn) hg hr (fun hw => by cases hw) (fun w hw hid => ?_)
    obtain ⟨w₀, hw₀, rfl⟩ := List.mem_map.mp hw
    exact absurd hid (hn w₀ hw₀)

theorem Tidy.waiter_eq (ht : Tidy σ) {m : Nat} {g : Release} (hg : σ.release m = some g)
    {w w' : Waiter}
    (hw : w ∈ g.waiters) (hw' : w' ∈ g.waiters) (he : w.runId = w'.runId) : w = w' :=
  List.inj_on_of_nodup_map (ht m g hg).1 hw hw' he

theorem WaitState.noted (hI : WaitState s₀ row σ) (htidy : Tidy σ) {i : Nat} {g : Release}
    {w : Waiter} {ws : List Waiter}
    (hg : σ.release i = some g) (ht : g.todo = w :: ws) (hn : g.noted = false)
    (hst : σ'.store =
    σ.store.recordStep w.runId w.stepId .waitForEvent (some timeoutResult) σ.clock)
    (hr : σ'.release = Function.update σ.release i (some { g with noted := true })) :
    WaitState s₀ row σ' := by
  have hw : w ∈ g.waiters := (htidy i g hg).2.subset (by simp [ht])
  by_cases hid : w.runId = row.id
  · cases hI with
    | waiting _ hnone _ => exact absurd hid (hnone i g w hg hw)
    | released j g₀ result hg₀ hby hw₀ honly hrow hp =>
        obtain rfl := honly i g w hg hw hid
        obtain rfl := Option.some.inj (hg.symm.trans hg₀)
        obtain rfl := htidy.waiter_eq hg hw hw₀ hid
        have hmem : row.waiter ∈ g.todo := by
          rw [ht]
          exact List.mem_cons_self
        cases hp with
        | noted _ _ hn' _ =>
            rw [hn] at hn'
            cases hn'
        | done hnot => exact absurd hmem hnot
        | ahead hres _ _ hs =>
            subst hres
            have hst : σ'.store =
              σ.store.recordStep row.id row.waiter.stepId .waitForEvent (some timeoutResult)
                σ.clock :=
              hst
            have hentry :=
              σ.store.get?_recordStep row.id row.waiter.stepId .waitForEvent
                (some timeoutResult) σ.clock
              (row.id, row.waiter.stepId)
            rw [if_pos rfl, ← hst] at hentry
            refine .released i { g with noted := true } timeoutResult
              (by rw [hr, Function.update_self]) hby hw
              (fun m g' w' hg' hw' hid' => ?_) ?_ (.noted ws ht rfl (.of_entry hs hentry))
            · obtain ⟨hm, _⟩ | ⟨_, hold⟩ := release_update hr hg'
              · exact hm
              · exact honly m g' w' hold hw' hid'
            · rw [hst]
              exact hrow
  · have hl : Leaves row σ.store σ'.store := by
      rw [hst]
      exact .record w _ _ hid
    refine hI.leave_at hl hg hr (fun _ => ⟨rfl, rfl, fun result hp => ?_⟩) (fun w hw _ => hw)
    cases hp.leave hl with
    | ahead hr hw hn hs =>
        refine .ahead hr hw (fun hhead => ?_) hs
        rw [ht] at hhead
        cases hhead
        exact absurd rfl hid
    | noted ws' hw hn' hj =>
        rw [hn] at hn'
        cases hn'
    | done hw hj hjob => exact .done hw hj hjob

theorem WaitState.pushed (hI : WaitState s₀ row σ) (hs : σ.store.Sound) (htidy : Tidy σ) {i : Nat}
    {g : Release}
    {w : Waiter} {ws : List Waiter}
    (hg : σ.release i = some g) (ht : g.todo = w :: ws) (hn : g.noted = true)
    (hst : σ'.store = (σ.store.push [workflowExecutionJob w.workflow w.runId 0] σ.clock).1)
    (hr : σ'.release = Function.update σ.release i (some { g with todo := ws, noted := false })) :
    WaitState s₀ row σ' := by
  obtain ⟨hnodup, hsuffix⟩ := htidy i g hg
  rw [ht] at hsuffix
  have hw : w ∈ g.waiters := hsuffix.subset List.mem_cons_self
  have hl : Leaves row σ.store σ'.store := by
    rw [hst]
    exact .push w.workflow w.runId 0
  refine hI.leave_at hl hg hr (fun hrow => ⟨rfl, rfl, fun result hp => ?_⟩) (fun w hw _ => hw)
  cases hp.leave hl with
  | ahead hres hmem hhead hs₀ =>
      rw [ht] at hmem hhead
      obtain rfl | hmem := List.mem_cons.mp hmem
      · have hn' := hhead rfl
        rw [hn] at hn'
        cases hn'
      · exact .ahead hres hmem (fun _ => rfl) hs₀
  | noted ws' htodo _ hj =>
      obtain ⟨rfl, rfl⟩ := List.cons.inj (ht.symm.trans htodo)
      refine .done ?_ hj ?_
      · have hnd : ((row.waiter :: ws).map Waiter.runId).Nodup :=
          hnodup.sublist (hsuffix.sublist.map _)
        intro hin
        exact (List.nodup_cons.mp hnd).1 (List.mem_map_of_mem hin)
      · obtain ⟨j, hj, _, hpushed⟩ := Store.mem_push_singleton hs.fresh.jobs
          (workflowExecutionJob row.waiter.workflow row.id 0) σ.clock
        rw [hst]
        exact ⟨j, hj, hpushed.payload, hpushed.status⟩
  | done hnot hj hjob =>
      refine .done (fun hin => hnot ?_) hj hjob
      rw [ht]
      exact List.mem_cons_of_mem w hin

theorem WaitState.move (hI : WaitState s₀ row σ) (hs : σ.store.Sound) (htidy : Tidy σ)
    (h : EventMove σ σ') :
    WaitState s₀ row σ' := by
  cases h with
  | quiet hst hold hnew =>
      have hl : Leaves row σ.store σ'.store := by
        rw [hst]
        exact .refl
      refine hI.leave hl (fun m g hg _ => ⟨g, hold m g hg, rfl, rfl, fun _ hp => hp.leave hl⟩)
        (fun m g w hg hw _ => ?_)
      obtain hg | hnone := hnew m g hg
      · exact ⟨g, hg, hw⟩
      · rw [hnone] at hw
        cases hw
  | emitted i name payload targets locked hg hst hr => exact hI.emitted hs hg hst hr
  | swept i timeout locked hg hst hr => exact hI.swept hg hst hr
  | noted i g w ws hg ht hn hst hr => exact hI.noted htidy hg ht hn hst hr
  | pushed i g w ws hg ht hn hst hr => exact hI.pushed hs htidy hg ht hn hst hr

theorem Tidy.of_releasing (h : ∀ (m : Nat) (t : Worker), σ.pool[m]? = some t → Releasing t) :
    Tidy σ := by
  intro m g hg
  obtain ⟨t, ht, rfl⟩ := Option.map_eq_some_iff.mp hg
  exact ⟨(h m t ht).nodup, (h m t ht).suffix⟩

/-- What becomes of an event wait: nobody has released it, or one emit that
matches or one sweep has, once. When that thread is over, the step has its
result and a job is there for the run. -/
inductive EventWait (s₀ : Store) (row : RunRow) (σ : Sys) : Prop
  | waiting (hrow : σ.store.runs.get? row.id = some row)
      (hnone : ∀ (m : Nat) (t : Worker), σ.pool[m]? = some t →
        ∀ w ∈ t.release.waiters, w.runId ≠ row.id)
  | released (i : Nat) (t : Worker) (result : Json) (ht : σ.pool[i]? = some t)
    (hby : ReleasedBy row t.kind result)
      (hw : row.waiter ∈ t.release.waiters) (honce : (t.release.waiters.map Waiter.runId).Nodup)
      (honly : ∀ (m : Nat) (u : Worker), σ.pool[m]? = some u →
        ∀ w ∈ u.release.waiters, w.runId = row.id → m = i)
      (hrow : ∃ r, σ.store.runs.get? row.id = some r ∧ r.status = .runnable)
      (hend : t.live = false → Noted s₀ row result σ.store ∧
        ∃ j ∈ σ.store.jobs.rows, j.payload = .execution row.id ∧ j.status = .pending)

theorem WaitState.eventWait (h : WaitState s₀ row σ)
    (hI : ∀ (m : Nat) (t : Worker), σ.pool[m]? = some t → Releasing t) : EventWait s₀ row σ := by
  cases h with
  | waiting hrow hnone _ => exact .waiting hrow (fun m t ht w hw => hnone m _ w (release_of ht) hw)
  | released i g result hg hby hw honly hrow hp =>
      obtain ⟨t, ht, rfl⟩ := Option.map_eq_some_iff.mp hg
      rw [Worker.release_kind] at hby
      refine .released i t result ht hby hw (hI i t ht).nodup (fun m u hu w hw hid => ?_) hrow
        (fun hdead => ?_)
      · exact honly m _ w (release_of hu) hw hid
      · have htodo := (hI i t ht).idle hdead
        cases hp with
        | ahead _ hmem =>
            rw [htodo] at hmem
            cases hmem
        | noted _ hcons =>
            rw [htodo] at hcons
            cases hcons
        | done _ hj hjob => exact ⟨hj, hjob⟩

/-- Where no sweep is lost between the release of its waiters and the push of the
last one's job, a run that waits for an event is released at most once, by a
matching emit or by its timeout, and whoever releases it sees it through. -/
theorem event_wait_settled {clock : Time} (hs : s₀.Sound) (hrow : s₀.runs.get? row.id = some row)
    (h : Run (step E) keepsSweeps (init s₀ clock) σ) : EventWait s₀ row σ := by
  have hI : WaitState s₀ row σ ∧ ∀ (m : Nat) (t : Worker), σ.pool[m]? = some t → Releasing t := by
    refine h.invariant
      (fun σ => WaitState s₀ row σ ∧ ∀ (m : Nat) (t : Worker), σ.pool[m]? = some t → Releasing t) ?_
        ?_
    · exact ⟨.waiting hrow (fun m g w hg => by cases hg) rfl, fun m t ht => by cases ht⟩
    · intro σ l σ' hrun hI hok hstep
      have hm := step_move hstep
      have hb := (base_init s₀ clock hs).of_run hrun
      exact ⟨hI.1.move hb.sound (.of_releasing hI.2) (hm.events hok hI.2),
        fun m t => hm.releasing hok hI.2⟩
  exact hI.1.eventWait hI.2

section Sample

def order : NewRun := ⟨"order", .null, none, none, none, none, none⟩

def waitingOrder : Store :=
  (Store.empty.createRun order 0).1.runWaitingEvent 0 "paid" "payment" (some 60000) none 0

def waitingRow : RunRow :=
  Store.waitingEventRow "paid" "payment" (some 60000) none 0 (Store.newRow order 0 0)

theorem waitingOrder_sound : waitingOrder.Sound where
  fresh := (Store.Fresh.empty.perform (.createRun order) 0 []).perform
    (.runWaitingEvent 0 "paid" "payment" (some 60000) none)
    0 []
  plain j hj := by cases hj

theorem event_wait_settled_swept :
    ∃ σ : Sys, waitingOrder.runs.get? waitingRow.id = some waitingRow ∧
    Run (step sampleEngine) keepsSweeps (init waitingOrder 0) σ ∧
    EventWait waitingOrder waitingRow σ := by
  have hrow : waitingOrder.runs.get? waitingRow.id = some waitingRow := by decide +kernel
  obtain ⟨σ, h, _⟩ := Run.exists_of_replay (step sampleEngine) keepsSweeps (init waitingOrder 0)
    [.tick 60000, .spawn .sweep, callOk 0, callOk 0, .spawn (.emit "paid" .null), callOk 1,
      callOk 0, callOk 0]
    (fun _ => true) (by decide +kernel)
  exact ⟨σ, hrow, h, event_wait_settled waitingOrder_sound hrow h⟩

/-- The process dies between the release of a waiter and its job: no later sweep
and no later emit finds the run, which waits for good. -/
theorem crash_strands_waiter :
    ∃ σ : Sys, waitingOrder.Sound ∧ waitingOrder.runs.get? waitingRow.id = some waitingRow ∧
    Run (step sampleEngine) (fun _ l => eventsOnly l) (init waitingOrder 0) σ ∧
    (∃ r, σ.store.runs.get? 0 = some r ∧ r.status = .runnable) ∧ σ.store.jobs.rows = [] ∧
    σ.store.journaled 0 "payment" = false ∧ ¬ EventWait waitingOrder waitingRow σ := by
  have hrow : waitingOrder.runs.get? waitingRow.id = some waitingRow := by decide +kernel
  obtain ⟨σ, h, hp⟩ :=
    Run.exists_of_replay (step sampleEngine) (fun _ l => eventsOnly l) (init waitingOrder 0)
    [.tick 60000, .spawn .sweep, callOk 0, callOk 0, .crash 0, .spawn .sweep, callOk 1, callOk 1,
      .spawn (.emit "paid" .null), callOk 2]
    (fun (σ : Sys) =>
      (σ.pool[0]?).any (fun t : Worker => !t.live && t.release.waiters = [waitingRow.waiter]) &&
      (σ.store.runs.get? 0).any (fun r => r.status = .runnable) && σ.store.jobs.rows.isEmpty &&
      !σ.store.journaled 0 "payment") (by decide +kernel)
  simp only [Bool.and_eq_true, Option.any_eq_true, decide_eq_true_eq, Bool.not_eq_true',
    List.isEmpty_iff] at hp
  obtain ⟨⟨⟨⟨t, ht, hdead, hwaiters⟩, hstatus⟩, hjobs⟩, hsteps⟩ := hp
  have hmem : waitingRow.waiter ∈ t.release.waiters := by
    rw [hwaiters]
    exact List.mem_singleton_self _
  refine ⟨σ, waitingOrder_sound, hrow, h, hstatus, hjobs, hsteps, fun hw => ?_⟩
  cases hw with
  | waiting _ hnone => exact hnone 0 t ht _ hmem rfl
  | released i u result hu _ _ _ honly _ hend =>
      obtain rfl := honly 0 t ht _ hmem rfl
      obtain rfl := Option.some.inj (ht.symm.trans hu)
      obtain ⟨_, j, hj, _⟩ := hend hdead
      rw [hjobs] at hj
      cases hj

end Sample

end Sys

end ZenZip
