import ZenZip.Engine.Pinning
import ZenZip.Runtime.Lineage
import ZenZip.Runtime.Terminal
import ZenZip.Sdk.Versions

namespace ZenZip

open Lib

theorem workflowQueueName_injective : Function.Injective workflowQueueName := by
  intro a b h
  have h := congrArg String.toList h
  rw [workflowQueueName, workflowQueueName, String.toList_append, String.toList_append] at h
  exact String.toList_injective (List.append_cancel_left h)

inductive Learns : (c : Call) → c.Ret → RunId → String → Prop
  | read (id row) : Learns (.getRun id) (some row) row.id row.workflow
  | created (run id new) : Learns (.createRun run) (id, new) id run.workflow
  | swept (t ws w) (hw : w ∈ ws) : Learns (.sweepEventTimeouts t) ws w.runId w.workflow

namespace Lore

theorem mem_runs_after {g : Lore} {c : Call} {v : c.Ret} {r : RunId} {workflow : String}
    (h : (r, workflow) ∈ (g.after c v).runs) : (r, workflow) ∈ g.runs ∨ Learns c v r workflow := by
  cases c with
  | getRun id =>
      cases v with
      | none => exact .inl h
      | some row =>
          rcases List.mem_cons.mp h with he | h
          · cases he
            exact .inr (.read id row)
          · exact .inl h
  | createRun run =>
      obtain ⟨id, new⟩ := v
      rcases List.mem_cons.mp h with he | h
      · cases he
        exact .inr (.created run r new)
      · exact .inl h
  | sweepEventTimeouts t =>
      rcases List.mem_append.mp h with h | h
      · obtain ⟨w, hw, he⟩ := List.mem_map.mp h
        cases he
        exact .inr (.swept t v w hw)
      · exact .inl h
  | _ => exact .inl h

theorem mem_rows_after {g : Lore} {c : Call} {v : c.Ret} {row : RunRow}
    (h : row ∈ (g.after c v).rows) :
    row ∈ g.rows ∨ ∃ id, c = .getRun id ∧ HEq v (some row) := by
  cases c with
  | getRun id =>
      cases v with
      | none => exact .inl h
      | some row' =>
          rcases List.mem_cons.mp h with rfl | h
          · exact .inr ⟨id, rfl, HEq.rfl⟩
          · exact .inl h
  | _ => exact .inl h

theorem after_own (g : Lore) (c : Call) (v : c.Ret) : (g.after c v).own = g.own := by
  cases c with
  | getRun id => cases v <;> rfl
  | _ => rfl

theorem next_own (g : Lore) (op : Op) (r : Except String (Val op)) : (g.next op r).own = g.own := by
  cases op with
  | store c =>
      cases r with
      | ok v => exact g.after_own c v
      | error e => rfl
  | _ => rfl

theorem next_aside {g : Lore} {op : Op} {ch : Choice} {clock : Time} {r : Except String (Val op)}
    (h : Aside clock op ch r) : g.next op r = g := by
  cases h with
  | failed c e => rfl
  | clock | draw => rfl
  | outcome req o => cases o <;> rfl

end Lore

theorem Learns.holds {s : Store} {now : Time} {locked : List RunId} {c : Call} {r : RunId}
    {workflow : String}
    (hf : s.Fresh) (h : Learns c (c.perform s now locked).2 r workflow) :
    r < (c.perform s now locked).1.nextId ∧
      ∀ row, (c.perform s now locked).1.runs.get? r = some row → row.workflow = workflow := by
  generalize hv : (c.perform s now locked).2 = v at h
  cases h with
  | read id row =>
      have hrow : s.runs.get? id = some row := hv
      obtain rfl := Table.key_of_get? hrow
      exact ⟨hf.runs _ row hrow, fun row' h => by rw [Option.some.inj (h.symm.trans hrow)]⟩
  | created run _ new =>
      have hv : (s.createRun run now).2 = (r, new) := hv
      show r < (s.createRun run now).1.nextId ∧
        ∀ row, (s.createRun run now).1.runs.get? r = some row → _
      obtain ⟨id, hfound, he⟩ | ⟨_, he⟩ := s.createRun_cases run now
      · rw [he] at hv ⊢
        cases hv
        obtain ⟨row, hrow, hw, _⟩ := Store.runOfKey_eq_some hfound
        exact ⟨hf.runs _ row hrow, fun row' h => by rw [Option.some.inj (h.symm.trans hrow), hw]⟩
      · rw [he] at hv ⊢
        cases hv
        refine ⟨Nat.lt_succ_self _, fun row h => ?_⟩
        rw [Store.get?_addRun, if_pos rfl] at h
        cases hold : s.runs.get? s.nextId with
        | some row₀ => exact absurd (hf.runs _ row₀ hold) (Nat.lt_irrefl _)
        | none =>
            rw [hold] at h
            cases h
            rfl
  | swept t _ w hw =>
      rw [← hv] at hw
      obtain ⟨row, hrow, rfl⟩ := List.mem_map.mp hw
      obtain ⟨hrow, _⟩ := Table.mem_select.mp hrow
      refine ⟨hf.runs _ row (Table.get?_key hrow), fun row' h => ?_⟩
      have hu := Table.get?_update s.runs (Store.timedOut t locked) (Store.timedOutRow t)
        (fun _ => rfl) row.id
      rw [Table.get?_key hrow, Option.map_some] at hu
      obtain rfl := Option.some.inj (h.symm.trans hu)
      split <;> rfl

namespace Kind

def workflow? : Kind → Option String
  | .worker workflow _ => some workflow
  | .task _ => none

end Kind

namespace Worker

def lore (t : Worker) : Lore := (pinning (fun _ _ => True)).ghost (.start t.kind.workflow?) t.log

def request? (t : Worker) : Option ExecRequest :=
  match t.prog with
  | .call (.executor req) _ => some req
  | _ => none

theorem request?_eq_some {t : Worker} {req : ExecRequest} (h : t.request? = some req) :
    ∃ k, t.prog = .call (.executor req) k := by
  unfold request? at h
  split at h
  · next k hp =>
      cases h
      exact ⟨k, hp⟩
  · cases h

theorem lore_answer (t : Worker) (op : Op) (r : Except String (Val op)) (p : M Reply) :
    Worker.lore (t.answer op r p) = t.lore.next op r := rfl

theorem lore_own (t : Worker) : t.lore.own = t.kind.workflow? := by
  unfold lore
  induction t.log with
  | nil => rfl
  | cons e l ih =>
      exact (Lore.next_own _ e.op e.res).trans ih

end Worker

namespace Sys

variable {E : WorkflowEngine} {σ σ' : Sys} {l : Label} {P : String → Option String → Prop}

/-- Versions and queues in a state: each run has a version that its workflow may have, each
job of a run waits in the queue of its workflow, and the threads have been told so. -/
structure Pinned (P : String → Option String → Prop) (σ : Sys) : Prop where
  versions : ∀ id row, σ.store.runs.get? id = some row → P row.workflow row.version
  queues : ∀ j ∈ σ.store.jobs.rows, ∀ r row, j.payload = .execution r →
    σ.store.runs.get? r = some row →
    j.queue = workflowQueueName row.workflow
  follows : ∀ (i : Nat) (t : Worker), σ.pool[i]? = some t → Lore.Follows P t.prog t.lore
  runs : ∀ (i : Nat) (t : Worker) r workflow, σ.pool[i]? = some t → (r, workflow) ∈ t.lore.runs →
    r < σ.store.nextId ∧ ∀ row, σ.store.runs.get? r = some row → row.workflow = workflow
  rows : ∀ (i : Nat) (t : Worker) row, σ.pool[i]? = some t → row ∈ t.lore.rows →
    P row.workflow row.version ∧
    ∀ workflow, t.kind.workflow? = some workflow → t.kind.run? = some row.id →
      row.workflow = workflow
  workers : ∀ (i : Nat) (t : Worker) workflow r row, σ.pool[i]? = some t →
    t.kind.workflow? = some workflow →
    t.kind.run? = some r → σ.store.runs.get? r = some row → row.workflow = workflow

theorem pinned_init (clock : Time) : (init .empty clock).Pinned P where
  versions id row h := by cases h
  queues j h := by cases h
  follows i t h := by cases h
  runs i t r workflow h := by cases h
  rows i t row h := by cases h
  workers i t workflow r row h := by cases h

theorem Move.row_before (h : Move E σ l σ') (hf : σ.store.Fresh) {r : RunId} {row : RunRow}
    (hlt : r < σ.store.nextId)
    (hrow : σ'.store.runs.get? r = some row) :
    ∃ row₀, σ.store.runs.get? r = some row₀ ∧ row.workflow = row₀.workflow ∧
    row.version = row₀.version := by
  obtain ⟨row₀, hrow₀, rfl | ⟨_, _, c, _, hch⟩⟩ | ⟨hnone, _⟩ := h.run_origin hf hrow
  · exact ⟨row, hrow₀, rfl, rfl⟩
  · exact ⟨row₀, hrow₀, hch.workflow_eq, hch.version_eq⟩
  · rw [h.deleted hf hlt hnone] at hrow
    cases hrow

theorem Move.workflow_kept (h : Move E σ l σ') (hf : σ.store.Fresh) {r : RunId} {workflow : String}
    (hI : r < σ.store.nextId ∧ ∀ row, σ.store.runs.get? r = some row → row.workflow = workflow) :
    r < σ'.store.nextId ∧ ∀ row, σ'.store.runs.get? r = some row → row.workflow = workflow := by
  refine ⟨Nat.lt_of_lt_of_le hI.1 h.nextId_le, fun row hrow => ?_⟩
  obtain ⟨row₀, hrow₀, hw, _⟩ := h.row_before hf hI.1 hrow
  exact hw.trans (hI.2 row₀ hrow₀)

theorem Pinned.allowed (hI : σ.Pinned P) {i : Nat} {t : Worker} {op : Op}
    {k : Except String (Val op) → M Reply}
    (ht : σ.pool[i]? = some t) (hp : t.prog = .call op k) : t.lore.allowed P op := by
  have hfollows := hI.follows i t ht
  rw [hp] at hfollows
  exact hfollows.1

theorem Pinned.calling (hI : σ.Pinned P) {i : Nat} {t : Worker} {c : Call}
    (hc : σ.Calling l i t c) :
    t.lore.allowed P (.store c) := by
  obtain ⟨k, hp⟩ := hc.prog
  exact hI.allowed hc.thread hp

theorem Calling.started {i : Nat} {t : Worker} {name : String} {payload : Json}
    {targets : List TriggerTarget}
    (hc : σ.Calling l i t (.emitEvent name payload targets)) (h : Move E σ l σ')
    (hf : σ.store.Fresh) {id : RunId}
    {row : RunRow} (hnone : σ.store.runs.get? id = none) (hrow : σ'.store.runs.get? id = some row) :
    ∃ tg ∈ targets, row.workflow = tg.workflow ∧ row.version = tg.version ∧
      ∃ j ∈ σ'.store.jobs.rows, σ.store.nextId ≤ j.id ∧ Store.Pushed σ.clock
        (workflowExecutionJob tg.workflow id 0) j := by
  obtain ⟨k, locked, _, _, rfl, _⟩ := hc.answered h
  obtain hn | ⟨tg, htg, _, _, hnew, j, hj, hge, hp⟩ :=
    σ.store.get?_emitInTx_of_none name payload targets locked σ.clock hf.jobs hnone
  · exact absurd (hrow.symm.trans hn) nofun
  · obtain rfl := Option.some.inj (hrow.symm.trans hnew)
    exact ⟨tg, htg, rfl, rfl, j, hj, hge, hp⟩

theorem Move.versions (h : Move E σ l σ') (hb : σ.Base) (hI : σ.Pinned P) {id : RunId}
    {row : RunRow}
    (hrow : σ'.store.runs.get? id = some row) : P row.workflow row.version := by
  obtain ⟨r, hr, rfl | ⟨_, _, c, _, hch⟩⟩ | ⟨hnone, i, t,
    ⟨run, hc, rfl, rfl⟩ | ⟨_, _, _, _, hc, _⟩⟩ :=
    h.run_origin hb.fresh hrow
  · exact hI.versions id row hr
  · rw [hch.workflow_eq, hch.version_eq]
    exact hI.versions id r hr
  · exact hI.calling hc
  · obtain ⟨tg, htg, hw, hv, _⟩ := hc.started h hb.fresh hnone hrow
    rw [hw, hv]
    exact hI.calling hc tg htg

theorem JobMove.queue_eq {j j' : JobRow} (h : JobMove E σ l j j') : j'.queue = j.queue := by
  cases h with
  | same | claimed | renewed => rfl
  | called _ _ _ _ _ _ _ hch => exact hch.frame.2.2.2.2.1

/-- An emit pushes no second job for a run that it starts. -/
theorem Calling.started_queue {i : Nat} {t : Worker} {name : String} {payload : Json}
    {targets : List TriggerTarget}
    (hc : σ.Calling l i t (.emitEvent name payload targets)) (h : Move E σ l σ')
    (hf : σ.store.Fresh) {id : RunId}
    {row : RunRow} {j : JobRow} (hge : σ.store.nextId ≤ id)
    (hrow : σ'.store.runs.get? id = some row)
    (hj : j ∈ σ'.store.jobs.rows) (hjge : σ.store.nextId ≤ j.id) (hp : j.payload = .execution id) :
    j.queue = workflowQueueName row.workflow := by
  have hnone : σ.store.runs.get? id = none := by
    cases hr : σ.store.runs.get? id with
    | none => rfl
    | some r => exact absurd (hf.runs id r hr) (Nat.not_lt_of_le hge)
  obtain ⟨tg, _, hw, _, j', hj', hge', hp'⟩ := hc.started h hf hnone hrow
  obtain ⟨k, locked, _, _, rfl, _⟩ := hc.answered h
  have hone := Store.emitInTx_oneEach σ.store name payload targets locked σ.clock hf.jobs
    (fun r hr => hf.runs r.id r (Table.get?_key hr))
  obtain rfl : j = j' := hone.inj j hj j' hj' hjge hge' (hp.trans hp'.payload.symm)
  rw [hw]
  exact hp'.queue

theorem Move.queues (h : Move E σ l σ') (hb : σ.Base) (hI : σ.Pinned P) {j : JobRow} {r : RunId}
    {row : RunRow}
    (hj : j ∈ σ'.store.jobs.rows) (hp : j.payload = .execution r)
    (hrow : σ'.store.runs.get? r = some row) :
    j.queue = workflowQueueName row.workflow := by
  obtain ⟨j₀, hj₀, hm⟩ | ⟨i, t, c, hc, hge, _, hn⟩ := h.job_origin hj
  · have hp₀ : j₀.payload = .execution r := hm.frame.2.1.symm.trans hp
    obtain ⟨row₀, hrow₀, hw, _⟩ := h.row_before hb.fresh (hb.plain j₀ hj₀ r hp₀).2 hrow
    rw [hm.queue_eq, hw]
    exact hI.queues j₀ hj₀ r row₀ hp₀ hrow₀
  · cases hn with
    | pushed _ job jobs hjob hpushed =>
        have hrun : job.run? = some r := by
          rw [PushJob.run?, ← hpushed.payload, hp]
          rfl
        obtain ⟨workflow, hknown, hq⟩ := hI.calling hc job hjob r hrun
        obtain ⟨_, hw⟩ := h.workflow_kept hb.fresh (hI.runs i t r workflow hc.thread hknown)
        rw [hpushed.queue, hq, hw row hrow]
    | released _ waiter name payload targets locked hwaiter hpushed =>
        obtain ⟨hwaiting, _⟩ := Table.mem_select.mp hwaiter
        have he := hpushed.payload.symm.trans hp
        cases he
        obtain ⟨row₀, hrow₀, hw, _⟩ :=
          h.row_before hb.fresh (hb.fresh.runs _ waiter (Table.get?_key hwaiting)) hrow
        obtain rfl := Option.some.inj ((Table.get?_key hwaiting).symm.trans hrow₀)
        rw [hw]
        exact hpushed.queue
    | started _ tg id name payload targets _ hid _ hpushed =>
        have he := hpushed.payload.symm.trans hp
        cases he
        exact hc.started_queue h hb.fresh hid hrow hj hge hpushed.payload

theorem Move.follows (h : Move E σ l σ') (hE : E.Pins P)
    (hreg : ∀ task, l = .spawn task → task.registered E = true)
    (hI : σ.Pinned P) {i : Nat} {t : Worker} (ht : σ'.pool[i]? = some t) :
    Lore.Follows P t.prog t.lore := by
  cases h.thread ht with
  | stays _ ht₀ => exact hI.follows i t ht₀
  | spawned task ha he =>
      subst he
      exact Lore.follows_task hE ha (hreg task rfl)
  | claimed workflow _ _ cj _ _ _ he =>
      subst he
      exact Lore.follows_runGroup hE workflow cj
  | crashed _ _ _ he =>
      subst he
      trivial
  | answered t₀ op k ch r ht₀ hp hr he =>
      subst he
      have hfollows := hI.follows i t₀ ht₀
      rw [hp] at hfollows
      exact hfollows.2 r hr.answers
  | stored t₀ c k locked ht₀ hp he =>
      subst he
      have hfollows := hI.follows i t₀ ht₀
      rw [hp] at hfollows
      exact hfollows.2 _ (Call.answers_perform ..)

theorem Move.lore_runs (h : Move E σ l σ') (hb : σ.Base) (hI : σ.Pinned P) {i : Nat} {t : Worker}
    {r : RunId}
    {workflow : String} (ht : σ'.pool[i]? = some t) (hr : (r, workflow) ∈ t.lore.runs) :
    r < σ'.store.nextId ∧ ∀ row, σ'.store.runs.get? r = some row → row.workflow = workflow := by
  have hkeep {t₀ : Worker} (ht₀ : σ.pool[i]? = some t₀) (hr₀ : (r, workflow) ∈ t₀.lore.runs) :=
    h.workflow_kept hb.fresh (hI.runs i t₀ r workflow ht₀ hr₀)
  cases h.thread ht with
  | stays _ ht₀ => exact hkeep ht₀ hr
  | spawned _ _ he | claimed _ _ _ _ _ _ _ he =>
      subst he
      cases hr
  | crashed t₀ ht₀ _ he =>
      subst he
      exact @hkeep t₀ ht₀ hr
  | answered t₀ op k ch res ht₀ hp hres he =>
      subst he
      rw [Worker.lore_answer, Lore.next_aside hres] at hr
      exact hkeep ht₀ hr
  | stored t₀ c k locked ht₀ hp he =>
      subst he
      rw [Worker.lore_answer] at hr
      obtain hr | hl := Lore.mem_runs_after hr
      · exact hkeep ht₀ hr
      · rw [h.eq_stored ht₀ hp]
        exact hl.holds hb.fresh

theorem Move.lore_rows (h : Move E σ l σ') (hI : σ.Pinned P) {i : Nat} {t : Worker} {row : RunRow}
    (ht : σ'.pool[i]? = some t) (hr : row ∈ t.lore.rows) : P row.workflow row.version ∧
    ∀ workflow, t.kind.workflow? = some workflow → t.kind.run? = some row.id →
    row.workflow = workflow := by
  cases h.thread ht with
  | stays _ ht₀ => exact hI.rows i t row ht₀ hr
  | spawned _ _ he | claimed _ _ _ _ _ _ _ he =>
      subst he
      cases hr
  | crashed t₀ ht₀ _ he =>
      subst he
      exact hI.rows i t₀ row ht₀ hr
  | answered t₀ op k ch res ht₀ hp hres he =>
      subst he
      rw [Worker.lore_answer, Lore.next_aside hres] at hr
      exact hI.rows i t₀ row ht₀ hr
  | stored t₀ c k locked ht₀ hp he =>
      subst he
      rw [Worker.lore_answer] at hr
      obtain hr | ⟨id, rfl, hv⟩ := Lore.mem_rows_after hr
      · exact hI.rows i t₀ row ht₀ hr
      · have hrow : σ.store.runs.get? id = some row := eq_of_heq hv
        obtain rfl := Table.key_of_get? hrow
        exact ⟨hI.versions _ row hrow,
          fun workflow hw hid => hI.workers i t₀ workflow _ row ht₀ hw hid hrow⟩

theorem Move.workers (h : Move E σ l σ') (hb : σ.Base) (hI : σ.Pinned P) {i : Nat} {t : Worker}
    {workflow : String}
    {r : RunId} {row : RunRow} (ht : σ'.pool[i]? = some t) (hw : t.kind.workflow? = some workflow)
    (hr : t.kind.run? = some r) (hrow : σ'.store.runs.get? r = some row) :
    row.workflow = workflow := by
  have hkeep {t₀ : Worker} (ht₀ : σ.pool[i]? = some t₀) (hk : t.kind = t₀.kind) : row.workflow =
    workflow := by
    rw [hk] at hw hr
    obtain ⟨row₀, hrow₀, he, _⟩ := h.row_before hb.fresh (hb.run_lt i t₀ r ht₀ hr) hrow
    exact he.trans (hI.workers i t₀ workflow r row₀ ht₀ hw hr hrow₀)
  cases h.thread ht with
  | stays _ ht₀ => exact hkeep ht₀ rfl
  | spawned _ _ he =>
      subst he
      cases hw
  | claimed workflow' limit cfg cj hcfg _ hcj he =>
      subst he
      cases hw
      obtain ⟨j, hj, hid, _, _, hpay⟩ := mem_claimOf (List.mem_of_getElem? hcj)
      obtain ⟨cj', hcj', hexec⟩ := Kind.job?_of_run? hr
      cases hcj'
      have hp : j.payload = .execution r := hpay.symm.trans hexec
      obtain ⟨row₀, hrow₀, hw, _⟩ := h.row_before hb.fresh (hb.plain j hj r hp).2 hrow
      rw [hw]
      apply workflowQueueName_injective
      rw [← hI.queues j hj r row₀ hp hrow₀, (claimIds_row hj hid).1]
  | crashed t₀ ht₀ _ he | answered t₀ _ _ _ _ ht₀ _ _ he | stored t₀ _ _ _ ht₀ _ he =>
      subst he
      exact hkeep ht₀ rfl

theorem Move.pinned (h : Move E σ l σ') (hE : E.Pins P)
    (hreg : ∀ task, l = .spawn task → task.registered E = true)
    (hb : σ.Base) (hI : σ.Pinned P) : σ'.Pinned P where
  versions _ _ := h.versions hb hI
  queues _ hj _ _ := h.queues hb hI hj
  follows _ _ := h.follows hE hreg hI
  runs _ _ _ _ := h.lore_runs hb hI
  rows _ _ _ := h.lore_rows hI
  workers _ _ _ _ _ := h.workers hb hI

theorem Pinned.executor (hI : σ.Pinned P) {i : Nat} {t : Worker} {req : ExecRequest}
    {k : Except String ExecOutcome → M Reply} (ht : σ.pool[i]? = some t)
    (hp : t.prog = .call (.executor req) k)
    (hrun : t.kind.run? = some req.runId) : P req.workflow req.version := by
  obtain ⟨hown, row, hrow, hid, hv⟩ := hI.allowed ht hp
  obtain ⟨hversion, hw⟩ := hI.rows i t row ht hrow
  rw [t.lore_own] at hown
  rw [← hv, ← hw req.workflow hown (by rw [hid]; exact hrun)]
  exact hversion

end Sys

/-- The workflows that a process has registered, and what it tells the engine of them
besides their versions. -/
structure Deploy (F : Type) where
  workflows : Table (Prod.fst : String × Workflow F → String)
  options : String → WorkflowConfig

namespace Deploy

variable {F : Type}

def config (d : Deploy F) (w : String × Workflow F) : WorkflowConfig :=
  { d.options w.1 with name := w.1, version := some w.2.current.version }

def engine (d : Deploy F) : WorkflowEngine := ⟨d.workflows.rows.map d.config⟩

def handle (d : Deploy F) (name : String) : Option (Workflow F) :=
  (d.workflows.get? name).map Prod.snd

end Deploy

section Fleet

variable {ι F : Type} (D : ι → Deploy F)

/-- The processes of a fleet, old and new ones, share a store; each step is one of theirs. -/
def fleetStep (σ : Sys) (l : ι × Label) : Option Sys := σ.step (D l.1).engine l.2

def handled (_ : Sys) (l : ι × Label) : Bool :=
  match l.2 with
  | .spawn task => task.registered (D l.1).engine
  | _ => true

def MayHave (name : String) (version : Option String) : Prop :=
  ∃ i w, (D i).handle name = some w ∧ version = some w.current.version

variable {D}

theorem engine_pins (i : ι) : (D i).engine.Pins (MayHave D) := by
  intro c hc
  obtain ⟨w, hw, rfl⟩ := List.mem_map.mp hc
  exact ⟨i, w.2, congrArg (Option.map Prod.snd) (Table.get?_key hw), rfl⟩

theorem pinned_of_run {clock : Time} {σ : Sys}
    (h : Run (fleetStep D) (handled D) (.init .empty clock) σ) :
    σ.Base ∧ σ.Pinned (MayHave D) := by
  refine h.invariant (fun σ => σ.Base ∧ σ.Pinned (MayHave D))
    ⟨Sys.base_init .empty clock Store.sound_empty, Sys.pinned_init clock⟩ ?_
  rintro σ ⟨i, l⟩ σ' _ ⟨hb, hI⟩ hok hs
  have hmove := Sys.step_move hs
  refine ⟨hmove.base hb, hmove.pinned (engine_pins i) ?_ hb hI⟩
  rintro task rfl
  exact hok

/-- Runs stay with the definition they were started with. Whatever processes an attempt
passes through, one that still has that definition runs it, and any other one warns. -/
theorem runs_pinned {clock : Time} {σ : Sys}
    (h : Run (fleetStep D) (handled D) (.init .empty clock) σ) {i : Nat}
    {t : Worker} {req : ExecRequest} (ht : σ.pool[i]? = some t) (hreq : t.request? = some req) :
    ∃ d : Definition F, (∃ j w, (D j).handle req.workflow = some w ∧ w.current = d) ∧
    req.version = some d.version ∧
      ∀ j w, (D j).handle req.workflow = some w →
        (w.knows d → (∀ d', w.knows d' → d'.version = d.version → d'.source = d.source) →
          (w.route req.version).source = d.source ∧
            Workflow.warns (w.route req.version).version req.version = false) ∧
        ((w.route req.version).version ≠ d.version →
          Workflow.warns (w.route req.version).version req.version = true) := by
  obtain ⟨hb, hI⟩ := pinned_of_run h
  obtain ⟨k, hp⟩ := Worker.request?_eq_some hreq
  have hown := ((hb.obeys i t ht (Thread.live_of_call hp)).allowed hp).1
  rw [(Worker.track_own t).1] at hown
  obtain ⟨j, w, hw, hv⟩ := hI.executor ht hp hown
  refine ⟨w.current, ⟨j, w, hw, rfl⟩, hv, ?_⟩
  intro j' w' _
  rw [hv]
  refine ⟨fun hknows hdistinct => ⟨?_, Workflow.warns_eq_false hknows⟩,
    (Workflow.warns_iff w' w.current).mpr⟩
  exact hdistinct _ (w'.knows_route _) (Workflow.route_of_knows hknows)

end Fleet

section Sample

open Sys

def oldOrder : Definition Unit := ⟨[111], ()⟩

def newOrder : Definition Unit := ⟨[110], ()⟩

def sampleFleet : Bool → Deploy Unit
  | false => ⟨⟨[("order", .new oldOrder)], by decide⟩, .new⟩
  | true => ⟨⟨[("order", (Workflow.new newOrder).version oldOrder)], by decide⟩, .new⟩

def overtaken : List (Bool × Label) :=
  [(false, .spawn (.trigger "order" .null none 0 none)), (false, callOk 0), (false, callOk 0),
    (true, .claim "order" 1), (true, callOk 1), (true, callOk 1)]

theorem sampleFleet_handle {b : Bool} {name : String} {w : Workflow Unit}
    (h : (sampleFleet b).handle name = some w) :
    w = if b then (Workflow.new newOrder).version oldOrder else .new oldOrder := by
  obtain ⟨e, he, rfl⟩ := Option.map_eq_some_iff.mp h
  have hmem := Table.mem_of_get? he
  cases b with
  | false | true =>
      obtain rfl := List.mem_singleton.mp hmem
      rfl

theorem runs_pinned_overtaken : ∃ σ,
    Run (fleetStep sampleFleet) (handled sampleFleet) (.init .empty 0) σ ∧
    ∃ (t : Worker) (req : ExecRequest) (w : Workflow Unit), σ.pool[1]? = some t ∧
    t.request? = some req ∧
      (sampleFleet true).handle req.workflow = some w ∧ w.current = newOrder ∧
      (w.route req.version).source = oldOrder.source := by
  obtain ⟨σ, h, hp⟩ :=
    Run.exists_of_replay (fleetStep sampleFleet) (handled sampleFleet) (.init .empty 0) overtaken
    (fun σ => ((σ.pool[1]?).bind Worker.request?).any (fun req => req.workflow = "order" &&
      req.version = some oldOrder.version)) (by decide +kernel)
  rw [Option.any_eq_true] at hp
  obtain ⟨req, hreq, hp⟩ := hp
  rw [Bool.and_eq_true, decide_eq_true_eq, decide_eq_true_eq] at hp
  obtain ⟨t, ht, hreq⟩ := Option.bind_eq_some_iff.mp hreq
  have hhandle : (sampleFleet true).handle req.workflow =
    some ((Workflow.new newOrder).version oldOrder) := by
    rw [hp.1]
    rfl
  have hne : newOrder.version ≠ oldOrder.version := by decide +kernel
  obtain ⟨d, ⟨j, w, hw, hd⟩, hv, hall⟩ := runs_pinned h ht hreq
  have hold : d = oldOrder := by
    obtain rfl := sampleFleet_handle hw
    cases j with
    | false => exact hd.symm
    | true =>
        subst hd
        exact absurd (Option.some.inj (hv.symm.trans hp.2)) hne
  subst hold
  have hlegacy := Workflow.legacy?_version (Workflow.new newOrder) oldOrder
  refine ⟨σ, h, t, req, _, ht, hreq, hhandle, rfl,
    ((hall true _ hhandle).1 (.inr ⟨_, hlegacy⟩) ?_).1⟩
  rintro d' (rfl | ⟨v, hv'⟩) hver
  · exact absurd hver hne
  · obtain rfl := Workflow.version_of_legacy? hv'
    rw [hver] at hv'
    rw [Option.some.inj (hv'.symm.trans hlegacy)]

end Sample

end ZenZip
