import ZenZip.Runtime.Trigger

namespace ZenZip

open Lib

/-- The unique columns of a run. -/
def RunRow.named (workflow : String) (key : IdempotencyKey) (r : RunRow) : Bool :=
  r.workflow = workflow && r.idempotencyKey = some key

namespace Store

def KeysUnique (s : Store) : Prop :=
  ∀ workflow key id r id' r', s.runs.get? id = some r → s.runs.get? id' = some r' →
  r.named workflow key = true → r'.named workflow key = true → id = id'

variable {s : Store} {workflow : String} {key : IdempotencyKey} {id : RunId} {r : RunRow}

theorem runOfKey_ne_none (h : s.runs.get? id = some r) (hr : r.named workflow key = true) :
    s.runOfKey workflow (some key) ≠ none := by
  intro hn
  have hnone := List.find?_eq_none.mp (Option.map_eq_none_iff.mp hn) r (Table.mem_of_get? h)
  exact hnone hr

theorem named_of_runOfKey (h : s.runOfKey workflow (some key) = some id) :
    ∃ r, s.runs.get? id = some r ∧ r.named workflow key = true := by
  obtain ⟨r, hr, hw, hk⟩ := runOfKey_eq_some h
  refine ⟨r, hr, ?_⟩
  rw [RunRow.named, hw, hk]
  simp

theorem named_newRow {run : NewRun} {now : Time}
    (h : (newRow run id now).named workflow key = true) :
    run.workflow = workflow ∧ run.idempotencyKey = some key := by
  rw [RunRow.named, Bool.and_eq_true] at h
  exact ⟨of_decide_eq_true h.1, of_decide_eq_true h.2⟩

end Store

namespace Call

def deletes : Call → RunRow → Bool
  | .gc (some before) _, r => Store.aged before r
  | .purgeSubject subject, r => r.subject = some subject
  | _, _ => false

variable {s : Store} {now : Time} {locked : List RunId} {workflow : String} {key : IdempotencyKey}
  {id : RunId}
  {r : RunRow}

theorem perform_named {c : Call} (hc : c.deletes r = false) (h : s.runs.get? id = some r)
    (hr : r.named workflow key = true) :
    ∃ r', (c.perform s now locked).1.runs.get? id = some r' ∧ r'.named workflow key = true := by
  obtain hs | ⟨r', hch, hs⟩ | ⟨hd, hn⟩ := perform_run_cases c now locked h
  · exact ⟨r, hs, hr⟩
  · refine ⟨r', hs, ?_⟩
    rwa [RunRow.named, hch.workflow_eq, hch.idempotencyKey_eq]
  · exfalso
    cases c with
    | gc runBefore eventBefore =>
        cases runBefore with
        | none => exact absurd (h.symm.trans hn) nofun
        | some before =>
            have hc : Store.aged before r = false := hc
            have hn' : (s.runs.delete (Store.aged before)).get? id = none := hn
            rw [Table.get?_delete, h, Option.filter_some, hc] at hn'
            cases hn'
    | purgeSubject subject =>
        have hc : decide (r.subject = some subject) = false := hc
        have hn' : (s.runs.delete (fun r => decide (r.subject = some subject))).get? id = none := hn
        rw [Table.get?_delete, h, Option.filter_some, hc] at hn'
        cases hn'
    | _ => cases hd

theorem named_origin (c : Call) (hf : ∀ j ∈ s.jobs.rows, j.id < s.nextId)
    (h : (c.perform s now locked).1.runs.get? id = some r) (hr : r.named workflow key = true) :
    (∃ r₀, s.runs.get? id = some r₀ ∧ r₀.named workflow key = true) ∨
      ∃ run, c = .createRun run ∧ id = s.nextId ∧ s.runOfKey workflow (some key) = none := by
  cases hs : s.runs.get? id with
  | some r₀ =>
      refine .inl ⟨r₀, rfl, ?_⟩
      obtain he | ⟨r', hch, he⟩ | ⟨_, hn⟩ := perform_run_cases c now locked hs
      · obtain rfl : r₀ = r := Option.some.inj (he.symm.trans h)
        exact hr
      · obtain rfl : r' = r := Option.some.inj (he.symm.trans h)
        rwa [RunRow.named, ← hch.workflow_eq, ← hch.idempotencyKey_eq]
      · exact absurd (h.symm.trans hn) nofun
  | none =>
      obtain hn | ⟨run, rfl, rfl, hnew, hrow⟩ | ⟨name, payload, targets, rfl, t, _, _, _,
        hrow, _⟩ :=
        perform_run_of_none c now locked hf hs
      · exact absurd (h.symm.trans hn) nofun
      · obtain rfl := Option.some.inj (hrow.symm.trans h)
        obtain ⟨rfl, hk⟩ := Store.named_newRow hr
        refine .inr ⟨run, rfl, rfl, ?_⟩
        obtain ⟨id', _, hold⟩ | ⟨hn, _⟩ := s.createRun_cases run now
        · have hids := congrArg (fun p => p.2.2) (hold.symm.trans hnew)
          cases hids
        · rwa [hk] at hn
      · obtain rfl := Option.some.inj (hrow.symm.trans h)
        cases (Store.named_newRow hr).2

theorem perform_keysUnique (c : Call) (hf : ∀ j ∈ s.jobs.rows, j.id < s.nextId) (h : s.KeysUnique) :
    (c.perform s now locked).1.KeysUnique := by
  intro workflow key id r id' r' hr hr' hn hn'
  obtain ⟨r₀, hr₀, hn₀⟩ | ⟨_, _, hid, hnone⟩ := named_origin c hf hr hn
  · obtain ⟨r₀', hr₀', hn₀'⟩ | ⟨_, _, _, hnone'⟩ := named_origin c hf hr' hn'
    · exact h workflow key id r₀ id' r₀' hr₀ hr₀' hn₀ hn₀'
    · exact absurd hnone' (Store.runOfKey_ne_none hr₀ hn₀)
  · obtain ⟨r₀', hr₀', hn₀'⟩ | ⟨_, _, hid', _⟩ := named_origin c hf hr' hn'
    · exact absurd hnone (Store.runOfKey_ne_none hr₀' hn₀')
    · exact hid.trans hid'.symm

end Call

/-- What a trigger has been answered by `create_run`, and how many jobs it has pushed. -/
structure Triggering where
  answer : Option (RunId × Bool)
  pushes : Nat

namespace Triggering

def start : Triggering := ⟨none, 0⟩

def next (g : Triggering) : (op : Op) → Except String (Val op) → Triggering
  | .store (.createRun _), .ok v => { g with answer := some v }
  | .store (.push _), .ok _ => { g with pushes := g.pushes + 1 }
  | _, _ => g

/-- A trigger asks for the run of its key, and pushes one job if the run is new. -/
def allowed (workflow key : String) (g : Triggering) : Op → Prop
  | .store (.createRun run) =>
      run.workflow = workflow ∧ run.idempotencyKey = some (.text key) ∧ g = start
  | .store (.push _) => ∃ id, g = ⟨some (id, true), 0⟩
  | _ => False

def returns (g : Triggering) (r : Except String Reply) : Prop :=
  ∀ id, r = .ok (.run id) → ∃ created, g.answer = some (id, created)

end Triggering

def triggering (workflow key : String) : Discipline Val Triggering :=
  ⟨Triggering.next, Triggering.allowed workflow key, fun _ _ => True⟩

namespace Kind

def triggers (workflow key : String) : Kind → Bool
  | .task (.trigger w _ k _ _) => w = workflow && k = some key
  | _ => false

end Kind

namespace Worker

def triggering (t : Worker) (workflow key : String) : Triggering :=
  (ZenZip.triggering workflow key).ghost .start t.log

def KeepsTrigger (workflow key : String) (t : Worker) : Prop :=
  (ZenZip.triggering workflow key).wp t.prog Triggering.returns (t.triggering workflow key)

theorem keepsTrigger_taskThread (E : WorkflowEngine) {task : Task} {workflow key : String}
    (h : (Kind.task task).triggers workflow key = true) :
    (taskThread E task).KeepsTrigger workflow key := by
  cases task with
  | trigger w input k delayMs subject =>
      simp only [Kind.triggers, Bool.and_eq_true, decide_eq_true_eq] at h
      obtain ⟨rfl, rfl⟩ := h
      refine ⟨⟨rfl, rfl, rfl⟩, fun r _ => ?_⟩
      rcases r with e | ⟨id, _ | _⟩
      · exact fun id hid => by cases hid
      · intro id' hid
        cases hid
        exact ⟨false, rfl⟩
      · refine ⟨⟨id, rfl⟩, fun r _ => ?_⟩
        cases r with
        | error e => exact fun id hid => by cases hid
        | ok v =>
            intro id' hid
            cases hid
            exact ⟨true, rfl⟩
  | _ => cases h

variable {t : Worker} {workflow key : String} {op : Op} {k : Except String (Val op) → M Reply}

theorem triggering_answer (t : Worker) (op : Op) (r : Except String (Val op)) (p : M Reply) :
    Worker.triggering (t.answer op r p) workflow key = (t.triggering workflow key).next op r := rfl

theorem KeepsTrigger.answer (h : t.KeepsTrigger workflow key) (hp : t.prog = .call op k)
    (r : Except String (Val op)) :
    Worker.KeepsTrigger workflow key (t.answer op r (k r)) := by
  rw [KeepsTrigger, hp] at h
  exact h.2 r trivial

theorem KeepsTrigger.allowed (h : t.KeepsTrigger workflow key) (hp : t.prog = .call op k) :
    Triggering.allowed workflow key (t.triggering workflow key) op := by
  rw [KeepsTrigger, hp] at h
  exact h.1

theorem keepsTrigger_crash (t : Worker) (workflow key : String) :
    Worker.KeepsTrigger workflow key t.crash :=
  fun id hid => by cases hid

theorem KeepsTrigger.returned (h : t.KeepsTrigger workflow key) {id : RunId}
    (hr : t.returned = some (.run id)) :
    ∃ created, (t.triggering workflow key).answer = some (id, created) := by
  rw [KeepsTrigger, returned_iff.mp hr] at h
  exact h id rfl

end Worker

namespace Sys

variable {E : WorkflowEngine} {σ σ' : Sys} {l : Label} {workflow key : String}

/-- The step deletes no run of this workflow and key. -/
def keepsKey (workflow key : String) (σ : Sys) : Label → Bool
  | .call i (.ok _) => (σ.pendingCall i).all (fun c =>
      σ.store.runs.rows.all (fun r => !(r.named workflow (.text key) && c.deletes r)))
  | _ => true

structure KeyKept (workflow key : String) (σ : Sys) : Prop where
  fresh : σ.store.Fresh
  unique : σ.store.KeysUnique
  keeps : ∀ (i : Nat) (t : Worker), σ.pool[i]? = some t → t.kind.triggers workflow key = true →
    t.KeepsTrigger workflow key
  named : ∀ (i : Nat) (t : Worker) id created, σ.pool[i]? = some t →
    t.kind.triggers workflow key = true →
    (t.triggering workflow key).answer = some (id, created) →
    ∃ r, σ.store.runs.get? id = some r ∧ r.named workflow (.text key) = true
  creator : ∀ (i i' : Nat) (t t' : Worker) id id', σ.pool[i]? = some t → σ.pool[i']? = some t' →
    t.kind.triggers workflow key = true → t'.kind.triggers workflow key = true →
    (t.triggering workflow key).answer = some (id, true) →
      (t'.triggering workflow key).answer = some (id', true) → i = i'
  pushed : ∀ (i : Nat) (t : Worker), σ.pool[i]? = some t → t.kind.triggers workflow key = true →
    (t.triggering workflow key).pushes = 0 ∨
      (t.triggering workflow key).pushes = 1 ∧
        ∃ id, (t.triggering workflow key).answer = some (id, true)

inductive TriggerMove (workflow key : String) (σ : Sys) (l : Label) (j : Nat) (u : Worker) : Prop
  | same (t : Worker) (ht : σ.pool[j]? = some t) (hk : t.kind.triggers workflow key = true)
      (hg : u.triggering workflow key = t.triggering workflow key)
  | fresh (hg : u.triggering workflow key = .start)
  | created (t : Worker) (run : NewRun) (hc : σ.Calling l j t (.createRun run))
    (hw : run.workflow = workflow)
      (hkey : run.idempotencyKey = some (.text key))
      (hg : u.triggering workflow key = ⟨some (σ.store.createRun run σ.clock).2, 0⟩)
  | pushed (t : Worker) (id : RunId) (ht : σ.pool[j]? = some t)
    (hk : t.kind.triggers workflow key = true)
      (ha : (t.triggering workflow key).answer = some (id, true))
        (hg : u.triggering workflow key = ⟨some (id, true), 1⟩)

theorem Move.trigger_thread (h : Move E σ l σ') (hI : σ.KeyKept workflow key) {j : Nat} {u : Worker}
    (hu : σ'.pool[j]? = some u) (hk : u.kind.triggers workflow key = true) :
    u.KeepsTrigger workflow key ∧ TriggerMove workflow key σ l j u := by
  cases h.thread hu with
  | stays _ ht => exact ⟨hI.keeps j u ht hk, .same u ht hk rfl⟩
  | spawned task _ he =>
      subst he
      exact ⟨Worker.keepsTrigger_taskThread E hk, .fresh rfl⟩
  | claimed _ _ _ _ _ _ _ he =>
      subst he
      cases hk
  | crashed t ht _ he =>
      subst he
      exact ⟨Worker.keepsTrigger_crash t workflow key, .same t ht hk rfl⟩
  | stored t c k locked ht hp he =>
      subst he
      have hkeeps := hI.keeps j t ht hk
      have hc : σ.Calling (.call j (.ok locked)) j t c := ⟨ht, ⟨k, hp⟩, locked, rfl⟩
      refine ⟨hkeeps.answer hp _, ?_⟩
      have hmay := hkeeps.allowed hp
      cases c with
      | createRun run =>
          obtain ⟨hw, hkey, hg⟩ := hmay
          refine .created t run hc hw hkey ?_
          rw [Worker.triggering_answer, hg]
          rfl
      | push jobs =>
          obtain ⟨id, hg⟩ := hmay
          refine .pushed t id ht hk (by rw [hg]) ?_
          rw [Worker.triggering_answer, hg]
          rfl
      | _ => cases hmay
  | answered t op k ch r ht hp hr he =>
      subst he
      have hkeeps := hI.keeps j t ht hk
      refine ⟨hkeeps.answer hp _, .same t ht hk ?_⟩
      have hmay := hkeeps.allowed hp
      cases hr with
      | failed c e => cases c <;> rfl
      | clock | draw | outcome => cases hmay

theorem keepsKey_calling {i : Nat} {t : Worker} {c : Call} {id : RunId} {r : RunRow}
    (hok : σ.keepsKey workflow key l = true) (hc : σ.Calling l i t c)
    (hr : σ.store.runs.get? id = some r)
    (hn : r.named workflow (.text key) = true) : c.deletes r = false := by
  obtain ⟨k, hp⟩ := hc.prog
  obtain ⟨locked, rfl⟩ := hc.label
  simp only [keepsKey, pendingCall_eq hc.thread hp, Option.all_some] at hok
  have hall := List.all_eq_true.mp hok r (Table.mem_of_get? hr)
  rw [hn] at hall
  simpa using hall

theorem Move.named (h : Move E σ l σ') (hok : σ.keepsKey workflow key l = true) {id : RunId}
    {r : RunRow}
    (hr : σ.store.runs.get? id = some r) (hn : r.named workflow (.text key) = true) :
    ∃ r', σ'.store.runs.get? id = some r' ∧ r'.named workflow (.text key) = true := by
  cases h with
  | ticked | spawned | answered | crashed | claimed | renewed | recorded => exact ⟨r, hr, hn⟩
  | stored i t c k locked ht hp =>
      have hc : σ.Calling (.call i (.ok locked)) i t c := ⟨ht, ⟨k, hp⟩, locked, rfl⟩
      exact Call.perform_named (keepsKey_calling hok hc hr hn) hr hn

theorem Move.keysUnique (h : Move E σ l σ') (hf : σ.store.Fresh) (hI : σ.store.KeysUnique) :
    σ'.store.KeysUnique := by
  cases h with
  | ticked | spawned | answered | crashed | claimed | renewed | recorded => exact hI
  | stored i t c k locked => exact c.perform_keysUnique hf.jobs hI

theorem Calling.created_named {i : Nat} {t : Worker} {run : NewRun}
    (hc : σ.Calling l i t (.createRun run))
    (h : Move E σ l σ') (hf : σ.store.Fresh) (hw : run.workflow = workflow)
    (hkey : run.idempotencyKey = some (.text key)) :
    ∃ r, σ'.store.runs.get? (σ.store.createRun run σ.clock).2.1 = some r ∧
      r.named workflow (.text key) = true := by
  obtain ⟨k, locked, _, _, rfl, _⟩ := hc.answered h
  show ∃ r, (σ.store.createRun run σ.clock).1.runs.get? _ = some r ∧ _
  obtain ⟨id, hfound, he⟩ | ⟨_, he⟩ := σ.store.createRun_cases run σ.clock
  · rw [hw, hkey] at hfound
    rw [he]
    exact Store.named_of_runOfKey hfound
  · have hnone : σ.store.runs.get? σ.store.nextId = none := by
      cases hr : σ.store.runs.get? σ.store.nextId with
      | none => rfl
      | some r => exact absurd (hf.runs _ r hr) (Nat.lt_irrefl _)
    rw [he]
    refine ⟨Store.newRow run σ.store.nextId σ.clock, ?_, ?_⟩
    · rw [Store.get?_addRun, if_pos rfl, hnone]
      rfl
    · rw [RunRow.named, Bool.and_eq_true]
      exact ⟨decide_eq_true hw, decide_eq_true hkey⟩

theorem created_of_none {run : NewRun} {id : RunId} (hw : run.workflow = workflow)
    (hkey : run.idempotencyKey = some (.text key))
    (hcreated : (σ.store.createRun run σ.clock).2 = (id, true)) :
    ∀ k r, σ.store.runs.get? k = some r → r.named workflow (.text key) = false := by
  intro k r hr
  obtain ⟨id', _, he⟩ | ⟨hnone, _⟩ := σ.store.createRun_cases run σ.clock
  · rw [he] at hcreated
    cases hcreated
  · rw [hw, hkey] at hnone
    exact Bool.eq_false_iff.mpr (fun hn => Store.runOfKey_ne_none hr hn hnone)

theorem Move.creator (h : Move E σ l σ') (hI : σ.KeyKept workflow key) {i i' : Nat} {t t' : Worker}
    {id id' : RunId}
    (ht : σ'.pool[i]? = some t) (ht' : σ'.pool[i']? = some t')
    (hk : t.kind.triggers workflow key = true)
    (hk' : t'.kind.triggers workflow key = true)
    (ha : (t.triggering workflow key).answer = some (id, true))
    (ha' : (t'.triggering workflow key).answer = some (id', true)) : i = i' := by
  -- A trigger that is answered `created` now, or was before this step.
  have hcases {j : Nat} {u : Worker} {k : RunId} (hu : σ'.pool[j]? = some u)
    (hku : u.kind.triggers workflow key = true)
      (hau : (u.triggering workflow key).answer = some (k, true)) :
      (∃ u₀ : Worker, σ.pool[j]? = some u₀ ∧ u₀.kind.triggers workflow key = true ∧
        (u₀.triggering workflow key).answer = some (k, true)) ∨
      ∃ u₀ run, σ.Calling l j u₀ (.createRun run) ∧
        ∀ k r, σ.store.runs.get? k = some r → r.named workflow (.text key) = false := by
    obtain ⟨_, hm⟩ := h.trigger_thread hI hu hku
    cases hm with
    | same u₀ hu₀ hk₀ hg => exact .inl ⟨u₀, hu₀, hk₀, by rwa [hg] at hau⟩
    | fresh hg =>
        rw [hg] at hau
        cases hau
    | created u₀ run hc hw hkey hg =>
        rw [hg] at hau
        exact .inr ⟨u₀, run, hc, created_of_none hw hkey (Option.some.inj hau)⟩
    | pushed u₀ k₀ hu₀ hk₀ ha₀ hg =>
        rw [hg] at hau
        cases hau
        exact .inl ⟨u₀, hu₀, hk₀, ha₀⟩
  have hold {j : Nat} {u : Worker} {k : RunId} (hu : σ.pool[j]? = some u)
    (hku : u.kind.triggers workflow key = true)
      (hau : (u.triggering workflow key).answer = some (k, true))
      (hnone : ∀ k r, σ.store.runs.get? k = some r → r.named workflow (.text key) = false) :
        False := by
    obtain ⟨r, hr, hn⟩ := hI.named j u k true hu hku hau
    rw [hnone k r hr] at hn
    cases hn
  obtain ⟨u, hu, hku, hau⟩ | ⟨u, run, hc, hnone⟩ := hcases ht hk ha
  · obtain ⟨u', hu', hku', hau'⟩ | ⟨_, _, _, hnone⟩ := hcases ht' hk' ha'
    · exact hI.creator i i' u u' id id' hu hu' hku hku' hau hau'
    · exact (hold hu hku hau hnone).elim
  · obtain ⟨u', hu', hku', hau'⟩ | ⟨u', run', hc', _⟩ := hcases ht' hk' ha'
    · exact (hold hu' hku' hau' hnone).elim
    · exact (hc.unique hc').1

theorem Move.keyKept (h : Move E σ l σ') (hok : σ.keepsKey workflow key l = true)
    (hI : σ.KeyKept workflow key) :
    σ'.KeyKept workflow key where
  fresh := h.fresh hI.fresh
  unique := h.keysUnique hI.fresh hI.unique
  keeps _ _ ht hk := (h.trigger_thread hI ht hk).1
  creator _ _ _ _ _ _ ht ht' hk hk' ha ha' := h.creator hI ht ht' hk hk' ha ha'
  named i t id created ht hk ha := by
    have hold (u : Worker) (created : Bool) (hu : σ.pool[i]? = some u)
      (hku : u.kind.triggers workflow key = true)
        (hau : (u.triggering workflow key).answer = some (id, created)) :
        ∃ r, σ'.store.runs.get? id = some r ∧ r.named workflow (.text key) = true := by
      obtain ⟨r, hr, hn⟩ := hI.named i u id created hu hku hau
      exact h.named hok hr hn
    obtain ⟨_, hm⟩ := h.trigger_thread hI ht hk
    cases hm with
    | same u hu hku hg => exact hold u created hu hku (by rwa [hg] at ha)
    | fresh hg =>
        rw [hg] at ha
        cases ha
    | created u run hc hw hkey hg =>
        rw [hg] at ha
        have hnamed := hc.created_named h hI.fresh hw hkey
        rwa [Option.some.inj ha] at hnamed
    | pushed u k hu hku hau hg =>
        rw [hg] at ha
        cases ha
        exact hold u true hu hku hau
  pushed i t ht hk := by
    obtain ⟨_, hm⟩ := h.trigger_thread hI ht hk
    cases hm with
    | same u hu hku hg =>
        rw [hg]
        exact hI.pushed i u hu hku
    | fresh hg | created _ _ _ _ _ hg =>
        rw [hg]
        exact .inl rfl
    | pushed u k hu hku hau hg =>
        rw [hg]
        exact .inr ⟨rfl, k, rfl⟩

theorem keyKept_init (workflow key : String) (clock : Time) :
    (init .empty clock).KeyKept workflow key where
  fresh := .empty
  unique workflow key id r id' r' hr := by cases hr
  keeps i t ht := by cases ht
  named i t id created ht := by cases ht
  creator i i' t t' id id' ht := by cases ht
  pushed i t ht := by cases ht

/-- While the run of a key is kept it is the only one of that key, every trigger
that returns names it, and one trigger at most has started its execution. -/
theorem key_names_one_run {clock : Time}
    (h : Run (step E) (keepsKey workflow key) (init .empty clock) σ) :
    (∀ id r id' r', σ.store.runs.get? id = some r → σ.store.runs.get? id' = some r' →
      r.named workflow (.text key) = true → r'.named workflow (.text key) = true → id = id') ∧
    (∀ (i i' : Nat) (t t' : Worker) id id', σ.pool[i]? = some t → σ.pool[i']? = some t' →
      t.kind.triggers workflow key = true → t'.kind.triggers workflow key = true →
      t.returned = some (.run id) → t'.returned = some (.run id') → id = id') ∧
    (∀ (i : Nat) (t : Worker), σ.pool[i]? = some t → t.kind.triggers workflow key = true →
      (t.triggering workflow key).pushes ≤ 1 ∧ ∀ (i' : Nat) (t' : Worker), σ.pool[i']? = some t' →
        t'.kind.triggers workflow key = true → 0 < (t.triggering workflow key).pushes →
        0 < (t'.triggering workflow key).pushes → i = i') := by
  have hI : σ.KeyKept workflow key := by
    refine h.invariant (KeyKept workflow key) (keyKept_init workflow key clock) ?_
    exact fun _ _ _ _ hI hok hs => (step_move hs).keyKept hok hI
  have hcreator {i : Nat} {t : Worker} (ht : σ.pool[i]? = some t)
    (hk : t.kind.triggers workflow key = true)
      (hp : 0 < (t.triggering workflow key).pushes) : ∃ id,
        (t.triggering workflow key).answer = some (id, true) := by
    obtain h0 | ⟨_, hans⟩ := hI.pushed i t ht hk
    · omega
    · exact hans
  refine ⟨hI.unique workflow (.text key), ?_, fun i t ht hk => ⟨?_, ?_⟩⟩
  · intro i i' t t' id id' ht ht' hk hk' hr hr'
    obtain ⟨created, ha⟩ := (hI.keeps i t ht hk).returned hr
    obtain ⟨created', ha'⟩ := (hI.keeps i' t' ht' hk').returned hr'
    obtain ⟨r, hrow, hn⟩ := hI.named i t id created ht hk ha
    obtain ⟨r', hrow', hn'⟩ := hI.named i' t' id' created' ht' hk' ha'
    exact hI.unique workflow (.text key) id r id' r' hrow hrow' hn hn'
  · obtain h0 | ⟨h1, _⟩ := hI.pushed i t ht hk <;> omega
  · intro i' t' ht' hk' hp hp'
    obtain ⟨id, ha⟩ := hcreator ht hk hp
    obtain ⟨id', ha'⟩ := hcreator ht' hk' hp'
    exact hI.creator i i' t t' id id' ht ht' hk hk' ha ha'

section Sample

def completeKeyed : List Label :=
  [triggerKeyed, callOk 0, callOk 0, .claim "order" 1] ++
    attemptUpTo 1 (.completed none) ++ [callOk 1, callOk 1]

/-- The run is kept by a collection that it is too young for, and a later trigger finds it. -/
theorem key_names_one_run_collected : ∃ σ,
    Run (step sampleEngine) (keepsKey "order" "k") (init .empty 0) σ ∧
    σ.returnedBy 0 = some (.run 0) ∧ σ.returnedBy 3 = some (.run 0) ∧ ∀ id,
      σ.returnedBy 3 = some (.run id) → 0 = id := by
  obtain ⟨σ, h, hp⟩ :=
    Run.exists_of_replay (step sampleEngine) (keepsKey "order" "k") (init .empty 0)
    (completeKeyed ++ [.tick 10, .spawn (.gc (some 0) none), callOk 2, triggerKeyed, callOk 3])
    (fun σ => (σ.pool[0]?).any
      (fun t : Worker => t.kind.triggers "order" "k" && t.returned = some (.run 0)) &&
      (σ.pool[3]?).any
        (fun t : Worker => t.kind.triggers "order" "k" && t.returned = some (.run 0)))
          (by decide +kernel)
  rw [Bool.and_eq_true] at hp
  obtain ⟨t, ht, htt⟩ := (Option.any_eq_true _ _).mp hp.1
  obtain ⟨t', ht', htt'⟩ := (Option.any_eq_true _ _).mp hp.2
  simp only [Bool.and_eq_true, decide_eq_true_eq] at htt htt'
  have hreturned {i : Nat} {u : Worker} (hu : σ.pool[i]? = some u) : σ.returnedBy i =
    u.returned := by
    rw [returnedBy, hu]
    rfl
  refine ⟨σ, h, (hreturned ht).trans htt.2, (hreturned ht').trans htt'.2, fun id hid => ?_⟩
  exact (key_names_one_run h).2.1 0 3 t t' 0 id ht ht' htt.1 htt'.1 htt.2
    ((hreturned ht').symm.trans hid)

/-- A collection deletes the completed run, and the next trigger of its key starts another one. -/
theorem collected_key_runs_twice : ∃ σ,
    Run (step sampleEngine) (fun _ _ => true) (init .empty 0) σ ∧
    ∃ (t t' : Worker) (id id' : RunId), σ.pool[0]? = some t ∧ σ.pool[3]? = some t' ∧
    t.kind.triggers "order" "k" = true ∧
      t'.kind.triggers "order" "k" = true ∧ t.returned = some (.run id) ∧
        t'.returned = some (.run id') ∧ id ≠ id' ∧
      (t.triggering "order" "k").pushes = 1 ∧ (t'.triggering "order" "k").pushes = 1 := by
  obtain ⟨σ, h, hp⟩ := Run.exists_of_replay (step sampleEngine) (fun _ _ => true) (init .empty 0)
    (completeKeyed ++ [.tick 10, .spawn (.gc (some 5) none), callOk 2, triggerKeyed, callOk 3,
      callOk 3])
    (fun σ => (σ.pool[0]?).any
      (fun t : Worker => t.kind.triggers "order" "k" && t.returned = some (.run 0) &&
        (t.triggering "order" "k").pushes = 1) &&
      (σ.pool[3]?).any
        (fun t : Worker => t.kind.triggers "order" "k" && t.returned = some (.run 2) &&
        (t.triggering "order" "k").pushes = 1)) (by decide +kernel)
  rw [Bool.and_eq_true] at hp
  obtain ⟨t, ht, htt⟩ := (Option.any_eq_true _ _).mp hp.1
  obtain ⟨t', ht', htt'⟩ := (Option.any_eq_true _ _).mp hp.2
  simp only [Bool.and_eq_true, decide_eq_true_eq] at htt htt'
  exact ⟨σ, h, t, t', 0, 2, ht, ht', htt.1.1, htt'.1.1, htt.1.2, htt'.1.2, by decide, htt.2, htt'.2⟩

end Sample

end Sys

end ZenZip
