import ZenZip.Machine.Tables
import ZenZip.Engine.Workflow
import ZenZip.Lib.Run

namespace ZenZip

open Lib

/-- The registered machines and workflows; registration ends before the runtime starts. -/
structure Machines where
  engine : WorkflowEngine
  machines : Table MachineDef.name

inductive MachineCall
  | create (machine id initial : String)
  | state (machine id : String)
  | send (machine id fromState event toState eventName : String) (payload : Json)
    (targets : List TriggerTarget)

namespace MachineCall

abbrev Ret : MachineCall → Type
  | .create _ _ _ => Bool
  | .state _ _ => Option String
  | .send _ _ _ _ _ _ _ _ => Option EmitOutcome

def perform (s : MachineStore) (now : Time) (locked : List RunId) :
    (c : MachineCall) → MachineStore × c.Ret
  | .create machine id initial => s.machineCreate machine id initial now
  | .state machine id => (s, s.machineState machine id)
  | .send machine id fromState event toState eventName payload targets =>
    s.machineSend machine id fromState event toState eventName payload targets locked now

end MachineCall

abbrev MachineM := Prog MachineCall.Ret

def machineCall (c : MachineCall) : MachineM c.Ret := @Prog.op MachineCall MachineCall.Ret c

inductive Request
  | create (machine id : String)
  | send (machine id event : String)
  deriving DecidableEq

inductive Answer
  | created (isNew : Bool)
  | transition (fromState toState : String)
  deriving DecidableEq

namespace Machines

def machineCreate (R : Machines) (machine id : String) : MachineM Answer :=
  match R.machines.get? machine with
  | none => throw s!"unknown machine '{machine}'"
  | some d => do
    let isNew ← machineCall (.create machine id d.initial)
    return .created isNew

/-- The optimistic transition, with its attempts left. -/
def sendLoop (R : Machines) (d : MachineDef) (machine id event : String) : Nat → MachineM Answer
  | 0 => throw s!"concurrent transitions on machine '{machine}' instance '{id}' — retry"
  | n + 1 => do
    let some current ← machineCall
      (.state machine id) | throw s!"unknown instance '{id}' of machine '{machine}'"
    match d.next current event with
    | none =>
      throw s!"invalid transition: machine '{machine}' instance '{id}' cannot handle '{event}' in state '{current}'"
    | some toState =>
      let name := transitionName machine toState
      let payload := transitionPayload machine id current event toState
      match ← machineCall
        (.send machine id current event toState name payload (R.engine.triggerTargets name)) with
      | some _ => return .transition current toState
      | none => R.sendLoop d machine id event n

def machineSend (R : Machines) (machine id event : String) : MachineM Answer :=
  match R.machines.get? machine with
  | none => throw s!"unknown machine '{machine}'"
  | some d => R.sendLoop d machine id event 3

end Machines

def Request.prog (R : Machines) : Request → MachineM Answer
  | .create machine id => R.machineCreate machine id
  | .send machine id event => R.machineSend machine id event

structure MachineState where
  db : MachineStore
  clock : Time

/-- A store call is carried out, or fails and changes nothing. -/
inductive Fate
  | ok (locked : List RunId)
  | fail (e : String)

def MachineState.exec (s : MachineState) (ch : Fate) (c : MachineCall) :
    Config.Answer MachineState MachineCall.Ret c :=
  match ch with
  | .ok locked =>
      some (⟨(c.perform s.db s.clock locked).1, s.clock⟩, .ok (c.perform s.db s.clock locked).2)
  | .fail e => some (s, .error e)

abbrev Caller := Thread MachineCall.Ret Request Answer

abbrev MachineSys := Config MachineState MachineCall.Ret Request Answer

inductive MachineLabel
  | tick (d : Nat)
  | spawn (r : Request)
  | call (i : Nat) (ch : Fate)
  | crash (i : Nat)

namespace MachineSys

def db (σ : MachineSys) : MachineStore := σ.shared.db

def init (clock : Time) : MachineSys := ⟨⟨⟨.empty, .empty, []⟩, clock⟩, []⟩

def step (R : Machines) (σ : MachineSys) : MachineLabel → Option MachineSys
  | .tick d => some { σ with shared := { σ.shared with clock := σ.shared.clock + d } }
  | .spawn r => some (Config.spawn σ [⟨r, [], r.prog R⟩])
  | .call i ch => Config.call MachineState.exec σ i ch
  | .crash i => Config.crash σ i

end MachineSys

structure Sending where
  request : Request
  committed : List (String × String)

namespace Sending

def next (g : Sending) : (c : MachineCall) → Except String c.Ret → Sending
  | .send _ _ fromState _ toState _ _ _, .ok (some _) =>
      { g with committed := g.committed ++ [(fromState, toState)] }
  | _, _ => g

theorem next_request (g : Sending) (c : MachineCall) (r : Except String c.Ret) :
    (g.next c r).request = g.request := by
  unfold next
  split <;> rfl

/-- A caller calls the store for its own instance only, with a transition of the
definition, and no more once it has committed one. -/
def allowed (R : Machines) (g : Sending) (c : MachineCall) : Prop :=
  g.committed = [] ∧ match c with
  | .create machine id initial => g.request = .create machine id ∧
      ∃ d, R.machines.get? machine = some d ∧ initial = d.initial
  | .state machine id => ∃ event, g.request = .send machine id event
  | .send machine id fromState event toState eventName payload _ =>
      g.request = .send machine id event ∧
      (∃ d, R.machines.get? machine = some d ∧ d.next fromState event = some toState) ∧
      eventName = transitionName machine toState ∧
        payload = transitionPayload machine id fromState event toState

def returns (g : Sending) : Except String Answer → Prop
  | .ok (.transition fromState toState) => g.committed = [(fromState, toState)]
  | .ok (.created _) | .error _ => g.committed = []

end Sending

def sending (R : Machines) : Discipline MachineCall.Ret Sending :=
  ⟨Sending.next, Sending.allowed R, fun _ _ => True⟩

namespace Machines

variable {R : Machines}

theorem wp_sendLoop {d : MachineDef} {machine id event : String}
    (hd : R.machines.get? machine = some d) (n : Nat) :
    (sending R).wp
      (R.sendLoop d machine id event n) Sending.returns ⟨.send machine id event, []⟩ := by
  induction n with
  | zero => rfl
  | succ n ih =>
      refine ⟨⟨rfl, event, rfl⟩, fun r _ => ?_⟩
      rcases r with e | current | current
      · rfl
      · rfl
      · show (sending R).wp (match d.next current event with
          | none => _
          | some toState => _) _ _
        cases hn : d.next current event with
        | none => rfl
        | some toState =>
            refine ⟨⟨rfl, rfl, ⟨d, hd, hn⟩, rfl, rfl⟩, fun r _ => ?_⟩
            rcases r with e | _ | outcome
            · rfl
            · exact ih
            · rfl

theorem wp_prog (R : Machines) (r : Request) :
    (sending R).wp (r.prog R) Sending.returns ⟨r, []⟩ := by
  cases r with
  | create machine id =>
      simp only [Request.prog, machineCreate]
      cases hd : R.machines.get? machine with
      | none => rfl
      | some d =>
          refine ⟨⟨rfl, rfl, d, hd, rfl⟩, fun r _ => ?_⟩
          cases r <;> rfl
  | send machine id event =>
      simp only [Request.prog, machineSend]
      cases hd : R.machines.get? machine with
      | none => rfl
      | some d => exact wp_sendLoop hd 3

end Machines

namespace Caller

def sending (R : Machines) (t : Caller) : Sending := (ZenZip.sending R).ghost ⟨t.kind, []⟩ t.log

def committed (R : Machines) (t : Caller) : List (String × String) := (Caller.sending R t).committed

def Obeys (R : Machines) (t : Caller) : Prop :=
  (ZenZip.sending R).wp t.prog Sending.returns (Caller.sending R t)

variable {R : Machines} {t : Caller} {c : MachineCall} {k : Except String c.Ret → MachineM Answer}

theorem sending_request (R : Machines) (t : Caller) : (Caller.sending R t).request = t.kind := by
  unfold sending
  induction t.log with
  | nil => rfl
  | cons e l ih => exact (Sending.next_request _ e.op e.res).trans ih

theorem Obeys.allowed (h : Caller.Obeys R t) (hp : t.prog = .call c k) :
    Sending.allowed R (Caller.sending R t) c := by
  rw [Obeys, hp] at h
  exact h.1

theorem Obeys.answer (h : Caller.Obeys R t) (hp : t.prog = .call c k) (r : Except String c.Ret) :
    Caller.Obeys R (t.answer c r (k r)) := by
  rw [Obeys, hp] at h
  exact h.2 r trivial

theorem Obeys.crash (h : Caller.Obeys R t) (hl : t.live = true) : Caller.Obeys R t.crash := by
  cases hp : t.prog with
  | call c k => exact (h.allowed hp).1
  | ret | throw =>
      rw [Thread.live, hp] at hl
      cases hl

theorem Obeys.returned (h : Caller.Obeys R t) :
    (∃ fromState toState, t.prog = .ret (.transition fromState toState) ∧
    Caller.committed R t = [(fromState, toState)]) ∨
      Caller.committed R t = [] ∧ ∀ fromState toState, t.prog ≠ .ret
        (.transition fromState toState) := by
  cases hp : t.prog with
  | call c k => exact .inr ⟨(h.allowed hp).1, fun _ _ => nofun⟩
  | throw e =>
      rw [Obeys, hp] at h
      exact .inr ⟨h, fun _ _ => nofun⟩
  | ret a =>
      rw [Obeys, hp] at h
      cases a with
      | created isNew => exact .inr ⟨h, fun _ _ => nofun⟩
      | transition fromState toState => exact .inl ⟨fromState, toState, rfl, h⟩

end Caller

namespace MachineStore

/-- The history of each instance is a path of its machine from the initial state to
the state the instance is in. -/
def Legal (R : Machines) (s : MachineStore) : Prop :=
  ∀ machine id d, R.machines.get? machine = some d →
  match s.machineState machine id with
  | none => s.historyOf machine id = []
  | some state => d.Path d.initial (s.historyOf machine id) state

structure Sound (R : Machines) (s : MachineStore) : Prop where
  legal : s.Legal R
  emitted : s.store.events.rows.map (fun e => (e.name, e.payload)) =
    s.history.map HistoryRow.emitted
  fresh : s.store.EventsFresh

variable {R : Machines} {s : MachineStore} {g : Sending} {c : MachineCall} {now : Time}
  {locked : List RunId}

theorem Sound.create (h : s.Sound R) {machine id : String} {d : MachineDef}
    (hd : R.machines.get? machine = some d) :
    (s.machineCreate machine id d.initial now).1.Sound R where
  legal machine' id' d' hd' := by
    have hold := h.legal machine' id' d' hd'
    have hstate := s.get?_machineCreate machine id d.initial now (machine', id')
    show match (s.machineCreate machine id d.initial now).1.machineState machine' id' with
      | none => s.historyOf machine' id' = []
      | some state => d'.Path d'.initial (s.historyOf machine' id') state
    rw [machineState, hstate]
    split
    · next hn =>
        split at hn
        · cases hn
        · rwa [machineState, hn] at hold
    · next state hs =>
        split at hs
        · next hk =>
            cases hk
            cases Option.some.inj (hd.symm.trans hd')
            cases Option.some.inj hs
            cases ho : s.machineState machine id with
            | none =>
                rw [ho] at hold
                rw [hold]
                rfl
            | some state =>
                rw [ho] at hold
                exact hold
        · rwa [machineState, hs] at hold
  emitted := h.emitted
  fresh := h.fresh

theorem historyOf_append (s : MachineStore) (store : Store) (instances : Table InstanceRow.key)
    (h : HistoryRow)
    (machine id : String) : historyOf ⟨store, instances, s.history ++ [h]⟩ machine id =
      s.historyOf machine id ++ if (h.machine, h.instanceId) = (machine, id) then [h] else [] := by
  rw [historyOf, List.filter_append]
  refine congrArg (s.historyOf machine id ++ ·) ?_
  simp [List.filter_cons]

theorem Sound.send (h : s.Sound R) {machine id fromState event toState : String} {d : MachineDef}
    (hd : R.machines.get? machine = some d) (hn : d.next fromState event = some toState)
    (targets : List TriggerTarget) :
    (s.machineSend machine id fromState event toState (transitionName machine toState)
      (transitionPayload machine id fromState event toState) targets locked now).1.Sound R := by
  obtain he | ⟨hstate, ⟨store, instances, history⟩, outcome, he, rfl, rfl, hstates⟩ :=
    s.machineSend_cases machine id
    fromState event toState (transitionName machine toState)
      (transitionPayload machine id fromState event toState)
    targets locked now
  · rw [he]
    exact h
  rw [he]
  constructor
  · intro machine' id' d' hd'
    have hold := h.legal machine' id' d' hd'
    have hnew := hstates (machine', id')
    simp only [machineState] at hold ⊢
    rw [hnew, historyOf_append]
    by_cases hk : (machine', id') = (machine, id)
    · cases hk
      cases Option.some.inj (hd.symm.trans hd')
      rw [machineState] at hstate
      rw [hstate] at hold
      rw [if_pos rfl, if_pos rfl]
      exact MachineDef.path_append hold rfl hn
    · rw [if_neg hk, if_neg (Ne.symm hk), List.append_nil]
      exact hold
  · show (s.store.emitInTx _ _ _ _ _).1.events.rows.map _ = _
    rw [Store.emitInTx_events _ _ _ _ _ _ h.fresh, List.map_append, List.map_append, h.emitted]
    rfl
  · exact h.fresh.emitInTx _ _ _ _ _

theorem Sound.perform (h : s.Sound R) (hg : g.allowed R c) :
    (c.perform s now locked).1.Sound R := by
  cases c with
  | create machine id initial =>
      obtain ⟨_, _, d, hd, rfl⟩ := hg
      exact h.create hd
  | state machine id => exact h
  | send machine id fromState event toState eventName payload targets =>
      obtain ⟨_, _, ⟨d, hd, hn⟩, rfl, rfl⟩ := hg
      exact h.send hd hn targets

end MachineStore

/-- What a step does to the tables: nothing, or it creates an instance, or it is the
transition that a send returns. -/
inductive TablesMove (R : Machines) (σ : MachineSys) : MachineLabel → MachineSys → Prop
  | same (l σ') (h : σ'.db = σ.db) : TablesMove R σ l σ'
  | created (i locked σ') (t : Caller) (machine id) (ht : σ.pool[i]? = some t)
    (hk : t.kind = .create machine id)
      (hs : σ'.db.store = σ.db.store) (hh : σ'.db.history = σ.db.history)
      (hstates : ∀ m k state, σ.db.machineState m k = some state →
        σ'.db.machineState m k = some state) :
      TablesMove R σ (.call i (.ok locked)) σ'
  | sent (i locked σ') (t t' : Caller) (machine id event fromState toState)
    (ht : σ.pool[i]? = some t)
      (ht' : σ'.pool[i]? = some t') (hk : t'.kind = .send machine id event)
      (hp : t'.prog = .ret (.transition fromState toState)) (hbefore : Caller.committed R t = [])
      (hafter : Caller.committed R t' = [(fromState, toState)])
      (hh : σ'.db.history =
        σ.db.history ++ [⟨machine, id, fromState, event, toState, σ.shared.clock⟩])
      (hstates : ∀ m k, σ'.db.machineState m k =
        if (m, k) = (machine, id) then some toState else σ.db.machineState m k) :
      TablesMove R σ (.call i (.ok locked)) σ'

namespace MachineSys

variable {R : Machines} {σ σ' : MachineSys} {l : MachineLabel}

structure Sound (R : Machines) (σ : MachineSys) : Prop where
  db : σ.db.Sound R
  obeys : ∀ (i : Nat) (t : Caller), σ.pool[i]? = some t → Caller.Obeys R t

theorem sound_init (R : Machines) (clock : Time) : (init clock).Sound R where
  db := ⟨fun _ _ _ _ => rfl, rfl, fun e he => by cases he⟩
  obeys i t ht := by cases ht

theorem call_move {i : Nat} {t : Caller} {c : MachineCall}
    {k : Except String c.Ret → MachineM Answer}
    {locked : List RunId} (hobeys : Caller.Obeys R t) (ht : σ.pool[i]? = some t)
    (hp : t.prog = .call c k)
    (ht' : σ'.pool[i]? = some (t.answer c (.ok (c.perform σ.db σ.shared.clock locked).2)
      (k (.ok (c.perform σ.db σ.shared.clock locked).2))))
    (hdb : σ'.db = (c.perform σ.db σ.shared.clock locked).1) :
    TablesMove R σ (.call i (.ok locked)) σ' := by
  have hallowed := hobeys.allowed hp
  have hobeys' := hobeys.answer hp (.ok (c.perform σ.db σ.shared.clock locked).2)
  cases c with
  | state machine id => exact .same _ _ hdb
  | create machine id initial =>
      obtain ⟨_, hreq, _⟩ := hallowed
      rw [Caller.sending_request] at hreq
      refine .created i locked σ' t machine id ht hreq (by rw [hdb]; rfl) (by rw [hdb]; rfl)
        (fun m k state hs => ?_)
      rw [hdb]
      show ((σ.db.machineCreate machine id initial σ.shared.clock).1.instances.get? (m, k)).map _ =
        _
      rw [MachineStore.get?_machineCreate]
      split
      · next hk =>
          cases hk
          rw [hs]
          rfl
      · exact hs
  | send machine id fromState event toState eventName payload targets =>
      obtain ⟨hnone, hreq, _⟩ := hallowed
      rw [Caller.sending_request] at hreq
      obtain he | ⟨_, s', outcome, he, _, hh, hstates⟩ :=
        σ.db.machineSend_cases machine id fromState event toState
        eventName payload targets locked σ.shared.clock
      · refine .same _ _ (hdb.trans ?_)
        exact congrArg Prod.fst he
      · have hres :
          (MachineCall.send machine id fromState event toState eventName payload targets).perform
            σ.db
            σ.shared.clock locked = (s', some outcome) := he
        rw [hres] at hdb ht' hobeys'
        have hcommitted : Caller.committed R
          (t.answer (.send machine id fromState event toState eventName payload targets)
            (.ok (some outcome)) (k (.ok (some outcome)))) = [(fromState, toState)] := by
          show (Caller.sending R t).committed ++ [(fromState, toState)] = _
          rw [hnone]
          rfl
        obtain ⟨f, s, hret, hc⟩ | ⟨hempty, _⟩ := hobeys'.returned
        · rw [hcommitted] at hc
          cases hc
          refine .sent i locked σ' t _ machine id event fromState toState ht ht' hreq hret hnone
            hcommitted ?_ ?_
          · rw [hdb]
            exact hh
          · intro m k
            rw [hdb]
            exact hstates (m, k)
        · rw [hcommitted] at hempty
          cases hempty

theorem step_sound (hI : σ.Sound R) (h : step R σ l = some σ') :
    σ'.Sound R ∧ TablesMove R σ l σ' := by
  cases l with
  | tick d =>
      cases h
      exact ⟨⟨hI.db, hI.obeys⟩, .same _ _ rfl⟩
  | spawn r =>
      cases h
      refine ⟨⟨hI.db, fun i t ht => ?_⟩, .same _ _ rfl⟩
      obtain hlt | hge := Nat.lt_or_ge i σ.pool.length
      · rw [Config.spawn, List.getElem?_append_left hlt] at ht
        exact hI.obeys i t ht
      · rw [Config.spawn, List.getElem?_append_right hge, List.getElem?_singleton] at ht
        split at ht
        · cases ht
          exact Machines.wp_prog R r
        · cases ht
  | crash i =>
      obtain ⟨t, ht, hl, rfl⟩ := Config.crash_eq_some h
      refine ⟨⟨hI.db, fun j u hu => ?_⟩, .same _ _ rfl⟩
      obtain ⟨rfl, rfl⟩ | ⟨_, hj⟩ := getElem?_set_cases hu (lt_of_getElem? ht)
      · exact (hI.obeys j t ht).crash hl
      · exact hI.obeys j u hj
  | call i ch =>
      obtain ⟨t, c, k, s, r, ht, hp, he, rfl⟩ := Config.call_eq_some h
      have hobeys := hI.obeys i t ht
      have hpool (j : Nat) (u : Caller) (hu : (σ.pool.set i (t.answer c r (k r)))[j]? = some u) :
        Caller.Obeys R u := by
        obtain ⟨rfl, rfl⟩ | ⟨_, hj⟩ := getElem?_set_cases hu (lt_of_getElem? ht)
        · exact hobeys.answer hp r
        · exact hI.obeys j u hj
      cases ch with
      | fail e =>
          cases he
          exact ⟨⟨hI.db, hpool⟩, .same _ _ rfl⟩
      | ok locked =>
          cases he
          refine ⟨⟨hI.db.perform (hobeys.allowed hp), hpool⟩, ?_⟩
          exact call_move hobeys ht hp (List.getElem?_set_self (lt_of_getElem? ht)) rfl

/-- In every state reached the history of each instance is a legal path to its state
and the events are those of the history, one for each row, in its order. A send
has committed one transition if it returns it and none otherwise; no other step
changes a state, the history or the events, except for a new instance. -/
theorem history_is_path {ok : MachineSys → MachineLabel → Bool} {clock : Time}
    (h : Run (step R) ok (init clock) σ) :
    σ.db.Legal R ∧
    σ.db.store.events.rows.map (fun e => (e.name, e.payload)) =
    σ.db.history.map HistoryRow.emitted ∧
    (∀ (i : Nat) (t : Caller), σ.pool[i]? = some t →
      (∃ fromState toState, t.prog = .ret (.transition fromState toState) ∧
      Caller.committed R t = [(fromState, toState)]) ∨
      Caller.committed R t = [] ∧ ∀ fromState toState, t.prog ≠ .ret
        (.transition fromState toState)) ∧
    ∀ l σ', step R σ l = some σ' → TablesMove R σ l σ' := by
  have hI : σ.Sound R :=
    h.invariant (Sound R) (sound_init R clock) (fun _ _ _ _ hI _ hs => (step_sound hI hs).1)
  exact ⟨hI.db.legal, hI.db.emitted, fun i t ht => (hI.obeys i t ht).returned,
    fun _ _ hs => (step_sound hI hs).2⟩

section Sample

def sampleMachine : MachineDef where
  name := "order"
  initial := "new"
  transitions := .insert (.insert .empty ⟨"new", "pay", "paid"⟩) ⟨"paid", "ship", "shipped"⟩

def sampleMachines : Machines := ⟨⟨[]⟩, .insert .empty sampleMachine⟩

/-- Two sends read the same state, and the one that loses the race finds no
transition when it reads again. -/
theorem history_is_path_race : ∃ σ, Run (step sampleMachines) (fun _ _ => true) (init 0) σ ∧
    σ.db.Legal sampleMachines ∧
    σ.db.machineState "order" "o1" = some "paid" ∧ σ.db.history.length = 1 ∧
    σ.db.store.events.rows.length = 1 := by
  obtain ⟨σ, h, hp⟩ := Run.exists_of_replay (step sampleMachines) (fun _ _ => true) (init 0)
    [.spawn (.create "order" "o1"), .call 0 (.ok []), .spawn (.send "order" "o1" "pay"),
      .spawn (.send "order" "o1" "pay"),
      .call 1 (.ok []), .call 2 (.ok []), .call 1 (.ok []), .call 2 (.ok []), .call 2 (.ok [])]
    (fun σ => decide (σ.db.machineState "order" "o1" = some "paid" ∧ σ.db.history.length = 1))
      (by decide +kernel)
  obtain ⟨hstate, hlen⟩ := of_decide_eq_true hp
  obtain ⟨hlegal, hemitted, _⟩ := history_is_path h
  have hevents := congrArg List.length hemitted
  rw [List.length_map, List.length_map, hlen] at hevents
  exact ⟨σ, h, hlegal, hstate, hlen, hevents⟩

end Sample

end MachineSys

end ZenZip
