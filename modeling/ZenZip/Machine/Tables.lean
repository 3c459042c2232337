import ZenZip.Engine.Calls

namespace ZenZip

open Lib

structure InstanceRow where
  machine : String
  id : String
  state : String
  createdAt : Time
  updatedAt : Time
  deriving DecidableEq

namespace InstanceRow

def key (r : InstanceRow) : String × String := (r.machine, r.id)

end InstanceRow

structure HistoryRow where
  machine : String
  instanceId : String
  fromState : String
  event : String
  toState : String
  at' : Time
  deriving DecidableEq

structure Transition where
  state : String
  event : String
  toState : String
  deriving DecidableEq

namespace Transition

def key (t : Transition) : String × String := (t.state, t.event)

end Transition

structure MachineDef where
  name : String
  initial : String
  transitions : Table Transition.key

namespace MachineDef

def next (d : MachineDef) (state event : String) : Option String :=
  (d.transitions.get? (state, event)).map (·.toState)

/-- The rows are transitions of the definition, each from where the one before has led. -/
def Path (d : MachineDef) : String → List HistoryRow → String → Prop
  | state, [], current => state = current
  | state, h :: hs, current =>
      h.fromState = state ∧ d.next state h.event = some h.toState ∧ d.Path h.toState hs current

theorem path_append {d : MachineDef} {state middle : String} {hs : List HistoryRow} {h : HistoryRow}
    (hp : d.Path state hs middle) (hf : h.fromState = middle)
    (hn : d.next middle h.event = some h.toState) :
    d.Path state (hs ++ [h]) h.toState := by
  induction hs generalizing state with
  | nil =>
      obtain rfl : state = middle := hp
      exact ⟨hf, hn, rfl⟩
  | cons h₀ hs ih => exact ⟨hp.1, hp.2.1, ih hp.2.2⟩

end MachineDef

structure MachineStore where
  store : Store
  instances : Table InstanceRow.key
  history : List HistoryRow

/-- `<machine>.<toState>`. -/
def transitionName (machine toState : String) : String := machine ++ "." ++ toState

def transitionPayload (machine id fromState event toState : String) : Json :=
  .obj [("event", .str event), ("from", .str fromState), ("id", .str id), ("machine", .str machine),
    ("to", .str toState)]

def HistoryRow.emitted (h : HistoryRow) : String × Json :=
  (transitionName h.machine h.toState,
    transitionPayload h.machine h.instanceId h.fromState h.event h.toState)

namespace Store

def EventsFresh (s : Store) : Prop := ∀ e ∈ s.events.rows, e.id < s.nextId

variable (s : Store) (name : String) (payload : Json) (targets : List TriggerTarget)
  (locked : List RunId) (now : Time)

theorem emitInTx_frame :
    (s.emitInTx name payload targets locked now).1.events =
    s.events.insert ⟨s.nextId, name, payload, now⟩ ∧
    s.nextId < (s.emitInTx name payload targets locked now).1.nextId := by
  let s₀ : Store :=
    { s with events := s.events.insert ⟨s.nextId, name, payload, now⟩, nextId := s.nextId + 1 }
  let Kept (s' : Store) : Prop := s'.events = s₀.events ∧ s₀.nextId ≤ s'.nextId
  have hreleased : Kept (s.released name payload locked now) :=
    mapAccum_preserves _ Kept (fun s' r _ h => ⟨h.1, Nat.le_succ_of_le h.2⟩) ⟨rfl, Nat.le_refl _⟩
  have hend : Kept (s.emitInTx name payload targets locked now).1 := by
    rw [emitInTx_fst]
    exact mapAccum_preserves _ Kept
      (fun s' t _ h => ⟨h.1, Nat.le_trans h.2 (Nat.le_add_right s'.nextId 2)⟩) hreleased
  exact hend

theorem emitInTx_events (hf : s.EventsFresh) :
    (s.emitInTx name payload targets locked now).1.events.rows =
    s.events.rows ++ [⟨s.nextId, name, payload, now⟩] := by
  rw [(s.emitInTx_frame name payload targets locked now).1]
  refine Table.rows_insert_fresh ?_
  exact Table.get?_eq_none_iff.mpr (fun e he => Nat.ne_of_lt (hf e he))

theorem EventsFresh.emitInTx {s : Store} (hf : s.EventsFresh) :
    (s.emitInTx name payload targets locked now).1.EventsFresh := by
  have hlt := (s.emitInTx_frame name payload targets locked now).2
  intro e he
  rw [s.emitInTx_events name payload targets locked now hf] at he
  rcases List.mem_append.mp he with he | he
  · exact Nat.lt_trans (hf e he) hlt
  · rw [List.mem_singleton.mp he]
    exact hlt

end Store

namespace MachineStore

def machineCreate (s : MachineStore) (machine id initial : String) (now : Time) :
    MachineStore × Bool :=
  ({ s with instances := s.instances.insert ⟨machine, id, initial, now, now⟩ },
    (s.instances.get? (machine, id)).isNone)

def machineState (s : MachineStore) (machine id : String) : Option String :=
  (s.instances.get? (machine, id)).map (·.state)

/-- `machine = ? AND id = ? AND state = ?`. -/
def inState (machine id state : String) (r : InstanceRow) : Bool :=
  decide (r.key = (machine, id)) && r.state = state

def movedRow (toState : String) (now : Time) (r : InstanceRow) : InstanceRow :=
  { r with state := toState, updatedAt := now }

/-- One transaction: the guarded update, and if it changed a row the history entry and
the event with all that it starts. -/
def machineSend (s : MachineStore) (machine id fromState event toState eventName : String)
    (payload : Json)
    (targets : List TriggerTarget) (locked : List RunId) (now : Time) :
    MachineStore × Option EmitOutcome :=
  let (store, outcome) := s.store.emitInTx eventName payload targets locked now
  let instances :=
    s.instances.update (inState machine id fromState) (movedRow toState now) (fun _ => rfl)
  let history := s.history ++ [⟨machine, id, fromState, event, toState, now⟩]
  if (s.instances.select (inState machine id fromState)).isEmpty then (s, none)
  else ({ store, instances, history }, some outcome)

theorem get?_moved (t : Table InstanceRow.key) (machine id state toState : String) (now : Time)
    (k : String × String) :
    (t.update (inState machine id state) (movedRow toState now) (fun _ => rfl)).get? k =
      if k = (machine, id) then (t.get? k).map
        (fun r => if r.state = state then movedRow toState now r else r)
      else t.get? k := by
  have h := Table.get?_update_key t (machine, id) (fun r => decide (r.state = state))
    (movedRow toState now) (fun _ => rfl) k
  simp only [decide_eq_true_eq] at h
  exact h

variable {s : MachineStore} {machine id fromState event toState eventName : String} {payload : Json}
  {targets : List TriggerTarget} {locked : List RunId} {now : Time}

/-- A send finds the instance in the state it has read, or changes nothing. -/
theorem machineSend_cases (s : MachineStore) (machine id fromState event toState eventName : String)
    (payload : Json)
    (targets : List TriggerTarget) (locked : List RunId) (now : Time) :
    s.machineSend machine id fromState event toState eventName payload targets locked now =
    (s, none) ∨
    s.machineState machine id = some fromState ∧ ∃ s' outcome,
      s.machineSend machine id fromState event toState eventName payload targets locked now =
      (s', some outcome) ∧
      s'.store = (s.store.emitInTx eventName payload targets locked now).1 ∧
      s'.history = s.history ++ [⟨machine, id, fromState, event, toState, now⟩] ∧
      ∀ k, (s'.instances.get? k).map (·.state) =
        if k = (machine, id) then some toState else (s.instances.get? k).map (·.state) := by
  cases hsome : (s.instances.select (inState machine id fromState)).isEmpty with
  | true =>
      refine .inl ?_
      rw [machineSend, hsome]
      rfl
  | false =>
      obtain ⟨r, hr⟩ := List.exists_mem_of_ne_nil _ (List.isEmpty_eq_false_iff.mp hsome)
      obtain ⟨hm, hp⟩ := Table.mem_select.mp hr
      rw [inState, Bool.and_eq_true] at hp
      have hk : r.key = (machine, id) := of_decide_eq_true hp.1
      have hget : s.instances.get? (machine, id) = some r := Table.get?_eq_some_iff.mpr ⟨hm, hk⟩
      have hstate : r.state = fromState := of_decide_eq_true hp.2
      refine .inr ⟨by rw [machineState, hget, Option.map_some, hstate],
        ⟨(s.store.emitInTx eventName payload targets locked now).1,
          s.instances.update (inState machine id fromState) (movedRow toState now) (fun _ => rfl),
          s.history ++ [⟨machine, id, fromState, event, toState, now⟩]⟩,
        (s.store.emitInTx eventName payload targets locked now).2, ?_, rfl, rfl, fun k => ?_⟩
      · rw [machineSend, hsome]
        rfl
      rw [get?_moved]
      by_cases hkk : k = (machine, id)
      · subst hkk
        simp [hget, hstate, movedRow]
      · simp [hkk]

theorem get?_machineCreate (s : MachineStore) (machine id initial : String) (now : Time)
    (k : String × String) :
    ((s.machineCreate machine id initial now).1.instances.get? k).map (·.state) =
      if k = (machine, id) then some ((s.machineState machine id).getD initial)
      else (s.instances.get? k).map (·.state) := by
  show ((s.instances.insert ⟨machine, id, initial, now, now⟩).get? k).map (·.state) = _
  rw [Table.get?_insert]
  show (if k = (machine, id) then _ else _ : Option InstanceRow).map _ = _
  by_cases hk : k = (machine, id)
  · subst hk
    simp only [if_true, Option.map_some, machineState]
    cases s.instances.get? (machine, id) <;> rfl
  · simp only [if_neg hk]

def historyOf (s : MachineStore) (machine id : String) : List HistoryRow :=
  s.history.filter (fun h => decide ((h.machine, h.instanceId) = (machine, id)))

end MachineStore

end ZenZip
