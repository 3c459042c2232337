import ZenZip.Machine.Send
import Mathlib.Data.List.Chain

namespace ZenZip

open Lib

structure MachineHistoryRow where
  fromState : String
  event : String
  toState : String
  at' : Time
  deriving DecidableEq

namespace HistoryRow

def entry (h : HistoryRow) : MachineHistoryRow := ⟨h.fromState, h.event, h.toState, h.at'⟩

def later (a b : HistoryRow) : Bool := b.at' ≤ a.at'

theorem later_iff {a b : HistoryRow} : a.later b = true ↔ b.at' ≤ a.at' := decide_eq_true_iff

end HistoryRow

namespace MachineStore

variable {s : MachineStore} {machine id : String}

/-- Rows get their numbers in the order in which they are inserted, and none is deleted: where the
times are equal, the row number orders the rows against the list. -/
def machineHistory (s : MachineStore) (machine id : String) (limit : Nat) :
    List MachineHistoryRow :=
  (((s.historyOf machine id).reverse.mergeSort HistoryRow.later).take limit).map HistoryRow.entry

/-- The last transitions of the instance, the one committed last first. -/
def lastTransitions (s : MachineStore) (machine id : String) (limit : Nat) :
    List MachineHistoryRow :=
  ((s.historyOf machine id).reverse.take limit).map HistoryRow.entry

def Monotone (s : MachineStore) (machine id : String) : Prop :=
  (s.historyOf machine id).Pairwise (fun a b => a.at' ≤ b.at')

/-- Every transition starts where the one before it has led, and the instance is where the last one
has led. -/
structure Chained (s : MachineStore) (machine id : String) : Prop where
  chain : (s.historyOf machine id).IsChain (fun a b => b.fromState = a.toState)
  last : ∀ h ∈ (s.historyOf machine id).getLast?, s.machineState machine id = some h.toState

theorem chained_empty : Chained ⟨.empty, .empty, []⟩ machine id := ⟨.nil, nofun⟩

theorem machineHistory_eq_iff :
    (∀ limit, s.machineHistory machine id limit = s.lastTransitions machine id limit) ↔
    s.Monotone machine id := by
  have hsorted : ((s.historyOf machine id).reverse.mergeSort HistoryRow.later).Pairwise
    (HistoryRow.later · ·) := by
    apply List.pairwise_mergeSort
    · intro a b c hab hbc
      rw [HistoryRow.later_iff] at hab hbc ⊢
      exact Int.le_trans hbc hab
    · intro a b
      rw [Bool.or_eq_true, HistoryRow.later_iff, HistoryRow.later_iff]
      exact Int.le_total b.at' a.at'
  constructor
  · intro h
    have hall := h (s.historyOf machine id).length
    rw [machineHistory, lastTransitions, List.take_of_length_le (by simp),
      List.take_of_length_le (by simp)] at hall
    have htimes := congrArg (List.map MachineHistoryRow.at') hall
    rw [List.map_map, List.map_map] at htimes
    have hdown : ((s.historyOf machine id).reverse.map HistoryRow.at').Pairwise
      (fun t u => u ≤ t) := by
      refine htimes ▸ List.pairwise_map.mpr (hsorted.imp ?_)
      intro a b hab
      exact HistoryRow.later_iff.mp hab
    rw [List.pairwise_map, List.pairwise_reverse] at hdown
    exact hdown
  · intro h limit
    rw [machineHistory, List.mergeSort_of_pairwise]
    · rfl
    · rw [List.pairwise_reverse]
      exact h.imp HistoryRow.later_iff.mpr

theorem Chained.lastTransitions (h : s.Chained machine id) (limit : Nat) :
    (s.lastTransitions machine id limit).IsChain
      (fun newer older => newer.fromState = older.toState) := by
  rw [MachineStore.lastTransitions, List.isChain_map]
  apply List.IsChain.take
  exact List.isChain_reverse.mpr h.chain

/-- A transaction of some node: the reading of its clock, the runs that others hold locked, and the
call. -/
structure Transaction where
  now : Time
  locked : List RunId
  call : MachineCall

def step (s : MachineStore) (l : Transaction) : Option MachineStore :=
  some (l.call.perform s l.now l.locked).1

def init : MachineStore := ⟨.empty, .empty, []⟩

/-- A node that commits a transition of the instance has a clock that is not behind the times of its
entries. -/
def clockUpToDate (machine id : String) (s : MachineStore) (l : Transaction) : Bool :=
  match l.call with
  | .send m k fromState _ _ _ _ _ =>
      (m, k) ≠ (machine, id) || s.machineState m k ≠ some fromState ||
      (s.historyOf machine id).all (fun h => h.at' ≤ l.now)
  | _ => true

inductive HistoryMove (machine id : String) (s : MachineStore) (l : Transaction)
    (s' : MachineStore) : Prop
  | same (hh : s'.historyOf machine id = s.historyOf machine id)
      (hs : ∀ state, s.machineState machine id = some state →
        s'.machineState machine id = some state)
  | sent (fromState event toState eventName payload targets)
      (hc : l.call = .send machine id fromState event toState eventName payload targets)
      (hs : s.machineState machine id = some fromState)
        (hs' : s'.machineState machine id = some toState)
      (hh : s'.historyOf machine id =
        s.historyOf machine id ++ [⟨machine, id, fromState, event, toState, l.now⟩])

theorem step_move {s' : MachineStore} {l : Transaction} (machine id : String)
    (h : s.step l = some s') :
    HistoryMove machine id s l s' := by
  cases h
  obtain ⟨now, locked, c⟩ := l
  cases c with
  | state m k => exact .same rfl (fun _ hs => hs)
  | create m k initial =>
      refine .same rfl (fun state hs => ?_)
      show ((s.machineCreate m k initial now).1.instances.get? (machine, id)).map (·.state) =
        some state
      rw [get?_machineCreate]
      split
      · next hk =>
          cases hk
          rw [hs]
          rfl
      · exact hs
  | send m k fromState event toState eventName payload targets =>
      obtain he | ⟨hstate, ⟨store, instances, history⟩, outcome, he, _, rfl, hstates⟩ :=
        s.machineSend_cases m k fromState event toState eventName payload targets locked now
      · refine .same ?_ ?_
        · exact congrArg (fun x => x.1.historyOf machine id) he
        · intro state hs
          exact (congrArg (fun x => x.1.machineState machine id) he).trans hs
      · have he' :
          (MachineCall.perform s now locked
            (.send m k fromState event toState eventName payload targets)).1 =
            ⟨store, instances, s.history ++ [⟨m, k, fromState, event, toState, now⟩]⟩ :=
              congrArg Prod.fst he
        rw [he']
        have hnew := hstates (machine, id)
        have hhistory :=
          s.historyOf_append store instances ⟨m, k, fromState, event, toState, now⟩ machine id
        by_cases hk : (m, k) = (machine, id)
        · cases hk
          rw [if_pos rfl] at hnew hhistory
          exact .sent fromState event toState eventName payload targets rfl hstate hnew hhistory
        · rw [if_neg (Ne.symm hk)] at hnew
          rw [if_neg hk, List.append_nil] at hhistory
          exact .same hhistory (fun _ hs => hnew.trans hs)

theorem Chained.step {s' : MachineStore} {l : Transaction} (h : s.Chained machine id)
    (hs : s.step l = some s') :
    s'.Chained machine id := by
  cases step_move machine id hs with
  | same hh hstate =>
      refine ⟨hh ▸ h.chain, fun e he => hstate _ (h.last e (hh ▸ he))⟩
  | sent fromState event toState eventName payload targets _ hfrom hto hh =>
      refine ⟨?_, fun e he => ?_⟩
      · rw [hh, List.isChain_append]
        refine ⟨h.chain, .singleton _, fun e he e' he' => ?_⟩
        cases he'
        exact Option.some.inj (hfrom.symm.trans (h.last e he))
      · rw [hh, List.getLast?_concat] at he
        cases he
        exact hto

theorem Monotone.step {s' : MachineStore} {l : Transaction} (h : s.Monotone machine id)
    (hs : s.step l = some s')
    (hok : clockUpToDate machine id s l = true) : s'.Monotone machine id := by
  cases step_move machine id hs with
  | same hh =>
      rw [Monotone, hh]
      exact h
  | sent fromState event toState eventName payload targets hc hfrom _ hh =>
      rw [clockUpToDate, hc] at hok
      simp only [ne_eq, not_true_eq_false, decide_false, hfrom, Bool.false_or, List.all_eq_true,
        decide_eq_true_eq] at hok
      rw [Monotone, hh, List.pairwise_append]
      refine ⟨h, List.pairwise_singleton _ _, fun e he e' he' => ?_⟩
      cases List.mem_singleton.mp he'
      exact hok e he

/-- In every state reached by any transactions at any readings of the clocks, the history is listed
in the order of the commits if and only if its times do not decrease in that order, as they do where
no node that commits a transition has a clock behind them. So listed, each entry starts where the
next one has led. -/
theorem history_listed_iff {ok : MachineStore → Transaction → Bool} (h : Run step ok init s)
    (machine id : String) :
    ((∀ limit, s.machineHistory machine id limit = s.lastTransitions machine id limit ∧
      (s.machineHistory machine id limit).IsChain
        (fun newer older => newer.fromState = older.toState)) ↔
      s.Monotone machine id) ∧
    ((∀ s l, ok s l = true → clockUpToDate machine id s l = true) → s.Monotone machine id) := by
  have hchained : s.Chained machine id :=
    h.invariant (·.Chained machine id) chained_empty (fun _ _ _ _ hI _ hs => hI.step hs)
  refine ⟨⟨fun hall => machineHistory_eq_iff.mp (fun limit => (hall limit).1), fun hm limit => ?_⟩,
    fun hok => ?_⟩
  · have heq := machineHistory_eq_iff.mpr hm limit
    exact ⟨heq, heq ▸ hchained.lastTransitions limit⟩
  · refine h.invariant (·.Monotone machine id) List.Pairwise.nil ?_
    exact fun s l s' _ hI hl hs => hI.step hs (hok s l hl)

section Sample

/-- An order is paid on one node and shipped on another, whose clock is `behind` the first one. -/
def paidAndShipped (behind : Int) : List Transaction :=
  [⟨100, [], .create "order" "o1" "new"⟩,
    ⟨100, [], .send "order" "o1" "new" "pay" "paid" "order.paid" .null []⟩,
    ⟨100 - behind, [], .send "order" "o1" "paid" "ship" "shipped" "order.shipped" .null []⟩]

/-- The clocks agree. -/
theorem history_listed_shipped : ∃ s, Run step (clockUpToDate "order" "o1") init s ∧
    s.machineHistory "order" "o1" 10 =
    [⟨"paid", "ship", "shipped", 100⟩, ⟨"new", "pay", "paid", 100⟩] := by
  obtain ⟨s, h, hp⟩ :=
    Run.exists_of_replay step (clockUpToDate "order" "o1") init (paidAndShipped 0)
    (fun s => s.lastTransitions "order" "o1" 10 =
      [⟨"paid", "ship", "shipped", 100⟩, ⟨"new", "pay", "paid", 100⟩])
    (by decide +kernel)
  obtain ⟨hiff, hup⟩ := history_listed_iff h "order" "o1"
  exact ⟨s, h, ((hiff.mpr (hup (fun _ _ hok => hok)) 10).1).trans (of_decide_eq_true hp)⟩

/-- The second clock is behind: the payment is listed as the newest transition. -/
theorem history_misses_shipped : ∃ s, Run step (fun _ _ => true) init s ∧
    s.lastTransitions "order" "o1" 1 = [⟨"paid", "ship", "shipped", 70⟩] ∧
    s.machineHistory "order" "o1" 1 = [⟨"new", "pay", "paid", 100⟩] := by
  obtain ⟨s, h, hp⟩ := Run.exists_of_replay step (fun _ _ => true) init (paidAndShipped 30)
    (fun s => s.historyOf "order" "o1" =
      [⟨"order", "o1", "new", "pay", "paid", 100⟩, ⟨"order", "o1", "paid", "ship", "shipped", 70⟩])
        (by decide +kernel)
  have hhistory := of_decide_eq_true hp
  refine ⟨s, h, ?_, ?_⟩
  · rw [lastTransitions, hhistory]
    rfl
  · rw [machineHistory, hhistory]
    simp [List.mergeSort, List.MergeSort.Internal.splitInTwo, HistoryRow.later, HistoryRow.entry]

end Sample

end MachineStore

end ZenZip
