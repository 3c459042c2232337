import ZenZip.Crypto.Calls
import ZenZip.Queue.Push

namespace ZenZip

open Lib

inductive OrphanStatus
  | running | sleeping | waitingEvent | waitingChild
  deriving DecidableEq

namespace OrphanStatus

def of? : RunStatus → Option OrphanStatus
  | .runnable => some .running
  | .sleeping => some .sleeping
  | .waitEvent => some .waitingEvent
  | .waitChild => some .waitingChild
  | .completed | .failed | .cancelled => none

def reason : OrphanStatus → String
  | .sleeping => "sleeping past its wake — the wake job may have been lost"
  | .waitingEvent => "waiting on an event past its timeout — the sweep may have stalled"
  | .running | .waitingChild => "no progress — execution may be stuck or its wakeup lost"

theorem of?_isSome (status : RunStatus) : (of? status).isSome = !status.terminal := by
  cases status <;> rfl

end OrphanStatus

structure OrphanedRun where
  runId : RunId
  workflow : String
  status : OrphanStatus
  idleMs : Int
  reason : String
  deriving DecidableEq

structure OrphanOptions where
  idle : Option Ms
  limit : Option Nat

namespace OrphanOptions

variable (options : OrphanOptions)

def idleMs : Ms := options.idle.getD (.ok 300000)

def scan : Nat := options.limit.getD 1000

end OrphanOptions

namespace Store

/-- `clock` is the reading at which a run is reported. -/
def orphan? (cutoff : Time) (clock : RunId → Time) (r : RunRow) : Option OrphanedRun :=
  if cutoff ≤ r.updatedAt then none
  else (OrphanStatus.of? r.status).map
    (fun status => ⟨r.id, r.workflow, status, clock r.id - r.updatedAt, status.reason⟩)

def orphanedRuns (s : Store) (options : OrphanOptions) (now : Time) (clock : RunId → Time) :
    Except String (List OrphanedRun) :=
  options.idleMs.map
    (fun idleMs => (s.runsList none none options.scan).filterMap (orphan? (now - idleMs) clock))

/-- The run has not changed for longer than the threshold, and may go on. -/
def idle (idleMs : Nat) (now : Time) (r : RunRow) : Bool :=
  !r.status.terminal && decide (r.updatedAt + idleMs < now)

variable {s : Store} {options : OrphanOptions} {idleMs : Nat} {now : Time} {clock : RunId → Time}
  {r : RunRow} {o : OrphanedRun}
  {out : List OrphanedRun}

structure Describes (clock : RunId → Time) (r : RunRow) (o : OrphanedRun) : Prop where
  runId : o.runId = r.id
  workflow : o.workflow = r.workflow
  status : OrphanStatus.of? r.status = some o.status
  idleMs : o.idleMs = clock r.id - r.updatedAt
  reason : o.reason = o.status.reason

theorem orphan?_of_not_idle (h : idle idleMs now r = false) :
    orphan? (now - idleMs) clock r = none := by
  rw [orphan?]
  split
  · rfl
  · next hcutoff =>
      have hlt : r.updatedAt + (idleMs : Int) < now := lt_sub_iff_add_lt.mp (not_le.mp hcutoff)
      rw [idle, decide_eq_true hlt, Bool.and_true, ← OrphanStatus.of?_isSome] at h
      rw [Option.isSome_eq_false_iff, Option.isNone_iff_eq_none] at h
      rw [h, Option.map_none]

theorem orphan?_of_idle (h : idle idleMs now r = true) (clock : RunId → Time) :
    ∃ o, orphan? (now - idleMs) clock r = some o ∧ Describes clock r o := by
  rw [idle, Bool.and_eq_true, decide_eq_true_eq, ← OrphanStatus.of?_isSome] at h
  obtain ⟨hstatus, hlt⟩ := h
  obtain ⟨status, hstatus⟩ := Option.isSome_iff_exists.mp hstatus
  have hcutoff : ¬ now - (idleMs : Int) ≤ r.updatedAt := not_le.mpr (lt_sub_iff_add_lt.mpr hlt)
  rw [orphan?, if_neg hcutoff, hstatus]
  exact ⟨_, rfl, rfl, rfl, hstatus, rfl, rfl⟩

theorem mem_runsList {limit : Nat} (h : r ∈ s.runsList none none limit) : r ∈ s.runs.rows := by
  rw [runsList] at h
  exact (Table.mem_select.mp ((List.mem_insertionSort _).mp (List.mem_of_mem_take h))).1

theorem mem_runsList_of_le {limit : Nat} (hle : s.runs.rows.length ≤ limit) (hr : r ∈ s.runs.rows) :
    r ∈ s.runsList none none limit := by
  rw [runsList, List.take_of_length_le]
  · exact (List.mem_insertionSort _).mpr (Table.mem_select.mpr ⟨hr, rfl⟩)
  · rw [List.length_insertionSort]
    exact (List.length_filter_le _ _).trans hle

/-- The report has the runs within the scan that are not terminal and have not changed for longer
than the threshold, whatever they wait for. A run that was to wake within the threshold after its
last change is past its wake when it is reported. -/
theorem orphanedRuns_idle (hidle : options.idleMs = .ok idleMs) (s : Store) (now : Time)
    (clock : RunId → Time) :
    ∃ out, s.orphanedRuns options now clock = .ok out ∧
      (∀ o ∈ out, ∃ r ∈ s.runs.rows, idle idleMs now r = true ∧ Describes clock r o ∧
        ∀ t, r.wakeAt = some t → t ≤ r.updatedAt + idleMs → t < now) ∧
      (∀ r ∈ s.runsList none none options.scan, idle idleMs now r = true →
      ∃ o ∈ out, Describes clock r o) ∧
      (s.runs.rows.length ≤ options.scan →
      ∀ r ∈ s.runs.rows, r ∈ s.runsList none none options.scan) := by
  refine ⟨(s.runsList none none options.scan).filterMap (orphan? (now - idleMs) clock), ?_,
    fun o ho => ?_, fun r hr hr' => ?_,
    fun hle r hr => mem_runsList_of_le hle hr⟩
  · rw [orphanedRuns, hidle]
    rfl
  · obtain ⟨r, hr, ho⟩ := List.mem_filterMap.mp ho
    have hidle' : idle idleMs now r = true := by
      by_contra hnot
      rw [orphan?_of_not_idle (Bool.not_eq_true _ ▸ hnot)] at ho
      cases ho
    obtain ⟨o', ho', hdescribes⟩ := orphan?_of_idle hidle' clock
    rw [ho] at ho'
    cases ho'
    refine ⟨r, mem_runsList hr, hidle', hdescribes, fun t _ ht => ?_⟩
    rw [idle, Bool.and_eq_true, decide_eq_true_eq] at hidle'
    exact lt_of_le_of_lt ht hidle'.2
  · obtain ⟨o, ho, hdescribes⟩ := orphan?_of_idle hr' clock
    exact ⟨o, List.mem_filterMap.mpr ⟨r, hr, ho⟩, hdescribes⟩

section Sample

def parked (id : RunId) (status : RunStatus) (parent : Option RunId) (wakeAt : Option Time) :
    RunRow where
  id := id
  workflow := "nap"
  status := status
  input := .null
  output := none
  error := none
  version := none
  idempotencyKey := none
  parentRunId := parent
  parentStepId := none
  waitEvent := none
  waitStepId := none
  waitMatch := none
  wakeAt := wakeAt
  subject := none
  createdAt := 0
  updatedAt := 0

/-- A run that sleeps for an hour, one that waits for an event without a deadline, and one that
waits for a child that sleeps like the first one. -/
def napping : Store where
  jobs := .empty
  runs := ⟨[parked 0 .sleeping none (some 3600000), parked 1 .waitEvent none none,
    parked 2 .waitChild none none,
    parked 3 .sleeping (some 2) (some 3600000)], by decide⟩
  steps := .empty
  events := .empty
  throttleCursors := .empty
  nextId := 4

theorem orphanedRuns_idle_napping : ∃ out,
    napping.orphanedRuns ⟨none, none⟩ 600000 (fun _ => 600000) = .ok out ∧
    ∃ o ∈ out, Describes (fun _ => 600000) (parked 0 .sleeping none (some 3600000)) o := by
  have hidle : OrphanOptions.idleMs ⟨none, none⟩ = .ok 300000 := rfl
  obtain ⟨out, hout, _, hcomplete, hscan⟩ :=
    orphanedRuns_idle hidle napping 600000 (fun _ => 600000)
  exact ⟨out, hout, hcomplete _ (hscan (by decide) _ List.mem_cons_self) (by decide)⟩

/-- After ten minutes they are all reported. -/
theorem napping_reported : (napping.orphanedRuns ⟨none, none⟩ 600000 (fun _ => 600000)).toOption.map
    (·.map (fun o => (o.runId, o.status))) =
      some [(0, .sleeping), (1, .waitingEvent), (2, .waitingChild), (3, .sleeping)] ∧
    (napping.runs.get? 0).bind (·.wakeAt) = some 3600000 ∧ ¬ (3600000 : Int) < 600000 := by
  decide +kernel

end Sample

end Store

end ZenZip
