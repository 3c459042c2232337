import ZenZip.Lib.JsonText
import ZenZip.Queue.Bulk
import ZenZip.Queue.Delays

namespace ZenZip

open Lib

/-- Whether `JSON.parse` reads the payload of a row, once the store has decrypted its text. -/
def Payload.parses (dec : String → String) : Payload → Bool
  | .data (.str text) => (JsonText.parse (dec text).toList).isSome
  | _ => true

namespace Queue

variable {D : Type} (q : Queue D) (dec : String → String) (s : Store)

/-- The loop of `deadJobs` parses every payload; only the ids are kept here. -/
def deadJobIds (limit : Nat) : Except String (List JobId) :=
  let raw := s.deadJobs q.name limit
  if raw.all (fun j => j.payload.parses dec) then .ok (raw.map (·.id)) else .error "SyntaxError"

def defaultLimit : Nat := 100

def requeueDead (ids : Option (List JobId)) (now : Time) : Store × Except String Nat :=
  match ids.elim (q.deadJobIds dec s defaultLimit) .ok with
  | .error e => (s, .error e)
  | .ok [] => (s, .ok 0)
  | .ok target =>
    let out := s.requeueDead target now
    (out.1, .ok out.2)

/-- All dead jobs of the queue are pending with a fresh budget, they are counted, and nothing else
has changed. -/
structure RequeuedAll (queue : String) (s s' : Store) (r : Except String Nat) : Prop where
  count : r = .ok (s.jobs.select (Store.deadIn queue)).length
  moved : ∀ j ∈ s.jobs.rows, Store.deadIn queue j = true →
    ∃ j', s'.jobs.get? j.id = some j' ∧ j'.status = .pending ∧ j'.attempt = 0 ∧
      j'.payload = j.payload
  others : ∀ j ∈ s.jobs.rows, Store.deadIn queue j = false → s'.jobs.get? j.id = some j
  none_left : ∀ j ∈ s'.jobs.rows, Store.deadIn queue j = false

variable {q dec s} {now : Time} {queue : String}

theorem mem_deadJobs_ids {limit : Nat} {id : JobId} (h : id ∈ (s.deadJobs queue limit).map (·.id)) :
    ∃ j ∈ s.jobs.rows, j.id = id ∧ Store.deadIn queue j = true := by
  rw [Store.deadJobs, List.map_map] at h
  obtain ⟨j, hj, rfl⟩ := List.mem_map.mp h
  obtain ⟨hj, hdead⟩ :=
    Table.mem_select.mp ((List.mem_insertionSort _).mp (List.mem_of_mem_take hj))
  exact ⟨j, hj, rfl, hdead⟩

theorem mem_deadJobs_of_le {limit : Nat} (hle : (s.jobs.select (Store.deadIn queue)).length ≤ limit)
    {j : JobRow}
    (hj : j ∈ s.jobs.rows) (hdead : Store.deadIn queue j = true) :
    Store.deadJob j ∈ s.deadJobs queue limit := by
  rw [Store.deadJobs, List.take_of_length_le]
  · exact List.mem_map_of_mem ((List.mem_insertionSort _).mpr (Table.mem_select.mpr ⟨hj, hdead⟩))
  · rw [List.length_insertionSort]
    exact hle

theorem length_requeued_le (ids : List JobId) (now : Time) :
    (s.requeueDead ids now).2 ≤ ids.length := by
  have hnodup : ((s.jobs.select (fun j => j.id ∈ ids && j.status = .dead)).map (·.id)).Nodup :=
    s.jobs.nodup.sublist (List.filter_sublist.map JobRow.id)
  have hsubset : (s.jobs.select (fun j => j.id ∈ ids && j.status = .dead)).map (·.id) ⊆ ids := by
    intro id hid
    obtain ⟨j, hj, rfl⟩ := List.mem_map.mp hid
    have hp := (Table.mem_select.mp hj).2
    rw [Bool.and_eq_true] at hp
    exact of_decide_eq_true hp.1
  have hle := (hnodup.subperm hsubset).length_le
  rwa [List.length_map] at hle

theorem length_deadJobs_le (queue : String) (limit : Nat) :
    (s.deadJobs queue limit).length ≤ limit := by
  rw [Store.deadJobs, List.length_map]
  exact List.length_take_le _ _

theorem requeueDead_nil (s : Store) (now : Time) : s.requeueDead [] now = (s, 0) := by
  simp [Store.requeueDead, Table.update, Table.select]

theorem requeueDead_none (q : Queue D) (dec : String → String) (s : Store) (now : Time) :
    q.requeueDead dec s none now =
      if (s.deadJobs q.name defaultLimit).all (fun j => j.payload.parses dec) then
        ((s.requeueDead ((s.deadJobs q.name defaultLimit).map (·.id)) now).1,
          .ok (s.requeueDead ((s.deadJobs q.name defaultLimit).map (·.id)) now).2)
      else (s, .error "SyntaxError") := by
  rw [requeueDead, Option.elim_none, deadJobIds]
  cases hall : (s.deadJobs q.name defaultLimit).all (fun j => j.payload.parses dec) with
  | false => rfl
  | true =>
      cases hids : (s.deadJobs q.name defaultLimit).map (·.id) with
      | nil => simp [requeueDead_nil]
      | cons id ids => simp

theorem get?_requeueDead (ids : List JobId) (now : Time) (id : JobId) :
    (s.requeueDead ids now).1.jobs.get? id =
    (s.jobs.get? id).map
      (fun j => if j.id ∈ ids && j.status = .dead then Store.requeueRow now j else j) :=
  Table.get?_update s.jobs _ (Store.requeueRow now) (fun _ => rfl) id

theorem requeuedAll_of_le (hle : (s.jobs.select (Store.deadIn queue)).length ≤ defaultLimit)
    (now : Time) :
    RequeuedAll queue s (s.requeueDead ((s.deadJobs queue defaultLimit).map (·.id)) now).1
      (.ok (s.requeueDead ((s.deadJobs queue defaultLimit).map (·.id)) now).2) := by
  have hsame : ∀ j ∈ s.jobs.rows,
    (j.id ∈ (s.deadJobs queue defaultLimit).map (·.id) && j.status = .dead) =
      Store.deadIn queue j := by
    intro j hj
    rw [Bool.eq_iff_iff, Bool.and_eq_true, decide_eq_true_eq, decide_eq_true_eq]
    constructor
    · rintro ⟨hid, _⟩
      obtain ⟨i, hi, heq, hdead⟩ := mem_deadJobs_ids hid
      rwa [s.jobs.key_injOn hi hj heq] at hdead
    · intro hdead
      refine ⟨List.mem_map_of_mem (f := DeadJob.id) (mem_deadJobs_of_le hle hj hdead), ?_⟩
      rw [Store.deadIn, Bool.and_eq_true] at hdead
      exact of_decide_eq_true hdead.2
  have hget {j : JobRow} (hj : j ∈ s.jobs.rows) :
    (s.requeueDead ((s.deadJobs queue defaultLimit).map (·.id)) now).1.jobs.get? j.id =
      some (if Store.deadIn queue j then Store.requeueRow now j else j) := by
    rw [get?_requeueDead, Table.get?_key hj, Option.map_some, hsame j hj]
  refine ⟨?_, fun j hj hdead => ?_, fun j hj hdead => ?_, fun j hj => ?_⟩
  · exact congrArg (fun rows => Except.ok (List.length rows)) (List.filter_congr hsame)
  · refine ⟨Store.requeueRow now j, ?_, rfl, rfl, rfl⟩
    rw [hget hj, if_pos hdead]
  · rw [hget hj, hdead]
    rfl
  · have hrow := Table.get?_key hj
    rw [get?_requeueDead] at hrow
    obtain ⟨i, hi, rfl⟩ := Option.map_eq_some_iff.mp hrow
    rw [hsame i (Table.mem_of_get? hi)]
    cases hdead : Store.deadIn queue i with
    | true => exact Bool.and_false _
    | false => exact hdead

/-- Without ids all dead jobs of the queue are requeued if and only if there are no more than the
listing shows, and all their payloads can be read. -/
theorem requeueDead_all_iff (q : Queue D) (dec : String → String) (s : Store) (now : Time) :
    RequeuedAll q.name s (q.requeueDead dec s none now).1 (q.requeueDead dec s none now).2 ↔
      (s.jobs.select (Store.deadIn q.name)).length ≤ 100 ∧
        ∀ j ∈ s.jobs.select (Store.deadIn q.name), j.payload.parses dec = true := by
  rw [requeueDead_none]
  constructor
  · intro h
    cases hall : (s.deadJobs q.name defaultLimit).all (fun j => j.payload.parses dec) with
    | false =>
        rw [hall] at h
        cases h.count
    | true =>
        rw [hall] at h
        have hcount := Except.ok.inj h.count
        have hle : (s.jobs.select (Store.deadIn q.name)).length ≤ defaultLimit := by
          rw [← hcount]
          refine (length_requeued_le _ now).trans ?_
          rw [List.length_map]
          exact length_deadJobs_le q.name defaultLimit
        refine ⟨hle, fun j hj => ?_⟩
        obtain ⟨hj, hdead⟩ := Table.mem_select.mp hj
        exact List.all_eq_true.mp hall _ (mem_deadJobs_of_le hle hj hdead)
  · rintro ⟨hle, hparses⟩
    have hall : (s.deadJobs q.name defaultLimit).all (fun j => j.payload.parses dec) = true := by
      rw [List.all_eq_true]
      intro d hd
      obtain ⟨j, hj, rfl⟩ := List.mem_map.mp hd
      exact hparses j ((List.mem_insertionSort _).mp (List.mem_of_mem_take hj))
    rw [hall]
    exact requeuedAll_of_le hle now

section Sample

def buried (n : Nat) (payload : Payload) : Store where
  jobs := ⟨(List.range n).map
    (fun id => ⟨id, "mail", payload, .dead, 0, 3, 3, 0, none, none, 1, none, none, 0, 0⟩), by
    rw [List.map_map]
    exact (List.map_id _).symm ▸ List.nodup_range⟩
  runs := .empty
  steps := .empty
  events := .empty
  throttleCursors := .empty
  nextId := n

def mailbox : Queue Unit := mail none none

/-- Of 101 dead jobs one is left, and a payload that is sealed under another key keeps its job where
it is. -/
theorem requeueDead_partial :
    ((mailbox.requeueDead id (buried 101 (.text "1")) none 5).1.jobs.select
      (Store.deadIn "mail")).length = 1 ∧
    (mailbox.requeueDead id (buried 1 (.text "enc:1:AAAA")) none 5).2 = .error "SyntaxError" ∧
    ¬ RequeuedAll "mail" (buried 101 (.text "1"))
      (mailbox.requeueDead id (buried 101 (.text "1")) none 5).1
      (mailbox.requeueDead id (buried 101 (.text "1")) none 5).2 := by
  have hleft :
    ((mailbox.requeueDead id (buried 101 (.text "1")) none 5).1.jobs.select
      (Store.deadIn "mail")).length = 1 := by
    decide +kernel
  refine ⟨hleft, by decide +kernel, fun h => ?_⟩
  have hnone : (mailbox.requeueDead id (buried 101 (.text "1")) none 5).1.jobs.select
    (Store.deadIn "mail") = [] :=
    List.filter_eq_nil_iff.mpr (fun j hj hdead => by
      rw [h.none_left j hj] at hdead
      cases hdead)
  rw [hnone] at hleft
  cases hleft

end Sample

end Queue

end ZenZip
