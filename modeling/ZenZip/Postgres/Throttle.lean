import ZenZip.Lib.Int64
import ZenZip.Runtime.Ids
import ZenZip.Crypto.Db
import Mathlib.Data.List.Chain

namespace ZenZip

open Lib

namespace Store

theorem key_nextAt (next : Time) (c : ThrottleCursor) :
    ThrottleCursor.key { c with nextAt := next } = ThrottleCursor.key c := rfl

def moveCursor (s : Store) (queue tkey : String) (next : Time) : Table ThrottleCursor.key :=
  s.throttleCursors.upsert ⟨queue, tkey, next⟩ (fun c => { c with nextAt := next })
    (key_nextAt next)

/-- The end of `insert_job_row` in both stores: the debounced jobs are gone, the throttle has moved
its cursor, and the job comes in. -/
def insertAt (s : Store) (job : PushJob) (availableAt now : Time)
    (throttleCursors : Table ThrottleCursor.key) : Store × JobId :=
  let jobs := (s.jobs.delete (debounced job)).insert (newJobRow job s.nextId availableAt now)
  ({ s with jobs, throttleCursors, nextId := s.nextId + 1 }, s.nextId)

/-- `insert_job_row` of SQLite on `i64`s, whose sums wrap in the build that is published. -/
def insertJobRow64 (s : Store) (job : PushJob) (now : Time) : Store × JobId :=
  match job.throttleKey, job.throttleSpacingMs with
  | some tkey, some spacing =>
      let start := s.throttleStart job tkey now
      s.insertAt job start now (s.moveCursor job.queue tkey (wrap (start + max spacing 0)))
  | _, _ => s.insertAt job (wrap (now + max job.delayMs 0)) now s.throttleCursors

end Store

namespace Postgres

/-- `INSERT ... VALUES (queue, tkey, now + spacing) ON CONFLICT (queue, tkey) DO UPDATE SET
next_at = GREATEST(next_at, now) + spacing RETURNING next_at`, which fails where a sum is out of the
range of `BIGINT`. The row stays locked until the transaction ends, so the pushes of a key come one
after the other. -/
def advanceCursor (s : Store) (queue tkey : String) (spacing : Int) (now : Time) :
    Option (Table ThrottleCursor.key × Time) :=
  (checked (now + spacing)).bind (fun inserted =>
    let nextAt := match s.throttleCursors.get? (queue, tkey) with
      | none => some inserted
      | some c => checked (max c.nextAt now + spacing)
    nextAt.map (fun next => (s.moveCursor queue tkey next, next)))

/-- A statement that fails takes the transaction of the push with it. -/
def insertJob (s : Store) (job : PushJob) (now : Time) : Option (Store × JobId) :=
  match job.throttleKey, job.throttleSpacingMs with
  | some tkey, some spacing =>
      (advanceCursor s job.queue tkey (max spacing 0) now).map (fun out =>
        s.insertAt job (wrap (out.2 - max spacing 0)) now out.1)
  | _, _ => some (s.insertAt job (wrap (now + max job.delayMs 0)) now s.throttleCursors)

end Postgres

namespace Backend

def insertJob : Backend → Store → PushJob → Time → Option (Store × JobId)
  | .sqlite => fun s job now => some (s.insertJobRow64 job now)
  | .postgres => Postgres.insertJob

/-- A cursor that moves to a sum: in SQLite it wraps, in Postgres the statement fails. -/
def advance : Backend → Int → Option Time
  | .sqlite => fun n => some (wrap n)
  | .postgres => checked

variable {backend : Backend} {n : Int}

theorem advance_eq (hmin : i64Min ≤ n) (hmax : n ≤ i64Max) : backend.advance n = some n := by
  cases backend with
  | sqlite => exact congrArg some (wrap_eq hmin hmax)
  | postgres => exact checked_eq_some.mpr ⟨rfl, hmin, hmax⟩

theorem of_advance {next : Time} (h : backend.advance n = some next) (hmin : i64Min ≤ n)
    (hfit : backend = .sqlite → n ≤ i64Max) : next = n ∧ n ≤ i64Max := by
  cases backend with
  | sqlite => exact ⟨(Option.some.inj h).symm.trans (wrap_eq hmin (hfit rfl)), hfit rfl⟩
  | postgres =>
      obtain ⟨rfl, _, hmax⟩ := checked_eq_some.mp h
      exact ⟨rfl, hmax⟩

end Backend

namespace Store

structure Start where
  availableAt : Time
  now : Time
  spacing : Int

def takesSlot (queue tkey : String) (job : PushJob) : Option Int :=
  if job.queue = queue ∧ job.throttleKey = some tkey then job.throttleSpacingMs else none

def start? (queue tkey : String) (job : PushJob) (now : Time) (out : Store × JobId) :
    Option Start :=
  (takesSlot queue tkey job).bind (fun spacing =>
    (out.1.jobs.get? out.2).map (fun j => ⟨j.availableAt, now, spacing⟩))

section Pushes

variable (backend : Backend) (queue tkey : String)

/-- Pushes one after the other, each by the clock of its producer. One that fails leaves the store
as it is. -/
def pushAll (s : Store) (pushes : List (PushJob × Int64)) : Store :=
  pushes.foldl (fun s p => (backend.insertJob s p.1 p.2.toInt).elim s Prod.fst) s

def starts (s : Store) : List (PushJob × Int64) → List Start
  | [] => []
  | (job, now) :: rest =>
    match backend.insertJob s job now.toInt with
    | none => starts s rest
    | some out => (start? queue tkey job now.toInt out).toList ++ starts out.1 rest

end Pushes

def cursorAt (s : Store) (queue tkey : String) : Option Time :=
  (s.throttleCursors.get? (queue, tkey)).map (·.nextAt)

end Store

-- The slots of one key: the clocks and the spacings of its pushes, and the cursor between them.
namespace Slots

open Store

variable (backend : Backend)

def starts : Option Time → List (Time × Int) → List Start
  | _, [] => []
  | cursor, (now, spacing) :: rest =>
    let start := max (cursor.getD now) now
    match backend.advance (start + max spacing 0) with
    | none => starts cursor rest
    | some next => ⟨start, now, spacing⟩ :: starts (some next) rest

def cursor : Option Time → List (Time × Int) → Option Time
  | c, [] => c
  | c, (now, spacing) :: rest =>
    match backend.advance (max (c.getD now) now + max spacing 0) with
    | none => cursor c rest
    | some next => cursor (some next) rest

/-- No push moves the cursor, counted without bounds, beyond the range of an `i64`. -/
def Fits : Option Time → List (Time × Int) → Prop
  | _, [] => True
  | cursor, (now, spacing) :: rest =>
    let next := max (cursor.getD now) now + max spacing 0
    next ≤ i64Max ∧ Fits (some next) rest

variable {backend} {c : Option Time} {l : List (Time × Int)}

def Read (l : List (Time × Int)) : Prop := ∀ p ∈ l, i64Min ≤ p.1

theorem min_le_next {now : Time} (h : i64Min ≤ now) (c : Option Time) (spacing : Int) :
    i64Min ≤ max (c.getD now) now + max spacing 0 :=
  calc i64Min ≤ max (c.getD now) now := h.trans (le_max_right _ _)
    _ ≤ max (c.getD now) now + max spacing 0 := le_add_of_nonneg_right (le_max_right _ _)

/-- Where the cursor stays in its range, or is checked, every start lies behind its clock and behind
the start before it with its spacing. -/
theorem starts_spaced (hl : Read l) (hfit : backend = .sqlite → Fits c l) :
    (starts backend c l).IsChain (fun a b => a.availableAt + max a.spacing 0 ≤ b.availableAt) ∧
      (∀ a ∈ starts backend c l, a.now ≤ a.availableAt) ∧
      ∀ t ∈ c, ∀ a ∈ starts backend c l, t ≤ a.availableAt := by
  induction l generalizing c with
  | nil =>
      exact ⟨.nil, fun a ha => absurd ha List.not_mem_nil,
        fun t _ a ha => absurd ha List.not_mem_nil⟩
  | cons p rest ih =>
      obtain ⟨now, spacing⟩ := p
      obtain ⟨hnow, hrest⟩ := List.forall_mem_cons.mp hl
      have hmin := min_le_next hnow c spacing
      have hbehind : ∀ t ∈ c, t ≤ max (c.getD now) now := by
        rintro t rfl
        exact le_max_left t now
      rw [starts]
      cases hadv : backend.advance (max (c.getD now) now + max spacing 0) with
      | none =>
          refine ih hrest (fun hb => ?_)
          rw [hb] at hadv
          cases hadv
      | some next =>
          obtain ⟨rfl, _⟩ := Backend.of_advance hadv hmin (fun hb => (hfit hb).1)
          obtain ⟨hchain, hclock, hcursor⟩ :=
            ih (c := some (max (c.getD now) now + max spacing 0)) hrest
            (fun hb => (hfit hb).2)
          have hlater := hcursor _ rfl
          refine ⟨hchain.cons (fun a ha => hlater a (List.mem_of_mem_head? ha)),
            List.forall_mem_cons.mpr ⟨le_max_right _ _, hclock⟩, fun t ht => ?_⟩
          refine List.forall_mem_cons.mpr ⟨hbehind t ht, fun a ha => ?_⟩
          calc t ≤ max (c.getD now) now := hbehind t ht
            _ ≤ max (c.getD now) now + max spacing 0 := le_add_of_nonneg_right (le_max_right _ _)
            _ ≤ a.availableAt := hlater a ha

theorem starts_eq (hl : Read l) (hfit : Fits c l) :
    starts .postgres c l = starts .sqlite c l ∧ cursor .postgres c l = cursor .sqlite c l := by
  induction l generalizing c with
  | nil => exact ⟨rfl, rfl⟩
  | cons p rest ih =>
      obtain ⟨now, spacing⟩ := p
      obtain ⟨hnow, hrest⟩ := List.forall_mem_cons.mp hl
      have hmin := min_le_next hnow c spacing
      obtain ⟨hstarts, hcursor⟩ := ih hrest hfit.2
      simp only [starts, cursor, Backend.advance_eq hmin hfit.1]
      exact ⟨congrArg _ hstarts, hcursor⟩

theorem length_starts_sqlite (c : Option Time) (l : List (Time × Int)) :
    (starts .sqlite c l).length = l.length := by
  induction l generalizing c with
  | nil => rfl
  | cons p rest ih => exact congrArg Nat.succ (ih _)

theorem length_starts_postgres_le (c : Option Time) (l : List (Time × Int)) :
    (starts .postgres c l).length ≤ l.length := by
  induction l generalizing c with
  | nil => exact le_rfl
  | cons p rest ih =>
      rw [starts]
      split
      · exact (ih _).trans (Nat.le_succ _)
      · exact Nat.succ_le_succ (ih _)

/-- A push that does not fit fails in Postgres only. -/
theorem length_starts_postgres_lt (hl : Read l) (hfit : ¬ Fits c l) :
    (starts .postgres c l).length < l.length := by
  induction l generalizing c with
  | nil => exact absurd trivial hfit
  | cons p rest ih =>
      obtain ⟨now, spacing⟩ := p
      obtain ⟨hnow, hrest⟩ := List.forall_mem_cons.mp hl
      rw [starts]
      cases hadv : Backend.advance .postgres (max (c.getD now) now + max spacing 0) with
      | none => exact Nat.lt_succ_of_le (length_starts_postgres_le _ _)
      | some next =>
          obtain ⟨rfl, hmax⟩ :=
            Backend.of_advance hadv (min_le_next hnow c spacing) (fun hb => by cases hb)
          exact Nat.succ_lt_succ (ih hrest (fun h => hfit ⟨hmax, h⟩))

end Slots

namespace Store

variable {s : Store} {job : PushJob} {now : Time} {queue tkey : String} {backend : Backend}

section InsertAt

variable (s job) (availableAt now : Time) (throttleCursors : Table ThrottleCursor.key)

theorem get?_insertAt_id (hs : ∀ j ∈ s.jobs.rows, j.id < s.nextId) :
    (s.insertAt job availableAt now throttleCursors).1.jobs.get?
      (s.insertAt job availableAt now throttleCursors).2 =
      some (newJobRow job s.nextId availableAt now) := by
  have hnone : (s.jobs.delete (debounced job)).get? s.nextId = none := by
    rw [Table.get?_delete, Table.get?_eq_none_iff.mpr (fun j hj => (hs j hj).ne),
      Option.filter_none]
  have hget := Table.get?_insert_fresh (r := newJobRow job s.nextId availableAt now) hnone s.nextId
  exact hget.trans (if_pos rfl)

theorem fresh_insertAt (hs : ∀ j ∈ s.jobs.rows, j.id < s.nextId) :
    ∀ j ∈ (s.insertAt job availableAt now throttleCursors).1.jobs.rows,
      j.id < (s.insertAt job availableAt now throttleCursors).1.nextId := by
  intro j hj
  have hget := Table.get?_key hj
  rw [insertAt, Table.get?_insert] at hget
  split at hget
  · next hid => exact Nat.lt_succ_of_le (le_of_eq hid)
  · rw [Table.get?_delete] at hget
    obtain ⟨hold, _⟩ := Option.filter_eq_some_iff.mp hget
    exact Nat.lt_succ_of_lt (hs j (Table.mem_of_get? hold))

end InsertAt

theorem cursorAt_moveCursor (s : Store) (k : String × String) (next : Time) (queue tkey : String) :
    ((s.moveCursor k.1 k.2 next).get? (queue, tkey)).map (·.nextAt) =
      if (queue, tkey) = k then some next else s.cursorAt queue tkey := by
  have hget :=
    Table.get?_upsert s.throttleCursors ⟨k.1, k.2, next⟩ (fun c => { c with nextAt := next })
    (fun _ => rfl) (queue, tkey)
  by_cases hk : (queue, tkey) = k
  · refine (congrArg (Option.map (·.nextAt)) (hget.trans (if_pos hk))).trans ?_
    rw [if_pos hk]
    cases s.throttleCursors.get? (queue, tkey) <;> rfl
  · rw [if_neg hk, cursorAt]
    exact congrArg (Option.map (·.nextAt)) (hget.trans (if_neg hk))

theorem advanceCursor_eq (hnow : i64Min ≤ now) (job : PushJob) {spacing : Int}
    (hpos : 0 ≤ spacing) :
    Postgres.advanceCursor s job.queue tkey spacing now =
      (checked (s.throttleStart job tkey now + spacing)).map
        (fun next => (s.moveCursor job.queue tkey next, next)) := by
  rw [Postgres.advanceCursor, throttleStart]
  cases hc : s.throttleCursors.get? (job.queue, tkey) with
  | none =>
      rw [Option.map_none, Option.getD_none, max_self]
      cases checked (now + spacing) with
      | none | some inserted => rfl
  | some c =>
      rw [Option.map_some, Option.getD_some]
      cases hins : checked (now + spacing) with
      | none =>
          have hlt : i64Max < max c.nextAt now + spacing := by
            by_contra hle
            have hmax : now + spacing ≤ i64Max :=
              (add_le_add_left (le_max_right _ _) _).trans (not_lt.mp hle)
            rw [checked_eq_some.mpr ⟨rfl, hnow.trans (le_add_of_nonneg_right hpos), hmax⟩] at hins
            cases hins
          rw [checked_of_lt hlt]
          rfl
      | some inserted => rfl

/-- The read, maximum and write of SQLite and the upsert of Postgres differ in a sum that is out of
range only. -/
theorem insertJob_eq (backend : Backend) (s : Store) (job : PushJob) (hnow : i64Min ≤ now) :
    backend.insertJob s job now =
      match job.throttleKey, job.throttleSpacingMs with
      | some tkey, some spacing =>
          (backend.advance (s.throttleStart job tkey now + max spacing 0)).map (fun next =>
            s.insertAt job (s.throttleStart job tkey now) now (s.moveCursor job.queue tkey next))
      | _, _ => some (s.insertAt job (wrap (now + max job.delayMs 0)) now s.throttleCursors) := by
  cases backend with
  | sqlite =>
      rw [Backend.insertJob]
      cases htk : job.throttleKey with
      | none => simp only [insertJobRow64, htk]
      | some tkey =>
          cases hsp : job.throttleSpacingMs with
          | none => simp only [insertJobRow64, htk, hsp]
          | some spacing =>
              simp only [insertJobRow64, htk, hsp]
              rfl
  | postgres =>
      rw [Backend.insertJob, Postgres.insertJob]
      split
      · next tkey spacing _ _ =>
          have hpos : 0 ≤ max spacing 0 := le_max_right _ _
          rw [advanceCursor_eq hnow job hpos, Option.map_map]
          apply Option.map_congr
          intro next hnext
          obtain ⟨rfl, _, hmax⟩ := checked_eq_some.mp hnext
          have hstart : now ≤ s.throttleStart job tkey now := le_max_right _ _
          have hwrap : wrap (s.throttleStart job tkey now + max spacing 0 - max spacing 0) =
              s.throttleStart job tkey now := by
            rw [add_sub_cancel_right]
            exact wrap_eq (hnow.trans hstart) ((le_add_of_nonneg_right hpos).trans hmax)
          rw [Function.comp_apply, hwrap]
      · rfl

theorem insertJob_fresh {out : Store × JobId} (hnow : i64Min ≤ now)
    (hs : ∀ j ∈ s.jobs.rows, j.id < s.nextId)
    (h : backend.insertJob s job now = some out) : ∀ j ∈ out.1.jobs.rows, j.id < out.1.nextId := by
  rw [insertJob_eq backend s job hnow] at h
  split at h
  · obtain ⟨next, _, rfl⟩ := Option.map_eq_some_iff.mp h
    exact fresh_insertAt s job _ now _ hs
  · cases h
    exact fresh_insertAt s job _ now _ hs

theorem insertJob_aside {out : Store × JobId} (hnow : i64Min ≤ now)
    (h : backend.insertJob s job now = some out)
    (hslot : takesSlot queue tkey job = none) :
    start? queue tkey job now out = none ∧ out.1.cursorAt queue tkey = s.cursorAt queue tkey := by
  refine ⟨by rw [start?, hslot, Option.bind_none], ?_⟩
  rw [insertJob_eq backend s job hnow] at h
  split at h
  · next k spacing hk hspacing =>
      obtain ⟨next, _, rfl⟩ := Option.map_eq_some_iff.mp h
      refine (cursorAt_moveCursor s (job.queue, k) next queue tkey).trans (if_neg (fun he => ?_))
      obtain ⟨rfl, rfl⟩ := Prod.mk.inj he
      rw [takesSlot, if_pos ⟨rfl, hk⟩, hspacing] at hslot
      cases hslot
  · cases h
    rfl

theorem insertJob_slot (backend : Backend) (hnow : i64Min ≤ now)
    (hs : ∀ j ∈ s.jobs.rows, j.id < s.nextId)
    {spacing : Int} (hslot : takesSlot queue tkey job = some spacing) :
    match backend.advance (max ((s.cursorAt queue tkey).getD now) now + max spacing 0) with
    | none => backend.insertJob s job now = none
    | some next =>
        ∃ out, backend.insertJob s job now = some out ∧ out.1.cursorAt queue tkey = some next ∧
        start? queue tkey job now out =
          some ⟨max ((s.cursorAt queue tkey).getD now) now, now, spacing⟩ := by
  obtain ⟨⟨rfl, hk⟩, hspacing⟩ := Option.ite_none_right_eq_some.mp hslot
  have hins := insertJob_eq backend s job hnow
  simp only [hk, hspacing] at hins
  rw [hins]
  have hstart : s.throttleStart job tkey now = max ((s.cursorAt job.queue tkey).getD now) now := rfl
  rw [hstart]
  cases backend.advance (max ((s.cursorAt job.queue tkey).getD now) now + max spacing 0) with
  | none => rfl
  | some next =>
      refine ⟨_, rfl,
        (cursorAt_moveCursor s (job.queue, tkey) next job.queue tkey).trans (if_pos rfl), ?_⟩
      rw [start?, hslot, Option.bind_some]
      exact congrArg (Option.map (fun j : JobRow => Start.mk j.availableAt now spacing))
        (get?_insertAt_id s job _ now _ hs)

def slotsOf (queue tkey : String) (pushes : List (PushJob × Int64)) : List (Time × Int) :=
  pushes.filterMap (fun p => (takesSlot queue tkey p.1).map (fun spacing => (p.2.toInt, spacing)))

theorem read_slotsOf (queue tkey : String) (pushes : List (PushJob × Int64)) :
    Slots.Read (slotsOf queue tkey pushes) := by
  intro p hp
  obtain ⟨q, _, hq⟩ := List.mem_filterMap.mp hp
  obtain ⟨spacing, _, rfl⟩ := Option.map_eq_some_iff.mp hq
  exact i64Min_le_toInt q.2

theorem starts_eq (backend : Backend) (hs : ∀ j ∈ s.jobs.rows, j.id < s.nextId)
    (queue tkey : String)
    (pushes : List (PushJob × Int64)) :
    starts backend queue tkey s pushes =
      Slots.starts backend (s.cursorAt queue tkey) (slotsOf queue tkey pushes) ∧
      (pushAll backend s pushes).cursorAt queue tkey =
        Slots.cursor backend (s.cursorAt queue tkey) (slotsOf queue tkey pushes) := by
  induction pushes generalizing s with
  | nil => exact ⟨rfl, rfl⟩
  | cons p rest ih =>
      obtain ⟨job, now⟩ := p
      have hnow := i64Min_le_toInt now
      rw [starts, pushAll, List.foldl_cons, ← pushAll]
      cases hslot : takesSlot queue tkey job with
      | none =>
          have hrest : slotsOf queue tkey ((job, now) :: rest) = slotsOf queue tkey rest :=
            List.filterMap_cons_none (by rw [hslot, Option.map_none])
          rw [hrest]
          cases hins : backend.insertJob s job now.toInt with
          | none => exact ih hs
          | some out =>
              obtain ⟨hstart, hcursor⟩ := insertJob_aside hnow hins hslot
              rw [← hcursor]
              simp only [hstart, Option.toList_none, List.nil_append, Option.elim_some]
              exact ih (insertJob_fresh hnow hs hins)
      | some spacing =>
          have hrest : slotsOf queue tkey ((job, now) :: rest) =
            (now.toInt, spacing) :: slotsOf queue tkey rest :=
            List.filterMap_cons_some (by rw [hslot, Option.map_some])
          have hspec := insertJob_slot backend hnow hs hslot
          rw [hrest, Slots.starts, Slots.cursor]
          cases hadv : backend.advance
            (max ((s.cursorAt queue tkey).getD now.toInt) now.toInt + max spacing 0) with
          | none =>
              rw [hadv] at hspec
              simp only [hspec, Option.elim_none]
              exact ih hs
          | some next =>
              rw [hadv] at hspec
              obtain ⟨out, hins, hcursor, hstart⟩ := hspec
              obtain ⟨hstarts, hlast⟩ := ih (insertJob_fresh hnow hs hins)
              simp only [hins, hstart, Option.toList_some, List.singleton_append, Option.elim_some]
              rw [hcursor] at hstarts hlast
              exact ⟨congrArg _ hstarts, hlast⟩

/-- The starts of a key are spaced and lie behind their clocks, and both stores assign the same
starts and leave the same cursor, exactly if no push moves the cursor out of range. -/
theorem throttle_spacing_iff {s : Store} (hs : s.Fresh) (pushes : List (PushJob × Int64))
    (queue tkey : String) :
    ((starts .sqlite queue tkey s pushes).IsChain
      (fun a b => a.availableAt + max a.spacing 0 ≤ b.availableAt) ∧
      (∀ a ∈ starts .sqlite queue tkey s pushes, a.now ≤ a.availableAt) ∧
      starts .postgres queue tkey s pushes = starts .sqlite queue tkey s pushes ∧
      (pushAll .postgres s pushes).cursorAt queue tkey =
      (pushAll .sqlite s pushes).cursorAt queue tkey) ↔
    Slots.Fits (s.cursorAt queue tkey) (slotsOf queue tkey pushes) := by
  obtain ⟨hlite, hliteCursor⟩ := starts_eq .sqlite hs.jobs queue tkey pushes
  obtain ⟨hpg, hpgCursor⟩ := starts_eq .postgres hs.jobs queue tkey pushes
  have hread := read_slotsOf queue tkey pushes
  rw [hlite, hpg, hliteCursor, hpgCursor]
  constructor
  · rintro ⟨_, _, hsame, _⟩
    by_contra hfit
    have hlt := Slots.length_starts_postgres_lt hread hfit
    rw [hsame, Slots.length_starts_sqlite] at hlt
    exact lt_irrefl _ hlt
  · intro hfit
    obtain ⟨hchain, hclock, _⟩ := Slots.starts_spaced hread (fun _ => hfit)
    obtain ⟨hsame, hcursor⟩ := Slots.starts_eq hread hfit
    exact ⟨hchain, hclock, hsame, hcursor⟩

def paced (spacing : Int) : PushJob :=
  ⟨"mail", .data .null, 0, 0, 1, none, none, some "a", some spacing⟩

theorem throttle_spacing_paced :
    (starts .postgres "mail" "a" .empty [(paced 20, 100), (paced 20, 90)]).map (·.availableAt) =
      [100, 120] := by
  have hfit : Slots.Fits (Store.empty.cursorAt "mail" "a")
    (slotsOf "mail" "a" [(paced 20, 100), (paced 20, 90)]) :=
    ⟨by decide, by decide, trivial⟩
  obtain ⟨_, _, hsame, _⟩ :=
    (throttle_spacing_iff .empty [(paced 20, 100), (paced 20, 90)] "mail" "a").mpr hfit
  rw [hsame]
  decide +kernel

/-- A spacing of the largest `i64` wraps the cursor of SQLite, and fails the push in Postgres. -/
theorem throttle_wraps :
    (starts .sqlite "mail" "a" .empty [(paced i64Max, 10), (paced i64Max, 10)]).map
      (·.availableAt) = [10, 10] ∧
      starts .postgres "mail" "a" .empty [(paced i64Max, 10), (paced i64Max, 10)] = [] ∧
      ¬ 10 + i64Max ≤ 10 := by
  decide +kernel

theorem insertJob_exact (backend : Backend) (hnow : i64Min ≤ now)
    (hdelay : now + max job.delayMs 0 ≤ i64Max)
    (hslot : ∀ tkey spacing, job.throttleKey = some tkey → job.throttleSpacingMs = some spacing →
      s.throttleStart job tkey now + max spacing 0 ≤ i64Max) :
    backend.insertJob s job now = some (s.insertJobRow job now) := by
  have hlater : wrap (now + max job.delayMs 0) = now + max job.delayMs 0 :=
    wrap_eq (hnow.trans (le_add_of_nonneg_right (le_max_right _ _))) hdelay
  rw [insertJob_eq backend s job hnow]
  cases htk : job.throttleKey with
  | none => simp only [insertJobRow, insertAt, availableAt, htk, hlater]
  | some tkey =>
      cases hsp : job.throttleSpacingMs with
      | none => simp only [insertJobRow, insertAt, availableAt, htk, hsp, hlater]
      | some spacing =>
          have hmin := Slots.min_le_next hnow (s.cursorAt job.queue tkey) spacing
          have hadv : backend.advance (s.throttleStart job tkey now + max spacing 0) =
              some (s.throttleStart job tkey now + max spacing 0) :=
            Backend.advance_eq hmin (hslot tkey spacing htk hsp)
          simp only [insertJobRow, insertAt, availableAt, htk, hsp, hadv, Option.map_some]
          rfl

end Store

end ZenZip
