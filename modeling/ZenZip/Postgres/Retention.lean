import ZenZip.Store.Runs
import Mathlib.Algebra.BigOperators.Group.List.Basic

namespace ZenZip

open Lib

namespace Postgres

def eventPartitionMs : Int := 86400000

def inI64 (n : Int) : Prop := -9223372036854775808 ≤ n ∧ n ≤ 9223372036854775807

instance (n : Int) : Decidable (inI64 n) := inferInstanceAs (Decidable (_ ∧ _))

def parseDigits (s : List Char) : Option Nat :=
  if s.isEmpty || !s.all Char.isDigit then none else some (Nat.ofDigitChars 10 s 0)

def parseI64 (s : List Char) : Option Int :=
  let n := match s with
    | '-' :: s => (parseDigits s).map (fun n => -(n : Int))
    | '+' :: s => (parseDigits s).map (fun n => (n : Int))
    | s => (parseDigits s).map (fun n => (n : Int))
  n.filter (fun n => decide (inI64 n))

def eventsP : List Char := "events_p".toList

/-- `format!("events_p{k}")`. -/
def eventsPartitionName (k : Int) : List Char := eventsP ++ k.repr.toList

/-- `strip_prefix("events_p")`, then `parse`. -/
def bucketOf (name : List Char) : Option Int :=
  if eventsP.isPrefixOf name then parseI64 (name.drop eventsP.length) else none

/-- The rows from `k * W` up to `(k + 1) * W`; both bounds are BIGINTs. -/
structure EventPartition where
  k : Int
  rows : List EventRow
  lo : inI64 (k * eventPartitionMs)
  hi : inI64 ((k + 1) * eventPartitionMs)
  inRange : ∀ e ∈ rows, k * eventPartitionMs ≤ e.emittedAt ∧
    e.emittedAt < (k + 1) * eventPartitionMs

/-- The partitioned table `events`: its time partitions and the DEFAULT one, which
takes any row. -/
structure Events where
  parts : List EventPartition
  eventsDefault : List EventRow
  nodup : (parts.map EventPartition.k).Nodup

namespace Events

def rows (t : Events) : List EventRow := t.parts.flatMap EventPartition.rows ++ t.eventsDefault

/-- `CREATE TABLE IF NOT EXISTS ... PARTITION OF`, whose errors are swallowed. It
fails when the DEFAULT partition has rows of the range, and may fail otherwise. -/
def createPartition (t : Events) (k : Int) (works : Bool) : Events :=
  if h : works = true ∧ k ∉ t.parts.map EventPartition.k ∧ inI64 (k * eventPartitionMs) ∧
      inI64 ((k + 1) * eventPartitionMs) ∧
      ∀ e ∈ t.eventsDefault,
        ¬ (k * eventPartitionMs ≤ e.emittedAt ∧ e.emittedAt < (k + 1) * eventPartitionMs) then
    ⟨t.parts ++ [⟨k, [], h.2.2.1, h.2.2.2.1, nofun⟩], t.eventsDefault, by
      rw [List.map_append, List.map_singleton]
      refine List.nodup_append.mpr ⟨t.nodup, List.nodup_singleton _, fun a ha b hb he => ?_⟩
      rw [List.mem_singleton.mp hb] at he
      obtain rfl : a = k := he
      exact h.2.1 ha⟩
  else t

def ensureEventPartitions (t : Events) (now : Time) (works : Int → Bool) : Events :=
  let k₀ := now / eventPartitionMs
  (t.createPartition k₀ (works k₀)).createPartition (k₀ + 1) (works (k₀ + 1))

/-- The relations that `pg_inherits` has under `events`. -/
def children (t : Events) : List (List Char) :=
  t.parts.map (fun p => eventsPartitionName p.k) ++ ["events_default".toList]

def dropTable (t : Events) (name : List Char) : Events where
  parts := t.parts.filter (fun p => eventsPartitionName p.k ≠ name)
  eventsDefault := t.eventsDefault
  nodup := t.nodup.sublist (List.filter_sublist.map _)

/-- The loop of `drop_aged_event_partitions`. A relation that is not there is an
error. -/
def dropAged (before : Time) : List (List Char) → Events × Nat → Option (Events × Nat)
  | [], acc => some acc
  | name :: names, (t, dropped) =>
    match bucketOf name with
    | none => dropAged before names (t, dropped)
    | some k =>
      if (k + 1) * eventPartitionMs ≤ before then
        match t.parts.find? (fun p => eventsPartitionName p.k = eventsPartitionName k) with
        | none => none
        | some p =>
            dropAged before names (t.dropTable (eventsPartitionName k), dropped + p.rows.length)
      else dropAged before names (t, dropped)

def dropAgedEventPartitions (t : Events) (before : Time) : Option (Events × Nat) :=
  dropAged before (t.children.filter (fun name => eventsP.isPrefixOf name)) (t, 0)

def deleteBefore (t : Events) (before : Time) : Events × Nat :=
  let keep := fun e : EventRow => !decide (e.emittedAt < before)
  (⟨t.parts.map (fun p => { p with
      rows := p.rows.filter keep, inRange := fun e he => p.inRange e (List.mem_of_mem_filter he) }),
    t.eventsDefault.filter keep, by simpa [List.map_map, Function.comp_def] using t.nodup⟩,
    t.rows.countP (fun e => e.emittedAt < before))

end Events

structure Tables where
  runs : Table RunRow.id
  steps : Table StepRow.key
  events : Events

namespace Tables

def gcRuns (d : Tables) : Option Time → Tables × Nat × Nat
  | none => (d, 0, 0)
  | some before =>
    let orphaned := fun st : StepRow => (d.runs.get? st.runId).any (Store.aged before)
    ({ d with steps := d.steps.delete orphaned, runs := d.runs.delete (Store.aged before) },
      (d.runs.select (Store.aged before)).length, (d.steps.select orphaned).length)

def gcEvents (d : Tables) : Option Time → Option (Tables × Nat)
  | none => some (d, 0)
  | some before => (d.events.dropAgedEventPartitions before).map (fun a =>
    ({ d with events := (a.1.deleteBefore before).1 }, a.2 + (a.1.deleteBefore before).2))

/-- `gc`, or nothing where the transaction is rolled back. -/
def gc (d : Tables) (now : Time) (works : Int → Bool) (runBefore eventBefore : Option Time) :
    Option (Tables × GcStats) :=
  let d := { d with events := d.events.ensureEventPartitions now works }
  let (d, runs, steps) := d.gcRuns runBefore
  (d.gcEvents eventBefore).map (fun a => (a.1, ⟨runs, steps, a.2⟩))

end Tables

section Names

theorem digits_of_repr (n : Nat) : ∀ c ∈ n.repr.toList, c.isDigit = true := by
  intro c hc
  rw [Nat.toList_repr] at hc
  exact Nat.isDigit_of_mem_toDigits (by decide) (by decide) hc

theorem parseDigits_repr (n : Nat) : parseDigits n.repr.toList = some n := by
  have hall : n.repr.toList.all Char.isDigit = true := List.all_eq_true.mpr (digits_of_repr n)
  have hne : n.repr.toList.isEmpty = false := by simp
  rw [parseDigits, hall, hne, Nat.toList_repr, Nat.ofDigitChars_toDigits (by decide) (by decide)]
  rfl

theorem parseI64_repr {k : Int} (h : inI64 k) : parseI64 k.repr.toList = some k := by
  cases k with
  | ofNat n =>
      have hdigits := digits_of_repr n
      have hparse := parseDigits_repr n
      show parseI64 n.repr.toList = some (Int.ofNat n)
      unfold parseI64
      split
      · next s he =>
          rw [he] at hdigits
          exact absurd (hdigits '-' (List.mem_cons_self ..)) (by decide)
      · next s he =>
          rw [he] at hdigits
          exact absurd (hdigits '+' (List.mem_cons_self ..)) (by decide)
      · rw [hparse]
        exact Option.filter_eq_some_iff.mpr ⟨rfl, decide_eq_true h⟩
  | negSucc n =>
      have hlist : (Int.negSucc n).repr.toList = '-' :: (n + 1).repr.toList := by
        show ("-" ++ (n + 1).repr).toList = _
        rw [String.toList_append]
        rfl
      rw [hlist, parseI64]
      simp only [parseDigits_repr]
      exact Option.filter_eq_some_iff.mpr ⟨rfl, decide_eq_true h⟩

theorem bucketOf_name {k : Int} (h : inI64 k) : bucketOf (eventsPartitionName k) = some k := by
  have hpre : eventsP.isPrefixOf (eventsPartitionName k) = true :=
    List.isPrefixOf_iff_prefix.mpr (List.prefix_append _ _)
  rw [bucketOf, if_pos hpre, eventsPartitionName, List.drop_left, parseI64_repr h]

theorem EventPartition.inI64 (p : EventPartition) : Postgres.inI64 p.k := by
  have hlo := p.lo
  have hhi := p.hi
  unfold Postgres.inI64 eventPartitionMs at *
  omega

theorem name_inj {j k : Int} (hj : inI64 j) (hk : inI64 k)
    (h : eventsPartitionName j = eventsPartitionName k) :
    j = k := by
  have hb := bucketOf_name hj
  rw [h, bucketOf_name hk] at hb
  exact (Option.some.inj hb).symm

end Names

def old (before : Time) (e : EventRow) : Bool := e.emittedAt < before

theorem EventPartition.old_of_aged {p : EventPartition} {before : Time}
    (h : (p.k + 1) * eventPartitionMs ≤ before)
    {e : EventRow} (he : e ∈ p.rows) : old before e = true :=
  decide_eq_true (Int.lt_of_lt_of_le (p.inRange e he).2 h)

namespace Events

variable {t : Events} {before : Time} {p : EventPartition}

theorem dropTable_parts (h : p ∈ t.parts) : ∃ l₁ l₂, t.parts = l₁ ++ p :: l₂ ∧
    (t.dropTable (eventsPartitionName p.k)).parts = l₁ ++ l₂ := by
  obtain ⟨l₁, l₂, hparts⟩ := List.append_of_mem h
  refine ⟨l₁, l₂, hparts, ?_⟩
  have hn := t.nodup
  rw [hparts, List.map_append, List.map_cons] at hn
  obtain ⟨_, h₂, hne⟩ := List.nodup_append.mp hn
  have hkeep (q : EventPartition) (hq : q.k ≠ p.k) : eventsPartitionName q.k ≠
    eventsPartitionName p.k :=
    fun he => hq (name_inj q.inI64 p.inI64 he)
  have hfirst : ∀ q ∈ l₁, eventsPartitionName q.k ≠ eventsPartitionName p.k :=
    fun q hq => hkeep q (hne q.k (List.mem_map_of_mem hq) p.k (List.mem_cons_self ..))
  have hlast : ∀ q ∈ l₂, eventsPartitionName q.k ≠ eventsPartitionName p.k :=
    fun q hq => hkeep q (fun he => (List.nodup_cons.mp h₂).1 (he ▸ List.mem_map_of_mem hq))
  show t.parts.filter _ = _
  rw [hparts, List.filter_append, List.filter_cons_of_neg (by simp),
    List.filter_eq_self.mpr (by simpa using hfirst), List.filter_eq_self.mpr (by simpa using hlast)]

theorem find?_name (h : p ∈ t.parts) :
    t.parts.find? (fun q => eventsPartitionName q.k = eventsPartitionName p.k) = some p := by
  cases hf : t.parts.find? (fun q => eventsPartitionName q.k = eventsPartitionName p.k) with
  | none => exact absurd (decide_eq_true rfl) (List.find?_eq_none.mp hf p h)
  | some q =>
      have hq := List.mem_of_find?_eq_some hf
      have hp := List.find?_some hf
      have hname : eventsPartitionName q.k = eventsPartitionName p.k := of_decide_eq_true hp
      rw [List.inj_on_of_nodup_map t.nodup hq h (name_inj q.inI64 p.inI64 hname)]

theorem dropTable_rows (h : p ∈ t.parts) (ha : (p.k + 1) * eventPartitionMs ≤ before) :
    (t.dropTable (eventsPartitionName p.k)).rows.filter (fun e => !old before e) =
      t.rows.filter (fun e => !old before e) ∧
    p.rows.length + (t.dropTable (eventsPartitionName p.k)).rows.countP (old before) = t.rows.countP
      (old before) := by
  obtain ⟨l₁, l₂, hparts, hdrop⟩ := dropTable_parts h
  have hdefault : (t.dropTable (eventsPartitionName p.k)).eventsDefault = t.eventsDefault := rfl
  have hnone : p.rows.filter (fun e => !old before e) = [] := by
    rw [List.filter_eq_nil_iff]
    intro e he
    simp [p.old_of_aged ha he]
  have hall : p.rows.countP (old before) = p.rows.length :=
    List.countP_eq_length.mpr (fun e he => p.old_of_aged ha he)
  rw [rows, rows, hdefault, hparts, hdrop]
  constructor
  · simp [hnone]
  · simp only [List.flatMap_append, List.flatMap_cons, List.countP_append, hall]
    omega

theorem dropAged_names (ks : List Int) (hn : ks.Nodup)
    (hks : ∀ k ∈ ks, k ∈ t.parts.map EventPartition.k) (n : Nat) :
    ∃ t' n', dropAged before (ks.map eventsPartitionName) (t, n) = some (t', n') ∧
      t'.rows.filter (fun e => !old before e) = t.rows.filter (fun e => !old before e) ∧
      n' + t'.rows.countP (old before) = n + t.rows.countP (old before) ∧
      ∀ p ∈ t'.parts, p ∈ t.parts ∧ (p.k ∈ ks → before < (p.k + 1) * eventPartitionMs) := by
  induction ks generalizing t n with
  | nil => exact ⟨t, n, rfl, rfl, rfl, fun p hp => ⟨hp, nofun⟩⟩
  | cons k ks ih =>
      obtain ⟨hk, hks₀⟩ := List.nodup_cons.mp hn
      obtain ⟨p, hp, rfl⟩ := List.mem_map.mp (hks k (List.mem_cons_self ..))
      rw [List.map_cons, dropAged, bucketOf_name p.inI64]
      by_cases ha : (p.k + 1) * eventPartitionMs ≤ before
      · simp only [if_pos ha, find?_name hp]
        obtain ⟨hfilter, hcount⟩ := dropTable_rows hp ha
        have hks' : ∀ k ∈ ks,
          k ∈ (t.dropTable (eventsPartitionName p.k)).parts.map EventPartition.k := by
          intro j hj
          obtain ⟨q, hq, rfl⟩ := List.mem_map.mp (hks j (List.mem_cons_of_mem _ hj))
          have hne : eventsPartitionName q.k ≠ eventsPartitionName p.k := by
            intro he
            rw [name_inj q.inI64 p.inI64 he] at hj
            exact hk hj
          exact List.mem_map_of_mem (List.mem_filter.mpr ⟨hq, decide_eq_true hne⟩)
        obtain ⟨t', n', hrun, hf, hc, hparts⟩ :=
          ih (t := t.dropTable (eventsPartitionName p.k)) hks₀ hks'
          (n + p.rows.length)
        refine ⟨t', n', hrun, hf.trans hfilter, by omega, fun q hq => ?_⟩
        obtain ⟨hq, hlt⟩ := hparts q hq
        obtain ⟨hq, hne⟩ := List.mem_filter.mp hq
        refine ⟨hq, fun hm => ?_⟩
        obtain he | hm := List.mem_cons.mp hm
        · simp [he] at hne
        · exact hlt hm
      · simp only [if_neg ha]
        obtain ⟨t', n', hrun, hf, hc, hparts⟩ :=
          ih hks₀ (fun k hk => hks k (List.mem_cons_of_mem _ hk)) n
        refine ⟨t', n', hrun, hf, hc, fun q hq => ?_⟩
        obtain ⟨hq, hlt⟩ := hparts q hq
        refine ⟨hq, fun hm => ?_⟩
        obtain he | hm := List.mem_cons.mp hm
        · rw [he]
          exact Int.not_le.mp ha
        · exact hlt hm

theorem children_like (t : Events) : t.children.filter (fun name => eventsP.isPrefixOf name) =
    (t.parts.map EventPartition.k).map eventsPartitionName := by
  have hall : ∀ name ∈ (t.parts.map EventPartition.k).map eventsPartitionName,
    eventsP.isPrefixOf name = true := by
    intro name hname
    obtain ⟨k, _, rfl⟩ := List.mem_map.mp hname
    exact List.isPrefixOf_iff_prefix.mpr (List.prefix_append _ _)
  have hparts : t.parts.map (fun p => eventsPartitionName p.k) =
      (t.parts.map EventPartition.k).map eventsPartitionName := by
    rw [List.map_map]
    rfl
  have hdefault : ["events_default".toList].filter (fun name => eventsP.isPrefixOf name) = [] := by
    decide
  rw [children, hparts, List.filter_append, List.filter_eq_self.mpr hall, hdefault, List.append_nil]

theorem rows_createPartition (t : Events) (k : Int) (works : Bool) :
    (t.createPartition k works).rows = t.rows := by
  unfold createPartition
  split
  · simp [rows]
  · rfl

theorem rows_ensure (t : Events) (now : Time) (works : Int → Bool) :
    (t.ensureEventPartitions now works).rows = t.rows := by
  rw [ensureEventPartitions, rows_createPartition, rows_createPartition]

theorem dropAgedEventPartitions_spec (t : Events) (before : Time) :
    ∃ t' n, t.dropAgedEventPartitions before = some (t', n) ∧
      t'.rows.filter (fun e => !old before e) = t.rows.filter (fun e => !old before e) ∧
      n + t'.rows.countP (old before) = t.rows.countP (old before) ∧
      ∀ p ∈ t'.parts, p ∈ t.parts ∧ before < (p.k + 1) * eventPartitionMs := by
  obtain ⟨t', n, hrun, hf, hc, hparts⟩ := @dropAged_names t before (t.parts.map EventPartition.k)
    t.nodup (fun _ h => h) 0
  refine ⟨t', n, ?_, hf, by omega, fun p hp => ?_⟩
  · rw [dropAgedEventPartitions, children_like]
    exact hrun
  · obtain ⟨hp, hlt⟩ := hparts p hp
    exact ⟨hp, hlt (List.mem_map_of_mem hp)⟩

theorem rows_deleteBefore (t : Events) (before : Time) :
    (t.deleteBefore before).1.rows = t.rows.filter (fun e => !old before e) := by
  simp [deleteBefore, rows, old, List.filter_flatMap, List.flatMap_map]

end Events

end Postgres

namespace Store

def collected (runBefore : Option Time) (r : RunRow) : Bool :=
  r.status.terminal && runBefore.any (fun before => r.updatedAt < before)

/-- What `gc` does: the tables without the rows that have aged, and how many these are. -/
structure Collected (s : Store) (runBefore eventBefore : Option Time) (out : Store × GcStats) :
    Prop where
  runs : out.1.runs.rows = s.runs.rows.filter (fun r => !collected runBefore r)
  steps : out.1.steps.rows = s.steps.rows.filter (fun st =>
    !s.runs.rows.any (fun r => r.id = st.runId && collected runBefore r))
  events : out.1.events.rows =
    s.events.rows.filter (fun e => !eventBefore.any (fun before => e.emittedAt < before))
  others : out.1.jobs = s.jobs ∧ out.1.throttleCursors = s.throttleCursors ∧ out.1.nextId = s.nextId
  stats : out.2 = ⟨s.runs.rows.countP (collected runBefore),
    s.steps.rows.countP
      (fun st => s.runs.rows.any (fun r => r.id = st.runId && collected runBefore r)),
    s.events.rows.countP (fun e => eventBefore.any (fun before => e.emittedAt < before))⟩

theorem not_collected_none (s : Store) (id : RunId) :
    s.runs.rows.any (fun r => r.id = id && collected none r) = false :=
  List.any_eq_false.mpr (fun r _ => by simp [collected])

theorem any_get?_aged (s : Store) (before : Time) (id : RunId) :
    (s.runs.get? id).any (aged before) =
    s.runs.rows.any (fun r => r.id = id && collected (some before) r) := by
  rw [Bool.eq_iff_iff, Option.any_eq_true, List.any_eq_true]
  constructor
  · rintro ⟨r, hr, ha⟩
    obtain ⟨hmem, hid⟩ := Table.get?_eq_some_iff.mp hr
    exact ⟨r, hmem, Bool.and_eq_true_iff.mpr ⟨decide_eq_true hid, ha⟩⟩
  · rintro ⟨r, hmem, hp⟩
    obtain ⟨hid, ha⟩ := Bool.and_eq_true_iff.mp hp
    exact ⟨r, Table.get?_eq_some_iff.mpr ⟨hmem, of_decide_eq_true hid⟩, ha⟩

theorem length_sub_filter {A : Type} (p : A → Bool) (l : List A) :
    l.length - (l.filter (fun a => !p a)).length = l.countP p := by
  have hsum := List.length_eq_countP_add_countP p (l := l)
  have hrest : l.countP (fun a => decide (¬ p a = true)) = (l.filter (fun a => !p a)).length := by
    rw [List.countP_eq_length_filter]
    simp
  omega

theorem gc_collected (s : Store) (runBefore eventBefore : Option Time) :
    s.Collected runBefore eventBefore (s.gc runBefore eventBefore) := by
  have hruns : (s.gc runBefore eventBefore).1.runs.rows =
    s.runs.rows.filter (fun r => !collected runBefore r) := by
    cases runBefore with
    | none => simp [gc, collected]
    | some before => rfl
  have hsteps : (s.gc runBefore eventBefore).1.steps.rows = s.steps.rows.filter (fun st =>
      !s.runs.rows.any (fun r => r.id = st.runId && collected runBefore r)) := by
    cases runBefore with
    | none => simp [gc, not_collected_none]
    | some before =>
        show s.steps.rows.filter (fun st => !(s.runs.get? st.runId).any (aged before)) = _
        simp only [any_get?_aged]
  have hevents : (s.gc runBefore eventBefore).1.events.rows =
      s.events.rows.filter (fun e => !eventBefore.any (fun before => e.emittedAt < before)) := by
    cases eventBefore with
    | none => simp [gc]
    | some before => rfl
  refine ⟨hruns, hsteps, hevents, ?_, ?_⟩
  · cases runBefore <;> exact ⟨rfl, rfl, rfl⟩
  · have hstats : (s.gc runBefore eventBefore).2 =
        ⟨s.runs.rows.length - (s.gc runBefore eventBefore).1.runs.rows.length,
          s.steps.rows.length - (s.gc runBefore eventBefore).1.steps.rows.length,
          s.events.rows.length - (s.gc runBefore eventBefore).1.events.rows.length⟩ := rfl
    rw [hstats, hruns, hsteps, hevents, length_sub_filter, length_sub_filter, length_sub_filter]

end Store

namespace Postgres

theorem gcRuns_spec {s : Store} {d : Tables} (hruns : d.runs = s.runs) (hsteps : d.steps = s.steps)
    (runBefore eventBefore : Option Time) :
    (d.gcRuns runBefore).1.runs = (s.gc runBefore eventBefore).1.runs ∧
    (d.gcRuns runBefore).1.steps = (s.gc runBefore eventBefore).1.steps ∧
    (d.gcRuns runBefore).1.events = d.events ∧
    (d.gcRuns runBefore).2 =
    ((s.gc runBefore eventBefore).2.runs, (s.gc runBefore eventBefore).2.steps) := by
  obtain ⟨hr, hs, _, _, hstats⟩ := s.gc_collected runBefore eventBefore
  rw [hstats]
  cases runBefore with
  | none =>
      refine ⟨hruns, hsteps, rfl, ?_⟩
      have hcollected : s.runs.rows.countP (Store.collected none) = 0 :=
        List.countP_eq_zero.mpr (fun r _ => by simp [Store.collected])
      simp [Tables.gcRuns, Store.not_collected_none, hcollected]
  | some before =>
      refine ⟨?_, ?_, rfl, ?_⟩
      · show d.runs.delete _ = _
        rw [hruns]
        rfl
      · show d.steps.delete _ = _
        rw [hsteps, hruns]
        rfl
      · simp only [Tables.gcRuns, hruns, hsteps, Store.any_get?_aged,
          Table.select, ← List.countP_eq_length_filter]
        rfl

theorem gcEvents_spec {s : Store} {d : Tables} (hevents : d.events.rows.Perm s.events.rows)
    (runBefore eventBefore : Option Time) : ∃ d', d.gcEvents eventBefore =
        some (d', (s.gc runBefore eventBefore).2.events) ∧ d'.runs = d.runs ∧ d'.steps = d.steps ∧
      d'.events.rows.Perm (s.gc runBefore eventBefore).1.events.rows := by
  obtain ⟨_, _, he, _, hstats⟩ := s.gc_collected runBefore eventBefore
  rw [hstats, he]
  cases eventBefore with
  | none => exact ⟨d, by simp [Tables.gcEvents], rfl, rfl, by simpa using hevents⟩
  | some before =>
      obtain ⟨t, n, hrun, hf, hc, _⟩ := d.events.dropAgedEventPartitions_spec before
      refine ⟨{ d with events := (t.deleteBefore before).1 }, ?_, rfl, rfl, ?_⟩
      · have hcount : n + (t.deleteBefore before).2 = s.events.rows.countP (old before) :=
          hc.trans (hevents.countP_eq _)
        simp only [Tables.gcEvents, hrun, Option.map_some, hcount]
        rfl
      · show (t.deleteBefore before).1.rows.Perm _
        rw [Events.rows_deleteBefore, hf]
        exact hevents.filter _

/-- Retention is exact, and the same in both stores. -/
theorem gc_exact {s : Store} {d : Tables} (hruns : d.runs = s.runs) (hsteps : d.steps = s.steps)
    (hevents : d.events.rows.Perm s.events.rows) (now : Time) (works : Int → Bool)
    (runBefore eventBefore : Option Time) :
    s.Collected runBefore eventBefore (s.gc runBefore eventBefore) ∧
    ∃ d', d.gc now works runBefore eventBefore = some (d', (s.gc runBefore eventBefore).2) ∧
      d'.runs = (s.gc runBefore eventBefore).1.runs ∧
      d'.steps = (s.gc runBefore eventBefore).1.steps ∧
      d'.events.rows.Perm (s.gc runBefore eventBefore).1.events.rows := by
  refine ⟨s.gc_collected runBefore eventBefore, ?_⟩
  let d₀ : Tables := { d with events := d.events.ensureEventPartitions now works }
  obtain ⟨hr, hst, he, hn⟩ := gcRuns_spec (d := d₀) hruns hsteps runBefore eventBefore
  have hperm : (d₀.gcRuns runBefore).1.events.rows.Perm s.events.rows := by
    rw [he]
    exact (List.Perm.of_eq (d.events.rows_ensure now works)).trans hevents
  obtain ⟨d', hrun, hr', hst', he'⟩ := gcEvents_spec hperm runBefore eventBefore
  refine ⟨d', ?_, hr'.trans hr, hst'.trans hst, he'⟩
  have hgc : d.gc now works runBefore eventBefore =
    ((d₀.gcRuns runBefore).1.gcEvents eventBefore).map
      (fun a => (a.1, ⟨(d₀.gcRuns runBefore).2.1, (d₀.gcRuns runBefore).2.2, a.2⟩)) := rfl
  rw [hgc, hrun, hn]
  rfl

section Sample

def sampleRun : RunRow :=
  { Store.newRow ⟨"order", .null, none, none, none, none, none⟩ 0 1 with
    status := .completed, updatedAt := 3 }

def sampleEvent (id : Nat) (emittedAt : Time) : EventRow := ⟨id, "order.paid", .null, emittedAt⟩

def sampleTables : Tables where
  runs := ⟨[sampleRun], by decide⟩
  steps := ⟨[⟨0, "pay", .run, true, none, none, 0, 2⟩], by decide⟩
  events := {
    parts := [⟨0, [sampleEvent 1 5], by decide, by decide, by decide⟩,
      ⟨1, [sampleEvent 2 87000000, sampleEvent 3 95000000], by decide, by decide, by decide⟩]
    eventsDefault := [sampleEvent 4 7]
    nodup := by decide }

def sampleStore : Store where
  jobs := .empty
  runs := sampleTables.runs
  steps := sampleTables.steps
  events := ⟨sampleTables.events.rows, by decide⟩
  throttleCursors := .empty
  nextId := 5

theorem gc_exact_boundary : ∃ d',
    sampleTables.gc 0 (fun _ => true) (some 10) (some 90000000) = some (d', ⟨1, 1, 3⟩) ∧
    d'.events.rows.Perm [sampleEvent 3 95000000] := by
  obtain ⟨_, d', hgc, _, _, hperm⟩ :=
    gc_exact (s := sampleStore) (d := sampleTables) rfl rfl (List.Perm.refl _) 0
    (fun _ => true) (some 10) (some 90000000)
  have hstats : (sampleStore.gc (some 10) (some 90000000)).2 = ⟨1, 1, 3⟩ := by decide
  have hrows :
    (sampleStore.gc (some 10) (some 90000000)).1.events.rows = [sampleEvent 3 95000000] := by decide
  rw [hstats] at hgc
  rw [hrows] at hperm
  exact ⟨d', hgc, hperm⟩

end Sample

end Postgres

end ZenZip
