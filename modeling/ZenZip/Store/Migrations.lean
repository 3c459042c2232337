import ZenZip.Store.Sqlite

namespace ZenZip.Sqlite

open Lib

section Tables

open Column ColumnType

def jobs : Table where
  name := "jobs"
  columns := [nullable "id" text, required "queue" text, required "payload" text,
    defaulted "status" integer (.int 0),
    defaulted "priority" integer (.int 0), defaulted "attempt" integer (.int 0),
      defaulted "max_attempts" integer (.int 3),
    required "available_at" integer, nullable "lease_until" integer, nullable "last_error" text,
    required "created_at" integer, required "updated_at" integer]
  primaryKey := ["id"]

def schedules : Table where
  name := "schedules"
  columns := [nullable "name" text, required "spec" text, defaulted "overlap" text (.text "skip"),
    defaulted "catchup" text (.text "skip"), required "next_run_at" integer,
      nullable "last_run_at" integer,
    defaulted "enabled" integer (.int 1)]
  primaryKey := ["name"]

def runs : Table where
  name := "runs"
  columns := [nullable "id" text, required "workflow" text, defaulted "status" integer (.int 0),
    required "input" text,
    nullable "output" text, nullable "error" text, nullable "version" text,
      nullable "idempotency_key" text,
    nullable "parent_run_id" text, nullable "parent_step_id" text, nullable "wait_event" text,
      nullable "wait_step_id" text,
    nullable "wake_at" integer, required "created_at" integer, required "updated_at" integer]
  primaryKey := ["id"]

def steps : Table where
  name := "steps"
  columns := [required "run_id" text, required "step_id" text, required "kind" text,
    defaulted "status" integer (.int 0),
    nullable "result" text, nullable "error" text, defaulted "attempts" integer (.int 0),
      required "updated_at" integer]
  primaryKey := ["run_id", "step_id"]

def events : Table where
  name := "events"
  columns := [nullable "id" text, required "name" text, required "payload" text,
    required "emitted_at" integer]
  primaryKey := ["id"]

def machineInstances : Table where
  name := "machine_instances"
  columns := [required "machine" text, required "id" text, required "state" text,
    required "created_at" integer,
    required "updated_at" integer]
  primaryKey := ["machine", "id"]

def machineHistory : Table where
  name := "machine_history"
  columns := [required "machine" text, required "instance_id" text, required "from_state" text,
    required "event" text,
    required "to_state" text, required "at" integer]
  primaryKey := []

def agentSessions : Table where
  name := "agent_sessions"
  columns := [required "agent" text, required "id" text, required "messages" text,
    required "created_at" integer,
    required "updated_at" integer]
  primaryKey := ["agent", "id"]

def throttleCursors : Table where
  name := "throttle_cursors"
  columns := [required "queue" text, required "tkey" text, required "next_at" integer]
  primaryKey := ["queue", "tkey"]

end Tables

/-- `MIGRATIONS`, the batch of version `n + 1` at place `n`. -/
def migrations : List (List Stmt) :=
  [[.createTable jobs,
    .createIndex
      { name := "idx_jobs_claim", table := "jobs", columns := ["queue", "status", "available_at"] },
    .createIndex
      { name := "idx_jobs_lease", table := "jobs", columns := ["status", "lease_until"] },
    .createTable schedules],
   [.createTable runs,
    .createIndex
      { name := "idx_runs_idem", table := "runs", columns := ["workflow", "idempotency_key"],
        unique := true,
        whereNotNull := some "idempotency_key" },
    .createIndex
      { name := "idx_runs_wait_event", table := "runs", columns := ["status", "wait_event"] },
    .createIndex { name := "idx_runs_wake", table := "runs", columns := ["status", "wake_at"] },
    .createIndex { name := "idx_runs_parent", table := "runs", columns := ["parent_run_id"] },
    .createTable steps],
   [.addColumn "runs" (.nullable "wait_match" .text),
    .createTable events,
    .createIndex
      { name := "idx_events_time", table := "events", columns := ["emitted_at"],
        descending := ["emitted_at"] },
    .createTable machineInstances,
    .createTable machineHistory,
    .createIndex
      { name := "idx_machine_history", table := "machine_history",
        columns := ["machine", "instance_id", "at"] }],
   [.createTable agentSessions],
   [.createIndex { name := "idx_runs_gc", table := "runs", columns := ["status", "updated_at"] }],
   [.addColumn "jobs" (.defaulted "fence" .integer (.int 0))],
   [.addColumn "jobs" (.nullable "concurrency_key" .text),
    .createIndex
      { name := "idx_jobs_ckey", table := "jobs",
        columns := ["queue", "concurrency_key", "status"] }],
   [.addColumn "jobs" (.nullable "debounce_key" .text),
    .createIndex
      { name := "idx_jobs_debounce", table := "jobs",
        columns := ["queue", "debounce_key", "status"] }],
   [.createTable throttleCursors],
   [.addColumn "runs" (.nullable "subject" .text),
    .createIndex { name := "idx_runs_subject", table := "runs", columns := ["subject"] }]]

def AtVersion (v : Nat) (d : Db) : Prop :=
  Migrations.executeBatch Schema.exec .empty (migrations.take v).flatten = some d.schema

/-- A batch makes its unique indexes over tables that it has created. -/
def uniqueOnCreated : List String → List Stmt → Bool
  | _, [] => true
  | created, .createTable t :: batch => uniqueOnCreated (t.name :: created) batch
  | created, .createIndex i :: batch =>
      (!i.unique || created.contains i.table) && uniqueOnCreated created batch
  | created, .addColumn _ _ :: batch => uniqueOnCreated created batch

theorem migrations_uniqueOnCreated : ∀ m ∈ migrations, uniqueOnCreated [] m = true := by decide

theorem migrations_succeed :
    (Migrations.executeBatch Schema.exec .empty migrations.flatten).isSome = true := by
  decide +kernel

namespace Db

variable {d d' σ σ' : Db}

theorem empty_distinct (i : Index) (t : Table) : i.distinct t [] = true := by
  simp [Index.distinct]

theorem exec_of_schema {s : Stmt} {schema : Schema} (hadmits : d.admits s = true)
    (h : d.schema.exec s = some schema) :
    d.exec s = some ⟨schema, s.rows d.rows⟩ := by
  rw [exec, if_pos hadmits, h, Option.map_some]

theorem executeBatch_of_schema {created : List String} {batch : List Stmt} {schema : Schema}
    (hcreated : ∀ name ∈ created, d.rows name = []) (hunique : uniqueOnCreated created batch = true)
    (h : Migrations.executeBatch Schema.exec d.schema batch = some schema) :
    ∃ d', Migrations.executeBatch exec d batch = some d' ∧ d'.schema = schema ∧ Keeps d d' := by
  induction batch generalizing created d with
  | nil =>
      cases h
      exact ⟨d, rfl, rfl, .refl d⟩
  | cons s batch ih =>
      obtain ⟨schema₁, hs, hrest⟩ := Option.bind_eq_some_iff.mp h
      -- `created'` is what the batch has created after `s`: its tables still hold no row
      obtain ⟨hadmits, created', hcreated', hunique'⟩ : d.admits s = true ∧ ∃ created',
          (∀ name ∈ created', s.rows d.rows name = []) ∧ uniqueOnCreated created' batch = true := by
        cases s with
        | createTable t =>
            refine ⟨rfl, t.name :: created, fun name hmem => ?_, hunique⟩
            by_cases hn : name = t.name
            · rw [hn, Stmt.rows, Function.update_self]
            · rw [Stmt.rows, Function.update_of_ne hn]
              exact hcreated name ((List.mem_cons.mp hmem).resolve_left hn)
        | createIndex i =>
            rw [uniqueOnCreated, Bool.and_eq_true] at hunique
            refine ⟨?_, created, hcreated, hunique.2⟩
            rw [admits]
            cases hu : i.unique with
            | false => rfl
            | true =>
                rw [hu, Bool.not_true, Bool.false_or] at hunique
                rw [hcreated _ (List.contains_iff_mem.mp hunique.1)]
                cases d.schema.table? i.table with
                | none => rfl
                | some t => exact empty_distinct i t
        | addColumn table c =>
            refine ⟨rfl, created, fun name hmem => ?_, hunique⟩
            by_cases hn : name = table
            · rw [hn, Stmt.rows, Function.update_self, hcreated table (hn ▸ hmem), List.map_nil]
            · rw [Stmt.rows, Function.update_of_ne hn, hcreated name hmem]
      have hexec := exec_of_schema hadmits hs
      obtain ⟨d', hbatch, hschema, hkeeps⟩ :=
        ih (d := ⟨schema₁, s.rows d.rows⟩) hcreated' hunique' hrest
      exact ⟨d', by rw [Migrations.executeBatch, hexec, Option.bind_some, hbatch], hschema,
        (exec_keeps hexec).trans hkeeps⟩

theorem migrateFrom_of_schema {ms : List (List Stmt)} {v : Nat} {schema : Schema}
    (hunique : ∀ m ∈ ms, uniqueOnCreated [] m = true)
    (h : Migrations.executeBatch Schema.exec d.schema ms.flatten = some schema) :
    ∃ d', Migrations.migrateFrom exec v ms ⟨d, v⟩ = some ⟨d', v + ms.length⟩ ∧ d'.schema = schema ∧
    Keeps d d' := by
  induction ms generalizing v d with
  | nil =>
      cases h
      exact ⟨d, rfl, rfl, .refl d⟩
  | cons m ms ih =>
      rw [List.flatten_cons, Migrations.executeBatch_append] at h
      obtain ⟨schema₁, hm, hrest⟩ := Option.bind_eq_some_iff.mp h
      obtain ⟨d₁, hbatch, rfl, hkeeps⟩ :=
        executeBatch_of_schema (fun _ hmem => absurd hmem List.not_mem_nil)
        (hunique m List.mem_cons_self) hm
      obtain ⟨d', hfrom, hschema, hkeeps'⟩ :=
        ih (v := v + 1) (fun m' hm' => hunique m' (List.mem_cons_of_mem _ hm')) hrest
      refine ⟨d', ?_, hschema, hkeeps.trans hkeeps'⟩
      rw [Migrations.migrateFrom, hbatch, Option.bind_some, hfrom, List.length_cons, Nat.add_assoc,
        Nat.add_comm 1]

end Db

structure Latest (d : Db) (σ : Versioned Db) : Prop where
  schema : AtVersion migrations.length σ.db
  version : σ.version = migrations.length
  rows : Keeps d σ.db

variable {σ : Versioned Db}

/-- What `migrate` writes to a database, one durable statement after the other. -/
def migrateWrites (σ : Versioned Db) : List (Write Stmt) :=
  Migrations.writes σ.version (migrations.drop σ.version)

theorem migrate_latest (hversion : σ.version ≤ migrations.length) (hat : AtVersion σ.version σ.db) :
    ∃ final, Migrations.migrate Db.exec migrations σ = some final ∧ Latest σ.db final := by
  obtain ⟨latest, hlatest⟩ := Option.isSome_iff_exists.mp migrations_succeed
  have hschema : Migrations.executeBatch Schema.exec σ.db.schema
    (migrations.drop σ.version).flatten = some latest := by
    rw [← hlatest, ← List.take_append_drop σ.version migrations, List.flatten_append,
      Migrations.executeBatch_append, hat,
      Option.bind_some, List.take_append_drop]
  obtain ⟨d', hfrom, hd', hkeeps⟩ := Db.migrateFrom_of_schema (v := σ.version)
    (fun m hm => migrations_uniqueOnCreated m (List.mem_of_mem_drop hm)) hschema
  refine ⟨_, hfrom, ?_, ?_, hkeeps⟩
  · rw [AtVersion, List.take_length, hlatest, hd']
  · rw [List.length_drop, Nat.add_sub_cancel' hversion]

/-- The next open after a crash of `migrate` makes the latest schema exactly where the crash has
left no migration begun whose version is not written. -/
theorem open_after_crash_iff (hversion : σ.version ≤ migrations.length)
    (hat : AtVersion σ.version σ.db) (k : Nat) :
    ∃ σ', Migrations.run Db.exec σ ((migrateWrites σ).take k) = some σ' ∧
      ((∃ final, Migrations.migrate Db.exec migrations σ' = some final ∧ Latest σ.db final) ↔
        Write.between ((migrateWrites σ).take k) = true) := by
  obtain ⟨final, hfinal, hlatest⟩ := migrate_latest hversion hat
  obtain ⟨σ', hcrash⟩ := Migrations.run_take hfinal k
  refine ⟨σ', hcrash, ?_⟩
  rw [Migrations.migrate_after_crash Db.onceOnly hfinal hcrash, ← migrateWrites]
  cases Write.between ((migrateWrites σ).take k) with
  | true => exact ⟨fun _ => rfl, fun _ => ⟨final, rfl, hlatest⟩⟩
  | false =>
      refine ⟨fun h => ?_, fun h => by cases h⟩
      obtain ⟨_, hnone, _⟩ := h
      cases hnone

def newFile : Versioned Db := ⟨⟨.empty, fun _ => []⟩, 0⟩

theorem open_after_crash_first :
    ∃ σ', Migrations.run Db.exec newFile ((migrateWrites newFile).take 5) = some σ' ∧
      ((∃ final, Migrations.migrate Db.exec migrations σ' = some final ∧ Latest newFile.db final) ↔
        Write.between ((migrateWrites newFile).take 5) = true) :=
  open_after_crash_iff (σ := newFile) (Nat.zero_le _) rfl 5

/-- The first open of a data directory stops after `CREATE TABLE jobs`, and every open after it
fails. -/
theorem open_after_crash_fails :
    ∃ σ', Migrations.run Db.exec newFile ((migrateWrites newFile).take 1) = some σ' ∧
      ¬ ∃ final, Migrations.migrate Db.exec migrations σ' = some final := by
  refine ⟨_, rfl, fun h => ?_⟩
  obtain ⟨_, hnone⟩ := h
  cases hnone

end ZenZip.Sqlite
