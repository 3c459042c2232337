import Mathlib.Logic.Function.Basic
import ZenZip.Lib.Migrations

namespace ZenZip.Sqlite

inductive Value
  | null
  | int (n : Int)
  | text (s : String)
  deriving DecidableEq

inductive ColumnType
  | text | integer
  deriving DecidableEq

structure Column where
  name : String
  type : ColumnType
  notNull : Bool
  default : Option Value
  deriving DecidableEq

namespace Column

/-- `name TYPE`. -/
def nullable (name : String) (type : ColumnType) : Column := ⟨name, type, false, none⟩

/-- `name TYPE NOT NULL`. -/
def required (name : String) (type : ColumnType) : Column := ⟨name, type, true, none⟩

/-- `name TYPE NOT NULL DEFAULT value`. -/
def defaulted (name : String) (type : ColumnType) (value : Value) : Column :=
  ⟨name, type, true, some value⟩

/-- What a row that is there before the column holds in it. -/
def initial (c : Column) : Value := c.default.getD .null

end Column

abbrev Row := List Value

structure Table where
  name : String
  columns : List Column
  primaryKey : List String
  deriving DecidableEq

namespace Table

def columnNames (t : Table) : List String := t.columns.map Column.name

def wellFormed (t : Table) : Bool :=
  decide t.columnNames.Nodup && t.primaryKey.all t.columnNames.contains

def addColumn (t : Table) (c : Column) : Table := { t with columns := t.columns ++ [c] }

def value (t : Table) (column : String) (row : Row) : Value :=
  row.getD (t.columnNames.idxOf column) .null

end Table

structure Index where
  name : String
  table : String
  columns : List String
  descending : List String := []
  unique : Bool := false
  /-- `WHERE column IS NOT NULL`. -/
  whereNotNull : Option String := none
  deriving DecidableEq

namespace Index

def fits (i : Index) (t : Table) : Bool :=
  i.columns.all t.columnNames.contains && i.whereNotNull.all t.columnNames.contains

def covers (i : Index) (t : Table) (row : Row) : Bool :=
  i.whereNotNull.all (fun c => t.value c row != .null)

def key (i : Index) (t : Table) (row : Row) : List Value := i.columns.map (fun c => t.value c row)

/-- `NULL`s are different from one another in an index. -/
def clash (i : Index) (t : Table) (row row' : Row) : Bool :=
  i.key t row == i.key t row' && !(i.key t row).contains .null

def distinct (i : Index) (t : Table) (rows : List Row) : Bool :=
  decide ((rows.filter (i.covers t)).Pairwise (fun row row' => i.clash t row row' = false))

end Index

inductive Stmt
  | createTable (t : Table)
  | createIndex (i : Index)
  | addColumn (table : String) (c : Column)

structure Schema where
  tables : List Table
  indexes : List Index
  deriving DecidableEq

namespace Schema

def empty : Schema := ⟨[], []⟩

def table? (schema : Schema) (name : String) : Option Table :=
  schema.tables.find? (fun t => t.name == name)

/-- Tables and indexes share their names. -/
def named (schema : Schema) (name : String) : Bool :=
  schema.tables.any (fun t => t.name == name) || schema.indexes.any (fun i => i.name == name)

def addColumn (schema : Schema) (table : String) (c : Column) : Schema :=
  { schema with
    tables := schema.tables.map (fun t => if t.name == table then t.addColumn c else t) }

def exec (schema : Schema) : Stmt → Option Schema
  | .createTable t =>
      if schema.named t.name || !t.wellFormed then none
        else some { schema with tables := schema.tables ++ [t] }
  | .createIndex i =>
      (schema.table? i.table).bind (fun t =>
        if schema.named i.name || !i.fits t then none
          else some { schema with indexes := schema.indexes ++ [i] })
  | .addColumn table c =>
      (schema.table? table).bind (fun t =>
        if t.columnNames.contains c.name || c.notNull && c.default.isNone then none
        else some (schema.addColumn table c))

end Schema

structure Db where
  schema : Schema
  rows : String → List Row

def Stmt.rows (s : Stmt) (rows : String → List Row) : String → List Row :=
  match s with
  | .createTable t => Function.update rows t.name []
  | .createIndex _ => rows
  | .addColumn table c =>
      Function.update rows table ((rows table).map (fun row => row ++ [c.initial]))

namespace Db

/-- A unique index is refused over rows that are not distinct. -/
def admits (d : Db) : Stmt → Bool
  | .createIndex i =>
      !i.unique || (d.schema.table? i.table).all (fun t => i.distinct t (d.rows i.table))
  | _ => true

/-- A statement, with the error left out. -/
def exec (d : Db) (s : Stmt) : Option Db :=
  if d.admits s then (d.schema.exec s).map (fun schema => ⟨schema, s.rows d.rows⟩) else none

end Db

namespace Schema

def Done (schema : Schema) : Stmt → Prop
  | .createTable t => schema.named t.name = true
  | .createIndex i => schema.named i.name = true
  | .addColumn table c => ∃ t, schema.table? table = some t ∧ t.columnNames.contains c.name = true

variable {schema schema' : Schema} {name table : String} {t : Table} {i : Index} {c : Column}
  {s s' : Stmt}

theorem table?_named (h : schema.table? name = some t) : schema.named name = true := by
  have hname : (t.name == name) = true := List.find?_some (p := fun t : Table => t.name == name) h
  rw [named, List.any_eq_true.mpr ⟨t, List.mem_of_find?_eq_some h, hname⟩, Bool.true_or]

theorem table?_addColumn (schema : Schema) (name table : String) (c : Column) :
    (schema.addColumn table c).table? name =
      (schema.table? name).map (fun t => if t.name == table then t.addColumn c else t) := by
  rw [table?, addColumn, List.find?_map]
  congr 2
  funext t
  rw [Function.comp_apply]
  split <;> rfl

theorem named_addColumn (schema : Schema) (name table : String) (c : Column) :
    (schema.addColumn table c).named name = schema.named name := by
  rw [named, named, addColumn, List.any_map]
  congr 2
  funext t
  rw [Function.comp_apply]
  split <;> rfl

theorem table?_append (h : schema.table? name = some t) (tables : List Table) :
    ({ schema with tables := schema.tables ++ tables } : Schema).table? name = some t := by
  rw [table?, List.find?_append, show schema.tables.find? _ = some t from h, Option.some_or]

theorem exec_createTable (h : schema.exec (.createTable t) = some schema') :
    schema.named t.name = false ∧ schema' = { schema with tables := schema.tables ++ [t] } := by
  rw [exec] at h
  split at h
  · cases h
  · next hor =>
      rw [Bool.or_eq_true, not_or, Bool.not_eq_true] at hor
      cases h
      exact ⟨hor.1, rfl⟩

theorem exec_createIndex (h : schema.exec (.createIndex i) = some schema') :
    schema.named i.name = false ∧ schema' = { schema with indexes := schema.indexes ++ [i] } := by
  obtain ⟨t, _, h⟩ := Option.bind_eq_some_iff.mp h
  split at h
  · cases h
  · next hor =>
      rw [Bool.or_eq_true, not_or, Bool.not_eq_true] at hor
      cases h
      exact ⟨hor.1, rfl⟩

theorem exec_addColumn (h : schema.exec (.addColumn table c) = some schema') :
    (∃ t, schema.table? table = some t ∧ t.columnNames.contains c.name = false) ∧
    schema' = schema.addColumn table c := by
  obtain ⟨t, htable, h⟩ := Option.bind_eq_some_iff.mp h
  split at h
  · cases h
  · next hor =>
      rw [Bool.or_eq_true, not_or, Bool.not_eq_true] at hor
      cases h
      exact ⟨⟨t, htable, hor.1⟩, rfl⟩

theorem exec_named (h : schema.exec s = some schema') (hname : schema.named name = true) :
    schema'.named name = true := by
  cases s with
  | createTable t =>
      obtain ⟨_, rfl⟩ := exec_createTable h
      rw [named, Bool.or_eq_true] at hname ⊢
      exact hname.imp_left (fun hany => by rw [List.any_append, hany, Bool.true_or])
  | createIndex i =>
      obtain ⟨_, rfl⟩ := exec_createIndex h
      rw [named, Bool.or_eq_true] at hname ⊢
      exact hname.imp_right (fun hany => by rw [List.any_append, hany, Bool.true_or])
  | addColumn table c =>
      obtain ⟨_, rfl⟩ := exec_addColumn h
      rwa [named_addColumn]

theorem exec_table? (h : schema.exec s = some schema') (htable : schema.table? name = some t) :
    ∃ t', schema'.table? name = some t' ∧
      t'.columns = t.columns ++ (match s with
        | .addColumn table c => if name = table then [c] else []
        | _ => []) := by
  cases s with
  | createTable t' =>
      obtain ⟨_, rfl⟩ := exec_createTable h
      exact ⟨t, table?_append htable _, (List.append_nil _).symm⟩
  | createIndex i =>
      obtain ⟨_, rfl⟩ := exec_createIndex h
      exact ⟨t, htable, (List.append_nil _).symm⟩
  | addColumn table c =>
      obtain ⟨_, rfl⟩ := exec_addColumn h
      refine ⟨_, by rw [table?_addColumn, htable, Option.map_some], ?_⟩
      have hname : t.name = name :=
        eq_of_beq (List.find?_some (p := fun t : Table => t.name == name) htable)
      by_cases hn : name = table
      · simp only [hname, hn, beq_self_eq_true, if_true, Table.addColumn]
      · simp only [hname, beq_eq_false_iff_ne.mpr hn, if_neg hn, Bool.false_eq_true, if_false,
          List.append_nil]

theorem onceOnly : Lib.Migrations.OnceOnly exec Done where
  executed schema s schema' h := by
    cases s with
    | createTable t =>
        obtain ⟨_, rfl⟩ := exec_createTable h
        simp [Done, named]
    | createIndex i =>
        obtain ⟨_, rfl⟩ := exec_createIndex h
        simp [Done, named]
    | addColumn table c =>
        obtain ⟨⟨t, htable, _⟩, _⟩ := exec_addColumn h
        obtain ⟨t', htable', hcolumns⟩ := exec_table? h htable
        exact ⟨t', htable', by simp [Table.columnNames, hcolumns]⟩
  keeps schema s s' schema' hdone h := by
    cases s with
    | createTable t => exact exec_named h hdone
    | createIndex i => exact exec_named h hdone
    | addColumn table c =>
        obtain ⟨t, htable, hcontains⟩ := hdone
        obtain ⟨t', htable', hcolumns⟩ := exec_table? h htable
        refine ⟨t', htable', ?_⟩
        rw [Table.columnNames, hcolumns, List.map_append, List.contains_append]
        exact Bool.or_eq_true_iff.mpr (.inl hcontains)
  refuses schema s hdone := by
    cases s with
    | createTable t =>
        rw [exec, show schema.named t.name = true from hdone, Bool.true_or, if_pos rfl]
    | createIndex i =>
        refine Option.bind_eq_none_iff.mpr (fun t _ => ?_)
        rw [show schema.named i.name = true from hdone, Bool.true_or, if_pos rfl]
    | addColumn table c =>
        obtain ⟨t, htable, hcontains⟩ := hdone
        rw [exec, htable, Option.bind_some, hcontains, Bool.true_or, if_pos rfl]

end Schema

/-- The tables of `d` are there, and their rows as they were, with the initial values of the columns
added since. -/
def Keeps (d d' : Db) : Prop :=
  ∀ name t, d.schema.table? name = some t → ∃ (t' : Table) (added : List Column),
    d'.schema.table? name = some t' ∧
    t'.columns = t.columns ++ added ∧
      d'.rows name = (d.rows name).map (fun row => row ++ added.map Column.initial)

namespace Db

variable {d d' d'' : Db} {s : Stmt}

theorem exec_eq_some (h : d.exec s = some d') :
    d.admits s = true ∧ d.schema.exec s = some d'.schema ∧ d'.rows = s.rows d.rows := by
  rw [exec] at h
  split at h
  · next hadmits =>
      obtain ⟨schema, hschema, rfl⟩ := Option.map_eq_some_iff.mp h
      exact ⟨hadmits, hschema, rfl⟩
  · cases h

theorem onceOnly : Lib.Migrations.OnceOnly exec (fun d => d.schema.Done) where
  executed d s d' h := Schema.onceOnly.executed d.schema s d'.schema (exec_eq_some h).2.1
  keeps d s t d' hdone h := Schema.onceOnly.keeps d.schema s t d'.schema hdone (exec_eq_some h).2.1
  refuses d s hdone := by
    rw [exec, Schema.onceOnly.refuses d.schema s hdone, Option.map_none, ite_self]

theorem exec_keeps (h : d.exec s = some d') : Keeps d d' := by
  obtain ⟨_, hschema, hrows⟩ := exec_eq_some h
  intro name t htable
  obtain ⟨t', htable', hcolumns⟩ := Schema.exec_table? hschema htable
  refine ⟨t', _, htable', hcolumns, ?_⟩
  rw [hrows]
  cases s with
  | createTable t₁ =>
      obtain ⟨hnamed, _⟩ := Schema.exec_createTable hschema
      have hne : name ≠ t₁.name := by
        rintro rfl
        rw [Schema.table?_named htable] at hnamed
        cases hnamed
      simp only [Stmt.rows, Function.update_of_ne hne, List.map_nil, List.append_nil, List.map_id']
  | createIndex i => simp only [Stmt.rows, List.map_nil, List.append_nil, List.map_id']
  | addColumn table c =>
      by_cases hn : name = table
      · subst hn
        simp only [Stmt.rows, Function.update_self, if_true, List.map_cons, List.map_nil]
      · simp only [Stmt.rows, Function.update_of_ne hn, if_neg hn, List.map_nil, List.append_nil,
          List.map_id']

end Db

namespace Keeps

variable {d d' d'' : Db}

theorem refl (d : Db) : Keeps d d :=
  fun _ t htable =>
    ⟨t, [], htable,
      (List.append_nil _).symm, by simp only [List.map_nil, List.append_nil, List.map_id']⟩

theorem trans (h : Keeps d d') (h' : Keeps d' d'') : Keeps d d'' := by
  intro name t htable
  obtain ⟨t', added, htable', hcolumns, hrows⟩ := h name t htable
  obtain ⟨t'', added', htable'', hcolumns', hrows'⟩ := h' name t' htable'
  refine ⟨t'', added ++ added', htable'', by rw [hcolumns', hcolumns, List.append_assoc], ?_⟩
  rw [hrows', hrows, List.map_map]
  apply List.map_congr_left
  intro row _
  rw [Function.comp_apply, List.map_append, List.append_assoc]

end Keeps

end ZenZip.Sqlite
