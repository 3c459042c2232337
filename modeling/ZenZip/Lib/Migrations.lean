import Mathlib.Data.List.Basic

namespace ZenZip.Lib

structure Versioned (D : Type) where
  db : D
  version : Nat

/-- What a migration writes, one durable write after the other. -/
inductive Write (S : Type)
  | statement (s : S)
  | setVersion (n : Nat)

namespace Write

variable {S : Type}

def isSetVersion : Write S → Bool
  | .setVersion _ => true
  | .statement _ => false

def between (done : List (Write S)) : Bool := done.getLast?.all isSetVersion

theorem between_statements {s : S} {m : List S} :
    between ((s :: m).map Write.statement) = false := by
  obtain ⟨t, ht⟩ := List.getLast?_isSome.mpr (List.cons_ne_nil s m) |> Option.isSome_iff_exists.mp
  rw [between, List.getLast?_map, ht]
  rfl

theorem between_append (before done : List (Write S)) (n : Nat) :
    between (before ++ .setVersion n :: done) = between done := by
  rw [between, List.getLast?_append]
  cases done with
  | nil => rfl
  | cons w done =>
      rw [List.getLast?_cons_cons]
      obtain ⟨t, ht⟩ :=
        List.getLast?_isSome.mpr (List.cons_ne_nil w done) |> Option.isSome_iff_exists.mp
      rw [between, ht]
      rfl

end Write

namespace Migrations

variable {D S : Type} (exec : D → S → Option D)

def write (σ : Versioned D) : Write S → Option (Versioned D)
  | .statement s => (exec σ.db s).map (fun db => { σ with db })
  | .setVersion n => some { σ with version := n }

def run (σ : Versioned D) : List (Write S) → Option (Versioned D)
  | [] => some σ
  | w :: ws => (write exec σ w).bind (fun σ' => run σ' ws)

/-- The statements of a batch one by one, up to the first that fails. -/
def executeBatch (db : D) : List S → Option D
  | [] => some db
  | s :: batch => (exec db s).bind (fun db' => executeBatch db' batch)

def migrateFrom : Nat → List (List S) → Versioned D → Option (Versioned D)
  | _, [], σ => some σ
  | v, m :: ms, σ => (executeBatch exec σ.db m).bind (fun db => migrateFrom (v + 1) ms ⟨db, v + 1⟩)

/-- Opening a database runs the migrations that its version does not count. -/
def migrate (migrations : List (List S)) (σ : Versioned D) : Option (Versioned D) :=
  migrateFrom exec σ.version (migrations.drop σ.version) σ

def writes : Nat → List (List S) → List (Write S)
  | _, [] => []
  | v, m :: ms => m.map .statement ++ .setVersion (v + 1) :: writes (v + 1) ms

/-- A statement that has been executed cannot be executed again. -/
structure OnceOnly (done : D → S → Prop) : Prop where
  executed : ∀ d s d', exec d s = some d' → done d' s
  keeps : ∀ d s t d', done d s → exec d t = some d' → done d' s
  refuses : ∀ d s, done d s → exec d s = none

variable {exec} {done : D → S → Prop} {σ σ' final : Versioned D} {v k : Nat} {m : List S}
  {ms migrations : List (List S)}

theorem run_append (ws ws' : List (Write S)) : run exec σ (ws ++ ws') = (run exec σ ws).bind
    (fun σ' => run exec σ' ws') := by
  induction ws generalizing σ with
  | nil => rfl
  | cons w ws ih =>
      rw [List.cons_append, run, run]
      cases write exec σ w with
      | none => rfl
      | some σ' => exact ih

theorem executeBatch_append (db : D) (m m' : List S) :
    executeBatch exec db (m ++ m') = (executeBatch exec db m).bind
      (fun db' => executeBatch exec db' m') := by
  induction m generalizing db with
  | nil => rfl
  | cons s m ih =>
      rw [List.cons_append, executeBatch, executeBatch]
      cases exec db s with
      | none => rfl
      | some db' => exact ih db'

theorem run_statements (m : List S) : run exec σ (m.map .statement) = (executeBatch exec σ.db m).map
    (fun db => { σ with db }) := by
  induction m generalizing σ with
  | nil => rfl
  | cons s m ih =>
      rw [List.map_cons, run, write, executeBatch]
      cases exec σ.db s with
      | none => rfl
      | some db => exact ih

theorem migrateFrom_eq_run : migrateFrom exec v ms σ = run exec σ (writes v ms) := by
  induction ms generalizing v σ with
  | nil => rfl
  | cons m ms ih =>
      rw [migrateFrom, writes, run_append, run_statements]
      cases executeBatch exec σ.db m with
      | none => rfl
      | some db => exact ih

theorem done_of_batch (honce : OnceOnly exec done) {db db' : D} {s : S} (hdone : done db s)
    (h : executeBatch exec db m = some db') :
    done db' s := by
  induction m generalizing db with
  | nil =>
      cases h
      exact hdone
  | cons t m ih =>
      obtain ⟨db'', ht, hrest⟩ := Option.bind_eq_some_iff.mp h
      exact ih (honce.keeps db s t db'' hdone ht) hrest

/-- The writes before a crash end between two migrations, and the next open goes on where they stop,
or they end within one, and the next open begins it again. -/
theorem crash_cases (honce : OnceOnly exec done)
    (hrun : run exec σ ((writes v ms).take k) = some σ') (hv : σ.version = v) :
    (Write.between ((writes v ms).take k) = true ∧
      ∃ n, σ'.version = v + n ∧ writes (v + n) (ms.drop n) = (writes v ms).drop k) ∨
    (Write.between ((writes v ms).take k) = false ∧
      ∃ n s rest, σ'.version = v + n ∧ writes (v + n) (ms.drop n) = .statement s :: rest ∧
      done σ'.db s) := by
  induction ms generalizing v k σ with
  | nil =>
      rw [writes, List.take_nil] at hrun
      cases hrun
      refine .inl ⟨by rw [writes, List.take_nil]; rfl, 0, hv, ?_⟩
      rw [List.drop_nil, writes, writes, List.drop_nil]
  | cons m ms ih =>
      by_cases hle : k ≤ m.length
      · have htake : (writes v (m :: ms)).take k = (m.take k).map .statement := by
          rw [writes, List.take_append_of_le_length (by rwa [List.length_map]), List.map_take]
        rw [htake, run_statements] at hrun
        rw [htake]
        obtain ⟨db, hbatch, rfl⟩ := Option.map_eq_some_iff.mp hrun
        cases hm : m.take k with
        | nil =>
            refine .inl ⟨rfl, 0, hv, ?_⟩
            calc writes v (m :: ms) = (writes v (m :: ms)).take k ++ (writes v (m :: ms)).drop k :=
                  (List.take_append_drop _ _).symm
              _ = (writes v (m :: ms)).drop k := by rw [htake, hm, List.map_nil, List.nil_append]
        | cons s m' =>
            rw [hm] at hbatch
            obtain ⟨db', hs, hrest⟩ := Option.bind_eq_some_iff.mp hbatch
            have hsplit : m = s :: (m' ++ m.drop k) := by
              rw [← List.cons_append, ← hm, List.take_append_drop]
            have hfirst : writes v (m :: ms) =
                .statement s ::
                  ((m' ++ m.drop k).map .statement ++
                    .setVersion (v + 1) :: writes (v + 1) ms) := by
              rw [writes]
              nth_rewrite 1 [hsplit]
              rfl
            exact .inr ⟨Write.between_statements, 0, s, _, hv, hfirst,
              done_of_batch honce (honce.executed _ _ _ hs) hrest⟩
      · -- the whole batch and its version are written: the crash is one of the migrations after it
        obtain ⟨k', rfl⟩ : ∃ k', k = m.length + (k' + 1) := ⟨k - (m.length + 1), by omega⟩
        have htake : (writes v (m :: ms)).take (m.length + (k' + 1)) =
            m.map .statement ++ .setVersion (v + 1) :: (writes (v + 1) ms).take k' := by
          rw [writes, ← List.length_map (f := Write.statement), List.take_length_add_append,
            List.take_succ_cons]
        have hdrop : (writes v (m :: ms)).drop (m.length + (k' + 1)) =
          (writes (v + 1) ms).drop k' := by
          rw [writes, ← List.length_map (f := Write.statement), List.drop_length_add_append,
            List.drop_succ_cons]
        rw [htake, run_append] at hrun
        obtain ⟨σ₁, _, hrest⟩ := Option.bind_eq_some_iff.mp hrun
        rw [htake, hdrop, Write.between_append]
        obtain ⟨hbetween, n, hversion, hwrites⟩ | ⟨hwithin, n, s, rest, hversion, hwrites, hdone⟩ :=
          ih (v := v + 1) (σ := { σ₁ with version := v + 1 }) hrest rfl
        · refine .inl ⟨hbetween, n + 1, by rw [hversion]; omega, ?_⟩
          rwa [List.drop_succ_cons, Nat.add_comm n, ← Nat.add_assoc]
        · refine .inr ⟨hwithin, n + 1, s, rest, by rw [hversion]; omega, ?_, hdone⟩
          rwa [List.drop_succ_cons, Nat.add_comm n, ← Nat.add_assoc]

/-- The next open after a crash ends where the undisturbed one ends, if no migration was half done,
and fails else. -/
theorem migrate_after_crash (honce : OnceOnly exec done)
    (hfinal : migrate exec migrations σ = some final)
    (hrun : run exec σ ((writes σ.version (migrations.drop σ.version)).take k) = some σ') :
    migrate exec migrations σ' =
      if Write.between ((writes σ.version (migrations.drop σ.version)).take k) then some final
        else none := by
  rw [migrate, migrateFrom_eq_run] at hfinal
  obtain ⟨hbetween, n, hversion, hwrites⟩ | ⟨hwithin, n, s, rest, hversion, hwrites, hdone⟩ :=
    crash_cases honce hrun rfl
  · rw [hbetween, if_pos rfl, migrate, migrateFrom_eq_run, hversion, ← List.drop_drop,
      hwrites, ← hfinal]
    conv_rhs => rw [← List.take_append_drop k (writes _ _), run_append, hrun]
    rfl
  · rw [hwithin, migrate, migrateFrom_eq_run, hversion, ← List.drop_drop, hwrites, run, write,
      honce.refuses _ _ hdone]
    rfl

theorem run_take (hfinal : migrate exec migrations σ = some final) (k : Nat) :
    ∃ σ', run exec σ ((writes σ.version (migrations.drop σ.version)).take k) = some σ' := by
  rw [migrate, migrateFrom_eq_run, ← List.take_append_drop k (writes _ _), run_append] at hfinal
  obtain ⟨σ', hrun, _⟩ := Option.bind_eq_some_iff.mp hfinal
  exact ⟨σ', hrun⟩

end Migrations

end ZenZip.Lib
