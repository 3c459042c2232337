import ZenZip.Lib.Stmts
import ZenZip.Crypto.Cipher
import ZenZip.Machine.Tables
import ZenZip.Scheduler.Tables
import ZenZip.Postgres.Cancel

namespace ZenZip

open Lib

inductive Backend
  | sqlite | postgres
  deriving DecidableEq

namespace Json

/-- A payload column holds its text `t` as `str t`. -/
def mapText (f : String → String) : Json → Json
  | .str t => .str (f t)
  | v => v

end Json

namespace Payload

def text (t : String) : Payload := .data (.str t)

def mapText (f : String → String) : Payload → Payload
  | .data v => .data (v.mapText f)
  | .execution id => .execution id

end Payload

def JobRow.mapText (f : String → String) (j : JobRow) : JobRow :=
  { j with payload := j.payload.mapText f }

def ClaimedJob.mapText (f : String → String) (j : ClaimedJob) : ClaimedJob :=
  { j with payload := j.payload.mapText f }

def RunRow.mapText (f : String → String) (r : RunRow) : RunRow :=
  { r with input := r.input.mapText f, output := r.output.map (Json.mapText f) }

def StepRow.mapText (f : String → String) (r : StepRow) : StepRow :=
  { r with result := r.result.map (Json.mapText f) }

def StepEntry.mapText (f : String → String) (e : StepEntry) : StepEntry :=
  { e with result := e.result.map (Json.mapText f) }

def EventRow.mapText (f : String → String) (e : EventRow) : EventRow :=
  { e with payload := e.payload.mapText f }

structure DeadJob where
  id : JobId
  queue : String
  payload : Payload
  attempt : Nat
  lastError : Option String
  createdAt : Time
  deriving DecidableEq

def DeadJob.mapText (f : String → String) (j : DeadJob) : DeadJob :=
  { j with payload := j.payload.mapText f }

structure QueueStat where
  queue : String
  pending : Nat
  running : Nat
  dead : Nat
  deriving DecidableEq

structure SessionRow where
  agent : String
  id : String
  messages : String
  createdAt : Time
  updatedAt : Time
  deriving DecidableEq

namespace SessionRow

def key (r : SessionRow) : String × String := (r.agent, r.id)

end SessionRow

/-- JSON texts, as `serde_json` reads and writes them. -/
structure Serde where
  fromStr : String → Option Json
  toString : Json → String

structure Env where
  backend : Backend
  primitives : Primitives
  crypto : Crypto
  nonces : Nat → Nonce
  serde : Serde

/-- The clocks of the node and of the database, and the rows that other transactions
hold, which only Postgres has. -/
structure Moment where
  now : Time
  dbNow : Time
  locked : List RunId

/-- The tables as they are stored. `drawn` counts the writes that have drawn a nonce; one that
is rolled back leaves no text, so its nonce is drawn again. -/
structure Db extends MachineStore where
  schedules : Table ScheduleRow.name
  sessions : Table SessionRow.key
  drawn : Nat

namespace Env

variable (E : Env)

def enc (n : Nat) (plaintext : String) : String := E.crypto.enc E.primitives (E.nonces n) plaintext

def dec (stored : String) : String := E.crypto.dec E.primitives stored

theorem dec_enc (hP : E.primitives.Lawful) (n : Nat) (t : String) : E.dec (E.enc n t) = t :=
  E.crypto.dec_enc hP (E.nonces n) t

/-- Leases run from the clock of the node in SQLite and from that of the database in Postgres. -/
def leaseClock (m : Moment) : Time :=
  match E.backend with
  | .sqlite => m.now
  | .postgres => m.dbNow

def lockedRows (m : Moment) : List RunId :=
  match E.backend with
  | .sqlite => []
  | .postgres => m.locked

/-- A SQLite store with a key, over the cipher that only tags. -/
def tagged (serde : Serde) : Env where
  backend := .sqlite
  primitives := .tagged
  crypto := .new .tagged (some "secret-key")
  nonces := fun _ => ⟨⟨Array.replicate nonceLen 0⟩, rfl⟩
  serde := serde

end Env

namespace Db

variable {α : Type}

def empty : Db := ⟨⟨.empty, .empty, []⟩, .empty, .empty, 0⟩

def ask (f : Db → α) : Stmts Db α := .exec fun db => (db, f db)

def engine (f : Store → Store × α) : Stmts Db α :=
  .exec fun db => ({ db with store := (f db.store).1 }, (f db.store).2)

def sealing (E : Env) (f : (String → String) → Store → Store × α) : Stmts Db α :=
  .exec fun db =>
    let (store, a) := f (E.enc db.drawn) db.store
    ({ db with store, drawn := db.drawn + 1 }, a)

end Db

end ZenZip
