import ZenZip.Lib.Doubles
import ZenZip.Lib.Fallible
import ZenZip.Postgres.Throttle

namespace ZenZip

open Lib

/-- What `ms` makes of a duration, or the error that it throws. -/
abbrev Ms := Except String Nat

def mathRound (x : ℚ) : Int := ⌊x + 1 / 2⌋

structure DebounceOptions (D : Type) where
  key : D → Except String String
  window : Ms

structure ThrottleOptions (D : Type) where
  key : D → Except String String
  max : ℚ
  per : Ms

structure PushOptions where
  delay : Option Ms
  priority : Option Int
  retries : Option Nat

structure JsPushOptions where
  delayMs : Option Nat
  priority : Option Int
  maxAttempts : Nat
  concurrencyKey : Option String
  debounceKey : Option String
  throttleKey : Option String
  throttleSpacingMs : Option Int

/-- A queue for data `D`. Where `undefined` may stand for the data or its text, it is none. -/
structure Queue (D : Type) where
  name : String
  /-- The `key` of a `concurrency` that is an object. -/
  concurrencyKey : Option (D → Except String String)
  retries : Option Nat
  debounce : Option (DebounceOptions D)
  throttle : Option (ThrottleOptions D)
  maxPending : Option Int
  schema : Option (Option D → Except String (Except (List String) (Option D)))
  stringify : Option D → Except String (Option Json)
  defaultRetries : Nat

/-- The quotient is one of doubles. -/
def throttleSpacing (limit : ℚ) (per : Nat) : Int :=
  max 1 (mathRound (toDouble (per / max 1 limit)))

/-- The job that the runtime makes of a payload. A number beyond the largest `i64` becomes that one.
-/
def nativeJob (queue : String) (payload : Json) (options : JsPushOptions) : PushJob where
  queue := queue
  payload := .data payload
  priority := options.priority.getD 0
  delayMs := min (options.delayMs.getD 0 : Nat) i64Max
  maxAttempts := options.maxAttempts
  concurrencyKey := options.concurrencyKey
  debounceKey := options.debounceKey
  throttleKey := options.throttleKey
  throttleSpacingMs := options.throttleSpacingMs.map (min · i64Max)

namespace Queue

variable {D : Type} (q : Queue D)

def keyFor (key : Option (D → Except String String)) (data : Option D) :
    Option (Except String String) :=
  key.bind (fun key => data.map key)

def delay (options : PushOptions) : Option Ms :=
  match q.debounce with
  | some deb => some deb.window
  | none => options.delay

def spacing (data : Option D) : Option (Except String Int) :=
  match q.throttle, data with
  | some thr, some _ => some (thr.per.map (throttleSpacing thr.max))
  | _, _ => none

def pushOptions (options : PushOptions) (data : Option D) : Except String JsPushOptions := do
  let delayMs ← (q.delay options).mapM id
  let concurrencyKey ← (keyFor q.concurrencyKey data).mapM id
  let debounceKey ← (keyFor (q.debounce.map (·.key)) data).mapM id
  let throttleKey ← (keyFor (q.throttle.map (·.key)) data).mapM id
  let throttleSpacingMs ← (q.spacing data).mapM id
  pure {
    delayMs
    priority := options.priority
    maxAttempts := (options.retries <|> q.retries).getD q.defaultRetries + 1
    concurrencyKey
    debounceKey
    throttleKey
    throttleSpacingMs }

def invalid (issues : List String) : String :=
  "invalid payload for queue \"" ++ q.name ++ "\": " ++ String.intercalate "; " issues

def validate (data : Option D) : Except String (Option Json) :=
  match q.schema with
  | none => q.stringify data
  | some schema => schema data >>= fun
    | .error issues => .error (q.invalid issues)
    | .ok value => q.stringify value

def noText : String := "Failed to convert JavaScript value to rust type `String`"

def job (data : Option D) (options : PushOptions) : Except String PushJob := do
  let payload ← q.validate data
  let opts ← q.pushOptions options data
  match payload with
  | none => .error noText
  | some payload => .ok (nativeJob q.name payload opts)

variable {q} {data : Option D} {options : PushOptions} {opts : JsPushOptions} {job : PushJob}

theorem pushOptions_ok (h : q.pushOptions options data = .ok opts) :
    q.delay options = opts.delayMs.map .ok ∧
      keyFor (q.throttle.map (·.key)) data = opts.throttleKey.map .ok ∧
      q.spacing data = opts.throttleSpacingMs.map .ok := by
  rw [pushOptions] at h
  obtain ⟨delayMs, hdelay, h⟩ := bind_eq_ok.mp h
  obtain ⟨concurrencyKey, _, h⟩ := bind_eq_ok.mp h
  obtain ⟨debounceKey, _, h⟩ := bind_eq_ok.mp h
  obtain ⟨throttleKey, hkey, h⟩ := bind_eq_ok.mp h
  obtain ⟨throttleSpacingMs, hspacing, h⟩ := bind_eq_ok.mp h
  cases h
  exact ⟨mapM_id_eq_ok.mp hdelay, mapM_id_eq_ok.mp hkey, mapM_id_eq_ok.mp hspacing⟩

theorem job_ok (h : q.job data options = .ok job) :
    ∃ payload opts, q.pushOptions options data = .ok opts ∧
    job = nativeJob q.name payload opts := by
  rw [Queue.job] at h
  obtain ⟨payload, _, h⟩ := bind_eq_ok.mp h
  obtain ⟨opts, hopts, h⟩ := bind_eq_ok.mp h
  cases payload with
  | none => cases h
  | some payload =>
      cases h
      exact ⟨payload, opts, hopts, rfl⟩

end Queue

end ZenZip
