import ZenZip.Lib.Run
import ZenZip.Store.Rows

namespace ZenZip

open Lib

inductive CircuitState
  | closed | opened | halfOpen
  deriving DecidableEq

/-- A duration: a number of milliseconds, or a text that `ms` reads as one. -/
inductive Duration
  | number (n : Nat)
  | text (n : Nat)

namespace Duration

def ms : Duration → Nat
  | .number n | .text n => n

/-- The number zero is falsy, and a text that `ms` reads is not. -/
def truthy : Duration → Bool
  | .number n => n ≠ 0
  | .text _ => true

end Duration

structure CircuitBreakerOptions (E : Type) where
  failureThreshold : Option Int
  resetTimeout : Option Duration
  halfOpenMax : Option Int
  /-- None is `Infinity`. -/
  maxConcurrent : Option Int
  isFailure : Option (E → Bool)
  name : Option String

inductive RunError
  | circuitOpen (name : Option String)
  | bulkheadFull (limit : Int) (name : Option String)

namespace RunError

def code : RunError → String
  | .circuitOpen _ => "CIRCUIT_OPEN"
  | .bulkheadFull _ _ => "BULKHEAD_FULL"

def label (name : Option String) : String :=
  match name with
  | none | some "" => ""
  | some name => " \"" ++ name ++ "\""

def message : RunError → String
  | .circuitOpen name => "circuit breaker" ++ label name ++ " is open"
  | .bulkheadFull limit name =>
      "bulkhead" ++ label name ++ " is full (max " ++ toString limit ++ " concurrent)"

end RunError

/-- The fields that a constructor sets once. -/
structure BreakerConfig (E : Type) where
  threshold : Int
  resetMs : Nat
  halfOpenMax : Int
  maxConcurrent : Option Int
  isFailure : E → Bool
  name : Option String
  one_le_threshold : 1 ≤ threshold
  one_le_halfOpenMax : 1 ≤ halfOpenMax

/-- The fields that change. `observed` is what `onStateChange` has been called with. -/
structure CircuitBreaker where
  state : CircuitState
  failures : Int
  openedAt : Time
  halfOpenInFlight : Int
  inFlight : Int
  observed : List CircuitState

namespace CircuitBreaker

variable {E : Type}

def config (o : CircuitBreakerOptions E) : BreakerConfig E where
  threshold := max 1 (o.failureThreshold.getD 5)
  resetMs := match o.resetTimeout with
    | some d => if d.truthy then d.ms else 30000
    | none => 30000
  halfOpenMax := max 1 (o.halfOpenMax.getD 1)
  maxConcurrent := o.maxConcurrent
  isFailure := o.isFailure.getD (fun _ => true)
  name := o.name
  one_le_threshold := Int.le_max_left 1 _
  one_le_halfOpenMax := Int.le_max_left 1 _

def new : CircuitBreaker := ⟨.closed, 0, 0, 0, 0, []⟩

variable (cfg : BreakerConfig E) (b : CircuitBreaker) (now : Time)

def transition (next : CircuitState) : CircuitBreaker :=
  if b.state = next then b
  else {
    state := next
    failures := if next = .closed then 0 else b.failures
    openedAt := if next = .opened then now else b.openedAt
    halfOpenInFlight := if next = .halfOpen then 0 else b.halfOpenInFlight
    inFlight := b.inFlight
    observed := b.observed ++ [next]
  }

def cooled : Bool := b.state = .opened && cfg.resetMs ≤ now - b.openedAt

/-- The getter of the state, which turns an open circuit half-open. -/
def getState : CircuitBreaker := if b.cooled cfg now then b.transition now .halfOpen else b

/-- `run` up to the call of `fn`. -/
def enter : CircuitBreaker × Except RunError CircuitState :=
  let b := b.getState cfg now
  let state := b.state
  if state = .opened then (b, .error (.circuitOpen cfg.name))
  else if state = .halfOpen ∧ cfg.halfOpenMax ≤ b.halfOpenInFlight then
    (b, .error (.circuitOpen cfg.name))
  else
    let b := { b with
      halfOpenInFlight :=
        if state = CircuitState.halfOpen then b.halfOpenInFlight + 1 else b.halfOpenInFlight }
    match cfg.maxConcurrent.filter (· ≤ b.inFlight) with
    | some limit =>
      ({ b with
        halfOpenInFlight :=
          if state = CircuitState.halfOpen then b.halfOpenInFlight - 1 else b.halfOpenInFlight },
        .error (.bulkheadFull limit cfg.name))
    | none => ({ b with inFlight := b.inFlight + 1 }, .ok state)

def onSuccess : CircuitBreaker := { b.transition now .closed with failures := 0 }

def onFailure : CircuitBreaker :=
  if b.state = .halfOpen then b.transition now .opened
  else
    let b := { b with failures := b.failures + 1 }
    if cfg.threshold ≤ b.failures then b.transition now .opened else b

/-- `run` from the settling of `fn` on. `state` is what it was let in under. -/
def leave (state : CircuitState) (error : Option E) : CircuitBreaker :=
  let b := match error with
    | none => b.onSuccess now
    | some e => if cfg.isFailure e then b.onFailure cfg now else b.onSuccess now
  { b with
    inFlight := b.inFlight - 1
    halfOpenInFlight := if state = .halfOpen then b.halfOpenInFlight - 1 else b.halfOpenInFlight }

def trips : Nat := b.observed.count .opened

section Cases

theorem getState_cases : b.cooled cfg now = true ∧ b.getState cfg now = b.transition now .halfOpen ∨
    b.cooled cfg now = false ∧ b.getState cfg now = b := by
  rw [getState]
  cases hc : b.cooled cfg now with
  | true => exact .inl ⟨rfl, rfl⟩
  | false => exact .inr ⟨rfl, rfl⟩

variable {cfg b now}

theorem opened_of_cooled (h : b.cooled cfg now = true) :
    b.state = .opened ∧ (cfg.resetMs : Int) ≤ now - b.openedAt := by
  rwa [cooled, Bool.and_eq_true, decide_eq_true_eq, decide_eq_true_eq] at h

theorem transition_halfOpen (h : b.state = .opened) : b.transition now .halfOpen =
    { b with
        state := .halfOpen, halfOpenInFlight := 0, observed := b.observed ++ [.halfOpen] } := by
  rw [transition, if_neg (by rw [h]; decide)]
  rfl

theorem enter_cases {b' : CircuitBreaker} {r : Except RunError CircuitState}
    (h : b.enter cfg now = (b', r)) :
    (∃ e, r = .error e) ∧ b' = b.getState cfg now ∨
      r = .ok (b.getState cfg now).state ∧ (b.getState cfg now).state ≠ .opened ∧
        ((b.getState cfg now).state = .halfOpen →
        (b.getState cfg now).halfOpenInFlight < cfg.halfOpenMax) ∧
        b' = { b.getState cfg now with
          halfOpenInFlight := (b.getState cfg now).halfOpenInFlight +
            if (b.getState cfg now).state = .halfOpen then 1 else 0
          inFlight := (b.getState cfg now).inFlight + 1 } := by
  generalize hg : b.getState cfg now = g
  simp only [enter, hg] at h
  split at h
  · cases h
    exact .inl ⟨⟨_, rfl⟩, rfl⟩
  · next hopen =>
      split at h
      · cases h
        exact .inl ⟨⟨_, rfl⟩, rfl⟩
      · next hmax =>
          split at h
          · cases h
            refine .inl ⟨⟨_, rfl⟩, ?_⟩
            split <;> simp
          · cases h
            refine .inr ⟨rfl, hopen, fun hs => Int.not_le.mp (fun hle => hmax ⟨hs, hle⟩), ?_⟩
            split <;> simp

theorem transition_self (next : CircuitState) (h : b.state = next) : b.transition now next = b := by
  rw [transition, if_pos h]

theorem trips_transition {next : CircuitState} (h : b.state ≠ next) :
    (b.transition now next).trips = b.trips + if next = .opened then 1 else 0 := by
  rw [transition, if_neg h, trips, trips, List.count_append, List.count_singleton]
  cases next <;> rfl

inductive Left (cfg : BreakerConfig E) (now : Time) (error : Option E)
    (b b' : CircuitBreaker) : Prop
  | closes (he : error.any cfg.isFailure = false) (hs : b'.state = .closed)
  (ht : b'.trips = b.trips)
  | opens (he : error.any cfg.isFailure = true) (hb : b.state ≠ .opened) (hs : b'.state = .opened)
      (ho : b'.openedAt = now) (ht : b'.trips = b.trips + 1)
  | keeps (he : error.any cfg.isFailure = true) (hb : b.state ≠ .halfOpen) (hs : b'.state = b.state)
      (ho : b'.openedAt = b.openedAt) (ht : b'.trips = b.trips)

theorem left_onSuccess {error : Option E} (he : error.any cfg.isFailure = false) :
    Left cfg now error b (b.onSuccess now) := by
  by_cases hs : b.state = .closed
  · exact .closes he (by rw [onSuccess, transition_self _ hs, hs])
      (by rw [onSuccess, transition_self _ hs]; rfl)
  · refine .closes he ?_ (trips_transition hs)
    rw [onSuccess, transition, if_neg hs]

theorem left_onFailure {error : Option E} (he : error.any cfg.isFailure = true) :
    Left cfg now error b (b.onFailure cfg now) := by
  have hopens {c : CircuitBreaker} (hc : c.state ≠ .opened) (hb : b.state ≠ .opened)
    (ht : c.trips = b.trips) :
      Left cfg now error b (c.transition now .opened) := by
    refine .opens he hb ?_ ?_ ?_
    · rw [transition, if_neg hc]
    · rw [transition, if_neg hc]
      rfl
    · rw [trips_transition hc, ht]
      rfl
  simp only [onFailure]
  split
  · next hs => exact hopens (by rw [hs]; decide) (by rw [hs]; decide) rfl
  · next hs =>
      by_cases ho : b.state = .opened
      · have hself :
            ({ b with failures := b.failures + 1 } : CircuitBreaker).transition now .opened =
              { b with failures := b.failures + 1 } := transition_self _ ho
        rw [hself, ite_self]
        exact .keeps he hs rfl rfl rfl
      · split
        · exact hopens ho ho rfl
        · exact .keeps he hs rfl rfl rfl

theorem left_leave (cfg : BreakerConfig E) (b : CircuitBreaker) (now : Time) (state : CircuitState)
    (error : Option E) :
    Left cfg now error b (b.leave cfg now state error) := by
  have hleft : Left cfg now error b (match error with
      | none => b.onSuccess now
      | some e => if cfg.isFailure e then b.onFailure cfg now else b.onSuccess now) := by
    cases error with
    | none => exact left_onSuccess rfl
    | some e =>
        cases hf : cfg.isFailure e with
        | true =>
            have he : (some e).any cfg.isFailure = true := hf
            simp only [hf, if_true]
            exact left_onFailure he
        | false =>
            have he : (some e).any cfg.isFailure = false := hf
            simp only [hf, Bool.false_eq_true, if_false]
            exact left_onSuccess he
  cases hleft with
  | closes he hs ht => exact .closes he hs ht
  | opens he hb hs ho ht => exact .opens he hb hs ho ht
  | keeps he hb hs ho ht => exact .keeps he hb hs ho ht

theorem transition_halfOpenInFlight {next : CircuitState} (h : next ≠ .halfOpen) :
    (b.transition now next).halfOpenInFlight = b.halfOpenInFlight := by
  simp only [transition, if_neg h]
  split <;> rfl

theorem leave_halfOpenInFlight (state : CircuitState) (error : Option E) :
    (b.leave cfg now state error).halfOpenInFlight =
      b.halfOpenInFlight - if state = .halfOpen then 1 else 0 := by
  have hsuccess : (b.onSuccess now).halfOpenInFlight = b.halfOpenInFlight :=
    transition_halfOpenInFlight (by decide)
  have hfailure : (b.onFailure cfg now).halfOpenInFlight = b.halfOpenInFlight := by
    simp only [onFailure]
    split
    · exact transition_halfOpenInFlight (by decide)
    · split
      · exact transition_halfOpenInFlight (by decide)
      · rfl
  have hsame : (match error with
      | none => b.onSuccess now
      | some e =>
          if cfg.isFailure e then b.onFailure cfg now else b.onSuccess now).halfOpenInFlight =
        b.halfOpenInFlight := by
    cases error with
    | none => exact hsuccess
    | some e =>
        simp only []
        split
        · exact hfailure
        · exact hsuccess
  simp only [leave, hsame]
  split <;> simp

end Cases

end CircuitBreaker

/-- A call of `fn` in flight: the state that `run` let it in under, and how often the circuit
had opened then. -/
structure BreakerCall where
  state : CircuitState
  trips : Nat

/-- A breaker with its calls, and the clock. `started` counts the calls of `fn`. -/
structure BreakerSys where
  breaker : CircuitBreaker
  calls : List BreakerCall
  started : Nat
  now : Time

namespace BreakerSys

variable {E : Type}

inductive Label (E : Type)
  | tick (ms : Nat)
  | state
  | run
  | settle (i : Nat) (error : Option E)

def init (now : Time) : BreakerSys := ⟨.new, [], 0, now⟩

def strict : CircuitBreakerOptions Unit where
  failureThreshold := some 1
  resetTimeout := none
  halfOpenMax := none
  maxConcurrent := none
  isFailure := none
  name := none

variable (cfg : BreakerConfig E)

def step (σ : BreakerSys) : Label E → Option BreakerSys
  | .tick ms => some { σ with now := σ.now + ms }
  | .state => some { σ with breaker := σ.breaker.getState cfg σ.now }
  | .run => match σ.breaker.enter cfg σ.now with
    | (b, .error _) => some { σ with breaker := b }
    | (b, .ok state) =>
        some { σ with breaker := b, calls := ⟨state, b.trips⟩ :: σ.calls, started := σ.started + 1 }
  | .settle i error => σ.calls[i]?.map (fun c =>
    { σ with breaker := σ.breaker.leave cfg σ.now c.state error, calls := σ.calls.eraseIdx i })

/-- The calls in flight that were let in half-open. -/
def probes (σ : BreakerSys) : Nat := σ.calls.countP (fun c => c.state = .halfOpen)

section Step

variable {cfg} {σ σ' : BreakerSys} {l : Label E}

inductive Stepped (cfg : BreakerConfig E) (σ σ' : BreakerSys) : Label E → Prop
  | tick (ms : Nat) (h : σ' = { σ with now := σ.now + ms }) : Stepped cfg σ σ' (.tick ms)
  | refused (l : Label E) (hl : l = .state ∨ l = .run)
    (h : σ' = { σ with breaker := σ.breaker.getState cfg σ.now }) :
      Stepped cfg σ σ' l
  | started (ho : (σ.breaker.getState cfg σ.now).state ≠ .opened)
      (hm : (σ.breaker.getState cfg σ.now).state = .halfOpen →
        (σ.breaker.getState cfg σ.now).halfOpenInFlight < cfg.halfOpenMax)
      (h : σ' = {
        breaker := { σ.breaker.getState cfg σ.now with
          halfOpenInFlight := (σ.breaker.getState cfg σ.now).halfOpenInFlight +
            if (σ.breaker.getState cfg σ.now).state = .halfOpen then 1 else 0
          inFlight := (σ.breaker.getState cfg σ.now).inFlight + 1 }
        calls := ⟨(σ.breaker.getState cfg σ.now).state, (σ.breaker.getState cfg σ.now).trips⟩ ::
          σ.calls
        started := σ.started + 1
        now := σ.now }) : Stepped cfg σ σ' .run
  | settled (i : Nat) (error : Option E) (c : BreakerCall) (hc : σ.calls[i]? = some c)
      (h : σ' = { σ with
        breaker := σ.breaker.leave cfg σ.now c.state error, calls := σ.calls.eraseIdx i }) :
      Stepped cfg σ σ' (.settle i error)

theorem step_cases (h : step cfg σ l = some σ') : Stepped cfg σ σ' l := by
  cases l with
  | tick ms =>
      cases h
      exact .tick ms rfl
  | state =>
      cases h
      exact .refused .state (.inl rfl) rfl
  | run =>
      simp only [step] at h
      split at h
      · next b e henter =>
          cases h
          obtain ⟨_, hb⟩ | ⟨hr, _⟩ := CircuitBreaker.enter_cases henter
          · exact .refused .run (.inr rfl) (by rw [hb])
          · cases hr
      · next b state henter =>
          cases h
          obtain ⟨⟨e, he⟩, _⟩ | ⟨hr, ho, hm, hb⟩ := CircuitBreaker.enter_cases henter
          · cases he
          · cases hr
            refine .started ho hm ?_
            rw [hb]
            rfl
  | settle i error =>
      obtain ⟨c, hc, rfl⟩ := Option.map_eq_some_iff.mp h
      exact .settled i error c hc rfl

end Step

end BreakerSys

end ZenZip
