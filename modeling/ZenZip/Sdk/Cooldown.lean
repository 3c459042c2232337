import ZenZip.Sdk.CircuitBreaker

namespace ZenZip

open Lib

namespace BreakerSys

variable {E : Type}

section Cooldown

variable {cfg : BreakerConfig E} {σ σ' : BreakerSys} {l : Label E} {now : Time}

/-- Of the calls in flight none began after the latest trip as long as the circuit is open,
and then only probes did. -/
structure Dated (σ : BreakerSys) : Prop where
  le : ∀ c ∈ σ.calls, c.trips ≤ σ.breaker.trips
  opened : σ.breaker.state = .opened → ∀ c ∈ σ.calls, c.trips < σ.breaker.trips
  halfOpen : σ.breaker.state = .halfOpen → ∀ c ∈ σ.calls, c.trips = σ.breaker.trips →
    c.state = .halfOpen

theorem trips_getState (cfg : BreakerConfig E) (b : CircuitBreaker) (now : Time) :
    (b.getState cfg now).trips = b.trips := by
  obtain ⟨hc, hg⟩ | ⟨_, hg⟩ := CircuitBreaker.getState_cases cfg b now
  · have hs := (CircuitBreaker.opened_of_cooled hc).1
    rw [hg, CircuitBreaker.trips_transition (by rw [hs]; decide)]
    rfl
  · rw [hg]

theorem state_getState (cfg : BreakerConfig E) (b : CircuitBreaker) (now : Time) :
    (b.getState cfg now).state = b.state ∨
    b.cooled cfg now = true ∧ (b.getState cfg now).state = .halfOpen := by
  obtain ⟨hc, hg⟩ | ⟨_, hg⟩ := CircuitBreaker.getState_cases cfg b now
  · refine .inr ⟨hc, ?_⟩
    rw [hg, CircuitBreaker.transition_halfOpen (CircuitBreaker.opened_of_cooled hc).1]
  · exact .inl (by rw [hg])

theorem Dated.getState (cfg : BreakerConfig E) (h : Dated σ) :
    Dated { σ with breaker := σ.breaker.getState cfg σ.now } := by
  have htrips := trips_getState cfg σ.breaker σ.now
  obtain hs | ⟨hc, hs⟩ := state_getState cfg σ.breaker σ.now
  · exact ⟨by simpa only [htrips] using h.le, by simpa only [htrips, hs] using h.opened,
      by simpa only [htrips, hs] using h.halfOpen⟩
  · have hopen := h.opened (CircuitBreaker.opened_of_cooled hc).1
    constructor
    · simpa only [htrips] using h.le
    · intro ho
      rw [hs] at ho
      cases ho
    · intro _ c hm he
      rw [htrips] at he
      exact absurd he (Nat.ne_of_lt (hopen c hm))

theorem Dated.stepped (h : Dated σ) (hs : step cfg σ l = some σ') : Dated σ' := by
  cases step_cases hs with
  | tick ms he =>
      subst he
      exact ⟨h.le, h.opened, h.halfOpen⟩
  | refused l hl he =>
      subst he
      exact h.getState cfg
  | started ho hm he =>
      subst he
      have hg := h.getState cfg
      constructor
      · intro c hc
        rcases List.mem_cons.mp hc with rfl | hc
        · exact Nat.le_refl _
        · exact hg.le c hc
      · intro hopen
        exact absurd hopen ho
      · intro hhalf c hc he
        rcases List.mem_cons.mp hc with rfl | hc
        · exact hhalf
        · exact hg.halfOpen hhalf c hc he
  | settled i error c hc he =>
      subst he
      have hmem (d : BreakerCall) (hd : d ∈ σ.calls.eraseIdx i) : d ∈ σ.calls :=
        List.mem_of_mem_eraseIdx hd
      cases CircuitBreaker.left_leave cfg σ.breaker σ.now c.state error with
      | closes _ hstate ht =>
          refine ⟨fun d hd => by rw [ht]; exact h.le d (hmem d hd), fun ho => ?_, fun ho => ?_⟩
          · rw [hstate] at ho
            cases ho
          · rw [hstate] at ho
            cases ho
      | opens _ _ hstate _ ht =>
          refine ⟨fun d hd => ?_, fun _ d hd => ?_, fun ho => ?_⟩
          · rw [ht]
            exact Nat.le_succ_of_le (h.le d (hmem d hd))
          · rw [ht]
            exact Nat.lt_succ_of_le (h.le d (hmem d hd))
          · rw [hstate] at ho
            cases ho
      | keeps _ _ hstate _ ht =>
          refine ⟨fun d hd => ?_, fun ho d hd => ?_, fun ho d hd hd' => ?_⟩
          · rw [ht]
            exact h.le d (hmem d hd)
          · rw [ht]
            rw [hstate] at ho
            exact h.opened ho d (hmem d hd)
          · rw [hstate] at ho
            rw [ht] at hd'
            exact h.halfOpen ho d (hmem d hd) hd'

theorem Dated.of_run {ok : BreakerSys → Label E → Bool} (h : Run (step cfg) ok (init now) σ) :
    Dated σ := by
  apply h.invariant Dated
  · exact ⟨fun c hc => (nomatch hc), fun _ c hc => (nomatch hc), fun _ c hc => (nomatch hc)⟩
  · intro σ l σ' _ hd _ hs
    exact hd.stepped hs

/-- A call from before the latest trip settles once the circuit is closed again, or fails
while it is open. -/
def current (cfg : BreakerConfig E) (σ : BreakerSys) : Label E → Bool
  | .settle i error => σ.breaker.state = .closed || σ.calls[i]?.all (fun c =>
      c.trips = σ.breaker.trips || (σ.breaker.state = .opened && error.any cfg.isFailure))
  | _ => true

theorem cases_of_current {i : Nat} {error : Option E} {c : BreakerCall}
    (h : current cfg σ (.settle i error) = true)
    (hc : σ.calls[i]? = some c) (hs : σ.breaker.state ≠ .closed) :
    c.trips = σ.breaker.trips ∨ σ.breaker.state = .opened ∧ error.any cfg.isFailure = true := by
  simpa [current, hc, hs] using h

theorem Dated.opened_of_step (h : Dated σ) (hok : current cfg σ l = true)
    (hs : step cfg σ l = some σ')
    (ho : σ.breaker.state = .opened) (ht : σ.now < σ.breaker.openedAt + (cfg.resetMs : Int)) :
    σ'.breaker.state = .opened ∧ σ'.breaker.openedAt = σ.breaker.openedAt ∧
    σ'.started = σ.started := by
  have hg : σ.breaker.getState cfg σ.now = σ.breaker := by
    obtain ⟨hc, _⟩ | ⟨_, hg⟩ := CircuitBreaker.getState_cases cfg σ.breaker σ.now
    · have hlt : σ.now - σ.breaker.openedAt < (cfg.resetMs : Int) := Int.sub_left_lt_of_lt_add ht
      exact absurd (CircuitBreaker.opened_of_cooled hc).2 (Int.not_le.mpr hlt)
    · exact hg
  cases step_cases hs with
  | tick ms he =>
      subst he
      exact ⟨ho, rfl, rfl⟩
  | refused l hl he =>
      subst he
      rw [hg]
      exact ⟨ho, rfl, rfl⟩
  | started hne hm he =>
      rw [hg] at hne
      exact absurd ho hne
  | settled i error c hc he =>
      subst he
      have hlt := h.opened ho c (List.mem_of_getElem? hc)
      have hfails := (cases_of_current hok hc (by rw [ho]; decide)).resolve_left (Nat.ne_of_lt hlt)
      cases CircuitBreaker.left_leave cfg σ.breaker σ.now c.state error with
      | closes hn _ _ =>
          rw [hfails.2] at hn
          cases hn
      | opens _ hne _ _ _ => exact absurd ho hne
      | keeps _ _ hstate hat _ => exact ⟨hstate.trans ho, hat, rfl⟩

theorem now_le_of_step (hs : step cfg σ l = some σ') : σ.now ≤ σ'.now := by
  cases step_cases hs with
  | tick ms he =>
      subst he
      exact Int.le_add_of_nonneg_right (Int.natCast_nonneg ms)
  | refused _ _ he | started _ _ he | settled _ _ _ _ he =>
      subst he
      exact Int.le_refl _

theorem Dated.opened_of_run (h : Dated σ) (ho : σ.breaker.state = .opened)
    (hr : Run (step cfg) (current cfg) σ σ')
    (ht : σ'.now < σ.breaker.openedAt + (cfg.resetMs : Int)) :
    σ'.breaker.state = .opened ∧ σ'.breaker.openedAt = σ.breaker.openedAt ∧
    σ'.started = σ.started := by
  have hboth : Dated σ' ∧ (σ'.now < σ.breaker.openedAt + (cfg.resetMs : Int) →
      σ'.breaker.state = .opened ∧ σ'.breaker.openedAt = σ.breaker.openedAt ∧
        σ'.started = σ.started) := by
    clear ht
    apply hr.invariant (fun τ => Dated τ ∧ (τ.now < σ.breaker.openedAt + (cfg.resetMs : Int) →
      τ.breaker.state = .opened ∧ τ.breaker.openedAt = σ.breaker.openedAt ∧ τ.started = σ.started))
    · exact ⟨h, fun _ => ⟨ho, rfl, rfl⟩⟩
    · rintro τ l τ' _ ⟨hd, hτ⟩ hok hs
      refine ⟨hd.stepped hs, fun ht => ?_⟩
      have hbefore := Int.lt_of_le_of_lt (now_le_of_step hs) ht
      obtain ⟨hopen, hat, hstarted⟩ := hτ hbefore
      have hkeep := hd.opened_of_step hok hs hopen (by rwa [hat])
      exact ⟨hkeep.1, hkeep.2.1.trans hat, hkeep.2.2.trans hstarted⟩
  exact hboth.2 ht

theorem openedAt_of_step (hs : step cfg σ l = some σ') (hn : σ.breaker.state ≠ .opened)
    (ho : σ'.breaker.state = .opened) :
    σ'.breaker.openedAt = σ'.now := by
  have hg : (σ.breaker.getState cfg σ.now).state ≠ .opened := by
    obtain hg | ⟨_, hg⟩ := state_getState cfg σ.breaker σ.now
    · rwa [hg]
    · rw [hg]
      decide
  cases step_cases hs with
  | tick ms he =>
      subst he
      exact absurd ho hn
  | refused l hl he =>
      subst he
      exact absurd ho hg
  | started hne hm he =>
      subst he
      exact absurd ho hg
  | settled i error c hc he =>
      subst he
      cases CircuitBreaker.left_leave cfg σ.breaker σ.now c.state error with
      | closes _ hstate _ =>
          rw [hstate] at ho
          cases ho
      | opens _ _ _ hat _ => exact hat
      | keeps _ _ hstate _ _ =>
          rw [hstate] at ho
          exact absurd ho hn

theorem Dated.closes (h : Dated σ) (hok : current cfg σ l = true) (hs : step cfg σ l = some σ')
    (hn : σ.breaker.state ≠ .closed) (hc : σ'.breaker.state = .closed) :
    ∃ i error c, l = .settle i error ∧
      σ.calls[i]? = some c ∧ c.state = .halfOpen ∧ c.trips = σ.breaker.trips := by
  have hg : (σ.breaker.getState cfg σ.now).state ≠ .closed := by
    obtain hg | ⟨_, hg⟩ := state_getState cfg σ.breaker σ.now
    · rwa [hg]
    · rw [hg]
      decide
  cases step_cases hs with
  | tick ms he =>
      subst he
      exact absurd hc hn
  | refused l hl he =>
      subst he
      exact absurd hc hg
  | started hne hm he =>
      subst he
      exact absurd hc hg
  | settled i error c hcall he =>
      subst he
      have hmem := List.mem_of_getElem? hcall
      cases CircuitBreaker.left_leave cfg σ.breaker σ.now c.state error with
      | closes hfail _ _ =>
          have htrips : c.trips = σ.breaker.trips := by
            rcases cases_of_current hok hcall hn with ht | ⟨_, hf⟩
            · exact ht
            · rw [hfail] at hf
              cases hf
          refine ⟨i, error, c, rfl, hcall, ?_, htrips⟩
          cases hstate : σ.breaker.state with
          | closed => exact absurd hstate hn
          | opened => exact absurd htrips (Nat.ne_of_lt (h.opened hstate c hmem))
          | halfOpen => exact h.halfOpen hstate c hmem htrips
      | opens _ _ hstate _ _ =>
          rw [hstate] at hc
          cases hc
      | keeps _ _ hstate _ _ =>
          rw [hstate] at hc
          exact absurd hc hn

end Cooldown

variable (cfg : BreakerConfig E) (ok : BreakerSys → Label E → Bool) (start : BreakerSys)

/-- What an open circuit protects from, in the runs from `start` whose steps are `ok`. -/
structure Protected : Prop where
  /-- A trip starts a cooldown in which the circuit stays open and no call starts. -/
  cooldown : ∀ σ₀ l σ σ', Run (step cfg) ok start σ₀ → ok σ₀ l = true → step cfg σ₀ l = some σ →
    σ₀.breaker.state ≠ .opened → σ.breaker.state = .opened → Run (step cfg) ok σ σ' →
      σ'.now < σ.now + (cfg.resetMs : Int) →
      σ'.breaker.state = .opened ∧ σ'.started = σ.started
  /-- A call that was let in half-open after the latest trip closes the circuit, and nothing else.
  -/
  probed : ∀ σ l σ', Run (step cfg) ok start σ → ok σ l = true → step cfg σ l = some σ' →
    σ.breaker.state ≠ .closed → σ'.breaker.state = .closed → ∃ i error c, l = .settle i error ∧
      σ.calls[i]? = some c ∧
      c.state = .halfOpen ∧ c.trips = σ.breaker.trips
  /-- The end of a call from before the latest trip does not move the circuit. -/
  unmoved : ∀ σ i error c σ', Run (step cfg) ok start σ → ok σ (.settle i error) = true →
    step cfg σ (.settle i error) = some σ' → σ.calls[i]? = some c → c.trips < σ.breaker.trips →
      σ.breaker.state ≠ .closed → σ'.breaker.state = σ.breaker.state

theorem open_for_cooldown (o : CircuitBreakerOptions E) (now : Time) :
    Protected (CircuitBreaker.config o) (current (CircuitBreaker.config o)) (init now) where
  cooldown σ₀ l σ σ' h hok hs hn ho hr ht := by
    have hd := (Dated.of_run h).stepped hs
    rw [← openedAt_of_step hs hn ho] at ht
    obtain ⟨hopen, _, hstarted⟩ := hd.opened_of_run ho hr ht
    exact ⟨hopen, hstarted⟩
  probed σ l σ' h hok hs hn hc := (Dated.of_run h).closes hok hs hn hc
  unmoved σ i error c σ' h hok hs hc ht hn := by
    cases step_cases hs with
    | refused _ hl _ => simp at hl
    | settled _ _ c' hc' he =>
        subst he
        obtain rfl := Option.some.inj (hc.symm.trans hc')
        obtain ⟨hopen, hf⟩ := (cases_of_current hok hc hn).resolve_left (Nat.ne_of_lt ht)
        cases CircuitBreaker.left_leave (CircuitBreaker.config o) σ.breaker σ.now c.state error with
        | closes hfail _ _ =>
            rw [hfail] at hf
            cases hf
        | opens _ hne _ _ _ => exact absurd hopen hne
        | keeps _ _ hstate _ _ => exact hstate

/-- The circuit has opened with one more call from before in flight. -/
def tripped : BreakerSys := ⟨⟨.opened, 1, 0, 0, 1, [.opened]⟩, [⟨.closed, 0⟩], 2, 0⟩

/-- A call from before the trip succeeds and closes the circuit at once. -/
theorem stale_success_closes : ¬ Protected (CircuitBreaker.config strict) (fun _ _ => true)
    (init 0) := by
  intro h
  have hreplay : replay (step (CircuitBreaker.config strict)) (fun _ _ => true)
    (init 0) [.run, .run, .settle 1 (some ())] =
      some tripped := rfl
  have hrun := Run.of_replay hreplay
  have hclosed :=
    h.unmoved tripped 0 none ⟨.closed, 0⟩ ⟨⟨.closed, 0, 0, 0, 0, [.opened, .closed]⟩, [], 2, 0⟩ hrun
      rfl rfl rfl
    (by decide) (by decide)
  cases hclosed

end BreakerSys

end ZenZip
