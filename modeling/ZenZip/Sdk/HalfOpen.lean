import ZenZip.Sdk.CircuitBreaker
import Mathlib.Data.List.Perm.Basic

namespace ZenZip

open Lib

namespace BreakerSys

variable {E : Type}

section Probes

variable {cfg : BreakerConfig E} {σ σ' : BreakerSys} {l : Label E}

theorem probes_eraseIdx {c : BreakerCall} {i : Nat} (h : σ.calls[i]? = some c) :
    (σ.calls.eraseIdx i).countP (fun c => c.state = .halfOpen) +
      (if c.state = .halfOpen then 1 else 0) = σ.probes := by
  obtain ⟨hlt, hc⟩ := List.getElem?_eq_some_iff.mp h
  have hperm :=
    (List.getElem_cons_eraseIdx_perm hlt).countP_eq (fun c => decide (c.state = .halfOpen))
  rw [probes, ← hperm, hc, List.countP_cons]
  simp

/-- The counter counts the probes, of which there are not too many. -/
structure Counted (cfg : BreakerConfig E) (σ : BreakerSys) : Prop where
  count : σ.breaker.halfOpenInFlight = σ.probes
  bound : (σ.probes : Int) ≤ cfg.halfOpenMax

/-- The circuit does not turn half-open over a probe that is still in flight. -/
def drained (cfg : BreakerConfig E) (σ : BreakerSys) : Label E → Bool
  | .state | .run => !σ.breaker.cooled cfg σ.now || σ.probes = 0
  | _ => true

theorem counted_init (now : Time) : Counted cfg (init now) where
  count := rfl
  bound := by
    have hnone : (init now).probes = 0 := rfl
    have hmax := cfg.one_le_halfOpenMax
    omega

theorem Counted.getState (h : Counted cfg σ)
    (hd : (!σ.breaker.cooled cfg σ.now || σ.probes = 0) = true) :
    (σ.breaker.getState cfg σ.now).halfOpenInFlight = σ.probes := by
  obtain ⟨hc, hg⟩ | ⟨hc, hg⟩ := CircuitBreaker.getState_cases cfg σ.breaker σ.now
  · rw [hc, Bool.not_true, Bool.false_or, decide_eq_true_eq] at hd
    rw [hg, CircuitBreaker.transition_halfOpen (CircuitBreaker.opened_of_cooled hc).1, hd]
    rfl
  · rw [hg, h.count]

theorem Counted.stepped (h : Counted cfg σ) (hd : drained cfg σ l = true)
    (hs : step cfg σ l = some σ') : Counted cfg σ' := by
  cases step_cases hs with
  | tick ms he =>
      subst he
      exact ⟨h.count, h.bound⟩
  | refused l hl he =>
      subst he
      have hd' : (!σ.breaker.cooled cfg σ.now || σ.probes = 0) = true := by
        rcases hl with rfl | rfl <;> exact hd
      exact ⟨h.getState hd', h.bound⟩
  | started ho hm he =>
      subst he
      have hcount := h.getState hd
      constructor
      · simp only [probes, List.countP_cons, hcount]
        push_cast
        congr 1
        split <;> simp_all
      · simp only [probes, List.countP_cons]
        split
        · next hprobe =>
            have hlt := hm (of_decide_eq_true hprobe)
            rw [hcount] at hlt
            exact hlt
        · exact h.bound
  | settled i error c hc he =>
      subst he
      have hprobes := probes_eraseIdx hc
      constructor
      · have hcount := h.count
        rw [← hprobes] at hcount
        simp only [probes, CircuitBreaker.leave_halfOpenInFlight, hcount]
        split <;> simp
      · have hbound := h.bound
        rw [← hprobes] at hbound
        push_cast at hbound
        simp only [probes]
        split at hbound <;> omega

theorem Counted.of_run {now : Time} (h : Run (step cfg) (drained cfg) (init now) σ) :
    Counted cfg σ := by
  apply h.invariant (Counted cfg) (counted_init now)
  intro σ l σ' _ hc hok hs
  exact hc.stepped hok hs

structure Bounded (cfg : BreakerConfig E) (σ : BreakerSys) : Prop where
  bound : (σ.probes : Int) ≤ cfg.halfOpenMax
  nonneg : 0 ≤ σ.breaker.halfOpenInFlight
  count : σ.breaker.state = .halfOpen → σ.breaker.halfOpenInFlight = σ.probes

theorem Counted.bounded (h : Counted cfg σ) : Bounded cfg σ where
  bound := h.bound
  nonneg := by
    rw [h.count]
    exact Int.natCast_nonneg _
  count _ := h.count

/-- A circuit that turns half-open over a probe in flight forgets that probe. -/
theorem drained_of_bounded (hs : step cfg σ l = some σ') (h : Bounded cfg σ') :
    drained cfg σ l = true := by
  by_contra hd
  have hcooled : σ.breaker.cooled cfg σ.now = true ∧ σ.probes ≠ 0 := by
    cases l <;> simp_all [drained]
  obtain ⟨hc, hp⟩ := hcooled
  have hopen := (CircuitBreaker.opened_of_cooled hc).1
  have hg : σ.breaker.getState cfg σ.now =
      { σ.breaker with
        state := .halfOpen, halfOpenInFlight := 0,
        observed := σ.breaker.observed ++ [.halfOpen] } := by
    rw [CircuitBreaker.getState, if_pos hc, CircuitBreaker.transition_halfOpen hopen]
  cases step_cases hs with
  | tick ms he => simp [drained] at hd
  | refused l hl he =>
      subst he
      have hcount := h.count (by rw [hg])
      rw [hg] at hcount
      have hzero : (0 : Int) = σ.probes := hcount
      omega
  | started ho hm he =>
      subst he
      have hcount := h.count (by rw [hg])
      rw [hg] at hcount
      simp only [probes, List.countP_cons, decide_true, if_true] at hcount hp
      omega
  | settled i error c hcall he => simp [drained] at hd

end Probes

/-- In every run that turns half-open only without probes in flight the bound holds, and the
first step that does not is the first that breaks it. -/
theorem halfOpen_bounded (o : CircuitBreakerOptions E) {now : Time} {σ : BreakerSys}
    (h : Run (step (CircuitBreaker.config o)) (drained (CircuitBreaker.config o)) (init now) σ) :
    Bounded (CircuitBreaker.config o) σ ∧ ∀ l σ', step (CircuitBreaker.config o) σ l = some σ' →
      (Bounded (CircuitBreaker.config o) σ' ↔ drained (CircuitBreaker.config o) σ l = true) := by
  have hc := Counted.of_run h
  refine ⟨hc.bounded, fun l σ' hs => ⟨drained_of_bounded hs, fun hd => ?_⟩⟩
  exact (hc.stepped hd hs).bounded

theorem halfOpen_bounded_probe : ∃ σ, σ.probes = 1 ∧ Bounded (CircuitBreaker.config strict) σ ∧
    ∀ l σ', step (CircuitBreaker.config strict) σ l = some σ' →
      (Bounded (CircuitBreaker.config strict) σ' ↔
      drained (CircuitBreaker.config strict) σ l = true) := by
  obtain ⟨σ, hrun, hp⟩ :=
    Run.exists_of_replay (step (CircuitBreaker.config strict))
      (drained (CircuitBreaker.config strict))
    (init 0) [.run, .settle 0 (some ()), .tick 30000, .run] (fun σ => σ.probes = 1) (by decide)
  exact ⟨σ, of_decide_eq_true hp, halfOpen_bounded strict hrun⟩

/-- A call from before the trip fails while a probe is in flight; the next period lets in
another probe beside it. -/
theorem probe_outlives_period : ∃ σ,
    Run (step (CircuitBreaker.config strict)) (fun _ _ => true) (init 0) σ ∧
    ¬ Bounded (CircuitBreaker.config strict) σ := by
  obtain ⟨σ, hrun, hp⟩ :=
    Run.exists_of_replay (step (CircuitBreaker.config strict)) (fun _ _ => true) (init 0)
    [.run, .run, .settle 1 (some ()), .tick 30000, .run, .settle 1 (some ()), .tick 30000, .run]
      (fun σ => σ.probes = 2)
    (by decide)
  refine ⟨σ, hrun, fun hb => ?_⟩
  have hbound := hb.bound
  rw [of_decide_eq_true hp] at hbound
  exact absurd hbound (by decide)

end BreakerSys

end ZenZip
