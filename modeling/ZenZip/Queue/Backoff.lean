import ZenZip.Lib.Int64
import ZenZip.Engine.Workflow

namespace ZenZip

open Lib

namespace Backoff

/-- The options `backoff_delay_ms` and `backoff_max_delay_ms`, as the cast to `i64` leaves them. -/
def ofOptions (delayMs maxDelayMs : Option Int) : Backoff :=
  let delayMs := delayMs.elim default.delayMs (max · 1)
  ⟨delayMs, maxDelayMs.elim default.maxDelayMs (max · delayMs)⟩

def delayAt (b : Backoff) (attempt : Nat) (jitter : Int) : Option Int := do
  let capped := b.cappedFor attempt
  let kept ← checked (capped - capped / 8)
  checked (kept + jitter)

def retryAt (b : Backoff) (attempt : Nat) (now jitter : Int) : Option Int := do
  let delay ← b.delayAt attempt jitter
  checked (now + delay)

structure Admitted (b : Backoff) : Prop where
  delay_pos : 1 ≤ b.delayMs
  delay_le : b.delayMs ≤ i64Max
  max_pos : 1 ≤ b.maxDelayMs
  max_le : b.maxDelayMs ≤ i64Max

def exact (b : Backoff) (attempt : Nat) : Int :=
  min (b.delayMs * 2 ^ min (attempt - 1) 20) b.maxDelayMs

def longest (b : Backoff) (attempt : Nat) : Int :=
  b.exact attempt - b.exact attempt / 8 + max (b.exact attempt / 4) 1

def ceilQuarter (n : Int) : Int := (n + 3) / 4

/-- Whatever is drawn, the delay is about what it should be, and neither it nor the time of the
retry overflows. -/
def Bounded (b : Backoff) (attempt : Nat) (now : Int) : Prop :=
  ∀ jitter, 0 ≤ jitter → jitter ≤ max (b.cappedFor attempt / 4) 1 → ∃ delay retry,
    b.delayAt attempt jitter = some delay ∧ b.retryAt attempt now jitter = some retry ∧
      retry = now + delay ∧ 1 ≤ delay ∧
      b.exact attempt - ceilQuarter (b.exact attempt) ≤ delay ∧
        delay ≤ b.exact attempt + ceilQuarter (b.exact attempt)

theorem admitted_ofOptions {delayMs maxDelayMs : Option Int} (hdelay : ∀ d ∈ delayMs, d ≤ i64Max)
    (hmax : ∀ d ∈ maxDelayMs, d ≤ i64Max) :
    (ofOptions delayMs maxDelayMs).Admitted := by
  have hfirst : 1 ≤ (ofOptions delayMs maxDelayMs).delayMs ∧
    (ofOptions delayMs maxDelayMs).delayMs ≤ i64Max := by
    cases delayMs with
    | none => exact (by decide : 1 ≤ default.delayMs ∧ default.delayMs ≤ i64Max)
    | some d => exact ⟨le_max_right d 1, max_le (hdelay d rfl) (by decide)⟩
  have hsecond : 1 ≤ (ofOptions delayMs maxDelayMs).maxDelayMs ∧
    (ofOptions delayMs maxDelayMs).maxDelayMs ≤ i64Max := by
    cases maxDelayMs with
    | none => exact (by decide : 1 ≤ default.maxDelayMs ∧ default.maxDelayMs ≤ i64Max)
    | some d => exact ⟨hfirst.1.trans (le_max_right d _), max_le (hmax d rfl) hfirst.2⟩
  exact ⟨hfirst.1, hfirst.2, hsecond.1, hsecond.2⟩

section Bounds

variable {b : Backoff} {attempt : Nat} {now jitter delay : Int}

theorem exact_pos (h : b.Admitted) : 1 ≤ b.exact attempt := by
  have hpow : 0 < (2 : Int) ^ min (attempt - 1) 20 := Int.pow_pos (by decide)
  have hproduct : 0 < b.delayMs * 2 ^ min (attempt - 1) 20 := Int.mul_pos h.delay_pos hpow
  exact le_min hproduct h.max_pos

theorem exact_le (h : b.Admitted) : b.exact attempt ≤ i64Max := (min_le_right _ _).trans h.max_le

theorem cappedFor_eq (h : b.Admitted) : b.cappedFor attempt = b.exact attempt := by
  have hpos : 1 ≤ b.exact attempt := exact_pos h
  have hmax := h.max_le
  have hone := h.max_pos
  rw [cappedFor, saturate]
  rw [exact] at hpos ⊢
  rw [i64Max] at hmax
  omega

theorem delayAt_eq (h : b.Admitted) :
    b.delayAt attempt jitter = checked (b.exact attempt - b.exact attempt / 8 + jitter) := by
  have hpos : 1 ≤ b.exact attempt := exact_pos h
  have hle : b.exact attempt ≤ i64Max := exact_le h
  have hkept : checked (b.exact attempt - b.exact attempt / 8) =
    some (b.exact attempt - b.exact attempt / 8) := by
    rw [checked_eq_some, i64Min]
    omega
  rw [delayAt, cappedFor_eq h]
  show (checked (b.exact attempt - b.exact attempt / 8)).bind _ = _
  rw [hkept]
  rfl

theorem retryAt_eq (h : b.Admitted) (hnow : i64Min ≤ now) (hjitter : 0 ≤ jitter)
    (hdelay : b.exact attempt - b.exact attempt / 8 + jitter ≤ i64Max)
    (hretry : now + (b.exact attempt - b.exact attempt / 8 + jitter) ≤ i64Max) :
    b.delayAt attempt jitter = some (b.exact attempt - b.exact attempt / 8 + jitter) ∧
      b.retryAt attempt now jitter = some
        (now + (b.exact attempt - b.exact attempt / 8 + jitter)) := by
  have hpos : 1 ≤ b.exact attempt := exact_pos h
  have heq : b.delayAt attempt jitter = some (b.exact attempt - b.exact attempt / 8 + jitter) := by
    rw [delayAt_eq h, checked_eq_some]
    refine ⟨rfl, ?_, hdelay⟩
    rw [i64Min]
    omega
  refine ⟨heq, ?_⟩
  rw [retryAt, heq]
  show checked _ = _
  rw [checked_eq_some]
  refine ⟨rfl, ?_, hretry⟩
  omega

/-- The delays are bounded and nothing overflows if and only if neither the longest delay nor the
time of a retry after it does. -/
theorem bounded_iff (h : b.Admitted) (hnow : i64Min ≤ now) :
    b.Bounded attempt now ↔ b.longest attempt ≤ i64Max ∧ now + b.longest attempt ≤ i64Max := by
  have hpos : 1 ≤ b.exact attempt := exact_pos h
  constructor
  · intro hb
    obtain ⟨delay, retry, hdelay, hretry, rfl, -⟩ :=
      hb (max (b.cappedFor attempt / 4) 1) (by omega) (le_refl _)
    have hlongest := hdelay
    rw [delayAt_eq h, cappedFor_eq h, checked_eq_some] at hlongest
    obtain ⟨rfl, -, hle⟩ := hlongest
    rw [retryAt, hdelay] at hretry
    exact ⟨hle, (checked_eq_some.mp hretry).2.2⟩
  · rintro ⟨hlongest, hretry⟩ jitter hjitter hdraw
    rw [cappedFor_eq h] at hdraw
    rw [longest] at hlongest hretry
    have hsum : b.exact attempt - b.exact attempt / 8 + jitter ≤ i64Max := by omega
    obtain ⟨hd, hr⟩ := retryAt_eq h hnow hjitter hsum (by omega)
    refine ⟨_, _, hd, hr, rfl, ?_, ?_, ?_⟩
    · omega
    · rw [ceilQuarter]
      omega
    · rw [ceilQuarter]
      omega

theorem admitted_default : default.Admitted := ⟨by decide, by decide, by decide, by decide⟩

theorem bounded_third_retry : default.Bounded 3 1700000000000 :=
  (bounded_iff admitted_default (by decide)).mpr (by decide)

/-- A delay of about 292 million years. -/
theorem longest_delay_overflows : (ofOptions (some i64Max) (some i64Max)).Admitted ∧
    ¬ (ofOptions (some i64Max) (some i64Max)).Bounded 1 1700000000000 := by
  refine ⟨admitted_ofOptions (fun d hd => ?_) (fun d hd => ?_), fun hb => ?_⟩
  · cases hd
    exact le_refl _
  · cases hd
    exact le_refl _
  · obtain ⟨delay, retry, hdelay, -⟩ := hb (i64Max / 4) (by decide) (by decide)
    have hnone : (ofOptions (some i64Max) (some i64Max)).delayAt 1 (i64Max / 4) = none := by decide
    rw [hnone] at hdelay
    cases hdelay

end Bounds

end Backoff

end ZenZip
