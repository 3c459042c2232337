import ZenZip.Queue.Dispatcher
import Mathlib.Data.Rat.Floor
import Mathlib.Tactic.Linarith
import Mathlib.Tactic.Positivity
import Mathlib.Tactic.Ring

namespace ZenZip

open Lib

structure RateLimit where
  max : Nat
  perMs : Nat

/-- The token arithmetic over exact rationals. -/
structure TokenBucket where
  capacity : ℚ
  tokens : ℚ
  /-- Tokens regenerated per millisecond. -/
  refillPerMs : ℚ
  last : ℚ

namespace RateLimit

variable (limit : RateLimit)

def capacity : ℚ := (Max.max limit.max 1 : ℕ)

def refillPerMs : ℚ := limit.capacity / (Max.max limit.perMs 1 : ℕ)

theorem capacity_pos : 0 < limit.capacity :=
  Nat.cast_pos.mpr (Nat.lt_of_lt_of_le Nat.zero_lt_one (Nat.le_max_right _ _))

theorem refillPerMs_nonneg : 0 ≤ limit.refillPerMs :=
  div_nonneg limit.capacity_pos.le (Nat.cast_nonneg _)

end RateLimit

namespace TokenBucket

def new (limit : RateLimit) (now : ℚ) : TokenBucket :=
  ⟨limit.capacity, limit.capacity, limit.refillPerMs, now⟩

def refill (b : TokenBucket) (now : ℚ) : TokenBucket :=
  { b with tokens := min (b.tokens + (now - b.last) * b.refillPerMs) b.capacity, last := now }

def take (b : TokenBucket) (want : Nat) (now : ℚ) : TokenBucket × Nat :=
  let b := b.refill now
  let granted := min want ⌊b.tokens⌋₊
  ({ b with tokens := b.tokens - granted }, granted)

def refund (b : TokenBucket) (n : Nat) : TokenBucket :=
  { b with tokens := min (b.tokens + n) b.capacity }

def msUntilToken (b : TokenBucket) : Nat :=
  if 1 ≤ b.tokens then 0 else ⌈(1 - b.tokens) / b.refillPerMs⌉₊

def ops : Bucket TokenBucket ℚ where
  take := take
  refund := refund
  msUntilToken := msUntilToken
  take_le _ _ _ := Nat.min_le_left _ _

variable {b : TokenBucket} {limit : RateLimit} {now : ℚ} {want n : Nat}

structure Within (limit : RateLimit) (b : TokenBucket) : Prop where
  capacity : b.capacity = limit.capacity
  rate : b.refillPerMs = limit.refillPerMs
  nonneg : 0 ≤ b.tokens
  le : b.tokens ≤ limit.capacity

theorem within_new (limit : RateLimit) (now : ℚ) : (new limit now).Within limit :=
  ⟨rfl, rfl, limit.capacity_pos.le, le_rfl⟩

theorem Within.refill (h : b.Within limit) (hnow : b.last ≤ now) : (b.refill now).Within limit := by
  obtain ⟨hcap, hrate, hnonneg, hle⟩ := h
  refine ⟨hcap, hrate, le_min ?_ ?_, ?_⟩
  · have hmul := mul_nonneg (sub_nonneg.mpr hnow) (hrate ▸ limit.refillPerMs_nonneg)
    exact add_nonneg hnonneg hmul
  · rw [hcap]
    exact limit.capacity_pos.le
  · rw [← hcap]
    exact min_le_right _ _

theorem Within.take (h : b.Within limit) (hnow : b.last ≤ now) (want : Nat) :
    (b.take want now).1.Within limit := by
  obtain ⟨hcap, hrate, hnonneg, hle⟩ := h.refill hnow
  have hfloor : ((min want ⌊(b.refill now).tokens⌋₊ : ℕ) : ℚ) ≤ (b.refill now).tokens :=
    le_trans (Nat.cast_le.mpr (Nat.min_le_right _ _)) (Nat.floor_le hnonneg)
  exact ⟨hcap, hrate, sub_nonneg.mpr hfloor, (sub_le_self _ (Nat.cast_nonneg _)).trans hle⟩

theorem Within.refund (h : b.Within limit) (n : Nat) : (b.refund n).Within limit := by
  obtain ⟨hcap, hrate, hnonneg, hle⟩ := h
  refine ⟨hcap, hrate, le_min (add_nonneg hnonneg (Nat.cast_nonneg _)) ?_, ?_⟩
  · rw [hcap]
    exact limit.capacity_pos.le
  · rw [← hcap]
    exact min_le_right _ _

theorem tokens_take_le (h : b.Within limit) (want : Nat) (now : ℚ) :
    (b.take want now).1.tokens + (b.take want now).2 ≤ b.tokens +
      (now - b.last) * limit.refillPerMs ∧
      (b.take want now).1.tokens + (b.take want now).2 ≤ limit.capacity := by
  have hsum : (b.take want now).1.tokens + (b.take want now).2 = (b.refill now).tokens :=
    sub_add_cancel _ _
  rw [hsum, ← h.rate, ← h.capacity]
  exact ⟨min_le_left _ _, min_le_right _ _⟩

end TokenBucket

namespace Dispatcher

def Grant.kept {T : Type} (g : Grant T) : Nat := g.granted - g.refunded

def spent (a b : ℚ) : List (Grant ℚ) → Nat
  | [] => 0
  | g :: gs => (if a ≤ g.at' ∧ g.at' ≤ b then g.kept else 0) + spent a b gs

variable {J : Type} {cfg : QueueConfig} {limit : RateLimit} {σ σ' : Dispatcher TokenBucket ℚ J}
  {l : Label ℚ J}
  {b : TokenBucket} {a c now : ℚ} {gs : List (Grant ℚ)}

theorem spent_cons (t : ℚ) (granted refunded : Nat) (gs : List (Grant ℚ)) :
    spent a c (⟨t, granted, refunded⟩ :: gs) =
    (if a ≤ t ∧ t ≤ c then granted - refunded else 0) + spent a c gs := rfl

theorem spent_eq_zero (h : ∀ g ∈ gs, g.at' < a) : spent a c gs = 0 := by
  induction gs with
  | nil => rfl
  | cons g gs ih =>
      obtain ⟨hg, hgs⟩ := List.forall_mem_cons.mp h
      rw [spent, ih hgs, if_neg (fun hin => absurd hin.1 (not_le.mpr hg))]

/-- What has been spent from `a` on, with what is left, is within the capacity and what has been
regenerated since. -/
structure Paid (limit : RateLimit) (b : TokenBucket) (gs : List (Grant ℚ)) : Prop where
  within : b.Within limit
  past : ∀ g ∈ gs, g.at' ≤ b.last
  left : ∀ a c, b.last ≤ c → spent a c gs + b.tokens ≤
    limit.capacity + max 0 (b.last - a) * limit.refillPerMs
  bounded : ∀ a c, (spent a c gs : ℚ) ≤ limit.capacity + max 0 (c - a) * limit.refillPerMs

theorem regenerated_mono (limit : RateLimit) {d d' : ℚ} (h : d ≤ d') :
    max 0 d * limit.refillPerMs ≤ max 0 d' * limit.refillPerMs :=
  mul_le_mul_of_nonneg_right (max_le_max le_rfl h) limit.refillPerMs_nonneg

theorem regenerated_nonneg (limit : RateLimit) (d : ℚ) : 0 ≤ max 0 d * limit.refillPerMs :=
  mul_nonneg (le_max_left _ _) limit.refillPerMs_nonneg

theorem Paid.take (h : Paid limit b gs) (hnow : b.last ≤ now) (want : Nat) :
    Paid limit (b.take want now).1 (⟨now, (b.take want now).2, 0⟩ :: gs) := by
  obtain ⟨hwithin, hpast, hleft, hbounded⟩ := h
  have hwithin' := hwithin.take hnow want
  obtain ⟨hregen, hcap⟩ := TokenBucket.tokens_take_le hwithin want now
  have hleft' (a c : ℚ) (hc : now ≤ c) : (spent a c (⟨now, (b.take want now).2, 0⟩ :: gs) : ℚ) +
    (b.take want now).1.tokens ≤
      limit.capacity + max 0 (now - a) * limit.refillPerMs := by
    rw [spent_cons, Nat.cast_add]
    have hregenerated := regenerated_nonneg limit (now - a)
    by_cases ha : a ≤ b.last
    · have hold := hleft a c (hnow.trans hc)
      have hsplit : (now - a) * limit.refillPerMs =
          (b.last - a) * limit.refillPerMs + (now - b.last) * limit.refillPerMs := by ring
      rw [max_eq_right (sub_nonneg.mpr ha)] at hold
      rw [if_pos ⟨ha.trans hnow, hc⟩, max_eq_right (sub_nonneg.mpr (ha.trans hnow)), hsplit,
        Nat.sub_zero]
      linarith
    · -- nothing was spent from `a` on before this grant
      have hnone : spent a c gs = 0 :=
        spent_eq_zero (fun g hg => lt_of_le_of_lt (hpast g hg) (not_le.mp ha))
      rw [hnone, Nat.cast_zero, add_zero]
      split
      · rw [Nat.sub_zero]
        linarith
      · rw [Nat.cast_zero, zero_add]
        linarith [hwithin'.le]
  refine ⟨hwithin', ?_, hleft', fun a c => ?_⟩
  · exact List.forall_mem_cons.mpr ⟨le_rfl, fun g hg => (hpast g hg).trans hnow⟩
  · by_cases hc : now ≤ c
    · have hsum := hleft' a c hc
      have hmono := regenerated_mono limit (sub_le_sub_right hc a)
      linarith [hwithin'.nonneg]
    · rw [spent_cons, if_neg (fun hin => hc hin.2), Nat.zero_add]
      exact hbounded a c

theorem Paid.refused (h : Paid limit b gs) (hnow : b.last ≤ now) {want : Nat}
    (hzero : (b.take want now).2 = 0) :
    Paid limit (b.take want now).1 gs := by
  have htake := h.take hnow want
  rw [hzero] at htake
  have hspent (a c : ℚ) : spent a c (⟨now, 0, 0⟩ :: gs) = spent a c gs := by
    rw [spent_cons, ite_self, Nat.zero_add]
  refine ⟨htake.within, fun g hg => htake.past g (List.mem_cons_of_mem _ hg), fun a c hc => ?_,
    fun a c => ?_⟩
  · rw [← hspent]
    exact htake.left a c hc
  · rw [← hspent]
    exact htake.bounded a c

theorem Paid.refund {want n : Nat} (h : Paid limit b (⟨b.last, want, 0⟩ :: gs)) (hn : n ≤ want) :
    Paid limit (b.refund n) (⟨b.last, want, n⟩ :: gs) := by
  obtain ⟨hwithin, hpast, hleft, hbounded⟩ := h
  have hwithin' := hwithin.refund n
  have htokens : (b.refund n).tokens ≤ b.tokens + n := min_le_left _ _
  have hspent (a c : ℚ) : spent a c (⟨b.last, want, n⟩ :: gs) +
    (if a ≤ b.last ∧ b.last ≤ c then n else 0) =
      spent a c (⟨b.last, want, 0⟩ :: gs) := by
    rw [spent_cons, spent_cons]
    split
    · omega
    · rfl
  refine ⟨hwithin', ?_, fun a c hc => ?_, fun a c => ?_⟩
  · exact List.forall_mem_cons.mpr ⟨le_rfl, (List.forall_mem_cons.mp hpast).2⟩
  · have hold := hleft a c hc
    rw [← hspent, Nat.cast_add] at hold
    by_cases ha : a ≤ b.last
    · rw [if_pos ⟨ha, hc⟩] at hold
      show _ ≤ limit.capacity + max 0 (b.last - a) * limit.refillPerMs
      linarith
    · have hnone : spent a c (⟨b.last, want, n⟩ :: gs) = 0 := by
        apply spent_eq_zero
        intro g hg
        rcases List.mem_cons.mp hg with rfl | hg
        · exact not_le.mp ha
        · exact lt_of_le_of_lt (hpast g (List.mem_cons_of_mem _ hg)) (not_le.mp ha)
      rw [hnone, Nat.cast_zero, zero_add]
      have hregenerated := regenerated_nonneg limit ((b.refund n).last - a)
      linarith [hwithin'.le]
  · have hle : spent a c (⟨b.last, want, n⟩ :: gs) ≤ spent a c (⟨b.last, want, 0⟩ :: gs) :=
      hspent a c ▸ Nat.le_add_right _ _
    exact (Nat.cast_le.mpr hle).trans (hbounded a c)

structure Metered (limit : RateLimit) (σ : Dispatcher TokenBucket ℚ J) (b : TokenBucket) :
    Prop where
  bucket : σ.bucket = some b
  paid : Paid limit b σ.grants
  claiming : ∀ want, σ.phase = .claiming want → ∃ gs, σ.grants = ⟨b.last, want, 0⟩ :: gs

theorem metered_init (cfg : QueueConfig) (limit : RateLimit) (now : ℚ) :
    (init cfg (some (.new limit now)) : Dispatcher TokenBucket ℚ J).Metered limit
      (.new limit now) where
  bucket := rfl
  paid := by
    refine ⟨TokenBucket.within_new limit now, nofun, fun a c _ => ?_, fun a c => ?_⟩
    · have hsum : ((0 : ℕ) : ℚ) + limit.capacity ≤
        limit.capacity + max 0 (now - a) * limit.refillPerMs := by
        rw [Nat.cast_zero, zero_add]
        exact le_add_of_nonneg_right (regenerated_nonneg limit _)
      exact hsum
    · have hsum : ((0 : ℕ) : ℚ) ≤ limit.capacity + max 0 (c - a) * limit.refillPerMs := by
        rw [Nat.cast_zero]
        exact add_nonneg limit.capacity_pos.le (regenerated_nonneg limit _)
      exact hsum
  claiming := nofun

def onTime (σ : Dispatcher TokenBucket ℚ J) : Label ℚ J → Bool
  | .look _ _ now => σ.bucket.all (fun b => b.last ≤ now)
  | _ => true

theorem Metered.other (h : σ.Metered limit b) (hb : σ'.bucket = σ.bucket)
    (hg : σ'.grants = σ.grants)
    (hphase : ∀ want, σ'.phase ≠ .claiming want) : σ'.Metered limit b :=
  ⟨hb.trans h.bucket, hg ▸ h.paid, fun want hp => absurd hp (hphase want)⟩

theorem Metered.look (h : σ.Metered limit b) (hnow : b.last ≤ now) :
    ∃ b', (σ.look TokenBucket.ops cfg now).Metered limit b' := by
  unfold Dispatcher.look
  split
  · exact ⟨b, h.other rfl rfl nofun⟩
  · rw [h.bucket]
    dsimp only [TokenBucket.ops]
    split
    · next hzero => exact ⟨_, rfl, h.paid.refused hnow hzero, nofun⟩
    · refine ⟨_, rfl, h.paid.take hnow _, fun want hp => ?_⟩
      cases hp
      exact ⟨σ.grants, rfl⟩

theorem Metered.giveBack {want n : Nat} (h : σ.Metered limit b) (hphase : σ.phase = .claiming want)
    (hn : n ≤ want)
    (hb : σ'.bucket = (σ.giveBack TokenBucket.ops n).bucket)
    (hg : σ'.grants = (σ.giveBack TokenBucket.ops n).grants)
    (hother : ∀ want, σ'.phase ≠ .claiming want) : σ'.Metered limit (b.refund n) := by
  obtain ⟨gs, hgs⟩ := h.claiming want hphase
  have hpaid := h.paid
  rw [hgs] at hpaid
  refine ⟨?_, ?_, fun want hp => absurd hp (hother want)⟩
  · rw [hb, Dispatcher.giveBack, h.bucket]
    rfl
  · rw [hg, Dispatcher.giveBack, h.bucket, hgs]
    exact hpaid.refund hn

theorem Metered.claim {want : Nat} {result : Except String (List J)} (h : σ.Metered limit b)
    (hphase : σ.phase = .claiming want) (hs : σ.claim TokenBucket.ops cfg want result = some σ') :
    ∃ b', σ'.Metered limit b' := by
  unfold Dispatcher.claim at hs
  split at hs
  · cases hs
    exact ⟨b, h.other rfl rfl nofun⟩
  · cases hs
    exact ⟨_, h.giveBack hphase (Nat.le_refl want) rfl rfl nofun⟩
  · split at hs
    · cases hs
      exact ⟨_, h.giveBack hphase (Nat.sub_le want _) rfl rfl nofun⟩
    · cases hs

theorem Metered.dispatch {cs : List (List J)} (h : σ.Metered limit b)
    (hs : σ.dispatch cs = some σ') : σ'.Metered limit b := by
  cases cs with
  | nil =>
      cases hs
      exact h.other rfl rfl (fun _ hp => by cases hp)
  | cons c cs =>
      rw [Dispatcher.dispatch] at hs
      split at hs
      · cases hs
      · cases hs
        exact h.other rfl rfl (fun _ hp => by cases hp)

theorem Metered.step (h : σ.Metered limit b) (hok : onTime σ l = true)
    (hs : σ.step TokenBucket.ops cfg l = some σ') :
    ∃ b', σ'.Metered limit b' := by
  obtain ⟨phase, _, hidle, rfl⟩ | ⟨cancelled, paused, now, rfl, _, rfl⟩ | ⟨want, result, hphase,
    hclaim⟩ |
    ⟨cs, _, hdispatch⟩ | ⟨i, _, rfl⟩ := step_cases hs
  · exact ⟨b, h.other rfl rfl hidle.ne_claiming⟩
  · rw [onTime, h.bucket, Option.all_some, decide_eq_true_eq] at hok
    exact h.look hok
  · exact h.claim hphase hclaim
  · exact ⟨b, h.dispatch hdispatch⟩
  · exact ⟨b, h.bucket, h.paid, h.claiming⟩

/-- Where the readings of the clock do not decrease, the tokens stay within the capacity, and in
every interval of length `W` no more is granted and kept than the capacity and what is regenerated
in `W`. -/
theorem rate_bounded {t₀ : ℚ}
    (h : Run (Dispatcher.step TokenBucket.ops cfg) onTime (init cfg (some (.new limit t₀))) σ) :
    (∃ b, σ.bucket = some b ∧ 0 ≤ b.tokens ∧ b.tokens ≤ limit.capacity) ∧
    ∀ a W, 0 ≤ W → (spent a (a + W) σ.grants : ℚ) ≤ limit.capacity + W * limit.capacity /
    (Max.max limit.perMs 1 : ℕ) := by
  have hI : ∃ b, σ.Metered limit b := by
    refine h.invariant (fun σ => ∃ b, σ.Metered limit b) ⟨_, metered_init cfg limit t₀⟩ ?_
    rintro σ l σ' _ ⟨b, hI⟩ hok hs
    exact hI.step hok hs
  obtain ⟨b, hbucket, hpaid, _⟩ := hI
  refine ⟨⟨b, hbucket, hpaid.within.nonneg, hpaid.within.le⟩, fun a W hW => ?_⟩
  have hbounded := hpaid.bounded a (a + W)
  rwa [add_sub_cancel_left, max_eq_right hW, RateLimit.refillPerMs, ← mul_div_assoc] at hbounded

section Sample

/-- Five per second, and a claim that finds two of the three jobs it may take. -/
theorem rate_bounded_refund : ∃ σ : Dispatcher TokenBucket ℚ Nat,
    Run (Dispatcher.step TokenBucket.ops ⟨3, 32, 1⟩) onTime
      (init ⟨3, 32, 1⟩ (some (.new ⟨5, 1000⟩ 0))) σ ∧
    spent 10 10 σ.grants = 2 ∧ (spent 10 (10 + 0) σ.grants : ℚ) ≤ RateLimit.capacity ⟨5, 1000⟩ +
      0 * RateLimit.capacity ⟨5, 1000⟩ / (Max.max 1000 1 : ℕ) := by
  obtain ⟨σ, h, hp⟩ := Run.exists_of_replay (Dispatcher.step TokenBucket.ops ⟨3, 32, 1⟩) onTime
    (init ⟨3, 32, 1⟩ (some (.new ⟨5, 1000⟩ 0)))
    [.look false false 10, .claim (.ok [1, 2])] (fun σ => decide (spent 10 10 σ.grants = 2))
      (by decide +kernel)
  exact ⟨σ, h, of_decide_eq_true hp, (rate_bounded h).2 10 0 le_rfl⟩

/-- A limit of 0 jobs is read as 1. -/
theorem zero_limit_grants : ∃ σ : Dispatcher TokenBucket ℚ Nat,
    Run (Dispatcher.step TokenBucket.ops ⟨3, 32, 1⟩) onTime
      (init ⟨3, 32, 1⟩ (some (.new ⟨0, 1000⟩ 0))) σ ∧
    ¬ (spent 10 (10 + 0) σ.grants : ℚ) ≤ (RateLimit.mk 0 1000).max + 0 * (RateLimit.mk 0 1000).max /
      (RateLimit.mk 0 1000).perMs := by
  obtain ⟨σ, h, hp⟩ := Run.exists_of_replay (Dispatcher.step TokenBucket.ops ⟨3, 32, 1⟩) onTime
    (init ⟨3, 32, 1⟩ (some (.new ⟨0, 1000⟩ 0)))
    [.look false false 10, .claim (.ok [1])] (fun σ => decide (spent 10 (10 + 0) σ.grants = 1))
      (by decide +kernel)
  refine ⟨σ, h, ?_⟩
  rw [of_decide_eq_true hp]
  norm_num

end Sample

end Dispatcher

end ZenZip
