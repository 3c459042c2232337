import ZenZip.Lib.Chunks
import ZenZip.Lib.Run

namespace ZenZip

open Lib

def u32Max : Nat := 4294967295

def saturatingMul (a b : Nat) : Nat := min (a * b) u32Max

theorem saturatingMul_le (a b : Nat) : saturatingMul a b ≤ a * b := Nat.min_le_left _ _

/-- The part of a queue's configuration that its dispatcher reads, all in `u32`. -/
structure QueueConfig where
  concurrency : Nat
  batch : Nat
  handlerBatch : Nat

/-- What the dispatcher does with a bucket of tokens over readings `T` of its clock. It grants no
more than is wanted. -/
structure Bucket (B T : Type) where
  take : B → Nat → T → B × Nat
  refund : B → Nat → B
  msUntilToken : B → Nat
  take_le : ∀ b want now, (take b want now).2 ≤ want

namespace Dispatcher

inductive Phase (J : Type)
  | looking
  | claiming (want : Nat)
  | dispatching (chunks : List (List J))
  | resting (saturated : Bool) (rateWaitMs : Option Nat)
  | returned

/-- The tokens that an iteration has taken, and those that it has given back. -/
structure Grant (T : Type) where
  at' : T
  granted : Nat
  refunded : Nat

inductive Label (T J : Type)
  | look (cancelled paused : Bool) (now : T)
  | claim (result : Except String (List J))
  | dispatch
  | finish (i : Nat)
  | wake (cancelled : Bool)

end Dispatcher

open Dispatcher

/-- A dispatcher with the groups that its handlers are at work on, all jobs that it has claimed, all
groups that it has started, and its grants, the last one first. -/
structure Dispatcher (B T J : Type) where
  bucket : Option B
  permits : Nat
  phase : Phase J
  inFlight : List (List J)
  claimed : List J
  started : List (List J)
  grants : List (Grant T)

namespace QueueConfig

variable (cfg : QueueConfig)

def group : Nat := max cfg.handlerBatch 1

def slots : Nat := max cfg.concurrency 1

def want (available : Nat) : Nat :=
  min (saturatingMul available cfg.group) (max cfg.batch cfg.group)

theorem group_pos : 0 < cfg.group := Nat.lt_of_lt_of_le Nat.zero_lt_one (Nat.le_max_right _ _)

theorem want_le (available : Nat) : cfg.want available ≤ available * cfg.group :=
  Nat.le_trans (Nat.min_le_left _ _) (saturatingMul_le _ _)

end QueueConfig

namespace Dispatcher

variable {B T J : Type} (ops : Bucket B T) (cfg : QueueConfig)

def init (bucket : Option B) : Dispatcher B T J := ⟨bucket, cfg.slots, .looking, [], [], [], []⟩

/-- The tokens not used go back to the bucket. -/
def giveBack (σ : Dispatcher B T J) (n : Nat) : Dispatcher B T J :=
  { σ with
    bucket := σ.bucket.map (fun b => ops.refund b n)
    grants := match σ.bucket, σ.grants with
      | some _, g :: gs => { g with refunded := n } :: gs
      | _, gs => gs }

def look (σ : Dispatcher B T J) (now : T) : Dispatcher B T J :=
  if σ.permits = 0 then { σ with phase := .resting true none }
  else match σ.bucket with
    | none => { σ with phase := .claiming (cfg.want σ.permits) }
    | some b =>
      let (b, want) := ops.take b (cfg.want σ.permits) now
      if want = 0 then { σ with
        bucket := some b, phase := .resting false (some (max (ops.msUntilToken b) 1)) }
      else { σ with
        bucket := some b, phase := .claiming want, grants := ⟨now, want, 0⟩ :: σ.grants }

/-- A claim returns at most as many jobs as it is asked for. -/
def claim (σ : Dispatcher B T J) (want : Nat) : Except String (List J) → Option (Dispatcher B T J)
  | .error _ => some { σ with phase := .resting false none }
  | .ok [] => some { σ.giveBack ops want with phase := .resting false none }
  | .ok (job :: jobs) =>
    if (job :: jobs).length ≤ want then
      some { σ.giveBack ops (want - (job :: jobs).length) with
        phase := .dispatching (chunks cfg.group (job :: jobs))
        claimed := σ.claimed ++ job :: jobs }
    else none

/-- The loop waits where a group finds no permit. -/
def dispatch (σ : Dispatcher B T J) : List (List J) → Option (Dispatcher B T J)
  | [] => some { σ with phase := .looking }
  | c :: cs =>
    if σ.permits = 0 then none
    else some { σ with
      permits := σ.permits - 1
      phase := .dispatching cs
      inFlight := σ.inFlight ++ [c]
      started := σ.started ++ [c] }

def step (σ : Dispatcher B T J) : Label T J → Option (Dispatcher B T J)
  | .look cancelled paused now =>
    match σ.phase with
    | .looking =>
      if cancelled then some { σ with phase := .returned }
      else if paused then some { σ with phase := .resting false none }
      else some (σ.look ops cfg now)
    | _ => none
  | .claim result =>
    match σ.phase with
    | .claiming want => σ.claim ops cfg want result
    | _ => none
  | .dispatch =>
    match σ.phase with
    | .dispatching cs => σ.dispatch cs
    | _ => none
  | .finish i =>
    if i < σ.inFlight.length then some
      { σ with permits := σ.permits + 1, inFlight := σ.inFlight.eraseIdx i } else none
  | .wake cancelled =>
    match σ.phase with
    | .resting _ _ => some { σ with phase := if cancelled then .returned else .looking }
    | _ => none

variable {ops cfg} {σ σ' : Dispatcher B T J} {l : Label T J}

def Phase.formed : Phase J → List (List J)
  | .dispatching cs => cs
  | _ => []

/-- What a claim under way may bring fits into the free permits. -/
def Phase.Fits (cfg : QueueConfig) (permits : Nat) : Phase J → Prop
  | .claiming want => want ≤ permits * cfg.group
  | .dispatching cs => cs.length ≤ permits
  | _ => True

theorem Phase.Fits.mono {phase : Phase J} {n m : Nat} (h : phase.Fits cfg n) (hle : n ≤ m) :
    phase.Fits cfg m := by
  cases phase with
  | claiming want => exact Nat.le_trans h (Nat.mul_le_mul_right _ hle)
  | dispatching cs => exact Nat.le_trans h hle
  | looking | resting | returned => trivial

def Phase.Idle : Phase J → Prop
  | .looking | .resting _ _ | .returned => True
  | _ => False

theorem Phase.Idle.formed {phase : Phase J} (h : phase.Idle) : phase.formed = [] := by
  cases phase with
  | looking | resting | returned => rfl
  | claiming | dispatching => exact h.elim

theorem Phase.Idle.fits {phase : Phase J} (h : phase.Idle) (cfg : QueueConfig) (permits : Nat) :
    phase.Fits cfg permits := by
  cases phase with
  | looking | resting | returned => trivial
  | claiming | dispatching => exact h.elim

theorem Phase.Idle.ne_claiming {phase : Phase J} (h : phase.Idle) (want : Nat) :
    phase ≠ .claiming want := by
  rintro rfl
  exact h

theorem step_cases (hs : σ.step ops cfg l = some σ') :
    (∃ phase : Phase J, σ.phase.Idle ∧ phase.Idle ∧ σ' = { σ with phase }) ∨
    (∃ cancelled paused now, l = .look cancelled paused now ∧ σ.phase = .looking ∧
    σ' = σ.look ops cfg now) ∨
    (∃ want result, σ.phase = .claiming want ∧ σ.claim ops cfg want result = some σ') ∨
    (∃ cs, σ.phase = .dispatching cs ∧ σ.dispatch cs = some σ') ∨
    ∃ i, i < σ.inFlight.length ∧ σ' =
    { σ with permits := σ.permits + 1, inFlight := σ.inFlight.eraseIdx i } := by
  cases l with
  | look cancelled paused now =>
      simp only [step] at hs
      split at hs
      · next hphase =>
          have hidle : σ.phase.Idle := by rw [hphase]; trivial
          split at hs
          · cases hs
            exact .inl ⟨.returned, hidle, trivial, rfl⟩
          · split at hs
            · cases hs
              exact .inl ⟨.resting false none, hidle, trivial, rfl⟩
            · cases hs
              exact .inr (.inl ⟨cancelled, paused, now, rfl, hphase, rfl⟩)
      · cases hs
  | claim result =>
      simp only [step] at hs
      split at hs
      · next want hphase => exact .inr (.inr (.inl ⟨want, result, hphase, hs⟩))
      · cases hs
  | dispatch =>
      simp only [step] at hs
      split at hs
      · next cs hphase => exact .inr (.inr (.inr (.inl ⟨cs, hphase, hs⟩)))
      · cases hs
  | finish i =>
      simp only [step] at hs
      split at hs
      · next hi =>
          cases hs
          exact .inr (.inr (.inr (.inr ⟨i, hi, rfl⟩)))
      · cases hs
  | wake cancelled =>
      simp only [step] at hs
      split at hs
      · next saturated rateWaitMs hphase =>
          cases hs
          have hidle : σ.phase.Idle := by rw [hphase]; trivial
          cases cancelled with
          | true => exact .inl ⟨.returned, hidle, trivial, rfl⟩
          | false => exact .inl ⟨.looking, hidle, trivial, rfl⟩
      · cases hs

/-- The invariant: every slot is a permit or a group in flight, and every job claimed is in one of
the groups. -/
structure Sound (cfg : QueueConfig) (σ : Dispatcher B T J) : Prop where
  slots : σ.permits + σ.inFlight.length = cfg.slots
  fits : σ.phase.Fits cfg σ.permits
  delivered : σ.claimed = (σ.started ++ σ.phase.formed).flatten
  sizes : ∀ c ∈ σ.started ++ σ.phase.formed, c ≠ [] ∧ c.length ≤ cfg.group

theorem sound_init (bucket : Option B) : (init cfg bucket : Dispatcher B T J).Sound cfg :=
  ⟨rfl, trivial, rfl, nofun⟩

theorem Sound.phase (h : σ.Sound cfg) (hnone : σ.phase.formed = []) {phase : Phase J}
    (bucket : Option B)
    (grants : List (Grant T)) (hphase : phase.formed = []) (hfits : phase.Fits cfg σ.permits) :
    Sound cfg { σ with bucket, phase, grants } := by
  obtain ⟨hslots, _, hdelivered, hsizes⟩ := h
  rw [hnone] at hdelivered hsizes
  refine ⟨hslots, hfits, ?_, ?_⟩
  · dsimp only
    rw [hphase]
    exact hdelivered
  · dsimp only
    rw [hphase]
    exact hsizes

theorem Sound.look {now : T} (h : σ.Sound cfg) (hnone : σ.phase.formed = []) :
    (σ.look ops cfg now).Sound cfg := by
  unfold Dispatcher.look
  split
  · exact h.phase hnone σ.bucket σ.grants rfl trivial
  · split
    · exact h.phase hnone σ.bucket σ.grants rfl (cfg.want_le σ.permits)
    · next b _ =>
        have htake := ops.take_le b (cfg.want σ.permits) now
        split
        next b' want heq =>
          rw [heq] at htake
          split
          · exact h.phase hnone (some b') σ.grants rfl trivial
          · exact h.phase hnone (some b') _ rfl (Nat.le_trans htake (cfg.want_le σ.permits))

theorem Sound.claim {want : Nat} {result : Except String (List J)} (h : σ.Sound cfg)
    (hphase : σ.phase = .claiming want)
    (hs : σ.claim ops cfg want result = some σ') : σ'.Sound cfg := by
  have hnone : σ.phase.formed = [] := congrArg Phase.formed hphase
  have hfits := h.fits
  rw [hphase] at hfits
  unfold Dispatcher.claim at hs
  split at hs
  · cases hs
    exact h.phase hnone σ.bucket σ.grants rfl trivial
  · cases hs
    exact h.phase hnone _ _ rfl trivial
  · next job jobs =>
      split at hs
      · next hle =>
          cases hs
          obtain ⟨hslots, _, hdelivered, hsizes⟩ := h
          rw [hnone, List.append_nil] at hdelivered hsizes
          refine ⟨hslots, length_chunks_le (Nat.le_trans hle hfits), ?_, ?_⟩
          · show σ.claimed ++ job :: jobs = (σ.started ++ chunks cfg.group (job :: jobs)).flatten
            rw [List.flatten_append, flatten_chunks cfg.group_pos, hdelivered]
          · intro c hc
            rcases List.mem_append.mp hc with hc | hc
            · exact hsizes c hc
            · exact mem_chunks cfg.group_pos hc
      · cases hs

theorem Sound.dispatch {cs : List (List J)} (h : σ.Sound cfg) (hphase : σ.phase = .dispatching cs)
    (hs : σ.dispatch cs = some σ') : σ'.Sound cfg := by
  obtain ⟨hslots, hfits, hdelivered, hsizes⟩ := h
  rw [hphase] at hfits hdelivered hsizes
  cases cs with
  | nil =>
      cases hs
      exact ⟨hslots, trivial, hdelivered, hsizes⟩
  | cons c cs =>
      rw [Dispatcher.dispatch] at hs
      split at hs
      · cases hs
      · next hpermits =>
          cases hs
          have happend : σ.started ++ (c :: cs) = (σ.started ++ [c]) ++ cs := by
            rw [List.append_assoc]; rfl
          refine ⟨?_, Nat.le_sub_one_of_lt hfits, ?_, ?_⟩
          · dsimp only
            rw [List.length_append, List.length_singleton]
            omega
          · exact hdelivered.trans (congrArg List.flatten happend)
          · exact happend ▸ hsizes

theorem Sound.finish {i : Nat} (h : σ.Sound cfg) (hi : i < σ.inFlight.length) :
    Sound cfg { σ with permits := σ.permits + 1, inFlight := σ.inFlight.eraseIdx i } := by
  refine ⟨?_, h.fits.mono (Nat.le_succ _), h.delivered, h.sizes⟩
  have hslots := h.slots
  dsimp only
  rw [List.length_eraseIdx_of_lt hi]
  omega

theorem Sound.step (h : σ.Sound cfg) (hs : σ.step ops cfg l = some σ') : σ'.Sound cfg := by
  obtain ⟨phase, hidle, hidle', rfl⟩ | ⟨cancelled, paused, now, rfl, hphase, rfl⟩ | ⟨want, result,
    hphase, hclaim⟩ |
    ⟨cs, hphase, hdispatch⟩ | ⟨i, hi, rfl⟩ := step_cases hs
  · exact h.phase hidle.formed σ.bucket σ.grants hidle'.formed (hidle'.fits cfg σ.permits)
  · exact h.look (congrArg Phase.formed hphase)
  · exact h.claim hphase hclaim
  · exact h.dispatch hphase hdispatch
  · exact h.finish hi

/-- In every run, at most `slots` groups are in flight; the groups formed by a claim have a permit
each, so that the loop goes on with them whatever the handlers do; and every job claimed is in one
of the groups started or formed, none of which is larger than a group of the handler. -/
theorem slots_accounted {ok : Dispatcher B T J → Label T J → Bool} {bucket : Option B}
    (h : Run (Dispatcher.step ops cfg) ok (init cfg bucket) σ) :
    σ.inFlight.length ≤ max cfg.concurrency 1 ∧
    (∀ cs, σ.phase = .dispatching cs → cs.length ≤ σ.permits ∧
    ∃ σ', σ.step ops cfg .dispatch = some σ') ∧
    σ.claimed = (σ.started ++ σ.phase.formed).flatten ∧
    ∀ c ∈ σ.started ++ σ.phase.formed, c ≠ [] ∧ c.length ≤ max cfg.handlerBatch 1 := by
  have hI : σ.Sound cfg :=
    h.invariant (Sound cfg) (sound_init bucket) (fun _ _ _ _ hI _ hs => hI.step hs)
  obtain ⟨hslots, hfits, hdelivered, hsizes⟩ := hI
  have hle : σ.inFlight.length ≤ cfg.slots := hslots ▸ Nat.le_add_left _ _
  refine ⟨hle, fun cs hphase => ?_, hdelivered, hsizes⟩
  rw [hphase] at hfits
  refine ⟨hfits, ?_⟩
  simp only [Dispatcher.step, hphase]
  cases cs with
  | nil => exact ⟨_, rfl⟩
  | cons c cs =>
      rw [Dispatcher.dispatch, if_neg (Nat.ne_of_gt (Nat.lt_of_lt_of_le (Nat.succ_pos _) hfits))]
      exact ⟨_, rfl⟩

section Sample

def unlimited : Bucket Unit Unit :=
  ⟨fun _ want _ => ((), want), fun _ _ => (), fun _ => 0, fun _ _ _ => Nat.le_refl _⟩

/-- Three jobs for a handler of two at a time: a claim is cut to the two groups that have permits.
-/
theorem slots_accounted_burst : ∃ σ,
    Run (Dispatcher.step unlimited ⟨2, 2, 2⟩) (fun _ _ => true) (init ⟨2, 2, 2⟩ none) σ ∧
    σ.claimed = [1, 2, 3] ∧ σ.started = [[1, 2], [3]] ∧ σ.inFlight.length ≤ 2 := by
  obtain ⟨σ, h, hp⟩ :=
    Run.exists_of_replay (Dispatcher.step unlimited ⟨2, 2, 2⟩) (fun _ _ => true)
      (init ⟨2, 2, 2⟩ none)
    [.look false false (), .claim (.ok [1, 2]), .dispatch, .dispatch, .look false false (),
      .claim (.ok [3]), .dispatch]
    (fun σ => decide (σ.claimed = [1, 2, 3] ∧ σ.started = [[1, 2], [3]])) (by decide +kernel)
  obtain ⟨hclaimed, hstarted⟩ := of_decide_eq_true hp
  exact ⟨σ, h, hclaimed, hstarted, (slots_accounted h).1⟩

/-- A concurrency of 0 is read as 1. -/
theorem zero_concurrency_runs : ∃ σ : Dispatcher Unit Unit Nat,
    Run (Dispatcher.step unlimited ⟨0, 32, 1⟩) (fun _ _ => true) (init ⟨0, 32, 1⟩ none) σ ∧
    ¬ σ.inFlight.length ≤ (QueueConfig.mk 0 32 1).concurrency := by
  obtain ⟨σ, h, hp⟩ :=
    Run.exists_of_replay (Dispatcher.step unlimited ⟨0, 32, 1⟩) (fun _ _ => true)
      (init ⟨0, 32, 1⟩ none)
    [.look false false (), .claim (.ok [1]), .dispatch] (fun σ => decide (σ.inFlight = [[1]]))
      (by decide +kernel)
  refine ⟨σ, h, ?_⟩
  rw [of_decide_eq_true hp]
  decide

end Sample

end Dispatcher

end ZenZip
