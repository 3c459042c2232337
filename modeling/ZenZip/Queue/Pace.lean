import ZenZip.Lib.Spacing
import ZenZip.Queue.Push

namespace ZenZip

open Lib

/-- A push that its queue admits, by the clock of its producer. -/
structure Push (D : Type) where
  data : Option D
  options : PushOptions
  now : Int64

namespace Slots

variable {backend : Backend} {c : Option Time} {l : List (Time × Int)} {now t gap : Int}

theorem mem_starts {a : Store.Start} (h : a ∈ starts backend c l) : (a.now, a.spacing) ∈ l := by
  induction l generalizing c with
  | nil => exact absurd h List.not_mem_nil
  | cons p rest ih =>
      obtain ⟨now, spacing⟩ := p
      rw [starts] at h
      split at h
      · exact List.mem_cons_of_mem _ (ih h)
      · rcases List.mem_cons.mp h with rfl | h
        · exact List.mem_cons_self
        · exact List.mem_cons_of_mem _ (ih h)

theorem starts_le (hl : Read l) (hfit : backend = .sqlite → Fits c l) :
    ∀ a ∈ starts backend c l, a.availableAt + max a.spacing 0 ≤ i64Max := by
  induction l generalizing c with
  | nil => exact fun a ha => absurd ha List.not_mem_nil
  | cons p rest ih =>
      obtain ⟨now, spacing⟩ := p
      obtain ⟨hnow, hrest⟩ := List.forall_mem_cons.mp hl
      rw [starts]
      cases hadv : backend.advance (max (c.getD now) now + max spacing 0) with
      | none =>
          refine ih hrest (fun hb => ?_)
          rw [hb] at hadv
          cases hadv
      | some next =>
          obtain ⟨rfl, hmax⟩ :=
            Backend.of_advance hadv (min_le_next hnow c spacing) (fun hb => (hfit hb).1)
          exact List.forall_mem_cons.mpr ⟨hmax, ih hrest (fun hb => (hfit hb).2)⟩

/-- Pushes at one time find their starts one gap after the other. -/
theorem starts_replicate_le (hpos : 0 ≤ gap) (hnow : i64Min ≤ now) (hc : c.getD now ≤ t)
    (hle : now ≤ t) (n : Nat)
    (hmax : t + n * gap ≤ i64Max) : Fits c (List.replicate n (now, gap)) ∧
      ∀ a ∈ starts .sqlite c (List.replicate n (now, gap)), a.availableAt + gap ≤ t + n * gap := by
  induction n generalizing c t with
  | zero => exact ⟨trivial, fun a ha => absurd ha List.not_mem_nil⟩
  | succ n ih =>
      have hsplit : t + ((n + 1 : Nat) : Int) * gap = t + gap + n * gap := by
        rw [Nat.cast_succ, add_mul, one_mul]
        ring
      have hnonneg : 0 ≤ (n : Int) * gap := mul_nonneg (Int.natCast_nonneg n) hpos
      have hstart : max (c.getD now) now + gap ≤ t + gap := add_le_add_left (max_le hc hle) gap
      rw [hsplit] at hmax ⊢
      have hnext : max (c.getD now) now + max gap 0 ≤ i64Max := by
        rw [max_eq_left hpos]
        exact hstart.trans ((le_add_of_nonneg_right hnonneg).trans hmax)
      have hc' : (some (max (c.getD now) now + max gap 0)).getD now ≤ t + gap := by
        rw [Option.getD_some, max_eq_left hpos]
        exact hstart
      obtain ⟨hfit, hbound⟩ := ih hc' (hle.trans (le_add_of_nonneg_right hpos)) hmax
      rw [List.replicate_succ, starts, Backend.advance_eq (min_le_next hnow c gap) hnext]
      refine ⟨⟨hnext, hfit⟩, List.forall_mem_cons.mpr ⟨?_, hbound⟩⟩
      exact hstart.trans (le_add_of_nonneg_right hnonneg)

end Slots

theorem throttleSpacing_pos (limit : ℚ) (per : Nat) : 0 < throttleSpacing limit per :=
  Int.lt_of_lt_of_le Int.one_pos (le_max_left _ _)

def nativeSpacing (limit : ℚ) (per : Nat) : Int := min (throttleSpacing limit per) i64Max

theorem nativeSpacing_nonneg (limit : ℚ) (per : Nat) : 0 ≤ nativeSpacing limit per :=
  le_min (throttleSpacing_pos limit per).le (by decide)

namespace Queue

variable {D : Type} (q : Queue D)

def handed (pushes : List (Push D)) : List (PushJob × Int64) :=
  pushes.filterMap (fun p => (q.job p.data p.options).toOption.map (fun job => (job, p.now)))

def startTimes (backend : Backend) (s : Store) (tkey : String) (pushes : List (Push D)) :
    List Time :=
  (Store.starts backend q.name tkey s (q.handed pushes)).map (·.availableAt)

/-- No push moves the cursor of the key, counted without bounds, beyond the range of an `i64`. -/
def Fits (s : Store) (tkey : String) (pushes : List (Push D)) : Prop :=
  Slots.Fits (s.cursorAt q.name tkey) (Store.slotsOf q.name tkey (q.handed pushes))

variable {q} {data : Option D} {options : PushOptions} {job : PushJob}
  {key : D → Except String String} {limit : ℚ}
  {per : Nat} {s : Store} {backend : Backend} {tkey : String} {pushes : List (Push D)}

theorem job_spacing (hthrottle : q.throttle = some ⟨key, limit, .ok per⟩)
    (h : q.job data options = .ok job) {tkey : String}
    (hkey : job.throttleKey = some tkey) :
    job.throttleSpacingMs = some (nativeSpacing limit per) := by
  obtain ⟨payload, opts, hopts, rfl⟩ := job_ok h
  obtain ⟨_, hthrottleKey, hspacing⟩ := pushOptions_ok hopts
  have hkey : opts.throttleKey = some tkey := hkey
  rw [hthrottle, hkey] at hthrottleKey
  cases data with
  | none => cases hthrottleKey
  | some d =>
      simp only [spacing, hthrottle] at hspacing
      obtain ⟨gap, hgap, heq⟩ := Option.map_eq_some_iff.mp hspacing.symm
      cases heq
      exact congrArg (Option.map (min · i64Max)) hgap

theorem slots_spacing (hthrottle : q.throttle = some ⟨key, limit, .ok per⟩) {p : Time × Int}
    (h : p ∈ Store.slotsOf q.name tkey (q.handed pushes)) : p.2 = nativeSpacing limit per := by
  obtain ⟨⟨job, now⟩, hjob, hslot⟩ := List.mem_filterMap.mp h
  obtain ⟨spacing, hspacing, rfl⟩ := Option.map_eq_some_iff.mp hslot
  obtain ⟨⟨_, hkey⟩, hspacing⟩ := Option.ite_none_right_eq_some.mp hspacing
  obtain ⟨push, _, hpush⟩ := List.mem_filterMap.mp hjob
  cases hq : q.job push.data push.options with
  | error e =>
      rw [hq] at hpush
      cases hpush
  | ok job' =>
      rw [hq] at hpush
      cases hpush
      exact Option.some.inj (hspacing.symm.trans (job_spacing hthrottle hq hkey))

theorem startTimes_spaced (hthrottle : q.throttle = some ⟨key, limit, .ok per⟩) (hs : s.Fresh)
    (hfit : backend = .sqlite → q.Fits s tkey pushes) :
    Spaced (nativeSpacing limit per) (q.startTimes backend s tkey pushes) ∧
      ∀ t ∈ q.startTimes backend s tkey pushes, i64Min ≤ t ∧
      t + nativeSpacing limit per ≤ i64Max := by
  have hread := Store.read_slotsOf q.name tkey (q.handed pushes)
  obtain ⟨hchain, hclock, _⟩ := Slots.starts_spaced hread hfit
  have hgap : ∀ a ∈ Slots.starts backend (s.cursorAt q.name tkey)
    (Store.slotsOf q.name tkey (q.handed pushes)),
      max a.spacing 0 = nativeSpacing limit per := by
    intro a ha
    have hspacing : a.spacing = nativeSpacing limit per :=
      slots_spacing hthrottle (Slots.mem_starts ha)
    rw [hspacing, max_eq_left (nativeSpacing_nonneg limit per)]
  rw [startTimes, (Store.starts_eq backend hs.jobs q.name tkey (q.handed pushes)).1]
  constructor
  · rw [Spaced, List.isChain_map]
    refine hchain.imp_of_mem_imp (fun a b ha _ hab => ?_)
    rwa [hgap a ha] at hab
  · intro t ht
    obtain ⟨a, ha, rfl⟩ := List.mem_map.mp ht
    have hmax := Slots.starts_le hread hfit a ha
    rw [hgap a ha] at hmax
    exact ⟨(hread _ (Slots.mem_starts ha)).trans (hclock a ha), hmax⟩

end Queue

/-- No window of length `per` holds more than `limit` of the starts of a key, as long as the cursors
of SQLite stay in the range of an `i64`. -/
def HonoursRate (limit : ℚ) (per : Nat) : Prop :=
  ∀ (D : Type) (q : Queue D) (key : D → Except String String),
    q.throttle = some ⟨key, limit, .ok per⟩ →
    ∀ (backend : Backend) (s : Store), s.Fresh → ∀ (tkey : String) (pushes : List (Push D)),
      (backend = .sqlite → q.Fits s tkey pushes) → ∀ t : Time,
        ((inWindow t per (q.startTimes backend s tkey pushes)).length : ℚ) ≤ limit

namespace Queue

def notify (limit : ℚ) (per : Nat) : Queue Unit where
  name := "notify"
  concurrencyKey := none
  retries := none
  debounce := none
  throttle := some ⟨fun _ => .ok "u_42", limit, .ok per⟩
  maxPending := none
  schema := none
  stringify := fun _ => .ok (some .null)
  defaultRetries := 2

def plain (now : Int64) : Push Unit := ⟨some (), ⟨none, none, none⟩, now⟩

variable (limit : ℚ) (per n : Nat) (now : Int64)

theorem slotsOf_plain : Store.slotsOf "notify" "u_42"
    ((notify limit per).handed (List.replicate n (plain now))) =
    List.replicate n (now.toInt, nativeSpacing limit per) := by
  induction n with
  | zero => rfl
  | succ n ih =>
      rw [List.replicate_succ, List.replicate_succ, ← ih]
      rfl

theorem startTimes_plain : (notify limit per).startTimes .sqlite .empty "u_42"
    (List.replicate n (plain now)) =
    (Slots.starts .sqlite none (List.replicate n (now.toInt, nativeSpacing limit per))).map
      (·.availableAt) := by
  have hstarts := (Store.starts_eq .sqlite Store.Fresh.empty.jobs "notify" "u_42"
    ((notify limit per).handed (List.replicate n (plain now)))).1
  rw [slotsOf_plain] at hstarts
  exact congrArg (List.map (·.availableAt)) hstarts

theorem startTimes_burst
    (hmax : now.toInt + ((n + 1 : Nat) : Int) * nativeSpacing limit per ≤ i64Max) :
    (notify limit per).Fits .empty "u_42" (List.replicate (n + 1) (plain now)) ∧
      ((notify limit per).startTimes .sqlite .empty "u_42"
        (List.replicate (n + 1) (plain now))).length = n + 1 ∧
      ∀ t ∈ (notify limit per).startTimes .sqlite .empty "u_42"
        (List.replicate (n + 1) (plain now)),
        now.toInt ≤ t ∧ t ≤ now.toInt + n * nativeSpacing limit per := by
  have hpos := nativeSpacing_nonneg limit per
  have hnow := i64Min_le_toInt now
  obtain ⟨hfit, hbound⟩ :=
    Slots.starts_replicate_le (c := none) hpos hnow le_rfl le_rfl (n + 1) hmax
  have hread : Slots.Read (List.replicate (n + 1) (now.toInt, nativeSpacing limit per)) := by
    intro p hp
    rw [List.eq_of_mem_replicate hp]
    exact hnow
  have hfits : Backend.sqlite = .sqlite → _ := fun _ => hfit
  have hclock := (Slots.starts_spaced hread hfits).2.1
  rw [startTimes_plain]
  refine ⟨?_, ?_, fun t ht => ?_⟩
  · rw [Fits, show (notify limit per).name = "notify" from rfl, slotsOf_plain]
    exact hfit
  · rw [List.length_map, Slots.length_starts_sqlite, List.length_replicate]
  · obtain ⟨a, ha, rfl⟩ := List.mem_map.mp ht
    have hle := hbound a ha
    have hmem := List.eq_of_mem_replicate (Slots.mem_starts ha)
    rw [Nat.cast_succ, add_mul, one_mul, ← add_assoc] at hle
    refine ⟨?_, le_of_add_le_add_right hle⟩
    rw [← (Prod.mk.inj hmem).1]
    exact hclock a ha

end Queue

/-- A burst at the least of all times puts one start too many into a window. -/
theorem not_honoursRate {limit : ℚ} {per n : Nat} (hlimit : limit < (n + 1 : Nat))
    (hwide : (n : Int) * nativeSpacing limit per < per)
    (hroom : i64Min + ((n + 1 : Nat) : Int) * nativeSpacing limit per ≤ i64Max) :
    ¬ HonoursRate limit per := by
  intro h
  have hfirst : Int64.minValue.toInt = i64Min := rfl
  obtain ⟨hfit, hlen, hin⟩ := Queue.startTimes_burst limit per n Int64.minValue hroom
  have hall : inWindow i64Min (per : Int) _ =
      (Queue.notify limit per).startTimes .sqlite .empty "u_42" _ :=
    inWindow_eq_self (fun a ha => by
      obtain ⟨hmin, hmax⟩ := hin a ha
      exact ⟨hmin, lt_of_le_of_lt hmax (add_lt_add_right hwide _)⟩)
  have hburst := h Unit (Queue.notify limit per) _ rfl .sqlite .empty .empty "u_42"
    (List.replicate (n + 1) (Queue.plain Int64.minValue)) (fun _ => hfit) i64Min
  rw [hall, hlen] at hburst
  exact absurd hburst (not_le.mpr hlimit)

/-- A throttle honours its rate where its spacing, taken as often as the rate allows starts, fills
the window, or where no more starts than the rate allows lie in the range of an `i64` at all. -/
theorem throttle_rate_iff {limit : ℚ} {per : Nat} (hlimit : 1 ≤ limit) :
    HonoursRate limit per ↔
      (per : Int) ≤ ⌊limit⌋ * nativeSpacing limit per ∨ i64Max < i64Min +
        (⌊limit⌋ + 1) * nativeSpacing limit per := by
  obtain ⟨n, hn⟩ := Int.eq_ofNat_of_zero_le (Int.floor_nonneg.mpr (zero_le_one.trans hlimit))
  obtain ⟨hle, hlt⟩ := Int.floor_eq_iff.mp hn
  rw [Int.cast_natCast] at hle hlt
  have hpos := nativeSpacing_nonneg limit per
  rw [hn]
  constructor
  · intro h
    by_contra hnot
    obtain ⟨hwide, hroom⟩ := not_or.mp hnot
    exact not_honoursRate (by exact_mod_cast hlt) (not_le.mp hwide) (not_lt.mp hroom) h
  · intro hper D q key hthrottle backend s hs tkey pushes hfit t
    obtain ⟨hspaced, hrange⟩ := Queue.startTimes_spaced hthrottle hs hfit
    refine le_trans ?_ hle
    rw [Nat.cast_le]
    rcases hper with hper | hroom
    · apply hspaced.length_inWindow_le hpos
      rw [nsmul_eq_mul]
      exact hper
    · refine (List.length_filter_le _ _).trans (hspaced.length_le hpos hrange ?_)
      rw [nsmul_eq_mul, Nat.cast_succ]
      exact hroom

theorem throttleSpacing_mul {limit : Nat} (hlimit : 0 < limit) {k : Nat} (hk : k < 2 ^ 53) :
    throttleSpacing limit (limit * k) = max 1 (k : Int) := by
  have hone : max 1 (limit : ℚ) = limit := max_eq_right (by exact_mod_cast hlimit)
  have hne : (limit : ℚ) ≠ 0 := by exact_mod_cast hlimit.ne'
  have hdiv : ((limit * k : Nat) : ℚ) / limit = (k : ℚ) := by
    rw [Nat.cast_mul, mul_div_cancel_left₀ _ hne]
  have hround : mathRound (k : ℚ) = k := by
    rw [mathRound, ← Int.cast_natCast, Int.floor_intCast_add]
    norm_num
  rw [throttleSpacing, hone, hdiv, toDouble_natCast hk, hround]

theorem honoursRate_of_dvd {limit per : Nat} (hlimit : 0 < limit) (hdvd : limit ∣ per)
    (hper : per < 2 ^ 53) :
    HonoursRate limit per := by
  obtain ⟨k, rfl⟩ := hdvd
  have hk : k < 2 ^ 53 := lt_of_le_of_lt (Nat.le_mul_of_pos_left k hlimit) hper
  have hspacing : nativeSpacing limit (limit * k) = max 1 (k : Int) := by
    rw [nativeSpacing, throttleSpacing_mul hlimit hk, i64Max]
    omega
  refine (throttle_rate_iff (by exact_mod_cast hlimit)).mpr (.inl ?_)
  rw [hspacing, Int.floor_natCast, Nat.cast_mul]
  exact mul_le_mul_of_nonneg_left (le_max_right _ _) (Int.natCast_nonneg limit)

/-- Five per second are 200 ms apart. -/
theorem throttle_rate_five : HonoursRate 5 1000 :=
  (throttle_rate_iff (by norm_num)).mpr (.inl (by decide +kernel))

/-- Three per second are 333 ms apart, so that a window has room for a fourth one. -/
theorem three_a_second : (Queue.notify 3 1000).startTimes .sqlite .empty "u_42"
    (List.replicate 4 (Queue.plain 0)) =
    [0, 333, 666, 999] ∧ ¬ HonoursRate 3 1000 := by
  have htimes : (Queue.notify 3 1000).startTimes .sqlite .empty "u_42"
    (List.replicate 4 (Queue.plain 0)) = [0, 333, 666, 999] := by
    decide +kernel
  obtain ⟨hfit, _, _⟩ := Queue.startTimes_burst 3 1000 3 0 (by decide +kernel)
  refine ⟨htimes, fun h => ?_⟩
  have hwindow :=
    h Unit (Queue.notify 3 1000) _ rfl .sqlite .empty .empty "u_42"
      (List.replicate 4 (Queue.plain 0))
    (fun _ => hfit) 0
  have hfour : (inWindow 0 1000 [(0 : Int), 333, 666, 999]).length = 4 := by decide
  rw [htimes, Nat.cast_ofNat, hfour] at hwindow
  norm_num at hwindow

end ZenZip
