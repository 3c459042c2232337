import ZenZip.Queue.Push

namespace ZenZip

open Lib

theorem Store.claims_at_start {s : Store} {id : JobId} {j : JobRow} {queue : String} {limit : Nat}
    {keyLimit : Option Nat}
    {fair : Bool} {now : Time} (hj : s.jobs.get? id = some j)
    (h : id ∈ s.claimIds queue limit keyLimit fair now) :
    j.availableAt ≤ now := by
  obtain ⟨i, hi, hid, _, _, hle⟩ := Store.claimIds_ready h
  have hget := Table.get?_key hi
  rw [hid, hj] at hget
  cases hget
  exact hle

namespace Queue

variable {D : Type} {q : Queue D} {data : Option D} {options : PushOptions} {opts : JsPushOptions}

/-- The delay of a job is the window of the debounce, else the delay that the caller wants. -/
theorem delayMs_of_pushOptions (h : q.pushOptions options data = .ok opts) {d : Nat}
    (hdelay : options.delay = some (.ok d)) :
    (q.debounce = none → opts.delayMs = some d) ∧
      ∀ deb, q.debounce = some deb → ∃ w, deb.window = .ok w ∧ opts.delayMs = some w := by
  have hms := (pushOptions_ok h).1
  rw [delay] at hms
  constructor
  · intro hnone
    rw [hnone, hdelay] at hms
    obtain ⟨w, hw, heq⟩ := Option.map_eq_some_iff.mp hms.symm
    cases heq
    exact hw
  · intro deb hdeb
    rw [hdeb] at hms
    obtain ⟨w, hw, heq⟩ := Option.map_eq_some_iff.mp hms.symm
    exact ⟨w, heq.symm, hw⟩

theorem throttleKey_of_pushOptions (h : q.pushOptions options data = .ok opts)
    (hnone : q.throttle = none ∨ data = none) :
    opts.throttleKey = none := by
  have hkey := (pushOptions_ok h).2.1
  have hkeyFor : keyFor (q.throttle.map (·.key)) data = none := by
    rcases hnone with hnone | hnone
    · rw [hnone]
      rfl
    · rw [hnone]
      cases q.throttle with
      | none | some thr => rfl
  rw [hkeyFor] at hkey
  exact Option.map_eq_none_iff.mp hkey.symm

theorem spacing_of_pushOptions (h : q.pushOptions options data = .ok opts)
    (hkey : opts.throttleKey ≠ none) :
    ∃ spacing, opts.throttleSpacingMs = some spacing := by
  obtain ⟨_, hthrottleKey, hspacing⟩ := pushOptions_ok h
  cases hthr : q.throttle with
  | none =>
      rw [hthr] at hthrottleKey
      exact absurd (Option.map_eq_none_iff.mp hthrottleKey.symm) hkey
  | some thr =>
      cases data with
      | none =>
          rw [hthr] at hthrottleKey
          exact absurd (Option.map_eq_none_iff.mp hthrottleKey.symm) hkey
      | some d =>
          simp only [spacing, hthr] at hspacing
          obtain ⟨gap, hgap, _⟩ := Option.map_eq_some_iff.mp hspacing.symm
          exact ⟨gap, hgap⟩

def Reaches (now : Time) (d : Nat) : Prop := (d : Int) ≤ i64Max ∧ now + d ≤ i64Max

structure Delayed (q : Queue D) (data : Option D) (opts : JsPushOptions) (d : Nat) (s : Store)
    (now : Time)
    (j : JobRow) : Prop where
  explicit : q.throttle = none ∨ data = none → q.debounce = none → Reaches now d →
    now + d ≤ j.availableAt
  window : q.throttle = none ∨ data = none → ∀ deb, q.debounce = some deb →
    ∃ w, deb.window = .ok w ∧ (Reaches now w → j.availableAt = now + w)
  clock : (opts.throttleKey = none → Reaches now (opts.delayMs.getD 0)) → now ≤ j.availableAt
  slot : ∀ tkey t, opts.throttleKey = some tkey → s.cursorAt q.name tkey = some t →
    t ≤ j.availableAt

theorem wrap_delay {now : Time} (hnow : i64Min ≤ now) {d : Nat} (h : Reaches now d) :
    wrap (now + max (min (d : Int) i64Max) 0) = now + d := by
  rw [min_eq_left h.1, max_eq_left (Int.natCast_nonneg d)]
  exact wrap_eq (hnow.trans (le_add_of_nonneg_right (Int.natCast_nonneg d))) h.2

theorem start_of_push (h : q.pushOptions options data = .ok opts) {s : Store} (hs : s.Fresh)
    {backend : Backend}
    {payload : Json} {now : Time} (hnow : i64Min ≤ now) {out : Store × JobId}
    (hout : backend.insertJob s (nativeJob q.name payload opts) now = some out) :
    ∃ j, out.1.jobs.get? out.2 = some j ∧
      (opts.throttleKey = none → Reaches now (opts.delayMs.getD 0) →
        j.availableAt = now + (opts.delayMs.getD 0 : Nat)) ∧
      ∀ tkey, opts.throttleKey = some tkey → j.availableAt = max
        ((s.cursorAt q.name tkey).getD now) now := by
  rw [Store.insertJob_eq backend s _ hnow] at hout
  cases hkey : opts.throttleKey with
  | none =>
      have hnative : (nativeJob q.name payload opts).throttleKey = none := hkey
      simp only [hnative] at hout
      obtain rfl := Option.some.inj hout
      refine ⟨_, Store.get?_insertAt_id s _ _ now _ hs.jobs, fun _ hfit => wrap_delay hnow hfit,
        fun tkey htkey => ?_⟩
      cases htkey
  | some tkey =>
      obtain ⟨spacing, hspacing⟩ :=
        spacing_of_pushOptions h (by rw [hkey]; exact Option.some_ne_none _)
      have hnative : (nativeJob q.name payload opts).throttleKey = some tkey := hkey
      have hgap : (nativeJob q.name payload opts).throttleSpacingMs = some (min spacing i64Max) :=
        congrArg (Option.map (min · i64Max)) hspacing
      simp only [hnative, hgap] at hout
      obtain ⟨next, _, rfl⟩ := Option.map_eq_some_iff.mp hout
      refine ⟨_, Store.get?_insertAt_id s _ _ now _ hs.jobs, fun hnone _ => ?_, fun k hk => ?_⟩
      · cases hnone
      · cases hk
        rfl

/-- Both stores honour a delay where neither a debounce nor a throttle has a say and its end is an
`i64`, put the window of a debounce in its place, and start no job before the push or the cursor of
its throttle. No claim takes the job before its start. -/
theorem delay_honoured (h : q.pushOptions options data = .ok opts) {d : Nat}
    (hdelay : options.delay = some (.ok d))
    {s : Store} (hs : s.Fresh) {backend : Backend} {payload : Json} (now : Int64)
    {out : Store × JobId}
    (hout : backend.insertJob s (nativeJob q.name payload opts) now.toInt = some out) :
    ∃ j, out.1.jobs.get? out.2 = some j ∧ Delayed q data opts d s now.toInt j ∧
      ∀ (s' : Store) (queue : String) (limit : Nat) (keyLimit : Option Nat) (fair : Bool)
      (t : Time),
        s'.jobs.get? out.2 = some j → t < j.availableAt →
        out.2 ∉ s'.claimIds queue limit keyLimit fair t := by
  have hnow := i64Min_le_toInt now
  obtain ⟨hexplicit, hwindow⟩ := delayMs_of_pushOptions h hdelay
  obtain ⟨j, hj, hlater, hslot⟩ := start_of_push h hs hnow hout
  refine ⟨j, hj, ⟨?_, ?_, ?_, ?_⟩, ?_⟩
  · intro hnone hdeb hfit
    have hms : opts.delayMs.getD 0 = d := by rw [hexplicit hdeb, Option.getD_some]
    rw [← hms] at hfit ⊢
    exact (hlater (throttleKey_of_pushOptions h hnone) hfit).ge
  · intro hnone deb hdeb
    obtain ⟨w, hw, hms⟩ := hwindow deb hdeb
    have hms : opts.delayMs.getD 0 = w := by rw [hms, Option.getD_some]
    rw [← hms] at hw
    exact ⟨_, hw, hlater (throttleKey_of_pushOptions h hnone)⟩
  · intro hfit
    cases hkey : opts.throttleKey with
    | none =>
        rw [hlater hkey (hfit hkey)]
        exact le_add_of_nonneg_right (Int.natCast_nonneg _)
    | some tkey =>
        rw [hslot tkey hkey]
        exact le_max_right _ _
  · intro tkey t hkey ht
    rw [hslot tkey hkey, ht, Option.getD_some]
    exact le_max_left _ _
  · intro s' queue limit keyLimit fair t hj' hlt hclaim
    exact absurd (Store.claims_at_start hj' hclaim) (not_le.mpr hlt)

section Sample

def mail (debounce : Option (DebounceOptions Unit)) (throttle : Option (ThrottleOptions Unit)) :
    Queue Unit where
  name := "mail"
  concurrencyKey := none
  retries := none
  debounce := debounce
  throttle := throttle
  maxPending := none
  schema := none
  stringify := fun _ => .ok (some .null)
  defaultRetries := 2

def fiveMinutes : PushOptions := ⟨some (.ok 300000), none, none⟩

theorem delay_honoured_mail : ∃ out j, Backend.postgres.insertJob .empty
    (nativeJob "mail" .null ⟨some 300000, none, 3, none, none, none, none⟩) 10 = some out ∧
      out.1.jobs.get? out.2 = some j ∧ 10 + 300000 ≤ j.availableAt := by
  have hopts : (mail none none).pushOptions fiveMinutes (some ()) =
    .ok ⟨some 300000, none, 3, none, none, none, none⟩ := rfl
  have hout : Backend.postgres.insertJob .empty
      (nativeJob (mail none none).name .null ⟨some 300000, none, 3, none, none, none, none⟩)
        (10 : Int64).toInt = some _ := rfl
  obtain ⟨j, hj, hdelayed, _⟩ := delay_honoured hopts rfl Store.Fresh.empty 10 hout
  exact ⟨_, j, rfl, hj, hdelayed.explicit (.inl rfl) rfl ⟨by decide, by decide⟩⟩

def firstStart (q : Queue Unit) (options : PushOptions) (backend : Backend) : Option Time := do
  let job ← (q.job (some ()) options).toOption
  let out ← backend.insertJob .empty job 10
  let row ← out.1.jobs.get? out.2
  return row.availableAt

/-- A shorter window, or a free slot, starts the job earlier. -/
theorem delay_dropped :
    firstStart (mail (some ⟨fun _ => .ok "k", .ok 5000⟩) none) fiveMinutes .postgres = some 5010 ∧
    firstStart (mail none (some ⟨fun _ => .ok "k", 5, .ok 1000⟩)) fiveMinutes .postgres = some 10 ∧
    ¬ (10 + 300000 : Int) ≤ 5010 ∧ ¬ (10 + 300000 : Int) ≤ 10 := by
  decide +kernel

/-- A delay beyond the largest `i64` is none. -/
example : firstStart (mail none none) ⟨some (.ok (10 ^ 19)), none, none⟩ .sqlite = some
    (i64Min + 9) := by decide +kernel

end Sample

end Queue

end ZenZip
