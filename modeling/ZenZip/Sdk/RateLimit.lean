import ZenZip.Lib.FixedWindow
import ZenZip.Lib.JsonLines
import Mathlib.Algebra.Order.Group.Int
import Mathlib.Logic.Function.Basic

namespace ZenZip

open Lib

/-- What `clientIp` reads of a request. -/
structure Peer where
  forwardedFor : Option (List Char)
  remoteAddress : Option (List Char)

def clientIp (p : Peer) : List Char :=
  match p.forwardedFor.filter (· ≠ []) with
  | some fwd => JsonText.trim ((fwd.splitOn ',').headD [])
  | none => p.remoteAddress.getD "unknown".toList

structure RateLimitOptions (R : Type) where
  max : Int
  windowMs : Int := 60000
  key : Option (R → List Char) := none
  message : Option String := none

abbrev RateBuckets := List Char → Option (FixedWindow.Bucket Int)

/-- A refusal: 429, when to come back in seconds, and why. -/
structure TooMany where
  retryAfter : Int
  error : String

/-- The headers of every answer; without a refusal, `next` is called. -/
structure RateReply where
  limit : Int
  remaining : Int
  reset : Int
  refused : Option TooMany

/-- `Math.ceil(t / 1000)`. -/
def ceilSeconds (t : Int) : Int := (t + 999) / 1000

namespace RateLimitOptions

variable {R : Type} (o : RateLimitOptions R) (peer : R → Peer)

def keyOf (r : R) : List Char := (o.key.getD (fun r => clientIp (peer r))) r

def rateLimit (buckets : RateBuckets) (r : R) (now : Int) : RateBuckets × RateReply :=
  let b := FixedWindow.hit o.windowMs (buckets (o.keyOf peer r)) now
  (Function.update buckets (o.keyOf peer r) (some b),
    { limit := o.max
      remaining := Max.max 0 (o.max - b.count)
      reset := ceilSeconds b.resetAt
      refused := if (b.count : Int) > o.max then some
        ⟨ceilSeconds (b.resetAt - now), o.message.getD "too many requests"⟩ else none })

def passed : RateBuckets → List (R × Int) → List (R × Int)
  | _, [] => []
  | buckets, r :: rs =>
      match (o.rateLimit peer buckets r.1 r.2).2.refused with
      | none => r :: passed (o.rateLimit peer buckets r.1 r.2).1 rs
      | some _ => passed (o.rateLimit peer buckets r.1 r.2).1 rs

def ofKey (k : List Char) (rs : List (R × Int)) : List (R × Int) :=
  rs.filter (fun r => o.keyOf peer r.1 = k)

variable {o peer} {buckets : RateBuckets} {k : List Char} {r : R × Int} {rs : List (R × Int)}
  {now t : Int} {n : Nat}

theorem ofKey_cons : o.ofKey peer k (r :: rs) = if o.keyOf peer r.1 = k then r :: o.ofKey peer k rs
    else o.ofKey peer k rs := by
  rw [ofKey, List.filter_cons]
  simp only [decide_eq_true_eq]
  rfl

theorem count_hit_pos (w : Int) (b : Option (FixedWindow.Bucket Int)) (now : Int) :
    1 ≤ (FixedWindow.hit w b now).count := by
  obtain ⟨c, r, -, -, h⟩ | ⟨-, h⟩ := FixedWindow.hit_cases w b now
  · rw [h]
    exact Nat.le_add_left 1 c
  · rw [h]

theorem rateLimit_cases (o : RateLimitOptions R) (peer : R → Peer) (buckets : RateBuckets) (r : R)
    (now : Int) :
    (∀ k, (o.rateLimit peer buckets r now).1 k =
      if o.keyOf peer r = k then some (FixedWindow.hit o.windowMs (buckets k) now) else buckets k) ∧
    ((o.rateLimit peer buckets r now).2.refused = none ↔
      (FixedWindow.hit o.windowMs (buckets (o.keyOf peer r)) now).count ≤ o.max.toNat) := by
  constructor
  · intro k
    by_cases hk : o.keyOf peer r = k
    · rw [if_pos hk, ← hk]
      exact Function.update_self _ _ _
    · rw [if_neg hk]
      exact Function.update_of_ne (Ne.symm hk) _ _
  · have hpos := count_hit_pos o.windowMs (buckets (o.keyOf peer r)) now
    simp only [rateLimit, ite_eq_right_iff, reduceCtorEq, imp_false]
    omega

theorem passed_sublist (buckets : RateBuckets) (rs : List (R × Int)) :
    (o.passed peer buckets rs).Sublist rs := by
  induction rs generalizing buckets with
  | nil => exact .slnil
  | cons r rs ih =>
      rw [passed]
      split
      · exact (ih _).cons_cons r
      · exact (ih _).cons r

theorem ofKey_passed (buckets : RateBuckets) (rs : List (R × Int)) :
    (o.ofKey peer k (o.passed peer buckets rs)).map Prod.snd =
      FixedWindow.admitted o.windowMs o.max.toNat (buckets k)
        ((o.ofKey peer k rs).map Prod.snd) := by
  induction rs generalizing buckets with
  | nil => rfl
  | cons r rs ih =>
      obtain ⟨hbuckets, hrefused⟩ := rateLimit_cases o peer buckets r.1 r.2
      have hrest := ih (o.rateLimit peer buckets r.1 r.2).1
      rw [hbuckets k] at hrest
      rw [passed, ofKey_cons]
      by_cases hk : o.keyOf peer r.1 = k
      · rw [if_pos hk] at hrest
        rw [if_pos hk, List.map_cons, FixedWindow.admitted]
        rw [hk] at hrefused
        by_cases hc : (FixedWindow.hit o.windowMs (buckets k) r.2).count ≤ o.max.toNat
        · rw [hrefused.mpr hc, if_pos hc]
          dsimp only
          rw [ofKey_cons, if_pos hk, List.map_cons, hrest]
        · obtain ⟨x, hx⟩ := Option.ne_none_iff_exists'.mp (fun h => hc (hrefused.mp h))
          rw [hx, if_neg hc]
          exact hrest
      · rw [if_neg hk] at hrest
        rw [if_neg hk]
        split
        · rw [ofKey_cons, if_neg hk, hrest]
        · exact hrest

theorem sorted_ofKey (hrs : rs.Pairwise (fun r r' => r.2 ≤ r'.2)) :
    ((o.ofKey peer k rs).map Prod.snd).Pairwise (· ≤ ·) :=
  List.pairwise_map.mpr (hrs.filter _)

/-- In a stretch of `n` windows, wherever it starts, at most `n + 1` times the maximum of a key's
requests get through. -/
theorem requests_bounded (hrs : rs.Pairwise (fun r r' => r.2 ≤ r'.2)) (hw : 0 ≤ o.windowMs) :
    ((o.passed peer (fun _ => none) rs).filter
      (fun r => o.keyOf peer r.1 = k ∧ t ≤ r.2 ∧ r.2 < t + n * o.windowMs)).length ≤
        (n + 1) * o.max.toNat := by
  have hbound :
    (inWindow t (n • o.windowMs)
      (FixedWindow.admitted o.windowMs o.max.toNat none
        ((o.ofKey peer k rs).map Prod.snd))).length ≤
      (n + 1) * o.max.toNat := FixedWindow.length_inWindow_admitted_le (sorted_ofKey hrs) hw
  rw [← ofKey_passed (fun _ => none), inWindow, List.filter_map, List.length_map, ofKey,
    List.filter_filter] at hbound
  apply Nat.le_trans _ hbound
  apply List.Sublist.length_le
  apply List.monotone_filter_right
  intro r hr
  simpa [and_comm, and_assoc] using hr

theorem requests_bounded_burst :
    ((passed ⟨2, 1000, some id, none⟩ (fun _ => ⟨none, none⟩) (fun _ => none)
      [(['a'], 900), (['a'], 950), (['b'], 960), (['a'], 1000), (['a'], 1900),
      (['a'], 1950)]).filter
    (fun r => keyOf ⟨2, 1000, some id, none⟩ (fun _ => ⟨none, none⟩) r.1 = ['a'] ∧
    (950 : Int) ≤ r.2 ∧ r.2 < 950 + ((1 : Nat) : Int) * 1000)).length ≤
      (1 + 1) * 2 := by
  have hrs : [(['a'], (900 : Int)), (['a'], 950), (['b'], 960), (['a'], 1000), (['a'], 1900),
    (['a'], 1950)].Pairwise
      (fun r r' => r.2 ≤ r'.2) := by decide
  exact requests_bounded hrs (by decide)

/-- Who never sends more than the maximum in any window is never refused, whatever the others do. -/
theorem compliant_served (hrs : rs.Pairwise (fun r r' => r.2 ≤ r'.2)) (hw : 0 < o.windowMs)
    (h : ∀ t, ((o.ofKey peer k rs).filter (fun r => t ≤ r.2 ∧ r.2 < t + o.windowMs)).length ≤
      o.max.toNat) :
    o.ofKey peer k (o.passed peer (fun _ => none) rs) = o.ofKey peer k rs := by
  have hall : FixedWindow.admitted o.windowMs o.max.toNat none ((o.ofKey peer k rs).map Prod.snd) =
    (o.ofKey peer k rs).map Prod.snd := by
    apply FixedWindow.admitted_eq_self hw (sorted_ofKey hrs)
    intro t
    rw [inWindow, List.filter_map, List.length_map]
    exact h t
  rw [← ofKey_passed (fun _ => none)] at hall
  have hlen : (o.ofKey peer k (o.passed peer (fun _ => none) rs)).length =
    (o.ofKey peer k rs).length := by
    simpa using congrArg List.length hall
  exact ((passed_sublist _ rs).filter _).eq_of_length hlen

theorem compliant_served_crowd : ofKey ⟨1, 10, some id, none⟩ (fun _ => ⟨none, none⟩) ['a']
      (passed ⟨1, 10, some id, none⟩ (fun _ => ⟨none, none⟩)
        (fun _ => none) [(['a'], 0), (['b'], 1), (['b'], 2), (['a'], 11)]) =
    ofKey ⟨1, 10, some id, none⟩ (fun _ => ⟨none, none⟩) ['a']
      [(['a'], 0), (['b'], 1), (['b'], 2), (['a'], 11)] := by
  apply compliant_served (by decide) (by decide)
  intro t
  have ha : ofKey ⟨1, 10, some id, none⟩
    (fun _ => ⟨none, none⟩) ['a'] [(['a'], 0), (['b'], 1), (['b'], 2), (['a'], 11)] =
      [(['a'], 0), (['a'], 11)] := by decide
  rw [ha]
  by_cases h0 : t ≤ 0
  · have h11 : ¬ (t ≤ 11 ∧ 11 < t + 10) := by omega
    simp [List.filter_cons, h11]
    split <;> simp
  · simp [List.filter_cons, h0]
    split <;> simp

end RateLimitOptions

end ZenZip
