import ZenZip.Lib.Spacing

namespace ZenZip.Lib.FixedWindow

/-- The count of the hits since a window was opened, and the time at which it ends. -/
structure Bucket (α : Type) where
  count : Nat
  resetAt : α

section Admitted

variable {α : Type} [AddCommGroup α] [LinearOrder α] (w : α) (max : Nat)

def hit (b : Option (Bucket α)) (now : α) : Bucket α :=
  match b with
  | none => ⟨1, now + w⟩
  | some b => if now < b.resetAt then ⟨b.count + 1, b.resetAt⟩ else ⟨1, now + w⟩

def admitted : Option (Bucket α) → List α → List α
  | _, [] => []
  | b, t :: ts =>
      if (hit w b t).count ≤ max then t :: admitted (some (hit w b t)) ts
        else admitted (some (hit w b t)) ts

variable {w max} {b : Option (Bucket α)} {ts : List α} {t u r now : α} {c k n : Nat}

theorem hit_cases (w : α) (b : Option (Bucket α)) (now : α) :
    (∃ c r, b = some ⟨c, r⟩ ∧ now < r ∧ hit w b now = ⟨c + 1, r⟩) ∨
    ((∀ c r, b = some ⟨c, r⟩ → r ≤ now) ∧ hit w b now = ⟨1, now + w⟩) := by
  cases b with
  | none => exact .inr ⟨by simp, rfl⟩
  | some b =>
      obtain ⟨c, r⟩ := b
      by_cases h : now < r
      · exact .inl ⟨c, r, rfl, h, if_pos h⟩
      · refine .inr ⟨?_, if_neg h⟩
        intro c' r' he
        cases he
        exact not_lt.mp h

theorem admitted_sublist : (admitted w max b ts).Sublist ts := by
  induction ts generalizing b with
  | nil => exact .slnil
  | cons t ts ih =>
      rw [admitted]
      split
      · exact ih.cons_cons t
      · exact ih.cons t

theorem filter_admitted_cons (p : α → Bool) : ((admitted w max b (t :: ts)).filter p).length =
    (if (hit w b t).count ≤ max ∧ p t = true then 1 else 0) +
      ((admitted w max (some (hit w b t)) ts).filter p).length := by
  rw [admitted]
  by_cases hc : (hit w b t).count ≤ max
  · by_cases hp : p t = true
    · rw [if_pos hc, if_pos ⟨hc, hp⟩, List.filter_cons_of_pos hp, List.length_cons, Nat.add_comm]
    · rw [if_pos hc, if_neg (fun h => hp h.2), List.filter_cons_of_neg hp, Nat.zero_add]
  · rw [if_neg hc, if_neg (fun h => hc h.1), Nat.zero_add]

theorem length_inWindow_concat {past : List α} (h : t ≤ now) (h' : now < t + w) :
    (inWindow t w (past ++ [now])).length = (inWindow t w past).length + 1 := by
  have hnow : inWindow t w [now] = [now] := by
    apply inWindow_eq_self
    intro x hx
    rw [List.mem_singleton.mp hx]
    exact ⟨h, h'⟩
  rw [inWindow, List.filter_append, List.length_append, ← inWindow, ← inWindow, hnow,
    List.length_singleton]

variable [IsOrderedAddMonoid α]

theorem length_before_le (hts : ts.Pairwise (· ≤ ·)) (hu : u ≤ r + k • w) :
    ((admitted w max (some ⟨c, r⟩) ts).filter (· < u)).length ≤ (max - c) + k * max := by
  induction ts generalizing c r k with
  | nil => exact Nat.zero_le _
  | cons now ts ih =>
      obtain ⟨hnow, hrest⟩ := List.pairwise_cons.mp hts
      by_cases hlt : now < u
      · rw [filter_admitted_cons]
        obtain ⟨c', r', he, -, hhit⟩ | ⟨hopen, hhit⟩ := hit_cases w (some ⟨c, r⟩) now
        · cases he
          have hle := ih hrest hu (c := c + 1)
          rw [hhit]
          dsimp only
          split <;> omega
        · have hr : r ≤ now := hopen c r rfl
          obtain ⟨j, rfl⟩ : ∃ j, k = j + 1 := by
            cases k with
            | zero =>
                rw [zero_nsmul, add_zero] at hu
                exact absurd (hlt.trans_le hu) (not_lt.mpr hr)
            | succ j => exact ⟨j, rfl⟩
          have hu' : u ≤ (now + w) + j • w := by
            calc u ≤ r + (j + 1) • w := hu
              _ = (r + w) + j • w := by rw [succ_nsmul', add_assoc]
              _ ≤ (now + w) + j • w := add_le_add_left (add_le_add_left hr w) _
          have hle := ih hrest hu' (c := 1)
          rw [hhit]
          dsimp only
          have hmul : (j + 1) * max = j * max + max := Nat.succ_mul j max
          split <;> omega
      · have hnone : (admitted w max (some ⟨c, r⟩) (now :: ts)).filter (· < u) = [] := by
          apply List.filter_eq_nil_iff.mpr
          intro x hx
          have hx' : now ≤ x := by
            rcases List.mem_cons.mp (admitted_sublist.subset hx) with rfl | hmem
            · exact le_refl _
            · exact hnow x hmem
          simpa using (not_lt.mp hlt).trans hx'
        rw [hnone]
        exact Nat.zero_le _

/-- However the windows lie, `n` times their width admits at most `n + 1` times the maximum. -/
theorem length_inWindow_admitted_le (hts : ts.Pairwise (· ≤ ·)) (hw : 0 ≤ w) :
    (inWindow t (n • w) (admitted w max b ts)).length ≤ (n + 1) * max := by
  induction ts generalizing b with
  | nil => exact Nat.zero_le _
  | cons now ts ih =>
      obtain ⟨hnow, hrest⟩ := List.pairwise_cons.mp hts
      by_cases hlt : now < t
      · rw [inWindow, filter_admitted_cons,
          if_neg (fun h => not_le.mpr hlt (of_decide_eq_true h.2).1), Nat.zero_add]
        exact ih hrest
      · have hle : t ≤ now := not_lt.mp hlt
        have hsub : (inWindow t (n • w) (admitted w max b (now :: ts))).length ≤
            ((admitted w max b (now :: ts)).filter (· < t + n • w)).length := by
          apply List.Sublist.length_le
          apply List.monotone_filter_right
          intro x hx
          exact decide_eq_true (of_decide_eq_true hx).2
        have hmul : (n + 1) * max = n * max + max := Nat.succ_mul n max
        apply hsub.trans
        obtain ⟨c, r, rfl, hin, -⟩ | ⟨-, hhit⟩ := hit_cases w b now
        · have hu : t + n • w ≤ r + n • w := add_le_add_left (hle.trans hin.le) _
          have hbound : _ ≤ (max - c) + n * max := length_before_le hts hu
          omega
        · have hu : t + n • w ≤ (now + w) + n • w :=
            add_le_add_left (hle.trans (le_add_of_nonneg_right hw)) _
          have hbound : _ ≤ (max - 1) + n * max := length_before_le hrest hu
          rw [filter_admitted_cons, hhit]
          dsimp only
          split <;> omega

structure Counts (w : α) (past : List α) (b : Bucket α) : Prop where
  count : b.count ≤ (inWindow (b.resetAt - w) w past).length
  opened : ∀ x ∈ past.getLast?, b.resetAt - w ≤ x

theorem Counts.hit {past : List α} (hw : 0 < w) (hb : ∀ b' ∈ b, Counts w past b')
    (hlast : ∀ x ∈ past.getLast?, x ≤ now)
    (hne : ∀ b' ∈ b, past ≠ []) : Counts w (past ++ [now]) (FixedWindow.hit w b now) := by
  obtain ⟨c, r, rfl, hin, hhit⟩ | ⟨-, hhit⟩ := hit_cases w b now
  · obtain ⟨hcount, hopened⟩ := hb _ rfl
    have hle : r - w ≤ now := by
      have hx := List.getLast?_eq_some_getLast (hne _ rfl)
      exact (hopened _ hx).trans (hlast _ hx)
    have hend : now < r - w + w := by rwa [sub_add_cancel]
    rw [hhit]
    refine ⟨?_, ?_⟩
    · rw [length_inWindow_concat hle hend]
      exact Nat.succ_le_succ hcount
    · simpa using hle
  · rw [hhit]
    refine ⟨?_, ?_⟩
    · have hend : now < now + w - w + w := by
        rw [add_sub_cancel_right]
        exact lt_add_of_pos_right now hw
      rw [length_inWindow_concat (by rw [add_sub_cancel_right]) hend]
      exact Nat.le_add_left 1 _
    · simp

theorem admitted_eq_self_from (past : List α) (hw : 0 < w) (hts : (past ++ ts).Pairwise (· ≤ ·))
    (hb : ∀ b' ∈ b, Counts w past b')
    (hne : ∀ b' ∈ b, past ≠ []) (h : ∀ t, (inWindow t w (past ++ ts)).length ≤ max) :
    admitted w max b ts = ts := by
  induction ts generalizing b past with
  | nil => rfl
  | cons now ts ih =>
      have hlast : ∀ x ∈ past.getLast?, x ≤ now := fun x hx =>
        (List.pairwise_append.mp hts).2.2 x (List.mem_of_getLast? hx) now List.mem_cons_self
      have hcounts := Counts.hit hw hb hlast hne
      have hassoc : past ++ now :: ts = (past ++ [now]) ++ ts := by
        rw [List.append_assoc, List.singleton_append]
      rw [hassoc] at hts h
      have hmax : (hit w b now).count ≤ max := by
        have hsub : (inWindow ((hit w b now).resetAt - w) w (past ++ [now])).length ≤
            (inWindow ((hit w b now).resetAt - w) w (past ++ [now] ++ ts)).length :=
          ((List.sublist_append_left _ ts).filter _).length_le
        exact hcounts.count.trans (hsub.trans (h _))
      have hrest :=
        ih (past ++ [now]) hts (fun b' hb' => Option.mem_some.mp hb' ▸ hcounts)
          (fun _ _ => by simp) h
      rw [admitted, if_pos hmax, hrest]

theorem admitted_eq_self (hw : 0 < w) (hts : ts.Pairwise (· ≤ ·))
    (h : ∀ t, (inWindow t w ts).length ≤ max) :
    admitted w max none ts = ts :=
  admitted_eq_self_from [] hw hts (by simp) (by simp) h

end Admitted

end ZenZip.Lib.FixedWindow
