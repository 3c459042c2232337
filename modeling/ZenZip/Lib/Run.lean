namespace ZenZip.Lib

section Runs

variable {S L : Type} (step : S → L → Option S) (ok : S → L → Bool)

/-- The states reached from `s₀` by steps that all satisfy `ok` where they are taken. -/
inductive Run (s₀ : S) : S → Prop
  | refl : Run s₀ s₀
  | snoc {s s' : S} {l : L} (h : Run s₀ s) (hok : ok s l = true) (hs : step s l = some s') :
    Run s₀ s'

variable {step ok}

/-- An invariant may lean on facts already known of every state reached. -/
theorem Run.invariant {s₀ s : S} (h : Run step ok s₀ s) (I : S → Prop) (h₀ : I s₀)
    (hstep : ∀ s l s', Run step ok s₀ s → I s → ok s l = true → step s l = some s' → I s') :
    I s := by
  induction h with
  | refl => exact h₀
  | snoc h hok hs ih => exact hstep _ _ _ h ih hok hs

theorem Run.mono {ok' : S → L → Bool} (hmono : ∀ s l, ok s l = true → ok' s l = true) {s₀ s : S}
    (h : Run step ok s₀ s) : Run step ok' s₀ s := by
  induction h with
  | refl => exact .refl
  | snoc _ hok hs ih => exact ih.snoc (hmono _ _ hok) hs

theorem Run.trans {s₀ s s' : S} (h : Run step ok s₀ s) (h' : Run step ok s s') :
    Run step ok s₀ s' := by
  induction h' with
  | refl => exact h
  | snoc _ hok hs ih => exact ih.snoc hok hs

variable (step ok)

def replay : S → List L → Option S
  | s, [] => some s
  | s, l :: ls => if ok s l then (step s l).bind (fun s' => replay s' ls) else none

variable {step ok}

theorem Run.of_replay {s s' : S} {ls : List L} (h : replay step ok s ls = some s') :
    Run step ok s s' := by
  induction ls generalizing s with
  | nil =>
      cases h
      exact .refl
  | cons l ls ih =>
      simp only [replay] at h
      split at h
      · next hok =>
          obtain ⟨t, ht, hrest⟩ := Option.bind_eq_some_iff.mp h
          exact (Run.refl.snoc hok ht).trans (ih hrest)
      · cases h

variable (step ok)

theorem Run.exists_of_replay (s : S) (ls : List L) (p : S → Bool)
    (h : (replay step ok s ls).any p = true) : ∃ s', Run step ok s s' ∧ p s' = true := by
  cases hr : replay step ok s ls with
  | none => simp [hr] at h
  | some s' =>
      rw [hr] at h
      exact ⟨s', .of_replay hr, h⟩

theorem Run.exists_of_replay₂ (s : S) (ls ls' : List L) (p : S → S → Bool)
    (h : (replay step ok s ls).any (fun s' => (replay step ok s' ls').any (p s')) = true) :
    ∃ s' s'', Run step ok s s' ∧ Run step ok s' s'' ∧ p s' s'' = true := by
  cases hr : replay step ok s ls with
  | none => simp [hr] at h
  | some s' =>
      rw [hr] at h
      obtain ⟨s'', hr', hp⟩ := exists_of_replay step ok s' ls' (p s') h
      exact ⟨s', s'', .of_replay hr, hr', hp⟩

end Runs

end ZenZip.Lib
