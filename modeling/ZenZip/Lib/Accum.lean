namespace ZenZip.Lib

variable {S A B : Type}

/-- A loop that threads a state and collects one result for each element. -/
def mapAccum (f : S → A → S × B) : S → List A → S × List B
  | s, [] => (s, [])
  | s, a :: as =>
    let (s', b) := f s a
    let (s'', bs) := mapAccum f s' as
    (s'', b :: bs)

@[simp] theorem mapAccum_nil (f : S → A → S × B) (s : S) : mapAccum f s [] = (s, []) := rfl

@[simp] theorem mapAccum_cons (f : S → A → S × B) (s : S) (a : A) (as : List A) :
    mapAccum f s (a :: as) =
      ((mapAccum f (f s a).1 as).1, (f s a).2 :: (mapAccum f (f s a).1 as).2) := rfl

theorem mapAccum_preserves (f : S → A → S × B) (I : S → Prop) {as : List A}
    (hf : ∀ s a, a ∈ as → I s → I (f s a).1) {s : S} (h : I s) : I (mapAccum f s as).1 := by
  induction as generalizing s with
  | nil => exact h
  | cons a as ih =>
      rw [mapAccum_cons]
      exact ih (fun s b hb => hf s b (List.mem_cons_of_mem _ hb)) (hf s a List.mem_cons_self h)

/-- What a turn brings about for its own element, and no later turn undoes,
holds of every element when the loop ends. -/
theorem mapAccum_each (f : S → A → S × B) (I : S → Prop) (E : A → S → Prop) {as : List A}
    (hI : ∀ s a, a ∈ as → I s → I (f s a).1) (hE : ∀ s a, a ∈ as → I s → E a (f s a).1)
    (hkeep : ∀ s a b, I s → E a s → E a (f s b).1) {s : S} (h : I s) :
    ∀ a ∈ as, E a (mapAccum f s as).1 := by
  induction as generalizing s with
  | nil =>
      intro a ha
      cases ha
  | cons b as ih =>
      have hb : I (f s b).1 := hI s b List.mem_cons_self h
      have hI' : ∀ s a, a ∈ as → I s → I (f s a).1 :=
        fun s a ha => hI s a (List.mem_cons_of_mem _ ha)
      intro a ha
      rw [mapAccum_cons]
      cases ha with
      | head =>
          have hpair : I (mapAccum f (f s b).1 as).1 ∧ E b (mapAccum f (f s b).1 as).1 :=
            mapAccum_preserves f (fun s => I s ∧ E b s)
              (fun s a ha h => ⟨hI' s a ha h.1, hkeep s b a h.1 h.2⟩)
              ⟨hb, hE s b List.mem_cons_self h⟩
          exact hpair.2
      | tail _ ha => exact ih hI' (fun s a ha => hE s a (List.mem_cons_of_mem _ ha)) hb a ha

theorem mapAccum_map {C : Type} {f : S → A → S × B} {g : B → C} {h : A → C} {as : List A}
    (hf : ∀ s a, a ∈ as → g (f s a).2 = h a) (s : S) : (mapAccum f s as).2.map g = as.map h := by
  induction as generalizing s with
  | nil => rfl
  | cons a as ih =>
      rw [mapAccum_cons, List.map_cons, List.map_cons, hf s a List.mem_cons_self,
        ih (fun s b hb => hf s b (List.mem_cons_of_mem _ hb))]

theorem mapM_map_eq_some {α β : Type} {f : β → Option α} {g : α → β} (h : ∀ a, f (g a) = some a)
    (l : List α) :
    (l.map g).mapM f = some l := by
  induction l with
  | nil => rfl
  | cons a l ih => simp [h, ih]

end ZenZip.Lib
