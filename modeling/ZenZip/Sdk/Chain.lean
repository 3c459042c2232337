import ZenZip.Sdk.Router

namespace ZenZip

open Lib

variable {B : Type}

/-- What a request does to the app: it runs a layer, the handler of its route, or the
last resort for an error. -/
inductive Chain.Action (B : Type)
  | handle (layer : MiddlewareLayer B)
  | dispatch
  | finalError

/-- `runMiddleware` between two calls of `next`: what its cursors have left, its flags,
and what ran so far. -/
structure Chain (B : Type) where
  rest : List (MiddlewareLayer B)
  errors : List (MiddlewareLayer B)
  dispatched : Bool
  erroring : Bool
  trace : List (Chain.Action B)

/-- A layer or the handler calls `next()`, or fails by `next(err)`, a throw or a rejection. -/
inductive Chain.Signal
  | next
  | fail

namespace Chain

def start (layers : List (MiddlewareLayer B)) : Chain B := ⟨layers, layers, false, false, []⟩

def handleError (path : List Char) (c : Chain B) : Chain B :=
  match c.errors.dropWhile (fun l => !l.isError || !l.accepts path) with
  | [] => { c with errors := [], erroring := true, trace := c.trace ++ [.finalError] }
  | l :: ls => { c with errors := ls, erroring := true, trace := c.trace ++ [.handle l] }

def next (path : List Char) (c : Chain B) : Chain B :=
  if c.erroring then c
  else
    match c.rest.dropWhile (fun l => l.isError || !l.accepts path) with
    | l :: ls => { c with rest := ls, trace := c.trace ++ [.handle l] }
    | [] =>
        if c.dispatched then { c with rest := [] }
        else { c with rest := [], dispatched := true, trace := c.trace ++ [.dispatch] }

def signal (path : List Char) (c : Chain B) : Signal → Chain B
  | .next => c.next path
  | .fail => c.handleError path

/-- The states of `runMiddleware`, whoever signals whenever and however often. -/
def Reached (layers : List (MiddlewareLayer B)) (path : List Char) : Chain B → Prop :=
  Run (fun c s => some (c.signal path s)) (fun _ _ => true) ((start layers).next path)

/-- The layers passed by ran, and all of them before the handler. -/
structure Kept (layers : List (MiddlewareLayer B)) (path : List Char) (c : Chain B) : Prop where
  passed : ∃ done, layers = done ++ c.rest ∧ ∀ l ∈ done, l.isError = false → l.accepts path = true →
    .handle l ∈ c.trace
  ran : ∀ l, .handle l ∈ c.trace → l.accepts path = true
  before : ∀ front back, c.trace = front ++ .dispatch :: back →
    ∀ l ∈ layers, l.isError = false → l.accepts path = true → .handle l ∈ front

variable {layers : List (MiddlewareLayer B)} {path : List Char} {c : Chain B}

theorem of_dispatch_concat {trace front back : List (Action B)} {a : Action B}
    (h : trace ++ [a] = front ++ .dispatch :: back) :
    (a = .dispatch ∧ trace = front) ∨ ∃ back', trace = front ++ .dispatch :: back' := by
  rcases List.eq_nil_or_concat' back with rfl | ⟨back', b, rfl⟩
  · obtain ⟨htrace, ha⟩ := List.append_inj' h rfl
    cases ha
    exact .inl ⟨rfl, htrace⟩
  · rw [← List.cons_append, ← List.append_assoc] at h
    exact .inr ⟨back', (List.append_inj' h rfl).1⟩

theorem accepts_of_dropWhile {p : MiddlewareLayer B → Bool} {ls rest : List (MiddlewareLayer B)}
    {l : MiddlewareLayer B}
    (h : ls.dropWhile p = l :: rest) : p l = false := by
  have hhead := List.head?_dropWhile_not p ls
  rw [h] at hhead
  simpa using hhead

theorem Kept.start : Kept layers path (start layers) where
  passed := ⟨[], rfl, by
    intro l hl
    cases hl⟩
  ran := by
    intro l hl
    cases hl
  before := by
    intro front back h
    cases front <;> cases h

theorem Kept.before_concat (h : Kept layers path c) {a : Action B} (ha : a ≠ .dispatch)
    {front back : List (Action B)}
    (he : c.trace ++ [a] = front ++ .dispatch :: back) :
    ∀ l ∈ layers, l.isError = false → l.accepts path = true → .handle l ∈ front := by
  rcases of_dispatch_concat he with ⟨hd, _⟩ | ⟨back', he⟩
  · exact absurd hd ha
  · exact h.before front back' he

theorem Kept.ran_concat (h : Kept layers path c) {a : Action B}
    (ha : ∀ l, a = .handle l → l.accepts path = true) :
    ∀ l, .handle l ∈ c.trace ++ [a] → l.accepts path = true := by
  intro l hl
  rcases List.mem_append.mp hl with hl | hl
  · exact h.ran l hl
  · exact ha l (List.mem_singleton.mp hl).symm

theorem Kept.handleError (h : Kept layers path c) : Kept layers path (c.handleError path) := by
  obtain ⟨done, hdone, hran⟩ := h.passed
  have hpassed (a : Action B) : ∀ l ∈ done, l.isError = false → l.accepts path = true →
    .handle l ∈ c.trace ++ [a] := by
    intro l hl he ha
    exact List.mem_append_left _ (hran l hl he ha)
  unfold Chain.handleError
  split
  · constructor
    · exact ⟨done, hdone, hpassed .finalError⟩
    · apply h.ran_concat
      intro l hl
      cases hl
    · intro front back he
      exact h.before_concat (by simp) he
  · next e es hdrop =>
      have hacc := accepts_of_dropWhile hdrop
      rw [Bool.or_eq_false_iff, Bool.not_eq_false', Bool.not_eq_false'] at hacc
      constructor
      · exact ⟨done, hdone, hpassed (.handle e)⟩
      · apply h.ran_concat
        intro l hl
        cases hl
        exact hacc.2
      · intro front back he
        exact h.before_concat (by simp) he

theorem skipped_of_mem {ls : List (MiddlewareLayer B)} {l : MiddlewareLayer B}
    (hl : l ∈ ls.takeWhile (fun l => l.isError || !l.accepts path)) (he : l.isError = false) :
    l.accepts path = false := by
  have hp := List.mem_takeWhile_imp hl
  rw [he] at hp
  simpa using hp

theorem Kept.next (h : Kept layers path c) : Kept layers path (c.next path) := by
  obtain ⟨done, hdone, hran⟩ := h.passed
  have hskip :=
    List.takeWhile_append_dropWhile (p := fun l : MiddlewareLayer B => l.isError || !l.accepts path)
      (l := c.rest)
  unfold Chain.next
  split
  · exact h
  · split
    · next m ms hdrop =>
        have hacc := accepts_of_dropWhile hdrop
        rw [Bool.or_eq_false_iff, Bool.not_eq_false'] at hacc
        rw [hdrop] at hskip
        have hsplit : layers = done ++
          (c.rest.takeWhile (fun l => l.isError || !l.accepts path) ++ [m]) ++ ms := by
          rw [List.append_assoc, List.append_assoc, List.singleton_append, hskip]
          exact hdone
        constructor
        · refine ⟨_, hsplit, ?_⟩
          intro l hl he ha
          rcases List.mem_append.mp hl with hl | hl
          · exact List.mem_append_left _ (hran l hl he ha)
          · rcases List.mem_append.mp hl with hl | hl
            · exact absurd ha (by simp [skipped_of_mem hl he])
            · rw [List.mem_singleton.mp hl]
              exact List.mem_append_right _ (List.mem_singleton_self _)
        · apply h.ran_concat
          intro l hl
          cases hl
          exact hacc.2
        · intro front back he
          exact h.before_concat (by simp) he
    · next hdrop =>
        rw [hdrop, List.append_nil] at hskip
        have hall : ∀ l ∈ layers, l.isError = false → l.accepts path = true →
          .handle l ∈ c.trace := by
          intro l hl he ha
          rw [hdone] at hl
          rcases List.mem_append.mp hl with hl | hl
          · exact hran l hl he ha
          · rw [← hskip] at hl
            exact absurd ha (by simp [skipped_of_mem hl he])
        split
        · exact ⟨⟨layers, (List.append_nil _).symm, hall⟩, h.ran, h.before⟩
        · constructor
          · exact ⟨layers, (List.append_nil _).symm,
              fun l hl he ha => List.mem_append_left _ (hall l hl he ha)⟩
          · apply h.ran_concat
            intro l hl
            cases hl
          · intro front back he
            rcases of_dispatch_concat he with ⟨_, rfl⟩ | ⟨back', he⟩
            · exact hall
            · exact h.before front back' he

theorem Reached.kept (h : Reached layers path c) : Kept layers path c := by
  apply h.invariant (Kept layers path)
  · exact Kept.start.next
  · intro c s c' _ hk _ hstep
    cases hstep
    cases s with
    | next => exact hk.next
    | fail => exact hk.handleError

/-- Before the handler ran exactly the layers that accept the path. -/
theorem Reached.handled_iff (h : Reached layers path c) {front back : List (Action B)}
    (ht : c.trace = front ++ .dispatch :: back)
    {layer : MiddlewareLayer B} (hl : layer ∈ layers) (he : layer.isError = false) :
    .handle layer ∈ front ↔ layer.accepts path = true := by
  constructor
  · intro hm
    apply h.kept.ran
    rw [ht]
    exact List.mem_append_left _ hm
  · exact h.kept.before front back ht layer hl he

end Chain

end ZenZip
