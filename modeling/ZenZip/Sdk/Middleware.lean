import ZenZip.Sdk.Chain

namespace ZenZip

open Lib

variable {B : Type}

namespace MiddlewareLayer

def normal (path : List Char) (l : MiddlewareLayer B) : Bool := !(l.isError || !l.accepts path)

def failing (path : List Char) (l : MiddlewareLayer B) : Bool := !(!l.isError || !l.accepts path)

end MiddlewareLayer

namespace Chain

variable {path : List Char} {c : Chain B}

theorem dropWhile_cases (p : MiddlewareLayer B → Bool) (ls : List (MiddlewareLayer B)) :
    (∃ skipped l rest, ls = skipped ++ l :: rest ∧ (∀ x ∈ skipped, p x = true) ∧ p l = false ∧
    ls.dropWhile p = l :: rest) ∨
    (∀ x ∈ ls, p x = true) ∧ ls.dropWhile p = [] := by
  cases hdrop : ls.dropWhile p with
  | nil => exact .inr ⟨List.dropWhile_eq_nil_iff.mp hdrop, rfl⟩
  | cons l rest =>
      refine .inl
        ⟨ls.takeWhile p, l, rest, ?_, fun x hx => List.mem_takeWhile_imp hx,
          accepts_of_dropWhile hdrop, rfl⟩
      rw [← hdrop, List.takeWhile_append_dropWhile]

theorem next_cases (path : List Char) (c : Chain B) :
    (c.erroring = true ∧ c.next path = c) ∨
    (c.erroring = false ∧ ∃ skipped l ls, c.rest = skipped ++ l :: ls ∧
    (∀ x ∈ skipped, x.normal path = false) ∧
      l.normal path = true ∧ c.next path = { c with rest := ls, trace := c.trace ++ [.handle l] }) ∨
    (c.erroring = false ∧ (∀ x ∈ c.rest, x.normal path = false) ∧
      ((c.dispatched = false ∧ c.next path =
      { c with rest := [], dispatched := true, trace := c.trace ++ [.dispatch] }) ∨
        (c.dispatched = true ∧ c.next path = { c with rest := [] }))) := by
  cases he : c.erroring with
  | true => exact .inl ⟨rfl, by rw [Chain.next, he, if_pos rfl]⟩
  | false =>
      refine .inr ?_
      obtain ⟨skipped, l, ls, hsplit, hskip, hl, hdrop⟩ | ⟨hskip, hdrop⟩ :=
        dropWhile_cases (fun l => l.isError || !l.accepts path) c.rest
      · refine .inl ⟨rfl, skipped, l, ls, hsplit, fun x hx => ?_, ?_, ?_⟩
        · rw [MiddlewareLayer.normal, hskip x hx, Bool.not_true]
        · rw [MiddlewareLayer.normal, hl, Bool.not_false]
        · simp only [Chain.next, he, hdrop, Bool.false_eq_true, if_false]
      · refine .inr ⟨rfl, fun x hx => ?_, ?_⟩
        · rw [MiddlewareLayer.normal, hskip x hx, Bool.not_true]
        · cases hd : c.dispatched with
          | false =>
              exact .inl ⟨rfl, by simp only [Chain.next, he, hdrop, hd, Bool.false_eq_true,
                if_false]⟩
          | true =>
              exact .inr ⟨rfl, by simp only [Chain.next, he, hdrop, hd, Bool.false_eq_true,
                if_false, if_true]⟩

theorem handleError_cases (path : List Char) (c : Chain B) :
    (∃ skipped l ls, c.errors = skipped ++ l :: ls ∧ (∀ x ∈ skipped, x.failing path = false) ∧
    l.failing path = true ∧
      c.handleError path =
      { c with errors := ls, erroring := true, trace := c.trace ++ [.handle l] }) ∨
    (∀ x ∈ c.errors, x.failing path = false) ∧
      c.handleError path =
      { c with errors := [], erroring := true, trace := c.trace ++ [.finalError] } := by
  obtain ⟨skipped, l, ls, hsplit, hskip, hl, hdrop⟩ | ⟨hskip, hdrop⟩ :=
    dropWhile_cases (fun l => !l.isError || !l.accepts path) c.errors
  · refine .inl ⟨skipped, l, ls, hsplit, fun x hx => ?_, ?_, ?_⟩
    · rw [MiddlewareLayer.failing, hskip x hx, Bool.not_true]
    · rw [MiddlewareLayer.failing, hl, Bool.not_false]
    · simp only [Chain.handleError, hdrop]
  · refine .inr ⟨fun x hx => ?_, ?_⟩
    · rw [MiddlewareLayer.failing, hskip x hx, Bool.not_true]
    · simp only [Chain.handleError, hdrop]

end Chain

/-- Code that runs: of a layer, of the dispatched handler, or of one of these later on. -/
inductive Frame (B : Type)
  | layer (l : MiddlewareLayer B)
  | handler
  | later (ofHandler : Bool)

/-- What is seen of a request: an error comes up, and something starts. -/
inductive Mark (B : Type)
  | error
  | starts (a : Chain.Action B)

/-- `runMiddleware` with the code that it has called and that has not returned, the latest first,
and the promises that it has been given. -/
structure Pipeline (B : Type) where
  chain : Chain B
  stack : List (Frame B)
  promises : Nat
  log : List (Mark B)

namespace Pipeline

/-- What the running code does. A rejection may come at any time. -/
inductive Event
  | next
  | nextError
  | returns (promise : Bool)
  | throws
  | rejects
  | later (ofHandler : Bool)

/-- The last action of the chain starts; `next` and `handleError` are left to wait for it. -/
def enter (σ : Pipeline B) (c : Chain B) (marks : List (Mark B)) : Pipeline B :=
  match c.trace.drop σ.chain.trace.length with
  | [] => { σ with chain := c, log := σ.log ++ marks }
  | a :: _ =>
    let stack := match a with
      | .handle l => .layer l :: σ.stack
      | .dispatch => .handler :: σ.stack
      | .finalError => σ.stack
    { σ with chain := c, stack, log := σ.log ++ (marks ++ [.starts a]) }

def callNext (path : List Char) (σ : Pipeline B) : Pipeline B := σ.enter (σ.chain.next path) []

def callHandleError (path : List Char) (σ : Pipeline B) : Pipeline B :=
  σ.enter (σ.chain.handleError path) [.error]

def init (layers : List (MiddlewareLayer B)) (path : List Char) : Pipeline B :=
  callNext path ⟨.start layers, [], 0, []⟩

def step (path : List Char) (σ : Pipeline B) : Event → Option (Pipeline B)
  | .next => match σ.stack with
    | [] => none
    -- the handler's own `next` answers 404
    | .handler :: _ | .later true :: _ => some σ
    | _ => some (σ.callNext path)
  | .nextError => if σ.stack = [] then none else some (σ.callHandleError path)
  | .returns promise => match σ.stack with
    | [] => none
    | .later _ :: stack => some { σ with stack }
    -- what comes after the handler may still fail
    | .handler :: stack => some { σ with stack, promises := σ.promises + 1 }
    | .layer _ :: stack =>
        some { σ with stack, promises := if promise then σ.promises + 1 else σ.promises }
  | .throws => match σ.stack with
    | [] => none
    -- an exception of a timer or of a promise's own code is not the chain's
    | .later _ :: stack => some { σ with stack }
    | _ :: stack => some (callHandleError path { σ with stack })
  | .rejects => if σ.promises = 0 then none else some (σ.callHandleError path)
  | .later ofHandler => if σ.stack = [] then some { σ with stack := [.later ofHandler] } else none

end Pipeline

namespace Mark

def normalStart : Mark B → Option (MiddlewareLayer B)
  | .starts (.handle l) => if l.isError then none else some l
  | _ => none

def errorStart : Mark B → Option (MiddlewareLayer B)
  | .starts (.handle l) => if l.isError then some l else none
  | _ => none

end Mark

structure Disciplined (layers : List (MiddlewareLayer B)) (path : List Char) (log : List (Mark B)) :
    Prop where
  normals : log.filterMap Mark.normalStart <+: layers.filter (·.normal path)
  errors : log.filterMap Mark.errorStart <+: layers.filter (·.failing path)
  dispatched : ∀ front back, log = front ++ .starts .dispatch :: back →
    front.filterMap Mark.normalStart = layers.filter (·.normal path) ∧ .starts .dispatch ∉ back
  raised : ∀ front back l, log = front ++ .starts (.handle l) :: back → l.isError = true →
    .error ∈ front
  stopped : ∀ front back, log = front ++ .error :: back →
    back.filterMap Mark.normalStart = [] ∧ .starts .dispatch ∉ back

section Log

variable {layers : List (MiddlewareLayer B)} {path : List Char} {log front back : List (Mark B)}
  {m x : Mark B}
  {l : MiddlewareLayer B}

theorem snoc_split (h : log ++ [m] = front ++ x :: back) :
    (m = x ∧ log = front ∧ back = []) ∨ ∃ back', back = back' ++ [m] ∧
    log = front ++ x :: back' := by
  rcases List.eq_nil_or_concat' back with rfl | ⟨back', b, rfl⟩
  · obtain ⟨hlog, hm⟩ := List.append_inj' h rfl
    cases hm
    exact .inl ⟨rfl, hlog, rfl⟩
  · rw [← List.cons_append, ← List.append_assoc] at h
    obtain ⟨hlog, hm⟩ := List.append_inj' h rfl
    cases hm
    exact .inr ⟨back', rfl, hlog⟩

theorem filterMap_snoc (f : Mark B → Option (MiddlewareLayer B)) :
    (log ++ [m]).filterMap f = log.filterMap f ++ (f m).toList := by
  rw [List.filterMap_append]
  cases h : f m <;> simp [h]

theorem filterMap_snoc_none {f : Mark B → Option (MiddlewareLayer B)} (h : f m = none) :
    (log ++ [m]).filterMap f = log.filterMap f := by
  rw [filterMap_snoc, h]
  exact List.append_nil _

theorem not_mem_snoc (h : x ∉ log) (hne : x ≠ m) : x ∉ log ++ [m] := by
  intro hm
  rcases List.mem_append.mp hm with hm | hm
  · exact h hm
  · exact hne (List.mem_singleton.mp hm)

theorem normalStart_normal (hl : l.normal path = true) :
    (Mark.starts (.handle l)).normalStart = some l ∧
    (Mark.starts (.handle l)).errorStart = none := by
  simp only [MiddlewareLayer.normal, Bool.not_eq_true', Bool.or_eq_false_iff] at hl
  simp [Mark.normalStart, Mark.errorStart, hl.1]

theorem errorStart_failing (hl : l.failing path = true) :
    (Mark.starts (.handle l)).normalStart = none ∧
    (Mark.starts (.handle l)).errorStart = some l := by
  simp only [MiddlewareLayer.failing, Bool.not_eq_true', Bool.or_eq_false_iff,
    Bool.not_eq_false'] at hl
  simp [Mark.normalStart, Mark.errorStart, hl.1]

theorem Disciplined.nil : Disciplined layers path [] where
  normals := List.nil_prefix
  errors := List.nil_prefix
  dispatched front back h := by cases front <;> cases h
  raised front back l h := by cases front <;> cases h
  stopped front back h := by cases front <;> cases h

theorem Disciplined.snoc (h : Disciplined layers path log)
    (hnormals : (log ++ [m]).filterMap Mark.normalStart <+: layers.filter (·.normal path))
    (herrors : (log ++ [m]).filterMap Mark.errorStart <+: layers.filter (·.failing path))
    (hdispatch : m = .starts .dispatch →
      log.filterMap Mark.normalStart = layers.filter (·.normal path) ∧ .starts .dispatch ∉ log)
    (hraised : ∀ l, m = .starts (.handle l) → l.isError = true → .error ∈ log)
    (hstopped : .error ∈ log → m.normalStart = none ∧ m ≠ .starts .dispatch) :
    Disciplined layers path (log ++ [m]) where
  normals := hnormals
  errors := herrors
  dispatched front back he := by
    rcases snoc_split he with ⟨hm, rfl, rfl⟩ | ⟨back', rfl, hlog⟩
    · exact ⟨(hdispatch hm).1, List.not_mem_nil⟩
    · obtain ⟨hfront, hback⟩ := h.dispatched front back' hlog
      refine ⟨hfront, fun hmem => ?_⟩
      rcases List.mem_append.mp hmem with hmem | hmem
      · exact hback hmem
      · apply (hdispatch (List.mem_singleton.mp hmem).symm).2
        rw [hlog]
        exact List.mem_append_right front List.mem_cons_self
  raised front back l he herr := by
    rcases snoc_split he with ⟨hm, rfl, rfl⟩ | ⟨back', rfl, hlog⟩
    · exact hraised l hm herr
    · exact h.raised front back' l hlog herr
  stopped front back he := by
    rcases snoc_split he with ⟨_, _, rfl⟩ | ⟨back', rfl, hlog⟩
    · exact ⟨rfl, List.not_mem_nil⟩
    · obtain ⟨hnormal, hdispatched⟩ := h.stopped front back' hlog
      have hmem : .error ∈ log := by
        rw [hlog]
        exact List.mem_append_right front List.mem_cons_self
      obtain ⟨hnone, hne⟩ := hstopped hmem
      refine ⟨?_, fun hm => ?_⟩
      · rw [filterMap_snoc, hnormal, hnone]
        rfl
      · rcases List.mem_append.mp hm with hm | hm
        · exact hdispatched hm
        · exact hne (List.mem_singleton.mp hm).symm

end Log

namespace Pipeline

/-- The cursors stand behind what has started, and the flags tell what has not happened yet. -/
structure Orderly (layers : List (MiddlewareLayer B)) (path : List Char) (c : Chain B)
    (log : List (Mark B)) : Prop where
  rest : ∃ passed, layers = passed ++ c.rest ∧
    log.filterMap Mark.normalStart = passed.filter (·.normal path)
  errors : ∃ passed, layers = passed ++ c.errors ∧
    log.filterMap Mark.errorStart = passed.filter (·.failing path)
  calm : c.erroring = false → .error ∉ log
  undispatched : c.dispatched = false → .starts .dispatch ∉ log
  log : Disciplined layers path log

variable {layers : List (MiddlewareLayer B)} {path : List Char} {σ σ' : Pipeline B} {c : Chain B}
  {marks log : List (Mark B)}

theorem enter_same (σ : Pipeline B) (c : Chain B) (marks : List (Mark B))
    (h : c.trace = σ.chain.trace) :
    (σ.enter c marks).chain = c ∧ (σ.enter c marks).log = σ.log ++ marks := by
  rw [enter, h, List.drop_length]
  exact ⟨rfl, rfl⟩

theorem enter_starts (σ : Pipeline B) (c : Chain B) (marks : List (Mark B)) {a : Chain.Action B}
    (h : c.trace = σ.chain.trace ++ [a]) :
    (σ.enter c marks).chain = c ∧ (σ.enter c marks).log = σ.log ++ (marks ++ [.starts a]) := by
  rw [enter, h, List.drop_left]
  exact ⟨rfl, rfl⟩

theorem enter_stack (σ : Pipeline B) (stack : List (Frame B)) (c : Chain B)
    (marks : List (Mark B)) :
    (enter { σ with stack } c marks).chain = (σ.enter c marks).chain ∧
      (enter { σ with stack } c marks).log = (σ.enter c marks).log := by
  simp only [enter]
  split
  · exact ⟨rfl, rfl⟩
  · exact ⟨rfl, rfl⟩

/-- All that an event can do to the chain is a call of `next` or of `handleError`. -/
theorem step_cases {e : Event} (hs : step path σ e = some σ') :
    (σ'.chain = σ.chain ∧ σ'.log = σ.log) ∨
    (σ'.chain = (σ.callNext path).chain ∧ σ'.log = (σ.callNext path).log) ∨
    (σ'.chain = (σ.callHandleError path).chain ∧ σ'.log = (σ.callHandleError path).log) := by
  cases e with
  | next =>
      simp only [step] at hs
      split at hs
      · cases hs
      · cases hs
        exact .inl ⟨rfl, rfl⟩
      · cases hs
        exact .inl ⟨rfl, rfl⟩
      · cases hs
        exact .inr (.inl ⟨rfl, rfl⟩)
  | nextError | rejects =>
      simp only [step] at hs
      split at hs
      · cases hs
      · cases hs
        exact .inr (.inr ⟨rfl, rfl⟩)
  | returns promise =>
      simp only [step] at hs
      split at hs
      · cases hs
      · cases hs
        exact .inl ⟨rfl, rfl⟩
      · cases hs
        exact .inl ⟨rfl, rfl⟩
      · cases hs
        exact .inl ⟨rfl, rfl⟩
  | throws =>
      simp only [step] at hs
      split at hs
      · cases hs
      · cases hs
        exact .inl ⟨rfl, rfl⟩
      · next stack _ _ =>
          cases hs
          exact .inr (.inr (σ.enter_stack stack (σ.chain.handleError path) [.error]))
  | later ofHandler =>
      obtain ⟨_, he⟩ := Option.ite_none_right_eq_some.mp hs
      cases he
      exact .inl ⟨rfl, rfl⟩

theorem passed_snoc {p : MiddlewareLayer B → Bool}
    {passed rest skipped ls started : List (MiddlewareLayer B)}
    {l : MiddlewareLayer B} (h : layers = passed ++ rest) (hstarted : started = passed.filter p)
    (hrest : rest = skipped ++ l :: ls) (hskip : ∀ x ∈ skipped, p x = false) (hl : p l = true) :
    layers = (passed ++ (skipped ++ [l])) ++ ls ∧
    started ++ [l] = (passed ++ (skipped ++ [l])).filter p := by
  constructor
  · rw [h, hrest]
    simp
  · have hnone : skipped.filter p = [] :=
      List.filter_eq_nil_iff.mpr (fun x hx => by simp [hskip x hx])
    rw [List.filter_append, List.filter_append, hnone, ← hstarted, List.nil_append,
      List.filter_cons_of_pos hl, List.filter_nil]

theorem passed_all {p : MiddlewareLayer B → Bool} {passed rest started : List (MiddlewareLayer B)}
    (h : layers = passed ++ rest) (hstarted : started = passed.filter p)
    (hskip : ∀ x ∈ rest, p x = false) :
    started = layers.filter p := by
  have hnone : rest.filter p = [] := List.filter_eq_nil_iff.mpr (fun x hx => by simp [hskip x hx])
  rw [h, List.filter_append, hnone, List.append_nil, hstarted]

theorem filter_prefix {p : MiddlewareLayer B → Bool} {passed rest : List (MiddlewareLayer B)}
    (h : layers = passed ++ rest) :
    passed.filter p <+: layers.filter p := by
  rw [h, List.filter_append]
  exact List.prefix_append _ _

namespace Orderly

theorem start (layers : List (MiddlewareLayer B)) (path : List Char) :
    Orderly layers path (.start layers) [] where
  rest := ⟨[], rfl, rfl⟩
  errors := ⟨[], rfl, rfl⟩
  calm _ := List.not_mem_nil
  undispatched _ := List.not_mem_nil
  log := .nil

theorem normal {skipped ls : List (MiddlewareLayer B)} {l : MiddlewareLayer B}
    (h : Orderly layers path c log)
    (hcalm : c.erroring = false) (hrest : c.rest = skipped ++ l :: ls)
    (hskip : ∀ x ∈ skipped, x.normal path = false)
    (hl : l.normal path = true) :
    Orderly layers path { c with rest := ls, trace := c.trace ++ [.handle l] }
      (log ++ [.starts (.handle l)]) := by
  obtain ⟨passed, hpassed, hnormals⟩ := h.rest
  obtain ⟨hlayers, hstarted⟩ := passed_snoc hpassed hnormals hrest hskip hl
  obtain ⟨hsome, hnone⟩ := normalStart_normal hl
  have hn : (log ++ [Mark.starts (.handle l)]).filterMap Mark.normalStart =
    (passed ++ (skipped ++ [l])).filter (·.normal path) := by
    rw [filterMap_snoc, hsome, ← hstarted]
    rfl
  have hquiet := h.calm hcalm
  refine ⟨⟨_, hlayers, hn⟩, ?_, fun _ => ?_, fun hd => ?_, ?_⟩
  · rw [filterMap_snoc_none hnone]
    exact h.errors
  · exact not_mem_snoc hquiet (by simp)
  · exact not_mem_snoc (h.undispatched hd) (by simp)
  · refine h.log.snoc ?_ ?_ (fun hm => by cases hm) (fun l' hm herr => ?_)
      (fun hm => absurd hm hquiet)
    · rw [hn]
      exact filter_prefix hlayers
    · rw [filterMap_snoc_none hnone]
      exact h.log.errors
    · cases hm
      simp [MiddlewareLayer.normal, herr] at hl

theorem dispatch (h : Orderly layers path c log) (hcalm : c.erroring = false)
    (hskip : ∀ x ∈ c.rest, x.normal path = false)
    (hun : c.dispatched = false) :
    Orderly layers path { c with rest := [], dispatched := true, trace := c.trace ++ [.dispatch] }
      (log ++ [.starts .dispatch]) := by
  obtain ⟨passed, hpassed, hnormals⟩ := h.rest
  have hall := passed_all hpassed hnormals hskip
  have hn : (log ++ [Mark.starts .dispatch]).filterMap Mark.normalStart =
    log.filterMap Mark.normalStart :=
    filterMap_snoc_none rfl
  have he : (log ++ [Mark.starts .dispatch]).filterMap Mark.errorStart =
    log.filterMap Mark.errorStart :=
    filterMap_snoc_none rfl
  have hquiet := h.calm hcalm
  refine ⟨⟨layers, (List.append_nil _).symm, by rw [hn, hall]⟩, ?_, fun _ => ?_, fun hd => ?_, ?_⟩
  · rw [he]
    exact h.errors
  · exact not_mem_snoc hquiet (by simp)
  · cases hd
  · refine h.log.snoc ?_ ?_ (fun _ => ⟨hall, h.undispatched hun⟩) (fun l' hm => by cases hm)
      (fun hm => absurd hm hquiet)
    · rw [hn]
      exact h.log.normals
    · rw [he]
      exact h.log.errors

theorem passedAll (h : Orderly layers path c log) (hskip : ∀ x ∈ c.rest, x.normal path = false) :
    Orderly layers path { c with rest := [] } log := by
  obtain ⟨passed, hpassed, hnormals⟩ := h.rest
  exact ⟨⟨layers, (List.append_nil _).symm, passed_all hpassed hnormals hskip⟩, h.errors, h.calm,
    h.undispatched, h.log⟩

theorem after {m : Mark B} {errors : List (MiddlewareLayer B)} {trace : List (Chain.Action B)}
    (h : Orderly layers path c log)
    (hm : m.normalStart = none) (hne : m ≠ .starts .dispatch)
    (herrors : ∃ passed, layers = passed ++ errors ∧
    (log ++ [m]).filterMap Mark.errorStart = passed.filter (·.failing path))
    (hraised : ∀ l, m = .starts (.handle l) → l.isError = true → .error ∈ log) :
    Orderly layers path { c with errors, erroring := true, trace } (log ++ [m]) := by
  refine ⟨?_, herrors, fun hc => ?_,
    fun hd => not_mem_snoc (h.undispatched hd) (fun he => hne he.symm), ?_⟩
  · rw [filterMap_snoc_none hm]
    exact h.rest
  · cases hc
  · refine h.log.snoc ?_ ?_ (fun he => absurd he hne) hraised (fun _ => ⟨hm, hne⟩)
    · rw [filterMap_snoc_none hm]
      exact h.log.normals
    · obtain ⟨passed, hpassed, hstarted⟩ := herrors
      rw [hstarted]
      exact filter_prefix hpassed

theorem callNext (h : Orderly layers path σ.chain σ.log) :
    Orderly layers path (σ.callNext path).chain (σ.callNext path).log := by
  rcases σ.chain.next_cases
    path with ⟨_, hnext⟩ | ⟨hcalm, skipped, l, ls, hrest, hskip, hl, hnext⟩ |
      ⟨hcalm, hskip, ⟨hun, hnext⟩ | ⟨_, hnext⟩⟩
  · obtain ⟨hchain, hlog⟩ := enter_same σ (σ.chain.next path) [] (by rw [hnext])
    rw [Pipeline.callNext, hchain, hlog, hnext, List.append_nil]
    exact h
  · obtain ⟨hchain, hlog⟩ := enter_starts σ (σ.chain.next path) [] (by rw [hnext])
    rw [Pipeline.callNext, hchain, hlog, hnext]
    exact h.normal hcalm hrest hskip hl
  · obtain ⟨hchain, hlog⟩ := enter_starts σ (σ.chain.next path) [] (by rw [hnext])
    rw [Pipeline.callNext, hchain, hlog, hnext]
    exact h.dispatch hcalm hskip hun
  · obtain ⟨hchain, hlog⟩ := enter_same σ (σ.chain.next path) [] (by rw [hnext])
    rw [Pipeline.callNext, hchain, hlog, hnext, List.append_nil]
    exact h.passedAll hskip

theorem callHandleError (h : Orderly layers path σ.chain σ.log) :
    Orderly layers path (σ.callHandleError path).chain (σ.callHandleError path).log := by
  have herror : Orderly layers path { σ.chain with erroring := true } (σ.log ++ [.error]) := by
    refine h.after rfl (by simp) ?_ (fun l hm => by cases hm)
    rw [filterMap_snoc_none rfl]
    exact h.errors
  have hmem : Mark.error ∈ σ.log ++ [.error] := List.mem_append_right _ (List.mem_singleton_self _)
  obtain ⟨passed, hpassed, hstarted⟩ := herror.errors
  rcases σ.chain.handleError_cases
    path with ⟨skipped, l, ls, herrors, hskip, hl, hnext⟩ | ⟨hskip, hnext⟩
  · obtain ⟨hchain, hlog⟩ := enter_starts σ (σ.chain.handleError path) [.error] (by rw [hnext])
    rw [Pipeline.callHandleError, hchain, hlog, hnext, ← List.append_assoc]
    obtain ⟨hnone, hsome⟩ := errorStart_failing hl
    obtain ⟨hlayers, hstarted'⟩ := passed_snoc hpassed hstarted herrors hskip hl
    refine herror.after hnone (by simp) ⟨_, hlayers, ?_⟩ (fun _ _ _ => hmem)
    rw [filterMap_snoc, hsome, ← hstarted']
    rfl
  · obtain ⟨hchain, hlog⟩ := enter_starts σ (σ.chain.handleError path) [.error] (by rw [hnext])
    rw [Pipeline.callHandleError, hchain, hlog, hnext, ← List.append_assoc]
    refine herror.after rfl (by simp) ⟨layers, (List.append_nil _).symm, ?_⟩
      (fun l hm => by cases hm)
    rw [filterMap_snoc_none rfl, passed_all hpassed hstarted hskip]

theorem step {e : Event} (h : Orderly layers path σ.chain σ.log)
    (hs : Pipeline.step path σ e = some σ') :
    Orderly layers path σ'.chain σ'.log := by
  rcases step_cases hs with ⟨hchain, hlog⟩ | ⟨hchain, hlog⟩ | ⟨hchain, hlog⟩
  · rw [hchain, hlog]
    exact h
  · rw [hchain, hlog]
    exact h.callNext
  · rw [hchain, hlog]
    exact h.callHandleError

end Orderly

/-- Every layer starts at most once and in turn, the handler once after all of the normal ones, an
error layer only after an error, and after the first error neither a normal layer nor the handler.
-/
theorem middleware_disciplined (layers : List (MiddlewareLayer B)) (path : List Char)
    {σ : Pipeline B}
    (h : Run (step path) (fun _ _ => true) (init layers path) σ) :
    Disciplined layers path σ.log := by
  have horderly : Orderly layers path σ.chain σ.log := by
    refine h.invariant (fun σ => Orderly layers path σ.chain σ.log) ?_
      (fun _ _ _ _ hI _ hs => hI.step hs)
    refine Orderly.callNext ?_
    exact Orderly.start layers path
  exact horderly.log

/-- A layer calls `next` twice and throws then, the handler's promise is rejected, and a timer calls
`next` once more. -/
theorem middleware_disciplined_nested : ∃ σ : Pipeline Unit,
    Run (step ['/']) (fun _ _ => true)
      (init [middlewareLayer ⟨3, ()⟩ none, middlewareLayer ⟨4, ()⟩ none] ['/']) σ ∧
    Disciplined [middlewareLayer ⟨3, ()⟩ none, middlewareLayer ⟨4, ()⟩ none] ['/'] σ.log ∧
    σ.log.length = 6 := by
  obtain ⟨σ, hrun, hp⟩ := Run.exists_of_replay (step ['/']) (fun _ _ => true)
    (init [middlewareLayer ⟨3, ()⟩ none, middlewareLayer ⟨4, ()⟩ none] ['/'])
    [.next, .returns true, .next, .throws, .returns false, .rejects, .later false, .next,
      .returns false]
    (fun σ => σ.log.length = 6) (by decide)
  exact ⟨σ, hrun, middleware_disciplined _ _ hrun, of_decide_eq_true hp⟩

theorem chain_reached (layers : List (MiddlewareLayer B)) (path : List Char) {σ : Pipeline B}
    (h : Run (step path) (fun _ _ => true) (init layers path) σ) :
    Chain.Reached layers path σ.chain := by
  have henter (σ : Pipeline B) (c : Chain B) (marks : List (Mark B)) :
    (σ.enter c marks).chain = c := by
    unfold enter
    split
    · rfl
    · rfl
  refine h.invariant (fun σ => Chain.Reached layers path σ.chain) ?_ ?_
  · rw [init, callNext, henter]
    exact .refl
  · intro σ e σ' _ hI _ hs
    rcases step_cases hs with ⟨hchain, _⟩ | ⟨hchain, _⟩ | ⟨hchain, _⟩
    · rwa [hchain]
    · rw [hchain, callNext, henter]
      exact hI.snoc (l := .next) rfl rfl
    · rw [hchain, callHandleError, henter]
      exact hI.snoc (l := .fail) rfl rfl

end Pipeline

end ZenZip
