import ZenZip.Sdk.NodeHandler
import ZenZip.Sdk.Routes

namespace ZenZip.Http

open Lib Call

/-- An error layer that calls `next` passes an error on. -/
def LayerDoes.passes : LayerDoes → Bool
  | .next _ none => false
  | _ => true

def pending (isError : Bool) (path : List Char) (ls : List (MiddlewareLayer LayerDoes)) :
    List LayerDoes :=
  (ls.filter (fun l => l.isError == isError && l.accepts path)).map (·.handle.body)

/-- Around a call that a layer makes in this way stand so many calls that catch. -/
def Mode.depth (n : Nat) : Mode → Nat
  | .direct => n + 1
  | .promise => 1
  | .callback => 0

/-- Within `n` calls that catch, `finalError` shows the error, or what it throws instead. -/
def Thrown.presentable : Nat → Thrown → Bool
  | 0, e => e.present.isOk
  | n + 1, e =>
      match e.present with
      | .ok _ => true
      | .error t => t.presentable n

/-- The error layers answer the error, or the one that they leave can be shown. -/
def settled : Nat → List LayerDoes → Thrown → Bool
  | n, [], e => e.presentable n
  | _, .responds _ :: _, _ => true
  | n, .throws rejects e :: ds, _ => settled (if rejects then 0 else n) ds e
  | n, .next mode (some e) :: ds, _ => settled (mode.depth n) ds e
  | _, .next _ none :: _, _ => false

/-- The code takes the return of a handler for its end, so one that acts later is not waited for. -/
def HandlerDoes.settled (es : List LayerDoes) : HandlerDoes → Bool
  | .returns status none =>
      validStatus (if status = 200 then 204 else status) || Http.settled 0 es .rangeError
  | .returns status (some (.ok _)) => validStatus status || Http.settled 0 es .rangeError
  | .returns _ (some (.error t)) => Http.settled 0 es t
  | .throws e => Http.settled 0 es e
  | .responds _ _ => true
  | .next .callback (some e) => Http.settled 0 es e
  | .next _ (some e) => Http.settled 1 es e
  | .next _ none => true
  | .late _ _ _ => false

def matched (router : HttpRouter HandlerDoes) (method path : List Char)
    (es : List LayerDoes) : Bool :=
  match router.match? method path with
  | .error _ => false
  | .ok none => true
  | .ok (some (handler, _)) => handler.settled es

/-- A layer answers, or fails with an error that is settled, or all call `next` and the route is
dispatched. -/
def arrives (dispatched : Bool) (es : List LayerDoes) : Nat → List LayerDoes → Bool
  | _, [] => dispatched
  | _, .responds _ :: _ => true
  | n, .throws rejects e :: _ => settled (if rejects then 0 else n) es e
  | n, .next mode (some e) :: _ => settled (mode.depth n) es e
  | n, .next mode none :: ds => arrives dispatched es (mode.depth n) ds

/-- The URL parses, the body reads, and the layers and the handler do nothing that goes astray. -/
def sound (pathname : List Char → Option (List Char)) (cfg : HandlerConfig)
    (req : Incoming) : Bool :=
  match pathname req.url with
  | none => false
  | some path => (!req.mayHaveBody || req.body.isNone) &&
      arrives (matched cfg.router req.method path (pending true path cfg.middleware))
        (pending true path cfg.middleware) 0
        (pending false path cfg.middleware)

section Views

theorem filter_dropWhile {A : Type} (p : A → Bool) (ls : List A) :
    (ls.dropWhile p).filter (fun a => !p a) = ls.filter (fun a => !p a) := by
  induction ls with
  | nil => rfl
  | cons a ls ih =>
      rw [List.dropWhile_cons]
      cases hp : p a with
      | true => simpa [hp] using ih
      | false => rfl

theorem pending_eq (isError : Bool) (path : List Char) (ls : List (MiddlewareLayer LayerDoes)) :
    pending isError path ls =
    ((ls.dropWhile (fun l => l.isError != isError || !l.accepts path)).filter
      (fun l => !(l.isError != isError || !l.accepts path))).map (·.handle.body) := by
  rw [filter_dropWhile, pending]
  congr 2
  funext l
  cases l.isError <;> cases isError <;> simp

variable (path : List Char) (c : Chain LayerDoes)

theorem handleError_view :
    (pending true path c.errors = [] ∧
      c.handleError path =
      { c with errors := [], erroring := true, trace := c.trace ++ [.finalError] }) ∨
    ∃ l ls, pending true path c.errors = l.handle.body :: pending true path ls ∧
      c.handleError path =
      { c with errors := ls, erroring := true, trace := c.trace ++ [.handle l] } := by
  have hp := pending_eq true path c.errors
  simp only [Bool.bne_true] at hp
  unfold Chain.handleError
  split
  · next h => exact .inl ⟨by rw [hp, h]; rfl, rfl⟩
  · next l ls h =>
      have hacc := Chain.accepts_of_dropWhile h
      refine .inr ⟨l, ls, ?_, rfl⟩
      rw [hp, h, List.filter_cons_of_pos (by rw [hacc]; rfl), List.map_cons, pending]
      congr 3
      funext l
      cases l.isError <;> simp

theorem next_view (he : c.erroring = false) (hd : c.dispatched = false) :
    (pending false path c.rest = [] ∧
      c.next path = { c with rest := [], dispatched := true, trace := c.trace ++ [.dispatch] }) ∨
    ∃ l ls, pending false path c.rest = l.handle.body :: pending false path ls ∧
      c.next path = { c with rest := ls, trace := c.trace ++ [.handle l] } := by
  have hp := pending_eq false path c.rest
  simp only [Bool.bne_false] at hp
  rw [Chain.next, he, hd]
  simp only [Bool.false_eq_true, if_false]
  split
  · next l ls h =>
      have hacc := Chain.accepts_of_dropWhile h
      refine .inr ⟨l, ls, ?_, rfl⟩
      rw [hp, h, List.filter_cons_of_pos (by rw [hacc]; rfl), List.map_cons, pending]
      congr 3
      funext l
      cases l.isError <;> simp
  · next h => exact .inl ⟨by rw [hp, h]; rfl, rfl⟩

end Views

structure Exchange.Fresh (x : Exchange) : Prop where
  ends : x.ends = []
  early : x.early = false
  unhandled : x.unhandled = []

/-- What has gone astray stays so. -/
def Exchange.Spoiled (x : Exchange) : Prop := x.early = true ∨ x.unhandled ≠ []

def Exchange.Ends (x : Exchange) : Bool → Prop
  | true => x.Answered
  | false => x.Spoiled

namespace Exchange

theorem Fresh.chain {x : Exchange} (h : x.Fresh) (c : Chain LayerDoes) :
    Fresh { x with chain := c } := ⟨h.ends, h.early, h.unhandled⟩

theorem Fresh.headersSent {x : Exchange} (h : x.Fresh) : x.headersSent = false := by
  rw [Exchange.headersSent, h.ends]
  rfl

theorem Spoiled.not_answered {x : Exchange} (h : x.Spoiled) : ¬ x.Answered := by
  rintro ⟨_, hearly, hunhandled⟩
  rcases h with h | h
  · rw [hearly] at h
    cases h
  · exact h hunhandled

theorem Ends.answered_iff {x : Exchange} {b : Bool} (h : x.Ends b) : x.Answered ↔ b = true := by
  cases b with
  | true => exact iff_of_true h rfl
  | false => exact iff_of_false h.not_answered Bool.false_ne_true

end Exchange

theorem ends_respond {x : Exchange} (h : x.Fresh) (r : Reply) :
    (close (respond r x)).Ends true := by
  refine ⟨⟨r, ?_⟩, h.early, h.unhandled⟩
  change x.ends ++ [r] = [r]
  rw [h.ends, List.nil_append]

theorem ends_throw (x : Exchange) (e : Thrown) : (close (throw e x)).Ends false :=
  .inr (List.append_ne_nil_of_right_ne_nil _ (List.cons_ne_nil _ _))

theorem finalError_of_fresh {x : Exchange} (h : x.Fresh) (e : Thrown) : finalError e x =
    match e.present with
    | .ok r => respond r x
    | .error t => throw t x := by
  rw [finalError, h.headersSent]
  rfl

def Call.Keeps (c : Call) : Prop := ∀ x : Exchange, x.Spoiled → (c x).2.Spoiled

section Keeps

variable {body callback : Call} {handler onError next : Thrown → Call}

theorem spoiled_close {r : Option Thrown × Exchange} (h : r.2.Spoiled) : (close r).Spoiled := by
  obtain ⟨e, x⟩ := r
  cases e with
  | none => exact h
  | some e => exact .inr (List.append_ne_nil_of_right_ne_nil _ (List.cons_ne_nil _ _))

theorem keeps_pass : pass.Keeps := fun _ h => h

theorem keeps_throw (e : Thrown) : (throw e).Keeps := fun _ h => h

theorem keeps_respond (r : Reply) : (respond r).Keeps := fun _ h => h

theorem keeps_tryCatch (hb : body.Keeps) (hh : ∀ e, (handler e).Keeps) :
    (tryCatch body handler).Keeps := by
  intro x hx
  have hbody := hb x hx
  rw [Call.tryCatch]
  cases hr : body x with
  | mk e y =>
      rw [hr] at hbody
      cases e with
      | none => exact hbody
      | some e => exact hh e y hbody

theorem keeps_floating (hb : body.Keeps) : (floating body).Keeps := fun x hx =>
  spoiled_close (hb x hx)

theorem keeps_settle (mode : Mode) (hb : body.Keeps) (hh : ∀ e, (handler e).Keeps) :
    (mode.settle body handler).Keeps := by
  cases mode with
  | direct => exact keeps_tryCatch hb hh
  | promise => exact keeps_floating (keeps_tryCatch hb hh)
  | callback => exact keeps_floating hb

theorem keeps_finalError (e : Thrown) : (finalError e).Keeps := by
  intro x hx
  rw [finalError]
  split
  · exact hx
  · split
    · exact hx
    · exact hx

theorem keeps_notFound : notFound.Keeps := by
  intro x hx
  rw [notFound]
  split
  · exact hx
  · exact hx

theorem keeps_endWith (status : Int) (text : String) : (endWith status text).Keeps := by
  rw [endWith]
  split
  · exact keeps_respond _
  · exact keeps_throw _

theorem keeps_returned (status : Int) (value : Option (Except Thrown String)) :
    (returned status value).Keeps := by
  intro x hx
  rw [returned.eq_def]
  split
  · exact hx
  · split
    · exact keeps_endWith _ _ x hx
    · exact keeps_endWith _ _ x hx
    · exact hx

theorem LayerDoes.keeps (d : LayerDoes) {next : Option Thrown → Call} (hn : ∀ e, (next e).Keeps) :
    (d.call next).Keeps := by
  cases d with
  | responds r => exact keeps_respond r
  | throws rejects e => exact keeps_settle _ (keeps_throw e) (fun t => hn (some t))
  | next mode err => exact keeps_settle mode (hn err) (fun t => hn (some t))

theorem HandlerActs.keeps (acts : HandlerActs) (ho : ∀ e, (onError e).Keeps) :
    (acts.call onError).Keeps := by
  cases acts with
  | responds status text => exact keeps_respond _
  | next err =>
      cases err with
      | some e => exact ho e
      | none => exact keeps_notFound

theorem HandlerDoes.keeps (d : HandlerDoes) (ho : ∀ e, (onError e).Keeps) :
    (d.call onError).Keeps := by
  cases d with
  | returns status value => exact keeps_returned status value
  | late status value acts => exact keeps_returned status value
  | throws e => exact keeps_throw e
  | responds status text => exact keeps_respond _
  | next mode err =>
      have hnext := (HandlerActs.next err).keeps ho
      cases mode with
      | callback => exact keeps_floating hnext
      | direct | promise => exact hnext

/-- A callback that comes after the end of the response, or after a failure, answers nothing. -/
theorem ends_afterwards (hk : callback.Keeps) {x : Exchange} {b : Bool}
    (h : (close (body x)).Ends b) :
    (close (afterwards callback body x)).Ends false := by
  have hmarked : (∃ e, (body x).1 = some e) ∨
      Exchange.Spoiled { (body x).2 with early := (body x).2.early || (body x).2.headersSent } := by
    cases hr : body x with
    | mk e y =>
        rw [hr] at h
        cases e with
        | some e => exact .inl ⟨e, rfl⟩
        | none =>
            refine .inr ?_
            cases b with
            | true =>
                obtain ⟨⟨r, hends⟩, _⟩ := h
                have hsent : y.headersSent = true := by
                  rw [Exchange.headersSent]
                  exact congrArg (fun ends : List Reply => !ends.isEmpty) hends
                exact .inl (by rw [hsent, Bool.or_true])
            | false =>
                rcases h with h | h
                · exact .inl (by rw [show y.early = true from h, Bool.true_or])
                · exact .inr h
  rw [afterwards]
  rcases hmarked with ⟨e, he⟩ | hmarked
  · rw [he]
    exact ends_throw _ e
  · exact spoiled_close (spoiled_close (hk _ hmarked))

theorem HandlerDoes.keeps_callback (d : HandlerDoes) (ho : ∀ e, (onError e).Keeps)
    (hb : body.Keeps) : (d.callback onError body).Keeps := by
  cases d with
  | late status value acts =>
      intro x hx
      refine spoiled_close (acts.keeps ho _ ?_)
      rcases hb x hx with h | h
      · exact .inl (by rw [h, Bool.true_or])
      · exact .inr h
  | returns | throws | responds | next => exact hb

variable (router : HttpRouter HandlerDoes) (method path : List Char)

theorem keeps_dispatchRoute (ho : ∀ e, (onError e).Keeps) :
    (dispatchRoute router method path onError).Keeps := by
  rw [dispatchRoute]
  split
  · exact keeps_throw _
  · exact keeps_notFound
  · next handler _ _ =>
      exact handler.keeps_callback ho (keeps_tryCatch (handler.keeps ho) ho)

theorem keeps_next (fuel : Nat) (err : Option Thrown) :
    (Http.next router method path fuel err).Keeps := by
  induction fuel generalizing err with
  | zero => exact keeps_pass
  | succ fuel ih =>
      intro x hx
      have hc (c : Chain LayerDoes) : Exchange.Spoiled { x with chain := c } := hx
      cases err with
      | some e =>
          simp only [Http.next]
          split
          · next l _ => exact l.handle.body.keeps ih _ (hc _)
          · exact keeps_finalError e _ (hc _)
      | none =>
          simp only [Http.next]
          split
          · next l _ => exact l.handle.body.keeps ih _ (hc _)
          · exact keeps_floating (keeps_dispatchRoute router method path (fun e => ih (some e)))
              _ (hc _)
          · exact hc _

end Keeps

section Unwind

variable (router : HttpRouter HandlerDoes) (method path : List Char)

def unwind (ks : List Nat) (r : Option Thrown × Exchange) : Option Thrown × Exchange :=
  ks.foldl (fun r k => catching (fun t => next router method path k (some t)) r) r

theorem unwind_none (ks : List Nat) (x : Exchange) :
    unwind router method path ks (none, x) = (none, x) := by
  induction ks with
  | nil => rfl
  | cons k ks ih => exact ih

theorem unwind_respond (ks : List Nat) (r : Reply) (x : Exchange) :
    unwind router method path ks (respond r x) = respond r x := unwind_none router method path ks _

def Mode.frames (k : Nat) (ks : List Nat) : Mode → List Nat
  | .direct => k :: ks
  | .promise => [k]
  | .callback => []

theorem Mode.length_frames (k : Nat) (ks : List Nat) (mode : Mode) :
    (mode.frames k ks).length = mode.depth ks.length := by
  cases mode <;> rfl

theorem Mode.frames_pos {k : Nat} {ks : List Nat} (mode : Mode) (hk : 0 < k)
    (hks : ∀ i ∈ ks, 0 < i) :
    ∀ i ∈ mode.frames k ks, 0 < i := by
  cases mode with
  | direct => exact List.forall_mem_cons.mpr ⟨hk, hks⟩
  | promise => exact List.forall_mem_singleton.mpr hk
  | callback => exact List.forall_mem_nil _

theorem close_unwind_settle (mode : Mode) (body : Call) (k : Nat) (ks : List Nat) (x : Exchange) :
    close (unwind router method path ks
      (mode.settle body (fun t => next router method path k (some t)) x)) =
      close (unwind router method path (mode.frames k ks) (body x)) := by
  cases mode with
  | direct => rfl
  | promise =>
      rw [Mode.settle, floating, unwind_none]
      rfl
  | callback =>
      rw [Mode.settle, floating, unwind_none]
      rfl

theorem head?_drop_concat {A : Type} (ts : List A) (a : A) :
    ((ts ++ [a]).drop ts.length).head? = some a := by
  rw [List.drop_left]
  rfl

variable {path} {x : Exchange} (fuel : Nat) (e : Thrown)

theorem next_error_nil (hp : pending true path x.chain.errors = []) :
    ∃ c, pending true path c.errors = [] ∧
    next router method path (fuel + 1) (some e) x = finalError e { x with chain := c } := by
  rcases handleError_view path x.chain with ⟨_, hc⟩ | ⟨l, ls, hcons, _⟩
  · refine ⟨x.chain.handleError path, ?_, ?_⟩
    · rw [hc]
      rfl
    · simp only [next, hc, head?_drop_concat]
  · rw [hp] at hcons
    cases hcons

theorem next_error_cons {d : LayerDoes} {ds : List LayerDoes}
    (hp : pending true path x.chain.errors = d :: ds) :
    ∃ c, c.erroring = true ∧ pending true path c.errors = ds ∧
      next router method path (fuel + 1) (some e) x = d.call (next router method path fuel)
        { x with chain := c } := by
  rcases handleError_view path x.chain with ⟨hnil, _⟩ | ⟨l, ls, hcons, hc⟩
  · rw [hp] at hnil
    cases hnil
  · rw [hp] at hcons
    cases hcons
    refine ⟨x.chain.handleError path, ?_, ?_, ?_⟩
    · rw [hc]
    · rw [hc]
    · simp only [next, hc, head?_drop_concat]

theorem next_nil (he : x.chain.erroring = false) (hd : x.chain.dispatched = false)
    (hp : pending false path x.chain.rest = []) :
    ∃ c, c.errors = x.chain.errors ∧ next router method path (fuel + 1) none x =
      floating (dispatchRoute router method path (fun e => next router method path fuel (some e)))
        { x with chain := c } := by
  rcases next_view path x.chain he hd with ⟨_, hc⟩ | ⟨l, ls, hcons, _⟩
  · refine ⟨x.chain.next path, ?_, ?_⟩
    · rw [hc]
    · simp only [next, hc, head?_drop_concat]
  · rw [hp] at hcons
    cases hcons

theorem next_cons (he : x.chain.erroring = false) (hd : x.chain.dispatched = false) {d : LayerDoes}
    {ds : List LayerDoes}
    (hp : pending false path x.chain.rest = d :: ds) :
    ∃ c, c.erroring = false ∧ c.dispatched = false ∧
      c.errors = x.chain.errors ∧ pending false path c.rest = ds ∧
      next router method path (fuel + 1) none x = d.call (next router method path fuel)
        { x with chain := c } := by
  rcases next_view path x.chain he hd with ⟨hnil, _⟩ | ⟨l, ls, hcons, hc⟩
  · rw [hp] at hnil
    cases hnil
  · rw [hp] at hcons
    cases hcons
    refine ⟨x.chain.next path, ?_, ?_, ?_, ?_, ?_⟩
    · rw [hc]
      exact he
    · rw [hc]
      exact hd
    · rw [hc]
    · rw [hc]
    · simp only [next, hc, head?_drop_concat]

variable {router method} {fuel} {e}

/-- Where no error layer is left the error is shown, or what that throws within the calls that
catch. -/
theorem presentable_ends (ks : List Nat) (hks : ∀ k ∈ ks, 0 < k) (hx : x.Fresh)
    (hp : pending true path x.chain.errors = []) :
    (close (unwind router method path ks (next router method path (fuel + 1) (some e) x))).Ends
      (e.presentable ks.length) := by
  induction ks generalizing x fuel e with
  | nil =>
      obtain ⟨c, _, hn⟩ := next_error_nil router method fuel e hp
      rw [hn, finalError_of_fresh (hx.chain c), List.length_nil, Thrown.presentable]
      cases e.present with
      | ok r => exact ends_respond (hx.chain c) r
      | error t => exact ends_throw _ t
  | cons k ks ih =>
      obtain ⟨hk, htail⟩ := List.forall_mem_cons.mp hks
      obtain ⟨c, hpc, hn⟩ := next_error_nil router method fuel e hp
      rw [hn, finalError_of_fresh (hx.chain c), List.length_cons, Thrown.presentable]
      cases e.present with
      | ok r =>
          rw [unwind_respond]
          exact ends_respond (hx.chain c) r
      | error t =>
          obtain ⟨k, rfl⟩ := Nat.exists_eq_succ_of_ne_zero hk.ne'
          exact ih htail (hx.chain c) hpc

theorem settled_ends (ks : List Nat) {es : List LayerDoes} (hks : ∀ k ∈ ks, 0 < k)
    (hes : ∀ d ∈ es, d.passes = true) (hf : es.length < fuel) (hx : x.Fresh)
    (hp : pending true path x.chain.errors = es) :
    (close (unwind router method path ks (next router method path fuel (some e) x))).Ends
      (settled ks.length es e) := by
  induction es generalizing ks x fuel e with
  | nil =>
      obtain ⟨fuel, rfl⟩ := Nat.exists_eq_succ_of_ne_zero hf.ne'
      exact presentable_ends ks hks hx hp
  | cons d ds ih =>
      obtain ⟨hd, hds⟩ := List.forall_mem_cons.mp hes
      obtain ⟨fuel, rfl⟩ := Nat.exists_eq_succ_of_ne_zero (Nat.ne_zero_of_lt hf)
      have hlt : ds.length < fuel := Nat.lt_of_succ_lt_succ hf
      obtain ⟨c, _, hpc, hn⟩ := next_error_cons router method fuel e hp
      rw [hn]
      cases d with
      | responds r =>
          rw [LayerDoes.call, unwind_respond]
          exact ends_respond (hx.chain c) r
      | throws rejects e' =>
          rw [LayerDoes.call, close_unwind_settle, settled]
          cases rejects with
          | false => exact ih ks hks hds hlt (hx.chain c) hpc
          | true => exact ih [] (List.forall_mem_nil _) hds hlt (hx.chain c) hpc
      | next mode err =>
          rw [LayerDoes.call, close_unwind_settle]
          cases err with
          | some e' =>
              rw [settled, ← mode.length_frames fuel]
              exact ih _ (mode.frames_pos (Nat.zero_lt_of_lt hlt) hks) hds hlt (hx.chain c) hpc
          | none => cases hd

theorem endWith_ends {onError : Thrown → Call} {b : Bool} (hx : x.Fresh) (status : Int)
    (text : String)
    (hone : (close (onError .rangeError x)).Ends b) :
    (close (tryCatch (endWith status text) onError x)).Ends (validStatus status || b) := by
  rw [endWith]
  cases validStatus status with
  | true => exact ends_respond hx _
  | false =>
      rw [Bool.false_or]
      exact hone

theorem returned_ends {es : List LayerDoes} {onError : Thrown → Call} (hx : x.Fresh) (status : Int)
    (value : Option (Except Thrown String))
    (hone : ∀ e, (close (onError e x)).Ends (settled 0 es e)) :
    (close (tryCatch (returned status value) onError x)).Ends
      ((HandlerDoes.returns status value).settled es) := by
  rw [Call.tryCatch, returned.eq_def]
  simp only [hx.headersSent, Bool.false_eq_true, if_false]
  cases value with
  | none => exact endWith_ends hx _ "" (hone .rangeError)
  | some json =>
      cases json with
      | ok text => exact endWith_ends hx status text (hone .rangeError)
      | error t => exact hone t

/-- A match that throws is nobody's; the rest of a dispatch is the handler's and its errors'. -/
theorem matched_ends {es : List LayerDoes} {onError : Thrown → Call} (hx : x.Fresh)
    (hkeeps : ∀ e, (onError e).Keeps) (hone : ∀ e, (close (onError e x)).Ends (settled 0 es e))
    (htwo : ∀ e, (close (tryCatch (onError e) onError x)).Ends (settled 1 es e)) :
    (close (dispatchRoute router method path onError x)).Ends (matched router method path es) := by
  have hnone : notFound x = respond .notFound x := by
    rw [notFound, hx.headersSent]
    rfl
  have hfound : (close (notFound x)).Ends true := by
    rw [hnone]
    exact ends_respond hx _
  rw [dispatchRoute, matched]
  cases router.match? method path with
  | error msg => exact ends_throw x _
  | ok found =>
      cases found with
      | none => exact hfound
      | some found =>
          obtain ⟨handler, params⟩ := found
          cases handler with
          | returns status value => exact returned_ends hx status value hone
          | late status value acts =>
              exact ends_afterwards (acts.keeps hkeeps) (returned_ends hx status value hone)
          | throws e => exact hone e
          | responds status body => exact ends_respond hx _
          | next mode err =>
              cases err with
              | some e =>
                  cases mode with
                  | direct | promise => exact htwo e
                  | callback => exact hone e
              | none =>
                  have htry : (close (tryCatch notFound onError x)).Ends true := by
                    rw [Call.tryCatch, hnone]
                    exact ends_respond hx _
                  cases mode with
                  | direct | promise => exact htry
                  | callback => exact hfound

/-- The layers of the normal pass run in turn until one of them does not call `next()`. -/
theorem arrives_ends (ks : List Nat) {ds es : List LayerDoes} (hks : ∀ k ∈ ks, 0 < k)
    (hpass : ∀ d ∈ es, d.passes = true) (hf : ds.length + es.length + 1 < fuel) (hx : x.Fresh)
    (he : x.chain.erroring = false) (hd : x.chain.dispatched = false)
    (hds : pending false path x.chain.rest = ds) (hes : pending true path x.chain.errors = es) :
    (close (unwind router method path ks (next router method path fuel none x))).Ends
      (arrives (matched router method path es) es ks.length ds) := by
  induction ds generalizing ks x fuel with
  | nil =>
      obtain ⟨fuel, rfl⟩ := Nat.exists_eq_succ_of_ne_zero (Nat.ne_zero_of_lt hf)
      have hlt : es.length < fuel := by
        simp only [List.length_nil] at hf
        omega
      obtain ⟨c, hc, hn⟩ := next_nil router method fuel he hd hds
      have hes' : pending true path c.errors = es := by rw [hc, hes]
      rw [hn, floating, unwind_none]
      apply matched_ends (hx.chain c)
      · intro e
        exact keeps_next router method path fuel (some e)
      · intro e
        exact settled_ends [] (List.forall_mem_nil _) hpass hlt (hx.chain c) hes'
      · intro e
        exact settled_ends [fuel] (List.forall_mem_singleton.mpr (Nat.zero_lt_of_lt hlt)) hpass hlt
          (hx.chain c) hes'
  | cons d ds ih =>
      obtain ⟨fuel, rfl⟩ := Nat.exists_eq_succ_of_ne_zero (Nat.ne_zero_of_lt hf)
      have hlt : ds.length + es.length + 1 < fuel := by
        simp only [List.length_cons] at hf
        omega
      have hpos : 0 < fuel := Nat.zero_lt_of_lt hlt
      have hlt' : es.length < fuel := by omega
      obtain ⟨c, hce, hcd, hcerr, hcp, hn⟩ := next_cons router method fuel he hd hds
      have hes' : pending true path c.errors = es := by rw [hcerr, hes]
      rw [hn]
      cases d with
      | responds r =>
          rw [LayerDoes.call, unwind_respond]
          exact ends_respond (hx.chain c) r
      | throws rejects e =>
          rw [LayerDoes.call, close_unwind_settle, arrives]
          cases rejects with
          | false => exact settled_ends ks hks hpass hlt' (hx.chain c) hes'
          | true => exact settled_ends [] (List.forall_mem_nil _) hpass hlt' (hx.chain c) hes'
      | next mode err =>
          rw [LayerDoes.call, close_unwind_settle]
          cases err with
          | some e =>
              rw [arrives, ← mode.length_frames fuel]
              exact settled_ends _ (mode.frames_pos hpos hks) hpass hlt' (hx.chain c) hes'
          | none =>
              rw [arrives, ← mode.length_frames fuel]
              exact ih _ (mode.frames_pos hpos hks) hlt (hx.chain c) hce hcd hcp hes'

end Unwind

theorem length_pending_le (isError : Bool) (path : List Char)
    (ls : List (MiddlewareLayer LayerDoes)) :
    (pending isError path ls).length ≤ ls.length := by
  rw [pending, List.length_map]
  exact List.length_filter_le _ _

theorem finalError_ends {x : Exchange} (hx : x.Fresh) (e : Thrown) :
    (close (finalError e x)).Ends (settled 0 [] e) := by
  rw [finalError_of_fresh hx, settled, Thrown.presentable]
  cases e.present with
  | ok r => exact ends_respond hx r
  | error t => exact ends_throw x t

theorem finalError_caught {x : Exchange} (hx : x.Fresh) (e : Thrown) :
    (close (Call.tryCatch (finalError e) finalError x)).Ends (settled 1 [] e) := by
  rw [Call.tryCatch, finalError_of_fresh hx, settled, Thrown.presentable]
  cases e.present with
  | ok r => exact ends_respond hx r
  | error t => exact finalError_ends hx t

section Serve

variable {cfg : HandlerConfig}
  (hpass : ∀ l ∈ cfg.middleware, l.isError = true → l.handle.body.passes = true)

include hpass

theorem passes_of_pending {path : List Char} {d : LayerDoes}
    (hd : d ∈ pending true path cfg.middleware) : d.passes = true := by
  obtain ⟨l, hl, rfl⟩ := List.mem_map.mp hd
  obtain ⟨hmem, hl⟩ := List.mem_filter.mp hl
  have herr : l.isError = true := by
    rw [Bool.and_eq_true, beq_iff_eq] at hl
    exact hl.1
  exact hpass l hmem herr

theorem dispatched_ends (method path : List Char) :
    (close ((if cfg.middleware.isEmpty then dispatchRoute cfg.router method path finalError
        else runMiddleware cfg method path) ⟨.start cfg.middleware, [], false, []⟩)).Ends
      (arrives (matched cfg.router method path (pending true path cfg.middleware))
        (pending true path cfg.middleware) 0 (pending false path cfg.middleware)) := by
  have hx : Exchange.Fresh ⟨.start cfg.middleware, [], false, []⟩ := ⟨rfl, rfl, rfl⟩
  cases hempty : cfg.middleware.isEmpty with
  | true =>
      rw [List.isEmpty_iff.mp hempty] at hx ⊢
      exact matched_ends hx keeps_finalError (finalError_ends hx) (finalError_caught hx)
  | false =>
      have hnormal := length_pending_le false path cfg.middleware
      have herror := length_pending_le true path cfg.middleware
      have hpos : 0 < cfg.middleware.length :=
        List.length_pos_iff.mpr (List.isEmpty_eq_false_iff.mp hempty)
      exact arrives_ends [] (List.forall_mem_nil _) (fun d hd => passes_of_pending hpass hd)
        (by omega)
        hx rfl rfl rfl rfl

/-- A request gets exactly one response, which waits for its handler, and nothing is thrown to
nobody, exactly when it is sound. -/
theorem serve_answered_iff (pathname : List Char → Option (List Char)) (req : Incoming) :
    (serve pathname cfg req).Answered ↔ sound pathname cfg req = true := by
  apply Exchange.Ends.answered_iff
  rw [serve, makeNodeHandler, sound]
  cases pathname req.url with
  | none => exact ends_throw _ _
  | some path =>
      cases req.mayHaveBody with
      | false => exact dispatched_ends hpass req.method path
      | true =>
          cases req.body with
          | none => exact dispatched_ends hpass req.method path
          | some e => exact ends_throw _ e

end Serve

def plainPath (url : List Char) : Option (List Char) :=
  if url.head? = some '/' ∧ url[1]? ≠ some '/' ∧
    url.all (fun c => c.isAlphanum || c = '/' || c = '%') then some url
  else none

def userRoutes : HandlerConfig :=
  ⟨HttpRouter.addAll [⟨"GET".toList, "/users/:id".toList,
    .returns 200 (some (.ok "\"user\""))⟩], []⟩

theorem match?_users : userRoutes.router.match? "GET".toList "/users/%".toList =
    .error "URI malformed" := by
  rw [userRoutes, HttpRouter.match?_addAll]
  rfl

/-- The routes behind a layer that fails and an error layer that passes its error on. -/
def failingRoutes : HandlerConfig :=
  { userRoutes with
    middleware := [middlewareLayer ⟨4, .next .promise (some .uriError)⟩ none,
      middlewareLayer ⟨3, .throws true .invalidUrl⟩ none] }

theorem serve_answered_failing :
    (serve plainPath failingRoutes ⟨"GET".toList, "/users/7".toList, none, none⟩).Answered := by
  have hpass : ∀ l ∈ failingRoutes.middleware, l.isError = true → l.handle.body.passes = true := by
    decide
  exact (serve_answered_iff hpass plainPath _).mpr (by decide +kernel)

/-- A malformed escape under a parameter rejects the promise of the handler. -/
theorem not_answered_escape : ¬ ∀ req, (serve plainPath userRoutes req).Answered := by
  intro h
  have hd : dispatchRoute userRoutes.router "GET".toList "/users/%".toList finalError =
    Call.throw .uriError := by
    rw [dispatchRoute, match?_users]
  have hs : serve plainPath userRoutes ⟨"GET".toList, "/users/%".toList, none, none⟩ =
      close (dispatchRoute userRoutes.router "GET".toList "/users/%".toList finalError
        ⟨.start [], [], false, []⟩) := rfl
  have hanswered := h ⟨"GET".toList, "/users/%".toList, none, none⟩
  rw [hs, hd] at hanswered
  exact (ends_throw _ _).not_answered hanswered

end ZenZip.Http
