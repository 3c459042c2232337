import ZenZip.Lib.Relay
import ZenZip.Sdk.Middleware
import ZenZip.Sdk.TextDecoder

namespace ZenZip

open Lib

variable {B : Type}

namespace Chain

def ran (c : Chain B) : List (MiddlewareLayer B) := c.trace.filterMap fun
  | .handle l => if l.isError then none else some l
  | _ => none

/-- How often the normal pass has gone on: for a layer or for the handler. -/
def turns (c : Chain B) : Nat := c.ran.length + if c.dispatched then 1 else 0

/-- Who signals: a layer of the normal pass that ran calls `next()`, or an error layer does; and a
failure may be anyone's. -/
inductive Caller
  | layer (k : Nat)
  | errorLayer
  | failing

end Chain

structure Calling (B : Type) where
  chain : Chain B
  called : List Nat

namespace Calling

/-- A layer calls `next()` at most once, and only if it is one that does; failures are free. -/
def step (calls : MiddlewareLayer B → Bool) (path : List Char) (s : Calling B) :
    Chain.Caller → Option (Calling B)
  | .layer k =>
      if k ∉ s.called ∧ (s.chain.ran[k]?).any calls = true then
        some ⟨s.chain.next path, k :: s.called⟩
      else none
  | .errorLayer =>
      if s.chain.trace.any (fun | .handle l => l.isError | _ => false) then
        some { s with chain := s.chain.next path }
      else none
  | .failing => some { s with chain := s.chain.handleError path }

def start (layers : List (MiddlewareLayer B)) (path : List Char) : Calling B :=
  ⟨(Chain.start layers).next path, []⟩

def Reached (calls : MiddlewareLayer B → Bool) (layers : List (MiddlewareLayer B))
    (path : List Char) : Calling B → Prop :=
  Run (step calls path) (fun _ _ => true) (start layers path)

end Calling

namespace Chain

structure Placed (layers : List (MiddlewareLayer B)) (path : List Char) (c : Chain B) : Prop where
  rest : ∃ passed, layers = passed ++ c.rest ∧ c.ran = passed.filter (·.normal path)
  dispatched : .dispatch ∈ c.trace → c.dispatched = true
  all : c.dispatched = true → c.ran = layers.filter (·.normal path)
  raised : ∀ l, .handle l ∈ c.trace → l.isError = true → c.erroring = true

variable {layers : List (MiddlewareLayer B)} {path : List Char} {c : Chain B}
  {l : MiddlewareLayer B}

theorem isError_of_normal (h : l.normal path = true) : l.isError = false := by
  simp only [MiddlewareLayer.normal, Bool.not_eq_true', Bool.or_eq_false_iff] at h
  exact h.1

theorem isError_of_failing (h : l.failing path = true) : l.isError = true := by
  simp only [MiddlewareLayer.failing, Bool.not_eq_true', Bool.or_eq_false_iff,
    Bool.not_eq_false'] at h
  exact h.1

theorem ran_handle {rest errors : List (MiddlewareLayer B)} {trace : List (Action B)} {d e : Bool}
    (h : l.isError = false) :
    ran ⟨rest, errors, d, e, trace ++ [.handle l]⟩ = ran ⟨rest, errors, d, e, trace⟩ ++ [l] := by
  simp [ran, List.filterMap_append, h]

theorem ran_other {rest errors : List (MiddlewareLayer B)} {trace : List (Action B)} {d e : Bool}
    {a : Action B}
    (h : ∀ l, a = .handle l → l.isError = true) :
    ran ⟨rest, errors, d, e, trace ++ [a]⟩ = ran ⟨rest, errors, d, e, trace⟩ := by
  cases a with
  | handle l => simp [ran, List.filterMap_append, h l rfl]
  | dispatch | finalError => simp [ran, List.filterMap_append]

theorem Placed.start : Placed layers path (start layers) where
  rest := ⟨[], rfl, rfl⟩
  dispatched h := by cases h
  all h := by cases h
  raised l h := by cases h

theorem Placed.ran_prefix (h : Placed layers path c) : c.ran <+: layers.filter (·.normal path) := by
  obtain ⟨passed, hlayers, hran⟩ := h.rest
  rw [hran]
  exact Pipeline.filter_prefix hlayers

theorem Placed.next (h : Placed layers path c) :
    Placed layers path (c.next path) ∧
    ((c.next path).turns = c.turns ∨ (c.next path).turns = c.turns + 1) := by
  obtain ⟨passed, hlayers, hran⟩ := h.rest
  rcases c.next_cases path with ⟨_, hnext⟩ | ⟨hcalm, skipped, l, ls, hrest, hskip, hl, hnext⟩ |
      ⟨hcalm, hskip, ⟨hun, hnext⟩ | ⟨hd, hnext⟩⟩
  · rw [hnext]
    exact ⟨h, .inl rfl⟩
  · obtain ⟨hlayers', hran'⟩ := Pipeline.passed_snoc hlayers hran hrest hskip hl
    have hnew : (c.next path).ran = c.ran ++ [l] := by
      rw [hnext]
      exact ran_handle (isError_of_normal hl)
    have hun : c.dispatched = false := by
      apply Bool.eq_false_iff.mpr
      intro hd
      have hall := h.all hd
      rw [hlayers', List.filter_append, ← hran'] at hall
      simp at hall
    refine ⟨⟨?_, ?_, ?_, ?_⟩, .inr ?_⟩
    · refine ⟨_, ?_, hnew.trans hran'⟩
      rw [hnext]
      exact hlayers'
    · intro hmem
      rw [hnext] at hmem ⊢
      rcases List.mem_append.mp hmem with hmem | hmem
      · exact h.dispatched hmem
      · cases List.mem_singleton.mp hmem
    · intro hd
      rw [hnext] at hd
      exact absurd (hun.symm.trans hd) Bool.false_ne_true
    · intro l' hmem herr
      rw [hnext] at hmem ⊢
      rcases List.mem_append.mp hmem with hmem | hmem
      · exact h.raised l' hmem herr
      · cases List.mem_singleton.mp hmem
        exact absurd herr (by simp [isError_of_normal hl])
    · rw [turns, turns, hnew, hnext, List.length_append]
      simp [hun]
  · have hall := Pipeline.passed_all hlayers hran hskip
    have hsame : (c.next path).ran = c.ran := by
      rw [hnext]
      exact ran_other (fun l hl => by cases hl)
    refine ⟨⟨⟨layers, ?_, hsame.trans hall⟩, ?_, fun _ => hsame.trans hall, ?_⟩, .inr ?_⟩
    · rw [hnext]
      exact (List.append_nil _).symm
    · intro _
      rw [hnext]
    · intro l' hmem herr
      rw [hnext] at hmem ⊢
      rcases List.mem_append.mp hmem with hmem | hmem
      · exact h.raised l' hmem herr
      · cases List.mem_singleton.mp hmem
    · rw [turns, turns, hsame, hnext]
      simp [hun]
  · have hall := Pipeline.passed_all hlayers hran hskip
    rw [hnext]
    exact ⟨⟨⟨layers, (List.append_nil _).symm, hall⟩, h.dispatched, h.all, h.raised⟩, .inl rfl⟩

theorem Placed.handleError (h : Placed layers path c) :
    Placed layers path (c.handleError path) ∧ (c.handleError path).turns = c.turns := by
  have hkeep {errors : List (MiddlewareLayer B)} {a : Action B}
    (ha : ∀ l, a = .handle l → l.isError = true) (hne : a ≠ .dispatch) :
      Placed layers path { c with errors, erroring := true, trace := c.trace ++ [a] } ∧
        turns { c with errors, erroring := true, trace := c.trace ++ [a] } = c.turns := by
    have hran : ran { c with errors, erroring := true, trace := c.trace ++ [a] } = c.ran :=
      ran_other ha
    refine ⟨⟨?_, ?_, ?_, fun _ _ _ => rfl⟩, ?_⟩
    · rw [hran]
      exact h.rest
    · intro hmem
      rcases List.mem_append.mp hmem with hmem | hmem
      · exact h.dispatched hmem
      · exact absurd (List.mem_singleton.mp hmem).symm hne
    · intro hd
      rw [hran]
      exact h.all hd
    · rw [turns, turns, hran]
  rcases c.handleError_cases path with ⟨skipped, l, ls, _, _, hl, hnext⟩ | ⟨_, hnext⟩
  · rw [hnext]
    exact hkeep (fun l' hl' => by cases hl'; exact isError_of_failing hl) (by simp)
  · rw [hnext]
    exact hkeep (fun l' hl' => by cases hl') (by simp)

end Chain

namespace Calling

variable {calls : MiddlewareLayer B → Bool} {layers before behind : List (MiddlewareLayer B)}
  {guard : MiddlewareLayer B}
  {path : List Char} {s s' : Calling B}

/-- The runners are the layers that the normal pass takes in; the handler does not pass. -/
def passes (calls : MiddlewareLayer B → Bool) (layers : List (MiddlewareLayer B)) (path : List Char)
    (k : Nat) : Bool :=
  ((layers.filter (·.normal path))[k]?).any calls

structure Simulates (calls : MiddlewareLayer B → Bool) (layers : List (MiddlewareLayer B))
    (path : List Char) (s : Calling B)
    (r : Relay) : Prop where
  reached : Relay.Reached (passes calls layers path) r
  placed : Chain.Placed layers path s.chain
  started : r.started = s.chain.turns
  called : ∀ k ∈ r.passed, k ∈ s.called

theorem Simulates.start : ∃ r, Simulates calls layers path (start layers path) r := by
  have hstart : Chain.Placed layers path (Chain.start layers) := .start
  obtain ⟨hplaced, hturns⟩ := hstart.next
  refine ⟨Relay.start, .refl, hplaced, ?_, fun k hk => by cases hk⟩
  rcases hturns with hturns | hturns
  · -- no layer has been passed over, and the handler has not run
    rcases (Chain.start layers).next_cases
      path with ⟨he, _⟩ | ⟨_, _, l, _, _, _, hl, hnext⟩ | ⟨_, _, ⟨_, hnext⟩ | ⟨hd, _⟩⟩
    · cases he
    · rw [Calling.start, hnext, Chain.turns, Chain.ran_handle (Chain.isError_of_normal hl)]
      rfl
    · rw [Calling.start, hnext]
      rfl
    · cases hd
  · exact hturns.symm

theorem Simulates.step {r : Relay} (h : Simulates calls layers path s r) {e : Chain.Caller}
    (hs : Calling.step calls path s e = some s') : ∃ r', Simulates calls layers path s' r' := by
  cases e with
  | layer k =>
      obtain ⟨⟨hnew, hcalls⟩, he⟩ := Option.ite_none_right_eq_some.mp hs
      cases he
      obtain ⟨hplaced, hsame | hturns⟩ := h.placed.next
      · exact ⟨r, h.reached, hplaced, h.started.trans hsame.symm,
          fun j hj => List.mem_cons_of_mem k (h.called j hj)⟩
      · rw [Option.any_eq_true] at hcalls
        obtain ⟨l, hl, hcall⟩ := hcalls
        obtain ⟨hk, _⟩ := List.getElem?_eq_some_iff.mp hl
        have hpass : passes calls layers path k = true := by
          obtain ⟨more, hmore⟩ := h.placed.ran_prefix
          rw [passes, ← hmore, List.getElem?_append_left hk, hl]
          exact hcall
        have hstep : Relay.step (passes calls layers path) r k =
          some ⟨r.started + 1, k :: r.passed⟩ := by
          rw [Relay.step, if_pos]
          refine ⟨?_, fun hmem => hnew (h.called k hmem), hpass⟩
          rw [h.started, Chain.turns]
          exact Nat.lt_add_right _ hk
        refine ⟨_, h.reached.snoc rfl hstep, hplaced, ?_, ?_⟩
        · rw [h.started]
          exact hturns.symm
        · intro j hj
          rcases List.mem_cons.mp hj with rfl | hj
          · exact List.mem_cons_self
          · exact List.mem_cons_of_mem k (h.called j hj)
  | errorLayer =>
      obtain ⟨hany, he⟩ := Option.ite_none_right_eq_some.mp hs
      cases he
      obtain ⟨a, ha, herr⟩ := List.any_eq_true.mp hany
      have hstop : s.chain.next path = s.chain := by
        cases a with
        | handle l => rw [Chain.next, h.placed.raised l ha herr, if_pos rfl]
        | dispatch | finalError => cases herr
      rw [hstop]
      exact ⟨r, h⟩
  | failing =>
      cases hs
      obtain ⟨hplaced, hturns⟩ := h.placed.handleError
      exact ⟨r, h.reached, hplaced, h.started.trans hturns.symm, h.called⟩

theorem Reached.simulates (h : Reached calls layers path s) :
    ∃ r, Simulates calls layers path s r :=
  h.invariant (fun s => ∃ r, Simulates calls layers path s r) Simulates.start fun _ _ _ _ hI _ hs =>
    hI.elim fun _ hr => hr.step hs

theorem Reached.calls_guard (hlayers : layers = before ++ guard :: behind)
    (hg : guard.normal path = true)
    (h : Reached calls layers path s)
    (hran : .dispatch ∈ s.chain.trace ∨
    (before.filter (·.normal path)).length + 1 < s.chain.ran.length) : calls guard = true := by
  obtain ⟨r, hr⟩ := h.simulates
  have hsplit : layers.filter (·.normal path) = before.filter (·.normal path) ++
    guard :: behind.filter (·.normal path) := by
    rw [hlayers, List.filter_append, List.filter_cons_of_pos hg]
  have hpass : passes calls layers path (before.filter (·.normal path)).length = calls guard := by
    rw [passes, hsplit, List.getElem?_append_right (Nat.le_refl _), Nat.sub_self]
    rfl
  cases hcalls : calls guard with
  | true => rfl
  | false =>
      have hturns := hr.reached.started_le (hpass.trans hcalls)
      rw [hr.started, Chain.turns] at hturns
      rcases hran with hd | hlt
      · have hdispatched := hr.placed.dispatched hd
        rw [hr.placed.all hdispatched, hsplit, hdispatched, if_pos rfl, List.length_append,
          List.length_cons] at hturns
        omega
      · omega

end Calling

namespace Guard

structure HeaderRequest where
  method : Option (List Char)
  get : List Char → Option (List Char)

/-- Who a request is from: a static token, or what `verify` made of its token. -/
inductive Principal (P : Type)
  | token (token : List Char)
  | verified (principal : P)

/-- `verify` may throw; what it returns may be falsy. -/
structure AuthOptions (P : Type) where
  tokens : Option (List (List Char)) := none
  verify : Option (List Char → HeaderRequest → Except String (Option P)) := none

def bearerToken (req : HeaderRequest) : Option (List Char) :=
  match (req.get "authorization".toList).filter (fun a => "Bearer ".toList.isPrefixOf a) with
  | some a => some (a.drop 7)
  | none => req.get "x-api-key".toList

def timingSafeMatch (token : List Char) (candidates : List (List Char)) : Bool :=
  candidates.foldl (fun ok c =>
    if (bufferFrom c).length = (bufferFrom token).length ∧
      bufferFrom c = bufferFrom token then true else ok) false

/-- The middleware of `auth(options)`: a principal to go on with, none for a 401, or an error. -/
def auth {P : Type} (o : AuthOptions P) (req : HeaderRequest) :
    Except String (Option (Principal P)) :=
  match (bearerToken req).filter (· ≠ []) with
  | none => .ok none
  | some token =>
      if o.tokens.any (timingSafeMatch token) then .ok (some (.token token))
      else
        match o.verify with
        | none => .ok none
        | some verify => (verify token req).map (fun p => p.map .verified)

structure Url where
  origin : List Char
  host : List Char

structure CsrfOptions where
  allowedOrigins : Option (List (List Char)) := none
  safeMethods : Option (List (List Char)) := none

section Csrf

variable (parse : List Char → Option Url)

def originFromReferer (referer : Option (List Char)) : Option (List Char) :=
  match referer.filter (· ≠ []) with
  | none => none
  | some r => (parse r).map (·.origin)

def CsrfOptions.safe (o : CsrfOptions) (req : HeaderRequest) : Bool :=
  ((o.safeMethods.getD ["GET".toList, "HEAD".toList, "OPTIONS".toList]).map toUpperCase).contains
    (toUpperCase (req.method.getD "GET".toList))

def sentFrom (req : HeaderRequest) : Option (List Char) :=
  (req.get "origin".toList).or (originFromReferer parse (req.get "referer".toList))

/-- The middleware of `csrf(options)`: the error of a 403, if there is one. -/
def csrf (o : CsrfOptions) (req : HeaderRequest) : Option String :=
  if o.safe req then none
  else
    match (sentFrom parse req).filter (· ≠ []) with
    | none => some "CSRF: missing Origin/Referer on a state-changing request"
    | some origin =>
        match o.allowedOrigins with
        | some allowed => if allowed.contains origin then none else some "CSRF: origin not allowed"
        | none =>
            match (req.get "host".toList).filter (· ≠ []) with
            | none => some "CSRF: cross-origin request rejected"
            | some host =>
                if (parse origin).map (·.host) = some host then none
                  else some "CSRF: cross-origin request rejected"

end Csrf

/-- What a layer is; of the app's own layers only counts whether they call `next()` for a request.
-/
inductive Body (P : Type)
  | auth (o : AuthOptions P)
  | csrf (o : CsrfOptions)
  | own (calls : HeaderRequest → Bool)

def Body.calls {P : Type} (parse : List Char → Option Url) (req : HeaderRequest) : Body P → Bool
  | .auth o => match Guard.auth o req with
    | .ok (some _) => true
    | _ => false
  | .csrf o => (Guard.csrf parse o req).isNone
  | .own calls => calls req

abbrev Guarded {P : Type} (parse : List Char → Option Url) (req : HeaderRequest)
    (layers : List (MiddlewareLayer (Body P)))
    (path : List Char) : Calling (Body P) → Prop :=
  Calling.Reached (fun l => l.handle.body.calls parse req) layers path

section Guards

variable {P : Type} {parse : List Char → Option Url} {req : HeaderRequest} {path token : List Char}
  {layers before behind : List (MiddlewareLayer (Body P))} {guard : MiddlewareLayer (Body P)}
    {s : Calling (Body P)}

theorem timingSafeMatch_iff {candidates : List (List Char)} :
    timingSafeMatch token candidates = true ↔ token ∈ candidates := by
  have hfold (ok : Bool) : candidates.foldl (fun ok c =>
      if (bufferFrom c).length = (bufferFrom token).length ∧
        bufferFrom c = bufferFrom token then true else ok) ok = true ↔
        ok = true ∨ token ∈ candidates := by
    induction candidates generalizing ok with
    | nil => simp
    | cons c cs ih =>
        rw [List.foldl_cons, ih, List.mem_cons]
        by_cases hc : bufferFrom c = bufferFrom token
        · simp [bufferFrom_inj hc]
        · have hne : token ≠ c := by
            rintro rfl
            exact hc rfl
          simp [hc, hne]
  rw [timingSafeMatch, hfold]
  simp

/-- A request that `auth` takes: its token is one of the tokens, or `verify` has a principal for it.
-/
def AuthOptions.Takes (o : AuthOptions P) (req : HeaderRequest) : Prop :=
  ∃ token, bearerToken req = some token ∧ token ≠ [] ∧
    (token ∈ o.tokens.getD [] ∨ ∃ verify principal, o.verify = some verify ∧
      verify token req = .ok (some principal))

/-- A request that `csrf` takes: it changes nothing, or it comes from an allowed origin, or from its
own host. -/
def CsrfOptions.Takes (parse : List Char → Option Url) (o : CsrfOptions)
    (req : HeaderRequest) : Prop :=
  o.safe req = true ∨ ∃ origin, sentFrom parse req = some origin ∧ origin ≠ [] ∧
    ((∃ allowed, o.allowedOrigins = some allowed ∧ origin ∈ allowed) ∨
      o.allowedOrigins = none ∧ ∃ url, parse origin = some url ∧
        req.get "host".toList = some url.host ∧ url.host ≠ [])

theorem auth_takes {o : AuthOptions P} {p : Principal P} (h : auth o req = .ok (some p)) :
    o.Takes req := by
  rw [auth] at h
  split at h
  · cases h
  · next token htoken =>
      obtain ⟨hbearer, hne⟩ := Option.filter_eq_some_iff.mp htoken
      refine ⟨token, hbearer, of_decide_eq_true hne, ?_⟩
      split at h
      · next hmatch =>
          left
          rw [Option.any_eq_true] at hmatch
          obtain ⟨tokens, htokens, hmatch⟩ := hmatch
          rw [htokens, Option.getD_some]
          exact timingSafeMatch_iff.mp hmatch
      · right
        split at h
        · cases h
        · next verify hverify =>
            cases hres : verify token req with
            | error e =>
                rw [hres] at h
                cases h
            | ok principal =>
                cases principal with
                | none =>
                    rw [hres] at h
                    cases h
                | some principal => exact ⟨verify, principal, hverify, hres⟩

theorem csrf_takes {o : CsrfOptions} (h : csrf parse o req = none) : o.Takes parse req := by
  rw [csrf] at h
  split at h
  · next hsafe => exact .inl hsafe
  · right
    split at h
    · cases h
    · next origin horigin =>
        obtain ⟨hsent, hne⟩ := Option.filter_eq_some_iff.mp horigin
        refine ⟨origin, hsent, of_decide_eq_true hne, ?_⟩
        split at h
        · next allowed hallowed =>
            left
            split at h
            · next hmem => exact ⟨allowed, hallowed, List.contains_iff_mem.mp hmem⟩
            · cases h
        · next hallowed =>
            right
            refine ⟨hallowed, ?_⟩
            split at h
            · cases h
            · next host hhost =>
                obtain ⟨hget, hhost⟩ := Option.filter_eq_some_iff.mp hhost
                split at h
                · next hsame =>
                    obtain ⟨url, hurl, rfl⟩ := Option.map_eq_some_iff.mp hsame
                    exact ⟨url, hurl, hget, of_decide_eq_true hhost⟩
                · cases h

/-- Whatever the other layers do, and in whatever order they call `next()` once or fail: where the
handler or a layer behind `auth` runs, `auth` has taken the request. -/
theorem auth_guards {o : AuthOptions P} (hlayers : layers = before ++ guard :: behind)
    (hbody : guard.handle.body = .auth o)
    (hnormal : guard.normal path = true) (h : Guarded parse req layers path s)
    (hran : .dispatch ∈ s.chain.trace ∨
    (before.filter (·.normal path)).length + 1 < s.chain.ran.length) : o.Takes req := by
  have hcalls := h.calls_guard hlayers hnormal hran
  rw [hbody] at hcalls
  cases hauth : auth o req with
  | ok p =>
      cases p with
      | some p => exact auth_takes hauth
      | none => simp [Body.calls, hauth] at hcalls
  | error e => simp [Body.calls, hauth] at hcalls

/-- The same for `csrf`. -/
theorem csrf_guards {o : CsrfOptions} (hlayers : layers = before ++ guard :: behind)
    (hbody : guard.handle.body = .csrf o)
    (hnormal : guard.normal path = true) (h : Guarded parse req layers path s)
    (hran : .dispatch ∈ s.chain.trace ∨
    (before.filter (·.normal path)).length + 1 < s.chain.ran.length) : o.Takes parse req := by
  have hcalls := h.calls_guard hlayers hnormal hran
  rw [hbody] at hcalls
  exact csrf_takes (Option.isNone_iff_eq_none.mp hcalls)

section Samples

def authLayer : MiddlewareLayer (Body String) :=
  middlewareLayer
    ⟨3, .auth ⟨some ["secret".toList],
      some (fun t _ => .ok (if t = "jwt".toList then some "ann" else none))⟩⟩ (some "/api".toList)

def csrfLayer : MiddlewareLayer (Body String) := middlewareLayer ⟨3, .csrf {}⟩ none

def ownLayer : MiddlewareLayer (Body String) := middlewareLayer ⟨3, .own fun _ => true⟩ none

def parseHttps (text : List Char) : Option Url :=
  if "https://".toList.isPrefixOf text then some
    ⟨text.takeWhile (· ≠ '?'), (text.drop 8).takeWhile (· ≠ '/')⟩ else none

def ownRequest : HeaderRequest where
  method := some "post".toList
  get name :=
    if name = "authorization".toList then some "Bearer jwt".toList
    else if name = "origin".toList then some "https://zen.dev".toList
    else if name = "host".toList then some "zen.dev".toList
    else none

def guardedLayers : List (MiddlewareLayer (Body String)) :=
  [ownLayer, authLayer, csrfLayer, ownLayer]

theorem dispatched_sample : ∃ s, Guarded parseHttps ownRequest guardedLayers "/api/users".toList s ∧
    .dispatch ∈ s.chain.trace := by
  obtain ⟨s, hrun, hp⟩ :=
    Run.exists_of_replay
      (Calling.step (fun l => l.handle.body.calls parseHttps ownRequest) "/api/users".toList)
    (fun _ _ => true)
      (Calling.start guardedLayers "/api/users".toList) [.layer 0, .layer 1, .layer 2, .layer 3]
    (fun s => s.chain.trace.any fun | .dispatch => true | _ => false) (by decide +kernel)
  obtain ⟨a, ha, hd⟩ := List.any_eq_true.mp hp
  cases a with
  | dispatch => exact ⟨s, hrun, ha⟩
  | handle | finalError => cases hd

theorem auth_guards_sample : AuthOptions.Takes
    ⟨some ["secret".toList], some (fun t _ => .ok (if t = "jwt".toList then some "ann" else none))⟩
      ownRequest := by
  obtain ⟨s, h, hd⟩ := dispatched_sample
  have hlayers : guardedLayers = [ownLayer] ++ authLayer :: [csrfLayer, ownLayer] := rfl
  exact auth_guards hlayers rfl (by decide) h (.inl hd)

theorem csrf_guards_sample : CsrfOptions.Takes parseHttps {} ownRequest := by
  obtain ⟨s, h, hd⟩ := dispatched_sample
  have hlayers : guardedLayers = [ownLayer, authLayer] ++ csrfLayer :: [ownLayer] := rfl
  exact csrf_guards hlayers rfl (by decide) h (.inl hd)

end Samples

end Guards

end Guard

end ZenZip
