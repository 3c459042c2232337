import ZenZip.Json
import ZenZip.Sdk.Chain

namespace ZenZip.Http

open Lib

/-- A thrown value as `finalError` sees it: its `status` and `statusCode` where they are numbers, as
`statusCode |= 0` reads them, its `name`, and its message and code, or what showing these throws. -/
inductive Thrown
  | mk (status statusCode : Option Int) (name : Option String)
  (shown : Except Thrown (String × Option Json))

/-- What ends a response: a handler or a layer, a 404, or `finalError`. -/
inductive Reply
  | sent (status : Int) (body : String)
  | notFound
  | error (status : Int) (message : String) (code : Option Json)

/-- The codes that `writeHead` takes. -/
def validStatus (status : Int) : Bool := 100 ≤ status && status ≤ 999

namespace Thrown

def rangeError : Thrown :=
  .mk none none (some "RangeError")
    (.ok ("Invalid status code", some (.str "ERR_HTTP_INVALID_STATUS_CODE")))

def uriError : Thrown :=
  .mk none none (some "URIError") (.ok ("URI malformed", some (.str "URIError")))

def invalidUrl : Thrown :=
  .mk none none (some "TypeError") (.ok ("Invalid URL", some (.str "ERR_INVALID_URL")))

/-- What every object has: under these names the table of codes finds no number, which counts as 0.
-/
def inherited : List String :=
  ["constructor", "toString", "toLocaleString", "valueOf", "hasOwnProperty", "isPrototypeOf",
    "propertyIsEnumerable",
    "__proto__", "__defineGetter__", "__defineSetter__", "__lookupGetter__", "__lookupSetter__"]

def statusByName (name : String) : Option Int :=
  if name ∈ ["QueueFullError", "CircuitOpenError", "BulkheadFullError"] then some 503
  else if name = "ValidationError" then some 400
  else if name ∈ inherited then some 0
  else none

def code : Thrown → Int
  | .mk status statusCode name _ => (status.or (statusCode.or (name.bind statusByName))).getD 500

/-- The envelope that `finalError` writes, or what it throws. -/
def present : Thrown → Except Thrown Reply
  | .mk _ _ _ (.error t) => .error t
  | e@(.mk _ _ _ (.ok (message, c))) =>
      if validStatus e.code then .ok (.error e.code message c) else .error rangeError

end Thrown

/-- When a layer or a handler acts: in its call, in the promise it returns, or in a callback. -/
inductive Mode
  | direct
  | promise
  | callback

/-- What a layer does with a request: one of three things, once. -/
inductive LayerDoes
  | responds (r : Reply)
  | throws (rejects : Bool) (e : Thrown)
  | next (mode : Mode) (err : Option Thrown)

inductive HandlerActs
  | responds (status : Int) (body : String)
  | next (err : Option Thrown)

/-- What a route handler does. `status` is the status code that the end of the handler finds; the
value it returns is JSON, or what `JSON.stringify` throws. A handler that acts late has returned,
and its promise has settled, before its callback runs. -/
inductive HandlerDoes
  | returns (status : Int) (value : Option (Except Thrown String))
  | throws (e : Thrown)
  | responds (status : Int) (body : String)
  | next (mode : Mode) (err : Option Thrown)
  | late (status : Int) (value : Option (Except Thrown String)) (acts : HandlerActs)

/-- What a request has come to. The first of the `ends` is what the client gets; `early` tells that
it came before the handler had acted. -/
structure Exchange where
  chain : Chain LayerDoes
  ends : List Reply
  early : Bool
  unhandled : List Thrown

namespace Exchange

def headersSent (x : Exchange) : Bool := !x.ends.isEmpty

/-- The request got one response, which waited for its handler, and nothing was thrown to nobody. -/
def Answered (x : Exchange) : Prop := (∃ r, x.ends = [r]) ∧ x.early = false ∧ x.unhandled = []

end Exchange

/-- A call: what it throws, and what it leaves. -/
abbrev Call := Exchange → Option Thrown × Exchange

namespace Call

def pass : Call := fun x => (none, x)

def throw (e : Thrown) : Call := fun x => (some e, x)

def respond (r : Reply) : Call := fun x => (none, { x with ends := x.ends ++ [r] })

def catching (handler : Thrown → Call) : Option Thrown × Exchange → Option Thrown × Exchange
  | (some e, x) => handler e x
  | (none, x) => (none, x)

def tryCatch (body : Call) (handler : Thrown → Call) : Call := fun x => catching handler (body x)

/-- Nobody is there for what is thrown. -/
def close : Option Thrown × Exchange → Exchange
  | (some e, x) => { x with unhandled := x.unhandled ++ [e] }
  | (none, x) => x

def floating (body : Call) : Call := fun x => (none, close (body x))

def afterwards (callback body : Call) : Call := fun x =>
  ((body x).1,
    close (callback { (body x).2 with early := (body x).2.early || (body x).2.headersSent }))

end Call

open Call

def finalError (e : Thrown) : Call := fun x =>
  if x.headersSent then pass x
  else
    match e.present with
    | .ok r => respond r x
    | .error t => throw t x

def endWith (status : Int) (body : String) : Call :=
  if validStatus status then respond (.sent status body) else throw .rangeError

def notFound : Call := fun x => if x.headersSent then pass x else respond .notFound x

/-- How an exception of the layer's call reaches `onReject`. -/
def Mode.settle (body : Call) (onReject : Thrown → Call) : Mode → Call
  | .direct => tryCatch body onReject
  | .promise => floating (tryCatch body onReject)
  | .callback => floating body

def LayerDoes.call (next : Option Thrown → Call) : LayerDoes → Call
  | .responds r => respond r
  | .throws rejects e =>
      (if rejects then Mode.promise else .direct).settle (throw e) (fun t => next (some t))
  | .next mode err => mode.settle (next err) (fun t => next (some t))

def HandlerActs.call (onError : Thrown → Call) : HandlerActs → Call
  | .responds status body => respond (.sent status body)
  | .next (some e) => onError e
  | .next none => notFound

/-- What `dispatchRoute` does with what the handler has returned. -/
def returned (status : Int) (value : Option (Except Thrown String)) : Call := fun x =>
  if x.headersSent then pass x
  else
    match value with
    | none => endWith (if status = 200 then 204 else status) "" x
    | some (.ok text) => endWith status text x
    | some (.error t) => throw t x

def HandlerDoes.call (onError : Thrown → Call) : HandlerDoes → Call
  | .returns status value | .late status value _ => returned status value
  | .throws e => throw e
  | .responds status body => respond (.sent status body)
  -- the `try` of `dispatchRoute` is around the call and its promise only
  | .next .callback err => floating (HandlerActs.call onError (.next err))
  | .next _ err => HandlerActs.call onError (.next err)

def HandlerDoes.callback (onError : Thrown → Call) : HandlerDoes → Call → Call
  | .late _ _ acts => afterwards (acts.call onError)
  | _ => id

def dispatchRoute (router : HttpRouter HandlerDoes) (method path : List Char)
    (onError : Thrown → Call) : Call :=
  match router.match? method path with
  | .error _ => throw .uriError
  | .ok none => notFound
  | .ok (some (handler, _)) => handler.callback onError (tryCatch (handler.call onError) onError)

section Next

variable (router : HttpRouter HandlerDoes) (method path : List Char)

/-- `next` and `handleError` of `runMiddleware`: the chain says what runs, and what runs calls
`next` again, as often as there is fuel. -/
def next : Nat → Option Thrown → Call
  | 0, _ => pass
  | fuel + 1, some e => fun x =>
      match ((x.chain.handleError path).trace.drop x.chain.trace.length).head? with
      | some (.handle l) =>
          l.handle.body.call (next fuel) { x with chain := x.chain.handleError path }
      | _ => finalError e { x with chain := x.chain.handleError path }
  | fuel + 1, none => fun x =>
      match ((x.chain.next path).trace.drop x.chain.trace.length).head? with
      | some (.handle l) => l.handle.body.call (next fuel) { x with chain := x.chain.next path }
      | some .dispatch => floating (dispatchRoute router method path (fun e => next fuel (some e)))
          { x with chain := x.chain.next path }
      | _ => pass { x with chain := x.chain.next path }

end Next

structure HandlerConfig where
  router : HttpRouter HandlerDoes
  middleware : List (MiddlewareLayer LayerDoes)

/-- A request as the client sends it; `body` is what reading it fails with. -/
structure Incoming where
  method : List Char
  url : List Char
  contentLength : Option String
  body : Option Thrown

namespace Incoming

def mayHaveBody (req : Incoming) : Bool :=
  ["GET".toList, "HEAD".toList, "OPTIONS".toList].all (· ≠ req.method) && req.contentLength ≠
    some "0"

end Incoming

/-- A call of `next` takes a layer off, for the normal pass or for the error pass. -/
def runMiddleware (cfg : HandlerConfig) (method path : List Char) : Call :=
  next cfg.router method path (2 * cfg.middleware.length + 2) none

/-- `pathname` is `new URL(url, "http://localhost").pathname`; `none` where the constructor throws.
-/
def makeNodeHandler (pathname : List Char → Option (List Char)) (cfg : HandlerConfig)
    (req : Incoming) : Call :=
  match pathname req.url with
  | none => throw .invalidUrl
  | some path =>
      match if req.mayHaveBody then req.body else none with
      | some e => throw e
      | none =>
          if cfg.middleware.isEmpty then dispatchRoute cfg.router req.method path finalError
          else runMiddleware cfg req.method path

/-- What `node:http` makes of a request: nobody waits for the handler. -/
def serve (pathname : List Char → Option (List Char)) (cfg : HandlerConfig) (req : Incoming) :
    Exchange :=
  close (makeNodeHandler pathname cfg req ⟨.start cfg.middleware, [], false, []⟩)

end ZenZip.Http
