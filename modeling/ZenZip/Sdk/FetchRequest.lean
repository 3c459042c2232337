import ZenZip.Sdk.Guards
import ZenZip.Sdk.ServerResponse

namespace ZenZip

open Lib

/-- Headers as an object has them, each under its name in lower case. -/
abbrev HeaderTable := Table (Prod.fst : HeaderName × String → HeaderName)

/-- A `Request`; the constructor refuses a body for `GET` and `HEAD`. -/
structure FetchRequest where
  method : List Char
  pathname : List Char
  search : List Char
  headers : HeaderTable
  body : Option Bytes
  bodyless : method = "GET".toList ∨ method = "HEAD".toList → body = none

/-- A node:http connection: the host that a client sends its requests to, the headers that it adds
to them, and where it comes from. -/
structure Connection where
  host : String
  added : List (HeaderName × String)
  remoteAddress : String

structure IncomingMessage where
  method : List Char
  url : List Char
  headers : HeaderTable
  remoteAddress : Option String
  body : Bytes

namespace IncomingMessage

def get (req : IncomingMessage) (name : HeaderName) : Option String :=
  (req.headers.get? (lowerCase name)).map Prod.snd

def header (req : IncomingMessage) : Guard.HeaderRequest :=
  ⟨some req.method, fun name => (req.get name).map String.toList⟩

end IncomingMessage

def Connection.headers (c : Connection) : List (HeaderName × String) :=
  ("host".toList, c.host) :: c.added.map (fun e => (lowerCase e.1, e.2))

namespace FetchRequest

def isHead (r : FetchRequest) : Bool := r.method = "HEAD".toList

/-- The shim of an `IncomingMessage`. It has no socket, and no header but the request's own. -/
def shim (r : FetchRequest) : IncomingMessage where
  method := r.method
  url := r.pathname ++ r.search
  headers := r.headers
  remoteAddress := none
  body := if r.method = "GET".toList ∨ r.method = "HEAD".toList then [] else r.body.getD []

/-- The request on a connection. A header that it has itself is left as it is. -/
def sent (r : FetchRequest) (c : Connection) : IncomingMessage where
  method := r.method
  url := r.pathname ++ r.search
  headers := c.headers.foldl Table.insert r.headers
  remoteAddress := some c.remoteAddress
  body := r.body.getD []

/-- The two differ in the headers of the connection and in its address only. -/
theorem sent_eq (r : FetchRequest) (c : Connection) : r.sent c =
    { r.shim with
        headers := c.headers.foldl Table.insert r.headers,
        remoteAddress := some c.remoteAddress } := by
  have hbody : r.body.getD [] = r.shim.body := by
    rw [shim]
    split
    · next h => rw [r.bodyless h, Option.getD_none]
    · rfl
  rw [sent, hbody]
  rfl

variable {r : FetchRequest} {c : Connection} {name : HeaderName}

theorem get?_foldl_insert {t : HeaderTable} {e : HeaderName × String} (h : t.get? name = some e)
    (es : List (HeaderName × String)) : (es.foldl Table.insert t).get? name = some e := by
  induction es generalizing t with
  | nil => exact h
  | cons x es ih =>
      apply ih
      rw [Table.get?_insert, h]
      split
      · rfl
      · rfl

theorem get_sent {v : String} (h : r.shim.get name = some v) : (r.sent c).get name = some v := by
  obtain ⟨e, he, rfl⟩ := Option.map_eq_some_iff.mp h
  have hget := get?_foldl_insert he c.headers
  exact congrArg (Option.map Prod.snd) hget

theorem get_host (c : Connection) (h : r.shim.get "host".toList = none) :
    (r.sent c).get "host".toList = some c.host := by
  have hnone : r.headers.get? (lowerCase "host".toList) = none := Option.map_eq_none_iff.mp h
  have hlower : lowerCase "host".toList = "host".toList := by decide
  have hinsert : (r.headers.insert ("host".toList, c.host)).get? (lowerCase "host".toList) =
      some ("host".toList, c.host) := by
    rw [Table.get?_insert, if_pos hlower, hnone, Option.getD_none]
  have hget := get?_foldl_insert hinsert (c.added.map (fun e => (lowerCase e.1, e.2)))
  exact congrArg (Option.map Prod.snd) hget

end FetchRequest

/-- A request from the origin of the host that it is sent to: `csrf()` takes it on a connection,
and refuses it from the shim. -/
theorem csrf_apart (parse : List Char → Option Guard.Url) {r : FetchRequest} {c : Connection}
    {origin : String}
    (hcrossing : Guard.CsrfOptions.safe {} r.shim.header = false)
    (horigin : r.shim.get "origin".toList = some origin) (hne : origin.toList ≠ [])
    (hown : (parse origin.toList).map (·.host) = some c.host.toList) (hhost : c.host.toList ≠ [])
    (hnone : r.shim.get "host".toList = none) :
    Guard.csrf parse {} (r.sent c).header = none ∧
      Guard.csrf parse {} r.shim.header = some "CSRF: cross-origin request rejected" := by
  have hfrom (req : IncomingMessage) (h : req.get "origin".toList = some origin) :
      (Guard.sentFrom parse req.header).filter (· ≠ []) = some origin.toList := by
    have hget : req.header.get "origin".toList = some origin.toList :=
      congrArg (Option.map String.toList) h
    rw [Guard.sentFrom, hget, Option.some_or]
    exact Option.filter_some_pos (decide_eq_true hne)
  constructor
  · have hsafe : Guard.CsrfOptions.safe {} (r.sent c).header = false := hcrossing
    have hget : (r.sent c).header.get "host".toList = some c.host.toList :=
      congrArg (Option.map String.toList) (FetchRequest.get_host c hnone)
    have hfilter : (some c.host.toList).filter (· ≠ []) = some c.host.toList :=
      Option.filter_some_pos (decide_eq_true hhost)
    rw [Guard.csrf, hsafe, hfrom _ (FetchRequest.get_sent horigin), hget]
    simp only [Bool.false_eq_true, if_false, hfilter]
    exact if_pos hown
  · have hget : r.shim.header.get "host".toList = none := congrArg (Option.map String.toList) hnone
    rw [Guard.csrf, hcrossing, hfrom _ horigin, hget]
    rfl

end ZenZip
