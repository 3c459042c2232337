import ZenZip.Lib.Keyed

namespace ZenZip

open Lib

abbrev Bytes := List UInt8

abbrev HeaderName := List Char

/-- A text or an array of texts. The white space around a text is no part of it. -/
inductive HeaderValue
  | text (v : String)
  | array (vs : List String)

def joinTexts (sep : String) : List String → String
  | [] => ""
  | [v] => v
  | v :: vs => v ++ sep ++ joinTexts sep vs

namespace HeaderValue

def texts : HeaderValue → List String
  | .text v => [v]
  | .array vs => vs

def joined (value : HeaderValue) (sep : String) : String := joinTexts sep value.texts

end HeaderValue

/-- What a handler does with its response. The headers of `writeHead` are the entries of an object;
in a `turn` the handler waits, and the events that are due come up. -/
inductive ResOp
  | status (code : Int)
  | setHeader (name : HeaderName) (value : HeaderValue)
  | writeHead (code : Int) (headers : List (HeaderName × HeaderValue))
  | write (chunk : Bytes)
  | ending (chunk : Option Bytes)
  | turn

structure Head where
  status : Int
  lines : List (HeaderName × String)

structure ServerResponse where
  statusCode : Int
  headers : Table (Prod.fst : HeaderName × HeaderValue → HeaderName)
  head : Option Head
  body : Bytes
  ended : Bool

/-- Names of headers are compared in lower case. -/
def lowerCase (name : HeaderName) : HeaderName := name.map Char.toLower

/-- A header replaces the one of its name. -/
def setEntry {V : Type} (t : Table (Prod.fst : HeaderName × V → HeaderName)) (name : HeaderName)
    (v : V) :
    Table (Prod.fst : HeaderName × V → HeaderName) :=
  t.upsert (lowerCase name, v) (fun e => (e.1, v)) (fun _ => rfl)

namespace ServerResponse

def init : ServerResponse := ⟨200, .empty, none, [], false⟩

/-- No body goes with these. -/
def bodiless (isHead : Bool) (status : Int) : Bool :=
  isHead || status < 200 || status = 204 || status = 304

def linesOf (entries : List (HeaderName × HeaderValue)) : List (HeaderName × String) :=
  entries.flatMap (fun e => e.2.texts.map (Prod.mk e.1))

def sendHead (σ : ServerResponse) (code : Int) (entries : List (HeaderName × HeaderValue)) :
    Option ServerResponse :=
  if 100 ≤ code ∧ code ≤ 999 then
    some { σ with statusCode := code, head := some ⟨code, linesOf entries⟩ }
  else none

/-- A head that is not sent yet goes before the first byte. -/
def flush (σ : ServerResponse) : Option ServerResponse :=
  if σ.head.isSome then some σ else σ.sendHead σ.statusCode σ.headers.rows

def send (isHead : Bool) (σ : ServerResponse) (chunk : Bytes) : ServerResponse :=
  { σ with
    body := if σ.head.any (fun head => bodiless isHead head.status) then σ.body else σ.body ++
      chunk }

/-- None is what Node refuses. -/
def step (isHead : Bool) (σ : ServerResponse) : ResOp → Option ServerResponse
  | .status code => some { σ with statusCode := code }
  | .setHeader name value =>
      if σ.head.isSome then none else some { σ with headers := setEntry σ.headers name value }
  | .writeHead code entries =>
    if σ.head.isSome then none
    -- where no header was set before, the entries are written as they are
    else if σ.headers.rows.isEmpty then σ.sendHead code
      (entries.map (fun e => (lowerCase e.1, e.2)))
    else
      let headers := entries.foldl (fun t e => setEntry t e.1 e.2) σ.headers
      { σ with headers }.sendHead code headers.rows
  | .write chunk => if σ.ended then none else σ.flush.map (fun σ => σ.send isHead chunk)
  | .ending chunk =>
    if σ.ended then (if chunk.isNone then some σ else none)
    else σ.flush.map (fun σ => { σ.send isHead (chunk.getD []) with ended := true })
  | .turn => some σ

end ServerResponse

/-- A value that is set, and what stands between its texts where they become one. -/
structure Setting where
  value : HeaderValue
  sep : String

/-- What a handler has asked for: the status it has set last, before it waits for the end of its
response, and the one that was sent; whether it has set headers one by one, and the headers that it
has set, in order. -/
structure Asked where
  status : Int
  sent : Option Int
  stored : Bool
  settings : List (HeaderName × Setting)
  body : Bytes
  ended : Bool
  settled : Bool

def settingsOf (entries : List (HeaderName × HeaderValue)) : List (HeaderName × Setting) :=
  entries.map (fun e => (lowerCase e.1, ⟨e.2, ","⟩))

namespace Asked

def init : Asked := ⟨200, none, false, [], [], false, false⟩

def flush (a : Asked) : Asked := { a with sent := a.sent.or (some a.status) }

def step (a : Asked) : ResOp → Asked
  | .status code => if a.settled then a else { a with status := code }
  | .setHeader name value =>
      { a with stored := true, settings := a.settings ++ [(lowerCase name, ⟨value, ", "⟩)] }
  | .writeHead code entries =>
      { a with status := code, sent := some code, settings := a.settings ++ settingsOf entries }
  | .write chunk => { a.flush with body := a.body ++ chunk }
  | .ending chunk =>
      if a.ended then a else { a.flush with body := a.body ++ chunk.getD [], ended := true }
  | .turn => { a with settled := a.ended }

def last (a : Asked) (n : HeaderName) : Option Setting := (valuesOf a.settings n).getLast?

/-- The values of a name. A header set one by one replaces the one before it. -/
def values (a : Asked) (n : HeaderName) : List String :=
  if a.stored then (a.last n).toList.flatMap (·.value.texts)
    else (valuesOf a.settings n).flatMap (·.value.texts)

def received (isHead : Bool) (a : Asked) : Bytes :=
  if a.sent.any (ServerResponse.bodiless isHead) then [] else a.body

end Asked

section Entries

variable {V W : Type} {t : Table (Prod.fst : HeaderName × V → HeaderName)}
  {name n : HeaderName} {v : V}

theorem get?_setEntry (t : Table (Prod.fst : HeaderName × V → HeaderName)) (name : HeaderName)
    (v : V) (n : HeaderName) :
    ((setEntry t name v).get? n).map Prod.snd = if n = lowerCase name then some v
      else (t.get? n).map Prod.snd := by
  rw [setEntry, Table.get?_upsert]
  split
  · cases t.get? n with
    | none | some e => rfl
  · rfl

theorem setEntry_ne_nil : (setEntry t name v).rows ≠ [] := by
  intro hnil
  have hget := get?_setEntry t name v (lowerCase name)
  rw [if_pos rfl, Table.get?, hnil] at hget
  cases hget

theorem get?_foldl_setEntry (g : W → V) (entries : List (HeaderName × W))
    (t : Table (Prod.fst : HeaderName × V → HeaderName))
    (n : HeaderName) : ((entries.foldl (fun t e => setEntry t e.1 (g e.2)) t).get? n).map Prod.snd =
      ((valuesOf (entries.map (fun e => (lowerCase e.1, e.2))) n).getLast?.map g).or
        ((t.get? n).map Prod.snd) := by
  induction entries generalizing t with
  | nil => rfl
  | cons e entries ih =>
      rw [List.foldl_cons, ih, get?_setEntry, List.map_cons, ← List.singleton_append,
        valuesOf_append, List.getLast?_append]
      cases (valuesOf (entries.map (fun e => (lowerCase e.1, e.2))) n).getLast? with
      | some w => rfl
      | none =>
          by_cases hn : n = lowerCase e.1
          · simp [valuesOf, hn]
          · simp [valuesOf, hn, Ne.symm hn]

theorem valuesOf_linesOf (entries : List (HeaderName × HeaderValue)) (n : HeaderName) :
    valuesOf (ServerResponse.linesOf entries) n =
    (valuesOf entries n).flatMap HeaderValue.texts := by
  induction entries with
  | nil => rfl
  | cons e entries ih =>
      rw [ServerResponse.linesOf, List.flatMap_cons, valuesOf_append,
        valuesOf_map_mk, ← ServerResponse.linesOf, ih,
        ← List.singleton_append, valuesOf_append, List.flatMap_append]
      by_cases hn : e.1 = n
      · simp [valuesOf, hn]
      · simp [valuesOf, hn]

end Entries

/-- What a connection has sent is what was asked for, and what it keeps until the head goes is what
was set so far. -/
structure Written (isHead : Bool) (σ : ServerResponse) (a : Asked) : Prop where
  sent : σ.head.map Head.status = a.sent
  ended : σ.ended = a.ended
  body : σ.body = a.received isHead
  flushed : a.ended = true → a.sent ≠ none
  settled : a.settled = true → a.ended = true
  status : a.sent = none → σ.statusCode = a.status
  silent : a.sent = none → a.body = []
  kept : a.sent = none → ∀ n, (σ.headers.get? n).map Prod.snd = (a.last n).map Setting.value
  bare : a.sent = none → (σ.headers.rows = [] ↔ a.stored = false)
  fresh : a.sent = none → a.stored = false → a.settings = []
  lines : ∀ head, σ.head = some head → ∀ n, valuesOf head.lines n = a.values n

section Written

variable {isHead : Bool} {σ σ' : ServerResponse} {a : Asked} {code : Int}
  {entries : List (HeaderName × HeaderValue)} {chunk : Bytes}

theorem written_init : Written isHead .init .init where
  sent := rfl
  ended := rfl
  body := rfl
  flushed := fun h => by cases h
  settled := fun h => by cases h
  status := fun _ => rfl
  silent := fun _ => rfl
  kept := fun _ _ => rfl
  bare := fun _ => ⟨fun _ => rfl, fun _ => rfl⟩
  fresh := fun _ _ => rfl
  lines := fun _ h => by cases h

theorem sendHead_eq_some (h : σ.sendHead code entries = some σ') :
    σ' = { σ with statusCode := code, head := some ⟨code, ServerResponse.linesOf entries⟩ } := by
  rw [ServerResponse.sendHead] at h
  split at h
  · exact (Option.some.inj h).symm
  · cases h

theorem valuesOf_settingsOf (entries : List (HeaderName × HeaderValue)) (n : HeaderName) :
    valuesOf (settingsOf entries) n = (valuesOf (entries.map (fun e => (lowerCase e.1, e.2))) n).map
      (fun v => ⟨v, ","⟩) := by
  rw [← valuesOf_map, List.map_map, settingsOf]
  rfl

theorem Asked.sent_flush (a : Asked) : a.flush.sent ≠ none := by
  rw [Asked.flush]
  cases a.sent with
  | none | some code => exact Option.some_ne_none _

theorem Asked.last_setHeader (a : Asked) (name : HeaderName) (value : HeaderValue)
    (n : HeaderName) :
    (a.step (.setHeader name value)).last n = if n = lowerCase name then some ⟨value, ", "⟩
      else a.last n := by
  rw [Asked.last, Asked.step, valuesOf_append, List.getLast?_append, Asked.last]
  by_cases hn : n = lowerCase name
  · simp [valuesOf, hn]
  · simp [valuesOf, hn, Ne.symm hn]

theorem Asked.last_writeHead (a : Asked) (code : Int) (entries : List (HeaderName × HeaderValue))
    (n : HeaderName) :
    (a.step (.writeHead code entries)).last n =
      ((valuesOf (entries.map (fun e => (lowerCase e.1, e.2))) n).getLast?.map
        (fun v => ⟨v, ","⟩)).or (a.last n) := by
  rw [Asked.last, Asked.step, valuesOf_append, List.getLast?_append, valuesOf_settingsOf,
    List.getLast?_map, Asked.last]

namespace Written

theorem head_none (hw : Written isHead σ a) (h : σ.head = none) : a.sent = none := by
  rw [← hw.sent, h]
  rfl

theorem head_some {head : Head} (hw : Written isHead σ a) (h : σ.head = some head) :
    a.sent = some head.status := by
  rw [← hw.sent, h]
  rfl

theorem of_sent {head : Head} (hhead : σ.head = some head) (hsent : a.sent = some head.status)
    (hended : σ.ended = a.ended)
    (hbody : σ.body = a.received isHead) (hsettled : a.settled = true → a.ended = true)
    (hlines : ∀ n, valuesOf head.lines n = a.values n) : Written isHead σ a := by
  have hne : a.sent ≠ none := by
    rw [hsent]
    exact Option.some_ne_none _
  refine ⟨?_, hended, hbody, fun _ => hne, hsettled, (absurd · hne), (absurd · hne), (absurd · hne),
    (absurd · hne), (absurd · hne), ?_⟩
  · rw [hhead, hsent]
    rfl
  · intro head' h
    rw [hhead] at h
    cases h
    exact hlines

theorem body_none (hw : Written isHead σ a) (h : a.sent = none) : σ.body = [] := by
  rw [hw.body, Asked.received, hw.silent h, ite_self]

theorem values_rows (hw : Written isHead σ a) (h : a.sent = none) (n : HeaderName) :
    valuesOf (ServerResponse.linesOf σ.headers.rows) n = a.values n := by
  rw [valuesOf_linesOf, valuesOf_rows, hw.kept h, Asked.values]
  cases hst : a.stored with
  | false => simp [Asked.last, hw.fresh h hst]
  | true =>
      rw [if_pos rfl]
      cases a.last n with
      | none | some s => rfl

theorem flush (hw : Written isHead σ a) (h : σ.flush = some σ') : Written isHead σ' a.flush := by
  rw [ServerResponse.flush] at h
  cases hhead : σ.head with
  | some head =>
      rw [hhead] at h
      obtain rfl := Option.some.inj h
      have hsent := hw.head_some hhead
      exact of_sent hhead (by rw [Asked.flush, hsent]; rfl) hw.ended
        (by rw [hw.body, Asked.received, Asked.received, Asked.flush, hsent]; rfl)
        hw.settled (hw.lines head hhead)
  | none =>
      rw [hhead] at h
      obtain rfl := sendHead_eq_some h
      have hnone := hw.head_none hhead
      refine of_sent rfl ?_ hw.ended ?_ hw.settled (hw.values_rows hnone)
      · rw [Asked.flush, hnone, hw.status hnone]
        rfl
      · refine (hw.body_none hnone).trans ?_
        rw [Asked.received, Asked.flush, hw.silent hnone, ite_self]

theorem send (hw : Written isHead σ a) (hsent : a.sent ≠ none) (chunk : Bytes) :
    Written isHead (σ.send isHead chunk) { a with body := a.body ++ chunk } := by
  cases hhead : σ.head with
  | none => exact absurd (hw.head_none hhead) hsent
  | some head =>
      have hcode := hw.head_some hhead
      refine of_sent hhead hcode hw.ended ?_ hw.settled (hw.lines head hhead)
      rw [ServerResponse.send, hhead, Asked.received, hcode, hw.body, Asked.received, hcode,
        Option.any_some, Option.any_some]
      split <;> rfl

theorem setHeader (hw : Written isHead σ a) (hhead : σ.head = none) (name : HeaderName)
    (value : HeaderValue) :
    Written isHead { σ with headers := setEntry σ.headers name value }
      (a.step (.setHeader name value)) where
  sent := hw.sent
  ended := hw.ended
  body := hw.body
  flushed := hw.flushed
  settled := hw.settled
  status := hw.status
  silent := hw.silent
  kept := by
    intro h n
    rw [get?_setEntry, Asked.last_setHeader, hw.kept h]
    split <;> rfl
  bare := fun _ => ⟨fun h => absurd h setEntry_ne_nil, fun h => by cases h⟩
  fresh := fun _ h => by cases h
  lines := fun head h => by
    rw [hhead] at h
    cases h

theorem writeHead (hw : Written isHead σ a)
    (h : σ.step isHead (.writeHead code entries) = some σ') :
    Written isHead σ' (a.step (.writeHead code entries)) := by
  rw [ServerResponse.step] at h
  cases hhead : σ.head with
  | some head =>
      rw [hhead] at h
      cases h
  | none =>
      rw [hhead] at h
      have hnone := hw.head_none hhead
      have hbody : σ.body = (a.step (.writeHead code entries)).received isHead := by
        rw [hw.body_none hnone, Asked.received, Asked.step, hw.silent hnone, ite_self]
      cases hst : a.stored with
      | false =>
          have hrows := (hw.bare hnone).mpr hst
          rw [hrows] at h
          obtain rfl := sendHead_eq_some h
          refine of_sent rfl rfl hw.ended hbody hw.settled (fun n => ?_)
          have hfalse : (a.step (.writeHead code entries)).stored = false := hst
          rw [valuesOf_linesOf, Asked.values, hfalse, Asked.step, hw.fresh hnone hst,
            List.nil_append, valuesOf_settingsOf, List.flatMap_map]
          rfl
      | true =>
          have hrows : σ.headers.rows.isEmpty = false := by
            rw [List.isEmpty_eq_false_iff]
            intro hnil
            rw [(hw.bare hnone).mp hnil] at hst
            cases hst
          simp only [Option.isSome_none, Bool.false_eq_true, if_false, hrows] at h
          obtain rfl := sendHead_eq_some h
          refine of_sent rfl rfl hw.ended hbody hw.settled (fun n => ?_)
          have htrue : (a.step (.writeHead code entries)).stored = true := hst
          rw [valuesOf_linesOf, valuesOf_rows, get?_foldl_setEntry (fun v : HeaderValue => v),
            hw.kept hnone, Asked.values, htrue, if_pos rfl,
            Asked.last_writeHead]
          cases (valuesOf (entries.map (fun e => (lowerCase e.1, e.2))) n).getLast? with
          | some v => rfl
          | none => cases a.last n <;> rfl

theorem step (hw : Written isHead σ a) {op : ResOp} (h : σ.step isHead op = some σ') :
    Written isHead σ' (a.step op) := by
  cases op with
  | status code =>
      obtain rfl := Option.some.inj h
      rw [Asked.step]
      split
      · next hs =>
          cases hhead : σ.head with
          | none => exact absurd (hw.head_none hhead) (hw.flushed (hw.settled hs))
          | some head =>
              exact of_sent rfl (hw.head_some hhead) hw.ended hw.body hw.settled
                (hw.lines head hhead)
      · exact ⟨hw.sent, hw.ended, hw.body, hw.flushed, hw.settled, fun _ => rfl, hw.silent, hw.kept,
          hw.bare, hw.fresh, hw.lines⟩
  | setHeader name value =>
      rw [ServerResponse.step] at h
      split at h
      · cases h
      · next hhead =>
          obtain rfl := Option.some.inj h
          exact hw.setHeader (Option.not_isSome_iff_eq_none.mp hhead) name value
  | writeHead code entries => exact hw.writeHead h
  | write chunk =>
      rw [ServerResponse.step] at h
      split at h
      · cases h
      · obtain ⟨σ₁, hflush, rfl⟩ := Option.map_eq_some_iff.mp h
        exact (hw.flush hflush).send a.sent_flush chunk
  | ending chunk =>
      rw [ServerResponse.step] at h
      rw [Asked.step, ← hw.ended]
      split at h
      · next hended =>
          split at h
          · obtain rfl := Option.some.inj h
            rw [if_pos hended]
            exact hw
          · cases h
      · next hended =>
          obtain ⟨σ₁, hflush, rfl⟩ := Option.map_eq_some_iff.mp h
          rw [if_neg hended]
          have hw₁ := (hw.flush hflush).send a.sent_flush (chunk.getD [])
          exact ⟨hw₁.sent, rfl, hw₁.body, fun _ => a.sent_flush, fun _ => rfl, hw₁.status,
            hw₁.silent, hw₁.kept, hw₁.bare,
            hw₁.fresh, hw₁.lines⟩
  | turn =>
      obtain rfl := Option.some.inj h
      exact ⟨hw.sent, hw.ended, hw.body, hw.flushed, fun h => h, hw.status, hw.silent, hw.kept,
        hw.bare, hw.fresh, hw.lines⟩

end Written

end Written

end ZenZip
