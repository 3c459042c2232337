import ZenZip.Sdk.FetchRequest

namespace ZenZip

open Lib

/-- A response as a client has it: its header lines come in any order. -/
structure Received where
  status : Int
  lines : List (HeaderName × String)
  body : Bytes

def Received.Same : Option Received → Option Received → Prop
  | some r, some r' => r.status = r'.status ∧ r.lines.Perm r'.lines ∧ r.body = r'.body
  | none, none => True
  | _, _ => False

def ServerResponse.received (σ : ServerResponse) : Option Received :=
  if σ.ended then σ.head.map (fun head => ⟨head.status, head.lines, σ.body⟩) else none

/-- The statuses that no body goes with. -/
def nullBodyStatus : List Int := [101, 103, 204, 205, 304]

/-- The constructor `Response`, or its exception. Names that the runtime forbids are left out
without one. -/
def newResponse (forbidden : HeaderName → Bool) (body : Option Bytes) (status : Int)
    (headers : List (HeaderName × String)) : Option Received :=
  if (200 ≤ status ∧ status ≤ 599) ∧ ¬ (body.isSome ∧ status ∈ nullBodyStatus) then
    some ⟨status, headers.filter (fun e => !forbidden e.1), body.getD []⟩
  else none

/-- The shim that a handler is given in place of the response of a connection. -/
structure FetchShim where
  statusCode : Int
  headersSent : Bool
  outHeaders : Table (Prod.fst : HeaderName × String → HeaderName)
  chunks : List Bytes
  ended : Bool
  settled : Bool
  resolved : Option Received

namespace FetchShim

def init : FetchShim := ⟨200, false, .empty, [], false, false, none⟩

def respond (forbidden : HeaderName → Bool) (chunks : List Bytes) (statusCode : Int)
    (outHeaders : List (HeaderName × String)) : Option Received :=
  let body := chunks.flatten
  let nullBody := body.length = 0 ∨ statusCode ∈ [204, 205, 304]
  newResponse forbidden (if nullBody then none else some body) statusCode outHeaders

def finalize (forbidden : HeaderName → Bool) (s : FetchShim) : FetchShim :=
  if s.settled then s
  else
    { s with
      settled := true, headersSent := true,
      resolved := respond forbidden s.chunks s.statusCode s.outHeaders.rows }

/-- The event `finish` comes once the handler waits. -/
def step (forbidden : HeaderName → Bool) (s : FetchShim) : ResOp → FetchShim
  | .status code => { s with statusCode := code }
  | .setHeader name value => { s with outHeaders := setEntry s.outHeaders name (value.joined ", ") }
  | .writeHead code entries =>
    { s with
      statusCode := code
      outHeaders := entries.foldl (fun t e => setEntry t e.1 (e.2.joined ",")) s.outHeaders
      headersSent := true }
  | .write chunk => { s with headersSent := true, chunks := s.chunks ++ [chunk] }
  | .ending chunk =>
    if s.ended then { s with headersSent := true }
    else { s with headersSent := true, chunks := s.chunks ++ chunk.toList, ended := true }
  | .turn => if s.ended then s.finalize forbidden else s

end FetchShim

structure ResView where
  statusCode : Int
  headersSent : Bool
  getHeader : HeaderName → Option HeaderValue

def ServerResponse.view (σ : ServerResponse) : ResView where
  statusCode := σ.statusCode
  headersSent := σ.head.isSome
  getHeader name := (σ.headers.get? (lowerCase name)).map Prod.snd

def FetchShim.view (s : FetchShim) : ResView where
  statusCode := s.statusCode
  headersSent := s.headersSent
  getHeader name := (s.outHeaders.get? (lowerCase name)).map (fun e => .text e.2)

/-- What is done with a response, as what comes next by what was read of it so far. -/
abbrev ResHandler := List ResView → Option ResOp

abbrev AppHandler := IncomingMessage → ResHandler

def ResHandler.Performs {S : Type} (handler : ResHandler) (step : S → ResOp → Option S)
    (view : S → ResView) :
    List ResView → S → List ResOp → S → Prop
  | _, s, [], s' => s = s'
  | seen, s, op :: ops, s' => handler (seen ++ [view s]) = some op ∧
      ∃ s₁, step s op = some s₁ ∧ ResHandler.Performs handler step view (seen ++ [view s]) s₁ ops s'

/-- Node accepts the operations in this order. -/
def ServerResponse.run (isHead : Bool) (ops : List ResOp) (σ : ServerResponse) :
    Option ServerResponse :=
  ops.foldlM (ServerResponse.step isHead) σ

structure Collected (forbidden : HeaderName → Bool) (σ : ServerResponse) (s : FetchShim)
    (a : Asked) : Prop where
  statusCode : s.statusCode = σ.statusCode
  headersSent : s.headersSent = σ.head.isSome
  status : a.settled = false → s.statusCode = a.status
  kept : ∀ n, (s.outHeaders.get? n).map Prod.snd =
    (a.last n).map (fun setting => setting.value.joined setting.sep)
  body : s.chunks.flatten = a.body
  ended : s.ended = a.ended
  settled : s.settled = a.settled
  pending : a.settled = false → s.resolved = none
  resolved : a.settled = true → s.resolved =
    FetchShim.respond forbidden s.chunks a.status s.outHeaders.rows

section Collected

variable {forbidden : HeaderName → Bool} {isHead : Bool} {σ σ' : ServerResponse} {s : FetchShim}
  {a : Asked} {chunk : Bytes}

theorem collected_init : Collected forbidden .init .init .init where
  statusCode := rfl
  headersSent := rfl
  status := fun _ => rfl
  kept := fun _ => rfl
  body := rfl
  ended := rfl
  settled := rfl
  pending := fun _ => rfl
  resolved := fun h => by cases h

theorem head_flush (h : σ.flush = some σ') :
    σ'.statusCode = σ.statusCode ∧ σ'.head.isSome = true := by
  rw [ServerResponse.flush] at h
  split at h
  · next hhead =>
      obtain rfl := Option.some.inj h
      exact ⟨rfl, hhead⟩
  · obtain rfl := sendHead_eq_some h
    exact ⟨rfl, rfl⟩

theorem head_writeHead {code : Int} {entries : List (HeaderName × HeaderValue)}
    (h : σ.step isHead (.writeHead code entries) = some σ') :
    σ.head = none ∧ σ'.statusCode = code ∧ σ'.head.isSome = true := by
  rw [ServerResponse.step] at h
  split at h
  · cases h
  · next hhead =>
      refine ⟨Option.not_isSome_iff_eq_none.mp hhead, ?_⟩
      split at h
      · obtain rfl := sendHead_eq_some h
        exact ⟨rfl, rfl⟩
      · obtain rfl := sendHead_eq_some h
        exact ⟨rfl, rfl⟩

theorem Asked.turn_eq (h : a.settled = a.ended) : a.step .turn = a := by
  cases a
  cases h
  rfl

theorem Written.running (hw : Written isHead σ a) (hhead : σ.head = none) : a.settled = false := by
  rw [Bool.eq_false_iff]
  intro hs
  exact hw.flushed (hw.settled hs) (hw.head_none hhead)

theorem Written.unsettled (hw : Written isHead σ a) (hended : ¬ σ.ended = true) :
    a.settled = false := by
  rw [Bool.eq_false_iff]
  intro hs
  exact hended (hw.ended.trans (hw.settled hs))

namespace Collected

theorem of_running (hs : a.settled = false) (hcode : s.statusCode = σ.statusCode)
    (hsent : s.headersSent = σ.head.isSome) (hstatus : s.statusCode = a.status)
    (hkept : ∀ n, (s.outHeaders.get? n).map Prod.snd =
      (a.last n).map (fun setting => setting.value.joined setting.sep))
    (hbody : s.chunks.flatten = a.body) (hended : s.ended = a.ended) (hsettled : s.settled = false)
    (hpending : s.resolved = none) : Collected forbidden σ s a := by
  refine ⟨hcode, hsent, fun _ => hstatus, hkept, hbody, hended, hsettled.trans hs.symm,
    fun _ => hpending, fun h => ?_⟩
  rw [hs] at h
  cases h

theorem setHeader (hc : Collected forbidden σ s a) (hs : a.settled = false) (name : HeaderName)
    (value : HeaderValue) :
    Collected forbidden { σ with headers := setEntry σ.headers name value }
      (s.step forbidden (.setHeader name value))
      (a.step (.setHeader name value)) := by
  refine of_running hs hc.statusCode hc.headersSent (hc.status hs) ?_ hc.body hc.ended
    (hc.settled.trans hs) (hc.pending hs)
  intro n
  rw [FetchShim.step, get?_setEntry, Asked.last_setHeader, hc.kept]
  split <;> rfl

theorem writeHead (hc : Collected forbidden σ s a) (hs : a.settled = false) {code : Int}
    (hcode : σ'.statusCode = code) (hsent : σ'.head.isSome = true)
    (entries : List (HeaderName × HeaderValue)) :
    Collected forbidden σ' (s.step forbidden (.writeHead code entries))
      (a.step (.writeHead code entries)) := by
  refine of_running hs hcode.symm hsent.symm rfl ?_ hc.body hc.ended (hc.settled.trans hs)
    (hc.pending hs)
  intro n
  have hout : (s.step forbidden (.writeHead code entries)).outHeaders =
      entries.foldl (fun t e => setEntry t e.1 (e.2.joined ",")) s.outHeaders := rfl
  rw [hout, get?_foldl_setEntry (fun v : HeaderValue => v.joined ","), Asked.last_writeHead,
    hc.kept, Option.map_or, Option.map_map]
  rfl

theorem bytes (hc : Collected forbidden σ s a) (hs : a.settled = false)
    (hcode : σ'.statusCode = σ.statusCode)
    (hsent : σ'.head.isSome = true) {chunks : List Bytes} {body : Bytes}
    (hbody : chunks.flatten = a.body ++ body) {e e' : Bool} (he : e = e') :
    Collected forbidden σ' { s with headersSent := true, chunks, ended := e }
      { a.flush with body := a.body ++ body, ended := e' } :=
  of_running hs (hc.statusCode.trans hcode.symm) hsent.symm (hc.status hs) hc.kept hbody he
    (hc.settled.trans hs) (hc.pending hs)

theorem status_step (hc : Collected forbidden σ s a) (code : Int) :
    Collected forbidden { σ with statusCode := code } (s.step forbidden (.status code))
      (a.step (.status code)) := by
  rw [Asked.step]
  split
  · next hs =>
      refine ⟨rfl, hc.headersSent, fun h => ?_, hc.kept, hc.body, hc.ended, hc.settled, hc.pending,
        hc.resolved⟩
      rw [hs] at h
      cases h
  · next hs =>
      exact ⟨rfl, hc.headersSent, fun _ => rfl, hc.kept, hc.body, hc.ended, hc.settled, hc.pending,
        fun h => absurd h hs⟩

theorem sent_of_ended (hc : Collected forbidden σ s a) (hw : Written isHead σ a)
    (hend : a.ended = true) :
    s.headersSent = true := by
  rw [hc.headersSent]
  cases hhead : σ.head with
  | none => exact absurd (hw.head_none hhead) (hw.flushed hend)
  | some head => rfl

theorem turn (hc : Collected forbidden σ s a) (hw : Written isHead σ a) :
    Collected forbidden σ (s.step forbidden .turn) (a.step .turn) := by
  rw [FetchShim.step, hc.ended]
  cases hend : a.ended with
  | false =>
      have hs : a.settled = false := by
        rw [Bool.eq_false_iff]
        intro hs
        rw [hw.settled hs] at hend
        cases hend
      rw [if_neg Bool.false_ne_true, Asked.turn_eq (hs.trans hend.symm)]
      exact hc
  | true =>
      rw [if_pos rfl, FetchShim.finalize, hc.settled]
      cases hs : a.settled with
      | true =>
          rw [if_pos rfl, Asked.turn_eq (hs.trans hend.symm)]
          exact hc
      | false =>
          rw [if_neg Bool.false_ne_true, Asked.step, hend]
          refine ⟨hc.statusCode, ?_, fun h => (by cases h), hc.kept, hc.body,
            hc.ended.trans hend, rfl,
            fun h => (by cases h), fun _ => ?_⟩
          · rw [← hc.headersSent, hc.sent_of_ended hw hend]
          · rw [hc.status hs]

theorem step (hc : Collected forbidden σ s a) (hw : Written isHead σ a) {op : ResOp}
    (h : σ.step isHead op = some σ') :
    Collected forbidden σ' (s.step forbidden op) (a.step op) := by
  cases op with
  | status code =>
      obtain rfl := Option.some.inj h
      exact hc.status_step code
  | setHeader name value =>
      rw [ServerResponse.step] at h
      split at h
      · cases h
      · next hhead =>
          obtain rfl := Option.some.inj h
          exact hc.setHeader (hw.running (Option.not_isSome_iff_eq_none.mp hhead)) name value
  | writeHead code entries =>
      obtain ⟨hhead, hcode, hsent⟩ := head_writeHead h
      exact hc.writeHead (hw.running hhead) hcode hsent entries
  | write chunk =>
      rw [ServerResponse.step] at h
      split at h
      · cases h
      · next hended =>
          obtain ⟨σ₁, hflush, rfl⟩ := Option.map_eq_some_iff.mp h
          obtain ⟨hcode, hsent⟩ := head_flush hflush
          have hcode' : (σ₁.send isHead chunk).statusCode = σ.statusCode := hcode
          have hsent' : (σ₁.send isHead chunk).head.isSome = true := hsent
          refine hc.bytes (hw.unsettled hended) hcode' hsent' ?_ hc.ended
          rw [List.flatten_append, hc.body, List.flatten_singleton]
  | ending chunk =>
      rw [ServerResponse.step] at h
      have hboth : s.ended = σ.ended := hc.ended.trans hw.ended.symm
      rw [FetchShim.step, Asked.step, ← hw.ended]
      split at h
      · next hended =>
          rw [if_pos (hboth.trans hended), if_pos hended]
          split at h
          · obtain rfl := Option.some.inj h
            have hsame : { s with headersSent := true } = s := by
              rw [← hc.sent_of_ended hw (hw.ended.symm.trans hended)]
            rw [hsame]
            exact hc
          · cases h
      · next hended =>
          obtain ⟨σ₁, hflush, rfl⟩ := Option.map_eq_some_iff.mp h
          obtain ⟨hcode, hsent⟩ := head_flush hflush
          rw [if_neg (fun h => hended (hboth.symm.trans h)), if_neg hended]
          have hcode' : ServerResponse.statusCode
            { σ₁.send isHead (chunk.getD []) with ended := true } =
              σ.statusCode := hcode
          have hsent' :
            (ServerResponse.head { σ₁.send isHead (chunk.getD []) with ended := true }).isSome =
              true :=
            hsent
          refine hc.bytes (hw.unsettled hended) hcode' hsent' ?_ rfl
          rw [List.flatten_append, hc.body]
          cases chunk with
          | none => rfl
          | some chunk => exact congrArg (a.body ++ ·) (List.append_nil chunk)
  | turn =>
      obtain rfl := Option.some.inj h
      exact hc.turn hw

/-- What Node accepts is collected. -/
theorem run (hc : Collected forbidden σ s a) (hw : Written isHead σ a) {ops : List ResOp}
    (h : σ.run isHead ops = some σ') :
    Collected forbidden σ' (ops.foldl (FetchShim.step forbidden) s) (ops.foldl Asked.step a) ∧
      Written isHead σ' (ops.foldl Asked.step a) := by
  induction ops generalizing σ s a with
  | nil =>
      cases h
      exact ⟨hc, hw⟩
  | cons op ops ih =>
      rw [ServerResponse.run, List.foldlM_cons, Option.bind_eq_bind, Option.bind_eq_some_iff] at h
      obtain ⟨σ₁, hstep, hrest⟩ := h
      exact ih (hc.step hw hstep) (hw.step hstep) hrest

end Collected

section Performs

variable {handler : ResHandler} {seen : List ResView} {ops : List ResOp}

theorem run_of_performs
    (h : handler.Performs (ServerResponse.step isHead) ServerResponse.view seen σ ops σ') :
    σ.run isHead ops = some σ' := by
  induction ops generalizing seen σ with
  | nil =>
      cases h
      rfl
  | cons op ops ih =>
      obtain ⟨_, σ₁, hstep, hrest⟩ := h
      rw [ServerResponse.run, List.foldlM_cons, hstep]
      exact ih hrest

theorem foldl_of_performs {s' : FetchShim}
    (h : handler.Performs (fun s op => some (s.step forbidden op)) FetchShim.view seen s ops s') :
    ops.foldl (FetchShim.step forbidden) s = s' := by
  induction ops generalizing seen s with
  | nil =>
      cases h
      rfl
  | cons op ops ih =>
      obtain ⟨_, s₁, hstep, hrest⟩ := h
      cases hstep
      exact ih hrest

def ResView.flags (v : ResView) : Int × Bool := (v.statusCode, v.headersSent)

/-- A handler that reads no headers of its response does with the shim what it does with the
connection. -/
theorem Collected.performs (hc : Collected forbidden σ s a) (hw : Written isHead σ a)
    {seen' : List ResView}
    (hreads : ∀ vs vs' : List ResView, vs.map ResView.flags = vs'.map ResView.flags →
    handler vs = handler vs')
    (hseen : seen.map ResView.flags = seen'.map ResView.flags)
    (h : handler.Performs (ServerResponse.step isHead) ServerResponse.view seen σ ops σ') :
    ∃ s', handler.Performs
      (fun s op => some (s.step forbidden op)) FetchShim.view seen' s ops s' := by
  induction ops generalizing seen seen' σ s a with
  | nil => exact ⟨s, rfl⟩
  | cons op ops ih =>
      obtain ⟨hop, σ₁, hstep, hrest⟩ := h
      have hview : s.view.flags = σ.view.flags := Prod.ext hc.statusCode hc.headersSent
      have hsame : (seen ++ [σ.view]).map ResView.flags =
        (seen' ++ [s.view]).map ResView.flags := by
        rw [List.map_append, List.map_append, hseen, List.map_singleton, List.map_singleton, hview]
      obtain ⟨s', hperf⟩ := ih (hc.step hw hstep) (hw.step hstep) hsame hrest
      exact ⟨s', (hreads _ _ hsame).symm.trans hop, _, rfl, hperf⟩

end Performs

end Collected

def Asked.resolves (b : Asked) : Bool := b.ended && 200 ≤ b.status && b.status ≤ 599

/-- When the response of a shim that `b` was asked of is the one of a connection that `a` was asked
of: the status last set is the one that was sent, what is left of the bytes is what was taken, and
each header that is set is one line. -/
structure Plain (forbidden : HeaderName → Bool) (isHead : Bool) (a b : Asked) : Prop where
  status : a.sent = some b.status
  body : (if b.status ∈ [204, 205, 304] then [] else b.body) = a.received isHead
  headers : ∀ n, a.values n =
    if forbidden n then []
      else ((b.last n).map (fun setting => setting.value.joined setting.sep)).toList

/-- Both answer, and alike, or neither does. -/
structure Alike (forbidden : HeaderName → Bool) (isHead : Bool) (a b : Asked) : Prop where
  answers : a.ended = b.resolves
  plain : a.ended = true → Plain forbidden isHead a b

section Same

variable {forbidden : HeaderName → Bool} {isHead : Bool} {σ σ' : ServerResponse} {s : FetchShim}
  {a b : Asked}

theorem respond_eq (chunks : List Bytes) (status : Int) (headers : List (HeaderName × String)) :
    FetchShim.respond forbidden chunks status headers =
      if 200 ≤ status ∧ status ≤ 599 then
        some ⟨status, headers.filter (fun e => !forbidden e.1),
          if chunks.flatten = [] ∨ status ∈ [204, 205, 304] then [] else chunks.flatten⟩
      else none := by
  rw [FetchShim.respond, newResponse]
  by_cases hfinal : 200 ≤ status ∧ status ≤ 599
  · by_cases hnull : chunks.flatten = [] ∨ status ∈ [204, 205, 304]
    · simp only [List.length_eq_zero_iff, if_pos hnull, if_pos hfinal]
      simp [hfinal]
    · simp only [List.length_eq_zero_iff, if_neg hnull, if_pos hfinal]
      have hnot : status ∉ nullBodyStatus := by
        simp only [not_or, List.mem_cons, List.not_mem_nil, or_false] at hnull
        simp only [nullBodyStatus, List.mem_cons, List.not_mem_nil, or_false, not_or]
        omega
      simp [hfinal, hnot]
  · simp [hfinal]

theorem valuesOf_filter (headers : List (HeaderName × String)) (n : HeaderName) :
    valuesOf (headers.filter (fun e => !forbidden e.1)) n = if forbidden n then []
      else valuesOf headers n := by
  have hcomm : (headers.filter (fun e => !forbidden e.1)).filter (fun e => e.1 = n) =
      if forbidden n then [] else headers.filter (fun e => e.1 = n) := by
    rw [List.filter_filter]
    split
    · next hf =>
        refine List.filter_eq_nil_iff.mpr (fun e _ he => ?_)
        simp only [Bool.and_eq_true, decide_eq_true_eq, Bool.not_eq_true'] at he
        rw [he.1, hf] at he
        cases he.2
    · next hf =>
        refine List.filter_congr (fun e _ => ?_)
        by_cases he : e.1 = n
        · simp [he, hf]
        · simp [he]
  rw [valuesOf, hcomm, valuesOf]
  split <;> rfl

theorem lines_perm_iff (hc : Collected forbidden σ' s b) (hw : Written isHead σ a) {head : Head}
    (hhead : σ.head = some head) :
    (s.outHeaders.rows.filter (fun e => !forbidden e.1)).Perm head.lines ↔ ∀ n, a.values n =
      if forbidden n then []
        else ((b.last n).map (fun setting => setting.value.joined setting.sep)).toList := by
  rw [perm_iff_valuesOf]
  apply forall_congr'
  intro n
  rw [valuesOf_filter, valuesOf_rows, hc.kept, hw.lines head hhead]
  split
  · rw [List.nil_perm]
  · cases b.last n with
    | none => rw [Option.map_none, Option.toList_none, List.nil_perm]
    | some setting => rw [Option.map_some, Option.toList_some, List.singleton_perm, eq_comm]

theorem resolves_iff {b : Asked} : b.resolves = true ↔
    b.ended = true ∧ 200 ≤ b.status ∧ b.status ≤ 599 := by
  rw [Asked.resolves, Bool.and_eq_true, Bool.and_eq_true, decide_eq_true_iff, decide_eq_true_iff,
    and_assoc]

theorem resolved_turn (hc : Collected forbidden σ' s b) (hw : Written isHead σ' b) :
    (s.step forbidden .turn).resolved =
      if b.resolves then some ⟨b.status, s.outHeaders.rows.filter (fun e => !forbidden e.1),
        if b.status ∈ [204, 205, 304] then [] else b.body⟩
      else none := by
  have hlast := hc.turn hw
  have hkeep : (s.step forbidden .turn).chunks = s.chunks ∧
    (s.step forbidden .turn).outHeaders = s.outHeaders := by
    rw [FetchShim.step]
    split
    · rw [FetchShim.finalize]
      split <;> exact ⟨rfl, rfl⟩
    · exact ⟨rfl, rfl⟩
  cases hend : b.ended with
  | false =>
      rw [hlast.pending hend, Asked.resolves, hend]
      rfl
  | true =>
      have hstatus : (b.step .turn).status = b.status := rfl
      rw [hlast.resolved hend, hkeep.1, hkeep.2, hstatus, respond_eq, hc.body]
      by_cases hfinal : 200 ≤ b.status ∧ b.status ≤ 599
      · rw [if_pos hfinal, if_pos (resolves_iff.mpr ⟨hend, hfinal⟩)]
        by_cases hbody : b.body = []
        · simp [hbody]
        · simp [hbody]
      · rw [if_neg hfinal, if_neg (fun h => hfinal (resolves_iff.mp h).2)]

theorem same_iff (hc : Collected forbidden σ' s b) (hb : Written isHead σ' b)
    (hw : Written isHead σ a) :
    Received.Same (s.step forbidden .turn).resolved σ.received ↔ Alike forbidden isHead a b := by
  rw [resolved_turn hc hb, ServerResponse.received, hw.ended]
  cases hend : a.ended with
  | false =>
      rw [if_neg Bool.false_ne_true]
      cases hres : b.resolves with
      | false =>
          rw [if_neg Bool.false_ne_true]
          exact iff_of_true trivial
            ⟨by rw [hend, hres], fun h => absurd (hend.symm.trans h) Bool.false_ne_true⟩
      | true =>
          rw [if_pos rfl]
          refine iff_of_false (fun h => h) (fun h => ?_)
          rw [h.answers, hres] at hend
          cases hend
  | true =>
      rw [if_pos rfl]
      cases hhead : σ.head with
      | none => exact absurd (hw.head_none hhead) (hw.flushed hend)
      | some head =>
          have hcode := hw.head_some hhead
          rw [Option.map_some]
          cases hres : b.resolves with
          | false =>
              rw [if_neg Bool.false_ne_true]
              refine iff_of_false (fun h => h) (fun h => ?_)
              rw [h.answers, hres] at hend
              cases hend
          | true =>
              rw [if_pos rfl, Received.Same, lines_perm_iff hc hw hhead, hw.body]
              constructor
              · rintro ⟨hstatus, hlines, hbody⟩
                exact ⟨hend.trans hres.symm,
                  fun _ => ⟨hcode.trans (congrArg some hstatus.symm), hbody, hlines⟩⟩
              · intro h
                obtain ⟨hstatus, hbody, hlines⟩ := h.plain hend
                exact ⟨Option.some.inj (hstatus.symm.trans hcode), hlines, hbody⟩

/-- What the handler of `makeFetchHandler` resolves with is what the handler of `makeNodeHandler`
writes if and only if what the app asks for on the request of the shim is alike to what it asks for
on the request of the connection. -/
theorem fetch_agrees_iff (forbidden : HeaderName → Bool) (app : AppHandler) (r : FetchRequest)
    (c : Connection)
    {ops ops' : List ResOp} {σ σ' : ServerResponse} {s : FetchShim}
    (hnode : (app (r.sent c)).Performs (ServerResponse.step r.isHead) ServerResponse.view []
      .init ops σ)
    (hshim : (app r.shim).Performs (fun s op => some (s.step forbidden op)) FetchShim.view []
      .init ops' s)
    (hok : ServerResponse.run r.isHead ops' .init = some σ') :
    Received.Same (s.step forbidden .turn).resolved σ.received ↔
      Alike forbidden r.isHead (ops.foldl Asked.step .init) (ops'.foldl Asked.step .init) := by
  have hinit : Collected forbidden .init .init .init := collected_init
  obtain ⟨_, hw⟩ := hinit.run written_init (run_of_performs hnode)
  obtain ⟨hc, hb⟩ := hinit.run written_init hok
  rw [foldl_of_performs hshim] at hc
  exact same_iff hc hb hw

/-- An app that reads of its request what the two have in common, and no headers of its response,
does the same on both sides. -/
theorem performs_shim (forbidden : HeaderName → Bool) {app : AppHandler} {r : FetchRequest}
    {c : Connection}
    {ops : List ResOp} {σ : ServerResponse} (happ : app r.shim = app (r.sent c))
    (hreads : ∀ vs vs' : List ResView, vs.map ResView.flags = vs'.map ResView.flags →
      app r.shim vs = app r.shim vs')
    (hnode : (app (r.sent c)).Performs (ServerResponse.step r.isHead) ServerResponse.view [] .init
      ops σ) :
    ∃ s, (app r.shim).Performs (fun s op => some (s.step forbidden op)) FetchShim.view
      [] .init ops s := by
  rw [← happ] at hnode
  exact collected_init.performs written_init hreads rfl hnode

/-- Where the same is asked of both: the status is one that a `Response` takes and is left alone
once the head is sent, no byte is given where either side drops it, and a header that is set is one
line. -/
theorem alike_self_iff (a : Asked) : Alike forbidden isHead a a ↔ (a.ended = true →
    a.sent = some a.status ∧ (200 ≤ a.status ∧ a.status ≤ 599) ∧
    (a.body = [] ∨ if isHead then a.status ∈ [204, 205, 304] else a.status ≠ 205) ∧
    ∀ n, a.values n =
      if forbidden n then []
        else ((a.last n).map (fun setting => setting.value.joined setting.sep)).toList) := by
  have hbody (hsent : a.sent = some a.status) (hfinal : 200 ≤ a.status) :
      (if a.status ∈ [204, 205, 304] then [] else a.body) = a.received isHead ↔
        a.body = [] ∨ if isHead then a.status ∈ [204, 205, 304] else a.status ≠ 205 := by
    rw [Asked.received, hsent, Option.any_some, ServerResponse.bodiless]
    have hlow : ¬ a.status < 200 := by omega
    by_cases hbody : a.body = []
    · simp [hbody]
    · cases isHead with
      | true =>
          simp [hbody]
          tauto
      | false =>
          by_cases hnull : a.status = 204 ∨ a.status = 304
          · have h205 : a.status ≠ 205 := by omega
            simp [hbody, hnull, h205]
            tauto
          · obtain ⟨h204, h304⟩ := not_or.mp hnull
            simp [hbody, hlow, h204, h304]
  constructor
  · intro h hend
    obtain ⟨hstatus, hb, hlines⟩ := h.plain hend
    obtain ⟨_, hfinal⟩ := resolves_iff.mp (h.answers.symm.trans hend)
    exact ⟨hstatus, hfinal, (hbody hstatus hfinal.1).mp hb, hlines⟩
  · intro h
    constructor
    · cases hend : a.ended with
      | false => rw [Asked.resolves, hend, Bool.false_and, Bool.false_and]
      | true => exact (resolves_iff.mpr ⟨hend, (h hend).2.1⟩).symm
    · intro hend
      obtain ⟨hstatus, hfinal, hb, hlines⟩ := h hend
      exact ⟨hstatus, (hbody hstatus hfinal.1).mpr hb, hlines⟩

def ResHandler.ofOps (ops : List ResOp) : ResHandler := fun seen => ops[seen.length - 1]?

def created : List ResOp :=
  [.status 201, .setHeader ['E', 'T', 'a', 'g'] (.text "v1"), .write [104], .ending (some [105])]

def createdApp : AppHandler := fun _ => .ofOps created

def homeRequest : FetchRequest := ⟨"GET".toList, ['/'], [], .empty, none, fun _ => rfl⟩

def loopback : Connection := ⟨"localhost", [], "127.0.0.1"⟩

theorem fetch_agrees_created :
    ∃ σ s, (ResHandler.ofOps created).Performs (ServerResponse.step false) ServerResponse.view
      [] .init created σ ∧
      (ResHandler.ofOps created).Performs
        (fun s op => some (s.step (fun _ => false) op)) FetchShim.view [] .init created s ∧
      Received.Same (s.step (fun _ => false) .turn).resolved σ.received := by
  have h : (ResHandler.ofOps created).Performs (ServerResponse.step homeRequest.isHead)
    ServerResponse.view [] .init created
      ⟨201, ⟨[(['e', 't', 'a', 'g'], .text "v1")], by decide⟩,
        some ⟨201, [(['e', 't', 'a', 'g'], "v1")]⟩, [104, 105], true⟩ :=
    ⟨rfl, _, rfl, rfl, _, rfl, rfl, _, rfl, rfl, _, rfl, rfl⟩
  have happ : createdApp homeRequest.shim = createdApp (homeRequest.sent loopback) := rfl
  have hreads (vs vs' : List ResView) (hvs : vs.map ResView.flags = vs'.map ResView.flags) :
      createdApp homeRequest.shim vs = createdApp homeRequest.shim vs' := by
    have hlen := congrArg List.length hvs
    rw [List.length_map, List.length_map] at hlen
    rw [createdApp, ResHandler.ofOps, ResHandler.ofOps, hlen]
  obtain ⟨s, hs⟩ := performs_shim (fun _ => false) happ hreads h
  have hiff := fetch_agrees_iff (fun _ => false) createdApp homeRequest loopback h hs
    (run_of_performs h)
  refine ⟨_, s, h, hs,
    hiff.mpr ((alike_self_iff _).mpr (fun _ => ⟨rfl, by decide, .inr (by decide), fun n => ?_⟩))⟩
  have hset :
    (created.foldl Asked.step .init).settings = [(['e', 't', 'a', 'g'], ⟨.text "v1", ", "⟩)] := rfl
  rw [Asked.values, Asked.last, hset]
  by_cases hn : ['e', 't', 'a', 'g'] = n
  · subst hn
    rfl
  · rw [valuesOf, List.filter_cons_of_neg (by simpa using hn)]
    rfl

def cookies : List ResOp :=
  [.setHeader ['S', 'e', 't', '-', 'C', 'o', 'o', 'k', 'i', 'e'] (.array ["a=1", "b=2"]),
    .ending none]

theorem cookies_joined :
    ∃ σ s, (ResHandler.ofOps cookies).Performs (ServerResponse.step false) ServerResponse.view
      [] .init cookies σ ∧
      (ResHandler.ofOps cookies).Performs
        (fun s op => some (s.step (fun _ => false) op)) FetchShim.view [] .init cookies s ∧
      ¬ Received.Same (s.step (fun _ => false) .turn).resolved σ.received := by
  refine ⟨_, _, ⟨rfl, _, rfl, rfl, _, rfl, rfl⟩, ⟨rfl, _, rfl, rfl, _, rfl, rfl⟩, fun h => ?_⟩
  have hlines := h.2.1.length_eq
  cases hlines

end Same

end ZenZip
