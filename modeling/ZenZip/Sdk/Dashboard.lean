import ZenZip.Crypto.Calls
import ZenZip.Runtime.JobMoves
import ZenZip.Sdk.Routes

namespace ZenZip

open Lib

inductive NativeCall
  | dashboardQueues
  | dashboardSchedules
  | dashboardRuns (workflow : Option String) (status : Option Int) (limit : Nat)
  | dashboardEvents (limit : Nat)
  | metricsSnapshot
  | getRun (id : String)
  | dashboardRunSteps (id : String)
  | deadJobs (queue : String) (limit : Nat)
  | requeueDead (ids : List JobId)

namespace NativeCall

abbrev Val : NativeCall → Type
  | .dashboardQueues => List QueueStat
  | .dashboardSchedules | .metricsSnapshot => Json
  | .dashboardRuns _ _ _ => List RunRow
  | .dashboardEvents _ => List EventRow
  | .getRun _ => Option RunRow
  | .dashboardRunSteps _ => List StepRow
  | .deadJobs _ _ => List DeadJob
  | .requeueDead _ => Nat

def statusOf : Int → Option RunStatus
  | 0 => some .runnable
  | 1 => some .sleeping
  | 2 => some .waitEvent
  | 3 => some .waitChild
  | 4 => some .completed
  | 5 => some .failed
  | 6 => some .cancelled
  | _ => none

def runsList (s : Store) (workflow : Option String) (status : Option Int) (limit : Nat) :
    List RunRow :=
  match status with
  | none => s.runsList workflow none limit
  | some n => match statusOf n with
    | some status => s.runsList workflow (some status) limit
    | none => []

def runOf (s : Store) (id : String) : Option RunRow :=
  s.runs.rows.find? (fun r => toString r.id = id)

def stepsOf (s : Store) (id : String) : List StepRow :=
  ((runOf s id).map (fun r => s.stepsForRun r.id)).getD []

/-- A call fails, or is carried out; the schedules and the counters are as they are. -/
def exec (σ : Sys) (ch : Except String Json) (c : NativeCall) : Sys × Except String c.Val :=
  match ch with
  | .error e => (σ, .error e)
  | .ok v => match c with
    | .dashboardQueues => (σ, .ok σ.store.queueStats)
    | .dashboardSchedules | .metricsSnapshot => (σ, .ok v)
    | .dashboardRuns workflow status limit => (σ, .ok (runsList σ.store workflow status limit))
    | .dashboardEvents limit => (σ, .ok (σ.store.recentEvents limit))
    | .getRun id => (σ, .ok (runOf σ.store id))
    | .dashboardRunSteps id => (σ, .ok (stepsOf σ.store id))
    | .deadJobs queue limit => (σ, .ok (σ.store.deadJobs queue limit))
    | .requeueDead ids =>
        (σ.withStore (σ.store.requeueDead ids σ.clock).1, .ok (σ.store.requeueDead ids σ.clock).2)

end NativeCall

structure DashboardOptions where
  token : Option String
  viewerToken : Option String

namespace Dashboard

/-- A request, and how many frames its client stays for if it is for the stream. -/
structure Request where
  method : List Char
  path : List Char
  authorization : Option String
  query : List (String × String)
  frames : Nat

def Request.get (req : Request) (name : String) : Option String :=
  (req.query.find? (fun p => p.1 = name)).map Prod.snd

inductive Role
  | operator | viewer
  deriving DecidableEq

section Roles

variable (o : DashboardOptions) (req : Request)

/-- On the bytes of the two texts; no text at all and the empty one match nothing. -/
def tokenMatches (expected : String) (provided : Option String) : Bool :=
  provided.any (fun p => p ≠ "" && p = expected)

/-- A token that is empty is not set. -/
def operatorToken : Option String := o.token.filter (· ≠ "")

def viewerToken : Option String := o.viewerToken.filter (· ≠ "")

def authEnabled : Bool := (operatorToken o).isSome || (viewerToken o).isSome

def bearer : Option String :=
  (req.authorization.filter (fun header => "Bearer ".toList.isPrefixOf header.toList)).map
    (fun header => String.ofList (header.toList.drop 7))

def roleOf : Option Role :=
  let provided := (bearer req).or (req.get "token")
  if authEnabled o then
    if (operatorToken o).any (fun t => tokenMatches t provided) then some .operator
    else if (viewerToken o).any (fun t => tokenMatches t provided) then some .viewer
    else none
  else some .operator

end Roles

structure Overview where
  queues : List QueueStat
  schedules : Json
  runs : List RunRow
  events : List EventRow
  metrics : Json

inductive Reply
  | page
  | overview (view : Overview)
  | stream (frames : List Overview)
  | metrics (counters : Json)
  | runs (rows : List RunRow)
  | run (row : RunRow) (steps : List StepRow)
  | requeued (count : Nat)
  | error (status : Nat) (message : String)
  | failed (message : String)
  | unhandled

inductive Endpoint
  | page | overview | stream | metrics | runs | run | requeueDead
  deriving DecidableEq

def Endpoint.writes : Endpoint → Bool
  | .requeueDead => true
  | _ => false

def routes : List (Route Endpoint) :=
  [⟨"GET".toList, "/".toList, .page⟩, ⟨"GET".toList, "/api/overview".toList, .overview⟩,
    ⟨"GET".toList, "/api/stream".toList, .stream⟩, ⟨"GET".toList, "/api/metrics".toList, .metrics⟩,
    ⟨"GET".toList, "/api/runs".toList, .runs⟩, ⟨"GET".toList, "/api/runs/:id".toList, .run⟩,
    ⟨"POST".toList, "/api/queues/:name/requeue-dead".toList, .requeueDead⟩]

def router : HttpRouter Endpoint := .addAll routes

abbrev DashM := Prog NativeCall.Val

def native (c : NativeCall) : DashM c.Val := @Prog.op NativeCall NativeCall.Val c

/-- The reply to a request that may not do what it asks for. -/
def authorized (role : Option Role) (write : Bool) : Option Reply :=
  match role with
  | none => some (.error 401 "unauthorized")
  | some .viewer => if write then some (.error 403 "forbidden: operator role required") else none
  | some .operator => none

def overview : DashM Overview := do
  let queues ← native .dashboardQueues
  let schedules ← native .dashboardSchedules
  let runs ← native (.dashboardRuns none none 25)
  let events ← native (.dashboardEvents 25)
  let metrics ← native .metricsSnapshot
  return ⟨queues, schedules, runs, events, metrics⟩

/-- The frames of a stream; one that fails is left out. -/
def frames : Nat → DashM (List Overview)
  | 0 => return []
  | n + 1 => do
    let frame ← overview.attempt
    let rest ← frames n
    return frame.toOption.toList ++ rest

def param (params : Params) (name : String) : String := String.ofList ((params name.toList).getD [])

section Handlers

variable (number : String → Int) (o : DashboardOptions)

/-- What an endpoint does for a request that it serves; `number` is `Number` of a text. -/
def serve (req : Request) (params : Params) : Endpoint → DashM Reply
  | .page => return .page
  | .overview => do
    let view ← overview
    return .overview view
  | .stream => do
    let sent ← frames req.frames
    return .stream sent
  | .metrics => do
    let counters ← native .metricsSnapshot
    return .metrics counters
  | .runs => do
    let rows ← native (.dashboardRuns (req.get "workflow") ((req.get "status").map number) 100)
    return .runs rows
  | .run => do
    let row ← native (.getRun (param params "id"))
    match row with
    | none => return .error 404 "run not found"
    | some row => do
      let steps ← native (.dashboardRunSteps (param params "id"))
      return .run row steps
  | .requeueDead => do
    let dead ← native (.deadJobs (param params "name") 1000)
    if dead.isEmpty then return .requeued 0
    else do
      let count ← native (.requeueDead (dead.map (·.id)))
      return .requeued count

def handle (req : Request) (params : Params) (e : Endpoint) : DashM Reply :=
  match authorized (roleOf o req) e.writes with
  | some refusal => return refusal
  | none => serve number req params e

/-- A path that cannot be decoded is nobody's: the rejection is not handled. -/
def visit (req : Request) : DashM Reply :=
  match router.match? req.method req.path with
  | .error _ => return .unhandled
  | .ok none => return .error 404 "not found"
  | .ok (some (e, params)) => do
    let reply ← (handle number o req params e).attempt
    match reply with
    | .ok reply => return reply
    | .error message => return .failed message

/-- The reply to a request that is refused, or is for nothing that is there. -/
def refusal (req : Request) : Option Reply :=
  match router.match? req.method req.path with
  | .error _ => some .unhandled
  | .ok none => some (.error 404 "not found")
  | .ok (some (e, _)) => authorized (roleOf o req) e.writes

theorem visit_of_refusal {req : Request} {reply : Reply} (h : refusal o req = some reply) :
    visit number o req = return reply := by
  unfold refusal at h
  unfold visit
  split at h
  · cases h
    rfl
  · cases h
    rfl
  · next e params hm =>
      rw [handle, h]
      rfl

end Handlers

def Requeues (req : Request) (queue : String) : Prop :=
  ∃ params, router.match? req.method req.path = .ok (some (.requeueDead, params)) ∧
    queue = param params "name"

theorem requeue_pattern {method : List Char} {e : Pattern × Endpoint}
    (he : e ∈ patterns routes method)
    (hv : e.2 = .requeueDead) : method = "POST".toList ∧
      e.1 = [.lit "api".toList, .lit "queues".toList, .wild "name".toList,
      .lit "requeue-dead".toList] := by
  rw [patterns] at he
  obtain ⟨a, ha, rfl⟩ := List.mem_map.mp he
  obtain ⟨hm, hp⟩ := List.mem_filter.mp ha
  have hlast : a = ⟨"POST".toList, "/api/queues/:name/requeue-dead".toList, .requeueDead⟩ := by
    simp only [routes, List.mem_cons, List.not_mem_nil, or_false] at hm
    rcases hm with rfl | rfl | rfl | rfl | rfl | rfl | rfl
    all_goals
      first
        | rfl
        | cases hv
  subst hlast
  exact ⟨(of_decide_eq_true hp).2.symm, rfl⟩

theorem Requeues.route {req : Request} {queue : String} (h : Requeues req queue) :
    req.method = "POST".toList ∧
    ∃ seg, pathSegments req.path = ["api".toList, "queues".toList, seg, "requeue-dead".toList] ∧
      decodeURIComponent seg = .ok queue.toList := by
  obtain ⟨params, hm, rfl⟩ := h
  obtain ⟨xs, ys, hf, hxy, rfl⟩ := HttpRouter.match?_addAll_iff.mp hm
  obtain ⟨e, he, hfits⟩ := Trie.fits_of_follow hf
  obtain ⟨b, hb⟩ := Trie.exists_preferred he hfits
  obtain ⟨-, hv, rfl⟩ := (Trie.follow_iff hb).mp hf
  obtain ⟨hmethod, hpattern⟩ := requeue_pattern (List.mem_of_find?_eq_some hb.first) hv.symm
  refine ⟨hmethod, ?_⟩
  have hsegs := hb.fits
  rw [hpattern] at hsegs
  generalize pathSegments req.path = segs at *
  rcases hsegs with _ | ⟨h₁, _ | ⟨h₂, _ | @⟨_, seg, _, _, _, _ | ⟨h₄, hsegs⟩⟩⟩⟩
  cases h₁
  cases h₂
  cases h₄
  cases hsegs
  have hkept : Trie.kept (patterns routes req.method)
    b.1 ["api".toList, "queues".toList, seg, "requeue-dead".toList] =
      [("name".toList, seg)] := by
    rw [hmethod, hpattern]
    rfl
  rw [hkept] at hxy
  rcases hxy with _ | @⟨_, ⟨name, text⟩, _, _, ⟨rfl, hdec⟩, hnil⟩
  cases hnil
  refine ⟨seg, rfl, hdec.trans ?_⟩
  have hbound : setParams (fun _ => none) [("name".toList, text)] "name".toList = some text := by
    have hname : "name".toList ≠ "__proto__".toList := by decide
    rw [setParams, List.foldl_cons, List.foldl_nil, setParam, if_neg hname, Function.update_self]
  rw [param, hbound, Option.getD_some]
  exact congrArg Except.ok String.toList_ofList.symm

/-- The request of a visit, and the dead jobs that it has been shown. -/
structure Seen where
  req : Request
  listed : Option (String × List JobId)

/-- A view takes a role, and a requeue the operator's: of the jobs listed for the queue of the
request. -/
def access (o : DashboardOptions) : Discipline NativeCall.Val Seen where
  next g c r := match c, r with
    | .deadJobs queue _, .ok jobs => { g with listed := some (queue, jobs.map (·.id)) }
    | _, _ => g
  allowed g c := match c with
    | .deadJobs queue _ => roleOf o g.req = some .operator ∧ Requeues g.req queue
    | .requeueDead ids =>
        roleOf o g.req = some .operator ∧ ∃ queue, Requeues g.req queue ∧
          g.listed = some (queue, ids)
    | _ => roleOf o g.req ≠ none
  answers _ _ := True

/-- The dashboard beside everything else that happens to the database. -/
abbrev Desk := Config Sys NativeCall.Val Request Reply

abbrev Visit := Thread NativeCall.Val Request Reply

inductive Label
  | sys (l : ZenZip.Label)
  | request (req : Request)
  | native (i : Nat) (ch : Except String Json)

section Step

variable (E : WorkflowEngine) (number : String → Int) (o : DashboardOptions)

def exec (σ : Sys) (ch : Except String Json) (c : NativeCall) :
    Config.Answer Sys NativeCall.Val c := some (c.exec σ ch)

def step (d : Desk) : Label → Option Desk
  | .sys l => (Sys.step E d.shared l).map (fun σ => { d with shared := σ })
  | .request req => some (d.spawn [⟨req, [], visit number o req⟩])
  | .native i ch => d.call exec i ch

def init (clock : Time) : Desk := ⟨.init .empty clock, []⟩

end Step

section Access

variable {number : String → Int} {o : DashboardOptions} {g : Seen}

theorem wp_then {α : Type} {c : NativeCall} {f : c.Val → DashM α}
    {Q : Seen → Except String α → Prop}
    (hc : (access o).allowed g c) (herror : ∀ e, Q ((access o).next g c (.error e)) (.error e))
    (hok : ∀ v, (access o).wp (f v) Q ((access o).next g c (.ok v))) :
    (access o).wp (native c >>= f) Q g := by
  rw [Discipline.wp_bind, native, Discipline.wp_op]
  refine ⟨hc, fun r _ => ?_⟩
  cases r with
  | error e => exact herror e
  | ok v => exact hok v

theorem wp_overview (h : roleOf o g.req ≠ none) :
    (access o).wp overview (fun g' _ => g' = g) g := by
  refine wp_then h (fun _ => rfl) fun queues => ?_
  refine wp_then h (fun _ => rfl) fun schedules => ?_
  refine wp_then h (fun _ => rfl) fun runs => ?_
  refine wp_then h (fun _ => rfl) fun events => ?_
  exact wp_then h (fun _ => rfl) fun metrics => rfl

theorem wp_frames (h : roleOf o g.req ≠ none) (n : Nat) :
    (access o).wp (frames n) (fun g' _ => g' = g) g := by
  induction n with
  | zero => exact rfl
  | succ n ih =>
      rw [frames, Discipline.wp_bind, Discipline.wp_attempt]
      refine Discipline.wp_mono _ (wp_overview h) ?_
      rintro _ r rfl
      rw [Discipline.seq_ok, Discipline.wp_bind]
      refine Discipline.wp_mono _ ih ?_
      rintro _ r rfl
      cases r <;> exact rfl

theorem wp_serve {params : Params} {e : Endpoint}
    (hm : router.match? g.req.method g.req.path = .ok (some (e, params)))
    (h : authorized (roleOf o g.req) e.writes = none) :
    (access o).wp (serve number g.req params e) (fun _ _ => True) g := by
  have hrole : roleOf o g.req ≠ none := by
    intro hr
    rw [hr] at h
    cases h
  cases e with
  | page => exact trivial
  | overview =>
      rw [serve, Discipline.wp_bind]
      refine Discipline.wp_mono _ (wp_overview hrole) fun _ r _ => ?_
      cases r <;> exact trivial
  | stream =>
      rw [serve, Discipline.wp_bind]
      refine Discipline.wp_mono _ (wp_frames hrole _) fun _ r _ => ?_
      cases r <;> exact trivial
  | metrics => exact wp_then hrole (fun _ => trivial) fun counters => trivial
  | runs => exact wp_then hrole (fun _ => trivial) fun rows => trivial
  | run =>
      refine wp_then hrole (fun _ => trivial) fun row => ?_
      cases row with
      | none => exact trivial
      | some row => exact wp_then hrole (fun _ => trivial) fun steps => trivial
  | requeueDead =>
      have hoperator : roleOf o g.req = some .operator := by
        cases hr : roleOf o g.req with
        | none => exact absurd hr hrole
        | some role =>
            cases role with
            | operator => rfl
            | viewer =>
                rw [hr] at h
                cases h
      have hq : Requeues g.req (param params "name") := ⟨params, hm, rfl⟩
      refine wp_then ⟨hoperator, hq⟩ (fun _ => trivial) fun dead => ?_
      split
      · exact trivial
      · refine wp_then ⟨hoperator, _, hq, rfl⟩ (fun _ => trivial) fun count => trivial

theorem wp_visit : (access o).wp (visit number o g.req) (fun _ _ => True) g := by
  cases hr : refusal o g.req with
  | some reply =>
      rw [visit_of_refusal number o hr]
      exact trivial
  | none =>
      unfold refusal at hr
      unfold visit
      split at hr
      · cases hr
      · cases hr
      · next e params hm =>
          rw [Discipline.wp_bind, Discipline.wp_attempt, handle, hr]
          refine Discipline.wp_mono _ (wp_serve hm hr) fun _ r _ => ?_
          cases r <;> exact trivial

end Access

/-- Of the rows of a store only dead jobs of the queue have changed: they wait for a first attempt
again. -/
structure Requeued (queue : String) (now : Time) (s s' : Store) : Prop where
  jobs : ∀ id, s'.jobs.get? id = s.jobs.get? id ∨ ∃ j, s.jobs.get? id = some j ∧ j.queue = queue ∧
    j.status = .dead ∧
    s'.jobs.get? id = some (Store.requeueRow now j)
  rest : s' = { s with jobs := s'.jobs }

section Requeue

variable {s : Store} {queue : String} {ids : List JobId} {now : Time}

def Belong (s : Store) (queue : String) (ids : List JobId) : Prop :=
  ∀ id ∈ ids, id < s.nextId ∧ ∀ j ∈ s.jobs.rows, j.id = id → j.queue = queue

theorem belong_deadJobs (hf : s.Fresh) (queue : String) (limit : Nat) :
    Belong s queue ((s.deadJobs queue limit).map (·.id)) := by
  intro id hid
  rw [Store.deadJobs, List.map_map] at hid
  obtain ⟨j, hj, rfl⟩ := List.mem_map.mp hid
  obtain ⟨hj, hdead⟩ :=
    Table.mem_select.mp ((List.mem_insertionSort _).mp (List.mem_of_mem_take hj))
  rw [Store.deadIn, Bool.and_eq_true, decide_eq_true_eq] at hdead
  refine ⟨hf.jobs j hj, fun i hi he => ?_⟩
  rw [s.jobs.key_injOn hi hj he]
  exact hdead.1

theorem requeued_of_belong (h : Belong s queue ids) :
    Requeued queue now s (s.requeueDead ids now).1 where
  jobs id := by
    have hget : (s.requeueDead ids now).1.jobs.get? id = (s.jobs.get? id).map (fun j =>
        if j.id ∈ ids && j.status = .dead then Store.requeueRow now j else j) :=
      Table.get?_update s.jobs _ (Store.requeueRow now) (fun _ => rfl) id
    rw [hget]
    cases hj : s.jobs.get? id with
    | none => exact .inl rfl
    | some j =>
        rw [Option.map_some]
        split
        · next hp =>
            rw [Bool.and_eq_true, decide_eq_true_eq, decide_eq_true_eq] at hp
            right
            exact ⟨j, rfl, (h j.id hp.1).2 j (Table.mem_of_get? hj) rfl, hp.2, rfl⟩
        · exact .inl rfl
  rest := rfl

theorem JobMove.queue_eq {E : WorkflowEngine} {σ : Sys} {l : ZenZip.Label} {j j' : JobRow}
    (h : Sys.JobMove E σ l j j') :
    j'.queue = j.queue := by
  cases h with
  | same | claimed | renewed => rfl
  | called _ _ _ _ _ _ _ h => exact h.frame.2.2.2.2.1

theorem Belong.move {E : WorkflowEngine} {σ σ' : Sys} {l : ZenZip.Label}
    (h : Belong σ.store queue ids)
    (hm : Sys.Move E σ l σ') : Belong σ'.store queue ids := by
  intro id hid
  obtain ⟨hlt, hqueue⟩ := h id hid
  refine ⟨hlt.trans_le hm.nextId_le, fun j hj he => ?_⟩
  obtain ⟨i, hi, hmove⟩ | ⟨_, _, _, _, hge, _⟩ := hm.job_origin hj
  · rw [JobMove.queue_eq hmove]
    exact hqueue i hi (hmove.frame.1.symm.trans he)
  · rw [he] at hge
    exact absurd hge (Nat.not_le_of_lt hlt)

theorem Belong.requeue (h : Belong s queue ids) (others : List JobId) (now : Time) :
    Belong (s.requeueDead others now).1 queue ids := by
  intro id hid
  obtain ⟨hlt, hqueue⟩ := h id hid
  refine ⟨hlt, fun j hj he => ?_⟩
  have hj : j ∈ ((Call.requeueDead others).perform s now []).1.jobs.rows := hj
  obtain ⟨i, hi, hc⟩ | ⟨hge, _⟩ := Call.perform_job_origin (.requeueDead others) hj
  · rw [hc.frame.2.2.2.2.1]
    exact hqueue i hi (hc.frame.1.symm.trans he)
  · rw [he] at hge
    exact absurd hge (Nat.not_le_of_lt hlt)

end Requeue

section Visits

variable {E : WorkflowEngine} {number : String → Int} {o : DashboardOptions} {d d' : Desk}
  {l : Label} {t : Visit} {s s' : Store}

def seen (o : DashboardOptions) (t : Visit) : Seen := (access o).ghost ⟨t.kind, none⟩ t.log

/-- A visit keeps to its role, and the jobs that it has been shown belong to the queue it was shown.
-/
structure Behaves (o : DashboardOptions) (s : Store) (t : Visit) : Prop where
  obeys : (access o).Obeys (fun req => ⟨req, none⟩) (fun _ _ _ => True) t
  listed : ∀ queue ids, (seen o t).listed = some (queue, ids) → Belong s queue ids
  refused : ∀ reply, refusal o t.kind = some reply → t.log = [] ∧ t.prog = .ret reply

theorem seen_req (t : Visit) : (seen o t).req = t.kind := by
  obtain ⟨req, log, prog⟩ := t
  induction log with
  | nil => rfl
  | cons e log ih =>
      obtain ⟨c, r⟩ := e
      have hnext (g : Seen) : ((access o).next g c r).req = g.req := by
        cases c <;> cases r <;> rfl
      exact (hnext _).trans ih

theorem Behaves.mono (h : Behaves o s t)
    (hb : ∀ queue ids, Belong s queue ids → Belong s' queue ids) : Behaves o s' t where
  obeys := h.obeys
  listed queue ids hl := hb queue ids (h.listed queue ids hl)
  refused := h.refused

theorem Behaves.answer {c : NativeCall} {k : Except String c.Val → DashM Reply}
    {r : Except String c.Val} (h : Behaves o s t)
    (hp : t.prog = .call c k)
    (hl : ∀ queue ids, ((access o).next (seen o t) c r).listed = some (queue, ids) →
    Belong s' queue ids) :
    Behaves o s' (t.answer c r (k r)) where
  obeys := h.obeys.answer hp trivial
  listed := hl
  refused reply hr := by
    rw [(h.refused reply hr).2] at hp
    cases hp

/-- A call of a visit leaves the system as it is, or requeues jobs of the queue that an operator has
named. -/
theorem Behaves.native {σ : Sys} {c : NativeCall} {k : Except String c.Val → DashM Reply}
    (ch : Except String Json)
    (hf : σ.store.Fresh) (h : Behaves o σ.store t) (hp : t.prog = .call c k) :
    Behaves o (c.exec σ ch).1.store (t.answer c (c.exec σ ch).2 (k (c.exec σ ch).2)) ∧
      ((c.exec σ ch).1 = σ ∨ ∃ ids queue, roleOf o t.kind = some .operator ∧ Requeues t.kind queue ∧
        Belong σ.store queue ids ∧ (c.exec σ ch).1 = σ.withStore
          (σ.store.requeueDead ids σ.clock).1) := by
  have hallowed : (access o).allowed (seen o t) c := h.obeys.allowed hp
  cases ch with
  | error e =>
      refine ⟨h.answer hp fun queue ids hl => h.listed queue ids ?_, .inl rfl⟩
      cases c <;> exact hl
  | ok v =>
      cases c with
      | deadJobs queue limit =>
          refine ⟨h.answer hp fun queue' ids hl => ?_, .inl rfl⟩
          cases hl
          exact belong_deadJobs hf queue limit
      | requeueDead ids =>
          obtain ⟨hrole, queue, hq, hlisted⟩ := hallowed
          rw [seen_req] at hrole hq
          refine ⟨h.answer hp fun queue' ids' hl => ?_,
            .inr ⟨ids, queue, hrole, hq, h.listed queue ids hlisted, rfl⟩⟩
          exact (h.listed queue' ids' hl).requeue ids σ.clock
      | _ => exact ⟨h.answer hp h.listed, .inl rfl⟩

theorem behaves_visit (number : String → Int) (o : DashboardOptions) (s : Store) (req : Request) :
    Behaves o s ⟨req, [], visit number o req⟩ where
  obeys := wp_visit (g := ⟨req, none⟩)
  listed _ _ hl := by cases hl
  refused reply hr := ⟨rfl, visit_of_refusal number o hr⟩

theorem Behaves.native_others {σ : Sys} {c : NativeCall} {k : Except String c.Val → DashM Reply}
    (ch : Except String Json)
    (hf : σ.store.Fresh) (h : Behaves o σ.store t) (hp : t.prog = .call c k) :
    (c.exec σ ch).1.store.Fresh ∧ ∀ queue ids, Belong σ.store queue ids →
    Belong (c.exec σ ch).1.store queue ids := by
  rcases (h.native ch hf hp).2 with he | ⟨ids, queue, _, _, _, he⟩
  · rw [he]
    exact ⟨hf, fun _ _ hb => hb⟩
  · rw [he]
    exact ⟨hf.perform (.requeueDead ids) σ.clock [], fun _ _ hb => hb.requeue ids σ.clock⟩

structure Guarded (o : DashboardOptions) (d : Desk) : Prop where
  fresh : d.shared.store.Fresh
  visits : ∀ t ∈ d.pool, Behaves o d.shared.store t

theorem Guarded.step (h : Guarded o d) (hs : step E number o d l = some d') : Guarded o d' := by
  cases l with
  | sys l =>
      obtain ⟨σ, hσ, rfl⟩ := Option.map_eq_some_iff.mp hs
      have hm := Sys.step_move hσ
      exact ⟨hm.fresh h.fresh, fun t ht => (h.visits t ht).mono fun _ _ hb => hb.move hm⟩
  | request req =>
      cases hs
      refine ⟨h.fresh, fun t ht => ?_⟩
      rcases List.mem_append.mp ht with ht | ht
      · exact h.visits t ht
      · rw [List.mem_singleton.mp ht]
        exact behaves_visit number o _ req
  | native i ch =>
      obtain ⟨t, c, k, σ, r, hi, hp, he, rfl⟩ := Config.call_eq_some hs
      obtain ⟨rfl, rfl⟩ := Prod.mk.inj (Option.some.inj he)
      have ht := h.visits t (List.mem_of_getElem? hi)
      obtain ⟨hfresh, hothers⟩ := ht.native_others ch h.fresh hp
      refine ⟨hfresh, fun u hu => ?_⟩
      rcases List.mem_or_eq_of_mem_set hu with hu | rfl
      · exact (h.visits u hu).mono hothers
      · exact (ht.native ch h.fresh hp).1

/-- Only a `POST` of an operator changes anything, and that only the dead jobs of the queue in its
path; a request that is refused has not seen anything of the database. -/
theorem operator_only {ok : Desk → Label → Bool} {clock : Time}
    (h : Run (step E number o) ok (init clock) d) :
    (∀ t ∈ d.pool, ∀ reply, refusal o t.kind = some reply → t.log = [] ∧ t.prog = .ret reply) ∧
    ∀ i ch d', step E number o d (.native i ch) = some d' → d'.shared = d.shared ∨
      ∃ t queue seg, d.pool[i]? = some t ∧ roleOf o t.kind = some .operator ∧
      t.kind.method = "POST".toList ∧
        pathSegments t.kind.path = ["api".toList, "queues".toList, seg, "requeue-dead".toList] ∧
        decodeURIComponent seg = .ok queue.toList ∧ d'.shared = d.shared.withStore d'.shared.store ∧
        Requeued queue d.shared.clock d.shared.store d'.shared.store := by
  have hinv : Guarded o d := by
    apply h.invariant (Guarded o)
    · exact ⟨.empty, fun _ ht => by cases ht⟩
    · exact fun _ _ _ _ hI _ hs => hI.step hs
  refine ⟨fun t ht => (hinv.visits t ht).refused, fun i ch d' hs => ?_⟩
  obtain ⟨t, c, k, σ, r, hi, hp, he, rfl⟩ := Config.call_eq_some hs
  have hσ : (c.exec d.shared ch).1 = σ := congrArg Prod.fst (Option.some.inj he)
  have hcases := ((hinv.visits t (List.mem_of_getElem? hi)).native ch hinv.fresh hp).2
  rw [hσ] at hcases
  rcases hcases with rfl | ⟨ids, queue, hrole, hq, hb, rfl⟩
  · exact .inl rfl
  · obtain ⟨hmethod, seg, hsegs, hdec⟩ := hq.route
    exact .inr ⟨t, queue, seg, hi, hrole, hmethod, hsegs, hdec, rfl, requeued_of_belong hb⟩

end Visits

section Sample

def tokens : DashboardOptions := ⟨some "s3cret", some "look"⟩

def requeueOrders (token : String) : Request :=
  ⟨"POST".toList, "/api/queues/zenzip.workflow.order/requeue-dead".toList,
    none, [("token", token)], 0⟩

/-- A job is claimed, its lease ends, and the sweep finds it dead. -/
def buries : List ZenZip.Label :=
  [.spawn (.push [⟨workflowQueueName "order", .data .null, 0, 0, 1, none, none, none, none⟩]),
    Sys.callOk 0, .claim "order" 1,
    .tick 60001, .spawn .sweepExpired, Sys.callOk 2, Sys.callOk 2]

/-- A stranger, a viewer and the operator want it back; the operator gets to see it. -/
def asks : List Label :=
  [.request (requeueOrders "guess"), .request (requeueOrders "look"),
    .request (requeueOrders "s3cret"), .native 2 (.ok .null)]

def firstStatus (d : Desk) : Option JobStatus := (d.shared.store.jobs.get? 0).map (·.status)

def refusedAt (d : Desk) (i : Nat) : Bool :=
  (d.pool[i]?).any (fun t => (refusal tokens t.kind).isSome)

theorem operator_only_orders :
    ∃ d d' : Desk, (∀ t, d.pool[0]? = some t ∨ d.pool[1]? = some t → t.log = []) ∧
    firstStatus d = some .dead ∧ firstStatus d' = some .pending ∧
    ∃ t queue, d.pool[2]? = some t ∧ roleOf tokens t.kind = some .operator ∧
      Requeued queue d.shared.clock d.shared.store d'.shared.store := by
  obtain ⟨d, h, hp⟩ :=
    Run.exists_of_replay (step Sys.sampleEngine (fun _ => 0) tokens) (fun _ _ => true) (init 0)
    (buries.map .sys ++ asks)
      (fun d => decide (firstStatus d = some .dead ∧ refusedAt d 0 ∧ refusedAt d 1) &&
      (step Sys.sampleEngine (fun _ => 0) tokens d (.native 2 (.ok .null))).any
        (fun d' => firstStatus d' = some .pending))
    (by
      unfold refusedAt step refusal visit
      simp only [HttpRouter.match?_eq_descend]
      decide +kernel)
  rw [Bool.and_eq_true, decide_eq_true_eq, Option.any_eq_true] at hp
  obtain ⟨⟨hdead, hstranger, hviewer⟩, d', hs, hpending⟩ := hp
  have hall := operator_only h
  have hunseen {i : Nat} {t : Visit} (hr : refusedAt d i = true) (ht : d.pool[i]? = some t) :
    t.log = [] := by
    rw [refusedAt, ht, Option.any_some] at hr
    obtain ⟨reply, hr⟩ := Option.isSome_iff_exists.mp hr
    exact (hall.1 t (List.mem_of_getElem? ht) reply hr).1
  refine ⟨d, d', fun t ht => ?_, hdead, of_decide_eq_true hpending, ?_⟩
  · rcases ht with ht | ht
    · exact hunseen hstranger ht
    · exact hunseen hviewer ht
  · rcases hall.2 2 (.ok .null) d' hs with he | ⟨t, queue, _, ht, hrole, _, _, _, _, hq⟩
    · rw [firstStatus, he] at hpending
      rw [firstStatus] at hdead
      rw [hdead] at hpending
      exact absurd hpending (by decide)
    · exact ⟨t, queue, ht, hrole, hq⟩

end Sample

end Dashboard

end ZenZip
