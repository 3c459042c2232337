import ZenZip.Queue.Push
import ZenZip.Crypto.Calls
import Mathlib.Logic.Relation

namespace ZenZip

open Lib

/-- What a queue asks of the runtime. A payload that is no text is none. -/
inductive QueueOp
  | pendingCount (queue : String)
  | pushBulk (queue : String) (payloads : List (Option Json)) (options : JsPushOptions)

namespace QueueOp

def Val : QueueOp → Type
  | .pendingCount _ => Nat
  | .pushBulk _ _ _ => List JobId

def jobs (queue : String) (texts : List Json) (options : JsPushOptions) : List PushJob :=
  texts.map (fun text => nativeJob queue text options)

/-- A bulk push is one transaction. -/
def exec (s : Store) (now : Time) : (op : QueueOp) → Store × Except String op.Val
  | .pendingCount queue => (s, .ok (s.pendingCount queue))
  | .pushBulk queue payloads options =>
    match payloads.mapM id with
    | none => (s, .error Queue.noText)
    | some texts =>
      let out := s.push (QueueOp.jobs queue texts options) now
      (out.1, .ok out.2)

end QueueOp

abbrev QueueM := Prog QueueOp.Val

def nativePendingCount (queue : String) : QueueM Nat := .op (QueueOp.pendingCount queue)

def nativePushBulk (queue : String) (payloads : List (Option Json)) (options : JsPushOptions) :
    QueueM (List JobId) :=
  .op (QueueOp.pushBulk queue payloads options)

namespace Queue

variable {D : Type} (q : Queue D)

def full (pending : Nat) (limit : Int) : String :=
  "queue \"" ++ q.name ++ "\" is full: " ++ toString pending ++ " pending ≥ maxPending " ++
    toString limit

def admitIncoming (incoming : Nat) : QueueM Unit :=
  match q.maxPending with
  | none => pure ()
  | some limit => do
    let pending ← nativePendingCount q.name
    if limit < (pending + incoming : Nat) then throw (q.full pending limit)

/-- The native call returns the first id of its bulk. -/
def push (data : Option D) (options : PushOptions) : QueueM JobId := do
  let payload ← .ofExcept (q.validate data)
  q.admitIncoming 1
  let opts ← .ofExcept (q.pushOptions options data)
  let ids ← nativePushBulk q.name [payload] opts
  .ofExcept (ids.head?.elim (.error "one id per job") .ok)

def pushEach (options : PushOptions) : List (Option D) → QueueM (List JobId)
  | [] => pure []
  | d :: items => do
    let id ← q.push d options
    let ids ← pushEach options items
    pure (id :: ids)

def keyed : Bool := q.concurrencyKey.isSome || q.debounce.isSome || q.throttle.isSome

def pushBulk (items : List (Option D)) (options : PushOptions) : QueueM (List JobId) :=
  if q.keyed then q.pushEach options items
  else do
    let payloads ← .ofExcept (items.mapM q.validate)
    q.admitIncoming payloads.length
    let opts ← .ofExcept (q.pushOptions options none)
    nativePushBulk q.name payloads opts

end Queue

/-- The runtime among other users of its store. Any call may fail, and leaves the store as it is
where it does. -/
def runtime (others : Store → Store → Prop) : Place QueueOp.Val Store where
  others := others
  answers s op s' r := (∃ now, op.exec s now = (s', r)) ∨ ∃ e, s' = s ∧ r = .error e

def enqueued? : Event QueueOp.Val → List (PushJob × JobId)
  | ⟨.pushBulk queue payloads options, .ok ids⟩ =>
      (QueueOp.jobs queue (payloads.filterMap id) options).zip ids
  | _ => []

def enqueued (es : List (Event QueueOp.Val)) : List (PushJob × JobId) := es.flatMap enqueued?

namespace Queue

variable {D : Type} (q : Queue D)

/-- The calls of a program have changed nothing: nothing is enqueued, and only the others have
written to the store. -/
def Untouched (others : Store → Store → Prop) (s : Store) (es : List (Event QueueOp.Val))
    (s' : Store) : Prop :=
  enqueued es = [] ∧ Relation.ReflTransGen others s s'

def Carries (item : Option D) (e : PushJob × JobId) : Prop :=
  ∃ text, q.validate item = .ok (some text) ∧ e.1.queue = q.name ∧ e.1.payload = .data text

/-- All items are enqueued and their ids returned in order, or nothing has happened. -/
def AllOrNothing (others : Store → Store → Prop) (items : List (Option D)) (s : Store)
    (es : List (Event QueueOp.Val)) (s' : Store) :
    Except String (List JobId) → Prop
  | .ok ids => (enqueued es).map (·.2) = ids ∧ List.Forall₂ q.Carries items (enqueued es)
  | .error _ => Untouched others s es s'

def pushable (options : PushOptions) (item : Option D) : Bool :=
  (q.job item options).isOk && q.maxPending.all (fun limit => 1 ≤ limit)

section Runs

variable {q} {others : Store → Store → Prop} {s : Store} {options : PushOptions} {item : Option D}
  {items : List (Option D)}
  {es es' : List (Event QueueOp.Val)} {s₁ s' : Store}

theorem untouched_nil : Untouched others s [] s := ⟨rfl, .refl⟩

theorem enqueued_append (es es' : List (Event QueueOp.Val)) :
    enqueued (es ++ es') = enqueued es ++ enqueued es' :=
  List.flatMap_append

theorem enqueued_bulk (queue : String) (payloads : List (Option Json)) (opts : JsPushOptions)
    (ids : List JobId) :
    enqueued [⟨.pushBulk queue payloads opts, .ok ids⟩] =
    (QueueOp.jobs queue (payloads.filterMap id) opts).zip ids :=
  List.flatMap_singleton _ _

theorem Untouched.append (h : Untouched others s es s₁) (h' : Untouched others s₁ es' s') :
    Untouched others s (es ++ es') s' := by
  refine ⟨?_, h.2.trans h'.2⟩
  rw [enqueued_append, h.1, h'.1, List.append_nil]

theorem wp_admitIncoming (incoming : Nat) : (runtime others).wp (q.admitIncoming incoming)
    (fun es s' r =>
    Untouched others s es s' ∧ ∀ u,
      r = .ok u → q.maxPending.all (fun limit => (incoming : Int) ≤ limit) = true) s := by
  rw [admitIncoming]
  cases q.maxPending with
  | none => exact ⟨untouched_nil, fun _ _ => rfl⟩
  | some limit =>
      refine Place.wp_bind (Place.wp_op (fun s₁ s₂ r ho ha => ?_))
      have hone : Untouched others s [⟨.pendingCount q.name, r⟩] s₁ := by
        refine ⟨?_, .single ho⟩
        cases r with
        | ok n | error e => rfl
      rcases ha with ⟨now, ha⟩ | ⟨e, rfl, rfl⟩
      · cases ha
        show (runtime others).wp
          (if limit < ((s₁.pendingCount q.name + incoming : Nat) : Int) then throw _ else pure ())
            _ s₁
        split
        · exact ⟨hone, fun _ hu => by cases hu⟩
        · next hle =>
            refine ⟨hone, fun _ _ => decide_eq_true ?_⟩
            rw [Nat.cast_add] at hle
            exact (le_add_of_nonneg_left (Int.natCast_nonneg _)).trans (not_lt.mp hle)
      · exact ⟨hone, fun _ hu => by cases hu⟩

theorem eq_map_some_of_mapM {payloads : List (Option Json)} {texts : List Json}
    (h : payloads.mapM id = some texts) :
    payloads = texts.map some := by
  induction payloads generalizing texts with
  | nil =>
      cases h
      rfl
  | cons payload payloads ih =>
      rw [List.mapM_cons] at h
      obtain ⟨text, htext, h⟩ := Option.bind_eq_some_iff.mp h
      obtain ⟨rest, hrest, h⟩ := Option.bind_eq_some_iff.mp h
      cases h
      rw [List.map_cons, ← ih hrest, show payload = some text from htext]

theorem length_push_ids (s : Store) (jobs : List PushJob) (now : Time) :
    (s.push jobs now).2.length = jobs.length := by
  induction jobs generalizing s with
  | nil => rfl
  | cons job jobs ih => exact congrArg Nat.succ (ih _)

/-- What a bulk call has done: it has enqueued a job for each of its texts, or nothing. -/
def Bulked (q : Queue D) (others : Store → Store → Prop) (payloads : List (Option Json))
    (opts : JsPushOptions) (s : Store)
    (es : List (Event QueueOp.Val)) (s' : Store) : Except String (List JobId) → Prop
  | .ok ids =>
      ∃ texts, payloads = texts.map some ∧ ids.length = (QueueOp.jobs q.name texts opts).length ∧
      enqueued es = (QueueOp.jobs q.name texts opts).zip ids
  | .error _ => Untouched others s es s'

theorem wp_nativePushBulk (payloads : List (Option Json)) (opts : JsPushOptions) :
    (runtime others).wp (nativePushBulk q.name payloads opts)
      (Bulked q others payloads opts s) s := by
  refine Place.wp_op (fun s₁ s₂ r ho ha => ?_)
  have hfailed (e : String) : Bulked q others payloads opts
    s [⟨.pushBulk q.name payloads opts, .error e⟩] s₁ (.error e) :=
    ⟨rfl, .single ho⟩
  rcases ha with ⟨now, ha⟩ | ⟨e, rfl, rfl⟩
  · rw [QueueOp.exec] at ha
    split at ha
    · cases ha
      exact hfailed _
    · next texts htexts =>
        cases ha
        refine ⟨texts, eq_map_some_of_mapM htexts, length_push_ids _ _ _, ?_⟩
        have hfilter : payloads.filterMap id = texts := by
          rw [eq_map_some_of_mapM htexts, List.filterMap_map]
          exact List.filterMap_some
        rw [enqueued_bulk, hfilter]
  · exact hfailed e

def Pushed (q : Queue D) (others : Store → Store → Prop) (options : PushOptions) (item : Option D)
    (s : Store)
    (es : List (Event QueueOp.Val)) (s' : Store) : Except String JobId → Prop
  | .ok id => q.pushable options item = true ∧ ∃ e, enqueued es = [e] ∧ e.2 = id ∧ q.Carries item e
  | .error _ => Untouched others s es s'

theorem wp_push (options : PushOptions) (item : Option D) :
    (runtime others).wp (q.push item options) (q.Pushed others options item s) s := by
  refine Place.wp_bind (Place.wp_ofExcept ?_)
  cases hpayload : q.validate item with
  | error e => exact untouched_nil
  | ok payload =>
      refine Place.wp_bind (Place.wp_mono (q.wp_admitIncoming 1) (fun es s₁ r hr => ?_))
      obtain ⟨huntouched, hbound⟩ := hr
      cases r with
      | error e => exact huntouched
      | ok u =>
          refine Place.wp_bind (Place.wp_ofExcept ?_)
          cases hopts : q.pushOptions options item with
          | error e => exact huntouched.append untouched_nil
          | ok opts =>
              refine Place.wp_bind
                (Place.wp_mono (wp_nativePushBulk [payload] opts) (fun es' s₂ r hr => ?_))
              cases r with
              | error e => exact huntouched.append hr
              | ok ids =>
                  obtain ⟨texts, htexts, hlen, henqueued⟩ := hr
                  obtain ⟨text, rfl, rfl⟩ : ∃ text, payload = some text ∧ texts = [text] := by
                    cases texts with
                    | nil => cases htexts
                    | cons text rest =>
                        obtain ⟨rfl, hrest⟩ := List.cons.inj htexts
                        exact ⟨text, rfl, congrArg (text :: ·) (List.map_eq_nil_iff.mp hrest.symm)⟩
                  obtain ⟨n, rfl⟩ := List.length_eq_one_iff.mp hlen
                  have hjob : q.job item options = .ok (nativeJob q.name text opts) := by
                    rw [job, hpayload, hopts]
                    rfl
                  refine ⟨?_, (nativeJob q.name text opts, n), ?_, rfl, text, hpayload, rfl, rfl⟩
                  · rw [pushable, hjob, Bool.and_eq_true]
                    exact ⟨rfl, hbound u rfl⟩
                  · show enqueued (es ++ (es' ++ [])) = _
                    rw [List.append_nil, enqueued_append, huntouched.1, henqueued]
                    rfl

/-- What the loop has done. Where it stops at a later item, the pushes before that one stay. -/
def Looped (q : Queue D) (others : Store → Store → Prop) (options : PushOptions)
    (items : List (Option D)) (s : Store)
    (es : List (Event QueueOp.Val)) (s' : Store) : Except String (List JobId) → Prop
  | .ok ids => (enqueued es).map (·.2) = ids ∧ List.Forall₂ q.Carries items (enqueued es)
  | .error _ =>
      ∃ item rest, items = item :: rest ∧
        (rest = [] ∨ q.pushable options item = false → Untouched others s es s')

theorem wp_pushEach (options : PushOptions) (items : List (Option D)) :
    (runtime others).wp (q.pushEach options items) (q.Looped others options items s) s := by
  induction items generalizing s with
  | nil => exact ⟨rfl, .nil⟩
  | cons item items ih =>
      refine Place.wp_bind (Place.wp_mono (wp_push options item) (fun es s₁ r hr => ?_))
      cases r with
      | error e => exact ⟨item, items, rfl, fun _ => hr⟩
      | ok n =>
          obtain ⟨hpushable, e, henqueued, rfl, hcarries⟩ := hr
          refine Place.wp_bind (Place.wp_mono ih (fun es' s₂ r hr => ?_))
          cases r with
          | error e' =>
              -- the first item is in the store, and there was another one
              obtain ⟨next, rest, rfl, _⟩ := hr
              refine ⟨item, next :: rest, rfl, fun hor => ?_⟩
              rcases hor with hnil | hnot
              · cases hnil
              · rw [hpushable] at hnot
                cases hnot
          | ok ids =>
              obtain ⟨hids, hall⟩ := hr
              have hsplit : enqueued (es ++ (es' ++ [])) = e :: enqueued es' := by
                rw [List.append_nil, enqueued_append, henqueued]
                rfl
              show (enqueued (es ++ (es' ++ []))).map (·.2) = _ ∧
                List.Forall₂ q.Carries _ (enqueued (es ++ (es' ++ [])))
              rw [hsplit]
              exact ⟨congrArg (e.2 :: ·) hids, .cons hcarries hall⟩

theorem wp_bulk (hkeyed : q.keyed = false) (options : PushOptions) (items : List (Option D)) :
    (runtime others).wp (q.pushBulk items options) (q.AllOrNothing others items s) s := by
  rw [pushBulk, hkeyed, if_neg Bool.false_ne_true]
  refine Place.wp_bind (Place.wp_ofExcept ?_)
  cases hpayloads : items.mapM q.validate with
  | error e => exact untouched_nil
  | ok payloads =>
      refine Place.wp_bind
        (Place.wp_mono (q.wp_admitIncoming payloads.length) (fun es s₁ r hr => ?_))
      obtain ⟨huntouched, _⟩ := hr
      cases r with
      | error e => exact huntouched
      | ok u =>
          refine Place.wp_bind (Place.wp_ofExcept ?_)
          cases hopts : q.pushOptions options none with
          | error e => exact huntouched.append untouched_nil
          | ok opts =>
              refine Place.wp_mono (wp_nativePushBulk payloads opts) (fun es' s₂ r hr => ?_)
              cases r with
              | error e => exact huntouched.append hr
              | ok ids =>
                  obtain ⟨texts, rfl, hlen, henqueued⟩ := hr
                  have hsplit : enqueued (es ++ es') =
                    (QueueOp.jobs q.name texts opts).zip ids := by
                    rw [enqueued_append, huntouched.1, henqueued]
                    rfl
                  have hjobs : List.Forall₂ (fun item job => q.Carries item (job, 0)) items
                    (QueueOp.jobs q.name texts opts) :=
                    List.forall₂_map_right_iff.mpr
                      ((List.forall₂_map_right_iff.mp (forall₂_of_mapM_eq_ok hpayloads)).imp
                      (fun _ text htext => ⟨text, htext, rfl, rfl⟩))
                  show (enqueued (es ++ es')).map (·.2) = ids ∧
                    List.Forall₂ q.Carries items (enqueued (es ++ es'))
                  rw [hsplit]
                  exact ⟨List.map_snd_zip (Nat.le_of_eq hlen), forall₂_zip hjobs hlen⟩

theorem runs_answered {op : QueueOp} {r : Except String op.Val} (h : op.exec s 0 = (s', r)) :
    (runtime Eq).Runs s (.op op) [⟨op, r⟩] s' r :=
  Place.runs_op rfl (Or.inl ⟨0, h⟩)

theorem runs_refused (s : Store) (op : QueueOp) :
    (runtime Eq).Runs s (.op op) [⟨op, .error "refused"⟩] s (.error "refused") :=
  Place.runs_op rfl (Or.inr ⟨_, rfl, rfl⟩)

theorem runs_admitIncoming (h : q.maxPending.all (fun limit => (1 : Int) ≤ limit) = true) :
    ∃ es, (runtime Eq).Runs .empty (q.admitIncoming 1) es .empty (.ok ()) := by
  rw [admitIncoming]
  cases hmax : q.maxPending with
  | none => exact ⟨[], .ret _ _⟩
  | some limit =>
      rw [hmax, Option.all_some, decide_eq_true_eq] at h
      have hcount : QueueOp.exec .empty 0 (.pendingCount q.name) = (.empty, .ok (0 : Nat)) := rfl
      have hpass : (runtime Eq).Runs .empty
        (if limit < ((0 + 1 : Nat) : Int) then throw (q.full 0 limit) else pure ()) []
          .empty (.ok ()) := by
        have hle : ¬ limit < ((0 + 1 : Nat) : Int) := not_lt.mpr h
        rw [if_neg hle]
        exact .ret _ _
      exact ⟨_, (runs_answered hcount).bind hpass⟩

theorem runs_push (h : q.pushable options item = true) :
    ∃ es s' n, (runtime Eq).Runs .empty (q.push item options) es s' (.ok n) := by
  rw [pushable, Bool.and_eq_true] at h
  obtain ⟨hjob, hmax⟩ := h
  obtain ⟨es, hadmitted⟩ := runs_admitIncoming hmax
  cases hpayload : q.validate item with
  | error e =>
      rw [job, hpayload] at hjob
      cases hjob
  | ok payload =>
      cases hopts : q.pushOptions options item with
      | error e =>
          rw [job, hpayload, hopts] at hjob
          cases hjob
      | ok opts =>
          cases payload with
          | none =>
              rw [job, hpayload, hopts] at hjob
              cases hjob
          | some text =>
              have hbulk : QueueOp.exec .empty 0 (.pushBulk q.name [some text] opts) =
                  ((Store.push .empty [nativeJob q.name text opts] 0).1, .ok [0]) := rfl
              rw [push, hpayload, hopts]
              exact ⟨_, _, _,
                (Place.runs_ofExcept _ _).bind (hadmitted.bind ((Place.runs_ofExcept _ _).bind
                ((runs_answered hbulk).bind (Place.runs_ofExcept (.ok 0) _))))⟩

/-- Any push may fail: there is always a call that the store may refuse. -/
theorem runs_push_error (s : Store) (options : PushOptions) (item : Option D) :
    ∃ es e, (runtime Eq).Runs s (q.push item options) es s (.error e) := by
  rw [push]
  cases q.validate item with
  | error e => exact ⟨_, e, (Place.runs_ofExcept _ s).bind_error _⟩
  | ok payload =>
      rw [admitIncoming]
      cases q.maxPending with
      | some limit =>
          exact ⟨_, _,
            (Place.runs_ofExcept _ s).bind (((runs_refused s _).bind_error _).bind_error _)⟩
      | none =>
          cases q.pushOptions options item with
          | error e =>
              exact ⟨_, e,
                (Place.runs_ofExcept _ s).bind
                  ((Place.Runs.ret s ()).bind ((Place.runs_ofExcept _ s).bind_error _))⟩
          | ok opts =>
              exact ⟨_, _,
                (Place.runs_ofExcept _ s).bind
                  ((Place.Runs.ret s ()).bind ((Place.runs_ofExcept _ s).bind
                ((runs_refused s _).bind_error _)))⟩

/-- Whatever fails, and whoever else writes to the store, a bulk push is all or nothing if and only
if the queue asks for no key, or there is at most one item, or the first item cannot be pushed. -/
theorem pushBulk_all_or_nothing_iff (q : Queue D) (options : PushOptions)
    (items : List (Option D)) :
    (∀ (others : Store → Store → Prop) (s : Store) (es : List (Event QueueOp.Val)) (s' : Store)
    (r : Except String (List JobId)),
        (runtime others).Runs s (q.pushBulk items options) es s' r →
        q.AllOrNothing others items s es s' r) ↔
      q.keyed = false ∨ items.length ≤ 1 ∨ items.head?.any (q.pushable options) = false := by
  constructor
  · intro h
    by_contra hnot
    rw [not_or, not_or, Bool.not_eq_false, Bool.not_eq_false] at hnot
    obtain ⟨hkeyed, hlen, hpushable⟩ := hnot
    match items, hlen, hpushable with
    | [], hlen, _ => exact hlen (Nat.zero_le 1)
    | [item], hlen, _ => exact hlen (Nat.le_refl 1)
    | item :: next :: rest, _, hpushable =>
        obtain ⟨es, s', n, hfirst⟩ := runs_push hpushable
        obtain ⟨es', e, hsecond⟩ := runs_push_error s' options next
        have hrun : (runtime Eq).Runs .empty (q.pushBulk (item :: next :: rest) options) (es ++ es')
          s' (.error e) := by
          rw [pushBulk, hkeyed, if_pos rfl]
          exact hfirst.bind ((hsecond.bind_error _).bind_error _)
        have hpushed := hfirst.post (wp_push options item)
        obtain ⟨_, job, henqueued, _⟩ := hpushed
        have hnone := (h Eq _ _ _ _ hrun).1
        rw [enqueued_append, henqueued] at hnone
        cases hnone
  · intro hor others s es s' r hrun
    cases hkeyed : q.keyed with
    | false => exact hrun.post (wp_bulk hkeyed options items)
    | true =>
        rw [pushBulk, hkeyed, if_pos rfl] at hrun
        have hlooped := hrun.post (wp_pushEach options items)
        cases r with
        | ok ids => exact hlooped
        | error e =>
            obtain ⟨item, rest, rfl, huntouched⟩ := hlooped
            apply huntouched
            rcases hor with hfalse | hlen | hhead
            · rw [hkeyed] at hfalse
              cases hfalse
            · exact .inl (List.length_eq_zero_iff.mp (Nat.le_zero.mp (Nat.le_of_succ_le_succ hlen)))
            · exact .inr hhead

end Runs

section Sample

def digits : Queue Nat where
  name := "digits"
  concurrencyKey := none
  retries := none
  debounce := some ⟨fun _ => .ok "k", .ok 5000⟩
  throttle := none
  maxPending := none
  schema := some (fun data => .ok (if data.all (· < 10) then .ok data else .error ["too big"]))
  stringify := fun data => .ok (data.map (fun n => .int n))
  defaultRetries := 2

def plainOptions : PushOptions := ⟨none, none, none⟩

def waiting : Store :=
  (Store.push .empty [⟨"digits", .data (.int 7), 0, 5000, 3, none, some "k", none, none⟩] 0).1

def answer (s : Store) (op : QueueOp) : Option (Store × Except String op.Val) := some (op.exec s 0)

/-- The second item is not valid; by then the first one is enqueued, and the earlier job is gone. -/
theorem pushBulk_partial : ∃ es s' e,
    (runtime Eq).Runs waiting (digits.pushBulk [some 1, some 10] plainOptions) es s' (.error e) ∧
    (waiting.jobs.get? 0).isSome ∧ s'.jobs.get? 0 = none ∧ (enqueued es).length = 1 ∧
    ¬ digits.AllOrNothing Eq [some 1, some 10] waiting es s' (.error e) := by
  have hcheck : ((digits.pushBulk [some 1, some 10] plainOptions).exec answer waiting).any (fun x =>
      !x.2.2.isOk && decide (x.2.1.jobs.get? 0 = none ∧ (enqueued x.1).length = 1)) = true := by
    decide +kernel
  cases hexec : (digits.pushBulk [some 1, some 10] plainOptions).exec answer waiting with
  | none =>
      rw [hexec] at hcheck
      cases hcheck
  | some x =>
      obtain ⟨es, s', r⟩ := x
      have hrun : (runtime Eq).Runs waiting (digits.pushBulk [some 1, some 10] plainOptions)
        es s' r :=
        Prog.exec_runs (fun _ => rfl) (fun _ _ _ _ ha => Or.inl ⟨0, Option.some.inj ha⟩) hexec
      rw [hexec, Option.any_some, Bool.and_eq_true, decide_eq_true_eq] at hcheck
      obtain ⟨herror, hgone, hone⟩ := hcheck
      cases r with
      | ok ids => cases herror
      | error e =>
          refine ⟨es, s', e, hrun, by decide, hgone, hone, fun hnone => ?_⟩
          rw [hnone.1] at hone
          cases hone

end Sample

end Queue

end ZenZip
