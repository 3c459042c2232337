import ZenZip.Lib.Text
import ZenZip.Runtime.Events
import ZenZip.Sdk.AgentFn
import ZenZip.Sdk.Waits

namespace ZenZip

open Lib Agent

/-- What `approve` and `deny` emit. -/
structure Decision where
  runId : RunId
  toolUseId : String
  approved : Bool
  reason : Option String
  deriving DecidableEq

namespace Decision

def payload (d : Decision) : Json :=
  .obj ([("runId", .str (toString d.runId)), ("toolUseId", .str d.toolUseId),
    ("approved", .bool d.approved)] ++
    d.reason.toList.map (fun reason => ("reason", .str reason)))

theorem get_runId (d : Decision) : d.payload.get "runId" = some (.str (toString d.runId)) := rfl

theorem get_toolUseId (d : Decision) : d.payload.get "toolUseId" = some (.str d.toolUseId) := rfl

theorem matchSubset_payload {r : RunId} {toolUseId : String} (d : Decision)
    (h : matchSubset (some (approvalMatch r toolUseId)) d.payload = true) :
    d.runId = r ∧ d.toolUseId = toolUseId := by
  simp only [matchSubset, approvalMatch, List.all_cons, List.all_nil, Bool.and_true,
    Bool.and_eq_true,
    decide_eq_true_eq, get_runId, get_toolUseId, Option.some.injEq, Json.str.injEq] at h
  exact ⟨Text.repr_inj (congrArg String.toList h.1), h.2⟩

end Decision

namespace Agent

def approve (runId : RunId) (toolUseId : String) : Decision := ⟨runId, toolUseId, true, none⟩

def deny (runId : RunId) (toolUseId : String) (reason : Option String) : Decision :=
  ⟨runId, toolUseId, false, reason⟩

section Ids

variable {i j : Nat} {a b : String}

theorem llmStep_inj (h : (AgentStep.llm i []).id = (AgentStep.llm j []).id) : i = j := by
  have htext := congrArg String.toList h
  simp only [AgentStep.id, String.toList_append, toString] at htext
  exact Text.repr_inj (List.append_cancel_left htext)

theorem approvalStep_inj : approvalStep i a = approvalStep j b ↔ i = j ∧ a = b := by
  constructor
  · intro h
    have htext := congrArg String.toList h
    simp only [approvalStep, String.toList_append, toString, List.append_assoc] at htext
    obtain ⟨hij, hab⟩ :=
      Text.repr_append_cons_inj (c := '-') (by decide) (List.append_cancel_left htext)
    exact ⟨hij, String.toList_injective hab⟩
  · rintro ⟨rfl, rfl⟩
    rfl

end Ids

end Agent

/-- A decision, the iteration of the call that it was issued for, and a gate that it has opened. -/
structure Taken where
  i : Nat
  decision : Decision
  waiter : Waiter

structure Approvals where
  replay : Replay
  taken : List Taken

namespace Approvals

inductive Label
  | run (l : Replay.Label)
  | decide (i : Nat) (d : Decision) (targets : List TriggerTarget) (locked : List RunId)

def init (s : Store) : Approvals := ⟨.init s, []⟩

section Step

variable (stringify : Json → String) (agentName : String) (options : AgentOptions) (r : RunId)

/-- A decision about the run is for a call of a response that the run has had. -/
def issued (s : Store) (i : Nat) (d : Decision) : Bool :=
  d.runId ≠ r || (s.loadJournal r).any (fun x => x.id = (AgentStep.llm i []).id &&
    (x.result.bind LlmResponse.ofJson).any (fun res => d.toolUseId ∈ gatedIds options res))

/-- The run of the agent among everything else that happens, decisions at any time included. -/
def step (σ : Approvals) : Time × Label → Option Approvals
  | (now, .run l) =>
    if Replay.asAsked r σ.replay.outcomes l then
      (Replay.step (agentFn stringify agentName options r) r σ.replay (now, l)).map
        (fun replay => { σ with replay })
    else none
  | (now, .decide i d targets locked) =>
    if issued options r σ.replay.store i d then
      let waiters := (σ.replay.store.emitInTx approvalEvent d.payload targets locked now).2.waiters
      (Replay.step (agentFn stringify agentName options r) r σ.replay
        (now, .engine (.call (.emitEvent approvalEvent d.payload targets) locked))).map
          (fun replay => ⟨replay, waiters.map (Taken.mk i d) ++ σ.taken⟩)
    else none

def Asks (s : Store) (i : Nat) (toolUseId : String) : Prop :=
  ∃ res, Responded (s.loadJournal r) i res ∧ toolUseId ∈ gatedIds options res

/-- What has opened a gate was issued for a call with the id of the gate. -/
def Opens (s : Store) (x : Taken) : Prop :=
  x.decision.runId = r ∧ Asks options r s x.i x.decision.toolUseId ∧
    ∃ j, x.waiter.stepId = approvalStep j x.decision.toolUseId ∧
      Asks options r s j x.decision.toolUseId

/-- The responses of a run ask for approvals under different ids. -/
def Distinct (s : Store) : Prop :=
  ∀ i j toolUseId, Asks options r s i toolUseId → Asks options r s j toolUseId → i = j

end Step

section Released

variable {stringify : Json → String} {agentName : String} {options : AgentOptions} {r : RunId}
  {input : Json}
  {s s' : Store} {σ σ' : Approvals} {i : Nat} {d : Decision}

theorem asks_of_issued (h : issued options r s i d = true) (hr : d.runId = r) :
    Asks options r s i d.toolUseId := by
  rw [issued, Bool.or_eq_true, decide_eq_true_eq] at h
  obtain ⟨x, hx, hp⟩ := List.any_eq_true.mp (h.resolve_left (not_not_intro hr))
  rw [Bool.and_eq_true, decide_eq_true_eq] at hp
  obtain ⟨res, hres, hm⟩ := (Option.any_eq_true _ _).mp hp.2
  exact ⟨res, ⟨x, hx, hp.1, hres⟩, of_decide_eq_true hm⟩

theorem Asks.mono {toolUseId : String} (h : Asks options r s i toolUseId)
    (hsub : s.loadJournal r ⊆ s'.loadJournal r) :
    Asks options r s' i toolUseId := by
  obtain ⟨res, hres, hm⟩ := h
  exact ⟨res, hres.mono hsub, hm⟩

theorem Opens.mono {x : Taken} (h : Opens options r s x)
    (hsub : s.loadJournal r ⊆ s'.loadJournal r) : Opens options r s' x := by
  obtain ⟨hrun, hown, j, hstep, hasks⟩ := h
  exact ⟨hrun, hown.mono hsub, j, hstep, hasks.mono hsub⟩

theorem gate_of_awaits {stepId : StepId} {event : String} {matchJson : Option Json}
    (h : Replay.Awaits (agentFn stringify agentName options r) input s r stepId event matchJson) :
    ∃ j toolUseId,
      stepId = approvalStep j toolUseId ∧ matchJson = some (approvalMatch r toolUseId) ∧
      Asks options r s j toolUseId := by
  obtain ⟨t, timeout, ht, hfn⟩ := h
  obtain ⟨j, toolUseId, res, hstep, _, hmatch, hres, hm⟩ := gate_of_action ht hfn
  exact ⟨j, toolUseId, hstep, hmatch, res, hres.mono (fun _ => ht.mem), hm⟩

structure Released (stringify : Json → String) (agentName : String) (options : AgentOptions)
    (r : RunId) (input : Json)
    (σ : Approvals) : Prop where
  waiting : Replay.Waiting (agentFn stringify agentName options r) input r σ.replay
  taken : ∀ x ∈ σ.taken, x.waiter.runId = r → Opens options r σ.replay.store x

theorem Released.gate {now : Time} {targets : List TriggerTarget} {locked : List RunId} {w : Waiter}
    (h : Released stringify agentName options r input σ)
    (hw : w ∈ (σ.replay.store.emitInTx approvalEvent d.payload targets locked now).2.waiters)
    (hr : w.runId = r) :
    d.runId = r ∧ ∃ j, w.stepId = approvalStep j d.toolUseId ∧
    Asks options r σ.replay.store j d.toolUseId := by
  rw [Store.emitInTx_waiters] at hw
  obtain ⟨row, hrow, rfl⟩ := List.mem_map.mp hw
  obtain ⟨hm, hp⟩ := Table.mem_select.mp hrow
  simp only [Bool.and_eq_true, decide_eq_true_eq] at hp
  have hget : σ.replay.store.getRun r = some row := by
    rw [← hr]
    exact Table.get?_key hm
  obtain ⟨stepId, event, hid, _, haw⟩ := h.waiting.row row hget hp.1.1.1
  obtain ⟨j, toolUseId, hstep, hmatch, hasks⟩ := gate_of_awaits haw
  have hmatched := hp.2
  rw [hmatch] at hmatched
  obtain ⟨hrun, rfl⟩ := d.matchSubset_payload hmatched
  refine ⟨hrun, j, ?_, hasks⟩
  rw [RunRow.waiter, hid, ← hstep]
  rfl

theorem Released.step {l : Time × Label} (h : Released stringify agentName options r input σ)
    (hs : step stringify agentName options r σ l = some σ') :
    Released stringify agentName options r input σ' := by
  obtain ⟨now, l⟩ := l
  cases l with
  | run l =>
      simp only [Approvals.step] at hs
      split at hs
      · next hok =>
          obtain ⟨replay, hreplay, rfl⟩ := Option.map_eq_some_iff.mp hs
          have hsub := h.waiting.consistent.loadJournal_subset hreplay
          exact ⟨h.waiting.step hok hreplay, fun x hx hr => (h.taken x hx hr).mono hsub⟩
      · cases hs
  | decide i d targets locked =>
      simp only [Approvals.step] at hs
      split at hs
      · next hissued =>
          obtain ⟨replay, hreplay, rfl⟩ := Option.map_eq_some_iff.mp hs
          have hsub := h.waiting.consistent.loadJournal_subset hreplay
          refine ⟨h.waiting.step rfl hreplay, fun x hx hr => ?_⟩
          rcases List.mem_append.mp hx with hx | hx
          · apply Opens.mono _ hsub
            obtain ⟨w, hw, rfl⟩ := List.mem_map.mp hx
            obtain ⟨hrun, hgate⟩ := h.gate hw hr
            exact ⟨hrun, asks_of_issued hissued hrun, hgate⟩
          · exact (h.taken x hx hr).mono hsub
      · cases hs

theorem distinct_of_entries (h : ∀ x ∈ s.loadJournal r, ∀ y ∈ s.loadJournal r, x.id ≠ y.id →
    ∀ res ∈ x.result.bind LlmResponse.ofJson, ∀ res' ∈ y.result.bind LlmResponse.ofJson,
      ∀ toolUseId ∈ gatedIds options res, toolUseId ∉ gatedIds options res') : Distinct options
        r s := by
  rintro i j toolUseId ⟨res, ⟨x, hx, hxid, hres⟩, hm⟩ ⟨res', ⟨y, hy, hyid, hres'⟩, hm'⟩
  by_contra hij
  apply h x hx y hy _ res hres res' hres' toolUseId hm hm'
  rw [hxid, hyid]
  exact fun he => hij (llmStep_inj he)

/-- As long as the calls that need an approval have ids of their own in a run, a decision opens the
gate of the call that it was issued for, and no other one. -/
theorem released_own {run : RunRow} {ok : Approvals → Time × Label → Bool} (hf : s.Fresh)
    (hrun : s.getRun r = some run)
    (hstatus : run.status = .runnable) (hj : s.loadJournal r = [])
    (h : Run (step stringify agentName options r) ok (init s) σ)
    (hd : Distinct options r σ.replay.store) :
    ∀ x ∈ σ.taken, x.waiter.runId = r → x.decision.runId = r ∧ ∀ j toolUseId,
      x.waiter.stepId = approvalStep j toolUseId ↔ j = x.i ∧ toolUseId = x.decision.toolUseId := by
  have hinv : Released stringify agentName options r run.input σ := by
    apply h.invariant (Released stringify agentName options r run.input)
    · exact ⟨.init hf hrun hstatus hj, List.forall_mem_nil _⟩
    · exact fun _ _ _ _ hI _ hs => hI.step hs
  intro x hx hr
  obtain ⟨hrun, hown, j, hstep, hasks⟩ := hinv.taken x hx hr
  refine ⟨hrun, fun k toolUseId => ?_⟩
  rw [hstep, approvalStep_inj, hd x.i j x.decision.toolUseId hown hasks, eq_comm (a := j),
    eq_comm (b := toolUseId)]

end Released

section Sample

def payer : AgentOptions := ⟨[⟨"pay", true, none⟩], none, none, none, none, none, none⟩

def invoices : Store :=
  ((Call.createRun
    ⟨"agent:payer", .obj [("message", .str "Pay the invoices.")], none, none, none, none,
      none⟩).perform .empty 0 []).1

def gives (result : Json) : List Label :=
  [.run .advance, .run (.returned (.ok result)), .run .record]

def waitsAt (i : Nat) (toolUseId : String) : List Label :=
  [.run .advance,
    .run (.engine (.call (.runWaitingEvent 0 approvalEvent (approvalStep i toolUseId) (some 3600000)
    (some (approvalMatch 0 toolUseId))) []))]

def replays (n : Nat) : List Label := .run .start :: List.replicate n (.run .advance)

/-- Two responses with a payment each, up to the gate of the second one; the first one is approved.
-/
def paying (first second : LlmResponse) (a b : String) : List Label :=
  [.run .start] ++ gives (.arr []) ++ gives first.toJson ++
    waitsAt 0 a ++ [.decide 0 (approve 0 a) [] []] ++
    replays 3 ++ gives (.str "paid") ++ gives second.toJson ++ waitsAt 1 b

def pays (amount : Int) : GeminiPart := ⟨none, some ("pay", some (.obj [("amount", .int amount)]))⟩

def callsPay (toolUseId : String) (amount : Int) : LlmResponse :=
  ⟨[.toolUse toolUseId "pay" (.obj [("amount", .int amount)])], .toolUse, ⟨3, 5⟩⟩

/-- With ids of their own: the approval of the first payment comes twice, the second payment is
denied. -/
def approvedThenDenied : List Label :=
  paying (callsPay "toolu_1" 10) (callsPay "toolu_2" 9000) "toolu_1" "toolu_2" ++
    [.decide 0 (approve 0 "toolu_1") [] [], .decide 1 (deny 0 "toolu_2" (some "too much")) [] []]

theorem released_own_payments : ∃ σ : Approvals,
    σ.taken.map (fun x => (x.i, x.decision.approved, x.waiter.stepId)) =
      [(1, false, approvalStep 1 "toolu_2"), (0, true, approvalStep 0 "toolu_1")] ∧
    ∀ x ∈ σ.taken, x.waiter.runId = 0 → x.decision.runId = 0 ∧ ∀ j toolUseId,
      x.waiter.stepId = approvalStep j toolUseId ↔ j = x.i ∧ toolUseId = x.decision.toolUseId := by
  obtain ⟨σ, h, hp⟩ :=
    Run.exists_of_replay (step (fun _ => "") "payer" payer 0) (fun _ _ => true) (init invoices)
    (approvedThenDenied.map (fun l => (0, l)))
    (fun σ => σ.taken.map (fun x => (x.i, x.decision.approved, x.waiter.stepId)) =
        [(1, false, approvalStep 1 "toolu_2"), (0, true, approvalStep 0 "toolu_1")] ∧
      ∀ x ∈ σ.replay.store.loadJournal 0, ∀ y ∈ σ.replay.store.loadJournal 0, x.id ≠ y.id →
        ∀ res ∈ x.result.bind LlmResponse.ofJson, ∀ res' ∈ y.result.bind LlmResponse.ofJson,
          ∀ toolUseId ∈ gatedIds payer res, toolUseId ∉ gatedIds payer res') (by decide +kernel)
  obtain ⟨htaken, hentries⟩ := of_decide_eq_true hp
  exact ⟨σ, htaken,
    released_own (.perform .empty _ 0 []) rfl rfl rfl h (distinct_of_entries hentries)⟩

/-- The repeated approval of the first payment lets the second one through: Gemini's calls have one
id. -/
def repeated : List Label :=
  paying (geminiResponse [pays 10] none ⟨3, 5⟩) (geminiResponse [pays 9000] none ⟨3, 5⟩) "pay-0"
    "pay-0" ++
    [.decide 0 (approve 0 "pay-0") [] []] ++ replays 7

theorem repeated_approval_opens : ∃ σ,
    Run (step (fun _ => "") "payer" payer 0) (fun _ _ => true) (init invoices) σ ∧
    (∃ x ∈ σ.taken, x.i = 0 ∧ x.decision = approve 0 "pay-0" ∧
    x.waiter = ⟨0, "agent:payer", approvalStep 1 "pay-0"⟩) ∧
    (∀ x ∈ σ.taken, x.i = 0) ∧ σ.replay.attempt.map (·.position) = some
      (.calling "tool-1-pay-0") := by
  obtain ⟨σ, h, hp⟩ :=
    Run.exists_of_replay (step (fun _ => "") "payer" payer 0) (fun _ _ => true) (init invoices)
    (repeated.map (fun l => (0, l)))
    (fun σ => (∃ x ∈ σ.taken, x.i = 0 ∧ x.decision = approve 0 "pay-0" ∧
        x.waiter = ⟨0, "agent:payer", approvalStep 1 "pay-0"⟩) ∧
      (∀ x ∈ σ.taken, x.i = 0) ∧ σ.replay.attempt.map (·.position) = some (.calling "tool-1-pay-0"))
        (by decide +kernel)
  exact ⟨σ, h, of_decide_eq_true hp⟩

end Sample

end Approvals

end ZenZip
