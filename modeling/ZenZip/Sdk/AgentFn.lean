import ZenZip.Sdk.AgentLoop
import ZenZip.Sdk.Replay

namespace ZenZip

open Lib

namespace Json

def arr? : Json → Option (List Json)
  | .arr items => some items
  | _ => none

def text? : Json → Option String
  | .str s => some s
  | _ => none

end Json

namespace AgentRunInput

def ofJson (j : Json) : AgentRunInput := ⟨(j.str? "message").getD "", j.str? "sessionId"⟩

end AgentRunInput

namespace AgentResult

/-- The output of the run, less the estimate of its cost. -/
def toJson (result : AgentResult) : Json :=
  .obj ([("text", .str result.text)] ++
    result.output.toList.map (fun output => ("output", output)) ++
    [("usage", .obj [("inputTokens", .int result.usage.inputTokens),
      ("outputTokens", .int result.usage.outputTokens),
        ("totalTokens", .int (result.usage.inputTokens + result.usage.outputTokens))]),
      ("iterations", .int result.iterations), ("toolCalls", .int result.toolCalls)])

end AgentResult

namespace ApprovalDecision

/-- What `waitForEvent` returns at a gate: null behind a timeout, else the payload of the event. -/
def ofJson (v : Json) : Option ApprovalDecision :=
  if v.truthy then some ⟨(v.get "approved").any Json.truthy, v.str? "reason"⟩ else none

end ApprovalDecision

namespace Agent

def approvalEvent : String := "zenzip.agent.approval"

def approvalStep (i : Nat) (toolUseId : String) : StepId := s!"approval-{i}-{toolUseId}"

def approvalMatch (runId : RunId) (toolUseId : String) : Json :=
  .obj [("runId", .str (toString runId)), ("toolUseId", .str toolUseId)]

end Agent

namespace AgentStep

open Agent

def id : AgentStep → StepId
  | .session _ _ _ => "session"
  | .memoryRecall _ _ => "memory-recall"
  | .memoryCompress _ _ => "memory-compress"
  | .llm i _ => s!"llm-{i}"
  | .approval i toolUseId _ => approvalStep i toolUseId
  | .handoff i toolUseId _ _ => s!"handoff-{i}-{toolUseId}"
  | .tool i call => s!"tool-{i}-{call.id}"
  | .llmOutputFix _ => "llm-output-fix"
  | .memoryRemember _ _ => "memory-remember"
  | .saveSession _ _ _ _ _ => "save-session"

def action (runId : RunId) (c : AgentStep) : Action :=
  match c with
  | .approval _ toolUseId timeout =>
    .waitForEvent c.id approvalEvent (some timeout) (some (approvalMatch runId toolUseId))
  | .handoff _ _ workflow message => .invoke c.id workflow (some (.obj [("message", message)]))
  | _ => .run c.id

variable (stringify : Json → String)

def decoded {α : Type} (id : StepId) : Option α → Except String α
  | some a => .ok a
  | none => .error s!"unexpected result of step \"{id}\""

def answer (c : AgentStep) : StepValue → Except String c.Val
  | .error e => .error (resultText stringify e)
  | .ok v => match c with
    | .session _ _ _ | .memoryCompress _ _ =>
        decoded c.id ((v.bind Json.arr?).bind (·.mapM LlmMessage.ofJson))
    | .memoryRecall _ _ => decoded c.id ((v.bind Json.arr?).bind (·.mapM Json.text?))
    | .llm _ _ | .llmOutputFix _ => decoded c.id (v.bind LlmResponse.ofJson)
    | .approval _ _ _ => .ok (v.bind ApprovalDecision.ofJson)
    | .handoff _ _ _ _ => decoded c.id (v.bind (·.str? "text"))
    | .tool _ _ => .ok (v.getD .null)
    | .memoryRemember _ _ | .saveSession _ _ _ _ _ => .ok ()

end AgentStep

namespace Agent

section Fn

variable (stringify : Json → String) (agentName : String) (options : AgentOptions) (runId : RunId)

def resume : AgentM AgentResult → StepValue → AgentM AgentResult
  | .call c k, v => k (c.answer stringify v)
  | p, _ => p

def current : AgentM AgentResult → Action
  | .ret result => .returns (some result.toJson)
  | .throw e => .throws e
  | .call c _ => c.action runId

def resumed (input : Json) (values : List StepValue) : AgentM AgentResult :=
  values.foldl (resume stringify) (runAgentLoop stringify agentName options (.ofJson input))

/-- The function of the workflow `agent:<name>`. -/
def agentFn : WorkflowFn :=
  fun input values => current runId (resumed stringify agentName options input values)

end Fn

def gatedIds (options : AgentOptions) (res : LlmResponse) : List String :=
  ((toolUses res).filter (fun call => (options.toolByName call.name).any (·.requiresApproval))).map
    (·.id)

/-- The ghost state is the responses so far; a gate is for a call of the response of its iteration.
-/
def gating (options : AgentOptions) : Discipline AgentStep.Val (List (Nat × LlmResponse)) where
  next g c r := match c, r with
    | .llm i _, .ok res => g ++ [(i, res)]
    | _, _ => g
  allowed g c := match c with
    | .approval i toolUseId _ => ∃ res, (i, res) ∈ g ∧ toolUseId ∈ gatedIds options res
    | _ => True
  answers _ _ := True

def Responded (entries : List StepEntry) (i : Nat) (res : LlmResponse) : Prop :=
  ∃ x ∈ entries, x.id = (AgentStep.llm i []).id ∧ x.result.bind LlmResponse.ofJson = some res

section Gating

variable {options : AgentOptions}

theorem mem_gatedIds {res : LlmResponse} {call : ToolUse} {toolDef : AgentTool}
    (hcall : call ∈ toolUses res)
    (htool : options.toolByName call.name = some toolDef)
    (hgate : toolDef.requiresApproval = true) :
    call.id ∈ gatedIds options res := by
  apply List.mem_map_of_mem
  apply List.mem_filter.mpr
  refine ⟨hcall, ?_⟩
  rw [htool]
  exact hgate

theorem wp_opening (agentName : String) (input : AgentRunInput) :
    (gating options).wp (opening agentName options input) (fun _ _ => True) [] := by
  rw [opening, Discipline.wp_bind, wp_step]
  refine ⟨trivial, fun r _ => ?_⟩
  cases r with
  | error e => trivial
  | ok history =>
      rw [Discipline.seq_ok]
      cases options.memory with
      | none => trivial
      | some memory =>
          dsimp only
          rw [Discipline.wp_bind, wp_step]
          refine ⟨trivial, fun r _ => ?_⟩
          cases r with
          | error e => trivial
          | ok recalled =>
              rw [Discipline.seq_ok, wp_step]
              exact ⟨trivial, fun _ _ => trivial⟩

def gated (options : AgentOptions) (agentName : String) (input : AgentRunInput) :
    Invariant (gating options) input agentName options [] where
  I _ _ _ := True
  Done _ _ := True
  opening := Discipline.wp_mono _ (wp_opening agentName input) (fun _ _ _ _ _ => trivial)
  llm _ _ _ _ := trivial
  call i messages g res _ _ call hcall c hc := by
    cases hc with
    | approval timeout htool hgate =>
        refine ⟨⟨res, ?_, mem_gatedIds hcall htool hgate⟩, fun _ => rfl⟩
        exact List.mem_append_right g (List.mem_singleton_self (i, res))
    | handoff | tool => exact ⟨trivial, fun _ => rfl⟩
  turn _ _ _ _ _ _ _ _ := trivial
  final _ _ _ _ _ _ := trivial
  unasked _ _ _ _ := trivial
  fix _ _ _ _ _ := ⟨trivial, fun _ => trivial⟩
  remembered _ _ _ _ _ := ⟨trivial, fun _ => trivial⟩
  save _ _ _ _ _ _ := trivial

end Gating

section Trace

open Replay

variable {stringify : Json → String} {agentName : String} {options : AgentOptions} {r : RunId}
  {input : Json} {s : Store}
  {t entries entries' : List StepEntry} {i : Nat} {res : LlmResponse}

theorem Responded.mono (h : Responded entries i res) (hsub : entries ⊆ entries') :
    Responded entries' i res := by
  obtain ⟨x, hx, hrest⟩ := h
  exact ⟨x, hsub hx, hrest⟩

theorem responded_next {c : AgentStep} {e : StepEntry} {g : List (Nat × LlmResponse)}
    {p : Nat × LlmResponse}
    (hg : ∀ p ∈ g, Responded t p.1 p.2) (hreq : (c.action r).request = some (e.id, e.kind))
    (hp : p ∈ (gating options).next g c (c.answer stringify e.value)) :
    Responded (t ++ [e]) p.1 p.2 := by
  have hold : p ∈ g → Responded (t ++ [e]) p.1 p.2 :=
    fun hm => (hg p hm).mono (List.subset_append_left t [e])
  cases c with
  | llm i messages =>
      have hk : (AgentStep.llm i messages).id = e.id ∧ StepKind.run = e.kind :=
        Prod.mk.inj (Option.some.inj hreq)
      have hval : e.value = .ok e.result := by
        rw [StepEntry.value, ← hk.2]
      rw [hval] at hp
      cases hres : e.result.bind LlmResponse.ofJson with
      | none =>
          simp only [AgentStep.answer, hres, AgentStep.decoded, gating] at hp
          exact hold hp
      | some res =>
          simp only [AgentStep.answer, hres, AgentStep.decoded, gating] at hp
          rcases List.mem_append.mp hp with hm | hm
          · exact hold hm
          · rw [List.mem_singleton] at hm
            subst hm
            exact ⟨e, List.mem_append_right t (List.mem_singleton_self e), hk.1.symm, hres⟩
  | _ => exact hold hp

theorem wp_resumed (h : Trace (agentFn stringify agentName options r) input s r t) :
    ∃ g, (gating options).wp (resumed stringify agentName options input (t.map StepEntry.value))
      (fun _ _ => True) g ∧
      ∀ p ∈ g, Responded t p.1 p.2 := by
  induction h with
  | nil =>
      exact ⟨[], (gated options agentName (.ofJson input)).wp_runAgentLoop stringify,
        List.forall_mem_nil _⟩
  | @snoc t e _ _ hk ih =>
      obtain ⟨g, hwp, hg⟩ := ih
      have hreq := (asks_eq_some_iff.mp hk).1
      rw [List.map_append, List.map_singleton, resumed, List.foldl_append, ← resumed]
      rw [agentFn] at hreq
      cases hp : resumed stringify agentName options input (t.map StepEntry.value) with
      | ret result | throw error =>
          rw [hp] at hreq
          cases hreq
      | call c k =>
          rw [hp] at hwp hreq
          exact ⟨_, hwp.2 _ trivial, fun p hm => responded_next hg hreq hm⟩

theorem gate_of_action {stepId : StepId} {event : String} {timeout : Option Int}
    {matchJson : Option Json}
    (h : Trace (agentFn stringify agentName options r) input s r t)
    (hfn : agentFn stringify agentName options r input (t.map StepEntry.value) =
      .waitForEvent stepId event timeout matchJson) :
    ∃ i toolUseId res, stepId = approvalStep i toolUseId ∧ event = approvalEvent ∧
      matchJson = some (approvalMatch r toolUseId) ∧ Responded t i res ∧
      toolUseId ∈ gatedIds options res := by
  obtain ⟨g, hwp, hg⟩ := wp_resumed h
  rw [agentFn] at hfn
  cases hp : resumed stringify agentName options input (t.map StepEntry.value) with
  | ret result | throw error =>
      rw [hp] at hfn
      cases hfn
  | call c k =>
      rw [hp] at hwp hfn
      cases c with
      | approval i toolUseId time =>
          obtain ⟨⟨res, hm, hid⟩, _⟩ := hwp
          cases hfn
          exact ⟨i, toolUseId, res, rfl, rfl, rfl, hg _ hm, hid⟩
      | _ => cases hfn

end Trace

end Agent

end ZenZip
