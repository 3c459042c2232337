import ZenZip.Sdk.Llm
import ZenZip.Lib.Window
import ZenZip.Lib.Pool

namespace ZenZip

open Lib

namespace Role

def text : Role → String
  | .user => "user"
  | .assistant => "assistant"

end Role

/-- What `AgentMemory` has for `compress`: a provider, and a model. -/
structure AgentMemory where
  provider : Bool
  model : Option String
  deriving DecidableEq

namespace AgentMemory

def keepRecent : Nat := 6

def compresses (m : AgentMemory) (messages : List LlmMessage) : Bool :=
  m.provider && m.model.any (· ≠ "") && keepRecent < messages.length

def transcript (older : List LlmMessage) : String :=
  "\n".intercalate
    (older.map (fun m => m.role.text ++ ": " ++ " ".intercalate (m.content.map LlmContent.textOr)))

def compressRequest (messages : List LlmMessage) : List LlmMessage :=
  let older := messages.take (messages.length - keepRecent)
  [.ofText .user
    ("Summarize this conversation so far, preserving facts, decisions, and open threads:\n\n" ++
    transcript older)]

/-- What `compress` returns, when its provider answers `res`. -/
def compress (m : AgentMemory) (messages : List LlmMessage) (res : LlmResponse) : List LlmMessage :=
  if m.compresses messages then
    .ofText .user ("[memory] Earlier context: " ++ textContent res) :: sliceLast keepRecent messages
  else messages

end AgentMemory

structure AgentTool where
  name : String
  requiresApproval : Bool
  handoff : Option String

/-- `output` is `validateText`: the value of a text, or the problem with it. -/
structure AgentOptions where
  tools : List AgentTool
  maxIterations : Option Nat
  maxTotalTokens : Option Nat
  historyWindow : Option Int
  approvalTimeout : Option Int
  output : Option (String → Except String Json)
  memory : Option AgentMemory

namespace AgentOptions

/-- `new Map(tools.map(t => [t.name, t]))`: the last tool of a name counts. -/
def toolByName (options : AgentOptions) (name : String) : Option AgentTool :=
  options.tools.reverse.find? (fun t => t.name = name)

def window (options : AgentOptions) : Int := options.historyWindow.getD 20

end AgentOptions

structure AgentRunInput where
  message : String
  sessionId : Option String

namespace AgentRunInput

/-- The empty id counts as none. -/
def session? (input : AgentRunInput) : Option String := input.sessionId.filter (· ≠ "")

def userMessage (input : AgentRunInput) : LlmMessage := .ofText .user input.message

end AgentRunInput

structure ApprovalDecision where
  approved : Bool
  reason : Option String

inductive AgentStep
  | session (agent : String) (sessionId : Option String) (window : Int)
  | memoryRecall (message : String) (sessionId : Option String)
  | memoryCompress (memory : AgentMemory) (messages : List LlmMessage)
  | llm (i : Nat) (messages : List LlmMessage)
  | approval (i : Nat) (toolUseId : String) (timeout : Int)
  | handoff (i : Nat) (toolUseId workflow : String) (message : Json)
  | tool (i : Nat) (call : ToolUse)
  | llmOutputFix (messages : List LlmMessage)
  | memoryRemember (text : String) (sessionId : Option String)
  | saveSession (agent sessionId : String) (messages : List LlmMessage) (finalText : String)
    (window : Int)

namespace AgentStep

abbrev Val : AgentStep → Type
  | .session _ _ _ | .memoryCompress _ _ => List LlmMessage
  | .memoryRecall _ _ => List String
  | .llm _ _ | .llmOutputFix _ => LlmResponse
  | .approval _ _ _ => Option ApprovalDecision
  | .handoff _ _ _ _ => String
  | .tool _ _ => Json
  | .memoryRemember _ _ | .saveSession _ _ _ _ _ => Unit

def prompt? : AgentStep → Option (List LlmMessage)
  | .llm _ messages | .llmOutputFix messages => some messages
  | .memoryCompress memory messages =>
      if memory.compresses messages then some (AgentMemory.compressRequest messages) else none
  | _ => none

end AgentStep

abbrev AgentM := Prog AgentStep.Val

structure AgentResult where
  text : String
  output : Option Json
  usage : LlmUsage
  iterations : Nat
  toolCalls : Nat

/-- The variables of `runAgentLoop` after its loop. -/
structure LoopEnd where
  messages : List LlmMessage
  finalText : String
  usage : LlmUsage
  iterations : Nat
  toolCalls : Nat

namespace Agent

/-- `await step.run(...)` and its like. -/
def step (s : AgentStep) : AgentM s.Val := @Prog.op AgentStep AgentStep.Val s

section Loop

variable (stringify : Json → String) (agentName : String) (options : AgentOptions)

def resultText : Json → String
  | .str s => s
  | v => stringify v

def denial : Option ApprovalDecision → String
  | none => "approval timed out"
  | some decision => match decision.reason.filter (· ≠ "") with
    | some reason => s!"denied by operator: {reason}"
    | none => "denied by operator"

def handoffMessage (input : Json) : Json :=
  match input.get "message" with
  | none | some .null => .str ""
  | some message => message

def runTool (i : Nat) (call : ToolUse) (toolDef : AgentTool) : AgentM LlmContent :=
  match toolDef.handoff with
  | some workflow => do
    let text ← step (.handoff i call.id workflow (handoffMessage call.input))
    return .toolResult call.id text false
  | none => do
    let result ← step (.tool i call)
    return .toolResult call.id (resultText stringify result) false

/-- One pass of the loop over the calls of a response. -/
def runCall (i : Nat) (call : ToolUse) : AgentM LlmContent :=
  match options.toolByName call.name with
  | none => return .toolResult call.id s!"unknown tool \"{call.name}\"" true
  | some toolDef =>
    if toolDef.requiresApproval then do
      let decision ← step (.approval i call.id (options.approvalTimeout.getD 3600000))
      if decision.any (·.approved) then runTool stringify i call toolDef
      else return .toolResult call.id (denial decision) true
    else runTool stringify i call toolDef

def runCalls (i : Nat) : List ToolUse → AgentM (List LlmContent)
  | [] => return []
  | call :: calls => do
    let result ← runCall stringify options i call
    let results ← runCalls i calls
    return result :: results

/-- The iterations from the `i`-th on, when `left` of them are allowed. -/
def iterate (i : Nat) (messages : List LlmMessage) (usage : LlmUsage) (toolCalls : Nat) :
    (left : Nat) → AgentM LoopEnd
  | 0 => return ⟨messages, "", usage, i, toolCalls⟩
  | left + 1 => do
    let response ← step (.llm i messages)
    let usage := usage.add response.usage
    let calls := toolUses response
    if options.maxTotalTokens.any (· < usage.inputTokens + usage.outputTokens) then
      let budget := options.maxTotalTokens.getD 0
      throw s!"agent \"{agentName}\" exceeded the token budget ({budget})"
    else if calls.isEmpty then
      return ⟨messages, textContent response, usage, i + 1, toolCalls⟩
    else do
      let results ← runCalls stringify options i calls
      let turn : List LlmMessage := [⟨.assistant, response.content⟩, ⟨.user, results⟩]
      if left = 0 then
        let maxIterations := options.maxIterations.getD 10
        throw s!"agent \"{agentName}\" exceeded {maxIterations} iterations without a final answer"
      else iterate (i + 1) (messages ++ turn) usage (toolCalls + calls.length) left

def problem (error : String) : String :=
  s!"Your answer must be ONLY valid JSON matching the required schema. Problem: {error}. Respond again with only the JSON."

/-- Structured output, with one corrective round. -/
def structured (e : LoopEnd) : AgentM (LoopEnd × Option Json) :=
  match options.output with
  | none => return (e, none)
  | some validateText => match validateText e.finalText with
    | .ok value => return (e, some value)
    | .error error => do
      let messages := e.messages ++ [.ofText .assistant e.finalText, .ofText .user (problem error)]
      let fix ← step (.llmOutputFix messages)
      match validateText (textContent fix) with
      | .ok value =>
        return ({ e with messages, finalText := textContent fix, usage := e.usage.add fix.usage },
          some value)
      | .error error => throw s!"agent \"{agentName}\" output failed validation: {error}"

def recalledBlock : List String → List LlmMessage
  | [] => []
  | recalled => [.ofText .user ("[memory] Relevant context:\n" ++ "\n".intercalate recalled)]

/-- The session, the memories and the compression: the messages that the loop starts from. -/
def opening (input : AgentRunInput) : AgentM (List LlmMessage) := do
  let history ← step (.session agentName input.session? options.window)
  match options.memory with
  | none => return history ++ [input.userMessage]
  | some memory => do
    let recalled ← step (.memoryRecall input.message input.sessionId)
    step (.memoryCompress memory (history ++ recalledBlock recalled ++ [input.userMessage]))

def remember (input : AgentRunInput) (finalText : String) : AgentM Unit :=
  match options.memory with
  | none => return
  | some _ =>
      step (.memoryRemember ("Q: " ++ input.message ++ "\nA: " ++ finalText) input.sessionId)

def saveSession (input : AgentRunInput) (e : LoopEnd) : AgentM Unit :=
  match input.session? with
  | none => return
  | some sessionId => step (.saveSession agentName sessionId e.messages e.finalText options.window)

def runAgentLoop (input : AgentRunInput) : AgentM AgentResult := do
  let messages ← opening agentName options input
  let e ← iterate stringify agentName options 0 messages ⟨0, 0⟩ 0 (options.maxIterations.getD 10)
  let (e, output) ← structured agentName options e
  remember options input e.finalText
  saveSession agentName options input e
  return ⟨e.finalText, output, e.usage, e.iterations, e.toolCalls⟩

end Loop

end Agent

end ZenZip
