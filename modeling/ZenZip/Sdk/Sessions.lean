import ZenZip.Sdk.Agent
import ZenZip.Lib.Run
import ZenZip.Lib.Table

namespace ZenZip

open Lib

/-- A row of `agent_sessions`, with the messages that its JSON text stands for. -/
structure ConversationRow where
  agent : String
  id : String
  messages : List LlmMessage

namespace ConversationRow

def key (r : ConversationRow) : String × String := (r.agent, r.id)

end ConversationRow

abbrev Conversations := Table ConversationRow.key

namespace Conversations

def agentSessionGet (s : Conversations) (agent id : String) : Option (List LlmMessage) :=
  (s.get? (agent, id)).map (·.messages)

def agentSessionPut (s : Conversations) (agent id : String) (messages : List LlmMessage) :
    Conversations :=
  s.upsert ⟨agent, id, messages⟩ (fun r => { r with messages }) (fun _ => rfl)

theorem get_put (s : Conversations) (agent id : String) (messages : List LlmMessage)
    (agent' id' : String) :
    (s.agentSessionPut agent id messages).agentSessionGet agent' id' =
      if (agent', id') = (agent, id) then some messages else s.agentSessionGet agent' id' := by
  have hget :=
    Table.get?_upsert s ⟨agent, id, messages⟩ (fun r => { r with messages }) (fun _ => rfl)
      (agent', id')
  by_cases hk : (agent', id') = (agent, id)
  · refine (congrArg (Option.map ConversationRow.messages) (hget.trans (if_pos hk))).trans ?_
    rw [if_pos hk]
    cases s.get? (agent', id') <;> rfl
  · rw [if_neg hk]
    exact congrArg (Option.map ConversationRow.messages) (hget.trans (if_neg hk))

def conversation (s : Conversations) (agent id : String) : List LlmMessage :=
  (s.agentSessionGet agent id).getD []

/-- What the function of the step `session` returns. -/
def load (s : Conversations) (agent : String) (sessionId : Option String) (window : Int) :
    List LlmMessage :=
  match sessionId with
  | none => []
  | some id => sliceLast window (s.conversation agent id)

end Conversations

/-- What the function of `save-session` puts. -/
def savedMessages (messages : List LlmMessage) (finalText : String) (window : Int) :
    List LlmMessage :=
  sliceLast window (messages ++ [.ofText .assistant finalText])

/-- How the function of a step ends, as far as the sessions do not say. -/
inductive AgentChoice
  | stored
  | recalled (texts : List String)
  | response (res : LlmResponse)
  | decision (d : Option ApprovalDecision)
  | child (text : String)
  | result (value : Json)
  | fails (error : String)

namespace AgentStep

def exec (s : Conversations) : AgentChoice → (c : AgentStep) → Config.Answer Conversations Val c
  | .fails error, _ => some (s, .error error)
  | .stored, .session agent sessionId window => some (s, .ok (s.load agent sessionId window))
  | .stored, .saveSession agent id messages finalText window =>
    some (s.agentSessionPut agent id (savedMessages messages finalText window), .ok ())
  | .stored, .memoryRemember _ _ => some (s, .ok ())
  | .recalled texts, .memoryRecall _ _ => some (s, .ok texts)
  | .response res, .memoryCompress memory messages => some (s, .ok (memory.compress messages res))
  | .response res, .llm _ _ => some (s, .ok res)
  | .response res, .llmOutputFix _ => some (s, .ok res)
  | .decision d, .approval _ _ _ => some (s, .ok d)
  | .child text, .handoff _ _ _ _ => some (s, .ok text)
  | .result value, .tool _ _ => some (s, .ok value)
  | _, _ => none

variable {s s' : Conversations} {ch : AgentChoice} {c : AgentStep} {r : Except String c.Val}

theorem exec_cases (h : exec s ch c = some (s', r)) : s' = s ∨
    ∃ agent id messages finalText window, ch = .stored ∧
    c = .saveSession agent id messages finalText window ∧
      s' = s.agentSessionPut agent id (savedMessages messages finalText window) := by
  unfold exec at h
  split at h
  case h_3 agent id messages finalText window =>
    cases h
    exact .inr ⟨agent, id, messages, finalText, window, rfl, rfl, rfl⟩
  all_goals
    cases h
  all_goals
    exact .inl rfl

end AgentStep

structure AgentRun where
  agent : String
  options : AgentOptions
  input : AgentRunInput

abbrev AgentThread := Thread AgentStep.Val AgentRun AgentResult

/-- What a run has put into its messages so far: the history that it read, whether a memory block
follows it, whether the compression has cut them, and the messages from the user's on. -/
structure Draft where
  run : AgentRun
  history : List LlmMessage
  recalled : Nat
  cut : Bool
  turns : Nat

namespace Draft

def start (run : AgentRun) : Draft := ⟨run, [], 0, false, 1⟩

def next (g : Draft) : (c : AgentStep) → Except String c.Val → Draft
  | .session _ _ _, .ok history => { g with history }
  | .memoryRecall _ _, .ok recalled => { g with recalled := (Agent.recalledBlock recalled).length }
  | .memoryCompress memory messages, .ok _ => { g with cut := memory.compresses messages }
  | .llm _ _, .ok res => if (toolUses res).isEmpty then g else { g with turns := g.turns + 2 }
  | .llmOutputFix _, .ok _ => { g with turns := g.turns + 2 }
  | _, _ => g

end Draft

namespace AgentRun

variable (stringify : Json → String)

def thread (run : AgentRun) : AgentThread :=
  ⟨run, [], Agent.runAgentLoop stringify run.agent run.options run.input⟩

end AgentRun

/-- The first put of a run, and what the run brought along. -/
structure Saved where
  run : Nat
  agent : String
  id : String
  user : LlmMessage
  final : LlmMessage
  recalled : Nat
  turns : Nat
  window : Int
  compresses : Bool
  deriving DecidableEq

/-- Agent runs over the sessions. A thread is a run as its journal has it: an attempt that crashes
leaves it where it is, and the next attempt comes to the same step. `saves` are the runs that have
put their conversation, the latest first. -/
structure AgentSys where
  config : Config Conversations AgentStep.Val AgentRun AgentResult
  saves : List Saved

inductive AgentLabel
  | trigger (run : AgentRun)
  | step (i : Nat) (ch : AgentChoice)
  | unrecorded (i : Nat)

namespace AgentSys

def init : AgentSys := ⟨⟨.empty, []⟩, []⟩

def draft (t : AgentThread) : Draft := t.log.foldr (fun e g => g.next e.op e.res) (.start t.kind)

/-- The record of the put that thread `i` is about to make. -/
def record (i : Nat) (t : AgentThread) (agent id finalText : String) (window : Int) : Saved :=
  { run := i, agent, id, user := t.kind.input.userMessage, final := .ofText .assistant finalText
    recalled := (draft t).recalled, turns := (draft t).turns, window, compresses := (draft t).cut }

/-- The saves after thread `i` has put; a run counts once. -/
def noted (σ : AgentSys) (i : Nat) : List Saved :=
  match σ.config.pool[i]? with
  | some t => match t.prog with
    | .call (.saveSession agent id _ finalText window) _ =>
      if σ.saves.any (·.run = i) then σ.saves else record i t agent id finalText window :: σ.saves
    | _ => σ.saves
  | none => σ.saves

variable (stringify : Json → String)

/-- `unrecorded`: the function of a step has run, and the attempt crashes before it has recorded
the result. -/
def step (σ : AgentSys) : AgentLabel → Option AgentSys
  | .trigger run => some { σ with config := σ.config.spawn [run.thread stringify] }
  | .step i ch => (σ.config.call AgentStep.exec i ch).map (fun config => ⟨config, match ch with
    | .stored => σ.noted i
    | _ => σ.saves⟩)
  | .unrecorded i => (σ.config.call AgentStep.exec i .stored).map (fun config =>
    ⟨{ σ.config with shared := config.shared }, σ.noted i⟩)

variable {stringify : Json → String} {σ σ' : AgentSys}

theorem step_cases {l : AgentLabel} (h : σ.step stringify l = some σ') :
    (∃ run : AgentRun, σ' = { σ with config := σ.config.spawn [run.thread stringify] }) ∨
    ∃ i t c k s r, σ.config.pool[i]? = some t ∧ t.prog = .call c k ∧
      ((∃ ch, l = .step i ch ∧ AgentStep.exec σ.config.shared ch c = some (s, r) ∧
          σ'.config = ⟨s, σ.config.pool.set i (t.answer c r (k r))⟩ ∧
          σ'.saves = match ch with | .stored => σ.noted i | _ => σ.saves) ∨
        l = .unrecorded i ∧ AgentStep.exec σ.config.shared .stored c = some (s, r) ∧
          σ' = ⟨{ σ.config with shared := s }, σ.noted i⟩) := by
  cases l with
  | trigger run =>
      left
      cases h
      exact ⟨run, rfl⟩
  | step i ch =>
      right
      obtain ⟨config, hc, rfl⟩ := Option.map_eq_some_iff.mp h
      obtain ⟨t, c, k, s, r, ht, hp, he, rfl⟩ := Config.call_eq_some hc
      exact ⟨i, t, c, k, s, r, ht, hp, .inl ⟨ch, rfl, he, rfl, rfl⟩⟩
  | unrecorded i =>
      right
      obtain ⟨config, hc, rfl⟩ := Option.map_eq_some_iff.mp h
      obtain ⟨t, c, k, s, r, ht, hp, he, rfl⟩ := Config.call_eq_some hc
      exact ⟨i, t, c, k, s, r, ht, hp, .inr ⟨rfl, he, rfl⟩⟩

end AgentSys

end ZenZip
