import ZenZip.Sdk.Agent

namespace ZenZip

open Lib

namespace Agent

inductive CallStep (options : AgentOptions) (i : Nat) (call : ToolUse) : AgentStep → Prop
  | approval (timeout : Int) {toolDef : AgentTool}
  (htool : options.toolByName call.name = some toolDef)
      (hgate : toolDef.requiresApproval = true) : CallStep options i call
        (.approval i call.id timeout)
  | handoff (workflow : String) (message : Json) : CallStep options i call
    (.handoff i call.id workflow message)
  | tool : CallStep options i call (.tool i call)

structure Settles (calls : List ToolUse) (results : List LlmContent) : Prop where
  answered : results.filterMap LlmContent.answered = calls.map (·.id)
  uses : results.filterMap LlmContent.asToolUse = []

section Rules

variable {G : Type} (D : Discipline AgentStep.Val G) (stringify : Json → String)
  (options : AgentOptions)

def Plain (g : G) (c : AgentStep) : Prop := D.allowed g c ∧ ∀ r, D.next g c r = g

variable {D options} {i : Nat} {call : ToolUse} {g : G}

theorem wp_step {c : AgentStep} {Q : G → Except String c.Val → Prop} :
    D.wp (step c) Q g ↔ D.allowed g c ∧ ∀ r, D.answers c r → Q (D.next g c r) r := D.wp_op c Q g

theorem wp_runTool (h : ∀ c, CallStep options i call c → Plain D g c) (toolDef : AgentTool) :
    D.wp (runTool stringify i call toolDef)
      (fun g' r => g' = g ∧ ∀ c, r = .ok c → c.answered = some call.id ∧ c.asToolUse = none) g := by
  unfold runTool
  cases toolDef.handoff with
  | some workflow =>
      obtain ⟨hallowed, hnext⟩ := h _ (.handoff workflow (handoffMessage call.input))
      rw [D.wp_bind, wp_step]
      refine ⟨hallowed, fun r _ => ?_⟩
      rw [hnext]
      cases r with
      | ok text =>
          refine ⟨rfl, ?_⟩
          rintro _ ⟨⟩
          exact ⟨rfl, rfl⟩
      | error e => exact ⟨rfl, fun _ hc => by cases hc⟩
  | none =>
      obtain ⟨hallowed, hnext⟩ := h _ .tool
      rw [D.wp_bind, wp_step]
      refine ⟨hallowed, fun r _ => ?_⟩
      rw [hnext]
      cases r with
      | ok result =>
          refine ⟨rfl, ?_⟩
          rintro _ ⟨⟩
          exact ⟨rfl, rfl⟩
      | error e => exact ⟨rfl, fun _ hc => by cases hc⟩

theorem wp_runCall (h : ∀ c, CallStep options i call c → Plain D g c) :
    D.wp (runCall stringify options i call)
      (fun g' r => g' = g ∧ ∀ c, r = .ok c → c.answered = some call.id ∧ c.asToolUse = none) g := by
  have htool := wp_runTool stringify h
  unfold runCall
  cases hname : options.toolByName call.name with
  | none =>
      refine ⟨rfl, ?_⟩
      rintro _ ⟨⟩
      exact ⟨rfl, rfl⟩
  | some toolDef =>
      by_cases hgate : toolDef.requiresApproval = true
      · obtain ⟨hallowed, hnext⟩ :=
          h _ (.approval (options.approvalTimeout.getD 3600000) hname hgate)
        simp only [hgate, if_true]
        rw [D.wp_bind, wp_step]
        refine ⟨hallowed, fun r _ => ?_⟩
        rw [hnext]
        cases r with
        | ok decision =>
            rw [D.seq_ok]
            split
            · exact htool toolDef
            · refine ⟨rfl, ?_⟩
              rintro _ ⟨⟩
              exact ⟨rfl, rfl⟩
        | error e => exact ⟨rfl, fun _ hc => by cases hc⟩
      · simp only [hgate]
        exact htool toolDef

theorem wp_runCalls {calls : List ToolUse}
    (h : ∀ call ∈ calls, ∀ c, CallStep options i call c → Plain D g c) :
    D.wp (runCalls stringify options i calls)
      (fun g' r => g' = g ∧ ∀ results, r = .ok results → Settles calls results) g := by
  induction calls with
  | nil =>
      refine ⟨rfl, ?_⟩
      rintro _ ⟨⟩
      exact ⟨rfl, rfl⟩
  | cons call calls ih =>
      rw [runCalls, D.wp_bind]
      refine D.wp_mono (wp_runCall stringify (h call List.mem_cons_self)) ?_
      rintro _ r ⟨rfl, hresult⟩
      cases r with
      | error e => exact ⟨rfl, fun _ hc => by cases hc⟩
      | ok result =>
          obtain ⟨hanswered, huse⟩ := hresult result rfl
          rw [D.seq_ok, D.wp_bind]
          refine D.wp_mono (ih (fun call hc => h call (List.mem_cons_of_mem _ hc))) ?_
          rintro _ r ⟨rfl, hresults⟩
          cases r with
          | error e => exact ⟨rfl, fun _ hc => by cases hc⟩
          | ok results =>
              obtain ⟨hall, hnone⟩ := hresults results rfl
              refine ⟨rfl, ?_⟩
              rintro _ ⟨⟩
              refine ⟨?_, ?_⟩
              · rw [List.filterMap_cons_some hanswered, hall, List.map_cons]
              · rw [List.filterMap_cons_none huse, hnone]

end Rules

/-- What carries a discipline through a run: `I` holds of the messages at the head of the loop and
`Done` behind it. -/
structure Invariant {G : Type} (D : Discipline AgentStep.Val G) (input : AgentRunInput)
    (agentName : String)
    (options : AgentOptions) (g₀ : G) where
  I : Nat → List LlmMessage → G → Prop
  Done : List LlmMessage → G → Prop
  opening : D.wp (opening agentName options input)
    (fun g r => ∀ messages, r = .ok messages → I 0 messages g) g₀
  llm : ∀ i messages g, I i messages g → D.allowed g (.llm i messages)
  call : ∀ i messages g res, I i messages g → D.answers (.llm i messages) (.ok res) →
    ∀ call ∈ toolUses res, ∀ c, CallStep options i call c →
      Plain D (D.next g (.llm i messages) (.ok res)) c
  turn : ∀ i messages g res results, I i messages g → toolUses res ≠ [] →
    Settles (toolUses res) results →
    I (i + 1) (messages ++ [⟨.assistant, res.content⟩, ⟨.user, results⟩])
      (D.next g (.llm i messages) (.ok res))
  final : ∀ i messages g res, I i messages g → toolUses res = [] →
    Done messages (D.next g (.llm i messages) (.ok res))
  unasked : ∀ i messages g, I i messages g → Done messages g
  fix : ∀ messages g a u, Done messages g →
    let fixed := messages ++ [.ofText .assistant a, .ofText .user u]
    D.allowed g (.llmOutputFix fixed) ∧ ∀ res, Done fixed (D.next g (.llmOutputFix fixed) (.ok res))
  remembered : ∀ messages g text sessionId, Done messages g →
    D.allowed g (.memoryRemember text sessionId) ∧
    ∀ r, Done messages (D.next g (.memoryRemember text sessionId) r)
  save : ∀ messages g finalText id, Done messages g → input.session? = some id →
    D.allowed g (.saveSession agentName id messages finalText options.window)

namespace Invariant

variable {G : Type} {D : Discipline AgentStep.Val G} {input : AgentRunInput} {agentName : String}
  {options : AgentOptions}
  {g₀ : G} (stringify : Json → String) (inv : Invariant D input agentName options g₀)

theorem wp_iterate {i : Nat} {messages : List LlmMessage} {g : G} (usage : LlmUsage)
    (toolCalls left : Nat)
    (h : inv.I i messages g) : D.wp
      (iterate stringify agentName options i messages usage toolCalls left)
      (fun g r => ∀ e, r = .ok e → inv.Done e.messages g) g := by
  induction left generalizing i messages g usage toolCalls with
  | zero =>
      rintro _ ⟨⟩
      exact inv.unasked i messages g h
  | succ left ih =>
      rw [iterate, D.wp_bind, wp_step]
      refine ⟨inv.llm i messages g h, fun r hr => ?_⟩
      cases r with
      | error e => exact fun _ he => by cases he
      | ok res =>
          rw [D.seq_ok]
          dsimp only
          split
          · exact fun _ he => by cases he
          · split
            · next hcalls =>
                rintro _ ⟨⟩
                exact inv.final i messages g res h (List.isEmpty_iff.mp hcalls)
            · next hcalls =>
                rw [List.isEmpty_iff] at hcalls
                rw [D.wp_bind]
                refine D.wp_mono (wp_runCalls stringify (inv.call i messages g res h hr)) ?_
                rintro _ r ⟨rfl, hresults⟩
                cases r with
                | error e => exact fun _ he => by cases he
                | ok results =>
                    have hturn := inv.turn i messages g res results h hcalls (hresults results rfl)
                    rw [D.seq_ok]
                    split
                    · exact fun _ he => by cases he
                    · exact ih _ _ hturn

theorem wp_structured {e : LoopEnd} {g : G} (h : inv.Done e.messages g) :
    D.wp (structured agentName options e)
      (fun g r => ∀ p, r = .ok p → inv.Done p.1.messages g) g := by
  unfold structured
  split
  · rintro _ ⟨⟩
    exact h
  · split
    · rintro _ ⟨⟩
      exact h
    · next error _ =>
        obtain ⟨hallowed, hdone⟩ := inv.fix e.messages g e.finalText (problem error) h
        rw [D.wp_bind, wp_step]
        refine ⟨hallowed, fun r _ => ?_⟩
        cases r with
        | error e => exact fun _ he => by cases he
        | ok fix =>
            rw [D.seq_ok]
            split
            · rintro _ ⟨⟩
              exact hdone fix
            · exact fun _ he => by cases he

theorem wp_remember {messages : List LlmMessage} {g : G} (finalText : String)
    (h : inv.Done messages g) :
    D.wp (remember options input finalText) (fun g _ => inv.Done messages g) g := by
  unfold remember
  split
  · exact h
  · obtain ⟨hallowed, hdone⟩ := inv.remembered messages g _ _ h
    rw [wp_step]
    exact ⟨hallowed, fun r _ => hdone r⟩

theorem wp_saveSession {e : LoopEnd} {g : G} (h : inv.Done e.messages g) :
    D.wp (saveSession agentName options input e) (fun _ _ => True) g := by
  unfold saveSession
  split
  · trivial
  · next id hid =>
      rw [wp_step]
      exact ⟨inv.save e.messages g e.finalText id h hid, fun _ _ => trivial⟩

theorem wp_runAgentLoop (inv : Invariant D input agentName options g₀) :
    D.wp (runAgentLoop stringify agentName options input) (fun _ _ => True) g₀ := by
  rw [runAgentLoop, D.wp_bind]
  refine D.wp_mono inv.opening ?_
  intro g r hr
  cases r with
  | error e => trivial
  | ok messages =>
      rw [D.seq_ok, D.wp_bind]
      refine D.wp_mono (inv.wp_iterate stringify ⟨0, 0⟩ 0 _ (hr messages rfl)) ?_
      intro g r hr
      cases r with
      | error e => trivial
      | ok e =>
          rw [D.seq_ok, D.wp_bind]
          refine D.wp_mono (inv.wp_structured (hr e rfl)) ?_
          intro g r hr
          cases r with
          | error e => trivial
          | ok p =>
              rw [D.seq_ok, D.wp_bind]
              refine D.wp_mono (inv.wp_remember p.1.finalText (hr p rfl)) ?_
              intro g r hr
              cases r with
              | error e => trivial
              | ok _ =>
                  rw [D.seq_ok, D.wp_bind]
                  refine D.wp_mono (inv.wp_saveSession hr) ?_
                  intro g r _
                  cases r <;> trivial

end Invariant

end Agent

end ZenZip
