import ZenZip.Sdk.Approvals
import Mathlib.Algebra.GroupWithZero.Nat

namespace ZenZip

open Lib Agent

def LoopEnd.result (e : LoopEnd) (output : Option Json) : AgentResult :=
  ⟨e.finalText, output, e.usage, e.iterations, e.toolCalls⟩

/-- The responses that a run has had: those of its loop, and the one that corrects its output. -/
structure Bill where
  turns : List LlmResponse
  fix : Option LlmResponse

namespace Bill

def empty : Bill := ⟨[], none⟩

def responses (b : Bill) : List LlmResponse := b.turns ++ b.fix.toList

def usage (responses : List LlmResponse) : LlmUsage :=
  ⟨(responses.map (·.usage.inputTokens)).sum, (responses.map (·.usage.outputTokens)).sum⟩

def calls (responses : List LlmResponse) : Nat :=
  (responses.map (fun res => (toolUses res).length)).sum

def answer (b : Bill) : String := b.turns.getLast?.elim "" textContent

def text (b : Bill) : String := b.fix.elim b.answer textContent

variable {b : Bill} {turns : List LlmResponse} {res : LlmResponse}

theorem usage_append_singleton : usage (turns ++ [res]) = (usage turns).add res.usage := by
  simp only [usage, LlmUsage.add, List.map_append, List.map_singleton, List.sum_append,
    List.sum_singleton]

theorem calls_append_singleton : calls (turns ++ [res]) = calls turns + (toolUses res).length := by
  simp only [calls, List.map_append, List.map_singleton, List.sum_append, List.sum_singleton]

section Options

variable (options : AgentOptions)

def limit : Nat := options.maxIterations.getD 10

/-- The responses have not used up the tokens of a run. -/
def Affordable (responses : List LlmResponse) : Prop :=
  ∀ budget, options.maxTotalTokens = some budget →
    (usage responses).inputTokens + (usage responses).outputTokens ≤ budget

/-- The loop goes on: its responses have calls, and there are tokens left. -/
structure Open (b : Bill) : Prop where
  unfixed : b.fix = none
  affordable : Affordable options b.turns
  calls : ∀ res ∈ b.turns, toolUses res ≠ []

/-- The model is asked for the next response of the loop, and once for a correction. A tool is for a
call of the response before it. -/
def billing : Discipline AgentStep.Val Bill where
  next b c r := match c, r with
    | .llm _ _, .ok res => { b with turns := b.turns ++ [res] }
    | .llmOutputFix _, .ok res => { b with fix := some res }
    | _, _ => b
  allowed b c := match c with
    | .llm i _ => i = b.turns.length ∧ i < limit options ∧ Open options b
    | .tool i call =>
        ∃ res, b.turns[i]? = some res ∧ call ∈ toolUses res ∧ Affordable options b.turns
    | .llmOutputFix _ => b.fix = none
    | _ => True
  answers _ _ := True

/-- What a run says of itself is what its responses come to. -/
structure Tally (b : Bill) (result : AgentResult) : Prop where
  text_eq : result.text = b.text
  usage_eq : result.usage = usage b.responses
  iterations_eq : result.iterations = b.turns.length
  toolCalls_eq : result.toolCalls = Bill.calls b.turns
  bounded : b.turns.length ≤ limit options
  affordable : Affordable options b.turns
  calls : ∀ res ∈ b.turns.dropLast, toolUses res ≠ []
  final : ∀ res, b.turns.getLast? = some res → toolUses res = []

/-- The output of a run is its text, validated; there is a correction if the last turn is not valid.
-/
def Validated (b : Bill) (result : AgentResult) : Prop :=
  match options.output with
  | none => b.fix = none ∧ result.output = none
  | some validateText => (∃ value, validateText b.text = .ok value ∧ result.output = some value) ∧
      (b.fix.isSome = true ↔ ∃ error, validateText b.answer = .error error)

end Options

end Bill

namespace Agent

open Bill

section Loop

variable {stringify : Json → String} {agentName : String} {options : AgentOptions}
  {input : AgentRunInput} {b : Bill}

structure Sums (options : AgentOptions) (b : Bill) (i : Nat) (u : LlmUsage) (toolCalls : Nat) :
    Prop where
  head : Open options b
  length_eq : b.turns.length = i
  usage_eq : u = usage b.turns
  toolCalls_eq : toolCalls = Bill.calls b.turns

theorem Sums.init : Sums options Bill.empty 0 ⟨0, 0⟩ 0 where
  head := ⟨rfl, fun _ _ => Nat.zero_le _, fun _ h => by cases h⟩
  length_eq := rfl
  usage_eq := rfl
  toolCalls_eq := rfl

section Turn

variable {i toolCalls : Nat} {u : LlmUsage} {res : LlmResponse}

theorem Sums.affordable_turn (h : Sums options b i u toolCalls)
    (hlow : ¬ options.maxTotalTokens.any
      (· < (u.add res.usage).inputTokens + (u.add res.usage).outputTokens) = true) :
    Affordable options (b.turns ++ [res]) := by
  intro budget hb
  rw [hb, Option.any_some, decide_eq_true_eq, not_lt] at hlow
  rwa [usage_append_singleton, ← h.usage_eq]

theorem Sums.turn (h : Sums options b i u toolCalls) (ha : Affordable options (b.turns ++ [res]))
    (hcalls : toolUses res ≠ []) :
    Sums options { b with turns := b.turns ++ [res] } (i + 1) (u.add res.usage)
      (toolCalls + (toolUses res).length) where
  head := by
    refine ⟨h.head.unfixed, ha, fun x hx => ?_⟩
    rcases List.mem_append.mp hx with hx | hx
    · exact h.head.calls x hx
    · rw [List.mem_singleton.mp hx]
      exact hcalls
  length_eq := by
    rw [List.length_append, List.length_singleton, h.length_eq]
  usage_eq := by
    rw [usage_append_singleton, h.usage_eq]
  toolCalls_eq := by
    rw [calls_append_singleton, h.toolCalls_eq]

theorem Sums.tally_final {messages : List LlmMessage} (h : Sums options b i u toolCalls)
    (ha : Affordable options (b.turns ++ [res])) (hcalls : toolUses res = [])
    (hi : i < limit options) :
    Tally options { b with turns := b.turns ++ [res] }
      (LoopEnd.result ⟨messages, textContent res, u.add res.usage, i + 1, toolCalls⟩ none) where
  text_eq := by
    rw [Bill.text, h.head.unfixed, Option.elim_none, Bill.answer, List.getLast?_concat]
    rfl
  usage_eq := by
    rw [Bill.responses, h.head.unfixed, Option.toList_none, List.append_nil,
      usage_append_singleton, ← h.usage_eq]
    rfl
  iterations_eq := by
    rw [List.length_append, List.length_singleton, h.length_eq]
    rfl
  toolCalls_eq := by
    rw [calls_append_singleton, hcalls, ← h.toolCalls_eq]
    rfl
  bounded := by
    rw [List.length_append, List.length_singleton, h.length_eq]
    exact hi
  affordable := ha
  calls := by
    rw [List.dropLast_concat]
    exact h.head.calls
  final x hx := by
    rw [List.getLast?_concat] at hx
    cases hx
    exact hcalls

theorem Sums.tally_unasked {messages : List LlmMessage} (h : Sums options b 0 u toolCalls) :
    Tally options b (LoopEnd.result ⟨messages, "", u, 0, toolCalls⟩ none) := by
  have hnil : b.turns = [] := List.eq_nil_of_length_eq_zero h.length_eq
  constructor
  · rw [Bill.text, h.head.unfixed, Option.elim_none, Bill.answer, hnil]
    rfl
  · rw [Bill.responses, h.head.unfixed, Option.toList_none, List.append_nil, ← h.usage_eq]
    rfl
  · exact h.length_eq.symm
  · exact h.toolCalls_eq
  · rw [hnil]
    exact Nat.zero_le _
  · exact h.head.affordable
  · rw [hnil]
    exact fun _ hx => by cases hx
  · rw [hnil]
    exact fun _ hx => by cases hx

end Turn

theorem plain_of_callStep {i : Nat} {res : LlmResponse} {call : ToolUse} {c : AgentStep}
    (hres : b.turns[i]? = some res)
    (hcall : call ∈ toolUses res) (ha : Affordable options b.turns)
    (hc : CallStep options i call c) :
    Plain (billing options) b c := by
  cases hc with
  | approval | handoff => exact ⟨trivial, fun _ => rfl⟩
  | tool => exact ⟨⟨res, hres, hcall, ha⟩, fun _ => rfl⟩

theorem wp_iterate {i toolCalls left : Nat} {messages : List LlmMessage} {u : LlmUsage}
    (h : Sums options b i u toolCalls)
    (hl : i + left = limit options) (hz : left = 0 → i = 0) :
    (billing options).wp (iterate stringify agentName options i messages u toolCalls left)
      (fun b r => ∀ e, r = .ok e → b.fix = none ∧ Tally options b (e.result none)) b := by
  induction left generalizing i messages u toolCalls b with
  | zero =>
      rintro e ⟨⟩
      obtain rfl := hz rfl
      exact ⟨h.head.unfixed, h.tally_unasked⟩
  | succ left ih =>
      have hi : i < limit options := by omega
      rw [iterate, Discipline.wp_bind, wp_step]
      refine ⟨⟨h.length_eq.symm, hi, h.head⟩, fun r _ => ?_⟩
      cases r with
      | error e => exact fun _ he => by cases he
      | ok res =>
          have hlast : (b.turns ++ [res])[i]? = some res := by
            rw [← h.length_eq]
            exact List.getElem?_concat_length
          rw [Discipline.seq_ok]
          dsimp only
          split
          · exact fun _ he => by cases he
          · next hlow =>
              have ha := h.affordable_turn hlow
              split
              · next hcalls =>
                  rintro _ ⟨⟩
                  exact ⟨h.head.unfixed, h.tally_final ha (List.isEmpty_iff.mp hcalls) hi⟩
              · next hcalls =>
                  rw [List.isEmpty_iff] at hcalls
                  rw [Discipline.wp_bind]
                  refine Discipline.wp_mono
                    _ (wp_runCalls stringify
                      (fun call hcall c hc => plain_of_callStep hlast hcall ha hc)) ?_
                  rintro _ r ⟨rfl, _⟩
                  cases r with
                  | error e => exact fun _ he => by cases he
                  | ok results =>
                      rw [Discipline.seq_ok]
                      split
                      · exact fun _ he => by cases he
                      · next hleft =>
                          exact ih (h.turn ha hcalls) (by omega) (fun h0 => absurd h0 hleft)

theorem tally_fix {e : LoopEnd} (res : LlmResponse) (h : Tally options b (e.result none))
    (hfix : b.fix = none) :
    Tally options { b with fix := some res }
      (LoopEnd.result { e with finalText := textContent res, usage := e.usage.add res.usage }
        none) where
  text_eq := rfl
  usage_eq := by
    have hu := h.usage_eq
    rw [Bill.responses, hfix, Option.toList_none, List.append_nil] at hu
    rw [Bill.responses, Option.toList_some, usage_append_singleton, ← hu]
    rfl
  iterations_eq := h.iterations_eq
  toolCalls_eq := h.toolCalls_eq
  bounded := h.bounded
  affordable := h.affordable
  calls := h.calls
  final := h.final

theorem tally_output {result : AgentResult} (output : Option Json) (h : Tally options b result) :
    Tally options b { result with output } := ⟨h.1, h.2, h.3, h.4, h.5, h.6, h.7, h.8⟩

structure Billed (options : AgentOptions) (b : Bill) (result : AgentResult) : Prop where
  tally : Tally options b result
  validated : Validated options b result

theorem wp_structured {e : LoopEnd} (h : Tally options b (e.result none)) (hfix : b.fix = none) :
    (billing options).wp (structured agentName options e)
      (fun b r => ∀ p, r = .ok p → Billed options b (p.1.result p.2)) b := by
  have htext : e.finalText = b.answer := by
    have ht := h.text_eq
    rwa [Bill.text, hfix] at ht
  unfold structured
  split
  · next hout =>
      rintro _ ⟨⟩
      refine ⟨h, ?_⟩
      rw [Validated, hout]
      exact ⟨hfix, rfl⟩
  · next validateText hout =>
      split
      · next value hval =>
          rintro _ ⟨⟩
          refine ⟨tally_output _ h, ?_⟩
          rw [htext] at hval
          rw [Validated, hout, Bill.text, hfix]
          refine ⟨⟨value, hval, rfl⟩, ?_⟩
          rw [hval]
          simp
      · next error hval =>
          rw [htext] at hval
          rw [Discipline.wp_bind, wp_step]
          refine ⟨hfix, fun r _ => ?_⟩
          cases r with
          | error e => exact fun _ he => by cases he
          | ok fix =>
              rw [Discipline.seq_ok]
              split
              · next value hok =>
                  rintro _ ⟨⟩
                  refine ⟨tally_output _ (tally_fix fix h hfix), ?_⟩
                  rw [Validated, hout]
                  exact ⟨⟨value, hok, rfl⟩, iff_of_true rfl ⟨error, hval⟩⟩
              · exact fun _ he => by cases he

section Whole

variable {G : Type} {D : Discipline AgentStep.Val G} {g : G}

theorem wp_plain {c : AgentStep} (h : Plain D g c) {Q : G → Except String c.Val → Prop}
    (hQ : ∀ r, Q g r) :
    D.wp (step c) Q g := by
  rw [wp_step]
  refine ⟨h.1, fun r _ => ?_⟩
  rw [h.2]
  exact hQ r

theorem wp_opening_plain : (billing options).wp (opening agentName options input)
    (fun g _ => g = b) b := by
  rw [opening, Discipline.wp_bind]
  apply wp_plain ⟨trivial, fun _ => rfl⟩
  intro r
  cases r with
  | error e => exact rfl
  | ok history =>
      rw [Discipline.seq_ok]
      cases options.memory with
      | none => exact rfl
      | some memory =>
          dsimp only
          rw [Discipline.wp_bind]
          apply wp_plain ⟨trivial, fun _ => rfl⟩
          intro r
          cases r with
          | error e => exact rfl
          | ok recalled => exact wp_plain ⟨trivial, fun _ => rfl⟩ (fun _ => rfl)

theorem wp_remember_plain (text : String) : (billing options).wp (remember options input text)
    (fun g _ => g = b) b := by
  unfold remember
  split
  · exact rfl
  · exact wp_plain ⟨trivial, fun _ => rfl⟩ (fun _ => rfl)

theorem wp_saveSession_plain (e : LoopEnd) :
    (billing options).wp (saveSession agentName options input e) (fun g _ => g = b) b := by
  unfold saveSession
  split
  · exact rfl
  · exact wp_plain ⟨trivial, fun _ => rfl⟩ (fun _ => rfl)

theorem wp_billed : (billing options).wp (runAgentLoop stringify agentName options input)
    (fun b r => ∀ result, r = .ok result → Billed options b result) Bill.empty := by
  rw [runAgentLoop, Discipline.wp_bind]
  refine Discipline.wp_mono _ wp_opening_plain ?_
  rintro _ r rfl
  cases r with
  | error e => exact fun _ he => by cases he
  | ok messages =>
      rw [Discipline.seq_ok, Discipline.wp_bind]
      refine Discipline.wp_mono _ (wp_iterate Sums.init (Nat.zero_add _) (fun _ => rfl)) ?_
      intro b r hr
      cases r with
      | error e => exact fun _ he => by cases he
      | ok e =>
          obtain ⟨hfix, htally⟩ := hr e rfl
          rw [Discipline.seq_ok, Discipline.wp_bind]
          refine Discipline.wp_mono _ (wp_structured htally hfix) ?_
          intro b r hr
          cases r with
          | error e => exact fun _ he => by cases he
          | ok p =>
              have hbilled := hr p rfl
              rw [Discipline.seq_ok]
              dsimp only
              rw [Discipline.wp_bind]
              refine Discipline.wp_mono _ (wp_remember_plain p.1.finalText) ?_
              rintro _ r rfl
              cases r with
              | error e => exact fun _ he => by cases he
              | ok _ =>
                  rw [Discipline.seq_ok, Discipline.wp_bind]
                  refine Discipline.wp_mono _ (wp_saveSession_plain p.1) ?_
                  rintro _ r rfl
                  cases r with
                  | error e => exact fun _ he => by cases he
                  | ok _ =>
                      rintro _ ⟨⟩
                      exact hbilled

end Whole

end Loop

section Ids

variable {c : AgentStep} {i : Nat} {call : ToolUse}

theorem llm_of_id (h : c.id = (AgentStep.llm i []).id) : ∃ messages, c = .llm i messages := by
  have htext := congrArg String.toList h
  cases c with
  | llm j messages =>
      obtain rfl := llmStep_inj h
      exact ⟨messages, rfl⟩
  | llmOutputFix messages =>
      simp only [AgentStep.id, String.toList_append, toString] at htext
      have hfix : "output-fix".toList = i.repr.toList :=
        List.append_cancel_left (show "llm-".toList ++ _ = _ from htext)
      have hdigit : 'o' ∈ i.repr.toList := by
        rw [← hfix]
        decide
      exact absurd (Text.isDigit_of_mem_repr hdigit) (by decide)
  | _ => simp [AgentStep.id, approvalStep, toString] at htext

theorem fix_of_id (h : c.id = (AgentStep.llmOutputFix []).id) :
    ∃ messages, c = .llmOutputFix messages := by
  have htext := congrArg String.toList h
  cases c with
  | llmOutputFix messages => exact ⟨messages, rfl⟩
  | llm i messages =>
      obtain ⟨_, hfix⟩ := llm_of_id (c := .llmOutputFix []) h.symm
      cases hfix
  | _ => simp [AgentStep.id, approvalStep, toString] at htext

theorem tool_of_id (h : c.id = (AgentStep.tool i call).id) :
    ∃ call', c = .tool i call' ∧ call'.id = call.id := by
  have htext := congrArg String.toList h
  cases c with
  | tool j call' =>
      simp only [AgentStep.id, String.toList_append, toString, List.append_assoc] at htext
      obtain ⟨rfl, hid⟩ :=
        Text.repr_append_cons_inj (c := '-') (by decide) (List.append_cancel_left htext)
      exact ⟨call', rfl, String.toList_injective hid⟩
  | _ => simp [AgentStep.id, approvalStep, toString] at htext

end Ids

section Trace

open Replay

variable {stringify : Json → String} {agentName : String} {options : AgentOptions} {r : RunId}
  {input : Json} {s : Store}
  {t entries entries' : List StepEntry} {b : Bill}

def Corrected (entries : List StepEntry) (res : LlmResponse) : Prop :=
  ∃ x ∈ entries, x.id = (AgentStep.llmOutputFix []).id ∧ x.result.bind LlmResponse.ofJson = some res

structure Recorded (entries : List StepEntry) (b : Bill) : Prop where
  turns : ∀ i res, b.turns[i]? = some res → Responded entries i res
  fix : ∀ res, b.fix = some res → Corrected entries res

/-- All recorded responses are on the bill, and no others. -/
structure Accounted (entries : List StepEntry) (b : Bill) : Prop where
  turns : ∀ i res, b.turns[i]? = some res ↔ Responded entries i res
  fix : ∀ res, b.fix = some res ↔ Corrected entries res

theorem Accounted.recorded (h : Accounted entries b) (hsub : entries ⊆ entries') :
    Recorded entries' b where
  turns i res hi := ((h.turns i res).mp hi).mono hsub
  fix res hres := by
    obtain ⟨x, hx, hrest⟩ := (h.fix res).mp hres
    exact ⟨x, hsub hx, hrest⟩

theorem Accounted.congr (h : Accounted entries b) (hmem : ∀ x, x ∈ entries ↔ x ∈ entries') :
    Accounted entries' b where
  turns i res := (h.turns i res).trans (exists_congr fun x => and_congr_left' (hmem x))
  fix res := (h.fix res).trans (exists_congr fun x => and_congr_left' (hmem x))

theorem Accounted.empty : Accounted [] Bill.empty where
  turns i res := iff_of_false (fun h => by cases h) (fun ⟨_, hx, _⟩ => by cases hx)
  fix res := iff_of_false (fun h => by cases h) (fun ⟨_, hx, _⟩ => by cases hx)

section Next

variable {e : StepEntry} {res : LlmResponse} {i : Nat}

def Replies (e : StepEntry) (id : StepId) (res : LlmResponse) : Prop :=
  e.id = id ∧ e.result.bind LlmResponse.ofJson = some res

theorem responded_append : Responded (t ++ [e]) i res ↔
    Responded t i res ∨ Replies e (AgentStep.llm i []).id res := by
  simp only [Responded, Replies, List.mem_append, List.mem_singleton, or_and_right, exists_or,
    exists_eq_left]

theorem corrected_append : Corrected (t ++ [e]) res ↔
    Corrected t res ∨ Replies e (AgentStep.llmOutputFix []).id res := by
  simp only [Corrected, Replies, List.mem_append, List.mem_singleton, or_and_right, exists_or,
    exists_eq_left]

theorem Accounted.other (h : Accounted t b)
    (hturn : ∀ i res, ¬Replies e (AgentStep.llm i []).id res)
    (hfix : ∀ res, ¬Replies e (AgentStep.llmOutputFix []).id res) : Accounted (t ++ [e]) b where
  turns i res := by
    rw [responded_append, or_iff_left (hturn i res)]
    exact h.turns i res
  fix res := by
    rw [corrected_append, or_iff_left (hfix res)]
    exact h.fix res

theorem Accounted.turn (h : Accounted t b)
    (he : Replies e (AgentStep.llm b.turns.length []).id res) :
    Accounted (t ++ [e]) { b with turns := b.turns ++ [res] } where
  turns i x := by
    rw [responded_append, getElem?_concat_eq_some, h.turns]
    refine or_congr_right ⟨?_, ?_⟩
    · rintro ⟨rfl, rfl⟩
      exact he
    · rintro ⟨hid, hx⟩
      exact ⟨llmStep_inj (hid.symm.trans he.1), Option.some.inj (he.2.symm.trans hx)⟩
  fix x := by
    rw [corrected_append, or_iff_left]
    · exact h.fix x
    · rintro ⟨hid, -⟩
      obtain ⟨_, hfix⟩ := llm_of_id (c := .llmOutputFix []) (hid.symm.trans he.1)
      cases hfix

theorem Accounted.fixed (h : Accounted t b) (hb : b.fix = none)
    (he : Replies e (AgentStep.llmOutputFix []).id res) :
    Accounted (t ++ [e]) { b with fix := some res } where
  turns i x := by
    rw [responded_append, or_iff_left]
    · exact h.turns i x
    · rintro ⟨hid, -⟩
      obtain ⟨_, hfix⟩ := llm_of_id (c := .llmOutputFix []) (he.1.symm.trans hid)
      cases hfix
  fix x := by
    have hnone : ¬Corrected t x := by
      rw [← h.fix, hb]
      exact fun hx => by cases hx
    rw [corrected_append, or_iff_right hnone]
    exact ⟨fun hx => ⟨he.1, he.2.trans hx⟩, fun hx => he.2.symm.trans hx.2⟩

theorem accounted_next {c : AgentStep} (h : Accounted t b) (hc : (billing options).allowed b c)
    (hreq : (c.action r).request = some (e.id, e.kind)) :
    Accounted (t ++ [e]) ((billing options).next b c (c.answer stringify e.value)) := by
  cases c with
  | llm i messages =>
      have hk : (AgentStep.llm i messages).id = e.id ∧ StepKind.run = e.kind :=
        Prod.mk.inj (Option.some.inj hreq)
      obtain rfl : i = b.turns.length := hc.1
      rw [StepEntry.value, ← hk.2]
      cases hres : e.result.bind LlmResponse.ofJson with
      | none =>
          simp only [AgentStep.answer, hres, AgentStep.decoded, billing]
          exact h.other (fun _ _ he => by simp [he.2] at hres) (fun _ he => by simp [he.2] at hres)
      | some res =>
          simp only [AgentStep.answer, hres, AgentStep.decoded, billing]
          exact h.turn ⟨hk.1.symm, hres⟩
  | llmOutputFix messages =>
      have hk : (AgentStep.llmOutputFix messages).id = e.id ∧ StepKind.run = e.kind :=
        Prod.mk.inj (Option.some.inj hreq)
      rw [StepEntry.value, ← hk.2]
      cases hres : e.result.bind LlmResponse.ofJson with
      | none =>
          simp only [AgentStep.answer, hres, AgentStep.decoded, billing]
          exact h.other (fun _ _ he => by simp [he.2] at hres) (fun _ he => by simp [he.2] at hres)
      | some res =>
          simp only [AgentStep.answer, hres, AgentStep.decoded, billing]
          exact h.fixed hc ⟨hk.1.symm, hres⟩
  | session | memoryRecall | memoryCompress | approval | handoff | tool | memoryRemember
  | saveSession =>
      have hk := (Prod.mk.inj (Option.some.inj hreq)).1
      refine h.other (fun j _ he => ?_) (fun _ he => ?_)
      · obtain ⟨_, hllm⟩ := llm_of_id (hk.trans he.1)
        cases hllm
      · obtain ⟨_, hfix⟩ := fix_of_id (hk.trans he.1)
        cases hfix

end Next

theorem wp_accounted (h : Trace (agentFn stringify agentName options r) input s r t) :
    ∃ b, (billing options).wp (resumed stringify agentName options input (t.map StepEntry.value))
      (fun b res => ∀ result, res = .ok result → Billed options b result) b ∧ Accounted t b := by
  induction h with
  | nil => exact ⟨Bill.empty, wp_billed, .empty⟩
  | @snoc t e _ _ hk ih =>
      obtain ⟨b, hwp, hb⟩ := ih
      have hreq := (asks_eq_some_iff.mp hk).1
      rw [List.map_append, List.map_singleton, resumed, List.foldl_append, ← resumed]
      rw [agentFn] at hreq
      cases hp : resumed stringify agentName options input (t.map StepEntry.value) with
      | ret result | throw error =>
          rw [hp] at hreq
          cases hreq
      | call c k =>
          rw [hp] at hwp hreq
          exact ⟨_, hwp.2 _ trivial, accounted_next hb hwp.1 hreq⟩

theorem allowed_of_entry {x : StepEntry}
    (h : Trace (agentFn stringify agentName options r) input s r t) (hx : x ∈ t) :
    ∃ b c, Recorded (s.loadJournal r) b ∧ (billing options).allowed b c ∧ c.id = x.id := by
  obtain ⟨t₁, t₂, rfl⟩ := List.append_of_mem hx
  have hreq := (asks_eq_some_iff.mp h.next_of_append).1
  obtain ⟨b, hwp, hb⟩ := wp_accounted h.of_append
  rw [agentFn] at hreq
  cases hp : resumed stringify agentName options input (t₁.map StepEntry.value) with
  | ret result | throw error =>
      rw [hp] at hreq
      cases hreq
  | call c k =>
      rw [hp] at hwp hreq
      refine ⟨b, c, hb.recorded (fun _ hm => h.of_append.mem hm), hwp.1, ?_⟩
      cases c <;> exact congrArg Prod.fst (Option.some.inj hreq)

variable {σ : Replay} {run : RunRow} {ok : Replay → Time × Replay.Label → Bool}

theorem consistent_of_run (hf : s.Fresh) (hrun : s.getRun r = some run)
    (hstatus : run.status = .runnable)
    (hj : s.loadJournal r = [])
    (h : Run (Replay.step (agentFn stringify agentName options r) r) ok (Replay.init s) σ) :
    Consistent (agentFn stringify agentName options r) run.input r σ :=
  h.invariant (Consistent (agentFn stringify agentName options r) run.input r)
    (.init hf hrun hstatus hj)
    (fun _ _ _ _ hI _ hs => hI.step hs)

/-- Over crashes, retries and suspensions, the result of a run accounts for each of its responses
once: the usage, the iterations, the calls and the text are those of the recorded responses, and of
all of them. -/
theorem completed_billed (hf : s.Fresh) (hrun : s.getRun r = some run)
    (hstatus : run.status = .runnable)
    (hj : s.loadJournal r = [])
    (h : Run (Replay.step (agentFn stringify agentName options r) r) ok (Replay.init s) σ)
    {out : Option Json} (hout : .completed out ∈ σ.outcomes) :
    ∃ b result, out = some result.toJson ∧ Billed options b result ∧ Accounted
      (σ.store.loadJournal r) b := by
  have hinv := consistent_of_run hf hrun hstatus hj h
  obtain ⟨t, output, ht, hret, rfl⟩ := hinv.completed out hout
  have hmem (x : StepEntry) : x ∈ t ↔ x ∈ σ.store.loadJournal r := by
    refine hinv.explored.mem_iff (question_injOn σ.store r) ht ?_
    rw [asks, hret]
    rfl
  obtain ⟨b, hwp, hb⟩ := wp_accounted ht
  rw [agentFn] at hret
  cases hp : resumed stringify agentName options run.input (t.map StepEntry.value) with
  | throw error =>
      rw [hp] at hret
      cases hret
  | call c k =>
      rw [hp] at hret
      cases c <;> cases hret
  | ret result =>
      rw [hp] at hwp hret
      cases hret
      exact ⟨b, result, rfl, hwp result rfl, hb.congr hmem⟩

/-- Whatever becomes of a run, its model is asked for a response only behind responses with calls
that leave some of the tokens, and a tool runs only for a call of such a response. -/
theorem recorded_in_turn (hf : s.Fresh) (hrun : s.getRun r = some run)
    (hstatus : run.status = .runnable)
    (hj : s.loadJournal r = [])
    (h : Run (Replay.step (agentFn stringify agentName options r) r) ok (Replay.init s) σ)
    {x : StepEntry} (hx : x ∈ σ.store.loadJournal r) :
    (∀ i, x.id = (AgentStep.llm i []).id → i < limit options ∧
      ∃ b, b.turns.length = i ∧ Open options b ∧ Recorded (σ.store.loadJournal r) b) ∧
    (∀ i call, x.id = (AgentStep.tool i call).id →
      ∃ b res, b.turns[i]? = some res ∧ call.id ∈ (toolUses res).map (·.id) ∧
        Affordable options b.turns ∧
        Recorded (σ.store.loadJournal r) b) := by
  obtain ⟨t, ht, hm⟩ := (consistent_of_run hf hrun hstatus hj h).explored x hx
  obtain ⟨b, c, hb, hallowed, hid⟩ := allowed_of_entry ht hm
  constructor
  · intro i hi
    obtain ⟨messages, rfl⟩ := llm_of_id (hid.trans hi)
    obtain ⟨rfl, hlt, hopen⟩ := hallowed
    exact ⟨hlt, b, rfl, hopen, hb⟩
  · intro i call hcall
    obtain ⟨call', rfl, hsame⟩ := tool_of_id (hid.trans hcall)
    obtain ⟨res, hres, hmem, ha⟩ := hallowed
    refine ⟨b, res, hres, ?_, ha, hb⟩
    rw [← hsame]
    exact List.mem_map_of_mem hmem

end Trace

section Sample

open Replay

def thrifty : AgentOptions := ⟨[⟨"lookup", false, none⟩], some 2, some 40, none, none, none, none⟩

def visitor : Store :=
  ((Call.createRun
    ⟨"agent:support", .obj [("message", .str "Who am I?")], none, none, none, none, none⟩).perform
      .empty 0 []).1

def asksName : LlmResponse := ⟨[.toolUse "tu_1" "lookup" (.obj [])], .toolUse, ⟨3, 5⟩⟩

def saysName : LlmResponse := ⟨[.text "Ada"], .endTurn, ⟨7, 2⟩⟩

def yields (result : Json) : List Replay.Label := [.advance, .returned (.ok result), .record]

/-- The process dies with the answer of the tool recorded; the next attempt asks for the last
response. -/
def resumes : List (Time × Replay.Label) :=
  let labels : List Replay.Label :=
    .start :: yields (.arr []) ++ yields asksName.toJson ++ yields (.str "Ada") ++
    [.crash, .start, .advance, .advance, .advance] ++ yields saysName.toJson ++ [.advance]
  labels.map (fun l => (0, l))

theorem completed_billed_visitor : ∃ (σ : Replay) (b : Bill) (result : AgentResult),
    .completed (some result.toJson) ∈ σ.outcomes ∧ Billed thrifty b result ∧ Accounted
      (σ.store.loadJournal 0) b := by
  obtain ⟨σ, h, hp⟩ :=
    Run.exists_of_replay (Replay.step (agentFn (fun _ => "") "support" thrifty 0) 0)
      (fun _ _ => true)
    (Replay.init visitor) resumes
    (fun σ => .completed (some (AgentResult.toJson ⟨"Ada", none, ⟨10, 7⟩, 2, 1⟩)) ∈ σ.outcomes)
      (by decide +kernel)
  have hout := of_decide_eq_true hp
  obtain ⟨b, result, heq, hb⟩ := completed_billed (.perform .empty _ 0 []) rfl rfl rfl h hout
  rw [heq] at hout
  exact ⟨σ, b, result, hout, hb⟩

theorem recorded_in_turn_visitor : ∃ (σ : Replay) (x : StepEntry), x ∈ σ.store.loadJournal 0 ∧
    x.id = (AgentStep.llm 1 []).id ∧
    ∃ b, b.turns.length = 1 ∧ Open thrifty b ∧ Recorded (σ.store.loadJournal 0) b := by
  obtain ⟨σ, h, hp⟩ :=
    Run.exists_of_replay (Replay.step (agentFn (fun _ => "") "support" thrifty 0) 0)
      (fun _ _ => true)
    (Replay.init visitor) resumes
    (fun σ => ∃ x ∈ σ.store.loadJournal 0, x.id = (AgentStep.llm 1 []).id) (by decide +kernel)
  obtain ⟨x, hx, hid⟩ := of_decide_eq_true hp
  exact ⟨σ, x, hx, hid, ((recorded_in_turn (.perform .empty _ 0 []) rfl rfl rfl h hx).1 1 hid).2⟩

end Sample

end Agent

end ZenZip
