import ZenZip.Sdk.AgentLoop
import ZenZip.Sdk.Sessions

namespace ZenZip

open Lib

namespace LlmMessage

/-- What may stand before the first message and behind the last one. -/
def blank : LlmMessage := ⟨.user, []⟩

/-- The results in `b` answer calls of the assistant message `a`, and the calls of an assistant
message `a` are answered in the user message `b`. -/
def Answers (a b : LlmMessage) : Prop :=
  (∀ id ∈ b.results, a.role = .assistant ∧ id ∈ a.uses) ∧
    (a.role = .assistant → ∀ id ∈ a.uses, b.role = .user ∧ id ∈ b.results)

instance (a b : LlmMessage) : Decidable (Answers a b) := inferInstanceAs (Decidable (_ ∧ _))

/-- Each message answers the one directly before it; nothing before the first one has calls, and
nothing behind the last one has results. -/
abbrev WellFormed (messages : List LlmMessage) : Prop := Closed Answers blank messages

instance (messages : List LlmMessage) : Decidable (WellFormed messages) :=
  inferInstanceAs (Decidable (List.IsChain Answers (blank :: (messages ++ [blank]))))

variable {a b : LlmMessage} {messages : List LlmMessage}

theorem answers_of_user (h : a.role = .user) : Answers a b ↔ b.results = [] := by
  constructor
  · rintro ⟨hres, _⟩
    apply List.eq_nil_iff_forall_not_mem.mpr
    intro id hid
    have ha := (hres id hid).1
    rw [h] at ha
    cases ha
  · intro hb
    refine ⟨fun id hid => ?_, fun ha => ?_⟩
    · rw [hb] at hid
      cases hid
    · rw [h] at ha
      cases ha

theorem answers_blank (h : a.role = .user) : Answers a blank := (answers_of_user h).mpr rfl

theorem answers_of_blank : Answers blank b ↔ b.results = [] := answers_of_user rfl

theorem answers_local (a b : LlmMessage) (ha : Answers a blank) (hb : Answers blank b) :
    Answers a b := by
  rw [answers_of_blank] at hb
  refine ⟨fun id hid => ?_, fun hrole id hid => ?_⟩
  · rw [hb] at hid
    cases hid
  · have hmem := (ha.2 hrole id hid).2
    cases hmem

theorem answers_of_plain (ha : a.uses = []) (hb : b.results = []) : Answers a b := by
  rw [Answers, ha, hb]
  simp

def startsClean (messages : List LlmMessage) : Bool :=
  messages.head?.all (fun m => m.results.isEmpty)

theorem startsClean_iff : startsClean messages = true ↔ ∀ m ∈ messages.head?, Answers blank m := by
  rw [startsClean, Option.all_eq_true]
  apply forall_congr'
  intro m
  apply forall_congr'
  intro _
  rw [answers_of_blank, List.isEmpty_iff]

theorem startsClean_append {messages' : List LlmMessage} (h : startsClean messages' = true) :
    startsClean (messages ++ messages') = startsClean messages := by
  cases messages with
  | nil => exact h
  | cons m messages => rfl

theorem wellFormed_iff : WellFormed messages ↔
    startsClean messages = true ∧ Ends Answers blank messages := by
  rw [startsClean_iff]
  exact closed_iff (answers_of_blank.mpr rfl)

theorem wellFormed_ofText (role : Role) (text : String) : WellFormed [ofText role text] := by
  rw [wellFormed_iff]
  refine ⟨rfl, ?_⟩
  rw [Ends, List.singleton_append, List.isChain_pair]
  exact answers_of_plain rfl rfl

theorem ends_cons_user (h : a.role = .user) : Ends Answers blank (a :: messages) ↔
    WellFormed messages := by
  have hsame (m : LlmMessage) : Answers a m ↔ Answers blank m :=
    (answers_of_user h).trans answers_of_blank.symm
  simp only [Ends, Closed, List.cons_append, List.isChain_cons, hsame]

def EndsUser (messages : List LlmMessage) : Prop := ∃ l m, messages = l ++ [m] ∧ m.role = .user

theorem wellFormed_append_turn (h : EndsUser messages) {c : LlmMessage} (hc : c.role = .user)
    (hbc : Answers b c) :
    WellFormed (messages ++ [b, c]) ↔ WellFormed messages ∧ b.results = [] := by
  obtain ⟨l, m, rfl, hm⟩ := h
  rw [← answers_of_user hm]
  exact closed_append_pair_iff (answers_blank hm) hbc (answers_blank hc)

end LlmMessage

open LlmMessage

namespace AgentMemory

variable {memory : AgentMemory} {messages : List LlmMessage}

theorem wellFormed_compressRequest (messages : List LlmMessage) :
    WellFormed (compressRequest messages) :=
  wellFormed_ofText .user _

theorem endsUser_compress (res : LlmResponse) (h : EndsUser messages) :
    EndsUser (memory.compress messages res) := by
  unfold compress
  split
  · obtain ⟨l, m, rfl, hm⟩ := h
    have hs : [m] <:+ sliceLast keepRecent (l ++ [m]) :=
      suffix_sliceLast (List.suffix_append l [m]) rfl
    obtain ⟨u, hu⟩ := hs
    exact ⟨_ :: u, m, by rw [← hu]; rfl, hm⟩
  · exact h

/-- Where a compression cuts, only what it keeps counts. -/
theorem wellFormed_compress (res : LlmResponse) (h : Ends Answers blank messages) :
    WellFormed (memory.compress messages res) ↔
      startsClean (if memory.compresses messages then sliceLast keepRecent messages else messages) =
      true := by
  unfold compress
  split
  · have hends := h.suffix (sliceLast_suffix keepRecent messages)
    rw [wellFormed_iff, ends_cons_user rfl, wellFormed_iff]
    simp [startsClean, hends]
  · rw [wellFormed_iff, and_iff_left h]

end AgentMemory

namespace Prompts

/-- Whether the messages of a run start clean where they have been cut last, and its responses with
calls hold no results of their own. -/
def next (g : Bool) : (c : AgentStep) → Except String c.Val → Bool
  | .session _ _ _, .ok history => startsClean history
  | .memoryCompress memory messages, .ok _ =>
    if memory.compresses messages then startsClean (sliceLast AgentMemory.keepRecent messages)
      else g
  | .llm _ _, .ok res =>
      g && ((toolUses res).isEmpty || (res.content.filterMap LlmContent.answered).isEmpty)
  | _, _ => g

def allowed (g : Bool) : AgentStep → Prop
  | .llm _ messages | .llmOutputFix messages => WellFormed messages ↔ g = true
  | .saveSession _ _ messages _ _ => g = true → WellFormed messages
  | _ => True

def answers : (c : AgentStep) → Except String c.Val → Prop
  | .session _ _ _, .ok history => Ends Answers blank history
  | .memoryCompress memory messages, .ok compressed =>
      ∃ res, compressed = memory.compress messages res
  | _, _ => True

def pairing : Discipline AgentStep.Val Bool := ⟨next, allowed, answers⟩

def Base (messages : List LlmMessage) (g : Bool) : Prop :=
  EndsUser messages ∧ (WellFormed messages ↔ g = true)

theorem wellFormed_recalledBlock (recalled : List String) (m : LlmMessage) (hm : WellFormed [m]) :
    WellFormed (Agent.recalledBlock recalled ++ [m]) := by
  cases recalled with
  | nil => exact hm
  | cons text recalled => exact (wellFormed_ofText .user _).append answers_local hm

theorem wp_opening (agentName : String) (options : AgentOptions) (input : AgentRunInput)
    (g : Bool) :
    pairing.wp (Agent.opening agentName options input)
      (fun g r => ∀ messages, r = .ok messages → Base messages g) g := by
  have huser : WellFormed [input.userMessage] := wellFormed_ofText .user input.message
  rw [Agent.opening, pairing.wp_bind, Agent.wp_step]
  refine ⟨trivial, fun r hr => ?_⟩
  cases r with
  | error e => exact fun _ he => by cases he
  | ok history =>
      have hends : Ends Answers blank history := hr
      rw [pairing.seq_ok]
      cases options.memory with
      | none =>
          rintro _ ⟨⟩
          refine ⟨⟨history, _, rfl, rfl⟩, ?_⟩
          rw [wellFormed_iff, and_iff_left (hends.append answers_local huser),
            startsClean_append rfl]
          rfl
      | some memory =>
          rw [pairing.wp_bind, Agent.wp_step]
          refine ⟨trivial, fun r _ => ?_⟩
          cases r with
          | error e => exact fun _ he => by cases he
          | ok recalled =>
              have hblock := wellFormed_recalledBlock recalled _ huser
              have hall : Ends Answers blank
                (history ++ Agent.recalledBlock recalled ++ [input.userMessage]) := by
                rw [List.append_assoc]
                exact hends.append answers_local hblock
              rw [pairing.seq_ok, Agent.wp_step]
              refine ⟨trivial, fun r hr => ?_⟩
              rintro messages rfl
              obtain ⟨res, rfl⟩ := hr
              refine ⟨AgentMemory.endsUser_compress res ⟨_, _, rfl, rfl⟩, ?_⟩
              rw [AgentMemory.wellFormed_compress res hall]
              simp only [pairing, next]
              split
              · rfl
              · rw [List.append_assoc, startsClean_append (wellFormed_iff.mp hblock).1]

theorem base_turn {messages : List LlmMessage} {g : Bool} (h : Base messages g) {b c : LlmMessage}
    (hc : c.role = .user)
    (hbc : Answers b c) : Base (messages ++ [b, c]) (g && b.results.isEmpty) := by
  refine ⟨⟨messages ++ [b], c, by rw [List.append_assoc]; rfl, hc⟩, ?_⟩
  rw [wellFormed_append_turn h.1 hc hbc, h.2, Bool.and_eq_true, List.isEmpty_iff]

theorem answers_results {res : LlmResponse} {results : List LlmContent}
    (h : Agent.Settles (toolUses res) results) :
    Answers ⟨.assistant, res.content⟩ ⟨.user, results⟩ := by
  have hids : (⟨.user, results⟩ : LlmMessage).results =
    (⟨.assistant, res.content⟩ : LlmMessage).uses := h.answered
  refine ⟨fun id hid => ⟨rfl, ?_⟩, fun _ id hid => ⟨rfl, ?_⟩⟩
  · rwa [← hids]
  · rwa [hids]

/-- Every prompt of the loop is well-formed if and only if the messages started clean where they
were cut and the responses before it held no results. -/
def invariant (agentName : String) (options : AgentOptions) (input : AgentRunInput) :
    Agent.Invariant pairing input agentName options true where
  I _ := Base
  Done := Base
  opening := wp_opening agentName options input true
  llm _ _ _ h := h.2
  call _ _ _ _ _ _ _ _ _ hc := by cases hc <;> exact ⟨trivial, fun _ => rfl⟩
  turn i messages g res results h hcalls hres := by
    have hnext := base_turn h rfl (answers_results hres)
    have hsome : (toolUses res).isEmpty = false := by simpa using hcalls
    have heq : pairing.next g (.llm i messages) (.ok res) =
        (g && (⟨.assistant, res.content⟩ : LlmMessage).results.isEmpty) := by
      simp only [pairing, next, hsome, Bool.false_or, LlmMessage.results]
    rw [heq]
    exact hnext
  final i messages g res h hnone := by
    have heq : pairing.next g (.llm i messages) (.ok res) = g := by simp [pairing, next, hnone]
    rw [heq]
    exact h
  unasked _ _ _ h := h
  fix messages g a u h := by
    have hplain : Answers (.ofText .assistant a) (.ofText .user u) := answers_of_plain rfl rfl
    have hfix := base_turn h rfl hplain
    rw [results_ofText, List.isEmpty_nil, Bool.and_true] at hfix
    exact ⟨hfix.2, fun _ => hfix⟩
  remembered _ _ _ _ h := ⟨trivial, fun _ => h⟩
  save _ _ _ _ h _ := h.2.mpr

def SessionsEnd (s : Conversations) : Prop :=
  ∀ agent id, Ends Answers blank (s.conversation agent id)

variable {s s' : Conversations} {ch : AgentChoice} {c : AgentStep} {r : Except String c.Val}

theorem ends_nil : Ends Answers blank [] := List.isChain_singleton blank

theorem answers_exec (hs : SessionsEnd s) (h : AgentStep.exec s ch c = some (s', r)) :
    answers c r := by
  unfold AgentStep.exec at h
  split at h
  case h_1 error =>
    cases h
    cases c <;> trivial
  case h_2 agent sessionId window =>
    cases h
    cases sessionId with
    | none => exact ends_nil
    | some id => exact (hs agent id).suffix (sliceLast_suffix window _)
  case h_6 memory messages =>
    cases h
    exact ⟨_, rfl⟩
  all_goals
    cases h
  all_goals
    trivial

theorem ends_saved {messages : List LlmMessage} (h : WellFormed messages) (finalText : String)
    (window : Int) :
    Ends Answers blank (savedMessages messages finalText window) :=
  (h.append answers_local (wellFormed_ofText .assistant finalText)).ends.suffix
    (sliceLast_suffix window _)

theorem sessionsEnd_put (hs : SessionsEnd s) {messages : List LlmMessage}
    (h : Ends Answers blank messages)
    (agent id : String) : SessionsEnd (s.agentSessionPut agent id messages) := by
  intro agent' id'
  rw [Conversations.conversation, Conversations.get_put]
  split
  · exact h
  · exact hs agent' id'

end Prompts

namespace AgentSys

open Prompts

def clean (t : AgentThread) : Bool := pairing.ghost true t.log

def usesMessages : AgentStep → Bool
  | .llm _ _ | .llmOutputFix _ | .saveSession _ _ _ _ _ => true
  | _ => false

/-- The messages of the loop are sent and saved only while they are clean. -/
def keepsPairs (σ : AgentSys) : AgentLabel → Bool
  | .trigger _ => true
  | .step i _ | .unrecorded i => match σ.config.pool[i]? with
    | some t => match t.prog with
      | .call c _ => !usesMessages c || clean t
      | _ => true
    | none => true

def SentWell (t : AgentThread) : Prop := ∀ e ∈ t.log, ∀ p ∈ e.op.prompt?, WellFormed p

def Paired (t : AgentThread) : Prop :=
  pairing.Obeys (fun _ => true) (fun _ _ _ => True) t ∧ SentWell t

variable {stringify : Json → String} {σ σ' : AgentSys}

theorem paired_thread (run : AgentRun) : Paired (run.thread stringify) :=
  ⟨(invariant run.agent run.options run.input).wp_runAgentLoop stringify, fun _ he => by cases he⟩

theorem keepsPairs_iff {l : AgentLabel} {i : Nat} {t : AgentThread} {c : AgentStep}
    {k : Except String c.Val → AgentM AgentResult}
    (hl : l = .unrecorded i ∨ ∃ ch, l = .step i ch) (ht : σ.config.pool[i]? = some t)
    (hp : t.prog = .call c k) :
    σ.keepsPairs l = true ↔ (usesMessages c = true → clean t = true) := by
  have heq : σ.keepsPairs l = (!usesMessages c || clean t) := by
    rcases hl with rfl | ⟨ch, rfl⟩ <;> simp only [keepsPairs, ht, hp]
  rw [heq]
  cases usesMessages c <;> simp

section Thread

variable {t : AgentThread} {c : AgentStep} {k : Except String c.Val → AgentM AgentResult}

theorem wellFormed_prompt (h : Paired t) (hp : t.prog = .call c k)
    (hclean : usesMessages c = true → clean t = true) :
    ∀ p ∈ c.prompt?, WellFormed p := by
  have hallowed : allowed (clean t) c := h.1.allowed hp
  intro p hmem
  cases c with
  | llm i messages | llmOutputFix messages =>
      cases hmem
      exact hallowed.mpr (hclean rfl)
  | memoryCompress memory messages =>
      simp only [AgentStep.prompt?] at hmem
      split at hmem
      · cases hmem
        exact AgentMemory.wellFormed_compressRequest messages
      · cases hmem
  | _ => cases hmem

theorem Paired.answer {s s' : Conversations} {ch : AgentChoice} {r : Except String c.Val}
    (h : Paired t)
    (hp : t.prog = .call c k) (hclean : usesMessages c = true → clean t = true) (hs : SessionsEnd s)
    (he : AgentStep.exec s ch c = some (s', r)) : Paired (t.answer c r (k r)) := by
  refine ⟨h.1.answer hp (answers_exec hs he), fun e hmem => ?_⟩
  rcases List.mem_cons.mp hmem with rfl | hmem
  · exact wellFormed_prompt h hp hclean
  · exact h.2 e hmem

theorem Paired.sessions {s s' : Conversations} {ch : AgentChoice} {r : Except String c.Val}
    (h : Paired t)
    (hp : t.prog = .call c k) (hclean : usesMessages c = true → clean t = true) (hs : SessionsEnd s)
    (he : AgentStep.exec s ch c = some (s', r)) : SessionsEnd s' := by
  obtain rfl | ⟨agent, id, messages, finalText, window, rfl, rfl, rfl⟩ := AgentStep.exec_cases he
  · exact hs
  · have hwell : WellFormed messages := h.1.allowed hp (hclean rfl)
    exact sessionsEnd_put hs (ends_saved hwell finalText window) agent id

end Thread

theorem step_paired {l : AgentLabel} (hs : SessionsEnd σ.config.shared)
    (ht : ∀ t ∈ σ.config.pool, Paired t)
    (hok : σ.keepsPairs l = true) (h : σ.step stringify l = some σ') :
    SessionsEnd σ'.config.shared ∧ ∀ t ∈ σ'.config.pool, Paired t := by
  obtain ⟨run, rfl⟩ | ⟨i, t, c, k, s, r, hi, hp, hcase⟩ := step_cases h
  · refine ⟨hs, fun t hmem => ?_⟩
    rcases List.mem_append.mp hmem with hmem | hmem
    · exact ht t hmem
    · rw [List.mem_singleton.mp hmem]
      exact paired_thread run
  · have hpaired := ht t (List.mem_of_getElem? hi)
    rcases hcase with ⟨ch, rfl, he, hconfig, _⟩ | ⟨rfl, he, rfl⟩
    · have hclean := (keepsPairs_iff (.inr ⟨ch, rfl⟩) hi hp).mp hok
      rw [hconfig]
      refine ⟨hpaired.sessions hp hclean hs he, fun u hmem => ?_⟩
      rcases List.mem_or_eq_of_mem_set hmem with hmem | rfl
      · exact ht u hmem
      · exact hpaired.answer hp hclean hs he
    · have hclean := (keepsPairs_iff (.inl rfl) hi hp).mp hok
      exact ⟨hpaired.sessions hp hclean hs he, ht⟩

/-- While no cut of a conversation starts with a tool result, and no response with calls holds one,
every prompt that has been sent is well-formed, and the next one of a run is if and only if that
holds of the run, too. -/
theorem prompts_wellFormed {σ : AgentSys} (h : Run (step stringify) keepsPairs init σ) :
    ∀ t ∈ σ.config.pool, SentWell t ∧
      ∀ c k, t.prog = .call c k → usesMessages c = true →
      ∀ p ∈ c.prompt?, (WellFormed p ↔ clean t = true) := by
  have hinv := h.invariant (fun σ => SessionsEnd σ.config.shared ∧ ∀ t ∈ σ.config.pool, Paired t)
    ⟨fun _ _ => ends_nil, fun _ hmem => by cases hmem⟩
    (fun _ _ _ _ hI hok hs => step_paired hI.1 hI.2 hok hs)
  intro t hmem
  obtain ⟨hobeys, hsent⟩ := hinv.2 t hmem
  refine ⟨hsent, fun c k hp hc p hprompt => ?_⟩
  have hallowed : allowed (clean t) c := hobeys.allowed hp
  cases c with
  | llm i messages | llmOutputFix messages =>
      cases hprompt
      exact hallowed
  | saveSession agent id messages finalText window => cases hprompt
  | _ => cases hc

def lookup (window : Int) : AgentOptions :=
  ⟨[⟨"lookup", false, none⟩], none, none, some window, none, none, none⟩

def callsLookup : LlmResponse := ⟨[.toolUse "tu_1" "lookup" (.obj [])], .toolUse, ⟨3, 5⟩⟩

def finalAnswer (text : String) : LlmResponse := ⟨[.text text], .endTurn, ⟨3, 5⟩⟩

/-- Two runs of a session, the first one with a call; the second one has sent its prompt. -/
def twoTurns (window : Int) : List AgentLabel :=
  [.trigger ⟨"support", lookup window, ⟨"My name is Ada.", some "cus_7"⟩⟩, .step 0 .stored,
    .step 0 (.response callsLookup),
    .step 0 (.result (.str "Ada")), .step 0 (.response (finalAnswer "Hi Ada!")), .step 0 .stored,
    .trigger ⟨"support", lookup window, ⟨"What's my name?", some "cus_7"⟩⟩, .step 1 .stored,
    .step 1 (.response (finalAnswer "Ada"))]

theorem prompts_wellFormed_lookup : ∃ σ : AgentSys,
    (σ.config.pool.map (fun t => (t.log.filterMap (fun e => e.op.prompt?)).map List.length)) =
    [[3, 1], [4]] ∧
      ∀ t ∈ σ.config.pool, SentWell t := by
  obtain ⟨σ, hrun, hp⟩ := Run.exists_of_replay (step (fun _ => "")) keepsPairs init (twoTurns 3)
    (fun σ => σ.config.pool.map
      (fun t => (t.log.filterMap (fun e => e.op.prompt?)).map List.length) = [[3, 1], [4]])
    (by decide +kernel)
  exact ⟨σ, of_decide_eq_true hp, fun t ht => (prompts_wellFormed hrun t ht).1⟩

/-- A window of two messages cuts between the call and its result. -/
theorem window_splits_pair : ∃ σ : AgentSys, Run (step (fun _ => "")) (fun _ _ => true) init σ ∧
    ∃ t ∈ σ.config.pool, ∃ e ∈ t.log, ∃ p ∈ e.op.prompt?, ¬ WellFormed p := by
  obtain ⟨σ, hrun, hp⟩ :=
    Run.exists_of_replay (step (fun _ => "")) (fun _ _ => true) init (twoTurns 2)
    (fun σ => σ.config.pool.any
      (fun t => t.log.any (fun e => e.op.prompt?.any (fun p => !decide (WellFormed p)))))
    (by decide +kernel)
  simp only [List.any_eq_true, Option.any_eq_true, Bool.not_eq_true', decide_eq_false_iff_not] at hp
  obtain ⟨t, ht, e, he, p, hprompt, hill⟩ := hp
  exact ⟨σ, hrun, t, ht, e, he, p, hprompt, hill⟩

end AgentSys

end ZenZip
