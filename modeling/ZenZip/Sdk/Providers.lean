import ZenZip.Sdk.Prompts
import ZenZip.Sdk.Anthropic

namespace ZenZip

open Lib LlmMessage

namespace OpenAi

structure OaToolCall where
  id : String
  name : String
  arguments : String
  deriving DecidableEq

inductive OaMessage
  | system (content : String)
  | user (content : String)
  | assistant (content : Option String) (toolCalls : List OaToolCall)
  | tool (toolCallId content : String)
  deriving DecidableEq

variable (stringify : Json → String)

/-- `tu.input ?? {}`. -/
def inputOr : Json → Json
  | .null => .obj []
  | input => input

def textOf (m : LlmMessage) : String := String.join (m.content.map LlmContent.textOr)

def toOaToolCall (u : ToolUse) : OaToolCall := ⟨u.id, u.name, stringify (inputOr u.input)⟩

def toolMessage : LlmContent → Option OaMessage
  | .toolResult toolUseId content _ => some (.tool toolUseId content)
  | _ => none

def toOpenAiMessage (m : LlmMessage) : List OaMessage :=
  match m.role with
  | .assistant => [.assistant (if textOf m = "" then none else some (textOf m))
      ((m.content.filterMap LlmContent.asToolUse).map (toOaToolCall stringify))]
  | .user => m.content.filterMap toolMessage ++ if textOf m = "" then [] else [.user (textOf m)]

def toOpenAiMessages (system : Option String) (messages : List LlmMessage) : List OaMessage :=
  (match system.filter (· ≠ "") with
    | some s => [.system s]
    | none => []) ++ messages.flatMap (toOpenAiMessage stringify)

/-- The calls of the last assistant message, and those of them that no message has answered. -/
structure Open where
  calls : List String
  owed : List String
  deriving DecidableEq

/-- The order that the API asks for: behind an assistant message come the answers to its calls, and
no other message before each call has one. -/
def accept (o : Open) : OaMessage → Option Open
  | .tool id _ => if id ∈ o.calls then some { o with owed := o.owed.filter (· ≠ id) } else none
  | .assistant _ toolCalls =>
      if o.owed = [] then some ⟨toolCalls.map (·.id), toolCalls.map (·.id)⟩ else none
  | .user _ | .system _ => if o.owed = [] then some ⟨[], []⟩ else none

/-- The API takes the conversation, and no call in it is left without an answer. -/
def Accepted (messages : List OaMessage) : Prop :=
  ∃ calls, messages.foldlM accept ⟨[], []⟩ = some ⟨calls, []⟩

instance (messages : List OaMessage) : Decidable (Accepted messages) :=
  decidable_of_iff ((messages.foldlM accept ⟨[], []⟩).any (fun o => o.owed = [])) (by
    rw [Option.any_eq_true]
    constructor
    · rintro ⟨⟨calls, owed⟩, h, howed⟩
      obtain rfl : owed = [] := of_decide_eq_true howed
      exact ⟨calls, h⟩
    · rintro ⟨calls, h⟩
      exact ⟨_, h, rfl⟩)

variable {stringify} {o : Open} {a b : LlmMessage} {messages : List LlmMessage}

def Behind (a : LlmMessage) (o : Open) : Prop :=
  if a.role = .assistant then o = ⟨a.uses, a.uses⟩ else o.owed = []

theorem foldlM_tools {content : List LlmContent}
    (h : ∀ id ∈ content.filterMap LlmContent.answered, id ∈ o.calls) :
    (content.filterMap toolMessage).foldlM accept o =
      some { o with owed := o.owed.filter (· ∉ content.filterMap LlmContent.answered) } := by
  induction content generalizing o with
  | nil => simp
  | cons c content ih =>
      cases c with
      | text s => exact ih h
      | toolUse id name input => exact ih h
      | toolResult id text isError =>
          have hid : id ∈ o.calls := h id List.mem_cons_self
          have hrest := @ih { o with owed := o.owed.filter (· ≠ id) } fun x hx =>
            h x (List.mem_cons_of_mem id hx)
          have htool : toolMessage (.toolResult id text isError) = some (.tool id text) := rfl
          have hanswered : LlmContent.answered (.toolResult id text isError) = some id := rfl
          rw [List.filterMap_cons_some htool, List.foldlM_cons, accept, if_pos hid]
          refine hrest.trans ?_
          rw [List.filterMap_cons_some hanswered, List.filter_filter]
          have hboth (x : String) :
            (decide (x ∉ content.filterMap LlmContent.answered) && decide (x ≠ id)) =
              decide (x ∉ id :: content.filterMap LlmContent.answered) := by
            rw [← Bool.decide_and, decide_eq_decide, List.mem_cons, not_or, and_comm]
          simp only [hboth]

theorem uses_map (m : LlmMessage) :
    ((m.content.filterMap LlmContent.asToolUse).map (toOaToolCall stringify)).map (·.id) = m.uses :=
      by
  rw [LlmMessage.uses, List.map_map]
  rfl

theorem accept_message (h : Answers a b) (ho : Behind a o) :
    ∃ o', (toOpenAiMessage stringify b).foldlM accept o = some o' ∧ Behind b o' := by
  have howed : ∀ id ∈ o.owed, b.role = .user ∧ id ∈ b.results := by
    intro id hid
    cases ha : a.role with
    | assistant =>
        rw [Behind, if_pos ha] at ho
        rw [ho] at hid
        exact h.2 ha id hid
    | user =>
        rw [Behind, if_neg (by simp [ha])] at ho
        rw [ho] at hid
        cases hid
  cases hb : b.role with
  | assistant =>
      have hnone : o.owed = [] := by
        apply List.eq_nil_iff_forall_not_mem.mpr
        intro id hid
        have huser := (howed id hid).1
        rw [hb] at huser
        cases huser
      refine ⟨⟨b.uses, b.uses⟩, ?_, ?_⟩
      · rw [toOpenAiMessage, hb]
        simp only [List.foldlM_cons, List.foldlM_nil, accept, if_pos hnone, uses_map]
        rfl
      · rw [Behind, if_pos hb]
  | user =>
      have hcalls : ∀ id ∈ b.content.filterMap LlmContent.answered, id ∈ o.calls := by
        intro id hid
        obtain ⟨ha, hmem⟩ := h.1 id hid
        rw [Behind, if_pos ha] at ho
        rw [ho]
        exact hmem
      have hpaid : o.owed.filter (· ∉ b.content.filterMap LlmContent.answered) = [] :=
        List.filter_eq_nil_iff.mpr fun id hid hnot => of_decide_eq_true hnot (howed id hid).2
      rw [toOpenAiMessage, hb]
      dsimp only
      rw [List.foldlM_append, foldlM_tools hcalls, hpaid]
      by_cases ht : textOf b = ""
      · refine ⟨⟨o.calls, []⟩, ?_, ?_⟩
        · rw [if_pos ht]
          rfl
        · rw [Behind, if_neg (by simp [hb])]
      · refine ⟨⟨[], []⟩, ?_, ?_⟩
        · rw [if_neg ht]
          rfl
        · rw [Behind, if_neg (by simp [hb])]

theorem accept_messages (h : (a :: (messages ++ [blank])).IsChain Answers) (ho : Behind a o) :
    ∃ calls, (messages.flatMap (toOpenAiMessage stringify)).foldlM accept o = some ⟨calls, []⟩ := by
  induction messages generalizing a o with
  | nil =>
      rw [List.nil_append, List.isChain_pair] at h
      have hnone : o.owed = [] := by
        cases ha : a.role with
        | user =>
            rw [Behind, if_neg (by simp [ha])] at ho
            exact ho
        | assistant =>
            rw [Behind, if_pos ha] at ho
            rw [ho]
            apply List.eq_nil_iff_forall_not_mem.mpr
            intro id hid
            cases (h.2 ha id hid).2
      exact ⟨o.calls, by rw [← hnone]; rfl⟩
  | cons b messages ih =>
      rw [List.cons_append, List.isChain_cons_cons] at h
      obtain ⟨o', hacc, ho'⟩ := accept_message h.1 ho
      obtain ⟨calls, hrest⟩ := ih h.2 ho'
      refine ⟨calls, ?_⟩
      rw [List.flatMap_cons, List.foldlM_append, hacc]
      exact hrest

/-- What is well formed as a prompt is a conversation that the API takes. -/
theorem accepted_of_wellFormed (system : Option String) (h : WellFormed messages) :
    Accepted (toOpenAiMessages stringify system messages) := by
  have hblank : Behind blank ⟨[], []⟩ := by
    rw [Behind, if_neg (by decide)]
  obtain ⟨calls, hall⟩ := accept_messages h hblank
  refine ⟨calls, ?_⟩
  rw [toOpenAiMessages, List.foldlM_append]
  cases system.filter (· ≠ "") <;> exact hall

/-- Two calls, answered in one message with a text behind. -/
theorem accepted_of_wellFormed_calls : Accepted (toOpenAiMessages (fun _ => "{}") (some "be brief")
    [⟨.user, [.text "weather?"]⟩,
    ⟨.assistant, [.toolUse "c1" "now" .null, .text "one moment", .toolUse "c2" "at" .null]⟩,
      ⟨.user, [.text "and?", .toolResult "c2" "rain" false, .toolResult "c1" "sun" true]⟩]) :=
  accepted_of_wellFormed (some "be brief") (by decide)

end OpenAi

namespace Gemini

inductive SentPart
  | text (text : String)
  | functionCall (name : String) (args : Json)
  | functionResponse (name : String) (result : String)
  deriving DecidableEq

structure GeminiContent where
  role : Role
  parts : List SentPart
  deriving DecidableEq

/-- The names by id, of all calls of the assistant; the last one stays. -/
def nameById (messages : List LlmMessage) (id : String) : Option String :=
  (((messages.filter (·.role = .assistant)).flatMap
    (fun m => m.content.filterMap LlmContent.asToolUse)).reverse.find?
    (fun u => u.id = id)).map (·.name)

def toPart (nameOf : String → String) : LlmContent → Option SentPart
  | .text text => if text = "" then none else some (.text text)
  | .toolUse _ name input => some (.functionCall name (OpenAi.inputOr input))
  | .toolResult toolUseId content _ => some (.functionResponse (nameOf toolUseId) content)

def toContent (nameOf : String → String) (m : LlmMessage) : Option GeminiContent :=
  if (m.content.filterMap (toPart nameOf)).isEmpty then none
    else some ⟨m.role, m.content.filterMap (toPart nameOf)⟩

def toGeminiContents (messages : List LlmMessage) : List GeminiContent :=
  messages.filterMap (toContent fun id => (nameById messages id).getD id)

namespace GeminiContent

def calls (c : GeminiContent) : List String := c.parts.filterMap fun
  | .functionCall name _ => some name
  | _ => none

def responses (c : GeminiContent) : List String := c.parts.filterMap fun
  | .functionResponse name _ => some name
  | _ => none

def blank : GeminiContent := ⟨.user, []⟩

/-- The responses in `b` are to functions that the model has called in `a`, and each of its calls
has one. -/
def Answers (a b : GeminiContent) : Prop :=
  (∀ name ∈ b.responses, a.role = .assistant ∧ name ∈ a.calls) ∧
    (a.role = .assistant → ∀ name ∈ a.calls, b.role = .user ∧ name ∈ b.responses)

instance (a b : GeminiContent) : Decidable (Answers a b) := inferInstanceAs (Decidable (_ ∧ _))

end GeminiContent

/-- The id that a call of Gemini is given, after its name and a number. -/
def synthesized (m : LlmMessage) : Prop := ∀ u ∈ m.content.filterMap LlmContent.asToolUse,
    ∃ i : Nat, u.id = s!"{u.name}-{i}"

section Ids

variable {name other : String} {i j : Nat}

theorem dash_not_mem (i : Nat) : '-' ∉ i.repr.toList := by
  intro h
  have hdigit := Text.isDigit_of_mem_repr h
  cases hdigit

theorem synthesized_inj (h : s!"{name}-{i}" = s!"{other}-{j}") : name = other := by
  have hlist (name : String) (i : Nat) : (s!"{name}-{i}").toList = name.toList ++
    '-' :: i.repr.toList := by
    simp [toString]
  have heq := congrArg String.toList h
  rw [hlist, hlist] at heq
  exact String.toList_inj.mp (Text.before_last_inj (dash_not_mem i) (dash_not_mem j) heq)

theorem synthesized_geminiContent (role : Role) (toolIndex : Nat) (parts : List GeminiPart) :
    synthesized ⟨role, geminiContent toolIndex parts⟩ := by
  induction parts generalizing toolIndex with
  | nil => nofun
  | cons part parts ih =>
      intro u hu
      rw [geminiContent] at hu
      split at hu
      · exact ih toolIndex u hu
      · rcases List.mem_cons.mp hu with rfl | hu
        · exact ⟨toolIndex, rfl⟩
        · exact ih (toolIndex + 1) u hu
      · exact ih toolIndex u hu

end Ids

section Names

variable {messages : List LlmMessage} {nameOf : String → String} {m x y : LlmMessage}
  {c c' : GeminiContent}

theorem nameById_eq (hsame : ∀ m ∈ messages, m.role = .assistant → synthesized m)
    (hm : m ∈ messages) (hrole : m.role = .assistant)
    {u : ToolUse} (hu : u ∈ m.content.filterMap LlmContent.asToolUse) :
    nameById messages u.id = some u.name := by
  have hmem : u ∈
    ((messages.filter (·.role = .assistant)).flatMap
      (fun m => m.content.filterMap LlmContent.asToolUse)).reverse := by
    rw [List.mem_reverse, List.mem_flatMap]
    exact ⟨m, List.mem_filter.mpr ⟨hm, decide_eq_true hrole⟩, hu⟩
  rw [nameById]
  cases hfind :
    ((messages.filter (·.role = .assistant)).flatMap
      (fun m => m.content.filterMap LlmContent.asToolUse)).reverse.find?
      (fun v => v.id = u.id) with
  | none => exact absurd (decide_eq_true rfl) (List.find?_eq_none.mp hfind u hmem)
  | some v =>
      have hid : v.id = u.id := by simpa using List.find?_some hfind
      obtain ⟨m', hm', hv⟩ :=
        List.mem_flatMap.mp (List.mem_reverse.mp (List.mem_of_find?_eq_some hfind))
      obtain ⟨hm', hrole'⟩ := List.mem_filter.mp hm'
      obtain ⟨i, hi⟩ := hsame m' hm' (of_decide_eq_true hrole') v hv
      obtain ⟨j, hj⟩ := hsame m hm hrole u hu
      rw [Option.map_some, synthesized_inj (hi.symm.trans (hid.trans hj))]

structure Image (nameOf : String → String) (m : LlmMessage) (c : GeminiContent) : Prop where
  role : c.role = m.role
  calls : ∀ name, name ∈ c.calls ↔ ∃ u ∈ m.content.filterMap LlmContent.asToolUse, u.name = name
  responses : ∀ name, name ∈ c.responses ↔ ∃ id ∈ m.results, nameOf id = name

theorem mem_calls_parts {content : List LlmContent} {name : String} :
    name ∈ GeminiContent.calls ⟨m.role, content.filterMap (toPart nameOf)⟩ ↔
      ∃ u ∈ content.filterMap LlmContent.asToolUse, u.name = name := by
  induction content with
  | nil => simp [GeminiContent.calls]
  | cons x content ih =>
      rw [GeminiContent.calls] at ih ⊢
      cases x with
      | text text =>
          by_cases ht : text = ""
          · simpa [List.filterMap_cons, toPart, LlmContent.asToolUse, ht] using ih
          · simpa [List.filterMap_cons, toPart, LlmContent.asToolUse, ht] using ih
      | toolUse id name' input =>
          simp only [List.filterMap_cons, toPart, LlmContent.asToolUse, List.mem_cons,
            exists_eq_or_imp, ih]
          exact or_congr eq_comm Iff.rfl
      | toolResult id text isError =>
          simpa [List.filterMap_cons, toPart, LlmContent.asToolUse] using ih

theorem mem_responses_parts {content : List LlmContent} {name : String} :
    name ∈ GeminiContent.responses ⟨m.role, content.filterMap (toPart nameOf)⟩ ↔
      ∃ id ∈ content.filterMap LlmContent.answered, nameOf id = name := by
  induction content with
  | nil => simp [GeminiContent.responses]
  | cons x content ih =>
      rw [GeminiContent.responses] at ih ⊢
      cases x with
      | text text =>
          by_cases ht : text = ""
          · simpa [List.filterMap_cons, toPart, LlmContent.answered, ht] using ih
          · simpa [List.filterMap_cons, toPart, LlmContent.answered, ht] using ih
      | toolUse id name' input => simpa [List.filterMap_cons, toPart, LlmContent.answered] using ih
      | toolResult id text isError =>
          simp only [List.filterMap_cons, toPart, LlmContent.answered, List.mem_cons,
            exists_eq_or_imp, ih]
          exact or_congr eq_comm Iff.rfl

theorem image_of_toContent (hc : toContent nameOf m = some c) : Image nameOf m c := by
  rw [toContent] at hc
  split at hc
  · cases hc
  · cases hc
    exact ⟨rfl, fun name => mem_calls_parts, fun name => mem_responses_parts⟩

theorem image_blank : Image nameOf blank GeminiContent.blank where
  role := rfl
  calls _ := @mem_calls_parts nameOf blank [] _
  responses _ := @mem_responses_parts nameOf blank [] _

theorem plain_of_toContent (hc : toContent nameOf m = none) : m.uses = [] ∧ m.results = [] := by
  rw [toContent] at hc
  split at hc
  case isTrue hparts =>
    have hnone : ∀ x ∈ m.content, toPart nameOf x = none := by
      rw [List.isEmpty_iff, List.filterMap_eq_nil_iff] at hparts
      exact hparts
    rw [LlmMessage.uses, LlmMessage.results, List.map_eq_nil_iff, List.filterMap_eq_nil_iff,
      List.filterMap_eq_nil_iff]
    constructor
    all_goals
      intro x hx
      have hpart := hnone x hx
      cases x with
      | text text => rfl
      | toolUse id name input => cases hpart
      | toolResult id text isError => cases hpart
  case isFalse => cases hc

theorem answers_image (hx : Image nameOf x c) (hy : Image nameOf y c')
    (hnames : x.role = .assistant → ∀ u ∈ x.content.filterMap LlmContent.asToolUse,
    nameOf u.id = u.name) (h : Answers x y) :
    c.Answers c' := by
  constructor
  · intro name hname
    obtain ⟨id, hid, rfl⟩ := (hy.responses name).mp hname
    obtain ⟨hrole, huse⟩ := h.1 id hid
    obtain ⟨u, hu, rfl⟩ := List.mem_map.mp huse
    exact ⟨hx.role.trans hrole, (hx.calls _).mpr ⟨u, hu, (hnames hrole u hu).symm⟩⟩
  · intro hrole name hname
    rw [hx.role] at hrole
    obtain ⟨u, hu, rfl⟩ := (hx.calls name).mp hname
    obtain ⟨hrole', hres⟩ := h.2 hrole u.id (List.mem_map_of_mem hu)
    exact ⟨hy.role.trans hrole', (hy.responses _).mpr ⟨u.id, hres, hnames hrole u hu⟩⟩

/-- As a call's id is its name and a number, the answers to calls go out under the names of the
calls, also where ids repeat. -/
theorem closed_toGeminiContents (hids : ∀ m ∈ messages, m.role = .assistant → synthesized m)
    (h : WellFormed messages) :
    Closed GeminiContent.Answers GeminiContent.blank (toGeminiContents messages) := by
  refine h.filterMap ?_ ?_ ?_
  · intro a b d hb hab hbd
    obtain ⟨huses, hresults⟩ := plain_of_toContent hb
    refine ⟨fun id hid => ?_, fun hrole id hid => ?_⟩
    · have hmem := (hbd.1 id hid).2
      rw [huses] at hmem
      cases hmem
    · have hmem := (hab.2 hrole id hid).2
      rw [hresults] at hmem
      cases hmem
  · intro a ha a' ha'
    have hnames : a.role = .assistant → ∀ u ∈ a.content.filterMap LlmContent.asToolUse,
        (nameById messages u.id).getD u.id = u.name := by
      intro hrole u hu
      rw [nameById_eq hids ha hrole hu, Option.getD_some]
    have hi := image_of_toContent ha'
    exact ⟨fun b b' hb hab => answers_image hi (image_of_toContent hb) hnames hab,
      answers_image hi image_blank hnames⟩
  · have hnames : blank.role = .assistant → ∀ u ∈ blank.content.filterMap LlmContent.asToolUse,
        (nameById messages u.id).getD u.id = u.name := nofun
    exact ⟨fun b b' hb hab => answers_image image_blank (image_of_toContent hb) hnames hab,
      fun _ => ⟨nofun, nofun⟩⟩

/-- Two turns of a model, whose calls come with the same id, and an empty text between them. -/
def twoTurns : List LlmMessage :=
  [⟨.user, [.text "pay"]⟩, ⟨.assistant, geminiContent 0 [⟨none, some ("pay", none)⟩]⟩,
    ⟨.user, [.toolResult "pay-0" "paid" false]⟩,
    ⟨.user, [.text ""]⟩,
      ⟨.assistant,
        geminiContent
          0 [⟨none, some ("pay", none)⟩, ⟨some "and", none⟩, ⟨none, some ("log", none)⟩]⟩,
    ⟨.user, [.toolResult "log-1" "" false, .toolResult "pay-0" "paid" false]⟩]

theorem closed_toGeminiContents_repeated :
    Closed GeminiContent.Answers GeminiContent.blank (toGeminiContents twoTurns) := by
  refine closed_toGeminiContents ?_ (by decide)
  intro m hm
  simp only [twoTurns, List.mem_cons, List.not_mem_nil, or_false] at hm
  rcases hm with rfl | rfl | rfl | rfl | rfl | rfl
  case inr.inl | inr.inr.inr.inr.inl => exact fun _ => synthesized_geminiContent _ _ _
  all_goals nofun

end Names

end Gemini

end ZenZip
