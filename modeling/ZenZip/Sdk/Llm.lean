import ZenZip.Json
import ZenZip.Lib.Accum

namespace ZenZip

open Lib

namespace Json

def str? (j : Json) (k : String) : Option String :=
  match j.get k with
  | some (.str s) => some s
  | _ => none

/-- A property that is a number of things. -/
def nat? (j : Json) (k : String) : Option Nat :=
  match j.get k with
  | some (.int n) => n.toNat?
  | _ => none

def items? (j : Json) (k : String) : Option (List Json) :=
  match j.get k with
  | some (.arr items) => some items
  | _ => none

end Json

inductive LlmContent
  | text (text : String)
  | toolUse (id name : String) (input : Json)
  | toolResult (toolUseId content : String) (isError : Bool)
  deriving DecidableEq

inductive Role
  | user | assistant
  deriving DecidableEq

structure LlmMessage where
  role : Role
  content : List LlmContent
  deriving DecidableEq

structure LlmUsage where
  inputTokens : Nat
  outputTokens : Nat
  deriving DecidableEq

def LlmUsage.add (a b : LlmUsage) : LlmUsage :=
  ⟨a.inputTokens + b.inputTokens, a.outputTokens + b.outputTokens⟩

inductive StopReason
  | endTurn | toolUse | maxTokens | other
  deriving DecidableEq

structure LlmResponse where
  content : List LlmContent
  stopReason : StopReason
  usage : LlmUsage
  deriving DecidableEq

structure ToolUse where
  id : String
  name : String
  input : Json
  deriving DecidableEq

namespace LlmContent

/-- `"text" in c ? c.text : ""`. -/
def textOr : LlmContent → String
  | .text s => s
  | _ => ""

def asToolUse : LlmContent → Option ToolUse
  | .toolUse id name input => some ⟨id, name, input⟩
  | _ => none

def answered : LlmContent → Option String
  | .toolResult toolUseId _ _ => some toolUseId
  | _ => none

/-- A block as it is journaled; `isError` is there when it is true. -/
def toJson : LlmContent → Json
  | .text s => .obj [("type", .str "text"), ("text", .str s)]
  | .toolUse id name input =>
      .obj [("type", .str "toolUse"), ("id", .str id), ("name", .str name), ("input", input)]
  | .toolResult toolUseId content isError =>
    .obj ([("type", .str "toolResult"), ("toolUseId", .str toolUseId), ("content", .str content)] ++
      if isError then [("isError", .bool true)] else [])

def ofJson (j : Json) : Option LlmContent := do
  match (← j.str? "type") with
  | "text" => return .text (← j.str? "text")
  | "toolUse" => return .toolUse (← j.str? "id") (← j.str? "name") (← j.get "input")
  | "toolResult" =>
      return .toolResult (← j.str? "toolUseId") (← j.str? "content")
        (j.get "isError" = some (.bool true))
  | _ => none

theorem ofJson_toJson (c : LlmContent) : ofJson c.toJson = some c := by
  cases c with
  | text s | toolUse id name input => rfl
  | toolResult toolUseId content isError => cases isError <;> rfl

end LlmContent

namespace LlmMessage

def toJson (m : LlmMessage) : Json :=
  .obj [("role", .str (match m.role with | .user => "user" | .assistant => "assistant")),
    ("content", .arr (m.content.map LlmContent.toJson))]

def ofJson (j : Json) : Option LlmMessage := do
  let role ← match (← j.str? "role") with
    | "user" => some .user
    | "assistant" => some .assistant
    | _ => none
  return ⟨role, ← (← j.items? "content").mapM LlmContent.ofJson⟩

end LlmMessage

theorem LlmMessage.ofJson_toJson (m : LlmMessage) : ofJson m.toJson = some m := by
  obtain ⟨role, content⟩ := m
  have hc := mapM_map_eq_some LlmContent.ofJson_toJson content
  cases role <;> simp [toJson, ofJson, Json.str?, Json.items?, Json.get, hc]

def textContent (response : LlmResponse) : String :=
  String.join (response.content.map LlmContent.textOr)

def toolUses (response : LlmResponse) : List ToolUse :=
  response.content.filterMap LlmContent.asToolUse

namespace LlmMessage

def uses (m : LlmMessage) : List String := (m.content.filterMap LlmContent.asToolUse).map (·.id)

def results (m : LlmMessage) : List String := m.content.filterMap LlmContent.answered

def ofText (role : Role) (text : String) : LlmMessage := ⟨role, [.text text]⟩

@[simp] theorem uses_ofText (role : Role) (text : String) : (ofText role text).uses = [] := rfl

@[simp] theorem results_ofText (role : Role) (text : String) :
    (ofText role text).results = [] := rfl

end LlmMessage

namespace LlmResponse

def toJson (r : LlmResponse) : Json :=
  .obj [("content", .arr (r.content.map LlmContent.toJson)),
    ("stopReason", .str (match r.stopReason with
      | .endTurn =>
          "endTurn" | .toolUse => "toolUse" | .maxTokens => "maxTokens" | .other => "other")),
    ("usage", .obj [("inputTokens", .int r.usage.inputTokens),
      ("outputTokens", .int r.usage.outputTokens)])]

def ofJson (j : Json) : Option LlmResponse := do
  let stopReason ← match (← j.str? "stopReason") with
    | "endTurn" => some .endTurn
    | "toolUse" => some .toolUse
    | "maxTokens" => some .maxTokens
    | "other" => some .other
    | _ => none
  let usage ← j.get "usage"
  return ⟨← (← j.items? "content").mapM LlmContent.ofJson, stopReason,
    ⟨← usage.nat? "inputTokens", ← usage.nat? "outputTokens"⟩⟩

theorem ofJson_toJson (r : LlmResponse) : ofJson r.toJson = some r := by
  obtain ⟨content, stopReason, usage⟩ := r
  have hc := mapM_map_eq_some LlmContent.ofJson_toJson content
  have hn (n : Nat) : (n : Int).toNat? = some n := rfl
  cases stopReason <;> simp [toJson, ofJson, Json.str?, Json.items?, Json.nat?, Json.get, hc, hn]

end LlmResponse

structure GeminiPart where
  text : Option String
  functionCall : Option (String × Option Json)

/-- The content that `googleGemini.complete` makes of the parts of a candidate, `toolIndex` calls
after their first one. -/
def geminiContent : (toolIndex : Nat) → List GeminiPart → List LlmContent
  | _, [] => []
  | toolIndex, part :: parts =>
    match part.text.filter (· ≠ ""), part.functionCall with
    | some text, _ => .text text :: geminiContent toolIndex parts
    | none, some (name, args) =>
      .toolUse s!"{name}-{toolIndex}" name (args.getD (.obj [])) ::
        geminiContent (toolIndex + 1) parts
    | none, none => geminiContent toolIndex parts

/-- What `googleGemini.complete` returns for a candidate and its `usageMetadata`. -/
def geminiResponse (parts : List GeminiPart) (finishReason : Option String) (usage : LlmUsage) :
    LlmResponse :=
  let content := geminiContent 0 parts
  { content
    stopReason :=
      if (content.filterMap LlmContent.asToolUse).isEmpty then
        match finishReason with
        | some "MAX_TOKENS" => .maxTokens
        | some "STOP" => .endTurn
        | _ => .other
      else .toolUse
    usage }

end ZenZip
