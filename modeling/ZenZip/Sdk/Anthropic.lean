import ZenZip.JsonReader
import ZenZip.Sdk.Llm
import ZenZip.Sdk.Sse
import ZenZip.Sdk.TextDecoder
import ZenZip.Lib.Framing

namespace ZenZip

open Lib JsonText

/-- What `fetch` resolves to. -/
structure HttpResponse where
  status : Nat
  text : List Char
  body : Option (List (List UInt8))

namespace HttpResponse

def ok (res : HttpResponse) : Bool := 200 ≤ res.status && res.status < 300

def failure (res : HttpResponse) (what : String) : String :=
  what ++ toString res.status ++ " " ++ String.ofList (Text.sliceUnits 300 res.text)

end HttpResponse

namespace Anthropic

structure ContentBlock where
  type : String
  text : Option String
  id : Option String
  name : Option String
  input : Option Json
  deriving DecidableEq

def ContentBlock.ofJson (j : Json) : Option ContentBlock := do
  return ⟨← j.str? "type", j.str? "text", j.str? "id", j.str? "name", j.get "input"⟩

/-- The assertions `b.id!` and `b.name!` are taken at their word. -/
def fromAnthropicContent : List ContentBlock → Option (List LlmContent)
  | [] => some []
  | b :: bs => do
    let out ← fromAnthropicContent bs
    if b.type = "text" ∧ b.text.isSome then return .text (← b.text) :: out
    else if b.type = "tool_use" then return .toolUse (← b.id) (← b.name) (← b.input) :: out
    else return out

def mapStopReason : Option String → StopReason
  | some "end_turn" => .endTurn
  | some "tool_use" => .toolUse
  | some "max_tokens" => .maxTokens
  | _ => .other

def notTyped : String := "TypeError"

variable (numeral : List Char → Json)

def ofBody (data : Json) : Option LlmResponse := do
  let content ← fromAnthropicContent (← (← data.items? "content").mapM ContentBlock.ofJson)
  let usage ← data.get "usage"
  return ⟨content, mapStopReason (data.str? "stop_reason"),
    ⟨← usage.nat? "input_tokens", ← usage.nat? "output_tokens"⟩⟩

def complete (res : HttpResponse) : Except String LlmResponse :=
  if res.ok = false then .error (res.failure "anthropic: ")
  else match parseJson numeral res.text with
    | none => .error "SyntaxError"
    | some data => match ofBody data with
      | some r => .ok r
      | none => .error notTyped

/-- An event by the fields that `stream` reads. -/
inductive StreamEvent
  | messageStart (inputTokens : Option Nat)
  | blockStart (index : Nat) (block : ContentBlock)
  | textDelta (index : Nat) (text : String)
  | inputJsonDelta (index : Nat) (partialJson : String)
  | blockStop (index : Nat)
  | messageDelta (stopReason : Option String) (outputTokens : Option Nat)
  | other
  deriving DecidableEq

def StreamEvent.ofJson (event : Json) : Option StreamEvent :=
  match event.str? "type" with
  | some "message_start" =>
    some (.messageStart (((event.get "message").bind (·.get "usage")).bind (·.nat? "input_tokens")))
  | some "content_block_start" =>
      do return .blockStart (← event.nat? "index")
           (← ContentBlock.ofJson (← event.get "content_block"))
  | some "content_block_delta" => match (event.get "delta").bind (·.str? "type") with
    | some "text_delta" =>
        do return .textDelta (← event.nat? "index") (← (← event.get "delta").str? "text")
    | some "input_json_delta" =>
        do return .inputJsonDelta (← event.nat? "index")
             (← (← event.get "delta").str? "partial_json")
    | _ => some .other
  | some "content_block_stop" => do return .blockStop (← event.nat? "index")
  | some "message_delta" =>
    some (.messageDelta ((event.get "delta").bind (·.str? "stop_reason"))
      ((event.get "usage").bind (·.nat? "output_tokens")))
  | _ => if event = .null then none else some .other

/-- The accumulators; the arrays are indexed by block and may have holes. -/
structure StreamState where
  blocks : List (Option ContentBlock)
  partialJson : List (Option String)
  stopReason : Option String
  inputTokens : Nat
  outputTokens : Nat
  tokens : List String

/-- `xs[i] = a`. -/
def assign {A : Type} (xs : List (Option A)) (i : Nat) (a : A) : List (Option A) :=
  if i < xs.length then xs.set i (some a) else xs ++ List.replicate (i - xs.length) none ++ [some a]

/-- `xs[i]`. -/
def at? {A : Type} (xs : List (Option A)) (i : Nat) : Option A := (xs[i]?).join

namespace StreamState

def init : StreamState := ⟨[], [], none, 0, 0, []⟩

/-- The input of a tool, where the parts of its text have come; what is no JSON is taken for `{}`.
-/
def inputOf (text : String) : Json := (parseJson numeral text.toList).getD (.obj [])

def onEvent (s : StreamState) : StreamEvent → Except String StreamState
  | .messageStart inputTokens => .ok { s with inputTokens := inputTokens.getD 0 }
  | .blockStart i block =>
      .ok { s with blocks := assign s.blocks i block, partialJson := assign s.partialJson i "" }
  | .textDelta i text => match at? s.blocks i with
    | none => .error notTyped
    | some b => .ok { s with
        blocks := assign s.blocks i { b with text := some (b.text.getD "" ++ text) }, tokens :=
          s.tokens ++ [text] }
  | .inputJsonDelta i part =>
    .ok { s with
      partialJson := assign s.partialJson i ((at? s.partialJson i).getD "undefined" ++ part) }
  | .blockStop i => match at? s.blocks i, at? s.partialJson i with
    | some b, some pj =>
      if b.type = "tool_use" ∧ pj ≠ "" then
        .ok { s with blocks := assign s.blocks i { b with input := some (inputOf numeral pj) } }
      else .ok s
    | _, _ => .ok s
  | .messageDelta stopReason outputTokens =>
    .ok { s with
      stopReason := stopReason.or s.stopReason, outputTokens := outputTokens.getD s.outputTokens }
  | .other => .ok s

/-- One frame: its first data line, if it is JSON. -/
def onFrame (s : StreamState) (frame : List Char) : Except String StreamState :=
  match (frame.splitOn '\n').find? (fun l => dataTag.isPrefixOf l) with
  | none => .ok s
  | some dataLine => match parseJson numeral (dataLine.drop 5) with
    | none => .ok s
    | some event => match StreamEvent.ofJson event with
      | none => .error notTyped
      | some e => s.onEvent numeral e

end StreamState

def readChunks (d : TextDecoder) : d.State → List Char → List (List UInt8) → StreamState →
    Except String StreamState
  | _, _, [], s => .ok s
  | st, buffer, chunk :: chunks, s => do
    let frames := Framing.splitPairs '\n' (buffer ++ (d.decode st chunk).1)
    let s ← frames.dropLast.foldlM (StreamState.onFrame numeral) s
    readChunks d (d.decode st chunk).2 (frames.getLast?.getD []) chunks s

/-- What is returned, and what has been passed to `onToken`. -/
def stream (d : TextDecoder) (res : HttpResponse) : Except String (LlmResponse × List String) :=
  match res.body with
  | none => .error (res.failure "anthropic stream: ")
  | some chunks =>
    if res.ok = false then .error (res.failure "anthropic stream: ")
    else do
      let s ← readChunks numeral d d.init [] chunks .init
      match fromAnthropicContent (s.blocks.filterMap id) with
      | some content =>
          return (⟨content, mapStopReason s.stopReason, ⟨s.inputTokens, s.outputTokens⟩⟩, s.tokens)
      | none => throw notTyped

end Anthropic

end ZenZip
