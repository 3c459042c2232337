import ZenZip.Sdk.Anthropic
import ZenZip.Lib.JsonInteger

namespace ZenZip.Anthropic

open Lib JsonText

inductive Block
  | text (text : String)
  | toolUse (id name : String) (input : Json)

structure Message where
  content : List Block
  stopReason : Option String
  inputTokens : Nat
  outputTokens : Nat

namespace Block

def llm : Block → LlmContent
  | .text s => .text s
  | .toolUse id name input => .toolUse id name input

def words : Block → String
  | .text s => s
  | .toolUse _ _ _ => ""

def Is (b : Block) (c : ContentBlock) : Prop :=
  match b with
  | .text s => c.type = "text" ∧ c.text = some s
  | .toolUse id name input =>
      c.type = "tool_use" ∧ c.id = some id ∧ c.name = some name ∧ c.input = some input

end Block

namespace Message

def response (m : Message) : LlmResponse :=
  ⟨m.content.map Block.llm, mapStopReason m.stopReason, ⟨m.inputTokens, m.outputTokens⟩⟩

structure IsBody (m : Message) (data : Json) : Prop where
  content : ∃ items, data.items? "content" = some items ∧
    List.Forall₂ (fun b j => ∃ c, ContentBlock.ofJson j = some c ∧ b.Is c) m.content items
  stopReason : data.str? "stop_reason" = m.stopReason
  usage : ∃ usage, data.get "usage" = some usage ∧ usage.nat? "input_tokens" = some m.inputTokens ∧
    usage.nat? "output_tokens" = some m.outputTokens

end Message

variable (numeral : List Char → Json)

/-- The events of one block: a start without content, the content cut into deltas, and a stop. -/
def Block.EncodedBy (i : Nat) (es : List StreamEvent) : Block → Prop
  | .text s => ∃ start parts, start.type = "text" ∧ start.text = some "" ∧ String.join parts = s ∧
      es = .blockStart i start :: (parts.map (.textDelta i) ++ [.blockStop i])
  | .toolUse id name input =>
      ∃ start parts, start.type = "tool_use" ∧ start.id = some id ∧ start.name = some name ∧
      (parseJson numeral (String.join parts).toList = some input ∨ String.join parts = "" ∧
        start.input = some input) ∧
      es = .blockStart i start :: (parts.map (.inputJsonDelta i) ++ [.blockStop i])

inductive BlocksEncodedBy : Nat → List StreamEvent → List Block → Prop
  | nil (i : Nat) : BlocksEncodedBy i [] []
  | cons {i : Nat} {b : Block} {bs : List Block} {es es' : List StreamEvent}
    (h : b.EncodedBy numeral i es)
      (hs : BlocksEncodedBy (i + 1) es' bs) : BlocksEncodedBy i (es ++ es') (b :: bs)

/-- The events of a message, pings and the like left out. -/
def Message.EncodedBy (m : Message) (es : List StreamEvent) : Prop :=
  ∃ blocks, BlocksEncodedBy numeral 0 blocks m.content ∧
    es.filter (fun e => e ≠ .other) =
      .messageStart (some m.inputTokens) ::
        (blocks ++ [.messageDelta m.stopReason (some m.outputTokens)])

/-- The lines of a frame up to the blank one. -/
structure Frame where
  lines : List (List Char)
  solid : ∀ l ∈ lines, l ≠ [] ∧ '\n' ∉ l

namespace Frame

def text (f : Frame) : List Char := ['\n'].intercalate f.lines ++ ['\n', '\n']

def values (f : Frame) : List (List Char) := f.lines.filterMap dataValue

end Frame

/-- The events that frames carry; a comment carries none. -/
inductive Carried : List Frame → List StreamEvent → Prop
  | nil : Carried [] []
  | comment {f : Frame} {fs : List Frame} {es : List StreamEvent} (h : f.values = [])
    (hs : Carried fs es) : Carried (f :: fs) es
  | event {f : Frame} {fs : List Frame} {v : List Char} {j : Json} {e : StreamEvent}
    {es : List StreamEvent} (h : f.values = [v])
      (hj : parseJson numeral v = some j) (he : StreamEvent.ofJson j = some e)
        (hs : Carried fs es) : Carried (f :: fs) (e :: es)

structure Answers (m : Message) (res : HttpResponse) : Prop where
  ok : res.ok = true
  body : ∃ data, parseJson numeral res.text = some data ∧ m.IsBody data

/-- An answer whose bytes are the message as a stream of events, in any chunks. -/
structure Streamed (d : TextDecoder) (m : Message) (res : HttpResponse) : Prop where
  ok : res.ok = true
  body : ∃ chunks frames es, res.body = some chunks ∧
    d.text chunks.flatten = frames.flatMap Frame.text ∧
    Carried numeral frames es ∧ m.EncodedBy numeral es

section Complete

theorem fromAnthropicContent_eq {bs : List Block} {cs : List ContentBlock}
    (h : List.Forall₂ Block.Is bs cs) :
    fromAnthropicContent cs = some (bs.map Block.llm) := by
  induction h with
  | nil => rfl
  | @cons b c bs cs hb hs ih =>
      rw [fromAnthropicContent, ih]
      cases b with
      | text text =>
          obtain ⟨htype, htext⟩ := hb
          simp [htype, htext, Block.llm]
      | toolUse id name input =>
          obtain ⟨htype, hid, hname, hinput⟩ := hb
          simp [htype, hid, hname, hinput, Block.llm]

theorem mapM_ofJson {bs : List Block} {items : List Json}
    (h : List.Forall₂ (fun b j => ∃ c, ContentBlock.ofJson j = some c ∧ Block.Is b c) bs items) :
    ∃ cs, items.mapM ContentBlock.ofJson = some cs ∧ List.Forall₂ Block.Is bs cs := by
  induction h with
  | nil => exact ⟨[], rfl, .nil⟩
  | @cons b j bs items hb hs ih =>
      obtain ⟨c, hc, his⟩ := hb
      obtain ⟨cs, hcs, hall⟩ := ih
      exact ⟨c :: cs, by simp [hc, hcs], .cons his hall⟩

theorem complete_eq {m : Message} {res : HttpResponse} (h : Answers numeral m res) :
    complete numeral res = .ok m.response := by
  obtain ⟨data, hparse, hbody⟩ := h.body
  obtain ⟨items, hitems, hall⟩ := hbody.content
  obtain ⟨usage, husage, hinput, houtput⟩ := hbody.usage
  obtain ⟨cs, hcs, his⟩ := mapM_ofJson hall
  have hof : ofBody data = some m.response := by
    simp [ofBody, hitems, hcs, fromAnthropicContent_eq his, husage, hinput, houtput,
      hbody.stopReason, Message.response]
  simp only [complete, h.ok, hparse, hof]
  rfl

end Complete

section Frames

variable {f : Frame} {v : List Char} {j : Json}

theorem parseJson_space (h : parseJson numeral v = some j) :
    parseJson numeral (' ' :: v) = some j := by
  obtain ⟨value, hv, hj⟩ := Option.map_eq_some_iff.mp h
  obtain ⟨rest, hreads, hrest⟩ := parse_eq_some.mp hv
  have hspace : parse (' ' :: v) = some value := parse_eq_some.mpr ⟨rest, hreads.of_skip rfl, hrest⟩
  rw [parseJson, hspace]
  exact congrArg some hj

theorem parseJson_fieldValue (h : parseJson numeral (fieldValue (':' :: v)) = some j) :
    parseJson numeral v = some j := by
  cases v with
  | nil => exact h
  | cons c v =>
      by_cases hc : c = ' '
      · subst hc
        exact parseJson_space numeral h
      · rw [fieldValue.eq_2 _ (fun v' h => hc (List.cons.inj h).1)] at h
        exact h

theorem find?_lines (f : Frame) : ((['\n'].intercalate f.lines).splitOn '\n').find?
    (fun l => dataTag.isPrefixOf l) =
    f.lines.find? (fun l => dataTag.isPrefixOf l) := by
  by_cases hnil : f.lines = []
  · rw [hnil]
    rfl
  · rw [List.splitOn_intercalate '\n' (fun l hl => (f.solid l hl).2) hnil]

theorem exists_dataLine (h : f.values = [v]) (hj : parseJson numeral v = some j) :
    ∃ l, f.lines.find? (fun l => dataTag.isPrefixOf l) = some l ∧
      parseJson numeral (l.drop 5) = some j := by
  cases hfind : f.lines.find? (fun l => dataTag.isPrefixOf l) with
  | none =>
      obtain ⟨l, hl, hv⟩ :=
        List.mem_filterMap.mp (show v ∈ f.values by rw [h]; exact List.mem_singleton_self v)
      have htag := List.find?_eq_none.mp hfind l hl
      rcases dataValue_untagged htag with hnone | hnone
      · rw [hnone] at hv
        cases hv
      · rw [hnone] at hv
        cases hv
        cases hj
  | some l =>
      have hmem := List.mem_of_find?_eq_some hfind
      obtain ⟨w, rfl⟩ := List.isPrefixOf_iff_prefix.mp (List.find?_some hfind)
      have hvalue : fieldValue (':' :: w) ∈ f.values :=
        List.mem_filterMap.mpr ⟨_, hmem, dataValue_tag w⟩
      rw [h, List.mem_singleton] at hvalue
      rw [← hvalue] at hj
      exact ⟨_, rfl, parseJson_fieldValue numeral hj⟩

theorem onFrame_event {e : StreamEvent} (s : StreamState) (h : f.values = [v])
    (hj : parseJson numeral v = some j)
    (he : StreamEvent.ofJson j = some e) :
    s.onFrame numeral (['\n'].intercalate f.lines) = s.onEvent numeral e := by
  obtain ⟨l, hfind, hl⟩ := exists_dataLine numeral h hj
  simp only [StreamState.onFrame, find?_lines, hfind, hl, he]

theorem onFrame_comment (s : StreamState) (h : f.values = []) :
    s.onFrame numeral (['\n'].intercalate f.lines) = .ok s := by
  have hnone : f.lines.find? (fun l => dataTag.isPrefixOf l) = none := by
    refine List.find?_eq_none.mpr (fun l hl htag => ?_)
    obtain ⟨w, rfl⟩ := List.isPrefixOf_iff_prefix.mp htag
    exact absurd (dataValue_tag w)
      (by rw [List.filterMap_eq_nil_iff.mp h _ hl]; exact fun h => by cases h)
  simp only [StreamState.onFrame, find?_lines, hnone]

theorem foldlM_frames {frames : List Frame} {es : List StreamEvent} (h : Carried numeral frames es)
    (s : StreamState) :
    (frames.map (fun f => ['\n'].intercalate f.lines)).foldlM (StreamState.onFrame numeral) s =
      es.foldlM (StreamState.onEvent numeral) s := by
  induction h generalizing s with
  | nil => rfl
  | comment h hs ih =>
      rw [List.map_cons, List.foldlM_cons, onFrame_comment numeral s h]
      exact ih s
  | event h hj he hs ih =>
      rw [List.map_cons, List.foldlM_cons, List.foldlM_cons, onFrame_event numeral s h hj he]
      cases s.onEvent numeral _ with
      | error e => rfl
      | ok s => exact ih s

theorem splitPairs_frames (frames : List Frame) :
    Framing.splitPairs '\n' (frames.flatMap Frame.text) =
    frames.map (fun f => ['\n'].intercalate f.lines) ++ [[]] := by
  induction frames with
  | nil => rfl
  | cons f frames ih =>
      rw [List.flatMap_cons, Frame.text, List.append_assoc]
      show Framing.splitPairs '\n'
        (['\n'].intercalate f.lines ++ '\n' :: '\n' :: frames.flatMap Frame.text) = _
      rw [Framing.splitPairs_lines f.solid, ih]
      rfl

end Frames

section Chunks

def decodeEach {S : Type} (decode : S → List UInt8 → List Char × S) :
    S → List (List UInt8) → List (List Char)
  | _, [] => []
  | s, c :: cs => (decode s c).1 :: decodeEach decode (decode s c).2 cs

theorem flatten_decodeEach {S : Type} (decode : S → List UInt8 → List Char × S) (s : S)
    (chunks : List (List UInt8)) :
    (decodeEach decode s chunks).flatten = decodeAll decode s chunks := by
  induction chunks generalizing s with
  | nil => rfl
  | cons c cs ih => rw [decodeEach, List.flatten_cons, ih, decodeAll]

theorem readChunks_feed (d : TextDecoder) (st : d.State) (buffer : List Char)
    (chunks : List (List UInt8)) (s : StreamState) :
    readChunks numeral d st buffer chunks s =
      (Framing.feed '\n' buffer (decodeEach d.decode st chunks)).1.foldlM
        (StreamState.onFrame numeral) s := by
  induction chunks generalizing st buffer s with
  | nil => rfl
  | cons chunk chunks ih =>
      rw [readChunks, decodeEach, Framing.feed, List.foldlM_append]
      exact bind_congr (fun s => ih _ _ s)

theorem readChunks_eq (d : TextDecoder) (chunks : List (List UInt8)) (s : StreamState) :
    readChunks numeral d d.init [] chunks s =
      (Framing.splitPairs '\n' (d.text chunks.flatten)).dropLast.foldlM
        (StreamState.onFrame numeral) s := by
  rw [readChunks_feed, Framing.feed_eq rfl, flatten_decodeEach, d.decodes, List.nil_append]

end Chunks

section Events

variable {s : StreamState} {b : Block} {c : ContentBlock} {es : List StreamEvent}

theorem foldlM_filter (es : List StreamEvent) (s : StreamState) :
    es.foldlM (StreamState.onEvent numeral) s = (es.filter (fun e => e ≠ .other)).foldlM
      (StreamState.onEvent numeral) s := by
  induction es generalizing s with
  | nil => rfl
  | cons e es ih =>
      by_cases he : e = .other
      · subst he
        rw [List.filter_cons_of_neg (by decide), ← ih]
        rfl
      · rw [List.filter_cons_of_pos (by simpa using he), List.foldlM_cons, List.foldlM_cons]
        exact bind_congr (fun s => ih s)

theorem assign_append {A : Type} (xs : List (Option A)) (x : Option A) (a : A) :
    assign (xs ++ [x]) xs.length a = xs ++ [some a] := by
  rw [assign, if_pos (by simp), List.set_append_right _ _ (Nat.le_refl _), Nat.sub_self]
  rfl

theorem assign_length {A : Type} (xs : List (Option A)) (a : A) :
    assign xs xs.length a = xs ++ [some a] := by
  rw [assign, if_neg (Nat.lt_irrefl _), Nat.sub_self, List.replicate_zero, List.append_nil]

theorem at?_append {A : Type} (xs : List (Option A)) (x : Option A) :
    at? (xs ++ [x]) xs.length = x := by
  rw [at?, List.getElem?_concat_length]
  rfl

/-- One more block, its input so far, and what has been passed on of it. -/
def StreamState.opened (s : StreamState) (c : ContentBlock) (pj : String) (ts : List String) :
    StreamState :=
  { s with
    blocks := s.blocks ++ [some c], partialJson := s.partialJson ++ [some pj],
    tokens := s.tokens ++ ts }

structure StreamState.Reaches (s s' : StreamState) (bs : List Block) : Prop where
  blocks : ∃ cs, s'.blocks = s.blocks ++ cs.map some ∧ List.Forall₂ Block.Is bs cs
  tokens : ∃ ts, s'.tokens = s.tokens ++ ts ∧ String.join ts = String.join (bs.map Block.words)
  stopReason : s'.stopReason = s.stopReason
  inputTokens : s'.inputTokens = s.inputTokens

section Steps

variable (hs : s.partialJson.length = s.blocks.length)
include hs

theorem onEvent_blockStart (c : ContentBlock) :
    s.onEvent numeral (.blockStart s.blocks.length c) = .ok (s.opened c "" []) := by
  have hpartial := assign_length s.partialJson ""
  rw [hs] at hpartial
  rw [StreamState.onEvent, assign_length, hpartial, StreamState.opened, List.append_nil]

omit hs in
theorem onEvent_textDelta (c : ContentBlock) (pj : String) (ts : List String) (part : String) :
    (s.opened c pj ts).onEvent numeral (.textDelta s.blocks.length part) =
      .ok (s.opened { c with text := some (c.text.getD "" ++ part) } pj (ts ++ [part])) := by
  have hat : at? (s.opened c pj ts).blocks s.blocks.length = some c := at?_append _ _
  simp only [StreamState.onEvent, hat]
  simp only [StreamState.opened, assign_append, List.append_assoc]

theorem onEvent_inputJsonDelta (c : ContentBlock) (pj : String) (ts : List String) (part : String) :
    (s.opened c pj ts).onEvent numeral (.inputJsonDelta s.blocks.length part) = .ok
      (s.opened c (pj ++ part) ts) := by
  have hat : at? (s.opened c pj ts).partialJson s.blocks.length = some pj := by
    rw [← hs]
    exact at?_append _ _
  have hassign := assign_append s.partialJson (some pj) (pj ++ part)
  rw [hs] at hassign
  simp only [StreamState.onEvent, hat, Option.getD_some]
  simp only [StreamState.opened, hassign]

theorem onEvent_blockStop (c : ContentBlock) (pj : String) (ts : List String) :
    (s.opened c pj ts).onEvent numeral (.blockStop s.blocks.length) =
      .ok (s.opened (if c.type = "tool_use" ∧ pj ≠ "" then
        { c with input := some (StreamState.inputOf numeral pj) } else c) pj ts) := by
  have hblock : at? (s.opened c pj ts).blocks s.blocks.length = some c := at?_append _ _
  have hpartial : at? (s.opened c pj ts).partialJson s.blocks.length = some pj := by
    rw [← hs]
    exact at?_append _ _
  simp only [StreamState.onEvent, hblock, hpartial]
  split
  · simp only [StreamState.opened, assign_append]
  · rfl

omit hs in
theorem foldlM_textDelta (parts : List String) {t : String} (hc : c.text = some t) (pj : String)
    (ts : List String) :
    (parts.map (StreamEvent.textDelta s.blocks.length)).foldlM (StreamState.onEvent numeral)
      (s.opened c pj ts) =
      .ok (s.opened { c with text := some (t ++ String.join parts) } pj (ts ++ parts)) := by
  induction parts generalizing c t ts with
  | nil =>
      rw [String.join_nil, String.append_empty, List.append_nil, ← hc]
      rfl
  | cons part parts ih =>
      rw [List.map_cons, List.foldlM_cons, onEvent_textDelta]
      show List.foldlM (StreamState.onEvent numeral) (s.opened _ pj (ts ++ [part])) _ = _
      rw [ih rfl, hc, String.join_cons, Option.getD_some, String.append_assoc, List.append_assoc,
        List.singleton_append]

theorem foldlM_inputJsonDelta (parts : List String) (c : ContentBlock) (pj : String)
    (ts : List String) :
    (parts.map (StreamEvent.inputJsonDelta s.blocks.length)).foldlM (StreamState.onEvent numeral)
      (s.opened c pj ts) =
      .ok (s.opened c (pj ++ String.join parts) ts) := by
  induction parts generalizing pj with
  | nil =>
      rw [String.join_nil, String.append_empty]
      rfl
  | cons part parts ih =>
      rw [List.map_cons, List.foldlM_cons, onEvent_inputJsonDelta numeral hs]
      show List.foldlM (StreamState.onEvent numeral) (s.opened c (pj ++ part) ts) _ = _
      rw [ih, String.join_cons, String.append_assoc]

theorem foldlM_block (h : b.EncodedBy numeral s.blocks.length es) :
    ∃ c pj ts, b.Is c ∧ String.join ts = b.words ∧
    es.foldlM (StreamState.onEvent numeral) s = .ok (s.opened c pj ts) := by
  cases b with
  | text words =>
      obtain ⟨start, parts, htype, htext, hjoin, rfl⟩ := h
      refine ⟨{ start with text := some ("" ++ String.join parts) }, "", parts,
        ⟨htype, by rw [hjoin, String.empty_append]⟩, hjoin, ?_⟩
      rw [List.foldlM_cons, onEvent_blockStart numeral hs]
      show List.foldlM (StreamState.onEvent numeral) (s.opened start "" []) _ = _
      rw [List.foldlM_append, foldlM_textDelta numeral parts htext]
      show List.foldlM (StreamState.onEvent numeral) (s.opened _ "" ([] ++ parts)) [_] = _
      rw [List.foldlM_cons, onEvent_blockStop numeral hs, if_neg (by simp [htype])]
      rfl
  | toolUse id name input =>
      obtain ⟨start, parts, htype, hid, hname, hinput, rfl⟩ := h
      have hrun :
        (StreamEvent.blockStart s.blocks.length start ::
          (parts.map (.inputJsonDelta s.blocks.length) ++
          [.blockStop s.blocks.length])).foldlM (StreamState.onEvent numeral) s = .ok (s.opened
            (if start.type = "tool_use" ∧ String.join parts ≠ "" then
              { start with input := some (StreamState.inputOf numeral (String.join parts)) }
                else start) (String.join parts) []) := by
        rw [List.foldlM_cons, onEvent_blockStart numeral hs]
        show List.foldlM (StreamState.onEvent numeral) (s.opened start "" []) _ = _
        rw [List.foldlM_append, foldlM_inputJsonDelta numeral hs, String.empty_append]
        show List.foldlM (StreamState.onEvent numeral) (s.opened start (String.join parts) []) [_] =
          _
        rw [List.foldlM_cons, onEvent_blockStop numeral hs]
        rfl
      refine ⟨_, _, [], ?_, rfl, hrun⟩
      split
      · next hne =>
          refine ⟨htype, hid, hname, ?_⟩
          rcases hinput with hparse | ⟨hempty, -⟩
          · rw [StreamState.inputOf, hparse]
            rfl
          · exact absurd hempty hne.2
      · next heq =>
          have hempty : String.join parts = "" := by
            by_contra hne
            exact heq ⟨htype, hne⟩
          rcases hinput with hparse | ⟨-, hstart⟩
          · rw [hempty] at hparse
            cases hparse
          · exact ⟨htype, hid, hname, hstart⟩

end Steps

theorem foldlM_blocks {i : Nat} {bs : List Block} (h : BlocksEncodedBy numeral i es bs)
    (hi : i = s.blocks.length)
    (hs : s.partialJson.length = s.blocks.length) :
    ∃ s', es.foldlM (StreamState.onEvent numeral) s = .ok s' ∧ s.Reaches s' bs := by
  induction h generalizing s with
  | nil =>
      exact ⟨s, rfl, ⟨[], (List.append_nil _).symm, .nil⟩, ⟨[], (List.append_nil _).symm, rfl⟩,
        rfl, rfl⟩
  | @cons i b bs es es' h hbs ih =>
      subst hi
      obtain ⟨c, pj, ts, hc, hts, hrun⟩ := foldlM_block numeral hs h
      have hlength : s.blocks.length + 1 = (s.opened c pj ts).blocks.length := by
        simp [StreamState.opened]
      obtain ⟨s', hrun', hreach⟩ := ih hlength (by simp [StreamState.opened, hs])
      obtain ⟨cs, hblocks, hall⟩ := hreach.blocks
      obtain ⟨ts', htokens, hjoin⟩ := hreach.tokens
      refine ⟨s', ?_, ⟨c :: cs, ?_, .cons hc hall⟩, ⟨ts ++ ts', ?_, ?_⟩, hreach.stopReason,
        hreach.inputTokens⟩
      · rw [List.foldlM_append, hrun]
        exact hrun'
      · rw [hblocks, StreamState.opened, List.append_assoc]
        rfl
      · rw [htokens, StreamState.opened, List.append_assoc]
      · rw [String.join_append, hts, hjoin, List.map_cons, String.join_cons]

theorem foldlM_message {m : Message} (h : m.EncodedBy numeral es) :
    ∃ s', es.foldlM (StreamState.onEvent numeral) .init = .ok s' ∧
    fromAnthropicContent (s'.blocks.filterMap id) = some (m.content.map Block.llm) ∧
    s'.stopReason = m.stopReason ∧
    s'.inputTokens = m.inputTokens ∧ s'.outputTokens = m.outputTokens ∧
    String.join s'.tokens = String.join (m.content.map Block.words) := by
  obtain ⟨blocks, hblocks, hfilter⟩ := h
  obtain ⟨s', hrun, hreach⟩ :=
    foldlM_blocks numeral (s := { StreamState.init with inputTokens := m.inputTokens })
      hblocks rfl rfl
  obtain ⟨cs, hcs, hall⟩ := hreach.blocks
  obtain ⟨ts, hts, hjoin⟩ := hreach.tokens
  refine ⟨{ s' with stopReason := m.stopReason.or s'.stopReason, outputTokens := m.outputTokens },
    ?_, ?_, ?_, hreach.inputTokens, rfl, ?_⟩
  · rw [foldlM_filter, hfilter, List.foldlM_cons]
    show List.foldlM (StreamState.onEvent numeral)
      { StreamState.init with inputTokens := m.inputTokens } _ = _
    rw [List.foldlM_append, hrun]
    rfl
  · show fromAnthropicContent (s'.blocks.filterMap id) = _
    have hid : (cs.map some).filterMap id = cs := by
      rw [List.filterMap_map]
      exact List.filterMap_some
    rw [hcs]
    show fromAnthropicContent ((cs.map some).filterMap id) = _
    rw [hid, fromAnthropicContent_eq hall]
  · show m.stopReason.or s'.stopReason = _
    rw [hreach.stopReason]
    exact Option.or_none
  · show String.join s'.tokens = _
    rw [hts]
    exact hjoin

end Events

/-- Streaming a message returns what completing it returns, and passes the texts of its text blocks
on. -/
theorem stream_eq_complete {m : Message} {d : TextDecoder} {res res' : HttpResponse}
    (h : Answers numeral m res)
    (hs : Streamed numeral d m res') : ∃ tokens, complete numeral res = .ok m.response ∧
      stream numeral d res' = .ok (m.response, tokens) ∧ String.join tokens = String.join
        (m.content.map Block.words) := by
  obtain ⟨chunks, frames, es, hbody, htext, hcarried, hencoded⟩ := hs.body
  obtain ⟨s', hrun, hcontent, hstop, hinput, houtput, htokens⟩ := foldlM_message numeral hencoded
  refine ⟨s'.tokens, complete_eq numeral h, ?_, htokens⟩
  have hread : readChunks numeral d d.init [] chunks .init = .ok s' := by
    rw [readChunks_eq, htext, splitPairs_frames, List.dropLast_concat,
      foldlM_frames numeral hcarried, hrun]
  simp only [stream, hbody, hs.ok, hread]
  dsimp only [bind, Except.bind]
  rw [hcontent, hstop, hinput, houtput]
  rfl

section Sample

def Frame.event? (f : Frame) : Option StreamEvent :=
  match f.values with
  | [v] => (parseJson numeral v).bind StreamEvent.ofJson
  | _ => none

theorem carried_of_event? {fs : List Frame} {es : List StreamEvent}
    (h : fs.map (Frame.event? numeral) = es.map some) :
    Carried numeral fs es := by
  induction fs generalizing es with
  | nil =>
      cases es with
      | nil => exact .nil
      | cons e es => cases h
  | cons f fs ih =>
      cases es with
      | nil => cases h
      | cons e es =>
          obtain ⟨hf, hfs⟩ := List.cons.inj h
          rw [Frame.event?] at hf
          split at hf
          · next v hv =>
              obtain ⟨j, hj, he⟩ := Option.bind_eq_some_iff.mp hf
              exact .event hv hj he (ih hfs)
          · cases hf

def integral (text : List Char) : Json := .int ((numberValue text).getD 0)

def dataFrame (data : String) : Frame where
  lines := [dataTag ++ data.toList.filter (fun c => c ≠ '\n')]
  solid l hl := by
    rw [List.mem_singleton.mp hl]
    refine ⟨List.cons_ne_nil _ _, fun hmem => ?_⟩
    rcases List.mem_append.mp hmem with hmem | hmem
    · revert hmem
      decide
    · exact absurd (List.mem_filter.mp hmem).2 (by decide)

def greeting : Message :=
  ⟨[.text "h\u00e9", .toolUse "t1" "wave" (.obj [("n", .int 2)])], some "tool_use", 3, 5⟩

def greetingBody : String :=
  "\x7b\"content\":[\x7b\"type\":\"text\",\"text\":\"h\u00e9\"\x7d,\x7b\"type\":\"tool_use\",\"id\":\"t1\",\"name\":\"wave\",\"input\":\x7b\"n\":2\x7d\x7d]," ++
    "\"stop_reason\":\"tool_use\",\"usage\":\x7b\"input_tokens\":3,\"output_tokens\":5\x7d\x7d"

def greetingFrames : List Frame := [
  dataFrame "\x7b\"type\":\"message_start\",\"message\":\x7b\"usage\":\x7b\"input_tokens\":3\x7d\x7d\x7d",
  dataFrame "\x7b\"type\":\"content_block_start\",\"index\":0,\"content_block\":\x7b\"type\":\"text\",\"text\":\"\"\x7d\x7d",
  dataFrame "\x7b\"type\":\"ping\"\x7d",
  dataFrame "\x7b\"type\":\"content_block_delta\",\"index\":0,\"delta\":\x7b\"type\":\"text_delta\",\"text\":\"h\"\x7d\x7d",
  dataFrame "\x7b\"type\":\"content_block_delta\",\"index\":0,\"delta\":\x7b\"type\":\"text_delta\",\"text\":\"\u00e9\"\x7d\x7d",
  dataFrame "\x7b\"type\":\"content_block_stop\",\"index\":0\x7d",
  dataFrame "\x7b\"type\":\"content_block_start\",\"index\":1,\"content_block\":\x7b\"type\":\"tool_use\",\"id\":\"t1\",\"name\":\"wave\",\"input\":\x7b\x7d\x7d\x7d",
  dataFrame "\x7b\"type\":\"content_block_delta\",\"index\":1,\"delta\":\x7b\"type\":\"input_json_delta\",\"partial_json\":\"\x7b\\\"n\"\x7d\x7d",
  dataFrame "\x7b\"type\":\"content_block_delta\",\"index\":1,\"delta\":\x7b\"type\":\"input_json_delta\",\"partial_json\":\"\\\":2\x7d\"\x7d\x7d",
  dataFrame "\x7b\"type\":\"content_block_stop\",\"index\":1\x7d",
  dataFrame "\x7b\"type\":\"message_delta\",\"delta\":\x7b\"stop_reason\":\"tool_use\"\x7d,\"usage\":\x7b\"output_tokens\":5\x7d\x7d",
  dataFrame "\x7b\"type\":\"message_stop\"\x7d"]

def emptyText : ContentBlock := ⟨"text", some "", none, none, none⟩

def emptyTool : ContentBlock := ⟨"tool_use", none, some "t1", some "wave", some (.obj [])⟩

def textEvents : List StreamEvent :=
  .blockStart 0 emptyText :: (["h", "\u00e9"].map (.textDelta 0) ++ [.blockStop 0])

def toolEvents : List StreamEvent :=
  .blockStart 1 emptyTool :: (["\x7b\"n", "\":2\x7d"].map (.inputJsonDelta 1) ++ [.blockStop 1])

def greetingEvents : List StreamEvent :=
  [.messageStart (some 3), .blockStart 0 emptyText, .other, .textDelta 0 "h", .textDelta 0 "\u00e9",
    .blockStop 0] ++ toolEvents ++
    [.messageDelta (some "tool_use") (some 5), .other]

theorem greeting_encodedBy : greeting.EncodedBy integral greetingEvents := by
  refine ⟨textEvents ++ (toolEvents ++ []), .cons ?_ (.cons ?_ (.nil 2)), by decide⟩
  · exact ⟨emptyText, ["h", "\u00e9"], rfl, rfl, by decide, rfl⟩
  · exact ⟨emptyTool, ["\x7b\"n", "\":2\x7d"], rfl, rfl, rfl, .inl (by decide +kernel), rfl⟩

def textJson : Json := .obj [("type", .str "text"), ("text", .str "h\u00e9")]

def toolJson : Json :=
  .obj [("type", .str "tool_use"), ("id", .str "t1"), ("name", .str "wave"),
    ("input", .obj [("n", .int 2)])]

def greetingJson : Json :=
  .obj [("content", .arr [textJson, toolJson]), ("stop_reason", .str "tool_use"),
  ("usage", .obj [("input_tokens", .int 3), ("output_tokens", .int 5)])]

theorem greeting_answers : Answers integral greeting ⟨200, greetingBody.toList, none⟩ where
  ok := rfl
  body := ⟨greetingJson, by decide +kernel,
    ⟨[textJson, toolJson], rfl, .cons ⟨_, rfl, rfl, rfl⟩ (.cons ⟨_, rfl, rfl, rfl, rfl, rfl⟩ .nil)⟩,
      rfl, _, rfl, rfl, rfl⟩

/-- Every byte comes in a chunk of its own. -/
def greetingChunks : List (List UInt8) :=
  ((greetingFrames.flatMap Frame.text).flatMap Utf8State.encode).map (fun b => [b])

theorem greeting_streamed : Streamed integral utf8 greeting ⟨200, [], some greetingChunks⟩ where
  ok := rfl
  body := by
    refine ⟨greetingChunks, greetingFrames, greetingEvents, rfl, ?_,
      carried_of_event? integral (by decide +kernel), greeting_encodedBy⟩
    have hflat : greetingChunks.flatten =
      (greetingFrames.flatMap Frame.text).flatMap Utf8State.encode := by
      rw [greetingChunks, ← List.flatMap_def]
      exact List.flatMap_singleton' _
    rw [hflat, utf8_text]

theorem greeting_streams : ∃ tokens,
    complete integral ⟨200, greetingBody.toList, none⟩ = .ok greeting.response ∧
    stream integral utf8 ⟨200, [], some greetingChunks⟩ = .ok (greeting.response, tokens) ∧
      String.join tokens = String.join (greeting.content.map Block.words) :=
  stream_eq_complete integral greeting_answers greeting_streamed

end Sample

end ZenZip.Anthropic
