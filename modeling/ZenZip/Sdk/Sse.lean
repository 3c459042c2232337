import ZenZip.Lib.JsonLines

namespace ZenZip

open Lib JsonText

/-- `body.split(/\r?\n/)`. -/
def splitLines : List Char → List (List Char)
  | '\r' :: '\n' :: cs => [] :: splitLines cs
  | '\n' :: cs => [] :: splitLines cs
  | c :: cs => (splitLines cs).modifyHead (c :: ·)
  | [] => [[]]

def dataTag : List Char := ['d', 'a', 't', 'a', ':']

def firstSseMessage (body : List Char) : Option JsonValue :=
  parse ((((splitLines body).filter (fun l => dataTag.isPrefixOf l)).map
    (fun l => trim (l.drop 5))).flatten)

/-- The lines of an event stream and what follows the last line end. -/
def streamLines : List Char → List (List Char) × List Char
  | '\r' :: '\n' :: cs => ([] :: (streamLines cs).1, (streamLines cs).2)
  | '\r' :: cs => ([] :: (streamLines cs).1, (streamLines cs).2)
  | '\n' :: cs => ([] :: (streamLines cs).1, (streamLines cs).2)
  | c :: cs => match streamLines cs with
    | ([], last) => ([], c :: last)
    | (l :: ls, last) => ((c :: l) :: ls, last)
  | [] => ([], [])

/-- Every carriage return is the first half of a line end. -/
def noLoneReturn : List Char → Bool
  | '\r' :: '\n' :: cs => noLoneReturn cs
  | '\r' :: _ => false
  | _ :: cs => noLoneReturn cs
  | [] => true

/-- The value of a field; a space after the colon is no part of it. -/
def fieldValue : List Char → List Char
  | ':' :: ' ' :: v => v
  | ':' :: v => v
  | _ => []

/-- The value of a line of the field `data`. -/
def dataValue (line : List Char) : Option (List Char) :=
  if line.takeWhile (· ≠ ':') = ['d', 'a', 't', 'a'] then some (fieldValue (line.drop 4)) else none

/-- The data lines of each event, and those that no blank line has followed yet. -/
def streamEvents : List (List Char) → List (List Char) → List (List (List Char)) × List (List Char)
  | pending, [] => ([], pending)
  | pending, [] :: ls =>
    if pending = [] then streamEvents [] ls
      else (pending :: (streamEvents [] ls).1, (streamEvents [] ls).2)
  | pending, l :: ls => streamEvents (pending ++ (dataValue l).toList) ls

def eventData (values : List (List Char)) : List Char := ['\n'].intercalate values

/-- The body is the events, each ended by a blank line, and each is an object of JSON. -/
structure Streams (body : List Char) (events : List (List (List Char))) : Prop where
  returns : noLoneReturn body = true
  ended : (streamLines body).2 = []
  decoded : streamEvents [] (streamLines body).1 = (events, [])
  messages : ∀ e ∈ events, ∃ fs, parse (eventData e) = some (.object fs)

section Lines

variable {body line : List Char}

theorem splitLines_cons {c : Char} (hcr : c ≠ '\r') (hlf : c ≠ '\n') (cs : List Char) :
    splitLines (c :: cs) = (splitLines cs).modifyHead (c :: ·) := by
  rw [splitLines]
  · exact fun cs' h => absurd h hcr
  · exact fun h => absurd h hlf

theorem splitLines_eq (h : noLoneReturn body = true) :
    splitLines body = (streamLines body).1 ++ [(streamLines body).2] := by
  fun_induction noLoneReturn body with
  | case1 cs ih =>
      rw [splitLines, streamLines, ih h]
      rfl
  | case2 cs hlf => cases h
  | case3 c cs hcrlf hcr ih =>
      by_cases hlf : c = '\n'
      · subst hlf
        rw [splitLines, streamLines, ih h]
        rfl
      · have hstream : streamLines (c :: cs) = match streamLines cs with
            | ([], last) => ([], c :: last)
            | (l :: ls, last) => ((c :: l) :: ls, last) := by
          rw [streamLines]
          · exact fun cs' h => absurd h hcr
          · exact hcr
          · exact fun h => absurd h hlf
        rw [splitLines_cons hcr hlf, ih h, hstream]
        cases streamLines cs with
        | mk ls last => cases ls <;> rfl
  | case4 => rfl

/-- What a line adds to the text that is parsed. -/
def lineText (l : List Char) : List Char := if dataTag.isPrefixOf l then trim (l.drop 5) else []

theorem firstSseMessage_eq (body : List Char) :
    firstSseMessage body = parse ((splitLines body).flatMap lineText) := by
  have hlines (ls : List (List Char)) :
      ((ls.filter (fun l => dataTag.isPrefixOf l)).map (fun l => trim (l.drop 5))).flatten =
        ls.flatMap lineText := by
    induction ls with
    | nil => rfl
    | cons l ls ih =>
        rw [List.flatMap_cons, lineText]
        by_cases hl : dataTag.isPrefixOf l = true
        · rw [List.filter_cons_of_pos hl, List.map_cons, List.flatten_cons, ih, if_pos hl]
        · rw [List.filter_cons_of_neg hl, ih, if_neg hl]
          rfl
  rw [firstSseMessage, hlines]

theorem trim_fieldValue (v : List Char) : trim (fieldValue (':' :: v)) = trim v := by
  cases v with
  | nil => rfl
  | cons c v =>
      by_cases hc : c = ' '
      · subst hc
        exact (trim_cons rfl).symm
      · rw [fieldValue.eq_2 _ (fun v' h => hc (List.cons.inj h).1)]

theorem dataValue_tag (v : List Char) :
    dataValue (dataTag ++ v) = some (fieldValue (':' :: v)) := by
  have hname : (dataTag ++ v).takeWhile (· ≠ ':') = ['d', 'a', 't', 'a'] := rfl
  rw [dataValue, if_pos hname]
  rfl

theorem dataValue_untagged (h : dataTag.isPrefixOf line ≠ true) :
    dataValue line = none ∨ dataValue line = some [] := by
  rw [dataValue]
  split
  · next hname =>
      right
      have hline : ['d', 'a', 't', 'a'] ++ line.dropWhile (· ≠ ':') = line := by
        rw [← hname]
        exact List.takeWhile_append_dropWhile
      cases hdrop : line.dropWhile (· ≠ ':') with
      | nil =>
          rw [hdrop] at hline
          rw [← hline]
          rfl
      | cons c v =>
          have hcolon : c = ':' := by
            have hhead := List.head?_dropWhile_not (fun c => decide (c ≠ ':')) line
            rw [hdrop] at hhead
            simpa using hhead
          rw [hdrop, hcolon] at hline
          exact absurd (List.isPrefixOf_iff_prefix.mpr ⟨v, hline⟩) h
  · exact .inl rfl

theorem lineText_eq (line : List Char) : lineText line = (dataValue line).toList.flatMap trim := by
  by_cases htag : dataTag.isPrefixOf line = true
  · obtain ⟨v, rfl⟩ := List.isPrefixOf_iff_prefix.mp htag
    rw [lineText, if_pos htag, dataValue_tag]
    show trim v = trim (fieldValue (':' :: v)) ++ []
    rw [trim_fieldValue, List.append_nil]
  · rw [lineText, if_neg htag]
    rcases dataValue_untagged htag with hnone | hnone
    · rw [hnone]
      rfl
    · rw [hnone]
      rfl

theorem flatMap_streamEvents {pending rest : List (List Char)} {lines : List (List Char)}
    {events : List (List (List Char))}
    (h : streamEvents pending lines = (events, rest)) :
    pending.flatMap trim ++ lines.flatMap lineText = events.flatten.flatMap trim ++
      rest.flatMap trim := by
  induction lines generalizing pending events with
  | nil =>
      cases h
      exact List.append_nil _
  | cons l lines ih =>
      cases l with
      | nil =>
          rw [streamEvents] at h
          split at h
          · next hnil =>
              rw [hnil]
              exact ih h
          · cases h
            have hrest := @ih [] _ rfl
            rw [List.flatten_cons, List.flatMap_append, List.append_assoc, ← hrest]
            rfl
      | cons c l =>
          have hrest := @ih (pending ++ (dataValue (c :: l)).toList) _ h
          rw [List.flatMap_append, ← lineText_eq] at hrest
          rw [List.flatMap_cons, ← List.append_assoc, hrest]

end Lines

namespace Streams

variable {body : List Char} {event : List (List Char)} {events : List (List (List Char))}

theorem firstSseMessage_eq (h : Streams body events) :
    firstSseMessage body = parse (events.flatten.flatMap trim) := by
  have hlines := flatMap_streamEvents h.decoded
  have hlast : lineText [] = [] := rfl
  rw [List.flatMap_nil, List.nil_append, List.append_nil] at hlines
  rw [ZenZip.firstSseMessage_eq, splitLines_eq h.returns, h.ended, List.flatMap_append, hlines,
    List.flatMap_singleton, hlast,
    List.append_nil]

theorem opens (h : ∀ e ∈ events, ∃ fs, parse (eventData e) = some (.object fs)) :
    events = [] ∨ ∃ text, skip (events.flatten.flatMap trim) = '\x7b' :: text := by
  induction events with
  | nil => exact .inl rfl
  | cons e es ih =>
      obtain ⟨fs, hfs⟩ := h e List.mem_cons_self
      have hz : Settled (es.flatten.flatMap trim) := by
        rcases ih (fun e' he => h e' (List.mem_cons_of_mem e he)) with rfl | ⟨text, htext⟩
        · exact settled_of_skip_eq_nil rfl
        · exact settled_of_skip htext rfl rfl
      obtain ⟨rest, hreads, -⟩ := reads_trimmed hfs hz
      right
      rw [List.flatten_cons, List.flatMap_append]
      exact hreads.skip_object

/-- The message of the first event is returned if and only if there is no other. -/
theorem firstSseMessage_iff (h : Streams body (event :: events)) :
    firstSseMessage body = parse (eventData event) ↔ events = [] := by
  obtain ⟨fs, hfs⟩ := h.messages event List.mem_cons_self
  rw [h.firstSseMessage_eq, List.flatten_cons, List.flatMap_append, hfs]
  rcases opens (fun e he => h.messages e (List.mem_cons_of_mem event he)) with rfl | ⟨text, htext⟩
  · rw [List.flatten_nil, List.flatMap_nil, List.append_nil]
    exact iff_of_true (parse_trimmed hfs) rfl
  · have hne : skip (events.flatten.flatMap trim) ≠ [] := by
      rw [htext]
      exact List.cons_ne_nil _ _
    refine iff_of_false ?_ ?_
    · rw [parse_trimmed_append hfs (settled_of_skip htext rfl rfl) hne]
      exact fun h => by cases h
    · rintro rfl
      exact hne rfl

section Samples

def isObject : Option JsonValue → Bool
  | some (.object _) => true
  | _ => false

theorem exists_fields {o : Option JsonValue} (h : isObject o = true) :
    ∃ fs, o = some (.object fs) := by
  rcases o with - | v
  · cases h
  · cases v with
    | object fs => exact ⟨fs, rfl⟩
    | null | bool | number | string | array => cases h

def notification : List Char :=
  "\x7b\"jsonrpc\":\"2.0\",\"method\":\"notifications/message\"\x7d".toList

def reply : List Char := "\x7b\"jsonrpc\":\"2.0\",\"id\":1,\"result\":\x7b\x7d\x7d".toList

def replyStream : List Char := "event: message\r\ndata: ".toList ++ reply ++ "\r\n\r\n".toList

/-- The server sends a notification before its reply. -/
def noticeStream : List Char := "event: message\ndata: ".toList ++ notification ++ "\n\n".toList ++
  "event: message\ndata: ".toList ++ reply ++ "\n\n".toList

theorem streams_reply : Streams replyStream [[reply]] where
  returns := by decide +kernel
  ended := by decide +kernel
  decoded := by decide +kernel
  messages e he := by
    rw [List.mem_singleton.mp he]
    exact exists_fields (by decide +kernel)

theorem streams_notice : Streams noticeStream [[notification], [reply]] where
  returns := by decide +kernel
  ended := by decide +kernel
  decoded := by decide +kernel
  messages e he := by
    rcases List.mem_cons.mp he with rfl | he
    · exact exists_fields (by decide +kernel)
    · rw [List.mem_singleton.mp he]
      exact exists_fields (by decide +kernel)

theorem firstSseMessage_reply : firstSseMessage replyStream = parse (eventData [reply]) :=
  streams_reply.firstSseMessage_iff.mpr rfl

/-- Two messages one after the other are no text of JSON. -/
theorem firstSseMessage_notice : Streams noticeStream [[notification], [reply]] ∧
    firstSseMessage noticeStream = none ∧
    firstSseMessage noticeStream ≠ parse (eventData [notification]) := by
  have hnone : firstSseMessage noticeStream = none := by decide +kernel
  refine ⟨streams_notice, hnone, ?_⟩
  obtain ⟨fs, hfs⟩ := streams_notice.messages [notification] List.mem_cons_self
  rw [hnone, hfs]
  exact fun h => by cases h

end Samples

end Streams

end ZenZip
