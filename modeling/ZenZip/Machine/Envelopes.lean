import ZenZip.Machine.Send
import ZenZip.Scheduler.Tables
import ZenZip.Lib.JsonCost
import ZenZip.Lib.JsonInteger

namespace ZenZip

open Lib JsonText

/-- What the binding `machine_send` returns. -/
def sendText (fromState toState : String) : String :=
  "\x7b\"from\":\"" ++ fromState ++ "\",\"to\":\"" ++ toState ++ "\"\x7d"

/-- The payload as `fire` writes it. -/
def fireText (name : String) (firedAt : Time) : String :=
  "\x7b\"schedule\":\"" ++ name ++ "\",\"firedAt\":" ++ firedAt.repr ++ "\x7d"

def ReadsTransition (text fromState toState : String) : Prop :=
  ∃ fs, parse text.toList = some (.object fs) ∧
  lookup "from".toList fs = some (.string fromState.toList) ∧
    lookup "to".toList fs = some (.string toState.toList)

def ReadsTick (text name : String) (firedAt : Time) : Prop :=
  ∃ fs, parse text.toList = some (.object fs) ∧
  lookup "schedule".toList fs = some (.string name.toList) ∧
  ∃ digits, lookup "firedAt".toList fs = some (.number digits) ∧ numberValue digits = some firedAt

def MachineDef.AnswersParse (d : MachineDef) : Prop :=
  ∀ state event toState, d.next state event = some toState →
    ReadsTransition (sendText state toState) state toState

def ScheduleDef.TickParses (d : ScheduleDef) (firedAt : Time) : Prop :=
  ReadsTick (fireText d.name firedAt) d.name firedAt

section Texts

variable {fromState toState name : String} {firedAt : Time}

theorem toList_pieces (a b c d e : String) :
    (a ++ b ++ c ++ d ++ e).toList = a.toList ++ b.toList ++ c.toList ++ d.toList ++ e.toList := by
  rw [String.toList_append, String.toList_append, String.toList_append, String.toList_append]

theorem toList_sendText (fromState toState : String) : (sendText fromState toState).toList =
    "\x7b\"from\":\"".toList ++ fromState.toList ++ "\",\"to\":\"".toList ++ toState.toList ++
      "\"\x7d".toList :=
  toList_pieces _ _ _ _ _

theorem toList_fireText (name : String) (firedAt : Time) : (fireText name firedAt).toList =
    "\x7b\"schedule\":\"".toList ++ name.toList ++ "\",\"firedAt\":".toList ++
      firedAt.repr.toList ++ "\x7d".toList :=
  toList_pieces _ _ _ _ _

theorem weight_sendText (fromState toState : String) :
    weight (sendText fromState toState).toList = weight fromState.toList + weight toState.toList +
      19 := by
  have hopen : weight "\x7b\"from\":\"".toList = 9 := by decide
  have hbetween : weight "\",\"to\":\"".toList = 8 := by decide
  have hclose : weight "\"\x7d".toList = 2 := by decide
  rw [toList_sendText, weight_append, weight_append, weight_append, weight_append, hopen,
    hbetween, hclose]
  omega

theorem weight_fireText (name : String) (firedAt : Time) :
    weight (fireText name firedAt).toList = weight name.toList + 23 := by
  have hopen : weight "\x7b\"schedule\":\"".toList = 11 := by decide
  have hbetween : weight "\",\"firedAt\":".toList = 11 := by decide
  have hclose : weight "\x7d".toList = 1 := by decide
  have hnumber : weight firedAt.repr.toList = 0 :=
    List.countP_eq_zero.mpr (fun c hc => by rw [isNumeral_of_mem_repr hc]; decide)
  rw [toList_fireText, weight_append, weight_append, weight_append, weight_append, hopen, hbetween,
    hclose, hnumber]
  omega

theorem reads_field {k cs₁ cs₂ cs₃ rest : List Char} {v : JsonValue}
    {fs : List (List Char × JsonValue)} (hk : Verbatim k)
    (hv : Reads (.value v) cs₁ cs₂) (hs : skip cs₂ = ',' :: cs₃)
    (hf : Reads (.fields fs) cs₃ rest) :
    Reads (.fields ((k, v) :: fs)) ('"' :: (k ++ '"' :: ':' :: cs₁)) rest :=
  .field (stringLiteral_of_verbatim hk _) rfl hv hs hf

theorem reads_lastField {k cs₁ cs₂ rest : List Char} {v : JsonValue} (hk : Verbatim k)
    (hv : Reads (.value v) cs₁ cs₂) (he : skip cs₂ = '\x7d' :: rest) :
    Reads (.fields [(k, v)]) ('"' :: (k ++ '"' :: ':' :: cs₁)) rest :=
  .lastField (stringLiteral_of_verbatim hk _) rfl hv he

theorem reads_string {s rest : List Char} (h : Verbatim s) :
    Reads (.value (.string s)) ('"' :: (s ++ '"' :: rest)) rest :=
  .string (stringLiteral_of_verbatim h rest)

theorem reads_integer (n : Int) {rest : List Char} (h : Ends rest) :
    Reads (.value (.number n.repr.toList)) (n.repr.toList ++ rest) rest := by
  have hnumber := number_repr n h
  obtain ⟨hne, hconsumed⟩ := number_consumed hnumber
  obtain ⟨c, cs, hcs⟩ := List.exists_cons_of_ne_nil hne
  have hc : isNumeral c = true := hconsumed.numeral c (by rw [hcs]; exact List.mem_cons_self)
  rw [hcs] at hnumber ⊢
  have hskip : skip (c :: (cs ++ rest)) = c :: (cs ++ rest) := by
    refine List.dropWhile_cons_of_neg (fun hw => ?_)
    have hspace := isSpace_of_isNumeral hc
    rw [isSpace_of_isWhitespace hw] at hspace
    cases hspace
  refine .literal ?_
  rw [List.cons_append] at hnumber ⊢
  rw [hskip, literal_eq_number hc, hnumber]
  rfl

theorem parse_sendText (hfrom : Verbatim fromState.toList) (hto : Verbatim toState.toList) :
    parse (sendText fromState toState).toList =
    some (.object [("from".toList, .string fromState.toList),
    ("to".toList, .string toState.toList)]) := by
  have htext : (sendText fromState toState).toList =
    '\x7b' :: '"' :: ("from".toList ++ '"' :: ':' :: '"' :: (fromState.toList ++ '"' ::
      ',' :: '"' :: ("to".toList ++ '"' :: ':' :: '"' :: (toState.toList ++ ['"', '\x7d'])))) := by
    rw [toList_sendText, List.append_assoc, List.append_assoc, List.append_assoc]
    rfl
  rw [htext]
  refine parse_eq_some.mpr ⟨[], .object rfl ?_, rfl⟩
  exact reads_field (by decide) (reads_string hfrom) rfl
    (reads_lastField (by decide) (reads_string hto) rfl)

theorem parse_fireText (hname : Verbatim name.toList) (firedAt : Time) :
    parse (fireText name firedAt).toList =
    some (.object [("schedule".toList, .string name.toList),
    ("firedAt".toList, .number (Int.repr firedAt).toList)]) := by
  have htext : (fireText name firedAt).toList =
    '\x7b' :: '"' :: ("schedule".toList ++ '"' :: ':' :: '"' :: (name.toList ++ '"' ::
      ',' :: '"' ::
        ("firedAt".toList ++ '"' :: ':' :: ((Int.repr firedAt).toList ++ ['\x7d'])))) := by
    rw [toList_fireText, List.append_assoc, List.append_assoc, List.append_assoc]
    rfl
  rw [htext]
  refine parse_eq_some.mpr ⟨[], .object rfl ?_, rfl⟩
  refine reads_field (by decide) (reads_string hname) rfl
    (reads_lastField (by decide) (reads_integer firedAt ?_) rfl)
  intro c hc
  cases hc
  rfl

theorem readsTransition_iff : ReadsTransition (sendText fromState toState) fromState toState ↔
    Verbatim fromState.toList ∧ Verbatim toState.toList := by
  constructor
  · rintro ⟨fs, hparse, hfrom, hto⟩
    have hne : ("from".toList, JsonValue.string fromState.toList) ≠
      ("to".toList, .string toState.toList) := by
      intro he
      exact absurd (show "from".toList = "to".toList from congrArg Prod.fst he) (by decide)
    have hcost := fieldCost_add_le hne (mem_of_lookup hfrom) (mem_of_lookup hto)
    have hweight := fieldsCost_of_parse hparse
    have hf : cost "from".toList = 4 := by decide
    have ht : cost "to".toList = 2 := by decide
    rw [weight_sendText] at hweight
    simp only [fieldCost, leafCost, hf, ht] at hcost
    rw [verbatim_iff_countP, verbatim_iff_countP]
    rw [cost, cost] at hcost
    omega
  · rintro ⟨hfrom, hto⟩
    exact ⟨_, parse_sendText hfrom hto, rfl, rfl⟩

theorem readsTick_iff : ReadsTick (fireText name firedAt) name firedAt ↔
    Verbatim name.toList ∧ nearestDouble firedAt = firedAt := by
  have hvalue : numberValue (Int.repr firedAt).toList = some (nearestDouble firedAt) := by
    rw [numberValue, integerValue_repr]
    rfl
  constructor
  · rintro ⟨fs, hparse, hname, digits, hdigits, hfired⟩
    have hverbatim : Verbatim name.toList := by
      have hne : ("schedule".toList, JsonValue.string name.toList) ≠
        ("firedAt".toList, .number digits) := by
        intro he
        exact absurd (show "schedule".toList = "firedAt".toList from congrArg Prod.fst he)
          (by decide)
      have hcost := fieldCost_add_le hne (mem_of_lookup hname) (mem_of_lookup hdigits)
      have hweight := fieldsCost_of_parse hparse
      have hs : cost "schedule".toList = 6 := by decide
      have hf : cost "firedAt".toList = 6 := by decide
      rw [weight_fireText] at hweight
      simp only [fieldCost, leafCost, hs, hf] at hcost
      rw [verbatim_iff_countP]
      rw [cost] at hcost
      omega
    rw [parse_fireText hverbatim] at hparse
    cases hparse
    obtain rfl : (Int.repr firedAt).toList = digits :=
      JsonValue.number.inj (Option.some.inj hdigits)
    rw [hvalue] at hfired
    exact ⟨hverbatim, Option.some.inj hfired⟩
  · rintro ⟨hname, hfired⟩
    exact ⟨_, parse_fireText hname firedAt, rfl, _, rfl, by rw [hvalue, hfired]⟩

/-- The transitions of a machine and the ticks of a schedule are read back exactly if no name has a
character to be escaped and the time is one that a double holds. -/
theorem envelopes_parse_iff (d : MachineDef) (s : ScheduleDef) (firedAt : Time) :
    (d.AnswersParse ↔ ∀ t ∈ d.transitions.rows, Verbatim t.state.toList ∧
    Verbatim t.toState.toList) ∧
      (s.TickParses firedAt ↔ Verbatim s.name.toList ∧ nearestDouble firedAt = firedAt) := by
  refine ⟨?_, readsTick_iff⟩
  constructor
  · intro h t ht
    have hnext : d.next t.state t.event = some t.toState := by
      have hget : d.transitions.get? (t.state, t.event) = some t :=
        Table.get?_eq_some_iff.mpr ⟨ht, rfl⟩
      rw [MachineDef.next, hget]
      rfl
    exact readsTransition_iff.mp (h t.state t.event t.toState hnext)
  · intro h state event toState hnext
    obtain ⟨t, hget, rfl⟩ := Option.map_eq_some_iff.mp hnext
    obtain ⟨ht, hkey⟩ := Table.get?_eq_some_iff.mp hget
    obtain rfl : t.state = state := congrArg Prod.fst hkey
    exact readsTransition_iff.mpr (h t ht)

def quotedMachine : MachineDef := ⟨"door", "open", .insert .empty ⟨"open", "close", "\"shut\""⟩⟩

/-- The transition is made and its answer does not parse. -/
theorem quoted_state_unread : quotedMachine.next "open" "close" = some "\"shut\"" ∧
    parse (sendText "open" "\"shut\"").toList = none ∧ ¬ quotedMachine.AnswersParse := by
  refine ⟨by decide, by decide +kernel, fun h => ?_⟩
  have hverbatim := (readsTransition_iff.mp (h "open" "close" "\"shut\"" (by decide))).2
  exact absurd hverbatim (by decide)

end Texts

end ZenZip
