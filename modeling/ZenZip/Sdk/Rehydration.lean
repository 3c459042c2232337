import ZenZip.Sdk.Blobs

namespace ZenZip

open Lib

/-- An entry of the journal that the engine hands to an attempt. -/
structure EntryText where
  id : String
  kind : String
  result : Option String

namespace Blobs

/-- The loop over the entries before the workflow function is called; `get i` is how the store
answers for entry `i`. -/
def rehydrateAll (get : Nat → String → Except String String) :
    Nat → List EntryText → Except String (List EntryText)
  | _, [] => .ok []
  | i, e :: es => do
    let result ← rehydrate (get i) e.result
    let es' ← rehydrateAll get (i + 1) es
    return { e with result } :: es'

/-- The map from ids to entries keeps the last entry of an id. -/
def journalGet (entries : List EntryText) (id : String) : Option EntryText :=
  entries.reverse.find? (fun e => e.id = id)

/-- What `step.run` returns for an entry, `none` for `undefined`. -/
def runResult (e : EntryText) : Except String (Option JsonValue) :=
  match e.result with
  | none => .ok none
  | some text => match JsonText.parse text.toList with
    | some v => .ok (some v)
    | none => .error "SyntaxError"

/-- The attempt hands the value to the workflow function as the result of a completed `step.run`. -/
def Hands (get : Nat → String → Except String String) (entries : List EntryText) (id : String)
    (v : Option JsonValue) : Prop :=
  ∃ entries' e, rehydrateAll get 0 entries = .ok entries' ∧ journalGet entries' id = some e ∧
    e.kind = "run" ∧
    runResult e = .ok v

variable {get : Nat → String → Except String String} {entries entries' : List EntryText}
  {e : EntryText} {i k : Nat}
  {original : String → String} {ref : String}

theorem rehydrate_ok (get : String → Except String String) (stored : Option String) :
    ∃ r, rehydrate get stored = .ok r := by
  cases stored with
  | none => exact ⟨_, rfl⟩
  | some stored =>
      cases href : markerRef stored with
      | none => exact ⟨_, rehydrate_of_literal href⟩
      | some ref =>
          cases hget : get ref with
          | ok data => exact ⟨_, rehydrate_of_ok href hget⟩
          | error e => exact ⟨_, rehydrate_of_error href hget⟩

theorem rehydrateAll_spec (get : Nat → String → Except String String) (i : Nat)
    (entries : List EntryText) :
    ∃ entries',
      rehydrateAll get i entries = .ok entries' ∧ entries'.map (·.id) = entries.map (·.id) ∧
      ∀ k e, entries[k]? = some e → ∃ r, rehydrate (get (i + k)) e.result = .ok r ∧
      entries'[k]? = some { e with result := r } := by
  induction entries generalizing i with
  | nil => exact ⟨[], rfl, rfl, fun k e he => by cases he⟩
  | cons e es ih =>
      obtain ⟨r, hr⟩ := rehydrate_ok (get i) e.result
      obtain ⟨es', hes, hids, hrest⟩ := ih (i + 1)
      refine ⟨{ e with result := r } :: es', ?_, ?_, fun k e' he => ?_⟩
      · rw [rehydrateAll, hr, hes]
        rfl
      · rw [List.map_cons, List.map_cons, hids]
      · cases k with
        | zero =>
            cases he
            exact ⟨r, hr, rfl⟩
        | succ k =>
            obtain ⟨r', hr', hk⟩ := hrest k e' he
            rw [Nat.add_right_comm] at hr'
            exact ⟨r', hr', hk⟩

theorem journalGet_of_mem (hids : (entries.map (·.id)).Nodup) (he : entries[k]? = some e) :
    journalGet entries e.id = some e := by
  have hmem : e ∈ entries.reverse := List.mem_reverse.mpr (List.mem_of_getElem? he)
  cases hfind : journalGet entries e.id with
  | none =>
      have hnone := List.find?_eq_none.mp hfind e hmem
      exact absurd (decide_eq_true rfl) hnone
  | some e' =>
      rw [journalGet, List.find?_eq_some_iff_append] at hfind
      have he' : e' ∈ entries.reverse := by
        obtain ⟨_, before, after, hsplit, _⟩ := hfind
        rw [hsplit]
        exact List.mem_append_right before List.mem_cons_self
      rw [List.inj_on_of_nodup_map hids (List.mem_reverse.mp he') (List.mem_of_getElem? he)
        (of_decide_eq_true hfind.1)]

/-- What an attempt hands out for an entry is what its stored text is rehydrated to. -/
theorem hands_iff (hids : (entries.map (·.id)).Nodup) (he : entries[k]? = some e)
    (hkind : e.kind = "run") (v : Option JsonValue) :
    Hands get entries e.id v ↔ ∃ r,
      rehydrate (get k) e.result = .ok r ∧ runResult { e with result := r } = .ok v := by
  obtain ⟨entries', hall, hids', hentry⟩ := rehydrateAll_spec get 0 entries
  obtain ⟨r, hr, hk⟩ := hentry k e he
  rw [Nat.zero_add] at hr
  have hjournal : journalGet entries' e.id = some { e with result := r } :=
    journalGet_of_mem (by rwa [hids']) hk
  constructor
  · rintro ⟨entries'', e', hall', hjournal', _, hv⟩
    cases hall.symm.trans hall'
    cases hjournal.symm.trans hjournal'
    exact ⟨r, hr, hv⟩
  · rintro ⟨r', hr', hv⟩
    cases hr.symm.trans hr'
    exact ⟨entries', _, hall, hjournal, hkind, hv⟩

theorem runResult_some {e : EntryText} {text : String} {v : Option JsonValue} :
    runResult { e with result := some text } = .ok v ↔
    v.isSome ∧ JsonText.parse text.toList = v := by
  cases hparse : JsonText.parse text.toList with
  | none =>
      cases v <;> simp [runResult, hparse]
  | some v' =>
      cases v <;> simp [runResult, hparse]

theorem rehydrate_marker_iff (hstore : ∀ data, get i ref = .ok data → data = original ref) :
    ((∃ e, rehydrate (get i) (some (marker ref)) = .error e) ∨
      rehydrate (get i) (some (marker ref)) = .ok (some (original ref))) ↔
    (∃ data, get i ref = .ok data) ∨ original ref = marker ref := by
  cases hget : get i ref with
  | ok data =>
      rw [rehydrate_of_ok (markerRef_marker ref) hget, hstore data hget]
      exact iff_of_true (.inr rfl) (.inl ⟨_, rfl⟩)
  | error e =>
      rw [rehydrate_of_error (markerRef_marker ref) hget]
      constructor
      · rintro (⟨_, he⟩ | he)
        · cases he
        · rw [Except.ok.injEq, Option.some.injEq] at he
          exact .inr he.symm
      · rintro (⟨_, he⟩ | he)
        · cases he
        · exact .inr (by rw [he])

theorem hands_marker_iff (hstore : ∀ data, get k ref = .ok data → data = original ref)
    (hids : (entries.map (·.id)).Nodup)
    (he : entries[k]? = some e) (hkind : e.kind = "run") (href : e.result = some (marker ref)) :
    (∀ v, Hands get entries e.id v → JsonText.parse (original ref).toList = v) ↔
      (∃ data, get k ref = .ok data) ∨ JsonText.parse (original ref).toList = JsonText.parse
        (marker ref).toList := by
  have hmarker : (JsonText.parse (marker ref).toList).isSome := by
    rw [marker, String.toList_ofList, JsonText.parse_stringifyField]
    rfl
  cases hget : get k ref with
  | ok data =>
      refine iff_of_true (fun v hv => ?_) (.inl ⟨_, rfl⟩)
      obtain ⟨r, hr, hv⟩ := (hands_iff hids he hkind v).mp hv
      rw [href, rehydrate_of_ok (markerRef_marker ref) hget, hstore data hget,
        Except.ok.injEq] at hr
      rw [← hr] at hv
      exact (runResult_some.mp hv).2
  | error err =>
      have hr : rehydrate (get k) e.result = .ok (some (marker ref)) := by
        rw [href]
        exact rehydrate_of_error (markerRef_marker ref) hget
      constructor
      · intro h
        exact .inr (h
          _ ((hands_iff hids he hkind _).mpr ⟨_, hr, runResult_some.mpr ⟨hmarker, rfl⟩⟩))
      · rintro (⟨_, hdata⟩ | hsame) v hv
        · cases hdata
        · obtain ⟨r, hr', hv⟩ := (hands_iff hids he hkind v).mp hv
          cases hr.symm.trans hr'
          exact hsame.trans (runResult_some.mp hv).2

/-- A stored reference gives the original value, and an attempt hands that out for the step, exactly
when the store answers (or the original is what the reference reads as). -/
theorem rehydrates_original_iff (get : Nat → String → Except String String)
    (original : String → String)
    (hstore : ∀ i ref data, get i ref = .ok data → data = original ref) :
    (∀ i ref, ((∃ e, rehydrate (get i) (some (marker ref)) = .error e) ∨
        rehydrate (get i) (some (marker ref)) = .ok (some (original ref))) ↔
      (∃ data, get i ref = .ok data) ∨ original ref = marker ref) ∧
    ∀ entries : List EntryText, (entries.map (·.id)).Nodup →
      ∀ k e ref, entries[k]? = some e → e.kind = "run" → e.result = some (marker ref) →
        ((∀ v, Hands get entries e.id v → JsonText.parse (original ref).toList = v) ↔
          (∃ data, get k ref = .ok data) ∨ JsonText.parse (original ref).toList = JsonText.parse
            (marker ref).toList) :=
  ⟨fun i ref => rehydrate_marker_iff (hstore i ref),
    fun _ hids k _ ref he hkind href => hands_marker_iff (hstore k ref) hids he hkind href⟩

/-- A store that answers for both entries of a journal. -/
theorem rehydrates_original_answers :
    ((∃ e, rehydrate (fun _ => .ok "[1,2]") (some (marker "r/pay.json")) = .error e) ∨
      rehydrate (fun _ => .ok "[1,2]") (some (marker "r/pay.json")) = .ok (some "[1,2]")) ∧
    ∀ v, Hands (fun _ _ => .ok "[1,2]") [⟨"pay", "run", some (marker "r/pay.json")⟩,
      ⟨"ship", "run", some (marker "r/ship.json")⟩] "pay" v →
      JsonText.parse "[1,2]".toList = v := by
  have hstore : ∀ (i : Nat) (ref data : String), (.ok "[1,2]" : Except String String) = .ok data →
    data = "[1,2]" := by
    rintro i ref data he
    cases he
    rfl
  obtain ⟨htext, hattempt⟩ :=
    rehydrates_original_iff (fun _ _ => .ok "[1,2]") (fun _ => "[1,2]") hstore
  refine ⟨(htext 0 "r/pay.json").mpr (.inl ⟨_, rfl⟩), ?_⟩
  exact (hattempt [⟨"pay", "run", some (marker "r/pay.json")⟩,
    ⟨"ship", "run", some (marker "r/ship.json")⟩] (by decide) 0 _
    "r/pay.json" rfl rfl rfl).mpr (.inl ⟨_, rfl⟩)

theorem hands_marker_of_error (ref err : String) :
    Hands (fun _ _ => .error err) [⟨"pay", "run", some (marker ref)⟩] "pay"
    (some (.object [(markerKey, .string ref.toList)])) := by
  have he : [(⟨"pay", "run", some (marker ref)⟩ : EntryText)][0]? =
    some ⟨"pay", "run", some (marker ref)⟩ := rfl
  have hparse : JsonText.parse (marker ref).toList =
    some (.object [(markerKey, .string ref.toList)]) := by
    rw [marker, String.toList_ofList, JsonText.parse_stringifyField]
  have hids : ([(⟨"pay", "run", some (marker ref)⟩ : EntryText)].map (·.id)).Nodup :=
    List.nodup_singleton _
  refine (hands_iff hids he rfl _).mpr ⟨some (marker ref), ?_, runResult_some.mpr ⟨rfl, hparse⟩⟩
  exact rehydrate_of_error (markerRef_marker ref) rfl

/-- A read of the blob fails: the text stays the reference, and the attempt hands it to the workflow
function. -/
theorem failed_read_hands_marker : ∃ (get : Nat → String → Except String String)
    (original : String → String),
    (∀ i ref data, get i ref = .ok data → data = original ref) ∧
    (∀ ref, rehydrate (get 0) (some (marker ref)) = .ok (some (marker ref))) ∧
    (∀ ref, Hands get [⟨"pay", "run", some (marker ref)⟩] "pay"
      (some (.object [(markerKey, .string ref.toList)]))) ∧
    ∀ ref, JsonText.parse (original ref).toList = some (.array []) := by
  refine ⟨fun _ _ => .error "EIO", fun _ => String.ofList ['[', ']'], ?_, fun ref => ?_,
    fun ref => ?_, fun ref => ?_⟩
  · intro i ref data he
    cases he
  · exact rehydrate_of_error (markerRef_marker ref) rfl
  · exact hands_marker_of_error ref "EIO"
  · rw [String.toList_ofList]
    rfl

end Blobs

end ZenZip
