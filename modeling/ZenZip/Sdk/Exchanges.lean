import ZenZip.Sdk.AgentLoop
import ZenZip.Sdk.Sessions

namespace ZenZip

open Lib

namespace Draft

/-- The last `d` messages of the history are not compressed away. -/
def room (g : Draft) (d : Nat) : Bool := !g.cut || d + g.recalled + 1 ≤ AgentMemory.keepRecent

/-- The messages of the run stand behind the end of the history that it has room for. -/
def Carries (g : Draft) (messages : List LlmMessage) : Prop :=
  ∃ block turns, block.length = g.recalled ∧ block.length ≤ 1 ∧ turns.length + 1 = g.turns ∧
    ∀ tail, tail <:+ g.history → g.room tail.length = true →
      tail ++ block ++ g.run.input.userMessage :: turns <:+ messages

def allowed (g : Draft) : AgentStep → Prop
  | .saveSession _ _ messages _ _ => g.Carries messages
  | _ => True

def answers : (c : AgentStep) → Except String c.Val → Prop
  | .memoryCompress memory messages, .ok compressed =>
      ∃ res, compressed = memory.compress messages res
  | _, _ => True

def drafting : Discipline AgentStep.Val Draft := ⟨next, allowed, answers⟩

theorem length_recalledBlock (recalled : List String) :
    (Agent.recalledBlock recalled).length ≤ 1 := by
  cases recalled <;> simp [Agent.recalledBlock]

theorem compress_of_not {memory : AgentMemory} {messages : List LlmMessage} (res : LlmResponse)
    (h : memory.compresses messages = false) : memory.compress messages res = messages := by
  rw [AgentMemory.compress, h]
  rfl

theorem suffix_compress {memory : AgentMemory} {messages tail : List LlmMessage} (res : LlmResponse)
    (h : tail <:+ messages) (hlen : tail.length ≤ AgentMemory.keepRecent) :
    tail <:+ memory.compress messages res := by
  unfold AgentMemory.compress
  split
  · apply List.IsSuffix.trans _ (List.suffix_cons _ _)
    exact suffix_sliceLast h (keeps_iff.mpr (.inr ⟨by decide, hlen⟩))
  · exact h

theorem wp_opening (run : AgentRun) : drafting.wp (Agent.opening run.agent run.options run.input)
    (fun g r => ∀ messages, r = .ok messages → g.Carries messages) (.start run) := by
  rw [Agent.opening, drafting.wp_bind, Agent.wp_step]
  refine ⟨trivial, fun r _ => ?_⟩
  cases r with
  | error e => exact fun _ he => by cases he
  | ok history =>
      rw [drafting.seq_ok]
      cases hmem : run.options.memory with
      | none =>
          rintro _ ⟨⟩
          refine ⟨[], [], rfl, Nat.zero_le 1, rfl, fun tail htail _ => ?_⟩
          rw [List.append_nil]
          exact List.suffix_append_self_iff.mpr htail
      | some memory =>
          rw [drafting.wp_bind, Agent.wp_step]
          refine ⟨trivial, fun r _ => ?_⟩
          cases r with
          | error e => exact fun _ he => by cases he
          | ok recalled =>
              rw [drafting.seq_ok, Agent.wp_step]
              refine ⟨trivial, fun r hr => ?_⟩
              rintro messages rfl
              obtain ⟨res, rfl⟩ := hr
              refine ⟨Agent.recalledBlock recalled, [], rfl, length_recalledBlock recalled, rfl,
                fun tail htail hroom => ?_⟩
              have hsuffix : tail ++ Agent.recalledBlock recalled ++ [run.input.userMessage] <:+
                  history ++ Agent.recalledBlock recalled ++ [run.input.userMessage] :=
                List.suffix_append_self_iff.mpr (List.suffix_append_self_iff.mpr htail)
              have hroom :
                (!memory.compresses
                  (history ++ Agent.recalledBlock recalled ++ [run.input.userMessage]) ||
                  tail.length + (Agent.recalledBlock recalled).length + 1 ≤
                    AgentMemory.keepRecent) = true := hroom
              rw [Bool.or_eq_true, Bool.not_eq_true', decide_eq_true_eq] at hroom
              rcases hroom with hcut | hroom
              · rw [compress_of_not res hcut]
                exact hsuffix
              · apply suffix_compress res hsuffix
                simpa [Nat.add_assoc] using hroom

theorem carries_turn {g : Draft} {messages : List LlmMessage} (h : g.Carries messages)
    (a u : LlmMessage) :
    Carries { g with turns := g.turns + 2 } (messages ++ [a, u]) := by
  obtain ⟨block, turns, hblock, hone, hturns, hcarries⟩ := h
  refine ⟨block, turns ++ [a, u], hblock, hone, ?_, fun tail htail hroom => ?_⟩
  · rw [List.length_append, ← hturns]
    rfl
  · have hsuffix : tail ++ block ++
      g.run.input.userMessage :: turns ++ [a, u] <:+ messages ++ [a, u] :=
      List.suffix_append_self_iff.mpr (hcarries tail htail hroom)
    rwa [List.append_assoc] at hsuffix

/-- The messages of a run carry the end of its history and everything it has said. -/
def invariant (run : AgentRun) : Agent.Invariant drafting run.input run.agent run.options
    (.start run) where
  I _ messages g := g.Carries messages
  Done messages g := g.Carries messages
  opening := wp_opening run
  llm _ _ _ _ := trivial
  call _ _ _ _ _ _ _ _ _ hc := by cases hc <;> exact ⟨trivial, fun _ => rfl⟩
  turn i messages g res results h hcalls _ := by
    have heq : drafting.next g (.llm i messages) (.ok res) = { g with turns := g.turns + 2 } := by
      simp [drafting, next, hcalls]
    rw [heq]
    exact carries_turn h _ _
  final i messages g res h hnone := by
    have heq : drafting.next g (.llm i messages) (.ok res) = g := by simp [drafting, next, hnone]
    rw [heq]
    exact h
  unasked _ _ _ h := h
  fix _ _ _ _ h := ⟨trivial, fun _ => carries_turn h _ _⟩
  remembered _ _ _ _ h := ⟨trivial, fun _ => h⟩
  save _ _ _ _ h _ := h

end Draft

namespace Saved

def added (q : Saved) : Nat := q.recalled + q.turns + 1

/-- The last `d` messages that a run has read are still there in what it saves. -/
def leaves (q : Saved) (d : Nat) : Bool :=
  (!q.compresses || d + q.recalled + 1 ≤ AgentMemory.keepRecent) && keeps q.window (d + q.added)

/-- How far back the user message of `p` lies, once the runs `later` have saved, too, the latest
first. -/
def distance (p : Saved) : List Saved → Nat
  | [] => p.turns + 1
  | q :: later => p.distance later + q.added

/-- The exchange of `p` fits in the windows that its conversation has passed through. -/
def fits (p : Saved) : List Saved → Bool
  | [] => keeps p.window (p.turns + 1)
  | q :: later => p.fits later && q.leaves (p.distance later)

end Saved

namespace AgentSys

open Draft

def savesOf (σ : AgentSys) (agent id : String) : List Saved :=
  σ.saves.filter (fun q => q.agent = agent && q.id = id)

/-- The conversation of a session has the user message and the final answer of each run that fits.
-/
def Kept (σ : AgentSys) : Prop :=
  ∀ agent id later p earlier, σ.savesOf agent id = later ++ p :: earlier →
  p.fits later = true →
    p.user ∈ σ.config.shared.conversation agent id ∧ p.final ∈ σ.config.shared.conversation agent id

/-- The put of thread `i` finds in its window what the run has read, or what the run itself has put.
-/
def undisturbedPut (σ : AgentSys) (i : Nat) : Bool :=
  match σ.config.pool[i]? with
  | some t => match t.prog with
    | .call (.saveSession agent id messages finalText window) _ =>
      if σ.saves.any (·.run = i) then
        σ.config.shared.conversation agent id = savedMessages messages finalText window
      else sliceLast window (σ.config.shared.conversation agent id) = (draft t).history
    | _ => true
  | none => true

def undisturbed (σ : AgentSys) : AgentLabel → Bool
  | .step i .stored | .unrecorded i => σ.undisturbedPut i
  | _ => true

structure Holds (p : Saved) (d : Nat) (conversation : List LlmMessage) (tail : List LlmMessage) :
    Prop where
  suffix : tail <:+ conversation
  length_eq : tail.length = d
  user : p.user ∈ tail
  final : p.final ∈ tail

def KeptTails (σ : AgentSys) : Prop :=
  ∀ agent id later p earlier, σ.savesOf agent id = later ++ p :: earlier →
  p.fits later = true →
    ∃ tail, Holds p (p.distance later) (σ.config.shared.conversation agent id) tail

variable {stringify : Json → String} {σ σ' : AgentSys}

theorem KeptTails.kept (h : KeptTails σ) : Kept σ := by
  intro agent id later p earlier hsaves hfits
  obtain ⟨tail, hsuffix, _, huser, hfinal⟩ := h agent id later p earlier hsaves hfits
  exact ⟨hsuffix.subset huser, hsuffix.subset hfinal⟩

def Drafts (t : AgentThread) : Prop := drafting.Obeys Draft.start (fun _ _ _ => True) t

theorem drafts_thread (run : AgentRun) : Drafts (run.thread stringify) :=
  (invariant run).wp_runAgentLoop stringify

theorem draft_eq (t : AgentThread) : draft t = drafting.ghost (.start t.kind) t.log := by
  obtain ⟨kind, log, prog⟩ := t
  rw [draft]
  induction log with
  | nil => rfl
  | cons e log ih => exact congrArg (fun g => Draft.next g e.op e.res) ih

theorem next_run (g : Draft) (c : AgentStep) (r : Except String c.Val) :
    (g.next c r).run = g.run := by
  unfold Draft.next
  split <;> try rfl
  split <;> rfl

theorem draft_run (t : AgentThread) : (draft t).run = t.kind := by
  obtain ⟨kind, log, prog⟩ := t
  rw [draft]
  induction log with
  | nil => rfl
  | cons e log ih => exact (next_run _ e.op e.res).trans ih

theorem exec_answers {s s' : Conversations} {ch : AgentChoice} {c : AgentStep}
    {r : Except String c.Val}
    (h : AgentStep.exec s ch c = some (s', r)) : answers c r := by
  unfold AgentStep.exec at h
  split at h
  case h_1 error =>
    cases h
    cases c <;> trivial
  case h_6 memory messages =>
    cases h
    exact ⟨_, rfl⟩
  all_goals
    cases h
  all_goals
    trivial

section Put

variable {i : Nat} {t : AgentThread} {agent id : String}
  {messages conversation tail : List LlmMessage} {finalText : String}
  {window : Int} {k : Except String Unit → AgentM AgentResult} {p : Saved} {d : Nat}

theorem carries_of_put (ht : Drafts t)
    (hp : t.prog = .call (.saveSession agent id messages finalText window) k) :
    (draft t).Carries messages := by
  rw [draft_eq]
  exact ht.allowed hp

theorem holds_own (ht : Drafts t)
    (hp : t.prog = .call (.saveSession agent id messages finalText window) k)
    (hk : keeps window ((record i t agent id finalText window).turns + 1) = true) :
    ∃ tail, Holds (record i t agent id finalText window)
      ((record i t agent id finalText window).turns + 1)
      (savedMessages messages finalText window) tail := by
  obtain ⟨block, turns, hblock, hone, hturns, hcarries⟩ := carries_of_put ht hp
  have hroom : (draft t).room 0 = true := by
    rw [room, ← hblock, Bool.or_eq_true, decide_eq_true_eq]
    right
    exact Nat.le_trans (by omega) (by decide : 2 ≤ AgentMemory.keepRecent)
  have hblocked := hcarries [] List.nil_suffix hroom
  rw [draft_run, List.nil_append] at hblocked
  have hown : t.kind.input.userMessage :: turns <:+ messages :=
    (List.suffix_append block _).trans hblocked
  have hlen :
    (t.kind.input.userMessage :: turns ++ [LlmMessage.ofText .assistant finalText]).length =
      (record i t agent id finalText window).turns + 1 := by
    rw [List.length_append, List.length_cons, hturns]
    rfl
  refine ⟨t.kind.input.userMessage :: turns ++ [.ofText .assistant finalText], ?_, hlen, ?_, ?_⟩
  · apply suffix_sliceLast (List.suffix_append_self_iff.mpr hown)
    rwa [hlen]
  · exact List.mem_append_left _ List.mem_cons_self
  · exact List.mem_append_right _ (List.mem_singleton_self _)

theorem holds_older (ht : Drafts t)
    (hp : t.prog = .call (.saveSession agent id messages finalText window) k)
    (hread : sliceLast window conversation = (draft t).history) (h : Holds p d conversation tail)
    (hleaves : (record i t agent id finalText window).leaves d = true) :
    ∃ tail', Holds p (d + (record i t agent id finalText window).added)
      (savedMessages messages finalText window) tail' := by
  obtain ⟨block, turns, hblock, _, hturns, hcarries⟩ := carries_of_put ht hp
  obtain ⟨hroom, hkeeps⟩ := Bool.and_eq_true_iff.mp hleaves
  have hadded : block.length + (turns.length + 1) + 1 =
    (record i t agent id finalText window).added := by
    rw [hblock, hturns]
    rfl
  have hhistory : tail <:+ (draft t).history := by
    rw [← hread]
    apply suffix_sliceLast h.suffix
    rw [h.length_eq]
    exact keeps_mono hkeeps (Nat.le_add_right d _)
  have hroom' : (draft t).room tail.length = true := by
    rw [room, h.length_eq]
    exact hroom
  have hcarried := hcarries tail hhistory hroom'
  have hlen :
    (tail ++ block ++
      (draft t).run.input.userMessage :: turns ++ [LlmMessage.ofText .assistant finalText]).length =
      d + (record i t agent id finalText window).added := by
    rw [← hadded, ← h.length_eq]
    simp only [List.length_append, List.length_cons, List.length_nil]
    omega
  refine ⟨tail ++ block ++
    (draft t).run.input.userMessage :: turns ++ [.ofText .assistant finalText], ?_, hlen, ?_, ?_⟩
  · apply suffix_sliceLast (List.suffix_append_self_iff.mpr hcarried)
    rwa [hlen]
  · simp [h.user]
  · simp [h.final]

end Put

theorem put_cases {l : AgentLabel} (h : σ.step stringify l = some σ') :
    (σ'.config.shared = σ.config.shared ∧ σ'.saves = σ.saves) ∨
    ∃ i t agent id messages finalText window k, σ.config.pool[i]? = some t ∧
      t.prog = .call (.saveSession agent id messages finalText window) k ∧
      σ'.config.shared =
        σ.config.shared.agentSessionPut agent id (savedMessages messages finalText window) ∧
      σ'.saves = σ.noted i ∧ σ.undisturbed l = σ.undisturbedPut i := by
  obtain ⟨run, rfl⟩ | ⟨i, t, c, k, s, r, hi, hp, hcase⟩ := step_cases h
  · exact .inl ⟨rfl, rfl⟩
  · cases c with
    | saveSession agent id messages finalText window =>
        rcases hcase with ⟨ch, rfl, he, hconfig, hsaves⟩ | ⟨rfl, he, rfl⟩
        · cases ch with
          | stored =>
              cases he
              exact .inr ⟨i, t, agent, id, messages, finalText, window, k, hi, hp, by rw [hconfig],
                hsaves, rfl⟩
          | fails error =>
              cases he
              exact .inl ⟨by rw [hconfig], hsaves⟩
          | _ => cases he
        · cases he
          exact .inr ⟨i, t, agent, id, messages, finalText, window, k, hi, hp, rfl, rfl, rfl⟩
    | _ =>
        left
        have hnoted : σ.noted i = σ.saves := by simp only [noted, hi, hp]
        rcases hcase with ⟨ch, rfl, he, hconfig, hsaves⟩ | ⟨rfl, he, rfl⟩
        · obtain rfl | ⟨_, _, _, _, _, _, hc, _⟩ := AgentStep.exec_cases he
          · refine ⟨by rw [hconfig], ?_⟩
            rw [hsaves]
            split
            · exact hnoted
            · rfl
          · cases hc
        · obtain rfl | ⟨_, _, _, _, _, _, hc, _⟩ := AgentStep.exec_cases he
          · exact ⟨rfl, hnoted⟩
          · cases hc

theorem step_drafts {l : AgentLabel} (ht : ∀ t ∈ σ.config.pool, Drafts t)
    (h : σ.step stringify l = some σ') :
    ∀ t ∈ σ'.config.pool, Drafts t := by
  obtain ⟨run, rfl⟩ | ⟨i, t, c, k, s, r, hi, hp, hcase⟩ := step_cases h
  · intro t hmem
    rcases List.mem_append.mp hmem with hmem | hmem
    · exact ht t hmem
    · rw [List.mem_singleton.mp hmem]
      exact drafts_thread run
  · have hdrafts := ht t (List.mem_of_getElem? hi)
    rcases hcase with ⟨ch, rfl, he, hconfig, _⟩ | ⟨rfl, he, rfl⟩
    · rw [hconfig]
      intro u hmem
      rcases List.mem_or_eq_of_mem_set hmem with hmem | rfl
      · exact ht u hmem
      · exact hdrafts.answer hp (exec_answers he)
    · exact ht

section Kept

variable {i : Nat} {t : AgentThread} {agent id : String} {messages : List LlmMessage}
  {finalText : String}
  {window : Int} {k : Except String Unit → AgentM AgentResult}

theorem savesOf_cons {q : Saved} (hq : (q.agent, q.id) = (agent, id)) (saves : List Saved)
    (agent' id' : String) :
    (q :: saves).filter (fun q => q.agent = agent' && q.id = id') =
      if (agent', id') = (agent, id) then q :: saves.filter
        (fun q => q.agent = agent' && q.id = id')
      else saves.filter (fun q => q.agent = agent' && q.id = id') := by
  rw [← hq, List.filter_cons]
  by_cases h : (agent', id') = (q.agent, q.id)
  · obtain ⟨rfl, rfl⟩ := Prod.mk.inj h
    simp
  · rw [if_neg h, if_neg]
    intro hq'
    rw [Bool.and_eq_true, decide_eq_true_eq, decide_eq_true_eq] at hq'
    exact h (by rw [hq'.1, hq'.2])

theorem KeptTails.put (h : KeptTails σ) (ht : Drafts t) (hi : σ.config.pool[i]? = some t)
    (hp : t.prog = .call (.saveSession agent id messages finalText window) k)
    (hok : σ.undisturbedPut i = true)
    (hshared : σ'.config.shared =
    σ.config.shared.agentSessionPut agent id (savedMessages messages finalText window))
    (hsaves : σ'.saves = σ.noted i) : KeptTails σ' := by
  have hconversation (agent' id' : String) : σ'.config.shared.conversation agent' id' =
      if (agent', id') = (agent, id) then savedMessages messages finalText window
      else σ.config.shared.conversation agent' id' := by
    rw [hshared, Conversations.conversation, Conversations.get_put]
    split <;> rfl
  simp only [noted, hi, hp] at hsaves
  simp only [undisturbedPut, hi, hp] at hok
  intro agent' id' later p earlier hlist hfits
  rw [savesOf, hsaves] at hlist
  rw [hconversation]
  split at hok
  · next hagain =>
      -- the run has put before, and finds its own messages
      rw [if_pos hagain] at hlist
      have hold := h agent' id' later p earlier hlist hfits
      split
      · next heq =>
          cases heq
          rwa [← of_decide_eq_true hok]
      · exact hold
  · next hfirst =>
      have hread := of_decide_eq_true hok
      have hkey :
        ((record i t agent id finalText window).agent, (record i t agent id finalText window).id) =
          (agent, id) := rfl
      rw [if_neg hfirst, savesOf_cons hkey] at hlist
      by_cases heq : (agent', id') = (agent, id)
      · rw [if_pos heq]
        rw [if_pos heq] at hlist
        cases later with
        | nil =>
            cases hlist
            exact holds_own ht hp hfits
        | cons q later =>
            obtain ⟨rfl, hrest⟩ := List.cons.inj hlist
            obtain ⟨hfits', hleaves⟩ := Bool.and_eq_true_iff.mp hfits
            obtain ⟨tail, htail⟩ := h agent' id' later p earlier hrest hfits'
            cases heq
            exact holds_older ht hp hread htail hleaves
      · rw [if_neg heq]
        rw [if_neg heq] at hlist
        exact h agent' id' later p earlier hlist hfits

end Kept

/-- When every put finds what its run has read, no exchange is lost. -/
theorem sessions_kept {σ : AgentSys} (h : Run (step stringify) undisturbed init σ) : σ.Kept := by
  have hinv := h.invariant (fun σ => KeptTails σ ∧ ∀ t ∈ σ.config.pool, Drafts t) ?_ ?_
  · exact hinv.1.kept
  · exact ⟨fun _ _ later _ _ hsaves _ => absurd hsaves.symm (by simp [savesOf, init]),
      fun _ hmem => by cases hmem⟩
  · rintro σ l σ' _ ⟨hkept, hdrafts⟩ hok hs
    refine ⟨?_, step_drafts hdrafts hs⟩
    obtain ⟨hshared, hsaves⟩ | ⟨i, t, agent, id, messages, finalText, window, k, hi, hp, hshared,
      hsaves, hput⟩ := put_cases hs
    · intro agent id later p earlier hlist hfits
      rw [hshared]
      rw [savesOf, hsaves] at hlist
      exact hkept agent id later p earlier hlist hfits
    · rw [hput] at hok
      exact hkept.put (hdrafts t (List.mem_of_getElem? hi)) hi hp hok hshared hsaves

def chat : AgentOptions := ⟨[], none, none, none, none, none, none⟩

def chatRun (message : String) : AgentRun := ⟨"support", chat, ⟨message, some "cus_7"⟩⟩

def chatAnswer (text : String) : LlmResponse := ⟨[.text text], .endTurn, ⟨3, 5⟩⟩

def chatSaved (i : Nat) (message text : String) : Saved :=
  ⟨i, "support", "cus_7", .ofText .user message, .ofText .assistant text, 0, 1, 20, false⟩

theorem sessions_kept_in_turn : ∃ σ : AgentSys,
    σ.savesOf "support" "cus_7" = [chatSaved 1 "b" "B", chatSaved 0 "a" "A"] ∧
      .ofText .user "a" ∈ σ.config.shared.conversation "support" "cus_7" := by
  obtain ⟨σ, hrun, hp⟩ := Run.exists_of_replay (step (fun _ => "")) undisturbed init
    [.trigger (chatRun "a"), .step 0 .stored, .step 0 (.response (chatAnswer "A")), .unrecorded 0,
      .step 0 .stored,
      .trigger (chatRun "b"), .step 1 .stored, .step 1 (.response (chatAnswer "B")),
        .step 1 .stored]
    (fun σ => σ.savesOf "support" "cus_7" = [chatSaved 1 "b" "B", chatSaved 0 "a" "A"])
      (by decide +kernel)
  have hsaves := of_decide_eq_true hp
  refine ⟨σ, hsaves, ?_⟩
  exact (sessions_kept hrun "support" "cus_7" [chatSaved 1 "b" "B"] (chatSaved 0 "a" "A") [] hsaves
    (by decide)).1

/-- Two runs read the session before either of them saves. -/
theorem overlapping_run_lost : ∃ σ : AgentSys, Run (step (fun _ => "")) (fun _ _ => true) init σ ∧
    σ.config.pool.all (fun t => !t.live) = true ∧ ¬ σ.Kept := by
  obtain ⟨σ, hrun, hp⟩ := Run.exists_of_replay (step (fun _ => "")) (fun _ _ => true) init
    [.trigger (chatRun "a"), .trigger (chatRun "b"), .step 0 .stored, .step 1 .stored,
      .step 0 (.response (chatAnswer "A")), .step 1 (.response (chatAnswer "B")), .step 0 .stored,
        .step 1 .stored]
    (fun σ => (σ.savesOf "support" "cus_7" = [chatSaved 1 "b" "B", chatSaved 0 "a" "A"] &&
        σ.config.shared.conversation "support" "cus_7" =
          [.ofText .user "b", .ofText .assistant "B"]) &&
      σ.config.pool.all (fun t => !t.live)) (by decide +kernel)
  simp only [Bool.and_eq_true, decide_eq_true_eq] at hp
  obtain ⟨⟨hsaves, hstored⟩, hended⟩ := hp
  refine ⟨σ, hrun, hended, fun hkept => ?_⟩
  have huser :=
    (hkept "support" "cus_7" [chatSaved 1 "b" "B"] (chatSaved 0 "a" "A") [] hsaves (by decide)).1
  rw [hstored] at huser
  exact absurd huser (by decide)

end AgentSys

end ZenZip
