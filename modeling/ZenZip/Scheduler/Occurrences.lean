import ZenZip.Scheduler.Steps

namespace ZenZip

open Lib

namespace SchedState

variable {s s' : SchedState} {name name' : String} {o : Time} {id : JobId}

def claimsOf (s : SchedState) (name : String) : List Time :=
  (s.claims.filter (fun x => x.1 = name)).map Prod.snd

def firesOf (s : SchedState) (name : String) : List Fire := s.fires.filter (fun f => f.name = name)

theorem claimsOf_of_eq (h : s'.claims = s.claims) (name : String) :
    s'.claimsOf name = s.claimsOf name := by
  rw [claimsOf, claimsOf, h]

theorem firesOf_of_eq (h : s'.fires = s.fires) (name : String) :
    s'.firesOf name = s.firesOf name := by
  rw [firesOf, firesOf, h]

theorem claimsOf_append (h : s'.claims = s.claims ++ [(name, o)]) :
    s'.claimsOf name = s.claimsOf name ++ [o] := by
  simp [claimsOf, h]

theorem claimsOf_append_ne (h : s'.claims = s.claims ++ [(name', o)]) (hn : name' ≠ name) :
    s'.claimsOf name = s.claimsOf name := by
  simp [claimsOf, h, hn]

theorem firesOf_append (h : s'.fires = s.fires ++ [⟨name, o, id⟩]) :
    s'.firesOf name = s.firesOf name ++ [⟨name, o, id⟩] := by
  simp [firesOf, h]

theorem firesOf_append_ne (h : s'.fires = s.fires ++ [⟨name', o, id⟩]) (hn : name' ≠ name) :
    s'.firesOf name = s.firesOf name := by
  simp [firesOf, h, hn]

end SchedState

namespace SchedSys

variable {R : Schedules} {σ σ' : SchedSys} {l : SchedLabel} {name : String}

/-- Every upsert of the schedule writes over the row that it has read, or over one
whose cursor has not been claimed. -/
def keepsCursor (name : String) (σ : SchedSys) : SchedLabel → Bool
  | .call i (.ok _) => match σ.pendingCall i with
    | some (.writeSchedule row existing) =>
        row.name ≠ name || decide (σ.shared.schedules.get? name = existing) ||
        (σ.shared.schedules.get? name).all (fun r => r.lastRunAt.isNone)
    | _ => true
  | _ => true

def Registered (R : Schedules) (s : SchedState) (name : String) (r : ScheduleRow) : Prop :=
  s.schedules.get? name = some r ∧ ∃ d, R.get? name = some d ∧ r.spec = d.spec

/-- The cursor of the schedule is past every occurrence claimed. -/
structure Past (R : Schedules) (name : String) (s : SchedState) : Prop where
  past : ∀ o ∈ s.claimsOf name, ∃ r, Registered R s name r ∧ o < r.nextRunAt ∧ r.lastRunAt ≠ none
  sorted : (s.claimsOf name).Pairwise (· < ·)

structure Claiming (R : Schedules) (name : String) (σ : SchedSys) : Prop where
  obeying : σ.Obeying R
  past : Past R name σ.shared
  upserted : ∀ (i : Nat) (t : NodeThread), σ.pool[i]? = some t →
    name ∈ (NodeThread.track R t).upserted →
    ∃ r, Registered R σ.shared name r
  fired : ((σ.shared.firesOf name).map Fire.occurrence).Nodup
  claimed : ∀ f ∈ σ.shared.firesOf name, f.occurrence ∈ σ.shared.claimsOf name
  holds : ∀ (i : Nat) (t : NodeThread) o, σ.pool[i]? = some t →
    (NodeThread.track R t).holds = some (name, o) →
    o ∈ σ.shared.claimsOf name ∧ o ∉ (σ.shared.firesOf name).map Fire.occurrence
  exclusive : ∀ (i i' : Nat) (t t' : NodeThread) o, σ.pool[i]? = some t → σ.pool[i']? = some t' →
    (NodeThread.track R t).holds = some (name, o) →
      (NodeThread.track R t').holds = some (name, o) → i = i'

theorem claiming_init (R : Schedules) (name : String) (s : Store)
    (schedules : Table ScheduleRow.name) (clock : Time) :
    (init s schedules clock).Claiming R name where
  obeying i t ht := by cases ht
  past := ⟨fun _ h => (List.not_mem_nil h).elim, List.Pairwise.nil⟩
  upserted i t ht := by cases ht
  fired := List.nodup_nil
  claimed f hf := by cases hf
  holds i t o ht := by cases ht
  exclusive i i' t t' o ht := by cases ht

/-- What a call does to the cursors and to the history of the occurrences. -/
inductive CursorMove (s : SchedState) : SchedCall → SchedState → Prop
  | same (c s') (hs : s'.schedules = s.schedules) (hc : s'.claims = s.claims)
  (hf : s'.fires = s.fires) : CursorMove s c s'
  | written (row existing s') (hc : s'.claims = s.claims) (hf : s'.fires = s.fires)
      (hs : ∀ k, s'.schedules.get? k = if k = row.name then some (row.merged existing)
        else s.schedules.get? k) :
      CursorMove s (.writeSchedule row existing) s'
  | ticked (name expected next now r s') (hr : s.schedules.get? name = some r)
    (hn : r.nextRunAt = expected)
      (hc : s'.claims = s.claims ++ [(name, expected)]) (hf : s'.fires = s.fires)
      (hs : ∀ k, s'.schedules.get? k = if k = name then some (SchedState.tickedRow next now r)
        else s.schedules.get? k) :
      CursorMove s (.claimTick name expected next now) s'
  | pushed (job name occurrence id s') (hs : s'.schedules = s.schedules) (hc : s'.claims = s.claims)
      (hf : s'.fires = s.fires ++ [⟨name, occurrence, id⟩]) : CursorMove s
        (.push job name occurrence) s'

def claims : (c : SchedCall) → c.Ret → Option (String × Time)
  | .claimTick name expected _ _, claimed => if claimed then some (name, expected) else none
  | _, _ => none

theorem perform_cursor (s : SchedState) (now : Time) (c : SchedCall) :
    CursorMove s c { (c.perform s now).1 with clock := now } ∧
      ∀ x, claims c (c.perform s now).2 = some x →
      (c.perform s now).1.claims = s.claims ++ [x] := by
  cases c with
  | writeSchedule row existing =>
      exact ⟨.written row existing _ rfl rfl (s.get?_writeSchedule row existing), nofun⟩
  | claimTick name expected next at' =>
      obtain he | ⟨r, hr, hn, s', he, _, hf, hc, hs⟩ :=
        s.scheduleClaimTick_cases name expected next at'
      · have he' : (SchedCall.claimTick name expected next at').perform s now = (s, false) := he
        rw [he']
        exact ⟨.same _ _ rfl rfl rfl, nofun⟩
      · have he' : (SchedCall.claimTick name expected next at').perform s now = (s', true) := he
        rw [he']
        refine ⟨.ticked name expected next at' r _ hr hn hc hf hs, fun x hx => ?_⟩
        cases hx
        exact hc
  | push job name occurrence =>
      exact ⟨.pushed job name occurrence s.store.nextId _ rfl rfl rfl, nofun⟩
  | readSchedule | dueSchedules | activeCount | ack | failRetry | failDead =>
      exact ⟨.same _ _ rfl rfl rfl, nofun⟩

def Stores (σ : SchedSys) (l : SchedLabel) : Prop :=
  ∃ i t c k now, σ.pool[i]? = some t ∧ t.prog = .call (.store c) k ∧ l = .call i (.ok now)

theorem Move.frame (h : Move R σ l σ') :
    (¬ σ.Stores l ∧ σ'.shared.schedules = σ.shared.schedules ∧ σ'.shared.claims = σ.shared.claims ∧
      σ'.shared.fires = σ.shared.fires) ∨
    ∃ i t c k now, σ.pool[i]? = some t ∧ t.prog = .call (.store c) k ∧ l = .call i (.ok now) ∧
    σ' = σ.stored i t c k now := by
  cases h with
  | booted | crashed | dispatched | renewed | swept =>
      refine .inl ⟨?_, rfl, rfl, rfl⟩
      rintro ⟨_, _, _, _, _, _, _, hl⟩
      cases hl
  | answered i t op k ch s r ht hp hr =>
      refine .inl ⟨?_, by cases hr <;> exact ⟨rfl, rfl, rfl⟩⟩
      rintro ⟨i', t', c, k', now, ht', hp', hl⟩
      cases hl
      obtain rfl : t' = t := Option.some.inj (ht'.symm.trans ht)
      rw [hp'] at hp
      cases hp
      cases hr
  | stored i t c k now ht hp => exact .inr ⟨i, t, c, k, now, ht, hp, rfl, rfl⟩

theorem Registered.of_eq {s s' : SchedState} {name : String} {r : ScheduleRow}
    (h : Registered R s name r)
    (hs : s'.schedules = s.schedules) : Registered R s' name r := by
  rw [Registered, hs]
  exact h

theorem merged_spec (row : ScheduleRow) (existing : Option ScheduleRow) :
    (row.merged existing).spec = row.spec := by
  cases existing with
  | none => rfl
  | some e =>
      simp only [ScheduleRow.merged]
      split <;> rfl

variable {s s' : SchedState} {g : NodeTrack} {c : SchedCall}

theorem CursorMove.registered (h : CursorMove s c s') (hg : g.mayCall R c)
    (hr : ∃ r, Registered R s name r) :
    ∃ r, Registered R s' name r := by
  obtain ⟨r, hr⟩ := hr
  cases h with
  | same c _ hs | pushed _ _ _ _ _ hs => exact ⟨r, hr.of_eq hs⟩
  | written row existing _ _ _ hs =>
      obtain ⟨_, _, d, hd, hspec⟩ := hg
      by_cases hn : name = row.name
      · subst hn
        refine ⟨row.merged existing, ?_, d, hd, (merged_spec row existing).trans hspec⟩
        rw [hs, if_pos rfl]
      · refine ⟨r, ?_, hr.2⟩
        rw [hs, if_neg hn]
        exact hr.1
  | ticked name' expected next now r' _ hr' _ _ _ hs =>
      by_cases hn : name = name'
      · subst hn
        obtain rfl : r = r' := Option.some.inj (hr.1.symm.trans hr')
        refine ⟨SchedState.tickedRow next now r, ?_, hr.2⟩
        rw [hs, if_pos rfl]
      · refine ⟨r, ?_, hr.2⟩
        rw [hs, if_neg hn]
        exact hr.1

/-- The step lemma of the cursor: a call of a thread that keeps to the discipline
does not move it back over an occurrence claimed. -/
theorem CursorMove.past (h : CursorMove s c s') (hg : g.mayCall R c) {d : ScheduleDef}
    (hd : R.get? name = some d)
    (hA : d.Advances) (hup : name ∈ g.upserted → ∃ r, Registered R s name r)
    (hok : ∀ row existing, c = .writeSchedule row existing → row.name = name →
    s.schedules.get? name = existing ∨
      ∀ r, s.schedules.get? name = some r → r.lastRunAt = none)
    (hI : Past R name s) : Past R name s' := by
  cases h with
  | same c _ hs hc | pushed _ _ _ _ _ hs hc =>
      have hclaims := SchedState.claimsOf_of_eq hc name
      refine ⟨fun o ho => ?_, hclaims ▸ hI.sorted⟩
      obtain ⟨r, hr, hlt⟩ := hI.past o (hclaims ▸ ho)
      exact ⟨r, hr.of_eq hs, hlt⟩
  | written row existing _ hc _ hs =>
      have hclaims := SchedState.claimsOf_of_eq hc name
      refine ⟨fun o ho => ?_, hclaims ▸ hI.sorted⟩
      obtain ⟨r, hr, hlt, hlast⟩ := hI.past o (hclaims ▸ ho)
      by_cases hn : name = row.name
      · subst hn
        obtain ⟨_, _, d', hd', hspec⟩ := hg
        obtain hread | hnever := hok row existing rfl rfl
        · obtain rfl : existing = some r := hread.symm.trans hr.1
          obtain ⟨d'', hd'', hspec'⟩ := hr.2
          obtain rfl : d'' = d' := Option.some.inj (hd''.symm.trans hd')
          have hmerged : row.merged (some r) =
            { row with nextRunAt := r.nextRunAt, lastRunAt := r.lastRunAt, enabled := true } :=
            if_pos (hspec'.trans hspec.symm)
          refine ⟨row.merged (some r), ⟨?_, d'', hd', (merged_spec row _).trans hspec⟩, ?_, ?_⟩
          · rw [hs, if_pos rfl]
          · rw [hmerged]
            exact hlt
          · rw [hmerged]
            exact hlast
        · exact absurd (hnever r hr.1) hlast
      · refine ⟨r, ⟨?_, hr.2⟩, hlt, hlast⟩
        rw [hs, if_neg hn]
        exact hr.1
  | ticked name' expected next now r _ hr hn hc _ hs =>
      by_cases hk : name' = name
      · subst hk
        obtain ⟨_, hname, d', hd', hlt⟩ := hg
        obtain rfl : d' = d := Option.some.inj (hd'.symm.trans hd)
        have hlt := hlt hA
        obtain ⟨r', hreg⟩ := hup hname
        obtain rfl : r' = r := Option.some.inj (hreg.1.symm.trans hr)
        have hnew : Registered R s' name' (SchedState.tickedRow next now r') :=
          ⟨by rw [hs, if_pos rfl], hreg.2⟩
        have hbelow : ∀ o ∈ s.claimsOf name', o < expected := by
          intro o ho
          obtain ⟨r, hr', hlt', _⟩ := hI.past o ho
          obtain rfl : r = r' := Option.some.inj (hr'.1.symm.trans hr)
          exact hn ▸ hlt'
        have hclaims := SchedState.claimsOf_append hc
        constructor
        · intro o ho
          refine ⟨_, hnew, ?_, nofun⟩
          rw [hclaims] at ho
          rcases List.mem_append.mp ho with ho | ho
          · exact Int.lt_trans (hbelow o ho) hlt
          · exact List.mem_singleton.mp ho ▸ hlt
        · rw [hclaims]
          refine List.pairwise_append.mpr
            ⟨hI.sorted, List.pairwise_singleton _ _, fun o ho o' ho' => ?_⟩
          exact List.mem_singleton.mp ho' ▸ hbelow o ho
      · have hclaims := SchedState.claimsOf_append_ne hc hk
        refine ⟨fun o ho => ?_, hclaims ▸ hI.sorted⟩
        obtain ⟨r, hr', hlt⟩ := hI.past o (hclaims ▸ ho)
        refine ⟨r, ⟨?_, hr'.2⟩, hlt⟩
        rw [hs, if_neg (Ne.symm hk)]
        exact hr'.1

section Tracks

theorem next_upserted {c : SchedCall} {v : c.Ret}
    (h : name ∈ (g.next (.store c) (.ok v)).upserted) :
    name ∈ g.upserted ∨ ∃ row existing, c = .writeSchedule row existing ∧ row.name = name := by
  cases c with
  | writeSchedule row existing =>
      rcases List.mem_cons.mp h with rfl | hm
      · exact .inr ⟨row, existing, rfl, rfl⟩
      · exact .inl hm
  | _ => exact .inl h

theorem next_holds {c : SchedCall} {v : c.Ret} {x : String × Time}
    (h : (g.next (.store c) (.ok v)).holds = some x) :
    claims c v = some x ∨ (g.holds = some x ∧ ∃ queue, c = .activeCount queue) := by
  cases c with
  | claimTick => exact .inl h
  | activeCount queue => exact .inr ⟨h, queue, rfl⟩
  | _ => cases h

theorem aside_upserted {s s' : SchedState} {op : SchedOp} {ch : Reading}
    {r : Except String (SchedVal op)}
    (h : SchedAside s op ch s' r) : (g.next op r).upserted = g.upserted := by
  cases h with
  | failed c e => cases c <;> rfl
  | clock | draw | outcome => rfl

theorem aside_holds {s s' : SchedState} {op : SchedOp} {ch : Reading}
    {r : Except String (SchedVal op)}
    (h : SchedAside s op ch s' r) {x : String × Time} (hx : (g.next op r).holds = some x) :
    g.holds = some x ∧ ((∃ hi, op = .fastrand hi) ∨ ∃ queue, op = .store (.activeCount queue)) := by
  cases h with
  | failed c e =>
      cases c with
      | activeCount queue => exact ⟨hx, .inr ⟨queue, rfl⟩⟩
      | _ => cases hx
  | draw hi n => exact ⟨hx, .inl ⟨hi, rfl⟩⟩
  | clock | outcome => cases hx

end Tracks

theorem ThreadMove.track {j : Nat} {u : NodeThread} (h : ThreadMove R σ j u l) :
    ((NodeThread.track R u).upserted = [] ∧ (NodeThread.track R u).holds = none) ∨
    (∃ t, σ.pool[j]? = some t ∧ (NodeThread.track R u).upserted = (NodeThread.track R t).upserted ∧
      ∀ x, (NodeThread.track R u).holds = some x → (NodeThread.track R t).holds = some x) ∨
      σ.Stores l := by
  cases h with
  | stays _ hj => exact .inr (.inl ⟨u, hj, rfl, fun _ hx => hx⟩)
  | booted _ _ _ hu | claimed _ _ _ _ _ _ _ _ hu =>
      subst hu
      exact .inl ⟨rfl, rfl⟩
  | stored t c k now ht hp => exact .inr (.inr ⟨j, t, c, k, now, ht, hp, rfl⟩)
  | answered t op k ch s r ht _ hr hu =>
      subst hu
      exact .inr (.inl ⟨t, ht, aside_upserted hr, fun _ hx => (aside_holds hr hx).1⟩)
  | crashed t ht _ hu =>
      subst hu
      exact .inr (.inl ⟨t, ht, rfl, fun _ hx => hx⟩)

theorem Claiming.aside (hI : σ.Claiming R name) (h : Move R σ l σ') (hl : ¬ σ.Stores l)
    (hs : σ'.shared.schedules = σ.shared.schedules) (hc : σ'.shared.claims = σ.shared.claims)
    (hf : σ'.shared.fires = σ.shared.fires) : σ'.Claiming R name := by
  have hold {j : Nat} {u : NodeThread} {x : String × Time} (hu : σ'.pool[j]? = some u)
      (hx : (NodeThread.track R u).holds = some x) :
      ∃ t, σ.pool[j]? = some t ∧ (NodeThread.track R t).holds = some x := by
    obtain ⟨_, hnone⟩ | ⟨t, ht, _, hh⟩ | hcall := (h.thread hu).track
    · cases hnone.symm.trans hx
    · exact ⟨t, ht, hh x hx⟩
    · exact absurd hcall hl
  have hclaims := SchedState.claimsOf_of_eq hc name
  have hfires := SchedState.firesOf_of_eq hf name
  refine ⟨h.obeying hI.obeying, ⟨fun o ho => ?_, hclaims ▸ hI.past.sorted⟩, fun i u hu hn => ?_,
    hfires ▸ hI.fired,
    fun f hm => ?_, fun i u o hu hx => ?_, fun i i' u u' o hu hu' hx hx' => ?_⟩
  · obtain ⟨r, hr, hlt⟩ := hI.past.past o (hclaims ▸ ho)
    exact ⟨r, hr.of_eq hs, hlt⟩
  · obtain ⟨hnil, _⟩ | ⟨t, ht, hup, _⟩ | hcall := (h.thread hu).track
    · rw [hnil] at hn
      cases hn
    · obtain ⟨r, hr⟩ := hI.upserted i t ht (hup ▸ hn)
      exact ⟨r, hr.of_eq hs⟩
    · exact absurd hcall hl
  · rw [hclaims]
    exact hI.claimed f (hfires ▸ hm)
  · obtain ⟨t, ht, hh⟩ := hold hu hx
    rw [hclaims, hfires]
    exact hI.holds i t o ht hh
  · obtain ⟨t, ht, hh⟩ := hold hu hx
    obtain ⟨t', ht', hh'⟩ := hold hu' hx'
    exact hI.exclusive i i' t t' o ht ht' hh hh'

variable {i : Nat} {t : NodeThread} {k : Except String c.Ret → SchedM Unit} {now : Time}

theorem getElem?_stored {j : Nat} {u : NodeThread} (ht : σ.pool[i]? = some t)
    (hu : (σ.stored i t c k now).pool[j]? = some u) :
    (j = i ∧ NodeThread.track R u =
    (NodeThread.track R t).next (.store c) (.ok (c.perform σ.shared now).2)) ∨
    (j ≠ i ∧ σ.pool[j]? = some u) := by
  obtain ⟨rfl, rfl⟩ | h := getElem?_set_cases hu (lt_of_getElem? ht)
  · exact .inl ⟨rfl, rfl⟩
  · exact .inr h

theorem CursorMove.claims_subset (h : CursorMove s c s') (name : String) :
    s.claimsOf name ⊆ s'.claimsOf name := by
  cases h with
  | same _ _ _ hc | written _ _ _ hc | pushed _ _ _ _ _ _ hc =>
      rw [SchedState.claimsOf_of_eq hc]
      exact List.Subset.refl _
  | ticked name' _ _ _ _ _ _ _ hc =>
      by_cases hn : name' = name
      · subst hn
        rw [SchedState.claimsOf_append hc]
        exact List.subset_append_left _ _
      · rw [SchedState.claimsOf_append_ne hc hn]
        exact List.Subset.refl _

theorem CursorMove.fired (h : CursorMove s c s') (name : String) :
    s'.firesOf name = s.firesOf name ∨
    ∃ job occurrence id, c = .push job name occurrence ∧
    s'.firesOf name = s.firesOf name ++ [⟨name, occurrence, id⟩] := by
  cases h with
  | same _ _ _ _ hf | written _ _ _ _ hf | ticked _ _ _ _ _ _ _ _ _ hf =>
      exact .inl (SchedState.firesOf_of_eq hf name)
  | pushed job name' occurrence id _ _ _ hf =>
      by_cases hn : name' = name
      · subst hn
        exact .inr ⟨job, occurrence, id, rfl, SchedState.firesOf_append hf⟩
      · exact .inl (SchedState.firesOf_append_ne hf hn)

theorem CursorMove.fires_once (h : CursorMove s c s') (hg : g.mayCall R c)
    (hh : ∀ o, g.holds = some (name, o) → o ∈ s.claimsOf name ∧
    o ∉ (s.firesOf name).map Fire.occurrence)
    (hnd : ((s.firesOf name).map Fire.occurrence).Nodup)
    (hcl : ∀ f ∈ s.firesOf name, f.occurrence ∈ s.claimsOf name) :
    ((s'.firesOf name).map Fire.occurrence).Nodup ∧
    (∀ f ∈ s'.firesOf name, f.occurrence ∈ s.claimsOf name) ∧
      ∀ o, o ∉ (s.firesOf name).map Fire.occurrence → o ∈ (s'.firesOf name).map Fire.occurrence →
        g.holds = some (name, o) ∧ ∃ job, c = .push job name o := by
  obtain hf | ⟨job, occurrence, id, rfl, hf⟩ := h.fired name
  · rw [hf]
    exact ⟨hnd, hcl, fun o ho hm => absurd hm ho⟩
  · have hholds : g.holds = some (name, occurrence) := hg.2.1
    rw [hf, List.map_append]
    refine ⟨?_, fun f hm => ?_, fun o ho hm => ?_⟩
    · refine List.nodup_append.mpr ⟨hnd, List.nodup_singleton _, fun o ho o' ho' he => ?_⟩
      cases List.mem_singleton.mp ho'
      exact (hh _ hholds).2 (by rwa [he] at ho)
    · rcases List.mem_append.mp hm with hm | hm
      · exact hcl f hm
      · cases List.mem_singleton.mp hm
        exact (hh _ hholds).1
    · rcases List.mem_append.mp hm with hm | hm
      · exact absurd hm ho
      · cases List.mem_singleton.mp hm
        exact ⟨hholds, job, rfl⟩

theorem Claiming.stored {d : ScheduleDef} (hI : σ.Claiming R name) (hd : R.get? name = some d)
    (hA : d.Advances)
    (ht : σ.pool[i]? = some t) (hp : t.prog = .call (.store c) k)
    (h : Move R σ (.call i (.ok now)) (σ.stored i t c k now))
    (hok : keepsCursor name σ (.call i (.ok now)) = true) :
    (σ.stored i t c k now).Claiming R name := by
  obtain ⟨hmove, hclaims⟩ := perform_cursor σ.shared now c
  have hmay : (NodeThread.track R t).mayCall R c := (hI.obeying i t ht).allowed hp
  have hpast : Past R name (σ.stored i t c k now).shared := by
    refine hmove.past hmay hd hA (hI.upserted i t ht) (fun row existing hc hn => ?_) hI.past
    simp only [keepsCursor, pendingCall_eq ht hp, hc, hn, ne_eq, not_true_eq_false, decide_false,
      Bool.false_or,
      Bool.or_eq_true, decide_eq_true_eq] at hok
    refine hok.imp_right (fun hnone r hr => ?_)
    rw [hr] at hnone
    exact Option.isNone_iff_eq_none.mp hnone
  have hheld {o : Time} (hx : (NodeThread.track R t).holds = some (name, o)) := hI.holds i t o ht hx
  obtain ⟨hnodup, hclaimed, hadded⟩ := hmove.fires_once hmay (hI.holds i t · ht) hI.fired hI.claimed
  have hsub := hmove.claims_subset name
  have hnew {o : Time} (hx : claims c (c.perform σ.shared now).2 = some (name, o)) :
      o ∈ (σ.stored i t c k now).shared.claimsOf name ∧ o ∉ σ.shared.claimsOf name := by
    have hc : (σ.stored i t c k now).shared.claimsOf name = σ.shared.claimsOf name ++ [o] :=
      SchedState.claimsOf_append (hclaims _ hx)
    have hsorted := hpast.sorted
    rw [hc] at hsorted ⊢
    exact ⟨List.mem_append_right _ List.mem_cons_self,
      fun hm => Int.lt_irrefl o ((List.pairwise_append.mp hsorted).2.2 o hm o List.mem_cons_self)⟩
  refine ⟨h.obeying hI.obeying, hpast, fun j u hu hn => ?_, hnodup,
    fun f hm => hsub (hclaimed f hm),
    fun j u o hu hx => ?_, fun j j' u u' o hu hu' hx hx' => ?_⟩
  · obtain ⟨rfl, htrack⟩ | ⟨_, hu⟩ := getElem?_stored (R := R) ht hu
    · rw [htrack] at hn
      obtain hn | ⟨row, existing, rfl, rfl⟩ := next_upserted hn
      · exact hmove.registered hmay (hI.upserted j t ht hn)
      · obtain ⟨_, _, d', hd', hspec⟩ := hmay
        refine ⟨row.merged existing, ?_, d', hd', (merged_spec row existing).trans hspec⟩
        exact (σ.shared.get?_writeSchedule row existing row.name).trans (if_pos rfl)
    · exact hmove.registered hmay (hI.upserted j u hu hn)
  · obtain ⟨rfl, htrack⟩ | ⟨hne, hu⟩ := getElem?_stored (R := R) ht hu
    · rw [htrack] at hx
      obtain hc | ⟨hh, queue, hcount⟩ := next_holds hx
      · refine ⟨(hnew hc).1, fun hm => ?_⟩
        obtain ⟨f, hf, rfl⟩ := List.mem_map.mp hm
        exact (hnew hc).2 (hclaimed f hf)
      · refine ⟨hsub (hheld hh).1, fun hm => ?_⟩
        obtain ⟨_, job, he⟩ := hadded o (hheld hh).2 hm
        cases hcount.symm.trans he
    · obtain ⟨hc, hf⟩ := hI.holds j u o hu hx
      refine ⟨hsub hc, fun hm => ?_⟩
      exact hne (hI.exclusive j i u t o hu ht hx (hadded o hf hm).1)
  · obtain ⟨rfl, htrack⟩ | ⟨_, hj⟩ := getElem?_stored (R := R) ht hu <;>
      obtain ⟨rfl, htrack'⟩ | ⟨_, hj'⟩ := getElem?_stored (R := R) ht hu'
    · rfl
    · rw [htrack] at hx
      obtain hc | ⟨hh, _⟩ := next_holds hx
      · exact absurd (hI.holds j' u' o hj' hx').1 (hnew hc).2
      · exact hI.exclusive j j' t u' o ht hj' hh hx'
    · rw [htrack'] at hx'
      obtain hc | ⟨hh, _⟩ := next_holds hx'
      · exact absurd (hI.holds j u o hj hx).1 (hnew hc).2
      · exact hI.exclusive j j' u t o hj ht hx hh
    · exact hI.exclusive j j' u u' o hj hj' hx hx'

theorem Claiming.step {d : ScheduleDef} (hI : σ.Claiming R name) (hd : R.get? name = some d)
    (hA : d.Advances)
    (h : Move R σ l σ') (hok : keepsCursor name σ l = true) : σ'.Claiming R name := by
  obtain ⟨hl, hsched, hc, hf⟩ | ⟨i, t, c, k, now, ht, hp, rfl, rfl⟩ := h.frame
  · exact hI.aside h hl hsched hc hf
  · exact hI.stored hd hA ht hp h hok

/-- While no upsert of the schedule writes a cursor that it has not read over one
already claimed, the cursor stays past the claimed occurrences, these increase, and
only claimed ones are fired, each once. -/
theorem occurrences_fire_once {d : ScheduleDef} (hd : R.get? name = some d) (hA : d.Advances)
    {s : Store}
    {schedules : Table ScheduleRow.name} {clock : Time}
    (h : Run (step R) (keepsCursor name) (init s schedules clock) σ) :
    (∀ o ∈ σ.shared.claimsOf name, ∃ r, σ.shared.schedules.get? name = some r ∧ o < r.nextRunAt) ∧
    (σ.shared.claimsOf name).Pairwise (· < ·) ∧
      ((σ.shared.firesOf name).map Fire.occurrence).Nodup ∧
    ∀ f ∈ σ.shared.firesOf name, f.occurrence ∈ σ.shared.claimsOf name := by
  have hI : σ.Claiming R name := by
    refine h.invariant (Claiming R name) (claiming_init R name s schedules clock) ?_
    exact fun _ _ _ _ hI hok hs => hI.step hd hA (step_move hs) hok
  refine ⟨fun o ho => ?_, hI.past.sorted, hI.fired, hI.claimed⟩
  obtain ⟨r, hr, hlt, _⟩ := hI.past.past o ho
  exact ⟨r, hr.1, hlt⟩

section Sample

def sampleSchedule (overlap : Overlap) (catchup : Catchup) : ScheduleDef :=
  ⟨"report", "every:100", .every 100, overlap, catchup, 0⟩

def sampleSchedules (overlap : Overlap) (catchup : Catchup) : Schedules :=
  .insert .empty (sampleSchedule overlap catchup)

theorem sampleSchedule_advances (overlap : Overlap) (catchup : Catchup) :
    (sampleSchedule overlap catchup).Advances :=
  ScheduleDef.advances_every (show ScheduleDef.every "report" 100 overlap catchup = .ok _ from rfl)

theorem get?_sampleSchedules (overlap : Overlap) (catchup : Catchup) :
    (sampleSchedules overlap catchup).get? "report" = some (sampleSchedule overlap catchup) := rfl

def callAt (i : Nat) (now : Time) : SchedLabel := .call i (.ok now)

/-- Both nodes find the occurrence due, and one of them claims and fires it. -/
theorem occurrences_fire_once_race : ∃ σ, Run (step (sampleSchedules .allow .skip))
    (keepsCursor "report")
    (init .empty .empty 0) σ ∧ σ.shared.claimsOf "report" = [100] ∧ σ.shared.fires.length = 1 ∧
    (∃ r, σ.shared.schedules.get? "report" = some r ∧ 100 < r.nextRunAt) ∧
    ∀ f ∈ σ.shared.firesOf "report", f.occurrence = 100 := by
  obtain ⟨σ, h, hp⟩ :=
    Run.exists_of_replay (step (sampleSchedules .allow .skip)) (keepsCursor "report")
    (init .empty .empty 0)
    [.boot 0 ["report"] 1, .boot 1 ["report"] 1, callAt 0 0, callAt 0 0, callAt 0 0, callAt 1 0,
      callAt 1 0, callAt 1 0,
      callAt 0 100, callAt 0 100, callAt 1 110, callAt 1 110, callAt 0 110, callAt 1 110,
        callAt 0 110]
    (fun σ => decide (σ.shared.claimsOf "report" = [100] ∧ σ.shared.fires.length = 1))
      (by decide +kernel)
  obtain ⟨hclaims, hlen⟩ := of_decide_eq_true hp
  obtain ⟨hpast, _, _, hfired⟩ :=
    occurrences_fire_once (get?_sampleSchedules .allow .skip)
      (sampleSchedule_advances .allow .skip) h
  rw [hclaims] at hpast hfired
  exact ⟨σ, h, hclaims, hlen, hpast 100 List.mem_cons_self,
    fun f hf => List.mem_singleton.mp (hfired f hf)⟩

/-- Both nodes find no row at boot. The second write of it puts the cursor back to an
occurrence that the other node has fired, and it is fired again. -/
theorem overtaken_boot_fires_twice : ∃ σ, Run (step (sampleSchedules .allow .skip))
    (fun _ _ => true)
    (init .empty .empty 0) σ ∧ σ.shared.fires.map Fire.tick =
    [("report", 100), ("report", 100)] := by
  obtain ⟨σ, h, hp⟩ :=
    Run.exists_of_replay (step (sampleSchedules .allow .skip)) (fun _ _ => true)
      (init .empty .empty 0)
    [.boot 0 ["report"] 1, .boot 1 ["report"] 1, callAt 0 0, callAt 0 0, callAt 1 0, callAt 1 0,
      callAt 1 0, callAt 1 100,
      callAt 1 100, callAt 1 100, callAt 1 100, callAt 0 100, callAt 0 110, callAt 0 110,
        callAt 0 110, callAt 0 110]
    (fun σ => decide (σ.shared.fires.map Fire.tick = [("report", 100), ("report", 100)]))
      (by decide +kernel)
  exact ⟨σ, h, of_decide_eq_true hp⟩

end Sample

end SchedSys

end ZenZip
