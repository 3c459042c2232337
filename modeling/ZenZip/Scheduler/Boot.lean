import ZenZip.Scheduler.Occurrences
import ZenZip.Lib.Rely

namespace ZenZip

open Lib

namespace ScheduleDef

inductive Missed (d : ScheduleDef) (now : Time) : Time → List Time → Prop
  | past (t) (h : now < t) : Missed d now t []
  | cons (t t' ts) (h : t ≤ now) (hn : d.nextAfter t = .ok t') (hs : Missed d now t' ts) : Missed d
    now t (t :: ts)

/-- `next_after(t) > t`, for the times between `lo` and `now`. -/
def AdvancesOn (d : ScheduleDef) (lo now : Time) : Prop :=
  ∀ t, lo ≤ t → t ≤ now → ∃ t', d.nextAfter t = .ok t' ∧ t < t'

variable {d : ScheduleDef} {lo now t : Time}

theorem AdvancesOn.missed (h : d.AdvancesOn lo now) (ht : lo ≤ t) : ∃ ts, d.Missed now t ts := by
  have hless {a b c : Int} (h : b ≤ a) (h' : b < c) : (a + 1 - c).toNat < (a + 1 - b).toNat := by
    omega
  generalize hn : (now + 1 - t).toNat = n
  induction n using Nat.strongRecOn generalizing t with
  | ind n ih =>
      by_cases hpast : now < t
      · exact ⟨[], .past t hpast⟩
      · have hle : t ≤ now := Int.not_lt.mp hpast
        obtain ⟨t', hnext, hlt⟩ := h t ht hle
        obtain ⟨ts, hts⟩ := ih _ (hn ▸ hless hle hlt) (Int.le_trans ht (Int.le_of_lt hlt)) rfl
        exact ⟨t :: ts, .cons t t' ts hle hnext hts⟩

end ScheduleDef

/-- What the consumers of a tick get to see. -/
def tickPayload (name : String) (firedAt : Time) : Payload := (tickJob name firedAt 0).payload

/-- What a scheduler does about one schedule. -/
inductive Deed
  | counted (active : Nat)
  | pushed (payload : Payload)
  deriving DecidableEq

def tick (name : String) (firedAt : Time) : Deed := .pushed (tickPayload name firedAt)

def deed? (name : String) : Event SchedVal → Option Deed
  | ⟨.store (.activeCount queue), .ok n⟩ =>
      if queue = scheduleQueueName name then some (.counted n) else none
  | ⟨.store (.push job _ _), .ok _⟩ =>
      if job.queue = scheduleQueueName name then some (.pushed job.payload) else none
  | _ => none

def deeds (name : String) (es : List (Event SchedVal)) : List Deed := es.filterMap (deed? name)

namespace SchedState

/-- One node: nobody else writes a row of `schedules`. -/
def alone : Place SchedVal SchedState where
  others s s' := s'.schedules = s.schedules
  answers s op s' r := ∃ ch, s.exec ch op = some (s', r)

def unfailing : Place SchedVal SchedState := alone.only (fun ev => ¬ ev.failed)

def cursor (s : SchedState) (name : String) : Option Time :=
  (s.schedules.get? name).map (·.nextRunAt)

def dueOf (s : SchedState) (name : String) (now : Time) : List ScheduleRow :=
  (s.dueSchedules now).filter (fun r => r.name = name)

structure Only (name : String) (s s' : SchedState) (es : List (Event SchedVal)) : Prop where
  rows : ∀ k, k ≠ name → s'.schedules.get? k = s.schedules.get? k
  deeds : ∀ k, k ≠ name → ZenZip.deeds k es = []

variable {s s₁ s₂ s' : SchedState} {name : String} {es es' : List (Event SchedVal)} {α : Type}

theorem Only.append (h : Only name s s₁ es) (h' : Only name s₁ s' es') :
    Only name s s' (es ++ es') where
  rows k hk := (h'.rows k hk).trans (h.rows k hk)
  deeds k hk := by
    rw [ZenZip.deeds, List.filterMap_append]
    show ZenZip.deeds k es ++ ZenZip.deeds k es' = []
    rw [h.deeds k hk, h'.deeds k hk, List.append_nil]

theorem dueOf_eq (name : String) (now : Time) :
    s.dueOf name now = ((s.schedules.get? name).filter (due now)).toList := by
  cases hget : s.schedules.get? name with
  | none =>
      rw [dueOf, List.filter_eq_nil_iff.mpr]
      · rfl
      · intro r hr hname
        have hmem := (Table.mem_select.mp hr).1
        rw [Table.get?_eq_some_iff.mpr ⟨hmem, of_decide_eq_true hname⟩] at hget
        cases hget
  | some row =>
      have hsel := Table.select_key hget
      rw [Table.select] at hsel
      rw [dueOf, dueSchedules, Table.select, List.filter_comm, hsel, List.filter_singleton,
        Option.filter_some]
      cases due now row <;> rfl

/-- The program comes to its end, is about the schedule `name` only, and does what `D` says. -/
def Ends (name : String) (s : SchedState) (D : List Deed → SchedState → Prop)
    (es : List (Event SchedVal))
    (s' : SchedState) (r : Except String Unit) : Prop :=
  r = .ok () ∧ Only name s s' es ∧ D (deeds name es) s'

variable {D D' : List Deed → SchedState → Prop} {r : Except String Unit} {row : ScheduleRow}
  {expected next now : Time}

theorem Ends.cons {ev : Event SchedVal} (h : Ends name s₁ D es s' r) (hev : ∀ k, deed? k ev = none)
    (hs : ∀ k, k ≠ name → s₁.schedules.get? k = s.schedules.get? k) :
    Ends name s D (ev :: es) s' r := by
  obtain ⟨hr, honly, hD⟩ := h
  have hdeeds (k : String) : deeds k (ev :: es) = deeds k es := List.filterMap_cons_none (hev k)
  refine ⟨hr, ⟨fun k hk => (honly.rows k hk).trans (hs k hk), fun k hk => ?_⟩, ?_⟩
  · rw [hdeeds]
    exact honly.deeds k hk
  · rw [hdeeds]
    exact hD

theorem Ends.cons_deed {ev : Event SchedVal} {x : Deed}
    (h : Ends name s₁ (fun ds => D (x :: ds)) es s' r)
    (hx : deed? name ev = some x) (hev : ∀ k, k ≠ name → deed? k ev = none)
    (hs : ∀ k, k ≠ name → s₁.schedules.get? k = s.schedules.get? k) :
    Ends name s D (ev :: es) s' r := by
  obtain ⟨hr, honly, hD⟩ := h
  refine ⟨hr, ⟨fun k hk => (honly.rows k hk).trans (hs k hk), fun k hk => ?_⟩, ?_⟩
  · exact (List.filterMap_cons_none (hev k hk)).trans (honly.deeds k hk)
  · rw [deeds, List.filterMap_cons_some hx]
    exact hD

theorem Ends.append (h : Only name s s₁ es)
    (h' : Ends name s₁ (fun ts => D (deeds name es ++ ts)) es' s' r) :
    Ends name s D (es ++ es') s' r := by
  refine ⟨h'.1, h.append h'.2.1, ?_⟩
  rw [deeds, List.filterMap_append]
  exact h'.2.2

theorem ends_pure (h : D [] s) : unfailing.wp (pure ()) (Ends name s D) s :=
  ⟨rfl, ⟨fun _ _ => rfl, fun _ _ => rfl⟩, h⟩

theorem wp_call {c : SchedCall} {f : c.Ret → SchedM α}
    {Q : List (Event SchedVal) → SchedState → Except String α → Prop}
    (h : ∀ s₁ now, s₁.schedules = s.schedules →
      unfailing.wp (f (c.perform s₁ now).2)
        (fun es => Q (⟨.store c, .ok (c.perform s₁ now).2⟩ :: es))
        { (c.perform s₁ now).1 with clock := now }) :
    unfailing.wp (Scheduler.call c >>= f) Q s := by
  refine Place.wp_bind (Place.wp_op (fun s₁ s₂ r ho ha => ?_))
  obtain ⟨⟨ch, he⟩, hgood⟩ := ha
  cases ch with
  | ok now =>
      cases he
      exact h s₁ now ho
  | fail e =>
      cases he
      exact absurd ⟨e, rfl⟩ hgood
  | draw | outcome => cases he

theorem wp_attempt_call {c : SchedCall} {f : Except String c.Ret → SchedM α}
    {Q : List (Event SchedVal) → SchedState → Except String α → Prop}
    (h : unfailing.wp (Scheduler.call c >>= fun v => f (.ok v)) Q s) :
    unfailing.wp ((Scheduler.call c).attempt >>= f) Q s := by
  intro s₁ s₂ r ho ha
  have hr := h s₁ s₂ r ho ha
  cases r with
  | ok v => exact hr
  | error e => exact absurd ⟨e, rfl⟩ ha.2

theorem ends_call {c : SchedCall} {f : c.Ret → SchedM Unit}
    (hc : ∀ v k, deed? k ⟨.store c, .ok v⟩ = none)
    (h : ∀ s₁ now, s₁.schedules = s.schedules →
      (∀ k, k ≠ name → (c.perform s₁ now).1.schedules.get? k = s.schedules.get? k) ∧
        unfailing.wp (f (c.perform s₁ now).2)
          (Ends name { (c.perform s₁ now).1 with clock := now } D)
          { (c.perform s₁ now).1 with clock := now }) :
    unfailing.wp (Scheduler.call c >>= f) (Ends name s D) s := by
  refine wp_call (fun s₁ now hs => ?_)
  obtain ⟨hrows, hf⟩ := h s₁ now hs
  exact Place.wp_mono hf (fun es s' r hr => hr.cons (hc _) hrows)

theorem scheduleClaimTick_true (hget : s.schedules.get? name = some row) (next now : Time) :
    (s.scheduleClaimTick name row.nextRunAt next now).2 = true := by
  have hmem : row ∈ s.schedules.select (atTick name row.nextRunAt) := by
    rw [Table.mem_select, atTick, Bool.and_eq_true, decide_eq_true_eq, decide_eq_true_eq]
    exact ⟨Table.mem_of_get? hget, Table.key_of_get? hget, rfl⟩
  rw [scheduleClaimTick, List.isEmpty_eq_false_iff_exists_mem.mpr ⟨row, hmem⟩]
  rfl

theorem ends_claimTick {f : Bool → SchedM Unit} (hget : s.schedules.get? name = some row)
    (h : ∀ s₂, (∀ k, s₂.schedules.get? k = if k = name then some (tickedRow next now row)
      else s.schedules.get? k) →
      unfailing.wp (f true) (Ends name s₂ D) s₂) :
    unfailing.wp (Scheduler.call (.claimTick name row.nextRunAt next now) >>= f)
      (Ends name s D) s := by
  refine ends_call (fun _ _ => rfl) (fun s₁ at' hs => ?_)
  have hget₁ : s₁.schedules.get? name = some row := by rw [hs, hget]
  have htrue := scheduleClaimTick_true hget₁ next now
  obtain he | ⟨row', hget', _, s₂, he, _, _, _, hrows⟩ :=
    s₁.scheduleClaimTick_cases name row.nextRunAt next now
  · rw [he] at htrue
    cases htrue
  · obtain rfl : row = row' := Option.some.inj (hget₁.symm.trans hget')
    rw [hs] at hrows
    have he' : (SchedCall.claimTick name row.nextRunAt next now).perform s₁ at' = (s₂, true) := he
    rw [he']
    exact ⟨fun k hk => (hrows k).trans (if_neg hk), h _ hrows⟩

theorem ends_bind {D₁ : List Deed → SchedState → Prop} {p : SchedM Unit} {f : Unit → SchedM Unit}
    (hp : unfailing.wp p (Ends name s D₁) s)
    (hf : ∀ ds s₁, D₁ ds s₁ → unfailing.wp (f ()) (Ends name s₁ (fun ds' => D (ds ++ ds'))) s₁) :
    unfailing.wp (p >>= f) (Ends name s D) s := by
  refine Place.wp_bind (Place.wp_mono hp (fun es s₁ r hr => ?_))
  obtain ⟨rfl, honly, hD₁⟩ := hr
  exact Place.wp_mono (hf _ s₁ hD₁) (fun es' s' r' hr' => .append honly hr')

variable {d : ScheduleDef} {ts : List Time} {n : Nat}

theorem ends_push (firedAt delay occurrence : Time) :
    unfailing.wp
      (Scheduler.call (.push (tickJob d.name firedAt delay) d.name occurrence) >>= fun _ => pure ())
      (Ends d.name s (fun ds s' => ds = [tick d.name firedAt] ∧ s'.schedules = s.schedules)) s := by
  refine wp_call
    (fun s₁ at' hs => ⟨rfl, ⟨fun k _ => congrArg (·.get? k) hs, fun k hk => ?_⟩, ?_, hs⟩)
  · exact List.filterMap_cons_none (if_neg (fun h => hk (scheduleQueueName_inj h).symm))
  · exact List.filterMap_cons_some (if_pos rfl)

theorem ends_fire (occurrence firedAt : Time) : unfailing.wp (Scheduler.fire d occurrence firedAt)
    (Ends d.name s (fun ds s' => ds = [tick d.name firedAt] ∧ s'.schedules = s.schedules)) s := by
  unfold Scheduler.fire Scheduler.delayOf
  split
  · intro s₁ s₂ r ho ha
    obtain ⟨⟨ch, he⟩, hgood⟩ := ha
    have hs : s₂.schedules = s.schedules ∧ ∃ n, r = .ok n := by
      cases ch with
      | draw n =>
          simp only [exec] at he
          split at he
          · cases he
            exact ⟨ho, n, rfl⟩
          · cases he
      | ok | fail | outcome => cases he
    obtain ⟨hs, n, rfl⟩ := hs
    refine Place.wp_mono (ends_push firedAt n occurrence) (fun es s' r hr => ?_)
    refine .cons ⟨hr.1, hr.2.1, ?_⟩ (fun _ => rfl) (fun k _ => congrArg (·.get? k) hs)
    exact ⟨hr.2.2.1, hr.2.2.2.trans hs⟩
  · exact ends_push firedAt 0 occurrence

def PastNow (name : String) (now : Time) (s : SchedState) : Prop :=
  ∃ row, s.schedules.get? name = some row ∧ now < row.nextRunAt

theorem ends_drop (hget : s.schedules.get? d.name = some row) (hlt : now < next) :
    unfailing.wp (Scheduler.call (.claimTick d.name row.nextRunAt next now) >>= fun _ => pure ())
      (Ends d.name s (fun ds s' => ds = [] ∧ PastNow d.name now s')) s :=
  ends_claimTick hget
    (fun _ hrows => ends_pure ⟨rfl, tickedRow next now row, (hrows d.name).trans (if_pos rfl), hlt⟩)

/-- The replay fires the missed occurrences in order until its fires are used up, by induction on
the fires left. -/
theorem ends_replay (hget : s.schedules.get? d.name = some row)
    (hmissed : d.Missed now row.nextRunAt ts)
    (hnext : d.nextAfter now = .ok next) (hlt : now < next) :
    unfailing.wp (Scheduler.replay d now n row.nextRunAt)
      (Ends d.name s (fun ds s' => ds = (ts.take n).map (tick d.name) ∧ PastNow d.name now s'))
        s := by
  induction n generalizing s row ts with
  | zero =>
      unfold Scheduler.replay
      rw [List.take_zero, List.map_nil]
      split
      · rw [hnext]
        exact ends_drop hget hlt
      · next hpast => exact ends_pure ⟨rfl, row, hget, Int.not_le.mp hpast⟩
  | succ n ih =>
      unfold Scheduler.replay
      split
      · next hle =>
          cases hmissed with
          | past _ h => exact absurd hle (Int.not_le.mpr h)
          | cons _ t' ts' _ hn hs =>
              rw [hn]
              refine ends_claimTick hget (fun s₂ hrows => ?_)
              have hget₂ : s₂.schedules.get? d.name = some (tickedRow t' now row) :=
                (hrows d.name).trans (if_pos rfl)
              refine ends_bind (ends_fire row.nextRunAt row.nextRunAt) (fun ds s₃ hfired => ?_)
              obtain ⟨rfl, hsame⟩ := hfired
              refine Place.wp_mono (ih (hsame ▸ hget₂) hs) (fun es s' r hr => ?_)
              obtain ⟨hr, honly, hds, hpast⟩ := hr
              refine ⟨hr, honly, ?_, hpast⟩
              rw [hds]
              rfl
      · next hpast =>
          cases hmissed with
          | past _ h => exact ends_pure ⟨rfl, row, hget, h⟩
          | cons _ _ _ h => exact absurd h hpast

/-- What boot owes a schedule whose cursor it finds at `missed`: the ticks it pushes, and where it
leaves the cursor. -/
def CaughtUp (d : ScheduleDef) (now missed : Time) (ds : List Deed) (s : SchedState) : Prop :=
  match d.catchup with
  | .all =>
      ∃ ts, d.Missed now missed ts ∧ ds = (ts.take maxCatchupFires).map (tick d.name) ∧
        PastNow d.name now s
  | .skip => ds = [] ∧ PastNow d.name now s
  | .runOnce => ds = [] ∧ ∃ row, s.dueOf d.name now = [row] ∧ row.nextRunAt = missed

theorem CaughtUp.congr {missed : Time} {ds : List Deed} (h : CaughtUp d now missed ds s)
    (hs : s'.schedules.get? d.name = s.schedules.get? d.name) : CaughtUp d now missed ds s' := by
  unfold CaughtUp PastNow at h ⊢
  rw [dueOf_eq] at h ⊢
  rw [hs]
  exact h

variable {lo : Time} {defs : List ScheduleDef}

theorem ends_catchUp (hget : s.schedules.get? d.name = some row) (henabled : row.enabled = true)
    (hdue : row.nextRunAt ≤ now) (hadv : d.AdvancesOn lo now) (hlo : lo ≤ row.nextRunAt) :
    unfailing.wp (Scheduler.catchUp d now row.nextRunAt)
      (Ends d.name s (CaughtUp d now row.nextRunAt)) s := by
  obtain ⟨next, hnext, hlt⟩ := hadv now (Int.le_trans hlo hdue) (Int.le_refl now)
  unfold Scheduler.catchUp CaughtUp
  cases d.catchup with
  | skip =>
      rw [hnext]
      exact ends_drop hget hlt
  | runOnce =>
      refine ends_pure ⟨rfl, row, ?_, rfl⟩
      have hrow : due now row = true := by
        rw [due, henabled, Bool.true_and]
        exact decide_eq_true hdue
      rw [dueOf_eq, hget, Option.filter_some, if_pos hrow]
      rfl
  | all =>
      obtain ⟨ts, hts⟩ := hadv.missed hlo
      refine Place.wp_mono (ends_replay hget hts hnext hlt) (fun es s' r hr => ?_)
      exact ⟨hr.1, hr.2.1, ts, hts, hr.2.2⟩

def booted (d : ScheduleDef) (next : Time) : ScheduleRow where
  name := d.name
  spec := d.spec
  overlap := d.overlap
  catchup := d.catchup
  nextRunAt := next
  lastRunAt := none
  enabled := true

theorem merged_booted (d : ScheduleDef) (next : Time) (existing : Option ScheduleRow) :
    (∃ row, existing = some row ∧ row.spec = d.spec ∧ (booted d next).merged existing =
      { booted d next with
          nextRunAt := row.nextRunAt, lastRunAt := row.lastRunAt, enabled := true }) ∨
    (((booted d next).merged existing).nextRunAt = next ∧ ∀ row, existing = some row →
    row.spec ≠ d.spec) := by
  cases existing with
  | none => exact .inr ⟨rfl, nofun⟩
  | some row =>
      by_cases hspec : row.spec = d.spec
      · exact .inl ⟨row, rfl, hspec, if_pos hspec⟩
      · refine .inr ⟨?_, fun row' h => Option.some.inj h ▸ hspec⟩
        have hmerged : (booted d next).merged (some row) =
          { booted d next with lastRunAt := none, enabled := true } :=
          if_neg hspec
        rw [hmerged]
        rfl

theorem ends_bootOne (hadv : d.AdvancesOn lo now) (hnow : lo ≤ now)
    (hlo : ∀ row, s.schedules.get? d.name = some row → lo ≤ row.nextRunAt) :
    unfailing.wp (Scheduler.bootOne now d)
      (Ends d.name s (fun ds s' => ∀ row, s.schedules.get? d.name = some row →
      row.spec = d.spec → row.nextRunAt ≤ now → CaughtUp d now row.nextRunAt ds s')) s := by
  obtain ⟨next, hnext, hlt⟩ := hadv now hnow (Int.le_refl now)
  unfold Scheduler.bootOne Scheduler.upsertSchedule
  rw [hnext]
  refine Place.wp_bind_bind
    (ends_call (fun _ _ => rfl) (fun s₁ at₁ hs₁ => ⟨fun k _ => congrArg (·.get? k) hs₁, ?_⟩))
  refine ends_call (fun _ _ => rfl) (fun s₂ at₂ hs₂ => ?_)
  -- the row that is written is the one that is read, where the spec is the same
  have hrows (k : String) := s₂.get?_writeSchedule (booted d next) (s₁.readSchedule d.name) k
  have hread : s₁.readSchedule d.name = s.schedules.get? d.name := congrArg (·.get? d.name) hs₁
  refine ⟨fun k hk => ?_, ?_⟩
  · refine (hrows k).trans ?_
    rw [if_neg (show k ≠ (booted d next).name from hk), hs₂]
  · have hget :
      ((SchedCall.writeSchedule (booted d next) (s₁.readSchedule d.name)).perform s₂
        at₂).1.schedules.get? d.name =
        some ((booted d next).merged (s₁.readSchedule d.name)) := (hrows d.name).trans (if_pos rfl)
    show unfailing.wp (if ((booted d next).merged (s₁.readSchedule d.name)).nextRunAt ≤ now
      then Scheduler.catchUp d now ((booted d next).merged (s₁.readSchedule d.name)).nextRunAt
        else pure ()) _ _
    rw [hread]
    obtain ⟨row, hrow, hspec, hmerged⟩ | ⟨hnew, hother⟩ :=
      merged_booted d next (s.schedules.get? d.name)
    · have hstored :=
        hget.trans (congrArg some ((congrArg (booted d next).merged hread).trans hmerged))
      rw [hmerged]
      split
      · next hdue =>
          refine Place.wp_mono (ends_catchUp hstored rfl hdue hadv (hlo row hrow))
            (fun es s' r hr => ?_)
          refine ⟨hr.1, hr.2.1, fun row' hrow' _ _ => ?_⟩
          obtain rfl : row = row' := Option.some.inj (hrow.symm.trans hrow')
          exact hr.2.2
      · next hdue =>
          refine ends_pure (fun row' hrow' _ hle => ?_)
          obtain rfl : row = row' := Option.some.inj (hrow.symm.trans hrow')
          exact absurd hle hdue
    · rw [hnew, if_neg (Int.not_le.mpr hlt)]
      exact ends_pure (fun row hrow hspec _ => absurd hspec (hother row hrow))

/-- A loop over schedules with different names does for each of them what its own round does. -/
theorem wp_forM_each {A : Type} (key : A → String) {f : A → SchedM Unit}
    {D : A → List Deed → SchedState → Prop}
    (hD : ∀ a ds s s', D a ds s → s'.schedules.get? (key a) = s.schedules.get? (key a) → D a ds s')
    {items : List A}
    (hkeys : (items.map key).Nodup) (hf : ∀ a ∈ items, ∀ s₁ : SchedState,
      s₁.schedules.get? (key a) = s.schedules.get? (key a) → unfailing.wp (f a)
        (Ends (key a) s₁ (D a)) s₁) :
    unfailing.wp (forM items f)
      (fun es s' r => r = .ok () ∧ ∀ a ∈ items, D a (deeds (key a) es) s') s := by
  -- the rows still to come are untouched, the others are as their round has left them
  let I (as : List A) (es : List (Event SchedVal)) (s' : SchedState) : Prop :=
    ∃ done, items = done ++ as ∧ (∀ a ∈ done, D a (deeds (key a) es) s') ∧
      ∀ a ∈ as, s'.schedules.get? (key a) = s.schedules.get? (key a) ∧ deeds (key a) es = []
  refine Place.wp_forM (Q := fun es s' r => r = .ok () ∧ ∀ a ∈ items, D a (deeds (key a) es) s') I
    (fun a as es s₁ hI => ?_)
    (fun es s' hI => ?_) items [] s ⟨[], rfl, nofun, fun a _ => ⟨rfl, rfl⟩⟩
  · obtain ⟨done, rfl, hdone, hrest⟩ := hI
    obtain ⟨hget, hnone⟩ := hrest a List.mem_cons_self
    refine Place.wp_mono (hf a (List.mem_append_right _ List.mem_cons_self) s₁ hget)
      (fun es' s' r hr => ?_)
    obtain ⟨rfl, honly, hdid⟩ := hr
    have happend (name : String) : deeds name (es ++ es') = deeds name es ++ deeds name es' :=
      List.filterMap_append
    have hne {b : A} (hb : b ∈ done ∨ b ∈ as) : key b ≠ key a := by
      rw [List.map_append, List.map_cons] at hkeys
      obtain ⟨_, hcons, hdisj⟩ := List.nodup_append.mp hkeys
      rcases hb with hb | hb
      · exact hdisj _ (List.mem_map_of_mem hb) _ List.mem_cons_self
      · exact fun heq => (List.nodup_cons.mp hcons).1 (heq ▸ List.mem_map_of_mem hb)
    refine ⟨done ++ [a], by rw [List.append_assoc]; rfl, fun b hb => ?_, fun b hb => ⟨?_, ?_⟩⟩
    · rcases List.mem_append.mp hb with hb | hb
      · rw [happend, honly.deeds _ (hne (.inl hb)), List.append_nil]
        exact hD b _ s₁ s' (hdone b hb) (honly.rows _ (hne (.inl hb)))
      · obtain rfl := List.mem_singleton.mp hb
        rw [happend, hnone, List.nil_append]
        exact hdid
    · exact (honly.rows _ (hne (.inr hb))).trans (hrest b (List.mem_cons_of_mem _ hb)).1
    · rw [happend, (hrest b (List.mem_cons_of_mem _ hb)).2, honly.deeds _ (hne (.inr hb))]
      rfl
  · obtain ⟨done, rfl, hdone, _⟩ := hI
    rw [List.append_nil]
    exact ⟨rfl, hdone⟩

def Booted (defs : List ScheduleDef) (now : Time) (s : SchedState) (es : List (Event SchedVal))
    (s' : SchedState) : Prop :=
  ∀ d ∈ defs, ∀ row, s.schedules.get? d.name = some row → row.spec = d.spec → row.nextRunAt ≤ now →
    CaughtUp d now row.nextRunAt (deeds d.name es) s'

theorem wp_boot (hnames : (defs.map ScheduleDef.name).Nodup)
    (hadv : ∀ d ∈ defs, d.AdvancesOn lo now) (hnow : lo ≤ now)
    (hlo : ∀ d ∈ defs, ∀ row, s.schedules.get? d.name = some row → lo ≤ row.nextRunAt) :
    unfailing.wp (forM defs (Scheduler.bootOne now))
      (fun es s' r => r = .ok () ∧ Booted defs now s es s') s := by
  refine wp_forM_each ScheduleDef.name
    (D := fun d ds s' => ∀ row, s.schedules.get? d.name = some row →
    row.spec = d.spec → row.nextRunAt ≤ now → CaughtUp d now row.nextRunAt ds s') ?_ hnames
      (fun d hd s₁ hs₁ => ?_)
  · exact fun d ds s₁ s₂ h hs row hrow hspec hdue => (h row hrow hspec hdue).congr hs
  · rw [← hs₁]
    exact ends_bootOne (hadv d hd) hnow (fun row hrow => hlo d hd row (hs₁ ▸ hrow))

def Dealt (d : ScheduleDef) (now : Time) (ds : List Deed) : Prop :=
  match d.overlap with
  | .skip => ∃ n, ds = .counted n :: if n = 0 then [tick d.name now] else []
  | .allow | .queue => ds = [tick d.name now]

theorem ends_attempt_fire (occurrence firedAt : Time) :
    unfailing.wp ((Scheduler.fire d occurrence firedAt).attempt >>= fun _ => pure ())
      (Ends d.name s (fun ds s' => ds = [tick d.name firedAt] ∧ s'.schedules = s.schedules)) s := by
  refine Place.wp_bind
    (Place.wp_attempt (Place.wp_mono (ends_fire occurrence firedAt) (fun es s' r hr => ?_)))
  have hends : Ends d.name s (fun ds s' => ds = [tick d.name firedAt] ∧ s'.schedules = s.schedules)
    es s' (.ok ()) :=
    ⟨rfl, hr.2⟩
  rw [← List.append_nil es] at hends
  exact hends

theorem ends_mayFire (occurrence : Time) (hpast : PastNow d.name now s) :
    unfailing.wp (Scheduler.mayFire d >>= fun b =>
        if b then (Scheduler.fire d occurrence now).attempt >>= fun _ => pure () else pure ())
      (Ends d.name s (fun ds s' => Dealt d now ds ∧ PastNow d.name now s')) s := by
  have hpast' {s s' : SchedState} (hs : s'.schedules = s.schedules) (h : PastNow d.name now s) :
    PastNow d.name now s' := by
    rw [PastNow, hs]
    exact h
  unfold Scheduler.mayFire Dealt
  cases d.overlap with
  | allow | queue =>
      refine Place.wp_mono (ends_attempt_fire occurrence now) (fun es s' r hr => ?_)
      exact ⟨hr.1, hr.2.1, hr.2.2.1, hpast' hr.2.2.2 hpast⟩
  | skip =>
      refine Place.wp_bind_bind (wp_attempt_call (wp_call (fun s₁ at' hs => ?_)))
      have hfires (s₂ : SchedState) (n : Nat) (h : PastNow d.name now s₂) : unfailing.wp
          (if decide (n = 0) then (Scheduler.fire d occurrence now).attempt >>= fun _ => pure ()
            else pure ())
          (Ends d.name s₂
            (fun ds s' => ds = (if n = 0 then [tick d.name now] else []) ∧ PastNow d.name now s'))
              s₂ := by
        by_cases hn : n = 0
        · rw [if_pos (decide_eq_true hn), if_pos hn]
          refine Place.wp_mono (ends_attempt_fire occurrence now) (fun es s' r hr => ?_)
          exact ⟨hr.1, hr.2.1, hr.2.2.1, hpast' hr.2.2.2 h⟩
        · rw [if_neg (by rwa [decide_eq_true_eq]), if_neg hn]
          exact ends_pure ⟨rfl, h⟩
      have hpast₁ : PastNow d.name now { s₁ with clock := at' } := hpast' hs hpast
      refine Place.wp_mono (hfires _ (s₁.activeCount (scheduleQueueName d.name)) hpast₁)
        (fun es s' r hr => ?_)
      refine Ends.cons_deed
        ⟨hr.1, hr.2.1, ⟨s₁.activeCount (scheduleQueueName d.name), ?_⟩, hr.2.2.2⟩ (if_pos rfl)
        (fun k hk => if_neg (fun h => hk (scheduleQueueName_inj h).symm))
          (fun k _ => congrArg (·.get? k) hs)
      rw [hr.2.2.1]
      rfl

theorem ends_tickDue (hget : s.schedules.get? d.name = some row)
    (hfind : defs.find? (fun d => d.name = row.name) = some d)
    (hadv : ∀ t, d.nextAfter now = .ok t → now < t) :
    unfailing.wp (Scheduler.tickDue defs now row)
      (Ends d.name s (fun ds s' => Dealt d now ds ∧ PastNow d.name now s')) s := by
  have hlt : now < (d.nextAfter now).toOption.getD (now + 60000) := by
    cases hnext : d.nextAfter now with
    | ok t => exact hadv t hnext
    | error e => exact Int.lt_add_of_pos_right now (by decide)
  unfold Scheduler.tickDue
  rw [hfind]
  refine wp_attempt_call (ends_claimTick hget (fun s₂ hrows => ?_))
  exact ends_mayFire row.nextRunAt ⟨_, (hrows d.name).trans (if_pos rfl), hlt⟩

theorem wp_round (hnames : (defs.map ScheduleDef.name).Nodup)
    (hadv : ∀ d ∈ defs, ∀ t, d.nextAfter now = .ok t → now < t)
    (due : List ScheduleRow) (hdue : due = s.dueSchedules now) :
    unfailing.wp (forM due (Scheduler.tickDue defs now)) (fun es s' r => r = .ok () ∧ ∀ row ∈ due,
      ∀ d ∈ defs, d.name = row.name → Dealt d now (deeds row.name es) ∧ PastNow row.name now s')
        s := by
  have hrows : (due.map ScheduleRow.name).Nodup := by
    rw [hdue]
    exact s.schedules.nodup.sublist (List.filter_sublist.map _)
  refine wp_forM_each ScheduleRow.name (D := fun row ds s' => ∀ d ∈ defs, d.name = row.name →
    Dealt d now ds ∧ PastNow row.name now s') ?_ hrows (fun row hrow s₁ hs₁ => ?_)
  · intro row ds s₁ s₂ h hs d hd hname
    refine ⟨(h d hd hname).1, ?_⟩
    rw [PastNow, hs]
    exact (h d hd hname).2
  · have hget : s₁.schedules.get? row.name = some row := by
      rw [hdue] at hrow
      exact hs₁.trans (Table.get?_eq_some_iff.mpr ⟨(Table.mem_select.mp hrow).1, rfl⟩)
    cases hfind : defs.find? (fun d => d.name = row.name) with
    | none =>
        unfold Scheduler.tickDue
        rw [hfind]
        refine ends_pure (fun d hd hname => ?_)
        exact absurd (decide_eq_true hname) (List.find?_eq_none.mp hfind d hd)
    | some d =>
        have hd : d ∈ defs := List.mem_of_find?_eq_some hfind
        have hname : d.name = row.name := by simpa using List.find?_some hfind
        rw [← hname] at hget ⊢
        refine Place.wp_mono (ends_tickDue hget hfind (hadv d hd)) (fun es s' r hr => ?_)
        refine ⟨hr.1, hr.2.1, fun d' hd' hname' => ?_⟩
        obtain rfl : d' = d := List.inj_on_of_nodup_map hnames hd' hd hname'
        exact hr.2.2

section Strict

theorem strict_ofResult {x : Except String α} : (Scheduler.ofResult x).Strict := by
  cases x with
  | ok a | error e => trivial

theorem strict_fire (d : ScheduleDef) (occurrence firedAt : Time) :
    (Scheduler.fire d occurrence firedAt).Strict := by
  refine Prog.Strict.bind ?_ (fun _ => (Prog.strict_op _).bind (fun _ => trivial))
  unfold Scheduler.delayOf
  split
  · exact Prog.strict_op _
  · trivial

theorem strict_replay (d : ScheduleDef) (now : Time) (n : Nat) (t : Time) :
    (Scheduler.replay d now n t).Strict := by
  induction n generalizing t with
  | zero =>
      unfold Scheduler.replay
      split
      · exact strict_ofResult.bind (fun _ => (Prog.strict_op _).bind (fun _ => trivial))
      · trivial
  | succ n ih =>
      unfold Scheduler.replay
      split
      · refine strict_ofResult.bind (fun next => (Prog.strict_op _).bind (fun claimed => ?_))
        split
        · exact (strict_fire d t t).bind (fun _ => ih next)
        · trivial
      · trivial

theorem strict_upsertSchedule (row : ScheduleRow) : (Scheduler.upsertSchedule row).Strict :=
  (Prog.strict_op _).bind (fun _ => Prog.strict_op _)

theorem strict_bootOne (now : Time) (d : ScheduleDef) : (Scheduler.bootOne now d).Strict := by
  refine strict_ofResult.bind (fun _ => (strict_upsertSchedule _).bind (fun _ => ?_))
  split
  · unfold Scheduler.catchUp
    split
    · exact strict_ofResult.bind (fun _ => (Prog.strict_op _).bind (fun _ => trivial))
    · trivial
    · exact strict_replay d now _ _
  · trivial

theorem strict_boot (defs : List ScheduleDef) : (Scheduler.boot defs).Strict :=
  (Prog.strict_op _).bind (fun now => Prog.strict_forM (strict_bootOne now) defs)

end Strict

/-- Every round of the loop from `s` on, at a reading not before `now`, deals with the schedule once
and leaves its cursor past the reading. -/
def DealsOnce (defs : List ScheduleDef) (d : ScheduleDef) (now : Time) (s : SchedState) : Prop :=
  ∀ now' es s' r, now ≤ now' → (∀ d ∈ defs, ∀ t, d.nextAfter now' = .ok t → now' < t) →
    alone.Runs s (Scheduler.tickAll defs) (⟨.nowMs, .ok now'⟩ :: es) s' r →
      (∀ ev ∈ es, ¬ ev.failed) →
    Dealt d now' (deeds d.name es) ∧ PastNow d.name now' s'

theorem runs_of_nowMs {f : Time → SchedM Unit}
    (h : alone.Runs s (Scheduler.nowMs >>= f) (⟨.nowMs, .ok now⟩ :: es) s' r) :
    ∃ s₁, s₁.schedules = s.schedules ∧ alone.Runs s₁ (f now) es s' r := by
  obtain ⟨s₁, s₂, ho, ⟨ch, he⟩, hrun⟩ := Place.Runs.of_op h
  refine ⟨s₂, ?_, hrun⟩
  cases ch with
  | ok now' =>
      cases he
      exact ho
  | fail | draw | outcome => cases he

theorem dealsOnce_of_due (hnames : (defs.map ScheduleDef.name).Nodup) (hd : d ∈ defs)
    (hdue : s.dueOf d.name now = [row]) : DealsOnce defs d now s := by
  intro now' es s' r hle hadv h hgood
  obtain ⟨s₁, hs₁, h⟩ := runs_of_nowMs h
  refine (h.only hgood).post
    (Q := fun es s' _ => Dealt d now' (deeds d.name es) ∧ PastNow d.name now' s')
    (wp_attempt_call (wp_call (fun s₂ at' hs₂ => ?_)))
  have hmem : row ∈ s₂.dueSchedules now' ∧ d.name = row.name := by
    have hrow : row ∈ s.dueOf d.name now := hdue ▸ List.mem_cons_self
    obtain ⟨hsel, hname⟩ := List.mem_filter.mp hrow
    obtain ⟨hrows, hreached⟩ := Table.mem_select.mp hsel
    rw [SchedState.due, Bool.and_eq_true, decide_eq_true_eq] at hreached
    refine ⟨Table.mem_select.mpr ⟨?_, ?_⟩, (of_decide_eq_true hname).symm⟩
    · rw [hs₂, hs₁]
      exact hrows
    · rw [SchedState.due, hreached.1, Bool.true_and]
      exact decide_eq_true (Int.le_trans hreached.2 hle)
  refine Place.wp_mono (wp_round hnames hadv (s₂.dueSchedules now') rfl) (fun es s' r hr => ?_)
  have hdid := hr.2 row hmem.1 d hd hmem.2
  rw [← hmem.2] at hdid
  exact hdid

/-- A boot at `now` that no call fails returns. One that returns has replayed the missed occurrences
of every schedule in order, at most 100 of them, or dropped them, and its cursor is past `now`; or
it has left the one due tick to the loop, which deals with it once. -/
theorem boot_catches_up (hnames : (defs.map ScheduleDef.name).Nodup)
    (hadv : ∀ d ∈ defs, d.AdvancesOn lo now)
    (hnow : lo ≤ now)
    (hlo : ∀ d ∈ defs, ∀ row, s.schedules.get? d.name = some row → lo ≤ row.nextRunAt)
    (h : alone.Runs s (Scheduler.boot defs) (⟨.nowMs, .ok now⟩ :: es) s' r) :
    ((∀ ev ∈ es, ¬ ev.failed) → r = .ok ()) ∧
    (r = .ok () → ∀ d ∈ defs, ∀ row, s.schedules.get? d.name = some row → row.spec = d.spec →
    row.nextRunAt ≤ now →
      CaughtUp d now row.nextRunAt (deeds d.name es) s' ∧
      (d.catchup = .runOnce → DealsOnce defs d now s')) := by
  have hstrict := strict_boot defs
  obtain ⟨s₁, hs₁, hrun⟩ := runs_of_nowMs h
  have hboot (hgood : ∀ ev ∈ es, ¬ ev.failed) : r = .ok () ∧ Booted defs now s₁ es s' := by
    refine (hrun.only hgood).post (wp_boot hnames hadv hnow ?_)
    rw [hs₁]
    exact hlo
  refine ⟨fun hgood => (hboot hgood).1, ?_⟩
  rintro rfl d hd row hrow hspec hdue
  have hgood := hstrict.not_failed h
  have hcaught := (hboot (List.forall_mem_cons.mp hgood).2).2 d hd row (hs₁ ▸ hrow) hspec hdue
  refine ⟨hcaught, fun hpolicy => ?_⟩
  rw [CaughtUp, hpolicy] at hcaught
  obtain ⟨_, row', hrow', _⟩ := hcaught
  exact dealsOnce_of_due hnames hd hrow'

section Sample

def answerAt (now : Time) (s : SchedState) :
    (op : SchedOp) → Option (SchedState × Except String (SchedVal op))
  | .fastrand hi => s.exec (.draw 0) (.fastrand hi)
  | .handler job => s.exec (.outcome (.ok ())) (.handler job)
  | op => s.exec (.ok now) op

theorem runs_answerAt {p : SchedM Unit} (h : p.exec (answerAt now) s = some (es, s', r)) :
    alone.Runs s p es s' r := by
  refine Prog.exec_runs (fun _ => rfl) (fun s op s' r ha => ?_) h
  cases op with
  | store | nowMs => exact ⟨.ok now, ha⟩
  | fastrand => exact ⟨.draw 0, ha⟩
  | handler => exact ⟨.outcome (.ok ()), ha⟩

/-- So answered, the program returns, and its calls and its last state pass the check. -/
def passes (p : SchedM Unit) (now : Time) (s : SchedState)
    (check : List (Event SchedVal) → SchedState → Bool) : Bool :=
  (p.exec (answerAt now) s).any (fun x => x.2.2.isOk && check x.1 x.2.1)

theorem exists_run {p : SchedM Unit} {now : Time} {s : SchedState}
    {check : List (Event SchedVal) → SchedState → Bool}
    (h : passes p now s check = true) :
    ∃ es s', alone.Runs s p es s' (.ok ()) ∧ check es s' = true := by
  unfold passes at h
  cases hx : p.exec (answerAt now) s with
  | none =>
      rw [hx] at h
      cases h
  | some x =>
      obtain ⟨es, s', r⟩ := x
      rw [hx, Option.any_some, Bool.and_eq_true] at h
      cases r with
      | ok u => exact ⟨es, s', runs_answerAt hx, h.2⟩
      | error e => cases h.1

/-- The schedule has ticked at 100 and its node has been down since. -/
def downSince (d : ScheduleDef) (jobs : List PushJob) : SchedState where
  store := (Store.empty.push jobs 100).1
  schedules := .insert .empty ⟨d.name, d.spec, d.overlap, d.catchup, 200, some 100, true⟩
  claims := []
  fires := []
  clock := 0

/-- Boot at 450 fires the missed occurrences. -/
theorem boot_catches_up_all : ∃ es s', alone.Runs
    (downSince (SchedSys.sampleSchedule .allow .all) [])
    (Scheduler.boot [SchedSys.sampleSchedule .allow .all]) (⟨.nowMs, .ok 450⟩ :: es) s' (.ok ()) ∧
    CaughtUp (SchedSys.sampleSchedule .allow .all) 450 200 (deeds "report" es) s' := by
  have hpasses : passes (forM [SchedSys.sampleSchedule .allow .all] (Scheduler.bootOne 450)) 450
      { downSince (SchedSys.sampleSchedule .allow .all) [] with clock := 450 } (fun _ _ => true) =
        true := by decide +kernel
  obtain ⟨es, s', h, _⟩ := exists_run hpasses
  have hrun : alone.Runs (downSince (SchedSys.sampleSchedule .allow .all) [])
      (Scheduler.boot [SchedSys.sampleSchedule .allow .all]) (⟨.nowMs, .ok 450⟩ :: es) s'
        (.ok ()) :=
    .call rfl ⟨.ok 450, rfl⟩ h
  have hnames : ([SchedSys.sampleSchedule .allow .all].map ScheduleDef.name).Nodup :=
    List.nodup_singleton _
  have hadv : ∀ d ∈ [SchedSys.sampleSchedule .allow .all], d.AdvancesOn 0 450 := by
    intro d hd t _ _
    obtain rfl := List.mem_singleton.mp hd
    exact ⟨t + 100, rfl, Int.lt_add_of_pos_right t (by decide)⟩
  have hlo : ∀ d ∈ [SchedSys.sampleSchedule .allow .all], ∀ row,
      (downSince (SchedSys.sampleSchedule .allow .all) []).schedules.get? d.name = some row →
        0 ≤ row.nextRunAt := by
    intro d hd row hrow
    obtain rfl := List.mem_singleton.mp hd
    cases hrow
    decide
  obtain ⟨_, hboot⟩ := boot_catches_up hnames hadv (by decide) hlo hrun
  exact ⟨es, s', hrun, (hboot rfl _ List.mem_cons_self _ rfl rfl (by decide)).1⟩

/-- The tick of 100 is still waiting for its consumer. Boot leaves the tick of 200 to the loop,
which claims it and pushes nothing. -/
theorem overlapping_fires_none : ∃ es s₁ es' s₂,
    alone.Runs (downSince (SchedSys.sampleSchedule .skip .runOnce) [tickJob "report" 100 0])
      (Scheduler.boot [SchedSys.sampleSchedule .skip .runOnce]) es s₁ (.ok ()) ∧
    (s₁.dueOf "report" 450).map (·.nextRunAt) = [200] ∧
    alone.Runs s₁ (Scheduler.tickAll [SchedSys.sampleSchedule .skip .runOnce]) es' s₂ (.ok ()) ∧
    deeds "report" es' = [.counted 1] ∧ s₂.dueOf "report" 460 = [] := by
  have hpasses : passes (Scheduler.boot [SchedSys.sampleSchedule .skip .runOnce]) 450
      (downSince (SchedSys.sampleSchedule .skip .runOnce) [tickJob "report" 100 0])
      (fun _ s₁ => (s₁.dueOf "report" 450).map (·.nextRunAt) = [200] &&
        passes (Scheduler.tickAll [SchedSys.sampleSchedule .skip .runOnce]) 460 s₁
          (fun es' s₂ => deeds "report" es' = [.counted 1] ∧ s₂.dueOf "report" 460 = [])) =
            true := by decide +kernel
  obtain ⟨es, s₁, h, hnext⟩ := exists_run hpasses
  rw [Bool.and_eq_true, decide_eq_true_eq] at hnext
  obtain ⟨es', s₂, h', hround⟩ := exists_run hnext.2
  obtain ⟨hdeeds, hdue⟩ := of_decide_eq_true hround
  exact ⟨es, s₁, es', s₂, h, hnext.1, h', hdeeds, hdue⟩

end Sample

end SchedState

end ZenZip
