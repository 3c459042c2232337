import ZenZip.Scheduler.Nodes

namespace ZenZip

open Lib

/-- What the calls of a node's thread so far say about it. -/
structure NodeTrack where
  job : Option ClaimedJob
  /-- what the upsert in progress has read -/
  read : Option (String × Option ScheduleRow)
  upserted : List String
  /-- the occurrence claimed and not yet fired -/
  holds : Option (String × Time)
  /-- no tick was active when it counted them -/
  clear : Bool

namespace NodeTrack

def start (job : Option ClaimedJob) : NodeTrack := ⟨job, none, [], none, false⟩

def released (g : NodeTrack) : NodeTrack := { g with holds := none, clear := false }

/-- A count and the draw of a delay stand between a claim and its push; any other
call gives the tick up. -/
def next (g : NodeTrack) : (op : SchedOp) → Except String (SchedVal op) → NodeTrack
  | .store (.readSchedule name), .ok existing => { g.released with read := some (name, existing) }
  | .store (.writeSchedule row _), .ok _ =>
      { g.released with read := none, upserted := row.name :: g.upserted }
  | .store (.claimTick name expected _ _), .ok claimed =>
    { g with holds := if claimed then some (name, expected) else none, clear := false }
  | .store (.activeCount _), .ok n => { g with clear := n = 0 }
  | .store (.activeCount _), .error _ => g
  | .fastrand _, _ => g
  | _, _ => g.released

theorem next_job (g : NodeTrack) (op : SchedOp) (r : Except String (SchedVal op)) :
    (g.next op r).job = g.job := by
  unfold next
  split <;> rfl

def mayCall (R : Schedules) (g : NodeTrack) : SchedCall → Prop
  | .readSchedule _ | .dueSchedules _ => g.job = none
  | .writeSchedule row existing => g.job = none ∧ g.read = some (row.name, existing) ∧
      ∃ d, R.get? row.name = some d ∧ row.spec = d.spec
  | .claimTick name expected next _ => g.job = none ∧ name ∈ g.upserted ∧
      ∃ d, R.get? name = some d ∧ (d.Advances → expected < next)
  | .activeCount queue => g.job = none ∧ ∃ name occurrence, g.holds = some (name, occurrence) ∧
      queue = scheduleQueueName name
  | .push job name occurrence => g.job = none ∧ g.holds = some (name, occurrence) ∧
      ∃ d firedAt delay, R.get? name = some d ∧ job = tickJob name firedAt delay ∧
        (d.overlap = .skip → g.clear = true ∨ d.catchup = .all)
  | .ack id fence | .failDead id _ fence =>
      ∃ job, g.job = some job ∧ job.id = id ∧ job.fence = fence
  | .failRetry id _ _ fence =>
      ∃ job, g.job = some job ∧ job.id = id ∧ job.fence = fence ∧ job.attempt < job.maxAttempts

def allowed (R : Schedules) (g : NodeTrack) : SchedOp → Prop
  | .store c => g.mayCall R c
  | .nowMs | .fastrand _ => True
  | .handler job => g.job = some job

def answers : (op : SchedOp) → Except String (SchedVal op) → Prop
  | .store (.dueSchedules now), .ok rows => ∀ row ∈ rows, row.nextRunAt ≤ now
  | _, _ => True

end NodeTrack

def nodeTracking (R : Schedules) : Discipline SchedVal NodeTrack :=
  ⟨NodeTrack.next, NodeTrack.allowed R, NodeTrack.answers⟩

namespace NodeTrack

variable {R : Schedules} {g : NodeTrack} {α : Type}

theorem wp_call {c : SchedCall} {Q : NodeTrack → Except String c.Ret → Prop} (ha : g.mayCall R c)
    (h : ∀ r, answers (.store c) r → Q (g.next (.store c) r) r) :
    (nodeTracking R).wp (Scheduler.call c) Q g :=
  (Discipline.wp_op _ _ _ _).mpr ⟨ha, h⟩

theorem wp_call_bind {c : SchedCall} {f : c.Ret → SchedM α} {Q : NodeTrack → Except String α → Prop}
    (ha : g.mayCall R c) (he : ∀ e, Q (g.next (.store c) (.error e)) (.error e))
    (hok : ∀ v, answers (.store c) (.ok v) →
    (nodeTracking R).wp (f v) Q (g.next (.store c) (.ok v))) :
    (nodeTracking R).wp (Scheduler.call c >>= f) Q g := by
  rw [Discipline.wp_bind]
  refine wp_call ha (fun r hr => ?_)
  cases r with
  | ok v => exact hok v hr
  | error e => exact he e

theorem wp_nowMs_bind {f : Time → SchedM α} {Q : NodeTrack → Except String α → Prop}
    (he : ∀ e, Q g.released (.error e)) (hok : ∀ now, (nodeTracking R).wp (f now) Q g.released) :
    (nodeTracking R).wp (Scheduler.nowMs >>= f) Q g := by
  rw [Discipline.wp_bind]
  refine (Discipline.wp_op _ _ _ _).mpr ⟨trivial, fun r _ => ?_⟩
  cases r with
  | ok now => exact hok now
  | error e => exact he e

theorem wp_ofResult_bind {β : Type} {x : Except String β} {f : β → SchedM α}
    {Q : NodeTrack → Except String α → Prop}
    (he : ∀ e, Q g (.error e)) (hok : ∀ v, x = .ok v → (nodeTracking R).wp (f v) Q g) :
    (nodeTracking R).wp (Scheduler.ofResult x >>= f) Q g := by
  cases x with
  | ok v => exact hok v rfl
  | error e => exact he e

structure Upserted (names : List String) (g : NodeTrack) : Prop where
  job : g.job = none
  names : names ⊆ g.upserted

variable {names : List String} {d : ScheduleDef}

theorem Upserted.next_claimTick (h : Upserted names g) (name : String) (expected next now : Time)
    (r : Except String Bool) : Upserted names
      (g.next (.store (.claimTick name expected next now)) r) := by
  cases r <;> exact ⟨h.job, h.names⟩

theorem wp_fire {occurrence firedAt : Time} {Q : NodeTrack → Except String Unit → Prop}
    (hd : R.get? d.name = some d)
    (h : Upserted names g) (hh : g.holds = some (d.name, occurrence))
    (hskip : d.overlap = .skip → g.clear = true ∨ d.catchup = .all)
    (hQ : ∀ g r, Upserted names g → Q g r) :
    (nodeTracking R).wp (Scheduler.fire d occurrence firedAt) Q g := by
  have hpush (delay : Int) : (nodeTracking R).wp (do
      let _ ← Scheduler.call (.push (tickJob d.name firedAt delay) d.name occurrence)) Q g :=
    wp_call_bind ⟨h.job, hh, d, firedAt, delay, hd, rfl, hskip⟩ (fun _ => hQ _ _ ⟨h.job, h.names⟩)
      (fun _ _ => hQ _ _ ⟨h.job, h.names⟩)
  rw [Scheduler.fire, Discipline.wp_bind, Scheduler.delayOf]
  split
  · refine (Discipline.wp_op _ _ _ _).mpr ⟨trivial, fun r _ => ?_⟩
    cases r with
    | error e => exact hQ _ _ h
    | ok delay => exact hpush delay
  · exact hpush 0

theorem wp_claimTick_bind {expected next now : Time} {f : Bool → SchedM Unit}
    {Q : NodeTrack → Except String Unit → Prop}
    (hd : R.get? d.name = some d) (h : Upserted names g) (hname : d.name ∈ names)
    (hlt : d.Advances → expected < next)
    (hQ : ∀ g r, Upserted names g → Q g r)
    (hok : ∀ claimed g, Upserted names g → (claimed = true → g.holds = some (d.name, expected)) →
      (nodeTracking R).wp (f claimed) Q g) :
    (nodeTracking R).wp (Scheduler.call (.claimTick d.name expected next now) >>= f) Q g := by
  refine wp_call_bind ⟨h.job, h.names hname, d, hd, hlt⟩
    (fun _ => hQ _ _ (h.next_claimTick _ _ _ _ _)) ?_
  intro claimed _
  refine hok claimed _ (h.next_claimTick _ _ _ _ _) (fun hc => ?_)
  subst hc
  rfl

theorem wp_replay {now : Time} {Q : NodeTrack → Except String Unit → Prop}
    (hd : R.get? d.name = some d)
    (hname : d.name ∈ names) (hall : d.catchup = .all) (hQ : ∀ g r, Upserted names g → Q g r)
    (n : Nat) (t : Time)
    (h : Upserted names g) :
    (nodeTracking R).wp (Scheduler.replay d now n t) Q g := by
  induction n generalizing g t with
  | zero =>
      rw [Scheduler.replay]
      split
      · next hle =>
          refine wp_ofResult_bind (fun _ => hQ _ _ h) (fun next hn => ?_)
          exact wp_claimTick_bind hd h hname (fun ha => Int.lt_of_le_of_lt hle (ha now next hn)) hQ
            (fun _ _ hg _ => hQ _ _ hg)
      · exact hQ _ _ h
  | succ n ih =>
      rw [Scheduler.replay]
      split
      · refine wp_ofResult_bind (fun _ => hQ _ _ h) (fun next hn => ?_)
        refine wp_claimTick_bind hd h hname (fun ha => ha t next hn) hQ (fun claimed g hg hh => ?_)
        cases claimed with
        | false => exact hQ _ _ hg
        | true =>
            show (nodeTracking R).wp
              (Scheduler.fire d t t >>= fun _ => Scheduler.replay d now n next) Q g
            rw [Discipline.wp_bind]
            refine wp_fire hd hg (hh rfl) (fun _ => .inr hall) (fun g r hg => ?_)
            cases r with
            | ok _ => exact ih next hg
            | error e => exact hQ _ _ hg
      · exact hQ _ _ h

theorem wp_catchUp {now missed : Time} {Q : NodeTrack → Except String Unit → Prop}
    (hd : R.get? d.name = some d)
    (hname : d.name ∈ names) (hQ : ∀ g r, Upserted names g → Q g r) (hle : missed ≤ now)
    (h : Upserted names g) :
    (nodeTracking R).wp (Scheduler.catchUp d now missed) Q g := by
  unfold Scheduler.catchUp
  split
  · refine wp_ofResult_bind (fun _ => hQ _ _ h) (fun next hn => ?_)
    exact wp_claimTick_bind hd h hname (fun ha => Int.lt_of_le_of_lt hle (ha now next hn)) hQ
      (fun _ _ hg _ => hQ _ _ hg)
  · exact hQ _ _ h
  · next hall => exact wp_replay hd hname hall hQ maxCatchupFires missed h

def Booting (defs rest : List ScheduleDef) (g : NodeTrack) : Prop :=
  g.job = none ∧ ∀ d ∈ defs, d.name ∈ g.upserted ∨ d ∈ rest

theorem wp_bootOne {now : Time} {defs rest : List ScheduleDef} (hd : R.get? d.name = some d)
    (h : Booting defs (d :: rest) g) : (nodeTracking R).wp (Scheduler.bootOne now d)
      (fun g r => match r with
      | .ok _ => Booting defs rest g
      | .error _ => True) g := by
  refine wp_ofResult_bind (fun _ => trivial) (fun next _ => ?_)
  rw [Discipline.wp_bind]
  refine wp_call_bind h.1 (fun _ => trivial) (fun existing _ => ?_)
  refine wp_call ⟨h.1, rfl, d, hd, rfl⟩ (fun r _ => ?_)
  cases r with
  | error e => trivial
  | ok stored =>
      have hup : Upserted (d.name :: g.upserted)
        { g.released with read := none, upserted := d.name :: g.upserted } :=
        ⟨h.1, List.Subset.refl _⟩
      have hdone (g' : NodeTrack) (r : Except String Unit)
        (hg : Upserted (d.name :: g.upserted) g') : match r with
          | .ok _ => Booting defs rest g'
          | .error _ => True := by
        cases r with
        | error e => trivial
        | ok _ =>
            refine ⟨hg.job, fun d' hd' => ?_⟩
            obtain hu | hm := h.2 d' hd'
            · exact .inl (hg.names (List.mem_cons_of_mem _ hu))
            · rcases List.mem_cons.mp hm with rfl | hm
              · exact .inl (hg.names List.mem_cons_self)
              · exact .inr hm
      show (nodeTracking R).wp (if stored.nextRunAt ≤ now then _ else _) _ _
      split
      · next hle => exact wp_catchUp hd List.mem_cons_self hdone hle hup
      · exact hdone _ (.ok ()) hup

theorem wp_tickDue {defs : List ScheduleDef} {now : Time} {row : ScheduleRow}
    {Q : NodeTrack → Except String Unit → Prop}
    (hdefs : ∀ d ∈ defs, R.get? d.name = some d ∧ d.name ∈ names)
    (hle : row.nextRunAt ≤ now) (hQ : ∀ g r, Upserted names g → Q g r) (h : Upserted names g) :
    (nodeTracking R).wp (Scheduler.tickDue defs now row) Q g := by
  unfold Scheduler.tickDue
  cases hf : defs.find? (fun d => d.name = row.name) with
  | none => exact hQ _ _ h
  | some d =>
      obtain ⟨hd, hname⟩ := hdefs d (List.mem_of_find?_eq_some hf)
      have hlt (ha : d.Advances) : row.nextRunAt <
        (d.nextAfter now).toOption.getD (now + 60000) := by
        cases hn : d.nextAfter now with
        | ok next => exact Int.lt_of_le_of_lt hle (ha now next hn)
        | error e => exact Int.lt_of_le_of_lt hle (Int.lt_add_of_pos_right now (by decide))
      rw [Discipline.wp_bind, Discipline.wp_attempt]
      refine wp_call ⟨h.job, h.names hname, d, hd, hlt⟩ (fun r _ => ?_)
      have hg := h.next_claimTick d.name row.nextRunAt
        ((d.nextAfter now).toOption.getD (now + 60000)) now r
      cases r with
      | error e => exact hQ _ _ hg
      | ok claimed =>
          cases claimed with
          | false => exact hQ _ _ hg
          | true =>
              show (nodeTracking R).wp (Scheduler.mayFire d >>= _) _ _
              rw [Discipline.wp_bind]
              have hfire (b : Bool) (g : NodeTrack) (hg : Upserted names g)
                (hh : g.holds = some (d.name, row.nextRunAt))
                  (hskip : b = true → d.overlap = .skip → g.clear = true) :
                  (nodeTracking R).wp
                    (if b then do let _ ← (Scheduler.fire d row.nextRunAt now).attempt else pure ())
                      Q g := by
                cases b with
                | false => exact hQ _ _ hg
                | true =>
                    rw [if_pos rfl, Discipline.wp_bind, Discipline.wp_attempt]
                    exact wp_fire hd hg hh (fun hs => .inl (hskip rfl hs)) (fun g r hg => hQ _ _ hg)
              unfold Scheduler.mayFire
              split
              · rw [Discipline.wp_bind, Discipline.wp_attempt]
                refine wp_call ⟨hg.job, d.name, row.nextRunAt, rfl, rfl⟩ (fun r _ => ?_)
                cases r with
                | ok n => exact hfire _ _ ⟨hg.job, hg.names⟩ rfl (fun hn _ => hn)
                | error e =>
                    exact hfire _ _ ⟨hg.job, hg.names⟩ rfl
                      (fun h1 _ => by cases of_decide_eq_true h1)
              · next ho => exact hfire true _ hg rfl (fun _ hs => by cases ho.symm.trans hs)
              · next ho => exact hfire true _ hg rfl (fun _ hs => by cases ho.symm.trans hs)

theorem wp_tickAll {defs : List ScheduleDef} {Q : NodeTrack → Except String Unit → Prop}
    (hdefs : ∀ d ∈ defs, R.get? d.name = some d ∧ d.name ∈ names)
    (hQ : ∀ g r, Upserted names g → Q g r)
    (h : Upserted names g) : (nodeTracking R).wp (Scheduler.tickAll defs) Q g := by
  have hrel : Upserted names g.released := ⟨h.job, h.names⟩
  refine wp_nowMs_bind (fun _ => hQ _ _ hrel) (fun now => ?_)
  rw [Discipline.wp_bind, Discipline.wp_attempt]
  refine wp_call h.job (fun r hr => ?_)
  cases r with
  | error e => exact hQ _ _ hrel
  | ok due =>
      have hdue : ∀ row ∈ due, row.nextRunAt ≤ now := hr
      show (nodeTracking R).wp (forM due (Scheduler.tickDue defs now)) Q g.released
      refine Discipline.wp_forM
        _ (fun (rows : List ScheduleRow) g => Upserted names g ∧ ∀ row ∈ rows, row.nextRunAt ≤ now)
        ?_ ?_ due _ ⟨hrel, hdue⟩
      · rintro row rows g ⟨hg, hle⟩
        refine wp_tickDue hdefs (hle row List.mem_cons_self) (fun g r hg => ?_) hg
        cases r with
        | ok _ => exact ⟨hg, fun row' hm => hle row' (List.mem_cons_of_mem _ hm)⟩
        | error e => exact hQ _ _ hg
      · exact fun g hg => hQ _ _ hg.1

theorem wp_rounds {defs : List ScheduleDef}
    (hdefs : ∀ d ∈ defs, R.get? d.name = some d ∧ d.name ∈ names) (n : Nat)
    (h : Upserted names g) : (nodeTracking R).wp (Scheduler.rounds defs n) (fun _ _ => True) g := by
  induction n generalizing g with
  | zero => trivial
  | succ n ih =>
      show (nodeTracking R).wp (Scheduler.tickAll defs >>= fun _ => Scheduler.rounds defs n) _ g
      rw [Discipline.wp_bind]
      refine wp_tickAll hdefs (fun g r hg => ?_) h
      cases r with
      | ok _ => exact ih hg
      | error e => trivial

theorem wp_run {defs : List ScheduleDef} (hdefs : ∀ d ∈ defs, R.get? d.name = some d) (n : Nat) :
    (nodeTracking R).wp (Scheduler.run defs n) (fun _ _ => True) (start none) := by
  show (nodeTracking R).wp ((Scheduler.boot defs).attempt >>= _) _ _
  rw [Discipline.wp_bind, Discipline.wp_attempt]
  refine wp_nowMs_bind (fun _ => trivial) (fun now => ?_)
  refine Discipline.wp_forM
    _ (fun rest g => (∀ d ∈ rest, R.get? d.name = some d) ∧ Booting defs rest g) ?_ ?_ defs _
    ⟨hdefs, rfl, fun d hd => .inr hd⟩
  · rintro d rest g ⟨hrest, hg⟩
    refine Discipline.wp_mono _ (wp_bootOne (hrest d List.mem_cons_self) hg) (fun g r hr => ?_)
    cases r with
    | ok _ => exact ⟨fun d' hd' => hrest d' (List.mem_cons_of_mem _ hd'), hr⟩
    | error e => trivial
  · rintro g ⟨_, hjob, hup⟩
    show (nodeTracking R).wp (Scheduler.rounds defs n) _ g
    have hnames : Upserted (defs.map (·.name)) g := by
      refine ⟨hjob, fun name hm => ?_⟩
      obtain ⟨d, hd, rfl⟩ := List.mem_map.mp hm
      exact (hup d hd).resolve_right List.not_mem_nil
    exact wp_rounds (fun d hd => ⟨hdefs d hd, List.mem_map.mpr ⟨d, hd, rfl⟩⟩) n hnames

theorem wp_runGroup (job : ClaimedJob) :
    (nodeTracking R).wp (Scheduler.runGroup job) (fun _ _ => True) (start (some job)) := by
  have hlast {c : SchedCall} {g : NodeTrack} (ha : g.mayCall R c) :
      (nodeTracking R).wp (do let _ ← (Scheduler.call c).attempt) (fun _ _ => True) g := by
    rw [Discipline.wp_bind, Discipline.wp_attempt]
    exact wp_call ha (fun _ _ => trivial)
  rw [Scheduler.runGroup, Discipline.wp_bind, Discipline.wp_attempt]
  refine (Discipline.wp_op _ _ _ _).mpr ⟨rfl, fun r _ => ?_⟩
  cases r with
  | ok _ => exact hlast ⟨job, rfl, rfl, rfl⟩
  | error message =>
      simp only [Discipline.seq_ok]
      split
      · exact hlast ⟨job, rfl, rfl, rfl⟩
      · next hlt =>
          refine wp_nowMs_bind (fun _ => trivial) (fun now => ?_)
          rw [Discipline.wp_bind]
          refine (Discipline.wp_op _ _ _ _).mpr ⟨trivial, fun r _ => ?_⟩
          cases r with
          | error e => trivial
          | ok delay => exact hlast ⟨job, rfl, rfl, rfl, Nat.lt_of_not_le hlt⟩

end NodeTrack

namespace NodeThread

def track (R : Schedules) (t : NodeThread) : NodeTrack :=
  (nodeTracking R).ghost (.start t.kind.job?) t.log

def Obeys (R : Schedules) (t : NodeThread) : Prop :=
  (nodeTracking R).wp t.prog (fun _ _ => True) (NodeThread.track R t)

variable {R : Schedules} {t : NodeThread} {op : SchedOp}
  {k : Except String (SchedVal op) → SchedM Unit}

theorem Obeys.allowed (h : NodeThread.Obeys R t) (hp : t.prog = .call op k) :
    NodeTrack.allowed R (NodeThread.track R t) op := by
  rw [Obeys, hp] at h
  exact h.1

theorem Obeys.answer (h : NodeThread.Obeys R t) (hp : t.prog = .call op k)
    {r : Except String (SchedVal op)}
    (hr : NodeTrack.answers op r) : NodeThread.Obeys R (t.answer op r (k r)) := by
  rw [Obeys, hp] at h
  exact h.2 r hr

theorem obeys_crash (R : Schedules) (t : NodeThread) : NodeThread.Obeys R t.crash := trivial

theorem obeys_schedulerThread (R : Schedules) (node : Nat) (names : List String) (n : Nat) :
    NodeThread.Obeys R (schedulerThread R node names n) := by
  refine NodeTrack.wp_run (fun d hd => ?_) n
  obtain ⟨name, _, hname⟩ := List.mem_filterMap.mp hd
  rwa [Table.key_of_get? hname]

theorem obeys_groupThread (R : Schedules) (node : Nat) (queue : String) (job : ClaimedJob) :
    NodeThread.Obeys R (groupThread node queue job) := NodeTrack.wp_runGroup job

theorem track_job (R : Schedules) (t : NodeThread) : (NodeThread.track R t).job = t.kind.job? := by
  have h (log : List (Event SchedVal)) :
      ((nodeTracking R).ghost (.start t.kind.job?) log).job = t.kind.job? := by
    induction log with
    | nil => rfl
    | cons e log ih => exact (NodeTrack.next_job _ e.op e.res).trans ih
  exact h t.log

theorem track_answer (R : Schedules) (t : NodeThread) (op : SchedOp)
    (r : Except String (SchedVal op)) (p : SchedM Unit) :
    NodeThread.track R (t.answer op r p) = (NodeThread.track R t).next op r := rfl

end NodeThread

end ZenZip
