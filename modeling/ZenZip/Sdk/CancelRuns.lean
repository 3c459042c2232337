import ZenZip.Runtime.Forest
import ZenZip.Runtime.Sleep
import ZenZip.Sdk.Orphans
import Mathlib.Algebra.Order.BigOperators.Group.List

namespace ZenZip

open Lib

/-- A call of `cancelRuns`, on the native runtime or for the time. -/
inductive FleetCall
  | dashboardRuns (workflow : Option String) (status : Option RunStatus) (limit : Nat)
  | dateNow
  | cancelRun (id : RunId)

abbrev FleetCall.Val : FleetCall → Type
  | .dashboardRuns _ _ _ => List RunRow
  | .dateNow => Time
  | .cancelRun _ => Nat

abbrev FleetM := Prog FleetCall.Val

def OrphanStatus.toStatus : OrphanStatus → RunStatus
  | .running => .runnable
  | .sleeping => .sleeping
  | .waitingEvent => .waitEvent
  | .waitingChild => .waitChild

structure CancelFilter where
  workflow : Option String
  status : Option OrphanStatus
  olderThan : Option Ms
  limit : Option Nat

structure CancelReport where
  cancelled : Nat
  runs : List RunId
  deriving DecidableEq

namespace Fleet

def native (c : FleetCall) : FleetM c.Val := @Prog.op FleetCall FleetCall.Val c

def cutoff (filter : CancelFilter) : FleetM (Option Time) :=
  match filter.olderThan with
  | none => return none
  | some age => do
    let now ← native .dateNow
    let age ← .ofExcept age
    return some (now - (age : Int))

def cancelEach (cutoff : Option Time) : List RunRow → FleetM CancelReport
  | [] => return ⟨0, []⟩
  | r :: rows =>
    if r.status.terminal then cancelEach cutoff rows
    else if cutoff.any (fun cutoff => cutoff ≤ r.updatedAt) then cancelEach cutoff rows
    else do
      let n ← native (.cancelRun r.id)
      let report ← cancelEach cutoff rows
      return ⟨n + report.cancelled, r.id :: report.runs⟩

def cancelRuns (filter : CancelFilter) : FleetM CancelReport := do
  let rows ← native
    (.dashboardRuns filter.workflow (filter.status.map OrphanStatus.toStatus)
      (filter.limit.getD 1000))
  let cutoff ← cutoff filter
  cancelEach cutoff rows

end Fleet

/-- The calls of `cancelRuns` beside everything else that the system does. -/
abbrev Fleet := Config Sys FleetCall.Val CancelFilter CancelReport

namespace Fleet

abbrev Call := Thread FleetCall.Val CancelFilter CancelReport

def store (F : Fleet) : Store := F.shared.store

def clock (F : Fleet) : Time := F.shared.clock

inductive Label
  | sys (l : ZenZip.Label)
  | cancelRuns (filter : CancelFilter)
  | native (i : Nat) (ch : Choice)

section Step

variable (E : WorkflowEngine)

def outcome? (t : Worker) : Option (Except String Nat) :=
  match t.prog with
  | .ret (.count n) => some (.ok n)
  | .throw e => some (.error e)
  | _ => none

/-- A cancellation is the engine's own task, started and carried out at once. -/
def cancelRun (σ : Sys) (ch : Choice) (id : RunId) : Option (Sys × Except String Nat) := do
  let spawned ← Sys.step E σ (.spawn (.cancel id))
  let called ← Sys.step E spawned (.call σ.pool.length ch)
  let task ← called.pool[σ.pool.length]?
  let r ← outcome? task
  return (called, r)

def exec (σ : Sys) (ch : Choice) : (c : FleetCall) → Config.Answer Sys FleetCall.Val c
  | .dashboardRuns workflow status limit => match ch with
    | .ok _ => some (σ, .ok (σ.store.runsList workflow status limit))
    | .fail e => some (σ, .error e)
    | _ => none
  | .dateNow => some (σ, .ok σ.clock)
  | .cancelRun id => cancelRun E σ ch id

def step (F : Fleet) : Label → Option Fleet
  | .sys l => (Sys.step E F.shared l).map (fun σ => { F with shared := σ })
  | .cancelRuns filter => some (F.spawn [⟨filter, [], Fleet.cancelRuns filter⟩])
  | .native i ch => F.call (exec E) i ch

def init (clock : Time) : Fleet := ⟨.init .empty clock, []⟩

def keepsEnded (F : Fleet) : Label → Bool
  | .sys l => F.shared.keepsEnded l
  | _ => true

end Step

def listing (filter : CancelFilter) (F : Fleet) : List RunRow :=
  F.store.runsList filter.workflow (filter.status.map OrphanStatus.toStatus)
    (filter.limit.getD 1000)

/-- The run is still going, and has not been updated lately. -/
def due (cutoff : Option Time) (r : RunRow) : Bool :=
  !r.status.terminal && cutoff.all (fun cutoff => r.updatedAt < cutoff)

/-- What a call has come to know, and the runs it has cancelled with their counts. -/
structure Progress where
  filter : CancelFilter
  listed : Option (List RunRow)
  now : Option Time
  done : List (RunId × Nat)

namespace Progress

variable (g : Progress)

def start (filter : CancelFilter) : Progress := ⟨filter, none, none, []⟩

def cutoff : Option Time :=
  match g.filter.olderThan, g.now with
  | some (.ok age), some now => some (now - (age : Int))
  | _, _ => none

def next (c : FleetCall) (r : Except String c.Val) : Progress :=
  match c, r with
  | .dashboardRuns _ _ _, .ok rows => { g with listed := some rows }
  | .dateNow, .ok now => { g with now := some now }
  | .cancelRun id, .ok n => { g with done := g.done ++ [(id, n)] }
  | _, _ => g

end Progress

def Timed (g : Progress) : Prop :=
  ∀ age, g.filter.olderThan = some age → ∃ ms now, age = .ok ms ∧ g.now = some now

/-- A call lists before it looks at the clock, and cancels what is due of the rows it has listed. -/
def keeps : Discipline FleetCall.Val Progress where
  next := Progress.next
  allowed g c := match c with
    | .dashboardRuns workflow status limit => g.now = none ∧ workflow = g.filter.workflow ∧
      status = g.filter.status.map OrphanStatus.toStatus ∧ limit = g.filter.limit.getD 1000
    | .dateNow => g.now = none
    | .cancelRun id =>
        Timed g ∧ ∃ rows r, g.listed = some rows ∧ r ∈ rows ∧ due g.cutoff r = true ∧ r.id = id
  answers _ _ := True

def Reports (g : Progress) (r : Except String CancelReport) : Prop :=
  ∀ report, r = .ok report → Timed g ∧ ∃ rows, g.listed = some rows ∧
    report.runs = (rows.filter (due g.cutoff)).map (·.id) ∧
    g.done.map Prod.fst = report.runs ∧ (g.done.map Prod.snd).sum = report.cancelled

section Program

variable {g : Progress}

theorem due_eq_false {cutoff : Option Time} {r : RunRow}
    (h : r.status.terminal = true ∨ cutoff.any (fun cutoff => cutoff ≤ r.updatedAt) = true) :
    due cutoff r = false := by
  rw [due]
  rcases h with h | h
  · rw [h]
    rfl
  · obtain ⟨t, rfl, ht⟩ := (Option.any_eq_true _ _).mp h
    have hle := of_decide_eq_true ht
    rw [Option.all_some, decide_eq_false (not_lt.mpr hle), Bool.and_false]

theorem due_eq_true {cutoff : Option Time} {r : RunRow} (ht : ¬ r.status.terminal = true)
    (h : ¬ cutoff.any (fun cutoff => cutoff ≤ r.updatedAt) = true) : due cutoff r = true := by
  rw [due, Bool.eq_false_of_not_eq_true ht]
  cases cutoff with
  | none => rfl
  | some t =>
      rw [Option.any_some, decide_eq_true_eq, not_le] at h
      rw [Option.all_some, decide_eq_true h]
      rfl

theorem wp_cancelEach {rows rest : List RunRow} (ht : Timed g) (hrows : g.listed = some rows)
    (hrest : ∀ r ∈ rest, r ∈ rows) :
    keeps.wp (cancelEach g.cutoff rest)
      (fun g' r => ∀ report, r = .ok report → ∃ extra, g' = { g with done := g.done ++ extra } ∧
      report.runs = (rest.filter (due g.cutoff)).map (·.id) ∧ extra.map Prod.fst = report.runs ∧
      (extra.map Prod.snd).sum = report.cancelled) g := by
  induction rest generalizing g with
  | nil =>
      intro report hr
      cases hr
      refine ⟨[], ?_, rfl, rfl, rfl⟩
      rw [List.append_nil]
  | cons r rest ih =>
      have hmem : ∀ r ∈ rest, r ∈ rows := fun r hr => hrest r (List.mem_cons_of_mem _ hr)
      have hskip (hd : due g.cutoff r = false) : (r :: rest).filter (due g.cutoff) =
        rest.filter (due g.cutoff) :=
        List.filter_cons_of_neg (by rw [hd]; exact Bool.false_ne_true)
      unfold cancelEach
      split
      · next hr =>
          rw [hskip (due_eq_false (.inl hr))]
          exact ih ht hrows hmem
      · next hr =>
          split
          · next hc =>
              rw [hskip (due_eq_false (.inr hc))]
              exact ih ht hrows hmem
          · next hc =>
              have hd := due_eq_true hr hc
              rw [Discipline.wp_bind, native, Discipline.wp_op]
              refine ⟨⟨ht, rows, r, hrows, hrest r List.mem_cons_self, hd, rfl⟩, fun res _ => ?_⟩
              cases res with
              | error e => exact fun _ hr => by cases hr
              | ok n =>
                  rw [Discipline.seq_ok, Discipline.wp_bind]
                  refine Discipline.wp_mono
                    _ (ih (g := { g with done := g.done ++ [(r.id, n)] }) ht hrows hmem) fun g' res
                      hres => ?_
                  cases res with
                  | error e => exact fun _ hr => by cases hr
                  | ok report =>
                      obtain ⟨extra, rfl, hruns, hids, hsum⟩ := hres report rfl
                      intro report' hr
                      cases hr
                      refine ⟨(r.id, n) :: extra, ?_, ?_, congrArg (r.id :: ·) hids,
                        congrArg (n + ·) hsum⟩
                      · rw [List.append_assoc]
                        rfl
                      · rw [List.filter_cons_of_pos hd, List.map_cons]
                        exact congrArg (r.id :: ·) hruns

theorem wp_cancelRuns (filter : CancelFilter) :
    keeps.wp (cancelRuns filter) Reports (.start filter) := by
  rw [cancelRuns, Discipline.wp_bind, native, Discipline.wp_op]
  refine ⟨⟨rfl, rfl, rfl, rfl⟩, fun res _ => ?_⟩
  cases res with
  | error e => exact fun _ hr => by cases hr
  | ok rows =>
      rw [Discipline.seq_ok, Discipline.wp_bind]
      have hloop (g : Progress) (cutoff : Option Time) (ht : Timed g) (hl : g.listed = some rows)
        (hd : g.done = [])
          (hc : cutoff = g.cutoff) : keeps.wp (cancelEach cutoff rows) Reports g := by
        rw [hc]
        refine Discipline.wp_mono _ (wp_cancelEach ht hl (fun _ hr => hr)) fun g' res hres report
          hr => ?_
        obtain ⟨extra, rfl, hruns, hids, hsum⟩ := hres report hr
        rw [hd, List.nil_append]
        exact ⟨ht, rows, hl, hruns, hids, hsum⟩
      unfold cutoff
      split
      · next hage =>
          refine hloop _ none (fun age ha => ?_) rfl rfl
            (by simp only [Progress.cutoff, keeps, Progress.next, Progress.start, hage])
          rw [show filter.olderThan = some age from ha] at hage
          cases hage
      · next age hage =>
          rw [Discipline.wp_bind, native, Discipline.wp_op]
          refine ⟨rfl, fun res _ => ?_⟩
          cases res with
          | error e => exact fun _ hr => by cases hr
          | ok now =>
              rw [Discipline.seq_ok, Discipline.wp_bind, Discipline.wp_ofExcept]
              cases age with
              | error e => exact fun _ hr => by cases hr
              | ok age =>
                  refine hloop _ _ (fun age' ha => ?_) rfl rfl
                    (by simp only [Progress.cutoff, keeps, Progress.next, Progress.start, hage])
                  rw [show filter.olderThan = some age' from ha] at hage
                  cases hage
                  exact ⟨age, now, rfl, rfl⟩

end Program

section Calls

variable {E : WorkflowEngine} {σ σ' : Sys} {ch : Choice} {id : RunId} {r : Except String Nat}

theorem cancelRun_cases (h : cancelRun E σ ch id = some (σ', r)) :
    Run (Sys.step E) Sys.keepsEnded σ σ' ∧
    ((σ'.store = (σ.store.cancelRunTree id σ.clock).1 ∧
    r = .ok (σ.store.cancelRunTree id σ.clock).2) ∨
      σ'.store = σ.store ∧ ∃ e, r = .error e) := by
  -- the task is spawned in any state, so only its call may be missing
  obtain ⟨called, hc, h⟩ := Option.bind_eq_some_iff.mp h
  obtain ⟨task, ht, h⟩ := Option.bind_eq_some_iff.mp h
  obtain ⟨r', hr, h⟩ := Option.bind_eq_some_iff.mp h
  cases h
  have htask : (Config.spawn σ [taskThread E (.cancel id)]).pool[σ.pool.length]? =
    some (taskThread E (.cancel id)) := by
    rw [Config.spawn, List.getElem?_append_right (Nat.le_refl _), Nat.sub_self]
    rfl
  have hkeeps : Sys.keepsEnded (Config.spawn σ [taskThread E (.cancel id)])
    (.call σ.pool.length ch) = true := by
    cases ch with
    | ok locked =>
        rw [Sys.keepsEnded, Sys.pendingCall, htask]
        rfl
    | fail e | outcome o | draw n => rfl
  refine ⟨(Run.refl.snoc (l := .spawn (.cancel id)) rfl rfl).snoc hkeeps hc, ?_⟩
  obtain ⟨t, op, k, s, res, hi, hp, he, rfl⟩ := Config.call_eq_some hc
  rw [htask] at hi
  cases hi
  injection hp with hop hk
  subst hop
  subst hk
  have hlen : σ.pool.length < (Config.spawn σ [taskThread E (.cancel id)]).pool.length := by
    rw [Config.spawn, List.length_append]
    exact Nat.lt_add_of_pos_right Nat.one_pos
  rw [List.getElem?_set_self hlen] at ht
  cases ht
  cases ch with
  | ok locked =>
      cases he
      cases hr
      exact .inl ⟨rfl, rfl⟩
  | fail e =>
      cases he
      cases hr
      exact .inr ⟨rfl, e, rfl⟩
  | outcome o | draw n => cases he

theorem exec_run {c : FleetCall} {r : Except String c.Val} (h : exec E σ ch c = some (σ', r)) :
    Run (Sys.step E) Sys.keepsEnded σ σ' := by
  cases c with
  | dashboardRuns workflow status limit =>
      cases ch with
      | ok locked | fail e =>
          cases h
          exact .refl
      | outcome o | draw n => cases h
  | dateNow =>
      cases h
      exact .refl
  | cancelRun id => exact (cancelRun_cases h).1

/-- What later states of the system keep of an earlier one. -/
structure Later (σ σ' : Sys) : Prop where
  fresh : σ'.store.Fresh
  nextId : σ.store.nextId ≤ σ'.store.nextId
  clock : σ.clock ≤ σ'.clock

theorem later_of_run {ok : Sys → ZenZip.Label → Bool} (hf : σ.store.Fresh)
    (h : Run (Sys.step E) ok σ σ') : Later σ σ' :=
  h.invariant (Later σ) ⟨hf, Nat.le_refl _, Int.le_refl _⟩ (fun _ _ _ _ hτ _ hs =>
    have hm := Sys.step_move hs
    ⟨hm.fresh hτ.fresh, hτ.nextId.trans hm.nextId_le, hτ.clock.trans hm.clock_le⟩)

theorem live_eq_false_iff {s : Store} {id : RunId} :
    s.live id = false ↔ s.runs.get? id = none ∨ ∃ r, s.runs.get? id = some r ∧
    r.status.terminal = true := by
  rw [Store.live]
  cases s.runs.get? id with
  | none => exact ⟨fun _ => .inl rfl, fun _ => rfl⟩
  | some r =>
      rw [Option.any_some, Bool.not_eq_false']
      refine ⟨fun h => .inr ⟨r, rfl, h⟩, ?_⟩
      rintro (hn | ⟨_, hr, ht⟩)
      · cases hn
      · cases hr
        exact ht

theorem ended_of_run (hf : σ.store.Fresh) (h : Run (Sys.step E) Sys.keepsEnded σ σ') {id : RunId}
    (hid : id < σ.store.nextId) (hd : σ.store.live id = false) : σ'.store.live id = false := by
  have hinv :=
    h.invariant (fun τ => Later σ τ ∧ τ.store.live id = false)
      ⟨⟨hf, Nat.le_refl _, Int.le_refl _⟩, hd⟩
    (fun τ l τ' hrun hτ hok hs => by
      have hm := Sys.step_move hs
      refine ⟨later_of_run hf (hrun.snoc hok hs), ?_⟩
      rcases live_eq_false_iff.mp hτ.2 with hn | ⟨r, hr, ht⟩
      · exact live_eq_false_iff.mpr
          (.inl (hm.deleted hτ.1.fresh (Nat.lt_of_lt_of_le hid hτ.1.nextId) hn))
      · obtain hn | ⟨r', hr', he⟩ := hm.keeps_ending hok hr ht
        · exact live_eq_false_iff.mpr (.inl hn)
        · refine live_eq_false_iff.mpr (.inr ⟨r', hr', ?_⟩)
          rw [show r'.status = r.status from congrArg Prod.fst he]
          exact ht)
  exact hinv.2

end Calls

section Runs

variable {E : WorkflowEngine} {ok : Fleet → Label → Bool} {F F' : Fleet} {l : Label} {clock : Time}
  {g : Progress} {i : Nat} {t : Call}

theorem step_run (hok : keepsEnded F l = true) (hs : step E F l = some F') :
    Run (Sys.step E) Sys.keepsEnded F.shared F'.shared := by
  cases l with
  | sys l =>
      obtain ⟨σ, hσ, rfl⟩ := Option.map_eq_some_iff.mp hs
      exact Run.refl.snoc hok hσ
  | cancelRuns filter =>
      cases hs
      exact .refl
  | native i ch =>
      obtain ⟨t, c, k, s, r, _, _, he, rfl⟩ := Config.call_eq_some hs
      exact exec_run he

theorem step_any (hs : step E F l = some F') :
    Run (Sys.step E) (fun _ _ => true) F.shared F'.shared := by
  cases l with
  | sys l =>
      obtain ⟨σ, hσ, rfl⟩ := Option.map_eq_some_iff.mp hs
      exact Run.refl.snoc rfl hσ
  | cancelRuns filter => exact (step_run rfl hs).mono (fun _ _ _ => rfl)
  | native i ch => exact (step_run rfl hs).mono (fun _ _ _ => rfl)

theorem shared_of_run (h : Run (step E) ok (init clock) F) :
    Run (Sys.step E) (fun _ _ => true) (.init .empty clock) F.shared :=
  h.invariant (fun F => Run (Sys.step E) (fun _ _ => true) (.init .empty clock) F.shared) .refl
    (fun _ _ _ _ hF _ hs => hF.trans (step_any hs))

theorem fresh_of_run (h : Run (step E) ok (init clock) F) : F.store.Fresh :=
  Sys.fresh_of_run (shared_of_run h)

def progress (t : Call) : Progress := keeps.ghost (.start t.kind) t.log

/-- The rows that a call has listed were there when it looked, and the time is one since. -/
structure Looked (E : WorkflowEngine) (ok : Fleet → Label → Bool) (clock : Time) (F : Fleet)
    (g : Progress) (rows : List RunRow) : Prop where
  ids : ∀ r ∈ rows, r.id < F.store.nextId
  since : ∃ F₀, Run (step E) ok (init clock) F₀ ∧ Run (step E) ok F₀ F ∧ F₀.clock ≤ F.clock ∧
    rows = listing g.filter F₀ ∧
    ∀ now, g.now = some now → F₀.clock ≤ now ∧ now ≤ F.clock

def Listed (E : WorkflowEngine) (ok : Fleet → Label → Bool) (clock : Time) (F : Fleet)
    (g : Progress) : Prop :=
  ∀ rows, g.listed = some rows → Looked E ok clock F g rows

theorem Listed.mono (h : Listed E ok clock F g) (hf : F.store.Fresh) (hok : ok F l = true)
    (hs : step E F l = some F') :
    Listed E ok clock F' g := by
  intro rows hrows
  have hlater := later_of_run hf (step_any hs)
  obtain ⟨hids, F₀, h₀, hrun, hclock, heq, hnow⟩ := h rows hrows
  exact ⟨fun r hr => Nat.lt_of_lt_of_le (hids r hr) hlater.nextId, F₀, h₀, hrun.snoc hok hs,
    hclock.trans hlater.clock, heq,
    fun now hn => ⟨(hnow now hn).1, (hnow now hn).2.trans hlater.clock⟩⟩

theorem id_lt_of_listing (hf : F.store.Fresh) {filter : CancelFilter} {r : RunRow}
    (hr : r ∈ listing filter F) :
    r.id < F.store.nextId :=
  hf.runs r.id r
    (Table.get?_key
      (Table.mem_select.mp ((List.mem_insertionSort _).mp (List.mem_of_mem_take hr))).1)

theorem Listed.next {c : FleetCall} {ch : Choice} {σ : Sys} {r : Except String c.Val}
    (h : Listed E ok clock F g)
    (hF : Run (step E) ok (init clock) F) (hallowed : keeps.allowed g c)
    (hok : ok F (.native i ch) = true)
    (hs : step E F (.native i ch) = some F') (he : exec E F.shared ch c = some (σ, r)) :
    Listed E ok clock F' (g.next c r) := by
  have hf := fresh_of_run hF
  have hmono := h.mono hf hok hs
  have hlater := later_of_run hf (step_any hs)
  cases c with
  | dashboardRuns workflow status limit =>
      obtain ⟨hnow, rfl, rfl, rfl⟩ := hallowed
      cases ch with
      | ok locked =>
          obtain ⟨_, rfl⟩ := Prod.mk.inj (Option.some.inj he)
          intro rows hrows
          cases hrows
          refine ⟨fun r hr => ?_, F, hF, Run.refl.snoc hok hs, hlater.clock, rfl, fun now hn => ?_⟩
          · exact Nat.lt_of_lt_of_le (id_lt_of_listing hf hr) hlater.nextId
          · rw [show (g.next _ _).now = g.now from rfl, hnow] at hn
            cases hn
      | fail e =>
          obtain ⟨_, rfl⟩ := Prod.mk.inj (Option.some.inj he)
          exact hmono
      | outcome o | draw n => cases he
  | dateNow =>
      obtain ⟨_, rfl⟩ := Prod.mk.inj (Option.some.inj he)
      intro rows hrows
      obtain ⟨hids, F₀, h₀, hrun, hclock, heq, _⟩ := h rows hrows
      refine ⟨fun r hr => Nat.lt_of_lt_of_le (hids r hr) hlater.nextId, F₀, h₀, hrun.snoc hok hs,
        hclock.trans hlater.clock, heq, ?_⟩
      intro now hn
      cases hn
      exact ⟨hclock, hlater.clock⟩
  | cancelRun id =>
      cases r with
      | error e => exact hmono
      | ok n =>
          intro rows hrows
          obtain ⟨hids, hsince⟩ := hmono rows hrows
          exact ⟨hids, hsince⟩

theorem listed_of_run (h : Run (step E) ok (init clock) F) :
    ∀ t ∈ F.pool, keeps.Obeys .start (fun _ => Reports) t ∧ Listed E ok clock F (progress t) := by
  refine h.invariant
    (fun F => ∀ t ∈ F.pool, keeps.Obeys .start (fun _ => Reports) t ∧
      Listed E ok clock F (progress t))
    (fun t ht => by cases ht) (fun F l F' hF hI hok hs => ?_)
  have hmono : ∀ t ∈ F.pool, keeps.Obeys .start (fun _ => Reports) t ∧
    Listed E ok clock F' (progress t) :=
    fun t ht => ⟨(hI t ht).1, (hI t ht).2.mono (fresh_of_run hF) hok hs⟩
  cases l with
  | sys l =>
      obtain ⟨σ, hσ, rfl⟩ := Option.map_eq_some_iff.mp hs
      exact hmono
  | cancelRuns filter =>
      cases hs
      refine List.forall_mem_append.mpr
        ⟨hmono, List.forall_mem_singleton.mpr ⟨wp_cancelRuns filter, fun rows hr => ?_⟩⟩
      cases hr
  | native i ch =>
      obtain ⟨t, c, k, σ, r, hi, hp, he, rfl⟩ := Config.call_eq_some hs
      obtain ⟨hobeys, hlisted⟩ := hI t (List.mem_of_getElem? hi)
      intro u hu
      rcases List.mem_or_eq_of_mem_set hu with hu | rfl
      · exact hmono u hu
      · exact ⟨hobeys.answer hp trivial, hlisted.next hF (hobeys.allowed hp) hok hs he⟩

def Ended (F : Fleet) (g : Progress) : Prop :=
  ∀ p ∈ g.done, p.1 < F.store.nextId ∧ F.store.live p.1 = false

theorem Ended.mono (h : Ended F g) (hf : F.store.Fresh) (hok : keepsEnded F l = true)
    (hs : step E F l = some F') : Ended F' g := by
  intro p hp
  obtain ⟨hid, hd⟩ := h p hp
  exact ⟨Nat.lt_of_lt_of_le hid (later_of_run hf (step_any hs)).nextId,
    ended_of_run hf (step_run hok hs) hid hd⟩

theorem Ended.next {c : FleetCall} {ch : Choice} {σ : Sys} {r : Except String c.Val}
    (hf : F.store.Fresh)
    (hlisted : Listed E ok clock F g) (hallowed : keeps.allowed g c)
    (he : exec E F.shared ch c = some (σ, r))
    (hmono : Ended F' g) (hσ : F'.shared = σ) (hs : step E F (.native i ch) = some F') :
    Ended F' (g.next c r) := by
  cases c with
  | dashboardRuns | dateNow => cases r <;> exact hmono
  | cancelRun id =>
      obtain ⟨_, rows, row, hrows, hrow, _, rfl⟩ := hallowed
      obtain ⟨_, ⟨hstore, rfl⟩ | ⟨_, e, rfl⟩⟩ := cancelRun_cases he
      · intro p hp
        rcases List.mem_append.mp hp with hp | hp
        · exact hmono p hp
        · rw [List.mem_singleton.mp hp]
          refine ⟨Nat.lt_of_lt_of_le ((hlisted rows hrows).ids row hrow)
            (later_of_run hf (step_any hs)).nextId, ?_⟩
          show F'.shared.store.live row.id = false
          rw [hσ, hstore]
          exact (Store.cancelRunTree_ends _ _ _).1
      · exact hmono

def Progress.total (g : Progress) : Nat := (g.done.map Prod.snd).sum

def counted (c : FleetCall) (r : Except String c.Val) : Nat :=
  match c, r with
  | .cancelRun _, .ok n => n
  | _, _ => 0

theorem total_next (c : FleetCall) (r : Except String c.Val) :
    (g.next c r).total = g.total + counted c r := by
  cases r with
  | error e => cases c <;> rfl
  | ok v =>
      cases c with
      | dashboardRuns | dateNow => rfl
      | cancelRun id =>
          show ((g.done ++ [(id, v)]).map Prod.snd).sum = (g.done.map Prod.snd).sum + v
          rw [List.map_append, List.sum_append]
          rfl

def EndedBy (E : WorkflowEngine) (clock : Time) (F : Fleet) (i : Nat) (id : RunId) : Prop :=
  ∃ F₁ F₂ ch, Run (step E) keepsEnded (init clock) F₁ ∧ step E F₁ (.native i ch) = some F₂ ∧
    Run (step E) keepsEnded F₂ F ∧ F₁.store.live id = true ∧ F₂.store.live id = false

theorem EndedBy.snoc {id : RunId} (h : EndedBy E clock F i id) (hok : keepsEnded F l = true)
    (hs : step E F l = some F') :
    EndedBy E clock F' i id := by
  obtain ⟨F₁, F₂, ch, h₁, h₂, hrun, hends⟩ := h
  exact ⟨F₁, F₂, ch, h₁, h₂, hrun.snoc hok hs, hends⟩

theorem EndedBy.dead {id : RunId} (h : EndedBy E clock F i id) : F.store.live id = false := by
  obtain ⟨F₁, F₂, ch, h₁, h₂, hrun, hlive, hdead⟩ := h
  have hf := fresh_of_run h₁
  have hlater := later_of_run hf (step_any h₂)
  obtain ⟨r, hr, _⟩ := Store.live_iff.mp hlive
  have hshared : Run (Sys.step E) Sys.keepsEnded F₂.shared F.shared :=
    hrun.invariant (fun F => Run (Sys.step E) Sys.keepsEnded F₂.shared F.shared) .refl
      (fun _ _ _ _ hF hok hs => hF.trans (step_run hok hs))
  exact ended_of_run hlater.fresh hshared (Nat.lt_of_lt_of_le (hf.runs id r hr) hlater.nextId) hdead

/-- The runs that each call has ended: none of them is one of two calls, and so many a call has
counted. -/
structure Counted (E : WorkflowEngine) (clock : Time) (F : Fleet) (runs : Nat → List RunId) :
    Prop where
  nodup : ∀ i, (runs i).Nodup
  apart : ∀ i j, i ≠ j → (runs i).Disjoint (runs j)
  ended : ∀ i, ∀ id ∈ runs i, EndedBy E clock F i id
  counts : ∀ i t, F.pool[i]? = some t → (progress t).total = (runs i).length
  none_yet : ∀ i, F.pool.length ≤ i → runs i = []

theorem ended_of_call {σ σ' : Sys} {ch : Choice} {c : FleetCall} {r : Except String c.Val}
    (hf : σ.store.Fresh)
    (h : exec E σ ch c = some (σ', r)) : ∃ ids : List RunId, ids.Nodup ∧ counted c r = ids.length ∧
      ∀ id ∈ ids, id < σ.store.nextId ∧ σ.store.live id = true ∧ σ'.store.live id = false := by
  have hnone (h : counted c r = 0) : ∃ ids : List RunId, ids.Nodup ∧ counted c r = ids.length ∧
      ∀ id ∈ ids, id < σ.store.nextId ∧ σ.store.live id = true ∧ σ'.store.live id = false :=
    ⟨[], List.nodup_nil, h, fun _ hid => by cases hid⟩
  cases c with
  | dashboardRuns | dateNow => exact hnone rfl
  | cancelRun root =>
      obtain ⟨_, ⟨hstore, rfl⟩ | ⟨_, e, rfl⟩⟩ := cancelRun_cases h
      · obtain ⟨ids, hn, hids, hcount⟩ :=
          Store.cancelLoop_count σ.clock (σ.store.runs.rows.length + 1) [root] σ.store
        refine ⟨ids, hn, hcount, fun id hid => ?_⟩
        obtain ⟨hlive, hdead⟩ := (hids id).mp hid
        obtain ⟨r, hr, _⟩ := Store.live_iff.mp hlive
        refine ⟨hf.runs id r hr, hlive, ?_⟩
        rw [hstore]
        exact hdead
      · exact hnone rfl

section Counting

variable {runs : Nat → List RunId}

theorem Counted.init : Counted E clock (init clock) (fun _ => []) where
  nodup _ := List.nodup_nil
  apart _ _ _ := List.disjoint_nil_left _
  ended _ _ hid := by cases hid
  counts _ _ ht := by cases ht
  none_yet _ _ := rfl

theorem Counted.sys {l : ZenZip.Label} {σ : Sys} (h : Counted E clock F runs)
    (hok : keepsEnded F (.sys l) = true)
    (hs : step E F (.sys l) = some { F with shared := σ }) :
    Counted E clock { F with shared := σ } runs where
  nodup := h.nodup
  apart := h.apart
  ended i id hid := (h.ended i id hid).snoc hok hs
  counts := h.counts
  none_yet := h.none_yet

theorem Counted.spawn {filter : CancelFilter} (h : Counted E clock F runs)
    (hs : step E F (.cancelRuns filter) = some (F.spawn [⟨filter, [], Fleet.cancelRuns filter⟩])) :
    Counted E clock (F.spawn [⟨filter, [], Fleet.cancelRuns filter⟩]) runs where
  nodup := h.nodup
  apart := h.apart
  ended i id hid := (h.ended i id hid).snoc rfl hs
  counts i t ht := by
    rcases getElem?_concat_eq_some.mp ht with ht | ⟨rfl, rfl⟩
    · exact h.counts i t ht
    · rw [h.none_yet _ (Nat.le_refl _)]
      rfl
  none_yet i hi := h.none_yet i (Nat.le_trans (by simp [Config.spawn]) hi)

/-- One of the calls has ended some more runs. -/
def credit (runs : Nat → List RunId) (i : Nat) (ids : List RunId) : Nat → List RunId :=
  Function.update runs i (runs i ++ ids)

theorem credit_self (runs : Nat → List RunId) (i : Nat) (ids : List RunId) :
    credit runs i ids i = runs i ++ ids := Function.update_self i _ runs

theorem credit_of_ne (runs : Nat → List RunId) (ids : List RunId) {i j : Nat} (h : j ≠ i) :
    credit runs i ids j = runs j := Function.update_of_ne h _ runs

theorem mem_credit {i j : Nat} {ids : List RunId} {id : RunId} :
    id ∈ credit runs i ids j ↔ id ∈ runs j ∨ j = i ∧ id ∈ ids := by
  by_cases h : j = i
  · subst h
    rw [credit_self, List.mem_append, eq_self, true_and]
  · rw [credit_of_ne runs ids h, iff_false_intro h, false_and, or_false]

theorem Counted.apart_credit {ids : List RunId} (h : Counted E clock F runs)
    (hnew : ∀ j, (runs j).Disjoint ids) {j j' : Nat} (hne : j ≠ j') :
    (credit runs i ids j).Disjoint (credit runs i ids j') := by
  intro id hid hid'
  rcases mem_credit.mp hid with hold | ⟨hi, hids⟩
  · rcases mem_credit.mp hid' with hold' | ⟨_, hids'⟩
    · exact h.apart j j' hne hold hold'
    · exact hnew j hold hids'
  · rcases mem_credit.mp hid' with hold' | ⟨hi', _⟩
    · exact hnew j' hold' hids
    · exact hne (hi.trans hi'.symm)

theorem Counted.answer {c : FleetCall} {k : Except String c.Val → FleetM CancelReport} {ch : Choice}
    {σ : Sys} {r : Except String c.Val} (h : Counted E clock F runs)
    (hF : Run (step E) keepsEnded (Fleet.init clock) F)
    (hi : F.pool[i]? = some t) (he : exec E F.shared ch c = some (σ, r))
    (hs : step E F (.native i ch) = some ⟨σ, F.pool.set i (t.answer c r (k r))⟩) :
    ∃ runs, Counted E clock ⟨σ, F.pool.set i (t.answer c r (k r))⟩ runs := by
  obtain ⟨ids, hids, hcount, hended⟩ := ended_of_call (fresh_of_run hF) he
  have hlen := (List.getElem?_eq_some_iff.mp hi).1
  have hnew (j : Nat) : (runs j).Disjoint ids := fun id hid hid' =>
    Bool.noConfusion ((hended id hid').2.1.symm.trans (h.ended j id hid).dead)
  refine ⟨credit runs i ids, fun j => ?_, fun j j' hne => h.apart_credit hnew hne,
    fun j id hid => ?_, fun j u hu => ?_, fun j hj => ?_⟩
  · by_cases hji : j = i
    · subst hji
      rw [credit_self]
      exact List.nodup_append'.mpr ⟨h.nodup j, hids, hnew j⟩
    · rw [credit_of_ne runs ids hji]
      exact h.nodup j
  · rcases mem_credit.mp hid with hold | ⟨rfl, hnow⟩
    · exact (h.ended j id hold).snoc rfl hs
    · exact ⟨F, _, ch, hF, hs, .refl, (hended id hnow).2⟩
  · by_cases hji : j = i
    · subst hji
      obtain rfl : u = t.answer c r (k r) :=
        (Option.some.inj ((List.getElem?_set_self hlen).symm.trans hu)).symm
      have hnext : (progress (t.answer c r (k r))).total = (progress t).total + counted c r :=
        total_next c r
      rw [credit_self, List.length_append, ← h.counts j t hi, ← hcount, hnext]
    · rw [credit_of_ne runs ids hji]
      exact h.counts j u ((List.getElem?_set_ne (Ne.symm hji)).symm.trans hu)
  · have hj' : F.pool.length ≤ j := Nat.le_trans (Nat.le_of_eq (List.length_set).symm) hj
    rw [credit_of_ne runs ids (by omega)]
    exact h.none_yet j hj'

end Counting

theorem progress_filter (t : Call) : (progress t).filter = t.kind := by
  rw [progress]
  induction t.log with
  | nil => rfl
  | cons e log ih =>
      refine Eq.trans ?_ ih
      obtain ⟨op, r⟩ := e
      cases op <;> cases r <;> rfl

/-- The time before which a run must have been updated last, by a clock that was read between the
two states. -/
def Cuts (filter : CancelFilter) (F₀ F : Fleet) (cutoff : Option Time) : Prop :=
  match filter.olderThan with
  | none => cutoff = none
  | some age =>
      ∃ (ms : Nat) (now : Time), age = .ok ms ∧ F₀.clock ≤ now ∧ now ≤ F.clock ∧
        cutoff = some (now - (ms : Int))

theorem cuts_of_timed {F₀ : Fleet} (ht : Timed g)
    (hnow : ∀ now, g.now = some now → F₀.clock ≤ now ∧ now ≤ F.clock) :
    Cuts g.filter F₀ F g.cutoff := by
  unfold Cuts Progress.cutoff
  cases hage : g.filter.olderThan with
  | none => rfl
  | some age =>
      obtain ⟨ms, now, rfl, hn⟩ := ht age hage
      rw [hn]
      exact ⟨ms, now, rfl, (hnow now hn).1, (hnow now hn).2, rfl⟩

theorem Listed.cut (h : Listed E ok clock F (progress t)) (ht : Timed (progress t))
    {rows : List RunRow}
    (hrows : (progress t).listed = some rows) :
    ∃ F₀, Run (step E) ok (init clock) F₀ ∧ Run (step E) ok F₀ F ∧
      rows = listing t.kind F₀ ∧ Cuts t.kind F₀ F (progress t).cutoff := by
  obtain ⟨_, F₀, h₀, hrun, _, heq, hnow⟩ := h rows hrows
  have hcuts := cuts_of_timed ht hnow
  rw [progress_filter] at heq hcuts
  exact ⟨F₀, h₀, hrun, heq, hcuts⟩

theorem cancelLoop_rest (now : Time) (fuel : Nat) (frontier : List RunId) (s : Store) :
    ∃ runs, (Store.cancelLoop now fuel frontier s).1 = { s with runs } := by
  induction fuel generalizing frontier s with
  | zero => exact ⟨s.runs, rfl⟩
  | succ fuel ih =>
      cases frontier with
      | nil => exact ⟨s.runs, rfl⟩
      | cons id frontier =>
          rw [Store.cancelLoop]
          split
          · obtain ⟨runs, h⟩ :=
              ih (((s.cancelRow id now).childrenOf id).reverse ++ frontier) (s.cancelRow id now)
            exact ⟨runs, h⟩
          · exact ih frontier s

/-- In the order of any interleaving, a call of `cancelRuns` touches nothing but runs that are still
going, at or below a run that was due when it was listed. -/
theorem cancelRuns_spared {ch : Choice} (h : Run (step E) ok (init clock) F)
    (hs : step E F (.native i ch) = some F') :
    F'.store = F.store ∨ ∃ t F₀ cutoff r, F.pool[i]? = some t ∧ Run (step E) ok (init clock) F₀ ∧
    Run (step E) ok F₀ F ∧
      (progress t).listed = some (listing t.kind F₀) ∧ Cuts t.kind F₀ F cutoff ∧
      r ∈ listing t.kind F₀ ∧
      due cutoff r = true ∧ (∃ runs, F'.store = { F.store with runs }) ∧
      ∀ k, F'.store.runs.get? k = F.store.runs.get? k ∨ Store.Descends F.store r.id k ∧
      ∃ row, F.store.runs.get? k = some row ∧
        row.status.terminal = false ∧ F'.store.runs.get? k = some
          (Store.cancelledRow F.clock row) := by
  obtain ⟨t, c, k, σ, res, hi, hp, he, rfl⟩ := Config.call_eq_some hs
  obtain ⟨hobeys, hlisted⟩ := listed_of_run h t (List.mem_of_getElem? hi)
  have hallowed := hobeys.allowed hp
  cases c with
  | dashboardRuns workflow status limit =>
      cases ch with
      | ok locked | fail e =>
          cases he
          exact .inl rfl
      | outcome o | draw n => cases he
  | dateNow =>
      cases he
      exact .inl rfl
  | cancelRun id =>
      obtain ⟨htimed, rows, r, hl, hr, hdue, rfl⟩ := hallowed
      obtain ⟨F₀, h₀, hrun, rfl, hcuts⟩ := hlisted.cut htimed hl
      obtain ⟨_, ⟨hstore, _⟩ | ⟨hstore, _⟩⟩ := cancelRun_cases he
      · refine .inr ⟨t, F₀, _, r, hi, h₀, hrun, hl, hcuts, hr, hdue, ?_, fun k => ?_⟩
        · obtain ⟨runs, hrest⟩ :=
            cancelLoop_rest F.clock (F.store.runs.rows.length + 1) [r.id] F.store
          exact ⟨runs, hstore.trans hrest⟩
        · have hforest : F.store.Forest := Sys.forest_of_run (shared_of_run h)
          show σ.store.runs.get? k = _ ∨ _ ∧ ∃ row, _ ∧ _ ∧ σ.store.runs.get? k = _
          rw [hstore]
          by_cases hd : Store.Descends F.store r.id k
          · obtain hsame | ⟨row, hrow, ht, hc⟩ :=
              Store.get?_cancelLoop F.clock (F.store.runs.rows.length + 1) [r.id] F.store k
            · exact .inl hsame
            · exact .inr ⟨hd, row, hrow, ht, hc⟩
          · exact .inl (Store.sqlite_others hforest hd)
      · exact .inl hstore

end Runs

section Sample

/-- The sample run waits for its child, which is the one that is running. -/
def stopsRunning : CancelFilter := ⟨some "order", some .running, some (.ok 5), none⟩

def stopping : List Label :=
  Sys.invokeOrder.map .sys ++
    [.sys (.tick 10), .cancelRuns stopsRunning, .native 0 (.ok []), .native 0 (.ok [])]

theorem cancelRuns_spared_child : ∃ (F F' : Fleet),
    Run (step Sys.sampleEngine) (fun _ _ => true) (init 0) F ∧
    step Sys.sampleEngine F (.native 0 (.ok [])) = some F' ∧ F.store.live 2 = true ∧
    F'.store.live 2 = false ∧
    ∃ r : RunRow, Store.Descends F.store r.id 2 ∧ ∀ k, F'.store.runs.get? k = F.store.runs.get? k ∨
    Store.Descends F.store r.id k := by
  obtain ⟨F, h, hp⟩ :=
    Run.exists_of_replay (step Sys.sampleEngine) (fun _ _ => true) (init 0) stopping
    (fun F => F.store.live 2 &&
      (step Sys.sampleEngine F (.native 0 (.ok []))).any (fun F' => !F'.store.live 2))
        (by decide +kernel)
  rw [Bool.and_eq_true, Option.any_eq_true] at hp
  obtain ⟨hlive, F', hs, hdead⟩ := hp
  rw [Bool.not_eq_true'] at hdead
  obtain hsame | ⟨_, _, _, r, _, _, _, _, _, _, _, _, hspared⟩ := cancelRuns_spared h hs
  · rw [hsame, hlive] at hdead
    cases hdead
  · refine ⟨F, F', h, hs, hlive, hdead, r, ?_, fun k => (hspared k).imp_right And.left⟩
    obtain hsame | ⟨hbelow, _⟩ := hspared 2
    · rw [Store.live, hsame, ← Store.live, hlive] at hdead
      cases hdead
    · exact hbelow

end Sample

end Fleet

end ZenZip
