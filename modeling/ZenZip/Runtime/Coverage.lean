import ZenZip.Runtime.Debts
import ZenZip.Runtime.Terminal

namespace ZenZip

open Lib

namespace Worker

/-- The claim the thread works on is the latest of the job. -/
def holds (t : Worker) (j : JobRow) : Bool :=
  t.kind.job?.any (fun cj => cj.id = j.id && cj.fence = j.fence)

theorem holds_iff {t : Worker} {j : JobRow} :
    t.holds j = true ↔ ∃ cj, t.kind.job? = some cj ∧ cj.id = j.id ∧ cj.fence = j.fence := by
  simp [holds, Option.any_eq_true]

end Worker

namespace Sys

/-- The job is about to be acked by a thread that is through with its run. -/
def doomed (σ : Sys) (j : JobRow) : Bool :=
  σ.pool.any (fun t : Worker => t.live && t.track.released && t.holds j)

theorem doomed_iff {σ : Sys} {j : JobRow} : σ.doomed j = true ↔
    ∃ (k : Nat) (t : Worker), σ.pool[k]? = some t ∧ t.live = true ∧ t.track.released = true ∧
    t.holds j = true := by
  simp only [doomed, List.any_eq_true, Bool.and_eq_true, List.mem_iff_getElem?]
  constructor
  · rintro ⟨t, ⟨k, hk⟩, ⟨hl, hr⟩, hh⟩
    exact ⟨k, t, hk, hl, hr, hh⟩
  · rintro ⟨k, t, hk, hl, hr, hh⟩
    exact ⟨t, ⟨k, hk⟩, ⟨hl, hr⟩, hh⟩

def covers (σ : Sys) (r : RunId) (j : JobRow) : Bool :=
  j.payload = .execution r && j.status ≠ .dead && !σ.doomed j

theorem covers_iff {σ : Sys} {r : RunId} {j : JobRow} : σ.covers r j = true ↔
    j.payload = .execution r ∧ j.status ≠ .dead ∧ σ.doomed j = false := by
  simp [covers, and_assoc]

def debtor (σ : Sys) (r : RunId) (k : Nat) : Bool :=
  (σ.pool[k]?).any (fun t : Worker => t.live && t.owes r)

theorem debtor_iff {σ : Sys} {r : RunId} {k : Nat} : σ.debtor r k = true ↔
    ∃ t : Worker, σ.pool[k]? = some t ∧ t.live = true ∧ t.owes r = true := by
  simp [debtor, Option.any_eq_true]

/-- The run, unless it is suspended, has a job that will have it executed, or a
call that will push one. -/
def CoversRun (σ : Sys) (r : RunId) : Prop :=
  ∀ row, σ.store.runs.get? r = some row → row.status.executable = true →
    (∃ j ∈ σ.store.jobs.rows, σ.covers r j = true) ∨ ∃ k, σ.debtor r k = true

def Covered (σ : Sys) : Prop := ∀ r, σ.CoversRun r

def dies (σ : Sys) : Label → JobRow → Bool
  | .call i (.ok _), j => match σ.pendingCall i with
    | some (.failDead id _ fence) => j.id = id && j.fence = fence
    | some (.sweepExpired t) => Store.expired t j && j.maxAttempts ≤ j.attempt
    | _ => false
  | _, _ => false

def defaults : Label → Nat → Bool
  | .crash i, k | .call i (.fail _), k => k = i
  | _, _ => false

/-- The step dead-letters a job of the run, or takes out a thread that owes it one. -/
def hits (σ : Sys) (l : Label) (r : RunId) : Bool :=
  σ.store.jobs.rows.any (fun j => j.payload = .execution r && σ.dies l j) ||
    (List.range σ.pool.length).any (fun k => defaults l k && σ.debtor r k)

def outlasts (σ : Sys) (l : Label) (r : RunId) : Bool :=
  σ.store.jobs.rows.any (fun j => σ.covers r j && !σ.dies l j) ||
    (List.range σ.pool.length).any (fun k => !defaults l k && σ.debtor r k)

/-- The step takes from the run the last job, or the last call, that would have
it executed. -/
def strands (σ : Sys) (l : Label) (r : RunId) : Bool :=
  (σ.store.runs.get? r).any (fun row => row.status.executable) && σ.hits l r && !σ.outlasts l r

def strandsNone (σ : Sys) (l : Label) : Bool :=
  σ.store.runs.rows.all (fun row => !σ.strands l row.id)

variable {E : WorkflowEngine} {σ σ' : Sys} {l : Label} {r : RunId} {row : RunRow}

theorem CoversRun.outlasts (hL : σ.CoversRun r) (hok : σ.strands l r = false)
    (hr : σ.store.runs.get? r = some row) (hs : row.status.executable = true) :
    (∃ j ∈ σ.store.jobs.rows, σ.covers r j = true ∧ σ.dies l j = false) ∨
      ∃ k, σ.debtor r k = true ∧ defaults l k = false := by
  by_cases hhit : σ.hits l r = true
  · have hout : σ.outlasts l r = true := by simpa [strands, hr, hs, hhit] using hok
    simp only [Sys.outlasts, Bool.or_eq_true, List.any_eq_true, Bool.and_eq_true,
      Bool.not_eq_true'] at hout
    obtain ⟨j, hj, hc, hd⟩ | ⟨k, _, hd, hk⟩ := hout
    · exact .inl ⟨j, hj, hc, hd⟩
    · exact .inr ⟨k, hk, hd⟩
  · simp only [hits, Bool.or_eq_true, List.any_eq_true, Bool.and_eq_true, decide_eq_true_eq,
      not_or] at hhit
    obtain ⟨j, hj, hc⟩ | ⟨k, hk⟩ := hL row hr hs
    · refine .inl ⟨j, hj, hc, ?_⟩
      cases hd : σ.dies l j with
      | false => rfl
      | true => exact absurd ⟨j, hj, (covers_iff.mp hc).1, hd⟩ hhit.1
    · refine .inr ⟨k, hk, ?_⟩
      obtain ⟨t, ht, _⟩ := debtor_iff.mp hk
      cases hd : defaults l k with
      | false => rfl
      | true => exact absurd ⟨k, List.mem_range.mpr (lt_of_getElem? ht), hd, hk⟩ hhit.2

theorem Move.not_doomed (h : Move E σ l σ') (hb : σ.Base) {i : Nat} {ch : Choice}
    (hl : l = .call i ch)
    {j : JobRow} (hge : σ.store.nextId ≤ j.id) : σ'.doomed j = false := by
  rw [← Bool.not_eq_true, doomed_iff]
  rintro ⟨k, t, ht, _, _, hh⟩
  obtain ⟨cj, hcj, hid, _⟩ := Worker.holds_iff.mp hh
  obtain ⟨t₀, ht₀, hk⟩ | ⟨hnone, _⟩ | ⟨_, _, _, _, hcl, _⟩ := (h.thread ht).kind
  · rw [hk] at hcj
    have := hb.job_lt k t₀ cj ht₀ hcj
    rw [hid] at this
    exact absurd hge (Nat.not_le_of_lt this)
  · rw [hnone] at hcj
    cases hcj
  · rw [hl] at hcl
    cases hcl

theorem JobMove.not_dead {j j' : JobRow} (hm : JobMove E σ l j j') (hst : j.status ≠ .dead)
    (hd : σ.dies l j = false) :
    j'.status ≠ .dead := by
  cases hm with
  | same => exact hst
  | claimed => exact nofun
  | renewed _ _ _ hs => simp [hs]
  | called i t c _ _ _ hcall hch =>
      obtain ⟨k, hp⟩ := hcall.prog
      obtain ⟨locked, rfl⟩ := hcall.label
      have hpend := pendingCall_eq hcall.thread hp
      cases hch with
      | same => exact hst
      | retried => exact nofun
      | dead _ error => simp [dies, hpend] at hd
      | expired _ t he =>
          simp only [dies, hpend, he, Bool.true_and, decide_eq_false_iff_not] at hd
          simp [Store.expiredRow, hd]
      | requeued _ ids _ hdead => exact absurd hdead hst

theorem not_holds {j : JobRow} (hdoom : σ.doomed j = false) {k : Nat} {t : Worker}
    (ht : σ.pool[k]? = some t)
    (hl : t.live = true) (hr : t.track.released = true) : t.holds j ≠ true := by
  intro hh
  rw [doomed_iff.mpr ⟨k, t, ht, hl, hr, hh⟩] at hdoom
  cases hdoom

theorem Move.releases_of_doomed (h : Move E σ l σ') (hb : σ.Base) {j j' : JobRow}
    (hj : j ∈ σ.store.jobs.rows)
    (hpay : j.payload = .execution r) (hdoom : σ.doomed j = false) (hid : j'.id = j.id)
    (hfence : j.fence ≤ j'.fence)
    (hdoom' : σ'.doomed j' = true) :
    ∃ i t c k locked, l = .call i (.ok locked) ∧ σ.pool[i]? = some t ∧
      t.prog = .call (.store c) k ∧ Releases r c (c.perform σ.store σ.clock locked).2 := by
  obtain ⟨k, u, hu, hul, hur, huh⟩ := doomed_iff.mp hdoom'
  obtain ⟨cj, hcj, hcid, hcf⟩ := Worker.holds_iff.mp huh
  -- the claim that dooms the row now was one of the row before
  have hback {t : Worker} (ht : σ.pool[k]? = some t) (hk : u.kind = t.kind) : t.holds j = true := by
    rw [hk] at hcj
    refine Worker.holds_iff.mpr ⟨cj, hcj, hcid.trans hid, ?_⟩
    have := (hb.row k t cj j ht hcj hj (hid.symm.trans hcid.symm)).1
    exact Nat.le_antisymm this (by rw [hcf]; exact hfence)
  cases h.thread hu with
  | stays _ ht => exact absurd (hback ht rfl) (not_holds hdoom ht hul hur)
  | spawned task _ he =>
      subst he
      cases hcj
  | claimed _ _ _ _ _ _ _ he =>
      subst he
      cases hur
  | crashed t _ _ he =>
      subst he
      cases hul
  | answered t op kk ch res ht hp hres he =>
      subst he
      have hrel : Track.released (Worker.track t) = true := by
        rw [Worker.track_answer, (Track.next_aside hres).1] at hur
        exact hur
      exact absurd (hback ht rfl) (not_holds hdoom ht (Thread.live_of_call hp) hrel)
  | stored t c kk locked ht hp he =>
      subst he
      have hlive := Thread.live_of_call hp
      obtain hrel | ⟨r', ho, hrel⟩ := Track.released_after hur ((hb.obeys k t ht hlive).mayCall hp)
      · exact absurd (hback ht rfl) (not_holds hdoom ht hlive hrel)
      · have hr : r' = r := by
          obtain ⟨cj', hcj', hpc⟩ := Kind.job?_of_run? ((Worker.track_own t).1.symm.trans ho)
          have : cj' = cj := Option.some.inj (hcj'.symm.trans hcj)
          subst this
          have hp' := (hb.row k t cj' j ht hcj' hj (hid.symm.trans hcid.symm)).2
          rw [hpay, hpc] at hp'
          cases hp'
          rfl
        subst hr
        exact ⟨k, t, c, kk, locked, rfl, ht, hp, hrel⟩

theorem Calling.not_covers {i : Nat} {t : Worker} {c : Call} (hcall : σ.Calling l i t c)
    (hb : σ.Base) {j : JobRow}
    (hj : j ∈ σ.store.jobs.rows) (hloss : JobLoss c j) : σ.covers r j ≠ true := by
  intro hc
  obtain ⟨hpay, hst, hdoom⟩ := covers_iff.mp hc
  obtain ⟨_, hmay⟩ := hb.obeys_calling hcall
  obtain ⟨k, hp⟩ := hcall.prog
  cases hloss with
  | acked =>
      obtain ⟨_, hrel, cj, hcj, hcid, hcf⟩ := hmay
      have hh : t.holds j = true :=
        Worker.holds_iff.mpr ⟨cj, (Worker.track_own t).2.symm.trans hcj, hcid, hcf⟩
      exact not_holds hdoom hcall.thread (Thread.live_of_call hp) hrel hh
  | purged _ _ hdead => exact hst hdead
  | debounced _ job jobs hjob hdeb => exact Store.not_debounced (hb.plain j hj r hpay).1 job hdeb

/-- A row that covers its run goes on doing so, unless it dies or its attempt
is through with the run. -/
theorem Move.covers (h : Move E σ l σ') (hb : σ.Base) {j : JobRow} (hj : j ∈ σ.store.jobs.rows)
    (hc : σ.covers r j = true) (hd : σ.dies l j = false) :
    (∃ j' ∈ σ'.store.jobs.rows, σ'.covers r j' = true) ∨
      ∃ i t c k locked,
        l = .call i (.ok locked) ∧ σ.pool[i]? = some t ∧ t.prog = .call (.store c) k ∧
        Releases r c (c.perform σ.store σ.clock locked).2 := by
  obtain ⟨hpay, hst, hdoom⟩ := covers_iff.mp hc
  obtain ⟨j', hm, hj'⟩ | ⟨i, t, c, hcall, hloss⟩ := h.job_cases hj
  · obtain ⟨hid, hpay', _, hfence⟩ := hm.frame
    cases hdoom' : σ'.doomed j' with
    | false => exact .inl ⟨j', hj', covers_iff.mpr ⟨hpay'.trans hpay, hm.not_dead hst hd, hdoom'⟩⟩
    | true => exact .inr (h.releases_of_doomed hb hj hpay hdoom hid hfence hdoom')
  · exact absurd hc (hcall.not_covers hb hj hloss)

/-- What a thread owes it goes on owing until it pays or is taken out. -/
theorem Move.debt (h : Move E σ l σ') (hb : σ.Base) {k : Nat} (hk : σ.debtor r k = true)
    (hd : defaults l k = false) :
    σ'.debtor r k = true ∨ ∃ t c kk locked, l = .call k (.ok locked) ∧ σ.pool[k]? = some t ∧
      t.prog = .call (.store c) kk ∧ Pays c (c.perform σ.store σ.clock locked).2 r := by
  obtain ⟨t, ht, hl, ho⟩ := debtor_iff.mp hk
  obtain ⟨u, hu, hm⟩ := h.thread_of ht
  cases hm with
  | stays _ ht' =>
      obtain rfl : t = u := Option.some.inj (ht.symm.trans ht')
      exact .inl (debtor_iff.mpr ⟨t, hu, hl, ho⟩)
  | spawned _ _ _ hj =>
      have := lt_of_getElem? ht
      omega
  | claimed _ _ _ _ _ hge =>
      have := lt_of_getElem? ht
      omega
  | crashed => simp [defaults] at hd
  | answered t' op kk ch res ht' hp hres he =>
      obtain rfl : t = t' := Option.some.inj (ht.symm.trans ht')
      subst he
      have hob := (hb.obeys k t ht hl).answer hp hres.answers
      obtain ⟨_, ⟨e, rfl, _⟩ | ⟨howes, hsleep, _⟩⟩ := @Track.next_aside t.track _ _ _ _ hres
      · simp [defaults] at hd
      · have ho' : Worker.owes (t.answer op res (kk res)) r = true := by
          obtain hr | ⟨hs, hown⟩ := Worker.owes_iff.mp ho
          · refine Worker.owes_iff.mpr (.inl ?_)
            rw [Worker.track_answer, howes]
            exact hr
          · refine Worker.owes_iff.mpr (.inr ⟨?_, hown⟩)
            rw [Worker.track_answer, hsleep]
            exact hs
        exact .inl (debtor_iff.mpr ⟨_, hu, Worker.live_of_owes hob ho', ho'⟩)
  | stored t' c kk locked ht' hp he =>
      obtain rfl : t = t' := Option.some.inj (ht.symm.trans ht')
      subst he
      have hob := (hb.obeys k t ht hl).answer hp (Call.answers_perform σ.store σ.clock locked c)
      obtain ho' | hpay := Worker.owes_answer c (c.perform σ.store σ.clock locked).2
        (kk (.ok (c.perform σ.store σ.clock locked).2)) ho
      · exact .inl (debtor_iff.mpr ⟨_, hu, Worker.live_of_owes hob ho', ho'⟩)
      · exact .inr ⟨t, c, kk, locked, rfl, ht, hp, hpay⟩

theorem Move.covers_pushed (h : Move E σ l σ') (hb : σ.Base) {i : Nat} {ch : Choice}
    (hl : l = .call i ch)
    {j : JobRow} (hge : σ.store.nextId ≤ j.id) {workflow : String} {delayMs : Int}
    (hp : Store.Pushed σ.clock (workflowExecutionJob workflow r delayMs) j) :
    σ'.covers r j = true := by
  refine covers_iff.mpr ⟨hp.payload, ?_, h.not_doomed hb hl hge⟩
  rw [hp.status]
  nofun

theorem Move.push_covers (h : Move E σ l σ') (hb : σ.Base) {i : Nat} {t : Worker}
    {jobs : List PushJob}
    {k : Except String (Call.push jobs).Ret → M Reply} {locked : List RunId}
    (hl : l = .call i (.ok locked))
    (ht : σ.pool[i]? = some t) (hp : t.prog = .call (.store (.push jobs)) k)
    (hr : r ∈ jobs.filterMap PushJob.run?) : ∃ j ∈ σ'.store.jobs.rows, σ'.covers r j = true := by
  obtain ⟨job, hjob, hrun⟩ := List.mem_filterMap.mp hr
  obtain ⟨rfl, ⟨workflow, delayMs, rfl⟩, _⟩ :=
    (hb.obeys i t ht (Thread.live_of_call hp)).mayCall hp |>.2 job hjob r hrun
  subst hl
  obtain ⟨j, hj, hid, hpushed⟩ :=
    Store.mem_push_singleton hb.fresh.jobs (workflowExecutionJob workflow r delayMs)
    σ.clock
  refine ⟨j, ?_, h.covers_pushed hb rfl (Nat.le_of_eq hid.symm) hpushed⟩
  rw [h.eq_stored ht hp]
  exact hj

theorem settles_row {c : Call} {s : Store} (hc : c.settles = some r) (hr : s.runs.get? r = some row)
    (now : Time)
    (locked : List RunId) :
    ∃ row', (c.perform s now locked).1.runs.get? r = some row' ∧
    row'.status.executable = false := by
  have hupd {f : RunRow → RunRow} {hf : ∀ x, (f x).id = x.id}
    (hs : (f row).status.executable = false) :
      ∃ row', (s.updateRun r (fun _ => true) f hf).runs.get? r = some row' ∧
        row'.status.executable = false := by
    refine ⟨f row, ?_, hs⟩
    rw [Store.get?_updateRun, hr]
    simp
  cases c with
  | runCompleted | runFailed | runWaitingEvent | runWaitingChild =>
      cases hc
      exact hupd rfl
  | _ => cases hc

theorem Move.releases (h : Move E σ l σ') (hb : σ.Base) (hr : σ.store.runs.get? r = some row)
    (hs : row.status.executable = true)
    (hr' : ∀ row', σ'.store.runs.get? r = some row' → row'.status.executable = true) {i : Nat}
    {t : Worker}
    {c : Call} {k : Except String c.Ret → M Reply} {locked : List RunId}
    (hl : l = .call i (.ok locked))
    (ht : σ.pool[i]? = some t) (hp : t.prog = .call (.store c) k)
    (hrel : Releases r c (c.perform σ.store σ.clock locked).2) :
    ∃ j ∈ σ'.store.jobs.rows, σ'.covers r j = true := by
  generalize hv : (c.perform σ.store σ.clock locked).2 = v at hrel
  cases hrel with
  | pushed jobs ids hmem => exact h.push_covers hb hl ht hp hmem
  | gone =>
      have hv' : σ.store.runs.get? r = none := hv
      rw [hr] at hv'
      cases hv'
  | idle row' hidle =>
      have hv' : σ.store.runs.get? r = some row' := hv
      rw [hr] at hv'
      cases hv'
      rw [hs] at hidle
      cases hidle
  | settled _ _ hset =>
      subst hl
      obtain ⟨row', hrow', hidle⟩ := settles_row hset hr σ.clock locked
      have := hr' row' (by rw [h.eq_stored ht hp]; exact hrow')
      rw [this] at hidle
      cases hidle

theorem Move.pays (h : Move E σ l σ') (hb : σ.Base) (hr : σ.store.runs.get? r = some row) {i : Nat}
    {t : Worker}
    {c : Call} {k : Except String c.Ret → M Reply} {locked : List RunId}
    (hl : l = .call i (.ok locked))
    (ht : σ.pool[i]? = some t) (hp : t.prog = .call (.store c) k)
    (hpay : Pays c (c.perform σ.store σ.clock locked).2 r) :
    ∃ j ∈ σ'.store.jobs.rows, σ'.covers r j = true := by
  generalize hv : (c.perform σ.store σ.clock locked).2 = v at hpay
  cases hpay with
  | pushed jobs ids _ hmem => exact h.push_covers hb hl ht hp hmem
  | gone =>
      have hv' : σ.store.runs.get? r = none := hv
      rw [hr] at hv'
      cases hv'

/-- The store has a fresh job for the run, or the thread has taken one on. -/
inductive Provides (s : Store) (c : Call) (now : Time) (locked : List RunId) (r : RunId) : Prop
  | pushed (workflow : String) (delayMs : Int) (j : JobRow)
  (hj : j ∈ (c.perform s now locked).1.jobs.rows) (hge : s.nextId ≤ j.id)
      (hp : Store.Pushed now (workflowExecutionJob workflow r delayMs) j)
  | incurred (h : Incurs c (c.perform s now locked).2 r)
  | sleeps (wakeAt : Time) (h : c = .runSleeping r wakeAt)

section Provides

variable {s : Store} {c : Call} {now : Time} {locked : List RunId} {row₀ : RunRow}

theorem provides_new (hf : ∀ j ∈ s.jobs.rows, j.id < s.nextId) (hold : s.runs.get? r = none)
    (hr' : (c.perform s now locked).1.runs.get? r = some row) : Provides s c now locked r := by
  obtain hn | ⟨run, rfl, _, he, _⟩ | ⟨name, payload, targets, rfl, tg, _, _, _, _, j, hj, hge,
    hpushed⟩ :=
    Call.perform_run_of_none c now locked hf hold
  · rw [hn] at hr'
    cases hr'
  · apply Provides.incurred
    show Incurs (.createRun run) (s.createRun run now).2 r
    rw [he]
    exact .created run r
  · exact .pushed _ _ j hj hge hpushed

theorem provides_change (hf : ∀ j ∈ s.jobs.rows, j.id < s.nextId) (hold : s.runs.get? r = some row₀)
    (hidle : row₀.status.executable = false) (hs : row.status.executable = true)
    (hch : RunChange now c row₀ row)
    (hr' : (c.perform s now locked).1.runs.get? r = some row) : Provides s c now locked r := by
  have hid := Table.key_of_get? hold
  -- a row that the call passes over is as idle as before
  have hsame (he : (c.perform s now locked).1.runs.get? r = some row₀) : False := by
    rw [Option.some.inj (hr'.symm.trans he), hidle] at hs
    cases hs
  cases hch with
  | completed | failed | waitingEvent | waitingChild | cancelled => cases hs
  | sleeping _ wakeAt => exact .sleeps wakeAt (by rw [hid])
  | wokenParent _ hw =>
      apply Provides.incurred
      have hv : ((Call.wakeParent row₀.id).perform s now locked).2 = true := by
        show (s.runs.get? row₀.id).any _ = true
        rw [hid, hold]
        simp [hw]
      rw [hv, hid]
      exact .woken r
  | released _ name payload targets =>
      have he := Call.emit_runs_of_some name payload targets now locked hold
      by_cases hw : row₀ ∈ s.waitersOf name payload locked
      · obtain ⟨j, hj, hge, hpushed⟩ := s.emitInTx_pushes name payload targets locked now hf hw
        rw [hid] at hpushed
        exact .pushed _ _ j hj hge hpushed
      · rw [if_neg hw] at he
        exact (hsame he).elim
  | timedOut _ timeout t' hst hw hle =>
      have he := Table.get?_update s.runs (Store.timedOut timeout locked)
        (Store.timedOutRow timeout) (fun _ => rfl) r
      rw [hold, Option.map_some] at he
      by_cases hto : Store.timedOut timeout locked row₀ = true
      · apply Provides.incurred
        have hw : (⟨row₀.id, row₀.workflow, row₀.waitStepId.getD ""⟩ : Waiter) ∈
            ((Call.sweepEventTimeouts timeout).perform s now locked).2 :=
          List.mem_map.mpr ⟨row₀, Table.mem_select.mpr ⟨Table.mem_of_get? hold, hto⟩, rfl⟩
        rw [← hid]
        exact .swept timeout _ _ hw
      · rw [if_neg hto] at he
        exact (hsame he).elim

theorem provides_of_executable (hf : ∀ j ∈ s.jobs.rows, j.id < s.nextId)
    (hbefore : ∀ row, s.runs.get? r = some row → row.status.executable = false)
    (hs : row.status.executable = true)
    (hr' : (c.perform s now locked).1.runs.get? r = some row) : Provides s c now locked r := by
  cases hold : s.runs.get? r with
  | none => exact provides_new hf hold hr'
  | some row₀ =>
      have hidle := hbefore row₀ hold
      obtain hsame | ⟨row', hch, hrow'⟩ | ⟨_, hn⟩ := Call.perform_run_cases c now locked hold
      · rw [Option.some.inj (hr'.symm.trans hsame), hidle] at hs
        cases hs
      · obtain rfl : row = row' := Option.some.inj (hr'.symm.trans hrow')
        exact provides_change hf hold hidle hs hch hr'
      · rw [hn] at hr'
        cases hr'

end Provides

/-- A call that makes a run executable owes it a job, or has pushed one with it. -/
theorem Move.activates (h : Move E σ l σ') (hb : σ.Base)
    (hbefore : ∀ row, σ.store.runs.get? r = some row → row.status.executable = false)
    (hr' : σ'.store.runs.get? r = some row) (hs : row.status.executable = true) :
    (∃ j ∈ σ'.store.jobs.rows, σ'.covers r j = true) ∨ ∃ k, σ'.debtor r k = true := by
  cases hstep : h with
  | ticked | spawned | answered | crashed | claimed | renewed | recorded =>
      have := hbefore row hr'
      rw [hs] at this
      cases this
  | stored i t c k locked ht hp =>
      have hlt : i < σ.pool.length := lt_of_getElem? ht
      have hu : (σ.stored i t c k locked).pool[i]? = some (t.answer (.store c)
          (.ok (c.perform σ.store σ.clock locked).2)
            (k (.ok (c.perform σ.store σ.clock locked).2))) :=
        List.getElem?_set_self hlt
      have hob :=
        (hb.obeys i t ht (Thread.live_of_call hp)).answer hp
          (Call.answers_perform σ.store σ.clock locked c)
      have hdebtor (ho : Worker.owes (t.answer (.store c) (.ok (c.perform σ.store σ.clock locked).2)
          (k (.ok (c.perform σ.store σ.clock locked).2))) r = true) :
          (σ.stored i t c k locked).debtor r i = true :=
        debtor_iff.mpr ⟨_, hu, Worker.live_of_owes hob ho, ho⟩
      have hmay := (hb.obeys i t ht (Thread.live_of_call hp)).mayCall hp
      cases provides_of_executable hb.fresh.jobs hbefore hs hr' with
      | pushed workflow delayMs j hj hge hpushed =>
          exact .inl ⟨j, hj, h.covers_pushed hb rfl hge hpushed⟩
      | incurred hin => exact .inr ⟨i, hdebtor (Worker.owes_iff.mpr (.inl (Track.incurs_owes hin)))⟩
      | sleeps wakeAt hc =>
          subst hc
          have hown := hmay.1
          rw [(Worker.track_own t).1] at hown
          exact .inr ⟨i, hdebtor (Worker.owes_iff.mpr (.inr ⟨rfl, hown⟩))⟩

theorem Move.coversRun (h : Move E σ l σ') (hb : σ.Base) (hL : σ.CoversRun r)
    (hok : σ.strands l r = false) :
    σ'.CoversRun r := by
  intro row' hr' hs'
  by_cases hbefore : ∃ row, σ.store.runs.get? r = some row ∧ row.status.executable = true
  · obtain ⟨row, hr, hs⟩ := hbefore
    have hafter : ∀ row₁, σ'.store.runs.get? r = some row₁ → row₁.status.executable = true := by
      intro row₁ h₁
      rw [hr'] at h₁
      cases h₁
      exact hs'
    obtain ⟨j, hj, hc, hd⟩ | ⟨k, hk, hd⟩ := hL.outlasts hok hr hs
    · obtain hcov | ⟨i, t, c, k, locked, hl, ht, hp, hrel⟩ := h.covers hb hj hc hd
      · exact .inl hcov
      · exact .inl (h.releases hb hr hs hafter hl ht hp hrel)
    · obtain hdebt | ⟨t, c, kk, locked, hl, ht, hp, hpay⟩ := h.debt hb hk hd
      · exact .inr ⟨k, hdebt⟩
      · exact .inl (h.pays hb hr hl ht hp hpay)
  · refine h.activates hb (fun row hrow => ?_) hr' hs'
    cases hs : row.status.executable with
    | false => rfl
    | true => exact absurd ⟨row, hrow, hs⟩ hbefore

theorem Move.covered (h : Move E σ l σ') (hb : σ.Base) (hL : σ.Covered)
    (hok : σ.strandsNone l = true) :
    σ'.Covered := by
  intro r
  refine h.coversRun hb (hL r) ?_
  cases hr : σ.store.runs.get? r with
  | none => simp [strands, hr]
  | some row =>
      have hrow := List.all_eq_true.mp hok row (Table.mem_of_get? hr)
      rw [Table.key_of_get? hr] at hrow
      simpa using hrow

theorem coversRun_of_run {ok : Sys → Label → Bool}
    (hok : ∀ σ l, ok σ l = true → σ.strands l r = false)
    {clock : Time} (h : Run (step E) ok (init .empty clock) σ) : σ.CoversRun r :=
  h.invariant (fun σ => σ.CoversRun r) (fun row hr => by cases hr)
    (fun τ l _ hrun hI hokl hs => (step_move hs).coversRun (base_of_run hrun) hI (hok τ l hokl))

theorem covered_of_run {ok : Sys → Label → Bool}
    (hok : ∀ σ l, ok σ l = true → σ.strandsNone l = true)
    {clock : Time} (h : Run (step E) ok (init .empty clock) σ) : σ.Covered :=
  h.invariant Covered (fun r row hr => by cases hr)
    (fun τ l _ hrun hI hokl hs => (step_move hs).covered (base_of_run hrun) hI (hok τ l hokl))

end Sys

end ZenZip
