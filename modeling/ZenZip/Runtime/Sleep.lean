import ZenZip.Runtime.Tokens
import ZenZip.Runtime.Stale

namespace ZenZip

open Lib

namespace Track

theorem read_after (g : Track) (c : Call) (v : c.Ret) : (g.after c v).read = g.read := by
  cases c with
  | getRun id =>
      obtain ⟨_, _, _, h⟩ := g.looked_eq id v
      rw [after, h]
  | createRun run =>
      obtain ⟨id, created⟩ := v
      rfl
  | _ => rfl

theorem read_next {g : Track} {op : Op} {ch : Choice} {clock : Time} {res : Except String (Val op)}
    (ha : Aside clock op ch res) :
    (g.next op res).read = g.read ∨ (g.next op res).read = some clock := by
  cases ha with
  | failed | draw => exact .inl rfl
  | clock => exact .inr rfl
  | outcome req o => cases o <;> exact .inl rfl

end Track

namespace Sys

variable {E : WorkflowEngine} {σ σ' σ'' : Sys} {l : Label} {r : RunId} {wake : Time} {k : Nat}

theorem Move.clock_le (h : Move E σ l σ') : σ.clock ≤ σ'.clock := by
  cases h with
  | ticked d => exact Int.le_add_of_nonneg_right (Int.natCast_nonneg d)
  | spawned | claimed | stored | answered | crashed | renewed | recorded => exact Int.le_refl _

def Timely (σ : Sys) : Prop :=
  ∀ (m : Nat) (t : Worker) (now : Time), σ.pool[m]? = some t → t.track.read = some now →
    now ≤ σ.clock

theorem Move.timely (h : Move E σ l σ') (hI : σ.Timely) : σ'.Timely := by
  intro m t now ht hr
  have hle := h.clock_le
  cases h.thread ht with
  | stays _ ht₀ => exact Int.le_trans (hI m t now ht₀ hr) hle
  | spawned _ _ he | claimed _ _ _ _ _ _ _ he =>
      subst he
      cases hr
  | crashed t₀ ht₀ _ he =>
      subst he
      exact Int.le_trans (hI m t₀ now ht₀ hr) hle
  | stored t₀ c kk locked ht₀ hp he =>
      subst he
      have hr : Track.read (Track.after (Worker.track t₀) c (c.perform σ.store σ.clock locked).2) =
        some now := hr
      rw [Track.read_after] at hr
      exact Int.le_trans (hI m t₀ now ht₀ hr) hle
  | answered t₀ op kk ch res ht₀ hp hres he =>
      subst he
      rw [Worker.track_answer] at hr
      obtain he | he := @Track.read_next (Worker.track t₀) _ _ _ _ hres
      · rw [he] at hr
        exact Int.le_trans (hI m t₀ now ht₀ hr) hle
      · rw [he] at hr
        cases hr
        exact hle

theorem timely_of_run {ok : Sys → Label → Bool} {clock : Time}
    (h : Run (step E) ok (init .empty clock) σ) :
    σ.Timely :=
  h.invariant Timely (fun m t now ht => by cases ht)
    (fun _ _ _ _ hI _ hs => (step_move hs).timely hI)

/-- Attempt `k` has the run to itself: there is no other one, no job of the run
is due before `wake`, it is not parked, and no call owes it a job. -/
structure Alone (σ : Sys) (r : RunId) (wake : Time) (k : Nat) : Prop where
  attempts : ∀ (m : Nat) (t : Worker), σ.pool[m]? = some t → t.live = true →
    t.kind.run? = some r → m = k
  jobs : ∀ j ∈ σ.store.jobs.rows, j.payload = .execution r → j.status = .pending →
    wake ≤ j.availableAt
  row : ∀ row, σ.store.runs.get? r = some row → row.status.parked = false
  owes : ∀ (m : Nat) (t : Worker), σ.pool[m]? = some t → t.live = true → r ∉ t.track.owes

/-- Attempt `k` has the run to itself, and is putting it to sleep. -/
structure Asleep (σ : Sys) (r : RunId) (wake : Time) (k : Nat) : Prop extends Alone σ r wake k where
  made : r < σ.store.nextId
  outcome : ∀ (t : Worker), σ.pool[k]? = some t → t.kind.run? = some r ∧
    ∃ s, t.track.outcome = some (.sleep s wake)

/-- Up to `wake` no job of the run is put back into the queue to be due before. -/
def keepsAsleep (r : RunId) (wake : Time) (σ : Sys) : Label → Bool
  | .call i (.ok _) => wake ≤ σ.clock || match σ.pendingCall i with
    | some (.failRetry id _ availableAt fence) => σ.store.jobs.rows.all (fun j =>
        j.payload ≠ .execution r || !(j.id = id && j.fence = fence) || wake ≤ availableAt)
    | some (.sweepExpired t) => σ.store.jobs.rows.all (fun j =>
        j.payload ≠ .execution r || !Store.expired t j || j.maxAttempts ≤ j.attempt || wake ≤ t)
    | some (.requeueDead ids) => σ.store.jobs.rows.all (fun j =>
        j.payload ≠ .execution r || !(j.id ∈ ids && j.status = .dead))
    | _ => true
  | _ => true

theorem keepsAsleep_call {i : Nat} {t : Worker} {c : Call} (hok : σ.keepsAsleep r wake l = true)
    (hc : σ.Calling l i t c) (hlt : σ.clock < wake) {j : JobRow} (hj : j ∈ σ.store.jobs.rows)
    (hp : j.payload = .execution r) :
    (∀ error availableAt, c = .failRetry j.id error availableAt j.fence → wake ≤ availableAt) ∧
    (∀ t, c = .sweepExpired t → Store.expired t j = true → j.maxAttempts ≤ j.attempt ∨ wake ≤ t) ∧
    (∀ ids, c = .requeueDead ids → j.id ∈ ids → j.status ≠ .dead) := by
  obtain ⟨kk, hprog⟩ := hc.prog
  obtain ⟨locked, rfl⟩ := hc.label
  have hnot : ¬ wake ≤ σ.clock := Int.not_le.mpr hlt
  simp only [keepsAsleep, pendingCall_eq hc.thread hprog, hnot, decide_false, Bool.false_or] at hok
  refine ⟨?_, ?_, ?_⟩
  · rintro error availableAt rfl
    simpa [hp] using List.all_eq_true.mp hok j hj
  · rintro t rfl he
    simpa [hp, he] using List.all_eq_true.mp hok j hj
  · rintro ids rfl hid
    simpa [hp, hid] using List.all_eq_true.mp hok j hj

theorem Track.waits_due {g : Track} {s : StepId} {delayMs : Int} {clock : Time}
    (ho : g.outcome = some (.sleep s wake))
    (hw : g.waits delayMs) (hread : ∀ now, g.read = some now → now ≤ clock) :
    wake ≤ clock + max delayMs 0 := by
  obtain ⟨now, hnow, hle⟩ := hw s wake ho
  calc wake ≤ now + delayMs := hle
    _ ≤ clock + max delayMs 0 := Int.add_le_add (hread now hnow) (Int.le_max_left _ _)

theorem Move.asleep_jobs (h : Move E σ l σ') (hb : σ.Base) (hI : σ.Asleep r wake k) (ht : σ.Timely)
    (hlt : σ.clock < wake) (hok : σ.keepsAsleep r wake l = true) {j : JobRow}
    (hj : j ∈ σ'.store.jobs.rows)
    (hp : j.payload = .execution r) (hs : j.status = .pending) : wake ≤ j.availableAt := by
  obtain ⟨j₀, hj₀, hm⟩ | ⟨i, t, c, hc, _, _, hn⟩ := h.job_origin hj
  · have hp₀ : j₀.payload = .execution r := hm.frame.2.1.symm.trans hp
    cases hm with
    | same => exact hI.jobs j hj₀ hp hs
    | claimed => cases hs
    | renewed _ _ _ hrun =>
        have hs : j₀.status = .pending := hs
        rw [hrun] at hs
        cases hs
    | called i t c _ _ _ hc hch =>
        obtain ⟨hretry, hsweep, hrequeue⟩ := keepsAsleep_call hok hc hlt hj₀ hp₀
        cases hch with
        | same => exact hI.jobs j hj₀ hp hs
        | retried _ error availableAt => exact hretry error availableAt rfl
        | dead => cases hs
        | expired _ t he =>
            unfold Store.expiredRow at hs ⊢
            split at hs
            · cases hs
            · next hatt =>
                rw [if_neg hatt]
                exact (hsweep t rfl he).resolve_left hatt
        | requeued _ ids hid hdead => exact absurd hdead (hrequeue ids rfl hid)
  · obtain ⟨kk, hprog⟩ := hc.prog
    have hl := Thread.live_of_call hprog
    cases hb.exec_new hc hn hp with
    | pushed workflow delayMs hpushed hpay =>
        obtain ho | ⟨hr, _, hw⟩ := hpay
        · exact absurd ho (hI.owes i t hc.thread hl)
        · obtain rfl := hI.attempts i t hc.thread hl hr
          obtain ⟨_, s, hout⟩ := hI.outcome t hc.thread
          rw [hpushed.availableAt rfl]
          exact Track.waits_due hout hw (fun now => ht i t now hc.thread)
    | released row name payload targets hrow hw =>
        have := hI.row row hrow
        rw [hw] at this
        cases this
    | started _ _ _ _ hge => exact absurd hge (Nat.not_le_of_lt hI.made)

theorem Move.asleep_row (h : Move E σ l σ') (hb : σ.Base) (hI : σ.Asleep r wake k) {row : RunRow}
    (hrow : σ'.store.runs.get? r = some row) : row.status.parked = false := by
  rw [← Bool.not_eq_true]
  intro hpark
  obtain ⟨row₀, hrow₀, hp₀⟩ | ⟨i, t, c, hc, hparks⟩ := h.token_parked hb ⟨row, hrow, hpark⟩
  · have := hI.row row₀ hrow₀
    rw [hp₀] at this
    cases this
  · obtain ⟨kk, hprog⟩ := hc.prog
    have hl := Thread.live_of_call hprog
    have hmay := (hb.obeys i t hc.thread hl).mayCall hprog
    have hown := (Track.keeps_of_parks hmay hparks).1
    rw [(Worker.track_own t).1] at hown
    obtain rfl := hI.attempts i t hc.thread hl hown
    obtain ⟨_, s, hout⟩ := hI.outcome t hc.thread
    -- a sleep is neither the wait for an event nor that for a child
    cases c with
    | runWaitingEvent =>
        obtain ⟨_, _, ho⟩ := hmay
        rw [hout] at ho
        cases ho
    | runWaitingChild =>
        obtain ⟨_, _, _, _, _, _, ho⟩ := hmay
        rw [hout] at ho
        cases ho
    | _ => cases hparks

theorem Move.asleep_owes (h : Move E σ l σ') (hI : σ.Asleep r wake k) {m : Nat} {t : Worker}
    (ht : σ'.pool[m]? = some t) (hl : t.live = true) : r ∉ t.track.owes := by
  intro ho
  obtain ⟨t₀, ht₀, hl₀, ho₀⟩ | ⟨t₀, c, kk, locked, rfl, ht₀, hp, hin⟩ :=
    h.token_debt ⟨t, ht, hl, ho⟩
  · exact hI.owes m t₀ ht₀ hl₀ ho₀
  · obtain ⟨_, rfl, _, hr⟩ | ⟨row, hrow, hpark, _⟩ := hin.perform
    · exact absurd hI.made (by rw [hr]; exact Nat.lt_irrefl _)
    · rw [hI.row row hrow] at hpark
      cases hpark

theorem Move.asleep_attempts (h : Move E σ l σ') (hI : σ.Asleep r wake k) (hlt : σ.clock < wake)
    {m : Nat}
    {t : Worker} (ht : σ'.pool[m]? = some t) (hl : t.live = true) (hr : t.kind.run? = some r) :
    m = k := by
  cases h.thread ht with
  | stays _ ht₀ => exact hI.attempts m t ht₀ hl hr
  | spawned _ _ he =>
      subst he
      cases hr
  | crashed _ _ _ he =>
      subst he
      cases hl
  | stored t₀ c kk locked ht₀ hp he =>
      subst he
      exact hI.attempts m t₀ ht₀ (Thread.live_of_call hp) hr
  | answered t₀ op kk ch res ht₀ hp hres he =>
      subst he
      exact hI.attempts m t₀ ht₀ (Thread.live_of_call hp) hr
  | claimed workflow limit cfg cj hcfg hge hcj he =>
      subst he
      obtain ⟨_, hcj', hpay⟩ := Kind.job?_of_run? hr
      cases hcj'
      obtain ⟨j, hj, hin, _, _, hpj⟩ := mem_claimOf (List.mem_of_getElem? hcj)
      obtain ⟨_, hpend, hdue⟩ := claimIds_row hj hin
      have hwake := hI.jobs j hj (hpj.symm.trans hpay) hpend
      exact absurd (Int.le_trans hwake hdue) (Int.not_le.mpr hlt)

theorem Move.asleep_outcome (h : Move E σ l σ') (hb : σ.Base) (hI : σ.Asleep r wake k) {t₀ : Worker}
    (ht₀ : σ.pool[k]? = some t₀) {t : Worker} (ht : σ'.pool[k]? = some t) :
    t.kind.run? = some r ∧ ∃ s, t.track.outcome = some (.sleep s wake) := by
  obtain ⟨hr, s, ho⟩ := hI.outcome t₀ ht₀
  cases h.thread ht with
  | stays _ ht₁ => exact hI.outcome t ht₁
  | spawned _ _ _ hk =>
      have := lt_of_getElem? ht₀
      omega
  | claimed _ _ _ _ _ hge =>
      have := lt_of_getElem? ht₀
      omega
  | crashed t₁ ht₁ _ he =>
      subst he
      exact hI.outcome t₁ ht₁
  | stored t₁ c kk locked ht₁ hp he =>
      obtain rfl : t₀ = t₁ := Option.some.inj (ht₀.symm.trans ht₁)
      subst he
      exact ⟨hr, s, (Track.outcome_after (Worker.track t₀) c _).trans ho⟩
  | answered t₁ op kk ch res ht₁ hp hres he =>
      obtain rfl : t₀ = t₁ := Option.some.inj (ht₀.symm.trans ht₁)
      subst he
      have hallowed := (hb.obeys k t₀ ht₀ (Thread.live_of_call hp)).allowed hp
      exact ⟨hr, s, Track.outcome_next hres hallowed ho⟩

theorem Move.asleep (h : Move E σ l σ') (hb : σ.Base) (ht : σ.Timely) (hI : σ.Asleep r wake k)
    (hk : k < σ.pool.length) (hlt : σ.clock < wake) (hok : σ.keepsAsleep r wake l = true) :
    σ'.Asleep r wake k where
  attempts _ _ hm hl hr := h.asleep_attempts hI hlt hm hl hr
  jobs _ hj hp hs := h.asleep_jobs hb hI ht hlt hok hj hp hs
  row _ hrow := h.asleep_row hb hI hrow
  owes _ _ hm hl := h.asleep_owes hI hm hl
  made := Nat.lt_of_lt_of_le hI.made h.nextId_le
  outcome _ hm := h.asleep_outcome hb hI (List.getElem?_eq_getElem hk) hm

def resumes (σ : Sys) (r : RunId) (s : StepId) (m : Nat) : Bool :=
  σ.pendingCall m = some (.loadJournal r) && σ.store.journaled r s

def RecordsSleep (σ : Sys) (l : Label) (k : Nat) (r : RunId) (s : StepId) (wake : Time) : Prop :=
  ∃ t : Worker, σ.Calling l k t (.recordStep r s .sleep none) ∧ t.kind.run? = some r ∧
    t.track.outcome = some (.sleep s wake)

theorem RecordsSleep.asleep {s : StepId} (h : RecordsSleep σ l k r s wake) (hb : σ.Base)
    (ha : σ.Alone r wake k) : σ.Asleep r wake k := by
  obtain ⟨t, hc, hr, ho⟩ := h
  refine { ha with made := hb.run_lt k t r hc.thread hr, outcome := fun u hu => ?_ }
  obtain rfl := Option.some.inj (hc.thread.symm.trans hu)
  exact ⟨hr, s, ho⟩

theorem RecordsSleep.keepsAsleep {s : StepId} (h : RecordsSleep σ l k r s wake) :
    σ.keepsAsleep r wake l = true := by
  obtain ⟨t, hc, _⟩ := h
  obtain ⟨kk, hp⟩ := hc.prog
  obtain ⟨locked, rfl⟩ := hc.label
  simp [Sys.keepsAsleep, pendingCall_eq hc.thread hp]

/-- Where an attempt records a sleep with its run to itself, and no job of the
run is put back to be due before it is over, no attempt of the run comes in
before, and none loads a journal that has the sleep completed. -/
theorem sleep_lasts {clock : Time} {s : StepId}
    (h : Run (step E) (fun _ _ => true) (init .empty clock) σ)
    (hrec : RecordsSleep σ l k r s wake) (ha : σ.Alone r wake k) (hs : step E σ l = some σ')
    (h' : Run (step E) (keepsAsleep r wake) σ' σ'') :
    (∀ (m : Nat) (t : Worker), σ''.pool[m]? = some t → t.live = true → t.kind.run? = some r →
    m ≠ k → wake ≤ σ''.clock) ∧
      ∀ m, σ''.resumes r s m = true → wake ≤ σ''.clock := by
  have hany {τ τ' : Sys} (hr : Run (step E) (keepsAsleep r wake) τ τ') : Run (step E)
    (fun _ _ => true) τ τ' :=
    hr.mono (fun _ _ _ => rfl)
  have hk : k < σ.pool.length := by
    obtain ⟨t, hc, _⟩ := hrec
    exact lt_of_getElem? hc.thread
  have hstep {τ τ' : Sys} {l : Label} (hr : Run (step E) (fun _ _ => true) (init .empty clock) τ)
      (hI : k < τ.pool.length ∧ (τ.clock < wake → τ.Asleep r wake k))
        (hok : τ.keepsAsleep r wake l = true)
      (hs : step E τ l = some τ') : k < τ'.pool.length ∧
        (τ'.clock < wake → τ'.Asleep r wake k) := by
    have hm := step_move hs
    refine ⟨Nat.lt_of_lt_of_le hI.1 hm.length_le, fun hlt' => ?_⟩
    have hlt : τ.clock < wake := Int.lt_of_le_of_lt hm.clock_le hlt'
    exact hm.asleep (base_of_run hr) (timely_of_run hr) (hI.2 hlt) hI.1 hlt hok
  have h₁ : Run (step E) (fun _ _ => true) (init .empty clock) σ' := h.snoc rfl hs
  have hI₁ := hstep h ⟨hk, fun _ => hrec.asleep (base_of_run h) ha⟩ hrec.keepsAsleep hs
  have hI := h'.invariant (fun τ => k < τ.pool.length ∧ (τ.clock < wake → τ.Asleep r wake k)) hI₁
    (fun τ _ τ' hr hI hok hs => hstep (h₁.trans (hany hr)) hI hok hs)
  have hb := base_of_run (h₁.trans (hany h'))
  constructor
  · intro m t ht hl hr hne
    refine Int.not_lt.mp (fun hlt => ?_)
    exact hne ((hI.2 hlt).attempts m t ht hl hr)
  · intro m hm
    refine Int.not_lt.mp (fun hlt => ?_)
    simp only [resumes, Bool.and_eq_true, decide_eq_true_eq] at hm
    obtain ⟨t, kk, ht, hp⟩ := of_pendingCall hm.1
    have hl := Thread.live_of_call hp
    have hmay := (hb.obeys m t ht hl).mayCall hp
    have hown : t.kind.run? = some r := (Worker.track_own t).1.symm.trans hmay.1
    obtain rfl := (hI.2 hlt).attempts m t ht hl hown
    obtain ⟨_, _, ho⟩ := (hI.2 hlt).outcome t ht
    rw [hmay.2.1] at ho
    cases ho

section Sample

def beforeSleep : List Label := startOrder 0 ++ attemptUpTo 1 (.sleep "cooloff" 3600000)

def recordsSleep (σ : Sys) (k : Nat) (r : RunId) (s : StepId) (wake : Time) : Bool :=
  σ.pendingCall k = some (.recordStep r s .sleep none) &&
    (σ.pool[k]?).any
      (fun t : Worker => t.kind.run? = some r && t.track.outcome = some (.sleep s wake))

theorem RecordsSleep.of_eq {s : StepId} (h : σ.recordsSleep k r s wake = true) :
    RecordsSleep σ (callOk k) k r s wake := by
  simp only [recordsSleep, Bool.and_eq_true, decide_eq_true_eq, Option.any_eq_true] at h
  obtain ⟨hp, t, ht, hr, ho⟩ := h
  obtain ⟨t', kk, ht', hprog⟩ := of_pendingCall hp
  obtain rfl : t = t' := Option.some.inj (ht.symm.trans ht')
  exact ⟨t, ⟨ht, ⟨kk, hprog⟩, [], rfl⟩, hr, ho⟩

def alone (σ : Sys) (r : RunId) (wake : Time) (k : Nat) : Bool :=
  (List.range σ.pool.length).all (fun m => (σ.pool[m]?).all (fun t : Worker =>
    !t.live || (t.kind.run? ≠ some r || m = k) && r ∉ t.track.owes)) &&
  σ.store.jobs.rows.all
    (fun j => j.payload ≠ .execution r || j.status ≠ .pending || wake ≤ j.availableAt) &&
  (σ.store.runs.get? r).all (fun row => !row.status.parked)

theorem Alone.of_eq (h : σ.alone r wake k = true) : σ.Alone r wake k := by
  simp only [alone, Bool.and_eq_true, List.all_eq_true, Option.all_eq_true, Bool.or_eq_true,
    Bool.not_eq_true',
    decide_eq_true_eq, List.mem_range] at h
  obtain ⟨⟨hpool, hjobs⟩, hrow⟩ := h
  refine ⟨fun m t ht hl hr => ?_, fun j hj hp hs => ?_, hrow, fun m t ht hl => ?_⟩
  · obtain hn | ⟨hn | hm, _⟩ := hpool m (lt_of_getElem? ht) t ht
    · rw [hl] at hn
      cases hn
    · exact absurd hr hn
    · exact hm
  · obtain (hn | hn) | hle := hjobs j hj
    · exact absurd hp hn
    · exact absurd hs hn
    · exact hle
  · obtain hn | ⟨_, ho⟩ := hpool m (lt_of_getElem? ht) t ht
    · rw [hl] at hn
      cases hn
    · exact ho

theorem sleep_lasts_acked : ∃ σ σ' σ'', RecordsSleep σ (callOk 1) 1 0 "cooloff" 3600000 ∧
    step sampleEngine σ (callOk 1) = some σ' ∧
      Run (step sampleEngine) (keepsAsleep 0 3600000) σ' σ'' ∧
    σ''.resumes 0 "cooloff" 2 = true ∧ 3600000 ≤ σ''.clock := by
  obtain ⟨σ, h, hp⟩ :=
    Run.exists_of_replay (step sampleEngine) (fun _ _ => true) (init .empty 0) beforeSleep
    (fun σ => (σ.recordsSleep 1 0 "cooloff" 3600000 && σ.alone 0 3600000 1) &&
      (step sampleEngine σ (callOk 1)).any
        (fun σ' => (replay (step sampleEngine) (keepsAsleep 0 3600000) σ'
        [callOk 1, callOk 1, callOk 1, callOk 1, .tick 3600000, .claim "order" 1, callOk 2]).any
          (fun (σ'' : Sys) => σ''.resumes 0 "cooloff" 2))) (by decide +kernel)
  obtain ⟨hstart, hrest⟩ := Bool.and_eq_true_iff.mp hp
  obtain ⟨hrec, halone⟩ := Bool.and_eq_true_iff.mp hstart
  obtain ⟨σ', hs, hrest⟩ := (Option.any_eq_true _ _).mp hrest
  obtain ⟨σ'', hr, hres⟩ := (Option.any_eq_true _ _).mp hrest
  have h' := Run.of_replay hr
  have hrec := RecordsSleep.of_eq hrec
  exact ⟨σ, σ', σ'', hrec, hs, h', hres, (sleep_lasts h hrec (.of_eq halone) hs h').2 2 hres⟩

/-- A crash after the record lets the next attempt past the sleep at once. -/
theorem crash_cuts_sleep_short : ∃ σ σ' σ'',
    Run (step sampleEngine) (fun _ _ => true) (init .empty 0) σ ∧
    RecordsSleep σ (callOk 1) 1 0 "cooloff" 3600000 ∧ step sampleEngine σ (callOk 1) = some σ' ∧
    Run (step sampleEngine) (fun _ _ => true) σ' σ'' ∧ σ''.resumes 0 "cooloff" 3 = true ∧
    σ''.clock < 3600000 := by
  obtain ⟨σ, h, hp⟩ :=
    Run.exists_of_replay (step sampleEngine) (fun _ _ => true) (init .empty 0) beforeSleep
    (fun σ => σ.recordsSleep 1 0 "cooloff" 3600000 &&
      (step sampleEngine σ (callOk 1)).any
        (fun σ' => (replay (step sampleEngine) (fun _ _ => true) σ'
        [.crash 1, .tick 60001, .spawn .sweepExpired, callOk 2, callOk 2, .claim "order" 1,
          callOk 3]).any
          (fun (σ'' : Sys) => σ''.resumes 0 "cooloff" 3 && decide (σ''.clock < 3600000))))
            (by decide +kernel)
  obtain ⟨hrec, hrest⟩ := Bool.and_eq_true_iff.mp hp
  obtain ⟨σ', hs, hrest⟩ := (Option.any_eq_true _ _).mp hrest
  obtain ⟨σ'', hr, hres⟩ := (Option.any_eq_true _ _).mp hrest
  obtain ⟨hres, hlt⟩ := Bool.and_eq_true_iff.mp hres
  exact ⟨σ, σ', σ'', h, .of_eq hrec, hs, .of_replay hr, hres, of_decide_eq_true hlt⟩

end Sample

end Sys

end ZenZip
