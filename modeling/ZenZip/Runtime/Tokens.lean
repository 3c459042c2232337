import ZenZip.Runtime.Settling

namespace ZenZip

open Lib

/-- What will have a run executed: a job that no live worker is at, an attempt
that has the run in its hands, an event or a child it is parked on, or a call
that owes it a job. -/
inductive Token
  | job (id : JobId)
  | attempt (k : Nat)
  | parked
  | debt (k : Nat)
  deriving DecidableEq

namespace Worker

def attempts (t : Worker) (r : RunId) : Bool :=
  t.live && t.kind.run? = some r && !t.track.handed && !t.track.acked

theorem attempts_iff {t : Worker} {r : RunId} : t.attempts r = true ↔
    t.live = true ∧ t.kind.run? = some r ∧ t.track.handed = false ∧ t.track.acked = false := by
  simp [attempts, and_assoc]

end Worker

namespace Sys

def busy (σ : Sys) (j : JobRow) : Bool :=
  j.status = .running && σ.pool.any (fun t : Worker => t.live && t.holds j)

theorem busy_iff {σ : Sys} {j : JobRow} : σ.busy j = true ↔
    j.status = .running ∧ ∃ (k : Nat) (t : Worker), σ.pool[k]? = some t ∧ t.live = true ∧
    t.holds j = true := by
  simp only [busy, Bool.and_eq_true, decide_eq_true_eq, List.any_eq_true, List.mem_iff_getElem?]
  constructor
  · rintro ⟨hs, t, ⟨k, hk⟩, hl, hh⟩
    exact ⟨hs, k, t, hk, hl, hh⟩
  · rintro ⟨hs, k, t, hk, hl, hh⟩
    exact ⟨hs, t, ⟨k, hk⟩, hl, hh⟩

def token (σ : Sys) (r : RunId) : Token → Prop
  | .job id => ∃ j ∈ σ.store.jobs.rows, j.id = id ∧ j.payload = .execution r ∧ σ.busy j = false
  | .attempt k => ∃ t : Worker, σ.pool[k]? = some t ∧ t.attempts r = true
  | .parked => ∃ row, σ.store.runs.get? r = some row ∧ row.status.parked = true
  | .debt k => ∃ t : Worker, σ.pool[k]? = some t ∧ t.live = true ∧ r ∈ t.track.owes

variable {E : WorkflowEngine} {σ σ' : Sys} {l : Label} {r : RunId} {z : Token}

theorem lt_of_token (hb : σ.Base) (h : σ.token r z) : r < σ.store.nextId := by
  cases z with
  | job id =>
      obtain ⟨j, hj, _, hp, _⟩ := h
      exact (hb.plain j hj r hp).2
  | attempt k =>
      obtain ⟨t, ht, ha⟩ := h
      exact hb.run_lt k t r ht (Worker.attempts_iff.mp ha).2.1
  | parked =>
      obtain ⟨row, hrow, _⟩ := h
      exact hb.fresh.runs r row hrow
  | debt k =>
      obtain ⟨t, ht, _, ho⟩ := h
      exact hb.owes_lt k t r ht ho

/-- The lease of no live worker at the run runs out. -/
def keepsLeases (r : RunId) (σ : Sys) : Label → Bool
  | .call i (.ok _) => match σ.pendingCall i with
    | some (.sweepExpired t) => σ.store.jobs.rows.all (fun j =>
        j.payload ≠ .execution r || !σ.busy j || !Store.expired t j)
    | _ => true
  | _ => true

theorem Move.token_parked (h : Move E σ l σ') (hb : σ.Base) (hz : σ'.token r .parked) :
    σ.token r .parked ∨ ∃ i t c, σ.Calling l i t c ∧ c.parks = some r := by
  obtain ⟨row, hrow, hpark⟩ := hz
  obtain ⟨row₀, hrow₀, rfl | ⟨i, t, c, hc, hch⟩⟩ | ⟨_, _, _,
    ⟨_, _, _, rfl⟩ | ⟨_, _, _, _, _, _, rfl⟩⟩ :=
    h.run_origin hb.fresh hrow
  · exact .inl ⟨row, hrow₀, hpark⟩
  · have hid := Table.key_of_get? hrow₀
    subst hid
    cases hch with
    | waitingEvent | waitingChild => exact .inr ⟨i, t, _, hc, rfl⟩
    | _ => cases hpark
  · cases hpark
  · cases hpark

theorem Move.token_debt (h : Move E σ l σ') {k : Nat} (hz : σ'.token r (.debt k)) :
    σ.token r (.debt k) ∨ ∃ t c kk locked, l = .call k (.ok locked) ∧ σ.pool[k]? = some t ∧
      t.prog = .call (.store c) kk ∧ Incurs c (c.perform σ.store σ.clock locked).2 r := by
  obtain ⟨u, hu, hul, ho⟩ := hz
  cases h.thread hu with
  | stays _ ht => exact .inl ⟨u, ht, hul, ho⟩
  | spawned _ _ he | claimed _ _ _ _ _ _ _ he =>
      subst he
      cases ho
  | crashed t ht _ he =>
      subst he
      cases hul
  | answered t op kk ch res ht hp hres he =>
      subst he
      exact .inl ⟨t, ht, Thread.live_of_call hp, Track.mem_owes_next hres ho⟩
  | stored t c kk locked ht hp he =>
      subst he
      obtain ho | hin := Track.mem_owes_after ho
      · exact .inl ⟨t, ht, Thread.live_of_call hp, ho⟩
      · exact .inr ⟨t, c, kk, locked, rfl, ht, hp, hin⟩

theorem Move.token_attempt (h : Move E σ l σ') {k : Nat} (hz : σ'.token r (.attempt k)) :
    σ.token r (.attempt k) ∨ ∃ workflow limit cfg cj, l = .claim workflow limit ∧
    E.config workflow = some cfg ∧
      (σ.claimOf workflow limit cfg).2[k - σ.pool.length]? = some cj ∧ σ.pool.length ≤ k ∧
      cj.payload = .execution r := by
  obtain ⟨u, hu, ha⟩ := hz
  obtain ⟨hul, hr, hhand, hack⟩ := Worker.attempts_iff.mp ha
  cases h.thread hu with
  | stays _ ht => exact .inl ⟨u, ht, ha⟩
  | spawned _ _ he =>
      subst he
      cases hr
  | claimed workflow limit cfg cj hcfg hge hcj he =>
      subst he
      obtain ⟨cj', hcj', hp⟩ := Kind.job?_of_run? hr
      cases hcj'
      exact .inr ⟨workflow, limit, cfg, cj, rfl, hcfg, hcj, hge, hp⟩
  | crashed t ht _ he =>
      subst he
      cases hul
  | answered t op kk ch res ht hp hres he =>
      subst he
      rw [Worker.track_answer, (Track.handed_aside hres).1] at hhand
      rw [Worker.track_answer, (Track.handed_aside hres).2.1] at hack
      exact .inl ⟨t, ht, Worker.attempts_iff.mpr ⟨Thread.live_of_call hp, hr, hhand, hack⟩⟩
  | stored t c kk locked ht hp he =>
      subst he
      have hack : Track.acked
        (Track.after (Worker.track t) c (c.perform σ.store σ.clock locked).2) = false := hack
      rw [Track.acked_after, Bool.or_eq_false_iff] at hack
      refine .inl ⟨t, ht, Worker.attempts_iff.mpr ⟨Thread.live_of_call hp, hr, ?_, hack.1⟩⟩
      rw [← Bool.not_eq_true]
      intro hh
      have hhand' := Track.handed_mono hh c (c.perform σ.store σ.clock locked).2
      have hhand : Track.handed
        (Track.after (Worker.track t) c (c.perform σ.store σ.clock locked).2) = false := hhand
      rw [hhand] at hhand'
      cases hhand'

structure Dropped (σ : Sys) (l : Label) (σ' : Sys) (r : RunId) (i : Nat) (id : JobId) : Prop where
  acts : (∃ ch, l = .call i ch) ∨ l = .crash i
  before : ∃ (t : Worker) (cj : ClaimedJob), σ.pool[i]? = some t ∧ t.attempts r = true ∧
    t.kind.job? = some cj ∧
    cj.id = id
  after : ∃ u : Worker, σ'.pool[i]? = some u ∧ u.attempts r = false ∧ u.track.handed = false

theorem Move.dropped (h : Move E σ l σ') (hb : σ.Base) (hs' : σ'.Settling) (hU' : σ'.Unbroken r)
    (hok : σ.keepsHanded r l = true) {m : Nat} {t u : Worker} {cj : ClaimedJob}
    (ht : σ.pool[m]? = some t)
    (hl : t.live = true) (hr : t.kind.run? = some r) (ha : t.track.acked = false)
    (hcj : t.kind.job? = some cj)
    (hu : σ'.pool[m]? = some u) (hul : u.live = false)
    (hrun : ∃ j ∈ σ'.store.jobs.rows, t.holds j = true ∧ j.status = .running) :
    Dropped σ l σ' r m cj.id := by
  have hworker : t.kind.isWorker = true := by simp [Kind.isWorker, hcj]
  have hafter : u.attempts r = false := by simp [Worker.attempts, hul]
  cases h.thread hu with
  | stays _ ht₀ =>
      obtain rfl : t = u := Option.some.inj (ht.symm.trans ht₀)
      rw [hl] at hul
      cases hul
  | spawned _ _ _ hj =>
      have := lt_of_getElem? ht
      omega
  | claimed _ _ _ _ _ hge =>
      have := lt_of_getElem? ht
      omega
  | crashed t₀ ht₀ _ he =>
      obtain rfl : t = t₀ := Option.some.inj (ht.symm.trans ht₀)
      subst he
      have hhand : t.track.handed = false := by simpa [keepsHanded, ht, hr] using hok
      exact ⟨.inr rfl, ⟨t, cj, ht, Worker.attempts_iff.mpr ⟨hl, hr, hhand, ha⟩, hcj, rfl⟩, _, hu,
        hafter, hhand⟩
  | answered t₀ op kk ch res ht₀ hp hres he =>
      obtain rfl : t = t₀ := Option.some.inj (ht.symm.trans ht₀)
      subst he
      have hend := ((hb.obeys m t ht hl).answer hp hres.answers).ended hul
      have hhand : Track.handed (Worker.track (t.answer op res (kk res))) = false := by
        rw [← Bool.not_eq_true]
        intro hh
        have herr := hU' m _ hu hr hh
        obtain hack | herr' := hend.closed hworker
        · rw [Worker.track_answer, (Track.handed_aside hres).2.1, ha] at hack
          cases hack
        · rw [herr] at herr'
          cases herr'
      have hhand₀ := hhand
      rw [Worker.track_answer, (Track.handed_aside hres).1] at hhand₀
      exact ⟨.inl ⟨_, rfl⟩, ⟨t, cj, ht, Worker.attempts_iff.mpr ⟨hl, hr, hhand₀, ha⟩, hcj, rfl⟩, _,
        hu, hafter, hhand⟩
  | stored t₀ c kk locked ht₀ hp he =>
      obtain rfl : t = t₀ := Option.some.inj (ht.symm.trans ht₀)
      subst he
      have hend := ((hb.obeys m t ht hl).answer hp (Call.answers_perform ..)).ended hul
      have hhand : Track.handed
        (Track.after (Worker.track t) c (c.perform σ.store σ.clock locked).2) = false := by
        rw [← Bool.not_eq_true]
        intro hh
        have herr := hU' m _ hu hr hh
        obtain hack | herr' := hend.closed hworker
        · obtain ⟨j, hj, hhold, hst⟩ := hrun
          exact hs'.returned m _ j hu hack hj hhold hst
        · rw [herr] at herr'
          cases herr'
      have hhand₀ : t.track.handed = false := by
        rw [← Bool.not_eq_true]
        intro hh
        rw [Track.handed_mono hh] at hhand
        cases hhand
      exact ⟨.inl ⟨_, rfl⟩, ⟨t, cj, ht, Worker.attempts_iff.mpr ⟨hl, hr, hhand₀, ha⟩, hcj, rfl⟩, _,
        hu, hafter, hhand⟩

theorem Calling.dropped {i : Nat} {t : Worker} {c : Call} (hc : σ.Calling l i t c)
    (h : Move E σ l σ') (hb : σ.Base)
    (hU : σ.Unbroken r) (hret : c.returns = true) {cj : ClaimedJob} (hcj : t.kind.job? = some cj)
    (hr : t.kind.run? = some r) (ha : t.track.acked = false)
    (hack : ∀ id fence, c ≠ .ack id fence) :
    Dropped σ l σ' r i cj.id := by
  obtain ⟨k, hp⟩ := hc.prog
  obtain ⟨locked, rfl⟩ := hc.label
  have hl := Thread.live_of_call hp
  have hmay := (hb.obeys i t hc.thread hl).mayCall hp
  have hhand : t.track.handed = false := by
    rw [← Bool.not_eq_true]
    intro hh
    have herr := hU i t hc.thread hr hh
    have herr' : t.track.erred = true := by
      cases c with
      | ack id fence => exact absurd rfl (hack id fence)
      | failRetry | failDead => exact hmay.2.1 (by simp [hh])
      | _ => cases hret
    rw [herr] at herr'
    cases herr'
  have hu : (σ.stored i t c k locked).pool[i]? = some (t.answer (.store c)
      (.ok (c.perform σ.store σ.clock locked).2) (k (.ok (c.perform σ.store σ.clock locked).2))) :=
    List.getElem?_set_self (lt_of_getElem? hc.thread)
  rw [← h.eq_stored hc.thread hp] at hu
  refine ⟨.inl ⟨_, rfl⟩, ⟨t, cj, hc.thread, Worker.attempts_iff.mpr ⟨hl, hr, hhand, ha⟩, hcj, rfl⟩,
    _, hu, ?_, ?_⟩
  · have hacked : Track.acked
      (Track.after (Worker.track t) c (c.perform σ.store σ.clock locked).2) = true := by
      rw [Track.acked_after, hret, Bool.or_true]
    simp [Worker.attempts, Worker.track_answer, Track.next, hacked]
  · rw [← Bool.not_eq_true]
    intro hh
    have hh : Track.handed (Track.after (Worker.track t) c (c.perform σ.store σ.clock locked).2) =
      true := hh
    obtain hh | hpark | ⟨jobs, q, rfl, _⟩ := Track.handed_after hh
    · rw [hhand] at hh
      cases hh
    · cases c with
      | ack | failRetry | failDead => cases hpark
      | _ => cases hret
    · cases hret

theorem Move.token_job (h : Move E σ l σ') (hb : σ.Base) (hs : σ.Settling) (hs' : σ'.Settling)
    (hU : σ.Unbroken r)
    (hU' : σ'.Unbroken r) (hok : σ.keepsHanded r l = true) (hlease : σ.keepsLeases r l = true)
    {id : JobId}
    (hz : σ'.token r (.job id)) :
    σ.token r (.job id) ∨
    (∃ i t c j, σ.Calling l i t c ∧ j ∈ σ'.store.jobs.rows ∧ j.id = id ∧ σ.store.nextId ≤ id ∧
    ExecNew σ t r j c) ∨
    ∃ i, Dropped σ l σ' r i id := by
  obtain ⟨j', hj', hid', hpay', hbusy'⟩ := hz
  obtain ⟨j, hj, hm⟩ | ⟨i, t, c, hc, hge, _, hn⟩ := h.job_origin hj'
  · obtain ⟨hid, hpay, _, _⟩ := hm.frame
    have hpj : j.payload = .execution r := hpay.symm.trans hpay'
    cases hbusy : σ.busy j with
    | false => exact .inl ⟨j, hj, hid.symm.trans hid', hpj, hbusy⟩
    | true =>
        obtain ⟨hrun, m, t, ht, hl, hh⟩ := busy_iff.mp hbusy
        obtain ⟨cj, hcj, hcid, hcf⟩ := Worker.holds_iff.mp hh
        have hr : t.kind.run? = some r := by
          rw [Kind.run?_of_job? hcj, ← (hb.row m t cj j ht hcj hj hcid.symm).2, hpj]
          rfl
        have ha : t.track.acked = false := by
          rw [← Bool.not_eq_true]
          intro ha
          exact hs.returned m t j ht ha hj hh hrun
        have hjid : cj.id = id := hcid.trans (hid.symm.trans hid')
        -- the row is still running under the claim, but nobody is at it any more
        have hleft (hrun' : j'.status = .running) (hf' : j'.fence = j.fence) : Dropped σ l σ' r m
          cj.id := by
          have hh' : t.holds j' = true :=
            Worker.holds_iff.mpr ⟨cj, hcj, hcid.trans hid.symm, hcf.trans hf'.symm⟩
          obtain ⟨u, hu, hmove⟩ := h.thread_of ht
          have hk := hmove.kind_eq ht
          have hul : u.live = false := by
            rw [← Bool.not_eq_true]
            intro hul
            have hhu : Worker.holds u j' = true := by rwa [Worker.holds, hk]
            rw [busy_iff.mpr ⟨hrun', m, u, hu, hul, hhu⟩] at hbusy'
            cases hbusy'
          exact h.dropped hb hs' hU' hok ht hl hr ha hcj hu hul ⟨j', hj', hh', hrun'⟩
        subst hjid
        cases hm with
        | same => exact .inr (.inr ⟨m, hleft hrun rfl⟩)
        | claimed _ _ _ _ _ hin =>
            have := (claimIds_row hj hin).2.1
            rw [hrun] at this
            cases this
        | renewed => exact .inr (.inr ⟨m, hleft hrun rfl⟩)
        | called i t₁ c _ _ _ hc hch =>
            obtain ⟨k, hp⟩ := hc.prog
            have hmay := (hb.obeys i t₁ hc.thread (Thread.live_of_call hp)).mayCall hp
            have hself (hjob : ∃ job, (Worker.track t₁).job = some job ∧ job.id = j.id ∧
              job.fence = j.fence) : i = m := by
              obtain ⟨job, hjob, hjid, hjf⟩ := hjob
              rw [(Worker.track_own t₁).2] at hjob
              exact hb.unique i m t₁ t job cj hc.thread ht hjob hcj (hjid.trans hcid.symm)
                (hjf.trans hcf.symm)
            cases hch with
            | same => exact .inr (.inr ⟨m, hleft hrun rfl⟩)
            | retried =>
                obtain rfl := hself hmay.2.2
                obtain rfl : t₁ = t := Option.some.inj (hc.thread.symm.trans ht)
                exact .inr (.inr ⟨i, hc.dropped h hb hU rfl hcj hr ha (fun _ _ h => by cases h)⟩)
            | dead =>
                obtain rfl := hself hmay.2.2
                obtain rfl : t₁ = t := Option.some.inj (hc.thread.symm.trans ht)
                exact .inr (.inr ⟨i, hc.dropped h hb hU rfl hcj hr ha (fun _ _ h => by cases h)⟩)
            | expired _ t' he =>
                obtain ⟨locked, rfl⟩ := hc.label
                simp only [keepsLeases, pendingCall_eq hc.thread hp, List.all_eq_true,
                  Bool.or_eq_true,
                  decide_eq_true_eq, Bool.not_eq_true'] at hlease
                obtain (hne | hnb) | hne := hlease j hj
                · exact absurd hpj hne
                · rw [hbusy] at hnb
                  cases hnb
                · rw [he] at hne
                  cases hne
            | requeued _ _ _ hdead =>
                rw [hrun] at hdead
                cases hdead
  · rw [hid'] at hge
    exact .inr (.inl ⟨i, t, c, j', hc, hj', hid', hge, hb.exec_new hc hn hpay'⟩)

end Sys

end ZenZip
