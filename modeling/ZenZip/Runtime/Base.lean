import ZenZip.Runtime.Threads
import ZenZip.Runtime.JobMoves

namespace ZenZip

open Lib

/-- The answers that leave the caller owing a job to a run. -/
inductive Incurs : (c : Call) → c.Ret → RunId → Prop
  | created (run r) : Incurs (.createRun run) (r, true) r
  | woken (r) : Incurs (.wakeParent r) true r
  | swept (t ws w) (hw : w ∈ ws) : Incurs (.sweepEventTimeouts t) ws w.runId

theorem Track.mem_owes_after {g : Track} {c : Call} {v : c.Ret} {r : RunId}
    (h : r ∈ (g.after c v).owes) :
    r ∈ g.owes ∨ Incurs c v r := by
  cases c with
  | push jobs => exact .inl (List.mem_of_mem_filter h)
  | getRun id =>
      cases v with
      | none => exact .inl (List.mem_of_mem_filter h)
      | some row =>
          obtain ⟨run, released, hl⟩ := @looked_some g id row
          simp only [after] at h
          rw [hl] at h
          exact .inl h
  | createRun run =>
      obtain ⟨id, created⟩ := v
      cases created with
      | false => exact .inl h
      | true =>
          obtain rfl | h := List.mem_cons.mp h
          · exact .inr (.created run r)
          · exact .inl h
  | wakeParent id =>
      cases v with
      | false => exact .inl h
      | true =>
          obtain rfl | h := List.mem_cons.mp h
          · exact .inr (.woken r)
          · exact .inl h
  | sweepEventTimeouts t =>
      obtain h | h := List.mem_append.mp h
      · obtain ⟨w, hw, rfl⟩ := List.mem_map.mp h
        exact .inr (.swept t v w hw)
      · exact .inl h
  | _ => exact .inl h

theorem Track.mem_owes_next {g : Track} {op : Op} {ch : Choice} {clock : Time}
    {res : Except String (Val op)}
    (ha : Aside clock op ch res) {r : RunId} (h : r ∈ (g.next op res).owes) : r ∈ g.owes := by
  cases ha with
  | failed => cases h
  | clock | draw => exact h
  | outcome req o => cases o <;> exact h

theorem Incurs.perform {s : Store} {now : Time} {locked : List RunId} {c : Call} {r : RunId}
    (h : Incurs c (c.perform s now locked).2 r) :
    (∃ run, c = .createRun run ∧ s.createRun run now = (s.addRun run now, (r, true)) ∧
    r = s.nextId) ∨
      ∃ row, s.runs.get? r = some row ∧ row.status.parked = true ∧
        ∃ row', (c.perform s now locked).1.runs.get? r = some row' ∧
        row'.status.parked = false := by
  generalize hv : (c.perform s now locked).2 = v at h
  cases h with
  | created run r =>
      have hv' : (s.createRun run now).2 = (r, true) := hv
      obtain ⟨id, _, he⟩ | ⟨_, he⟩ := s.createRun_cases run now
      · rw [he] at hv'
        cases hv'
      · rw [he] at hv'
        cases hv'
        exact .inl ⟨run, rfl, he, rfl⟩
  | woken r =>
      obtain ⟨row, hrow, hs⟩ := (Option.any_eq_true _ _).mp hv
      have hu := s.get?_updateRun r (fun r => r.status = .waitChild) (Store.wokenParentRow now)
        (fun _ => rfl) r
      rw [hrow, if_pos rfl, Option.map_some, if_pos hs] at hu
      refine .inr ⟨row, hrow, ?_, _, hu, rfl⟩
      rw [of_decide_eq_true hs]
      rfl
  | swept t ws w hw =>
      rw [← hv] at hw
      obtain ⟨row, hrow, rfl⟩ := List.mem_map.mp hw
      obtain ⟨hrow, hp⟩ := Table.mem_select.mp hrow
      have hu := Table.get?_update s.runs (Store.timedOut t locked) (Store.timedOutRow t)
        (fun _ => rfl) row.id
      rw [Table.get?_key hrow, Option.map_some, if_pos hp] at hu
      refine .inr ⟨row, Table.get?_key hrow, ?_, _, hu, rfl⟩
      simp only [Store.timedOut, Bool.and_eq_true, decide_eq_true_eq] at hp
      rw [hp.1.1]
      rfl

/-- What the code relies on in the tables: ids are new, and an execution job is a
plain job of a run that has been made. -/
structure Store.Sound (s : Store) : Prop where
  fresh : s.Fresh
  plain : ∀ j ∈ s.jobs.rows, ∀ r, j.payload = .execution r → j.debounceKey = none ∧ r < s.nextId

theorem Store.sound_empty : Store.empty.Sound where
  fresh := .empty
  plain j h := by cases h

namespace Sys

/-- What holds of every state reached: ids are used once, threads keep to the
discipline, and each claim of a job has a fence of its own. -/
structure Base (σ : Sys) : Prop where
  fresh : σ.store.Fresh
  obeys : ∀ (i : Nat) (t : Worker), σ.pool[i]? = some t → t.live = true → t.Obeys
  job_lt : ∀ (i : Nat) (t : Worker) (cj : ClaimedJob), σ.pool[i]? = some t → t.kind.job? = some cj →
    cj.id < σ.store.nextId
  run_lt : ∀ (i : Nat) (t : Worker) (r : RunId), σ.pool[i]? = some t → t.kind.run? = some r →
    r < σ.store.nextId
  owes_lt : ∀ (i : Nat) (t : Worker) (r : RunId), σ.pool[i]? = some t → r ∈ t.track.owes →
    r < σ.store.nextId
  row : ∀ (i : Nat) (t : Worker) (cj : ClaimedJob) (j : JobRow), σ.pool[i]? = some t →
    t.kind.job? = some cj →
    j ∈ σ.store.jobs.rows → j.id = cj.id → cj.fence ≤ j.fence ∧ j.payload = cj.payload
  unique : ∀ (i i' : Nat) (t t' : Worker) (cj cj' : ClaimedJob), σ.pool[i]? = some t →
    σ.pool[i']? = some t' →
    t.kind.job? = some cj → t'.kind.job? = some cj' → cj.id = cj'.id → cj.fence = cj'.fence → i = i'
  plain : ∀ j ∈ σ.store.jobs.rows, ∀ r, j.payload = .execution r → j.debounceKey = none ∧
    r < σ.store.nextId

theorem base_init (s : Store) (clock : Time) (hs : s.Sound) : (init s clock).Base where
  fresh := hs.fresh
  obeys i t h := by cases h
  job_lt i t cj h := by cases h
  run_lt i t r h := by cases h
  owes_lt i t r h := by cases h
  row i t cj j h := by cases h
  unique i i' t t' cj cj' h := by cases h
  plain := hs.plain

theorem Base.sound {σ : Sys} (hb : σ.Base) : σ.store.Sound := ⟨hb.fresh, hb.plain⟩

variable {E : WorkflowEngine} {σ σ' : Sys} {l : Label}

theorem mem_claimOf {workflow : String} {limit : Nat} {cfg : WorkflowConfig} {cj : ClaimedJob}
    (h : cj ∈ (σ.claimOf workflow limit cfg).2) :
    ∃ j ∈ σ.store.jobs.rows,
      j.id ∈ σ.store.claimIds (workflowQueueName workflow) limit none false σ.clock ∧
      cj.id = j.id ∧ cj.fence = j.fence + 1 ∧ cj.payload = j.payload := by
  obtain ⟨j, hj, hid, rfl⟩ := Store.mem_claim h
  exact ⟨j, hj, hid, rfl, rfl, rfl⟩

theorem claimOf_row {workflow : String} {limit : Nat} {cfg : WorkflowConfig} {cj : ClaimedJob}
    {j : JobRow}
    (h : cj ∈ (σ.claimOf workflow limit cfg).2)
    (hj : j ∈ (σ.claimOf workflow limit cfg).1.jobs.rows)
    (hid : j.id = cj.id) : j.fence = cj.fence ∧ j.payload = cj.payload ∧ j.status = .running := by
  obtain ⟨j₀, hj₀, hin, rfl⟩ := Store.mem_claim h
  obtain ⟨i, hi, he⟩ := Store.mem_claim_jobs.mp hj
  have hii : i = j₀ := by
    refine σ.store.jobs.key_injOn hi hj₀ ?_
    have hid' : j.id = j₀.id := hid
    rw [← hid', ← he]
    split <;> rfl
  subst hii
  rw [if_pos hin] at he
  subst he
  exact ⟨rfl, rfl, rfl⟩

theorem claimOf_index {workflow : String} {limit : Nat} {cfg : WorkflowConfig} {cj cj' : ClaimedJob}
    {n n' : Nat}
    (h : (σ.claimOf workflow limit cfg).2[n]? = some cj)
    (h' : (σ.claimOf workflow limit cfg).2[n']? = some cj')
    (hid : cj.id = cj'.id) : n = n' := by
  have hnodup : ((σ.claimOf workflow limit cfg).2.map (·.id)).Nodup := Store.claim_nodup
  have hlt : n < ((σ.claimOf workflow limit cfg).2.map (·.id)).length := by
    rw [List.length_map]
    exact lt_of_getElem? h
  refine (List.getElem?_inj hlt hnodup).mp ?_
  rw [List.getElem?_map, List.getElem?_map, h, h', Option.map_some, Option.map_some, hid]

theorem ThreadMove.kind {j : Nat} {u : Worker} (h : ThreadMove E σ j u l) :
    (∃ t, σ.pool[j]? = some t ∧ u.kind = t.kind) ∨ u.kind.job? = none ∧ u.kind.run? = none ∨
    ∃ workflow limit cfg cj, l = .claim workflow limit ∧ E.config workflow = some cfg ∧
      (σ.claimOf workflow limit cfg).2[j - σ.pool.length]? = some cj ∧ σ.pool.length ≤ j ∧
      u.kind = .worker workflow cj := by
  cases h with
  | stays _ h => exact .inl ⟨u, h, rfl⟩
  | spawned task _ hu =>
      subst hu
      exact .inr (.inl ⟨rfl, rfl⟩)
  | claimed workflow limit cfg cj hcfg hge hcj hu =>
      subst hu
      exact .inr (.inr ⟨workflow, limit, cfg, cj, rfl, hcfg, hcj, hge, rfl⟩)
  | stored t c k locked ht _ hu =>
      subst hu
      exact .inl ⟨t, ht, rfl⟩
  | answered t op k ch r ht _ _ hu =>
      subst hu
      exact .inl ⟨t, ht, rfl⟩
  | crashed t ht _ hu =>
      subst hu
      exact .inl ⟨t, ht, rfl⟩

theorem ThreadMove.kind_eq {j : Nat} {t u : Worker} (h : ThreadMove E σ j u l)
    (ht : σ.pool[j]? = some t) : u.kind = t.kind := by
  cases h with
  | stays _ ht₀ => rw [Option.some.inj (ht.symm.trans ht₀)]
  | spawned _ _ _ he =>
      have := lt_of_getElem? ht
      omega
  | claimed _ _ _ _ _ hge =>
      have := lt_of_getElem? ht
      omega
  | stored t₀ _ _ _ ht₀ _ he | answered t₀ _ _ _ _ ht₀ _ _ he | crashed t₀ ht₀ _ he =>
      obtain rfl : t = t₀ := Option.some.inj (ht.symm.trans ht₀)
      rw [he]
      rfl

theorem Move.obeys (h : Move E σ l σ') (hb : σ.Base) {i : Nat} {t : Worker}
    (ht : σ'.pool[i]? = some t)
    (hl : t.live = true) : t.Obeys := by
  cases h.thread ht with
  | stays _ h => exact hb.obeys i t h hl
  | spawned task ha hu =>
      subst hu
      exact Worker.obeys_taskThread E ha
  | claimed workflow limit cfg cj _ _ _ hu =>
      subst hu
      exact Worker.obeys_workerThread E workflow cj
  | stored t₀ c k locked ht₀ hp hu =>
      subst hu
      exact (hb.obeys i t₀ ht₀ (Thread.live_of_call hp)).answer hp (Call.answers_perform ..)
  | answered t₀ op k ch r ht₀ hp hr hu =>
      subst hu
      exact (hb.obeys i t₀ ht₀ (Thread.live_of_call hp)).answer hp hr.answers
  | crashed t₀ _ _ hu =>
      subst hu
      cases hl

theorem Move.owes_lt (h : Move E σ l σ') (hb : σ.Base) {i : Nat} {t : Worker}
    (ht : σ'.pool[i]? = some t)
    {r : RunId} (hr : r ∈ t.track.owes) : r < σ'.store.nextId := by
  have hle := h.nextId_le
  cases h.thread ht with
  | stays _ h => exact Nat.lt_of_lt_of_le (hb.owes_lt i t r h hr) hle
  | spawned task ha hu =>
      subst hu
      cases hr
  | claimed workflow limit cfg cj _ _ _ hu =>
      subst hu
      cases hr
  | stored t₀ c k locked ht₀ hp hu =>
      subst hu
      obtain hr | hr := Track.mem_owes_after hr
      · exact Nat.lt_of_lt_of_le (hb.owes_lt i t₀ r ht₀ hr) hle
      · obtain ⟨run, rfl, he, rfl⟩ | ⟨row, hrow, _⟩ := hr.perform
        · rw [h.eq_stored ht₀ hp]
          show _ < (σ.store.createRun run σ.clock).1.nextId
          rw [he]
          exact Nat.lt_succ_self _
        · exact Nat.lt_of_lt_of_le (hb.fresh.runs r row hrow) hle
  | answered t₀ op k ch res ht₀ hp hres hu =>
      subst hu
      exact Nat.lt_of_lt_of_le (hb.owes_lt i t₀ r ht₀ (Track.mem_owes_next hres hr)) hle
  | crashed t₀ ht₀ _ hu =>
      subst hu
      exact Nat.lt_of_lt_of_le (hb.owes_lt i t₀ r ht₀ hr) hle

theorem Calling.answered {i : Nat} {t : Worker} {c : Call} (hc : σ.Calling l i t c)
    (h : Move E σ l σ') :
    ∃ k locked, t.prog = .call (.store c) k ∧ l = .call i (.ok locked) ∧
    σ' = σ.stored i t c k locked ∧
      σ'.pool[i]? = some (t.answer (.store c) (.ok (c.perform σ.store σ.clock locked).2)
        (k (.ok (c.perform σ.store σ.clock locked).2))) := by
  obtain ⟨k, hp⟩ := hc.prog
  obtain ⟨locked, rfl⟩ := hc.label
  have he := h.eq_stored hc.thread hp
  refine ⟨k, locked, hp, rfl, he, ?_⟩
  rw [he]
  exact List.getElem?_set_self (lt_of_getElem? hc.thread)

theorem Calling.unique {i i' : Nat} {t t' : Worker} {c c' : Call} (hc : σ.Calling l i t c)
    (hc' : σ.Calling l i' t' c') : i = i' ∧ t = t' ∧ c = c' := by
  obtain ⟨k, hp⟩ := hc.prog
  obtain ⟨k', hp'⟩ := hc'.prog
  obtain ⟨locked, rfl⟩ := hc.label
  obtain ⟨locked', hl⟩ := hc'.label
  cases hl
  obtain rfl : t = t' := Option.some.inj (hc.thread.symm.trans hc'.thread)
  rw [hp] at hp'
  cases hp'
  exact ⟨rfl, rfl, rfl⟩

theorem Base.obeys_calling (hb : σ.Base) {i : Nat} {t : Worker} {c : Call}
    (hc : σ.Calling l i t c) :
    t.Obeys ∧ t.track.mayCall c := by
  obtain ⟨k, hp⟩ := hc.prog
  have ho := hb.obeys i t hc.thread (Thread.live_of_call hp)
  exact ⟨ho, ho.mayCall hp⟩

inductive ExecNew (σ : Sys) (t : Worker) (r : RunId) (j : JobRow) : Call → Prop
  | pushed (workflow delayMs)
  (hp : Store.Pushed σ.clock (workflowExecutionJob workflow r delayMs) j)
      (h : r ∈ t.track.owes ∨ t.kind.run? = some r ∧ t.track.Keeps ∧ t.track.waits delayMs) :
      ExecNew σ t r j (.push [workflowExecutionJob workflow r delayMs])
  | released (row name payload targets) (hrow : σ.store.runs.get? r = some row)
    (hs : row.status = .waitEvent)
      (hp : Store.Pushed σ.clock (workflowExecutionJob row.workflow r 0) j) :
      ExecNew σ t r j (.emitEvent name payload targets)
  | started (workflow name payload targets) (hge : σ.store.nextId ≤ r) (hlt : r < j.id)
      (hp : Store.Pushed σ.clock (workflowExecutionJob workflow r 0) j) :
      ExecNew σ t r j (.emitEvent name payload targets)

theorem Base.exec_new (hb : σ.Base) {i : Nat} {t : Worker} {c : Call} {j : JobRow} {r : RunId}
    (hc : σ.Calling l i t c) (hn : JobNew σ.store σ.clock c j) (hp : j.payload = .execution r) :
    ExecNew σ t r j c := by
  have hmay := (hb.obeys_calling hc).2
  cases hn with
  | pushed _ job jobs hjob h =>
      have hrun : job.run? = some r := by rw [PushJob.run?, ← h.payload, hp]; rfl
      obtain ⟨rfl, ⟨workflow, delayMs, rfl⟩, hpay⟩ := hmay.2 job hjob r hrun
      rw [(Worker.track_own t).1] at hpay
      exact .pushed workflow delayMs h hpay
  | released _ row name payload targets locked hr h =>
      obtain ⟨hrow, hw⟩ := Table.mem_select.mp hr
      simp only [Bool.and_eq_true, decide_eq_true_eq] at hw
      have he := h.payload.symm.trans hp
      cases he
      exact .released row name payload targets (Table.get?_key hrow) hw.1.1.1 h
  | started _ tg id name payload targets _ hge hlt h =>
      have he := h.payload.symm.trans hp
      cases he
      exact .started tg.workflow name payload targets hge hlt h

theorem ExecNew.pushed_row {t : Worker} {r : RunId} {j : JobRow} {c : Call}
    (h : ExecNew σ t r j c) :
    ∃ workflow delayMs, Store.Pushed σ.clock (workflowExecutionJob workflow r delayMs) j := by
  cases h with
  | pushed workflow delayMs hp => exact ⟨workflow, delayMs, hp⟩
  | released row _ _ _ _ _ hp => exact ⟨row.workflow, 0, hp⟩
  | started workflow _ _ _ _ _ hp => exact ⟨workflow, 0, hp⟩

theorem Move.plain (h : Move E σ l σ') (hb : σ.Base) {j : JobRow} (hj : j ∈ σ'.store.jobs.rows)
    {r : RunId}
    (hp : j.payload = .execution r) : j.debounceKey = none ∧ r < σ'.store.nextId := by
  have hle := h.nextId_le
  obtain ⟨j₀, hj₀, hm⟩ | ⟨i, t, c, hc, hge, hlt, hn⟩ := h.job_origin hj
  · obtain ⟨_, hpay, hd, _⟩ := hm.frame
    obtain ⟨hd₀, hlt⟩ := hb.plain j₀ hj₀ r (hpay.symm.trans hp)
    exact ⟨hd.trans hd₀, Nat.lt_of_lt_of_le hlt hle⟩
  · have hex := hb.exec_new hc hn hp
    obtain ⟨workflow, delayMs, hpushed⟩ := hex.pushed_row
    refine ⟨hpushed.debounceKey, ?_⟩
    cases hex with
    | pushed _ _ _ hpay =>
        obtain hr | ⟨hr, _⟩ := hpay
        · exact Nat.lt_of_lt_of_le (hb.owes_lt i t r hc.thread hr) hle
        · exact Nat.lt_of_lt_of_le (hb.run_lt i t r hc.thread hr) hle
    | released row _ _ _ hrow => exact Nat.lt_of_lt_of_le (hb.fresh.runs r row hrow) hle
    | started _ _ _ _ _ hlt' => exact Nat.lt_trans hlt' hlt

theorem Move.job_lt (h : Move E σ l σ') (hb : σ.Base) {i : Nat} {t : Worker} {cj : ClaimedJob}
    (ht : σ'.pool[i]? = some t) (hcj : t.kind.job? = some cj) : cj.id < σ'.store.nextId := by
  obtain ⟨t₀, ht₀, hk⟩ | ⟨hnone, _⟩ | ⟨workflow, limit, cfg, cj', _, _, hcj', _, hk⟩ :=
    (h.thread ht).kind
  · rw [hk] at hcj
    exact Nat.lt_of_lt_of_le (hb.job_lt i t₀ cj ht₀ hcj) h.nextId_le
  · rw [hnone] at hcj
    cases hcj
  · rw [hk] at hcj
    cases hcj
    obtain ⟨j, hj, _, hid, _⟩ := mem_claimOf (List.mem_of_getElem? hcj')
    rw [hid]
    exact Nat.lt_of_lt_of_le (hb.fresh.jobs j hj) h.nextId_le

theorem Move.run_lt (h : Move E σ l σ') (hb : σ.Base) {i : Nat} {t : Worker} {r : RunId}
    (ht : σ'.pool[i]? = some t) (hr : t.kind.run? = some r) : r < σ'.store.nextId := by
  obtain ⟨t₀, ht₀, hk⟩ | ⟨_, hnone⟩ | ⟨workflow, limit, cfg, cj', _, _, hcj', _, hk⟩ :=
    (h.thread ht).kind
  · rw [hk] at hr
    exact Nat.lt_of_lt_of_le (hb.run_lt i t₀ r ht₀ hr) h.nextId_le
  · rw [hnone] at hr
    cases hr
  · obtain ⟨j, hj, _, _, _, hpay⟩ := mem_claimOf (List.mem_of_getElem? hcj')
    obtain ⟨cj, hcj, hcp⟩ := Kind.job?_of_run? hr
    rw [hk] at hcj
    cases hcj
    exact Nat.lt_of_lt_of_le (hb.plain j hj r (hpay.symm.trans hcp)).2 h.nextId_le

theorem Move.row (h : Move E σ l σ') (hb : σ.Base) {i : Nat} {t : Worker} {cj : ClaimedJob}
    {j : JobRow}
    (ht : σ'.pool[i]? = some t) (hcj : t.kind.job? = some cj) (hj : j ∈ σ'.store.jobs.rows)
    (hid : j.id = cj.id) :
    cj.fence ≤ j.fence ∧ j.payload = cj.payload := by
  obtain ⟨t₀, ht₀, hk⟩ | ⟨hnone, _⟩ | ⟨workflow, limit, cfg, cj', rfl, hcfg, hcj', _, hk⟩ :=
    (h.thread ht).kind
  · rw [hk] at hcj
    obtain ⟨j₀, hj₀, hm⟩ | ⟨_, _, _, _, hge, _, _⟩ := h.job_origin hj
    · obtain ⟨hid₀, hpay, _, hf⟩ := hm.frame
      obtain ⟨hf₀, hp₀⟩ := hb.row i t₀ cj j₀ ht₀ hcj hj₀ (hid₀.symm.trans hid)
      exact ⟨Nat.le_trans hf₀ hf, hpay.trans hp₀⟩
    · have hlt := hb.job_lt i t₀ cj ht₀ hcj
      rw [hid] at hge
      exact absurd hge (Nat.not_le_of_lt hlt)
  · rw [hnone] at hcj
    cases hcj
  · rw [hk] at hcj
    cases hcj
    rw [h.eq_claimed hcfg] at hj
    obtain ⟨hf, hp, _⟩ := claimOf_row (List.mem_of_getElem? hcj') hj hid
    exact ⟨Nat.le_of_eq hf.symm, hp⟩

theorem Move.unique (h : Move E σ l σ') (hb : σ.Base) {i i' : Nat} {t t' : Worker}
    {cj cj' : ClaimedJob}
    (ht : σ'.pool[i]? = some t) (ht' : σ'.pool[i']? = some t') (hcj : t.kind.job? = some cj)
    (hcj' : t'.kind.job? = some cj') (hid : cj.id = cj'.id) (hf : cj.fence = cj'.fence) :
    i = i' := by
  -- a new claim has a greater fence than every older one of the same job
  have hnew {k : Nat} {u : Worker} {c c' : ClaimedJob} {workflow : String} {limit : Nat}
    {cfg : WorkflowConfig}
      (hu : σ.pool[k]? = some u) (hc : u.kind.job? = some c)
      (hc' : c' ∈ (σ.claimOf workflow limit cfg).2) (he : c.id = c'.id) : c.fence ≠ c'.fence := by
    obtain ⟨j, hj, _, hjid, hjf, _⟩ := mem_claimOf hc'
    have := (hb.row k u c j hu hc hj (hjid.symm.trans he.symm)).1
    omega
  obtain ⟨t₀, ht₀, hk⟩ | ⟨hnone, _⟩ | ⟨w, lim, cfg, c, rfl, hcfg, hc, hge, hk⟩ := (h.thread ht).kind
  · rw [hk] at hcj
    obtain ⟨t₁, ht₁, hk'⟩ | ⟨hnone, _⟩ | ⟨w, lim, cfg, c, rfl, hcfg, hc, hge, hk'⟩ :=
      (h.thread ht').kind
    · rw [hk'] at hcj'
      exact hb.unique i i' t₀ t₁ cj cj' ht₀ ht₁ hcj hcj' hid hf
    · rw [hnone] at hcj'
      cases hcj'
    · rw [hk'] at hcj'
      cases hcj'
      exact absurd hf (hnew ht₀ hcj (List.mem_of_getElem? hc) hid)
  · rw [hnone] at hcj
    cases hcj
  · rw [hk] at hcj
    cases hcj
    obtain ⟨t₁, ht₁, hk'⟩ | ⟨hnone, _⟩ | ⟨w', lim', cfg', c', hl, hcfg', hc', hge', hk'⟩ :=
      (h.thread ht').kind
    · rw [hk'] at hcj'
      exact absurd hf.symm (hnew ht₁ hcj' (List.mem_of_getElem? hc) hid.symm)
    · rw [hnone] at hcj'
      cases hcj'
    · rw [hk'] at hcj'
      cases hcj'
      cases hl
      obtain rfl : cfg = cfg' := Option.some.inj (hcfg.symm.trans hcfg')
      have := claimOf_index hc hc' hid
      omega

theorem Move.base (h : Move E σ l σ') (hb : σ.Base) : σ'.Base where
  fresh := h.fresh hb.fresh
  obeys _ _ := h.obeys hb
  job_lt _ _ _ := h.job_lt hb
  run_lt _ _ _ := h.run_lt hb
  owes_lt _ _ _ ht hr := h.owes_lt hb ht hr
  row _ _ _ _ := h.row hb
  unique _ _ _ _ _ _ := h.unique hb
  plain _ hj _ := h.plain hb hj

theorem Base.of_run {ok : Sys → Label → Bool} {σ₀ : Sys} (h₀ : σ₀.Base) (h : Run (step E) ok σ₀ σ) :
    σ.Base :=
  h.invariant Base h₀ (fun _ _ _ _ hb _ hs => (step_move hs).base hb)

theorem base_of_run {ok : Sys → Label → Bool} {clock : Time}
    (h : Run (step E) ok (init .empty clock) σ) : σ.Base :=
  (base_init .empty clock Store.sound_empty).of_run h

end Sys

end ZenZip
