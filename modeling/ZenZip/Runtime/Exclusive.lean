import ZenZip.Runtime.Tokens

namespace ZenZip

open Lib

namespace Sys

structure AddedJob (σ σ' : Sys) (r : RunId) (j : JobRow) : Prop where
  mem : j ∈ σ'.store.jobs.rows
  new : σ.store.nextId ≤ j.id
  payload : j.payload = .execution r

/-- How a step hands a run over from one token to another, or gives it its first. -/
inductive Hands (E : WorkflowEngine) (σ : Sys) (l : Label) (σ' : Sys) (r : RunId) :
    Option Token → Token → Prop
  | parks (i t c) (hc : σ.Calling l i t c) (hp : c.parks = some r) :
  Hands E σ l σ' r (some (.attempt i)) .parked
  | created (i t run) (hc : σ.Calling l i t (.createRun run)) (hr : r = σ.store.nextId) :
      Hands E σ l σ' r none (.debt i)
  | unparked (i t c) (hc : σ.Calling l i t c)
    (hne : ∀ name payload targets, c ≠ .emitEvent name payload targets)
      (hp : σ.token r .parked) (hn : ¬ σ'.token r .parked) : Hands E σ l σ' r (some .parked)
        (.debt i)
  | claimed (workflow limit cfg k cj id) (hl : l = .claim workflow limit)
    (hcfg : E.config workflow = some cfg)
      (hge : σ.pool.length ≤ k)
        (hcj : (σ.claimOf workflow limit cfg).2[k - σ.pool.length]? = some cj)
      (hp : cj.payload = .execution r) (hid : cj.id = id) : Hands E σ l σ' r (some (.job id))
        (.attempt k)
  | paid (i t workflow delayMs j)
    (hc : σ.Calling l i t (.push [workflowExecutionJob workflow r delayMs]))
      (ho : r ∈ t.track.owes) (hj : AddedJob σ σ' r j) : Hands E σ l σ' r (some (.debt i))
        (.job j.id)
  | pushed (i t workflow delayMs j)
    (hc : σ.Calling l i t (.push [workflowExecutionJob workflow r delayMs]))
      (hr : t.kind.run? = some r) (hk : t.track.Keeps) (hj : AddedJob σ σ' r j) :
      Hands E σ l σ' r (some (.attempt i)) (.job j.id)
  | released (i t name payload targets j) (hc : σ.Calling l i t (.emitEvent name payload targets))
      (hp : σ.token r .parked) (hn : ¬ σ'.token r .parked) (hj : AddedJob σ σ' r j) :
      Hands E σ l σ' r (some .parked) (.job j.id)
  | started (i t name payload targets j) (hc : σ.Calling l i t (.emitEvent name payload targets))
      (hge : σ.store.nextId ≤ r) (hj : AddedJob σ σ' r j) : Hands E σ l σ' r none (.job j.id)
  | dropped (i id) (h : Dropped σ l σ' r i id) : Hands E σ l σ' r (some (.attempt i)) (.job id)

variable {E : WorkflowEngine} {σ σ' : Sys} {l : Label} {r : RunId} {x : Option Token} {y z : Token}

theorem AddedJob.unique (h : Move E σ l σ') (hb : σ.Base) {j j' : JobRow} (hj : AddedJob σ σ' r j)
    (hj' : AddedJob σ σ' r j') : j = j' := by
  obtain ⟨j₀, hj₀, hm⟩ | ⟨i, t, c, hc, _, _, hn⟩ := h.job_origin hj.mem
  · have hlt := hb.fresh.jobs j₀ hj₀
    rw [← hm.frame.1] at hlt
    exact absurd hj.new (Nat.not_le_of_lt hlt)
  · obtain ⟨k, locked, hp, rfl, rfl, _⟩ := hc.answered h
    have heach {P : Payload → Prop}
      (ho : Store.OneEach P σ.store (c.perform σ.store σ.clock locked).1) : j = j' :=
      ho.inj j hj.mem j' hj'.mem hj.new hj'.new (hj.payload.trans hj'.payload.symm)
    cases hb.exec_new hc hn hj.payload with
    | pushed workflow delayMs =>
        exact heach
          (.insertJobRow (workflowExecutionJob workflow r delayMs) rfl hb.fresh.jobs σ.clock)
    | released _ name payload targets | started _ name payload targets =>
        refine heach
          (σ.store.emitInTx_oneEach name payload targets locked σ.clock hb.fresh.jobs
            (fun row hrow => ?_))
        exact hb.fresh.runs row.id row (Table.get?_key hrow)

/-- The call that pushes a job for a parked run has woken it. -/
theorem Calling.released {i : Nat} {t : Worker} {name : String} {payload : Json}
    {targets : List TriggerTarget}
    (hc : σ.Calling l i t (.emitEvent name payload targets)) (h : Move E σ l σ') (hb : σ.Base)
    {row : RunRow}
    (hrow : σ.store.runs.get? r = some row) {j : JobRow} (hj : AddedJob σ σ' r j) :
    ¬ σ'.token r .parked := by
  obtain ⟨k, locked, hp, rfl, rfl, _⟩ := hc.answered h
  have hids : ∀ row ∈ σ.store.runs.rows, row.id < σ.store.nextId :=
    fun row hrow => hb.fresh.runs row.id row (Table.get?_key hrow)
  have ho := σ.store.emitInTx_oneEach name payload targets locked σ.clock hb.fresh.jobs hids
  rintro ⟨row', hrow', hpark⟩
  have hrow' : (σ.store.emitInTx name payload targets locked σ.clock).1.runs.get? r = some row' :=
    hrow'
  obtain hold | ⟨_, _, ⟨w, hw, he⟩ | ⟨id, hge, he⟩⟩ := ho.grows.origin j hj.mem
  · exact absurd hj.new (Nat.not_le_of_lt (hb.fresh.jobs j hold))
  · rw [hj.payload] at he
    cases he
    obtain rfl : w = row :=
      Option.some.inj ((Table.get?_key (Table.mem_select.mp hw).1).symm.trans hrow)
    rw [Call.emit_runs_of_some name payload targets σ.clock locked hrow, if_pos hw] at hrow'
    cases hrow'
    cases hpark
  · rw [hj.payload] at he
    cases he
    exact absurd hge (Nat.not_le_of_lt (hb.fresh.runs r row hrow))

theorem Move.hands (h : Move E σ l σ') (hb : σ.Base) (hs : σ.Settling) (hs' : σ'.Settling)
    (hU : σ.Unbroken r)
    (hU' : σ'.Unbroken r) (hok : σ.keepsHanded r l = true) (hlease : σ.keepsLeases r l = true)
    (hz : σ'.token r z) :
    σ.token r z ∨ ∃ x, Hands E σ l σ' r x z := by
  cases z with
  | parked =>
      refine (h.token_parked hb hz).imp_right ?_
      rintro ⟨i, t, c, hc, hp⟩
      exact ⟨_, .parks i t c hc hp⟩
  | debt k =>
      refine (h.token_debt hz).imp_right ?_
      rintro ⟨t, c, kk, locked, rfl, ht, hp, hin⟩
      have hc : σ.Calling (.call k (.ok locked)) k t c := ⟨ht, ⟨kk, hp⟩, locked, rfl⟩
      obtain ⟨run, rfl, _, hr⟩ | ⟨row, hrow, hpark, row', hrow', hwoken⟩ := hin.perform
      · exact ⟨_, .created k t run hc hr⟩
      · refine ⟨_, .unparked k t c hc ?_ ⟨row, hrow, hpark⟩ ?_⟩
        · rintro name payload targets rfl
          generalize ((Call.emitEvent name payload targets).perform σ.store σ.clock locked).2 =
            v at hin
          cases hin
        · rintro ⟨row'', hrow'', hparked⟩
          rw [h.eq_stored ht hp] at hrow''
          obtain rfl := Option.some.inj (hrow'.symm.trans hrow'')
          rw [hwoken] at hparked
          cases hparked
  | attempt k =>
      refine (h.token_attempt hz).imp_right ?_
      rintro ⟨workflow, limit, cfg, cj, hl, hcfg, hcj, hge, hp⟩
      exact ⟨_, .claimed workflow limit cfg k cj cj.id hl hcfg hge hcj hp rfl⟩
  | job id =>
      refine (h.token_job hb hs hs' hU hU' hok hlease hz).imp_right ?_
      rintro (⟨i, t, c, j, hc, hj, rfl, hge, hn⟩ | ⟨i, hd⟩)
      · obtain ⟨_, _, hrow⟩ := hn.pushed_row
        have hadd : AddedJob σ σ' r j := ⟨hj, hge, hrow.payload⟩
        cases hn with
        | pushed workflow delayMs hp hpay =>
            obtain ho | ⟨hr, hk, _⟩ := hpay
            · exact ⟨_, .paid i t workflow delayMs j hc ho hadd⟩
            · exact ⟨_, .pushed i t workflow delayMs j hc hr hk hadd⟩
        | released row name payload targets hrow hw =>
            exact ⟨_, .released i t name payload targets j hc ⟨row, hrow, by rw [hw]; rfl⟩
              (hc.released h hb hrow hadd) hadd⟩
        | started workflow name payload targets hge' =>
            exact ⟨_, .started i t name payload targets j hc hge' hadd⟩
      · exact ⟨_, .dropped i id hd⟩

theorem workerThread_live (E : WorkflowEngine) (workflow : String) {cj : ClaimedJob}
    (hp : cj.payload = .execution r) :
    (workerThread E workflow cj).live = true := by
  unfold workerThread Thread.live runGroup WorkflowEngine.execute
  rw [hp]
  rfl

theorem Calling.handed {i : Nat} {t u : Worker} {c : Call} (hc : σ.Calling l i t c)
    (h : Move E σ l σ')
    (hover : c.parks = some r ∨ t.kind.run? = some r ∧
      ∃ workflow delayMs, c = .push [workflowExecutionJob workflow r delayMs])
      (hu : σ'.pool[i]? = some u) :
    u.track.handed = true := by
  obtain ⟨k, locked, _, rfl, rfl, hu'⟩ := hc.answered h
  obtain rfl := Option.some.inj (hu.symm.trans hu')
  rw [Worker.track_answer]
  obtain hp | ⟨hr, workflow, delayMs, rfl⟩ := hover
  · have hpark : c.parks.isSome = true := by rw [hp]; rfl
    exact Track.handed_parks hpark
  · have hown : (Worker.track t).own = some r := (Worker.track_own t).1.trans hr
    have hpush : r ∈ [workflowExecutionJob workflow r delayMs].filterMap PushJob.run? :=
      List.mem_cons_self
    exact Track.handed_push (σ.store.push [workflowExecutionJob workflow r delayMs] σ.clock).2
      hown hpush

theorem Hands.gone (hh : Hands E σ l σ' r (some y) z) (h : Move E σ l σ') (hb : σ.Base) :
    σ.token r y ∧ ¬ σ'.token r y := by
  cases hh with
  | parks i t c hc hp =>
      obtain ⟨k, hprog⟩ := hc.prog
      have hl := Thread.live_of_call hprog
      obtain ⟨hown, hk⟩ := Track.keeps_of_parks ((hb.obeys i t hc.thread hl).mayCall hprog) hp
      rw [(Worker.track_own t).1] at hown
      refine ⟨⟨t, hc.thread, Worker.attempts_iff.mpr ⟨hl, hown, hk.handed, hk.acked⟩⟩, ?_⟩
      rintro ⟨u, hu, ha⟩
      exact absurd (hc.handed h (.inl hp) hu) (by rw [(Worker.attempts_iff.mp ha).2.2.1]; nofun)
  | unparked _ _ _ _ _ hp hn | released _ _ _ _ _ _ _ hp hn => exact ⟨hp, hn⟩
  | claimed workflow limit cfg k cj id hl hcfg hge hcj hp hcid =>
      subst hl hcid
      obtain ⟨j, hj, hin, hid, hf, hpay⟩ := mem_claimOf (List.mem_of_getElem? hcj)
      have hpend := (claimIds_row hj hin).2.1
      refine ⟨⟨j, hj, hid.symm, hpay.symm.trans hp, ?_⟩, ?_⟩
      · simp [busy, hpend]
      · rintro ⟨j', hj', hid', _, hbusy⟩
        have he := h.eq_claimed hcfg
        rw [he] at hj'
        obtain ⟨hf', _, hrun⟩ := claimOf_row (List.mem_of_getElem? hcj) hj' hid'
        have hnew : σ'.pool[k]? = some (workerThread E workflow cj) := by
          rw [he]
          show (σ.pool ++ (σ.claimOf workflow limit cfg).2.map (workerThread E workflow))[k]? = _
          rw [List.getElem?_append_right hge, List.getElem?_map, hcj, Option.map_some]
        have hhold : Worker.holds (workerThread E workflow cj) j' = true :=
          Worker.holds_iff.mpr ⟨cj, rfl, hid'.symm, hf'.symm⟩
        have hlive := workerThread_live E workflow hp
        rw [busy_iff.mpr ⟨hrun, k, _, hnew, hlive, hhold⟩] at hbusy
        cases hbusy
  | paid i t workflow delayMs j hc ho hj =>
      obtain ⟨k, locked, hprog, rfl, rfl, hu⟩ := hc.answered h
      refine ⟨⟨t, hc.thread, Thread.live_of_call hprog, ho⟩, ?_⟩
      rintro ⟨u, hu', _, ho'⟩
      obtain rfl := Option.some.inj (hu.symm.trans hu')
      rw [Worker.track_answer] at ho'
      have := (List.mem_filter.mp ho').2
      simp at this
  | pushed i t workflow delayMs j hc hr hk hj =>
      obtain ⟨k, hprog⟩ := hc.prog
      refine ⟨⟨t, hc.thread,
        Worker.attempts_iff.mpr ⟨Thread.live_of_call hprog, hr, hk.handed, hk.acked⟩⟩, ?_⟩
      rintro ⟨u, hu, ha⟩
      have hover := hc.handed h (.inr ⟨hr, workflow, delayMs, rfl⟩) hu
      exact absurd hover (by rw [(Worker.attempts_iff.mp ha).2.2.1]; nofun)
  | dropped i id hd =>
      obtain ⟨t, cj, ht, ha, _⟩ := hd.before
      obtain ⟨u, hu, hna, _⟩ := hd.after
      refine ⟨⟨t, ht, ha⟩, ?_⟩
      rintro ⟨u', hu', ha'⟩
      obtain rfl := Option.some.inj (hu.symm.trans hu')
      rw [hna] at ha'
      cases ha'

theorem Hands.first (hh : Hands E σ l σ' r none z) : σ.store.nextId ≤ r := by
  cases hh with
  | created i t run hc hr => exact Nat.le_of_eq hr.symm
  | started _ _ _ _ _ _ _ hge => exact hge

theorem Hands.unique (hz : Hands E σ l σ' r x z) (hy : Hands E σ l σ' r x y) (h : Move E σ l σ')
    (hb : σ.Base) :
    z = y := by
  have hadded {j j' : JobRow} (hj : AddedJob σ σ' r j) (hj' : AddedJob σ σ' r j') :
      Token.job j.id = Token.job j'.id := by rw [hj.unique h hb hj']
  -- a drop is no handing over
  have hkept {i : Nat} {t : Worker} {c : Call} {id : JobId} (hc : σ.Calling l i t c)
      (hover : c.parks = some r ∨ t.kind.run? = some r ∧
        ∃ workflow delayMs, c = .push [workflowExecutionJob workflow r delayMs])
      (hd : Dropped σ l σ' r i id) : False := by
    obtain ⟨u, hu, _, hhand⟩ := hd.after
    exact absurd (hc.handed h hover hu) (by rw [hhand]; nofun)
  cases hz with
  | parks i t c hc hp =>
      cases hy with
      | parks => rfl
      | pushed _ t' workflow delayMs j hc' =>
          obtain ⟨_, _, rfl⟩ := hc.unique hc'
          cases hp
      | dropped _ id hd => exact (hkept hc (.inl hp) hd).elim
  | created i t run hc =>
      cases hy with
      | created i' t' run' hc' => rw [(hc.unique hc').1]
      | started _ _ _ _ _ _ hc' => exact absurd (hc.unique hc').2.2 nofun
  | unparked i t c hc hne =>
      cases hy with
      | unparked i' t' c' hc' => rw [(hc.unique hc').1]
      | released _ _ name payload targets _ hc' =>
          exact absurd (hc.unique hc').2.2 (hne name payload targets)
  | claimed workflow limit cfg k cj id hl hcfg hge hcj hp hid =>
      subst hl
      cases hy with
      | claimed workflow' limit' cfg' k' cj' _ hl' hcfg' hge' hcj' _ hid' =>
          cases hl'
          obtain rfl : cfg = cfg' := Option.some.inj (hcfg.symm.trans hcfg')
          have := claimOf_index hcj hcj' (hid.trans hid'.symm)
          exact congrArg Token.attempt (by omega)
  | paid i t workflow delayMs j hc ho hj =>
      cases hy with
      | paid _ _ _ _ j' _ _ hj' => exact hadded hj hj'
  | pushed i t workflow delayMs j hc hr hk hj =>
      cases hy with
      | parks _ _ _ hc' hp =>
          obtain ⟨_, _, rfl⟩ := hc.unique hc'
          cases hp
      | pushed _ _ _ _ j' _ _ _ hj' => exact hadded hj hj'
      | dropped _ id hd => exact (hkept hc (.inr ⟨hr, workflow, delayMs, rfl⟩) hd).elim
  | released i t name payload targets j hc _ _ hj =>
      cases hy with
      | unparked _ _ _ hc' hne => exact absurd (hc'.unique hc).2.2 (hne name payload targets)
      | released _ _ _ _ _ j' _ _ _ hj' => exact hadded hj hj'
  | started i t name payload targets j hc _ hj =>
      cases hy with
      | created _ _ _ hc' => exact absurd (hc'.unique hc).2.2 nofun
      | started _ _ _ _ _ j' _ _ hj' => exact hadded hj hj'
  | dropped i id hd =>
      cases hy with
      | parks _ t c hc hp => exact (hkept hc (.inl hp) hd).elim
      | pushed _ t workflow delayMs j hc hr =>
          exact (hkept hc (.inr ⟨hr, workflow, delayMs, rfl⟩) hd).elim
      | dropped _ id' hd' =>
          obtain ⟨t, cj, ht, _, hcj, rfl⟩ := hd.before
          obtain ⟨t', cj', ht', _, hcj', rfl⟩ := hd'.before
          obtain rfl : t = t' := Option.some.inj (ht.symm.trans ht')
          obtain rfl : cj = cj' := Option.some.inj (hcj.symm.trans hcj')
          rfl

def Single (σ : Sys) (r : RunId) : Prop := ∀ y z, σ.token r y → σ.token r z → y = z

theorem Move.single (h : Move E σ l σ') (hb : σ.Base) (hs : σ.Settling) (hs' : σ'.Settling)
    (hU : σ.Unbroken r)
    (hU' : σ'.Unbroken r) (hI : σ.Single r) (hok : σ.keepsHanded r l = true)
    (hlease : σ.keepsLeases r l = true) :
    σ'.Single r := by
  -- what is handed over leaves nothing behind
  have hlast {x : Option Token} {y z : Token} (hz : Hands E σ l σ' r x z) (hy : σ.token r y) :
    ¬ σ'.token r y := by
    cases x with
    | none => exact absurd (lt_of_token hb hy) (Nat.not_lt_of_le hz.first)
    | some w =>
        obtain ⟨hw, hn⟩ := hz.gone h hb
        rwa [hI y w hy hw]
  have hsame {x x' : Option Token} {y z : Token} (hz : Hands E σ l σ' r x z)
    (hy : Hands E σ l σ' r x' y) :
      x = x' := by
    cases x with
    | none =>
        cases x' with
        | none => rfl
        | some w' => exact absurd (lt_of_token hb (hy.gone h hb).1) (Nat.not_lt_of_le hz.first)
    | some w =>
        cases x' with
        | none => exact absurd (lt_of_token hb (hz.gone h hb).1) (Nat.not_lt_of_le hy.first)
        | some w' => rw [hI w w' (hz.gone h hb).1 (hy.gone h hb).1]
  intro y z hy hz
  obtain hy₀ | ⟨x, hyh⟩ := h.hands hb hs hs' hU hU' hok hlease hy
  · obtain hz₀ | ⟨x', hzh⟩ := h.hands hb hs hs' hU hU' hok hlease hz
    · exact hI y z hy₀ hz₀
    · exact absurd hy (hlast hzh hy₀)
  · obtain hz₀ | ⟨x', hzh⟩ := h.hands hb hs hs' hU hU' hok hlease hz
    · exact absurd hz (hlast hyh hz₀)
    · obtain rfl := hsame hyh hzh
      exact hyh.unique hzh h hb

/-- No live attempt at the run loses its lease, and none is lost after it has
handed its run over and before its ack. -/
def keepsOne (r : RunId) (σ : Sys) (l : Label) : Bool := σ.keepsLeases r l && σ.keepsHanded r l

theorem single_of_run {clock : Time} (h : Run (step E) (keepsOne r) (init .empty clock) σ) :
    σ.Single r := by
  have hboth : σ.Unbroken r ∧ σ.Single r := by
    refine h.invariant (fun σ => σ.Unbroken r ∧ σ.Single r) ⟨?_, ?_⟩ ?_
    · intro k t ht
      cases ht
    · intro y z hy
      cases y with
      | job id =>
          obtain ⟨j, hj, _⟩ := hy
          cases hj
      | attempt k | debt k =>
          obtain ⟨t, ht, _⟩ := hy
          cases ht
      | parked =>
          obtain ⟨row, hrow, _⟩ := hy
          cases hrow
    · rintro τ l τ' hrun ⟨hU, hI⟩ hok hs
      obtain ⟨hlease, hhand⟩ := Bool.and_eq_true_iff.mp hok
      have hm := step_move hs
      have hb := base_of_run hrun
      have hset := settling_of_run hrun
      have hU' := hm.unbroken hb hset hU hhand
      exact ⟨hU', hm.single hb hset (hm.settling hb (lineage_of_run hrun) hset) hU hU' hI
        hhand hlease⟩
  exact hboth.2

def executing (σ : Sys) (r : RunId) (k : Nat) : Bool :=
  (σ.pool[k]?).any (fun t => match t.prog with
    | .call (.executor req) _ => req.runId = r
    | _ => false)

theorem Base.attempt_of_executing (hb : σ.Base) {k : Nat} (h : σ.executing r k = true) :
    σ.token r (.attempt k) := by
  obtain ⟨t, ht, hx⟩ := (Option.any_eq_true _ _).mp h
  split at hx
  · next req kk hp =>
      have hl := Thread.live_of_call hp
      obtain ⟨hown, _, hk, _⟩ := (hb.obeys k t ht hl).allowed hp
      rw [of_decide_eq_true hx, (Worker.track_own t).1] at hown
      exact ⟨t, ht, Worker.attempts_iff.mpr ⟨hl, hown, hk.handed, hk.acked⟩⟩
  · cases hx

/-- A run executes in one attempt at a time. -/
theorem run_executes_alone {clock : Time} (h : Run (step E) (keepsOne r) (init .empty clock) σ)
    {i k : Nat}
    (hi : σ.executing r i = true) (hk : σ.executing r k = true) : i = k := by
  have hb := base_of_run h
  have he := single_of_run h _ _ (hb.attempt_of_executing hi) (hb.attempt_of_executing hk)
  exact Token.attempt.inj he

section Sample

/-- The first attempt pushes the retry of a failed step. -/
def retriedStep : List Label :=
  startOrder 0 ++
    attemptUpTo 1 (.stepFailed "pay" "declined") ++ [callOk 1, .call 1 (.draw 0), callOk 1]

/-- The attempt dies before its ack, and its job is redelivered beside the new one. -/
def redelivered : List Label :=
  retriedStep ++ [.crash 1, .tick 60001, .spawn .sweepExpired, callOk 2, callOk 2, .claim "order" 2,
    callOk 3, callOk 3, callOk 4, callOk 4]

theorem run_executes_alone_retried : ∃ σ, Run (step sampleEngine) (keepsOne 0) (init .empty 0) σ ∧
    σ.executing 0 2 = true ∧ ∀ k, σ.executing 0 k = true → 2 = k := by
  obtain ⟨σ, h, hp⟩ := Run.exists_of_replay (step sampleEngine) (keepsOne 0) (init .empty 0)
    (retriedStep ++ [callOk 1, .tick 60001, .claim "order" 2, callOk 2, callOk 2])
    (fun σ => σ.executing 0 2) (by decide +kernel)
  exact ⟨σ, h, hp, fun k hk => run_executes_alone h hp hk⟩

/-- Both jobs of the run are executed at once. -/
theorem redelivered_run_executes_twice :
    ∃ σ, Run (step sampleEngine) (keepsLeases 0) (init .empty 0) σ ∧
    σ.executing 0 3 = true ∧ σ.executing 0 4 = true := by
  obtain ⟨σ, h, hp⟩ :=
    Run.exists_of_replay (step sampleEngine) (keepsLeases 0) (init .empty 0) redelivered
    (fun σ => σ.executing 0 3 && σ.executing 0 4) (by decide +kernel)
  exact ⟨σ, h, Bool.and_eq_true_iff.mp hp⟩

end Sample

end Sys

end ZenZip
