import ZenZip.Runtime.Ids

namespace ZenZip

open Lib

namespace Call

/-- The run whose status a call writes without looking at it. -/
def writesStatus : Call → Option RunId
  | .runCompleted id _ | .runFailed id _ | .runSleeping id _ | .runWaitingEvent id _ _ _ _
  | .runWaitingChild id _ => some id
  | _ => none

end Call

def RunRow.ending (r : RunRow) : RunStatus × Option Json × Option String :=
  (r.status, r.output, r.error)

theorem RunChange.ending_eq {now : Time} {c : Call} {r r' : RunRow} (h : RunChange now c r r')
    (ht : r.status.terminal = true) (hw : c.writesStatus ≠ some r.id) : r'.ending = r.ending := by
  cases h with
  | completed | failed | sleeping | waitingEvent | waitingChild => exact absurd rfl hw
  | wokenParent _ h | released _ _ _ _ h | timedOut _ _ _ h =>
      rw [h] at ht
      cases ht
  | cancelled _ _ h =>
      rw [h] at ht
      cases ht

namespace Sys

variable {E : WorkflowEngine} {σ σ' : Sys} {l : Label}

def pendingCall (σ : Sys) (i : Nat) : Option Call :=
  match σ.pool[i]? with
  | some t => match t.prog with
    | .call (.store c) _ => some c
    | _ => none
  | none => none

theorem pendingCall_eq {i : Nat} {t : Worker} {c : Call} {k : Except String c.Ret → M Reply}
    (ht : σ.pool[i]? = some t) (hp : t.prog = .call (.store c) k) : σ.pendingCall i = some c := by
  simp [pendingCall, ht, hp]

theorem of_pendingCall {i : Nat} {c : Call} (h : σ.pendingCall i = some c) :
    ∃ (t : Worker) (k : Except String c.Ret → M Reply), σ.pool[i]? = some t ∧ t.prog = .call
      (.store c) k := by
  simp only [pendingCall] at h
  split at h
  · next t ht =>
      split at h
      · next c' k hp =>
          cases h
          exact ⟨t, k, ht, hp⟩
      · cases h
  · cases h

def ended (σ : Sys) (id : RunId) : Bool := (σ.store.runs.get? id).any (fun r => r.status.terminal)

/-- The step writes no status over that of an ended run. -/
def keepsEnded (σ : Sys) : Label → Bool
  | .call i (.ok _) => match (σ.pendingCall i).bind Call.writesStatus with
    | some id => !σ.ended id
    | none => true
  | _ => true

theorem Move.keeps_ending (h : Move E σ l σ') (hok : σ.keepsEnded l = true) {id : RunId}
    {r : RunRow}
    (hr : σ.store.runs.get? id = some r) (ht : r.status.terminal = true) :
    σ'.store.runs.get? id = none ∨ ∃ r', σ'.store.runs.get? id = some r' ∧
    r'.ending = r.ending := by
  obtain hs | ⟨i, t, c, k, locked, hti, hp, rfl, ⟨r', hc, hr'⟩ | ⟨_, hn⟩⟩ := h.run_cases hr
  · exact .inr ⟨r, hs, rfl⟩
  · refine .inr ⟨r', hr', hc.ending_eq ht ?_⟩
    intro hw
    rw [Table.key_of_get? hr] at hw
    simp [keepsEnded, pendingCall_eq hti hp, hw, ended, hr, ht] at hok
  · exact .inl hn

/-- Terminal statuses are absorbing in the runs that never write a status over
that of an ended run. -/
theorem ending_absorbing {clock : Time} {id : RunId} {r : RunRow}
    (h : Run (step E) keepsEnded (init .empty clock) σ) (h' : Run (step E) keepsEnded σ σ')
    (hr : σ.store.runs.get? id = some r) (ht : r.status.terminal = true) :
    ∀ r', σ'.store.runs.get? id = some r' →
      r'.status = r.status ∧ r'.output = r.output ∧ r'.error = r.error := by
  have hinv : id < σ'.store.nextId ∧ σ'.store.Fresh ∧ (σ'.store.runs.get? id = none ∨
      ∃ r', σ'.store.runs.get? id = some r' ∧ r'.ending = r.ending) := by
    refine h'.invariant
      (fun σ' => id < σ'.store.nextId ∧ σ'.store.Fresh ∧ (σ'.store.runs.get? id = none ∨
      ∃ r', σ'.store.runs.get? id = some r' ∧ r'.ending = r.ending)) ?_ ?_
    · have hf := fresh_of_run h
      exact ⟨hf.runs id r hr, hf, .inr ⟨r, hr, rfl⟩⟩
    · rintro τ l τ' _ ⟨hlt, hf, hcases⟩ hok hs
      have hm := step_move hs
      refine ⟨Nat.lt_of_lt_of_le hlt hm.nextId_le, hm.fresh hf, ?_⟩
      obtain hn | ⟨r₁, hr₁, he⟩ := hcases
      · exact .inl (hm.deleted hf hlt hn)
      · have ht₁ : r₁.status.terminal = true := by
          rw [show r₁.status = r.status from congrArg Prod.fst he]
          exact ht
        obtain hn | ⟨r₂, hr₂, he₂⟩ := hm.keeps_ending hok hr₁ ht₁
        · exact .inl hn
        · exact .inr ⟨r₂, hr₂, he₂.trans he⟩
  intro r' hr'
  obtain hn | ⟨r₁, hr₁, he⟩ := hinv.2.2
  · rw [hn] at hr'
    cases hr'
  · rw [hr₁] at hr'
    cases hr'
    simpa [RunRow.ending] using he

section Sample

def sampleEngine : WorkflowEngine := ⟨[.new "order"]⟩

def callOk (i : Nat) : Label := .call i (.ok [])

def startOrder (i : Nat) : List Label :=
  [.spawn (.trigger "order" .null none 0 none), callOk i, callOk i, .claim "order" 1]

def attemptUpTo (i : Nat) (o : ExecOutcome) : List Label :=
  [callOk i, callOk i, .call i (.outcome (.ok o)), callOk i]

def cancelDuring : List Label :=
  startOrder 0 ++ [callOk 1, callOk 1, .spawn (.cancel 0), callOk 2]

def statusOf (σ : Sys) (id : RunId) : Option RunStatus := (σ.store.runs.get? id).map (·.status)

def outputOf (σ : Sys) (id : RunId) : Option Json := (σ.store.runs.get? id).bind (·.output)

theorem ending_absorbing_cancelled : ∃ σ σ', Run (step sampleEngine) keepsEnded (init .empty 0) σ ∧
    Run (step sampleEngine) keepsEnded σ σ' ∧ σ.statusOf 0 = some .cancelled ∧ σ'.pool.length = 3 ∧
    ∀ r', σ'.store.runs.get? 0 = some r' → r'.status = .cancelled := by
  obtain ⟨σ, σ', h, h', hp⟩ := Run.exists_of_replay₂ (step sampleEngine) keepsEnded (init .empty 0)
    cancelDuring [.call 1 (.outcome (.ok (.completed none))), callOk 1, callOk 1]
    (fun σ σ' => decide (σ.statusOf 0 = some .cancelled ∧ σ'.pool.length = 3)) (by decide +kernel)
  obtain ⟨hs, hlen⟩ := of_decide_eq_true hp
  obtain ⟨r, hr, hrs⟩ := Option.map_eq_some_iff.mp hs
  refine ⟨σ, σ', h, h', hs, hlen, fun r' hr' => ?_⟩
  rw [(ending_absorbing h h' hr (by rw [hrs]; rfl) r' hr').1, hrs]

/-- A cancellation between the second look of `execute` and the write of
`apply` is undone. -/
theorem cancelled_run_completes : ∃ σ σ',
    Run (step sampleEngine) (fun _ _ => true) (init .empty 0) σ ∧
    Run (step sampleEngine) (fun _ _ => true) σ σ' ∧ σ.statusOf 0 = some .cancelled ∧
    σ'.statusOf 0 = some .completed ∧ σ'.outputOf 0 = some (.int 1) := by
  obtain ⟨σ, σ', h, h', hp⟩ :=
    Run.exists_of_replay₂ (step sampleEngine) (fun _ _ => true) (init .empty 0)
    (startOrder 0 ++
      attemptUpTo 1 (.completed (some (.int 1))) ++ [.spawn (.cancel 0), callOk 2]) [callOk 1]
    (fun σ σ' => decide (σ.statusOf 0 = some .cancelled ∧ σ'.statusOf 0 = some .completed ∧
      σ'.outputOf 0 = some (.int 1))) (by decide +kernel)
  exact ⟨σ, σ', h, h', of_decide_eq_true hp⟩

end Sample

end Sys

end ZenZip
