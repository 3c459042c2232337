import ZenZip.Ledger.Budget
import ZenZip.Queue.Dispatcher
import Mathlib.Data.List.InsertIdx
import Mathlib.Algebra.GroupWithZero.Nat

namespace ZenZip

open Lib

/-- No row is at work under this claim of its job. -/
def Store.Released (s : Store) (c : ClaimedJob) : Prop :=
  ∀ j, s.jobs.get? c.id = some j → j.fence = c.fence → j.status ≠ .running

section Released

variable {s : Store} {now : Time} {op : StoreOp} {c : ClaimedJob} {i j : JobRow}

theorem StoreOp.Change.running (h : StoreOp.Change s now op i j) (hj : j.status = .running) :
    (i.status = .running ∧ i.fence = j.fence) ∨ i.fence < j.fence := by
  cases h with
  | same => exact .inl ⟨hj, rfl⟩
  | called c locked _ _ h =>
      cases h with
      | same => exact .inl ⟨hj, rfl⟩
      | retried | dead | requeued => cases hj
      | expired _ t _ =>
          unfold Store.expiredRow at hj
          split at hj <;> cases hj
  | claimed => exact .inr (Nat.lt_succ_self _)
  | renewed _ _ _ _ h => exact .inl ⟨h, rfl⟩

theorem Store.Released.step (h : s.Released c)
    (hbelow : ∀ j, s.jobs.get? c.id = some j → c.fence ≤ j.fence)
    (hknown : c.id < s.nextId) : (op.perform s now).Released c := by
  intro j hj hfence hrunning
  obtain ⟨hmem, hid⟩ := Table.get?_eq_some_iff.mp hj
  obtain ⟨i, hi, hch⟩ | ⟨hge, _⟩ := op.job_origin hmem
  · have hget : s.jobs.get? c.id = some i := by
      rw [← hid, hch.frame.1]
      exact Table.get?_key hi
    rcases hch.running hrunning with ⟨hi', he⟩ | hlt
    · exact h i hget (he.trans hfence) hi'
    · have hle := hbelow i hget
      omega
  · exact absurd (hid ▸ hknown) (Nat.not_lt_of_le hge)

theorem ClaimedJob.settle_released (c : ClaimedJob) (s : Store) (now at' delay : Time)
    (result : Except String Unit) :
    ((c.settle at' delay result).perform s now).Released c := by
  have hupdate (f : JobRow → JobRow) (hf : ∀ i, (f i).status ≠ .running)
    (hkey : ∀ i, (f i).id = i.id) :
      Store.Released
        { s with jobs := s.jobs.update (fun j => j.id = c.id && j.fence = c.fence) f hkey } c := by
    intro j hj hfence hrunning
    have hj : (s.jobs.update (fun j => j.id = c.id && j.fence = c.fence) f hkey).get? c.id =
      some j := hj
    have hid := Table.key_of_get? hj
    rw [Table.get?_update] at hj
    obtain ⟨i, -, hi⟩ := Option.map_eq_some_iff.mp hj
    split at hi
    · exact hf i (hi ▸ hrunning)
    · next hp =>
        rw [← hi] at hid hfence
        exact hp (by simp [hid, hfence])
  cases result with
  | ok u =>
      intro j hj hfence hrunning
      have hj : (s.jobs.delete (fun j => j.id = c.id && j.fence = c.fence)).get? c.id = some j := hj
      have hid := Table.key_of_get? hj
      rw [Table.get?_delete, Option.filter_eq_some_iff] at hj
      simp [hid, hfence] at hj
  | error message =>
      rw [settle]
      split
      · exact hupdate (Store.deadRow message now) (fun _ => by simp [Store.deadRow]) (fun _ => rfl)
      · exact hupdate (Store.retryRow message (at' + delay) now) (fun _ => by simp [Store.retryRow])
          (fun _ => rfl)

end Released

namespace Dispatcher

variable {B T J : Type} {ops : Bucket B T} {cfg : QueueConfig} {σ σ' : Dispatcher B T J}

theorem look_spec {cancelled paused : Bool} {now : T}
    (hs : σ.step ops cfg (.look cancelled paused now) = some σ') :
    σ.phase = .looking ∧ σ'.claimed = σ.claimed ∧ σ'.inFlight = σ.inFlight ∧ σ'.phase.formed = [] ∧
      (cancelled = true → σ'.phase = .returned) := by
  rw [step] at hs
  split at hs
  · next hphase =>
      split at hs
      · cases hs
        exact ⟨hphase, rfl, rfl, rfl, fun _ => rfl⟩
      · next hc =>
          split at hs
          · cases hs
            exact ⟨hphase, rfl, rfl, rfl, fun h => absurd h hc⟩
          · cases hs
            refine ⟨hphase, ?_⟩
            unfold Dispatcher.look
            split
            · exact ⟨rfl, rfl, rfl, fun h => absurd h hc⟩
            · split
              · exact ⟨rfl, rfl, rfl, fun h => absurd h hc⟩
              · dsimp only
                split
                · exact ⟨rfl, rfl, rfl, fun h => absurd h hc⟩
                · exact ⟨rfl, rfl, rfl, fun h => absurd h hc⟩
  · cases hs

theorem wake_spec {seen : Bool} (hs : σ.step ops cfg (.wake seen) = some σ') :
    (∃ b r, σ.phase = .resting b r) ∧
    σ' = { σ with phase := if seen then .returned else .looking } := by
  rw [step] at hs
  split at hs
  · next b r hphase =>
      cases hs
      exact ⟨⟨b, r, hphase⟩, rfl⟩
  · cases hs

theorem claim_error_spec {error : String} (hs : σ.step ops cfg (.claim (.error error)) = some σ') :
    (∃ want, σ.phase = .claiming want) ∧ σ' = { σ with phase := .resting false none } := by
  rw [step] at hs
  split at hs
  · next want hphase =>
      cases hs
      exact ⟨⟨want, hphase⟩, rfl⟩
  · cases hs

theorem claim_ok_spec {jobs : List J} {want : Nat} (hphase : σ.phase = .claiming want)
    (hs : σ.step ops cfg (.claim (.ok jobs)) = some σ') :
    jobs.length ≤ want ∧ σ'.claimed = σ.claimed ++ jobs ∧ σ'.inFlight = σ.inFlight ∧
      ((jobs = [] ∧ σ'.phase = .resting false none) ∨
      σ'.phase = .dispatching (chunks cfg.group jobs)) := by
  rw [step, hphase] at hs
  dsimp only at hs
  cases jobs with
  | nil =>
      cases hs
      exact ⟨Nat.zero_le _, (List.append_nil _).symm, rfl, .inl ⟨rfl, rfl⟩⟩
  | cons job jobs =>
      rw [Dispatcher.claim] at hs
      split at hs
      · next hle =>
          cases hs
          exact ⟨hle, rfl, rfl, .inr rfl⟩
      · cases hs

theorem dispatch_spec {cs : List (List J)} (hphase : σ.phase = .dispatching cs)
    (hs : σ.step ops cfg .dispatch = some σ') :
    σ'.claimed = σ.claimed ∧ σ'.inFlight = σ.inFlight ++ cs.take 1 ∧
      ((cs = [] ∧ σ'.phase = .looking) ∨ ∃ c cs', cs = c :: cs' ∧ σ'.phase = .dispatching cs') := by
  rw [step, hphase] at hs
  dsimp only at hs
  cases cs with
  | nil =>
      cases hs
      exact ⟨rfl, (List.append_nil _).symm, .inl ⟨rfl, rfl⟩⟩
  | cons c cs =>
      rw [Dispatcher.dispatch] at hs
      split at hs
      · cases hs
      · cases hs
        exact ⟨rfl, rfl, .inr ⟨c, cs, rfl, rfl⟩⟩

theorem finish_spec {i : Nat} (hs : σ.step ops cfg (.finish i) = some σ') :
    i < σ.inFlight.length ∧ σ' =
    { σ with permits := σ.permits + 1, inFlight := σ.inFlight.eraseIdx i } := by
  rw [step] at hs
  split at hs
  · next hi =>
      cases hs
      exact ⟨hi, rfl⟩
  · cases hs

end Dispatcher

/-- A task of `run_group`: its jobs, what the handler has returned, and the jobs that are not
reported yet. -/
structure RunGroup where
  jobs : List ClaimedJob
  result : Option (Except String Unit)
  left : List ClaimedJob

def RunGroup.start (jobs : List ClaimedJob) : RunGroup := ⟨jobs, none, jobs⟩

/-- A dispatcher and the groups that it has given to the tracker; the jobs that it has reported,
those whose report the store refused, and the claims made after the cancellation. -/
structure QueueWorker (B T : Type) where
  name : String
  cfg : QueueConfig
  leaseMs : Int
  keyLimit : Option Nat
  fair : Bool
  loop : Dispatcher B T ClaimedJob
  groups : List RunGroup
  reported : List ClaimedJob
  lost : List ClaimedJob
  late : Nat

/-- The steps that a group has before it. -/
def RunGroup.weight (g : RunGroup) : Nat := g.left.length + (if g.result.isSome then 0 else 1) + 1

/-- The steps that a cancelled loop has before it, with those of the groups that it will start. -/
def Dispatcher.Phase.weight : Dispatcher.Phase ClaimedJob → Nat
  | .returned => 0
  | .looking => 1
  | .resting _ _ => 2
  | .dispatching cs => (cs.map (fun c => c.length + 3)).sum + 2
  | .claiming want => 4 * want + 3

namespace QueueWorker

variable {B T : Type}

def init (name : String) (cfg : QueueConfig) (leaseMs : Int) (keyLimit : Option Nat) (fair : Bool)
    (bucket : Option B) :
    QueueWorker B T := ⟨name, cfg, leaseMs, keyLimit, fair, .init cfg bucket, [], [], [], 0⟩

inductive Act (T : Type)
  | look (paused : Bool) (now : T)
  | wake (seen : Bool)
  | claim (now : Time)
  | claimFails (error : String)
  | spawn
  | returns (i : Nat) (result : Except String Unit)
  | report (i : Nat) (now delay : Time) (fails : Bool)
  | exit (i : Nat)

def Act.failing : Act T → Bool
  | .claimFails _ | .report _ _ _ true => true
  | _ => false

variable (ops : Bucket B T)

def claimOp (w : QueueWorker B T) (want : Nat) : StoreOp :=
  .claim w.name want w.leaseMs w.keyLimit w.fair

/-- A step of the dispatcher's loop that needs no store. -/
def advance (w : QueueWorker B T) (l : Dispatcher.Label T ClaimedJob) : Option (QueueWorker B T) :=
  (w.loop.step ops w.cfg l).map fun loop => { w with loop }

def act (cancelled : Bool) (ledger : Ledger) (w : QueueWorker B T) :
    Act T → Option (QueueWorker B T × Ledger)
  | .look paused now => (w.advance ops (.look cancelled paused now)).map (·, ledger)
  -- the loop may wake for another reason though the token is cancelled
  | .wake seen => if seen && !cancelled then none else (w.advance ops (.wake seen)).map (·, ledger)
  | .claimFails error => (w.advance ops (.claim (.error error))).map (·, ledger)
  | .claim now =>
    match w.loop.phase with
    | .claiming want =>
      (w.advance ops (.claim (.ok ((w.claimOp want).hands ledger.store now)))).bind fun w' =>
        (ledger.step (now, w.claimOp want)).map
          ({ w' with late := if cancelled then w.late + 1 else w.late }, ·)
    | _ => none
  | .spawn =>
    match w.loop.phase with
    | .dispatching cs =>
        (w.advance ops .dispatch).map fun w' =>
          ({ w' with groups := w.groups ++ (cs.take 1).map .start }, ledger)
    | _ => none
  | .returns i result => w.groups[i]?.bind fun g =>
    if g.result.isSome then none
      else some ({ w with groups := w.groups.set i { g with result := some result } }, ledger)
  | .report i now delay fails => w.groups[i]?.bind fun g =>
    match g.result, g.left with
    | some result, job :: left =>
      let groups := w.groups.set i { g with left }
      if fails then some ({ w with groups, lost := job :: w.lost }, ledger)
      else (ledger.step (now, job.settle now delay result)).map
        ({ w with groups, reported := job :: w.reported }, ·)
    | _, _ => none
  | .exit i => w.groups[i]?.bind fun g =>
    if g.result.isSome ∧ g.left = [] then
      (w.advance ops (.finish i)).map fun w' => ({ w' with groups := w.groups.eraseIdx i }, ledger)
    else none

variable {ops} {w w' : QueueWorker B T} {cancelled : Bool} {ledger ledger' : Ledger} {a : Act T}

/-- The jobs claimed that are not reported yet: those of the groups, and those of the groups to
come. -/
def owed (w : QueueWorker B T) : List ClaimedJob :=
  w.groups.flatMap RunGroup.left ++ w.loop.phase.formed.flatten

structure Sound (cancelled : Bool) (ledger : Ledger) (w : QueueWorker B T) : Prop where
  loop : w.loop.Sound w.cfg
  inFlight : w.groups.map RunGroup.jobs = w.loop.inFlight
  known : ∀ c ∈ w.loop.claimed, c ∈ ledger.claims
  accounted : (w.reported ++ w.lost ++ w.owed).Perm w.loop.claimed
  released : ∀ c ∈ w.reported, ledger.store.Released c
  early : cancelled = false → w.late = 0
  late : w.late ≤ 1 ∧ (w.late = 1 → ∀ want, w.loop.phase ≠ .claiming want)

inductive Effect (ops : Bucket B T) (cancelled : Bool) (ledger : Ledger) (w : QueueWorker B T) :
    QueueWorker B T → Ledger → Prop
  | looked (paused now loop)
  (hloop : w.loop.step ops w.cfg (.look cancelled paused now) = some loop) :
      Effect ops cancelled ledger w { w with loop } ledger
  | woke (seen loop) (hloop : w.loop.step ops w.cfg (.wake seen) = some loop) : Effect ops cancelled
    ledger w { w with loop } ledger
  | claimFailed (error loop) (hloop : w.loop.step ops w.cfg (.claim (.error error)) = some loop) :
      Effect ops cancelled ledger w { w with loop } ledger
  | claimed (now want loop ledger') (hphase : w.loop.phase = .claiming want)
      (hloop : w.loop.step ops w.cfg (.claim (.ok ((w.claimOp want).hands ledger.store now))) =
        some loop)
      (hledger : ledger.step (now, w.claimOp want) = some ledger') :
      Effect ops cancelled ledger w
        { w with loop, late := if cancelled then w.late + 1 else w.late } ledger'
  | spawned (cs loop) (hphase : w.loop.phase = .dispatching cs)
    (hloop : w.loop.step ops w.cfg .dispatch = some loop) :
      Effect ops cancelled ledger w
        { w with loop, groups := w.groups ++ (cs.take 1).map .start } ledger
  | returned (i g result) (hg : w.groups[i]? = some g) (hresult : g.result = none) :
      Effect ops cancelled ledger w
        { w with groups := w.groups.set i { g with result := some result } } ledger
  | lost (i g job left) (hg : w.groups[i]? = some g) (hleft : g.left = job :: left) :
      Effect ops cancelled ledger w
        { w with groups := w.groups.set i { g with left }, lost := job :: w.lost } ledger
  | reported (i g result job left now delay ledger') (hg : w.groups[i]? = some g)
    (hleft : g.left = job :: left)
      (hledger : ledger.step (now, job.settle now delay result) = some ledger') :
      Effect ops cancelled ledger w
        { w with groups := w.groups.set i { g with left }, reported := job :: w.reported } ledger'
  | exited (i g loop) (hg : w.groups[i]? = some g) (hresult : g.result.isSome) (hleft : g.left = [])
      (hloop : w.loop.step ops w.cfg (.finish i) = some loop) :
      Effect ops cancelled ledger w { w with loop, groups := w.groups.eraseIdx i } ledger

theorem advance_eq_some {l : Dispatcher.Label T ClaimedJob} (hs : w.advance ops l = some w') :
    ∃ loop, w.loop.step ops w.cfg l = some loop ∧ w' = { w with loop } := by
  obtain ⟨loop, hloop, rfl⟩ := Option.map_eq_some_iff.mp hs
  exact ⟨loop, hloop, rfl⟩

theorem act_effect (hs : w.act ops cancelled ledger a = some (w', ledger')) :
    Effect ops cancelled ledger w w' ledger' := by
  cases a with
  | look paused now =>
      obtain ⟨v, hv, he⟩ := Option.map_eq_some_iff.mp hs
      obtain ⟨loop, hloop, rfl⟩ := advance_eq_some hv
      cases he
      exact .looked paused now loop hloop
  | wake seen =>
      rw [act] at hs
      split at hs
      · cases hs
      · obtain ⟨v, hv, he⟩ := Option.map_eq_some_iff.mp hs
        obtain ⟨loop, hloop, rfl⟩ := advance_eq_some hv
        cases he
        exact .woke seen loop hloop
  | claimFails error =>
      obtain ⟨v, hv, he⟩ := Option.map_eq_some_iff.mp hs
      obtain ⟨loop, hloop, rfl⟩ := advance_eq_some hv
      cases he
      exact .claimFailed error loop hloop
  | claim now =>
      rw [act] at hs
      split at hs
      · next want hphase =>
          obtain ⟨v, hv, hs⟩ := Option.bind_eq_some_iff.mp hs
          obtain ⟨σ, hσ, he⟩ := Option.map_eq_some_iff.mp hs
          obtain ⟨loop, hloop, rfl⟩ := advance_eq_some hv
          cases he
          exact .claimed now want loop ledger' hphase hloop hσ
      · cases hs
  | spawn =>
      rw [act] at hs
      split at hs
      · next cs hphase =>
          obtain ⟨v, hv, he⟩ := Option.map_eq_some_iff.mp hs
          obtain ⟨loop, hloop, rfl⟩ := advance_eq_some hv
          cases he
          exact .spawned cs loop hphase hloop
      · cases hs
  | returns i result =>
      obtain ⟨g, hg, hs⟩ := Option.bind_eq_some_iff.mp hs
      split at hs
      · cases hs
      · next hresult =>
          cases hs
          exact .returned i g result hg (by simpa using hresult)
  | report i now delay fails =>
      obtain ⟨g, hg, hs⟩ := Option.bind_eq_some_iff.mp hs
      split at hs
      · next result job left hresult hleft =>
          dsimp only at hs
          split at hs
          · cases hs
            exact .lost i g job left hg hleft
          · obtain ⟨σ, hσ, he⟩ := Option.map_eq_some_iff.mp hs
            cases he
            exact .reported i g result job left now delay ledger' hg hleft hσ
      · cases hs
  | exit i =>
      obtain ⟨g, hg, hs⟩ := Option.bind_eq_some_iff.mp hs
      split at hs
      · next hdone =>
          obtain ⟨v, hv, he⟩ := Option.map_eq_some_iff.mp hs
          obtain ⟨loop, hloop, rfl⟩ := advance_eq_some hv
          cases he
          exact .exited i g loop hg hdone.1 hdone.2 hloop
      · cases hs

theorem Effect.stored (he : Effect ops cancelled ledger w w' ledger') :
    ledger' = ledger ∨ ∃ l, ledger.step l = some ledger' := by
  cases he with
  | looked | woke | claimFailed | spawned | returned | lost | exited => exact .inl rfl
  | claimed _ _ _ _ _ _ h | reported _ _ _ _ _ _ _ _ _ _ h => exact .inr ⟨_, h⟩

namespace Sound

theorem keep (h : w.Sound cancelled ledger) (hcfg : w'.cfg = w.cfg) (hloop : w'.loop.Sound w.cfg)
    (hinFlight : w'.groups.map RunGroup.jobs = w'.loop.inFlight)
    (hclaimed : w'.loop.claimed = w.loop.claimed)
    (hreported : w'.reported = w.reported) (hlost : w'.lost = w.lost) (howed : w'.owed.Perm w.owed)
    (hlate : w'.late = w.late)
    (hphase : cancelled = true → ∀ want, w'.loop.phase = .claiming want →
    w.loop.phase = .claiming want) :
    w'.Sound cancelled ledger := by
  refine ⟨hcfg ▸ hloop, hinFlight, ?_, ?_, ?_, ?_, ?_⟩
  · rw [hclaimed]
    exact h.known
  · rw [hreported, hlost, hclaimed]
    exact (howed.append_left _).trans h.accounted
  · rw [hreported]
    exact h.released
  · rw [hlate]
    exact h.early
  · rw [hlate]
    refine ⟨h.late.1, fun h1 want he => ?_⟩
    have hc : cancelled = true := by
      cases hc : cancelled with
      | true => rfl
      | false =>
          have h0 := h.early hc
          omega
    exact h.late.2 h1 want (hphase hc want he)

theorem ledger_step (h : w.Sound cancelled ledger) (hfenced : ledger.Fenced) {l : Time × StoreOp}
    (hs : ledger.step l = some ledger') : w.Sound cancelled ledger' := by
  obtain ⟨now, op⟩ := l
  have hstore := Ledger.store_of_step hs
  have hclaims := Ledger.claims_of_step hs
  refine ⟨h.loop, h.inFlight, fun c hc => ?_, h.accounted, fun c hc => ?_, h.early, h.late⟩
  · rw [hclaims]
    exact List.mem_append_right _ (h.known c hc)
  · have hmem : c ∈ ledger.claims :=
      h.known c (h.accounted.subset (List.mem_append_left _ (List.mem_append_left _ hc)))
    rw [hstore]
    exact (h.released c hc).step (hfenced.below c hmem) (hfenced.known c hmem)

theorem claim {want : Nat} {now : Time} {loop : Dispatcher B T ClaimedJob}
    (h : w.Sound cancelled ledger) (hfenced : ledger.Fenced)
    (hphase : w.loop.phase = .claiming want)
    (hloop : w.loop.step ops w.cfg (.claim (.ok ((w.claimOp want).hands ledger.store now))) =
    some loop)
    (hs : ledger.step (now, w.claimOp want) = some ledger') :
    ({ w with loop, late := if cancelled then w.late + 1 else w.late } : QueueWorker B T).Sound
      cancelled ledger' := by
  obtain ⟨-, hclaimed, hinFlight, hjobs⟩ := Dispatcher.claim_ok_spec hphase hloop
  have hkept := h.ledger_step hfenced hs
  have hclaims := Ledger.claims_of_step hs
  have hformed : loop.phase.formed.flatten = (w.claimOp want).hands ledger.store now := by
    obtain ⟨hnil, hp⟩ | hp := hjobs
    · rw [hp, hnil]
      rfl
    · rw [hp]
      exact flatten_chunks w.cfg.group_pos _
  have hnot : ∀ want', loop.phase ≠ .claiming want' := by
    intro want' he
    obtain ⟨-, hp⟩ | hp := hjobs
    · rw [hp] at he
      cases he
    · rw [hp] at he
      cases he
  refine ⟨h.loop.step hloop, h.inFlight.trans hinFlight.symm, fun c hc => ?_, ?_, hkept.released,
    fun hc => ?_, ?_, fun _ => hnot⟩
  · rw [hclaimed, List.mem_append] at hc
    rcases hc with hc | hc
    · exact hkept.known c hc
    · rw [hclaims]
      exact List.mem_append_left _ hc
  · have hold := h.accounted
    rw [owed, hphase] at hold
    have hnone :
      (Dispatcher.Phase.claiming want : Dispatcher.Phase ClaimedJob).formed.flatten = [] := rfl
    rw [hnone, List.append_nil] at hold
    rw [hclaimed, owed, hformed, ← List.append_assoc]
    exact hold.append_right _
  · rw [hc, if_neg Bool.false_ne_true]
    exact h.early hc
  · have hl := h.late
    split
    · have h0 : w.late ≠ 1 := fun h1 => hl.2 h1 want hphase
      dsimp only
      omega
    · exact hl.1

theorem owed_perm_of_left (g' : RunGroup) {i : Nat} {g : RunGroup} {job : ClaimedJob}
    (hg : w.groups[i]? = some g) (hleft : g.left = job :: g'.left) :
    w.owed.Perm (job :: ({ w with groups := w.groups.set i g' } : QueueWorker B T).owed) := by
  obtain ⟨front, back, hgroups, hset, -⟩ := getElem?_split hg
  rw [owed, owed, hset, hgroups]
  simp only [List.flatMap_append, List.flatMap_cons, hleft, List.append_assoc, List.cons_append]
  exact List.perm_middle

theorem inFlight_set {i : Nat} {g g' : RunGroup} (h : w.Sound cancelled ledger)
    (hg : w.groups[i]? = some g) (hjobs : g'.jobs = g.jobs) :
    (w.groups.set i g').map RunGroup.jobs = w.loop.inFlight := by
  obtain ⟨front, back, hgroups, hset, -⟩ := getElem?_split hg
  rw [← h.inFlight, hset, hgroups, List.map_append, List.map_append, List.map_cons,
    List.map_cons, hjobs]

theorem effect (h : w.Sound cancelled ledger) (hfenced : ledger.Fenced)
    (he : Effect ops cancelled ledger w w' ledger') :
    w'.Sound cancelled ledger' := by
  cases he with
  | looked paused now loop hloop =>
      obtain ⟨hphase, hclaimed, hinFlight, hformed, hreturned⟩ := Dispatcher.look_spec hloop
      refine h.keep rfl (h.loop.step hloop) (h.inFlight.trans hinFlight.symm) hclaimed rfl rfl ?_
        rfl (fun hc want he => ?_)
      · rw [owed, owed, hformed, hphase]
        exact .refl _
      · rw [hreturned hc] at he
        cases he
  | woke seen loop hloop =>
      obtain ⟨⟨b, r, hphase⟩, rfl⟩ := Dispatcher.wake_spec hloop
      refine h.keep rfl (h.loop.step hloop) h.inFlight rfl rfl rfl ?_ rfl (fun _ want he => ?_)
      · rw [owed, owed, hphase]
        cases seen <;> exact .refl _
      · cases seen <;> cases he
  | claimFailed error loop hloop =>
      obtain ⟨⟨want, hphase⟩, rfl⟩ := Dispatcher.claim_error_spec hloop
      refine h.keep rfl (h.loop.step hloop) h.inFlight rfl rfl rfl ?_ rfl
        (fun _ want he => by cases he)
      rw [owed, owed, hphase]
      exact .refl _
  | claimed now want loop ledger' hphase hloop hledger => exact h.claim hfenced hphase hloop hledger
  | spawned cs loop hphase hloop =>
      obtain ⟨hclaimed, hinFlight, hcases⟩ := Dispatcher.dispatch_spec hphase hloop
      refine h.keep rfl (h.loop.step hloop) ?_ hclaimed rfl rfl ?_ rfl (fun _ want he => ?_)
      · rw [List.map_append, h.inFlight, hinFlight, List.map_map]
        exact congrArg _ (List.map_id' _)
      · rw [owed, owed, hphase]
        obtain ⟨rfl, hphase'⟩ | ⟨c, cs, rfl, hphase'⟩ := hcases
        · rw [hphase']
          simp [Dispatcher.Phase.formed]
        · rw [hphase']
          simp [Dispatcher.Phase.formed, RunGroup.start]
      · obtain ⟨rfl, hphase'⟩ | ⟨c, cs, rfl, hphase'⟩ := hcases
        · rw [hphase'] at he
          cases he
        · rw [hphase'] at he
          cases he
  | returned i g result hg hresult =>
      refine h.keep rfl h.loop (h.inFlight_set hg rfl) rfl rfl rfl ?_ rfl (fun _ want he => he)
      obtain ⟨front, back, hgroups, hset, -⟩ := getElem?_split hg
      rw [owed, owed, hset, hgroups]
      simp
  | lost i g job left hg hleft =>
      have howed := owed_perm_of_left { g with left } hg hleft
      refine ⟨h.loop, h.inFlight_set hg rfl, h.known, ?_, h.released, h.early, h.late⟩
      refine List.Perm.trans ?_ ((howed.symm.append_left (w.reported ++ w.lost)).trans h.accounted)
      dsimp only
      rw [List.append_assoc, List.append_assoc w.reported, List.cons_append]
      exact List.perm_middle.symm.append_left w.reported
  | reported i g result job left now delay ledger' hg hleft hledger =>
      have howed := owed_perm_of_left { g with left } hg hleft
      have hkept := h.ledger_step hfenced hledger
      refine ⟨h.loop, h.inFlight_set hg rfl, hkept.known, ?_, ?_, h.early, h.late⟩
      · exact List.perm_middle.symm.trans
          ((howed.symm.append_left (w.reported ++ w.lost)).trans h.accounted)
      · intro c hc
        rcases List.mem_cons.mp hc with rfl | hc
        · rw [Ledger.store_of_step hledger]
          exact c.settle_released _ _ _ _ _
        · exact hkept.released c hc
  | exited i g loop hg hresult hleft hloop =>
      obtain ⟨-, rfl⟩ := Dispatcher.finish_spec hloop
      obtain ⟨front, back, hgroups, -, herase⟩ := getElem?_split hg
      refine h.keep rfl (h.loop.step hloop) ?_ rfl rfl rfl ?_ rfl (fun _ want he => he)
      · dsimp only
        rw [← h.inFlight, List.eraseIdx_map]
      · rw [owed, owed, herase, hgroups]
        simp [hleft]

end Sound

def weight (w : QueueWorker B T) : Nat := w.loop.phase.weight + (w.groups.map RunGroup.weight).sum

theorem sum_chunks_le {jobs : List ClaimedJob} {want : Nat} (hle : jobs.length ≤ want)
    (cfg : QueueConfig) :
    ((chunks cfg.group jobs).map (fun c => c.length + 3)).sum ≤ 4 * want := by
  have hsum (cs : List (List ClaimedJob)) (hne : ∀ c ∈ cs, c ≠ []) :
    (cs.map (fun c => c.length + 3)).sum ≤ 4 * cs.flatten.length := by
    induction cs with
    | nil => exact Nat.zero_le _
    | cons c cs ih =>
        have hc := List.length_pos_iff.mpr (hne c List.mem_cons_self)
        have hrest := ih fun x hx => hne x (List.mem_cons_of_mem c hx)
        rw [List.map_cons, List.sum_cons, List.flatten_cons, List.length_append]
        omega
  have hchunks := hsum (chunks cfg.group jobs) fun c hc => (mem_chunks cfg.group_pos hc).1
  rw [flatten_chunks cfg.group_pos] at hchunks
  omega

/-- After the cancellation every act is a step towards the end. -/
theorem Effect.weight_lt (he : Effect ops true ledger w w' ledger') : w'.weight < w.weight := by
  cases he with
  | looked paused now loop hloop =>
      obtain ⟨hphase, -, -, -, hreturned⟩ := Dispatcher.look_spec hloop
      rw [weight, weight, hphase, hreturned rfl]
      exact Nat.add_lt_add_right Nat.zero_lt_one _
  | woke seen loop hloop =>
      obtain ⟨⟨b, r, hphase⟩, rfl⟩ := Dispatcher.wake_spec hloop
      rw [weight, weight, hphase]
      cases seen
      · exact Nat.add_lt_add_right Nat.one_lt_two _
      · exact Nat.add_lt_add_right Nat.zero_lt_two _
  | claimFailed error loop hloop =>
      obtain ⟨⟨want, hphase⟩, rfl⟩ := Dispatcher.claim_error_spec hloop
      simp only [weight, hphase, Dispatcher.Phase.weight]
      omega
  | claimed now want loop ledger' hphase hloop hledger =>
      obtain ⟨hle, -, -, hjobs⟩ := Dispatcher.claim_ok_spec hphase hloop
      have hsum := sum_chunks_le hle w.cfg
      obtain ⟨-, hp⟩ | hp := hjobs
      · simp only [weight, hphase, hp, Dispatcher.Phase.weight]
        omega
      · simp only [weight, hphase, hp, Dispatcher.Phase.weight]
        omega
  | spawned cs loop hphase hloop =>
      obtain ⟨-, -, ⟨rfl, hp⟩ | ⟨c, cs, rfl, hp⟩⟩ := Dispatcher.dispatch_spec hphase hloop
      · simp [weight, hphase, hp, Dispatcher.Phase.weight]
      · simp [weight, hphase, hp, Dispatcher.Phase.weight, RunGroup.start, RunGroup.weight]
        omega
  | returned i g result hg hresult =>
      obtain ⟨front, back, hgroups, hset, -⟩ := getElem?_split hg
      simp only [weight, hset]
      rw [hgroups]
      simp [RunGroup.weight, hresult]
  | lost i g job left hg hleft =>
      obtain ⟨front, back, hgroups, hset, -⟩ := getElem?_split hg
      simp only [weight, hset]
      rw [hgroups]
      simp [RunGroup.weight, hleft]
  | reported i g result job left now delay ledger' hg hleft hledger =>
      obtain ⟨front, back, hgroups, hset, -⟩ := getElem?_split hg
      simp only [weight, hset]
      rw [hgroups]
      simp [RunGroup.weight, hleft]
  | exited i g loop hg hresult hleft hloop =>
      obtain ⟨-, rfl⟩ := Dispatcher.finish_spec hloop
      obtain ⟨front, back, hgroups, -, herase⟩ := getElem?_split hg
      simp only [weight, herase]
      rw [hgroups]
      simp [RunGroup.weight]

theorem length_hands_le (w : QueueWorker B T) (want : Nat) (s : Store) (now : Time) :
    ((w.claimOp want).hands s now).length ≤ want := by
  have hsub : ((w.claimOp want).hands s now).map ClaimedJob.id ⊆ s.claimIds w.name want w.keyLimit
    w.fair now :=
    fun _ hid => Store.mem_claim_ids.mp hid
  have hle := (List.subperm_of_subset (StoreOp.hands_nodup (w.claimOp want) s now) hsub).length_le
  rw [List.length_map] at hle
  apply hle.trans
  simp only [Store.claimIds, List.length_map]
  exact List.length_take_le _ _

theorem isSome_dispatch {cs : List (List ClaimedJob)} (h : w.loop.Sound w.cfg)
    (hphase : w.loop.phase = .dispatching cs) :
    (w.loop.step ops w.cfg .dispatch).isSome := by
  have hfits := h.fits
  rw [hphase] at hfits
  rw [Dispatcher.step, hphase]
  dsimp only
  cases cs with
  | nil => rfl
  | cons c cs =>
      rw [Dispatcher.dispatch, if_neg (Nat.ne_of_gt (Nat.lt_of_lt_of_le (Nat.succ_pos _) hfits))]
      rfl

/-- Whatever a worker waits for, there is an act that goes on. -/
theorem Sound.exists_act (h : w.Sound cancelled ledger)
    (hopen : ¬ (w.loop.phase = .returned ∧ w.groups = [])) (now : T) :
    ∃ a : Act T, a.failing = false ∧ (w.act ops cancelled ledger a).isSome := by
  cases hphase : w.loop.phase with
  | looking =>
      refine ⟨.look false now, rfl, ?_⟩
      rw [act, advance, Dispatcher.step, hphase]
      cases cancelled <;> rfl
  | resting b r =>
      refine ⟨.wake false, rfl, ?_⟩
      rw [act, advance, Dispatcher.step, hphase]
      rfl
  | claiming want =>
      refine ⟨.claim 0, rfl, ?_⟩
      have hle := length_hands_le w want ledger.store 0
      rw [act, hphase]
      simp only [advance, Dispatcher.step, hphase]
      cases hjobs : (w.claimOp want).hands ledger.store 0 with
      | nil => rfl
      | cons job jobs =>
          rw [hjobs] at hle
          rw [Dispatcher.claim, if_pos hle]
          rfl
  | dispatching cs =>
      refine ⟨.spawn, rfl, ?_⟩
      have hdispatch : (w.loop.step ops w.cfg .dispatch).isSome := isSome_dispatch h.loop hphase
      obtain ⟨loop, hloop⟩ := Option.isSome_iff_exists.mp hdispatch
      rw [act, hphase]
      simp only [advance, hloop]
      rfl
  | returned =>
      obtain ⟨g, groups, hgroups⟩ := List.exists_cons_of_ne_nil fun hnil => hopen ⟨hphase, hnil⟩
      have hg : w.groups[0]? = some g := by rw [hgroups]; rfl
      cases hresult : g.result with
      | none =>
          refine ⟨.returns 0 (.ok ()), rfl, ?_⟩
          rw [act, hg, Option.bind_some, hresult]
          rfl
      | some result =>
          cases hleft : g.left with
          | nil =>
              refine ⟨.exit 0, rfl, ?_⟩
              have hlt : 0 < w.loop.inFlight.length := by
                rw [← h.inFlight, hgroups]
                exact Nat.succ_pos _
              rw [act, hg, Option.bind_some, hresult, hleft, if_pos ⟨rfl, rfl⟩, advance,
                Dispatcher.step, if_pos hlt]
              rfl
          | cons job left =>
              refine ⟨.report 0 0 0 false, rfl, ?_⟩
              rw [act, hg, Option.bind_some, hresult, hleft]
              rfl

end QueueWorker

/-- The workers of a runtime with the store that they share with others, and the token of `stop`. -/
structure CoreRuntime (B T : Type) where
  ledger : Ledger
  cancelled : Bool
  workers : List (QueueWorker B T)

namespace CoreRuntime

variable {B T : Type}

/-- What happens in a runtime, or beside it: other clients of the store, the sweepers and the
renewals of leases. -/
inductive Event (T : Type)
  | other (now : Time) (op : StoreOp)
  | stop
  | act (i : Nat) (a : QueueWorker.Act T)

def step (ops : Bucket B T) (σ : CoreRuntime B T) : Event T → Option (CoreRuntime B T)
  | .other now op => (σ.ledger.step (now, op)).map fun ledger => { σ with ledger }
  | .stop => some { σ with cancelled := true }
  | .act i a => σ.workers[i]?.bind fun w =>
    (w.act ops σ.cancelled σ.ledger a).map fun x =>
      { σ with ledger := x.2, workers := σ.workers.set i x.1 }

/-- `tracker.wait()` returns: every dispatcher has, and no group is left. -/
def Drained (σ : CoreRuntime B T) : Prop :=
  ∀ w ∈ σ.workers, w.loop.phase = .returned ∧ w.groups = []

variable {ops : Bucket B T} {σ σ' : CoreRuntime B T} {e : Event T}

structure Sound (σ : CoreRuntime B T) : Prop where
  fresh : σ.ledger.store.Fresh
  fenced : σ.ledger.Fenced
  workers : ∀ w ∈ σ.workers, w.Sound σ.cancelled σ.ledger

theorem step_sound (h : σ.Sound) (hs : σ.step ops e = some σ') : σ'.Sound := by
  have hledger {ledger : Ledger} {l : Time × StoreOp} (hl : σ.ledger.step l = some ledger) :
    ledger.store.Fresh ∧ ledger.Fenced := by
    obtain ⟨now, op⟩ := l
    refine ⟨?_, h.fenced.step h.fresh hl⟩
    rw [Ledger.store_of_step hl]
    exact op.fresh h.fresh
  cases e with
  | other now op =>
      rw [step] at hs
      obtain ⟨ledger, hl, rfl⟩ := Option.map_eq_some_iff.mp hs
      exact ⟨(hledger hl).1, (hledger hl).2, fun w hw => (h.workers w hw).ledger_step h.fenced hl⟩
  | stop =>
      cases hs
      refine ⟨h.fresh, h.fenced, fun w hw => ?_⟩
      obtain ⟨hloop, hinFlight, hknown, haccounted, hreleased, hearly, hlate⟩ := h.workers w hw
      exact ⟨hloop, hinFlight, hknown, haccounted, hreleased, nofun, hlate⟩
  | act i a =>
      rw [step] at hs
      obtain ⟨w, hw, hs⟩ := Option.bind_eq_some_iff.mp hs
      obtain ⟨⟨w', ledger'⟩, hact, rfl⟩ := Option.map_eq_some_iff.mp hs
      have hmem := List.mem_of_getElem? hw
      have heffect := QueueWorker.act_effect hact
      have hw' := (h.workers w hmem).effect h.fenced heffect
      have hall : ∀ v ∈ σ.workers, v.Sound σ.cancelled ledger' := by
        intro v hv
        rcases heffect.stored with rfl | ⟨l, hl⟩
        · exact h.workers v hv
        · exact (h.workers v hv).ledger_step h.fenced hl
      have hboth : ledger'.store.Fresh ∧ ledger'.Fenced := by
        rcases heffect.stored with rfl | ⟨l, hl⟩
        · exact ⟨h.fresh, h.fenced⟩
        · exact hledger hl
      refine ⟨hboth.1, hboth.2, fun v hv => ?_⟩
      rcases List.mem_or_eq_of_mem_set hv with hv | rfl
      · exact hall v hv
      · exact hw'

structure Fresh (σ : CoreRuntime B T) : Prop where
  running : σ.cancelled = false
  workers : ∀ w ∈ σ.workers, ∃ bucket, w = .init w.name w.cfg w.leaseMs w.keyLimit w.fair bucket

theorem sound_of_fresh {s : Store} (hs : s.Fresh) (hσ : σ.ledger = .init s) (h : σ.Fresh) :
    σ.Sound := by
  refine ⟨?_, ?_, fun w hw => ?_⟩
  · rw [hσ]
    exact hs
  · rw [hσ]
    exact .init s
  · obtain ⟨bucket, hb⟩ := h.workers w hw
    rw [hb]
    exact ⟨Dispatcher.sound_init bucket, rfl, nofun, .refl _, nofun, fun _ => rfl,
      Nat.zero_le _, nofun⟩

/-- When `stop` has drained the runtime, every job that one of its dispatchers has ever claimed was
reported exactly once, no row is still at work under such a claim unless the store refused its
report, and after the cancellation each dispatcher ended the claim that was under way and started no
other. -/
theorem drained_clean {s : Store} {σ₀ : CoreRuntime B T} (hs : s.Fresh) (hσ : σ₀.ledger = .init s)
    (h₀ : σ₀.Fresh)
    (h : Run (step ops) (fun _ _ => true) σ₀ σ) (hdrained : σ.Drained) :
    ∀ w ∈ σ.workers, (w.reported ++ w.lost).Perm w.loop.claimed ∧
      (∀ c ∈ w.loop.claimed, σ.ledger.store.Released c ∨ c ∈ w.lost) ∧ w.late ≤ 1 := by
  have hsound : σ.Sound :=
    h.invariant Sound (sound_of_fresh hs hσ h₀) (fun _ _ _ _ hI _ hstep => step_sound hI hstep)
  intro w hw
  obtain ⟨hphase, hgroups⟩ := hdrained w hw
  have hw := hsound.workers w hw
  have howed : w.owed = [] := by
    rw [QueueWorker.owed, hgroups, hphase]
    rfl
  have haccounted := hw.accounted
  rw [howed, List.append_nil] at haccounted
  refine ⟨haccounted, fun c hc => ?_, hw.late.1⟩
  rcases List.mem_append.mp (haccounted.symm.subset hc) with hc | hc
  · exact .inl (hw.released c hc)
  · exact .inr hc

def Event.own : Event T → Bool
  | .act _ _ => true
  | _ => false

def weight (σ : CoreRuntime B T) : Nat := (σ.workers.map QueueWorker.weight).sum

theorem weight_of_step (hc : σ.cancelled = true) (hs : σ.step ops e = some σ') :
    σ'.cancelled = true ∧ (if e.own then 1 else 0) + σ'.weight ≤ σ.weight := by
  cases e with
  | other now op =>
      rw [step] at hs
      obtain ⟨ledger, -, rfl⟩ := Option.map_eq_some_iff.mp hs
      exact ⟨hc, Nat.le_of_eq (Nat.zero_add _)⟩
  | stop =>
      cases hs
      exact ⟨rfl, Nat.le_of_eq (Nat.zero_add _)⟩
  | act i a =>
      rw [step] at hs
      obtain ⟨w, hw, hs⟩ := Option.bind_eq_some_iff.mp hs
      obtain ⟨⟨w', ledger'⟩, hact, rfl⟩ := Option.map_eq_some_iff.mp hs
      rw [hc] at hact
      have hlt := (QueueWorker.act_effect hact).weight_lt
      refine ⟨hc, ?_⟩
      obtain ⟨front, back, hworkers, hset, -⟩ := getElem?_split hw
      rw [weight, weight, hset, hworkers]
      simp only [List.map_append, List.map_cons, List.sum_append, List.sum_cons, Event.own, if_true]
      omega

section Sample

def idle : CoreRuntime Unit Unit :=
  ⟨.init .empty, false, [.init "zenzip.workflow.order" ⟨1, 1, 1⟩ 60000 none false none]⟩

theorem idle_fresh : idle.Fresh where
  running := rfl
  workers w hw := by
    rw [idle, List.mem_singleton] at hw
    rw [hw]
    exact ⟨none, rfl⟩

def claimThenStop : List (Event Unit) :=
  [.other 0 (.call (.push [workflowExecutionJob "order" 7 0]) []), .act 0 (.look false ()), .stop,
    .act 0 (.claim 1), .act 0 .spawn]

theorem drained_clean_sample : ∃ σ : CoreRuntime Unit Unit,
    Run (step Dispatcher.unlimited) (fun _ _ => true) idle σ ∧
    σ.Drained ∧ ∀ w ∈ σ.workers, w.loop.claimed.length = 1 ∧
    (w.reported ++ w.lost).Perm w.loop.claimed ∧
      (∀ c ∈ w.loop.claimed, σ.ledger.store.Released c ∨ c ∈ w.lost) ∧ w.late ≤ 1 := by
  obtain ⟨σ, h, hp⟩ := Run.exists_of_replay (step Dispatcher.unlimited) (fun _ _ => true) idle
    (claimThenStop ++ [.act 0 .spawn, .act 0 (.look false ()), .act 0 (.returns 0 (.ok ())),
      .act 0 (.report 0 2 0 false), .act 0 (.exit 0)])
    (fun σ => σ.workers.all
      (fun w => w.loop.phase.weight = 0 && w.groups.length = 0 && w.loop.claimed.length = 1))
        (by decide +kernel)
  have hall (w) (hw : w ∈ σ.workers) : w.loop.phase.weight = 0 ∧ w.groups.length = 0 ∧
    w.loop.claimed.length = 1 := by
    simpa [and_assoc] using List.all_eq_true.mp hp w hw
  have hdrained : σ.Drained := by
    intro w hw
    obtain ⟨hweight, hgroups, -⟩ := hall w hw
    refine ⟨?_, List.length_eq_zero_iff.mp hgroups⟩
    cases hphase : w.loop.phase with
    | returned => rfl
    | _ => simp [hphase, Dispatcher.Phase.weight] at hweight
  exact ⟨σ, h, hdrained, fun w hw =>
    ⟨(hall w hw).2.2, drained_clean .empty rfl idle_fresh h hdrained w hw⟩⟩

end Sample

/-- The drain ends. After the cancellation the runtime's own tasks can take no more steps than its
weight, whatever others do in between; and as long as it is not drained one of them can go on,
without the store refusing anything. -/
theorem drain_ends [Inhabited T] {s : Store} {σ₀ : CoreRuntime B T} (hs : s.Fresh)
    (hσ : σ₀.ledger = .init s) (h₀ : σ₀.Fresh)
    (h : Run (step ops) (fun _ _ => true) σ₀ σ) (hc : σ.cancelled = true) :
    (∀ es σ', replay (step ops) (fun _ _ => true) σ es = some σ' →
    (es.filter Event.own).length + σ'.weight ≤ σ.weight) ∧
    (¬ σ.Drained → ∃ i a, QueueWorker.Act.failing a = false ∧ (σ.step ops (.act i a)).isSome) := by
  have hsound : σ.Sound :=
    h.invariant Sound (sound_of_fresh hs hσ h₀) (fun _ _ _ _ hI _ hstep => step_sound hI hstep)
  constructor
  · intro es
    clear h hsound
    induction es generalizing σ with
    | nil =>
        intro σ' hr
        cases hr
        exact Nat.le_of_eq (Nat.zero_add _)
    | cons e es ih =>
        intro σ' hr
        rw [replay, if_pos rfl] at hr
        obtain ⟨τ, hτ, hr⟩ := Option.bind_eq_some_iff.mp hr
        obtain ⟨hc', hle⟩ := weight_of_step hc hτ
        have hrest := ih hc' σ' hr
        cases ho : e.own with
        | true =>
            rw [ho, if_pos rfl] at hle
            rw [List.filter_cons_of_pos ho, List.length_cons]
            omega
        | false =>
            rw [ho, if_neg Bool.false_ne_true] at hle
            rw [List.filter_cons_of_neg (by simp [ho])]
            omega
  · intro hnot
    simp only [Drained, not_forall] at hnot
    obtain ⟨w, hw, hopen⟩ := hnot
    obtain ⟨a, hfailing, ha⟩ : ∃ a : QueueWorker.Act T, a.failing = false ∧
      (w.act ops _ _ a).isSome :=
      (hsound.workers w hw).exists_act hopen default
    obtain ⟨i, hi⟩ := List.mem_iff_getElem?.mp hw
    refine ⟨i, a, hfailing, ?_⟩
    rw [step, hi, Option.bind_some, Option.isSome_map]
    exact ha

theorem drain_ends_sample : ∃ σ : CoreRuntime Unit Unit,
    Run (step Dispatcher.unlimited) (fun _ _ => true) idle σ ∧ σ.weight = 5 ∧
    (∀ es σ', replay (step Dispatcher.unlimited) (fun _ _ => true) σ es = some σ' →
    (es.filter Event.own).length + σ'.weight ≤ 5) ∧
    (¬ σ.Drained → ∃ i a, QueueWorker.Act.failing a = false ∧
    (σ.step Dispatcher.unlimited (.act i a)).isSome) := by
  obtain ⟨σ, h, hp⟩ :=
    Run.exists_of_replay (step Dispatcher.unlimited) (fun _ _ => true) idle claimThenStop
    (fun σ => σ.cancelled && σ.weight = 5) (by decide +kernel)
  obtain ⟨hc, hweight⟩ := Bool.and_eq_true_iff.mp hp
  have hweight : σ.weight = 5 := of_decide_eq_true hweight
  obtain ⟨hends, hgoes⟩ := drain_ends .empty rfl idle_fresh h hc
  rw [hweight] at hends
  exact ⟨σ, h, hweight, hends, hgoes⟩

end CoreRuntime

end ZenZip
