import ZenZip.System
import ZenZip.Engine.Effects

namespace ZenZip

open Lib

inductive Aside (clock : Time) : (op : Op) → Choice → Except String (Val op) → Prop
  | failed (c e) : Aside clock (.store c) (.fail e) (.error e)
  | clock (locked) : Aside clock .nowMs (.ok locked) (.ok clock)
  | draw (hi n) (h : 0 ≤ n ∧ n ≤ hi) : Aside clock (.fastrand hi) (.draw n) (.ok n)
  | outcome (req o) : Aside clock (.executor req) (.outcome o) o

theorem State.exec_cases {s s' : State} {ch : Choice} {op : Op} {r : Except String (Val op)}
    (h : s.exec ch op = some (s', r)) :
    (∃ c locked, ch = .ok locked ∧ ∃ he : op = .store c, s' =
        ⟨(c.perform s.store s.clock locked).1, s.clock, State.parks s.parkedOn c⟩ ∧
        he ▸ r = .ok (c.perform s.store s.clock locked).2) ∨
      s' = s ∧ Aside s.clock op ch r := by
  cases op with
  | store c =>
      cases ch with
      | ok locked =>
          cases h
          exact .inl ⟨c, locked, rfl, rfl, rfl, rfl⟩
      | fail e =>
          cases h
          exact .inr ⟨rfl, .failed c e⟩
      | outcome | draw => cases h
  | nowMs =>
      cases ch with
      | ok locked =>
          cases h
          exact .inr ⟨rfl, .clock locked⟩
      | fail | outcome | draw => cases h
  | fastrand hi =>
      cases ch with
      | draw n =>
          simp only [exec] at h
          split at h
          · next hn =>
              cases h
              exact .inr ⟨rfl, .draw hi n hn⟩
          · cases h
      | ok | fail | outcome => cases h
  | executor req =>
      cases ch with
      | outcome o =>
          cases h
          exact .inr ⟨rfl, .outcome req _⟩
      | ok | fail | draw => cases h

namespace Sys

def stored (σ : Sys) (i : Nat) (t : Worker) (c : Call) (k : Except String c.Ret → M Reply)
    (locked : List RunId) : Sys :=
  ⟨⟨(c.perform σ.store σ.clock locked).1, σ.clock, State.parks σ.shared.parkedOn c⟩,
    σ.pool.set i (t.answer (.store c) (.ok (c.perform σ.store σ.clock locked).2)
      (k (.ok (c.perform σ.store σ.clock locked).2)))⟩

def answered (σ : Sys) (i : Nat) (t : Worker) (op : Op) (k : Except String (Val op) → M Reply)
    (r : Except String (Val op)) : Sys := ⟨σ.shared, σ.pool.set i (t.answer op r (k r))⟩

/-- Everything a step can do. -/
inductive Move (E : WorkflowEngine) (σ : Sys) : Label → Sys → Prop
  | ticked (d : Nat) : Move E σ (.tick d)
    { σ with shared := { σ.shared with clock := σ.clock + d } }
  | spawned (task : Task) (h : task.admissible = true) :
      Move E σ (.spawn task) (Config.spawn σ [taskThread E task])
  | claimed (workflow limit cfg) (h : E.config workflow = some cfg) :
      Move E σ (.claim workflow limit)
        ((σ.withStore (σ.claimOf workflow limit cfg).1).spawn
          ((σ.claimOf workflow limit cfg).2.map (workerThread E workflow)))
  | stored (i t c k locked) (ht : σ.pool[i]? = some t) (hp : t.prog = .call (.store c) k) :
      Move E σ (.call i (.ok locked)) (σ.stored i t c k locked)
  | answered (i t op k ch r) (ht : σ.pool[i]? = some t) (hp : t.prog = .call op k)
    (hr : Aside σ.clock op ch r) :
      Move E σ (.call i ch) (σ.answered i t op k r)
  | crashed (i t) (ht : σ.pool[i]? = some t) (hl : t.live = true) :
      Move E σ (.crash i) { σ with pool := σ.pool.set i t.crash }
  | renewed (i t workflow job leaseMs) (ht : σ.pool[i]? = some t)
    (hk : t.kind = .worker workflow job)
      (hl : t.live = true) :
      Move E σ (.renew i) (σ.withStore (σ.store.renewLeases [(job.id, job.fence)] leaseMs σ.clock))
  | recorded (i t runId stepId result) (ht : σ.pool[i]? = some t) (hk : t.kind.run? = some runId)
      (hc : ZenZip.crashed t = false) :
      Move E σ (.record i stepId result)
        (σ.withStore (σ.store.recordStep runId stepId .run result σ.clock))

theorem step_move {E : WorkflowEngine} {σ σ' : Sys} {l : Label} (h : step E σ l = some σ') :
    Move E σ l σ' := by
  cases l with
  | tick d =>
      cases h
      exact .ticked d
  | spawn task =>
      simp only [step] at h
      split at h
      · next ha =>
          cases h
          exact .spawned task ha
      · cases h
  | claim workflow limit =>
      obtain ⟨cfg, hcfg, rfl⟩ := Option.map_eq_some_iff.mp h
      exact .claimed workflow limit cfg hcfg
  | call i ch =>
      obtain ⟨t, op, k, s, r, ht, hp, he, rfl⟩ := Config.call_eq_some h
      obtain ⟨c, locked, rfl, rfl, rfl, hr⟩ | ⟨rfl, ha⟩ := State.exec_cases he
      · cases hr
        exact .stored i t c k locked ht hp
      · exact .answered i t op k ch r ht hp ha
  | crash i =>
      obtain ⟨t, ht, hl, rfl⟩ := Config.crash_eq_some h
      exact .crashed i t ht hl
  | renew i =>
      simp only [step, renew] at h
      split at h
      · next t ht =>
          split at h
          · next workflow job hk hl =>
              cases h
              exact .renewed i t workflow job _ ht hk hl
          · cases h
      · cases h
  | record i stepId result =>
      simp only [step, record] at h
      split at h
      · next t ht =>
          split at h
          · next runId hk hc =>
              cases h
              exact .recorded i t runId stepId result ht hk hc
          · cases h
      · cases h

theorem Move.eq_stored {E : WorkflowEngine} {σ σ' : Sys} {i : Nat} {locked : List RunId}
    {t : Worker} {c : Call}
    {k : Except String c.Ret → M Reply} (h : Move E σ (.call i (.ok locked)) σ')
    (ht : σ.pool[i]? = some t)
    (hp : t.prog = .call (.store c) k) : σ' = σ.stored i t c k locked := by
  cases h with
  | stored _ t₁ c₁ k₁ _ ht₁ hp₁ =>
      obtain rfl : t₁ = t := Option.some.inj (ht₁.symm.trans ht)
      rw [hp] at hp₁
      cases hp₁
      rfl
  | answered _ t₁ op k₁ _ r ht₁ hp₁ hr =>
      obtain rfl : t₁ = t := Option.some.inj (ht₁.symm.trans ht)
      rw [hp] at hp₁
      cases hp₁
      cases hr

theorem Move.eq_claimed {E : WorkflowEngine} {σ σ' : Sys} {workflow : String} {limit : Nat}
    {cfg : WorkflowConfig}
    (h : Move E σ (.claim workflow limit) σ') (hcfg : E.config workflow = some cfg) :
    σ' = (σ.withStore (σ.claimOf workflow limit cfg).1).spawn
      ((σ.claimOf workflow limit cfg).2.map (workerThread E workflow)) := by
  cases h with
  | claimed _ _ cfg' hcfg' =>
      obtain rfl : cfg' = cfg := Option.some.inj (hcfg'.symm.trans hcfg)
      rfl

inductive ThreadMove (E : WorkflowEngine) (σ : Sys) (j : Nat) (u : Worker) : Label → Prop
  | stays (l) (h : σ.pool[j]? = some u) (hcall : ∀ ch, l ≠ .call j ch) (hcrash : l ≠ .crash j) :
  ThreadMove E σ j u l
  | spawned (task) (ha : task.admissible = true) (hu : u = taskThread E task)
    (hj : j = σ.pool.length) :
      ThreadMove E σ j u (.spawn task)
  | claimed (workflow limit cfg cj) (hcfg : E.config workflow = some cfg) (hj : σ.pool.length ≤ j)
      (hcj : (σ.claimOf workflow limit cfg).2[j - σ.pool.length]? = some cj)
        (hu : u = workerThread E workflow cj) :
      ThreadMove E σ j u (.claim workflow limit)
  | stored (t c k locked) (ht : σ.pool[j]? = some t) (hp : t.prog = .call (.store c) k)
      (hu : u = t.answer (.store c) (.ok (c.perform σ.store σ.clock locked).2)
        (k (.ok (c.perform σ.store σ.clock locked).2))) : ThreadMove E σ j u (.call j (.ok locked))
  | answered (t op k ch r) (ht : σ.pool[j]? = some t) (hp : t.prog = .call op k)
    (hr : Aside σ.clock op ch r)
      (hu : u = t.answer op r (k r)) : ThreadMove E σ j u (.call j ch)
  | crashed (t) (ht : σ.pool[j]? = some t) (hl : t.live = true) (hu : u = t.crash) : ThreadMove E σ
    j u (.crash j)

theorem Move.thread {E : WorkflowEngine} {σ σ' : Sys} {l : Label} (h : Move E σ l σ') {j : Nat}
    {u : Worker}
    (hu : σ'.pool[j]? = some u) : ThreadMove E σ j u l := by
  cases h with
  | ticked | renewed | recorded => exact .stays _ hu (fun _ => nofun) nofun
  | spawned task ha =>
      obtain hlt | hge := Nat.lt_or_ge j σ.pool.length
      · exact .stays _ (by rwa [Config.spawn, List.getElem?_append_left hlt] at hu)
          (fun _ => nofun) nofun
      · rw [Config.spawn, List.getElem?_append_right hge, List.getElem?_singleton] at hu
        split at hu
        · next he =>
            cases hu
            exact .spawned task ha rfl (by omega)
        · cases hu
  | claimed workflow limit cfg hcfg =>
      obtain hlt | hge := Nat.lt_or_ge j σ.pool.length
      · refine .stays _ ?_ (fun _ => nofun) nofun
        have hu' : (σ.pool ++ (σ.claimOf workflow limit cfg).2.map (workerThread E workflow))[j]? =
          some u := hu
        rwa [List.getElem?_append_left hlt] at hu'
      · have hu' : (σ.pool ++ (σ.claimOf workflow limit cfg).2.map (workerThread E workflow))[j]? =
          some u := hu
        rw [List.getElem?_append_right hge, List.getElem?_map] at hu'
        obtain ⟨cj, hcj, rfl⟩ := Option.map_eq_some_iff.mp hu'
        exact .claimed workflow limit cfg cj hcfg hge hcj rfl
  | stored i t c k locked ht hp =>
      obtain ⟨rfl, rfl⟩ | ⟨hne, hj⟩ := getElem?_set_cases hu (lt_of_getElem? ht)
      · exact .stored t c k locked ht hp rfl
      · exact .stays _ hj (fun _ h => hne (by cases h; rfl)) nofun
  | answered i t op k ch r ht hp hr =>
      obtain ⟨rfl, rfl⟩ | ⟨hne, hj⟩ := getElem?_set_cases hu (lt_of_getElem? ht)
      · exact .answered t op k ch r ht hp hr rfl
      · exact .stays _ hj (fun _ h => hne (by cases h; rfl)) nofun
  | crashed i t ht hl =>
      obtain ⟨rfl, rfl⟩ | ⟨hne, hj⟩ := getElem?_set_cases hu (lt_of_getElem? ht)
      · exact .crashed t ht hl rfl
      · exact .stays _ hj (fun _ => nofun) (fun h => hne (by cases h; rfl))

end Sys

end ZenZip
