import ZenZip.Lib.Reserve
import ZenZip.Queue.Bulk

namespace ZenZip

open Lib

namespace Queue

def waits (queue : String) (j : JobRow) : Bool := j.queue = queue && j.status = .pending

def arrivals (queue : String) (s s' : Store) : Nat :=
  ((s'.jobs.select (waits queue)).filter (fun j => !(s.jobs.get? j.id).any (waits queue))).length

section Count

variable {queue : String} {s s' : Store}

theorem pendingCount_le_arrivals :
    s'.pendingCount queue ≤ s.pendingCount queue + arrivals queue s s' := by
  let old (j : JobRow) : Bool := (s.jobs.get? j.id).any (waits queue)
  have hsub : ((s'.jobs.select (waits queue)).filter old).map (·.id) ⊆
    (s.jobs.select (waits queue)).map (·.id) := by
    intro id hid
    obtain ⟨j, hj, rfl⟩ := List.mem_map.mp hid
    obtain ⟨i, hi, hw⟩ := (Option.any_eq_true _ _).mp (List.mem_filter.mp hj).2
    have hkey : i.id = j.id := Table.key_of_get? hi
    rw [← hkey]
    exact List.mem_map_of_mem (Table.mem_select.mpr ⟨Table.mem_of_get? hi, hw⟩)
  have hnodup : (((s'.jobs.select (waits queue)).filter old).map (·.id)).Nodup :=
    s'.jobs.nodup.sublist ((List.filter_sublist.trans List.filter_sublist).map JobRow.id)
  have hle := (hnodup.subperm hsub).length_le
  rw [List.length_map, List.length_map] at hle
  have hsplit := List.length_eq_length_filter_add (l := s'.jobs.select (waits queue)) old
  calc s'.pendingCount queue
      = ((s'.jobs.select (waits queue)).filter old).length + arrivals queue s s' := hsplit
    _ ≤ s.pendingCount queue + arrivals queue s s' := Nat.add_le_add_right hle _

theorem pendingCount_insertJobRow (s : Store) (job : PushJob) (now : Time) (queue : String) :
    (s.insertJobRow job now).1.pendingCount queue ≤ s.pendingCount queue + 1 := by
  have hrows : (s.insertJobRow job now).1.jobs.rows.Sublist
      (s.jobs.rows ++ [Store.newJobRow job s.nextId (s.availableAt job now) now]) := by
    dsimp only [Store.insertJobRow]
    rw [Table.insert]
    split
    · exact List.filter_sublist.trans (List.sublist_append_left _ _)
    · exact List.filter_sublist.append_right _
  have hle := (hrows.filter (waits queue)).length_le
  rw [List.filter_append, List.length_append] at hle
  exact hle.trans (Nat.add_le_add_left (List.length_filter_le _ _) _)

theorem pendingCount_push (s : Store) (jobs : List PushJob) (now : Time) (queue : String) :
    (s.push jobs now).1.pendingCount queue ≤ s.pendingCount queue + jobs.length := by
  induction jobs generalizing s with
  | nil => exact Nat.le_refl _
  | cons job jobs ih =>
      have hrest := ih (s.insertJobRow job now).1
      have hfirst := pendingCount_insertJobRow s job now queue
      rw [List.length_cons]
      calc (s.push (job :: jobs) now).1.pendingCount queue
          ≤ (s.insertJobRow job now).1.pendingCount queue + jobs.length := hrest
        _ ≤ s.pendingCount queue + (jobs.length + 1) := by omega

end Count

variable {D : Type} (q : Queue D)

/-- What a producer knows is the number of pending jobs that it has been shown since its last push.
-/
def gate : Discipline QueueOp.Val (Option Nat) where
  next _ op r := match op, r with
    | .pendingCount _, .ok n => some n
    | _, _ => none
  allowed g op := match op with
    | .pendingCount queue => queue = q.name
    | .pushBulk queue payloads _ => queue = q.name ∧
      ∀ limit, q.maxPending = some limit → ∃ n, g = some n ∧ (n + payloads.length : Nat) ≤ limit
  answers _ _ := True

section Gate

variable {q} {g : Option Nat} {options : PushOptions}

def Admitted (q : Queue D) (incoming : Nat) (g : Option Nat) : Prop :=
  ∀ limit, q.maxPending = some limit → ∃ n, g = some n ∧ (n + incoming : Nat) ≤ limit

theorem gate_nativePendingCount {queue : String} {Q : Option Nat → Except String Nat → Prop} :
    q.gate.wp (nativePendingCount queue) Q g ↔ queue = q.name ∧ ∀ r : Except String Nat, True →
      Q (q.gate.next g (.pendingCount queue) r) r := q.gate.wp_op (.pendingCount queue) Q g

theorem gate_nativePushBulk {queue : String} {payloads : List (Option Json)} {opts : JsPushOptions}
    {Q : Option Nat → Except String (List JobId) → Prop} :
    q.gate.wp (nativePushBulk queue payloads opts) Q g ↔
      (queue = q.name ∧ Admitted q payloads.length g) ∧ ∀ r : Except String (List JobId), True →
        Q (q.gate.next g (.pushBulk queue payloads opts) r) r :=
  q.gate.wp_op (.pushBulk queue payloads opts) Q g

theorem gate_admitIncoming (incoming : Nat) :
    q.gate.wp (q.admitIncoming incoming) (fun g r => r = .ok () → Admitted q incoming g) g := by
  unfold admitIncoming
  split
  · next hmax =>
      intro _ limit hlimit
      rw [hmax] at hlimit
      cases hlimit
  · next limit hmax =>
      rw [Discipline.wp_bind, gate_nativePendingCount]
      refine ⟨rfl, fun r _ => ?_⟩
      cases r with
      | error e => exact fun he => by cases he
      | ok pending =>
          rw [Discipline.seq_ok]
          split
          · exact fun he => by cases he
          · next hroom =>
              intro _ limit' hlimit
              rw [hmax] at hlimit
              cases hlimit
              exact ⟨pending, rfl, not_lt.mp hroom⟩

theorem gate_push (data : Option D) : q.gate.wp (q.push data options) (fun _ _ => True) g := by
  rw [Queue.push, Discipline.wp_bind, Discipline.wp_ofExcept]
  cases q.validate data with
  | error e => trivial
  | ok payload =>
      rw [Discipline.seq_ok, Discipline.wp_bind]
      refine Discipline.wp_mono _ (gate_admitIncoming 1) fun g r hr => ?_
      cases r with
      | error e => trivial
      | ok u =>
          have hadmitted := hr rfl
          rw [Discipline.seq_ok, Discipline.wp_bind, Discipline.wp_ofExcept]
          cases q.pushOptions options data with
          | error e => trivial
          | ok opts =>
              rw [Discipline.seq_ok, Discipline.wp_bind, gate_nativePushBulk]
              refine ⟨⟨rfl, hadmitted⟩, fun r _ => ?_⟩
              cases r with
              | error e => trivial
              | ok ids =>
                  rw [Discipline.seq_ok, Discipline.wp_ofExcept]
                  trivial

theorem gate_pushEach (items : List (Option D)) :
    q.gate.wp (q.pushEach options items) (fun _ _ => True) g := by
  induction items generalizing g with
  | nil => trivial
  | cons d items ih =>
      rw [pushEach, Discipline.wp_bind]
      refine Discipline.wp_mono _ (gate_push d) fun g r _ => ?_
      cases r with
      | error e => trivial
      | ok id =>
          rw [Discipline.seq_ok, Discipline.wp_bind]
          refine Discipline.wp_mono _ ih fun g r _ => ?_
          cases r <;> trivial

theorem gate_pushBulk (items : List (Option D)) :
    q.gate.wp (q.pushBulk items options) (fun _ _ => True) g := by
  unfold pushBulk
  split
  · exact gate_pushEach items
  · rw [Discipline.wp_bind, Discipline.wp_ofExcept]
    cases items.mapM q.validate with
    | error e => trivial
    | ok payloads =>
        rw [Discipline.seq_ok, Discipline.wp_bind]
        refine Discipline.wp_mono _ (gate_admitIncoming payloads.length) fun g r hr => ?_
        cases r with
        | error e => trivial
        | ok u =>
            have hadmitted := hr rfl
            rw [Discipline.seq_ok, Discipline.wp_bind, Discipline.wp_ofExcept]
            cases q.pushOptions options none with
            | error e => trivial
            | ok opts =>
                rw [Discipline.seq_ok, gate_nativePushBulk]
                exact ⟨⟨rfl, hadmitted⟩, fun _ _ => trivial⟩

end Gate

abbrev Producer := Thread QueueOp.Val Unit (List JobId)

/-- The producers of a queue beside everything else that happens to the store, and the jobs that
this has brought in. -/
structure Intake where
  config : Config Store QueueOp.Val Unit (List JobId)
  returned : Nat

namespace Intake

inductive Label (D : Type)
  | other (s : Store)
  | push (data : Option D) (options : PushOptions)
  | pushBulk (items : List (Option D)) (options : PushOptions)
  | call (i : Nat) (now : Time) (fails : Option String)

def init (s : Store) : Intake := ⟨⟨s, []⟩, 0⟩

/-- A call fails, or is carried out. -/
def exec (s : Store) (ch : Time × Option String) (op : QueueOp) :
    Config.Answer Store QueueOp.Val op :=
  match ch.2 with
  | some e => some (s, .error e)
  | none => some (op.exec s ch.1)

def single (q : Queue D) (data : Option D) (options : PushOptions) : QueueM (List JobId) := do
  let id ← q.push data options
  return [id]

def step (q : Queue D) (σ : Intake) : Label D → Option Intake
  | .other s => some ⟨{ σ.config with shared := s }, σ.returned + arrivals q.name σ.config.shared s⟩
  | .push data options => some { σ with config := σ.config.spawn [⟨(), [], single q data options⟩] }
  | .pushBulk items options =>
      some { σ with config := σ.config.spawn [⟨(), [], q.pushBulk items options⟩] }
  | .call i now fails => (σ.config.call exec i (now, fails)).map (fun config => { σ with config })

def incoming (t : Producer) : Nat :=
  match t.prog with
  | .call (.pushBulk _ payloads _) _ => payloads.length
  | _ => 0

/-- At every look at the queue the others are about to push no more than `crowd` jobs. -/
def uncrowded (crowd : Nat) (σ : Intake) : Label D → Bool
  | .call i _ _ => match σ.config.pool[i]? with
    | some t => match t.prog with
      | .call (.pendingCount _) _ => ((σ.config.pool.eraseIdx i).map incoming).sum ≤ crowd
      | _ => true
    | none => true
  | _ => true

def abs (q : Queue D) (σ : Intake) : Reserve.State :=
  ⟨σ.config.shared.pendingCount q.name, σ.config.pool.map incoming, σ.returned⟩

section Step

variable {q : Queue D} {limit : Int} {crowd : Nat} {σ σ' : Intake} {l : Label D} {t : Producer}

def Gated (q : Queue D) (t : Producer) : Prop := q.gate.Obeys (fun _ => none) (fun _ _ _ => True) t

theorem gated_single (data : Option D) (options : PushOptions) :
    Gated q ⟨(), [], single q data options⟩ := by
  show q.gate.wp (single q data options) (fun _ _ => True) none
  rw [single, Discipline.wp_bind]
  refine Discipline.wp_mono _ (gate_push data) fun g r _ => ?_
  cases r <;> trivial

theorem incoming_le (hmax : q.maxPending = some limit) (ht : Gated q t) :
    incoming t = 0 ∨ ∃ n, q.gate.ghost none t.log = some n ∧ (n + incoming t : Nat) ≤ limit := by
  obtain ⟨kind, log, p⟩ := t
  cases p with
  | ret ids | throw e => exact .inl rfl
  | call op k =>
      cases op with
      | pendingCount queue => exact .inl rfl
      | pushBulk queue payloads options => exact .inr (ht.1.2 limit hmax)

theorem incoming_eq_zero (hmax : q.maxPending = some limit) (ht : Gated q t)
    (h : q.gate.ghost none t.log = none) :
    incoming t = 0 := by
  obtain h₀ | ⟨n, hn, _⟩ := incoming_le hmax ht
  · exact h₀
  · rw [h] at hn
    cases hn

theorem getElem?_held {i : Nat} (h : σ.config.pool[i]? = some t) :
    (abs q σ).held[i]? = some (incoming t) := by
  rw [abs, List.getElem?_map, h]
  rfl

theorem exec_pendingCount {now : Time} {fails : Option String} {queue : String} {s s' : Store}
    {r : Except String Nat}
    (h : exec s (now, fails) (.pendingCount queue) = some (s', r)) :
    s' = s ∧ ∀ n, r = .ok n → n = s.pendingCount queue := by
  cases fails with
  | some e =>
      cases h
      exact ⟨rfl, fun _ he => by cases he⟩
  | none =>
      cases h
      refine ⟨rfl, fun n he => ?_⟩
      cases he
      rfl

theorem pendingCount_exec {now : Time} {fails : Option String} {queue : String}
    {payloads : List (Option Json)}
    {options : JsPushOptions} {s s' : Store} {r : Except String (List JobId)}
    (h : exec s (now, fails) (.pushBulk queue payloads options) = some (s', r)) (name : String) :
    s'.pendingCount name ≤ s.pendingCount name + payloads.length := by
  cases fails with
  | some e =>
      cases h
      exact Nat.le_add_right _ _
  | none =>
      unfold exec QueueOp.exec at h
      dsimp only at h
      split at h
      · cases h
        exact Nat.le_add_right _ _
      · next texts htexts =>
          cases h
          have hpush := pendingCount_push s (QueueOp.jobs queue texts options) now name
          rw [QueueOp.jobs, List.length_map] at hpush
          rw [eq_map_some_of_mapM htexts, List.length_map]
          exact hpush

theorem held_of_uncrowded {i : Nat} {now : Time} {fails : Option String} {queue : String}
    {k : Except String Nat → QueueM (List JobId)}
    (hok : uncrowded crowd σ (.call i now fails : Label D) = true) (hi : σ.config.pool[i]? = some t)
    (hp : t.prog = .call (.pendingCount queue) k) : ((abs q σ).held.eraseIdx i).sum ≤ crowd := by
  unfold uncrowded at hok
  dsimp only at hok
  rw [hi] at hok
  dsimp only at hok
  rw [hp] at hok
  rw [abs, List.eraseIdx_map]
  exact of_decide_eq_true hok

/-- A look reserves what there is room for, and a push spends it. -/
theorem answered (hmax : q.maxPending = some limit) (ht : Gated q t) {i : Nat}
    (hi : σ.config.pool[i]? = some t) {op : QueueOp}
    {k : Except String op.Val → QueueM (List JobId)} (hp : t.prog = .call op k) {now : Time}
    {fails : Option String} {s : Store}
    {r : Except String op.Val} (he : exec σ.config.shared (now, fails) op = some (s, r))
    (hok : uncrowded crowd σ (.call i now fails : Label D) = true) :
    Reserve.Step limit crowd (abs q σ)
      { abs q σ with
        count := s.pendingCount q.name
        held := (abs q σ).held.set i (incoming (t.answer op r (k r))) } := by
  have hafter : Gated q (t.answer op r (k r)) := ht.answer hp trivial
  have hheld := getElem?_held (q := q) hi
  have hallowed := ht.allowed hp
  cases op with
  | pendingCount queue =>
      obtain ⟨rfl, hr⟩ := exec_pendingCount he
      cases r with
      | error e =>
          rw [incoming_eq_zero hmax hafter rfl]
          exact .spend _ i _ 0 _ hheld (Nat.le_add_right _ _)
      | ok pending =>
          obtain rfl : queue = q.name := hallowed
          obtain hnone | ⟨n, hn, hroom⟩ := incoming_le hmax hafter
          · rw [hnone]
            exact .spend _ i _ 0 _ hheld (Nat.le_add_right _ _)
          · obtain rfl : pending = n := Option.some.inj hn
            cases hr pending rfl
            exact .reserve _ i _ _ hheld hroom (held_of_uncrowded hok hi hp)
  | pushBulk queue payloads options =>
      have hbefore : incoming t = payloads.length := by
        rw [incoming, hp]
      rw [incoming_eq_zero hmax hafter rfl]
      refine .spend _ i _ 0 _ hheld ?_
      rw [hbefore]
      exact pendingCount_exec he q.name

theorem reserve_step (hmax : q.maxPending = some limit) (hσ : ∀ t ∈ σ.config.pool, Gated q t)
    (hok : uncrowded crowd σ l = true) (hs : step q σ l = some σ') :
    (∀ t ∈ σ'.config.pool, Gated q t) ∧ Reserve.Step limit crowd (abs q σ) (abs q σ') := by
  have hspawn {p : QueueM (List JobId)} (hp : Gated q ⟨(), [], p⟩) :
      (∀ t ∈ σ.config.pool ++ [⟨(), [], p⟩], Gated q t) ∧ Reserve.Step limit crowd (abs q σ)
        (abs q { σ with config := σ.config.spawn [⟨(), [], p⟩] }) := by
    constructor
    · exact List.forall_mem_append.mpr ⟨hσ, List.forall_mem_singleton.mpr hp⟩
    · have hjoin : Reserve.Step limit crowd (abs q σ) _ := .join (abs q σ)
      rw [← incoming_eq_zero hmax hp rfl] at hjoin
      have habs : abs q { σ with config := σ.config.spawn [⟨(), [], p⟩] } =
          { abs q σ with held := (abs q σ).held ++ [incoming ⟨(), [], p⟩] } := by
        rw [abs, Config.spawn, List.map_append]
        rfl
      rw [habs]
      exact hjoin
  cases l with
  | other s =>
      cases hs
      exact ⟨hσ, .outside (abs q σ) _ _ pendingCount_le_arrivals⟩
  | push data options =>
      cases hs
      exact hspawn (gated_single data options)
  | pushBulk items options =>
      cases hs
      exact hspawn (gate_pushBulk items)
  | call i now fails =>
      obtain ⟨config, hc, rfl⟩ := Option.map_eq_some_iff.mp hs
      obtain ⟨t, op, k, s, r, hi, hp, he, rfl⟩ := Config.call_eq_some hc
      have ht := hσ t (List.mem_of_getElem? hi)
      refine ⟨fun u hu => ?_, ?_⟩
      · rcases List.mem_or_eq_of_mem_set hu with hu | rfl
        · exact hσ u hu
        · exact ht.answer hp trivial
      · have habs : abs q ⟨⟨s, σ.config.pool.set i (t.answer op r (k r))⟩, σ.returned⟩ =
            { abs q σ with
              count := s.pendingCount q.name
              held := (abs q σ).held.set i (incoming (t.answer op r (k r))) } := by
          rw [abs, List.map_set]
          rfl
        rw [habs]
        exact answered hmax ht hi hp he hok

/-- Admission looks before it pushes, so producers that look together overrun the bound, by no more
than what the others were about to push at that time. -/
theorem pendingCount_le (hmax : q.maxPending = some limit) {s : Store}
    (h : Run (step q) (uncrowded crowd) (init s) σ) :
    (σ.config.shared.pendingCount q.name : Int) ≤
      max (s.pendingCount q.name : Int) (limit + crowd) + σ.returned := by
  have hinit : Reserve.Within (max (s.pendingCount q.name : Int) (limit + crowd))
    (abs q (init s)) := by
    show ((s.pendingCount q.name + 0 : Nat) : Int) ≤
      max (s.pendingCount q.name : Int) (limit + crowd) + (0 : Nat)
    rw [Nat.add_zero, Nat.cast_zero, Int.add_zero]
    exact le_max_left _ _
  have hwithin :=
    Reserve.within_of_run (abs q) (fun σ => ∀ t ∈ σ.config.pool, Gated q t)
      (fun t ht => by cases ht)
    (fun σ l σ' hσ hok hs => reserve_step hmax hσ hok hs)
      (le_max_right (s.pendingCount q.name : Int) (limit + crowd)) hinit h
  rw [Reserve.Within] at hwithin
  exact (Int.ofNat_le.mpr (Nat.le_add_right _ _)).trans hwithin

end Step

section Sample

def bounded : Queue Nat := { digits with debounce := none, maxPending := some 1 }

def together : List (Label Nat) :=
  [.push (some 1) plainOptions, .push (some 2) plainOptions, .call 0 0 none, .call 1 0 none,
    .call 0 0 none, .call 1 0 none]

theorem pendingCount_le_together : ∃ σ, Run (step bounded) (uncrowded 1) (init .empty) σ ∧
    σ.returned = 0 ∧
    σ.config.shared.pendingCount "digits" = 2 ∧
    (σ.config.shared.pendingCount "digits" : Int) ≤
      max (Store.empty.pendingCount "digits" : Int) (1 + (1 : Nat)) + σ.returned := by
  obtain ⟨σ, h, hp⟩ := Run.exists_of_replay (step bounded) (uncrowded 1) (init .empty) together
    (fun σ => σ.returned = 0 && σ.config.shared.pendingCount "digits" = 2) (by decide +kernel)
  rw [Bool.and_eq_true, decide_eq_true_eq, decide_eq_true_eq] at hp
  have hmax : bounded.maxPending = some 1 := rfl
  exact ⟨σ, h, hp.1, hp.2, pendingCount_le hmax h⟩

end Sample

end Intake

end Queue

end ZenZip
