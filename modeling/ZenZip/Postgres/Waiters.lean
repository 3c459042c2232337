import ZenZip.Lib.Locking
import ZenZip.Store.Emit

namespace ZenZip

open Lib

namespace Postgres

/-- The transactions that lock rows of `runs`. Each has the time it reads when it
begins. -/
inductive Tx
  | emit (name : String) (payload : Json) (targets : List TriggerTarget) (now : Time)
  | sweep (now : Time)
  deriving DecidableEq

namespace Tx

/-- `WHERE status = 2 AND wait_event = $1`, and `WHERE status = 2 AND wake_at <= $1`. -/
def wants : Tx → RunRow → Bool
  | .emit name _ _ _, r => r.status = .waitEvent && r.waitEvent = some name
  | .sweep now, r => Store.timedOut now [] r

def takes : Tx → RunRow → Bool
  | .emit name payload _ _, r =>
      (r.status = .waitEvent && r.waitEvent = some name) && matchSubset r.waitMatch payload
  | .sweep now, r => Store.timedOut now [] r

end Tx

/-- `emit_in_tx` after its select. -/
def emitInTx (s : Store) (name : String) (payload : Json) (targets : List TriggerTarget)
    (candidates : List RunRow)
    (now : Time) : Store :=
  let event : EventRow := ⟨s.nextId, name, payload, now⟩
  let (s, _) := mapAccum (Store.releaseWaiter payload now)
    { s with events := s.events.insert event, nextId := s.nextId + 1 }
    (candidates.filter (fun r => matchSubset r.waitMatch payload))
  (mapAccum (Store.startTarget (Store.eventInput name payload now) now) s targets).1

def sweepEventTimeouts (s : Store) (now : Time) (rows : List RunRow) : Store :=
  { s with
    runs := s.runs.update (fun r => r.id ∈ rows.map RunRow.id) (Store.timedOutRow now)
      (Store.timedOutRow_id now) }

def Tx.write : Tx → List RunRow → Store → Store
  | .emit name payload targets now, rows, s => emitInTx s name payload targets rows now
  | .sweep now, rows, s => sweepEventTimeouts s now rows

def waiters : Locking Store Tx RunId RunRow where
  key := RunRow.id
  keys s := s.runs.rows.map RunRow.id
  row s id := s.runs.get? id
  wants := Tx.wants
  takes := Tx.takes
  write := Tx.write

section Write

variable (s : Store) (name : String) (payload : Json) (targets : List TriggerTarget)
  (rows : List RunRow) (now : Time)

theorem emitInTx_eq : emitInTx s name payload targets rows now =
    (mapAccum (Store.startTarget (Store.eventInput name payload now) now)
      (mapAccum (Store.releaseWaiter payload now)
      { s with events := s.events.insert ⟨s.nextId, name, payload, now⟩, nextId := s.nextId + 1 }
      (rows.filter (fun r => matchSubset r.waitMatch payload))).1 targets).1 := rfl

theorem get?_emitInTx {id : RunId} {r : RunRow} (h : s.runs.get? id = some r) :
    (emitInTx s name payload targets rows now).runs.get? id =
      some (if id ∈ (rows.filter (fun r => matchSubset r.waitMatch payload)).map RunRow.id then
        Store.wokenRow now r
      else r) := by
  rw [emitInTx_eq]
  refine Store.get?_startTargets_of_some ?_
  rw [Store.get?_releaseWaiters]
  split
  · exact congrArg (Option.map (Store.wokenRow now)) h
  · exact h

theorem get?_sweepEventTimeouts {id : RunId} {r : RunRow} (h : s.runs.get? id = some r) :
    (sweepEventTimeouts s now rows).runs.get? id =
      some (if id ∈ rows.map RunRow.id then Store.timedOutRow now r else r) := by
  have hu := Table.get?_update s.runs (fun r => r.id ∈ rows.map RunRow.id) (Store.timedOutRow now)
    (fun _ => rfl) id
  rw [h, Option.map_some, Table.key_of_get? h] at hu
  rw [sweepEventTimeouts, hu]
  simp only [decide_eq_true_eq]

end Write

theorem Tx.waitEvent_of_wants {t : Tx} {r : RunRow} (h : t.wants r = true) :
    r.status = .waitEvent := by
  cases t with
  | emit name payload targets now =>
      simp only [Tx.wants, Bool.and_eq_true, decide_eq_true_eq] at h
      exact h.1
  | sweep now =>
      simp only [Tx.wants, Store.timedOut, Bool.and_eq_true, decide_eq_true_eq] at h
      exact h.1.1

theorem Tx.write_taken {t : Tx} {rows : List RunRow} {s : Store} {r r' : RunRow} (hr : r ∈ rows)
    (ht : t.takes r = true)
    (hrow : s.runs.get? r.id = some r') :
    ∃ r'', (t.write rows s).runs.get? r.id = some r'' ∧ r''.status = .runnable := by
  cases t with
  | emit name payload targets now =>
      have hm : matchSubset r.waitMatch payload = true := (Bool.and_eq_true_iff.mp ht).2
      have hin : r.id ∈ (rows.filter (fun r => matchSubset r.waitMatch payload)).map RunRow.id :=
        List.mem_map_of_mem (List.mem_filter.mpr ⟨hr, hm⟩)
      have hget := get?_emitInTx s name payload targets rows now hrow
      rw [if_pos hin] at hget
      exact ⟨_, hget, rfl⟩
  | sweep now =>
      have hget := get?_sweepEventTimeouts s rows now hrow
      rw [if_pos (List.mem_map_of_mem hr)] at hget
      exact ⟨_, hget, rfl⟩

theorem waiters_lawful : waiters.Lawful where
  mem_keys h := List.mem_map.mpr ⟨_, Table.mem_of_get? h, Table.key_of_get? h⟩
  key_row h := Table.key_of_get? h
  wanted {t r} h := by
    cases t with
    | emit name payload targets now => exact (Bool.and_eq_true_iff.mp h).1
    | sweep now => exact h
  frame {t rows s id r} h hw hn := by
    cases t with
    | emit name payload targets now =>
        refine (get?_emitInTx s name payload targets rows now h).trans
          (congrArg some (if_neg fun hin => ?_))
        obtain ⟨x, hx, hid⟩ := List.mem_map.mp hin
        obtain ⟨hx, hm⟩ := List.mem_filter.mp hx
        have htake : Tx.takes (.emit name payload targets now) x = true :=
          Bool.and_eq_true_iff.mpr ⟨hw x hx, hm⟩
        exact ne_true_of_eq_false (hn x hx hid) htake
    | sweep now =>
        refine (get?_sweepEventTimeouts s rows now h).trans (congrArg some (if_neg fun hin => ?_))
        obtain ⟨x, hx, hid⟩ := List.mem_map.mp hin
        exact ne_true_of_eq_false (hn x hx hid) (hw x hx)

abbrev Db := Sessions Store Tx RunId RunRow

variable {σ σ' : Db} {l : TxnLabel Tx RunId} {s : Store}

def Took (σ : Db) (m : Nat) (r : RunRow) : Prop :=
  ∃ (t : Tx) (rows : List RunRow), σ.txns[m]? = some (Txn.mk t (.committed rows)) ∧ r ∈ rows ∧
    t.takes r = true

/-- A run that has been taken is runnable from then on, and is taken once. -/
structure Woken (σ : Db) : Prop where
  runnable : ∀ m r, Took σ m r → ∃ r', σ.db.runs.get? r.id = some r' ∧ r'.status = .runnable
  once : ∀ m n r r', Took σ m r → Took σ n r' → r.id = r'.id → m = n

theorem took_of_move (h : Locking.Move waiters σ l σ') {m : Nat} {r : RunRow} (ht : Took σ' m r) :
    Took σ m r ∨ ∃ (t : Tx) (rows : List RunRow),
      l = .commit m ∧ σ.txns[m]? = some (Txn.mk t (.selecting [] rows)) ∧
      r ∈ rows ∧ t.takes r = true ∧ σ'.db = t.write rows σ.db := by
  obtain ⟨t, rows, hx, hr, htake⟩ := ht
  cases h.turn m with
  | same he =>
      rw [he] at hx
      exact .inl ⟨t, rows, hx, hr, htake⟩
  | started _ _ hx' | selected _ _ _ _ hx' | locked _ _ _ _ _ _ _ hx' | rolledBack _ _ hx' =>
      cases hx.symm.trans hx'
  | committed t' rows' hl hdb hy hx' =>
      cases hx.symm.trans hx'
      exact .inr ⟨t, rows, hl, hy, hr, htake, hdb⟩

theorem Woken.not_held (hW : Woken σ) (hI : waiters.Held σ) {m n : Nat} {r r' : RunRow}
    {x : Txn Tx RunId RunRow}
    (ht : Took σ m r) (hx : σ.txns[n]? = some x) (hr : r' ∈ x.held) : r'.id ≠ r.id := by
  intro he
  obtain ⟨row, hrow, hs⟩ := hW.runnable m r ht
  obtain ⟨hcur, hw⟩ := hI.current n x r' hx hr
  have hcur : σ.db.runs.get? r'.id = some r' := hcur
  rw [he, hrow] at hcur
  cases hcur
  rw [Tx.waitEvent_of_wants hw] at hs
  cases hs

theorem Woken.step (hW : Woken σ) (hI : waiters.Held σ) (h : Locking.Move waiters σ l σ') :
    Woken σ' where
  runnable m r ht := by
    obtain hold | ⟨t, rows, _, hx, hr, htake, hdb⟩ := took_of_move h ht
    · obtain ⟨row, hrow, hs⟩ := hW.runnable m r hold
      refine ⟨row, ?_, hs⟩
      obtain hdb | ⟨i, t, rows, hi, _, hdb⟩ := h.db
      · rwa [hdb]
      · rw [hdb]
        refine waiters_lawful.frame hrow (fun s hs => (hI.current i _ s hi hs).2)
          (fun s hs hkey => ?_)
        exact absurd hkey (hW.not_held hI hold hi hs)
    · rw [hdb]
      exact t.write_taken hr htake (hI.current m _ r hx hr).1
  once m n r r' hm hn he := by
    obtain hm | ⟨t, rows, hl, hx, hr, _⟩ := took_of_move h hm
    · obtain hn | ⟨t, rows, hl, hx, hr, _⟩ := took_of_move h hn
      · exact hW.once m n r r' hm hn he
      · exact absurd he.symm (hW.not_held hI hm hx hr)
    · obtain hn | ⟨t', rows', hl', _⟩ := took_of_move h hn
      · exact absurd he (hW.not_held hI hn hx hr)
      · rw [hl] at hl'
        cases hl'
        rfl

theorem held_of_run {ok : Db → TxnLabel Tx RunId → Bool} (h : Run waiters.step ok (.init s) σ) :
    waiters.Held σ :=
  (Locking.Held.init s).of_run waiters_lawful h

theorem woken_of_run {ok : Db → TxnLabel Tx RunId → Bool} (h : Run waiters.step ok (.init s) σ) :
    Woken σ := by
  have h₀ : Woken (.init s) := by
    refine ⟨fun m r ht => ?_, fun m n r r' hm => ?_⟩
    · obtain ⟨_, _, hx, _⟩ := ht
      cases hx
    · obtain ⟨_, _, hx, _⟩ := hm
      cases hx
  exact h.invariant Woken h₀
    (fun _ _ _ hr hW _ hs => hW.step (held_of_run hr) (Locking.step_move hs))

def passedOver (s : Store) (rows : List RunRow) : List RunId :=
  (s.runs.rows.map RunRow.id).filter (fun id => id ∉ rows.map RunRow.id)

theorem mem_passedOver {rows : List RunRow} {r : RunRow} (hr : r ∈ s.runs.rows) :
    r.id ∈ passedOver s rows ↔ r.id ∉ rows.map RunRow.id := by
  simp [passedOver, List.mem_map_of_mem hr]

/-- An emit releases, in the order of its select, the waiters that are left when
the rows it has not locked are left out. -/
theorem emit_commits (h : waiters.Held σ) {m : Nat} {name : String} {payload : Json}
    {targets : List TriggerTarget}
    {now : Time} {rows : List RunRow}
    (hx : σ.txns[m]? = some (Txn.mk (.emit name payload targets now) (.selecting [] rows))) :
    (rows.filter (fun r => matchSubset r.waitMatch payload)).Perm
      (σ.db.waitersOf name payload (passedOver σ.db rows)) := by
  have hrows : (rows.map RunRow.id).Nodup := h.nodup m _ hx
  have hcur (r : RunRow) (hr : r ∈ rows) := h.current m _ r hx hr
  refine (List.perm_ext_iff_of_nodup (hrows.of_map.filter _) (σ.db.runs.nodup.of_map.filter _)).mpr
    (fun r => ?_)
  rw [List.mem_filter, List.mem_filter]
  constructor
  · rintro ⟨hr, hm⟩
    obtain ⟨hrow, hw⟩ := hcur r hr
    have hmem : r ∈ σ.db.runs.rows := Table.mem_of_get? hrow
    refine ⟨hmem, Bool.and_eq_true_iff.mpr ⟨Bool.and_eq_true_iff.mpr ⟨hw, decide_eq_true ?_⟩, hm⟩⟩
    rw [mem_passedOver hmem, not_not]
    exact List.mem_map_of_mem hr
  · rintro ⟨hmem, hp⟩
    obtain ⟨hp, hm⟩ := Bool.and_eq_true_iff.mp hp
    have hin := of_decide_eq_true (Bool.and_eq_true_iff.mp hp).2
    rw [mem_passedOver hmem, not_not] at hin
    obtain ⟨r', hr', hid⟩ := List.mem_map.mp hin
    have hrow : σ.db.runs.get? r'.id = some r' := (hcur r' hr').1
    have he := σ.db.runs.key_injOn (Table.mem_of_get? hrow) hmem hid
    exact ⟨he ▸ hr', hm⟩

/-- A sweep does what the store's sweep does when the rows it has not locked are
left out. -/
theorem sweep_commits (h : waiters.Held σ) {m : Nat} {now : Time} {rows : List RunRow}
    (hx : σ.txns[m]? = some (Txn.mk (.sweep now) (.selecting [] rows))) :
    sweepEventTimeouts σ.db now rows = (σ.db.sweepEventTimeouts now (passedOver σ.db rows)).1 := by
  have hruns : σ.db.runs.update (fun r => r.id ∈ rows.map RunRow.id) (Store.timedOutRow now)
    (fun _ => rfl) =
      σ.db.runs.update (Store.timedOut now (passedOver σ.db rows)) (Store.timedOutRow now)
        (fun _ => rfl) := by
    refine Table.update_congr _ (fun r hmem => ?_)
    have hskip : r.id ∈ passedOver σ.db rows ↔ r.id ∉ rows.map RunRow.id := mem_passedOver hmem
    by_cases hin : r.id ∈ rows.map RunRow.id
    · obtain ⟨r', hr', hid⟩ := List.mem_map.mp hin
      obtain ⟨hrow, hw⟩ := h.current m _ r' hx hr'
      have he := σ.db.runs.key_injOn (Table.mem_of_get? hrow) hmem hid
      subst he
      have hdue : Store.timedOut now [] r' = true := hw
      simp only [Store.timedOut, Bool.and_eq_true] at hdue
      simp only [hin, decide_true, Store.timedOut, hdue.1.1, hdue.2, hskip, not_true_eq_false,
        not_false_eq_true,
        Bool.and_true]
    · have hpass := hskip.mpr hin
      simp [hin, Store.timedOut, hpass]
  rw [sweepEventTimeouts, hruns]
  rfl

/-- What a matching emit comes to is released once all transactions have
committed, by exactly one of them, unless a transaction held the row that does
not release it. -/
theorem matching_emit_releases {row : RunRow} {name : String} {payload : Json}
    {targets : List TriggerTarget} {now : Time}
    (h : Run waiters.step (fun _ _ => true) (.init s) σ) (hrow : σ.db.runs.get? row.id = some row)
    (hwait : row.status = .waitEvent) (hname : row.waitEvent = some name)
    (hmatch : matchSubset row.waitMatch payload = true)
    (h' : Run waiters.step (waiters.yields σ.txns.length row)
      (σ.start (.emit name payload targets now)) σ')
    (hall : σ'.settled = true) :
    (∃ r, σ'.db.runs.get? row.id = some r ∧ r.status = .runnable) ∧ ∃! m, Took σ' m row := by
  have htake : waiters.takes (.emit name payload targets now) row = true := by
    show (Tx.emit name payload targets now).takes row = true
    simp [Tx.takes, hwait, hname, hmatch]
  have hstart : waiters.step σ (.start (.emit name payload targets now)) =
    some (σ.start (.emit name payload targets now)) :=
    rfl
  have hrun : Run waiters.step (fun _ _ => true) (.init s) σ' :=
    (h.snoc rfl hstart).trans (h'.mono (fun _ _ _ => rfl))
  have hW := woken_of_run hrun
  obtain ⟨m, t, rows, hx, hr, ht⟩ := Locking.taken waiters_lawful (held_of_run h) hrow htake h' hall
  have hm : Took σ' m row := ⟨t, rows, hx, hr, ht⟩
  exact ⟨hW.runnable m row hm, m, hm, fun n hn => hW.once n m row row hn hm rfl⟩

section Sample

def awaits (order : Int) (id : RunId) : RunRow :=
  Store.waitingEventRow "paid" "payment" none (some (.obj [("order", .int order)])) 0
    (Store.newRow ⟨"order", .null, none, none, none, none, none⟩ id 0)

def twoOrders : Store :=
  { Store.empty with
    runs := (Store.empty.runs.insert (awaits 1 0)).insert (awaits 2 1), nextId := 2 }

def paid (order : Int) : Tx := .emit "paid" (.obj [("order", .int order)]) [] 7

/-- The emit `i` selects the two runs, in the order of the table. -/
def locks (i : Nat) : List (TxnLabel Tx RunId) := [.select i [0, 1], .lock i, .lock i]

theorem matching_emit_releases_apart :
    ∃ σ σ' : Db, Run waiters.step (fun _ _ => true) (.init twoOrders) σ ∧
    Run waiters.step (waiters.yields σ.txns.length (awaits 2 1)) (σ.start (paid 2)) σ' ∧
    (∃ r, σ'.db.runs.get? 1 = some r ∧ r.status = .runnable) ∧ ∃! m, Took σ' m (awaits 2 1) := by
  obtain ⟨σ, h, hp⟩ := Run.exists_of_replay waiters.step (fun _ _ => true) (.init twoOrders)
    [.start (paid 1)] (fun (σ : Db) => decide (σ.db.runs.get? 1 = some (awaits 2 1)) &&
      (replay waiters.step (waiters.yields σ.txns.length (awaits 2 1)) (σ.start (paid 2))
        (locks 1 ++ [.commit 1, .select 0 [0], .lock 0, .commit 0])).any Sessions.settled)
          (by decide +kernel)
  obtain ⟨hrow, hp⟩ := Bool.and_eq_true_iff.mp hp
  obtain ⟨σ', hr, hall⟩ := (Option.any_eq_true _ _).mp hp
  have h' := Run.of_replay hr
  exact ⟨σ, σ', h, h',
    matching_emit_releases h (of_decide_eq_true hrow) rfl rfl (by decide) h' hall⟩

/-- The emit for order 1 has locked both runs when the emit for order 2 selects:
it passes over the run that waits for order 2, and nobody releases that. -/
theorem foreign_lock_hides_waiter :
    ∃ σ σ' : Db, Run waiters.step (fun _ _ => true) (.init twoOrders) σ ∧
    σ.db.runs.get? 1 = some (awaits 2 1) ∧
      Run waiters.step (fun _ _ => true) (σ.start (paid 2)) σ' ∧
    σ'.settled = true ∧ σ'.db.runs.get? 1 = some (awaits 2 1) := by
  obtain ⟨σ, h, hp⟩ := Run.exists_of_replay waiters.step (fun _ _ => true) (.init twoOrders)
    [.start (paid 1)] (fun (σ : Db) => decide (σ.db.runs.get? 1 = some (awaits 2 1)) &&
      (replay waiters.step (fun _ _ => true) (σ.start (paid 2))
        (locks 0 ++ locks 1 ++ [.commit 1, .commit 0])).any
        (fun (σ' : Db) => σ'.settled && decide (σ'.db.runs.get? 1 = some (awaits 2 1))))
          (by decide +kernel)
  obtain ⟨hrow, hp⟩ := Bool.and_eq_true_iff.mp hp
  obtain ⟨σ', hr, hp⟩ := (Option.any_eq_true _ _).mp hp
  obtain ⟨hall, hrow'⟩ := Bool.and_eq_true_iff.mp hp
  exact ⟨σ, σ', h, of_decide_eq_true hrow, .of_replay hr, hall, of_decide_eq_true hrow'⟩

end Sample

end Postgres

end ZenZip
