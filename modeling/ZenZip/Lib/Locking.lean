import ZenZip.Lib.Run
import ZenZip.Lib.Pool
import Mathlib.Data.List.Nodup
import Mathlib.Data.List.Perm.Basic

namespace ZenZip.Lib

/-- Transactions that select the rows they want `FOR UPDATE SKIP LOCKED`, and
write some of these when they commit. -/
structure Locking (D T K R : Type) where
  key : R → K
  keys : D → List K
  row : D → K → Option R
  wants : T → R → Bool
  takes : T → R → Bool
  write : T → List R → D → D

/-- How far a transaction is: a select goes through the keys that its snapshot has
and collects the rows it locks. -/
inductive Phase (K R : Type)
  | begun
  | selecting (rest : List K) (rows : List R)
  | committed (rows : List R)
  | rolledBack

structure Txn (T K R : Type) where
  stmt : T
  phase : Phase K R

namespace Txn

variable {T K R : Type}

def held (x : Txn T K R) : List R :=
  match x.phase with
  | .selecting _ rows => rows
  | _ => []

def isOpen (x : Txn T K R) : Bool :=
  match x.phase with
  | .begun | .selecting _ _ => true
  | _ => false

def isCommitted (x : Txn T K R) : Bool :=
  match x.phase with
  | .committed _ => true
  | _ => false

end Txn

/-- The committed rows, and every transaction so far. -/
structure Sessions (D T K R : Type) where
  db : D
  txns : List (Txn T K R)

inductive TxnLabel (T K : Type)
  | start (t : T)
  | select (i : Nat) (order : List K)
  | lock (i : Nat)
  | commit (i : Nat)
  | rollback (i : Nat)

namespace Sessions

variable {D T K R : Type}

def init (d : D) : Sessions D T K R := ⟨d, []⟩

def start (σ : Sessions D T K R) (t : T) : Sessions D T K R := ⟨σ.db, σ.txns ++ [⟨t, .begun⟩]⟩

def set (σ : Sessions D T K R) (i : Nat) (x : Txn T K R) : Sessions D T K R :=
  ⟨σ.db, σ.txns.set i x⟩

def settled (σ : Sessions D T K R) : Bool := σ.txns.all Txn.isCommitted

end Sessions

namespace Locking

variable {D T K R : Type} [DecidableEq K] (L : Locking D T K R)

def found (d : D) (t : T) : List K := (L.keys d).filter (fun k => (L.row d k).any (L.wants t))

def holds (x : Txn T K R) (k : K) : Bool := x.held.any (fun r => L.key r = k)

def locked (σ : Sessions D T K R) (k : K) : Bool := σ.txns.any (fun x => L.holds x k)

/-- The row under a key of the snapshot, unless another transaction holds it or it
has changed so that the select no longer wants it. -/
def lock (σ : Sessions D T K R) (t : T) (k : K) : List R :=
  if L.locked σ k then [] else (L.row σ.db k).toList.filter (L.wants t)

def step (σ : Sessions D T K R) : TxnLabel T K → Option (Sessions D T K R)
  | .start t => some (σ.start t)
  | .select i order => match σ.txns[i]? with
    | some ⟨t, .begun⟩ =>
        if order.isPerm (L.found σ.db t) then some (σ.set i ⟨t, .selecting order []⟩) else none
    | _ => none
  | .lock i => match σ.txns[i]? with
    | some ⟨t, .selecting (k :: ks) rows⟩ =>
        some (σ.set i ⟨t, .selecting ks (rows ++ L.lock σ t k)⟩)
    | _ => none
  | .commit i => match σ.txns[i]? with
    | some ⟨t, .selecting [] rows⟩ => some ⟨L.write t rows σ.db, σ.txns.set i ⟨t, .committed rows⟩⟩
    | _ => none
  | .rollback i => match σ.txns[i]? with
    | some x => if x.isOpen then some (σ.set i ⟨x.stmt, .rolledBack⟩) else none
    | none => none

/-- What a select relies on: the keys are all there, and a commit changes no row
but those it has locked and takes. -/
structure Lawful : Prop where
  mem_keys {d k r} (h : L.row d k = some r) : k ∈ L.keys d
  key_row {d k r} (h : L.row d k = some r) : L.key r = k
  wanted {t r} (h : L.takes t r = true) : L.wants t r = true
  frame {t rows d k r} (h : L.row d k = some r) (hw : ∀ x ∈ rows, L.wants t x = true)
    (hn : ∀ x ∈ rows, L.key x = k → L.takes t x = false) : L.row (L.write t rows d) k = some r

variable {L}
variable {σ σ' σ₀ : Sessions D T K R} {l : TxnLabel T K}

inductive Move (L : Locking D T K R) (σ : Sessions D T K R) : TxnLabel T K → Sessions D T K R → Prop
  | started (t) : Move L σ (.start t) (σ.start t)
  | selected (i t order) (hx : σ.txns[i]? = some ⟨t, .begun⟩) (ho : order.Perm (L.found σ.db t)) :
      Move L σ (.select i order) (σ.set i ⟨t, .selecting order []⟩)
  | locked (i t k ks rows) (hx : σ.txns[i]? = some ⟨t, .selecting (k :: ks) rows⟩) :
      Move L σ (.lock i) (σ.set i ⟨t, .selecting ks (rows ++ L.lock σ t k)⟩)
  | committed (i t rows) (hx : σ.txns[i]? = some ⟨t, .selecting [] rows⟩) :
      Move L σ (.commit i) ⟨L.write t rows σ.db, σ.txns.set i ⟨t, .committed rows⟩⟩
  | rolledBack (i x) (hx : σ.txns[i]? = some x) (ho : x.isOpen = true) :
      Move L σ (.rollback i) (σ.set i ⟨x.stmt, .rolledBack⟩)

theorem step_move (h : L.step σ l = some σ') : Move L σ l σ' := by
  cases l with
  | start t =>
      cases h
      exact .started t
  | select i order =>
      simp only [step] at h
      split at h
      · next t hx =>
          split at h
          · next ho =>
              cases h
              exact .selected i t order hx (List.isPerm_iff.mp ho)
          · cases h
      · cases h
  | lock i =>
      simp only [step] at h
      split at h
      · next t k ks rows hx =>
          cases h
          exact .locked i t k ks rows hx
      · cases h
  | commit i =>
      simp only [step] at h
      split at h
      · next t rows hx =>
          cases h
          exact .committed i t rows hx
      · cases h
  | rollback i =>
      simp only [step] at h
      split at h
      · next x hx =>
          split at h
          · next ho =>
              cases h
              exact .rolledBack i x hx ho
          · cases h
      · cases h

inductive Turn (L : Locking D T K R) (σ : Sessions D T K R) (l : TxnLabel T K)
    (σ' : Sessions D T K R) (m : Nat) : Prop
  | same (he : σ'.txns[m]? = σ.txns[m]?)
  | started (t) (hx : σ.txns[m]? = none) (hx' : σ'.txns[m]? = some ⟨t, .begun⟩)
  | selected (t order) (ho : order.Perm (L.found σ.db t)) (hx : σ.txns[m]? = some ⟨t, .begun⟩)
      (hx' : σ'.txns[m]? = some ⟨t, .selecting order []⟩)
  | locked (t k ks rows) (hl : l = .lock m) (hdb : σ'.db = σ.db)
    (hx : σ.txns[m]? = some ⟨t, .selecting (k :: ks) rows⟩)
      (hx' : σ'.txns[m]? = some ⟨t, .selecting ks (rows ++ L.lock σ t k)⟩)
  | committed (t rows) (hl : l = .commit m) (hdb : σ'.db = L.write t rows σ.db)
      (hx : σ.txns[m]? = some ⟨t, .selecting [] rows⟩)
        (hx' : σ'.txns[m]? = some ⟨t, .committed rows⟩)
  | rolledBack (x) (hx : σ.txns[m]? = some x) (hx' : σ'.txns[m]? = some ⟨x.stmt, .rolledBack⟩)

theorem Move.turn (h : Move L σ l σ') (m : Nat) : Turn L σ l σ' m := by
  have hother {i : Nat} (z : Txn T K R) (hi : i ≠ m) : (σ.txns.set i z)[m]? = σ.txns[m]? :=
    List.getElem?_set_ne hi
  have hself {y : Txn T K R} (z : Txn T K R) (hy : σ.txns[m]? = some y) : (σ.txns.set m z)[m]? =
    some z :=
    List.getElem?_set_self (lt_of_getElem? hy)
  cases h with
  | started t =>
      rcases Nat.lt_trichotomy m σ.txns.length with hlt | rfl | hgt
      · exact .same (List.getElem?_append_left hlt)
      · exact .started t (List.getElem?_eq_none (Nat.le_refl _)) List.getElem?_concat_length
      · apply Turn.same
        rw [Sessions.start, List.getElem?_eq_none (Nat.le_of_lt hgt), List.getElem?_eq_none]
        rw [List.length_append, List.length_singleton]
        exact hgt
  | selected i t order hx ho =>
      by_cases hi : i = m
      · subst hi
        exact .selected t order ho hx (hself _ hx)
      · exact .same (hother _ hi)
  | locked i t k ks rows hx =>
      by_cases hi : i = m
      · subst hi
        exact .locked t k ks rows rfl rfl hx (hself _ hx)
      · exact .same (hother _ hi)
  | committed i t rows hx =>
      by_cases hi : i = m
      · subst hi
        exact .committed t rows rfl rfl hx (hself _ hx)
      · exact .same (hother _ hi)
  | rolledBack i x hx ho =>
      by_cases hi : i = m
      · subst hi
        exact .rolledBack x hx (hself _ hx)
      · exact .same (hother _ hi)

theorem Move.db (h : Move L σ l σ') : σ'.db = σ.db ∨ ∃ (i : Nat) (t : T) (rows : List R),
    σ.txns[i]? = some (Txn.mk t (.selecting [] rows)) ∧
      σ'.txns[i]? = some (Txn.mk t (.committed rows)) ∧
    σ'.db = L.write t rows σ.db := by
  cases h with
  | started | selected | locked | rolledBack => exact .inl rfl
  | committed i t rows hx =>
      refine .inr ⟨i, t, rows, hx, ?_, rfl⟩
      exact List.getElem?_set_self (lt_of_getElem? hx)

theorem Move.heldRows (h : Move L σ l σ') {m : Nat} {x : Txn T K R} (hx : σ'.txns[m]? = some x) :
    x.held = [] ∨ ∃ y, σ.txns[m]? = some y ∧ y.stmt = x.stmt ∧ (x.held = y.held ∨
      ∃ k, l = .lock m ∧ σ'.db = σ.db ∧ x.held = y.held ++ L.lock σ x.stmt k) := by
  cases h.turn m with
  | same he =>
      rw [he] at hx
      exact .inr ⟨x, hx, rfl, .inl rfl⟩
  | started t _ hx' | selected t _ _ _ hx' | committed t _ _ _ _ hx' | rolledBack y _ hx' =>
      obtain rfl := Option.some.inj (hx.symm.trans hx')
      exact .inl rfl
  | locked t k ks rows hl hdb hy hx' =>
      obtain rfl := Option.some.inj (hx.symm.trans hx')
      exact .inr ⟨_, hy, rfl, .inr ⟨k, hl, hdb, rfl⟩⟩

theorem mem_lock {t : T} {k : K} {r : R} (h : r ∈ L.lock σ t k) :
    L.locked σ k = false ∧ L.row σ.db k = some r ∧ L.wants t r = true := by
  rw [lock] at h
  split at h
  · cases h
  · next hfree =>
      obtain ⟨hrow, hw⟩ := List.mem_filter.mp h
      exact ⟨by simpa using hfree, Option.mem_toList.mp hrow, hw⟩

theorem Move.held (h : Move L σ l σ') {m : Nat} {x : Txn T K R} {r : R} (hx : σ'.txns[m]? = some x)
    (hr : r ∈ x.held) :
    (∃ y, σ.txns[m]? = some y ∧ y.stmt = x.stmt ∧ r ∈ y.held) ∨
      ∃ k, l = .lock m ∧ σ'.db = σ.db ∧ L.locked σ k = false ∧ L.row σ.db k = some r ∧
      L.wants x.stmt r = true := by
  obtain hnone | ⟨y, hy, hstmt, hsame | ⟨k, hl, hdb, hmore⟩⟩ := h.heldRows hx
  · rw [hnone] at hr
    cases hr
  · rw [hsame] at hr
    exact .inl ⟨y, hy, hstmt, hr⟩
  · rw [hmore] at hr
    obtain hold | hnew := List.mem_append.mp hr
    · exact .inl ⟨y, hy, hstmt, hold⟩
    · exact .inr ⟨k, hl, hdb, mem_lock hnew⟩

/-- The rows that open transactions hold are as they were when they were locked,
and no two transactions hold one. -/
structure Held (L : Locking D T K R) (σ : Sessions D T K R) : Prop where
  current : ∀ (m : Nat) (x : Txn T K R) (r : R), σ.txns[m]? = some x → r ∈ x.held →
    L.row σ.db (L.key r) = some r ∧ L.wants x.stmt r = true
  alone : ∀ (m n : Nat) (x y : Txn T K R) (r s : R), σ.txns[m]? = some x → σ.txns[n]? = some y →
    r ∈ x.held →
    s ∈ y.held → L.key r = L.key s → m = n
  nodup : ∀ (m : Nat) (x : Txn T K R), σ.txns[m]? = some x → (x.held.map L.key).Nodup

theorem locked_of_held {m : Nat} {x : Txn T K R} {r : R} (hx : σ.txns[m]? = some x)
    (hr : r ∈ x.held) :
    L.locked σ (L.key r) = true := by
  refine List.any_eq_true.mpr ⟨x, List.mem_of_getElem? hx, ?_⟩
  exact List.any_eq_true.mpr ⟨r, hr, decide_eq_true rfl⟩

omit [DecidableEq K] in
theorem Held.init (d : D) : L.Held (.init d) where
  current m x r hx := by cases hx
  alone m n x y r s hx := by cases hx
  nodup m x hx := by cases hx

theorem Move.keepsHeld (h : Move L σ l σ') (hL : L.Lawful) (hI : L.Held σ) : L.Held σ' where
  current m x r hx hr := by
    obtain ⟨y, hy, hstmt, hr'⟩ | ⟨k, _, hdb, _, hrow, hw⟩ := h.held hx hr
    · obtain ⟨hrow, hw⟩ := hI.current m y r hy hr'
      rw [hstmt] at hw
      refine ⟨?_, hw⟩
      obtain hdb | ⟨i, t, rows, hi, hi', hdb⟩ := h.db
      · rwa [hdb]
      · rw [hdb]
        refine hL.frame hrow (fun s hs => (hI.current i _ s hi hs).2) (fun s hs hkey => ?_)
        obtain rfl := hI.alone i m _ y s r hi hy hs hr' hkey
        rw [hi'] at hx
        cases hx
        cases hr
    · rw [hdb, hL.key_row hrow]
      exact ⟨hrow, hw⟩
  alone m n x y r s hx hy hr hs he := by
    obtain ⟨x', hx', _, hr'⟩ | ⟨k, hl, _, hfree, hrow, _⟩ := h.held hx hr
    · obtain ⟨y', hy', _, hs'⟩ | ⟨k, _, _, hfree, hrow, _⟩ := h.held hy hs
      · exact hI.alone m n x' y' r s hx' hy' hr' hs' he
      · rw [← hL.key_row hrow, ← he, locked_of_held hx' hr'] at hfree
        cases hfree
    · obtain ⟨y', hy', _, hs'⟩ | ⟨k', hl', _⟩ := h.held hy hs
      · rw [← hL.key_row hrow, he, locked_of_held hy' hs'] at hfree
        cases hfree
      · rw [hl] at hl'
        cases hl'
        rfl
  nodup m x hx := by
    obtain hnone | ⟨y, hy, _, hsame | ⟨k, _, _, hmore⟩⟩ := h.heldRows hx
    · rw [hnone]
      exact List.nodup_nil
    · rw [hsame]
      exact hI.nodup m y hy
    · have hnew : ((L.lock σ x.stmt k).map L.key).Nodup := by
        rw [lock]
        split
        · exact List.nodup_nil
        · cases L.row σ.db k with
          | none => exact List.nodup_nil
          | some r =>
              exact List.Nodup.sublist (List.filter_sublist.map L.key) (List.nodup_singleton _)
      rw [hmore, List.map_append]
      refine List.nodup_append.mpr ⟨hI.nodup m y hy, hnew, fun k' hk' k'' hk'' he => ?_⟩
      obtain ⟨s, hs, rfl⟩ := List.mem_map.mp hk'
      obtain ⟨r, hr, rfl⟩ := List.mem_map.mp hk''
      obtain ⟨hfree, hrow, _⟩ := mem_lock hr
      rw [← hL.key_row hrow, ← he, locked_of_held hy hs] at hfree
      cases hfree

theorem Held.of_run {ok : Sessions D T K R → TxnLabel T K → Bool} (hL : L.Lawful) (hI : L.Held σ₀)
    (h : Run L.step ok σ₀ σ) : L.Held σ :=
  h.invariant L.Held hI (fun _ _ _ _ hI _ hs => (step_move hs).keepsHeld hL hI)

inductive Fate (L : Locking D T K R) (σ : Sessions D T K R) (l : TxnLabel T K)
    (σ' : Sessions D T K R) (m : Nat)
    (x : Txn T K R) : Prop
  | stays (hx : σ'.txns[m]? = some x)
  | selected (t order) (he : x = ⟨t, .begun⟩) (ho : order.Perm (L.found σ.db t))
      (hx : σ'.txns[m]? = some ⟨t, .selecting order []⟩)
  | locked (t k ks rows) (he : x = ⟨t, .selecting (k :: ks) rows⟩) (hl : l = .lock m)
      (hx : σ'.txns[m]? = some ⟨t, .selecting ks (rows ++ L.lock σ t k)⟩)
  | committed (t rows) (he : x = ⟨t, .selecting [] rows⟩)
    (hx : σ'.txns[m]? = some ⟨t, .committed rows⟩)
  | rolledBack (hx : σ'.txns[m]? = some ⟨x.stmt, .rolledBack⟩)

theorem Move.fate (h : Move L σ l σ') {m : Nat} {x : Txn T K R} (hx : σ.txns[m]? = some x) :
    Fate L σ l σ' m x := by
  cases h.turn m with
  | same he => exact .stays (he.trans hx)
  | started t hnone _ =>
      rw [hnone] at hx
      cases hx
  | selected t order ho hy hx' =>
      exact .selected t order (Option.some.inj (hx.symm.trans hy)) ho hx'
  | locked t k ks rows hl _ hy hx' =>
      exact .locked t k ks rows (Option.some.inj (hx.symm.trans hy)) hl hx'
  | committed t rows _ _ hy hx' => exact .committed t rows (Option.some.inj (hx.symm.trans hy)) hx'
  | rolledBack y hy hx' =>
      obtain rfl := Option.some.inj (hx.symm.trans hy)
      exact .rolledBack hx'

variable (L) in
/-- When transaction `i` comes to the row, whoever holds it takes it. -/
def yields (i : Nat) (r : R) (σ : Sessions D T K R) : TxnLabel T K → Bool
  | .lock j => match σ.txns[j]? with
    | some ⟨_, .selecting (k :: _) _⟩ =>
        j ≠ i || k ≠ L.key r || σ.txns.all (fun x => !L.holds x k || L.takes x.stmt r)
    | _ => true
  | _ => true

inductive Awaited (L : Locking D T K R) (i : Nat) (t : T) (r : R) (σ : Sessions D T K R) : Prop
  | unread (hrow : L.row σ.db (L.key r) = some r) (hx : σ.txns[i]? = some ⟨t, .begun⟩)
  | ahead (rest rows) (hrow : L.row σ.db (L.key r) = some r)
    (hx : σ.txns[i]? = some ⟨t, .selecting rest rows⟩)
      (hr : L.key r ∈ rest)
  | held (m : Nat) (x : Txn T K R) (hx : σ.txns[m]? = some x) (hr : r ∈ x.held)
    (ht : L.takes x.stmt r = true)
  | taken (m : Nat) (t' : T) (rows : List R) (hx : σ.txns[m]? = some ⟨t', .committed rows⟩)
    (hr : r ∈ rows)
      (ht : L.takes t' r = true)
  | lost (m : Nat) (t' : T) (hx : σ.txns[m]? = some ⟨t', .rolledBack⟩)

theorem Move.row (h : Move L σ l σ') (hL : L.Lawful) (hI : L.Held σ) {r : R}
    (hrow : L.row σ.db (L.key r) = some r) :
    L.row σ'.db (L.key r) = some r ∨
      ∃ (m : Nat) (t : T) (rows : List R), σ'.txns[m]? = some (Txn.mk t (.committed rows)) ∧
      r ∈ rows ∧ L.takes t r = true := by
  obtain hdb | ⟨i, t, rows, hi, hi', hdb⟩ := h.db
  · rw [hdb]
    exact .inl hrow
  · by_cases htake : ∃ s ∈ rows, L.key s = L.key r ∧ L.takes t s = true
    · obtain ⟨s, hs, hkey, ht⟩ := htake
      have hcur := (hI.current i _ s hi hs).1
      rw [hkey, hrow] at hcur
      cases hcur
      exact .inr ⟨i, t, rows, hi', hs, ht⟩
    · rw [hdb]
      refine .inl (hL.frame hrow (fun s hs => (hI.current i _ s hi hs).2) (fun s hs hkey => ?_))
      by_contra hn
      exact htake ⟨s, hs, hkey, by simpa using hn⟩

theorem Move.awaited_held (h : Move L σ l σ') {i m : Nat} {t : T} {x : Txn T K R} {r : R}
    (hx : σ.txns[m]? = some x)
    (hr : r ∈ x.held) (ht : L.takes x.stmt r = true) : Awaited L i t r σ' := by
  cases h.fate hx with
  | stays hx' => exact .held m x hx' hr ht
  | rolledBack hx' => exact .lost m x.stmt hx'
  | selected t₁ order he =>
      subst he
      cases hr
  | locked t₁ k ks rows he _ hx' =>
      subst he
      exact .held m _ hx' (List.mem_append_left _ hr) ht
  | committed t₁ rows he hx' =>
      subst he
      exact .taken m t₁ rows hx' hr ht

theorem Move.awaited (h : Move L σ l σ') (hL : L.Lawful) (hI : L.Held σ) {i : Nat} {t : T} {r : R}
    (hok : L.yields i r σ l = true) (ht : L.takes t r = true) (ha : Awaited L i t r σ) :
    Awaited L i t r σ' := by
  cases ha with
  | taken m t' rows hx hr ht' =>
      cases h.fate hx with
      | stays hx' => exact .taken m t' rows hx' hr ht'
      | rolledBack hx' => exact .lost m t' hx'
      | selected _ _ he | locked _ _ _ _ he | committed _ _ he => cases he
  | lost m t' hx =>
      cases h.fate hx with
      | stays hx' | rolledBack hx' => exact .lost m t' hx'
      | selected _ _ he | locked _ _ _ _ he | committed _ _ he => cases he
  | held m x hx hr ht' => exact h.awaited_held hx hr ht'
  | unread hrow hx =>
      obtain hrow' | ⟨m, t', rows, hm, hr, ht'⟩ := h.row hL hI hrow
      · cases h.fate hx with
        | stays hx' => exact .unread hrow' hx'
        | rolledBack hx' => exact .lost i t hx'
        | selected t₁ order he ho hx' =>
            cases he
            refine .ahead order [] hrow' hx' (ho.mem_iff.mpr ?_)
            refine List.mem_filter.mpr ⟨hL.mem_keys hrow, ?_⟩
            rw [hrow]
            exact hL.wanted ht
        | locked _ _ _ _ he | committed _ _ he => cases he
      · exact .taken m t' rows hm hr ht'
  | ahead rest rows hrow hx hr =>
      obtain hrow' | ⟨m, t', rows, hm, hr, ht'⟩ := h.row hL hI hrow
      · cases h.fate hx with
        | stays hx' => exact .ahead rest rows hrow' hx' hr
        | rolledBack hx' => exact .lost i t hx'
        | selected _ _ he => cases he
        | committed t₁ rows he =>
            cases he
            cases hr
        | locked t₁ k ks rows he hl hx' =>
            cases he
            by_cases hk : L.key r = k
            · subst hk
              cases hfree : L.locked σ (L.key r) with
              | true =>
                  obtain ⟨x, hmem, hholds⟩ := List.any_eq_true.mp hfree
                  obtain ⟨s, hs, hkey⟩ := List.any_eq_true.mp hholds
                  obtain ⟨n, hn⟩ := List.getElem?_of_mem hmem
                  have hcur := (hI.current n x s hn hs).1
                  rw [of_decide_eq_true hkey, hrow] at hcur
                  cases hcur
                  have hall : σ.txns.all (fun x => !L.holds x (L.key r) || L.takes x.stmt r) =
                    true := by
                    rw [hl] at hok
                    simpa [yields, hx] using hok
                  have htake := List.all_eq_true.mp hall x hmem
                  rw [hholds] at htake
                  exact h.awaited_held hn hs htake
              | false =>
                  refine .held i _ hx' (List.mem_append_right _ ?_) ht
                  rw [lock, if_neg (by simp [hfree])]
                  exact List.mem_filter.mpr ⟨Option.mem_toList.mpr hrow, hL.wanted ht⟩
            · have hr : L.key r ∈ ks := (List.mem_cons.mp hr).resolve_left hk
              exact .ahead ks _ hrow' hx' hr
      · exact .taken m t' rows hm hr ht'

/-- A row that a transaction is to take has been taken once all transactions have
committed, if nobody held it for nothing when the transaction came to it. -/
theorem taken (hL : L.Lawful) (hI : L.Held σ) {t : T} {r : R} (hrow : L.row σ.db (L.key r) = some r)
    (ht : L.takes t r = true) (h : Run L.step (L.yields σ.txns.length r) (σ.start t) σ')
    (hall : σ'.settled = true) :
    ∃ (m : Nat) (t' : T) (rows : List R), σ'.txns[m]? = some (Txn.mk t' (.committed rows)) ∧
    r ∈ rows ∧
      L.takes t' r = true := by
  have hall := List.all_eq_true.mp hall
  have hopen {m : Nat} {x : Txn T K R} (hx : σ'.txns[m]? = some x) (hc : x.isCommitted = false) :
    False := by
    have := hall x (List.mem_of_getElem? hx)
    rw [hc] at this
    cases this
  have hstart : Move L σ (.start t) (σ.start t) := .started t
  have h₀ : Awaited L σ.txns.length t r (σ.start t) := by
    refine .unread hrow ?_
    rw [Sessions.start, List.getElem?_concat_length]
  have ha := h.invariant (fun σ => L.Held σ ∧ Awaited L _ t r σ) ⟨hstart.keepsHeld hL hI, h₀⟩
    (fun _ _ _ _ hI hok hs =>
      ⟨(step_move hs).keepsHeld hL hI.1, (step_move hs).awaited hL hI.1 hok ht hI.2⟩)
  cases ha.2 with
  | taken m t' rows hx hr ht' => exact ⟨m, t', rows, hx, hr, ht'⟩
  | unread _ hx => exact (hopen hx rfl).elim
  | ahead _ _ _ hx => exact (hopen hx rfl).elim
  | lost _ _ hx => exact (hopen hx rfl).elim
  | held m x hx hr =>
      refine (hopen hx ?_).elim
      unfold Txn.isCommitted
      unfold Txn.held at hr
      split at hr
      · next hp => rw [hp]
      · cases hr

end Locking

end ZenZip.Lib
