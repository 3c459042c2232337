import ZenZip.Lib.Prog

namespace ZenZip.Lib

structure Event {Op : Type} (Val : Op → Type) where
  op : Op
  res : Except String (Val op)

/-- Code in flight, with the calls it has made so far, the latest first. -/
structure Thread {Op : Type} (Val : Op → Type) (κ α : Type) where
  kind : κ
  log : List (Event Val)
  prog : Prog Val α

namespace Thread

variable {Op : Type} {Val : Op → Type} {κ α : Type}

def live (t : Thread Val κ α) : Bool := t.prog.live

def answer (t : Thread Val κ α) (c : Op) (r : Except String (Val c)) (p : Prog Val α) :
    Thread Val κ α :=
  { t with log := ⟨c, r⟩ :: t.log, prog := p }

/-- A crash forgets the rest of the code; what was done stays done. -/
def crash (t : Thread Val κ α) : Thread Val κ α := { t with prog := .throw "crashed" }

@[simp] theorem answer_kind (t : Thread Val κ α) (c : Op) (r : Except String (Val c))
    (p : Prog Val α) :
    (t.answer c r p).kind = t.kind := rfl

@[simp] theorem answer_prog (t : Thread Val κ α) (c : Op) (r : Except String (Val c))
    (p : Prog Val α) :
    (t.answer c r p).prog = p := rfl

@[simp] theorem answer_log (t : Thread Val κ α) (c : Op) (r : Except String (Val c))
    (p : Prog Val α) :
    (t.answer c r p).log = ⟨c, r⟩ :: t.log := rfl

@[simp] theorem crash_kind (t : Thread Val κ α) : t.crash.kind = t.kind := rfl

@[simp] theorem crash_log (t : Thread Val κ α) : t.crash.log = t.log := rfl

@[simp] theorem crash_live (t : Thread Val κ α) : t.crash.live = false := rfl

theorem live_of_call {t : Thread Val κ α} {c : Op} {k : Except String (Val c) → Prog Val α}
    (h : t.prog = .call c k) : t.live = true := by
  rw [live, h]
  rfl

end Thread

/-- Shared state and the threads that call it. A thread keeps its place in the
pool after it has ended. -/
structure Config {Op : Type} (S : Type) (Val : Op → Type) (κ α : Type) where
  shared : S
  pool : List (Thread Val κ α)

namespace Config

variable {Op S κ α Ch : Type} {Val : Op → Type}

def spawn (σ : Config S Val κ α) (ts : List (Thread Val κ α)) : Config S Val κ α :=
  { σ with pool := σ.pool ++ ts }

def crash (σ : Config S Val κ α) (i : Nat) : Option (Config S Val κ α) :=
  match σ.pool[i]? with
  | some t => if t.live then some { σ with pool := σ.pool.set i t.crash } else none
  | none => none

abbrev Answer (S : Type) {Op : Type} (Val : Op → Type) (c : Op) : Type :=
  Option (S × Except String (Val c))

def call (exec : S → Ch → (c : Op) → Answer S Val c) (σ : Config S Val κ α) (i : Nat) (ch : Ch) :
    Option (Config S Val κ α) :=
  match σ.pool[i]? with
  | none => none
  | some t => match t.prog with
    | .call c k => (exec σ.shared ch c).map (fun a => ⟨a.1, σ.pool.set i (t.answer c a.2 (k a.2))⟩)
    | _ => none

theorem crash_eq_some {σ σ' : Config S Val κ α} {i : Nat} (h : σ.crash i = some σ') :
    ∃ t, σ.pool[i]? = some t ∧ t.live = true ∧ σ' = { σ with pool := σ.pool.set i t.crash } := by
  simp only [crash] at h
  split at h
  · next t ht =>
      split at h
      · next hl => exact ⟨t, ht, hl, (Option.some.inj h).symm⟩
      · cases h
  · cases h

theorem call_eq_some {exec : S → Ch → (c : Op) → Answer S Val c} {σ σ' : Config S Val κ α} {i : Nat}
    {ch : Ch}
    (h : σ.call exec i ch = some σ') :
    ∃ t c k s r, σ.pool[i]? = some t ∧ t.prog = .call c k ∧ exec σ.shared ch c = some (s, r) ∧
      σ' = ⟨s, σ.pool.set i (t.answer c r (k r))⟩ := by
  simp only [call] at h
  split at h
  · cases h
  · next t ht =>
      split at h
      · next c k hp =>
          obtain ⟨⟨s, r⟩, he, rfl⟩ := Option.map_eq_some_iff.mp h
          exact ⟨t, c, k, s, r, ht, hp, he, rfl⟩
      · cases h

end Config

section Set

variable {α : Type} {l : List α} {i j : Nat} {a b : α}

theorem getElem?_set_cases (h : (l.set i a)[j]? = some b) (hi : i < l.length) :
    (j = i ∧ b = a) ∨ (j ≠ i ∧ l[j]? = some b) := by
  rw [List.getElem?_set] at h
  split at h
  · next he => exact .inl ⟨he.symm, by simpa [hi, eq_comm] using h⟩
  · next he => exact .inr ⟨Ne.symm he, h⟩

theorem getElem?_split (h : l[i]? = some a) :
    ∃ front back, l = front ++ a :: back ∧ (∀ b, l.set i b = front ++ b :: back) ∧
    l.eraseIdx i = front ++ back := by
  obtain ⟨hi, rfl⟩ := List.getElem?_eq_some_iff.mp h
  refine ⟨l.take i, l.drop (i + 1), ?_, fun b => ?_, List.eraseIdx_eq_take_drop_succ _ _⟩
  · rw [List.getElem_cons_drop, List.take_append_drop]
  · rw [List.set_eq_take_append_cons_drop, if_pos hi]

theorem lt_of_getElem? (h : l[i]? = some a) : i < l.length := (List.getElem?_eq_some_iff.mp h).1

theorem getElem?_concat_eq_some : (l ++ [a])[i]? = some b ↔
    l[i]? = some b ∨ i = l.length ∧ a = b := by
  rcases Nat.lt_trichotomy i l.length with h | h | h
  · simp [List.getElem?_append_left h, Nat.ne_of_lt h]
  · simp [h]
  · have hlen : (l ++ [a]).length ≤ i := by
      rw [List.length_append, List.length_singleton]
      exact h
    simp [List.getElem?_eq_none hlen, List.getElem?_eq_none (Nat.le_of_lt h), Nat.ne_of_gt h]

end Set

namespace Discipline

variable {Op : Type} {Val : Op → Type} {G κ α : Type} (D : Discipline Val G)

def ghost (g₀ : G) : List (Event Val) → G
  | [] => g₀
  | e :: l => D.next (ghost g₀ l) e.op e.res

/-- The rest of a thread obeys the discipline from where its log has led it. -/
def Obeys (init : κ → G) (Q : κ → G → Except String α → Prop) (t : Thread Val κ α) : Prop :=
  D.wp t.prog (Q t.kind) (D.ghost (init t.kind) t.log)

variable {D} {init : κ → G} {Q : κ → G → Except String α → Prop} {t : Thread Val κ α} {c : Op}
  {k : Except String (Val c) → Prog Val α}

theorem Obeys.allowed (h : D.Obeys init Q t) (hp : t.prog = .call c k) :
    D.allowed (D.ghost (init t.kind) t.log) c := by
  rw [Obeys, hp] at h
  exact h.1

theorem Obeys.answer (h : D.Obeys init Q t) (hp : t.prog = .call c k) {r : Except String (Val c)}
    (hr : D.answers c r) : D.Obeys init Q (t.answer c r (k r)) := by
  rw [Obeys, hp] at h
  exact h.2 r hr

end Discipline

end ZenZip.Lib
