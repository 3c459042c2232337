namespace ZenZip.Lib

/-- Sequential code over an interface of atomic calls. A call may be answered
by an error, which the continuation sees; `throw` leaves the whole program. -/
inductive Prog {Op : Type} (Val : Op → Type) (α : Type) : Type
  | ret (a : α)
  | throw (e : String)
  | call (c : Op) (k : Except String (Val c) → Prog Val α)

namespace Prog

variable {Op : Type} {Val : Op → Type} {α β : Type}

protected def bind : Prog Val α → (α → Prog Val β) → Prog Val β
  | .ret a, f => f a
  | .throw e, _ => .throw e
  | .call c k, f => .call c (fun r => (k r).bind f)

instance : Monad (Prog Val) where
  pure := .ret
  bind := Prog.bind

instance : MonadExcept String (Prog Val) where
  throw e := .throw e
  tryCatch p h := go p h
where
  go {α : Type} : Prog Val α → (String → Prog Val α) → Prog Val α
    | .ret a, _ => .ret a
    | .throw e, h => h e
    | .call c k, h => .call c (fun r => go (k r) h)

/-- Run to the end and hand over the result, an error included. -/
def attempt : Prog Val α → Prog Val (Except String α)
  | .ret a => .ret (.ok a)
  | .throw e => .ret (.error e)
  | .call c k => .call c (fun r => (k r).attempt)

def op (c : Op) : Prog Val (Val c) :=
  .call c (fun
    | .ok v => .ret v
    | .error e => .throw e)

def live : Prog Val α → Bool
  | .call _ _ => true
  | _ => false

end Prog

/-- A ghost state that follows the calls of a program: how an answer moves it,
what a call demands of it, and what is known of every answer. -/
structure Discipline {Op : Type} (Val : Op → Type) (G : Type) where
  next : G → (c : Op) → Except String (Val c) → G
  allowed : G → Op → Prop
  answers : (c : Op) → Except String (Val c) → Prop

namespace Discipline

variable {Op : Type} {Val : Op → Type} {G α β : Type} (D : Discipline Val G)

/-- Every call is allowed where it is made, whatever the answers before it, and
the result satisfies `Q`. -/
def wp : Prog Val α → (G → Except String α → Prop) → G → Prop
  | .ret a, Q, g => Q g (.ok a)
  | .throw e, Q, g => Q g (.error e)
  | .call c k, Q, g => D.allowed g c ∧ ∀ r, D.answers c r → wp (k r) Q (D.next g c r)

@[simp] theorem wp_pure (a : α) (Q : G → Except String α → Prop) (g : G) :
    D.wp (pure a : Prog Val α) Q g = Q g (.ok a) := rfl

@[simp] theorem wp_throw (e : String) (Q : G → Except String α → Prop) (g : G) :
    D.wp (throw e : Prog Val α) Q g = Q g (.error e) := rfl

@[simp] theorem wp_op (c : Op) (Q : G → Except String (Val c) → Prop) (g : G) :
    D.wp (.op c) Q g ↔ D.allowed g c ∧ ∀ r, D.answers c r → Q (D.next g c r) r := by
  simp only [Prog.op, wp]
  constructor
  · rintro ⟨ha, h⟩
    refine ⟨ha, fun r hr => ?_⟩
    cases r with
    | ok v => exact h (.ok v) hr
    | error e => exact h (.error e) hr
  · rintro ⟨ha, h⟩
    refine ⟨ha, fun r hr => ?_⟩
    cases r with
    | ok v => exact h (.ok v) hr
    | error e => exact h (.error e) hr

theorem wp_mono {p : Prog Val α} {Q R : G → Except String α → Prop} {g : G}
    (h : D.wp p Q g) (hQ : ∀ g r, Q g r → R g r) : D.wp p R g := by
  induction p generalizing g with
  | ret a | throw e => exact hQ _ _ h
  | call c k ih => exact ⟨h.1, fun r hr => ih r (h.2 r hr)⟩

/-- What a continuation sees: the value, or the error it never gets to see. -/
def seq (f : α → Prog Val β) (Q : G → Except String β → Prop) (g : G) : Except String α → Prop
  | .ok a => D.wp (f a) Q g
  | .error e => Q g (.error e)

@[simp] theorem seq_ok (f : α → Prog Val β) (Q : G → Except String β → Prop) (g : G) (a : α) :
    D.seq f Q g (.ok a) = D.wp (f a) Q g := rfl

@[simp] theorem seq_error (f : α → Prog Val β) (Q : G → Except String β → Prop) (g : G)
    (e : String) :
    D.seq f Q g (.error e) = Q g (.error e) := rfl

@[simp] theorem wp_bind (p : Prog Val α) (f : α → Prog Val β) (Q : G → Except String β → Prop)
    (g : G) :
    D.wp (p >>= f) Q g ↔ D.wp p (D.seq f Q) g := by
  induction p generalizing g with
  | ret a | throw e => exact Iff.rfl
  | call c k ih =>
      show (D.allowed g c ∧ ∀ r, D.answers c r → D.wp (k r >>= f) Q (D.next g c r)) ↔ _
      simp only [wp, ih]

@[simp] theorem wp_attempt (p : Prog Val α) (Q : G → Except String (Except String α) → Prop)
    (g : G) :
    D.wp p.attempt Q g ↔ D.wp p (fun g r => Q g (.ok r)) g := by
  induction p generalizing g with
  | ret a | throw e => exact Iff.rfl
  | call c k ih => simp only [Prog.attempt, wp, ih]

/-- A loop keeps an invariant on the elements still to be visited. -/
theorem wp_forM {f : α → Prog Val PUnit} {Q : G → Except String PUnit → Prop}
    (I : List α → G → Prop)
    (hstep : ∀ a as g, I (a :: as) g → D.wp (f a) (fun g r => match r with
      | .ok _ => I as g
      | .error e => Q g (.error e)) g)
    (hdone : ∀ g, I [] g → Q g (.ok ⟨⟩)) (as : List α) (g : G) (h : I as g) :
    D.wp (forM as f) Q g := by
  induction as generalizing g with
  | nil => exact hdone g h
  | cons a as ih =>
      rw [List.forM_cons, wp_bind]
      refine D.wp_mono (hstep a as g h) ?_
      intro g r hr
      cases r with
      | ok _ => exact ih g hr
      | error e => exact hr

end Discipline

end ZenZip.Lib
