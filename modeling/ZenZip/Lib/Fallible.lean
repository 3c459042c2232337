import ZenZip.Lib.Rely
import Mathlib.Data.List.Forall2

namespace ZenZip.Lib

section Fallible

variable {ε α β : Type}

theorem bind_eq_ok {x : Except ε α} {f : α → Except ε β} {b : β} : x >>= f = .ok b ↔
    ∃ a, x = .ok a ∧ f a = .ok b := by
  cases x with
  | error e => simp [bind, Except.bind]
  | ok a => simp [bind, Except.bind]

theorem mapM_id_eq_ok {o : Option (Except ε α)} {x : Option α} : o.mapM id = .ok x ↔
    o = x.map .ok := by
  cases o with
  | none => cases x <;> simp [pure, Except.pure]
  | some r => cases r <;> cases x <;> simp [Functor.map, Except.map]

theorem forall₂_of_mapM_eq_ok {f : α → Except ε β} {l : List α} {l' : List β}
    (h : l.mapM f = .ok l') :
    List.Forall₂ (fun a b => f a = .ok b) l l' := by
  induction l generalizing l' with
  | nil =>
      cases h
      exact .nil
  | cons a l ih =>
      rw [List.mapM_cons] at h
      obtain ⟨b, hb, h⟩ := bind_eq_ok.mp h
      obtain ⟨bs, hbs, h⟩ := bind_eq_ok.mp h
      cases h
      exact .cons hb (ih hbs)

theorem forall₂_zip {γ : Type} {R : α → β → Prop} {l : List α} {l' : List β} {ns : List γ}
    (h : List.Forall₂ R l l')
    (hlen : ns.length = l'.length) : List.Forall₂ (fun a e => R a e.1) l (l'.zip ns) := by
  induction h generalizing ns with
  | nil => exact .nil
  | cons hab _ ih =>
      cases ns with
      | nil => cases hlen
      | cons n ns => exact .cons hab (ih (Nat.succ.inj hlen))

end Fallible

namespace Prog

variable {Op : Type} {Val : Op → Type} {S α : Type}

def ofExcept : Except String α → Prog Val α
  | .ok a => .ret a
  | .error e => .throw e

end Prog

theorem Discipline.wp_ofExcept {Op : Type} {Val : Op → Type} {G α : Type} (D : Discipline Val G)
    (x : Except String α)
    (Q : G → Except String α → Prop) (g : G) : D.wp (.ofExcept x) Q g = Q g x := by
  cases x with
  | ok a | error e => rfl

namespace Place

variable {Op : Type} {Val : Op → Type} {S α β : Type} {M : Place Val S} {s s₁ s₂ s' : S}
  {es es' : List (Event Val)}

theorem wp_ofExcept {x : Except String α} {Q : List (Event Val) → S → Except String α → Prop}
    (h : Q [] s x) :
    M.wp (.ofExcept x) Q s := by
  cases x with
  | ok a | error e => exact h

theorem runs_ofExcept (x : Except String α) (s : S) : M.Runs s (.ofExcept x) [] s x := by
  cases x with
  | ok a => exact .ret s a
  | error e => exact .throw s e

theorem runs_op {op : Op} {r : Except String (Val op)} (ho : M.others s s₁)
    (ha : M.answers s₁ op s₂ r) :
    M.Runs s (.op op) [⟨op, r⟩] s₂ r := by
  cases r with
  | ok v => exact .call ho ha (.ret s₂ v)
  | error e => exact .call ho ha (.throw s₂ e)

theorem Runs.bind {p : Prog Val α} {f : α → Prog Val β} {a : α} {r : Except String β}
    (h : M.Runs s p es s₁ (.ok a))
    (h' : M.Runs s₁ (f a) es' s' r) : M.Runs s (p >>= f) (es ++ es') s' r := by
  generalize hok : Except.ok a = x at h
  induction h with
  | ret =>
      cases hok
      exact h'
  | throw => cases hok
  | call ho ha _ ih => exact .call ho ha (ih h' hok)

theorem Runs.bind_error {p : Prog Val α} {e : String} (h : M.Runs s p es s' (.error e))
    (f : α → Prog Val β) :
    M.Runs s (p >>= f) es s' (.error e) := by
  generalize herror : Except.error e = x at h
  induction h with
  | ret => cases herror
  | throw =>
      cases herror
      exact .throw _ _
  | call ho ha _ ih => exact .call ho ha (ih herror)

end Place

end ZenZip.Lib
