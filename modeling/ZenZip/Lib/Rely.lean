import ZenZip.Lib.Pool

namespace ZenZip.Lib

namespace Event

variable {Op : Type} {Val : Op → Type}

def failed (ev : Event Val) : Prop := ∃ e, ev.res = .error e

end Event

/-- The place where a program runs: what the others may do before each of its calls, and
what a call does to the state. -/
structure Place {Op : Type} (Val : Op → Type) (S : Type) where
  others : S → S → Prop
  answers : S → (op : Op) → S → Except String (Val op) → Prop

namespace Place

variable {Op : Type} {Val : Op → Type} {S α β γ : Type} (M : Place Val S)

/-- The runs of a program among the others, with its calls. -/
inductive Runs : S → Prog Val α → List (Event Val) → S → Except String α → Prop
  | ret (s a) : Runs s (.ret a) [] s (.ok a)
  | throw (s e) : Runs s (.throw e) [] s (.error e)
  | call {s s₁ s₂ s' : S} {op : Op} {k : Except String (Val op) → Prog Val α}
    {r : Except String (Val op)}
      {es : List (Event Val)} {res : Except String α} (ho : M.others s s₁)
        (ha : M.answers s₁ op s₂ r)
      (h : Runs s₂ (k r) es s' res) : Runs s (.call op k) (⟨op, r⟩ :: es) s' res

/-- Every run of the program from `s` ends in `Q`. -/
def wp : Prog Val α → (List (Event Val) → S → Except String α → Prop) → S → Prop
  | .ret a, Q, s => Q [] s (.ok a)
  | .throw e, Q, s => Q [] s (.error e)
  | .call op k, Q, s =>
      ∀ s₁ s₂ r, M.others s s₁ → M.answers s₁ op s₂ r → wp (k r) (fun es => Q (⟨op, r⟩ :: es)) s₂

variable {M}

theorem Runs.post {p : Prog Val α} {Q : List (Event Val) → S → Except String α → Prop} {s s' : S}
    {es : List (Event Val)}
    {r : Except String α} (h : M.Runs s p es s' r) (hp : M.wp p Q s) : Q es s' r := by
  induction h generalizing Q with
  | ret | throw => exact hp
  | call ho ha _ ih => exact ih (hp _ _ _ ho ha)

theorem wp_mono {p : Prog Val α} {Q Q' : List (Event Val) → S → Except String α → Prop} {s : S}
    (h : M.wp p Q s)
    (hQ : ∀ es s' r, Q es s' r → Q' es s' r) : M.wp p Q' s := by
  induction p generalizing s Q Q' with
  | ret a | throw e => exact hQ _ _ _ h
  | call op k ih =>
      exact fun s₁ s₂ r ho ha => ih r (h s₁ s₂ r ho ha) (fun es s' res hq => hQ _ s' res hq)

theorem wp_op {op : Op} {Q : List (Event Val) → S → Except String (Val op) → Prop} {s : S}
    (h : ∀ s₁ s₂ r, M.others s s₁ → M.answers s₁ op s₂ r → Q [⟨op, r⟩] s₂ r) :
    M.wp (.op op) Q s := by
  intro s₁ s₂ r ho ha
  have hq := h s₁ s₂ r ho ha
  cases r with
  | ok v | error e => exact hq

theorem Runs.of_op {op : Op} {f : Val op → Prog Val α} {s s' : S} {v : Val op}
    {es : List (Event Val)} {r : Except String α}
    (h : M.Runs s (.op op >>= f) (⟨op, .ok v⟩ :: es) s' r) :
    ∃ s₁ s₂, M.others s s₁ ∧ M.answers s₁ op s₂ (.ok v) ∧ M.Runs s₂ (f v) es s' r := by
  generalize hp : (.op op >>= f : Prog Val α) = p at h
  cases h with
  | call ho ha h =>
      cases hp
      exact ⟨_, _, ho, ha, h⟩

/-- The place where every call and its answer satisfy `P`. -/
def only (M : Place Val S) (P : Event Val → Prop) : Place Val S where
  others := M.others
  answers s op s' r := M.answers s op s' r ∧ P ⟨op, r⟩

theorem Runs.only {P : Event Val → Prop} {p : Prog Val α} {s s' : S} {es : List (Event Val)}
    {r : Except String α}
    (h : M.Runs s p es s' r) (hes : ∀ ev ∈ es, P ev) : (M.only P).Runs s p es s' r := by
  induction h with
  | ret s a => exact .ret s a
  | throw s e => exact .throw s e
  | call ho ha _ ih =>
      obtain ⟨hev, hes⟩ := List.forall_mem_cons.mp hes
      exact .call ho ⟨ha, hev⟩ (ih hes)

def after (M : Place Val S) (f : α → Prog Val β) (Q : List (Event Val) → S → Except String β → Prop)
    (es : List (Event Val)) (s : S) : Except String α → Prop
  | .ok a => M.wp (f a) (fun es' => Q (es ++ es')) s
  | .error e => Q es s (.error e)

theorem wp_bind {p : Prog Val α} {f : α → Prog Val β}
    {Q : List (Event Val) → S → Except String β → Prop} {s : S}
    (h : M.wp p (M.after f Q) s) : M.wp (p >>= f) Q s := by
  induction p generalizing s Q with
  | ret a | throw e => exact h
  | call op k ih =>
      intro s₁ s₂ r ho ha
      refine ih r (wp_mono (h s₁ s₂ r ho ha) (fun es s' res hq => ?_))
      cases res with
      | ok a | error e => exact hq

theorem wp_attempt {p : Prog Val α}
    {Q : List (Event Val) → S → Except String (Except String α) → Prop} {s : S}
    (h : M.wp p (fun es s r => Q es s (.ok r)) s) : M.wp p.attempt Q s := by
  induction p generalizing s Q with
  | ret a | throw e => exact h
  | call op k ih => exact fun s₁ s₂ r ho ha => ih r (h s₁ s₂ r ho ha)

theorem wp_bind_bind {p : Prog Val α} {f : α → Prog Val β} {g : β → Prog Val γ}
    {Q : List (Event Val) → S → Except String γ → Prop} {s : S}
    (h : M.wp (p >>= fun a => f a >>= g) Q s) :
    M.wp (p >>= f >>= g) Q s := by
  induction p generalizing s Q with
  | ret a | throw e => exact h
  | call op k ih => exact fun s₁ s₂ r ho ha => ih r (h s₁ s₂ r ho ha)

/-- A loop keeps an invariant on the elements still to come and the calls made. -/
theorem wp_forM {f : α → Prog Val PUnit} {Q : List (Event Val) → S → Except String PUnit → Prop}
    (I : List α → List (Event Val) → S → Prop)
    (hstep : ∀ a as es s, I (a :: as) es s → M.wp (f a) (fun es' s' r => match r with
      | .ok _ => I as (es ++ es') s'
      | .error e => Q (es ++ es') s' (.error e)) s)
    (hdone : ∀ es s, I [] es s → Q es s (.ok ⟨⟩)) (as : List α) (es : List (Event Val)) (s : S)
      (h : I as es s) :
    M.wp (forM as f) (fun es' => Q (es ++ es')) s := by
  induction as generalizing es s with
  | nil =>
      show Q (es ++ []) s (.ok ⟨⟩)
      rw [List.append_nil]
      exact hdone es s h
  | cons a as ih =>
      rw [List.forM_cons]
      refine wp_bind (wp_mono (hstep a as es s h) (fun es' s' r hr => ?_))
      cases r with
      | error e => exact hr
      | ok u =>
          refine wp_mono (ih _ _ hr) (fun es'' s'' r' hq => ?_)
          rwa [List.append_assoc] at hq

end Place

namespace Prog

variable {Op : Type} {Val : Op → Type} {S α β : Type}

/-- The error of any call ends the program. -/
def Strict : Prog Val α → Prop
  | .ret _ | .throw _ => True
  | .call _ k => (∀ e, ∃ e', k (.error e) = .throw e') ∧ ∀ r, (k r).Strict

theorem strict_op (op : Op) : (Prog.op op : Prog Val (Val op)).Strict := by
  refine ⟨fun e => ⟨e, rfl⟩, fun r => ?_⟩
  cases r with
  | ok v | error e => trivial

theorem Strict.bind {p : Prog Val α} {f : α → Prog Val β} (hp : p.Strict) (hf : ∀ a, (f a).Strict) :
    (p >>= f).Strict := by
  induction p with
  | ret a => exact hf a
  | throw e => trivial
  | call op k ih =>
      refine ⟨fun e => ?_, fun r => ih r (hp.2 r)⟩
      obtain ⟨e', he⟩ := hp.1 e
      refine ⟨e', ?_⟩
      show (k (.error e)).bind f = .throw e'
      rw [he]
      rfl

theorem strict_forM {f : α → Prog Val PUnit} (hf : ∀ a, (f a).Strict) (as : List α) :
    (forM as f).Strict := by
  induction as with
  | nil => trivial
  | cons a as ih =>
      rw [List.forM_cons]
      exact (hf a).bind (fun _ => ih)

theorem Strict.not_failed {M : Place Val S} {p : Prog Val α} {s s' : S} {es : List (Event Val)}
    {a : α} (hp : p.Strict)
    (h : M.Runs s p es s' (.ok a)) : ∀ ev ∈ es, ¬ ev.failed := by
  generalize hr : Except.ok a = r at h
  induction h with
  | ret | throw => nofun
  | @call s s₁ s₂ s' op k r es res ho ha h ih =>
      refine List.forall_mem_cons.mpr ⟨?_, ih (hp.2 r) hr⟩
      rintro ⟨e, hfail⟩
      obtain ⟨e', he⟩ := hp.1 e
      rw [show r = .error e from hfail, he] at h
      cases h
      cases hr

/-- The run of a program whose calls are answered one after the other, nobody else doing anything.
-/
def exec (answer : S → (op : Op) → Option (S × Except String (Val op))) :
    Prog Val α → S → Option (List (Event Val) × S × Except String α)
  | .ret a, s => some ([], s, .ok a)
  | .throw e, s => some ([], s, .error e)
  | .call op k, s =>
      (answer s op).bind (fun x => ((k x.2).exec answer x.1).map (fun y => (⟨op, x.2⟩ :: y.1, y.2)))

theorem exec_runs {M : Place Val S} {answer : S → (op : Op) → Option (S × Except String (Val op))}
    (ho : ∀ s, M.others s s) (ha : ∀ s op s' r, answer s op = some (s', r) → M.answers s op s' r)
    {p : Prog Val α}
    {s s' : S} {es : List (Event Val)} {r : Except String α}
    (h : p.exec answer s = some (es, s', r)) :
    M.Runs s p es s' r := by
  induction p generalizing s es with
  | ret a =>
      cases h
      exact .ret _ _
  | throw e =>
      cases h
      exact .throw _ _
  | call op k ih =>
      obtain ⟨x, hx, h⟩ := Option.bind_eq_some_iff.mp h
      obtain ⟨⟨es', s₁, r₁⟩, hy, h⟩ := Option.map_eq_some_iff.mp h
      cases h
      exact .call (ho s) (ha s op x.1 x.2 hx) (ih x.2 hy)

end Prog

end ZenZip.Lib
