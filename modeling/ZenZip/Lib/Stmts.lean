import ZenZip.Lib.Accum

namespace ZenZip.Lib

abbrev Fault := Option (Nat × String)

/-- Statements over the tables `S`. An error ends the code and leaves the tables as
the statements before it have made them. -/
def Stmts (S α : Type) : Type := S → Fault → Except String α × S × Fault

namespace Stmts

variable {S T α β : Type}

protected def pure (a : α) : Stmts S α := fun s fault => (.ok a, s, fault)

protected def bind (x : Stmts S α) (f : α → Stmts S β) : Stmts S β := fun s fault =>
  match x s fault with
  | (.ok a, s', fault') => f a s' fault'
  | (.error e, s', fault') => (.error e, s', fault')

instance : Monad (Stmts S) where
  pure := Stmts.pure
  bind := Stmts.bind

def exec (f : S → S × α) : Stmts S α := fun s fault =>
  match fault with
  | some (0, e) => (.error e, s, none)
  | some (n + 1, e) => (.ok (f s).2, (f s).1, some (n, e))
  | none => (.ok (f s).2, (f s).1, none)

def each (f : α → Stmts S β) : List α → Stmts S (List β)
  | [] => pure []
  | a :: as => do
    let b ← f a
    let bs ← each f as
    return b :: bs

def commit : Stmts S Unit := exec (fun s => (s, ()))

/-- A transaction: an error rolls it back. -/
def atomic (x : Stmts S α) (s : S) (fault : Fault) : Except String α × S :=
  match x s fault with
  | (.ok a, s', _) => (.ok a, s')
  | (.error e, _, _) => (.error e, s)

def auto (x : Stmts S α) (s : S) (fault : Fault) : Except String α × S :=
  match x s fault with
  | (r, s', _) => (r, s')

/-- Where the code succeeds it computes `f`, and it does where no statement fails. -/
structure Computes (x : Stmts S α) (f : S → S × α) : Prop where
  ok : ∀ {s fault a s' fault'}, x s fault = (.ok a, s', fault') → f s = (s', a)
  total : ∀ s, x s none = (.ok (f s).2, (f s).1, none)

section Computes

variable {x : Stmts S α} {f : S → S × α} {k : α → Stmts S β} {g : α → S → S × β}

theorem computes_pure (a : α) : Computes (pure a : Stmts S α) (fun s => (s, a)) where
  ok h := by
    cases h
    rfl
  total _ := rfl

theorem computes_exec (f : S → S × α) : Computes (exec f) f where
  ok h := by
    simp only [exec] at h
    split at h <;> cases h <;> rfl
  total _ := rfl

theorem bind_eq_ok {s s' : S} {fault fault' : Fault} {b : β}
    (h : (x >>= k) s fault = (.ok b, s', fault')) :
    ∃ a s₁ fault₁, x s fault = (.ok a, s₁, fault₁) ∧ k a s₁ fault₁ = (.ok b, s', fault') := by
  have h : Stmts.bind x k s fault = (.ok b, s', fault') := h
  simp only [Stmts.bind] at h
  split at h
  · next a s₁ fault₁ ha => exact ⟨a, s₁, fault₁, ha, h⟩
  · cases h

theorem Computes.bind (hx : Computes x f) (hk : ∀ a, Computes (k a) (g a)) :
    Computes (x >>= k) (fun s => g (f s).2 (f s).1) where
  ok h := by
    obtain ⟨a, s₁, fault₁, ha, hb⟩ := bind_eq_ok h
    rw [hx.ok ha]
    exact (hk a).ok hb
  total s := by
    show Stmts.bind x k s none = _
    rw [Stmts.bind, hx.total s]
    exact (hk _).total _

theorem computes_each {f : α → Stmts S β} {g : S → α → S × β}
    (hf : ∀ a, Computes (f a) (fun s => g s a)) (as : List α) :
    Computes (each f as) (fun s => mapAccum g s as) := by
  induction as with
  | nil => exact computes_pure []
  | cons a as ih => exact (hf a).bind (fun b => ih.bind (fun bs => computes_pure (b :: bs)))

theorem Computes.atomic_ok (hx : Computes x f) {s s' : S} {fault : Fault} {a : α}
    (h : x.atomic s fault = (.ok a, s')) : f s = (s', a) := by
  simp only [atomic] at h
  split at h
  · next heq =>
      cases h
      exact hx.ok heq
  · cases h

theorem atomic_error {s s' : S} {fault : Fault} {e : String}
    (h : x.atomic s fault = (.error e, s')) : s' = s := by
  simp only [atomic] at h
  split at h <;> cases h
  rfl

theorem Computes.atomic_total (hx : Computes x f) (s : S) :
    x.atomic s none = (.ok (f s).2, (f s).1) := by
  rw [atomic, hx.total s]

end Computes

/-- The same statements over two kinds of tables: `φ` takes what they do to the one
to what they do to the other, with the same answers. -/
def Sim (φ : S → T) (x : Stmts S α) (y : Stmts T α) : Prop :=
  ∀ s fault, y (φ s) fault = ((x s fault).1, φ (x s fault).2.1, (x s fault).2.2)

section Sim

variable {φ : S → T} {x : Stmts S α} {y : Stmts T α} {k : α → Stmts S β} {l : α → Stmts T β}

theorem sim_pure (a : α) : Sim φ (pure a) (pure a) := fun _ _ => rfl

theorem sim_exec {f : S → S × α} {g : T → T × α} (h : ∀ s, g (φ s) = (φ (f s).1, (f s).2)) :
    Sim φ (exec f) (exec g) := by
  intro s fault
  simp only [exec, h]
  split <;> rfl

theorem sim_read {γ : Type} {f : S → S × α} {g : T → T × β} {r : α → γ} {r' : β → γ}
    (h : ∀ s, (g (φ s)).1 = φ (f s).1 ∧ r' (g (φ s)).2 = r (f s).2) :
    Sim φ (exec f >>= fun a => pure (r a)) (exec g >>= fun b => pure (r' b)) := by
  intro s fault
  have hs := h s
  cases fault with
  | none =>
      show (Except.ok (r' (g (φ s)).2), (g (φ s)).1, _) = _
      rw [hs.1, hs.2]
      rfl
  | some at' =>
      rcases at' with ⟨n, e⟩
      cases n with
      | zero => rfl
      | succ n =>
          show (Except.ok (r' (g (φ s)).2), (g (φ s)).1, _) = _
          rw [hs.1, hs.2]
          rfl

theorem Sim.bind (hx : Sim φ x y) (hk : ∀ a, Sim φ (k a) (l a)) : Sim φ (x >>= k) (y >>= l) := by
  intro s fault
  show Stmts.bind y l (φ s) fault =
    ((Stmts.bind x k s fault).1, φ (Stmts.bind x k s fault).2.1, (Stmts.bind x k s fault).2.2)
  rw [Stmts.bind, Stmts.bind, hx s fault]
  rcases x s fault with ⟨r, s', fault'⟩
  cases r with
  | ok a => exact hk a s' fault'
  | error e => rfl

theorem sim_each {f : α → Stmts S β} {g : α → Stmts T β} (h : ∀ a, Sim φ (f a) (g a))
    (as : List α) :
    Sim φ (each f as) (each g as) := by
  induction as with
  | nil => exact sim_pure []
  | cons a as ih => exact (h a).bind (fun b => ih.bind (fun bs => sim_pure (b :: bs)))

theorem sim_commit : Sim φ commit commit := sim_exec (fun _ => rfl)

theorem Sim.committed (h : Sim φ x y) :
    Sim φ (x >>= fun a => commit >>= fun _ => pure a) (y >>= fun a => commit >>= fun _ => pure a) :=
  h.bind (fun a => sim_commit.bind (fun _ => sim_pure a))

theorem Sim.auto (h : Sim φ x y) (s : S) (fault : Fault) :
    y.auto (φ s) fault = ((x.auto s fault).1, φ (x.auto s fault).2) := by
  rw [Stmts.auto, Stmts.auto, h s fault]

theorem Sim.atomic (h : Sim φ x y) (s : S) (fault : Fault) :
    y.atomic (φ s) fault = ((x.atomic s fault).1, φ (x.atomic s fault).2) := by
  rw [Stmts.atomic, Stmts.atomic, h s fault]
  rcases x s fault with ⟨r, s', fault'⟩
  cases r <;> rfl

end Sim

end Stmts

end ZenZip.Lib
