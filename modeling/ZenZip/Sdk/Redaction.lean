import ZenZip.Sdk.Secrets

namespace ZenZip.Secrets

open Lib.Dfs

variable {N O U : Type} (lib : UrlLib U)

/-- What is left of a string, a number or the like under a key. -/
def copied (k : Option String) (c : Prim N O) : Val N O :=
  assigned k (.prim (if masked k (.prim c) then .text "***" else shown lib c))

/-- What is seen of an object of `h` where the objects at the paths of `fresh` are copies. -/
def view (h : Heap N O) : (Path → Bool) → Nat → Path → Option (Obs N O)
  | _, a, [] => shape h a
  | fresh, a, i :: p =>
    match slot h a i with
    | none => none
    | some (k, .prim c) => look h (if fresh [] then copied lib k c else .prim c) p
    | some (_, .ref b) => view h (fun q => fresh (i :: q)) b p

def viewSlot (h : Heap N O) (fresh : Path → Bool) (s : Slot N O) (p : Path) : Option (Obs N O) :=
  match s.2 with
  | .prim c => look h (copied lib s.1 c) p
  | .ref b => view lib h fresh b p

variable {lib} {h : Heap N O} {a b n i m l : Nat} {seen : List Nat}

theorem view_none {fresh : Path → Bool} (hs : slot h a i = none) (p : Path) :
    view lib h fresh a (i :: p) = none := by
  rw [view, hs]

theorem view_fresh {fresh : Path → Bool} {s : Slot N O} (hf : fresh [] = true)
    (hs : slot h a i = some s) (p : Path) :
    view lib h fresh a (i :: p) = viewSlot lib h (fun q => fresh (i :: q)) s p := by
  obtain ⟨k, v⟩ := s
  rw [view, hs, viewSlot]
  cases v with
  | prim c => simp only [hf, if_true]
  | ref b => rfl

theorem look_eq_view (lib : UrlLib U) (h : Heap N O) (a : Nat) (p : Path) :
    look h (.ref a) p = view lib h (fun _ => false) a p := by
  induction p generalizing a with
  | nil => rfl
  | cons i p ih =>
      rw [look, view]
      cases hs : slot h a i with
      | none => rfl
      | some s =>
          obtain ⟨k, v⟩ := s
          cases v with
          | prim c => rfl
          | ref b => exact ih b

theorem copied_prim (lib : UrlLib U) (k : Option String) (c : Prim N O) :
    ∃ c', copied lib k c = .prim c' := by
  rw [copied]
  generalize (if masked k (.prim c) then Prim.text "***" else shown lib c) = d
  unfold assigned
  split
  · next heq => cases heq
  · exact ⟨_, rfl⟩
  · split
    · exact ⟨_, rfl⟩
    · exact ⟨_, rfl⟩

theorem look_prim (h h' : Heap N O) (c : Prim N O) (p : Path) :
    look h (.prim c) p = look h' (.prim c) p := by
  cases p <;> rfl

theorem look_copied (h h' : Heap N O) (k : Option String) (c : Prim N O) (p : Path) :
    look h (copied lib k c) p = look h' (copied lib k c) p := by
  obtain ⟨c', hc⟩ := copied_prim lib k c
  rw [hc]
  exact look_prim h h' c' p

def freshOf (paths : List Path) (q : Path) : Bool := decide (q ∈ paths)

/-- What a call does to every heap that goes on after `h` with `m` more objects. -/
structure Run (lib : UrlLib U) (h : Heap N O) (n : Nat) (seen : List Nat) (m a : Nat)
    (new : Heap N O) (b : Nat) : Prop where
  run : ∀ x : Heap N O, x.length = m →
    redactSecrets lib n ⟨h ++ x, seen⟩ (.ref a) =
      some (⟨h ++ x ++ new, (visit (next h) n seen (some a)).1⟩, .ref b)
  look : ∀ x y : Heap N O, x.length = m → ∀ p,
    look (h ++ x ++ new ++ y) (.ref b) p =
      view lib h (freshOf (visit (next h) n seen (some a)).2) a p

structure SlotRun (lib : UrlLib U) (h : Heap N O) (n : Nat) (seen : List Nat) (m : Nat)
    (s : Slot N O) (new : Heap N O)
    (w : Val N O) : Prop where
  run : ∀ x : Heap N O, x.length = m →
    redactSlot (redactSecrets lib n) ⟨h ++ x, seen⟩ s =
      some (⟨h ++ x ++ new, (visit (next h) n seen s.2.object).1⟩, w)
  look : ∀ x y : Heap N O, x.length = m → ∀ p,
    look (h ++ x ++ new ++ y) (assigned s.1 w) p =
      viewSlot lib h (freshOf (visit (next h) n seen s.2.object).2) s p

theorem SlotRun.prim (lib : UrlLib U) (h : Heap N O) (n : Nat) (seen : List Nat) (m : Nat)
    (k : Option String) (c : Prim N O) :
    SlotRun lib h n seen m (k, .prim c) []
      (.prim (if masked k (.prim c) then .text "***" else shown lib c)) where
  run x _ := by
    rw [redactSlot, Val.object, visit_none, List.append_nil]
    by_cases hm : masked k (.prim c) = true
    · rw [if_pos hm, if_pos hm]
    · rw [if_neg hm, if_neg hm]
      cases n <;> rfl
  look x y _ p := look_copied _ h k c p

theorem SlotRun.ref {k : Option String} {new : Heap N O} (hrun : Run lib h n seen m a new b) :
    SlotRun lib h n seen m (k, .ref a) new (.ref b) where
  run x hx := by
    have hmasked : masked k (.ref a : Val N O) = false := by
      cases k <;> exact Bool.and_false _
    rw [redactSlot, if_neg (by rw [hmasked]; exact Bool.false_ne_true)]
    exact hrun.run x hx
  look x y hx p := hrun.look x y hx p

theorem modify_middle (x y : Heap N O) (node : Node N O) (f : Node N O → Node N O) :
    (x ++ node :: y).modify x.length f = x ++ f node :: y := by
  induction x with
  | nil => rfl
  | cons a x ih =>
      rw [List.cons_append, List.length_cons, List.modify_succ_cons, ih]
      rfl

structure Filled (lib : UrlLib U) (h : Heap N O) (n : Nat) (seen : List Nat) (m l i : Nat)
    (slots : List (Slot N O))
    (more : List (Slot N O)) (new : Heap N O) : Prop where
  run : ∀ (x : Heap N O) (node : Node N O) (z : Heap N O), x.length = m → z.length = l →
    fill (redactSecrets lib n) (h.length + m) slots ⟨h ++ x ++ node :: z, seen⟩ =
      some ⟨h ++ x ++ ({ node with slots := node.slots ++ more } :: z) ++ new,
        (sweep (visit (next h) n) seen i (slots.map (fun s => s.2.object))).1⟩
  keys : more.map Prod.fst = slots.map Prod.fst
  look : ∀ j s, slots[j]? = some s → ∃ w, more[j]? = some (s.1, w) ∧ ∀ x y : Heap N O,
    x.length = m + 1 + l → ∀ p,
    look (h ++ x ++ new ++ y) w p =
      viewSlot lib h
        (fun q => freshOf (sweep (visit (next h) n) seen i (slots.map (fun s => s.2.object))).2
          ((i + j) :: q)) s p

theorem Filled.nil (lib : UrlLib U) (h : Heap N O) (n : Nat) (seen : List Nat) (m l i : Nat) :
    Filled lib h n seen m l i [] [] [] where
  run x node z _ _ := by
    rw [fill, List.append_nil, List.append_nil]
    rfl
  keys := rfl
  look j s hs := by cases hs

theorem Filled.cons {s : Slot N O} {slots more : List (Slot N O)} {new rest : Heap N O}
    {w : Val N O}
    (hslot : SlotRun lib h n seen (m + 1 + l) s new w)
    (hrest : Filled lib h n (visit (next h) n seen s.2.object).1 m (l + new.length) (i + 1) slots
      more rest) :
    Filled lib h n seen m l i (s :: slots) ((s.1, assigned s.1 w) :: more) (new ++ rest) where
  run x node z hx hz := by
    have hlen : (x ++ node :: z).length = m + 1 + l := by
      rw [List.length_append, List.length_cons]
      omega
    have hout : (h ++ x).length = h.length + m := by rw [List.length_append, hx]
    have hheap : h ++ (x ++ node :: z) ++ new = h ++ x ++ node :: (z ++ new) := by
      simp only [List.append_assoc, List.cons_append]
    rw [fill, List.append_assoc h x, hslot.run _ hlen]
    simp only [Option.bind_eq_bind, Option.bind_some, State.assign]
    rw [hheap, ← hout, modify_middle, hout,
      hrest.run x _ (z ++ new) hx (by rw [List.length_append, hz])]
    simp only [List.append_assoc, List.cons_append, List.nil_append]
    rfl
  keys := by rw [List.map_cons, List.map_cons, hrest.keys]
  look j s' hs' := by
    cases j with
    | zero =>
        rw [List.getElem?_cons_zero, Option.some_inj] at hs'
        subst hs'
        refine ⟨_, rfl, fun x y hx p => ?_⟩
        rw [show h ++ x ++ (new ++ rest) ++ y = h ++ x ++ new ++
          (rest ++ y) by simp only [List.append_assoc], hslot.look x _ hx]
        congr 1
        funext q
        exact decide_eq_decide.mpr cons_mem_sweep.symm
    | succ j =>
        rw [List.getElem?_cons_succ] at hs'
        obtain ⟨w', hw, hlook⟩ := hrest.look j s' hs'
        refine ⟨w', hw, fun x y hx p => ?_⟩
        have hlen : (x ++ new).length = m + 1 + (l + new.length) := by
          rw [List.length_append]
          omega
        rw [show h ++ x ++ (new ++ rest) ++ y = h ++ (x ++ new) ++ rest ++
          y by simp only [List.append_assoc], hlook _ y hlen]
        congr 1
        funext q
        exact decide_eq_decide.mpr cons_mem_sweep_rest.symm

theorem filled_exists
    (hrun : ∀ seen m a, a < h.length → left (List.range h.length) seen < n →
    ∃ new b, Run lib h n seen m a new b)
    {slots : List (Slot N O)} (hslots : ∀ s ∈ slots, ∀ a, s.2 = .ref a → a < h.length)
    (hleft : left (List.range h.length) seen < n) :
    ∃ more new, Filled lib h n seen m l i slots more new := by
  induction slots generalizing seen l i with
  | nil => exact ⟨[], [], .nil lib h n seen m l i⟩
  | cons s slots ih =>
      have hslot : ∃ new w, SlotRun lib h n seen (m + 1 + l) s new w := by
        obtain ⟨k, v⟩ := s
        cases v with
        | prim c => exact ⟨_, _, .prim lib h n seen _ k c⟩
        | ref a =>
            obtain ⟨new, b, hr⟩ := hrun seen (m + 1 + l) a (hslots _ List.mem_cons_self a rfl) hleft
            exact ⟨new, _, .ref hr⟩
      obtain ⟨new, w, hslot⟩ := hslot
      have hmono := (visit_covers (next h) n seen s.2.object).mono
      obtain ⟨more, rest, hrest⟩ :=
        ih (fun s' hs' => hslots s' (List.mem_cons_of_mem s hs'))
          (Nat.lt_of_le_of_lt (left_le hmono) hleft)
      exact ⟨_, _, .cons hslot hrest⟩

theorem Run.again (lib : UrlLib U) (hclosed : Closed h) (n : Nat) (ha : a < h.length)
    (hseen : a ∈ seen) :
    Run lib h (n + 1) seen m a [] a where
  run x _ := by rw [redactSecrets, if_pos hseen, visit, if_pos hseen, List.append_nil]
  look x y _ p := by
    rw [List.append_nil, List.append_assoc, look_append hclosed ha, look_eq_view lib, visit,
      if_pos hseen]
    rfl

theorem Run.copy {node : Node N O} {more : List (Slot N O)} {new : Heap N O}
    (ha : h[a]? = some node) (hseen : a ∉ seen)
    (hfill : Filled lib h n (a :: seen) m 0 0 node.slots more new) :
    Run lib h (n + 1) seen m a (⟨node.array, more⟩ :: new) (h.length + m) where
  run x hx := by
    have hax : (h ++ x)[a]? = some node := by
      rw [List.getElem?_append_left (List.getElem?_eq_some_iff.mp ha).1, ha]
    have hlen : (h ++ x).length = h.length + m := by rw [List.length_append, hx]
    have hf := hfill.run x ⟨node.array, []⟩ [] hx rfl
    rw [redactSecrets, if_neg hseen]
    simp only [hax, Option.bind_eq_bind, Option.bind_some]
    rw [hlen, hf, visit, if_neg hseen, next_of_getElem? ha, List.nil_append, List.append_assoc,
      List.cons_append, List.nil_append]
    rfl
  look x y hx p := by
    have hlen : (h ++ x).length = h.length + m := by rw [List.length_append, hx]
    have hout : (h ++ x ++ (⟨node.array, more⟩ :: new) ++ y)[h.length + m]? =
      some ⟨node.array, more⟩ := by
      rw [List.append_assoc, ← hlen, List.getElem?_append_right (Nat.le_refl _), Nat.sub_self]
      rfl
    cases p with
    | nil =>
        rw [Secrets.look, view, shape, shape, hout, ha]
        simp only [Option.map_some, hfill.keys]
    | cons i p =>
        rw [Secrets.look, slot_of_getElem? hout]
        cases hs : node.slots[i]? with
        | none =>
            have hnone : more[i]? = none := by
              rw [List.getElem?_eq_none_iff] at hs ⊢
              have hlen := congrArg List.length hfill.keys
              rw [List.length_map, List.length_map] at hlen
              omega
            rw [view_none (by rw [slot_of_getElem? ha, hs])]
            simp only [hnone]
        | some s =>
            obtain ⟨w, hw, hlook⟩ := hfill.look i s hs
            have hfresh : freshOf (visit (next h) (n + 1) seen (some a)).2 [] = true := by
              rw [visit, if_neg hseen]
              exact decide_eq_true List.mem_cons_self
            rw [view_fresh hfresh (by rw [slot_of_getElem? ha, hs])]
            simp only [hw]
            rw [show h ++ x ++ (⟨node.array, more⟩ :: new) ++ y = h ++
              (x ++ [⟨node.array, more⟩]) ++ new ++ y by
              simp only [List.append_assoc, List.cons_append, List.nil_append]]
            rw [hlook _ y (by rw [List.length_append, hx]; rfl)]
            congr 1
            funext q
            rw [freshOf, freshOf, visit, if_neg hseen, next_of_getElem? ha, Nat.zero_add]
            exact decide_eq_decide.mpr (by simp)

/-- The induction is on the depth that is left; more is left than there are objects to be seen. -/
theorem run_exists (lib : UrlLib U) (hclosed : Closed h) (seen : List Nat) (m : Nat)
    (ha : a < h.length)
    (hleft : left (List.range h.length) seen < n) : ∃ new b, Run lib h n seen m a new b := by
  induction n generalizing seen m a with
  | zero => exact absurd hleft (Nat.not_lt_zero _)
  | succ n ih =>
      by_cases hseen : a ∈ seen
      · exact ⟨[], a, .again lib hclosed n ha hseen⟩
      · have hnode := List.getElem?_eq_getElem ha
        have hleft' : left (List.range h.length) (a :: seen) < n :=
          Nat.lt_of_lt_of_le (left_lt (List.mem_range.mpr ha) hseen) (Nat.le_of_lt_succ hleft)
        have hslots : ∀ s ∈ h[a].slots, ∀ b, s.2 = .ref b → b < h.length := by
          intro s hs b hb
          obtain ⟨i, hi⟩ := List.mem_iff_getElem?.mp hs
          exact hclosed a i s b (by rw [slot_of_getElem? hnode, hi]) hb
        obtain ⟨more, new, hfill⟩ :=
          filled_exists (fun seen m a ha hl => ih seen m ha hl) hslots hleft'
        exact ⟨_, _, .copy hnode hseen hfill⟩

end ZenZip.Secrets
