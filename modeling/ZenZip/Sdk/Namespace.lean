import ZenZip.Scheduler.Tables
import ZenZip.Lib.Glob
import ZenZip.Lib.Text

namespace ZenZip

open Lib

/-- `"*"` and `"**"`. -/
def star : List Char := ['*']

def starStar : List Char := ['*', '*']

namespace Events

/-- `every` over the segments of a pattern, each beside the segment of the name at its index. -/
def everySegment (p n : List (List Char)) : Bool :=
  p.zipIdx.all (fun s => s.1 = star || some s.1 = n[s.2]?)

def eventMatches (pattern name : String) : Bool :=
  if pattern = name then true
  else
    let p := pattern.toList.splitOn '.'
    let n := name.toList.splitOn '.'
    if p.getLast? = some starStar then
      let pre := p.dropLast
      pre.length ≤ n.length && everySegment pre n
    else p.length = n.length && everySegment p n

/-- A subscriber is known by its pattern. -/
def dispatchLocal (subscribers : List String) (event : String) : List String :=
  subscribers.filter (fun pattern => eventMatches pattern event)

end Events

inductive WorkflowOn
  | one (pattern : String)
  | many (patterns : List String)

def WorkflowOn.triggers : Option WorkflowOn → List String
  | none => []
  | some (.one pattern) => [pattern]
  | some (.many patterns) => patterns

structure Namespace where
  name : String

namespace Namespace

variable (ns : Namespace)

def key (name : String) : String := ns.name ++ ":" ++ name

def prefixOn : Option WorkflowOn → Option WorkflowOn
  | none => none
  | some (.many patterns) => some (.many (patterns.map ns.key))
  | some (.one pattern) => some (.one (ns.key pattern))

def workflow (cfg : WorkflowConfig) (on : Option WorkflowOn) : WorkflowConfig :=
  { cfg with name := ns.key cfg.name, triggers := WorkflowOn.triggers (ns.prefixOn on) }

end Namespace

/-- The workflow that an `Agent` registers. -/
def agentWorkflowName (name : String) : String := "agent:" ++ name

/-- What a namespace defines. A network defines its coordinator, an agent. -/
inductive NamespaceMember
  | queue (name : String)
  | workflow (name : String)
  | schedule (name : String)
  | agent (name : String)
  | network (name : String)

namespace NamespaceMember

/-- The name that the app's workflow registry gets. -/
def workflow? (ns : Namespace) : NamespaceMember → Option String
  | .workflow name => some (ns.key name)
  | .agent name | .network name => some (agentWorkflowName (ns.key name))
  | .queue _ | .schedule _ => none

/-- The queue of the store that the jobs go through. -/
def storeQueue (ns : Namespace) : NamespaceMember → String
  | .queue name => ns.key name
  | .schedule name => scheduleQueueName (ns.key name)
  | .workflow name => workflowQueueName (ns.key name)
  | .agent name | .network name => workflowQueueName (agentWorkflowName (ns.key name))

end NamespaceMember

section Matchers

def allSegments (p n : List (List Char)) : Bool := (p.zip n).all (fun s => s.1 = star || s.1 = s.2)

theorem everySegment_append {p m : List (List Char)} (front : List (List Char))
    (h : p.length ≤ m.length) :
    (p.zipIdx front.length).all (fun s => s.1 = star || some s.1 = (front ++ m)[s.2]?) =
    allSegments p m := by
  induction p generalizing front m with
  | nil => rfl
  | cons a p ih =>
      cases m with
      | nil => cases h
      | cons b m =>
          have hrest := ih (front ++ [b]) (Nat.le_of_succ_le_succ h)
          rw [List.length_append, List.length_singleton, List.append_assoc,
            List.singleton_append] at hrest
          rw [List.zipIdx_cons, List.all_cons, hrest, allSegments, allSegments,
            List.zip_cons_cons, List.all_cons, List.getElem?_append_right (Nat.le_refl _),
              Nat.sub_self]
          simp

theorem everySegment_eq {p n : List (List Char)} (h : p.length ≤ n.length) :
    Events.everySegment p n = allSegments p n := everySegment_append [] h

theorem allSegments_iff {p n : List (List Char)} :
    (p.length ≤ n.length && allSegments p n) = true ↔ Glob.Fits star p (n.take p.length) := by
  induction p generalizing n with
  | nil => simp [allSegments, Glob.Fits]
  | cons a p ih =>
      cases n with
      | nil => simp [Glob.Fits]
      | cons b n =>
          rw [List.length_cons, List.take_succ_cons, Glob.fits_cons_iff, ← ih]
          simp only [allSegments, List.zip_cons_cons, List.all_cons, List.length_cons,
            Nat.add_le_add_iff_right, Bool.and_eq_true, decide_eq_true_eq, Bool.or_eq_true]
          tauto

theorem allSegments_iff_of_length_eq {p n : List (List Char)} :
    (p.length = n.length && allSegments p n) = true ↔ Glob.Fits star p n := by
  constructor
  · intro h
    rw [Bool.and_eq_true, decide_eq_true_eq] at h
    have hfits :=
      allSegments_iff.mp (Bool.and_eq_true_iff.mpr ⟨decide_eq_true (Nat.le_of_eq h.1), h.2⟩)
    rwa [h.1, List.take_length] at hfits
  · intro h
    have hlen : p.length = n.length := h.length_eq
    have hall := allSegments_iff (p := p) (n := n)
    rw [hlen, List.take_length] at hall
    have hboth := hall.mpr h
    rw [Bool.and_eq_true] at hboth
    exact Bool.and_eq_true_iff.mpr ⟨decide_eq_true hlen, hboth.2⟩

theorem segments_eq_splitOn (cs : List Char) : segments cs = cs.splitOn '.' := by
  induction cs with
  | nil => rfl
  | cons c cs ih =>
      rw [segments, List.splitOn_cons_eq_if_modifyHead, ih]
      obtain ⟨seg, rest, hsplit⟩ := List.exists_cons_of_ne_nil (List.splitOn_ne_nil '.' cs)
      rw [hsplit]
      by_cases hc : c = '.'
      · rw [if_pos hc, if_pos (beq_iff_eq.mpr hc)]
      · rw [if_neg hc, if_neg (fun h => hc (beq_iff_eq.mp h))]
        rfl

theorem eventMatches_iff {pattern name : String} : eventMatches pattern name = true ↔
    Glob.Matches star starStar (pattern.toList.splitOn '.') (name.toList.splitOn '.') := by
  have hagree (p n : List (List Char)) : ((p.zip n).all fun ab => ab.1 = ['*'] || ab.1 = ab.2) =
    allSegments p n := rfl
  simp only [eventMatches, segments_eq_splitOn, hagree, Bool.or_eq_true, decide_eq_true_eq]
  split
  · next hlast =>
      have hsplit : (pattern.toList.splitOn '.').dropLast ++ [starStar] =
        pattern.toList.splitOn '.' :=
        List.dropLast_append_getLast? starStar hlast
      rw [allSegments_iff, ← Glob.matches_append_rest_iff (r := starStar), hsplit]
      exact or_iff_right_of_imp (fun h => h ▸ (Glob.fits_refl _).matches)
  · next hlast =>
      rw [allSegments_iff_of_length_eq, Glob.matches_iff_fits (r := starStar) hlast]
      exact or_iff_right_of_imp (fun h => h ▸ Glob.fits_refl _)

theorem Events.eventMatches_eq (pattern name : String) :
    Events.eventMatches pattern name = ZenZip.eventMatches pattern name := by
  have hle (p n : List (List Char)) :
      (p.length ≤ n.length && Events.everySegment p n) =
        (p.length ≤ n.length && allSegments p n) := by
    by_cases h : p.length ≤ n.length
    · rw [everySegment_eq h]
    · simp [h]
  have heq (p n : List (List Char)) :
      (p.length = n.length && Events.everySegment p n) =
        (p.length = n.length && allSegments p n) := by
    by_cases h : p.length = n.length
    · rw [everySegment_eq (Nat.le_of_eq h)]
    · simp [h]
  have hagree (p n : List (List Char)) : ((p.zip n).all fun ab => ab.1 = ['*'] || ab.1 = ab.2) =
    allSegments p n := rfl
  simp only [Events.eventMatches, ZenZip.eventMatches, segments_eq_splitOn, hle, heq, hagree]
  by_cases h : pattern = name
  · simp only [h, if_true, decide_true, Bool.true_or]
  · simp only [h, if_false, decide_false, Bool.false_or]
    rfl

end Matchers

def colon : List Char := [':']

/-- Some text that goes on behind the one and a colon goes on behind the other and a colon, too. -/
def meets (a b : List Char) : Bool :=
  a = b || (a ++ colon).isPrefixOf b || (b ++ colon).isPrefixOf a

/-- Some pattern that goes on behind the segments of a first namespace fits some event that
goes on behind those of a second one. -/
def clash : List (List Char) → List (List Char) → Bool
  | [], _ | _, [] => false
  | [a], [b] => meets a b
  | [a], b :: _ :: _ => (a ++ colon).isPrefixOf b
  | a :: _ :: _, [b] => a = star || (b ++ colon).isPrefixOf a
  | a :: a' :: as, b :: b' :: bs => (a = star || a = b) && clash (a' :: as) (b' :: bs)

section Clash

theorem isPrefixOf_colon {a b : List Char} : (a ++ colon).isPrefixOf b = true ↔
    ∃ t, b = a ++ ':' :: t := by
  rw [List.isPrefixOf_iff_prefix]
  constructor
  · rintro ⟨t, rfl⟩
    exact ⟨t, by rw [List.append_assoc]; rfl⟩
  · rintro ⟨t, rfl⟩
    exact ⟨t, by rw [List.append_assoc]; rfl⟩

theorem ne_of_colon_mem {a : List Char} (h : ':' ∈ a) : a ≠ star ∧ a ≠ starStar := by
  constructor
  · rintro rfl
    exact absurd h (by decide)
  · rintro rfl
    exact absurd h (by decide)

theorem eq_or_colon_of_append_eq {a b x y : List Char} (h : a ++ ':' :: x = b ++ ':' :: y) :
    a = b ∨ (∃ t, b = a ++ ':' :: t) ∨ ∃ t, a = b ++ ':' :: t := by
  rcases List.append_eq_append_iff.mp h with ⟨t, rfl, ht⟩ | ⟨t, rfl, ht⟩
  · cases t with
    | nil => exact .inl (List.append_nil a).symm
    | cons c t =>
        cases ht
        exact .inr (.inl ⟨t, rfl⟩)
  · cases t with
    | nil => exact .inl (List.append_nil b)
    | cons c t =>
        cases ht
        exact .inr (.inr ⟨t, rfl⟩)

theorem meets_iff {a b : List Char} : meets a b = true ↔ ∃ x y, a ++ ':' :: x = b ++ ':' :: y := by
  rw [meets, Bool.or_eq_true, Bool.or_eq_true, decide_eq_true_eq, isPrefixOf_colon,
    isPrefixOf_colon]
  constructor
  · rintro ((rfl | ⟨t, rfl⟩) | ⟨t, rfl⟩)
    · exact ⟨[], [], rfl⟩
    · exact ⟨t ++ colon, [], by simp [colon]⟩
    · exact ⟨[], t ++ colon, by simp [colon]⟩
  · rintro ⟨x, y, h⟩
    exact or_assoc.mpr (eq_or_colon_of_append_eq h)

theorem splitOn_colon (x : List Char) :
    ∃ y ys, x.splitOn '.' = y :: ys ∧ (':' :: x).splitOn '.' = (':' :: y) :: ys := by
  obtain ⟨y, ys, hx⟩ := List.exists_cons_of_ne_nil (List.splitOn_ne_nil '.' x)
  refine ⟨y, ys, hx, ?_⟩
  rw [List.splitOn_cons_eq_if_modifyHead, hx]
  rfl

theorem clash_of_matches {as bs : List (List Char)} {x y : List Char} (ha : as ≠ []) (hb : bs ≠ [])
    (h : Glob.Matches star starStar (Text.joinAt as ((':' :: x).splitOn '.'))
      (Text.joinAt bs ((':' :: y).splitOn '.'))) :
    clash as bs = true := by
  obtain ⟨x₁, xs, _, hx⟩ := splitOn_colon x
  obtain ⟨y₁, ys, _, hy⟩ := splitOn_colon y
  rw [hx, hy] at h
  have hmark (a : List Char) : a ++ ':' :: x₁ ≠ star ∧ a ++ ':' :: x₁ ≠ starStar :=
    ne_of_colon_mem (by simp)
  induction as, bs using clash.induct with
  | case1 bs => exact absurd rfl ha
  | case2 as => exact absurd rfl hb
  | case3 a b =>
      have hhead := (h.head (.inl (hmark a).2)).resolve_left (hmark a).1
      rw [clash, meets_iff]
      exact ⟨x₁, y₁, hhead⟩
  | case4 a b b' bs =>
      have hhead := (h.head (.inl (hmark a).2)).resolve_left (hmark a).1
      rw [clash, isPrefixOf_colon]
      exact ⟨x₁, hhead.symm⟩
  | case5 a a' as b =>
      rw [Text.joinAt_cons_cons] at h
      have hhead := h.head (.inr (Text.joinAt_ne_nil (List.cons_ne_nil _ _)))
      rw [clash, Bool.or_eq_true, decide_eq_true_eq, isPrefixOf_colon]
      exact hhead.imp_right (fun he => ⟨y₁, he⟩)
  | case6 a a' as b b' bs ih =>
      rw [Text.joinAt_cons_cons, Text.joinAt_cons_cons] at h
      have hne : Text.joinAt (a' :: as) ((':' :: x₁) :: xs) ≠ [] :=
        Text.joinAt_ne_nil (List.cons_ne_nil _ _)
      rw [clash, Bool.and_eq_true, Bool.or_eq_true, decide_eq_true_eq, decide_eq_true_eq]
      exact ⟨h.head (.inr hne), ih (by simp) (by simp) (h.tail (.inr hne))⟩

theorem exists_splitOn_colon {y : List Char} {zs : List (List Char)} (hy : '.' ∉ y)
    (hz : ∀ z ∈ zs, '.' ∉ z) (hne : zs ≠ []) :
    (':' :: (y ++ '.' :: ['.'].intercalate zs)).splitOn '.' = (':' :: y) :: zs := by
  have hmem : '.' ∉ ':' :: y := by simpa using hy
  rw [← List.cons_append, List.splitOn_append_cons_self_of_not_mem hmem,
    List.splitOn_intercalate '.' hz hne]

theorem splitOn_colon_of_not_mem {x : List Char} (h : '.' ∉ x) :
    (':' :: x).splitOn '.' = [':' :: x] :=
  List.splitOn_eq_singleton (by simpa using h)

theorem exists_same {a b : List Char} (ha : '.' ∉ a) (hb : '.' ∉ b) (h : clash [a] [b] = true) :
    ∃ x y, '.' ∉ x ∧ '.' ∉ y ∧ a ++ ':' :: x = b ++ ':' :: y := by
  rw [clash, meets, Bool.or_eq_true, Bool.or_eq_true, decide_eq_true_eq, isPrefixOf_colon,
    isPrefixOf_colon] at h
  rcases h with (rfl | ⟨t, rfl⟩) | ⟨t, rfl⟩
  · exact ⟨[], [], by simp, by simp, rfl⟩
  · refine ⟨t ++ colon, [], ?_, by simp, by simp [colon]⟩
    simp [colon] at hb ⊢
    exact hb.2
  · refine ⟨[], t ++ colon, by simp, ?_, by simp [colon]⟩
    simp [colon] at ha ⊢
    exact ha.2

theorem matches_of_clash {as bs : List (List Char)} (ha : ∀ a ∈ as, '.' ∉ a)
    (hb : ∀ b ∈ bs, '.' ∉ b)
    (h : clash as bs = true) : ∃ x y,
      Glob.Matches star starStar (Text.joinAt as ((':' :: x).splitOn '.'))
        (Text.joinAt bs ((':' :: y).splitOn '.')) := by
  induction as, bs using clash.induct with
  | case1 bs => cases h
  | case2 as =>
      rw [clash] at h
      · cases h
      · assumption
  | case3 a b =>
      obtain ⟨x, y, hx, hy, he⟩ := exists_same (ha a List.mem_cons_self) (hb b List.mem_cons_self) h
      refine ⟨x, y, ?_⟩
      rw [splitOn_colon_of_not_mem hx, splitOn_colon_of_not_mem hy, Text.joinAt, Text.joinAt, he]
      exact (Glob.fits_refl _).matches
  | case4 a b b' bs =>
      rw [clash, isPrefixOf_colon] at h
      obtain ⟨t, rfl⟩ := h
      have hdot : '.' ∉ t := by
        have hdot := hb _ List.mem_cons_self
        simp at hdot
        exact hdot.2
      refine ⟨t ++ '.' :: ['.'].intercalate [starStar], [], ?_⟩
      rw [exists_splitOn_colon hdot (by decide) (List.cons_ne_nil _ _), Text.joinAt,
        Text.joinAt_cons_cons]
      exact Glob.matches_of_fits_prefix (Glob.fits_refl [a ++ ':' :: t]) _
  | case5 a a' as b =>
      rw [clash, Bool.or_eq_true, decide_eq_true_eq, isPrefixOf_colon] at h
      have hfirst : ∃ y, '.' ∉ y ∧ (a = star ∨ a = b ++ ':' :: y) := by
        rcases h with rfl | ⟨t, rfl⟩
        · exact ⟨[], by simp, .inl rfl⟩
        · have hdot := ha _ List.mem_cons_self
          simp at hdot
          exact ⟨t, hdot.2, .inr rfl⟩
      obtain ⟨y, hy, hfit⟩ := hfirst
      have hz : ∀ z ∈ Text.joinAt (a' :: as) [colon], '.' ∉ z := by
        intro z hz hc
        rcases Text.mem_joinAt hz hc with ⟨x, hx, hc⟩ | ⟨x, hx, hc⟩
        · exact ha x (List.mem_cons_of_mem a hx) hc
        · rw [List.mem_singleton.mp hx] at hc
          exact absurd hc (by decide)
      refine ⟨[], y ++ '.' :: ['.'].intercalate (Text.joinAt (a' :: as) [colon]), ?_⟩
      rw [exists_splitOn_colon hy hz (Text.joinAt_ne_nil (List.cons_ne_nil _ _)),
        splitOn_colon_of_not_mem (by simp),
        Text.joinAt_cons_cons, Text.joinAt]
      exact .inl (.cons hfit (Glob.fits_refl _))
  | case6 a a' as b b' bs ih =>
      rw [clash, Bool.and_eq_true, Bool.or_eq_true, decide_eq_true_eq, decide_eq_true_eq] at h
      obtain ⟨x, y, hm⟩ :=
        ih (fun s hs => ha s (List.mem_cons_of_mem a hs))
          (fun s hs => hb s (List.mem_cons_of_mem b hs)) h.2
      refine ⟨x, y, ?_⟩
      rw [Text.joinAt_cons_cons, Text.joinAt_cons_cons]
      exact hm.cons h.1

end Clash

namespace Namespace

variable {A B : Namespace}

/-- The names of `A` and of `B` never coincide, nor do their workflows or the queues that
their jobs go through, and no subscriber and no workflow of `A` makes a difference to an
event of `B`. -/
structure Isolated (A B : Namespace) : Prop where
  names : ∀ x y, A.key x ≠ B.key y
  workflows : ∀ (m m' : NamespaceMember) w, m.workflow? A = some w → m'.workflow? B ≠ some w
  queues : ∀ m m' : NamespaceMember, m.storeQueue A ≠ m'.storeQueue B
  subscribers : ∀ subscribers pattern event,
    Events.dispatchLocal (A.key pattern :: subscribers) (B.key event) =
      Events.dispatchLocal subscribers (B.key event)
  triggers : ∀ configs cfg on event,
    WorkflowEngine.triggerTargets ⟨A.workflow cfg on :: configs⟩ (B.key event) =
      WorkflowEngine.triggerTargets ⟨configs⟩ (B.key event)

/-- What stands before the colon in the queues of the store. -/
def scopes (ns : Namespace) : List String :=
  [ns.name, scheduleQueueName ns.name, workflowQueueName ns.name,
    workflowQueueName (agentWorkflowName ns.name)]

/-- No queue of the one is a queue of the other. -/
def apart (A B : Namespace) : Bool :=
  A.scopes.all (fun s => B.scopes.all (fun s' => !meets s.toList s'.toList))

section Scopes

theorem storeQueue_scoped (ns : Namespace) (m : NamespaceMember) :
    ∃ s ∈ ns.scopes, ∃ x, (m.storeQueue ns).toList = s.toList ++ ':' :: x := by
  cases m with
  | queue x =>
      exact ⟨ns.name, by simp [scopes], x.toList, by simp [NamespaceMember.storeQueue, key]⟩
  | schedule x =>
      exact ⟨scheduleQueueName ns.name, by simp [scopes],
        x.toList, by simp [NamespaceMember.storeQueue, key, scheduleQueueName]⟩
  | workflow x =>
      exact ⟨workflowQueueName ns.name, by simp [scopes],
        x.toList, by simp [NamespaceMember.storeQueue, key, workflowQueueName]⟩
  | agent x | network x =>
      exact ⟨workflowQueueName (agentWorkflowName ns.name), by simp [scopes], x.toList,
        by simp [NamespaceMember.storeQueue, key, workflowQueueName, agentWorkflowName]⟩

theorem exists_storeQueue {ns : Namespace} {s : String} (hs : s ∈ ns.scopes) (x : List Char) :
    ∃ m : NamespaceMember, (m.storeQueue ns).toList = s.toList ++ ':' :: x := by
  simp only [scopes, List.mem_cons, List.not_mem_nil, or_false] at hs
  rcases hs with rfl | rfl | rfl | rfl
  · exact ⟨.queue (.ofList x), by simp [NamespaceMember.storeQueue, key]⟩
  · exact ⟨.schedule (.ofList x), by simp [NamespaceMember.storeQueue, key, scheduleQueueName]⟩
  · exact ⟨.workflow (.ofList x), by simp [NamespaceMember.storeQueue, key, workflowQueueName]⟩
  · exact ⟨.agent
      (.ofList x), by simp [NamespaceMember.storeQueue, key, workflowQueueName, agentWorkflowName]⟩

theorem apart_iff : A.apart B = true ↔
    ∀ m m' : NamespaceMember, m.storeQueue A ≠ m'.storeQueue B := by
  simp only [apart, List.all_eq_true, Bool.not_eq_true']
  constructor
  · intro h m m' he
    obtain ⟨s, hs, x, hx⟩ := storeQueue_scoped A m
    obtain ⟨s', hs', y, hy⟩ := storeQueue_scoped B m'
    have hmeets : meets s.toList s'.toList = true := meets_iff.mpr ⟨x, y, by rw [← hx, ← hy, he]⟩
    rw [h s hs s' hs'] at hmeets
    cases hmeets
  · intro h s hs s' hs'
    rw [← Bool.not_eq_true, meets_iff]
    rintro ⟨x, y, he⟩
    obtain ⟨m, hm⟩ := exists_storeQueue hs x
    obtain ⟨m', hm'⟩ := exists_storeQueue hs' y
    exact h m m' (String.toList_inj.mp (hm.trans (he.trans hm'.symm)))

theorem storeQueue_of_workflow {ns : Namespace} {m : NamespaceMember} {w : String}
    (h : m.workflow? ns = some w) :
    m.storeQueue ns = workflowQueueName w := by
  cases m <;> cases h <;> rfl

end Scopes

theorem toList_key (x : String) : (A.key x).toList = A.name.toList ++ ':' :: x.toList := by
  rw [key, String.toList_append, String.toList_append, List.append_assoc]
  rfl

theorem eventMatches_key_iff {x y : String} : eventMatches (A.key x) (B.key y) = true ↔
    Glob.Matches star starStar
    (Text.joinAt (A.name.toList.splitOn '.') ((':' :: x.toList).splitOn '.'))
    (Text.joinAt (B.name.toList.splitOn '.') ((':' :: y.toList).splitOn '.')) := by
  rw [eventMatches_iff, toList_key, toList_key, Text.splitOn_append, Text.splitOn_append]

theorem clash_iff : clash (A.name.toList.splitOn '.') (B.name.toList.splitOn '.') = true ↔
    ∃ x y, eventMatches (A.key x) (B.key y) = true := by
  constructor
  · intro h
    obtain ⟨x, y, hm⟩ :=
      matches_of_clash (fun _ => Text.not_mem_of_mem_splitOn)
        (fun _ => Text.not_mem_of_mem_splitOn) h
    refine ⟨.ofList x, .ofList y, eventMatches_key_iff.mpr ?_⟩
    rwa [String.toList_ofList, String.toList_ofList]
  · rintro ⟨x, y, h⟩
    exact clash_of_matches (List.splitOn_ne_nil _ _) (List.splitOn_ne_nil _ _)
      (eventMatches_key_iff.mp h)

theorem mem_triggers_workflow {cfg : WorkflowConfig} {on : Option WorkflowOn} {p : String}
    (h : p ∈ (A.workflow cfg on).triggers) : ∃ x, p = A.key x := by
  cases on with
  | none => cases h
  | some on =>
      cases on with
      | one pattern => exact ⟨pattern, List.mem_singleton.mp h⟩
      | many patterns =>
          obtain ⟨x, _, rfl⟩ := List.mem_map.mp h
          exact ⟨x, rfl⟩

/-- Two namespaces are isolated exactly when their names do not clash, and none of their
queues is behind one of the other's. -/
theorem isolated_iff (A B : Namespace) :
    A.Isolated B ↔ clash (A.name.toList.splitOn '.') (B.name.toList.splitOn '.') = false ∧
    A.apart B = true := by
  rw [← Bool.not_eq_true, clash_iff, apart_iff]
  constructor
  · intro h
    refine ⟨?_, h.queues⟩
    rintro ⟨x, y, hm⟩
    have hsame := h.subscribers [] x y
    simp [Events.dispatchLocal, Events.eventMatches_eq, hm] at hsame
  · rintro ⟨h, hqueues⟩
    constructor
    · intro x y he
      apply h
      refine ⟨x, y, ?_⟩
      rw [he, eventMatches_iff]
      exact (Glob.fits_refl _).matches
    · intro m m' w hm hm'
      apply hqueues m m'
      rw [storeQueue_of_workflow hm, storeQueue_of_workflow hm']
    · exact hqueues
    · intro subscribers pattern event
      apply List.filter_cons_of_neg
      rw [Events.eventMatches_eq]
      exact fun hm => h ⟨pattern, event, hm⟩
    · intro configs cfg on event
      have hnone : ¬ (A.workflow cfg on).triggers.any (fun p => eventMatches p (B.key event)) =
        true := by
        intro hany
        obtain ⟨p, hp, hm⟩ := List.any_eq_true.mp hany
        obtain ⟨x, rfl⟩ := mem_triggers_workflow hp
        exact h ⟨x, event, hm⟩
      exact congrArg (List.map _) (List.filter_cons_of_neg hnone)

/-- Two plain names are apart. -/
example : clash ("tenant1".toList.splitOn '.') ("tenant2".toList.splitOn '.') = false ∧
    (Namespace.mk "tenant1").apart ⟨"tenant2"⟩ = true := by decide +kernel

/-- The agents of one namespace are workflows of another. -/
example : clash ("acme".toList.splitOn '.') ("agent".toList.splitOn '.') = false ∧
    (Namespace.mk "acme").apart ⟨"agent"⟩ = false := by decide +kernel

/-- A colon in a tenant's name makes names of two tenants meet. -/
theorem tenants_meet : ¬ ∀ A B : Namespace, A.name ≠ B.name → A.Isolated B := by
  intro h
  have hcolon := h ⟨"acme"⟩ ⟨"acme:eu"⟩ (by decide)
  exact hcolon.names "eu:orders" "orders" (by decide)

end Namespace

end ZenZip
