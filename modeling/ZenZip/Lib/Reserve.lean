import ZenZip.Lib.Pool
import ZenZip.Lib.Run
import Mathlib.Algebra.GroupWithZero.Nat

namespace ZenZip.Lib

namespace Reserve

/-- A counter, what each party is about to add to it after a look at it, and what has been added
without a look. -/
structure State where
  count : Nat
  held : List Nat
  extra : Nat

/-- A party reserves what a look has left below the limit, while the others hold no more than
`crowd`. -/
inductive Step (limit : Int) (crowd : Nat) : State → State → Prop
  | join (σ) : Step limit crowd σ { σ with held := σ.held ++ [0] }
  | reserve (σ) (i m n) (h : σ.held[i]? = some m) (hroom : (σ.count + n : Nat) ≤ limit)
      (hcrowd : (σ.held.eraseIdx i).sum ≤ crowd) : Step limit crowd σ
        { σ with held := σ.held.set i n }
  | spend (σ) (i m n count) (h : σ.held[i]? = some m) (hle : count + n ≤ σ.count + m) :
      Step limit crowd σ { σ with count, held := σ.held.set i n }
  | outside (σ) (count n) (hle : count ≤ σ.count + n) : Step limit crowd σ
    ⟨count, σ.held, σ.extra + n⟩

def Within (bound : Int) (σ : State) : Prop := (σ.count + σ.held.sum : Nat) ≤ bound + σ.extra

variable {limit bound : Int} {crowd : Nat} {σ σ' : State}

theorem Step.within (hb : limit + crowd ≤ bound) (h : Step limit crowd σ σ') (hσ : Within bound σ) :
    Within bound σ' := by
  rw [Within] at hσ
  cases h with
  | join =>
      rw [Within, List.sum_append, List.sum_singleton]
      exact hσ
  | reserve i m n h hroom hcrowd =>
      obtain ⟨front, back, -, hset, hrest⟩ := getElem?_split h
      rw [hrest, List.sum_append] at hcrowd
      rw [Within, hset, List.sum_append, List.sum_cons]
      dsimp only
      omega
  | spend i m n count h hle =>
      obtain ⟨front, back, heq, hset, -⟩ := getElem?_split h
      rw [heq, List.sum_append, List.sum_cons] at hσ
      rw [Within, hset, List.sum_append, List.sum_cons]
      dsimp only
      omega
  | outside count n hle =>
      rw [Within]
      dsimp only
      omega

/-- What a concrete system counts stays within its bound, when each of its steps is one of these. -/
theorem within_of_run {S L : Type} {step : S → L → Option S} {ok : S → L → Bool} {s s' : S}
    (abs : S → State) (I : S → Prop)
    (hs : I s) (hI : ∀ s l s', I s → ok s l = true → step s l = some s' →
    I s' ∧ Step limit crowd (abs s) (abs s'))
    (hb : limit + crowd ≤ bound) (h₀ : Within bound (abs s)) (h : Run step ok s s') :
    Within bound (abs s') := by
  have hinv :=
    h.invariant (fun s => I s ∧ Within bound (abs s)) ⟨hs, h₀⟩ (fun s l s' _ hw hok he => by
    obtain ⟨hi, hstep⟩ := hI s l s' hw.1 hok he
    exact ⟨hi, hstep.within hb hw.2⟩)
  exact hinv.2

end Reserve

end ZenZip.Lib
