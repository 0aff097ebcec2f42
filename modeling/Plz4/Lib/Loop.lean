/-
Loops without a bound: a pass goes on in a new state or breaks out with a result.

`Ends` is the derivation of a loop that comes to an end, with what each of its passes
takes from a resource. A function that runs the same passes with a count for fuel has
the result of the loop as soon as the count covers a measure (`Ends.of_fuel`).
-/
import Mathlib.Tactic

set_option autoImplicit false

namespace Loop

/-- What one pass of a loop comes to. -/
inductive Pass (σ ρ : Type*)
  | next (s : σ)
  | stop (r : ρ)

variable {σ ρ : Type*}

/-- What the loop comes to after the pass, if `f` is what it comes to in a state. -/
def Pass.resume (f : σ → ρ) : Pass σ ρ → ρ
  | .next s => f s
  | .stop r => r

@[simp] theorem Pass.resume_next (f : σ → ρ) (s : σ) : (Pass.next s).resume f = f s := rfl

@[simp] theorem Pass.resume_stop (f : σ → ρ) (r : ρ) : (Pass.stop r).resume f = r := rfl

variable (pass : σ → Pass σ ρ) (inner : σ → Prop) (left : σ → ℕ) (cost : ℕ)

/-- The loop from `s` ends in `r`: each pass has `inner`, which is to say that the loops
inside of it end, and each pass but the last takes at least `cost` of what is left. -/
inductive Ends : σ → ρ → Prop
  | stop {s : σ} {r : ρ} : inner s → pass s = .stop r → Ends s r
  | next {s s' : σ} {r : ρ} :
      inner s → pass s = .next s' → left s' + cost ≤ left s → Ends s' r → Ends s r

variable {pass inner left cost}

/-- **The rule for a function with fuel.** `f` runs the passes of the loop, the measure
`μ` falls with each, and `I` holds on the way; `P` holds of the result. -/
theorem Ends.of_fuel {I : σ → Prop} {P : ρ → Prop} {f : ℕ → σ → ρ} (μ : σ → ℕ)
    (hf : ∀ k s, f (k + 1) s = (pass s).resume (f k))
    (hinner : ∀ s, I s → inner s)
    (hstop : ∀ s r, I s → pass s = .stop r → P r)
    (hnext : ∀ s s', I s → pass s = .next s' → I s' ∧ left s' + cost ≤ left s ∧ μ s' < μ s)
    {k : ℕ} {s : σ} (hs : I s) (hk : μ s < k) :
    Ends pass inner left cost s (f k s) ∧ P (f k s) := by
  induction k generalizing s with
  | zero => omega
  | succ k ih =>
      rw [hf]
      rcases hpass : pass s with s' | r
      · obtain ⟨hI, hcost, hμ⟩ := hnext s s' hs hpass
        obtain ⟨hends, hP⟩ := ih hI (by omega)
        exact ⟨.next (hinner s hs) hpass hcost hends, hP⟩
      · exact ⟨.stop (hinner s hs) hpass, hstop s r hs hpass⟩

end Loop
