/-
Prefix readers: functions that take something off the front of a list and return
the rest.

`Exact f Short q a` says that on an input that starts with `q` the reader `f`
takes exactly `q` and returns `a`, whatever follows, and that on every proper
prefix of `q` its result is `Short`. Readers run one after the other compose
(`Exact.andThen`), so a statement about truncated input is proved once for each
read and never for a position in the whole input.
-/
import Mathlib.Data.List.Basic
import Mathlib.Tactic

set_option autoImplicit false

namespace Reads

variable {α ρ σ : Type*}

/-- A prefix of `a ++ b` ends inside `a` or inside `b`. -/
theorem prefix_append_cases {p a b : List α} (h : p <+: a ++ b) :
    (p <+: a ∧ p ≠ a) ∨ ∃ p', p = a ++ p' ∧ p' <+: b := by
  rcases List.prefix_or_prefix_of_prefix h (List.prefix_append a b) with hpa | hap
  · by_cases heq : p = a
    · exact .inr ⟨[], by rw [heq, List.append_nil], List.nil_prefix⟩
    · exact .inl ⟨hpa, heq⟩
  · obtain ⟨p', rfl⟩ := hap
    exact .inr ⟨p', rfl, (List.prefix_append_right_inj a).mp h⟩

/-- The reader takes exactly `q`, and any less is `Short`. -/
structure Exact (f : List α → ρ × List α) (Short : ρ → Prop) (q : List α) (a : ρ) : Prop where
  append : ∀ t, f (q ++ t) = (a, t)
  short : ∀ p, p <+: q → p ≠ q → Short (f p).1

variable {f : List α → ρ × List α} {g : ρ → List α → σ × List α} {Short : ρ → Prop}
  {Short' : σ → Prop}

/-- A reader that takes nothing. -/
theorem Exact.nil {a : ρ} (h : ∀ t, f t = (a, t)) : Exact f Short [] a := by
  refine ⟨fun t => by rw [List.nil_append, h], fun p hp hne => ?_⟩
  exact absurd (List.prefix_nil.mp hp) hne

/-- One reader after the other, when a short first read stays short. -/
theorem Exact.andThen {q₁ q₂ : List α} {a : ρ} {b : σ} (hf : Exact f Short q₁ a)
    (hg : Exact (g a) Short' q₂ b) (hshort : ∀ x r, Short x → Short' (g x r).1) :
    Exact (fun s => g (f s).1 (f s).2) Short' (q₁ ++ q₂) b := by
  refine ⟨fun t => ?_, fun p hp hne => ?_⟩
  · rw [List.append_assoc, hf.append, hg.append]
  · rcases prefix_append_cases hp with ⟨hpre, hne'⟩ | ⟨p', rfl, hpre⟩
    · exact hshort _ _ (hf.short p hpre hne')
    · rw [hf.append]
      refine hg.short p' hpre ?_
      rintro rfl
      exact hne rfl

/-- The same reader under another name. -/
theorem Exact.congr {f' : List α → ρ × List α} {q : List α} {a : ρ} (h : Exact f Short q a)
    (heq : ∀ s, f' s = f s) : Exact f' Short q a :=
  ⟨fun t => by rw [heq, h.append], fun p hp hne => by rw [heq]; exact h.short p hp hne⟩

/-- What is taken exactly is not a proper part of what else is. -/
theorem eq_of_prefix {q q' : List α} {a a' : ρ} (h : ∀ t, f (q ++ t) = (a, t))
    (h' : ∀ t, f (q' ++ t) = (a', t)) (hpre : q' <+: q) : q' = q ∧ a' = a := by
  obtain ⟨t, rfl⟩ := hpre
  have hq := h []
  rw [List.append_nil, h', Prod.mk.injEq] at hq
  rw [hq.2, List.append_nil]
  exact ⟨rfl, hq.1⟩

end Reads
