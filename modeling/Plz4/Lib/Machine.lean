/-
Machines: a partial step function over labelled actions, its runs, and the rules
for invariants, for simulation, for termination and for progress.

A concurrent program is the machine whose actions name which component moves
(and which of its choices it takes), so one list of actions is one interleaving
and the runs are every interleaving. `step s a = none` says that `a` is not
enabled in `s`.
-/
import Mathlib.Data.List.Basic
import Mathlib.Tactic

set_option autoImplicit false

namespace Machine

variable {S A : Type*} (step : S → A → Option S)

/-- The state after a list of actions, if each is enabled where it is taken. -/
def run (s : S) : List A → Option S
  | [] => some s
  | a :: as => (step s a).bind (fun s' => run s' as)

/-- No action is enabled. -/
def Stuck (s : S) : Prop := ∀ a, step s a = none

@[simp] theorem run_nil (s : S) : run step s [] = some s := rfl

theorem run_cons (s : S) (a : A) (as : List A) :
    run step s (a :: as) = (step s a).bind (fun s' => run step s' as) := rfl

variable {step}

theorem run_singleton (s : S) (a : A) : run step s [a] = step s a := by
  rw [run_cons]
  exact Option.bind_fun_some _

/-- A non-empty run is a first step and a run of the rest. -/
theorem run_cons_eq_some {s s' : S} {a : A} {as : List A} :
    run step s (a :: as) = some s' ↔ ∃ s₁, step s a = some s₁ ∧ run step s₁ as = some s' := by
  rw [run_cons, Option.bind_eq_some_iff]

theorem run_append {s s' : S} {as bs : List A} :
    run step s (as ++ bs) = some s'
      ↔ ∃ s₁, run step s as = some s₁ ∧ run step s₁ bs = some s' := by
  induction as generalizing s with
  | nil => simp
  | cons a as ih =>
      simp only [List.cons_append, run_cons_eq_some, ih]
      constructor
      · rintro ⟨s₁, h₁, s₂, h₂, h₃⟩
        exact ⟨s₂, ⟨s₁, h₁, h₂⟩, h₃⟩
      · rintro ⟨s₂, ⟨s₁, h₁, h₂⟩, h₃⟩
        exact ⟨s₁, h₁, s₂, h₂, h₃⟩

/-- A run, then another from where the first has come to. -/
theorem exists_run_append {P : S → Prop} {s s₁ : S} {as bs : List A} (h : run step s as = some s₁)
    (h' : ∃ s', run step s₁ bs = some s' ∧ P s') : ∃ s', run step s (as ++ bs) = some s' ∧ P s' := by
  obtain ⟨s', hs', hP⟩ := h'
  exact ⟨s', run_append.mpr ⟨s₁, h, hs'⟩, hP⟩

/-- What a step preserves, a run preserves. -/
theorem invariant_run {I : S → Prop} (hstep : ∀ s a s', I s → step s a = some s' → I s')
    {s s' : S} {as : List A} (hs : I s) (hrun : run step s as = some s') : I s' := by
  induction as generalizing s with
  | nil =>
      simp only [run_nil, Option.some.injEq] at hrun
      exact hrun ▸ hs
  | cons a as ih =>
      obtain ⟨s₁, h₁, h₂⟩ := run_cons_eq_some.mp hrun
      exact ih (hstep _ _ _ hs h₁) h₂

/-- The same with a condition on the actions of the run. -/
theorem invariant_run_of {I : S → Prop} {P : A → Prop}
    (hstep : ∀ s a s', P a → I s → step s a = some s' → I s')
    {s s' : S} {as : List A} (has : ∀ a ∈ as, P a) (hs : I s)
    (hrun : run step s as = some s') : I s' := by
  induction as generalizing s with
  | nil =>
      simp only [run_nil, Option.some.injEq] at hrun
      exact hrun ▸ hs
  | cons a as ih =>
      obtain ⟨s₁, h₁, h₂⟩ := run_cons_eq_some.mp hrun
      exact ih (fun b hb => has b (List.mem_cons_of_mem a hb))
        (hstep _ _ _ (has a List.mem_cons_self) hs h₁) h₂

/-- The same with a condition on the states the run goes through. -/
theorem invariant_run_along {I Q : S → Prop}
    (hstep : ∀ s a s', Q s → I s → step s a = some s' → I s') {s s' : S} {as : List A}
    (hQ : ∀ pre t, pre <+: as → run step s pre = some t → Q t) (hs : I s)
    (hrun : run step s as = some s') : I s' := by
  induction as generalizing s with
  | nil =>
      simp only [run_nil, Option.some.injEq] at hrun
      exact hrun ▸ hs
  | cons a as ih =>
      obtain ⟨s₁, h₁, h₂⟩ := run_cons_eq_some.mp hrun
      refine ih (fun pre t hpre ht => ?_) (hstep _ _ _ (hQ [] s (List.nil_prefix) rfl) hs h₁) h₂
      exact hQ (a :: pre) t (List.cons_prefix_cons.mpr ⟨rfl, hpre⟩)
        (run_cons_eq_some.mpr ⟨s₁, h₁, ht⟩)

/-- A machine simulates another one: what one does in a step, the other does in some steps or
none. Then it does so over whole runs. -/
theorem simulates_run {T B : Type*} {step' : T → B → Option T} {R : S → T → Prop}
    (hsim : ∀ s a s' t, R s t → step s a = some s' → ∃ bs t', run step' t bs = some t' ∧ R s' t')
    {s s' : S} {t : T} {as : List A} (h : R s t) (hrun : run step s as = some s') :
    ∃ bs t', run step' t bs = some t' ∧ R s' t' := by
  induction as generalizing s t with
  | nil =>
      simp only [run_nil, Option.some.injEq] at hrun
      subst hrun
      exact ⟨[], t, rfl, h⟩
  | cons a as ih =>
      obtain ⟨s₁, h₁, h₂⟩ := run_cons_eq_some.mp hrun
      obtain ⟨bs, t₁, hbs, hR⟩ := hsim s a s₁ t h h₁
      obtain ⟨bs', t', hbs', hR'⟩ := ih hR h₂
      exact ⟨bs ++ bs', t', run_append.mpr ⟨t₁, hbs, hbs'⟩, hR'⟩

/-- A measure that every step lowers bounds the length of every run. -/
theorem length_run_le {I : S → Prop} {P : A → Prop} (μ : S → ℕ)
    (hstep : ∀ s a s', P a → I s → step s a = some s' → I s' ∧ μ s' < μ s)
    {s s' : S} {as : List A} (has : ∀ a ∈ as, P a) (hs : I s)
    (hrun : run step s as = some s') : as.length + μ s' ≤ μ s := by
  induction as generalizing s with
  | nil =>
      simp only [run_nil, Option.some.injEq] at hrun
      subst hrun
      simp
  | cons a as ih =>
      obtain ⟨s₁, h₁, h₂⟩ := run_cons_eq_some.mp hrun
      obtain ⟨hI, hμ⟩ := hstep _ _ _ (has a List.mem_cons_self) hs h₁
      have := ih (fun b hb => has b (List.mem_cons_of_mem a hb)) hI h₂
      simp only [List.length_cons]
      omega

/-- Where something can move until the end, and a measure bounds the moves, the end can
be reached. -/
theorem exists_run {I E : S → Prop} {P : A → Prop} (μ : S → ℕ)
    (hstep : ∀ s a s', P a → I s → step s a = some s' → I s' ∧ μ s' < μ s)
    (hmove : ∀ s, I s → ¬ E s → ∃ a, P a ∧ (step s a).isSome = true) {s : S} (hs : I s) :
    ∃ as s', (∀ a ∈ as, P a) ∧ run step s as = some s' ∧ E s' := by
  generalize hn : μ s = n
  induction n using Nat.strongRecOn generalizing s with
  | ind n ih =>
      by_cases hdone : E s
      · exact ⟨[], s, (by rintro _ ⟨⟩), rfl, hdone⟩
      · obtain ⟨a, ha, hen⟩ := hmove s hs hdone
        obtain ⟨s₁, h₁⟩ := Option.isSome_iff_exists.mp hen
        obtain ⟨hI, hμ⟩ := hstep s a s₁ ha hs h₁
        obtain ⟨as, s', has, hrun, hend⟩ := ih (μ s₁) (hn ▸ hμ) hI rfl
        refine ⟨a :: as, s', ?_, run_cons_eq_some.mpr ⟨s₁, h₁, hrun⟩, hend⟩
        intro b hb
        rcases List.mem_cons.mp hb with rfl | hb
        · exact ha
        · exact has b hb

/-- Where something can always move, there are runs of any length. -/
theorem exists_run_length {I : S → Prop} (hstep : ∀ s a s', I s → step s a = some s' → I s')
    (hmove : ∀ s, I s → ∃ a, (step s a).isSome = true) {s : S} (hs : I s) (n : ℕ) :
    ∃ as s', run step s as = some s' ∧ as.length = n := by
  induction n generalizing s with
  | zero => exact ⟨[], s, rfl, rfl⟩
  | succ n ih =>
      obtain ⟨a, hen⟩ := hmove s hs
      obtain ⟨s₁, h₁⟩ := Option.isSome_iff_exists.mp hen
      obtain ⟨as, s', hrun, hlen⟩ := ih (hstep s a s₁ hs h₁)
      exact ⟨a :: as, s', run_cons_eq_some.mpr ⟨s₁, h₁, hrun⟩, by rw [List.length_cons, hlen]⟩

end Machine
