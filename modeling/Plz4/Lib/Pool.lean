/-
A pool of threads: a list of their states in which a step replaces one entry; the
numbers handed out so far, each once; and the wait group that counts the threads.
-/
import Mathlib.Data.List.Basic
import Mathlib.Tactic

set_option autoImplicit false

namespace Pool

variable {α : Type*}

/-- A weight summed over the pool after one thread moved from `x` to `y`. -/
theorem sum_set (f : α → ℕ) {l : List α} {i : ℕ} {x : α} (h : l[i]? = some x) (y : α) :
    ((l.set i y).map f).sum + f x = (l.map f).sum + f y := by
  induction l generalizing i with
  | nil => simp at h
  | cons a l ih =>
      cases i with
      | zero =>
          simp only [List.getElem?_cons_zero, Option.some.injEq] at h
          subst h
          simp only [List.set_cons_zero, List.map_cons, List.sum_cons]
          omega
      | succ i =>
          simp only [List.getElem?_cons_succ] at h
          have := ih h
          simp only [List.set_cons_succ, List.map_cons, List.sum_cons]
          omega

/-- What holds of every thread still does when it holds of the one that moved. -/
theorem forall_set {P : α → Prop} {l : List α} {i : ℕ} {y : α} (h : ∀ w ∈ l, P w) (hy : P y) :
    ∀ w ∈ l.set i y, P w := by
  intro w hw
  rcases List.mem_or_eq_of_mem_set hw with hw | rfl
  · exact h w hw
  · exact hy

/-- The other threads stay. -/
theorem mem_set_of_ne {l : List α} {i : ℕ} {x : α} (h : l[i]? = some x) (y : α) {w : α}
    (hw : w ∈ l) (hne : w ≠ x) : w ∈ l.set i y := by
  induction l generalizing i with
  | nil => simp at hw
  | cons a l ih =>
      cases i with
      | zero =>
          simp only [List.getElem?_cons_zero, Option.some.injEq] at h
          subst h
          simp only [List.mem_cons] at hw
          rcases hw with rfl | hw
          · exact absurd rfl hne
          · rw [List.set_cons_zero]
            exact List.mem_cons_of_mem y hw
      | succ i =>
          simp only [List.getElem?_cons_succ] at h
          simp only [List.mem_cons] at hw
          rw [List.set_cons_succ]
          rcases hw with rfl | hw
          · exact List.mem_cons_self
          · exact List.mem_cons_of_mem a (ih h hw)

/-- The thread that moved is in its new state. -/
theorem mem_set_self {l : List α} {i : ℕ} {x : α} (h : l[i]? = some x) (y : α) :
    y ∈ l.set i y := by
  obtain ⟨hlt, -⟩ := List.getElem?_eq_some_iff.mp h
  exact List.mem_set hlt y

/-- A weight summed over what is left when the entry that a search finds is taken out. -/
theorem sum_eraseP (f : α → ℕ) {p : α → Bool} {l : List α} {b : α} (h : l.find? p = some b) :
    ((l.eraseP p).map f).sum + f b = (l.map f).sum := by
  induction l with
  | nil => simp at h
  | cons a l ih =>
      by_cases ha : p a = true
      · rw [List.find?_cons_of_pos ha, Option.some.injEq] at h
        rw [List.eraseP_cons_of_pos ha, List.map_cons, List.sum_cons, h, Nat.add_comm]
      · rw [List.find?_cons_of_neg ha] at h
        rw [List.eraseP_cons_of_neg ha, List.map_cons, List.sum_cons, List.map_cons, List.sum_cons,
          Nat.add_assoc, ih h]

/-- The same where the entry is filtered out, and is the only one that is. -/
theorem sum_filter (f : α → ℕ) {p : α → Bool} {l : List α} {b : α} (hb : b ∈ l) (hp : p b = true)
    (hone : l.countP p ≤ 1) : ((l.filter (fun a => !p a)).map f).sum + f b = (l.map f).sum := by
  induction l with
  | nil => cases hb
  | cons a l ih =>
      by_cases ha : p a = true
      · -- the head is the one, and the rest has none
        have hrest : l.countP p = 0 := by
          rw [List.countP_cons_of_pos ha] at hone
          omega
        have hall : l.filter (fun a => !p a) = l := by
          rw [List.filter_eq_self]
          intro x hx
          rw [Bool.not_eq_true', ← Bool.not_eq_true]
          exact List.countP_eq_zero.mp hrest x hx
        have hab : b = a := by
          rcases List.mem_cons.mp hb with rfl | hb
          · rfl
          · exact absurd hp (List.countP_eq_zero.mp hrest b hb)
        rw [List.filter_cons_of_neg (by simpa using ha), hall, hab, List.map_cons, List.sum_cons,
          Nat.add_comm]
      · rcases List.mem_cons.mp hb with rfl | hb
        · exact absurd hp ha
        · rw [List.countP_cons_of_neg ha] at hone
          rw [List.filter_cons_of_pos (by simpa using ha), List.map_cons, List.sum_cons,
            List.map_cons, List.sum_cons, Nat.add_assoc, ih hb hone]

/-- An entry counts for no more than the whole. -/
theorem le_sum_of_mem (f : α → ℕ) {l : List α} {x : α} (h : x ∈ l) : f x ≤ (l.map f).sum :=
  List.single_le_sum (fun _ _ => Nat.zero_le _) _ (List.mem_map_of_mem h)

/-- The numbers below `n`, each once. -/
def upTo (n k : ℕ) : ℕ := if k < n then 1 else 0

theorem upTo_succ (n k : ℕ) : upTo (n + 1) k = upTo n k + [n].count k := by
  simp only [upTo, List.count_singleton, beq_iff_eq]
  split_ifs <;> omega

theorem upTo_le_one (n k : ℕ) : upTo n k ≤ 1 := by
  unfold upTo
  split_ifs <;> omega

/-- The books of a pool: a number handed out is given back or out, once. -/
def Books (returned : List ℕ) (out : ℕ → ℕ) (borrowed : ℕ) : Prop :=
  ∀ k, returned.count k + out k = upTo borrowed k

/-- Nothing is given back twice, or without having been handed out. -/
theorem Books.nodup {returned : List ℕ} {out : ℕ → ℕ} {borrowed : ℕ}
    (h : Books returned out borrowed) : returned.Nodup ∧ ∀ k ∈ returned, k < borrowed := by
  constructor
  · rw [List.nodup_iff_count_le_one]
    intro k
    have hk := h k
    have hone := upTo_le_one borrowed k
    omega
  · intro k hk
    have hpos := List.count_pos_iff.mpr hk
    have hle := h k
    by_contra hge
    rw [upTo, if_neg hge] at hle
    omega

/-- What is out was handed out, and has not been given back. -/
theorem Books.of_out {returned : List ℕ} {out : ℕ → ℕ} {borrowed : ℕ}
    (h : Books returned out borrowed) {k : ℕ} (hk : 0 < out k) :
    k < borrowed ∧ k ∉ returned := by
  have hone := upTo_le_one borrowed k
  have hsum := h k
  constructor
  · by_contra hge
    rw [upTo, if_neg hge] at hsum
    omega
  · intro hmem
    have hpos := List.count_pos_iff.mpr hmem
    omega

/-- Where nothing is out everything has been given back. -/
theorem Books.perm {returned : List ℕ} {out : ℕ → ℕ} {borrowed : ℕ}
    (h : Books returned out borrowed) (hout : ∀ k, out k = 0) :
    returned.Perm (List.range borrowed) := by
  rw [List.perm_iff_count]
  intro k
  have hk := h k
  rw [hout k, Nat.add_zero] at hk
  rw [hk, upTo, List.count_range]

/-! ## Wait groups -/

/-- A wait group: the sum of what `Add` was given, and the counter. -/
structure WaitGroup where
  added : ℤ
  count : ℤ
  deriving DecidableEq, Repr

namespace WaitGroup

/-- A sum as the counter holds it, in 32 bits. -/
def wrap (n : ℤ) : ℤ := n.bmod (2 ^ 32)

/-- `Add`. A counter below zero is a panic. -/
def add (w : WaitGroup) (delta : ℤ) : Option WaitGroup :=
  if wrap (w.count + delta) < 0 then none else some ⟨w.added + delta, wrap (w.count + delta)⟩

/-- `Done`, which gives back what was added for one thread. -/
def done (w : WaitGroup) : Option WaitGroup :=
  if wrap (w.count - 1) < 0 then none else some { w with count := wrap (w.count - 1) }

theorem wrap_of_lt {n : ℤ} (hn : 0 ≤ n) (hlt : n < 2 ^ 31) : wrap n = n := by
  rw [wrap, Int.bmod_eq_emod]
  push_cast
  split_ifs <;> omega

theorem wrap_lt (n : ℤ) : wrap n < 2 ^ 31 := by
  rw [wrap, Int.bmod_eq_emod]
  push_cast
  split_ifs <;> omega

/-- One above what the counter holds. -/
theorem wrap_overflow : wrap (2 ^ 31) = -2 ^ 31 := by decide

theorem add_of_lt {w : WaitGroup} {delta : ℤ} (h : 0 ≤ w.count + delta)
    (hlt : w.count + delta < 2 ^ 31) :
    w.add delta = some ⟨w.added + delta, w.count + delta⟩ := by
  rw [add, wrap_of_lt h hlt, if_neg (by omega)]

theorem done_of_pos {w : WaitGroup} (h : 0 < w.count) (hlt : w.count < 2 ^ 31) :
    w.done = some { w with count := w.count - 1 } := by
  rw [done, wrap_of_lt (by omega) (by omega), if_neg (by omega)]

end WaitGroup

end Pool
