/-
Back references: a list extended by elements that stand some distance before them.

`extend xs d n` appends `n` elements to `xs`, each a copy of the one `d` places
before it, so a reference that overlaps its own output repeats a pattern of length
`d`. A copy in chunks, a copy at a multiple of the distance and a copy that goes too
far and is cut off again are all the same extension, which is what the copy loops of a
decoder rest on. For an encoder, an extension whose elements have been compared with
the input gives a longer prefix of the input (`extend_take`), and `common` is how far two
lists can be compared.
-/
import Mathlib.Data.List.GetD
import Mathlib.Tactic

set_option autoImplicit false

namespace Lz77

variable {α : Type*} [Inhabited α]

/-- `xs` and `n` elements more, each the one `d` places before it. What stands before
the list, and the element at distance 0, is the default one. -/
def extend (xs : List α) (d : ℕ) : ℕ → List α
  | 0 => xs
  | n + 1 => extend xs d n ++ [(extend xs d n).getD ((extend xs d n).length - d) default]

@[simp] theorem extend_zero (xs : List α) (d : ℕ) : extend xs d 0 = xs := rfl

theorem extend_succ (xs : List α) (d n : ℕ) :
    extend xs d (n + 1)
      = extend xs d n ++ [(extend xs d n).getD ((extend xs d n).length - d) default] := rfl

@[simp] theorem length_extend (xs : List α) (d n : ℕ) :
    (extend xs d n).length = xs.length + n := by
  induction n with
  | zero => rfl
  | succ n ih =>
      rw [extend_succ, List.length_append, ih]
      rfl

/-- An extension in two pieces. -/
theorem extend_extend (xs : List α) (d m n : ℕ) :
    extend (extend xs d m) d n = extend xs d (m + n) := by
  induction n with
  | zero => rfl
  | succ n ih => rw [extend_succ, ih, ← extend_succ, Nat.add_assoc]

/-- An extension that went too far, cut off. -/
theorem take_extend (xs : List α) (d : ℕ) {m n : ℕ} (h : m ≤ n) :
    (extend xs d n).take (xs.length + m) = extend xs d m := by
  induction n with
  | zero =>
      obtain rfl : m = 0 := by omega
      exact List.take_length
  | succ n ih =>
      rcases Nat.eq_or_lt_of_le h with rfl | hlt
      · rw [List.take_of_length_le (by rw [length_extend])]
      · rw [extend_succ, List.take_append_of_le_length (by rw [length_extend]; omega)]
        exact ih (by omega)

theorem prefix_extend (xs : List α) (d : ℕ) {m n : ℕ} (h : m ≤ n) :
    extend xs d m <+: extend xs d n := by
  rw [← take_extend xs d h]
  exact List.take_prefix _ _

/-- What was there stays. -/
theorem getD_extend_of_lt (xs : List α) (d n : ℕ) {i : ℕ} (h : i < xs.length) (a : α) :
    (extend xs d n).getD i a = xs.getD i a := by
  induction n with
  | zero => rfl
  | succ n ih =>
      rw [extend_succ, List.getD_append _ _ _ _ (by rw [length_extend]; omega), ih]

/-- Each new element is the one `d` places before it. -/
theorem getD_extend (xs : List α) {d n i : ℕ} (hd : 0 < d) (hi : xs.length ≤ i)
    (hn : i < xs.length + n) :
    (extend xs d n).getD i default = (extend xs d n).getD (i - d) default := by
  induction n with
  | zero => omega
  | succ n ih =>
      have hlen := length_extend xs d n
      rcases Nat.eq_or_lt_of_le (show i ≤ xs.length + n by omega) with heq | hlt
      · -- the last element
        subst heq
        by_cases hpos : 0 < xs.length + n
        · rw [extend_succ, List.getD_append_right _ _ _ _ (by omega),
            List.getD_append _ _ _ _ (by omega), hlen, Nat.sub_self]
          rfl
        · rw [show xs.length + n - d = xs.length + n by omega]
      · rw [extend_succ, List.getD_append _ _ _ _ (by omega),
          List.getD_append _ _ _ _ (by omega), ih hlt]

/-- A reference that does not overlap its output copies what stands there. -/
theorem extend_of_le (xs : List α) {d n : ℕ} (hn : n ≤ d) (hd : d ≤ xs.length) :
    extend xs d n = xs ++ (xs.drop (xs.length - d)).take n := by
  induction n with
  | zero => rw [List.take_zero, List.append_nil, extend_zero]
  | succ n ih =>
      have hidx : xs.length + n - d < xs.length := by omega
      rw [extend_succ, length_extend, getD_extend_of_lt _ _ _ hidx, ih (by omega), List.append_assoc,
        List.take_add_one, List.getElem?_drop, show xs.length - d + n = xs.length + n - d by omega,
        List.getD_eq_getElem _ _ hidx, List.getElem?_eq_getElem hidx]
      rfl

/-- A reference within `ys` does not see what stands before. -/
theorem extend_append (xs ys : List α) {d : ℕ} (n : ℕ) (hd : d ≤ ys.length) :
    extend (xs ++ ys) d n = xs ++ extend ys d n := by
  induction n with
  | zero => rfl
  | succ n ih =>
      have hlen := length_extend ys d n
      rw [extend_succ, ih, extend_succ, List.length_append, List.append_assoc,
        List.getD_append_right _ _ _ _ (by omega),
        show xs.length + (extend ys d n).length - d - xs.length = (extend ys d n).length - d by omega]

/-- A step back of `k` distances. -/
theorem getD_extend_mul (xs : List α) {d n k i : ℕ} (hd : 0 < d)
    (hi : xs.length + k * d ≤ i + d) (hn : i < xs.length + n) :
    (extend xs d n).getD i default = (extend xs d n).getD (i - k * d) default := by
  induction k with
  | zero => rw [Nat.zero_mul, Nat.sub_zero]
  | succ k ih =>
      rw [Nat.succ_mul] at hi ⊢
      rw [ih (by omega), getD_extend xs hd (i := i - k * d) (by omega) (by omega), Nat.sub_sub]

/-- Once a pattern has been repeated, a multiple of its length will do for the distance. -/
theorem extend_mul (xs : List α) {d m k : ℕ} (n : ℕ) (hd : 0 < d) (hk : 0 < k)
    (hm : k * d ≤ m + d) :
    extend (extend xs d m) (k * d) n = extend xs d (m + n) := by
  obtain ⟨j, rfl⟩ : ∃ j, k = j + 1 := ⟨k - 1, by omega⟩
  rw [Nat.succ_mul] at hm ⊢
  induction n with
  | zero => rfl
  | succ n ih =>
      rw [extend_succ, ih, ← Nat.add_assoc, extend_succ, length_extend, ← Nat.sub_sub,
        Nat.sub_right_comm]
      by_cases hlong : d ≤ xs.length + (m + n)
      · rw [← getD_extend_mul xs (k := j) (i := xs.length + (m + n) - d) hd (by omega) (by omega)]
      · rw [show xs.length + (m + n) - d - j * d = xs.length + (m + n) - d by omega]

/-- Whole repetitions of the last `d` elements. -/
theorem extend_repeat (xs : List α) {d : ℕ} (hd : d ≤ xs.length) (k : ℕ) :
    extend xs d (k * d) = xs ++ (List.replicate k (xs.drop (xs.length - d))).flatten := by
  induction k with
  | zero => rw [Nat.zero_mul, extend_zero, List.replicate_zero, List.flatten_nil, List.append_nil]
  | succ k ih =>
      have hunit : (xs.drop (xs.length - d)).length = d := by
        rw [List.length_drop]
        omega
      have hlen : (xs ++ (List.replicate k (xs.drop (xs.length - d))).flatten).length
          = xs.length + k * d := by
        rw [← ih, length_extend]
      have hlast : (xs ++ (List.replicate k (xs.drop (xs.length - d))).flatten).drop
          (xs.length + k * d - d) = xs.drop (xs.length - d) := by
        rcases k with _ | k
        · rw [Nat.zero_mul, Nat.add_zero, List.replicate_zero, List.flatten_nil, List.append_nil]
        · rw [List.length_append, Nat.add_left_cancel_iff] at hlen
          rw [List.replicate_succ', List.flatten_append, List.flatten_singleton, ← List.append_assoc,
            List.drop_left']
          rw [List.replicate_succ', List.flatten_append, List.flatten_singleton, List.length_append,
            hunit] at hlen
          rw [List.length_append]
          omega
      rw [Nat.succ_mul, ← extend_extend, ih, extend_of_le _ (le_refl d) (by omega), hlen, hlast,
        List.take_of_length_le (by omega), List.replicate_succ', List.flatten_append,
        List.flatten_singleton, List.append_assoc]

/-- At distance 0 there is nothing but the default element. -/
theorem extend_dist_zero (xs : List α) (n : ℕ) :
    extend xs 0 n = xs ++ List.replicate n default := by
  induction n with
  | zero => rw [List.replicate_zero, List.append_nil, extend_zero]
  | succ n ih =>
      rw [extend_succ, Nat.sub_zero, List.getD_eq_default _ _ (le_refl _), ih, List.append_assoc,
        List.replicate_succ']

/-- **A reference that has been compared.** If the elements from `p` on are those at
distance `d`, the extension of the first `p` elements is a longer prefix. -/
theorem extend_take {input : List α} {p d n : ℕ} (hd : 0 < d) (hp : d ≤ p)
    (hn : p + n ≤ input.length)
    (hsame : ∀ i < n, input.getD (p + i) default = input.getD (p + i - d) default) :
    extend (input.take p) d n = input.take (p + n) := by
  have hlen : (input.take p).length = p := by
    rw [List.length_take]
    omega
  induction n with
  | zero => rfl
  | succ n ih =>
      have hprev := ih (by omega) (fun i hi => hsame i (by omega))
      have hlt : p + n < input.length := by omega
      have helem : (input.take (p + n)).getD (p + n - d) default = input.getD (p + n) default := by
        rw [hsame n (by omega), List.getD_eq_getElem?_getD, List.getElem?_take_of_lt (by omega),
          ← List.getD_eq_getElem?_getD]
      rw [extend_succ, length_extend, hlen, hprev, helem, ← Nat.add_assoc, List.take_add_one,
        List.getElem?_eq_getElem hlt, List.getD_eq_getElem _ _ hlt]
      rfl

/-! ## Comparing -/

variable {α : Type*} [DecidableEq α]

/-- How many elements two lists have in common at their beginnings. -/
def common : List α → List α → ℕ
  | x :: xs, y :: ys => if x = y then common xs ys + 1 else 0
  | _, _ => 0

theorem le_common_iff {xs ys : List α} {k : ℕ} :
    k ≤ common xs ys ↔ k ≤ xs.length ∧ k ≤ ys.length ∧ xs.take k = ys.take k := by
  induction xs generalizing ys k with
  | nil => cases ys <;> cases k <;> simp [common]
  | cons x xs ih =>
      rcases ys with _ | ⟨y, ys⟩
      · cases k <;> simp [common]
      · rw [common]
        rcases k with _ | k
        · simp
        · by_cases hxy : x = y
          · rw [if_pos hxy, Nat.add_le_add_iff_right, ih]
            simp [hxy]
          · rw [if_neg hxy]
            simp [hxy]

theorem common_le_left (xs ys : List α) : common xs ys ≤ xs.length :=
  (le_common_iff.mp (le_refl _)).1

theorem take_common (xs ys : List α) : xs.take (common xs ys) = ys.take (common xs ys) :=
  (le_common_iff.mp (le_refl _)).2.2

/-- A piece that agrees counts whole. -/
theorem common_append (xs ys zs : List α) : common (xs ++ ys) (xs ++ zs) = xs.length + common ys zs := by
  induction xs with
  | nil => simp
  | cons x xs ih =>
      rw [List.cons_append, List.cons_append, common, if_pos rfl, ih, List.length_cons]
      omega

/-- Behind a piece that does not agree nothing counts. -/
theorem common_append_of_ne {xs ys : List α} (zs ws : List α) (hlen : xs.length = ys.length)
    (hne : xs ≠ ys) : common (xs ++ zs) (ys ++ ws) = common xs ys ∧ common xs ys < xs.length := by
  induction xs generalizing ys with
  | nil =>
      obtain rfl : ys = [] := List.length_eq_zero_iff.mp hlen.symm
      exact absurd rfl hne
  | cons x xs ih =>
      rcases ys with _ | ⟨y, ys⟩
      · cases hlen
      · rw [List.cons_append, List.cons_append, common, common, List.length_cons]
        by_cases hxy : x = y
        · subst hxy
          obtain ⟨heq, hlt⟩ := ih (Nat.succ_injective hlen) (fun h => hne (by rw [h]))
          rw [if_pos rfl, if_pos rfl, heq]
          exact ⟨rfl, by omega⟩
        · rw [if_neg hxy, if_neg hxy]
          exact ⟨rfl, Nat.succ_pos _⟩

end Lz77
