/-
Cutting a list into consecutive pieces of a fixed length.

`cut n xs` is the list of pieces of exactly `n` elements with a shorter
non-empty remainder last. The recursion is on a counter that the length of the
list bounds, so `cut` computes; `cut_of_ne_nil` is the equation every proof uses.
-/
import Mathlib.Data.List.Basic
import Mathlib.Tactic

set_option autoImplicit false

namespace Cut

variable {α : Type*}

/-- `cut` with a counter for the recursion: at most `k` pieces. -/
def cutAux (n : ℕ) : ℕ → List α → List (List α)
  | 0, _ => []
  | _ + 1, [] => []
  | k + 1, x :: xs => (x :: xs).take n :: cutAux n k ((x :: xs).drop n)

/-- Consecutive pieces of exactly `n` elements, and a shorter non-empty rest. -/
def cut (n : ℕ) (xs : List α) : List (List α) := cutAux n xs.length xs

@[simp] theorem cut_nil (n : ℕ) : cut n ([] : List α) = [] := rfl

/-- The counter does not matter once it covers the length: two counters that do
agree, by induction on the first. -/
theorem cutAux_congr {n : ℕ} (hn : 0 < n) (k m : ℕ) (xs : List α)
    (hk : xs.length ≤ k) (hm : xs.length ≤ m) : cutAux n k xs = cutAux n m xs := by
  induction k generalizing m xs with
  | zero =>
      have hnil : xs = [] := List.length_eq_zero_iff.mp (by omega)
      subst hnil
      cases m <;> rfl
  | succ k ih =>
      rcases xs with _ | ⟨x, xs⟩
      · cases m <;> rfl
      · obtain ⟨m, rfl⟩ : ∃ m', m = m' + 1 := ⟨m - 1, by simp at hm; omega⟩
        have hdrop : ((x :: xs).drop n).length ≤ xs.length := by
          simp only [List.length_drop, List.length_cons]
          omega
        simp only [List.length_cons] at hk hm
        rw [cutAux, cutAux, ih m _ (by omega) (by omega)]

/-- One piece, then the pieces of the rest. -/
theorem cut_of_ne_nil {n : ℕ} (hn : 0 < n) {xs : List α} (hne : xs ≠ []) :
    cut n xs = xs.take n :: cut n (xs.drop n) := by
  obtain ⟨x, xs, rfl⟩ := List.exists_cons_of_ne_nil hne
  have hdrop : ((x :: xs).drop n).length ≤ xs.length := by
    simp only [List.length_drop, List.length_cons]
    omega
  rw [cut, List.length_cons, cutAux, cut, cutAux_congr hn _ _ _ hdrop (Nat.le_refl _)]

/-- A full piece in front comes off whole. -/
theorem cut_append {n : ℕ} (hn : 0 < n) {xs : List α} (ys : List α) (h : xs.length = n) :
    cut n (xs ++ ys) = xs :: cut n ys := by
  have hne : xs ++ ys ≠ [] := by
    intro hnil
    have : xs = [] := (List.append_eq_nil_iff.mp hnil).1
    subst this
    simp at h
    omega
  rw [cut_of_ne_nil hn hne, List.take_left' h, List.drop_left' h]

/-- A non-empty list that fits is one piece. -/
theorem cut_of_le {n : ℕ} (hn : 0 < n) {xs : List α} (hne : xs ≠ []) (h : xs.length ≤ n) :
    cut n xs = [xs] := by
  rw [cut_of_ne_nil hn hne, List.take_of_length_le h, List.drop_of_length_le h, cut_nil]

/-- The pieces joined are the list. -/
theorem flatten_cut {n : ℕ} (hn : 0 < n) (xs : List α) : (cut n xs).flatten = xs := by
  induction h : xs.length using Nat.strong_induction_on generalizing xs with
  | _ k ih =>
      by_cases hne : xs = []
      · subst hne
        rfl
      · have hpos : 0 < xs.length := List.length_pos_iff.mpr hne
        have hlt : (xs.drop n).length < k := by
          rw [List.length_drop]
          omega
        rw [cut_of_ne_nil hn hne, List.flatten_cons, ih _ hlt _ rfl, List.take_append_drop]

theorem flatten_flatMap_cut {n : ℕ} (hn : 0 < n) (l : List (List α)) :
    (l.flatMap (cut n)).flatten = l.flatten := by
  induction l with
  | nil => rfl
  | cons xs l ih =>
      rw [List.flatMap_cons, List.flatten_append, flatten_cut hn, ih, List.flatten_cons]

/-- Every piece is non-empty and no longer than `n`. -/
theorem mem_cut {n : ℕ} (hn : 0 < n) {xs p : List α} (hp : p ∈ cut n xs) :
    p ≠ [] ∧ p.length ≤ n := by
  induction h : xs.length using Nat.strong_induction_on generalizing xs with
  | _ k ih =>
      by_cases hne : xs = []
      · subst hne
        simp at hp
      · have hpos : 0 < xs.length := List.length_pos_iff.mpr hne
        rw [cut_of_ne_nil hn hne, List.mem_cons] at hp
        rcases hp with rfl | hp
        · refine ⟨?_, by rw [List.length_take]; omega⟩
          intro hnil
          have := congrArg List.length hnil
          simp only [List.length_take, List.length_nil] at this
          omega
        · exact ih _ (by rw [List.length_drop]; omega) hp rfl

/-- A front of full pieces is cut on its own. The induction is on the number of
pieces in front. -/
theorem cut_append_of_dvd {n : ℕ} (hn : 0 < n) {xs : List α} (h : n ∣ xs.length) (ys : List α) :
    cut n (xs ++ ys) = cut n xs ++ cut n ys := by
  obtain ⟨k, hk⟩ := h
  induction k generalizing xs with
  | zero =>
      have hnil : xs = [] := List.length_eq_zero_iff.mp (by omega)
      subst hnil
      rfl
  | succ k ih =>
      rw [Nat.mul_succ] at hk
      have hsplit : xs = xs.take n ++ xs.drop n := (List.take_append_drop n xs).symm
      have hlen : (xs.take n).length = n := by
        rw [List.length_take]
        omega
      have hrest := @ih (xs.drop n) (by rw [List.length_drop]; omega)
      rw [hsplit, List.append_assoc, cut_append hn _ hlen, cut_append hn _ hlen, hrest,
        List.cons_append]

/-! ## Cutting as the elements come in

A producer that cuts holds the pieces it has made and the elements that do not yet
fill one. `Cutting n segs seg pieces cur` says where it is: the finished segments
are cut completely, of the current one `seg` all but the last `cur` is. -/

/-- The state of a producer that cuts segments into pieces of `n`. -/
def Cutting (n : ℕ) (segs : List (List α)) (seg : List α) (pieces : List (List α))
    (cur : List α) : Prop :=
  ∃ w, seg = w ++ cur ∧ n ∣ w.length ∧ cur.length < n ∧ pieces = segs.flatMap (cut n) ++ cut n w

variable {n : ℕ} {segs : List (List α)} {seg : List α} {pieces : List (List α)} {cur : List α}

theorem Cutting.init (hn : 0 < n) : Cutting n ([] : List (List α)) [] [] [] :=
  ⟨[], rfl, ⟨0, rfl⟩, hn, rfl⟩

theorem Cutting.length_lt (h : Cutting n segs seg pieces cur) : cur.length < n := by
  obtain ⟨-, -, -, hlt, -⟩ := h
  exact hlt

/-- More elements that do not fill the piece. -/
theorem Cutting.add (h : Cutting n segs seg pieces cur) (xs : List α)
    (hlt : (cur ++ xs).length < n) : Cutting n segs (seg ++ xs) pieces (cur ++ xs) := by
  obtain ⟨w, rfl, hdvd, -, hp⟩ := h
  exact ⟨w, List.append_assoc w cur xs, hdvd, hlt, hp⟩

/-- Elements that fill the piece. -/
theorem Cutting.fill (hn : 0 < n) (h : Cutting n segs seg pieces cur) (xs : List α)
    (hlen : (cur ++ xs).length = n) : Cutting n segs (seg ++ xs) (pieces ++ [cur ++ xs]) [] := by
  obtain ⟨w, rfl, hdvd, -, rfl⟩ := h
  refine ⟨w ++ (cur ++ xs), by rw [List.append_nil, List.append_assoc], ?_, hn, ?_⟩
  · rw [List.length_append, hlen]
    exact Nat.dvd_add hdvd (Nat.dvd_refl n)
  · have hpiece := cut_append hn [] hlen
    rw [List.append_nil, cut_nil] at hpiece
    rw [cut_append_of_dvd hn hdvd, hpiece, List.append_assoc]

/-- The end of a segment: what is held becomes its last piece. -/
theorem Cutting.flush (hn : 0 < n) (h : Cutting n segs seg pieces cur) :
    Cutting n (segs ++ [seg]) [] (pieces ++ cut n cur) [] := by
  obtain ⟨w, rfl, hdvd, -, rfl⟩ := h
  refine ⟨[], rfl, ⟨0, rfl⟩, hn, ?_⟩
  rw [List.flatMap_append, List.flatMap_singleton, cut_append_of_dvd hn hdvd, cut_nil,
    List.append_nil, List.append_assoc]

/-- What is held goes out whole: it is less than a full piece. -/
theorem Cutting.flush_of_ne_nil (hn : 0 < n) (h : Cutting n segs seg pieces cur)
    (hcur : cur ≠ []) : Cutting n (segs ++ [seg]) [] (pieces ++ [cur]) [] := by
  have hflush := h.flush hn
  rwa [cut_of_le hn hcur (Nat.le_of_lt h.length_lt)] at hflush

/-- With nothing held the segment just ends. -/
theorem Cutting.flush_nil (hn : 0 < n) (h : Cutting n segs seg pieces []) :
    Cutting n (segs ++ [seg]) [] pieces [] := by
  have hflush := h.flush hn
  rwa [cut_nil, List.append_nil] at hflush

/-- The pieces and what is held are the elements that came in. -/
theorem Cutting.flatten (hn : 0 < n) (h : Cutting n segs seg pieces cur) :
    pieces.flatten ++ cur = segs.flatten ++ seg := by
  obtain ⟨w, rfl, -, -, rfl⟩ := h
  rw [List.flatten_append, flatten_flatMap_cut hn, flatten_cut hn, List.append_assoc]

/-- With nothing held the pieces are the segments cut. -/
theorem Cutting.pieces_eq (h : Cutting n segs [] pieces cur) : pieces = segs.flatMap (cut n) := by
  obtain ⟨w, hw, -, -, hp⟩ := h
  obtain ⟨rfl, rfl⟩ := List.append_eq_nil_iff.mp hw.symm
  rw [hp, cut_nil, List.append_nil]

end Cut
