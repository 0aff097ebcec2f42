/-
Slices over a backing array: copying into them, reslicing and appending, and the
last `n` elements of a list.

A `Slice` is an array and the length of its visible part; the array's length is
the capacity. `reslice` fails beyond the capacity, and `append` writes in place
while the capacity lasts and moves to a new array otherwise, so "no append
reallocates" is a statement about the capacity.
-/
import Mathlib.Data.List.DropRight
import Mathlib.Tactic

set_option autoImplicit false

/-! ## Copying into a buffer

`copyAt buf off src` is `copy(buf[off:], src)`: the part of `src` that fits
replaces the elements of `buf` from `off` on, and the length never changes. -/

namespace CopyAt

variable {α : Type*}

/-- The buffer after `copy(buf[off:], src)`. -/
def copyAt (buf : List α) (off : ℕ) (src : List α) : List α :=
  buf.take off ++ src.take (buf.length - off) ++ buf.drop (off + src.length)

/-- The count `copy(buf[off:], src)` returns. -/
def copyLen (buf : List α) (off : ℕ) (src : List α) : ℕ := min (buf.length - off) src.length

theorem length_copyAt {buf : List α} (off : ℕ) (src : List α) (h : off ≤ buf.length) :
    (copyAt buf off src).length = buf.length := by
  simp only [copyAt, List.length_append, List.length_take, List.length_drop]
  omega

/-- The prefix up to the end of the copied part: what was there, then the part of
`src` that fits. -/
theorem take_copyAt (buf : List α) (off : ℕ) (src : List α) (h : off ≤ buf.length) :
    (copyAt buf off src).take (off + copyLen buf off src)
      = buf.take off ++ src.take (copyLen buf off src) := by
  have hlen : (buf.take off ++ src.take (buf.length - off)).length
      = off + copyLen buf off src := by
    simp only [List.length_append, List.length_take, copyLen]
    omega
  have hmin : src.take (buf.length - off) = src.take (copyLen buf off src) := by
    rw [copyLen, List.take_eq_take_iff]
    omega
  rw [copyAt, List.take_left' hlen, hmin]

/-- When all of `src` fits, the prefix up to its end. -/
theorem take_copyAt_of_fits (buf : List α) (off : ℕ) (src : List α)
    (h : off + src.length ≤ buf.length) :
    (copyAt buf off src).take (off + src.length) = buf.take off ++ src := by
  have hlen : copyLen buf off src = src.length := by
    rw [copyLen]
    omega
  have htake := take_copyAt buf off src (by omega)
  rwa [hlen, List.take_length] at htake

end CopyAt

/-! ## The last elements of a list -/

namespace List

variable {α : Type*}

theorem length_rtake (n : ℕ) (xs : List α) : (xs.rtake n).length = min n xs.length := by
  rw [rtake, length_drop]
  omega

theorem rtake_of_length_le {n : ℕ} {xs : List α} (h : xs.length ≤ n) : xs.rtake n = xs := by
  rw [rtake, Nat.sub_eq_zero_of_le h, drop_zero]

/-- When enough is appended, what was there drops out. -/
theorem rtake_append_of_le {n : ℕ} (xs : List α) {ys : List α} (h : n ≤ ys.length) :
    (xs ++ ys).rtake n = ys.rtake n := by
  have hidx : (xs ++ ys).length - n = xs.length + (ys.length - n) := by
    rw [length_append]
    omega
  rw [rtake, rtake, hidx, ← drop_drop, drop_left]

/-- A window only needs a window of what came before. -/
theorem rtake_rtake_append (n : ℕ) (xs ys : List α) :
    (xs.rtake n ++ ys).rtake n = (xs ++ ys).rtake n := by
  rcases Nat.le_total xs.length n with hle | hle
  · rw [rtake_of_length_le hle]
  · -- `xs` loses a prefix that is longer than `n` away from the end
    have hsplit : xs ++ ys = xs.take (xs.length - n) ++ (xs.rtake n ++ ys) := by
      rw [rtake, ← append_assoc, take_append_drop]
    have hlen : n ≤ (xs.rtake n ++ ys).length := by
      rw [length_append, length_rtake]
      omega
    rw [hsplit, rtake_append_of_le _ hlen]

/-- The end of a suffix is a suffix of the end. -/
theorem rtake_suffix_rtake (n : ℕ) {xs ys : List α} (h : ys <:+ xs) :
    ys.rtake n <:+ xs.rtake n := by
  obtain ⟨pre, rfl⟩ := h
  by_cases hle : n ≤ ys.length
  · rw [rtake_append_of_le _ hle]
  · -- all of `ys` is in the window, and a part of what stands before it
    have hidx : (pre ++ ys).length - n ≤ pre.length := by
      rw [length_append]
      omega
    rw [rtake_of_length_le (by omega), rtake, drop_append_of_le_length hidx]
    exact suffix_append _ _

end List

/-! ## Slices -/

/-- The visible part of an array; the array is as long as the capacity. -/
structure Slice (α : Type*) where
  arr : List α
  len : ℕ

namespace Slice

open CopyAt

variable {α : Type*}

/-- The elements a reader of the slice sees. -/
def data (s : Slice α) : List α := s.arr.take s.len

/-- `cap(s)`. -/
def cap (s : Slice α) : ℕ := s.arr.length

/-- `s[:n]`; fails beyond the capacity. -/
def reslice (s : Slice α) (n : ℕ) : Option (Slice α) :=
  if n ≤ s.cap then some ⟨s.arr, n⟩ else none

/-- What a reader of `s[k:]` sees; fails beyond the length. -/
def dataFrom (s : Slice α) (k : ℕ) : Option (List α) :=
  if k ≤ s.len then some (s.data.drop k) else none

/-- `copy(s, src)`: at most `len(s)` elements. -/
def copy (s : Slice α) (src : List α) : Slice α :=
  ⟨copyAt s.data 0 src ++ s.arr.drop s.len, s.len⟩

/-- `append(s, src...)`: in place while the capacity lasts. -/
def append (s : Slice α) (src : List α) : Slice α :=
  if s.len + src.length ≤ s.cap then ⟨copyAt s.arr s.len src, s.len + src.length⟩
  else ⟨s.data ++ src, s.len + src.length⟩

/-- `append` where leaving the array counts as a failure. -/
def appendInPlace (s : Slice α) (src : List α) : Option (Slice α) :=
  if s.len + src.length ≤ s.cap then some (s.append src) else none

/-- The visible part lies in the array. -/
structure Ok (s : Slice α) (n : ℕ) : Prop where
  cap : s.cap = n
  len : s.len ≤ n

theorem Ok.length_data {s : Slice α} {n : ℕ} (h : s.Ok n) : s.data.length = s.len := by
  have hcap := h.cap
  have hlen := h.len
  rw [Slice.cap] at hcap
  rw [data, List.length_take]
  omega

theorem Ok.reslice {s : Slice α} {n k : ℕ} (h : s.Ok n) (hk : k ≤ n) :
    s.reslice k = some ⟨s.arr, k⟩ ∧ Ok (⟨s.arr, k⟩ : Slice α) n := by
  refine ⟨?_, h.cap, hk⟩
  rw [Slice.reslice, if_pos (by rw [h.cap]; exact hk)]

theorem dataFrom_of_le {s : Slice α} {k : ℕ} (hk : k ≤ s.len) :
    s.dataFrom k = some (s.data.drop k) := if_pos hk

/-- A copy into the slice keeps its array's length. -/
theorem Ok.copy {s : Slice α} {n : ℕ} (h : s.Ok n) (src : List α) : (s.copy src).Ok n := by
  refine ⟨?_, h.len⟩
  have hcap := h.cap
  have hlen := h.len
  rw [Slice.cap] at hcap
  rw [Slice.cap, Slice.copy, List.length_append, length_copyAt _ _ (Nat.zero_le _), h.length_data,
    List.length_drop]
  omega

/-- What the first `k` elements are after a copy of `src` that reaches that far. -/
theorem Ok.take_copy {s : Slice α} {n k : ℕ} (h : s.Ok n) (src : List α) (hk : k ≤ src.length)
    (hks : k ≤ s.len) : (s.copy src).arr.take k = src.take k := by
  have hdata := h.length_data
  simp only [Slice.copy, copyAt, List.take_zero, List.nil_append, Nat.sub_zero, hdata]
  rw [List.append_assoc, List.take_append_of_le_length (by rw [List.length_take]; omega),
    List.take_take, Nat.min_eq_left hks]

/-- An append that fits goes in place. -/
theorem Ok.append {s : Slice α} {n : ℕ} (h : s.Ok n) (src : List α) (hfit : s.len + src.length ≤ n) :
    (s.append src).Ok n ∧ (s.append src).data = s.data ++ src := by
  have hcap := h.cap
  rw [Slice.append, if_pos (by rw [hcap]; exact hfit)]
  rw [Slice.cap] at hcap
  refine ⟨⟨?_, hfit⟩, ?_⟩
  · rw [Slice.cap, length_copyAt _ _ (by omega), hcap]
  · rw [data, take_copyAt_of_fits _ _ _ (by omega), data]

theorem Ok.appendInPlace {s : Slice α} {n : ℕ} (h : s.Ok n) (src : List α)
    (hfit : s.len + src.length ≤ n) : s.appendInPlace src = some (s.append src) := by
  unfold Slice.appendInPlace
  apply if_pos
  rw [h.cap]
  exact hfit

end Slice
