/-
One object in memory, read and written by address.

An object is a list and addresses are integers, counted from its first element, so a
pointer that has been moved in front of the object is just a negative number. Reading or
writing outside of the object is undefined, and so is a `memcpy` whose two ranges
overlap: every function here is partial, and a program over it that always has a result
has no undefined access.

`Filled N w m` says that the object is `N` elements long and begins with `w`; each copy
is a rule that makes `w` longer, and the copy loops that run ahead of their end keep it
because what they write beyond is more of the same.
-/
import Plz4.Lib.Lz77
import Plz4.Lib.Slice

set_option autoImplicit false

namespace Mem

open CopyAt Lz77

variable {α : Type*}

/-! ## Access -/

/-- The `n` elements at address `a`. -/
def load (m : List α) (a : ℤ) (n : ℕ) : Option (List α) :=
  if 0 ≤ a ∧ a + n ≤ m.length then some ((m.drop a.toNat).take n) else none

/-- The object with `bs` at address `a`. -/
def store (m : List α) (a : ℤ) (bs : List α) : Option (List α) :=
  if 0 ≤ a ∧ a + bs.length ≤ m.length then some (copyAt m a.toNat bs) else none

/-- `memcpy(d, s, n)` from another object. -/
def copyFrom (src m : List α) (d s : ℤ) (n : ℕ) : Option (List α) :=
  (load src s n).bind (store m d)

/-- `memmove(d, s, n)` within an object. -/
def memmove (m : List α) (d s : ℤ) (n : ℕ) : Option (List α) := copyFrom m m d s n

/-- `memcpy(d, s, n)` within an object; undefined if the two ranges overlap. -/
def memcpy (m : List α) (d s : ℤ) (n : ℕ) : Option (List α) :=
  if d < s + n ∧ s < d + n then none else memmove m d s n

/-! ## Copy loops -/

/-- `do { cp(d, s); d += n; s += n; } while (d < e)`, with a bound on the passes. -/
def wildCopy (cp : List α → ℤ → ℤ → Option (List α)) (n : ℕ) :
    ℕ → List α → ℤ → ℤ → ℤ → Option (List α)
  | 0, _, _, _, _ => none
  | k + 1, m, d, s, e =>
      (cp m d s).bind (fun m' => if d + n < e then wildCopy cp n k m' (d + n) (s + n) e else some m')

/-- `while (d < e) *d++ = *s++;`, with a bound on the passes. -/
def byteCopy : ℕ → List α → ℤ → ℤ → ℤ → Option (List α)
  | 0, m, d, _, e => if d < e then none else some m
  | k + 1, m, d, s, e =>
      if d < e then (memmove m d s 1).bind (fun m' => byteCopy k m' (d + 1) (s + 1) e) else some m

/-- A range copied onto itself. -/
theorem memmove_self {m : List α} {d : ℤ} {n : ℕ} (hd : 0 ≤ d) (hn : d + n ≤ m.length) :
    memmove m d d n = some m := by
  have hlen : ((m.drop d.toNat).take n).length = n := by
    rw [List.length_take, List.length_drop]
    omega
  have hcut : ((m.drop d.toNat).take n).take (m.length - d.toNat) = (m.drop d.toNat).take n :=
    List.take_of_length_le (by omega)
  have hsame : copyAt m d.toNat ((m.drop d.toNat).take n) = m := by
    rw [copyAt, hlen, hcut, List.append_assoc, ← List.drop_drop, List.take_append_drop,
      List.take_append_drop]
  rw [memmove, copyFrom, load, if_pos ⟨hd, hn⟩, Option.bind_some, store, hlen, if_pos ⟨hd, hn⟩, hsame]

theorem byteCopy_self {m : List α} {d e : ℤ} {k : ℕ} (hd : 0 ≤ d) (he : e ≤ m.length)
    (hk : e ≤ d + k) : byteCopy k m d d e = some m := by
  induction k generalizing d with
  | zero => rw [byteCopy, if_neg (by omega)]
  | succ k ih =>
      rw [byteCopy]
      split_ifs with hlt
      · rw [memmove_self hd (by omega), Option.bind_some]
        exact ih (by omega) (by omega)
      · rfl

/-! ## Objects filled from the front -/

/-- An object of `N` elements that begins with `w`. -/
structure Filled (N : ℕ) (w m : List α) : Prop where
  len : m.length = N
  pre : w <+: m

variable {N : ℕ} {w m : List α}

theorem Filled.of_length {m : List α} (h : m.length = N) : Filled N [] m := ⟨h, List.nil_prefix⟩

theorem Filled.length_le (h : Filled N w m) : w.length ≤ N := by
  have hle := h.pre.length_le
  rwa [h.len] at hle

theorem Filled.mono {w' : List α} (h : Filled N w m) (hw : w' <+: w) : Filled N w' m :=
  ⟨h.len, hw.trans h.pre⟩

/-- The first elements, as far as the object is known. -/
theorem Filled.take (h : Filled N w m) : m.take w.length = w :=
  (List.prefix_iff_eq_take.mp h.pre).symm

/-- A read within the known part. -/
theorem Filled.load (h : Filled N w m) {s : ℤ} {i n : ℕ} (hs : s = i) (hn : i + n ≤ w.length) :
    Mem.load m s n = some ((w.drop i).take n) := by
  obtain ⟨t, rfl⟩ := h.pre
  rw [Mem.load, if_pos (by rw [List.length_append]; omega), hs, Int.toNat_natCast,
    List.drop_append_of_le_length (by omega), List.take_append_of_le_length]
  rw [List.length_drop]
  omega

/-- A write right behind the known part. -/
theorem Filled.store (h : Filled N w m) {d : ℤ} (bs : List α) (hd : d = w.length)
    (hbs : w.length + bs.length ≤ N) :
    ∃ m', Mem.store m d bs = some m' ∧ Filled N (w ++ bs) m' := by
  have hlen := h.len
  refine ⟨copyAt m w.length bs, ?_, ?_, ?_⟩
  · rw [Mem.store, if_pos (by omega), hd, Int.toNat_natCast]
  · rw [length_copyAt _ _ (by omega), hlen]
  · have htake := take_copyAt_of_fits m w.length bs (by omega)
    rw [h.take] at htake
    rw [← htake]
    exact List.take_prefix _ _

/-- A write over elements that are known. -/
theorem Filled.overwrite {front old back : List α} (h : Filled N (front ++ old ++ back) m)
    (new : List α) {d : ℤ} (hd : d = front.length) (hlen : new.length = old.length) :
    ∃ m', Mem.store m d new = some m' ∧ Filled N (front ++ new ++ back) m' := by
  have hN := h.len
  obtain ⟨t, rfl⟩ := h.pre
  rw [List.length_append, List.length_append, List.length_append] at hN
  have hstore : copyAt (front ++ old ++ back ++ t) front.length new = front ++ new ++ back ++ t := by
    have htail : (front ++ (old ++ (back ++ t))).drop (front.length + new.length) = back ++ t := by
      rw [hlen, ← List.drop_drop, List.drop_left, List.drop_left]
    have hnew : new.take ((front ++ (old ++ (back ++ t))).length - front.length) = new := by
      apply List.take_of_length_le
      simp only [List.length_append]
      omega
    simp only [copyAt, List.append_assoc, htail, hnew, List.take_left]
  refine ⟨front ++ new ++ back ++ t, ?_, ?_, List.prefix_append _ _⟩
  · rw [Mem.store, if_pos (by simp only [List.length_append]; omega), hd, Int.toNat_natCast, hstore]
  · simp only [List.length_append]
    omega

/-- A read of an object. -/
theorem load_eq {src : List α} {s : ℤ} {i n : ℕ} (hs : s = i) (hn : i + n ≤ src.length) :
    Mem.load src s n = some ((src.drop i).take n) :=
  Filled.load ⟨rfl, List.prefix_rfl⟩ hs hn

/-- A copy from another object goes behind the known part. -/
theorem Filled.copyFrom (h : Filled N w m) (src : List α) {d s : ℤ} {i n : ℕ} (hd : d = w.length)
    (hs : s = i) (hn : i + n ≤ src.length) (hfit : w.length + n ≤ N) :
    ∃ m', Mem.copyFrom src m d s n = some m' ∧ Filled N (w ++ (src.drop i).take n) m' := by
  rw [Mem.copyFrom, load_eq hs hn, Option.bind_some]
  apply h.store _ hd
  rw [List.length_take, List.length_drop]
  omega

/-- An object shows a part of a longer list, from `lo` to `hi`, at addresses that are
`shift` away. -/
def View (obj full : List α) (shift : ℤ) (lo hi : ℕ) : Prop :=
  ∀ p n, lo ≤ p → p + n ≤ hi → Mem.load obj (p + shift) n = some ((full.drop p).take n)

/-- An object that is the beginning. -/
theorem view_take (front back : List α) : View front (front ++ back) 0 0 front.length := by
  intro p n _ hn
  rw [load_eq (i := p) (by omega) hn, List.drop_append_of_le_length (by omega),
    List.take_append_of_le_length]
  rw [List.length_drop]
  omega

/-- An object that ends the same. -/
theorem view_drop {obj full : List α} {a b : ℕ} (h : obj.drop a = full.drop b)
    (ha : a ≤ obj.length) (hb : b ≤ full.length) : View obj full (a - b) b full.length := by
  intro p n hp hn
  have hlen : obj.length - a = full.length - b := by
    have hlen := congrArg List.length h
    rwa [List.length_drop, List.length_drop] at hlen
  obtain ⟨k, rfl⟩ : ∃ k, p = b + k := ⟨p - b, by omega⟩
  rw [load_eq (i := a + k) (by omega) (by omega), ← List.drop_drop, h, List.drop_drop]

theorem View.mono {obj full : List α} {shift : ℤ} {lo hi lo' hi' : ℕ} (h : View obj full shift lo hi)
    (hlo : lo ≤ lo') (hhi : hi' ≤ hi) : View obj full shift lo' hi' :=
  fun p n hp hn => h p n (by omega) (by omega)

variable [Inhabited α]

/-- A copy of what stands `D` before the end of the known part, and no more than that. -/
theorem Filled.memmove (h : Filled N w m) {d s : ℤ} {D n : ℕ} (hd : d = w.length)
    (hs : s = w.length - D) (hn : n ≤ D) (hD : D ≤ w.length) (hfit : w.length + n ≤ N) :
    ∃ m', Mem.memmove m d s n = some m' ∧ Filled N (extend w D n) m' := by
  have hlen : ((w.drop (w.length - D)).take n).length = n := by
    rw [List.length_take, List.length_drop]
    omega
  rw [Mem.memmove, Mem.copyFrom, h.load (i := w.length - D) (by omega) (by omega), Option.bind_some,
    extend_of_le w hn hD]
  exact h.store _ hd (by omega)

/-- The two ranges do not overlap. -/
theorem Filled.memcpy (h : Filled N w m) {d s : ℤ} {D n : ℕ} (hd : d = w.length)
    (hs : s = w.length - D) (hn : n ≤ D) (hD : D ≤ w.length) (hfit : w.length + n ≤ N) :
    ∃ m', Mem.memcpy m d s n = some m' ∧ Filled N (extend w D n) m' := by
  rw [Mem.memcpy, if_neg (by omega)]
  exact h.memmove hd hs hn hD hfit

/-! ## The copy loops -/

/-- A chunk of `n` elements at distance `D` is copied wherever there is room for it. -/
def Chunk (N n D : ℕ) (cp : List α → ℤ → ℤ → Option (List α)) : Prop :=
  ∀ w m (d s : ℤ), Filled N w m → D ≤ w.length → w.length + n ≤ N → d = w.length →
    s = w.length - D → ∃ m', cp m d s = some m' ∧ Filled N (extend w D n) m'

theorem chunk_memcpy {N n D : ℕ} (hn : n ≤ D) :
    Chunk N n D (fun m d s => Mem.memcpy (α := α) m d s n) :=
  fun _ _ _ _ h hD hfit hd hs => h.memcpy hd hs hn hD hfit

/-- **A copy loop that runs ahead.** The pattern goes on up to the end asked for, or
further; the last chunk may start just before the end. -/
theorem Filled.wildCopy {cp : List α → ℤ → ℤ → Option (List α)} {n D k : ℕ} (hcp : Chunk N n D cp)
    (h : Filled N w m) {d s e : ℤ} (hd : d = w.length) (hs : s = w.length - D) (hD : D ≤ w.length)
    (hn : 0 < n) (hk : e ≤ d + k) (hpos : 0 < k) (hfirst : w.length + n ≤ N) (hlast : e + n ≤ N + 1) :
    ∃ m' j, Mem.wildCopy cp n k m d s e = some m' ∧ Filled N (extend w D j) m'
      ∧ e ≤ w.length + j := by
  induction k generalizing w m d s with
  | zero => omega
  | succ k ih =>
      obtain ⟨m₁, hm₁, h₁⟩ := hcp w m d s h hD hfirst hd hs
      have hlen : (extend w D n).length = w.length + n := length_extend w D n
      rw [Mem.wildCopy, hm₁, Option.bind_some]
      by_cases hgo : d + n < e
      · rw [if_pos hgo]
        obtain ⟨m₂, j, hm₂, h₂, he⟩ := ih (d := d + n) (s := s + n) h₁ (by omega) (by omega)
          (by omega) (by omega) (by omega) (by omega)
        refine ⟨m₂, n + j, hm₂, ?_, by omega⟩
        rwa [extend_extend] at h₂
      · rw [if_neg hgo]
        exact ⟨m₁, n, rfl, h₁, by omega⟩

/-- The loop that copies one element a time stops at its end. -/
theorem Filled.byteCopy (h : Filled N w m) {d s e : ℤ} {D j k : ℕ} (hd : d = w.length)
    (hs : s = w.length - D) (hD : D ≤ w.length) (hpos : 0 < D) (hj : j = (e - d).toNat)
    (hk : j ≤ k) (hfit : w.length + j ≤ N) :
    ∃ m', Mem.byteCopy k m d s e = some m' ∧ Filled N (extend w D j) m' := by
  induction k generalizing w m d s j with
  | zero =>
      obtain rfl : j = 0 := by omega
      exact ⟨m, by rw [Mem.byteCopy, if_neg (by omega)], h⟩
  | succ k ih =>
      rcases j with _ | j
      · exact ⟨m, by rw [Mem.byteCopy, if_neg (by omega)], h⟩
      · obtain ⟨m₁, hm₁, h₁⟩ := h.memmove (n := 1) hd hs (by omega) hD (by omega)
        have hlen : (extend w D 1).length = w.length + 1 := length_extend w D 1
        rw [Mem.byteCopy, if_pos (by omega), hm₁, Option.bind_some]
        obtain ⟨m₂, hm₂, h₂⟩ := ih (j := j) h₁ (d := d + 1) (s := s + 1) (by omega) (by omega)
          (by omega) (by omega) (by omega) (by omega)
        refine ⟨m₂, hm₂, ?_⟩
        rwa [extend_extend, Nat.add_comm] at h₂

/-- Two chunks one after the other. -/
theorem Chunk.twice {N n D : ℕ} {cp : List α → ℤ → ℤ → Option (List α)} (h : Chunk N n D cp) :
    Chunk N (n + n) D (fun m d s => (cp m d s).bind (fun m' => cp m' (d + n) (s + n))) := by
  intro w m d s hw hD hfit hd hs
  obtain ⟨m₁, hm₁, h₁⟩ := h w m d s hw hD (by omega) hd hs
  have hlen : (extend w D n).length = w.length + n := length_extend w D n
  obtain ⟨m₂, hm₂, h₂⟩ := h _ m₁ (d + n) (s + n) h₁ (by omega) (by omega) (by omega) (by omega)
  refine ⟨m₂, ?_, ?_⟩
  · beta_reduce
    rw [hm₁, Option.bind_some, hm₂]
  · rwa [extend_extend] at h₂

omit [Inhabited α]

/-- A chunk of `n` elements is copied out of another object wherever there is room for it. -/
def ChunkFrom (src : List α) (N n : ℕ) (cp : List α → ℤ → ℤ → Option (List α)) : Prop :=
  ∀ w m (d s : ℤ) (i : ℕ), Filled N w m → w.length + n ≤ N → i + n ≤ src.length → d = w.length →
    s = i → ∃ m', cp m d s = some m' ∧ Filled N (w ++ (src.drop i).take n) m'

theorem chunkFrom_copyFrom (src : List α) (N n : ℕ) :
    ChunkFrom src N n (fun m d s => Mem.copyFrom src m d s n) :=
  fun _ _ _ _ _ h hfit hsrc hd hs => h.copyFrom src hd hs hsrc hfit

theorem ChunkFrom.twice {src : List α} {N n : ℕ} {cp : List α → ℤ → ℤ → Option (List α)}
    (h : ChunkFrom src N n cp) :
    ChunkFrom src N (n + n) (fun m d s => (cp m d s).bind (fun m' => cp m' (d + n) (s + n))) := by
  intro w m d s i hw hfit hsrc hd hs
  obtain ⟨m₁, hm₁, h₁⟩ := h w m d s i hw (by omega) (by omega) hd hs
  have hlen : (w ++ (src.drop i).take n).length = w.length + n := by
    rw [List.length_append, List.length_take, List.length_drop]
    omega
  obtain ⟨m₂, hm₂, h₂⟩ := h _ m₁ (d + n) (s + n) (i + n) h₁ (by omega) (by omega) (by omega)
    (by omega)
  refine ⟨m₂, ?_, ?_⟩
  · beta_reduce
    rw [hm₁, Option.bind_some, hm₂]
  · rwa [List.append_assoc, ← List.drop_drop, ← List.take_add] at h₂

/-- A copy loop out of another object: at least what was asked for is there. -/
theorem Filled.wildCopyFrom {src : List α} {cp : List α → ℤ → ℤ → Option (List α)} {n i k : ℕ}
    (hcp : ChunkFrom src N n cp) (h : Filled N w m) {d s e : ℤ}
    (hd : d = w.length) (hs : s = i) (hn : 0 < n) (hk : e ≤ d + k) (hpos : 0 < k)
    (hfirst : w.length + n ≤ N) (hlast : e + n ≤ N + 1) (hsrc : i + n ≤ src.length)
    (hend : i + (e - d) + n ≤ src.length + 1) :
    ∃ m' j, Mem.wildCopy cp n k m d s e = some m' ∧ Filled N (w ++ (src.drop i).take j) m'
      ∧ e ≤ w.length + j ∧ i + j ≤ src.length := by
  induction k generalizing w m d s i with
  | zero => omega
  | succ k ih =>
      obtain ⟨m₁, hm₁, h₁⟩ := hcp w m d s i h hfirst hsrc hd hs
      have hlen : (w ++ (src.drop i).take n).length = w.length + n := by
        rw [List.length_append, List.length_take, List.length_drop]
        omega
      rw [Mem.wildCopy, hm₁, Option.bind_some]
      by_cases hgo : d + n < e
      · rw [if_pos hgo]
        obtain ⟨m₂, j, hm₂, h₂, he, hj⟩ := ih (i := i + n) h₁ (d := d + n) (s := s + n) (by omega)
          (by omega) (by omega) (by omega) (by omega) (by omega) (by omega)
        refine ⟨m₂, n + j, hm₂, ?_, by omega, by omega⟩
        rwa [List.append_assoc, ← List.drop_drop, ← List.take_add] at h₂
      · rw [if_neg hgo]
        exact ⟨m₁, n, rfl, h₁, by omega, hsrc⟩

end Mem
