/-
`LZ4_count` counts what two places of the window have in common.

The source compares a word at a time, finds the first byte that differs by counting the
zeros of an exclusive or, and ends with narrower and narrower reads. `count_spec` says
that all this is the length of the common beginning, and that no read goes beyond the
limit. Both pointers are addresses in views of one window, so the match may be in another
object than the input.
-/
import Plz4.Lz4.Compress

set_option autoImplicit false

namespace Plz4.Lz4

open Mem Lz77

/-! ## Hashes -/

theorem hash4_lt (sequence : ℕ) (tableType : TableType) :
    hash4 sequence tableType < tableSize tableType := by
  have hlt : sequence * 2654435761 % 2 ^ 32 < 2 ^ 32 := Nat.mod_lt _ (by decide)
  rw [hash4, tableSize]
  split_ifs
  · rw [Nat.shiftRight_eq_div_pow]
    exact Nat.div_lt_of_lt_mul hlt
  · rw [Nat.shiftRight_eq_div_pow]
    exact Nat.div_lt_of_lt_mul hlt

theorem hash5_lt (sequence : ℕ) (tableType : TableType) :
    hash5 sequence tableType < tableSize tableType := by
  rw [hash5, tableSize]
  rw [Nat.shiftRight_eq_div_pow]
  apply Nat.div_lt_of_lt_mul
  apply Nat.lt_of_lt_of_le (Nat.mod_lt _ (by decide))
  split_ifs
  · exact le_refl _
  · exact le_refl _

/-- A hash is an index of the table. -/
theorem hashPosition_lt {m : Bytes} {p : ℤ} {tableType : TableType} {h : ℕ}
    (hh : hashPosition m p tableType = some h) : h < tableSize tableType := by
  rw [hashPosition] at hh
  split_ifs at hh
  · obtain ⟨w, -, rfl⟩ := Option.map_eq_some_iff.mp hh
    exact hash5_lt w tableType
  · obtain ⟨w, -, rfl⟩ := Option.map_eq_some_iff.mp hh
    exact hash4_lt w tableType

/-- Eight bytes are enough for both hashes. -/
theorem hashPosition_isSome {m : Bytes} {p : ℤ} {i : ℕ} (hp : p = i) (hi : i + 8 ≤ m.length)
    (tableType : TableType) : ∃ h, hashPosition m p tableType = some h := by
  rw [hashPosition, readArch, read32, load_eq hp hi, load_eq hp (n := 4) (by omega)]
  split_ifs
  · exact ⟨_, rfl⟩
  · exact ⟨_, rfl⟩

/-! ## Words -/

/-- Words spell the same number if and only if they are the same. -/
theorem get_inj {xs ys : Bytes} (h : xs.length = ys.length) :
    LittleEndian.get xs = LittleEndian.get ys ↔ xs = ys := by
  refine ⟨fun heq => ?_, fun heq => by rw [heq]⟩
  rw [← LittleEndian.put_get xs, ← LittleEndian.put_get ys, h, heq]

theorem xor_eq_zero_iff {a b : ℕ} : a ^^^ b = 0 ↔ a = b := by
  refine ⟨fun h => ?_, fun h => by rw [h, Nat.xor_self]⟩
  have hback : a ^^^ b ^^^ b = b := by rw [h, Nat.zero_xor]
  rwa [Nat.xor_assoc, Nat.xor_self, Nat.xor_zero] at hback

/-- The low zero bytes of the exclusive or are the bytes in common. -/
theorem nbCommonBytes_xor {xs ys : Bytes} (h : xs.length = ys.length) :
    nbCommonBytes xs.length (LittleEndian.get xs ^^^ LittleEndian.get ys) = common xs ys := by
  induction xs generalizing ys with
  | nil => rfl
  | cons x xs ih =>
      rcases ys with _ | ⟨y, ys⟩
      · cases h
      · have hx : x.toNat < 256 := x.toNat_lt
        have hy : y.toNat < 256 := y.toNat_lt
        have hmod : (LittleEndian.get (x :: xs) ^^^ LittleEndian.get (y :: ys)) % 256
            = x.toNat ^^^ y.toNat := by
          rw [show (256 : ℕ) = 2 ^ 8 from rfl, Nat.xor_mod_two_pow, LittleEndian.get, LittleEndian.get,
            show (2 : ℕ) ^ 8 = 256 from rfl, Nat.add_mul_mod_self_left, Nat.add_mul_mod_self_left,
            Nat.mod_eq_of_lt hx, Nat.mod_eq_of_lt hy]
        have hdiv : (LittleEndian.get (x :: xs) ^^^ LittleEndian.get (y :: ys)) / 256
            = LittleEndian.get xs ^^^ LittleEndian.get ys := by
          rw [show (256 : ℕ) = 2 ^ 8 from rfl, Nat.xor_div_two_pow, LittleEndian.get, LittleEndian.get,
            show (2 : ℕ) ^ 8 = 256 from rfl]
          congr 1
          · omega
          · omega
        rw [List.length_cons, nbCommonBytes, hmod, hdiv, common, ih (Nat.succ_injective h)]
        by_cases hxy : x = y
        · rw [if_pos hxy, if_pos (by rw [hxy, Nat.xor_self])]
        · have hne : x.toNat ^^^ y.toNat ≠ 0 := by
            intro hzero
            exact hxy (UInt8.toNat_inj.mp (xor_eq_zero_iff.mp hzero))
          rw [if_neg hxy, if_neg hne]

/-! ## The common beginning of two places -/

/-- How many of the `len` bytes from `p` and from `q` on are in common. -/
def repeats (win : Bytes) (p q len : ℕ) : ℕ := common ((win.drop p).take len) ((win.drop q).take len)

variable {win : Bytes} {p q len w : ℕ}

theorem repeats_le (win : Bytes) (p q len : ℕ) : repeats win p q len ≤ len := by
  have hle := common_le_left ((win.drop p).take len) ((win.drop q).take len)
  rw [List.length_take] at hle
  exact hle.trans (Nat.min_le_left _ _)

theorem length_piece (h : p + w ≤ win.length) : ((win.drop p).take w).length = w := by
  rw [List.length_take, List.length_drop]
  omega

/-- A piece in front that agrees. -/
theorem repeats_of_eq (hw : w ≤ len) (hp : p + w ≤ win.length)
    (h : (win.drop p).take w = (win.drop q).take w) :
    repeats win p q len = w + repeats win (p + w) (q + w) (len - w) := by
  obtain ⟨k, rfl⟩ : ∃ k, len = w + k := ⟨len - w, by omega⟩
  rw [repeats, List.take_add, List.take_add, List.drop_drop, List.drop_drop, ← h, common_append,
    length_piece hp, Nat.add_sub_cancel_left]
  rfl

/-- A piece in front that does not. -/
theorem repeats_of_ne (hw : w ≤ len) (hp : p + w ≤ win.length) (hq : q + w ≤ win.length)
    (h : (win.drop p).take w ≠ (win.drop q).take w) :
    repeats win p q len = common ((win.drop p).take w) ((win.drop q).take w)
      ∧ repeats win p q len < w := by
  obtain ⟨k, rfl⟩ : ∃ k, len = w + k := ⟨len - w, by omega⟩
  have hlen : ((win.drop p).take w).length = ((win.drop q).take w).length := by
    rw [length_piece hp, length_piece hq]
  obtain ⟨heq, hlt⟩ := common_append_of_ne (((win.drop p).drop w).take k) (((win.drop q).drop w).take k)
    hlen h
  rw [length_piece hp] at hlt
  rw [repeats, List.take_add, List.take_add, heq]
  exact ⟨rfl, hlt⟩

/-- What is known to agree is counted. -/
theorem le_repeats (hw : w ≤ len) (hp : p + w ≤ win.length)
    (h : (win.drop p).take w = (win.drop q).take w) : w ≤ repeats win p q len := by
  rw [repeats_of_eq hw hp h]
  exact Nat.le_add_right _ _

/-- What was counted agrees. -/
theorem take_repeats (win : Bytes) (p q len : ℕ) :
    (win.drop p).take (repeats win p q len) = (win.drop q).take (repeats win p q len) := by
  have h := take_common ((win.drop p).take len) ((win.drop q).take len)
  have hle := repeats_le win p q len
  rw [← repeats, List.take_take, List.take_take, Nat.min_eq_left hle] at h
  exact h

/-! ## Counting -/

variable {obj cur : Bytes} {sp sq : ℤ} {lo hi lo' hi' : ℕ}

/-- A word is read in a view. -/
theorem get_view (h : View obj win sp lo hi) (hlo : lo ≤ p) (hhi : p + w ≤ hi) :
    (load obj (p + sp) w).map LittleEndian.get = some (LittleEndian.get ((win.drop p).take w)) := by
  rw [h p w hlo hhi]
  rfl

/-- One byte at each of two places. -/
theorem headD_eq_iff (hp : p + 1 ≤ win.length) (hq : q + 1 ≤ win.length) :
    ((win.drop p).take 1).headD 0 = ((win.drop q).take 1).headD 0
      ↔ (win.drop p).take 1 = (win.drop q).take 1 := by
  rw [List.drop_eq_getElem_cons (by omega : p < win.length),
    List.drop_eq_getElem_cons (by omega : q < win.length)]
  simp only [List.take_succ_cons, List.take_zero, List.headD_cons, List.cons.injEq, and_true]

/-- One comparison: afterwards there is less to agree than its width. -/
theorem countPiece_spec (hobj : View obj win sp lo hi) (hcur : View cur win sq lo' win.length)
    (hp : lo ≤ p) (hq : lo' ≤ q) (hpl : p + len ≤ hi) (hhi : hi ≤ win.length)
    (hql : q + len ≤ win.length) (hlt : repeats win p q len < 2 * w) :
    ∃ j, countPiece obj cur (q + len + sq) w (q + sq, p + sp)
        = some (((q + j : ℕ) : ℤ) + sq, ((p + j : ℕ) : ℤ) + sp)
      ∧ j ≤ len ∧ repeats win p q len = j + repeats win (p + j) (q + j) (len - j)
      ∧ repeats win (p + j) (q + j) (len - j) < w := by
  rw [countPiece]
  by_cases hpos : w ≤ len
  · rw [if_pos (by dsimp only; omega)]
    dsimp only
    simp only [get_view hobj hp (show p + w ≤ hi by omega),
      get_view hcur hq (show q + w ≤ win.length by omega), Option.bind_eq_bind, Option.bind_some]
    by_cases heq : (win.drop p).take w = (win.drop q).take w
    · have hstep := repeats_of_eq hpos (by omega) heq
      refine ⟨w, ?_, hpos, hstep, by omega⟩
      rw [if_pos (by rw [heq]), Option.some_inj, Prod.mk.injEq]
      exact ⟨by omega, by omega⟩
    · have hne := (repeats_of_ne hpos (by omega) (by omega) heq).2
      refine ⟨0, ?_, Nat.zero_le _, (Nat.zero_add _).symm, hne⟩
      rw [if_neg]
      · rfl
      · rw [get_inj (by rw [length_piece (by omega), length_piece (by omega)])]
        exact heq
  · have hle := repeats_le win p q len
    refine ⟨0, ?_, Nat.zero_le _, (Nat.zero_add _).symm, ?_⟩
    · rw [if_neg (by dsimp only; omega)]
      rfl
    · change repeats win p q len < w
      omega

/-- The narrow comparisons at the end: each leaves fewer bytes to agree than the next one
can tell. -/
theorem countTail_spec (hobj : View obj win sp lo hi) (hcur : View cur win sq lo' win.length)
    (hp : lo ≤ p) (hq : lo' ≤ q) (hpl : p + len ≤ hi) (hhi : hi ≤ win.length)
    (hql : q + len ≤ win.length) (h8 : len < 8) :
    countTail obj cur (q + len + sq) (q + sq) (p + sp) = some (q + repeats win p q len + sq) := by
  have hle := repeats_le win p q len
  obtain ⟨i, hi₁, hil, hisum, hi4⟩ := countPiece_spec hobj hcur hp hq hpl hhi hql (w := 4) (by omega)
  obtain ⟨j, hj₁, hjl, hjsum, hj2⟩ := countPiece_spec hobj hcur (p := p + i) (q := q + i)
    (by omega) (by omega) (show p + i + (len - i) ≤ hi by omega) hhi (by omega) (w := 2) (by omega)
  obtain ⟨k, hk₁, hkl, hksum, hk1⟩ := countPiece_spec hobj hcur (p := p + i + j) (q := q + i + j)
    (by omega) (by omega) (show p + i + j + (len - i - j) ≤ hi by omega) hhi (by omega) (w := 1) (by omega)
  rw [show ((q + i : ℕ) : ℤ) + (len - i : ℕ) + sq = q + len + sq by omega] at hj₁
  rw [show ((q + i + j : ℕ) : ℤ) + (len - i - j : ℕ) + sq = q + len + sq by omega] at hk₁
  simp only [countTail, hi₁, hj₁, hk₁, Option.bind_eq_bind, Option.bind_some, Option.some_inj]
  omega

theorem countLoop_spec (hobj : View obj win sp lo hi) (hcur : View cur win sq lo' win.length)
    (hp : lo ≤ p) (hq : lo' ≤ q) (hpl : p + len ≤ hi) (hhi : hi ≤ win.length)
    (hql : q + len ≤ win.length) {k : ℕ} (hk : len < k) :
    countLoop obj cur (q + len + sq) k (q + sq) (p + sp) = some (q + repeats win p q len + sq) := by
  induction k generalizing p q len with
  | zero => omega
  | succ k ih =>
      rw [countLoop]
      by_cases h8 : 8 ≤ len
      · have hlen : ((win.drop p).take 8).length = ((win.drop q).take 8).length := by
          rw [length_piece (by omega), length_piece (by omega)]
        rw [if_pos (by omega)]
        simp only [readArch, get_view hobj hp (show p + 8 ≤ hi by omega),
          get_view hcur hq (show q + 8 ≤ win.length by omega), Option.bind_eq_bind, Option.bind_some]
        by_cases heq : (win.drop p).take 8 = (win.drop q).take 8
        · have hstep := repeats_of_eq h8 (by omega) heq
          have h := ih (p := p + 8) (q := q + 8) (by omega) (by omega)
            (show p + 8 + (len - 8) ≤ hi by omega) (by omega) (by omega)
          rw [if_pos (by rw [heq, Nat.xor_self]), hstep]
          rw [show (q : ℤ) + sq + 8 = ((q + 8 : ℕ) : ℤ) + sq by omega,
            show (p : ℤ) + sp + 8 = ((p + 8 : ℕ) : ℤ) + sp by omega,
            show (q : ℤ) + len + sq = ((q + 8 : ℕ) : ℤ) + (len - 8 : ℕ) + sq by omega, h,
            Option.some_inj]
          omega
        · obtain ⟨hcommon, -⟩ := repeats_of_ne h8 (by omega) (by omega) heq
          have hxor := nbCommonBytes_xor hlen
          rw [length_piece (by omega)] at hxor
          rw [if_neg, hxor, ← hcommon, Option.some_inj]
          · omega
          · rw [xor_eq_zero_iff, get_inj hlen]
            exact heq
      · rw [if_neg (by omega)]
        exact countTail_spec hobj hcur hp hq hpl hhi hql (by omega)

/-- **`LZ4_count`** is the length of the common beginning, up to the limit. -/
theorem count_spec (hobj : View obj win sp lo hi) (hcur : View cur win sq lo' win.length)
    (hp : lo ≤ p) (hq : lo' ≤ q) (hpl : p + len ≤ hi) (hhi : hi ≤ win.length)
    (hql : q + len ≤ win.length) (hlen : len ≤ cur.length) {pIn pMatch pInLimit : ℤ}
    (hin : pIn = q + sq) (hmatch : pMatch = p + sp) (hlimit : pInLimit = q + len + sq) :
    count obj cur pIn pMatch pInLimit = some (repeats win p q len) := by
  rw [count, hin, hmatch, hlimit, countLoop_spec hobj hcur hp hq hpl hhi hql (by omega), Option.map_some,
    Option.some_inj]
  omega

/-- **`LZ4_count` finds the longest match.** It reads nothing outside of the object, never
counts past the limit, and stops there or in front of two bytes that differ. -/
theorem count_longest {cur : Bytes} {p q limit : ℕ} (hpq : p ≤ q) (hq : q ≤ limit)
    (hlimit : limit ≤ cur.length) :
    ∃ n, count cur cur q p limit = some n ∧ q + n ≤ limit
      ∧ (cur.drop p).take n = (cur.drop q).take n
      ∧ ∀ m, q + m ≤ limit → (cur.drop p).take m = (cur.drop q).take m → m ≤ n := by
  have hview : View cur cur 0 0 cur.length := fun i k _ hk => load_eq (by omega) hk
  obtain ⟨len, rfl⟩ : ∃ len, limit = q + len := ⟨limit - q, by omega⟩
  have hle := repeats_le cur p q len
  refine ⟨repeats cur p q len, ?_, by omega, take_repeats cur p q len, ?_⟩
  · exact count_spec hview hview (Nat.zero_le p) (Nat.zero_le q) (by omega) (le_refl _) hlimit (by omega)
      (by omega) (by omega) (by omega)
  · intro m hm hsame
    exact le_repeats (by omega) (by omega) hsame

/-- A run of one byte, counted against itself. -/
theorem count_longest_run :
    ∃ n, count (List.replicate 20 5) (List.replicate 20 5) (1 : ℕ) (0 : ℕ) (15 : ℕ) = some n ∧ 1 + n ≤ 15
      ∧ ((List.replicate 20 (5 : UInt8)).drop 0).take n = ((List.replicate 20 5).drop 1).take n
      ∧ ∀ m, 1 + m ≤ 15 →
        ((List.replicate 20 (5 : UInt8)).drop 0).take m = ((List.replicate 20 5).drop 1).take m → m ≤ n :=
  count_longest (by decide) (by decide) (by decide)

end Plz4.Lz4
