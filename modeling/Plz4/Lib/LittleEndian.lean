/-
Fixed-width little-endian words as byte lists.

Everything here is over `ℕ` and `List`: a word of `k` bytes is `put k n`, its
value is `get`, and the two are inverse below `256 ^ k`. The `UInt32` and
`UInt64` readers and writers at the end are these two at widths 4 and 8.
-/
import Mathlib.Data.List.Basic
import Mathlib.Tactic

set_option autoImplicit false

namespace LittleEndian

/-! ## Words over `ℕ` -/

/-- The `k` low bytes of `n`, least significant first. -/
def put : ℕ → ℕ → List UInt8
  | 0, _ => []
  | k + 1, n => UInt8.ofNat n :: put k (n / 256)

/-- The number a byte list spells, least significant byte first. -/
def get : List UInt8 → ℕ
  | [] => 0
  | b :: bs => b.toNat + 256 * get bs

@[simp] theorem length_put (k n : ℕ) : (put k n).length = k := by
  induction k generalizing n with
  | zero => rfl
  | succ k ih => simp only [put, List.length_cons, ih]

/-- Reading back `k` written bytes gives the number modulo `256 ^ k`: the low
byte is the remainder, and the induction is on the remaining width. -/
theorem get_put (k n : ℕ) : get (put k n) = n % 256 ^ k := by
  induction k generalizing n with
  | zero => simp [put, get, Nat.mod_one]
  | succ k ih =>
      have hlow : (UInt8.ofNat n).toNat = n % 256 := by simp
      rw [put, get, ih, hlow, pow_succ', Nat.mod_mul]

theorem get_put_of_lt {k n : ℕ} (h : n < 256 ^ k) : get (put k n) = n := by
  rw [get_put, Nat.mod_eq_of_lt h]

theorem get_lt (bs : List UInt8) : get bs < 256 ^ bs.length := by
  induction bs with
  | nil => simp [get]
  | cons b bs ih =>
      have hb : b.toNat < 256 := b.toNat_lt
      rw [get, List.length_cons, pow_succ']
      omega

/-- Writing back a number that was read gives the bytes it was read from. -/
theorem put_get (bs : List UInt8) : put bs.length (get bs) = bs := by
  induction bs with
  | nil => rfl
  | cons b bs ih =>
      have hb : b.toNat < 256 := b.toNat_lt
      have hdiv : (b.toNat + 256 * get bs) / 256 = get bs := by omega
      have hlow : UInt8.ofNat (b.toNat + 256 * get bs) = b := by
        apply UInt8.toNat_inj.mp
        simp only [UInt8.toNat_ofNat']
        omega
      rw [List.length_cons, get, put, hdiv, ih, hlow]

/-- Only zero bytes spell zero. -/
theorem get_eq_zero_iff (bs : List UInt8) : get bs = 0 ↔ ∀ b ∈ bs, b = 0 := by
  induction bs with
  | nil => simp [get]
  | cons b bs ih =>
      have hb : b.toNat = 0 ↔ b = 0 := by
        rw [← UInt8.toNat_inj]
        rfl
      rw [get, List.forall_mem_cons, ← ih, ← hb]
      omega

/-! ## The fixed-width readers and writers -/

/-- `binary.LittleEndian.PutUint32`. -/
def putU32 (v : UInt32) : List UInt8 := put 4 v.toNat

/-- `binary.LittleEndian.Uint32` of the first four bytes. -/
def getU32 (bs : List UInt8) : UInt32 := UInt32.ofNat (get (bs.take 4))

/-- `binary.LittleEndian.PutUint64`. -/
def putU64 (v : UInt64) : List UInt8 := put 8 v.toNat

/-- `binary.LittleEndian.Uint64` of the first eight bytes. -/
def getU64 (bs : List UInt8) : UInt64 := UInt64.ofNat (get (bs.take 8))

@[simp] theorem length_putU32 (v : UInt32) : (putU32 v).length = 4 := length_put 4 _

@[simp] theorem length_putU64 (v : UInt64) : (putU64 v).length = 8 := length_put 8 _

@[simp] theorem getU32_putU32_append (v : UInt32) (bs : List UInt8) :
    getU32 (putU32 v ++ bs) = v := by
  have hlt : v.toNat < 256 ^ 4 := v.toNat_lt
  rw [getU32, List.take_left' (length_putU32 v), putU32, get_put_of_lt hlt, UInt32.ofNat_toNat]

@[simp] theorem getU32_putU32 (v : UInt32) : getU32 (putU32 v) = v := by
  have h := getU32_putU32_append v []
  rwa [List.append_nil] at h

@[simp] theorem getU64_putU64_append (v : UInt64) (bs : List UInt8) :
    getU64 (putU64 v ++ bs) = v := by
  have hlt : v.toNat < 256 ^ 8 := v.toNat_lt
  rw [getU64, List.take_left' (length_putU64 v), putU64, get_put_of_lt hlt, UInt64.ofNat_toNat]

@[simp] theorem getU64_putU64 (v : UInt64) : getU64 (putU64 v) = v := by
  have h := getU64_putU64_append v []
  rwa [List.append_nil] at h

theorem getU64_eq_zero_iff (bs : List UInt8) : getU64 bs = 0 ↔ ∀ b ∈ bs.take 8, b = 0 := by
  have hlt : get (bs.take 8) < UInt64.size := by
    have h := get_lt (bs.take 8)
    have hlen : (bs.take 8).length ≤ 8 := by simp
    exact Nat.lt_of_lt_of_le h (Nat.pow_le_pow_right (by norm_num) hlen)
  rw [← get_eq_zero_iff, getU64, ← UInt64.toNat_inj, UInt64.toNat_ofNat_of_lt' hlt]
  rfl

/-- The four bytes a word was read from are the bytes the word writes. -/
theorem putU32_getU32 {bs : List UInt8} (h : bs.length = 4) : putU32 (getU32 bs) = bs := by
  have hlt : get bs < UInt32.size := by
    have := get_lt bs
    rw [h] at this
    exact this
  rw [getU32, putU32, List.take_of_length_le (by omega), UInt32.toNat_ofNat_of_lt' hlt, ← h,
    put_get]

theorem putU64_getU64 {bs : List UInt8} (h : bs.length = 8) : putU64 (getU64 bs) = bs := by
  have hlt : get bs < UInt64.size := by
    have := get_lt bs
    rw [h] at this
    exact this
  rw [getU64, putU64, List.take_of_length_le (by omega), UInt64.toNat_ofNat_of_lt' hlt, ← h,
    put_get]

end LittleEndian
