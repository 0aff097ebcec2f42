/-
The bit fields of the frame format: the flag byte, the block descriptor byte, the
block size index and the block size word (`internal/pkg/descriptor`).
-/
import Mathlib.Data.Nat.Bitwise
import Mathlib.Tactic

set_option autoImplicit false

namespace Plz4

/-! ## Block size index -/

/-- `BlockIdxT`. -/
structure BlockIdxT where
  raw : UInt8
  deriving DecidableEq, Repr

namespace BlockIdxT

def idx64KB : BlockIdxT := ⟨4⟩
def idx256KB : BlockIdxT := ⟨5⟩
def idx1MB : BlockIdxT := ⟨6⟩
def idx4MB : BlockIdxT := ⟨7⟩

/-- `BlockIdxT.Valid`. -/
def valid (idx : BlockIdxT) : Bool := idx.raw ≥ 4 && idx.raw ≤ 7

/-- `BlockIdxT.Size`. -/
def size (idx : BlockIdxT) : ℕ :=
  if idx = idx64KB then 64 * 1024
  else if idx = idx256KB then 256 * 1024
  else if idx = idx1MB then 1024 * 1024
  else if idx = idx4MB then 4 * 1024 * 1024
  else 0

/-- `BlockIdxT.Str`. -/
def str (idx : BlockIdxT) : String :=
  if idx = idx64KB then "64KiB"
  else if idx = idx256KB then "256KiB"
  else if idx = idx1MB then "1MiB"
  else if idx = idx4MB then "4MiB"
  else "undefined"

/-- Valid is one of the four sizes. -/
theorem valid_iff (idx : BlockIdxT) :
    idx.valid = true ↔ idx = idx64KB ∨ idx = idx256KB ∨ idx = idx1MB ∨ idx = idx4MB := by
  obtain ⟨v⟩ := idx
  have hv : ∀ k : UInt8, (⟨v⟩ : BlockIdxT) = ⟨k⟩ ↔ v.toNat = k.toNat := by
    intro k
    rw [BlockIdxT.mk.injEq, UInt8.toNat_inj]
  simp only [valid, Bool.and_eq_true, decide_eq_true_eq, ge_iff_le, UInt8.le_iff_toNat_le,
    idx64KB, idx256KB, idx1MB, idx4MB, hv]
  simp only [UInt8.reduceToNat]
  omega

theorem size_bounds {idx : BlockIdxT} (h : idx.valid = true) :
    64 * 1024 ≤ idx.size ∧ idx.size ≤ 4 * 1024 * 1024 := by
  rcases (valid_iff idx).mp h with rfl | rfl | rfl | rfl <;> decide

end BlockIdxT

/-! ## The block descriptor byte -/

/-- `Block`. -/
structure Block where
  raw : UInt8
  deriving DecidableEq, Repr

namespace Block

/-- `Block.Idx`. -/
def idx (m : Block) : BlockIdxT := ⟨m.raw >>> 4 &&& 0x7⟩

/-- `Block.Size`. -/
def size (m : Block) : ℕ := m.idx.size

/-- `Block.Valid`. -/
def valid (m : Block) : Bool :=
  !(m.idx.raw < 4) && m.raw &&& 0x80 = 0 && m.raw &&& 0xF = 0

/-- `Block.SetIdx`. -/
def setIdx (idx : BlockIdxT) : Block := ⟨(idx.raw &&& 0x7) <<< 4⟩

theorem idx_valid {m : Block} (h : m.valid = true) : m.idx.valid = true := by
  have h4 : ¬ m.idx.raw < 4 := by
    simp only [valid, Bool.and_eq_true, Bool.not_eq_true', decide_eq_false_iff_not] at h
    exact h.1.1
  have h7 : m.idx.raw ≤ 7 := by
    rw [idx, UInt8.le_iff_toNat_le, UInt8.toNat_and]
    exact Nat.and_le_right
  simp only [BlockIdxT.valid, Bool.and_eq_true, decide_eq_true_eq]
  exact ⟨UInt8.not_lt.mp h4, h7⟩

/-- A descriptor made from a valid index is valid and gives the index back. -/
theorem setIdx_spec {idx : BlockIdxT} (h : idx.valid = true) :
    (setIdx idx).valid = true ∧ (setIdx idx).idx = idx := by
  rcases (BlockIdxT.valid_iff idx).mp h with rfl | rfl | rfl | rfl <;> decide

end Block

/-! ## The flag byte -/

/-- `Flags`. -/
structure Flags where
  raw : UInt8
  deriving DecidableEq, Repr

namespace Flags

def bitDictId : UInt8 := 0
def bitReserved : UInt8 := 1
def bitContentChecksum : UInt8 := 2
def bitSize : UInt8 := 3
def bitBlockChecksum : UInt8 := 4
def bitBlockIndependence : UInt8 := 5

/-- `Flags.isSet`. -/
def isSet (m : Flags) (pos : UInt8) : Bool := m.raw &&& (1 <<< pos) ≠ 0

/-- `Flags.setBit`. -/
def setBit (m : Flags) (pos : UInt8) : Flags := ⟨m.raw ||| (1 <<< pos)⟩

/-- `Flags.clrBit`. -/
def clrBit (m : Flags) (pos : UInt8) : Flags := ⟨m.raw &&& ~~~(1 <<< pos)⟩

def dictId (m : Flags) : Bool := m.isSet bitDictId
def reserved (m : Flags) : Bool := m.isSet bitReserved
def contentChecksum (m : Flags) : Bool := m.isSet bitContentChecksum
def contentSize (m : Flags) : Bool := m.isSet bitSize
def blockChecksum (m : Flags) : Bool := m.isSet bitBlockChecksum
def blockIndependence (m : Flags) : Bool := m.isSet bitBlockIndependence

/-- `Flags.Version`. -/
def version (m : Flags) : UInt8 := m.raw >>> 6 &&& 0x3

/-- `Flags.SetVersion`. -/
def setVersion (m : Flags) (v : UInt8) : Flags :=
  ⟨m.raw &&& ~~~((0x3 : UInt8) <<< 6) ||| ((v &&& 0x3) <<< 6)⟩

def setDictId (m : Flags) : Flags := m.setBit bitDictId
def setContentChecksum (m : Flags) : Flags := m.setBit bitContentChecksum
def setContentSize (m : Flags) : Flags := m.setBit bitSize
def setBlockChecksum (m : Flags) : Flags := m.setBit bitBlockChecksum
def setBlockIndependence (m : Flags) : Flags := m.setBit bitBlockIndependence

/-- `Flags.ClrContentChecksum`. -/
def clrContentChecksum (m : Flags) : Flags := m.clrBit bitContentChecksum

/-- Clearing a flag that is not set does nothing. -/
theorem clrContentChecksum_of_not (m : Flags) (h : m.contentChecksum = false) :
    m.clrContentChecksum = m := by
  obtain ⟨v⟩ := m
  obtain ⟨w, rfl⟩ : ∃ w : Fin 256, v = UInt8.ofNat w :=
    ⟨⟨v.toNat, v.toNat_lt⟩, UInt8.ofNat_toNat.symm⟩
  revert w
  decide +kernel

/-- Clearing the content checksum flag leaves every other field. -/
theorem clrContentChecksum_spec (m : Flags) :
    m.clrContentChecksum.contentChecksum = false
      ∧ m.clrContentChecksum.dictId = m.dictId
      ∧ m.clrContentChecksum.contentSize = m.contentSize
      ∧ m.clrContentChecksum.blockChecksum = m.blockChecksum
      ∧ m.clrContentChecksum.blockIndependence = m.blockIndependence := by
  obtain ⟨v⟩ := m
  obtain ⟨w, rfl⟩ : ∃ w : Fin 256, v = UInt8.ofNat w :=
    ⟨⟨v.toNat, v.toNat_lt⟩, UInt8.ofNat_toNat.symm⟩
  revert w
  decide +kernel

end Flags

/-! ## The block size word -/

/-- `DataBlockSize`. -/
structure DataBlockSize where
  raw : UInt32
  deriving DecidableEq, Repr

namespace DataBlockSize

def dbsMask : UInt32 := 0x7FFFFFFF
def cmpMask : UInt32 := 0x80000000

/-- `DataBlockSize.Size`. -/
def size (s : DataBlockSize) : ℕ := (s.raw &&& dbsMask).toNat

/-- `DataBlockSize.EOF`. -/
def eof (s : DataBlockSize) : Bool := s.raw = 0

/-- `DataBlockSize.Uncompressed`. -/
def uncompressed (s : DataBlockSize) : Bool := cmpMask &&& s.raw ≠ 0

/-- `DataBlockSize.SetSize`. -/
def setSize (s : DataBlockSize) (v : ℕ) : DataBlockSize :=
  ⟨s.raw &&& ~~~dbsMask ||| UInt32.ofNat v &&& dbsMask⟩

/-- `DataBlockSize.SetUncompressed`. -/
def setUncompressed (s : DataBlockSize) : DataBlockSize := ⟨s.raw ||| cmpMask⟩

theorem size_eq (s : DataBlockSize) : s.size = s.raw.toNat % 2 ^ 31 := by
  rw [size, UInt32.toNat_and]
  exact Nat.and_two_pow_sub_one_eq_mod _ 31

theorem uncompressed_iff (s : DataBlockSize) : s.uncompressed = true ↔ 2 ^ 31 ≤ s.raw.toNat := by
  have hlt : s.raw.toNat < 2 ^ 32 := s.raw.toNat_lt
  have hand : (cmpMask &&& s.raw).toNat = (s.raw.toNat.testBit 31).toNat * 2 ^ 31 := by
    rw [UInt32.toNat_and, Nat.and_comm]
    exact Nat.and_two_pow _ 31
  rw [uncompressed, decide_eq_true_eq, ne_eq, ← UInt32.toNat_inj, hand,
    Nat.testBit_eq_decide_div_mod_eq]
  by_cases hb : s.raw.toNat / 2 ^ 31 % 2 = 1
  · simp only [hb, decide_true, Bool.toNat_true, one_mul]
    constructor
    · intro _
      omega
    · intro _
      decide
  · simp only [hb, decide_false, Bool.toNat_false, zero_mul]
    constructor
    · exact fun h => absurd rfl h
    · intro h
      omega

/-- The word of a block of `n` bytes, stored or compressed. -/
theorem toNat_setSize_zero {n : ℕ} (h : n < 2 ^ 31) :
    (setSize ⟨0⟩ n).raw.toNat = n := by
  have hn : (UInt32.ofNat n).toNat = n := by
    rw [UInt32.toNat_ofNat']
    omega
  have hmask : (UInt32.ofNat n &&& dbsMask).toNat = n := by
    have hsize := size_eq ⟨UInt32.ofNat n⟩
    rw [size] at hsize
    rw [hsize, hn]
    omega
  rw [setSize, UInt32.zero_and, UInt32.zero_or, hmask]

theorem toNat_setSize_stored {n : ℕ} (h : n < 2 ^ 31) :
    (setSize (setUncompressed ⟨0⟩) n).raw.toNat = 2 ^ 31 + n := by
  have hplain := toNat_setSize_zero h
  rw [setSize, UInt32.zero_and, UInt32.zero_or] at hplain
  have hhigh : ((setUncompressed ⟨0⟩).raw &&& ~~~dbsMask) = cmpMask := by decide
  have hor := Nat.two_pow_add_eq_or_of_lt (i := 31) h 1
  rw [Nat.mul_one] at hor
  rw [setSize, hhigh, UInt32.toNat_or, hplain]
  exact hor.symm

end DataBlockSize

end Plz4
