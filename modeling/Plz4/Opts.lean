/-
The option set (`internal/pkg/opts`, `plz4_opts.go`).

An `OptsT` is what the option functions can produce: the block size index is one
of the four valid ones and the level is between 1 and 12. The progress handler is
not a field: the model of a component logs the pairs it would be called with. The
worker pool is the schedule.
-/
import Plz4.Compress
import Plz4.Descriptor

set_option autoImplicit false

namespace Plz4

/-- What a skip callback did: the bytes it took from the reader, the count it
returned and the error. -/
structure SkipRes where
  consumed : ℕ
  n : ℤ
  err : Option Err
  deriving DecidableEq, Repr

/-- `SkipCallbackT`: it sees the unread source, the nibble and the size. -/
abbrev SkipCallbackT := Bytes → UInt8 → UInt32 → SkipRes

/-- An error made by a caller. `zerr.EndMark` is not exported, so it is not one. -/
abbrev CallerErr := { e : Err // e ≠ .const .endMark }

/-- `DictCallbackT`. A nil dictionary is `none`. -/
abbrev DictCallbackT := UInt32 → Except CallerErr (Option Bytes)

/-- `OptsT`. -/
structure OptsT where
  nParallel : ℕ
  pendingSz : ℤ
  level : LevelT
  contentSz : Option UInt64
  readOffset : ℤ
  blockChecksum : Bool
  blockLinked : Bool
  contentChecksum : Bool
  skipContentSz : Bool
  dictionary : Option Bytes
  dictionaryId : Option UInt32
  dictCallback : Option DictCallbackT
  blockSizeIdx : BlockIdxT
  skipCallback : Option SkipCallbackT
  idx_valid : blockSizeIdx.valid = true

namespace OptsT

/-- `parseOpts` with no options. -/
def default : OptsT where
  nParallel := 1
  pendingSz := 0
  level := ⟨1, by decide, by decide⟩
  contentSz := none
  readOffset := 0
  blockChecksum := false
  blockLinked := false
  contentChecksum := true
  skipContentSz := false
  dictionary := none
  dictionaryId := none
  dictCallback := none
  blockSizeIdx := .idx4MB
  skipCallback := none
  idx_valid := by decide

/-- `WithParallel(0)` and `WithBlockSize(BlockIdx64KB)`. -/
def sync64KB : OptsT :=
  { default with nParallel := 0, blockSizeIdx := .idx64KB, idx_valid := by decide }

/-- `WithBlockLinked(true)`, `WithLevel(2)` and `WithBlockSize(BlockIdx64KB)`. -/
def linked64KB : OptsT :=
  { default with
    blockLinked := true, level := ⟨2, by decide, by decide⟩, blockSizeIdx := .idx64KB
    idx_valid := by decide }

/-- `opts.BlockSizeIdx.Size()`. -/
def bsz (o : OptsT) : ℕ := o.blockSizeIdx.size

theorem bsz_bounds (o : OptsT) : 64 * 1024 ≤ o.bsz ∧ o.bsz ≤ 4 * 1024 * 1024 :=
  BlockIdxT.size_bounds o.idx_valid

theorem bsz_pos (o : OptsT) : 0 < o.bsz := by
  have := o.bsz_bounds.1
  omega

/-- `OptsT.NewCompressorFactory`. -/
def newCompressorFactory (Z : Clz4) (o : OptsT) : CompressorFactory Z :=
  let dict := o.dictionary.map (fun d => newDictT d o.blockLinked)
  Plz4.newCompressorFactory Z o.level (!o.blockLinked) dict

/-- The multiplier of the automatic mode of `CalcPending`. -/
def pendingMult (idx : BlockIdxT) : ℕ :=
  if idx = .idx64KB then 16
  else if idx = .idx256KB then 8
  else if idx = .idx1MB then 4
  else 2

/-- `OptsT.CalcPending`. -/
def calcPending (o : OptsT) : ℕ :=
  if o.pendingSz = 0 then o.nParallel
  else if o.pendingSz = -1 then pendingMult o.blockSizeIdx * o.nParallel
  else
    let nCap := o.pendingSz.tdiv o.bsz
    if nCap > o.nParallel then nCap.toNat else o.nParallel

theorem le_calcPending (o : OptsT) : o.nParallel ≤ o.calcPending := by
  rw [calcPending]
  by_cases h0 : o.pendingSz = 0
  · rw [if_pos h0]
  by_cases h1 : o.pendingSz = -1
  · rw [if_neg h0, if_pos h1, pendingMult]
    split_ifs <;> omega
  · rw [if_neg h0, if_neg h1]
    by_cases hcap : o.pendingSz.tdiv o.bsz > o.nParallel
    · simp only [if_pos hcap]
      omega
    · simp only [if_neg hcap]
      exact Nat.le_refl _

theorem newCompressorFactory_indie (Z : Clz4) (o : OptsT) :
    (o.newCompressorFactory Z).indie = !o.blockLinked := by
  unfold newCompressorFactory Plz4.newCompressorFactory
  rcases o.dictionary with _ | d
  · rfl
  · simp only [Option.map_some]
    split_ifs <;> rfl

theorem newCompressorFactory_level (Z : Clz4) (o : OptsT) :
    (o.newCompressorFactory Z).level = o.level := by
  unfold newCompressorFactory Plz4.newCompressorFactory
  rcases o.dictionary with _ | d
  · rfl
  · simp only [Option.map_some]
    split_ifs <;> rfl

/-- Only linked blocks above level 1 go to `linkedCompressorHC`. -/
theorem isLinkedHC_of_reach {Z : Clz4} {o : OptsT} {cmp : Compressor Z}
    (h : (o.newCompressorFactory Z).Reach cmp) :
    cmp.isLinkedHC = false ↔ o.blockLinked = false ∨ o.level.val = 1 := by
  rw [h.isLinkedHC, newCompressorFactory_indie, newCompressorFactory_level, Bool.not_not]
  cases o.blockLinked <;> simp

end OptsT

end Plz4
