/-
Error values: the constants of `zerr`, the two `io` sentinels, and what
`errors.Join`, `fmt.Errorf` and `errors.Is` do with them.

A `zerr` constant is a string constant in Go, so `==` on two of them compares
texts; `Zerr.text_injective` is what lets the model compare constructors. Any
error the package does not make itself (from a source, a destination, a
callback) is `Err.other` with an arbitrary identity.
-/
import Mathlib.Tactic

set_option autoImplicit false

namespace Plz4

/-- The constants of `zerr.go`. -/
inductive Zerr
  | endMark | errClosed | errCorrupted | errHeaderHash | errBlockHash | errContentHash
  | errHeaderRead | errHeaderWrite | errMagic | errVersion | errDescriptorRead
  | errBlockSizeRead | errBlockRead | errBlockSizeOverflow | errCompress | errDecompress
  | errReserveBitSet | errBlockDescriptor | errContentHashRead | errContentSize
  | errReadOffset | errReadOffsetLinked | errSkip | errNibble | errUnsupported
  deriving DecidableEq, Repr

/-- `constError.Error`. -/
def Zerr.text : Zerr → String
  | .endMark => "lz4 end mark"
  | .errClosed => "lz4 closed"
  | .errCorrupted => "lz4 corrupted"
  | .errHeaderHash => "lz4 header hash mismatch"
  | .errBlockHash => "lz4 block hash mismatch"
  | .errContentHash => "lz4 content hash mismatch"
  | .errHeaderRead => "lz4 fail read header"
  | .errHeaderWrite => "lz4 fail write header"
  | .errMagic => "lz4 bad magic"
  | .errVersion => "lz4 unsupported version"
  | .errDescriptorRead => "lz4 fail read descriptor"
  | .errBlockSizeRead => "lz4 fail read block size"
  | .errBlockRead => "lz4 fail read block"
  | .errBlockSizeOverflow => "lz4 block size overflow"
  | .errCompress => "lz4 fail compress"
  | .errDecompress => "lz4 fail decompress"
  | .errReserveBitSet => "lz4 reserved bit set"
  | .errBlockDescriptor => "lz4 invalid BD byte"
  | .errContentHashRead => "lz4 fail read content hash"
  | .errContentSize => "lz4 content size mismatch"
  | .errReadOffset => "lz4 bad read offset"
  | .errReadOffsetLinked => "lz4 read offset unsupported in block linked mode"
  | .errSkip => "lz4 fail skip"
  | .errNibble => "lz4 bad nibble"
  | .errUnsupported => "lz4 unsupported feature"

/-- No two constants share a text, so comparing constructors is comparing the Go
values. -/
theorem Zerr.text_injective : Function.Injective Zerr.text := by
  intro a b h
  revert h
  cases a <;> cases b <;> simp [Zerr.text]

/-- An error value. `nil` is `none` in `Option Err`. -/
inductive Err
  /-- `io.EOF` -/
  | eof
  /-- `io.ErrUnexpectedEOF` -/
  | unexpectedEOF
  /-- a `zerr` constant -/
  | const (z : Zerr)
  /-- `clz4.ErrLz4Compress` -/
  | lz4Compress
  /-- `clz4.ErrLz4Decompress` wrapped with the return code of the engine -/
  | lz4Decompress (code : ℤ)
  /-- an error made outside the package -/
  | other (id : ℕ)
  /-- `fmt.Errorf("%w: %w", a, b)` -/
  | wrap (a b : Err)
  /-- `errors.Join(a)` -/
  | join1 (a : Err)
  /-- `errors.Join(a, b)` -/
  | join (a b : Err)
  deriving DecidableEq, Repr

/-- `errors.Is`: the target is in the tree of wrapped errors. -/
def Err.is : Err → Err → Bool
  | .wrap a b, t => decide (Err.wrap a b = t) || a.is t || b.is t
  | .join1 a, t => decide (Err.join1 a = t) || a.is t
  | .join a b, t => decide (Err.join a b = t) || a.is t || b.is t
  | .eof, t => decide (Err.eof = t)
  | .unexpectedEOF, t => decide (Err.unexpectedEOF = t)
  | .const z, t => decide (Err.const z = t)
  | .lz4Compress, t => decide (Err.lz4Compress = t)
  | .lz4Decompress code, t => decide (Err.lz4Decompress code = t)
  | .other id, t => decide (Err.other id = t)

/-- `zerr.WrapCorrupted`. -/
def wrapCorrupted (e : Err) : Err := .wrap (.const .errCorrupted) e

/-- `plz4.Lz4Corrupted`. -/
def lz4Corrupted (e : Err) : Bool := e.is (.const .errCorrupted)

/-- An error that stands for missing input: neither `io.EOF` itself nor corruption. -/
structure Err.Short (e : Err) : Prop where
  not_eof : e ≠ .eof
  not_corrupted : lz4Corrupted e = false

/-- The contexts of the reads. -/
def readContexts : List Zerr :=
  [.errHeaderRead, .errSkip, .errBlockSizeRead, .errBlockRead, .errContentHashRead]

/-- `errors.Is` finds the end of input in the error, and the context of the read. -/
def Err.Classified (e : Err) : Prop :=
  (e.is .eof = true ∨ e.is .unexpectedEOF = true) ∧ ∃ z ∈ readContexts, e.is (.const z) = true

/-- An error for missing input that says so. -/
structure Err.ShortRead (e : Err) : Prop extends Err.Short e where
  classified : e.Classified

/-- What `io.ReadFull` reports at the end of input, joined with the context of the
read. -/
theorem Err.ShortRead.join {z : Zerr} (hz : z ∈ readContexts) {e : Err}
    (he : e = .eof ∨ e = .unexpectedEOF) : (Err.join (.const z) e).ShortRead := by
  have hne : z ≠ .errCorrupted := by
    rintro rfl
    exact absurd hz (by decide)
  refine ⟨⟨by simp, ?_⟩, ?_, z, hz, by simp [Err.is]⟩
  · rcases he with rfl | rfl <;> simp [lz4Corrupted, Err.is, hne]
  · rcases he with rfl | rfl
    · exact .inl (by simp [Err.is])
    · exact .inr (by simp [Err.is])

/-- The error of a skip frame without its eighth byte says what was read, not why it failed. -/
theorem Err.short_join1 : (Err.join1 (.const .errHeaderRead)).Short
    ∧ ¬ (Err.join1 (.const .errHeaderRead)).Classified := by
  refine ⟨⟨by simp, by decide⟩, ?_⟩
  rintro ⟨h, -⟩
  revert h
  decide

end Plz4
