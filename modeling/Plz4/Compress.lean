/-
Compressors and decompressors (`internal/pkg/compress`, cgo build).

The LZ4 block engine behind `internal/pkg/clz4` is a parameter: `Clz4` lists the
C functions the bindings call, each with the only law the Go code relies on, that
an engine never claims more bytes than the destination has. The engine returns
the bytes it wrote, so the return code 0 of a compress function is the empty
list. A stream object may keep anything between calls.
-/
import Plz4.Dict
import Plz4.Zerr

set_option autoImplicit false

namespace Plz4

/-- The functions of `lz4.c` and `lz4hc.c` that `clz4.go` calls. A decompress
function returns the decoded bytes or its negative return code. -/
structure Clz4 : Type 1 where
  Stream : Type
  StreamHC : Type
  /-- a zeroed `C.LZ4_stream_t` -/
  zero : Stream
  /-- a zeroed `C.LZ4_streamHC_t` -/
  zeroHC : StreamHC
  compressFast : (source : Bytes) → (dstCap : ℕ) → (acceleration : ℤ) → Bytes
  compressHC : (source : Bytes) → (dstCap : ℕ) → (level : ℕ) → Bytes
  resetStreamFast : Stream → Stream
  loadDict : Stream → Bytes → Stream
  loadDictSlow : Stream → Bytes → Stream
  attachDictionary : (ctx dict : Stream) → Stream
  compressFastContinue : Stream → (src : Bytes) → (dstCap : ℕ) → (acceleration : ℤ) →
    Bytes × Stream
  resetStreamHCFast : StreamHC → (level : ℕ) → StreamHC
  loadDictHC : StreamHC → Bytes → StreamHC
  attachHCDictionary : (ctx dict : StreamHC) → StreamHC
  compressHCContinue : StreamHC → (src : Bytes) → (dstCap : ℕ) → Bytes × StreamHC
  decompressSafe : (source : Bytes) → (dstCap : ℕ) → Except ℤ Bytes
  decompressSafeUsingDict : (source : Bytes) → (dstCap : ℕ) → (dict : Bytes) → Except ℤ Bytes
  compressFast_le : ∀ s n a, (compressFast s n a).length ≤ n
  compressHC_le : ∀ s n l, (compressHC s n l).length ≤ n
  compressFastContinue_le : ∀ c s n a, (compressFastContinue c s n a).1.length ≤ n
  compressHCContinue_le : ∀ c s n, (compressHCContinue c s n).1.length ≤ n
  decompressSafe_le : ∀ s n out, decompressSafe s n = .ok out → out.length ≤ n
  decompressSafeUsingDict_le :
    ∀ s n d out, decompressSafeUsingDict s n d = .ok out → out.length ≤ n

variable {Z : Clz4}

/-! ## Bindings -/

/-- How every compress binding of `clz4.go` reads its return code. -/
def lz4Ret (ret : Bytes) : Except Err Bytes := if ret = [] then .error .lz4Compress else .ok ret

/-- How both decompress bindings read theirs. -/
def lz4DecompressRet (ret : Except ℤ Bytes) : Except Err Bytes :=
  match ret with
  | .ok out => .ok out
  | .error code => .error (.lz4Decompress code)

/-- `clz4.NewDictCtx`: the stream with the dictionary loaded. -/
def newDictCtx (Z : Clz4) (dict : Bytes) : Z.Stream :=
  Z.loadDictSlow (Z.resetStreamFast Z.zero) dict

/-- `clz4.NewDictCtxHC`. -/
def newDictCtxHC (Z : Clz4) (dict : Bytes) (level : ℕ) : Z.StreamHC :=
  Z.loadDictHC (Z.resetStreamHCFast Z.zeroHC level) dict

/-! ## Compressors -/

/-- `LevelT` as `WithLevel` leaves it. -/
structure LevelT where
  val : ℕ
  ge : 1 ≤ val
  le : val ≤ 12
  deriving DecidableEq, Repr

/-- `memoizeCompressors`. -/
def memoizeCompressors : List ℕ := [2, 3, 4, 5, 6, 7, 8, 9, 10, 11, 12]

/-- The implementations of `Compressor`. -/
inductive Compressor (Z : Clz4)
  /-- `indieCompressorFast` -/
  | indieFast
  /-- `indieCompressorLevel` -/
  | indieLevel (level : ℕ)
  /-- `indieCompressorDict` -/
  | indieDict (ctx dict : Z.Stream)
  /-- `indieCompressorDictHC` -/
  | indieDictHC (level : ℕ) (ctx dict : Z.StreamHC)
  /-- `linkedCompressor` -/
  | linked (ctx : Z.Stream)
  /-- `linkedCompressorHC` -/
  | linkedHC (ctx : Z.StreamHC)

/-- `errors.Join(zerr.ErrCompress, err)`, as four of the compressors and
`linkedCompressor` do it. -/
def joinCompress (r : Except Err Bytes) : Except Err Bytes :=
  match r with
  | .ok out => .ok out
  | .error e => .error (.join (.const .errCompress) e)

/-- `Compress`: the bytes written to a destination of `cap` bytes, and the
compressor afterwards. `linkedCompressorHC` passes the engine's error on as it is. -/
def Compressor.compress (c : Compressor Z) (src : Bytes) (cap : ℕ) (dict : Option Bytes) :
    Except Err Bytes × Compressor Z :=
  match c with
  | .indieFast => (joinCompress (lz4Ret (Z.compressFast src cap 1)), .indieFast)
  | .indieLevel level =>
      (joinCompress (lz4Ret (Z.compressHC src cap level)), .indieLevel level)
  | .indieDict ctx strm =>
      let ctx := Z.attachDictionary (Z.resetStreamFast ctx) strm
      let (ret, ctx) := Z.compressFastContinue ctx src cap 1
      (joinCompress (lz4Ret ret), .indieDict ctx strm)
  | .indieDictHC level ctx strm =>
      let ctx := Z.attachHCDictionary (Z.resetStreamHCFast ctx level) strm
      let (ret, ctx) := Z.compressHCContinue ctx src cap
      (joinCompress (lz4Ret ret), .indieDictHC level ctx strm)
  | .linked ctx =>
      let ctx := dict.elim ctx (Z.loadDict ctx)
      let (ret, ctx) := Z.compressFastContinue ctx src cap 1
      (joinCompress (lz4Ret ret), .linked ctx)
  | .linkedHC ctx =>
      let ctx := dict.elim ctx (Z.loadDictHC ctx)
      let (ret, ctx) := Z.compressHCContinue ctx src cap
      (lz4Ret ret, .linkedHC ctx)

/-- `CompressorFactory`. -/
structure CompressorFactory (Z : Clz4) where
  indie : Bool
  level : LevelT
  dictCtx : Option Z.Stream
  dictCtxHC : Option Z.StreamHC

/-- `NewCompressorFactory`. -/
def newCompressorFactory (Z : Clz4) (level : LevelT) (independent : Bool) (dict : Option DictT) :
    CompressorFactory Z :=
  match dict with
  | none => ⟨independent, level, none, none⟩
  | some d =>
      if level.val = 1 then ⟨independent, level, some (newDictCtx Z d.data), none⟩
      else ⟨independent, level, none, some (newDictCtxHC Z d.data level.val)⟩

namespace CompressorFactory

/-- `newIndie`. Its last case, a level above 12, panics; `LevelT` excludes it. -/
def newIndie (f : CompressorFactory Z) : Compressor Z :=
  match f.dictCtx, f.dictCtxHC with
  | some d, _ => .indieDict Z.zero d
  | none, some d => .indieDictHC f.level.val Z.zeroHC d
  | none, none =>
      if f.level.val ≤ 1 then .indieFast
      else .indieLevel (memoizeCompressors.getD (f.level.val - 2) 0)

/-- `newLinked`. -/
def newLinked (f : CompressorFactory Z) : Compressor Z :=
  if f.level.val = 1 then
    let ctx := Z.resetStreamFast Z.zero
    .linked (f.dictCtx.elim ctx (Z.attachDictionary ctx))
  else
    let ctx := Z.resetStreamHCFast Z.zeroHC f.level.val
    .linkedHC (f.dictCtxHC.elim ctx (Z.attachHCDictionary ctx))

/-- `NewCompressor`. -/
def newCompressor (f : CompressorFactory Z) : Compressor Z :=
  if f.indie then f.newIndie else f.newLinked

/-- The states of a compressor the factory made. -/
inductive Reach (f : CompressorFactory Z) : Compressor Z → Prop
  | new : Reach f f.newCompressor
  | compress {c : Compressor Z} (src : Bytes) (cap : ℕ) (dict : Option Bytes) (h : Reach f c) :
      Reach f (c.compress src cap dict).2

/-- The factory's compressors are functions of their input: what one returns does
not depend on what it compressed before. -/
def Functional (f : CompressorFactory Z) : Prop :=
  ∃ g : Bytes → ℕ → Option Bytes → Except Err Bytes,
    ∀ c, f.Reach c → ∀ src cap dict, (c.compress src cap dict).1 = g src cap dict

end CompressorFactory

/-! ## What every compressor does -/

theorem lz4Ret_ok {ret out : Bytes} (h : lz4Ret ret = .ok out) : ret = out ∧ out ≠ [] := by
  rw [lz4Ret] at h
  by_cases hnil : ret = []
  · rw [if_pos hnil] at h
    cases h
  · rw [if_neg hnil, Except.ok.injEq] at h
    exact ⟨h, h ▸ hnil⟩

theorem joinCompress_ok {r : Except Err Bytes} {out : Bytes} (h : joinCompress r = .ok out) :
    r = .ok out := by
  cases r with
  | ok x => exact h
  | error e => cases h

theorem joinCompress_error {r : Except Err Bytes} {e : Err} (h : joinCompress r = .error e) :
    e.is (.const .errCompress) = true := by
  cases r with
  | ok x => cases h
  | error e' =>
      rw [joinCompress, Except.error.injEq] at h
      subst h
      simp [Err.is]

/-- A compressor succeeds with at least one byte and no more than the destination
holds. -/
theorem Compressor.compress_ok {c : Compressor Z} {src : Bytes} {cap : ℕ} {dict : Option Bytes}
    {out : Bytes} (h : (c.compress src cap dict).1 = .ok out) :
    out ≠ [] ∧ out.length ≤ cap := by
  cases c with
  | indieFast =>
      simp only [Compressor.compress] at h
      obtain ⟨rfl, hne⟩ := lz4Ret_ok (joinCompress_ok h)
      exact ⟨hne, Z.compressFast_le _ _ _⟩
  | indieLevel level =>
      simp only [Compressor.compress] at h
      obtain ⟨rfl, hne⟩ := lz4Ret_ok (joinCompress_ok h)
      exact ⟨hne, Z.compressHC_le _ _ _⟩
  | indieDict ctx strm =>
      simp only [Compressor.compress] at h
      obtain ⟨rfl, hne⟩ := lz4Ret_ok (joinCompress_ok h)
      exact ⟨hne, Z.compressFastContinue_le _ _ _ _⟩
  | indieDictHC level ctx strm =>
      simp only [Compressor.compress] at h
      obtain ⟨rfl, hne⟩ := lz4Ret_ok (joinCompress_ok h)
      exact ⟨hne, Z.compressHCContinue_le _ _ _⟩
  | linked ctx =>
      simp only [Compressor.compress] at h
      obtain ⟨rfl, hne⟩ := lz4Ret_ok (joinCompress_ok h)
      exact ⟨hne, Z.compressFastContinue_le _ _ _ _⟩
  | linkedHC ctx =>
      simp only [Compressor.compress] at h
      obtain ⟨rfl, hne⟩ := lz4Ret_ok h
      exact ⟨hne, Z.compressHCContinue_le _ _ _⟩

/-- The compressors that tag an engine failure with `ErrCompress`. -/
def Compressor.Tags : Compressor Z → Prop
  | .linkedHC _ => False
  | .indieFast | .indieLevel _ | .indieDict _ _ | .indieDictHC _ _ _ | .linked _ => True

theorem Compressor.compress_error {c : Compressor Z} (ht : c.Tags) {src : Bytes} {cap : ℕ}
    {dict : Option Bytes} {e : Err} (h : (c.compress src cap dict).1 = .error e) :
    e.is (.const .errCompress) = true := by
  cases c with
  | linkedHC ctx => exact ht.elim
  | indieFast => exact joinCompress_error h
  | indieLevel level => exact joinCompress_error h
  | indieDict ctx strm => exact joinCompress_error h
  | indieDictHC level ctx strm => exact joinCompress_error h
  | linked ctx => exact joinCompress_error h

/-- What the engine returns in `Compress`; the empty list is its return code 0. -/
def Compressor.engine (c : Compressor Z) (src : Bytes) (cap : ℕ) (dict : Option Bytes) : Bytes :=
  match c with
  | .indieFast => Z.compressFast src cap 1
  | .indieLevel level => Z.compressHC src cap level
  | .indieDict ctx strm =>
      (Z.compressFastContinue (Z.attachDictionary (Z.resetStreamFast ctx) strm) src cap 1).1
  | .indieDictHC level ctx strm =>
      (Z.compressHCContinue (Z.attachHCDictionary (Z.resetStreamHCFast ctx level) strm) src cap).1
  | .linked ctx => (Z.compressFastContinue (dict.elim ctx (Z.loadDict ctx)) src cap 1).1
  | .linkedHC ctx => (Z.compressHCContinue (dict.elim ctx (Z.loadDictHC ctx)) src cap).1

/-- The compressor for linked blocks above level 1. -/
def Compressor.isLinkedHC : Compressor Z → Bool
  | .linkedHC _ => true
  | .indieFast | .indieLevel _ | .indieDict _ _ | .indieDictHC _ _ _ | .linked _ => false

theorem Compressor.tags_iff (c : Compressor Z) : c.Tags ↔ c.isLinkedHC = false := by
  cases c <;> simp [Compressor.Tags, Compressor.isLinkedHC]

/-- Where the engine returns 0, `linkedCompressorHC` returns the error of the binding. -/
theorem Compressor.compress_of_linkedHC {c : Compressor Z} (hc : c.isLinkedHC = true)
    {src : Bytes} {cap : ℕ} {dict : Option Bytes} (h : c.engine src cap dict = []) :
    (c.compress src cap dict).1 = .error .lz4Compress := by
  cases c with
  | linkedHC ctx =>
      unfold Compressor.engine at h
      simp only [Compressor.compress, h, lz4Ret, if_true]
  | _ => cases hc

/-- The others tag it. -/
theorem Compressor.compress_of_nil {c : Compressor Z} (hc : c.isLinkedHC = false)
    {src : Bytes} {cap : ℕ} {dict : Option Bytes} (h : c.engine src cap dict = []) :
    (c.compress src cap dict).1 = .error (.join (.const .errCompress) .lz4Compress) := by
  cases c with
  | linkedHC ctx => cases hc
  | _ =>
      unfold Compressor.engine at h
      simp only [Compressor.compress, h, lz4Ret, if_true, joinCompress]

theorem Compressor.isLinkedHC_compress (c : Compressor Z) (src : Bytes) (cap : ℕ)
    (dict : Option Bytes) : (c.compress src cap dict).2.isLinkedHC = c.isLinkedHC := by
  cases c <;> rfl

theorem CompressorFactory.isLinkedHC_new (f : CompressorFactory Z) :
    f.newCompressor.isLinkedHC = (!f.indie && decide (f.level.val ≠ 1)) := by
  unfold newCompressor newIndie newLinked
  cases f.indie with
  | true =>
      simp only [if_true, Bool.not_true, Bool.false_and]
      split
      · rfl
      · rfl
      · split_ifs <;> rfl
  | false =>
      simp only [Bool.false_eq_true, if_false, Bool.not_false, Bool.true_and]
      by_cases hlevel : f.level.val = 1
      · simp [hlevel, Compressor.isLinkedHC]
      · simp [hlevel, Compressor.isLinkedHC]

/-- Which compressor a factory makes does not change with use. -/
theorem CompressorFactory.Reach.isLinkedHC {f : CompressorFactory Z} {c : Compressor Z}
    (h : f.Reach c) : c.isLinkedHC = (!f.indie && decide (f.level.val ≠ 1)) := by
  induction h with
  | new => exact f.isLinkedHC_new
  | compress src cap dict _ ih => rw [Compressor.isLinkedHC_compress, ih]

/-- Every state of a compressor for independent blocks tags its failures. -/
theorem CompressorFactory.Reach.tags {f : CompressorFactory Z} (hindie : f.indie = true)
    {c : Compressor Z} (h : f.Reach c) : c.Tags := by
  rw [Compressor.tags_iff, h.isLinkedHC, hindie]
  rfl

/-! ## Decompressors -/

/-- The implementations of `Decompressor`. -/
inductive Decompressor
  /-- `indieDecompressor` -/
  | indie
  /-- `indieDecompressorWithDict` -/
  | withDict (dict : DictT)

/-- `NewDecompressor`. A linked frame always comes with a dictionary, so the
second case never meets `none` there. -/
def newDecompressor (independent : Bool) (dict : Option DictT) : Decompressor :=
  match dict with
  | some d => .withDict d
  | none => if independent then .indie else .withDict (newDictT [] true)

namespace Decompressor

/-- The dictionary handed to the engine, if any. -/
def dict : Decompressor → Option Bytes
  | .indie => none
  | .withDict d => some d.data

/-- The engine call of the decompressor. -/
def decode (Z : Clz4) (ctx : Decompressor) (src : Bytes) (cap : ℕ) : Except ℤ Bytes :=
  match ctx with
  | .indie => Z.decompressSafe src cap
  | .withDict d => Z.decompressSafeUsingDict src cap d.data

/-- The decompressor once a block was decoded. -/
def after (ctx : Decompressor) (out : Bytes) : Decompressor :=
  match ctx with
  | .indie => .indie
  | .withDict d => .withDict (if d.needsUpdate then d.update out else d)

/-- `Decompress` into a destination of `cap` bytes. -/
def decompress (Z : Clz4) (ctx : Decompressor) (src : Bytes) (cap : ℕ) :
    Except Err Bytes × Decompressor :=
  match lz4DecompressRet (ctx.decode Z src cap) with
  | .ok out => (.ok out, ctx.after out)
  | .error e =>
      (.error (.join (.const .errCorrupted) (.join (.const .errDecompress) e)), ctx)

theorem decompress_ok {ctx : Decompressor} {src : Bytes} {cap : ℕ} {out : Bytes}
    (h : ctx.decode Z src cap = .ok out) :
    ctx.decompress Z src cap = (.ok out, ctx.after out) := by
  rw [decompress, h, lz4DecompressRet]

theorem decompress_error {ctx : Decompressor} {src : Bytes} {cap : ℕ} {code : ℤ}
    (h : ctx.decode Z src cap = .error code) :
    ctx.decompress Z src cap
      = (.error (.join (.const .errCorrupted)
          (.join (.const .errDecompress) (.lz4Decompress code))), ctx) := by
  rw [decompress, h, lz4DecompressRet]

/-- The linked flag of the dictionary, if there is one. -/
def linked : Decompressor → Bool
  | .indie => false
  | .withDict d => d.needsUpdate

/-- For independent blocks decoding leaves no trace. -/
theorem after_of_not_linked {ctx : Decompressor} (h : ctx.linked = false) (out : Bytes) :
    ctx.after out = ctx := by
  cases ctx with
  | indie => rfl
  | withDict d =>
      rw [linked] at h
      rw [after, h, if_neg Bool.false_ne_true]

theorem decompress_of_not_linked {ctx : Decompressor} (h : ctx.linked = false) (src : Bytes)
    (cap : ℕ) : (ctx.decompress Z src cap).2 = ctx := by
  rw [decompress]
  split
  · exact after_of_not_linked h _
  · rfl

end Decompressor

/-! ## An engine of literals

The engine restricted to inputs of fewer than 13 bytes, which LZ4 always encodes as
one sequence of literals. -/

/-- One token, then the literals. -/
def litEncode (source : Bytes) (dstCap : ℕ) : Bytes :=
  if source.length < 13 ∧ source.length + 1 ≤ dstCap then
    UInt8.ofNat (16 * source.length) :: source
  else []

/-- A block of one sequence of literals. -/
def litDecode (source : Bytes) (dstCap : ℕ) : Except ℤ Bytes :=
  match source with
  | [] => .error (-1)
  | token :: literals =>
      if token.toNat = 16 * literals.length ∧ literals.length < 15 ∧ literals.length ≤ dstCap then
        .ok literals
      else .error (-1)

theorem length_litEncode (source : Bytes) (dstCap : ℕ) :
    (litEncode source dstCap).length ≤ dstCap := by
  rw [litEncode]
  by_cases h : source.length < 13 ∧ source.length + 1 ≤ dstCap
  · rw [if_pos h]
    exact h.2
  · rw [if_neg h]
    exact Nat.zero_le _

theorem length_litDecode (source : Bytes) (dstCap : ℕ) (out : Bytes)
    (h : litDecode source dstCap = .ok out) : out.length ≤ dstCap := by
  rcases source with _ | ⟨token, literals⟩
  · cases h
  · rw [litDecode] at h
    split_ifs at h with hc
    rw [Except.ok.injEq] at h
    exact h ▸ hc.2.2

/-- Literals are decoded back. -/
theorem litDecode_litEncode {source : Bytes} {cap dstCap : ℕ} (hne : litEncode source cap ≠ [])
    (h : source.length ≤ dstCap) : litDecode (litEncode source cap) dstCap = .ok source := by
  rw [litEncode] at hne ⊢
  by_cases hc : source.length < 13 ∧ source.length + 1 ≤ cap
  · rw [if_pos hc, litDecode, if_pos]
    refine ⟨?_, by omega, h⟩
    rw [UInt8.toNat_ofNat']
    omega
  · rw [if_neg hc] at hne
    exact absurd rfl hne

/-- The engine of literals. -/
def litEngine : Clz4 where
  Stream := Unit
  StreamHC := Unit
  zero := ()
  zeroHC := ()
  compressFast := fun s n _ => litEncode s n
  compressHC := fun s n _ => litEncode s n
  resetStreamFast := id
  loadDict := fun c _ => c
  loadDictSlow := fun c _ => c
  attachDictionary := fun c _ => c
  compressFastContinue := fun c s n _ => (litEncode s n, c)
  resetStreamHCFast := fun c _ => c
  loadDictHC := fun c _ => c
  attachHCDictionary := fun c _ => c
  compressHCContinue := fun c s n => (litEncode s n, c)
  decompressSafe := litDecode
  decompressSafeUsingDict := fun s n _ => litDecode s n
  compressFast_le := fun s n _ => length_litEncode s n
  compressHC_le := fun s n _ => length_litEncode s n
  compressFastContinue_le := fun _ s n _ => length_litEncode s n
  compressHCContinue_le := fun _ s n => length_litEncode s n
  decompressSafe_le := length_litDecode
  decompressSafeUsingDict_le := fun s n _ => length_litDecode s n

end Plz4
