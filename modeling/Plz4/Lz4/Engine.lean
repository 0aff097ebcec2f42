/-
The C functions behind the bindings as an engine, and what its compressors of level 1 are
good for.

Of what the C code does not decide, `Build` has a choice: the loops that are compiled in,
what a destination held before, and whether two buffers happen to lie one behind the other.
Nothing below depends on the choice. The functions of `lz4hc.c` are those of another engine.
A context that has been misused is `none`, and so is one that was given a source so long that
`LZ4_renormDictT` would overflow, 2 GiB less 64 KiB. What is longer than `LZ4_MAX_INPUT_SIZE`
is refused, and the context may be used again.
-/
import Plz4.Lz4.DecompressSafe
import Plz4.Lz4.StreamSpec
import Plz4.RoundTrip

set_option autoImplicit false

namespace Plz4.Lz4

/-! ## The engine -/

/-- What the C code leaves to the build and to memory. -/
structure Build where
  /-- `LZ4_FAST_DEC_LOOP` -/
  fastDecLoop : Bool
  /-- what a buffer of a length holds before the call -/
  dest : ℕ → Bytes
  length_dest : ∀ n, (dest n).length = n
  /-- whether the first of two buffers ends where the second begins -/
  adjacent : Bytes → Bytes → Bool

/-- `dst[:ret]`, of a destination of `n` bytes. -/
def written (n : ℕ) (r : ℕ × Bytes) : Bytes := r.2.take (min r.1 n)

theorem length_written (n : ℕ) (r : ℕ × Bytes) : (written n r).length ≤ n := by
  rw [written, List.length_take]
  omega

/-- A source that is too long is refused. -/
theorem compressFast_large {src : Bytes} (hn : maxInputSize < src.length) (mem : Bytes) (a : ℤ) :
    compressFast src mem a = some (0, mem) := by
  have hbound : compressBound src.length = 0 := if_pos hn
  rw [compressFast, hbound, if_pos (Nat.zero_le _), compressGeneric, if_pos hn]
  rfl

theorem compressFast_isSome (src mem : Bytes) (acceleration : ℤ) :
    (compressFast src mem acceleration).isSome = true := by
  by_cases hn : src.length ≤ maxInputSize
  · obtain ⟨value, mem', hrun, -⟩ := compressFast_spec src mem acceleration hn
    rw [hrun, Option.isSome_some]
  · rw [compressFast_large (by omega), Option.isSome_some]

theorem decompressSafe_isSome (fastDecLoop : Bool) (src dst : Bytes) :
    (decompressSafe fastDecLoop src dst).isSome = true := by
  obtain ⟨r, hr, -⟩ := decompressSafe_spec fastDecLoop src dst
  rw [hr, Option.isSome_some]

theorem decompressSafeUsingDict_isSome (fastDecLoop : Bool) (src dst dict : Bytes) (adjacent : Bool) :
    (decompressSafeUsingDict fastDecLoop src dst dict adjacent).isSome = true := by
  obtain ⟨r, hr, -⟩ := decompressSafeUsingDict_spec fastDecLoop src dst dict adjacent
  rw [hr, Option.isSome_some]

/-- The sources `LZ4_renormDictT` does not overflow on. -/
def maxContinueSize : ℕ := 2 ^ 31 - 65536

/-- `LZ4_compress_fast_continue` on a context that may have been misused. -/
def continueFast (B : Build) (ctx : Option LZ4Stream) (src : Bytes) (dstCap : ℕ) (acceleration : ℤ) :
    Bytes × Option LZ4Stream :=
  let run :=
    if src.length ≥ maxContinueSize then none
    else ctx.bind (fun s => compressFastContinue s src (B.dest dstCap) acceleration
      (B.adjacent s.dictionary src))
  ((run.map (fun r => written dstCap (r.1, r.2.1))).getD [], run.map (fun r => r.2.2))

theorem length_continueFast (B : Build) (ctx : Option LZ4Stream) (src : Bytes) (dstCap : ℕ)
    (acceleration : ℤ) : (continueFast B ctx src dstCap acceleration).1.length ≤ dstCap := by
  rw [continueFast]
  dsimp only
  generalize (if src.length ≥ maxContinueSize then none else _ : Option (ℕ × Bytes × LZ4Stream))
    = run
  rcases run with _ | r
  · exact Nat.zero_le _
  · exact length_written dstCap _

/-- What a decode function makes of its result. -/
def decodedBytes {r : Option (ℤ × Bytes)} (h : r.isSome = true) : Except ℤ Bytes := decoded (r.get h)

theorem engine_decompressSafe_eq (B : Build) (src : Bytes) (dstCap : ℕ) :
    decodedBytes (decompressSafe_isSome B.fastDecLoop src (B.dest dstCap))
      = plainDecode 0 [] src dstCap := by
  obtain ⟨r, hr, hdec⟩ := decompressSafe_spec B.fastDecLoop src (B.dest dstCap)
  rw [B.length_dest] at hdec
  rw [← hdec, decodedBytes]
  congr 1
  exact Option.get_of_eq_some _ hr

theorem engine_decompressSafeUsingDict_eq (B : Build) (src : Bytes) (dstCap : ℕ) (dict : Bytes)
    (adjacent : Bool) :
    decodedBytes (decompressSafeUsingDict_isSome B.fastDecLoop src (B.dest dstCap) dict adjacent)
      = plainDecode (extLength dict adjacent) dict src dstCap := by
  obtain ⟨r, hr, hdec⟩ := decompressSafeUsingDict_spec B.fastDecLoop src (B.dest dstCap) dict adjacent
  rw [B.length_dest] at hdec
  rw [← hdec, decodedBytes]
  congr 1
  exact Option.get_of_eq_some _ hr

/-- The engine of `lz4.c`; the functions of `lz4hc.c` are those of `H`. -/
def engine (B : Build) (H : Clz4) : Clz4 :=
  { H with
    Stream := Option LZ4Stream
    zero := some initStream
    compressFast := fun src n a =>
      written n ((compressFast src (B.dest n) a).get (compressFast_isSome src (B.dest n) a))
    resetStreamFast := Option.map resetStreamFast
    loadDict := fun _ dict => loadDict dict
    loadDictSlow := fun _ dict => loadDictSlow dict
    attachDictionary := fun ctx dict =>
      ctx.bind (fun c => dict.map (fun d => attachDictionary c (some d)))
    compressFastContinue := continueFast B
    decompressSafe := fun src n => decodedBytes (decompressSafe_isSome B.fastDecLoop src (B.dest n))
    decompressSafeUsingDict := fun src n dict =>
      decodedBytes (decompressSafeUsingDict_isSome B.fastDecLoop src (B.dest n) dict
        (B.adjacent dict (B.dest n)))
    compressFast_le := fun _ n _ => length_written n _
    compressFastContinue_le := length_continueFast B
    decompressSafe_le := fun src n out h => by
      rw [engine_decompressSafe_eq] at h
      obtain ⟨-, -, -, -, -, -, hle⟩ := plainDecode_sound h
      exact hle
    decompressSafeUsingDict_le := fun src n dict out h => by
      rw [engine_decompressSafeUsingDict_eq] at h
      obtain ⟨-, -, -, -, -, -, hle⟩ := plainDecode_sound h
      exact hle }

/-! ## What the calls return -/

variable {B : Build} {H : Clz4} {src : Bytes} {s : LZ4Stream}

/-- The bytes of a result. -/
theorem Outcome.written {hist mem mem' : Bytes} {value : ℕ} (h : Outcome hist src mem value mem') :
    (written mem.length (value, mem') = [] ∧ mem.length < compressBound src.length)
      ∨ BlockOf hist src (written mem.length (value, mem')) := by
  rcases h.2 with ⟨rfl, hlt⟩ | ⟨hblock, hle⟩
  · refine .inl ⟨?_, hlt⟩
    rw [Lz4.written, Nat.zero_min, List.take_zero]
  · right
    rw [Lz4.written, Nat.min_eq_left hle]
    exact hblock

/-- **`CompressFast`**: a block of the source, or 0 for want of room. -/
theorem engine_compressFast (B : Build) (H : Clz4) (hn : src.length ≤ maxInputSize) (cap : ℕ) (a : ℤ) :
    ((engine B H).compressFast src cap a = [] ∧ cap < compressBound src.length)
      ∨ BlockOf [] src ((engine B H).compressFast src cap a) := by
  obtain ⟨value, mem', hrun, hout⟩ := compressFast_spec src (B.dest cap) a hn
  have heq : (engine B H).compressFast src cap a = written cap (value, mem') :=
    congrArg (written cap) (Option.get_of_eq_some _ hrun)
  have hres := hout.written
  rw [B.length_dest] at hres
  rw [heq]
  exact hres

/-- What `CompressFast` returns is 0 or a block of the source. -/
theorem block_of_compressFast {out : Bytes} {cap : ℕ} {a : ℤ}
    (h : (engine B H).compressFast src cap a = out) (hne : out ≠ []) : BlockOf [] src out := by
  subst h
  by_cases hn : src.length ≤ maxInputSize
  · rcases engine_compressFast B H hn cap a with ⟨hnil, -⟩ | hblock
    · exact absurd hnil hne
    · exact hblock
  · have heq : (engine B H).compressFast src cap a = written cap (0, B.dest cap) :=
      congrArg (written cap) (Option.get_of_eq_some _ (compressFast_large (by omega) _ a))
    rw [heq, written, Nat.zero_min, List.take_zero] at hne
    exact absurd rfl hne

theorem lt_maxContinueSize (hn : src.length ≤ maxInputSize) : ¬ src.length ≥ maxContinueSize := by
  have hmax : maxInputSize = 0x7E000000 := rfl
  rw [maxContinueSize]
  omega

/-- A source that is too long is refused; it leaves a context that may be reset. -/
theorem continueFast_large {ctx : Option LZ4Stream} (h : ∀ s, ctx = some s → s.Ok)
    (hn : maxInputSize < src.length) (cap : ℕ) (a : ℤ) :
    (continueFast B ctx src cap a).1 = []
      ∧ ∀ s', (continueFast B ctx src cap a).2 = some s' → s'.Resettable := by
  rw [continueFast]
  by_cases hlong : src.length ≥ maxContinueSize
  · rw [if_pos hlong]
    exact ⟨rfl, fun s' hs' => (by cases hs')⟩
  rw [if_neg hlong]
  rcases ctx with _ | s
  · exact ⟨rfl, fun s' hs' => (by cases hs')⟩
  · obtain ⟨s', hrun, hres⟩ := compressFastContinue_large (h s rfl) src (B.dest cap) a
      (B.adjacent s.dictionary src) hn (Nat.lt_of_not_le hlong)
    dsimp only
    rw [Option.bind_some, hrun]
    refine ⟨?_, fun s'' hs'' => ?_⟩
    · rw [Option.map_some, Option.getD_some, written, Nat.zero_min, List.take_zero]
    · exact Option.some.inj hs'' ▸ hres

/-- **A call on a context that may be used** leaves one that may be used again, and
returns a block of the source behind the context's history, or 0 for want of room. -/
theorem continueFast_spec (h : s.Ok) (hn : src.length ≤ maxInputSize) (cap : ℕ) (a : ℤ) :
    ∃ s', (continueFast B (some s) src cap a).2 = some s' ∧ s'.Ok ∧ s'.currentOffset ≤ 2 ^ 31
      ∧ (((continueFast B (some s) src cap a).1 = [] ∧ cap < compressBound src.length)
        ∨ BlockOf s.history src (continueFast B (some s) src cap a).1) := by
  obtain ⟨value, mem', s', hrun, hok, hoff, hout⟩ :=
    compressFastContinue_spec h src (B.dest cap) a (B.adjacent s.dictionary src) hn
  have heq : continueFast B (some s) src cap a = (written cap (value, mem'), some s') := by
    rw [continueFast, if_neg (lt_maxContinueSize hn), Option.bind_some, hrun]
    rfl
  have hres := hout.written
  rw [B.length_dest] at hres
  rw [heq]
  exact ⟨s', rfl, hok, hoff, hres⟩

/-- What a call on a context returns is 0 or a block of the source behind its history. -/
theorem block_of_continueFast {ctx : Option LZ4Stream} {hist out : Bytes} {cap : ℕ} {a : ℤ}
    (hctx : ∀ s, ctx = some s → s.Ok ∧ s.history <:+ hist)
    (h : (continueFast B ctx src cap a).1 = out) (hne : out ≠ []) : BlockOf hist src out := by
  subst h
  by_cases hn : src.length ≤ maxInputSize
  · rcases ctx with _ | s
    · rw [continueFast, if_neg (lt_maxContinueSize hn)] at hne
      exact absurd rfl hne
    · obtain ⟨hok, hsuf⟩ := hctx s rfl
      obtain ⟨-, -, -, -, ⟨hnil, -⟩ | hblock⟩ := continueFast_spec (B := B) hok hn cap a
      · exact absurd hnil hne
      · exact hblock.longer hsuf
  · exact absurd (continueFast_large (fun s hs => (hctx s hs).1) (by omega) cap a).1 hne

/-! ## The compressors of level 1 -/

/-- A context as the compressors leave it. -/
def Usable (ctx : Option LZ4Stream) : Prop := ∀ s, ctx = some s → s.Resettable

theorem usable_continueFast {ctx : Option LZ4Stream} (h : ∀ s, ctx = some s → s.Ok) (cap : ℕ) (a : ℤ) :
    Usable (continueFast B ctx src cap a).2 := by
  intro s' hs'
  by_cases hn : src.length ≤ maxInputSize
  · rcases hctx : ctx with _ | s
    · rw [hctx, continueFast, if_neg (lt_maxContinueSize hn)] at hs'
      cases hs'
    · obtain ⟨s₁, hs₁, hok, hoff, -⟩ := continueFast_spec (B := B) (h s hctx) hn cap a
      rw [hctx, hs₁, Option.some.injEq] at hs'
      exact hs' ▸ hok.resettable hoff
  · exact (continueFast_large h (by omega) cap a).2 s' hs'

/-- The states of a compressor for independent blocks behind `dict`. -/
def Fit (dict : Bytes) : Compressor (engine B H) → Prop
  | .indieFast => True
  | .indieDict ctx strm => Usable ctx
      ∧ ∃ d : LZ4Stream, strm = some d ∧ d.toStreamData.Loaded ∧ d.dictionary <:+ dict
  | .indieLevel _ | .indieDictHC _ _ _ | .linked _ | .linkedHC _ => False

/-- A context that was reset, with a loaded dictionary attached. -/
theorem attached_spec {d : LZ4Stream} (h : s.Resettable)
    (hd : d.toStreamData.Loaded) :
    (attachDictionary (resetStreamFast s) (some d)).Ok
      ∧ (attachDictionary (resetStreamFast s) (some d)).history = d.dictionary := by
  obtain ⟨hok, hhist, hctx, hoff⟩ := resetStreamFast_spec h
  exact attachDictionary_spec hok hhist hctx hoff hd

variable {dict : Bytes} {cmp : Compressor (engine B H)}

/-- **One call of a compressor**: the compressor stays fit, and a block it returns is one
of the source behind the dictionary. -/
theorem Fit.compress (h : Fit dict cmp) (src : Bytes) (cap : ℕ) (d : Option Bytes) :
    Fit dict (cmp.compress src cap d).2
      ∧ ∀ out, (cmp.compress src cap d).1 = .ok out → BlockOf dict src out := by
  cases cmp with
  | indieFast =>
      refine ⟨trivial, fun out hout => ?_⟩
      obtain ⟨hret, hne⟩ := lz4Ret_ok (joinCompress_ok hout)
      exact (block_of_compressFast hret hne).longer List.nil_suffix
  | indieDict ctx strm =>
      obtain ⟨hctx, l, rfl, hloaded, hsuf⟩ := h
      have hatt : ∀ s', (engine B H).attachDictionary ((engine B H).resetStreamFast ctx) (some l)
          = some s' → s'.Ok ∧ s'.history <:+ dict := by
        intro s' hs'
        rcases ctx with _ | s
        · cases hs'
        · obtain rfl := Option.some.inj hs'
          obtain ⟨hok', hhist⟩ := attached_spec (hctx s rfl) hloaded
          exact ⟨hok', hhist ▸ hsuf⟩
      refine ⟨⟨usable_continueFast (fun s' hs' => (hatt s' hs').1) cap 1, l, rfl, hloaded, hsuf⟩,
        fun out hout => ?_⟩
      obtain ⟨hret, hne⟩ := lz4Ret_ok (joinCompress_ok hout)
      exact block_of_continueFast hatt hret hne
  | indieLevel level => exact h.elim
  | indieDictHC level ctx strm => exact h.elim
  | linked ctx => exact h.elim
  | linkedHC ctx => exact h.elim

/-- The dictionary of the compressors, and of the decompressor. -/
def dictData (dict : Option DictT) : Bytes := (dict.map DictT.data).getD []

/-- Every state of a compressor of level 1 is fit. -/
theorem fit_of_reach {level : LevelT} (hlevel : level.val = 1) {dict : Option DictT}
    (h : (newCompressorFactory (engine B H) level true dict).Reach cmp) : Fit (dictData dict) cmp := by
  induction h with
  | new =>
      rcases dict with _ | d
      · have hnew : (newCompressorFactory (engine B H) level true none).newCompressor = .indieFast := by
          rw [newCompressorFactory, CompressorFactory.newCompressor, if_pos rfl,
            CompressorFactory.newIndie]
          exact if_pos (Nat.le_of_eq hlevel)
        rw [hnew]
        exact trivial
      · obtain ⟨l, hl, hloaded, -, hsuf⟩ := loadDictInternal_spec true d.data
        have hnew : (newCompressorFactory (engine B H) level true (some d)).newCompressor
            = .indieDict (engine B H).zero (newDictCtx (engine B H) d.data) := by
          rw [newCompressorFactory, if_pos hlevel, CompressorFactory.newCompressor, if_pos rfl, CompressorFactory.newIndie]
        have hdict : newDictCtx (engine B H) d.data = some l := hl
        rw [hnew, hdict]
        refine ⟨?_, l, rfl, hloaded, hsuf⟩
        rintro s ⟨rfl⟩
        exact ok_initStream.resettable (Nat.zero_le _)
  | compress src cap d _ ih => exact (ih.compress src cap d).1

/-- What the decompressor makes of a block. -/
theorem decode_engine (dict : Option DictT) {src block : Bytes} (h : BlockOf (dictData dict) src block)
    {cap : ℕ} (hcap : src.length ≤ cap) :
    (newDecompressor true dict).decode (engine B H) block cap = .ok src := by
  rcases dict with _ | d
  · exact (engine_decompressSafe_eq B block cap).trans (h.decode hcap)
  · exact (engine_decompressSafeUsingDict_eq B block cap d.data _).trans (h.decode hcap)

/-- **The block codec of level 1.** Whatever a compressor for independent blocks has been
through, the decompressor brings back what it compressed. -/
theorem codec_engine (B : Build) (H : Clz4) {o : OptsT} (hindep : o.blockLinked = false)
    (hlevel : o.level.val = 1) : Codec (engine B H) o := by
  intro cmp hreach src out n hlen hout
  rw [OptsT.newCompressorFactory, hindep] at hreach
  exact decode_engine _ (((fit_of_reach hlevel hreach).compress src o.bsz none).2 out hout) hlen

/-- **The codec of level 1**, across builds. Whatever a compressor for independent blocks has
been through, every block it returns is decoded by the decompressor of any build. -/
theorem level1_decodes {level : LevelT} (hlevel : level.val = 1) {dict : Option DictT}
    (hreach : (newCompressorFactory (engine B H) level true dict).Reach cmp) {src out : Bytes}
    {cap n : ℕ} {d : Option Bytes} (hout : (cmp.compress src cap d).1 = .ok out) (hn : src.length ≤ n)
    (B' : Build) (H' : Clz4) : (newDecompressor true dict).decode (engine B' H') out n = .ok src :=
  decode_engine dict (((fit_of_reach hlevel hreach).compress src cap d).2 out hout) hn

/-- A build whose memory is zeroed and whose buffers are never adjacent. -/
def zeroBuild (fastDecLoop : Bool) : Build where
  fastDecLoop := fastDecLoop
  dest := fun n => List.replicate n 0
  length_dest := fun _ => List.length_replicate
  adjacent := fun _ _ => false

theorem level1_decodes_literals :
    (newDecompressor true none).decode (engine (zeroBuild true) litEngine) [0x20, 7, 8] 2 = .ok [7, 8] := by
  let f := newCompressorFactory (engine (zeroBuild false) litEngine) ⟨1, by decide, by decide⟩ true none
  have hreach : f.Reach f.newCompressor := .new
  have hout : (f.newCompressor.compress [7, 8] 3 none).1 = .ok [0x20, 7, 8] := by decide +kernel
  exact level1_decodes rfl hreach hout (by decide) (zeroBuild true) litEngine

/-- **Frame round trip of level 1**, with nothing assumed of the block codec. A Reader with
the same dictionary delivers the content that was fed to a Writer of independent blocks, and
then the clean end of the stream. -/
theorem newReader_round_trip_level1 {B : Build} {H : Clz4} {o r r' : OptsT} {fs : List Feed}
    {out : Bytes} {progress : List (ℕ × ℕ)} (hindep : o.blockLinked = false)
    (hlevel : o.level.val = 1)
    (hsz : ∀ sz, o.contentSz = some sz → sz = UInt64.ofNat (content fs).length)
    (hout : Output (engine B H) o fs out progress) (S : Sched (engine B H)) (seeks : Option SeekT)
    (hoff : r.readOffset = 0) (hask : askDict r (headerOf o) = (none, r'))
    (hdict : r'.dictionary = o.dictionary)
    (hrsz : ∀ sz, r.contentSz = some sz → sz = UInt64.ofNat (content fs).length) :
    (newReader out seeks r).Delivers S (content fs) .eof := by
  rw [newReader_delivers_iff]
  exact decodeStream_written hindep (codec_engine B H hindep hlevel) hsz hout (.inl hoff) hask hdict hrsz

/-- Two writes with a flush between them. -/
theorem newReader_round_trip_level1_two :
    ∃ out progress, Output (engine (zeroBuild true) litEngine) .default
        [.write [1, 2], .flush, .write [3]] out progress
      ∧ ∀ S : Sched (engine (zeroBuild true) litEngine),
        (newReader out (some seekOk) .sync64KB).Delivers S
          (content [.write [1, 2], .flush, .write [3]]) .eof := by
  obtain ⟨out, progress, hout⟩ := exists_output (engine (zeroBuild true) litEngine) (o := .default) rfl
    (by rintro - _ ⟨⟩) [.write [1, 2], .flush, .write [3]]
  exact ⟨out, progress, hout, fun S =>
    newReader_round_trip_level1 rfl rfl (by rintro _ ⟨⟩) hout S (some seekOk) rfl
    rfl rfl (by rintro _ ⟨⟩)⟩

end Plz4.Lz4
