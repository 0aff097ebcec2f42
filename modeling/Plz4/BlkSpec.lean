/-
What `CompressToBlk` makes, `FrameReader.Read` takes apart, and what `Read` accepts
it accepts whatever follows and on no proper prefix.
-/
import Plz4.Blk
import Plz4.HeaderSpec

set_option autoImplicit false

namespace Plz4

open LittleEndian Xxh32

variable {Z : Clz4}

/-! ## Size words -/

/-- The size word of a block that is not empty or is stored: never the end mark, and
its fields are what was put in. -/
theorem blkWord_spec (stored : Bool) {n : ℕ} (h : n < 2 ^ 31) (hpos : stored = true ∨ 0 < n) :
    ((if stored then DataBlockSize.setUncompressed ⟨0⟩ else ⟨0⟩ : DataBlockSize).setSize n).eof
        = false
      ∧ ((if stored then DataBlockSize.setUncompressed ⟨0⟩ else ⟨0⟩ : DataBlockSize).setSize n).size
        = n
      ∧ ((if stored then DataBlockSize.setUncompressed ⟨0⟩ else ⟨0⟩ : DataBlockSize).setSize
          n).uncompressed = stored := by
  have heof : ∀ w : DataBlockSize, w.raw.toNat ≠ 0 → w.eof = false := by
    intro w hw
    rw [DataBlockSize.eof, decide_eq_false_iff_not, ← UInt32.toNat_inj]
    exact hw
  cases stored with
  | true =>
      have hraw := DataBlockSize.toNat_setSize_stored h
      simp only [if_true]
      refine ⟨heof _ (by omega), ?_, ?_⟩
      · rw [DataBlockSize.size_eq, hraw]
        omega
      · rw [DataBlockSize.uncompressed_iff, hraw]
        omega
  | false =>
      have hraw := DataBlockSize.toNat_setSize_zero h
      simp only [Bool.false_eq_true, if_false]
      have hpos' : 0 < n := by
        rcases hpos with h | h
        · cases h
        · exact h
      refine ⟨heof _ (by omega), ?_, ?_⟩
      · rw [DataBlockSize.size_eq, hraw]
        omega
      · rw [← Bool.not_eq_true, DataBlockSize.uncompressed_iff, hraw]
        omega

/-! ## What `CompressToBlk` makes -/

/-- The stored bit and the data of the block made from `src`. -/
structure BlkOf (cmp : Compressor Z) (src : Bytes) (bsz : ℕ) (dict : Option Bytes) (stored : Bool)
    (data : Bytes) : Prop where
  of_stored : stored = true → data = src
  of_compressed : stored = false → data ≠ [] ∧ (cmp.compress src bsz dict).1 = .ok data
  length_le : data.length ≤ bsz

/-- **Incompressible data is stored.** A compressor that tags its failures never fails
a block: the block holds the engine's output or the source itself. -/
theorem compressToBlk_spec {cmp : Compressor Z} (htags : cmp.Tags) {src : Bytes} {bsz : ℕ}
    (hsrc : src.length ≤ bsz) (checksum : Bool) (dict : Option Bytes) :
    ∃ stored data, BlkOf cmp src bsz dict stored data
      ∧ (compressToBlk src cmp bsz checksum dict).1 = .ok (blkBytes stored data checksum) := by
  have htake : src.take bsz = src := List.take_of_length_le hsrc
  rcases hret : (cmp.compress src bsz dict).1 with e | out
  · have hstored : BlkOf cmp src bsz dict true src :=
      ⟨fun _ => rfl, fun h => (by cases h), hsrc⟩
    refine ⟨true, src, hstored, ?_⟩
    simp only [compressToBlk, hret, if_pos (Compressor.compress_error htags hret), htake]
  · obtain ⟨hne, hlen⟩ := Compressor.compress_ok hret
    refine ⟨false, out, ⟨fun h => (by cases h), fun _ => ⟨hne, hret⟩, hlen⟩, ?_⟩
    simp only [compressToBlk, hret, if_neg hne]

/-- A compressor other than `linkedCompressorHC` never fails a block. -/
theorem compressToBlk_isOk {o : OptsT} {cmp : Compressor Z}
    (hreach : (o.newCompressorFactory Z).Reach cmp)
    (h : o.blockLinked = false ∨ o.level.val = 1) (src : Bytes) (dict : Option Bytes) :
    (compressToBlk src cmp o.bsz o.blockChecksum dict).1.isOk = true := by
  have htags := (Compressor.tags_iff cmp).mpr ((OptsT.isLinkedHC_of_reach hreach).mpr h)
  rcases hret : (cmp.compress src o.bsz dict).1 with e | out
  · simp only [compressToBlk, hret, if_pos (Compressor.compress_error htags hret)]
    rfl
  · simp only [compressToBlk, hret, if_neg (Compressor.compress_ok hret).1]
    rfl

/-- The compressor for linked blocks above level 1, as `CompressToBlk` uses it. -/
theorem compressToBlk_linkedHC {cmp : Compressor Z} {src : Bytes} {n : ℕ}
    {dict : Option Bytes} (hcmp : cmp.isLinkedHC = true) (h : cmp.engine src n dict ≠ [])
    (checksum : Bool) : ∃ cmp', compressToBlk src cmp n checksum dict
      = (.ok (blkBytes false (cmp.engine src n dict) checksum), cmp') := by
  refine ⟨(cmp.compress src n dict).2, ?_⟩
  cases cmp with
  | linkedHC ctx =>
      simp only [Compressor.engine] at h
      simp only [compressToBlk, Compressor.compress, lz4Ret, if_neg h, Compressor.engine]
  | _ => cases hcmp

/-- No compressor of the factory fails a block. -/
def MakesAll (Z : Clz4) (o : OptsT) : Prop :=
  ∀ cmp : Compressor Z, (o.newCompressorFactory Z).Reach cmp → ∀ src dict,
    (compressToBlk src cmp o.bsz o.blockChecksum dict).1.isOk = true

theorem makesAll_of_opts {o : OptsT} (h : o.blockLinked = false ∨ o.level.val = 1) : MakesAll Z o :=
  fun _ hreach src dict => compressToBlk_isOk hreach h src dict

/-- The stored block of `src`: the stored bit, the length, the source itself, and the
checksum if it is on. -/
structure StoredBlk (src : Bytes) (checksum : Bool) (b : Bytes) : Prop where
  split : b = b.take 4 ++ src ++ if checksum then putU32 (checksumZero src) else []
  uncompressed : (⟨getU32 b⟩ : DataBlockSize).uncompressed = true
  size : (⟨getU32 b⟩ : DataBlockSize).size = src.length

theorem storedBlk {src : Bytes} (h : src.length < 2 ^ 31) (checksum : Bool) :
    StoredBlk src checksum (blkBytes true src checksum) := by
  obtain ⟨-, hsize, hunc⟩ := blkWord_spec true h (.inl rfl)
  simp only [if_true] at hsize hunc
  have hbytes : blkBytes true src checksum
      = putU32 ((DataBlockSize.setUncompressed ⟨0⟩).setSize src.length).raw
        ++ (src ++ if checksum then putU32 (checksumZero src) else []) := by
    simp only [blkBytes, if_true, List.append_assoc]
  have hget : getU32 (blkBytes true src checksum)
      = ((DataBlockSize.setUncompressed ⟨0⟩).setSize src.length).raw := by
    rw [hbytes, getU32_putU32_append]
  refine ⟨?_, by rw [hget]; exact hunc, by rw [hget]; exact hsize⟩
  have htake : (blkBytes true src checksum).take 4
      = putU32 ((DataBlockSize.setUncompressed ⟨0⟩).setSize src.length).raw := by
    rw [hbytes]
    exact List.take_left' (length_putU32 _)
  rw [htake, hbytes, List.append_assoc]

/-- **Incompressible data.** Where the engine returns 0, a stored block comes out except
from the compressor for linked blocks above level 1. -/
theorem compressToBlk_nil_iff {o : OptsT} {cmp : Compressor Z}
    (hreach : (o.newCompressorFactory Z).Reach cmp) {src : Bytes} (hsrc : src.length ≤ o.bsz)
    {dict : Option Bytes} (hnil : cmp.engine src o.bsz dict = []) :
    (∃ b, (compressToBlk src cmp o.bsz o.blockChecksum dict).1 = .ok b
        ∧ StoredBlk src o.blockChecksum b)
      ↔ o.blockLinked = false ∨ o.level.val = 1 := by
  have hbsz := o.bsz_bounds.2
  rw [← OptsT.isLinkedHC_of_reach hreach]
  constructor
  · rintro ⟨b, hb, -⟩
    by_contra hlinked
    rw [Bool.not_eq_false] at hlinked
    have hret := Compressor.compress_of_linkedHC hlinked hnil
    simp [compressToBlk, hret, Err.is] at hb
  · intro htags
    have hret := Compressor.compress_of_nil htags hnil
    refine ⟨blkBytes true src o.blockChecksum, ?_, storedBlk (by omega) _⟩
    simp [compressToBlk, hret, Err.is, List.take_of_length_le hsrc]

theorem compressToBlk_cmp (cmp : Compressor Z) (src : Bytes) (bsz : ℕ) (checksum : Bool)
    (dict : Option Bytes) :
    (compressToBlk src cmp bsz checksum dict).2 = (cmp.compress src bsz dict).2 := by
  rcases hret : (cmp.compress src bsz dict).1 with e | out
  · simp only [compressToBlk, hret]
    split_ifs <;> rfl
  · simp only [compressToBlk, hret]
    split_ifs <;> rfl

/-! ## Reading a block back -/

theorem checkBlkHash_exact (data : Bytes) :
    checkBlkHash (data ++ putU32 (checksumZero data)) = none
      ∧ (data ++ putU32 (checksumZero data)).take
          ((data ++ putU32 (checksumZero data)).length - 4) = data := by
  have hlen : (data ++ putU32 (checksumZero data)).length - 4 = data.length := by
    rw [List.length_append, length_putU32]
    omega
  have htake : (data ++ putU32 (checksumZero data)).take data.length = data :=
    List.take_left' rfl
  refine ⟨?_, by rw [hlen, htake]⟩
  simp only [checkBlkHash, hlen, htake, List.drop_left, getU32_putU32, ne_eq, not_true_eq_false,
    if_false]

/-- **Block round trip.** A block that fits the reader is read back as it was made. -/
theorem read_blkBytes (fr : FrameReader) (stored : Bool) {data : Bytes} (t : Bytes)
    (hlen : data.length ≤ fr.bsz) (hbsz : fr.bsz < 2 ^ 31)
    (hpos : stored = true ∨ data ≠ []) :
    fr.read (blkBytes stored data fr.blkCheck ++ t)
      = ((.ok ⟨data, (blkBytes stored data fr.blkCheck).length, stored⟩, fr), t) := by
  obtain ⟨heof, hsize, hunc⟩ := blkWord_spec stored (n := data.length) (by omega)
    (hpos.imp_right List.length_pos_iff.mpr)
  set w := (if stored then DataBlockSize.setUncompressed ⟨0⟩ else ⟨0⟩ : DataBlockSize).setSize
    data.length with hw
  set hash := if fr.blkCheck then putU32 (checksumZero data) else [] with hhash
  have hbytes : blkBytes stored data fr.blkCheck = putU32 w.raw ++ (data ++ hash) := by
    simp only [blkBytes, ← hw, ← hhash, List.append_assoc]
  have hword := readFull_append (n := 4) (data ++ hash ++ t) (length_putU32 w.raw)
  have hget : (⟨getU32 (putU32 w.raw)⟩ : DataBlockSize) = w := by rw [getU32_putU32]
  have hdata : (data ++ hash).length = if fr.blkCheck then data.length + 4 else data.length := by
    rw [hhash, List.length_append]
    by_cases hc : fr.blkCheck = true <;> simp [hc]
  have hread := readFull_append t hdata
  have hraw : (fr.readData (putU32 w.raw) (data ++ hash ++ t))
      = (⟨(putU32 w.raw).length + (data ++ hash).length, stored, none, data, fr⟩, t) := by
    simp only [FrameReader.readData, hget, heof, Bool.false_eq_true, if_false, hsize,
      if_neg (Nat.not_lt.mpr hlen), hread, hunc]
    by_cases hc : fr.blkCheck = true
    · obtain ⟨hcheck, htake⟩ := checkBlkHash_exact data
      simp only [hc, if_true] at hhash ⊢
      rw [hhash, hcheck]
      simp only [htake]
    · simp only [if_neg hc] at hhash ⊢
      simp only [hhash, List.append_nil]
  rw [hbytes, List.append_assoc]
  simp only [FrameReader.read, FrameReader._read, hword, hraw, List.length_append]

/-- The end of a frame is read as the end mark, with the checksum if there is one. -/
theorem read_trailerBytes (fr : FrameReader) {xxh : Option UInt32} (t : Bytes)
    (h : fr.srcCheck = xxh.isSome) :
    fr.read (trailerBytes xxh ++ t)
      = ((.error (.const .endMark), { fr with srcSum := xxh.getD fr.srcSum }), t) := by
  have hword : readFull ([0, 0, 0, 0] ++ (xxh.elim [] putU32 ++ t)) 4
      = (([0, 0, 0, 0], none), xxh.elim [] putU32 ++ t) := readFull_append _ rfl
  have heof : (⟨getU32 [0, 0, 0, 0]⟩ : DataBlockSize).eof = true := by decide
  have hhash : fr.maybeReadContentHash (xxh.elim [] putU32 ++ t)
      = (((xxh.elim [] putU32).length, none, { fr with srcSum := xxh.getD fr.srcSum }), t) := by
    rcases xxh with _ | v
    · have hoff : fr.srcCheck = false := h
      simp only [FrameReader.maybeReadContentHash, hoff, Bool.not_false, if_true]
      rw [← hoff]
      rfl
    · have hread := readFull_append (n := 4) t (length_putU32 v)
      simp only [FrameReader.maybeReadContentHash, h, Option.isSome_some, Bool.not_true,
        Bool.false_eq_true, if_false, Option.elim_some, hread, getU32_putU32, Option.getD_some]
  rw [trailerBytes, List.append_assoc]
  simp only [FrameReader.read, FrameReader._read, hword, FrameReader.readData, heof, if_true,
    hhash, Option.getD_none]

/-! ## What is accepted -/

/-- The result of a block read cut short. -/
def ReadShort (r : Except Err FrameT × FrameReader) : Prop :=
  ∃ e, r.1 = .error e ∧ e.ShortRead

/-- A block or an end mark, not a failure. -/
def ReadOk (r : Except Err FrameT × FrameReader) : Prop :=
  (∃ frame, r.1 = .ok frame) ∨ r.1 = .error (.const .endMark)

/-- An accepted block or end mark: the bytes it is made of, and how the same read does
on any other continuation and on the proper prefixes. -/
structure ReadAccepted (fr : FrameReader) (src q : Bytes) : Prop where
  split : src = q ++ (fr.read src).2
  exact : Reads.Exact fr.read ReadShort q (fr.read src).1
  length : 4 ≤ q.length
  readCnt : ∀ frame, (fr.read src).1.1 = .ok frame → frame.readCnt = q.length

theorem AtEnd.join_of {z : Zerr} (hz : z ∈ readContexts) {r : Bytes × Option Err}
    (h : AtEnd r) : ∃ e, r.2 = some e ∧ (Err.join (.const z) e).ShortRead := by
  rcases h with he | he
  · exact ⟨_, he, .join hz (.inl rfl)⟩
  · exact ⟨_, he, .join hz (.inr rfl)⟩

namespace FrameReader

/-- How the outcome of a read depends on that of `_read`. -/
theorem read_eq (fr : FrameReader) (src : Bytes) :
    fr.read src = ((match (fr._read src).1.err with
      | some e => .error e
      | none => .ok ⟨(fr._read src).1.dst, (fr._read src).1.nRead, (fr._read src).1.uncompressed⟩,
      (fr._read src).1.fr), (fr._read src).2) := by
  rcases hr : fr._read src with ⟨⟨n, u, _ | e, d, fr'⟩, rest⟩ <;> simp only [read, hr]

/-- The stages of `_read` after the size word: on success, and at the end mark, they
took `q`. -/
structure DataTakes (fr : FrameReader) (word src q : Bytes) : Prop where
  split : src = q ++ (fr.readData word src).2
  append : ∀ t, fr.readData word (q ++ t) = ((fr.readData word src).1, t)
  short : ∀ p, p <+: q → p ≠ q → ∃ e, (fr.readData word p).1.err = some e ∧ e.ShortRead
  nRead : (fr.readData word src).1.nRead = word.length + q.length

theorem readData_eof {fr : FrameReader} {word src : Bytes}
    (heof : (⟨getU32 word⟩ : DataBlockSize).eof = true)
    (h : (fr.readData word src).1.err = some (.const .endMark)) :
    ∃ q, fr.DataTakes word src q := by
  by_cases hcheck : fr.srcCheck = true
  · have hmaybe : ∀ s, fr.maybeReadContentHash s = (match readFull s 4 with
        | ((b, some e), s) => ((b.length, some (.join (.const .errContentHashRead) e), fr), s)
        | ((b, none), s) => ((b.length, none, { fr with srcSum := getU32 b }), s)) := by
      intro s
      simp only [maybeReadContentHash, hcheck, Bool.not_true, Bool.false_eq_true, if_false]
      rcases readFull s 4 with ⟨⟨b, _ | e⟩, rest⟩ <;> rfl
    have hread : (readFull src 4).1.2 = none := by
      rcases hr : readFull src 4 with ⟨⟨b, _ | e⟩, rest⟩
      · rfl
      · simp only [readData, heof, if_true, hmaybe, hr, Option.getD_some, Option.some.injEq,
          reduceCtorEq] at h
    obtain ⟨hres, hlen, hsplit⟩ := readFull_ok hread
    refine ⟨src.take 4, ⟨?_, fun t => ?_, fun p hp hne => ?_, ?_⟩⟩
    · simp only [readData, heof, if_true, hmaybe, hres]
      exact hsplit
    · have happ := (readFull_exact hlen).append t
      simp only [readData, heof, if_true, hmaybe, hres, happ]
    · obtain ⟨e, he, hshort⟩ := ((readFull_exact hlen).short p hp hne).join_of
        (z := .errContentHashRead) (by decide)
      rcases hr : readFull p 4 with ⟨⟨b, r⟩, rest⟩
      rw [hr] at he
      simp only at he
      subst he
      simp only [readData, heof, if_true, hmaybe, hr, Option.getD_some]
      exact ⟨_, rfl, hshort⟩
    · simp only [readData, heof, if_true, hmaybe, hres]
  · -- no content checksum: nothing behind the word is read
    have hmaybe : ∀ s, fr.maybeReadContentHash s = ((0, none, fr), s) := by
      intro s
      simp only [maybeReadContentHash, hcheck, Bool.not_false, if_true]
    have hall : ∀ s, fr.readData word s
        = (⟨word.length + 0, false, some (.const .endMark), [], fr⟩, s) := by
      intro s
      simp only [readData, heof, if_true, hmaybe, Option.getD_none]
    refine ⟨[], ⟨by rw [hall]; rfl, fun t => by rw [hall, hall]; rfl, fun p hp hne => ?_,
      by rw [hall]; rfl⟩⟩
    exact absurd (List.prefix_nil.mp hp) hne

theorem readData_ok {fr : FrameReader} {word src : Bytes}
    (h : (fr.readData word src).1.err = none) : ∃ q, fr.DataTakes word src q := by
  set w : DataBlockSize := ⟨getU32 word⟩ with hw
  have heof : w.eof = false := by
    rw [← Bool.not_eq_true]
    intro heof
    simp only [readData, ← hw, heof, if_true] at h
    cases h
  have hle : ¬ w.size > fr.bsz := by
    intro hgt
    simp only [readData, ← hw, heof, Bool.false_eq_true, if_false, if_pos hgt, reduceCtorEq] at h
  set n := if fr.blkCheck then w.size + 4 else w.size with hn
  have hread : (readFull src n).1.2 = none := by
    rcases hr : readFull src n with ⟨⟨b, _ | e⟩, rest⟩
    · rfl
    · simp only [readData, ← hw, heof, Bool.false_eq_true, if_false, if_neg hle, ← hn, hr,
        reduceCtorEq] at h
  obtain ⟨hres, hlen, hsplit⟩ := readFull_ok hread
  set q := src.take n with hq
  -- with all the bytes there, the outcome is a function of them alone
  obtain ⟨r, hr⟩ : ∃ r : ReadRes, r.nRead = word.length + q.length
      ∧ ∀ s rest, readFull s n = ((q, none), rest) → fr.readData word s = (r, rest) := by
    by_cases hc : fr.blkCheck = true
    · rcases hhash : checkBlkHash q with _ | e
      · refine ⟨⟨word.length + q.length, w.uncompressed, none, q.take (q.length - 4), fr⟩, rfl,
          fun s rest hs => ?_⟩
        simp only [readData, ← hw, heof, Bool.false_eq_true, if_false, if_neg hle, ← hn, hs]
        simp only [hc, if_true, hhash]
      · refine ⟨⟨word.length + q.length, false, some e, q, fr⟩, rfl, fun s rest hs => ?_⟩
        simp only [readData, ← hw, heof, Bool.false_eq_true, if_false, if_neg hle, ← hn, hs]
        simp only [hc, if_true, hhash]
    · refine ⟨⟨word.length + q.length, w.uncompressed, none, q, fr⟩, rfl, fun s rest hs => ?_⟩
      simp only [readData, ← hw, heof, Bool.false_eq_true, if_false, if_neg hle, ← hn, hs]
      rw [if_neg hc]
  have hsrc := hr.2 src (src.drop n) hres
  refine ⟨q, ⟨by rw [hsrc]; exact hsplit, fun t => ?_, fun p hp hne => ?_, by rw [hsrc]; exact hr.1⟩⟩
  · rw [hsrc, hr.2 (q ++ t) t ((readFull_exact hlen).append t)]
  · obtain ⟨e, he, hshort⟩ := ((readFull_exact hlen).short p hp hne).join_of
      (z := .errBlockRead) (by decide)
    rcases hp' : readFull p n with ⟨⟨b, r'⟩, rest⟩
    rw [hp'] at he
    simp only at he
    subst he
    simp only [readData, ← hw, heof, Bool.false_eq_true, if_false, if_neg hle, ← hn, hp']
    exact ⟨_, rfl, hshort⟩

/-- Only the end of the frame is reported as the end mark. -/
theorem readData_endMark {fr : FrameReader} {word src : Bytes}
    (heof : ¬ (⟨getU32 word⟩ : DataBlockSize).eof = true) :
    (fr.readData word src).1.err ≠ some (.const .endMark) := by
  simp only [readData, heof, Bool.false_eq_true, if_false, wrapCorrupted]
  split_ifs
  · simp
  · split
    · simp
    · split
      · rename_i e he
        simp only [checkBlkHash, wrapCorrupted] at he
        split_ifs at he
        simp only [Option.some.injEq] at he
        simp [← he]
      · simp
  · split <;> simp

/-- Whatever `Read` accepts, a block or the end mark, it took exactly. -/
theorem read_ok {fr : FrameReader} {src : Bytes} (h : ReadOk (fr.read src).1) :
    ∃ q, ReadAccepted fr src q := by
  have herr : (fr._read src).1.err = none ∨ (fr._read src).1.err = some (.const .endMark) := by
    rw [read_eq] at h
    rcases he : (fr._read src).1.err with _ | e
    · exact .inl rfl
    · simp only [ReadOk, he, Except.error.injEq, reduceCtorEq, exists_false, false_or] at h
      exact .inr (congrArg some h)
  -- the size word was read in full
  have hread : (readFull src 4).1.2 = none := by
    rcases hr : readFull src 4 with ⟨⟨b, _ | e⟩, rest⟩
    · rfl
    · simp only [_read, hr, reduceCtorEq, Option.some.injEq, or_self] at herr
  obtain ⟨hres, hlen, hsplit⟩ := readFull_ok hread
  set word := src.take 4 with hword
  have heq : fr._read src = fr.readData word (src.drop 4) := by
    simp only [_read, hres]
  have hraw : ∀ t, fr._read (word ++ t) = fr.readData word t := by
    intro t
    have happ := (readFull_exact hlen).append t
    simp only [_read, happ]
  -- behind it stands a block, or the end mark with the content checksum
  obtain ⟨q, hq⟩ : ∃ q, fr.DataTakes word (src.drop 4) q := by
    rw [heq] at herr
    rcases herr with herr | herr
    · exact readData_ok herr
    · by_cases heof : (⟨getU32 word⟩ : DataBlockSize).eof = true
      · exact readData_eof heof herr
      · exact absurd herr (readData_endMark heof)
  refine ⟨word ++ q, ⟨?_, ⟨fun t => ?_, fun p hp hne => ?_⟩, ?_, ?_⟩⟩
  · rw [read_eq, heq, List.append_assoc, ← hq.split]
    exact hsplit
  · rw [read_eq, read_eq, List.append_assoc, hraw, hq.append, heq]
  · rcases Reads.prefix_append_cases hp with ⟨hpre, hne'⟩ | ⟨p', rfl, hpre⟩
    · obtain ⟨e, he, hshort⟩ := ((readFull_exact hlen).short p hpre hne').join_of
        (z := .errBlockSizeRead) (by decide)
      rcases hr : readFull p 4 with ⟨⟨b, r⟩, rest⟩
      rw [hr] at he
      simp only at he
      subst he
      refine ⟨_, ?_, hshort⟩
      rw [read_eq]
      simp only [_read, hr]
    · obtain ⟨e, he, hshort⟩ := hq.short p' hpre (fun h => hne (by rw [h]))
      refine ⟨e, ?_, hshort⟩
      rw [read_eq, hraw]
      simp only [he]
  · rw [List.length_append, hlen]
    exact Nat.le_add_right _ _
  · intro frame hframe
    rw [read_eq, heq] at hframe
    split at hframe
    · cases hframe
    · simp only [Except.ok.injEq] at hframe
      rw [← hframe, hq.nRead, List.length_append]

end FrameReader

end Plz4
