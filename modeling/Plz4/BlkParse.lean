/-
The block parser: exactly which bytes it takes for a block and for the end mark, and that it
stays inside the buffer it parses them in.

The parser in bytes is `FrameReader.read`. The one over a block of the pool is made of the
slices the source takes; `readBuf_spec` says that they stay in range and hold what the parser
in bytes returns.
-/
import Plz4.BlkSpec
import Plz4.Lib.Slice

set_option autoImplicit false

namespace Plz4

open LittleEndian Xxh32

/-! ## What is accepted -/

/-- A data block as it stands in a frame. -/
structure RawBlk where
  word : Bytes
  data : Bytes
  sum : Bytes

def RawBlk.bytes (b : RawBlk) : Bytes := b.word ++ (b.data ++ b.sum)

/-- A size word is the end mark if its bytes are zero. -/
theorem eof_word_iff {word : Bytes} (h : word.length = 4) :
    (⟨getU32 word⟩ : DataBlockSize).eof = true ↔ word = [0, 0, 0, 0] := by
  rw [DataBlockSize.eof, decide_eq_true_eq]
  constructor
  · intro hzero
    rw [← putU32_getU32 h]
    exact congrArg putU32 hzero
  · rintro rfl
    decide

/-- The checks a block reader makes of a block. -/
structure RawBlk.Accepted (fr : FrameReader) (b : RawBlk) : Prop where
  word : b.word.length = 4
  notEnd : b.word ≠ [0, 0, 0, 0]
  data : b.data.length = (⟨getU32 b.word⟩ : DataBlockSize).size
  length_le : b.data.length ≤ fr.bsz
  sum : b.sum = if fr.blkCheck then putU32 (checksumZero b.data) else []

theorem checkBlkHash_none {data : Bytes} (h : checkBlkHash data = none) (hlen : 4 ≤ data.length) :
    data = data.take (data.length - 4)
      ++ putU32 (checksumZero (data.take (data.length - 4))) := by
  rw [checkBlkHash] at h
  by_cases hne : getU32 (data.drop (data.length - 4))
      = checksumZero (data.take (data.length - 4))
  · rw [← hne, putU32_getU32 (by rw [List.length_drop]; omega), List.take_append_drop]
  · simp only [ne_eq, hne, not_false_eq_true, if_true, reduceCtorEq] at h

/-- What `Read` returns for a block. -/
def RawBlk.frame (b : RawBlk) : FrameT :=
  ⟨b.data, b.bytes.length, (⟨getU32 b.word⟩ : DataBlockSize).uncompressed⟩

/-- What stands in the stream where a block was read. -/
theorem FrameReader.read_ok_raw {fr fr' : FrameReader} {src rest : Bytes} {frame : FrameT}
    (h : fr.read src = ((.ok frame, fr'), rest)) :
    ∃ b : RawBlk, b.Accepted fr ∧ src = b.bytes ++ rest ∧ frame = b.frame ∧ fr' = fr := by
  -- every way out before the last is an error, and the block was read
  have hword : (readFull src 4).1.2 = none := by
    rcases hr : readFull src 4 with ⟨⟨b, _ | e⟩, rest⟩
    · rfl
    · simp only [read, _read, hr, Prod.mk.injEq, reduceCtorEq, false_and] at h
  obtain ⟨hres, hlen, hsplit⟩ := readFull_ok hword
  set word := src.take 4 with hw
  have hraw : fr._read src = fr.readData word (src.drop 4) := by simp only [_read, hres]
  rw [read_eq, hraw] at h
  have heof : (⟨getU32 word⟩ : DataBlockSize).eof = false := by
    rw [← Bool.not_eq_true]
    intro heof
    simp only [readData, heof, if_true, Prod.mk.injEq, reduceCtorEq, false_and] at h
  have hle : ¬ (⟨getU32 word⟩ : DataBlockSize).size > fr.bsz := by
    intro hgt
    simp only [readData, heof, Bool.false_eq_true, if_false, if_pos hgt, Prod.mk.injEq,
      reduceCtorEq, false_and] at h
  have hnot : word ≠ [0, 0, 0, 0] := by
    intro hzero
    rw [(eof_word_iff hlen).mpr hzero] at heof
    cases heof
  set n := if fr.blkCheck then (⟨getU32 word⟩ : DataBlockSize).size + 4
    else (⟨getU32 word⟩ : DataBlockSize).size with hn
  have hdata : (readFull (src.drop 4) n).1.2 = none := by
    rcases hr : readFull (src.drop 4) n with ⟨⟨b, _ | e⟩, rest⟩
    · rfl
    · simp only [readData, heof, Bool.false_eq_true, if_false, if_neg hle, ← hn, hr, Prod.mk.injEq,
        reduceCtorEq, false_and] at h
  obtain ⟨hres', hlen', hsplit'⟩ := readFull_ok hdata
  set data := (src.drop 4).take n with hd
  by_cases hc : fr.blkCheck = true
  · -- with a checksum behind the data, which is right
    rw [if_pos hc] at hn
    rcases hhash : checkBlkHash data with _ | e
    · have hblk := checkBlkHash_none hhash (by omega)
      simp only [readData, heof, Bool.false_eq_true, if_false, if_neg hle, hc, if_true, ← hn, hres',
        hhash, Prod.mk.injEq, Except.ok.injEq] at h
      obtain ⟨⟨rfl, hfr⟩, rfl⟩ := h
      have hsize : (data.take (data.length - 4)).length = (⟨getU32 word⟩ : DataBlockSize).size := by
        rw [List.length_take]
        omega
      refine ⟨⟨word, data.take (data.length - 4), putU32 (checksumZero (data.take (data.length - 4)))⟩,
        ⟨hlen, hnot, hsize, hsize.trans_le (Nat.not_lt.mp hle), (if_pos hc).symm⟩, ?_, ?_,
        hfr.symm⟩
      · rw [RawBlk.bytes, List.append_assoc, ← hblk, ← hsplit', ← hsplit]
      · rw [RawBlk.frame, RawBlk.bytes, ← hblk, List.length_append]
    · simp only [readData, heof, Bool.false_eq_true, if_false, if_neg hle, hc, if_true, ← hn, hres',
        hhash, Prod.mk.injEq, reduceCtorEq, false_and] at h
  · rw [if_neg hc] at hn
    rw [← hn] at hle
    simp only [readData, heof, Bool.false_eq_true, if_false, if_neg hle, if_neg hc, ← hn, hres',
      Prod.mk.injEq, Except.ok.injEq] at h
    obtain ⟨⟨rfl, hfr⟩, rfl⟩ := h
    refine ⟨⟨word, data, []⟩, ⟨hlen, hnot, hlen'.trans hn, hlen'.trans_le (Nat.not_lt.mp hle),
      (if_neg hc).symm⟩, ?_, ?_, hfr.symm⟩
    · rw [RawBlk.bytes, List.append_nil, List.append_assoc, ← hsplit', ← hsplit]
    · rw [RawBlk.frame, RawBlk.bytes, List.append_nil, List.length_append]

/-- What stands in the stream where the end mark was read. -/
theorem FrameReader.read_endMark_raw {fr fr' : FrameReader} {src rest : Bytes}
    (h : fr.read src = ((.error (.const .endMark), fr'), rest)) :
    src = [0, 0, 0, 0] ++ (if fr.srcCheck then putU32 fr'.srcSum else []) ++ rest
      ∧ fr' = { fr with srcSum := if fr.srcCheck then fr'.srcSum else fr.srcSum } := by
  have hword : (readFull src 4).1.2 = none := by
    rcases hr : readFull src 4 with ⟨⟨b, _ | e⟩, rest⟩
    · rfl
    · simp only [read, _read, hr, Prod.mk.injEq, Except.error.injEq, reduceCtorEq, false_and] at h
  obtain ⟨hres, hlen, hsplit⟩ := readFull_ok hword
  set word := src.take 4 with hw
  have hraw : fr._read src = fr.readData word (src.drop 4) := by simp only [_read, hres]
  have heof : word = [0, 0, 0, 0] := by
    apply (eof_word_iff hlen).mp
    by_contra heof
    -- only a zero word gives the end mark
    have hends : (fr.readData word (src.drop 4)).1.err ≠ some (.const .endMark) :=
      FrameReader.readData_endMark heof
    rw [read_eq, hraw] at h
    rcases he : (fr.readData word (src.drop 4)).1.err with _ | e
    · simp only [he, Prod.mk.injEq, reduceCtorEq, false_and] at h
    · simp only [he, Prod.mk.injEq, Except.error.injEq] at h
      exact hends (he.trans (congrArg some h.1.1))
  rw [read_eq, hraw] at h
  have heof' := (eof_word_iff hlen).mpr heof
  rw [hsplit, heof, List.append_assoc]
  by_cases hc : fr.srcCheck = true
  · have hsum : (readFull (src.drop 4) 4).1.2 = none := by
      rcases hr : readFull (src.drop 4) 4 with ⟨⟨b, _ | e⟩, rest⟩
      · rfl
      · simp only [readData, heof', if_true, maybeReadContentHash, hc, Bool.not_true,
          Bool.false_eq_true, if_false, hr, Option.getD_some, Prod.mk.injEq, Except.error.injEq,
          reduceCtorEq, false_and] at h
    obtain ⟨hres', hlen', hsplit'⟩ := readFull_ok hsum
    simp only [readData, heof', if_true, maybeReadContentHash, hc, Bool.not_true, Bool.false_eq_true,
      if_false, hres', Option.getD_none, Prod.mk.injEq, true_and] at h
    obtain ⟨rfl, rfl⟩ := h
    rw [if_pos hc, if_pos hc, putU32_getU32 hlen', ← hsplit']
    exact ⟨rfl, by rw [hc]⟩
  · simp only [readData, heof', if_true, maybeReadContentHash, hc, Bool.not_false, Option.getD_none,
      Prod.mk.injEq, true_and] at h
    rw [if_neg hc, if_neg hc, List.nil_append, h.2, ← h.1]
    exact ⟨rfl, rfl⟩

/-- An accepted block is read, whatever follows it. -/
theorem RawBlk.Accepted.read {fr : FrameReader} {b : RawBlk} (h : b.Accepted fr) (t : Bytes) :
    fr.read (b.bytes ++ t) = ((.ok b.frame, fr), t) := by
  have hword := readFull_append (n := 4) (b.data ++ b.sum ++ t) h.word
  have heof : (⟨getU32 b.word⟩ : DataBlockSize).eof = false := by
    rw [← Bool.not_eq_true, eof_word_iff h.word]
    exact h.notEnd
  have hle : ¬ (⟨getU32 b.word⟩ : DataBlockSize).size > fr.bsz := by
    rw [← h.data]
    exact Nat.not_lt.mpr h.length_le
  have hlen : (b.data ++ b.sum).length = if fr.blkCheck then
      (⟨getU32 b.word⟩ : DataBlockSize).size + 4 else (⟨getU32 b.word⟩ : DataBlockSize).size := by
    rw [List.length_append, h.data, h.sum]
    by_cases hc : fr.blkCheck = true
    · rw [if_pos hc, if_pos hc, length_putU32]
    · rw [if_neg hc, if_neg hc, List.length_nil, Nat.add_zero]
  have hread := readFull_append t hlen
  have hraw : fr.readData b.word (b.data ++ b.sum ++ t)
      = (⟨b.word.length + (b.data ++ b.sum).length, (⟨getU32 b.word⟩ : DataBlockSize).uncompressed,
        none, b.data, fr⟩, t) := by
    simp only [FrameReader.readData, heof, Bool.false_eq_true, if_false, if_neg hle, hread]
    have hsum := h.sum
    by_cases hc : fr.blkCheck = true
    · obtain ⟨hcheck, htake⟩ := checkBlkHash_exact b.data
      rw [if_pos hc] at hsum
      simp only [hc, if_true, hsum, hcheck, htake]
    · rw [if_neg hc] at hsum
      rw [if_neg hc, hsum, List.append_nil]
  have hbytes : b.bytes ++ t = b.word ++ (b.data ++ b.sum ++ t) := by
    rw [RawBlk.bytes, List.append_assoc]
  rw [hbytes]
  simp only [FrameReader.read, FrameReader._read, hword, hraw]
  rw [RawBlk.frame, RawBlk.bytes, List.length_append, List.length_append, List.length_append]

/-- **A block is read** exactly where an accepted one stands. -/
theorem FrameReader.read_ok_iff {fr fr' : FrameReader} {src rest : Bytes} {frame : FrameT} :
    fr.read src = ((.ok frame, fr'), rest)
      ↔ ∃ b : RawBlk, b.Accepted fr ∧ src = b.bytes ++ rest ∧ frame = b.frame ∧ fr' = fr := by
  constructor
  · exact fun h => read_ok_raw h
  · rintro ⟨b, hb, rfl, rfl, rfl⟩
    exact hb.read rest

/-- **The end mark is read** exactly where a zero word stands, with the content checksum if
the reader is to read one. -/
theorem FrameReader.read_endMark_iff {fr fr' : FrameReader} {src rest : Bytes} :
    fr.read src = ((.error (.const .endMark), fr'), rest)
      ↔ ∃ xxh : Option UInt32, fr.srcCheck = xxh.isSome ∧ src = trailerBytes xxh ++ rest
        ∧ fr' = { fr with srcSum := xxh.getD fr.srcSum } := by
  constructor
  · intro h
    obtain ⟨hsplit, hfr⟩ := read_endMark_raw h
    by_cases hc : fr.srcCheck = true
    · rw [if_pos hc] at hsplit hfr
      exact ⟨some fr'.srcSum, hc, hsplit, hfr⟩
    · rw [if_neg hc] at hsplit hfr
      exact ⟨none, Bool.not_eq_true _ ▸ hc, hsplit, hfr⟩
  · rintro ⟨xxh, hc, rfl, rfl⟩
    exact read_trailerBytes fr rest hc

/-! ## The buffer -/

/-- `BlkT`. -/
abbrev BlkT := Slice UInt8

/-- `readUint32`. -/
def readUint32 (buf : Slice UInt8) (src : Bytes) :
    (ℕ × UInt32 × Option Err) × Slice UInt8 × Bytes :=
  let ((bs, err), src) := readFull src buf.len
  let buf := buf.copy bs
  ((bs.length, if err = none then getU32 buf.data else 0, err), buf, src)

/-- What `_read` returns, with the block and the reader afterwards. -/
structure BufRes where
  nRead : ℕ
  uncompressed : Bool
  err : Option Err
  dst : BlkT
  fr : FrameReader

namespace FrameReader

/-- `maybeReadContentHash` into a slice of the block; `none` is a slice out of range. -/
def maybeReadContentHashBuf (fr : FrameReader) (buf : BlkT) (src : Bytes) :
    Option ((ℕ × Option Err × FrameReader) × BlkT × Bytes) :=
  if !fr.srcCheck then some ((0, none, fr), buf, src)
  else
    (buf.reslice 4).map fun head =>
      let ((n, v, err), head, src) := readUint32 head src
      let buf : BlkT := ⟨head.arr, buf.len⟩
      match err with
      | some e => ((n, some (.join (.const .errContentHashRead) e), fr), buf, src)
      | none => ((n, none, { fr with srcSum := v }), buf, src)

/-- `_read` once the size word is there. -/
def readDataBuf (fr : FrameReader) (nRead : ℕ) (v : UInt32) (dstBlk : BlkT) (src : Bytes) :
    Option (BufRes × Bytes) :=
  let blkSz : DataBlockSize := ⟨v⟩
  let dataSz := blkSz.size
  if blkSz.eof then
    (fr.maybeReadContentHashBuf dstBlk src).map fun ((n, err, fr), dstBlk, src) =>
      (⟨nRead + n, false, some (err.getD (.const .endMark)), dstBlk, fr⟩, src)
  else if dataSz > fr.bsz then
    some (⟨nRead, false, some (wrapCorrupted (.const .errBlockSizeOverflow)), dstBlk, fr⟩, src)
  else
    let dataSz := if fr.blkCheck then dataSz + 4 else dataSz
    (dstBlk.reslice dataSz).bind fun dstBlk =>
      let ((bs, err), src) := readFull src dstBlk.len
      let dstBlk := dstBlk.copy bs
      let nRead := nRead + bs.length
      match err with
      | some e => some (⟨nRead, false, some (.join (.const .errBlockRead) e), dstBlk, fr⟩, src)
      | none =>
          if fr.blkCheck then
            if dstBlk.len < 4 then none
            else
              match checkBlkHash dstBlk.data with
              | some e => some (⟨nRead, false, some e, dstBlk, fr⟩, src)
              | none =>
                  (dstBlk.reslice (dstBlk.len - 4)).map fun dstBlk =>
                    (⟨nRead, blkSz.uncompressed, none, dstBlk, fr⟩, src)
          else some (⟨nRead, blkSz.uncompressed, none, dstBlk, fr⟩, src)

/-- `_read` into a block. -/
def readBuf (fr : FrameReader) (dstBlk : BlkT) (src : Bytes) : Option (BufRes × Bytes) :=
  (dstBlk.reslice 4).bind fun head =>
    let ((nRead, v, err), head, src) := readUint32 head src
    let dstBlk : BlkT := ⟨head.arr, dstBlk.len⟩
    match err with
    | some e => some (⟨nRead, false, some (.join (.const .errBlockSizeRead) e), dstBlk, fr⟩, src)
    | none => fr.readDataBuf nRead v dstBlk src

end FrameReader

/-- What fills a slice is what it then shows. -/
theorem data_copy {b : BlkT} {n : ℕ} (h : b.Ok n) {bs : Bytes} (hbs : bs.length = b.len) :
    (b.copy bs).data = bs := by
  have htake := h.take_copy bs hbs.ge le_rfl
  rwa [List.take_of_length_le hbs.le] at htake

/-- A result in a buffer of `n` bytes that shows what the parser in bytes returned. -/
structure BufRes.Shows (n : ℕ) (r : BufRes) (r' : ReadRes) : Prop where
  dst : r.dst.Ok n
  nRead : r.nRead = r'.nRead
  uncompressed : r.uncompressed = r'.uncompressed
  err : r.err = r'.err
  fr : r.fr = r'.fr
  data : r'.err = none → r.dst.data = r'.dst

theorem readUint32_spec {b : BlkT} {n : ℕ} (h : b.Ok n) (hn : 4 ≤ n) (src : Bytes) :
    ∃ head v b', b.reslice 4 = some head
      ∧ readUint32 head src = (((readFull src 4).1.1.length, v, (readFull src 4).1.2), b',
        (readFull src 4).2)
      ∧ (⟨b'.arr, b.len⟩ : BlkT).Ok n
      ∧ ((readFull src 4).1.2 = none → v = getU32 (readFull src 4).1.1) := by
  obtain ⟨hslice, hok⟩ := h.reslice hn
  have hcopy := hok.copy (readFull src 4).1.1
  refine ⟨⟨b.arr, 4⟩, if (readFull src 4).1.2 = none then
    getU32 ((⟨b.arr, 4⟩ : BlkT).copy (readFull src 4).1.1).data else 0,
    (⟨b.arr, 4⟩ : BlkT).copy (readFull src 4).1.1, hslice, rfl, ⟨hcopy.cap, h.len⟩, ?_⟩
  intro hnone
  obtain ⟨hres, hlen, -⟩ := readFull_ok hnone
  rw [if_pos hnone, data_copy hok (by rw [hres]; exact hlen)]

theorem maybeReadContentHashBuf_spec (fr : FrameReader) {b : BlkT} {n : ℕ} (h : b.Ok n)
    (hn : 4 ≤ n) (src : Bytes) :
    ∃ b', fr.maybeReadContentHashBuf b src
        = some ((fr.maybeReadContentHash src).1, b', (fr.maybeReadContentHash src).2)
      ∧ b'.Ok n := by
  by_cases hc : fr.srcCheck = true
  · obtain ⟨head, v, b', hslice, hread, hok, hv⟩ := readUint32_spec h hn src
    simp only [FrameReader.maybeReadContentHashBuf, FrameReader.maybeReadContentHash, hc,
      Bool.not_true, Bool.false_eq_true, if_false, hslice, Option.map_some, hread]
    rcases hr : readFull src 4 with ⟨⟨bs, _ | e⟩, rest⟩
    · rw [hr] at hv
      rw [hv rfl]
      exact ⟨_, rfl, hok⟩
    · exact ⟨_, rfl, hok⟩
  · simp only [FrameReader.maybeReadContentHashBuf, FrameReader.maybeReadContentHash, hc,
      Bool.not_false, if_true]
    exact ⟨b, rfl, h⟩

/-- The data of a block and its checksum stay within the capacity. -/
theorem readDataBuf_spec {fr : FrameReader} {b : BlkT} (h : b.Ok (fr.bsz + szOverhead))
    (word src : Bytes) :
    ∃ r, fr.readDataBuf word.length (getU32 word) b src = some (r, (fr.readData word src).2)
      ∧ r.Shows (fr.bsz + szOverhead) (fr.readData word src).1 := by
  have hover : szOverhead = 8 := rfl
  by_cases heof : (⟨getU32 word⟩ : DataBlockSize).eof = true
  · obtain ⟨b', hmaybe, hok⟩ := maybeReadContentHashBuf_spec fr h (by omega) src
    simp only [FrameReader.readDataBuf, FrameReader.readData, heof, if_true, hmaybe,
      Option.map_some]
    exact ⟨_, rfl, hok, rfl, rfl, rfl, rfl, (by rintro ⟨⟩)⟩
  by_cases hgt : (⟨getU32 word⟩ : DataBlockSize).size > fr.bsz
  · simp only [FrameReader.readDataBuf, FrameReader.readData, heof, Bool.false_eq_true, if_false,
      if_pos hgt]
    exact ⟨_, rfl, h, rfl, rfl, rfl, rfl, (by rintro ⟨⟩)⟩
  -- the checksum still fits into the overhead
  set n := if fr.blkCheck then (⟨getU32 word⟩ : DataBlockSize).size + 4
    else (⟨getU32 word⟩ : DataBlockSize).size with hn
  have hle : n ≤ fr.bsz + szOverhead := by
    rw [hn]
    split_ifs <;> omega
  obtain ⟨hslice, hok⟩ := h.reslice hle
  have hcopy := hok.copy (readFull src n).1.1
  simp only [FrameReader.readDataBuf, FrameReader.readData, heof, Bool.false_eq_true, if_false,
    if_neg hgt, ← hn, hslice, Option.bind_some]
  rcases hr : readFull src n with ⟨⟨bs, _ | e⟩, rest⟩
  · rw [hr] at hcopy
    have hlen : bs.length = n := by
      have hnone : (readFull src n).1.2 = none := by rw [hr]
      have hres := readFull_ok hnone
      rw [hr, Prod.mk.injEq, Prod.mk.injEq] at hres
      rw [hres.1.1.1]
      exact hres.2.1
    have hdata := data_copy hok hlen
    by_cases hc : fr.blkCheck = true
    · have hfour : ¬ ((⟨b.arr, n⟩ : BlkT).copy bs).len < 4 := by
        change ¬ n < 4
        rw [hn, if_pos hc]
        omega
      simp only [hc, if_true, if_neg hfour, hdata]
      rcases hcheck : checkBlkHash bs with _ | e
      · obtain ⟨hslice', hok'⟩ := hcopy.reslice (k := n - 4) (by omega)
        have hshow : (⟨((⟨b.arr, n⟩ : BlkT).copy bs).arr, n - 4⟩ : BlkT).data
            = bs.take (bs.length - 4) := by
          rw [Slice.data, hlen]
          exact hok.take_copy bs (hlen ▸ Nat.sub_le _ _) (Nat.sub_le _ _)
        have hlen' : ((⟨b.arr, n⟩ : BlkT).copy bs).len = n := rfl
        simp only [hlen', hslice', Option.map_some]
        exact ⟨_, rfl, hok', rfl, rfl, rfl, rfl, fun _ => hshow⟩
      · exact ⟨_, rfl, hcopy, rfl, rfl, rfl, rfl, (by rintro ⟨⟩)⟩
    · simp only [if_neg hc]
      exact ⟨_, rfl, hcopy, rfl, rfl, rfl, rfl, fun _ => hdata⟩
  · rw [hr] at hcopy
    exact ⟨_, rfl, hcopy, rfl, rfl, rfl, rfl, (by rintro ⟨⟩)⟩

/-- **The parser stays in its block**, and the block shows what the parser in bytes returns. -/
theorem readBuf_spec {fr : FrameReader} {b : BlkT} (h : b.Ok (fr.bsz + szOverhead)) (src : Bytes) :
    ∃ r, fr.readBuf b src = some (r, (fr._read src).2)
      ∧ r.Shows (fr.bsz + szOverhead) (fr._read src).1 := by
  have hover : szOverhead = 8 := rfl
  obtain ⟨head, v, b', hslice, hread, hok, hv⟩ := readUint32_spec h (by omega) src
  simp only [FrameReader.readBuf, hslice, Option.bind_some, hread, FrameReader._read]
  rcases hr : readFull src 4 with ⟨⟨word, _ | e⟩, rest⟩
  · rw [hr] at hv
    rw [hv rfl]
    exact readDataBuf_spec hok word rest
  · exact ⟨_, rfl, hok, rfl, rfl, rfl, rfl, (by rintro ⟨⟩)⟩

/-! ## The pool -/

/-- The blocks in the pools, by the size of their arrays, and `cntBorrowed`. -/
structure BlkPool where
  borrowed : ℤ
  pools : ℕ → List BlkT

/-- The block sizes the pools know. -/
def blkSizes : List ℕ := [4 * 1024 * 1024, 1024 * 1024, 256 * 1024, 64 * 1024]

namespace BlkPool

/-- `BorrowBlk`. What `Get` hands out is not determined: it is the `i`-th block of the pool, or
a new one. `none` is the panic for an unknown size. -/
def borrowBlk (p : BlkPool) (bsz i : ℕ) : Option (BlkT × BlkPool) :=
  if bsz ∈ blkSizes then
    let n := bsz + szOverhead
    match (p.pools n)[i]? with
    | some b =>
        some (b, ⟨p.borrowed + 1, Function.update p.pools n ((p.pools n).eraseIdx i)⟩)
    | none => some (⟨List.replicate n 0, n⟩, { p with borrowed := p.borrowed + 1 })
  else none

/-- `ReturnBlk`. The block shows its whole array again. `none` is the panic for an unknown
size. -/
def returnBlk (p : BlkPool) (blk : BlkT) : Option BlkPool :=
  let bsz := blk.cap
  if bsz ∈ blkSizes.map (fun n => n + szOverhead) then
    some ⟨p.borrowed - 1, Function.update p.pools bsz (⟨blk.arr, bsz⟩ :: p.pools bsz)⟩
  else none

/-- Every block in a pool shows all of an array of the pool's size. -/
def Ok (p : BlkPool) : Prop := ∀ n, ∀ b ∈ p.pools n, Slice.Ok b n ∧ b.len = n

/-- Changing one of the pools. -/
theorem Ok.update {p : BlkPool} (h : p.Ok) {n : ℕ} {l : List BlkT}
    (hl : ∀ b ∈ l, Slice.Ok b n ∧ b.len = n) (k : ℤ) : Ok ⟨k, Function.update p.pools n l⟩ := by
  intro m b hb
  by_cases hm : m = n
  · subst hm
    simp only [Function.update_self] at hb
    exact hl b hb
  · simp only [Function.update_of_ne hm] at hb
    exact h m b hb

/-- A borrowed block is fresh. -/
theorem Ok.borrowBlk {p : BlkPool} (h : p.Ok) {bsz : ℕ} (hbsz : bsz ∈ blkSizes) (i : ℕ) :
    ∃ b p₁, p.borrowBlk bsz i = some (b, p₁) ∧ Slice.Ok b (bsz + szOverhead)
      ∧ b.len = bsz + szOverhead ∧ p₁.Ok ∧ p₁.borrowed = p.borrowed + 1 := by
  rcases hget : (p.pools (bsz + szOverhead))[i]? with _ | b
  · simp only [BlkPool.borrowBlk, if_pos hbsz, hget]
    refine ⟨_, _, rfl, ⟨?_, le_rfl⟩, rfl, h, rfl⟩
    rw [Slice.cap, List.length_replicate]
  · simp only [BlkPool.borrowBlk, if_pos hbsz, hget]
    obtain ⟨hok, hlen⟩ := h _ b (List.mem_of_getElem? hget)
    refine ⟨_, _, rfl, hok, hlen, h.update ?_ _, rfl⟩
    intro b' hb'
    exact h _ b' (List.mem_of_mem_eraseIdx hb')

/-- A block of a known size can be given back, whatever it shows. -/
theorem Ok.returnBlk {p : BlkPool} (h : p.Ok) {bsz : ℕ} (hbsz : bsz ∈ blkSizes) {b : BlkT}
    (hb : Slice.Ok b (bsz + szOverhead)) :
    ∃ p', p.returnBlk b = some p' ∧ p'.Ok ∧ p'.borrowed = p.borrowed - 1 := by
  have hmem : bsz + szOverhead ∈ blkSizes.map (fun n => n + szOverhead) :=
    List.mem_map_of_mem hbsz
  simp only [BlkPool.returnBlk, hb.cap, if_pos hmem]
  refine ⟨_, rfl, h.update ?_ _, rfl⟩
  intro b' hb'
  rcases List.mem_cons.mp hb' with rfl | hb'
  · exact ⟨⟨hb.cap, le_rfl⟩, rfl⟩
  · exact h _ b' hb'

end BlkPool

/-- `FrameT` with its block. -/
structure FrameBuf where
  blk : BlkT
  readCnt : ℕ
  uncompressed : Bool

/-- `FrameReader.Read` on the pool: the block is borrowed, and given back on an error. -/
def FrameReader.readPool (fr : FrameReader) (p : BlkPool) (i : ℕ) (src : Bytes) :
    Option ((Except Err FrameBuf × FrameReader) × BlkPool × Bytes) :=
  (p.borrowBlk fr.bsz i).bind fun (dstBlk, p) =>
    (fr.readBuf dstBlk src).bind fun (r, src) =>
      match r.err with
      | some e => (p.returnBlk r.dst).map fun p => ((.error e, r.fr), p, src)
      | none => some ((.ok ⟨r.dst, r.nRead, r.uncompressed⟩, r.fr), p, src)

/-- A valid index has one of the sizes of the pools. -/
theorem mem_blkSizes {idx : BlockIdxT} (h : idx.valid = true) : idx.size ∈ blkSizes := by
  rcases (BlockIdxT.valid_iff idx).mp h with rfl | rfl | rfl | rfl <;> decide

/-- `Read` on the pool is the parser in bytes; the block of a failed read is given back. -/
theorem readPool_spec (fr : FrameReader) {p : BlkPool} (hp : p.Ok) (hbsz : fr.bsz ∈ blkSizes)
    (i : ℕ) (src : Bytes) :
    ∃ res p', fr.readPool p i src = some ((res, (fr.read src).1.2), p', (fr.read src).2) ∧ p'.Ok
      ∧ (∀ e, res = .error e ↔ (fr.read src).1.1 = .error e)
      ∧ (∀ frame, res = .ok frame → (fr.read src).1.1
        = .ok ⟨frame.blk.data, frame.readCnt, frame.uncompressed⟩)
      ∧ ∃ b p₁, p.borrowBlk fr.bsz i = some (b, p₁)
        ∧ (∀ e, res = .error e → p'.borrowed = p.borrowed
          ∧ ∃ b' : BlkT, b'.cap = b.cap ∧ p₁.returnBlk b' = some p')
        ∧ (∀ frame, res = .ok frame → p' = p₁ ∧ p'.borrowed = p.borrowed + 1
          ∧ Slice.Ok frame.blk (fr.bsz + szOverhead)) := by
  obtain ⟨b, p₁, hborrow, hok, -, hp₁, hcnt⟩ := hp.borrowBlk hbsz i
  obtain ⟨r, hread, hr⟩ := readBuf_spec hok src
  have hres := FrameReader.read_eq fr src
  rcases herr : (fr._read src).1.err with _ | e
  · rw [herr] at hres
    -- a block: the caller keeps the buffer
    have hnone : r.err = none := hr.err.trans herr
    refine ⟨.ok ⟨r.dst, r.nRead, r.uncompressed⟩, p₁, ?_, hp₁, ?_, ?_, b, p₁, hborrow,
      (by rintro _ ⟨⟩), ?_⟩
    · simp only [FrameReader.readPool, hborrow, Option.bind_some, hread, hnone, hres, hr.fr]
    · intro e
      rw [hres]
      simp only [reduceCtorEq]
    · intro frame hframe
      rw [← Except.ok.inj hframe, hres, hr.data herr, hr.nRead, hr.uncompressed]
    · intro frame hframe
      rw [← Except.ok.inj hframe]
      exact ⟨rfl, hcnt, hr.dst⟩
  · rw [herr] at hres
    -- an error or the end mark: the buffer goes back
    have hsome : r.err = some e := hr.err.trans herr
    obtain ⟨p', hreturn, hp', hcnt'⟩ := hp₁.returnBlk hbsz hr.dst
    refine ⟨.error e, p', ?_, hp', ?_, (by rintro _ ⟨⟩), b, p₁, hborrow, ?_, (by rintro _ ⟨⟩)⟩
    · simp only [FrameReader.readPool, hborrow, Option.bind_some, hread, hsome, hreturn,
        Option.map_some, hres, hr.fr]
    · intro e'
      rw [hres]
      simp only [Except.error.injEq]
    · intro e' _
      exact ⟨by rw [hcnt', hcnt, Int.add_sub_cancel], r.dst, hr.dst.cap.trans hok.cap.symm, hreturn⟩

/-- **The block parser on any input.** It never slices outside its block. It returns a block
exactly where an accepted one stands, and the end mark exactly where a zero word with the
content checksum of the frame stands; with any error the borrowed block is given back. -/
theorem frameReader_read {idx : BlockIdxT} (hidx : idx.valid = true) (srcCheck blkCheck : Bool)
    {p : BlkPool} (hp : p.Ok) (i : ℕ) (src : Bytes) :
    let fr := newFrameReader idx.size srcCheck blkCheck
    ∃ res fr' p' rest, fr.readPool p i src = some ((res, fr'), p', rest)
      ∧ (∀ frame, res = .ok frame → ∃ b : RawBlk, b.Accepted fr ∧ src = b.bytes ++ rest
        ∧ frame.blk.data = b.data ∧ frame.readCnt = b.bytes.length
        ∧ (frame.uncompressed = true ↔ 2 ^ 31 ≤ (getU32 b.word).toNat))
      ∧ (∀ (b : RawBlk) t, b.Accepted fr → src = b.bytes ++ t → ∃ frame, res = .ok frame)
      ∧ (res = .error (.const .endMark) → ∃ xxh : Option UInt32, srcCheck = xxh.isSome
        ∧ src = trailerBytes xxh ++ rest ∧ fr'.srcSum = xxh.getD 0)
      ∧ (∀ (xxh : Option UInt32) t, srcCheck = xxh.isSome → src = trailerBytes xxh ++ t →
        res = .error (.const .endMark))
      ∧ ∃ b p₁, p.borrowBlk fr.bsz i = some (b, p₁)
        ∧ (∀ frame, res = .ok frame → p' = p₁ ∧ frame.blk.cap = b.cap)
        ∧ (∀ e, res = .error e → p'.borrowed = p.borrowed
          ∧ ∃ b' : BlkT, b'.cap = b.cap ∧ p₁.returnBlk b' = some p') := by
  intro fr
  obtain ⟨res, p', hread, -, herr, hok, b, p₁, hborrow, hback, hkeep⟩ :=
    readPool_spec fr hp (mem_blkSizes hidx) i src
  refine ⟨res, _, p', _, hread, ?_, ?_, ?_, ?_, b, p₁, hborrow, ?_, hback⟩
  · intro frame hframe
    -- the pooled reader and the one on byte strings agree on blocks and errors
    have hbytes : fr.read src = ((.ok ⟨frame.blk.data, frame.readCnt, frame.uncompressed⟩,
        (fr.read src).1.2), (fr.read src).2) := by rw [← hok frame hframe]
    obtain ⟨b, hb, hsplit, hshown, -⟩ := FrameReader.read_ok_iff.mp hbytes
    rw [RawBlk.frame, FrameT.mk.injEq] at hshown
    refine ⟨b, hb, hsplit, hshown.1, hshown.2.1, ?_⟩
    rw [hshown.2.2]
    exact DataBlockSize.uncompressed_iff _
  · intro b t hb hsplit
    have hbytes := hb.read t
    rw [← hsplit] at hbytes
    rcases hres : res with e | frame
    · have hfail := (herr e).mp hres
      rw [hbytes] at hfail
      cases hfail
    · exact ⟨frame, rfl⟩
  · intro hend
    have hbytes : fr.read src = ((.error (.const .endMark), (fr.read src).1.2),
        (fr.read src).2) := by rw [← (herr _).mp hend]
    obtain ⟨xxh, hxxh, hsplit, hfr⟩ := FrameReader.read_endMark_iff.mp hbytes
    refine ⟨xxh, hxxh, hsplit, ?_⟩
    rw [hfr]
    rfl
  · intro xxh t hxxh hsplit
    apply (herr _).mpr
    rw [hsplit, read_trailerBytes fr t hxxh]
  · intro frame hframe
    obtain ⟨hsame, -, hblk⟩ := hkeep frame hframe
    obtain ⟨b', p₁', hborrow', hb', -⟩ := hp.borrowBlk (mem_blkSizes hidx) i
    have hpair := hborrow.symm.trans hborrow'
    rw [Option.some.injEq, Prod.mk.injEq] at hpair
    exact ⟨hsame, hblk.cap.trans (hpair.1 ▸ hb'.cap.symm)⟩

/-- The size word of a stored block of no bytes, with nothing in the pools. -/
theorem frameReader_read_stored_nil :
    ∃ frame fr' p' rest, (newFrameReader (64 * 1024) false false).readPool
        ⟨0, fun _ => []⟩ 0 [0, 0, 0, 0x80] = some ((.ok frame, fr'), p', rest)
      ∧ frame.readCnt = 4 ∧ frame.uncompressed = true := by
  obtain ⟨res, fr', p', rest, hread, hblk, hok, -⟩ := frameReader_read
    (show BlockIdxT.idx64KB.valid = true by decide) false false (p := ⟨0, fun _ => []⟩) (fun _ _ h => by cases h) 0 [0, 0, 0, 0x80]
  have hacc : RawBlk.Accepted (newFrameReader (64 * 1024) false false) ⟨[0, 0, 0, 0x80], [], []⟩ :=
    ⟨rfl, by decide, by decide, by decide, by decide⟩
  obtain ⟨frame, rfl⟩ := hok _ [] hacc rfl
  obtain ⟨b, hb, hsplit, -, hcnt, hunc⟩ := hblk frame rfl
  -- the four bytes are the size word
  rw [RawBlk.bytes, List.append_assoc] at hsplit
  have hjoin : [0, 0, 0, 0x80] ++ ([] : Bytes) = b.word ++ (b.data ++ b.sum ++ rest) := hsplit
  obtain ⟨hword, hrest⟩ := List.append_inj hjoin hb.word.symm
  obtain ⟨hdata, -⟩ := List.append_eq_nil_iff.mp hrest.symm
  refine ⟨frame, fr', p', rest, hread, ?_, ?_⟩
  · rw [hcnt, RawBlk.bytes, hdata, List.append_nil, hb.word]
  · rw [hunc, ← hword]
    decide

end Plz4
