/-
Data blocks (`internal/pkg/blk`): making one from source bytes, parsing one from a
stream, and the end mark with its optional content checksum.

A `BlkT` is the bytes its slice shows. The pool's buffers are `szOverhead` bytes
longer than the block size, which is what the decoder is offered.
-/
import Plz4.Header

set_option autoImplicit false

namespace Plz4

open LittleEndian Xxh32

variable {Z : Clz4}

/-- `szOverhead`. -/
def szOverhead : ℕ := 8

/-! ## Making a block -/

/-- The bytes of a block: size word, data and the optional checksum. -/
def blkBytes (stored : Bool) (data : Bytes) (checksum : Bool) : Bytes :=
  let blkSz : DataBlockSize := if stored then DataBlockSize.setUncompressed ⟨0⟩ else ⟨0⟩
  let blkSz := blkSz.setSize data.length
  putU32 blkSz.raw ++ data ++ if checksum then putU32 (checksumZero data) else []

/-- `CompressToBlk`. Data that does not compress is stored as it is. -/
def compressToBlk (src : Bytes) (cmp : Compressor Z) (bsz : ℕ) (checksum : Bool)
    (dict : Option Bytes) : Except Err Bytes × Compressor Z :=
  let (ret, cmp) := cmp.compress src bsz dict
  match ret with
  | .ok out =>
      if out = [] then (.ok (blkBytes true (src.take bsz) checksum), cmp)
      else (.ok (blkBytes false out checksum), cmp)
  | .error e =>
      if e.is (.const .errCompress) then (.ok (blkBytes true (src.take bsz) checksum), cmp)
      else (.error e, cmp)

/-! ## Parsing a block -/

/-- `FrameReader` without its source. -/
structure FrameReader where
  bsz : ℕ
  srcSum : UInt32
  srcCheck : Bool
  blkCheck : Bool
  deriving DecidableEq, Repr

/-- `NewFrameReader`. -/
def newFrameReader (bsz : ℕ) (srcCheck blkCheck : Bool) : FrameReader :=
  ⟨bsz, 0, srcCheck, blkCheck⟩

/-- `FrameT`. -/
structure FrameT where
  blk : Bytes
  readCnt : ℕ
  uncompressed : Bool
  deriving DecidableEq, Repr

/-- What `_read` returns, with the destination block and the reader afterwards. -/
structure ReadRes where
  nRead : ℕ
  uncompressed : Bool
  err : Option Err
  dst : Bytes
  fr : FrameReader
  deriving DecidableEq, Repr

/-- `checkBlkHash`. -/
def checkBlkHash (data : Bytes) : Option Err :=
  let hashOff := data.length - 4
  let calcHash := checksumZero (data.take hashOff)
  let readHash := getU32 (data.drop hashOff)
  if readHash ≠ calcHash then some (wrapCorrupted (.const .errBlockHash)) else none

namespace FrameReader

/-- `maybeReadContentHash`. -/
def maybeReadContentHash (fr : FrameReader) (src : Bytes) :
    (ℕ × Option Err × FrameReader) × Bytes :=
  if !fr.srcCheck then ((0, none, fr), src)
  else
    let ((b, err), src) := readFull src 4
    match err with
    | some e => ((b.length, some (.join (.const .errContentHashRead) e), fr), src)
    | none => ((b.length, none, { fr with srcSum := getU32 b }), src)

/-- `_read` once the size word is there. -/
def readData (fr : FrameReader) (word src : Bytes) : ReadRes × Bytes :=
  let blkSz : DataBlockSize := ⟨getU32 word⟩
  let dataSz := blkSz.size
  if blkSz.eof then
    let ((n, err, fr), src) := fr.maybeReadContentHash src
    (⟨word.length + n, false, some (err.getD (.const .endMark)), [], fr⟩, src)
  else if dataSz > fr.bsz then
    (⟨word.length, false, some (wrapCorrupted (.const .errBlockSizeOverflow)), [], fr⟩, src)
  else
    let ((data, err), src) := readFull src (if fr.blkCheck then dataSz + 4 else dataSz)
    match err with
    | some e =>
        (⟨word.length + data.length, false, some (.join (.const .errBlockRead) e), data, fr⟩, src)
    | none =>
        if fr.blkCheck then
          match checkBlkHash data with
          | some e => (⟨word.length + data.length, false, some e, data, fr⟩, src)
          | none =>
              (⟨word.length + data.length, blkSz.uncompressed, none,
                data.take (data.length - 4), fr⟩, src)
        else (⟨word.length + data.length, blkSz.uncompressed, none, data, fr⟩, src)

/-- `FrameReader._read`. -/
def _read (fr : FrameReader) (src : Bytes) : ReadRes × Bytes :=
  let ((word, err), src) := readFull src 4
  match err with
  | some e => (⟨word.length, false, some (.join (.const .errBlockSizeRead) e), [], fr⟩, src)
  | none => fr.readData word src

/-- `FrameReader.Read`. On an error the frame it returns is `FrameT{}`, so the count
is lost with it. -/
def read (fr : FrameReader) (src : Bytes) : (Except Err FrameT × FrameReader) × Bytes :=
  let (r, src) := fr._read src
  match r.err with
  | some e => ((.error e, r.fr), src)
  | none => ((.ok ⟨r.dst, r.nRead, r.uncompressed⟩, r.fr), src)

end FrameReader

/-- `BlkT.Decompress`. The destination is the whole of a borrowed block, which is
`szOverhead` bytes longer than the block size. -/
def blkDecompress (Z : Clz4) (dc : Decompressor) (bsz : ℕ) (data : Bytes) :
    Except Err Bytes × Decompressor :=
  dc.decompress Z data (bsz + szOverhead)

/-! ## The trailer -/

/-- `WriteTrailer` and `WriteTrailerWithHash`: the bytes passed to the destination. -/
def trailerBytes (xxh : Option UInt32) : Bytes :=
  [0, 0, 0, 0] ++ xxh.elim [] putU32

end Plz4
