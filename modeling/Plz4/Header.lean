/-
The frame header and skip frames (`internal/pkg/header`).

`headerBytes` is the buffer `WriteHeader` builds; `readHeader` is `ReadHeader` on
the unread source, with the two optional fields fetched one after the other as the
source does. `readHeader_headerBytes` is the round trip.
-/
import Plz4.Opts
import Plz4.Xxh32
import Plz4.Lib.LittleEndian

set_option autoImplicit false

namespace Plz4

open LittleEndian CopyAt Xxh32

/-! ## Writing -/

def lz4FrameVers : UInt8 := 1
def lz4MinHeaderSz : ℕ := 7

/-- `lz4FrameMagic`. -/
def lz4FrameMagic : Bytes := [0x04, 0x22, 0x4d, 0x18]

/-- The flag byte `WriteHeader` builds. -/
def headerFlags (o : OptsT) : Flags :=
  let flags := (⟨0⟩ : Flags).setVersion lz4FrameVers
  let flags := if !o.blockLinked then flags.setBlockIndependence else flags
  let flags := if o.blockChecksum then flags.setBlockChecksum else flags
  let flags := if o.contentChecksum then flags.setContentChecksum else flags
  let flags := if o.contentSz.isSome then flags.setContentSize else flags
  if o.dictionaryId.isSome then flags.setDictId else flags

/-- The buffer `WriteHeader` passes to the destination. -/
def headerBytes (o : OptsT) : Bytes :=
  let hdrBytes := copyAt (List.replicate lz4MinHeaderSz 0) 0 lz4FrameMagic
  let hdrBytes := o.contentSz.elim hdrBytes
    (fun sz => copyAt (hdrBytes ++ List.replicate 8 0) 6 (putU64 sz))
  let hdrBytes := o.dictionaryId.elim hdrBytes
    (fun id => copyAt (hdrBytes ++ List.replicate 4 0) (hdrBytes.length - 1) (putU32 id))
  let hdrBytes := hdrBytes.set 4 (headerFlags o).raw
  let hdrBytes := hdrBytes.set 5 (Block.setIdx o.blockSizeIdx).raw
  let xxh := checksumZero ((hdrBytes.take (hdrBytes.length - 1)).drop 4)
  hdrBytes.set (hdrBytes.length - 1) (xxh >>> 8 &&& 0xFF).toUInt8

/-- `WriteHeader`. -/
def writeHeader (plan : WrPlan) (calls : List WrCall) (o : OptsT) :
    ℕ × Option Err × List WrCall :=
  let (n, err, calls) := wrWrite plan calls (headerBytes o)
  (n, err.map (fun e => .join (.const .errHeaderWrite) e), calls)

/-! ## Skip frames -/

/-- `skipMagic`. -/
def skipMagic : UInt32 := 0x184D2A50

/-- `WriteSkip`. -/
def writeSkip (plan : WrPlan) (calls : List WrCall) (nibble : UInt8) (sz : UInt32) :
    ℕ × Option Err × List WrCall :=
  if nibble > 0xF then (0, some (.const .errNibble), calls)
  else wrWrite plan calls (putU32 (skipMagic ||| nibble.toUInt32) ++ putU32 sz)

/-- The body of a skip frame: the callback's business, or read and discarded. -/
def skipBody (src : Bytes) (cb : Option SkipCallbackT) (nibble : UInt8) (bsz : UInt32) :
    (ℤ × Option Err) × Bytes :=
  match cb with
  | some cb =>
      let r := cb src nibble bsz
      ((r.n, r.err), src.drop r.consumed)
  | none =>
      let ((n, err), src) := copyN src bsz.toNat
      ((n, err), src)

/-- `maybeSkipFrame` on the seven bytes read so far. -/
def maybeSkipFrame (src hdr : Bytes) (cb : Option SkipCallbackT) : (ℤ × Option Err) × Bytes :=
  let m := getU32 (hdr.take 4)
  if m >>> 4 ≠ skipMagic >>> 4 then ((0, some (wrapCorrupted (.const .errMagic))), src)
  else
    let ((b, err), src) := readFull src 1
    match err with
    | some _ => ((b.length, some (.join1 (.const .errHeaderRead))), src)
    | none =>
        let bsz := getU32 ((hdr ++ b).drop 4)
        let ((n, err), src) := skipBody src cb (m &&& 0xF).toUInt8 bsz
        match err with
        | none => ((b.length + n, some (.const .endMark)), src)
        | some e => ((b.length + n, some (.join (.const .errSkip) e)), src)

/-! ## Reading -/

/-- `HeaderT`. -/
structure HeaderT where
  sz : ℕ
  dictId : UInt32
  contentSz : UInt64
  flags : Flags
  blockDesc : Block
  deriving DecidableEq, Repr

/-- `HeaderT{}`. -/
def HeaderT.zero : HeaderT := ⟨0, 0, 0, ⟨0⟩, ⟨0⟩⟩

/-- What `ReadHeader` returns. -/
structure HdrRes where
  nRead : ℤ
  hdr : HeaderT
  err : Option Err
  deriving DecidableEq, Repr

/-- `sanityCheck`. -/
def sanityCheck (hdr : HeaderT) : Option Err :=
  if hdr.flags.version ≠ lz4FrameVers then some (.const .errVersion)
  else if hdr.flags.reserved then some (wrapCorrupted (.const .errReserveBitSet))
  else if !hdr.blockDesc.valid then some (wrapCorrupted (.const .errBlockDescriptor))
  else none

/-- The checksum byte over the descriptor in `hdrBytes`. -/
def headerHash (hdrBytes : Bytes) : UInt8 :=
  (checksumZero ((hdrBytes.take (hdrBytes.length - 1)).drop 4) >>> 8 &&& 0xFF).toUInt8

/-- The end of `ReadHeader`: validate the hash. -/
def checkHeaderHash (hdr : HeaderT) (hdrBytes : Bytes) : HdrRes :=
  let readHash := hdrBytes.getD (hdrBytes.length - 1) 0
  if headerHash hdrBytes ≠ readHash then
    ⟨hdrBytes.length, hdr, some (wrapCorrupted (.const .errHeaderHash))⟩
  else ⟨hdrBytes.length, { hdr with sz := hdrBytes.length }, none⟩

/-- `ReadHeader` from the dictionary id on. -/
def readDictId (hdr : HeaderT) (hdrBytes src : Bytes) : HdrRes × Bytes :=
  if hdr.flags.dictId then
    let hdrSz := hdrBytes.length
    let ((b, rerr), src) := readFull src 4
    match rerr with
    | some e => (⟨hdrSz + b.length, hdr, some (.join (.const .errHeaderRead) e)⟩, src)
    | none =>
        -- the byte that would have been the checksum is the first of the id
        let hdrBytes := hdrBytes ++ b
        (checkHeaderHash { hdr with dictId := getU32 ((hdrBytes.drop (hdrSz - 1)).take 4) }
          hdrBytes, src)
  else (checkHeaderHash hdr hdrBytes, src)

/-- `ReadHeader` from the content size on. -/
def readContentSz (hdr : HeaderT) (hdrBytes src : Bytes) : HdrRes × Bytes :=
  if hdr.flags.contentSize then
    let ((b, rerr), src) := readFull src 8
    match rerr with
    | some e =>
        (⟨hdrBytes.length + b.length, hdr, some (.join (.const .errHeaderRead) e)⟩, src)
    | none =>
        -- likewise for the content size, which comes first
        let hdrBytes := hdrBytes ++ b
        readDictId { hdr with contentSz := getU64 ((hdrBytes.drop 6).take 8) } hdrBytes src
  else readDictId hdr hdrBytes src

/-- `ReadHeader` once the first seven bytes are there. -/
def readHeaderRest (cb : Option SkipCallbackT) (hdrBytes src : Bytes) : HdrRes × Bytes :=
  if hdrBytes.take 4 ≠ lz4FrameMagic then
    let ((n, err), src) := maybeSkipFrame src hdrBytes cb
    (⟨hdrBytes.length + n, .zero, err⟩, src)
  else
    let hdr : HeaderT := ⟨0, 0, 0, ⟨hdrBytes.getD 4 0⟩, ⟨hdrBytes.getD 5 0⟩⟩
    match sanityCheck hdr with
    | some e => (⟨hdrBytes.length, hdr, some e⟩, src)
    | none => readContentSz hdr hdrBytes src

/-- `ReadHeader`. -/
def readHeader (src : Bytes) (cb : Option SkipCallbackT) : HdrRes × Bytes :=
  let ((hdrBytes, err), src) := readFull src lz4MinHeaderSz
  match err with
  | some e =>
      (⟨hdrBytes.length, .zero, some (if e = .eof then .eof else .join (.const .errHeaderRead) e)⟩,
        src)
  | none => readHeaderRest cb hdrBytes src

end Plz4
