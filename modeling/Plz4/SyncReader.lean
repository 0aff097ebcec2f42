/-
The synchronous block reader (`internal/pkg/sync/reader.go`), and the sessions a
block reader has with its consumer.

The consumer calls `NextBlock` with the block it got last until it gets an error.
A `Session` is what such a series of calls returned: blocks, then one error. Both
block readers are described by their sessions.
-/
import Plz4.BlkSpec

set_option autoImplicit false

namespace Plz4

open Xxh32

/-- What `NextBlock` returns. -/
structure NextRes where
  blk : Option Bytes
  nRead : ℕ
  err : Option Err
  deriving DecidableEq, Repr

/-! ## What both readers make of the header and the options -/

/-- Whether the content is hashed. -/
def useHasher (hdr : HeaderT) (o : OptsT) : Bool :=
  hdr.flags.contentChecksum && o.readOffset = 0 && o.contentChecksum

/-- The dictionary both readers build. -/
def readerDict (hdr : HeaderT) (o : OptsT) : Option DictT :=
  if o.dictionary.isSome || !hdr.flags.blockIndependence then
    some (newDictT (o.dictionary.getD []) (!hdr.flags.blockIndependence))
  else none

/-- The decompressor both readers build. -/
def readerDc (hdr : HeaderT) (o : OptsT) : Decompressor :=
  newDecompressor hdr.flags.blockIndependence (readerDict hdr o)

/-- The frame reader both readers build. -/
def readerFrame (hdr : HeaderT) : FrameReader :=
  newFrameReader hdr.blockDesc.idx.size hdr.flags.contentChecksum hdr.flags.blockChecksum

/-! ## The reader -/

/-- `syncReaderT` and the unread source. -/
structure SyncReader where
  dc : Decompressor
  frameRdr : FrameReader
  hasher : Option XXHZero
  src : Bytes

/-- `NewSyncReader`. -/
def newSyncReader (src : Bytes) (hdr : HeaderT) (o : OptsT) : SyncReader where
  dc := readerDc hdr o
  frameRdr := readerFrame hdr
  hasher := if useHasher hdr o then some .zero else none
  src := src

/-- The check of the content hash at the end mark. -/
def checkSum (hasher : Option XXHZero) (sum : UInt32) (err : Err) : Err :=
  if err = .const .endMark then
    match hasher with
    | some h => if h.sum32 ≠ sum then wrapCorrupted (.const .errContentHash) else err
    | none => err
  else err

/-- Hashing the block the consumer is done with. -/
def hashPrev (hasher : Option XXHZero) (prevBlk : Option Bytes) : Option XXHZero :=
  prevBlk.elim hasher (fun b => hasher.map (fun h : XXHZero => h.write b))

/-- `syncReaderT.NextBlock`. A frame that comes with an error is `FrameT{}` and
counts nothing. -/
def SyncReader.nextBlock (Z : Clz4) (r : SyncReader) (prevBlk : Option Bytes) :
    NextRes × SyncReader :=
  let r := { r with hasher := hashPrev r.hasher prevBlk }
  let ((frame, fr), src) := r.frameRdr.read r.src
  let r := { r with frameRdr := fr, src := src }
  match frame with
  | .error err => (⟨none, 0, some (checkSum r.hasher fr.srcSum err)⟩, r)
  | .ok frame =>
      if frame.uncompressed then (⟨some frame.blk, frame.readCnt, none⟩, r)
      else
        let (dst, dc) := blkDecompress Z r.dc fr.bsz frame.blk
        let r := { r with dc := dc }
        match dst with
        | .error e => (⟨none, frame.readCnt, some e⟩, r)
        | .ok b => (⟨some b, frame.readCnt, none⟩, r)

/-! ## Sessions -/

/-- The results of `NextBlock` up to the first error: the blocks with their source
sizes, the count and the error of the last call, and the source left then. -/
structure Session where
  blks : List (Bytes × ℕ)
  endCnt : ℕ
  endErr : Err
  rest : Bytes
  deriving DecidableEq, Repr

namespace Session

/-- One more block in front. -/
def cons (b : Bytes × ℕ) (s : Session) : Session := { s with blks := b :: s.blks }

/-- The results as `NextBlock` returned them. -/
def results (s : Session) : List NextRes :=
  s.blks.map (fun b => ⟨some b.1, b.2, none⟩) ++ [⟨none, s.endCnt, some s.endErr⟩]

/-- The decoded bytes. -/
def bytes (s : Session) : Bytes := s.blks.flatMap Prod.fst

/-- Two sessions look the same to a consumer: it reads on only after an end mark. -/
structure Same (s t : Session) : Prop where
  blks : s.blks = t.blks
  endCnt : s.endCnt = t.endCnt
  endErr : s.endErr = t.endErr
  rest : s.endErr = .const .endMark → s.rest = t.rest

theorem Same.refl (s : Session) : s.Same s := ⟨rfl, rfl, rfl, fun _ => rfl⟩

theorem Same.symm {s t : Session} (h : s.Same t) : t.Same s :=
  ⟨h.blks.symm, h.endCnt.symm, h.endErr.symm, fun he => (h.rest (h.endErr.trans he)).symm⟩

theorem Same.trans {s t u : Session} (h : s.Same t) (h' : t.Same u) : s.Same u :=
  ⟨h.blks.trans h'.blks, h.endCnt.trans h'.endCnt, h.endErr.trans h'.endErr,
    fun he => (h.rest he).trans (h'.rest (h.endErr ▸ he))⟩

theorem Same.results {s t : Session} (h : s.Same t) : s.results = t.results := by
  rw [Session.results, Session.results, h.blks, h.endCnt, h.endErr]

theorem Same.cons {s t : Session} (h : s.Same t) (b : Bytes × ℕ) : (s.cons b).Same (t.cons b) :=
  ⟨congrArg (b :: ·) h.blks, h.endCnt, h.endErr, h.rest⟩

end Session

/-- The session of a synchronous reader, in at most `k + 1` calls. -/
def SyncReader.session (Z : Clz4) : ℕ → SyncReader → Option Bytes → Session
  | 0, r, _ => ⟨[], 0, .unexpectedEOF, r.src⟩
  | k + 1, r, prevBlk =>
      match r.nextBlock Z prevBlk with
      | (⟨some b, n, none⟩, r) => (SyncReader.session Z k r (some b)).cons (b, n)
      | (⟨_, n, err⟩, r) => ⟨[], n, err.getD .unexpectedEOF, r.src⟩

/-- The session on a frame body: a block takes at least four bytes, so there are no
more calls than source bytes. -/
def syncSession (Z : Clz4) (hdr : HeaderT) (o : OptsT) (src : Bytes) : Session :=
  (newSyncReader src hdr o).session Z (src.length + 1) none

end Plz4
