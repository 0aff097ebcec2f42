/-
The synchronous writer (`internal/pkg/sync/writer.go`).

The destination answers by the plan `wr`; the writer carries the log of its calls,
the log of the pairs given to the progress handler, and that of the errors that sources
gave to `ReadFrom`, each with the number of calls of the destination before it. The
loops of `_write` and `_readFrom` take a bound on their passes, which `write` and
`readFrom` set to what the input allows.
-/
import Plz4.Calls

set_option autoImplicit false

namespace Plz4

open Xxh32 CopyAt

/-- A block borrowed from the pool and cut to `n` bytes; a recycled block holds
anything. -/
abbrev PoolBlk (n : ℕ) := { b : Bytes // b.length = n }

/-- `syncWriterT`, with what its destination and its progress handler have seen, and the
errors its sources gave. -/
structure SyncWriter (Z : Clz4) where
  cmp : Compressor Z
  bsz : ℕ
  srcOff : ℤ
  srcBlk : Option Bytes
  srcMark : ℕ
  dstMark : ℕ
  state : Option Err
  opts : OptsT
  srcHash : Option XXHZero
  calls : List WrCall
  progress : List (ℕ × ℕ)
  srcErrs : List (ℕ × Err)

variable {Z : Clz4}

/-- When `NewWriter` makes a synchronous writer. Linked blocks are only implemented in
async mode, where it raises `NParallel` to 1. -/
def usesSyncWriter (o : OptsT) : Bool := o.nParallel = 0 && !o.blockLinked

/-- `NewSyncWriter`. -/
def newSyncWriter (Z : Clz4) (o : OptsT) (srcBlk : PoolBlk o.bsz) : SyncWriter Z where
  cmp := (o.newCompressorFactory Z).newCompressor
  bsz := o.bsz
  srcOff := -1
  srcBlk := some srcBlk.val
  srcMark := 0
  dstMark := 0
  state := none
  opts := o
  srcHash := if o.contentChecksum then some .zero else none
  calls := []
  progress := []
  srcErrs := []

namespace SyncWriter

/-- `w.srcBlk.Data()`. -/
def blk (w : SyncWriter Z) : Bytes := w.srcBlk.getD []

/-- `_writeHeader`. -/
def _writeHeader (wr : WrPlan) (w : SyncWriter Z) : Option Err × SyncWriter Z :=
  let w := { w with srcOff := 0 }
  let (hdrSz, err, calls) := writeHeader wr w.calls w.opts
  let w := { w with calls := calls }
  match err with
  | some e => (some e, w)
  | none => (none, { w with dstMark := hdrSz })

/-- `_writeFrame`. -/
def _writeFrame (wr : WrPlan) (w : SyncWriter Z) (src : Bytes) : Option Err × SyncWriter Z :=
  let w := { w with srcHash := w.srcHash.map (fun h : XXHZero => h.write src) }
  let (ret, cmp) := compressToBlk src w.cmp w.bsz w.opts.blockChecksum none
  let w := { w with cmp := cmp }
  match ret with
  | .error e => (some e, w)
  | .ok dstBlk =>
      let (wsz, err, calls) := wrWrite wr w.calls dstBlk
      let w := { w with calls := calls }
      match err with
      | some e => (some e, w)
      | none =>
          (none, { w with
            progress := w.progress ++ [(w.srcMark, w.dstMark)]
            srcMark := w.srcMark + src.length
            dstMark := w.dstMark + wsz })

/-- The loop of `_write`: full blocks straight from the source, the rest into the
block buffer. -/
def writeLoop (wr : WrPlan) : ℕ → SyncWriter Z → Bytes → ℕ → (ℕ × Option Err) × SyncWriter Z
  | 0, w, _, nConsumed => ((nConsumed, none), w)
  | k + 1, w, src, nConsumed =>
      if src = [] then ((nConsumed, none), w)
      else if src.length ≥ w.bsz then
        match w._writeFrame wr (src.take w.bsz) with
        | (some e, w) => ((nConsumed + w.bsz, some e), w)
        | (none, w) => writeLoop wr k w (src.drop w.bsz) (nConsumed + w.bsz)
      else
        -- less than a block is left
        let n := copyLen w.blk 0 src
        let w := { w with srcBlk := some (copyAt w.blk 0 src), srcOff := n }
        writeLoop wr k w (src.drop n) (nConsumed + n)

/-- The part of `_write` that fills up a started block. -/
def fillBlk (wr : WrPlan) (w : SyncWriter Z) (src : Bytes) : (ℕ × Option Err) × SyncWriter Z :=
  let off := w.srcOff.toNat
  let n := copyLen w.blk off src
  let w := { w with srcBlk := some (copyAt w.blk off src), srcOff := w.srcOff + n }
  if w.srcOff = w.bsz then
    match w._writeFrame wr w.blk with
    | (some e, w) => ((n, some e), w)
    | (none, w) => ((n, none), { w with srcOff := 0 })
  else ((n, none), w)

/-- `_write`. -/
def _write (wr : WrPlan) (w : SyncWriter Z) (src : Bytes) : (ℕ × Option Err) × SyncWriter Z :=
  let (err, w) := if w.srcOff < 0 then w._writeHeader wr else (none, w)
  match err with
  | some e => ((0, some e), w)
  | none =>
      let ((n, err), w) := if w.srcOff > 0 then w.fillBlk wr src else ((0, none), w)
      match err with
      | some e => ((n, some e), w)
      | none => writeLoop wr (src.length + 1) w (src.drop n) n

/-- `Write`. -/
def write (wr : WrPlan) (w : SyncWriter Z) (src : Bytes) : CallRes × SyncWriter Z :=
  match w.state with
  | some e => (⟨0, some e⟩, w)
  | none =>
      let ((n, err), w) := w._write wr src
      (⟨n, err⟩, { w with state := err })

/-- `_flush`. -/
def _flush (wr : WrPlan) (w : SyncWriter Z) : Option Err × SyncWriter Z :=
  if w.srcOff ≤ 0 then (none, w)
  else
    match w._writeFrame wr (w.blk.take w.srcOff.toNat) with
    | (some e, w) => (some e, w)
    | (none, w) => (none, { w with srcOff := 0 })

/-- `Flush`. -/
def flush (wr : WrPlan) (w : SyncWriter Z) : CallRes × SyncWriter Z :=
  match w.state with
  | some e => (⟨0, some e⟩, w)
  | none =>
      let (err, w) := w._flush wr
      (⟨0, err⟩, { w with state := err })

/-- The loop of `_readFrom`. -/
def readFromLoop (wr : WrPlan) : ℕ → SyncWriter Z → Rd → ℕ → (ℕ × Option Err) × SyncWriter Z
  | 0, w, _, nConsumed => ((nConsumed, none), w)
  | k + 1, w, r, nConsumed =>
      let off := w.srcOff.toNat
      let (d, rerr, r) := r.readFull (w.blk.length - off)
      let nConsumed := nConsumed + d.length
      let w := { w with srcBlk := some (copyAt w.blk off d) }
      match rerr with
      | some e =>
          -- what was read stays in the buffer
          if e = .eof ∨ e = .unexpectedEOF then
            ((nConsumed, none), { w with srcOff := w.srcOff + d.length })
          else ((nConsumed, some e), { w with srcErrs := w.srcErrs ++ [(w.calls.length, e)] })
      | none =>
          match w._writeFrame wr w.blk with
          | (some e, w) => ((nConsumed, some e), w)
          | (none, w) => readFromLoop wr k { w with srcOff := 0 } r nConsumed

/-- `_readFrom`. -/
def _readFrom (wr : WrPlan) (w : SyncWriter Z) (r : Rd) : (ℕ × Option Err) × SyncWriter Z :=
  let (err, w) := if w.srcOff < 0 then w._writeHeader wr else (none, w)
  match err with
  | some e => ((0, some e), w)
  | none => readFromLoop wr (r.data.length + 2) w r 0

/-- `ReadFrom`. -/
def readFrom (wr : WrPlan) (w : SyncWriter Z) (r : Rd) : CallRes × SyncWriter Z :=
  match w.state with
  | some e => (⟨0, some e⟩, w)
  | none =>
      let ((n, err), w) := w._readFrom wr r
      (⟨n, err⟩, { w with state := err })

/-- The end of `Close`: the trailer. -/
def closeTrailer (wr : WrPlan) (w : SyncWriter Z) : Option Err × SyncWriter Z :=
  let w := { w with progress := w.progress ++ [(w.srcMark, w.dstMark)] }
  let (_, err, calls) := wrWrite wr w.calls (trailerBytes (w.srcHash.map (fun h : XXHZero => h.sum32)))
  (err, { w with calls := calls, state := some (err.getD (.const .errClosed)) })

/-- `Close`. The flush is tried in an error state too. -/
def close (wr : WrPlan) (w : SyncWriter Z) : CallRes × SyncWriter Z :=
  match w.srcBlk with
  | none => (⟨0, w.state⟩, w)
  | some _ =>
      let (err, w) := if w.srcOff < 0 then w._writeHeader wr else w._flush wr
      let w := { w with srcBlk := none, srcOff := 0 }
      match w.state, err with
      -- in an error state `Close` succeeds, and writes no trailer
      | some _, _ => (⟨0, none⟩, w)
      | none, some e => (⟨0, some e⟩, { w with state := some e })
      | none, none =>
          let (err, w) := w.closeTrailer wr
          (⟨0, err⟩, w)

/-- One call. -/
def call (wr : WrPlan) (w : SyncWriter Z) : WCall → CallRes × SyncWriter Z
  | .write src => w.write wr src
  | .readFrom r => w.readFrom wr r
  | .flush => w.flush wr
  | .close => w.close wr

/-- A sequence of calls: what each returned and the writer afterwards. -/
def runCalls (wr : WrPlan) (w : SyncWriter Z) : List WCall → List CallRes × SyncWriter Z
  | [] => ([], w)
  | c :: cs =>
      let (r, w) := w.call wr c
      let (rs, w) := runCalls wr w cs
      (r :: rs, w)

end SyncWriter

end Plz4
