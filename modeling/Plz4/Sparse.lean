/-
The sparse writer of `pkg/sparse`: it defers runs of zero bytes as a pending
`skip` and turns them into holes of a seekable file.

The file is a content and a position. `Write` at a position past the end fills
the gap with zeros, `Seek` only moves the position. Any operation may fail, by a
plan indexed by the number of operations made; a failing `Write` has accepted a
prefix and a failing `Seek` has not moved.
-/
import Plz4.Io
import Plz4.Lib.LittleEndian
import Plz4.Lib.Cut

set_option autoImplicit false

namespace Plz4.Sparse

open LittleEndian Cut

/-! ## The file -/

/-- A seekable file with the number of operations made on it. -/
structure File where
  content : Bytes
  pos : ℕ
  ops : ℕ
  deriving DecidableEq, Repr

/-- Put accepted bytes at the position; nothing accepted changes nothing. -/
def File.put (f : File) (p : Bytes) : Bytes :=
  if p = [] then f.content
  else
    let base := f.content ++ List.replicate (f.pos - f.content.length) 0
    base.take f.pos ++ p ++ base.drop (f.pos + p.length)

/-- `Write`. -/
def File.write (plan : WrPlan) (f : File) (p : Bytes) : ℕ × Option Err × File :=
  match plan f.ops with
  | none => (p.length, none, ⟨f.put p, f.pos + p.length, f.ops + 1⟩)
  | some (k, e) =>
      let m := min k p.length
      (m, some e, ⟨f.put (p.take m), f.pos + m, f.ops + 1⟩)

/-- `Seek(off, io.SeekCurrent)`. -/
def File.seek (plan : WrPlan) (f : File) (off : ℕ) : Option Err × File :=
  match plan f.ops with
  | none => (none, ⟨f.content, f.pos + off, f.ops + 1⟩)
  | some (_, e) => (some e, ⟨f.content, f.pos, f.ops + 1⟩)

/-! ## `skipZeros` -/

/-- `b |= v[0] … b |= v[31]` on the 256 bytes at hand. -/
def orWords (data : Bytes) : UInt64 :=
  (List.range 32).foldl (fun b j => b ||| getU64 (data.drop (8 * j))) 0

/-- The unrolled loop: `k` passes of 256 bytes from `i`; the flag says whether it
returned from inside. -/
def skipWide : ℕ → Bytes → ℕ → ℕ × Bool
  | 0, _, i => (i, false)
  | k + 1, data, i =>
      if orWords ((data.drop i).take 256) ≠ 0 then (i, true) else skipWide k data (i + 256)

/-- The loop over the bytes that are left: `k` passes from `i`. -/
def skipBytes : ℕ → Bytes → ℕ → ℕ
  | 0, _, i => i
  | k + 1, data, i => if data.getD i 0 ≠ 0 then i else skipBytes k data (i + 1)

/-- `skipZeros`: a number of leading zero bytes, not always all of them. -/
def skipZeros (data : Bytes) : ℕ :=
  let (i, found) := skipWide (data.length / 256) data 0
  if found then i else skipBytes (data.length - i) data i

/-! ## The writer -/

/-- `const blkSz`. -/
def blkSz : ℕ := 4096

/-- `const readSz`. -/
def readSz : ℕ := 4096

/-- What the wrapped `io.Writer` can do besides `Write`: `Seek`, and what its own
`Flush` and `Close` return where it has them. -/
structure Caps where
  seeker : Bool
  flush : Option Err
  close : Option Err
  deriving DecidableEq, Repr

/-- `Writer`. -/
structure Writer where
  wr : File
  skip : ℕ
  deriving DecidableEq, Repr

section Ops

variable (plan : WrPlan) (caps : Caps)

/-- "Skip ahead": seek over the pending zeros, if there are any. -/
def Writer.skipAhead (w : Writer) : Option Err × Writer :=
  if w.skip > 0 then
    match w.wr.seek plan w.skip with
    | (some e, f) => (some e, { w with wr := f })
    | (none, f) => (none, { wr := f, skip := 0 })
  else (none, w)

/-- `scanFunc` on one scan block: the bytes it accounts for, its error, and the
writer. -/
def Writer.scanFunc (w : Writer) (blk : Bytes) : ℕ × Option Err × Writer :=
  let skip := skipZeros blk
  let w := { w with skip := w.skip + skip }
  if skip < blk.length then
    match w.skipAhead plan with
    | (some e, w) => (skip, some e, w)
    | (none, w) =>
        let (wn, err, f) := w.wr.write plan (blk.drop skip)
        (skip + wn, err, { w with wr := f })
  -- nothing but zeros: no seek yet
  else (skip, none, w)

/-- The loop of `Write` over `k` whole scan blocks, with the count so far. -/
def Writer.scanBlks : ℕ → Writer → Bytes → ℕ → ℕ × Option Err × Writer
  | 0, w, _, n => (n, none, w)
  | k + 1, w, data, n =>
      match w.scanFunc plan (data.take blkSz) with
      | (m, some e, w') => (n + m, some e, w')
      | (m, none, w') => Writer.scanBlks k w' (data.drop blkSz) (n + m)

/-- `Writer.Write`. -/
def Writer.write (w : Writer) (data : Bytes) : ℕ × Option Err × Writer :=
  if !caps.seeker then
    let (n, err, f) := w.wr.write plan data
    (n, err, { w with wr := f })
  else
    let nBlks := data.length / blkSz
    match Writer.scanBlks plan nBlks w data 0 with
    | (n, some e, w) => (n, some e, w)
    | (n, none, w) =>
        if data.length % blkSz > 0 then
          let (m, err, w) := w.scanFunc plan (data.drop (nBlks * blkSz))
          (n + m, err, w)
        else (n, none, w)

/-- `Writer.ReadFrom`, for at most `fuel` passes of its loop; `none` when that many
do not finish it. -/
def Writer.readFrom : ℕ → Writer → Rd → ℕ → Option (ℕ × Option Err × Writer × Rd)
  | 0, _, _, _ => none
  | k + 1, w, rd, n =>
      let (buf, rerr, rd) := rd.readFull readSz
      let n := n + buf.length
      match rerr with
      | some .eof => some (n, none, w, rd)
      -- a short buffer is written, and the next read meets the end
      | none | some .unexpectedEOF =>
          match w.write plan caps buf with
          | (_, some e, w) => some (n, some e, w, rd)
          | (_, none, w) => Writer.readFrom k w rd n
      | some e => some (n, some e, w, rd)

/-- `Writer.Flush`. -/
def Writer.flush (w : Writer) : Option Err × Writer :=
  match w.skipAhead plan with
  | (some e, w) => (some e, w)
  | (none, w) => (caps.flush, w)

/-- The second half of `Close`: one zero byte commits the hole. -/
def Writer.closeTail (w : Writer) : Option Err × Writer :=
  match w.wr.write plan [0] with
  | (_, some e, f) => (some e, { w with wr := f })
  | (_, none, f) => (caps.close, { wr := f, skip := 0 })

/-- `Writer.Close`. -/
def Writer.close (w : Writer) : Option Err × Writer :=
  if w.skip > 0 then
    if w.skip > 1 then
      match w.wr.seek plan (w.skip - 1) with
      | (some e, f) => (some e, { w with wr := f })
      | (none, f) => Writer.closeTail plan caps { wr := f, skip := 1 }
    else w.closeTail plan caps
  else (caps.close, w)

/-! ## Call sequences -/

/-- A call on the writer before `Close`. -/
inductive Call
  | write (data : Bytes)
  | readFrom (rd : Rd)
  | flush
  deriving DecidableEq, Repr

/-- The bytes a call brings. -/
def Call.data : Call → Bytes
  | .write data => data
  | .readFrom rd => rd.data
  | .flush => []

/-- One call; `none` when a `ReadFrom` does not finish within `fuel` passes. -/
def Writer.call (fuel : ℕ) (w : Writer) : Call → Option (Option Err × Writer)
  | .write data => let (_, err, w) := w.write plan caps data; some (err, w)
  | .readFrom rd => (w.readFrom plan caps fuel rd 0).map (fun r => (r.2.1, r.2.2.1))
  | .flush => some (w.flush plan caps)

/-- A sequence of calls and the `Close` that ends it, with the first error of each
dropped: callers may go on after an error. -/
def Writer.runCalls (fuel : ℕ) : Writer → List Call → Option (Option Err × Writer)
  | w, [] => some (w.close plan caps)
  | w, c :: cs => (w.call plan caps fuel c).bind (fun r => Writer.runCalls fuel r.2 cs)

end Ops

/-- A writer on an empty file. -/
def Writer.new : Writer := ⟨⟨[], 0, 0⟩, 0⟩

end Plz4.Sparse
