/-
The `Reader` (`internal/pkg/rdr/rdr.go`).

A block reader is the session it still has to deliver. For the synchronous one that is
`syncSession`; for the asynchronous one it is what some complete run of its threads
returned, and a `Sched` chooses the run for every frame.
-/
import Plz4.AsyncReaderLive

set_option autoImplicit false

namespace Plz4

/-! ## Block readers -/

/-- A complete run of the asynchronous reader on a frame body returned `t`. -/
def IsAsyncSession (Z : Clz4) (hdr : HeaderT) (o : OptsT) (src : Bytes) (t : Session) : Prop :=
  ∃ as s, .close ∉ as ∧
    Machine.run (AsyncReader.step (readerCfg Z hdr o)) (newAsyncReader src hdr o) as = some s ∧
    s.cons = .ended ∧ s.results = t.results ∧ s.src = t.rest

/-- How the threads of the asynchronous readers are scheduled. -/
structure Sched (Z : Clz4) where
  session : HeaderT → OptsT → Bytes → Session
  runs : ∀ hdr o src, 0 < o.nParallel → (hdr.flags.blockIndependence = false → o.nParallel = 1) →
    IsAsyncSession Z hdr o src (session hdr o src)

/-- `NextBlock`, up to the error that ends the session. -/
def Session.next (t : Session) : NextRes × Session :=
  match t.blks with
  | [] => (⟨none, t.endCnt, some t.endErr⟩, t)
  | b :: bs => (⟨some b.1, b.2, none⟩, { t with blks := bs })

/-! ## The header -/

/-- The loop of `_readHeader` over skip frames. The count bounds the frames passed
over; each takes at least eight bytes. -/
def readHeaders (cb : Option SkipCallbackT) : ℕ → Bytes → HdrRes × Bytes
  | 0, src => readHeader src cb
  | k + 1, src =>
      let (h, src) := readHeader src cb
      if h.err = some (.const .endMark) then
        let (h', src) := readHeaders cb k src
        ({ h' with nRead := h.nRead + h'.nRead }, src)
      else (h, src)

/-- `DictCallback` on the id of the header. -/
def askDict (o : OptsT) (hdr : HeaderT) : Option Err × OptsT :=
  if hdr.flags.dictId then
    match o.dictCallback with
    | none => (none, o)
    | some cb =>
        match cb hdr.dictId with
        | .error e => (some e.1, o)
        | .ok none => (none, o)
        | .ok (some ndict) => (none, { o with dictionary := some ndict })
  else (none, o)

/-- The `Seek` of a source: its error, by the bytes ahead and the offset from the current
position. A seek past the end may succeed. -/
abbrev SeekT := Bytes → ℕ → Option CallerErr

/-- A `Seek` that does not fail. -/
def seekOk : SeekT := fun _ _ => none

/-- `skipOffset`. A source that is no `io.Seeker` is `none`. -/
def skipOffset (seeks : Option SeekT) (src : Bytes) (offset : ℕ) : (ℕ × Option Err) × Bytes :=
  match seeks with
  | some seek =>
      match seek src offset with
      | some e => ((0, some e.1), src)
      | none => ((offset, none), src.drop offset)
  | none => copyN src offset

/-- What the header and the options come to for the frame. -/
structure Opened where
  nRead : ℤ
  err : Option Err
  hdr : HeaderT
  opts : OptsT
  src : Bytes

/-- The switch of `_readHeader` on the read offset. -/
def applyOffset (seeks : Option SeekT) (o : OptsT) (nRead : ℤ) (hdr : HeaderT) (src : Bytes) :
    Opened :=
  if o.readOffset = 0 ∨ o.readOffset = hdr.sz then ⟨nRead, none, hdr, o, src⟩
  else if o.readOffset < hdr.sz then ⟨nRead, some (.const .errReadOffset), hdr, o, src⟩
  else if !hdr.flags.blockIndependence then
    ⟨nRead, some (.const .errReadOffsetLinked), hdr, o, src⟩
  else
    let ((n, err), src) := skipOffset seeks src (o.readOffset - hdr.sz).toNat
    match err with
    | some e => ⟨nRead + n, some e, hdr, o, src⟩
    | none =>
        ⟨nRead + n, none, { hdr with flags := hdr.flags.clrContentChecksum },
          { o with readOffset := 0, skipContentSz := true }, src⟩

/-- Caching the content size in the options. -/
def cacheContentSz (o : OptsT) (hdr : HeaderT) : OptsT :=
  if hdr.flags.contentSize then { o with contentSz := some hdr.contentSz } else o

/-- The options `makeBlockReader` leaves: dependent blocks run in serial. -/
def serialOpts (o : OptsT) (hdr : HeaderT) : OptsT :=
  if 0 < o.nParallel ∧ hdr.flags.blockIndependence = false then { o with nParallel := 1 } else o

/-- `_readHeader` on the source and the options, short of making the block reader. -/
def openFrame (seeks : Option SeekT) (o : OptsT) (src : Bytes) : Opened :=
  let (h, src) := readHeaders o.skipCallback (src.length + 1) src
  match h.err with
  | some e => ⟨h.nRead, some e, h.hdr, o, src⟩
  | none =>
      let (err, o) := askDict o h.hdr
      match err with
      | some e => ⟨h.nRead, some e, h.hdr, o, src⟩
      | none =>
          let p := applyOffset seeks o h.nRead h.hdr src
          match p.err with
          | some _ => p
          | none => { p with opts := serialOpts (cacheContentSz p.opts p.hdr) p.hdr }

/-! ## The reader -/

/-- `Reader` with its source. `progress` logs the pairs given to the handler. -/
structure Reader where
  src : Bytes
  seeks : Option SeekT
  dstOff : ℕ
  dstBlk : Option Bytes
  blkReader : Option Session
  opts : OptsT
  closed : Bool
  srcPos : ℤ
  dstPos : ℤ
  contentSz : UInt64
  state : Option Err
  progress : List (ℤ × ℤ)

/-- `NewReader`. -/
def newReader (src : Bytes) (seeks : Option SeekT) (o : OptsT) : Reader where
  src := src
  seeks := seeks
  dstOff := 0
  dstBlk := none
  blkReader := none
  opts := o
  closed := false
  srcPos := 0
  dstPos := 0
  contentSz := 0
  state := none
  progress := []

variable {Z : Clz4}

/-- `makeBlockReader`, its choice of the reader. -/
def Sched.blkSession (S : Sched Z) (hdr : HeaderT) (o : OptsT) (src : Bytes) : Session :=
  if o.nParallel = 0 then syncSession Z hdr o src else S.session hdr o src

namespace Reader

/-- The part of the current block that is not delivered: `Suffix(dstOff)`. -/
def avail (r : Reader) : Bytes := (r.dstBlk.getD []).drop r.dstOff

/-- Updating the offset pointer into the current block. -/
def slide (r : Reader) (n : ℕ) : Reader := { r with dstOff := r.dstOff + n }

/-- `_readHeader`. -/
def _readHeader (S : Sched Z) (r : Reader) : (ℤ × Option Err) × Reader :=
  let p := openFrame r.seeks r.opts r.src
  let r := { r with opts := p.opts, src := p.src }
  match p.err with
  | some e => ((p.nRead, some e), r)
  | none => ((p.nRead, none), { r with blkReader := some (S.blkSession p.hdr p.opts p.src) })

/-- `handleEndMark`. -/
def handleEndMark (r : Reader) : Option Err × Reader :=
  let err :=
    match r.opts.contentSz with
    | none => none
    | some sz =>
        if !r.opts.skipContentSz && sz ≠ r.contentSz then
          some (wrapCorrupted (.const .errContentSize))
        else none
  (err, { r with
    contentSz := 0
    src := r.blkReader.elim r.src Session.rest
    blkReader := none })

/-- `nextBlock` with the block reader `t`. -/
def nextBlock (t : Session) (r : Reader) : Option Err × Reader :=
  let (res, t) := t.next
  let len := (res.blk.getD []).length
  (res.err, { r with
    dstOff := 0
    dstBlk := res.blk
    blkReader := some t
    progress := r.progress ++ [(r.srcPos, r.dstPos)]
    srcPos := r.srcPos + res.nRead
    dstPos := r.dstPos + len
    contentSz := r.contentSz + UInt64.ofNat len })

/-- `modeBody` into `n` bytes, in at most `k` passes. -/
def bodyLoop : ℕ → ℕ → Reader → (Bytes × Option Err) × Reader
  | 0, _, r => (([], none), r)
  | k + 1, n, r =>
      let bs := r.avail.take n
      let full := !r.avail.isEmpty && bs.length = n
      let r := r.slide bs.length
      if full then ((bs, none), r)
      else
        match r.blkReader with
        | none => ((bs, none), r)
        | some t =>
            match nextBlock t r with
            | (some e, r) => ((bs, some e), r)
            | (none, r) =>
                let ((bs', err), r) := bodyLoop k (n - bs.length) r
                ((bs ++ bs', err), r)

/-- The blocks the block reader has, and the error after them. -/
def passes (r : Reader) : ℕ := r.blkReader.elim 0 (fun t => t.blks.length) + 1

/-- `modeBody`. -/
def modeBody (n : ℕ) (r : Reader) : (Bytes × Option Err) × Reader := bodyLoop r.passes n r

/-- `modeHeader`. -/
def modeHeader (S : Sched Z) (n : ℕ) (r : Reader) : (Bytes × Option Err) × Reader :=
  let ((nBytes, err), r) := r._readHeader S
  let r := { r with srcPos := r.srcPos + nBytes }
  match err with
  | some e => (([], some e), r)
  | none => r.modeBody n

/-- The second switch of `Read`. -/
def settle (bs : Bytes) (err : Option Err) (r : Reader) : (Bytes × Option Err) × Reader :=
  match err with
  | none => ((bs, none), r)
  | some e =>
      if e = .const .endMark then
        let (err, r) := r.handleEndMark
        ((bs, err), { r with state := err })
      -- the bytes first, the error on the next call
      else if bs ≠ [] ∧ r.blkReader.isSome then ((bs, none), { r with state := some e })
      else ((bs, some e), { r with state := some e })

/-- `Read` into a buffer of `n` bytes. -/
def read (S : Sched Z) (n : ℕ) (r : Reader) : (Bytes × Option Err) × Reader :=
  match r.state with
  | some e => (([], some e), r)
  | none =>
      let ((bs, err), r) := if r.blkReader.isSome then r.modeBody n else r.modeHeader S n
      settle bs err r

/-- `_writeTo`, in at most `k` passes. -/
def writeLoop (plan : WrPlan) :
    ℕ → List WrCall → Reader → ((ℕ × Option Err) × List WrCall) × Reader
  | 0, calls, r => (((0, none), calls), r)
  | k + 1, calls, r =>
      let (nWritten, err, calls) :=
        if r.avail.isEmpty then (0, none, calls) else wrWrite plan calls r.avail
      let r := r.slide nWritten
      match err with
      | some e => (((nWritten, some e), calls), r)
      | none =>
          match r.blkReader with
          | none => (((nWritten, none), calls), r)
          | some t =>
              match nextBlock t r with
              | (some e, r) => (((nWritten, some e), calls), r)
              | (none, r) =>
                  let (((n, err), calls), r) := writeLoop plan k calls r
                  (((nWritten + n, err), calls), r)

/-- `_writeTo`. -/
def _writeTo (plan : WrPlan) (calls : List WrCall) (r : Reader) :
    ((ℕ × Option Err) × List WrCall) × Reader :=
  writeLoop plan r.passes calls r

/-- `_writeTo` in `WriteTo`, with the handling of the end mark. -/
def writeFrame (plan : WrPlan) (calls : List WrCall) (r : Reader) :
    (ℕ × List WrCall) × Reader :=
  let (((n, err), calls), r) := r._writeTo plan calls
  let r := { r with state := err }
  if err = some (.const .endMark) then
    let (err, r) := r.handleEndMark
    ((n, calls), { r with state := err })
  else ((n, calls), r)

/-- The loop of `WriteTo`, over at most `k` frames. -/
def frameLoop (S : Sched Z) (plan : WrPlan) :
    ℕ → List WrCall → Reader → ((ℕ × Option Err) × List WrCall) × Reader
  | 0, calls, r => (((0, r.state), calls), r)
  | k + 1, calls, r =>
      if r.state.isSome then (((0, r.state), calls), r)
      else if r.blkReader.isSome then
        let ((n, calls), r) := r.writeFrame plan calls
        let (((sum, err), calls), r) := frameLoop S plan k calls r
        (((n + sum, err), calls), r)
      else
        let ((nBytes, err), r) := r._readHeader S
        let r := { r with srcPos := r.srcPos + nBytes }
        match err with
        | some e =>
            -- between frames the end of the source is the end of the stream
            let r := { r with state := if e = .eof then none else some e }
            (((0, r.state), calls), r)
        | none =>
            let ((n, calls), r) := r.writeFrame plan calls
            let (((sum, err), calls), r) := frameLoop S plan k calls r
            (((n + sum, err), calls), r)

/-- `WriteTo`. Every frame takes at least the bytes of its header, and one more pass
ends in an error of the last. -/
def writeTo (S : Sched Z) (plan : WrPlan) (r : Reader) :
    ((ℕ × Option Err) × List WrCall) × Reader :=
  frameLoop S plan (r.src.length + r.blkReader.elim 0 (fun t => t.rest.length) + 3) [] r

/-- `Close`. -/
def close (r : Reader) : Option Err × Reader :=
  if r.closed then (r.state, r)
  else
    (none, { r with
      blkReader := none
      dstBlk := none
      dstOff := 0
      state := some (r.state.getD (.const .errClosed))
      closed := true })

end Reader

end Plz4
