/-
The asynchronous block reader (`internal/pkg/async/reader.go`, `AsyncHash` of
`hash.go`) as a machine.

Its threads are the dispatcher, the decompress workers, the hasher and the consumer
that calls `NextBlock` and `Close`. An action moves one thread, or two that meet at
an unbuffered channel, so a list of actions is one interleaving. Blocks carry the
number of their borrow from the pool; `returned` logs the numbers given back. The
machine also logs what `NextBlock` returned and which dictionary the engine was given
for which block.
-/
import Plz4.Session
import Plz4.Lib.Machine
import Plz4.Lib.Pool

set_option autoImplicit false

namespace Plz4

open Xxh32

/-! ## States -/

/-- A block borrowed from the pool. -/
structure Blk where
  id : ℕ
  data : Bytes
  deriving DecidableEq, Repr

/-- `inBlkT` on the reading side, where it has no dictionary. -/
structure InBlk where
  idx : ℕ
  srcSz : ℕ
  blk : Blk
  deriving DecidableEq, Repr

/-- `outBlkT`. -/
structure OutBlk where
  err : Option Err
  idx : ℕ
  srcSz : ℕ
  blk : Option Blk
  deriving DecidableEq, Repr

/-- Where the dispatcher is. -/
inductive Disp
  /-- at the select on the semaphore -/
  | acquire
  /-- in `frameRdr.Read` -/
  | read
  /-- sending a stored block to the consumer -/
  | sendOut (b : OutBlk)
  /-- sending a compressed block to a worker -/
  | sendIn (b : InBlk)
  /-- past `_readLoop`, before `close(r.inChan)` -/
  | closeIn (err : Option Err)
  /-- before `close(r.semChan)` -/
  | closeSem (err : Option Err)
  /-- sending the error packet -/
  | sendErr (b : OutBlk)
  | done
  deriving DecidableEq, Repr

/-- Where a worker is. -/
inductive Worker
  | recv
  | work (b : InBlk)
  | send (b : OutBlk)
  | done
  deriving DecidableEq, Repr

/-- Where the consumer is. -/
inductive Cons
  /-- between two calls -/
  | idle
  /-- in `hasher.Queue` -/
  | queue (b : Blk)
  /-- at the entry of `_nextBlock` -/
  | check
  /-- waiting on `outChan` -/
  | recv
  /-- at `<-r.semChan` with the block in hand -/
  | release (b : OutBlk)
  /-- in `hasher.Done`, before the channel is closed -/
  | hashDone (b : OutBlk)
  /-- in `hasher.Done`, waiting for the hasher -/
  | hashWait (b : OutBlk)
  /-- `NextBlock` has returned an error -/
  | ended
  /-- in `_close`, waiting for the workers -/
  | wgWait
  /-- draining `inChan` -/
  | drainIn
  /-- draining `outChan` -/
  | drainOut
  /-- in the `hasher.Done` of `_close` -/
  | hashDoneC
  | hashWaitC
  | closed
  deriving DecidableEq, Repr

/-- `AsyncHash`. -/
structure Hasher where
  q : List Blk
  hash : XXHZero
  closed : Bool
  exited : Bool
  deriving DecidableEq

/-- `asyncRdrT` with its threads, its source and its logs. `held` is the block the
consumer has. -/
structure AsyncReader where
  src : Bytes
  fr : FrameReader
  disp : Disp
  curIdx : ℕ
  workers : List Worker
  dc : Decompressor
  inClosed : Bool
  sem : ℕ
  semClosed : Bool
  fin : Bool
  cons : Cons
  held : Option Blk
  nextIdx : ℕ
  pending : List OutBlk
  hasher : Option Hasher
  results : List NextRes
  borrowed : ℕ
  returned : List ℕ
  decodes : List (ℕ × Option Bytes)

/-- What does not change: the engine, `cap(r.semChan)`, the hasher's queue length and
the block size. -/
structure ReaderCfg : Type 1 where
  engine : Clz4
  nPending : ℕ
  hashCap : ℕ
  bsz : ℕ

def readerCfg (Z : Clz4) (hdr : HeaderT) (o : OptsT) : ReaderCfg :=
  ⟨Z, o.calcPending, o.nParallel, hdr.blockDesc.idx.size⟩

/-- `NewAsyncReader`. -/
def newAsyncReader (src : Bytes) (hdr : HeaderT) (o : OptsT) : AsyncReader where
  src := src
  fr := readerFrame hdr
  disp := .acquire
  curIdx := 0
  workers := List.replicate o.nParallel .recv
  dc := readerDc hdr o
  inClosed := false
  sem := 0
  semClosed := false
  fin := false
  cons := .idle
  held := none
  nextIdx := 0
  pending := []
  hasher := if useHasher hdr o then some ⟨[], .zero, false, false⟩ else none
  results := []
  borrowed := 0
  returned := []
  decodes := []

namespace AsyncReader

/-! ## Steps -/

/-- Which thread moves, and which of its choices it takes. -/
inductive Act
  /-- the dispatcher acquires the semaphore -/
  | acquire
  /-- the dispatcher reads a frame -/
  | read
  /-- the dispatcher takes the branch of `finChan` -/
  | dispFin
  | closeIn
  | closeSem
  /-- the dispatcher hands a block to worker `i` -/
  | sendIn (i : ℕ)
  /-- the dispatcher hands a block or the error packet to the consumer -/
  | sendOut
  /-- worker `i` decompresses its block -/
  | work (i : ℕ)
  /-- worker `i` hands its block to the consumer -/
  | workerOut (i : ℕ)
  /-- worker `i` takes the branch of `finChan` -/
  | workerFin (i : ℕ)
  /-- worker `i` finds `inChan` closed -/
  | workerExit (i : ℕ)
  /-- the hasher takes a block -/
  | hash
  | hashExit
  /-- the consumer calls `NextBlock` -/
  | call
  | queue
  | check
  | release
  | hashDone
  | hashWait
  /-- the consumer calls `Close` -/
  | close
  | wgWait
  /-- `_close` takes a block out of `inChan` -/
  | drainIn
  | drainInDone
  /-- `_close` takes a block the dispatcher offers on `outChan` -/
  | drainOut
  /-- `_close` takes the default branch, then drains the pending map -/
  | drainOutDone
  | closeHash
  | closeWait
  deriving DecidableEq, Repr

/-- A block arrives at a consumer waiting for `nextIdx`. -/
def receive (s : AsyncReader) (b : OutBlk) : AsyncReader :=
  if b.idx = s.nextIdx then { s with cons := .release b } else { s with pending := s.pending ++ [b] }

/-- The end of `NextBlock`. -/
def finish (s : AsyncReader) (b : OutBlk) (err : Option Err) : AsyncReader :=
  { s with
    results := s.results ++ [⟨b.blk.map Blk.data, b.srcSz, err⟩]
    held := b.blk
    cons := if err = none then .idle else .ended }

/-- Blocks given back to the pool. -/
def giveBack (s : AsyncReader) (bs : List Blk) : AsyncReader :=
  { s with returned := s.returned ++ bs.map Blk.id }

/-- `_readLoop` after `frameRdr.Read`. -/
def readStep (s : AsyncReader) : AsyncReader :=
  match s.fr.read s.src with
  -- the block borrowed for the read goes back
  | ((.error e, fr), src) =>
      { s with src := src, fr := fr, disp := .closeIn (some e), borrowed := s.borrowed + 1,
               returned := s.returned ++ [s.borrowed] }
  | ((.ok frame, fr), src) =>
      let blk : Blk := ⟨s.borrowed, frame.blk⟩
      { s with
        src := src
        fr := fr
        borrowed := s.borrowed + 1
        disp := if frame.uncompressed then .sendOut ⟨none, s.curIdx, frame.readCnt, some blk⟩
          else .sendIn ⟨s.curIdx, frame.readCnt, blk⟩ }

/-- `_decompressLoop` with a block in hand. -/
def workStep (c : ReaderCfg) (s : AsyncReader) (i : ℕ) (b : InBlk) : AsyncReader :=
  let (dst, dc) := blkDecompress c.engine s.dc c.bsz b.blk.data
  let s := { s with
    dc := dc
    borrowed := s.borrowed + 1
    decodes := s.decodes ++ [(b.idx, s.dc.dict)] }
  match dst with
  | .ok data =>
      { s with
        workers := s.workers.set i (.send ⟨none, b.idx, b.srcSz, some ⟨s.borrowed - 1, data⟩⟩)
        returned := s.returned ++ [b.blk.id] }
  -- the destination block goes back too
  | .error e =>
      { s with
        workers := s.workers.set i (.send ⟨some e, b.idx, b.srcSz, none⟩)
        returned := s.returned ++ [s.borrowed - 1, b.blk.id] }

/-- The select of the dispatcher when `finChan` is taken. -/
def dispFinStep (s : AsyncReader) : Option AsyncReader :=
  match s.disp with
  | .acquire => some { s with disp := .closeIn none }
  | .sendOut b => some { s.giveBack b.blk.toList with disp := .closeIn none }
  | .sendIn b => some { s.giveBack [b.blk] with disp := .closeIn none }
  | .sendErr _ => some { s with disp := .done }
  | _ => none

/-- The dispatcher once its block or error packet is received. -/
def dispSent (s : AsyncReader) : AsyncReader :=
  match s.disp with
  | .sendOut _ => { s with disp := .acquire, curIdx := s.curIdx + 1 }
  | .sendIn _ => { s with disp := .acquire, curIdx := s.curIdx + 1 }
  | _ => { s with disp := .done }

/-- What the dispatcher offers on `outChan`. -/
def offered (s : AsyncReader) : Option OutBlk :=
  match s.disp with
  | .sendOut b => some b
  | .sendErr b => some b
  | _ => none

/-- One step, if it is enabled. -/
def step (c : ReaderCfg) (s : AsyncReader) : Act → Option AsyncReader
  | .acquire =>
      if s.disp = .acquire ∧ s.sem < c.nPending then
        some { s with sem := s.sem + 1, disp := .read }
      else none
  | .read => if s.disp = .read then some s.readStep else none
  | .dispFin => if s.fin then s.dispFinStep else none
  | .closeIn =>
      match s.disp with
      | .closeIn err => some { s with inClosed := true, disp := .closeSem err }
      | _ => none
  | .closeSem =>
      match s.disp with
      | .closeSem err =>
          some { s with
            semClosed := true
            disp := err.elim .done (fun e => .sendErr ⟨some e, s.curIdx, 0, none⟩) }
      | _ => none
  | .sendIn i =>
      match s.disp, s.workers[i]? with
      | .sendIn b, some .recv =>
          some { s.dispSent with workers := s.workers.set i (.work b) }
      | _, _ => none
  | .sendOut =>
      match s.offered with
      | some b => if s.cons = .recv then some (s.dispSent.receive b) else none
      | none => none
  | .work i =>
      match s.workers[i]? with
      | some (.work b) => some (s.workStep c i b)
      | _ => none
  | .workerOut i =>
      match s.workers[i]? with
      | some (.send b) =>
          if s.cons = .recv then
            some (({ s with workers := s.workers.set i .recv } : AsyncReader).receive b)
          else none
      | _ => none
  | .workerFin i =>
      match s.workers[i]? with
      | some (.send b) =>
          if s.fin then
            some { s.giveBack b.blk.toList with workers := s.workers.set i .done }
          else none
      | _ => none
  | .workerExit i =>
      match s.workers[i]? with
      | some .recv =>
          if s.inClosed then some { s with workers := s.workers.set i .done } else none
      | _ => none
  | .hash =>
      match s.hasher with
      | some ⟨b :: q, h, closed, exited⟩ =>
          some { s.giveBack [b] with hasher := some ⟨q, h.write b.data, closed, exited⟩ }
      | _ => none
  | .hashExit =>
      match s.hasher with
      | some ⟨[], h, true, false⟩ => some { s with hasher := some ⟨[], h, true, true⟩ }
      | _ => none
  | .call =>
      if s.cons = .idle then
        match s.held, s.hasher with
        -- the block returned last is given back now, or by the hasher
        | none, _ => some { s with cons := .check }
        | some b, none => some { s.giveBack [b] with held := none, cons := .check }
        | some b, some _ => some { s with held := none, cons := .queue b }
      else none
  | .queue =>
      match s.cons, s.hasher with
      | .queue b, some h =>
          if h.q.length < c.hashCap ∧ h.closed = false then
            some { s with hasher := some { h with q := h.q ++ [b] }, cons := .check }
          else none
      | _, _ => none
  | .check =>
      if s.cons = .check then
        match s.pending.find? (fun b => b.idx = s.nextIdx) with
        | some b =>
            some { s with
              cons := .release b
              pending := s.pending.filter (fun b => b.idx ≠ s.nextIdx) }
        | none => some { s with cons := .recv }
      else none
  | .release =>
      match s.cons with
      | .release b =>
          -- a closed channel can be received from
          if 0 < s.sem ∨ s.semClosed then
            let s := { s with sem := s.sem - 1, nextIdx := s.nextIdx + 1 }
            if b.err = some (.const .endMark) ∧ s.hasher.isSome then
              some { s with cons := .hashDone b }
            else some (s.finish b b.err)
          else none
      | _ => none
  | .hashDone =>
      match s.cons, s.hasher with
      | .hashDone b, some h => some { s with hasher := some { h with closed := true },
                                             cons := .hashWait b }
      | _, _ => none
  | .hashWait =>
      match s.cons, s.hasher with
      | .hashWait b, some h =>
          if h.exited then
            some (s.finish b (b.err.map (checkSum (some h.hash) s.fr.srcSum)))
          else none
      | _, _ => none
  | .close => if s.cons = .idle ∨ s.cons = .ended then some { s with fin := true, cons := .wgWait }
      else none
  | .wgWait =>
      if s.cons = .wgWait ∧ ∀ w ∈ s.workers, w = .done then some { s with cons := .drainIn } else none
  | .drainIn =>
      match s.cons, s.disp with
      | .drainIn, .sendIn b => some (s.dispSent.giveBack [b.blk])
      | _, _ => none
  | .drainInDone =>
      if s.cons = .drainIn ∧ s.inClosed then some { s with cons := .drainOut } else none
  | .drainOut =>
      match s.cons, s.offered with
      | .drainOut, some b => some (s.dispSent.giveBack b.blk.toList)
      | _, _ => none
  | .drainOutDone =>
      if s.cons = .drainOut then
        some { s.giveBack (s.pending.flatMap (fun b => b.blk.toList)) with
          pending := []
          cons := if s.hasher.isSome then .hashDoneC else .closed }
      else none
  | .closeHash =>
      match s.cons, s.hasher with
      | .hashDoneC, some h =>
          -- `NextBlock` has called `Done` at the end mark
          if h.closed then some { s with cons := .closed }
          else some { s with hasher := some { h with closed := true }, cons := .hashWaitC }
      | _, _ => none
  | .closeWait =>
      match s.cons, s.hasher with
      | .hashWaitC, some h => if h.exited then some { s with cons := .closed } else none
      | _, _ => none

end AsyncReader

end Plz4
