/-
The asynchronous writer (`internal/pkg/async/writer.go`, `AsyncHashIdx` of `hash.go`)
as a machine.

Its threads are the caller, the compress tasks, the hasher and the write loop. An
action moves one thread, or two that meet at an unbuffered channel, so a list of
actions is one interleaving. A thread has a step for each access to something shared:
a channel, the error state, the hasher's counter; what it does on its own in between
goes with one of them. Blocks carry the number of their borrow from the pool;
`returned` logs the numbers given back. The machine also logs the blocks handed to the
tasks, what became of each, the order in which they reached the write loop, which
block's token was released when, and the errors that sources gave to `ReadFrom`.
-/
import Plz4.AsyncReader
import Plz4.Calls

set_option autoImplicit false

namespace Plz4

open Xxh32

/-! ## States -/

/-- `inBlkT` on the writing side. -/
structure InBlkW where
  idx : ℕ
  blk : Blk
  dict : Option Blk
  deriving DecidableEq, Repr

/-- What the caller goes on with after `_flushBlk`. -/
inductive Then
  | write (src : Bytes) (n : ℕ)
  | readFrom (r : Rd) (n : ℕ)
  | flush
  | close
  deriving DecidableEq, Repr

/-- Where the caller is. -/
inductive Caller
  /-- between two calls -/
  | idle
  /-- at the head of the loop of `Write`, `n` bytes consumed -/
  | write (src : Bytes) (n : ℕ)
  /-- at the head of the loop of `ReadFrom` -/
  | readFrom (r : Rd) (n : ℕ)
  /-- before the `setError` of `ReadFrom` -/
  | readErr (e : Err) (n : ℕ)
  /-- at the `reportError` that ends `ReadFrom` -/
  | report (n : ℕ)
  /-- in `hasher.Queue` -/
  | queue (k : Then)
  /-- acquiring the semaphore -/
  | acquire (k : Then)
  /-- sending the block to a task -/
  | sendIn (k : Then)
  /-- in `Flush`, sending `srcIdx` -/
  | synSend
  /-- in `Flush`, waiting for the response -/
  | synWait
  /-- at the `reportError` that ends `Flush` -/
  | flushEnd
  /-- in `Close`, before `close(w.semChan)` -/
  | closeSem
  /-- before `close(w.inChan)` -/
  | closeIn
  /-- at `w.wg.Wait()`, before `close(w.outChan)` -/
  | wgWait
  /-- waiting for the write loop to exit -/
  | synJoin
  deriving DecidableEq, Repr

/-- Where a compress task is. `out` is what it sends to the write loop once the source
block is free; a task that drops its block in the error state has none. -/
inductive TaskAt
  | recv
  /-- at the check for the error state -/
  | check (b : InBlkW)
  /-- in `freeSrcBlk` -/
  | free (b : InBlkW) (out : Option OutBlk)
  /-- sending the source block to the hasher -/
  | freeSend (b : InBlkW) (out : Option OutBlk)
  /-- at `<-w.semChan`, block `idx` dropped -/
  | release (idx : ℕ)
  | send (out : OutBlk)
  | done
  deriving DecidableEq, Repr

/-- A compress task with its compressor. -/
structure Task (Z : Clz4) where
  loc : TaskAt
  cmp : Compressor Z

/-- Why the write loop is in `kickBlock`. -/
inductive Kick
  /-- the block is dropped in the error state -/
  | drop
  /-- the block came with an error -/
  | err (e : Err)
  /-- the block is written, with this result -/
  | wrote (werr : Option Err)
  deriving DecidableEq, Repr

/-- Where the write loop goes on after a `setError`. -/
inductive LoopThen
  /-- to its main loop, after the header -/
  | select
  /-- to the check for a pending flush, after a block -/
  | reply
  /-- to the end, after the trailer -/
  | closeSyn
  deriving DecidableEq, Repr

/-- Where the write loop is. -/
inductive Loop
  | header
  | select
  /-- with a block in hand, before `getError` -/
  | got (b : OutBlk)
  | write (b : OutBlk)
  | kick (b : OutBlk) (k : Kick)
  | setErr (e : Err) (k : LoopThen)
  /-- at the check for a pending flush -/
  | reply
  /-- responding to a flush -/
  | synSend
  /-- kicking what is left in the pending map -/
  | drain
  | finish
  /-- in `hasher.Done`, before the channel is closed -/
  | hashDone (clean : Bool)
  /-- in `hasher.Done`, waiting for the hasher -/
  | hashWait (clean : Bool)
  | trailer (xxh : Option UInt32)
  | closeSyn
  | done
  /-- a nil block was dereferenced -/
  | crashed (b : OutBlk)
  deriving DecidableEq, Repr

/-- `blkRef`. -/
inductive Ref
  /-- a block to hash, index -1 -/
  | queue (b : Blk)
  /-- a block to give back -/
  | free (b : Blk)
  deriving DecidableEq, Repr

/-- `AsyncHashIdx`. A block is hashed before `next` is raised; in between the hasher is
`busy`. -/
structure HasherIdx where
  q : List Ref
  hash : XXHZero
  next : ℕ
  busy : Bool
  closed : Bool
  exited : Bool
  deriving DecidableEq

/-- A call of `CompressToBlk`: for which block, with which dictionary, and its result. -/
structure Encode where
  idx : ℕ
  dict : Option Bytes
  ret : Except Err Bytes

/-- `asyncWriterT` with its threads, the calls its caller has still to make, the one it
is in among them, and its logs. `srcBlk` is the part of the block buffer that is filled,
`srcOff` its length. -/
structure AsyncWriter (Z : Clz4) where
  script : List WCall
  caller : Caller
  srcBlk : Option Blk
  srcIdx : ℕ
  dict : Option Blk
  nTasks : ℤ
  report : Bool
  results : List CallRes
  err : Option Err
  sem : ℕ
  semClosed : Bool
  inClosed : Bool
  outClosed : Bool
  synClosed : Bool
  tasks : List (Task Z)
  hasher : Option HasherIdx
  loop : Loop
  nextIdx : ℕ
  flushIdx : Option ℕ
  srcMark : ℕ
  dstMark : ℕ
  pending : List OutBlk
  calls : List WrCall
  progress : List (ℕ × ℕ)
  blks : List Bytes
  encodes : List Encode
  arrived : List OutBlk
  released : List ℕ
  borrowed : ℕ
  returned : List ℕ
  srcErrs : List Err

/-- What does not change: the options and how the destination answers. -/
structure WriterCfg where
  opts : OptsT
  wr : WrPlan

variable {Z : Clz4}

/-- The number of tasks `NewAsyncWriter` starts. A content size from 2^63 on is
negative as an `int`. -/
def initTasks (o : OptsT) : ℤ :=
  match o.contentSz with
  | none => 1
  | some sz =>
      let nTasks := sz.toBitVec.toInt.tdiv o.bsz + 1
      if nTasks > o.nParallel then o.nParallel else nTasks

/-- A task before its first block. -/
def newTask (Z : Clz4) (o : OptsT) : Task Z := ⟨.recv, (o.newCompressorFactory Z).newCompressor⟩

/-- `NewAsyncWriter`, for a caller that is going to make the calls of `script`. -/
def newAsyncWriter (Z : Clz4) (o : OptsT) (script : List WCall) : AsyncWriter Z where
  script := script
  caller := .idle
  srcBlk := some ⟨0, []⟩
  srcIdx := 0
  dict := none
  nTasks := initTasks o
  report := false
  results := []
  err := none
  sem := 0
  semClosed := false
  inClosed := false
  outClosed := false
  synClosed := false
  tasks := List.replicate (initTasks o).toNat (newTask Z o)
  hasher := if o.contentChecksum then some ⟨[], .zero, 0, false, false, false⟩ else none
  loop := .header
  nextIdx := 0
  flushIdx := none
  srcMark := 0
  dstMark := 0
  pending := []
  calls := []
  progress := []
  blks := []
  encodes := []
  arrived := []
  released := []
  borrowed := 1
  returned := []
  srcErrs := []

namespace AsyncWriter

/-! ## Steps -/

/-- Which thread moves, or which two meet. -/
inductive Act
  | caller
  | task (i : ℕ)
  | hasher
  | loop
  /-- the caller hands a block to task `i` -/
  | sendIn (i : ℕ)
  /-- task `i` hands a block to the write loop -/
  | sendOut (i : ℕ)
  /-- `Flush` asks the write loop for a response -/
  | synSend
  /-- the write loop responds -/
  | synReply
  deriving DecidableEq, Repr

/-- The filled part of the block buffer. -/
def cur (s : AsyncWriter Z) : Bytes := (s.srcBlk.map Blk.data).getD []

/-- Bytes copied behind it. -/
def fill (s : AsyncWriter Z) (d : Bytes) : Option Blk :=
  s.srcBlk.map (fun b => { b with data := b.data ++ d })

/-- The borrow numbers of a block that is given back. -/
def ids (b : Option Blk) : List ℕ := b.toList.map Blk.id

/-! ### The caller -/

/-- The entry of `_flushBlk`. -/
def flushAt (s : AsyncWriter Z) (k : Then) : Caller :=
  if s.hasher.isSome then .queue k else .acquire k

/-- Where `_flushBlk` returns to. -/
def resumeAt : Then → Caller
  | .write src n => .write src n
  | .readFrom r n => .readFrom r n
  | .flush => .synSend
  | .close => .closeSem

/-- The call returns. -/
def ret (s : AsyncWriter Z) (r : CallRes) : AsyncWriter Z :=
  { s with caller := .idle, script := s.script.tail, results := s.results ++ [r] }

/-- `reportError`, whose result the call returns. -/
def reportError (s : AsyncWriter Z) (n : ℕ) : AsyncWriter Z :=
  { s.ret ⟨n, s.err⟩ with report := s.report || s.err.isSome }

/-- The entry of a call. -/
def call (s : AsyncWriter Z) : WCall → AsyncWriter Z
  | .write src => { s with caller := .write src 0 }
  | .readFrom r => { s with caller := .readFrom r 0 }
  | .flush =>
      if s.err.isSome then s.reportError 0
      else if s.cur ≠ [] then { s with caller := s.flushAt .flush }
      -- no data has been queued
      else if s.srcIdx = 0 then s.ret ⟨0, none⟩
      else { s with caller := .synSend }
  | .close =>
      -- the block buffer is the sentinel for `Close`
      if s.srcBlk.isNone then s.reportError 0
      else if s.cur ≠ [] then { s with caller := s.flushAt .close }
      else { s with caller := .closeSem }

/-- One pass of the loop of `Write`. -/
def writeStep (c : WriterCfg) (s : AsyncWriter Z) (src : Bytes) (n : ℕ) : AsyncWriter Z :=
  if src ≠ [] ∧ s.err = none then
    let k := min (c.opts.bsz - s.cur.length) src.length
    if s.cur.length + k = c.opts.bsz then
      { s with
        srcBlk := s.fill (src.take k)
        caller := s.flushAt (.write (src.drop k) (n + k)) }
    else { s with srcBlk := s.fill (src.take k), caller := .write (src.drop k) (n + k) }
  else s.reportError n

/-- One pass of the loop of `ReadFrom`. -/
def readFromStep (c : WriterCfg) (s : AsyncWriter Z) (r : Rd) (n : ℕ) : AsyncWriter Z :=
  if s.err = none then
    let (d, rerr, r) := r.readFull (c.opts.bsz - s.cur.length)
    let s := { s with srcBlk := s.fill d }
    match rerr with
    | none => { s with caller := s.flushAt (.readFrom r (n + d.length)) }
    | some e =>
        -- some bytes were read: `io.EOF` is expected on the next pass
        if e = .unexpectedEOF then { s with caller := .readFrom r (n + d.length) }
        -- bytes may be left in the buffer, for a later call
        else if e = .eof then { s with caller := .report (n + d.length) }
        else { s with caller := .readErr e (n + d.length), srcErrs := s.srcErrs ++ [e] }
  else s.reportError n

/-- The end of `Close`. -/
def closeEnd (s : AsyncWriter Z) : AsyncWriter Z :=
  { s.ret ⟨0, if s.report then none else s.err⟩ with
    returned := s.returned ++ ids s.srcBlk ++ ids s.dict
    srcBlk := none
    dict := none
    err := if s.report then s.err else s.err.or (some (.const .errClosed))
    report := true }

/-- The caller receives on `synChan`, a response or that the channel is closed. -/
def recvSyn (s : AsyncWriter Z) : Option (AsyncWriter Z) :=
  match s.caller with
  | .synWait => some { s with caller := .flushEnd }
  | .synJoin => some s.closeEnd
  | _ => none

/-- A message for the hasher, if its channel takes it. -/
def hashSend (c : WriterCfg) (s : AsyncWriter Z) (r : Ref) : Option (Option HasherIdx) :=
  match s.hasher with
  | none => none
  | some h =>
      if h.q.length < c.opts.nParallel ∧ h.closed = false then some (some { h with q := h.q ++ [r] })
      else none

/-- A step of the caller alone. After the `setError` of `ReadFrom` the check at the top
of its loop fails. -/
def callerStep (c : WriterCfg) (s : AsyncWriter Z) : Option (AsyncWriter Z) :=
  match s.caller with
  | .idle =>
      match s.script with
      | [] => none
      | call :: _ => some (s.call call)
  | .write src n => some (s.writeStep c src n)
  | .readFrom r n => some (s.readFromStep c r n)
  | .readErr e n => some { s with err := s.err.or (some e), caller := .report n }
  | .report n => some (s.reportError n)
  | .flushEnd => some (s.reportError 0)
  | .queue k =>
      match s.srcBlk with
      | none => none
      | some b =>
          match s.hashSend c (.queue b) with
          | none => none
          | some h => some { s with hasher := h, caller := .acquire k }
  | .acquire k =>
      if s.sem < c.opts.calcPending ∧ s.semClosed = false then
        some { s with sem := s.sem + 1, caller := .sendIn k }
      else none
  | .closeSem => some { s with semClosed := true, caller := .closeIn }
  | .closeIn => some { s with inClosed := true, caller := .wgWait }
  | .wgWait =>
      if ∀ t ∈ s.tasks, t.loc = .done then some { s with outClosed := true, caller := .synJoin }
      else none
  | .synWait | .synJoin => if s.synClosed then s.recvSyn else none
  | .sendIn _ | .synSend => none

/-- The dictionary block made of a source block by `_genDict`. -/
def nextDict (o : OptsT) (s : AsyncWriter Z) (b : Blk) : Option Blk :=
  if o.blockLinked then some ⟨s.borrowed, b.data.rtake lz4DictSz⟩ else s.dict

/-- The task `_flushBlk` adds, if there is capacity. -/
def spawned (o : OptsT) (s : AsyncWriter Z) : List (Task Z) :=
  if s.nTasks < o.nParallel then [newTask Z o] else []

/-- `_flushBlk` from the send on: task `i` has the block, and the next block is set up. -/
def sendInStep (c : WriterCfg) (s : AsyncWriter Z) (i : ℕ) (t : Task Z) (b : Blk) (k : Then) :
    AsyncWriter Z :=
  let dict := if c.opts.blockLinked then s.dict else none
  let nBorrowed := if c.opts.blockLinked then s.borrowed + 1 else s.borrowed
  { s with
    caller := resumeAt k
    srcBlk := some ⟨nBorrowed, []⟩
    srcIdx := s.srcIdx + 1
    dict := s.nextDict c.opts b
    nTasks := s.nTasks + (s.spawned c.opts).length
    tasks := s.tasks.set i { t with loc := .check ⟨s.srcIdx, b, dict⟩ } ++ s.spawned c.opts
    blks := s.blks ++ [b.data]
    borrowed := nBorrowed + 1 }

/-! ### The tasks -/

/-- What a task does when the source block is free. -/
def afterFree (b : InBlkW) : Option OutBlk → TaskAt
  | none => .release b.idx
  | some out => .send out

/-- What a task sends of a made block. -/
def outOf (b : InBlkW) (id : ℕ) (ret : Except Err Bytes) : OutBlk :=
  match ret with
  | .ok data => ⟨none, b.idx, b.blk.data.length, some ⟨id, data⟩⟩
  | .error e => ⟨some e, b.idx, b.blk.data.length, none⟩

/-- `CompressToBlk` of the source block. On an error the destination block goes back. -/
def compressStep (c : WriterCfg) (s : AsyncWriter Z) (i : ℕ) (t : Task Z) (b : InBlkW) :
    AsyncWriter Z :=
  let dict := b.dict.map Blk.data
  let (ret, cmp) := compressToBlk b.blk.data t.cmp c.opts.bsz c.opts.blockChecksum dict
  { s with
    tasks := s.tasks.set i ⟨.free b (some (outOf b s.borrowed ret)), cmp⟩
    encodes := s.encodes ++ [⟨b.idx, dict, ret⟩]
    borrowed := s.borrowed + 1
    returned := s.returned ++ if ret.isOk then [] else [s.borrowed] }

/-- `freeSrcBlk`: the hasher is only asked if it may still need the block. -/
def freeStep (s : AsyncWriter Z) (i : ℕ) (t : Task Z) (b : InBlkW) (out : Option OutBlk) :
    AsyncWriter Z :=
  if s.hasher.any (fun h => h.next ≤ b.idx) then
    { s with
      tasks := s.tasks.set i { t with loc := .freeSend b out }
      returned := s.returned ++ ids b.dict }
  else
    { s with
      tasks := s.tasks.set i { t with loc := afterFree b out }
      returned := s.returned ++ ids b.dict ++ [b.blk.id] }

/-- A step of task `i` alone. -/
def taskStep (c : WriterCfg) (s : AsyncWriter Z) (i : ℕ) (t : Task Z) : Option (AsyncWriter Z) :=
  match t.loc with
  | .recv => if s.inClosed then some { s with tasks := s.tasks.set i { t with loc := .done } } else none
  | .check b =>
      -- in an error state a block is dropped before it is compressed
      if s.err.isSome then some { s with tasks := s.tasks.set i { t with loc := .free b none } }
      else some (s.compressStep c i t b)
  | .free b out => some (s.freeStep i t b out)
  | .freeSend b out =>
      match s.hashSend c (.free b.blk) with
      | none => none
      | some h => some { s with hasher := h, tasks := s.tasks.set i { t with loc := afterFree b out } }
  | .release idx =>
      -- a closed channel can be received from
      if 0 < s.sem ∨ s.semClosed then
        some { s with
          sem := s.sem - 1
          released := s.released ++ [idx]
          tasks := s.tasks.set i { t with loc := .recv } }
      else none
  | .send _ | .done => none

/-! ### The hasher -/

/-- A step of the hasher. -/
def hasherStep (s : AsyncWriter Z) : Option (AsyncWriter Z) :=
  match s.hasher with
  | none => none
  | some h =>
      if h.busy then some { s with hasher := some { h with next := h.next + 1, busy := false } }
      else match h.q with
        | .queue b :: q =>
            some { s with hasher := some { h with q := q, hash := h.hash.write b.data, busy := true } }
        | .free b :: q =>
            some { s with hasher := some { h with q := q }, returned := s.returned ++ [b.id] }
        | [] =>
            if h.closed ∧ h.exited = false then some { s with hasher := some { h with exited := true } }
            else none

/-! ### The write loop -/

/-- The header. -/
def headerStep (c : WriterCfg) (s : AsyncWriter Z) : AsyncWriter Z :=
  let (hdrSz, herr, calls) := writeHeader c.wr s.calls c.opts
  match herr with
  | some e => { s with loop := .setErr e .select, calls := calls }
  | none => { s with loop := .select, calls := calls, dstMark := hdrSz }

/-- The switch on a received block. -/
def gotAt (s : AsyncWriter Z) (b : OutBlk) : AsyncWriter Z :=
  -- `ReadFrom` may have set an error in the meantime
  if s.err.isSome then { s with loop := .kick b .drop }
  else if b.idx ≠ s.nextIdx then { s with loop := .reply, pending := s.pending ++ [b] }
  else match b.err with
    | some e => { s with loop := .kick b (.err e) }
    | none => { s with loop := .write b }

/-- `wr.Write` of a block and the call of the progress handler. A block without data
is a nil pointer. -/
def writeBlk (c : WriterCfg) (s : AsyncWriter Z) (b : OutBlk) : AsyncWriter Z :=
  match b.blk with
  | none => { s with loop := .crashed b }
  | some blk =>
      let (n, werr, calls) := wrWrite c.wr s.calls blk.data
      { s with
        loop := .kick b (.wrote werr)
        calls := calls
        progress := s.progress ++ [(s.srcMark, s.dstMark)]
        srcMark := s.srcMark + b.srcSz
        dstMark := s.dstMark + n }

/-- After a block is written: the next one from the pending map, if it is there. The
error of a block found there is not looked at. -/
def nextPending (s : AsyncWriter Z) : AsyncWriter Z :=
  match s.pending.find? (fun b => b.idx = s.nextIdx) with
  | some b =>
      { s with loop := .write b, pending := s.pending.eraseP (fun b => b.idx = s.nextIdx) }
  | none => { s with loop := .reply }

/-- After `kickBlock`. -/
def kicked (s : AsyncWriter Z) : Kick → AsyncWriter Z
  | .drop => { s with loop := .reply }
  | .err e => { s with loop := .setErr e .reply }
  | .wrote (some e) => { s with loop := .setErr e .reply, nextIdx := s.nextIdx + 1 }
  | .wrote none => ({ s with nextIdx := s.nextIdx + 1 } : AsyncWriter Z).nextPending

/-- The check for a pending flush. -/
def replyStep (s : AsyncWriter Z) : AsyncWriter Z :=
  if s.flushIdx.any (fun f => f ≤ s.nextIdx || s.err.isSome) then { s with loop := .synSend }
  else { s with loop := .select }

/-- The end of `writeLoop` before the trailer. -/
def finishStep (s : AsyncWriter Z) : AsyncWriter Z :=
  if s.err.isNone then
    { s with
      progress := s.progress ++ [(s.srcMark, s.dstMark)]
      loop := if s.hasher.isSome then .hashDone true else .trailer none }
  -- on an error the hasher is closed down all the same
  else { s with loop := if s.hasher.isSome then .hashDone false else .closeSyn }

/-- The trailer. -/
def trailerStep (c : WriterCfg) (s : AsyncWriter Z) (xxh : Option UInt32) : AsyncWriter Z :=
  let (_, werr, calls) := wrWrite c.wr s.calls (trailerBytes xxh)
  match werr with
  | some e => { s with loop := .setErr e .closeSyn, calls := calls }
  | none => { s with loop := .closeSyn, calls := calls }

/-- `kickBlock`. -/
def kickBlock (s : AsyncWriter Z) (b : OutBlk) : AsyncWriter Z :=
  { s with
    sem := s.sem - 1
    released := s.released ++ [b.idx]
    returned := s.returned ++ ids b.blk }

/-- `setError` in the write loop. -/
def setErrStep (s : AsyncWriter Z) (e : Err) (k : LoopThen) : AsyncWriter Z :=
  let s := { s with err := s.err.or (some e) }
  match k with
  | .select => { s with loop := .select }
  | .reply => { s with loop := .reply }
  | .closeSyn => { s with loop := .closeSyn }

/-- A step of the write loop alone. -/
def loopStep (c : WriterCfg) (s : AsyncWriter Z) : Option (AsyncWriter Z) :=
  match s.loop with
  | .header => some (s.headerStep c)
  | .select => if s.outClosed then some { s with loop := .drain } else none
  | .got b => some (s.gotAt b)
  | .write b => some (s.writeBlk c b)
  | .kick b k =>
      if 0 < s.sem ∨ s.semClosed then some ((s.kickBlock b).kicked k) else none
  | .setErr e k => some (s.setErrStep e k)
  | .reply => some s.replyStep
  | .drain =>
      match s.pending with
      | [] => some { s with loop := .finish }
      | b :: pending =>
          if 0 < s.sem ∨ s.semClosed then some { s.kickBlock b with pending := pending } else none
  | .finish => some s.finishStep
  | .hashDone clean =>
      match s.hasher with
      | some h => some { s with loop := .hashWait clean, hasher := some { h with closed := true } }
      | none => none
  | .hashWait clean =>
      match s.hasher with
      | some h =>
          if h.exited then
            some { s with loop := if clean then .trailer (some h.hash.sum32) else .closeSyn }
          else none
      | none => none
  | .trailer xxh => some (s.trailerStep c xxh)
  | .closeSyn => some { s with loop := .done, synClosed := true }
  | .synSend | .done | .crashed _ => none

/-! ### All together -/

/-- One step, if it is enabled. -/
def step (c : WriterCfg) (s : AsyncWriter Z) : Act → Option (AsyncWriter Z)
  | .caller => s.callerStep c
  | .task i =>
      match s.tasks[i]? with
      | some t => s.taskStep c i t
      | none => none
  | .hasher => s.hasherStep
  | .loop => s.loopStep c
  | .sendIn i =>
      match s.caller, s.srcBlk, s.tasks[i]? with
      | .sendIn k, some b, some t =>
          if t.loc = .recv ∧ s.inClosed = false then some (s.sendInStep c i t b k) else none
      | _, _, _ => none
  | .sendOut i =>
      match s.tasks[i]? with
      | some ⟨.send b, cmp⟩ =>
          if s.loop = .select ∧ s.outClosed = false then
            some { s with
              tasks := s.tasks.set i ⟨.recv, cmp⟩, loop := .got b, arrived := s.arrived ++ [b] }
          else none
      | _ => none
  | .synSend =>
      if s.caller = .synSend ∧ s.loop = .select ∧ s.synClosed = false then
        some { s with caller := .synWait, loop := .reply, flushIdx := some s.srcIdx }
      else none
  | .synReply =>
      if s.loop = .synSend ∧ s.synClosed = false then
        ({ s with loop := .select, flushIdx := none } : AsyncWriter Z).recvSyn
      else none

end AsyncWriter

end Plz4
