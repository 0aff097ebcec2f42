/-
What one step of the asynchronous writer can do, guards included. The invariants are
proved over `Step`; none of them looks at `step` again.

The steps in which only the caller moves, and touches nothing the other threads see, are
`Local`: most invariants need of them no more than `Local.quiet`.
-/
import Plz4.AsyncWriter

set_option autoImplicit false

namespace Plz4

namespace AsyncWriter

variable {Z : Clz4}

/-! ## The caller on its own -/

/-- The caller is at a `reportError` whose result it returns, with this count. -/
inductive Reports (s : AsyncWriter Z) : ℕ → Prop
  | write {src : Bytes} {n : ℕ} (hcaller : s.caller = .write src n) (h : src = [] ∨ s.err ≠ none) :
      Reports s n
  | readFrom {r : Rd} {n : ℕ} (hcaller : s.caller = .readFrom r n) (h : s.err ≠ none) : Reports s n
  | report {n : ℕ} (hcaller : s.caller = .report n) : Reports s n
  | flushEnd (hcaller : s.caller = .flushEnd) : Reports s 0
  | flush {rest : List WCall} (hcaller : s.caller = .idle) (hscript : s.script = .flush :: rest)
      (h : s.err ≠ none) : Reports s 0
  | close {rest : List WCall} (hcaller : s.caller = .idle) (hscript : s.script = .close :: rest)
      (h : s.srcBlk = none) : Reports s 0

/-- A step of the caller alone: where it is afterwards, the calls it has still to make,
the block buffer, the report flag, the results and the log of source errors. -/
inductive Local (c : WriterCfg) (s : AsyncWriter Z) :
    Caller → List WCall → Option Blk → Bool → List CallRes → List Err → Prop
  | report {n : ℕ} (h : Reports s n) :
      Local c s .idle s.script.tail s.srcBlk (s.report || s.err.isSome) (s.results ++ [⟨n, s.err⟩])
        s.srcErrs
  | write {src : Bytes} {rest : List WCall} (hcaller : s.caller = .idle)
      (hscript : s.script = .write src :: rest) :
      Local c s (.write src 0) s.script s.srcBlk s.report s.results s.srcErrs
  | readFrom {r : Rd} {rest : List WCall} (hcaller : s.caller = .idle)
      (hscript : s.script = .readFrom r :: rest) :
      Local c s (.readFrom r 0) s.script s.srcBlk s.report s.results s.srcErrs
  | flushBlk {rest : List WCall} (hcaller : s.caller = .idle) (hscript : s.script = .flush :: rest)
      (herr : s.err = none) (hcur : s.cur ≠ []) :
      Local c s (s.flushAt .flush) s.script s.srcBlk s.report s.results s.srcErrs
  | flushNone {rest : List WCall} (hcaller : s.caller = .idle) (hscript : s.script = .flush :: rest)
      (herr : s.err = none) (hcur : s.cur = []) (hidx : s.srcIdx = 0) :
      Local c s .idle s.script.tail s.srcBlk s.report (s.results ++ [⟨0, none⟩]) s.srcErrs
  | flushSyn {rest : List WCall} (hcaller : s.caller = .idle) (hscript : s.script = .flush :: rest)
      (herr : s.err = none) (hcur : s.cur = []) (hidx : s.srcIdx ≠ 0) :
      Local c s .synSend s.script s.srcBlk s.report s.results s.srcErrs
  | closeBlk {rest : List WCall} (hcaller : s.caller = .idle) (hscript : s.script = .close :: rest)
      (hblk : s.srcBlk ≠ none) (hcur : s.cur ≠ []) :
      Local c s (s.flushAt .close) s.script s.srcBlk s.report s.results s.srcErrs
  | close {rest : List WCall} (hcaller : s.caller = .idle) (hscript : s.script = .close :: rest)
      (hblk : s.srcBlk ≠ none) (hcur : s.cur = []) :
      Local c s .closeSem s.script s.srcBlk s.report s.results s.srcErrs
  | writeFull {src : Bytes} {n k : ℕ} (hcaller : s.caller = .write src n) (hsrc : src ≠ [])
      (herr : s.err = none) (hk : k = min (c.opts.bsz - s.cur.length) src.length)
      (hfull : s.cur.length + k = c.opts.bsz) :
      Local c s (s.flushAt (.write (src.drop k) (n + k))) s.script (s.fill (src.take k)) s.report
        s.results s.srcErrs
  | writeMore {src : Bytes} {n k : ℕ} (hcaller : s.caller = .write src n) (hsrc : src ≠ [])
      (herr : s.err = none) (hk : k = min (c.opts.bsz - s.cur.length) src.length)
      (hfull : s.cur.length + k ≠ c.opts.bsz) :
      Local c s (.write (src.drop k) (n + k)) s.script (s.fill (src.take k)) s.report s.results
        s.srcErrs
  | readFull {r r' : Rd} {n : ℕ} {d : Bytes} (hcaller : s.caller = .readFrom r n)
      (herr : s.err = none) (hread : r.readFull (c.opts.bsz - s.cur.length) = (d, none, r')) :
      Local c s (s.flushAt (.readFrom r' (n + d.length))) s.script (s.fill d) s.report s.results
        s.srcErrs
  | readShort {r r' : Rd} {n : ℕ} {d : Bytes} (hcaller : s.caller = .readFrom r n)
      (herr : s.err = none)
      (hread : r.readFull (c.opts.bsz - s.cur.length) = (d, some .unexpectedEOF, r')) :
      Local c s (.readFrom r' (n + d.length)) s.script (s.fill d) s.report s.results s.srcErrs
  | readEof {r r' : Rd} {n : ℕ} {d : Bytes} (hcaller : s.caller = .readFrom r n)
      (herr : s.err = none)
      (hread : r.readFull (c.opts.bsz - s.cur.length) = (d, some .eof, r')) :
      Local c s (.report (n + d.length)) s.script (s.fill d) s.report s.results s.srcErrs
  | readFail {r r' : Rd} {n : ℕ} {d : Bytes} {e : Err} (hcaller : s.caller = .readFrom r n)
      (herr : s.err = none) (he : e ≠ .unexpectedEOF ∧ e ≠ .eof)
      (hread : r.readFull (c.opts.bsz - s.cur.length) = (d, some e, r')) :
      Local c s (.readErr e (n + d.length)) s.script (s.fill d) s.report s.results
        (s.srcErrs ++ [e])

/-! ## All steps -/

/-- The steps, one constructor for each branch a thread can take. -/
inductive Step (c : WriterCfg) (s : AsyncWriter Z) : Act → AsyncWriter Z → Prop
  -- the caller
  | loc {x : Caller} {script : List WCall} {b : Option Blk} {rep : Bool} {rs : List CallRes}
      {es : List Err} (h : Local c s x script b rep rs es) :
      Step c s .caller { s with
        caller := x, script := script, srcBlk := b, report := rep, results := rs, srcErrs := es }
  | readErr {e : Err} {n : ℕ} (hcaller : s.caller = .readErr e n) :
      Step c s .caller { s with err := s.err.or (some e), caller := .report n }
  | queue {k : Then} {b : Blk} {h : HasherIdx} (hcaller : s.caller = .queue k)
      (hblk : s.srcBlk = some b) (hh : s.hasher = some h) (hlen : h.q.length < c.opts.nParallel)
      (hcl : h.closed = false) :
      Step c s .caller { s with
        hasher := some { h with q := h.q ++ [.queue b] }, caller := .acquire k }
  | acquire {k : Then} (hcaller : s.caller = .acquire k) (hsem : s.sem < c.opts.calcPending)
      (hcl : s.semClosed = false) :
      Step c s .caller { s with sem := s.sem + 1, caller := .sendIn k }
  | closeSem (hcaller : s.caller = .closeSem) :
      Step c s .caller { s with semClosed := true, caller := .closeIn }
  | closeIn (hcaller : s.caller = .closeIn) :
      Step c s .caller { s with inClosed := true, caller := .wgWait }
  | wgWait (hcaller : s.caller = .wgWait) (hall : ∀ t ∈ s.tasks, t.loc = .done) :
      Step c s .caller { s with outClosed := true, caller := .synJoin }
  | recvClosed (hcaller : s.caller = .synWait) (hsyn : s.synClosed = true) :
      Step c s .caller { s with caller := .flushEnd }
  | join (hcaller : s.caller = .synJoin) (hsyn : s.synClosed = true) :
      Step c s .caller s.closeEnd
  | sendIn {i : ℕ} {k : Then} {b : Blk} {t : Task Z} (hcaller : s.caller = .sendIn k)
      (hblk : s.srcBlk = some b) (hi : s.tasks[i]? = some t) (hloc : t.loc = .recv)
      (hcl : s.inClosed = false) :
      Step c s (.sendIn i) (s.sendInStep c i t b k)
  -- the tasks
  | exit {i : ℕ} {t : Task Z} (hi : s.tasks[i]? = some t) (hloc : t.loc = .recv)
      (hcl : s.inClosed = true) :
      Step c s (.task i) { s with tasks := s.tasks.set i { t with loc := .done } }
  | skip {i : ℕ} {t : Task Z} {b : InBlkW} (hi : s.tasks[i]? = some t) (hloc : t.loc = .check b)
      (herr : s.err ≠ none) :
      Step c s (.task i) { s with tasks := s.tasks.set i { t with loc := .free b none } }
  | compress {i : ℕ} {t : Task Z} {b : InBlkW} {ret : Except Err Bytes} {cmp : Compressor Z}
      (hi : s.tasks[i]? = some t) (hloc : t.loc = .check b) (herr : s.err = none)
      (hret : compressToBlk b.blk.data t.cmp c.opts.bsz c.opts.blockChecksum (b.dict.map Blk.data)
        = (ret, cmp)) :
      Step c s (.task i) { s with
        tasks := s.tasks.set i ⟨.free b (some (outOf b s.borrowed ret)), cmp⟩
        encodes := s.encodes ++ [⟨b.idx, b.dict.map Blk.data, ret⟩]
        borrowed := s.borrowed + 1
        returned := s.returned ++ if ret.isOk then [] else [s.borrowed] }
  | freeAsk {i : ℕ} {t : Task Z} {b : InBlkW} {out : Option OutBlk} {h : HasherIdx}
      (hi : s.tasks[i]? = some t) (hloc : t.loc = .free b out) (hh : s.hasher = some h)
      (hnext : h.next ≤ b.idx) :
      Step c s (.task i) { s with
        tasks := s.tasks.set i { t with loc := .freeSend b out }
        returned := s.returned ++ ids b.dict }
  | freeNow {i : ℕ} {t : Task Z} {b : InBlkW} {out : Option OutBlk}
      (hi : s.tasks[i]? = some t) (hloc : t.loc = .free b out)
      (hnext : ∀ h, s.hasher = some h → b.idx < h.next) :
      Step c s (.task i) { s with
        tasks := s.tasks.set i { t with loc := afterFree b out }
        returned := s.returned ++ ids b.dict ++ [b.blk.id] }
  | freeSend {i : ℕ} {t : Task Z} {b : InBlkW} {out : Option OutBlk} {h : HasherIdx}
      (hi : s.tasks[i]? = some t) (hloc : t.loc = .freeSend b out) (hh : s.hasher = some h)
      (hlen : h.q.length < c.opts.nParallel) (hcl : h.closed = false) :
      Step c s (.task i) { s with
        hasher := some { h with q := h.q ++ [.free b.blk] }
        tasks := s.tasks.set i { t with loc := afterFree b out } }
  | release {i idx : ℕ} {t : Task Z} (hi : s.tasks[i]? = some t) (hloc : t.loc = .release idx)
      (hsem : 0 < s.sem ∨ s.semClosed = true) :
      Step c s (.task i) { s with
        sem := s.sem - 1
        released := s.released ++ [idx]
        tasks := s.tasks.set i { t with loc := .recv } }
  -- the hasher
  | hashBump {h : HasherIdx} (hh : s.hasher = some h) (hbusy : h.busy = true) :
      Step c s .hasher { s with hasher := some { h with next := h.next + 1, busy := false } }
  | hashQueue {h : HasherIdx} {b : Blk} {q : List Ref} (hh : s.hasher = some h)
      (hbusy : h.busy = false) (hq : h.q = .queue b :: q) :
      Step c s .hasher { s with
        hasher := some { h with q := q, hash := h.hash.write b.data, busy := true } }
  | hashFree {h : HasherIdx} {b : Blk} {q : List Ref} (hh : s.hasher = some h)
      (hbusy : h.busy = false) (hq : h.q = .free b :: q) :
      Step c s .hasher { s with
        hasher := some { h with q := q }, returned := s.returned ++ [b.id] }
  | hashExit {h : HasherIdx} (hh : s.hasher = some h) (hbusy : h.busy = false) (hq : h.q = [])
      (hcl : h.closed = true) (hex : h.exited = false) :
      Step c s .hasher { s with hasher := some { h with exited := true } }
  -- the write loop, with another thread
  | sendOut {i : ℕ} {t : Task Z} {b : OutBlk} (hi : s.tasks[i]? = some t) (hloc : t.loc = .send b)
      (hloop : s.loop = .select) (hcl : s.outClosed = false) :
      Step c s (.sendOut i) { s with
        tasks := s.tasks.set i { t with loc := .recv }, loop := .got b
        arrived := s.arrived ++ [b] }
  | synSend (hcaller : s.caller = .synSend) (hloop : s.loop = .select)
      (hcl : s.synClosed = false) :
      Step c s .synSend { s with caller := .synWait, loop := .reply, flushIdx := some s.srcIdx }
  | synReply (hcaller : s.caller = .synWait) (hloop : s.loop = .synSend)
      (hcl : s.synClosed = false) :
      Step c s .synReply { s with caller := .flushEnd, loop := .select, flushIdx := none }
  | synReplyJoin (hcaller : s.caller = .synJoin) (hloop : s.loop = .synSend)
      (hcl : s.synClosed = false) :
      Step c s .synReply ({ s with loop := .select, flushIdx := none } : AsyncWriter Z).closeEnd
  -- the write loop
  | header {hdrSz : ℕ} {calls : List WrCall} (hloop : s.loop = .header)
      (hwr : writeHeader c.wr s.calls c.opts = (hdrSz, none, calls)) :
      Step c s .loop { s with loop := .select, calls := calls, dstMark := hdrSz }
  | headerFail {hdrSz : ℕ} {e : Err} {calls : List WrCall} (hloop : s.loop = .header)
      (hwr : writeHeader c.wr s.calls c.opts = (hdrSz, some e, calls)) :
      Step c s .loop { s with loop := .setErr e .select, calls := calls }
  | headerErr {e : Err} (hloop : s.loop = .setErr e .select) :
      Step c s .loop { s with loop := .select, err := s.err.or (some e) }
  | outClosed (hloop : s.loop = .select) (hcl : s.outClosed = true) :
      Step c s .loop { s with loop := .drain }
  | gotDrop {b : OutBlk} (hloop : s.loop = .got b) (herr : s.err ≠ none) :
      Step c s .loop { s with loop := .kick b .drop }
  | gotPark {b : OutBlk} (hloop : s.loop = .got b) (herr : s.err = none)
      (hidx : b.idx ≠ s.nextIdx) :
      Step c s .loop { s with loop := .reply, pending := s.pending ++ [b] }
  | gotErr {b : OutBlk} {e : Err} (hloop : s.loop = .got b) (herr : s.err = none)
      (hidx : b.idx = s.nextIdx) (he : b.err = some e) :
      Step c s .loop { s with loop := .kick b (.err e) }
  | gotWrite {b : OutBlk} (hloop : s.loop = .got b) (herr : s.err = none)
      (hidx : b.idx = s.nextIdx) (he : b.err = none) :
      Step c s .loop { s with loop := .write b }
  | write {b : OutBlk} {blk : Blk} {n : ℕ} {werr : Option Err} {calls : List WrCall}
      (hloop : s.loop = .write b) (hblk : b.blk = some blk)
      (hwr : wrWrite c.wr s.calls blk.data = (n, werr, calls)) :
      Step c s .loop { s with
        loop := .kick b (.wrote werr), calls := calls
        progress := s.progress ++ [(s.srcMark, s.dstMark)]
        srcMark := s.srcMark + b.srcSz, dstMark := s.dstMark + n }
  | crash {b : OutBlk} (hloop : s.loop = .write b) (hblk : b.blk = none) :
      Step c s .loop { s with loop := .crashed b }
  | kickDrop {b : OutBlk} (hloop : s.loop = .kick b .drop) (hsem : 0 < s.sem ∨ s.semClosed = true) :
      Step c s .loop { s.kickBlock b with loop := .reply }
  | kickErr {b : OutBlk} {e : Err} (hloop : s.loop = .kick b (.err e))
      (hsem : 0 < s.sem ∨ s.semClosed = true) :
      Step c s .loop { s.kickBlock b with loop := .setErr e .reply }
  | kickFail {b : OutBlk} {e : Err} (hloop : s.loop = .kick b (.wrote (some e)))
      (hsem : 0 < s.sem ∨ s.semClosed = true) :
      Step c s .loop { s.kickBlock b with loop := .setErr e .reply, nextIdx := s.nextIdx + 1 }
  | kickNext {b b' : OutBlk} (hloop : s.loop = .kick b (.wrote none))
      (hsem : 0 < s.sem ∨ s.semClosed = true) (hmem : b' ∈ s.pending)
      (hidx : b'.idx = s.nextIdx + 1)
      (hfind : s.pending.find? (fun b => b.idx = s.nextIdx + 1) = some b') :
      Step c s .loop { s.kickBlock b with
        loop := .write b', nextIdx := s.nextIdx + 1
        pending := s.pending.eraseP (fun b => b.idx = s.nextIdx + 1) }
  | kickLast {b : OutBlk} (hloop : s.loop = .kick b (.wrote none))
      (hsem : 0 < s.sem ∨ s.semClosed = true) (hnone : ∀ b' ∈ s.pending, b'.idx ≠ s.nextIdx + 1) :
      Step c s .loop { s.kickBlock b with loop := .reply, nextIdx := s.nextIdx + 1 }
  | setErr {e : Err} (hloop : s.loop = .setErr e .reply) :
      Step c s .loop { s with loop := .reply, err := s.err.or (some e) }
  | reply {f : ℕ} (hloop : s.loop = .reply) (hflush : s.flushIdx = some f)
      (h : f ≤ s.nextIdx ∨ s.err ≠ none) :
      Step c s .loop { s with loop := .synSend }
  | noReply (hloop : s.loop = .reply)
      (h : ∀ f, s.flushIdx = some f → s.nextIdx < f ∧ s.err = none) :
      Step c s .loop { s with loop := .select }
  | drainKick {b : OutBlk} {pending : List OutBlk} (hloop : s.loop = .drain)
      (hpend : s.pending = b :: pending) (hsem : 0 < s.sem ∨ s.semClosed = true) :
      Step c s .loop { s.kickBlock b with pending := pending }
  | drained (hloop : s.loop = .drain) (hpend : s.pending = []) :
      Step c s .loop { s with loop := .finish }
  | finish (hloop : s.loop = .finish) (herr : s.err = none) :
      Step c s .loop { s with
        progress := s.progress ++ [(s.srcMark, s.dstMark)]
        loop := if s.hasher.isSome then .hashDone true else .trailer none }
  | abort (hloop : s.loop = .finish) (herr : s.err ≠ none) :
      Step c s .loop { s with loop := if s.hasher.isSome then .hashDone false else .closeSyn }
  | hashDone {clean : Bool} {h : HasherIdx} (hloop : s.loop = .hashDone clean)
      (hh : s.hasher = some h) :
      Step c s .loop { s with loop := .hashWait clean, hasher := some { h with closed := true } }
  | hashWait {clean : Bool} {h : HasherIdx} (hloop : s.loop = .hashWait clean)
      (hh : s.hasher = some h) (hex : h.exited = true) :
      Step c s .loop { s with
        loop := if clean then .trailer (some h.hash.sum32) else .closeSyn }
  | trailer {xxh : Option UInt32} {n : ℕ} {calls : List WrCall} (hloop : s.loop = .trailer xxh)
      (hwr : wrWrite c.wr s.calls (trailerBytes xxh) = (n, none, calls)) :
      Step c s .loop { s with loop := .closeSyn, calls := calls }
  | trailerFail {xxh : Option UInt32} {n : ℕ} {e : Err} {calls : List WrCall}
      (hloop : s.loop = .trailer xxh)
      (hwr : wrWrite c.wr s.calls (trailerBytes xxh) = (n, some e, calls)) :
      Step c s .loop { s with loop := .setErr e .closeSyn, calls := calls }
  | trailerErr {e : Err} (hloop : s.loop = .setErr e .closeSyn) :
      Step c s .loop { s with loop := .closeSyn, err := s.err.or (some e) }
  | closeSyn (hloop : s.loop = .closeSyn) :
      Step c s .loop { s with loop := .done, synClosed := true }

variable {c : WriterCfg} {s s' : AsyncWriter Z}

/-! ## Every enabled action is one of them -/

/-- A call that begins at `reportError`. -/
theorem reportError_spec {n : ℕ} (h : Reports s n) : Step c s .caller (s.reportError n) :=
  .loc (.report h)

/-- What the entry of a call does. -/
theorem call_spec {call : WCall} {rest : List WCall} (hcaller : s.caller = .idle)
    (hscript : s.script = call :: rest) : Step c s .caller (s.call call) := by
  cases call with
  | write src => exact .loc (.write hcaller hscript)
  | readFrom r => exact .loc (.readFrom hcaller hscript)
  | flush =>
      simp only [AsyncWriter.call]
      split_ifs with herr hcur hidx
      · exact reportError_spec (.flush hcaller hscript (Option.isSome_iff_ne_none.mp herr))
      · exact .loc (.flushBlk hcaller hscript (by simpa using herr) hcur)
      · exact .loc (.flushNone hcaller hscript (by simpa using herr) (not_not.mp hcur) hidx)
      · exact .loc (.flushSyn hcaller hscript (by simpa using herr) (not_not.mp hcur) hidx)
  | close =>
      simp only [AsyncWriter.call]
      split_ifs with hblk hcur
      · exact reportError_spec (.close hcaller hscript (by simpa using hblk))
      · exact .loc (.closeBlk hcaller hscript (by simpa using hblk) hcur)
      · exact .loc (.close hcaller hscript (by simpa using hblk) (not_not.mp hcur))

/-- One pass of the loop of `Write`. -/
theorem writeStep_spec {src : Bytes} {n : ℕ} (hcaller : s.caller = .write src n) :
    Step c s .caller (s.writeStep c src n) := by
  unfold AsyncWriter.writeStep
  by_cases h : src ≠ [] ∧ s.err = none
  · rw [if_pos h]
    simp only
    split_ifs with hfull
    · exact .loc (.writeFull hcaller h.1 h.2 rfl hfull)
    · exact .loc (.writeMore hcaller h.1 h.2 rfl hfull)
  · rw [if_neg h]
    apply reportError_spec
    rw [not_and_or, not_not] at h
    exact .write hcaller h

/-- One pass of the loop of `ReadFrom`. -/
theorem readFromStep_spec {r : Rd} {n : ℕ} (hcaller : s.caller = .readFrom r n) :
    Step c s .caller (s.readFromStep c r n) := by
  unfold AsyncWriter.readFromStep
  by_cases herr : s.err = none
  · rw [if_pos herr]
    rcases hread : r.readFull (c.opts.bsz - s.cur.length) with ⟨d, rerr, r'⟩
    rcases rerr with _ | e
    · exact .loc (.readFull hcaller herr hread)
    · simp only
      split_ifs with hshort heof
      · exact .loc (.readShort hcaller herr (hshort ▸ hread))
      · exact .loc (.readEof hcaller herr (heof ▸ hread))
      · exact .loc (.readFail hcaller herr ⟨hshort, heof⟩ hread)
  · rw [if_neg herr]
    exact reportError_spec (.readFrom hcaller herr)

/-- A message the hasher takes. -/
theorem hashSend_spec {r : Ref} {o : Option HasherIdx} (h : s.hashSend c r = some o) :
    ∃ h, s.hasher = some h ∧ h.q.length < c.opts.nParallel ∧ h.closed = false
      ∧ o = some { h with q := h.q ++ [r] } := by
  unfold AsyncWriter.hashSend at h
  split at h
  · cases h
  · rename_i hh heq
    split_ifs at h with hc
    exact ⟨hh, heq, hc.1, hc.2, (Option.some.inj h).symm⟩

theorem callerStep_spec (h : s.callerStep c = some s') : Step c s .caller s' := by
  unfold AsyncWriter.callerStep at h
  split at h
  · rename_i hcaller
    split at h
    · cases h
    · rename_i hscript
      exact Option.some.inj h ▸ call_spec hcaller hscript
  · rename_i hcaller
    exact Option.some.inj h ▸ writeStep_spec hcaller
  · rename_i hcaller
    exact Option.some.inj h ▸ readFromStep_spec hcaller
  · rename_i hcaller
    exact Option.some.inj h ▸ .readErr hcaller
  · rename_i hcaller
    exact Option.some.inj h ▸ reportError_spec (.report hcaller)
  · rename_i hcaller
    exact Option.some.inj h ▸ reportError_spec (.flushEnd hcaller)
  · rename_i hcaller
    split at h
    · cases h
    · rename_i hblk
      split at h
      · cases h
      · rename_i hsend
        -- the send waits for room in a channel that is open
        obtain ⟨hh, heq, hlen, hcl, rfl⟩ := hashSend_spec hsend
        exact Option.some.inj h ▸ .queue hcaller hblk heq hlen hcl
  · rename_i hcaller
    split_ifs at h with hc
    exact Option.some.inj h ▸ .acquire hcaller hc.1 hc.2
  · rename_i hcaller
    exact Option.some.inj h ▸ .closeSem hcaller
  · rename_i hcaller
    exact Option.some.inj h ▸ .closeIn hcaller
  · rename_i hcaller
    split_ifs at h with hc
    exact Option.some.inj h ▸ .wgWait hcaller hc
  · rename_i hcaller
    split_ifs at h with hc
    rw [recvSyn, hcaller] at h
    exact Option.some.inj h ▸ .recvClosed hcaller hc
  · rename_i hcaller
    split_ifs at h with hc
    rw [recvSyn, hcaller] at h
    exact Option.some.inj h ▸ .join hcaller hc
  · cases h
  · cases h

theorem freeStep_spec {i : ℕ} {t : Task Z} {b : InBlkW} {out : Option OutBlk}
    (hi : s.tasks[i]? = some t) (hloc : t.loc = .free b out) :
    Step c s (.task i) (s.freeStep i t b out) := by
  unfold AsyncWriter.freeStep
  split_ifs with hnext
  · obtain ⟨h, hh, hle⟩ := (Option.any_eq_true _ _).mp hnext
    exact .freeAsk hi hloc hh (of_decide_eq_true hle)
  · refine .freeNow hi hloc (fun h hh => ?_)
    rw [hh, Option.any_some, decide_eq_true_eq] at hnext
    omega

theorem compressStep_spec {i : ℕ} {t : Task Z} {b : InBlkW} (hi : s.tasks[i]? = some t)
    (hloc : t.loc = .check b) (herr : s.err = none) :
    Step c s (.task i) (s.compressStep c i t b) := by
  rcases hret : compressToBlk b.blk.data t.cmp c.opts.bsz c.opts.blockChecksum
    (b.dict.map Blk.data) with ⟨ret, cmp⟩
  simp only [compressStep, hret]
  exact .compress hi hloc herr hret

theorem taskStep_spec {i : ℕ} {t : Task Z} (hi : s.tasks[i]? = some t)
    (h : s.taskStep c i t = some s') : Step c s (.task i) s' := by
  unfold AsyncWriter.taskStep at h
  split at h
  · rename_i hloc
    split_ifs at h with hc
    exact Option.some.inj h ▸ .exit hi hloc hc
  · rename_i hloc
    split_ifs at h with herr
    · exact Option.some.inj h ▸ .skip hi hloc (Option.isSome_iff_ne_none.mp herr)
    · exact Option.some.inj h ▸ compressStep_spec hi hloc (by simpa using herr)
  · rename_i hloc
    exact Option.some.inj h ▸ freeStep_spec hi hloc
  · rename_i hloc
    split at h
    · cases h
    · rename_i hsend
      obtain ⟨hh, heq, hlen, hcl, rfl⟩ := hashSend_spec hsend
      exact Option.some.inj h ▸ .freeSend hi hloc heq hlen hcl
  · rename_i hloc
    split_ifs at h with hc
    exact Option.some.inj h ▸ .release hi hloc hc
  · cases h
  · cases h

theorem hasherStep_spec (h : s.hasherStep = some s') : Step c s .hasher s' := by
  unfold AsyncWriter.hasherStep at h
  split at h
  · cases h
  · rename_i hh heq
    by_cases hbusy : hh.busy = true
    · rw [if_pos hbusy] at h
      exact Option.some.inj h ▸ .hashBump heq hbusy
    · rw [if_neg hbusy] at h
      rw [Bool.not_eq_true] at hbusy
      split at h
      · rename_i hq
        exact Option.some.inj h ▸ .hashQueue heq hbusy hq
      · rename_i hq
        exact Option.some.inj h ▸ .hashFree heq hbusy hq
      · rename_i hq
        split_ifs at h with hc
        exact Option.some.inj h ▸ .hashExit heq hbusy hq hc.1 hc.2

theorem gotAt_spec {b : OutBlk} (hloop : s.loop = .got b) : Step c s .loop (s.gotAt b) := by
  unfold AsyncWriter.gotAt
  by_cases herr : s.err = none
  · rw [if_neg (by rw [herr]; exact Bool.false_ne_true)]
    by_cases hidx : b.idx = s.nextIdx
    · rw [if_neg (not_not.mpr hidx)]
      rcases he : b.err with _ | e
      · exact .gotWrite hloop herr hidx he
      · exact .gotErr hloop herr hidx he
    · rw [if_pos hidx]
      exact .gotPark hloop herr hidx
  · rw [if_pos (Option.isSome_iff_ne_none.mpr herr)]
    exact .gotDrop hloop herr

theorem kicked_spec {b : OutBlk} {k : Kick} (hloop : s.loop = .kick b k)
    (hsem : 0 < s.sem ∨ s.semClosed = true) : Step c s .loop ((s.kickBlock b).kicked k) := by
  rcases k with _ | e | werr
  · exact .kickDrop hloop hsem
  · exact .kickErr hloop hsem
  · rcases werr with _ | e
    · simp only [AsyncWriter.kicked, AsyncWriter.nextPending]
      split
      · rename_i b' hfind
        have hidx := List.find?_some hfind
        exact .kickNext hloop hsem (List.mem_of_find?_eq_some hfind) (of_decide_eq_true hidx) hfind
      · rename_i hnone
        refine .kickLast hloop hsem (fun b' hb' hidx => ?_)
        exact List.find?_eq_none.mp hnone b' hb' (decide_eq_true hidx)
    · exact .kickFail hloop hsem

theorem replyStep_spec (hloop : s.loop = .reply) : Step c s .loop s.replyStep := by
  unfold AsyncWriter.replyStep
  split_ifs with h
  · obtain ⟨f, hflush, hf⟩ := (Option.any_eq_true _ _).mp h
    rw [Bool.or_eq_true, decide_eq_true_eq, Option.isSome_iff_ne_none] at hf
    exact .reply hloop hflush hf
  · refine .noReply hloop (fun f hflush => ?_)
    rw [hflush, Option.any_some, Bool.or_eq_true, decide_eq_true_eq, Option.isSome_iff_ne_none,
      not_or, not_not, not_le] at h
    exact h

theorem finishStep_spec (hloop : s.loop = .finish) : Step c s .loop s.finishStep := by
  unfold AsyncWriter.finishStep
  by_cases herr : s.err = none
  · rw [if_pos (by rw [herr]; rfl)]
    exact .finish hloop herr
  · rw [if_neg (by simpa using herr)]
    exact .abort hloop herr

theorem headerStep_spec (hloop : s.loop = .header) : Step c s .loop (s.headerStep c) := by
  rcases hwr : writeHeader c.wr s.calls c.opts with ⟨hdrSz, _ | e, calls⟩
  · simp only [headerStep, hwr]
    exact .header hloop hwr
  · simp only [headerStep, hwr]
    exact .headerFail hloop hwr

theorem writeBlk_spec {b : OutBlk} (hloop : s.loop = .write b) :
    Step c s .loop (s.writeBlk c b) := by
  unfold AsyncWriter.writeBlk
  rcases hblk : b.blk with _ | blk
  · exact .crash hloop hblk
  · exact .write hloop hblk rfl

theorem trailerStep_spec {xxh : Option UInt32} (hloop : s.loop = .trailer xxh) :
    Step c s .loop (s.trailerStep c xxh) := by
  rcases hwr : wrWrite c.wr s.calls (trailerBytes xxh) with ⟨n, _ | e, calls⟩
  · simp only [trailerStep, hwr]
    exact .trailer hloop hwr
  · simp only [trailerStep, hwr]
    exact .trailerFail hloop hwr

theorem setErrStep_spec {e : Err} {k : LoopThen} (hloop : s.loop = .setErr e k) :
    Step c s .loop (s.setErrStep e k) := by
  cases k with
  | select => exact .headerErr hloop
  | reply => exact .setErr hloop
  | closeSyn => exact .trailerErr hloop

theorem loopStep_spec (h : s.loopStep c = some s') : Step c s .loop s' := by
  unfold AsyncWriter.loopStep at h
  split at h
  · rename_i hloop
    exact Option.some.inj h ▸ headerStep_spec hloop
  · rename_i hloop
    split_ifs at h with hc
    exact Option.some.inj h ▸ .outClosed hloop hc
  · rename_i hloop
    exact Option.some.inj h ▸ gotAt_spec hloop
  · rename_i hloop
    exact Option.some.inj h ▸ writeBlk_spec hloop
  · rename_i hloop
    split_ifs at h with hsem
    exact Option.some.inj h ▸ kicked_spec hloop hsem
  · rename_i hloop
    exact Option.some.inj h ▸ setErrStep_spec hloop
  · rename_i hloop
    exact Option.some.inj h ▸ replyStep_spec hloop
  · rename_i hloop
    split at h
    · rename_i hpend
      exact Option.some.inj h ▸ .drained hloop hpend
    · rename_i hpend
      split_ifs at h with hsem
      exact Option.some.inj h ▸ .drainKick hloop hpend hsem
  · rename_i hloop
    exact Option.some.inj h ▸ finishStep_spec hloop
  · rename_i hloop
    split at h
    · rename_i hh
      exact Option.some.inj h ▸ .hashDone hloop hh
    · cases h
  · rename_i hloop
    split at h
    · rename_i h' hh
      -- `Done` waits for the hasher
      by_cases hex : h'.exited = true
      · rw [if_pos hex] at h
        exact Option.some.inj h ▸ .hashWait hloop hh hex
      · rw [if_neg hex] at h
        cases h
    · cases h
  · rename_i hloop
    exact Option.some.inj h ▸ trailerStep_spec hloop
  · rename_i hloop
    exact Option.some.inj h ▸ .closeSyn hloop
  · cases h
  · cases h
  · cases h

/-- **Inversion.** What an enabled action does. -/
theorem step_spec {a : Act} (h : step c s a = some s') : Step c s a s' := by
  cases a with
  | caller => exact callerStep_spec h
  | task i =>
      simp only [AsyncWriter.step] at h
      split at h
      · rename_i hi
        exact taskStep_spec hi h
      · cases h
  | hasher => exact hasherStep_spec h
  | loop => exact loopStep_spec h
  | sendIn i =>
      simp only [AsyncWriter.step] at h
      split at h
      · rename_i hcaller hblk hi
        split_ifs at h with hc
        exact Option.some.inj h ▸ .sendIn hcaller hblk hi hc.1 hc.2
      · cases h
  | sendOut i =>
      simp only [AsyncWriter.step] at h
      split at h
      · rename_i b cmp hi
        split_ifs at h with hc
        exact Option.some.inj h ▸ Step.sendOut (t := ⟨.send b, cmp⟩) hi rfl hc.1 hc.2
      · cases h
  | synSend =>
      simp only [AsyncWriter.step] at h
      split_ifs at h with hc
      exact Option.some.inj h ▸ .synSend hc.1 hc.2.1 hc.2.2
  | synReply =>
      simp only [AsyncWriter.step] at h
      split_ifs at h with hc
      unfold AsyncWriter.recvSyn at h
      split at h
      · rename_i hcaller
        exact Option.some.inj h ▸ .synReply hcaller hc.1 hc.2
      · rename_i hcaller
        exact Option.some.inj h ▸ .synReplyJoin hcaller hc.1 hc.2
      · cases h

/-! ## A block on its way -/

/-- A block that fills up in `Write` is with a waiting task three steps later. -/
theorem run_hand {p q : Bytes} {n k i : ℕ} {cmp : Compressor Z}
    (hcaller : s.caller = .write (p ++ q) n) (herr : s.err = none) (hblk : s.srcBlk = some ⟨k, []⟩)
    (hhash : s.hasher = none) (hp : p.length = c.opts.bsz) (hsem : s.sem < c.opts.calcPending)
    (hopen : s.semClosed = false) (hin : s.inClosed = false)
    (hi : s.tasks[i]? = some ⟨.recv, cmp⟩) :
    Machine.run (step c) s [.caller, .caller, .sendIn i]
      = some (({ s with
          srcBlk := some ⟨k, p⟩
          sem := s.sem + 1
          caller := .sendIn (.write q (n + c.opts.bsz)) } : AsyncWriter Z).sendInStep c i
            ⟨.recv, cmp⟩ ⟨k, p⟩ (.write q (n + c.opts.bsz))) := by
  have hbsz := c.opts.bsz_pos
  have hne : p ++ q ≠ [] := by
    intro hnil
    have hlen := congrArg List.length hnil
    rw [List.length_append, List.length_nil] at hlen
    omega
  have hcur : s.cur = [] := by rw [cur, hblk]; rfl
  have hmin : min (c.opts.bsz - 0) (p ++ q).length = p.length := by
    rw [List.length_append]
    omega
  have hwrite : step c s .caller = some { s with
      srcBlk := some ⟨k, p⟩
      caller := .acquire (.write q (n + c.opts.bsz)) } := by
    simp only [step, callerStep, hcaller, writeStep, herr, hcur, List.length_nil, hmin]
    rw [if_pos ⟨hne, trivial⟩, if_pos (by omega)]
    simp only [fill, hblk, flushAt, hhash, Option.map_some, List.nil_append, List.take_left',
      List.drop_left', hp]
    rfl
  rw [Machine.run_cons, hwrite, Option.bind_some]
  simp only [Machine.run_cons, Machine.run_nil, step, callerStep, hsem, hopen, and_self, if_true,
    Option.bind_some, hi, hin]

/-- Where nothing is hashed a task makes its block and frees the source in two steps. -/
theorem run_make {i : ℕ} {b : InBlkW} {p : Bytes} {dict : Option Bytes} {cmp cmp' : Compressor Z}
    {ret : Except Err Bytes}
    (hret : compressToBlk p cmp c.opts.bsz c.opts.blockChecksum dict = (ret, cmp'))
    (hi : s.tasks[i]? = some ⟨.check b, cmp⟩) (hp : b.blk.data = p)
    (hdict : b.dict.map Blk.data = dict) (herr : s.err = none) (hhash : s.hasher = none) :
    Machine.run (step c) s [.task i, .task i]
      = some { s with
          tasks := s.tasks.set i ⟨.send (outOf b s.borrowed ret), cmp'⟩
          encodes := s.encodes ++ [⟨b.idx, dict, ret⟩]
          borrowed := s.borrowed + 1
          returned := s.returned ++ (if ret.isOk then [] else [s.borrowed]) ++ ids b.dict
            ++ [b.blk.id] } := by
  have hlen : i < s.tasks.length := (List.getElem?_eq_some_iff.mp hi).1
  simp only [Machine.run_cons, Machine.run_nil, step, hi, taskStep, herr, Option.isSome_none,
    Bool.false_eq_true, if_false, Option.bind_some, compressStep, hp, hdict, hret,
    List.getElem?_set_self hlen, freeStep, hhash, Option.any_none, afterFree, List.set_set]

end AsyncWriter

end Plz4
