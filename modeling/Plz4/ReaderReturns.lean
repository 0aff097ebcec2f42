/-
Every call on a `Reader` returns.

The loops of the reader are written down pass by pass, as they stand in the source and
with no bound. On every finite source they come to an end, in the result of the functions
of `Reader.lean`, and each pass that goes on has taken bytes from the source: four for a
block, four for a frame, eight for a skip frame.
-/
import Plz4.Lib.Loop
import Plz4.BlkLimit
import Plz4.ReaderProgress

set_option autoImplicit false

namespace Plz4

open LittleEndian

variable {Z : Clz4} {S : Sched Z}

/-! ## The passes -/

/-- One pass of the loop of `_readHeader`, with the count so far and the source. -/
def headersPass (cb : Option SkipCallbackT) (s : ℤ × Bytes) : Loop.Pass (ℤ × Bytes) (HdrRes × Bytes) :=
  let (h, src) := readHeader s.2 cb
  let nRead := s.1 + h.nRead
  if h.err = some (.const .endMark) then .next (nRead, src) else .stop ({ h with nRead := nRead }, src)

/-- One read of a block, with the blocks so far and the source. -/
def blocksPass (fr : FrameReader) (s : List FrameT × Bytes) : Loop.Pass (List FrameT × Bytes) Parsed :=
  match fr.read s.2 with
  | ((.ok frame, _), src) => .next (s.1 ++ [frame], src)
  | ((.error e, fr), src) => .stop ⟨s.1, e, fr, src⟩

/-- The variables of `modeBody`: what it has copied, the room left in `dst` and the reader. -/
structure BodyVars where
  out : Bytes
  n : ℕ
  r : Reader

/-- The variables of `_writeTo` and of `WriteTo`: the sum, the calls of the destination
and the reader. -/
structure WriteVars where
  sum : ℕ
  calls : List WrCall
  r : Reader

/-- How a caller's destination answers: `zerr.EndMark` is not exported, so it does not fail
with it. -/
abbrev CallerPlan := { plan : WrPlan // ∀ i k e, plan i = some (k, e) → e ≠ .const .endMark }

namespace Reader

/-- One pass of the loop of `modeBody`. -/
def bodyPass (s : BodyVars) : Loop.Pass BodyVars ((Bytes × Option Err) × Reader) :=
  let bs := s.r.avail.take s.n
  let full := !s.r.avail.isEmpty && bs.length = s.n
  let r := s.r.slide bs.length
  if full then .stop ((s.out ++ bs, none), r)
  else
    match r.blkReader with
    | none => .stop ((s.out ++ bs, none), r)
    | some t =>
        match nextBlock t r with
        | (some e, r) => .stop ((s.out ++ bs, some e), r)
        | (none, r) => .next ⟨s.out ++ bs, s.n - bs.length, r⟩

/-- One pass of the loop of `_writeTo`. -/
def writePass (plan : WrPlan) (s : WriteVars) :
    Loop.Pass WriteVars (((ℕ × Option Err) × List WrCall) × Reader) :=
  let (nWritten, err, calls) :=
    if s.r.avail.isEmpty then (0, none, s.calls) else wrWrite plan s.calls s.r.avail
  let r := s.r.slide nWritten
  match err with
  | some e => .stop (((s.sum + nWritten, some e), calls), r)
  | none =>
      match r.blkReader with
      | none => .stop (((s.sum + nWritten, none), calls), r)
      | some t =>
          match nextBlock t r with
          | (some e, r) => .stop (((s.sum + nWritten, some e), calls), r)
          | (none, r) => .next ⟨s.sum + nWritten, calls, r⟩

/-- One pass of the loop of `WriteTo` in body mode. The condition of the loop is looked at
when the pass is over. -/
def framePass (plan : WrPlan) (s : WriteVars) :
    Loop.Pass WriteVars (((ℕ × Option Err) × List WrCall) × Reader) :=
  let ((n, calls), r) := s.r.writeFrame plan s.calls
  match r.state with
  | some e => .stop (((s.sum + n, some e), calls), r)
  | none => .next ⟨s.sum + n, calls, r⟩

/-- One pass of the loop of `WriteTo`. -/
def writeToPass (S : Sched Z) (plan : WrPlan) (s : WriteVars) :
    Loop.Pass WriteVars (((ℕ × Option Err) × List WrCall) × Reader) :=
  match s.r.state with
  | some e => .stop (((s.sum, some e), s.calls), s.r)
  | none =>
      if s.r.blkReader.isSome then framePass plan s
      else
        let ((nBytes, err), r) := s.r._readHeader S
        let r := { r with srcPos := r.srcPos + nBytes }
        match err with
        | some e =>
            let r := { r with state := if e = .eof then none else some e }
            .stop (((s.sum, r.state), s.calls), r)
        | none => framePass plan { s with r := r }

/-! ## What it is for a call to return -/

/-- The bytes of the source that are not read yet: those of the blocks the block reader has
still to deliver, the four of the end mark at least, and what is after the frame. -/
def left (r : Reader) : ℕ :=
  match r.blkReader with
  | none => r.src.length
  | some t => t.span + 4 + t.rest.length

end Reader

/-- The loop of `_readHeader` over skip frames ends. -/
def HeadersEnd (cb : Option SkipCallbackT) (src : Bytes) : Prop :=
  Loop.Ends (headersPass cb) (fun _ => True) (fun s => s.2.length) 8 (0, src)
    (readHeaders cb (src.length + 1) src)

/-- The reads of a frame body end; so do the threads that share them out, on any schedule. -/
structure BlocksEnd (Z : Clz4) (hdr : HeaderT) (o : OptsT) (src : Bytes) : Prop where
  reads : Loop.Ends (blocksPass (readerFrame hdr)) (fun _ => True) (fun s => s.2.length) 4 ([], src)
    (parseFrames (readerFrame hdr) src)
  threads : 0 < o.nParallel → ∀ as s, .close ∉ as →
    Machine.run (AsyncReader.step (readerCfg Z hdr o)) (newAsyncReader src hdr o) as = some s →
      as.length ≤ 5 * src.length + o.nParallel + 27 ∧
        (s.cons ≠ .ended →
          ∃ a, a ≠ .close ∧ (AsyncReader.step (readerCfg Z hdr o) s a).isSome = true)

namespace Reader

/-- The loop of `modeBody` ends. -/
def BodyEnds (n : ℕ) (r : Reader) : Prop :=
  Loop.Ends bodyPass (fun _ => True) (fun s => s.r.left) 4 ⟨[], n, r⟩ (r.modeBody n)

/-- The loop of `_writeTo` ends. -/
def WriteEnds (plan : WrPlan) (calls : List WrCall) (r : Reader) : Prop :=
  Loop.Ends (writePass plan) (fun _ => True) (fun s => s.r.left) 4 ⟨0, calls, r⟩
    (r._writeTo plan calls)

/-- The reader in body mode, after the header if that is to be read first. -/
def inBody (S : Sched Z) (r : Reader) : Option Reader :=
  if r.blkReader.isSome then some r
  else
    let ((nBytes, err), r) := r._readHeader S
    match err with
    | some _ => none
    | none => some { r with srcPos := r.srcPos + nBytes }

/-- The loops of one pass over a frame end: those of the header and of the block reader it
makes, and the loop over the body. -/
structure LoopsEnd (S : Sched Z) (body : Reader → Prop) (r : Reader) : Prop where
  headers : r.state = none → r.blkReader = none → HeadersEnd r.opts.skipCallback r.src
  blocks : r.state = none → r.blkReader = none →
    ∀ p, openFrame r.seeks r.opts r.src = p → p.err = none → BlocksEnd Z p.hdr p.opts p.src
  body : r.state = none → ∀ r', r.inBody S = some r' → body r'

/-- A `Read` into `n` bytes returns. -/
def ReadReturns (S : Sched Z) (n : ℕ) (r : Reader) : Prop := r.LoopsEnd S (BodyEnds n)

/-- A `WriteTo` returns. -/
def WriteToReturns (S : Sched Z) (plan : WrPlan) (r : Reader) : Prop :=
  Loop.Ends (writeToPass S plan) (fun s => s.r.LoopsEnd S (WriteEnds plan s.calls))
    (fun s => s.r.left) 4 ⟨0, [], r⟩ (r.writeTo S plan)

end Reader

/-! ## Headers and blocks -/

/-- The loop of `_readHeader` in the state of a pass. -/
def headersRun (cb : Option SkipCallbackT) (k : ℕ) (s : ℤ × Bytes) : HdrRes × Bytes :=
  ({ (readHeaders cb k s.2).1 with nRead := s.1 + (readHeaders cb k s.2).1.nRead },
    (readHeaders cb k s.2).2)

theorem headersRun_succ (cb : Option SkipCallbackT) (k : ℕ) (s : ℤ × Bytes) :
    headersRun cb (k + 1) s = (headersPass cb s).resume (headersRun cb k) := by
  simp only [headersRun, headersPass, readHeaders]
  split_ifs
  · simp only [Loop.Pass.resume_next, headersRun, Int.add_assoc]
  · rfl

/-- A skip frame takes eight bytes. -/
theorem readHeader_endMark_length {src : Bytes} {cb : Option SkipCallbackT}
    (h : (readHeader src cb).1.err = some (.const .endMark)) :
    (readHeader src cb).2.length + 8 ≤ src.length := by
  have hread := readFull_count src lz4MinHeaderSz
  have hseven : lz4MinHeaderSz = 7 := rfl
  -- seven bytes are read at first; the last of the size is the eighth
  have hskip : ∀ hdr rest, (maybeSkipFrame rest hdr cb).1.2 = some (.const .endMark) →
      (maybeSkipFrame rest hdr cb).2.length + 1 ≤ rest.length := by
    intro hdr rest hmark
    have hone := readFull_count rest 1
    simp only [maybeSkipFrame] at hmark ⊢
    split_ifs at hmark ⊢
    · simp only [wrapCorrupted, Option.some.injEq, reduceCtorEq] at hmark
    · rcases hr : readFull rest 1 with ⟨⟨b, _ | e⟩, rest'⟩ <;> rw [hr] at hmark hone <;>
        simp only at hmark hone ⊢
      · have hb := readFull_length hr
        have hbody := skipBody_length_le rest' cb (getU32 (hdr.take 4) &&& 0xF).toUInt8
          (getU32 ((hdr ++ b).drop 4))
        split <;> simp only <;> omega
      · simp only [Option.some.injEq, reduceCtorEq] at hmark
  simp only [readHeader] at h ⊢
  rcases hr : readFull src lz4MinHeaderSz with ⟨⟨b, _ | e⟩, rest⟩ <;> rw [hr] at h hread <;>
    simp only at h hread ⊢
  · have hb := readFull_length hr
    simp only [readHeaderRest] at h ⊢
    split_ifs at h ⊢
    · have hone := hskip b rest h
      simp only
      omega
    · -- an LZ4 frame is not an end mark
      exfalso
      split at h
      · rename_i e he
        exact (sanityCheck_ofHeader (he.trans h)).2 rfl
      · exact (readContentSz_ofHeader h).2 rfl
  · exfalso
    split_ifs at h <;> simp only [Option.some.injEq, reduceCtorEq] at h

theorem headersEnd (cb : Option SkipCallbackT) (src : Bytes) : HeadersEnd cb src := by
  have hends : Loop.Ends (headersPass cb) (fun _ => True) (fun s => s.2.length) 8 (0, src)
      (headersRun cb (src.length + 1) (0, src)) ∧ True := by
    refine Loop.Ends.of_fuel (I := fun _ => True) (P := fun _ => True) (fun s => s.2.length)
      (headersRun_succ cb) (fun _ _ => trivial) (fun _ _ _ _ => trivial) ?_ trivial
      (Nat.lt_succ_self _)
    intro s s' _ hpass
    simp only [headersPass] at hpass
    split_ifs at hpass with hmark
    have hlen := readHeader_endMark_length hmark
    obtain rfl := Loop.Pass.next.inj hpass
    exact ⟨trivial, hlen, by simp only; omega⟩
  have hrun : headersRun cb (src.length + 1) (0, src) = readHeaders cb (src.length + 1) src := by
    simp only [headersRun, Int.zero_add]
  rw [HeadersEnd, ← hrun]
  exact hends.1

/-- The reads of a body in the state of a pass. -/
def blocksRun (fr : FrameReader) (k : ℕ) (s : List FrameT × Bytes) : Parsed :=
  { parseAux fr k s.2 with frames := s.1 ++ (parseAux fr k s.2).frames }

theorem blocksRun_succ (fr : FrameReader) (k : ℕ) (s : List FrameT × Bytes) :
    blocksRun fr (k + 1) s = (blocksPass fr s).resume (blocksRun fr k) := by
  rcases hr : fr.read s.2 with ⟨⟨e | frame, fr'⟩, rest⟩
  · simp only [blocksRun, blocksPass, parseAux, hr, Loop.Pass.resume_stop, List.append_nil]
  · simp only [blocksRun, blocksPass, parseAux, hr, Loop.Pass.resume_next, List.append_assoc,
      List.singleton_append]

theorem blocksEnd {hdr : HeaderT} {o : OptsT}
    (hone : 0 < o.nParallel → hdr.flags.blockIndependence = false → o.nParallel = 1) (src : Bytes) :
    BlocksEnd Z hdr o src := by
  refine ⟨?_, fun hpar as s hclose hrun => ?_⟩
  · have hends : Loop.Ends (blocksPass (readerFrame hdr)) (fun _ => True) (fun s => s.2.length) 4
        ([], src) (blocksRun (readerFrame hdr) (src.length + 1) ([], src)) ∧ True := by
      refine Loop.Ends.of_fuel (I := fun _ => True) (P := fun _ => True) (fun s => s.2.length)
        (blocksRun_succ _) (fun _ _ => trivial) (fun _ _ _ _ => trivial) ?_ trivial
        (Nat.lt_succ_self _)
      intro s s' _ hpass
      rcases hr : (readerFrame hdr).read s.2 with ⟨⟨e | frame, fr'⟩, rest⟩
      · simp only [blocksPass, hr, reduceCtorEq] at hpass
      · have hlen := FrameReader.read_ok_length hr
        simp only [blocksPass, hr, Loop.Pass.next.injEq] at hpass
        subst hpass
        exact ⟨trivial, hlen, by simp only; omega⟩
    exact hends.1
  · have href := (newAsyncReader_refines Z hdr o src hpar (hone hpar) hrun).2 hclose
    exact ⟨href.2.1, href.1⟩

/-- The blocks of a session took four bytes each. -/
theorem frameSession_blks_four (hdr : HeaderT) (o : OptsT) (src : Bytes) :
    ∀ b ∈ (frameSession Z hdr o src).blks, 4 ≤ b.2 := by
  have hparse : ∀ k src, ∀ f ∈ (parseAux (readerFrame hdr) k src).frames, 4 ≤ f.readCnt := by
    intro k
    induction k with
    | zero =>
        rintro src f ⟨⟩
    | succ k ih =>
        intro src f hf
        rcases hr : (readerFrame hdr).read src with ⟨⟨e | frame, fr'⟩, rest⟩
        · simp only [parseAux, hr, List.not_mem_nil] at hf
        · simp only [parseAux, hr, List.mem_cons] at hf
          rcases hf with rfl | hf
          · have hok : ReadOk ((readerFrame hdr).read src).1 := .inl ⟨f, by rw [hr]⟩
            obtain ⟨q, hq⟩ := FrameReader.read_ok hok
            rw [hq.readCnt f (by rw [hr])]
            exact hq.length
          · exact ih rest f hf
  intro b hb
  obtain ⟨k, hk⟩ := List.mem_iff_getElem?.mp hb
  have hd := (sessionOf_getElem?.mp hk).1
  rw [getElem?_decodeAll, Option.map_eq_some_iff] at hd
  obtain ⟨f, hf, heq⟩ := hd
  have hcnt : f.readCnt = b.2 := congrArg Prod.snd heq
  rw [← hcnt]
  exact hparse _ _ f (List.mem_of_getElem? hf)

namespace Reader

/-! ## The body -/

/-- The blocks the block reader holds took four bytes each. -/
def Fed (r : Reader) : Prop := ∀ t, r.blkReader = some t → ∀ b ∈ t.blks, 4 ≤ b.2

/-- The reader is in the frame with the session `t`, of which some blocks are left. -/
structure InFrame (t : Session) (bs : List (Bytes × ℕ)) (r : Reader) : Prop where
  blkReader : r.blkReader = some { t with blks := bs }
  suffix : bs <:+ t.blks

/-- So it is with some blocks left. -/
def Within (t : Session) (r : Reader) : Prop := ∃ bs, r.InFrame t bs

/-- The blocks left. -/
def blks (r : Reader) : ℕ := r.blkReader.elim 0 (fun t => t.blks.length)

theorem InFrame.slide {t : Session} {bs : List (Bytes × ℕ)} {r : Reader} (h : r.InFrame t bs)
    (n : ℕ) : (r.slide n).InFrame t bs := ⟨h.blkReader, h.suffix⟩

/-- The next block, or the error that ends the session. -/
theorem InFrame.nextBlock {t : Session} {bs : List (Bytes × ℕ)} {r : Reader} (h : r.InFrame t bs) :
    (bs = [] ∧ ∃ r', nextBlock { t with blks := bs } r = (some t.endErr, r') ∧ r'.InFrame t []) ∨
    ∃ b bs', bs = b :: bs' ∧
      ∃ r', nextBlock { t with blks := bs } r = (none, r') ∧ r'.InFrame t bs' := by
  rcases bs with _ | ⟨b, bs'⟩
  · exact .inl ⟨rfl, _, rfl, rfl, h.suffix⟩
  · exact .inr ⟨b, bs', rfl, _, rfl, rfl, (List.suffix_cons b bs').trans h.suffix⟩

theorem InFrame.left {t : Session} {bs : List (Bytes × ℕ)} {r : Reader} (h : r.InFrame t bs) :
    r.left = (bs.map Prod.snd).sum + 4 + t.rest.length := by
  rw [Reader.left, h.blkReader]
  rfl

theorem InFrame.blks {t : Session} {bs : List (Bytes × ℕ)} {r : Reader} (h : r.InFrame t bs) :
    r.blks = bs.length := by
  rw [Reader.blks, h.blkReader]
  rfl

/-- A pass over a block takes the four bytes of its size at least. -/
theorem InFrame.takes {t : Session} {b : Bytes × ℕ} {bs : List (Bytes × ℕ)} {r r' : Reader}
    (hfed : ∀ b ∈ t.blks, 4 ≤ b.2) (h : r.InFrame t (b :: bs)) (h' : r'.InFrame t bs) :
    r'.left + 4 ≤ r.left ∧ r'.blks < r.blks := by
  have hfour := hfed b (h.suffix.subset List.mem_cons_self)
  rw [h.left, h'.left, h.blks, h'.blks, List.map_cons, List.sum_cons, List.length_cons]
  exact ⟨by omega, Nat.lt_succ_self _⟩

/-- `modeBody` in the state of a pass. -/
def bodyRun (k : ℕ) (s : BodyVars) : (Bytes × Option Err) × Reader :=
  ((s.out ++ (bodyLoop k s.n s.r).1.1, (bodyLoop k s.n s.r).1.2), (bodyLoop k s.n s.r).2)

theorem bodyRun_succ (k : ℕ) (s : BodyVars) :
    bodyRun (k + 1) s = (bodyPass s).resume (bodyRun k) := by
  simp only [bodyRun, bodyPass, bodyLoop]
  split_ifs
  · rfl
  · rcases (s.r.slide (s.r.avail.take s.n).length).blkReader with _ | t
    · rfl
    · rcases hnext : nextBlock t (s.r.slide (s.r.avail.take s.n).length) with ⟨_ | e, r⟩
      · simp only [hnext, Loop.Pass.resume_next, bodyRun, List.append_assoc]
      · simp only [hnext, Loop.Pass.resume_stop]

theorem bodyEnds {r : Reader} {t : Session} (hblk : r.blkReader = some t)
    (hfed : ∀ b ∈ t.blks, 4 ≤ b.2) (n : ℕ) :
    r.BodyEnds n ∧ (r.modeBody n).2.Within t := by
  have hends : Loop.Ends bodyPass (fun _ => True) (fun s => s.r.left) 4 ⟨[], n, r⟩
      (bodyRun (r.blks + 1) ⟨[], n, r⟩) ∧ (bodyRun (r.blks + 1) ⟨[], n, r⟩).2.Within t := by
    refine Loop.Ends.of_fuel (I := fun s => s.r.Within t) (P := fun res => res.2.Within t)
      (fun s => s.r.blks) bodyRun_succ (fun _ _ => trivial) ?_ ?_ ?_ (Nat.lt_succ_self _)
    · rintro s res ⟨bs, hin⟩ hpass
      have hslide := hin.slide (s.r.avail.take s.n).length
      simp only [bodyPass, hslide.blkReader] at hpass
      split_ifs at hpass
      · obtain rfl := Loop.Pass.stop.inj hpass
        exact ⟨bs, hslide⟩
      · rcases hslide.nextBlock with ⟨-, r', hnext, hin'⟩ | ⟨b, bs', -, r', hnext, -⟩
        · simp only [hnext, Loop.Pass.stop.injEq] at hpass
          subst hpass
          exact ⟨[], hin'⟩
        · simp only [hnext, reduceCtorEq] at hpass
    · rintro s s' ⟨bs, hin⟩ hpass
      have hslide := hin.slide (s.r.avail.take s.n).length
      simp only [bodyPass, hslide.blkReader] at hpass
      split_ifs at hpass
      rcases hslide.nextBlock with ⟨-, r', hnext, -⟩ | ⟨b, bs', rfl, r', hnext, hin'⟩
      · simp only [hnext, reduceCtorEq] at hpass
      · simp only [hnext, Loop.Pass.next.injEq] at hpass
        subst hpass
        exact ⟨⟨bs', hin'⟩, hin.takes hfed hin'⟩
    · exact ⟨t.blks, hblk, List.suffix_refl _⟩
  exact hends

/-- `_writeTo` in the state of a pass. -/
def writeRun (plan : WrPlan) (k : ℕ) (s : WriteVars) : ((ℕ × Option Err) × List WrCall) × Reader :=
  (((s.sum + (writeLoop plan k s.calls s.r).1.1.1, (writeLoop plan k s.calls s.r).1.1.2),
    (writeLoop plan k s.calls s.r).1.2), (writeLoop plan k s.calls s.r).2)

theorem writeRun_succ (plan : WrPlan) (k : ℕ) (s : WriteVars) :
    writeRun plan (k + 1) s = (writePass plan s).resume (writeRun plan k) := by
  simp only [writeRun, writePass, writeLoop]
  rcases (if s.r.avail.isEmpty then (0, none, s.calls) else wrWrite plan s.calls s.r.avail)
    with ⟨n, _ | e, calls⟩
  · simp only
    rcases (s.r.slide n).blkReader with _ | t
    · rfl
    · rcases hnext : nextBlock t (s.r.slide n) with ⟨_ | e, r⟩
      · simp only [hnext, Loop.Pass.resume_next, writeRun, Nat.add_assoc]
      · simp only [hnext, Loop.Pass.resume_stop]
  · rfl

/-- `_writeTo` has come to an error in the frame with the session `t`. It is the end mark
only if the session ends in one. -/
def Stopped (t : Session) (res : ((ℕ × Option Err) × List WrCall) × Reader) : Prop :=
  res.2.Within t ∧ ∃ e, res.1.1.2 = some e ∧ (e = .const .endMark → t.endErr = .const .endMark)

theorem writeEnds (plan : CallerPlan) (calls : List WrCall) {r : Reader} {t : Session}
    (hblk : r.blkReader = some t) (hfed : ∀ b ∈ t.blks, 4 ≤ b.2) :
    r.WriteEnds plan.1 calls ∧ Stopped t (r._writeTo plan.1 calls) := by
  have hends : Loop.Ends (writePass plan.1) (fun _ => True) (fun s => s.r.left) 4 ⟨0, calls, r⟩
      (writeRun plan.1 (r.blks + 1) ⟨0, calls, r⟩)
      ∧ Stopped t (writeRun plan.1 (r.blks + 1) ⟨0, calls, r⟩) := by
    refine Loop.Ends.of_fuel (I := fun s => s.r.Within t) (P := Stopped t)
      (fun s => s.r.blks) (writeRun_succ plan.1) (fun _ _ => trivial) ?_ ?_ ?_
      (Nat.lt_succ_self _)
    · rintro s res ⟨bs, hin⟩ hpass
      rcases hwrite : (if s.r.avail.isEmpty then (0, none, s.calls)
        else wrWrite plan.1 s.calls s.r.avail) with ⟨n, _ | e, calls'⟩
      · have hslide := hin.slide n
        simp only [writePass, hwrite, hslide.blkReader] at hpass
        rcases hslide.nextBlock with ⟨-, r', hnext, hin'⟩ | ⟨b, bs', -, r', hnext, -⟩
        · simp only [hnext, Loop.Pass.stop.injEq] at hpass
          subst hpass
          exact ⟨⟨[], hin'⟩, _, rfl, id⟩
        · simp only [hnext, reduceCtorEq] at hpass
      · -- the destination has failed, and not with an end mark
        simp only [writePass, hwrite, Loop.Pass.stop.injEq] at hpass
        subst hpass
        refine ⟨⟨bs, hin.slide n⟩, e, rfl, fun he => ?_⟩
        subst he
        split_ifs at hwrite
        · simp only [Prod.mk.injEq, reduceCtorEq, false_and, and_false] at hwrite
        · rcases hplan : plan.1 s.calls.length with _ | ⟨m, e⟩ <;>
            simp only [wrWrite, hplan, Prod.mk.injEq, Option.some.injEq, reduceCtorEq, false_and,
              and_false] at hwrite
          exact absurd hwrite.2.1 (plan.2 _ _ _ hplan)
    · -- a pass that goes on has taken the next block
      rintro s s' ⟨bs, hin⟩ hpass
      rcases hwrite : (if s.r.avail.isEmpty then (0, none, s.calls)
        else wrWrite plan.1 s.calls s.r.avail) with ⟨n, _ | e, calls'⟩
      · have hslide := hin.slide n
        simp only [writePass, hwrite, hslide.blkReader] at hpass
        rcases hslide.nextBlock with ⟨-, r', hnext, -⟩ | ⟨b, bs', rfl, r', hnext, hin'⟩
        · simp only [hnext, reduceCtorEq] at hpass
        · simp only [hnext, Loop.Pass.next.injEq] at hpass
          subst hpass
          exact ⟨⟨bs', hin'⟩, hin.takes hfed hin'⟩
      · simp only [writePass, hwrite, reduceCtorEq] at hpass
    · -- the loop starts at the blocks of the session
      exact ⟨t.blks, hblk, List.suffix_refl _⟩
  have hrun : writeRun plan.1 (r.blks + 1) ⟨0, calls, r⟩ = r._writeTo plan.1 calls := by
    simp only [writeRun, Nat.zero_add]
    rfl
  rw [WriteEnds, ← hrun]
  exact hends

/-! ## Frames -/

/-- A frame of `WriteTo` that goes on with the stream has read its end mark. -/
theorem writeFrame_next (plan : CallerPlan) (calls : List WrCall) {r : Reader} {t : Session}
    (hblk : r.blkReader = some t) (hfed : ∀ b ∈ t.blks, 4 ≤ b.2) :
    (r.writeFrame plan.1 calls).2.Fed ∧
      ((r.writeFrame plan.1 calls).2.state = none → t.endErr = .const .endMark ∧
        (r.writeFrame plan.1 calls).2.blkReader = none ∧
        (r.writeFrame plan.1 calls).2.src = t.rest) := by
  obtain ⟨-, ⟨bs, hin⟩, e, he, hmark⟩ := writeEnds plan calls hblk hfed
  rcases hloop : r._writeTo plan.1 calls with ⟨⟨⟨n, err⟩, calls'⟩, r'⟩
  rw [hloop] at hin he
  simp only at hin he
  subst he
  by_cases hend : e = .const .endMark
  · subst hend
    simp only [writeFrame, hloop, if_true]
    refine ⟨?_, fun _ => ⟨hmark rfl, rfl, ?_⟩⟩
    · rintro u ⟨⟩
    · simp only [handleEndMark, hin.blkReader, Option.elim_some]
  · simp only [writeFrame, hloop, Option.some.injEq, if_neg hend]
    refine ⟨fun u hu => ?_, fun h => absurd h (Option.some_ne_none e)⟩
    have hu : r'.blkReader = some u := hu
    rw [hin.blkReader] at hu
    obtain rfl := Option.some.inj hu
    exact fun b hb => hfed b (hin.suffix.subset hb)

/-- A header that is accepted leaves a block reader. If its frame has an end mark, the header
and the frame lie in the source. -/
theorem _readHeader_next {r : Reader} (hblk : r.blkReader = none) :
    match (r._readHeader S).1.2 with
    | some _ => (r._readHeader S).2.blkReader = none
    | none => ∃ t, (r._readHeader S).2.blkReader = some t ∧ (∀ b ∈ t.blks, 4 ≤ b.2) ∧
        (t.endErr = .const .endMark → t.rest.length + 7 + 4 ≤ r.src.length) := by
  rcases herr : (openFrame r.seeks r.opts r.src).err with _ | e
  · have hlen := openFrame_length herr
    simp only [_readHeader, herr]
    set p := openFrame r.seeks r.opts r.src with hp
    have hsame : (S.blkSession p.hdr p.opts p.src).Same (frameSession Z p.hdr p.opts p.src) :=
      S.blkSession_same (openFrame_serial herr)
    refine ⟨_, rfl, ?_, fun hend => ?_⟩
    · rw [hsame.blks]
      exact frameSession_blks_four _ _ _
    · have hend' := hsame.endErr ▸ hend
      obtain ⟨-, hspan, -⟩ := frameSession_span hend'
      rw [hsame.rest hend]
      rw [endSz] at hspan
      have hseven : lz4MinHeaderSz = 7 := rfl
      omega
  · simp only [_readHeader, herr]
    exact hblk

/-- The loops of a pass end if the one over the body does. -/
theorem LoopsEnd.of_body {r : Reader} {body : Reader → Prop} (hfed : r.Fed)
    (hbody : ∀ r' t, r'.blkReader = some t → (∀ b ∈ t.blks, 4 ≤ b.2) → body r') :
    r.LoopsEnd S body where
  headers := fun _ _ => headersEnd _ _
  blocks := by
    rintro - - p rfl herr
    exact blocksEnd (openFrame_serial herr) _
  body := by
    intro _ r' hin
    rw [inBody] at hin
    split_ifs at hin with hsome
    · obtain ⟨t, ht⟩ := Option.isSome_iff_exists.mp hsome
      obtain rfl := Option.some.inj hin
      exact hbody r t ht (hfed t ht)
    · have hnext := _readHeader_next (S := S) (Option.not_isSome_iff_eq_none.mp hsome)
      rcases hh : r._readHeader S with ⟨⟨nBytes, _ | e⟩, r₁⟩ <;> rw [hh] at hnext hin <;>
        simp only [reduceCtorEq, Option.some.injEq] at hnext hin
      obtain ⟨t, ht, hfour, -⟩ := hnext
      subst hin
      exact hbody _ t ht hfour

theorem frameLoop_state {r : Reader} {e : Err} (h : r.state = some e) (plan : WrPlan) (k : ℕ)
    (calls : List WrCall) : r.frameLoop S plan k calls = (((0, some e), calls), r) := by
  cases k with
  | zero => simp only [frameLoop, h]
  | succ k => simp only [frameLoop, h, Option.isSome_some, if_true]

/-- `WriteTo` in the state of a pass. -/
def writeToRun (S : Sched Z) (plan : WrPlan) (k : ℕ) (s : WriteVars) :
    ((ℕ × Option Err) × List WrCall) × Reader :=
  (((s.sum + (frameLoop S plan k s.calls s.r).1.1.1, (frameLoop S plan k s.calls s.r).1.1.2),
    (frameLoop S plan k s.calls s.r).1.2), (frameLoop S plan k s.calls s.r).2)

theorem framePass_resume (S : Sched Z) (plan : WrPlan) (k : ℕ) (s : WriteVars) :
    (framePass plan s).resume (writeToRun S plan k) =
      writeToRun S plan k ⟨s.sum + (s.r.writeFrame plan s.calls).1.1,
        (s.r.writeFrame plan s.calls).1.2, (s.r.writeFrame plan s.calls).2⟩ := by
  rw [framePass]
  rcases s.r.writeFrame plan s.calls with ⟨⟨n, calls⟩, r⟩
  rcases hst : r.state with _ | e
  · simp only [hst, Loop.Pass.resume_next]
  · simp only [hst, Loop.Pass.resume_stop, writeToRun, frameLoop_state hst, Nat.add_zero]

theorem writeToRun_succ (S : Sched Z) (plan : WrPlan) (k : ℕ) (s : WriteVars) :
    writeToRun S plan (k + 1) s = (writeToPass S plan s).resume (writeToRun S plan k) := by
  rcases hst : s.r.state with _ | e
  · rcases hblk : s.r.blkReader with _ | t
    · rcases hh : s.r._readHeader S with ⟨⟨nBytes, _ | e⟩, r₁⟩
      · simp only [writeToPass, hst, hblk, hh, Option.isSome_none, Bool.false_eq_true, if_false,
          framePass_resume]
        simp only [writeToRun, frameLoop, hst, hblk, hh, Option.isSome_none, Bool.false_eq_true,
          if_false, Nat.add_assoc]
      · simp only [writeToRun, writeToPass, frameLoop, hst, hblk, hh, Option.isSome_none,
          Bool.false_eq_true, if_false, Loop.Pass.resume_stop, Nat.add_zero]
    · simp only [writeToPass, hst, hblk, Option.isSome_some, if_true, framePass_resume]
      simp only [writeToRun, frameLoop, hst, hblk, Option.isSome_none, Option.isSome_some,
        Bool.false_eq_true, if_false, if_true, Nat.add_assoc]
  · simp only [writeToRun, writeToPass, frameLoop_state hst, hst, Loop.Pass.resume_stop,
      Nat.add_zero]

/-- One pass over a frame. If it goes on, the reader is past the end mark. -/
theorem framePass_spec (plan : CallerPlan) {s : WriteVars} {t : Session}
    (hblk : s.r.blkReader = some t) (hfed : ∀ b ∈ t.blks, 4 ≤ b.2) :
    (∀ res, framePass plan.1 s = .stop res → res.2.Fed) ∧
      ∀ s', framePass plan.1 s = .next s' → s'.r.Fed ∧ t.endErr = .const .endMark ∧
        s'.r.left = t.rest.length ∧ s'.r.unread = t.rest.length + 1 := by
  obtain ⟨hfed', hnext⟩ := writeFrame_next plan s.calls hblk hfed
  rw [framePass]
  rcases hframe : s.r.writeFrame plan.1 s.calls with ⟨⟨n, calls⟩, r⟩
  rw [hframe] at hfed' hnext
  simp only at hfed' hnext ⊢
  rcases hst : r.state with _ | e
  · obtain ⟨hmark, hnone, hsrc⟩ := hnext hst
    simp only [reduceCtorEq, false_implies, implies_true, true_and, Loop.Pass.next.injEq]
    rintro s' rfl
    refine ⟨hfed', hmark, ?_, ?_⟩
    · simp only [Reader.left, hnone, hsrc]
    · simp only [unread, hst, hnone, hsrc]
  · simp only [reduceCtorEq, false_implies, implies_true, and_true, Loop.Pass.stop.injEq]
    rintro res rfl
    exact hfed'

/-- A pass of `WriteTo` keeps the invariant. If it goes on it has taken an end mark, and the
frames ahead are fewer. -/
theorem writeToPass_spec (plan : CallerPlan) {s : WriteVars} (hfed : s.r.Fed) :
    (∀ res, writeToPass S plan.1 s = .stop res → res.2.Fed) ∧
      ∀ s', writeToPass S plan.1 s = .next s' →
        s'.r.Fed ∧ s'.r.left + 4 ≤ s.r.left ∧ s'.r.unread < s.r.unread := by
  rcases hst : s.r.state with _ | e
  · rcases hblk : s.r.blkReader with _ | t
    · -- a header, and a frame behind it
      have hhead := _readHeader_next (S := S) hblk
      rcases hh : s.r._readHeader S with ⟨⟨nBytes, _ | e⟩, r₁⟩ <;> rw [hh] at hhead <;>
        simp only at hhead
      · obtain ⟨t, hblk₁, hfour, hlen⟩ := hhead
        simp only [writeToPass, hst, hblk, hh, Option.isSome_none, Bool.false_eq_true, if_false]
        obtain ⟨hstop, hnext⟩ := framePass_spec plan
          (s := { s with r := { r₁ with srcPos := r₁.srcPos + nBytes } }) hblk₁ hfour
        refine ⟨hstop, fun s' hpass => ?_⟩
        obtain ⟨hfed', hmark, hleft, hunread⟩ := hnext s' hpass
        have hlen := hlen hmark
        rw [hleft, hunread, Reader.left, hblk, unread, hst, hblk]
        exact ⟨hfed', by simp only; omega, by simp only; omega⟩
      · simp only [writeToPass, hst, hblk, hh, Option.isSome_none, Bool.false_eq_true, if_false]
        refine ⟨fun res hpass => ?_, fun s' hpass => by cases hpass⟩
        obtain rfl := Loop.Pass.stop.inj hpass
        intro t ht
        have ht : r₁.blkReader = some t := ht
        rw [hhead] at ht
        cases ht
    · simp only [writeToPass, hst, hblk, Option.isSome_some, if_true]
      obtain ⟨hstop, hnext⟩ := framePass_spec plan hblk (hfed t hblk)
      refine ⟨hstop, fun s' hpass => ?_⟩
      obtain ⟨hfed', -, hleft, hunread⟩ := hnext s' hpass
      rw [hleft, hunread, Reader.left, hblk, unread, hst, hblk]
      exact ⟨hfed', by simp only; omega, by simp only; omega⟩
  · simp only [writeToPass, hst]
    refine ⟨fun res hpass => ?_, fun s' hpass => by cases hpass⟩
    obtain rfl := Loop.Pass.stop.inj hpass
    exact hfed

/-- **The rule for `WriteTo`.** An invariant of its passes, with what it says of the result. -/
theorem writeTo_rule (S : Sched Z) (plan : CallerPlan) {inner I : WriteVars → Prop}
    {P : ((ℕ × Option Err) × List WrCall) × Reader → Prop} (hfed : ∀ s, I s → s.r.Fed)
    (hinner : ∀ s, I s → inner s)
    (hstop : ∀ s res, I s → writeToPass S plan.1 s = .stop res → P res)
    (hnext : ∀ s s', I s → writeToPass S plan.1 s = .next s' → I s') {r : Reader}
    (hr : I ⟨0, [], r⟩) :
    Loop.Ends (writeToPass S plan.1) inner (fun s => s.r.left) 4 ⟨0, [], r⟩ (r.writeTo S plan.1)
      ∧ P (r.writeTo S plan.1) := by
  have hrun : writeToRun S plan.1 (r.src.length + r.blkReader.elim 0 (fun t => t.rest.length) + 3)
      ⟨0, [], r⟩ = r.writeTo S plan.1 := by
    simp only [writeToRun, Nat.zero_add]
    rfl
  rw [← hrun]
  -- the frames ahead are the measure
  refine Loop.Ends.of_fuel (I := I) (P := P) (fun s => s.r.unread) (writeToRun_succ S plan.1)
    hinner hstop ?_ hr ?_
  · intro s s' hs hpass
    exact ⟨hnext s s' hs hpass, ((writeToPass_spec plan (hfed s hs)).2 s' hpass).2⟩
  · exact r.unread_lt

theorem writeTo_returns (S : Sched Z) (plan : CallerPlan) {r : Reader} (hfed : r.Fed) :
    r.WriteToReturns S plan.1 ∧ (r.writeTo S plan.1).2.Fed := by
  refine writeTo_rule S plan (I := fun s => s.r.Fed) (P := fun res => res.2.Fed) (fun _ hs => hs)
    ?_ ?_ ?_ hfed
  · -- the loops of a pass
    intro s hs
    apply LoopsEnd.of_body hs
    intro r' t hblk hfour
    exact (writeEnds plan s.calls hblk hfour).1
  · intro s res hs hpass
    exact (writeToPass_spec plan hs).1 res hpass
  · intro s s' hs hpass
    exact ((writeToPass_spec plan hs).2 s' hpass).1

/-! ## Calls -/

theorem settle_fed {r : Reader} (h : r.Fed) (bs : Bytes) (err : Option Err) :
    (settle bs err r).2.Fed := by
  rcases err with _ | e
  · exact h
  · simp only [settle]
    split_ifs
    · rintro t ⟨⟩
    · exact h
    · exact h

theorem modeBody_fed {r : Reader} {t : Session} (hblk : r.blkReader = some t)
    (hfed : ∀ b ∈ t.blks, 4 ≤ b.2) (n : ℕ) : (r.modeBody n).2.Fed := by
  obtain ⟨-, bs, hin⟩ := bodyEnds hblk hfed n
  intro u hu
  rw [hin.blkReader] at hu
  obtain rfl := Option.some.inj hu
  exact fun b hb => hfed b (hin.suffix.subset hb)

theorem read_fed (S : Sched Z) (n : ℕ) {r : Reader} (hfed : r.Fed) : (r.read S n).2.Fed := by
  rcases hst : r.state with _ | e
  · rcases hblk : r.blkReader with _ | t
    · have hhead := _readHeader_next (S := S) hblk
      simp only [read, hst, hblk, Option.isSome_none, Bool.false_eq_true, if_false, modeHeader]
      rcases hh : r._readHeader S with ⟨⟨nBytes, _ | e⟩, r₁⟩ <;> rw [hh] at hhead <;>
        simp only at hhead ⊢
      · obtain ⟨t, hblk₁, hfour, -⟩ := hhead
        exact settle_fed (modeBody_fed (r := { r₁ with srcPos := r₁.srcPos + nBytes }) hblk₁ hfour
          n) _ _
      · apply settle_fed
        intro t ht
        have ht : r₁.blkReader = some t := ht
        rw [hhead] at ht
        cases ht
    · simp only [read, hst, hblk, Option.isSome_some, if_true]
      exact settle_fed (modeBody_fed hblk (hfed t hblk) n) _ _
  · simp only [read, hst]
    exact hfed

theorem close_fed {r : Reader} (hfed : r.Fed) : r.close.2.Fed := by
  rw [close]
  split_ifs
  · exact hfed
  · rintro t ⟨⟩

end Reader

/-- A call on a `Reader`. -/
inductive RCall
  | read (n : ℕ)
  | writeTo (plan : CallerPlan)
  | close

namespace Reader

/-- The reader after a call. -/
def call (S : Sched Z) (r : Reader) : RCall → Reader
  | .read n => (r.read S n).2
  | .writeTo plan => (r.writeTo S plan.1).2
  | .close => r.close.2

/-- The reader after any number of calls. -/
def after (S : Sched Z) (r : Reader) (cs : List RCall) : Reader := cs.foldl (call S) r

theorem call_fed (S : Sched Z) {r : Reader} (hfed : r.Fed) (c : RCall) : (r.call S c).Fed := by
  cases c with
  | read n => exact read_fed S n hfed
  | writeTo plan => exact (writeTo_returns S plan hfed).2
  | close => exact close_fed hfed

theorem after_fed (S : Sched Z) {r : Reader} (hfed : r.Fed) (cs : List RCall) :
    (r.after S cs).Fed := by
  induction cs generalizing r with
  | nil => exact hfed
  | cons c cs ih => exact ih (call_fed S hfed c)

end Reader

/-- **Every call returns.** After any calls on a reader of any source, with any options and
any schedule, a `Read` of any size and a `WriteTo` into any destination come to an end: so
does each loop in them, and each pass of a loop that goes on has taken at least four bytes
of the source. -/
theorem reader_returns (S : Sched Z) (src : Bytes) (seeks : Option SeekT) (o : OptsT)
    (cs : List RCall) :
    (∀ n, ((newReader src seeks o).after S cs).ReadReturns S n) ∧
      ∀ plan : CallerPlan, ((newReader src seeks o).after S cs).WriteToReturns S plan.1 := by
  have hnew : (newReader src seeks o).Fed := by
    rintro t ⟨⟩
  have hfed := Reader.after_fed S hnew cs
  refine ⟨fun n => ?_, fun plan => ?_⟩
  · apply Reader.LoopsEnd.of_body hfed
    intro r' t hblk hfour
    exact (Reader.bodyEnds hblk hfour n).1
  · exact (Reader.writeTo_returns S plan hfed).1

end Plz4
