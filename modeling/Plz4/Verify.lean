/-
The verify command (`cmd/plz4/internal/ops/verify.go`).

It decodes the stream to nowhere and keeps a copy of the first bytes that are read. When
the decoding has gone well, the copy is parsed for the header to report. The reads are a
list of chunks; how they fall is not up to the command.
-/
import Plz4.ReaderReturns
import Plz4.SkipFrames

set_option autoImplicit false

namespace Plz4

open LittleEndian

variable {Z : Clz4}

/-! ## The command -/

/-- `strUnset`. -/
def strUnset : String := "<UNSET>"

/-- The value of a row of the table. -/
inductive Cell
  | num (n : ℕ)
  | text (s : String)
  | flag (b : Bool)
  deriving DecidableEq, Repr

/-- The rows `verifyHeader` appends. -/
def headerRows (hdr : HeaderT) : List (String × Cell) :=
  let dictId := if hdr.flags.dictId then toString hdr.dictId.toNat else strUnset
  let contentSz := if hdr.flags.contentSize then toString hdr.contentSz.toNat else strUnset
  [("Frame version", .num hdr.flags.version.toNat),
    ("Dict Identifier", .text dictId),
    ("Content size", .text contentSz),
    ("Content checksum", .flag hdr.flags.contentChecksum),
    ("Block Size", .text hdr.blockDesc.idx.str),
    ("Block Checksum", .flag hdr.flags.blockChecksum),
    ("Block Independence", .flag hdr.flags.blockIndependence)]

/-- `verifyHeader`: one `ReadHeader`, without a skip callback. -/
def verifyHeader (rd : Bytes) : Except Err (List (String × Cell)) :=
  let (h, _) := readHeader rd none
  match h.err with
  | some e => .error e
  | none => .ok (headerRows h.hdr)

/-- `headerBuf.Write`, its effect on the buffer. -/
def headerBufWrite (buf data : Bytes) : Bytes :=
  -- cache enough to grab the header
  if buf.length < 19 then buf ++ data else buf

/-- The buffer after the reads of the `TeeReader`. -/
def headerBuf (reads : List Bytes) : Bytes := reads.foldl headerBufWrite []

/-- The skip callback of the command. -/
def skipCB : SkipCallbackT := fun src _ sz =>
  let ((n, err), rest) := copyN src sz.toNat
  ⟨src.length - rest.length, n, err⟩

/-- The options of the command. -/
def verifyOpts (nParallel : ℕ) (pendingSz : ℤ) (dictionary : Option Bytes) : OptsT :=
  { OptsT.default with
    nParallel := nParallel
    pendingSz := pendingSz
    dictionary := dictionary
    skipCallback := some skipCB }

/-- The `WriteTo` of the command. Its source is not an `io.Seeker`. -/
def verifyWriteTo (S : Sched Z) (o : OptsT) (src : Bytes) :
    ((ℕ × Option Err) × List WrCall) × Reader :=
  (newReader src none o).writeTo S .ok

/-- `_verify` without the skip flag, when the source gave the chunks `reads`. What is
rendered are the rows about the header, without those about the run; `none` is the message
that there is no data. -/
def _verify (S : Sched Z) (o : OptsT) (src : Bytes) (reads : List Bytes) :
    Except Err (Option (List (String × Cell))) :=
  let (((_, err), _), framer) := verifyWriteTo S o src
  match err with
  | some e => .error e
  | none =>
      let hdrBuf := headerBuf reads
      -- reparse the cached header
      match if hdrBuf.length > 0 then verifyHeader hdrBuf else .ok [] with
      | .error e => .error e
      | .ok rows =>
          match framer.close.1 with
          | some e => .error e
          | none => if reads.flatten.length = 0 then .ok none else .ok (some rows)

/-! ## The cache -/

/-- A cache that holds nineteen bytes takes no more. -/
theorem headerBuf_full {buf : Bytes} (h : 19 ≤ buf.length) (reads : List Bytes) :
    reads.foldl headerBufWrite buf = buf := by
  induction reads with
  | nil => rfl
  | cons data reads ih => rw [List.foldl_cons, headerBufWrite, if_neg (Nat.not_lt.mpr h), ih]

/-- The cache is the beginning of the stream: nineteen bytes at least, or all there is. -/
theorem headerBuf_spec (reads : List Bytes) :
    headerBuf reads <+: reads.flatten ∧
      (19 ≤ (headerBuf reads).length ∨ headerBuf reads = reads.flatten) := by
  have hfold : ∀ (reads : List Bytes) (buf : Bytes),
      reads.foldl headerBufWrite buf <+: buf ++ reads.flatten ∧
        (19 ≤ (reads.foldl headerBufWrite buf).length
          ∨ reads.foldl headerBufWrite buf = buf ++ reads.flatten) := by
    intro reads
    induction reads with
    | nil =>
        intro buf
        rw [List.flatten_nil, List.append_nil]
        exact ⟨List.prefix_refl _, .inr rfl⟩
    | cons data reads ih =>
        intro buf
        by_cases hlt : buf.length < 19
        · have hnext := ih (buf ++ data)
          rw [List.append_assoc] at hnext
          rw [List.foldl_cons, headerBufWrite, if_pos hlt, List.flatten_cons]
          exact hnext
        · have hge := Nat.not_lt.mp hlt
          rw [headerBuf_full hge]
          exact ⟨List.prefix_append _ _, .inl hge⟩
  exact hfold reads []

/-! ## The header in the cache -/

theorem readFull_le (src : Bytes) (n : ℕ) : (readFull src n).1.1.length ≤ n := by
  by_cases hle : n ≤ src.length
  · rw [readFull_of_le hle]
    exact List.length_take_le n src
  · rw [readFull_of_gt (by omega)]
    simp only
    omega

theorem readDictId_nRead_le (hdr : HeaderT) (hb src : Bytes) :
    (readDictId hdr hb src).1.nRead ≤ hb.length + 4 := by
  have hfour := readFull_le src 4
  rw [readDictId]
  split_ifs
  · rcases hr : readFull src 4 with ⟨⟨b, _ | e⟩, rest⟩ <;> rw [hr] at hfour <;>
      simp only at hfour ⊢
    · rw [checkHeaderHash_nRead, List.length_append]
      omega
    · omega
  · rw [checkHeaderHash_nRead]
    omega

theorem readContentSz_nRead_le (hdr : HeaderT) (hb src : Bytes) :
    (readContentSz hdr hb src).1.nRead ≤ hb.length + 12 := by
  have height := readFull_le src 8
  rw [readContentSz]
  split_ifs
  · rcases hr : readFull src 8 with ⟨⟨b, _ | e⟩, rest⟩ <;> rw [hr] at height <;>
      simp only at height ⊢
    · refine (readDictId_nRead_le _ _ _).trans ?_
      rw [List.length_append]
      omega
    · omega
  · exact (readDictId_nRead_le _ _ _).trans (by omega)

/-- A header has nineteen bytes at most. -/
theorem readHeader_le_nineteen {src q : Bytes} (h : (readHeader src none).1.err = none)
    (hq : HdrAccepted none src q) : q.length ≤ 19 := by
  have hcount := hq.nRead
  have hseven := readFull_le src lz4MinHeaderSz
  rw [readHeader] at h hcount
  rcases hr : readFull src lz4MinHeaderSz with ⟨⟨b, _ | e⟩, rest⟩ <;> rw [hr] at h hcount hseven <;>
    simp only at h hcount hseven
  · rw [readHeaderRest] at h hcount
    split_ifs at h hcount
    · -- a skip frame is not a header
      exact absurd h (maybeSkipFrame_err _ _ _)
    · simp only at h hcount
      split at hcount
      · rename_i e he
        simp only [he, reduceCtorEq] at h
      · have hle := readContentSz_nRead_le ⟨0, 0, 0, ⟨b.getD 4 0⟩, ⟨b.getD 5 0⟩⟩ b rest
        have : lz4MinHeaderSz = 7 := rfl
        omega
  · cases h

theorem verifyHeader_ok {rd : Bytes} (h : (readHeader rd none).1.err = none) :
    verifyHeader rd = .ok (headerRows (readHeader rd none).1.hdr) := by
  rw [verifyHeader]
  rcases hr : readHeader rd none with ⟨⟨n, hdr, _ | e⟩, rest⟩
  · rfl
  · rw [hr] at h
    cases h

theorem verifyHeader_error {rd : Bytes} {e : Err} (h : (readHeader rd none).1.err = some e) :
    verifyHeader rd = .error e := by
  rw [verifyHeader]
  rcases hr : readHeader rd none with ⟨⟨n, hdr, _ | e'⟩, rest⟩ <;> rw [hr] at h
  · cases h
  · obtain rfl := Option.some.inj h
    rfl

/-- What begins with a header begins with it also if more follows. -/
theorem readHeader_of_prefix {p src : Bytes} (hp : p <+: src)
    (h : (readHeader p none).1.err = none) : (readHeader src none).1 = (readHeader p none).1 := by
  obtain ⟨q, hq⟩ := readHeader_ok h
  obtain ⟨t, rfl⟩ := hp
  have happ := hq.append ((readHeader p none).2 ++ t)
  rw [← List.append_assoc, ← hq.split] at happ
  rw [happ]

/-- A beginning with nineteen bytes, or with all there are, has the header. -/
theorem readHeader_of_cached {p src : Bytes} (hp : p <+: src) (hlen : 19 ≤ p.length ∨ p = src)
    (h : (readHeader src none).1.err = none) : (readHeader p none).1 = (readHeader src none).1 := by
  rcases hlen with hlen | rfl
  · obtain ⟨q, hq⟩ := readHeader_ok h
    have hq19 := readHeader_le_nineteen h hq
    obtain ⟨t, rfl⟩ : q <+: p :=
      List.prefix_of_prefix_length_le ⟨_, hq.split.symm⟩ hp (hq19.trans hlen)
    rw [hq.append t]
  · rfl

/-! ## The decoding -/

theorem skipCB_consumes : SkipCallbackS.Consumes (some (SkipCallbackS.pure skipCB : SkipCallbackS Unit)) := by
  rintro f ⟨⟩ st src nibble sz hle
  simp only [SkipCallbackS.pure, skipCB, copyN, if_pos hle, List.length_drop, SkipRes.mk.injEq,
    and_true]
  omega

/-- At the magic number of an LZ4 frame no skip frame is read. -/
theorem readHeaders_of_magic {t : Bytes} (h : t.take 4 = lz4FrameMagic)
    (cb : Option SkipCallbackT) (k : ℕ) : readHeaders cb k t = readHeader t none := by
  have hcall : skipCall t = none := by
    unfold skipCall
    rcases hr : readFull t lz4MinHeaderSz with ⟨⟨b, _ | e⟩, rest⟩
    · have hb : b.take 4 = lz4FrameMagic := by
        have hnone : (readFull t lz4MinHeaderSz).1.2 = none := by rw [hr]
        obtain ⟨hres, -, -⟩ := readFull_ok hnone
        rw [hr, Prod.mk.injEq, Prod.mk.injEq] at hres
        rw [hres.1.1, List.take_take]
        exact h
      simp only [hb, or_true, if_true]
    · simp only [Option.isSome_some, true_or, if_true]
  have hmark : (readHeader t none).1.err ≠ some (.const .endMark) := by
    intro hmark
    obtain ⟨q, q₁, q₂, rest, hp⟩ := readHeader_skip_parts hmark
    have hseven : 4 ≤ q.length := by
      rw [hp.first]
      decide
    apply hp.notMagic
    rw [← h, hp.split, List.take_append_of_le_length hseven]
  rw [readHeader_of_skipCall_none hcall none cb] at hmark ⊢
  exact readHeaders_of_header hmark k

/-- Behind skip frames the loop of `_readHeader` comes to the header of the LZ4 frame. -/
theorem readHeaders_err {t : Bytes} (h : t.take 4 = lz4FrameMagic) (fs : List SkipFrame) :
    (readHeaders (some skipCB) ((skipBytes fs ++ t).length + 1) (skipBytes fs ++ t)).1.err
      = (readHeader t none).1.err := by
  have hskip := readHeadersS_skipBytes skipCB_consumes fs () t
  have hpure := readHeadersS_pure (some skipCB) ((skipBytes fs ++ t).length + 1) ()
    (skipBytes fs ++ t)
  have hpure' := readHeadersS_pure (some skipCB) (t.length + 1) () t
  rw [Option.map_some] at hpure hpure'
  rw [hpure, hpure', readHeaders_of_magic h] at hskip
  exact congrArg (fun x => x.1.1.err) hskip

/-- A frame is opened with the error of its header, if there is nothing to ask for and no
offset. -/
theorem openFrame_steady (seeks : Option SeekT) {o : OptsT} (hoff : o.readOffset = 0)
    (hdict : o.dictCallback = none) (src : Bytes) :
    (openFrame seeks o src).err = (readHeaders o.skipCallback (src.length + 1) src).1.err ∧
      (openFrame seeks o src).src = (readHeaders o.skipCallback (src.length + 1) src).2 ∧
      (openFrame seeks o src).opts.readOffset = 0 ∧
      (openFrame seeks o src).opts.dictCallback = none := by
  rcases hr : readHeaders o.skipCallback (src.length + 1) src with ⟨⟨n, hdr, _ | e⟩, rest⟩
  · have hask : askDict o hdr = (none, o) := by
      rw [askDict, hdict]
      split_ifs <;> rfl
    have hopen : openFrame seeks o src = ⟨n, none, hdr, frameOpts o hdr, rest⟩ := by
      simp only [openFrame, hr, hask, applyOffset, hoff, true_or, if_true]
      rfl
    obtain ⟨hoff', -, -, -, hdict', -⟩ := frameOpts_fields o hdr
    rw [hopen]
    exact ⟨rfl, rfl, hoff'.trans hoff, hdict'.trans hdict⟩
  · simp only [openFrame, hr]
    exact ⟨trivial, trivial, hoff, hdict⟩

/-- At the end of the stream the loop of `_readHeader` leaves nothing. -/
theorem readHeaders_eof_rest (cb : Option SkipCallbackT) (k : ℕ) {src : Bytes}
    (h : (readHeaders cb k src).1.err = some .eof) : (readHeaders cb k src).2 = [] := by
  induction k generalizing src with
  | zero =>
      have h : (readHeader src cb).1.err = some .eof := h
      rw [readHeaders, readHeader_eof h, readHeader_nil]
  | succ k ih =>
      simp only [readHeaders] at h ⊢
      split_ifs at h ⊢
      · exact ih h
      · rw [readHeader_eof h, readHeader_nil]

namespace Reader

/-- Nothing to ask for, and no offset. -/
structure Steady (r : Reader) : Prop where
  fed : r.Fed
  readOffset : r.opts.readOffset = 0
  dictCallback : r.opts.dictCallback = none

theorem writeFrame_opts (calls : List WrCall) {r : Reader} {t : Session}
    (hblk : r.blkReader = some t) : (r.writeFrame .ok calls).2.opts = r.opts := by
  have hpasses : t.blks.length < r.passes := by
    rw [passes, hblk]
    exact Nat.lt_succ_self _
  obtain ⟨t', bs, calls', r', hloop, hadv, -⟩ := writeLoop_spec r.passes calls r hblk hpasses
  rw [← _writeTo] at hloop
  simp only [writeFrame, hloop]
  split_ifs <;> exact hadv.opts

/-- The plan of a destination that never fails is one a caller can have. -/
def okPlan : CallerPlan := ⟨.ok, by rintro i k e ⟨⟩⟩

/-- One pass over a frame: it stops with an error, or leaves the reader steady. -/
theorem framePass_steady {s : WriteVars} {t : Session} (h : s.r.Steady)
    (hblk : s.r.blkReader = some t) (hfour : ∀ b ∈ t.blks, 4 ≤ b.2) :
    (∀ res, framePass .ok s = .stop res → res.1.1.2 ≠ none) ∧
      ∀ s', framePass .ok s = .next s' → s'.r.Steady := by
  have hopts := writeFrame_opts s.calls hblk
  have hfed := (writeFrame_next okPlan s.calls hblk hfour).1
  have hfed : (s.r.writeFrame .ok s.calls).2.Fed := hfed
  rw [framePass]
  rcases hframe : s.r.writeFrame .ok s.calls with ⟨⟨n, calls⟩, r⟩
  rw [hframe] at hopts hfed
  simp only at hopts hfed ⊢
  rcases r.state with _ | e
  · simp only [reduceCtorEq, false_implies, implies_true, true_and, Loop.Pass.next.injEq]
    rintro s' rfl
    exact ⟨hfed, hopts ▸ h.readOffset, hopts ▸ h.dictCallback⟩
  · simp only [reduceCtorEq, false_implies, implies_true, and_true, Loop.Pass.stop.injEq]
    rintro res rfl
    rintro ⟨⟩

/-- `_readHeader` of a steady reader: an `io.EOF` means that nothing is left. -/
theorem _readHeader_steady {S : Sched Z} {r : Reader} (h : r.Steady) (hblk : r.blkReader = none) :
    (r._readHeader S).2.Steady ∧
      ((r._readHeader S).1.2 = some .eof → (r._readHeader S).2.src = []) := by
  obtain ⟨herr, hsrc, hoff, hdict⟩ := openFrame_steady r.seeks h.readOffset h.dictCallback r.src
  have hnext := _readHeader_next (S := S) hblk
  rcases hopen : (openFrame r.seeks r.opts r.src).err with _ | e
  · simp only [_readHeader, hopen] at hnext ⊢
    obtain ⟨t, ht, hfour, -⟩ := hnext
    refine ⟨⟨fun u hu => ?_, hoff, hdict⟩, by rintro ⟨⟩⟩
    rw [ht] at hu
    obtain rfl := Option.some.inj hu
    exact hfour
  · simp only [_readHeader, hopen]
    refine ⟨⟨h.fed, hoff, hdict⟩, fun heof => ?_⟩
    rw [hsrc]
    apply readHeaders_eof_rest
    rw [← herr, hopen]
    exact heof

/-- Nothing is left of the source, and there is no error. -/
structure Drained (r : Reader) : Prop where
  src : r.src = []
  state : r.state = none

/-- A pass of `WriteTo` that stops without an error has come to the end of the source. -/
theorem writeToPass_steady {S : Sched Z} {s : WriteVars} (h : s.r.Steady) :
    (∀ res, writeToPass S .ok s = .stop res → res.1.1.2 = none → res.2.Drained) ∧
      ∀ s', writeToPass S .ok s = .next s' → s'.r.Steady := by
  rcases hst : s.r.state with _ | e
  · rcases hblk : s.r.blkReader with _ | t
    · obtain ⟨hsteady, heof⟩ := _readHeader_steady (S := S) h hblk
      have hnext := _readHeader_next (S := S) hblk
      rcases hh : s.r._readHeader S with ⟨⟨nBytes, _ | e⟩, r₁⟩ <;> rw [hh] at hsteady heof hnext <;>
        simp only at hsteady heof hnext
      · obtain ⟨t, hblk₁, hfour, -⟩ := hnext
        simp only [writeToPass, hst, hblk, hh, Option.isSome_none, Bool.false_eq_true, if_false]
        have hpos : ({ r₁ with srcPos := r₁.srcPos + nBytes } : Reader).Steady :=
          ⟨hsteady.fed, hsteady.readOffset, hsteady.dictCallback⟩
        obtain ⟨hstop, hgo⟩ := framePass_steady
          (s := { s with r := { r₁ with srcPos := r₁.srcPos + nBytes } }) hpos hblk₁ hfour
        exact ⟨fun res hpass hnone => absurd hnone (hstop res hpass), hgo⟩
      · simp only [writeToPass, hst, hblk, hh, Option.isSome_none, Bool.false_eq_true, if_false,
          reduceCtorEq, false_implies, implies_true, and_true, Loop.Pass.stop.injEq]
        rintro res rfl hnone
        refine ⟨heof ?_, hnone⟩
        simp only at hnone
        split_ifs at hnone with he
        rw [he]
    · simp only [writeToPass, hst, hblk, Option.isSome_some, if_true]
      obtain ⟨hstop, hgo⟩ := framePass_steady h hblk (h.fed t hblk)
      exact ⟨fun res hpass hnone => absurd hnone (hstop res hpass), hgo⟩
  · simp only [writeToPass, hst, reduceCtorEq, false_implies, implies_true, and_true,
      Loop.Pass.stop.injEq]
    rintro res rfl
    rintro ⟨⟩

/-- **A `WriteTo` without an error has read the whole source.** -/
theorem writeTo_drained (S : Sched Z) {r : Reader} (h : r.Steady)
    (hnone : (r.writeTo S .ok).1.1.2 = none) : (r.writeTo S .ok).2.Drained := by
  have hrule : Loop.Ends (writeToPass S .ok) (fun _ => True) (fun s => s.r.left) 4 ⟨0, [], r⟩
      (r.writeTo S .ok) ∧ ((r.writeTo S .ok).1.1.2 = none → (r.writeTo S .ok).2.Drained) := by
    refine writeTo_rule S okPlan (I := fun s => s.r.Steady)
      (P := fun res => res.1.1.2 = none → res.2.Drained) (fun _ hs => hs.fed) (fun _ _ => trivial)
      ?_ ?_ h
    · intro s res hs hpass
      exact (writeToPass_steady hs).1 res hpass
    · intro s s' hs hpass
      exact (writeToPass_steady hs).2 s' hpass
  exact hrule.2 hnone

end Reader

/-! ## Verifying -/

variable {S : Sched Z} {nParallel : ℕ} {pendingSz : ℤ} {dict : Option Bytes} {fs : List SkipFrame}
  {t : Bytes}

/-- What `WriteTo` makes of the stream of the command, if it reports no error: the header of
its LZ4 frame is accepted, and the whole source has been read. -/
theorem verifyWriteTo_none (ht : t.take 4 = lz4FrameMagic)
    (hdec : (verifyWriteTo S (verifyOpts nParallel pendingSz dict) (skipBytes fs ++ t)).1.1.2
      = none) :
    (readHeader t none).1.err = none ∧
      (verifyWriteTo S (verifyOpts nParallel pendingSz dict) (skipBytes fs ++ t)).2.Drained := by
  refine ⟨?_, Reader.writeTo_drained S ⟨by rintro u ⟨⟩, rfl, rfl⟩ hdec⟩
  generalize ho : verifyOpts nParallel pendingSz dict = o at hdec
  have hskip : o.skipCallback = some skipCB := by rw [← ho]; rfl
  have hoff : o.readOffset = 0 := by rw [← ho]; rfl
  have hdict : o.dictCallback = none := by rw [← ho]; rfl
  have hopen := (openFrame_steady none hoff hdict (skipBytes fs ++ t)).1
  rw [hskip, readHeaders_err ht] at hopen
  rcases herr : (readHeader t none).1.err with _ | e
  · rfl
  · exfalso
    rw [herr] at hopen
    -- the error of the header is the one that `WriteTo` ends with
    have hwrite := (newReader_delivers S (skipBytes fs ++ t) none o).writeTo.1
    rw [decodeStream_error hopen] at hwrite
    rw [verifyWriteTo, hwrite] at hdec
    simp only [Reader.writeToErr] at hdec
    split_ifs at hdec with he
    rw [he] at herr
    rw [readHeader_eof herr] at ht
    cases ht

/-- `_verify` once the decoding has gone well and something has been read. -/
theorem _verify_decoded {o : OptsT} {src : Bytes} {reads : List Bytes}
    (hdec : (verifyWriteTo S o src).1.1.2 = none) (hdrained : (verifyWriteTo S o src).2.Drained)
    (hreads : headerBuf reads ≠ []) :
    _verify S o src reads = (verifyHeader (headerBuf reads)).map some := by
  have hbuf : (headerBuf reads).length > 0 := List.length_pos_iff.mpr hreads
  have hflat : ¬ reads.flatten.length = 0 := by
    have hle := (headerBuf_spec reads).1.length_le
    omega
  rw [_verify]
  rcases hw : verifyWriteTo S o src with ⟨⟨⟨n, err⟩, calls⟩, r⟩
  rw [hw] at hdec hdrained
  simp only at hdec hdrained ⊢
  have hclose : r.close.1 = none := by
    rw [Reader.close]
    split_ifs
    · exact hdrained.state
    · rfl
  subst hdec
  simp only [if_pos hbuf, hclose, if_neg hflat]
  rcases verifyHeader (headerBuf reads) with e | rows <;> rfl

/-- **Verify agrees with decoding** exactly if no skip frame stands before the first LZ4
frame. Where `WriteTo` decodes the stream without an error, however its reads fall, the
command accepts it and reports the first LZ4 header; a skip frame in front makes it fail. -/
theorem verify_agrees_iff (ht : t.take 4 = lz4FrameMagic)
    (hdec : (verifyWriteTo S (verifyOpts nParallel pendingSz dict) (skipBytes fs ++ t)).1.1.2 = none)
    {reads : List Bytes}
    (hreads : reads.flatten
      ++ (verifyWriteTo S (verifyOpts nParallel pendingSz dict) (skipBytes fs ++ t)).2.src
        = skipBytes fs ++ t) :
    (∃ n hdr rest, readHeader t none = (⟨n, hdr, none⟩, rest) ∧
        _verify S (verifyOpts nParallel pendingSz dict) (skipBytes fs ++ t) reads
          = .ok (some (headerRows hdr))) ↔ fs = [] := by
  obtain ⟨hheader, hdrained⟩ := verifyWriteTo_none ht hdec
  rw [hdrained.src, List.append_nil] at hreads
  obtain ⟨hpre, hlen⟩ := headerBuf_spec reads
  rw [hreads] at hpre hlen
  have hne : headerBuf reads ≠ [] := by
    intro hnil
    rw [hnil] at hlen
    rcases hlen with hlen | hlen
    · exact absurd hlen (by decide)
    · have ht' := (List.append_eq_nil_iff.mp hlen.symm).2
      rw [ht'] at ht
      cases ht
  rw [_verify_decoded hdec hdrained hne]
  constructor
  · rintro ⟨n, hdr, rest, -, hok⟩
    rcases fs with _ | ⟨s, fs⟩
    · rfl
    · exfalso
      -- the parse of the cache meets the skip frame
      have hcached : (readHeader (headerBuf reads) none).1.err = none := by
        rcases herr : (readHeader (headerBuf reads) none).1.err with _ | e
        · rfl
        · rw [verifyHeader_error herr] at hok
          cases hok
      have hsame := readHeader_of_prefix hpre hcached
      have hsplit : skipBytes (s :: fs) ++ t = s.bytes ++ (skipBytes fs ++ t) := by
        rw [skipBytes, List.flatMap_cons, List.append_assoc]
        rfl
      rw [hsplit, readHeader_skipFrame (by rintro _ ⟨⟩)] at hsame
      rw [← hsame] at hcached
      cases hcached
  · rintro rfl
    have hsame := readHeader_of_cached hpre hlen hheader
    refine ⟨(readHeader t none).1.nRead, (readHeader t none).1.hdr, (readHeader t none).2, ?_, ?_⟩
    · rw [← hheader]
    · have hcached : (readHeader (headerBuf reads) none).1.err = none := by
        rw [hsame]
        exact hheader
      rw [verifyHeader_ok hcached, hsame]
      rfl

/-- A frame and nothing before it. -/
theorem verify_agrees_one_frame : ∃ S : Sched litEngine,
    _verify S (verifyOpts 0 (-1) none) Lz4Frame.lit.bytes [Lz4Frame.lit.bytes]
      = .ok (some [("Frame version", .num 1), ("Dict Identifier", .text "<UNSET>"),
          ("Content size", .text "<UNSET>"), ("Content checksum", .flag false),
          ("Block Size", .text "64KiB"), ("Block Checksum", .flag false),
          ("Block Independence", .flag true)]) := by
  obtain ⟨S⟩ := Sched.nonempty litEngine
  have hmagic : Lz4Frame.lit.bytes.take 4 = lz4FrameMagic := by decide
  have hdel : (newReader (skipBytes [] ++ Lz4Frame.lit.bytes) none
      (verifyOpts 0 (-1) none)).Delivers S [7] .eof :=
    (newReader_delivers_iff _ _ _ _ _ _).mpr (by decide +kernel)
  have hdec := congrArg Prod.snd hdel.writeTo.1
  obtain ⟨-, hdrained⟩ := verifyWriteTo_none hmagic hdec
  have hreads : [Lz4Frame.lit.bytes].flatten ++ (verifyWriteTo S (verifyOpts 0 (-1) none)
      (skipBytes [] ++ Lz4Frame.lit.bytes)).2.src = skipBytes [] ++ Lz4Frame.lit.bytes := by
    rw [hdrained.src]
    decide
  obtain ⟨n, hdr, rest, hread, hok⟩ := (verify_agrees_iff hmagic hdec hreads).mpr rfl
  refine ⟨S, hok.trans ?_⟩
  have hhdr : hdr = (readHeader Lz4Frame.lit.bytes none).1.hdr := by rw [hread]
  rw [hhdr]
  decide +kernel

/-- An empty skip frame before the same frame: the stream is decoded, and the command fails
with the end mark of the skip frame. -/
theorem verify_fails_on_skip : ∃ (S : Sched litEngine) (s : SkipFrame) (reads : List Bytes),
    (newReader (skipBytes [s] ++ Lz4Frame.lit.bytes) none (verifyOpts 0 (-1) none)).Delivers S
      [7] .eof ∧ reads.flatten = skipBytes [s] ++ Lz4Frame.lit.bytes ∧
      _verify S (verifyOpts 0 (-1) none) (skipBytes [s] ++ Lz4Frame.lit.bytes) reads
        = .error (.const .endMark) := by
  obtain ⟨S⟩ := Sched.nonempty litEngine
  have hmagic : Lz4Frame.lit.bytes.take 4 = lz4FrameMagic := by decide
  have hdel : (newReader (skipBytes [⟨0, [], by decide, by decide⟩] ++ Lz4Frame.lit.bytes) none
      (verifyOpts 0 (-1) none)).Delivers S [7] .eof :=
    (newReader_delivers_iff _ _ _ _ _ _).mpr (by decide +kernel)
  have hdec := congrArg Prod.snd hdel.writeTo.1
  obtain ⟨-, hdrained⟩ := verifyWriteTo_none hmagic hdec
  -- the reads of the skip frame, of the header and of the block
  refine ⟨S, ⟨0, [], by decide, by decide⟩,
    [[0x50, 0x2A, 0x4D, 0x18, 0, 0, 0], [0], Lz4Frame.lit.bytes.take 7,
      (Lz4Frame.lit.bytes.drop 7).take 4, Lz4Frame.lit.bytes.drop 11], hdel, by decide, ?_⟩
  rw [_verify_decoded hdec hdrained (by decide)]
  rfl

end Plz4
