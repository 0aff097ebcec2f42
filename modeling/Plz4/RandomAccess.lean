/-
Random access: a Writer's frame read from an offset its progress handler was given.

Where bytes of the frame are skipped, the reader clears the flag for the content checksum
in its copy of the header, and then takes the checksum behind the end mark for the header
of another frame.
-/
import Plz4.RoundTrip

set_option autoImplicit false

namespace Plz4

open LittleEndian Xxh32

variable {Z : Clz4} {seeks : Option SeekT} {o r r' : OptsT} {fs : List Feed} {out : Bytes}
  {progress : List (ℕ × ℕ)}

/-- The pairs given to the progress handler are the places of the blocks, and of the end
mark. -/
theorem mem_marks {s d : ℕ} {ps es : List Bytes} (hlen : ps.length = es.length) {pair : ℕ × ℕ}
    (h : pair ∈ marks s d ps es) :
    ∃ k ≤ ps.length,
      pair = (s + (ps.take k).flatten.length, d + (es.take k).flatten.length) := by
  obtain ⟨k, hk⟩ := List.mem_iff_getElem?.mp h
  have hlt := (List.getElem?_eq_some_iff.mp hk).1
  rw [length_marks _ _ hlen] at hlt
  rw [getElem?_marks _ _ hlen (Nat.le_of_lt_succ hlt), Option.some.injEq] at hk
  exact ⟨k, Nat.le_of_lt_succ hlt, hk.symm⟩

/-- What is left of lists put together from the place of the `k`-th on. -/
theorem drop_flatten {ps : List Bytes} {k : ℕ} :
    ps.flatten.drop (ps.take k).flatten.length = (ps.drop k).flatten := by
  conv_lhs => rw [← List.take_append_drop k ps, List.flatten_append]
  rw [List.take_append_drop, List.drop_left]

/-- A stream too short for a header does not end cleanly. -/
theorem decodeStream_short {src : Bytes} (hne : src ≠ []) (hlt : src.length < lz4MinHeaderSz) :
    (decodeStream Z seeks r src).2 ≠ .eof := by
  have hread : readHeader src r.skipCallback
      = (⟨src.length, .zero, some (.join (.const .errHeaderRead) .unexpectedEOF)⟩, []) := by
    simp only [readHeader, readFull_of_gt hlt, if_neg hne, reduceCtorEq, if_false]
  have hmark : (readHeader src r.skipCallback).1.err ≠ some (.const .endMark) := by
    rw [hread]
    rintro ⟨⟩
  have herr : (openFrame seeks r src).err
      = some (.join (.const .errHeaderRead) .unexpectedEOF) := by
    simp only [openFrame, readHeaders_of_header hmark, hread]
  rw [decodeStream_error herr]
  rintro ⟨⟩

/-- What the content checksum adds to the trailer. -/
def sumTail (xxh : Option UInt32) : Bytes := xxh.elim [] putU32

theorem trailerBytes_eq (xxh : Option UInt32) :
    trailerBytes xxh = trailerBytes none ++ sumTail xxh := rfl

theorem sumTail_contentHash (o : OptsT) (ps : List Bytes) :
    sumTail (contentHash o ps) = [] ↔ o.contentChecksum = false := by
  rw [contentHash]
  rcases hcc : o.contentChecksum with _ | _
  · exact iff_of_true rfl rfl
  · refine iff_of_false ?_ (by rintro ⟨⟩)
    intro hnil
    have hlen := congrArg List.length hnil
    simp only [if_true, sumTail, Option.elim_some, length_putU32, List.length_nil] at hlen
    cases hlen

/-- What is on the wire is not empty. -/
theorem Wire.pos {fr : FrameReader} {dc : Decompressor} {p e : Bytes} (h : Wire Z fr dc p e) :
    0 < e.length := by
  obtain ⟨stored, data, rfl, -⟩ := h
  rw [blkBytes, List.length_append, List.length_append, length_putU32]
  omega

/-- The header in the reader's hand when blocks are skipped makes the same decompressor. -/
theorem readerDc_cleared (hindep : o.blockLinked = false) (hdict : r.dictionary = o.dictionary) :
    readerDc { headerOf o with flags := (headerOf o).flags.clrContentChecksum } r
      = o.decompressor := by
  rw [← readerDc_headerOf hindep hdict]
  obtain ⟨-, -, -, -, hbi⟩ := (headerOf o).flags.clrContentChecksum_spec
  simp only [readerDc, readerDict, hbi]

/-- **From a later block on** the reader gets the content from there, and then sees what the
content checksum adds to the trailer. -/
theorem decodeStream_from (hindep : o.blockLinked = false) (hcodec : Codec Z o)
    (hseek : SeekOk seeks)
    {es : List Bytes} (henc : AsyncWriter.Encodes Z o (pieces o.bsz fs) es) {k : ℕ}
    (hpos : 0 < (es.take k).flatten.length)
    (hoff : r.readOffset = (headerBytes o).length + (es.take k).flatten.length)
    (hask : askDict r (headerOf o) = (none, r')) (hdict : r'.dictionary = o.dictionary) :
    decodeStream Z seeks r (headerBytes o
        ++ (es.flatten ++ trailerBytes (contentHash o (pieces o.bsz fs))))
      = ahead ((pieces o.bsz fs).drop k).flatten (decodeStream Z seeks
        (frameOpts (offsetOpts r' 0 true) (headerOf o))
        (sumTail (contentHash o (pieces o.bsz fs)))) := by
  set ps := pieces o.bsz fs with hps
  set tail := sumTail (contentHash o ps) with htail
  have hread := readHeader_headerBytes o (es.flatten ++ trailerBytes (contentHash o ps))
    r.skipCallback
  obtain ⟨-, -, hbi, -⟩ := headerFlags_spec o
  have hind : (headerOf o).flags.blockIndependence = true := by
    rw [headerOf, hbi, hindep]
    rfl
  have hsplit : es.flatten = (es.take k).flatten ++ (es.drop k).flatten := by
    rw [← List.flatten_append, List.take_append_drop]
  have hle : (es.take k).flatten.length
      ≤ (es.flatten ++ trailerBytes (contentHash o ps)).length := by
    rw [hsplit, List.append_assoc, List.length_append]
    omega
  have hopen : openFrame seeks r _ = _ := openFrame_skip hseek hread hpos hle hind hoff hask
  have hdrop : (es.flatten ++ trailerBytes (contentHash o ps)).drop (es.take k).flatten.length
      = (es.drop k).flatten ++ (trailerBytes none ++ tail) := by
    rw [hsplit, List.append_assoc, List.drop_left, trailerBytes_eq]
  rw [hdrop] at hopen
  -- the blocks from there on are on the wire
  obtain ⟨-, hdict', -, hskip, -⟩ := frameOpts_fields (offsetOpts r' 0 true) (headerOf o)
  obtain ⟨hcc, -, -, hbc, -⟩ := (headerOf o).flags.clrContentChecksum_spec
  set hdr : HeaderT := { headerOf o with flags := (headerOf o).flags.clrContentChecksum } with hhdr
  have hbsz := o.bsz_bounds.2
  have hframe := readerFrame_headerOf o
  have hsize : (readerFrame hdr).bsz = o.bsz := congrArg FrameReader.bsz hframe
  have hcheck : (readerFrame hdr).blkCheck = o.blockChecksum := by
    have hsame : (readerFrame hdr).blkCheck = (readerFrame (headerOf o)).blkCheck := hbc
    rw [hsame, hframe]
    rfl
  have hwire := henc.wire hindep hcodec (fun p hp => (mem_pieces o.bsz_pos hp).2)
    (readerFrame hdr) hsize hcheck
  rw [← readerDc_cleared (r := frameOpts (offsetOpts r' 0 true) (headerOf o)) hindep
    (hdict'.trans hdict)] at hwire
  have hlt : (readerFrame hdr).bsz < 2 ^ 31 := by
    rw [hsize]
    omega
  have hsum : hdr.flags.contentChecksum = false := hcc
  have huse : useHasher hdr (frameOpts (offsetOpts r' 0 true) (headerOf o)) ≠ true := by
    rw [useHasher, hsum, Bool.false_and, Bool.false_and]
    exact Bool.false_ne_true
  obtain ⟨hend, hbytes, hrest⟩ := frameSession_wire hlt (List.forall₂_drop k hwire) none hcc
    (fun h => absurd h huse) tail
  have hsz : sizeErr (frameOpts (offsetOpts r' 0 true) (headerOf o))
      (UInt64.ofNat (ps.drop k).flatten.length) = none := by
    rw [sizeErr_eq_none, hskip]
    exact .inl rfl
  rw [decodeStream_next hopen rfl rfl hend (by rw [hbytes]; exact hsz), hbytes, hrest]

/-- The offset of a block is that of the first one exactly if nothing is in front of it. -/
theorem flatten_take_eq_nil {fr : FrameReader} {dc : Decompressor} {ps es : List Bytes}
    (h : List.Forall₂ (Wire Z fr dc) ps es) {k : ℕ} (hzero : (es.take k).flatten.length = 0) :
    (ps.take k).flatten = [] := by
  cases h with
  | nil => rw [List.take_nil, List.flatten_nil]
  | cons hwire _ =>
      cases k with
      | zero => rfl
      | succ k =>
          rw [List.take_succ_cons, List.flatten_cons, List.length_append] at hzero
          have hpos := hwire.pos
          omega

/-- **Random access.** A Reader that starts at a place the progress handler was given
delivers the content from there and then the clean end of the stream, exactly if the frame
has no content checksum or the place is that of the first block. -/
theorem newReader_random_access_iff (hindep : o.blockLinked = false) (hcodec : Codec Z o)
    (hsz : ∀ sz, o.contentSz = some sz → sz = UInt64.ofNat (content fs).length)
    (hout : Output Z o fs out progress) {s d : ℕ} (hpair : (s, d) ∈ progress) (S : Sched Z)
    (hseek : SeekOk seeks) (hoff : r.readOffset = d) (hask : askDict r (headerOf o) = (none, r'))
    (hdict : r'.dictionary = o.dictionary)
    (hrsz : ∀ sz, r.contentSz = some sz → sz = UInt64.ofNat (content fs).length) :
    (newReader out seeks r).Delivers S ((content fs).drop s) .eof
      ↔ o.contentChecksum = false ∨ d = (headerBytes o).length := by
  rw [newReader_delivers_iff]
  obtain ⟨es, henc, hbytes, hprogress⟩ := hout.spec hindep
  rw [hprogress] at hpair
  obtain ⟨k, -, heq⟩ := mem_marks henc.length.symm hpair
  rw [Nat.zero_add, Prod.mk.injEq] at heq
  obtain ⟨rfl, rfl⟩ := heq
  have hwire := henc.wire hindep hcodec (fun p hp => (mem_pieces o.bsz_pos hp).2)
    (newFrameReader o.bsz o.contentChecksum o.blockChecksum) rfl rfl
  rcases Nat.eq_zero_or_pos (es.take k).flatten.length with hzero | hpos
  · -- from the first block on
    rw [flatten_take_eq_nil hwire hzero, hzero, Nat.add_zero]
    rw [hzero, Nat.add_zero] at hoff
    refine iff_of_true ?_ (.inr rfl)
    exact decodeStream_written hindep hcodec hsz hout (.inr hoff) hask hdict hrsz
  · have hdec : decodeStream Z seeks r _ = _ := decodeStream_from hindep hcodec hseek henc hpos
      (hoff.trans (Nat.cast_add _ _)) hask hdict
    rw [← List.append_assoc, ← hbytes] at hdec
    have hcontent : ((pieces o.bsz fs).drop k).flatten
        = (content fs).drop ((pieces o.bsz fs).take k).flatten.length := by
      rw [← flatten_pieces o.bsz_pos fs]
      exact drop_flatten.symm
    have hne : ¬ (headerBytes o).length + (es.take k).flatten.length = (headerBytes o).length := by
      omega
    rw [hdec, hcontent, or_iff_left hne, ← sumTail_contentHash o (pieces o.bsz fs)]
    constructor
    · intro h
      -- the hash is not read from there on, so its four bytes are taken for a header
      by_contra htail
      have hshort : (sumTail (contentHash o (pieces o.bsz fs))).length < lz4MinHeaderSz := by
        rw [contentHash]
        split_ifs
        · rw [sumTail, Option.elim_some, length_putU32]
          decide
        · decide
      rw [ahead, Prod.mk.injEq] at h
      exact decodeStream_short htail hshort h.2
    · intro htail
      rw [htail, decodeStream_nil, ahead, List.append_nil]

/-- Options without the content checksum. -/
def OptsT.noSum : OptsT := { sync64KB with contentChecksum := false }

/-- What the synchronous writer of the engine of literals puts out. -/
theorem output_lit (o : OptsT) (hsync : usesSyncWriter o = true) (fs : List Feed) :
    Output litEngine o fs
      (headerBytes o ++ (encoded litEngine o (pieces o.bsz fs)).1.flatten
        ++ trailerBytes (contentHash o (pieces o.bsz fs)))
      (marks 0 (headerBytes o).length (pieces o.bsz fs)
        (encoded litEngine o (pieces o.bsz fs)).1) := by
  have hindep : o.blockLinked = false := by
    rw [usesSyncWriter, Bool.and_eq_true, Bool.not_eq_true'] at hsync
    exact hsync.2
  set buf : PoolBlk o.bsz := ⟨List.replicate o.bsz 0, List.length_replicate⟩ with hbuf
  obtain ⟨rs, w, hrun, -, hclosed⟩ :=
    SyncWriter.runCalls_spec (SyncWriter.live_new (Z := litEngine) o buf) rfl hindep fs
  have hout : Output litEngine o fs _ _ := .sync hsync buf
  rw [hrun, hclosed.passed, hclosed.progress] at hout
  exact hout

/-- Without the content checksum a Reader can start at the second of two blocks. -/
theorem newReader_random_access_no_sum :
    ∃ out progress, Output litEngine .noSum [.write [7], .flush, .write [8, 9]] out progress
      ∧ (1, 13) ∈ progress ∧ ∀ S : Sched litEngine,
        (newReader out (some seekOk) (offsetOpts .default 13 false)).Delivers S [8, 9] .eof := by
  have hout := output_lit .noSum rfl [.write [7], .flush, .write [8, 9]]
  have hpair : (1, 13) ∈ marks 0 (headerBytes .noSum).length
      (pieces OptsT.noSum.bsz [.write [7], .flush, .write [8, 9]])
      (encoded litEngine .noSum
        (pieces OptsT.noSum.bsz [.write [7], .flush, .write [8, 9]])).1 := by
    decide +kernel
  refine ⟨_, _, hout, hpair, fun S => ?_⟩
  have hiff := newReader_random_access_iff (r := offsetOpts .default 13 false) rfl
    (codec_litEngine _) (by rintro _ ⟨⟩) hout hpair S .ok rfl rfl rfl (by rintro _ ⟨⟩)
  exact hiff.mpr (.inl rfl)

/-- With it the checksum behind the end mark is taken for a header. -/
theorem newReader_random_access_sum :
    ∃ out progress, Output litEngine .sync64KB [.write [7]] out progress ∧ (1, 13) ∈ progress
      ∧ ∀ S : Sched litEngine,
        ¬ (newReader out (some seekOk) (offsetOpts .default 13 false)).Delivers S
        ((content [.write [7]]).drop 1) .eof := by
  have hout := output_lit .sync64KB rfl [.write [7]]
  refine ⟨_, _, hout, by decide +kernel, fun S => ?_⟩
  rw [newReader_delivers_iff]
  have hdec : (decodeStream litEngine (some seekOk) (offsetOpts .default 13 false)
      (headerBytes .sync64KB
      ++ (encoded litEngine .sync64KB (pieces OptsT.sync64KB.bsz [.write [7]])).1.flatten
      ++ trailerBytes (contentHash .sync64KB (pieces OptsT.sync64KB.bsz [.write [7]])))).2
        = .join (.const .errHeaderRead) .unexpectedEOF := by decide +kernel
  intro h
  rw [h] at hdec
  cases hdec

end Plz4
