/-
What a Writer of independent blocks puts out, a Reader takes apart.

The two halves meet at `Wire`: the writer makes of each block of the content bytes that
are on the wire in this sense, and the reader makes of such bytes the blocks again, from
the first block on or from a later one.
-/
import Plz4.AsyncWriterFrame
import Plz4.ReadOffset

set_option autoImplicit false

namespace Plz4

open LittleEndian Xxh32

variable {Z : Clz4} {S : Sched Z} {seeks : Option SeekT} {o r r' : OptsT} {fs : List Feed}
  {out : Bytes} {progress : List (ℕ × ℕ)}

/-! ## What a Writer puts out -/

/-- What the destination and the progress handler of a Writer have when the calls that
feed it, and `Close`, have returned. -/
inductive Output (Z : Clz4) (o : OptsT) (fs : List Feed) : Bytes → List (ℕ × ℕ) → Prop
  | sync (hsync : usesSyncWriter o = true) (buf : PoolBlk o.bsz) :
      Output Z o fs (passed ((newSyncWriter Z o buf).runCalls .ok (Feed.script fs)).2.calls)
        ((newSyncWriter Z o buf).runCalls .ok (Feed.script fs)).2.progress
  | async (hpar : 0 < o.nParallel) {as : List AsyncWriter.Act} {s : AsyncWriter Z}
      (hrun : Machine.run (AsyncWriter.step ⟨o, .ok⟩) (newAsyncWriter Z o (Feed.script fs)) as
        = some s)
      (hfin : s.Finished) : Output Z o fs (passed s.calls) s.progress

/-- **One frame**, whichever writer it comes from. -/
theorem Output.spec (hindep : o.blockLinked = false) (h : Output Z o fs out progress) :
    ∃ es, AsyncWriter.Encodes Z o (pieces o.bsz fs) es
      ∧ out = headerBytes o ++ es.flatten ++ trailerBytes (contentHash o (pieces o.bsz fs))
      ∧ progress = marks 0 (headerBytes o).length (pieces o.bsz fs) es := by
  cases h with
  | sync hsync buf =>
      obtain ⟨rs, w, hrun, -, hclosed⟩ :=
        SyncWriter.runCalls_spec (SyncWriter.live_new (Z := Z) o buf) rfl hindep fs
      have hps : ([] ++ segmentsFrom [] fs).flatMap (Cut.cut o.bsz) = pieces o.bsz fs := rfl
      rw [hps] at hclosed
      rw [hrun]
      exact ⟨_, encodes_encoded Z hindep _, hclosed.passed, hclosed.progress⟩
  | async hpar hrun hfin =>
      have hmade := (AsyncWriter.sound_run (c := ⟨o, .ok⟩) hpar hrun).values.encodes_ok
        (makesAll_of_opts (.inl hindep))
      exact AsyncWriter.finished_run (c := ⟨o, .ok⟩) rfl hpar hrun hmade hfin

/-! ## Blocks on the wire -/

/-- The bytes `e` of a block: stored or compressed, they bring `p` back. -/
def Wire (Z : Clz4) (fr : FrameReader) (dc : Decompressor) (p e : Bytes) : Prop :=
  ∃ stored data, e = blkBytes stored data fr.blkCheck ∧ (stored = true ∨ data ≠ [])
    ∧ data.length ≤ fr.bsz
    ∧ ∀ n, decodeFrame Z fr.bsz dc ⟨data, n, stored⟩ = (.ok p, dc)

/-- Blocks on the wire and the trailer are parsed up to the end mark, from any of them on. -/
theorem parseFrames_wire {fr : FrameReader} {dc : Decompressor} (hbsz : fr.bsz < 2 ^ 31)
    {ps es : List Bytes} (h : List.Forall₂ (Wire Z fr dc) ps es) {xxh : Option UInt32}
    (hsum : fr.srcCheck = xxh.isSome) :
    ∃ frames, (∀ t, parseFrames fr (es.flatten ++ (trailerBytes xxh ++ t))
        = ⟨frames, .const .endMark, { fr with srcSum := xxh.getD fr.srcSum }, t⟩)
      ∧ decodeAll Z fr.bsz dc frames
        = (ps.zip (es.map List.length)).map (fun b => (.ok b.1, b.2)) := by
  induction h with
  | nil => exact ⟨[], fun t => parseFrames_error (read_trailerBytes fr t hsum), rfl⟩
  | @cons p e ps es hwire _ ih =>
      obtain ⟨frames, hparse, hdec⟩ := ih
      obtain ⟨stored, data, rfl, hpos, hlen, hframe⟩ := hwire
      refine ⟨⟨data, (blkBytes stored data fr.blkCheck).length, stored⟩ :: frames, fun t => ?_, ?_⟩
      · have hread := read_blkBytes fr stored (es.flatten ++ (trailerBytes xxh ++ t)) hlen hbsz hpos
        rw [List.flatten_cons, List.append_assoc, parseFrames_ok hread, hparse]
      · rw [decodeAll, hframe, hdec]
        rfl

/-- What a block reader makes of blocks on the wire. -/
theorem frameSession_wire {hdr : HeaderT} (hbsz : (readerFrame hdr).bsz < 2 ^ 31)
    {ps es : List Bytes} (h : List.Forall₂ (Wire Z (readerFrame hdr) (readerDc hdr r)) ps es)
    (xxh : Option UInt32) (hsum : hdr.flags.contentChecksum = xxh.isSome)
    (hhash : useHasher hdr r = true → xxh = some (hashAll ps).sum32) (t : Bytes) :
    (frameSession Z hdr r (es.flatten ++ (trailerBytes xxh ++ t))).endErr = .const .endMark
      ∧ (frameSession Z hdr r (es.flatten ++ (trailerBytes xxh ++ t))).bytes = ps.flatten
      ∧ (frameSession Z hdr r (es.flatten ++ (trailerBytes xxh ++ t))).rest = t := by
  obtain ⟨frames, hparse, hdec⟩ := parseFrames_wire hbsz h hsum
  have hfst : (ps.zip (es.map List.length)).map Prod.fst = ps := by
    apply List.map_fst_zip
    rw [List.length_map, h.length_eq]
  rw [frameSession, hparse, hdec]
  refine ⟨?_, ?_, sessionOf_rest _ _ _⟩
  · rw [sessionOf_checkSum, hfst]
    by_cases huse : useHasher hdr r = true
    · have hval := hhash huse
      rw [if_pos huse, Option.map_some, hval]
      simp only [checkSum, if_true, Option.getD_some, hashAll, ne_eq, not_true, if_false]
    · rw [if_neg huse]
      rfl
  · rw [Session.bytes, sessionOf_blks, List.flatMap_def, hfst]

/-! ## What the writer makes of the content is on the wire -/

/-- The decompressor for the dictionary of the options. -/
def OptsT.decompressor (o : OptsT) : Decompressor :=
  newDecompressor true (o.dictionary.map (fun d => newDictT d false))

/-- The engine decodes what it has compressed, with the same dictionary and room for it. -/
def Codec (Z : Clz4) (o : OptsT) : Prop :=
  ∀ cmp, (o.newCompressorFactory Z).Reach cmp → ∀ src out n, src.length ≤ n →
    (cmp.compress src o.bsz none).1 = .ok out → o.decompressor.decode Z out n = .ok src

/-- The reader makes the same decompressor of the header and the dictionary. -/
theorem readerDc_headerOf (hindep : o.blockLinked = false) (hdict : r.dictionary = o.dictionary) :
    readerDc (headerOf o) r = o.decompressor := by
  obtain ⟨-, -, hbi, -⟩ := headerFlags_spec o
  have hflag : (headerOf o).flags.blockIndependence = true := by
    rw [headerOf, hbi, hindep]
    rfl
  rw [readerDc, readerDict, hflag, hdict, OptsT.decompressor]
  rcases o.dictionary with _ | d <;> rfl

theorem readerFrame_headerOf (o : OptsT) :
    readerFrame (headerOf o) = newFrameReader o.bsz o.contentChecksum o.blockChecksum := by
  obtain ⟨-, -, -, hbc, hcc, -⟩ := headerFlags_spec o
  rw [readerFrame, headerOf, hbc, hcc, (Block.setIdx_spec o.idx_valid).2]
  rfl

theorem OptsT.decompressor_not_linked (o : OptsT) : o.decompressor.linked = false := by
  rw [OptsT.decompressor]
  rcases o.dictionary with _ | d <;> rfl

/-- **Stored or compressed, the blocks are on the wire.** -/
theorem AsyncWriter.Encodes.wire {ps es : List Bytes} (h : AsyncWriter.Encodes Z o ps es)
    (hindep : o.blockLinked = false) (hcodec : Codec Z o) (hps : ∀ p ∈ ps, p.length ≤ o.bsz)
    (fr : FrameReader) (hbsz : fr.bsz = o.bsz) (hcheck : fr.blkCheck = o.blockChecksum) :
    List.Forall₂ (Wire Z fr o.decompressor) ps es := by
  rw [List.forall₂_iff_get]
  refine ⟨h.length.symm, fun k hk hk' => ?_⟩
  obtain ⟨cmp, hreach, hmade⟩ := h.made k (ps.get ⟨k, hk⟩) (es.get ⟨k, hk'⟩)
    (List.getElem?_eq_getElem hk) (List.getElem?_eq_getElem hk')
  have hlen := hps _ (List.get_mem ps ⟨k, hk⟩)
  have htags := (Compressor.tags_iff cmp).mpr ((OptsT.isLinkedHC_of_reach hreach).mpr (.inl hindep))
  have hdict : dictFor o ps k = none := by
    rw [dictFor, hindep]
    rfl
  obtain ⟨stored, data, hblk, hbytes⟩ := compressToBlk_spec htags hlen o.blockChecksum none
  rw [hdict, hbytes, Except.ok.injEq] at hmade
  rw [← hmade, ← hcheck]
  refine ⟨stored, data, rfl, ?_, hbsz ▸ hblk.length_le, fun n => ?_⟩
  · rcases hs : stored with _ | _
    · exact .inr (hblk.of_compressed hs).1
    · exact .inl rfl
  · rw [decodeFrame]
    rcases hs : stored with _ | _
    · -- a compressed block, in a buffer longer than the block size
      have hroom : (ps.get ⟨k, hk⟩).length ≤ fr.bsz + szOverhead := by
        rw [hbsz]
        exact Nat.le_trans hlen (Nat.le_add_right _ _)
      have hdec := hcodec cmp hreach _ data _ hroom (hblk.of_compressed hs).2
      have hsame := Decompressor.after_of_not_linked o.decompressor_not_linked (ps.get ⟨k, hk⟩)
      simp only [Bool.false_eq_true, if_false, blkDecompress]
      rw [Decompressor.decompress_ok hdec, hsame]
    · simp only [if_true]
      rw [hblk.of_stored hs]

/-- The trailer has the sum the reader computes, if it computes one. -/
theorem contentHash_of_useHasher {ps : List Bytes}
    (h : useHasher (headerOf o) r = true) : contentHash o ps = some (hashAll ps).sum32 := by
  obtain ⟨-, -, -, -, hcc, -⟩ := headerFlags_spec o
  rw [useHasher, Bool.and_eq_true, Bool.and_eq_true, headerOf, hcc] at h
  rw [contentHash, if_pos h.1.1]

theorem isSome_contentHash (o : OptsT) (ps : List Bytes) :
    (headerOf o).flags.contentChecksum = (contentHash o ps).isSome := by
  obtain ⟨-, -, -, -, hcc, -⟩ := headerFlags_spec o
  rw [headerOf, hcc, contentHash]
  cases o.contentChecksum <;> rfl

/-- The size the reader checks is that of the content, where the options have it right. -/
theorem sizeErr_headerOf {n : UInt64} (hsz : ∀ sz, o.contentSz = some sz → sz = n)
    (hrsz : ∀ sz, r.contentSz = some sz → sz = n) : sizeErr (frameOpts r (headerOf o)) n = none := by
  obtain ⟨-, -, -, -, -, -, hfield⟩ := frameOpts_fields r (headerOf o)
  obtain ⟨-, -, -, -, -, hcs, -⟩ := headerFlags_spec o
  have hflag : (headerOf o).flags.contentSize = o.contentSz.isSome := hcs
  have hval : (headerOf o).contentSz = o.contentSz.getD 0 := rfl
  rw [sizeErr_eq_none, hfield, hflag, hval]
  rcases ho : o.contentSz with _ | sz
  · rcases hr : r.contentSz with _ | sz
    · exact .inr (.inl rfl)
    · exact .inr (.inr (congrArg some (hrsz sz hr)))
  · exact .inr (.inr (congrArg some (hsz sz ho)))

/-! ## Round trip -/

/-- **A Writer's frame read from its first block on.** -/
theorem decodeStream_written (hindep : o.blockLinked = false) (hcodec : Codec Z o)
    (hsz : ∀ sz, o.contentSz = some sz → sz = UInt64.ofNat (content fs).length)
    (hout : Output Z o fs out progress)
    (hoff : r.readOffset = 0 ∨ r.readOffset = (headerBytes o).length)
    (hask : askDict r (headerOf o) = (none, r')) (hdict : r'.dictionary = o.dictionary)
    (hrsz : ∀ sz, r.contentSz = some sz → sz = UInt64.ofNat (content fs).length) :
    decodeStream Z seeks r out = (content fs, .eof) := by
  obtain ⟨es, henc, rfl, -⟩ := hout.spec hindep
  set ps := pieces o.bsz fs with hps
  have hread := readHeader_headerBytes o (es.flatten ++ (trailerBytes (contentHash o ps) ++ []))
    r.skipCallback
  have hopen : openFrame seeks r _ = _ := openFrame_noop hread hoff hask
  obtain ⟨-, hdict', -, -⟩ := frameOpts_fields r' (headerOf o)
  have hbsz := o.bsz_bounds.2
  have hframe := readerFrame_headerOf o
  have hwire := henc.wire hindep hcodec (fun p hp => (mem_pieces o.bsz_pos hp).2)
    (readerFrame (headerOf o)) (by rw [hframe]; rfl) (by rw [hframe]; rfl)
  rw [← readerDc_headerOf (r := frameOpts r' (headerOf o)) hindep (hdict'.trans hdict)] at hwire
  have hlt : (readerFrame (headerOf o)).bsz < 2 ^ 31 := by
    rw [hframe]
    change o.bsz < _
    omega
  obtain ⟨hend, hbytes, hrest⟩ := frameSession_wire hlt hwire _ (isSome_contentHash o ps)
    (fun h => contentHash_of_useHasher h) []
  rw [hps, flatten_pieces o.bsz_pos] at hbytes
  have hcsz : r'.contentSz = r.contentSz := by
    have hsame := (askDict_fields r (headerOf o)).2.2.2.1
    rwa [hask] at hsame
  have hsize := sizeErr_headerOf (r := r') hsz (by rwa [hcsz])
  rw [List.append_assoc, ← List.append_nil (trailerBytes _),
    decodeStream_next hopen rfl rfl hend (by rw [hbytes]; exact hsize), hbytes, hrest,
    decodeStream_nil, ahead, List.append_nil]

/-- **Frame round trip.** For an engine that decodes what it has compressed, a Reader with
the same dictionary delivers the content that was fed to the Writer, and then the clean
end of the stream. -/
theorem newReader_round_trip (hindep : o.blockLinked = false) (hcodec : Codec Z o)
    (hsz : ∀ sz, o.contentSz = some sz → sz = UInt64.ofNat (content fs).length)
    (hout : Output Z o fs out progress) (S : Sched Z) (seeks : Option SeekT)
    (hoff : r.readOffset = 0)
    (hask : askDict r (headerOf o) = (none, r')) (hdict : r'.dictionary = o.dictionary)
    (hrsz : ∀ sz, r.contentSz = some sz → sz = UInt64.ofNat (content fs).length) :
    (newReader out seeks r).Delivers S (content fs) .eof := by
  rw [newReader_delivers_iff]
  exact decodeStream_written hindep hcodec hsz hout (.inl hoff) hask hdict hrsz

/-- The engine of literals decodes what it has compressed. -/
theorem codec_litEngine (o : OptsT) : Codec litEngine o := by
  intro cmp _ src out n hlen hout
  have hret : lz4Ret (litEncode src o.bsz) = .ok out := by
    cases cmp with
    | linkedHC ctx => exact hout
    | _ => exact joinCompress_ok hout
  obtain ⟨rfl, hne⟩ := lz4Ret_ok hret
  have hdec := litDecode_litEncode hne hlen
  rw [OptsT.decompressor]
  rcases o.dictionary with _ | d <;> exact hdec

/-- Every Writer comes to an end. -/
theorem exists_output (Z : Clz4) (hindep : o.blockLinked = false)
    (hsz : 0 < o.nParallel → ∀ sz, o.contentSz = some sz → sz.toNat < 2 ^ 63) (fs : List Feed) :
    ∃ out progress, Output Z o fs out progress := by
  rcases Nat.eq_zero_or_pos o.nParallel with hzero | hpar
  · have hsync : usesSyncWriter o = true := by
      rw [usesSyncWriter, hzero, hindep]
      rfl
    exact ⟨_, _, .sync hsync ⟨List.replicate o.bsz 0, List.length_replicate⟩⟩
  · have hlower : ∀ (s : AsyncWriter Z) a s', True →
        (AsyncWriter.Sound ⟨o, .ok⟩ s ∧ AsyncWriter.Room ⟨o, .ok⟩ s ∧ AsyncWriter.Ends s
          ∧ s.tasks ≠ []) → AsyncWriter.step ⟨o, .ok⟩ s a = some s' →
        (AsyncWriter.Sound ⟨o, .ok⟩ s' ∧ AsyncWriter.Room ⟨o, .ok⟩ s' ∧ AsyncWriter.Ends s'
          ∧ s'.tasks ≠ []) ∧ s'.fuel < s.fuel := by
      rintro s a s' - ⟨hs, hr, he, ht⟩ hstep
      have hst := AsyncWriter.step_spec hstep
      exact ⟨⟨hs.step hst, hr.step hst, he.step hst, AsyncWriter.tasks_step hst ht⟩,
        AsyncWriter.fuel_step hr he.caller hst⟩
    have hmove : ∀ s : AsyncWriter Z, (AsyncWriter.Sound ⟨o, .ok⟩ s ∧ AsyncWriter.Room ⟨o, .ok⟩ s
        ∧ AsyncWriter.Ends s ∧ s.tasks ≠ []) → ¬ s.Finished →
        ∃ a, True ∧ (AsyncWriter.step ⟨o, .ok⟩ s a).isSome = true := by
      rintro s ⟨hs, -, -, ht⟩ hfin
      have hmade := hs.values.encodes_ok (makesAll_of_opts (.inl hindep))
      obtain ⟨a, ha⟩ := hs.moves hpar ht (hs.not_crashed hmade) hfin
      exact ⟨a, trivial, ha⟩
    have htasks : (newAsyncWriter Z o (Feed.script fs)).tasks ≠ [] :=
      AsyncWriter.tasks_newAsyncWriter Z (AsyncWriter.initTasks_pos hpar (hsz hpar)) _
    obtain ⟨as, s, -, hrun, hfin⟩ := Machine.exists_run AsyncWriter.fuel hlower hmove
      ⟨AsyncWriter.sound_newAsyncWriter Z ⟨o, .ok⟩ (Feed.script fs) hpar,
        AsyncWriter.room_newAsyncWriter Z ⟨o, .ok⟩ _,
        AsyncWriter.sources_newAsyncWriter Z o (Feed.readFrom_script fs), htasks⟩
    exact ⟨_, _, .async hpar hrun hfin⟩

/-- Two writes with a flush between them, through a writer of either kind. -/
theorem newReader_round_trip_two_writes :
    (∃ out progress, Output litEngine .sync64KB [.write [1, 2], .flush, .write [3]] out progress
      ∧ ∀ S : Sched litEngine, (newReader out none .default).Delivers S [1, 2, 3] .eof)
    ∧ ∃ out progress, Output litEngine .default [.write [1, 2], .flush, .write [3]] out progress
      ∧ ∀ S : Sched litEngine,
        (newReader out (some seekOk) .sync64KB).Delivers S [1, 2, 3] .eof := by
  have hcontent : content [.write [1, 2], .flush, .write [3]] = [1, 2, 3] := by decide
  obtain ⟨out, progress, hsync⟩ := exists_output litEngine (o := .sync64KB) rfl (by rintro ⟨⟩)
    [.write [1, 2], .flush, .write [3]]
  obtain ⟨out', progress', hasync⟩ := exists_output litEngine (o := .default) rfl
    (by rintro - _ ⟨⟩) [.write [1, 2], .flush, .write [3]]
  refine ⟨⟨out, progress, hsync, fun S => ?_⟩, out', progress', hasync, fun S => ?_⟩
  · rw [← hcontent]
    exact newReader_round_trip rfl (codec_litEngine _) (by rintro _ ⟨⟩) hsync S none rfl rfl rfl
      (by rintro _ ⟨⟩)
  · rw [← hcontent]
    exact newReader_round_trip rfl (codec_litEngine _) (by rintro _ ⟨⟩) hasync S (some seekOk)
      rfl rfl rfl (by rintro _ ⟨⟩)

end Plz4
