/-
What a `Reader` is to deliver: the decoding of a stream, frame after frame.

`decodeStream` knows nothing of block readers, of buffers or of the sizes of reads.
`ReaderSpec` connects the reader to it.
-/
import Plz4.Reader
import Plz4.HeaderSpec
import Plz4.SkipSpec

set_option autoImplicit false

namespace Plz4

open Xxh32 LittleEndian

variable {Z : Clz4}

/-! ## Sessions -/

/-- The results say all of a session but the source left. -/
theorem Session.results_injective {s t : Session} (h : s.results = t.results) :
    s.blks = t.blks ∧ s.endCnt = t.endCnt ∧ s.endErr = t.endErr := by
  rw [results, results] at h
  have hlen := congrArg List.length h
  simp only [List.length_append, List.length_map, List.length_singleton] at hlen
  obtain ⟨hblks, hlast⟩ := List.append_inj h (by rw [List.length_map, List.length_map]; omega)
  have hinj : Function.Injective (fun b : Bytes × ℕ => (⟨some b.1, b.2, none⟩ : NextRes)) := by
    rintro ⟨b, n⟩ ⟨b', n'⟩ hb
    simp only [NextRes.mk.injEq, Option.some.injEq, and_true] at hb
    exact Prod.ext hb.1 hb.2
  simp only [List.cons.injEq, NextRes.mk.injEq, Option.some.injEq, true_and, and_true] at hlast
  exact ⟨List.map_injective_iff.mpr hinj hblks, hlast⟩

/-- **Both block readers have the session of the frame.** -/
theorem Sched.blkSession_same (S : Sched Z) {hdr : HeaderT} {o : OptsT} {src : Bytes}
    (hone : 0 < o.nParallel → hdr.flags.blockIndependence = false → o.nParallel = 1) :
    (S.blkSession hdr o src).Same (frameSession Z hdr o src) := by
  rw [blkSession]
  by_cases hpar : o.nParallel = 0
  · rw [if_pos hpar]
    exact syncSession_same Z hdr o src
  · rw [if_neg hpar]
    have hpos := Nat.pos_of_ne_zero hpar
    obtain ⟨as, s, hclose, hrun, hcons, hres, hsrc⟩ := S.runs hdr o src hpos (hone hpos)
    have href := newAsyncReader_refines Z hdr o src hpos (hone hpos) hrun
    obtain ⟨hall, hrest⟩ := (href.2 hclose).2.2 hcons
    obtain ⟨hblks, hcnt, herr⟩ := Session.results_injective (hres.symm.trans hall)
    have hsame : (S.session hdr o src).Same (syncSession Z hdr o src) :=
      ⟨hblks, hcnt, herr, fun he => hsrc.symm.trans (hrest (herr ▸ he))⟩
    exact hsame.trans (syncSession_same Z hdr o src)

/-- Schedules exist: a run that has not ended can go on, and not for ever. -/
theorem exists_asyncSession (Z : Clz4) {hdr : HeaderT} {o : OptsT} (src : Bytes)
    (hpar : 0 < o.nParallel) (hone : hdr.flags.blockIndependence = false → o.nParallel = 1) :
    ∃ t, IsAsyncSession Z hdr o src t := by
  have hinit : AsyncReader.Serves (readerJob Z hdr o src) (newAsyncReader src hdr o) :=
    newAsyncReader_serves hpar hone
  obtain ⟨as, s, has, hrun, hcons⟩ := Machine.exists_run
    (I := AsyncReader.Serves (readerJob Z hdr o src)) (E := fun s => s.cons = .ended)
    (P := fun a => a ≠ AsyncReader.Act.close)
    (AsyncReader.fuel (readerJob Z hdr o src))
    (fun _ _ _ hne hs hstep => ⟨hs.step hne hstep,
      AsyncReader.fuel_step hs.feeds hs.delivers hne (AsyncReader.step_spec hstep)⟩)
    (fun s hs hdone => hs.live.moves hs.feeds hs.delivers (hpar.trans_le o.le_calcPending) hpar
      hdone) hinit
  have hclose : .close ∉ as := fun hmem => has _ hmem rfl
  obtain ⟨hres, -⟩ := ((newAsyncReader_refines Z hdr o src hpar hone hrun).2 hclose).2.2 hcons
  exact ⟨{ syncSession Z hdr o src with rest := s.src }, as, s, hclose, hrun, hcons, hres, rfl⟩

theorem Sched.nonempty (Z : Clz4) : Nonempty (Sched Z) := by
  classical
  have hall : ∀ (hdr : HeaderT) (o : OptsT) (src : Bytes), ∃ t : Session, 0 < o.nParallel →
      (hdr.flags.blockIndependence = false → o.nParallel = 1) →
      IsAsyncSession Z hdr o src t := by
    intro hdr o src
    by_cases h : 0 < o.nParallel ∧ (hdr.flags.blockIndependence = false → o.nParallel = 1)
    · obtain ⟨t, ht⟩ := exists_asyncSession Z src h.1 h.2
      exact ⟨t, fun _ _ => ht⟩
    · exact ⟨⟨[], 0, .eof, []⟩, fun hpar hone => absurd ⟨hpar, hone⟩ h⟩
  choose session hsession using hall
  exact ⟨⟨session, hsession⟩⟩

/-! ## What is consumed -/

theorem readFull_length_le (src : Bytes) (n : ℕ) : (readFull src n).2.length ≤ src.length - n := by
  by_cases hn : n ≤ src.length
  · rw [readFull_of_le hn]
    exact (List.length_drop).le
  · rw [readFull_of_gt (by omega)]
    exact Nat.zero_le _

theorem skipBody_length_le (src : Bytes) (cb : Option SkipCallbackT) (nibble : UInt8)
    (sz : UInt32) : (skipBody src cb nibble sz).2.length ≤ src.length := by
  rcases cb with _ | cb
  · simp only [skipBody, copyN]
    split_ifs
    · rw [List.length_drop]
      omega
    · exact Nat.zero_le _
  · simp only [skipBody, List.length_drop]
    omega

theorem maybeSkipFrame_length_le (src hdr : Bytes) (cb : Option SkipCallbackT) :
    (maybeSkipFrame src hdr cb).2.length ≤ src.length := by
  have hread := readFull_length_le src 1
  simp only [maybeSkipFrame]
  split_ifs
  · exact le_rfl
  · rcases hr : readFull src 1 with ⟨⟨b, _ | e⟩, rest⟩ <;> rw [hr] at hread <;> simp only at hread ⊢
    · have hbody := skipBody_length_le rest cb (getU32 (hdr.take 4) &&& 0xF).toUInt8
        (getU32 ((hdr ++ b).drop 4))
      split <;> simp only <;> omega
    · omega

theorem readDictId_length_le (hdr : HeaderT) (hdrBytes src : Bytes) :
    (readDictId hdr hdrBytes src).2.length ≤ src.length := by
  have hread := readFull_length_le src 4
  simp only [readDictId]
  split_ifs
  · rcases hr : readFull src 4 with ⟨⟨b, _ | e⟩, rest⟩ <;> rw [hr] at hread <;> simp only at hread ⊢ <;>
      omega
  · exact le_rfl

theorem readContentSz_length_le (hdr : HeaderT) (hdrBytes src : Bytes) :
    (readContentSz hdr hdrBytes src).2.length ≤ src.length := by
  have hread := readFull_length_le src 8
  simp only [readContentSz]
  split_ifs
  · rcases hr : readFull src 8 with ⟨⟨b, _ | e⟩, rest⟩ <;> rw [hr] at hread <;> simp only at hread ⊢
    · exact (readDictId_length_le _ _ _).trans (by omega)
    · omega
  · exact readDictId_length_le _ _ _

/-- A header read takes at least seven bytes, if there are as many. -/
theorem readHeader_length_le (src : Bytes) (cb : Option SkipCallbackT) :
    (readHeader src cb).2.length ≤ src.length - lz4MinHeaderSz := by
  have hread := readFull_length_le src lz4MinHeaderSz
  rcases hr : readFull src lz4MinHeaderSz with ⟨⟨b, _ | e⟩, rest⟩ <;> rw [hr] at hread <;>
    simp only [readHeader, hr] at hread ⊢
  · refine le_trans ?_ hread
    simp only [readHeaderRest]
    split_ifs
    · exact maybeSkipFrame_length_le _ _ _
    · split
      · exact le_rfl
      · exact readContentSz_length_le _ _ _
  · exact hread

/-- A read that got somewhere had seven bytes to read. -/
theorem readHeader_length {src : Bytes} {cb : Option SkipCallbackT}
    (h : (readHeader src cb).1.err = none ∨ (readHeader src cb).1.err = some (.const .endMark)) :
    lz4MinHeaderSz ≤ src.length := by
  by_contra hlt
  rw [readHeader, readFull_of_gt (by omega)] at h
  simp only [reduceCtorEq, false_or, Option.some.injEq] at h
  split_ifs at h

theorem readHeaders_length_le (cb : Option SkipCallbackT) (k : ℕ) (src : Bytes) :
    (readHeaders cb k src).2.length ≤ src.length - lz4MinHeaderSz := by
  induction k generalizing src with
  | zero => exact readHeader_length_le src cb
  | succ k ih =>
      have hhead := readHeader_length_le src cb
      simp only [readHeaders]
      split_ifs
      · exact (ih _).trans (by omega)
      · exact hhead

theorem readHeaders_length {cb : Option SkipCallbackT} {k : ℕ} {src : Bytes}
    (h : (readHeaders cb k src).1.err = none) : lz4MinHeaderSz ≤ src.length := by
  cases k with
  | zero => exact readHeader_length (.inl h)
  | succ k =>
      simp only [readHeaders] at h
      split_ifs at h with he
      · exact readHeader_length (.inr he)
      · exact readHeader_length (.inl h)

/-- The bound on the skip frames does not matter once it covers the source. -/
theorem readHeaders_congr (cb : Option SkipCallbackT) (k m : ℕ) (src : Bytes)
    (hk : src.length < k) (hm : src.length < m) : readHeaders cb k src = readHeaders cb m src := by
  induction k generalizing m src with
  | zero => omega
  | succ k ih =>
      obtain ⟨m, rfl⟩ : ∃ m', m = m' + 1 := ⟨m - 1, by omega⟩
      simp only [readHeaders]
      split_ifs with he
      · have hlen := readHeader_length (.inr he)
        have hle := readHeader_length_le src cb
        have hseven : lz4MinHeaderSz = 7 := rfl
        rw [ih m _ (by omega) (by omega)]
      · rfl

theorem skipOffset_length_le (seeks : Option SeekT) (src : Bytes) (n : ℕ) :
    (skipOffset seeks src n).2.length ≤ src.length := by
  have hdrop : (src.drop n).length ≤ src.length := by
    rw [List.length_drop]
    exact Nat.sub_le _ _
  rcases seeks with _ | seek
  · simp only [skipOffset, copyN]
    split_ifs
    · exact hdrop
    · exact Nat.zero_le _
  · simp only [skipOffset]
    split
    · exact le_rfl
    · exact hdrop

theorem skipOffset_not_endMark (seeks : Option SeekT) (src : Bytes) (n : ℕ) :
    (skipOffset seeks src n).1.2 ≠ some (.const .endMark) := by
  rcases seeks with _ | seek
  · simp only [skipOffset, copyN]
    split_ifs <;> rintro ⟨⟩
  · simp only [skipOffset]
    split
    · rename_i e _
      exact fun he => e.2 (Option.some.inj he)
    · rintro ⟨⟩

/-- A source whose `Seek`, if it has one, does not fail. -/
def SeekOk (seeks : Option SeekT) : Prop := ∀ seek, seeks = some seek → ∀ src n, seek src n = none

theorem SeekOk.none : SeekOk none := by rintro _ ⟨⟩

theorem SeekOk.ok : SeekOk (some seekOk) := by
  rintro _ ⟨⟩ _ _
  rfl

theorem SeekOk.skipOffset {seeks : Option SeekT} (h : SeekOk seeks) {src : Bytes} {n : ℕ}
    (hle : n ≤ src.length) : skipOffset seeks src n = ((n, .none), src.drop n) := by
  rcases seeks with _ | seek
  · exact if_pos hle
  · simp only [Plz4.skipOffset, h seek rfl]

/-- The offset is skipped, or there is an error. -/
theorem skipOffset_of_none {seeks : Option SeekT} {src : Bytes} {n : ℕ}
    (h : (skipOffset seeks src n).1.2 = none) :
    skipOffset seeks src n = ((n, none), src.drop n) := by
  rcases seeks with _ | seek
  · simp only [skipOffset, copyN] at h ⊢
    split_ifs at h ⊢
    rfl
  · simp only [skipOffset] at h ⊢
    split at h
    · cases h
    · rfl

theorem applyOffset_length_le (seeks : Option SeekT) (o : OptsT) (n : ℤ) (hdr : HeaderT)
    (src : Bytes) :
    (applyOffset seeks o n hdr src).src.length ≤ src.length := by
  have hskip := skipOffset_length_le seeks src (o.readOffset - hdr.sz).toNat
  simp only [applyOffset]
  split_ifs
  · exact le_rfl
  · exact le_rfl
  · exact le_rfl
  · split <;> exact hskip

/-- An opened frame took the bytes of its header. -/
theorem openFrame_length {seeks : Option SeekT} {o : OptsT} {src : Bytes}
    (h : (openFrame seeks o src).err = none) :
    (openFrame seeks o src).src.length + lz4MinHeaderSz ≤ src.length := by
  have hle := readHeaders_length_le o.skipCallback (src.length + 1) src
  simp only [openFrame] at h ⊢
  rcases hh : (readHeaders o.skipCallback (src.length + 1) src).1.err with _ | e
  · have hlen := readHeaders_length hh
    simp only [hh] at h ⊢
    rcases hd : askDict o (readHeaders o.skipCallback (src.length + 1) src).1.hdr with ⟨_ | e, o'⟩
    · simp only [hd] at h ⊢
      have hoff := applyOffset_length_le seeks o'
        (readHeaders o.skipCallback (src.length + 1) src).1.nRead
        (readHeaders o.skipCallback (src.length + 1) src).1.hdr
        (readHeaders o.skipCallback (src.length + 1) src).2
      split
      · omega
      · simp only
        omega
    · simp only [hd, reduceCtorEq] at h
  · simp only [hh, reduceCtorEq] at h

theorem FrameReader.maybeReadContentHash_spec (fr : FrameReader) (src : Bytes) :
    (fr.maybeReadContentHash src).2.length ≤ src.length ∧
      (fr.maybeReadContentHash src).1.2.1 ≠ some .eof := by
  have hread := readFull_length_le src 4
  simp only [maybeReadContentHash]
  split_ifs
  · exact ⟨le_rfl, (by rintro ⟨⟩)⟩
  · rcases hr : readFull src 4 with ⟨⟨b, _ | e⟩, rest⟩ <;> rw [hr] at hread <;> simp only at hread ⊢
    · exact ⟨by omega, (by rintro ⟨⟩)⟩
    · exact ⟨by omega, by simp only [ne_eq, Option.some.injEq, reduceCtorEq, not_false_eq_true]⟩

theorem FrameReader.readData_spec (fr : FrameReader) (word src : Bytes) :
    (fr.readData word src).2.length ≤ src.length ∧ (fr.readData word src).1.err ≠ some .eof := by
  have hcheck : ∀ data e, checkBlkHash data = some e → e ≠ .eof := by
    intro data e he
    simp only [checkBlkHash, wrapCorrupted] at he
    split_ifs at he
    rw [← Option.some.inj he]
    rintro ⟨⟩
  simp only [readData, wrapCorrupted]
  split_ifs with heof hsz hcheck'
  · obtain ⟨hlen, herr⟩ := fr.maybeReadContentHash_spec src
    refine ⟨hlen, ?_⟩
    rcases he : (fr.maybeReadContentHash src).1.2.1 with _ | e
    · simp only [Option.getD_none, ne_eq, Option.some.injEq, reduceCtorEq, not_false_eq_true]
    · rw [he] at herr
      exact herr
  · exact ⟨le_rfl, by simp only [ne_eq, Option.some.injEq, reduceCtorEq, not_false_eq_true]⟩
  · have hread := readFull_length_le src ((⟨getU32 word⟩ : DataBlockSize).size + 4)
    rcases hr : readFull src ((⟨getU32 word⟩ : DataBlockSize).size + 4) with ⟨⟨b, _ | e⟩, rest⟩ <;>
      rw [hr] at hread <;> simp only at hread ⊢
    · rcases hc : checkBlkHash b with _ | e
      · exact ⟨by simp only; omega, (by rintro ⟨⟩)⟩
      · exact ⟨by simp only; omega, fun he => hcheck b e hc (Option.some.inj he)⟩
    · exact ⟨by omega, by simp only [ne_eq, Option.some.injEq, reduceCtorEq, not_false_eq_true]⟩
  · have hread := readFull_length_le src (⟨getU32 word⟩ : DataBlockSize).size
    rcases hr : readFull src (⟨getU32 word⟩ : DataBlockSize).size with ⟨⟨b, _ | e⟩, rest⟩ <;>
      rw [hr] at hread <;> simp only at hread ⊢
    · exact ⟨by omega, (by rintro ⟨⟩)⟩
    · exact ⟨by omega, by simp only [ne_eq, Option.some.injEq, reduceCtorEq, not_false_eq_true]⟩

/-- A block read takes nothing back, and never passes on a bare `io.EOF`. -/
theorem FrameReader.read_spec (fr : FrameReader) (src : Bytes) :
    (fr.read src).2.length ≤ src.length ∧ (fr.read src).1.1 ≠ .error .eof := by
  have hread := readFull_length_le src 4
  have hall : (fr._read src).2.length ≤ src.length ∧ (fr._read src).1.err ≠ some .eof := by
    rcases hr : readFull src 4 with ⟨⟨b, _ | e⟩, rest⟩ <;> rw [hr] at hread <;>
      simp only [_read, hr] at hread ⊢
    · obtain ⟨hlen, herr⟩ := fr.readData_spec b rest
      exact ⟨by omega, herr⟩
    · exact ⟨by omega, by simp only [ne_eq, Option.some.injEq, reduceCtorEq, not_false_eq_true]⟩
  rw [read_eq]
  rcases he : (fr._read src).1.err with _ | e
  · exact ⟨hall.1, (by rintro ⟨⟩)⟩
  · refine ⟨hall.1, fun h => ?_⟩
    rw [he] at hall
    exact hall.2 (congrArg some (Except.error.inj h))

/-- Skip frames are all passed over. -/
theorem readHeaders_not_endMark {cb : Option SkipCallbackT} {k : ℕ} {src : Bytes}
    (hk : src.length < k) : (readHeaders cb k src).1.err ≠ some (.const .endMark) := by
  induction k generalizing src with
  | zero => omega
  | succ k ih =>
      simp only [readHeaders]
      split_ifs with he
      · have hlen := readHeader_length (.inr he)
        have hle := readHeader_length_le src cb
        have hseven : lz4MinHeaderSz = 7 := rfl
        exact ih (by omega)
      · exact he

/-- A frame is not refused with an end mark. -/
theorem openFrame_not_endMark (seeks : Option SeekT) (o : OptsT) (src : Bytes) :
    (openFrame seeks o src).err ≠ some (.const .endMark) := by
  have hhdr : (readHeaders o.skipCallback (src.length + 1) src).1.err ≠ _ :=
    readHeaders_not_endMark (Nat.lt_succ_self src.length)
  -- nor do the callbacks and the offset give one
  have hdict : ∀ hdr, (askDict o hdr).1 ≠ some (.const .endMark) := by
    intro hdr
    simp only [askDict]
    split_ifs
    · split
      · rintro ⟨⟩
      · split
        · rename_i e _
          exact fun he => e.2 (Option.some.inj he)
        · rintro ⟨⟩
        · rintro ⟨⟩
    · rintro ⟨⟩
  have hoff : ∀ o n hdr s, (applyOffset seeks o n hdr s).err ≠ some (.const .endMark) := by
    intro o n hdr s
    have hskip := skipOffset_not_endMark seeks s (o.readOffset - hdr.sz).toNat
    simp only [applyOffset]
    split_ifs
    · rintro ⟨⟩
    · rintro ⟨⟩
    · rintro ⟨⟩
    · split
      · rename_i he
        rwa [he] at hskip
      · rintro ⟨⟩
  simp only [openFrame]
  split
  · rename_i e he
    rw [he] at hhdr
    exact hhdr
  · split
    · rename_i e he
      have := hdict (readHeaders o.skipCallback (src.length + 1) src).1.hdr
      rw [he] at this
      exact this
    · split
      · exact hoff _ _ _ _
      · rename_i he
        simp only [he]
        rintro ⟨⟩

/-- The source left by a parse is no longer than the source. -/
theorem parseFrames_rest_length (fr : FrameReader) (src : Bytes) :
    (parseFrames fr src).rest.length ≤ src.length := by
  have haux : ∀ k src, (parseAux fr k src).rest.length ≤ src.length := by
    intro k
    induction k with
    | zero => exact fun src => le_rfl
    | succ k ih =>
        intro src
        rcases hr : fr.read src with ⟨⟨e | frame, fr'⟩, rest⟩
        · have hle : rest.length ≤ src.length := by
            have := (fr.read_spec src).1
            rw [hr] at this
            exact this
          simp only [parseAux, hr]
          exact hle
        · have hlen := FrameReader.read_ok_length hr
          have hrest := ih rest
          simp only [parseAux, hr]
          omega
  exact haux _ _

theorem frameSession_rest_length (hdr : HeaderT) (o : OptsT) (src : Bytes) :
    (frameSession Z hdr o src).rest.length ≤ src.length := by
  rw [frameSession, sessionOf_rest]
  exact parseFrames_rest_length _ _

/-! ## Decoding -/

/-- Bytes delivered ahead of the rest. -/
def ahead (bs : Bytes) (f : Bytes × Err) : Bytes × Err := (bs ++ f.1, f.2)

theorem ahead_nil (f : Bytes × Err) : ahead [] f = f := rfl

theorem ahead_append (bs bs' : Bytes) (f : Bytes × Err) :
    ahead (bs ++ bs') f = ahead bs (ahead bs' f) := by
  rw [ahead, ahead, ahead, List.append_assoc]

/-- The check of the content size at the end mark of a frame of `n` bytes. -/
def sizeErr (o : OptsT) (n : UInt64) : Option Err :=
  match o.contentSz with
  | none => none
  | some sz =>
      if !o.skipContentSz && sz ≠ n then some (wrapCorrupted (.const .errContentSize)) else none

/-- The bytes of at most `k` frames and the error that ends the stream; `io.EOF` is the
clean end. -/
def decode (Z : Clz4) (seeks : Option SeekT) : ℕ → OptsT → Bytes → Bytes × Err
  | 0, _, _ => ([], .unexpectedEOF)
  | k + 1, o, src =>
      let p := openFrame seeks o src
      match p.err with
      | some e => ([], e)
      | none =>
          let t := frameSession Z p.hdr p.opts p.src
          if t.endErr = .const .endMark then
            match sizeErr p.opts (UInt64.ofNat t.bytes.length) with
            | some e => (t.bytes, e)
            | none => ahead t.bytes (decode Z seeks k p.opts t.rest)
          else (t.bytes, t.endErr)

/-- The decoding of a stream under the options. -/
def decodeStream (Z : Clz4) (seeks : Option SeekT) (o : OptsT) (src : Bytes) : Bytes × Err :=
  decode Z seeks (src.length + 1) o src

variable {seeks : Option SeekT} {o : OptsT} {src : Bytes}

/-- The bound on the frames does not matter once it covers the source. -/
theorem decode_congr (k m : ℕ) (o : OptsT) (src : Bytes) (hk : src.length < k)
    (hm : src.length < m) : decode Z seeks k o src = decode Z seeks m o src := by
  induction k generalizing m o src with
  | zero => omega
  | succ k ih =>
      obtain ⟨m, rfl⟩ : ∃ m', m = m' + 1 := ⟨m - 1, by omega⟩
      simp only [decode]
      rcases herr : (openFrame seeks o src).err with _ | e
      · have hlen := openFrame_length herr
        have hrest := frameSession_rest_length (Z := Z) (openFrame seeks o src).hdr
          (openFrame seeks o src).opts (openFrame seeks o src).src
        have hseven : lz4MinHeaderSz = 7 := rfl
        simp only
        rw [ih m _ _ (by omega) (by omega)]
      · rfl

/-- A stream whose header fails has the error of the header. -/
theorem decodeStream_error {e : Err} (h : (openFrame seeks o src).err = some e) :
    decodeStream Z seeks o src = ([], e) := by
  simp only [decodeStream, decode, h]

/-- What follows the blocks of a frame: the end mark with the check of the content
size, and the rest of the stream. -/
def frameTail (Z : Clz4) (seeks : Option SeekT) (o : OptsT) (n : UInt64) (t : Session) :
    Bytes × Err :=
  if t.endErr = .const .endMark then
    match sizeErr o n with
    | some e => ([], e)
    | none => decodeStream Z seeks o t.rest
  else ([], t.endErr)

theorem frameTail_next {n : UInt64} {t : Session} (hend : t.endErr = .const .endMark)
    (hsz : sizeErr o n = none) : frameTail Z seeks o n t = decodeStream Z seeks o t.rest := by
  rw [frameTail, if_pos hend, hsz]

/-- A stream whose header is accepted has the bytes of the frame first. It goes on with
the options the frame left. -/
theorem decodeStream_opened (h : (openFrame seeks o src).err = none) {t : Session}
    (ht : t.Same (frameSession Z (openFrame seeks o src).hdr (openFrame seeks o src).opts
      (openFrame seeks o src).src)) :
    decodeStream Z seeks o src = ahead t.bytes
      (frameTail Z seeks (openFrame seeks o src).opts (UInt64.ofNat t.bytes.length) t) := by
  have hlen := openFrame_length h
  have hrest := frameSession_rest_length (Z := Z) (openFrame seeks o src).hdr
    (openFrame seeks o src).opts (openFrame seeks o src).src
  set p := openFrame seeks o src with hp
  set t' := frameSession Z p.hdr p.opts p.src with ht'
  have hseven : lz4MinHeaderSz = 7 := rfl
  have hbytes : t'.bytes = t.bytes := by rw [Session.bytes, Session.bytes, ht.blks]
  rw [decodeStream, decode, ← hp]
  simp only [h, ← ht', hbytes, frameTail, ← ht.endErr]
  by_cases hend : t.endErr = .const .endMark
  · simp only [hend, if_true]
    rcases hsz : sizeErr p.opts (UInt64.ofNat t.bytes.length) with _ | e
    · rw [ht.rest hend, decodeStream, decode_congr src.length (t'.rest.length + 1) _ _ (by omega)
        (by omega)]
    · simp only [ahead, List.append_nil]
  · simp only [if_neg hend, ahead, List.append_nil]

/-! ## The errors of a session -/

theorem parseFrames_err_ne_eof (fr : FrameReader) (src : Bytes) :
    (parseFrames fr src).err ≠ .eof := by
  have haux : ∀ k src, (parseAux fr k src).err ≠ .eof := by
    intro k
    induction k with
    | zero => exact fun _ => (by rintro ⟨⟩)
    | succ k ih =>
        intro src
        rcases hr : fr.read src with ⟨⟨e | frame, fr'⟩, rest⟩
        · have herr := (fr.read_spec src).2
          rw [hr] at herr
          simp only [parseAux, hr]
          exact fun he => herr (congrArg Except.error he)
        · simp only [parseAux, hr]
          exact ih rest
  exact haux _ _

/-- A session never ends in a bare `io.EOF`. -/
theorem frameSession_endErr_ne_eof (hdr : HeaderT) (o : OptsT) (src : Bytes) :
    (frameSession Z hdr o src).endErr ≠ .eof := by
  have hparse := parseFrames_err_ne_eof (readerFrame hdr) src
  have hdec : ∀ n, (Except.error Err.eof, n) ∉ decodeAll Z (readerFrame hdr).bsz (readerDc hdr o)
      (parseFrames (readerFrame hdr) src).frames := by
    intro n hmem
    obtain ⟨code, hcode⟩ := decodeAll_error hmem
    cases hcode
  rw [frameSession]
  generalize decodeAll Z (readerFrame hdr).bsz (readerDc hdr o)
    (parseFrames (readerFrame hdr) src).frames = ds at hdec ⊢
  generalize (if useHasher hdr o then some XXHZero.zero else none) = hasher
  induction ds generalizing hasher with
  | nil =>
      rw [sessionOf, checkSum.eq_def]
      split_ifs with he
      · rcases hasher with _ | h
        · exact hparse
        · simp only
          split_ifs
          · rintro ⟨⟩
          · exact hparse
      · exact hparse
  | cons d ds ih =>
      obtain ⟨e | b, n⟩ := d
      · exact fun he => hdec n (he ▸ List.mem_cons_self)
      · exact ih (fun n hn => hdec n (List.mem_cons_of_mem _ hn)) _

/-- A frame whose session and size are in order, and what follows it. -/
theorem decodeStream_next {p : Opened} (hp : openFrame seeks o src = p) (h : p.err = none)
    {t : Session} (ht : frameSession Z p.hdr p.opts p.src = t) (hend : t.endErr = .const .endMark)
    (hsz : sizeErr p.opts (UInt64.ofNat t.bytes.length) = none) :
    decodeStream Z seeks o src = ahead t.bytes (decodeStream Z seeks p.opts t.rest) := by
  subst hp
  rw [decodeStream_opened (Z := Z) h (t := t) (by rw [ht]; exact Session.Same.refl t),
    frameTail_next hend hsz]

/-- A stream that ends cleanly has a good frame first, and goes on so. -/
theorem decodeStream_eof {p : Opened} (hp : openFrame seeks o src = p) (h : p.err = none)
    {t : Session} (ht : frameSession Z p.hdr p.opts p.src = t) {bs : Bytes}
    (heof : decodeStream Z seeks o src = (bs, .eof)) :
    t.endErr = .const .endMark ∧ sizeErr p.opts (UInt64.ofNat t.bytes.length) = none ∧
      ∃ bs', decodeStream Z seeks p.opts t.rest = (bs', .eof) ∧ bs = t.bytes ++ bs' := by
  subst hp
  have hdec := decodeStream_opened (Z := Z) h (t := t) (by rw [ht]; exact Session.Same.refl t)
  rw [heof, ahead, Prod.mk.injEq] at hdec
  obtain ⟨hbs, herr⟩ := hdec
  generalize openFrame seeks o src = p at *
  by_cases hend : t.endErr = .const .endMark
  · rw [frameTail, if_pos hend] at hbs herr
    rcases hsz : sizeErr p.opts (UInt64.ofNat t.bytes.length) with _ | e
    · rw [hsz] at hbs herr
      refine ⟨hend, rfl, (decodeStream Z seeks p.opts t.rest).1, ?_, hbs⟩
      rw [herr]
    · rw [hsz] at herr
      rw [sizeErr] at hsz
      split at hsz
      · cases hsz
      · split_ifs at hsz
        rw [← Option.some.inj hsz] at herr
        cases herr
  · rw [frameTail, if_neg hend] at herr
    rw [← ht] at herr
    exact absurd herr.symm (frameSession_endErr_ne_eof _ _ _)

end Plz4
