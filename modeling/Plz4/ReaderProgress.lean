/-
What the progress handler of a Reader is told, and where the blocks of the stream are.

The pairs come from counts that the layers return. `story` is all the pairs of a reader,
those given and those to come, and no operation changes it; the true places are those of
the bytes left in the source (`offsetPairs`).
-/
import Plz4.Integrity

set_option autoImplicit false

namespace Plz4

open LittleEndian Xxh32

variable {Z : Clz4} {S : Sched Z} {seeks : Option SeekT} {o : OptsT}

/-! ## What a header read counts -/

/-- A skip callback that returns the number of bytes it read. -/
def SkipCounts (cb : Option SkipCallbackT) : Prop :=
  ∀ f, cb = some f → ∀ (src : Bytes) nibble sz,
    (f src nibble sz).n = (f src nibble sz).consumed ∧ (f src nibble sz).consumed ≤ src.length

theorem SkipCounts.none : SkipCounts none := by rintro _ ⟨⟩

theorem readFull_count (src : Bytes) (n : ℕ) :
    (readFull src n).1.1.length + (readFull src n).2.length = src.length := by
  rw [← List.length_append, readFull_split]

theorem copyN_count (src : Bytes) (n : ℕ) :
    (copyN src n).1.1 + (copyN src n).2.length = src.length := by
  rw [copyN]
  split_ifs with hle
  · simp only [List.length_drop]
    omega
  · rfl

theorem skipBody_count {cb : Option SkipCallbackT} (hcb : SkipCounts cb) (src : Bytes)
    (nibble : UInt8) (sz : UInt32) :
    (skipBody src cb nibble sz).1.1 + (skipBody src cb nibble sz).2.length = src.length := by
  rcases cb with _ | f
  · have hcopy := copyN_count src sz.toNat
    simp only [skipBody]
    exact_mod_cast hcopy
  · obtain ⟨hn, hle⟩ := hcb f rfl src nibble sz
    simp only [skipBody, hn, List.length_drop]
    omega

theorem maybeSkipFrame_count {cb : Option SkipCallbackT} (hcb : SkipCounts cb) (src hdr : Bytes) :
    (maybeSkipFrame src hdr cb).1.1 + (maybeSkipFrame src hdr cb).2.length = src.length := by
  have hread := readFull_count src 1
  rw [maybeSkipFrame]
  split_ifs
  · exact Int.zero_add _
  · rcases hr : readFull src 1 with ⟨⟨b, _ | e⟩, rest⟩ <;> rw [hr] at hread <;> simp only at hread ⊢
    · have hbody := skipBody_count hcb rest (getU32 (hdr.take 4) &&& 0xF).toUInt8
        (getU32 ((hdr ++ b).drop 4))
      rcases hs : skipBody rest cb (getU32 (hdr.take 4) &&& 0xF).toUInt8
        (getU32 ((hdr ++ b).drop 4)) with ⟨⟨n, _ | e⟩, rest'⟩ <;> rw [hs] at hbody <;>
        simp only at hbody ⊢ <;> omega
    · omega

theorem checkHeaderHash_nRead (hdr : HeaderT) (hb : Bytes) :
    (checkHeaderHash hdr hb).nRead = hb.length := by
  rw [checkHeaderHash]
  split_ifs <;> rfl

theorem readDictId_count (hdr : HeaderT) (hb src : Bytes) :
    (readDictId hdr hb src).1.nRead + (readDictId hdr hb src).2.length
      = hb.length + src.length := by
  have hread := readFull_count src 4
  rw [readDictId]
  split_ifs
  · rcases hr : readFull src 4 with ⟨⟨b, _ | e⟩, rest⟩ <;> rw [hr] at hread <;> simp only at hread ⊢
    · rw [checkHeaderHash_nRead, List.length_append]
      omega
    · omega
  · rw [checkHeaderHash_nRead]

theorem readContentSz_count (hdr : HeaderT) (hb src : Bytes) :
    (readContentSz hdr hb src).1.nRead + (readContentSz hdr hb src).2.length
      = hb.length + src.length := by
  have hread := readFull_count src 8
  rw [readContentSz]
  split_ifs
  · rcases hr : readFull src 8 with ⟨⟨b, _ | e⟩, rest⟩ <;> rw [hr] at hread <;> simp only at hread ⊢
    · rw [readDictId_count, List.length_append]
      omega
    · omega
  · exact readDictId_count _ _ _

/-- **Header reads count what they take**, also when they fail. -/
theorem readHeader_count {cb : Option SkipCallbackT} (hcb : SkipCounts cb) (src : Bytes) :
    (readHeader src cb).1.nRead + (readHeader src cb).2.length = src.length := by
  have hread := readFull_count src lz4MinHeaderSz
  rw [readHeader]
  rcases hr : readFull src lz4MinHeaderSz with ⟨⟨b, _ | e⟩, rest⟩ <;> rw [hr] at hread <;>
    simp only at hread ⊢
  · rw [readHeaderRest]
    split_ifs
    · have hskip := maybeSkipFrame_count hcb rest b
      rcases hm : maybeSkipFrame rest b cb with ⟨⟨n, err⟩, rest'⟩
      rw [hm] at hskip
      simp only at hskip ⊢
      omega
    · simp only
      split
      · simp only
        omega
      · rw [readContentSz_count]
        omega
  · omega

theorem readHeaders_count {cb : Option SkipCallbackT} (hcb : SkipCounts cb) (k : ℕ) (src : Bytes) :
    (readHeaders cb k src).1.nRead + (readHeaders cb k src).2.length = src.length := by
  induction k generalizing src with
  | zero => exact readHeader_count hcb src
  | succ k ih =>
      have hhead := readHeader_count hcb src
      have hrest := ih (readHeader src cb).2
      simp only [readHeaders]
      split_ifs
      · simp only
        omega
      · exact hhead

theorem applyOffset_count {n : ℤ} {hdr : HeaderT} {src : Bytes}
    (h : (applyOffset seeks o n hdr src).err = none)
    (hne : (applyOffset seeks o n hdr src).src ≠ []) :
    (applyOffset seeks o n hdr src).nRead + (applyOffset seeks o n hdr src).src.length
      = n + src.length := by
  revert h hne
  rw [applyOffset]
  split_ifs
  · exact fun _ _ => rfl
  · rintro ⟨⟩
  · rintro ⟨⟩
  · rcases hs : skipOffset seeks src (o.readOffset - hdr.sz).toNat with ⟨⟨m, _ | e⟩, rest⟩
    · intro _ hne
      simp only at hne ⊢
      have hcount : m + rest.length = src.length := by
        have hskip := skipOffset_of_none (congrArg (fun r => r.1.2) hs)
        rw [hs] at hskip
        simp only [Prod.mk.injEq] at hskip
        obtain ⟨⟨rfl, -⟩, rfl⟩ := hskip
        -- a seek past the end leaves nothing
        have hpos := List.length_pos_iff.mpr hne
        rw [List.length_drop] at hpos ⊢
        omega
      omega
    · rintro ⟨⟩

/-- Opening a frame counts what it takes. -/
theorem openFrame_count (hcb : SkipCounts o.skipCallback) {src : Bytes}
    (h : (openFrame seeks o src).err = none) (hne : (openFrame seeks o src).src ≠ []) :
    (openFrame seeks o src).nRead + (openFrame seeks o src).src.length = src.length := by
  have hcount := readHeaders_count hcb (src.length + 1) src
  revert h hne
  simp only [openFrame]
  rcases (readHeaders o.skipCallback (src.length + 1) src).1.err with _ | e
  · rcases askDict o (readHeaders o.skipCallback (src.length + 1) src).1.hdr with ⟨_ | e, o'⟩
    · simp only
      have hoff := @applyOffset_count seeks o'
        (readHeaders o.skipCallback (src.length + 1) src).1.nRead
        (readHeaders o.skipCallback (src.length + 1) src).1.hdr
        (readHeaders o.skipCallback (src.length + 1) src).2
      rcases he : (applyOffset seeks o' (readHeaders o.skipCallback (src.length + 1) src).1.nRead
        (readHeaders o.skipCallback (src.length + 1) src).1.hdr
        (readHeaders o.skipCallback (src.length + 1) src).2).err with _ | e
      · intro _ hne
        exact (hoff he hne).trans hcount
      · intro h
        simp only [he, reduceCtorEq] at h
    · rintro ⟨⟩
  · rintro ⟨⟩

/-! ## Where the size words are -/

/-- What is left of the source before the read of block `i` of a frame body. -/
def leftAt (fr : FrameReader) (i : ℕ) (src : Bytes) : Bytes := (fun s => (fr.read s).2)^[i] src

/-- The blocks before it account for the rest. -/
theorem length_leftAt {fr : FrameReader} {i : ℕ} {src : Bytes}
    (h : i ≤ (parseFrames fr src).frames.length) :
    (leftAt fr i src).length + (((parseFrames fr src).frames.take i).map FrameT.readCnt).sum
      = src.length := by
  induction i generalizing src with
  | zero => rfl
  | succ i ih =>
      rcases hr : fr.read src with ⟨⟨e | frame, fr'⟩, rest⟩
      · rw [parseFrames_error hr] at h
        exact absurd h (Nat.not_succ_le_zero i)
      · obtain rfl := FrameReader.read_ok_fr hr
        have hok : ReadOk (fr'.read src).1 := .inl ⟨frame, by rw [hr]⟩
        obtain ⟨q, hq⟩ := FrameReader.read_ok hok
        have hsplit := congrArg List.length hq.split
        have hcnt := hq.readCnt frame (by rw [hr])
        rw [List.length_append, hr] at hsplit
        rw [parseFrames_ok hr, List.length_cons] at h
        have hrest := ih (Nat.le_of_succ_le_succ h)
        have hleft : leftAt fr' (i + 1) src = leftAt fr' i rest := by
          rw [leftAt, Function.iterate_succ_apply, hr]
          rfl
        rw [hleft, parseFrames_ok hr, List.take_succ_cons, List.map_cons, List.sum_cons]
        simp only at hsplit
        omega

/-- The bytes of the end mark, and of the content checksum if there is one. -/
def endSz (fr : FrameReader) : ℕ := 4 + if fr.srcCheck then 4 else 0

/-- So do the blocks and the end mark for the whole body. -/
theorem length_parseFrames_end {fr : FrameReader} {src : Bytes}
    (h : (parseFrames fr src).err = .const .endMark) :
    (parseFrames fr src).rest.length + ((parseFrames fr src).frames.map FrameT.readCnt).sum
      + endSz fr = src.length := by
  induction hn : src.length using Nat.strongRecOn generalizing src with
  | ind n ih =>
      rcases hr : fr.read src with ⟨⟨e | frame, fr'⟩, rest⟩
      · rw [parseFrames_error hr] at h ⊢
        have hend : e = .const .endMark := h
        subst hend
        have hraw := congrArg List.length (FrameReader.read_endMark_raw hr).1
        rw [List.length_append, List.length_append] at hraw
        rw [endSz, ← hn, hraw]
        split_ifs
        · rw [length_putU32]
          simp only [List.map_nil, List.sum_nil, List.length_cons, List.length_nil]
          omega
        · simp only [List.map_nil, List.sum_nil, List.length_cons, List.length_nil]
          omega
      · obtain rfl := FrameReader.read_ok_fr hr
        have hlen := FrameReader.read_ok_length hr
        have hok : ReadOk (fr'.read src).1 := .inl ⟨frame, by rw [hr]⟩
        obtain ⟨q, hq⟩ := FrameReader.read_ok hok
        have hsplit := congrArg List.length hq.split
        have hcnt := hq.readCnt frame (by rw [hr])
        rw [List.length_append, hr] at hsplit
        rw [parseFrames_ok hr] at h ⊢
        have hrest := ih rest.length (by omega) h rfl
        simp only [List.map_cons, List.sum_cons] at hsplit ⊢
        omega

/-- What the blocks of a session were read from. -/
def Session.span (t : Session) : ℕ := (t.blks.map Prod.snd).sum

/-- What a session that ends at the end mark says of the source. -/
theorem frameSession_span {hdr : HeaderT} {src : Bytes}
    (h : (frameSession Z hdr o src).endErr = .const .endMark) :
    (frameSession Z hdr o src).endCnt = 0 ∧
      (frameSession Z hdr o src).rest.length + (frameSession Z hdr o src).span
        + endSz (readerFrame hdr) = src.length ∧
      ∀ i ≤ (frameSession Z hdr o src).blks.length,
        (leftAt (readerFrame hdr) i src).length
          + (((frameSession Z hdr o src).blks.take i).map Prod.snd).sum = src.length := by
  have hparse := parse_of_session h
  set p := parseFrames (readerFrame hdr) src with hp
  have hall : decodeAll Z (readerFrame hdr).bsz (readerDc hdr o) p.frames
      = (frameSession Z hdr o src).blks.map (fun b => (.ok b.1, b.2)) :=
    sessionOf_all_ok (decodeAll_ne_endMark _ _ _ _) h
  have hsizes : (frameSession Z hdr o src).blks.map Prod.snd = p.frames.map FrameT.readCnt := by
    rw [← map_snd_decodeAll Z (readerFrame hdr).bsz (readerDc hdr o), hall, List.map_map]
    rfl
  refine ⟨?_, ?_, fun i hi => ?_⟩
  · rw [frameSession, hall]
    exact sessionOf_endCnt _
  · have hrest : (frameSession Z hdr o src).rest = p.rest := sessionOf_rest _ _ _
    rw [hrest, Session.span, hsizes]
    exact length_parseFrames_end hparse
  · have hlen : (frameSession Z hdr o src).blks.length = p.frames.length := by
      have := congrArg List.length hsizes
      rwa [List.length_map, List.length_map] at this
    rw [List.map_take, hsizes, ← List.map_take]
    exact length_leftAt (hlen ▸ hi)

/-! ## The frames of a stream -/

/-- At most `k` frames, each as it is opened; a frame that fails ends the list. -/
def framesAux (Z : Clz4) (seeks : Option SeekT) : ℕ → OptsT → Bytes → List Opened
  | 0, _, _ => []
  | k + 1, o, src =>
      let p := openFrame seeks o src
      match p.err with
      | some _ => []
      | none =>
          let t := frameSession Z p.hdr p.opts p.src
          p :: if t.endErr = .const .endMark ∧ sizeErr p.opts (UInt64.ofNat t.bytes.length) = none
            then framesAux Z seeks k p.opts t.rest else []

/-- The LZ4 frames of a stream, as a reader with the options opens them. -/
def framesOf (Z : Clz4) (seeks : Option SeekT) (o : OptsT) (src : Bytes) : List Opened :=
  framesAux Z seeks (src.length + 1) o src

theorem framesAux_congr (k m : ℕ) (o : OptsT) (src : Bytes) (hk : src.length < k)
    (hm : src.length < m) : framesAux Z seeks k o src = framesAux Z seeks m o src := by
  induction k generalizing m o src with
  | zero => omega
  | succ k ih =>
      obtain ⟨m, rfl⟩ : ∃ m', m = m' + 1 := ⟨m - 1, by omega⟩
      simp only [framesAux]
      rcases herr : (openFrame seeks o src).err with _ | e
      · have hlen := openFrame_length herr
        have hrest := frameSession_rest_length (Z := Z) (openFrame seeks o src).hdr
          (openFrame seeks o src).opts (openFrame seeks o src).src
        have hseven : lz4MinHeaderSz = 7 := rfl
        simp only
        rw [ih m _ _ (by omega) (by omega)]
      · rfl

theorem framesOf_error {src : Bytes} {e : Err} (h : (openFrame seeks o src).err = some e) :
    framesOf Z seeks o src = [] := by
  simp only [framesOf, framesAux, h]

/-- The frames after the one with session `t`, which was opened with the options `o`. -/
def framesAfter (Z : Clz4) (seeks : Option SeekT) (o : OptsT) (n : UInt64) (t : Session) :
    List Opened :=
  if t.endErr = .const .endMark ∧ sizeErr o n = none then framesOf Z seeks o t.rest else []

theorem framesOf_opened {src : Bytes} (h : (openFrame seeks o src).err = none) {t : Session}
    (ht : t.Same (frameSession Z (openFrame seeks o src).hdr (openFrame seeks o src).opts
      (openFrame seeks o src).src)) :
    framesOf Z seeks o src = openFrame seeks o src
      :: framesAfter Z seeks (openFrame seeks o src).opts (UInt64.ofNat t.bytes.length) t := by
  have hlen := openFrame_length h
  have hrest := frameSession_rest_length (Z := Z) (openFrame seeks o src).hdr
    (openFrame seeks o src).opts (openFrame seeks o src).src
  set p := openFrame seeks o src with hp
  set t' := frameSession Z p.hdr p.opts p.src with ht'
  have hseven : lz4MinHeaderSz = 7 := rfl
  have hbytes : t'.bytes = t.bytes := by rw [Session.bytes, Session.bytes, ht.blks]
  rw [framesOf, framesAux, ← hp]
  simp only [h, ← ht', hbytes, framesAfter, ← ht.endErr]
  by_cases hend : t.endErr = .const .endMark
  · rw [ht.rest hend, framesOf, framesAux_congr src.length (t'.rest.length + 1) _ _ (by omega)
      (by omega)]
  · simp only [hend, false_and, if_false]

/-! ## The pairs -/

/-- The pairs for the blocks of a session and its end, from the counts. -/
def blkPairs : ℤ → ℤ → List (Bytes × ℕ) → List (ℤ × ℤ)
  | s, d, [] => [(s, d)]
  | s, d, b :: bs => (s, d) :: blkPairs (s + b.2) (d + b.1.length) bs

/-- The pairs the reader gives for the frames, from where its counts stand. -/
def handlerPairs (Z : Clz4) : ℤ → ℤ → List Opened → List (ℤ × ℤ)
  | _, _, [] => []
  | s, d, p :: ps =>
      let t := frameSession Z p.hdr p.opts p.src
      blkPairs (s + p.nRead) d t.blks
        ++ handlerPairs Z (s + p.nRead + t.span + t.endCnt) (d + t.bytes.length) ps

/-- The pairs the handler should get for the frames of a stream of `total` bytes: the
offset of each size word, and the bytes decoded before it. -/
def offsetPairs (Z : Clz4) (total : ℕ) : ℤ → List Opened → List (ℤ × ℤ)
  | _, [] => []
  | d, p :: ps =>
      let t := frameSession Z p.hdr p.opts p.src
      (List.range (t.blks.length + 1)).map (fun i =>
          ((total : ℤ) - (leftAt (readerFrame p.hdr) i p.src).length,
            d + ((t.blks.take i).flatMap Prod.fst).length))
        ++ offsetPairs Z total (d + t.bytes.length) ps

theorem blkPairs_eq (s d : ℤ) (bs : List (Bytes × ℕ)) :
    blkPairs s d bs = (List.range (bs.length + 1)).map (fun i =>
      (s + ((bs.take i).map Prod.snd).sum, d + ((bs.take i).flatMap Prod.fst).length)) := by
  induction bs generalizing s d with
  | nil => simp [blkPairs]
  | cons b bs ih =>
      rw [blkPairs, ih, List.length_cons, List.range_succ_eq_map (n := bs.length + 1), List.map_cons,
        List.map_map]
      congr 1
      · simp
      · apply List.map_congr_left
        intro i _
        simp only [Function.comp_apply, List.take_succ_cons, List.map_cons, List.sum_cons,
          List.flatMap_cons, List.length_append]
        push_cast
        rw [Int.add_assoc, Int.add_assoc]

/-! ## The pairs of a reader -/

namespace Reader

/-- The pairs still to come from the session `t`, with the counts of the reader. -/
def pending (r : Reader) (t : Session) : List (ℤ × ℤ) := blkPairs r.srcPos r.dstPos t.blks

/-- The pairs of the frames behind it. -/
def pendingAfter (Z : Clz4) (r : Reader) (t : Session) : List (ℤ × ℤ) :=
  handlerPairs Z (r.srcPos + t.span + t.endCnt) (r.dstPos + t.bytes.length)
    (framesAfter Z r.seeks r.opts (r.contentSz + UInt64.ofNat t.bytes.length) t)

/-- All the pairs of a reader: those given, and those to come. -/
def story (Z : Clz4) (r : Reader) : List (ℤ × ℤ) :=
  r.progress ++
    match r.state with
    | some _ => []
    | none =>
        match r.blkReader with
        | none => handlerPairs Z r.srcPos r.dstPos (framesOf Z r.seeks r.opts r.src)
        | some t => r.pending t ++ r.pendingAfter Z t

theorem story_of_state {r : Reader} {e : Err} (h : r.state = some e) : r.story Z = r.progress := by
  rw [story, h]
  exact List.append_nil _

theorem story_of_body {r : Reader} {t : Session} (hstate : r.state = none)
    (hblk : r.blkReader = some t) :
    r.story Z = r.progress ++ (r.pending t ++ r.pendingAfter Z t) := by
  rw [story, hstate, hblk]

theorem story_of_header {r : Reader} (hstate : r.state = none) (hblk : r.blkReader = none) :
    r.story Z
      = r.progress ++ handlerPairs Z r.srcPos r.dstPos (framesOf Z r.seeks r.opts r.src) := by
  rw [story, hstate, hblk]

/-! ### Inside a frame -/

/-- What the counts keep as the session `t` comes down to `t'`. -/
structure Keeps (r : Reader) (t : Session) (r' : Reader) (t' : Session) : Prop where
  pairs : r'.progress ++ r'.pending t' = r.progress ++ r.pending t
  srcEnd : r'.srcPos + t'.span = r.srcPos + t.span
  dstEnd : r'.dstPos + t'.bytes.length = r.dstPos + t.bytes.length
  endCnt : t'.endCnt = t.endCnt

theorem Keeps.trans {r r' r'' : Reader} {t t' t'' : Session} (h : r.Keeps t r' t')
    (h' : r'.Keeps t' r'' t'') : r.Keeps t r'' t'' :=
  ⟨h'.pairs.trans h.pairs, h'.srcEnd.trans h.srcEnd, h'.dstEnd.trans h.dstEnd,
    h'.endCnt.trans h.endCnt⟩

/-- The counts at the end of the session `t`. -/
structure Ends (r : Reader) (t : Session) (r' : Reader) : Prop where
  pairs : r'.progress = r.progress ++ r.pending t
  srcEnd : r'.srcPos = r.srcPos + t.span + t.endCnt
  dstEnd : r'.dstPos = r.dstPos + t.bytes.length

theorem Keeps.ends {r r' r'' : Reader} {t t' : Session} (h : r.Keeps t r' t')
    (h' : r'.Ends t' r'') : r.Ends t r'' :=
  ⟨h'.pairs.trans h.pairs, by rw [h'.srcEnd, h.srcEnd, h.endCnt], h'.dstEnd.trans h.dstEnd⟩

/-- Handing out bytes does not touch the counts. -/
theorem slide_keeps (r : Reader) (t : Session) (k : ℕ) : r.Keeps t (r.slide k) t :=
  ⟨rfl, rfl, rfl, rfl⟩

theorem nextBlock_keeps (t : Session) (r : Reader) :
    match nextBlock t r with
    | (none, r') => ∃ t', r'.blkReader = some t' ∧ t'.blks.length + 1 = t.blks.length ∧
        r.Keeps t r' t'
    | (some _, r') => r.Ends t r' := by
  obtain ⟨blks, endCnt, endErr, rest⟩ := t
  rcases blks with _ | ⟨b, bs⟩
  · refine ⟨rfl, ?_, ?_⟩
    · simp only [Session.span, List.map_nil, List.sum_nil]
      push_cast
      ring
    · rfl
  · refine ⟨⟨bs, endCnt, endErr, rest⟩, rfl, rfl, ?_, ?_, ?_, rfl⟩
    · simp only [pending, blkPairs, Option.getD_some, List.append_assoc,
        List.cons_append, List.nil_append]
    · simp only [Session.span, List.map_cons, List.sum_cons]
      push_cast
      ring
    · simp only [Session.bytes, List.flatMap_cons, List.length_append,
        Option.getD_some]
      push_cast
      ring

theorem bodyLoop_keeps (k n : ℕ) (r : Reader) {t : Session} (hblk : r.blkReader = some t)
    (hk : t.blks.length < k) :
    match (bodyLoop k n r).1.2 with
    | none => ∃ t', (bodyLoop k n r).2.blkReader = some t' ∧ r.Keeps t (bodyLoop k n r).2 t'
    | some _ => r.Ends t (bodyLoop k n r).2 := by
  induction k generalizing n r t with
  | zero => omega
  | succ k ih =>
      have hslide := r.slide_keeps t (r.avail.take n).length
      simp only [bodyLoop, slide_blkReader, hblk]
      by_cases hfull : (!r.avail.isEmpty && decide ((r.avail.take n).length = n)) = true
      · rw [if_pos hfull]
        exact ⟨t, hblk, hslide⟩
      · rw [if_neg hfull]
        have hnext := nextBlock_keeps t (r.slide (r.avail.take n).length)
        rcases hnb : nextBlock t (r.slide (r.avail.take n).length) with ⟨_ | e, r₁⟩ <;>
          rw [hnb] at hnext <;> simp only at hnext ⊢
        · obtain ⟨t₁, hblk₁, hlen, hkeeps⟩ := hnext
          have hrest := ih (n - (r.avail.take n).length) r₁ hblk₁ (by omega)
          rcases hb : bodyLoop k (n - (r.avail.take n).length) r₁ with ⟨⟨bs, _ | e⟩, r₂⟩
          · rw [hb] at hrest
            obtain ⟨t₂, hblk₂, hkeeps₂⟩ := hrest
            exact ⟨t₂, hblk₂, (hslide.trans hkeeps).trans hkeeps₂⟩
          · rw [hb] at hrest
            exact (hslide.trans hkeeps).ends hrest
        · exact hslide.ends hnext

theorem writeLoop_keeps (k : ℕ) (calls : List WrCall) (r : Reader) {t : Session}
    (hblk : r.blkReader = some t) (hk : t.blks.length < k) :
    r.Ends t (writeLoop .ok k calls r).2 := by
  induction k generalizing calls r t with
  | zero => omega
  | succ k ih =>
      obtain ⟨n, calls₁, hwrite⟩ : ∃ n calls₁,
          (if r.avail.isEmpty then (0, none, calls) else wrWrite .ok calls r.avail)
            = (n, (none : Option Err), calls₁) := by
        rcases r.avail with _ | ⟨x, xs⟩
        · exact ⟨_, _, rfl⟩
        · exact ⟨_, _, rfl⟩
      have hslide := r.slide_keeps t n
      have hnext := nextBlock_keeps t (r.slide n)
      simp only [writeLoop, hwrite, slide_blkReader, hblk]
      rcases hnb : nextBlock t (r.slide n) with ⟨_ | e, r₁⟩ <;> rw [hnb] at hnext <;> simp only
      · obtain ⟨t₁, hblk₁, hlen, hkeeps⟩ := hnext
        exact (hslide.trans hkeeps).ends (ih calls₁ r₁ hblk₁ (by omega))
      · exact hslide.ends hnext

/-- Handing out bytes changes nothing of the story. -/
theorem Advances.story {r r' : Reader} {t t' : Session} {bs : Bytes} (h : r.Advances t bs r' t')
    (hkeeps : r.Keeps t r' t') (hstate : r.state = none) (hblk : r.blkReader = some t) :
    r'.story Z = r.story Z := by
  rw [story_of_body hstate hblk, story_of_body (h.state.trans hstate) h.blkReader,
    ← List.append_assoc, ← List.append_assoc, hkeeps.pairs]
  apply congrArg
  rw [pendingAfter, pendingAfter, hkeeps.srcEnd, hkeeps.dstEnd, hkeeps.endCnt, framesAfter,
    framesAfter, h.seeks, h.opts, ← h.contentSz, h.endErr, h.rest]

/-- Past the end mark the story goes on with the next frame. -/
theorem AtEndMark.story {r r' : Reader} {t t' : Session} {bs : Bytes}
    (h : r.Advances t bs r' t') (hmark : r.AtEndMark t t.endErr r' t') (hends : r.Ends t r')
    (hstate : r.state = none) (hblk : r.blkReader = some t) (hend : t.endErr = .const .endMark) :
    r'.passEndMark.story Z = r.story Z := by
  have hzero : r'.contentSz = r.contentSz + UInt64.ofNat t.bytes.length := by
    have hsz := h.contentSz
    rw [Session.bytes, Session.bytes, hmark.blks] at hsz
    exact (UInt64.add_zero _).symm.trans hsz.symm
  have herr : r'.handleEndMark.1 = sizeErr r.opts (r.contentSz + UInt64.ofNat t.bytes.length) := by
    rw [← hzero, ← h.opts]
    rfl
  rw [story_of_body hstate hblk, pendingAfter, framesAfter, hend]
  rcases hsz : sizeErr r.opts (r.contentSz + UInt64.ofNat t.bytes.length) with _ | e
  · rw [story_of_header (herr.trans hsz) rfl, ← List.append_assoc, ← hends.pairs, if_pos ⟨rfl, rfl⟩,
      ← hends.srcEnd, ← hends.dstEnd, ← h.seeks, ← h.opts, ← h.rest]
    simp only [passEndMark, handleEndMark, h.blkReader, Option.elim_some]
  · rw [story_of_state (herr.trans hsz), if_neg (by rintro ⟨-, ⟨⟩⟩), handlerPairs, List.append_nil,
      ← hends.pairs]
    rfl

/-- A session that fails has no frame behind it. -/
theorem Ends.story {r r' : Reader} {t : Session} (h : r.Ends t r') (hstate : r.state = none)
    (hblk : r.blkReader = some t) (hend : t.endErr ≠ .const .endMark) :
    r.story Z = r'.progress := by
  rw [story_of_body hstate hblk, pendingAfter, framesAfter, if_neg (fun hc => hend hc.1),
    handlerPairs, List.append_nil, h.pairs]

/-! ### The operations -/

theorem _readHeader_story {r : Reader} (hok : r.Ok) (hstate : r.state = none)
    (hblk : r.blkReader = none) :
    match r._readHeader S with
    | ((_, some _), r₁) => r.story Z = r₁.progress
    | ((n, none), r₁) => ({ r₁ with srcPos := r₁.srcPos + n } : Reader).story Z = r.story Z := by
  rcases herr : (openFrame r.seeks r.opts r.src).err with _ | e
  · set p := openFrame r.seeks r.opts r.src with hp
    have hsame : (S.blkSession p.hdr p.opts p.src).Same (frameSession Z p.hdr p.opts p.src) :=
      S.blkSession_same (openFrame_serial herr)
    set t := S.blkSession p.hdr p.opts p.src with ht
    have hread : r._readHeader S = ((p.nRead, none),
        { r with opts := p.opts, src := p.src, blkReader := some t }) := by
      simp only [_readHeader, ← hp, herr, ← ht]
    have hspan : (frameSession Z p.hdr p.opts p.src).span = t.span := by
      rw [Session.span, Session.span, hsame.blks]
    have hbytes : (frameSession Z p.hdr p.opts p.src).bytes = t.bytes := by
      rw [Session.bytes, Session.bytes, hsame.blks]
    have hbody := story_of_body (Z := Z) (t := t) (r := { r with
      opts := p.opts, src := p.src, blkReader := some t, srcPos := r.srcPos + p.nRead }) hstate rfl
    rw [hread]
    simp only
    rw [story_of_header hstate hblk, framesOf_opened herr hsame, ← hp, handlerPairs, ← hsame.blks,
      hspan, hbytes, ← hsame.endCnt, hbody]
    simp only [pending, pendingAfter, (hok.between hblk).2, UInt64.zero_add]
  · have hread : r._readHeader S = (((openFrame r.seeks r.opts r.src).nRead, some e),
        { r with opts := (openFrame r.seeks r.opts r.src).opts,
                 src := (openFrame r.seeks r.opts r.src).src }) := by
      simp only [_readHeader, herr]
    rw [hread]
    simp only
    rw [story_of_header hstate hblk, framesOf_error herr, handlerPairs, List.append_nil]

/-- The body of a frame, settled. -/
theorem settle_modeBody_story {r : Reader} {t : Session} (hstate : r.state = none)
    (hblk : r.blkReader = some t) (n : ℕ) :
    (settle (r.modeBody n).1.1 (r.modeBody n).1.2 (r.modeBody n).2).2.story Z = r.story Z := by
  have hpasses : t.blks.length < r.passes := by
    rw [passes, hblk]
    exact Nat.lt_succ_self _
  obtain ⟨t', hadv, hres⟩ := bodyLoop_spec r.passes n r hblk hpasses
  have hkeeps := bodyLoop_keeps r.passes n r hblk hpasses
  rw [← modeBody] at hadv hres hkeeps
  rcases hm : r.modeBody n with ⟨⟨bs, _ | e⟩, r'⟩ <;> rw [hm] at hadv hres hkeeps <;>
    simp only at hadv hres hkeeps ⊢
  · obtain ⟨t'', hblk'', hkeeps⟩ := hkeeps
    obtain rfl : t'' = t' := Option.some.inj (hblk''.symm.trans hadv.blkReader)
    exact hadv.story hkeeps hstate hblk
  · obtain rfl := hres.err
    by_cases hend : t.endErr = .const .endMark
    · have hset : settle bs (some t.endErr) r' = ((bs, r'.handleEndMark.1), r'.passEndMark) := by
        simp only [settle, if_pos hend, passEndMark]
      rw [hset]
      exact hres.story hadv hkeeps hstate hblk hend
    · have hlast : ({ r' with state := some t.endErr } : Reader).story Z = r.story Z := by
        rw [story_of_state (r := { r' with state := some t.endErr }) rfl,
          hkeeps.story hstate hblk hend]
      simp only [settle, if_neg hend]
      split_ifs
      · exact hlast
      · exact hlast

/-- **`Read`** does not change the story. -/
theorem read_story (S : Sched Z) {r : Reader} (hok : r.Ok) (n : ℕ) :
    (r.read S n).2.story Z = r.story Z := by
  rcases hstate : r.state with _ | e
  · rcases hblk : r.blkReader with _ | t
    · have hspec := _readHeader_spec (S := S) hok hstate hblk
      have hstory := _readHeader_story (S := S) hok hstate hblk
      rcases hh : r._readHeader S with ⟨⟨nBytes, _ | e⟩, r₁⟩ <;> rw [hh] at hspec hstory <;>
        simp only at hspec hstory
      · obtain ⟨t, hblk₁, hok₁, hstate₁, -, -⟩ := hspec
        have hread : r.read S n = settle (modeBody n { r₁ with srcPos := r₁.srcPos + nBytes }).1.1
            (modeBody n { r₁ with srcPos := r₁.srcPos + nBytes }).1.2
            (modeBody n { r₁ with srcPos := r₁.srcPos + nBytes }).2 := by
          simp only [read, hstate, hblk, Option.isSome_none, Bool.false_eq_true, if_false,
            modeHeader, hh]
        rw [hread]
        exact (settle_modeBody_story (r := { r₁ with srcPos := r₁.srcPos + nBytes }) hstate₁ hblk₁
          n).trans hstory
      · obtain ⟨-, hne, -⟩ := hspec
        have hread : r.read S n = (([], some e),
            { r₁ with srcPos := r₁.srcPos + nBytes, state := some e }) := by
          simp only [read, hstate, hblk, Option.isSome_none, Bool.false_eq_true, if_false,
            modeHeader, hh, settle, if_neg hne, ne_eq, not_true_eq_false, false_and]
        rw [hread, hstory]
        exact story_of_state (r := { r₁ with srcPos := r₁.srcPos + nBytes, state := some e }) rfl
    · have hread : r.read S n = settle (r.modeBody n).1.1 (r.modeBody n).1.2 (r.modeBody n).2 := by
        simp only [read, hstate, hblk, Option.isSome_some, if_true]
      rw [hread]
      exact settle_modeBody_story hstate hblk n
  · have hread : r.read S n = (([], some e), r) := by simp only [read, hstate]
    rw [hread]

/-- A series of `Read` calls; after an error there is nothing to come. -/
theorem readAll_story (S : Sched Z) (ns : List ℕ) {r : Reader} (hok : r.Ok) :
    (r.readAll S ns).2.story Z = r.story Z ∧
      ∀ e, (r.readAll S ns).1.2 = some e → (r.readAll S ns).2.story Z = (r.readAll S ns).2.progress
    := by
  induction ns generalizing r with
  | nil => exact ⟨rfl, by rintro _ ⟨⟩⟩
  | cons n ns ih =>
      have hread := read_spec S hok n
      have hstory := read_story S hok n
      rcases hr : r.read S n with ⟨⟨bs, _ | e⟩, r₁⟩ <;> rw [hr] at hread hstory <;>
        simp only [readAll, hr] at hread hstory ⊢
      · obtain ⟨hsame, hlast⟩ := ih hread.ok
        exact ⟨hsame.trans hstory, hlast⟩
      · exact ⟨hstory, fun e' he' => story_of_state (hread.last e rfl).2⟩

/-- One frame of `WriteTo`. -/
theorem writeFrame_story {r : Reader} {t : Session} (calls : List WrCall) (hstate : r.state = none)
    (hblk : r.blkReader = some t) : (r.writeFrame .ok calls).2.story Z = r.story Z := by
  have hpasses : t.blks.length < r.passes := by
    rw [passes, hblk]
    exact Nat.lt_succ_self _
  obtain ⟨t', bs, calls', r', hloop, hadv, hmark, -⟩ :=
    writeLoop_spec r.passes calls r hblk hpasses
  have hends := writeLoop_keeps r.passes calls r hblk hpasses
  rw [hloop] at hends
  rw [← _writeTo] at hloop
  by_cases hend : t.endErr = .const .endMark
  · have hframe : r.writeFrame .ok calls = ((bs.length, calls'), r'.passEndMark) := by
      simp only [writeFrame, hloop, hend, if_true]
      rfl
    rw [hframe]
    exact hmark.story hadv hends hstate hblk hend
  · have hframe : r.writeFrame .ok calls
        = ((bs.length, calls'), { r' with state := some t.endErr }) := by
      simp only [writeFrame, hloop, Option.some.injEq, if_neg hend]
    rw [hframe, hends.story hstate hblk hend]
    exact story_of_state (r := { r' with state := some t.endErr }) rfl

/-- **`WriteTo`** tells the story to its end. -/
theorem frameLoop_story (S : Sched Z) (k : ℕ) (calls : List WrCall) {r : Reader} (hok : r.Ok)
    (hk : r.unread < k) : (r.frameLoop S .ok k calls).2.progress = r.story Z := by
  induction k generalizing calls r with
  | zero => omega
  | succ k ih =>
      rcases hst : r.state with _ | e
      · rcases hblk : r.blkReader with _ | t
        · -- the same two cases as for the bytes: a header first, or the rest of a frame
          have hspec := _readHeader_spec (S := S) hok hst hblk
          have hstory := _readHeader_story (S := S) hok hst hblk
          rcases hh : r._readHeader S with ⟨⟨nBytes, _ | e⟩, r₁⟩ <;> rw [hh] at hspec hstory <;>
            simp only at hspec hstory
          · obtain ⟨t, hblk₁, hok₁, hst₁, -, hrest⟩ := hspec
            obtain ⟨bs, calls₁, r₂, hframe, hok₂, -, -, -, hnext⟩ :=
              writeFrame_spec (Z := Z) (r := { r₁ with srcPos := r₁.srcPos + nBytes }) calls
                ⟨hok₁.between, hok₁.inFrame⟩ hst₁ hblk₁
            have hwrite := writeFrame_story (Z := Z)
              (r := { r₁ with srcPos := r₁.srcPos + nBytes }) calls hst₁ hblk₁
            rw [hframe] at hwrite
            have hk₁ : r₂.unread < k := by
              rw [unread, hst, hblk] at hk
              simp only at hk
              refine unread_frame (by omega) (fun hmark => ?_) hnext
              have hlen := hrest hmark
              omega
            simp only [frameLoop, hst, hblk, Option.isSome_none, Bool.false_eq_true, if_false, hh,
              hframe]
            exact (ih calls₁ hok₂ hk₁).trans (hwrite.trans hstory)
          · simp only [frameLoop, hst, hblk, Option.isSome_none, Bool.false_eq_true, if_false, hh]
            exact hstory.symm
        · obtain ⟨bs, calls₁, r₁, hframe, hok₁, -, -, -, hnext⟩ :=
            writeFrame_spec (Z := Z) calls hok hst hblk
          have hwrite := writeFrame_story (Z := Z) calls hst hblk
          rw [hframe] at hwrite
          have hk₁ : r₁.unread < k := by
            rw [unread, hst, hblk] at hk
            simp only at hk
            exact unread_frame (by omega) (fun _ => by omega) hnext
          simp only [frameLoop, hst, hblk, Option.isSome_none, Option.isSome_some,
            Bool.false_eq_true, if_false, if_true, hframe]
          exact (ih calls₁ hok₁ hk₁).trans hwrite
      · simp only [frameLoop, hst, Option.isSome_some, if_true]
        exact (story_of_state hst).symm

end Reader

/-! ## The pairs and the places -/

theorem openFrame_skipCallback (seeks : Option SeekT) (o : OptsT) (src : Bytes) :
    (openFrame seeks o src).opts.skipCallback = o.skipCallback := by
  have hoff : ∀ o n hdr s, (applyOffset seeks o n hdr s).opts.skipCallback = o.skipCallback := by
    intro o n hdr s
    rw [applyOffset]
    split_ifs
    · rfl
    · rfl
    · rfl
    · rcases skipOffset seeks s (o.readOffset - hdr.sz).toNat with ⟨⟨m, _ | e⟩, rest⟩ <;> rfl
  have hframe : ∀ o hdr, (serialOpts (cacheContentSz o hdr) hdr).skipCallback = o.skipCallback :=
    fun o hdr => (frameOpts_fields o hdr).2.2.2.2.2.1
  simp only [openFrame]
  rcases (readHeaders o.skipCallback (src.length + 1) src).1.err with _ | e
  · have hask := (askDict_fields o (readHeaders o.skipCallback (src.length + 1) src).1.hdr).2.2.2.2.2
    rcases hd : askDict o (readHeaders o.skipCallback (src.length + 1) src).1.hdr
      with ⟨_ | e, o'⟩ <;> rw [hd] at hask <;> simp only at hask ⊢
    · split
      · rw [hoff, hask]
      · rw [hframe, hoff, hask]
    · exact hask
  · rfl

/-- A frame that a clean stream opens: its first size word is where the header ends. -/
theorem openFrame_place (hcb : SkipCounts o.skipCallback) {src : Bytes}
    (h : (openFrame seeks o src).err = none)
    (hend : (frameSession Z (openFrame seeks o src).hdr (openFrame seeks o src).opts
      (openFrame seeks o src).src).endErr = .const .endMark) :
    (openFrame seeks o src).nRead + (openFrame seeks o src).src.length = src.length := by
  refine openFrame_count hcb h ?_
  intro hnil
  obtain ⟨-, hlen, -⟩ := frameSession_span hend
  rw [hnil, endSz] at hlen
  simp only [List.length_nil] at hlen
  omega

/-- **The pairs of a clean stream** are the places of the size words, unless there is a
second frame: the bytes of the end mark of the first are not counted. -/
theorem handlerPairs_eq_iff (hcb : SkipCounts o.skipCallback) {src bs : Bytes}
    (h : decodeStream Z seeks o src = (bs, .eof)) (total : ℕ) (d : ℤ) :
    handlerPairs Z (total - src.length) d (framesOf Z seeks o src)
        = offsetPairs Z total d (framesOf Z seeks o src)
      ↔ (framesOf Z seeks o src).length ≤ 1 := by
  rcases herr : (openFrame seeks o src).err with _ | e
  · obtain ⟨hend, hsz, bs', hrest, -⟩ := decodeStream_eof rfl herr rfl h
    have hplace := openFrame_place (Z := Z) hcb herr hend
    have hcb' : SkipCounts (openFrame seeks o src).opts.skipCallback := by
      rw [openFrame_skipCallback]
      exact hcb
    rw [framesOf_opened herr (Session.Same.refl _), framesAfter, if_pos ⟨hend, hsz⟩, handlerPairs,
      offsetPairs]
    set p := openFrame seeks o src with hp
    set t := frameSession Z p.hdr p.opts p.src with ht
    obtain ⟨hcnt, hspan, hleft⟩ := frameSession_span hend
    rw [← ht] at hcnt hspan hleft
    have hhead : blkPairs ((total : ℤ) - src.length + p.nRead) d t.blks
        = (List.range (t.blks.length + 1)).map (fun i =>
          ((total : ℤ) - (leftAt (readerFrame p.hdr) i p.src).length,
            d + ((t.blks.take i).flatMap Prod.fst).length)) := by
      rw [blkPairs_eq]
      apply List.map_congr_left
      intro i hi
      have hi := hleft i (Nat.lt_succ_iff.mp (List.mem_range.mp hi))
      simp only [Prod.mk.injEq, and_true]
      omega
    rw [hhead, List.append_right_inj, List.length_cons]
    rcases herr₂ : (openFrame seeks p.opts t.rest).err with _ | e
    · obtain ⟨hend₂, -⟩ := decodeStream_eof rfl herr₂ rfl hrest
      have hplace₂ := openFrame_place (Z := Z) hcb' herr₂ hend₂
      rw [framesOf_opened herr₂ (Session.Same.refl _), handlerPairs, offsetPairs]
      set p₂ := openFrame seeks p.opts t.rest with hp₂
      set t₂ := frameSession Z p₂.hdr p₂.opts p₂.src with ht₂
      -- the first pair of the second frame is off
      constructor
      · intro heq
        exfalso
        have hfst := congrArg (fun l => l.head?.map Prod.fst) heq
        rw [blkPairs_eq] at hfst
        simp only [List.range_succ_eq_map, List.map_cons, List.cons_append, List.head?_cons,
          Option.map_some, Option.some.injEq, List.take_zero, List.map_nil, List.sum_nil, leftAt,
          Function.iterate_zero, id_eq] at hfst
        rw [endSz] at hspan
        rw [hcnt] at hfst
        push_cast at hfst
        omega
      · intro hle
        rw [List.length_cons] at hle
        omega
    · rw [framesOf_error herr₂]
      exact iff_of_true rfl (Nat.le_refl 1)
  · rw [framesOf_error herr]
    exact iff_of_true rfl (Nat.zero_le 1)

namespace Reader

/-- A reader that has come to the end has told its story. -/
theorem ReachesEnd.progress {r r' : Reader} {bs : Bytes} (hok : r.Ok)
    (h : r.ReachesEnd S bs r') : r'.progress = r.story Z := by
  cases h with
  | read ns heof =>
      obtain ⟨hsame, hlast⟩ := readAll_story S ns hok
      exact (hlast _ heof).symm.trans hsame
  | writeTo ns plan hplan hnone hnil =>
      obtain ⟨hok₁, -, -⟩ := readAll_spec S ns hok
      obtain ⟨hsame, -⟩ := readAll_story S ns hok
      set r₁ := (r.readAll S ns).2 with hr₁
      have heq : r₁.writeTo S plan = r₁.writeTo S .ok :=
        (frameLoop_plan hplan S _ [] r₁).resolve_right (fun hne => hne hnil)
      rw [heq, Reader.writeTo, frameLoop_story S _ [] hok₁ r₁.unread_lt, hsame]

end Reader

/-- **Reader progress offsets.** The pairs of a reader that comes to a clean end are the
places of the size words exactly if there is no second frame. -/
theorem newReader_progress_iff (S : Sched Z) (seeks : Option SeekT)
    (hskip : SkipCounts o.skipCallback)
    (src : Bytes) {bs : Bytes} {r : Reader} (hend : (newReader src seeks o).ReachesEnd S bs r) :
    r.progress = offsetPairs Z src.length 0 (framesOf Z seeks o src)
      ↔ (framesOf Z seeks o src).length ≤ 1 := by
  have hfuture := hend.future (Reader.newReader_ok src seeks o)
  have hstory := hend.progress (Reader.newReader_ok src seeks o)
  have hclean : decodeStream Z seeks o src = (bs, .eof) := hfuture
  have hpairs : (newReader src seeks o).story Z
      = handlerPairs Z (src.length - src.length) 0 (framesOf Z seeks o src) := by
    rw [Reader.story_of_header rfl rfl, Int.sub_self]
    rfl
  rw [hstory, hpairs]
  exact handlerPairs_eq_iff hskip hclean src.length 0

/-- A frame of one block. -/
theorem newReader_progress_one_frame :
    ∃ (S : Sched litEngine) (r : Reader),
      (newReader Lz4Frame.lit.bytes none .sync64KB).ReachesEnd S [7] r ∧
        r.progress = offsetPairs litEngine 17 0
          (framesOf litEngine none .sync64KB Lz4Frame.lit.bytes) := by
  obtain ⟨S⟩ := Sched.nonempty litEngine
  have hdec : (newReader Lz4Frame.lit.bytes none .sync64KB).Delivers S [7] .eof :=
    (newReader_delivers_iff _ _ _ _ _ _).mpr (by decide +kernel)
  obtain ⟨r, hr⟩ := hdec.reachesEnd
  exact ⟨S, r, hr, (newReader_progress_iff S none .none Lz4Frame.lit.bytes hr).mpr
    (by decide +kernel)⟩

/-- The same frame twice: the block of the second is four bytes behind its place. -/
theorem newReader_progress_second_frame :
    ∃ (S : Sched litEngine) (r : Reader),
      (newReader (Lz4Frame.lit.bytes ++ Lz4Frame.lit.bytes) none .sync64KB).ReachesEnd S [7, 7] r ∧
        r.progress = [(7, 0), (13, 1), (20, 1), (26, 2)] ∧
        offsetPairs litEngine 34 0
          (framesOf litEngine none .sync64KB (Lz4Frame.lit.bytes ++ Lz4Frame.lit.bytes))
            = [(7, 0), (13, 1), (24, 1), (30, 2)] := by
  obtain ⟨S⟩ := Sched.nonempty litEngine
  have hdec : (newReader (Lz4Frame.lit.bytes ++ Lz4Frame.lit.bytes) none .sync64KB).Delivers S
      [7, 7] .eof := (newReader_delivers_iff _ _ _ _ _ _).mpr (by decide +kernel)
  obtain ⟨r, hr⟩ := hdec.reachesEnd
  refine ⟨S, r, hr, ?_, by decide +kernel⟩
  rw [hr.progress (Reader.newReader_ok _ _ _)]
  decide +kernel

end Plz4
