/-
Truncated streams: what a Reader makes of a prefix of a stream that it decodes.

Every read is exact, so a cut can only fall between two items, in a header, in a block or
in a trailer, and each of these is one lemma.
-/
import Plz4.ReaderSpec
import Plz4.Frames

set_option autoImplicit false

namespace Plz4

variable {Z : Clz4} {seeks : Option SeekT} {o : OptsT}

/-! ## Cuts in a piece -/

/-- A cut in a block or a trailer. -/
theorem ReadAccepted.cut {fr : FrameReader} {src q p : Bytes} (h : ReadAccepted fr src q)
    (hp : p <+: q) (hne : p ≠ q) :
    ∃ e fr' rest, fr.read p = ((.error e, fr'), rest) ∧ e.ShortRead ∧ e ≠ .const .endMark := by
  obtain ⟨e, he, hshort⟩ := h.exact.short p hp hne
  rcases hr : fr.read p with ⟨⟨r, fr'⟩, rest⟩
  rw [hr] at he
  simp only at he
  subst he
  refine ⟨e, fr', rest, rfl, hshort, ?_⟩
  -- an end mark would be taken exactly
  rintro rfl
  have hok : ReadOk (fr.read p).1 := .inr (by rw [hr])
  obtain ⟨q', hq'⟩ := FrameReader.read_ok hok
  have hpre : q' <+: p := ⟨_, hq'.split.symm⟩
  have heq := (Reads.eq_of_prefix h.exact.append hq'.exact.append (hpre.trans hp)).1
  exact hne (hp.eq_of_length (Nat.le_antisymm hp.length_le (heq ▸ hpre.length_le)))

/-- A cut in a header. -/
theorem HdrAccepted.cut {src q p : Bytes} (h : HdrAccepted none src q)
    (hok : (readHeader src none).1.err = none) (hp : p <+: q) (hne : p ≠ q) (hnil : p ≠ []) :
    ∃ e, (readHeader p none).1.err = some e ∧ e.ShortRead ∧ e ≠ .const .endMark := by
  obtain ⟨e, he, hshort⟩ := h.short p hp hne hnil
  refine ⟨e, he, hshort, ?_⟩
  rintro rfl
  obtain ⟨q', hq'⟩ := readHeader_skip_ok he
  have hpre : q' <+: q := List.IsPrefix.trans ⟨_, hq'.split.symm⟩ hp
  have heq := (Reads.eq_of_prefix (f := fun s => readHeader s none) h.append hq'.append hpre).2
  rw [heq, hok] at he
  cases he

/-- A cut in a skip frame. Its eighth byte is read apart from the seven before. -/
theorem SkipFrame.cut (s : SkipFrame) {p : Bytes} (hp : p <+: s.bytes) (hne : p ≠ s.bytes)
    (hnil : p ≠ []) :
    ∃ e, (readHeader p none).1.err = some e ∧ e.Short ∧ e ≠ .const .endMark
      ∧ (e.Classified ↔ p.length ≠ lz4MinHeaderSz) := by
  have hread : ∀ t, readHeader (s.bytes ++ t) none
      = (⟨s.bytes.length, .zero, some (.const .endMark)⟩, t) := readHeader_skipFrame .none s
  have hwhole := hread []
  rw [List.append_nil] at hwhole
  have hok : (readHeader s.bytes none).1.err = some (.const .endMark) := by rw [hwhole]
  obtain ⟨q, hq⟩ := readHeader_skip_ok hok
  have hsplit := hq.split
  rw [hwhole, List.append_nil] at hsplit
  by_cases hseven : p.length = lz4MinHeaderSz
  · have he := hq.seven p (hsplit ▸ hp) hseven
    exact ⟨_, he, Err.short_join1.1, by simp,
      iff_of_false Err.short_join1.2 (not_not.mpr hseven)⟩
  · obtain ⟨e, he, hshort⟩ := hq.short p (hsplit ▸ hp) (fun h => hne (h.trans hsplit.symm)) hnil
      hseven
    refine ⟨e, he, hshort.toShort, ?_, iff_of_true hshort.classified hseven⟩
    rintro rfl
    obtain ⟨q', hq'⟩ := readHeader_skip_ok he
    have hpre : q' <+: p := ⟨_, hq'.split.symm⟩
    have heq := (Reads.eq_of_prefix (f := fun s => readHeader s none) hread hq'.append
      (hpre.trans hp)).1
    exact hne (hp.eq_of_length (Nat.le_antisymm hp.length_le (heq ▸ hpre.length_le)))

/-! ## Cuts between the blocks of a frame -/

/-- How many of the sizes fit in `n`, one after the other. -/
def fit : ℕ → List ℕ → ℕ
  | _, [] => 0
  | n, c :: cs => if c ≤ n then fit (n - c) cs + 1 else 0

/-- The blocks of a truncated frame body, and the error after them. -/
theorem parseFrames_cut {fr : FrameReader} {src p : Bytes}
    (hend : (parseFrames fr src).err = .const .endMark) (hwhole : (parseFrames fr src).rest = [])
    (hp : p <+: src) (hne : p ≠ src) :
    (parseFrames fr p).frames = (parseFrames fr src).frames.take
        (fit p.length ((parseFrames fr src).frames.map FrameT.readCnt)) ∧
      (parseFrames fr p).err.ShortRead ∧ (parseFrames fr p).err ≠ .const .endMark := by
  induction hn : src.length using Nat.strongRecOn generalizing src p with
  | ind n ih =>
      rcases hr : fr.read src with ⟨⟨e | frame, fr'⟩, rest⟩
      · -- the end mark stands here, so the cut is inside it
        rw [parseFrames_error hr] at hend hwhole ⊢
        have hend : e = .const .endMark := hend
        have hwhole : rest = [] := hwhole
        subst hend hwhole
        have hok : ReadOk (fr.read src).1 := .inr (by rw [hr])
        obtain ⟨q, hq⟩ := FrameReader.read_ok hok
        have hsplit := hq.split
        rw [hr, List.append_nil] at hsplit
        obtain ⟨e, fr'', rest, hcut, hshort, hmark⟩ := hq.cut (hsplit ▸ hp)
          (fun h => hne (h.trans hsplit.symm))
        rw [parseFrames_error hcut]
        exact ⟨List.take_nil.symm, hshort, hmark⟩
      · obtain rfl := FrameReader.read_ok_fr hr
        have hlen := FrameReader.read_ok_length hr
        have hok : ReadOk (fr'.read src).1 := .inl ⟨frame, by rw [hr]⟩
        obtain ⟨q, hq⟩ := FrameReader.read_ok hok
        have hsplit := hq.split
        have happ := hq.exact.append
        have hcnt := hq.readCnt frame (by rw [hr])
        rw [hr] at hsplit happ
        rw [parseFrames_ok hr] at hend hwhole ⊢
        simp only at hsplit hend hwhole
        rw [hsplit] at hp hne
        simp only [List.map_cons, fit, hcnt]
        -- a block stands here: the cut is inside it, or behind it
        rcases Reads.prefix_append_cases hp with ⟨hpre, hne'⟩ | ⟨p', rfl, hpre⟩
        · obtain ⟨e, fr'', rest', hcut, hshort, hmark⟩ := hq.cut hpre hne'
          have hlt : ¬ q.length ≤ p.length := fun hle =>
            hne' (hpre.eq_of_length (Nat.le_antisymm hpre.length_le hle))
          rw [parseFrames_error hcut, if_neg hlt, List.take_zero]
          exact ⟨rfl, hshort, hmark⟩
        · have hle : q.length ≤ (q ++ p').length := by
            rw [List.length_append]
            omega
          have hsub : (q ++ p').length - q.length = p'.length := by
            rw [List.length_append]
            omega
          obtain ⟨hframes, hshort, hmark⟩ := ih rest.length (by omega) hend hwhole hpre
            (fun h => hne (by rw [h])) rfl
          rw [parseFrames_ok (happ p'), if_pos hle, hsub, List.take_succ_cons]
          exact ⟨congrArg (frame :: ·) hframes, hshort, hmark⟩

/-! ## The sessions of truncated frames -/

/-- A session that reaches the end mark decoded every block. -/
theorem sessionOf_all_ok {hasher : Option Xxh32.XXHZero} {p : Parsed}
    {ds : List (Except Err Bytes × ℕ)} (hds : ∀ n, (.error (.const .endMark), n) ∉ ds)
    (h : (sessionOf hasher p ds).endErr = .const .endMark) :
    ds = (sessionOf hasher p ds).blks.map (fun b => (.ok b.1, b.2)) := by
  induction ds generalizing hasher with
  | nil => rfl
  | cons d ds ih =>
      obtain ⟨e | b, n⟩ := d
      · exact absurd (h ▸ List.mem_cons_self) (hds n)
      · exact congrArg _ (ih (fun n hn => hds n (List.mem_cons_of_mem _ hn)) h)

/-- The blocks of a session whose decoding goes well. -/
theorem sessionOf_blks {hasher : Option Xxh32.XXHZero} {p : Parsed} (bs : List (Bytes × ℕ)) :
    (sessionOf hasher p (bs.map (fun b => (.ok b.1, b.2)))).blks = bs := by
  induction bs generalizing hasher with
  | nil => rfl
  | cons b bs ih => exact congrArg (b :: ·) ih

/-- The call that ends it has no count to report. -/
theorem sessionOf_endCnt {hasher : Option Xxh32.XXHZero} {p : Parsed} (bs : List (Bytes × ℕ)) :
    (sessionOf hasher p (bs.map (fun b => (.ok b.1, b.2)))).endCnt = 0 := by
  induction bs generalizing hasher with
  | nil => rfl
  | cons b bs ih => exact ih

/-- Its error is that of the parse, with the content hash checked. -/
theorem sessionOf_checkSum {hasher : Option Xxh32.XXHZero} {p : Parsed} (bs : List (Bytes × ℕ)) :
    (sessionOf hasher p (bs.map (fun b => (.ok b.1, b.2)))).endErr
      = checkSum (hasher.map (fun h => (bs.map Prod.fst).foldl Xxh32.XXHZero.write h)) p.fr.srcSum
        p.err := by
  induction bs generalizing hasher with
  | nil => cases hasher <;> rfl
  | cons b bs ih =>
      refine ih.trans ?_
      rw [Option.map_map]
      rfl

/-- Short of the end mark there is nothing to check. -/
theorem sessionOf_endErr {hasher : Option Xxh32.XXHZero} {p : Parsed} (bs : List (Bytes × ℕ))
    (h : p.err ≠ .const .endMark) :
    (sessionOf hasher p (bs.map (fun b => (.ok b.1, b.2)))).endErr = p.err := by
  exact (sessionOf_checkSum bs).trans (if_neg h)

theorem decodeAll_take (Z : Clz4) (bsz : ℕ) (dc : Decompressor) (fs : List FrameT) (k : ℕ) :
    decodeAll Z bsz dc (fs.take k) = (decodeAll Z bsz dc fs).take k := by
  induction fs generalizing dc k with
  | nil => rw [List.take_nil, decodeAll, List.take_nil]
  | cons f fs ih =>
      cases k with
      | zero => rfl
      | succ k => rw [List.take_succ_cons, decodeAll, decodeAll, List.take_succ_cons, ih]

theorem map_snd_decodeAll (Z : Clz4) (bsz : ℕ) (dc : Decompressor) (fs : List FrameT) :
    (decodeAll Z bsz dc fs).map Prod.snd = fs.map FrameT.readCnt := by
  induction fs generalizing dc with
  | nil => rfl
  | cons f fs ih => rw [decodeAll, List.map_cons, List.map_cons, ih]

/-- The session on a truncated frame body: the blocks that are there, and an error for
missing input. -/
theorem Lz4Frame.session_cut (f : Lz4Frame) (h : (f.session Z o).endErr = .const .endMark) {p : Bytes}
    (hp : p <+: f.body) (hne : p ≠ f.body) :
    (frameSession Z f.hdr o p).blks
        = (f.session Z o).blks.take (fit p.length ((f.session Z o).blks.map Prod.snd)) ∧
      (frameSession Z f.hdr o p).endErr.ShortRead ∧
      (frameSession Z f.hdr o p).endErr ≠ .const .endMark := by
  obtain ⟨hframes, hshort, hmark⟩ := parseFrames_cut f.parsed_err f.parsed_rest hp hne
  set bs := (f.session Z o).blks with hbs
  have hall : decodeAll Z (readerFrame f.hdr).bsz (readerDc f.hdr o) f.parsed.frames
      = bs.map (fun b => (.ok b.1, b.2)) := sessionOf_all_ok (decodeAll_ne_endMark _ _ _ _) h
  have hsizes : bs.map Prod.snd = f.parsed.frames.map FrameT.readCnt := by
    rw [← map_snd_decodeAll Z (readerFrame f.hdr).bsz (readerDc f.hdr o), hall, List.map_map]
    rfl
  have hdec : decodeAll Z (readerFrame f.hdr).bsz (readerDc f.hdr o)
      (parseFrames (readerFrame f.hdr) p).frames
      = (bs.take (fit p.length (bs.map Prod.snd))).map (fun b => (.ok b.1, b.2)) := by
    rw [hsizes, List.map_take, ← hall, ← decodeAll_take]
    exact congrArg (decodeAll Z (readerFrame f.hdr).bsz (readerDc f.hdr o)) hframes
  rw [frameSession, hdec]
  refine ⟨sessionOf_blks _, ?_⟩
  rw [sessionOf_endErr _ hmark]
  exact ⟨hshort, hmark⟩

/-! ## Where the blocks of a stream end -/

/-- The blocks of a frame, each with the place where its bytes end. -/
def blkEnds : ℕ → List (Bytes × ℕ) → List (ℕ × Bytes)
  | _, [] => []
  | off, (b, n) :: bs => (off + n, b) :: blkEnds (off + n) bs

/-- The data blocks of a stream that starts at `off`. -/
def dataBlocks (Z : Clz4) (o : OptsT) : ℕ → List Item → List (ℕ × Bytes)
  | _, [] => []
  | off, .frame f :: is =>
      blkEnds (off + f.hdr.sz) (f.session Z o).blks ++ dataBlocks Z o (off + f.bytes.length) is
  | off, .skip s :: is => dataBlocks Z o (off + s.bytes.length) is

/-- The content of the blocks that lie before `n`. -/
def contentUpTo (n : ℕ) (bs : List (ℕ × Bytes)) : Bytes :=
  (bs.filter (fun b => b.1 ≤ n)).flatMap Prod.snd

theorem le_of_mem_blkEnds {off : ℕ} {bs : List (Bytes × ℕ)} {e : ℕ × Bytes}
    (h : e ∈ blkEnds off bs) : off ≤ e.1 := by
  induction bs generalizing off with
  | nil => cases h
  | cons b bs ih =>
      rcases List.mem_cons.mp h with rfl | h
      · exact Nat.le_add_right _ _
      · exact (Nat.le_add_right _ _).trans (ih h)

theorem le_of_mem_dataBlocks {off : ℕ} {is : List Item} {e : ℕ × Bytes}
    (h : e ∈ dataBlocks Z o off is) : off ≤ e.1 := by
  induction is generalizing off with
  | nil => cases h
  | cons i is ih =>
      cases i with
      | frame f =>
          rw [dataBlocks, List.mem_append] at h
          rcases h with h | h
          · exact (Nat.le_add_right _ _).trans (le_of_mem_blkEnds h)
          · exact (Nat.le_add_right _ _).trans (ih h)
      | skip s => exact (Nat.le_add_right _ _).trans (ih h)

theorem contentUpTo_append (n : ℕ) (bs bs' : List (ℕ × Bytes)) :
    contentUpTo n (bs ++ bs') = contentUpTo n bs ++ contentUpTo n bs' := by
  rw [contentUpTo, List.filter_append, List.flatMap_append]
  rfl

theorem contentUpTo_nil {n : ℕ} {bs : List (ℕ × Bytes)} (h : ∀ e ∈ bs, n < e.1) :
    contentUpTo n bs = [] := by
  rw [contentUpTo, List.filter_eq_nil_iff.mpr]
  · rfl
  · intro e he
    rw [decide_eq_true_eq]
    exact Nat.not_le.mpr (h e he)

/-- The blocks before `off + n` are the ones that fit in `n`. -/
theorem contentUpTo_blkEnds (off n : ℕ) (bs : List (Bytes × ℕ)) :
    contentUpTo (off + n) (blkEnds off bs)
      = (bs.take (fit n (bs.map Prod.snd))).flatMap Prod.fst := by
  induction bs generalizing off n with
  | nil => rfl
  | cons b bs ih =>
      obtain ⟨b, c⟩ := b
      rw [List.map_cons, fit, blkEnds, ← List.singleton_append, contentUpTo_append]
      by_cases hle : c ≤ n
      · have hsum : off + n = off + c + (n - c) := by omega
        have hin : contentUpTo (off + n) [(off + c, b)] = b := by
          rw [contentUpTo, List.filter_cons_of_pos (by simpa using hle), List.filter_nil]
          exact List.append_nil b
        rw [if_pos hle, List.take_succ_cons, List.flatMap_cons, hin, hsum, ih]
      · rw [if_neg hle, List.take_zero, List.flatMap_nil, contentUpTo_nil, contentUpTo_nil]
        · rfl
        · intro e he
          have hge := le_of_mem_blkEnds he
          omega
        · intro e he
          rw [List.mem_singleton.mp he]
          exact Nat.add_lt_add_left (Nat.not_le.mp hle) off

theorem fit_of_sum_le {n : ℕ} {cs : List ℕ} (h : cs.sum ≤ n) : fit n cs = cs.length := by
  induction cs generalizing n with
  | nil => rfl
  | cons c cs ih =>
      rw [List.sum_cons] at h
      rw [fit, if_pos (by omega), ih (by omega), List.length_cons]

/-- The blocks of a parse, one after the other, lie in the source. -/
theorem sum_readCnt_le (fr : FrameReader) (src : Bytes) :
    ((parseFrames fr src).frames.map FrameT.readCnt).sum ≤ src.length := by
  induction hn : src.length using Nat.strongRecOn generalizing src with
  | ind n ih =>
      rcases hr : fr.read src with ⟨⟨e | frame, fr'⟩, rest⟩
      · rw [parseFrames_error hr]
        exact Nat.zero_le _
      · have hlen := FrameReader.read_ok_length hr
        have hok : ReadOk (fr.read src).1 := .inl ⟨frame, by rw [hr]⟩
        obtain ⟨q, hq⟩ := FrameReader.read_ok hok
        have hsplit := congrArg List.length hq.split
        have hcnt := hq.readCnt frame (by rw [hr])
        rw [List.length_append, hr] at hsplit
        simp only at hsplit
        obtain rfl := FrameReader.read_ok_fr hr
        have hrest := ih rest.length (by omega) rest rfl
        rw [parseFrames_ok hr, List.map_cons, List.sum_cons]
        omega

/-! ## Cuts in a stream -/

/-- Options without a read offset and without callbacks. -/
structure OptsT.Plain (o : OptsT) : Prop where
  readOffset : o.readOffset = 0
  dictCallback : o.dictCallback = none
  skipCallback : o.skipCallback = none

theorem OptsT.Plain.askDict (h : o.Plain) (hdr : HeaderT) : Plz4.askDict o hdr = (none, o) := by
  rw [Plz4.askDict, h.dictCallback]
  split_ifs <;> rfl

/-- A frame leaves the options plain, and other frames decode as before. -/
theorem OptsT.Plain.frameOpts (h : o.Plain) (hdr : HeaderT) :
    (Plz4.frameOpts o hdr).Plain ∧
      ∀ f : Lz4Frame, f.session Z (Plz4.frameOpts o hdr) = f.session Z o := by
  obtain ⟨hoff, -, -, -, hdcb, hscb, -⟩ := frameOpts_fields o hdr
  exact ⟨⟨hoff.trans h.readOffset, hdcb.trans h.dictCallback, hscb.trans h.skipCallback⟩,
    fun f => frameSession_frameOpts _ _ _⟩

theorem dataBlocks_congr {o' : OptsT} (h : ∀ f : Lz4Frame, f.session Z o' = f.session Z o) (off : ℕ)
    (is : List Item) : dataBlocks Z o' off is = dataBlocks Z o off is := by
  induction is generalizing off with
  | nil => rfl
  | cons i is ih =>
      cases i with
      | frame f => rw [dataBlocks, dataBlocks, h, ih]
      | skip s => rw [dataBlocks, dataBlocks, ih]

theorem content_congr {o' : OptsT} (h : ∀ f : Lz4Frame, f.session Z o' = f.session Z o) (i : Item) :
    i.content Z o' = i.content Z o := by
  cases i with
  | frame f => rw [Item.content, Item.content, h]
  | skip s => rfl

/-- A cut in the first header of a stream. -/
theorem decodeStream_cut_header (h : o.Plain) {p : Bytes} {e : Err}
    (he : (readHeader p none).1.err = some e) (hmark : e ≠ .const .endMark) :
    decodeStream Z seeks o p = ([], e) := by
  have hne : (readHeader p o.skipCallback).1.err ≠ some (.const .endMark) := by
    rw [h.skipCallback, he]
    exact fun heq => hmark (Option.some.inj heq)
  have hread := readHeaders_of_header hne (p.length + 1)
  rw [h.skipCallback] at hread
  refine decodeStream_error ?_
  simp only [openFrame, h.skipCallback, hread, he]

/-- **A cut in a frame.** -/
theorem decodeStream_cut_frame (h : o.Plain) (f : Lz4Frame)
    (hend : (f.session Z o).endErr = .const .endMark) {p : Bytes} (hp : p <+: f.bytes)
    (hne : p ≠ f.bytes) (hnil : p ≠ []) (off : ℕ) :
    ∃ e, decodeStream Z seeks o p
        = (contentUpTo (off + p.length) (blkEnds (off + f.hdr.sz) (f.session Z o).blks), e) ∧
      e.ShortRead := by
  obtain ⟨q, hq⟩ := readHeader_ok f.header
  have hsplit : f.bytes = q ++ f.body := hq.split
  have hsz : f.hdr.sz = q.length := hq.sz
  rw [hsplit] at hp hne
  rcases Reads.prefix_append_cases hp with ⟨hpre, hne'⟩ | ⟨p', rfl, hpre⟩
  · -- in the header: no block is delivered
    obtain ⟨e, he, hshort, hmark⟩ := hq.cut f.header hpre hne' hnil
    have hlt : p.length < q.length := by
      refine Nat.lt_of_le_of_ne hpre.length_le fun heq => hne' (hpre.eq_of_length heq)
    refine ⟨e, ?_, hshort⟩
    rw [decodeStream_cut_header h he hmark, contentUpTo_nil]
    intro b hb
    have hge := le_of_mem_blkEnds hb
    omega
  · -- in the body: the blocks that are whole are delivered
    obtain ⟨hblks, hshort, hmark⟩ := f.session_cut hend hpre (fun heq => hne (by rw [heq]))
    have hread : readHeader (q ++ p') o.skipCallback
        = (⟨(readHeader f.bytes none).1.nRead, f.hdr, none⟩, p') := by
      rw [h.skipCallback, hq.append, Lz4Frame.hdr, ← f.header]
    have hopen : openFrame seeks o (q ++ p') = _ :=
      openFrame_header hread h.readOffset (h.askDict f.hdr)
    have hok : (openFrame seeks o (q ++ p')).err = none := by rw [hopen]
    have hsame : (frameSession Z f.hdr o p').Same (frameSession Z (openFrame seeks o (q ++ p')).hdr
        (openFrame seeks o (q ++ p')).opts (openFrame seeks o (q ++ p')).src) := by
      rw [hopen]
      simp only
      rw [frameSession_frameOpts]
      exact Session.Same.refl _
    have hplace : off + (q ++ p').length = off + f.hdr.sz + p'.length := by
      rw [List.length_append, hsz, Nat.add_assoc]
    refine ⟨(frameSession Z f.hdr o p').endErr, ?_, hshort⟩
    rw [decodeStream_opened hok hsame, frameTail, if_neg hmark, ahead, List.append_nil, hplace,
      contentUpTo_blkEnds, ← hblks]
    rfl

/-- A frame that is all there has all its blocks. -/
theorem contentUpTo_frame (f : Lz4Frame) (hend : (f.session Z o).endErr = .const .endMark)
    (off : ℕ) {n : ℕ} (hn : f.bytes.length ≤ n) :
    contentUpTo (off + n) (blkEnds (off + f.hdr.sz) (f.session Z o).blks)
      = (f.session Z o).bytes := by
  have hall : decodeAll Z (readerFrame f.hdr).bsz (readerDc f.hdr o) f.parsed.frames
      = (f.session Z o).blks.map (fun b => (.ok b.1, b.2)) :=
    sessionOf_all_ok (decodeAll_ne_endMark _ _ _ _) hend
  have hsizes : (f.session Z o).blks.map Prod.snd = f.parsed.frames.map FrameT.readCnt := by
    rw [← map_snd_decodeAll Z (readerFrame f.hdr).bsz (readerDc f.hdr o), hall, List.map_map]
    rfl
  have hsum : ((f.session Z o).blks.map Prod.snd).sum ≤ f.body.length := by
    rw [hsizes]
    exact sum_readCnt_le _ _
  have hlen := f.length_bytes
  have hplace : off + n = off + f.hdr.sz + (n - f.hdr.sz) := by omega
  rw [hplace, contentUpTo_blkEnds, fit_of_sum_le (by omega), List.length_map, List.take_length]
  rfl

/-- A stream cut between two pieces decodes cleanly to what came before. -/
theorem decodeStream_take {is : List Item} (h : o.Plain) {bs : Bytes}
    (hdec : decodeStream Z seeks o (streamBytes is) = (bs, .eof)) (k : ℕ) :
    decodeStream Z seeks o (streamBytes (is.take k))
      = ((is.take k).flatMap (Item.content Z o), .eof) := by
  induction is generalizing o k bs with
  | nil => rw [List.take_nil]; exact decodeStream_nil Z seeks o
  | cons i is ih =>
      cases k with
      | zero => exact decodeStream_nil Z seeks o
      | succ k =>
          cases i with
          | frame f =>
              have hask := h.askDict f.hdr
              obtain ⟨hplain, hsame⟩ := h.frameOpts (Z := Z) f.hdr
              obtain ⟨hend, hsz, bs', hrest, -⟩ := decodeStream_frame_eof f h.readOffset hask hdec
              have hcontent : (is.take k).flatMap (Item.content Z (frameOpts o f.hdr))
                  = (is.take k).flatMap (Item.content Z o) :=
                List.flatMap_congr fun i _ => content_congr hsame i
              have htail := ih hplain hrest k
              rw [hcontent] at htail
              refine (decodeStream_frame_ok f h.readOffset hask hend hsz _).trans ?_
              exact congrArg (ahead (f.session Z o).bytes) htail
          | skip s =>
              have hcb : SkipOk o.skipCallback := by rw [h.skipCallback]; exact .none
              refine (decodeStream_skipFrame hcb s _).trans ?_
              exact ih h ((decodeStream_skipFrame hcb s _).symm.trans hdec) k

/-- The stream is cut behind the seventh byte of a skip frame. -/
def CutAtSeven (is : List Item) (p : Bytes) : Prop :=
  ∃ k s, is[k]? = some (.skip s) ∧ p = streamBytes (is.take k) ++ s.bytes.take lz4MinHeaderSz

/-- A cut in the first piece. -/
theorem cutAtSeven_first {i : Item} {is : List Item} {p : Bytes} (h : p.length < i.bytes.length) :
    CutAtSeven (i :: is) p ↔ ∃ s, i = .skip s ∧ p = s.bytes.take lz4MinHeaderSz := by
  constructor
  · rintro ⟨k, s, hget, rfl⟩
    cases k with
    | zero => exact ⟨s, Option.some.inj hget, rfl⟩
    | succ k =>
        rw [List.take_succ_cons, streamBytes, List.flatMap_cons, List.append_assoc,
          List.length_append] at h
        omega
  · rintro ⟨s, rfl, rfl⟩
    exact ⟨0, s, rfl, rfl⟩

/-- A cut behind the first piece. -/
theorem cutAtSeven_later {i : Item} {is : List Item} {p : Bytes} :
    CutAtSeven (i :: is) (i.bytes ++ p) ↔ CutAtSeven is p := by
  constructor
  · rintro ⟨k, s, hget, hp⟩
    cases k with
    | zero =>
        obtain rfl : i = .skip s := Option.some.inj hget
        have hlen := congrArg List.length hp
        rw [List.take_zero, streamBytes, List.flatMap_nil, List.nil_append, List.length_append,
          List.length_take] at hlen
        have height := s.length_bytes
        have hbytes : (Item.skip s).bytes = s.bytes := rfl
        have hseven : lz4MinHeaderSz = 7 := rfl
        rw [hbytes] at hlen
        omega
    | succ k =>
        refine ⟨k, s, hget, ?_⟩
        rw [List.take_succ_cons, streamBytes, List.flatMap_cons, List.append_assoc] at hp
        exact List.append_cancel_left hp
  · rintro ⟨k, s, hget, rfl⟩
    refine ⟨k + 1, s, hget, ?_⟩
    rw [List.take_succ_cons, streamBytes, streamBytes, List.flatMap_cons, List.append_assoc]

/-- **A cut anywhere else** leaves the whole blocks and an error. -/
theorem decodeStream_cut {is : List Item} (h : o.Plain) {bs : Bytes}
    (hdec : decodeStream Z seeks o (streamBytes is) = (bs, .eof)) {p : Bytes}
    (hp : p <+: streamBytes is) (hne : ∀ k, p ≠ streamBytes (is.take k)) (off : ℕ) :
    ∃ e, decodeStream Z seeks o p
      = (contentUpTo (off + p.length) (dataBlocks Z o off is), e) ∧ e.Short
        ∧ (e.Classified ↔ ¬ CutAtSeven is p) := by
  induction is generalizing o bs p off with
  | nil => exact absurd (List.prefix_nil.mp hp) (hne 0)
  | cons i is ih =>
      have hnil : p ≠ [] := hne 0
      have hlater : ∀ p', p = i.bytes ++ p' → ∀ k, p' ≠ streamBytes (is.take k) := by
        rintro p' rfl k rfl
        exact hne (k + 1) rfl
      have hafter : p.length < i.bytes.length →
          contentUpTo (off + p.length) (dataBlocks Z o (off + i.bytes.length) is) = [] := by
        intro hlt
        refine contentUpTo_nil fun e he => ?_
        have hge := le_of_mem_dataBlocks he
        omega
      rcases Reads.prefix_append_cases hp with ⟨hpre, hne'⟩ | ⟨p', rfl, hpre⟩
      · -- the cut is in the first piece
        have hlt : p.length < i.bytes.length :=
          Nat.lt_of_le_of_ne hpre.length_le fun heq => hne' (hpre.eq_of_length heq)
        cases i with
        | frame f =>
            obtain ⟨hend, -⟩ := decodeStream_frame_eof f h.readOffset (h.askDict f.hdr) hdec
            obtain ⟨e, he, hshort⟩ := decodeStream_cut_frame h f hend hpre hne' hnil off
            have hnone : contentUpTo (off + p.length) (dataBlocks Z o (off + f.bytes.length) is)
                = [] := hafter hlt
            refine ⟨e, ?_, hshort.toShort, iff_of_true hshort.classified ?_⟩
            · rw [he, dataBlocks, contentUpTo_append, hnone, List.append_nil]
            · rw [cutAtSeven_first hlt]
              rintro ⟨s, ⟨⟩, -⟩
        | skip s =>
            obtain ⟨e, he, hshort, hmark, hclass⟩ := s.cut hpre hne' hnil
            have hnone : contentUpTo (off + p.length) (dataBlocks Z o (off + s.bytes.length) is)
                = [] := hafter hlt
            refine ⟨e, by rw [decodeStream_cut_header h he hmark, dataBlocks, hnone], hshort, ?_⟩
            rw [hclass, cutAtSeven_first hlt]
            apply not_congr
            constructor
            · intro hseven
              exact ⟨s, rfl, hseven ▸ List.prefix_iff_eq_take.mp hpre⟩
            · rintro ⟨s', hs, rfl⟩
              -- a skip frame has eight bytes at least, so seven of them are a cut
              have height := s'.length_bytes
              have hseven : lz4MinHeaderSz = 7 := rfl
              rw [List.length_take]
              omega
      · -- the cut is behind it
        have hplace : off + (i.bytes ++ p').length = off + i.bytes.length + p'.length := by
          rw [List.length_append, Nat.add_assoc]
        cases i with
        | frame f =>
            have hask := h.askDict f.hdr
            obtain ⟨hplain, hsame⟩ := h.frameOpts (Z := Z) f.hdr
            obtain ⟨hend, hsz, bs', hrest, -⟩ := decodeStream_frame_eof f h.readOffset hask hdec
            obtain ⟨e, he, hshort⟩ := ih hplain hrest hpre (hlater p' rfl) (off + f.bytes.length)
            rw [← cutAtSeven_later] at hshort
            refine ⟨e, (decodeStream_frame_ok f h.readOffset hask hend hsz p').trans ?_, hshort⟩
            rw [he, dataBlocks, contentUpTo_append, hplace, dataBlocks_congr hsame]
            refine Prod.ext ?_ rfl
            refine congrArg (· ++ _) (Eq.symm ?_)
            rw [← hplace]
            exact contentUpTo_frame f hend off (by rw [List.length_append]; exact Nat.le_add_right _ _)
        | skip s =>
            have hcb : SkipOk o.skipCallback := by rw [h.skipCallback]; exact .none
            have hrest := (decodeStream_skipFrame hcb s _).symm.trans hdec
            obtain ⟨e, he, hshort⟩ := ih h hrest hpre (hlater p' rfl) (off + s.bytes.length)
            rw [← cutAtSeven_later] at hshort
            refine ⟨e, (decodeStream_skipFrame hcb s p').trans ?_, hshort⟩
            rw [he, dataBlocks, hplace]
            rfl

/-- **Truncation is never silent.** A prefix of a stream that is decoded is decoded to the
content of its pieces when it ends between two; else to the content of the blocks that
are all there, and then there is an error, which is neither `io.EOF` nor corruption. -/
theorem newReader_truncated (S S' : Sched Z) (seeks : Option SeekT) {o : OptsT} (h : o.Plain)
    (is : List Item) {bs : Bytes} (hdec : (newReader (streamBytes is) seeks o).Delivers S bs .eof)
    {p : Bytes} (hp : p <+: streamBytes is) :
    (∀ k, p = streamBytes (is.take k) →
      (newReader p seeks o).Delivers S' ((is.take k).flatMap (Item.content Z o)) .eof) ∧
    ((∀ k, p ≠ streamBytes (is.take k)) →
      ∃ e, (newReader p seeks o).Delivers S' (contentUpTo p.length (dataBlocks Z o 0 is)) e ∧
        e ≠ .eof ∧ lz4Corrupted e = false) := by
  rw [newReader_delivers_iff] at hdec
  refine ⟨fun k hk => ?_, fun hne => ?_⟩
  · rw [newReader_delivers_iff, hk]
    exact decodeStream_take h hdec k
  · obtain ⟨e, he, hshort, -⟩ := decodeStream_cut h hdec hp hne 0
    rw [Nat.zero_add] at he
    exact ⟨e, (newReader_delivers_iff _ _ _ _ _ _).mpr he, hshort.not_eof, hshort.not_corrupted⟩

/-- A frame of one block that loses its last byte. -/
theorem newReader_truncated_one_block :
    ∃ (S : Sched litEngine) (e : Err),
      (newReader (Lz4Frame.lit.bytes.dropLast) none .sync64KB).Delivers S [7] e ∧ e ≠ .eof ∧
        lz4Corrupted e = false := by
  obtain ⟨S⟩ := Sched.nonempty litEngine
  have hdec : (newReader (streamBytes [.frame .lit]) none .sync64KB).Delivers S [7] .eof :=
    (newReader_delivers_iff _ _ _ _ _ _).mpr (by decide +kernel)
  obtain ⟨e, he⟩ := (newReader_truncated S S none ⟨rfl, rfl, rfl⟩ [.frame .lit] hdec
    (p := Lz4Frame.lit.bytes.dropLast) (List.dropLast_prefix _)).2 (fun k hk => by
      have hk' := congrArg List.length hk
      cases k with
      | zero => cases hk'
      | succ k => cases hk')
  have hcontent : contentUpTo Lz4Frame.lit.bytes.dropLast.length
      (dataBlocks litEngine .sync64KB 0 [.frame .lit]) = [7] := by decide +kernel
  rw [hcontent] at he
  exact ⟨S, e, he⟩

end Plz4
