/-
`WithReadOffset`: a Reader that starts at a block of the first frame.

The offset is consumed by one branch of `_readHeader` only, the one that skips bytes. At
the header size exactly it stays in the options and meets the headers of later frames.
-/
import Plz4.ReaderProgress
import Plz4.Concat

set_option autoImplicit false

namespace Plz4

open LittleEndian Xxh32

variable {Z : Clz4} {S : Sched Z} {seeks : Option SeekT} {o o' : OptsT}

/-! ## From a block on -/

theorem leftAt_succ (fr : FrameReader) (i : ℕ) (src : Bytes) :
    leftAt fr (i + 1) src = leftAt fr i (fr.read src).2 := by
  rw [leftAt, Function.iterate_succ_apply]
  rfl

/-- The source from a block on is parsed as before from there. -/
theorem parseFrames_leftAt {fr : FrameReader} {i : ℕ} {src : Bytes}
    (h : i ≤ (parseFrames fr src).frames.length) :
    parseFrames fr (leftAt fr i src)
        = { parseFrames fr src with frames := (parseFrames fr src).frames.drop i } ∧
      leftAt fr i src = src.drop (((parseFrames fr src).frames.take i).map FrameT.readCnt).sum := by
  induction i generalizing src with
  | zero => exact ⟨rfl, rfl⟩
  | succ i ih =>
      rcases hr : fr.read src with ⟨⟨e | frame, fr'⟩, rest⟩
      · rw [parseFrames_error hr] at h
        exact absurd h (Nat.not_succ_le_zero i)
      · obtain rfl := FrameReader.read_ok_fr hr
        have hok : ReadOk (fr'.read src).1 := .inl ⟨frame, by rw [hr]⟩
        obtain ⟨q, hq⟩ := FrameReader.read_ok hok
        have hsplit := hq.split
        have hcnt := hq.readCnt frame (by rw [hr])
        rw [hr] at hsplit
        rw [parseFrames_ok hr, List.length_cons] at h
        obtain ⟨hparse, hdrop⟩ := ih (Nat.le_of_succ_le_succ h)
        rw [leftAt_succ, hr, parseFrames_ok hr]
        refine ⟨?_, ?_⟩
        · rw [hparse, List.drop_succ_cons]
        · simp only at hsplit ⊢
          rw [hdrop, List.take_succ_cons, List.map_cons, List.sum_cons, hcnt, hsplit,
            ← List.drop_drop, List.drop_left]

namespace Lz4Frame

variable (f : Lz4Frame)

/-- What the first `k` blocks of the frame take. -/
def blkSpan (k : ℕ) : ℕ := ((f.parsed.frames.take k).map FrameT.readCnt).sum

/-- Where block `k` of the frame starts. -/
def blkOffset (k : ℕ) : ℕ := f.hdr.sz + f.blkSpan k

theorem blkSpan_pos {k : ℕ} (hpos : 0 < k) (hk : k ≤ f.parsed.frames.length) : 0 < f.blkSpan k := by
  obtain ⟨k, rfl⟩ := Nat.exists_eq_succ_of_ne_zero (Nat.pos_iff_ne_zero.mp hpos)
  have hone := @length_leftAt (readerFrame f.hdr) 1 f.body
    (Nat.le_trans (Nat.succ_le_succ (Nat.zero_le k)) hk)
  rcases hr : (readerFrame f.hdr).read f.body with ⟨⟨e | frame, fr'⟩, rest⟩
  · have hnil : f.parsed.frames = [] := by rw [parsed, parseFrames_error hr]
    rw [hnil] at hk
    exact absurd hk (Nat.not_succ_le_zero k)
  · have hlen := FrameReader.read_ok_length hr
    have hframes : f.parsed.frames = frame :: (parseFrames (readerFrame f.hdr) rest).frames := by
      rw [parsed, parseFrames_ok hr]
    have hrest : leftAt (readerFrame f.hdr) 1 f.body = rest := by
      rw [leftAt_succ, hr]
      rfl
    rw [hrest, ← parsed, hframes] at hone
    rw [blkSpan, hframes]
    simp only [List.take_succ_cons, List.take_zero, List.map_cons, List.map_nil, List.sum_cons,
      List.sum_nil, Nat.add_zero] at hone ⊢
    omega

/-- The blocks lie in the body. -/
theorem blkSpan_le {k : ℕ} (hk : k ≤ f.parsed.frames.length) : f.blkSpan k ≤ f.body.length := by
  have hlen := @length_leftAt (readerFrame f.hdr) k f.body hk
  rw [blkSpan, parsed]
  omega

/-- Header sizes: each optional field has its own size. -/
theorem hdr_sz : f.hdr.sz = 7 + (if f.hdr.flags.contentSize then 8 else 0)
    + (if f.hdr.flags.dictId then 4 else 0) := by
  obtain ⟨o, -, hhdr⟩ := readHeader_hdr f.header
  rw [← hdr] at hhdr
  rw [hhdr]
  exact length_headerBytes o

/-- Frames with headers of one size have the same optional fields. -/
theorem contentSize_of_sz {f g : Lz4Frame} (h : f.hdr.sz = g.hdr.sz) :
    f.hdr.flags.contentSize = g.hdr.flags.contentSize := by
  rw [f.hdr_sz, g.hdr_sz] at h
  revert h
  generalize f.hdr.flags.contentSize = a, g.hdr.flags.contentSize = b, f.hdr.flags.dictId = c,
    g.hdr.flags.dictId = d
  revert a b c d
  decide

end Lz4Frame

/-- The options past a header that the offset `r` was applied to. -/
def offsetOpts (o : OptsT) (r : ℤ) (s : Bool) : OptsT :=
  { o with readOffset := r, skipContentSz := s }

/-- **Bytes skipped behind a header**: the flag for the content checksum is off then, and
the offset is consumed. -/
theorem openFrame_skip {src body : Bytes} {n : ℤ} {hdr : HeaderT} {m : ℕ} (hseek : SeekOk seeks)
    (h : readHeader src o.skipCallback = (⟨n, hdr, none⟩, body)) (hpos : 0 < m)
    (hle : m ≤ body.length) (hind : hdr.flags.blockIndependence = true)
    (hoff : o.readOffset = hdr.sz + m) (hask : askDict o hdr = (none, o')) :
    openFrame seeks o src = ⟨n + m, none, { hdr with flags := hdr.flags.clrContentChecksum },
      frameOpts (offsetOpts o' 0 true) hdr, body.drop m⟩ := by
  have hne : (readHeader src o.skipCallback).1.err ≠ some (.const .endMark) := by
    rw [h]
    rintro ⟨⟩
  have hhdr := readHeaders_of_header hne (src.length + 1)
  have hoff' : o'.readOffset = hdr.sz + m := by
    have hsame := (askDict_fields o hdr).1
    rw [hask] at hsame
    exact hsame.trans hoff
  have hnoop : ¬ (o'.readOffset = 0 ∨ o'.readOffset = hdr.sz) := by omega
  have hafter : ¬ o'.readOffset < hdr.sz := by omega
  have hskip : (o'.readOffset - hdr.sz).toNat = m := by omega
  have hsource := hseek.skipOffset hle
  have hframe : ∀ o₁ : OptsT, frameOpts o₁ { hdr with flags := hdr.flags.clrContentChecksum }
      = frameOpts o₁ hdr := by
    obtain ⟨-, -, hcsz, -, hbi⟩ := hdr.flags.clrContentChecksum_spec
    intro o₁
    have hcache : cacheContentSz o₁ { hdr with flags := hdr.flags.clrContentChecksum }
        = cacheContentSz o₁ hdr := by
      rw [cacheContentSz, cacheContentSz]
      simp only [hcsz]
    rw [frameOpts, frameOpts, hcache, serialOpts, serialOpts]
    simp only [hbi]
  simp only [openFrame, hhdr, h, hask, applyOffset, if_neg hnoop, if_neg hafter, hind,
    Bool.not_true, Bool.false_eq_true, if_false, hskip, hsource]
  rw [← hframe]
  rfl

/-- **A frame read from block `k` on.** -/
theorem openFrame_offset (f : Lz4Frame) (hseek : SeekOk seeks) {k : ℕ} (hpos : 0 < k)
    (hk : k ≤ f.parsed.frames.length) (hind : f.hdr.flags.blockIndependence = true)
    (hoff : o.readOffset = f.blkOffset k) (hask : askDict o f.hdr = (none, o')) (rest : Bytes) :
    ∃ n, openFrame seeks o (f.bytes ++ rest)
      = ⟨n, none, { f.hdr with flags := f.hdr.flags.clrContentChecksum },
          frameOpts (offsetOpts o' 0 true) f.hdr, leftAt (readerFrame f.hdr) k f.body ++ rest⟩ := by
  have hread := f.readHeader_eq o.skipCallback rest
  have hle := f.blkSpan_le hk
  have hin : f.blkSpan k ≤ (f.body ++ rest).length := by
    rw [List.length_append]
    omega
  have hblk : o.readOffset = f.hdr.sz + f.blkSpan k := hoff.trans (Nat.cast_add _ _)
  have hdrop : (f.body ++ rest).drop (f.blkSpan k)
      = leftAt (readerFrame f.hdr) k f.body ++ rest := by
    rw [List.drop_append_of_le_length hle, (parseFrames_leftAt hk).2]
    rfl
  refine ⟨(readHeader f.bytes none).1.nRead + f.blkSpan k, ?_⟩
  rw [openFrame_skip hseek hread (f.blkSpan_pos hpos hk) hin hind hblk hask, hdrop]

/-! ## The blocks from there on -/

/-- The content of the frame from block `k` on. -/
def contentFrom (t : Session) (k : ℕ) : Bytes := (t.blks.drop k).flatMap Prod.fst

/-- Without the content hash a good session stays as it is. -/
theorem sessionOf_none {hasher : Option XXHZero} {p : Parsed} {bs : List (Bytes × ℕ)}
    (h : (sessionOf hasher p (bs.map (fun b => (.ok b.1, b.2)))).endErr = .const .endMark) :
    (sessionOf none p (bs.map (fun b => (.ok b.1, b.2)))).endErr = .const .endMark := by
  have hp : p.err = .const .endMark := by
    by_contra hne
    rw [sessionOf_endErr bs hne] at h
    exact hne h
  rw [sessionOf_checkSum, hp]
  rfl

/-- A frame with a read offset left in the options: the content hash is not checked. -/
theorem Lz4Frame.session_offset (f : Lz4Frame) {r : ℤ} {s : Bool} (hoff : o.readOffset = 0)
    (h : (f.session Z o).endErr = .const .endMark) :
    (f.session Z (offsetOpts o r s)).endErr = .const .endMark ∧
      (f.session Z (offsetOpts o r s)).bytes = (f.session Z o).bytes := by
  have hall := f.session_blks h
  have hdc : readerDc f.hdr (offsetOpts o r s) = readerDc f.hdr o := rfl
  have hboth : ∀ o₁ : OptsT, readerDc f.hdr o₁ = readerDc f.hdr o → f.session Z o₁
      = sessionOf (if useHasher f.hdr o₁ then some .zero else none) f.parsed
        ((f.session Z o).blks.map (fun b => (.ok b.1, b.2))) := by
    intro o₁ hdc₁
    rw [← hall, ← hdc₁]
    rfl
  by_cases huse : useHasher f.hdr (offsetOpts o r s) = true
  · have hsame : useHasher f.hdr o = true := by
      rw [useHasher, Bool.and_eq_true, Bool.and_eq_true] at huse ⊢
      exact ⟨⟨huse.1.1, decide_eq_true hoff⟩, huse.2⟩
    have hoffset := hboth _ hdc
    have hzero := hboth o rfl
    rw [if_pos huse] at hoffset
    rw [if_pos hsame] at hzero
    rw [hoffset.trans hzero.symm]
    exact ⟨h, rfl⟩
  · have heq := hboth _ hdc
    rw [if_neg huse] at heq
    rw [heq]
    refine ⟨@sessionOf_none (if useHasher f.hdr o then some .zero else none) _ _ ?_, ?_⟩
    · rw [← hboth o rfl]
      exact h
    · rw [Session.bytes, sessionOf_blks, Session.bytes]

/-- The session from block `k` on of independent blocks, when the frame has no content
checksum. -/
theorem frameSession_leftAt (f : Lz4Frame) {k : ℕ} (hk : k ≤ f.parsed.frames.length)
    (hind : f.hdr.flags.blockIndependence = true) (hsum : f.hdr.flags.contentChecksum = false)
    {o₁ : OptsT} (hdict : o₁.dictionary = o.dictionary)
    (h : (f.session Z o).endErr = .const .endMark) (rest : Bytes) :
    (frameSession Z f.hdr o₁ (leftAt (readerFrame f.hdr) k f.body ++ rest)).endErr
        = .const .endMark ∧
      (frameSession Z f.hdr o₁ (leftAt (readerFrame f.hdr) k f.body ++ rest)).bytes
        = contentFrom (f.session Z o) k ∧
      (frameSession Z f.hdr o₁ (leftAt (readerFrame f.hdr) k f.body ++ rest)).rest = rest := by
  have hno : ∀ o₂ : OptsT, (if useHasher f.hdr o₂ then some XXHZero.zero else none) = none := by
    intro o₂
    rw [useHasher, hsum, Bool.false_and, Bool.false_and, if_neg Bool.false_ne_true]
  have hdc : readerDc f.hdr o₁ = readerDc f.hdr o := by
    rw [readerDc, readerDc, readerDict, readerDict, hdict]
  have hall := f.session_blks h
  -- the parse from the block on is the rest of the parse
  have hparse : parseFrames (readerFrame f.hdr) (leftAt (readerFrame f.hdr) k f.body ++ rest)
      = { f.parsed with frames := f.parsed.frames.drop k, rest := rest } := by
    have hleft := (parseFrames_leftAt hk).1
    have hend : (parseFrames (readerFrame f.hdr) (leftAt (readerFrame f.hdr) k f.body)).err
        = .const .endMark := by
      rw [hleft]
      exact f.parsed_err
    rw [parseFrames_append hend, hleft]
    have hwhole := f.parsed_rest
    rw [Lz4Frame.parsed] at hwhole
    simp only [hwhole, List.nil_append]
    rfl
  have hdec : decodeAll Z (readerFrame f.hdr).bsz (readerDc f.hdr o₁) (f.parsed.frames.drop k)
      = ((f.session Z o).blks.drop k).map (fun b => (.ok b.1, b.2)) := by
    rw [hdc, decodeAll_drop (readerDc_not_linked hind), hall, List.map_drop]
  have hsession : frameSession Z f.hdr o₁ (leftAt (readerFrame f.hdr) k f.body ++ rest)
      = sessionOf none { f.parsed with frames := f.parsed.frames.drop k, rest := rest }
        (((f.session Z o).blks.drop k).map (fun b => (.ok b.1, b.2))) := by
    rw [frameSession, hparse, hno, ← hdec]
  rw [hsession]
  refine ⟨?_, ?_, sessionOf_rest _ _ _⟩
  · rw [sessionOf_checkSum, f.parsed_err]
    rfl
  · rw [Session.bytes, sessionOf_blks, contentFrom]

/-! ## Frames behind the first -/

theorem Lz4Frame.body_ne_nil (f : Lz4Frame) : f.body ≠ [] := by
  intro hnil
  have hlen := length_parseFrames_end f.parsed_err
  rw [← Lz4Frame.parsed, hnil, endSz, List.length_nil] at hlen
  omega

/-- An offset that is neither zero nor the size of the header moves the reader away from
the first block, or is refused. -/
theorem openFrame_moves (f : Lz4Frame) (hoff : ¬ (o.readOffset = 0 ∨ o.readOffset = f.hdr.sz))
    (hask : askDict o f.hdr = (none, o')) (rest : Bytes)
    (h : (openFrame seeks o (f.bytes ++ rest)).err = none) :
    (openFrame seeks o (f.bytes ++ rest)).src ≠ f.body ++ rest := by
  have hread := f.readHeader_append o.skipCallback rest
  have hne : (readHeader (f.bytes ++ rest) o.skipCallback).1.err ≠ some (.const .endMark) := by
    rw [hread, f.header]
    rintro ⟨⟩
  have hhdr := readHeaders_of_header hne ((f.bytes ++ rest).length + 1)
  have hoff' : ¬ (o'.readOffset = 0 ∨ o'.readOffset = f.hdr.sz) := by
    have hsame := (askDict_fields o f.hdr).1
    rw [hask] at hsame
    rwa [hsame]
  have herr : (readHeader f.bytes none).1.err = none := f.header
  revert h
  simp only [openFrame, hhdr, hread, herr]
  rw [← Lz4Frame.hdr, hask]
  simp only [applyOffset, if_neg hoff']
  by_cases hlt : o'.readOffset < f.hdr.sz
  · simp only [if_pos hlt]
    rintro ⟨⟩
  · by_cases hind : f.hdr.flags.blockIndependence = true
    · simp only [if_neg hlt, hind, Bool.not_true, Bool.false_eq_true, if_false]
      have hpos : 0 < (o'.readOffset - f.hdr.sz).toNat := by omega
      rcases hs : skipOffset seeks (f.body ++ rest) (o'.readOffset - f.hdr.sz).toNat
        with ⟨⟨m, _ | e⟩, src⟩
      · intro _ heq
        -- at least one byte was passed over
        have hsrc : src = (f.body ++ rest).drop (o'.readOffset - f.hdr.sz).toNat := by
          have hskip := skipOffset_of_none (congrArg (fun r => r.1.2) hs)
          rw [hs] at hskip
          exact congrArg Prod.snd hskip
        have hbody := List.length_pos_iff.mpr f.body_ne_nil
        have hlen := congrArg List.length (hsrc.symm.trans heq)
        rw [List.length_drop, List.length_append] at hlen
        omega
      · rintro ⟨⟩
    · simp only [if_neg hlt, hind, Bool.not_false, if_true]
      rintro ⟨⟩

/-- Every frame of the pieces is decoded from its own first block and delivered in full,
as when it is read alone with the options `oa`. -/
def InFull (Z : Clz4) (seeks : Option SeekT) (oa : OptsT) : OptsT → List Item → Prop
  | _, [] => True
  | o, .skip _ :: is => InFull Z seeks oa o is
  | o, .frame f :: is =>
      let p := openFrame seeks o (f.bytes ++ streamBytes is)
      let t := f.session Z p.opts
      p.err = none ∧ p.hdr = f.hdr ∧ p.src = f.body ++ streamBytes is ∧
        t.endErr = .const .endMark ∧ t.bytes = (decodeStream Z seeks oa f.bytes).1 ∧
        sizeErr p.opts (UInt64.ofNat t.bytes.length) = none ∧ InFull Z seeks oa p.opts is

/-- Such pieces are delivered. -/
theorem InFull.decodes {oa : OptsT} {is : List Item} (hskip : SkipOk o.skipCallback)
    (h : InFull Z seeks oa o is) :
    decodeStream Z seeks o (streamBytes is) = (is.flatMap (aloneContent Z seeks oa), .eof) := by
  induction is generalizing o with
  | nil => exact decodeStream_nil _ _ _
  | cons i is ih =>
      cases i with
      | skip s => exact (decodeStream_skipFrame hskip s _).trans (ih hskip h)
      | frame f =>
          obtain ⟨herr, hhdr, hsrc, hend, hbytes, hsz, hrest⟩ := h
          have hskip' : SkipOk (openFrame seeks o (f.bytes ++ streamBytes is)).opts.skipCallback := by
            rw [openFrame_skipCallback]
            exact hskip
          have hsession : frameSession Z (openFrame seeks o (f.bytes ++ streamBytes is)).hdr
              (openFrame seeks o (f.bytes ++ streamBytes is)).opts
              (openFrame seeks o (f.bytes ++ streamBytes is)).src
              = { f.session Z (openFrame seeks o (f.bytes ++ streamBytes is)).opts with
                  rest := streamBytes is } := by
            rw [hhdr, hsrc, f.session_append]
          have hnext := ih hskip' hrest
          set p := openFrame seeks o (f.bytes ++ streamBytes is)
          set t : Session := { f.session Z p.opts with rest := streamBytes is }
          have hdec := decodeStream_opened herr (t := t)
            (by rw [hsession]; exact Session.Same.refl _)
          have hend' : t.endErr = .const .endMark := hend
          have hbytes' : t.bytes = aloneContent Z seeks oa (.frame f) := hbytes
          have hsz' : sizeErr p.opts (UInt64.ofNat t.bytes.length) = none := hsz
          have hrest' : t.rest = streamBytes is := rfl
          change decodeStream Z seeks o (f.bytes ++ streamBytes is) = _
          rw [hdec, frameTail_next hend' hsz', hrest', hnext, hbytes']
          rfl

/-- The dictionary that the frames before leave does no harm to the frame `f`: it gets one
of its own, or has its content with the one left. -/
def DictFits (Z : Clz4) (seeks : Option SeekT) (oa o : OptsT) (pre : List Item) (f : Lz4Frame) :
    Prop :=
  (supplied o f.hdr).isSome = true ∨
    (f.session Z { o with dictionary := dictAfter o pre }).endErr = .const .endMark ∧
      (f.session Z { o with dictionary := dictAfter o pre }).bytes
        = (decodeStream Z seeks oa f.bytes).1

/-- A frame that is decoded from its first block has its content exactly if the dictionary
fits. -/
theorem After.session_iff {oa : OptsT} (hoa : oa.readOffset = 0) {r : ℤ} {s : Bool}
    {pre : List Item} (h : After (offsetOpts oa r s) pre o') {f : Lz4Frame} {c : Bytes}
    (hc : Alone Z seeks oa f c) :
    (f.session Z (asked (offsetOpts oa r s) o' f.hdr)).endErr = .const .endMark ∧
        (f.session Z (asked (offsetOpts oa r s) o' f.hdr)).bytes = (decodeStream Z seeks oa f.bytes).1
      ↔ DictFits Z seeks oa (offsetOpts oa r s) pre f := by
  have hcontent : (decodeStream Z seeks oa f.bytes).1 = c := by rw [hc.decodes]
  obtain ⟨hend, hbytes, -⟩ :=
    (decodeStream_single hoa ((After.nil oa).ask hc.asked) c).mp hc.decodes
  rw [DictFits, hcontent]
  rcases hsup : supplied (offsetOpts oa r s) f.hdr with _ | d
  · have hsame : f.session Z (asked (offsetOpts oa r s) o' f.hdr)
        = f.session Z { offsetOpts oa r s with dictionary := dictAfter (offsetOpts oa r s) pre } := by
      refine frameSession_congr _ _ ?_ h.readOffset h.contentChecksum
      rw [asked, hsup, Option.none_or]
      exact h.dictionary
    rw [hsame]
    simp only [Option.isSome_none, Bool.false_eq_true, false_or]
  · -- the frame has the dictionary it has alone
    have hsame : f.session Z (asked (offsetOpts oa r s) o' f.hdr)
        = f.session Z (offsetOpts (asked oa oa f.hdr) r s) := by
      refine frameSession_congr _ _ ?_ h.readOffset h.contentChecksum
      have hbehind : (asked (offsetOpts oa r s) o' f.hdr).dictionary = some d := by
        change (supplied (offsetOpts oa r s) f.hdr).or _ = _
        rw [hsup, Option.some_or]
      have halone : (offsetOpts (asked oa oa f.hdr) r s).dictionary = some d := by
        change (supplied (offsetOpts oa r s) f.hdr).or _ = _
        rw [hsup, Option.some_or]
      exact hbehind.trans halone.symm
    obtain ⟨hend', hbytes'⟩ := f.session_offset (o := asked oa oa f.hdr) (r := r) (s := s) hoa hend
    rw [hsame]
    exact iff_of_true ⟨hend', hbytes'.trans hbytes⟩ (.inl rfl)

/-- Frames without a content size field leave the size there was. -/
theorem sizeAfter_eq {pre : List Item}
    (h : ∀ g, Item.frame g ∈ pre → g.hdr.flags.contentSize = false) :
    sizeAfter o pre = o.contentSz := by
  induction pre using List.reverseRecOn with
  | nil => rfl
  | append_singleton pre i ih =>
      have hpre := ih (fun g hg => h g (List.mem_append_left _ hg))
      simp only [sizeAfter, List.foldl_append, List.foldl_cons, List.foldl_nil] at hpre ⊢
      cases i with
      | skip s => exact hpre
      | frame g =>
          have hg := h g (List.mem_append_right _ List.mem_cons_self)
          simp only [hg, Bool.false_eq_true, if_false]
          exact hpre

/-- The size check passes: it is off, or all headers are of one kind. -/
theorem After.sizeErr_none {oa : OptsT} (hoa : oa.readOffset = 0) {r : ℤ} {s : Bool}
    {pre : List Item} (h : After (offsetOpts oa r s) pre o') {f : Lz4Frame} {c : Bytes}
    (hc : Alone Z seeks oa f c)
    (hs : s = true ∨ r ≠ 0 ∧ s = oa.skipContentSz ∧ ∀ f, Item.frame f ∈ pre → f.hdr.sz = r)
    (hr : r = 0 ∨ f.hdr.sz = r) :
    sizeErr (frameOpts (asked (offsetOpts oa r s) o' f.hdr) f.hdr)
      (UInt64.ofNat (decodeStream Z seeks oa f.bytes).1.length) = none := by
  have hcontent : (decodeStream Z seeks oa f.bytes).1 = c := by rw [hc.decodes]
  obtain ⟨-, -, hsz⟩ := (decodeStream_single hoa ((After.nil oa).ask hc.asked) c).mp hc.decodes
  obtain ⟨-, -, -, hskip, -, -, hfield⟩ := frameOpts_fields (asked oa oa f.hdr) f.hdr
  obtain ⟨-, -, -, hskip', -, -, hfield'⟩ :=
    frameOpts_fields (asked (offsetOpts oa r s) o' f.hdr) f.hdr
  rw [sizeErr_eq_none, hskip, hfield] at hsz
  rw [hcontent, sizeErr_eq_none, hskip', hfield']
  change o'.skipContentSz = true ∨ (if _ then _ else o'.contentSz) = none ∨
    (if _ then _ else o'.contentSz) = _
  rw [h.skipContentSz, h.contentSz]
  rcases hs with hs | ⟨hne, hs, hpre⟩
  · exact .inl hs
  · -- no frame before has a size if this one has none
    have hafter : f.hdr.flags.contentSize = false →
        sizeAfter (offsetOpts oa r s) pre = oa.contentSz := by
      intro hflag
      apply sizeAfter_eq
      intro g hg
      have hfr := hr.resolve_left hne
      have hsame : g.hdr.flags.contentSize = f.hdr.flags.contentSize :=
        Lz4Frame.contentSize_of_sz (Int.ofNat_inj.mp ((hpre g hg).trans hfr.symm))
      exact hsame.trans hflag
    rcases hflag : f.hdr.flags.contentSize with _ | _
    · rw [hafter hflag]
      rw [hflag] at hsz
      simp only [offsetOpts, hs]
      exact hsz
    · rw [hflag] at hsz
      simp only [offsetOpts, hs]
      exact hsz

/-- One frame behind others: it is decoded from its first block and delivered in full. -/
theorem After.inFull_frame {oa : OptsT} (hoa : oa.readOffset = 0) {r : ℤ} {s : Bool}
    {pre is : List Item} (h : After (offsetOpts oa r s) pre o') {f : Lz4Frame} {c : Bytes}
    (hc : Alone Z seeks oa f c)
    (hs : s = true ∨ r ≠ 0 ∧ s = oa.skipContentSz ∧ ∀ f, Item.frame f ∈ pre → f.hdr.sz = r) :
    InFull Z seeks oa o' (.frame f :: is) ↔ (r = 0 ∨ f.hdr.sz = r)
      ∧ DictFits Z seeks oa (offsetOpts oa r s) pre f
      ∧ InFull Z seeks oa (frameOpts (asked (offsetOpts oa r s) o' f.hdr) f.hdr) is := by
  have hcb : (offsetOpts oa r s).dictCallback = oa.dictCallback := rfl
  have hasked : (askDict (offsetOpts oa r s) f.hdr).1 = none :=
    (askDict_congr hcb f.hdr).1.trans hc.asked
  have hask : askDict o' f.hdr = (none, asked (offsetOpts oa r s) o' f.hdr) := h.ask hasked
  by_cases hr : r = 0 ∨ f.hdr.sz = r
  · have hnoop : o'.readOffset = 0 ∨ o'.readOffset = f.hdr.sz := by
      rw [h.readOffset]
      exact hr.imp_right Eq.symm
    have hopen : openFrame seeks o' (f.bytes ++ streamBytes is) = _ := f.openFrame_noop hnoop hask _
    have hsession : f.session Z (frameOpts (asked (offsetOpts oa r s) o' f.hdr) f.hdr)
        = f.session Z (asked (offsetOpts oa r s) o' f.hdr) := frameSession_frameOpts _ _ _
    have hfit := h.session_iff hoa hc
    have hsize := h.sizeErr_none hoa hc hs hr
    rw [InFull, hopen]
    simp only [hsession, true_and]
    constructor
    · rintro ⟨hend, hbytes, -, hrest⟩
      exact ⟨hr, hfit.mp ⟨hend, hbytes⟩, hrest⟩
    · rintro ⟨-, hdict, hrest⟩
      obtain ⟨hend, hbytes⟩ := hfit.mpr hdict
      refine ⟨hend, hbytes, ?_, hrest⟩
      rw [hbytes]
      exact hsize
  · -- any other offset moves the reader into the blocks, or past them
    have hmoves : ¬ (o'.readOffset = 0 ∨ o'.readOffset = f.hdr.sz) := by
      rw [h.readOffset]
      exact fun hor => hr (hor.imp_right Eq.symm)
    refine iff_of_false ?_ fun hall => hr hall.1
    rintro ⟨herr, -, hsrc, -⟩
    exact openFrame_moves f hmoves hask _ herr hsrc

/-- **The frames behind the first** are decoded in full exactly if no read offset is left,
or is the size of each of their headers, and the dictionaries fit. -/
theorem After.inFull_iff {oa : OptsT} (hoa : oa.readOffset = 0) {r : ℤ} {s : Bool}
    {is : List Item} (halone : ∀ f, Item.frame f ∈ is → ∃ c, Alone Z seeks oa f c)
    {pre : List Item} (h : After (offsetOpts oa r s) pre o')
    (hs : s = true ∨ r ≠ 0 ∧ s = oa.skipContentSz ∧ ∀ f, Item.frame f ∈ pre → f.hdr.sz = r) :
    InFull Z seeks oa o' is ↔ (∀ f, Item.frame f ∈ is → r = 0 ∨ f.hdr.sz = r) ∧
      ∀ k f, is[k]? = some (.frame f) →
        DictFits Z seeks oa (offsetOpts oa r s) (pre ++ is.take k) f := by
  induction is generalizing pre o' with
  | nil => exact iff_of_true trivial ⟨by rintro _ ⟨⟩, by rintro k f hk; cases hk⟩
  | cons i is ih =>
      have htail : ∀ f, Item.frame f ∈ is → ∃ c, Alone Z seeks oa f c :=
        fun f hf => halone f (List.mem_cons_of_mem _ hf)
      rw [forall_frame_cons, List.take_zero, List.append_nil]
      cases i with
      | skip sk =>
          have hrest := ih htail (h.skip sk) (hs.imp_right fun hall => ⟨hall.1, hall.2.1,
            fun f hf => hall.2.2 f ((List.mem_append.mp hf).resolve_right (by simp))⟩)
          simp only [List.append_assoc, List.singleton_append] at hrest
          rw [InFull, hrest]
          constructor
          · rintro ⟨hsz, hfit⟩
            refine ⟨fun f hf => hsz f ((List.mem_cons.mp hf).resolve_left (by rintro ⟨⟩)), ?_, hfit⟩
            rintro _ ⟨⟩
          · rintro ⟨hsz, -, hfit⟩
            exact ⟨fun f hf => hsz f (List.mem_cons_of_mem _ hf), hfit⟩
      | frame f =>
          obtain ⟨c, hc⟩ := halone f List.mem_cons_self
          -- where the frame fits, the invariant carries on to the ones behind it
          have hrest := fun hr : r = 0 ∨ f.hdr.sz = r =>
            ih htail (h.frame f) (hs.imp_right fun hall => ⟨hall.1, hall.2.1, fun g hg => by
              rcases List.mem_append.mp hg with hg | hg
              · exact hall.2.2 g hg
              · obtain rfl := Item.frame.inj (List.mem_singleton.mp hg)
                exact hr.resolve_left hall.1⟩)
          simp only [List.append_assoc, List.singleton_append] at hrest
          rw [h.inFull_frame hoa hc hs]
          constructor
          · rintro ⟨hr, hdict, hlater⟩
            obtain ⟨hsz, hfit⟩ := (hrest hr).mp hlater
            refine ⟨fun g hg => ?_, ?_, hfit⟩
            · rcases List.mem_cons.mp hg with hg | hg
              · obtain rfl := Item.frame.inj hg
                exact hr
              · exact hsz g hg
            · rintro _ ⟨⟩
              exact hdict
          · rintro ⟨hsz, hfirst, hothers⟩
            have hr := hsz f List.mem_cons_self
            exact ⟨hr, hfirst f rfl,
              (hrest hr).mpr ⟨fun g hg => hsz g (List.mem_cons_of_mem _ hg), hothers⟩⟩

/-! ## The first frame -/

/-- The options under which the offset of `o` is judged by later frames: past the header
of the first frame it is consumed. -/
def offsetLeft (o : OptsT) (f : Lz4Frame) : OptsT :=
  if f.hdr.sz < o.readOffset then offsetOpts o 0 true else o

/-- **The first frame** is decoded from block `k` on. -/
theorem openFrame_first (f : Lz4Frame) (hseek : SeekOk seeks) {k : ℕ}
    (hk : k ≤ f.parsed.frames.length)
    (hind : f.hdr.flags.blockIndependence = true) (hsum : f.hdr.flags.contentChecksum = false)
    (hoff : o.readOffset = f.blkOffset k) {c : Bytes}
    (hc : Alone Z seeks (offsetOpts o 0 o.skipContentSz) f c) (rest : Bytes) {p : Opened}
    (hp : openFrame seeks o (f.bytes ++ rest) = p) {t : Session}
    (ht : frameSession Z p.hdr p.opts p.src = t) :
    p.err = none ∧ t.endErr = .const .endMark ∧
      t.bytes = contentFrom (f.session Z (asked o o f.hdr)) k ∧ t.rest = rest ∧
      sizeErr p.opts (UInt64.ofNat t.bytes.length) = none ∧
      After (offsetLeft o f) [.frame f] p.opts := by
  have hcb : o.dictCallback = (offsetOpts o 0 o.skipContentSz).dictCallback := rfl
  have hasked : (askDict o f.hdr).1 = none := (askDict_congr hcb f.hdr).1.trans hc.asked
  have hask := askDict_of_none hasked
  have hnil := After.nil (offsetOpts o 0 o.skipContentSz)
  obtain ⟨hend₀, hbytes₀, -⟩ := (decodeStream_single rfl (hnil.ask hc.asked) c).mp hc.decodes
  -- alone and here the frame has the same dictionary
  obtain ⟨hend, hbytes⟩ := f.session_offset (r := o.readOffset) (s := o.skipContentSz)
    (o := asked (offsetOpts o 0 o.skipContentSz) (offsetOpts o 0 o.skipContentSz) f.hdr) rfl hend₀
  replace hend : (f.session Z (asked o o f.hdr)).endErr = .const .endMark := hend
  replace hbytes : (f.session Z (asked o o f.hdr)).bytes = c := hbytes.trans hbytes₀
  by_cases hzero : k = 0
  · subst hzero
    have hsz : o.readOffset = f.hdr.sz := hoff
    have hopen : openFrame seeks o (f.bytes ++ rest) = _ := f.openFrame_noop (.inr hsz) hask rest
    rw [hopen] at hp
    subst hp
    have hsession : frameSession Z f.hdr (frameOpts (asked o o f.hdr) f.hdr) (f.body ++ rest)
        = { f.session Z (asked o o f.hdr) with rest := rest } := by
      rw [frameSession_frameOpts, f.session_append]
    simp only [hsession] at ht
    subst ht
    have hleft : offsetLeft o f = o := if_neg (by rw [hsz]; exact lt_irrefl _)
    have hnil' : After (offsetOpts (offsetOpts o 0 o.skipContentSz) o.readOffset o.skipContentSz)
        [] o := After.nil o
    have hfst := hnil'.sizeErr_none rfl hc
    refine ⟨rfl, hend, ?_, rfl, ?_, ?_⟩
    · rw [contentFrom, List.drop_zero]
      rfl
    · have hcontent : (decodeStream Z seeks (offsetOpts o 0 o.skipContentSz) f.bytes).1.length
          = (f.session Z (asked o o f.hdr)).bytes.length := by
        rw [hc.decodes, hbytes]
      rw [hcontent] at hfst
      refine hfst (.inr ⟨?_, rfl, by rintro _ ⟨⟩⟩) (.inr hsz.symm)
      have hseven := f.hdr_sz
      omega
    · rw [hleft]
      exact (After.nil o).frame f
  · have hpos : 0 < k := Nat.pos_of_ne_zero hzero
    obtain ⟨n, hopen⟩ := @openFrame_offset seeks o _ f hseek k hpos hk hind hoff hask rest
    have hspan := f.blkSpan_pos hpos hk
    have hlt : (f.hdr.sz : ℤ) < o.readOffset := by
      rw [hoff, Lz4Frame.blkOffset]
      omega
    have hflags : ({ f.hdr with flags := f.hdr.flags.clrContentChecksum } : HeaderT) = f.hdr := by
      rw [f.hdr.flags.clrContentChecksum_of_not hsum]
    rw [hopen, hflags] at hp
    subst hp
    obtain ⟨-, hdict, -, hskip, -⟩ := frameOpts_fields (offsetOpts (asked o o f.hdr) 0 true) f.hdr
    obtain ⟨hend', hbytes', hrest'⟩ := frameSession_leftAt f hk hind hsum
      (o := asked o o f.hdr) hdict hend rest
    simp only at ht
    rw [ht] at hend' hbytes' hrest'
    refine ⟨rfl, hend', hbytes', hrest', ?_, ?_⟩
    · rw [sizeErr_eq_none, hskip]
      exact .inl rfl
    · rw [offsetLeft, if_pos hlt]
      exact (After.nil (offsetOpts o 0 true)).frame f

theorem decodeStream_skipFrames (hskip : SkipOk o.skipCallback) (lead : List SkipFrame)
    (rest : Bytes) :
    decodeStream Z seeks o (lead.flatMap SkipFrame.bytes ++ rest) = decodeStream Z seeks o rest := by
  induction lead with
  | nil => rfl
  | cons s lead ih =>
      rw [List.flatMap_cons, List.append_assoc, decodeStream_skipFrame hskip]
      exact ih

/-- **Read offset.** For a read offset at block `k` of the first frame, all later frames
are decoded from their own first blocks and delivered in full, and the stream ends cleanly,
exactly if the offset lies past the header of the first frame or all headers have the size
of the first, and the dictionaries fit. -/
theorem newReader_offset_iff (S : Sched Z) {seeks : Option SeekT} (hseek : SeekOk seeks)
    (hskip : SkipOk o.skipCallback) (lead : List SkipFrame) (f : Lz4Frame) (is : List Item)
    (hind : f.hdr.flags.blockIndependence = true) (hsum : f.hdr.flags.contentChecksum = false)
    {k : ℕ} (hk : k ≤ f.parsed.frames.length) (hoff : o.readOffset = f.blkOffset k)
    (halone : ∀ g, Item.frame g ∈ .frame f :: is → (askDict o g.hdr).1 = none ∧
      ∃ c, (newReader g.bytes seeks (offsetOpts o 0 o.skipContentSz)).Delivers S c .eof) :
    (newReader (lead.flatMap SkipFrame.bytes ++ (f.bytes ++ streamBytes is)) seeks o).Delivers S
        (contentFrom (f.session Z (asked o o f.hdr)) k
          ++ is.flatMap (aloneContent Z seeks (offsetOpts o 0 o.skipContentSz))) .eof ∧
      InFull Z seeks (offsetOpts o 0 o.skipContentSz)
        (openFrame seeks o (f.bytes ++ streamBytes is)).opts is
    ↔ (f.hdr.sz < o.readOffset ∨ ∀ g, Item.frame g ∈ is → g.hdr.sz = f.hdr.sz) ∧
      ∀ j g, is[j]? = some (.frame g) →
        DictFits Z seeks (offsetOpts o 0 o.skipContentSz) (offsetLeft o f)
          (.frame f :: is.take j) g := by
  set oa := offsetOpts o 0 o.skipContentSz with hoa
  have hcb : oa.dictCallback = o.dictCallback := rfl
  have hall : ∀ g, Item.frame g ∈ .frame f :: is → ∃ c, Alone Z seeks oa g c := by
    intro g hg
    obtain ⟨hasked, c, hc⟩ := halone g hg
    exact ⟨c, (newReader_delivers_iff _ _ _ _ _ _).mp hc, (askDict_congr hcb g.hdr).1.trans hasked⟩
  have htail : ∀ g, Item.frame g ∈ is → ∃ c, Alone Z seeks oa g c :=
    fun g hg => hall g (List.mem_cons_of_mem _ hg)
  obtain ⟨c, hc⟩ := hall f List.mem_cons_self
  obtain ⟨herr, hend, hbytes, hrest, hsz, hafter⟩ :=
    openFrame_first f hseek hk hind hsum hoff hc (streamBytes is) rfl rfl
  set p := openFrame seeks o (f.bytes ++ streamBytes is) with hp
  set t := frameSession Z p.hdr p.opts p.src with ht
  -- the frames behind the first, with the offset consumed or left
  have hseven := f.hdr_sz
  have hle : (f.hdr.sz : ℤ) ≤ o.readOffset := by
    rw [hoff, Lz4Frame.blkOffset]
    omega
  have hfull : InFull Z seeks oa p.opts is
      ↔ (f.hdr.sz < o.readOffset ∨ ∀ g, Item.frame g ∈ is → g.hdr.sz = f.hdr.sz) ∧
        ∀ j g, is[j]? = some (.frame g) →
          DictFits Z seeks oa (offsetLeft o f) (.frame f :: is.take j) g := by
    by_cases hlt : f.hdr.sz < o.readOffset
    · have hleft : offsetLeft o f = offsetOpts oa 0 true := if_pos hlt
      rw [hleft] at hafter ⊢
      rw [After.inFull_iff rfl htail hafter (.inl rfl)]
      simp only [hlt, true_or, implies_true, true_and, List.cons_append, List.nil_append]
    · have hleft : offsetLeft o f = offsetOpts oa o.readOffset o.skipContentSz := if_neg hlt
      have hsame : o.readOffset = f.hdr.sz := by omega
      have hne : o.readOffset ≠ 0 := by omega
      rw [hleft] at hafter ⊢
      rw [After.inFull_iff rfl htail hafter (.inr ⟨hne, rfl, fun g hg => by
        obtain rfl := Item.frame.inj (List.mem_singleton.mp hg)
        exact hsame.symm⟩)]
      have hsizes : ∀ g : Lz4Frame, (o.readOffset = 0 ∨ (g.hdr.sz : ℤ) = o.readOffset)
          ↔ g.hdr.sz = f.hdr.sz := by
        intro g
        omega
      simp only [hsizes, hlt, false_or, List.cons_append, List.nil_append]
  have hdelivers : InFull Z seeks oa p.opts is →
      decodeStream Z seeks o (lead.flatMap SkipFrame.bytes ++ (f.bytes ++ streamBytes is))
        = (contentFrom (f.session Z (asked o o f.hdr)) k
          ++ is.flatMap (aloneContent Z seeks oa), .eof) := by
    intro hin
    have hskip' : SkipOk p.opts.skipCallback := by
      rw [hp, openFrame_skipCallback]
      exact hskip
    have hdec : decodeStream Z seeks o (f.bytes ++ streamBytes is) = ahead t.bytes
        (frameTail Z seeks p.opts (UInt64.ofNat t.bytes.length) t) :=
      decodeStream_opened herr (Session.Same.refl t)
    rw [decodeStream_skipFrames hskip, hdec, frameTail, if_pos hend, hsz, hrest]
    simp only [hin.decodes hskip', ahead, hbytes]
  rw [newReader_delivers_iff, ← hfull]
  exact ⟨fun h => h.2, fun h => ⟨hdelivers h, h⟩⟩

/-- A frame of one block, `[7]`, with its content size in the header. -/
def Lz4Frame.sized : Lz4Frame where
  bytes := [4, 34, 77, 24, 104, 64, 1, 0, 0, 0, 0, 0, 0, 0, 44, 2, 0, 0, 0, 16, 7, 0, 0, 0, 0]
  header := by decide +kernel
  ends := by decide +kernel
  whole := by decide +kernel

/-- An offset at the end mark of the first frame, which the longer header of the second
does not see. -/
theorem newReader_offset_past_block :
    ∃ S : Sched litEngine,
      (newReader (Lz4Frame.lit.bytes ++ Lz4Frame.sized.bytes) none
        (offsetOpts .sync64KB 13 false)).Delivers S [7] .eof := by
  obtain ⟨S⟩ := Sched.nonempty litEngine
  have halone : ∀ g, Item.frame g ∈ [.frame Lz4Frame.lit, .frame Lz4Frame.sized] →
      (askDict (offsetOpts .sync64KB 13 false) g.hdr).1 = none ∧
        decodeStream litEngine none .sync64KB g.bytes = ([7], .eof) := by
    intro g hg
    simp only [List.mem_cons, Item.frame.injEq, List.not_mem_nil, or_false] at hg
    rcases hg with rfl | rfl
    · exact ⟨by decide +kernel, by decide +kernel⟩
    · exact ⟨by decide +kernel, by decide +kernel⟩
  have hall := (newReader_offset_iff (o := offsetOpts .sync64KB 13 false) S .none .none []
    Lz4Frame.lit [.frame .sized] (by decide +kernel) (by decide +kernel) (k := 1)
    (by decide +kernel) (by decide +kernel)
    (fun g hg => ⟨(halone g hg).1, [7], (newReader_delivers_iff _ _ _ _ _ _).mpr
      (halone g hg).2⟩)).mpr ⟨.inl (by decide +kernel), fun j g hj => by
        have hzero : j = 0 := by
          have hlt := (List.getElem?_eq_some_iff.mp hj).1
          simp only [List.length_cons, List.length_nil] at hlt
          omega
        subst hzero
        obtain rfl := Item.frame.inj (Option.some.inj hj)
        exact .inr ⟨by decide +kernel, by decide +kernel⟩⟩
  have hbytes : ([] : List SkipFrame).flatMap SkipFrame.bytes
      ++ (Lz4Frame.lit.bytes ++ streamBytes [.frame .sized])
        = Lz4Frame.lit.bytes ++ Lz4Frame.sized.bytes := by decide
  have hcontent : contentFrom (Lz4Frame.lit.session litEngine (asked (offsetOpts .sync64KB 13 false)
      (offsetOpts .sync64KB 13 false) Lz4Frame.lit.hdr)) 1
        ++ [Item.frame .sized].flatMap (aloneContent litEngine none
          (offsetOpts (offsetOpts .sync64KB 13 false) 0 false)) = [7] := by decide +kernel
  have hdelivers := hall.1
  rw [hbytes] at hdelivers
  change (newReader _ _ _).Delivers S (contentFrom _ _ ++ List.flatMap _ _) .eof at hdelivers
  exact ⟨S, hcontent ▸ hdelivers⟩

/-- An offset at the first block of a frame with a short header: the longer header of the
second frame is refused. Without the offset the frames are delivered. -/
theorem newReader_offset_refused :
    (∀ S : Sched litEngine, (newReader (Lz4Frame.lit.bytes ++ Lz4Frame.sized.bytes) none
      (offsetOpts .sync64KB Lz4Frame.lit.hdr.sz false)).Delivers S [7] (.const .errReadOffset)) ∧
    (∀ S : Sched litEngine, (newReader Lz4Frame.lit.bytes none .sync64KB).Delivers S [7] .eof) ∧
    (∀ S : Sched litEngine, (newReader Lz4Frame.sized.bytes none .sync64KB).Delivers S [7] .eof) ∧
    Lz4Frame.lit.hdr.sz = 7 ∧ Lz4Frame.sized.hdr.sz = 15 := by
  simp only [newReader_delivers_iff]
  exact ⟨fun _ => by decide +kernel, fun _ => by decide +kernel, fun _ => by decide +kernel,
    by decide +kernel, by decide +kernel⟩

end Plz4
