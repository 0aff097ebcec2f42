/-
Frames and skip frames as the pieces of a stream.

An `Lz4Frame` is the bytes of one frame and nothing else. What comes after a piece does
not change what it is read as, so a stream is decoded piece by piece.
-/
import Plz4.Stream

set_option autoImplicit false

namespace Plz4

variable {Z : Clz4} {seeks : Option SeekT} {o o' : OptsT}

/-! ## Parsing in front of other bytes -/

/-- A header does not depend on the skip callback. -/
theorem readHeader_cb {src : Bytes} (cb : Option SkipCallbackT)
    (h : (readHeader src none).1.err = none) : readHeader src cb = readHeader src none := by
  rcases hr : readFull src lz4MinHeaderSz with ⟨⟨b, _ | e⟩, rest⟩
  · simp only [readHeader, hr, readHeaderRest] at h ⊢
    by_cases hmagic : b.take 4 ≠ lz4FrameMagic
    · rw [if_pos hmagic] at h
      exact absurd h (maybeSkipFrame_err _ _ _)
    · rw [if_neg hmagic, if_neg hmagic]
  · simp only [readHeader, hr]

/-- The bytes that are parsed up to an end mark are so whatever follows them. -/
theorem parseFrames_split {fr : FrameReader} {src : Bytes}
    (h : (parseFrames fr src).err = .const .endMark) :
    ∃ body, src = body ++ (parseFrames fr src).rest
      ∧ ∀ t, parseFrames fr (body ++ t) = { parseFrames fr src with rest := t } := by
  induction hn : src.length using Nat.strongRecOn generalizing src with
  | ind n ih =>
      rcases hr : fr.read src with ⟨⟨e | frame, fr'⟩, rest⟩
      · rw [parseFrames_error hr] at h ⊢
        have hend : e = .const .endMark := h
        subst hend
        have hok : ReadOk (fr.read src).1 := .inr (by rw [hr])
        obtain ⟨q, hq⟩ := FrameReader.read_ok hok
        have hsplit := hq.split
        have happ := hq.exact.append
        rw [hr] at hsplit happ
        exact ⟨q, hsplit, fun t => parseFrames_error (happ t)⟩
      · obtain rfl := FrameReader.read_ok_fr hr
        rw [parseFrames_ok hr] at h ⊢
        have hlen := FrameReader.read_ok_length hr
        have hok : ReadOk (fr'.read src).1 := .inl ⟨frame, by rw [hr]⟩
        obtain ⟨q, hq⟩ := FrameReader.read_ok hok
        have hsplit := hq.split
        have happ := hq.exact.append
        rw [hr] at hsplit happ
        obtain ⟨body, hbody, hall⟩ := ih rest.length (by omega) h rfl
        refine ⟨q ++ body, ?_, fun t => ?_⟩
        · rw [List.append_assoc, ← hbody]
          exact hsplit
        · rw [List.append_assoc, parseFrames_ok (happ _), hall]

/-- What is parsed up to an end mark is so whatever follows it. -/
theorem parseFrames_append {fr : FrameReader} {src : Bytes}
    (h : (parseFrames fr src).err = .const .endMark) (t : Bytes) :
    parseFrames fr (src ++ t)
      = { parseFrames fr src with rest := (parseFrames fr src).rest ++ t } := by
  obtain ⟨body, hbody, hall⟩ := parseFrames_split h
  have hsrc : src ++ t = body ++ ((parseFrames fr src).rest ++ t) := by
    rw [← List.append_assoc, ← hbody]
  rw [hsrc, hall]

/-! ## Frames -/

/-- The bytes of a frame: a header, then what parses to an end mark and leaves nothing. -/
structure Lz4Frame where
  bytes : Bytes
  header : (readHeader bytes none).1.err = none
  ends : (parseFrames (readerFrame (readHeader bytes none).1.hdr) (readHeader bytes none).2).err
    = .const .endMark
  whole : (parseFrames (readerFrame (readHeader bytes none).1.hdr) (readHeader bytes none).2).rest
    = []

namespace Lz4Frame

variable (f : Lz4Frame)

def hdr : HeaderT := (readHeader f.bytes none).1.hdr

/-- The blocks and the trailer. -/
def body : Bytes := (readHeader f.bytes none).2

def parsed : Parsed := parseFrames (readerFrame f.hdr) f.body

/-- What a block reader makes of the frame. -/
def session (Z : Clz4) (o : OptsT) : Session := frameSession Z f.hdr o f.body

/-- The header of the frame, whatever follows. -/
theorem readHeader_append (cb : Option SkipCallbackT) (rest : Bytes) :
    readHeader (f.bytes ++ rest) cb = ((readHeader f.bytes none).1, f.body ++ rest) := by
  have hcb := readHeader_cb cb f.header
  have hok : (readHeader f.bytes cb).1.err = none := by rw [hcb, f.header]
  obtain ⟨q, hq⟩ := readHeader_ok hok
  have hsplit := hq.split
  have happ := hq.append (f.body ++ rest)
  rw [hcb] at hsplit happ
  rw [← happ, body, ← List.append_assoc, ← hsplit]

theorem readHeader_eq (cb : Option SkipCallbackT) (rest : Bytes) :
    readHeader (f.bytes ++ rest) cb
      = (⟨(readHeader f.bytes none).1.nRead, f.hdr, none⟩, f.body ++ rest) := by
  have hres : (readHeader f.bytes none).1 = ⟨(readHeader f.bytes none).1.nRead, f.hdr, none⟩ := by
    rw [hdr, ← f.header]
  rw [f.readHeader_append, hres]

theorem parsed_err : f.parsed.err = .const .endMark := f.ends

theorem parsed_rest : f.parsed.rest = [] := f.whole

/-- Where the body starts. -/
theorem length_bytes : f.bytes.length = f.hdr.sz + f.body.length := by
  obtain ⟨q, hq⟩ := readHeader_ok f.header
  have hsz : f.hdr.sz = q.length := hq.sz
  have hsplit := congrArg List.length hq.split
  rw [List.length_append] at hsplit
  rw [hsplit, hsz]
  rfl

theorem parsed_append (rest : Bytes) :
    parseFrames (readerFrame f.hdr) (f.body ++ rest) = { f.parsed with rest := rest } := by
  have happ := parseFrames_append f.parsed_err rest
  rw [← parsed, f.parsed_rest, List.nil_append] at happ
  exact happ

end Lz4Frame

/-- A stream whose header is accepted and whose blocks run to an end mark starts with a
frame. -/
theorem exists_lz4Frame {src : Bytes} (hhdr : (readHeader src none).1.err = none)
    (hend : (parseFrames (readerFrame (readHeader src none).1.hdr) (readHeader src none).2).err
      = .const .endMark) :
    ∃ (f : Lz4Frame) (rest : Bytes), src = f.bytes ++ rest := by
  obtain ⟨q, hq⟩ := readHeader_ok hhdr
  obtain ⟨body, hbody, hall⟩ := parseFrames_split hend
  have hread := hq.append body
  have hbytes : (readHeader (q ++ body) none).1.err = none := by rw [hread, hhdr]
  have hparse := hall []
  rw [List.append_nil] at hparse
  set p := parseFrames (readerFrame (readHeader src none).1.hdr) (readHeader src none).2 with hp
  have hends : (parseFrames (readerFrame (readHeader (q ++ body) none).1.hdr)
      (readHeader (q ++ body) none).2).err = .const .endMark := by
    rw [hread, hparse]
    exact hend
  have hwhole : (parseFrames (readerFrame (readHeader (q ++ body) none).1.hdr)
      (readHeader (q ++ body) none).2).rest = [] := by rw [hread, hparse]
  refine ⟨⟨q ++ body, hbytes, hends, hwhole⟩, p.rest, ?_⟩
  rw [List.append_assoc, ← hbody]
  exact hq.split

/-- A frame of one block, `[7]`, for the engine of literals. -/
def Lz4Frame.lit : Lz4Frame where
  bytes := [0x04, 0x22, 0x4d, 0x18, 0x60, 0x40, 0x82, 2, 0, 0, 0, 16, 7, 0, 0, 0, 0]
  header := by decide +kernel
  ends := by decide +kernel
  whole := by decide +kernel

/-! ## Opening a frame -/

/-- The options a frame leaves. -/
def frameOpts (o : OptsT) (hdr : HeaderT) : OptsT := serialOpts (cacheContentSz o hdr) hdr

theorem frameOpts_fields (o : OptsT) (hdr : HeaderT) :
    (frameOpts o hdr).readOffset = o.readOffset ∧ (frameOpts o hdr).dictionary = o.dictionary ∧
      (frameOpts o hdr).contentChecksum = o.contentChecksum ∧
      (frameOpts o hdr).skipContentSz = o.skipContentSz ∧
      (frameOpts o hdr).dictCallback = o.dictCallback ∧
      (frameOpts o hdr).skipCallback = o.skipCallback ∧
      (frameOpts o hdr).contentSz
        = if hdr.flags.contentSize then some hdr.contentSz else o.contentSz := by
  rw [frameOpts, serialOpts, cacheContentSz]
  split_ifs <;> exact ⟨rfl, rfl, rfl, rfl, rfl, rfl, rfl⟩

/-- Nothing else of the options bears on the blocks. -/
theorem frameSession_congr (hdr : HeaderT) (src : Bytes) (hdict : o.dictionary = o'.dictionary)
    (hoff : o.readOffset = o'.readOffset) (hsum : o.contentChecksum = o'.contentChecksum) :
    frameSession Z hdr o src = frameSession Z hdr o' src := by
  rw [frameSession, frameSession, useHasher, useHasher, readerDc, readerDc, readerDict, readerDict,
    hdict, hoff, hsum]

/-- The options with which a frame is opened make the same of blocks as those before. -/
theorem frameSession_frameOpts (hdr hdr' : HeaderT) (src : Bytes) :
    frameSession Z hdr' (frameOpts o hdr) src = frameSession Z hdr' o src := by
  obtain ⟨hoff, hdict, hsum, -⟩ := frameOpts_fields o hdr
  exact frameSession_congr hdr' src hdict hoff hsum

theorem askDict_fields (o : OptsT) (hdr : HeaderT) :
    (askDict o hdr).2.readOffset = o.readOffset ∧
      (askDict o hdr).2.contentChecksum = o.contentChecksum ∧
      (askDict o hdr).2.skipContentSz = o.skipContentSz ∧
      (askDict o hdr).2.contentSz = o.contentSz ∧
      (askDict o hdr).2.dictCallback = o.dictCallback ∧
      (askDict o hdr).2.skipCallback = o.skipCallback := by
  rw [askDict]
  split_ifs
  · split
    · exact ⟨rfl, rfl, rfl, rfl, rfl, rfl⟩
    · split <;> exact ⟨rfl, rfl, rfl, rfl, rfl, rfl⟩
  · exact ⟨rfl, rfl, rfl, rfl, rfl, rfl⟩

theorem readHeaders_of_header {cb : Option SkipCallbackT} {src : Bytes}
    (h : (readHeader src cb).1.err ≠ some (.const .endMark)) (k : ℕ) :
    readHeaders cb k src = readHeader src cb := by
  cases k with
  | zero => rfl
  | succ k => simp only [readHeaders, if_neg h]

/-- A frame read from its header on, with an offset that leaves the source where it is. -/
theorem openFrame_noop {src rest : Bytes} {n : ℤ} {hdr : HeaderT}
    (h : readHeader src o.skipCallback = (⟨n, hdr, none⟩, rest))
    (hoff : o.readOffset = 0 ∨ o.readOffset = hdr.sz) (hask : askDict o hdr = (none, o')) :
    openFrame seeks o src = ⟨n, none, hdr, frameOpts o' hdr, rest⟩ := by
  have hne : (readHeader src o.skipCallback).1.err ≠ some (.const .endMark) := by
    rw [h]
    rintro ⟨⟩
  have hhdr := readHeaders_of_header hne (src.length + 1)
  have hoff' : o'.readOffset = 0 ∨ o'.readOffset = hdr.sz := by
    have hsame := (askDict_fields o hdr).1
    rw [hask] at hsame
    rwa [hsame]
  simp only [openFrame, hhdr, h, hask, applyOffset, if_pos hoff', frameOpts]

/-- A frame read from its header on. -/
theorem openFrame_header {src rest : Bytes} {n : ℤ} {hdr : HeaderT}
    (h : readHeader src o.skipCallback = (⟨n, hdr, none⟩, rest)) (hoff : o.readOffset = 0)
    (hask : askDict o hdr = (none, o')) :
    openFrame seeks o src = ⟨n, none, hdr, frameOpts o' hdr, rest⟩ :=
  openFrame_noop h (.inl hoff) hask

theorem sessionOf_with_rest (hasher : Option Xxh32.XXHZero) (p : Parsed) (rest : Bytes)
    (ds : List (Except Err Bytes × ℕ)) :
    sessionOf hasher { p with rest := rest } ds = { sessionOf hasher p ds with rest := rest } := by
  induction ds generalizing hasher with
  | nil => rfl
  | cons d ds ih =>
      obtain ⟨e | b, n⟩ := d
      · rfl
      · rw [sessionOf, ih]
        rfl

theorem Lz4Frame.session_append (f : Lz4Frame) (rest : Bytes) :
    frameSession Z f.hdr o (f.body ++ rest) = { f.session Z o with rest := rest } := by
  rw [frameSession, f.parsed_append, sessionOf_with_rest]
  rfl

/-- A frame opened at its first block. -/
theorem Lz4Frame.openFrame_noop (f : Lz4Frame)
    (hoff : o.readOffset = 0 ∨ o.readOffset = f.hdr.sz) (hask : askDict o f.hdr = (none, o'))
    (rest : Bytes) :
    openFrame seeks o (f.bytes ++ rest)
      = ⟨(readHeader f.bytes none).1.nRead, none, f.hdr, frameOpts o' f.hdr, f.body ++ rest⟩ :=
  Plz4.openFrame_noop (f.readHeader_eq _ _) hoff hask

/-- **A frame in a stream.** Its blocks are delivered, and after its end mark the stream
goes on with the options the frame leaves. -/
theorem decodeStream_frame (f : Lz4Frame) (hoff : o.readOffset = 0)
    (hask : askDict o f.hdr = (none, o')) (rest : Bytes) :
    decodeStream Z seeks o (f.bytes ++ rest) = ahead (f.session Z o').bytes
      (frameTail Z seeks (frameOpts o' f.hdr) (UInt64.ofNat (f.session Z o').bytes.length)
        { f.session Z o' with rest := rest }) := by
  have hopen : openFrame seeks o (f.bytes ++ rest) = _ := f.openFrame_noop (.inl hoff) hask rest
  have hsession : frameSession Z f.hdr (frameOpts o' f.hdr) (f.body ++ rest)
      = { f.session Z o' with rest := rest } := by
    rw [frameSession_frameOpts, f.session_append]
  have hok : (openFrame seeks o (f.bytes ++ rest)).err = none := by rw [hopen]
  have hsame : ({ f.session Z o' with rest := rest } : Session).Same
      (frameSession Z (openFrame seeks o (f.bytes ++ rest)).hdr
        (openFrame seeks o (f.bytes ++ rest)).opts (openFrame seeks o (f.bytes ++ rest)).src) := by
    rw [hopen]
    simp only [hsession]
    exact Session.Same.refl _
  have hdec := decodeStream_opened hok hsame
  rw [hopen] at hdec
  exact hdec

/-- A frame whose session and size are good is passed over. -/
theorem decodeStream_frame_ok (f : Lz4Frame) (hoff : o.readOffset = 0)
    (hask : askDict o f.hdr = (none, o')) (hend : (f.session Z o').endErr = .const .endMark)
    (hsz : sizeErr (frameOpts o' f.hdr) (UInt64.ofNat (f.session Z o').bytes.length) = none)
    (rest : Bytes) :
    decodeStream Z seeks o (f.bytes ++ rest)
      = ahead (f.session Z o').bytes (decodeStream Z seeks (frameOpts o' f.hdr) rest) := by
  rw [decodeStream_frame f hoff hask, frameTail, if_pos hend, hsz]

/-- A stream that ends cleanly has good frames only. -/
theorem decodeStream_frame_eof (f : Lz4Frame) (hoff : o.readOffset = 0)
    (hask : askDict o f.hdr = (none, o')) {rest bs : Bytes}
    (h : decodeStream Z seeks o (f.bytes ++ rest) = (bs, .eof)) :
    (f.session Z o').endErr = .const .endMark ∧
      sizeErr (frameOpts o' f.hdr) (UInt64.ofNat (f.session Z o').bytes.length) = none ∧
      ∃ bs', decodeStream Z seeks (frameOpts o' f.hdr) rest = (bs', .eof) ∧
        bs = (f.session Z o').bytes ++ bs' := by
  rw [decodeStream_frame f hoff hask, frameTail, ahead, Prod.mk.injEq] at h
  obtain ⟨hbs, herr⟩ := h
  by_cases hend : (f.session Z o').endErr = .const .endMark
  · rw [if_pos hend] at hbs herr
    rcases hsz : sizeErr (frameOpts o' f.hdr) (UInt64.ofNat (f.session Z o').bytes.length) with _ | e
    · rw [hsz] at hbs herr
      exact ⟨hend, rfl, _, Prod.ext rfl herr, hbs.symm⟩
    · rw [hsz] at herr
      rw [sizeErr] at hsz
      split at hsz
      · cases hsz
      · split_ifs at hsz
        rw [← Option.some.inj hsz] at herr
        cases herr
  · rw [if_neg hend] at herr
    exact absurd herr (frameSession_endErr_ne_eof _ _ _)

/-- The end of the stream between frames is a clean end. -/
theorem decodeStream_nil (Z : Clz4) (seeks : Option SeekT) (o : OptsT) :
    decodeStream Z seeks o [] = ([], .eof) := rfl

/-! ## Skip frames -/

theorem readHeaders_skipFrame {cb : Option SkipCallbackT} (hcb : SkipOk cb) (s : SkipFrame)
    (rest : Bytes) :
    readHeaders cb ((s.bytes ++ rest).length + 1) (s.bytes ++ rest)
      = ({ (readHeaders cb (rest.length + 1) rest).1 with
            nRead := s.bytes.length + (readHeaders cb (rest.length + 1) rest).1.nRead },
          (readHeaders cb (rest.length + 1) rest).2) := by
  have hlen := s.length_bytes
  rw [readHeaders, readHeader_skipFrame hcb s rest]
  simp only [if_true]
  rw [readHeaders_congr cb (s.bytes ++ rest).length (rest.length + 1) rest
    (by rw [List.length_append]; omega) (by omega)]

/-- The bytes read so far only count. -/
theorem applyOffset_nRead (seeks : Option SeekT) (o : OptsT) (n m : ℤ) (hdr : HeaderT)
    (src : Bytes) :
    applyOffset seeks o (m + n) hdr src
      = { applyOffset seeks o n hdr src with nRead := m + (applyOffset seeks o n hdr src).nRead } := by
  simp only [applyOffset]
  split_ifs
  · rfl
  · rfl
  · rfl
  · split <;> simp only [Int.add_assoc]

theorem openFrame_skipFrame (hcb : SkipOk o.skipCallback) (s : SkipFrame) (rest : Bytes) :
    openFrame seeks o (s.bytes ++ rest)
      = { openFrame seeks o rest with
          nRead := s.bytes.length + (openFrame seeks o rest).nRead } := by
  simp only [openFrame, readHeaders_skipFrame hcb, applyOffset_nRead]
  split
  · rfl
  · split
    · rfl
    · split <;> simp only [*]

/-- **A skip frame in a stream** leaves no trace. -/
theorem decodeStream_skipFrame (hcb : SkipOk o.skipCallback) (s : SkipFrame) (rest : Bytes) :
    decodeStream Z seeks o (s.bytes ++ rest) = decodeStream Z seeks o rest := by
  have hlen : rest.length ≤ (s.bytes ++ rest).length := by
    rw [List.length_append]
    omega
  rw [decodeStream, decodeStream, decode_congr (rest.length + 1) ((s.bytes ++ rest).length + 1) o rest
    (by omega) (by omega)]
  simp only [decode, openFrame_skipFrame hcb]

/-! ## Streams -/

/-- A piece of a stream. -/
inductive Item
  | frame (f : Lz4Frame)
  | skip (s : SkipFrame)

namespace Item

def bytes : Item → Bytes
  | .frame f => f.bytes
  | .skip s => s.bytes

/-- What a piece decodes to. -/
def content (Z : Clz4) (o : OptsT) : Item → Bytes
  | .frame f => (f.session Z o).bytes
  | .skip _ => []

end Item

/-- The stream made of the pieces. -/
def streamBytes (is : List Item) : Bytes := is.flatMap Item.bytes

end Plz4
