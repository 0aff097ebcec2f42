/-
Clean ends. A stream that a Reader reads to its end without an error is made of whole
frames and skip frames, and every check that the frames and the options ask for holds.

The parts of a frame are named apart from the code that reads them (`RawFrame`), so that
the checks are stated of the bytes in the stream.
-/
import Plz4.BlkParse
import Plz4.HeaderCodec
import Plz4.Truncation
import Plz4.Concat

set_option autoImplicit false

namespace Plz4

open LittleEndian Xxh32

variable {Z : Clz4} {seeks : Option SeekT} {o : OptsT}

/-! ## The parts of a frame -/

/-- The parts of a frame: descriptor, its checksum byte, the blocks, the content
checksum. -/
structure RawFrame where
  desc : Bytes
  hash : UInt8
  blks : List RawBlk
  sum : Bytes

namespace RawFrame

variable (w : RawFrame)

def bytes : Bytes :=
  lz4FrameMagic ++ w.desc ++ [w.hash] ++ (w.blks.flatMap RawBlk.bytes ++ ([0, 0, 0, 0] ++ w.sum))

def flags : Flags := ⟨w.desc.getD 0 0⟩

/-- The content size field, when there is one. -/
def contentSz : UInt64 := getU64 ((w.desc.drop 2).take 8)

/-- Every part has the length that the flags and the size words give it. -/
structure WellFormed : Prop where
  desc : w.desc.length
    = 2 + (if w.flags.contentSize then 8 else 0) + (if w.flags.dictId then 4 else 0)
  blks : ∀ b ∈ w.blks, b.word.length = 4 ∧ b.word ≠ [0, 0, 0, 0]
    ∧ b.data.length = (⟨getU32 b.word⟩ : DataBlockSize).size
    ∧ b.sum.length = if w.flags.blockChecksum then 4 else 0
  sum : w.sum.length = if w.flags.contentChecksum then 4 else 0

/-- The checks of a frame with the given content. -/
structure Intact (o : OptsT) (content : Bytes) : Prop where
  header : w.hash = descHash w.desc
  blks : w.flags.blockChecksum = true → ∀ b ∈ w.blks, b.sum = putU32 (checksumZero b.data)
  sum : w.flags.contentChecksum = true → o.contentChecksum = true → content.length < 2 ^ 64 →
    w.sum = putU32 (checksumZero content)
  size : w.flags.contentSize = true → o.skipContentSz = false →
    w.contentSz = UInt64.ofNat content.length

end RawFrame

/-! ## What accepted blocks are made of -/

/-- What stands in the stream where a parse ran to an end mark. -/
theorem parseFrames_raw {fr : FrameReader} {src : Bytes}
    (h : (parseFrames fr src).err = .const .endMark) :
    ∃ blks : List RawBlk, (∀ b ∈ blks, b.Accepted fr)
      ∧ blks.map RawBlk.data = (parseFrames fr src).frames.map FrameT.blk
      ∧ src = blks.flatMap RawBlk.bytes
        ++ ([0, 0, 0, 0] ++ (if fr.srcCheck then putU32 (parseFrames fr src).fr.srcSum else []))
        ++ (parseFrames fr src).rest := by
  induction hn : src.length using Nat.strongRecOn generalizing src with
  | ind n ih =>
      rcases hr : fr.read src with ⟨⟨e | frame, fr'⟩, rest⟩
      · rw [parseFrames_error hr] at h ⊢
        have hend : e = .const .endMark := h
        subst hend
        exact ⟨[], by rintro _ ⟨⟩, rfl, (FrameReader.read_endMark_raw hr).1⟩
      · obtain rfl := FrameReader.read_ok_fr hr
        have hlen := FrameReader.read_ok_length hr
        obtain ⟨b, hb, hsplit, rfl, -⟩ := FrameReader.read_ok_raw hr
        rw [parseFrames_ok hr] at h ⊢
        obtain ⟨blks, hblks, hmap, hrest⟩ := ih rest.length (by omega) h rfl
        refine ⟨b :: blks, ?_, ?_, ?_⟩
        · intro b' hb'
          rcases List.mem_cons.mp hb' with rfl | hb'
          · exact hb
          · exact hblks b' hb'
        · rw [List.map_cons, List.map_cons, hmap]
          rfl
        · simp only [List.flatMap_cons, List.append_assoc] at hrest ⊢
          rw [hsplit]
          exact congrArg _ hrest

/-! ## The checks of a frame -/

/-- A session that ends at the end mark found the mark in the source. -/
theorem parse_of_session {hdr : HeaderT} {src : Bytes}
    (h : (frameSession Z hdr o src).endErr = .const .endMark) :
    (parseFrames (readerFrame hdr) src).err = .const .endMark := by
  have hall := sessionOf_all_ok (decodeAll_ne_endMark Z (readerFrame hdr).bsz (readerDc hdr o)
    (parseFrames (readerFrame hdr) src).frames) h
  by_contra hne
  apply hne
  rw [← h, frameSession, hall, sessionOf_endErr _ hne]

/-- It decoded every block. -/
theorem Lz4Frame.session_blks (f : Lz4Frame) (h : (f.session Z o).endErr = .const .endMark) :
    decodeAll Z (readerFrame f.hdr).bsz (readerDc f.hdr o) f.parsed.frames
      = (f.session Z o).blks.map (fun b => (.ok b.1, b.2)) :=
  sessionOf_all_ok (decodeAll_ne_endMark _ _ _ _) h

/-- The content checksum is the one-shot hash of the bytes delivered. -/
theorem Lz4Frame.srcSum_eq (f : Lz4Frame) (h : (f.session Z o).endErr = .const .endMark)
    (hoff : o.readOffset = 0) (hflag : f.hdr.flags.contentChecksum = true)
    (hon : o.contentChecksum = true) (hlen : (f.session Z o).bytes.length < 2 ^ 64) :
    f.parsed.fr.srcSum = checksumZero (f.session Z o).bytes := by
  have huse : useHasher f.hdr o = true := by
    rw [useHasher, hflag, hon, hoff]
    rfl
  have hall := f.session_blks h
  have hsession : f.session Z o = sessionOf (some .zero) f.parsed
      ((f.session Z o).blks.map (fun b => (.ok b.1, b.2))) := by
    rw [← hall]
    exact congrArg (fun x => sessionOf x f.parsed _) (if_pos huse)
  have hsum := @sessionOf_checkSum (some .zero) f.parsed (f.session Z o).blks
  rw [← hsession, h, f.parsed_err, Option.map_some] at hsum
  have hflat : ((f.session Z o).blks.map Prod.fst).flatten = (f.session Z o).bytes := by
    rw [Session.bytes, List.flatMap_def]
  have hhash := sum32_hashAll ((f.session Z o).blks.map Prod.fst) (by rw [hflat]; exact hlen)
  rw [hflat] at hhash
  by_contra hne
  have hbad : ((((f.session Z o).blks.map Prod.fst).foldl XXHZero.write .zero).sum32
      ≠ f.parsed.fr.srcSum) := by
    intro heq
    exact hne (heq.symm.trans hhash)
  simp only [checkSum, if_true, if_pos hbad, wrapCorrupted, reduceCtorEq] at hsum

/-- **A frame that is read without an error** is intact. -/
theorem Lz4Frame.intact (f : Lz4Frame) (hoff : o.readOffset = 0)
    (hend : (f.session Z o).endErr = .const .endMark)
    (hsz : sizeErr (frameOpts o f.hdr) (UInt64.ofNat (f.session Z o).bytes.length) = none) :
    ∃ w : RawFrame, f.bytes = w.bytes ∧ w.WellFormed ∧ w.Intact o (f.session Z o).bytes := by
  obtain ⟨o', hsplit, hhdr⟩ := readHeader_hdr f.header
  rw [← Lz4Frame.hdr] at hhdr
  obtain ⟨blks, hblks, hmap, hbody⟩ := parseFrames_raw f.parsed_err
  rw [← Lz4Frame.parsed, f.parsed_rest, List.append_nil] at hbody
  set sum := (if (readerFrame f.hdr).srcCheck then putU32 f.parsed.fr.srcSum else []) with hsum
  set w : RawFrame := ⟨headerDesc o', descHash (headerDesc o'), blks, sum⟩ with hw
  have hwflags : w.flags = f.hdr.flags := by
    rw [hhdr]
    rfl
  refine ⟨w, ?_, ⟨?_, fun b hmem => ?_, ?_⟩, ⟨rfl, fun hflag b hmem => ?_, fun hflag hon hlt => ?_,
    fun hflag hoff => ?_⟩⟩
  · rw [← Lz4Frame.body, hbody, headerBytes_eq] at hsplit
    exact hsplit
  · rw [hwflags, hhdr]
    exact length_headerDesc o'
  · have hacc := hblks b hmem
    refine ⟨hacc.word, hacc.notEnd, hacc.data, ?_⟩
    rw [hacc.sum, hwflags]
    change (if f.hdr.flags.blockChecksum then _ else _ : Bytes).length = _
    split_ifs
    · exact length_putU32 _
    · rfl
  · rw [hwflags]
    change sum.length = _
    rw [hsum]
    change (if f.hdr.flags.contentChecksum then _ else _ : Bytes).length = _
    split_ifs
    · exact length_putU32 _
    · rfl
  · rw [hwflags] at hflag
    rw [(hblks b hmem).sum]
    exact if_pos hflag
  · rw [hwflags] at hflag
    have hon' : sum = putU32 f.parsed.fr.srcSum := if_pos hflag
    change sum = _
    rw [hon', f.srcSum_eq hend hoff hflag hon hlt]
  · rw [hwflags] at hflag
    obtain ⟨-, -, -, hskip, -, -, hfield⟩ := frameOpts_fields o f.hdr
    rw [sizeErr_eq_none, hskip, hoff, hfield, if_pos hflag] at hsz
    have hsize : f.hdr.contentSz = UInt64.ofNat (f.session Z o).bytes.length := by
      simpa using hsz
    -- the field follows the two bytes of the descriptor
    have hfield : w.contentSz = o'.contentSz.getD 0 := by
      have hdrop : (headerDesc o').drop 2
          = o'.contentSz.elim [] putU64 ++ o'.dictionaryId.elim [] putU32 := rfl
      rw [hhdr] at hflag
      obtain ⟨-, -, -, -, -, hcs, -⟩ := headerFlags_spec o'
      obtain ⟨sz, hsome⟩ := Option.isSome_iff_exists.mp (hcs ▸ hflag)
      rw [RawFrame.contentSz, hw, hdrop, hsome, Option.elim_some,
        List.take_left' (length_putU64 sz), getU64_putU64, Option.getD_some]
    rw [← hsize, hfield, hhdr]
    rfl

/-! ## The pieces of a stream -/

/-- Between frames a bare `io.EOF` is the end of the stream and nothing else. -/
theorem readHeader_eof {cb : Option SkipCallbackT} {src : Bytes}
    (h : (readHeader src cb).1.err = some .eof) : src = [] := by
  -- a skip frame gives the end mark or a joined error
  have hskip : ∀ s hb, (maybeSkipFrame s hb cb).1.2 ≠ some .eof := by
    intro s hb
    simp only [maybeSkipFrame, wrapCorrupted]
    split_ifs
    · simp
    · split
      · simp
      · split <;> simp
  by_contra hne
  rw [readHeader] at h
  rcases hr : readFull src lz4MinHeaderSz with ⟨⟨b, _ | e⟩, rest⟩
  · simp only [hr, readHeaderRest] at h
    split_ifs at h
    · exact hskip _ _ h
    · split at h
      · rename_i e he
        exact (sanityCheck_ofHeader (he.trans h)).1 rfl
      · exact (readContentSz_ofHeader h).1 rfl
  · -- a short read gives `io.EOF` only when it gives no byte
    have hlt : src.length < lz4MinHeaderSz := by
      by_contra hge
      rw [readFull_of_le (by omega)] at hr
      cases hr
    rw [readFull_of_gt hlt, if_neg hne] at hr
    simp only [Prod.mk.injEq, Option.some.injEq] at hr
    obtain ⟨⟨rfl, rfl⟩, rfl⟩ := hr
    simp [readFull_of_gt hlt, if_neg hne] at h

/-- **A clean end.** The stream is made of frames and skip frames, and the frames are
intact. -/
theorem decodeStream_clean (hplain : o.Plain) {src bs : Bytes}
    (h : decodeStream Z seeks o src = (bs, .eof)) :
    ∃ is : List Item, src = streamBytes is ∧ bs = is.flatMap (Item.content Z o) ∧
      ∀ f, Item.frame f ∈ is →
        ∃ w : RawFrame, f.bytes = w.bytes ∧ w.WellFormed ∧ w.Intact o (f.session Z o).bytes := by
  induction hn : src.length using Nat.strongRecOn generalizing src bs o with
  | ind n ih =>
      by_cases hmark : (readHeader src none).1.err = some (.const .endMark)
      · -- a skip frame: the header reader passes over it
        obtain ⟨s, rest, rfl⟩ := readHeader_skip_frame hmark
        have hlen := s.length_bytes
        have hcb : SkipOk o.skipCallback := by
          rw [hplain.skipCallback]
          exact .none
        rw [decodeStream_skipFrame hcb] at h
        rw [List.length_append] at hn
        obtain ⟨is, rfl, hbs, hall⟩ := ih rest.length (by omega) hplain h rfl
        refine ⟨.skip s :: is, rfl, hbs, fun f hf => ?_⟩
        rcases List.mem_cons.mp hf with hf | hf
        · cases hf
        · exact hall f hf
      · have hhdrs : readHeaders o.skipCallback (src.length + 1) src = readHeader src none := by
          rw [hplain.skipCallback]
          exact readHeaders_of_header hmark _
        rcases herr : (readHeader src none).1.err with _ | e
        · -- a frame: its session decides how the stream goes on
          have hread : readHeader src o.skipCallback
              = (⟨(readHeader src none).1.nRead, (readHeader src none).1.hdr, none⟩,
                (readHeader src none).2) := by
            rw [hplain.skipCallback, ← herr]
          have hok : (openFrame seeks o src).err = none := by
            rw [openFrame_header hread hplain.readOffset (hplain.askDict _)]
          have hopen := @openFrame_header seeks _ _ _ _ _ _ hread hplain.readOffset (hplain.askDict _)
          obtain ⟨hmarked, -, -⟩ := decodeStream_eof rfl hok rfl h
          have hends : (parseFrames (readerFrame (readHeader src none).1.hdr)
              (readHeader src none).2).err = .const .endMark := by
            rw [hopen] at hmarked
            exact parse_of_session hmarked
          obtain ⟨f, rest, rfl⟩ := exists_lz4Frame herr hends
          obtain ⟨hend, hsz, bs', hrest, rfl⟩ :=
            decodeStream_frame_eof f hplain.readOffset (hplain.askDict _) h
          obtain ⟨hplain', hsame⟩ := hplain.frameOpts (Z := Z) f.hdr
          have hlen := f.length_bytes
          obtain ⟨q, hq⟩ := readHeader_ok f.header
          have hpos := hq.length
          have hqlen := congrArg List.length hq.split
          rw [List.length_append] at hn hqlen
          have hseven : lz4MinHeaderSz = 7 := rfl
          obtain ⟨is, rfl, hbs, hall⟩ := ih rest.length (by omega) hplain' hrest rfl
          refine ⟨.frame f :: is, rfl, ?_, fun g hg => ?_⟩
          · rw [List.flatMap_cons, hbs]
            exact congrArg _ (List.flatMap_congr fun i _ => content_congr hsame i)
          · rcases List.mem_cons.mp hg with hg | hg
            · cases hg
              exact f.intact hplain.readOffset hend hsz
            · obtain ⟨w, hbytes, hwf, hint⟩ := hall g hg
              refine ⟨w, hbytes, hwf, ?_⟩
              rw [hsame] at hint
              obtain ⟨-, -, hsum, hskip, -⟩ := frameOpts_fields o f.hdr
              exact ⟨hint.header, hint.blks, hsum ▸ hint.sum, hskip ▸ hint.size⟩
        · -- no header: the end of the stream is clean only where no byte is left
          have hopen : (openFrame seeks o src).err = some e := by
            simp only [openFrame, hhdrs, herr]
          rw [decodeStream_error hopen, Prod.mk.injEq] at h
          obtain ⟨rfl, rfl⟩ := h
          exact ⟨[], readHeader_eof herr, rfl, by rintro _ ⟨⟩⟩

/-! ## Reaching the end -/

namespace Reader


variable {plan : WrPlan}

/-- Either no write of the loop fails, or the loop breaks off with an error. -/
theorem writeLoop_plan (hplan : ∀ i k e, plan i = some (k, e) → e ≠ .const .endMark) (k : ℕ)
    (calls : List WrCall) (r : Reader) :
    r.writeLoop plan k calls = r.writeLoop .ok k calls ∨
      ∃ e, e ≠ .const .endMark ∧ (r.writeLoop plan k calls).1.1.2 = some e := by
  induction k generalizing calls r with
  | zero => exact .inl rfl
  | succ k ih =>
      by_cases hfails : r.avail.isEmpty = false ∧ (plan calls.length).isSome = true
      · obtain ⟨⟨n, e⟩, hp⟩ := Option.isSome_iff_exists.mp hfails.2
        refine .inr ⟨e, hplan _ _ _ hp, ?_⟩
        simp only [writeLoop, hfails.1, Bool.false_eq_true, if_false, wrWrite, hp]
      · have hwrite : (if r.avail.isEmpty then (0, none, calls) else wrWrite plan calls r.avail)
            = if r.avail.isEmpty then (0, none, calls) else wrWrite .ok calls r.avail := by
          rcases hempty : r.avail.isEmpty with _ | _
          · have hnone : plan calls.length = none := by
              rw [← Option.not_isSome_iff_eq_none]
              exact fun hsome => hfails ⟨hempty, hsome⟩
            simp only [Bool.false_eq_true, if_false, wrWrite, hnone, WrPlan.ok]
          · rfl
        simp only [writeLoop, hwrite]
        rcases (if r.avail.isEmpty then (0, none, calls) else wrWrite .ok calls r.avail)
          with ⟨n, _ | e, calls'⟩
        · simp only
          rcases (r.slide n).blkReader with _ | t
          · exact .inl rfl
          · rcases hnext : nextBlock t (r.slide n) with ⟨_ | e, r'⟩
            · simp only [hnext]
              rcases ih calls' r' with heq | ⟨e, hne, he⟩
              · exact .inl (by rw [heq])
              · exact .inr ⟨e, hne, he⟩
            · simp only [hnext, true_or]
        · exact .inl rfl

/-- So does a frame of `WriteTo`, which leaves the error in the reader. -/
theorem writeFrame_plan (hplan : ∀ i k e, plan i = some (k, e) → e ≠ .const .endMark)
    (calls : List WrCall) (r : Reader) :
    r.writeFrame plan calls = r.writeFrame .ok calls ∨
      (r.writeFrame plan calls).2.state.isSome = true := by
  rcases writeLoop_plan hplan r.passes calls r with heq | ⟨e, hne, he⟩
  · left
    rw [writeFrame, writeFrame, _writeTo, _writeTo, heq]
  · right
    rcases hloop : r.writeLoop plan r.passes calls with ⟨⟨⟨n, err⟩, calls'⟩, r'⟩
    rw [hloop] at he
    simp only at he
    subst he
    simp only [writeFrame, _writeTo, hloop, Option.some.injEq, if_neg hne, Option.isSome_some]

/-- A `WriteTo` of which a write fails does not return nil. -/
theorem frameLoop_plan (hplan : ∀ i k e, plan i = some (k, e) → e ≠ .const .endMark) (S : Sched Z)
    (k : ℕ) (calls : List WrCall) (r : Reader) :
    r.frameLoop S plan k calls = r.frameLoop S .ok k calls ∨
      (r.frameLoop S plan k calls).1.1.2 ≠ none := by
  induction k generalizing calls r with
  | zero => exact .inl rfl
  | succ k ih =>
      -- the loop from the state a frame leaves
      have hframe : ∀ (calls : List WrCall) (r : Reader),
          (frameLoop S plan k (r.writeFrame plan calls).1.2 (r.writeFrame plan calls).2).1.1.2 ≠ none
          ∨ r.writeFrame plan calls = r.writeFrame .ok calls
            ∧ frameLoop S plan k (r.writeFrame .ok calls).1.2 (r.writeFrame .ok calls).2
              = frameLoop S .ok k (r.writeFrame .ok calls).1.2 (r.writeFrame .ok calls).2 := by
        intro calls r
        rcases writeFrame_plan hplan calls r with heq | hstate
        · rw [heq]
          rcases ih (r.writeFrame .ok calls).1.2 (r.writeFrame .ok calls).2 with hloop | hloop
          · exact .inr ⟨rfl, hloop⟩
          · exact .inl hloop
        · left
          obtain ⟨e, he⟩ := Option.isSome_iff_exists.mp hstate
          cases k with
          | zero =>
              simp only [frameLoop, he]
              rintro ⟨⟩
          | succ k =>
              simp only [frameLoop, he, Option.isSome_some, if_true]
              rintro ⟨⟩
      simp only [frameLoop]
      by_cases hstate : r.state.isSome = true
      · simp only [hstate, if_true, true_or]
      · simp only [if_neg hstate]
        by_cases hblk : r.blkReader.isSome = true
        · simp only [hblk, if_true]
          rcases hframe calls r with hne | ⟨heq, hloop⟩
          · exact .inr hne
          · exact .inl (by rw [heq, hloop])
        · simp only [if_neg hblk]
          rcases r._readHeader S with ⟨⟨nBytes, _ | e⟩, r₁⟩
          · simp only
            rcases hframe calls { r₁ with srcPos := r₁.srcPos + nBytes } with hne | ⟨heq, hloop⟩
            · exact .inr hne
            · exact .inl (by rw [heq, hloop])
          · exact .inl rfl

/-- The reader comes to the end of the stream without an error, with `bs` delivered: a
`Read` reports `io.EOF`, or after some `Read` calls `WriteTo` returns nil. The errors of
the destination are not the mark that ends a frame. The last argument is the reader then. -/
inductive ReachesEnd (S : Sched Z) (r : Reader) : Bytes → Reader → Prop
  | read (ns : List ℕ) : (r.readAll S ns).1.2 = some .eof →
      ReachesEnd S r (r.readAll S ns).1.1 (r.readAll S ns).2
  | writeTo (ns : List ℕ) (plan : WrPlan) : (∀ i k e, plan i = some (k, e) → e ≠ .const .endMark) →
      (r.readAll S ns).1.2 = none → ((r.readAll S ns).2.writeTo S plan).1.1.2 = none →
      ReachesEnd S r ((r.readAll S ns).1.1 ++ passed ((r.readAll S ns).2.writeTo S plan).1.2)
        ((r.readAll S ns).2.writeTo S plan).2

theorem ReachesEnd.future {S : Sched Z} {r r' : Reader} {bs : Bytes} (hok : r.Ok)
    (h : r.ReachesEnd S bs r') : r.future Z = (bs, .eof) := by
  cases h with
  | read ns heof =>
      obtain ⟨-, -, hlast⟩ := readAll_spec S ns hok
      exact hlast _ heof
  | writeTo ns plan hplan hnone hnil =>
      obtain ⟨hok', hnext, -⟩ := readAll_spec S ns hok
      set r₁ := (r.readAll S ns).2 with hr₁
      have hstate : r₁.state = none := by
        rcases hst : r₁.state with _ | e
        · rfl
        · exfalso
          simp only [Reader.writeTo, frameLoop, hst, Option.isSome_some, if_true, reduceCtorEq]
            at hnil
      have hsame : r₁.writeTo S plan = r₁.writeTo S .ok :=
        (frameLoop_plan hplan S _ [] r₁).resolve_right (fun hne => hne hnil)
      obtain ⟨hres, hpassed⟩ := (delivers_future S hok' (by rw [hstate]; rintro _ ⟨⟩)).writeTo
      rw [hsame] at hnil ⊢
      rw [hnext hnone, hpassed, ahead]
      apply congrArg
      rw [hres, writeToErr] at hnil
      by_contra hne
      rw [if_neg hne] at hnil
      cases hnil

/-- A reader that delivers a clean end comes to it. -/
theorem Delivers.reachesEnd {S : Sched Z} {r : Reader} {bs : Bytes} (h : r.Delivers S bs .eof) :
    ∃ r', r.ReachesEnd S bs r' := by
  obtain ⟨k, hk⟩ := h.ends
  have hpos : ∀ n ∈ List.replicate (k + 1) 1, 0 < n := by
    intro n hn
    rw [List.eq_of_mem_replicate hn]
    exact Nat.one_pos
  obtain ⟨e, he⟩ := Option.ne_none_iff_exists'.mp
    (hk _ hpos (by rw [List.length_replicate]; exact Nat.lt_succ_self k))
  obtain ⟨rfl, rfl⟩ := h.last _ _ he
  exact ⟨_, .read _ he⟩

end Reader

/-- **Clean end implies integrity.** A Reader that comes to the end of a stream without an
error has delivered the contents of its frames, one after the other, and every check that
a frame and the options ask for holds of its bytes. -/
theorem newReader_intact (S : Sched Z) (seeks : Option SeekT) (hplain : o.Plain) (src : Bytes)
    {bs : Bytes} {r : Reader} (hend : (newReader src seeks o).ReachesEnd S bs r) :
    ∃ is : List Item, src = streamBytes is ∧ bs = is.flatMap (Item.content Z o) ∧
      ∀ f, Item.frame f ∈ is →
        ∃ w : RawFrame, f.bytes = w.bytes ∧ w.WellFormed ∧ w.Intact o (f.session Z o).bytes := by
  have hfuture := hend.future (Reader.newReader_ok src seeks o)
  exact decodeStream_clean hplain hfuture

/-- A frame of one block with all the checks there are. -/
def checkedFrame : Bytes :=
  headerBytes { OptsT.sync64KB with blockChecksum := true, contentSz := some 1 }
    ++ blkBytes false [16, 7] true ++ trailerBytes (some (checksumZero [7]))

theorem newReader_intact_checked :
    ∃ is : List Item, checkedFrame = streamBytes is
      ∧ [7] = is.flatMap (Item.content litEngine .sync64KB) ∧
      ∀ f, Item.frame f ∈ is → ∃ w : RawFrame, f.bytes = w.bytes ∧ w.WellFormed ∧
        w.Intact .sync64KB (f.session litEngine .sync64KB).bytes := by
  obtain ⟨S⟩ := Sched.nonempty litEngine
  have hdec : (newReader checkedFrame none .sync64KB).Delivers S [7] .eof :=
    (newReader_delivers_iff _ _ _ _ _ _).mpr (by decide +kernel)
  obtain ⟨r, hr⟩ := hdec.reachesEnd
  exact newReader_intact S none ⟨rfl, rfl, rfl⟩ checkedFrame hr

end Plz4
