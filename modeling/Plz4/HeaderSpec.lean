/-
What `WriteHeader` writes, `ReadHeader` reads back, and what `ReadHeader` accepts
it accepts on the bytes it consumed, whatever follows them, and on no proper prefix
of these.
-/
import Plz4.Header

set_option autoImplicit false

namespace Plz4

open LittleEndian CopyAt Xxh32

/-! ## The written bytes -/

/-- The descriptor between the magic and the checksum byte. -/
def headerDesc (o : OptsT) : Bytes :=
  [(headerFlags o).raw, (Block.setIdx o.blockSizeIdx).raw]
    ++ o.contentSz.elim [] putU64 ++ o.dictionaryId.elim [] putU32

/-- The checksum byte of a descriptor. -/
def descHash (desc : Bytes) : UInt8 := (checksumZero desc >>> 8 &&& 0xFF).toUInt8

/-- Every flag says what the options say. -/
theorem headerFlags_spec (o : OptsT) :
    (headerFlags o).version = lz4FrameVers ∧ (headerFlags o).reserved = false
      ∧ (headerFlags o).blockIndependence = !o.blockLinked
      ∧ (headerFlags o).blockChecksum = o.blockChecksum
      ∧ (headerFlags o).contentChecksum = o.contentChecksum
      ∧ (headerFlags o).contentSize = o.contentSz.isSome
      ∧ (headerFlags o).dictId = o.dictionaryId.isSome := by
  rw [headerFlags]
  generalize o.blockLinked = linked, o.blockChecksum = bc, o.contentChecksum = cc,
    o.contentSz.isSome = cs, o.dictionaryId.isSome = di
  revert linked bc cc cs di
  decide

theorem headerBytes_eq (o : OptsT) :
    headerBytes o = lz4FrameMagic ++ headerDesc o ++ [descHash (headerDesc o)] := by
  have h8 : ∀ v : UInt64, ∃ b0 b1 b2 b3 b4 b5 b6 b7, putU64 v = [b0, b1, b2, b3, b4, b5, b6, b7] :=
    fun v => ⟨_, _, _, _, _, _, _, _, rfl⟩
  have h4 : ∀ v : UInt32, ∃ b0 b1 b2 b3, putU32 v = [b0, b1, b2, b3] :=
    fun v => ⟨_, _, _, _, rfl⟩
  unfold headerBytes headerDesc descHash
  rcases o.contentSz with _ | sz <;> rcases o.dictionaryId with _ | id
  · simp [copyAt, lz4MinHeaderSz, lz4FrameMagic]
  · obtain ⟨c0, c1, c2, c3, hc⟩ := h4 id
    simp [copyAt, lz4MinHeaderSz, lz4FrameMagic, hc]
  · obtain ⟨b0, b1, b2, b3, b4, b5, b6, b7, hb⟩ := h8 sz
    simp [copyAt, lz4MinHeaderSz, lz4FrameMagic, hb]
  · obtain ⟨b0, b1, b2, b3, b4, b5, b6, b7, hb⟩ := h8 sz
    obtain ⟨c0, c1, c2, c3, hc⟩ := h4 id
    simp [copyAt, lz4MinHeaderSz, lz4FrameMagic, hb, hc]

/-! ## Reading it back -/

/-- The header of a frame written with the options. -/
def headerOf (o : OptsT) : HeaderT :=
  ⟨(headerBytes o).length, o.dictionaryId.getD 0, o.contentSz.getD 0, headerFlags o,
    Block.setIdx o.blockSizeIdx⟩

theorem sanityCheck_headerOf (o : OptsT) (hdr : HeaderT) (hf : hdr.flags = headerFlags o)
    (hb : hdr.blockDesc = Block.setIdx o.blockSizeIdx) : sanityCheck hdr = none := by
  obtain ⟨hv, hr, -⟩ := headerFlags_spec o
  have hd := (Block.setIdx_spec o.idx_valid).1
  simp [sanityCheck, hf, hb, hv, hr, hd]

theorem checkHeaderHash_exact (hdr : HeaderT) (desc : Bytes) {hdrBytes : Bytes}
    (h : hdrBytes = lz4FrameMagic ++ desc ++ [descHash desc]) :
    checkHeaderHash hdr hdrBytes
      = ⟨hdrBytes.length, { hdr with sz := hdrBytes.length }, none⟩ := by
  have hlen : hdrBytes.length - 1 = lz4FrameMagic.length + desc.length := by
    rw [h]
    simp
  have hdesc : (hdrBytes.take (hdrBytes.length - 1)).drop 4 = desc := by
    rw [hlen, h, List.take_left' (by simp)]
    exact List.drop_left' rfl
  have hget : hdrBytes.getD (hdrBytes.length - 1) 0 = descHash desc := by
    rw [hlen, h, List.getD_append_right _ _ _ _ (by simp)]
    simp
  rw [checkHeaderHash, headerHash, hdesc, hget, ← descHash]
  simp

/-- With the bytes up to the id's first in hand, the dictionary id is fetched and
read, or there is none and nothing is fetched. -/
theorem readDictId_exact (hdr : HeaderT) {id : Option UInt32} (A : Bytes) (hash : UInt8)
    (rest : Bytes) (hid : hdr.flags.dictId = id.isSome) :
    readDictId hdr ((A ++ id.elim [] putU32 ++ [hash]).take (A.length + 1))
        ((A ++ id.elim [] putU32 ++ [hash]).drop (A.length + 1) ++ rest)
      = (checkHeaderHash { hdr with dictId := id.getD hdr.dictId }
          (A ++ id.elim [] putU32 ++ [hash]), rest) := by
  rcases id with _ | id
  · have hlen : (A ++ [hash]).length = A.length + 1 := by simp
    simp only [Option.isSome_none, Option.elim_none, List.append_nil, Option.getD_none] at hid ⊢
    rw [List.take_of_length_le (by omega), List.drop_of_length_le (by omega), readDictId, hid,
      if_neg Bool.false_ne_true, List.nil_append]
  · simp only [Option.isSome_some, Option.elim_some, Option.getD_some] at hid ⊢
    set H := A ++ putU32 id ++ [hash] with hH
    have hlen : H.length = A.length + 5 := by
      rw [hH]
      simp
    have hread : readFull (H.drop (A.length + 1) ++ rest) 4
        = ((H.drop (A.length + 1), none), rest) :=
      readFull_append rest (by rw [List.length_drop]; omega)
    have htake : (H.take (A.length + 1)).length = A.length + 1 := by
      rw [List.length_take]
      omega
    have hget : getU32 ((H.drop A.length).take 4) = id := by
      rw [hH, List.append_assoc, List.drop_left, List.take_left' (length_putU32 id), getU32_putU32]
    simp only [readDictId, hid, if_true, hread, htake, List.take_append_drop, Nat.add_sub_cancel,
      hget]

/-- The same for the content size, which starts at the seventh byte. -/
theorem readContentSz_exact (hdr : HeaderT) {sz : Option UInt64} {A B : Bytes} (rest : Bytes)
    (hA : A.length = 6) (hB : B ≠ []) (hsz : hdr.flags.contentSize = sz.isSome) :
    readContentSz hdr ((A ++ sz.elim [] putU64 ++ B).take 7)
        ((A ++ sz.elim [] putU64 ++ B).drop 7 ++ rest)
      = readDictId { hdr with contentSz := sz.getD hdr.contentSz }
          ((A ++ sz.elim [] putU64 ++ B).take ((A ++ sz.elim [] putU64).length + 1))
          ((A ++ sz.elim [] putU64 ++ B).drop ((A ++ sz.elim [] putU64).length + 1) ++ rest) := by
  have hpos : 0 < B.length := List.length_pos_iff.mpr hB
  rcases sz with _ | sz
  · simp only [Option.isSome_none, Option.elim_none, List.append_nil, Option.getD_none, hA]
      at hsz ⊢
    rw [readContentSz, hsz, if_neg Bool.false_ne_true]
  · simp only [Option.isSome_some, Option.elim_some, Option.getD_some] at hsz ⊢
    set H := A ++ putU64 sz ++ B with hH
    have hlen : H.length = 14 + B.length := by
      rw [hH]
      simp only [List.length_append, hA, length_putU64]
    have hsplit : H.drop 7 ++ rest = (H.drop 7).take 8 ++ (H.drop 15 ++ rest) := by
      have hdrop : H.drop 15 = (H.drop 7).drop 8 := by rw [List.drop_drop]
      rw [hdrop, ← List.append_assoc, List.take_append_drop]
    have hread : readFull (H.drop 7 ++ rest) 8 = (((H.drop 7).take 8, none), H.drop 15 ++ rest) := by
      rw [hsplit]
      refine readFull_append _ ?_
      rw [List.length_take, List.length_drop]
      omega
    have htake : H.take 7 ++ (H.drop 7).take 8 = H.take 15 := by rw [← List.take_add]
    have hfield : ((H.take 15).drop 6).take 8 = putU64 sz := by
      have hsix : H.drop 6 = putU64 sz ++ B := by
        rw [hH, List.append_assoc, List.drop_left' hA]
      rw [List.drop_take, hsix, List.take_take]
      exact List.take_left' (length_putU64 sz)
    have hAlen : (A ++ putU64 sz).length + 1 = 15 := by
      rw [List.length_append, hA, length_putU64]
    simp only [readContentSz, hsz, if_true, hread, htake, hfield, getU64_putU64, hAlen]

/-- **Round trip.** `ReadHeader` takes exactly the bytes of `WriteHeader`, without an
error, and finds in them what the options say. -/
theorem readHeader_headerBytes (o : OptsT) (rest : Bytes) (cb : Option SkipCallbackT) :
    readHeader (headerBytes o ++ rest) cb
      = (⟨(headerBytes o).length, headerOf o, none⟩, rest) := by
  obtain ⟨-, -, -, -, -, hcs, hid⟩ := headerFlags_spec o
  set A : Bytes := lz4FrameMagic ++ [(headerFlags o).raw, (Block.setIdx o.blockSizeIdx).raw] with hA
  set hash := descHash (headerDesc o) with hhash
  have hbytes : headerBytes o
      = A ++ o.contentSz.elim [] putU64 ++ (o.dictionaryId.elim [] putU32 ++ [hash]) := by
    rw [headerBytes_eq, ← hhash, headerDesc, hA]
    simp only [List.append_assoc]
  have hbytes' : headerBytes o
      = A ++ o.contentSz.elim [] putU64 ++ o.dictionaryId.elim [] putU32 ++ [hash] := by
    rw [hbytes, ← List.append_assoc]
  have hseven : lz4MinHeaderSz ≤ (headerBytes o).length := by
    rw [hbytes, hA]
    simp only [List.length_append, List.length_cons, List.length_nil, lz4FrameMagic,
      lz4MinHeaderSz]
    omega
  have hread : readFull (headerBytes o ++ rest) lz4MinHeaderSz
      = (((headerBytes o).take 7, none), (headerBytes o).drop 7 ++ rest) := by
    rw [readFull_of_le (by rw [List.length_append]; omega), List.take_append_of_le_length hseven,
      List.drop_append_of_le_length hseven]
    rfl
  -- magic, flags and block descriptor, and one byte of whatever field is next
  have hfirst : ∃ x, (headerBytes o).take 7 = A ++ [x] := by
    have hlen : A.length = 6 := rfl
    have hsplit : (headerBytes o).take 7 = A ++ ((headerBytes o).drop 6).take 1 := by
      have hsix : (headerBytes o).take 6 = A := by
        rw [hbytes, List.append_assoc, List.take_left' hlen]
      rw [← hsix, ← List.take_add]
    obtain ⟨x, hx⟩ : ∃ x, ((headerBytes o).drop 6).take 1 = [x] := by
      apply List.length_eq_one_iff.mp
      rw [List.length_take, List.length_drop]
      have : lz4MinHeaderSz = 7 := rfl
      omega
    exact ⟨x, by rw [hsplit, hx]⟩
  obtain ⟨x, hx⟩ := hfirst
  have hmagic : ((headerBytes o).take 7).take 4 = lz4FrameMagic := by
    rw [hx, hA]
    rfl
  have hflags : ((headerBytes o).take 7).getD 4 0 = (headerFlags o).raw := by
    rw [hx, hA]
    rfl
  have hdesc : ((headerBytes o).take 7).getD 5 0 = (Block.setIdx o.blockSizeIdx).raw := by
    rw [hx, hA]
    rfl
  have hsane := sanityCheck_headerOf o
    ⟨0, 0, 0, headerFlags o, Block.setIdx o.blockSizeIdx⟩ rfl rfl
  -- the optional fields, each read from where the one before ended
  have hcontent := readContentSz_exact
    ⟨0, 0, 0, headerFlags o, Block.setIdx o.blockSizeIdx⟩ (A := A)
    (B := o.dictionaryId.elim [] putU32 ++ [hash]) rest rfl (by simp) hcs
  have hdict := readDictId_exact
    ⟨0, 0, o.contentSz.getD 0, headerFlags o, Block.setIdx o.blockSizeIdx⟩
    (A ++ o.contentSz.elim [] putU64) hash rest hid
  have hcheck := checkHeaderHash_exact
    ⟨0, o.dictionaryId.getD 0, o.contentSz.getD 0, headerFlags o, Block.setIdx o.blockSizeIdx⟩
    (headerDesc o) (headerBytes_eq o)
  rw [← hbytes] at hcontent
  rw [← hbytes'] at hdict
  simp only [readHeader, readHeaderRest, hread, hmagic, ne_eq, not_true_eq_false, if_false, hflags, hdesc, hsane]
  rw [hcontent, hdict, hcheck]
  rfl

/-! ## What is accepted -/

/-- The result of a parse cut short inside the header. -/
def HdrRes.Short (r : HdrRes) : Prop := ∃ e, r.err = some e ∧ e.ShortRead

theorem AtEnd.join {r : Bytes × Option Err} (h : AtEnd r) :
    ∃ e, r.2 = some e ∧ (Err.join (.const .errHeaderRead) e).ShortRead := by
  rcases h with he | he
  · exact ⟨_, he, .join (by decide) (.inl rfl)⟩
  · exact ⟨_, he, .join (by decide) (.inr rfl)⟩

theorem checkHeaderHash_ok {hdr : HeaderT} {hdrBytes : Bytes}
    (h : (checkHeaderHash hdr hdrBytes).err = none) :
    (checkHeaderHash hdr hdrBytes).nRead = hdrBytes.length
      ∧ (checkHeaderHash hdr hdrBytes).hdr.sz = hdrBytes.length := by
  simp only [checkHeaderHash] at h ⊢
  split_ifs at h ⊢ with hne
  exact ⟨rfl, rfl⟩

/-- The bytes a stage of the parse took in addition to `base` earlier ones. -/
structure HdrTakes (f : Bytes → HdrRes × Bytes) (base : ℕ) (src q : Bytes) : Prop where
  split : src = q ++ (f src).2
  exact : Reads.Exact f HdrRes.Short q (f src).1
  nRead : (f src).1.nRead = base + q.length
  sz : (f src).1.hdr.sz = base + q.length

/-- The end of the parse takes nothing more. -/
theorem checkHeaderHash_takes {hdr : HeaderT} {hdrBytes : Bytes} (src : Bytes)
    (h : (checkHeaderHash hdr hdrBytes).err = none) :
    HdrTakes (fun s => (checkHeaderHash hdr hdrBytes, s)) hdrBytes.length src [] := by
  obtain ⟨hn, hs⟩ := checkHeaderHash_ok h
  exact ⟨rfl, Reads.Exact.nil (fun _ => rfl), by simpa using hn, by simpa using hs⟩

/-- One more read of the parse: `n` bytes, and then `g`. A short read is the end of it. -/
theorem HdrTakes.readMore {n base : ℕ} {f : Bytes → HdrRes × Bytes}
    {g : Bytes → Bytes → HdrRes × Bytes} {src : Bytes} (hdr : HeaderT)
    (hf : ∀ s, f s = (readFull s n).1.2.elim (g (readFull s n).1.1 (readFull s n).2) (fun e =>
      (⟨base + (readFull s n).1.1.length, hdr, some (.join (.const .errHeaderRead) e)⟩,
        (readFull s n).2)))
    (h : (f src).1.err = none)
    (hg : ∀ b, b.length = n → (g b (src.drop n)).1.err = none →
      ∃ q, HdrTakes (g b) (base + n) (src.drop n) q) :
    ∃ q, HdrTakes f base src q := by
  have hread : (readFull src n).1.2 = none := by
    rcases hr : (readFull src n).1.2 with _ | e
    · rfl
    · rw [hf, hr] at h
      cases h
  obtain ⟨hres, hlen, hsplit⟩ := readFull_ok hread
  have heq : f src = g (src.take n) (src.drop n) := by
    rw [hf, hres]
    rfl
  rw [heq] at h
  obtain ⟨q, hq⟩ := hg _ hlen h
  refine ⟨src.take n ++ q, ⟨?_, ?_, ?_, ?_⟩⟩
  · rw [heq, List.append_assoc, ← hq.split]
    exact hsplit
  · -- a short first read leaves the parse short
    have hboth := (readFull_exact hlen).andThen (g := fun x rest => x.2.elim (g x.1 rest) (fun e =>
      (⟨base + x.1.length, hdr, some (.join (.const .errHeaderRead) e)⟩, rest))) hq.exact (by
        intro x rest hx
        obtain ⟨e, he, hshort⟩ := hx.join
        rw [he]
        exact ⟨_, rfl, hshort⟩)
    rw [heq]
    exact hboth.congr hf
  · rw [heq, hq.nRead, List.length_append, hlen]
    push_cast
    ring
  · rw [heq, hq.sz, List.length_append, hlen, Nat.add_assoc]

theorem readDictId_ok {hdr : HeaderT} {hdrBytes src : Bytes}
    (h : (readDictId hdr hdrBytes src).1.err = none) :
    ∃ q, HdrTakes (readDictId hdr hdrBytes) hdrBytes.length src q := by
  by_cases hid : hdr.flags.dictId = true
  · refine HdrTakes.readMore (n := 4) (g := fun b rest => (checkHeaderHash { hdr with
      dictId := getU32 (((hdrBytes ++ b).drop (hdrBytes.length - 1)).take 4) } (hdrBytes ++ b),
        rest)) hdr ?_ h ?_
    · intro s
      rw [readDictId, if_pos hid]
      rcases readFull s 4 with ⟨⟨b, _ | e⟩, rest⟩ <;> rfl
    · intro b hb h
      have htakes := checkHeaderHash_takes (src.drop 4) h
      rw [List.length_append, hb] at htakes
      exact ⟨[], htakes⟩
  · have heq : readDictId hdr hdrBytes = fun s => (checkHeaderHash hdr hdrBytes, s) := by
      funext s
      rw [readDictId, if_neg hid]
    rw [heq] at h ⊢
    exact ⟨[], checkHeaderHash_takes src h⟩

theorem readContentSz_ok {hdr : HeaderT} {hdrBytes src : Bytes}
    (h : (readContentSz hdr hdrBytes src).1.err = none) :
    ∃ q, HdrTakes (readContentSz hdr hdrBytes) hdrBytes.length src q := by
  by_cases hsz : hdr.flags.contentSize = true
  · refine HdrTakes.readMore (n := 8) (g := fun b => readDictId { hdr with
      contentSz := getU64 (((hdrBytes ++ b).drop 6).take 8) } (hdrBytes ++ b)) hdr ?_ h ?_
    · intro s
      rw [readContentSz, if_pos hsz]
      rcases readFull s 8 with ⟨⟨b, _ | e⟩, rest⟩ <;> rfl
    · intro b hb h
      obtain ⟨q, hq⟩ := readDictId_ok h
      rw [List.length_append, hb] at hq
      exact ⟨q, hq⟩
  · have heq : readContentSz hdr hdrBytes = readDictId hdr hdrBytes := by
      funext s
      rw [readContentSz, if_neg hsz]
    rw [heq] at h ⊢
    exact readDictId_ok h

/-- A skip frame is never taken for a header. -/
theorem maybeSkipFrame_err (src hdr : Bytes) (cb : Option SkipCallbackT) :
    (maybeSkipFrame src hdr cb).1.2 ≠ none := by
  simp only [maybeSkipFrame]
  split_ifs
  · simp
  · split
    · simp
    · split <;> simp

/-- An accepted header: the bytes it is made of, and how the same parse does on any
other continuation and on the proper prefixes. -/
structure HdrAccepted (cb : Option SkipCallbackT) (src q : Bytes) : Prop where
  split : src = q ++ (readHeader src cb).2
  append : ∀ t, readHeader (q ++ t) cb = ((readHeader src cb).1, t)
  short : ∀ p, p <+: q → p ≠ q → p ≠ [] → (readHeader p cb).1.Short
  length : lz4MinHeaderSz ≤ q.length
  nRead : (readHeader src cb).1.nRead = q.length
  sz : (readHeader src cb).1.hdr.sz = q.length

/-- The end of the stream at a header is a bare `io.EOF`. -/
theorem readHeader_nil (cb : Option SkipCallbackT) :
    readHeader [] cb = (⟨0, .zero, some .eof⟩, []) := rfl

theorem readHeader_ok {cb : Option SkipCallbackT} {src : Bytes}
    (h : (readHeader src cb).1.err = none) : ∃ q, HdrAccepted cb src q := by
  have hread : (readFull src lz4MinHeaderSz).1.2 = none := by
    rcases hr : readFull src lz4MinHeaderSz with ⟨⟨b, _ | e⟩, rest⟩
    · rfl
    · simp only [readHeader, hr] at h
      cases h
  obtain ⟨hres, hlen, hsplit⟩ := readFull_ok hread
  set q := src.take lz4MinHeaderSz with hq
  have heq : readHeader src cb = readHeaderRest cb q (src.drop lz4MinHeaderSz) := by
    simp only [readHeader, hres]
  -- a skip frame is never without an error, so this is a frame
  have hmagic : q.take 4 = lz4FrameMagic := by
    by_contra hne
    rw [heq, readHeaderRest, if_pos hne] at h
    exact maybeSkipFrame_err _ _ _ h
  set hdr : HeaderT := ⟨0, 0, 0, ⟨q.getD 4 0⟩, ⟨q.getD 5 0⟩⟩ with hhdr
  have hsane : sanityCheck hdr = none := by
    rcases hs : sanityCheck hdr with _ | e
    · rfl
    · rw [heq] at h
      simp only [readHeaderRest, hmagic, ne_eq, not_true_eq_false, if_false, ← hhdr, hs] at h
      cases h
  have hrest : ∀ s, readHeaderRest cb q s = readContentSz hdr q s := by
    intro s
    simp only [readHeaderRest, hmagic, ne_eq, not_true_eq_false, if_false, ← hhdr, hsane]
  rw [heq, hrest] at h
  obtain ⟨q₂, hq₂⟩ := readContentSz_ok h
  refine ⟨q ++ q₂, ⟨?_, fun t => ?_, fun p hp hne hnil => ?_, ?_, ?_, ?_⟩⟩
  · rw [heq, hrest, List.append_assoc, ← hq₂.split]
    exact hsplit
  · have happ := (readFull_exact hlen).append (q₂ ++ t)
    have happ₂ := hq₂.exact.append t
    rw [heq, hrest, List.append_assoc]
    simp only [readHeader, happ, hrest, happ₂]
  · -- a proper beginning ends in the first seven bytes or in the fields
    rcases Reads.prefix_append_cases hp with ⟨hpre, hne'⟩ | ⟨p', rfl, hpre⟩
    · have hlt : p.length < lz4MinHeaderSz := by
        have hle := hpre.length_le
        rcases Nat.lt_or_ge p.length lz4MinHeaderSz with hlt | hge
        · exact hlt
        · exact absurd (hpre.eq_of_length (by omega)) hne'
      simp only [readHeader, readFull_of_gt hlt, if_neg hnil]
      exact ⟨_, rfl, .join (by decide) (.inr rfl)⟩
    · have happ := (readFull_exact hlen).append p'
      simp only [readHeader, happ, hrest]
      exact hq₂.exact.short p' hpre (fun h => hne (by rw [h]))
  · rw [List.length_append, hlen]
    exact Nat.le_add_right _ _
  · rw [heq, hrest, hq₂.nRead, List.length_append]
    push_cast
    ring
  · rw [heq, hrest, hq₂.sz, List.length_append]

end Plz4
