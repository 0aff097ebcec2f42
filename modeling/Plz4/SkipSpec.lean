/-
Skip frames: `ReadHeader` passes over one that `WriteSkip` began and `sz` bytes
complete, and a cut inside one is an error.
-/
import Plz4.HeaderSpec

set_option autoImplicit false

namespace Plz4

open LittleEndian

/-! ## Well-formed skip frames -/

/-- What `WriteSkip` writes, followed by exactly the announced number of bytes. -/
structure SkipFrame where
  nibble : UInt8
  data : Bytes
  nibble_le : nibble ≤ 0xF
  data_lt : data.length < 2 ^ 32

namespace SkipFrame

/-- The size field. -/
def sz (s : SkipFrame) : UInt32 := UInt32.ofNat s.data.length

/-- The bytes of the frame. -/
def bytes (s : SkipFrame) : Bytes :=
  putU32 (skipMagic ||| s.nibble.toUInt32) ++ putU32 s.sz ++ s.data

theorem toNat_sz (s : SkipFrame) : s.sz.toNat = s.data.length :=
  UInt32.toNat_ofNat_of_lt' s.data_lt

theorem length_bytes (s : SkipFrame) : s.bytes.length = 8 + s.data.length := by
  simp only [bytes, List.length_append, length_putU32]

/-- The first eight bytes are the ones `WriteSkip` passes to the destination. -/
theorem writeSkip_eq (s : SkipFrame) (plan : WrPlan) (calls : List WrCall) :
    writeSkip plan calls s.nibble s.sz = wrWrite plan calls (s.bytes.take 8) := by
  have hle : ¬ s.nibble > 0xF := UInt8.not_lt.mpr s.nibble_le
  have htake : s.bytes.take 8 = putU32 (skipMagic ||| s.nibble.toUInt32) ++ putU32 s.sz :=
    List.take_left' (by simp)
  rw [writeSkip, if_neg hle, htake]

/-- The magic and the nibble share a word without touching each other. -/
theorem magic_spec (s : SkipFrame) :
    (skipMagic ||| s.nibble.toUInt32) >>> 4 = skipMagic >>> 4
      ∧ ((skipMagic ||| s.nibble.toUInt32) &&& 0xF).toUInt8 = s.nibble
      ∧ putU32 (skipMagic ||| s.nibble.toUInt32) ≠ lz4FrameMagic := by
  have hle := s.nibble_le
  obtain ⟨w, hw⟩ : ∃ w : Fin 16, s.nibble = UInt8.ofNat w := by
    refine ⟨⟨s.nibble.toNat, ?_⟩, UInt8.ofNat_toNat.symm⟩
    have := UInt8.le_iff_toNat_le.mp hle
    exact Nat.lt_succ_of_le this
  rw [hw]
  clear hw
  revert w
  decide

end SkipFrame

/-- A word with the magic is made of it and a nibble. -/
theorem skipMagic_nibble {m : UInt32} (h : m >>> 4 = skipMagic >>> 4) :
    (m &&& 0xF).toUInt8 ≤ 0xF ∧ skipMagic ||| (m &&& 0xF).toUInt8.toUInt32 = m := by
  have hdiv := congrArg UInt32.toNat h
  rw [UInt32.toNat_shiftRight] at hdiv
  obtain ⟨w, rfl⟩ : ∃ w : Fin 16, m = UInt32.ofNat (skipMagic.toNat + w) := by
    refine ⟨⟨m.toNat % 16, Nat.mod_lt _ (by decide)⟩, ?_⟩
    have hsixteen : m.toNat / 16 = skipMagic.toNat / 16 := by
      simpa [Nat.shiftRight_eq_div_pow] using hdiv
    have hmagic : skipMagic.toNat = 16 * (skipMagic.toNat / 16) := by decide
    have hsum : skipMagic.toNat + m.toNat % 16 = m.toNat := by omega
    simp only [hsum, UInt32.ofNat_toNat]
  clear h hdiv
  revert w
  decide

/-- A callback that does what its documentation asks for: it consumes exactly the
announced bytes and reports no error. -/
def SkipOk (cb : Option SkipCallbackT) : Prop :=
  ∀ f, cb = some f → ∀ (src : Bytes) nibble (sz : UInt32), sz.toNat ≤ src.length →
    f src nibble sz = ⟨sz.toNat, sz.toNat, none⟩

theorem SkipOk.none : SkipOk none := fun _ h => by cases h

theorem skipBody_ok {cb : Option SkipCallbackT} (hcb : SkipOk cb) (data t : Bytes) (nibble : UInt8)
    {sz : UInt32} (h : data.length = sz.toNat) :
    skipBody (data ++ t) cb nibble sz = (((data.length : ℤ), none), t) := by
  rcases cb with _ | f
  · have happ := (copyN_exact h).append t
    simp only [skipBody, happ, h]
  · have hf := hcb f rfl (data ++ t) nibble sz (by rw [List.length_append]; omega)
    simp only [skipBody, hf, ← h, List.drop_left]

/-- The two reads that take the eight bytes before the data of a skip frame, and what they
find there. -/
theorem SkipFrame.reads (s : SkipFrame) (t : Bytes) :
    ∃ hdrBytes b : Bytes, hdrBytes.length = lz4MinHeaderSz ∧ b.length = 1
      ∧ readFull (s.bytes ++ t) lz4MinHeaderSz = ((hdrBytes, none), b ++ (s.data ++ t))
      ∧ readFull (b ++ (s.data ++ t)) 1 = ((b, none), s.data ++ t)
      ∧ hdrBytes.take 4 ≠ lz4FrameMagic
      ∧ getU32 (hdrBytes.take 4) = skipMagic ||| s.nibble.toUInt32
      ∧ getU32 ((hdrBytes ++ b).drop 4) = s.sz := by
  obtain ⟨-, -, hne⟩ := s.magic_spec
  set magic := putU32 (skipMagic ||| s.nibble.toUInt32) with hmagic
  obtain ⟨z0, z1, z2, z3, hz⟩ : ∃ z0 z1 z2 z3, putU32 s.sz = [z0, z1, z2, z3] :=
    ⟨_, _, _, _, rfl⟩
  have hlen : magic.length = 4 := length_putU32 _
  have hfirst : (magic ++ [z0, z1, z2]).length = lz4MinHeaderSz := by
    rw [List.length_append, hlen]
    rfl
  -- the first read stops one byte short of the size
  have hsplit : s.bytes ++ t = (magic ++ [z0, z1, z2]) ++ ([z3] ++ (s.data ++ t)) := by
    rw [SkipFrame.bytes, ← hmagic, hz]
    simp only [List.append_assoc, List.cons_append, List.nil_append]
  have htake : (magic ++ [z0, z1, z2]).take 4 = magic := List.take_left' hlen
  have hdrop : (magic ++ [z0, z1, z2] ++ [z3]).drop 4 = putU32 s.sz := by
    rw [List.append_assoc, List.drop_left' hlen, hz]
    rfl
  refine ⟨magic ++ [z0, z1, z2], [z3], hfirst, rfl, ?_, readFull_append _ rfl, ?_, ?_, ?_⟩
  · rw [hsplit]
    exact readFull_append _ hfirst
  · rw [htake]
    exact hne
  · rw [htake]
    exact getU32_putU32 _
  · rw [hdrop]
    exact getU32_putU32 _

/-- **Skip frames are passed over.** A well-formed skip frame gives the end mark and
the count of its bytes, and leaves what follows. -/
theorem readHeader_skipFrame {cb : Option SkipCallbackT} (hcb : SkipOk cb) (s : SkipFrame)
    (t : Bytes) :
    readHeader (s.bytes ++ t) cb
      = (⟨s.bytes.length, .zero, some (.const .endMark)⟩, t) := by
  obtain ⟨hshift, hnib, -⟩ := s.magic_spec
  obtain ⟨hdrBytes, b, hseven, hb, hfirst, hone, hne, hget, hsz⟩ := s.reads t
  have hbody := skipBody_ok hcb s.data t s.nibble s.toNat_sz.symm
  simp only [readHeader, hfirst, readHeaderRest, ne_eq, hne, not_false_eq_true,
    if_true, maybeSkipFrame, hget, hshift, not_true_eq_false, if_false, hone, hsz, hnib, hbody]
  rw [hseven, hb, s.length_bytes]
  have hmin : lz4MinHeaderSz = 7 := rfl
  rw [hmin]
  simp only [Prod.mk.injEq, HdrRes.mk.injEq, and_true]
  push_cast
  ring

/-! ## What is passed over -/

/-- An error of the header itself: it ends neither the stream nor a frame. -/
def OfHeader (e : Err) : Prop := e ≠ .eof ∧ e ≠ .const .endMark

theorem sanityCheck_ofHeader {hdr : HeaderT} {e : Err} (h : sanityCheck hdr = some e) :
    OfHeader e := by
  simp only [sanityCheck, wrapCorrupted] at h
  split_ifs at h <;> exact Option.some.inj h ▸ ⟨by rintro ⟨⟩, by rintro ⟨⟩⟩

theorem checkHeaderHash_ofHeader {hdr : HeaderT} {hdrBytes : Bytes} {e : Err}
    (h : (checkHeaderHash hdr hdrBytes).err = some e) : OfHeader e := by
  simp only [checkHeaderHash, wrapCorrupted] at h
  split_ifs at h
  exact Option.some.inj h ▸ ⟨by rintro ⟨⟩, by rintro ⟨⟩⟩

theorem readDictId_ofHeader {hdr : HeaderT} {hdrBytes src : Bytes} {e : Err}
    (h : (readDictId hdr hdrBytes src).1.err = some e) : OfHeader e := by
  simp only [readDictId] at h
  split_ifs at h
  · split at h
    · exact Option.some.inj h ▸ ⟨by rintro ⟨⟩, by rintro ⟨⟩⟩
    · exact checkHeaderHash_ofHeader h
  · exact checkHeaderHash_ofHeader h

theorem readContentSz_ofHeader {hdr : HeaderT} {hdrBytes src : Bytes} {e : Err}
    (h : (readContentSz hdr hdrBytes src).1.err = some e) : OfHeader e := by
  simp only [readContentSz] at h
  split_ifs at h
  · split at h
    · exact Option.some.inj h ▸ ⟨by rintro ⟨⟩, by rintro ⟨⟩⟩
    · exact readDictId_ofHeader h
  · exact readDictId_ofHeader h

/-- The parts of an accepted skip frame: seven bytes, the last of the size, the data. -/
structure SkipParts (src q q₁ q₂ rest : Bytes) : Prop where
  split : src = q ++ (q₁ ++ (q₂ ++ rest))
  first : q.length = lz4MinHeaderSz
  last : q₁.length = 1
  data : q₂.length = (getU32 ((q ++ q₁).drop 4)).toNat
  notMagic : q.take 4 ≠ lz4FrameMagic
  skip : getU32 (q.take 4) >>> 4 = skipMagic >>> 4

theorem readHeader_skip_parts {src : Bytes}
    (h : (readHeader src none).1.err = some (.const .endMark)) :
    ∃ q q₁ q₂ rest, SkipParts src q q₁ q₂ rest := by
  have hread : (readFull src lz4MinHeaderSz).1.2 = none := by
    rcases hr : readFull src lz4MinHeaderSz with ⟨⟨b, _ | e⟩, rest⟩
    · rfl
    · simp only [readHeader, hr, Option.some.injEq] at h
      split_ifs at h
  obtain ⟨hres, hlen, hsplit⟩ := readFull_ok hread
  set q := src.take lz4MinHeaderSz with hq
  have heq : readHeader src none = readHeaderRest none q (src.drop lz4MinHeaderSz) := by
    simp only [readHeader, hres]
  -- a frame header never gives the end mark
  have hmagic : q.take 4 ≠ lz4FrameMagic := by
    intro hmag
    rw [heq] at h
    simp only [readHeaderRest, hmag, ne_eq, not_true_eq_false, if_false] at h
    split at h
    · rename_i e he
      simp only at h
      exact (sanityCheck_ofHeader (he.trans h)).2 rfl
    · exact (readContentSz_ofHeader h).2 rfl
  set m := getU32 (q.take 4) with hm
  have hskip : ¬ m >>> 4 ≠ skipMagic >>> 4 := by
    intro hne
    rw [heq] at h
    simp only [readHeaderRest, if_pos hmagic, maybeSkipFrame, ← hm, if_pos hne, wrapCorrupted,
      Option.some.injEq, reduceCtorEq] at h
  set src₁ := (src.drop lz4MinHeaderSz) with hsrc₁
  have hone : (readFull src₁ 1).1.2 = none := by
    rcases hr : readFull src₁ 1 with ⟨⟨b, _ | e⟩, rest⟩
    · rfl
    · rw [heq] at h
      simp only [readHeaderRest, if_pos hmagic, maybeSkipFrame, ← hm, if_neg hskip, hr,
        Option.some.injEq, reduceCtorEq] at h
  obtain ⟨hres₁, hlen₁, hsplit₁⟩ := readFull_ok hone
  set q₁ := src₁.take 1 with hq₁
  set src₂ := (src₁.drop 1) with hsrc₂
  set bsz := getU32 ((q ++ q₁).drop 4) with hbsz
  -- without a callback the data is copied away, and a short copy is an error
  have hle : bsz.toNat ≤ src₂.length := by
    by_contra hgt
    have hshort : copyN src₂ bsz.toNat = ((src₂.length, some .eof), []) := by
      rw [copyN, if_neg hgt]
    rw [heq] at h
    simp only [readHeaderRest, if_pos hmagic, maybeSkipFrame, ← hm, if_neg hskip, hres₁, ← hbsz,
      skipBody, hshort, Option.some.injEq, reduceCtorEq] at h
  refine ⟨q, q₁, src₂.take bsz.toNat, src₂.drop bsz.toNat, ⟨?_, hlen, hlen₁, ?_, hmagic,
    not_not.mp hskip⟩⟩
  · rw [List.take_append_drop, ← hsplit₁]
    exact hsplit
  · rw [List.length_take, Nat.min_eq_left hle]

/-- **Only well-formed skip frames are passed over.** -/
theorem readHeader_skip_frame {src : Bytes}
    (h : (readHeader src none).1.err = some (.const .endMark)) :
    ∃ (s : SkipFrame) (rest : Bytes), src = s.bytes ++ rest := by
  obtain ⟨q, q₁, q₂, rest, hp⟩ := readHeader_skip_parts h
  have hseven : q.length = 7 := hp.first
  have hlast := hp.last
  have hdata := hp.data
  set m := getU32 (q.take 4) with hm
  set bsz := getU32 ((q ++ q₁).drop 4) with hbsz
  have hword : putU32 m = q.take 4 := putU32_getU32 (by rw [List.length_take]; omega)
  have hsize : putU32 bsz = (q ++ q₁).drop 4 := by
    apply putU32_getU32
    rw [List.length_drop, List.length_append]
    omega
  have hnib : (m &&& 0xF).toUInt8 ≤ 0xF ∧ skipMagic ||| (m &&& 0xF).toUInt8.toUInt32 = m :=
    skipMagic_nibble hp.skip
  have hsz : UInt32.ofNat q₂.length = bsz := by
    rw [hdata, UInt32.ofNat_toNat]
  refine ⟨⟨(m &&& 0xF).toUInt8, q₂, hnib.1, hdata ▸ bsz.toNat_lt⟩, rest, ?_⟩
  have hjoin : q.take 4 ++ (q ++ q₁).drop 4 = q ++ q₁ := by
    have htake : q.take 4 = (q ++ q₁).take 4 := by
      rw [List.take_append_of_le_length (by omega)]
    rw [htake, List.take_append_drop]
  simp only [SkipFrame.bytes, SkipFrame.sz]
  rw [hnib.2, hsz, hword, hsize, hjoin, List.append_assoc, List.append_assoc]
  exact hp.split

/-- An accepted skip frame: the bytes it is made of, and how the same parse does on
any other continuation and on the proper prefixes. -/
structure SkipAccepted (src q : Bytes) : Prop where
  split : src = q ++ (readHeader src none).2
  append : ∀ t, readHeader (q ++ t) none = ((readHeader src none).1, t)
  short : ∀ p, p <+: q → p ≠ q → p ≠ [] → p.length ≠ lz4MinHeaderSz → (readHeader p none).1.Short
  seven : ∀ p, p <+: q → p.length = lz4MinHeaderSz →
    (readHeader p none).1.err = some (.join1 (.const .errHeaderRead))
  length : lz4MinHeaderSz ≤ q.length

theorem readHeader_skip_ok {src : Bytes}
    (h : (readHeader src none).1.err = some (.const .endMark)) : ∃ q, SkipAccepted src q := by
  obtain ⟨q, q₁, q₂, rest, hparts⟩ := readHeader_skip_parts h
  have hsrc := hparts.split
  have hlen := hparts.first
  have hlen₁ := hparts.last
  have hlen₂ := hparts.data
  have hmagic := hparts.notMagic
  have hskip : ¬ getU32 (q.take 4) >>> 4 ≠ skipMagic >>> 4 := not_not.mpr hparts.skip
  set m := getU32 (q.take 4) with hm
  set bsz := getU32 ((q ++ q₁).drop 4) with hbsz
  -- the body of the frame, and what the parse makes of it on any continuation
  have hall : ∀ t, readHeader (q ++ (q₁ ++ (q₂ ++ t))) none
      = (⟨q.length + (q₁.length + bsz.toNat), .zero, some (.const .endMark)⟩, t) := by
    intro t
    have happ := (readFull_exact hlen).append (q₁ ++ (q₂ ++ t))
    have happ₁ := (readFull_exact hlen₁).append (q₂ ++ t)
    have happ₂ := (copyN_exact hlen₂).append t
    simp only [readHeader, happ, readHeaderRest, if_pos hmagic, maybeSkipFrame, ← hm, if_neg hskip,
      happ₁, ← hbsz, skipBody, happ₂]
  have hval := hall rest
  rw [← hsrc] at hval
  refine ⟨q ++ (q₁ ++ q₂), ⟨?_, fun t => ?_, fun p hp hne hnil hseven => ?_, fun p hp hseven => ?_,
    ?_⟩⟩
  · rw [hval]
    simpa only [List.append_assoc] using hsrc
  · rw [hval, List.append_assoc, List.append_assoc]
    exact hall t
  · rcases Reads.prefix_append_cases hp with ⟨hpre, hne'⟩ | ⟨p', rfl, hpre⟩
    · have hlt : p.length < lz4MinHeaderSz := by
        have hle := hpre.length_le
        rcases Nat.lt_or_ge p.length lz4MinHeaderSz with hlt | hge
        · exact hlt
        · exact absurd (hpre.eq_of_length (by omega)) hne'
      simp only [readHeader, readFull_of_gt hlt, if_neg hnil]
      exact ⟨_, rfl, .join (by decide) (.inr rfl)⟩
    · have happ := (readFull_exact hlen).append p'
      rcases Reads.prefix_append_cases hpre with ⟨hpre₁, hne₁⟩ | ⟨p'', rfl, hpre₂⟩
      · -- the eighth byte is missing
        have hle := hpre₁.length_le
        have hnil' : p' = [] := by
          by_contra hne'
          have hpos := List.length_pos_iff.mpr hne'
          exact hne₁ (hpre₁.eq_of_length (by omega))
        rw [hnil', List.append_nil] at hseven
        exact absurd hlen hseven
      · have happ₁ := (readFull_exact hlen₁).append p''
        have hshort := (copyN_exact hlen₂).short p'' hpre₂ (fun h => hne (by rw [h]))
        rcases hr : copyN p'' bsz.toNat with ⟨⟨n, r⟩, rest⟩
        rw [hr] at hshort
        simp only at hshort
        subst hshort
        simp only [readHeader, happ, readHeaderRest, if_pos hmagic, maybeSkipFrame, ← hm,
          if_neg hskip, happ₁, ← hbsz, skipBody, hr]
        exact ⟨_, rfl, .join (by decide) (.inl rfl)⟩
  · -- seven bytes: the eighth is missing, and the error without its cause
    have hq : p = q := by
      have hpre : q <+: q ++ (q₁ ++ q₂) := List.prefix_append _ _
      exact (List.prefix_of_prefix_length_le hp hpre (by omega)).eq_of_length (by omega)
    have happ := (readFull_exact hlen).append []
    rw [List.append_nil] at happ
    have hnone : readFull [] 1 = (([], some .eof), []) := rfl
    simp only [hq, readHeader, happ, readHeaderRest, if_pos hmagic, maybeSkipFrame, ← hm,
      if_neg hskip, hnone]
  · rw [List.length_append, hlen]
    exact Nat.le_add_right _ _

end Plz4
