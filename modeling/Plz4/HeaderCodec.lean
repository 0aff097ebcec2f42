/-
The header codec is a bijection: what `ReadHeader` accepts is what `WriteHeader` writes
for the options found in the header, and nothing else is accepted.

Each optional field starts at the byte that would be the checksum without it, so the parse
is followed with that byte split off: `A ++ [x]`, where `A` is the part of the header
already given a meaning.
-/
import Plz4.HeaderSpec

set_option autoImplicit false

namespace Plz4

open LittleEndian Xxh32

/-! ## The bit fields -/

/-- A flag byte of this version without the reserved bit is made of its flags. -/
theorem Flags.rebuild {m : Flags} (hv : m.version = lz4FrameVers) (hr : m.reserved = false) :
    (let flags := (⟨0⟩ : Flags).setVersion lz4FrameVers
      let flags := if m.blockIndependence then flags.setBlockIndependence else flags
      let flags := if m.blockChecksum then flags.setBlockChecksum else flags
      let flags := if m.contentChecksum then flags.setContentChecksum else flags
      let flags := if m.contentSize then flags.setContentSize else flags
      if m.dictId then flags.setDictId else flags) = m := by
  obtain ⟨v⟩ := m
  obtain ⟨w, rfl⟩ : ∃ w : Fin 256, v = UInt8.ofNat w :=
    ⟨⟨v.toNat, v.toNat_lt⟩, UInt8.ofNat_toNat.symm⟩
  revert w
  decide +kernel

/-- A valid descriptor byte is made of its index. -/
theorem Block.setIdx_idx {m : Block} (h : m.valid = true) : Block.setIdx m.idx = m := by
  obtain ⟨v⟩ := m
  obtain ⟨w, rfl⟩ : ∃ w : Fin 256, v = UInt8.ofNat w :=
    ⟨⟨v.toNat, v.toNat_lt⟩, UInt8.ofNat_toNat.symm⟩
  revert w
  decide +kernel

/-! ## The options in a header -/

/-- The options of `WriteHeader` read back from a header. -/
def HeaderT.options (hdr : HeaderT) (h : hdr.blockDesc.idx.valid = true) : OptsT :=
  { OptsT.default with
    blockLinked := !hdr.flags.blockIndependence
    blockChecksum := hdr.flags.blockChecksum
    contentChecksum := hdr.flags.contentChecksum
    contentSz := if hdr.flags.contentSize then some hdr.contentSz else none
    dictionaryId := if hdr.flags.dictId then some hdr.dictId else none
    blockSizeIdx := hdr.blockDesc.idx
    idx_valid := h }

/-- The header says what the options say. -/
structure HeaderT.Matches (hdr : HeaderT) (o : OptsT) : Prop where
  version : hdr.flags.version = lz4FrameVers
  blockIndependence : hdr.flags.blockIndependence = !o.blockLinked
  blockChecksum : hdr.flags.blockChecksum = o.blockChecksum
  contentChecksum : hdr.flags.contentChecksum = o.contentChecksum
  contentSize : hdr.flags.contentSize = o.contentSz.isSome
  contentSz : hdr.contentSz = o.contentSz.getD 0
  hasDictId : hdr.flags.dictId = o.dictionaryId.isSome
  dictId : hdr.dictId = o.dictionaryId.getD 0
  blockSizeIdx : hdr.blockDesc.idx = o.blockSizeIdx

theorem headerOf_matches (o : OptsT) : (headerOf o).Matches o := by
  obtain ⟨hv, -, hindep, hbc, hcc, hcs, hid⟩ := headerFlags_spec o
  exact ⟨hv, hindep, hbc, hcc, hcs, rfl, hid, rfl, (Block.setIdx_spec o.idx_valid).2⟩

/-- The bytes depend on the options only through what the header says. -/
theorem HeaderT.Matches.headerBytes_eq {hdr : HeaderT} {o : OptsT} (h : hdr.Matches o)
    (hvalid : hdr.blockDesc.idx.valid = true) : headerBytes (hdr.options hvalid) = headerBytes o := by
  have hsz : (if hdr.flags.contentSize then some hdr.contentSz else none) = o.contentSz := by
    rw [h.contentSize, h.contentSz]
    rcases o.contentSz with _ | sz <;> rfl
  have hid : (if hdr.flags.dictId then some hdr.dictId else none) = o.dictionaryId := by
    rw [h.hasDictId, h.dictId]
    rcases o.dictionaryId with _ | id <;> rfl
  rw [headerBytes, headerBytes, headerFlags, headerFlags]
  simp only [HeaderT.options, hsz, hid, h.blockIndependence, Bool.not_not, h.blockChecksum,
    h.contentChecksum, h.blockSizeIdx]

/-! ## What an accepted header is made of -/

/-- The checksum byte of an accepted header is the one of its descriptor. -/
theorem checkHeaderHash_accepts {hdr : HeaderT} {A : Bytes} {x : UInt8}
    (h : (checkHeaderHash hdr (A ++ [x])).err = none) : x = descHash (A.drop 4) := by
  have hlast : (A ++ [x]).getD ((A ++ [x]).length - 1) 0 = x := by simp
  have hinit : (A ++ [x]).take ((A ++ [x]).length - 1) = A := by simp
  rw [checkHeaderHash, headerHash, hlast, hinit, ← descHash] at h
  by_contra hne
  rw [if_pos (fun heq => hne heq.symm)] at h
  cases h

/-- A field of `n` bytes starts with the byte that was the last one; the last of the `n` bytes
read for it takes its place. -/
theorem field_split {A src : Bytes} {x : UInt8} {n : ℕ} (hlen : (src.take n).length = n) :
    ∃ field y, field.length = n ∧ A ++ [x] ++ src.take n = A ++ field ++ [y]
      ∧ x :: src = field ++ (y :: src.drop n) := by
  obtain ⟨field, y, hfield⟩ : ∃ field y, x :: src.take n = field ++ [y] :=
    ⟨_, _, (List.dropLast_append_getLast (List.cons_ne_nil _ _)).symm⟩
  refine ⟨field, y, ?_, ?_, ?_⟩
  · have hsucc : (x :: src.take n).length = n + 1 := by rw [List.length_cons, hlen]
    rw [hfield, List.length_append] at hsucc
    exact Nat.succ_injective hsucc
  · rw [List.append_assoc, List.singleton_append, hfield, List.append_assoc]
  · have hall : x :: src = (x :: src.take n) ++ src.drop n := by
      rw [List.cons_append, List.take_append_drop]
    rw [hall, hfield, List.append_assoc, List.singleton_append]

theorem readDictId_accepts {hdr : HeaderT} {A src : Bytes} {x : UInt8}
    (h : (readDictId hdr (A ++ [x]) src).1.err = none) :
    ∃ id : Option UInt32, id.isSome = hdr.flags.dictId
      ∧ x :: src = id.elim [] putU32 ++ ([descHash ((A ++ id.elim [] putU32).drop 4)]
        ++ (readDictId hdr (A ++ [x]) src).2) := by
  by_cases hid : hdr.flags.dictId = true
  · have hread : (readFull src 4).1.2 = none := by
      rcases hr : readFull src 4 with ⟨⟨b, _ | e⟩, rest⟩
      · rfl
      · simp only [readDictId, hid, if_true, hr, reduceCtorEq] at h
    obtain ⟨hres, hlen, -⟩ := readFull_ok hread
    obtain ⟨field, y, hfour, hbytes, hcons⟩ := field_split (A := A) (x := x) hlen
    refine ⟨some (getU32 field), hid.symm, ?_⟩
    simp only [readDictId, hid, if_true, hres, hbytes] at h ⊢
    rw [Option.elim_some, putU32_getU32 hfour, ← checkHeaderHash_accepts h, hcons]
    rfl
  · have heq : readDictId hdr (A ++ [x]) src = (checkHeaderHash hdr (A ++ [x]), src) := by
      rw [readDictId, if_neg hid]
    rw [heq] at h ⊢
    refine ⟨none, (Bool.not_eq_true _ ▸ hid).symm, ?_⟩
    rw [Option.elim_none, List.append_nil, ← checkHeaderHash_accepts h]
    rfl

theorem readContentSz_accepts {hdr : HeaderT} {A src : Bytes} {x : UInt8}
    (h : (readContentSz hdr (A ++ [x]) src).1.err = none) :
    ∃ (sz : Option UInt64) (id : Option UInt32), sz.isSome = hdr.flags.contentSize
      ∧ id.isSome = hdr.flags.dictId
      ∧ x :: src = sz.elim [] putU64 ++ (id.elim [] putU32
        ++ ([descHash ((A ++ sz.elim [] putU64 ++ id.elim [] putU32).drop 4)]
        ++ (readContentSz hdr (A ++ [x]) src).2)) := by
  by_cases hsz : hdr.flags.contentSize = true
  · have hread : (readFull src 8).1.2 = none := by
      rcases hr : readFull src 8 with ⟨⟨b, _ | e⟩, rest⟩
      · rfl
      · simp only [readContentSz, hsz, if_true, hr, reduceCtorEq] at h
    obtain ⟨hres, hlen, -⟩ := readFull_ok hread
    obtain ⟨field, y, height, hbytes, hcons⟩ := field_split (A := A) (x := x) hlen
    simp only [readContentSz, hsz, if_true, hres, hbytes] at h ⊢
    obtain ⟨id, hid, hrest⟩ := readDictId_accepts h
    refine ⟨some (getU64 field), id, rfl, hid, ?_⟩
    rw [Option.elim_some, putU64_getU64 height, hcons, hrest]
  · have heq : readContentSz hdr (A ++ [x]) src = readDictId hdr (A ++ [x]) src := by
      rw [readContentSz, if_neg hsz]
    rw [heq] at h ⊢
    obtain ⟨id, hid, hrest⟩ := readDictId_accepts h
    refine ⟨none, id, (Bool.not_eq_true _ ▸ hsz).symm, hid, ?_⟩
    rw [Option.elim_none, List.append_nil, List.nil_append]
    exact hrest

/-- **An accepted header was written.** It is the one of some option set. -/
theorem readHeader_accepts {cb : Option SkipCallbackT} {src : Bytes}
    (h : (readHeader src cb).1.err = none) :
    ∃ o : OptsT, src = headerBytes o ++ (readHeader src cb).2 := by
  have hread : (readFull src lz4MinHeaderSz).1.2 = none := by
    rcases hr : readFull src lz4MinHeaderSz with ⟨⟨b, _ | e⟩, rest⟩
    · rfl
    · simp only [readHeader, hr, reduceCtorEq] at h
  obtain ⟨hres, hlen, hsplit⟩ := readFull_ok hread
  set q := src.take lz4MinHeaderSz with hq
  have hmagic : q.take 4 = lz4FrameMagic := by
    by_contra hne
    simp only [readHeader, hres, readHeaderRest, if_pos hne] at h
    exact maybeSkipFrame_err _ _ _ h
  -- the seven bytes: magic, flags, descriptor, and the first of what follows
  obtain ⟨f, d, x, hqx⟩ : ∃ f d x, q = lz4FrameMagic ++ [f, d] ++ [x] := by
    have hthree : (q.drop 4).length = 3 := by
      rw [List.length_drop, hlen]
      rfl
    obtain ⟨f, d, x, hfdx⟩ := List.length_eq_three.mp hthree
    exact ⟨f, d, x, by rw [← List.take_append_drop 4 q, hmagic, hfdx]; rfl⟩
  have hf : q.getD 4 0 = f := by
    rw [hqx]
    rfl
  have hd : q.getD 5 0 = d := by
    rw [hqx]
    rfl
  simp only [readHeader, hres, readHeaderRest, hmagic, ne_eq, not_true_eq_false, if_false, hf, hd]
    at h ⊢
  rcases hs : sanityCheck ⟨0, 0, 0, ⟨f⟩, ⟨d⟩⟩ with _ | e
  · simp only [hs] at h ⊢
    rw [hqx] at h ⊢
    obtain ⟨sz, id, hsz, hid, hrest⟩ := readContentSz_accepts h
    -- what the three checks leave
    obtain ⟨hv, hr, hvalid⟩ : (⟨f⟩ : Flags).version = lz4FrameVers ∧ (⟨f⟩ : Flags).reserved = false
        ∧ (⟨d⟩ : Block).valid = true := by
      rw [sanityCheck] at hs
      split_ifs at hs with hv hr hvalid
      exact ⟨not_not.mp hv, Bool.not_eq_true _ ▸ hr, by simpa using hvalid⟩
    have hflags := Flags.rebuild hv hr
    refine ⟨{ OptsT.default with
      blockLinked := !(⟨f⟩ : Flags).blockIndependence
      blockChecksum := (⟨f⟩ : Flags).blockChecksum
      contentChecksum := (⟨f⟩ : Flags).contentChecksum
      contentSz := sz
      dictionaryId := id
      blockSizeIdx := (⟨d⟩ : Block).idx
      idx_valid := Block.idx_valid hvalid }, ?_⟩
    rw [headerBytes_eq, headerDesc, headerFlags]
    simp only [Bool.not_not, hsz, hid, hflags, Block.setIdx_idx hvalid]
    have hdrop : (lz4FrameMagic ++ [f, d] ++ sz.elim [] putU64 ++ id.elim [] putU32).drop 4
        = [f, d] ++ sz.elim [] putU64 ++ id.elim [] putU32 := by
      simp only [List.append_assoc]
      rfl
    rw [hdrop] at hrest
    refine hsplit.trans ?_
    rw [hqx]
    simp only [List.append_assoc] at hrest ⊢
    rw [List.singleton_append, hrest]
  · simp only [hs, reduceCtorEq] at h

/-- The accepted header is the one the options give. -/
theorem readHeader_hdr {cb : Option SkipCallbackT} {src : Bytes}
    (h : (readHeader src cb).1.err = none) :
    ∃ o : OptsT, src = headerBytes o ++ (readHeader src cb).2
      ∧ (readHeader src cb).1.hdr = headerOf o := by
  obtain ⟨o, hsplit⟩ := readHeader_accepts h
  exact ⟨o, hsplit, by rw [hsplit, readHeader_headerBytes]⟩

/-- Each optional field has its own size. -/
theorem length_headerDesc (o : OptsT) :
    (headerDesc o).length = 2 + (if (headerFlags o).contentSize then 8 else 0)
      + (if (headerFlags o).dictId then 4 else 0) := by
  obtain ⟨-, -, -, -, -, hcs, hid⟩ := headerFlags_spec o
  rw [headerDesc, hcs, hid]
  rcases o.contentSz with _ | sz <;> rcases o.dictionaryId with _ | id <;> simp

theorem length_headerBytes (o : OptsT) :
    (headerBytes o).length = 7 + (if (headerFlags o).contentSize then 8 else 0)
      + (if (headerFlags o).dictId then 4 else 0) := by
  have hdesc := length_headerDesc o
  rw [headerBytes_eq, List.length_append, List.length_append, List.length_singleton]
  have hfour : lz4FrameMagic.length = 4 := rfl
  omega

/-! ## The bijection -/

/-- The bytes `WriteHeader` writes. -/
def writtenHeader (o : OptsT) : Bytes := accepted (writeHeader .ok [] o).2.2

theorem writtenHeader_eq (o : OptsT) : writtenHeader o = headerBytes o := by
  have hall : writtenHeader o = (headerBytes o).take (headerBytes o).length ++ [] := rfl
  rw [hall, List.take_length, List.append_nil]

/-- **The header codec is a bijection.** What is written for any options is read back whole,
whatever follows; what is accepted is what is written for the options in the header; anything
else is refused. -/
theorem header_codec (cb : Option SkipCallbackT) :
    (∀ (o : OptsT) (rest : Bytes),
      (readHeader (writtenHeader o ++ rest) cb).1.err = none
        ∧ (readHeader (writtenHeader o ++ rest) cb).2 = rest
        ∧ (readHeader (writtenHeader o ++ rest) cb).1.nRead = (writtenHeader o).length
        ∧ (readHeader (writtenHeader o ++ rest) cb).1.hdr.Matches o
        ∧ (readHeader (writtenHeader o ++ rest) cb).1.hdr.sz = (writtenHeader o).length)
    ∧ (∀ src, (readHeader src cb).1.err = none →
      ∃ hvalid : (readHeader src cb).1.hdr.blockDesc.idx.valid = true,
        src = writtenHeader ((readHeader src cb).1.hdr.options hvalid) ++ (readHeader src cb).2)
    ∧ (∀ src, (∀ o rest, src ≠ writtenHeader o ++ rest) → (readHeader src cb).1.err ≠ none) := by
  refine ⟨?_, ?_, ?_⟩
  · intro o rest
    rw [writtenHeader_eq, readHeader_headerBytes]
    exact ⟨rfl, rfl, rfl, headerOf_matches o, rfl⟩
  · intro src hok
    obtain ⟨o, hsplit, hhdr⟩ := readHeader_hdr hok
    have hmatch := headerOf_matches o
    rw [← hhdr] at hmatch
    refine ⟨hmatch.blockSizeIdx ▸ o.idx_valid, ?_⟩
    rw [writtenHeader_eq, hmatch.headerBytes_eq]
    exact hsplit
  · intro src hnot hok
    obtain ⟨o, hsplit⟩ := readHeader_accepts hok
    exact hnot o _ (writtenHeader_eq o ▸ hsplit)

end Plz4
