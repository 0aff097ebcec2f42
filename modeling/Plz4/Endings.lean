/-
How a Reader ends: which error a cut stream gives, and what a nil error of `WriteTo` means.

Both rest on one fact each. A cut falls into one read, and the read names its context; a
bare `io.EOF` is taken for the end of the stream, wherever it comes from.
-/
import Plz4.Integrity

set_option autoImplicit false

namespace Plz4

variable {Z : Clz4} {seeks : Option SeekT} {o o' : OptsT}

/-! ## Short reads -/

/-- **Short reads are classified**, unless the cut is behind the seventh byte of a skip
frame. Every stream that is decoded is made of frames and skip frames, so the cuts between
its frames are known. -/
theorem newReader_classified_iff (S S' : Sched Z) (seeks : Option SeekT) (hplain : o.Plain)
    {src bs : Bytes} (hdec : (newReader src seeks o).Delivers S bs .eof) :
    (∃ is, src = streamBytes is) ∧
      ∀ is, src = streamBytes is → ∀ p, p <+: src → (∀ k, p ≠ streamBytes (is.take k)) →
        ((∃ bs' e, (newReader p seeks o).Delivers S' bs' e ∧ e.Classified)
          ↔ ¬ CutAtSeven is p) := by
  rw [newReader_delivers_iff] at hdec
  refine ⟨?_, ?_⟩
  · obtain ⟨is, his, -⟩ := decodeStream_clean hplain hdec
    exact ⟨is, his⟩
  · rintro is rfl p hp hne
    obtain ⟨e, he, -, hclass⟩ := decodeStream_cut hplain hdec hp hne 0
    rw [← hclass]
    constructor
    · rintro ⟨bs', e', he', hc⟩
      -- there is one error
      rw [newReader_delivers_iff, he, Prod.mk.injEq] at he'
      rw [he'.2]
      exact hc
    · intro hc
      exact ⟨_, e, (newReader_delivers_iff _ _ _ _ _ _).mpr he, hc⟩

/-- A frame that loses its last byte. -/
theorem newReader_classified_one_block : ∃ (S : Sched litEngine) (bs : Bytes) (e : Err),
    (newReader Lz4Frame.lit.bytes.dropLast none .sync64KB).Delivers S bs e ∧ e.Classified := by
  obtain ⟨S⟩ := Sched.nonempty litEngine
  have hdec : (newReader (streamBytes [.frame .lit]) none .sync64KB).Delivers S [7] .eof :=
    (newReader_delivers_iff _ _ _ _ _ _).mpr (by decide +kernel)
  have hcut := (newReader_classified_iff S S none ⟨rfl, rfl, rfl⟩ hdec).2 [.frame .lit] rfl
    Lz4Frame.lit.bytes.dropLast (List.dropLast_prefix _)
  refine ⟨S, (hcut ?_).mpr ?_⟩
  · intro k hk
    have hk' := congrArg List.length hk
    cases k with
    | zero => cases hk'
    | succ k => cases hk'
  · rintro ⟨k, s, hget, -⟩
    cases k with
    | zero => cases hget
    | succ k => cases hget

/-- An empty skip frame that loses its last byte: the error says that a header was read, not
that the stream ended. -/
theorem newReader_unclassified : ∃ (S : Sched litEngine) (s : SkipFrame) (p : Bytes) (e : Err),
    (newReader (streamBytes [.skip s]) none .sync64KB).Delivers S [] .eof
      ∧ p <+: streamBytes [.skip s] ∧ (∀ k, p ≠ streamBytes ([.skip s].take k))
      ∧ (newReader p none .sync64KB).Delivers S [] e ∧ ¬ e.Classified := by
  obtain ⟨S⟩ := Sched.nonempty litEngine
  refine ⟨S, ⟨0, [], by decide, by decide⟩, [0x50, 0x2A, 0x4D, 0x18, 0, 0, 0],
    .join1 (.const .errHeaderRead), ?_, ?_, ?_, ?_, Err.short_join1.2⟩
  · rw [newReader_delivers_iff]
    decide +kernel
  · exact ⟨[0], by decide +kernel⟩
  · intro k hk
    have hk' := congrArg List.length hk
    cases k with
    | zero => cases hk'
    | succ k => cases hk'
  · rw [newReader_delivers_iff]
    decide +kernel

/-! ## The end of the stream between frames -/

/-- The stream ends where a header is expected, behind skip frames at most. -/
inductive EndsAtHeader (cb : Option SkipCallbackT) : Bytes → Prop
  | here : EndsAtHeader cb []
  | skip {src : Bytes} : (readHeader src cb).1.err = some (.const .endMark) →
      EndsAtHeader cb (readHeader src cb).2 → EndsAtHeader cb src

/-- The first header behind the skip frames is `hdr`, with `rest` after it. -/
def OpensWith (cb : Option SkipCallbackT) (src : Bytes) (hdr : HeaderT) (rest : Bytes) : Prop :=
  ∃ n, readHeaders cb (src.length + 1) src = (⟨n, hdr, none⟩, rest)

/-- Passing over `n` bytes gives a bare `io.EOF`: the discard goes beyond the end of the source,
or `Seek` returns it. -/
def SkipEOF (seeks : Option SeekT) (src : Bytes) (n : ℕ) : Prop :=
  match seeks with
  | none => src.length < n
  | some seek => ∃ e, seek src n = some e ∧ e.1 = .eof

/-- The offset is to be skipped, and that gives a bare `io.EOF`. -/
structure OffsetEOF (seeks : Option SeekT) (o : OptsT) (hdr : HeaderT) (src : Bytes) : Prop where
  set : o.readOffset ≠ 0
  behind : (hdr.sz : ℤ) < o.readOffset
  independent : hdr.flags.blockIndependence = true
  eof : SkipEOF seeks src (o.readOffset - hdr.sz).toNat

/-- The reader passes from `src` with the options `o` over whole frames to `src'` with `o'`. -/
inductive Passes (Z : Clz4) (seeks : Option SeekT) : OptsT → Bytes → OptsT → Bytes → Prop
  | refl (o : OptsT) (src : Bytes) : Passes Z seeks o src o src
  | frame {o o' : OptsT} {src src' : Bytes} {p : Opened} {t : Session} :
      openFrame seeks o src = p → p.err = none → frameSession Z p.hdr p.opts p.src = t →
      t.endErr = .const .endMark → sizeErr p.opts (UInt64.ofNat t.bytes.length) = none →
      Passes Z seeks p.opts t.rest o' src' → Passes Z seeks o src o' src'

/-- The stream ends between frames. -/
def EndsBetween (Z : Clz4) (seeks : Option SeekT) (o : OptsT) (src : Bytes) : Prop :=
  ∃ o' src', Passes Z seeks o src o' src' ∧ EndsAtHeader o'.skipCallback src'

/-- A frame that the reader comes to is not opened, and the error is a bare `io.EOF`: that of
the dictionary callback, or that of the skip of the offset. -/
def BareEOF (Z : Clz4) (seeks : Option SeekT) (o : OptsT) (src : Bytes) : Prop :=
  ∃ o' src' hdr rest, Passes Z seeks o src o' src' ∧ OpensWith o'.skipCallback src' hdr rest
    ∧ ((askDict o' hdr).1 = some .eof
      ∨ (askDict o' hdr).1 = none ∧ OffsetEOF seeks o' hdr rest)

/-- The loop over the skip frames reports `io.EOF` at the end of the stream only. -/
theorem readHeaders_eof_iff (cb : Option SkipCallbackT) {k : ℕ} (src : Bytes)
    (hk : src.length < k) : (readHeaders cb k src).1.err = some .eof ↔ EndsAtHeader cb src := by
  induction k generalizing src with
  | zero => omega
  | succ k ih =>
      by_cases hmark : (readHeader src cb).1.err = some (.const .endMark)
      · have hlen := readHeader_length (.inr hmark)
        have hle := readHeader_length_le src cb
        have hseven : lz4MinHeaderSz = 7 := rfl
        have hrest := ih (readHeader src cb).2 (by omega)
        simp only [readHeaders, if_pos hmark, hrest]
        constructor
        · exact .skip hmark
        · intro h
          cases h with
          | here => cases hmark
          | skip _ h => exact h
      · rw [readHeaders_of_header hmark]
        constructor
        · intro h
          rw [readHeader_eof h]
          exact .here
        · intro h
          cases h with
          | here => rfl
          | skip h => exact absurd h hmark

theorem skipOffset_eof_iff (src : Bytes) (n : ℕ) :
    (skipOffset seeks src n).1.2 = some .eof ↔ SkipEOF seeks src n := by
  rcases seeks with _ | seek
  · simp only [skipOffset, copyN, SkipEOF]
    by_cases hle : n ≤ src.length
    · rw [if_pos hle]
      exact iff_of_false (by rintro ⟨⟩) (Nat.not_lt.mpr hle)
    · rw [if_neg hle]
      exact iff_of_true rfl (Nat.lt_of_not_le hle)
  · simp only [skipOffset, SkipEOF]
    rcases seek src n with _ | e
    · exact iff_of_false (by rintro ⟨⟩) (by rintro ⟨_, ⟨⟩, -⟩)
    · constructor
      · intro h
        exact ⟨e, rfl, Option.some.inj h⟩
      · rintro ⟨_, ⟨⟩, h⟩
        exact congrArg some h

/-- The switch on the offset reports `io.EOF` exactly if the skip does. -/
theorem applyOffset_eof_iff (n : ℤ) (hdr : HeaderT) (src : Bytes) :
    (applyOffset seeks o n hdr src).err = some .eof ↔ OffsetEOF seeks o hdr src := by
  rw [applyOffset]
  by_cases hnoop : o.readOffset = 0 ∨ o.readOffset = hdr.sz
  · rw [if_pos hnoop]
    refine iff_of_false (by rintro ⟨⟩) ?_
    intro h
    rcases hnoop with h0 | hsz
    · exact h.set h0
    · exact absurd hsz (ne_of_gt h.behind)
  by_cases hin : o.readOffset < hdr.sz
  · rw [if_neg hnoop, if_pos hin]
    exact iff_of_false (by rintro ⟨⟩) fun h => absurd h.behind (not_lt.mpr (le_of_lt hin))
  by_cases hind : hdr.flags.blockIndependence = true
  · have hiff : OffsetEOF seeks o hdr src ↔ SkipEOF seeks src (o.readOffset - hdr.sz).toNat :=
      ⟨OffsetEOF.eof, fun h => ⟨by omega, by omega, hind, h⟩⟩
    rw [if_neg hnoop, if_neg hin, if_neg (by rw [hind]; decide), hiff, ← skipOffset_eof_iff]
    rcases skipOffset seeks src (o.readOffset - hdr.sz).toNat with ⟨⟨m, _ | e⟩, rest⟩
    · exact iff_of_false (by rintro ⟨⟩) (by rintro ⟨⟩)
    · exact Iff.rfl
  · rw [if_neg hnoop, if_neg hin, if_pos (by simpa using hind)]
    exact iff_of_false (by rintro ⟨⟩) fun h => hind h.independent

/-- **Where a bare `io.EOF` comes from** when a frame is opened. -/
theorem openFrame_eof_iff (src : Bytes) :
    (openFrame seeks o src).err = some .eof ↔ EndsAtHeader o.skipCallback src ∨
      ∃ hdr rest, OpensWith o.skipCallback src hdr rest ∧ ((askDict o hdr).1 = some .eof
        ∨ (askDict o hdr).1 = none ∧ OffsetEOF seeks o hdr rest) := by
  have hends := readHeaders_eof_iff o.skipCallback src (Nat.lt_succ_self src.length)
  rcases hread : readHeaders o.skipCallback (src.length + 1) src with ⟨⟨n, hdr, _ | e⟩, rest⟩
  · -- a header: the end is not here
    have hnot : ¬ EndsAtHeader o.skipCallback src := by
      rw [← hends, hread]
      rintro ⟨⟩
    have hopens : ∀ hdr' rest', OpensWith o.skipCallback src hdr' rest'
        ↔ hdr' = hdr ∧ rest' = rest := by
      intro hdr' rest'
      rw [OpensWith, hread]
      constructor
      · rintro ⟨m, hm⟩
        simp only [Prod.mk.injEq, HdrRes.mk.injEq] at hm
        exact ⟨hm.1.2.1.symm, hm.2.symm⟩
      · rintro ⟨rfl, rfl⟩
        exact ⟨n, rfl⟩
    simp only [hnot, false_or, hopens]
    have hoff := (askDict_fields o hdr).1
    have hshoot : OffsetEOF seeks (askDict o hdr).2 hdr rest ↔ OffsetEOF seeks o hdr rest := by
      constructor <;> rintro ⟨h1, h2, h3, h4⟩
      · rw [hoff] at h1 h2 h4
        exact ⟨h1, h2, h3, h4⟩
      · exact ⟨hoff ▸ h1, hoff ▸ h2, h3, hoff ▸ h4⟩
    have happly : (applyOffset seeks (askDict o hdr).2 n hdr rest).err = some .eof
        ↔ OffsetEOF seeks o hdr rest := (applyOffset_eof_iff n hdr rest).trans hshoot
    have hopen : (openFrame seeks o src).err = some .eof
        ↔ (askDict o hdr).1 = some .eof
          ∨ (askDict o hdr).1 = none
            ∧ (applyOffset seeks (askDict o hdr).2 n hdr rest).err = some .eof := by
      simp only [openFrame, hread]
      rcases hd : askDict o hdr with ⟨_ | e, o₁⟩
      · simp only [reduceCtorEq, false_or, true_and]
        rcases happ : (applyOffset seeks o₁ n hdr rest).err with _ | e
        · simp only
        · simp only [happ]
      · simp only [reduceCtorEq, false_and, or_false]
    rw [hopen, happly]
    constructor
    · intro h
      exact ⟨hdr, rest, ⟨rfl, rfl⟩, h⟩
    · rintro ⟨_, _, ⟨rfl, rfl⟩, h⟩
      exact h
  · -- no header: the callbacks are not asked, and the offset is not applied
    have hopen : (openFrame seeks o src).err = some e := by
      simp only [openFrame, hread]
    rw [hread] at hends
    rw [hopen, hends]
    constructor
    · exact .inl
    · rintro (h | ⟨hdr', rest', ⟨m, hm⟩, -⟩)
      · exact h
      · rw [hread] at hm
        simp only [Prod.mk.injEq, HdrRes.mk.injEq, reduceCtorEq, and_false, false_and] at hm

/-- A stream ends cleanly exactly if the frame after the last whole one is refused with a bare
`io.EOF`. -/
theorem decodeStream_eof_iff (src : Bytes) :
    (decodeStream Z seeks o src).2 = .eof ↔
      ∃ o' src', Passes Z seeks o src o' src' ∧ (openFrame seeks o' src').err = some .eof := by
  constructor
  · intro heof
    induction hn : src.length using Nat.strongRecOn generalizing src o with
    | ind n ih =>
        rcases herr : (openFrame seeks o src).err with _ | e
        · have hdec : decodeStream Z seeks o src = ((decodeStream Z seeks o src).1, .eof) :=
            Prod.ext rfl heof
          obtain ⟨hend, hsz, bs', hrest, -⟩ := decodeStream_eof rfl herr rfl hdec
          have hlen := openFrame_length herr
          have hseven : lz4MinHeaderSz = 7 := rfl
          have hle := frameSession_rest_length (Z := Z) (openFrame seeks o src).hdr
            (openFrame seeks o src).opts (openFrame seeks o src).src
          obtain ⟨o', src', hpass, hbare⟩ :=
            ih _ (by omega) _ (congrArg Prod.snd hrest) rfl
          exact ⟨o', src', .frame rfl herr rfl hend hsz hpass, hbare⟩
        · rw [decodeStream_error herr] at heof
          exact ⟨o, src, .refl o src, herr.trans (congrArg some heof)⟩
  · rintro ⟨o', src', hpass, hbare⟩
    induction hpass with
    | refl o src => rw [decodeStream_error hbare]
    | frame hp herr ht hend hsz _ ih =>
        rw [decodeStream_next hp herr ht hend hsz]
        exact ih hbare

/-- The reader comes to one place only where it cannot go on. -/
theorem Passes.unique {o₁ o₂ : OptsT} {src src₁ src₂ : Bytes} (h₁ : Passes Z seeks o src o₁ src₁)
    (h₂ : Passes Z seeks o src o₂ src₂) (hstop₁ : (openFrame seeks o₁ src₁).err ≠ none)
    (hstop₂ : (openFrame seeks o₂ src₂).err ≠ none) : o₁ = o₂ ∧ src₁ = src₂ := by
  induction h₁ with
  | refl o src =>
      cases h₂ with
      | refl => exact ⟨rfl, rfl⟩
      | frame hp herr => exact absurd (hp ▸ herr) hstop₁
  | frame hp herr ht _ _ _ ih =>
      cases h₂ with
      | refl => exact absurd (hp ▸ herr) hstop₂
      | frame hp' _ ht' _ _ h₂ =>
          subst hp ht hp' ht'
          exact ih h₂ hstop₁

/-- A stream ends between frames, or there is another reason for the bare `io.EOF`. -/
theorem decodeStream_eof_cases (src : Bytes) : (decodeStream Z seeks o src).2 = .eof ↔
    EndsBetween Z seeks o src ∨ BareEOF Z seeks o src := by
  rw [decodeStream_eof_iff]
  constructor
  · rintro ⟨o', src', hpass, hbare⟩
    rcases (openFrame_eof_iff src').mp hbare with h | ⟨hdr, rest, h⟩
    · exact .inl ⟨o', src', hpass, h⟩
    · exact .inr ⟨o', src', hdr, rest, hpass, h⟩
  · rintro (⟨o', src', hpass, h⟩ | ⟨o', src', hdr, rest, hpass, h⟩)
    · exact ⟨o', src', hpass, (openFrame_eof_iff src').mpr (.inl h)⟩
    · exact ⟨o', src', hpass, (openFrame_eof_iff src').mpr (.inr ⟨hdr, rest, h⟩)⟩

theorem EndsBetween.not_bareEOF {src : Bytes} (h : EndsBetween Z seeks o src) :
    ¬ BareEOF Z seeks o src := by
  obtain ⟨o₁, src₁, hpass₁, hends⟩ := h
  rintro ⟨o₂, src₂, hdr, rest, hpass₂, hopens, hbare⟩
  have hstop₁ : (openFrame seeks o₁ src₁).err = some .eof :=
    (openFrame_eof_iff src₁).mpr (.inl hends)
  have hstop₂ : (openFrame seeks o₂ src₂).err = some .eof :=
    (openFrame_eof_iff src₂).mpr (.inr ⟨hdr, rest, hopens, hbare⟩)
  obtain ⟨rfl, rfl⟩ := hpass₁.unique hpass₂ (by rw [hstop₁]; rintro ⟨⟩) (by rw [hstop₂]; rintro ⟨⟩)
  -- there is a header, so the stream does not end here
  rw [← readHeaders_eof_iff o₁.skipCallback src₁ (Nat.lt_succ_self _)] at hends
  obtain ⟨n, hn⟩ := hopens
  rw [hn] at hends
  cases hends

/-- **A nil error of `WriteTo`** means that the stream ended between frames, exactly if no
frame that the reader comes to is refused with a bare `io.EOF`. -/
theorem writeTo_nil_iff (S : Sched Z) (src : Bytes) (seeks : Option SeekT) (o : OptsT) :
    (∀ ns plan, (∀ i k e, plan i = some (k, e) → e ≠ .const .endMark) →
        ((newReader src seeks o).readAll S ns).1.2 = none →
        (((newReader src seeks o).readAll S ns).2.writeTo S plan).1.1.2 = none →
        EndsBetween Z seeks o src)
      ↔ ¬ BareEOF Z seeks o src := by
  constructor
  · intro hnil hbare
    have heof := (decodeStream_eof_cases src).mpr (.inr hbare)
    have hwrite := (newReader_delivers S src seeks o).writeTo.1
    rw [heof] at hwrite
    exact (hnil [] .ok (by rintro _ _ _ ⟨⟩) rfl (congrArg Prod.snd hwrite)).not_bareEOF hbare
  · intro hbare ns plan hplan hnone hnil
    have hend := (Reader.ReachesEnd.writeTo ns plan hplan hnone hnil).future
      (Reader.newReader_ok src seeks o)
    exact ((decodeStream_eof_cases src).mp (congrArg Prod.snd hend)).resolve_right hbare

/-- An offset of a hundred bytes into a frame of fewer, which is discarded: nothing is
written, and there is no error. -/
theorem writeTo_nil_beyond : ∃ (S : Sched litEngine) (o : OptsT),
    ((newReader Lz4Frame.lit.bytes none o).writeTo S .ok).1.1 = (0, none)
      ∧ ¬ EndsBetween litEngine none o Lz4Frame.lit.bytes := by
  obtain ⟨S⟩ := Sched.nonempty litEngine
  refine ⟨S, { OptsT.sync64KB with readOffset := 100 }, ?_, ?_⟩
  · have hdec : (newReader Lz4Frame.lit.bytes none
        { OptsT.sync64KB with readOffset := 100 }).Delivers S [] .eof :=
      (newReader_delivers_iff _ _ _ _ _ _).mpr (by decide +kernel)
    exact hdec.writeTo.1
  · intro hends
    refine hends.not_bareEOF ⟨_, _, Lz4Frame.lit.hdr, Lz4Frame.lit.body, .refl _ _, ?_, .inr ?_⟩
    · exact ⟨7, by decide +kernel⟩
    · exact ⟨rfl, by decide, by decide +kernel, by decide +kernel,
        show _ < (_ : ℕ) by decide +kernel⟩

/-! ## Seeking and discarding -/

/-- Both readers deliver the same bytes, and both come to a clean end or neither does. -/
def Agree (S S' : Sched Z) (r r' : Reader) : Prop :=
  ∃ bs e e', r.Delivers S bs e ∧ r'.Delivers S' bs e' ∧ (e = .eof ↔ e' = .eof)

/-- The discard of the offset in the next frame goes beyond the end of the source. -/
def ShootsNext (o : OptsT) (src : Bytes) : Prop :=
  ∃ hdr rest, OpensWith o.skipCallback src hdr rest ∧ (askDict o hdr).1 = none
    ∧ OffsetEOF none o hdr rest

/-- An offset up to the end is sought or discarded alike. -/
theorem applyOffset_seeks {hdr : HeaderT} {src : Bytes} (h : ¬ OffsetEOF none o hdr src)
    (n : ℤ) : applyOffset (some seekOk) o n hdr src = applyOffset none o n hdr src := by
  by_cases hnoop : o.readOffset = 0 ∨ o.readOffset = hdr.sz
  · rw [applyOffset, applyOffset, if_pos hnoop, if_pos hnoop]
  by_cases hin : o.readOffset < hdr.sz
  · rw [applyOffset, applyOffset, if_neg hnoop, if_neg hnoop, if_pos hin, if_pos hin]
  by_cases hind : hdr.flags.blockIndependence = true
  · have hle : (o.readOffset - hdr.sz).toNat ≤ src.length := by
      by_contra hgt
      exact h ⟨by omega, by omega, hind, Nat.lt_of_not_le hgt⟩
    have hskip : skipOffset (some seekOk) src (o.readOffset - hdr.sz).toNat
        = skipOffset none src (o.readOffset - hdr.sz).toNat := by
      simp only [skipOffset, seekOk, copyN, if_pos hle]
    rw [applyOffset, applyOffset, hskip]
  · have hlinked : (!hdr.flags.blockIndependence) = true := by simpa using hind
    rw [applyOffset, applyOffset, if_neg hnoop, if_neg hnoop, if_neg hin, if_neg hin,
      if_pos hlinked, if_pos hlinked]

theorem openFrame_seeks {src : Bytes} (h : ¬ ShootsNext o src) :
    openFrame (some seekOk) o src = openFrame none o src := by
  simp only [openFrame]
  rcases hread : readHeaders o.skipCallback (src.length + 1) src with ⟨⟨n, hdr, _ | e⟩, rest⟩
  · simp only
    rcases hask : askDict o hdr with ⟨_ | e, o₁⟩
    · have hoff : o₁.readOffset = o.readOffset := by
        have hfields := (askDict_fields o hdr).1
        rw [hask] at hfields
        exact hfields
      have hnot : ¬ OffsetEOF none o₁ hdr rest := by
        rintro ⟨h1, h2, h3, h4⟩
        rw [hoff] at h1 h2 h4
        exact h ⟨hdr, rest, ⟨n, hread⟩, by rw [hask], h1, h2, h3, h4⟩
      simp only [applyOffset_seeks hnot]
    · rfl
  · rfl

/-- There is no frame body in an empty source. -/
theorem frameSession_nil (hdr : HeaderT) (o : OptsT) :
    (frameSession Z hdr o []).blks = [] ∧ (frameSession Z hdr o []).endErr ≠ .const .endMark
      ∧ (frameSession Z hdr o []).endErr ≠ .eof := by
  have hread : (readerFrame hdr).read []
      = ((.error (.join (.const .errBlockSizeRead) .eof), readerFrame hdr), []) := by
    rw [FrameReader.read, FrameReader._read, readFull_of_gt (by decide : List.length [] < 4)]
    rfl
  have herr : (frameSession Z hdr o []).endErr = .join (.const .errBlockSizeRead) .eof := by
    rw [frameSession, parseFrames_error hread]
    exact sessionOf_endErr [] (by rintro ⟨⟩)
  refine ⟨?_, by rw [herr]; rintro ⟨⟩, by rw [herr]; rintro ⟨⟩⟩
  rw [frameSession, parseFrames_error hread]
  exact sessionOf_blks []

/-- Behind an offset beyond the end, the discard reports `io.EOF` at once, and a seek lets the
first read of a block fail. -/
theorem decodeStream_shoots {src : Bytes} (h : ShootsNext o src) :
    decodeStream Z none o src = ([], .eof) ∧
      ∃ e, decodeStream Z (some seekOk) o src = ([], e) ∧ e ≠ .eof := by
  obtain ⟨hdr, rest, hopens, hask, hshoot⟩ := h
  refine ⟨decodeStream_error ((openFrame_eof_iff src).mpr
    (.inr ⟨hdr, rest, hopens, .inr ⟨hask, hshoot⟩⟩)), ?_⟩
  obtain ⟨n, hread⟩ := hopens
  have hoff := (askDict_fields o hdr).1
  rcases hd : askDict o hdr with ⟨err, o₁⟩
  rw [hd] at hask hoff
  simp only at hask hoff
  subst hask
  have hnoop : ¬ (o₁.readOffset = 0 ∨ o₁.readOffset = hdr.sz) := by
    have hset := hshoot.set
    have hbehind := hshoot.behind
    omega
  have hin : ¬ o₁.readOffset < hdr.sz := by
    have hbehind := hshoot.behind
    omega
  have hlinked : ¬ (!hdr.flags.blockIndependence) = true := by
    rw [hshoot.independent]
    decide
  have hdrop : rest.drop (o₁.readOffset - hdr.sz).toNat = [] := by
    have hshort : rest.length < _ := hshoot.eof
    exact List.drop_of_length_le (by omega)
  -- a seek beyond the end succeeds, and nothing is there
  have happly : ∃ m, applyOffset (some seekOk) o₁ n hdr rest
      = ⟨m, none, { hdr with flags := hdr.flags.clrContentChecksum },
        { o₁ with readOffset := 0, skipContentSz := true }, []⟩ := by
    refine ⟨n + (o₁.readOffset - hdr.sz).toNat, ?_⟩
    simp only [applyOffset, if_neg hnoop, if_neg hin, if_neg hlinked, skipOffset, seekOk, hdrop]
  obtain ⟨m, hm⟩ := happly
  have hok : (openFrame (some seekOk) o src).err = none
      ∧ (openFrame (some seekOk) o src).src = [] := by
    simp only [openFrame, hread, hd, hm, true_and]
  obtain ⟨hblks, hmark, heof⟩ := frameSession_nil (Z := Z) (openFrame (some seekOk) o src).hdr
    (openFrame (some seekOk) o src).opts
  have hdec := decodeStream_opened (Z := Z) hok.1 (Session.Same.refl _)
  rw [hok.2, Session.bytes, hblks, frameTail, if_neg hmark] at hdec
  exact ⟨_, hdec, heof⟩

/-- The reader comes to a frame of which it discards more than there is. -/
def Shoots (Z : Clz4) (o : OptsT) (src : Bytes) : Prop :=
  ∃ o' src', Passes Z none o src o' src' ∧ ShootsNext o' src'

/-- Behind a frame that is opened, only the frames after it count. -/
theorem shoots_iff {src : Bytes} {p : Opened} {t : Session} (hnext : ¬ ShootsNext o src)
    (hp : openFrame none o src = p) (ht : frameSession Z p.hdr p.opts p.src = t) :
    Shoots Z o src ↔ p.err = none ∧ t.endErr = .const .endMark
      ∧ sizeErr p.opts (UInt64.ofNat t.bytes.length) = none ∧ Shoots Z p.opts t.rest := by
  constructor
  · rintro ⟨o', src', hpass, hshoot⟩
    cases hpass with
    | refl => exact absurd hshoot hnext
    | frame hp' herr ht' hend hsz hpass =>
        rw [hp] at hp'
        subst hp'
        rw [ht] at ht'
        subst ht'
        exact ⟨herr, hend, hsz, o', src', hpass, hshoot⟩
  · rintro ⟨herr, hend, hsz, o', src', hpass, hshoot⟩
    exact ⟨o', src', .frame hp herr ht hend hsz hpass, hshoot⟩

/-- The frames that both ways of skipping pass over. -/
theorem decodeStream_seeks (src : Bytes) :
    (decodeStream Z (some seekOk) o src).1 = (decodeStream Z none o src).1 ∧
      (((decodeStream Z (some seekOk) o src).2 = .eof ↔ (decodeStream Z none o src).2 = .eof)
        ↔ ¬ Shoots Z o src) := by
  induction hn : src.length using Nat.strongRecOn generalizing src o with
  | ind n ih =>
      by_cases hnext : ShootsNext o src
      · obtain ⟨hdiscard, e, hseek, hne⟩ := decodeStream_shoots (Z := Z) hnext
        rw [hdiscard, hseek]
        refine ⟨rfl, iff_of_false ?_ ?_⟩
        · intro h
          exact hne (h.mpr rfl)
        · exact not_not.mpr ⟨o, src, .refl o src, hnext⟩
      -- the frame is opened alike
      obtain ⟨p, hp⟩ : ∃ p, openFrame none o src = p := ⟨_, rfl⟩
      have hp' : openFrame (some seekOk) o src = p := (openFrame_seeks hnext).trans hp
      obtain ⟨t, ht⟩ : ∃ t, frameSession Z p.hdr p.opts p.src = t := ⟨_, rfl⟩
      rw [shoots_iff hnext hp ht]
      rcases herr : p.err with _ | e
      · have hlen := openFrame_length (hp ▸ herr)
        have hle := frameSession_rest_length (Z := Z) p.hdr p.opts p.src
        have hseven : lz4MinHeaderSz = 7 := rfl
        rw [hp] at hlen
        rw [ht] at hle
        by_cases hgood : t.endErr = .const .endMark
            ∧ sizeErr p.opts (UInt64.ofNat t.bytes.length) = none
        · obtain ⟨hend, hsz⟩ := hgood
          obtain ⟨hbytes, hiff⟩ := ih t.rest.length (by omega) (o := p.opts) t.rest rfl
          rw [decodeStream_next hp' herr ht hend hsz, decodeStream_next hp herr ht hend hsz]
          refine ⟨congrArg (t.bytes ++ ·) hbytes, hiff.trans (not_congr ?_)⟩
          simp only [hend, hsz, true_and]
        · have hsame : decodeStream Z (some seekOk) o src = decodeStream Z none o src := by
            have hseek : t.Same (frameSession Z (openFrame (some seekOk) o src).hdr
                (openFrame (some seekOk) o src).opts (openFrame (some seekOk) o src).src) := by
              rw [hp', ht]
              exact Session.Same.refl t
            have hdiscard : t.Same (frameSession Z (openFrame none o src).hdr
                (openFrame none o src).opts (openFrame none o src).src) := by
              rw [hp, ht]
              exact Session.Same.refl t
            rw [decodeStream_opened (hp' ▸ herr) hseek, decodeStream_opened (hp ▸ herr) hdiscard,
              hp, hp', frameTail, frameTail]
            by_cases hend : t.endErr = .const .endMark
            · rw [if_pos hend, if_pos hend]
              rcases hsz : sizeErr p.opts (UInt64.ofNat t.bytes.length) with _ | e
              · exact absurd ⟨hend, hsz⟩ hgood
              · rfl
            · rw [if_neg hend, if_neg hend]
          rw [hsame]
          refine ⟨rfl, iff_of_true Iff.rfl ?_⟩
          rintro ⟨-, hend, hsz, -⟩
          exact hgood ⟨hend, hsz⟩
      · rw [decodeStream_error (e := e) (hp' ▸ herr), decodeStream_error (e := e) (hp ▸ herr)]
        refine ⟨rfl, iff_of_true Iff.rfl ?_⟩
        rintro ⟨⟨⟩, -⟩

/-- **Seek and discard agree** exactly if no frame that the reader comes to has an offset to
skip that goes beyond the end of the source. -/
theorem seek_discard_iff (S S' : Sched Z) (src : Bytes) (o : OptsT) :
    Agree S S' (newReader src (some seekOk) o) (newReader src none o)
      ↔ ¬ Shoots Z o src := by
  obtain ⟨hbytes, hiff⟩ := decodeStream_seeks (Z := Z) (o := o) src
  rw [← hiff]
  constructor
  · rintro ⟨bs, e, e', hseek, hdiscard, h⟩
    rw [newReader_delivers_iff] at hseek hdiscard
    rw [hseek, hdiscard]
    exact h
  · intro h
    refine ⟨_, _, _, newReader_delivers S src (some seekOk) o, ?_, h⟩
    rw [hbytes]
    exact newReader_delivers S' src none o

/-- The same offset of a hundred bytes, sought and discarded. -/
theorem seek_discard_beyond : ∃ (S : Sched litEngine) (o : OptsT),
    Lz4Frame.lit.hdr.flags.blockIndependence = true
      ∧ ((newReader Lz4Frame.lit.bytes (some seekOk) o).writeTo S .ok).1.1
        = (0, some (.join (.const .errBlockSizeRead) .eof))
      ∧ ((newReader Lz4Frame.lit.bytes none o).writeTo S .ok).1.1 = (0, none)
      ∧ ¬ Agree S S (newReader Lz4Frame.lit.bytes (some seekOk) o)
        (newReader Lz4Frame.lit.bytes none o) := by
  obtain ⟨S⟩ := Sched.nonempty litEngine
  have hseek : (newReader Lz4Frame.lit.bytes (some seekOk)
      { OptsT.sync64KB with readOffset := 100 }).Delivers S []
        (.join (.const .errBlockSizeRead) .eof) :=
    (newReader_delivers_iff _ _ _ _ _ _).mpr (by decide +kernel)
  have hdiscard : (newReader Lz4Frame.lit.bytes none
      { OptsT.sync64KB with readOffset := 100 }).Delivers S [] .eof :=
    (newReader_delivers_iff _ _ _ _ _ _).mpr (by decide +kernel)
  refine ⟨S, { OptsT.sync64KB with readOffset := 100 }, by decide +kernel, hseek.writeTo.1,
    hdiscard.writeTo.1, ?_⟩
  rintro ⟨bs, e, e', hs, hd, h⟩
  have he := (hs.unique hseek).2
  have he' := (hd.unique hdiscard).2
  rw [he, he'] at h
  exact absurd (h.mpr rfl) (by rintro ⟨⟩)

end Plz4
