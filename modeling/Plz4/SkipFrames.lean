/-
Skip frames before a frame header or the end of the stream, and the callback they go to.

A skip callback is a closure: what it does may depend on the calls before. Here it has a
state that each call takes and leaves, so what a run of `_readHeader` does to that state says
which calls it makes, in which order and with which arguments.
-/
import Plz4.Frames

set_option autoImplicit false

namespace Plz4

open LittleEndian

/-! ## Callbacks with a state -/

/-- `SkipCallbackT`, with the state it closes over. -/
abbrev SkipCallbackS (σ : Type) := σ → Bytes → UInt8 → UInt32 → SkipRes × σ

namespace SkipCallbackS

variable {σ : Type}

/-- The callback as it is in one state. -/
def now (f : SkipCallbackS σ) (st : σ) : SkipCallbackT :=
  fun src nibble sz => (f st src nibble sz).1

/-- A callback that does not look at its state. -/
def pure (f : SkipCallbackT) : SkipCallbackS σ := fun st src nibble sz => (f src nibble sz, st)

/-- It consumes the announced bytes, whatever its state, and reports no error. -/
def Consumes (cb : Option (SkipCallbackS σ)) : Prop :=
  ∀ f, cb = some f → ∀ (st : σ) (src : Bytes) (nibble : UInt8) (sz : UInt32),
    sz.toNat ≤ src.length → (f st src nibble sz).1 = ⟨sz.toNat, sz.toNat, none⟩

theorem Consumes.skipOk {cb : Option (SkipCallbackS σ)} (h : Consumes cb) (st : σ) :
    SkipOk (cb.map (fun f => f.now st)) := by
  intro g hg src nibble sz hle
  obtain ⟨f, hf, rfl⟩ := Option.map_eq_some_iff.mp hg
  exact h f hf st src nibble sz hle

end SkipCallbackS

/-! ## Where `ReadHeader` calls it -/

/-- What `ReadHeader` calls its callback with, if it comes to that: the unread source, the
nibble and the size. -/
def skipCall (src : Bytes) : Option (Bytes × UInt8 × UInt32) :=
  let ((hdrBytes, err), src) := readFull src lz4MinHeaderSz
  if err.isSome ∨ hdrBytes.take 4 = lz4FrameMagic then none
  else
    let m := getU32 (hdrBytes.take 4)
    if m >>> 4 ≠ skipMagic >>> 4 then none
    else
      let ((b, err), src) := readFull src 1
      if err.isSome then none
      else some (src, (m &&& 0xF).toUInt8, getU32 ((hdrBytes ++ b).drop 4))

/-- Where there is no call, the callback does not matter. -/
theorem readHeader_of_skipCall_none {src : Bytes} (h : skipCall src = none)
    (cb cb' : Option SkipCallbackT) : readHeader src cb = readHeader src cb' := by
  unfold skipCall at h
  unfold readHeader
  rcases hr : readFull src lz4MinHeaderSz with ⟨⟨b, _ | e⟩, rest⟩
  · rw [hr] at h
    simp only [Option.isSome_none, Bool.false_eq_true, false_or] at h
    simp only [readHeaderRest]
    by_cases hmagic : b.take 4 = lz4FrameMagic
    · rw [if_neg (not_not.mpr hmagic), if_neg (not_not.mpr hmagic)]
    · rw [if_neg hmagic] at h
      rw [if_pos hmagic, if_pos hmagic]
      simp only [maybeSkipFrame]
      by_cases hskip : getU32 (b.take 4) >>> 4 ≠ skipMagic >>> 4
      · rw [if_pos hskip, if_pos hskip]
      · rw [if_neg hskip] at h
        rw [if_neg hskip, if_neg hskip]
        rcases hone : readFull rest 1 with ⟨⟨b₁, _ | e⟩, rest₁⟩
        · rw [hone] at h
          cases h
        · rfl
  · rfl

/-- Where there is one, the result is what the callback makes of it. -/
theorem readHeader_of_skipCall_some {src rest : Bytes} {nibble : UInt8} {sz : UInt32}
    (h : skipCall src = some (rest, nibble, sz)) (f : SkipCallbackT) :
    readHeader src (some f)
      = (⟨8 + (f rest nibble sz).n, .zero,
          some ((f rest nibble sz).err.elim (.const .endMark) (.join (.const .errSkip)))⟩,
        rest.drop (f rest nibble sz).consumed) := by
  unfold skipCall at h
  unfold readHeader
  rcases hr : readFull src lz4MinHeaderSz with ⟨⟨b, _ | e⟩, rest₀⟩
  · have hseven : b.length = 7 := readFull_length hr
    rw [hr] at h
    simp only [Option.isSome_none, Bool.false_eq_true, false_or] at h
    by_cases hmagic : b.take 4 = lz4FrameMagic
    · rw [if_pos hmagic] at h
      cases h
    · rw [if_neg hmagic] at h
      by_cases hskip : getU32 (b.take 4) >>> 4 ≠ skipMagic >>> 4
      · rw [if_pos hskip] at h
        cases h
      · rw [if_neg hskip] at h
        rcases hone : readFull rest₀ 1 with ⟨⟨b₁, _ | e⟩, rest₁⟩
        · have hlast : b₁.length = 1 := readFull_length hone
          rw [hone] at h
          simp only [Option.isSome_none, Bool.false_eq_true, if_false, Option.some.injEq,
            Prod.mk.injEq] at h
          -- the callback gets the source behind the eight bytes
          obtain ⟨rfl, rfl, rfl⟩ := h
          simp only [readHeaderRest, if_pos hmagic, maybeSkipFrame, if_neg hskip, hone, skipBody]
          rcases (f rest₁ (getU32 (b.take 4) &&& 0xF).toUInt8 (getU32 ((b ++ b₁).drop 4))).err
            with _ | e <;> simp only [hseven, hlast, Option.elim, Prod.mk.injEq, HdrRes.mk.injEq,
              and_true] <;> omega
        · rw [hone] at h
          cases h
  · rw [hr] at h
    cases h

/-- On a skip frame the call has its nibble and its size, and sees its data first. -/
theorem skipCall_skipFrame (s : SkipFrame) (t : Bytes) :
    skipCall (s.bytes ++ t) = some (s.data ++ t, s.nibble, s.sz) := by
  obtain ⟨hshift, hnib, -⟩ := s.magic_spec
  obtain ⟨hdrBytes, b, -, -, hfirst, hone, hne, hget, hsz⟩ := s.reads t
  simp only [skipCall, hfirst, hget, hshift, hone, hsz, hnib, hne,
    Option.isSome_none, Bool.false_eq_true, ne_eq, not_true_eq_false, or_false, if_false]

/-! ## Reading with such a callback -/

variable {σ : Type}

/-- What `ReadHeader` leaves of the callback's state. -/
def afterCall (cb : Option (SkipCallbackS σ)) (st : σ) (src : Bytes) : σ :=
  match cb, skipCall src with
  | some f, some (rest, nibble, sz) => (f st rest nibble sz).2
  | _, _ => st

/-- `ReadHeader`. -/
def readHeaderS (cb : Option (SkipCallbackS σ)) (st : σ) (src : Bytes) : (HdrRes × Bytes) × σ :=
  (readHeader src (cb.map (fun f => f.now st)), afterCall cb st src)

/-- The loop of `_readHeader` over skip frames. -/
def readHeadersS (cb : Option (SkipCallbackS σ)) : ℕ → σ → Bytes → (HdrRes × Bytes) × σ
  | 0, st, src => readHeaderS cb st src
  | k + 1, st, src =>
      let ((h, src), st) := readHeaderS cb st src
      if h.err = some (.const .endMark) then
        let ((h', src), st) := readHeadersS cb k st src
        (({ h' with nRead := h.nRead + h'.nRead }, src), st)
      else ((h, src), st)

/-- `_readHeader` after its loop. -/
def openWith (seeks : Option SeekT) (o : OptsT) : HdrRes × Bytes → Opened
  | (h, src) =>
      match h.err with
      | some e => ⟨h.nRead, some e, h.hdr, o, src⟩
      | none =>
          let (err, o) := askDict o h.hdr
          match err with
          | some e => ⟨h.nRead, some e, h.hdr, o, src⟩
          | none =>
              let p := applyOffset seeks o h.nRead h.hdr src
              match p.err with
              | some _ => p
              | none => { p with opts := serialOpts (cacheContentSz p.opts p.hdr) p.hdr }

theorem openFrame_eq (seeks : Option SeekT) (o : OptsT) (src : Bytes) :
    openFrame seeks o src = openWith seeks o (readHeaders o.skipCallback (src.length + 1) src) := rfl

namespace Reader

variable {Z : Clz4}

/-- The end of `_readHeader`: the block reader is made. -/
def opened (S : Sched Z) (r : Reader) (p : Opened) : (ℤ × Option Err) × Reader :=
  let r := { r with opts := p.opts, src := p.src }
  match p.err with
  | some e => ((p.nRead, some e), r)
  | none => ((p.nRead, none), { r with blkReader := some (S.blkSession p.hdr p.opts p.src) })

theorem _readHeader_eq (S : Sched Z) (r : Reader) :
    r._readHeader S = r.opened S (openFrame r.seeks r.opts r.src) := rfl

/-- `_readHeader`. -/
def _readHeaderS (S : Sched Z) (cb : Option (SkipCallbackS σ)) (st : σ) (r : Reader) :
    ((ℤ × Option Err) × Reader) × σ :=
  let (h, st) := readHeadersS cb (r.src.length + 1) st r.src
  (r.opened S (openWith r.seeks r.opts h), st)

end Reader

/-! ## A callback without a state -/

theorem afterCall_pure (cb : Option SkipCallbackT) (st : σ) (src : Bytes) :
    afterCall (cb.map SkipCallbackS.pure) st src = st := by
  unfold afterCall
  rcases cb with _ | f <;> rcases skipCall src with _ | ⟨rest, nibble, sz⟩ <;> rfl

theorem readHeadersS_pure (cb : Option SkipCallbackT) (k : ℕ) (st : σ) (src : Bytes) :
    readHeadersS (cb.map SkipCallbackS.pure) k st src = (readHeaders cb k src, st) := by
  have hone : ∀ src, readHeaderS (cb.map SkipCallbackS.pure) st src = (readHeader src cb, st) := by
    intro src
    unfold readHeaderS
    rw [afterCall_pure, Option.map_map]
    rcases cb with _ | f <;> rfl
  induction k generalizing src with
  | zero => exact hone src
  | succ k ih =>
      rw [readHeadersS, hone src, readHeaders]
      simp only [ih]
      split_ifs <;> rfl

/-- On the callback of the options, which has no state, it is `_readHeader`. -/
theorem Reader._readHeaderS_pure {Z : Clz4} (S : Sched Z) (st : σ) (r : Reader) :
    r._readHeaderS S (r.opts.skipCallback.map SkipCallbackS.pure) st = (r._readHeader S, st) := by
  rw [Reader._readHeaderS, readHeadersS_pure, Reader._readHeader_eq, openFrame_eq]

/-! ## Skip frames leave no trace -/

/-- The bytes of the frames. -/
def skipBytes (fs : List SkipFrame) : Bytes := fs.flatMap SkipFrame.bytes

/-- Their number, headers included. -/
def skipSz (fs : List SkipFrame) : ℕ := (fs.map (fun s => 8 + s.sz.toNat)).sum

theorem length_skipBytes (fs : List SkipFrame) : (skipBytes fs).length = skipSz fs := by
  induction fs with
  | nil => rfl
  | cons s fs ih =>
      rw [skipBytes, List.flatMap_cons, List.length_append, skipSz, List.map_cons, List.sum_cons,
        s.length_bytes, s.toNat_sz]
      exact congrArg (fun n => 8 + s.data.length + n) ih

/-- One call for each frame, in order, with its nibble and its size, on the source as far as
it is unread. -/
def called (cb : Option (SkipCallbackS σ)) (t : Bytes) : List SkipFrame → σ → σ
  | [], st => st
  | s :: fs, st =>
      called cb t fs (cb.elim st (fun f => (f st (s.data ++ (skipBytes fs ++ t)) s.nibble s.sz).2))

theorem afterCall_skipFrame (cb : Option (SkipCallbackS σ)) (st : σ) (s : SkipFrame) (t : Bytes) :
    afterCall cb st (s.bytes ++ t)
      = cb.elim st (fun f => (f st (s.data ++ t) s.nibble s.sz).2) := by
  unfold afterCall
  rw [skipCall_skipFrame]
  rcases cb with _ | f <;> rfl

/-- More bytes have been read before. -/
def counted (m : ℤ) (x : (HdrRes × Bytes) × σ) : (HdrRes × Bytes) × σ :=
  (({ x.1.1 with nRead := m + x.1.1.nRead }, x.1.2), x.2)

theorem counted_counted (m n : ℤ) (x : (HdrRes × Bytes) × σ) :
    counted m (counted n x) = counted (m + n) x := by
  simp only [counted, Int.add_assoc]

theorem counted_zero (x : (HdrRes × Bytes) × σ) : counted 0 x = x := by
  simp only [counted, Int.zero_add]

/-- One pass of the loop. -/
theorem readHeadersS_succ (cb : Option (SkipCallbackS σ)) (k : ℕ) (st : σ) (src : Bytes)
    {h : HdrRes} {rest : Bytes} (hread : readHeader src (cb.map (fun f => f.now st)) = (h, rest)) :
    readHeadersS cb (k + 1) st src
      = if h.err = some (.const .endMark) then
          counted h.nRead (readHeadersS cb k (afterCall cb st src) rest)
        else ((h, rest), afterCall cb st src) := by
  rw [readHeadersS, readHeaderS, hread]
  rfl

/-- Passes beyond the bytes of the source do not matter. -/
theorem readHeadersS_congr (cb : Option (SkipCallbackS σ)) (k m : ℕ) (st : σ) (src : Bytes)
    (hk : src.length < k) (hm : src.length < m) :
    readHeadersS cb k st src = readHeadersS cb m st src := by
  induction k generalizing m st src with
  | zero => omega
  | succ k ih =>
      obtain ⟨m, rfl⟩ : ∃ m', m = m' + 1 := ⟨m - 1, by omega⟩
      rcases hread : readHeader src (cb.map (fun f => f.now st)) with ⟨h, rest⟩
      rw [readHeadersS_succ cb k st src hread, readHeadersS_succ cb m st src hread]
      split_ifs with he
      · -- a skip frame takes more than seven bytes
        have hmark : (readHeader src (cb.map (fun f => f.now st))).1.err
            = some (.const .endMark) := by
          rw [hread]
          exact he
        have hlen := readHeader_length (.inr hmark)
        have hle := readHeader_length_le src (cb.map (fun f => f.now st))
        have hseven : lz4MinHeaderSz = 7 := rfl
        rw [hread] at hle
        simp only at hle
        rw [ih m _ rest (by omega) (by omega)]
      · rfl

/-- One skip frame is passed over, with one call. -/
theorem readHeadersS_skipFrame {cb : Option (SkipCallbackS σ)} (hcb : SkipCallbackS.Consumes cb)
    (st : σ) (s : SkipFrame) (t : Bytes) :
    readHeadersS cb ((s.bytes ++ t).length + 1) st (s.bytes ++ t)
      = counted s.bytes.length (readHeadersS cb (t.length + 1)
          (cb.elim st (fun f => (f st (s.data ++ t) s.nibble s.sz).2)) t) := by
  have hlen := s.length_bytes
  have hread := readHeader_skipFrame (hcb.skipOk st) s t
  rw [readHeadersS_succ cb _ st _ hread, if_pos rfl, afterCall_skipFrame,
    readHeadersS_congr cb (s.bytes ++ t).length (t.length + 1) _ t
      (by rw [List.length_append]; omega) (by omega)]

/-- So is a sequence of them. -/
theorem readHeadersS_skipBytes {cb : Option (SkipCallbackS σ)} (hcb : SkipCallbackS.Consumes cb)
    (fs : List SkipFrame) (st : σ) (t : Bytes) :
    readHeadersS cb ((skipBytes fs ++ t).length + 1) st (skipBytes fs ++ t)
      = counted (skipSz fs) (readHeadersS cb (t.length + 1) (called cb t fs st) t) := by
  induction fs generalizing st with
  | nil => exact (counted_zero _).symm
  | cons s fs ih =>
      have hsplit : skipBytes (s :: fs) ++ t = s.bytes ++ (skipBytes fs ++ t) := by
        rw [skipBytes, List.flatMap_cons, List.append_assoc]
        rfl
      have hsz : (skipSz (s :: fs) : ℤ) = s.bytes.length + skipSz fs := by
        rw [s.length_bytes, ← s.toNat_sz, ← Nat.cast_add]
        rfl
      rw [hsplit, readHeadersS_skipFrame hcb, ih, counted_counted, called, hsz]

/-- At the end of the stream the loop is over, without a call. -/
theorem readHeadersS_nil (cb : Option (SkipCallbackS σ)) (k : ℕ) (st : σ) :
    readHeadersS cb (k + 1) st [] = ((⟨0, .zero, some .eof⟩, []), st) := by
  rcases cb with _ | f <;> rfl

/-- Before a header there is no call either. -/
theorem skipCall_header {t : Bytes} (h : (readHeader t none).1.err = none) : skipCall t = none := by
  rcases hcall : skipCall t with _ | ⟨rest, nibble, sz⟩
  · rfl
  · have hsome := readHeader_of_skipCall_some hcall (fun _ _ _ => ⟨0, 0, none⟩)
    rw [readHeader_cb _ h] at hsome
    rw [hsome] at h
    cases h

theorem readHeadersS_header {t : Bytes} {n : ℤ} {hdr : HeaderT} {rest : Bytes}
    (hread : readHeader t none = (⟨n, hdr, none⟩, rest)) (cb : Option (SkipCallbackS σ)) (k : ℕ)
    (st : σ) : readHeadersS cb (k + 1) st t = ((⟨n, hdr, none⟩, rest), st) := by
  have hstate : afterCall cb st t = st := by
    unfold afterCall
    rw [skipCall_header (by rw [hread])]
    rcases cb with _ | f <;> rfl
  have hread' := (readHeader_cb (cb.map (fun f => f.now st)) (by rw [hread])).trans hread
  rw [readHeadersS_succ cb k st t hread', hstate]
  rfl

theorem openWith_counted (seeks : Option SeekT) (o : OptsT) (m : ℤ) (h : HdrRes) (src : Bytes) :
    openWith seeks o ({ h with nRead := m + h.nRead }, src)
      = { openWith seeks o (h, src) with nRead := m + (openWith seeks o (h, src)).nRead } := by
  simp only [openWith, applyOffset_nRead]
  split
  · rfl
  · split
    · rfl
    · split <;> simp only [*]

theorem Reader.opened_counted {Z : Clz4} (S : Sched Z) (r : Reader) (m : ℤ) (p : Opened) :
    r.opened S { p with nRead := m + p.nRead }
      = ((m + (r.opened S p).1.1, (r.opened S p).1.2), (r.opened S p).2) := by
  unfold Reader.opened
  rcases p.err with _ | e <;> rfl

/-- **Skip frames are transparent.** However many of them stand before `t`, `_readHeader`
calls its callback once for each, in order, with its nibble and its size; it returns the
number of their bytes on top of what it returns on `t`, and does with the reader what it does
on `t` alone. At the end of the stream that is `io.EOF`; before a header it leaves what
follows the header, and the count is that of all the bytes up to there. -/
theorem skip_transparent {Z : Clz4} (S : Sched Z) (cb : Option (SkipCallbackS σ))
    (hcb : SkipCallbackS.Consumes cb) (fs : List SkipFrame) (t : Bytes) (r : Reader) (st : σ) :
    (∀ s ∈ fs, s.bytes.drop 8 = s.data ∧ s.data.length = s.sz.toNat
        ∧ ∀ plan calls, writeSkip plan calls s.nibble s.sz = wrWrite plan calls (s.bytes.take 8))
      ∧ (∀ (n : ℤ) (e : Option Err) (r' : Reader) (st' : σ),
          ({ r with src := t } : Reader)._readHeaderS S cb (called cb t fs st)
              = (((n, e), r'), st') →
            ({ r with src := skipBytes fs ++ t } : Reader)._readHeaderS S cb st
              = (((skipSz fs + n, e), r'), st'))
      ∧ (t = [] → ({ r with src := skipBytes fs ++ t } : Reader)._readHeaderS S cb st
          = ((((skipSz fs : ℤ), some Err.eof), { r with src := [] }), called cb t fs st))
      ∧ ∀ (n : ℤ) (hdr : HeaderT) (rest : Bytes), readHeader t none = (⟨n, hdr, none⟩, rest) →
        readHeadersS cb ((skipBytes fs ++ t).length + 1) st (skipBytes fs ++ t)
            = ((⟨skipSz fs + n, hdr, none⟩, rest), called cb t fs st)
          ∧ (skipBytes fs ++ t).length = skipSz fs + n + rest.length := by
  have hskip := readHeadersS_skipBytes hcb fs st t
  have hmain : ∀ (n : ℤ) (e : Option Err) (r' : Reader) (st' : σ),
      ({ r with src := t } : Reader)._readHeaderS S cb (called cb t fs st) = (((n, e), r'), st') →
      ({ r with src := skipBytes fs ++ t } : Reader)._readHeaderS S cb st
        = (((skipSz fs + n, e), r'), st') := by
    intro n e r' st' h
    unfold Reader._readHeaderS at h ⊢
    simp only [hskip] at h ⊢
    generalize readHeadersS cb (t.length + 1) (called cb t fs st) t = x at h ⊢
    obtain ⟨⟨hdr, rest⟩, st₁⟩ := x
    simp only [counted, openWith_counted, Reader.opened_counted, Prod.mk.injEq] at h ⊢
    -- the source the reader had does not matter to what is made of the header
    have hopen : ({ r with src := skipBytes fs ++ t } : Reader).opened S
        (openWith r.seeks r.opts (hdr, rest)) = ((n, e), r') := h.1
    rw [hopen]
    exact ⟨⟨⟨rfl, rfl⟩, rfl⟩, h.2⟩
  refine ⟨?_, hmain, ?_, ?_⟩
  · intro s _
    refine ⟨?_, s.toNat_sz.symm, fun plan calls => s.writeSkip_eq plan calls⟩
    exact List.drop_left' (by rw [List.length_append, length_putU32, length_putU32])
  · rintro rfl
    have hnil : ({ r with src := [] } : Reader)._readHeaderS S cb (called cb [] fs st)
        = (((0, some .eof), { r with src := [] }), called cb [] fs st) := by
      rw [Reader._readHeaderS, readHeadersS_nil]
      rfl
    rw [hmain _ _ _ _ hnil, Int.add_zero]
  · intro n hdr rest hread
    have hnone : (readHeader t none).1.err = none := by rw [hread]
    obtain ⟨q, hq⟩ := readHeader_ok hnone
    have hcount := hq.nRead
    have hlen := congrArg List.length hq.split
    rw [hread] at hcount hlen
    rw [List.length_append] at hlen
    rw [hskip, readHeadersS_header hread, List.length_append, length_skipBytes]
    refine ⟨rfl, ?_⟩
    simp only at hcount hlen
    omega

/-- A callback that keeps what it is called with. -/
def keepCalls : SkipCallbackS (List (UInt8 × UInt32)) :=
  fun st _ nibble sz => (⟨sz.toNat, sz.toNat, none⟩, st ++ [(nibble, sz)])

/-- Two frames, with two bytes and with one. -/
def twoSkips : List SkipFrame :=
  [⟨3, [1, 2], by decide, by decide⟩, ⟨15, [0], by decide, by decide⟩]

theorem skip_transparent_two :
    ∃ S : Sched litEngine,
      (newReader (skipBytes twoSkips ++ []) none .default)._readHeaderS S (some keepCalls) []
        = ((((19 : ℤ), some Err.eof), newReader [] none .default), [(3, 2), (15, 1)]) := by
  obtain ⟨S⟩ := Sched.nonempty litEngine
  have hconsumes : SkipCallbackS.Consumes (some keepCalls) := by
    rintro f ⟨⟩ st src nibble sz -
    rfl
  refine ⟨S, ?_⟩
  exact (skip_transparent S (some keepCalls) hconsumes twoSkips []
    (newReader [] none .default) []).2.2.1 rfl

end Plz4
