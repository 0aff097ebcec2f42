/-
Concatenated frames: what one Reader makes of a stream of frames that each decode alone.

The frames before one leave two things to it, both in the shared options: the content
size and the dictionary. `FitsAfter` says when they do no harm.
-/
import Plz4.ReaderSpec
import Plz4.Frames

set_option autoImplicit false

namespace Plz4

variable {Z : Clz4} {seeks : Option SeekT} {o o' : OptsT}

/-! ## What frames leave behind -/

/-- The dictionary the callback supplies for a header. -/
def supplied (o : OptsT) (hdr : HeaderT) : Option Bytes :=
  if hdr.flags.dictId then
    o.dictCallback.bind fun cb =>
      match cb hdr.dictId with
      | .ok d => d
      | .error _ => none
  else none

/-- The content size in the options after some pieces. -/
def sizeAfter (o : OptsT) (pre : List Item) : Option UInt64 :=
  pre.foldl (fun acc i =>
    match i with
    | .frame f => if f.hdr.flags.contentSize then some f.hdr.contentSz else acc
    | .skip _ => acc) o.contentSz

/-- The dictionary in the options after some pieces. -/
def dictAfter (o : OptsT) (pre : List Item) : Option Bytes :=
  pre.foldl (fun acc i =>
    match i with
    | .frame f => (supplied o f.hdr).or acc
    | .skip _ => acc) o.dictionary

/-- The options `o'` are `o` after the pieces `pre`. -/
structure After (o : OptsT) (pre : List Item) (o' : OptsT) : Prop where
  readOffset : o'.readOffset = o.readOffset
  contentChecksum : o'.contentChecksum = o.contentChecksum
  skipContentSz : o'.skipContentSz = o.skipContentSz
  dictCallback : o'.dictCallback = o.dictCallback
  skipCallback : o'.skipCallback = o.skipCallback
  contentSz : o'.contentSz = sizeAfter o pre
  dictionary : o'.dictionary = dictAfter o pre

theorem After.nil (o : OptsT) : After o [] o := ⟨rfl, rfl, rfl, rfl, rfl, rfl, rfl⟩

theorem After.skip {pre : List Item} (h : After o pre o') (s : SkipFrame) :
    After o (pre ++ [.skip s]) o' := by
  refine ⟨h.readOffset, h.contentChecksum, h.skipContentSz, h.dictCallback, h.skipCallback, ?_, ?_⟩
  · rw [sizeAfter, List.foldl_append]
    exact h.contentSz
  · rw [dictAfter, List.foldl_append]
    exact h.dictionary

/-- The options `o'` once the callback of `o` is asked. -/
def asked (o o' : OptsT) (hdr : HeaderT) : OptsT :=
  { o' with dictionary := (supplied o hdr).or o'.dictionary }

/-- A callback that does not fail supplies the dictionary, or leaves the one there is. -/
theorem askDict_of_none {hdr : HeaderT} (hask : (askDict o hdr).1 = none) :
    askDict o hdr = (none, asked o o hdr) := by
  have hkeep : supplied o hdr = none → askDict o hdr = (none, o) →
      askDict o hdr = (none, asked o o hdr) := by
    intro hnone heq
    rw [heq, asked, hnone, Option.none_or]
  by_cases hid : hdr.flags.dictId = true
  · rcases hcb : o.dictCallback with _ | cb
    · refine hkeep ?_ ?_
      · rw [supplied, if_pos hid, hcb]
        rfl
      · rw [askDict, if_pos hid, hcb]
    · rcases hret : cb hdr.dictId with e | _ | d
      · rw [askDict, if_pos hid, hcb] at hask
        simp only [hret, reduceCtorEq] at hask
      · refine hkeep ?_ ?_
        · rw [supplied, if_pos hid, hcb, Option.bind_some, hret]
        · rw [askDict, if_pos hid, hcb]
          simp only [hret]
      · have hsome : supplied o hdr = some d := by
          rw [supplied, if_pos hid, hcb, Option.bind_some, hret]
        rw [asked, hsome, Option.some_or, askDict, if_pos hid, hcb]
        simp only [hret]
  · exact hkeep (by rw [supplied, if_neg hid]) (by rw [askDict, if_neg hid])

/-- It sees the same header whatever came before. -/
theorem askDict_congr (h : o'.dictCallback = o.dictCallback) (hdr : HeaderT) :
    (askDict o' hdr).1 = (askDict o hdr).1 ∧ supplied o' hdr = supplied o hdr := by
  refine ⟨?_, by rw [supplied, supplied, h]⟩
  rw [askDict, askDict, h]
  split_ifs
  · rcases o.dictCallback with _ | cb
    · rfl
    · simp only
      split <;> rfl
  · rfl

theorem After.ask {pre : List Item} (h : After o pre o') {hdr : HeaderT}
    (hask : (askDict o hdr).1 = none) :
    askDict o' hdr = (none, asked o o' hdr) := by
  obtain ⟨herr, hsupplied⟩ := askDict_congr h.dictCallback hdr
  rw [askDict_of_none (herr.trans hask), asked, hsupplied]
  rfl

/-- What a frame adds to what came before. -/
theorem After.frame {pre : List Item} (h : After o pre o') (f : Lz4Frame) :
    After o (pre ++ [.frame f]) (frameOpts (asked o o' f.hdr) f.hdr) := by
  obtain ⟨hoff, hdict, hsum, hskip, hdcb, hscb, hsz⟩ := frameOpts_fields (asked o o' f.hdr) f.hdr
  refine ⟨hoff.trans h.readOffset, hsum.trans h.contentChecksum, hskip.trans h.skipContentSz,
    hdcb.trans h.dictCallback, hscb.trans h.skipCallback, ?_, ?_⟩
  · rw [hsz, sizeAfter, List.foldl_append]
    change (if _ then _ else o'.contentSz) = _
    rw [h.contentSz]
    rfl
  · rw [hdict, dictAfter, List.foldl_append]
    change (supplied o f.hdr).or o'.dictionary = _
    rw [h.dictionary]
    rfl

/-! ## One frame -/

/-- The frame decodes to `c` when it is read alone; the callback does not fail on its
id either. -/
structure Alone (Z : Clz4) (seeks : Option SeekT) (o : OptsT) (f : Lz4Frame) (c : Bytes) :
    Prop where
  decodes : decodeStream Z seeks o f.bytes = (c, .eof)
  asked : (askDict o f.hdr).1 = none

/-- The size and the dictionary that the frames before leave do no harm to a frame that
decodes to `c` alone: it has a size of its own, or there is nothing to compare, or the
size left is right; and it gets a dictionary of its own, or decodes to the same with the
one left. -/
structure FitsAfter (Z : Clz4) (seeks : Option SeekT) (o : OptsT) (pre : List Item) (f : Lz4Frame)
    (c : Bytes) : Prop where
  size : f.hdr.flags.contentSize = true ∨ o.skipContentSz = true ∨ sizeAfter o pre = none ∨
    sizeAfter o pre = some (UInt64.ofNat c.length)
  dictionary : (supplied o f.hdr).isSome = true ∨
    decodeStream Z seeks { o with dictionary := dictAfter o pre } f.bytes = (c, .eof)

/-- When a frame decodes to `c`. -/
theorem decodeStream_single {f : Lz4Frame} (hoff : o.readOffset = 0)
    (hask : askDict o f.hdr = (none, o')) (c : Bytes) :
    decodeStream Z seeks o f.bytes = (c, .eof) ↔
      (f.session Z o').endErr = .const .endMark ∧ (f.session Z o').bytes = c ∧
        sizeErr (frameOpts o' f.hdr) (UInt64.ofNat c.length) = none := by
  constructor
  · intro h
    rw [← List.append_nil f.bytes] at h
    obtain ⟨hend, hsz, bs', hrest, hbs⟩ := decodeStream_frame_eof f hoff hask h
    rw [decodeStream_nil, Prod.mk.injEq] at hrest
    rw [← hrest.1, List.append_nil] at hbs
    exact ⟨hend, hbs.symm, hbs ▸ hsz⟩
  · rintro ⟨hend, rfl, hsz⟩
    rw [← List.append_nil f.bytes, decodeStream_frame_ok f hoff hask hend hsz, decodeStream_nil,
      ahead, List.append_nil]

theorem sizeErr_eq_none {n : UInt64} :
    sizeErr o n = none ↔ o.skipContentSz = true ∨ o.contentSz = none ∨ o.contentSz = some n := by
  rw [sizeErr]
  rcases o.contentSz with _ | sz
  · simp
  · rcases o.skipContentSz with _ | _ <;> simp

/-- **A frame behind others** decodes as it does alone exactly if it fits. -/
theorem After.decodes_iff {pre : List Item} (h : After o pre o') (hoff : o.readOffset = 0)
    {f : Lz4Frame} {c : Bytes} (halone : Alone Z seeks o f c) :
    decodeStream Z seeks o' f.bytes = (c, .eof) ↔ FitsAfter Z seeks o pre f c := by
  set o₂ : OptsT := { o with dictionary := dictAfter o pre } with ho₂
  have hask₂ : askDict o₂ f.hdr = (none, asked o o₂ f.hdr) := by
    obtain ⟨herr, hsupplied⟩ := askDict_congr (show o₂.dictCallback = o.dictCallback from rfl) f.hdr
    rw [askDict_of_none (herr.trans halone.asked), asked, hsupplied]
    rfl
  -- the three readings of the frame: alone, behind the others, and alone with their dictionary
  obtain ⟨hend, hbytes, hsz⟩ :=
    (decodeStream_single hoff ((After.nil o).ask halone.asked) c).mp halone.decodes
  rw [decodeStream_single (h.readOffset.trans hoff) (h.ask halone.asked)]
  have hwith := @decodeStream_single Z seeks o₂ _ f hoff hask₂ c
  have hbehind : f.session Z (asked o o' f.hdr) = f.session Z (asked o o₂ f.hdr) :=
    frameSession_congr _ _ (by rw [asked, asked, h.dictionary]) h.readOffset h.contentChecksum
  have hsz₂ : sizeErr (frameOpts (asked o o₂ f.hdr) f.hdr) (UInt64.ofNat c.length) = none := by
    obtain ⟨-, -, -, hskip, -, -, hcsz⟩ := frameOpts_fields (asked o o f.hdr) f.hdr
    obtain ⟨-, -, -, hskip₂, -, -, hcsz₂⟩ := frameOpts_fields (asked o o₂ f.hdr) f.hdr
    rw [sizeErr_eq_none, hskip, hcsz] at hsz
    rw [sizeErr_eq_none, hskip₂, hcsz₂]
    exact hsz
  have hsize : sizeErr (frameOpts (asked o o' f.hdr) f.hdr) (UInt64.ofNat c.length) = none ↔
      f.hdr.flags.contentSize = true ∨ o.skipContentSz = true ∨ sizeAfter o pre = none ∨
        sizeAfter o pre = some (UInt64.ofNat c.length) := by
    obtain ⟨-, -, -, hskip, -, -, hcsz⟩ := frameOpts_fields (asked o o f.hdr) f.hdr
    obtain ⟨-, -, -, hskip', -, -, hcsz'⟩ := frameOpts_fields (asked o o' f.hdr) f.hdr
    rw [sizeErr_eq_none, hskip, hcsz] at hsz
    rw [sizeErr_eq_none, hskip', hcsz']
    change o'.skipContentSz = true ∨ (if _ then _ else o'.contentSz) = none ∨
      (if _ then _ else o'.contentSz) = _ ↔ _
    rw [h.skipContentSz, h.contentSz]
    rcases hflag : f.hdr.flags.contentSize with _ | _
    · simp only [Bool.false_eq_true, if_false, false_or]
    · rw [hflag] at hsz
      simp only [if_true] at hsz ⊢
      exact iff_of_true hsz (.inl trivial)
  rw [hbehind, hsize]
  rcases hsup : supplied o f.hdr with _ | d
  · constructor
    · rintro ⟨hend', hbytes', hfit⟩
      exact ⟨hfit, .inr (hwith.mpr ⟨hend', hbytes', hsz₂⟩)⟩
    · rintro ⟨hfit, hdict | hdict⟩
      · rw [hsup] at hdict
        cases hdict
      · obtain ⟨hend', hbytes', -⟩ := hwith.mp hdict
        exact ⟨hend', hbytes', hfit⟩
  · have hsame : f.session Z (asked o o₂ f.hdr) = f.session Z (asked o o f.hdr) :=
      frameSession_congr _ _ (by rw [asked, asked, hsup, Option.some_or, Option.some_or]) rfl rfl
    rw [hsame]
    exact ⟨fun hall => ⟨hall.2.2, .inl (by rw [hsup]; rfl)⟩, fun hfit => ⟨hend, hbytes, hfit.size⟩⟩

/-! ## Whole streams -/

/-- What the pieces decode to when each frame is read alone. -/
def aloneContent (Z : Clz4) (seeks : Option SeekT) (o : OptsT) : Item → Bytes
  | .frame f => (decodeStream Z seeks o f.bytes).1
  | .skip _ => []

/-- The frames of a stream with their places: the first piece, and the others. -/
theorem forall_frame_cons {P : ℕ → Lz4Frame → Prop} {i : Item} {is : List Item} :
    (∀ k f, (i :: is)[k]? = some (.frame f) → P k f)
      ↔ (∀ f, i = .frame f → P 0 f) ∧ ∀ k f, is[k]? = some (.frame f) → P (k + 1) f := by
  constructor
  · intro h
    exact ⟨fun f hi => h 0 f (congrArg some hi), fun k f hk => h (k + 1) f hk⟩
  · rintro ⟨hfirst, hlater⟩ k f hk
    cases k with
    | zero => exact hfirst f (Option.some.inj hk)
    | succ k => exact hlater k f hk

/-- **Pieces behind others.** All beginnings of a stream decode to the contents of their
frames exactly if every frame fits what is before it. -/
theorem After.take_iff (hoff : o.readOffset = 0) (hskip : SkipOk o.skipCallback) {is : List Item}
    (halone : ∀ f, Item.frame f ∈ is → ∃ c, Alone Z seeks o f c) {pre : List Item}
    (h : After o pre o') :
    (∀ k, decodeStream Z seeks o' (streamBytes (is.take k))
        = ((is.take k).flatMap (aloneContent Z seeks o), .eof)) ↔
      ∀ k f, is[k]? = some (.frame f) →
        FitsAfter Z seeks o (pre ++ is.take k) f (decodeStream Z seeks o f.bytes).1 := by
  induction is generalizing pre o' with
  | nil => exact ⟨fun _ k f hk => (by cases hk), fun _ k => by rw [List.take_nil]; exact decodeStream_nil _ _ _⟩
  | cons i is ih =>
      have htail : ∀ f, Item.frame f ∈ is → ∃ c, Alone Z seeks o f c :=
        fun f hf => halone f (List.mem_cons_of_mem _ hf)
      cases i with
      | skip s =>
          have hcb : SkipOk o'.skipCallback := by rw [h.skipCallback]; exact hskip
          have hstep : ∀ k, decodeStream Z seeks o' (streamBytes (.skip s :: is.take k))
              = decodeStream Z seeks o' (streamBytes (is.take k)) :=
            fun k => decodeStream_skipFrame hcb s _
          have hrest := ih htail (h.skip s)
          simp only [List.append_assoc, List.singleton_append] at hrest
          rw [forall_frame_cons]
          constructor
          · intro hall
            refine ⟨by rintro _ ⟨⟩, hrest.mp fun k => ?_⟩
            exact (hstep k).symm.trans (hall (k + 1))
          · rintro ⟨-, hfits⟩ k
            cases k with
            | zero => exact decodeStream_nil _ _ _
            | succ k => exact (hstep k).trans (hrest.mpr hfits k)
      | frame f =>
          obtain ⟨c, hc⟩ := halone f List.mem_cons_self
          have hcontent : (decodeStream Z seeks o f.bytes).1 = c := by rw [hc.decodes]
          have hfits := h.decodes_iff hoff hc
          have hoff' := h.readOffset.trans hoff
          -- a frame that decodes leaves the rest of the stream
          have hstep : decodeStream Z seeks o' f.bytes = (c, .eof) → ∀ rest,
              decodeStream Z seeks o' (f.bytes ++ rest)
                = ahead c (decodeStream Z seeks (frameOpts (asked o o' f.hdr) f.hdr) rest) := by
            intro hdec rest
            obtain ⟨hend, hbytes, hsz⟩ := (decodeStream_single hoff' (h.ask hc.asked) c).mp hdec
            rw [← hbytes] at hsz
            rw [decodeStream_frame_ok f hoff' (h.ask hc.asked) hend hsz, hbytes]
          have hrest := ih htail (h.frame f)
          simp only [List.append_assoc, List.singleton_append] at hrest
          rw [forall_frame_cons]
          constructor
          · intro hall
            have hone : decodeStream Z seeks o' f.bytes = (c, .eof) := by
              have := hall 1
              rw [List.take_succ_cons, List.take_zero, streamBytes, List.flatMap_singleton,
                List.flatMap_singleton, aloneContent, hcontent] at this
              exact this
            have hlater : ∀ k, decodeStream Z seeks (frameOpts (asked o o' f.hdr) f.hdr)
                (streamBytes (is.take k)) = ((is.take k).flatMap (aloneContent Z seeks o), .eof) := by
              intro k
              have hk : decodeStream Z seeks o' (f.bytes ++ streamBytes (is.take k))
                  = ((decodeStream Z seeks o f.bytes).1
                    ++ (is.take k).flatMap (aloneContent Z seeks o), .eof) := hall (k + 1)
              rw [hstep hone, hcontent, ahead, Prod.mk.injEq] at hk
              exact Prod.ext (List.append_cancel_left hk.1) hk.2
            refine ⟨?_, hrest.mp hlater⟩
            rintro _ ⟨⟩
            rw [List.take_zero, List.append_nil, hcontent]
            exact hfits.mp hone
          · rintro ⟨hfirst, hothers⟩ k
            cases k with
            | zero => exact decodeStream_nil _ _ _
            | succ k =>
                have hfit := hfirst f rfl
                rw [List.take_zero, List.append_nil, hcontent] at hfit
                refine (hstep (hfits.mpr hfit) _).trans ?_
                have htake := hrest.mpr hothers k
                rw [List.take_succ_cons, List.flatMap_cons, aloneContent, hcontent]
                exact congrArg (ahead c) htake

/-- **Concatenation.** For pieces whose frames each decode alone, a Reader delivers the
contents joined and a clean end, of these pieces and of every beginning of them, exactly
if each frame fits the content size and the dictionary the frames before it left. -/
theorem newReader_concat_iff (S : Sched Z) (seeks : Option SeekT) {o : OptsT}
    (hoff : o.readOffset = 0) (hskip : SkipOk o.skipCallback) {is : List Item}
    (halone : ∀ f, Item.frame f ∈ is → (askDict o f.hdr).1 = none ∧
      ∃ c, (newReader f.bytes seeks o).Delivers S c .eof) :
    (∀ k, (newReader (streamBytes (is.take k)) seeks o).Delivers S
        ((is.take k).flatMap (aloneContent Z seeks o)) .eof) ↔
      ∀ k f, is[k]? = some (.frame f) →
        FitsAfter Z seeks o (is.take k) f (decodeStream Z seeks o f.bytes).1 := by
  simp only [newReader_delivers_iff]
  refine After.take_iff hoff hskip (fun f hf => ?_) (After.nil o)
  obtain ⟨hasked, c, hc⟩ := halone f hf
  exact ⟨c, (newReader_delivers_iff _ _ _ _ _ _).mp hc, hasked⟩

/-- Two frames with a skip frame between them. -/
theorem newReader_concat_two_frames :
    ∃ S : Sched litEngine, (newReader (Lz4Frame.lit.bytes ++ (⟨3, [1, 2], by decide, by decide⟩
      : SkipFrame).bytes ++ Lz4Frame.lit.bytes) (some seekOk) .default).Delivers S [7, 7] .eof := by
  obtain ⟨S⟩ := Sched.nonempty litEngine
  have hlit : decodeStream litEngine (some seekOk) .default Lz4Frame.lit.bytes = ([7], .eof) := by
    decide +kernel
  have hall := (@newReader_concat_iff litEngine S (some seekOk) .default rfl .none
    [.frame .lit, .skip ⟨3, [1, 2], by decide, by decide⟩, .frame .lit]
    (fun f hf => by
      obtain rfl : f = .lit := by
        simp only [List.mem_cons, Item.frame.injEq, reduceCtorEq, List.not_mem_nil, or_false,
          false_or, or_self] at hf
        exact hf
      exact ⟨by decide +kernel, [7], (newReader_delivers_iff _ _ _ _ _ _).mpr hlit⟩)).mpr
    (fun k f hk => by
      have hk3 : k = 0 ∨ k = 1 ∨ k = 2 := by
        have := (List.getElem?_eq_some_iff.mp hk).1
        simp only [List.length_cons, List.length_nil] at this
        omega
      rcases hk3 with rfl | rfl | rfl
      · obtain rfl := Item.frame.inj (Option.some.inj hk)
        rw [hlit]
        exact ⟨.inr (.inr (.inl rfl)), .inr hlit⟩
      · cases hk
      · obtain rfl := Item.frame.inj (Option.some.inj hk)
        rw [hlit]
        exact ⟨.inr (.inr (.inl (by decide +kernel))), .inr (by decide +kernel)⟩) 3
  have hcontent : [Item.frame .lit, .skip ⟨3, [1, 2], by decide, by decide⟩, .frame .lit].flatMap
      (aloneContent litEngine (some seekOk) .default) = [7, 7] := by
    simp only [List.flatMap_cons, List.flatMap_nil, aloneContent, hlit]
    rfl
  have hbytes : streamBytes [.frame .lit, .skip ⟨3, [1, 2], by decide, by decide⟩, .frame .lit]
      = Lz4Frame.lit.bytes ++ (⟨3, [1, 2], by decide, by decide⟩ : SkipFrame).bytes
        ++ Lz4Frame.lit.bytes := by decide
  change (newReader (streamBytes [_, _, _]) (some seekOk) .default).Delivers S
    (List.flatMap _ [_, _, _]) .eof at hall
  rw [hcontent, hbytes] at hall
  exact ⟨S, hall⟩

/-- A frame with a content size of 1, then one of two bytes that has none: the size of the
first is held against the second. -/
theorem newReader_concat_stale_size :
    (∀ S : Sched litEngine,
      (newReader [4, 34, 77, 24, 104, 64, 1, 0, 0, 0, 0, 0, 0, 0, 44, 2, 0, 0, 0, 16, 7, 0, 0, 0, 0]
        none .sync64KB).Delivers S [7] .eof) ∧
    (∀ S : Sched litEngine,
      (newReader [4, 34, 77, 24, 96, 64, 130, 3, 0, 0, 0, 32, 8, 9, 0, 0, 0, 0]
        none .sync64KB).Delivers S [8, 9] .eof) ∧
    ∀ S : Sched litEngine,
      ¬ (newReader [4, 34, 77, 24, 104, 64, 1, 0, 0, 0, 0, 0, 0, 0, 44, 2, 0, 0, 0, 16, 7, 0, 0, 0, 0,
          4, 34, 77, 24, 96, 64, 130, 3, 0, 0, 0, 32, 8, 9, 0, 0, 0, 0]
        none .sync64KB).Delivers S [7, 8, 9] .eof := by
  simp only [newReader_delivers_iff]
  exact ⟨fun _ => by decide +kernel, fun _ => by decide +kernel, fun _ => by decide +kernel⟩

end Plz4
