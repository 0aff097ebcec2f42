/-
The synchronous writer on any destination.

Every operation is made of a few: the header, a block, the trailer, moves of the buffer,
and the error of a source. What these keep, a sequence of calls keeps.
-/
import Plz4.SyncSpec

set_option autoImplicit false

namespace Plz4

open Cut CopyAt Xxh32

variable {Z : Clz4}

namespace SyncWriter

/-! ## What the operations are made of -/

/-- The writer once `src` is hashed and compressed. -/
def hashed (w : SyncWriter Z) (src : Bytes) : SyncWriter Z :=
  { w with
    srcHash := w.srcHash.map (fun h : XXHZero => h.write src)
    cmp := (compressToBlk src w.cmp w.bsz w.opts.blockChecksum none).2 }

/-- What `CompressToBlk` makes of `src`. -/
def made (w : SyncWriter Z) (src : Bytes) : Except Err Bytes :=
  (compressToBlk src w.cmp w.bsz w.opts.blockChecksum none).1

/-- The writer once the block `b` made of `src` is out. -/
def wrote (w : SyncWriter Z) (src b : Bytes) : SyncWriter Z :=
  { w.hashed src with
    calls := w.calls ++ [⟨b, b.length, none⟩]
    progress := w.progress ++ [(w.srcMark, w.dstMark)]
    srcMark := w.srcMark + src.length
    dstMark := w.dstMark + b.length }

/-- The three ways a block goes. -/
inductive Framed (wr : WrPlan) (w : SyncWriter Z) (src : Bytes) : Option Err × SyncWriter Z → Prop
  | unmade {e : Err} (hmade : w.made src = .error e) : Framed wr w src (some e, w.hashed src)
  | failed {b : Bytes} {k : ℕ} {e : Err} (hmade : w.made src = .ok b)
      (hwr : wr w.calls.length = some (k, e)) :
      Framed wr w src
        (some e, { w.hashed src with calls := w.calls ++ [⟨b, min k b.length, some e⟩] })
  | wrote {b : Bytes} (hmade : w.made src = .ok b) (hwr : wr w.calls.length = none) :
      Framed wr w src (none, w.wrote src b)

theorem framed (wr : WrPlan) (w : SyncWriter Z) (src : Bytes) :
    Framed wr w src (w._writeFrame wr src) := by
  rcases hmade : w.made src with e | b
  · have hret := hmade
    unfold made at hret
    have hrun : w._writeFrame wr src = (some e, w.hashed src) := by
      simp only [_writeFrame, hret, hashed]
    rw [hrun]
    exact .unmade hmade
  · have hret := hmade
    unfold made at hret
    rcases hwr : wr w.calls.length with _ | ⟨k, e⟩
    · have hrun : w._writeFrame wr src = (none, w.wrote src b) := by
        simp only [_writeFrame, hret, hashed, wrWrite, hwr, wrote]
      rw [hrun]
      exact .wrote hmade hwr
    · have hrun : w._writeFrame wr src
          = (some e, { w.hashed src with calls := w.calls ++ [⟨b, min k b.length, some e⟩] }) := by
        simp only [_writeFrame, hret, hashed, wrWrite, hwr]
      rw [hrun]
      exact .failed hmade hwr

/-- A property that the parts of every operation keep. -/
structure Stable (wr : WrPlan) (I : SyncWriter Z → Prop) : Prop where
  buf : ∀ w b off, I w → I { w with srcBlk := b, srcOff := off }
  state : ∀ w e, I w → I { w with state := e }
  source : ∀ w es, I w → I { w with srcErrs := es }
  header : ∀ w, I w → I (w._writeHeader wr).2
  frame : ∀ w src, I w → I (w._writeFrame wr src).2
  trailer : ∀ w, I w → I (w.closeTrailer wr).2

namespace Stable

variable {wr : WrPlan} {I : SyncWriter Z → Prop} (hI : Stable wr I)

include hI

theorem begin {w : SyncWriter Z} (h : I w) :
    I (if w.srcOff < 0 then w._writeHeader wr else (none, w)).2 := by
  split_ifs
  · exact hI.header w h
  · exact h

theorem fillBlk {w : SyncWriter Z} (h : I w) (src : Bytes) : I (w.fillBlk wr src).2 := by
  have hcopied := hI.buf w (some (copyAt w.blk w.srcOff.toNat src))
    (w.srcOff + copyLen w.blk w.srcOff.toNat src) h
  unfold SyncWriter.fillBlk
  simp only
  split_ifs
  · have hframe := hI.frame _ (({ w with
      srcBlk := some (copyAt w.blk w.srcOff.toNat src)
      srcOff := w.srcOff + copyLen w.blk w.srcOff.toNat src } : SyncWriter Z).blk) hcopied
    split
    · rename_i e w' heq
      rw [heq] at hframe
      exact hframe
    · rename_i w' heq
      rw [heq] at hframe
      exact hI.buf w' w'.srcBlk 0 hframe
  · exact hcopied

theorem writeLoop (k : ℕ) {w : SyncWriter Z} (h : I w) (src : Bytes) (n : ℕ) :
    I (writeLoop wr k w src n).2 := by
  induction k generalizing w src n with
  | zero => exact h
  | succ k ih =>
      unfold SyncWriter.writeLoop
      split_ifs
      · exact h
      · have hframe := hI.frame w (src.take w.bsz) h
        split
        · rename_i e w' heq
          rw [heq] at hframe
          exact hframe
        · rename_i w' heq
          rw [heq] at hframe
          exact ih hframe _ _
      · exact ih (hI.buf w _ _ h) _ _

theorem _write {w : SyncWriter Z} (h : I w) (src : Bytes) : I (w._write wr src).2 := by
  have hbegin := hI.begin h
  unfold SyncWriter._write
  rcases heq : (if w.srcOff < 0 then w._writeHeader wr else (none, w)) with ⟨err, w₁⟩
  rw [heq] at hbegin
  simp only
  rcases err with _ | e
  · have hfill : I (if w₁.srcOff > 0 then w₁.fillBlk wr src else ((0, none), w₁)).2 := by
      split_ifs
      · exact hI.fillBlk hbegin src
      · exact hbegin
    simp only
    rcases hf : (if w₁.srcOff > 0 then w₁.fillBlk wr src else ((0, none), w₁)) with ⟨⟨n, err⟩, w₂⟩
    rw [hf] at hfill
    rcases err with _ | e
    · exact hI.writeLoop _ hfill _ _
    · exact hfill
  · exact hbegin

theorem readFromLoop (k : ℕ) {w : SyncWriter Z} (h : I w) (r : Rd) (n : ℕ) :
    I (readFromLoop wr k w r n).2 := by
  induction k generalizing w r n with
  | zero => exact h
  | succ k ih =>
      simp only [SyncWriter.readFromLoop]
      rcases r.readFull (w.blk.length - w.srcOff.toNat) with ⟨d, _ | e, r'⟩
      · have hframe := hI.frame { w with srcBlk := some (copyAt w.blk w.srcOff.toNat d) }
          (({ w with srcBlk := some (copyAt w.blk w.srcOff.toNat d) } : SyncWriter Z).blk)
          (hI.buf w _ w.srcOff h)
        simp only
        split
        · rename_i e w' heq
          rw [heq] at hframe
          exact hframe
        · rename_i w' heq
          rw [heq] at hframe
          exact ih (hI.buf w' w'.srcBlk 0 hframe) _ _
      · simp only
        split_ifs
        · exact hI.buf w _ _ h
        · exact hI.source _ (w.srcErrs ++ [(w.calls.length, e)])
            (hI.buf w (some (copyAt w.blk w.srcOff.toNat d)) w.srcOff h)

theorem _readFrom {w : SyncWriter Z} (h : I w) (r : Rd) : I (w._readFrom wr r).2 := by
  have hbegin := hI.begin h
  unfold SyncWriter._readFrom
  rcases heq : (if w.srcOff < 0 then w._writeHeader wr else (none, w)) with ⟨err, w₁⟩
  rw [heq] at hbegin
  rcases err with _ | e
  · exact hI.readFromLoop _ hbegin _ _
  · exact hbegin

theorem _flush {w : SyncWriter Z} (h : I w) : I (w._flush wr).2 := by
  unfold SyncWriter._flush
  split_ifs
  · exact h
  · have hframe := hI.frame w (w.blk.take w.srcOff.toNat) h
    split
    · rename_i e w' heq
      rw [heq] at hframe
      exact hframe
    · rename_i w' heq
      rw [heq] at hframe
      exact hI.buf w' w'.srcBlk 0 hframe

/-- What `Close` does after its flush. -/
theorem close_end {w : SyncWriter Z} (hblk : w.srcBlk ≠ none)
    (h : I (if w.srcOff < 0 then w._writeHeader wr else w._flush wr).2) : I (w.close wr).2 := by
  unfold SyncWriter.close
  split
  · exact absurd ‹_› hblk
  · rcases heq : (if w.srcOff < 0 then w._writeHeader wr else w._flush wr) with ⟨err, w₁⟩
    rw [heq] at h
    have hfreed := hI.buf w₁ none 0 h
    simp only
    split
    · exact hfreed
    · exact hI.state _ _ hfreed
    · exact hI.trailer _ hfreed

theorem close {w : SyncWriter Z} (h : I w) : I (w.close wr).2 := by
  by_cases hblk : w.srcBlk = none
  · rw [SyncWriter.close, hblk]
    exact h
  · apply hI.close_end hblk
    split_ifs
    · exact hI.header w h
    · exact hI._flush h

/-- A call keeps it. -/
theorem call {w : SyncWriter Z} (h : I w) (c : WCall) : I (w.call wr c).2 := by
  cases c with
  | write src =>
      show I (w.write wr src).2
      unfold SyncWriter.write
      split
      · exact h
      · exact hI.state _ _ (hI._write h src)
  | readFrom r =>
      show I (w.readFrom wr r).2
      unfold SyncWriter.readFrom
      split
      · exact h
      · exact hI.state _ _ (hI._readFrom h r)
  | flush =>
      show I (w.flush wr).2
      unfold SyncWriter.flush
      split
      · exact h
      · exact hI.state _ _ (hI._flush h)
  | close => exact hI.close h

/-- A sequence of calls keeps it. -/
theorem runCalls {w : SyncWriter Z} (h : I w) (cs : List WCall) : I (w.runCalls wr cs).2 := by
  induction cs generalizing w with
  | nil => exact h
  | cons c cs ih => exact ih (hI.call h c)

end Stable

/-! ## The compressor -/

/-- The writer's options, and a compressor of its factory. -/
structure Made (o : OptsT) (w : SyncWriter Z) : Prop where
  opts : w.opts = o
  bsz : w.bsz = o.bsz
  reach : (o.newCompressorFactory Z).Reach w.cmp

theorem stable_made (wr : WrPlan) (o : OptsT) : Stable wr (Made (Z := Z) o) where
  buf _ _ _ h := ⟨h.opts, h.bsz, h.reach⟩
  state _ _ h := ⟨h.opts, h.bsz, h.reach⟩
  source _ _ h := ⟨h.opts, h.bsz, h.reach⟩
  header w h := by
    unfold _writeHeader
    simp only
    split <;> exact ⟨h.opts, h.bsz, h.reach⟩
  frame w src h := by
    have hreach : (o.newCompressorFactory Z).Reach (w.hashed src).cmp := by
      show (o.newCompressorFactory Z).Reach (compressToBlk src w.cmp w.bsz _ none).2
      rw [compressToBlk_cmp]
      exact h.reach.compress src w.bsz none
    have hframed := framed wr w src
    generalize w._writeFrame wr src = r at hframed ⊢
    cases hframed with
    | unmade | failed | wrote => exact ⟨h.opts, h.bsz, hreach⟩
  trailer w h := ⟨h.opts, h.bsz, h.reach⟩

theorem made_new (o : OptsT) (buf : PoolBlk o.bsz) : Made o (newSyncWriter Z o buf) :=
  ⟨rfl, rfl, .new⟩

/-- Whatever the calls before, the writer's next block is made. -/
theorem made_ok {o : OptsT} (hindep : o.blockLinked = false) (buf : PoolBlk o.bsz) (wr : WrPlan)
    (cs : List WCall) (src : Bytes) :
    (((newSyncWriter Z o buf).runCalls wr cs).2.made src).isOk = true := by
  have h := (stable_made wr o).runCalls (made_new (Z := Z) o buf) cs
  unfold made
  rw [h.opts, h.bsz]
  exact compressToBlk_isOk h.reach (.inl hindep) _ _

end SyncWriter

end Plz4
