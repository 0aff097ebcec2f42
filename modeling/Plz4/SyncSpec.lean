/-
The synchronous writer against what it is for.

Between two calls the writer has written the header and the blocks `ps`, and holds
`cur` in its buffer; `Cutting` says that these are the content fed so far, cut. Each
call moves this on, however it hands the bytes over, so a whole life of the writer
is a function of the segments alone.
-/
import Plz4.SyncWriter

set_option autoImplicit false

namespace Plz4

open Cut CopyAt Xxh32

variable {Z : Clz4}

namespace SyncWriter

/-! ## The written part -/

/-- The writer has written the header and the blocks `ps`. -/
structure Wrote (w : SyncWriter Z) (o : OptsT) (ps : List Bytes) : Prop where
  opts : w.opts = o
  bsz : w.bsz = o.bsz
  state : w.state = none
  cmp : w.cmp = (encoded Z o ps).2
  passed : passed w.calls = headerBytes o ++ (encoded Z o ps).1.flatten
  srcMark : w.srcMark = ps.flatten.length
  dstMark : w.dstMark = (headerBytes o).length + (encoded Z o ps).1.flatten.length
  progress : w.progress ++ [(w.srcMark, w.dstMark)]
    = marks 0 (headerBytes o).length ps (encoded Z o ps).1
  srcHash : w.srcHash = if o.contentChecksum then some (hashAll ps) else none

theorem Wrote.with_blk {w : SyncWriter Z} {o : OptsT} {ps : List Bytes} (h : w.Wrote o ps)
    (b : Option Bytes) (off : ℤ) : ({ w with srcBlk := b, srcOff := off } : SyncWriter Z).Wrote o ps :=
  ⟨h.opts, h.bsz, h.state, h.cmp, h.passed, h.srcMark, h.dstMark, h.progress, h.srcHash⟩

/-- `_writeFrame` adds one block, to the output, the hash and the offsets, and leaves
the buffer. -/
theorem _writeFrame_spec {w : SyncWriter Z} {o : OptsT} {ps : List Bytes} (h : w.Wrote o ps)
    (hindep : o.blockLinked = false) (src : Bytes) (hsrc : src.length ≤ o.bsz) :
    ∃ w', w._writeFrame .ok src = (none, w') ∧ w'.Wrote o (ps ++ [src])
      ∧ w'.srcBlk = w.srcBlk ∧ w'.srcOff = w.srcOff := by
  obtain ⟨stored, data, -, hmade⟩ := compressToBlk_spec (tags_encoded Z hindep ps) hsrc
    o.blockChecksum none
  have henc : encoded Z o (ps ++ [src])
      = ((encoded Z o ps).1 ++ [blkBytes stored data o.blockChecksum],
        (compressToBlk src (encoded Z o ps).2 o.bsz o.blockChecksum none).2) := by
    rw [encoded, encodeFrom_concat, ← encoded, hmade]
    rfl
  have hrun : w._writeFrame .ok src = (none, { w with
      srcHash := w.srcHash.map (fun h : XXHZero => h.write src)
      cmp := (compressToBlk src (encoded Z o ps).2 o.bsz o.blockChecksum none).2
      calls := w.calls ++ [⟨blkBytes stored data o.blockChecksum,
        (blkBytes stored data o.blockChecksum).length, none⟩]
      progress := w.progress ++ [(w.srcMark, w.dstMark)]
      srcMark := w.srcMark + src.length
      dstMark := w.dstMark + (blkBytes stored data o.blockChecksum).length }) := by
    simp only [_writeFrame, h.cmp, h.bsz, h.opts, hmade, wrWrite_ok]
  refine ⟨_, hrun, ⟨h.opts, h.bsz, h.state, by rw [henc], ?_, ?_, ?_, ?_, ?_⟩, rfl, rfl⟩
  · simp only [passed_append, h.passed, henc, List.flatten_append, List.append_assoc]
    simp [passed]
  · simp only [h.srcMark, List.flatten_append, List.length_append, List.flatten_singleton]
  · simp only [h.dstMark, henc, List.flatten_append, List.length_append, List.flatten_singleton,
      Nat.add_assoc]
  · rw [henc, marks_concat _ _ (length_encoded Z o ps).symm, ← h.progress]
    simp only [h.srcMark, h.dstMark, List.flatten_append, List.length_append,
      List.flatten_singleton, Nat.zero_add, Nat.add_assoc]
  · simp only [h.srcHash, hashAll_concat]
    split_ifs <;> rfl

/-! ## Between two calls -/

/-- The buffer holds `cur`. -/
structure Holds (w : SyncWriter Z) (o : OptsT) (cur : Bytes) : Prop where
  off : w.srcOff = cur.length
  some : w.srcBlk = some w.blk
  length : w.blk.length = o.bsz
  take : w.blk.take cur.length = cur

/-- The writer has written `ps` and holds `cur`: the segments cut so far. -/
structure Open (w : SyncWriter Z) (o : OptsT) (segs : List Bytes) (seg : Bytes) (ps : List Bytes)
    (cur : Bytes) : Prop where
  wrote : w.Wrote o ps
  holds : w.Holds o cur
  cutting : Cutting o.bsz segs seg ps cur

/-- The writer has not written anything, nor been given anything. -/
structure Fresh (w : SyncWriter Z) (o : OptsT) : Prop where
  off : w.srcOff = -1
  some : w.srcBlk = some w.blk
  length : w.blk.length = o.bsz
  header : ∃ w', w._writeHeader .ok = (none, w') ∧ w'.Wrote o [] ∧ w'.srcOff = 0
    ∧ w'.srcBlk = w.srcBlk

/-- Between two calls: the header is out, or nothing has come yet. -/
def Live (w : SyncWriter Z) (o : OptsT) (segs : List Bytes) (seg : Bytes) : Prop :=
  (∃ ps cur, w.Open o segs seg ps cur) ∨ (w.Fresh o ∧ w.state = none ∧ Cutting o.bsz segs seg [] [])

theorem live_new (o : OptsT) (buf : PoolBlk o.bsz) : (newSyncWriter Z o buf).Live o [] [] := by
  refine .inr ⟨⟨rfl, rfl, buf.property, ?_⟩, rfl, Cutting.init o.bsz_pos⟩
  refine ⟨_, rfl, ⟨rfl, rfl, rfl, rfl, ?_, rfl, rfl, rfl, ?_⟩, rfl, rfl⟩
  · simp [newSyncWriter, passed, encoded, encodeFrom]
  · simp only [newSyncWriter, hashAll]
    rfl

/-- Every call that takes bytes begins by writing the header if that is due. -/
theorem Live.header {w : SyncWriter Z} {o : OptsT} {segs : List Bytes} {seg : Bytes}
    (h : w.Live o segs seg) :
    ∃ w' ps cur, (if w.srcOff < 0 then w._writeHeader .ok else (none, w)) = (none, w')
      ∧ w'.Open o segs seg ps cur := by
  rcases h with ⟨ps, cur, hopen⟩ | ⟨hfresh, -, hcut⟩
  · refine ⟨w, ps, cur, if_neg ?_, hopen⟩
    rw [hopen.holds.off]
    omega
  · obtain ⟨w', hrun, hwrote, hoff, hblk⟩ := hfresh.header
    have hblk' : w'.blk = w.blk := by rw [blk, hblk, blk]
    refine ⟨w', [], [], ?_, hwrote, ⟨hoff, ?_, ?_, rfl⟩, hcut⟩
    · rw [if_pos (by rw [hfresh.off]; omega), hrun]
    · rw [hblk, hblk', hfresh.some]
    · rw [hblk', hfresh.length]

/-! ## Taking bytes -/

/-- Copying bytes behind what the buffer holds. -/
theorem Holds.copy {w : SyncWriter Z} {o : OptsT} {cur : Bytes} (h : w.Holds o cur) (src : Bytes)
    (hfit : cur.length + src.length ≤ o.bsz) :
    ({ w with srcBlk := Option.some (copyAt w.blk cur.length src),
              srcOff := (cur.length + src.length : ℕ) } : SyncWriter Z).Holds o (cur ++ src) := by
  have hlen := h.length
  refine ⟨by rw [List.length_append], rfl, ?_, ?_⟩
  · change (copyAt w.blk cur.length src).length = o.bsz
    rw [length_copyAt _ _ (by omega), hlen]
  · change (copyAt w.blk cur.length src).take (cur ++ src).length = cur ++ src
    rw [List.length_append, take_copyAt_of_fits _ _ _ (by omega), h.take]

/-- A full buffer goes out as one block. -/
theorem Open.writeFull {w : SyncWriter Z} {o : OptsT} {segs : List Bytes} {seg : Bytes}
    {ps : List Bytes} {cur : Bytes} (h : w.Open o segs seg ps cur)
    (hindep : o.blockLinked = false) (src : Bytes) (hfull : (cur ++ src).length = o.bsz) (off : ℤ) :
    ∃ w', ({ w with srcBlk := some (copyAt w.blk cur.length src), srcOff := off }
        : SyncWriter Z)._writeFrame .ok (copyAt w.blk cur.length src) = (none, w')
      ∧ ({ w' with srcOff := 0 } : SyncWriter Z).Open o segs (seg ++ src)
          (ps ++ [cur ++ src]) [] := by
  have hlen := h.holds.length
  have hfit : cur.length + src.length = w.blk.length := by
    rw [List.length_append] at hfull
    omega
  have hbuf : copyAt w.blk cur.length src = cur ++ src := by
    have htake := take_copyAt_of_fits w.blk cur.length src (Nat.le_of_eq hfit)
    rwa [hfit, ← length_copyAt cur.length src (by omega), List.take_length,
      h.holds.take] at htake
  obtain ⟨w', hrun, hwrote, hblk, -⟩ := _writeFrame_spec
    (h.wrote.with_blk (some (copyAt w.blk cur.length src)) off) hindep
    (copyAt w.blk cur.length src) (by rw [hbuf]; omega)
  refine ⟨w', hrun, ?_, ⟨rfl, ?_, ?_, rfl⟩, h.cutting.fill o.bsz_pos _ hfull⟩
  · rw [hbuf] at hwrote
    exact hwrote.with_blk w'.srcBlk 0
  · change w'.srcBlk = some w'.blk
    rw [blk, hblk, Option.getD_some]
  · change w'.blk.length = o.bsz
    rw [blk, hblk, Option.getD_some, hbuf, hfull]

/-- Filling up a started block takes what fits of the source. -/
theorem fillBlk_spec {w : SyncWriter Z} {o : OptsT} {segs : List Bytes} {seg : Bytes}
    {ps : List Bytes} {cur : Bytes} (h : w.Open o segs seg ps cur)
    (hindep : o.blockLinked = false) (src : Bytes) :
    ∃ n w' ps' cur', w.fillBlk .ok src = ((n, none), w') ∧ n ≤ src.length
      ∧ w'.Open o segs (seg ++ src.take n) ps' cur' ∧ (cur' = [] ∨ n = src.length) := by
  have hlt := h.cutting.length_lt
  have hlen := h.holds.length
  have hoff : w.srcOff.toNat = cur.length := by rw [h.holds.off, Int.toNat_natCast]
  set n := copyLen w.blk cur.length src with hn
  have hn' : n = min (o.bsz - cur.length) src.length := by rw [hn, copyLen, hlen]
  -- `copy` stops at the end of the buffer
  have hcopy : copyAt w.blk cur.length src = copyAt w.blk cur.length (src.take n) := by
    rw [copyAt, copyAt]
    have htake : (src.take n).take (w.blk.length - cur.length)
        = src.take (w.blk.length - cur.length) := by
      rw [List.take_take, List.take_eq_take_iff]
      omega
    have hdrop : w.blk.drop (cur.length + src.length)
        = w.blk.drop (cur.length + (src.take n).length) := by
      rcases Nat.le_total src.length (o.bsz - cur.length) with hle | hge
      · rw [List.length_take, hn', Nat.min_eq_right hle, Nat.min_self]
      · rw [List.drop_of_length_le (by omega), List.drop_of_length_le]
        rw [List.length_take]
        omega
    rw [htake, hdrop]
  have htaken : (src.take n).length = n := by
    rw [List.length_take]
    omega
  by_cases hfull : cur.length + n = o.bsz
  · -- the buffer is full: the block is written
    obtain ⟨w', hrun, hopen⟩ := h.writeFull hindep (src.take n)
      (by rw [List.length_append, htaken, hfull]) (w.srcOff + n)
    refine ⟨n, _, _, _, ?_, by omega, hopen, .inl rfl⟩
    have hbsz : w.srcOff + (n : ℤ) = (w.bsz : ℤ) := by
      rw [h.holds.off, h.wrote.bsz]
      omega
    simp only [fillBlk, hoff, ← hn, hcopy, hbsz, if_true]
    rw [← hbsz]
    simp only [blk, Option.getD_some] at hrun ⊢
    rw [hrun]
  · -- all of the source went in
    have hadd := h.cutting.add (src.take n) (by rw [List.length_append, htaken]; omega)
    have hcopied := h.holds.copy (src.take n) (by omega)
    have hbsz : ¬ w.srcOff + (n : ℤ) = (w.bsz : ℤ) := by
      rw [h.holds.off, h.wrote.bsz]
      omega
    refine ⟨n, _, ps, cur ++ src.take n, ?_, by omega,
      ⟨h.wrote.with_blk _ _, hcopied, hadd⟩, .inr (by omega)⟩
    have hcast : w.srcOff + (n : ℤ) = ((cur.length + n : ℕ) : ℤ) := by
      rw [h.holds.off, Nat.cast_add]
    simp only [fillBlk, hoff, ← hn, hcopy, if_neg hbsz, htaken]
    rw [hcast]

/-- The loop of `_write` takes all of the source. The induction is on the bound on
its passes; a pass takes a full block or all that is left. -/
theorem writeLoop_spec (k : ℕ) {w : SyncWriter Z} {o : OptsT} {segs : List Bytes} {seg : Bytes}
    {ps : List Bytes} {cur : Bytes} (h : w.Open o segs seg ps cur)
    (hindep : o.blockLinked = false) (src : Bytes) (n : ℕ) (hk : src.length < k)
    (hcur : cur = [] ∨ src = []) :
    ∃ w' ps' cur', writeLoop .ok k w src n = ((n + src.length, none), w')
      ∧ w'.Open o segs (seg ++ src) ps' cur' := by
  induction k generalizing w seg ps cur src n with
  | zero => omega
  | succ k ih =>
      by_cases hsrc : src = []
      · subst hsrc
        refine ⟨w, ps, cur, ?_, ?_⟩
        · rw [writeLoop, if_pos rfl]
          rfl
        · rwa [List.append_nil]
      have hcur' : cur = [] := by
        rcases hcur with hcur | hcur
        · exact hcur
        · exact absurd hcur hsrc
      subst hcur'
      have hpos := List.length_pos_iff.mpr hsrc
      have hbpos := o.bsz_pos
      have hoff0 : w.srcOff = 0 := h.holds.off
      by_cases hbig : src.length ≥ w.bsz
      · -- a block straight from the source: the buffer is not touched
        have hbig' := hbig
        rw [h.wrote.bsz] at hbig'
        have htaken : (src.take w.bsz).length = o.bsz := by
          rw [h.wrote.bsz, List.length_take]
          omega
        obtain ⟨w', hrun, hwrote, hblk, hoff⟩ := _writeFrame_spec h.wrote hindep
          (src.take w.bsz) (by omega)
        have hcut := h.cutting.fill o.bsz_pos (src.take w.bsz)
          (by rw [List.nil_append, htaken])
        have hblk' : w'.blk = w.blk := by rw [blk, hblk, blk]
        have hopen : w'.Open o segs (seg ++ src.take w.bsz) (ps ++ [src.take w.bsz]) [] :=
          ⟨hwrote, ⟨by rw [hoff, hoff0]; rfl, by rw [hblk, hblk']; exact h.holds.some,
            by rw [hblk']; exact h.holds.length, rfl⟩, hcut⟩
        have hdrop : (src.drop w.bsz).length = src.length - w.bsz := List.length_drop
        obtain ⟨w'', ps', cur', hloop, hopen'⟩ := ih hopen (src.drop w.bsz) (n + w.bsz)
          (by rw [hdrop, h.wrote.bsz]; omega) (.inl rfl)
        refine ⟨w'', ps', cur', ?_, ?_⟩
        · rw [writeLoop, if_neg hsrc, if_pos hbig, hrun]
          have hb : w'.bsz = w.bsz := by rw [hwrote.bsz, h.wrote.bsz]
          simp only [hb]
          rw [hloop, hdrop, Nat.add_assoc, Nat.add_sub_cancel' hbig]
        · rwa [List.append_assoc, List.take_append_drop] at hopen'
      · -- less than a block: it is held in the buffer, and the next pass is the last
        have hlt := hbig
        rw [h.wrote.bsz] at hlt
        have hn : copyLen w.blk 0 src = src.length := by
          rw [copyLen, h.holds.length]
          omega
        have hcopied := h.holds.copy src (by simp only [List.length_nil]; omega)
        have hadd := h.cutting.add src (by rw [List.nil_append]; omega)
        simp only [List.length_nil, Nat.zero_add] at hcopied
        obtain ⟨w'', ps', cur', hloop, hopen'⟩ := ih
          (w := { w with srcBlk := some (copyAt w.blk 0 src), srcOff := (src.length : ℕ) })
          ⟨h.wrote.with_blk _ _, hcopied, hadd⟩ [] (n + src.length)
          (by simp only [List.length_nil]; omega) (.inr rfl)
        refine ⟨w'', ps', cur', ?_, ?_⟩
        · rw [writeLoop, if_neg hsrc, if_neg hbig]
          simp only [hn, List.drop_length]
          rw [hloop]
          rfl
        · rwa [List.append_nil] at hopen'

/-- `Write` takes all of its source. -/
theorem write_spec {w : SyncWriter Z} {o : OptsT} {segs : List Bytes} {seg : Bytes}
    (h : w.Live o segs seg) (hstate : w.state = none) (hindep : o.blockLinked = false)
    (src : Bytes) :
    ∃ w', w.write .ok src = (⟨src.length, none⟩, w') ∧ w'.state = none
      ∧ w'.Live o segs (seg ++ src) := by
  obtain ⟨w₁, ps, cur, hhead, hopen⟩ := h.header
  -- the part that fills up a started block, if there is one
  obtain ⟨n, w₂, ps₂, cur₂, hfill, hn, hopen₂, hcur₂⟩ : ∃ n w₂ ps₂ cur₂,
      (if w₁.srcOff > 0 then w₁.fillBlk .ok src else ((0, none), w₁)) = ((n, none), w₂)
        ∧ n ≤ src.length ∧ w₂.Open o segs (seg ++ src.take n) ps₂ cur₂
        ∧ (cur₂ = [] ∨ n = src.length) := by
    by_cases hpos : w₁.srcOff > 0
    · rw [if_pos hpos]
      exact fillBlk_spec hopen hindep src
    · have hnil : cur = [] := by
        rw [hopen.holds.off] at hpos
        exact List.length_eq_zero_iff.mp (by omega)
      subst hnil
      refine ⟨0, w₁, ps, [], by rw [if_neg hpos], Nat.zero_le _, ?_, .inl rfl⟩
      rwa [List.take_zero, List.append_nil]
  have hdrop : (src.drop n).length = src.length - n := List.length_drop
  obtain ⟨w₃, ps₃, cur₃, hloop, hopen₃⟩ := writeLoop_spec (src.length + 1) hopen₂ hindep
    (src.drop n) n (by omega) (hcur₂.imp_right (fun h => by rw [h, List.drop_length]))
  rw [List.append_assoc, List.take_append_drop] at hopen₃
  refine ⟨{ w₃ with state := none }, ?_, rfl, .inl ⟨ps₃, cur₃, ?_⟩⟩
  · simp only [write, hstate, _write, hhead, hfill, hloop, hdrop, Nat.add_sub_cancel' hn]
  · have hsame : ({ w₃ with state := none } : SyncWriter Z) = w₃ := by rw [← hopen₃.wrote.state]
    rwa [hsame]

/-- The loop of `_readFrom` takes all of a source that ends in `io.EOF`, or in
`io.ErrUnexpectedEOF`, which it takes for the same. A pass that does not end it brings at
least one byte. -/
theorem readFromLoop_spec (k : ℕ) {w : SyncWriter Z} {o : OptsT} {segs : List Bytes}
    {seg : Bytes} {ps : List Bytes} {cur : Bytes} (h : w.Open o segs seg ps cur)
    (hindep : o.blockLinked = false) (r : Rd) (heof : r.err = .eof ∨ r.err = .unexpectedEOF)
    (n : ℕ) (hk : r.data.length < k) :
    ∃ w' ps' cur', readFromLoop .ok k w r n = ((n + r.data.length, none), w')
      ∧ w'.Open o segs (seg ++ r.data) ps' cur' := by
  induction k generalizing w seg ps cur r n with
  | zero => omega
  | succ k ih =>
      have hlt := h.cutting.length_lt
      have hlen := h.holds.length
      have hoff : w.srcOff.toNat = cur.length := by rw [h.holds.off, Int.toNat_natCast]
      obtain ⟨r', hread, hdata, herr⟩ := Rd.readFull_spec r (o.bsz - cur.length)
      by_cases hfull : o.bsz - cur.length ≤ r.data.length
      · -- a full block: the source has less left
        have htaken : (r.data.take (o.bsz - cur.length)).length = o.bsz - cur.length := by
          rw [List.length_take]
          omega
        have hnone : r.fullErr (o.bsz - cur.length) = none := by rw [Rd.fullErr, if_pos hfull]
        obtain ⟨w', hrun, hopen⟩ := h.writeFull hindep
          (r.data.take (o.bsz - cur.length))
          (by rw [List.length_append, htaken]; omega) w.srcOff
        have hdrop : r'.data.length = r.data.length - (o.bsz - cur.length) := by
          rw [hdata, List.length_drop]
        obtain ⟨w'', ps', cur', hloop, hopen'⟩ := ih hopen r' (by rwa [herr])
          (n + (o.bsz - cur.length)) (by omega)
        refine ⟨w'', ps', cur', ?_, ?_⟩
        · simp only [readFromLoop, hoff, hlen, hread, hnone, htaken]
          simp only [blk, Option.getD_some] at hrun ⊢
          rw [hrun]
          simp only
          rw [hloop, hdrop, Nat.add_assoc, Nat.add_sub_cancel' hfull]
        · rwa [hdata, List.append_assoc, List.take_append_drop] at hopen'
      · -- the source ends in this block
        have hall : r.data.take (o.bsz - cur.length) = r.data := List.take_of_length_le (by omega)
        have hend : ∃ e, r.fullErr (o.bsz - cur.length) = some e
            ∧ (e = .eof ∨ e = .unexpectedEOF) := by
          rw [Rd.fullErr, if_neg hfull]
          by_cases hnil : r.data ≠ [] ∧ r.err = .eof
          · exact ⟨_, if_pos hnil, .inr rfl⟩
          · exact ⟨_, if_neg hnil, heof⟩
        obtain ⟨e, hfe, hor⟩ := hend
        have hcopied := h.holds.copy r.data (by omega)
        have hadd := h.cutting.add r.data (by rw [List.length_append]; omega)
        refine ⟨_, ps, cur ++ r.data, ?_, h.wrote.with_blk _ _, hcopied, hadd⟩
        have hcast : w.srcOff + (r.data.length : ℤ) = ((cur.length + r.data.length : ℕ) : ℤ) := by
          rw [h.holds.off, Nat.cast_add]
        simp only [readFromLoop, hoff, hlen, hread, hfe, hall, if_pos hor]
        rw [hcast]

/-- `ReadFrom` takes all of such a source. -/
theorem readFrom_spec {w : SyncWriter Z} {o : OptsT} {segs : List Bytes} {seg : Bytes}
    (h : w.Live o segs seg) (hstate : w.state = none) (hindep : o.blockLinked = false)
    (r : Rd) (heof : r.err = .eof ∨ r.err = .unexpectedEOF) :
    ∃ w', w.readFrom .ok r = (⟨r.data.length, none⟩, w') ∧ w'.state = none
      ∧ w'.Live o segs (seg ++ r.data) := by
  obtain ⟨w₁, ps, cur, hhead, hopen⟩ := h.header
  obtain ⟨w₂, ps₂, cur₂, hloop, hopen₂⟩ := readFromLoop_spec (r.data.length + 2) hopen hindep
    r heof 0 (by omega)
  refine ⟨{ w₂ with state := none }, ?_, rfl, .inl ⟨ps₂, cur₂, ?_⟩⟩
  · simp only [readFrom, hstate, _readFrom, hhead, hloop, Nat.zero_add]
  · have hsame : ({ w₂ with state := none } : SyncWriter Z) = w₂ := by rw [← hopen₂.wrote.state]
    rwa [hsame]

/-! ## Ending a segment -/

/-- `_flush` makes what is held the last block of the segment. -/
theorem _flush_spec {w : SyncWriter Z} {o : OptsT} {segs : List Bytes} {seg : Bytes}
    {ps : List Bytes} {cur : Bytes} (h : w.Open o segs seg ps cur)
    (hindep : o.blockLinked = false) :
    ∃ w' ps', w._flush .ok = (none, w') ∧ w'.Open o (segs ++ [seg]) [] ps' [] := by
  have hlt := h.cutting.length_lt
  have hcut := h.cutting.flush o.bsz_pos
  by_cases hnil : cur = []
  · subst hnil
    have hoff : w.srcOff = 0 := h.holds.off
    refine ⟨w, ps ++ cut o.bsz [], by rw [_flush, if_pos (by omega)], ?_, h.holds, hcut⟩
    rw [cut_nil, List.append_nil]
    exact h.wrote
  · have hpos := List.length_pos_iff.mpr hnil
    have hoff : w.srcOff.toNat = cur.length := by rw [h.holds.off, Int.toNat_natCast]
    obtain ⟨w', hrun, hwrote, hblk, -⟩ := _writeFrame_spec h.wrote hindep cur (by omega)
    have hblk' : w'.blk = w.blk := by rw [blk, hblk, blk]
    rw [cut_of_le o.bsz_pos hnil (Nat.le_of_lt hlt)] at hcut
    refine ⟨{ w' with srcOff := 0 }, ps ++ [cur], ?_, hwrote.with_blk w'.srcBlk 0, ⟨rfl, ?_, ?_, rfl⟩,
      hcut⟩
    · rw [_flush, if_neg (by rw [h.holds.off]; omega), hoff, h.holds.take, hrun]
    · change w'.srcBlk = some w'.blk
      rw [hblk, hblk']
      exact h.holds.some
    · change w'.blk.length = o.bsz
      rw [hblk']
      exact h.holds.length

/-- `Flush` ends the segment. -/
theorem flush_spec {w : SyncWriter Z} {o : OptsT} {segs : List Bytes} {seg : Bytes}
    (h : w.Live o segs seg) (hstate : w.state = none) (hindep : o.blockLinked = false) :
    ∃ w', w.flush .ok = (⟨0, none⟩, w') ∧ w'.state = none ∧ w'.Live o (segs ++ [seg]) [] := by
  rcases h with ⟨ps, cur, hopen⟩ | ⟨hfresh, -, hcut⟩
  · obtain ⟨w', ps', hrun, hopen'⟩ := _flush_spec hopen hindep
    have hsame : ({ w' with state := none } : SyncWriter Z) = w' := by rw [← hopen'.wrote.state]
    refine ⟨w', ?_, hopen'.wrote.state, .inl ⟨ps', [], hopen'⟩⟩
    simp only [flush, hstate, hrun, hsame]
  · have hrun : w._flush .ok = (none, w) := by
      rw [_flush, if_pos (by rw [hfresh.off]; omega)]
    have hsame : ({ w with state := none } : SyncWriter Z) = w := by rw [← hstate]
    refine ⟨w, by simp only [flush, hstate, hrun, hsame], hstate, .inr ⟨hfresh, hstate, ?_⟩⟩
    have hflush := hcut.flush o.bsz_pos
    rwa [cut_nil, List.append_nil] at hflush

/-- The writer at the end of its life: header, blocks and trailer are out. -/
structure Closed (w : SyncWriter Z) (o : OptsT) (ps : List Bytes) : Prop where
  passed : passed w.calls
    = headerBytes o ++ (encoded Z o ps).1.flatten ++ trailerBytes (contentHash o ps)
  progress : w.progress = marks 0 (headerBytes o).length ps (encoded Z o ps).1
  state : w.state = some (.const .errClosed)

theorem closeTrailer_spec {w : SyncWriter Z} {o : OptsT} {ps : List Bytes} (h : w.Wrote o ps)
    (b : Option Bytes) (off : ℤ) :
    ∃ w', ({ w with srcBlk := b, srcOff := off } : SyncWriter Z).closeTrailer .ok = (none, w')
      ∧ w'.Closed o ps := by
  refine ⟨_, rfl, ?_, h.progress, rfl⟩
  have hhash : (w.srcHash.map (fun h : XXHZero => h.sum32)) = contentHash o ps := by
    rw [h.srcHash, contentHash]
    split_ifs <;> rfl
  simp only [hhash, passed_append, h.passed]
  simp [Plz4.passed]

/-- `Close` ends the last segment and writes the trailer. -/
theorem close_spec {w : SyncWriter Z} {o : OptsT} {segs : List Bytes} {seg : Bytes}
    (h : w.Live o segs seg) (hindep : o.blockLinked = false) :
    ∃ w', w.close .ok = (⟨0, none⟩, w')
      ∧ w'.Closed o ((segs ++ [seg]).flatMap (cut o.bsz)) := by
  rcases h with ⟨ps, cur, hopen⟩ | ⟨hfresh, hstate, hcut⟩
  · obtain ⟨w₁, ps₁, hrun, hopen₁⟩ := _flush_spec hopen hindep
    obtain ⟨w₂, htrailer, hclosed⟩ := closeTrailer_spec hopen₁.wrote none 0
    rw [hopen₁.cutting.pieces_eq] at hclosed
    rw [hopen₁.wrote.state] at htrailer
    refine ⟨w₂, ?_, hclosed⟩
    have hneg : ¬ w.srcOff < 0 := by
      rw [hopen.holds.off]
      omega
    simp only [close, hopen.holds.some, if_neg hneg, hrun, hopen₁.wrote.state, htrailer]
  · obtain ⟨w₁, hrun, hwrote, -, -⟩ := hfresh.header
    obtain ⟨w₂, htrailer, hclosed⟩ := closeTrailer_spec hwrote none 0
    have hflush := (hcut.flush o.bsz_pos).pieces_eq
    rw [cut_nil, List.append_nil] at hflush
    rw [hflush] at hclosed
    rw [hwrote.state] at htrailer
    refine ⟨w₂, ?_, hclosed⟩
    have hneg : w.srcOff < 0 := by
      rw [hfresh.off]
      omega
    simp only [close, hfresh.some, if_pos hneg, hrun, hwrote.state, htrailer]

/-! ## A whole life -/

/-- The calls of a life, from any point on, with their results. -/
theorem runCalls_spec {w : SyncWriter Z} {o : OptsT} {segs : List Bytes} {seg : Bytes}
    (h : w.Live o segs seg) (hstate : w.state = none) (hindep : o.blockLinked = false)
    (fs : List Feed) :
    ∃ rs w', w.runCalls .ok (Feed.script fs) = (rs, w')
      ∧ rs = fs.map (fun f => ⟨f.bytes.length, none⟩) ++ [⟨0, none⟩]
      ∧ w'.Closed o ((segs ++ segmentsFrom seg fs).flatMap (cut o.bsz)) := by
  induction fs generalizing w segs seg with
  | nil =>
      obtain ⟨w', hrun, hclosed⟩ := close_spec h hindep
      refine ⟨_, w', ?_, rfl, hclosed⟩
      simp only [Feed.script, List.map_nil, List.nil_append, runCalls, call, hrun]
  | cons f fs ih =>
      -- one call, then the rest of the life
      obtain ⟨w₁, segs₁, seg₁, hrun, hstate₁, hlive, hseg⟩ : ∃ w₁ segs₁ seg₁,
          w.call .ok f.call = (⟨f.bytes.length, none⟩, w₁) ∧ w₁.state = none
            ∧ w₁.Live o segs₁ seg₁
            ∧ segs ++ segmentsFrom seg (f :: fs) = segs₁ ++ segmentsFrom seg₁ fs := by
        cases f with
        | write src =>
            obtain ⟨w₁, hrun, hstate₁, hlive⟩ := write_spec h hstate hindep src
            exact ⟨w₁, segs, seg ++ src, hrun, hstate₁, hlive, rfl⟩
        | readFrom r =>
            obtain ⟨w₁, hrun, hstate₁, hlive⟩ := readFrom_spec h hstate hindep r.rd (.inl r.eof)
            exact ⟨w₁, segs, seg ++ r.rd.data, hrun, hstate₁, hlive, rfl⟩
        | flush =>
            obtain ⟨w₁, hrun, hstate₁, hlive⟩ := flush_spec h hstate hindep
            refine ⟨w₁, segs ++ [seg], [], hrun, hstate₁, hlive, ?_⟩
            rw [segmentsFrom, List.append_assoc, List.singleton_append]
      obtain ⟨rs, w₂, hrest, hrs, hclosed⟩ := ih hlive hstate₁
      refine ⟨⟨f.bytes.length, none⟩ :: rs, w₂, ?_, by rw [hrs]; rfl, by rwa [hseg]⟩
      have hscript : Feed.script (f :: fs) = f.call :: Feed.script fs := rfl
      rw [hscript, runCalls, hrun]
      simp only [hrest]

end SyncWriter

/-- **The synchronous writer.** Whatever calls feed it, in whatever portions, every
call succeeds and the output is the header, the blocks of the segments between
flushes, and the trailer with the hash of the content; the `i`-th pair given to the
progress handler is the content before block `i` and the place of its size word, the
last one the content length and the place of the end mark. -/
theorem newSyncWriter_spec (Z : Clz4) (o : OptsT) (hsync : usesSyncWriter o = true)
    (buf : PoolBlk o.bsz) (fs : List Feed) :
    let r := (newSyncWriter Z o buf).runCalls .ok (Feed.script fs)
    let ps := pieces o.bsz fs
    let es := (encoded Z o ps).1
    r.1 = fs.map (fun f => ⟨f.bytes.length, none⟩) ++ [⟨0, none⟩]
      ∧ passed r.2.calls = headerBytes o ++ es.flatten ++ trailerBytes (contentHash o ps)
      ∧ (∀ p ∈ ps, p ≠ [] ∧ p.length ≤ o.bsz)
      ∧ ((content fs).length < 2 ^ 64 → contentHash o ps
          = if o.contentChecksum then some (checksumZero (content fs)) else none)
      ∧ r.2.progress.length = ps.length + 1
      ∧ (∀ i ≤ ps.length, r.2.progress[i]?
          = some ((ps.take i).flatten.length, (headerBytes o ++ (es.take i).flatten).length))
      ∧ ps.flatten = content fs := by
  have hindep : o.blockLinked = false := by
    rw [usesSyncWriter, Bool.and_eq_true, Bool.not_eq_true'] at hsync
    exact hsync.2
  obtain ⟨rs, w, hrun, hrs, hclosed⟩ :=
    SyncWriter.runCalls_spec (SyncWriter.live_new (Z := Z) o buf) rfl hindep fs
  have hps : ([] ++ segmentsFrom [] fs).flatMap (cut o.bsz) = pieces o.bsz fs := rfl
  have hflat := flatten_pieces o.bsz_pos fs
  have hlen := (length_encoded Z o (pieces o.bsz fs)).symm
  rw [hps] at hclosed
  simp only [hrun]
  refine ⟨hrs, hclosed.passed, fun p hp => mem_pieces o.bsz_pos hp, fun hlt => ?_, ?_, ?_, hflat⟩
  · rw [← hflat]
    exact contentHash_eq (by rwa [hflat])
  · rw [hclosed.progress, length_marks _ _ hlen]
  · intro i hi
    rw [hclosed.progress, getElem?_marks _ _ hlen hi, Nat.zero_add, List.length_append]

/-- Two writes and a flush between them, with 64 KiB blocks. -/
theorem newSyncWriter_spec_two_writes :
    passed ((newSyncWriter litEngine .sync64KB
        ⟨List.replicate OptsT.sync64KB.bsz 0, List.length_replicate⟩).runCalls .ok
        (Feed.script [.write [1, 2], .flush, .write [3]])).2.calls
      = headerBytes .sync64KB ++ (encoded litEngine .sync64KB [[1, 2], [3]]).1.flatten
        ++ trailerBytes (some (checksumZero [1, 2, 3])) := by
  obtain ⟨-, hpassed, -, hhash, -⟩ := newSyncWriter_spec litEngine .sync64KB (by decide)
    ⟨List.replicate OptsT.sync64KB.bsz 0, List.length_replicate⟩ [.write [1, 2], .flush, .write [3]]
  have hpieces : pieces OptsT.sync64KB.bsz [.write [1, 2], .flush, .write [3]] = [[1, 2], [3]] := by
    decide
  have hcontent : content [.write [1, 2], .flush, .write [3]] = [1, 2, 3] := by decide
  have hon : OptsT.sync64KB.contentChecksum = true := rfl
  rw [hpieces] at hpassed hhash
  rw [hhash (by rw [hcontent]; decide), hcontent, if_pos hon] at hpassed
  exact hpassed

end Plz4
