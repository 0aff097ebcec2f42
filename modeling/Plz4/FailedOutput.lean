/-
Output after a failed output: a run on a destination that fails, beside the run of the same
calls on one that does not.

The two are the same up to the first failed write. From there the asynchronous writer writes
no more, on any schedule. The synchronous one does not either, but for `Close`: it flushes
the block buffer in an error state too, and a block that failed on its way out of the buffer
is still in it.
-/
import Plz4.SyncCalls
import Plz4.AsyncWriterWritten

set_option autoImplicit false

namespace Plz4

variable {Z : Clz4}

/-! ## Logs that break off -/

/-- The destination took all of a write. -/
structure WrCall.Whole (c : WrCall) : Prop where
  err : c.err = none
  n : c.n = c.arg.length

/-- The log breaks off with a failed write, of which the other one passed on everything. -/
def Broke (cs cs' : List WrCall) : Prop :=
  ∃ pre p k e, cs = pre ++ [⟨p, k, some e⟩] ∧ (∀ c ∈ pre, c.Whole) ∧ passed pre ++ p <+: passed cs'

theorem accepted_whole {cs : List WrCall} (h : ∀ c ∈ cs, c.Whole) : accepted cs = passed cs := by
  apply List.flatMap_congr
  intro c hc
  rw [(h c hc).n, List.take_length]

theorem Broke.accepted_le {cs cs' : List WrCall} (h : Broke cs cs') : accepted cs <+: passed cs' := by
  obtain ⟨pre, p, k, e, rfl, hpre, hp⟩ := h
  refine List.IsPrefix.trans ?_ hp
  have hsplit : accepted (pre ++ [⟨p, k, some e⟩]) = passed pre ++ p.take k := by
    rw [← accepted_whole hpre, accepted, List.flatMap_append, List.flatMap_singleton]
    rfl
  rw [hsplit, List.prefix_append_right_inj]
  exact List.take_prefix k p

theorem Broke.last {cs cs' : List WrCall} (h : Broke cs cs') : ∀ c ∈ cs.dropLast, c.err = none := by
  obtain ⟨pre, p, k, e, rfl, hpre, -⟩ := h
  rw [List.dropLast_concat]
  exact fun c hc => (hpre c hc).err

theorem Broke.failed {cs cs' : List WrCall} (h : Broke cs cs') : ∃ c ∈ cs, c.err ≠ none := by
  obtain ⟨pre, p, k, e, rfl, -, -⟩ := h
  exact ⟨⟨p, k, some e⟩, List.mem_append_right _ (List.mem_singleton.mpr rfl), by rintro ⟨⟩⟩

theorem Broke.grow {cs cs' : List WrCall} (h : Broke cs cs') (xs : List WrCall) :
    Broke cs (cs' ++ xs) := by
  obtain ⟨pre, p, k, e, hcs, hpre, hp⟩ := h
  refine ⟨pre, p, k, e, hcs, hpre, hp.trans ?_⟩
  rw [passed_append]
  exact List.prefix_append _ _

theorem Broke.write {cs : List WrCall} (h : ∀ c ∈ cs, c.Whole) (p : Bytes) (k : ℕ) (e : Err) :
    Broke (cs ++ [⟨p, k, some e⟩]) (cs ++ [⟨p, p.length, none⟩]) := by
  refine ⟨cs, p, k, e, rfl, h, ?_⟩
  rw [passed_append, passed, passed, List.flatMap_singleton]

theorem whole_concat {cs : List WrCall} (h : ∀ c ∈ cs, c.Whole) (p : Bytes) :
    ∀ c ∈ cs ++ [⟨p, p.length, none⟩], c.Whole := by
  intro c hc
  rcases List.mem_append.mp hc with hc | hc
  · exact h c hc
  · rw [List.mem_singleton.mp hc]
    exact ⟨rfl, rfl⟩

/-! ## The synchronous writer -/

namespace SyncWriter

open CopyAt

/-- What an operation does on the failing destination and on the other, from one writer:
either the same, with no failure so far, or it fails where the other one goes on. -/
inductive Beside {α : Type} (err : α → Option Err) :
    α × SyncWriter Z → α × SyncWriter Z → Prop
  | same {r : α × SyncWriter Z} (h : ∀ c ∈ r.2.calls, c.Whole) : Beside err r r
  | broke {r v : α × SyncWriter Z} (herr : err r.1 ≠ none) (h : Broke r.2.calls v.2.calls) :
      Beside err r v

/-- The other run goes on. -/
theorem stable_broke (cs : List WrCall) :
    Stable (Z := Z) .ok (fun v => Broke cs v.calls) where
  buf _ _ _ h := h
  state _ _ h := h
  source _ _ h := h
  header v h := h.grow _
  frame v src h := by
    have hframed := framed .ok v src
    generalize v._writeFrame .ok src = r at hframed ⊢
    cases hframed with
    | unmade => exact h
    | failed | wrote => exact h.grow _
  trailer v h := h.grow _

variable {w : SyncWriter Z} (wr : WrPlan)

theorem _writeHeader_beside (h : ∀ c ∈ w.calls, c.Whole) :
    Beside id (w._writeHeader wr) (w._writeHeader .ok) := by
  rcases hwr : wr w.calls.length with _ | ⟨k, e⟩
  · have heq : w._writeHeader wr = w._writeHeader .ok := by
      simp only [_writeHeader, writeHeader, wrWrite, hwr, WrPlan.ok]
    rw [heq]
    exact .same (whole_concat h _)
  · refine .broke ?_ ?_
    · simp only [_writeHeader, writeHeader, wrWrite, hwr, Option.map_some]
      rintro ⟨⟩
    · simp only [_writeHeader, writeHeader, wrWrite, hwr, Option.map_some]
      exact .write h _ _ _

theorem _writeFrame_beside (h : ∀ c ∈ w.calls, c.Whole) (src : Bytes) :
    Beside id (w._writeFrame wr src) (w._writeFrame .ok src) := by
  have hfail := framed wr w src
  have hgood := framed .ok w src
  generalize w._writeFrame wr src = r at hfail ⊢
  generalize w._writeFrame .ok src = v at hgood ⊢
  cases hfail with
  | unmade hmade =>
      cases hgood with
      | unmade hmade' =>
          rw [hmade] at hmade'
          cases hmade'
          exact .same h
      | failed hmade' | wrote hmade' =>
          rw [hmade] at hmade'
          cases hmade'
  | failed hmade =>
      cases hgood with
      | unmade hmade' =>
          rw [hmade] at hmade'
          cases hmade'
      | failed _ hwr => cases hwr
      | wrote hmade' =>
          rw [hmade] at hmade'
          cases hmade'
          -- the same frame, of which one destination took only a part
          exact .broke (by rintro ⟨⟩) (.write h _ _ _)
  | wrote hmade =>
      cases hgood with
      | unmade hmade' =>
          rw [hmade] at hmade'
          cases hmade'
      | failed _ hwr => cases hwr
      | wrote hmade' =>
          rw [hmade] at hmade'
          cases hmade'
          exact .same (whole_concat h _)

theorem _writeHeader_log (w : SyncWriter Z) :
    ∃ x, (w._writeHeader wr).2.calls = w.calls ++ [x] := by
  rcases hwr : wr w.calls.length with _ | ⟨k, e⟩
  · simp only [_writeHeader, writeHeader, wrWrite, hwr, Option.map_none]
    exact ⟨_, rfl⟩
  · simp only [_writeHeader, writeHeader, wrWrite, hwr, Option.map_some]
    exact ⟨_, rfl⟩

theorem closeTrailer_log (w : SyncWriter Z) :
    ∃ x, (w.closeTrailer wr).2.calls = w.calls ++ [x] := by
  rcases hwr : wr w.calls.length with _ | ⟨k, e⟩
  · simp only [closeTrailer, wrWrite, hwr]
    exact ⟨_, rfl⟩
  · simp only [closeTrailer, wrWrite, hwr]
    exact ⟨_, rfl⟩

theorem closeTrailer_beside (h : ∀ c ∈ w.calls, c.Whole) :
    Beside id (w.closeTrailer wr) (w.closeTrailer .ok) := by
  rcases hwr : wr w.calls.length with _ | ⟨k, e⟩
  · have heq : w.closeTrailer wr = w.closeTrailer .ok := by
      simp only [closeTrailer, wrWrite, hwr, WrPlan.ok]
    rw [heq]
    exact .same (whole_concat h _)
  · refine .broke ?_ ?_
    · simp only [closeTrailer, wrWrite, hwr]
      rintro ⟨⟩
    · simp only [closeTrailer, wrWrite, hwr]
      exact .write h _ _ _

/-! ### Operations

Each goes on from what a part of it returned: `Beside.next`. -/

/-- What is done next with the results, `F` here and `G` there. -/
theorem Beside.next {α β : Type} {err : α → Option Err} {err' : β → Option Err}
    {r v : α × SyncWriter Z} (h : Beside err r v) {F G : α × SyncWriter Z → β × SyncWriter Z}
    (hsame : ∀ r : α × SyncWriter Z, (∀ c ∈ r.2.calls, c.Whole) → Beside err' (F r) (G r))
    (hstop : ∀ r : α × SyncWriter Z, err r.1 ≠ none →
      err' (F r).1 ≠ none ∧ (F r).2.calls = r.2.calls)
    (hgo : ∀ (cs : List WrCall) (v : α × SyncWriter Z), Broke cs v.2.calls →
      Broke cs (G v).2.calls) :
    Beside err' (F r) (G v) := by
  cases h with
  | same hr => exact hsame r hr
  | broke herr hbroke =>
      obtain ⟨herr', hcalls⟩ := hstop r herr
      refine .broke herr' ?_
      rw [hcalls]
      exact hgo _ v hbroke

theorem begin_beside (h : ∀ c ∈ w.calls, c.Whole) :
    Beside id (if w.srcOff < 0 then w._writeHeader wr else (none, w))
      (if w.srcOff < 0 then w._writeHeader .ok else (none, w)) := by
  by_cases hoff : w.srcOff < 0
  · rw [if_pos hoff, if_pos hoff]
    exact _writeHeader_beside wr h
  · rw [if_neg hoff, if_neg hoff]
    exact .same h

theorem fillBlk_beside (h : ∀ c ∈ w.calls, c.Whole) (src : Bytes) :
    Beside Prod.snd (w.fillBlk wr src) (w.fillBlk .ok src) := by
  unfold fillBlk
  simp only
  split_ifs
  · have hframe := _writeFrame_beside (w := { w with
      srcBlk := some (copyAt w.blk w.srcOff.toNat src)
      srcOff := w.srcOff + copyLen w.blk w.srcOff.toNat src }) wr h
      (copyAt w.blk w.srcOff.toNat src)
    simp only [blk, Option.getD_some] at hframe ⊢
    generalize _writeFrame wr _ _ = r at hframe ⊢
    generalize _writeFrame .ok _ _ = v at hframe ⊢
    apply Beside.next hframe
    · rintro ⟨_ | e, w'⟩ hr
      · exact .same hr
      · exact .same hr
    · rintro ⟨_ | e, w'⟩ herr
      · exact absurd rfl herr
      · exact ⟨herr, rfl⟩
    · rintro cs ⟨_ | e, v'⟩ hb
      · exact hb
      · exact hb
  · exact .same h

theorem writeLoop_beside (k : ℕ) (h : ∀ c ∈ w.calls, c.Whole) (src : Bytes) (n : ℕ) :
    Beside Prod.snd (writeLoop wr k w src n) (writeLoop .ok k w src n) := by
  induction k generalizing w src n with
  | zero => exact .same h
  | succ k ih =>
      unfold writeLoop
      split_ifs
      · exact .same h
      · have hframe := _writeFrame_beside wr h (src.take w.bsz)
        generalize w._writeFrame wr (src.take w.bsz) = r at hframe ⊢
        generalize w._writeFrame .ok (src.take w.bsz) = v at hframe ⊢
        apply Beside.next hframe
        · rintro ⟨_ | e, w'⟩ hr
          · exact ih hr _ _
          · exact .same hr
        · rintro ⟨_ | e, w'⟩ herr
          · exact absurd rfl herr
          · exact ⟨herr, rfl⟩
        · rintro cs ⟨_ | e, v'⟩ hb
          · exact (stable_broke cs).writeLoop k hb _ _
          · exact hb
      · exact @ih { w with srcBlk := some (copyAt w.blk 0 src), srcOff := copyLen w.blk 0 src } h _ _

theorem _write_beside (h : ∀ c ∈ w.calls, c.Whole) (src : Bytes) :
    Beside Prod.snd (w._write wr src) (w._write .ok src) := by
  have hbegin := begin_beside wr h
  unfold _write
  generalize (if w.srcOff < 0 then w._writeHeader wr else (none, w)) = r at hbegin ⊢
  generalize (if w.srcOff < 0 then w._writeHeader .ok else (none, w)) = v at hbegin ⊢
  apply Beside.next hbegin
  · rintro ⟨_ | e, w₁⟩ hr
    · -- a block begun before is filled up first
      have hfill : Beside Prod.snd
          (if w₁.srcOff > 0 then w₁.fillBlk wr src else ((0, none), w₁))
          (if w₁.srcOff > 0 then w₁.fillBlk .ok src else ((0, none), w₁)) := by
        split_ifs
        · exact fillBlk_beside wr hr src
        · exact .same hr
      simp only
      generalize (if w₁.srcOff > 0 then w₁.fillBlk wr src else ((0, none), w₁)) = r at hfill ⊢
      generalize (if w₁.srcOff > 0 then w₁.fillBlk .ok src else ((0, none), w₁)) = v at hfill ⊢
      apply Beside.next hfill
      · rintro ⟨⟨n, _ | e⟩, w₂⟩ hr
        · exact writeLoop_beside wr _ hr _ _
        · exact .same hr
      · rintro ⟨⟨n, _ | e⟩, w₂⟩ herr
        · exact absurd rfl herr
        · exact ⟨herr, rfl⟩
      · rintro cs ⟨⟨n, _ | e⟩, v₂⟩ hb
        · exact (stable_broke cs).writeLoop _ hb _ _
        · exact hb
    · exact .same hr
  · rintro ⟨_ | e, w₁⟩ herr
    · exact absurd rfl herr
    · exact ⟨herr, rfl⟩
  · rintro cs ⟨_ | e, v₁⟩ hb
    · -- the header failed: the other writer goes on, and only adds to its log
      have hfill : Broke cs (if v₁.srcOff > 0 then v₁.fillBlk .ok src else ((0, none), v₁)).2.calls := by
        split_ifs
        · exact (stable_broke cs).fillBlk hb src
        · exact hb
      simp only
      generalize (if v₁.srcOff > 0 then v₁.fillBlk .ok src else ((0, none), v₁)) = v at hfill ⊢
      obtain ⟨⟨n, _ | e⟩, v₂⟩ := v
      · exact (stable_broke cs).writeLoop _ hfill _ _
      · exact hfill
    · exact hb

theorem readFromLoop_beside (k : ℕ) (h : ∀ c ∈ w.calls, c.Whole) (r : Rd) (n : ℕ) :
    Beside Prod.snd (readFromLoop wr k w r n) (readFromLoop .ok k w r n) := by
  induction k generalizing w r n with
  | zero => exact .same h
  | succ k ih =>
      simp only [readFromLoop]
      rcases r.readFull (w.blk.length - w.srcOff.toNat) with ⟨d, _ | e, r'⟩
      · have hframe := _writeFrame_beside
          (w := { w with srcBlk := some (copyAt w.blk w.srcOff.toNat d) }) wr h
          (copyAt w.blk w.srcOff.toNat d)
        simp only [blk, Option.getD_some] at hframe ⊢
        generalize _writeFrame wr _ _ = x at hframe ⊢
        generalize _writeFrame .ok _ _ = v at hframe ⊢
        apply Beside.next hframe
        · rintro ⟨_ | e, w'⟩ hx
          · exact @ih { w' with srcOff := 0 } hx _ _
          · exact .same hx
        · rintro ⟨_ | e, w'⟩ herr
          · exact absurd rfl herr
          · exact ⟨herr, rfl⟩
        · rintro cs ⟨_ | e, v'⟩ hb
          · exact (stable_broke cs).readFromLoop k (w := { v' with srcOff := 0 }) hb _ _
          · exact hb
      · simp only
        split_ifs
        · exact .same h
        · exact .same h

theorem _readFrom_beside (h : ∀ c ∈ w.calls, c.Whole) (r : Rd) :
    Beside Prod.snd (w._readFrom wr r) (w._readFrom .ok r) := by
  have hbegin := begin_beside wr h
  unfold _readFrom
  generalize (if w.srcOff < 0 then w._writeHeader wr else (none, w)) = x at hbegin ⊢
  generalize (if w.srcOff < 0 then w._writeHeader .ok else (none, w)) = v at hbegin ⊢
  apply Beside.next hbegin
  · rintro ⟨_ | e, w₁⟩ hx
    · exact readFromLoop_beside wr _ hx r 0
    · exact .same hx
  · rintro ⟨_ | e, w₁⟩ herr
    · exact absurd rfl herr
    · exact ⟨herr, rfl⟩
  · rintro cs ⟨_ | e, v₁⟩ hb
    · exact (stable_broke cs).readFromLoop _ hb _ _
    · exact hb

theorem _flush_beside (h : ∀ c ∈ w.calls, c.Whole) : Beside id (w._flush wr) (w._flush .ok) := by
  unfold _flush
  split_ifs
  · exact .same h
  · have hframe := _writeFrame_beside wr h (w.blk.take w.srcOff.toNat)
    generalize w._writeFrame wr (w.blk.take w.srcOff.toNat) = r at hframe ⊢
    generalize w._writeFrame .ok (w.blk.take w.srcOff.toNat) = v at hframe ⊢
    apply Beside.next hframe
    · rintro ⟨_ | e, w'⟩ hr
      · exact .same hr
      · exact .same hr
    · rintro ⟨_ | e, w'⟩ herr
      · exact absurd rfl herr
      · exact ⟨herr, rfl⟩
    · rintro cs ⟨_ | e, v'⟩ hb
      · exact hb
      · exact hb

/-! ### Calls -/

/-- The writer on the failing destination beside the one on the other: they are the same, or
the log of the first broke off and it is in an error state. -/
def Apart (w v : SyncWriter Z) : Prop :=
  w = v ∧ (∀ c ∈ w.calls, c.Whole) ∨ Broke w.calls v.calls ∧ w.state ≠ none

/-- An operation after which the error is the state. -/
theorem Beside.apart {α : Type} {err : α → Option Err} {r v : α × SyncWriter Z}
    (h : Beside err r v) :
    Apart { r.2 with state := err r.1 } { v.2 with state := err v.1 } := by
  cases h with
  | same hr => exact .inl ⟨rfl, hr⟩
  | broke herr hbroke => exact .inr ⟨hbroke, herr⟩

/-- `Close` tries the flush again: a write has failed, and the block buffer is there with
bytes in it. -/
def Retries (w : SyncWriter Z) : Prop :=
  (∃ c ∈ w.calls, c.err ≠ none) ∧ w.srcBlk ≠ none ∧ w.srcOff ≠ 0

/-- `Close` when its flush fails. -/
theorem close_fails (hblk : w.srcBlk ≠ none)
    (herr : (if w.srcOff < 0 then w._writeHeader wr else w._flush wr).1 ≠ none) :
    (w.close wr).2.calls = (if w.srcOff < 0 then w._writeHeader wr else w._flush wr).2.calls
      ∧ (w.close wr).2.state ≠ none := by
  unfold close
  split
  · exact absurd ‹_› hblk
  · generalize (if w.srcOff < 0 then w._writeHeader wr else w._flush wr) = r at herr ⊢
    obtain ⟨_ | e, w'⟩ := r
    · exact absurd rfl herr
    · simp only
      split
      · rename_i hstate
        exact ⟨rfl, by rw [hstate]; rintro ⟨⟩⟩
      · exact ⟨rfl, by rintro ⟨⟩⟩
      · rename_i hnone
        cases hnone

/-- `Close` of both. Once the one has broken off, the other goes on as it does after any
flush. -/
theorem close_apart (h : ∀ c ∈ w.calls, c.Whole) : Apart (w.close wr).2 (w.close .ok).2 := by
  by_cases hblk : w.srcBlk = none
  · simp only [close, hblk]
    exact .inl ⟨rfl, h⟩
  have hbegin : Beside id (if w.srcOff < 0 then w._writeHeader wr else w._flush wr)
      (if w.srcOff < 0 then w._writeHeader .ok else w._flush .ok) := by
    split_ifs
    · exact _writeHeader_beside wr h
    · exact _flush_beside wr h
  generalize hr : (if w.srcOff < 0 then w._writeHeader wr else w._flush wr) = r at hbegin
  generalize hv : (if w.srcOff < 0 then w._writeHeader .ok else w._flush .ok) = v at hbegin
  cases hbegin with
  | same hwhole =>
      unfold close
      split
      · exact .inl ⟨rfl, h⟩
      rw [hr, hv]
      obtain ⟨err, w'⟩ := r
      simp only
      split
      · exact .inl ⟨rfl, hwhole⟩
      · exact .inl ⟨rfl, hwhole⟩
      · -- the content is out: the trailer is the last write
        have htrailer := closeTrailer_beside (w := { w' with srcBlk := none, srcOff := 0 }) wr hwhole
        have hstate : (({ w' with srcBlk := none, srcOff := 0 } : SyncWriter Z).closeTrailer
            wr).2.state ≠ none := by rintro ⟨⟩
        generalize closeTrailer wr _ = r at htrailer hstate ⊢
        generalize closeTrailer .ok _ = v at htrailer ⊢
        cases htrailer with
        | same ht => exact .inl ⟨rfl, ht⟩
        | broke _ hbroke => exact .inr ⟨hbroke, hstate⟩
  | broke herr hbroke =>
      subst hr hv
      obtain ⟨hcalls, hstate⟩ := close_fails wr hblk herr
      refine .inr ⟨?_, hstate⟩
      rw [hcalls]
      exact (stable_broke _).close_end hblk hbroke

/-- A call in an error state leaves the log, unless it is a `Close` that flushes again. -/
theorem call_state {w : SyncWriter Z} (h : w.state ≠ none) {c : WCall}
    (hclose : c = .close → w.srcBlk ≠ none → w.srcOff = 0) :
    (w.call wr c).2.calls = w.calls ∧ (w.call wr c).2.state ≠ none := by
  obtain ⟨e, hstate⟩ := Option.ne_none_iff_exists'.mp h
  cases c with
  | write src =>
      show (w.write wr src).2.calls = _ ∧ (w.write wr src).2.state ≠ none
      simp only [write, hstate]
      exact ⟨trivial, by rintro ⟨⟩⟩
  | readFrom r =>
      show (w.readFrom wr r).2.calls = _ ∧ (w.readFrom wr r).2.state ≠ none
      simp only [readFrom, hstate]
      exact ⟨trivial, by rintro ⟨⟩⟩
  | flush =>
      show (w.flush wr).2.calls = _ ∧ (w.flush wr).2.state ≠ none
      simp only [flush, hstate]
      exact ⟨trivial, by rintro ⟨⟩⟩
  | close =>
      show (w.close wr).2.calls = _ ∧ (w.close wr).2.state ≠ none
      unfold close
      split
      · exact ⟨rfl, h⟩
      · rename_i hblk
        have hoff := hclose rfl (by rw [hblk]; rintro ⟨⟩)
        rw [if_neg (by omega), _flush, if_pos (by omega)]
        simp only [hstate]
        exact ⟨trivial, by rintro ⟨⟩⟩

theorem call_same (h : ∀ c ∈ w.calls, c.Whole) (c : WCall) :
    Apart (w.call wr c).2 (w.call .ok c).2 := by
  cases c with
  | write src =>
      show Apart (w.write wr src).2 (w.write .ok src).2
      unfold write
      split
      · exact .inl ⟨rfl, h⟩
      · exact (_write_beside wr h src).apart
  | readFrom r =>
      show Apart (w.readFrom wr r).2 (w.readFrom .ok r).2
      unfold readFrom
      split
      · exact .inl ⟨rfl, h⟩
      · exact (_readFrom_beside wr h r).apart
  | flush =>
      show Apart (w.flush wr).2 (w.flush .ok).2
      unfold flush
      split
      · exact .inl ⟨rfl, h⟩
      · exact (_flush_beside wr h).apart
  | close => exact close_apart wr h

/-- A call on both, when it is not a `Close` that flushes again. -/
theorem call_apart {w v : SyncWriter Z} (h : Apart w v) {c : WCall}
    (hclose : c = .close → ¬ w.Retries) : Apart (w.call wr c).2 (v.call .ok c).2 := by
  rcases h with ⟨rfl, hwhole⟩ | ⟨hbroke, hstate⟩
  · exact call_same wr hwhole c
  · obtain ⟨hcalls, hstate'⟩ := call_state wr hstate (c := c) (by
      intro hc hblk
      by_contra hoff
      exact hclose hc ⟨hbroke.failed, hblk, hoff⟩)
    refine .inr ⟨?_, hstate'⟩
    rw [hcalls]
    exact (stable_broke w.calls).call hbroke c

/-- No `Close` of the calls comes while a block that a failed write left in the buffer is
still there. -/
def NoRetry (wr : WrPlan) (w : SyncWriter Z) (cs : List WCall) : Prop :=
  ∀ pre rest, cs = pre ++ .close :: rest → ¬ (w.runCalls wr pre).2.Retries

theorem runCalls_apart {w v : SyncWriter Z} (h : Apart w v) {cs : List WCall}
    (hclose : w.NoRetry wr cs) : Apart (w.runCalls wr cs).2 (v.runCalls .ok cs).2 := by
  induction cs generalizing w v with
  | nil => exact h
  | cons c cs ih =>
      apply ih (call_apart wr h ?_)
      · intro pre rest hcs
        exact hclose (c :: pre) rest (by rw [hcs, List.cons_append])
      · rintro rfl
        exact hclose [] cs rfl

theorem Apart.log {w v : SyncWriter Z} (h : Apart w v) :
    (∀ c ∈ w.calls.dropLast, c.err = none) ∧ accepted w.calls <+: passed v.calls := by
  rcases h with ⟨rfl, hwhole⟩ | ⟨hbroke, -⟩
  · refine ⟨fun c hc => (hwhole c (List.mem_of_mem_dropLast hc)).err, ?_⟩
    rw [accepted_whole hwhole]
  · exact ⟨hbroke.last, hbroke.accepted_le⟩

/-! ### A `Close` that flushes again -/

/-- The log of writes only grows. -/
theorem stable_log (wr : WrPlan) (cs : List WrCall) :
    Stable (Z := Z) wr (fun w => cs <+: w.calls) where
  buf _ _ _ h := h
  state _ _ h := h
  source _ _ h := h
  header w h := by
    obtain ⟨x, hx⟩ := _writeHeader_log wr w
    rw [hx]
    exact h.trans (List.prefix_append _ _)
  frame w src h := by
    have hframed := framed wr w src
    generalize w._writeFrame wr src = r at hframed ⊢
    cases hframed with
    | unmade => exact h
    | failed | wrote => exact h.trans (List.prefix_append _ _)
  trailer w h := by
    obtain ⟨x, hx⟩ := closeTrailer_log wr w
    rw [hx]
    exact h.trans (List.prefix_append _ _)

theorem runCalls_append (wr : WrPlan) (w : SyncWriter Z) (pre rest : List WCall) :
    (w.runCalls wr (pre ++ rest)).2 = ((w.runCalls wr pre).2.runCalls wr rest).2 := by
  induction pre generalizing w with
  | nil => rfl
  | cons c pre ih => exact ih (w.call wr c).2

/-- A block leaves the buffer. -/
theorem _writeFrame_keeps (w : SyncWriter Z) (src : Bytes) :
    (w._writeFrame wr src).2.srcBlk = w.srcBlk ∧ (w._writeFrame wr src).2.srcOff = w.srcOff := by
  have hframed := framed wr w src
  generalize w._writeFrame wr src = r at hframed ⊢
  cases hframed with
  | unmade | failed | wrote => exact ⟨rfl, rfl⟩

/-- A block of a made writer is written, with or without success. -/
theorem _writeFrame_log {o : OptsT} (hmade : Made o w) (hindep : o.blockLinked = false)
    (src : Bytes) : ∃ b n, (w._writeFrame wr src).2.calls
      = w.calls ++ [⟨b, n, (w._writeFrame wr src).1⟩]
        ∧ (w._writeFrame wr src).1 = (wr w.calls.length).map Prod.snd := by
  have hframed := framed wr w src
  generalize w._writeFrame wr src = r at hframed ⊢
  cases hframed with
  | unmade hun =>
      have hok := compressToBlk_isOk (Z := Z) hmade.reach (.inl hindep) src none
      rw [made, hmade.opts, hmade.bsz] at hun
      rw [hun] at hok
      cases hok
  | failed _ hwr => exact ⟨_, _, rfl, by rw [hwr]; rfl⟩
  | wrote _ hwr => exact ⟨_, _, rfl, by rw [hwr]; rfl⟩

/-- Where blocks are made, such a `Close` writes. -/
theorem close_retries {o : OptsT} (hmade : Made o w) (hindep : o.blockLinked = false)
    (h : w.Retries) : ∃ x, w.calls ++ [x] <+: (w.close wr).2.calls := by
  obtain ⟨-, hblk, hoff⟩ := h
  have hflush : ∃ x, (if w.srcOff < 0 then w._writeHeader wr else w._flush wr).2.calls
      = w.calls ++ [x] := by
    split_ifs with hneg
    · exact _writeHeader_log wr w
    · rw [_flush, if_neg (by omega)]
      obtain ⟨b, n, hlog, -⟩ := _writeFrame_log wr hmade hindep (w.blk.take w.srcOff.toNat)
      generalize w._writeFrame wr (w.blk.take w.srcOff.toNat) = r at hlog ⊢
      obtain ⟨_ | e, w'⟩ := r
      · exact ⟨_, hlog⟩
      · exact ⟨_, hlog⟩
  obtain ⟨x, hx⟩ := hflush
  refine ⟨x, (stable_log wr _).close_end hblk ?_⟩
  rw [hx]

/-- A flush of bytes in the buffer whose write fails leaves them there. -/
theorem flush_retries {o : OptsT} (hmade : Made o w) (hindep : o.blockLinked = false)
    (hstate : w.state = none) (hblk : w.srcBlk ≠ none) (hoff : 0 < w.srcOff) {k : ℕ} {e : Err}
    (hwr : wr w.calls.length = some (k, e)) : (w.flush wr).2.Retries := by
  simp only [flush, hstate, _flush, if_neg (not_le.mpr hoff)]
  obtain ⟨b, n, hlog, herr⟩ := _writeFrame_log wr hmade hindep (w.blk.take w.srcOff.toNat)
  have hkept := _writeFrame_keeps wr w (w.blk.take w.srcOff.toNat)
  rw [hwr] at herr
  generalize w._writeFrame wr (w.blk.take w.srcOff.toNat) = r at hlog herr hkept ⊢
  obtain ⟨err, w'⟩ := r
  obtain rfl : err = some e := herr
  refine ⟨⟨_, by rw [hlog]; exact List.mem_concat_self, by rintro ⟨⟩⟩, ?_, ?_⟩
  · rw [hkept.1]
    exact hblk
  · rw [hkept.2]
    exact hoff.ne'

/-- So then a write is not the last although it failed. -/
theorem noRetry_of_last {o : OptsT} (hindep : o.blockLinked = false) (buf : PoolBlk o.bsz)
    {cs : List WCall}
    (hlast : ∀ c ∈ ((newSyncWriter Z o buf).runCalls wr cs).2.calls.dropLast, c.err = none) :
    (newSyncWriter Z o buf).NoRetry wr cs := by
  rintro pre rest rfl hretries
  obtain ⟨x, hx⟩ := close_retries wr ((stable_made wr o).runCalls (made_new o buf) pre) hindep hretries
  obtain ⟨⟨c, hc, herr⟩, -⟩ := hretries
  -- the rest of the calls only adds to the log
  have hlog := (stable_log wr _).runCalls hx rest
  obtain ⟨ys, hys⟩ := hlog
  apply herr
  apply hlast c
  rw [runCalls_append]
  show c ∈ (runCalls wr (((newSyncWriter Z o buf).runCalls wr pre).2.close wr).2 rest).2.calls.dropLast
  rw [← hys, List.append_assoc, List.dropLast_append_of_ne_nil (by simp)]
  exact List.mem_append_left _ hc

end SyncWriter

/-! ## The asynchronous writer -/

namespace AsyncWriter

variable {c : WriterCfg} {s s' : AsyncWriter Z} {a : Act}

/-- The two writers on a step: they do the same, a write with all of it taken among it, or
the write fails on the one destination only. -/
def Besides (c : WriterCfg) (s s' : AsyncWriter Z) (a : Act) : Prop :=
  ∃ v, step ⟨c.opts, .ok⟩ s a = some v
    ∧ (v = s' ∧ (s'.calls = s.calls ∨ ∃ p, s'.calls = s.calls ++ [⟨p, p.length, none⟩])
      ∨ ∃ p k e, s'.calls = s.calls ++ [⟨p, k, some e⟩] ∧ v.calls = s.calls ++ [⟨p, p.length, none⟩])

/-- A step that does not ask the destination. -/
theorem besides_of_eq (hstep : step c s a = some s')
    (heq : step ⟨c.opts, .ok⟩ s a = step c s a) (hcalls : s'.calls = s.calls) :
    Besides c s s' a :=
  ⟨s', heq.trans hstep, .inl ⟨rfl, .inl hcalls⟩⟩

theorem besides_write {b : OutBlk} (hloop : s.loop = .write b) (hstep : step c s .loop = some s') :
    Besides c s s' .loop := by
  simp only [step, loopStep, hloop, writeBlk, Option.some.injEq] at hstep
  unfold Besides
  simp only [step, loopStep, hloop, writeBlk, Option.some.injEq, exists_eq_left']
  rcases hblk : b.blk with _ | blk
  · rw [hblk] at hstep
    exact .inl ⟨hstep, .inl (by rw [← hstep])⟩
  · simp only [hblk, wrWrite] at hstep ⊢
    rcases hwr : c.wr s.calls.length with _ | ⟨k, e⟩
    · simp only [hwr] at hstep
      exact .inl ⟨hstep, .inr ⟨blk.data, by rw [← hstep]⟩⟩
    · simp only [hwr] at hstep
      exact .inr ⟨blk.data, _, e, by rw [← hstep], rfl⟩

theorem besides_header (hloop : s.loop = .header) (hstep : step c s .loop = some s') :
    Besides c s s' .loop := by
  simp only [step, loopStep, hloop, headerStep, writeHeader, wrWrite, Option.some.injEq] at hstep
  unfold Besides
  simp only [step, loopStep, hloop, headerStep, writeHeader, wrWrite, Option.some.injEq,
    exists_eq_left']
  rcases hwr : c.wr s.calls.length with _ | ⟨k, e⟩
  · simp only [hwr, Option.map_none] at hstep ⊢
    exact .inl ⟨hstep, .inr ⟨headerBytes c.opts, by rw [← hstep]⟩⟩
  · simp only [hwr, Option.map_some] at hstep ⊢
    exact .inr ⟨headerBytes c.opts, _, e, by rw [← hstep], rfl⟩

theorem besides_trailer {xxh : Option UInt32} (hloop : s.loop = .trailer xxh)
    (hstep : step c s .loop = some s') : Besides c s s' .loop := by
  simp only [step, loopStep, hloop, trailerStep, wrWrite, Option.some.injEq] at hstep
  unfold Besides
  simp only [step, loopStep, hloop, trailerStep, wrWrite, Option.some.injEq, exists_eq_left']
  rcases hwr : c.wr s.calls.length with _ | ⟨k, e⟩
  · simp only [hwr] at hstep ⊢
    exact .inl ⟨hstep, .inr ⟨trailerBytes xxh, by rw [← hstep]⟩⟩
  · simp only [hwr] at hstep ⊢
    exact .inr ⟨trailerBytes xxh, _, e, by rw [← hstep], rfl⟩

/-- The destination is only asked in three places of the write loop. -/
theorem step_besides (hstep : step c s a = some s') : Besides c s s' a := by
  have hst := step_spec hstep
  cases hst with
  | header hloop | headerFail hloop => exact besides_header hloop hstep
  | write hloop => exact besides_write hloop hstep
  | crash hloop => exact besides_write hloop hstep
  | trailer hloop | trailerFail hloop => exact besides_trailer hloop hstep
  | headerErr hloop | outClosed hloop | gotDrop hloop | gotErr hloop | gotWrite hloop
  | gotPark hloop
  | kickDrop hloop | kickErr hloop | kickFail hloop | kickNext hloop | kickLast hloop | setErr hloop
  | reply hloop | noReply hloop | drainKick hloop | drained hloop | finish hloop | abort hloop
  | hashDone hloop | hashWait hloop | trailerErr hloop | closeSyn hloop =>
      refine besides_of_eq hstep ?_ rfl
      simp only [step, loopStep, hloop]
  | _ => exact besides_of_eq hstep rfl rfl

/-- After a failed write the log stays. -/
theorem Failing.calls_eq (h' : Failing s') (hstep : AsyncWriter.step c s a = some s') (hf : s.Failed) :
    s'.calls = s.calls := by
  have hnot : ∀ w, s'.calls ≠ s.calls ++ [w] := by
    intro w hw
    obtain ⟨v, hv, hne⟩ := hf
    apply hne
    apply h'.last v
    rw [hw, List.dropLast_concat]
    exact hv
  obtain ⟨v, -, ⟨-, hsame | ⟨p, hp⟩⟩ | ⟨p, k, e, hp, -⟩⟩ := step_besides hstep
  · exact hsame
  · exact absurd hp (hnot _)
  · exact absurd hp (hnot _)

/-- A run beside one on a destination that does not fail: the induction is on the run from
its end. -/
theorem run_besides (hpar : 0 < c.opts.nParallel) {script : List WCall} {as : List Act}
    (hrun : Machine.run (step c) (newAsyncWriter Z c.opts script) as = some s) :
    ∃ as' v, Machine.run (step ⟨c.opts, .ok⟩) (newAsyncWriter Z c.opts script) as' = some v
      ∧ (v = s ∧ (∀ w ∈ s.calls, w.Whole) ∨ Broke s.calls v.calls) := by
  induction as using List.reverseRecOn generalizing s with
  | nil =>
      obtain rfl := Option.some.inj hrun
      exact ⟨[], _, rfl, .inl ⟨rfl, by rintro _ ⟨⟩⟩⟩
  | append_singleton as a ih =>
      have hsound := sound_run hpar hrun
      obtain ⟨s₁, hrun₁, hlast⟩ := Machine.run_append.mp hrun
      obtain ⟨s₂, hstep, hnil⟩ := Machine.run_cons_eq_some.mp hlast
      obtain rfl := Option.some.inj hnil
      obtain ⟨as', v, hrunv, ⟨rfl, hwhole⟩ | hbroke⟩ := ih hrun₁
      · obtain ⟨v', hstepv, hv⟩ := step_besides hstep
        refine ⟨as' ++ [a], v', Machine.run_append.mpr ⟨_, hrunv, ?_⟩, ?_⟩
        · exact Machine.run_cons_eq_some.mpr ⟨v', hstepv, rfl⟩
        rcases hv with ⟨rfl, hsame | ⟨p, hp⟩⟩ | ⟨p, k, e, hp, hpv⟩
        · exact .inl ⟨rfl, by rwa [hsame]⟩
        · refine .inl ⟨rfl, ?_⟩
          rw [hp]
          exact whole_concat hwhole p
        · refine .inr ?_
          rw [hp, hpv]
          exact .write hwhole p k e
      · refine ⟨as', v, hrunv, .inr ?_⟩
        rwa [hsound.failing.calls_eq hstep hbroke.failed]

end AsyncWriter

/-! ## Both -/

/-- **No output after a failed output.** A write that fails is the last one, and what the
destination accepted is a prefix of what the same calls pass to one that does not fail: with
the synchronous writer exactly if no `Close` finds the block that failed still in the
buffer, with the asynchronous one on every schedule. -/
theorem failed_output_iff (Z : Clz4) (o : OptsT) (wr : WrPlan) (cs : List WCall) :
    (usesSyncWriter o = true → ∀ buf : PoolBlk o.bsz,
      ((∀ c ∈ ((newSyncWriter Z o buf).runCalls wr cs).2.calls.dropLast, c.err = none)
          ∧ accepted ((newSyncWriter Z o buf).runCalls wr cs).2.calls
            <+: passed ((newSyncWriter Z o buf).runCalls .ok cs).2.calls
        ↔ (newSyncWriter Z o buf).NoRetry wr cs))
    ∧ (0 < o.nParallel → ∀ (as : List AsyncWriter.Act) (s : AsyncWriter Z),
      Machine.run (AsyncWriter.step ⟨o, wr⟩) (newAsyncWriter Z o cs) as = some s →
        (∀ c ∈ s.calls.dropLast, c.err = none)
          ∧ ∃ as' v, Machine.run (AsyncWriter.step ⟨o, .ok⟩) (newAsyncWriter Z o cs) as' = some v
            ∧ accepted s.calls <+: passed v.calls) := by
  refine ⟨fun hsync buf => ⟨fun h => ?_, fun hclose => ?_⟩, fun hpar as s hrun => ?_⟩
  · rw [usesSyncWriter, Bool.and_eq_true, Bool.not_eq_true'] at hsync
    exact SyncWriter.noRetry_of_last wr hsync.2 buf h.1
  · have hnew : SyncWriter.Apart (newSyncWriter Z o buf) (newSyncWriter Z o buf) :=
      .inl ⟨rfl, by rintro _ ⟨⟩⟩
    exact (SyncWriter.runCalls_apart wr hnew hclose).log
  · obtain ⟨as', v, hrunv, ⟨rfl, hwhole⟩ | hbroke⟩ := AsyncWriter.run_besides hpar hrun
    · refine ⟨fun c hc => (hwhole c (List.mem_of_mem_dropLast hc)).err, as', v, hrunv, ?_⟩
      rw [accepted_whole hwhole]
    · exact ⟨hbroke.last, as', v, hrunv, hbroke.accepted_le⟩

/-- The second write fails, with nothing accepted. -/
def failSecond : WrPlan := fun i => if i = 1 then some (0, .other 0) else none

open SyncWriter CopyAt in
/-- One byte, and a flush that fails: the byte is still in the buffer. -/
theorem failSecond_retries (buf : PoolBlk OptsT.sync64KB.bsz) :
    ((newSyncWriter litEngine .sync64KB buf).runCalls failSecond [.write [7], .flush]).2.Retries := by
  have hbsz : OptsT.sync64KB.bsz = 65536 := rfl
  have hcopy : copyLen buf.val 0 [7] = 1 := by
    rw [copyLen, buf.property, hbsz]
    rfl
  have hmade := (stable_made failSecond .sync64KB).call
    (made_new (Z := litEngine) .sync64KB buf) (.write [7])
  have hwrite : ((newSyncWriter litEngine .sync64KB buf).call failSecond (.write [7])).2
      = { ((newSyncWriter litEngine .sync64KB buf)._writeHeader failSecond).2 with
          srcBlk := some (copyAt buf.val 0 [7]), srcOff := 1 } := by
    simp [call, write, newSyncWriter, _write, _writeHeader, writeHeader, wrWrite, failSecond,
      writeLoop, blk, hcopy, hbsz]
  obtain ⟨w, hw⟩ : ∃ w,
      ((newSyncWriter litEngine .sync64KB buf).call failSecond (.write [7])).2 = w := ⟨_, rfl⟩
  rw [hw] at hmade hwrite
  have hflush : (w.flush failSecond).2.Retries := by
    subst hwrite
    exact flush_retries _ hmade rfl rfl (by rintro ⟨⟩) one_pos rfl
  rw [← hw] at hflush
  exact hflush

/-- Then `Close` writes the block once more. -/
theorem failed_output_close :
    ∃ buf : PoolBlk OptsT.sync64KB.bsz,
      ∃ c ∈ ((newSyncWriter litEngine .sync64KB buf).runCalls failSecond
          [.write [7], .flush, .close]).2.calls.dropLast, c.err ≠ none := by
  refine ⟨⟨_, List.length_replicate (a := (0 : UInt8))⟩, ?_⟩
  by_contra hnone
  push Not at hnone
  exact SyncWriter.noRetry_of_last failSecond rfl _ hnone [.write [7], .flush] [] rfl
    (failSecond_retries _)

/-- Without the `Close` the failed write is the last, and it is the last of the asynchronous
writer too, here of its header. -/
theorem failed_output_flush :
    ∃ buf : PoolBlk OptsT.sync64KB.bsz,
      (∀ c ∈ ((newSyncWriter litEngine .sync64KB buf).runCalls failSecond
          [.write [7], .flush]).2.calls.dropLast, c.err = none)
      ∧ ∃ s : AsyncWriter litEngine,
        Machine.run (AsyncWriter.step ⟨.default, fun _ => some (3, .other 0)⟩)
            (newAsyncWriter litEngine .default [.close]) [.loop] = some s
          ∧ s.calls.length = 1 ∧ ∀ c ∈ s.calls.dropLast, c.err = none := by
  refine ⟨⟨_, List.length_replicate (a := (0 : UInt8))⟩, ?_, _, rfl, rfl, ?_⟩
  · refine (((failed_output_iff litEngine .sync64KB failSecond [.write [7], .flush]).1 rfl _).mpr
      ?_).1
    rintro pre rest hcs
    have hmem : WCall.close ∈ [WCall.write [7], .flush] := by
      rw [hcs]
      exact List.mem_append_right _ List.mem_cons_self
    exact absurd hmem (by simp)
  · exact ((failed_output_iff litEngine .default (fun _ => some (3, .other 0)) [.close]).2 (by decide)
      [.loop] _ rfl).1

end Plz4
