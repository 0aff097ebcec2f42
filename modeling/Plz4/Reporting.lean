/-
How the writers report errors.

`Told` is the protocol both follow: what the caller has been told so far decides what a call
may return. The synchronous writer is in it call by call; its error state is the error of
the first write that failed, or of the source that did.
-/
import Plz4.FailedOutput
import Plz4.SyncReadFrom
import Plz4.AsyncWriterErrors
import Plz4.AsyncWriterFrame

set_option autoImplicit false

namespace Plz4

open CopyAt

variable {Z : Clz4}

/-! ## The protocol -/

/-- What a Writer has told its caller. -/
inductive Told
  /-- no error, and it is open -/
  | nothing
  /-- this error, before any `Close` -/
  | failed (e : Err)
  /-- closed, with this error -/
  | closed (e : Err)
  /-- closed by a `Close` that returned nil, with no error before -/
  | clean
  deriving DecidableEq

namespace Told

/-- The error that the calls return from now on. -/
def err : Told → Option Err
  | .nothing => none
  | .failed e | .closed e => some e
  | .clean => some (.const .errClosed)

/-- `Close` has been called. -/
def shut : Told → Bool
  | .nothing | .failed _ => false
  | .closed _ | .clean => true

def isClose : WCall → Bool
  | .close => true
  | .write _ | .readFrom _ | .flush => false

/-- When a call may return nil: `Write` if it took everything, `ReadFrom` if the source came
to its end. -/
def mayBeNil : WCall → ℕ → Bool
  | .write src, n => n = src.length
  | .readFrom r, _ => r.err = .eof || r.err = .unexpectedEOF
  | .flush, _ | .close, _ => true

/-- What a call may return, and what its caller has been told then. -/
def next (q : Told) (x : WCall × CallRes) : Option Told :=
  match q with
  | .nothing =>
      match x.2.err with
      | some e => some (if isClose x.1 then .closed e else .failed e)
      | none =>
          if isClose x.1 then some .clean
          else if mayBeNil x.1 x.2.n then some .nothing else none
  | .failed e =>
      if isClose x.1 then if x.2 = ⟨0, none⟩ then some (.closed e) else none
      else if x.2 = ⟨0, some e⟩ then some (.failed e) else none
  | .closed e => if x.2 = ⟨0, some e⟩ then some (.closed e) else none
  | .clean => if x.2 = ⟨0, some (.const .errClosed)⟩ then some .clean else none

variable {q q' : Told} {call : WCall} {r : CallRes}

/-- Before any error. -/
theorem next_nil (hclose : isClose call = false) {n : ℕ} (h : mayBeNil call n = true) :
    next .nothing (call, ⟨n, none⟩) = some .nothing := by
  simp only [next, hclose, h, Bool.false_eq_true, if_false, if_true]

theorem next_err (hclose : isClose call = false) (n : ℕ) (e : Err) :
    next .nothing (call, ⟨n, some e⟩) = some (.failed e) := by
  simp only [next, hclose, Bool.false_eq_true, if_false]

/-- The same error again. -/
theorem next_failed (hclose : isClose call = false) (e : Err) :
    next (.failed e) (call, ⟨0, some e⟩) = some (.failed e) := by
  simp only [next, hclose, Bool.false_eq_true, if_false, if_true]

theorem next_closed (call : WCall) (e : Err) :
    next (.closed e) (call, ⟨0, some e⟩) = some (.closed e) := by
  simp only [next, if_true]

theorem next_clean (call : WCall) :
    next .clean (call, ⟨0, some (.const .errClosed)⟩) = some .clean := by
  simp only [next, if_true]

/-- An error that is told stays, and a call that returns one tells it. -/
theorem err_next (h : next q (call, r) = some q') :
    (q ≠ .nothing → q' ≠ .nothing ∧ q'.err = q.err) ∧ ∀ e, r.err = some e → q'.err = some e := by
  cases q with
  | nothing =>
      refine ⟨fun hne => absurd rfl hne, fun e he => ?_⟩
      simp only [next, he, Option.some.injEq] at h
      rw [← h]
      split_ifs <;> rfl
  | failed e =>
      simp only [next] at h
      split_ifs at h with hclose hr hr
      · rw [← Option.some.inj h, hr]
        exact ⟨fun _ => ⟨by rintro ⟨⟩, rfl⟩, by rintro e' ⟨⟩⟩
      · rw [← Option.some.inj h, hr]
        exact ⟨fun _ => ⟨by rintro ⟨⟩, rfl⟩, fun e' he' => he'⟩
  | closed e | clean =>
      simp only [next] at h
      split_ifs at h with hr
      rw [← Option.some.inj h, hr]
      exact ⟨fun _ => ⟨by rintro ⟨⟩, rfl⟩, fun e' he' => he'⟩

theorem err_ne_none (h : q ≠ .nothing) : q.err ≠ none := by
  cases q with
  | nothing => exact absurd rfl h
  | failed | closed | clean => rintro ⟨⟩

theorem err_run {xs : List (WCall × CallRes)} (h : Machine.run next q xs = some q')
    (hne : q ≠ .nothing) : q' ≠ .nothing ∧ q'.err = q.err := by
  refine Machine.invariant_run (I := fun t => t ≠ .nothing ∧ t.err = q.err) ?_ ⟨hne, rfl⟩ h
  rintro t ⟨call, r⟩ t' ⟨ht, herr⟩ hnext
  obtain ⟨ht', herr'⟩ := (err_next hnext).1 ht
  exact ⟨ht', herr'.trans herr⟩

/-- **Only one error is told.** -/
theorem only_run {xs : List (WCall × CallRes)} (h : Machine.run next q xs = some q')
    {x : WCall × CallRes} (hx : x ∈ xs) {e : Err} (he : x.2.err = some e) :
    q' ≠ .nothing ∧ q'.err = some e := by
  induction xs generalizing q with
  | nil => cases hx
  | cons y ys ih =>
      obtain ⟨q₁, h₁, hrest⟩ := Machine.run_cons_eq_some.mp h
      rcases List.mem_cons.mp hx with rfl | hys
      · have herr := (err_next h₁).2 e he
        have hne : q₁ ≠ .nothing := by
          rintro rfl
          cases herr
        obtain ⟨hne', heq⟩ := err_run hrest hne
        exact ⟨hne', heq.trans herr⟩
      · exact ih hrest hys

end Told

/-! ## Where an error comes from -/

/-- The error `e` is that of a failed write; of the header with `ErrHeaderWrite`. -/
def WrCall.Raises (c : WrCall) (e : Err) : Prop :=
  c.err = some e ∨ ∃ e', c.err = some e' ∧ e = .join (.const .errHeaderWrite) e'

/-- The first write of the log that failed has the error `e`. -/
def FirstFailed (cs : List WrCall) (e : Err) : Prop :=
  ∃ xs x ys, cs = xs ++ x :: ys ∧ x.Raises e ∧ ∀ y ∈ xs, y.err = none

theorem FirstFailed.concat {cs : List WrCall} (h : ∀ c ∈ cs, c.err = none) {x : WrCall} {e : Err}
    (hx : x.Raises e) : FirstFailed (cs ++ [x]) e :=
  ⟨cs, x, [], rfl, hx, h⟩

/-- The error `e` is the first to occur: that of a write before which no write and no source
has failed, or that of a source before which none has. -/
def FirstOccurred (cs : List WrCall) (srcErrs : List (ℕ × Err)) (e : Err) : Prop :=
  (∃ xs x ys, cs = xs ++ x :: ys ∧ x.Raises e ∧ (∀ y ∈ xs, y.err = none)
      ∧ ∀ p ∈ srcErrs, xs.length < p.1)
  ∨ ∃ xs ys ps, cs = xs ++ ys ∧ srcErrs = (xs.length, e) :: ps ∧ ∀ y ∈ xs, y.err = none

theorem FirstOccurred.grow {cs cs' : List WrCall} {srcErrs : List (ℕ × Err)} {e : Err}
    (h : FirstOccurred cs srcErrs e) (hle : cs <+: cs') : FirstOccurred cs' srcErrs e := by
  obtain ⟨zs, rfl⟩ := hle
  rcases h with ⟨xs, x, ys, rfl, hx, hxs, hlate⟩ | ⟨xs, ys, ps, rfl, hps, hxs⟩
  · exact .inl ⟨xs, x, ys ++ zs, by rw [List.append_assoc, List.cons_append], hx, hxs, hlate⟩
  · exact .inr ⟨xs, ys ++ zs, ps, by rw [List.append_assoc], hps, hxs⟩

/-- A write fails where nothing has. -/
theorem FirstOccurred.concat {cs : List WrCall} (h : ∀ c ∈ cs, c.err = none) {x : WrCall} {e : Err}
    (hx : x.Raises e) : FirstOccurred (cs ++ [x]) [] e :=
  .inl ⟨cs, x, [], rfl, hx, h, by rintro p ⟨⟩⟩

/-- A source fails where nothing has. -/
theorem FirstOccurred.source {cs : List WrCall} (h : ∀ c ∈ cs, c.err = none) (e : Err) :
    FirstOccurred cs [(cs.length, e)] e :=
  .inr ⟨cs, [], [], by rw [List.append_nil], rfl, h⟩

/-- The frame of the content `c` is out: header, blocks and trailer, each taken whole. -/
def FrameOut (Z : Clz4) (o : OptsT) (calls : List WrCall) (c : Bytes) : Prop :=
  (∀ w ∈ calls, w.Whole) ∧ ∃ ps es, ps.flatten = c ∧ AsyncWriter.Encodes Z o ps es
    ∧ passed calls = headerBytes o ++ es.flatten ++ trailerBytes (contentHash o ps)

/-! ## The synchronous writer -/

namespace SyncWriter

/-- How an operation on an open writer ends. -/
structure Ended (o : OptsT) (err : Option Err) (w : SyncWriter Z) : Prop where
  made : Made o w
  srcBlk : w.srcBlk ≠ none
  state : w.state = none
  ok : err = none → ∀ c ∈ w.calls, c.err = none
  quiet : err = none → w.srcErrs = []
  met : ∀ e, err = some e → FirstOccurred w.calls w.srcErrs e

variable (wr : WrPlan) {o : OptsT} {w : SyncWriter Z}

theorem Ended.buf (h : Ended o none w) (b : Bytes) (off : ℤ) :
    Ended o none { w with srcBlk := some b, srcOff := off } :=
  ⟨⟨h.made.opts, h.made.bsz, h.made.reach⟩, by rintro ⟨⟩, h.state, h.ok, h.quiet, by rintro e ⟨⟩⟩

theorem Ended.off (h : Ended o none w) (off : ℤ) :
    Ended o none { w with srcOff := off } :=
  ⟨⟨h.made.opts, h.made.bsz, h.made.reach⟩, h.srcBlk, h.state, h.ok, h.quiet, by rintro e ⟨⟩⟩

/-- A source that fails. -/
theorem Ended.source (h : Ended o none w) (e : Err) :
    Ended o (some e) { w with srcErrs := w.srcErrs ++ [(w.calls.length, e)] } := by
  refine ⟨⟨h.made.opts, h.made.bsz, h.made.reach⟩, h.srcBlk, h.state, by rintro ⟨⟩, by rintro ⟨⟩,
    fun e' he' => ?_⟩
  rw [← Option.some.inj he', h.quiet rfl, List.nil_append]
  exact .source (h.ok rfl) e

theorem Ended.header (h : Ended o none w) :
    Ended o (w._writeHeader wr).1 (w._writeHeader wr).2 := by
  have hmade := (stable_made wr o).header w h.made
  rcases hwr : wr w.calls.length with _ | ⟨k, e⟩
  · simp only [_writeHeader, writeHeader, wrWrite, hwr, Option.map_none] at hmade ⊢
    refine ⟨hmade, h.srcBlk, h.state, fun _ c hc => ?_, h.quiet, by rintro e ⟨⟩⟩
    rcases List.mem_append.mp hc with hc | hc
    · exact h.ok rfl c hc
    · rw [List.mem_singleton.mp hc]
  · simp only [_writeHeader, writeHeader, wrWrite, hwr, Option.map_some] at hmade ⊢
    refine ⟨hmade, h.srcBlk, h.state, by rintro ⟨⟩, by rintro ⟨⟩, fun e' he' => ?_⟩
    rw [h.quiet rfl]
    exact .concat (h.ok rfl) (.inr ⟨e, rfl, (Option.some.inj he').symm⟩)

/-- A block; it is always made. -/
theorem Ended.frame (hindep : o.blockLinked = false) (h : Ended o none w) (src : Bytes) :
    Ended o (w._writeFrame wr src).1 (w._writeFrame wr src).2 := by
  have hmade := (stable_made wr o).frame w src h.made
  have hok : (w.made src).isOk = true := by
    unfold SyncWriter.made
    rw [h.made.opts, h.made.bsz]
    exact compressToBlk_isOk h.made.reach (.inl hindep) _ _
  have hframed := framed wr w src
  generalize w._writeFrame wr src = r at hframed hmade ⊢
  cases hframed with
  | unmade hret =>
      rw [hret] at hok
      cases hok
  | failed hret hwr =>
      refine ⟨hmade, h.srcBlk, h.state, by rintro ⟨⟩, by rintro ⟨⟩, fun e' he' => ?_⟩
      show FirstOccurred _ w.srcErrs e'
      rw [h.quiet rfl]
      exact .concat (h.ok rfl) (.inl he')
  | wrote hret hwr =>
      refine ⟨hmade, h.srcBlk, h.state, fun _ c hc => ?_, h.quiet, by rintro e ⟨⟩⟩
      rcases List.mem_append.mp hc with hc | hc
      · exact h.ok rfl c hc
      · rw [List.mem_singleton.mp hc]

/-! ### Operations -/

variable (hindep : o.blockLinked = false)

theorem Ended.begin (h : Ended o none w) :
    Ended o (if w.srcOff < 0 then w._writeHeader wr else (none, w)).1
      (if w.srcOff < 0 then w._writeHeader wr else (none, w)).2 := by
  split_ifs
  · exact h.header wr
  · exact h

include hindep

theorem Ended.fillBlk (h : Ended o none w) (src : Bytes) :
    Ended o (w.fillBlk wr src).1.2 (w.fillBlk wr src).2 := by
  unfold SyncWriter.fillBlk
  simp only
  split_ifs
  · have hframe := (h.buf (copyAt w.blk w.srcOff.toNat src)
      (w.srcOff + copyLen w.blk w.srcOff.toNat src)).frame wr hindep
        (copyAt w.blk w.srcOff.toNat src)
    simp only [blk, Option.getD_some] at hframe ⊢
    generalize _writeFrame wr _ _ = r at hframe ⊢
    obtain ⟨_ | e, w'⟩ := r
    · exact hframe.off 0
    · exact hframe
  · exact h.buf _ _

theorem Ended.writeLoop (k : ℕ) (h : Ended o none w) (src : Bytes) (n : ℕ) :
    Ended o (writeLoop wr k w src n).1.2 (writeLoop wr k w src n).2 := by
  induction k generalizing w src n with
  | zero => exact h
  | succ k ih =>
      unfold SyncWriter.writeLoop
      split_ifs
      · exact h
      · have hframe := h.frame wr hindep (src.take w.bsz)
        generalize w._writeFrame wr (src.take w.bsz) = r at hframe ⊢
        obtain ⟨_ | e, w'⟩ := r
        · exact ih hframe _ _
        · exact hframe
      · exact ih (h.buf _ _) _ _

theorem Ended._write (h : Ended o none w) (src : Bytes) :
    Ended o (w._write wr src).1.2 (w._write wr src).2 := by
  have hbegin := h.begin wr
  unfold SyncWriter._write
  generalize (if w.srcOff < 0 then w._writeHeader wr else (none, w)) = r at hbegin ⊢
  obtain ⟨_ | e, w₁⟩ := r
  · have hfill : Ended o (if w₁.srcOff > 0 then w₁.fillBlk wr src else ((0, none), w₁)).1.2
        (if w₁.srcOff > 0 then w₁.fillBlk wr src else ((0, none), w₁)).2 := by
      split_ifs
      · exact Ended.fillBlk wr hindep hbegin src
      · exact hbegin
    simp only
    generalize (if w₁.srcOff > 0 then w₁.fillBlk wr src else ((0, none), w₁)) = r at hfill ⊢
    obtain ⟨⟨n, _ | e⟩, w₂⟩ := r
    · exact Ended.writeLoop wr hindep _ hfill _ _
    · exact hfill
  · exact hbegin

/-- The loop fails with the error of its source or of a write. -/
theorem Ended.readFromLoop (k : ℕ) (h : Ended o none w) (r : Rd) (n : ℕ) :
    Ended o (readFromLoop wr k w r n).1.2 (readFromLoop wr k w r n).2 := by
  induction k generalizing w r n with
  | zero => exact h
  | succ k ih =>
      obtain ⟨r', hread, -⟩ := Rd.readFull_spec r (w.blk.length - w.srcOff.toNat)
      rcases hfull : r.fullErr (w.blk.length - w.srcOff.toNat) with _ | e
      · simp only [SyncWriter.readFromLoop, hread, hfull]
        have hframe := (h.buf (copyAt w.blk w.srcOff.toNat (r.data.take
          (w.blk.length - w.srcOff.toNat))) w.srcOff).frame wr hindep
            (copyAt w.blk w.srcOff.toNat (r.data.take (w.blk.length - w.srcOff.toNat)))
        simp only [blk, Option.getD_some] at hframe ⊢
        generalize _writeFrame wr _ _ = x at hframe ⊢
        obtain ⟨_ | e, w'⟩ := x
        · exact ih (hframe.off 0) r' _
        · exact hframe
      · simp only [SyncWriter.readFromLoop, hread, hfull]
        split_ifs with heof
        · exact h.buf _ _
        · exact (h.buf _ _).source e

theorem Ended._readFrom (h : Ended o none w) (r : Rd) :
    Ended o (w._readFrom wr r).1.2 (w._readFrom wr r).2 := by
  have hbegin := h.begin wr
  unfold SyncWriter._readFrom
  generalize (if w.srcOff < 0 then w._writeHeader wr else (none, w)) = x at hbegin ⊢
  obtain ⟨_ | e, w₁⟩ := x
  · exact Ended.readFromLoop wr hindep _ hbegin r 0
  · exact hbegin

theorem Ended._flush (h : Ended o none w) :
    Ended o (w._flush wr).1 (w._flush wr).2 := by
  unfold SyncWriter._flush
  split_ifs
  · exact h
  · have hframe := h.frame wr hindep (w.blk.take w.srcOff.toNat)
    generalize w._writeFrame wr (w.blk.take w.srcOff.toNat) = r at hframe ⊢
    obtain ⟨_ | e, w'⟩ := r
    · exact hframe.off 0
    · exact hframe

/-- How `Close` begins. -/
theorem Ended.closing (h : Ended o none w) :
    Ended o (if w.srcOff < 0 then w._writeHeader wr else w._flush wr).1
      (if w.srcOff < 0 then w._writeHeader wr else w._flush wr).2 := by
  split_ifs
  · exact h.header wr
  · exact Ended._flush wr hindep h

/-- `Close` of an open writer without an error. -/
theorem Ended.close_eq (h : Ended o none w) :
    w.close wr = match (if w.srcOff < 0 then w._writeHeader wr else w._flush wr) with
      | (some e, w') => (⟨0, some e⟩, { w' with srcBlk := none, srcOff := 0, state := some e })
      | (none, w') =>
          let (err, w'') := ({ w' with srcBlk := none, srcOff := 0 } : SyncWriter Z).closeTrailer wr
          (⟨0, err⟩, w'') := by
  obtain ⟨b, hblk⟩ := Option.ne_none_iff_exists'.mp h.srcBlk
  have hend := Ended.closing wr hindep h
  simp only [close, hblk]
  generalize (if w.srcOff < 0 then w._writeHeader wr else w._flush wr) = r at hend ⊢
  obtain ⟨err, w'⟩ := r
  have hstate : w'.state = none := hend.state
  cases err with
  | none => simp only [hstate]
  | some e => simp only [hstate]

/-! ### Calls -/

/-- A call that returns nil is the same on a destination that does not fail. -/
theorem Ended.call_ok (h : Ended o none w) (hwhole : ∀ c ∈ w.calls, c.Whole) {c : WCall}
    (hnil : (w.call wr c).1.err = none) :
    w.call wr c = w.call .ok c ∧ ∀ x ∈ (w.call wr c).2.calls, x.Whole := by
  cases c with
  | write src =>
      have hb := _write_beside wr hwhole src
      simp only [call, write, h.state] at hnil ⊢
      generalize w._write wr src = r at hb hnil ⊢
      generalize w._write .ok src = v at hb ⊢
      cases hb with
      | same hr => exact ⟨rfl, hr⟩
      | broke herr => exact absurd hnil herr
  | readFrom r =>
      have hb := _readFrom_beside wr hwhole r
      simp only [call, readFrom, h.state] at hnil ⊢
      generalize w._readFrom wr r = x at hb hnil ⊢
      generalize w._readFrom .ok r = v at hb ⊢
      cases hb with
      | same hr => exact ⟨rfl, hr⟩
      | broke herr => exact absurd hnil herr
  | flush =>
      have hb := _flush_beside wr hwhole
      simp only [call, flush, h.state] at hnil ⊢
      generalize w._flush wr = r at hb hnil ⊢
      generalize w._flush .ok = v at hb ⊢
      cases hb with
      | same hr => exact ⟨rfl, hr⟩
      | broke herr => exact absurd hnil herr
  | close =>
      -- `Close` writes the header if nothing was written, else the block that is held
      have hb : Beside id (if w.srcOff < 0 then w._writeHeader wr else w._flush wr)
          (if w.srcOff < 0 then w._writeHeader .ok else w._flush .ok) := by
        split_ifs
        · exact _writeHeader_beside wr hwhole
        · exact _flush_beside wr hwhole
      have hrun := Ended.close_eq wr hindep h
      have hrun' := Ended.close_eq .ok hindep h
      simp only [call] at hnil ⊢
      rw [hrun] at hnil ⊢
      rw [hrun']
      generalize (if w.srcOff < 0 then w._writeHeader wr else w._flush wr) = r at hb hnil ⊢
      generalize (if w.srcOff < 0 then w._writeHeader .ok else w._flush .ok) = v at hb ⊢
      obtain ⟨_ | e, w'⟩ := r
      · cases hb with
        | broke herr => exact absurd rfl herr
        | same hr =>
            -- and the trailer only when that went through
            have ht := closeTrailer_beside (w := { w' with srcBlk := none, srcOff := 0 }) wr hr
            simp only at hnil ⊢
            generalize closeTrailer wr _ = x at ht hnil ⊢
            generalize closeTrailer .ok _ = y at ht ⊢
            cases ht with
            | same hx => exact ⟨rfl, hx⟩
            | broke herr => exact absurd hnil herr
      · cases hnil

/-- A call that returns an error leaves the writer in it, and `Close` closes all the same. -/
theorem Ended.call_fails (h : Ended o none w) {c : WCall} {e : Err}
    (he : (w.call wr c).1.err = some e) :
    (w.call wr c).2.state = some e
      ∧ FirstOccurred (w.call wr c).2.calls (w.call wr c).2.srcErrs e
      ∧ ((w.call wr c).2.srcBlk = none ↔ Told.isClose c = true) := by
  -- a call other than `Close` leaves the buffer with the writer
  have hopen : ∀ {err : Option Err} {w' : SyncWriter Z}, err = some e → Ended o err w' →
      ({ w' with state := err } : SyncWriter Z).state = some e
        ∧ FirstOccurred w'.calls w'.srcErrs e
        ∧ (({ w' with state := err } : SyncWriter Z).srcBlk = none ↔ false = true) := by
    intro err w' herr hend
    exact ⟨herr, hend.met e herr, iff_of_false hend.srcBlk Bool.false_ne_true⟩
  cases c with
  | write src =>
      have hend := Ended._write wr hindep h src
      simp only [call, write, h.state] at he ⊢
      exact hopen he hend
  | readFrom r =>
      have hend := Ended._readFrom wr hindep h r
      simp only [call, readFrom, h.state] at he ⊢
      exact hopen he hend
  | flush =>
      have hend := Ended._flush wr hindep h
      simp only [call, flush, h.state] at he ⊢
      exact hopen he hend
  | close =>
      have hend := Ended.closing wr hindep h
      simp only [call] at he ⊢
      rw [Ended.close_eq wr hindep h] at he ⊢
      generalize (if w.srcOff < 0 then w._writeHeader wr else w._flush wr) = r at hend he ⊢
      obtain ⟨_ | e', w'⟩ := r
      · -- the trailer has failed
        rcases hwr : wr w'.calls.length with _ | ⟨k, e''⟩
        · simp only [closeTrailer, wrWrite, hwr] at he
          cases he
        · simp only [closeTrailer, wrWrite, hwr] at he ⊢
          obtain rfl := Option.some.inj he
          rw [hend.quiet rfl]
          exact ⟨rfl, .concat (hend.ok rfl) (.inl rfl), iff_of_true trivial rfl⟩
      · obtain rfl := Option.some.inj he
        exact ⟨rfl, hend.met e' rfl, iff_of_true rfl rfl⟩

/-- A call other than `Close` that returns nil has met no failing source. -/
theorem Ended.call_quiet (h : Ended o none w) {c : WCall} (hclose : Told.isClose c = false)
    (hnil : (w.call wr c).1.err = none) : (w.call wr c).2.srcErrs = [] := by
  cases c with
  | write src =>
      have hend := Ended._write wr hindep h src
      simp only [call, write, h.state] at hnil ⊢
      exact hend.quiet hnil
  | readFrom r =>
      have hend := Ended._readFrom wr hindep h r
      simp only [call, readFrom, h.state] at hnil ⊢
      exact hend.quiet hnil
  | flush =>
      have hend := Ended._flush wr hindep h
      simp only [call, flush, h.state] at hnil ⊢
      exact hend.quiet hnil
  | close => cases hclose

/-! ### The protocol -/

/-- The writer `w` whose caller has been told this. The calls have taken `content` as long as
nothing has failed. -/
inductive At (o : OptsT) (content : Bytes) (w : SyncWriter Z) : Told → Prop
  | nothing {segs : List Bytes} {seg : Bytes} (hend : Ended o none w)
      (hwhole : ∀ c ∈ w.calls, c.Whole) (hlive : w.Live o segs seg)
      (hcontent : segs.flatten ++ seg = content) : At o content w .nothing
  | failed {e : Err} (hstate : w.state = some e) (hblk : w.srcBlk ≠ none)
      (hmet : FirstOccurred w.calls w.srcErrs e) :
      At o content w (.failed e)
  | closed {e : Err} (hstate : w.state = some e) (hblk : w.srcBlk = none)
      (hmet : FirstOccurred w.calls w.srcErrs e) :
      At o content w (.closed e)
  | clean (hstate : w.state = some (.const .errClosed)) (hblk : w.srcBlk = none)
      (hout : FrameOut Z o w.calls content) : At o content w .clean

omit hindep in
/-- A writer that is closed or in an error state returns its error, unless it closes. -/
theorem call_again {e : Err} (hstate : w.state = some e) {c : WCall}
    (hc : Told.isClose c = true → w.srcBlk = none) : w.call wr c = (⟨0, some e⟩, w) := by
  cases c with
  | write src => simp only [call, write, hstate]
  | readFrom r => simp only [call, readFrom, hstate]
  | flush => simp only [call, flush, hstate]
  | close => simp only [call, close, hc rfl, hstate]

omit hindep in
/-- The first `Close` in an error state. -/
theorem close_failed {e : Err} (hstate : w.state = some e) (hblk : w.srcBlk ≠ none) :
    ∃ w', w.close wr = (⟨0, none⟩, w') ∧ w'.state = some e ∧ w'.srcBlk = none
      ∧ w.calls <+: w'.calls ∧ w'.srcErrs = w.srcErrs := by
  have hlog := (stable_log wr w.calls).close (w := w) List.prefix_rfl
  obtain ⟨b, hb⟩ := Option.ne_none_iff_exists'.mp hblk
  -- neither the header nor the flush looks at the state
  have hsame : (if w.srcOff < 0 then w._writeHeader wr else w._flush wr).2.state = w.state
      ∧ (if w.srcOff < 0 then w._writeHeader wr else w._flush wr).2.srcErrs = w.srcErrs := by
    split_ifs
    · unfold _writeHeader
      simp only
      split <;> exact ⟨rfl, rfl⟩
    · unfold SyncWriter._flush
      split_ifs
      · exact ⟨rfl, rfl⟩
      · have hframed := framed wr w (w.blk.take w.srcOff.toNat)
        generalize w._writeFrame wr (w.blk.take w.srcOff.toNat) = r at hframed ⊢
        cases hframed <;> exact ⟨rfl, rfl⟩
  revert hlog
  simp only [close, hb]
  generalize (if w.srcOff < 0 then w._writeHeader wr else w._flush wr) = r at hsame ⊢
  obtain ⟨err, w'⟩ := r
  have hstate' : w'.state = some e := hsame.1.trans hstate
  simp only [hstate']
  intro hlog
  exact ⟨_, rfl, rfl, rfl, hlog, hsame.2⟩

omit hindep in
theorem srcBlk_close : (w.close wr).2.srcBlk = none := by
  unfold close
  split
  · assumption
  · simp only
    split <;> rfl

/-- A call that returns nil, on a destination that does not fail. -/
theorem Live.told {segs : List Bytes} {seg content : Bytes} (h : w.Live o segs seg)
    (hstate : w.state = none) (hcontent : segs.flatten ++ seg = content) {c : WCall}
    (hwhole : ∀ x ∈ (w.call .ok c).2.calls, x.Whole) (hmade : Made o (w.call .ok c).2)
    (hquiet : Told.isClose c = false → (w.call .ok c).2.srcErrs = [])
    (hnil : (w.call .ok c).1.err = none) :
    ∃ q, Told.nothing.next (c, (w.call .ok c).1) = some q
      ∧ At o (content ++ takenOf c (w.call .ok c).1) (w.call .ok c).2 q := by
  -- a writer that is still open, and nothing has failed
  have hopen : ∀ {w' : SyncWriter Z} {segs' : List Bytes} {seg' : Bytes}, w'.Live o segs' seg' →
      w'.state = none → (∀ x ∈ w'.calls, x.Whole) → Made o w' → w'.srcErrs = [] → ∀ content',
      segs'.flatten ++ seg' = content' → At o content' w' .nothing := by
    intro w' segs' seg' hlive hs hw hm hq content' hc
    exact .nothing ⟨hm, hlive.srcBlk, hs, fun _ x hx => (hw x hx).err, fun _ => hq, by rintro e ⟨⟩⟩
      hw hlive hc
  cases c with
  | write src =>
      obtain ⟨w', hrun, hs, hlive⟩ := write_spec h hstate hindep src
      simp only [call, hrun, takenOf, List.take_length] at hwhole hmade hquiet ⊢
      refine ⟨_, Told.next_nil rfl (by simp [Told.mayBeNil]),
        hopen hlive hs hwhole hmade (hquiet rfl) _ ?_⟩
      rw [← hcontent, List.append_assoc]
  | readFrom r =>
      by_cases heof : r.err = .eof ∨ r.err = .unexpectedEOF
      · obtain ⟨w', hrun, hs, hlive⟩ := readFrom_spec h hstate hindep r heof
        simp only [call, hrun, takenOf, List.take_length] at hwhole hmade hquiet ⊢
        refine ⟨_, Told.next_nil rfl (by simpa [Told.mayBeNil] using heof),
          hopen hlive hs hwhole hmade (hquiet rfl) _ ?_⟩
        rw [← hcontent, List.append_assoc]
      · rw [call, (readFrom_fails h hstate hindep r heof).1] at hnil
        cases hnil
  | flush =>
      obtain ⟨w', hrun, hs, hlive⟩ := flush_spec h hstate hindep
      simp only [call, hrun, takenOf, List.append_nil] at hwhole hmade hquiet ⊢
      refine ⟨_, Told.next_nil rfl rfl, hopen hlive hs hwhole hmade (hquiet rfl) _ ?_⟩
      rw [← hcontent, List.flatten_append, List.flatten_singleton, List.append_nil]
  | close =>
      have hblk := srcBlk_close (w := w) .ok
      obtain ⟨w', hrun, hclosed⟩ := close_spec h hindep
      rw [hrun] at hblk
      simp only [call, hrun, takenOf, List.append_nil] at hwhole ⊢
      refine ⟨.clean, rfl, .clean hclosed.state hblk ⟨hwhole, _, _, ?_,
        encodes_encoded Z hindep _, hclosed.passed⟩⟩
      rw [Cut.flatten_flatMap_cut o.bsz_pos, List.flatten_append, List.flatten_singleton, hcontent]

/-- **One call.** -/
theorem At.call {content : Bytes} {q : Told} (h : At o content w q) (c : WCall) :
    ∃ q', q.next (c, (w.call wr c).1) = some q'
      ∧ At o (content ++ takenOf c (w.call wr c).1) (w.call wr c).2 q' := by
  cases h with
  | @nothing segs seg hend hwhole hlive hcontent =>
      rcases hres : (w.call wr c).1.err with _ | e
      · obtain ⟨heq, hwhole'⟩ := Ended.call_ok wr hindep hend hwhole hres
        have hmade := (stable_made wr o).call hend.made c
        have hquiet := fun hclose => Ended.call_quiet wr hindep hend (c := c) hclose hres
        rw [heq] at hres hwhole' hmade hquiet ⊢
        exact hlive.told hindep hend.state hcontent hwhole' hmade hquiet hres
      · obtain ⟨hstate, hmet, hblk⟩ := Ended.call_fails wr hindep hend hres
        by_cases hclose : Told.isClose c = true
        · refine ⟨.closed e, ?_, .closed hstate (hblk.mpr hclose) hmet⟩
          simp only [Told.next, hres, hclose, if_true]
        · refine ⟨.failed e, ?_, .failed hstate (fun hnone => hclose (hblk.mp hnone)) hmet⟩
          simp only [Told.next, hres, hclose, Bool.false_eq_true, if_false]
  | @failed e hstate hblk hmet =>
      by_cases hclose : Told.isClose c = true
      · obtain rfl : c = .close := by
          cases c <;> first | rfl | cases hclose
        obtain ⟨w', hrun, hstate', hblk', hle, hsrc⟩ := close_failed wr hstate hblk
        simp only [SyncWriter.call, hrun]
        exact ⟨_, by simp only [Told.next, Told.isClose, if_true],
          .closed hstate' hblk' (hsrc ▸ hmet.grow hle)⟩
      · have hagain := call_again wr hstate (c := c) (fun ht => absurd ht hclose)
        rw [hagain, takenOf_zero, List.append_nil]
        exact ⟨_, Told.next_failed (Bool.eq_false_iff.mpr hclose) e, .failed hstate hblk hmet⟩
  | @closed e hstate hblk hmet =>
      rw [call_again wr hstate (fun _ => hblk), takenOf_zero, List.append_nil]
      exact ⟨_, Told.next_closed c e, .closed hstate hblk hmet⟩
  | clean hstate hblk hout =>
      rw [call_again wr hstate (fun _ => hblk), takenOf_zero, List.append_nil]
      exact ⟨_, Told.next_clean c, .clean hstate hblk hout⟩

/-- **A sequence of calls.** -/
theorem At.runCalls {content : Bytes} {q : Told} (h : At o content w q) (cs : List WCall) :
    ∃ q', Machine.run Told.next q (cs.zip (w.runCalls wr cs).1) = some q'
      ∧ At o (content ++ taken cs (w.runCalls wr cs).1) (w.runCalls wr cs).2 q' := by
  induction cs generalizing w content q with
  | nil =>
      refine ⟨q, rfl, ?_⟩
      rw [show taken [] (w.runCalls wr []).1 = [] from rfl, List.append_nil]
      exact h
  | cons c cs ih =>
      obtain ⟨q₁, hnext, hat⟩ := h.call wr hindep c
      obtain ⟨q₂, hrun, hat₂⟩ := ih hat
      refine ⟨q₂, Machine.run_cons_eq_some.mpr ⟨q₁, hnext, hrun⟩, ?_⟩
      rw [List.append_assoc] at hat₂
      exact hat₂

omit hindep in
/-- The error state is what the caller has been told. -/
theorem At.state {content : Bytes} {q : Told} (h : At o content w q) : w.state = q.err := by
  cases h with
  | nothing hend => exact hend.state
  | failed hstate | closed hstate | clean hstate => exact hstate

omit hindep in
theorem at_new (buf : PoolBlk o.bsz) : At o [] (newSyncWriter Z o buf) .nothing := by
  refine .nothing ⟨made_new o buf, by rintro ⟨⟩, rfl, ?_, fun _ => rfl, by rintro e ⟨⟩⟩ ?_
    (live_new o buf) rfl
  · rintro _ c ⟨⟩
  · rintro c ⟨⟩

end SyncWriter

/-! ## What a Writer reports -/

/-- The results `rs` of the first calls of `script` follow the protocol; the error state `err`
is what is told, and has occurred as `Occurs` says; and a clean `Close` means that the frame is
out. -/
structure Reporting (Z : Clz4) (o : OptsT) (script : List WCall) (rs : List CallRes)
    (err : Option Err) (calls : List WrCall) (Occurs : Err → Prop) (q : Told) : Prop where
  protocol : Machine.run Told.next .nothing (script.zip rs) = some q
  told : q ≠ .nothing → err = q.err
  only : ∀ r ∈ rs, ∀ e, r.err = some e → err = some e
  occurs : q ≠ .clean → ∀ e, err = some e → Occurs e
  clean : q = .clean → FrameOut Z o calls (taken script rs)

theorem zip_concat {script rest : List WCall} {rs : List CallRes} {call : WCall}
    (h : script.drop rs.length = call :: rest) (r : CallRes) :
    script.zip (rs ++ [r]) = script.zip rs ++ [(call, r)] := by
  induction rs generalizing script with
  | nil =>
      rw [List.length_nil, List.drop_zero] at h
      rw [h]
      simp
  | cons r' rs ih =>
      rcases script with _ | ⟨call', script⟩
      · cases h
      · rw [List.length_cons, List.drop_succ_cons] at h
        rw [List.cons_append, List.zip_cons_cons, ih h, List.zip_cons_cons, List.cons_append]

/-- Of every call that has returned the protocol has a step. -/
theorem Told.only_zip {script : List WCall} {rs : List CallRes} {q : Told}
    (h : Machine.run Told.next .nothing (script.zip rs) = some q) (hlen : rs.length ≤ script.length)
    {r : CallRes} (hr : r ∈ rs) {e : Err} (he : r.err = some e) :
    q ≠ .nothing ∧ q.err = some e := by
  rw [← List.map_snd_zip hlen] at hr
  obtain ⟨x, hx, rfl⟩ := List.mem_map.mp hr
  exact only_run h hx he

namespace SyncWriter

theorem length_runCalls (wr : WrPlan) (w : SyncWriter Z) (cs : List WCall) :
    (w.runCalls wr cs).1.length = cs.length := by
  induction cs generalizing w with
  | nil => rfl
  | cons c cs ih => exact congrArg (· + 1) (ih _)

/-- **The synchronous writer reports.** -/
theorem reporting {o : OptsT} (hindep : o.blockLinked = false) (buf : PoolBlk o.bsz) (wr : WrPlan)
    (cs : List WCall) :
    let rs := ((newSyncWriter Z o buf).runCalls wr cs).1
    let w := ((newSyncWriter Z o buf).runCalls wr cs).2
    ∃ q, Reporting Z o cs rs w.state w.calls (FirstOccurred w.calls w.srcErrs) q
      ∧ (q = .nothing → w.state = none ∧ (∀ c ∈ w.calls, c.err = none) ∧ w.srcErrs = [])
      ∧ ∀ pre, pre <+: cs → ∀ e, ((newSyncWriter Z o buf).runCalls wr pre).2.state = some e →
        w.state = some e := by
  intro rs w
  obtain ⟨q, hrun, hat⟩ := At.runCalls wr hindep (at_new (Z := Z) buf) cs
  rw [List.nil_append] at hat
  refine ⟨q, ⟨hrun, fun _ => hat.state, fun r hr e he => ?_, fun hclean e he => ?_, ?_⟩, ?_, ?_⟩
  · have hlen := (length_runCalls wr (newSyncWriter Z o buf) cs).le
    exact hat.state.trans (Told.only_zip hrun hlen hr he).2
  · cases hat with
    | nothing hend => exact absurd (he.symm.trans hend.state) (by rintro ⟨⟩)
    | failed hstate _ hmet | closed hstate _ hmet =>
        obtain rfl := Option.some.inj (he.symm.trans hstate)
        exact hmet
    | clean => exact absurd rfl hclean
  · rintro rfl
    cases hat with
    | clean _ _ hout => exact hout
  · rintro rfl
    cases hat with
    | nothing hend => exact ⟨hend.state, hend.ok rfl, hend.quiet rfl⟩
  · -- an error once told stays: the run is split where it was
    rintro pre ⟨rest, rfl⟩ e he
    obtain ⟨q₁, hrun₁, hat₁⟩ := At.runCalls wr hindep (at_new (Z := Z) buf) pre
    obtain ⟨q₂, hrun₂, hat₂⟩ := At.runCalls wr hindep hat₁ rest
    rw [hat₁.state] at he
    have hne : q₁ ≠ .nothing := by
      rintro rfl
      cases he
    have hstate := hat₂.state.trans ((Told.err_run hrun₂ hne).2.trans he)
    rw [← runCalls_append] at hstate
    exact hstate

end SyncWriter

end Plz4
