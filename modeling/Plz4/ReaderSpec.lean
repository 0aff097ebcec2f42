/-
The `Reader` delivers the decoding of its stream, by `Read` calls of any sizes and by
`WriteTo`, whatever block reader and schedule it uses.
-/
import Plz4.Stream

set_option autoImplicit false

namespace Plz4

variable {Z : Clz4} {S : Sched Z}

namespace Reader

/-- What is still to be delivered, and the error after it. -/
def future (Z : Clz4) (r : Reader) : Bytes × Err :=
  match r.state with
  | some e => ([], e)
  | none =>
      match r.blkReader with
      | none => decodeStream Z r.seeks r.opts r.src
      | some t =>
          ahead (r.avail ++ t.bytes)
            (frameTail Z r.seeks r.opts (r.contentSz + UInt64.ofNat t.bytes.length) t)

/-- Between frames nothing of a frame is left, and in a frame the block reader has no
bare `io.EOF` to report. -/
structure Ok (r : Reader) : Prop where
  between : r.blkReader = none → r.dstBlk = none ∧ r.contentSz = 0
  inFrame : ∀ t, r.blkReader = some t → t.endErr ≠ .eof

theorem newReader_ok (src : Bytes) (seeks : Option SeekT) (o : OptsT) :
    (newReader src seeks o).Ok :=
  ⟨fun _ => ⟨rfl, rfl⟩, (by rintro _ ⟨⟩)⟩

theorem future_of_state {r : Reader} {e : Err} (h : r.state = some e) :
    r.future Z = ([], e) := by
  rw [future, h]

theorem future_of_body {r : Reader} {t : Session} (hstate : r.state = none)
    (hblk : r.blkReader = some t) :
    r.future Z = ahead (r.avail ++ t.bytes)
      (frameTail Z r.seeks r.opts (r.contentSz + UInt64.ofNat t.bytes.length) t) := by
  rw [future, hstate, hblk]

theorem future_of_header {r : Reader} (hstate : r.state = none) (hblk : r.blkReader = none) :
    r.future Z = decodeStream Z r.seeks r.opts r.src := by
  rw [future, hstate, hblk]

/-! ## Inside a frame -/

/-- What the body of a frame keeps when it has handed out `bs`: the session `t` has come
down to `t'`. -/
structure Advances (r : Reader) (t : Session) (bs : Bytes) (r' : Reader) (t' : Session) : Prop where
  blkReader : r'.blkReader = some t'
  bytes : r.avail ++ t.bytes = bs ++ (r'.avail ++ t'.bytes)
  contentSz : r.contentSz + UInt64.ofNat t.bytes.length
    = r'.contentSz + UInt64.ofNat t'.bytes.length
  endErr : t'.endErr = t.endErr
  rest : t'.rest = t.rest
  opts : r'.opts = r.opts
  seeks : r'.seeks = r.seeks
  state : r'.state = r.state

theorem Advances.trans {r r' r'' : Reader} {t t' t'' : Session} {bs bs' : Bytes}
    (h : r.Advances t bs r' t') (h' : r'.Advances t' bs' r'' t'') :
    r.Advances t (bs ++ bs') r'' t'' where
  blkReader := h'.blkReader
  bytes := by rw [h.bytes, h'.bytes, List.append_assoc]
  contentSz := h.contentSz.trans h'.contentSz
  endErr := h'.endErr.trans h.endErr
  rest := h'.rest.trans h.rest
  opts := h'.opts.trans h.opts
  seeks := h'.seeks.trans h.seeks
  state := h'.state.trans h.state

@[simp] theorem slide_blkReader (r : Reader) (k : ℕ) : (r.slide k).blkReader = r.blkReader := rfl

theorem slide_avail (r : Reader) (k : ℕ) : (r.slide k).avail = r.avail.drop k := by
  rw [avail, avail, List.drop_drop]
  rfl

/-- Handing out bytes of the current block. -/
theorem advances_copy {r : Reader} {t : Session} (hblk : r.blkReader = some t) (k : ℕ) :
    r.Advances t (r.avail.take k) (r.slide k) t where
  blkReader := hblk
  bytes := by rw [slide_avail, ← List.append_assoc, List.take_append_drop]
  contentSz := rfl
  endErr := rfl
  rest := rfl
  opts := rfl
  seeks := rfl
  state := rfl

/-- A new block, once the current one is used up. -/
theorem nextBlock_spec {r : Reader} {t : Session} (havail : r.avail = []) :
    ∃ t', r.Advances t [] (nextBlock t r).2 t' ∧
      (match (nextBlock t r).1 with
        | none => t'.blks.length + 1 = t.blks.length
        | some e => e = t.endErr ∧ t'.blks = [] ∧ (nextBlock t r).2.dstBlk = none) := by
  obtain ⟨blks, endCnt, endErr, rest⟩ := t
  rcases blks with _ | ⟨b, bs⟩
  · refine ⟨⟨[], endCnt, endErr, rest⟩, ⟨rfl, ?_, ?_, rfl, rfl, rfl, rfl, rfl⟩, rfl, rfl, rfl⟩
    · rw [havail]
      rfl
    · simp only [nextBlock, Session.next, Option.getD_none, List.length_nil, Session.bytes,
        List.flatMap_nil]
      exact (UInt64.add_zero _).symm
  · refine ⟨⟨bs, endCnt, endErr, rest⟩, ⟨rfl, ?_, ?_, rfl, rfl, rfl, rfl, rfl⟩, rfl⟩
    · rw [havail]
      rfl
    · simp only [nextBlock, Session.next, Option.getD_some, Session.bytes, List.flatMap_cons,
        List.length_append]
      rw [UInt64.ofNat_add, UInt64.add_assoc]

/-- The session has come to its end. -/
structure AtEndMark (r : Reader) (t : Session) (e : Err) (r' : Reader) (t' : Session) : Prop where
  err : e = t.endErr
  blks : t'.blks = []
  dstBlk : r'.dstBlk = none

/-- **`modeBody`.** It fills the buffer, or it comes to the end of the session. -/
theorem bodyLoop_spec (k n : ℕ) (r : Reader) {t : Session} (hblk : r.blkReader = some t)
    (hk : t.blks.length < k) :
    ∃ t', r.Advances t (bodyLoop k n r).1.1 (bodyLoop k n r).2 t' ∧
      (match (bodyLoop k n r).1.2 with
        | none => (bodyLoop k n r).1.1.length = n
        | some e => r.AtEndMark t e (bodyLoop k n r).2 t') := by
  induction k generalizing n r t with
  | zero => omega
  | succ k ih =>
      have hcopy := advances_copy hblk (r.avail.take n).length
      have htake : r.avail.take (r.avail.take n).length = r.avail.take n := by
        rw [List.length_take, List.take_eq_take_iff]
        omega
      rw [htake] at hcopy
      simp only [bodyLoop, slide_blkReader, hblk]
      by_cases hfull : (!r.avail.isEmpty && decide ((r.avail.take n).length = n)) = true
      · rw [if_pos hfull]
        refine ⟨t, hcopy, ?_⟩
        rw [Bool.and_eq_true, decide_eq_true_eq] at hfull
        exact hfull.2
      · rw [if_neg hfull]
        -- all that was there is copied: the next block is due
        have havail : (r.slide (r.avail.take n).length).avail = [] := by
          rw [slide_avail, List.drop_eq_nil_iff]
          rcases hav : r.avail with _ | ⟨x, xs⟩
          · exact Nat.zero_le _
          · rw [hav] at hfull
            simp only [List.isEmpty_cons, Bool.not_false, Bool.true_and, decide_eq_true_eq,
              List.length_take] at hfull
            rw [List.length_take]
            omega
        obtain ⟨t₁, hadv, hnext⟩ := nextBlock_spec (t := t) havail
        rcases hnb : nextBlock t (r.slide (r.avail.take n).length) with ⟨_ | e, r₁⟩
        · rw [hnb] at hadv hnext
          simp only at hadv hnext ⊢
          obtain ⟨t₂, hadv₂, hres⟩ := ih (n - (r.avail.take n).length) r₁ hadv.blkReader (by omega)
          have hbs := (hcopy.trans hadv).trans hadv₂
          rw [List.append_nil] at hbs
          refine ⟨t₂, hbs, ?_⟩
          rcases hb : bodyLoop k (n - (r.avail.take n).length) r₁ with ⟨⟨bs, _ | e⟩, r₂⟩
          · rw [hb] at hres
            simp only at hres ⊢
            have hle := List.length_take_le n r.avail
            rw [List.length_append]
            omega
          · rw [hb] at hres
            exact ⟨hres.err.trans hadv.endErr, hres.blks, hres.dstBlk⟩
        · rw [hnb] at hadv hnext
          simp only at hadv hnext ⊢
          have hbs := hcopy.trans hadv
          rw [List.append_nil] at hbs
          exact ⟨t₁, hbs, hnext.1, hnext.2.1, hnext.2.2⟩

/-- **`_writeTo`** into a destination that does not fail passes on all the session has. -/
theorem writeLoop_spec (k : ℕ) (calls : List WrCall) (r : Reader) {t : Session}
    (hblk : r.blkReader = some t) (hk : t.blks.length < k) :
    ∃ t' bs calls' r', writeLoop .ok k calls r = (((bs.length, some t.endErr), calls'), r') ∧
      r.Advances t bs r' t' ∧ r.AtEndMark t t.endErr r' t' ∧ passed calls' = passed calls ++ bs := by
  induction k generalizing calls r t with
  | zero => omega
  | succ k ih =>
      have hcopy := advances_copy hblk r.avail.length
      rw [List.take_length] at hcopy
      obtain ⟨calls₁, hwrite, hpassed⟩ : ∃ calls₁,
          (if r.avail.isEmpty then (0, none, calls) else wrWrite .ok calls r.avail)
            = (r.avail.length, (none : Option Err), calls₁) ∧
          passed calls₁ = passed calls ++ r.avail := by
        rcases r.avail with _ | ⟨x, xs⟩
        · exact ⟨calls, rfl, (List.append_nil _).symm⟩
        · refine ⟨_, rfl, ?_⟩
          rw [passed_append]
          exact congrArg (passed calls ++ ·) (List.append_nil _)
      -- what was left of the block before is passed on first
      have havail : (r.slide r.avail.length).avail = [] := by
        rw [slide_avail, List.drop_length]
      obtain ⟨t₁, hadv, hnext⟩ := nextBlock_spec (t := t) havail
      have hbs := hcopy.trans hadv
      rw [List.append_nil] at hbs
      simp only [writeLoop, hwrite, slide_blkReader, hblk]
      rcases hnb : nextBlock t (r.slide r.avail.length) with ⟨_ | e, r₁⟩ <;>
        rw [hnb] at hbs hadv hnext <;> simp only at hadv hbs hnext ⊢
      · obtain ⟨t₂, bs, calls₂, r₂, hloop, hadv₂, hend, hp⟩ :=
          ih calls₁ r₁ hadv.blkReader (by omega)
        refine ⟨t₂, r.avail ++ bs, calls₂, r₂, ?_, hbs.trans hadv₂,
          ⟨rfl, hend.blks, hend.dstBlk⟩, ?_⟩
        · rw [hloop, List.length_append, hadv.endErr]
        · rw [hp, hpassed, List.append_assoc]
      · obtain ⟨rfl, hblks, hdst⟩ := hnext
        exact ⟨t₁, r.avail, calls₁, r₁, rfl, hbs, ⟨rfl, hblks, hdst⟩, hpassed⟩

/-- The future inside a frame does not change as bytes are handed out. -/
theorem Advances.future {r r' : Reader} {t t' : Session} {bs : Bytes} (hstate : r.state = none)
    (hblk : r.blkReader = some t) (h : r.Advances t bs r' t') :
    r.future Z = ahead bs (r'.future Z) := by
  rw [future_of_body hstate hblk, future_of_body (h.state.trans hstate) h.blkReader, h.bytes,
    h.contentSz, h.opts, h.seeks, ahead_append, frameTail, frameTail, h.endErr, h.rest]

theorem Advances.ok {r r' : Reader} {t t' : Session} {bs : Bytes} (hok : r.Ok)
    (hblk : r.blkReader = some t) (h : r.Advances t bs r' t') : r'.Ok := by
  refine ⟨fun hnone => ?_, fun u hu => ?_⟩
  · rw [h.blkReader] at hnone
    cases hnone
  · rw [h.blkReader] at hu
    rw [← Option.some.inj hu, h.endErr]
    exact hok.inFrame t hblk

/-- At the end of a session nothing is left but its error. -/
theorem AtEndMark.future {r r' : Reader} {t t' : Session} {e : Err}
    (h : r.AtEndMark t e r' t') (hstate : r'.state = none) (hblk : r'.blkReader = some t') :
    r'.future Z = frameTail Z r'.seeks r'.opts r'.contentSz t' := by
  have havail : r'.avail = [] := by
    rw [avail, h.dstBlk]
    exact List.drop_nil
  have hbytes : t'.bytes = [] := by
    rw [Session.bytes, h.blks]
    rfl
  have hzero : r'.contentSz + UInt64.ofNat ([] : Bytes).length = r'.contentSz :=
    UInt64.add_zero _
  rw [future_of_body hstate hblk, havail, hbytes, hzero]
  exact ahead_nil _

/-- `handleEndMark`, and the state set to what it returns. -/
def passEndMark (r : Reader) : Reader :=
  { r.handleEndMark.2 with state := r.handleEndMark.1 }

/-- Past the end mark the reader is between frames, or failed on the content size. -/
theorem passEndMark_spec {r r' : Reader} {t t' : Session} {e : Err}
    (h : r.AtEndMark t e r' t') (hstate : r'.state = none) (hblk : r'.blkReader = some t')
    (hend : t'.endErr = .const .endMark) :
    r'.passEndMark.Ok ∧ r'.future Z = r'.passEndMark.future Z ∧
      ∀ e, r'.handleEndMark.1 = some e → e ≠ .eof := by
  have herr : r'.handleEndMark.1 = sizeErr r'.opts r'.contentSz := rfl
  refine ⟨⟨fun _ => ⟨h.dstBlk, rfl⟩, (by rintro _ ⟨⟩)⟩, ?_, ?_⟩
  · rw [h.future hstate hblk, frameTail, if_pos hend]
    rcases hsz : sizeErr r'.opts r'.contentSz with _ | e
    · rw [future_of_header (herr.trans hsz) rfl]
      simp only [passEndMark, handleEndMark, hblk, Option.elim_some]
    · rw [future_of_state (herr.trans hsz)]
  · intro e he
    rw [herr, sizeErr] at he
    split at he
    · cases he
    · split_ifs at he
      rw [← Option.some.inj he]
      rintro ⟨⟩

/-! ## Opening a frame -/

/-- Dependent blocks get one worker. -/
theorem openFrame_serial {seeks : Option SeekT} {o : OptsT} {src : Bytes}
    (h : (openFrame seeks o src).err = none) :
    0 < (openFrame seeks o src).opts.nParallel →
      (openFrame seeks o src).hdr.flags.blockIndependence = false →
      (openFrame seeks o src).opts.nParallel = 1 := by
  have hserial : ∀ (o : OptsT) (hdr : HeaderT), 0 < (serialOpts o hdr).nParallel →
      hdr.flags.blockIndependence = false → (serialOpts o hdr).nParallel = 1 := by
    intro o hdr hpos hind
    rw [serialOpts] at hpos ⊢
    split_ifs at hpos ⊢ with hc
    · rfl
    · exact absurd ⟨hpos, hind⟩ hc
  simp only [openFrame] at h ⊢
  split at h
  · cases h
  · split at h
    · cases h
    · split at h
      · rename_i heq
        rw [heq] at h
        cases h
      · simp only [*]
        exact hserial _ _

/-- **`_readHeader`.** It fails with the error of the stream, or leaves the stream to
the block reader. -/
theorem _readHeader_spec {r : Reader} (hok : r.Ok) (hstate : r.state = none)
    (hblk : r.blkReader = none) :
    match (r._readHeader S).1.2 with
    | some e => r.future Z = ([], e) ∧ e ≠ .const .endMark ∧ (r._readHeader S).2.Ok
    | none => ∃ t, (r._readHeader S).2.blkReader = some t ∧ (r._readHeader S).2.Ok ∧
        (r._readHeader S).2.state = none ∧ r.future Z = (r._readHeader S).2.future Z ∧
        (t.endErr = .const .endMark → t.rest.length + 7 ≤ r.src.length) := by
  have hdst := hok.between hblk
  rw [future_of_header hstate hblk]
  rcases herr : (openFrame r.seeks r.opts r.src).err with _ | e
  · have hlen := openFrame_length herr
    set p := openFrame r.seeks r.opts r.src with hp
    have hsame : (S.blkSession p.hdr p.opts p.src).Same (frameSession Z p.hdr p.opts p.src) :=
      S.blkSession_same (openFrame_serial herr)
    set t := S.blkSession p.hdr p.opts p.src with ht
    have hread : r._readHeader S = ((p.nRead, none),
        { r with opts := p.opts, src := p.src, blkReader := some t }) := by
      simp only [_readHeader, ← hp, herr, ← ht]
    rw [hread]
    refine ⟨t, rfl, ⟨(by rintro ⟨⟩), fun u hu => ?_⟩, hstate, ?_, fun hend => ?_⟩
    · rw [← Option.some.inj hu, hsame.endErr]
      exact frameSession_endErr_ne_eof _ _ _
    · -- no bytes are left of the frame before
      have havail : ({ r with opts := p.opts, src := p.src, blkReader := some t } : Reader).avail
          = [] := by
        rw [avail, hdst.1]
        exact List.drop_nil
      have hbody := future_of_body (Z := Z) (t := t)
        (r := { r with opts := p.opts, src := p.src, blkReader := some t }) hstate rfl
      rw [havail, List.nil_append] at hbody
      refine (decodeStream_opened herr hsame).trans (Eq.trans ?_ hbody.symm)
      change _ = ahead t.bytes (frameTail Z r.seeks p.opts (r.contentSz + _) t)
      rw [hdst.2, UInt64.zero_add]
    · rw [hsame.rest hend]
      have hrest := frameSession_rest_length (Z := Z) p.hdr p.opts p.src
      have hseven : lz4MinHeaderSz = 7 := rfl
      omega
  · have hread : r._readHeader S = (((openFrame r.seeks r.opts r.src).nRead, some e),
        { r with opts := (openFrame r.seeks r.opts r.src).opts,
                 src := (openFrame r.seeks r.opts r.src).src }) := by
      simp only [_readHeader, herr]
    rw [hread]
    exact ⟨decodeStream_error herr,
      fun he => openFrame_not_endMark r.seeks r.opts r.src (he ▸ herr), fun _ => hdst,
      fun u hu => by rw [hblk] at hu; cases hu⟩

/-! ## `Read` -/

/-- What is left of the source, counted so that every `Read` that delivers nothing
lowers it. -/
def room (r : Reader) : ℕ :=
  match r.state with
  | some _ => 0
  | none =>
      match r.blkReader with
      | none => r.src.length + 2
      | some t => if t.endErr = .const .endMark then t.rest.length + 3 else 1

/-- What a `Read` into `n` bytes does: it returns the next bytes, or all that is left
and the final error. -/
structure ReadsOn (Z : Clz4) (r : Reader) (n : ℕ) (bs : Bytes) (err : Option Err) (r' : Reader) :
    Prop where
  ok : r'.Ok
  next : err = none → r.future Z = ahead bs (r'.future Z)
  last : ∀ e, err = some e → r.future Z = (bs, e) ∧ r'.state = some e
  deferred : err = none → ∀ e, r'.state = some e → e ≠ .eof
  room : err = none → 0 < n → r'.room < r.room + bs.length

/-- The body of a `Read`, once the header is read. -/
theorem settle_modeBody {r : Reader} {t : Session} (hok : r.Ok) (hstate : r.state = none)
    (hblk : r.blkReader = some t) (n : ℕ) :
    r.ReadsOn Z n (settle (r.modeBody n).1.1 (r.modeBody n).1.2 (r.modeBody n).2).1.1
      (settle (r.modeBody n).1.1 (r.modeBody n).1.2 (r.modeBody n).2).1.2
      (settle (r.modeBody n).1.1 (r.modeBody n).1.2 (r.modeBody n).2).2 := by
  have hpasses : t.blks.length < r.passes := by
    rw [passes, hblk]
    exact Nat.lt_succ_self _
  obtain ⟨t', hadv, hres⟩ := bodyLoop_spec r.passes n r hblk hpasses
  rw [← modeBody] at hadv hres
  rcases hb : r.modeBody n with ⟨⟨bs, _ | e⟩, r'⟩ <;> rw [hb] at hadv hres <;> simp only at hadv hres ⊢
  · -- the buffer is full
    refine ⟨hadv.ok hok hblk, fun _ => hadv.future hstate hblk, (by rintro _ ⟨⟩), fun _ e he => ?_,
      fun _ hn => ?_⟩
    · rw [settle, hadv.state, hstate] at he
      cases he
    have hroom : r'.room = r.room := by
      rw [room, room, hadv.state, hstate, hadv.blkReader, hblk]
      simp only [hadv.endErr, hadv.rest]
    simp only [settle, hroom]
    omega
  · have hstate' := hadv.state.trans hstate
    have hfut := hadv.future (Z := Z) hstate hblk
    have hsome : r'.blkReader.isSome = true := by rw [hadv.blkReader]; rfl
    by_cases hend : e = .const .endMark
    · -- the end mark: the stream goes on, or the content size is wrong
      have htend : t.endErr = .const .endMark := hres.err ▸ hend
      obtain ⟨hpok, hpfut, -⟩ :=
        passEndMark_spec (Z := Z) hres hstate' hadv.blkReader (hadv.endErr.trans htend)
      have hset : settle bs (some e) r' = ((bs, r'.handleEndMark.1), r'.passEndMark) := by
        simp only [settle, if_pos hend, passEndMark]
      rw [hset]
      refine ⟨hpok, fun _ => by rw [hfut, hpfut], fun e' he' => ⟨?_, he'⟩, fun he' e he => ?_,
        fun he' _ => ?_⟩
      · rw [hfut, hpfut, future_of_state (r := r'.passEndMark) he', ahead, List.append_nil]
      · cases he'.symm.trans he
      · have hroom : r'.passEndMark.room = t'.rest.length + 2 := by
          rw [room, passEndMark]
          simp only at he' ⊢
          rw [he']
          simp only [handleEndMark, hadv.blkReader, Option.elim_some]
        have hroom' : r.room = t.rest.length + 3 := by
          rw [room, hstate, hblk]
          simp only [htend, if_true]
        rw [hroom, hroom', hadv.rest]
        omega
    · -- an error of the blocks: nothing comes after it
      have hlast : r.future Z = (bs, e) := by
        have htail : r'.future Z = ([], e) := by
          rw [hres.future hstate' hadv.blkReader, frameTail, hadv.endErr, ← hres.err, if_neg hend]
        rw [hfut, htail, ahead, List.append_nil]
      have hok' : ({ r' with state := some e } : Reader).Ok :=
        ⟨(hadv.ok hok hblk).between, (hadv.ok hok hblk).inFrame⟩
      by_cases hbs : bs ≠ [] ∧ r'.blkReader.isSome = true
      · -- bytes were copied: the error waits for the next call
        simp only [settle, if_neg hend, if_pos hbs]
        refine ⟨hok', fun _ => ?_, (by rintro _ ⟨⟩), fun _ e' he' => ?_, fun _ _ => ?_⟩
        · rw [hlast, future_of_state (r := { r' with state := some e }) rfl, ahead, List.append_nil]
        · rw [← Option.some.inj he', hres.err]
          exact hok.inFrame t hblk
        · have hpos := List.length_pos_iff.mpr hbs.1
          have hzero : ({ r' with state := some e } : Reader).room = 0 := rfl
          omega
      · simp only [settle, if_neg hend, if_neg hbs]
        exact ⟨hok', (by rintro ⟨⟩), fun e' he' => ⟨Option.some.inj he' ▸ hlast, he'⟩,
          (by rintro ⟨⟩), (by rintro ⟨⟩)⟩

/-- **`Read`.** -/
theorem read_spec (S : Sched Z) {r : Reader} (hok : r.Ok) (n : ℕ) :
    r.ReadsOn Z n (r.read S n).1.1 (r.read S n).1.2 (r.read S n).2 := by
  rcases hstate : r.state with _ | e
  · rcases hblk : r.blkReader with _ | t
    · -- a header is due, and the body of its frame fills the buffer
      have hspec := _readHeader_spec (S := S) hok hstate hblk
      have hroom : r.room = r.src.length + 2 := by rw [room, hstate, hblk]
      rcases hh : r._readHeader S with ⟨⟨nBytes, _ | e⟩, r₁⟩ <;> rw [hh] at hspec <;> simp only at hspec
      · obtain ⟨t, hblk₁, hok₁, hstate₁, hfut, hrest⟩ := hspec
        have hread : r.read S n = settle (modeBody n { r₁ with srcPos := r₁.srcPos + nBytes }).1.1
            (modeBody n { r₁ with srcPos := r₁.srcPos + nBytes }).1.2
            (modeBody n { r₁ with srcPos := r₁.srcPos + nBytes }).2 := by
          simp only [read, hstate, hblk, Option.isSome_none, Bool.false_eq_true, if_false,
            modeHeader, hh]
        have hbody := settle_modeBody (Z := Z) (r := { r₁ with srcPos := r₁.srcPos + nBytes })
          ⟨hok₁.between, hok₁.inFrame⟩ hstate₁ hblk₁ n
        have hfut' : r.future Z = ({ r₁ with srcPos := r₁.srcPos + nBytes } : Reader).future Z := hfut
        rw [hread]
        refine ⟨hbody.ok, fun he => hfut'.trans (hbody.next he),
          fun e he => ⟨hfut'.trans (hbody.last e he).1, (hbody.last e he).2⟩, hbody.deferred,
          fun he hn => ?_⟩
        refine (hbody.room he hn).trans_le (Nat.add_le_add_right ?_ _)
        rw [hroom, room]
        simp only [hstate₁, hblk₁]
        split_ifs with hend
        · have := hrest hend
          omega
        · omega
      · obtain ⟨hfut, hne, hok₁⟩ := hspec
        have hread : r.read S n = (([], some e),
            { r₁ with srcPos := r₁.srcPos + nBytes, state := some e }) := by
          simp only [read, hstate, hblk, Option.isSome_none, Bool.false_eq_true, if_false,
            modeHeader, hh, settle, if_neg hne, ne_eq, not_true_eq_false, false_and]
        rw [hread]
        exact ⟨⟨hok₁.between, hok₁.inFrame⟩, (by rintro ⟨⟩),
          fun e' he' => ⟨Option.some.inj he' ▸ hfut, he'⟩, (by rintro ⟨⟩), (by rintro ⟨⟩)⟩
    · have hread : r.read S n = settle (r.modeBody n).1.1 (r.modeBody n).1.2 (r.modeBody n).2 := by
        simp only [read, hstate, hblk, Option.isSome_some, if_true]
      rw [hread]
      exact settle_modeBody hok hstate hblk n
  · have hread : r.read S n = (([], some e), r) := by simp only [read, hstate]
    rw [hread]
    exact ⟨hok, (by rintro ⟨⟩), fun e' he' => ⟨Option.some.inj he' ▸ future_of_state hstate,
      Option.some.inj he' ▸ hstate⟩, (by rintro ⟨⟩), (by rintro ⟨⟩)⟩

/-- `Read` calls with the given buffer sizes, up to the first error. -/
def readAll (S : Sched Z) : List ℕ → Reader → (Bytes × Option Err) × Reader
  | [], r => (([], none), r)
  | n :: ns, r =>
      let ((bs, err), r) := r.read S n
      match err with
      | some e => ((bs, some e), r)
      | none =>
          let ((bs', err), r) := readAll S ns r
          ((bs ++ bs', err), r)

/-- A series of `Read` calls of any sizes. -/
theorem readAll_spec (S : Sched Z) (ns : List ℕ) {r : Reader} (hok : r.Ok) :
    (r.readAll S ns).2.Ok ∧
    ((r.readAll S ns).1.2 = none →
      r.future Z = ahead (r.readAll S ns).1.1 ((r.readAll S ns).2.future Z)) ∧
    (∀ e, (r.readAll S ns).1.2 = some e → r.future Z = ((r.readAll S ns).1.1, e)) := by
  induction ns generalizing r with
  | nil => exact ⟨hok, fun _ => rfl, (by rintro _ ⟨⟩)⟩
  | cons n ns ih =>
      have hread := read_spec S hok n
      rcases hr : r.read S n with ⟨⟨bs, _ | e⟩, r₁⟩ <;> rw [hr] at hread <;>
        simp only [readAll, hr] at hread ⊢
      · obtain ⟨hok', hnext, hlast⟩ := ih hread.ok
        have hfut := hread.next rfl
        refine ⟨hok', fun he => ?_, fun e he => ?_⟩
        · rw [hfut, hnext he, ahead_append]
        · rw [hfut, hlast e he, ahead]
      · exact ⟨hread.ok, (by rintro ⟨⟩), fun e' he' => Option.some.inj he' ▸ (hread.last e rfl).1⟩

/-- Without an error returned no `io.EOF` waits for the next call. -/
theorem readAll_deferred (S : Sched Z) (ns : List ℕ) {r : Reader} (hok : r.Ok)
    (hstate : ∀ e, r.state = some e → e ≠ .eof) (hnone : (r.readAll S ns).1.2 = none) :
    ∀ e, (r.readAll S ns).2.state = some e → e ≠ .eof := by
  induction ns generalizing r with
  | nil => exact hstate
  | cons n ns ih =>
      have hread := read_spec S hok n
      rcases hr : r.read S n with ⟨⟨bs, _ | e⟩, r₁⟩ <;> rw [hr] at hread <;>
        simp only [readAll, hr, reduceCtorEq] at hread hnone ⊢
      exact ih hread.ok (hread.deferred rfl) hnone

/-- Enough calls with room for a byte reach the end. -/
theorem readAll_ends (S : Sched Z) (ns : List ℕ) {r : Reader} (hok : r.Ok)
    (hpos : ∀ n ∈ ns, 0 < n) (hlen : (r.future Z).1.length + r.room < ns.length) :
    (r.readAll S ns).1.2 ≠ none := by
  induction ns generalizing r with
  | nil => exact absurd hlen (Nat.not_lt_zero _)
  | cons n ns ih =>
      have hread := read_spec S hok n
      rcases hr : r.read S n with ⟨⟨bs, _ | e⟩, r₁⟩ <;> rw [hr] at hread <;>
        simp only [readAll, hr] at hread ⊢
      · have hroom := hread.room rfl (hpos n List.mem_cons_self)
        rw [hread.next rfl, ahead, List.length_append, List.length_cons] at hlen
        exact ih hread.ok (fun m hm => hpos m (List.mem_cons_of_mem n hm)) (by omega)
      · rintro ⟨⟩

/-! ## `WriteTo` -/

/-- What `WriteTo` reports of the error that ends a stream. -/
def writeToErr (e : Err) : Option Err := if e = .eof then none else some e

/-- One frame of `WriteTo`. -/
theorem writeFrame_spec {r : Reader} {t : Session} (calls : List WrCall) (hok : r.Ok)
    (hstate : r.state = none) (hblk : r.blkReader = some t) :
    ∃ bs calls' r', r.writeFrame .ok calls = ((bs.length, calls'), r') ∧ r'.Ok ∧
      r.future Z = ahead bs (r'.future Z) ∧ passed calls' = passed calls ++ bs ∧
      (∀ e, r'.state = some e → e ≠ .eof) ∧
      (r'.state = none → t.endErr = .const .endMark ∧ r'.blkReader = none ∧ r'.src = t.rest) := by
  have hpasses : t.blks.length < r.passes := by
    rw [passes, hblk]
    exact Nat.lt_succ_self _
  obtain ⟨t', bs, calls', r', hloop, hadv, hend, hpassed⟩ :=
    writeLoop_spec r.passes calls r hblk hpasses
  rw [← _writeTo] at hloop
  have hstate' := hadv.state.trans hstate
  have hfut := hadv.future (Z := Z) hstate hblk
  by_cases hmark : t.endErr = .const .endMark
  · obtain ⟨hpok, hpfut, hpne⟩ :=
      passEndMark_spec (Z := Z) hend hstate' hadv.blkReader (hadv.endErr.trans hmark)
    refine ⟨bs, calls', r'.passEndMark, ?_, hpok, hfut.trans (congrArg _ hpfut), hpassed, hpne,
      fun _ => ⟨hmark, rfl, ?_⟩⟩
    · simp only [writeFrame, hloop, hmark, if_true]
      rfl
    · simp only [passEndMark, handleEndMark, hadv.blkReader, Option.elim_some, hadv.rest]
  · have htail : r'.future Z = ([], t.endErr) := by
      rw [hend.future hstate' hadv.blkReader, frameTail, hadv.endErr, if_neg hmark]
    refine ⟨bs, calls', { r' with state := some t.endErr }, ?_,
      ⟨(hadv.ok hok hblk).between, (hadv.ok hok hblk).inFrame⟩, ?_, hpassed, fun e he => ?_, (by rintro ⟨⟩)⟩
    · simp only [writeFrame, hloop, Option.some.injEq, if_neg hmark]
    · rw [hfut, htail]
      rfl
    · rw [← Option.some.inj he]
      exact hok.inFrame t hblk

/-- The bytes the frames to come may still take. -/
def unread (r : Reader) : ℕ :=
  match r.state with
  | some _ => 0
  | none =>
      match r.blkReader with
      | none => r.src.length + 1
      | some t => t.rest.length + 2

/-- The fuel of `WriteTo` covers the frames ahead. -/
theorem unread_lt (r : Reader) :
    r.unread < r.src.length + r.blkReader.elim 0 (fun t => t.rest.length) + 3 := by
  rcases hst : r.state with _ | e
  · rcases hblk : r.blkReader with _ | t <;> simp only [unread, hst, hblk, Option.elim_none,
      Option.elim_some] <;> omega
  · simp only [unread, hst]
    omega

/-- Past a frame less is ahead: what is behind its end mark, or nothing. -/
theorem unread_frame {r : Reader} {t : Session} {n : ℕ} (hn : 0 < n)
    (hrest : t.endErr = .const .endMark → t.rest.length + 1 < n)
    (hnext : r.state = none → t.endErr = .const .endMark ∧ r.blkReader = none ∧ r.src = t.rest) :
    r.unread < n := by
  rcases hst : r.state with _ | e
  · obtain ⟨hmark, hblk, hsrc⟩ := hnext hst
    rw [unread, hst, hblk, hsrc]
    exact hrest hmark
  · rw [unread, hst]
    exact hn

/-- **`WriteTo`** into a destination that does not fail, by the loop over the frames. -/
theorem frameLoop_spec (S : Sched Z) (k : ℕ) (calls : List WrCall) {r : Reader} (hok : r.Ok)
    (hstate : ∀ e, r.state = some e → e ≠ .eof) (hk : r.unread < k) :
    ∃ calls' r', frameLoop S .ok k calls r
        = ((((r.future Z).1.length, writeToErr (r.future Z).2), calls'), r') ∧
      passed calls' = passed calls ++ (r.future Z).1 := by
  induction k generalizing calls r with
  | zero => omega
  | succ k ih =>
      rcases hst : r.state with _ | e
      · rcases hblk : r.blkReader with _ | t
        · -- between frames: a header, and its frame behind it
          have hspec := _readHeader_spec (S := S) hok hst hblk
          rcases hh : r._readHeader S with ⟨⟨nBytes, _ | e⟩, r₁⟩ <;> rw [hh] at hspec <;>
            simp only at hspec
          · obtain ⟨t, hblk₁, hok₁, hst₁, hfut₁, hrest⟩ := hspec
            obtain ⟨bs, calls₁, r₂, hframe, hok₂, hfut, hp, hne, hnext⟩ :=
              writeFrame_spec (Z := Z) (r := { r₁ with srcPos := r₁.srcPos + nBytes }) calls
                ⟨hok₁.between, hok₁.inFrame⟩ hst₁ hblk₁
            replace hfut : r.future Z = ahead bs (r₂.future Z) := hfut₁.trans hfut
            have hk₁ : r₂.unread < k := by
              rw [unread, hst, hblk] at hk
              simp only at hk
              refine unread_frame (by omega) (fun hmark => ?_) hnext
              have hlen := hrest hmark
              omega
            obtain ⟨calls₂, r₃, hloop, hp₂⟩ := ih calls₁ hok₂ hne hk₁
            refine ⟨calls₂, r₃, ?_, ?_⟩
            · simp only [frameLoop, hst, hblk, Option.isSome_none, Bool.false_eq_true, if_false, hh,
                hframe, hloop, hfut, ahead, List.length_append]
            · rw [hp₂, hp, hfut, ahead, List.append_assoc]
          · obtain ⟨hfut, -, -⟩ := hspec
            refine ⟨calls, { r₁ with srcPos := r₁.srcPos + nBytes, state := writeToErr e }, ?_, ?_⟩
            · simp only [frameLoop, hst, hblk, Option.isSome_none, Bool.false_eq_true, if_false, hh,
                hfut, List.length_nil, writeToErr]
            · rw [hfut, List.append_nil]
        · -- inside a frame, as `Read` may leave it: the rest of that frame first
          obtain ⟨bs, calls₁, r₁, hframe, hok₁, hfut, hp, hne, hnext⟩ :=
            writeFrame_spec (Z := Z) calls hok hst hblk
          have hk₁ : r₁.unread < k := by
            rw [unread, hst, hblk] at hk
            simp only at hk
            exact unread_frame (by omega) (fun _ => by omega) hnext
          obtain ⟨calls₂, r₂, hloop, hp₂⟩ := ih calls₁ hok₁ hne hk₁
          refine ⟨calls₂, r₂, ?_, ?_⟩
          · simp only [frameLoop, hst, hblk, Option.isSome_none, Option.isSome_some,
              Bool.false_eq_true, if_false, if_true, hframe, hloop, hfut, ahead,
              List.length_append]
          · rw [hp₂, hp, hfut, ahead, List.append_assoc]
      · -- an error from before is reported, and nothing is read
        have hfut := future_of_state (Z := Z) hst
        refine ⟨calls, r, ?_, ?_⟩
        · simp only [frameLoop, hst, Option.isSome_some, if_true, hfut, List.length_nil, writeToErr,
            if_neg (hstate e hst)]
        · rw [hfut, List.append_nil]

/-! ## Delivery -/

/-- The reader delivers exactly `bs` and then `e`, where `io.EOF` is the clean end: a
`WriteTo` passes on `bs` and reports `e`, and so does any series of `Read` calls, of
which enough with room for a byte reach the end. -/
structure Delivers (S : Sched Z) (r : Reader) (bs : Bytes) (e : Err) : Prop where
  writeTo : (r.writeTo S .ok).1.1 = (bs.length, writeToErr e) ∧ passed (r.writeTo S .ok).1.2 = bs
  reads : ∀ ns, (r.readAll S ns).1.1 <+: bs
  last : ∀ ns e', (r.readAll S ns).1.2 = some e' → (r.readAll S ns).1.1 = bs ∧ e' = e
  ends : ∃ k, ∀ ns, (∀ n ∈ ns, 0 < n) → k < ns.length → (r.readAll S ns).1.2 ≠ none

/-- **The reader delivers its future.** -/
theorem delivers_future (S : Sched Z) {r : Reader} (hok : r.Ok)
    (hstate : ∀ e, r.state = some e → e ≠ .eof) :
    r.Delivers S (r.future Z).1 (r.future Z).2 := by
  refine ⟨?_, fun ns => ?_, fun ns e' he' => ?_, (r.future Z).1.length + r.room,
    fun ns hpos hlen => readAll_ends S ns hok hpos hlen⟩
  · obtain ⟨calls', r', hloop, hp⟩ := frameLoop_spec S _ [] hok hstate r.unread_lt
    rw [Reader.writeTo, hloop]
    exact ⟨rfl, hp⟩
  · obtain ⟨-, hnext, hlast⟩ := readAll_spec S ns hok
    rcases herr : (r.readAll S ns).1.2 with _ | e
    · rw [hnext herr, ahead]
      exact List.prefix_append _ _
    · rw [hlast e herr]
  · obtain ⟨-, -, hlast⟩ := readAll_spec S ns hok
    rw [hlast e' he']
    exact ⟨rfl, rfl⟩

/-- What a reader delivers is one thing. -/
theorem Delivers.unique {r : Reader} {bs bs' : Bytes} {e e' : Err} (h : r.Delivers S bs e)
    (h' : r.Delivers S bs' e') : bs = bs' ∧ e = e' := by
  obtain ⟨k, hk⟩ := h.ends
  have hpos : ∀ n ∈ List.replicate (k + 1) 1, 0 < n := by
    intro n hn
    rw [List.eq_of_mem_replicate hn]
    exact Nat.one_pos
  obtain ⟨e₁, he₁⟩ := Option.ne_none_iff_exists'.mp
    (hk _ hpos (by rw [List.length_replicate]; exact Nat.lt_succ_self k))
  obtain ⟨hbs, he⟩ := h.last _ _ he₁
  obtain ⟨hbs', he'⟩ := h'.last _ _ he₁
  exact ⟨hbs.symm.trans hbs', he.symm.trans he'⟩

end Reader

/-- A fresh reader delivers the decoding of its stream. -/
theorem newReader_delivers (S : Sched Z) (src : Bytes) (seeks : Option SeekT) (o : OptsT) :
    (newReader src seeks o).Delivers S (decodeStream Z seeks o src).1
      (decodeStream Z seeks o src).2 :=
  Reader.delivers_future S (Reader.newReader_ok src seeks o) (by rintro _ ⟨⟩)

theorem newReader_delivers_iff (S : Sched Z) (src : Bytes) (seeks : Option SeekT) (o : OptsT)
    (bs : Bytes) (e : Err) :
    (newReader src seeks o).Delivers S bs e ↔ decodeStream Z seeks o src = (bs, e) := by
  constructor
  · intro h
    obtain ⟨hbs, he⟩ := (newReader_delivers S src seeks o).unique h
    exact Prod.ext hbs he
  · intro h
    have hd := newReader_delivers S src seeks o
    rw [h] at hd
    exact hd

/-- **The sizes of the reads do not matter.** One `WriteTo` passes on `bs` and ends with `e`;
`Read` calls of any sizes hand out `bs` up to the first error, which is `e`, and a `WriteTo`
after any of them passes on what is left and ends with `e`. An error that a `Read` meets is
returned by it or by the next call. -/
theorem read_sizes (S : Sched Z) (S' : Sched Z) (src : Bytes) (seeks : Option SeekT) (o : OptsT) :
    ∃ bs e,
      (((newReader src seeks o).writeTo S' .ok).1.1 = (bs.length, Reader.writeToErr e)
        ∧ passed ((newReader src seeks o).writeTo S' .ok).1.2 = bs)
      ∧ (∃ k, ∀ ns, (∀ n ∈ ns, 0 < n) → k < ns.length →
        ((newReader src seeks o).readAll S ns).1.2 ≠ none)
      ∧ ∀ ns,
        (∀ e', ((newReader src seeks o).readAll S ns).1.2 = some e' →
          ((newReader src seeks o).readAll S ns).1.1 = bs ∧ e' = e)
        ∧ (((newReader src seeks o).readAll S ns).1.2 = none →
          let r := ((newReader src seeks o).readAll S ns).2
          ((newReader src seeks o).readAll S ns).1.1 ++ passed (r.writeTo S' .ok).1.2 = bs
            ∧ (r.writeTo S' .ok).1.1
              = ((passed (r.writeTo S' .ok).1.2).length, Reader.writeToErr e)
            ∧ ∀ n e', (r.read S n).2.state = some e' →
              (r.read S n).1.2 = some e'
                ∨ (r.read S n).1.2 = none ∧ ∀ m, ((r.read S n).2.read S m).1 = ([], some e')) := by
  have hd := newReader_delivers S src seeks o
  have hok := Reader.newReader_ok src seeks o
  refine ⟨(decodeStream Z seeks o src).1, (decodeStream Z seeks o src).2,
    (newReader_delivers S' src seeks o).writeTo, hd.ends, ?_⟩
  intro ns
  refine ⟨fun e' he' => hd.last ns e' he', ?_⟩
  intro hnone r
  -- what the reads left is the rest of the stream
  obtain ⟨hok', hnext, -⟩ := Reader.readAll_spec S ns hok
  have hne := Reader.readAll_deferred S ns hok (by rintro _ ⟨⟩) hnone
  have hfut : decodeStream Z seeks o src
      = ahead ((newReader src seeks o).readAll S ns).1.1 (r.future Z) := hnext hnone
  obtain ⟨hwrite, hpassed⟩ := (Reader.delivers_future S' hok' hne).writeTo
  refine ⟨?_, ?_, ?_⟩
  · rw [hfut, hpassed]
    rfl
  · rw [hfut, hpassed]
    exact hwrite
  · intro n e' he'
    rcases hr : r.read S n with ⟨⟨bs, _ | e⟩, r₁⟩
    · rw [hr] at he'
      refine .inr ⟨rfl, ?_⟩
      intro m
      simp only at he'
      simp only [Reader.read, he']
    · have hlast := (Reader.read_spec S hok' n).last e (by rw [hr])
      rw [hr] at he' hlast
      exact .inl (hlast.2.symm.trans he')

end Plz4
