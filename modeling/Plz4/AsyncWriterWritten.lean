/-
What the destination of the asynchronous writer has been passed.

The header, then the encodings of the first blocks, in order and each once, then at a
clean end the trailer. After a write that failed there is no other: whatever the other
threads do, the write loop does not come back to a write.
-/
import Plz4.AsyncWriterValues
import Plz4.AsyncWriterHash

set_option autoImplicit false

namespace Plz4

/-- The write loop has finished with the destination. -/
def Loop.ended : Loop → Bool
  | .setErr _ .closeSyn | .closeSyn | .done => true
  | _ => false

/-- The write loop is about to write a block, or has just written one without an error. -/
def Loop.writing : Loop → Bool
  | .write _ | .kick _ (.wrote none) => true
  | _ => false

theorem Loop.closing_of_ended {l : Loop} (h : l.ended = true) : l.closing = true := by
  unfold Loop.ended at h
  split at h <;> first | rfl | cases h

namespace AsyncWriter

open Xxh32

variable {Z : Clz4} {c : WriterCfg} {s s' : AsyncWriter Z} {a : Act} {es tail : List Bytes}

/-- The blocks written: one more than counted between a write and `kickBlock`. -/
def wrote (s : AsyncWriter Z) : ℕ :=
  match s.loop with
  | .kick _ (.wrote _) => s.nextIdx + 1
  | _ => s.nextIdx

/-! ## No write after a failure -/

/-- A write has failed. -/
def Failed (s : AsyncWriter Z) : Prop := ∃ w ∈ s.calls, w.err ≠ none

structure Failing (s : AsyncWriter Z) : Prop where
  header : s.loop = .header → s.calls = []
  /-- only the last write can have failed -/
  last : ∀ w ∈ s.calls.dropLast, w.err = none
  /-- a failure is in the error state, or on its way there -/
  err : s.Failed → ¬ Live s ∨ ∃ b e, s.loop = .kick b (.wrote (some e))
  writing : s.loop.writing = true → ¬ s.Failed
  /-- a write without an error takes everything -/
  full : ∀ w ∈ s.calls, w.err = none → w.n = w.arg.length

/-- What a write adds to the log. -/
theorem wrWrite_spec {plan : WrPlan} {calls calls' : List WrCall} {p : Bytes} {n : ℕ}
    {werr : Option Err} (h : wrWrite plan calls p = (n, werr, calls')) :
    calls' = calls ++ [⟨p, n, werr⟩] ∧ (werr = none → n = p.length) := by
  unfold wrWrite at h
  split at h
  · simp only [Prod.mk.injEq] at h
    obtain ⟨rfl, rfl, rfl⟩ := h
    exact ⟨rfl, fun _ => rfl⟩
  · simp only [Prod.mk.injEq] at h
    obtain ⟨rfl, rfl, rfl⟩ := h
    exact ⟨rfl, by rintro ⟨⟩⟩

/-- The same for the header, whose error is wrapped. -/
theorem writeHeader_spec {plan : WrPlan} {calls calls' : List WrCall} {o : OptsT} {n : ℕ}
    {herr : Option Err} (h : writeHeader plan calls o = (n, herr, calls')) :
    ∃ werr, calls' = calls ++ [⟨headerBytes o, n, werr⟩] ∧ (werr = none → n = (headerBytes o).length)
      ∧ (herr = none ↔ werr = none) := by
  unfold writeHeader at h
  rcases hwr : wrWrite plan calls (headerBytes o) with ⟨n', werr, calls''⟩
  rw [hwr] at h
  simp only [Prod.mk.injEq] at h
  obtain ⟨rfl, rfl, rfl⟩ := h
  obtain ⟨hcalls, hfull⟩ := wrWrite_spec hwr
  exact ⟨werr, hcalls, hfull, Option.map_eq_none_iff⟩

/-- A write on a log without a failure. -/
theorem Failing.write {calls : List WrCall} {w : WrCall} (hok : ∀ v ∈ calls, v.err = none)
    (hfull : ∀ v ∈ calls, v.err = none → v.n = v.arg.length)
    (hw : w.err = none → w.n = w.arg.length) :
    (∀ v ∈ (calls ++ [w]).dropLast, v.err = none)
      ∧ ((∃ v ∈ calls ++ [w], v.err ≠ none) → w.err ≠ none)
      ∧ ∀ v ∈ calls ++ [w], v.err = none → v.n = v.arg.length := by
  refine ⟨?_, ?_, ?_⟩
  · rw [List.dropLast_concat]
    exact hok
  · rintro ⟨v, hv, hne⟩
    rcases List.mem_append.mp hv with hv | hv
    · exact absurd (hok v hv) hne
    · rw [List.mem_singleton.mp hv] at hne
      exact hne
  · intro v hv
    rcases List.mem_append.mp hv with hv | hv
    · exact hfull v hv
    · rw [List.mem_singleton.mp hv]
      exact hw

theorem not_failed_iff : ¬ s.Failed ↔ ∀ w ∈ s.calls, w.err = none := by
  unfold Failed
  constructor
  · intro h w hw
    by_contra hne
    exact h ⟨w, hw, hne⟩
  · rintro h ⟨w, hw, hne⟩
    exact hne (h w hw)

/-- Without an error, and outside of `kickBlock`, no write has failed. -/
theorem Failing.not_failed (h : Failing s) (hl : Live s)
    (hk : ∀ b e, s.loop ≠ .kick b (.wrote (some e))) : ¬ s.Failed := by
  intro hf
  rcases h.err hf with hn | ⟨b, e, hloop⟩
  · exact hn hl
  · exact hk b e hloop

/-- A step that does not write. -/
theorem Failing.same (h : Failing s) (hstep : Step c s a s') (hcalls : s'.calls = s.calls)
    (hheader : s'.loop = .header → s.loop = .header)
    (hkick : ∀ b e, s.loop = .kick b (.wrote (some e)) → s'.loop = s.loop ∨ ¬ Live s')
    (hw : s'.loop.writing = true → ¬ s.Failed) : Failing s' := by
  have hfailed : s'.Failed ↔ s.Failed := by
    unfold Failed
    rw [hcalls]
  refine ⟨fun hl => ?_, ?_, fun hf => ?_, fun hl => ?_, ?_⟩
  · rw [hcalls]
    exact h.header (hheader hl)
  · rw [hcalls]
    exact h.last
  · rcases h.err (hfailed.mp hf) with hn | ⟨b, e, hloop⟩
    · exact .inl (fun hl => hn (live_step hstep hl))
    · rcases hkick b e hloop with hsame | hn
      · exact .inr ⟨b, e, hsame.trans hloop⟩
      · exact .inl hn
  · rw [hfailed]
    exact hw hl
  · rw [hcalls]
    exact h.full

/-- The write loop moves from where it neither writes nor has just written. -/
theorem Failing.turn (h : Failing s) (hstep : Step c s a s') (hcalls : s'.calls = s.calls)
    (hheader : s'.loop ≠ .header) (hs : ∀ b w, s.loop ≠ .kick b (.wrote w))
    (hs' : s'.loop.writing = false) : Failing s' := by
  refine h.same hstep hcalls (fun hl => absurd hl hheader) (fun b e hk => absurd hk (hs b _))
    (fun hw => ?_)
  rw [hs'] at hw
  cases hw

/-- A loop that comes to the trailer has no error, so no write has failed. -/
theorem Failing.trailer (h : Failing s) (hh : Hashing c s) {xxh : Option UInt32} {n : ℕ}
    {werr : Option Err} {calls : List WrCall} (hloop : s.loop = .trailer xxh)
    (hwr : wrWrite c.wr s.calls (trailerBytes xxh) = (n, werr, calls)) :
    (∀ w ∈ calls.dropLast, w.err = none) ∧ ((∃ w ∈ calls, w.err ≠ none) → werr ≠ none)
      ∧ ∀ w ∈ calls, w.err = none → w.n = w.arg.length := by
  obtain ⟨hcalls, hfull⟩ := wrWrite_spec hwr
  have hl : Live s := ⟨hh.clean (by rw [hloop]; rfl), fun e k he => by rw [hloop] at he; cases he⟩
  have hok := not_failed_iff.mp
    (h.not_failed hl (fun b e hk => by rw [hloop] at hk; cases hk))
  rw [hcalls]
  exact Failing.write (w := ⟨trailerBytes xxh, n, werr⟩) hok h.full hfull

/-- **Every step keeps this**: a write is only made where none has failed. -/
theorem Failing.step (h : Failing s) (hh : Hashing c s) (hstep : Step c s a s') : Failing s' := by
  have hstep' := hstep
  cases hstep with
  | header hloop hwr =>
      obtain ⟨werr, hcalls, hfull, hnone⟩ := writeHeader_spec hwr
      rw [h.header hloop, List.nil_append] at hcalls
      rw [hcalls]
      refine ⟨(by rintro ⟨⟩), (by rintro w ⟨⟩), ?_, (by rintro ⟨⟩), ?_⟩
      · rintro ⟨w, hw, hne⟩
        rw [List.mem_singleton.mp hw] at hne
        exact absurd (hnone.mp rfl) hne
      · intro w hw
        rw [List.mem_singleton.mp hw]
        exact hfull
  | headerFail hloop hwr =>
      obtain ⟨werr, hcalls, hfull, -⟩ := writeHeader_spec hwr
      rw [h.header hloop, List.nil_append] at hcalls
      rw [hcalls]
      refine ⟨(by rintro ⟨⟩), (by rintro w ⟨⟩), fun _ => .inl (fun hl => hl.2 _ _ rfl),
        (by rintro ⟨⟩), ?_⟩
      intro w hw
      rw [List.mem_singleton.mp hw]
      exact hfull
  -- no write has failed before this one, and the loop has its result at `kick`
  | @write b blk n werr calls hloop hblk hwr =>
      obtain ⟨hcalls, hfull⟩ := wrWrite_spec hwr
      have hok := not_failed_iff.mp (h.writing (by rw [hloop]; rfl))
      obtain ⟨h1, h2, h3⟩ := Failing.write (w := ⟨blk.data, n, werr⟩) hok h.full hfull
      rw [hcalls]
      refine ⟨(by rintro ⟨⟩), h1, fun hf => .inr ⟨b, ?_⟩, fun hw hf => ?_, h3⟩
      · obtain ⟨e, he⟩ := Option.ne_none_iff_exists'.mp (h2 hf)
        exact ⟨e, by rw [show werr = some e from he]⟩
      · have hne : werr ≠ none := h2 hf
        rcases werr with _ | e
        · exact hne rfl
        · cases hw
  | trailer hloop hwr =>
      obtain ⟨h1, h2, h3⟩ := h.trailer hh hloop hwr
      exact ⟨(by rintro ⟨⟩), h1, fun hf => absurd rfl (h2 hf), (by rintro ⟨⟩), h3⟩
  | trailerFail hloop hwr =>
      obtain ⟨h1, -, h3⟩ := h.trailer hh hloop hwr
      exact ⟨(by rintro ⟨⟩), h1, fun _ => .inl (fun hl => hl.2 _ _ rfl), (by rintro ⟨⟩), h3⟩
  -- the loop goes on to a write, so the last one did not fail
  | gotWrite hloop herr =>
      refine h.same hstep' rfl (by rintro ⟨⟩) (fun b e hk => ?_) (fun _ => ?_)
      · rw [hloop] at hk
        cases hk
      · refine h.not_failed ⟨herr, fun e k he => ?_⟩ (fun b e hk => ?_)
        · rw [hloop] at he
          cases he
        · rw [hloop] at hk
          cases hk
  | kickFail hloop =>
      refine h.same hstep' rfl (by rintro ⟨⟩) (fun b e hk => .inr (fun hl => hl.2 _ _ rfl))
        (by rintro ⟨⟩)
  | kickNext hloop =>
      refine h.same hstep' rfl (by rintro ⟨⟩) (fun b e hk => ?_)
        (fun _ => h.writing (by rw [hloop]; rfl))
      rw [hloop] at hk
      cases hk
  | kickLast hloop =>
      refine h.same hstep' rfl (by rintro ⟨⟩) (fun b e hk => ?_) (by rintro ⟨⟩)
      rw [hloop] at hk
      cases hk
  | finish hloop | abort hloop | hashWait hloop =>
      refine h.turn hstep' rfl ?_ (by rw [hloop]; rintro _ _ ⟨⟩) ?_
      · show (if _ then _ else _) ≠ Loop.header
        split_ifs <;> rintro ⟨⟩
      · show (if _ then _ else _ : Loop).writing = false
        split_ifs <;> rfl
  | sendOut _ _ hloop | synSend _ hloop | synReply _ hloop | synReplyJoin _ hloop | headerErr hloop
  | outClosed hloop | gotDrop hloop | gotErr hloop | gotPark hloop | crash hloop | kickDrop hloop
  | kickErr hloop | setErr hloop | reply hloop | noReply hloop | drained hloop | hashDone hloop
  | trailerErr hloop | closeSyn hloop =>
      exact h.turn hstep' rfl (by rintro ⟨⟩) (by rw [hloop]; rintro _ _ ⟨⟩) rfl
  | _ => exact h.same hstep' rfl id (fun _ _ _ => .inl rfl) h.writing

theorem failing_newAsyncWriter (Z : Clz4) (o : OptsT) (script : List WCall) :
    Failing (newAsyncWriter Z o script) := by
  refine ⟨fun _ => rfl, (by rintro _ ⟨⟩), ?_, (by rintro ⟨⟩), (by rintro _ ⟨⟩)⟩
  rintro ⟨_, ⟨⟩, _⟩

/-! ## What is written -/

/-- The last pair has been given to the progress handler. -/
def Reported (s : AsyncWriter Z) (tail : List Bytes) : Prop := s.loop.clean = true ∨ tail ≠ []

/-- The log of writes: the header, the encodings `es` of the first blocks, and `tail`. -/
structure Wrote (c : WriterCfg) (s : AsyncWriter Z) (es tail : List Bytes) : Prop where
  calls : s.calls.map WrCall.arg = headerBytes c.opts :: (es ++ tail)
  length : es.length = s.wrote
  le : es.length ≤ s.blks.length
  enc : ∀ k d, es[k]? = some d → ∃ e ∈ s.encodes, e.idx = k ∧ e.ret = .ok d
  tail_open : s.loop.ended = false → tail = []
  tail_ended : s.loop.ended = true → tail = [trailerBytes (contentHash c.opts s.blks)]
    ∨ tail = [] ∧ s.err ≠ none
  srcMark : s.srcMark = (s.blks.take es.length).flatten.length
  dstMark : c.wr = .ok → s.dstMark = (headerBytes c.opts).length + es.flatten.length
  unreported : c.wr = .ok → ¬ s.Reported tail → s.progress ++ [(s.srcMark, s.dstMark)]
    = marks 0 (headerBytes c.opts).length (s.blks.take es.length) es
  reported : c.wr = .ok → s.Reported tail → s.progress
    = marks 0 (headerBytes c.opts).length (s.blks.take es.length) es

/-- Before the header nothing is written. -/
structure Written (c : WriterCfg) (s : AsyncWriter Z) : Prop where
  header : s.loop = .header → s.calls = [] ∧ s.nextIdx = 0 ∧ s.srcMark = 0 ∧ s.progress = []
  wrote : s.loop ≠ .header → ∃ es tail, Wrote c s es tail

theorem wrote_of_not (h : ∀ b w, s.loop ≠ .kick b (.wrote w)) : s.wrote = s.nextIdx := by
  unfold wrote
  split
  · rename_i hloop
    exact absurd hloop (h _ _)
  · rfl

theorem wrote_same (h : ∀ b w, s.loop ≠ .kick b (.wrote w))
    (h' : ∀ b w, s'.loop ≠ .kick b (.wrote w)) (hidx : s'.nextIdx = s.nextIdx) :
    s'.wrote = s.wrote := by
  rw [wrote_of_not h, wrote_of_not h', hidx]

/-- A step that leaves the log of writes, the marks and the progress. -/
structure Still (s s' : AsyncWriter Z) : Prop where
  calls : s'.calls = s.calls
  wrote : s'.wrote = s.wrote
  srcMark : s'.srcMark = s.srcMark
  dstMark : s'.dstMark = s.dstMark
  progress : s'.progress = s.progress
  clean : s'.loop.clean = s.loop.clean

theorem Wrote.same (h : Wrote c s es tail) (hstep : Step c s a s') (hs : Still s s')
    (hblks : s'.blks = s.blks ∨ s.loop.ended = false)
    (hended : s'.loop.ended = s.loop.ended ∨ s.loop.ended = false ∧ s'.err ≠ none) :
    Wrote c s' es tail := by
  obtain ⟨more, es', hmore, hes⟩ := logs_step hstep
  have htake : s'.blks.take es.length = s.blks.take es.length := by
    rw [hmore, List.take_append_of_le_length h.le]
  have hrep : s'.Reported tail ↔ s.Reported tail := by
    unfold Reported
    rw [hs.clean]
  refine ⟨?_, ?_, ?_, fun k d hk => ?_, fun hopen => ?_, fun hend => ?_, ?_, fun hok => ?_,
    fun hok hr => ?_, fun hok hr => ?_⟩
  · rw [hs.calls]
    exact h.calls
  · rw [hs.wrote]
    exact h.length
  · rw [hmore, List.length_append]
    exact Nat.le_add_right_of_le h.le
  · obtain ⟨e, he, hidx, hret⟩ := h.enc k d hk
    exact ⟨e, by rw [hes]; exact List.mem_append_left _ he, hidx, hret⟩
  · refine h.tail_open ?_
    rcases hended with hsame | ⟨hclosed, -⟩
    · rw [← hsame]
      exact hopen
    · exact hclosed
  · -- the loop has ended before, or it ends here on an error
    rcases hended with hsame | ⟨hclosed, herr⟩
    · rw [hsame] at hend
      rcases hblks with hb | hb
      · rw [hb]
        exact (h.tail_ended hend).imp id (fun ht => ⟨ht.1, err_ne_step hstep ht.2⟩)
      · rw [hb] at hend
        cases hend
    · exact .inr ⟨h.tail_open hclosed, herr⟩
  · rw [hs.srcMark, htake]
    exact h.srcMark
  · rw [hs.dstMark]
    exact h.dstMark hok
  · rw [hs.srcMark, hs.dstMark, hs.progress, htake]
    exact h.unreported hok (fun hr' => hr (hrep.mpr hr'))
  · rw [hs.progress, htake]
    exact h.reported hok (hrep.mp hr)

/-- What the write loop passes on is the encoding of the next block. -/
theorem encode_of_write (ho : Order c s) (hv : Values c s) {b : OutBlk} {blk : Blk}
    (hloop : s.loop = .write b) (hblk : b.blk = some blk) :
    (∃ e ∈ s.encodes, e.idx = s.nextIdx ∧ e.ret = .ok blk.data)
      ∧ ∃ src, s.blks[s.nextIdx]? = some src ∧ src.length = b.srcSz := by
  obtain ⟨e, he, hidx, hsz, hret⟩ := hv.outs.loop b (by rw [hloop]; rfl)
  have hnext := ho.current b (by rw [hloop]; rfl)
  rw [hnext] at hidx hsz
  refine ⟨⟨e, he, hidx, ?_⟩, ?_⟩
  · rw [hblk] at hret
    split at hret
    · rename_i data hok
      rw [hok]
      exact congrArg _ (Option.some.inj hret.2).symm
    · cases hret.2
  · obtain ⟨src, hsrc, hlen⟩ := Option.map_eq_some_iff.mp hsz
    exact ⟨src, hsrc, hlen⟩

/-- A block is written. -/
theorem Wrote.write (h : Wrote c s es tail) (ho : Order c s) (hv : Values c s) {b : OutBlk}
    {blk : Blk} {n : ℕ} {werr : Option Err} {calls : List WrCall} (hloop : s.loop = .write b)
    (hblk : b.blk = some blk) (hwr : wrWrite c.wr s.calls blk.data = (n, werr, calls)) :
    Wrote c { s with
      loop := .kick b (.wrote werr), calls := calls
      progress := s.progress ++ [(s.srcMark, s.dstMark)]
      srcMark := s.srcMark + b.srcSz, dstMark := s.dstMark + n } (es ++ [blk.data]) [] := by
  obtain ⟨⟨e, he, hidx, hret⟩, src, hsrc, hlen⟩ := encode_of_write ho hv hloop hblk
  obtain ⟨hcalls, -⟩ := wrWrite_spec hwr
  obtain rfl := h.tail_open (by rw [hloop]; rfl)
  have hes : es.length = s.nextIdx :=
    h.length.trans (wrote_of_not (by rw [hloop]; rintro _ _ ⟨⟩))
  have hlt : s.nextIdx < s.blks.length := (List.getElem?_eq_some_iff.mp hsrc).1
  have htake : s.blks.take (es ++ [blk.data]).length = s.blks.take es.length ++ [src] := by
    rw [List.length_append, List.length_singleton, List.take_add_one, hes, hsrc]
    rfl
  have hn : c.wr = .ok → n = blk.data.length := by
    intro hok
    rw [hok, wrWrite_ok, Prod.mk.injEq] at hwr
    exact hwr.1.symm
  have hnot : ¬ s.Reported ([] : List Bytes) := by
    rintro (hcl | hne)
    · rw [hloop] at hcl
      cases hcl
    · exact hne rfl
  have hsrcMark : s.srcMark + b.srcSz
      = (s.blks.take (es ++ [blk.data]).length).flatten.length := by
    rw [htake, List.flatten_append, List.length_append, List.flatten_singleton, ← h.srcMark, hlen]
  have hdstMark : c.wr = .ok → s.dstMark + n
      = (headerBytes c.opts).length + (es ++ [blk.data]).flatten.length := by
    intro hok
    rw [List.flatten_append, List.length_append, List.flatten_singleton, h.dstMark hok, hn hok,
      Nat.add_assoc]
  refine ⟨?_, ?_, ?_, ?_, fun _ => rfl, (by rintro ⟨⟩), hsrcMark, hdstMark, fun hok _ => ?_, ?_⟩
  · show calls.map WrCall.arg = _
    rw [hcalls, List.map_append, h.calls, List.append_nil, List.append_nil]
    rfl
  · rw [List.length_append, List.length_singleton, hes]
    rfl
  · rw [List.length_append, List.length_singleton, hes]
    exact hlt
  · intro k d hk
    -- the blocks written before, and the one written now
    rcases Nat.lt_or_ge k es.length with hlt | hge
    · rw [List.getElem?_append_left hlt] at hk
      exact h.enc k d hk
    · have hlt := (List.getElem?_eq_some_iff.mp hk).1
      rw [List.length_append, List.length_singleton] at hlt
      obtain rfl : k = es.length := by omega
      rw [List.getElem?_concat_length] at hk
      exact ⟨e, he, hidx.trans hes.symm, by rw [hret, Option.some.inj hk]⟩
  · have hmarks := h.unreported hok hnot
    show s.progress ++ [(s.srcMark, s.dstMark)] ++ [(s.srcMark + b.srcSz, s.dstMark + n)]
      = marks 0 (headerBytes c.opts).length (s.blks.take (es ++ [blk.data]).length) _
    have hlen' : (s.blks.take es.length).length = es.length := by
      rw [List.length_take, Nat.min_eq_left h.le]
    rw [hmarks, htake, marks_concat _ _ hlen', hsrcMark, hdstMark hok, htake, Nat.zero_add]
  · rintro _ (hcl | hne)
    · cases hcl
    · exact absurd rfl hne

theorem header_step (h : Written c s) (hstep : Step c s a s') :
    s'.loop = .header →
      s'.calls = [] ∧ s'.nextIdx = 0 ∧ s'.srcMark = 0 ∧ s'.progress = [] := by
  intro hl
  cases hstep with
  | finish hloop | abort hloop | hashWait hloop =>
      change (if _ then _ else _) = Loop.header at hl
      split_ifs at hl
  | drainKick hloop =>
      change s.loop = .header at hl
      rw [hloop] at hl
      cases hl
  | sendOut | synSend | synReply | synReplyJoin | header | headerFail | headerErr | outClosed
  | gotDrop | gotErr | gotWrite
  | gotPark | write | crash | kickDrop | kickErr | kickFail | kickNext | kickLast | setErr | reply
  | noReply | drained | hashDone | trailer | trailerFail | trailerErr | closeSyn => cases hl
  | _ => exact h.header hl

/-- The header is written. -/
theorem wrote_header (h : Written c s) {hdrSz d : ℕ} {herr : Option Err} {calls : List WrCall}
    (hloop : s.loop = .header) (hwr : writeHeader c.wr s.calls c.opts = (hdrSz, herr, calls))
    (hd : herr = none → d = hdrSz) {l : Loop} (hkick : ∀ b w, l ≠ .kick b (.wrote w))
    (hclean : l.clean = false) (hended : l.ended = false) :
    Wrote c { s with loop := l, calls := calls, dstMark := d } [] [] := by
  obtain ⟨h1, h2, h3, h4⟩ := h.header hloop
  obtain ⟨werr, hcalls, -⟩ := writeHeader_spec hwr
  rw [h1, List.nil_append] at hcalls
  have hdst : c.wr = .ok → d = (headerBytes c.opts).length := by
    intro hok
    rw [hok] at hwr
    simp only [writeHeader, wrWrite_ok, Option.map_none, Prod.mk.injEq] at hwr
    rw [hd hwr.2.1.symm, ← hwr.1]
  refine ⟨?_, ?_, Nat.zero_le _, ?_, fun _ => rfl, fun hend => ?_, ?_, hdst, fun hok _ => ?_, ?_⟩
  · show calls.map WrCall.arg = _
    rw [hcalls]
    rfl
  · rw [wrote_of_not hkick]
    exact h2.symm
  · rintro k d ⟨⟩
  · rw [show l.ended = true from hend] at hended
    cases hended
  · rw [List.length_nil, List.take_zero]
    exact h3
  · rw [List.length_nil, List.take_zero]
    show s.progress ++ [(s.srcMark, _)] = [(0, _)]
    rw [h4, h3, hdst hok]
    rfl
  · rintro _ (hcl | hne)
    · rw [show l.clean = true from hcl] at hclean
      cases hclean
    · exact absurd rfl hne

/-- The trailer is written. -/
theorem Wrote.trailer (h : Wrote c s es tail) (hh : Hashing c s) {xxh : Option UInt32} {n : ℕ}
    {werr : Option Err} {calls : List WrCall} (hloop : s.loop = .trailer xxh)
    (hwr : wrWrite c.wr s.calls (trailerBytes xxh) = (n, werr, calls)) {l : Loop}
    (hkick : ∀ b w, l ≠ .kick b (.wrote w)) (hended : l.ended = true) :
    Wrote c { s with loop := l, calls := calls } es [trailerBytes (contentHash c.opts s.blks)] := by
  obtain ⟨hcalls, -⟩ := wrWrite_spec hwr
  obtain rfl := h.tail_open (by rw [hloop]; rfl)
  have hrep : s.Reported ([] : List Bytes) := .inl (by rw [hloop]; rfl)
  refine ⟨?_, ?_, h.le, h.enc, fun hopen => ?_, fun _ => .inl rfl, h.srcMark, h.dstMark, ?_,
    fun hok _ => h.reported hok hrep⟩
  · show calls.map WrCall.arg = _
    rw [hcalls, List.map_append, h.calls, List.append_nil, hh.trailer xxh hloop]
    rfl
  · rw [wrote_of_not hkick]
    exact h.length.trans (wrote_of_not (by rw [hloop]; rintro _ _ ⟨⟩))
  · rw [show l.ended = false from hopen] at hended
    cases hended
  · exact fun _ hr => absurd (.inr (List.cons_ne_nil _ _)) hr

/-- The write loop is done with the blocks. -/
theorem Wrote.finish (h : Wrote c s es tail) (hloop : s.loop = .finish) {l : Loop}
    (hl : l.clean = true) :
    Wrote c { s with progress := s.progress ++ [(s.srcMark, s.dstMark)], loop := l } es tail := by
  obtain rfl := h.tail_open (by rw [hloop]; rfl)
  have hnot : ¬ s.Reported ([] : List Bytes) := by
    rintro (hcl | hne)
    · rw [hloop] at hcl
      cases hcl
    · exact hne rfl
  refine ⟨h.calls, ?_, h.le, h.enc, fun _ => rfl, fun hend => ?_, h.srcMark, h.dstMark,
    fun _ hr => absurd (.inl hl) hr, fun hok _ => h.unreported hok hnot⟩
  · rw [h.length]
    refine (wrote_same (by rw [hloop]; rintro _ _ ⟨⟩) (fun b w hk => ?_) ?_).symm
    · rw [show l = .kick b (.wrote w) from hk] at hl
      cases hl
    · rfl
  · change l.ended = true at hend
    unfold Loop.clean at hl
    split at hl
    · cases hend
    · cases hend
    · cases hend
    · cases hl

theorem Wrote.step (h : Wrote c s es tail) (ho : Order c s) (hv : Values c s) (hh : Hashing c s)
    (hph : Phases s) (hne : s.loop ≠ .header) (hstep : Step c s a s') :
    ∃ es tail, Wrote c s' es tail := by
  have hstep' := hstep
  cases hstep with
  | header hloop | headerFail hloop => exact absurd hloop hne
  | write hloop hblk hwr => exact ⟨_, _, h.write ho hv hloop hblk hwr⟩
  | trailer hloop hwr | trailerFail hloop hwr =>
      exact ⟨_, _, h.trailer hh hloop hwr (by rintro _ _ ⟨⟩) rfl⟩
  | finish hloop herr =>
      refine ⟨es, tail, h.finish hloop ?_⟩
      split_ifs <;> rfl
  | abort hloop herr =>
      refine ⟨es, tail, h.same hstep' ⟨rfl, ?_, rfl, rfl, rfl, ?_⟩ (.inl rfl)
        (.inr ⟨by rw [hloop]; rfl, herr⟩)⟩
      · refine wrote_same (by rw [hloop]; rintro _ _ ⟨⟩) (fun b w => ?_) rfl
        show (if _ then _ else _) ≠ Loop.kick b (.wrote w)
        split_ifs <;> rintro ⟨⟩
      · show (if _ then _ else _ : Loop).clean = s.loop.clean
        rw [hloop]
        split_ifs <;> rfl
  | @hashDone clean hh' hloop hsome =>
      refine ⟨es, tail, h.same hstep' ⟨rfl, ?_, rfl, rfl, rfl, ?_⟩ (.inl rfl) (.inl ?_)⟩
      · exact wrote_same (by rw [hloop]; rintro _ _ ⟨⟩) (by rintro _ _ ⟨⟩) rfl
      · rw [hloop]
        rcases clean with _ | _ <;> rfl
      · rw [hloop]
        rfl
  | @hashWait clean hh' hloop hsome hex =>
      have hkick : ∀ b w, (if clean then Loop.trailer (some hh'.hash.sum32) else .closeSyn)
          ≠ .kick b (.wrote w) := by
        intro b w
        split_ifs <;> rintro ⟨⟩
      refine ⟨es, tail, h.same hstep' ⟨rfl, wrote_same (by rw [hloop]; rintro _ _ ⟨⟩) hkick rfl, rfl,
        rfl, rfl, ?_⟩ (.inl rfl) ?_⟩
      · rw [hloop]
        rcases clean with _ | _ <;> rfl
      · rw [hloop]
        rcases clean with _ | _
        · exact .inr ⟨rfl, hh.aborts (by rw [hloop]; rfl)⟩
        · exact .inl rfl
  -- the block counts as written before and after
  | kickFail hloop | kickNext hloop | kickLast hloop =>
      have hw : s.wrote = s.nextIdx + 1 := by
        unfold wrote
        rw [hloop]
      refine ⟨es, tail, h.same hstep' ⟨rfl, hw.symm, rfl, rfl, rfl, ?_⟩ (.inl rfl) (.inl ?_)⟩
      · rw [hloop]
        rfl
      · rw [hloop]
        rfl
  | sendIn hcaller hblk =>
      refine ⟨es, tail, h.same hstep' ⟨rfl, rfl, rfl, rfl, rfl, rfl⟩ (.inr ?_) (.inl rfl)⟩
      -- a caller that hands a block over has not closed `inChan`
      rw [← Bool.not_eq_true]
      intro hend
      have hthree := hph.loop (Loop.closing_of_ended hend)
      rw [phase_of_some (hph.srcBlk (by rw [hcaller]; rfl)), hcaller] at hthree
      exact absurd hthree (by show ¬ 3 ≤ 0; omega)
  | sendOut _ _ hloop | synSend _ hloop | synReply _ hloop | synReplyJoin _ hloop | headerErr hloop
  | outClosed hloop | gotDrop hloop | gotErr hloop | gotWrite hloop | gotPark hloop | crash hloop
  | kickDrop hloop | kickErr hloop | setErr hloop | reply hloop | noReply hloop | drained hloop
  | trailerErr hloop | closeSyn hloop =>
      refine ⟨es, tail, h.same hstep' ⟨rfl, ?_, rfl, rfl, rfl, ?_⟩ (.inl rfl) (.inl ?_)⟩
      · exact wrote_same (by rw [hloop]; rintro _ _ ⟨⟩) (by rintro _ _ ⟨⟩) rfl
      · rw [hloop]
        rfl
      · rw [hloop]
        rfl
  | _ => exact ⟨es, tail, h.same hstep' ⟨rfl, rfl, rfl, rfl, rfl, rfl⟩ (.inl rfl) (.inl rfl)⟩

/-- **Every step keeps what is written.** -/
theorem Written.step (h : Written c s) (ho : Order c s) (hv : Values c s) (hh : Hashing c s)
    (hph : Phases s) (hstep : Step c s a s') : Written c s' := by
  refine ⟨header_step h hstep, fun hne => ?_⟩
  by_cases hl : s.loop = .header
  · cases hstep with
    | header hloop hwr =>
        exact ⟨_, _, wrote_header h hloop hwr (fun _ => rfl) (by rintro _ _ ⟨⟩) rfl rfl⟩
    | headerFail hloop hwr =>
        exact ⟨_, _, wrote_header h hloop hwr (by rintro ⟨⟩) (by rintro _ _ ⟨⟩) rfl rfl⟩
    | sendOut _ _ hloop | synSend _ hloop | synReply _ hloop | synReplyJoin _ hloop
    | headerErr hloop
    | outClosed hloop | gotDrop hloop | gotErr hloop | gotWrite hloop | gotPark hloop | write hloop
    | crash hloop | kickDrop hloop | kickErr hloop | kickFail hloop | kickNext hloop
    | kickLast hloop
    | setErr hloop | reply hloop | noReply hloop | drainKick hloop | drained hloop | finish hloop
    | abort hloop | hashDone hloop | hashWait hloop | trailer hloop | trailerFail hloop
    | trailerErr hloop | closeSyn hloop =>
        rw [hl] at hloop
        cases hloop
    | _ => exact absurd hl hne
  · obtain ⟨es, tail, hw⟩ := h.wrote hl
    exact hw.step ho hv hh hph hl hstep

theorem written_newAsyncWriter (Z : Clz4) (c : WriterCfg) (script : List WCall) :
    Written c (newAsyncWriter Z c.opts script) :=
  ⟨fun _ => ⟨rfl, rfl, rfl, rfl⟩, fun h => absurd rfl h⟩

/-! ## All invariants -/

/-- Everything that holds of every reachable state. -/
structure Sound (c : WriterCfg) (s : AsyncWriter Z) : Prop where
  places : Places s
  phases : Phases s
  order : Order c s
  values : Values c s
  hashing : Hashing c s
  failing : Failing s
  written : Written c s

theorem Sound.step (h : Sound c s) (hstep : Step c s a s') : Sound c s' where
  places := h.places.step hstep
  phases := h.phases.step hstep
  order := h.order.step h.places h.phases hstep
  values := h.values.step hstep
  hashing := h.hashing.step h.phases hstep
  failing := h.failing.step h.hashing hstep
  written := h.written.step h.order h.values h.hashing h.phases hstep

theorem sound_newAsyncWriter (Z : Clz4) (c : WriterCfg) (script : List WCall)
    (hpar : 0 < c.opts.nParallel) : Sound c (newAsyncWriter Z c.opts script) where
  places := places_newAsyncWriter Z c.opts script
  phases := phases_newAsyncWriter Z c.opts script
  order := order_newAsyncWriter Z c script hpar
  values := values_newAsyncWriter Z c script
  hashing := hashing_newAsyncWriter Z c script
  failing := failing_newAsyncWriter Z c.opts script
  written := written_newAsyncWriter Z c script

/-- **Every state that any schedule reaches.** -/
theorem sound_run {script : List WCall} (hpar : 0 < c.opts.nParallel) {as : List Act}
    (hrun : Machine.run (step c) (newAsyncWriter Z c.opts script) as = some s) : Sound c s :=
  Machine.invariant_run (fun _ _ _ h hstep => h.step (step_spec hstep))
    (sound_newAsyncWriter Z c script hpar) hrun

end AsyncWriter

end Plz4
