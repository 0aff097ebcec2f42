/-
What the asynchronous reader delivers, on any schedule.

`Feeds` says what the dispatcher and the workers make of the source, whether or not
`Close` is called; `Delivers` says what the consumer got of it until then. Each is kept
by every step.
-/
import Plz4.AsyncReaderStep

set_option autoImplicit false

namespace Plz4

open Xxh32

/-! ## What a reader is to deliver -/

/-- What a reader was made from. -/
structure Job : Type 1 where
  cfg : ReaderCfg
  fr : FrameReader
  dc : Decompressor
  src : Bytes
  hashing : Bool

namespace Job

variable (J : Job)

def parsed : Parsed := parseFrames J.fr J.src

/-- The decompressor before block `k`. -/
def dcAt (k : ℕ) : Decompressor := Plz4.dcAt J.cfg.engine J.cfg.bsz J.dc J.parsed.frames k

def decoded : List (Except Err Bytes × ℕ) :=
  decodeAll J.cfg.engine J.cfg.bsz J.dc J.parsed.frames

def expected : List NextRes := Plz4.expected J.parsed J.decoded

def session : Session :=
  sessionOf (if J.hashing then some .zero else none) J.parsed J.decoded

theorem length_expected : J.expected.length = J.parsed.frames.length + 1 := by
  rw [expected, Plz4.length_expected, decoded, length_decodeAll]

/-- What is expected of a stored block. -/
theorem expected_stored {k : ℕ} {f : FrameT} (hf : J.parsed.frames[k]? = some f)
    (hunc : f.uncompressed = true) :
    J.expected[k]? = some ⟨some f.blk, f.readCnt, none⟩ := by
  have hlt := (List.getElem?_eq_some_iff.mp hf).1
  rw [expected, Plz4.expected, List.getElem?_append_left (by
    rw [List.length_map, decoded, length_decodeAll]; exact hlt), List.getElem?_map, decoded,
    getElem?_decodeAll, hf]
  simp only [Option.map_some, decodeFrame, hunc, if_true, decodeRes]

/-- What is expected of a compressed one. -/
theorem expected_data {k : ℕ} {f : FrameT} (hf : J.parsed.frames[k]? = some f)
    (hunc : f.uncompressed = false) :
    J.expected[k]? = some (decodeRes
      ((blkDecompress J.cfg.engine (J.dcAt k) J.cfg.bsz f.blk).1, f.readCnt)) := by
  have hlt := (List.getElem?_eq_some_iff.mp hf).1
  rw [expected, Plz4.expected, List.getElem?_append_left (by
    rw [List.length_map, decoded, length_decodeAll]; exact hlt), List.getElem?_map, decoded,
    getElem?_decodeAll, hf]
  simp only [Option.map_some, decodeFrame, hunc, Bool.false_eq_true, if_false, dcAt]

/-- The last expected result is the error that ended the parse. -/
theorem expected_last :
    J.expected[J.parsed.frames.length]? = some ⟨none, 0, some J.parsed.err⟩ := by
  rw [expected, Plz4.expected, List.getElem?_append_right (by
    rw [List.length_map, decoded, length_decodeAll]), List.length_map, decoded, length_decodeAll,
    Nat.sub_self]
  rfl

/-- A failure to decode is never taken for the end mark. -/
theorem decoded_ne_endMark (n : ℕ) : (Except.error (Err.const .endMark), n) ∉ J.decoded :=
  decodeAll_ne_endMark _ _ _ _ n

theorem dcAt_succ_data {k : ℕ} {f : FrameT} (hf : J.parsed.frames[k]? = some f)
    (hunc : f.uncompressed = false) :
    J.dcAt (k + 1) = (blkDecompress J.cfg.engine (J.dcAt k) J.cfg.bsz f.blk).2 := by
  rw [dcAt, dcAt_succ hf, decodeFrame, hunc, if_neg Bool.false_ne_true]
  rfl

/-- Block `k` is a stored one. -/
def Stored (k : ℕ) : Prop := ∃ f, J.parsed.frames[k]? = some f ∧ f.uncompressed = true

variable {J} in
theorem Stored.dcAt_succ {k : ℕ} (h : J.Stored k) : J.dcAt (k + 1) = J.dcAt k := by
  obtain ⟨f, hf, hunc⟩ := h
  exact dcAt_succ_stored hf hunc

end Job

/-- What `NextBlock` returns of a packet. -/
def OutBlk.res (b : OutBlk) : NextRes := ⟨b.blk.map Blk.data, b.srcSz, b.err⟩

/-- The consumer is past `wg.Wait` in `_close`. -/
def Cons.drains : Cons → Bool
  | .drainIn | .drainOut | .hashDoneC | .hashWaitC | .closed => true
  | _ => false

namespace AsyncReader

variable {J : Job} {s s' : AsyncReader}

/-! ## The feeding side -/

/-- The source is where block `k` starts. -/
structure Reading (J : Job) (fr : FrameReader) (src : Bytes) (k : ℕ) : Prop where
  fr : fr = J.fr
  parse : parseFrames J.fr src = { J.parsed with frames := J.parsed.frames.drop k }
  le : k ≤ J.parsed.frames.length

/-- The parse has ended. -/
structure Ended (J : Job) (fr : FrameReader) (src : Bytes) (k : ℕ) : Prop where
  fr : fr = J.parsed.fr
  src : src = J.parsed.rest
  idx : k = J.parsed.frames.length

/-- A compressed block on its way to a worker. -/
def InOk (J : Job) (b : InBlk) : Prop :=
  J.parsed.frames[b.idx]? = some ⟨b.blk.data, b.srcSz, false⟩

/-- A packet for the consumer. -/
def OutOk (J : Job) (b : OutBlk) : Prop := J.expected[b.idx]? = some b.res

/-- What the dispatcher holds when it is at block `k`. A dispatcher that took the
branch of `finChan` may have stopped anywhere. -/
def DispOk (J : Job) (fr : FrameReader) (src : Bytes) (k : ℕ) (fin : Bool) : Disp → Prop
  | .acquire | .read => Reading J fr src k
  | .sendOut b => Reading J fr src (k + 1) ∧ b.idx = k ∧ OutOk J b ∧ J.Stored k
  | .sendIn b => Reading J fr src (k + 1) ∧ b.idx = k ∧ InOk J b
  | .closeIn err
  | .closeSem err => err = none ∧ fin = true ∨ err = some J.parsed.err ∧ Ended J fr src k
  | .sendErr b => b = ⟨some J.parsed.err, k, 0, none⟩ ∧ Ended J fr src k
  | .done => fin = true ∨ Ended J fr src k

/-- What a worker holds. -/
def WorkerOk (J : Job) (k : ℕ) : Worker → Prop
  | .work b => InOk J b ∧ b.idx < k
  | .send b => OutOk J b ∧ b.idx < k
  | .recv | .done => True

/-- The decompressor: for independent blocks it never changes, and linked blocks have
one worker, whose next block it fits. -/
def DcOk (J : Job) (dc : Decompressor) (workers : List Worker) (k : ℕ) : Prop :=
  (∀ j, J.dcAt j = J.dc) ∧ dc = J.dc ∨
  ∃ w, workers = [w] ∧
    match w with
    | .recv | .send _ => dc = J.dcAt k
    | .work b => dc = J.dcAt b.idx ∧ J.dcAt k = J.dcAt (b.idx + 1)
    | .done => True

/-- The invariant of the dispatcher and the workers, of the blocks decoded so far and
of a consumer past `wg.Wait`. -/
structure Feeds (J : Job) (s : AsyncReader) : Prop where
  disp : DispOk J s.fr s.src s.curIdx s.fin s.disp
  workers : ∀ w ∈ s.workers, WorkerOk J s.curIdx w
  dc : DcOk J s.dc s.workers s.curIdx
  drains : s.cons.drains = true → ∀ w ∈ s.workers, w = .done
  decodes : ∀ e ∈ s.decodes, e.2 = (J.dcAt e.1).dict ∧
    ∃ f, J.parsed.frames[e.1]? = some f ∧ f.uncompressed = false

/-- A frame that is read is the next one of the parse. -/
theorem Reading.next {fr fr' : FrameReader} {src src' : Bytes} {k : ℕ} {f : FrameT}
    (h : Reading J fr src k) (hread : fr.read src = ((.ok f, fr'), src')) :
    Reading J fr' src' (k + 1) ∧ J.parsed.frames[k]? = some f := by
  rw [h.fr] at hread
  have hparse := parseFrames_ok hread
  rw [h.parse, Parsed.mk.injEq] at hparse
  obtain ⟨hframes, herr, hfr, hrest⟩ := hparse
  have hk : J.parsed.frames[k]? = some f := by
    have := congrArg List.head? hframes
    rwa [List.head?_drop, List.head?_cons] at this
  refine ⟨⟨FrameReader.read_ok_fr hread, ?_, (List.getElem?_eq_some_iff.mp hk).1⟩, hk⟩
  simp only [← List.drop_drop, hframes, List.drop_succ_cons, List.drop_zero, herr, hfr, hrest]

/-- An error that is read ends the parse. -/
theorem Reading.last {fr fr' : FrameReader} {src src' : Bytes} {k : ℕ} {e : Err}
    (h : Reading J fr src k) (hread : fr.read src = ((.error e, fr'), src')) :
    e = J.parsed.err ∧ Ended J fr' src' k := by
  rw [h.fr] at hread
  have hparse := parseFrames_error hread
  rw [h.parse, Parsed.mk.injEq] at hparse
  obtain ⟨hframes, herr, hfr, hrest⟩ := hparse
  have hle := List.drop_eq_nil_iff.mp hframes
  exact ⟨herr.symm, hfr.symm, hrest.symm, Nat.le_antisymm h.le hle⟩

theorem WorkerOk.succ {k : ℕ} {w : Worker} (h : WorkerOk J k w) : WorkerOk J (k + 1) w := by
  cases w with
  | work b => exact ⟨h.1, Nat.lt_succ_of_lt h.2⟩
  | send b => exact ⟨h.1, Nat.lt_succ_of_lt h.2⟩
  | recv => trivial
  | done => trivial

/-- Passing over a stored block. -/
theorem DcOk.succ {dc : Decompressor} {workers : List Worker} {k : ℕ} (h : DcOk J dc workers k)
    (hk : J.dcAt (k + 1) = J.dcAt k) : DcOk J dc workers (k + 1) := by
  rcases h with h | ⟨w, hw, hdc⟩
  · exact .inl h
  · refine .inr ⟨w, hw, ?_⟩
    cases w with
    | recv => exact hdc.trans hk.symm
    | work b => exact ⟨hdc.1, hk.trans hdc.2⟩
    | send b => exact hdc.trans hk.symm
    | done => trivial

/-- The one worker of a linked reader is the one that moves. -/
theorem eq_of_singleton {w x : Worker} {i : ℕ} (h : ([w] : List Worker)[i]? = some x) (y : Worker) :
    w = x ∧ ([w] : List Worker).set i y = [y] := by
  cases i with
  | zero => exact ⟨Option.some.inj h, rfl⟩
  | succ i => cases h

/-- A worker takes the block the dispatcher is at. -/
theorem DcOk.take {dc : Decompressor} {workers : List Worker} {k i : ℕ} {b : InBlk}
    (h : DcOk J dc workers k) (hw : workers[i]? = some .recv) (hidx : b.idx = k) :
    DcOk J dc (workers.set i (.work b)) (k + 1) := by
  rcases h with h | ⟨w, rfl, hdc⟩
  · exact .inl h
  · obtain ⟨rfl, hset⟩ := eq_of_singleton hw (.work b)
    refine .inr ⟨.work b, hset, ?_, ?_⟩
    · rw [hidx]
      exact hdc
    · rw [hidx]

/-- A worker that moves on without decoding. -/
theorem DcOk.move {dc : Decompressor} {workers : List Worker} {k i : ℕ} {b : OutBlk} {y : Worker}
    (h : DcOk J dc workers k) (hw : workers[i]? = some (.send b)) (hy : y = .recv ∨ y = .done) :
    DcOk J dc (workers.set i y) k := by
  rcases h with h | ⟨w, rfl, hdc⟩
  · exact .inl h
  · obtain ⟨rfl, hset⟩ := eq_of_singleton hw y
    refine .inr ⟨y, hset, ?_⟩
    rcases hy with rfl | rfl
    · exact hdc
    · trivial

theorem DcOk.exit {dc : Decompressor} {workers : List Worker} {k i : ℕ}
    (h : DcOk J dc workers k) (hw : workers[i]? = some .recv) :
    DcOk J dc (workers.set i .done) k := by
  rcases h with h | ⟨w, rfl, hdc⟩
  · exact .inl h
  · exact .inr ⟨.done, (eq_of_singleton hw .done).2, trivial⟩

/-- No worker is left to meet the next block. -/
theorem DcOk.drained {dc : Decompressor} {workers : List Worker} {k k' : ℕ}
    (h : DcOk J dc workers k) (hdone : ∀ w ∈ workers, w = .done) : DcOk J dc workers k' := by
  rcases h with h | ⟨w, rfl, hdc⟩
  · exact .inl h
  · obtain rfl := hdone w List.mem_cons_self
    exact .inr ⟨.done, rfl, trivial⟩

/-- `close(r.finChan)` leaves the dispatcher where it is. -/
theorem DispOk.fin {fr : FrameReader} {src : Bytes} {k : ℕ} {fin : Bool} {d : Disp}
    (h : DispOk J fr src k fin d) : DispOk J fr src k true d := by
  cases d with
  | acquire => exact h
  | read => exact h
  | sendOut b => exact h
  | sendIn b => exact h
  | closeIn err => exact h.imp (fun h => ⟨h.1, rfl⟩) id
  | closeSem err => exact h.imp (fun h => ⟨h.1, rfl⟩) id
  | sendErr b => exact h
  | done => exact .inl rfl

/-- A worker at work has the decompressor its block is to meet, and leaves the one for
the next block. -/
theorem DcOk.work {dc dc' : Decompressor} {workers : List Worker} {k i : ℕ} {b : InBlk}
    {ret : Except Err Bytes} (h : DcOk J dc workers k) (hw : workers[i]? = some (.work b))
    (hin : InOk J b) (hdec : blkDecompress J.cfg.engine dc J.cfg.bsz b.blk.data = (ret, dc')) :
    dc = J.dcAt b.idx ∧ ∀ b', DcOk J dc' (workers.set i (.send b')) k := by
  have hnext := J.dcAt_succ_data hin rfl
  rcases h with ⟨hall, rfl⟩ | ⟨w, rfl, hdc⟩
  · refine ⟨(hall b.idx).symm, fun b' => .inl ⟨hall, ?_⟩⟩
    rw [hall, hall, hdec] at hnext
    exact hnext.symm
  · obtain ⟨rfl, -⟩ := eq_of_singleton hw .recv
    refine ⟨hdc.1, fun b' => .inr ⟨.send b', (eq_of_singleton hw (.send b')).2, ?_⟩⟩
    rw [← hdc.1, hdec] at hnext
    exact hnext.symm.trans hdc.2.symm

/-- The error packet is what is expected after the blocks. -/
theorem DispOk.errOk {fr : FrameReader} {src : Bytes} {k : ℕ} {fin : Bool} {b : OutBlk}
    (h : DispOk J fr src k fin (.sendErr b)) : OutOk J b := by
  rw [OutOk, h.1, h.2.idx]
  exact J.expected_last

/-- What a worker sends is what is expected. -/
theorem InOk.decoded {b : InBlk} (h : InOk J b) {ret : Except Err Bytes} {dc : Decompressor}
    (hdec : blkDecompress J.cfg.engine (J.dcAt b.idx) J.cfg.bsz b.blk.data = (ret, dc)) :
    J.expected[b.idx]? = some (decodeRes (ret, b.srcSz)) := by
  rw [J.expected_data h rfl, hdec]

/-- Workers that are done stay so. -/
theorem drains_step {a : Act} {c : ReaderCfg}
    (h : s.cons.drains = true → ∀ w ∈ s.workers, w = .done) (hstep : Step c s a s') :
    s'.cons.drains = true → ∀ w ∈ s'.workers, w = .done := by
  have hnot : ∀ {i : ℕ} {x : Worker}, s.workers[i]? = some x → x ≠ .done →
      s.cons.drains = true → False := fun hw hx hd => hx (h hd _ (List.mem_of_getElem? hw))
  cases hstep with
  | sendIn _ hw => exact fun hd => (hnot hw (by rintro ⟨⟩) hd).elim
  | workOk hw _ => exact fun hd => (hnot hw (by rintro ⟨⟩) hd).elim
  | workErr hw _ => exact fun hd => (hnot hw (by rintro ⟨⟩) hd).elim
  | workerPark hw _ _ => exact fun hd => (hnot hw (by rintro ⟨⟩) hd).elim
  | workerFin hw _ => exact fun hd => (hnot hw (by rintro ⟨⟩) hd).elim
  | workerExit hw _ => exact fun hd => (hnot hw (by rintro ⟨⟩) hd).elim
  | sendOutNext | sendErrNext | workerNext | callFirst | callReturn | callQueue => rintro ⟨⟩
  | queue | checkFound | checkNone | releaseEnd | hashDone | close => rintro ⟨⟩
  | release =>
      intro hd
      split at hd <;> cases hd
  | hashWait =>
      intro hd
      split at hd <;> cases hd
  | wgWait _ hw => exact fun _ => hw
  | drainInDone hcons _ => exact fun _ => h (by rw [hcons]; rfl)
  | drainOutDone hcons => exact fun _ => h (by rw [hcons]; rfl)
  | closeHashed hcons _ _ => exact fun _ => h (by rw [hcons]; rfl)
  | closeHash hcons _ _ => exact fun _ => h (by rw [hcons]; rfl)
  | closeWait hcons _ _ => exact fun _ => h (by rw [hcons]; rfl)
  | _ => exact h

/-- **The feeding side, one step.** -/
theorem Feeds.step {a : Act} (h : Feeds J s) (hstep : Step J.cfg s a s') : Feeds J s' := by
  have hdrains := drains_step h.drains hstep
  have hd := h.disp
  have hforall : ∀ {i : ℕ} {y : Worker} {k : ℕ}, s.curIdx ≤ k → WorkerOk J k y →
      k ≤ s.curIdx + 1 → ∀ w ∈ s.workers.set i y, WorkerOk J k w := by
    intro i y k hle hy hle'
    refine Pool.forall_set (fun w hw => ?_) hy
    obtain rfl | rfl : k = s.curIdx ∨ k = s.curIdx + 1 := by omega
    · exact h.workers w hw
    · exact (h.workers w hw).succ
  cases hstep with
  | acquire hdisp _ =>
      rw [hdisp] at hd
      exact ⟨hd, h.workers, h.dc, hdrains, h.decodes⟩
  -- the last of the read results
  | readError hdisp hread =>
      rw [hdisp] at hd
      obtain ⟨rfl, hend⟩ := Reading.last hd hread
      exact ⟨.inr ⟨rfl, hend⟩, h.workers, h.dc, hdrains, h.decodes⟩
  | readStored hdisp hread hunc =>
      rw [hdisp] at hd
      obtain ⟨hnext, hf⟩ := Reading.next hd hread
      exact ⟨⟨hnext, rfl, J.expected_stored hf hunc, ⟨_, hf, hunc⟩⟩, h.workers, h.dc,
        hdrains, h.decodes⟩
  | readData hdisp hread hunc =>
      rw [hdisp] at hd
      obtain ⟨hnext, hf⟩ := Reading.next hd hread
      refine ⟨⟨hnext, rfl, ?_⟩, h.workers, h.dc, hdrains, h.decodes⟩
      rw [InOk, hf, ← hunc]
  | finAcquire hfin _ => exact ⟨.inl ⟨rfl, hfin⟩, h.workers, h.dc, hdrains, h.decodes⟩
  | finOut hfin _ => exact ⟨.inl ⟨rfl, hfin⟩, h.workers, h.dc, hdrains, h.decodes⟩
  | finIn hfin _ => exact ⟨.inl ⟨rfl, hfin⟩, h.workers, h.dc, hdrains, h.decodes⟩
  | finErr hfin _ => exact ⟨.inl hfin, h.workers, h.dc, hdrains, h.decodes⟩
  | closeIn hdisp =>
      rw [hdisp] at hd
      exact ⟨hd, h.workers, h.dc, hdrains, h.decodes⟩
  | closeSem hdisp =>
      rw [hdisp] at hd
      rcases hd with ⟨rfl, hfin⟩ | ⟨rfl, hend⟩
      · exact ⟨.inl hfin, h.workers, h.dc, hdrains, h.decodes⟩
      · exact ⟨⟨rfl, hend⟩, h.workers, h.dc, hdrains, h.decodes⟩
  | sendIn hdisp hw =>
      rw [hdisp] at hd
      obtain ⟨hread, hidx, hin⟩ := hd
      -- the worker decodes it with the dictionary of its place
      exact ⟨hread, hforall (Nat.le_succ _) ⟨hin, hidx.trans_lt (Nat.lt_succ_self _)⟩ le_rfl, h.dc.take hw hidx, hdrains,
        h.decodes⟩
  | sendOutNext hdisp _ _ =>
      rw [hdisp] at hd
      exact ⟨hd.1, fun w hw => (h.workers w hw).succ, h.dc.succ hd.2.2.2.dcAt_succ, hdrains, h.decodes⟩
  | sendOutPark hdisp _ _ =>
      rw [hdisp] at hd
      exact ⟨hd.1, fun w hw => (h.workers w hw).succ, h.dc.succ hd.2.2.2.dcAt_succ, hdrains, h.decodes⟩
  | sendErrNext hdisp _ _ =>
      rw [hdisp] at hd
      exact ⟨.inr hd.2, h.workers, h.dc, hdrains, h.decodes⟩
  | sendErrPark hdisp _ _ =>
      rw [hdisp] at hd
      exact ⟨.inr hd.2, h.workers, h.dc, hdrains, h.decodes⟩
  | workOk hw hdec =>
      obtain ⟨hin, hlt⟩ := h.workers _ (List.mem_of_getElem? hw)
      -- the decompressor has been through the blocks before, and no others
      obtain ⟨hdc, hafter⟩ := h.dc.work hw hin hdec
      refine ⟨hd, hforall le_rfl ⟨?_, hlt⟩ (Nat.le_succ _), hafter _, hdrains, ?_⟩
      · rw [OutOk, InOk.decoded hin (hdc ▸ hdec)]
        rfl
      · intro e he
        rcases List.mem_append.mp he with he | he
        · exact h.decodes e he
        · rw [List.mem_singleton.mp he]
          exact ⟨congrArg Decompressor.dict hdc, _, hin, rfl⟩
  | workErr hw hdec =>
      obtain ⟨hin, hlt⟩ := h.workers _ (List.mem_of_getElem? hw)
      obtain ⟨hdc, hafter⟩ := h.dc.work hw hin hdec
      refine ⟨hd, hforall le_rfl ⟨?_, hlt⟩ (Nat.le_succ _), hafter _, hdrains, ?_⟩
      · rw [OutOk, InOk.decoded hin (hdc ▸ hdec)]
        rfl
      · intro e he
        rcases List.mem_append.mp he with he | he
        · exact h.decodes e he
        · rw [List.mem_singleton.mp he]
          exact ⟨congrArg Decompressor.dict hdc, _, hin, rfl⟩
  | workerNext hw _ _ =>
      exact ⟨hd, hforall le_rfl trivial (Nat.le_succ _), h.dc.move hw (.inl rfl), hdrains, h.decodes⟩
  | workerPark hw _ _ =>
      exact ⟨hd, hforall le_rfl trivial (Nat.le_succ _), h.dc.move hw (.inl rfl), hdrains, h.decodes⟩
  | workerFin hw _ =>
      exact ⟨hd, hforall le_rfl trivial (Nat.le_succ _), h.dc.move hw (.inr rfl), hdrains, h.decodes⟩
  | workerExit hw _ =>
      exact ⟨hd, hforall le_rfl trivial (Nat.le_succ _), h.dc.exit hw, hdrains, h.decodes⟩
  | close _ =>
      refine ⟨?_, h.workers, h.dc, hdrains, h.decodes⟩
      exact hd.fin
  | drainIn hcons hdisp =>
      rw [hdisp] at hd
      exact ⟨hd.1, fun w hw => (h.workers w hw).succ,
        h.dc.drained (h.drains (by rw [hcons]; rfl)), hdrains, h.decodes⟩
  | drainOutBlk _ hdisp =>
      rw [hdisp] at hd
      exact ⟨hd.1, fun w hw => (h.workers w hw).succ, h.dc.succ hd.2.2.2.dcAt_succ, hdrains, h.decodes⟩
  | drainOutErr _ hdisp =>
      rw [hdisp] at hd
      exact ⟨.inr hd.2, h.workers, h.dc, hdrains, h.decodes⟩
  | _ => exact ⟨hd, h.workers, h.dc, hdrains, h.decodes⟩

/-! ## The consumer -/

/-- The packets the dispatcher has issued are those with smaller numbers: the blocks,
and after them the error packet. -/
def issued (s : AsyncReader) : ℕ :=
  match s.disp with
  | .done => s.curIdx + 1
  | _ => s.curIdx

theorem curIdx_le_issued (s : AsyncReader) : s.curIdx ≤ s.issued := by
  rw [issued]
  split
  · exact Nat.le_succ _
  · exact le_rfl

/-- The results delivered before any error. -/
structure Clean (J : Job) (rs : List NextRes) (n : ℕ) : Prop where
  eq : rs = J.expected.take n
  clean : ∀ r ∈ rs, r.err = none

/-- Where the consumer is, when packet `n` is next and `m` packets are issued. -/
def ConsOk (J : Job) (rs : List NextRes) (n m : ℕ) (d : Disp) : Cons → Prop
  | .idle | .queue _ | .check | .recv => Clean J rs n
  | .release b => Clean J rs n ∧ b.idx = n ∧ OutOk J b ∧ n < m
  | .hashDone b | .hashWait b =>
      Clean J rs J.parsed.frames.length ∧ n = J.parsed.frames.length + 1 ∧
        J.expected[J.parsed.frames.length]? = some b.res ∧ b.err = some (.const .endMark) ∧
        d = .done ∧ J.hashing = true
  | .ended => rs = J.session.results ∧ (J.session.endErr = .const .endMark → d = .done)
  | _ => False

/-- The block the consumer has not yet queued. -/
def inHand (held : Option Blk) : Cons → List Bytes
  | .queue b => [b.data]
  | _ => (held.map Blk.data).toList

/-- The hasher has the delivered blocks, some of them queued and the last in the
consumer's hand. -/
structure HashOk (J : Job) (h : Hasher) (hand : List Bytes) (n : ℕ) : Prop where
  data : ∃ bs, h.hash = bs.foldl XXHZero.write .zero ∧
    bs ++ h.q.map Blk.data ++ hand = (J.expected.take n).filterMap NextRes.blk
  exited : h.exited = true → h.closed = true ∧ h.q = []

/-- The invariant of the consumer and the hasher, as long as `Close` is not called. -/
structure Delivers (J : Job) (s : AsyncReader) : Prop where
  fin : s.fin = false
  cons : ConsOk J s.results s.nextIdx s.issued s.disp s.cons
  pending : ∀ b ∈ s.pending, OutOk J b ∧ b.idx < s.issued
  hashing : s.hasher.isSome = J.hashing
  held : s.cons ≠ .idle → s.held = none
  hash : ∀ h, s.hasher = some h → HashOk J h (inHand s.held s.cons) s.nextIdx

/-- The hasher owes nothing for an error. -/
theorem HashOk.error {h : Hasher} {hand : List Bytes} {n : ℕ} {r : NextRes}
    (hok : HashOk J h hand n) (hr : J.expected[n]? = some r) (hblk : r.blk = none) :
    HashOk J h hand (n + 1) := by
  obtain ⟨⟨bs, hhash, hall⟩, hex⟩ := hok
  refine ⟨⟨bs, hhash, ?_⟩, hex⟩
  rw [hall, List.take_add_one, hr, List.filterMap_append]
  simp only [Option.toList_some, List.filterMap_cons, hblk, List.filterMap_nil, List.append_nil]

/-- A delivered block is in the consumer's hand. -/
theorem HashOk.next {h : Hasher} {n : ℕ} {b : OutBlk} {held : Option Blk} {x : Cons}
    (hok : HashOk J h (inHand held (.release b)) n) (hheld : held = none)
    (hb : J.expected[n]? = some b.res) (hx : x = .idle ∨ x = .ended) :
    HashOk J h (inHand b.blk x) (n + 1) := by
  obtain ⟨⟨bs, hhash, hall⟩, hex⟩ := hok
  have hin : inHand b.blk x = [b.res].filterMap NextRes.blk := by
    obtain ⟨err, idx, srcSz, _ | blk⟩ := b <;> rcases hx with rfl | rfl <;> rfl
  refine ⟨⟨bs, hhash, ?_⟩, hex⟩
  rw [List.take_add_one, hb, List.filterMap_append, ← hall, hheld, hin]
  simp only [inHand, Option.map_none, Option.toList_none, List.append_nil, Option.toList_some]

/-- The hasher takes a block. -/
theorem HashOk.hashed {h : Hasher} {hand : List Bytes} {n : ℕ} {b : Blk} {q : List Blk}
    (hok : HashOk J h hand n) (hq : h.q = b :: q) :
    HashOk J { h with q := q, hash := h.hash.write b.data } hand n := by
  obtain ⟨⟨bs, hhash, hall⟩, hex⟩ := hok
  refine ⟨⟨bs ++ [b.data], ?_, ?_⟩, fun he => ?_⟩
  · rw [List.foldl_append, ← hhash]
    rfl
  · rw [← hall, hq, List.append_assoc bs]
    rfl
  · rw [(hex he).2] at hq
    cases hq

/-- The consumer queues the block in its hand. -/
theorem HashOk.queued {h : Hasher} {n : ℕ} {b : Blk} {held : Option Blk}
    (hok : HashOk J h (inHand held (.queue b)) n) (hheld : held = none) (hcl : h.closed = false) :
    HashOk J { h with q := h.q ++ [b] } (inHand held .check) n := by
  obtain ⟨⟨bs, hhash, hall⟩, hex⟩ := hok
  refine ⟨⟨bs, hhash, ?_⟩, fun he => ?_⟩
  · rw [← hall, hheld, List.map_append, ← List.append_assoc bs]
    exact List.append_nil _
  · rw [(hex he).1] at hcl
    cases hcl

/-- An error cannot have been delivered yet. -/
theorem Clean.le {rs : List NextRes} {n : ℕ} (h : Clean J rs n) :
    n ≤ J.parsed.frames.length := by
  by_contra hlt
  have hmem : (⟨none, 0, some J.parsed.err⟩ : NextRes) ∈ rs := by
    rw [h.eq]
    refine List.mem_iff_getElem?.mpr ⟨J.parsed.frames.length, ?_⟩
    rw [List.getElem?_take_of_lt (by omega)]
    exact J.expected_last
  cases h.clean _ hmem

theorem Clean.snoc {rs : List NextRes} {n : ℕ} (h : Clean J rs n) {r : NextRes}
    (hr : J.expected[n]? = some r) (herr : r.err = none) : Clean J (rs ++ [r]) (n + 1) := by
  refine ⟨?_, ?_⟩
  · rw [h.eq, List.take_add_one, hr]
    rfl
  · intro r' hr'
    rcases List.mem_append.mp hr' with hr' | hr'
    · exact h.clean r' hr'
    · rw [List.mem_singleton.mp hr', herr]

/-- Clean results are a prefix of the session's. -/
theorem Clean.results_le {rs : List NextRes} {n : ℕ} (h : Clean J rs n) :
    rs <+: J.session.results := by
  have hclean := h.clean
  rw [h.eq] at hclean ⊢
  exact sessionOf_prefix _ _ hclean

/-- The first error makes the session complete. -/
theorem Clean.last {rs : List NextRes} {n : ℕ} (h : Clean J rs n) {r : NextRes} {e : Err}
    (hr : J.expected[n]? = some r) (herr : r.err = some e) :
    J.session.results = rs ++ [⟨r.blk, r.nRead, some (checkSum
      (hashRes (if J.hashing then some .zero else none) rs) J.parsed.fr.srcSum e)⟩] := by
  have hclean := h.clean
  rw [h.eq] at hclean ⊢
  exact sessionOf_results J.decoded_ne_endMark _ hclean hr herr

/-- Only the end of the parse gives the end mark. -/
theorem Job.eq_of_endMark {n : ℕ} {r : NextRes} (hr : J.expected[n]? = some r)
    (herr : r.err = some (.const .endMark)) : n = J.parsed.frames.length := by
  rw [expected_endMark J.decoded_ne_endMark hr herr, Job.decoded, length_decodeAll]

/-- The last result of a session has its error. -/
theorem Session.endErr_of_results {t : Session} {rs : List NextRes} {r : NextRes}
    (h : t.results = rs ++ [r]) : r.err = some t.endErr := by
  have hlast := congrArg List.getLast? h
  rw [Session.results, List.getLast?_concat, List.getLast?_concat, Option.some.injEq] at hlast
  rw [← hlast]

/-- The check of the content hash changes nothing but the end mark. -/
theorem ConsOk.mono {rs : List NextRes} {n m m' : ℕ} {d d' : Disp} {x : Cons}
    (h : ConsOk J rs n m d x) (hm : m ≤ m') (hd : d = .done → d' = .done) :
    ConsOk J rs n m' d' x := by
  cases x with
  | release b => exact ⟨h.1, h.2.1, h.2.2.1, h.2.2.2.trans_le hm⟩
  | hashDone b => exact ⟨h.1, h.2.1, h.2.2.1, h.2.2.2.1, hd h.2.2.2.2.1, h.2.2.2.2.2⟩
  | hashWait b => exact ⟨h.1, h.2.1, h.2.2.1, h.2.2.2.1, hd h.2.2.2.2.1, h.2.2.2.2.2⟩
  | ended => exact ⟨h.1, fun he => hd (h.2 he)⟩
  | idle | queue _ | check | recv => exact h
  | wgWait | drainIn | drainOut | hashDoneC | hashWaitC | closed => exact h

/-- The dispatcher never takes a packet back. -/
theorem issued_step {a : Act} {c : ReaderCfg} (h : Step c s a s') : s.issued ≤ s'.issued := by
  cases h with
  | acquire hdisp => simp only [issued, hdisp, le_refl]
  | readError hdisp => simp only [issued, hdisp, le_refl]
  | readStored hdisp => simp only [issued, hdisp, le_refl]
  | readData hdisp => simp only [issued, hdisp, le_refl]
  | finAcquire _ hdisp => simp only [issued, hdisp, le_refl]
  | finOut _ hdisp => simp only [issued, hdisp, le_refl]
  | finIn _ hdisp => simp only [issued, hdisp, le_refl]
  | finErr _ hdisp => simp only [issued, hdisp, Nat.le_succ]
  | closeIn hdisp => simp only [issued, hdisp, le_refl]
  | closeSem hdisp =>
      rename_i err
      cases err <;> simp only [issued, hdisp, Option.elim, Nat.le_succ, le_refl]
  | sendIn hdisp => simp only [issued, hdisp, Nat.le_succ]
  | sendOutNext hdisp => simp only [issued, hdisp, Nat.le_succ]
  | sendOutPark hdisp => simp only [issued, hdisp, Nat.le_succ]
  | sendErrNext hdisp => simp only [issued, hdisp, Nat.le_succ]
  | sendErrPark hdisp => simp only [issued, hdisp, Nat.le_succ]
  | drainIn _ hdisp => simp only [issued, hdisp, Nat.le_succ]
  | drainOutBlk _ hdisp => simp only [issued, hdisp, Nat.le_succ]
  | drainOutErr _ hdisp => simp only [issued, hdisp, Nat.le_succ]
  | _ => exact le_rfl

/-- A dispatcher that is done stays so. -/
theorem done_step {a : Act} {c : ReaderCfg} (h : Step c s a s') (hdone : s.disp = .done) :
    s'.disp = .done := by
  cases h <;> first | exact hdone | (simp_all only [reduceCtorEq])

theorem hashRes_hashing {hashing : Bool} {rs : List NextRes}
    (h : hashing = false) : hashRes (if hashing then some .zero else none) rs = none := by
  rw [h]
  rfl

/-- An unchecked error that is not to be checked is the session's. -/
theorem Clean.last_unchecked {rs : List NextRes} {n : ℕ} (h : Clean J rs n) {b : OutBlk} {e : Err}
    (hb : J.expected[n]? = some b.res) (he : b.err = some e)
    (hun : b.err = some (.const .endMark) → J.hashing = false) :
    J.session.results = rs ++ [b.res] := by
  have hsum : checkSum (hashRes (if J.hashing then some .zero else none) rs) J.parsed.fr.srcSum e
      = e := by
    by_cases hend : e = .const .endMark
    · rw [hashRes_hashing (hun (by rw [he, hend])), hend]
      rfl
    · rw [checkSum.eq_def, if_neg hend]
  rw [h.last hb he, hsum, ← he]
  rfl

/-- A packet in turn reaches the waiting consumer. -/
theorem Delivers.arrives {b : OutBlk} (h : Delivers J s) (hcons : s.cons = .recv)
    (hidx : b.idx = s.nextIdx) (hb : OutOk J b) {m : ℕ} (hm : b.idx < m) :
    (∀ d, ConsOk J s.results s.nextIdx m d (.release b)) ∧ s.held = none ∧
      ∀ h, s.hasher = some h → HashOk J h (inHand s.held (.release b)) s.nextIdx := by
  have hc := h.cons
  have hhash := h.hash
  rw [hcons] at hc hhash
  exact ⟨fun _ => ⟨hc, hidx, hb, hidx ▸ hm⟩, h.held (by rw [hcons]; rintro ⟨⟩), hhash⟩

theorem pending_snoc {b : OutBlk} {bs : List OutBlk} {m : ℕ}
    (h : ∀ x ∈ bs, OutOk J x ∧ x.idx < m) (hb : OutOk J b) (hm : b.idx < m) :
    ∀ x ∈ bs ++ [b], OutOk J x ∧ x.idx < m := by
  intro x hx
  rcases List.mem_append.mp hx with hx | hx
  · exact h x hx
  · obtain rfl := List.mem_singleton.mp hx
    exact ⟨hb, hm⟩

/-- Only the error packet is numbered past the blocks. -/
theorem Feeds.done_of_issued (hf : Feeds J s) (hfin : s.fin = false)
    (h : J.parsed.frames.length < s.issued) : s.disp = .done := by
  by_contra hne
  have hd := hf.disp
  rcases hdisp : s.disp with _ | _ | b | b | err | err | b | _ <;>
    simp only [issued, hdisp] at h hd
  · exact absurd hd.le (by omega)
  · exact absurd hd.le (by omega)
  · exact absurd hd.1.le (by omega)
  · exact absurd hd.1.le (by omega)
  · rcases hd with ⟨-, hfin'⟩ | ⟨-, hend⟩
    · rw [hfin] at hfin'
      cases hfin'
    · exact absurd hend.idx (by omega)
  · rcases hd with ⟨-, hfin'⟩ | ⟨-, hend⟩
    · rw [hfin] at hfin'
      cases hfin'
    · exact absurd hend.idx (by omega)
  · exact absurd hd.2.idx (by omega)
  · exact hne hdisp

/-- A dispatcher that is done without `Close` has parsed to the end. -/
theorem Feeds.ended (hf : Feeds J s) (hfin : s.fin = false) (hdone : s.disp = .done) :
    Ended J s.fr s.src s.curIdx := by
  have hd := hf.disp
  rw [hdone] at hd
  rcases hd with hfin' | hend
  · rw [hfin] at hfin'
    cases hfin'
  · exact hend

/-- The hasher that has exited has all the blocks. -/
theorem HashOk.all {h : Hasher} {rs : List NextRes} {b : OutBlk} {held : Option Blk}
    (hok : HashOk J h (inHand held (.hashWait b)) (J.parsed.frames.length + 1))
    (hheld : held = none) (hq : h.q = []) (hclean : Clean J rs J.parsed.frames.length) :
    hashRes (some .zero) rs = some h.hash := by
  obtain ⟨⟨bs, hhash, hall⟩, -⟩ := hok
  have htake : (J.expected.take (J.parsed.frames.length + 1)).filterMap NextRes.blk
      = rs.filterMap NextRes.blk := by
    rw [List.take_add_one, J.expected_last, List.filterMap_append, hclean.eq]
    exact List.append_nil _
  rw [htake, hheld, hq] at hall
  rw [hashRes, Option.map_some, hhash, ← hall]
  simp only [inHand, List.map_nil, Option.map_none, Option.toList_none, List.append_nil]

/-- **The consumer, one step.** -/
theorem Delivers.step {a : Act} (hf : Feeds J s) (h : Delivers J s) (hne : a ≠ .close)
    (hstep : Step J.cfg s a s') : Delivers J s' := by
  have hm := issued_step hstep
  have hcons := h.cons.mono hm (done_step hstep)
  have hpend : ∀ b ∈ s.pending, OutOk J b ∧ b.idx < s'.issued :=
    fun b hb => ⟨(h.pending b hb).1, (h.pending b hb).2.trans_le hm⟩
  have hd := hf.disp
  have hnofin : s.fin = true → False := fun hfin => by rw [h.fin] at hfin; cases hfin
  cases hstep with
  | finAcquire hfin => exact (hnofin hfin).elim
  | finOut hfin => exact (hnofin hfin).elim
  | finIn hfin => exact (hnofin hfin).elim
  | finErr hfin => exact (hnofin hfin).elim
  | workerFin _ hfin => exact (hnofin hfin).elim
  -- none of these before `Close`
  | close => exact absurd rfl hne
  | wgWait hc => exact (by rw [hc] at hcons; exact hcons.elim)
  | drainIn hc => exact (by rw [hc] at hcons; exact hcons.elim)
  | drainInDone hc => exact (by rw [hc] at hcons; exact hcons.elim)
  | drainOutBlk hc => exact (by rw [hc] at hcons; exact hcons.elim)
  | drainOutErr hc => exact (by rw [hc] at hcons; exact hcons.elim)
  | drainOutDone hc => exact (by rw [hc] at hcons; exact hcons.elim)
  | closeHashed hc => exact (by rw [hc] at hcons; exact hcons.elim)
  | closeHash hc => exact (by rw [hc] at hcons; exact hcons.elim)
  | closeWait hc => exact (by rw [hc] at hcons; exact hcons.elim)
  -- a block arrives that is due
  | sendOutNext hdisp hc hidx =>
      rw [hdisp] at hd
      have harr := h.arrives hc hidx hd.2.2.1 (hd.2.1.trans_lt (Nat.lt_succ_self _))
      exact ⟨h.fin, harr.1 _, hpend, h.hashing, fun _ => harr.2.1, harr.2.2⟩
  | sendErrNext hdisp hc hidx =>
      rw [hdisp] at hd
      have harr := h.arrives hc hidx hd.errOk
        ((congrArg OutBlk.idx hd.1).trans_lt (Nat.lt_succ_self _))
      exact ⟨h.fin, harr.1 _, hpend, h.hashing, fun _ => harr.2.1, harr.2.2⟩
  | workerNext hw hc hidx =>
      obtain ⟨hb, hlt⟩ := hf.workers _ (List.mem_of_getElem? hw)
      have harr := h.arrives hc hidx hb (hlt.trans_le s.curIdx_le_issued)
      exact ⟨h.fin, harr.1 _, hpend, h.hashing, fun _ => harr.2.1, harr.2.2⟩
  -- a block arrives that is not
  | sendOutPark hdisp hc hidx =>
      rw [hdisp] at hd
      exact ⟨h.fin, hcons, pending_snoc hpend hd.2.2.1 (hd.2.1.trans_lt (Nat.lt_succ_self _)),
        h.hashing, h.held, h.hash⟩
  | sendErrPark hdisp hc hidx =>
      rw [hdisp] at hd
      exact ⟨h.fin, hcons, pending_snoc hpend hd.errOk
        ((congrArg OutBlk.idx hd.1).trans_lt (Nat.lt_succ_self _)), h.hashing, h.held, h.hash⟩
  | workerPark hw hc hidx =>
      obtain ⟨hb, hlt⟩ := hf.workers _ (List.mem_of_getElem? hw)
      exact ⟨h.fin, hcons, pending_snoc hpend hb (hlt.trans_le s.curIdx_le_issued), h.hashing,
        h.held, h.hash⟩
  | hash hh hq =>
      refine ⟨h.fin, hcons, hpend, by rw [← h.hashing, hh]; rfl, h.held, fun h' hh' => ?_⟩
      obtain rfl := Option.some.inj hh'
      exact (h.hash _ hh).hashed hq
  | hashExit hh hq hcl hex =>
      refine ⟨h.fin, hcons, hpend, by rw [← h.hashing, hh]; rfl, h.held, fun h' hh' => ?_⟩
      obtain rfl := Option.some.inj hh'
      exact ⟨(h.hash _ hh).data, fun _ => ⟨hcl, hq⟩⟩
  | callFirst hc hheld =>
      have hhash := h.hash
      rw [hc] at hcons hhash
      exact ⟨h.fin, hcons, hpend, h.hashing, fun _ => hheld, hhash⟩
  | callReturn hc hheld hh =>
      rw [hc] at hcons
      refine ⟨h.fin, hcons, hpend, h.hashing, fun _ => rfl, fun h' hh' => ?_⟩
      rw [hh] at hh'
      cases hh'
  | callQueue hc hheld hh =>
      have hhash := h.hash
      rw [hc, hheld] at hhash
      rw [hc] at hcons
      exact ⟨h.fin, hcons, hpend, h.hashing, fun _ => rfl, hhash⟩
  | queue hc hh hlen hcl =>
      have hhash := h.hash _ hh
      have hheld := h.held (by rw [hc]; rintro ⟨⟩)
      rw [hc] at hcons hhash
      refine ⟨h.fin, hcons, hpend, by rw [← h.hashing, hh]; rfl, fun _ => hheld, fun h' hh' => ?_⟩
      obtain rfl := Option.some.inj hh'
      exact hhash.queued hheld hcl
  | checkFound hc hmem hidx =>
      have hhash := h.hash
      rw [hc] at hcons hhash
      refine ⟨h.fin, ⟨hcons, hidx, (h.pending _ hmem).1, hidx ▸ (h.pending _ hmem).2⟩, ?_, h.hashing,
        fun _ => h.held (by rw [hc]; rintro ⟨⟩), hhash⟩
      exact fun b hb => hpend b (List.mem_of_mem_filter hb)
  | checkNone hc hnone =>
      have hhash := h.hash
      rw [hc] at hcons hhash
      exact ⟨h.fin, hcons, hpend, h.hashing, fun _ => h.held (by rw [hc]; rintro ⟨⟩), hhash⟩
  | releaseEnd hc hsem herr hh =>
      have hhash := h.hash
      have hheld := h.held (by rw [hc]; rintro ⟨⟩)
      rw [hc] at hcons hhash
      obtain ⟨hclean, hidx, hb, hlt⟩ := hcons
      rw [OutOk, hidx] at hb
      -- only the last block has the end mark, and all blocks have been read then
      have hlast := Job.eq_of_endMark hb herr
      have hdone := hf.done_of_issued h.fin (hlast ▸ hlt)
      refine ⟨h.fin, ⟨hlast ▸ hclean, by rw [hlast], hlast ▸ hb, herr, hdone, ?_⟩, hpend, h.hashing,
        fun _ => hheld, fun h' hh' => ?_⟩
      · rw [← h.hashing]
        exact Option.isSome_iff_ne_none.mpr hh
      · exact (hhash h' hh').error hb (expected_blk (List.mem_of_getElem? hb) herr)
  | release hc hsem herr =>
      rename_i b
      have hhash := h.hash
      have hheld := h.held (by rw [hc]; rintro ⟨⟩)
      rw [hc] at hcons hhash
      obtain ⟨hclean, hidx, hb, hlt⟩ := hcons
      rw [OutOk, hidx] at hb
      by_cases he : b.err = none
      · rw [if_pos he]
        exact ⟨h.fin, hclean.snoc hb he, hpend, h.hashing, fun hne => absurd rfl hne,
          fun h' hh' => (hhash h' hh').next hheld hb (.inl rfl)⟩
      · rw [if_neg he]
        obtain ⟨e, he⟩ := Option.ne_none_iff_exists'.mp he
        -- an error ends the session here: what was delivered is what a sequential reader gives
        have hses := hclean.last_unchecked hb he
          (fun hend => by rw [← h.hashing, herr hend]; rfl)
        refine ⟨h.fin, ⟨hses.symm, fun hend => ?_⟩, hpend, h.hashing, fun _ => ?_,
          fun h' hh' => (hhash h' hh').next hheld hb (.inr rfl)⟩
        · have hres := Session.endErr_of_results hses
          rw [hend] at hres
          exact hf.done_of_issued h.fin (Job.eq_of_endMark hb hres ▸ hlt)
        · exact Option.map_eq_none_iff.mp (expected_blk (List.mem_of_getElem? hb) he)
  | hashDone hc hh =>
      have hhash := h.hash _ hh
      have hheld := h.held (by rw [hc]; rintro ⟨⟩)
      rw [hc] at hcons hhash
      refine ⟨h.fin, hcons, hpend, by rw [← h.hashing, hh]; rfl, fun _ => hheld, fun h' hh' => ?_⟩
      obtain rfl := Option.some.inj hh'
      exact ⟨hhash.data, fun he => ⟨rfl, (hhash.exited he).2⟩⟩
  | hashWait hc hh hex =>
      have hhash := h.hash _ hh
      have hheld := h.held (by rw [hc]; rintro ⟨⟩)
      rw [hc] at hcons hhash
      obtain ⟨hclean, hn, hb, herr, hdone, hhashing⟩ := hcons
      have hblk := Option.map_eq_none_iff.mp (expected_blk (List.mem_of_getElem? hb) herr)
      have hses := hclean.last hb herr
      -- the hasher has all blocks, so its sum is the one that the trailer is compared with
      rw [hn] at hhash
      rw [hhashing, if_pos rfl, ← (hf.ended h.fin hdone).fr,
        hhash.all hheld (hhash.exited hex).2 hclean] at hses
      rw [herr, Option.map_some, if_neg (by rintro ⟨⟩)]
      refine ⟨h.fin, ⟨hses.symm, fun _ => hdone⟩, hpend, h.hashing, fun _ => hblk, fun h' hh' => ?_⟩
      obtain rfl := Option.some.inj (hh.symm.trans hh')
      rw [hheld] at hhash
      rw [hblk, hn]
      exact hhash
  | _ => exact ⟨h.fin, hcons, hpend, h.hashing, h.held, h.hash⟩

end AsyncReader

end Plz4
