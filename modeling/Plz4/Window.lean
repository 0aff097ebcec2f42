/-
The dictionaries of linked blocks: the one both readers hand to the block decoder, and
the window the frame format asks for.

Only a compressed block slides the readers' window. `StoredOutside` says for which
frames that makes no difference.
-/
import Plz4.Stream

set_option autoImplicit false

namespace Plz4

variable {Z : Clz4} {bsz : ℕ} {dc : Decompressor} {fs : List FrameT}

/-! ## Contents -/

/-- The contents of decoded blocks, if all of them decode. -/
def contentsOf : List (Except Err Bytes × ℕ) → Option (List Bytes)
  | [] => some []
  | (.ok b, _) :: ds => (contentsOf ds).map (b :: ·)
  | (.error _, _) :: _ => none

/-- The contents of those blocks that are compressed. -/
def compressedOf (fs : List FrameT) (cs : List Bytes) : List Bytes :=
  ((fs.zip cs).filter (fun p => !p.1.uncompressed)).map Prod.snd

/-- The window before a block: the last 64 KiB of the dictionary and of the content so
far. -/
def window (dict : Option Bytes) (content : Bytes) : Bytes :=
  ((dict.getD []).rtake lz4DictSz ++ content).rtake lz4DictSz

/-- Stored blocks do not matter to the window when enough compressed content follows
each that is not empty. -/
theorem rtake_compressedOf {n : ℕ} {cs : List Bytes} (hlen : fs.length = cs.length)
    (h : ∀ j f, fs[j]? = some f → f.uncompressed = true → cs[j]? ≠ some [] →
      n ≤ (compressedOf (fs.drop (j + 1)) (cs.drop (j + 1))).flatten.length) {A B : Bytes}
    (hAB : A.rtake n = B.rtake n) :
    (A ++ (compressedOf fs cs).flatten).rtake n = (B ++ cs.flatten).rtake n := by
  induction fs generalizing cs A B with
  | nil =>
      obtain rfl : cs = [] := List.length_eq_zero_iff.mp hlen.symm
      rw [compressedOf, List.zip_nil_left, List.filter_nil, List.map_nil, List.flatten_nil,
        List.append_nil, List.append_nil, hAB]
  | cons f fs ih =>
      obtain ⟨c, cs, rfl⟩ : ∃ c cs', cs = c :: cs' := by
        cases cs with
        | nil => cases hlen
        | cons c cs => exact ⟨c, cs, rfl⟩
      have hlen' := Nat.succ.inj hlen
      have htail : ∀ j g, fs[j]? = some g → g.uncompressed = true → cs[j]? ≠ some [] →
          n ≤ (compressedOf (fs.drop (j + 1)) (cs.drop (j + 1))).flatten.length :=
        fun j g hg hunc hne => h (j + 1) g hg hunc hne
      rw [List.flatten_cons, ← List.append_assoc]
      rcases hunc : f.uncompressed with _ | _
      · -- a compressed block is behind both
        have hcons : (compressedOf (f :: fs) (c :: cs)).flatten
            = c ++ (compressedOf fs cs).flatten := by
          simp only [compressedOf, List.zip_cons_cons, List.filter_cons, hunc, Bool.not_false,
            if_true, List.map_cons, List.flatten_cons]
        rw [hcons, ← List.append_assoc]
        refine ih hlen' htail ?_
        rw [← List.rtake_rtake_append, hAB, List.rtake_rtake_append]
      · have hcons : compressedOf (f :: fs) (c :: cs) = compressedOf fs cs := by
          simp only [compressedOf, List.zip_cons_cons, List.filter_cons, hunc, Bool.not_true,
            Bool.false_eq_true, if_false]
        rw [hcons]
        by_cases hnil : c = []
        · rw [hnil, List.append_nil]
          exact ih hlen' htail hAB
        · -- what follows the block fills the window
          have hfill : n ≤ (compressedOf fs cs).flatten.length :=
            h 0 f rfl hunc (fun he => hnil (Option.some.inj he))
          have hboth := ih hlen' htail (A := B ++ c) rfl
          rw [List.rtake_append_of_le _ hfill] at hboth ⊢
          exact hboth

/-- **What slides the window.** Before block `k` the decompressor has the last 64 KiB of
its dictionary and of the compressed blocks; a stored one does not reach it. -/
theorem dict_dcAt {d : DictT} (hlinked : d.linked = true) (hlen : d.data.length ≤ lz4DictSz)
    {k : ℕ} {cs : List Bytes}
    (h : contentsOf ((decodeAll Z bsz (.withDict d) fs).take k) = some cs) :
    (dcAt Z bsz (.withDict d) fs k).dict
      = some ((d.data ++ (compressedOf (fs.take k) cs).flatten).rtake lz4DictSz) := by
  induction fs generalizing d k cs with
  | nil =>
      rw [decodeAll, List.take_nil] at h
      obtain rfl := Option.some.inj h
      rw [dcAt, List.take_nil]
      change some d.data = some ((d.data ++ []).rtake lz4DictSz)
      rw [List.append_nil, List.rtake_of_length_le hlen]
  | cons f fs ih =>
      cases k with
      | zero =>
          obtain rfl := Option.some.inj h
          change some d.data = some ((d.data ++ []).rtake lz4DictSz)
          rw [List.append_nil, List.rtake_of_length_le hlen]
      | succ k =>
          rw [decodeAll, List.take_succ_cons] at h
          have hnext : dcAt Z bsz (.withDict d) (f :: fs) (k + 1)
              = dcAt Z bsz (decodeFrame Z bsz (.withDict d) f).2 fs k := rfl
          rw [hnext, List.take_succ_cons]
          rcases hunc : f.uncompressed with _ | _
          · rcases hdec : Decompressor.decode Z (.withDict d) f.blk (bsz + szOverhead) with code | out
            · have hframe : decodeFrame Z bsz (.withDict d) f = (.error (.join (.const .errCorrupted)
                  (.join (.const .errDecompress) (.lz4Decompress code))), .withDict d) := by
                rw [decodeFrame, hunc, if_neg Bool.false_ne_true, blkDecompress,
                  Decompressor.decompress_error hdec]
              rw [hframe] at h
              cases h
            · -- the decoded block is put behind the window, which keeps its last 64 KiB
              have hframe : decodeFrame Z bsz (.withDict d) f = (.ok out, .withDict (d.update out)) := by
                rw [decodeFrame, hunc, if_neg Bool.false_ne_true, blkDecompress,
                  Decompressor.decompress_ok hdec, Decompressor.after, DictT.needsUpdate, hlinked,
                  if_pos rfl]
              rw [hframe] at h ⊢
              obtain ⟨cs, hcs, rfl⟩ := Option.map_eq_some_iff.mp h
              have hcons : (compressedOf (f :: fs.take k) (out :: cs)).flatten
                  = out ++ (compressedOf (fs.take k) cs).flatten := by
                simp only [compressedOf, List.zip_cons_cons, List.filter_cons, hunc, Bool.not_false,
                  if_true, List.map_cons, List.flatten_cons]
              have hlen' : (d.update out).data.length ≤ lz4DictSz := by
                rw [DictT.data_update, List.length_rtake]
                exact Nat.min_le_left _ _
              have htail := ih (d := d.update out) hlinked hlen' hcs
              rw [DictT.data_update, List.rtake_rtake_append, List.append_assoc] at htail
              rw [htail, hcons]
          · -- a stored block is handed out as it is
            have hframe : decodeFrame Z bsz (.withDict d) f = (.ok f.blk, .withDict d) := by
              rw [decodeFrame, hunc, if_pos rfl]
            rw [hframe] at h ⊢
            obtain ⟨cs, hcs, rfl⟩ := Option.map_eq_some_iff.mp h
            have hcons : compressedOf (f :: fs.take k) (f.blk :: cs) = compressedOf (fs.take k) cs := by
              simp only [compressedOf, List.zip_cons_cons, List.filter_cons, hunc, Bool.not_true,
                Bool.false_eq_true, if_false]
            rw [ih hlinked hlen hcs, hcons]

/-! ## The synchronous reader -/

/-- The calls of the engine in a session of at most `k` calls of `NextBlock`: the number
of the block and the dictionary handed over. -/
def SyncReader.decodes (Z : Clz4) : ℕ → ℕ → SyncReader → Option Bytes → List (ℕ × Option Bytes)
  | 0, _, _, _ => []
  | k + 1, i, r, prevBlk =>
      let call :=
        match (r.frameRdr.read r.src).1.1 with
        | .ok frame => if frame.uncompressed then [] else [(i, r.dc.dict)]
        | .error _ => []
      match r.nextBlock Z prevBlk with
      | (⟨some b, _, none⟩, r) => call ++ SyncReader.decodes Z k (i + 1) r (some b)
      | _ => call

/-- The same calls, of a decoding of the parsed frames in order. -/
def engineCalls (Z : Clz4) (bsz : ℕ) : Decompressor → ℕ → List FrameT → List (ℕ × Option Bytes)
  | _, _, [] => []
  | dc, i, f :: fs =>
      (if f.uncompressed then [] else [(i, dc.dict)]) ++
        match decodeFrame Z bsz dc f with
        | (.ok _, dc) => engineCalls Z bsz dc (i + 1) fs
        | (.error _, _) => []

theorem SyncReader.decodes_eq (Z : Clz4) (k i : ℕ) (r : SyncReader) (prevBlk : Option Bytes) :
    r.decodes Z k i prevBlk
      = engineCalls Z r.frameRdr.bsz r.dc i (parseAux r.frameRdr k r.src).frames := by
  induction k generalizing i r prevBlk with
  | zero => rfl
  | succ k ih =>
      rcases hr : r.frameRdr.read r.src with ⟨⟨e | frame, fr⟩, rest⟩
      · simp only [decodes, nextBlock, hr, parseAux, engineCalls]
      · obtain rfl := FrameReader.read_ok_fr hr
        by_cases hunc : frame.uncompressed = true
        · simp only [decodes, nextBlock, hr, hunc, if_true, parseAux, engineCalls, decodeFrame, ih]
        · rcases hdec : blkDecompress Z r.dc r.frameRdr.bsz frame.blk with ⟨e | b, dc⟩
          · simp only [decodes, nextBlock, hr, if_neg hunc, hdec, parseAux, engineCalls, decodeFrame,
              List.append_nil]
          · simp only [decodes, nextBlock, hr, if_neg hunc, hdec, parseAux, engineCalls, decodeFrame,
              ih]

theorem le_of_mem_engineCalls {i : ℕ} {e : ℕ × Option Bytes}
    (h : e ∈ engineCalls Z bsz dc i fs) : i ≤ e.1 := by
  induction fs generalizing dc i with
  | nil => cases h
  | cons f fs ih =>
      rw [engineCalls, List.mem_append] at h
      rcases h with h | h
      · split_ifs at h
        · cases h
        · rw [List.mem_singleton.mp h]
      · split at h
        · exact Nat.le_of_succ_le (ih h)
        · cases h

/-- A compressed block reaches the engine when the blocks before it decode. -/
theorem mem_engineCalls (i k : ℕ) (d : Option Bytes) :
    (i + k, d) ∈ engineCalls Z bsz dc i fs ↔ d = (dcAt Z bsz dc fs k).dict ∧
      (∃ f, fs[k]? = some f ∧ f.uncompressed = false) ∧
      (contentsOf ((decodeAll Z bsz dc fs).take k)).isSome = true := by
  induction fs generalizing dc i k with
  | nil => simp [engineCalls]
  | cons f fs ih =>
      rw [engineCalls, List.mem_append]
      cases k with
      | zero =>
          -- the calls for the blocks behind have a higher index
          have htail : (i, d) ∉ (match decodeFrame Z bsz dc f with
              | (.ok _, dc) => engineCalls Z bsz dc (i + 1) fs
              | (.error _, _) => []) := by
            intro h
            split at h
            · have hle : i + 1 ≤ i := le_of_mem_engineCalls h
              omega
            · cases h
          rw [Nat.add_zero, or_iff_left htail]
          rcases hunc : f.uncompressed with _ | _
          · simp [hunc, contentsOf, dcAt]
          · simp [hunc]
      | succ k =>
          -- the call for this block has a lower one
          have hhead : (i + (k + 1), d) ∉ (if f.uncompressed then [] else [(i, dc.dict)]) := by
            intro h
            split_ifs at h
            · cases h
            · have hfst : i + (k + 1) = i := congrArg Prod.fst (List.mem_singleton.mp h)
              omega
          have hnext : dcAt Z bsz dc (f :: fs) (k + 1)
              = dcAt Z bsz (decodeFrame Z bsz dc f).2 fs k := rfl
          rw [or_iff_right hhead, List.getElem?_cons_succ, decodeAll, List.take_succ_cons, hnext,
            Nat.add_comm k 1, ← Nat.add_assoc]
          rcases hdec : decodeFrame Z bsz dc f with ⟨e | b, dc'⟩
          · simp only [contentsOf, Option.isSome_none, Bool.false_eq_true, and_false,
              List.not_mem_nil]
          · rw [contentsOf, Option.isSome_map]
            exact ih (i + 1) k

/-- A session whose first `k` blocks decode has a result for the next. -/
theorem length_results_of_contents (hasher : Option Xxh32.XXHZero) (p : Parsed)
    {ds : List (Except Err Bytes × ℕ)} {k : ℕ} (h : (contentsOf (ds.take k)).isSome = true)
    (hk : k < ds.length) : k < (sessionOf hasher p ds).results.length := by
  induction ds generalizing hasher k with
  | nil => cases hk
  | cons d ds ih =>
      cases k with
      | zero =>
          rw [Session.results, List.length_append, List.length_singleton]
          exact Nat.succ_pos _
      | succ k =>
          obtain ⟨e | b, n⟩ := d
          · cases h
          · rw [List.take_succ_cons, contentsOf, Option.isSome_map] at h
            exact Nat.succ_lt_succ (ih _ h (Nat.lt_of_succ_lt_succ hk))

/-! ## The asynchronous reader -/

namespace AsyncReader

variable {J : Job} {s s' : AsyncReader}

/-- Every compressed block handed on was decoded or is at a worker. No more results were
delivered than packets issued. -/
structure Logs (J : Job) (s : AsyncReader) : Prop where
  decodes : ∀ k f, k < s.curIdx → J.parsed.frames[k]? = some f → f.uncompressed = false →
    (∃ d, (k, d) ∈ s.decodes) ∨ ∃ b, Worker.work b ∈ s.workers ∧ b.idx = k
  results : s.results.length ≤ s.issued

theorem Clean.length_le {rs : List NextRes} {n : ℕ} (h : Clean J rs n) : rs.length ≤ n := by
  rw [h.eq]
  exact List.length_take_le _ _

/-- The results after a step, while `Close` is not called. -/
theorem results_step {a : Act} (h : s.results.length ≤ s.issued) (hf : Feeds J s)
    (hd : Delivers J s) (hstep : Step J.cfg s a s') : s'.results.length ≤ s'.issued := by
  have hm := issued_step hstep
  have hc := hd.cons
  cases hstep with
  | release hcons =>
      rw [hcons] at hc
      have hle := hc.1.length_le
      have hlt := hc.2.2.2
      rw [List.length_append, List.length_singleton]
      exact Nat.le_trans (by omega) hm
  | hashWait hcons =>
      rw [hcons] at hc
      obtain ⟨hclean, -, -, -, hdone, -⟩ := hc
      have hle := hclean.length_le
      have hidx := (hf.ended hd.fin hdone).idx
      have hissued : s.issued = s.curIdx + 1 := by simp only [issued, hdone]
      rw [List.length_append, List.length_singleton]
      exact Nat.le_trans (by omega) hm
  | _ => exact h.trans hm

/-- **Every compressed block gets to the engine, one step.** -/
theorem Logs.step {a : Act} (h : Logs J s) (hs : Serves J s) (hne : a ≠ .close)
    (hstep : Step J.cfg s a s') : Logs J s' := by
  have hd := hs.feeds.disp
  have hc := hs.delivers.cons
  refine ⟨?_, results_step h.results hs.feeds hs.delivers hstep⟩
  have hset : ∀ {i : ℕ} {x y : Worker}, s.workers[i]? = some x → (∀ b, x ≠ .work b) →
      ∀ k f, k < s.curIdx → J.parsed.frames[k]? = some f → f.uncompressed = false →
      (∃ d, (k, d) ∈ s.decodes) ∨ ∃ b, Worker.work b ∈ s.workers.set i y ∧ b.idx = k := by
    intro i x y hx hwork k f hk hf hunc
    refine (h.decodes k f hk hf hunc).imp_right ?_
    rintro ⟨b, hb, hidx⟩
    exact ⟨b, Pool.mem_set_of_ne hx y hb (hwork b).symm, hidx⟩
  -- a stored block passes the engine by
  have hstored : ∀ {P : ℕ → Prop}, J.Stored s.curIdx →
      (∀ k f, k < s.curIdx → J.parsed.frames[k]? = some f → f.uncompressed = false → P k) →
      ∀ k f, k < s.curIdx + 1 → J.parsed.frames[k]? = some f → f.uncompressed = false → P k := by
    rintro P ⟨g, hg, hgunc⟩ hall k f hk hf hunc
    rcases Nat.lt_succ_iff_lt_or_eq.mp hk with hk | rfl
    · exact hall k f hk hf hunc
    · rw [hf, Option.some.injEq] at hg
      rw [hg, hgunc] at hunc
      cases hunc
  -- the worker that decodes is the one that had the block
  have hwork : ∀ {i : ℕ} {b : InBlk} {y : Worker} {d : Option Bytes},
      s.workers[i]? = some (.work b) →
      ∀ k f, k < s.curIdx → J.parsed.frames[k]? = some f → f.uncompressed = false →
      (∃ d', (k, d') ∈ s.decodes ++ [(b.idx, d)]) ∨
        ∃ b, Worker.work b ∈ s.workers.set i y ∧ b.idx = k := by
    intro i b y d hx k f hk hf hunc
    rcases h.decodes k f hk hf hunc with ⟨d', hd'⟩ | ⟨b', hb', hidx⟩
    · exact .inl ⟨d', List.mem_append_left _ hd'⟩
    · by_cases heq : b' = b
      · exact .inl ⟨d, List.mem_append_right _ (by rw [← hidx, heq]; exact List.mem_singleton_self _)⟩
      · exact .inr ⟨b', Pool.mem_set_of_ne hx y hb' (fun hw => heq (Worker.work.inj hw)), hidx⟩
  cases hstep with
  | sendIn hdisp hw =>
      rw [hdisp] at hd
      intro k f hk hf hunc
      rcases Nat.lt_succ_iff_lt_or_eq.mp hk with hk | rfl
      · exact hset hw (by rintro _ ⟨⟩) k f hk hf hunc
      · exact .inr ⟨_, Pool.mem_set_self hw _, hd.2.1⟩
  | sendOutNext hdisp =>
      rw [hdisp] at hd
      exact hstored hd.2.2.2 h.decodes
  | sendOutPark hdisp =>
      rw [hdisp] at hd
      exact hstored hd.2.2.2 h.decodes
  | workOk hw => exact hwork hw
  | workErr hw => exact hwork hw
  | workerNext hw => exact hset hw (by rintro _ ⟨⟩)
  | workerPark hw => exact hset hw (by rintro _ ⟨⟩)
  | workerFin hw => exact hset hw (by rintro _ ⟨⟩)
  | workerExit hw => exact hset hw (by rintro _ ⟨⟩)
  | close => exact absurd rfl hne
  | drainIn hcons => exact (by rw [hcons] at hc; exact hc.elim)
  | drainOutBlk hcons => exact (by rw [hcons] at hc; exact hc.elim)
  | _ => exact h.decodes

/-- A compressed block whose predecessors decode gets to the engine on some schedule. -/
theorem exists_decode {Z : Clz4} {hdr : HeaderT} {o : OptsT} {src : Bytes} (hpar : 0 < o.nParallel)
    (hone : hdr.flags.blockIndependence = false → o.nParallel = 1) {k : ℕ} {f : FrameT}
    (hf : (parseFrames (readerFrame hdr) src).frames[k]? = some f) (hunc : f.uncompressed = false)
    (hbefore : (contentsOf ((decodeAll Z (readerFrame hdr).bsz (readerDc hdr o)
      (parseFrames (readerFrame hdr) src).frames).take k)).isSome = true) :
    ∃ as s d, Machine.run (AsyncReader.step (readerCfg Z hdr o)) (newAsyncReader src hdr o) as
      = some s ∧ (k, d) ∈ s.decodes := by
  set J := readerJob Z hdr o src with hJ
  obtain ⟨t, as, s, hclose, hrun, hcons, -, -⟩ := exists_asyncSession Z src hpar hone
  have hinit : Serves J (newAsyncReader src hdr o) := newAsyncReader_serves hpar hone
  have hlogs : Logs J (newAsyncReader src hdr o) :=
    ⟨fun _ _ hk => absurd hk (Nat.not_lt_zero _), Nat.zero_le _⟩
  obtain ⟨hs, hl⟩ := Machine.invariant_run_of (I := fun s => Serves J s ∧ Logs J s)
    (P := fun a => a ≠ Act.close) (fun _ _ _ hne hs hstep =>
      ⟨hs.1.step hne hstep, hs.2.step hs.1 hne (step_spec hstep)⟩)
    (fun _ ha he => hclose (he ▸ ha)) ⟨hinit, hlogs⟩ hrun
  -- the results reach block `k`, so its packet was issued
  have hlt := (List.getElem?_eq_some_iff.mp hf).1
  have hc := hs.delivers.cons
  rw [hcons] at hc
  have hreach : k < s.results.length := by
    rw [hc.1]
    exact length_results_of_contents _ _ hbefore (by rw [Job.decoded, length_decodeAll]; exact hlt)
  have hcur : k < s.curIdx := by
    by_cases hdone : s.disp = .done
    · rw [(hs.feeds.ended hs.delivers.fin hdone).idx]
      exact hlt
    · have hissued : s.issued = s.curIdx := by
        rw [issued]
        split
        · exact absurd ‹_› hdone
        · rfl
      have hle := hl.results
      omega
  rcases hl.decodes k f hcur hf hunc with ⟨d, hd⟩ | ⟨b, hb, rfl⟩
  · exact ⟨as, s, d, hrun, hd⟩
  · -- a worker that has the block can go on
    obtain ⟨i, hi⟩ := List.mem_iff_getElem?.mp hb
    have hstep : AsyncReader.step (readerCfg Z hdr o) s (.work i)
        = some (s.workStep (readerCfg Z hdr o) i b) := by
      simp only [AsyncReader.step, hi]
    refine ⟨as ++ [.work i], _, s.dc.dict, Machine.run_append.mpr ⟨s, hrun,
      Machine.run_cons_eq_some.mpr ⟨_, hstep, rfl⟩⟩, ?_⟩
    simp only [workStep]
    split <;> exact List.mem_append_right _ (List.mem_singleton_self _)

end AsyncReader

/-! ## Both readers -/

/-- The blocks of a frame body. -/
def bodyFrames (hdr : HeaderT) (src : Bytes) : List FrameT :=
  (parseFrames (readerFrame hdr) src).frames

/-- The contents of the blocks before block `k`, if all of them decode. -/
def contentsBefore (Z : Clz4) (hdr : HeaderT) (o : OptsT) (src : Bytes) (k : ℕ) :
    Option (List Bytes) :=
  contentsOf ((decodeAll Z (readerFrame hdr).bsz (readerDc hdr o) (bodyFrames hdr src)).take k)

/-- The reader that `makeBlockReader` makes hands block `k` to the engine with the
dictionary `d`; an asynchronous one does on some schedule. -/
def Handed (Z : Clz4) (hdr : HeaderT) (o : OptsT) (src : Bytes) (k : ℕ) (d : Option Bytes) : Prop :=
  if o.nParallel = 0 then
    (k, d) ∈ (newSyncReader src hdr o).decodes Z (src.length + 1) 0 none
  else
    ∃ as s, Machine.run (AsyncReader.step (readerCfg Z hdr (serialOpts o hdr)))
      (newAsyncReader src hdr (serialOpts o hdr)) as = some s ∧ (k, d) ∈ s.decodes

/-- Before every compressed block the last 64 KiB are the same without the stored
blocks. -/
def StoredOutside (Z : Clz4) (hdr : HeaderT) (o : OptsT) (src : Bytes) : Prop :=
  ∀ k f cs, (bodyFrames hdr src)[k]? = some f → f.uncompressed = false →
    contentsBefore Z hdr o src k = some cs →
    window o.dictionary (compressedOf ((bodyFrames hdr src).take k) cs).flatten
      = window o.dictionary cs.flatten

variable {hdr : HeaderT} {o : OptsT} {src : Bytes}

theorem length_contentsOf {ds : List (Except Err Bytes × ℕ)} {cs : List Bytes}
    (h : contentsOf ds = some cs) : cs.length = ds.length := by
  induction ds generalizing cs with
  | nil =>
      obtain rfl := Option.some.inj h
      rfl
  | cons d ds ih =>
      obtain ⟨e | b, n⟩ := d
      · cases h
      · obtain ⟨cs, hcs, rfl⟩ := Option.map_eq_some_iff.mp h
        rw [List.length_cons, List.length_cons, ih hcs]

/-- The frames meant: after a stored block that is not empty, 64 KiB come from compressed
blocks before a compressed block needs the window. -/
theorem storedOutside_of_far (h : ∀ k f cs, (bodyFrames hdr src)[k]? = some f →
    f.uncompressed = false → contentsBefore Z hdr o src k = some cs →
    ∀ j g, ((bodyFrames hdr src).take k)[j]? = some g → g.uncompressed = true →
      cs[j]? ≠ some [] → lz4DictSz ≤ (compressedOf (((bodyFrames hdr src).take k).drop (j + 1))
        (cs.drop (j + 1))).flatten.length) : StoredOutside Z hdr o src := by
  intro k f cs hf hunc hcs
  refine rtake_compressedOf ?_ (h k f cs hf hunc hcs) rfl
  rw [length_contentsOf hcs, List.length_take, List.length_take, length_decodeAll]

theorem serialOpts_fields (o : OptsT) (hdr : HeaderT) :
    (serialOpts o hdr).dictionary = o.dictionary ∧
      (serialOpts o hdr).nParallel = if 0 < o.nParallel ∧ hdr.flags.blockIndependence = false then 1
        else o.nParallel := by
  rw [serialOpts]
  split_ifs <;> exact ⟨rfl, rfl⟩

theorem readerDc_serialOpts : readerDc hdr (serialOpts o hdr) = readerDc hdr o := by
  rw [readerDc, readerDc, readerDict, readerDict, (serialOpts_fields o hdr).1]

/-- The dictionary of a linked frame before block `k`. -/
theorem dict_linked (hlinked : hdr.flags.blockIndependence = false) {k : ℕ} {cs : List Bytes}
    (h : contentsBefore Z hdr o src k = some cs) :
    (dcAt Z (readerFrame hdr).bsz (readerDc hdr o) (bodyFrames hdr src) k).dict
      = some (window o.dictionary (compressedOf ((bodyFrames hdr src).take k) cs).flatten) := by
  have hdc : readerDc hdr o = .withDict (newDictT (o.dictionary.getD []) true) := by
    rw [readerDc, readerDict, hlinked, Bool.not_false, Bool.or_true, if_pos rfl]
    rfl
  rw [contentsBefore, hdc] at h
  rw [hdc, dict_dcAt rfl ?_ h, DictT.data_new, window]
  rw [DictT.data_new, List.length_rtake]
  exact Nat.min_le_left _ _

/-- Whatever reaches the engine is a compressed block with the dictionary of its place. -/
theorem Handed.dict {k : ℕ} {d : Option Bytes} (h : Handed Z hdr o src k d) :
    d = (dcAt Z (readerFrame hdr).bsz (readerDc hdr o) (bodyFrames hdr src) k).dict ∧
      ∃ f, (bodyFrames hdr src)[k]? = some f ∧ f.uncompressed = false := by
  rw [Handed] at h
  by_cases hpar : o.nParallel = 0
  · rw [if_pos hpar, SyncReader.decodes_eq, ← Nat.zero_add k, mem_engineCalls] at h
    exact ⟨h.1, h.2.1⟩
  · rw [if_neg hpar] at h
    obtain ⟨as, s, hrun, hmem⟩ := h
    have hone : hdr.flags.blockIndependence = false → (serialOpts o hdr).nParallel = 1 := by
      intro hind
      rw [(serialOpts_fields o hdr).2, if_pos ⟨Nat.pos_of_ne_zero hpar, hind⟩]
    have hfeeds : AsyncReader.Feeds (readerJob Z hdr (serialOpts o hdr) src) s :=
      (newAsyncReader_feeds hone).run hrun
    have hdec := hfeeds.decodes _ hmem
    rw [← readerDc_serialOpts]
    exact hdec

/-- A compressed block reaches the engine, once the blocks before it decode. -/
theorem exists_handed (hlinked : hdr.flags.blockIndependence = false) {k : ℕ} {f : FrameT}
    (hf : (bodyFrames hdr src)[k]? = some f) (hunc : f.uncompressed = false) {cs : List Bytes}
    (hcs : contentsBefore Z hdr o src k = some cs) : ∃ d, Handed Z hdr o src k d := by
  have hsome := Option.isSome_of_eq_some hcs
  by_cases hpar : o.nParallel = 0
  · refine ⟨(dcAt Z (readerFrame hdr).bsz (readerDc hdr o) (bodyFrames hdr src) k).dict, ?_⟩
    rw [Handed, if_pos hpar, SyncReader.decodes_eq, ← Nat.zero_add k, mem_engineCalls, Nat.zero_add]
    exact ⟨rfl, ⟨f, hf, hunc⟩, hsome⟩
  · have hone : (serialOpts o hdr).nParallel = 1 := by
      rw [(serialOpts_fields o hdr).2, if_pos ⟨Nat.pos_of_ne_zero hpar, hlinked⟩]
    rw [contentsBefore, ← readerDc_serialOpts] at hsome
    obtain ⟨as, s, d, hrun, hmem⟩ := AsyncReader.exists_decode (hone ▸ Nat.one_pos) (fun _ => hone)
      hf hunc hsome
    refine ⟨d, ?_⟩
    rw [Handed, if_neg hpar]
    exact ⟨as, s, hrun, hmem⟩

/-- **The window of linked blocks.** The engine has the window the format asks for with
every compressed block, in the synchronous reader and on every schedule of the
asynchronous one, exactly for the frames whose stored blocks never matter to it. -/
theorem handed_window_iff (Z : Clz4) (hdr : HeaderT) (o : OptsT) (src : Bytes)
    (hlinked : hdr.flags.blockIndependence = false) :
    (∀ k d cs, Handed Z hdr o src k d → contentsBefore Z hdr o src k = some cs →
        d = some (window o.dictionary cs.flatten))
      ↔ StoredOutside Z hdr o src := by
  constructor
  · intro h k f cs hf hunc hcs
    obtain ⟨d, hd⟩ := exists_handed hlinked hf hunc hcs
    have hwin := h k d cs hd hcs
    rw [hd.dict.1, dict_linked hlinked hcs] at hwin
    exact Option.some.inj hwin
  · intro h k d cs hd hcs
    obtain ⟨rfl, f, hf, hunc⟩ := hd.dict
    rw [dict_linked hlinked hcs, h k f cs hf hunc hcs]

/-- Two compressed blocks, with the default options. -/
theorem handed_window_two_blocks :
    StoredOutside litEngine ⟨7, 0, 0, ⟨0x40⟩, ⟨0x40⟩⟩ .default
        [2, 0, 0, 0, 16, 7, 2, 0, 0, 0, 16, 8, 0, 0, 0, 0] ∧
      ∀ k d cs, Handed litEngine ⟨7, 0, 0, ⟨0x40⟩, ⟨0x40⟩⟩ .default
          [2, 0, 0, 0, 16, 7, 2, 0, 0, 0, 16, 8, 0, 0, 0, 0] k d →
        contentsBefore litEngine ⟨7, 0, 0, ⟨0x40⟩, ⟨0x40⟩⟩ .default
          [2, 0, 0, 0, 16, 7, 2, 0, 0, 0, 16, 8, 0, 0, 0, 0] k = some cs →
        d = some (window none cs.flatten) := by
  have hout : StoredOutside litEngine ⟨7, 0, 0, ⟨0x40⟩, ⟨0x40⟩⟩ .default
      [2, 0, 0, 0, 16, 7, 2, 0, 0, 0, 16, 8, 0, 0, 0, 0] := by
    refine storedOutside_of_far fun k f cs _ _ _ j g hg hunc => ?_
    have hall : ∀ g ∈ bodyFrames ⟨7, 0, 0, ⟨0x40⟩, ⟨0x40⟩⟩
        [2, 0, 0, 0, 16, 7, 2, 0, 0, 0, 16, 8, 0, 0, 0, 0], g.uncompressed = false := by decide
    rw [hall g (List.mem_of_mem_take (List.mem_of_getElem? hg))] at hunc
    cases hunc
  exact ⟨hout, (handed_window_iff litEngine ⟨7, 0, 0, ⟨0x40⟩, ⟨0x40⟩⟩ .default
    [2, 0, 0, 0, 16, 7, 2, 0, 0, 0, 16, 8, 0, 0, 0, 0] (by decide)).mpr hout⟩

/-- A stored block `[7]` and a compressed one: the engine gets an empty dictionary. -/
theorem handed_misses_stored :
    Handed litEngine ⟨7, 0, 0, ⟨0x40⟩, ⟨0x40⟩⟩ .sync64KB
        [1, 0, 0, 0x80, 7, 2, 0, 0, 0, 16, 8, 0, 0, 0, 0] 1 (some []) ∧
      contentsBefore litEngine ⟨7, 0, 0, ⟨0x40⟩, ⟨0x40⟩⟩ .sync64KB
        [1, 0, 0, 0x80, 7, 2, 0, 0, 0, 16, 8, 0, 0, 0, 0] 1 = some [[7]] ∧
      (some [] : Option Bytes) ≠ some (window OptsT.sync64KB.dictionary [[7]].flatten) := by
  have hcs : contentsBefore litEngine ⟨7, 0, 0, ⟨0x40⟩, ⟨0x40⟩⟩ .sync64KB
      [1, 0, 0, 0x80, 7, 2, 0, 0, 0, 16, 8, 0, 0, 0, 0] 1 = some [[7]] := by decide
  have hf : (bodyFrames ⟨7, 0, 0, ⟨0x40⟩, ⟨0x40⟩⟩
      [1, 0, 0, 0x80, 7, 2, 0, 0, 0, 16, 8, 0, 0, 0, 0])[1]? = some ⟨[16, 8], 6, false⟩ := by decide
  obtain ⟨d, hd⟩ := exists_handed (by decide) hf rfl hcs
  have hdict := hd.dict.1
  rw [dict_linked (by decide) hcs] at hdict
  have hempty : window OptsT.sync64KB.dictionary (compressedOf ((bodyFrames ⟨7, 0, 0, ⟨0x40⟩, ⟨0x40⟩⟩
      [1, 0, 0, 0x80, 7, 2, 0, 0, 0, 16, 8, 0, 0, 0, 0]).take 1) [[7]]).flatten = [] := by decide
  rw [hempty] at hdict
  exact ⟨hdict ▸ hd, hcs, by decide⟩

end Plz4
