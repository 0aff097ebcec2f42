/-
What the asynchronous writer guarantees on every schedule.

The semaphore counts the blocks under way and no thread is left waiting; a flush that
returns without an error has put everything before it through to the destination.
-/
import Plz4.AsyncWriterProgress
import Plz4.AsyncWriterLedger
import Plz4.SyncCalls

set_option autoImplicit false

namespace Plz4

open LittleEndian Xxh32

namespace AsyncWriter

variable {Z : Clz4} {c : WriterCfg} {s s' : AsyncWriter Z} {a : Act} {script₀ : List WCall}

/-! ## The semaphore -/

/-- The blocks that have taken a token: those handed over, and the one the caller is
handing over. -/
def issued (s : AsyncWriter Z) : ℕ := s.srcIdx + s.caller.tokens

/-- A token is released once. -/
theorem Places.nodup_released (h : Places s) : s.released.Nodup := by
  rw [List.nodup_iff_count_le_one]
  intro k
  have hcount : ∀ l : List ℕ, l.count k = (l.map (single k)).sum := by
    intro l
    induction l with
    | nil => rfl
    | cons j l ih =>
        rw [List.count_cons, List.map_cons, List.sum_cons, ih, single, Nat.add_comm]
        simp only [beq_iff_eq]
  have hone := h.one k
  rw [weight] at hone
  rw [hcount]
  split_ifs at hone <;> omega

/-- Only blocks handed over release a token. -/
theorem Places.released_lt (h : Places s) {k : ℕ} (hk : k ∈ s.released) : k < s.srcIdx := by
  have hone := h.one k
  have hle := Pool.le_sum_of_mem (single k) hk
  rw [weight] at hone
  rw [single_self] at hle
  by_contra hlt
  rw [if_neg hlt] at hone
  omega

/-- When the write loop has exited, every block has released its token. -/
theorem Sound.released_of_done (h : Sound c s) (hloop : s.loop = .done) {k : ℕ}
    (hk : k < s.srcIdx) : k ∈ s.released := by
  by_contra hrel
  rcases h.places.find hk hrel with ⟨t, ht, hheld⟩ | hheld | ⟨b, hb, -⟩
  · rw [h.phases.tasks (h.phases.loop (by rw [hloop]; rfl)) t ht] at hheld
    cases hheld
  · rw [hloop] at hheld
    cases hheld
  · rw [h.order.drained (by rw [hloop]; rfl)] at hb
    cases hb

/-- Without a compress error no nil block is dereferenced. -/
theorem Sound.not_crashed (h : Sound c s) (hok : ∀ e ∈ s.encodes, e.ret.isOk = true) :
    ¬ s.Crashed := by
  rintro ⟨b, hloop⟩
  obtain ⟨e, he, -, -, hret⟩ := h.values.outs.loop b (by rw [hloop]; rfl)
  have hnil := h.values.crashed b hloop
  have hisok := hok e he
  split at hret
  · rw [hnil] at hret
    cases hret.2
  · rename_i hx
    rw [hx] at hisok
    cases hisok

/-- Every block is made where the factory fails none. -/
theorem Values.encodes_ok (h : Values c s) (hmade : MakesAll Z c.opts) :
    ∀ e ∈ s.encodes, e.ret.isOk = true := by
  intro e he
  obtain ⟨-, src, cmp, -, hreach, hret⟩ := h.encodes e he
  rw [hret]
  exact hmade cmp hreach src _

theorem tasks_newAsyncWriter (Z : Clz4) {o : OptsT} (htasks : 0 < initTasks o)
    (script : List WCall) : (newAsyncWriter Z o script).tasks ≠ [] := by
  change List.replicate (initTasks o).toNat (newTask Z o) ≠ []
  rw [ne_eq, List.replicate_eq_nil_iff]
  omega

/-- The tasks `NewAsyncWriter` starts stay. -/
theorem tasks_run (htasks : 0 < initTasks c.opts) {as : List Act}
    (hrun : Machine.run (step c) (newAsyncWriter Z c.opts script₀) as = some s) : s.tasks ≠ [] :=
  Machine.invariant_run (fun _ _ _ h hstep => tasks_step (step_spec hstep) h)
    (tasks_newAsyncWriter Z htasks script₀) hrun

/-- **The semaphore is exact, and nothing wedges.** The tokens are those of the blocks
issued and not yet released, each block releases its own once, and while the caller is in
a call some thread can move, one other than the hasher if that has nothing to do. -/
theorem asyncWriter_tokens (Z : Clz4) (c : WriterCfg) (hpar : 0 < c.opts.nParallel)
    (htasks : 0 < initTasks c.opts) (script : List WCall) {as : List Act} {s : AsyncWriter Z}
    (hrun : Machine.run (step c) (newAsyncWriter Z c.opts script) as = some s)
    (hok : ∀ e ∈ s.encodes, e.ret.isOk = true) :
    s.sem + s.released.length = s.issued ∧ s.sem ≤ c.opts.calcPending
      ∧ s.released.Nodup ∧ (∀ k ∈ s.released, k < s.srcIdx)
      ∧ (s.loop = .done → ∀ k < s.srcIdx, k ∈ s.released)
      ∧ (s.caller ≠ .idle → ∃ a, (step c s a).isSome = true
        ∧ (step c s .hasher = none → a ≠ .hasher)) := by
  have h := sound_run hpar hrun
  refine ⟨h.places.sem, h.order.sem_le, h.places.nodup_released,
    fun k hk => h.places.released_lt hk, fun hloop k hk => h.released_of_done hloop hk,
    fun hcaller => ?_⟩
  obtain ⟨a, ha⟩ := h.moves hpar (tasks_run htasks hrun) (h.not_crashed hok)
    (fun hfin => hcaller hfin.1)
  refine ⟨a, ha, ?_⟩
  rintro hnone rfl
  rw [hnone] at ha
  cases ha

/-- One byte written and flushed, each thread running as far as it can. -/
def oneByteFlush : List Act :=
  [.loop, .caller, .caller, .caller, .caller, .caller, .caller, .sendIn 0, .task 0, .hasher,
    .hasher, .task 0, .sendOut 0, .loop, .loop, .loop, .loop, .synSend, .loop, .synReply]

/-- Before that flush returns one token has been taken, and released. -/
theorem asyncWriter_tokens_one_byte :
    ∃ s : AsyncWriter litEngine,
      Machine.run (step ⟨.default, .ok⟩) (newAsyncWriter litEngine .default [.write [1], .flush])
          oneByteFlush = some s
        ∧ s.issued = 1 ∧ s.released = [0]
        ∧ s.sem + s.released.length = s.issued
        ∧ ∃ a, (step ⟨.default, .ok⟩ s a).isSome = true := by
  have hrun : (Machine.run (step ⟨.default, .ok⟩)
      (newAsyncWriter litEngine .default [.write [1], .flush]) oneByteFlush).map
        (fun s => (s.issued, s.released, s.caller, s.encodes.map (fun e => e.ret.isOk)))
      = some (1, [0], .flushEnd, [true]) := by decide +kernel
  obtain ⟨s, hs, hobs⟩ := Option.map_eq_some_iff.mp hrun
  simp only [Prod.mk.injEq] at hobs
  obtain ⟨hissued, hreleased, hcaller, henc⟩ := hobs
  have hok : ∀ e ∈ s.encodes, e.ret.isOk = true := by
    intro e he
    have hmem := List.mem_map_of_mem (f := fun e => e.ret.isOk) he
    rw [henc] at hmem
    exact List.mem_singleton.mp hmem
  obtain ⟨hsem, -, -, -, -, hmove⟩ := asyncWriter_tokens litEngine ⟨.default, .ok⟩ (by decide)
    (by decide) [.write [1], .flush] hs hok
  obtain ⟨a, ha, -⟩ := hmove (by rw [hcaller]; rintro ⟨⟩)
  exact ⟨s, hs, hissued, hreleased, hsem, a, ha⟩

/-! ## Flush -/

/-- A flush returned without an error: it was answered, or there was nothing to wait for. -/
theorem flush_returns (h : Ledger script₀ s) (hstep : Step c s a s') {n : ℕ}
    (hret : s'.results = s.results ++ [⟨n, none⟩])
    (hflush : script₀[s.results.length]? = some .flush) :
    s.err = none ∧ s.caller.closing = 0 ∧ (s.caller = .flushEnd ∨ s.srcIdx = 0) ∧ s.cur = []
      ∧ s.part = []
      ∧ s'.blks = s.blks ∧ s'.calls = s.calls ∧ s'.tasks = s.tasks ∧ s'.loop = s.loop
      ∧ s'.pending = s.pending := by
  -- the call that returns is the one at the head of the script
  have hhead : ∃ rest, s.script = .flush :: rest := by
    obtain ⟨hlt, hget⟩ := List.getElem?_eq_some_iff.mp hflush
    refine ⟨script₀.drop (s.results.length + 1), ?_⟩
    rw [h.script, List.drop_eq_getElem_cons hlt, hget]
  obtain ⟨rest, hhead⟩ := hhead
  have hinside : s.caller ≠ .idle → s.caller.In .flush := by
    intro hne
    obtain ⟨call, rest', hscript, hin⟩ := h.inside hne
    rw [hhead, List.cons.injEq] at hscript
    rw [hscript.1]
    exact hin
  have hsame : s.results ≠ s.results ++ [⟨n, none⟩] := by
    intro hnil
    exact absurd (List.append_right_eq_self.mp hnil.symm) (List.cons_ne_nil _ _)
  cases hstep with
  | loc hl =>
      cases hl with
      | @report m hrep =>
          have herr : s.err = none := by
            have := List.append_cancel_left hret
            rw [List.cons.injEq, CallRes.mk.injEq] at this
            exact this.1.2
          cases hrep with
          | write hcaller | readFrom hcaller | report hcaller =>
              have hin := hinside (by rw [hcaller]; rintro ⟨⟩)
              rw [hcaller] at hin
              exact hin.elim
          -- the flush was answered: the block in the buffer went first
          | flushEnd hcaller =>
              refine ⟨herr, by rw [hcaller]; rfl, .inl hcaller, h.emptied (by rw [hcaller]; rfl),
                part_of_count (by rw [hcaller]; rfl), rfl, rfl, rfl, rfl, rfl⟩
          | flush _ _ hne => exact absurd herr hne
          | close _ hscript =>
              rw [hhead] at hscript
              cases hscript
      -- no block was ever made
      | flushNone hcaller hscript herr hcur hidx =>
          exact ⟨herr, by rw [hcaller]; rfl, .inr hidx, hcur, part_of_count (by rw [hcaller]; rfl),
            rfl, rfl, rfl, rfl, rfl⟩
      | _ => exact absurd hret hsame
  | join hcaller | synReplyJoin hcaller =>
      have hin := hinside (by rw [hcaller]; rintro ⟨⟩)
      rw [hcaller] at hin
      exact hin.elim
  | _ => exact absurd hret hsame

/-- Where everything handed over is written, no thread holds a block. -/
theorem Sound.idle (h : Sound c s) (hnext : s.nextIdx = s.srcIdx) :
    (∀ t ∈ s.tasks, t.loc.held = none) ∧ s.loop.held = none ∧ s.pending = [] := by
  have hno : ∀ k, ¬ (k < s.srcIdx ∧ k ∉ s.released) :=
    fun k hk => hk.2 (h.order.below k (hnext ▸ hk.1))
  refine ⟨fun t ht => ?_, ?_, ?_⟩
  · by_contra hne
    obtain ⟨k, hk⟩ := Option.ne_none_iff_exists'.mp hne
    exact hno k (h.places.task ht hk)
  · by_contra hne
    obtain ⟨k, hk⟩ := Option.ne_none_iff_exists'.mp hne
    exact hno k (h.places.inHand hk)
  · by_contra hne
    obtain ⟨b, hb⟩ := List.exists_mem_of_ne_nil _ hne
    exact hno b.idx (h.places.parked hb)

/-- The blocks `ps` with encodings `es`: each made by one call of `CompressToBlk`, with
a compressor of the factory and the dictionary taken from the block before. -/
structure Encodes (Z : Clz4) (o : OptsT) (ps es : List Bytes) : Prop where
  length : es.length = ps.length
  made : ∀ k p d, ps[k]? = some p → es[k]? = some d →
    ∃ cmp, (o.newCompressorFactory Z).Reach cmp
      ∧ (compressToBlk p cmp o.bsz o.blockChecksum (dictFor o ps k)).1 = .ok d

/-- What is written are encodings of the first blocks. -/
theorem Wrote.encodes {es tail : List Bytes} (h : Wrote c s es tail) (hv : Values c s)
    (hlen : es.length = s.blks.length) : Encodes Z c.opts s.blks es := by
  refine ⟨hlen, fun k p d hp hd => ?_⟩
  obtain ⟨e, he, rfl, hret⟩ := h.enc k d hd
  obtain ⟨hdict, src, cmp, hsrc, hcmp, hmade⟩ := hv.encodes e he
  rw [hp] at hsrc
  obtain rfl := Option.some.inj hsrc
  exact ⟨cmp, hcmp, by rw [← hdict, ← hmade, hret]⟩

/-- **A flush that returns nil has put everything through.** The bytes taken by the calls
before it are the blocks written, in order and each without a failure, and no task, nor
the write loop, nor the pending map holds a block. Where no byte was taken the flush may
come before the header, or before a failure of the header is in the error state. -/
theorem flush_complete (Z : Clz4) (c : WriterCfg) (hpar : 0 < c.opts.nParallel)
    (script : List WCall) {as : List Act} {s s' : AsyncWriter Z} {a : Act} {n : ℕ}
    (hrun : Machine.run (step c) (newAsyncWriter Z c.opts script) as = some s)
    (hstep : step c s a = some s') (hret : s'.results = s.results ++ [⟨n, none⟩])
    (hflush : script[s.results.length]? = some .flush) :
    ∃ ps es, ps.flatten = taken script s.results ∧ Encodes Z c.opts ps es
      ∧ ((s'.calls.map WrCall.arg = headerBytes c.opts :: es
            ∧ ∀ w ∈ s'.calls, w.err = none ∧ w.n = w.arg.length)
          ∨ ps = [] ∧ (s'.calls = [] ∨ ∃ w, s'.calls = [w] ∧ w.arg = headerBytes c.opts))
      ∧ (∀ t ∈ s'.tasks, t.loc.held = none) ∧ s'.loop.held = none ∧ s'.pending = [] := by
  have h := sound_run hpar hrun
  have hl := ledger_run hrun
  obtain ⟨herr, hcaller, hwhere, hcur, hpart, hblks, hcalls, htasks, hloop, hpend⟩ :=
    flush_returns hl (step_spec hstep) hret hflush
  have hnext : s.nextIdx = s.srcIdx ∧ ((∀ e k, s.loop ≠ .setErr e k) ∨ s.srcIdx = 0) := by
    rcases hwhere with hcaller | hzero
    · obtain ⟨hnext, hlive⟩ := h.order.flushed hcaller herr
      exact ⟨hnext, .inl hlive⟩
    · have hle := h.order.le
      exact ⟨by omega, .inr hzero⟩
  -- every block made has been written, so none is anywhere
  obtain ⟨hquiet, hheld, hparked⟩ := h.idle hnext.1
  have hkick : ∀ b w, s.loop ≠ .kick b (.wrote w) := by
    intro b w hk
    rw [hk] at hheld
    cases hheld
  have hcontent := hl.content
  rw [hcur, hpart, List.append_nil, List.append_nil] at hcontent
  have hempty : s.srcIdx = 0 → s.blks = [] := by
    intro hzero
    rw [← List.length_eq_zero_iff, h.values.length, hzero]
  rw [hcalls, htasks, hloop, hpend]
  by_cases hhead : s.loop = .header
  · -- the loop has not written its header: no block has been made
    obtain ⟨hnone, hzero, -, -⟩ := h.written.header hhead
    have hblks := hempty (by omega)
    exact ⟨[], [], by rw [← hcontent, hblks], ⟨rfl, by rintro k p d ⟨⟩⟩,
      .inr ⟨rfl, .inl hnone⟩, hquiet, hheld, hparked⟩
  · obtain ⟨es, tail, hw⟩ := h.written.wrote hhead
    have hlen : es.length = s.blks.length := by
      rw [hw.length, wrote_of_not hkick, hnext.1, h.values.length]
    have htail : tail = [] := by
      refine hw.tail_open ?_
      rw [← Bool.not_eq_true]
      intro hend
      have hthree := h.phases.loop (Loop.closing_of_ended hend)
      rw [phase_of_some (h.phases.srcBlk_of_err herr)] at hthree
      have hjoin := Caller.synJoin_of_closing hthree
      rw [hjoin] at hcaller
      cases hcaller
    have hargs := hw.calls
    rw [htail, List.append_nil] at hargs
    refine ⟨s.blks, es, hcontent, hw.encodes h.values hlen, ?_, hquiet, hheld, hparked⟩
    rcases hnext.2 with hlive | hzero
    · have hok := not_failed_iff.mp (h.failing.not_failed ⟨herr, hlive⟩ (fun b e => hkick b _))
      exact .inl ⟨hargs, fun w hw => ⟨hok w hw, h.failing.full w hw (hok w hw)⟩⟩
    -- the header may have failed
    · have hes : es = [] := by
        rw [← List.length_eq_zero_iff, hlen, hempty hzero]
        rfl
      rw [hes, List.map_eq_singleton_iff] at hargs
      exact .inr ⟨hempty hzero, .inr hargs⟩

theorem flush_complete_one_byte :
    ∃ s s' : AsyncWriter litEngine,
      Machine.run (step ⟨.default, .ok⟩) (newAsyncWriter litEngine .default [.write [1], .flush])
          oneByteFlush = some s
        ∧ step ⟨.default, .ok⟩ s .caller = some s'
        ∧ ∃ ps es, ps.flatten = [1] ∧ Encodes litEngine .default ps es ∧ s'.pending = [] := by
  have hrun : ((Machine.run (step ⟨.default, .ok⟩)
      (newAsyncWriter litEngine .default [.write [1], .flush]) oneByteFlush).bind
        (fun s => (step ⟨.default, .ok⟩ s .caller).map (fun s' => (s.results, s'.results))))
      = some ([⟨1, none⟩], [⟨1, none⟩, ⟨0, none⟩]) := by decide +kernel
  obtain ⟨s, hs, hstep⟩ := Option.bind_eq_some_iff.mp hrun
  obtain ⟨s', hs', hres⟩ := Option.map_eq_some_iff.mp hstep
  rw [Prod.mk.injEq] at hres
  obtain ⟨ps, es, hps, henc, -, -, -, hpend⟩ := flush_complete litEngine ⟨.default, .ok⟩
    (by decide) [.write [1], .flush] (n := 0) hs hs' (by rw [hres.1, hres.2]; rfl)
    (by rw [hres.1]; rfl)
  rw [hres.1] at hps
  exact ⟨s, s', hs, hs', ps, es, hps, henc, hpend⟩

end AsyncWriter

/-! ## Incompressible data -/

/-- **Incompressible data is stored.** Where the engine returns 0 for a block a stored
block comes out exactly if the blocks are independent or the level is 1; then no block of
either writer fails to be made, whatever the calls, the destination and the schedule. -/
theorem incompressible_iff (Z : Clz4) (o : OptsT) :
    (∀ cmp : Compressor Z, (o.newCompressorFactory Z).Reach cmp → ∀ src dict,
      src.length ≤ o.bsz → cmp.engine src o.bsz dict = [] →
        ((∃ b, (compressToBlk src cmp o.bsz o.blockChecksum dict).1 = .ok b
            ∧ StoredBlk src o.blockChecksum b)
          ↔ o.blockLinked = false ∨ o.level.val = 1))
    ∧ (o.blockLinked = false ∨ o.level.val = 1 → ∀ wr script as (s : AsyncWriter Z),
        0 < o.nParallel →
        Machine.run (AsyncWriter.step ⟨o, wr⟩) (newAsyncWriter Z o script) as = some s →
        ∀ e ∈ s.encodes, e.ret.isOk = true)
    ∧ (usesSyncWriter o = true → ∀ (buf : PoolBlk o.bsz) wr cs src,
        (((newSyncWriter Z o buf).runCalls wr cs).2.made src).isOk = true) := by
  refine ⟨fun cmp hreach src dict hsrc hnil => compressToBlk_nil_iff hreach hsrc hnil, ?_, ?_⟩
  · intro hopts wr script as s hpar hrun
    exact (AsyncWriter.sound_run (c := ⟨o, wr⟩) hpar hrun).values.encodes_ok
      (makesAll_of_opts hopts)
  · intro hsync buf wr cs src
    have hindep : o.blockLinked = false := by
      rw [usesSyncWriter, Bool.and_eq_true, Bool.not_eq_true'] at hsync
      exact hsync.2
    exact SyncWriter.made_ok hindep buf wr cs src

/-- 64 KiB of hash values. -/
def noise64KB : Bytes :=
  (List.range 16384).flatMap (fun i => putU32 (checksumZero (putU32 (UInt32.ofNat i))))

theorem length_noise64KB : noise64KB.length = OptsT.linked64KB.bsz := by
  unfold noise64KB
  simp only [List.length_flatMap, length_putU32, List.map_const', List.length_range,
    List.sum_replicate]
  rfl

/-- The engine of literals leaves longer blocks to be stored. -/
theorem engine_litEngine {src : Bytes} (h : 13 ≤ src.length) (cap : ℕ) (dict : Option Bytes) :
    (OptsT.linked64KB.newCompressorFactory litEngine).newCompressor.engine src cap dict = [] := by
  show litEncode src cap = []
  rw [litEncode, if_neg (fun hc => absurd hc.1 (by omega))]

/-- Linked blocks at level 2: a block the engine cannot compress is an error. -/
theorem incompressible_linked_level2 :
    let cmp := (OptsT.linked64KB.newCompressorFactory litEngine).newCompressor
    noise64KB.length = OptsT.linked64KB.bsz
      ∧ cmp.engine noise64KB OptsT.linked64KB.bsz none = []
      ∧ (compressToBlk noise64KB cmp OptsT.linked64KB.bsz false none).1 = .error .lz4Compress := by
  have hlen : 13 ≤ noise64KB.length := by
    have hbsz := OptsT.linked64KB.bsz_bounds.1
    rw [length_noise64KB]
    omega
  have hnil := engine_litEngine hlen OptsT.linked64KB.bsz none
  refine ⟨length_noise64KB, hnil, ?_⟩
  have hret := Compressor.compress_of_linkedHC rfl hnil
  simp only [compressToBlk, hret]
  rfl

end Plz4
