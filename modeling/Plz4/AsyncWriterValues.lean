/-
What the blocks of the asynchronous writer carry.

Whatever is in flight was made by a call of `CompressToBlk` that the log `encodes`
holds, of the block handed over under that number, with the dictionary taken from the
block before it and a compressor of the writer's factory.
-/
import Plz4.AsyncWriterOrder

set_option autoImplicit false

namespace Plz4

/-- The dictionary of block `k`: the end of the block before it. -/
def dictFor (o : OptsT) (blks : List Bytes) (k : ℕ) : Option Bytes :=
  if o.blockLinked ∧ 0 < k then (blks[k - 1]?).map (fun b => b.rtake lz4DictSz) else none

/-- The source block a task is about to compress. -/
def TaskAt.src : TaskAt → Option InBlkW
  | .check b => some b
  | _ => none

/-- The made block a task has. -/
def TaskAt.out : TaskAt → Option OutBlk
  | .free _ out | .freeSend _ out => out
  | .send out => some out
  | _ => none

/-- The block in the hand of the write loop. -/
def Loop.out : Loop → Option OutBlk
  | .got b | .write b | .kick b _ | .crashed b => some b
  | _ => none

theorem dictFor_append (o : OptsT) {blks : List Bytes} {k : ℕ} (hk : k ≤ blks.length)
    (more : List Bytes) : dictFor o (blks ++ more) k = dictFor o blks k := by
  unfold dictFor
  by_cases h : o.blockLinked = true ∧ 0 < k
  · rw [if_pos h, if_pos h, List.getElem?_append_left (by omega)]
  · rw [if_neg h, if_neg h]

/-- Blocks that are not linked have no dictionary. -/
theorem dictFor_indep {o : OptsT} (h : o.blockLinked = false) (blks : List Bytes) (k : ℕ) :
    dictFor o blks k = none := by
  unfold dictFor
  rw [if_neg]
  rintro ⟨hlinked, -⟩
  rw [h] at hlinked
  cases hlinked

namespace AsyncWriter

variable {Z : Clz4} {c : WriterCfg} {s s' : AsyncWriter Z} {a : Act}

/-! ## What is in flight -/

/-- A property of every made block that is in flight. -/
structure Outs (P : OutBlk → Prop) (s : AsyncWriter Z) : Prop where
  task : ∀ t ∈ s.tasks, ∀ out, t.loc.out = some out → P out
  loop : ∀ out, s.loop.out = some out → P out
  pending : ∀ out ∈ s.pending, P out

theorem Outs.mono {P Q : OutBlk → Prop} (h : Outs P s) (hpq : ∀ out, P out → Q out) : Outs Q s :=
  ⟨fun t ht out hout => hpq out (h.task t ht out hout), fun out hout => hpq out (h.loop out hout),
    fun out hout => hpq out (h.pending out hout)⟩

theorem out_afterFree (b : InBlkW) (out : Option OutBlk) : (afterFree b out).out = out := by
  cases out <;> rfl

theorem src_afterFree (b : InBlkW) (out : Option OutBlk) : (afterFree b out).src = none := by
  cases out <;> rfl

/-- A task that moves with what it had. -/
theorem Outs.taskMove {P : OutBlk → Prop} (h : Outs P s) {i : ℕ} {t t' : Task Z}
    (hi : s.tasks[i]? = some t) (hout : ∀ out, t'.loc.out = some out → t.loc.out = some out) :
    ∀ t ∈ s.tasks.set i t', ∀ out, t.loc.out = some out → P out :=
  Pool.forall_set h.task (fun out ho => h.task t (List.mem_of_getElem? hi) out (hout out ho))

/-- **What is in flight is what was.** Only a task that compresses adds a block. -/
theorem Outs.step {P : OutBlk → Prop} (h : Outs P s) (hstep : Step c s a s')
    (hmade : ∀ t ∈ s.tasks, ∀ b ret, t.loc.src = some b → s'.blks = s.blks →
      s'.encodes = s.encodes ++ [⟨b.idx, b.dict.map Blk.data, ret⟩] → P (outOf b s.borrowed ret)) :
    Outs P s' := by
  cases hstep with
  | sendIn hcaller hblk hi hloc hcl =>
      refine ⟨fun t ht => ?_, h.loop, h.pending⟩
      rcases List.mem_append.mp ht with ht | ht
      · exact h.taskMove hi (by rintro _ ⟨⟩) t ht
      · -- a task that is added has nothing to send
        unfold spawned at ht
        split_ifs at ht
        · rw [List.mem_singleton.mp ht]
          rintro _ ⟨⟩
        · cases ht
  | exit hi | skip hi | release hi => exact ⟨h.taskMove hi (by rintro _ ⟨⟩), h.loop, h.pending⟩
  | compress hi hloc herr hret =>
      refine ⟨Pool.forall_set h.task (fun out hout => ?_), h.loop, h.pending⟩
      -- the one block that was not in flight before
      rw [← Option.some.inj hout]
      exact hmade _ (List.mem_of_getElem? hi) _ _ (by rw [hloc]; rfl) rfl rfl
  | freeAsk hi hloc =>
      exact ⟨h.taskMove hi (by rw [hloc]; exact fun _ ho => ho), h.loop, h.pending⟩
  | freeNow hi hloc | freeSend hi hloc =>
      refine ⟨h.taskMove hi (fun out ho => ?_), h.loop, h.pending⟩
      rw [out_afterFree] at ho
      rw [hloc]
      exact ho
  | sendOut hi hloc =>
      refine ⟨h.taskMove hi (by rintro _ ⟨⟩), fun out hout => ?_, h.pending⟩
      exact h.task _ (List.mem_of_getElem? hi) out (by rw [hloc]; exact hout)
  | gotPark hloop =>
      refine ⟨h.task, (by rintro _ ⟨⟩), fun out hout => ?_⟩
      rcases List.mem_append.mp hout with hout | hout
      · exact h.pending out hout
      · rw [List.mem_singleton.mp hout]
        exact h.loop _ (by rw [hloop]; rfl)
  | gotDrop hloop | gotErr hloop | gotWrite hloop | write hloop | crash hloop =>
      exact ⟨h.task, fun out hout => h.loop out (by rw [hloop]; exact hout), h.pending⟩
  | kickNext hloop hsem hmem hidx hfind =>
      refine ⟨h.task, fun out hout => ?_, fun out hout => h.pending out (List.mem_of_mem_eraseP hout)⟩
      rw [← Option.some.inj hout]
      exact h.pending _ hmem
  | drainKick hloop hpend =>
      refine ⟨h.task, h.loop, fun out hout => h.pending out ?_⟩
      rw [hpend]
      exact List.mem_cons_of_mem _ hout
  | finish hloop | abort hloop | hashWait hloop =>
      refine ⟨h.task, fun out hout => ?_, h.pending⟩
      change (if _ then _ else _ : Loop).out = some out at hout
      split_ifs at hout <;> cases hout
  | synSend | synReply | synReplyJoin | header | headerFail | headerErr | outClosed | kickDrop
  | kickErr | kickFail
  | kickLast | setErr | reply | noReply | drained | hashDone | trailer | trailerFail
  | trailerErr | closeSyn =>
      exact ⟨h.task, (by rintro _ ⟨⟩), h.pending⟩
  | _ => exact ⟨h.task, h.loop, h.pending⟩

theorem outs_newAsyncWriter (P : OutBlk → Prop) (Z : Clz4) (o : OptsT) (script : List WCall) :
    Outs P (newAsyncWriter Z o script) := by
  refine ⟨fun t ht => ?_, (by rintro _ ⟨⟩), (by rintro _ ⟨⟩)⟩
  rw [List.eq_of_mem_replicate ht]
  rintro _ ⟨⟩

/-! ## The blocks and their encodings -/

/-- A source block as it was handed over. -/
def InOk (o : OptsT) (blks : List Bytes) (b : InBlkW) : Prop :=
  blks[b.idx]? = some b.blk.data ∧ b.dict.map Blk.data = dictFor o blks b.idx

/-- A call of `CompressToBlk` for a block that was handed over. -/
structure EncodeOk (Z : Clz4) (o : OptsT) (blks : List Bytes) (e : Encode) : Prop where
  dict : e.dict = dictFor o blks e.idx
  ret : ∃ src cmp, blks[e.idx]? = some src ∧ (o.newCompressorFactory Z).Reach cmp
    ∧ e.ret = (compressToBlk src cmp o.bsz o.blockChecksum e.dict).1

/-- A made block carries what a logged call returned. -/
def OutOk (blks : List Bytes) (encodes : List Encode) (out : OutBlk) : Prop :=
  ∃ e ∈ encodes, e.idx = out.idx ∧ (blks[out.idx]?).map List.length = some out.srcSz
    ∧ match e.ret with
      | .ok data => out.err = none ∧ out.blk.map Blk.data = some data
      | .error x => out.err = some x ∧ out.blk = none

structure Values (c : WriterCfg) (s : AsyncWriter Z) : Prop where
  length : s.blks.length = s.srcIdx
  dict : s.srcBlk ≠ none → s.dict.map Blk.data = dictFor c.opts s.blks s.srcIdx
  src : ∀ t ∈ s.tasks, ∀ b, t.loc.src = some b → InOk c.opts s.blks b
  cmp : ∀ t ∈ s.tasks, (c.opts.newCompressorFactory Z).Reach t.cmp
  encodes : ∀ e ∈ s.encodes, EncodeOk Z c.opts s.blks e
  outs : Outs (OutOk s.blks s.encodes) s
  crashed : ∀ b, s.loop = .crashed b → b.blk = none

theorem InOk.append {o : OptsT} {blks : List Bytes} {b : InBlkW} (h : InOk o blks b)
    (more : List Bytes) : InOk o (blks ++ more) b := by
  have hlt := (List.getElem?_eq_some_iff.mp h.1).1
  refine ⟨?_, ?_⟩
  · rw [List.getElem?_append_left hlt]
    exact h.1
  · rw [dictFor_append o (Nat.le_of_lt hlt)]
    exact h.2

theorem EncodeOk.append {o : OptsT} {blks : List Bytes} {e : Encode} (h : EncodeOk Z o blks e)
    (more : List Bytes) : EncodeOk Z o (blks ++ more) e := by
  obtain ⟨src, cmp, hsrc, hcmp, hret⟩ := h.ret
  have hlt := (List.getElem?_eq_some_iff.mp hsrc).1
  refine ⟨?_, src, cmp, ?_, hcmp, hret⟩
  · rw [dictFor_append o (Nat.le_of_lt hlt)]
    exact h.dict
  · rw [List.getElem?_append_left hlt]
    exact hsrc

/-- A made block stays what it is when blocks are handed over and made. -/
theorem OutOk.append {blks : List Bytes} {encodes : List Encode} {out : OutBlk}
    (h : OutOk blks encodes out) (more : List Bytes) (es : List Encode) :
    OutOk (blks ++ more) (encodes ++ es) out := by
  obtain ⟨e, he, hidx, hsz, hret⟩ := h
  have hlt : out.idx < blks.length := by
    obtain ⟨b, hb, -⟩ := Option.map_eq_some_iff.mp hsz
    exact (List.getElem?_eq_some_iff.mp hb).1
  refine ⟨e, List.mem_append_left _ he, hidx, ?_, hret⟩
  rw [List.getElem?_append_left hlt]
  exact hsz

theorem OutOk.lt {blks : List Bytes} {encodes : List Encode} {out : OutBlk}
    (h : OutOk blks encodes out) : out.idx < blks.length := by
  obtain ⟨-, -, -, hsz, -⟩ := h
  obtain ⟨b, hb, -⟩ := Option.map_eq_some_iff.mp hsz
  exact (List.getElem?_eq_some_iff.mp hb).1

/-- What a task makes of a source block. -/
theorem outOk_outOf {o : OptsT} {blks : List Bytes} {b : InBlkW} (hin : InOk o blks b) (id : ℕ)
    (ret : Except Err Bytes) (encodes : List Encode) :
    OutOk blks (encodes ++ [⟨b.idx, b.dict.map Blk.data, ret⟩]) (outOf b id ret) := by
  refine ⟨_, List.mem_append_right _ (List.mem_singleton_self _), (idx_outOf b id ret).symm, ?_, ?_⟩
  · rw [idx_outOf, hin.1]
    rcases ret with e | data <;> rfl
  · rcases ret with e | data
    · exact ⟨rfl, rfl⟩
    · exact ⟨rfl, rfl⟩

/-! ## One step -/

/-- The logs of blocks and encodings only grow. -/
theorem logs_step (hstep : Step c s a s') :
    ∃ more es, s'.blks = s.blks ++ more ∧ s'.encodes = s.encodes ++ es := by
  cases hstep with
  | sendIn => exact ⟨_, [], rfl, (List.append_nil _).symm⟩
  | compress => exact ⟨[], _, (List.append_nil _).symm, rfl⟩
  | _ => exact ⟨[], [], (List.append_nil _).symm, (List.append_nil _).symm⟩

theorem length_blks_step (h : Values c s) (hstep : Step c s a s') :
    s'.blks.length = s'.srcIdx := by
  cases hstep with
  | @sendIn _ _ b =>
      show (s.blks ++ [b.data]).length = s.srcIdx + 1
      rw [List.length_append, h.length, List.length_singleton]
  | _ => exact h.length

theorem dict_step (h : Values c s) (hstep : Step c s a s') (hblk : s'.srcBlk ≠ none) :
    s'.dict.map Blk.data = dictFor c.opts s'.blks s'.srcIdx := by
  cases hstep with
  | loc hl => exact h.dict (fun hb => hblk (hl.srcBlk.mpr hb))
  | join | synReplyJoin => exact absurd rfl hblk
  | @sendIn _ _ b _ hcaller hb =>
      have hold := h.dict (by rw [hb]; rintro ⟨⟩)
      show (s.nextDict c.opts b).map Blk.data = dictFor c.opts (s.blks ++ [b.data]) (s.srcIdx + 1)
      unfold nextDict
      by_cases hlinked : c.opts.blockLinked = true
      · rw [if_pos hlinked]
        unfold dictFor
        rw [if_pos ⟨hlinked, Nat.succ_pos _⟩, Nat.add_sub_cancel, ← h.length,
          List.getElem?_concat_length, Option.map_some, Option.map_some]
      · rw [if_neg hlinked, hold]
        rw [Bool.not_eq_true] at hlinked
        rw [dictFor_indep hlinked, dictFor_indep hlinked]
  | _ => exact h.dict hblk

theorem src_step (h : Values c s) (hstep : Step c s a s') :
    ∀ t ∈ s'.tasks, ∀ b, t.loc.src = some b → InOk c.opts s'.blks b := by
  cases hstep with
  | @sendIn i k b t hcaller hblk hi hloc hcl =>
      intro t ht
      show ∀ b', t.loc.src = some b' → InOk c.opts (s.blks ++ [b.data]) b'
      rcases List.mem_append.mp ht with ht | ht
      · rcases List.mem_or_eq_of_mem_set ht with ht | rfl
        · exact fun b' hb' => (h.src t ht b' hb').append _
        · intro b' hb'
          -- the block handed over, with the dictionary made of the one before
          have hdict := h.dict (by rw [hblk]; rintro ⟨⟩)
          obtain rfl := Option.some.inj hb'
          refine ⟨?_, ?_⟩
          · show (s.blks ++ [b.data])[s.srcIdx]? = some b.data
            rw [← h.length, List.getElem?_concat_length]
          · show Option.map Blk.data (if c.opts.blockLinked then s.dict else none)
              = dictFor c.opts (s.blks ++ [b.data]) s.srcIdx
            rw [dictFor_append _ (Nat.le_of_eq h.length.symm)]
            by_cases hlinked : c.opts.blockLinked = true
            · rw [if_pos hlinked]
              exact hdict
            · rw [if_neg hlinked]
              rw [Bool.not_eq_true] at hlinked
              rw [dictFor_indep hlinked]
              rfl
      · -- a task that is added has no block yet
        unfold spawned at ht
        split_ifs at ht
        · rw [List.mem_singleton.mp ht]
          rintro _ ⟨⟩
        · cases ht
  | exit | skip | compress | freeAsk | release | sendOut =>
      exact Pool.forall_set h.src (by rintro _ ⟨⟩)
  | freeNow hi hloc | freeSend hi hloc =>
      refine Pool.forall_set h.src (fun b hb => ?_)
      change (afterFree _ _).src = some b at hb
      rw [src_afterFree] at hb
      cases hb
  | _ => exact h.src

theorem cmp_step (h : Values c s) (hstep : Step c s a s') :
    ∀ t ∈ s'.tasks, (c.opts.newCompressorFactory Z).Reach t.cmp := by
  cases hstep with
  | @sendIn i k b t hcaller hblk hi hloc hcl =>
      intro t' ht
      rcases List.mem_append.mp ht with ht | ht
      · refine Pool.forall_set h.cmp ?_ t' ht
        exact h.cmp t (List.mem_of_getElem? hi)
      · unfold spawned at ht
        split_ifs at ht
        · rw [List.mem_singleton.mp ht]
          exact .new
        · cases ht
  | @compress i t b ret cmp hi hloc herr hret =>
      refine Pool.forall_set h.cmp ?_
      have hcmp := compressToBlk_cmp t.cmp b.blk.data c.opts.bsz c.opts.blockChecksum
        (b.dict.map Blk.data)
      rw [hret] at hcmp
      change cmp = _ at hcmp
      show (c.opts.newCompressorFactory Z).Reach cmp
      rw [hcmp]
      exact (h.cmp t (List.mem_of_getElem? hi)).compress _ _ _
  | exit hi | skip hi | freeAsk hi | freeNow hi | freeSend hi | release hi | sendOut hi =>
      have hcmp := h.cmp _ (List.mem_of_getElem? hi)
      exact Pool.forall_set h.cmp hcmp
  | _ => exact h.cmp

theorem encodes_step (h : Values c s) (hstep : Step c s a s') :
    ∀ e ∈ s'.encodes, EncodeOk Z c.opts s'.blks e := by
  cases hstep with
  | sendIn => exact fun e he => (h.encodes e he).append _
  | @compress i t b ret cmp hi hloc herr hret =>
      intro e he
      rcases List.mem_append.mp he with he | he
      · exact h.encodes e he
      · have ht := List.mem_of_getElem? hi
        obtain ⟨hsrc, hdict⟩ := h.src t ht b (by rw [hloc]; rfl)
        rw [List.mem_singleton.mp he]
        refine ⟨hdict, b.blk.data, t.cmp, hsrc, h.cmp t ht, ?_⟩
        rw [hret]
  | _ => exact h.encodes

theorem outs_step (h : Values c s) (hstep : Step c s a s') :
    Outs (OutOk s'.blks s'.encodes) s' := by
  obtain ⟨more, es, hblks, hes⟩ := logs_step hstep
  have hold : Outs (OutOk s'.blks s'.encodes) s := by
    rw [hblks, hes]
    exact h.outs.mono (fun out ho => ho.append more es)
  refine hold.step hstep (fun t ht b ret hsrc hb he => ?_)
  rw [hb, he]
  exact outOk_outOf (h.src t ht b hsrc) s.borrowed ret s.encodes

theorem crashed_step (h : Values c s) (hstep : Step c s a s') :
    ∀ b, s'.loop = .crashed b → b.blk = none := by
  intro b hl
  cases hstep with
  | crash hloop hblk => exact Loop.crashed.inj hl ▸ hblk
  | finish hloop | abort hloop | hashWait hloop =>
      change (if _ then _ else _) = Loop.crashed b at hl
      split_ifs at hl
  | sendOut | synSend | synReply | synReplyJoin | header | headerFail | headerErr | outClosed
  | gotDrop | gotErr | gotWrite
  | gotPark | write | kickDrop | kickErr | kickFail | kickNext | kickLast | setErr | reply | noReply
  | drained | hashDone | trailer | trailerFail | trailerErr | closeSyn => cases hl
  | _ => exact h.crashed b hl

/-- **Every step keeps the values.** -/
theorem Values.step (h : Values c s) (hstep : Step c s a s') : Values c s' :=
  ⟨length_blks_step h hstep, dict_step h hstep, src_step h hstep, cmp_step h hstep,
    encodes_step h hstep, outs_step h hstep, crashed_step h hstep⟩

theorem values_newAsyncWriter (Z : Clz4) (c : WriterCfg) (script : List WCall) :
    Values c (newAsyncWriter Z c.opts script) := by
  refine ⟨rfl, fun _ => ?_, ?_, ?_, ?_, outs_newAsyncWriter _ Z c.opts script, by rintro _ ⟨⟩⟩
  · unfold dictFor
    rw [if_neg (fun h => Nat.lt_irrefl _ h.2)]
    rfl
  · intro t ht
    rw [List.eq_of_mem_replicate ht]
    rintro _ ⟨⟩
  · intro t ht
    rw [List.eq_of_mem_replicate ht]
    exact .new
  · rintro _ ⟨⟩

end AsyncWriter

end Plz4
