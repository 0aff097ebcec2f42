/-
Blocks that come with an error.

The write loop looks at the error of a block that arrives in turn, but not of one that it
finds in the pending map. Where no such block is taken out of the map, the blocks written
are those below the first failed one, and the writer's error is the failed block's, unless
a write or a source failed before.
-/
import Plz4.AsyncWriterSpec
import Plz4.AsyncWriterFuel

set_option autoImplicit false

namespace Plz4

/-- The number of a block that is still to be compressed. -/
def TaskAt.toMake : TaskAt → List ℕ
  | .check b => [b.idx]
  | _ => []

def Task.makes {Z : Clz4} (k : ℕ) (t : Task Z) : ℕ := t.loc.toMake.count k

theorem toMake_afterFree (b : InBlkW) (out : Option OutBlk) :
    (AsyncWriter.afterFree b out).toMake = [] := by
  cases out <;> rfl

namespace AsyncWriter

open Pool (upTo upTo_succ upTo_le_one)

variable {Z : Clz4} {c : WriterCfg} {s s' : AsyncWriter Z} {a : Act} {script₀ : List WCall}

/-! ## A block is compressed once -/

/-- How often block `k` is compressed, or going to be. -/
def makes (s : AsyncWriter Z) (k : ℕ) : ℕ :=
  (s.encodes.map Encode.idx).count k + (s.tasks.map (Task.makes k)).sum

def MadeOnce (s : AsyncWriter Z) : Prop := ∀ k, s.makes k ≤ upTo s.srcIdx k

/-- A task moves on, but to no block that is to be compressed. -/
theorem MadeOnce.move (h : MadeOnce s) {i : ℕ} {t t' : Task Z} (hi : s.tasks[i]? = some t)
    (ht : t'.loc.toMake = []) (hencodes : s'.encodes = s.encodes) (hidx : s'.srcIdx = s.srcIdx)
    (htasks : s'.tasks = s.tasks.set i t') : MadeOnce s' := by
  intro k
  have hk := h k
  have hsum := Pool.sum_set (Task.makes k) hi t'
  have hzero : t'.makes k = 0 := by rw [Task.makes, ht, List.count_nil]
  rw [makes] at hk ⊢
  rw [hencodes, hidx, htasks]
  omega

/-- **Every step keeps this.** -/
theorem MadeOnce.step (h : MadeOnce s) (hstep : Step c s a s') : MadeOnce s' := by
  cases hstep with
  | @sendIn i k' b t hcaller hblk hi hloc hcl =>
      intro k
      have hk := h k
      have hsum := Pool.sum_set (Task.makes k) hi
        { t with loc := .check ⟨s.srcIdx, b, if c.opts.blockLinked then s.dict else none⟩ }
      have hspawned : ((s.spawned c.opts).map (Task.makes k)).sum = 0 := by
        unfold spawned
        split_ifs <;> rfl
      simp only [Task.makes, hloc, TaskAt.toMake, List.count_nil] at hsum
      simp only [makes, sendInStep, List.map_append, List.sum_append, hspawned, upTo_succ] at hk ⊢
      omega
  | @compress i t b ret cmp hi hloc =>
      intro k
      have hk := h k
      have hsum := Pool.sum_set (Task.makes k) hi ⟨.free b (some (outOf b s.borrowed ret)), cmp⟩
      simp only [Task.makes, hloc, TaskAt.toMake, List.count_nil] at hsum
      simp only [makes, List.map_append, List.count_append, List.map_cons, List.map_nil] at hk ⊢
      omega
  | exit hi | skip hi | freeAsk hi | release hi | sendOut hi =>
      exact h.move hi (by rfl) rfl rfl rfl
  | freeNow hi | freeSend hi => exact h.move hi (toMake_afterFree _ _) rfl rfl rfl
  | _ => exact h

theorem madeOnce_newAsyncWriter (Z : Clz4) (o : OptsT) (script : List WCall) :
    MadeOnce (newAsyncWriter Z o script) := by
  intro k
  have hsum : ((newAsyncWriter Z o script).tasks.map (Task.makes k)).sum = 0 := by
    change ((List.replicate _ (newTask Z o)).map (Task.makes k)).sum = 0
    rw [List.map_replicate, List.sum_replicate]
    exact smul_zero _
  rw [makes, hsum]
  exact Nat.zero_le _

/-- Two calls for one block are the same. -/
theorem MadeOnce.unique (h : MadeOnce s) {e e' : Encode} (he : e ∈ s.encodes) (he' : e' ∈ s.encodes)
    (hidx : e.idx = e'.idx) : e = e' := by
  have hnodup : (s.encodes.map Encode.idx).Nodup := by
    rw [List.nodup_iff_count_le_one]
    intro k
    have hk := h k
    have hone := upTo_le_one s.srcIdx k
    rw [makes] at hk
    omega
  exact List.inj_on_of_nodup_map hnodup he he' hidx

/-! ## What grows -/

/-- The log of writes only grows. -/
theorem calls_step (hstep : Step c s a s') : s.calls <+: s'.calls := by
  cases hstep with
  | header hloop hwr | headerFail hloop hwr =>
      obtain ⟨werr, hcalls, -⟩ := writeHeader_spec hwr
      exact ⟨_, hcalls.symm⟩
  | write hloop hblk hwr => exact ⟨_, (wrWrite_spec hwr).1.symm⟩
  | trailer hloop hwr | trailerFail hloop hwr => exact ⟨_, (wrWrite_spec hwr).1.symm⟩
  | _ => exact List.prefix_rfl

theorem failed_step (hstep : Step c s a s') (h : s.Failed) : s'.Failed := by
  obtain ⟨w, hw, herr⟩ := h
  exact ⟨w, (calls_step hstep).subset hw, herr⟩

/-- So does that of the errors of the sources. -/
theorem srcErrs_step (hstep : Step c s a s') {e : Err} (h : e ∈ s.srcErrs) : e ∈ s'.srcErrs := by
  cases hstep with
  | loc hl =>
      cases hl with
      | readFail => exact List.mem_append_left _ h
      | _ => exact h
  | _ => exact h

theorem nextIdx_step (hstep : Step c s a s') : s.nextIdx ≤ s'.nextIdx := by
  cases hstep with
  | kickFail | kickNext | kickLast => exact Nat.le_succ _
  | _ => exact le_rfl

/-- Blocks reach the write loop one by one. -/
theorem arrived_step (hstep : Step c s a s') :
    s'.arrived = s.arrived ∨ ∃ t ∈ s.tasks, ∃ b, t.loc = .send b ∧ s.loop = .select
      ∧ s'.loop = .got b ∧ s'.arrived = s.arrived ++ [b] := by
  cases hstep with
  | sendOut hi hloc hloop => exact .inr ⟨_, List.mem_of_getElem? hi, _, hloc, hloop, rfl, rfl⟩
  | _ => exact .inl rfl

/-- The write loop counts a block once it is written. -/
theorem wrote_step (hstep : Step c s a s') :
    s'.wrote = s.wrote ∨ ∃ b, s.loop = .write b ∧ s'.wrote = s.wrote + 1 := by
  have hkick : ∀ {p : Prop} [Decidable p] {x y : Loop} {b w}, x ≠ .kick b (.wrote w) →
      y ≠ .kick b (.wrote w) → (if p then x else y) ≠ .kick b (.wrote w) := by
    intro p _ x y b w hx hy
    split_ifs
    · exact hx
    · exact hy
  cases hstep with
  | write hloop =>
      have hw : s.wrote = s.nextIdx := wrote_of_not (by rw [hloop]; rintro _ _ ⟨⟩)
      refine .inr ⟨_, hloop, ?_⟩
      rw [hw]
      rfl
  | kickFail hloop | kickNext hloop | kickLast hloop =>
      refine .inl ?_
      unfold wrote
      rw [hloop]
  | finish hloop | abort hloop | hashWait hloop =>
      exact .inl (wrote_same (by rw [hloop]; rintro _ _ ⟨⟩)
        (fun b w => hkick (by rintro ⟨⟩) (by rintro ⟨⟩)) rfl)
  | sendOut _ _ hloop | synSend _ hloop | synReply _ hloop | synReplyJoin _ hloop
  | header hloop | headerFail hloop | headerErr hloop
  | outClosed hloop | gotDrop hloop | gotErr hloop | gotWrite hloop | gotPark hloop | crash hloop
  | kickDrop hloop | kickErr hloop | setErr hloop | reply hloop | noReply hloop | drained hloop
  | hashDone hloop | trailer hloop | trailerFail hloop | trailerErr hloop | closeSyn hloop =>
      exact .inl (wrote_same (by rw [hloop]; rintro _ _ ⟨⟩) (by rintro _ _ ⟨⟩) rfl)
  | _ => exact .inl rfl

/-! ## Where an error comes from -/

/-- The next block in the pending map, if the write loop is going to take it out, has no
error. -/
def Checked (s : AsyncWriter Z) : Prop :=
  ∀ b, s.loop = .kick b (.wrote none) → ∀ b' ∈ s.pending, b'.idx = s.nextIdx + 1 → b'.err = none

/-- Why the writer has the error `e`: a block has it, up to which all are written; or a write
or a source failed before; or the writer is closed, and no block came with an error. -/
def Caused (s : AsyncWriter Z) (e : Err) : Prop :=
  (∃ b ∈ s.arrived, b.err = some e ∧ b.idx ≤ s.nextIdx) ∨ s.Failed ∨ e ∈ s.srcErrs
    ∨ s.loop = .done ∧ ∀ b ∈ s.arrived, b.err = none

structure Blames (s : AsyncWriter Z) : Prop where
  arrived : ∀ b ∈ s.arrived, OutOk s.blks s.encodes b
  got : ∀ b, s.loop = .got b → b ∈ s.arrived
  write : ∀ b, s.loop = .write b → b.err = none
  crashed : ∀ b, s.loop = .crashed b → b.err = none
  below : ∀ b ∈ s.arrived, b.err ≠ none → s.wrote ≤ b.idx
  kickErr : ∀ b e, s.loop = .kick b (.err e) → b ∈ s.arrived ∧ b.err = some e ∧ b.idx = s.nextIdx
  kickFail : ∀ b e, s.loop = .kick b (.wrote (some e)) → s.Failed
  setErr : ∀ e k, s.loop = .setErr e k → s.Caused e
  err : ∀ e, s.err = some e → s.Caused e
  raised : ∀ e n, s.caller = .readErr e n → e ∈ s.srcErrs

theorem Caused.step {e : Err} (h : s.Caused e) (hstep : Step c s a s') :
    s'.Caused e := by
  rcases h with ⟨b, hb, herr, hidx⟩ | hf | hb | ⟨hdone, hnone⟩
  · refine .inl ⟨b, ?_, herr, hidx.trans (nextIdx_step hstep)⟩
    rcases arrived_step hstep with heq | ⟨_, _, b', _, _, _, heq⟩
    · rw [heq]
      exact hb
    · rw [heq]
      exact List.mem_append_left _ hb
  · exact .inr (.inl (failed_step hstep hf))
  · exact .inr (.inr (.inl (srcErrs_step hstep hb)))
  · refine .inr (.inr (.inr ⟨?_, ?_⟩))
    · cases hstep with
      | sendOut _ _ hloop | synSend _ hloop | synReply _ hloop | synReplyJoin _ hloop
      | header hloop | headerFail hloop | headerErr hloop
      | outClosed hloop | gotDrop hloop | gotErr hloop | gotWrite hloop | gotPark hloop
      | write hloop
      | crash hloop | kickDrop hloop | kickErr hloop | kickFail hloop | kickNext hloop
      | kickLast hloop
      | setErr hloop | reply hloop | noReply hloop | drainKick hloop | drained hloop | finish hloop
      | abort hloop | hashDone hloop | hashWait hloop | trailer hloop | trailerFail hloop
      | trailerErr hloop | closeSyn hloop =>
          exact absurd (hdone.symm.trans hloop) (by rintro ⟨⟩)
      | _ => exact hdone
    · rcases arrived_step hstep with heq | ⟨_, _, b', _, hloop, _, _⟩
      · rw [heq]
        exact hnone
      · rw [hdone] at hloop
        cases hloop

/-! ## One step -/

/-- A block in the hand of the write loop, and what `CompressToBlk` returned for it. -/
theorem OutOk.unique (hm : MadeOnce s) {b b' : OutBlk} (hb : OutOk s.blks s.encodes b)
    (hb' : OutOk s.blks s.encodes b') (hidx : b.idx = b'.idx) : b.err = b'.err := by
  obtain ⟨e, he, hbe, -, hret⟩ := hb
  obtain ⟨e', he', hbe', -, hret'⟩ := hb'
  obtain rfl := hm.unique he he' (by omega)
  rcases hr : e.ret with x | data
  · rw [hr] at hret hret'
    exact hret.1.trans hret'.1.symm
  · rw [hr] at hret hret'
    exact hret.1.trans hret'.1.symm

/-- A block without an error has data. -/
theorem OutOk.blk_of_err {b : OutBlk} (hb : OutOk s.blks s.encodes b) (herr : b.err = none) :
    b.blk ≠ none := by
  obtain ⟨e, -, -, -, hret⟩ := hb
  rcases hr : e.ret with x | data
  · rw [hr] at hret
    rw [hret.1] at herr
    cases herr
  · rw [hr] at hret
    intro hnone
    rw [hnone] at hret
    cases hret.2

/-- A block with an error has none. -/
theorem OutOk.blk_of_ne {b : OutBlk} (hb : OutOk s.blks s.encodes b) (herr : b.err ≠ none) :
    b.blk = none := by
  obtain ⟨e, -, -, -, hret⟩ := hb
  rcases hr : e.ret with x | data
  · rw [hr] at hret
    exact hret.2
  · rw [hr] at hret
    exact absurd hret.1 herr

theorem arrived_blames (h : Blames s) (hs' : Sound c s') (hstep : Step c s a s') :
    ∀ b ∈ s'.arrived, OutOk s'.blks s'.encodes b := by
  obtain ⟨more, es, hmore, hes⟩ := logs_step hstep
  have hold : ∀ b ∈ s.arrived, OutOk s'.blks s'.encodes b := by
    intro b hb
    rw [hmore, hes]
    exact (h.arrived b hb).append more es
  rcases arrived_step hstep with heq | ⟨_, _, b', _, _, hgot, heq⟩
  · rw [heq]
    exact hold
  · rw [heq]
    intro b hb
    rcases List.mem_append.mp hb with hb | hb
    · exact hold b hb
    · rw [List.mem_singleton.mp hb]
      exact hs'.values.outs.loop b' (by rw [hgot]; rfl)

theorem below_blames (h : Blames s) (hs : Sound c s) (hm : MadeOnce s)
    (hstep : Step c s a s') : ∀ b ∈ s'.arrived, b.err ≠ none → s'.wrote ≤ b.idx := by
  intro b hb herr
  rcases wrote_step hstep with hw | ⟨b', hloop, hw⟩
  · rw [hw]
    rcases arrived_step hstep with heq | ⟨t, ht, b', hloc, hloop, _, heq⟩
    · rw [heq] at hb
      exact h.below b hb herr
    · rw [heq] at hb
      rcases List.mem_append.mp hb with hb | hb
      · exact h.below b hb herr
      · -- a block still on its way is not yet written
        obtain rfl := List.mem_singleton.mp hb
        obtain ⟨-, hrel⟩ := hs.places.task ht (k := b.idx) (by rw [hloc]; rfl)
        rw [wrote_of_not (by rw [hloop]; rintro _ _ ⟨⟩)]
        by_contra hlt
        exact hrel (hs.order.below b.idx (by omega))
  · rw [hw]
    rcases arrived_step hstep with heq | ⟨_, _, _, _, hselect, _, _⟩
    · rw [heq] at hb
      have hle := h.below b hb herr
      have hnext : s.wrote = b'.idx := by
        rw [wrote_of_not (by rw [hloop]; rintro _ _ ⟨⟩)]
        exact (hs.order.current b' (by rw [hloop]; rfl)).symm
      -- the block written came without an error, so it is another one
      have hne : b.idx ≠ b'.idx := by
        intro hidx
        have hsame := OutOk.unique hm (h.arrived b hb)
          (hs.values.outs.loop b' (by rw [hloop]; rfl)) hidx
        rw [h.write b' hloop] at hsame
        exact herr hsame
      omega
    · rw [hloop] at hselect
      cases hselect

theorem got_blames (h : Blames s) (hstep : Step c s a s') :
    ∀ b, s'.loop = .got b → b ∈ s'.arrived := by
  intro b hb
  cases hstep with
  | sendOut =>
      obtain rfl := Loop.got.inj hb
      exact List.mem_concat_self
  | finish | abort | hashWait =>
      change (if _ then _ else _) = Loop.got b at hb
      split_ifs at hb
  | drainKick hloop =>
      change s.loop = .got b at hb
      rw [hloop] at hb
      cases hb
  | synSend | synReply | synReplyJoin | header | headerFail | headerErr | outClosed | gotDrop
  | gotErr | gotWrite | gotPark
  | write | crash | kickDrop | kickErr | kickFail | kickNext | kickLast | setErr | reply | noReply
  | drained | hashDone | trailer | trailerFail | trailerErr | closeSyn => cases hb
  | _ => exact h.got b hb

theorem write_blames (h : Blames s) (hc : Checked s) (hstep : Step c s a s') :
    ∀ b, s'.loop = .write b → b.err = none := by
  intro b hb
  cases hstep with
  | gotWrite _ _ _ he =>
      obtain rfl := Loop.write.inj hb
      exact he
  | kickNext hloop _ hmem hidx =>
      obtain rfl := Loop.write.inj hb
      exact hc _ hloop _ hmem hidx
  | finish | abort | hashWait =>
      change (if _ then _ else _) = Loop.write b at hb
      split_ifs at hb
  | drainKick hloop =>
      change s.loop = .write b at hb
      rw [hloop] at hb
      cases hb
  | sendOut | synSend | synReply | synReplyJoin | header | headerFail | headerErr | outClosed
  | gotDrop | gotErr | gotPark
  | write | crash | kickDrop | kickErr | kickFail | kickLast | setErr | reply | noReply
  | drained | hashDone | trailer | trailerFail | trailerErr | closeSyn => cases hb
  | _ => exact h.write b hb

theorem crashed_blames (h : Blames s) (hstep : Step c s a s') :
    ∀ b, s'.loop = .crashed b → b.err = none := by
  intro b hb
  cases hstep with
  | crash hloop =>
      obtain rfl := Loop.crashed.inj hb
      exact h.write _ hloop
  | finish | abort | hashWait =>
      change (if _ then _ else _) = Loop.crashed b at hb
      split_ifs at hb
  | drainKick hloop =>
      change s.loop = .crashed b at hb
      rw [hloop] at hb
      cases hb
  | sendOut | synSend | synReply | synReplyJoin | header | headerFail | headerErr | outClosed
  | gotDrop | gotErr | gotWrite
  | gotPark | write | kickDrop | kickErr | kickFail | kickNext | kickLast | setErr | reply | noReply
  | drained | hashDone | trailer | trailerFail | trailerErr | closeSyn => cases hb
  | _ => exact h.crashed b hb

theorem kickErr_blames (h : Blames s) (hstep : Step c s a s') :
    ∀ b e, s'.loop = .kick b (.err e) → b ∈ s'.arrived ∧ b.err = some e ∧ b.idx = s'.nextIdx := by
  intro b e hb
  cases hstep with
  | gotErr hloop _ hidx he =>
      simp only [Loop.kick.injEq, Kick.err.injEq] at hb
      obtain ⟨rfl, rfl⟩ := hb
      exact ⟨h.got _ hloop, he, hidx⟩
  | finish | abort | hashWait =>
      change (if _ then _ else _) = Loop.kick b (.err e) at hb
      split_ifs at hb
  | drainKick hloop =>
      change s.loop = .kick b (.err e) at hb
      rw [hloop] at hb
      cases hb
  | sendOut | synSend | synReply | synReplyJoin | header | headerFail | headerErr | outClosed
  | gotDrop | gotWrite | gotPark
  | write | crash | kickDrop | kickErr | kickFail | kickNext | kickLast | setErr | reply | noReply
  | drained | hashDone | trailer | trailerFail | trailerErr | closeSyn => cases hb
  | _ => exact h.kickErr b e hb

theorem kickFail_blames (h : Blames s) (hstep : Step c s a s') :
    ∀ b e, s'.loop = .kick b (.wrote (some e)) → s'.Failed := by
  intro b e hb
  cases hstep with
  | write hloop hblk hwr =>
      simp only [Loop.kick.injEq, Kick.wrote.injEq] at hb
      obtain ⟨-, rfl⟩ := hb
      exact ⟨_, by rw [(wrWrite_spec hwr).1]; exact List.mem_concat_self, by rintro ⟨⟩⟩
  | finish | abort | hashWait =>
      change (if _ then _ else _) = Loop.kick b (.wrote (some e)) at hb
      split_ifs at hb
  | drainKick hloop =>
      change s.loop = .kick b (.wrote (some e)) at hb
      rw [hloop] at hb
      cases hb
  | sendOut | synSend | synReply | synReplyJoin | header | headerFail | headerErr | outClosed
  | gotDrop | gotErr | gotWrite
  | gotPark | crash | kickDrop | kickErr | kickFail | kickNext | kickLast | setErr | reply | noReply
  | drained | hashDone | trailer | trailerFail | trailerErr | closeSyn => cases hb
  | _ => exact h.kickFail b e hb

/-- In a state without an error everything that arrives without one is written. -/
theorem Sound.err_of_done (hs : Sound c s) (h : Blames s) (hloop : s.loop = .done)
    {b : OutBlk} (hb : b ∈ s.arrived) (herr : b.err ≠ none) : s.err ≠ none := by
  intro hnone
  have hl : Live s := ⟨hnone, by rw [hloop]; rintro e k ⟨⟩⟩
  have hquiet : Quiet s := by
    refine ⟨fun t ht => ?_, by rw [hloop]; rfl⟩
    rw [hs.phases.tasks (hs.phases.loop (by rw [hloop]; rfl)) t ht]
    rfl
  obtain ⟨hnext, -⟩ := hs.order.settled hs.places hl hquiet
  have hle := h.below b hb herr
  have hlt := (h.arrived b hb).lt
  rw [wrote_of_not (by rw [hloop]; rintro _ _ ⟨⟩)] at hle
  rw [hs.values.length] at hlt
  omega

/-- `Close` of a writer without an error: no block came with one. -/
theorem closed_caused (hs : Sound c s) (h : Blames s) (hloop : s.loop = .done)
    (hnone : s.err = none) (e : Err) : s.Caused e := by
  refine .inr (.inr (.inr ⟨hloop, fun b hb => ?_⟩))
  by_contra herr
  exact hs.err_of_done h hloop hb herr hnone

theorem setErr_blames (h : Blames s) (hstep : Step c s a s') :
    ∀ e k, s'.loop = .setErr e k → s'.Caused e := by
  intro e k he
  cases hstep with
  | headerFail hloop hwr =>
      obtain ⟨werr, hcalls, -, hnone⟩ := writeHeader_spec hwr
      refine .inr (.inl ⟨_, by rw [hcalls]; exact List.mem_concat_self, fun hn => ?_⟩)
      cases hnone.mpr hn
  | trailerFail hloop hwr =>
      exact .inr (.inl ⟨_, by rw [(wrWrite_spec hwr).1]; exact List.mem_concat_self, by rintro ⟨⟩⟩)
  | kickErr hloop =>
      obtain ⟨rfl, -⟩ := Loop.setErr.inj he
      obtain ⟨hb, herr, hidx⟩ := h.kickErr _ _ hloop
      exact .inl ⟨_, hb, herr, hidx.le⟩
  | kickFail hloop => exact .inr (.inl (h.kickFail _ _ hloop))
  | finish | abort | hashWait =>
      change (if _ then _ else _) = Loop.setErr e k at he
      split_ifs at he
  | drainKick hloop =>
      change s.loop = .setErr e k at he
      rw [hloop] at he
      cases he
  | loc hl => exact (h.setErr e k he).step (.loc hl)
  | sendOut | synSend | synReply | synReplyJoin | header | headerErr | outClosed | gotDrop | gotErr
  | gotWrite | gotPark | write | crash | kickDrop | kickNext | kickLast | setErr | reply | noReply
  | drained | hashDone | trailer | trailerErr | closeSyn => cases he
  | _ => exact h.setErr e k he

/-- The error that stays or the one that is set. -/
theorem or_cases {x y : Option Err} {e : Err} (h : x.or y = some e) :
    x = some e ∨ x = none ∧ y = some e := by
  rcases x with _ | x
  · exact .inr ⟨rfl, h⟩
  · exact .inl h

theorem err_blames (h : Blames s) (hs : Sound c s) (hstep : Step c s a s') :
    ∀ e, s'.err = some e → s'.Caused e := by
  intro e he
  have hstep' := hstep
  by_cases hsame : s.err = some e
  · exact (h.err e hsame).step hstep'
  cases hstep with
  -- a new error is that of a source, of a write or of a block
  | readErr hcaller =>
      rcases or_cases he with hold | ⟨-, hnew⟩
      · exact absurd hold hsame
      · obtain rfl := Option.some.inj hnew
        exact .inr (.inr (.inl (h.raised _ _ hcaller)))
  | headerErr hloop | setErr hloop | trailerErr hloop =>
      rcases or_cases he with hold | ⟨-, hnew⟩
      · exact absurd hold hsame
      · obtain rfl := Option.some.inj hnew
        exact (h.setErr _ _ hloop).step hstep'
  | join hcaller hsyn =>
      -- `Close` sets `errClosed` only where no error is
      change (if s.report then s.err else s.err.or _) = some e at he
      split_ifs at he
      · exact absurd he hsame
      · rcases or_cases he with hold | ⟨hnone, -⟩
        · exact absurd hold hsame
        · exact (closed_caused hs h (hs.phases.syn.mp hsyn) hnone e).step hstep'
  | synReplyJoin hcaller hloop =>
      have hwait := hs.phases.replies hloop
      rw [hcaller] at hwait
      cases hwait
  | _ => exact absurd he hsame

/-- `ReadFrom` is about to set the error its source gave. -/
theorem raised_step (h : ∀ e n, s.caller = .readErr e n → e ∈ s.srcErrs) (hstep : Step c s a s') :
    ∀ e n, s'.caller = .readErr e n → e ∈ s'.srcErrs := by
  intro e n he
  cases hstep with
  | loc hl =>
      cases hl with
      | readFail =>
          obtain ⟨rfl, -⟩ := Caller.readErr.inj he
          exact List.mem_concat_self
      | flushBlk | closeBlk | writeFull | readFull =>
          change s.flushAt _ = Caller.readErr e n at he
          unfold flushAt at he
          split_ifs at he
      | _ => cases he
  | @sendIn _ k =>
      change resumeAt k = Caller.readErr e n at he
      rcases k with _ | _ | _ | _ <;> cases he
  | readErr | queue | acquire | closeSem | closeIn | wgWait | recvClosed | join | synSend | synReply
  | synReplyJoin => cases he
  | _ => exact h e n he

/-- **Every step keeps this** where the write loop takes no block with an error out of the
pending map. -/
theorem Blames.step (h : Blames s) (hs : Sound c s) (hm : MadeOnce s) (hc : Checked s)
    (hstep : Step c s a s') : Blames s' where
  arrived := arrived_blames h (hs.step hstep) hstep
  got := got_blames h hstep
  write := write_blames h hc hstep
  crashed := crashed_blames h hstep
  below := below_blames h hs hm hstep
  kickErr := kickErr_blames h hstep
  kickFail := kickFail_blames h hstep
  setErr := setErr_blames h hstep
  err := err_blames h hs hstep
  raised := raised_step h.raised hstep

theorem blames_newAsyncWriter (Z : Clz4) (o : OptsT) (script : List WCall) :
    Blames (newAsyncWriter Z o script) := by
  refine ⟨?_, ?_, ?_, ?_, ?_, ?_, ?_, ?_, ?_, ?_⟩
  · rintro b ⟨⟩
  · rintro b ⟨⟩
  · rintro b ⟨⟩
  · rintro b ⟨⟩
  · rintro b ⟨⟩
  · rintro b e ⟨⟩
  · rintro b e ⟨⟩
  · rintro e k ⟨⟩
  · rintro e ⟨⟩
  · rintro e n ⟨⟩

/-! ## Whole runs -/

/-- The write loop finds no block with an error in the pending map, in any state the run goes
through. -/
def CheckedAlong (c : WriterCfg) (s : AsyncWriter Z) (as : List Act) : Prop :=
  ∀ pre t, pre <+: as → Machine.run (step c) s pre = some t → t.Checked

theorem checkedAlong_cons (s : AsyncWriter Z) (a : Act) (as : List Act) :
    CheckedAlong c s (a :: as) ↔ s.Checked ∧ ∀ s' ∈ step c s a, CheckedAlong c s' as := by
  constructor
  · intro h
    refine ⟨h [] s (List.nil_prefix) rfl, fun s' hs' pre t hpre ht => ?_⟩
    exact h (a :: pre) t (List.cons_prefix_cons.mpr ⟨rfl, hpre⟩)
      (Machine.run_cons_eq_some.mpr ⟨s', hs', ht⟩)
  · rintro ⟨hs, h⟩ pre t hpre ht
    rcases pre with _ | ⟨a', pre⟩
    · exact Option.some.inj ht ▸ hs
    · obtain ⟨rfl, hrest⟩ := List.cons_prefix_cons.mp hpre
      obtain ⟨s', hs', ht⟩ := Machine.run_cons_eq_some.mp ht
      exact h s' hs' pre t hrest ht

theorem checkedAlong_nil (s : AsyncWriter Z) : CheckedAlong c s [] ↔ s.Checked := by
  constructor
  · intro h
    exact h [] s List.prefix_rfl rfl
  · intro hs pre t hpre ht
    rw [List.prefix_nil.mp hpre] at ht
    exact Option.some.inj ht ▸ hs

instance decidableChecked (s : AsyncWriter Z) : Decidable s.Checked :=
  match hloop : s.loop with
  | .kick _ (.wrote none) =>
      decidable_of_iff (∀ b' ∈ s.pending, b'.idx = s.nextIdx + 1 → b'.err = none)
        ⟨fun h _ _ => h, fun h => h _ hloop⟩
  | .kick _ (.wrote (some _)) | .kick _ .drop | .kick _ (.err _) | .header | .select | .got _
  | .write _ | .setErr _ _ | .reply | .synSend | .drain | .finish | .hashDone _ | .hashWait _
  | .trailer _ | .closeSyn | .done | .crashed _ =>
      isTrue (fun b hb => absurd (hloop.symm.trans hb) (by rintro ⟨⟩))

instance decidableCheckedAlong (c : WriterCfg) :
    (s : AsyncWriter Z) → (as : List Act) → Decidable (CheckedAlong c s as)
  | s, [] => decidable_of_iff _ (checkedAlong_nil s).symm
  | s, a :: as =>
      have := fun s' => decidableCheckedAlong c s' as
      decidable_of_iff _ (checkedAlong_cons s a as).symm

theorem madeOnce_run {script : List WCall} {as : List Act}
    (hrun : Machine.run (step c) (newAsyncWriter Z c.opts script) as = some s) : MadeOnce s :=
  Machine.invariant_run (fun _ _ _ h hstep => h.step (step_spec hstep))
    (madeOnce_newAsyncWriter Z c.opts script) hrun

theorem blames_run {script : List WCall} (hpar : 0 < c.opts.nParallel) {as : List Act}
    (hrun : Machine.run (step c) (newAsyncWriter Z c.opts script) as = some s)
    (hchecked : CheckedAlong c (newAsyncWriter Z c.opts script) as) : Blames s := by
  have hinv := Machine.invariant_run_along (I := fun s => Sound c s ∧ MadeOnce s ∧ Blames s) ?_
    hchecked ⟨sound_newAsyncWriter Z c script hpar, madeOnce_newAsyncWriter Z c.opts script,
      blames_newAsyncWriter Z c.opts script⟩ hrun
  · exact hinv.2.2
  · rintro s a s' hc ⟨hs, hm, h⟩ hstep
    have hst := step_spec hstep
    exact ⟨hs.step hst, hm.step hst, h.step hs hm hc hst⟩

/-- The sources that have failed are sources of the script. -/
theorem srcErrs_run {script : List WCall} {as : List Act}
    (hrun : Machine.run (step c) (newAsyncWriter Z c.opts script) as = some s) {e : Err}
    (he : e ∈ s.srcErrs) :
    ∃ r, WCall.readFrom r ∈ script ∧ r.err = e ∧ e ≠ .eof ∧ e ≠ .unexpectedEOF := by
  have hsrc := Machine.invariant_run
    (I := Sources (fun e => ∃ r, WCall.readFrom r ∈ script ∧ r.err = e))
    (fun _ _ _ h hstep => h.step (step_spec hstep))
    (sources_newAsyncWriter Z c.opts (fun r hr => ⟨r, hr, rfl⟩)) hrun
  obtain ⟨⟨r, hr, herr⟩, hne⟩ := hsrc.failed e he
  exact ⟨r, hr, herr, hne⟩

/-- Where the condition fails, the write loop dereferences a nil block two steps later. -/
theorem Sound.crash (hs : Sound c s) (hm : MadeOnce s) (h : ¬ s.Checked) :
    ∃ s', Machine.run (AsyncWriter.step c) s [.loop, .loop] = some s' ∧ ∃ b, s'.loop = .crashed b := by
  unfold Checked at h
  push Not at h
  obtain ⟨b, hloop, b', hb', hidx, herr⟩ := h
  have hsem : 0 < s.sem := hs.places.sem_pos_loop (by rw [hloop]; rfl)
  -- the block that is found may be another of that number, but it has the same error
  obtain ⟨b₁, hfind⟩ : ∃ b₁, s.pending.find? (fun x => x.idx = s.nextIdx + 1) = some b₁ :=
    Option.isSome_iff_exists.mp (List.find?_isSome.mpr ⟨b', hb', by simpa using hidx⟩)
  have hb₁ : b₁ ∈ s.pending := List.mem_of_find?_eq_some hfind
  have hidx₁ : b₁.idx = s.nextIdx + 1 := by simpa using List.find?_some hfind
  have hout := hs.values.outs.pending b₁ hb₁
  have herr₁ : b₁.err ≠ none := by
    rw [hout.unique hm (hs.values.outs.pending b' hb') (by omega)]
    exact herr
  have hkick : AsyncWriter.step c s .loop = some { s.kickBlock b with
      nextIdx := s.nextIdx + 1
      loop := .write b₁
      pending := s.pending.eraseP (fun x => x.idx = s.nextIdx + 1) } := by
    simp only [AsyncWriter.step, loopStep, hloop, hsem, true_or, if_true, kicked, kickBlock,
      nextPending, hfind]
  refine ⟨{ s.kickBlock b with
      nextIdx := s.nextIdx + 1
      loop := .crashed b₁
      pending := s.pending.eraseP (fun x => x.idx = s.nextIdx + 1) }, ?_, b₁, rfl⟩
  rw [Machine.run_cons, hkick, Option.bind_some]
  simp only [Machine.run_cons, Machine.run_nil, AsyncWriter.step, loopStep, writeBlk,
    hout.blk_of_ne herr₁, Option.bind_some]

/-- A writer that has a failed block: the error is that of the first. -/
theorem Blames.first (h : Blames s) (hs : Sound c s) (hloop : s.loop = .done)
    {b : OutBlk} (hb : b ∈ s.arrived) (herr : b.err ≠ none) :
    (∃ b₀ ∈ s.arrived, b₀.err ≠ none ∧ s.err = b₀.err
        ∧ ∀ b' ∈ s.arrived, b'.err ≠ none → b₀.idx ≤ b'.idx)
      ∨ s.Failed ∨ ∃ e ∈ s.srcErrs, s.err = some e := by
  obtain ⟨e, he⟩ := Option.ne_none_iff_exists'.mp (hs.err_of_done h hloop hb herr)
  rcases h.err e he with ⟨b₀, hb₀, herr₀, hidx⟩ | hf | hbr | ⟨-, hnone⟩
  · refine .inl ⟨b₀, hb₀, by rw [herr₀]; rintro ⟨⟩, by rw [he, herr₀], fun b' hb' herr' => ?_⟩
    have hle := h.below b' hb' herr'
    rw [wrote_of_not (by rw [hloop]; rintro _ _ ⟨⟩)] at hle
    omega
  · exact .inr (.inl hf)
  · exact .inr (.inr ⟨e, hbr, he⟩)
  · exact absurd (hnone b hb) herr

end AsyncWriter

open AsyncWriter in
/-- **Failed blocks.** As long as the write loop finds none of them in the pending map, it
dereferences no nil block and writes none that came with an error, the blocks written are
in order and below the first failed one, and at its exit the writer has the error of that
one, unless a write has failed or a source has given `ReadFrom` its error. Where it finds
one, it crashes. -/
theorem failed_blocks (Z : Clz4) (c : WriterCfg) (hpar : 0 < c.opts.nParallel)
    (script : List WCall) {as : List Act} {s : AsyncWriter Z}
    (hrun : Machine.run (step c) (newAsyncWriter Z c.opts script) as = some s) :
    (CheckedAlong c (newAsyncWriter Z c.opts script) as →
      (∀ b, s.loop ≠ .crashed b) ∧ (∀ b, s.loop = .write b → b.err = none ∧ b.blk ≠ none)
      ∧ (s.calls = [] ∨ ∃ es tail, s.calls.map WrCall.arg = headerBytes c.opts :: (es ++ tail)
          ∧ (tail = [] ∨ s.loop.ended = true ∧ tail = [trailerBytes (contentHash c.opts s.blks)])
          ∧ (∀ k d, es[k]? = some d → ∃ e ∈ s.encodes, e.idx = k ∧ e.ret = .ok d)
          ∧ ∀ b ∈ s.arrived, b.err ≠ none → es.length ≤ b.idx)
      ∧ (s.loop = .done → ∀ b ∈ s.arrived, b.err ≠ none →
          (∃ b₀ ∈ s.arrived, b₀.err ≠ none ∧ s.err = b₀.err
              ∧ ∀ b' ∈ s.arrived, b'.err ≠ none → b₀.idx ≤ b'.idx)
            ∨ (∃ w ∈ s.calls, w.err ≠ none)
            ∨ ∃ r, WCall.readFrom r ∈ script ∧ r.err ≠ .eof ∧ r.err ≠ .unexpectedEOF
                ∧ r.err ∈ s.srcErrs ∧ s.err = some r.err))
    ∧ (¬ s.Checked →
        ∃ s', Machine.run (step c) s [.loop, .loop] = some s' ∧ ∃ b, s'.loop = .crashed b) := by
  have hs := sound_run hpar hrun
  refine ⟨fun hchecked => ?_, hs.crash (madeOnce_run hrun)⟩
  have h := blames_run hpar hrun hchecked
  have hblk : ∀ b, s.loop.out = some b → b.err = none → b.blk ≠ none :=
    fun b hout herr => (hs.values.outs.loop b hout).blk_of_err herr
  refine ⟨fun b hloop => ?_, fun b hloop => ?_, ?_, fun hloop b hb herr => ?_⟩
  · exact hblk b (by rw [hloop]; rfl) (h.crashed b hloop) (hs.values.crashed b hloop)
  · exact ⟨h.write b hloop, hblk b (by rw [hloop]; rfl) (h.write b hloop)⟩
  · -- before the header there are no writes at all
    by_cases hheader : s.loop = .header
    · exact .inl (hs.written.header hheader).1
    · obtain ⟨es, tail, hw⟩ := hs.written.wrote hheader
      refine .inr ⟨es, tail, hw.calls, ?_, hw.enc, fun b hb herr => ?_⟩
      · rcases hend : s.loop.ended with _ | _
        · exact .inl (hw.tail_open hend)
        · exact (hw.tail_ended hend).symm.imp And.left (fun htail => ⟨rfl, htail⟩)
      · rw [hw.length]
        exact h.below b hb herr
  · rcases h.first hs hloop hb herr with hfirst | hfailed | ⟨e, hmem, he⟩
    · exact .inl hfirst
    · exact .inr (.inl hfailed)
    · obtain ⟨r, hr, rfl, heof, hshort⟩ := srcErrs_run hrun hmem
      exact .inr (.inr ⟨r, hr, heof, hshort, hmem, he⟩)

/-! ## Two runs -/

/-- Linked blocks at level 2 with two tasks. -/
def OptsT.linkedTwo : OptsT :=
  { OptsT.linked64KB with contentChecksum := false, nParallel := 2 }

open AsyncWriter in
/-- The one block fails, which the write loop sees as it arrives, before the caller closes. -/
def oneFailed : List Act :=
  [.loop, .caller, .caller, .caller, .caller, .caller, .sendIn 0, .task 0, .task 0, .sendOut 0,
    .loop, .loop, .loop, .loop, .caller, .caller, .task 0, .task 1, .caller, .loop, .loop, .loop,
    .loop]

open AsyncWriter in
theorem failed_blocks_one :
    ∃ s : AsyncWriter litEngine,
      Machine.run (step ⟨.linkedTwo, .ok⟩)
          (newAsyncWriter litEngine .linkedTwo [.write (List.replicate 13 7), .close]) oneFailed
        = some s
      ∧ s.loop = .done ∧ ∃ b₀ ∈ s.arrived, b₀.err ≠ none ∧ s.err = b₀.err := by
  have hend : (Machine.run (step ⟨.linkedTwo, .ok⟩)
      (newAsyncWriter litEngine .linkedTwo [.write (List.replicate 13 7), .close]) oneFailed).map
        (fun s => (s.loop, s.arrived.map OutBlk.err, s.calls.map WrCall.err))
      = some (.done, [some .lz4Compress], [none]) := by decide +kernel
  obtain ⟨s, hs, hlast⟩ := Option.map_eq_some_iff.mp hend
  simp only [Prod.mk.injEq] at hlast
  obtain ⟨hloop, harrived, hcalls⟩ := hlast
  obtain ⟨b, hb, herr⟩ := List.mem_map.mp (show some .lz4Compress ∈ s.arrived.map OutBlk.err by
    rw [harrived]; exact List.mem_cons_self)
  have hchecked : CheckedAlong ⟨.linkedTwo, .ok⟩
      (newAsyncWriter litEngine .linkedTwo [.write (List.replicate 13 7), .close]) oneFailed := by
    decide +kernel
  refine ⟨s, hs, hloop, ?_⟩
  rcases ((failed_blocks litEngine ⟨.linkedTwo, .ok⟩ (by decide) _ hs).1 hchecked).2.2.2 hloop b hb
    (by rw [herr]; rintro ⟨⟩) with ⟨b₀, hb₀, herr₀, heq, -⟩ | ⟨w, hw, hne⟩ | ⟨r, hr, -⟩
  · exact ⟨b₀, hb₀, herr₀, heq⟩
  · exact absurd (List.mem_map_of_mem hw) (by rw [hcalls]; simpa using hne)
  · simp at hr

open LittleEndian Xxh32

/-- A block of one repeated byte as LZ4 encodes it: the byte, a match at distance one, and
the last five bytes as literals. -/
def matchEncode (source : Bytes) (dstCap : ℕ) : Bytes :=
  match source with
  | [] => []
  | b :: rest =>
      let more := source.length - 25
      let out := [0x1f, b, 1, 0] ++ List.replicate (more / 255) 255
        ++ UInt8.ofNat (more % 255) :: 0x50 :: List.replicate 5 b
      if 25 ≤ source.length ∧ rest.all (· == b) ∧ out.length ≤ dstCap then out else []

theorem length_matchEncode (source : Bytes) (dstCap : ℕ) :
    (matchEncode source dstCap).length ≤ dstCap := by
  rcases source with _ | ⟨b, rest⟩
  · exact Nat.zero_le _
  · simp only [matchEncode]
    split_ifs with h
    · exact h.2.2
    · exact Nat.zero_le _

theorem matchEncode_replicate {b : UInt8} {n cap : ℕ} (hn : 25 ≤ n) (hcap : n ≤ cap) :
    matchEncode (List.replicate n b) cap ≠ [] := by
  obtain ⟨k, rfl⟩ : ∃ k, n = k + 1 := ⟨n - 1, by omega⟩
  rw [List.replicate_succ]
  simp only [matchEncode]
  rw [if_pos]
  · simp
  · refine ⟨?_, ?_, ?_⟩
    · simpa using hn
    · simp
    · simp only [List.length_append, List.length_cons, List.length_replicate, List.length_nil]
      omega

/-- The engine of literals; above level 1 it knows repeated bytes instead. -/
def matchEngine : Clz4 :=
  { litEngine with
    compressHCContinue := fun c s n => (matchEncode s n, c)
    compressHCContinue_le := fun _ s n => length_matchEncode s n }

theorem engine_matchEngine (src : Bytes) (cap : ℕ) (dict : Option Bytes) :
    (OptsT.linkedTwo.newCompressorFactory matchEngine).newCompressor.engine src cap dict
      = matchEncode src cap := rfl

theorem matchEncode_noise64KB (cap : ℕ) : matchEncode noise64KB cap = [] := by
  obtain ⟨rest, hnoise⟩ : ∃ rest, noise64KB = putU32 (checksumZero (putU32 0)) ++ rest := by
    unfold noise64KB
    rw [show (16384 : ℕ) = 16383 + 1 from rfl, List.range_succ_eq_map, List.flatMap_cons]
    exact ⟨_, rfl⟩
  rw [hnoise, show putU32 (checksumZero (putU32 0)) = [105, 217, 214, 8] by decide +kernel]
  simp [matchEncode]

theorem compressToBlk_linkedHC_nil {Z : Clz4} {cmp : Compressor Z} {src : Bytes} {n : ℕ}
    {dict : Option Bytes} (hcmp : cmp.isLinkedHC = true) (h : cmp.engine src n dict = [])
    (checksum : Bool) :
    ∃ cmp', compressToBlk src cmp n checksum dict = (.error .lz4Compress, cmp') := by
  refine ⟨(cmp.compress src n dict).2, ?_⟩
  simp only [compressToBlk, Compressor.compress_of_linkedHC hcmp h, Err.is]
  rfl

open AsyncWriter in
/-- Block 1 fails and is parked before block 0 has arrived; the write loop takes it out of the
pending map when block 0 is written. -/
def parkedFailed : List Act :=
  [.loop, .caller, .caller, .caller, .sendIn 0, .caller, .caller, .sendIn 1, .task 1, .task 1,
    .sendOut 1, .loop, .loop, .task 0, .task 0, .sendOut 0, .loop, .loop, .loop, .loop]

open AsyncWriter in
theorem run_parkedFailed (Z : Clz4) {p q d : Bytes} (hp : p.length = OptsT.linkedTwo.bsz)
    (hq : q.length = OptsT.linkedTwo.bsz) {cmp cmp' : Compressor Z} {e : Err}
    (hok : compressToBlk p (OptsT.linkedTwo.newCompressorFactory Z).newCompressor
      OptsT.linkedTwo.bsz false none = (.ok d, cmp))
    (herr : compressToBlk q (OptsT.linkedTwo.newCompressorFactory Z).newCompressor
      OptsT.linkedTwo.bsz false (some (p.rtake lz4DictSz)) = (.error e, cmp')) :
    ∃ s, Machine.run (step ⟨.linkedTwo, .ok⟩) (newAsyncWriter Z .linkedTwo [.write (p ++ q)])
        parkedFailed = some s
      ∧ s.loop = .crashed ⟨some e, 1, q.length, none⟩ := by
  refine Machine.exists_run_append (show Machine.run (step ⟨.linkedTwo, .ok⟩) _ [.loop, .caller]
    = some _ from rfl) ?_
  refine Machine.exists_run_append (run_hand (q := q) rfl rfl rfl rfl hp
    (show 0 < OptsT.linkedTwo.calcPending by decide) rfl rfl rfl) ?_
  refine Machine.exists_run_append (run_hand (p := q) (q := []) (n := 0 + OptsT.linkedTwo.bsz) ?_
    rfl rfl rfl hq (show 1 < OptsT.linkedTwo.calcPending by decide) rfl rfl rfl) ?_
  · rw [List.append_nil]
    rfl
  refine Machine.exists_run_append (run_make (c := ⟨.linkedTwo, .ok⟩) (i := 1)
    (b := ⟨1, ⟨2, q⟩, some ⟨1, p.rtake lz4DictSz⟩⟩) herr rfl rfl (by simp only [Option.map_some])
    rfl rfl) ?_
  -- block 1 is parked, block 0 follows
  refine Machine.exists_run_append (show Machine.run (step ⟨.linkedTwo, .ok⟩) _
    [.sendOut 1, .loop, .loop] = some _ from rfl) ?_
  refine Machine.exists_run_append (run_make (c := ⟨.linkedTwo, .ok⟩) (i := 0) hok rfl rfl rfl
    rfl rfl) ?_
  exact ⟨_, rfl, rfl⟩

open AsyncWriter in
/-- A block of zeros, then one that cannot be compressed. -/
theorem failed_blocks_parked :
    ∃ s : AsyncWriter matchEngine,
      Machine.run (step ⟨.linkedTwo, .ok⟩) (newAsyncWriter matchEngine .linkedTwo
          [.write (List.replicate OptsT.linkedTwo.bsz 0 ++ noise64KB)]) parkedFailed = some s
        ∧ ∃ b, s.loop = .crashed b ∧ b.err ≠ none ∧ b.blk = none := by
  have hbsz := OptsT.linkedTwo.bsz_bounds.1
  have hcmp : (OptsT.linkedTwo.newCompressorFactory matchEngine).newCompressor.isLinkedHC = true := rfl
  have hzeros : (OptsT.linkedTwo.newCompressorFactory matchEngine).newCompressor.engine
      (List.replicate OptsT.linkedTwo.bsz 0) OptsT.linkedTwo.bsz none ≠ [] := by
    rw [engine_matchEngine]
    exact matchEncode_replicate (by omega) le_rfl
  have hnoise : (OptsT.linkedTwo.newCompressorFactory matchEngine).newCompressor.engine noise64KB
      OptsT.linkedTwo.bsz (some ((List.replicate OptsT.linkedTwo.bsz 0).rtake lz4DictSz)) = [] := by
    rw [engine_matchEngine, matchEncode_noise64KB]
  obtain ⟨cmp, hok⟩ := compressToBlk_linkedHC hcmp hzeros false
  obtain ⟨cmp', herr⟩ := compressToBlk_linkedHC_nil hcmp hnoise false
  obtain ⟨s, hs, hloop⟩ := run_parkedFailed matchEngine List.length_replicate length_noise64KB hok herr
  exact ⟨s, hs, _, hloop, by rintro ⟨⟩, rfl⟩

end Plz4
