/-
The blocks the asynchronous writer borrows, the dictionaries of linked blocks among them.

A block borrowed is at one place: the caller's buffer or its dictionary for the next block, a
task, the queue of the hasher, the hand of the write loop or the pending map. It leaves the
last of them when it is given back. When `Close` returns all of these are empty, in whatever
state the writer went down.
-/
import Plz4.AsyncWriterSpec

set_option autoImplicit false

namespace Plz4

open AsyncWriter (ids)

/-! ## Where the blocks are -/

/-- The borrow numbers of a made block. -/
def outIds (out : Option OutBlk) : List ℕ := out.elim [] (fun b => ids b.blk)

/-- The borrow numbers of what a task has of its source. `freeSrcBlk` gives back the
dictionary first. -/
def TaskAt.inIds : TaskAt → List ℕ
  | .check b | .free b _ => b.blk.id :: ids b.dict
  | .freeSend b _ => [b.blk.id]
  | _ => []

/-- The borrow numbers of what a task has. -/
def TaskAt.ids (x : TaskAt) : List ℕ := x.inIds ++ outIds x.out

/-- The hasher has a block to give back. -/
def Ref.ids : Ref → List ℕ
  | .queue _ => []
  | .free b => [b.id]

/-- The write loop has waited for the hasher. -/
def Loop.joined : Loop → Bool
  | .trailer _ | .setErr _ .closeSyn | .closeSyn | .done => true
  | _ => false

namespace AsyncWriter

open Pool (upTo_succ)

variable {Z : Clz4} {c : WriterCfg} {s s' : AsyncWriter Z} {a : Act} {script₀ : List WCall}

/-- How often block `k` is out. -/
def out (s : AsyncWriter Z) (k : ℕ) : ℕ :=
  (ids s.srcBlk).count k + (ids s.dict).count k
    + (s.tasks.map (fun t => t.loc.ids.count k)).sum
    + (s.hasher.elim [] (fun h => h.q.flatMap Ref.ids)).count k
    + (outIds s.loop.out).count k + (s.pending.map (fun b => (ids b.blk).count k)).sum

/-- Who has the blocks, and what is left when the threads are gone. -/
structure Custody (s : AsyncWriter Z) : Prop where
  books : Pool.Books s.returned s.out s.borrowed
  joined : s.loop.joined = true → ∀ h, s.hasher = some h → h.exited = true
  dict : s.srcBlk = none → s.dict = none

theorem ids_none : ids none = [] := rfl

theorem ids_some (b : Blk) : ids (some b) = [b.id] := rfl

theorem ids_check (b : InBlkW) : (TaskAt.check b).ids = b.blk.id :: ids b.dict :=
  List.append_nil _

theorem ids_free (b : InBlkW) (o : Option OutBlk) :
    (TaskAt.free b o).ids = b.blk.id :: (ids b.dict ++ outIds o) := rfl

theorem ids_freeSend (b : InBlkW) (o : Option OutBlk) :
    (TaskAt.freeSend b o).ids = b.blk.id :: outIds o := rfl

theorem ids_send (b : OutBlk) : (TaskAt.send b).ids = outIds (some b) := rfl

theorem ids_fill (s : AsyncWriter Z) (d : Bytes) : ids (s.fill d) = ids s.srcBlk := by
  unfold fill
  rcases s.srcBlk with _ | b <;> rfl

/-- The caller keeps its buffer. -/
theorem Local.ids {x : Caller} {script : List WCall} {b : Option Blk} {rep : Bool}
    {rs : List CallRes} {es : List Err} (h : Local c s x script b rep rs es) :
    AsyncWriter.ids b = AsyncWriter.ids s.srcBlk := by
  cases h with
  | writeFull | writeMore | readFull | readShort | readEof | readFail => exact ids_fill s _
  | _ => rfl

theorem ids_afterFree (b : InBlkW) (out : Option OutBlk) : (afterFree b out).ids = outIds out := by
  rcases out with _ | out <;> rfl

theorem ids_spawned (o : OptsT) (s : AsyncWriter Z) (k : ℕ) :
    ((s.spawned o).map (fun t => t.loc.ids.count k)).sum = 0 := by
  unfold spawned
  split_ifs <;> rfl

theorem outIds_some (b : OutBlk) : outIds (some b) = ids b.blk := rfl

/-- The write loop has put down its block, on either branch. -/
theorem out_ite {x y : Loop} (p : Prop) [Decidable p] (hx : x.out = none) (hy : y.out = none) :
    (if p then x else y).out = none := by
  split_ifs
  · exact hx
  · exact hy

/-- What a task has made: a block of its own, or none. -/
theorem outIds_outOf (b : InBlkW) (id : ℕ) (ret : Except Err Bytes) :
    outIds (some (outOf b id ret)) = if ret.isOk then [id] else [] := by
  rcases ret with e | data <;> rfl

/-! ## The books -/

/-- Task `i` moves from `x` to `y`; only what it has counts. -/
theorem sum_ids {i : ℕ} {t : Task Z} {x : TaskAt} (hi : s.tasks[i]? = some t) (hloc : t.loc = x)
    (y : TaskAt) (cmp : Compressor Z) (k : ℕ) :
    ((s.tasks.set i ⟨y, cmp⟩).map (fun t => t.loc.ids.count k)).sum + x.ids.count k
      = (s.tasks.map (fun t => t.loc.ids.count k)).sum + y.ids.count k := by
  rw [← hloc]
  exact Pool.sum_set (fun t : Task Z => t.loc.ids.count k) hi ⟨y, cmp⟩

/-- **Every step keeps the books.** A block changes hands but in the step in which it is
borrowed or given back. -/
theorem books_step (h : Pool.Books s.returned s.out s.borrowed) (hstep : Step c s a s') :
    Pool.Books s'.returned s'.out s'.borrowed := by
  intro k
  have hk := h k
  have hnone : (outIds none).count k = 0 := List.count_nil
  have hrecv : TaskAt.recv.ids.count k = 0 := List.count_nil
  cases hstep with
  | loc hl =>
      simp only [out, hl.ids] at hk ⊢
      exact hk
  | queue _ _ hh =>
      simp only [out, hh, Option.elim, List.flatMap_append, List.flatMap_singleton, Ref.ids,
        List.append_nil] at hk ⊢
      exact hk
  | join =>
      simp only [out, closeEnd, ret, List.count_append, ids_none, List.count_nil] at hk ⊢
      omega
  | synReplyJoin _ hloop =>
      simp only [out, closeEnd, ret, hloop, Loop.out, List.count_append, ids_none, List.count_nil]
        at hk ⊢
      omega
  | @sendIn i j b t hcaller hblk hi hloc =>
      -- the dictionary goes with the block, and the caller borrows anew
      have hsum := fun dict => sum_ids hi hloc (.check ⟨s.srcIdx, b, dict⟩) t.cmp k
      by_cases hlinked : c.opts.blockLinked = true
      · have hdict := hsum s.dict
        simp only [out, sendInStep, nextDict, if_pos hlinked, hblk, List.map_append,
          List.sum_append, ids_spawned, ids_check, ids_some, upTo_succ, List.count_cons,
          List.count_nil] at hdict hk ⊢
        omega
      · have hdict := hsum none
        simp only [out, sendInStep, nextDict, if_neg hlinked, hblk, List.map_append,
          List.sum_append, ids_spawned, ids_check, ids_some, ids_none, upTo_succ, List.count_cons,
          List.count_nil] at hdict hk ⊢
        omega
  | @exit i t hi hloc =>
      have hsum := sum_ids hi hloc .done t.cmp k
      have hdone : TaskAt.done.ids.count k = 0 := List.count_nil
      simp only [out] at hk ⊢
      omega
  | @skip i t b hi hloc =>
      have hsum := sum_ids hi hloc (.free b none) t.cmp k
      have hfree : (TaskAt.free b none).ids.count k = (TaskAt.check b).ids.count k := rfl
      simp only [out] at hk ⊢
      omega
  | @compress i t b ret cmp hi hloc =>
      have hsum := sum_ids hi hloc (.free b (some (outOf b s.borrowed ret))) cmp k
      simp only [ids_check, ids_free, outIds_outOf, List.count_cons, List.count_append] at hsum
      simp only [out, List.count_append, upTo_succ] at hk ⊢
      split_ifs at hsum ⊢ <;> simp only [List.count_nil] at hsum ⊢ <;> omega
  | @freeAsk i t b o _ hi hloc =>
      have hsum := sum_ids hi hloc (.freeSend b o) t.cmp k
      simp only [ids_free, ids_freeSend, List.count_cons, List.count_append] at hsum
      simp only [out, List.count_append] at hk ⊢
      omega
  | @freeNow i t b o hi hloc =>
      have hsum := sum_ids hi hloc (afterFree b o) t.cmp k
      simp only [ids_free, ids_afterFree, List.count_cons, List.count_append] at hsum
      simp only [out, List.count_append, List.count_cons, List.count_nil] at hk ⊢
      omega
  | @freeSend i t b o _ hi hloc hh =>
      have hsum := sum_ids hi hloc (afterFree b o) t.cmp k
      simp only [ids_freeSend, ids_afterFree, List.count_cons] at hsum
      simp only [out, hh, Option.elim, List.flatMap_append, List.flatMap_singleton, Ref.ids,
        List.count_append, List.count_cons, List.count_nil] at hk ⊢
      omega
  | @release i idx t hi hloc =>
      have hsum := sum_ids hi hloc .recv t.cmp k
      have hrelease : (TaskAt.release idx).ids.count k = 0 := List.count_nil
      simp only [out] at hk ⊢
      omega
  | @sendOut i t b hi hloc hloop =>
      have hsum := sum_ids hi hloc .recv t.cmp k
      rw [ids_send] at hsum
      simp only [out, hloop, Loop.out] at hk ⊢
      omega
  | hashBump hh | hashExit hh =>
      simp only [out, hh, Option.elim] at hk ⊢
      exact hk
  | hashQueue hh _ hq =>
      simp only [out, hh, hq, Option.elim, List.flatMap_cons, Ref.ids, List.nil_append] at hk ⊢
      exact hk
  | hashFree hh _ hq =>
      simp only [out, hh, hq, Option.elim, List.flatMap_cons, Ref.ids, List.count_append] at hk ⊢
      omega
  | hashDone hloop hh =>
      simp only [out, hloop, hh, Loop.out, Option.elim] at hk ⊢
      exact hk
  | gotPark hloop =>
      simp only [out, hloop, Loop.out, List.map_append, List.sum_append, List.map_singleton,
        List.sum_singleton, outIds_some] at hk ⊢
      omega
  | kickDrop hloop | kickErr hloop | kickFail hloop | kickLast hloop =>
      simp only [out, kickBlock, hloop, Loop.out, List.count_append, outIds_some] at hk ⊢
      omega
  | kickNext hloop _ _ _ hfind =>
      have hsum := Pool.sum_eraseP (fun b : OutBlk => (ids b.blk).count k) hfind
      simp only [out, kickBlock, hloop, Loop.out, List.count_append, outIds_some] at hk ⊢
      omega
  | drainKick hloop hpend =>
      simp only [out, kickBlock, hpend, List.count_append, List.map_cons, List.sum_cons] at hk ⊢
      omega
  | finish hloop | abort hloop | hashWait hloop =>
      rw [out, out_ite _ rfl rfl]
      simp only [out, hloop, Loop.out] at hk ⊢
      exact hk
  | synSend _ hloop | synReply _ hloop | header hloop | headerFail hloop | headerErr hloop
  | outClosed hloop | gotDrop hloop
  | gotErr hloop | gotWrite hloop | write hloop | crash hloop | setErr hloop | reply hloop
  | noReply hloop | drained hloop | trailer hloop | trailerFail hloop | trailerErr hloop
  | closeSyn hloop =>
      simp only [out, hloop, Loop.out] at hk ⊢
      exact hk
  | _ => exact hk

/-! ## When the threads are gone -/

theorem joined_step
    (h : s.loop.joined = true → ∀ hh, s.hasher = some hh → hh.exited = true)
    (hstep : Step c s a s') :
    s'.loop.joined = true → ∀ hh, s'.hasher = some hh → hh.exited = true := by
  intro hj hh hs
  cases hstep with
  | hashWait _ hsome hex =>
      rw [hsome] at hs
      rw [← Option.some.inj hs]
      exact hex
  | finish hloop | abort hloop =>
      -- the write loop only goes past a hasher that is not there
      change s.hasher = some hh at hs
      change (if s.hasher.isSome = true then _ else _ : Loop).joined = true at hj
      rw [hs, Option.isSome_some, if_pos rfl] at hj
      cases hj
  | trailer hloop | trailerFail hloop | trailerErr hloop
  | closeSyn hloop => exact h (by rw [hloop]; rfl) hh hs
  | queue _ _ hsome | freeSend _ _ hsome | hashBump hsome | hashQueue hsome | hashFree hsome =>
      have hex := h hj _ hsome
      rw [← Option.some.inj hs]
      exact hex
  | hashExit =>
      rw [← Option.some.inj hs]
  | synSend | synReply | synReplyJoin | sendOut | header | headerFail | headerErr | outClosed
  | gotDrop | gotPark | gotErr
  | gotWrite | write | crash | kickDrop | kickErr | kickFail | kickNext | kickLast | setErr | reply
  | noReply | drained | hashDone => cases hj
  | drainKick hloop =>
      change s.loop.joined = true at hj
      rw [hloop] at hj
      cases hj
  | _ => exact h hj hh hs

theorem dropped_step (h : s.srcBlk = none → s.dict = none) (hstep : Step c s a s') :
    s'.srcBlk = none → s'.dict = none := by
  intro hblk
  cases hstep with
  | loc hl => exact h (hl.srcBlk.mp hblk)
  | join | synReplyJoin => rfl
  | sendIn => cases hblk
  | _ => exact h hblk

/-- **Every step keeps custody.** -/
theorem Custody.step (h : Custody s) (hstep : Step c s a s') : Custody s' where
  books := books_step h.books hstep
  joined := joined_step h.joined hstep
  dict := dropped_step h.dict hstep

theorem custody_newAsyncWriter (Z : Clz4) (o : OptsT) (script : List WCall) :
    Custody (newAsyncWriter Z o script) := by
  refine ⟨fun k => ?_, (by rintro ⟨⟩), (by rintro ⟨⟩)⟩
  have htasks : ((newAsyncWriter Z o script).tasks.map (fun t => t.loc.ids.count k)).sum = 0 := by
    rw [List.sum_eq_zero_iff]
    intro n hn
    obtain ⟨t, ht, rfl⟩ := List.mem_map.mp hn
    rw [List.eq_of_mem_replicate ht]
    exact List.count_nil
  have hhash : (newAsyncWriter Z o script).hasher.elim [] (fun h => h.q.flatMap Ref.ids) = [] := by
    show (if o.contentChecksum = true then _ else _ : Option HasherIdx).elim [] _ = []
    split_ifs <;> rfl
  rw [out, htasks, hhash]
  show List.count k [] + (List.count k [0] + _ + _ + _ + _ + _) = Pool.upTo (0 + 1) k
  rw [upTo_succ]
  rfl

theorem custody_run {script : List WCall} {as : List Act}
    (hrun : Machine.run (step c) (newAsyncWriter Z c.opts script) as = some s) : Custody s :=
  Machine.invariant_run (fun _ _ _ h hstep => h.step (step_spec hstep))
    (custody_newAsyncWriter Z c.opts script) hrun

/-- **When `Close` has returned, nothing is out.** -/
theorem Custody.out_eq_zero (h : Custody s) (hs : Sound c s) (hblk : s.srcBlk = none) (k : ℕ) :
    s.out k = 0 := by
  obtain ⟨hloop, -, -⟩ := hs.phases.after hblk
  have hphase : 3 ≤ s.phase := by
    unfold phase
    rw [if_pos hblk]
    exact Nat.le_succ 3
  have htasks : (s.tasks.map (fun t => t.loc.ids.count k)).sum = 0 := by
    rw [List.sum_eq_zero_iff]
    intro n hn
    obtain ⟨t, ht, rfl⟩ := List.mem_map.mp hn
    rw [hs.phases.tasks hphase t ht]
    exact List.count_nil
  have hhash : s.hasher.elim [] (fun h => h.q.flatMap Ref.ids) = [] := by
    rcases hh : s.hasher with _ | g
    · rfl
    · have hexited := h.joined (by rw [hloop]; rfl) g hh
      rw [Option.elim, (hs.hashing.exited g hh hexited).1]
      rfl
  have hpending : s.pending = [] := hs.order.drained (by rw [hloop]; rfl)
  rw [out, hblk, h.dict hblk, htasks, hhash, hloop, hpending]
  rfl

/-! ## The calls of `Close` -/

/-- A `Close` that has returned has taken the block buffer. -/
def Shut (script₀ : List WCall) (s : AsyncWriter Z) : Prop :=
  ∀ k, k < s.results.length → script₀[k]? = some .close → s.srcBlk = none

/-- The call under way. -/
theorem Ledger.now (h : Ledger script₀ s) {call : WCall}
    (hcall : script₀[s.results.length]? = some call) : ∃ rest, s.script = call :: rest := by
  have hlt := (List.getElem?_eq_some_iff.mp hcall).1
  refine ⟨script₀.drop (s.results.length + 1), ?_⟩
  rw [h.script, List.drop_eq_getElem_cons hlt, ← Option.some.inj
    ((List.getElem?_eq_getElem hlt).symm.trans hcall)]

theorem Shut.step (h : Shut script₀ s) (hl : Ledger script₀ s) (hstep : Step c s a s') :
    Shut script₀ s' := by
  -- a call returns: it is a `Close` that leaves no buffer, or another call
  have hret : ∀ {b : Option Blk} {r : CallRes}, (s.srcBlk = none → b = none) →
      (∀ rest, s.script = .close :: rest → b = none) →
      ∀ k, k < (s.results ++ [r]).length → script₀[k]? = some .close → b = none := by
    intro b r hold hnew k hk hclose
    rw [List.length_append, List.length_singleton] at hk
    by_cases hlt : k < s.results.length
    · exact hold (h k hlt hclose)
    · obtain rfl : k = s.results.length := by omega
      obtain ⟨rest, hscript⟩ := hl.now hclose
      exact hnew rest hscript
  cases hstep with
  | loc hloc =>
      cases hloc with
      | report hrep => exact hret id (fun _ hclose => hrep.shut hl hclose)
      | flushNone _ hscript =>
          refine hret id (fun _ hclose => ?_)
          cases hscript.symm.trans hclose
      | writeFull | writeMore | readFull | readShort | readEof | readFail =>
          intro k hk hclose
          exact Option.map_eq_none_iff.mpr (h k hk hclose)
      | _ => exact h
  | join | synReplyJoin => exact fun _ _ _ => rfl
  | sendIn _ hblk =>
      intro k hk hclose
      have hnone := h k hk hclose
      rw [hblk] at hnone
      cases hnone
  | _ => exact h

theorem shut_run {as : List Act}
    (hrun : Machine.run (step c) (newAsyncWriter Z c.opts script₀) as = some s) :
    Shut script₀ s := by
  refine (Machine.invariant_run
    (I := fun s => (Phases s ∧ Ledger script₀ s) ∧ Shut script₀ s)
    (fun _ _ _ h hstep => ?_) ⟨⟨phases_newAsyncWriter Z c.opts script₀,
      ledger_newAsyncWriter Z c.opts script₀⟩, by rintro k ⟨⟩⟩ hrun).2
  have hs := step_spec hstep
  exact ⟨⟨h.1.1.step hs, h.1.2.step h.1.1 hs⟩, h.2.step h.1.2 hs⟩

/-! ## The dictionaries -/

/-- The dictionary of a block is within the last 64 KiB before it. -/
theorem dictFor_suffix (o : OptsT) (blks : List Bytes) (k : ℕ) (pre : Bytes) :
    (dictFor o blks k).getD [] <:+ (pre ++ (blks.take k).flatten).rtake lz4DictSz := by
  unfold dictFor
  split_ifs with h
  · rcases hb : blks[k - 1]? with _ | b
    · exact List.nil_suffix
    · -- the block before it is the last one
      have hk : k = k - 1 + 1 := by omega
      have hsuffix : b <:+ pre ++ (blks.take k).flatten := by
        rw [hk, List.take_add_one, hb, List.flatten_append, ← List.append_assoc]
        show b <:+ _ ++ (b ++ [])
        rw [List.append_nil]
        exact List.suffix_append _ _
      rw [Option.map_some, Option.getD_some]
      exact List.rtake_suffix_rtake lz4DictSz hsuffix
  · exact List.nil_suffix

/-- **Linked blocks.** The first block is compressed without a dictionary, every other one
with the last 64 KiB of the block before it. No dictionary goes back to the pool before it
is used, and when `Close` has returned every block borrowed has been given back once, in
whatever way the writer went down. -/
theorem linked_dictionaries (Z : Clz4) (c : WriterCfg) (hlinked : c.opts.blockLinked = true)
    (hpar : 0 < c.opts.nParallel) (script : List WCall) {as : List Act} {s : AsyncWriter Z}
    (hrun : Machine.run (step c) (newAsyncWriter Z c.opts script) as = some s) :
    (∀ e ∈ s.encodes,
        (∃ (src : Bytes) (cmp : Compressor Z), s.blks[e.idx]? = some src
          ∧ e.ret = (compressToBlk src cmp c.opts.bsz c.opts.blockChecksum e.dict).1)
        ∧ (e.idx = 0 → e.dict = none)
        ∧ (∀ k, e.idx = k + 1 →
          ∃ b, s.blks[k]? = some b ∧ e.dict = some (b.drop (b.length - 64 * 1024)))
        ∧ e.dict.getD [] <:+
          (c.opts.dictionary.getD [] ++ (s.blks.take e.idx).flatten).rtake (64 * 1024))
      ∧ (∀ t ∈ s.tasks, ∀ b d, t.loc = .check b → b.dict = some d →
          d.id < s.borrowed ∧ d.id ∉ s.returned)
      ∧ (∀ d, s.dict = some d → d.id < s.borrowed ∧ d.id ∉ s.returned)
      ∧ s.returned.Nodup ∧ (∀ k ∈ s.returned, k < s.borrowed)
      ∧ ∀ (k : ℕ) (r : CallRes), script[k]? = some .close → s.results[k]? = some r →
          s.returned.Perm (List.range s.borrowed) := by
  have hs := sound_run hpar hrun
  have hcustody := custody_run hrun
  refine ⟨?_, ?_, ?_, hcustody.books.nodup.1, hcustody.books.nodup.2, ?_⟩
  · intro e he
    have hok := hs.values.encodes e he
    -- what is compressed: the block of the index, with the tail of the one before
    obtain ⟨src, cmp, hsrc, -, hret⟩ := hok.ret
    have hlt := (List.getElem?_eq_some_iff.mp hsrc).1
    refine ⟨⟨src, cmp, hsrc, hret⟩, ?_, ?_, ?_⟩
    · intro hzero
      rw [hok.dict, hzero]
      unfold dictFor
      exact if_neg (fun h => Nat.lt_irrefl 0 h.2)
    · intro k hk
      rw [hk] at hlt
      have hb := List.getElem?_eq_getElem (l := s.blks) (i := k) (by omega)
      refine ⟨_, hb, ?_⟩
      rw [hok.dict, hk]
      unfold dictFor
      rw [if_pos ⟨hlinked, Nat.succ_pos k⟩, Nat.add_sub_cancel, hb]
      rfl
    · rw [hok.dict]
      exact dictFor_suffix c.opts s.blks e.idx _
  · intro t ht b d hloc hdict
    apply hcustody.books.of_out
    -- a dictionary with a task that is to use it is out
    have hle := Pool.le_sum_of_mem (fun t : Task Z => t.loc.ids.count d.id) ht
    have hone : 0 < t.loc.ids.count d.id := by
      rw [hloc, ids_check, hdict, ids_some, List.count_cons, List.count_singleton_self]
      omega
    unfold out
    omega
  · intro d hdict
    apply hcustody.books.of_out
    unfold out
    rw [hdict, ids_some, List.count_singleton_self]
    omega
  · intro k r hclose hres
    -- after `Close` nothing is out
    have hlt := (List.getElem?_eq_some_iff.mp hres).1
    have hblk := shut_run hrun k hlt hclose
    exact hcustody.books.perm (hcustody.out_eq_zero hs hblk)

/-- Two blocks, the first one flushed, and `Close`. -/
def twoLinked : List Act :=
  [.caller, .caller, .caller, .caller, .caller, .caller, .hasher, .hasher, .loop, .sendIn 0,
    .task 0, .task 0, .sendOut 0, .loop, .loop, .loop, .loop, .synSend, .loop, .synReply, .caller,
    .caller, .caller, .caller, .caller, .caller, .caller, .hasher, .hasher, .sendIn 0, .caller,
    .caller, .task 0, .task 0, .sendOut 0, .task 0, .caller, .loop, .loop, .loop, .loop, .loop,
    .loop, .loop, .loop, .hasher, .loop, .loop, .loop, .caller]

theorem linked_dictionaries_two :
    ∃ s : AsyncWriter litEngine,
      Machine.run (step ⟨{ OptsT.default with blockLinked := true }, .ok⟩)
          (newAsyncWriter litEngine { OptsT.default with blockLinked := true }
            [.write [1], .flush, .write [2], .close]) twoLinked = some s
        ∧ s.encodes.map (fun e => (e.idx, e.dict)) = [(0, none), (1, some [1])]
        ∧ s.returned.Perm (List.range 7) := by
  have hrun : (Machine.run (step ⟨{ OptsT.default with blockLinked := true }, .ok⟩)
      (newAsyncWriter litEngine { OptsT.default with blockLinked := true }
        [.write [1], .flush, .write [2], .close]) twoLinked).map
          (fun s => (s.encodes.map (fun e => (e.idx, e.dict)), s.borrowed, s.results[3]?))
      = some ([(0, none), (1, some [1])], 7, some ⟨0, none⟩) := by decide +kernel
  obtain ⟨s, hs, hres⟩ := Option.map_eq_some_iff.mp hrun
  simp only [Prod.mk.injEq] at hres
  have hspec := linked_dictionaries litEngine ⟨{ OptsT.default with blockLinked := true }, .ok⟩
    rfl (by decide) [.write [1], .flush, .write [2], .close] hs
  have hperm := hspec.2.2.2.2.2 3 ⟨0, none⟩ rfl hres.2.2
  rw [hres.2.1] at hperm
  exact ⟨s, hs, hres.1, hperm⟩

end AsyncWriter

end Plz4
