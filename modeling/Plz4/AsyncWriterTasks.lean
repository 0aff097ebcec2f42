/-
How many compress tasks the asynchronous writer has.

`NewAsyncWriter` starts some, by the content size if it is told one, and `_flushBlk` adds
one with a block as long as there are fewer than `NParallel`. Each is counted three times:
in `nTasks`, by the worker pool it is submitted to, and in the wait group that `Close` waits
on. `Counted` says that the three agree and lie in their bounds. It holds for a whole life of
the writer or for no moment of it: whether the first count is positive is decided by the
content size, which the source turns from an unsigned into a signed number.
-/
import Plz4.AsyncWriterPhases
import Plz4.Lib.Pool

set_option autoImplicit false

namespace Plz4

open Pool (WaitGroup)

/-! ## The tasks at the start -/

/-- The content size, as the `int` the source makes of it, is not a block below zero. -/
def SizeFits (o : OptsT) : Prop :=
  ∀ sz, o.contentSz = some sz → sz.toNat < 2 ^ 63 ∨ 2 ^ 64 - o.bsz < sz.toNat

/-- A size up to 2^63 counts as itself, one from there on as itself less 2^64. -/
theorem toInt_toBitVec (sz : UInt64) :
    sz.toBitVec.toInt = if sz.toNat < 2 ^ 63 then (sz.toNat : ℤ) else (sz.toNat : ℤ) - 2 ^ 64 := by
  rw [BitVec.toInt_eq_toNat_cond, UInt64.toNat_toBitVec]
  push_cast
  split_ifs <;> omega

/-- **The writer starts with a task exactly if the size fits.** -/
theorem initTasks_pos_iff {o : OptsT} (hpar : 0 < o.nParallel) :
    0 < initTasks o ↔ SizeFits o := by
  have hbsz := o.bsz_pos
  rcases hcontent : o.contentSz with _ | sz
  · have hone : initTasks o = 1 := by
      unfold initTasks
      rw [hcontent]
    rw [hone]
    refine iff_of_true one_pos ?_
    intro sz hsz
    rw [hcontent] at hsz
    cases hsz
  · -- the count is positive as long as the division does not go below zero
    have hmin : 0 < initTasks o ↔ 0 ≤ sz.toBitVec.toInt.tdiv o.bsz := by
      simp only [initTasks, hcontent]
      split_ifs <;> omega
    have hsz := sz.toNat_lt
    have hfits : SizeFits o ↔ sz.toNat < 2 ^ 63 ∨ 2 ^ 64 - o.bsz < sz.toNat := by
      unfold SizeFits
      rw [hcontent]
      constructor
      · intro h
        exact h sz rfl
      · intro h sz' hsz'
        rw [← Option.some.inj hsz']
        exact h
    rw [hmin, hfits, toInt_toBitVec]
    by_cases hpos : sz.toNat < 2 ^ 63
    · rw [if_pos hpos]
      refine iff_of_true ?_ (.inl hpos)
      exact Int.tdiv_nonneg (Int.natCast_nonneg _) (Int.natCast_nonneg _)
    · rw [if_neg hpos]
      -- truncation towards zero takes one block below zero to zero
      have hneg : (sz.toNat : ℤ) - 2 ^ 64 = -((2 ^ 64 - sz.toNat : ℕ) : ℤ) := by omega
      rw [hneg, Int.neg_tdiv, ← Int.ofNat_tdiv]
      have hdiv : (2 ^ 64 - sz.toNat) / o.bsz = 0 ↔ 2 ^ 64 - sz.toNat < o.bsz :=
        Nat.div_eq_zero_iff_lt hbsz
      generalize (2 ^ 64 - sz.toNat) / o.bsz = q at hdiv ⊢
      have hle : (0 : ℤ) ≤ -(q : ℤ) ↔ q = 0 := by omega
      rw [hle, hdiv]
      omega

theorem initTasks_le {o : OptsT} (hpar : 0 < o.nParallel) : initTasks o ≤ o.nParallel := by
  unfold initTasks
  split
  · omega
  · simp only
    split_ifs <;> omega

/-- A task that has not exited. -/
def Task.alive {Z : Clz4} (t : Task Z) : ℕ := if t.loc = .done then 0 else 1

theorem Task.alive_of_ne {Z : Clz4} {t : Task Z} (h : t.loc ≠ .done) : t.alive = 1 := if_neg h

namespace AsyncWriter

variable {Z : Clz4} {c : WriterCfg} {s s' : AsyncWriter Z} {a : Act}

/-! ## The writer with its wait group -/

/-- The writer with the wait group of its tasks, until that panics. -/
inductive Grouped (Z : Clz4)
  | ok (s : AsyncWriter Z) (wg : WaitGroup)
  | panicked

/-- What a step does to the wait group: `Add(1)` with the task that `_flushBlk` submits, and
the `Done` of a task that finds `inChan` closed. -/
def wgStep (c : WriterCfg) (s : AsyncWriter Z) (wg : WaitGroup) : Act → Option WaitGroup
  | .sendIn _ => if s.nTasks < c.opts.nParallel then wg.add 1 else some wg
  | .task i => if s.tasks[i]?.any (fun t => t.loc = .recv) then wg.done else some wg
  | _ => some wg

/-- `NewAsyncWriter` up to `w.wg.Add(w.nTasks)`, and past it. -/
def newGrouped (Z : Clz4) (o : OptsT) (script : List WCall) : Grouped Z :=
  match (⟨0, 0⟩ : WaitGroup).add (initTasks o) with
  | some wg => .ok (newAsyncWriter Z o script) wg
  | none => .panicked

/-- A step of the writer with its wait group. -/
def groupedStep (c : WriterCfg) (g : Grouped Z) (a : Act) : Option (Grouped Z) :=
  match g with
  | .panicked => none
  | .ok s wg =>
      match step c s a with
      | none => none
      | some s' =>
          match s.wgStep c wg a with
          | some wg => some (.ok s' wg)
          | none => some .panicked

/-! ## The count -/

/-- The tasks are counted right: `nTasks` is the number submitted and the number added to the
wait group, there is one and there are no more than `NParallel`, and the wait group counts
those that have not exited. -/
structure Counted (c : WriterCfg) (s : AsyncWriter Z) (wg : WaitGroup) : Prop where
  pos : 1 ≤ s.nTasks
  le : s.nTasks ≤ c.opts.nParallel
  submitted : s.nTasks = s.tasks.length
  added : s.nTasks = wg.added
  count : wg.count = ((s.tasks.map Task.alive).sum : ℕ)

/-- The counter stays within the number of tasks. -/
theorem Counted.count_le {wg : WaitGroup} (h : Counted c s wg) : wg.count ≤ s.nTasks := by
  have hle : (s.tasks.map Task.alive).sum ≤ (s.tasks.map Task.alive).length * 1 := by
    apply List.sum_le_card_nsmul
    intro n hn
    obtain ⟨t, -, rfl⟩ := List.mem_map.mp hn
    unfold Task.alive
    split_ifs <;> omega
  rw [List.length_map] at hle
  rw [h.count, h.submitted]
  omega

/-- A step that changes neither the tasks' number nor how many are alive. -/
theorem Counted.congr {wg : WaitGroup} (h : Counted c s wg) (hn : s'.nTasks = s.nTasks)
    (hlen : s'.tasks.length = s.tasks.length)
    (hsum : (s'.tasks.map Task.alive).sum = (s.tasks.map Task.alive).sum) : Counted c s' wg := by
  refine ⟨?_, ?_, ?_, ?_, ?_⟩
  · rw [hn]
    exact h.pos
  · rw [hn]
    exact h.le
  · rw [hn, hlen]
    exact h.submitted
  · rw [hn]
    exact h.added
  · rw [hsum]
    exact h.count

/-- A task that stays alive. -/
theorem Counted.move {wg : WaitGroup} (h : Counted c s wg) {i : ℕ} {t t' : Task Z}
    (hi : s.tasks[i]? = some t) (halive : t.alive = t'.alive) (htasks : s'.tasks = s.tasks.set i t')
    (hn : s'.nTasks = s.nTasks) : Counted c s' wg := by
  have hsum := Pool.sum_set Task.alive hi t'
  apply h.congr hn
  · rw [htasks, List.length_set]
  · rw [htasks]
    omega

/-- The block goes to a waiting task, and one more task is submitted if there is room. -/
theorem Counted.sendIn {wg : WaitGroup} (hmax : c.opts.nParallel < 2 ^ 31) (h : Counted c s wg)
    {i : ℕ} {t : Task Z} {b : Blk} {k : Then} (hi : s.tasks[i]? = some t) (hloc : t.loc = .recv) :
    ∃ wg', s.wgStep c wg (.sendIn i) = some wg' ∧ Counted c (s.sendInStep c i t b k) wg' := by
  obtain ⟨t', halive', htasks⟩ : ∃ t' : Task Z, t'.alive = 1
      ∧ (s.sendInStep c i t b k).tasks = s.tasks.set i t' ++ s.spawned c.opts := ⟨_, rfl, rfl⟩
  have hn : (s.sendInStep c i t b k).nTasks = s.nTasks + ((s.spawned c.opts).length : ℤ) := rfl
  have halive : t.alive = 1 := Task.alive_of_ne (by rw [hloc]; rintro ⟨⟩)
  by_cases hroom : s.nTasks < c.opts.nParallel
  · -- one more task, which counts everywhere
    have hspawn : s.spawned c.opts = [newTask Z c.opts] := if_pos hroom
    have hnew : (newTask Z c.opts).alive = 1 := rfl
    have hsum := Pool.sum_set Task.alive hi t'
    rw [hspawn, List.length_singleton] at hn
    rw [hspawn] at htasks
    have hpos := h.pos
    have hsub := h.submitted
    have hadd := h.added
    have hcount := h.count
    refine ⟨⟨wg.added + 1, wg.count + 1⟩, ?_, ?_, ?_, ?_, ?_, ?_⟩
    · have hle := h.count_le
      simp only [wgStep, if_pos hroom]
      exact WaitGroup.add_of_lt (by omega) (by omega)
    · omega
    · omega
    · rw [hn, htasks, List.length_append, List.length_set, List.length_singleton]
      omega
    · show _ = wg.added + 1
      omega
    · show wg.count + 1 = _
      rw [htasks, List.map_append, List.sum_append, List.map_singleton, List.sum_singleton, hnew]
      omega
  · have hspawn : s.spawned c.opts = [] := if_neg hroom
    rw [hspawn, List.append_nil] at htasks
    rw [hspawn, List.length_nil, Nat.cast_zero, add_zero] at hn
    refine ⟨wg, ?_, h.move hi (halive.trans halive'.symm) htasks hn⟩
    simp only [wgStep, if_neg hroom]

/-- **Every step keeps the count**, and none makes the wait group panic. -/
theorem Counted.step {wg : WaitGroup} (hmax : c.opts.nParallel < 2 ^ 31) (h : Counted c s wg)
    (hstep : Step c s a s') :
    ∃ wg', s.wgStep c wg a = some wg' ∧ Counted c s' wg' := by
  -- a task that is not waiting for a block leaves the wait group alone
  have hother : ∀ {i : ℕ} {t : Task Z}, s.tasks[i]? = some t → t.loc ≠ .recv →
      s.wgStep c wg (.task i) = some wg := by
    intro i t hi hne
    simp only [wgStep, hi, Option.any_some, decide_eq_true_eq]
    exact if_neg hne
  cases hstep with
  | sendIn _ _ hi hloc => exact h.sendIn hmax hi hloc
  | @exit i t hi hloc =>
      -- the one step that counts down
      have halive : t.alive = 1 := Task.alive_of_ne (by rw [hloc]; rintro ⟨⟩)
      have hsum := Pool.sum_set Task.alive hi (⟨.done, t.cmp⟩ : Task Z)
      have hcount := h.count
      have hexit : Task.alive (⟨.done, t.cmp⟩ : Task Z) = 0 := rfl
      rw [halive, hexit] at hsum
      refine ⟨{ wg with count := wg.count - 1 }, ?_, h.pos, h.le, ?_, h.added, ?_⟩
      · simp only [wgStep, hi, Option.any_some, decide_eq_true hloc, if_true]
        have hle := h.count_le
        have hpar := h.le
        exact WaitGroup.done_of_pos (by omega) (by omega)
      · show s.nTasks = ((s.tasks.set i _).length : ℕ)
        rw [List.length_set]
        exact h.submitted
      · show wg.count - 1 = (((s.tasks.set i _).map Task.alive).sum : ℕ)
        omega
  | skip hi hloc | compress hi hloc | freeAsk hi hloc | release hi hloc =>
      refine ⟨wg, hother hi (by rw [hloc]; rintro ⟨⟩), h.move hi ?_ rfl rfl⟩
      rw [Task.alive_of_ne (by rw [hloc]; rintro ⟨⟩)]
      rfl
  | freeNow hi hloc | freeSend hi hloc =>
      refine ⟨wg, hother hi (by rw [hloc]; rintro ⟨⟩), h.move hi ?_ rfl rfl⟩
      rw [Task.alive_of_ne (by rw [hloc]; rintro ⟨⟩), Task.alive_of_ne (afterFree_ne_done _ _)]
  | sendOut hi hloc =>
      refine ⟨wg, rfl, h.move hi ?_ rfl rfl⟩
      rw [Task.alive_of_ne (by rw [hloc]; rintro ⟨⟩)]
      rfl
  | _ => exact ⟨wg, rfl, h.congr rfl rfl rfl⟩

/-! ## Whole runs -/

/-- The state reached is counted right. -/
def Grouped.Fine (c : WriterCfg) : Grouped Z → Prop
  | .ok s wg => Counted c s wg ∧ s.tasks ≠ [] ∧ 0 ≤ wg.count
  | .panicked => False

theorem Counted.fine {wg : WaitGroup} (h : Counted c s wg) : Grouped.Fine c (.ok s wg) := by
  refine ⟨h, ?_, ?_⟩
  · intro hnil
    have hpos := h.pos
    rw [h.submitted, hnil] at hpos
    rw [List.length_nil, Nat.cast_zero] at hpos
    omega
  · rw [h.count]
    exact Int.natCast_nonneg _

theorem fine_step {g g' : Grouped Z} (hmax : c.opts.nParallel < 2 ^ 31) (h : g.Fine c)
    (hstep : groupedStep c g a = some g') :
    g'.Fine c := by
  rcases g with ⟨s, wg⟩ | _
  · simp only [groupedStep] at hstep
    split at hstep
    · cases hstep
    · rename_i s' hs'
      obtain ⟨wg', hwg, hcounted⟩ := h.1.step hmax (step_spec hs')
      simp only [hwg] at hstep
      rw [← Option.some.inj hstep]
      exact hcounted.fine
  · exact h.elim

theorem newGrouped_panics (Z : Clz4) {o : OptsT} (h : WaitGroup.wrap (initTasks o) < 0)
    (script : List WCall) : newGrouped Z o script = .panicked := by
  have hadd : (⟨0, 0⟩ : WaitGroup).add (initTasks o) = none := by
    apply if_pos
    rw [Int.zero_add]
    exact h
  simp only [newGrouped, hadd]

/-- Where the first count fits the counter, the wait group takes it as it is. -/
theorem newGrouped_of_lt (Z : Clz4) {o : OptsT} (h : 0 ≤ initTasks o) (hlt : initTasks o < 2 ^ 31)
    (script : List WCall) :
    newGrouped Z o script = .ok (newAsyncWriter Z o script) ⟨initTasks o, initTasks o⟩ := by
  have hadd : (⟨0, 0⟩ : WaitGroup).add (initTasks o) = some ⟨initTasks o, initTasks o⟩ := by
    rw [WaitGroup.add_of_lt (by rw [Int.zero_add]; exact h) (by rw [Int.zero_add]; exact hlt),
      Int.zero_add]
  simp only [newGrouped, hadd]

/-- The tasks that are alive at the start. -/
theorem alive_newAsyncWriter (Z : Clz4) (o : OptsT) (script : List WCall) :
    ((newAsyncWriter Z o script).tasks.map Task.alive).sum = (initTasks o).toNat := by
  have hnew : Task.alive (newTask Z o) = 1 := rfl
  change ((List.replicate _ (newTask Z o)).map Task.alive).sum = _
  rw [List.map_replicate, List.sum_replicate, hnew, smul_eq_mul, mul_one]

/-- A writer that starts with a task and may not have more than the counter holds starts
counted right. -/
theorem newGrouped_fine (Z : Clz4) {c : WriterCfg} (hpar : 0 < c.opts.nParallel)
    (hmax : c.opts.nParallel < 2 ^ 31) (hpos : 0 < initTasks c.opts) (script : List WCall) :
    (newGrouped Z c.opts script).Fine c := by
  have hle := initTasks_le hpar
  have htasks : (newAsyncWriter Z c.opts script).tasks.length = (initTasks c.opts).toNat :=
    List.length_replicate
  rw [newGrouped_of_lt Z (by omega) (by omega)]
  refine Counted.fine ⟨hpos, hle, ?_, rfl, ?_⟩
  · rw [htasks]
    show initTasks c.opts = _
    omega
  · rw [alive_newAsyncWriter]
    show initTasks c.opts = _
    omega

/-- One that starts without a task does not. -/
theorem pos_of_newGrouped_fine {c : WriterCfg} {script : List WCall}
    (h : (newGrouped Z c.opts script).Fine c) : 0 < initTasks c.opts := by
  unfold newGrouped at h
  split at h
  · exact h.1.pos
  · exact h.elim

/-! ## More tasks than the counter holds -/

/-- The caller is in `Write` and has handed over `k` blocks; no other thread has moved. -/
structure Handing (c : WriterCfg) (k : ℕ) (src : Bytes) (s : AsyncWriter Z) : Prop where
  caller : ∃ n, s.caller = .write src n
  err : s.err = none
  blk : ∃ id, s.srcBlk = some ⟨id, []⟩
  sem : s.sem = k
  semOpen : s.semClosed = false
  inOpen : s.inClosed = false
  hasher : ∀ h, s.hasher = some h → h.q.length = k ∧ h.closed = false
  waits : ∃ (i : ℕ) (t : Task Z), s.tasks[i]? = some t ∧ t.loc = .recv
  nTasks : s.nTasks = initTasks c.opts + k

/-- Where a task is started, it waits. -/
theorem sendInStep_waits {s : AsyncWriter Z} (hroom : s.nTasks < c.opts.nParallel) (i : ℕ)
    (t : Task Z) (b : Blk) (k : Then) :
    ∃ (j : ℕ) (t' : Task Z), (s.sendInStep c i t b k).tasks[j]? = some t' ∧ t'.loc = .recv := by
  have hspawn : s.spawned c.opts = [newTask Z c.opts] := if_pos hroom
  unfold sendInStep
  rw [hspawn]
  exact ⟨_, _, List.getElem?_concat_length, rfl⟩

/-- The next block goes to a task that waits, without any other thread, as long as there are
more tasks to come. -/
theorem Handing.hand {k : ℕ} {p q : Bytes} (h : Handing c k (p ++ q) s) (hp : p.length = c.opts.bsz)
    (hroom : s.nTasks < c.opts.nParallel) (hpos : 0 < initTasks c.opts) :
    ∃ pre i s₁ s₂, (∀ a ∈ pre, a = .caller) ∧ Machine.run (step c) s pre = some s₁
      ∧ s₁.nTasks = s.nTasks ∧ step c s₁ (.sendIn i) = some s₂ ∧ Handing c (k + 1) q s₂ := by
  obtain ⟨n, hcaller⟩ := h.caller
  obtain ⟨id, hblk⟩ := h.blk
  obtain ⟨i, t, hi, hloc⟩ := h.waits
  have hbsz := c.opts.bsz_pos
  have hcount := h.nTasks
  have hk : k < c.opts.nParallel := by omega
  have hpend := c.opts.le_calcPending
  have hne : p ++ q ≠ [] := by
    intro hnil
    have hlen := congrArg List.length hnil
    rw [List.length_append, List.length_nil] at hlen
    omega
  have hcur : s.cur = [] := by rw [cur, hblk]; rfl
  have hmin : min (c.opts.bsz - 0) (p ++ q).length = p.length := by
    rw [List.length_append]
    omega
  -- the block fills up
  have hwrite : step c s .caller = some { s with
      srcBlk := some ⟨id, p⟩
      caller := s.flushAt (.write q (n + c.opts.bsz)) } := by
    simp only [step, callerStep, hcaller, writeStep, h.err, hcur, List.length_nil, hmin]
    rw [if_pos ⟨hne, trivial⟩, if_pos (by omega)]
    simp only [fill, hblk, Option.map_some, List.nil_append, List.take_left', List.drop_left', hp]
  have hspawn : s.spawned c.opts = [newTask Z c.opts] := if_pos hroom
  have hsem : s.sem < c.opts.calcPending := by
    rw [h.sem]
    omega
  -- what the send leaves behind, whatever the hasher has been sent
  have hsent : ∀ o : Option HasherIdx,
      (∀ h', o = some h' → h'.q.length = k + 1 ∧ h'.closed = false) →
      let s₁ : AsyncWriter Z := { s with
        srcBlk := some ⟨id, p⟩, hasher := o, sem := s.sem + 1,
        caller := .sendIn (.write q (n + c.opts.bsz)) }
      ∃ s₂, step c s₁ (.sendIn i) = some s₂ ∧ Handing c (k + 1) q s₂ := by
    intro o ho s₁
    have hstep : step c s₁ (.sendIn i)
        = some (s₁.sendInStep c i t ⟨id, p⟩ (.write q (n + c.opts.bsz))) := by
      simp only [s₁, step, hi, hloc, h.inOpen, and_self, if_true]
    refine ⟨_, hstep, ⟨n + c.opts.bsz, rfl⟩, h.err, ⟨_, rfl⟩, ?_, h.semOpen, h.inOpen, ho, ?_, ?_⟩
    · exact congrArg (· + 1) h.sem
    · exact sendInStep_waits (s := s₁) hroom i t _ _
    · change s.nTasks + ((s.spawned c.opts).length : ℤ) = _
      rw [hspawn, hcount, List.length_singleton]
      push_cast
      omega
  rcases hh : s.hasher with _ | h'
  · obtain ⟨s₂, hs₂, hend⟩ := hsent none (by rintro _ ⟨⟩)
    refine ⟨[.caller, .caller], i, _, s₂, (by simp), ?_, (by rfl), hs₂, hend⟩
    rw [Machine.run_cons, hwrite, Option.bind_some]
    simp only [Machine.run_cons, Machine.run_nil, step, callerStep, flushAt, hh, hsem, h.semOpen,
      Option.isSome_none, Bool.false_eq_true, and_self, if_true, if_false, Option.bind_some]
  · obtain ⟨hq, hcl⟩ := h.hasher h' hh
    obtain ⟨s₂, hs₂, hend⟩ := hsent (some { h' with q := h'.q ++ [.queue ⟨id, p⟩] }) (by
      rintro _ ⟨⟩
      exact ⟨by rw [List.length_append, hq, List.length_singleton], hcl⟩)
    refine ⟨[.caller, .caller, .caller], i, _, s₂, (by simp), ?_, (by rfl), hs₂, hend⟩
    have hqlen : h'.q.length < c.opts.nParallel := hq ▸ hk
    rw [Machine.run_cons, hwrite, Option.bind_some]
    simp only [Machine.run_cons, Machine.run_nil, step, callerStep, flushAt, hh, hsem, h.semOpen,
      hashSend, hqlen, hcl, Option.isSome_some, and_self, if_true, Option.bind_some]

/-- The caller's own steps leave the wait group alone. -/
theorem run_grouped {as : List Act} (has : ∀ a ∈ as, a = .caller) {s₁ : AsyncWriter Z}
    (hrun : Machine.run (step c) s as = some s₁) (wg : WaitGroup) :
    Machine.run (groupedStep c) (.ok s wg) as = some (.ok s₁ wg) := by
  induction as generalizing s with
  | nil =>
      obtain rfl := Option.some.inj hrun
      rfl
  | cons a as ih =>
      obtain rfl := has a List.mem_cons_self
      obtain ⟨s', hs', hrest⟩ := Machine.run_cons_eq_some.mp hrun
      refine Machine.run_cons_eq_some.mpr ⟨.ok s' wg, ?_, ?_⟩
      · simp only [groupedStep, hs', wgStep]
      · exact ih (fun b hb => has b (List.mem_cons_of_mem _ hb)) hrest

/-- As long as the counter holds the tasks, blocks can be handed over without any of the tasks
moving. -/
theorem exists_handing {n : ℕ} {src : Bytes} (hsrc : src.length = n * c.opts.bsz)
    (hpos : 0 < initTasks c.opts) (hpar : 2 ^ 31 ≤ c.opts.nParallel) {k : ℕ} (hk : k ≤ n)
    (hlt : initTasks c.opts + k < 2 ^ 31) :
    ∃ as s wg, Machine.run (groupedStep c) (newGrouped Z c.opts [.write src]) as = some (.ok s wg)
      ∧ Handing c k (src.drop (k * c.opts.bsz)) s ∧ wg.count = initTasks c.opts + k := by
  induction k with
  | zero =>
      refine ⟨[.caller], { newAsyncWriter Z c.opts [.write src] with caller := .write src 0 },
        ⟨initTasks c.opts, initTasks c.opts⟩, ?_, ?_, (Int.add_zero _).symm⟩
      · rw [newGrouped_of_lt Z (by omega) (by omega)]
        rfl
      · refine ⟨⟨0, ?_⟩, rfl, ⟨0, rfl⟩, rfl, rfl, rfl, ?_, ?_, (Int.add_zero _).symm⟩
        · rw [Nat.zero_mul, List.drop_zero]
        · intro h hh
          change (if c.opts.contentChecksum then _ else _) = some h at hh
          split_ifs at hh
          obtain rfl := Option.some.inj hh
          exact ⟨rfl, rfl⟩
        · refine ⟨0, newTask Z c.opts, ?_, rfl⟩
          change (List.replicate _ (newTask Z c.opts))[0]? = _
          rw [List.getElem?_replicate, if_pos (by omega)]
  | succ k ih =>
      obtain ⟨as, s, wg, hrun, hs, hwg⟩ := ih (by omega) (by push_cast at hlt; omega)
      have hlen : (src.drop (k * c.opts.bsz)).length = (n - k) * c.opts.bsz := by
        rw [List.length_drop, hsrc, Nat.sub_mul]
      have hsplit := List.take_append_drop c.opts.bsz (src.drop (k * c.opts.bsz))
      have htake : ((src.drop (k * c.opts.bsz)).take c.opts.bsz).length = c.opts.bsz := by
        rw [List.length_take, hlen]
        exact Nat.min_eq_left (Nat.le_mul_of_pos_left _ (by omega))
      rw [← hsplit] at hs
      have hcount := hs.nTasks
      push_cast at hlt
      have hroom : s.nTasks < c.opts.nParallel := by omega
      obtain ⟨pre, i, s₁, s₂, hpre, hs₁, hn, hs₂, hend⟩ := hs.hand htake hroom hpos
      refine ⟨as ++ (pre ++ [.sendIn i]), s₂, ⟨wg.added + 1, wg.count + 1⟩, ?_, ?_, ?_⟩
      · refine Machine.run_append.mpr ⟨_, hrun,
          Machine.run_append.mpr ⟨_, run_grouped hpre hs₁ wg, ?_⟩⟩
        rw [Machine.run_singleton]
        simp only [groupedStep, hs₂, wgStep, hn, if_pos hroom]
        rw [WaitGroup.add_of_lt (by omega) (by omega)]
      · rwa [List.drop_drop, show k * c.opts.bsz + c.opts.bsz = (k + 1) * c.opts.bsz by
          rw [Nat.add_mul, Nat.one_mul]] at hend
      · push_cast
        omega

/-- **Where there may be more tasks than the counter holds**, enough blocks that no task takes
up make it overflow. -/
theorem not_fine_of_le (Z : Clz4) {c : WriterCfg} (hpar : 2 ^ 31 ≤ c.opts.nParallel) :
    ∃ script as g, Machine.run (groupedStep c) (newGrouped Z c.opts script) as = some g
      ∧ ¬ g.Fine c := by
  by_cases hstart : ∀ script, (newGrouped Z c.opts script).Fine c
  · have hpos := pos_of_newGrouped_fine (hstart [])
    by_cases hlt : initTasks c.opts < 2 ^ 31
    · obtain ⟨k, hk⟩ : ∃ k : ℕ, initTasks c.opts + k + 1 = 2 ^ 31 :=
        ⟨(2 ^ 31 - 1 - initTasks c.opts).toNat, by omega⟩
      have hsrc : (List.replicate ((k + 1) * c.opts.bsz) (0 : UInt8)).length
          = (k + 1) * c.opts.bsz :=
        List.length_replicate
      obtain ⟨as, s, wg, hrun, hs, hwg⟩ :=
        exists_handing (Z := Z) (c := c) hsrc hpos hpar (Nat.le_succ k)
        (by omega)
      have htake :
          ((List.replicate ((k + 1) * c.opts.bsz) (0 : UInt8)).drop (k * c.opts.bsz)).length
          = c.opts.bsz := by
        rw [List.length_drop, hsrc, Nat.add_mul, Nat.one_mul, Nat.add_sub_cancel_left]
      rw [← List.append_nil (List.drop _ _)] at hs
      have hcount := hs.nTasks
      have hroom : s.nTasks < c.opts.nParallel := by omega
      obtain ⟨pre, i, s₁, s₂, hpre, hs₁, hn, hs₂, -⟩ := hs.hand htake hroom hpos
      refine ⟨[.write (List.replicate ((k + 1) * c.opts.bsz) 0)], as ++ (pre ++ [.sendIn i]),
        .panicked, ?_, id⟩
      refine Machine.run_append.mpr ⟨_, hrun,
        Machine.run_append.mpr ⟨_, run_grouped hpre hs₁ wg, ?_⟩⟩
      rw [Machine.run_singleton]
      simp only [groupedStep, hs₂, wgStep, hn, if_pos hroom]
      rw [WaitGroup.add, show wg.count + 1 = 2 ^ 31 by omega, WaitGroup.wrap_overflow,
        if_pos (by decide)]
    · refine ⟨[], [], _, rfl, fun hfine => hlt ?_⟩
      unfold newGrouped at hfine
      split at hfine
      · rename_i wg hwg
        have hcount := hfine.1.count
        rw [alive_newAsyncWriter] at hcount
        have hwrap : wg.count < 2 ^ 31 := by
          rw [WaitGroup.add] at hwg
          split_ifs at hwg
          rw [← Option.some.inj hwg]
          exact WaitGroup.wrap_lt _
        omega
      · exact hfine.elim
  · obtain ⟨script, hscript⟩ := not_forall.mp hstart
    exact ⟨script, [], _, rfl, hscript⟩

/-! ## The number of workers -/

/-- **The number of workers.** In every run of a writer the tasks are counted right, and the
wait group is given no negative count, exactly if the content size as an `int` is not a block
or more below zero, and no more tasks are asked for than the counter of the wait group holds. -/
theorem worker_count_iff (Z : Clz4) (c : WriterCfg) (hpar : 1 ≤ c.opts.nParallel) :
    (∀ script as g, Machine.run (groupedStep c) (newGrouped Z c.opts script) as = some g → g.Fine c)
      ↔ SizeFits c.opts ∧ c.opts.nParallel < 2 ^ 31 := by
  rw [← initTasks_pos_iff hpar]
  constructor
  · intro hall
    refine ⟨pos_of_newGrouped_fine (hall [] [] _ rfl), ?_⟩
    by_contra hge
    obtain ⟨script, as, g, hrun, hnot⟩ := not_fine_of_le Z (Nat.le_of_not_lt hge)
    exact hnot (hall script as g hrun)
  · rintro ⟨hpos, hmax⟩ script as g hrun
    exact Machine.invariant_run (fun _ _ _ h hstep => fine_step hmax h hstep)
      (newGrouped_fine Z hpar hmax hpos script) hrun

theorem worker_count_one_write :
    ∃ g, Machine.run (groupedStep ⟨.default, .ok⟩)
        (newGrouped litEngine .default [.write [1], .close]) [.loop, .caller] = some g
      ∧ g.Fine ⟨.default, .ok⟩ := by
  have hfits : SizeFits OptsT.default := by
    rintro sz ⟨⟩
  exact ⟨_, rfl, (worker_count_iff litEngine ⟨.default, .ok⟩ (by decide)).mpr
    ⟨hfits, by decide⟩ [.write [1], .close] [.loop, .caller] _ rfl⟩

/-- `WithContentSize(sz)`. -/
def sizedOpts (sz : UInt64) : OptsT := { OptsT.default with contentSz := some sz }

/-- Two blocks below zero `Add` is given -1 and panics. One block below zero gives no panic but
no task either. Nor does 2^63: of the count, -2^41 + 1, the counter holds 1. -/
theorem worker_count_huge :
    newGrouped litEngine (sizedOpts 0xFFFFFFFFFF800000) [.write [1]] = .panicked
      ∧ (newAsyncWriter litEngine (sizedOpts 0xFFFFFFFFFFC00000) [.write [1]]).tasks = []
      ∧ newGrouped litEngine (sizedOpts 0x8000000000000000) [.write [1]]
        = .ok (newAsyncWriter litEngine (sizedOpts 0x8000000000000000) [.write [1]])
          ⟨-2 ^ 41 + 1, 1⟩
      ∧ (newAsyncWriter litEngine (sizedOpts 0x8000000000000000) [.write [1]]).tasks = [] := by
  have hnone : ∀ sz, initTasks (sizedOpts sz) ≤ 0 →
      (newAsyncWriter litEngine (sizedOpts sz) [.write [1]]).tasks = [] := by
    intro sz hle
    show List.replicate (initTasks (sizedOpts sz)).toNat (newTask litEngine (sizedOpts sz)) = []
    rw [Int.toNat_of_nonpos hle]
    rfl
  have hcount : initTasks (sizedOpts 0x8000000000000000) = -2 ^ 41 + 1 := by decide +kernel
  refine ⟨newGrouped_panics _ (by decide +kernel) _, hnone _ (by decide +kernel), ?_,
    hnone _ (by decide +kernel)⟩
  have hadd : (⟨0, 0⟩ : WaitGroup).add (-2 ^ 41 + 1) = some ⟨-2 ^ 41 + 1, 1⟩ := by decide +kernel
  simp only [newGrouped, hcount, hadd]

end AsyncWriter

end Plz4
