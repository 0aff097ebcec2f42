/-
Where the blocks of the asynchronous writer are.

A block that was handed over is with a task, in the hand of the write loop, in the
pending map, or its token is released. `weight` sums any function of the block numbers
over these places; `weight_step` says once what a step does to it, and that every block
has one place and that the semaphore is exact follow from it.
-/
import Plz4.AsyncWriterStep

set_option autoImplicit false

namespace Plz4

/-- The token the caller has, for a block it has not handed over. -/
def Caller.tokens : Caller → ℕ
  | .sendIn _ => 1
  | _ => 0

/-- The number of the block a task has. -/
def TaskAt.held : TaskAt → Option ℕ
  | .recv | .done => none
  | .check b => some b.idx
  | .free b out | .freeSend b out => some ((out.map OutBlk.idx).getD b.idx)
  | .release idx => some idx
  | .send out => some out.idx

/-- The number of the block in the hand of the write loop. -/
def Loop.held : Loop → Option ℕ
  | .got b | .write b | .kick b _ | .crashed b => some b.idx
  | _ => none

/-- The weight of the block a task has. -/
def Task.weigh {Z : Clz4} (f : ℕ → ℕ) (t : Task Z) : ℕ := t.loc.held.elim 0 f

/-- Where a step of the caller alone can start. -/
def Caller.starts : Caller → Bool
  | .idle | .write _ _ | .readFrom _ _ | .report _ | .flushEnd => true
  | _ => false

/-- Where it can end. -/
def Caller.ends : Caller → Bool
  | .idle | .write _ _ | .readFrom _ _ | .readErr _ _ | .report _ | .queue _ | .acquire _
  | .synSend | .closeSem => true
  | _ => false

theorem Caller.tokens_of_starts {x : Caller} (h : x.starts = true) : x.tokens = 0 := by
  cases x <;> first | rfl | cases h

theorem Caller.tokens_of_ends {x : Caller} (h : x.ends = true) : x.tokens = 0 := by
  cases x <;> first | rfl | cases h

namespace AsyncWriter

variable {Z : Clz4} {c : WriterCfg} {s s' : AsyncWriter Z} {a : Act}

/-- A weight summed over the blocks that hold a token. -/
def carried (f : ℕ → ℕ) (s : AsyncWriter Z) : ℕ :=
  (s.tasks.map (Task.weigh f)).sum + s.loop.held.elim 0 f
    + (s.pending.map (fun b => f b.idx)).sum

/-- The same with the blocks whose tokens are released. -/
def weight (f : ℕ → ℕ) (s : AsyncWriter Z) : ℕ := s.carried f + (s.released.map f).sum

/-- Task `i` moves; only its block counts. -/
theorem sum_held (f : ℕ → ℕ) {i : ℕ} {t : Task Z} (hi : s.tasks[i]? = some t) (t' : Task Z) :
    ((s.tasks.set i t').map (Task.weigh f)).sum + t.weigh f
      = (s.tasks.map (Task.weigh f)).sum + t'.weigh f :=
  Pool.sum_set _ hi t'

theorem held_afterFree (b : InBlkW) (out : Option OutBlk) :
    (afterFree b out).held = some ((out.map OutBlk.idx).getD b.idx) := by
  cases out <;> rfl

theorem idx_outOf (b : InBlkW) (id : ℕ) (ret : Except Err Bytes) : (outOf b id ret).idx = b.idx := by
  cases ret <;> rfl

theorem held_spawned (f : ℕ → ℕ) (o : OptsT) (s : AsyncWriter Z) :
    ((s.spawned o).map (Task.weigh f)).sum = 0 := by
  unfold spawned
  split_ifs <;> rfl

/-- **What a step does to the blocks.** A new one appears when the caller hands it over;
every other step leaves them all somewhere. -/
theorem weight_step (f : ℕ → ℕ) (hstep : Step c s a s') :
    s'.srcIdx = s.srcIdx ∧ s'.weight f = s.weight f
      ∨ s'.srcIdx = s.srcIdx + 1 ∧ s'.weight f = s.weight f + f s.srcIdx := by
  cases hstep with
  -- the one place where a number is given out
  | @sendIn i k b t hcaller hblk hi hloc hcl =>
      refine .inr ⟨rfl, ?_⟩
      have h := sum_held f hi { t with loc := .check ⟨s.srcIdx, b, if c.opts.blockLinked then s.dict else none⟩ }
      simp only [Task.weigh, hloc, TaskAt.held, Option.elim] at h
      simp only [weight, carried, sendInStep, List.map_append, List.sum_append, held_spawned]
      omega
  -- a task keeps its block from one state to the next, or passes it on
  | @exit i t hi hloc hcl =>
      refine .inl ⟨rfl, ?_⟩
      have h := sum_held f hi { t with loc := .done }
      simp only [Task.weigh, hloc, TaskAt.held, Option.elim] at h
      simp only [weight, carried]
      omega
  | @skip i t b hi hloc herr =>
      refine .inl ⟨rfl, ?_⟩
      have h := sum_held f hi { t with loc := .free b none }
      simp only [Task.weigh, hloc, TaskAt.held, Option.elim, Option.map_none, Option.getD_none] at h
      simp only [weight, carried]
      omega
  | @compress i t b ret cmp hi hloc herr hret =>
      refine .inl ⟨rfl, ?_⟩
      have h := sum_held f hi ⟨.free b (some (outOf b s.borrowed ret)), cmp⟩
      simp only [Task.weigh, hloc, TaskAt.held, Option.elim, Option.map_some, Option.getD_some, idx_outOf] at h
      simp only [weight, carried]
      omega
  | @freeAsk i t b out h hi hloc hh hnext =>
      refine .inl ⟨rfl, ?_⟩
      have h := sum_held f hi { t with loc := .freeSend b out }
      simp only [Task.weigh, hloc, TaskAt.held, Option.elim] at h
      simp only [weight, carried]
      omega
  | @freeNow i t b out hi hloc hnext =>
      refine .inl ⟨rfl, ?_⟩
      have h := sum_held f hi { t with loc := afterFree b out }
      simp only [Task.weigh, held_afterFree, hloc] at h
      simp only [TaskAt.held, Option.elim] at h
      simp only [weight, carried]
      omega
  | @freeSend i t b out h hi hloc hh hlen hcl =>
      refine .inl ⟨rfl, ?_⟩
      have h := sum_held f hi { t with loc := afterFree b out }
      simp only [Task.weigh, held_afterFree, hloc] at h
      simp only [TaskAt.held, Option.elim] at h
      simp only [weight, carried]
      omega
  | @release i idx t hi hloc hsem =>
      refine .inl ⟨rfl, ?_⟩
      have h := sum_held f hi { t with loc := .recv }
      simp only [Task.weigh, hloc, TaskAt.held, Option.elim] at h
      simp only [weight, carried, List.map_append, List.sum_append, List.map_singleton,
        List.sum_singleton]
      omega
  | @sendOut i t b hi hloc hloop hcl =>
      refine .inl ⟨rfl, ?_⟩
      have h := sum_held f hi { t with loc := .recv }
      simp only [Task.weigh, hloc, TaskAt.held, Option.elim] at h
      simp only [weight, carried, hloop, Loop.held, Option.elim]
      omega
  | gotPark hloop herr hidx =>
      refine .inl ⟨rfl, ?_⟩
      simp only [weight, carried, hloop, Loop.held, Option.elim, List.map_append, List.sum_append,
        List.map_singleton, List.sum_singleton]
      omega
  | kickDrop hloop hsem | kickErr hloop hsem | kickFail hloop hsem | kickLast hloop hsem hnone =>
      refine .inl ⟨rfl, ?_⟩
      simp only [weight, carried, kickBlock, hloop, Loop.held, Option.elim, List.map_append,
        List.sum_append, List.map_singleton, List.sum_singleton]
      omega
  | kickNext hloop hsem hmem hidx hfind =>
      refine .inl ⟨rfl, ?_⟩
      have h := Pool.sum_eraseP (fun b => f b.idx) hfind
      simp only [weight, carried, kickBlock, hloop, Loop.held, Option.elim, List.map_append,
        List.sum_append, List.map_singleton, List.sum_singleton]
      omega
  | drainKick hloop hpend hsem =>
      refine .inl ⟨rfl, ?_⟩
      simp only [weight, carried, kickBlock, hpend, List.map_append, List.sum_append,
        List.map_nil, List.sum_nil, List.map_cons, List.sum_cons]
      omega
  | finish hloop herr | abort hloop herr =>
      refine .inl ⟨rfl, ?_⟩
      simp only [weight, carried, hloop]
      split_ifs <;> rfl
  | hashWait hloop hh hex =>
      refine .inl ⟨rfl, ?_⟩
      simp only [weight, carried, hloop]
      split_ifs <;> rfl
  | header hloop hwr | headerFail hloop hwr | headerErr hloop | outClosed hloop hcl
  | gotDrop hloop herr | gotErr hloop herr hidx he | gotWrite hloop herr hidx he
  | write hloop hblk hwr | crash hloop hblk | setErr hloop | reply hloop hflush h
  | noReply hloop h | drained hloop hpend | hashDone hloop hh | trailer hloop hwr
  | trailerFail hloop hwr | trailerErr hloop | closeSyn hloop | synSend hcaller hloop hcl
  | synReply hcaller hloop hcl
  | synReplyJoin hcaller hloop hcl =>
      exact .inl ⟨rfl, by simp only [weight, carried, closeEnd, ret, hloop, Loop.held]⟩
  | _ => exact .inl ⟨rfl, rfl⟩

/-! ## One place for each block -/

/-- 1 for one block number. -/
def single (k : ℕ) (j : ℕ) : ℕ := if j = k then 1 else 0

theorem single_self (k : ℕ) : single k k = 1 := if_pos rfl

/-- Every block handed over has one place, and the tokens are those of the blocks. -/
structure Places (s : AsyncWriter Z) : Prop where
  one : ∀ k, s.weight (single k) = if k < s.srcIdx then 1 else 0
  all : s.weight (fun _ => 1) = s.srcIdx
  sem : s.sem + s.released.length = s.srcIdx + s.caller.tokens

theorem sum_map_one {α : Type*} (l : List α) : (l.map (fun _ => 1)).sum = l.length := by
  rw [List.map_const', List.sum_replicate, smul_eq_mul, mul_one]

/-- The tokens in the semaphore are those of the blocks that hold one, and the caller's. -/
theorem Places.tokens (h : Places s) : s.sem = s.carried (fun _ => 1) + s.caller.tokens := by
  have hall := h.all
  have hsem := h.sem
  rw [weight, sum_map_one] at hall
  omega

theorem Places.carried_le (h : Places s) (k : ℕ) : s.carried (single k) ≤ 1 := by
  have hone := h.one k
  rw [weight] at hone
  split_ifs at hone <;> omega

/-- What task `i` has counts. -/
theorem le_carried_task (f : ℕ → ℕ) {t : Task Z} (ht : t ∈ s.tasks) {k : ℕ}
    (hk : t.loc.held = some k) : f k ≤ s.carried f := by
  have h := Pool.le_sum_of_mem (Task.weigh f) ht
  rw [Task.weigh, hk, Option.elim] at h
  unfold carried
  omega

theorem le_carried_loop (f : ℕ → ℕ) {k : ℕ} (hk : s.loop.held = some k) : f k ≤ s.carried f := by
  unfold carried
  rw [hk, Option.elim]
  omega

theorem le_carried_pending (f : ℕ → ℕ) {b : OutBlk} (hb : b ∈ s.pending) :
    f b.idx ≤ s.carried f := by
  have h := Pool.le_sum_of_mem (fun b : OutBlk => f b.idx) hb
  unfold carried
  omega

/-- A block that is somewhere was handed over, and its token is not released. -/
theorem Places.of_carried (h : Places s) {k : ℕ} (hk : 1 ≤ s.carried (single k)) :
    k < s.srcIdx ∧ k ∉ s.released := by
  have hone := h.one k
  rw [weight] at hone
  refine ⟨?_, fun hmem => ?_⟩
  · by_contra hlt
    rw [if_neg hlt] at hone
    omega
  · have hrel := Pool.le_sum_of_mem (single k) hmem
    rw [single_self] at hrel
    split_ifs at hone <;> omega

theorem Places.task (h : Places s) {t : Task Z} (ht : t ∈ s.tasks) {k : ℕ}
    (hk : t.loc.held = some k) : k < s.srcIdx ∧ k ∉ s.released :=
  h.of_carried ((single_self k).symm.le.trans (le_carried_task (single k) ht hk))

theorem Places.inHand (h : Places s) {k : ℕ} (hk : s.loop.held = some k) :
    k < s.srcIdx ∧ k ∉ s.released :=
  h.of_carried ((single_self k).symm.le.trans (le_carried_loop (single k) hk))

theorem Places.parked (h : Places s) {b : OutBlk} (hb : b ∈ s.pending) :
    b.idx < s.srcIdx ∧ b.idx ∉ s.released :=
  h.of_carried ((single_self b.idx).symm.le.trans (le_carried_pending (single b.idx) hb))

/-- The block in the hand of the write loop is not in the pending map as well. -/
theorem Places.not_parked (h : Places s) {k : ℕ} (hk : s.loop.held = some k) {b : OutBlk}
    (hb : b ∈ s.pending) : b.idx ≠ k := by
  intro hidx
  have hle := h.carried_le k
  have hsum := Pool.le_sum_of_mem (fun b : OutBlk => single k b.idx) hb
  simp only [hidx, single_self] at hsum
  rw [carried, hk, Option.elim, single_self] at hle
  omega

/-- A block whose token is not released is with a task, in the hand of the write loop or
in the pending map. -/
theorem Places.find (h : Places s) {k : ℕ} (hk : k < s.srcIdx) (hrel : k ∉ s.released) :
    (∃ t ∈ s.tasks, t.loc.held = some k) ∨ s.loop.held = some k ∨ ∃ b ∈ s.pending, b.idx = k := by
  have hone := h.one k
  rw [if_pos hk, weight, carried] at hone
  by_contra hno
  simp only [not_or, not_exists, not_and] at hno
  obtain ⟨htask, hloop, hpend⟩ := hno
  have hz : ∀ o : Option ℕ, o ≠ some k → o.elim 0 (single k) = 0 := by
    intro o ho
    rcases o with _ | j
    · rfl
    · exact if_neg (fun hj => ho (congrArg some hj))
  have h1 : (s.tasks.map (Task.weigh (single k))).sum = 0 :=
    List.sum_eq_zero (by
      intro x hx
      obtain ⟨t, ht, rfl⟩ := List.mem_map.mp hx
      exact hz _ (htask t ht))
  have h2 : (s.pending.map (fun b => single k b.idx)).sum = 0 :=
    List.sum_eq_zero (by
      intro x hx
      obtain ⟨b, hb, rfl⟩ := List.mem_map.mp hx
      exact if_neg (hpend b hb))
  have h3 : (s.released.map (single k)).sum = 0 :=
    List.sum_eq_zero (by
      intro x hx
      obtain ⟨j, hj, rfl⟩ := List.mem_map.mp hx
      unfold single
      rw [if_neg]
      rintro rfl
      exact hrel hj)
  rw [h1, h2, h3, hz _ hloop] at hone
  omega

/-- A block that is somewhere keeps a token in the semaphore. -/
theorem Places.sem_pos_task (h : Places s) {t : Task Z} (ht : t ∈ s.tasks) {k : ℕ}
    (hk : t.loc.held = some k) : 0 < s.sem := by
  have := le_carried_task (fun _ => 1) ht hk
  have := h.tokens
  omega

theorem Places.sem_pos_loop (h : Places s) {k : ℕ} (hk : s.loop.held = some k) : 0 < s.sem := by
  have := le_carried_loop (fun _ => 1) hk
  have := h.tokens
  omega

theorem Places.sem_pos_pending (h : Places s) {b : OutBlk} (hb : b ∈ s.pending) : 0 < s.sem := by
  have := le_carried_pending (fun _ => 1) hb
  have := h.tokens
  omega

theorem Reports.starts {n : ℕ} (h : Reports s n) : s.caller.starts = true := by
  cases h with
  | write hcaller _ => rw [hcaller]; rfl
  | readFrom hcaller _ => rw [hcaller]; rfl
  | report hcaller => rw [hcaller]; rfl
  | flushEnd hcaller => rw [hcaller]; rfl
  | flush hcaller _ _ => rw [hcaller]; rfl
  | close hcaller _ _ => rw [hcaller]; rfl

/-- Where a step of the caller alone starts. -/
theorem Local.starts {x : Caller} {script : List WCall} {b : Option Blk} {rep : Bool}
    {rs : List CallRes} {es : List Err} (h : Local c s x script b rep rs es) :
    s.caller.starts = true := by
  cases h with
  | report h => exact h.starts
  | write hcaller | readFrom hcaller | flushBlk hcaller | flushNone hcaller | flushSyn hcaller
  | closeBlk hcaller | close hcaller | writeFull hcaller | writeMore hcaller | readFull hcaller
  | readShort hcaller | readEof hcaller | readFail hcaller => rw [hcaller]; rfl

/-- Where it ends. -/
theorem Local.ends {x : Caller} {script : List WCall} {b : Option Blk} {rep : Bool}
    {rs : List CallRes} {es : List Err} (h : Local c s x script b rep rs es) : x.ends = true := by
  have hflush : ∀ k, (s.flushAt k).ends = true := by
    intro k
    unfold flushAt
    split_ifs <;> rfl
  cases h with
  | flushBlk | closeBlk | writeFull | readFull => exact hflush _
  | _ => rfl

/-- It does not take the block buffer away, nor bring it back. -/
theorem Local.srcBlk {x : Caller} {script : List WCall} {b : Option Blk} {rep : Bool}
    {rs : List CallRes} {es : List Err} (h : Local c s x script b rep rs es) :
    b = none ↔ s.srcBlk = none := by
  have hfill : ∀ d, s.fill d = none ↔ s.srcBlk = none := by
    intro d
    unfold fill
    exact Option.map_eq_none_iff
  cases h with
  | writeFull | writeMore | readFull | readShort | readEof | readFail => exact hfill _
  | _ => exact Iff.rfl

/-! ## The semaphore -/

/-- The tokens taken and given back over a step. -/
theorem tokens_step (h : Places s) (hstep : Step c s a s') :
    s'.sem + s'.released.length = s'.srcIdx + s'.caller.tokens := by
  have hsem := h.sem
  have hresume : ∀ k : Then, (resumeAt k).tokens = 0 := by
    rintro (_ | _ | _ | _) <;> rfl
  cases hstep with
  | @loc x script b rep rs es hl =>
      have h1 := Caller.tokens_of_starts hl.starts
      have h2 := Caller.tokens_of_ends hl.ends
      show s.sem + s.released.length = s.srcIdx + x.tokens
      omega
  | acquire hcaller hlt hcl =>
      rw [hcaller] at hsem
      show s.sem + 1 + s.released.length = s.srcIdx + 1
      change s.sem + s.released.length = s.srcIdx + 0 at hsem
      omega
  | @sendIn i k b t hcaller hblk hi hloc hcl =>
      rw [hcaller] at hsem
      show s.sem + s.released.length = s.srcIdx + 1 + (resumeAt k).tokens
      rw [hresume]
      exact hsem
  -- a token given back is one that was there: its block is still counted
  | @release i idx t hi hloc hlt =>
      have hpos := h.sem_pos_task (List.mem_of_getElem? hi) (k := idx) (by rw [hloc]; rfl)
      show s.sem - 1 + (s.released ++ [idx]).length = s.srcIdx + s.caller.tokens
      rw [List.length_append, List.length_singleton]
      omega
  | @kickDrop b hloop hlt | @kickErr b _ hloop hlt | @kickFail b _ hloop hlt
  | @kickLast b hloop hlt _ | @kickNext b _ hloop hlt _ _ _ =>
      have hpos := h.sem_pos_loop (k := b.idx) (by rw [hloop]; rfl)
      show s.sem - 1 + (s.released ++ [b.idx]).length = s.srcIdx + s.caller.tokens
      rw [List.length_append, List.length_singleton]
      omega
  | @drainKick b pending hloop hpend hlt =>
      have hpos := h.sem_pos_pending (b := b) (by rw [hpend]; exact List.mem_cons_self)
      show s.sem - 1 + (s.released ++ [b.idx]).length = s.srcIdx + s.caller.tokens
      rw [List.length_append, List.length_singleton]
      omega
  | readErr hcaller | queue hcaller | closeSem hcaller | closeIn hcaller | wgWait hcaller
  | recvClosed hcaller | join hcaller | synSend hcaller | synReply hcaller | synReplyJoin hcaller =>
      rw [hcaller] at hsem
      exact hsem
  | _ => exact hsem

/-- **Every step keeps the places.** -/
theorem Places.step (h : Places s) (hstep : Step c s a s') : Places s' := by
  refine ⟨fun k => ?_, ?_, tokens_step h hstep⟩
  · have hone := h.one k
    rcases weight_step (single k) hstep with ⟨hidx, hw⟩ | ⟨hidx, hw⟩
    · rw [hw, hidx, hone]
    · rw [hw, hidx, hone]
      unfold single
      split_ifs <;> omega
  · have hall := h.all
    rcases weight_step (fun _ => 1) hstep with ⟨hidx, hw⟩ | ⟨hidx, hw⟩ <;> omega

theorem places_newAsyncWriter (Z : Clz4) (o : OptsT) (script : List WCall) :
    Places (newAsyncWriter Z o script) := by
  have hzero : ∀ f : ℕ → ℕ, (newAsyncWriter Z o script).weight f = 0 := by
    intro f
    have htasks : ((List.replicate (initTasks o).toNat (newTask Z o)).map (Task.weigh f)).sum = 0 := by
      rw [List.map_replicate, List.sum_replicate]
      exact Nat.mul_zero _
    unfold weight carried
    simp only [newAsyncWriter, htasks, Loop.held, Option.elim, List.map_nil, List.sum_nil,
      Nat.add_zero]
  exact ⟨fun k => hzero _, hzero _, rfl⟩

end AsyncWriter

end Plz4
