/-
The asynchronous writer uses its hasher as `HashUse` says.

Every run of the writer is, for the hasher, a run of `HashUse`: the caller queues the blocks
in the order of their index before it hands them over, each is freed by the task that has it,
and the write loop calls `Done` when the tasks are gone.
-/
import Plz4.AsyncHashIdx

set_option autoImplicit false

namespace Plz4

/-- The source block whose `Free` is still to come, with its index. -/
def TaskAt.holds : TaskAt → List (ℕ × Blk)
  | .check b | .free b _ => [(b.idx, b.blk)]
  | _ => []

/-- The source block that `Free` is sending. -/
def TaskAt.sends : TaskAt → List Blk
  | .freeSend b _ => [b.blk]
  | _ => []

namespace AsyncWriter

variable {Z : Clz4} {c : WriterCfg} {s s' : AsyncWriter Z} {a : Act} {u : HashUse}

/-! ## One hasher -/

/-- The hasher's channel is that of `HashUse`. -/
theorem hashSend_eq (c : WriterCfg) (s : AsyncWriter Z) (r : Ref) :
    s.hashSend c r = (s.hasher.bind (fun h => h.send c.opts.nParallel r)).map some := by
  unfold hashSend HasherIdx.send
  rcases s.hasher with _ | h
  · rfl
  · show (if _ then _ else _ : Option (Option HasherIdx)) = Option.map some (if _ then _ else _)
    split_ifs <;> rfl

/-- So is its goroutine. -/
theorem hasherStep_eq (s : AsyncWriter Z) :
    s.hasherStep = (s.hasher.bind HasherIdx.step).map
      (fun x => { s with hasher := some x.1, returned := s.returned ++ x.2 }) := by
  unfold hasherStep HasherIdx.step
  rcases hh : s.hasher with _ | h
  · rfl
  · rw [Option.bind_some]
    by_cases hbusy : h.busy = true
    · simp only [if_pos hbusy, Option.map_some, List.append_nil]
    · simp only [if_neg hbusy]
      rcases hq : h.q with _ | ⟨r, q⟩
      · simp only
        split_ifs
        · simp only [Option.map_some, List.append_nil]
        · rfl
      · rcases r with b | b <;> simp only [Option.map_some, List.append_nil]

/-- And `Free`. -/
theorem asks_eq (s : AsyncWriter Z) (idx : ℕ) :
    s.hasher.any (fun h => h.next ≤ idx) = s.hasher.any (fun h => h.asks idx) := rfl

/-! ## The simulation -/

/-- The block the caller has queued and not yet handed over. -/
def awaited (s : AsyncWriter Z) : List (ℕ × Blk) :=
  if s.caller.hashed then s.srcBlk.toList.map (fun b => (s.srcIdx, b)) else []

/-- The writer, and how far its hasher is. -/
structure Uses (s : AsyncWriter Z) (u : HashUse) : Prop where
  h : s.hasher = some u.h
  data : u.blks.map Blk.data = s.handed
  older : ∀ b ∈ u.blks, b.id < s.borrowed
  fresh : ∀ b, s.srcBlk = some b →
    b.id < s.borrowed ∧ (s.caller.hashed = false → b.id ∉ u.blks.map Blk.id)
  held : ∀ x, u.held.count x
    = (s.tasks.map (fun t => t.loc.holds.count x)).sum + s.awaited.count x
  asked : ∀ b, u.asked.count b = (s.tasks.map (fun t => t.loc.sends.count b)).sum
  returned : u.returned.Sublist s.returned
  result : s.loop.joined = false → u.result = none
  trailer : ∀ xxh, s.loop = .trailer xxh → xxh = u.result

/-- Task `i` moves from `x` to `y`. -/
theorem count_set {β : Type} [BEq β] (f : TaskAt → List β) {i : ℕ} {t : Task Z} {x : TaskAt}
    (hi : s.tasks[i]? = some t) (hloc : t.loc = x) (y : TaskAt) (cmp : Compressor Z) (k : β) :
    ((s.tasks.set i ⟨y, cmp⟩).map (fun t => (f t.loc).count k)).sum + (f x).count k
      = (s.tasks.map (fun t => (f t.loc).count k)).sum + (f y).count k := by
  rw [← hloc]
  exact Pool.sum_set (fun t : Task Z => (f t.loc).count k) hi ⟨y, cmp⟩

theorem count_spawned {β : Type} [BEq β] (f : TaskAt → List β) (hf : f .recv = []) (o : OptsT)
    (s : AsyncWriter Z) (k : β) :
    ((s.spawned o).map (fun t => (f t.loc).count k)).sum = 0 := by
  unfold spawned
  split_ifs
  · rw [List.map_singleton, List.sum_singleton]
    show (f .recv).count k = 0
    rw [hf]
    rfl
  · rfl

theorem holds_free (b : InBlkW) (out : Option OutBlk) :
    (TaskAt.free b out).holds = [(b.idx, b.blk)] := rfl

theorem sends_freeSend (b : InBlkW) (out : Option OutBlk) :
    (TaskAt.freeSend b out).sends = [b.blk] := rfl

theorem holds_afterFree (b : InBlkW) (out : Option OutBlk) : (afterFree b out).holds = [] := by
  rcases out with _ | out <;> rfl

theorem sends_afterFree (b : InBlkW) (out : Option OutBlk) : (afterFree b out).sends = [] := by
  rcases out with _ | out <;> rfl

/-- What is not awaited. -/
theorem awaited_of_not (h : s.caller.hashed = false) : s.awaited = [] := by
  unfold awaited
  rw [h, if_neg Bool.false_ne_true]

/-- A step that the hasher does not see: it stays as it is, the blocks stay where they are,
and a block queued is still the one queued. -/
theorem Uses.stutter (h : Uses s u) (hh : s'.hasher = s.hasher) (hblks : s'.blks = s.blks)
    (hidx : s'.srcIdx = s.srcIdx) (hborrowed : s.borrowed ≤ s'.borrowed)
    (hcaller : s'.caller.hashed = s.caller.hashed)
    (hblk : s'.srcBlk = s.srcBlk
      ∨ s.caller.hashed = false ∧ ids s'.srcBlk <+: ids s.srcBlk)
    (hholds : ∀ x, (s'.tasks.map (fun t => t.loc.holds.count x)).sum
      = (s.tasks.map (fun t => t.loc.holds.count x)).sum)
    (hsends : ∀ b, (s'.tasks.map (fun t => t.loc.sends.count b)).sum
      = (s.tasks.map (fun t => t.loc.sends.count b)).sum)
    (hret : s.returned.Sublist s'.returned)
    (hjoined : s'.loop.joined = false → s.loop.joined = false)
    (htrailer : ∀ xxh, s'.loop = .trailer xxh → xxh = u.result) : Uses s' u := by
  have hkept : s'.handed = s.handed ∧ s'.awaited = s.awaited := by
    rcases hblk with hsame | ⟨hnot, -⟩
    · unfold handed awaited cur
      rw [hcaller, hsame, hblks, hidx]
      exact ⟨rfl, rfl⟩
    · have hnot' := hcaller.trans hnot
      rw [handed_of_not hnot', handed_of_not hnot, awaited_of_not hnot', awaited_of_not hnot]
      exact ⟨hblks, rfl⟩
  refine ⟨hh.trans h.h, h.data.trans hkept.1.symm, ?_, ?_, ?_, ?_, h.returned.trans hret, ?_,
    htrailer⟩
  · exact fun b hb => (h.older b hb).trans_le hborrowed
  · intro b hb
    -- the buffer is the one it was, or what is left of it
    obtain ⟨b₀, hb₀, hid⟩ : ∃ b₀, s.srcBlk = some b₀ ∧ b.id = b₀.id := by
      rcases hblk with hsame | ⟨-, hpre⟩
      · exact ⟨b, hsame.symm.trans hb, rfl⟩
      · rw [hb] at hpre
        have hmem := hpre.subset (List.mem_singleton_self b.id)
        obtain ⟨b₀, hb₀, hid⟩ := List.mem_map.mp hmem
        exact ⟨b₀, Option.mem_toList.mp hb₀, hid.symm⟩
    obtain ⟨hlt, hnot⟩ := h.fresh b₀ hb₀
    rw [hid, hcaller]
    exact ⟨hlt.trans_le hborrowed, hnot⟩
  · intro x
    rw [hholds, hkept.2]
    exact h.held x
  · intro b
    rw [hsends]
    exact h.asked b
  · exact fun hj => h.result (hjoined hj)

/-- The hasher alone moves, or the write loop with it. -/
theorem Uses.hasher (h : Uses s u) {hh : HasherIdx} {sr ur : List ℕ} {l : Loop}
    (hret : ur.Sublist sr) (hjoined : l.joined = false → s.loop.joined = false)
    (htrailer : ∀ xxh, l = .trailer xxh → xxh = u.result) :
    Uses { s with hasher := some hh, returned := sr, loop := l }
      { u with h := hh, returned := ur } where
  h := rfl
  data := h.data
  older := h.older
  fresh := h.fresh
  held := h.held
  asked := h.asked
  returned := hret
  result := fun hj => h.result (hjoined hj)
  trailer := htrailer

/-- Task `i` moves and keeps what it has. -/
theorem count_move {β : Type} [BEq β] (f : TaskAt → List β) {i : ℕ} {t : Task Z} {x y : TaskAt}
    (hi : s.tasks[i]? = some t) (hloc : t.loc = x) (hf : f x = f y) (cmp : Compressor Z) (k : β) :
    ((s.tasks.set i ⟨y, cmp⟩).map (fun t => (f t.loc).count k)).sum
      = (s.tasks.map (fun t => (f t.loc).count k)).sum := by
  have hset := count_set f hi hloc y cmp k
  rw [hf] at hset
  omega

/-- A task whose `Free` is to come. -/
theorem Uses.mem_held (h : Uses s u) {t : Task Z} (ht : t ∈ s.tasks) {x : ℕ × Blk}
    (hx : t.loc.holds = [x]) : x ∈ u.held := by
  apply List.count_pos_iff.mp
  have hle := Pool.le_sum_of_mem (fun t : Task Z => t.loc.holds.count x) ht
  have hone : t.loc.holds.count x = 1 := by
    rw [hx]
    exact List.count_singleton_self
  have hcount := h.held x
  omega

/-- A task in which `Free` is sending. -/
theorem Uses.mem_asked (h : Uses s u) {t : Task Z} (ht : t ∈ s.tasks) {b : Blk}
    (hb : t.loc.sends = [b]) : b ∈ u.asked := by
  apply List.count_pos_iff.mp
  have hle := Pool.le_sum_of_mem (fun t : Task Z => t.loc.sends.count b) ht
  have hone : t.loc.sends.count b = 1 := by
    rw [hb]
    exact List.count_singleton_self
  have hcount := h.asked b
  omega

/-- When the tasks are gone every `Free` has returned. -/
theorem Uses.freed (h : Uses s u) (htasks : ∀ t ∈ s.tasks, t.loc = .done)
    (hcaller : s.caller.hashed = false) : u.held = [] ∧ u.asked = [] := by
  have hsum : ∀ {β : Type} [BEq β] (f : TaskAt → List β) (k : β), f .done = [] →
      (s.tasks.map (fun t => (f t.loc).count k)).sum = 0 := by
    intro β _ f k hf
    rw [List.sum_eq_zero_iff]
    intro n hn
    obtain ⟨t, ht, rfl⟩ := List.mem_map.mp hn
    rw [htasks t ht, hf]
    rfl
  constructor
  · rw [List.eq_nil_iff_forall_not_mem]
    intro x
    rw [← List.count_eq_zero, h.held, hsum TaskAt.holds x rfl, awaited_of_not hcaller]
    rfl
  · rw [List.eq_nil_iff_forall_not_mem]
    intro b
    rw [← List.count_eq_zero, h.asked, hsum TaskAt.sends b rfl]

/-- What the writer's step is for the hasher. -/
def Follows (c : WriterCfg) (s' : AsyncWriter Z) (u : HashUse) : Prop :=
  ∃ bs u', Machine.run (HashUse.step c.opts.nParallel) u bs = some u' ∧ Uses s' u'

theorem Follows.none (h : Uses s' u) : Follows c s' u := ⟨[], u, rfl, h⟩

theorem Follows.one {u' : HashUse} {b : HashUse.Act} (hu : HashUse.Step c.opts.nParallel u b u')
    (h : Uses s' u') : Follows c s' u :=
  ⟨[b], u', (Machine.run_singleton u b).trans hu.step_eq, h⟩

/-- A block is queued, and handed over next. -/
theorem Uses.queue (h : Uses s u) (hlen : s.blks.length = s.srcIdx) {k : Then} {b : Blk}
    (hcaller : s.caller = .queue k) (hblk : s.srcBlk = some b) {hh : HasherIdx} :
    Uses { s with hasher := some hh, caller := .acquire k }
      { u with h := hh, blks := u.blks ++ [b], held := u.held ++ [(u.blks.length, b)] } := by
  have hnot : s.caller.hashed = false := by rw [hcaller]; rfl
  have hdata : u.blks.map Blk.data = s.blks := h.data.trans (handed_of_not hnot)
  have hidx : u.blks.length = s.srcIdx := by rw [← hlen, ← hdata, List.length_map]
  have hlt := (h.fresh b hblk).1
  refine ⟨rfl, ?_, ?_, ?_, ?_, h.asked, h.returned, h.result, h.trailer⟩
  · show (u.blks ++ [b]).map Blk.data = s.blks ++ [s.cur]
    rw [List.map_append, hdata, cur, hblk]
    rfl
  · intro b' hb'
    rcases List.mem_append.mp hb' with hb' | hb'
    · exact h.older b' hb'
    · rw [List.mem_singleton.mp hb']
      exact hlt
  · intro b' hb'
    refine ⟨(h.fresh b' hb').1, ?_⟩
    rintro ⟨⟩
  · intro x
    show (u.held ++ [(u.blks.length, b)]).count x
      = (s.tasks.map (fun t => t.loc.holds.count x)).sum
        + (s.srcBlk.toList.map (fun b => (s.srcIdx, b))).count x
    have hold := h.held x
    rw [awaited_of_not hnot, List.count_nil, Nat.add_zero] at hold
    rw [List.count_append, hold, hidx, hblk]
    rfl

/-- The block is handed over. -/
theorem Uses.sendIn (h : Uses s u) {i : ℕ} {k : Then} {b : Blk} {t : Task Z}
    (hcaller : s.caller = .sendIn k) (hblk : s.srcBlk = some b) (hi : s.tasks[i]? = some t)
    (hloc : t.loc = .recv) : Uses (s.sendInStep c i t b k) u := by
  have hnot := hashed_resumeAt k
  have hborrowed : s.borrowed ≤ if c.opts.blockLinked then s.borrowed + 1 else s.borrowed := by
    split_ifs
    · exact Nat.le_succ _
    · exact le_rfl
  have hholds : ∀ dict x,
      ((s.tasks.set i ⟨.check ⟨s.srcIdx, b, dict⟩, t.cmp⟩ ++ s.spawned c.opts).map
        (fun t => t.loc.holds.count x)).sum
      = (s.tasks.map (fun t => t.loc.holds.count x)).sum + [(s.srcIdx, b)].count x := by
    intro dict x
    have hset := count_set TaskAt.holds hi hloc (.check ⟨s.srcIdx, b, dict⟩) t.cmp x
    rw [List.map_append, List.sum_append, count_spawned TaskAt.holds rfl]
    exact hset
  have hsends : ∀ dict y,
      ((s.tasks.set i ⟨.check ⟨s.srcIdx, b, dict⟩, t.cmp⟩ ++ s.spawned c.opts).map
        (fun t => t.loc.sends.count y)).sum
      = (s.tasks.map (fun t => t.loc.sends.count y)).sum := by
    intro dict y
    rw [List.map_append, List.sum_append, count_spawned TaskAt.sends rfl, Nat.add_zero]
    exact count_move TaskAt.sends hi hloc (by rfl) t.cmp y
  refine ⟨h.h, ?_, ?_, ?_, ?_, ?_, h.returned, h.result, h.trailer⟩
  · -- the block counted as handed over already, as it was queued before
    rw [h.data, handed_of_not (s := s.sendInStep c i t b k) hnot]
    unfold handed cur
    rw [hcaller, hblk]
    rfl
  · intro b' hb'
    exact (h.older b' hb').trans_le (hborrowed.trans (Nat.le_succ _))
  · intro b' hb'
    obtain rfl := Option.some.inj hb'
    refine ⟨Nat.lt_succ_self _, fun _ hmem => ?_⟩
    -- the new buffer has a number no block before it has
    obtain ⟨b₀, hb₀, hid⟩ := List.mem_map.mp hmem
    have hlt := h.older b₀ hb₀
    rw [hid] at hlt
    exact absurd hlt (Nat.not_lt.mpr hborrowed)
  · intro x
    have hold := h.held x
    unfold awaited at hold
    rw [hcaller, hblk] at hold
    rw [awaited_of_not (s := s.sendInStep c i t b k) hnot, List.count_nil, Nat.add_zero, hold]
    exact (hholds _ x).symm
  · intro y
    rw [h.asked y]
    exact (hsends _ y).symm

/-- **Every step of the writer is one of `HashUse`, or none.** -/
theorem Uses.step (h : Uses s u) (hs : Sound c s) (hstep : Step c s a s') : Follows c s' u := by
  have hheq : ∀ {hh : HasherIdx}, s.hasher = some hh → hh = u.h :=
    fun hsome => Option.some.inj (hsome.symm.trans h.h)
  cases hstep with
  -- the caller alone: what it does before `queue` does not concern the hasher
  | loc hl =>
      have hsome : s.hasher.isSome = true := by rw [h.h]; rfl
      refine .none (h.stutter rfl rfl rfl le_rfl ?_ (.inr ⟨?_, ?_⟩) (fun _ => rfl) (fun _ => rfl)
        (List.Sublist.refl _) id h.trailer)
      · exact (hl.not_hashed hsome).trans (Caller.hashed_of_starts hl.starts).symm
      · exact Caller.hashed_of_starts hl.starts
      · show ids _ <+: _
        rw [hl.ids]
  | readErr hcaller | closeSem hcaller | closeIn hcaller | wgWait hcaller | recvClosed hcaller
  | acquire hcaller =>
      exact .none (h.stutter rfl rfl rfl le_rfl (by rw [hcaller]; rfl) (.inl rfl) (fun _ => rfl)
        (fun _ => rfl) (List.Sublist.refl _) id h.trailer)
  | join hcaller =>
      exact .none (h.stutter rfl rfl rfl le_rfl (by rw [hcaller]; rfl)
        (.inr ⟨by rw [hcaller]; rfl, List.nil_prefix⟩) (fun _ => rfl) (fun _ => rfl)
        ((List.sublist_append_left _ _).trans (List.sublist_append_left _ _)) id h.trailer)
  | synReplyJoin hcaller hloop =>
      exact .none (h.stutter rfl rfl rfl le_rfl (by rw [hcaller]; rfl)
        (.inr ⟨by rw [hcaller]; rfl, List.nil_prefix⟩) (fun _ => rfl) (fun _ => rfl)
        ((List.sublist_append_left _ _).trans (List.sublist_append_left _ _))
        (fun _ => by rw [hloop]; rfl) (by rintro _ ⟨⟩))
  | synSend hcaller hloop | synReply hcaller hloop =>
      exact .none (h.stutter rfl rfl rfl le_rfl (by rw [hcaller]; rfl) (.inl rfl) (fun _ => rfl)
        (fun _ => rfl) (List.Sublist.refl _) (fun _ => by rw [hloop]; rfl) (by rintro _ ⟨⟩))
  -- the steps that are one of `HashUse`
  | queue hcaller hblk hsome hlen hcl =>
      obtain rfl := hheq hsome
      have hid := (h.fresh _ hblk).2 (by rw [hcaller]; rfl)
      exact .one (.queue hcl hid hlen) (h.queue hs.values.length hcaller hblk)
  | sendIn hcaller hblk hi hloc => exact .none (h.sendIn hcaller hblk hi hloc)
  | exit hi hloc | skip hi hloc | release hi hloc =>
      exact .none (h.stutter rfl rfl rfl le_rfl rfl (.inl rfl)
        (count_move TaskAt.holds hi hloc (by rfl) _) (count_move TaskAt.sends hi hloc (by rfl) _)
        (List.Sublist.refl _) id h.trailer)
  | compress hi hloc =>
      exact .none (h.stutter rfl rfl rfl (Nat.le_succ _) rfl (.inl rfl)
        (count_move TaskAt.holds hi hloc (by rfl) _) (count_move TaskAt.sends hi hloc (by rfl) _)
        (List.sublist_append_left _ _) id h.trailer)
  | sendOut hi hloc hloop =>
      exact .none (h.stutter rfl rfl rfl le_rfl rfl (.inl rfl)
        (count_move TaskAt.holds hi hloc (by rfl) _) (count_move TaskAt.sends hi hloc (by rfl) _)
        (List.Sublist.refl _) (fun _ => by rw [hloop]; rfl) (by rintro _ ⟨⟩))
  | @freeAsk i t b out hh hi hloc hsome hnext =>
      obtain rfl := hheq hsome
      have hmem : (b.idx, b.blk) ∈ u.held :=
        h.mem_held (List.mem_of_getElem? hi) (by rw [hloc]; rfl)
      refine .one (.freeAsk hmem hnext) ⟨h.h, h.data, h.older, h.fresh, ?_, ?_, ?_, h.result,
        h.trailer⟩
      · intro x
        have hset := count_set TaskAt.holds hi hloc (.freeSend b out) t.cmp x
        have herase := HashUse.count_erase id hmem x
        have hold := h.held x
        have hnil : (TaskAt.freeSend b out).holds.count x = 0 := List.count_nil
        rw [holds_free] at hset
        simp only [List.map_id, id] at herase
        show (u.held.erase (b.idx, b.blk)).count x
          = ((s.tasks.set i ⟨.freeSend b out, t.cmp⟩).map (fun t => t.loc.holds.count x)).sum
            + s.awaited.count x
        omega
      · intro y
        have hset := count_set TaskAt.sends hi hloc (.freeSend b out) t.cmp y
        have hold := h.asked y
        have hnil : (TaskAt.free b out).sends.count y = 0 := List.count_nil
        rw [sends_freeSend] at hset
        show (u.asked ++ [b.blk]).count y
          = ((s.tasks.set i ⟨.freeSend b out, t.cmp⟩).map (fun t => t.loc.sends.count y)).sum
        rw [List.count_append]
        omega
      · exact h.returned.trans (List.sublist_append_left _ _)
  | @freeNow i t b out hi hloc hnext =>
      have hmem : (b.idx, b.blk) ∈ u.held :=
        h.mem_held (List.mem_of_getElem? hi) (by rw [hloc]; rfl)
      refine .one (.freeNow hmem (hnext _ h.h)) ⟨h.h, h.data, h.older, h.fresh, ?_, ?_, ?_,
        h.result, h.trailer⟩
      · intro x
        have hset := count_set TaskAt.holds hi hloc (afterFree b out) t.cmp x
        have herase := HashUse.count_erase id hmem x
        have hold := h.held x
        rw [holds_afterFree, holds_free, List.count_nil] at hset
        simp only [List.map_id, id] at herase
        show (u.held.erase (b.idx, b.blk)).count x
          = ((s.tasks.set i ⟨afterFree b out, t.cmp⟩).map (fun t => t.loc.holds.count x)).sum
            + s.awaited.count x
        omega
      · intro y
        rw [h.asked y]
        exact (count_move TaskAt.sends hi hloc (sends_afterFree b out).symm t.cmp y).symm
      · exact (h.returned.trans (List.sublist_append_left _ _)).append (List.Sublist.refl _)
  | @freeSend i t b out hh hi hloc hsome hlen hcl =>
      obtain rfl := hheq hsome
      have hmem : b.blk ∈ u.asked := h.mem_asked (List.mem_of_getElem? hi) (by rw [hloc]; rfl)
      refine .one (.freeSend hmem hcl hlen) ⟨rfl, h.data, h.older, h.fresh, ?_, ?_, h.returned,
        h.result, h.trailer⟩
      · intro x
        rw [h.held x]
        have hmove := count_move TaskAt.holds hi hloc (holds_afterFree b out).symm t.cmp x
        exact congrArg (fun n => n + s.awaited.count x) hmove.symm
      · intro y
        have hset := count_set TaskAt.sends hi hloc (afterFree b out) t.cmp y
        have herase := HashUse.count_erase id hmem y
        have hold := h.asked y
        rw [sends_afterFree, sends_freeSend, List.count_nil] at hset
        simp only [List.map_id, id] at herase
        show (u.asked.erase b.blk).count y
          = ((s.tasks.set i ⟨afterFree b out, t.cmp⟩).map (fun t => t.loc.sends.count y)).sum
        omega
  | hashBump hsome hbusy =>
      obtain rfl := hheq hsome
      exact .one (.bump hbusy) (h.hasher h.returned id h.trailer)
  | hashQueue hsome hbusy hq =>
      obtain rfl := hheq hsome
      exact .one (.hash hbusy hq) (h.hasher h.returned id h.trailer)
  | hashFree hsome hbusy hq =>
      obtain rfl := hheq hsome
      exact .one (.hashFree hbusy hq)
        (h.hasher (h.returned.append (List.Sublist.refl _)) id h.trailer)
  | hashExit hsome hbusy hq hcl hex =>
      obtain rfl := hheq hsome
      exact .one (.exit hbusy hq hcl hex) (h.hasher h.returned id h.trailer)
  | hashDone hloop hsome =>
      obtain rfl := hheq hsome
      -- the tasks are gone, and the caller waits for the write loop
      have hclosing : s.loop.closing = true := by rw [hloop]; rfl
      have hcaller := hs.phases.synJoin hclosing (by rw [hloop]; rintro ⟨⟩)
      obtain ⟨hheld, hasked⟩ := h.freed (hs.phases.tasks (hs.phases.loop hclosing))
        (by rw [hcaller]; rfl)
      have hopen : u.h.closed = false := by
        rw [← Bool.not_eq_true]
        intro hcl
        have hhashed := hs.hashing.closed u.h h.h hcl
        rw [hloop] at hhashed
        cases hhashed
      exact .one (.done hheld hasked hopen)
        (h.hasher h.returned (fun _ => by rw [hloop]; rfl) (by rintro _ ⟨⟩))
  | @hashWait clean hh hloop hsome hex =>
      obtain rfl := hheq hsome
      have hnone := h.result (by rw [hloop]; rfl)
      refine .one (.join hex hnone) ⟨h.h, h.data, h.older, h.fresh, h.held, h.asked, h.returned,
        ?_, ?_⟩
      · intro hj
        rcases clean with _ | _ <;> cases hj
      · intro xxh hxxh
        rcases clean with _ | _
        · cases hxxh
        · exact (Loop.trailer.inj hxxh).symm
  | finish hloop | abort hloop =>
      have hsome : s.hasher.isSome = true := by rw [h.h]; rfl
      refine .none (h.stutter rfl rfl rfl le_rfl rfl (.inl rfl) (fun _ => rfl) (fun _ => rfl)
        (List.Sublist.refl _) (fun _ => by rw [hloop]; rfl) ?_)
      intro xxh hl
      change (if s.hasher.isSome = true then _ else _ : Loop) = _ at hl
      rw [if_pos hsome] at hl
      cases hl
  | trailer hloop | trailerFail hloop | trailerErr hloop | closeSyn hloop =>
      exact .none (h.stutter rfl rfl rfl le_rfl rfl (.inl rfl) (fun _ => rfl) (fun _ => rfl)
        (List.Sublist.refl _) (by rintro ⟨⟩) (by rintro _ ⟨⟩))
  | kickDrop hloop | kickErr hloop | kickFail hloop | kickNext hloop | kickLast hloop =>
      exact .none (h.stutter rfl rfl rfl le_rfl rfl (.inl rfl) (fun _ => rfl) (fun _ => rfl)
        (List.sublist_append_left _ _) (fun _ => by rw [hloop]; rfl) (by rintro _ ⟨⟩))
  | drainKick hloop =>
      exact .none (h.stutter rfl rfl rfl le_rfl rfl (.inl rfl) (fun _ => rfl) (fun _ => rfl)
        (List.sublist_append_left _ _) id h.trailer)
  | header hloop | headerFail hloop | headerErr hloop | outClosed hloop | gotDrop hloop
  | gotPark hloop | gotErr hloop | gotWrite hloop
  | write hloop | crash hloop | setErr hloop | reply hloop | noReply hloop | drained hloop =>
      exact .none (h.stutter rfl rfl rfl le_rfl rfl (.inl rfl) (fun _ => rfl) (fun _ => rfl)
        (List.Sublist.refl _) (fun _ => by rw [hloop]; rfl) (by rintro _ ⟨⟩))

theorem uses_newAsyncWriter (Z : Clz4) {o : OptsT} (hcheck : o.contentChecksum = true)
    (script : List WCall) : Uses (newAsyncWriter Z o script) HashUse.new := by
  have hrecv : ∀ {β : Type} [BEq β] (f : TaskAt → List β) (k : β), f .recv = [] →
      ((newAsyncWriter Z o script).tasks.map (fun t => (f t.loc).count k)).sum = 0 := by
    intro β _ f k hf
    rw [List.sum_eq_zero_iff]
    intro n hn
    obtain ⟨t, ht, rfl⟩ := List.mem_map.mp hn
    rw [List.eq_of_mem_replicate ht]
    show (f .recv).count k = 0
    rw [hf]
    rfl
  refine ⟨if_pos hcheck, rfl, ?_, ?_, ?_, ?_, List.Sublist.refl _, fun _ => rfl, ?_⟩
  · rintro _ ⟨⟩
  · rintro _ ⟨⟩
    exact ⟨Nat.zero_lt_one, fun _ => List.not_mem_nil⟩
  · intro x
    rw [hrecv TaskAt.holds x rfl]
    rfl
  · intro b
    rw [hrecv TaskAt.sends b rfl]
    rfl
  · rintro _ ⟨⟩

/-- **The writer refines the hasher's protocol.** Every run of a writer with the content
checksum is, for its hasher, a run of `HashUse` on a channel of `NParallel` messages. -/
theorem hasher_refines (hpar : 0 < c.opts.nParallel) (hcheck : c.opts.contentChecksum = true)
    {script : List WCall} {as : List Act}
    (hrun : Machine.run (step c) (newAsyncWriter Z c.opts script) as = some s) :
    ∃ bs u, Machine.run (HashUse.step c.opts.nParallel) .new bs = some u ∧ Uses s u := by
  have hsim : ∀ (s : AsyncWriter Z) (a : Act) (s' : AsyncWriter Z) (u : HashUse),
      Sound c s ∧ Uses s u → AsyncWriter.step c s a = some s' →
      ∃ bs u', Machine.run (HashUse.step c.opts.nParallel) u bs = some u'
        ∧ Sound c s' ∧ Uses s' u' := by
    rintro s a s' u ⟨hs, hu⟩ hstep
    obtain ⟨bs, u', hbs, hu'⟩ := hu.step hs (step_spec hstep)
    exact ⟨bs, u', hbs, hs.step (step_spec hstep), hu'⟩
  obtain ⟨bs, u, hbs, -, hu⟩ := Machine.simulates_run hsim
    ⟨sound_newAsyncWriter Z c script hpar, uses_newAsyncWriter Z hcheck script⟩ hrun
  exact ⟨bs, u, hbs, hu⟩

/-- **No source block goes back before it is hashed**: those that have gone back by way of
the hasher are among the first `next` blocks handed to it, each once. -/
theorem source_release (hpar : 0 < c.opts.nParallel) (hcheck : c.opts.contentChecksum = true)
    {script : List WCall} {as : List Act}
    (hrun : Machine.run (step c) (newAsyncWriter Z c.opts script) as = some s) :
    ∃ (h : HasherIdx) (blks : List Blk) (ids : List ℕ), s.hasher = some h
      ∧ blks.map Blk.data = s.handed ∧ ids.Sublist s.returned ∧ ids.Nodup
      ∧ (∀ k ∈ ids, k ∈ (blks.take h.next).map Blk.id)
      ∧ (s.srcBlk = none → ids.Perm (blks.map Blk.id)) := by
  obtain ⟨bs, u, hbs, hu⟩ := hasher_refines hpar hcheck hrun
  have hkept := HashUse.kept_run hbs
  have hs := sound_run hpar hrun
  refine ⟨u.h, u.blks, u.returned, hu.h, hu.data, hu.returned, hkept.once, hkept.early, ?_⟩
  intro hblk
  obtain ⟨hloop, -, -⟩ := hs.phases.after hblk
  have hexited := (custody_run hrun).joined (by rw [hloop]; rfl) u.h hu.h
  exact hkept.perm hexited

end AsyncWriter

end Plz4
