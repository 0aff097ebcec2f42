/-
What the write loop of the asynchronous writer has behind it.

Below `nextIdx` every block is written; as long as no error has occurred, no other block
has been let go. The pending map never takes the whole semaphore, so a block the write
loop waits for is always on its way, and a flush is answered when nothing is left.
-/
import Plz4.AsyncWriterPhases

set_option autoImplicit false

namespace Plz4

/-- The block the write loop is at. -/
def Loop.current : Loop → Option OutBlk
  | .write b | .kick b (.err _) | .kick b (.wrote _) | .crashed b => some b
  | _ => none

/-- The write loop drops a block. -/
def Loop.drops : Loop → Bool
  | .kick _ .drop => true
  | _ => false

/-- The write loop has emptied the pending map. -/
def Loop.drained : Loop → Bool
  | .finish | .hashDone _ | .hashWait _ | .trailer _ | .setErr _ .closeSyn | .closeSyn
  | .done => true
  | _ => false

/-- A task drops its block. -/
def TaskAt.drops : TaskAt → Bool
  | .free _ none | .freeSend _ none | .release _ => true
  | _ => false

theorem Loop.held_of_current {l : Loop} {b : OutBlk} (h : l.current = some b) :
    l.held = some b.idx := by
  unfold Loop.current at h
  split at h
  · rw [Option.some.inj h]
    rfl
  · rw [Option.some.inj h]
    rfl
  · rw [Option.some.inj h]
    rfl
  · rw [Option.some.inj h]
    rfl
  · cases h

namespace AsyncWriter

variable {Z : Clz4} {c : WriterCfg} {s s' : AsyncWriter Z} {a : Act}

structure Order (c : WriterCfg) (s : AsyncWriter Z) : Prop where
  /-- every block handed over is counted -/
  le : s.nextIdx ≤ s.srcIdx
  /-- the block written is the next one -/
  current : ∀ b, s.loop.current = some b → b.idx = s.nextIdx
  /-- blocks are dropped in the error state only -/
  loopDrops : s.loop.drops = true → s.err ≠ none
  taskDrops : ∀ t ∈ s.tasks, t.loc.drops = true → s.err ≠ none
  /-- what is written is let go -/
  below : ∀ k, k < s.nextIdx → k ∈ s.released
  /-- what is let go is written -/
  above : Live s → ∀ k ∈ s.released, k < s.nextIdx
  /-- the next block is not in the pending map -/
  parked : Live s → ∀ b ∈ s.pending, b.idx ≠ s.nextIdx
  sem_le : s.sem ≤ c.opts.calcPending
  bound : s.pending.length < c.opts.calcPending
  /-- a flush that waits waits for a block -/
  waiting : s.loop = .select → ∀ f, s.flushIdx = some f → s.nextIdx < f ∧ s.err = none
  /-- a flush that is answered waits for none -/
  answer : s.loop = .synSend → s.err = none → s.nextIdx = s.srcIdx
  flushed : s.caller = .flushEnd → s.err = none → s.nextIdx = s.srcIdx ∧ ∀ e k, s.loop ≠ .setErr e k
  /-- a flush is answered in the main loop, so the header is through -/
  past : s.caller = .flushEnd → s.loop.starting = false
  drained : s.loop.drained = true → s.pending = []

/-- No block is with a task or in the hand of the write loop. -/
def Quiet (s : AsyncWriter Z) : Prop :=
  (∀ t ∈ s.tasks, t.loc.held = none) ∧ s.loop.held = none

/-- **Settled.** Without an error, what is not on its way is written. -/
theorem Order.settled (h : Order c s) (hp : Places s) (hl : Live s) (hq : Quiet s) :
    s.nextIdx = s.srcIdx ∧ s.pending = [] := by
  have hnext : s.nextIdx = s.srcIdx := by
    by_contra hne
    have hlt : s.nextIdx < s.srcIdx := Nat.lt_of_le_of_ne h.le hne
    have hrel : s.nextIdx ∉ s.released := fun hmem => absurd (h.above hl _ hmem) (Nat.lt_irrefl _)
    rcases hp.find hlt hrel with ⟨t, ht, hk⟩ | hk | ⟨b, hb, hk⟩
    · rw [hq.1 t ht] at hk
      cases hk
    · rw [hq.2] at hk
      cases hk
    · exact h.parked hl b hb hk
  refine ⟨hnext, ?_⟩
  by_contra hne
  obtain ⟨b, hb⟩ := List.exists_mem_of_ne_nil _ hne
  obtain ⟨hlt, hrel⟩ := hp.parked hb
  exact hrel (h.below b.idx (by omega))

/-- The write loop holds a block other than the next one: the next one is with a task. -/
theorem Order.awaited (h : Order c s) (hp : Places s) (hl : Live s) {k : ℕ}
    (hk : s.loop.held = some k) (hne : k ≠ s.nextIdx) :
    ∃ t ∈ s.tasks, t.loc.held = some s.nextIdx := by
  obtain ⟨hlt, hrel⟩ := hp.inHand hk
  have hle : s.nextIdx ≤ k := by
    by_contra hlt
    exact hrel (h.below k (by omega))
  have hnext : s.nextIdx ∉ s.released := fun hmem => absurd (h.above hl _ hmem) (Nat.lt_irrefl _)
  rcases hp.find (by omega) hnext with htask | hloop | ⟨b, hb, hidx⟩
  · exact htask
  · rw [hk] at hloop
    exact absurd (Option.some.inj hloop) hne
  · exact absurd hidx (h.parked hl b hb)

/-- Then there is room for it in the pending map. -/
theorem Order.room (h : Order c s) (hp : Places s) (hl : Live s) {k : ℕ}
    (hk : s.loop.held = some k) (hne : k ≠ s.nextIdx) :
    s.pending.length + 1 < c.opts.calcPending := by
  obtain ⟨t, ht, hheld⟩ := h.awaited hp hl hk hne
  have htask := Pool.le_sum_of_mem (Task.weigh (fun _ => 1)) ht
  have htok := hp.tokens
  have hle := h.sem_le
  rw [carried, sum_map_one, hk] at htok
  rw [Task.weigh, hheld] at htask
  simp only [Option.elim] at htok htask
  omega

/-! ## One step -/

theorem le_step (h : Order c s) (hp : Places s) (hstep : Step c s a s') :
    s'.nextIdx ≤ s'.srcIdx := by
  have hle := h.le
  cases hstep with
  | sendIn => exact Nat.le_succ_of_le hle
  | @kickFail b _ hloop _ | @kickLast b hloop _ _ | @kickNext b _ hloop _ _ _ _ =>
      have hidx := h.current b (by rw [hloop]; rfl)
      have hlt := (hp.inHand (k := b.idx) (by rw [hloop]; rfl)).1
      show s.nextIdx + 1 ≤ s.srcIdx
      omega
  | _ => exact hle

theorem current_step (h : Order c s) (hstep : Step c s a s') :
    ∀ b, s'.loop.current = some b → b.idx = s'.nextIdx := by
  intro b hb
  cases hstep with
  | gotErr hloop herr hidx | gotWrite hloop herr hidx => exact Option.some.inj hb ▸ hidx
  | kickNext hloop hsem hmem hidx hfind => exact Option.some.inj hb ▸ hidx
  | @write b' _ _ _ _ hloop | @crash b' hloop =>
      exact Option.some.inj hb ▸ h.current b' (by rw [hloop]; rfl)
  | finish hloop | abort hloop | hashWait hloop =>
      change (if _ then _ else _ : Loop).current = some b at hb
      split_ifs at hb <;> cases hb
  | sendOut _ _ hloop | synSend _ hloop | synReply _ hloop | synReplyJoin _ hloop
  | header hloop | headerFail hloop | headerErr hloop
  | outClosed hloop | gotDrop hloop | gotPark hloop | kickDrop hloop | kickErr hloop
  | kickFail hloop
  | kickLast hloop | setErr hloop | reply hloop | noReply hloop | drained hloop | hashDone hloop
  | trailer hloop | trailerFail hloop | trailerErr hloop | closeSyn hloop => cases hb
  | _ => exact h.current b hb

theorem drops_afterFree (b : InBlkW) (out : Option OutBlk) :
    (afterFree b out).drops = out.isNone := by
  cases out <;> rfl

theorem drops_free (b : InBlkW) (out : Option OutBlk) :
    (TaskAt.free b out).drops = out.isNone := by
  cases out <;> rfl

theorem drops_freeSend (b : InBlkW) (out : Option OutBlk) :
    (TaskAt.freeSend b out).drops = out.isNone := by
  cases out <;> rfl

theorem loopDrops_step (h : Order c s) (hstep : Step c s a s') :
    s'.loop.drops = true → s'.err ≠ none := by
  intro hd
  refine err_ne_step hstep ?_
  cases hstep with
  | gotDrop hloop herr => exact herr
  | finish hloop | abort hloop | hashWait hloop =>
      change (if _ then _ else _ : Loop).drops = true at hd
      split_ifs at hd <;> cases hd
  | sendOut _ _ hloop | synSend _ hloop | synReply _ hloop | synReplyJoin _ hloop
  | header hloop | headerFail hloop | headerErr hloop
  | outClosed hloop | gotErr hloop | gotWrite hloop | gotPark hloop | write hloop | crash hloop
  | kickDrop hloop | kickErr hloop | kickFail hloop | kickNext hloop | kickLast hloop | setErr hloop
  | reply hloop | noReply hloop | drained hloop | hashDone hloop | trailer hloop
  | trailerFail hloop | trailerErr hloop
  | closeSyn hloop => cases hd
  | _ => exact h.loopDrops hd

/-- A task that moves drops its block only if it did before, or in the error state. -/
theorem taskDrops_set (h : Order c s) {i : ℕ} {t t' : Task Z} (hi : s.tasks[i]? = some t)
    (hd : t'.loc.drops = true → t.loc.drops = true ∨ s.err ≠ none) :
    ∀ t ∈ s.tasks.set i t', t.loc.drops = true → s.err ≠ none :=
  Pool.forall_set h.taskDrops
    (fun hd' => (hd hd').elim (h.taskDrops t (List.mem_of_getElem? hi)) id)

theorem taskDrops_step (h : Order c s) (hstep : Step c s a s') :
    ∀ t ∈ s'.tasks, t.loc.drops = true → s'.err ≠ none := by
  intro t ht hd
  refine err_ne_step hstep ?_
  revert t
  cases hstep with
  | sendIn hcaller hblk hi hloc hcl =>
      intro t ht hd
      rcases List.mem_append.mp ht with ht | ht
      · exact taskDrops_set h hi (by rintro ⟨⟩) t ht hd
      · unfold spawned at ht
        split_ifs at ht
        · rw [List.mem_singleton.mp ht] at hd
          cases hd
        · cases ht
  | exit hi | compress hi | release hi | sendOut hi =>
      exact fun t ht hd => taskDrops_set h hi (by rintro ⟨⟩) t ht hd
  | skip hi hloc herr => exact fun _ _ _ => herr
  | freeAsk hi hloc =>
      refine fun t ht hd => taskDrops_set h hi (fun hd' => .inl ?_) t ht hd
      rw [drops_freeSend] at hd'
      rw [hloc, drops_free]
      exact hd'
  | freeNow hi hloc =>
      refine fun t ht hd => taskDrops_set h hi (fun hd' => .inl ?_) t ht hd
      rw [drops_afterFree] at hd'
      rw [hloc, drops_free]
      exact hd'
  | freeSend hi hloc =>
      refine fun t ht hd => taskDrops_set h hi (fun hd' => .inl ?_) t ht hd
      rw [drops_afterFree] at hd'
      rw [hloc, drops_freeSend]
      exact hd'
  | _ => exact h.taskDrops

theorem below_step (h : Order c s) (hstep : Step c s a s') :
    ∀ k, k < s'.nextIdx → k ∈ s'.released := by
  intro k hk
  cases hstep with
  | release | kickDrop | kickErr | drainKick => exact List.mem_append_left _ (h.below k hk)
  | @kickFail b _ hloop _ | @kickLast b hloop _ _ | @kickNext b _ hloop _ _ _ _ =>
      have hidx := h.current b (by rw [hloop]; rfl)
      change k < s.nextIdx + 1 at hk
      show k ∈ s.released ++ [b.idx]
      rcases Nat.lt_succ_iff_lt_or_eq.mp hk with hk | rfl
      · exact List.mem_append_left _ (h.below k hk)
      · rw [hidx]
        exact List.mem_append_right _ (List.mem_singleton_self _)
  | _ => exact h.below k hk

/-- Without an error the write loop drains an empty pending map. -/
theorem drain_settled (h : Order c s) (hp : Places s) (hph : Phases s) (hl : Live s)
    (hloop : s.loop = .drain) : s.pending = [] := by
  refine (h.settled hp hl ⟨fun t ht => ?_, by rw [hloop]; rfl⟩).2
  rw [hph.tasks (hph.loop (by rw [hloop]; rfl)) t ht]
  rfl

theorem above_step (h : Order c s) (hp : Places s) (hph : Phases s) (hstep : Step c s a s')
    (hl' : Live s') : ∀ k ∈ s'.released, k < s'.nextIdx := by
  have hl := live_step hstep hl'
  intro k hk
  cases hstep with
  | release hi hloc =>
      exact absurd hl.1 (h.taskDrops _ (List.mem_of_getElem? hi) (by rw [hloc]; rfl))
  | kickDrop hloop => exact absurd hl.1 (h.loopDrops (by rw [hloop]; rfl))
  | kickErr | kickFail => exact absurd rfl (hl'.2 _ _)
  | @kickLast b hloop _ _ | @kickNext b _ hloop _ _ _ _ =>
      have hidx := h.current b (by rw [hloop]; rfl)
      show k < s.nextIdx + 1
      rcases List.mem_append.mp hk with hk | hk
      · exact Nat.lt_succ_of_lt (h.above hl k hk)
      · rw [List.mem_singleton.mp hk, hidx]
        exact Nat.lt_succ_self _
  | drainKick hloop hpend =>
      rw [drain_settled h hp hph hl hloop] at hpend
      cases hpend
  | _ => exact h.above hl k hk

theorem parked_step (h : Order c s) (hp' : Places s') (hstep : Step c s a s') (hl' : Live s') :
    ∀ b ∈ s'.pending, b.idx ≠ s'.nextIdx := by
  have hl := live_step hstep hl'
  intro b hb
  cases hstep with
  | gotPark hloop herr hidx =>
      rcases List.mem_append.mp hb with hb | hb
      · exact h.parked hl b hb
      · rw [List.mem_singleton.mp hb]
        exact hidx
  | kickFail => exact absurd rfl (hl'.2 _ _)
  | kickNext hloop hsem hmem hidx hfind =>
      have hne := hp'.not_parked rfl hb
      rw [hidx] at hne
      exact hne
  | kickLast hloop hsem hnone => exact hnone b hb
  | drainKick hloop hpend =>
      exact h.parked hl b (hpend ▸ List.mem_cons_of_mem _ hb)
  | _ => exact h.parked hl b hb

theorem sem_le_step (h : Order c s) (hstep : Step c s a s') : s'.sem ≤ c.opts.calcPending := by
  have hle := h.sem_le
  cases hstep with
  | acquire hcaller hsem => exact hsem
  | release | kickDrop | kickErr | kickFail | kickLast | kickNext | drainKick =>
      exact (Nat.sub_le _ _).trans hle
  | _ => exact hle

theorem bound_step (h : Order c s) (hp : Places s) (hstep : Step c s a s') :
    s'.pending.length < c.opts.calcPending := by
  have hb := h.bound
  cases hstep with
  | @gotPark b hloop herr hidx =>
      have hl : Live s := ⟨herr, fun e k he => by rw [hloop] at he; cases he⟩
      have := h.room hp hl (k := b.idx) (by rw [hloop]; rfl) hidx
      show (s.pending ++ [b]).length < _
      rw [List.length_append, List.length_singleton]
      exact this
  | kickNext => exact (List.length_eraseP_le).trans_lt hb
  | drainKick hloop hpend =>
      rw [hpend, List.length_cons] at hb
      exact Nat.lt_of_succ_lt hb
  | _ => exact hb

theorem waiting_step (h : Order c s) (hph : Phases s) (hstep : Step c s a s') :
    s'.loop = .select → ∀ f, s'.flushIdx = some f → s'.nextIdx < f ∧ s'.err = none := by
  intro hl f hf
  have hcaller : s.flushIdx = some f → s.caller = .synWait := fun hf => (hph.flush f hf).1
  cases hstep with
  | noReply hloop hno => exact hno f hf
  | readErr hc | join hc =>
      have hw := hcaller hf
      rw [hc] at hw
      cases hw
  | synReply | synReplyJoin => cases hf
  | header hloop | headerErr hloop =>
      exact absurd (hcaller hf) (hph.starts (by rw [hloop]; rfl))
  | finish hloop | abort hloop | hashWait hloop =>
      change (if _ then _ else _) = Loop.select at hl
      split_ifs at hl
  | drainKick hloop =>
      change s.loop = .select at hl
      rw [hloop] at hl
      cases hl
  | sendOut | synSend | headerFail | outClosed | gotDrop | gotErr | gotWrite | gotPark | write
  | crash | kickDrop | kickErr | kickFail | kickNext | kickLast | setErr | reply | drained
  | hashDone
  | trailer | trailerFail | trailerErr | closeSyn => cases hl
  | _ => exact h.waiting hl f hf

theorem answer_step (h : Order c s) (hph : Phases s) (hstep : Step c s a s') :
    s'.loop = .synSend → s'.err = none → s'.nextIdx = s'.srcIdx := by
  intro hl herr
  have hw : s.loop = .synSend → s.caller = .synWait := hph.replies
  cases hstep with
  | reply hloop hflush hf =>
      obtain ⟨-, rfl⟩ := hph.flush _ hflush
      exact Nat.le_antisymm h.le (hf.resolve_right (not_not.mpr herr))
  | sendIn hc | readErr hc | join hc =>
      have := hw hl
      rw [hc] at this
      cases this
  | finish hloop | abort hloop | hashWait hloop =>
      change (if _ then _ else _) = Loop.synSend at hl
      split_ifs at hl
  | drainKick hloop =>
      change s.loop = .synSend at hl
      rw [hloop] at hl
      cases hl
  | sendOut | synSend | synReply | synReplyJoin | header | headerFail | headerErr | outClosed
  | gotDrop | gotErr | gotWrite
  | gotPark | write | crash | kickDrop | kickErr | kickFail | kickNext | kickLast | setErr | noReply
  | drained | hashDone | trailer | trailerFail | trailerErr | closeSyn => cases hl
  | _ => exact h.answer hl herr

/-- When a flush has been answered without an error, the write loop is at no block. -/
theorem flushed_idle (h : Order c s) (hp : Places s) (hc : s.caller = .flushEnd)
    (herr : s.err = none) : s.loop.current = none := by
  by_contra hne
  obtain ⟨b, hb⟩ := Option.ne_none_iff_exists'.mp hne
  have hidx := h.current b hb
  have hlt := (hp.inHand (Loop.held_of_current hb)).1
  have hnext := (h.flushed hc herr).1
  omega

theorem flushed_step (h : Order c s) (hp : Places s) (hph : Phases s) (hstep : Step c s a s') :
    s'.caller = .flushEnd → s'.err = none →
      s'.nextIdx = s'.srcIdx ∧ ∀ e k, s'.loop ≠ .setErr e k := by
  intro hc herr
  cases hstep with
  | @loc x _ _ _ _ _ hl =>
      have hends := hl.ends
      change x = .flushEnd at hc
      rw [hc] at hends
      cases hends
  | recvClosed hcaller hsyn =>
      rw [hph.synWait_open hcaller] at hsyn
      cases hsyn
  | synReply hcaller hloop => exact ⟨h.answer hloop herr, by rintro _ _ ⟨⟩⟩
  | @sendIn i k => rcases k with _ | _ | _ | _ <;> cases hc
  | kickErr hloop | kickFail hloop | kickNext hloop | kickLast hloop =>
      have hidle := flushed_idle h hp hc herr
      rw [hloop] at hidle
      cases hidle
  | headerFail hloop hwr =>
      have hpast := h.past hc
      rw [hloop] at hpast
      cases hpast
  | trailerFail hloop hwr =>
      have hjoin := hph.synJoin (by rw [hloop]; rfl) (by rw [hloop]; rintro ⟨⟩)
      rw [show s.caller = .flushEnd from hc] at hjoin
      cases hjoin
  | headerErr | setErr | trailerErr =>
      exact ⟨(h.flushed hc (Option.or_eq_none_iff.mp herr).1).1, by rintro _ _ ⟨⟩⟩
  | finish hloop | abort hloop | hashWait hloop =>
      refine ⟨(h.flushed hc herr).1, fun e k => ?_⟩
      show (if _ then _ else _) ≠ Loop.setErr e k
      split_ifs <;> rintro ⟨⟩
  | readErr | queue | acquire | closeSem | closeIn | wgWait | join | synSend | synReplyJoin =>
      cases hc
  | sendOut | header | outClosed | gotDrop | gotErr | gotWrite | gotPark | write | crash | kickDrop
  | reply | noReply | drained | hashDone | trailer | closeSyn =>
      exact ⟨(h.flushed hc herr).1, by rintro _ _ ⟨⟩⟩
  | _ => exact h.flushed hc herr

theorem past_step (h : Order c s) (hph : Phases s) (hstep : Step c s a s') :
    s'.caller = .flushEnd → s'.loop.starting = false := by
  intro hc
  cases hstep with
  | @loc x _ _ _ _ _ hl =>
      have hends := hl.ends
      change x = .flushEnd at hc
      rw [hc] at hends
      cases hends
  | recvClosed hcaller hsyn =>
      rw [hph.synWait_open hcaller] at hsyn
      cases hsyn
  | @sendIn i k => rcases k with _ | _ | _ | _ <;> cases hc
  | headerFail hloop =>
      have hpast := h.past hc
      rw [hloop] at hpast
      cases hpast
  | finish | abort | hashWait =>
      show (if _ then _ else _ : Loop).starting = false
      split_ifs <;> rfl
  | readErr | queue | acquire | closeSem | closeIn | wgWait | join | synSend | synReplyJoin =>
      cases hc
  | synReply | sendOut | header | headerErr | outClosed | gotDrop | gotErr | gotWrite | gotPark
  | write | crash | kickDrop | kickErr | kickFail | kickNext | kickLast | setErr | reply | noReply
  | drained | hashDone | trailer | trailerFail | trailerErr | closeSyn => rfl
  | _ => exact h.past hc

theorem drained_step (h : Order c s) (hstep : Step c s a s') :
    s'.loop.drained = true → s'.pending = [] := by
  intro hd
  cases hstep with
  | drained hloop hpend => exact hpend
  | drainKick hloop =>
      change s.loop.drained = true at hd
      rw [hloop] at hd
      cases hd
  | finish hloop | abort hloop | hashDone hloop | hashWait hloop | trailer hloop
  | trailerFail hloop | trailerErr hloop | closeSyn hloop =>
      exact h.drained (by rw [hloop]; rfl)
  | sendOut | synSend | synReply | synReplyJoin | header | headerFail | headerErr | outClosed
  | gotDrop | gotErr | gotWrite
  | gotPark | write | crash | kickDrop | kickErr | kickFail | kickNext | kickLast | setErr | reply
  | noReply => cases hd
  | _ => exact h.drained hd

/-- **Every step keeps the order.** -/
theorem Order.step (h : Order c s) (hp : Places s) (hph : Phases s) (hstep : Step c s a s') :
    Order c s' where
  le := le_step h hp hstep
  current := current_step h hstep
  loopDrops := loopDrops_step h hstep
  taskDrops := taskDrops_step h hstep
  below := below_step h hstep
  above := above_step h hp hph hstep
  parked := parked_step h (hp.step hstep) hstep
  sem_le := sem_le_step h hstep
  bound := bound_step h hp hstep
  waiting := waiting_step h hph hstep
  answer := answer_step h hph hstep
  flushed := flushed_step h hp hph hstep
  past := past_step h hph hstep
  drained := drained_step h hstep

theorem order_newAsyncWriter (Z : Clz4) (c : WriterCfg) (script : List WCall)
    (hpar : 0 < c.opts.nParallel) : Order c (newAsyncWriter Z c.opts script) := by
  have hcap := c.opts.le_calcPending
  refine ⟨Nat.le_refl _, ?_, ?_, ?_, ?_, ?_, ?_, Nat.zero_le _, hpar.trans_le hcap, ?_, ?_, ?_, ?_,
    ?_⟩
  · rintro b ⟨⟩
  · rintro ⟨⟩
  · intro t ht hd
    rw [List.eq_of_mem_replicate ht] at hd
    cases hd
  · rintro k ⟨⟩
  · rintro _ k ⟨⟩
  · rintro _ b ⟨⟩
  · rintro _ f ⟨⟩
  · rintro ⟨⟩
  · rintro ⟨⟩
  · rintro ⟨⟩
  · rintro ⟨⟩

end AsyncWriter

end Plz4
