/-
The asynchronous writer cannot wedge.

Where nothing can move, the threads are found waiting one after the other: the hasher
for a message, each task for a block or for the write loop, the write loop for a block.
Then no block is on its way, so the caller has nothing to wait for either.
-/
import Plz4.AsyncWriterWritten

set_option autoImplicit false

namespace Plz4

namespace AsyncWriter

variable {Z : Clz4} {c : WriterCfg} {s s' : AsyncWriter Z} {a : Act}

/-- The caller has made all its calls. -/
def Finished (s : AsyncWriter Z) : Prop := s.caller = .idle ∧ s.script = []

/-- A nil block was dereferenced. -/
def Crashed (s : AsyncWriter Z) : Prop := ∃ b, s.loop = .crashed b

/-- The queue of the hasher is open while the write loop is in its main loop. -/
theorem hasher_open (h : Sound c s) (hthree : ¬ 3 ≤ s.phase) :
    ∀ hh, s.hasher = some hh → hh.closed = false := by
  intro hh hsome
  rw [← Bool.not_eq_true]
  intro hcl
  exact hthree (h.phases.loop (Loop.closing_of_hashed (h.hashing.closed hh hsome hcl)))

/-! ## Where the threads wait -/

section Stuck

variable (hstuck : Machine.Stuck (step c) s)

include hstuck

/-- The hasher waits for a message, or has exited. -/
theorem hasher_waits {h : HasherIdx} (hh : s.hasher = some h) :
    h.q = [] ∧ (h.closed = true → h.exited = true) := by
  have hnone : s.hasherStep = none := hstuck .hasher
  unfold hasherStep at hnone
  rw [hh] at hnone
  simp only at hnone
  by_cases hbusy : h.busy = true
  · rw [if_pos hbusy] at hnone
    cases hnone
  · rw [if_neg hbusy] at hnone
    split at hnone
    · cases hnone
    · cases hnone
    · rename_i hq
      refine ⟨hq, fun hcl => ?_⟩
      split_ifs at hnone with hex
      rw [not_and, Bool.not_eq_false] at hex
      exact hex hcl

/-- The hasher, if there is one, takes messages until it is closed. -/
theorem hashSend_open (hh : s.hasher.isSome = true) (hpar : 0 < c.opts.nParallel)
    (hopen : ∀ h, s.hasher = some h → h.closed = false) (r : Ref) : s.hashSend c r ≠ none := by
  obtain ⟨h, hsome⟩ := Option.isSome_iff_exists.mp hh
  unfold hashSend
  rw [hsome]
  simp only
  rw [if_pos ⟨by rw [(hasher_waits hstuck hsome).1]; exact hpar, hopen h hsome⟩]
  rintro ⟨⟩

/-- A task waits for a block, or to hand one on, or it has exited. -/
theorem task_waits (h : Sound c s) (hpar : 0 < c.opts.nParallel) {i : ℕ} {t : Task Z}
    (hi : s.tasks[i]? = some t) :
    t.loc = .recv ∧ s.inClosed = false ∨ (∃ out, t.loc = .send out) ∨ t.loc = .done := by
  have hnone : s.taskStep c i t = none := by
    have := hstuck (.task i)
    simp only [AsyncWriter.step, hi] at this
    exact this
  have hmem := List.mem_of_getElem? hi
  unfold taskStep at hnone
  split at hnone
  · rename_i hloc
    split_ifs at hnone with hin
    rw [Bool.not_eq_true] at hin
    exact .inl ⟨hloc, hin⟩
  · split_ifs at hnone
  · cases hnone
  · rename_i b out hloc
    split at hnone
    · rename_i hsend
      have hthree : ¬ 3 ≤ s.phase := h.phases.phase_lt hi (by rw [hloc]; rintro ⟨⟩)
      exact absurd hsend (hashSend_open hstuck (h.hashing.freeSend t hmem b out hloc) hpar
        (hasher_open h hthree) _)
    · cases hnone
  · rename_i idx hloc
    have hsem := h.places.sem_pos_task hmem (k := idx) (by rw [hloc]; rfl)
    rw [if_pos (.inl hsem)] at hnone
    cases hnone
  · rename_i out hloc
    exact .inr (.inl ⟨out, hloc⟩)
  · rename_i hloc
    exact .inr (.inr hloc)

/-- The write loop waits for a block or a flush, or it has exited. -/
theorem loop_waits (h : Sound c s) (hcrash : ¬ s.Crashed) :
    s.loop = .select ∧ s.outClosed = false ∨ s.loop = .done := by
  have hnone : s.loopStep c = none := hstuck .loop
  unfold loopStep at hnone
  split at hnone
  · cases hnone
  · rename_i hloop
    split_ifs at hnone with hout
    rw [Bool.not_eq_true] at hout
    exact .inl ⟨hloop, hout⟩
  · cases hnone
  · cases hnone
  · rename_i b k hloop
    have hsem := h.places.sem_pos_loop (k := b.idx) (by rw [hloop]; rfl)
    rw [if_pos (.inl hsem)] at hnone
    cases hnone
  · cases hnone
  · cases hnone
  · split at hnone
    · cases hnone
    · rename_i b pending hpend
      have hsem := h.places.sem_pos_pending (b := b) (by rw [hpend]; exact List.mem_cons_self)
      rw [if_pos (.inl hsem)] at hnone
      cases hnone
  · cases hnone
  · rename_i clean hloop
    obtain ⟨hh, hsome⟩ := Option.isSome_iff_exists.mp (h.hashing.done clean hloop)
    rw [hsome] at hnone
    cases hnone
  · rename_i clean hloop
    obtain ⟨hh, hsome, hcl⟩ := h.hashing.wait clean hloop
    rw [hsome] at hnone
    simp only at hnone
    rw [if_pos ((hasher_waits hstuck hsome).2 hcl)] at hnone
    cases hnone
  · cases hnone
  · cases hnone
  · rename_i hloop
    -- a response the caller waits for
    have hcaller := h.phases.replies hloop
    have hreply := hstuck .synReply
    simp only [AsyncWriter.step] at hreply
    rw [if_pos ⟨hloop, h.phases.synWait_open hcaller⟩, recvSyn, hcaller] at hreply
    cases hreply
  · rename_i hloop
    exact .inr hloop
  · rename_i b hloop
    exact absurd ⟨b, hloop⟩ hcrash

/-- In its main loop it finds no block with a task. -/
theorem quiet_of_stuck (h : Sound c s) (hpar : 0 < c.opts.nParallel) (hloop : s.loop = .select)
    (hout : s.outClosed = false) :
    Quiet s ∧ ∀ t ∈ s.tasks, t.loc = .recv ∧ s.inClosed = false ∨ t.loc = .done := by
  have hall : ∀ t ∈ s.tasks, t.loc = .recv ∧ s.inClosed = false ∨ t.loc = .done := by
    intro t ht
    obtain ⟨i, hi⟩ := List.getElem?_of_mem ht
    rcases task_waits hstuck h hpar hi with hrecv | ⟨out, hloc⟩ | hdone
    · exact .inl hrecv
    · have hsend := hstuck (.sendOut i)
      obtain ⟨loc, cmp⟩ := t
      simp only at hloc
      simp only [AsyncWriter.step, hi, hloc] at hsend
      rw [if_pos ⟨hloop, hout⟩] at hsend
      cases hsend
    · exact .inr hdone
  refine ⟨⟨fun t ht => ?_, by rw [hloop]; rfl⟩, hall⟩
  rcases hall t ht with ⟨hloc, -⟩ | hloc
  · rw [hloc]
    rfl
  · rw [hloc]
    rfl

omit hstuck in
/-- A caller at the semaphore finds room: without a block on its way it holds no more than the
pending map. -/
theorem sem_room (h : Sound c s) (hquiet : Quiet s) {k : Then} (hcaller : s.caller = .acquire k) :
    s.sem < c.opts.calcPending := by
  have hsem := h.places.tokens
  have hzero : (s.tasks.map (Task.weigh (fun _ => 1))).sum = 0 := by
    refine List.sum_eq_zero (fun x hx => ?_)
    obtain ⟨t, ht, rfl⟩ := List.mem_map.mp hx
    rw [Task.weigh, hquiet.1 t ht]
    rfl
  rw [carried, hzero, hquiet.2, hcaller, sum_map_one] at hsem
  have hbound := h.order.bound
  change s.sem = 0 + 0 + s.pending.length + 0 at hsem
  omega

/-- A caller with a block to hand over does not wait: a task would take it. -/
theorem not_sendIn (h : Sound c s) (htasks : s.tasks ≠ []) (hphase : s.phase = s.caller.closing)
    (hall : ∀ t ∈ s.tasks, t.loc = .recv ∧ s.inClosed = false ∨ t.loc = .done) {b : Blk}
    (hsrc : s.srcBlk = some b) (k : Then) : s.caller ≠ .sendIn k := by
  intro hcaller
  obtain ⟨t, ht⟩ := List.exists_mem_of_ne_nil _ htasks
  obtain ⟨i, hi⟩ := List.getElem?_of_mem ht
  have hrecv : t.loc = .recv ∧ s.inClosed = false := by
    rcases hall t ht with hrecv | hdone
    · exact hrecv
    · -- no task exits before `inChan` is closed
      have htwo := h.phases.exits t ht hdone
      rw [hphase, hcaller] at htwo
      exact absurd htwo (by show ¬ 2 ≤ 0; omega)
  have hsend := hstuck (.sendIn i)
  simp only [AsyncWriter.step, hcaller, hsrc, hi] at hsend
  rw [if_pos hrecv] at hsend
  cases hsend

/-- Then the caller does not wait for it. -/
theorem select_moves (h : Sound c s) (hpar : 0 < c.opts.nParallel) (htasks : s.tasks ≠ [])
    (hloop : s.loop = .select) (hout : s.outClosed = false) : s.Finished := by
  obtain ⟨hquiet, hall⟩ := quiet_of_stuck hstuck h hpar hloop hout
  have hnone : s.callerStep c = none := hstuck .caller
  have hnotdone : s.loop ≠ .done := by
    rw [hloop]
    rintro ⟨⟩
  have hblk := h.phases.srcBlk_of_loop hnotdone
  have hphase : s.phase = s.caller.closing := phase_of_some hblk
  have hopen : s.caller.closing = 0 → ¬ 3 ≤ s.phase := by omega
  have hsyn : s.synClosed = false := by
    rw [← Bool.not_eq_true, h.phases.syn]
    exact hnotdone
  obtain ⟨b, hsrc⟩ := Option.ne_none_iff_exists'.mp hblk
  unfold callerStep at hnone
  split at hnone
  · rename_i hcaller
    split at hnone
    · rename_i hscript
      exact ⟨hcaller, hscript⟩
    · cases hnone
  · cases hnone
  · cases hnone
  · cases hnone
  · cases hnone
  · cases hnone
  · -- the hasher takes the block: its channel is still open
    rename_i k hcaller
    rw [hsrc] at hnone
    simp only at hnone
    split at hnone
    · rename_i hsend
      exact absurd hsend (hashSend_open hstuck (h.hashing.queue k hcaller) hpar
        (hasher_open h (hopen (by rw [hcaller]; rfl))) _)
    · cases hnone
  · rename_i k hcaller
    have hcl : s.semClosed = false := by
      rw [← Bool.not_eq_true, h.phases.sem, hphase, hcaller]
      show ¬ 1 ≤ 0
      omega
    rw [if_pos ⟨sem_room h hquiet hcaller, hcl⟩] at hnone
    cases hnone
  · cases hnone
  · cases hnone
  · -- `Close` waits for tasks that have all exited
    rename_i hcaller
    split_ifs at hnone with hdone
    refine absurd (fun t ht => ?_) hdone
    rcases hall t ht with ⟨-, hin⟩ | hdone
    · have : s.inClosed = true := h.phases.inn.mpr (by rw [hphase, hcaller]; exact Nat.le_refl 2)
      rw [hin] at this
      cases this
    · exact hdone
  · -- a flush waits for a block that is on its way
    rename_i hcaller
    have hflush := h.phases.waits hcaller
    obtain ⟨hlt, herr⟩ := h.order.waiting hloop _ hflush
    have hlive : Live s := ⟨herr, by rw [hloop]; rintro _ _ ⟨⟩⟩
    have hnext := (h.order.settled h.places hlive hquiet).1
    omega
  · -- `Close` has closed `outChan` before it waits for the loop
    rename_i hcaller
    have : s.outClosed = true := h.phases.out.mpr (by rw [hphase, hcaller]; exact Nat.le_refl 3)
    rw [hout] at this
    cases this
  · rename_i k hcaller
    exact absurd hcaller (not_sendIn hstuck h htasks hphase hall hsrc k)
  · rename_i hcaller
    have hsend := hstuck .synSend
    simp only [AsyncWriter.step] at hsend
    rw [if_pos ⟨hcaller, hloop, hsyn⟩] at hsend
    cases hsend

/-- Nor when the write loop has exited. -/
theorem done_moves (h : Sound c s) (hloop : s.loop = .done) : s.Finished := by
  have hsyn := h.phases.syn.mpr hloop
  have hnone : s.callerStep c = none := hstuck .caller
  have hthree := h.phases.loop (by rw [hloop]; rfl)
  -- the loop has exited: `Close` is at its last wait, or it is over
  have hcaller : s.caller = .synJoin ∨ s.caller.outside = true := by
    by_cases hblk : s.srcBlk = none
    · exact .inr (h.phases.after hblk).2.2
    · rw [phase_of_some hblk] at hthree
      exact .inl (Caller.synJoin_of_closing hthree)
  have hno : ∀ {x}, s.caller = x → x ≠ .synJoin → x.outside = false → s.Finished := by
    intro x hx hne hout
    rw [hx, hout] at hcaller
    exact absurd hcaller (by simp [hne])
  unfold callerStep at hnone
  split at hnone
  · rename_i hidle
    split at hnone
    · rename_i hscript
      exact ⟨hidle, hscript⟩
    · cases hnone
  · cases hnone
  · cases hnone
  · cases hnone
  · cases hnone
  · cases hnone
  · rename_i hc
    exact hno hc (by rintro ⟨⟩) rfl
  · rename_i hc
    exact hno hc (by rintro ⟨⟩) rfl
  · cases hnone
  · cases hnone
  · rename_i hc
    exact hno hc (by rintro ⟨⟩) rfl
  · rename_i hc
    rw [if_pos hsyn, recvSyn, hc] at hnone
    cases hnone
  · rename_i hc
    rw [if_pos hsyn, recvSyn, hc] at hnone
    cases hnone
  · rename_i hc
    exact hno hc (by rintro ⟨⟩) rfl
  · rename_i hc
    exact hno hc (by rintro ⟨⟩) rfl

end Stuck

/-- **No wedge.** Until the caller has made its calls some thread can move. -/
theorem Sound.moves (h : Sound c s) (hpar : 0 < c.opts.nParallel) (htasks : s.tasks ≠ [])
    (hcrash : ¬ s.Crashed) (hfin : ¬ s.Finished) :
    ∃ a, (AsyncWriter.step c s a).isSome = true := by
  by_contra hno
  have hstuck : Machine.Stuck (AsyncWriter.step c) s := by
    intro a
    by_contra hne
    exact hno ⟨a, Option.isSome_iff_ne_none.mpr hne⟩
  rcases loop_waits hstuck h hcrash with ⟨hloop, hout⟩ | hloop
  · exact hfin (select_moves hstuck h hpar htasks hloop hout)
  · exact hfin (done_moves hstuck h hloop)

/-- The tasks stay. -/
theorem tasks_step (hstep : Step c s a s') (h : s.tasks ≠ []) : s'.tasks ≠ [] := by
  have hset : ∀ i (t' : Task Z), s.tasks.set i t' ≠ [] := by
    intro i t' hnil
    rw [List.set_eq_nil_iff] at hnil
    exact h hnil
  cases hstep with
  | sendIn => exact fun hnil => hset _ _ (List.append_eq_nil_iff.mp hnil).1
  | exit | skip | compress | freeAsk | freeNow | freeSend | release | sendOut => exact hset _ _
  | _ => exact h

end AsyncWriter

end Plz4
