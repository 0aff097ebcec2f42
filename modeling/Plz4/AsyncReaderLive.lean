/-
The asynchronous reader gets to its end: until `NextBlock` has returned an error some
thread can move, and every run that does not call `Close` is bounded.

With the safety of the module before, every schedule delivers the session of the
synchronous reader.
-/
import Plz4.AsyncReaderSpec

set_option autoImplicit false

namespace Plz4

/-- `close(r.inChan)` is done. -/
def Disp.pastIn : Disp → Bool
  | .closeSem _ | .sendErr _ | .done => true
  | _ => false

/-- `close(r.semChan)` is done. -/
def Disp.pastSem : Disp → Bool
  | .sendErr _ | .done => true
  | _ => false

/-- The semaphore is held for the block that is not yet issued. -/
def Disp.token : Disp → ℕ
  | .acquire => 0
  | _ => 1

/-- The worker has block `j`. -/
def Worker.Holds (j : ℕ) : Worker → Prop
  | .work b => b.idx = j
  | .send b => b.idx = j
  | .recv | .done => False

/-- The consumer is in `_close`. -/
def Cons.closing : Cons → Bool
  | .wgWait | .drainIn | .drainOut | .hashDoneC | .hashWaitC | .closed => true
  | _ => false

/-- The steps the dispatcher and the blocks it has yet to hand on can still take, with
`r` blocks unread. -/
def Disp.fuel (r : ℕ) : Disp → ℕ
  | .acquire => 6 * r + 5
  | .read => 6 * r + 4
  | .sendOut _ | .sendIn _ => 6 * r + 3
  | .closeIn _ => 3
  | .closeSem _ => 2
  | .sendErr _ => 1
  | .done => 0

/-- The steps a worker can take with what it has, and its last one. -/
def Worker.fuel : Worker → ℕ
  | .recv => 1
  | .work _ => 3
  | .send _ => 2
  | .done => 0

/-- The steps of the consumer up to the end of its call; a queued block is one more for
the hasher. -/
def Cons.fuel : Cons → ℕ
  | .idle => 10
  | .queue _ => 9
  | .check => 7
  | .recv => 6
  | .release _ => 5
  | .hashDone _ => 4
  | .hashWait _ => 3
  | _ => 0

/-- The steps of the hasher. -/
def Hasher.fuel (h : Hasher) : ℕ := h.q.length + if h.exited then 0 else 1

namespace AsyncReader

variable {J : Job} {s s' : AsyncReader}

/-! ## Nothing is lost -/

/-- Packet `j` is with a worker, parked, or in the consumer's hand. -/
def Located (workers : List Worker) (pending : List OutBlk) (x : Cons) (j : ℕ) : Prop :=
  (∃ w ∈ workers, w.Holds j) ∨ (∃ b ∈ pending, b.idx = j) ∨ ∃ b, x = .release b ∧ b.idx = j

/-- The hasher's channel is closed when the consumer waits for the hasher, and never
before. -/
def HashLive (hasher : Option Hasher) : Cons → Prop
  | .queue _ | .hashDone _ => ∃ h, hasher = some h ∧ h.closed = false
  | .hashWait _ => ∃ h, hasher = some h ∧ h.closed = true
  | .ended => True
  | _ => ∀ h, hasher = some h → h.closed = false

/-- The invariant behind progress, as long as `Close` is not called. -/
structure Live (J : Job) (s : AsyncReader) : Prop where
  workers : 0 < s.workers.length
  done : ∀ w ∈ s.workers, w = .done → s.inClosed = true
  inClosed : s.inClosed = s.disp.pastIn
  semClosed : s.semClosed = s.disp.pastSem
  tokens : s.semClosed = false → s.sem + s.nextIdx = s.curIdx + s.disp.token
  located : ∀ j, s.nextIdx ≤ j → j < s.issued → Located s.workers s.pending s.cons j
  waiting : s.cons = .recv → ∀ b ∈ s.pending, b.idx ≠ s.nextIdx
  hash : HashLive s.hasher s.cons

variable {workers : List Worker} {pending : List OutBlk} {x y : Cons} {i j : ℕ}

/-- The block moves on with its worker, or stays with another. -/
theorem Located.worker {w v : Worker} (h : Located workers pending x j)
    (hw : workers[i]? = some w) (hv : w.Holds j → v.Holds j) :
    Located (workers.set i v) pending x j := by
  rcases h with ⟨u, hu, huj⟩ | h | h
  · by_cases hne : u = w
    · exact .inl ⟨v, Pool.mem_set_self hw v, hv (hne ▸ huj)⟩
    · exact .inl ⟨u, Pool.mem_set_of_ne hw v hu hne, huj⟩
  · exact .inr (.inl h)
  · exact .inr (.inr h)

/-- A consumer without a block in hand may move on. -/
theorem Located.cons (h : Located workers pending x j) (hx : ∀ b, x ≠ .release b) :
    Located workers pending y j := by
  rcases h with h | h | ⟨b, hb, -⟩
  · exact .inl h
  · exact .inr (.inl h)
  · exact absurd hb (hx b)

theorem Located.park (h : Located workers pending x j) (b : OutBlk) :
    Located workers (pending ++ [b]) x j := by
  rcases h with h | ⟨b', hb', hj⟩ | h
  · exact .inl h
  · exact .inr (.inl ⟨b', List.mem_append_left _ hb', hj⟩)
  · exact .inr (.inr h)

theorem Located.parked (b : OutBlk) (hj : b.idx = j) :
    Located workers (pending ++ [b]) x j :=
  .inr (.inl ⟨b, List.mem_append_right _ List.mem_cons_self, hj⟩)

/-- A worker hands its packet to the consumer. -/
theorem Located.taken {b : OutBlk} (h : Located workers pending .recv j)
    (hw : workers[i]? = some (.send b)) :
    Located (workers.set i .recv) pending (.release b) j := by
  by_cases hj : b.idx = j
  · exact .inr (.inr ⟨b, rfl, hj⟩)
  · exact (h.worker hw (fun hb => absurd hb hj)).cons (by rintro _ ⟨⟩)

theorem Located.workerParked {b : OutBlk} (h : Located workers pending x j)
    (hw : workers[i]? = some (.send b)) :
    Located (workers.set i .recv) (pending ++ [b]) x j := by
  by_cases hj : b.idx = j
  · exact .parked b hj
  · exact (h.worker hw (fun hb => absurd hb hj)).park b

/-- The dispatcher hands packet `k` to the consumer. -/
theorem Located.sent {b : OutBlk} {k : ℕ} (h : j < k → Located workers pending .recv j)
    (hb : b.idx = k) (hj : j < k + 1) :
    Located workers pending (.release b) j := by
  rcases Nat.lt_succ_iff_lt_or_eq.mp hj with hj | rfl
  · exact (h hj).cons (by rintro _ ⟨⟩)
  · exact .inr (.inr ⟨b, rfl, hb⟩)

theorem Located.sentPark {b : OutBlk} {k : ℕ} (h : j < k → Located workers pending x j)
    (hb : b.idx = k) (hj : j < k + 1) :
    Located workers (pending ++ [b]) x j := by
  rcases Nat.lt_succ_iff_lt_or_eq.mp hj with hj | rfl
  · exact (h hj).park b
  · exact .parked b hb

/-- Taking the packet in turn out of the pending map. -/
theorem Located.found {b : OutBlk} {n : ℕ} (h : Located workers pending .check j)
    (hb : b.idx = n) :
    Located workers (pending.filter (fun b => b.idx ≠ n)) (.release b) j := by
  rcases h with h | ⟨b', hb', hj⟩ | ⟨b', hb', -⟩
  · exact .inl h
  · by_cases hn : j = n
    · exact .inr (.inr ⟨b, rfl, hb.trans hn.symm⟩)
    · refine .inr (.inl ⟨b', List.mem_filter.mpr ⟨hb', ?_⟩, hj⟩)
      exact decide_eq_true (fun he => hn (hj.symm.trans he))
  · cases hb'

/-- The packet in hand is released; the later ones are elsewhere. -/
theorem Located.released {b : OutBlk} {n : ℕ} (h : Located workers pending (.release b) j)
    (hb : b.idx = n) (hj : n + 1 ≤ j) : Located workers pending y j := by
  rcases h with h | h | ⟨b', hb', hj'⟩
  · exact .inl h
  · exact .inr (.inl h)
  · obtain rfl := Cons.release.inj hb'
    omega

/-! ## Steps keep it -/

variable {a : Act} {c : ReaderCfg}

theorem length_workers_step (hstep : Step c s a s') : s'.workers.length = s.workers.length := by
  cases hstep <;> first | rfl | exact List.length_set

theorem inClosed_step (h : s.inClosed = s.disp.pastIn) (hfin : s.fin = false)
    (hstep : Step c s a s') : s'.inClosed = s'.disp.pastIn := by
  cases hstep with
  | closeIn => rfl
  | @closeSem err hdisp =>
      rw [hdisp] at h
      cases err <;> exact h
  | _ => first | exact h | simp_all only [Disp.pastIn, reduceCtorEq]

theorem semClosed_step (h : s.semClosed = s.disp.pastSem) (hfin : s.fin = false)
    (hstep : Step c s a s') : s'.semClosed = s'.disp.pastSem := by
  cases hstep with
  | @closeSem err =>
      cases err <;> rfl
  | _ => first | exact h | simp_all only [Disp.pastSem, reduceCtorEq]

/-- A worker leaves only once `inChan` is closed. -/
theorem workerDone_step (h : ∀ w ∈ s.workers, w = .done → s.inClosed = true)
    (hfin : s.fin = false) (hstep : Step c s a s') :
    ∀ w ∈ s'.workers, w = .done → s'.inClosed = true := by
  cases hstep with
  | closeIn => exact fun _ _ _ => rfl
  | sendIn => exact Pool.forall_set h (by rintro ⟨⟩)
  | workOk => exact Pool.forall_set h (by rintro ⟨⟩)
  | workErr => exact Pool.forall_set h (by rintro ⟨⟩)
  | workerNext => exact Pool.forall_set h (by rintro ⟨⟩)
  | workerPark => exact Pool.forall_set h (by rintro ⟨⟩)
  | workerExit _ hin => exact fun _ _ _ => hin
  | workerFin _ hfin' =>
      rw [hfin] at hfin'
      cases hfin'
  | _ => exact h

/-- The semaphore counts the packets issued and not released, and the one to come. -/
theorem tokens_step (h : Live J s) (hfin : s.fin = false) (hstep : Step c s a s') :
    s'.semClosed = false → s'.sem + s'.nextIdx = s'.curIdx + s'.disp.token := by
  have ht := h.tokens
  have hs := h.semClosed
  cases hstep with
  | acquire hdisp | readError hdisp | readStored hdisp | readData hdisp | closeIn hdisp =>
      intro hsem
      have := ht hsem
      simp only [hdisp, Disp.token] at this ⊢
      omega
  | finAcquire hfin' | finOut hfin' | finIn hfin' | finErr hfin' =>
      rw [hfin] at hfin'
      cases hfin'
  | closeSem => rintro ⟨⟩
  | sendIn hdisp | sendOutNext hdisp | sendOutPark hdisp =>
      intro hsem
      have := ht hsem
      simp only [hdisp, Disp.token] at this ⊢
      omega
  -- the semaphore is closed before the error is sent
  | sendErrNext hdisp | sendErrPark hdisp | drainOutErr _ hdisp =>
      intro hsem
      rw [hdisp] at hs
      rw [hs] at hsem
      cases hsem
  | drainIn _ hdisp | drainOutBlk _ hdisp =>
      intro hsem
      have := ht hsem
      simp only [hdisp, Disp.token] at this ⊢
      omega
  | releaseEnd _ hsem' | release _ hsem' =>
      intro hsem
      have := ht hsem
      have hpos : 0 < s.sem := hsem'.resolve_right (by rw [hsem]; exact Bool.false_ne_true)
      simp only at this ⊢
      omega
  | _ => exact ht

theorem located_step (h : Live J s) (hf : Feeds J s) (hd : Delivers J s) (hne : a ≠ .close)
    (hstep : Step J.cfg s a s') :
    ∀ j, s'.nextIdx ≤ j → j < s'.issued → Located s'.workers s'.pending s'.cons j := by
  have hl := h.located
  have hdisp' := hf.disp
  have hcons := hd.cons
  have hnofin : s.fin = true → False := fun hfin => by rw [hd.fin] at hfin; cases hfin
  cases hstep with
  | acquire hdisp | readError hdisp | readStored hdisp | readData hdisp | closeIn hdisp =>
      intro j hn hj
      refine hl j hn ?_
      simp only [issued, hdisp] at hj ⊢
      exact hj
  | finAcquire hfin | finOut hfin | finIn hfin | finErr hfin | workerFin _ hfin =>
      exact (hnofin hfin).elim
  | @closeSem err hdisp =>
      intro j hn hj
      refine hl j hn ?_
      rw [hdisp] at hdisp'
      obtain ⟨-, hfin⟩ | ⟨rfl, -⟩ := hdisp'
      · exact (hnofin hfin).elim
      · simp only [issued, hdisp, Option.elim] at hj ⊢
        exact hj
  | @sendIn i b hdisp hw =>
      rw [hdisp] at hdisp'
      intro j hn hj
      simp only [issued, hdisp] at hj hl
      -- the new number is with the worker that took the block
      rcases Nat.lt_succ_iff_lt_or_eq.mp hj with hj | rfl
      · exact (hl j hn hj).worker hw False.elim
      · exact .inl ⟨.work b, Pool.mem_set_self hw _, hdisp'.2.1⟩
  | sendOutNext hdisp hc _ =>
      rw [hdisp] at hdisp'
      intro j hn hj
      simp only [issued, hdisp, hc] at hj hl
      exact Located.sent (hl j hn) hdisp'.2.1 hj
  | sendOutPark hdisp _ _ =>
      rw [hdisp] at hdisp'
      intro j hn hj
      simp only [issued, hdisp] at hj hl
      exact Located.sentPark (hl j hn) hdisp'.2.1 hj
  | sendErrNext hdisp hc _ =>
      rw [hdisp] at hdisp'
      intro j hn hj
      simp only [issued, hdisp, hc] at hj hl
      exact Located.sent (hl j hn) (congrArg OutBlk.idx hdisp'.1) hj
  | sendErrPark hdisp _ _ =>
      rw [hdisp] at hdisp'
      intro j hn hj
      simp only [issued, hdisp] at hj hl
      exact Located.sentPark (hl j hn) (congrArg OutBlk.idx hdisp'.1) hj
  -- a number moves with its block: from worker to consumer or to the pending map
  | workOk hw _ | workErr hw _ => exact fun j hn hj => (hl j hn hj).worker hw id
  | workerNext hw hc _ =>
      rw [hc] at hl
      exact fun j hn hj => (hl j hn hj).taken hw
  | workerPark hw _ _ => exact fun j hn hj => (hl j hn hj).workerParked hw
  | workerExit hw _ => exact fun j hn hj => (hl j hn hj).worker hw False.elim
  | callFirst hc _ | callReturn hc _ _ | callQueue hc _ _ | queue hc _ _ _ | checkNone hc _ =>
      rw [hc] at hl
      exact fun j hn hj => (hl j hn hj).cons (by rintro _ ⟨⟩)
  | hashDone hc _ | hashWait hc _ _ =>
      rw [hc] at hl
      exact fun j hn hj => (hl j hn hj).cons (by rintro _ ⟨⟩)
  | checkFound hc _ hidx =>
      rw [hc] at hl
      exact fun j hn hj => (hl j hn hj).found hidx
  | releaseEnd hc _ _ _ | release hc _ _ =>
      rw [hc] at hl hcons
      -- the number released is the one below those that are to be located
      exact fun j hn hj => (hl j (Nat.le_of_succ_le hn) hj).released hcons.2.1 hn
  | close => exact absurd rfl hne
  | wgWait hc | drainIn hc | drainInDone hc | drainOutBlk hc | drainOutErr hc | drainOutDone hc =>
      rw [hc] at hcons
      exact hcons.elim
  | closeHashed hc | closeHash hc | closeWait hc =>
      rw [hc] at hcons
      exact hcons.elim
  | hash | hashExit => exact hl

/-- A parked packet is not the one the consumer waits for. -/
theorem waiting_step (h : s.cons = .recv → ∀ b ∈ s.pending, b.idx ≠ s.nextIdx)
    (hstep : Step c s a s') : s'.cons = .recv → ∀ b ∈ s'.pending, b.idx ≠ s'.nextIdx := by
  have hsnoc : ∀ {x : OutBlk}, s.cons = .recv → x.idx ≠ s.nextIdx →
      ∀ b ∈ s.pending ++ [x], b.idx ≠ s.nextIdx := by
    intro x hc hidx b hb
    rcases List.mem_append.mp hb with hb | hb
    · exact h hc b hb
    · exact List.mem_singleton.mp hb ▸ hidx
  cases hstep with
  | sendOutPark _ hc hidx | sendErrPark _ hc hidx | workerPark _ hc hidx =>
      exact fun _ => hsnoc hc hidx
  | checkNone _ hnone => exact fun _ => hnone
  | release | hashWait =>
      intro hc
      split at hc <;> cases hc
  | drainOutDone => exact fun _ _ hb => absurd hb List.not_mem_nil
  | sendOutNext | sendErrNext | workerNext | callFirst | callReturn | callQueue | queue => rintro ⟨⟩
  | checkFound | releaseEnd | hashDone | close | wgWait | drainInDone => rintro ⟨⟩
  | closeHashed | closeHash | closeWait => rintro ⟨⟩
  | _ => exact h


/-- Only `closed` matters of the hasher. -/
theorem HashLive.congr {h h' : Hasher} (hl : HashLive (some h) x) (hcl : h'.closed = h.closed) :
    HashLive (some h') x := by
  have hall : (∀ k, some h = some k → k.closed = false) →
      ∀ k, some h' = some k → k.closed = false := by
    intro hk k hk'
    rw [← Option.some.inj hk', hcl]
    exact hk h rfl
  have hex : ∀ b, (∃ k, some h = some k ∧ k.closed = b) → ∃ k, some h' = some k ∧ k.closed = b := by
    rintro b ⟨k, hk, hb⟩
    exact ⟨h', rfl, by rw [hcl, Option.some.inj hk, hb]⟩
  cases x <;> first | trivial | exact hall hl | exact hex _ hl

theorem hashLive_step (h : HashLive s.hasher s.cons) (hd : Delivers J s) (hne : a ≠ .close)
    (hstep : Step c s a s') : HashLive s'.hasher s'.cons := by
  have hcons := hd.cons
  cases hstep with
  | hash hh | hashExit hh =>
      rw [hh] at h
      exact h.congr rfl
  | sendOutNext _ hc | sendErrNext _ hc | workerNext _ hc =>
      rw [hc] at h
      exact h
  | callFirst hc | callReturn hc | checkFound hc | checkNone hc =>
      rw [hc] at h
      exact h
  | callQueue hc _ hh =>
      rw [hc] at h
      exact ⟨_, hh, h _ hh⟩
  | queue hc hh _ hcl =>
      intro h' hh'
      rw [← Option.some.inj hh']
      exact hcl
  | releaseEnd hc _ _ hh =>
      rw [hc] at h
      obtain ⟨h', hh⟩ := Option.ne_none_iff_exists'.mp hh
      exact ⟨h', hh, h h' hh⟩
  | release hc =>
      rw [hc] at h
      split
      · exact h
      · trivial
  | hashDone => exact ⟨_, rfl, rfl⟩
  -- the last result is an error, so the hasher is not needed any more
  | hashWait hc =>
      rw [hc] at hcons
      rw [hcons.2.2.2.1, Option.map_some, if_neg (by rintro ⟨⟩)]
      trivial
  | close => exact absurd rfl hne
  | wgWait hc | drainInDone hc | drainOutDone hc | closeHashed hc | closeHash hc | closeWait hc =>
      rw [hc] at hcons
      exact hcons.elim
  | _ => exact h

/-- **Progress, one step.** -/
theorem Live.step (hf : Feeds J s) (hd : Delivers J s) (h : Live J s) (hne : a ≠ .close)
    (hstep : Step J.cfg s a s') : Live J s' where
  workers := (length_workers_step hstep).symm ▸ h.workers
  done := workerDone_step h.done hd.fin hstep
  inClosed := inClosed_step h.inClosed hd.fin hstep
  semClosed := semClosed_step h.semClosed hd.fin hstep
  tokens := tokens_step h hd.fin hstep
  located := located_step h hf hd hne hstep
  waiting := waiting_step h.waiting hstep
  hash := hashLive_step h.hash hd hne hstep

/-! ## Something can always move -/

/-- Some thread can move, the consumer by going on reading. -/
def Moves (c : ReaderCfg) (s : AsyncReader) : Prop := ∃ a, a ≠ .close ∧ (AsyncReader.step c s a).isSome = true

/-- A worker with a block can decode it or hand it over. -/
theorem moves_of_holds {w : Worker} {j : ℕ} (hcons : s.cons = .recv) (hw : w ∈ s.workers)
    (hj : w.Holds j) : Moves c s := by
  obtain ⟨i, hi⟩ := List.mem_iff_getElem?.mp hw
  cases w with
  | recv => exact hj.elim
  | work b => exact ⟨.work i, (by rintro ⟨⟩), by simp only [AsyncReader.step, hi, Option.isSome_some]⟩
  | send b => exact ⟨.workerOut i, (by rintro ⟨⟩), by simp only [AsyncReader.step, hi, hcons, if_true, Option.isSome_some]⟩
  | done => exact hj.elim

/-- While blocks are to come, the dispatcher can move, or a worker that keeps it
waiting. -/
theorem moves_of_dispatching (h : Live J s) (hcons : s.cons = .recv)
    (hdisp : s.disp ≠ .done) (hsem : s.disp = .acquire → s.sem < c.nPending) : Moves c s := by
  rcases hd : s.disp with _ | _ | b | b | err | err | b | _
  · exact ⟨.acquire, (by rintro ⟨⟩), by
      simp only [AsyncReader.step, hd, hsem hd, and_self, if_true, Option.isSome_some]⟩
  · exact ⟨.read, (by rintro ⟨⟩), by simp only [AsyncReader.step, hd, if_true, Option.isSome_some]⟩
  · exact ⟨.sendOut, (by rintro ⟨⟩), by simp only [AsyncReader.step, offered, hd, hcons, if_true, Option.isSome_some]⟩
  · obtain ⟨w, ws, hws⟩ := List.exists_cons_of_length_pos h.workers
    have hmem : w ∈ s.workers := by rw [hws]; exact List.mem_cons_self
    have hget : s.workers[0]? = some w := by rw [hws]; rfl
    rcases hw : w with _ | b' | b' | _
    · exact ⟨.sendIn 0, (by rintro ⟨⟩), by simp only [AsyncReader.step, hd, hget, hw, Option.isSome_some]⟩
    · exact moves_of_holds hcons hmem (j := b'.idx) (by rw [hw]; rfl)
    · exact moves_of_holds hcons hmem (j := b'.idx) (by rw [hw]; rfl)
    · have hin := h.done w hmem hw
      rw [h.inClosed, hd] at hin
      cases hin
  · exact ⟨.closeIn, (by rintro ⟨⟩), by simp only [AsyncReader.step, hd, Option.isSome_some]⟩
  · exact ⟨.closeSem, (by rintro ⟨⟩), by simp only [AsyncReader.step, hd, Option.isSome_some]⟩
  · exact ⟨.sendOut, (by rintro ⟨⟩), by simp only [AsyncReader.step, offered, hd, hcons, if_true, Option.isSome_some]⟩
  · exact absurd hd hdisp

/-- Waiting for a packet that is issued, or for one that is to come. -/
theorem moves_of_recv (hf : Feeds J s) (hd : Delivers J s) (h : Live J s)
    (hpend : 0 < J.cfg.nPending) (hcons : s.cons = .recv) : Moves J.cfg s := by
  have hclean := hd.cons
  rw [hcons] at hclean
  by_cases hlt : s.nextIdx < s.issued
  · rcases h.located s.nextIdx le_rfl hlt with ⟨w, hw, hj⟩ | ⟨b, hb, hj⟩ | ⟨b, hb, -⟩
    · exact moves_of_holds hcons hw hj
    · exact absurd hj (h.waiting hcons b hb)
    · rw [hcons] at hb
      cases hb
  · have hle := hclean.le
    have hdone : s.disp ≠ .done := by
      intro hdone
      have hidx := (hf.ended hd.fin hdone).idx
      rw [issued, hdone] at hlt
      simp only at hlt
      omega
    refine moves_of_dispatching h hcons hdone (fun hacq => ?_)
    have htok := h.tokens (by rw [h.semClosed, hacq]; rfl)
    simp only [issued, hacq, Disp.token] at hlt htok
    omega

/-- A packet in hand has its semaphore. -/
theorem release_enabled (h : Live J s) (hlt : s.nextIdx < s.issued) :
    0 < s.sem ∨ s.semClosed = true := by
  by_cases hsem : s.semClosed = true
  · exact .inr hsem
  · have htok := h.tokens (Bool.not_eq_true _ ▸ hsem)
    have hdone : s.disp ≠ .done := by
      intro hdone
      rw [h.semClosed, hdone] at hsem
      exact hsem rfl
    left
    rw [issued] at hlt
    split at hlt
    · exact absurd ‹_› hdone
    · omega

/-- **Progress.** Until `NextBlock` has returned an error, some thread can move. -/
theorem Live.moves (hf : Feeds J s) (hd : Delivers J s) (h : Live J s)
    (hpend : 0 < J.cfg.nPending) (hcap : 0 < J.cfg.hashCap) (hcons : s.cons ≠ .ended) :
    Moves J.cfg s := by
  have hc := hd.cons
  have hlive := h.hash
  rcases hx : s.cons with _ | b | _ | _ | b | b | b | _ | _ | _ | _ | _ | _ | _ <;>
    rw [hx] at hc hlive
  · refine ⟨.call, (by rintro ⟨⟩), ?_⟩
    rcases hheld : s.held with _ | b <;> rcases hh : s.hasher with _ | h' <;>
      simp only [AsyncReader.step, hx, hheld, hh, if_true, Option.isSome_some]
  · obtain ⟨⟨q, hash, closed, exited⟩, hh, hcl⟩ := hlive
    simp only at hcl
    -- the hash channel is full only if the hasher can take from it
    rcases q with _ | ⟨b', q⟩
    · exact ⟨.queue, (by rintro ⟨⟩), by
        simp only [AsyncReader.step, hx, hh, hcl, List.length_nil, hcap, and_self, if_true,
          Option.isSome_some]⟩
    · exact ⟨.hash, (by rintro ⟨⟩), by simp only [AsyncReader.step, hh, Option.isSome_some]⟩
  · refine ⟨.check, (by rintro ⟨⟩), ?_⟩
    simp only [AsyncReader.step, hx, if_true]
    split <;> rfl
  · -- the consumer waits for a block: it is with a worker, or still to be read
    exact moves_of_recv hf hd h hpend hx
  · refine ⟨.release, (by rintro ⟨⟩), ?_⟩
    simp only [AsyncReader.step, hx]
    rw [if_pos (release_enabled h hc.2.2.2)]
    split <;> rfl
  · obtain ⟨h', hh, -⟩ := hlive
    exact ⟨.hashDone, (by rintro ⟨⟩), by simp only [AsyncReader.step, hx, hh, Option.isSome_some]⟩
  · obtain ⟨⟨q, hash, closed, exited⟩, hh, hcl⟩ := hlive
    simp only at hcl
    subst hcl
    rcases exited with _ | _
    · rcases q with _ | ⟨b', q⟩
      · exact ⟨.hashExit, (by rintro ⟨⟩), by simp only [AsyncReader.step, hh, Option.isSome_some]⟩
      · exact ⟨.hash, (by rintro ⟨⟩), by simp only [AsyncReader.step, hh, Option.isSome_some]⟩
    · exact ⟨.hashWait, (by rintro ⟨⟩), by
        simp only [AsyncReader.step, hx, hh, if_true, Option.isSome_some]⟩
  · exact absurd hx hcons
  all_goals exact hc.elim

/-! ## Every run is bounded -/

/-- A bound on the steps to come. -/
def fuel (J : Job) (s : AsyncReader) : ℕ :=
  s.disp.fuel (J.parsed.frames.length - s.curIdx) + (s.workers.map Worker.fuel).sum + s.cons.fuel
    + 11 * (J.parsed.frames.length + 1 - s.results.length) + s.hasher.elim 0 Hasher.fuel

/-- No more results are delivered than there are. -/
theorem results_lt (hd : Delivers J s) {b : OutBlk} (hcons : s.cons = .release b ∨ s.cons = .hashWait b) :
    s.results.length ≤ J.parsed.frames.length := by
  have hc := hd.cons
  rcases hcons with hcons | hcons <;> rw [hcons] at hc <;>
    rw [hc.1.eq, List.length_take] <;> have := hc.1.le <;> omega

/-- A block in the dispatcher's hand is one of the parse. -/
theorem curIdx_lt (hf : Feeds J s) (hdisp : (∃ b, s.disp = .sendIn b) ∨ ∃ b, s.disp = .sendOut b) :
    s.curIdx < J.parsed.frames.length := by
  have hd := hf.disp
  rcases hdisp with ⟨b, hdisp⟩ | ⟨b, hdisp⟩ <;> rw [hdisp] at hd <;> exact hd.1.le

theorem fuel_step (hf : Feeds J s) (hd : Delivers J s) (hne : a ≠ .close)
    (hstep : Step J.cfg s a s') : fuel J s' < fuel J s := by
  have hcons := hd.cons
  have hnofin : s.fin = true → False := fun hfin => by rw [hd.fin] at hfin; cases hfin
  cases hstep with
  | acquire hdisp | readStored hdisp | readData hdisp | readError hdisp | closeIn hdisp =>
      simp only [fuel, hdisp, Disp.fuel]
      omega
  | finAcquire hfin | finOut hfin | finIn hfin | finErr hfin | workerFin _ hfin =>
      exact (hnofin hfin).elim
  | @closeSem err hdisp =>
      cases err <;> simp only [fuel, hdisp, Disp.fuel, Option.elim] <;> omega
  -- a block costs the dispatcher more than what it is worth behind it
  | @sendIn i b hdisp hw =>
      have hlt := curIdx_lt hf (.inl ⟨_, hdisp⟩)
      have hsum := Pool.sum_set Worker.fuel hw (.work b)
      simp only [fuel, hdisp, Disp.fuel, Worker.fuel] at hsum ⊢
      omega
  | sendOutNext hdisp hc | sendOutPark hdisp hc =>
      have hlt := curIdx_lt hf (.inr ⟨_, hdisp⟩)
      simp only [fuel, hdisp, hc, Disp.fuel, Cons.fuel]
      omega
  | sendErrNext hdisp hc | sendErrPark hdisp hc =>
      simp only [fuel, hdisp, hc, Disp.fuel, Cons.fuel]
      omega
  | @workOk _ b data _ hw _ =>
      have hsum := Pool.sum_set Worker.fuel hw (.send ⟨none, b.idx, b.srcSz, some ⟨s.borrowed, data⟩⟩)
      simp only [fuel, Worker.fuel] at hsum ⊢
      omega
  | @workErr _ b e _ hw _ =>
      have hsum := Pool.sum_set Worker.fuel hw (.send ⟨some e, b.idx, b.srcSz, none⟩)
      simp only [fuel, Worker.fuel] at hsum ⊢
      omega
  | workerNext hw hc | workerPark hw hc =>
      have hsum := Pool.sum_set Worker.fuel hw .recv
      simp only [fuel, hc, Worker.fuel, Cons.fuel] at hsum ⊢
      omega
  | workerExit hw =>
      have hsum := Pool.sum_set Worker.fuel hw .done
      simp only [fuel, Worker.fuel] at hsum ⊢
      omega
  | hash hh hq =>
      simp only [fuel, hh, Option.elim, Hasher.fuel, hq, List.length_cons]
      omega
  | hashExit hh hq hcl hex =>
      simp only [fuel, hh, Option.elim, Hasher.fuel, hex, if_true, Bool.false_eq_true, if_false]
      omega
  | callFirst hc | callReturn hc | callQueue hc | checkFound hc | checkNone hc | releaseEnd hc =>
      simp only [fuel, hc, Cons.fuel]
      omega
  | queue hc hh =>
      simp only [fuel, hc, hh, Cons.fuel, Option.elim, Hasher.fuel, List.length_append,
        List.length_singleton]
      omega
  | release hc =>
      have hle := results_lt hd (.inl hc)
      split <;> simp only [fuel, hc, Cons.fuel, List.length_append, List.length_singleton] <;> omega
  | hashDone hc hh =>
      simp only [fuel, hc, hh, Cons.fuel, Option.elim, Hasher.fuel]
      omega
  -- a result is given: fewer are left of those that the source has
  | hashWait hc =>
      have hle := results_lt hd (.inr hc)
      split <;> simp only [fuel, hc, Cons.fuel, List.length_append, List.length_singleton] <;> omega
  | close => exact absurd rfl hne
  | wgWait hc | drainIn hc | drainInDone hc | drainOutBlk hc | drainOutErr hc | drainOutDone hc =>
      rw [hc] at hcons
      exact hcons.elim
  | closeHashed hc | closeHash hc | closeWait hc =>
      rw [hc] at hcons
      exact hcons.elim

/-! ## Whole runs -/

/-- All that is kept while `Close` is not called. -/
structure Serves (J : Job) (s : AsyncReader) : Prop where
  feeds : Feeds J s
  delivers : Delivers J s
  live : Live J s

theorem Serves.step (h : Serves J s) (hne : a ≠ .close) (hstep : AsyncReader.step J.cfg s a = some s') :
    Serves J s' :=
  ⟨h.feeds.step (step_spec hstep), h.delivers.step h.feeds hne (step_spec hstep),
    h.live.step h.feeds h.delivers hne (step_spec hstep)⟩

/-- A reader in `_close` returns no more results. -/
theorem closing_step (h : s.cons.closing = true) (hstep : Step c s a s') :
    s'.cons.closing = true ∧ s'.results = s.results := by
  have habs : ∀ {x : Cons}, s.cons = x → x.closing = false → False := by
    intro x hx hf
    rw [hx, hf] at h
    cases h
  cases hstep with
  | sendOutNext _ hc | sendErrNext _ hc | workerNext _ hc => exact (habs hc rfl).elim
  | callFirst hc | callReturn hc | callQueue hc | queue hc => exact (habs hc rfl).elim
  | checkFound hc | checkNone hc | releaseEnd hc | release hc => exact (habs hc rfl).elim
  | hashDone hc | hashWait hc => exact (habs hc rfl).elim
  | drainOutDone =>
      refine ⟨?_, rfl⟩
      split <;> rfl
  | wgWait | drainInDone | closeHashed | closeHash | closeWait | close => exact ⟨rfl, rfl⟩
  | _ => exact ⟨h, rfl⟩

/-- What was delivered is the beginning of the session. -/
theorem Delivers.results_le (h : Delivers J s) : s.results <+: J.session.results := by
  have hc := h.cons
  rcases hx : s.cons with _ | b | _ | _ | b | b | b | _ | _ | _ | _ | _ | _ | _ <;> rw [hx] at hc
  · exact hc.results_le
  · exact hc.results_le
  · exact hc.results_le
  · exact hc.results_le
  · exact hc.1.results_le
  · exact hc.1.results_le
  · exact hc.1.results_le
  · exact hc.1 ▸ List.prefix_rfl
  all_goals exact hc.elim

variable {as : List Act}

theorem Serves.run (h : Serves J s) (has : .close ∉ as)
    (hrun : Machine.run (AsyncReader.step J.cfg) s as = some s') : Serves J s' :=
  Machine.invariant_run_of (fun _ _ _ hne hs hstep => Serves.step hs hne hstep)
    (fun _ ha he => has (he ▸ ha)) h hrun

/-- The feeding side keeps its invariant whatever the consumer does. -/
theorem Feeds.run (h : Feeds J s) (hrun : Machine.run (AsyncReader.step J.cfg) s as = some s') :
    Feeds J s' :=
  Machine.invariant_run (fun _ _ _ hs hstep => Feeds.step hs (step_spec hstep)) h hrun

/-- Whenever `Close` is called, what was delivered is the beginning of the session. -/
theorem Serves.run_prefix (h : Serves J s)
    (hrun : Machine.run (AsyncReader.step J.cfg) s as = some s') :
    s'.results <+: J.session.results := by
  have hinv := Machine.invariant_run (I := fun t => Serves J t ∨
      t.cons.closing = true ∧ t.results <+: J.session.results) ?_ (.inl h) hrun
  · rcases hinv with hs | hs
    · exact hs.delivers.results_le
    · exact hs.2
  · rintro t b t' (hs | ⟨hcl, hpre⟩) hstep
    · by_cases hb : b = .close
      · subst hb
        have hpre := hs.delivers.results_le
        cases step_spec hstep
        exact .inr ⟨rfl, hpre⟩
      · exact .inl (hs.step hb hstep)
    · obtain ⟨hcl', hres⟩ := closing_step hcl (step_spec hstep)
      exact .inr ⟨hcl', hres ▸ hpre⟩

/-- Without `Close` a run is no longer than its fuel. -/
theorem Serves.length_run_le (h : Serves J s) (has : .close ∉ as)
    (hrun : Machine.run (AsyncReader.step J.cfg) s as = some s') :
    as.length + fuel J s' ≤ fuel J s :=
  Machine.length_run_le (fuel J) (fun _ _ _ hne hs hstep =>
    ⟨Serves.step hs hne hstep, fuel_step hs.feeds hs.delivers hne (step_spec hstep)⟩)
    (fun _ ha he => has (he ▸ ha)) h hrun

end AsyncReader

/-! ## The reader `NewAsyncReader` makes -/

open AsyncReader

variable {Z : Clz4} {hdr : HeaderT} {o : OptsT} {src : Bytes}

/-- The job of a reader. -/
def readerJob (Z : Clz4) (hdr : HeaderT) (o : OptsT) (src : Bytes) : Job where
  cfg := readerCfg Z hdr o
  fr := readerFrame hdr
  dc := readerDc hdr o
  src := src
  hashing := useHasher hdr o

/-- For independent blocks the decompressor keeps nothing. -/
theorem readerDc_not_linked (h : hdr.flags.blockIndependence = true) :
    (readerDc hdr o).linked = false := by
  rw [readerDc, readerDict, h]
  rcases o.dictionary with _ | d <;> rfl

/-- A new reader meets the invariants. `makeBlockReader` gives a linked reader one
worker. -/
theorem newAsyncReader_feeds (hone : hdr.flags.blockIndependence = false → o.nParallel = 1) :
    Feeds (readerJob Z hdr o src) (newAsyncReader src hdr o) where
  disp := ⟨rfl, rfl, Nat.zero_le _⟩
  workers := fun w hw => by rw [List.eq_of_mem_replicate hw]; trivial
  dc := by
    rcases hind : hdr.flags.blockIndependence with _ | _
    · refine .inr ⟨.recv, ?_, rfl⟩
      rw [newAsyncReader, hone hind]
      rfl
    · exact .inl ⟨fun k => dcAt_of_not_linked (readerDc_not_linked hind) k, rfl⟩
  drains := by rintro ⟨⟩
  decodes := by rintro _ ⟨⟩

theorem newAsyncReader_serves (hpar : 0 < o.nParallel)
    (hone : hdr.flags.blockIndependence = false → o.nParallel = 1) :
    Serves (readerJob Z hdr o src) (newAsyncReader src hdr o) where
  feeds := newAsyncReader_feeds hone
  delivers :=
    { fin := rfl
      cons := ⟨rfl, (by rintro _ ⟨⟩)⟩
      pending := by rintro _ ⟨⟩
      hashing := by
        rw [newAsyncReader, readerJob]
        rcases useHasher hdr o <;> rfl
      held := fun _ => rfl
      hash := fun h hh => by
        rw [newAsyncReader] at hh
        split_ifs at hh
        obtain rfl := Option.some.inj hh
        exact ⟨⟨[], rfl, rfl⟩, (by rintro ⟨⟩)⟩ }
  live :=
    { workers := by rw [newAsyncReader, List.length_replicate]; exact hpar
      done := fun w hw hd => by rw [List.eq_of_mem_replicate hw] at hd; cases hd
      inClosed := rfl
      semClosed := rfl
      tokens := fun _ => rfl
      located := fun j _ hj => absurd hj (Nat.not_lt_zero j)
      waiting := by rintro ⟨⟩
      hash := fun h hh => by
        rw [newAsyncReader] at hh
        split_ifs at hh
        obtain rfl := Option.some.inj hh
        rfl }

/-- The steps of a run are at most proportional to the source. -/
theorem fuel_newAsyncReader :
    fuel (readerJob Z hdr o src) (newAsyncReader src hdr o)
      ≤ 5 * src.length + o.nParallel + 27 := by
  have hsum : ((List.replicate o.nParallel Worker.recv).map Worker.fuel).sum = o.nParallel := by
    rw [List.map_replicate, List.sum_replicate, Worker.fuel, smul_eq_mul, mul_one]
  have hhash : (newAsyncReader src hdr o).hasher.elim 0 Hasher.fuel ≤ 1 := by
    rw [newAsyncReader]
    split_ifs
    · exact le_rfl
    · exact Nat.zero_le _
  have hlen : 4 * (readerJob Z hdr o src).parsed.frames.length ≤ src.length :=
    length_parseFrames (readerFrame hdr) src
  rw [fuel]
  change 6 * (_ - 0) + 5 + ((List.replicate o.nParallel Worker.recv).map Worker.fuel).sum + 10
    + 11 * (_ + 1 - 0) + _ ≤ _
  rw [hsum]
  omega

/-- **The asynchronous reader refines the synchronous one.** On any schedule the results
of `NextBlock` are the beginning of the synchronous reader's. Unless the consumer calls
`Close` the threads never block each other, the run is bounded, and when `NextBlock` has
returned an error the results are all of the synchronous reader's; after an end mark
both have read the same source. -/
theorem newAsyncReader_refines (Z : Clz4) (hdr : HeaderT) (o : OptsT) (src : Bytes)
    (hpar : 0 < o.nParallel) (hone : hdr.flags.blockIndependence = false → o.nParallel = 1)
    {as : List Act} {s : AsyncReader}
    (hrun : Machine.run (step (readerCfg Z hdr o)) (newAsyncReader src hdr o) as = some s) :
    s.results <+: (syncSession Z hdr o src).results ∧
    (.close ∉ as →
      (s.cons ≠ .ended → ∃ a, a ≠ .close ∧ (step (readerCfg Z hdr o) s a).isSome = true) ∧
      as.length ≤ 5 * src.length + o.nParallel + 27 ∧
      (s.cons = .ended → s.results = (syncSession Z hdr o src).results ∧
        ((syncSession Z hdr o src).endErr = .const .endMark →
          s.src = (syncSession Z hdr o src).rest))) := by
  have hsame := syncSession_same Z hdr o src
  have hinit : Serves (readerJob Z hdr o src) (newAsyncReader src hdr o) :=
    newAsyncReader_serves hpar hone
  rw [hsame.results]
  refine ⟨hinit.run_prefix hrun, fun hclose => ?_⟩
  have hs := hinit.run hclose hrun
  refine ⟨fun hcons => ?_, ?_, fun hcons => ?_⟩
  · have hpend : 0 < o.calcPending := hpar.trans_le o.le_calcPending
    exact hs.live.moves hs.feeds hs.delivers hpend hpar hcons
  · have hlen := hinit.length_run_le hclose hrun
    have hfuel : fuel (readerJob Z hdr o src) (newAsyncReader src hdr o) ≤ _ := fuel_newAsyncReader
    omega
  · have hc := hs.delivers.cons
    rw [hcons] at hc
    refine ⟨hc.1, fun hend => ?_⟩
    have hend' : (frameSession Z hdr o src).endErr = .const .endMark := hsame.endErr ▸ hend
    have hsrc := (hs.feeds.ended hs.delivers.fin (hc.2 hend')).src
    rw [hsame.rest hend, hsrc]
    exact (sessionOf_rest _ _ _).symm

/-- Two workers whose blocks arrive in the wrong order. -/
theorem newAsyncReader_refines_two_workers :
    ∃ s, Machine.run (step (readerCfg litEngine ⟨7, 0, 0, ⟨0x60⟩, ⟨0x40⟩⟩
          { OptsT.default with nParallel := 2 }))
        (newAsyncReader [2, 0, 0, 0, 16, 7, 2, 0, 0, 0, 16, 8, 0, 0, 0, 0]
          ⟨7, 0, 0, ⟨0x60⟩, ⟨0x40⟩⟩ { OptsT.default with nParallel := 2 })
        [.acquire, .read, .sendIn 0, .acquire, .read, .sendIn 1, .work 1, .call, .check,
          .workerOut 1, .work 0, .workerOut 0, .release, .call, .check, .release, .acquire, .read,
          .closeIn, .closeSem, .call, .check, .sendOut, .release] = some s ∧
      s.results = (syncSession litEngine ⟨7, 0, 0, ⟨0x60⟩, ⟨0x40⟩⟩
        { OptsT.default with nParallel := 2 }
        [2, 0, 0, 0, 16, 7, 2, 0, 0, 0, 16, 8, 0, 0, 0, 0]).results := by
  have hcons : (Machine.run (step (readerCfg litEngine ⟨7, 0, 0, ⟨0x60⟩, ⟨0x40⟩⟩
          { OptsT.default with nParallel := 2 }))
        (newAsyncReader [2, 0, 0, 0, 16, 7, 2, 0, 0, 0, 16, 8, 0, 0, 0, 0]
          ⟨7, 0, 0, ⟨0x60⟩, ⟨0x40⟩⟩ { OptsT.default with nParallel := 2 })
        [.acquire, .read, .sendIn 0, .acquire, .read, .sendIn 1, .work 1, .call, .check,
          .workerOut 1, .work 0, .workerOut 0, .release, .call, .check, .release, .acquire, .read,
          .closeIn, .closeSem, .call, .check, .sendOut, .release]).map AsyncReader.cons
      = some .ended := by decide +kernel
  obtain ⟨s, hrun, hs⟩ := Option.map_eq_some_iff.mp hcons
  have hspec := newAsyncReader_refines litEngine _ _ _ (by decide) (by decide) hrun
  exact ⟨s, hrun, ((hspec.2 (by decide)).2.2 hs).1⟩

end Plz4
