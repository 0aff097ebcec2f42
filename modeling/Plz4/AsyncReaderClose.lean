/-
`Close` of the asynchronous reader, at any moment between two calls of `NextBlock`.

Every block borrowed from the pool is at one place, in a thread's hands, in a channel, in the
pending map or with the consumer, or it has been given back, once. No thread sends on a
channel that is closed, and from `Close` on there is always a thread that can move, though
not forever.
-/
import Plz4.AsyncReaderLive

set_option autoImplicit false

namespace Plz4

/-! ## Where the blocks are -/

/-- The borrow numbers of a packet. -/
def OutBlk.ids (b : OutBlk) : List ℕ := b.blk.toList.map Blk.id

def Disp.ids : Disp → List ℕ
  | .sendOut b | .sendErr b => b.ids
  | .sendIn b => [b.blk.id]
  | _ => []

def Worker.ids : Worker → List ℕ
  | .work b => [b.blk.id]
  | .send b => b.ids
  | _ => []

def Cons.ids : Cons → List ℕ
  | .queue b => [b.id]
  | .release b | .hashDone b | .hashWait b => b.ids
  | _ => []

/-- Packet `j` counts for one. -/
def OutBlk.is (j : ℕ) (b : OutBlk) : ℕ := [b.idx].count j

def Worker.is (j : ℕ) : Worker → ℕ
  | .work b => [b.idx].count j
  | .send b => b.is j
  | _ => 0

def Cons.is (j : ℕ) : Cons → ℕ
  | .release b => b.is j
  | _ => 0

/-- Where `NextBlock` and `_close` leave the consumer it has no packet and no block. -/
theorem Cons.is_after (j : ℕ) {x y : Cons} (p : Prop) [Decidable p] (hx : x.is j = 0)
    (hy : y.is j = 0) : (if p then x else y).is j = 0 := by
  split_ifs
  · exact hx
  · exact hy

theorem Cons.ids_after {x y : Cons} (p : Prop) [Decidable p] (hx : x.ids = []) (hy : y.ids = []) :
    (if p then x else y).ids = [] := by
  split_ifs
  · exact hx
  · exact hy

/-- The borrow numbers in the pending map. -/
theorem count_ids (bs : List OutBlk) (k : ℕ) :
    ((bs.flatMap (fun b => b.blk.toList)).map Blk.id).count k
      = (bs.map (fun b => b.ids.count k)).sum := by
  rw [List.map_flatMap, List.count_flatMap]
  rfl

/-- In a call of `NextBlock`. -/
def Cons.calling : Cons → Bool
  | .queue _ | .check | .recv | .release _ | .hashDone _ | .hashWait _ => true
  | _ => false

/-- `_close` has drained `inChan`. -/
def Cons.drained : Cons → Bool
  | .drainOut | .hashDoneC | .hashWaitC | .closed => true
  | _ => false

/-- `_close` has drained the pending map. -/
def Cons.emptied : Cons → Bool
  | .hashDoneC | .hashWaitC | .closed => true
  | _ => false

/-- The steps of `_close` to come. -/
def Cons.closeFuel : Cons → ℕ
  | .wgWait => 5
  | .drainIn => 4
  | .drainOut => 3
  | .hashDoneC => 2
  | .hashWaitC => 1
  | _ => 0

namespace AsyncReader

open Pool (upTo upTo_succ upTo_le_one)

variable {J : Job} {c : ReaderCfg} {s s' : AsyncReader} {a : Act}

/-- Packets with number `j` that are issued and not yet released. -/
def packets (s : AsyncReader) (j : ℕ) : ℕ :=
  (s.workers.map (Worker.is j)).sum + (s.pending.map (OutBlk.is j)).sum + s.cons.is j

/-- How often block `k` is out. -/
def out (s : AsyncReader) (k : ℕ) : ℕ :=
  s.disp.ids.count k + (s.workers.map (fun w => w.ids.count k)).sum + s.cons.ids.count k
    + (s.held.toList.map Blk.id).count k + (s.pending.map (fun b => b.ids.count k)).sum
    + (s.hasher.elim [] (fun h => h.q.map Blk.id)).count k

/-- A packet has its number for itself. -/
def Numbered (s : AsyncReader) : Prop := ∀ j, s.packets j ≤ upTo s.issued j

/-- A block borrowed is out or given back, once. -/
def Booked (s : AsyncReader) : Prop := ∀ k, s.returned.count k + s.out k = upTo s.borrowed k

/-! ## The numbers of the packets -/

theorem sum_is (bs : List OutBlk) (n : ℕ) :
    (bs.map (OutBlk.is n)).sum = bs.countP (fun b => b.idx = n) := by
  induction bs with
  | nil => rfl
  | cons b bs ih =>
      rw [List.map_cons, List.sum_cons, ih, List.countP_cons, OutBlk.is, List.count_singleton,
        Nat.add_comm]
      simp only [beq_iff_eq, decide_eq_true_eq]

/-- Taking the packet in turn out of the pending map takes out that packet alone. -/
theorem Numbered.found (h : Numbered s) (f : OutBlk → ℕ) {b : OutBlk} (hmem : b ∈ s.pending)
    (hidx : b.idx = s.nextIdx) :
    ((s.pending.filter (fun b => b.idx ≠ s.nextIdx)).map f).sum + f b = (s.pending.map f).sum := by
  have hone : s.pending.countP (fun b => b.idx = s.nextIdx) ≤ 1 := by
    have hle := h s.nextIdx
    rw [packets, sum_is] at hle
    have := upTo_le_one s.issued s.nextIdx
    omega
  have hsum := Pool.sum_filter f hmem (decide_eq_true hidx) hone
  simpa only [decide_not] using hsum

theorem Numbered.step (h : Numbered s) (hf : Feeds J s) (hstep : Step J.cfg s a s') :
    Numbered s' := by
  intro j
  have hj := h j
  have hd := hf.disp
  cases hstep with
  | @sendIn i b hdisp hw =>
      have hsum := Pool.sum_set (Worker.is j) hw (.work b)
      rw [hdisp] at hd
      simp only [packets, issued, hdisp, Worker.is, hd.2.1, upTo_succ] at hsum hj ⊢
      omega
  -- a packet sent to the consumer has the next number, and the count of numbers goes up
  | sendOutNext hdisp hcons | sendOutPark hdisp hcons =>
      rw [hdisp] at hd
      simp only [packets, issued, hdisp, hcons, Cons.is, OutBlk.is, hd.2.1, upTo_succ, List.map_append,
        List.sum_append, List.map_cons, List.map_nil, List.sum_cons, List.sum_nil] at hj ⊢
      omega
  | sendErrNext hdisp hcons | sendErrPark hdisp hcons =>
      rw [hdisp] at hd
      simp only [packets, issued, hdisp, hcons, Cons.is, OutBlk.is, hd.1, upTo_succ, List.map_append,
        List.sum_append, List.map_cons, List.map_nil, List.sum_cons, List.sum_nil] at hj ⊢
      omega
  -- a packet dropped leaves its number behind
  | finErr _ hdisp | drainOutErr _ hdisp =>
      simp only [packets, issued, hdisp, upTo_succ] at hj ⊢
      omega
  | drainIn _ hdisp | drainOutBlk _ hdisp =>
      simp only [packets, issued, hdisp, upTo_succ] at hj ⊢
      omega
  | @closeSem err hdisp =>
      cases err <;> simp only [packets, issued, hdisp, Option.elim, upTo_succ] at hj ⊢ <;> omega
  | @workOk i b data dc hw =>
      have hsum := Pool.sum_set (Worker.is j) hw (.send ⟨none, b.idx, b.srcSz, some ⟨s.borrowed, data⟩⟩)
      simp only [packets, issued, Worker.is, OutBlk.is] at hsum hj ⊢
      omega
  | @workErr i b e dc hw =>
      have hsum := Pool.sum_set (Worker.is j) hw (.send ⟨some e, b.idx, b.srcSz, none⟩)
      simp only [packets, issued, Worker.is, OutBlk.is] at hsum hj ⊢
      omega
  -- a packet handed on is one less at the worker and one more at the consumer
  | workerNext hw hcons | workerPark hw hcons =>
      have hsum := Pool.sum_set (Worker.is j) hw .recv
      simp only [packets, issued, hcons, Worker.is, Cons.is, OutBlk.is, List.map_append,
        List.sum_append, List.map_cons, List.map_nil, List.sum_cons, List.sum_nil] at hsum hj ⊢
      omega
  | workerFin hw | workerExit hw =>
      have hsum := Pool.sum_set (Worker.is j) hw .done
      simp only [packets, issued, Worker.is] at hsum hj ⊢
      omega
  | @checkFound b hcons hmem hidx =>
      have hsum := h.found (OutBlk.is j) hmem hidx
      simp only [packets, issued, hcons, Cons.is] at hsum hj ⊢
      omega
  | acquire hdisp | readError hdisp | readStored hdisp | readData hdisp | finAcquire _ hdisp
  | finOut _ hdisp | finIn _ hdisp | closeIn hdisp =>
      simp only [packets, issued, hdisp] at hj ⊢
      exact hj
  | callFirst hcons | callReturn hcons | callQueue hcons | queue hcons | checkNone hcons
  | releaseEnd hcons | hashDone hcons | wgWait hcons | drainInDone hcons | closeHashed hcons
  | closeHash hcons | closeWait hcons =>
      simp only [packets, issued, hcons, Cons.is] at hj ⊢
      omega
  -- the packet is through
  | release hcons | hashWait hcons =>
      rw [packets, issued, Cons.is_after j _ rfl rfl]
      simp only [packets, issued, hcons] at hj ⊢
      omega
  | close hcons =>
      rcases hcons with hcons | hcons <;> simp only [packets, issued, hcons, Cons.is] at hj ⊢ <;> omega
  | drainOutDone hcons =>
      rw [packets, issued, Cons.is_after j _ rfl rfl]
      simp only [packets, issued, hcons, List.map_nil, List.sum_nil] at hj ⊢
      omega
  | hash | hashExit => exact hj

/-! ## The channels and the hasher -/

/-- The hasher's channel, by where the consumer is. It is open where a block is sent on it
and where it is closed; who waits for the hasher has closed it, and afterwards it has
exited. -/
def HashOpen (hasher : Option Hasher) : Cons → Prop
  | .queue _ => ∃ h, hasher = some h ∧ h.closed = false
  | .hashDone b => (∃ h, hasher = some h ∧ h.closed = false) ∧ b.err ≠ none
  | .hashWait b => (∃ h, hasher = some h ∧ h.closed = true) ∧ b.err ≠ none
  | .hashWaitC => ∃ h, hasher = some h ∧ h.closed = true
  | .hashDoneC => ∃ h, hasher = some h ∧ (h.closed = true → h.exited = true)
  | .ended | .wgWait | .drainIn
  | .drainOut => ∀ h, hasher = some h → h.closed = true → h.exited = true
  | .closed => ∀ h, hasher = some h → h.exited = true
  | _ => ∀ h, hasher = some h → h.closed = false

/-- What holds of the channels and the consumer in every state, `Close` called or not. -/
structure Tidy (s : AsyncReader) : Prop where
  inClosed : s.inClosed = s.disp.pastIn
  semClosed : s.semClosed = s.disp.pastSem
  fin : s.fin = s.cons.closing
  held : s.cons.calling = true → s.held = none
  hash : HashOpen s.hasher s.cons
  exited : ∀ h, s.hasher = some h → h.exited = true → h.closed = true ∧ h.q = []
  drained : s.cons.drained = true → s.inClosed = true
  emptied : s.cons.emptied = true → s.pending = []

theorem inClosed_tidy (h : Tidy s) (hstep : Step c s a s') : s'.inClosed = s'.disp.pastIn := by
  have hin := h.inClosed
  cases hstep with
  | @closeSem err hdisp =>
      rw [hdisp] at hin
      cases err <;> exact hin
  | acquire hdisp | readError hdisp | readStored hdisp | readData hdisp | finAcquire _ hdisp
  | finOut _ hdisp | finIn _ hdisp | finErr _ hdisp | sendIn hdisp | sendOutNext hdisp
  | sendOutPark hdisp | sendErrNext hdisp | sendErrPark hdisp | drainIn _ hdisp
  | drainOutBlk _ hdisp | drainOutErr _ hdisp =>
      rw [hdisp] at hin
      exact hin
  | closeIn => rfl
  | _ => exact hin

theorem semClosed_tidy (h : Tidy s) (hstep : Step c s a s') : s'.semClosed = s'.disp.pastSem := by
  have hsem := h.semClosed
  cases hstep with
  | @closeSem err hdisp => cases err <;> rfl
  | acquire hdisp | readError hdisp | readStored hdisp | readData hdisp | finAcquire _ hdisp
  | finOut _ hdisp | finIn _ hdisp | finErr _ hdisp | closeIn hdisp | sendIn hdisp
  | sendOutNext hdisp | sendOutPark hdisp | sendErrNext hdisp | sendErrPark hdisp
  | drainIn _ hdisp | drainOutBlk _ hdisp | drainOutErr _ hdisp =>
      rw [hdisp] at hsem
      exact hsem
  | _ => exact hsem

theorem fin_tidy (h : Tidy s) (hstep : Step c s a s') : s'.fin = s'.cons.closing := by
  have hfin := h.fin
  cases hstep with
  | sendOutNext _ hcons | sendErrNext _ hcons | workerNext _ hcons | callFirst hcons
  | callReturn hcons | callQueue hcons | queue hcons | checkFound hcons | checkNone hcons
  | releaseEnd hcons | hashDone hcons | wgWait hcons | drainInDone hcons | closeHashed hcons
  | closeHash hcons | closeWait hcons =>
      rw [hcons] at hfin
      exact hfin
  | release hcons | hashWait hcons | drainOutDone hcons =>
      rw [hcons] at hfin
      show s.fin = (if _ then _ else _ : Cons).closing
      rw [hfin]
      split_ifs <;> rfl
  | close => rfl
  | _ => exact hfin

theorem held_tidy (h : Tidy s) (hstep : Step c s a s') :
    s'.cons.calling = true → s'.held = none := by
  intro hcall
  have hheld := h.held
  cases hstep with
  | sendOutNext _ hcons | sendErrNext _ hcons | workerNext _ hcons | queue hcons | checkFound hcons
  | checkNone hcons | releaseEnd hcons | hashDone hcons =>
      rw [hcons] at hheld
      exact hheld rfl
  | callFirst _ hnone => exact hnone
  | callReturn | callQueue => rfl
  | release | hashWait | drainOutDone =>
      change (if _ then _ else _ : Cons).calling = true at hcall
      split_ifs at hcall <;> cases hcall
  | close | wgWait | drainInDone | closeHashed | closeHash | closeWait => cases hcall
  | _ => exact hheld hcall

/-- Taking a block out of the channel, or putting one in, leaves it open. -/
theorem HashOpen.congr {h h' : Hasher} {x : Cons} (hx : HashOpen (some h) x)
    (hcl : h'.closed = h.closed) (hex : h.exited = true → h'.exited = true) :
    HashOpen (some h') x := by
  have hsome : (∃ g, some h = some g ∧ g.closed = false) → ∃ g, some h' = some g ∧ g.closed = false := by
    rintro ⟨g, hg, hopen⟩
    obtain rfl := Option.some.inj hg
    exact ⟨h', rfl, hcl.trans hopen⟩
  have hshut : (∃ g, some h = some g ∧ g.closed = true) → ∃ g, some h' = some g ∧ g.closed = true := by
    rintro ⟨g, hg, hopen⟩
    obtain rfl := Option.some.inj hg
    exact ⟨h', rfl, hcl.trans hopen⟩
  cases x with
  | queue b => exact hsome hx
  | hashDone b => exact ⟨hsome hx.1, hx.2⟩
  | hashWait b => exact ⟨hshut hx.1, hx.2⟩
  | hashWaitC => exact hshut hx
  | hashDoneC =>
      obtain ⟨g, hg, hopen⟩ := hx
      obtain rfl := Option.some.inj hg
      exact ⟨h', rfl, fun hc => hex (hopen (hcl ▸ hc))⟩
  | ended | wgWait | drainIn | drainOut =>
      rintro g hg hc
      obtain rfl := Option.some.inj hg
      exact hex (hx h rfl (hcl ▸ hc))
  | closed =>
      rintro g hg
      obtain rfl := Option.some.inj hg
      exact hex (hx h rfl)
  | idle | check | recv | release b =>
      rintro g hg
      obtain rfl := Option.some.inj hg
      exact hcl.trans (hx h rfl)

theorem hash_tidy (h : Tidy s) (hstep : Step c s a s') : HashOpen s'.hasher s'.cons := by
  have hh := h.hash
  cases hstep with
  | @hash g b q hg hq =>
      rw [hg] at hh
      exact hh.congr rfl id
  | @hashExit g hg hq hcl hex =>
      rw [hg] at hh
      exact hh.congr rfl (fun _ => rfl)
  -- the consumer goes on inside `NextBlock`: the channel stays open
  | sendOutNext _ hcons | sendErrNext _ hcons | workerNext _ hcons | callFirst hcons
  | callReturn hcons | checkFound hcons | checkNone hcons | wgWait hcons | drainInDone hcons =>
      rw [hcons] at hh
      exact hh
  | callQueue hcons _ hg =>
      rw [hcons] at hh
      exact ⟨_, hg, hh _ hg⟩
  | queue hcons hg _ hcl =>
      rintro g hg'
      obtain rfl := Option.some.inj hg'
      exact hcl
  | releaseEnd hcons _ herr hne =>
      rw [hcons] at hh
      obtain ⟨g, hg⟩ := Option.ne_none_iff_exists'.mp hne
      refine ⟨⟨g, hg, hh g hg⟩, ?_⟩
      rw [herr]
      rintro ⟨⟩
  | release hcons =>
      rw [hcons] at hh
      show HashOpen s.hasher (if _ then _ else _)
      split_ifs
      · exact hh
      · intro g hg hc
        -- no result of `NextBlock` is given with the channel closed
        rw [hh g hg] at hc
        cases hc
  | hashDone hcons hg =>
      rw [hcons] at hh
      exact ⟨⟨_, rfl, rfl⟩, hh.2⟩
  | hashWait hcons hg hex =>
      rw [hcons] at hh
      show HashOpen s.hasher (if _ then _ else _)
      rw [if_neg (by rw [Option.map_eq_none_iff]; exact hh.2)]
      intro g hg' _
      rw [hg] at hg'
      obtain rfl := Option.some.inj hg'
      -- the sum is taken when the hasher has exited
      exact hex
  | close hcons =>
      rcases hcons with hcons | hcons
      · rw [hcons] at hh
        intro g hg hc
        rw [hh g hg] at hc
        cases hc
      · rw [hcons] at hh
        exact hh
  | drainOutDone hcons =>
      rw [hcons] at hh
      show HashOpen s.hasher (if _ then _ else _)
      split_ifs with hsome
      · obtain ⟨g, hg⟩ := Option.isSome_iff_exists.mp hsome
        exact ⟨g, hg, hh g hg⟩
      · intro g hg
        rw [hg] at hsome
        exact absurd rfl hsome
  -- `hashDone` has closed the channel, and then `hashWait` has waited for the exit
  | closeHashed hcons hg hcl =>
      rw [hcons] at hh
      obtain ⟨g, hg', hex⟩ := hh
      rw [hg] at hg'
      obtain rfl := Option.some.inj hg'
      intro g hg'
      rw [hg] at hg'
      obtain rfl := Option.some.inj hg'
      exact hex hcl
  | closeHash => exact ⟨_, rfl, rfl⟩
  | closeWait hcons hg hex =>
      intro g hg'
      rw [hg] at hg'
      obtain rfl := Option.some.inj hg'
      exact hex
  | _ => exact hh

theorem exited_tidy (h : Tidy s) (hstep : Step c s a s') :
    ∀ h, s'.hasher = some h → h.exited = true → h.closed = true ∧ h.q = [] := by
  have hex := h.exited
  cases hstep with
  | hash hg hq =>
      intro g hg' hx
      obtain rfl := Option.some.inj hg'
      have hnil := (hex _ hg hx).2
      rw [hq] at hnil
      cases hnil
  | hashExit hg hq hcl =>
      intro g hg' _
      obtain rfl := Option.some.inj hg'
      exact ⟨hcl, hq⟩
  | queue _ hg _ hcl =>
      intro g hg' hx
      obtain rfl := Option.some.inj hg'
      rw [(hex _ hg hx).1] at hcl
      cases hcl
  | hashDone _ hg | closeHash _ hg =>
      intro g hg' hx
      obtain rfl := Option.some.inj hg'
      exact ⟨rfl, (hex _ hg hx).2⟩
  | _ => exact hex

theorem drained_tidy (h : Tidy s) (hstep : Step c s a s') :
    s'.cons.drained = true → s'.inClosed = true := by
  intro hd
  have hin := h.drained
  cases hstep with
  | closeIn => rfl
  | drainInDone _ hcl => exact hcl
  | drainOutDone hcons | closeHashed hcons | closeHash hcons | closeWait hcons =>
      rw [hcons] at hin
      exact hin rfl
  | release | hashWait =>
      change (if _ then _ else _ : Cons).drained = true at hd
      split_ifs at hd <;> cases hd
  | sendOutNext | sendErrNext | workerNext | callFirst | callReturn | callQueue | queue | checkFound
  | checkNone | releaseEnd | hashDone | close | wgWait => cases hd
  | _ => exact hin hd

theorem emptied_tidy (h : Tidy s) (hstep : Step c s a s') :
    s'.cons.emptied = true → s'.pending = [] := by
  intro he
  have hp := h.emptied
  cases hstep with
  | drainOutDone => rfl
  | closeHashed hcons | closeHash hcons | closeWait hcons =>
      rw [hcons] at hp
      exact hp rfl
  | release | hashWait =>
      change (if _ then _ else _ : Cons).emptied = true at he
      split_ifs at he <;> cases he
  | sendOutPark _ hcons | sendErrPark _ hcons | workerPark _ hcons =>
      change s.cons.emptied = true at he
      rw [hcons] at he
      cases he
  | sendOutNext | sendErrNext | workerNext | callFirst | callReturn | callQueue | queue | checkFound
  | checkNone | releaseEnd | hashDone | close | wgWait | drainInDone => cases he
  | _ => exact hp he

/-- **Every step keeps the channels in order.** -/
theorem Tidy.step (h : Tidy s) (hstep : Step c s a s') : Tidy s' where
  inClosed := inClosed_tidy h hstep
  semClosed := semClosed_tidy h hstep
  fin := fin_tidy h hstep
  held := held_tidy h hstep
  hash := hash_tidy h hstep
  exited := exited_tidy h hstep
  drained := drained_tidy h hstep
  emptied := emptied_tidy h hstep

/-! ## The books of the pool -/

/-- **Every step keeps the books**, and a block changes hands but in the step in which it
is borrowed or given back. -/
theorem Booked.step (h : Booked s) (hf : Feeds J s) (hn : Numbered s) (ht : Tidy s)
    (hstep : Step J.cfg s a s') : Booked s' := by
  intro k
  have hk := h k
  cases hstep with
  | acquire hdisp | finAcquire _ hdisp | closeIn hdisp =>
      simp only [out, hdisp, Disp.ids] at hk ⊢
      exact hk
  | @closeSem err hdisp =>
      cases err <;> simp only [out, hdisp, Option.elim, Disp.ids] at hk ⊢ <;> exact hk
  | finErr _ hdisp =>
      -- the error packet has no block
      have hd := hf.disp
      rw [hdisp] at hd
      simp only [out, hdisp, Disp.ids, hd.1, OutBlk.ids, Option.toList, List.map_nil] at hk ⊢
      exact hk
  | readError hdisp =>
      simp only [out, hdisp, Disp.ids, upTo_succ, List.count_append] at hk ⊢
      omega
  | readStored hdisp | readData hdisp =>
      simp only [out, hdisp, Disp.ids, OutBlk.ids, Option.toList, List.map_cons, List.map_nil,
        upTo_succ, List.count_nil] at hk ⊢
      omega
  | finOut _ hdisp | finIn _ hdisp | drainIn _ hdisp =>
      simp only [out, hdisp, Disp.ids, OutBlk.ids, List.count_append, List.count_nil] at hk ⊢
      omega
  | drainOutBlk _ hdisp | drainOutErr _ hdisp =>
      simp only [out, hdisp, Disp.ids, OutBlk.ids, List.count_append, List.count_nil] at hk ⊢
      omega
  | @sendIn i b hdisp hw =>
      have hsum := Pool.sum_set (fun w : Worker => w.ids.count k) hw (.work b)
      simp only [out, hdisp, Disp.ids, Worker.ids, List.count_nil] at hsum hk ⊢
      omega
  | sendOutNext hdisp hcons | sendErrNext hdisp hcons =>
      simp only [out, hdisp, hcons, Disp.ids, Cons.ids, List.count_nil] at hk ⊢
      omega
  | sendOutPark hdisp | sendErrPark hdisp =>
      simp only [out, hdisp, Disp.ids, List.count_nil, List.map_append, List.sum_append,
        List.map_cons, List.map_nil, List.sum_cons, List.sum_nil] at hk ⊢
      omega
  | @workOk i b data dc hw =>
      have hsum := Pool.sum_set (fun w : Worker => w.ids.count k) hw
        (.send ⟨none, b.idx, b.srcSz, some ⟨s.borrowed, data⟩⟩)
      simp only [out, Worker.ids, OutBlk.ids, Option.toList, List.map_cons, List.map_nil,
        upTo_succ, List.count_append] at hsum hk ⊢
      omega
  | @workErr i b e dc hw =>
      have hsum := Pool.sum_set (fun w : Worker => w.ids.count k) hw (.send ⟨some e, b.idx, b.srcSz, none⟩)
      simp only [out, Worker.ids, OutBlk.ids, Option.toList, List.map_nil, List.count_nil,
        upTo_succ, List.count_append] at hsum hk ⊢
      rw [← List.singleton_append, List.count_append]
      omega
  | workerNext hw hcons =>
      have hsum := Pool.sum_set (fun w : Worker => w.ids.count k) hw .recv
      simp only [out, hcons, Cons.ids, Worker.ids, List.count_nil] at hsum hk ⊢
      omega
  | workerPark hw hcons =>
      have hsum := Pool.sum_set (fun w : Worker => w.ids.count k) hw .recv
      simp only [out, Worker.ids, List.count_nil, List.map_append, List.sum_append,
        List.map_cons, List.map_nil, List.sum_cons, List.sum_nil] at hsum hk ⊢
      omega
  | workerFin hw =>
      have hsum := Pool.sum_set (fun w : Worker => w.ids.count k) hw .done
      simp only [out, Worker.ids, OutBlk.ids, List.count_nil, List.count_append] at hsum hk ⊢
      omega
  | workerExit hw =>
      have hsum := Pool.sum_set (fun w : Worker => w.ids.count k) hw .done
      simp only [out, Worker.ids, List.count_nil] at hsum hk ⊢
      omega
  | hash hg hq =>
      simp only [out, hg, hq, Option.elim, List.map_cons, List.count_append] at hk ⊢
      rw [← List.singleton_append, List.count_append] at hk
      omega
  | hashExit hg hq =>
      simp only [out, hg, hq, Option.elim] at hk ⊢
      exact hk
  | callFirst hcons | checkNone hcons | wgWait hcons | drainInDone hcons | closeHashed hcons
  | closeWait hcons | releaseEnd hcons =>
      simp only [out, hcons, Cons.ids] at hk ⊢
      exact hk
  | hashDone hcons hg | closeHash hcons hg =>
      simp only [out, hcons, hg, Cons.ids, Option.elim] at hk ⊢
      exact hk
  | callReturn hcons hheld =>
      simp only [out, hcons, hheld, Cons.ids, Option.toList, List.map_cons, List.map_nil,
        List.count_append, List.count_nil] at hk ⊢
      omega
  | callQueue hcons hheld =>
      simp only [out, hcons, hheld, Cons.ids, Option.toList, List.map_cons, List.map_nil,
        List.count_nil] at hk ⊢
      omega
  | queue hcons hg =>
      simp only [out, hcons, hg, Cons.ids, Option.elim, List.map_append, List.map_cons, List.map_nil,
        List.count_append, List.count_nil] at hk ⊢
      omega
  | @checkFound b hcons hmem hidx =>
      have hsum := hn.found (fun b => b.ids.count k) hmem hidx
      simp only [out, hcons, Cons.ids, List.count_nil] at hsum hk ⊢
      omega
  | release hcons | hashWait hcons =>
      have hnone := ht.held (by rw [hcons]; rfl)
      rw [out, Cons.ids_after _ rfl rfl]
      simp only [out, hcons, hnone, Cons.ids, OutBlk.ids, Option.toList, List.map_nil,
        List.count_nil] at hk ⊢
      omega
  | close hcons =>
      rcases hcons with hcons | hcons <;> simp only [out, hcons, Cons.ids] at hk ⊢ <;> exact hk
  | drainOutDone hcons =>
      rw [out, Cons.ids_after _ rfl rfl]
      simp only [out, hcons, Cons.ids, List.count_append, List.map_nil, List.sum_nil, List.count_nil]
        at hk ⊢
      rw [count_ids]
      omega

/-! ## What a run keeps -/

/-- What holds of every state, `Close` called or not. -/
structure Kept (J : Job) (s : AsyncReader) : Prop where
  feeds : Feeds J s
  tidy : Tidy s
  numbered : Numbered s
  booked : Booked s

theorem Kept.step (h : Kept J s) (hstep : AsyncReader.step J.cfg s a = some s') : Kept J s' where
  feeds := h.feeds.step (step_spec hstep)
  tidy := h.tidy.step (step_spec hstep)
  numbered := h.numbered.step h.feeds (step_spec hstep)
  booked := h.booked.step h.feeds h.numbered h.tidy (step_spec hstep)

theorem Kept.run (h : Kept J s) {as : List Act}
    (hrun : Machine.run (AsyncReader.step J.cfg) s as = some s') : Kept J s' :=
  Machine.invariant_run (fun _ _ _ h hstep => Kept.step h hstep) h hrun

/-- No block is given back twice, or without having been borrowed. -/
theorem Booked.nodup (h : Booked s) : s.returned.Nodup ∧ ∀ k ∈ s.returned, k < s.borrowed :=
  Pool.Books.nodup h

/-- When `_close` is through, the consumer has the one block that is not given back. -/
theorem Kept.closed (h : Kept J s) (hcons : s.cons = .closed) :
    List.Perm (s.returned ++ s.held.toList.map Blk.id) (List.range s.borrowed) := by
  rw [List.perm_iff_count]
  intro k
  have hk := h.booked k
  have hdisp : s.disp.ids = [] := by
    have hin := h.tidy.drained (by rw [hcons]; rfl)
    rw [h.tidy.inClosed] at hin
    have hd := h.feeds.disp
    rcases hx : s.disp with _ | _ | b | b | err | err | b | _ <;> rw [hx] at hin hd
    iterate 5 cases hin
    · rfl
    · rw [hd.1]
      rfl
    · rfl
  have hworkers : (s.workers.map (fun w => w.ids.count k)).sum = 0 := by
    rw [List.sum_eq_zero_iff]
    intro n hn
    obtain ⟨w, hw, rfl⟩ := List.mem_map.mp hn
    rw [h.feeds.drains (by rw [hcons]; rfl) w hw]
    rfl
  have hhash : s.hasher.elim [] (fun h => h.q.map Blk.id) = [] := by
    have hopen := h.tidy.hash
    rw [hcons] at hopen
    rcases hh : s.hasher with _ | g
    · rfl
    · rw [Option.elim, (h.tidy.exited g hh (hopen g hh)).2]
      rfl
  rw [out, hdisp, hworkers, hcons, hhash, h.tidy.emptied (by rw [hcons]; rfl)] at hk
  simp only [Cons.ids, List.count_nil, List.map_nil, List.sum_nil] at hk
  rw [List.count_append, List.count_range]
  rw [upTo] at hk
  simp only [Nat.add_zero, Nat.zero_add] at hk
  exact hk

/-! ## `Close` gets to its end -/

/-- After `Close` the dispatcher can move until it has closed `inChan`. -/
theorem dispatcher_moves (hfin : s.fin = true) (hin : s.disp.pastIn = false) :
    ∃ a, (AsyncReader.step c s a).isSome = true := by
  rcases hd : s.disp with _ | _ | b | b | err | err | b | _ <;> rw [hd] at hin
  · exact ⟨.dispFin, by simp only [AsyncReader.step, hfin, dispFinStep, hd, if_true, Option.isSome_some]⟩
  · exact ⟨.read, by simp only [AsyncReader.step, hd, if_true, Option.isSome_some]⟩
  · exact ⟨.dispFin, by simp only [AsyncReader.step, hfin, dispFinStep, hd, if_true, Option.isSome_some]⟩
  · exact ⟨.dispFin, by simp only [AsyncReader.step, hfin, dispFinStep, hd, if_true, Option.isSome_some]⟩
  · exact ⟨.closeIn, by simp only [AsyncReader.step, hd, Option.isSome_some]⟩
  all_goals cases hin

/-- A worker with a block can move, and one without as soon as `inChan` is closed. -/
theorem worker_moves (hfin : s.fin = true) {w : Worker} (hw : w ∈ s.workers) (hne : w ≠ .done)
    (hin : w = .recv → s.inClosed = true) : ∃ a, (AsyncReader.step c s a).isSome = true := by
  obtain ⟨i, hi⟩ := List.mem_iff_getElem?.mp hw
  cases w with
  | recv => exact ⟨.workerExit i, by simp only [AsyncReader.step, hi, hin rfl, if_true, Option.isSome_some]⟩
  | work b => exact ⟨.work i, by simp only [AsyncReader.step, hi, Option.isSome_some]⟩
  | send b => exact ⟨.workerFin i, by simp only [AsyncReader.step, hi, hfin, if_true, Option.isSome_some]⟩
  | done => exact absurd rfl hne

/-- **`Close` is never stuck.** -/
theorem Tidy.moves (h : Tidy s) (hfin : s.fin = true) (hcons : s.cons ≠ .closed) :
    ∃ a, (AsyncReader.step c s a).isSome = true := by
  have hclosing := h.fin
  have hopen := h.hash
  rw [hfin] at hclosing
  rcases hx : s.cons with _ | b | _ | _ | b | b | b | _ | _ | _ | _ | _ | _ | _ <;>
    rw [hx] at hclosing hopen
  -- `Close` has been called, so the consumer is in it
  iterate 8 cases hclosing
  · by_cases hin : s.disp.pastIn = true
    · -- `wg.Wait`: the dispatcher closes `inChan`, and then every worker exits
      by_cases hall : ∀ w ∈ s.workers, w = .done
      · exact ⟨.wgWait, by
          simp only [AsyncReader.step]
          rw [if_pos ⟨hx, hall⟩]
          rfl⟩
      · push Not at hall
        obtain ⟨w, hw, hne⟩ := hall
        exact worker_moves hfin hw hne (fun _ => h.inClosed.trans hin)
    · exact dispatcher_moves hfin (Bool.not_eq_true _ ▸ hin)
  · by_cases hin : s.disp.pastIn = true
    · exact ⟨.drainInDone, by
        simp only [AsyncReader.step, hx, h.inClosed, hin, and_self, if_true, Option.isSome_some]⟩
    · exact dispatcher_moves hfin (Bool.not_eq_true _ ▸ hin)
  · exact ⟨.drainOutDone, by simp only [AsyncReader.step, hx, if_true, Option.isSome_some]⟩
  · obtain ⟨g, hg, -⟩ := hopen
    refine ⟨.closeHash, ?_⟩
    simp only [AsyncReader.step, hx, hg]
    split_ifs <;> rfl
  · obtain ⟨⟨q, hash, closed, exited⟩, hg, hcl⟩ := hopen
    obtain rfl : closed = true := hcl
    rcases exited with _ | _
    · rcases q with _ | ⟨b, q⟩
      · exact ⟨.hashExit, by simp only [AsyncReader.step, hg, Option.isSome_some]⟩
      · exact ⟨.hash, by simp only [AsyncReader.step, hg, Option.isSome_some]⟩
    · exact ⟨.closeWait, by simp only [AsyncReader.step, hx, hg, if_true, Option.isSome_some]⟩
  · exact absurd hx hcons

/-- A bound on the steps after `Close`. -/
def closeFuel (J : Job) (s : AsyncReader) : ℕ :=
  s.disp.fuel (J.parsed.frames.length - s.curIdx) + (s.workers.map Worker.fuel).sum
    + s.cons.closeFuel + s.hasher.elim 0 Hasher.fuel

/-- **Every step after `Close` is one of finitely many.** -/
theorem closeFuel_step (hf : Feeds J s) (ht : Tidy s) (hfin : s.fin = true)
    (hstep : Step J.cfg s a s') : closeFuel J s' < closeFuel J s := by
  have hclosing := ht.fin
  rw [hfin] at hclosing
  -- the consumer is not in a call
  have hnot : ∀ {x : Cons}, s.cons = x → x.closing = false → False := by
    intro x hx hf
    rw [← hx, ← hclosing] at hf
    cases hf
  cases hstep with
  | acquire hdisp | readStored hdisp | readData hdisp | readError hdisp | closeIn hdisp
  | finAcquire _ hdisp | finErr _ hdisp | drainOutErr _ hdisp =>
      simp only [closeFuel, hdisp, Disp.fuel]
      omega
  | @closeSem err hdisp =>
      cases err <;> simp only [closeFuel, hdisp, Disp.fuel, Option.elim] <;> omega
  | finIn _ hdisp | drainIn _ hdisp =>
      have hlt := curIdx_lt hf (.inl ⟨_, hdisp⟩)
      simp only [closeFuel, hdisp, Disp.fuel]
      omega
  | finOut _ hdisp | drainOutBlk _ hdisp =>
      have hlt := curIdx_lt hf (.inr ⟨_, hdisp⟩)
      simp only [closeFuel, hdisp, Disp.fuel]
      omega
  | @sendIn i b hdisp hw =>
      have hlt := curIdx_lt hf (.inl ⟨_, hdisp⟩)
      have hsum := Pool.sum_set Worker.fuel hw (.work b)
      simp only [closeFuel, hdisp, Disp.fuel, Worker.fuel] at hsum ⊢
      omega
  | @workOk _ b data _ hw _ =>
      have hsum := Pool.sum_set Worker.fuel hw (.send ⟨none, b.idx, b.srcSz, some ⟨s.borrowed, data⟩⟩)
      simp only [closeFuel, Worker.fuel] at hsum ⊢
      omega
  | @workErr _ b e _ hw _ =>
      have hsum := Pool.sum_set Worker.fuel hw (.send ⟨some e, b.idx, b.srcSz, none⟩)
      simp only [closeFuel, Worker.fuel] at hsum ⊢
      omega
  | workerFin hw | workerExit hw =>
      have hsum := Pool.sum_set Worker.fuel hw .done
      simp only [closeFuel, Worker.fuel] at hsum ⊢
      omega
  | hash hh hq =>
      simp only [closeFuel, hh, Option.elim, Hasher.fuel, hq, List.length_cons]
      omega
  | hashExit hh hq hcl hex =>
      simp only [closeFuel, hh, Option.elim, Hasher.fuel, hex, if_true, Bool.false_eq_true, if_false]
      omega
  | wgWait hcons | drainInDone hcons | closeHashed hcons | closeWait hcons =>
      simp only [closeFuel, hcons, Cons.closeFuel]
      omega
  | closeHash hcons hh =>
      simp only [closeFuel, hcons, hh, Cons.closeFuel, Option.elim, Hasher.fuel]
      omega
  | drainOutDone hcons =>
      split_ifs <;> simp only [closeFuel, hcons, Cons.closeFuel] <;> omega
  | sendOutNext _ hcons | sendOutPark _ hcons | sendErrNext _ hcons | sendErrPark _ hcons
  | workerNext _ hcons | workerPark _ hcons | callFirst hcons | callReturn hcons | callQueue hcons
  | queue hcons | checkFound hcons | checkNone hcons | releaseEnd hcons | release hcons
  | hashDone hcons | hashWait hcons => exact (hnot hcons rfl).elim
  | close hcons =>
      rcases hcons with hcons | hcons
      · exact (hnot hcons rfl).elim
      · exact (hnot hcons rfl).elim

theorem fin_step (hfin : s.fin = true) (hstep : Step c s a s') : s'.fin = true := by
  cases hstep with
  | close => rfl
  | _ => exact hfin

/-- After `Close` a run is no longer than its fuel. -/
theorem Kept.length_run_le (h : Kept J s) (hfin : s.fin = true) {as : List Act}
    (hrun : Machine.run (AsyncReader.step J.cfg) s as = some s') : as.length ≤ closeFuel J s := by
  have hlen := Machine.length_run_le (I := fun s => Kept J s ∧ s.fin = true) (P := fun _ => True)
    (closeFuel J) (fun s a s' _ hs hstep => ⟨⟨hs.1.step hstep, fin_step hs.2 (step_spec hstep)⟩,
      closeFuel_step hs.1.feeds hs.1.tidy hs.2 (step_spec hstep)⟩)
    (fun _ _ => trivial) ⟨h, hfin⟩ hrun
  omega

end AsyncReader

/-! ## The reader `NewAsyncReader` makes -/

open AsyncReader

theorem newAsyncReader_kept {Z : Clz4} {hdr : HeaderT} {o : OptsT} {src : Bytes}
    (hone : hdr.flags.blockIndependence = false → o.nParallel = 1) :
    Kept (readerJob Z hdr o src) (newAsyncReader src hdr o) where
  feeds := newAsyncReader_feeds hone
  tidy :=
    { inClosed := rfl
      semClosed := rfl
      fin := rfl
      held := fun _ => rfl
      hash := fun h hh => by
        rw [newAsyncReader] at hh
        split_ifs at hh
        obtain rfl := Option.some.inj hh
        rfl
      exited := fun h hh hex => by
        rw [newAsyncReader] at hh
        split_ifs at hh
        obtain rfl := Option.some.inj hh
        cases hex
      drained := by rintro ⟨⟩
      emptied := by rintro ⟨⟩ }
  numbered := fun j => by
    have hsum : ((newAsyncReader src hdr o).workers.map (Worker.is j)).sum = 0 := by
      rw [newAsyncReader, List.map_replicate, List.sum_replicate]
      exact smul_zero _
    rw [packets, hsum]
    exact Nat.zero_le _
  booked := fun k => by
    have hsum : ((newAsyncReader src hdr o).workers.map (fun w => w.ids.count k)).sum = 0 := by
      rw [newAsyncReader, List.map_replicate, List.sum_replicate]
      exact smul_zero _
    rw [out, hsum, newAsyncReader]
    split_ifs <;> rfl

/-- **`Close` at any moment.** On every schedule no block borrowed from the pool is given back
twice, and when `Close` has returned each has been, but the one the consumer holds. No
thread sends on a channel that is closed, or closes one again. From the call of `Close` on
some thread can move until it has returned, and every run is bounded. -/
theorem asyncReader_close (Z : Clz4) (hdr : HeaderT) (o : OptsT) (src : Bytes)
    (hone : hdr.flags.blockIndependence = false → o.nParallel = 1)
    {as : List Act} {s : AsyncReader}
    (hrun : Machine.run (step (readerCfg Z hdr o)) (newAsyncReader src hdr o) as = some s) :
    (s.returned.Nodup ∧ ∀ k ∈ s.returned, k < s.borrowed)
    ∧ (s.cons = .closed →
        List.Perm (s.returned ++ s.held.toList.map Blk.id) (List.range s.borrowed))
    ∧ (s.disp = .acquire → s.semClosed = false) ∧ (∀ b, s.disp = .sendIn b → s.inClosed = false)
    ∧ (∀ b, s.cons = .queue b → ∃ h, s.hasher = some h ∧ h.closed = false)
    ∧ (∀ err, s.disp = .closeIn err → s.inClosed = false)
    ∧ (∀ err, s.disp = .closeSem err → s.semClosed = false)
    ∧ (∀ b, s.cons = .hashDone b → ∃ h, s.hasher = some h ∧ h.closed = false)
    ∧ (s.fin = true →
        (s.cons ≠ .closed → ∃ a, (step (readerCfg Z hdr o) s a).isSome = true)
        ∧ ∃ n, ∀ as' s', Machine.run (step (readerCfg Z hdr o)) s as' = some s' → as'.length ≤ n) := by
  have h : Kept (readerJob Z hdr o src) s :=
    (newAsyncReader_kept (Z := Z) hone).run hrun
  have hin := h.tidy.inClosed
  have hsem := h.tidy.semClosed
  have hhash := h.tidy.hash
  refine ⟨h.booked.nodup, h.closed, fun hd => ?_, fun b hd => ?_, fun b hc => ?_, fun err hd => ?_,
    fun err hd => ?_, fun b hc => ?_, fun hfin => ⟨h.tidy.moves hfin, ?_⟩⟩
  · rw [hsem, hd]
    rfl
  · rw [hin, hd]
    rfl
  · rw [hc] at hhash
    exact hhash
  · rw [hin, hd]
    rfl
  · rw [hsem, hd]
    rfl
  · rw [hc] at hhash
    exact hhash.1
  · exact ⟨_, fun as' s' hrun' => h.length_run_le hfin hrun'⟩

/-- `Close` before the first `NextBlock`, with one block at a worker and another with the
dispatcher. -/
theorem asyncReader_close_two_workers :
    ∃ s, Machine.run (step (readerCfg litEngine ⟨7, 0, 0, ⟨0x60⟩, ⟨0x40⟩⟩
          { OptsT.default with nParallel := 2 }))
        (newAsyncReader [2, 0, 0, 0, 16, 7, 2, 0, 0, 0, 16, 8, 0, 0, 0, 0]
          ⟨7, 0, 0, ⟨0x60⟩, ⟨0x40⟩⟩ { OptsT.default with nParallel := 2 })
        [.acquire, .read, .sendIn 0, .acquire, .read, .close, .work 0, .dispFin, .workerFin 0,
          .closeIn, .workerExit 1, .wgWait, .drainInDone, .closeSem, .drainOutDone] = some s ∧
      s.cons = .closed ∧ s.borrowed = 3 ∧
      List.Perm (s.returned ++ s.held.toList.map Blk.id) (List.range 3) := by
  have hcons : (Machine.run (step (readerCfg litEngine ⟨7, 0, 0, ⟨0x60⟩, ⟨0x40⟩⟩
          { OptsT.default with nParallel := 2 }))
        (newAsyncReader [2, 0, 0, 0, 16, 7, 2, 0, 0, 0, 16, 8, 0, 0, 0, 0]
          ⟨7, 0, 0, ⟨0x60⟩, ⟨0x40⟩⟩ { OptsT.default with nParallel := 2 })
        [.acquire, .read, .sendIn 0, .acquire, .read, .close, .work 0, .dispFin, .workerFin 0,
          .closeIn, .workerExit 1, .wgWait, .drainInDone, .closeSem, .drainOutDone]).map
            (fun s => (s.cons, s.borrowed)) = some (.closed, 3) := by decide +kernel
  obtain ⟨s, hrun, hs⟩ := Option.map_eq_some_iff.mp hcons
  rw [Prod.mk.injEq] at hs
  obtain ⟨hcl, hborrowed⟩ := hs
  have hspec := asyncReader_close litEngine _ _ _ (by decide) hrun
  refine ⟨s, hrun, hcl, hborrowed, ?_⟩
  rw [← hborrowed]
  exact hspec.2.1 hcl

end Plz4
