/-
The hasher of the asynchronous writer (`AsyncHashIdx` of `hash.go`) on its own, and who
gives a block back.

A block is queued to be hashed and freed later by another thread. `Free` compares the index
of the block with the counter the hasher raises after each block: below it the block goes
back at once, otherwise it goes through the same channel, behind the block to hash. The
channel is what keeps the two apart: its messages, read in order from what has been hashed,
never give back a block before it is hashed (`Fits`).
-/
import Plz4.AsyncWriterPool

set_option autoImplicit false

namespace Plz4

open Xxh32

/-! ## The hasher -/

namespace HasherIdx

/-- `NewAsyncHashIdx`. -/
def new : HasherIdx := ⟨[], .zero, 0, false, false, false⟩

/-- A message is sent, if the channel takes it. -/
def send (sz : ℕ) (h : HasherIdx) (r : Ref) : Option HasherIdx :=
  if h.q.length < sz ∧ h.closed = false then some { h with q := h.q ++ [r] } else none

/-- `Free` of a block with this index has to ask the hasher. -/
def asks (h : HasherIdx) (idx : ℕ) : Bool := h.next ≤ idx

/-- A step of `Run`, with the numbers of the blocks it gives back. -/
def step (h : HasherIdx) : Option (HasherIdx × List ℕ) :=
  if h.busy then some ({ h with next := h.next + 1, busy := false }, [])
  else match h.q with
    | .queue b :: q => some ({ h with q := q, hash := h.hash.write b.data, busy := true }, [])
    | .free b :: q => some ({ h with q := q }, [b.id])
    | [] =>
        if h.closed ∧ h.exited = false then some ({ h with exited := true }, [])
        else none

/-- The number of blocks hashed. -/
def hashed (h : HasherIdx) : ℕ := h.next + if h.busy then 1 else 0

end HasherIdx

/-! ## The hasher and the threads that use it -/

/-- `AsyncHashIdx` in use: the blocks queued, in the order of their index; those whose `Free`
is to come, with their index; those `Free` is sending; the numbers of the blocks given back;
and what `Done` returned. -/
structure HashUse where
  h : HasherIdx
  blks : List Blk
  held : List (ℕ × Blk)
  asked : List Blk
  returned : List ℕ
  result : Option UInt32
  crashed : Bool

namespace HashUse

/-- Before the first block. -/
def new : HashUse := ⟨.new, [], [], [], [], none, false⟩

/-- What happens next. -/
inductive Act
  /-- `Queue` of the next block -/
  | queue (b : Blk)
  /-- `Free` of a block, up to its comparison -/
  | free (x : ℕ × Blk)
  /-- `Free` sends the block -/
  | freeSend (b : Blk)
  | hasher
  /-- `Done` closes the channel -/
  | done
  /-- `Done` returns -/
  | join
  deriving DecidableEq, Repr

/-- One step. A block is queued under a number of its own, and `Done` is called when every
`Free` has returned. -/
def step (sz : ℕ) (s : HashUse) : Act → Option HashUse
  | .queue b =>
      if s.h.closed = true ∨ b.id ∈ s.blks.map Blk.id then none
      else (s.h.send sz (.queue b)).map (fun h =>
        { s with h := h, blks := s.blks ++ [b], held := s.held ++ [(s.blks.length, b)] })
  | .free x =>
      if x ∈ s.held then
        if s.h.asks x.1 then some { s with held := s.held.erase x, asked := s.asked ++ [x.2] }
        else some { s with held := s.held.erase x, returned := s.returned ++ [x.2.id] }
      else none
  | .freeSend b =>
      if b ∈ s.asked then
        if s.h.closed then some { s with crashed := true }
        else (s.h.send sz (.free b)).map (fun h => { s with h := h, asked := s.asked.erase b })
      else none
  | .hasher => s.h.step.map (fun x => { s with h := x.1, returned := s.returned ++ x.2 })
  | .done =>
      if s.held = [] ∧ s.asked = [] ∧ s.h.closed = false then
        some { s with h := { s.h with closed := true } }
      else none
  | .join =>
      if s.h.exited = true ∧ s.result = none then some { s with result := some s.h.hash.sum32 }
      else none

/-- The steps, one constructor for each branch. -/
inductive Step (sz : ℕ) (s : HashUse) : Act → HashUse → Prop
  | queue {b : Blk} (hcl : s.h.closed = false) (hid : b.id ∉ s.blks.map Blk.id)
      (hlen : s.h.q.length < sz) :
      Step sz s (.queue b) { s with
        h := { s.h with q := s.h.q ++ [.queue b] }, blks := s.blks ++ [b]
        held := s.held ++ [(s.blks.length, b)] }
  | freeAsk {x : ℕ × Blk} (hx : x ∈ s.held) (hnext : s.h.next ≤ x.1) :
      Step sz s (.free x) { s with held := s.held.erase x, asked := s.asked ++ [x.2] }
  | freeNow {x : ℕ × Blk} (hx : x ∈ s.held) (hnext : x.1 < s.h.next) :
      Step sz s (.free x) { s with held := s.held.erase x, returned := s.returned ++ [x.2.id] }
  | crash {b : Blk} (hb : b ∈ s.asked) (hcl : s.h.closed = true) :
      Step sz s (.freeSend b) { s with crashed := true }
  | freeSend {b : Blk} (hb : b ∈ s.asked) (hcl : s.h.closed = false) (hlen : s.h.q.length < sz) :
      Step sz s (.freeSend b) { s with
        h := { s.h with q := s.h.q ++ [.free b] }, asked := s.asked.erase b }
  | bump (hbusy : s.h.busy = true) :
      Step sz s .hasher { s with h := { s.h with next := s.h.next + 1, busy := false } }
  | hash {b : Blk} {q : List Ref} (hbusy : s.h.busy = false) (hq : s.h.q = .queue b :: q) :
      Step sz s .hasher { s with
        h := { s.h with q := q, hash := s.h.hash.write b.data, busy := true } }
  | hashFree {b : Blk} {q : List Ref} (hbusy : s.h.busy = false) (hq : s.h.q = .free b :: q) :
      Step sz s .hasher { s with h := { s.h with q := q }, returned := s.returned ++ [b.id] }
  | exit (hbusy : s.h.busy = false) (hq : s.h.q = []) (hcl : s.h.closed = true)
      (hex : s.h.exited = false) : Step sz s .hasher { s with h := { s.h with exited := true } }
  | done (hheld : s.held = []) (hasked : s.asked = []) (hcl : s.h.closed = false) :
      Step sz s .done { s with h := { s.h with closed := true } }
  | join (hex : s.h.exited = true) (hres : s.result = none) :
      Step sz s .join { s with result := some s.h.hash.sum32 }

variable {sz : ℕ} {s s' : HashUse} {a : Act}

theorem send_spec {h h' : HasherIdx} {r : Ref} (hsend : h.send sz r = some h') :
    h.q.length < sz ∧ h.closed = false ∧ h' = { h with q := h.q ++ [r] } := by
  unfold HasherIdx.send at hsend
  split_ifs at hsend with hc
  exact ⟨hc.1, hc.2, (Option.some.inj hsend).symm⟩

theorem hasher_spec (hstep : s.step sz .hasher = some s') : Step sz s .hasher s' := by
  obtain ⟨⟨h', ids⟩, hh, rfl⟩ := Option.map_eq_some_iff.mp hstep
  unfold HasherIdx.step at hh
  by_cases hbusy : s.h.busy = true
  · rw [if_pos hbusy, Option.some.injEq, Prod.mk.injEq] at hh
    rw [← hh.1, ← hh.2, List.append_nil]
    exact .bump hbusy
  · rw [if_neg hbusy] at hh
    rw [Bool.not_eq_true] at hbusy
    split at hh
    · rename_i hq
      rw [Option.some.injEq, Prod.mk.injEq] at hh
      rw [← hh.1, ← hh.2, List.append_nil]
      exact .hash hbusy hq
    · rename_i hq
      rw [Option.some.injEq, Prod.mk.injEq] at hh
      rw [← hh.1, ← hh.2]
      exact .hashFree hbusy hq
    · rename_i hq
      split_ifs at hh with hc
      rw [Option.some.injEq, Prod.mk.injEq] at hh
      rw [← hh.1, ← hh.2, List.append_nil]
      exact .exit hbusy hq hc.1 hc.2

theorem step_spec (hstep : s.step sz a = some s') : Step sz s a s' := by
  cases a with
  | queue b =>
      simp only [step] at hstep
      split_ifs at hstep with hc
      obtain ⟨h', hsend, rfl⟩ := Option.map_eq_some_iff.mp hstep
      obtain ⟨hlen, hcl, rfl⟩ := send_spec hsend
      exact .queue hcl (fun hid => hc (.inr hid)) hlen
  | free x =>
      simp only [step] at hstep
      split_ifs at hstep with hx hask
      · exact Option.some.inj hstep ▸ .freeAsk hx (of_decide_eq_true hask)
      · refine Option.some.inj hstep ▸ .freeNow hx ?_
        rw [HasherIdx.asks, decide_eq_true_eq] at hask
        omega
  | freeSend b =>
      simp only [step] at hstep
      split_ifs at hstep with hb hcl
      · exact Option.some.inj hstep ▸ .crash hb hcl
      · obtain ⟨h', hsend, rfl⟩ := Option.map_eq_some_iff.mp hstep
        obtain ⟨hlen, hopen, rfl⟩ := send_spec hsend
        exact .freeSend hb hopen hlen
  | hasher => exact hasher_spec hstep
  | done =>
      simp only [step] at hstep
      split_ifs at hstep with hc
      exact Option.some.inj hstep ▸ .done hc.1 hc.2.1 hc.2.2
  | join =>
      simp only [step] at hstep
      split_ifs at hstep with hc
      exact Option.some.inj hstep ▸ .join hc.1 hc.2

theorem Step.step_eq (h : Step sz s a s') : s.step sz a = some s' := by
  cases h with
  | @queue b hcl hid hlen =>
      have hno : ¬(s.h.closed = true ∨ b.id ∈ s.blks.map Blk.id) := by
        rw [hcl]
        exact not_or.mpr ⟨Bool.false_ne_true, hid⟩
      simp only [HashUse.step, if_neg hno, HasherIdx.send, if_pos (And.intro hlen hcl),
        Option.map_some]
  | freeAsk hx hnext =>
      simp only [HashUse.step, if_pos hx, HasherIdx.asks, decide_eq_true hnext, if_true]
  | freeNow hx hnext =>
      simp only [HashUse.step, if_pos hx, HasherIdx.asks, decide_eq_false (Nat.not_le.mpr hnext),
        Bool.false_eq_true, if_false]
  | crash hb hcl => simp only [HashUse.step, if_pos hb, if_pos hcl]
  | freeSend hb hcl hlen =>
      have hopen : ¬s.h.closed = true := by
        rw [hcl]
        exact Bool.false_ne_true
      simp only [HashUse.step, if_pos hb, if_neg hopen, HasherIdx.send,
        if_pos (And.intro hlen hcl), Option.map_some]
  | bump hbusy =>
      simp only [HashUse.step, HasherIdx.step, if_pos hbusy, Option.map_some, List.append_nil]
  | hash hbusy hq | hashFree hbusy hq =>
      simp only [HashUse.step, HasherIdx.step, hbusy, Bool.false_eq_true, if_false, hq,
        Option.map_some, List.append_nil]
  | exit hbusy hq hcl hex =>
      simp only [HashUse.step, HasherIdx.step, hbusy, Bool.false_eq_true, if_false, hq,
        if_pos (And.intro hcl hex), Option.map_some, List.append_nil]
  | done hheld hasked hcl => exact if_pos ⟨hheld, hasked, hcl⟩
  | join hex hres => exact if_pos ⟨hex, hres⟩

/-! ## The order of the messages -/

/-- What is in the channel, after `n` blocks are hashed: the blocks to hash are the next ones,
in order, and a block to give back is hashed when its turn comes. -/
def Fits (blks : List Blk) : ℕ → List Ref → Prop
  | n, [] => n = blks.length
  | n, .queue b :: q => blks[n]? = some b ∧ Fits blks (n + 1) q
  | n, .free b :: q => b ∈ blks.take n ∧ Fits blks n q

/-- Another block is queued. -/
theorem Fits.queue {blks : List Blk} {n : ℕ} {q : List Ref} (h : Fits blks n q) (b : Blk) :
    Fits (blks ++ [b]) n (q ++ [.queue b]) := by
  induction q generalizing n with
  | nil =>
      obtain rfl : n = blks.length := h
      refine ⟨List.getElem?_concat_length, ?_⟩
      show blks.length + 1 = (blks ++ [b]).length
      rw [List.length_append, List.length_singleton]
  | cons r q ih =>
      cases r with
      | queue b' =>
          have hlt := (List.getElem?_eq_some_iff.mp h.1).1
          refine ⟨?_, ih h.2⟩
          rw [List.getElem?_append_left hlt]
          exact h.1
      | free b' =>
          refine ⟨?_, ih h.2⟩
          rw [List.take_append]
          exact List.mem_append_left _ h.1

/-- A block is sent to be given back: the blocks queued are all hashed by then. -/
theorem Fits.free {blks : List Blk} {n : ℕ} {q : List Ref} (h : Fits blks n q) {b : Blk}
    (hb : b ∈ blks) : Fits blks n (q ++ [.free b]) := by
  induction q generalizing n with
  | nil =>
      obtain rfl : n = blks.length := h
      refine ⟨?_, rfl⟩
      rw [List.take_length]
      exact hb
  | cons r q ih =>
      cases r with
      | queue b' => exact ⟨h.1, ih h.2⟩
      | free b' => exact ⟨h.1, ih h.2⟩

/-- The blocks to hash are not yet hashed. -/
theorem Fits.le {blks : List Blk} {n : ℕ} {q : List Ref} (h : Fits blks n q) :
    n ≤ blks.length := by
  induction q generalizing n with
  | nil => exact Nat.le_of_eq h
  | cons r q ih =>
      cases r with
      | queue b => exact Nat.le_of_succ_le (ih h.2)
      | free b => exact ih h.2

/-! ## What every run keeps -/

/-- How often block `k` is out: `Free` is to come or is sending, or the hasher has it. -/
def out (s : HashUse) (k : ℕ) : ℕ :=
  (s.held.map (fun x => x.2.id)).count k + (s.asked.map Blk.id).count k
    + (s.h.q.flatMap Ref.ids).count k

structure Kept (s : HashUse) : Prop where
  fits : Fits s.blks s.h.hashed s.h.q
  hash : s.h.hash = hashAll ((s.blks.take s.h.hashed).map Blk.data)
  held : ∀ x ∈ s.held, s.blks[x.1]? = some x.2
  asked : ∀ b ∈ s.asked, b ∈ s.blks
  /-- a block queued is out or given back, as often as it was queued -/
  books : ∀ k, s.returned.count k + s.out k = (s.blks.map Blk.id).count k
  nodup : (s.blks.map Blk.id).Nodup
  early : ∀ k ∈ s.returned, k ∈ (s.blks.take s.h.next).map Blk.id
  closed : s.h.closed = true → s.held = [] ∧ s.asked = []
  exited : s.h.exited = true → s.h.closed = true ∧ s.h.q = [] ∧ s.h.busy = false
  result : ∀ x, s.result = some x → s.h.exited = true ∧ x = s.h.hash.sum32
  alive : s.crashed = false

theorem kept_new : Kept new := by
  refine ⟨rfl, rfl, ?_, ?_, fun _ => rfl, List.nodup_nil, ?_, ?_, ?_, ?_, rfl⟩
  · rintro _ ⟨⟩
  · rintro _ ⟨⟩
  · rintro _ ⟨⟩
  · rintro ⟨⟩
  · rintro ⟨⟩
  · rintro _ ⟨⟩

/-- One entry of a list is taken out. -/
theorem count_erase {α β : Type} [BEq α] [LawfulBEq α] [BEq β] [LawfulBEq β] (f : α → β)
    {l : List α} {x : α} (hx : x ∈ l) (k : β) :
    ((l.erase x).map f).count k + [f x].count k = (l.map f).count k := by
  have hperm := ((List.perm_cons_erase hx).map f).count_eq k
  rw [hperm, List.map_cons, List.count_cons (l := List.map f _), List.count_singleton]

/-- The first block in the channel is taken out to be hashed. -/
theorem hash_take {blks : List Blk} {n : ℕ} {b : Blk} (hb : blks[n]? = some b) :
    hashAll ((blks.take (n + 1)).map Blk.data)
      = (hashAll ((blks.take n).map Blk.data)).write b.data := by
  rw [List.take_add_one, hb, List.map_append, ← hashAll_concat]
  rfl

theorem books_step (h : Kept s) (hstep : Step sz s a s') :
    ∀ k, s'.returned.count k + s'.out k = (s'.blks.map Blk.id).count k := by
  intro k
  have hk := h.books k
  cases hstep with
  | @queue b =>
      simp only [out, List.map_append, List.map_cons, List.map_nil, List.flatMap_append,
        List.flatMap_singleton, Ref.ids, List.append_nil, List.count_append] at hk ⊢
      omega
  | @freeAsk x hx =>
      have herase := count_erase (fun x : ℕ × Blk => x.2.id) hx k
      beta_reduce at herase
      simp only [out, List.map_append, List.map_cons, List.map_nil, List.count_append] at hk ⊢
      omega
  | @freeNow x hx =>
      have herase := count_erase (fun x : ℕ × Blk => x.2.id) hx k
      beta_reduce at herase
      simp only [out, List.count_append] at hk ⊢
      omega
  | @freeSend b hb =>
      have herase := count_erase Blk.id hb k
      simp only [out, List.flatMap_append, List.flatMap_singleton, Ref.ids, List.count_append]
        at hk ⊢
      omega
  | hash _ hq =>
      simp only [out, hq, List.flatMap_cons, Ref.ids, List.nil_append] at hk ⊢
      exact hk
  | hashFree _ hq =>
      simp only [out, hq, List.flatMap_cons, Ref.ids, List.count_append] at hk ⊢
      omega
  | _ => exact hk

/-- **Every step keeps what holds of the hasher.** -/
theorem Kept.step (h : Kept s) (hstep : Step sz s a s') : Kept s' := by
  have hbooks := books_step h hstep
  cases hstep with
  | @queue b hcl hid hlen =>
      have hle := h.fits.le
      have htake : ∀ n, n ≤ s.blks.length → (s.blks ++ [b]).take n = s.blks.take n :=
        fun n hn => List.take_append_of_le_length hn
      refine ⟨h.fits.queue b, ?_, ?_, ?_, hbooks, ?_, ?_, ?_, ?_, h.result, h.alive⟩
      · show s.h.hash = hashAll (((s.blks ++ [b]).take s.h.hashed).map Blk.data)
        rw [htake _ hle]
        exact h.hash
      · intro x hx
        rcases List.mem_append.mp hx with hx | hx
        · have hold := h.held x hx
          have hlt := (List.getElem?_eq_some_iff.mp hold).1
          show (s.blks ++ [b])[x.1]? = _
          rw [List.getElem?_append_left hlt]
          exact hold
        · rw [List.mem_singleton.mp hx]
          exact List.getElem?_concat_length
      · exact fun b' hb' => List.mem_append_left _ (h.asked b' hb')
      · show ((s.blks ++ [b]).map Blk.id).Nodup
        rw [List.map_append, List.nodup_append']
        refine ⟨h.nodup, List.nodup_singleton _, ?_⟩
        exact List.disjoint_singleton.mpr hid
      · intro k hk
        show k ∈ ((s.blks ++ [b]).take s.h.next).map Blk.id
        rw [htake _ ((Nat.le_add_right _ _).trans hle)]
        exact h.early k hk
      · intro hc
        rw [show s.h.closed = true from hc] at hcl
        cases hcl
      · intro hex
        rw [(h.exited hex).1] at hcl
        cases hcl
  -- the counter is not past the block: the hasher gives it back
  | @freeAsk x hx hnext =>
      refine ⟨h.fits, h.hash, ?_, ?_, hbooks, h.nodup, h.early, ?_, h.exited, h.result, h.alive⟩
      · exact fun y hy => h.held y (List.mem_of_mem_erase hy)
      · intro b hb
        rcases List.mem_append.mp hb with hb | hb
        · exact h.asked b hb
        · rw [List.mem_singleton.mp hb]
          exact List.mem_of_getElem? (h.held x hx)
      · intro hcl
        rw [(h.closed hcl).1] at hx
        cases hx
  | @freeNow x hx hnext =>
      refine ⟨h.fits, h.hash, ?_, h.asked, hbooks, h.nodup, ?_, ?_, h.exited, h.result, h.alive⟩
      · exact fun y hy => h.held y (List.mem_of_mem_erase hy)
      · -- the counter is past the block
        intro k hk
        rcases List.mem_append.mp hk with hk | hk
        · exact h.early k hk
        · rw [List.mem_singleton.mp hk]
          apply List.mem_map_of_mem
          apply List.mem_of_getElem? (i := x.1)
          rw [List.getElem?_take_of_lt hnext]
          exact h.held x hx
      · intro hcl
        rw [(h.closed hcl).1] at hx
        cases hx
  | crash hb hcl =>
      rw [(h.closed hcl).2] at hb
      cases hb
  -- the request goes behind the blocks of the channel, its own among them
  | @freeSend b hb hcl hlen =>
      refine ⟨h.fits.free (h.asked b hb), h.hash, h.held, ?_, hbooks, h.nodup, h.early, ?_, ?_,
        h.result, h.alive⟩
      · exact fun y hy => h.asked y (List.mem_of_mem_erase hy)
      · intro hc
        rw [show s.h.closed = true from hc] at hcl
        cases hcl
      · intro hex
        rw [(h.exited hex).1] at hcl
        cases hcl
  -- the counter catches up with what is hashed
  | bump hbusy =>
      have hhashed : s.h.hashed = s.h.next + 1 := by
        unfold HasherIdx.hashed
        rw [hbusy, if_pos rfl]
      have hfits := h.fits
      have hhash := h.hash
      rw [hhashed] at hfits hhash
      refine ⟨hfits, hhash, h.held, h.asked, hbooks, h.nodup, ?_, h.closed, ?_, ?_, h.alive⟩
      · intro k hk
        obtain ⟨b, hb, hid⟩ := List.mem_map.mp (h.early k hk)
        exact List.mem_map.mpr ⟨b, (List.take_subset_take_left _ (Nat.le_succ _)) hb, hid⟩
      · intro hex
        rw [(h.exited hex).2.2] at hbusy
        cases hbusy
      · exact h.result
  | @hash b q hbusy hq =>
      have hhashed : s.h.hashed = s.h.next := by
        unfold HasherIdx.hashed
        rw [hbusy, if_neg Bool.false_ne_true]
        rfl
      have hfits := h.fits
      have hhash := h.hash
      rw [hhashed] at hhash
      rw [hhashed, hq] at hfits
      refine ⟨hfits.2, ?_, h.held, h.asked, hbooks, h.nodup, h.early, h.closed, ?_, ?_, h.alive⟩
      · show s.h.hash.write b.data = hashAll ((s.blks.take (s.h.next + 1)).map Blk.data)
        -- the channel holds the blocks in the order of their index
        rw [hash_take hfits.1, ← hhash]
      · intro hex
        have hnil := (h.exited hex).2.1
        rw [hq] at hnil
        cases hnil
      · intro x hx
        have hnil := (h.exited (h.result x hx).1).2.1
        rw [hq] at hnil
        cases hnil
  | @hashFree b q hbusy hq =>
      have hhashed : s.h.hashed = s.h.next := by
        unfold HasherIdx.hashed
        rw [hbusy, if_neg Bool.false_ne_true]
        rfl
      have hfits := h.fits
      rw [hhashed, hq] at hfits
      have hfits' : Fits s.blks s.h.hashed q := by
        rw [hhashed]
        exact hfits.2
      refine ⟨hfits', h.hash, h.held, h.asked, hbooks, h.nodup, ?_, h.closed, ?_, h.result, h.alive⟩
      · -- the block is at the head of the channel, so it is hashed
        intro k hk
        rcases List.mem_append.mp hk with hk | hk
        · exact h.early k hk
        · rw [List.mem_singleton.mp hk]
          exact List.mem_map_of_mem hfits.1
      · intro hex
        have hnil := (h.exited hex).2.1
        rw [hq] at hnil
        cases hnil
  | exit hbusy hq hcl hex =>
      refine ⟨h.fits, h.hash, h.held, h.asked, hbooks, h.nodup, h.early, h.closed, ?_, ?_, h.alive⟩
      · exact fun _ => ⟨hcl, hq, hbusy⟩
      · exact fun x hx => ⟨rfl, (h.result x hx).2⟩
  | done hheld hasked hcl =>
      refine ⟨h.fits, h.hash, h.held, h.asked, hbooks, h.nodup, h.early, ?_, ?_, h.result, h.alive⟩
      · exact fun _ => ⟨hheld, hasked⟩
      · exact fun hex => ⟨rfl, (h.exited hex).2⟩
  | join hex hres =>
      refine ⟨h.fits, h.hash, h.held, h.asked, hbooks, h.nodup, h.early, h.closed, h.exited, ?_,
        h.alive⟩
      intro x hx
      exact ⟨hex, (Option.some.inj hx).symm⟩

theorem kept_run {as : List Act} (hrun : Machine.run (HashUse.step sz) new as = some s) : Kept s :=
  Machine.invariant_run (fun _ _ _ h hstep => h.step (step_spec hstep)) kept_new hrun

/-! ## `Done` returns -/

/-- Steps to come when no more blocks are queued: a `Free` may have to ask, a message is read,
and the counter is raised after a block. -/
def fuel (s : HashUse) : ℕ :=
  4 * s.held.length + 3 * s.asked.length + 2 * s.h.q.length + (if s.h.busy then 1 else 0)
    + (if s.h.closed then 0 else 1) + (if s.h.exited then 0 else 1)
    + (if s.result.isSome then 0 else 1)

theorem fuel_step (h : Kept s) (hstep : Step sz s a s') (ha : ∀ b, a ≠ .queue b) :
    s'.fuel < s.fuel := by
  cases hstep with
  | @queue b => exact absurd rfl (ha b)
  | @freeAsk x hx =>
      have hlen := List.length_erase_add_one hx
      simp only [fuel, List.length_append, List.length_singleton]
      omega
  | @freeNow x hx =>
      have hlen := List.length_erase_add_one hx
      simp only [fuel]
      omega
  | crash hb hcl =>
      rw [(h.closed hcl).2] at hb
      cases hb
  | @freeSend b hb =>
      have hlen := List.length_erase_add_one hb
      simp only [fuel, List.length_append, List.length_singleton]
      omega
  | bump hbusy =>
      simp only [fuel, hbusy, if_true, Bool.false_eq_true, if_false]
      omega
  | hash hbusy hq =>
      simp only [fuel, hbusy, hq, if_true, Bool.false_eq_true, if_false, List.length_cons]
      omega
  | hashFree hbusy hq =>
      simp only [fuel, hq, List.length_cons]
      omega
  | exit hbusy hq hcl hex =>
      simp only [fuel, hex, if_true, Bool.false_eq_true, if_false]
      omega
  | done hheld hasked hcl =>
      simp only [fuel, hcl, if_true, Bool.false_eq_true, if_false]
      omega
  | join hex hres =>
      simp only [fuel, hres, Option.isSome_some, Option.isSome_none, if_true, Bool.false_eq_true,
        if_false]
      omega

/-- The hasher can read what is in the channel. -/
theorem hasher_moves (hne : s.h.q ≠ [] ∨ s.h.busy = true) : (s.step sz .hasher).isSome = true := by
  rw [HashUse.step, Option.isSome_map]
  unfold HasherIdx.step
  by_cases hbusy : s.h.busy = true
  · rw [if_pos hbusy]
    rfl
  · rw [if_neg hbusy]
    rcases hq : s.h.q with _ | ⟨r, q⟩
    · exact absurd hq (hne.resolve_right hbusy)
    · rcases r with b | b <;> rfl

/-- **Until `Done` has returned something can move**, whether or not more blocks come. -/
theorem moves (hsz : 0 < sz) (hres : s.result = none) :
    ∃ a, (∀ b, a ≠ .queue b) ∧ (s.step sz a).isSome = true := by
  have hhasher : s.h.q ≠ [] ∨ s.h.busy = true →
      ∃ a, (∀ b, a ≠ Act.queue b) ∧ (s.step sz a).isSome = true :=
    fun hne => ⟨.hasher, by rintro _ ⟨⟩, hasher_moves hne⟩
  -- the hasher first, then the callers that hold or ask for a block, then `Done`
  by_cases hwork : s.h.q ≠ [] ∨ s.h.busy = true
  · exact hhasher hwork
  · rw [not_or, not_not, Bool.not_eq_true] at hwork
    rcases hheld : s.held with _ | ⟨x, held⟩
    · rcases hasked : s.asked with _ | ⟨b, asked⟩
      · by_cases hcl : s.h.closed = true
        · by_cases hex : s.h.exited = true
          · refine ⟨.join, by rintro _ ⟨⟩, ?_⟩
            rw [HashUse.step, if_pos ⟨hex, hres⟩]
            rfl
          · -- the channel is closed and empty: the hasher's loop ends
            refine ⟨.hasher, by rintro _ ⟨⟩, ?_⟩
            rw [Bool.not_eq_true] at hex
            rw [HashUse.step, Option.isSome_map]
            simp only [HasherIdx.step, hwork.2, hwork.1, hcl, hex, Bool.false_eq_true, and_self,
              if_true, if_false, Option.isSome_some]
        · refine ⟨.done, by rintro _ ⟨⟩, ?_⟩
          rw [HashUse.step, if_pos ⟨hheld, hasked, Bool.not_eq_true _ ▸ hcl⟩]
          rfl
      · refine ⟨.freeSend b, by rintro _ ⟨⟩, ?_⟩
        have hmem : b ∈ s.asked := by
          rw [hasked]
          exact List.mem_cons_self
        have hlen : s.h.q.length < sz := by
          rw [hwork.1]
          exact hsz
        simp only [HashUse.step, if_pos hmem]
        split_ifs with hcl
        · rfl
        · rw [Bool.not_eq_true] at hcl
          rw [HasherIdx.send, if_pos ⟨hlen, hcl⟩]
          rfl
    · refine ⟨.free x, by rintro _ ⟨⟩, ?_⟩
      have hmem : x ∈ s.held := by
        rw [hheld]
        exact List.mem_cons_self
      simp only [HashUse.step, if_pos hmem]
      split_ifs <;> rfl

/-- Without more blocks a run is no longer than its fuel. -/
theorem Kept.length_run_le (h : Kept s) {as : List Act} (has : ∀ a ∈ as, ∀ b, a ≠ .queue b)
    (hrun : Machine.run (HashUse.step sz) s as = some s') : as.length ≤ s.fuel := by
  have hstep : ∀ (s : HashUse) (a : Act) (s' : HashUse), (∀ b, a ≠ .queue b) → Kept s →
      HashUse.step sz s a = some s' → Kept s' ∧ s'.fuel < s.fuel :=
    fun s a s' ha hk hs => ⟨hk.step (step_spec hs), fuel_step hk (step_spec hs) ha⟩
  have hle := Machine.length_run_le fuel hstep has h hrun
  omega

/-- A block is given back once. -/
theorem Kept.once (h : Kept s) : s.returned.Nodup := by
  rw [List.nodup_iff_count_le_one]
  intro k
  have hbooks := h.books k
  have hone := List.nodup_iff_count_le_one.mp h.nodup k
  omega

/-- When the hasher has exited every block is hashed. -/
theorem Kept.all_hashed (h : Kept s) (hex : s.h.exited = true) :
    s.h.hash = hashAll (s.blks.map Blk.data) := by
  obtain ⟨-, hq, -⟩ := h.exited hex
  have hfits := h.fits
  rw [hq] at hfits
  have hall : s.h.hashed = s.blks.length := hfits
  have hhash := h.hash
  rw [hall, List.take_length] at hhash
  exact hhash

/-- And every block is given back. -/
theorem Kept.perm (h : Kept s) (hex : s.h.exited = true) :
    s.returned.Perm (s.blks.map Blk.id) := by
  obtain ⟨hcl, hq, -⟩ := h.exited hex
  obtain ⟨hheld, hasked⟩ := h.closed hcl
  rw [List.perm_iff_count]
  intro k
  have hbooks := h.books k
  rw [out, hheld, hasked, hq] at hbooks
  exact hbooks

/-- **Who gives a block back.** On every schedule no message is sent on the closed channel; a
block goes back once, and not before the counter is past it, which is raised after its bytes
are hashed; when `Done` has returned, every block queued has been given back, and the sum is
that of the blocks in the order of their index. `Done` does return: no schedule is stuck
before, and without more blocks each comes to its end. -/
theorem hash_release (sz : ℕ) {as : List Act} {s : HashUse}
    (hrun : Machine.run (HashUse.step sz) new as = some s) :
    s.crashed = false
      ∧ s.returned.Nodup
      ∧ (∀ k ∈ s.returned, k ∈ (s.blks.take s.h.next).map Blk.id)
      ∧ s.h.next ≤ s.h.hashed
      ∧ s.h.hash = hashAll ((s.blks.take s.h.hashed).map Blk.data)
      ∧ (∀ x, s.result = some x →
          s.returned.Perm (s.blks.map Blk.id)
            ∧ x = (hashAll (s.blks.map Blk.data)).sum32
            ∧ ((s.blks.map Blk.data).flatten.length < 2 ^ 64 →
              x = checksumZero (s.blks.map Blk.data).flatten))
      ∧ (0 < sz → s.result = none → ∃ a, (∀ b, a ≠ .queue b) ∧ (s.step sz a).isSome = true)
      ∧ ∀ {as' : List Act} {s' : HashUse}, (∀ a ∈ as', ∀ b, a ≠ .queue b) →
          Machine.run (HashUse.step sz) s as' = some s' → as'.length ≤ s.fuel := by
  have hk := kept_run hrun
  refine ⟨hk.alive, hk.once, hk.early, Nat.le_add_right _ _, hk.hash, ?_, fun hsz => moves hsz,
    fun has hrun' => hk.length_run_le has hrun'⟩
  intro x hx
  obtain ⟨hex, hsum⟩ := hk.result x hx
  have hhash := hk.all_hashed hex
  refine ⟨hk.perm hex, ?_, ?_⟩
  · rw [hsum, hhash]
  · intro hlen
    rw [hsum, hhash, sum32_hashAll _ hlen]

/-- The second block is freed when the counter is past it, the first one before. -/
theorem hash_release_two :
    ∃ s, Machine.run (HashUse.step 2) new [.queue ⟨7, [1]⟩, .free (0, ⟨7, [1]⟩), .queue ⟨8, [2]⟩,
          .hasher, .freeSend ⟨7, [1]⟩, .hasher, .hasher, .hasher, .free (1, ⟨8, [2]⟩), .hasher,
          .done, .hasher, .join] = some s
      ∧ s.returned.Perm [7, 8] ∧ s.result = some (hashAll [[1], [2]]).sum32 := by
  have hrun : (Machine.run (HashUse.step 2) new [.queue ⟨7, [1]⟩, .free (0, ⟨7, [1]⟩),
      .queue ⟨8, [2]⟩, .hasher, .freeSend ⟨7, [1]⟩, .hasher, .hasher, .hasher,
      .free (1, ⟨8, [2]⟩), .hasher, .done, .hasher, .join]).map
        (fun s => (s.blks, s.result.isSome)) = some ([⟨7, [1]⟩, ⟨8, [2]⟩], true) := by decide +kernel
  obtain ⟨s, hs, hblks⟩ := Option.map_eq_some_iff.mp hrun
  rw [Prod.mk.injEq] at hblks
  obtain ⟨x, hx⟩ := Option.isSome_iff_exists.mp hblks.2
  obtain ⟨hperm, hsum, -⟩ := (hash_release 2 hs).2.2.2.2.2.1 x hx
  rw [hblks.1] at hperm hsum
  refine ⟨s, hs, hperm, ?_⟩
  rw [hx, hsum]
  rfl

end HashUse

end Plz4
