/-
The sparse writer under failures: seeks and writes that fail, and sources that do.

Zeros count as accepted before they are sought past, so the position and the pending skip
add up to what was accepted, whichever operation fails; `Books` says so of single calls.
What a source brings before it fails is another matter: `ReadFrom` counts those bytes, but
leaves its loop before it writes them.
-/
import Plz4.SparseContent

set_option autoImplicit false

namespace Plz4.Sparse

open Cut

variable {caps : Caps} {plan : WrPlan} {w w' : Writer} {C : Bytes}

/-! ## Failing files -/

/-- The file below its position, with holes read as zeros. -/
def File.below (f : File) : Bytes :=
  f.content.take f.pos ++ List.replicate (f.pos - f.content.length) 0

theorem Books.below (h : Books C w) : w.wr.below ++ List.replicate w.skip 0 = C := by
  have hpos := h.pos
  have hlen := h.len
  have hzeros : C.length - w.wr.content.length = (w.wr.pos - w.wr.content.length) + w.skip := by
    omega
  have heq := h.eq
  rw [hzeros, List.replicate_add, ← List.append_assoc] at heq
  rw [File.below, List.take_of_length_le hlen]
  exact heq.symm

/-- No failing write of the plan accepts a byte. -/
def AcceptsNone (plan : WrPlan) : Prop := ∀ i k e, plan i = some (k, e) → k = 0

/-- The calls on a writer over an empty file lead to `w`; the counts that the `Write` calls
returned add up to `n`, and they accepted the bytes `C`. Which operations fail is up to each
call. A write in `Close` is of one byte, so one that fails and accepts a proper prefix accepts
none. -/
inductive Reached (caps : Caps) : Writer → ℕ → Bytes → Prop
  | new : Reached caps .new 0 []
  | write {w w' : Writer} {n m : ℕ} {C : Bytes} {err : Option Err} (plan : WrPlan)
      (data : Bytes) : Reached caps w n C → w.write plan caps data = (m, err, w') →
      Reached caps w' (n + m) (C ++ data.take m)
  | flush {w w' : Writer} {n : ℕ} {C : Bytes} {err : Option Err} (plan : WrPlan) :
      Reached caps w n C → w.flush plan caps = (err, w') → Reached caps w' n C
  | close {w w' : Writer} {n : ℕ} {C : Bytes} {err : Option Err} (plan : WrPlan) :
      AcceptsNone plan → Reached caps w n C → w.close plan caps = (err, w') →
      Reached caps w' n C

/-- The same but for the operations counted. -/
structure Alike (w w' : Writer) : Prop where
  content : w.wr.content = w'.wr.content
  pos : w.wr.pos = w'.wr.pos
  skip : w.skip = w'.skip

theorem Alike.trans {w₁ w₂ w₃ : Writer} (h : Alike w₁ w₂) (h' : Alike w₂ w₃) : Alike w₁ w₃ :=
  ⟨h.content.trans h'.content, h.pos.trans h'.pos, h.skip.trans h'.skip⟩

theorem Alike.symm (h : Alike w w') : Alike w' w := ⟨h.content.symm, h.pos.symm, h.skip.symm⟩

theorem Alike.below (h : Alike w w') : w.wr.below = w'.wr.below := by
  rw [File.below, File.below, h.content, h.pos]

/-- What one attempt keeps, all of them keep. -/
theorem foldl_keeps {β : Type} (f : Writer → β) (attempt : Writer → WrPlan → Writer)
    (plans : List WrPlan) (h : ∀ plan ∈ plans, ∀ w, f (attempt w plan) = f w) (w : Writer) :
    f (plans.foldl attempt w) = f w := by
  induction plans generalizing w with
  | nil => rfl
  | cons plan plans ih =>
      have hrest := ih (fun p hp => h p (List.mem_cons_of_mem _ hp)) (attempt w plan)
      exact hrest.trans (h plan List.mem_cons_self w)

/-! ### `Flush` -/

/-- `Flush` writes nothing, and moves zeros from the skip to the position. -/
theorem flush_keeps (plan : WrPlan) (caps : Caps) (w : Writer) :
    (w.flush plan caps).2.wr.content = w.wr.content
      ∧ (w.flush plan caps).2.wr.pos + (w.flush plan caps).2.skip = w.wr.pos + w.skip := by
  rw [Writer.flush, Writer.skipAhead]
  by_cases hs : w.skip > 0
  · rw [if_pos hs, File.seek]
    rcases plan w.wr.ops with _ | ⟨k, e⟩ <;> exact ⟨rfl, rfl⟩
  · rw [if_neg hs]
    exact ⟨rfl, rfl⟩

/-- A `Flush` that does not fail leaves no zeros pending. -/
theorem flush_ok (caps : Caps) (w : Writer) : (w.flush .ok caps).1 = caps.flush
    ∧ Alike (w.flush .ok caps).2 ⟨⟨w.wr.content, w.wr.pos + w.skip, 0⟩, 0⟩ := by
  rw [Writer.flush, Writer.skipAhead]
  by_cases hs : w.skip > 0
  · rw [if_pos hs]
    exact ⟨rfl, rfl, rfl, rfl⟩
  · have hzero : w.skip = 0 := Nat.eq_zero_of_not_pos hs
    rw [if_neg hs]
    exact ⟨rfl, rfl, by rw [hzero]; rfl, hzero⟩

/-- **`Flush` can be retried.** -/
theorem flush_retry (caps : Caps) (plans : List WrPlan) (w : Writer) :
    let w' := plans.foldl (fun w plan => (w.flush plan caps).2) w
    (w'.flush .ok caps).1 = caps.flush ∧ Alike (w'.flush .ok caps).2 (w.flush .ok caps).2 := by
  intro w'
  have hkeeps := foldl_keeps (fun w => (w.wr.content, w.wr.pos + w.skip))
    (fun w plan => (w.flush plan caps).2) plans
    (fun plan _ w => Prod.ext (flush_keeps plan caps w).1 (flush_keeps plan caps w).2) w
  obtain ⟨hcontent, hsum⟩ := Prod.mk.inj hkeeps
  obtain ⟨herr, hlike⟩ := flush_ok caps w'
  refine ⟨herr, hlike.trans (Alike.trans ?_ (flush_ok caps w).2.symm)⟩
  exact ⟨hcontent, hsum, rfl⟩

/-! ### `Close` -/

/-- What `Close` makes of the content: the last pending zero is written in its place. -/
def Writer.closed (w : Writer) : Bytes :=
  if w.skip = 0 then w.wr.content else File.put ⟨w.wr.content, w.wr.pos + w.skip - 1, 0⟩ [0]

/-- The write that ends `Close` either puts the last zero or changes nothing. -/
theorem closeTail_keeps (hplan : AcceptsNone plan) (caps : Caps) (hone : w.skip = 1) :
    (w.closeTail plan caps).2.closed = w.closed
      ∧ (w.closeTail plan caps).2.wr.pos + (w.closeTail plan caps).2.skip
        = w.wr.pos + w.skip := by
  rw [Writer.closeTail, File.write]
  rcases hp : plan w.wr.ops with _ | ⟨k, e⟩
  · refine ⟨?_, by rw [hone]; rfl⟩
    rw [Writer.closed, Writer.closed, if_pos rfl, if_neg (by omega), hone]
    rfl
  · have hk := hplan _ _ _ hp
    subst hk
    exact ⟨rfl, rfl⟩

/-- So does `Close`, failing or not. -/
theorem close_keeps (hplan : AcceptsNone plan) (caps : Caps) (w : Writer) :
    (w.close plan caps).2.closed = w.closed
      ∧ (w.close plan caps).2.wr.pos + (w.close plan caps).2.skip = w.wr.pos + w.skip := by
  rw [Writer.close]
  by_cases hs : w.skip > 0
  · rw [if_pos hs]
    by_cases hone : w.skip > 1
    · rw [if_pos hone, File.seek]
      rcases plan w.wr.ops with _ | ⟨k, e⟩
      · -- the seek stops one zero short
        obtain ⟨hclosed, hsum⟩ := closeTail_keeps (w :=
          ⟨⟨w.wr.content, w.wr.pos + (w.skip - 1), w.wr.ops + 1⟩, 1⟩) hplan caps rfl
        refine ⟨hclosed.trans ?_, hsum.trans ?_⟩
        · have hplace : w.wr.pos + (w.skip - 1) + 1 - 1 = w.wr.pos + w.skip - 1 := by omega
          rw [Writer.closed, Writer.closed, if_neg Nat.one_ne_zero, if_neg (by omega)]
          simp only [hplace]
        · simp only
          omega
      · exact ⟨rfl, rfl⟩
    · rw [if_neg hone]
      exact closeTail_keeps hplan caps (by omega)
  · rw [if_neg hs]
    exact ⟨rfl, rfl⟩

/-- A `Close` that does not fail. -/
theorem close_ok (caps : Caps) (w : Writer) : (w.close .ok caps).1 = caps.close
    ∧ Alike (w.close .ok caps).2 ⟨⟨w.closed, w.wr.pos + w.skip, 0⟩, 0⟩ := by
  have hnone : AcceptsNone .ok := by rintro _ _ _ ⟨⟩
  obtain ⟨hclosed, hsum⟩ := close_keeps hnone caps w
  have hdone : (w.close .ok caps).1 = caps.close ∧ (w.close .ok caps).2.skip = 0 := by
    rw [Writer.close]
    by_cases hs : w.skip > 0
    · rw [if_pos hs]
      by_cases hone : w.skip > 1
      · rw [if_pos hone]
        exact ⟨rfl, rfl⟩
      · rw [if_neg hone]
        exact ⟨rfl, rfl⟩
    · rw [if_neg hs]
      exact ⟨rfl, Nat.eq_zero_of_not_pos hs⟩
  refine ⟨hdone.1, ?_, ?_, hdone.2⟩
  · rw [Writer.closed, if_pos hdone.2] at hclosed
    exact hclosed
  · rw [hdone.2] at hsum
    exact hsum

/-- **`Close` can be retried.** -/
theorem close_retry (caps : Caps) (plans : List WrPlan) (hplans : ∀ plan ∈ plans, AcceptsNone plan)
    (w : Writer) :
    let w' := plans.foldl (fun w plan => (w.close plan caps).2) w
    (w'.close .ok caps).1 = caps.close ∧ Alike (w'.close .ok caps).2 (w.close .ok caps).2 := by
  intro w'
  have hkeeps := foldl_keeps (fun w => (w.closed, w.wr.pos + w.skip))
    (fun w plan => (w.close plan caps).2) plans
    (fun plan hp w => Prod.ext (close_keeps (hplans plan hp) caps w).1
      (close_keeps (hplans plan hp) caps w).2) w
  obtain ⟨hclosed, hsum⟩ := Prod.mk.inj hkeeps
  obtain ⟨herr, hlike⟩ := close_ok caps w'
  refine ⟨herr, hlike.trans (Alike.trans ?_ (close_ok caps w).2.symm)⟩
  exact ⟨hclosed, hsum, rfl⟩

/-- The books stay balanced in `Close`. -/
theorem Books.close_keeps (h : Books C w) (hplan : AcceptsNone plan) (caps : Caps) :
    Books C (w.close plan caps).2 := by
  have htail : ∀ {w : Writer}, Books C w → w.skip = 1 → Books C (w.closeTail plan caps).2 := by
    intro w h hone
    rw [Writer.closeTail, File.write]
    rcases hp : plan w.wr.ops with _ | ⟨k, e⟩
    · have hpos := h.pos
      have hlen := h.len
      have hzeros : C.length - w.wr.content.length = (w.wr.pos - w.wr.content.length) + 1 := by
        omega
      -- the last zero of the content is written, and no zero is pending
      have hput : w.wr.put [0] = C := by
        rw [File.put_eq (by simp) hlen]
        conv_rhs => rw [h.eq, hzeros, List.replicate_add, ← List.append_assoc]
        rfl
      refine ⟨?_, ?_, ?_⟩
      · simp only [List.length_singleton]
        omega
      · simp only [hput, List.length_singleton]
        omega
      · simp only [hput, Nat.sub_self, List.replicate_zero, List.append_nil]
    · have hk := hplan _ _ _ hp
      subst hk
      exact ⟨h.pos, h.len, h.eq⟩
  rw [Writer.close]
  by_cases hs : w.skip > 0
  · rw [if_pos hs]
    by_cases hone : w.skip > 1
    · rw [if_pos hone, File.seek]
      rcases plan w.wr.ops with _ | ⟨k, e⟩
      · -- the zeros before it are seeked over
        have hseek := h.seek (w.skip - 1) (w.wr.ops + 1) (by omega)
        have hleft : w.skip - (w.skip - 1) = 1 := by omega
        rw [hleft] at hseek
        exact htail hseek rfl
      · exact ⟨h.pos, h.len, h.eq⟩
    · rw [if_neg hone]
      exact htail h (by omega)
  · rw [if_neg hs]
    exact h

/-! ### Runs -/

/-- What every call keeps, failing or not. -/
theorem Reached.books {n : ℕ} (hseek : caps.seeker = true) (h : Reached caps w n C) :
    Books C w ∧ C.length = n := by
  induction h with
  | new => exact ⟨.new, rfl⟩
  | write plan data _ hw ih =>
      obtain ⟨hb, hlen⟩ := ih
      obtain ⟨m, err, w', hw', hm, -, hb'⟩ := hb.writeData plan caps hseek data
      rw [hw, Prod.mk.injEq, Prod.mk.injEq] at hw'
      obtain ⟨rfl, -, rfl⟩ := hw'
      refine ⟨hb', ?_⟩
      rw [List.length_append, List.length_take, hlen, Nat.min_eq_left hm]
  | flush plan _ hw ih =>
      obtain ⟨hb, hlen⟩ := ih
      obtain ⟨err, w', hahead, hb', -⟩ := hb.skipAhead plan
      refine ⟨?_, hlen⟩
      rw [Writer.flush, hahead] at hw
      rcases err with _ | e <;> exact (Prod.mk.inj hw).2 ▸ hb'
  | close plan hplan _ hw ih =>
      have hb := ih.1.close_keeps hplan caps
      rw [hw] at hb
      exact ⟨hb, ih.2⟩

/-- **The sparse writer under failures.** After any calls, position and pending skip add up
to the counts that `Write` returned, and the file below the position with the pending zeros
is what was accepted. However often `Flush` or `Close` failed before, once it goes through
the writer and the file are as if it had at first, and all that was accepted is there. -/
theorem failures_balanced {n : ℕ} (hseek : caps.seeker = true) (h : Reached caps w n C) :
    w.wr.pos + w.skip = n ∧ w.wr.below ++ List.replicate w.skip 0 = C
      ∧ (∀ plans : List WrPlan,
        let w' := plans.foldl (fun w plan => (w.flush plan caps).2) w
        (w'.flush .ok caps).1 = caps.flush ∧ Alike (w'.flush .ok caps).2 (w.flush .ok caps).2
          ∧ (w'.flush .ok caps).2.skip = 0 ∧ (w'.flush .ok caps).2.wr.below = C)
      ∧ ∀ plans : List WrPlan, (∀ plan ∈ plans, AcceptsNone plan) →
        let w' := plans.foldl (fun w plan => (w.close plan caps).2) w
        (w'.close .ok caps).1 = caps.close ∧ Alike (w'.close .ok caps).2 (w.close .ok caps).2
          ∧ (w'.close .ok caps).2.skip = 0 ∧ (w'.close .ok caps).2.wr.below = C := by
  obtain ⟨hb, hlen⟩ := h.books hseek
  -- a writer with nothing pending has all of it in the file
  have hall : ∀ {w' : Writer}, Reached caps w' n C → w'.skip = 0 → w'.wr.below = C := by
    intro w' h' hs
    have hbelow := (h'.books hseek).1.below
    rw [hs, List.replicate_zero, List.append_nil] at hbelow
    exact hbelow
  refine ⟨hb.pos.trans hlen, hb.below, ?_, ?_⟩
  · intro plans w'
    obtain ⟨herr, hlike⟩ := flush_retry caps plans w
    have hs := (flush_ok caps w).2.skip
    have hdone := hall (.flush .ok h rfl) hs
    exact ⟨herr, hlike, hlike.skip.trans hs, hlike.below.trans hdone⟩
  · intro plans hplans w'
    obtain ⟨herr, hlike⟩ := close_retry caps plans hplans w
    have hs := (close_ok caps w).2.skip
    have hdone := hall (.close .ok (by rintro _ _ _ ⟨⟩) h rfl) hs
    exact ⟨herr, hlike, hlike.skip.trans hs, hlike.below.trans hdone⟩

/-- Two zeros are accepted, and the seek of `Close` fails. -/
theorem failures_balanced_two_zeros : ∃ w : Writer, Reached ⟨true, none, none⟩ w 2 [0, 0]
    ∧ w.wr.ops = 1 ∧ w.wr.pos + w.skip = 2
    ∧ (w.close .ok ⟨true, none, none⟩).2.wr.below = [0, 0] := by
  have hnone : AcceptsNone (fun _ => some (0, .other 1)) := by
    intro i k e h
    exact (congrArg Prod.fst (Option.some.inj h)).symm
  have hwrite : Writer.new.write .ok ⟨true, none, none⟩ [0, 0] = (2, none, ⟨⟨[], 0, 0⟩, 2⟩) := by
    decide +kernel
  have hclose : Writer.close (fun _ => some (0, .other 1)) ⟨true, none, none⟩ ⟨⟨[], 0, 0⟩, 2⟩
      = (some (.other 1), ⟨⟨[], 0, 1⟩, 2⟩) := by
    decide +kernel
  have hreach : Reached ⟨true, none, none⟩ ⟨⟨[], 0, 1⟩, 2⟩ 2 [0, 0] :=
    .close _ hnone (.write .ok [0, 0] .new hwrite) hclose
  obtain ⟨hsum, -, -, hretry⟩ := failures_balanced rfl hreach
  exact ⟨_, hreach, rfl, hsum, (hretry [] (by rintro _ ⟨⟩)).2.2.2⟩

/-! ## Failing sources -/

/-- `Write` of each of the buffers in turn. -/
def writes (caps : Caps) (w : Writer) (bufs : List Bytes) : Writer :=
  bufs.foldl (fun w b => (w.write .ok caps b).2.2) w

/-- The buffers that a source of `data` fills. -/
def wholeBufs (data : Bytes) : List Bytes :=
  cut readSz (data.take (data.length / readSz * readSz))

theorem flatten_wholeBufs (data : Bytes) :
    (wholeBufs data).flatten = data.take (data.length / readSz * readSz) :=
  flatten_cut (by decide) _

theorem wholeBufs_of_lt {data : Bytes} (h : data.length < readSz) : wholeBufs data = [] := by
  rw [wholeBufs, Nat.div_eq_of_lt h, Nat.zero_mul, List.take_zero, cut_nil]

theorem wholeBufs_of_le {data : Bytes} (h : readSz ≤ data.length) :
    wholeBufs data = data.take readSz :: wholeBufs (data.drop readSz) := by
  have hpos : 0 < readSz := by decide
  have hdiv : data.length / readSz = (data.length - readSz) / readSz + 1 :=
    Nat.div_eq_sub_div hpos h
  have hlen : data.length / readSz * readSz
      = readSz + (data.length - readSz) / readSz * readSz := by
    rw [hdiv, Nat.succ_mul, Nat.add_comm]
  have hne : data.take (data.length / readSz * readSz) ≠ [] := by
    rw [← List.length_pos_iff, List.length_take]
    omega
  rw [wholeBufs, cut_of_ne_nil hpos hne, wholeBufs, List.length_drop, hlen]
  refine congrArg₂ _ ?_ (congrArg _ ?_)
  · rw [List.take_take, Nat.min_eq_left (Nat.le_add_right _ _)]
  · rw [List.drop_take, Nat.add_sub_cancel_left]

/-! ### What has been given to `Write` -/

theorem scanFunc_total (w : Writer) (blk : Bytes) :
    (w.scanFunc .ok blk).2.2.wr.pos + (w.scanFunc .ok blk).2.2.skip
      = w.wr.pos + w.skip + blk.length := by
  have hle := (skipZeros_spec blk).2.1
  rw [Writer.scanFunc]
  by_cases hlt : skipZeros blk < blk.length
  · simp only [if_pos hlt, Writer.skipAhead]
    by_cases hs : w.skip + skipZeros blk > 0
    · simp only [if_pos hs, File.seek, File.write, WrPlan.ok, List.length_drop]
      omega
    · simp only [if_neg hs, File.write, WrPlan.ok, List.length_drop]
      omega
  · simp only [if_neg hlt]
    omega

theorem scanBlks_total (k : ℕ) (w : Writer) (data : Bytes) (n : ℕ)
    (hlen : k * blkSz ≤ data.length) :
    (Writer.scanBlks .ok k w data n).2.2.wr.pos + (Writer.scanBlks .ok k w data n).2.2.skip
      = w.wr.pos + w.skip + k * blkSz := by
  induction k generalizing w data n with
  | zero => rw [Writer.scanBlks, Nat.zero_mul, Nat.add_zero]
  | succ k ih =>
      rw [Nat.succ_mul] at hlen
      have hblk : (data.take blkSz).length = blkSz := by
        rw [List.length_take]
        omega
      have hok := scanFunc_ok w (data.take blkSz)
      have htotal := scanFunc_total w (data.take blkSz)
      rcases hscan : w.scanFunc .ok (data.take blkSz) with ⟨m, err, w₁⟩
      rw [hscan] at hok htotal
      simp only at hok htotal
      subst hok
      rw [hblk] at htotal
      rw [Writer.scanBlks, hscan]
      simp only
      rw [ih w₁ (data.drop blkSz) (n + m) (by rw [List.length_drop]; omega), htotal, Nat.succ_mul]
      omega

/-- A `Write` that does not fail moves position and skip by what it was given. -/
theorem write_total (caps : Caps) (w : Writer) (data : Bytes) :
    (w.write .ok caps data).2.2.wr.pos + (w.write .ok caps data).2.2.skip
      = w.wr.pos + w.skip + data.length := by
  have hmod := Nat.div_add_mod' data.length blkSz
  rw [Writer.write]
  by_cases hseek : caps.seeker = true
  · have hok := scanBlks_ok (data.length / blkSz) w data 0
    have htotal := scanBlks_total (data.length / blkSz) w data 0 (by omega)
    rcases hscan : Writer.scanBlks .ok (data.length / blkSz) w data 0 with ⟨m, err, w₁⟩
    rw [hscan] at hok htotal
    simp only at hok htotal
    subst hok
    simp only [hseek, Bool.not_true, Bool.false_eq_true, if_false, hscan]
    by_cases hrest : data.length % blkSz > 0
    · simp only [if_pos hrest]
      rw [scanFunc_total, htotal, List.length_drop]
      omega
    · simp only [if_neg hrest]
      omega
  · rw [if_pos (by simpa using hseek)]
    simp only [File.write, WrPlan.ok]
    omega

theorem writes_total (caps : Caps) (w : Writer) (bufs : List Bytes) :
    (writes caps w bufs).wr.pos + (writes caps w bufs).skip
      = w.wr.pos + w.skip + bufs.flatten.length := by
  induction bufs generalizing w with
  | nil => rfl
  | cons b bufs ih =>
      have hrest := ih (w.write .ok caps b).2.2
      rw [write_total] at hrest
      rw [List.flatten_cons, List.length_append, ← Nat.add_assoc]
      exact hrest

/-- The books after buffers. -/
theorem Books.writes (h : Books C w) (hseek : caps.seeker = true) (bufs : List Bytes) :
    Books (C ++ bufs.flatten) (writes caps w bufs) := by
  induction bufs generalizing C w with
  | nil =>
      rw [List.flatten_nil, List.append_nil]
      exact h
  | cons b bufs ih =>
      obtain ⟨w', hw, hb, -⟩ := h.write_ok caps hseek b
      have hrest := ih hb
      rw [List.flatten_cons, ← List.append_assoc]
      rw [Sparse.writes, List.foldl_cons, hw]
      exact hrest

/-- `Close` behind a buffer leaves all of the buffers in the file. -/
theorem Books.writes_close (h : Books C w) (hseek : caps.seeker = true) (bufs : List Bytes)
    {b : Bytes} (hne : b ≠ []) :
    ((Sparse.writes caps w (bufs ++ [b])).close .ok caps).2.wr.content
      = C ++ (bufs ++ [b]).flatten := by
  obtain ⟨w', hw, hb, hends, -⟩ := (h.writes hseek bufs).write_ok caps hseek b
  have hstands := Stands.of_ends (hends hne)
  obtain ⟨err, w'', hclose, hcontent⟩ := hb.close caps hstands
  have hlast : Sparse.writes caps w (bufs ++ [b]) = w' := by
    rw [Sparse.writes, List.foldl_append]
    exact congrArg (fun r => r.2.2) hw
  rw [hlast, hclose, List.flatten_append, List.flatten_singleton, ← List.append_assoc]
  apply hcontent.mpr
  split_ifs <;> decide

/-! ### `ReadFrom` -/

/-- `ReadFrom` on a source that fails: every byte is taken and counted, the buffers that were
filled are written, and the error is that of the source. -/
theorem readFrom_gives (caps : Caps) (fuel : ℕ) (w : Writer) (rd : Rd) (heof : rd.err ≠ .eof)
    (hun : rd.err ≠ .unexpectedEOF) (n : ℕ) (hfuel : rd.data.length < fuel) :
    ∃ rd', rd'.data = [] ∧ w.readFrom .ok caps fuel rd n
      = some (n + rd.data.length, some rd.err, writes caps w (wholeBufs rd.data), rd') := by
  induction fuel generalizing w rd n with
  | zero => omega
  | succ k ih =>
      obtain ⟨rd₁, hfull, hdata, herr⟩ := rd.readFull_spec readSz
      by_cases hle : readSz ≤ rd.data.length
      · -- a full buffer is written
        have hlen : (rd.data.take readSz).length = readSz := by
          rw [List.length_take]
          omega
        have hok := write_ok caps w (rd.data.take readSz)
        rcases hw : w.write .ok caps (rd.data.take readSz) with ⟨m, werr, w₁⟩
        rw [hw] at hok
        simp only at hok
        subst hok
        have hpos : 0 < readSz := by decide
        obtain ⟨rd', hnil, hrest⟩ := ih w₁ rd₁ (herr ▸ heof) (herr ▸ hun) (n + readSz) (by
          rw [hdata, List.length_drop]
          omega)
        rw [hdata, herr, List.length_drop] at hrest
        refine ⟨rd', hnil, ?_⟩
        have hcount : n + readSz + (rd.data.length - readSz) = n + rd.data.length := by omega
        have hwrites : writes caps w (wholeBufs rd.data)
            = writes caps w₁ (wholeBufs (rd.data.drop readSz)) := by
          rw [wholeBufs_of_le hle, writes, List.foldl_cons, hw]
          rfl
        rw [hcount] at hrest
        simp only [Writer.readFrom, hfull, Rd.fullErr, if_pos hle, hlen, hw, hrest, hwrites]
      · -- what is left comes with the error, and is not written
        have hlt : rd.data.length < readSz := Nat.lt_of_not_le hle
        have hshort : rd.fullErr readSz = some rd.err := by
          rw [Rd.fullErr, if_neg hle, if_neg fun h => heof h.2]
        refine ⟨rd₁, ?_, ?_⟩
        · rw [hdata, List.drop_of_length_le (Nat.le_of_lt hlt)]
        · rw [wholeBufs_of_lt hlt]
          simp only [Writer.readFrom, hfull, hshort, List.take_of_length_le (Nat.le_of_lt hlt)]
          rfl

/-- **What a failing source brought** is taken, counted, given to `Write` and in the file after
`Close`, with the error of the source returned, exactly if it is a whole number of buffers. -/
theorem readFrom_lossless_iff (caps : Caps) (w : Writer) (rd : Rd) (heof : rd.err ≠ .eof)
    (hun : rd.err ≠ .unexpectedEOF) :
    ∃ N, ∀ fuel ≥ N, ∃ n err w' rd', w.readFrom .ok caps fuel rd 0 = some (n, err, w', rd') ∧
      ((n + rd'.data.length = rd.data.length ∧ err = some rd.err
          ∧ (∃ bufs : List Bytes, bufs.flatten = rd.data.take n ∧ w' = writes caps w bufs)
          ∧ (caps.seeker = true → ∀ C, Books C w → rd.data ≠ [] →
            (w'.close .ok caps).2.wr.content = C ++ rd.data.take n))
        ↔ rd.data.length % readSz = 0) := by
  refine ⟨rd.data.length + 1, ?_⟩
  intro fuel hfuel
  obtain ⟨rd', hnil, hrun⟩ := readFrom_gives caps fuel w rd heof hun 0 hfuel
  rw [Nat.zero_add] at hrun
  refine ⟨_, _, _, _, hrun, ?_⟩
  rw [List.take_length]
  have hmod := Nat.div_add_mod' rd.data.length readSz
  constructor
  · rintro ⟨-, -, ⟨bufs, hbufs, hwrites⟩, -⟩
    -- position and skip tell how much was given
    have htotal := writes_total caps w bufs
    rw [← hwrites, writes_total, hbufs, flatten_wholeBufs, List.length_take] at htotal
    omega
  · intro hzero
    have hall : (wholeBufs rd.data).flatten = rd.data := by
      rw [flatten_wholeBufs, List.take_of_length_le (by omega)]
    refine ⟨by rw [hnil, List.length_nil, Nat.add_zero], rfl, ⟨_, hall, rfl⟩, ?_⟩
    intro hseek C hb hne
    have hbufs : wholeBufs rd.data ≠ [] := by
      intro h
      rw [h, List.flatten_nil] at hall
      exact hne hall.symm
    obtain ⟨bufs, b, hsplit⟩ := (List.eq_nil_or_concat _).resolve_left hbufs
    rw [List.concat_eq_append] at hsplit
    have hb' : b ≠ [] := by
      have hmem : b ∈ wholeBufs rd.data := by
        rw [hsplit]
        exact List.mem_append_right _ (List.mem_singleton.mpr rfl)
      exact (mem_cut (by decide) hmem).1
    rw [hsplit] at hall ⊢
    rw [← hall]
    exact hb.writes_close hseek bufs hb'

/-- A full buffer before the error. -/
theorem readFrom_lossless_iff_buffer : ∃ N, ∀ fuel ≥ N, ∃ n w' rd',
    Writer.new.readFrom .ok ⟨true, none, none⟩ fuel
      ⟨List.replicate readSz 7, [], false, .other 1⟩ 0 = some (n, some (.other 1), w', rd')
    ∧ (w'.close .ok ⟨true, none, none⟩).2.wr.content = List.replicate n 7 := by
  obtain ⟨N, hN⟩ := readFrom_lossless_iff ⟨true, none, none⟩ .new
    ⟨List.replicate readSz 7, [], false, .other 1⟩ (by rintro ⟨⟩) (by rintro ⟨⟩)
  refine ⟨N, ?_⟩
  intro fuel hfuel
  obtain ⟨n, err, w', rd', hrun, hiff⟩ := hN fuel hfuel
  obtain ⟨hcount, rfl, -, hclose⟩ := hiff.mpr (by rw [List.length_replicate]; rfl)
  have hcontent := hclose rfl [] .new (List.ne_nil_of_length_pos (by
    rw [List.length_replicate]
    decide))
  rw [List.length_replicate] at hcount
  rw [List.nil_append, List.take_replicate, Nat.min_eq_left (by omega)] at hcontent
  exact ⟨n, w', rd', hrun, hcontent⟩

/-- A byte before the error: it is counted, and not written. -/
theorem readFrom_loses_byte : ∃ rd', Writer.new.readFrom .ok ⟨true, none, none⟩ 2
      ⟨[7], [], false, .other 1⟩ 0 = some (1, some (.other 1), .new, rd')
    ∧ ¬ ∃ bufs : List Bytes, bufs.flatten = [7] ∧ Writer.new = writes ⟨true, none, none⟩ .new bufs := by
  refine ⟨⟨[], [], false, .other 1⟩, by decide +kernel, ?_⟩
  rintro ⟨bufs, hbufs, hwrites⟩
  have htotal := writes_total ⟨true, none, none⟩ .new bufs
  rw [← hwrites, hbufs] at htotal
  cases htotal

end Plz4.Sparse
