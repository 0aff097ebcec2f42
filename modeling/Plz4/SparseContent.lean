/-
What the sparse writer leaves in the file.

`Books C w` is the invariant: position and pending skip add up to the bytes
accepted so far, and those bytes are the file's content followed by zeros. It
holds after every operation, failing ones included. At `Close` the content is the
accepted bytes exactly when a hole is still pending or the file has been written
up to its position; `tailAfter` follows which of these the calls lead to.
-/
import Plz4.Sparse
import Mathlib.Data.List.GetD

set_option autoImplicit false

namespace Plz4.Sparse

open LittleEndian Cut

/-! ## `skipZeros` -/

/-- Every byte is zero. -/
def AllZero (data : Bytes) : Prop := ∀ b ∈ data, b = 0

instance (data : Bytes) : Decidable (AllZero data) :=
  inferInstanceAs (Decidable (∀ b ∈ data, b = 0))

theorem AllZero.eq_replicate {data : Bytes} (h : AllZero data) :
    data = List.replicate data.length 0 :=
  List.eq_replicate_of_mem h

theorem allZero_append {xs ys : Bytes} : AllZero (xs ++ ys) ↔ AllZero xs ∧ AllZero ys := by
  simp only [AllZero, List.mem_append]
  constructor
  · exact fun h => ⟨fun b hb => h b (.inl hb), fun b hb => h b (.inr hb)⟩
  · rintro ⟨hx, hy⟩ b (hb | hb)
    · exact hx b hb
    · exact hy b hb

theorem foldl_or_eq_zero_iff (f : ℕ → UInt64) (n : ℕ) :
    (List.range n).foldl (fun b j => b ||| f j) 0 = 0 ↔ ∀ j < n, f j = 0 := by
  induction n with
  | zero => simp
  | succ n ih =>
      rw [List.range_succ, List.foldl_append, List.foldl_cons, List.foldl_nil,
        UInt64.or_eq_zero_iff, ih]
      constructor
      · rintro ⟨h, hn⟩ j hj
        rcases Nat.lt_succ_iff_lt_or_eq.mp hj with hj | rfl
        · exact h j hj
        · exact hn
      · exact fun h => ⟨fun j hj => h j (by omega), h n (by omega)⟩

/-- The 32 words or to zero exactly when all 256 bytes are zero. -/
theorem orWords_eq_zero_iff {data : Bytes} (hlen : data.length ≤ 256) :
    orWords data = 0 ↔ AllZero data := by
  rw [orWords, foldl_or_eq_zero_iff]
  simp only [getU64_eq_zero_iff]
  constructor
  · intro h b hb
    obtain ⟨i, hi, rfl⟩ := List.mem_iff_getElem.mp hb
    -- byte `i` is byte `i % 8` of word `i / 8`
    apply h (i / 8) (by omega)
    rw [List.mem_iff_getElem]
    refine ⟨i % 8, by simp only [List.length_take, List.length_drop]; omega, ?_⟩
    simp only [List.getElem_take, List.getElem_drop]
    congr 1
    omega
  · intro h j _ b hb
    exact h b (List.mem_of_mem_drop (List.mem_of_mem_take hb))

/-- The unrolled loop keeps "all zero up to `i`", and returns from inside only on a
non-zero byte ahead. -/
theorem skipWide_spec (k : ℕ) (data : Bytes) (i : ℕ) (hi : i + 256 * k ≤ data.length)
    (hz : AllZero (data.take i)) :
    AllZero (data.take (skipWide k data i).1) ∧ (skipWide k data i).1 ≤ data.length
      ∧ ((skipWide k data i).2 = true → ¬ AllZero (data.drop (skipWide k data i).1)) := by
  induction k generalizing i with
  | zero => exact ⟨hz, by simp only [skipWide]; omega, by simp [skipWide]⟩
  | succ k ih =>
      have hlen : ((data.drop i).take 256).length ≤ 256 := by simp
      rw [skipWide]
      by_cases hor : orWords ((data.drop i).take 256) = 0
      · rw [if_neg (by simpa using hor)]
        apply ih (i + 256) (by omega)
        rw [List.take_add, allZero_append]
        exact ⟨hz, (orWords_eq_zero_iff hlen).mp hor⟩
      · rw [if_pos hor]
        refine ⟨hz, by omega, fun _ hall => hor ?_⟩
        rw [orWords_eq_zero_iff hlen]
        exact fun b hb => hall b (List.mem_of_mem_take hb)

/-- The byte loop stops at the first non-zero byte or after `k` bytes. -/
theorem skipBytes_spec (k : ℕ) (data : Bytes) (i : ℕ) (hi : i + k = data.length)
    (hz : AllZero (data.take i)) :
    AllZero (data.take (skipBytes k data i)) ∧ skipBytes k data i ≤ data.length
      ∧ (skipBytes k data i < data.length → ¬ AllZero (data.drop (skipBytes k data i))) := by
  induction k generalizing i with
  | zero => exact ⟨hz, by simp only [skipBytes]; omega, by simp only [skipBytes]; omega⟩
  | succ k ih =>
      have hlt : i < data.length := by omega
      have hget : data.getD i 0 = data[i] := List.getD_eq_getElem _ _ hlt
      rw [skipBytes]
      by_cases hb : data.getD i 0 = 0
      · rw [if_neg (by simpa using hb)]
        apply ih (i + 1) (by omega)
        rw [List.take_add_one, List.getElem?_eq_getElem hlt, Option.toList_some, allZero_append]
        refine ⟨hz, fun b hmem => ?_⟩
        rw [List.mem_singleton.mp hmem, ← hget, hb]
      · rw [if_pos hb]
        refine ⟨hz, by omega, fun _ hall => hb ?_⟩
        rw [hget]
        exact hall _ (by rw [← List.getElem_cons_drop hlt]; exact List.mem_cons_self)

/-- `skipZeros` counts leading zeros only, and all of a block only if it is all
zero. -/
theorem skipZeros_spec (data : Bytes) :
    AllZero (data.take (skipZeros data)) ∧ skipZeros data ≤ data.length
      ∧ (skipZeros data < data.length ↔ ¬ AllZero data) := by
  have hwide := skipWide_spec (data.length / 256) data 0 (by omega) (by simp [AllZero])
  have hiff : ∀ s, s ≤ data.length → AllZero (data.take s) →
      (s < data.length → ¬ AllZero (data.drop s)) → (s < data.length ↔ ¬ AllZero data) := by
    intro s hs hz hstop
    constructor
    · exact fun hlt hall => hstop hlt (fun b hb => hall b (List.mem_of_mem_drop hb))
    · intro hnot
      by_contra hge
      rw [List.take_of_length_le (by omega)] at hz
      exact hnot hz
  rw [skipZeros]
  rcases hw : skipWide (data.length / 256) data 0 with ⟨i, found⟩
  rw [hw] at hwide
  obtain ⟨hz, hle, hstop⟩ := hwide
  cases found with
  | true =>
      simp only [if_true]
      exact ⟨hz, hle, hiff i hle hz (fun _ => hstop rfl)⟩
  | false =>
      simp only [Bool.false_eq_true, if_false]
      obtain ⟨hz', hle', hstop'⟩ := skipBytes_spec (data.length - i) data i (by omega) hz
      exact ⟨hz', hle', hiff _ hle' hz' hstop'⟩

/-! ## The books

What position, skip and content say about the bytes accepted so far. -/

/-- The bytes accepted are the content followed by zeros, up to the position, and
then the pending zeros. -/
structure Books (C : Bytes) (w : Writer) : Prop where
  pos : w.wr.pos + w.skip = C.length
  len : w.wr.content.length ≤ w.wr.pos
  eq : C = w.wr.content ++ List.replicate (C.length - w.wr.content.length) 0

theorem Books.new : Books [] Writer.new := ⟨rfl, Nat.le_refl _, rfl⟩

/-- Putting bytes at a position at or past the end fills the gap with zeros. -/
theorem File.put_eq {f : File} {p : Bytes} (hp : p ≠ []) (hlen : f.content.length ≤ f.pos) :
    f.put p = f.content ++ List.replicate (f.pos - f.content.length) 0 ++ p := by
  have hbase : (f.content ++ List.replicate (f.pos - f.content.length) 0).length = f.pos := by
    simp only [List.length_append, List.length_replicate]
    omega
  rw [File.put, if_neg hp]
  simp only
  rw [List.take_of_length_le (by omega), List.drop_of_length_le (by omega), List.append_nil]

/-- More pending zeros. -/
theorem Books.add_skip {C : Bytes} {w : Writer} (h : Books C w) (z : Bytes) (hz : AllZero z) :
    Books (C ++ z) { w with skip := w.skip + z.length } := by
  have hlen := h.len
  have hpos := h.pos
  refine ⟨?_, h.len, ?_⟩
  · simp only [List.length_append]
    omega
  · have hsplit : (C ++ z).length - w.wr.content.length
        = (C.length - w.wr.content.length) + z.length := by
      rw [List.length_append]
      omega
    simp only [hsplit, List.replicate_add]
    rw [← List.append_assoc, ← h.eq, ← hz.eq_replicate]

/-- A successful seek over the pending zeros. -/
theorem Books.seek {C : Bytes} {w : Writer} (h : Books C w) (k ops : ℕ) (hk : k ≤ w.skip) :
    Books C ⟨⟨w.wr.content, w.wr.pos + k, ops⟩, w.skip - k⟩ := by
  have hlen := h.len
  have hpos := h.pos
  exact ⟨by simp only; omega, by simp only; omega, h.eq⟩

/-- Bytes accepted with nothing pending land behind what is there. -/
theorem Books.put {C : Bytes} {w : Writer} (h : Books C w) (hs : w.skip = 0) (p : Bytes)
    (ops : ℕ) : Books (C ++ p) ⟨⟨w.wr.put p, w.wr.pos + p.length, ops⟩, 0⟩
      ∧ (p ≠ [] → (w.wr.put p).length = w.wr.pos + p.length) := by
  have hlen := h.len
  have hpos := h.pos
  by_cases hp : p = []
  · subst hp
    refine ⟨⟨by simp only [List.append_nil, List.length_nil]; omega, ?_, ?_⟩, by simp⟩
    · simpa only [File.put, if_pos, List.length_nil, Nat.add_zero] using h.len
    · simpa only [File.put, if_pos, List.append_nil] using h.eq
  · have hput : w.wr.put p = C ++ p := by
      have hC : C.length = w.wr.pos := by omega
      rw [File.put_eq hp h.len, ← hC, ← h.eq]
    refine ⟨⟨?_, ?_, ?_⟩, fun _ => ?_⟩
    · simp only [List.length_append]
      omega
    · simp only [hput, List.length_append]
      omega
    · simp [hput]
    · rw [hput, List.length_append]
      omega

section Faults

variable (plan : WrPlan) (caps : Caps)

/-- What a write to the file keeps, whether or not it fails: the count is what was
put, and a nil error means all of it. -/
theorem Books.write {C : Bytes} {w : Writer} (h : Books C w) (hs : w.skip = 0) (p : Bytes) :
    ∃ m err f, w.wr.write plan p = (m, err, f) ∧ m ≤ p.length ∧ (err = none → m = p.length)
      ∧ Books (C ++ p.take m) ⟨f, 0⟩ ∧ (0 < m → f.content.length = f.pos) := by
  rw [File.write]
  rcases plan w.wr.ops with _ | ⟨k, e⟩
  · obtain ⟨hb, hend⟩ := h.put hs p (w.wr.ops + 1)
    refine ⟨p.length, none, _, rfl, Nat.le_refl _, fun _ => rfl, ?_, fun hm => hend ?_⟩
    · rw [List.take_length]
      exact hb
    · exact List.length_pos_iff.mp hm
  · obtain ⟨hb, hend⟩ := h.put hs (p.take (min k p.length)) (w.wr.ops + 1)
    have hlen : (p.take (min k p.length)).length = min k p.length := by
      rw [List.length_take]
      omega
    rw [hlen] at hb hend
    refine ⟨min k p.length, some e, _, rfl, Nat.min_le_right _ _, by simp, hb, fun hm => ?_⟩
    apply hend
    rw [← List.length_pos_iff, hlen]
    exact hm

/-- Skipping ahead leaves nothing pending, or fails and changes nothing but the
operation count. -/
theorem Books.skipAhead {C : Bytes} {w : Writer} (h : Books C w) :
    ∃ err w', w.skipAhead plan = (err, w') ∧ Books C w' ∧ w'.wr.content = w.wr.content
      ∧ (err = none → w'.skip = 0) ∧ (err ≠ none → w'.skip = w.skip) := by
  by_cases hs : w.skip > 0
  · rcases hplan : plan w.wr.ops with _ | ⟨k, e⟩
    · refine ⟨none, ⟨⟨w.wr.content, w.wr.pos + w.skip, w.wr.ops + 1⟩, 0⟩, ?_, ?_, rfl,
        fun _ => rfl, by simp⟩
      · simp only [Writer.skipAhead, if_pos hs, File.seek, hplan]
      · have hb := h.seek w.skip (w.wr.ops + 1) (Nat.le_refl _)
        rwa [Nat.sub_self] at hb
    · refine ⟨some e, ⟨⟨w.wr.content, w.wr.pos, w.wr.ops + 1⟩, w.skip⟩, ?_,
        ⟨h.pos, h.len, h.eq⟩, rfl, by simp, fun _ => rfl⟩
      simp only [Writer.skipAhead, if_pos hs, File.seek, hplan]
  · exact ⟨none, w, by simp only [Writer.skipAhead, if_neg hs], h, rfl, fun _ => by omega,
      by simp⟩

/-- How the writer stands after a scan block went through: a zero block leaves a
hole pending, any other leaves the file written up to the position. -/
structure Ends (blk : Bytes) (w : Writer) : Prop where
  hole : AllZero blk → 0 < w.skip
  written : ¬ AllZero blk → w.skip = 0 ∧ w.wr.content.length = w.wr.pos

/-- One scan block: the count is a prefix of the block that went into the books,
all of it when the error is nil. -/
theorem Books.scanFunc {C : Bytes} {w : Writer} (h : Books C w) (blk : Bytes) (hne : blk ≠ []) :
    ∃ n err w', w.scanFunc plan blk = (n, err, w') ∧ n ≤ blk.length
      ∧ (err = none → n = blk.length ∧ Ends blk w') ∧ Books (C ++ blk.take n) w' := by
  obtain ⟨hz, hle, hiff⟩ := skipZeros_spec blk
  have htake : (blk.take (skipZeros blk)).length = skipZeros blk := by
    rw [List.length_take]
    omega
  have hskip := h.add_skip _ hz
  rw [htake] at hskip
  rw [Writer.scanFunc]
  by_cases hlt : skipZeros blk < blk.length
  · simp only [if_pos hlt]
    have hnz : ¬ AllZero blk := hiff.mp hlt
    obtain ⟨err₁, w₁, hahead, hb₁, -, hs₁, -⟩ := hskip.skipAhead plan
    rw [hahead]
    rcases err₁ with _ | e
    · obtain ⟨m, err, f, hw, hm, hall, hb, hend⟩ :=
        hb₁.write plan (hs₁ rfl) (blk.drop (skipZeros blk))
      rw [List.length_drop] at hm hall
      refine ⟨skipZeros blk + m, err, ⟨f, 0⟩, by simp only [hw, hs₁ rfl], by omega, fun he => ?_, ?_⟩
      · have hm' := hall he
        exact ⟨by omega, fun hzero => absurd hzero hnz, fun _ => ⟨rfl, hend (by omega)⟩⟩
      · rwa [List.take_add, ← List.append_assoc]
    · exact ⟨skipZeros blk, some e, w₁, rfl, hle, by simp, hb₁⟩
  · have hfull : skipZeros blk = blk.length := by omega
    have hzero : AllZero blk := by
      by_contra hnz
      exact hlt (hiff.mpr hnz)
    have hpos := List.length_pos_iff.mpr hne
    simp only [if_neg hlt]
    exact ⟨skipZeros blk, none, _, rfl, hle,
      fun _ => ⟨hfull, fun _ => by simp only; omega, fun hnz => absurd hzero hnz⟩, hskip⟩

/-- `k` whole scan blocks, by induction on `k`. The last of them decides how the
writer stands. -/
theorem Books.scanBlks (k : ℕ) {C : Bytes} {w : Writer} (h : Books C w) (data : Bytes) (n : ℕ)
    (hlen : k * blkSz ≤ data.length) :
    ∃ m err w', Writer.scanBlks plan k w data n = (n + m, err, w') ∧ m ≤ k * blkSz
      ∧ (err = none → m = k * blkSz
          ∧ (k ≠ 0 → Ends ((data.drop ((k - 1) * blkSz)).take blkSz) w') ∧ (k = 0 → w' = w))
      ∧ Books (C ++ data.take m) w' := by
  induction k generalizing C w data n with
  | zero => exact ⟨0, none, w, by simp [Writer.scanBlks], by omega, by simp, by simpa using h⟩
  | succ k ih =>
      have hblk : (data.take blkSz).length = blkSz := by
        rw [List.length_take]
        rw [Nat.succ_mul] at hlen
        omega
      have hne : data.take blkSz ≠ [] := by
        rw [← List.length_pos_iff, hblk]
        decide
      obtain ⟨m₁, err₁, w₁, hscan, hm₁, hend₁, hb₁⟩ := h.scanFunc plan _ hne
      rw [hblk] at hm₁ hend₁
      rw [Writer.scanBlks, hscan]
      rcases err₁ with _ | e
      · obtain ⟨rfl, hend₁⟩ := hend₁ rfl
        rw [List.take_take, Nat.min_self] at hb₁
        obtain ⟨m, err, w', hloop, hm, hend, hb⟩ := ih hb₁ (data.drop blkSz) (n + blkSz)
          (by rw [List.length_drop]; rw [Nat.succ_mul] at hlen; omega)
        refine ⟨blkSz + m, err, w', by simp only [hloop, Nat.add_assoc], by
          rw [Nat.succ_mul]; omega, fun he => ?_, ?_⟩
        · obtain ⟨hm, hend, hsame⟩ := hend he
          refine ⟨by rw [Nat.succ_mul]; omega, fun _ => ?_, by simp⟩
          -- the last block is this one, or that of the rest
          rcases Nat.eq_zero_or_pos k with rfl | hk
          · rw [hsame rfl]
            simpa using hend₁
          · have hidx : blkSz + (k - 1) * blkSz = (k + 1 - 1) * blkSz := by
              obtain ⟨j, rfl⟩ : ∃ j, k = j + 1 := ⟨k - 1, by omega⟩
              simp only [Nat.add_sub_cancel]
              ring
            have := hend (by omega)
            rwa [List.drop_drop, hidx] at this
        · rwa [List.take_add, ← List.append_assoc]
      · refine ⟨m₁, some e, w₁, rfl, by rw [Nat.succ_mul]; omega, by simp, ?_⟩
        rwa [List.take_take, Nat.min_eq_left (by omega)] at hb₁

/-- The scan block that ends a piece of data: its last 4 KiB or what is left over
behind the whole blocks. -/
def lastBlk (data : Bytes) : Bytes := data.drop ((data.length - 1) / blkSz * blkSz)

theorem lastBlk_of_le {data : Bytes} (h : data.length ≤ blkSz) : lastBlk data = data := by
  have hpos : 0 < blkSz := by decide
  have h0 : (data.length - 1) / blkSz = 0 := Nat.div_eq_of_lt (by omega)
  rw [lastBlk, h0, Nat.zero_mul, List.drop_zero]

theorem lastBlk_of_gt {data : Bytes} (h : blkSz < data.length) :
    lastBlk data = lastBlk (data.drop blkSz) := by
  have hidx : (data.length - 1) / blkSz * blkSz
      = blkSz + (data.length - blkSz - 1) / blkSz * blkSz := by
    simp only [blkSz] at h ⊢
    omega
  rw [lastBlk, lastBlk, List.length_drop, List.drop_drop, hidx]

/-- `Write` on a seekable destination: the count is the prefix of the data that
went into the books. -/
theorem Books.writeData {C : Bytes} {w : Writer} (h : Books C w) (hseek : caps.seeker = true)
    (data : Bytes) :
    ∃ n err w', w.write plan caps data = (n, err, w') ∧ n ≤ data.length
      ∧ (err = none → n = data.length ∧ (data ≠ [] → Ends (lastBlk data) w')
          ∧ (data = [] → w' = w))
      ∧ Books (C ++ data.take n) w' := by
  have hmod := Nat.div_add_mod' data.length blkSz
  obtain ⟨m, err, w₁, hloop, hm, hend, hb⟩ :=
    h.scanBlks plan (data.length / blkSz) data 0 (by omega)
  rw [Nat.zero_add] at hloop
  simp only [Writer.write, hseek, Bool.not_true, Bool.false_eq_true, if_false, hloop]
  rcases err with _ | e
  · obtain ⟨rfl, hend, hsame⟩ := hend rfl
    -- the whole blocks are in the books; what is left is less than one
    by_cases hrest : data.length % blkSz > 0
    · have hlast : data.drop (data.length / blkSz * blkSz) = lastBlk data := by
        have : data.length / blkSz * blkSz = (data.length - 1) / blkSz * blkSz := by
          simp only [blkSz] at hrest ⊢
          omega
        rw [lastBlk, this]
      have hlen : (data.drop (data.length / blkSz * blkSz)).length = data.length % blkSz := by
        rw [List.length_drop]
        omega
      obtain ⟨m₂, err₂, w₂, hscan, hm₂, hend₂, hb₂⟩ := hb.scanFunc plan
        (data.drop (data.length / blkSz * blkSz))
        (by rw [← List.length_pos_iff, hlen]; exact hrest)
      rw [hlen] at hm₂ hend₂
      simp only [if_pos hrest, hscan]
      refine ⟨_, err₂, w₂, rfl, by omega, fun he => ?_, ?_⟩
      · obtain ⟨rfl, hends⟩ := hend₂ he
        rw [hlast] at hends
        refine ⟨by omega, fun _ => hends, fun hnil => ?_⟩
        subst hnil
        simp at hrest
      · rwa [List.take_add, ← List.append_assoc]
    · simp only [if_neg hrest]
      refine ⟨_, none, w₁, rfl, by omega, fun _ => ⟨by omega, fun hne => ?_, fun hnil => ?_⟩, hb⟩
      · have hpos := List.length_pos_iff.mpr hne
        have hidx : (data.length / blkSz - 1) * blkSz = (data.length - 1) / blkSz * blkSz := by
          simp only [blkSz] at hrest ⊢
          omega
        have hends := hend (by simp only [blkSz] at hrest ⊢; omega)
        rw [List.take_of_length_le (by
          rw [List.length_drop]; simp only [blkSz] at hrest ⊢; omega), hidx] at hends
        exact hends
      · subst hnil
        exact hsame rfl
  · exact ⟨m, some e, w₁, rfl, by omega, by simp, hb⟩

end Faults

/-! ## Runs in which no operation fails -/

section Ok

variable (caps : Caps)

theorem skipAhead_ok (w : Writer) : (w.skipAhead .ok).1 = none := by
  simp only [Writer.skipAhead, File.seek, WrPlan.ok]
  split_ifs <;> rfl

theorem scanFunc_ok (w : Writer) (blk : Bytes) : (w.scanFunc .ok blk).2.1 = none := by
  simp only [Writer.scanFunc]
  split_ifs
  · have hahead := skipAhead_ok { w with skip := w.skip + skipZeros blk }
    rcases hw : ({ w with skip := w.skip + skipZeros blk } : Writer).skipAhead .ok with ⟨err, w₁⟩
    rw [hw] at hahead
    simp only at hahead
    subst hahead
    rfl
  · rfl

theorem scanBlks_ok (k : ℕ) (w : Writer) (data : Bytes) (n : ℕ) :
    (Writer.scanBlks .ok k w data n).2.1 = none := by
  induction k generalizing w data n with
  | zero => rfl
  | succ k ih =>
      have hscan := scanFunc_ok w (data.take blkSz)
      rcases hw : w.scanFunc .ok (data.take blkSz) with ⟨m, err, w₁⟩
      rw [hw] at hscan
      simp only at hscan
      subst hscan
      simp only [Writer.scanBlks, hw]
      exact ih _ _ _

theorem write_ok (w : Writer) (data : Bytes) : (w.write .ok caps data).2.1 = none := by
  by_cases hseek : caps.seeker = true
  · have hscan := scanBlks_ok (data.length / blkSz) w data 0
    rcases hw : Writer.scanBlks .ok (data.length / blkSz) w data 0 with ⟨m, err, w₁⟩
    rw [hw] at hscan
    simp only at hscan
    subst hscan
    simp only [Writer.write, hseek, Bool.not_true, Bool.false_eq_true, if_false, hw]
    by_cases hrest : data.length % blkSz > 0
    · simp only [if_pos hrest]
      exact scanFunc_ok w₁ _
    · simp only [if_neg hrest]
  · simp only [Writer.write, hseek, Bool.not_false, if_true]
    rfl

/-- `Write` puts all of its data into the books. -/
theorem Books.write_ok {C : Bytes} {w : Writer} (h : Books C w) (hseek : caps.seeker = true)
    (data : Bytes) :
    ∃ w', w.write .ok caps data = (data.length, none, w') ∧ Books (C ++ data) w'
      ∧ (data ≠ [] → Ends (lastBlk data) w') ∧ (data = [] → w' = w) := by
  obtain ⟨n, err, w', hw, -, hend, hb⟩ := h.writeData .ok caps hseek data
  have herr := Sparse.write_ok caps w data
  rw [hw] at herr
  simp only at herr
  subst herr
  obtain ⟨rfl, hends, hsame⟩ := hend rfl
  rw [List.take_length] at hb
  exact ⟨w', hw, hb, hends, hsame⟩

/-- The number of passes `ReadFrom` makes on `n` bytes, the one that sees `io.EOF`
included. -/
def passes (n : ℕ) : ℕ := (n + (readSz - 1)) / readSz + 1

/-- `ReadFrom` returns on a source that does not repeat `io.ErrUnexpectedEOF`. A pass
that goes on has brought at least one byte. -/
theorem readFrom_isSome (plan : WrPlan) (fuel : ℕ) (w : Writer) (rd : Rd)
    (hrd : rd.err ≠ .unexpectedEOF) (n : ℕ) (hfuel : rd.data.length < fuel) :
    (w.readFrom plan caps fuel rd n).isSome = true := by
  induction fuel generalizing w rd n with
  | zero => omega
  | succ k ih =>
      rcases hfull : rd.readFull readSz with ⟨buf, rerr, rd₁⟩
      have hgo : rd₁.err = rd.err → rd₁.data.length < rd.data.length → ∀ w₁ n₁,
          (Writer.readFrom plan caps k w₁ rd₁ n₁).isSome = true := by
        intro herr hlt w₁ n₁
        exact ih w₁ rd₁ (herr ▸ hrd) n₁ (by omega)
      simp only [Writer.readFrom, hfull]
      rcases rerr with _ | e
      · obtain ⟨-, hle, hdata, herr⟩ := Rd.readFull_none hfull
        have hlt : rd₁.data.length < rd.data.length := by
          rw [hdata, List.length_drop]
          simp only [readSz] at hle ⊢
          omega
        rcases w.write plan caps buf with ⟨m, _ | e, w₁⟩
        · exact hgo herr hlt _ _
        · rfl
      · obtain ⟨-, -, hdata, herr, hcase⟩ := Rd.readFull_some hfull
        rcases hcase with ⟨hne, -, rfl⟩ | ⟨-, rfl⟩
        · have hlt : rd₁.data.length < rd.data.length := by
            rw [hdata]
            exact List.length_pos_iff.mpr hne
          rcases w.write plan caps buf with ⟨m, _ | e, w₁⟩
          · exact hgo herr hlt _ _
          · rfl
        · split
          · rfl
          · rename_i h
            cases h
          · rename_i h
            -- an empty read with `io.ErrUnexpectedEOF` would go on for ever
            exact absurd (Option.some.inj h) hrd
          · rfl

/-- On one that does it goes on, as long as no write fails. -/
theorem readFrom_eq_none (fuel : ℕ) (w : Writer) (rd : Rd) (hrd : rd.err = .unexpectedEOF)
    (n : ℕ) : w.readFrom .ok caps fuel rd n = none := by
  induction fuel generalizing w rd n with
  | zero => rfl
  | succ k ih =>
      rcases hfull : rd.readFull readSz with ⟨buf, rerr, rd₁⟩
      have hok := write_ok caps w buf
      rcases hw : w.write .ok caps buf with ⟨m, werr, w₁⟩
      rw [hw] at hok
      simp only at hok
      subst hok
      have hgo : rd₁.err = rd.err →
          Writer.readFrom .ok caps k w₁ rd₁ (n + buf.length) = none :=
        fun herr => ih w₁ rd₁ (herr.trans hrd) _
      simp only [Writer.readFrom, hfull]
      rcases rerr with _ | e
      · simp only [hw]
        exact hgo (Rd.readFull_none hfull).2.2.2
      · obtain ⟨-, -, -, herr, hcase⟩ := Rd.readFull_some hfull
        have he : e = .unexpectedEOF := by
          rcases hcase with ⟨-, -, he⟩ | ⟨-, he⟩
          · exact he
          · rw [he, hrd]
        subst he
        simp only [hw]
        exact hgo herr

/-- `ReadFrom` on a source that ends in `io.EOF` returns, and puts all of its bytes
into the books. The induction is on the passes; each takes one buffer. -/
theorem Books.readFrom_ok (fuel : ℕ) {C : Bytes} {w : Writer} (h : Books C w)
    (hseek : caps.seeker = true) (rd : Rd) (heof : rd.err = .eof) (n : ℕ)
    (hfuel : passes rd.data.length ≤ fuel) :
    ∃ w' rd', w.readFrom .ok caps fuel rd n = some (n + rd.data.length, none, w', rd')
      ∧ Books (C ++ rd.data) w' ∧ (rd.data ≠ [] → Ends (lastBlk rd.data) w')
      ∧ (rd.data = [] → w' = w) := by
  induction fuel generalizing C w rd n with
  | zero => simp [passes] at hfuel
  | succ k ih =>
      obtain ⟨rd₁, hfull, hdata, herr⟩ := rd.readFull_spec readSz
      by_cases hnil : rd.data = []
      · -- nothing is left: the read gives `io.EOF`, and the loop ends
        refine ⟨w, rd₁, ?_, by rwa [hnil, List.append_nil], fun hne => absurd hnil hne,
          fun _ => rfl⟩
        have hshort : ¬ readSz ≤ rd.data.length := by
          rw [hnil]
          decide
        simp only [Writer.readFrom, hfull, Rd.fullErr, if_neg hshort]
        simp [hnil, heof]
      · -- the buffer is written, and the loop goes on with the rest
        have hpos := List.length_pos_iff.mpr hnil
        have hbuf : rd.data.take readSz ≠ [] := by
          rw [← List.length_pos_iff, List.length_take]
          simp only [readSz]
          omega
        have hbuflen : (rd.data.take readSz).length ≤ blkSz := by
          rw [List.length_take]
          simp only [readSz, blkSz]
          omega
        obtain ⟨w₁, hw₁, hb₁, hends₁, -⟩ := h.write_ok caps hseek (rd.data.take readSz)
        rw [lastBlk_of_le hbuflen] at hends₁
        have hpasses : passes rd₁.data.length ≤ k := by
          rw [hdata, List.length_drop]
          simp only [passes, readSz] at hfuel ⊢
          omega
        obtain ⟨w', rd', hloop, hb, hends, hsame⟩ :=
          ih hb₁ rd₁ (herr.trans heof) (n + (rd.data.take readSz).length) hpasses
        rw [hdata] at hloop hb hends hsame
        rw [List.append_assoc, List.take_append_drop] at hb
        refine ⟨w', rd', ?_, hb, fun _ => ?_, fun hnil' => absurd hnil' hnil⟩
        · have hcount : n + (rd.data.take readSz).length + (rd.data.drop readSz).length
              = n + rd.data.length := by
            rw [Nat.add_assoc, ← List.length_append, List.take_append_drop]
          rw [hcount] at hloop
          by_cases hshort : readSz ≤ rd.data.length
          · simp only [Writer.readFrom, hfull, Rd.fullErr, if_pos hshort, hw₁, hloop]
          · have herr' : rd.fullErr readSz = some .unexpectedEOF := by
              rw [Rd.fullErr, if_neg hshort, if_pos ⟨hnil, heof⟩]
            simp only [Writer.readFrom, hfull, herr', hw₁, hloop]
        · -- the last block is that of the last buffer with bytes in it
          by_cases hrest : rd.data.drop readSz = []
          · rw [hsame hrest]
            have hle : rd.data.length ≤ readSz := List.drop_eq_nil_iff.mp hrest
            rw [List.take_of_length_le hle] at hends₁
            rw [lastBlk_of_le hle]
            exact hends₁ hnil
          · have hgt : blkSz < rd.data.length := by
              by_contra hle
              exact hrest (List.drop_of_length_le (Nat.le_of_not_lt hle))
            rw [lastBlk_of_gt hgt]
            exact hends hrest

/-! ## Where the calls lead -/

/-- How the accepted bytes end: written to the file, a pending hole, or a hole that
`Flush` has seeked over with nothing written behind it. -/
inductive Tail
  | written | hole | flushed
  deriving DecidableEq, Repr

/-- What a call makes of the end. -/
def tailAfter (t : Tail) (c : Call) : Tail :=
  if c = .flush then (if t = .hole then .flushed else t)
  else if c.data = [] then t
  else if AllZero (lastBlk c.data) then .hole else .written

/-- The writer stands as `t` says. -/
structure Stands (t : Tail) (w : Writer) : Prop where
  written : t = .written → w.skip = 0 ∧ w.wr.content.length = w.wr.pos
  hole : t = .hole → 0 < w.skip
  flushed : t = .flushed → w.skip = 0 ∧ w.wr.content.length < w.wr.pos

theorem Stands.of_ends {data : Bytes} {w : Writer} (h : Ends data w) :
    Stands (if AllZero data then .hole else .written) w := by
  by_cases hz : AllZero data
  · rw [if_pos hz]
    exact ⟨by simp, fun _ => h.hole hz, by simp⟩
  · rw [if_neg hz]
    exact ⟨fun _ => h.written hz, by simp, by simp⟩

/-- A call that brings data. -/
theorem Stands.of_data {c : Call} {t : Tail} {w w' : Writer} (h : Stands t w) (hc : c ≠ .flush)
    (hends : c.data ≠ [] → Ends (lastBlk c.data) w') (hsame : c.data = [] → w' = w) :
    Stands (tailAfter t c) w' := by
  rw [tailAfter, if_neg hc]
  by_cases hnil : c.data = []
  · rw [if_pos hnil, hsame hnil]
    exact h
  · rw [if_neg hnil]
    exact .of_ends (hends hnil)

/-- A source that ends in `io.EOF`, if the call reads from one. -/
def Call.EndsEof : Call → Prop
  | .readFrom rd => rd.err = .eof
  | _ => True

/-- One call: it returns no error of the writer's own, its bytes are in the books,
and the writer stands as `tailAfter` says. -/
theorem Books.call {fuel : ℕ} {C : Bytes} {w : Writer} {t : Tail} (h : Books C w)
    (ht : Stands t w) (hseek : caps.seeker = true) (c : Call) (heof : c.EndsEof)
    (hfuel : c.data.length < fuel) :
    ∃ err w', w.call .ok caps fuel c = some (err, w') ∧ Books (C ++ c.data) w'
      ∧ Stands (tailAfter t c) w' := by
  cases c with
  | write data =>
      obtain ⟨w', hw, hb, hends, hsame⟩ := h.write_ok caps hseek data
      exact ⟨none, w', by simp only [Writer.call, hw], hb, ht.of_data (by simp) hends hsame⟩
  | readFrom rd =>
      have hpasses : passes rd.data.length ≤ fuel := by
        simp only [Call.data] at hfuel
        simp only [passes, readSz]
        omega
      obtain ⟨w', rd', hr, hb, hends, hsame⟩ := h.readFrom_ok caps fuel hseek rd heof 0 hpasses
      exact ⟨none, w', by simp only [Writer.call, hr, Option.map_some], hb,
        ht.of_data (by simp) hends hsame⟩
  | flush =>
      obtain ⟨err, w', hahead, hb, hcontent, hzero, -⟩ := h.skipAhead .ok
      have herr := skipAhead_ok w
      rw [hahead] at herr
      simp only at herr
      subst herr
      refine ⟨caps.flush, w', by simp only [Writer.call, Writer.flush, hahead],
        by rwa [Call.data, List.append_nil], ?_⟩
      -- a flush makes a pending hole a place to write at, not content
      have hs := hzero rfl
      have hpos := h.pos
      have hpos' := hb.pos
      have hlen := h.len
      rw [tailAfter, if_pos rfl]
      rcases t with _ | _ | _
      · have := ht.written rfl
        exact ⟨fun _ => ⟨hs, by rw [hcontent]; omega⟩, by simp, by simp⟩
      · have := ht.hole rfl
        exact ⟨by simp, by simp, fun _ => ⟨hs, by rw [hcontent]; omega⟩⟩
      · have := ht.flushed rfl
        exact ⟨by simp, by simp, fun _ => ⟨hs, by rw [hcontent]; omega⟩⟩

/-- `Close` leaves the accepted bytes in the file, but for a hole that `Flush` has
already seeked over. -/
theorem Books.close {C : Bytes} {w : Writer} {t : Tail} (h : Books C w) (ht : Stands t w) :
    ∃ err w', w.close .ok caps = (err, w') ∧ (w'.wr.content = C ↔ t ≠ .flushed) := by
  have hlen := h.len
  have hpos := h.pos
  have hcontent : w.skip = 0 → (w.wr.content = C ↔ w.wr.content.length = w.wr.pos) := by
    intro hs
    constructor
    · intro heq
      rw [heq]
      omega
    · intro heq
      have hC : C.length - w.wr.content.length = 0 := by omega
      have := h.eq
      rw [hC] at this
      simpa using this.symm
  by_cases hs : w.skip > 0
  · -- the last zero of the hole is written, wherever the seek before it went
    have htne : t ≠ .flushed := fun hf => by
      have := ht.flushed hf
      omega
    have htail : ∀ w₁ : Writer, w₁.wr.content = w.wr.content →
        w₁.wr.pos = C.length - 1 →
        ∃ err w', w₁.closeTail .ok caps = (err, w') ∧ w'.wr.content = C := by
      intro w₁ hc hp
      refine ⟨caps.close, _, rfl, ?_⟩
      simp only
      have hle : w₁.wr.content.length ≤ w₁.wr.pos := by
        rw [hc, hp]
        omega
      have hsplit : C.length - w.wr.content.length
          = (C.length - 1 - w.wr.content.length) + 1 := by omega
      rw [File.put_eq (by simp) hle, hc, hp]
      conv_rhs => rw [h.eq, hsplit, List.replicate_add, ← List.append_assoc]
      rfl
    rw [Writer.close, if_pos hs]
    by_cases hone : w.skip > 1
    · rw [if_pos hone]
      obtain ⟨err, w', heq, hC⟩ := htail
        ⟨⟨w.wr.content, w.wr.pos + (w.skip - 1), w.wr.ops + 1⟩, 1⟩ rfl (by simp only; omega)
      exact ⟨err, w', by simpa only [File.seek, WrPlan.ok] using heq, by simp [hC, htne]⟩
    · rw [if_neg hone]
      obtain ⟨err, w', heq, hC⟩ := htail w rfl (by omega)
      exact ⟨err, w', heq, by simp [hC, htne]⟩
  · -- no zero pending: `Close` writes nothing, and a hole at the end is lost
    have hs0 : w.skip = 0 := by omega
    refine ⟨caps.close, w, by rw [Writer.close, if_neg hs], (hcontent hs0).trans ?_⟩
    rcases t with _ | _ | _
    · simp [(ht.written rfl).2]
    · have := ht.hole rfl
      omega
    · have := (ht.flushed rfl).2
      simp only [ne_eq, not_true, iff_false]
      omega

/-- The whole sequence, by induction on the calls. -/
theorem Books.runCalls {fuel : ℕ} (calls : List Call) {C : Bytes} {w : Writer} {t : Tail}
    (h : Books C w) (ht : Stands t w) (hseek : caps.seeker = true)
    (heof : ∀ c ∈ calls, c.EndsEof) (hfuel : ∀ c ∈ calls, c.data.length < fuel) :
    ∃ err w', w.runCalls .ok caps fuel calls = some (err, w')
      ∧ (w'.wr.content = C ++ calls.flatMap Call.data ↔ calls.foldl tailAfter t ≠ .flushed) := by
  induction calls generalizing C w t with
  | nil =>
      obtain ⟨err, w', hclose, hiff⟩ := h.close caps ht
      exact ⟨err, w', by simp only [Writer.runCalls, hclose], by simpa using hiff⟩
  | cons c cs ih =>
      obtain ⟨err₁, w₁, hcall, hb₁, ht₁⟩ := h.call caps ht hseek c
        (heof c List.mem_cons_self) (hfuel c List.mem_cons_self)
      obtain ⟨err, w', hrun, hiff⟩ := ih hb₁ ht₁
        (fun d hd => heof d (List.mem_cons_of_mem c hd))
        (fun d hd => hfuel d (List.mem_cons_of_mem c hd))
      refine ⟨err, w', by simp only [Writer.runCalls, hcall, Option.bind_some, hrun], ?_⟩
      rwa [List.flatMap_cons, ← List.append_assoc, List.foldl_cons]

/-- **What the file holds at the end.** On an empty seekable file whose operations
do not fail, every sequence of calls ending in `Close` returns, and the file is
the bytes of the calls exactly when they do not end in a hole that a `Flush` has
seeked over: the last non-empty data ends in an all-zero scan block and a `Flush`
comes after it. -/
theorem runCalls_content_iff (hseek : caps.seeker = true) (calls : List Call)
    (heof : ∀ c ∈ calls, c.EndsEof) :
    ∃ N, ∀ fuel ≥ N, ∃ err w', Writer.new.runCalls .ok caps fuel calls = some (err, w')
      ∧ (w'.wr.content = calls.flatMap Call.data
          ↔ calls.foldl tailAfter .written ≠ .flushed) := by
  refine ⟨(calls.flatMap Call.data).length + 1, fun fuel hfuel => ?_⟩
  have hle : ∀ c ∈ calls, c.data.length < fuel := by
    intro c hc
    have hsub : c.data.Sublist (calls.flatMap Call.data) :=
      List.sublist_flatten_of_mem (List.mem_map_of_mem hc)
    have := hsub.length_le
    omega
  have hstands : Stands .written Writer.new := ⟨fun _ => ⟨rfl, rfl⟩, by simp, by simp⟩
  obtain ⟨err, w', hrun, hiff⟩ := Books.new.runCalls caps calls hstands hseek heof hle
  exact ⟨err, w', hrun, by rwa [List.nil_append] at hiff⟩

/-- A run of zeros, a `Flush` over it and `Close`: the file stays empty. -/
theorem flush_loses_zeros :
    ¬ ∀ (caps : Caps), caps.seeker = true → ∀ calls : List Call, (∀ c ∈ calls, c.EndsEof) →
      ∃ N, ∀ fuel ≥ N, ∃ err w', Writer.new.runCalls .ok caps fuel calls = some (err, w')
        ∧ w'.wr.content = calls.flatMap Call.data := by
  intro h
  obtain ⟨N, hN⟩ := h ⟨true, none, none⟩ rfl [.write [0, 0], .flush] (by
    intro c hc
    fin_cases hc <;> trivial)
  obtain ⟨err, w', hrun, hcontent⟩ := hN N (Nat.le_refl N)
  have hval : Writer.new.runCalls .ok ⟨true, none, none⟩ N [.write [0, 0], .flush]
      = some (none, ⟨⟨[], 2, 1⟩, 0⟩) := rfl
  rw [hval, Option.some.injEq, Prod.mk.injEq] at hrun
  rw [← hrun.2] at hcontent
  exact absurd hcontent (by decide)

/-- The same zeros with the `Flush` before them are all there. -/
theorem runCalls_content_iff_two_zeros :
    ∃ N, ∀ fuel ≥ N, ∃ err w',
      Writer.new.runCalls .ok ⟨true, none, none⟩ fuel [.flush, .write [0, 0]] = some (err, w')
        ∧ w'.wr.content = [0, 0] := by
  have heof : ∀ c ∈ [Call.flush, .write [0, 0]], c.EndsEof := by
    intro c hc
    fin_cases hc <;> trivial
  obtain ⟨N, hN⟩ := runCalls_content_iff ⟨true, none, none⟩ rfl _ heof
  refine ⟨N, fun fuel hfuel => ?_⟩
  obtain ⟨err, w', hrun, hiff⟩ := hN fuel hfuel
  exact ⟨err, w', hrun, hiff.mpr (by decide +kernel)⟩

end Ok

end Plz4.Sparse
