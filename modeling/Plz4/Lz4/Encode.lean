/-
How the compressor writes: length fields, tokens, literals and match lengths.

The output grows from the front, and what it begins with is always the bytes of the
sequences that are finished, followed by the part of the next one that has been written.
The copy of the literals and the four bytes of 255 run ahead of the output pointer, and
the match length is added to a token that is already there.
-/
import Plz4.Lz4.Block
import Plz4.Lz4.Compress

set_option autoImplicit false

namespace Plz4.Lz4

open Mem

/-! ## What an encoding costs -/

theorem length_lengthBytes (n : ℕ) : (lengthBytes n).length = (n + 240) / 255 := by
  rw [lengthBytes]
  split_ifs with h
  · rw [List.length_nil]
    omega
  · rw [length_lengthField]
    omega

theorem length_sequence_bytes (s : Sequence) :
    s.bytes.length = 3 + (s.lits.length + 240) / 255 + s.lits.length
      + (s.length - minMatch + 240) / 255 := by
  rw [Sequence.bytes, List.length_cons, List.length_append, List.length_append, List.length_append,
    length_lengthBytes, length_lengthBytes, LittleEndian.length_put]
  omega

/-- A sequence costs no more than one byte in 255 above what it stands for. -/
theorem cost_sequence {s : Sequence} (h : minMatch ≤ s.length) :
    255 * s.bytes.length ≤ 256 * (s.lits.length + s.length) := by
  have h4 : minMatch = 4 := rfl
  rw [length_sequence_bytes]
  omega

/-! ## Length fields -/

variable {N : ℕ} {w mem : Bytes}

theorem putLength_spec (h : Filled N w mem) {op : ℤ} {len k : ℕ} (hop : op = w.length)
    (hk : len < k) (hfit : w.length + (lengthField len).length ≤ N) :
    ∃ mem', putLength k mem op len = some (mem', op + (lengthField len).length)
      ∧ Filled N (w ++ lengthField len) mem' := by
  induction k generalizing w mem op len with
  | zero => omega
  | succ k ih =>
      rw [putLength]
      by_cases hbig : len ≥ 255
      · obtain ⟨n, rfl⟩ : ∃ n, len = n + 255 := ⟨len - 255, by omega⟩
        rw [lengthField_add, List.length_cons] at hfit
        obtain ⟨m₁, hm₁, h₁⟩ := h.store [(255 : UInt8)] hop (by rw [List.length_singleton]; omega)
        have hlen : (w ++ [(255 : UInt8)]).length = w.length + 1 := List.length_append
        obtain ⟨m₂, hm₂, h₂⟩ := ih h₁
          (show op + 1 = ((w ++ [(255 : UInt8)]).length : ℤ) by omega) (show n < k by omega) (by omega)
        refine ⟨m₂, ?_, ?_⟩
        · rw [if_pos hbig, hm₁, Option.bind_eq_bind, Option.bind_some, Nat.add_sub_cancel, hm₂,
            lengthField_add, List.length_cons, Option.some_inj, Prod.mk.injEq]
          exact ⟨rfl, by omega⟩
        · rw [lengthField_add, List.append_cons]
          exact h₂
      · rw [lengthField_of_lt (by omega)] at hfit ⊢
        obtain ⟨m₁, hm₁, h₁⟩ := h.store [UInt8.ofNat len] hop hfit
        refine ⟨m₁, ?_, h₁⟩
        rw [if_neg hbig, hm₁]
        rfl

/-- A token and its literal length. -/
theorem putLitLength_spec (h : Filled N w mem) {token op : ℤ} {n : ℕ} (htoken : token = w.length)
    (hop : op = w.length + 1) (hfit : w.length + 1 + (lengthBytes n).length ≤ N) :
    ∃ mem', putLitLength mem token op n = some (mem', op + (lengthBytes n).length)
      ∧ Filled N (w ++ tokenOf n 0 :: lengthBytes n) mem' := by
  have h15 : runMask = 15 := rfl
  rw [putLitLength]
  by_cases hbig : n ≥ runMask
  · have htok : UInt8.ofNat (runMask * 16) = tokenOf n 0 := by
      rw [tokenOf, Nat.min_eq_right (by omega), Nat.zero_min, h15]
    have hfield : lengthBytes n = lengthField (n - runMask) := by
      rw [lengthBytes, if_neg (by omega), h15]
    obtain ⟨m₁, hm₁, h₁⟩ := h.store [tokenOf n 0] htoken (by rw [List.length_singleton]; omega)
    have hlen : (w ++ [tokenOf n 0]).length = w.length + 1 := List.length_append
    rw [hfield] at hfit ⊢
    obtain ⟨m₂, hm₂, h₂⟩ := putLength_spec h₁
      (show op = ((w ++ [tokenOf n 0]).length : ℤ) by omega) (show n - runMask < n + 1 by omega)
      (by omega)
    refine ⟨m₂, ?_, ?_⟩
    · rw [if_pos hbig, htok, hm₁, Option.bind_eq_bind, Option.bind_some, hm₂]
    · rw [List.append_cons]
      exact h₂
  · have htok : UInt8.ofNat (n * 16) = tokenOf n 0 := by
      rw [tokenOf, Nat.min_eq_left (by omega), Nat.zero_min, Nat.add_zero]
    have hnil : lengthBytes n = [] := by rw [lengthBytes, if_pos (by omega)]
    rw [hnil, List.length_nil] at hfit
    obtain ⟨m₁, hm₁, h₁⟩ := h.store [tokenOf n 0] htoken (by rw [List.length_singleton]; omega)
    refine ⟨m₁, ?_, ?_⟩
    · rw [if_neg hbig, htok, hm₁, hnil, List.length_nil, Nat.cast_zero, add_zero]
      rfl
    · rw [hnil]
      exact h₁

/-! ## Literals -/

/-- The literals, whose copy runs up to seven bytes ahead. -/
theorem putLiterals_spec (h : Filled N w mem) {cur : Bytes} {op anchor : ℤ} {i n : ℕ}
    (hop : op = w.length) (hanchor : anchor = i) (hfirst : w.length + 8 ≤ N)
    (hfit : w.length + n + 7 ≤ N) (hcur : i + n + 8 ≤ cur.length) :
    ∃ mem', wildCopy8From cur mem op anchor (op + n) = some mem'
      ∧ Filled N (w ++ (cur.drop i).take n) mem' := by
  have hlen := h.len
  obtain ⟨m₁, j, hm₁, h₁, hj, -⟩ := h.wildCopyFrom (chunkFrom_copyFrom cur N 8) (d := op) (s := anchor)
    (e := op + n) (i := i) (k := mem.length + 1) hop hanchor (by omega) (by omega) (by omega) (by omega)
    (by omega) (by omega) (by omega)
  refine ⟨m₁, hm₁, h₁.mono ((List.prefix_append_right_inj w).mpr ?_)⟩
  rw [← Nat.min_eq_left (show n ≤ j by omega), ← List.take_take]
  exact List.take_prefix _ _

/-! ## Match lengths -/

/-- Four bytes of 255 a time, and always four ahead. -/
theorem putMatchLoop_spec {op : ℤ} {code k : ℕ}
    (h : Filled N (w ++ List.replicate 4 255) mem) (hop : op = w.length) (hk : code < k)
    (hfit : w.length + code / 255 + 4 ≤ N) :
    ∃ mem', putMatchLoop k mem op code = some (mem', op + (4 * (code / 1020) : ℕ), code % 1020)
      ∧ Filled N (w ++ List.replicate (4 * (code / 1020)) 255 ++ List.replicate 4 255) mem' := by
  induction k generalizing w mem op code with
  | zero => omega
  | succ k ih =>
      rw [putMatchLoop]
      by_cases hbig : code ≥ 4 * 255
      · obtain ⟨n, rfl⟩ : ∃ n, code = n + 1020 := ⟨code - 1020, by omega⟩
        have hlen : (w ++ List.replicate 4 (255 : UInt8)).length = w.length + 4 := by
          rw [List.length_append, List.length_replicate]
        obtain ⟨m₁, hm₁, h₁⟩ := h.store (d := op + 4) (List.replicate 4 (255 : UInt8)) (by omega)
          (by rw [List.length_replicate]; omega)
        obtain ⟨m₂, hm₂, h₂⟩ := ih h₁
          (show op + 4 = ((w ++ List.replicate 4 (255 : UInt8)).length : ℤ) by omega)
          (show n < k by omega) (by omega)
        have hdiv : (n + 1020) / 1020 = n / 1020 + 1 := by omega
        refine ⟨m₂, ?_, ?_⟩
        · have hfour : ([255, 255, 255, 255] : Bytes) = List.replicate 4 255 := rfl
          rw [if_pos hbig, hfour, hm₁, Option.bind_eq_bind, Option.bind_some,
            show n + 1020 - 4 * 255 = n by omega, hm₂, Option.some_inj, Prod.mk.injEq, Prod.mk.injEq]
          exact ⟨rfl, by omega, by omega⟩
        · rw [hdiv, show 4 * (n / 1020 + 1) = 4 + 4 * (n / 1020) by omega, List.replicate_add,
            ← List.append_assoc w]
          exact h₂
      · have hzero : code / 1020 = 0 := by omega
        rw [if_neg hbig, hzero]
        refine ⟨mem, ?_, ?_⟩
        · rw [Option.some_inj, Prod.mk.injEq, Prod.mk.injEq]
          exact ⟨rfl, by omega, by omega⟩
        · rw [Nat.mul_zero, List.replicate_zero, List.append_nil]
          exact h

/-- The match length goes into the token, and behind what has been written since. -/
theorem putMatchLength_spec {mid : Bytes} {n code : ℕ} {token op : ℤ}
    (h : Filled N (w ++ tokenOf n 0 :: mid) mem) (htoken : token = w.length)
    (hop : op = w.length + 1 + mid.length)
    (hfit : w.length + 1 + mid.length + (lengthBytes code).length + 4 ≤ N) :
    ∃ mem', putMatchLength mem token op code = some (mem', op + (lengthBytes code).length)
      ∧ Filled N (w ++ tokenOf n code :: (mid ++ lengthBytes code)) mem' := by
  have h15 : mlMask = 15 := rfl
  have hlenB := length_lengthBytes code
  have hread : readByte mem token = some (tokenOf n 0) := by
    rw [readByte, h.load (i := w.length) htoken (by rw [List.length_append, List.length_cons]; omega),
      List.drop_left]
    rfl
  have htok : ∀ c, c = min code 15 → tokenOf n 0 + UInt8.ofNat c = tokenOf n code := by
    intro c hc
    rw [← UInt8.toNat_inj, UInt8.toNat_add, tokenOf_toNat, tokenOf_toNat, toNat_ofNat (by omega)]
    omega
  have hsplit : w ++ tokenOf n 0 :: mid = w ++ [tokenOf n 0] ++ mid := List.append_cons _ _ _
  rw [hsplit] at h
  obtain ⟨m₁, hm₁, h₁⟩ := h.overwrite [tokenOf n code] htoken rfl
  have hlen₁ : (w ++ [tokenOf n code] ++ mid).length = w.length + 1 + mid.length := by
    rw [List.length_append, List.length_append, List.length_singleton]
  rw [putMatchLength]
  simp only [hread, Option.bind_eq_bind, Option.bind_some]
  by_cases hbig : code ≥ mlMask
  · have hfield : lengthBytes code = lengthField (code - mlMask) := by
      rw [lengthBytes, if_neg (by omega), h15]
    set rest := code - mlMask with hrest
    have hlenF := length_lengthField rest
    rw [hfield] at hfit hlenB ⊢
    obtain ⟨m₂, hm₂, h₂⟩ := h₁.store (d := op) (List.replicate 4 (255 : UInt8)) (by omega)
      (by rw [List.length_replicate]; omega)
    obtain ⟨m₃, hm₃, h₃⟩ := putMatchLoop_spec h₂
      (show op = ((w ++ [tokenOf n code] ++ mid).length : ℤ) by omega) (Nat.lt_succ_self rest)
      (by omega)
    -- the bytes that were written ahead are part of the field, up to its last one
    have hfull : List.replicate (rest / 255) (255 : UInt8)
        = List.replicate (4 * (rest / 1020)) 255 ++ List.replicate (rest % 1020 / 255) 255 := by
      rw [← List.replicate_add]
      congr 1
      omega
    have hcut : Filled N (w ++ [tokenOf n code] ++ mid ++ List.replicate (rest / 255) (255 : UInt8)) m₃ := by
      refine h₃.mono ?_
      rw [hfull, ← List.append_assoc, List.prefix_append_right_inj]
      rw [show (4 : ℕ) = rest % 1020 / 255 + (4 - rest % 1020 / 255) by omega, List.replicate_add]
      exact List.prefix_append _ _
    have hlen₃ : (w ++ [tokenOf n code] ++ mid ++ List.replicate (rest / 255) (255 : UInt8)).length
        = w.length + 1 + mid.length + rest / 255 := by
      rw [List.length_append, hlen₁, List.length_replicate]
    have hop₃ : op + (4 * (rest / 1020) : ℕ) + (rest % 1020 / 255 : ℕ)
        = ((w ++ [tokenOf n code] ++ mid ++ List.replicate (rest / 255) (255 : UInt8)).length : ℤ) := by
      omega
    have hlast : rest % 1020 % 255 = rest % 255 := by omega
    obtain ⟨m₄, hm₄, h₄⟩ := hcut.store [UInt8.ofNat (rest % 255)] hop₃
      (by rw [List.length_singleton]; omega)
    refine ⟨m₄, ?_, ?_⟩
    · have hfour : ([255, 255, 255, 255] : Bytes) = List.replicate 4 255 := rfl
      rw [if_pos hbig, htok mlMask (by omega), hm₁]
      simp only [Option.bind_some, hfour, hm₂, hm₃, hlast, hm₄, Option.some_inj, Prod.mk.injEq, true_and]
      omega
    · rw [lengthField, List.append_cons, ← List.append_assoc, ← List.append_assoc]
      exact h₄
  · have hnil : lengthBytes code = [] := by rw [lengthBytes, if_pos (by omega)]
    refine ⟨m₁, ?_, ?_⟩
    · rw [if_neg hbig, htok code (by omega), hm₁, hnil, List.length_nil, Nat.cast_zero, add_zero]
      rfl
    · rw [hnil, List.append_nil, List.append_cons]
      exact h₁

end Plz4.Lz4
