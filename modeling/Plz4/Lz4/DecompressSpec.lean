/-
The decoder of `lz4.c` computes the plain decoder, with either of its loops.

Every function of `Decompress` has one lemma here, for any state in which the source
could call it: it has a result, so it makes no undefined access, and the result is that of
its part of `plainStep`. What the copies write beyond the end of a match is never read
before it is written again, and that shows nowhere but in `Filled`.
-/
import Plz4.Lz4.Plain

set_option autoImplicit false

namespace Plz4.Lz4

open Mem Lz77

/-! ## Where the input pointer is -/

/-- `rest` is what is unread of `src` at `ip`. -/
structure At (src : Bytes) (ip : ℤ) (rest : Bytes) : Prop where
  nonneg : 0 ≤ ip
  drop : src.drop ip.toNat = rest
  len : ip + rest.length = src.length

variable {src rest : Bytes} {ip : ℤ}

theorem at_zero (src : Bytes) : At src 0 src := ⟨le_refl _, rfl, by omega⟩

theorem At.advance (h : At src ip rest) {n : ℕ} (hn : n ≤ rest.length) :
    At src (ip + n) (rest.drop n) := by
  have hpos := h.nonneg
  have hlen := h.len
  refine ⟨by omega, ?_, ?_⟩
  · rw [Int.toNat_add hpos (by omega), Int.toNat_natCast, ← List.drop_drop, h.drop]
  · rw [List.length_drop]
    omega

theorem At.tail {b : UInt8} (h : At src ip (b :: rest)) : At src (ip + 1) rest :=
  h.advance (n := 1) (by rw [List.length_cons]; omega)

theorem At.load (h : At src ip rest) {n : ℕ} (hn : n ≤ rest.length) :
    load src ip n = some (rest.take n) := by
  have hpos := h.nonneg
  have hlen := h.len
  rw [load_eq (i := ip.toNat) (by omega) (by omega), h.drop]

theorem At.readByte {b : UInt8} (h : At src ip (b :: rest)) : readByte src ip = some b := by
  rw [Lz4.readByte, h.load (n := 1) (by rw [List.length_cons]; omega)]
  rfl

theorem At.readLE16 (h : At src ip rest) (hn : 2 ≤ rest.length) :
    readLE16 src ip = some (LittleEndian.get (rest.take 2)) := by
  rw [Lz4.readLE16, h.load hn]
  rfl

/-- A literal copy out of the source. -/
theorem At.copyFrom (h : At src ip rest) {N n : ℕ} {w m : Bytes} (hm : Filled N w m) {d : ℤ}
    (hd : d = w.length) (hn : n ≤ rest.length) (hfit : w.length + n ≤ N) :
    ∃ m', copyFrom src m d ip n = some m' ∧ Filled N (w ++ rest.take n) m' := by
  have hpos := h.nonneg
  have hlen := h.len
  have hcopy := hm.copyFrom src (i := ip.toNat) (s := ip) hd (by omega) (by omega) hfit
  rwa [h.drop] at hcopy

/-! ## Lengths -/

/-- What `read_variable_length` returns for what the plain decoder reads. -/
def Rvl (src : Bytes) (acc : ℕ) (r : Option (Option ℕ × ℤ)) (p : Except ℕ (ℕ × Bytes)) : Prop :=
  match p with
  | .error unread => r = some (none, (src.length : ℤ) - unread) ∧ unread ≤ src.length
  | .ok (n, rest) => ∃ ip, r = some (some (n - acc), ip) ∧ acc ≤ n ∧ At src ip rest

theorem rvlLoop_spec {lim : ℕ} (hlim : 0 < lim) (base acc : ℕ) {k : ℕ} (h : At src ip rest)
    (hne : rest ≠ []) (hk : rest.length ≤ k) :
    Rvl src base (rvlLoop src ((src.length : ℤ) - lim) k ip acc)
      (plainLength lim rest (base + acc)) := by
  induction k generalizing rest ip acc with
  | zero =>
      rw [Nat.le_zero, List.length_eq_zero_iff] at hk
      exact absurd hk hne
  | succ k ih =>
      obtain ⟨b, rest, rfl⟩ := List.exists_cons_of_ne_nil hne
      have htail := h.tail
      have hlen := htail.len
      have hpos := h.nonneg
      rw [List.length_cons] at hk
      rw [rvlLoop, h.readByte, plainLength]
      simp only [Option.bind_eq_bind, Option.bind_some]
      by_cases hshort : rest.length < lim
      · rw [if_pos (by omega), if_pos hshort, Rvl]
        exact ⟨congrArg some (Prod.ext rfl (by dsimp only; omega)), by omega⟩
      · rw [if_neg (by omega), if_neg hshort]
        by_cases h255 : b = 255
        · subst h255
          have hne' : rest ≠ [] := by
            rintro rfl
            exact hshort hlim
          rw [if_pos rfl, if_pos rfl, Nat.add_assoc]
          exact ih _ htail hne' (by omega)
        · rw [if_neg h255, if_neg h255, Rvl]
          exact ⟨ip + 1, by rw [show base + acc + b.toNat - base = acc + b.toNat by omega],
            by omega, htail⟩

/-! ## Copies of a match -/

variable {N : ℕ} {w m : Bytes}

/-- The tables spread the pattern of a short offset to one of its multiples, over four
bytes first and over eight then. -/
theorem spread {offset : ℕ} (hpos : 0 < offset) (hlt : offset < 8) :
    ∃ j k, 0 < j ∧ 0 < k ∧ 4 + offset - inc32table.getD offset 0 = (j * offset : ℕ)
      ∧ 4 ≤ j * offset ∧ j * offset ≤ 4 + offset
      ∧ 8 + offset - (inc32table.getD offset 0 - dec64table.getD offset 0) = (k * offset : ℕ)
      ∧ 8 ≤ k * offset ∧ k * offset ≤ 8 + offset := by
  interval_cases offset
  · exact ⟨4, 8, by decide⟩
  · exact ⟨2, 4, by decide⟩
  · exact ⟨2, 3, by decide⟩
  · exact ⟨2, 2, by decide⟩
  · exact ⟨1, 2, by decide⟩
  · exact ⟨1, 2, by decide⟩
  · exact ⟨1, 2, by decide⟩

/-- Zeros behind zeros. -/
theorem extend_zeros (w : Bytes) {k d : ℕ} (n : ℕ) (hd : 0 < d) (hk : d ≤ k) :
    extend (extend w 0 k) d n = extend w 0 (k + n) := by
  have hrep : extend (List.replicate k (default : UInt8)) d n = List.replicate (k + n) default := by
    induction n with
    | zero => rfl
    | succ n ih =>
        have hidx : k + n - d < k + n := by omega
        rw [extend_succ, ih, List.length_replicate, List.getD_eq_getElem _ _ (by
          rw [List.length_replicate]; exact hidx), List.getElem_replicate, ← Nat.add_assoc,
          List.replicate_succ']
  rw [extend_dist_zero, extend_dist_zero, extend_append _ _ _ (by rw [List.length_replicate]; exact hk),
    hrep]

/-- After the first eight bytes of a match the copy can go on in steps of eight. -/
theorem copyFirst8_spec (h : Filled N w m) {op src : ℤ} {offset : ℕ} (hop : op = w.length)
    (hsrc : src = op - offset) (hoff : offset ≤ w.length) (hfit : w.length + 8 ≤ N) :
    ∃ (m' : Bytes) (D : ℕ), copyFirst8 m op src offset = some (m', (w.length : ℤ) + 8 - D)
      ∧ Filled N (extend w offset 8) m' ∧ 8 ≤ D ∧ D ≤ w.length + 8
      ∧ ∀ n, extend (extend w offset 8) D n = extend w offset (8 + n) := by
  rw [copyFirst8]
  by_cases hlt : offset < 8
  · rw [if_pos hlt]
    obtain ⟨m₁, hm₁, h₁⟩ := h.store (d := op) [0, 0, 0, 0] hop (by
      change _ + 4 ≤ N
      omega)
    rcases Nat.eq_zero_or_pos offset with rfl | hpos
    · -- offset 0 reads the zeros that have just been written
      have hzeros : w ++ [0, 0, 0, 0] = extend w 0 4 := (extend_dist_zero w 4).symm
      have hlen : (extend w 0 4).length = w.length + 4 := length_extend w 0 4
      rw [hzeros] at h₁
      have hle := h₁.len
      have hself : byteCopy 4 m₁ op src (op + 4) = some m₁ := by
        rw [show src = op by omega]
        exact byteCopy_self (by omega) (by omega) (by omega)
      obtain ⟨m₂, hm₂, h₂⟩ := h₁.memcpy (D := 4) (n := 4) (d := op + 4) (s := src + 0) (by omega)
        (by omega) (le_refl _) (by omega) (by omega)
      rw [extend_zeros w 4 (by omega) (le_refl _)] at h₂
      refine ⟨m₂, 8, ?_, h₂, le_refl _, by omega, fun n => extend_zeros w n (by omega) (le_refl _)⟩
      have hinc : inc32table.getD 0 0 = 0 := rfl
      have hdec : dec64table.getD 0 0 = 0 := rfl
      simp only [hm₁, hself, hinc, hm₂, hdec, Option.bind_eq_bind, Option.bind_some,
        Option.some.injEq, Prod.mk.injEq, true_and]
      omega
    · obtain ⟨j, k, hj, hk, h4, h4le, h4lt, h8, h8le, h8lt⟩ := spread hpos hlt
      obtain ⟨m₂, hm₂, h₂⟩ := (h₁.mono (List.prefix_append _ _)).byteCopy (k := 4) (j := 4) (d := op)
        (s := src) (e := op + 4) hop (by omega) hoff hpos (by omega) (le_refl _) (by omega)
      have hlen : (extend w offset 4).length = w.length + 4 := length_extend w offset 4
      obtain ⟨m₃, hm₃, h₃⟩ := h₂.memcpy (D := j * offset) (n := 4) (d := op + 4)
        (s := src + inc32table.getD offset 0) (by omega) (by omega) h4le (by omega) (by omega)
      rw [extend_mul w 4 hpos hj (by omega)] at h₃
      refine ⟨m₃, k * offset, ?_, h₃, h8le, by omega, fun n => extend_mul w n hpos hk (by omega)⟩
      simp only [hm₁, hm₂, hm₃, Option.bind_eq_bind, Option.bind_some, Option.some.injEq,
        Prod.mk.injEq, true_and]
      omega
  · rw [if_neg hlt]
    obtain ⟨m₁, hm₁, h₁⟩ := h.memcpy (D := offset) (n := 8) (s := src) hop (by omega) (by omega)
      hoff hfit
    refine ⟨m₁, offset, ?_, h₁, by omega, by omega, fun n => extend_extend w offset 8 n⟩
    simp only [hm₁, Option.bind_eq_bind, Option.bind_some, Option.some.injEq, Prod.mk.injEq,
      true_and]
    omega

theorem wildCopy8_spec (h : Filled N w m) {D : ℕ} {d s e : ℤ} (hd : d = w.length)
    (hs : s = d - D) (h8 : 8 ≤ D) (hD : D ≤ w.length) (hfirst : w.length + 8 ≤ N)
    (hlast : e + 7 ≤ N) :
    ∃ m' j, wildCopy8 m d s e = some m' ∧ Filled N (extend w D j) m' ∧ e ≤ w.length + j := by
  have hlen := h.len
  exact h.wildCopy (chunk_memcpy h8) hd (by omega) hD (by omega) (by omega) (by omega) hfirst
    (by omega)

theorem wildCopy32_spec (h : Filled N w m) {D : ℕ} {d s e : ℤ} (hd : d = w.length)
    (hs : s = d - D) (h16 : 16 ≤ D) (hD : D ≤ w.length) (hfirst : w.length + 32 ≤ N)
    (hlast : e + 31 ≤ N) :
    ∃ m' j, wildCopy32 m d s e = some m' ∧ Filled N (extend w D j) m' ∧ e ≤ w.length + j := by
  have hlen := h.len
  exact h.wildCopy (chunk_memcpy h16).twice hd (by omega) hD (by omega) (by omega) (by omega) hfirst
    (by omega)

/-- A pattern of eight bytes written again and again. -/
theorem patternFill_spec {v : Bytes} (hv : v.length = 8) {k : ℕ} (h : Filled N (w ++ v) m) {d e : ℤ}
    (hd : d = w.length + 8) (hk : e ≤ d + k) (hlast : e + 7 ≤ N) :
    ∃ m' j, patternFill v k m d e = some m' ∧ Filled N (extend (w ++ v) 8 j) m'
      ∧ e ≤ w.length + 8 + j := by
  have hlen : (w ++ v).length = w.length + 8 := by rw [List.length_append, hv]
  induction k generalizing w m d with
  | zero => exact ⟨m, 0, by rw [patternFill, if_neg (by omega)], h, by omega⟩
  | succ k ih =>
      rw [patternFill]
      split_ifs with hlt
      · obtain ⟨m₁, hm₁, h₁⟩ := h.store (d := d) v (by omega) (by omega)
        have hrep : extend (w ++ v) 8 8 = w ++ v ++ v := by
          rw [extend_of_le _ (le_refl 8) (by omega), hlen, Nat.add_sub_cancel, List.drop_left,
            List.take_of_length_le (by omega)]
        obtain ⟨m₂, j, hm₂, h₂, he⟩ := ih (w := w ++ v) h₁ (d := d + 8) (by omega) (by omega)
          (by rw [List.length_append]; omega)
        refine ⟨m₂, 8 + j, by rw [hm₁, Option.bind_some, hm₂], ?_, by omega⟩
        rwa [← hrep, extend_extend] at h₂
      · exact ⟨m, 0, rfl, h, by omega⟩

/-- A short offset in the fast loop. -/
theorem memcpyUsingOffset_spec (h : Filled N w m) {op src e : ℤ} {offset : ℕ} (hop : op = w.length)
    (hsrc : src = op - offset) (hoff : offset ≤ w.length) (hend : op + 4 ≤ e) (hfit : e + 12 ≤ N) :
    ∃ m' j, memcpyUsingOffset m op src e offset = some m' ∧ Filled N (extend w offset j) m'
      ∧ e ≤ w.length + j := by
  have hlen := h.len
  rw [memcpyUsingOffset]
  split_ifs with hpat
  · -- 1, 2 and 4 divide 8
    have hdvd : 8 / offset * offset = 8 := by
      rcases hpat with rfl | rfl | rfl <;> rfl
    have hpos : 0 < offset := by omega
    have hload : load m src offset = some (w.drop (w.length - offset)) := by
      rw [h.load (i := w.length - offset) (by omega) (by omega), List.take_of_length_le]
      rw [List.length_drop]
      omega
    set v := (List.replicate (8 / offset) (w.drop (w.length - offset))).flatten with hv
    have hvlen : v.length = 8 := by
      have hext := length_extend w offset (8 / offset * offset)
      rw [extend_repeat w hoff, List.length_append, hdvd, ← hv] at hext
      omega
    obtain ⟨m₁, hm₁, h₁⟩ := h.store (d := op) v hop (by omega)
    have hlen₁ := h₁.len
    obtain ⟨m₂, j, hm₂, h₂, he⟩ := patternFill_spec hvlen (k := m₁.length) h₁ (d := op + 8) (e := e)
      (by omega) (by omega) (by omega)
    have hmul : extend (w ++ v) 8 j = extend w offset (8 + j) := by
      rw [hv, ← extend_repeat w hoff, hdvd]
      have hall := extend_mul w (m := 8) (k := 8 / offset) j hpos (Nat.div_pos (by omega) hpos)
        (by omega)
      rwa [hdvd] at hall
    refine ⟨m₂, 8 + j, ?_, hmul ▸ h₂, by omega⟩
    simp only [hload, Option.bind_eq_bind, Option.bind_some, ← hv, hm₁, hm₂]
  · obtain ⟨m₁, D, hm₁, h₁, h8, hD, hsame⟩ := copyFirst8_spec h hop hsrc hoff (by omega)
    have hlen₁ : (extend w offset 8).length = w.length + 8 := length_extend w offset 8
    obtain ⟨m₂, j, hm₂, h₂, he⟩ := wildCopy8_spec h₁ (D := D) (d := op + 8)
      (s := (w.length : ℤ) + 8 - D) (e := e) (by omega) (by omega) h8 (by omega) (by omega) (by omega)
    refine ⟨m₂, 8 + j, ?_, hsame j ▸ h₂, by omega⟩
    rw [memcpyUsingOffsetBase, hm₁]
    exact hm₂

/-! ## The places a match can be in -/

/-- The combinations of parameters the instances use. A prefix is a part of the object of
the destination, so it needs no dictionary of its own. -/
structure DecEnv.Wf (e : DecEnv) : Prop where
  le : e.dst ≤ e.oend
  place : (e.dict = .usingExtDict ∧ e.lowPrefix = 0)
    ∨ (e.dict = .noDict ∧ e.lowPrefix = 0 ∧ e.dictionary = [])
    ∨ (e.dict = .withPrefix64k ∧ e.lowPrefix = e.dst - 65536 ∧ 65535 ≤ e.dst ∧ e.dictionary = [])

variable {e : DecEnv} {op src' : ℤ} {offset length room : ℕ}

/-- "offset outside buffers" -/
theorem DecEnv.Wf.outside_iff (hwf : e.Wf) (hop : op = w.length) (hdst : e.dst ≤ w.length)
    (hoff : offset < 65536) :
    (e.checkOffset = true ∧ op - offset + e.dictionary.length < e.lowPrefix)
      ↔ e.dictionary.length + w.length < offset := by
  rw [DecEnv.checkOffset, decide_eq_true_eq]
  rcases hwf.place with ⟨-, hlow⟩ | ⟨-, hlow, hnil⟩ | ⟨-, hlow, hle, hnil⟩
  · omega
  · rw [hnil, List.length_nil]
    omega
  · rw [hnil, List.length_nil]
    omega

/-- "match starting within external dictionary" -/
theorem DecEnv.Wf.ext_iff (hwf : e.Wf) (hop : op = w.length) (hdst : e.dst ≤ w.length)
    (hoff : offset < 65536) (hin : offset ≤ e.dictionary.length + w.length) :
    (e.dict = .usingExtDict ∧ op - offset < e.lowPrefix) ↔ w.length < offset := by
  rcases hwf.place with ⟨hd, hlow⟩ | ⟨hd, hlow, hnil⟩ | ⟨hd, hlow, hle, hnil⟩
  · rw [hd, hlow, eq_self_iff_true, true_and]
    omega
  · rw [hnil, List.length_nil, Nat.zero_add] at hin
    simp only [hd, reduceCtorEq, false_and, false_iff]
    omega
  · simp only [hd, reduceCtorEq, false_and, false_iff]
    omega

/-- The match is in the object of the destination. -/
theorem DecEnv.Wf.quick_iff (hwf : e.Wf) (hop : op = w.length) (hdst : e.dst ≤ w.length)
    (hoff : offset < 65536) :
    (e.dict = .withPrefix64k ∨ op - offset ≥ e.lowPrefix) ↔ offset ≤ w.length := by
  rcases hwf.place with ⟨hd, hlow⟩ | ⟨hd, hlow, -⟩ | ⟨hd, hlow, hle, -⟩
  · rw [hd, hlow]
    simp only [reduceCtorEq, false_or]
    omega
  · rw [hd, hlow]
    simp only [reduceCtorEq, false_or]
    omega
  · simp only [hd, true_or, true_iff]
    omega

/-! ## A match in the external dictionary -/

/-- A match that begins in the dictionary goes on at the start of the destination. -/
theorem extDictCopy_spec (length : ℕ) (h : Filled e.oend w m) (hlow : e.lowPrefix = 0) (hop : op = w.length)
    (hsrc : src' = op - offset) (hext : w.length < offset)
    (hin : offset ≤ e.dictionary.length + w.length) (hroom : w.length + room = e.oend) :
    if room < length + lastLiterals then extDictCopy e op src' length m = some none
    else ∃ w' m', extDictCopy e op src' length m = some (some (op + length, m'))
      ∧ Filled e.oend w' m' ∧ e.dictionary ++ w' = extend (e.dictionary ++ w) offset length := by
  have h5 : lastLiterals = 5 := rfl
  rw [extDictCopy]
  by_cases hend : room < length + lastLiterals
  · rw [if_pos hend, if_pos (by omega)]
  · rw [if_neg hend, if_neg (by omega)]
    set k := offset - w.length with hk
    set i := e.dictionary.length - k with hi
    have hwin : (e.dictionary ++ w).length = e.dictionary.length + w.length := List.length_append
    -- what a copy of up to `k` bytes takes out of the dictionary
    have hshort : ∀ n ≤ k, extend (e.dictionary ++ w) offset n
        = e.dictionary ++ (w ++ (e.dictionary.drop i).take n) := by
      intro n hn
      rw [extend_of_le _ (by omega) (by omega), List.append_assoc, hwin,
        show e.dictionary.length + w.length - offset = i by omega,
        List.drop_append_of_le_length (by omega), List.take_append_of_le_length]
      rw [List.length_drop]
      omega
    by_cases hfit : (length : ℤ) ≤ e.lowPrefix - src'
    · rw [if_pos hfit]
      obtain ⟨m₁, hm₁, h₁⟩ := h.copyFrom e.dictionary (d := op)
        (s := e.dictionary.length - (e.lowPrefix - src')) (i := i) (n := length) hop (by omega)
        (by omega) (by omega)
      refine ⟨_, m₁, ?_, h₁, (hshort length (by omega)).symm⟩
      rw [hm₁]
      rfl
    · rw [if_neg hfit]
      obtain ⟨m₁, hm₁, h₁⟩ := h.copyFrom e.dictionary (d := op)
        (s := (e.dictionary.length : ℤ) - k) (i := i) (n := k) hop (by omega) (by omega) (by omega)
      rw [show (e.lowPrefix - src').toNat = k by omega]
      dsimp only
      rw [hm₁]
      have hlen₁ : (w ++ (e.dictionary.drop i).take k).length = offset := by
        rw [List.length_append, List.length_take, List.length_drop]
        omega
      have hall : e.dictionary ++ extend (w ++ (e.dictionary.drop i).take k) offset (length - k)
          = extend (e.dictionary ++ w) offset length := by
        rw [← extend_append _ _ _ (by omega), ← hshort k (le_refl k), extend_extend]
        congr 1
        omega
      by_cases hlap : ((length - k : ℕ) : ℤ) > op + k - e.lowPrefix
      · obtain ⟨m₂, hm₂, h₂⟩ := h₁.byteCopy (d := op + k) (s := e.lowPrefix)
          (e := op + k + (length - k : ℕ)) (D := offset) (j := length - k) (k := length - k)
          (by omega) (by omega) (by omega) (by omega) (by omega) (le_refl _) (by omega)
        refine ⟨_, m₂, ?_, h₂, hall⟩
        simp only [Option.bind_eq_bind, Option.bind_some, if_pos hlap, hm₂, Option.some.injEq,
          Prod.mk.injEq, and_true]
        omega
      · obtain ⟨m₂, hm₂, h₂⟩ := h₁.memcpy (d := op + k) (s := e.lowPrefix) (D := offset)
          (n := length - k) (by omega) (by omega) (by omega) (by omega) (by omega)
        refine ⟨_, m₂, ?_, h₂, hall⟩
        simp only [Option.bind_eq_bind, Option.bind_some, if_neg hlap, hm₂, Option.some.injEq,
          Prod.mk.injEq, and_true]
        omega

/-! ## One iteration -/

/-- The variables of the code, at the head of a loop, against those of the plain decoder. -/
structure Rel (e : DecEnv) (s : DecState) (p : Plain) : Prop where
  input : At e.src s.ip p.rest
  ne : p.rest ≠ []
  output : ∃ w, Filled e.oend w s.mem ∧ p.win = e.dictionary ++ w ∧ s.op = w.length
    ∧ w.length + p.room = e.oend ∧ e.dst ≤ w.length

/-- The outcome of an iteration against that of a plain step. The fast loop goes on only
where there is room for it. -/
def Sim (e : DecEnv) (r : Option DecNext) : PlainNext → Prop
  | .next p => ∃ s, (r = some (.safe s) ∨ r = some (.fast s) ∧ fastLoopSafeDistance ≤ p.room)
      ∧ Rel e s p
  | .done win => ∃ w mem, r = some (.ret (w.length - e.dst) mem) ∧ Filled e.oend w mem
      ∧ win = e.dictionary ++ w ∧ e.dst ≤ w.length
  | .error unread => ∃ mem, r = some (.ret (-(e.src.length - unread) - 1) mem) ∧ unread ≤ e.src.length

theorem sim_outputError (h : At e.src ip rest) (m : Bytes) :
    Sim e (some (outputError ip m)) (.error rest.length) := by
  have hlen := h.len
  have hpos := h.nonneg
  refine ⟨m, ?_, by omega⟩
  rw [outputError, show ip = e.src.length - rest.length by omega]

/-- Where the plain decoder is once a match has been copied. -/
def matched (rest win : Bytes) (offset length room : ℕ) : PlainNext :=
  if win.length < offset ∨ room < length + lastLiterals then .error rest.length
  else .next ⟨rest, extend win offset length, room - length⟩

theorem sim_next (h : At e.src ip rest) (hne : rest ≠ []) {w' : Bytes} (hm : Filled e.oend w' m)
    {win : Bytes} (hwin : win = e.dictionary ++ w') (hop : op = w'.length)
    (hroom : w'.length + room = e.oend) (hdst : e.dst ≤ w'.length) {r : Option DecNext}
    (hr : r = some (.safe ⟨ip, op, m⟩)
      ∨ r = some (.fast ⟨ip, op, m⟩) ∧ fastLoopSafeDistance ≤ room) :
    Sim e r (.next ⟨rest, win, room⟩) :=
  ⟨⟨ip, op, m⟩, hr, h, hne, w', hm, hwin, hop, hroom, hdst⟩

/-- A match after its first 8 bytes: `op` is behind them. -/
def safeMatchRest (e : DecEnv) (ip op src cpy : ℤ) (length : ℕ) (mem : Bytes) : Option DecNext :=
  if cpy > e.oend - matchSafeguardDistance then
    let oCopyLimit : ℤ := e.oend - (wildCopyLength - 1)
    if cpy > e.oend - lastLiterals then some (outputError ip mem)
    else if op < oCopyLimit then do
      let mem ← wildCopy8 mem op src oCopyLimit
      let mem ← byteCopy mem.length mem oCopyLimit (src + (oCopyLimit - op)) cpy
      some (.safe ⟨ip, cpy, mem⟩)
    else do
      let mem ← byteCopy mem.length mem op src cpy
      some (.safe ⟨ip, cpy, mem⟩)
  else do
    let mem ← memcpy mem op src 8
    if length > 16 then do
      let mem ← wildCopy8 mem (op + 8) (src + 8) cpy
      some (.safe ⟨ip, cpy, mem⟩)
    else some (.safe ⟨ip, cpy, mem⟩)

/-- A match that is not in the dictionary is its first 8 bytes, and the others. -/
theorem safeMatchCopy_eq {src' : ℤ} (hout : ¬ (e.checkOffset = true ∧ src' + e.dictionary.length < e.lowPrefix))
    (hext : ¬ (e.dict = .usingExtDict ∧ src' < e.lowPrefix)) :
    safeMatchCopy e ip op src' offset length m = (copyFirst8 m op src' offset).bind fun r =>
      safeMatchRest e ip (op + 8) r.2 (op + length) length r.1 := by
  rw [safeMatchCopy, if_neg hout, if_neg hext]
  rfl

/-- The copies that follow the first 8 bytes of a match end with at least `length` of its
bytes, wherever they come to. `D` is the distance they are made at. -/
theorem safeMatchRest_spec {D : ℕ} (h : At e.src ip rest) (hne : rest ≠ [])
    (hm : Filled e.oend (extend w offset 8) m) (hop : op = w.length) (hroom : w.length + room = e.oend)
    (hdst : e.dst ≤ w.length) (hle : offset ≤ w.length) (hlen : 4 ≤ length) (h12 : mfLimit ≤ room)
    (h8 : 8 ≤ D) (hD : D ≤ w.length + 8) (hsame : ∀ j, extend (extend w offset 8) D j = extend w offset (8 + j)) :
    Sim e (safeMatchRest e ip (op + 8) ((w.length : ℤ) + 8 - D) (op + length) length m)
      (matched rest (e.dictionary ++ w) offset length room) := by
  have h5 : lastLiterals = 5 := rfl
  have hmf : mfLimit = 12 := rfl
  have hguard : matchSafeguardDistance = 12 := rfl
  have hwild : wildCopyLength = 8 := rfl
  have hlen₁ : (extend w offset 8).length = w.length + 8 := length_extend w offset 8
  have hwin : extend (e.dictionary ++ w) offset length = e.dictionary ++ extend w offset length :=
    extend_append _ _ _ hle
  have hdone : ∀ {m' : Bytes} {j : ℕ}, ¬ room < length + lastLiterals →
      Filled e.oend (extend w offset j) m' → length ≤ j →
      Sim e (some (.safe ⟨ip, op + length, m'⟩)) (matched rest (e.dictionary ++ w) offset length room) := by
    intro m' j hend hm' hj
    have hcut := hm'.mono (prefix_extend w offset hj)
    have hlen' : (extend w offset length).length = w.length + length := length_extend _ _ _
    rw [matched, List.length_append, if_neg (by omega)]
    exact sim_next h hne hcut hwin (by omega) (by omega) (by omega) (.inl rfl)
  rw [safeMatchRest]
  simp only [Option.bind_eq_bind]
  by_cases hnear : op + length > e.oend - matchSafeguardDistance
  · rw [if_pos hnear]
    by_cases hend : room < length + lastLiterals
    · rw [if_pos (by omega), matched, if_pos (.inr hend)]
      exact sim_outputError h m
    · rw [if_neg (by omega)]
      by_cases hlim : op + 8 < e.oend - (wildCopyLength - 1)
      · rw [if_pos hlim]
        obtain ⟨m₂, j, hm₂, h₂, hj⟩ := wildCopy8_spec hm (D := D) (d := op + 8)
          (s := (w.length : ℤ) + 8 - D) (e := e.oend - (wildCopyLength - 1)) (by omega) (by omega)
          h8 (by omega) (by omega) (by omega)
        obtain ⟨i, hi⟩ : ∃ i : ℕ, (e.oend : ℤ) - (wildCopyLength - 1) = w.length + 8 + i :=
          ⟨e.oend - 7 - (w.length + 8), by omega⟩
        have hcut : Filled e.oend (extend w offset (8 + i)) m₂ := by
          rw [hsame] at h₂
          exact h₂.mono (prefix_extend w offset (by omega))
        have hlen₂ : (extend w offset (8 + i)).length = w.length + (8 + i) := length_extend _ _ _
        have hmem := hcut.len
        obtain ⟨m₃, hm₃, h₃⟩ := hcut.byteCopy (d := e.oend - (wildCopyLength - 1))
          (s := (w.length : ℤ) + 8 - D + (e.oend - (wildCopyLength - 1) - (op + 8)))
          (e := op + length) (D := D) (j := length - (8 + i)) (k := m₂.length) (by omega)
          (by omega) (by omega) (by omega) (by omega) (by omega) (by omega)
        rw [← hsame i, extend_extend, hsame] at h₃
        rw [hm₂, Option.bind_some, hm₃, Option.bind_some]
        exact hdone hend h₃ (by omega)
      · rw [if_neg hlim]
        have hmem := hm.len
        obtain ⟨m₂, hm₂, h₂⟩ := hm.byteCopy (d := op + 8) (s := (w.length : ℤ) + 8 - D)
          (e := op + length) (D := D) (j := length - 8) (k := m.length) (by omega) (by omega)
          (by omega) (by omega) (by omega) (by omega) (by omega)
        rw [hsame] at h₂
        rw [hm₂, Option.bind_some]
        exact hdone hend h₂ (by omega)
  · rw [if_neg hnear]
    obtain ⟨m₂, hm₂, h₂⟩ := hm.memcpy (d := op + 8) (s := (w.length : ℤ) + 8 - D) (D := D) (n := 8)
      (by omega) (by omega) h8 (by omega) (by omega)
    rw [hsame] at h₂
    rw [hm₂, Option.bind_some]
    have hlen₂ : (extend w offset (8 + 8)).length = w.length + 16 := length_extend _ _ _
    by_cases hlong : length > 16
    · obtain ⟨m₃, j, hm₃, h₃, hj⟩ := wildCopy8_spec h₂ (D := D) (d := op + 8 + 8)
        (s := (w.length : ℤ) + 8 - D + 8) (e := op + length) (by omega) (by omega) h8 (by omega)
        (by omega) (by omega)
      rw [← hsame 8, extend_extend, hsame] at h₃
      rw [if_pos hlong, hm₃, Option.bind_some]
      exact hdone (by omega) h₃ (by omega)
    · rw [if_neg hlong]
      exact hdone (by omega) h₂ (by omega)

/-- `safe_match_copy` -/
theorem safeMatchCopy_spec (hwf : e.Wf) (h : At e.src ip rest) (hne : rest ≠ [])
    (hm : Filled e.oend w m) (hop : op = w.length) (hroom : w.length + room = e.oend)
    (hdst : e.dst ≤ w.length) (hoff : offset < 65536) (hlen : 4 ≤ length) (h12 : mfLimit ≤ room) :
    Sim e (safeMatchCopy e ip op (op - offset) offset length m)
      (matched rest (e.dictionary ++ w) offset length room) := by
  have hmf : mfLimit = 12 := rfl
  have hout_iff := hwf.outside_iff hop hdst hoff
  by_cases hout : e.dictionary.length + w.length < offset
  · rw [safeMatchCopy, if_pos (hout_iff.mpr hout), matched, List.length_append, if_pos (.inl hout)]
    exact sim_outputError h m
  have hext_iff := hwf.ext_iff hop hdst hoff (by omega)
  by_cases hext : w.length < offset
  · have hlow : e.lowPrefix = 0 := by
      rcases hwf.place with ⟨-, hl⟩ | ⟨-, hl, -⟩ | ⟨-, hl, hle, -⟩
      · exact hl
      · exact hl
      · omega
    have hcopy := extDictCopy_spec length hm hlow hop rfl hext (by omega) hroom
    rw [safeMatchCopy, if_neg (fun hc => hout (hout_iff.mp hc)), if_pos (hext_iff.mpr hext), matched,
      List.length_append]
    by_cases hend : room < length + lastLiterals
    · rw [if_pos hend] at hcopy
      rw [hcopy, if_pos (.inr hend)]
      exact sim_outputError h m
    · rw [if_neg hend] at hcopy
      obtain ⟨w', m', hrun, hm', hwin⟩ := hcopy
      have hw' : w'.length = w.length + length := by
        have hboth := congrArg List.length hwin
        rw [length_extend, List.length_append, List.length_append] at hboth
        omega
      rw [hrun, if_neg (by omega)]
      exact sim_next h hne hm' hwin.symm (by omega) (by omega) (by omega) (.inl rfl)
  · obtain ⟨m₁, D, hm₁, h₁, h8, hD, hsame⟩ := copyFirst8_spec hm hop (show op - offset = op - offset from rfl)
      (by omega) (by omega)
    rw [safeMatchCopy_eq (fun hc => hout (hout_iff.mp hc)) (fun hc => hext (hext_iff.mp hc)), hm₁,
      Option.bind_some]
    exact safeMatchRest_spec h hne h₁ hop hroom hdst (by omega) hlen h12 h8 hD hsame

/-! ## The match of a sequence -/

/-- What is left behind a length field. -/
theorem plainLength_ok {lim acc n : ℕ} {rest rest' : Bytes}
    (h : plainLength lim rest acc = .ok (n, rest')) : lim ≤ rest'.length ∧ acc ≤ n := by
  induction rest generalizing acc with
  | nil => cases h
  | cons b rest ih =>
      rw [plainLength] at h
      split_ifs at h with hshort h255
      · obtain ⟨hlim, hacc⟩ := ih h
        exact ⟨hlim, by omega⟩
      · simp only [Except.ok.injEq, Prod.mk.injEq] at h
        obtain ⟨rfl, rfl⟩ := h
        exact ⟨by omega, by omega⟩

theorem plainMatchLength_ok {token : UInt8} {n : ℕ} {rest' : Bytes} (hne : rest ≠ [])
    (h : plainMatchLength token rest = .ok (n, rest')) : rest' ≠ [] ∧ minMatch ≤ n := by
  rw [plainMatchLength] at h
  split_ifs at h with hml
  · rcases hp : plainLength (lastLiterals - 1) rest mlMask with u | ⟨k, rest₂⟩
    · rw [hp] at h
      cases h
    · rw [hp] at h
      simp only [Except.map, Except.ok.injEq, Prod.mk.injEq] at h
      obtain ⟨rfl, rfl⟩ := h
      have hlim := (plainLength_ok hp).1
      refine ⟨?_, Nat.le_add_left _ _⟩
      rintro rfl
      exact absurd hlim (by decide)
  · simp only [Except.ok.injEq, Prod.mk.injEq] at h
    obtain ⟨rfl, rfl⟩ := h
    exact ⟨hne, Nat.le_add_left _ _⟩

/-- The match of a token, once its offset has been read. -/
def matchOf (token : UInt8) (offset : ℕ) (rest win : Bytes) (room : ℕ) : PlainNext :=
  match plainMatchLength token rest with
  | .error unread => .error unread
  | .ok (length, rest') => matched rest' win offset length room

variable {token : UInt8}

/-- A match length read by the code, and what the code does with it. -/
theorem matchLength_spec (token : UInt8) (offset room : ℕ) {win : Bytes} (f : ℕ → ℤ → Option DecNext)
    (h : At e.src ip rest) (hne : rest ≠ []) (m : Bytes)
    (hf : ∀ length ip' rest', At e.src ip' rest' → rest' ≠ [] → minMatch ≤ length →
      plainMatchLength token rest = .ok (length, rest') →
      Sim e (f length ip') (matched rest' win offset length room)) :
    Sim e
      (if token.toNat % 16 = mlMask then
        (readVariableLength e.src ip (e.iend - lastLiterals + 1) false).bind (fun r =>
          match r.1 with
          | none => some (outputError r.2 m)
          | some addl => f (mlMask + addl + minMatch) r.2)
      else f (token.toNat % 16 + minMatch) ip)
      (matchOf token offset rest win room) := by
  rw [matchOf]
  by_cases hml : token.toNat % 16 = mlMask
  · have hlimit : e.iend - lastLiterals + 1 = (e.src.length : ℤ) - (lastLiterals - 1 : ℕ) := by
      simp only [DecEnv.iend, lastLiterals]
      omega
    have hloop := rvlLoop_spec (show 0 < lastLiterals - 1 by decide) mlMask 0 h hne
      (k := e.src.length) (by have hlen := h.len; have hpos := h.nonneg; omega)
    rw [Nat.add_zero, ← hlimit] at hloop
    rw [if_pos hml, readVariableLength, if_neg (by simp)]
    have hplain : plainMatchLength token rest
        = (plainLength (lastLiterals - 1) rest mlMask).map (fun r => (r.1 + minMatch, r.2)) := by
      rw [plainMatchLength, if_pos hml]
    rcases hp : plainLength (lastLiterals - 1) rest mlMask with unread | ⟨n, rest'⟩
    · rw [hp] at hloop hplain
      obtain ⟨hrun, hle⟩ := hloop
      rw [hplain, hrun]
      exact ⟨m, by rw [Option.bind_some, outputError], hle⟩
    · rw [hp] at hloop hplain
      obtain ⟨ip', hrun, hacc, hat⟩ := hloop
      rw [hplain, hrun]
      obtain ⟨hne', hmin⟩ := plainMatchLength_ok hne hplain
      have hsim := hf (n + minMatch) ip' rest' hat hne' hmin hplain
      rw [Option.bind_some]
      change Sim e (f (mlMask + (n - mlMask) + minMatch) ip') _
      rw [Nat.add_sub_cancel' hacc]
      exact hsim
  · have hplain : plainMatchLength token rest = .ok (token.toNat % 16 + minMatch, rest) := by
      rw [plainMatchLength, if_neg hml]
    rw [if_neg hml, hplain]
    exact hf _ ip rest h hne (Nat.le_add_left _ _) hplain

/-- `_copy_match` -/
theorem copyMatch_spec (hwf : e.Wf) (h : At e.src ip rest) (hne : rest ≠ [])
    (hm : Filled e.oend w m) (hop : op = w.length) (hroom : w.length + room = e.oend)
    (hdst : e.dst ≤ w.length) (hoff : offset < 65536) (h12 : mfLimit ≤ room) :
    Sim e (copyMatch e ip op offset (token.toNat % 16) m)
      (matchOf token offset rest (e.dictionary ++ w) room) := by
  have hsim := matchLength_spec token offset room
    (fun length ip => safeMatchCopy e ip op (op - offset) offset length m)
    h hne m
    (fun length ip' rest' hat hne' hmin _ =>
      safeMatchCopy_spec hwf hat hne' hm hop hroom hdst hoff hmin h12)
  rw [copyMatch]
  by_cases hml : token.toNat % 16 = mlMask
  · rw [if_pos hml] at hsim ⊢
    rw [hml]
    exact hsim
  · rw [if_neg hml] at hsim ⊢
    exact hsim

/-- The match at the end of a fast iteration that has room for it. -/
theorem fastCopy_spec (hwf : e.Wf) (h : At e.src ip rest) (hne : rest ≠ [])
    (hm : Filled e.oend w m) (hop : op = w.length) (hroom : w.length + room = e.oend)
    (hdst : e.dst ≤ w.length) (hoff : offset < 65536) (hlen : minMatch ≤ length)
    (hfar : length + fastLoopSafeDistance < room) :
    Sim e (fastCopy e ip op (op - offset) offset length m)
      (matched rest (e.dictionary ++ w) offset length room) := by
  have h5 : lastLiterals = 5 := rfl
  have h64 : fastLoopSafeDistance = 64 := rfl
  have hmin : minMatch = 4 := rfl
  rw [fastCopy, matched, List.length_append, if_congr (hwf.outside_iff hop hdst hoff) rfl rfl]
  by_cases hout : e.dictionary.length + w.length < offset
  · rw [if_pos hout, if_pos (.inl hout)]
    exact sim_outputError h m
  rw [if_neg hout, if_congr (hwf.ext_iff hop hdst hoff (by omega)) rfl rfl,
    if_neg (show ¬ (_ ∨ room < length + lastLiterals) by omega)]
  by_cases hext : w.length < offset
  · rw [if_pos hext]
    have hlow : e.lowPrefix = 0 := by
      rcases hwf.place with ⟨-, hl⟩ | ⟨-, hl, -⟩ | ⟨-, hl, hle, -⟩
      · exact hl
      · exact hl
      · omega
    have hcopy := extDictCopy_spec length hm hlow hop rfl hext (by omega) hroom
    rw [if_neg (by omega)] at hcopy
    obtain ⟨w', m', hrun, hm', hwin⟩ := hcopy
    have hw' : w'.length = w.length + length := by
      have hboth := congrArg List.length hwin
      rw [length_extend, List.length_append, List.length_append] at hboth
      omega
    rw [hrun]
    exact sim_next h hne hm' hwin.symm (by omega) (by omega) (by omega) (.inr (.intro rfl (by omega)))
  · rw [if_neg hext]
    have hwin : extend (e.dictionary ++ w) offset length
        = e.dictionary ++ extend w offset length := extend_append _ _ _ (by omega)
    have hlen' : (extend w offset length).length = w.length + length := length_extend _ _ _
    have hop' : op + length = (extend w offset length).length := by omega
    have hdone : ∀ {m' : Bytes} {j : ℕ}, Filled e.oend (extend w offset j) m' →
        op + length ≤ w.length + j → Sim e (some (.fast ⟨ip, op + length, m'⟩))
          (.next ⟨rest, extend (e.dictionary ++ w) offset length, room - length⟩) := by
      intro m' j hm' hj
      exact sim_next h hne (hm'.mono (prefix_extend w offset (by omega))) hwin hop' (by omega)
        (by omega) (.inr (.intro rfl (by omega)))
    simp only [Option.bind_eq_bind]
    split_ifs with h16
    · obtain ⟨m', j, hrun, hm', hj⟩ := memcpyUsingOffset_spec hm hop
        (show op - offset = op - offset from rfl) (by omega)
        (show op + 4 ≤ op + length by omega) (by omega)
      rw [hrun, Option.bind_some]
      exact hdone hm' hj
    · obtain ⟨m', j, hrun, hm', hj⟩ := wildCopy32_spec hm hop
        (show op - offset = op - offset from rfl) (by omega) (by omega) (by omega)
        (show op + length + 31 ≤ e.oend by omega)
      rw [hrun, Option.bind_some]
      exact hdone hm' hj

/-- The eighteen bytes copied on behalf of a short match. -/
theorem quickCopy_spec (h : Filled N w m) (hop : op = w.length) (h8 : 8 ≤ offset)
    (hoff : offset ≤ w.length) (hfit : w.length + 18 ≤ N) :
    ∃ m₁ m₂ m₃, memcpy m op (op - offset) 8 = some m₁
      ∧ memcpy m₁ (op + 8) (op - offset + 8) 8 = some m₂
      ∧ memcpy m₂ (op + 16) (op - offset + 16) 2 = some m₃ ∧ Filled N (extend w offset 18) m₃ := by
  have hlen₁ : (extend w offset 8).length = w.length + 8 := length_extend _ _ _
  have hlen₂ : (extend w offset (8 + 8)).length = w.length + 16 := length_extend _ _ _
  obtain ⟨m₁, hm₁, h₁⟩ := h.memcpy (s := op - offset) (D := offset) (n := 8) hop (by omega) h8 hoff
    (by omega)
  obtain ⟨m₂, hm₂, h₂⟩ := h₁.memcpy (d := op + 8) (s := op - offset + 8) (D := offset) (n := 8)
    (by omega) (by omega) h8 (by omega) (by omega)
  rw [extend_extend] at h₂
  obtain ⟨m₃, hm₃, h₃⟩ := h₂.memcpy (d := op + 16) (s := op - offset + 16) (D := offset) (n := 2)
    (by omega) (by omega) (by omega) (by omega) (by omega)
  rw [extend_extend] at h₃
  exact ⟨m₁, m₂, m₃, hm₁, hm₂, hm₃, h₃⟩

theorem offset_lt (bs : Bytes) : LittleEndian.get (bs.take 2) < 65536 := by
  have hlt := LittleEndian.get_lt (bs.take 2)
  have hle : (bs.take 2).length ≤ 2 := by
    rw [List.length_take]
    omega
  exact lt_of_lt_of_le hlt (Nat.pow_le_pow_right (n := 256) (by decide) hle)

/-- The plain decoder's match, with the shortcut told apart. -/
theorem plainMatch_eq (ext : ℕ) (token : UInt8) (short : Prop) [Decidable short] (s : Plain) :
    plainMatch ext token short s
      = if short ∧ token.toNat % 16 ≠ mlMask ∧ 8 ≤ LittleEndian.get (s.rest.take 2)
            ∧ LittleEndian.get (s.rest.take 2) + ext ≤ s.win.length then
          .next ⟨s.rest.drop 2,
            extend s.win (LittleEndian.get (s.rest.take 2)) (token.toNat % 16 + minMatch),
            s.room - (token.toNat % 16 + minMatch)⟩
        else matchOf token (LittleEndian.get (s.rest.take 2)) (s.rest.drop 2) s.win s.room := by
  rw [plainMatch, matchOf]
  by_cases hml : token.toNat % 16 = mlMask
  · -- the length field goes on, so there is no shortcut
    rw [if_neg (by tauto)]
    rcases plainMatchLength token (s.rest.drop 2) with unread | ⟨n, rest'⟩
    · rfl
    · dsimp only
      rw [if_neg (by tauto), matched]
  · rw [plainMatchLength, if_neg hml]
    dsimp only
    rw [matched]

/-- With enough room the shortcut makes no difference. -/
theorem plainMatch_of_room {ext : ℕ} {short : Prop} [Decidable short] {s : Plain}
    (hroom : short → 23 ≤ s.room) :
    plainMatch ext token short s
      = matchOf token (LittleEndian.get (s.rest.take 2)) (s.rest.drop 2) s.win s.room := by
  have h5 : lastLiterals = 5 := rfl
  have h4 : minMatch = 4 := rfl
  have h15 : mlMask = 15 := rfl
  rw [plainMatch_eq]
  split_ifs with hq
  · obtain ⟨hshort, hml, -, hin⟩ := hq
    have hr := hroom hshort
    have hlt : token.toNat % 16 < 16 := Nat.mod_lt _ (by decide)
    rw [matchOf, plainMatchLength, if_neg hml]
    dsimp only
    rw [matched, if_neg (by omega)]
  · rfl

/-- The second half of a fast iteration. -/
theorem fastMatch_spec (hwf : e.Wf) (h : At e.src ip rest) (h3 : 3 ≤ rest.length)
    (hm : Filled e.oend w m) (hop : op = w.length) (hroom : w.length + room = e.oend)
    (hdst : e.dst ≤ w.length) (h32 : 32 ≤ room) :
    Sim e (fastMatch e token ip op m)
      (matchOf token (LittleEndian.get (rest.take 2)) (rest.drop 2) (e.dictionary ++ w) room) := by
  have h5 : lastLiterals = 5 := rfl
  have h64 : fastLoopSafeDistance = 64 := rfl
  have hmf : mfLimit = 12 := rfl
  have hmin4 : minMatch = 4 := rfl
  set offset := LittleEndian.get (rest.take 2) with hoffset
  have hoff : offset < 65536 := offset_lt rest
  have hat := h.advance (n := 2) (by omega)
  have hne : rest.drop 2 ≠ [] := by
    intro hnil
    have hlen := congrArg List.length hnil
    rw [List.length_drop, List.length_nil] at hlen
    omega
  -- the two ways to copy the match, by the distance to the end
  have hlong : ∀ length ip' rest', At e.src ip' rest' → rest' ≠ [] → minMatch ≤ length →
      Sim e (if op + length ≥ e.oend - fastLoopSafeDistance then
          safeMatchCopy e ip' op (op - offset) offset length m
        else fastCopy e ip' op (op - offset) offset length m)
        (matched rest' (e.dictionary ++ w) offset length room) := by
    intro length ip' rest' hat' hne' hmin
    split_ifs with hnear
    · exact safeMatchCopy_spec hwf hat' hne' hm hop hroom hdst hoff hmin (by omega)
    · exact fastCopy_spec hwf hat' hne' hm hop hroom hdst hoff hmin (by omega)
  have hsim := matchLength_spec token offset room (fun length ip => if op + length ≥ e.oend - fastLoopSafeDistance
        then safeMatchCopy e ip op (op - offset) offset length m
        else fastCopy e ip op (op - offset) offset length m)
    hat hne m (fun length ip' rest' hat' hne' hmin _ => hlong length ip' rest' hat' hne' hmin)
  rw [fastMatch, h.readLE16 (by omega), ← hoffset]
  simp only [Option.bind_eq_bind, Option.bind_some]
  by_cases hml : token.toNat % 16 = mlMask
  · rw [if_pos hml] at hsim ⊢
    rw [hml]
    exact hsim
  · rw [if_neg hml] at hsim ⊢
    by_cases hnear : op + (token.toNat % 16 + minMatch : ℕ) ≥ e.oend - fastLoopSafeDistance
    · rw [if_pos hnear] at hsim ⊢
      exact hsim
    · rw [if_neg hnear] at hsim ⊢
      rw [if_congr (and_congr (hwf.quick_iff hop hdst hoff) Iff.rfl) rfl rfl]
      split_ifs with hquick
      · obtain ⟨m₁, m₂, m₃, hm₁, hm₂, hm₃, h₃⟩ := quickCopy_spec hm hop hquick.2 hquick.1 (by omega)
        have hlt : token.toNat % 16 < 16 := Nat.mod_lt _ (by decide)
        have h15 : mlMask = 15 := rfl
        have hlen' : (extend w offset (token.toNat % 16 + minMatch)).length
            = w.length + (token.toNat % 16 + minMatch) := length_extend _ _ _
        have hop' : op + (token.toNat % 16 + minMatch : ℕ)
            = (extend w offset (token.toNat % 16 + minMatch)).length := by omega
        have hwin : extend (e.dictionary ++ w) offset (token.toNat % 16 + minMatch)
            = e.dictionary ++ extend w offset (token.toNat % 16 + minMatch) :=
          extend_append _ _ _ hquick.1
        rw [hm₁, Option.bind_some, hm₂, Option.bind_some, hm₃, Option.bind_some, matchOf,
          plainMatchLength, if_neg hml]
        dsimp only
        rw [matched, List.length_append, if_neg (by omega)]
        exact sim_next hat hne (h₃.mono (prefix_extend w offset (by omega))) hwin hop' (by omega)
          (by omega) (.inr (.intro rfl (by omega)))
      · exact hsim

/-! ## The literals of a sequence -/

/-- A literal length read by the code, and what the code does with it. -/
theorem litLength_spec (token : UInt8) (f : ℕ → ℤ → Option DecNext) (P : ℕ → Bytes → PlainNext)
    (h : At e.src ip rest) (m : Bytes)
    (hf : ∀ length ip' rest', At e.src ip' rest' → plainLitLength token rest = .ok (length, rest') →
      Sim e (f length ip') (P length rest')) :
    Sim e
      (if token.toNat / 16 = runMask then
        (readVariableLength e.src ip (e.iend - runMask) true).bind (fun r =>
          match r.1 with
          | none => some (outputError r.2 m)
          | some addl => f (runMask + addl) r.2)
      else f (token.toNat / 16) ip)
      (match plainLitLength token rest with
        | .error unread => .error unread
        | .ok (length, rest') => P length rest') := by
  have hlen := h.len
  have hpos := h.nonneg
  have h15 : runMask = 15 := rfl
  by_cases hrun : token.toNat / 16 = runMask
  · rw [if_pos hrun, readVariableLength]
    by_cases hshort : rest.length ≤ runMask
    · -- the check before the first byte
      have hplain : plainLitLength token rest = .error rest.length := by
        rw [plainLitLength, if_pos hrun, if_pos hshort]
      have hcheck : ip ≥ e.iend - runMask := by
        rw [DecEnv.iend]
        omega
      rw [if_pos ⟨rfl, hcheck⟩, hplain]
      exact sim_outputError h m
    · have hplain : plainLitLength token rest = plainLength runMask rest runMask := by
        rw [plainLitLength, if_pos hrun, if_neg hshort]
      have hne : rest ≠ [] := by
        rintro rfl
        exact hshort (Nat.zero_le _)
      have hloop := rvlLoop_spec (show 0 < runMask by decide) runMask 0 h hne
        (k := e.src.length) (by omega)
      have hcheck : ¬ ip ≥ e.iend - runMask := by
        rw [DecEnv.iend]
        omega
      rw [if_neg (fun hboth => hcheck hboth.2), hplain]
      rw [Nat.add_zero, show (e.src.length : ℤ) - runMask = e.iend - runMask from rfl] at hloop
      rcases hp : plainLength runMask rest runMask with unread | ⟨n, rest'⟩
      · rw [hp] at hloop
        obtain ⟨hread, hle⟩ := hloop
        rw [hread]
        exact ⟨m, by rw [Option.bind_some, outputError], hle⟩
      · rw [hp] at hloop
        obtain ⟨ip', hread, hacc, hat⟩ := hloop
        have hsim := hf n ip' rest' hat (by rw [hplain, hp])
        rw [hread, Option.bind_some]
        change Sim e (f (runMask + (n - runMask)) ip') _
        rw [Nat.add_sub_cancel' hacc]
        exact hsim
  · have hplain : plainLitLength token rest = .ok (token.toNat / 16, rest) := by
      rw [plainLitLength, if_neg hrun]
    rw [if_neg hrun, hplain]
    exact hf _ ip rest h hplain

/-- The literals of a token, once their length has been read, and the match behind them. -/
def litsOf (token : UInt8) (length : ℕ) (rest win : Bytes) (room : ℕ) : PlainNext :=
  if room < length + mfLimit ∨ rest.length < length + 8 then
    if rest.length = length ∧ length ≤ room then .done (win ++ rest) else .error rest.length
  else
    matchOf token (LittleEndian.get ((rest.drop length).take 2)) ((rest.drop length).drop 2)
      (win ++ rest.take length) (room - length)

/-- `safe_literal_copy` -/
theorem safeLiteralCopy_spec (hwf : e.Wf) (h : At e.src ip rest) (hm : Filled e.oend w m)
    (hop : op = w.length) (hroom : w.length + room = e.oend) (hdst : e.dst ≤ w.length) :
    Sim e (safeLiteralCopy e token ip op length m)
      (litsOf token length rest (e.dictionary ++ w) room) := by
  have h5 : lastLiterals = 5 := rfl
  have hmf : mfLimit = 12 := rfl
  have hlen := h.len
  have hpos := h.nonneg
  have hiend : e.iend = e.src.length := rfl
  rw [safeLiteralCopy, litsOf]
  by_cases hlast : room < length + mfLimit ∨ rest.length < length + 8
  · rw [if_pos (by omega), if_pos hlast]
    by_cases hend : rest.length = length ∧ length ≤ room
    · rw [if_neg (by omega), if_pos hend]
      obtain ⟨m₁, hm₁, h₁⟩ := h.copyFrom (n := length) hm hop (by omega) (by omega)
      rw [List.take_of_length_le (by omega)] at h₁
      have hboth : (w ++ rest).length = w.length + rest.length := List.length_append
      refine ⟨w ++ rest, m₁, ?_, h₁, List.append_assoc _ _ _, by omega⟩
      simp only [hm₁, Option.bind_eq_bind, Option.bind_some, Option.some.injEq, DecNext.ret.injEq,
        and_true]
      omega
    · rw [if_pos (by omega), if_neg hend]
      exact sim_outputError h m
  · rw [if_neg (by omega), if_neg hlast]
    have hfuel := hm.len
    obtain ⟨m₁, j, hm₁, h₁, hj, hjle⟩ := hm.wildCopyFrom (chunkFrom_copyFrom e.src e.oend 8)
      (d := op) (s := ip) (e := op + length) (i := ip.toNat) (k := m.length + 1) hop (by omega)
      (by omega) (by omega) (by omega) (by omega) (by omega) (by omega) (by omega)
    rw [h.drop] at h₁
    have hcut : Filled e.oend (w ++ rest.take length) m₁ := by
      refine h₁.mono ((List.prefix_append_right_inj w).mpr ?_)
      rw [← Nat.min_eq_left (show length ≤ j by omega), ← List.take_take]
      exact List.take_prefix _ _
    have hw : (w ++ rest.take length).length = w.length + length := by
      rw [List.length_append, List.length_take]
      omega
    have hat := h.advance (n := length) (by omega)
    have hdrop : (rest.drop length).length = rest.length - length := List.length_drop
    have hat' : At e.src (ip + length + 2) ((rest.drop length).drop 2) :=
      hat.advance (n := 2) (by omega)
    have hne : (rest.drop length).drop 2 ≠ [] := by
      intro hnil
      have hzero := congrArg List.length hnil
      rw [List.length_drop, List.length_nil] at hzero
      omega
    have hrun : wildCopy8From e.src m op ip (op + length) = some m₁ := hm₁
    simp only [hrun, hat.readLE16 (by omega), Option.bind_eq_bind, Option.bind_some]
    have hop' : op + length = (w ++ rest.take length).length := by omega
    have hroom' : (w ++ rest.take length).length + (room - length) = e.oend := by omega
    rw [List.append_assoc]
    exact copyMatch_spec hwf hat' hne hcut hop' hroom' (by omega) (offset_lt _) (by omega)

/-! ## The loops -/

/-- A plain step on a token whose literals do not pass for a short sequence. -/
theorem plainStep_long {ext : ℕ} {rest₁ win : Bytes}
    (hshort : ¬ (token.toNat / 16 ≠ runMask ∧ 17 ≤ rest₁.length ∧ 32 ≤ room)) :
    plainStep ext ⟨token :: rest₁, win, room⟩
      = match plainLitLength token rest₁ with
        | .error unread => .error unread
        | .ok (length, rest') => litsOf token length rest' win room := by
  rw [plainStep]
  dsimp only
  rcases plainLitLength token rest₁ with unread | ⟨length, rest'⟩
  · rfl
  · dsimp only
    rw [litsOf]
    by_cases hlast : room < length + mfLimit ∨ rest'.length < length + 8
    · rw [if_pos ⟨hshort, hlast⟩, if_pos hlast]
    · rw [if_neg (fun hboth => hlast hboth.2), if_neg hlast]
      exact plainMatch_of_room (fun hs => absurd hs hshort)

/-- A plain step on a token whose literals pass for a short sequence. -/
theorem plainStep_short {ext : ℕ} {rest₁ win : Bytes}
    (hshort : token.toNat / 16 ≠ runMask ∧ 17 ≤ rest₁.length ∧ 32 ≤ room) :
    plainStep ext ⟨token :: rest₁, win, room⟩
      = plainMatch ext token (token.toNat / 16 ≠ runMask ∧ 17 ≤ rest₁.length ∧ 32 ≤ room)
          ⟨rest₁.drop (token.toNat / 16), win ++ rest₁.take (token.toNat / 16),
            room - token.toNat / 16⟩ := by
  have hlit : plainLitLength token rest₁ = .ok (token.toNat / 16, rest₁) := by
    rw [plainLitLength, if_neg hshort.1]
  rw [plainStep]
  dsimp only
  rw [hlit]
  dsimp only
  rw [if_neg (fun hboth => hboth.1 hshort)]

/-- Sixteen bytes copied on behalf of short literals. -/
theorem shortLiterals (length : ℕ) (h : At e.src ip rest) (hm : Filled e.oend w m) (hop : op = w.length)
    (h16 : 16 ≤ rest.length) (hfit : w.length + 16 ≤ e.oend) (hn : length ≤ 16) :
    ∃ m', copyFrom e.src m op ip 16 = some m' ∧ Filled e.oend (w ++ rest.take length) m'
      ∧ (w ++ rest.take length).length = w.length + length := by
  obtain ⟨m', hm', h'⟩ := h.copyFrom hm hop h16 hfit
  refine ⟨m', hm', ?_, ?_⟩
  · refine h'.mono ((List.prefix_append_right_inj w).mpr ?_)
    rw [← Nat.min_eq_left hn, ← List.take_take]
    exact List.take_prefix _ _
  · rw [List.length_append, List.length_take]
    omega

/-- **One iteration of the safe loop.** -/
theorem safeStep_spec (hwf : e.Wf) {s : DecState} {p : Plain} (h : Rel e s p) :
    Sim e (safeStep e s) (plainStep e.dictionary.length p) := by
  obtain ⟨ip, op, m⟩ := s
  obtain ⟨rest, win, room⟩ := p
  obtain ⟨hat, hne, w, hm, hwin, hop, hroom, hdst⟩ := h
  dsimp only at hat hne hm hwin hop hroom
  obtain ⟨token, rest₁, rfl⟩ := List.exists_cons_of_ne_nil hne
  subst hwin
  have hat₁ := hat.tail
  have hlen := hat₁.len
  have hiend : e.iend = e.src.length := rfl
  have h15 : runMask = 15 := rfl
  have htoken : token.toNat / 16 < 16 := Nat.div_lt_of_lt_mul token.toNat_lt
  rw [safeStep, hat.readByte]
  simp only [Option.bind_eq_bind, Option.bind_some]
  by_cases hshort : token.toNat / 16 ≠ runMask ∧ 17 ≤ rest₁.length ∧ 32 ≤ room
  · -- the shortcut
    rw [if_pos (by omega), plainStep_short hshort]
    set n := token.toNat / 16 with hn
    obtain ⟨m₁, hm₁, h₁, hw⟩ := shortLiterals n hat₁ hm hop (by omega) (by omega)
      (by omega)
    set w₁ := w ++ rest₁.take n with hw₁
    have hat₂ := hat₁.advance (n := n) (by omega)
    have hdrop : (rest₁.drop n).length = rest₁.length - n := List.length_drop
    have hat₃ : At e.src (ip + 1 + n + 2) ((rest₁.drop n).drop 2) := hat₂.advance (n := 2) (by omega)
    have hne₃ : (rest₁.drop n).drop 2 ≠ [] := by
      intro hnil
      have hzero := congrArg List.length hnil
      rw [List.length_drop, List.length_nil] at hzero
      omega
    have hop' : op + n = w₁.length := by omega
    have hroom' : w₁.length + (room - n) = e.oend := by omega
    have hboth : (e.dictionary ++ w₁).length = e.dictionary.length + w₁.length := List.length_append
    have hoff := offset_lt (rest₁.drop n)
    have hmf : mfLimit = 12 := rfl
    have h4 : minMatch = 4 := rfl
    have hml : mlMask = 15 := rfl
    rw [hm₁, Option.bind_some, hat₂.readLE16 (by omega), Option.bind_some, plainMatch_eq]
    dsimp only
    set offset := LittleEndian.get ((rest₁.drop n).take 2) with hoffset
    rw [if_congr (and_congr Iff.rfl (and_congr Iff.rfl (hwf.quick_iff hop' (by omega) hoff))) rfl rfl,
      List.append_assoc, ← hw₁]
    by_cases hquick : token.toNat % 16 ≠ mlMask ∧ offset ≥ 8 ∧ offset ≤ w₁.length
    · obtain ⟨hnot, h8, hin⟩ := hquick
      rw [if_pos ⟨hnot, h8, hin⟩, if_pos (by exact ⟨hshort, hnot, h8, by omega⟩)]
      obtain ⟨m₂, m₃, m₄, hm₂, hm₃, hm₄, h₄⟩ := quickCopy_spec h₁ hop' h8 hin (by omega)
      have hlt : token.toNat % 16 < 16 := Nat.mod_lt _ (by decide)
      have hlen' : (extend w₁ offset (token.toNat % 16 + minMatch)).length
          = w₁.length + (token.toNat % 16 + minMatch) := length_extend _ _ _
      have hop'' : op + n + (token.toNat % 16 : ℕ) + minMatch
          = (extend w₁ offset (token.toNat % 16 + minMatch)).length := by omega
      rw [hm₂, Option.bind_some, hm₃, Option.bind_some, hm₄, Option.bind_some]
      exact sim_next hat₃ hne₃ (h₄.mono (prefix_extend _ offset (by omega)))
        (extend_append _ _ _ hin) hop'' (by omega) (by omega) (.inl rfl)
    · rw [if_neg hquick, if_neg (by rintro ⟨-, h1, h2, h3⟩; exact hquick ⟨h1, h2, by omega⟩)]
      exact copyMatch_spec hwf hat₃ hne₃ h₁ hop' hroom' (by omega) hoff (by omega)
  · rw [if_neg (by omega), plainStep_long hshort]
    have hsim := litLength_spec token (fun length ip => safeLiteralCopy e token ip op length m)
      (fun length rest' => litsOf token length rest' (e.dictionary ++ w) room) hat₁ m
      (fun length ip' rest' hat' _ => safeLiteralCopy_spec hwf hat' hm hop hroom hdst)
    by_cases hrun : token.toNat / 16 = runMask
    · rw [if_pos hrun] at hsim ⊢
      rw [hrun]
      exact hsim
    · rw [if_neg hrun] at hsim ⊢
      exact hsim

/-- **One iteration of the fast loop.** -/
theorem fastStep_spec (hwf : e.Wf) {s : DecState} {p : Plain} (h : Rel e s p)
    (hfar : fastLoopSafeDistance ≤ p.room) :
    Sim e (fastStep e s) (plainStep e.dictionary.length p) := by
  obtain ⟨ip, op, m⟩ := s
  obtain ⟨rest, win, room⟩ := p
  obtain ⟨hat, hne, w, hm, hwin, hop, hroom, hdst⟩ := h
  dsimp only at hat hne hm hwin hop hroom hfar
  obtain ⟨token, rest₁, rfl⟩ := List.exists_cons_of_ne_nil hne
  subst hwin
  have hat₁ := hat.tail
  have hlen₁ := hat₁.len
  have hiend : e.iend = e.src.length := rfl
  have h15 : runMask = 15 := rfl
  have h64 : fastLoopSafeDistance = 64 := rfl
  have hmf : mfLimit = 12 := rfl
  have htoken : token.toNat / 16 < 16 := Nat.div_lt_of_lt_mul token.toNat_lt
  rw [fastStep, hat.readByte]
  simp only [Option.bind_eq_bind, Option.bind_some]
  by_cases hrun : token.toNat / 16 = runMask
  · rw [if_pos hrun, plainStep_long (fun hs => hs.1 hrun)]
    have hsim := litLength_spec token
      (fun length ip => if op + length > e.oend - 32 ∨ ip + length > e.iend - 32 then
          safeLiteralCopy e token ip op length m
        else (wildCopy32From e.src m op ip (op + length)).bind
          (fun m => fastMatch e token (ip + length) (op + length) m))
      (fun length rest' => litsOf token length rest' (e.dictionary ++ w) room) hat₁ m ?_
    · rw [if_pos hrun] at hsim
      rw [hrun]
      exact hsim
    · intro length ip' rest' hat' _
      have hlen' := hat'.len
      have hpos' := hat'.nonneg
      split_ifs with hnear
      · exact safeLiteralCopy_spec hwf hat' hm hop hroom hdst
      · -- far from either end, the literals are copied 32 at a time
        have hfuel := hm.len
        obtain ⟨m₁, j, hm₁, h₁, hj, hjle⟩ := hm.wildCopyFrom
          (chunkFrom_copyFrom e.src e.oend 16).twice (d := op) (s := ip') (e := op + length)
          (i := ip'.toNat) (k := m.length + 1) hop (by omega) (by omega) (by omega) (by omega)
          (by omega) (by omega) (by omega) (by omega)
        rw [hat'.drop] at h₁
        have hcut : Filled e.oend (w ++ rest'.take length) m₁ := by
          refine h₁.mono ((List.prefix_append_right_inj w).mpr ?_)
          rw [← Nat.min_eq_left (show length ≤ j by omega), ← List.take_take]
          exact List.take_prefix _ _
        have hw : (w ++ rest'.take length).length = w.length + length := by
          rw [List.length_append, List.length_take]
          omega
        have hcopy : wildCopy32From e.src m op ip' (op + length) = some m₁ := hm₁
        have hdrop : (rest'.drop length).length = rest'.length - length := List.length_drop
        have hop' : op + length = (w ++ rest'.take length).length := by omega
        have hroom' : (w ++ rest'.take length).length + (room - length) = e.oend := by omega
        rw [hcopy, Option.bind_some, litsOf, if_neg (by omega), List.append_assoc]
        exact fastMatch_spec hwf (hat'.advance (by omega)) (by omega) hcut hop' hroom' (by omega)
          (by omega)
  · rw [if_neg hrun]
    by_cases h17 : ip + 1 ≤ e.iend - (16 + 1)
    · have hshort : token.toNat / 16 ≠ runMask ∧ 17 ≤ rest₁.length ∧ 32 ≤ room :=
        ⟨hrun, by omega, by omega⟩
      rw [if_pos h17, plainStep_short hshort]
      set n := token.toNat / 16 with hn
      obtain ⟨m₁, hm₁, h₁, hw⟩ := shortLiterals n hat₁ hm hop (by omega) (by omega)
        (by omega)
      have hdrop : (rest₁.drop n).length = rest₁.length - n := List.length_drop
      have hop' : op + n = (w ++ rest₁.take n).length := by omega
      have hroom' : (w ++ rest₁.take n).length + (room - n) = e.oend := by omega
      rw [hm₁, Option.bind_some, plainMatch_of_room (fun _ => by dsimp only; omega),
        List.append_assoc]
      dsimp only
      exact fastMatch_spec hwf (hat₁.advance (by omega)) (by omega) h₁ hop' hroom' (by omega)
        (by omega)
    · have hplain : plainLitLength token rest₁ = .ok (token.toNat / 16, rest₁) := by
        rw [plainLitLength, if_neg hrun]
      rw [if_neg h17, plainStep_long (by omega), hplain]
      exact safeLiteralCopy_spec hwf hat₁ hm hop hroom hdst

/-! ## The whole function -/

theorem plainLength_le {lim acc n : ℕ} {rest rest' : Bytes}
    (h : plainLength lim rest acc = .ok (n, rest')) : rest'.length ≤ rest.length := by
  induction rest generalizing acc with
  | nil => cases h
  | cons b rest ih =>
      rw [plainLength] at h
      rw [List.length_cons]
      split_ifs at h with hshort h255
      · exact Nat.le_succ_of_le (ih h)
      · simp only [Except.ok.injEq, Prod.mk.injEq] at h
        rw [← h.2]
        exact Nat.le_succ _

theorem plainLitLength_le {n : ℕ} {rest' : Bytes}
    (h : plainLitLength token rest = .ok (n, rest')) : rest'.length ≤ rest.length := by
  rw [plainLitLength] at h
  split_ifs at h with hrun hshort
  · exact plainLength_le h
  · simp only [Except.ok.injEq, Prod.mk.injEq] at h
    rw [h.2]

theorem plainMatchLength_le {n : ℕ} {rest' : Bytes}
    (h : plainMatchLength token rest = .ok (n, rest')) : rest'.length ≤ rest.length := by
  rw [plainMatchLength] at h
  split_ifs at h with hml
  · rcases hp : plainLength (lastLiterals - 1) rest mlMask with u | ⟨k, rest₂⟩
    · rw [hp] at h
      cases h
    · rw [hp] at h
      simp only [Except.map, Except.ok.injEq, Prod.mk.injEq] at h
      rw [← h.2]
      exact plainLength_le hp
  · simp only [Except.ok.injEq, Prod.mk.injEq] at h
    rw [h.2]

/-- Every sequence takes at least its token from the input. -/
theorem plainStep_shrinks {ext : ℕ} {p p' : Plain} (h : plainStep ext p = .next p') :
    p'.rest.length < p.rest.length := by
  obtain ⟨rest, win, room⟩ := p
  rw [plainStep] at h
  rcases rest with _ | ⟨token, rest₁⟩
  · cases h
  dsimp only at h
  rcases hlit : plainLitLength token rest₁ with unread | ⟨n, rest⟩
  · rw [hlit] at h
    cases h
  rw [hlit] at h
  have hle := plainLitLength_le hlit
  dsimp only at h ⊢
  split_ifs at h with hlast hdone
  rw [plainMatch] at h
  dsimp only at h
  rcases hml : plainMatchLength token ((rest.drop n).drop 2) with unread | ⟨k, rest'⟩
  · rw [hml] at h
    cases h
  rw [hml] at h
  have hle' := plainMatchLength_le hml
  rw [List.length_drop, List.length_drop] at hle'
  dsimp only at h
  rw [List.length_cons]
  split_ifs at h with hq hout
  · simp only [PlainNext.next.injEq] at h
    rw [← h]
    dsimp only
    omega
  · simp only [PlainNext.next.injEq] at h
    rw [← h]
    dsimp only
    omega

/-- What the function returns against what the plain decoder comes to. -/
def Final (e : DecEnv) (r : Option (ℤ × Bytes)) : Except ℕ Bytes → Prop
  | .ok win => ∃ w mem, r = some ((w.length : ℤ) - e.dst, mem) ∧ Filled e.oend w mem
      ∧ win = e.dictionary ++ w ∧ e.dst ≤ w.length
  | .error unread => ∃ mem, r = some (-((e.src.length : ℤ) - unread) - 1, mem)
      ∧ unread ≤ e.src.length

/-- **The loops**, by induction on the input that is left. -/
theorem decodeLoop_spec (hwf : e.Wf) {p : Plain} {k : ℕ} (hk : p.rest.length ≤ k) {s : DecState}
    (h : Rel e s p) {next : DecNext}
    (hnext : next = .safe s ∨ next = .fast s ∧ fastLoopSafeDistance ≤ p.room) :
    Final e (decodeLoop e k next) (plainLoop e.dictionary.length k (.next p)) := by
  induction k generalizing p s next with
  | zero =>
      rw [Nat.le_zero, List.length_eq_zero_iff] at hk
      exact absurd hk h.ne
  | succ k ih =>
      rw [plainLoop]
      obtain ⟨r, hr, hsim⟩ : ∃ r, decodeLoop e (k + 1) next = r.bind (decodeLoop e k)
          ∧ Sim e r (plainStep e.dictionary.length p) := by
        rcases hnext with rfl | ⟨rfl, hfar⟩
        · exact ⟨safeStep e s, by rw [decodeLoop], safeStep_spec hwf h⟩
        · exact ⟨fastStep e s, by rw [decodeLoop], fastStep_spec hwf h hfar⟩
      rw [hr]
      rcases hstep : plainStep e.dictionary.length p with p' | win | unread
      · rw [hstep] at hsim
        obtain ⟨s', hs', hrel⟩ := hsim
        have hlt := plainStep_shrinks hstep
        rcases hs' with rfl | ⟨rfl, hfar⟩
        · exact ih (by omega) hrel (.inl rfl)
        · exact ih (by omega) hrel (.inr ⟨rfl, hfar⟩)
      · rw [hstep] at hsim
        obtain ⟨w, mem, rfl, hm, hwin, hdst⟩ := hsim
        rw [Option.bind_some, decodeLoop, plainLoop]
        exact ⟨w, mem, rfl, hm, hwin, hdst⟩
      · rw [hstep] at hsim
        obtain ⟨mem, rfl, hle⟩ := hsim
        rw [Option.bind_some, decodeLoop, plainLoop]
        exact ⟨mem, rfl, hle⟩

/-- **`LZ4_decompress_generic` computes the plain decoder**, whichever of its loops are
compiled in and wherever the history lies, and makes no undefined access on any input. -/
theorem decompressGeneric_spec (hwf : e.Wf) {mem : Bytes} (hmem : mem.length = e.oend) :
    ∃ r, decompressGeneric e mem = some r
      ∧ (if r.1 < 0 then .error r.1 else .ok ((r.2.drop e.dst).take r.1.toNat))
        = plainDecode e.dictionary.length (e.dictionary ++ mem.take e.dst) e.src
            (e.oend - e.dst) := by
  have hle := hwf.le
  rw [decompressGeneric, plainDecode]
  by_cases hnil : e.src = []
  · rw [if_pos hnil, if_pos hnil]
    exact ⟨_, rfl, by simp⟩
  rw [if_neg hnil, if_neg hnil]
  by_cases hcap : e.oend = e.dst
  · rw [if_pos hcap, if_pos (show e.oend - e.dst = 0 by omega)]
    refine ⟨_, rfl, ?_⟩
    by_cases hzero : e.src = [0]
    · simp [hzero]
    · simp [hzero]
  rw [if_neg hcap, if_neg (show ¬ e.oend - e.dst = 0 by omega)]
  have hlen : (mem.take e.dst).length = e.dst := by
    rw [List.length_take]
    omega
  have hrel : Rel e ⟨0, e.dst, mem⟩ ⟨e.src, e.dictionary ++ mem.take e.dst, e.oend - e.dst⟩ := by
    refine ⟨at_zero e.src, hnil, mem.take e.dst, ⟨hmem, List.take_prefix _ _⟩, rfl, ?_, ?_, ?_⟩
    · rw [hlen]
    · rw [hlen]
      dsimp only
      omega
    · rw [hlen]
  have hfinal : Final e
      (if e.fastDecLoop = true ∧ e.oend - e.dst ≥ fastLoopSafeDistance then
        decodeLoop e e.src.length (.fast ⟨0, e.dst, mem⟩)
      else decodeLoop e e.src.length (.safe ⟨0, e.dst, mem⟩))
      (plainLoop e.dictionary.length e.src.length
        (.next ⟨e.src, e.dictionary ++ mem.take e.dst, e.oend - e.dst⟩)) := by
    split_ifs with hfast
    · exact decodeLoop_spec hwf (le_refl _) hrel (.inr ⟨rfl, hfast.2⟩)
    · exact decodeLoop_spec hwf (le_refl _) hrel (.inl rfl)
  rcases hplain : plainLoop e.dictionary.length e.src.length
      (.next ⟨e.src, e.dictionary ++ mem.take e.dst, e.oend - e.dst⟩) with unread | win
  · rw [hplain] at hfinal
    obtain ⟨mem', hrun, hunread⟩ := hfinal
    rw [hrun]
    refine ⟨_, rfl, ?_⟩
    rw [if_pos (by dsimp only; omega)]
  · rw [hplain] at hfinal
    obtain ⟨w, mem', hrun, hm, rfl, hdst⟩ := hfinal
    rw [hrun]
    refine ⟨_, rfl, ?_⟩
    have hw : ((w.length : ℤ) - e.dst).toNat = w.length - e.dst := by omega
    have hpre : mem'.take w.length = w := hm.take
    rw [if_neg (by dsimp only; omega)]
    dsimp only
    rw [hw, List.length_append, hlen, ← List.drop_drop, List.drop_left, ← hpre, List.drop_take]
    rw [hpre]

end Plz4.Lz4
