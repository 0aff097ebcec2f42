/-
The 32-bit xxHash with seed 0 of `xxh32zero.go`: the streaming `XXHZero` and the
one-shot `checksumZeroGo`, and that the two agree.

The two are separate code in the source. Both absorb 16-byte stripes into four
lanes; the streaming one carries up to 15 bytes over in a buffer, starts its
lanes on the first write and runs a loop unrolled to 256 bytes. `Hashes D x` says
that `x` has taken in `D`; it survives every `Write` and determines `Sum32`.
-/
import Plz4.Lib.LittleEndian
import Plz4.Lib.Slice
import Plz4.Io

set_option autoImplicit false

namespace Plz4.Xxh32

open LittleEndian CopyAt

/-! ## The arithmetic -/

def prime1 : UInt32 := 2654435761
def prime2 : UInt32 := 2246822519
def prime3 : UInt32 := 3266489917
def prime4 : UInt32 := 668265263
def prime5 : UInt32 := 374761393

/-- `prime1 + prime2` and `-prime1`, the first and last lane at the start, by the
values the source notes beside them: a difference of word constants is dear to
the kernel. -/
def prime1plus2 : UInt32 := 606290984
def prime1minus : UInt32 := 1640531535

example : prime1plus2 = prime1 + prime2 ∧ prime1minus = 0 - prime1 := by decide

/-- Rotation left by `k` bits. -/
def rol (k u : UInt32) : UInt32 := u <<< k ||| u >>> (32 - k)

def rol1 : UInt32 → UInt32 := rol 1
def rol7 : UInt32 → UInt32 := rol 7
def rol11 : UInt32 → UInt32 := rol 11
def rol12 : UInt32 → UInt32 := rol 12
def rol13 : UInt32 → UInt32 := rol 13
def rol17 : UInt32 → UInt32 := rol 17
def rol18 : UInt32 → UInt32 := rol 18

/-- The four lanes `v[0..3]`. -/
structure Lanes where
  v1 : UInt32
  v2 : UInt32
  v3 : UInt32
  v4 : UInt32
  deriving DecidableEq, Repr

/-- The lanes a hash starts from. -/
def Lanes.init : Lanes := ⟨prime1plus2, prime2, 0, prime1minus⟩

/-- One stripe: the first 16 bytes of `sub` go into the four lanes. -/
def Lanes.round (v : Lanes) (sub : Bytes) : Lanes where
  v1 := rol13 (v.v1 + getU32 sub * prime2) * prime1
  v2 := rol13 (v.v2 + getU32 (sub.drop 4) * prime2) * prime1
  v3 := rol13 (v.v3 + getU32 (sub.drop 8) * prime2) * prime1
  v4 := rol13 (v.v4 + getU32 (sub.drop 12) * prime2) * prime1

/-- `k` passes of the loop over 16-byte stripes. -/
def Lanes.absorbN : ℕ → Lanes → Bytes → Lanes
  | 0, v, _ => v
  | k + 1, v, input => Lanes.absorbN k (v.round (input.take 16)) (input.drop 16)

/-- The loop `for ; len(input) >= 16; input = input[16:]`. -/
def Lanes.absorb (v : Lanes) (input : Bytes) : Lanes := Lanes.absorbN (input.length / 16) v input

/-- The body of the unrolled loop: sixteen stripes of the 256 bytes at hand. -/
def Lanes.unrolled (v : Lanes) (sub : Bytes) : Lanes :=
  (List.range 16).foldl (fun v j => v.round (sub.drop (16 * j))) v

/-- `k` passes of the unrolled loop. -/
def Lanes.absorb256 : ℕ → Lanes → Bytes → Lanes
  | 0, v, _ => v
  | k + 1, v, input => Lanes.absorb256 k (v.unrolled (input.take 256)) (input.drop 256)

/-- `updateGo`: the carried buffer if there is one, then all full stripes of the
input, in strides of 256 bytes while more than 256 are there. -/
def updateGo (v : Lanes) (buf : Option Bytes) (input : Bytes) : Lanes :=
  let v := buf.elim v (fun b => v.round b)
  if input.length > 256 then
    let k := input.length / 256
    (Lanes.absorb256 k v input).absorb (input.drop (256 * k))
  else v.absorb input

/-- The last bytes by fours: `k` passes. -/
def tailWords : ℕ → UInt32 → Bytes → UInt32
  | 0, h, _ => h
  | k + 1, h, bs => tailWords k (rol17 (h + getU32 bs * prime3) * prime4) (bs.drop 4)

/-- The last bytes one by one. -/
def tailBytes (h : UInt32) (bs : Bytes) : UInt32 :=
  bs.foldl (fun h b => rol11 (h + UInt32.ofNat b.toNat * prime5) * prime1) h

/-- The bytes behind the last stripe and the final mixing, which both versions end
with. -/
def finish (h : UInt32) (bs : Bytes) : UInt32 :=
  let h := tailBytes (tailWords (bs.length / 4) h bs) (bs.drop (4 * (bs.length / 4)))
  let h := h ^^^ (h >>> 15)
  let h := h * prime2
  let h := h ^^^ (h >>> 13)
  let h := h * prime3
  h ^^^ (h >>> 16)

/-- How the lanes enter the result. -/
def Lanes.merge (v : Lanes) : UInt32 := rol1 v.v1 + rol7 v.v2 + rol12 v.v3 + rol18 v.v4

/-! ## One shot -/

/-- `checksumZeroGo`, which `ChecksumZero` is. -/
def checksumZero (input : Bytes) : UInt32 :=
  let n := input.length
  if n < 16 then finish (UInt32.ofNat n + prime5) input
  else
    finish (UInt32.ofNat n + (Lanes.absorbN (n / 16) .init input).merge)
      (input.drop (16 * (n / 16)))

/-! ## Streaming -/

/-- `XXHZero`. -/
structure XXHZero where
  v : Lanes
  totalLen : UInt64
  buf : Bytes
  bufused : ℕ
  deriving DecidableEq, Repr

/-- The zero value. -/
def XXHZero.zero : XXHZero := ⟨⟨0, 0, 0, 0⟩, 0, List.replicate 16 0, 0⟩

/-- `Reset`. -/
def XXHZero.reset (x : XXHZero) : XXHZero := { x with v := .init, totalLen := 0, bufused := 0 }

/-- `Write`. -/
def XXHZero.write (x : XXHZero) (input : Bytes) : XXHZero :=
  let x := if x.totalLen = 0 then x.reset else x
  let n := input.length
  let m := x.bufused
  let totalLen := x.totalLen + UInt64.ofNat n
  let r := x.buf.length - m
  if n < r then
    { x with totalLen := totalLen, buf := copyAt x.buf m input, bufused := x.bufused + n }
  else
    let buf := if m ≠ 0 then copyAt x.buf m input else x.buf
    let carried := if m ≠ 0 then some buf else none
    let input := if m ≠ 0 then input.drop (copyLen x.buf m input) else input
    let rest := input.drop (input.length - input.length % 16)
    { v := updateGo x.v carried input
      totalLen := totalLen
      buf := copyAt buf 0 rest
      bufused := copyLen buf 0 rest }

/-- `Sum32`. -/
def XXHZero.sum32 (x : XXHZero) : UInt32 :=
  let h := UInt32.ofNat x.totalLen.toNat
  let h := if h ≥ 16 ∨ x.totalLen ≥ 0x100000000 then h + x.v.merge else h + prime5
  finish h (x.buf.take x.bufused)

/-- The hash after writing a list of pieces one after the other. -/
def hashAll (pieces : List Bytes) : XXHZero := pieces.foldl XXHZero.write .zero

theorem hashAll_concat (pieces : List Bytes) (p : Bytes) :
    hashAll (pieces ++ [p]) = (hashAll pieces).write p := by
  rw [hashAll, List.foldl_append]
  rfl

/-! ## Absorbing stripes -/

@[simp] theorem Lanes.absorb_nil (v : Lanes) : v.absorb [] = v := by
  rw [Lanes.absorb, List.length_nil, Nat.zero_div, Lanes.absorbN]

theorem Lanes.absorbN_add (a b : ℕ) (v : Lanes) (input : Bytes) :
    Lanes.absorbN (a + b) v input = Lanes.absorbN b (Lanes.absorbN a v input) (input.drop (16 * a)) := by
  induction a generalizing v input with
  | zero => simp [Lanes.absorbN]
  | succ a ih =>
      have hadd : a + 1 + b = (a + b) + 1 := by omega
      have hidx : 16 + 16 * a = 16 * (a + 1) := by omega
      rw [hadd, Lanes.absorbN, Lanes.absorbN, ih, List.drop_drop, hidx]

/-- Only the stripes that are read matter. -/
theorem Lanes.absorbN_append (k : ℕ) (v : Lanes) (xs ys : Bytes) (h : 16 * k ≤ xs.length) :
    Lanes.absorbN k v (xs ++ ys) = Lanes.absorbN k v xs := by
  induction k generalizing v xs with
  | zero => rfl
  | succ k ih =>
      have hdrop : 16 * k ≤ (xs.drop 16).length := by
        rw [List.length_drop]
        omega
      rw [Lanes.absorbN, Lanes.absorbN, List.take_append_of_le_length (by omega),
        List.drop_append_of_le_length (by omega), ih _ _ hdrop]

/-- Whole stripes in front are absorbed first. -/
theorem Lanes.absorb_append (v : Lanes) {xs : Bytes} (ys : Bytes) (h : xs.length % 16 = 0) :
    v.absorb (xs ++ ys) = (v.absorb xs).absorb ys := by
  have hdiv : (xs ++ ys).length / 16 = xs.length / 16 + ys.length / 16 := by
    rw [List.length_append]
    omega
  have hidx : 16 * (xs.length / 16) = xs.length := by omega
  rw [Lanes.absorb, hdiv, Lanes.absorbN_add, Lanes.absorbN_append _ _ _ _ (by omega), hidx,
    List.drop_left]
  rfl

/-- A stripe reads 16 bytes. -/
theorem Lanes.round_take (v : Lanes) (sub : Bytes) (n : ℕ) (hn : 16 ≤ n) :
    v.round (sub.take n) = v.round sub := by
  have hget : ∀ k, k ≤ 12 → getU32 ((sub.take n).drop k) = getU32 (sub.drop k) := by
    intro k hk
    rw [getU32, getU32, List.drop_take, List.take_take, Nat.min_eq_left (by omega)]
  have h0 := hget 0 (by omega)
  simp only [List.drop_zero] at h0
  rw [Lanes.round, Lanes.round, h0, hget 4 (by omega), hget 8 (by omega), hget 12 (by omega)]

/-- Unrolling `k` stripes is absorbing `k` stripes. -/
theorem Lanes.foldl_round (k : ℕ) (v : Lanes) (sub : Bytes) :
    (List.range k).foldl (fun v j => v.round (sub.drop (16 * j))) v = Lanes.absorbN k v sub := by
  induction k with
  | zero => rfl
  | succ k ih =>
      rw [List.range_succ, List.foldl_append, ih, Lanes.absorbN_add]
      simp only [List.foldl_cons, List.foldl_nil, Lanes.absorbN]
      rw [Lanes.round_take _ _ _ (Nat.le_refl 16)]

theorem Lanes.absorb256_eq (k : ℕ) (v : Lanes) (input : Bytes) (h : 256 * k ≤ input.length) :
    Lanes.absorb256 k v input = Lanes.absorbN (16 * k) v input := by
  induction k generalizing v input with
  | zero => rfl
  | succ k ih =>
      have hlen : (input.take 256).length = 256 := by
        rw [List.length_take]
        omega
      have hstep : v.unrolled (input.take 256) = Lanes.absorbN 16 v input := by
        rw [Lanes.unrolled, Lanes.foldl_round, ← List.take_append_drop 256 input,
          Lanes.absorbN_append _ _ _ _ (by rw [hlen]), List.take_left' hlen]
      have hidx : 16 * (k + 1) = 16 + 16 * k := by omega
      rw [Lanes.absorb256, hstep, ih _ _ (by rw [List.length_drop]; omega), hidx,
        Lanes.absorbN_add]

/-- How `updateGo` strides over the input does not matter. -/
theorem updateGo_plain (v : Lanes) (buf : Option Bytes) (input : Bytes) :
    updateGo v buf input = (buf.elim v v.round).absorb input := by
  rw [updateGo]
  generalize buf.elim v v.round = w
  by_cases hlong : input.length > 256
  · have hidx : 256 * (input.length / 256) = 16 * (16 * (input.length / 256)) := by omega
    have hdiv : (input.drop (256 * (input.length / 256))).length / 16
        + 16 * (input.length / 256) = input.length / 16 := by
      rw [List.length_drop]
      omega
    simp only [if_pos hlong]
    rw [Lanes.absorb256_eq _ _ _ (by omega), Lanes.absorb.eq_def w, ← hdiv, Nat.add_comm,
      Lanes.absorbN_add, ← hidx]
    rfl
  · simp only [if_neg hlong]

/-- `updateGo` absorbs the carried buffer and then the input. -/
theorem updateGo_eq (v : Lanes) (buf : Option Bytes) (input : Bytes)
    (hbuf : ∀ b, buf = some b → b.length = 16) :
    updateGo v buf input = (v.absorb (buf.getD [])).absorb input := by
  rw [updateGo_plain]
  apply congrArg (fun w : Lanes => w.absorb input)
  cases buf with
  | none => rfl
  | some b =>
      have hlen := hbuf b rfl
      simp only [Option.elim_some, Option.getD_some, Lanes.absorb, hlen]
      rw [Lanes.absorbN, Lanes.round_take _ _ _ (Nat.le_refl 16)]
      rfl

/-! ## What a streaming hash has taken in -/

/-- `x` has taken in exactly `D`: the length, the lanes after all whole stripes, and
the bytes behind them in the buffer. Before the first byte the lanes are not set
up yet. -/
structure Hashes (D : Bytes) (x : XXHZero) : Prop where
  total : x.totalLen = UInt64.ofNat D.length
  used : x.bufused = D.length % 16
  buflen : x.buf.length = 16
  rest : x.buf.take x.bufused = D.drop (D.length - D.length % 16)
  lanes : D ≠ [] → x.v = Lanes.init.absorb D

theorem Hashes.of_nil {x : XXHZero} (htotal : x.totalLen = 0) (hused : x.bufused = 0)
    (hbuf : x.buf.length = 16) : Hashes [] x where
  total := by simp [htotal]
  used := by simp [hused]
  buflen := hbuf
  rest := by simp [hused]
  lanes := fun h => absurd rfl h

theorem Hashes.zero : Hashes [] .zero := .of_nil rfl rfl rfl

/-- Lanes only depend on the whole stripes. -/
theorem Lanes.absorb_whole (v : Lanes) (D : Bytes) :
    v.absorb D = v.absorb (D.take (D.length - D.length % 16)) := by
  have hlen : (D.take (D.length - D.length % 16)).length = D.length - D.length % 16 := by
    rw [List.length_take]
    omega
  have hrest : (D.drop (D.length - D.length % 16)).length / 16 = 0 := by
    rw [List.length_drop]
    omega
  conv_lhs => rw [← List.take_append_drop (D.length - D.length % 16) D]
  rw [Lanes.absorb_append _ _ (by rw [hlen]; omega)]
  conv_lhs => rw [Lanes.absorb, hrest, Lanes.absorbN]

/-- Below 2^64 bytes the length counter is the length. -/
theorem Hashes.toNat_totalLen {D : Bytes} {x : XXHZero} (h : Hashes D x)
    (hD : D.length < 2 ^ 64) : x.totalLen.toNat = D.length := by
  rw [h.total, UInt64.toNat_ofNat', Nat.mod_eq_of_lt hD]

/-- The counter is zero only before the first byte. -/
theorem Hashes.totalLen_eq_zero_iff {D : Bytes} {x : XXHZero} (h : Hashes D x)
    (hD : D.length < 2 ^ 64) : x.totalLen = 0 ↔ D = [] := by
  rw [← UInt64.toNat_inj, h.toNat_totalLen hD, UInt64.toNat_zero, List.length_eq_zero_iff]

/-- `Write` after its lazy start: the lanes are set up from the first byte on. -/
theorem Hashes.start {D : Bytes} {x : XXHZero} (h : Hashes D x) (hD : D.length < 2 ^ 64) :
    Hashes D (if x.totalLen = 0 then x.reset else x)
      ∧ (if x.totalLen = 0 then x.reset else x).v = Lanes.init.absorb D := by
  by_cases hnil : D = []
  · rw [if_pos ((h.totalLen_eq_zero_iff hD).mpr hnil)]
    subst hnil
    exact ⟨.of_nil rfl rfl h.buflen, by rw [Lanes.absorb_nil]; rfl⟩
  · rw [if_neg (fun h0 => hnil ((h.totalLen_eq_zero_iff hD).mp h0))]
    exact ⟨h, h.lanes hnil⟩

/-! ### One `Write` -/

/-- Behind whole stripes the bytes left over are those of what follows. -/
theorem rest_append {A : Bytes} (hA : A.length % 16 = 0) (B : Bytes) :
    (A ++ B).length % 16 = B.length % 16
      ∧ (A ++ B).drop ((A ++ B).length - (A ++ B).length % 16)
        = B.drop (B.length - B.length % 16) := by
  have hmod : (A ++ B).length % 16 = B.length % 16 := by
    rw [List.length_append]
    omega
  have hidx : (A ++ B).length - (A ++ B).length % 16
      = A.length + (B.length - B.length % 16) := by
    rw [hmod, List.length_append]
    omega
  refine ⟨hmod, ?_⟩
  rw [hidx, ← List.drop_drop, List.drop_left]

/-- How many bytes of the input complete the stripe in the buffer. -/
def XXHZero.fill (x : XXHZero) (input : Bytes) : ℕ :=
  if x.bufused ≠ 0 then copyLen x.buf x.bufused input else 0

/-- The buffer with these bytes. -/
def XXHZero.filled (x : XXHZero) (input : Bytes) : Bytes :=
  if x.bufused ≠ 0 then copyAt x.buf x.bufused input else x.buf

theorem XXHZero.fill_le (x : XXHZero) (input : Bytes) : x.fill input ≤ input.length := by
  rw [fill]
  split_ifs
  · rw [copyLen]
    omega
  · exact Nat.zero_le _

theorem Hashes.length_filled {D : Bytes} {x : XXHZero} (h : Hashes D x) (input : Bytes) :
    (x.filled input).length = 16 := by
  have hused := h.used
  have hbl := h.buflen
  rw [XXHZero.filled]
  split_ifs
  · rw [length_copyAt _ _ (by omega), hbl]
  · exact hbl

/-- The input fits into the buffer: no stripe is completed. -/
theorem Hashes.short {D : Bytes} {x : XXHZero} (h : Hashes D x)
    (hv : x.v = Lanes.init.absorb D) {input : Bytes}
    (hshort : input.length < x.buf.length - x.bufused) :
    Hashes (D ++ input)
      { x with
        totalLen := x.totalLen + UInt64.ofNat input.length
        buf := copyAt x.buf x.bufused input
        bufused := x.bufused + input.length } := by
  have hused := h.used
  have hbl := h.buflen
  have hmod : (D ++ input).length % 16 = D.length % 16 + input.length := by
    rw [List.length_append]
    omega
  have hwhole : (D ++ input).length - (D ++ input).length % 16 = D.length - D.length % 16 := by
    rw [hmod, List.length_append]
    omega
  have hcopy : copyLen x.buf x.bufused input = input.length := by
    rw [copyLen]
    omega
  refine ⟨?_, by rw [hmod, hused], by rw [length_copyAt _ _ (by omega), hbl], ?_, fun _ => ?_⟩
  · rw [h.total, List.length_append, UInt64.ofNat_add]
  · have htake := take_copyAt x.buf x.bufused input (by omega)
    rw [hcopy, List.take_length] at htake
    rw [htake, h.rest, hwhole, List.drop_append_of_le_length (by omega)]
  · -- the lanes do not see the bytes behind the whole stripes
    rw [hv, Lanes.absorb_whole _ D, Lanes.absorb_whole _ (D ++ input), hwhole,
      List.take_append_of_le_length (by omega)]

/-- A longer input completes the stripe. -/
theorem Hashes.whole_fill {D : Bytes} {x : XXHZero} (h : Hashes D x) {input : Bytes}
    (hlong : ¬ input.length < x.buf.length - x.bufused) :
    (D ++ input.take (x.fill input)).length % 16 = 0 := by
  have hused := h.used
  have hbl := h.buflen
  rw [List.length_append, List.length_take, Nat.min_eq_left (x.fill_le input), XXHZero.fill]
  split_ifs
  · rw [copyLen]
    omega
  · omega

/-- What is in the buffer then: the bytes behind the whole stripes, and what completes them. -/
theorem Hashes.filled_eq {D : Bytes} {x : XXHZero} (h : Hashes D x) {input : Bytes}
    (hlong : ¬ input.length < x.buf.length - x.bufused) (hm : x.bufused ≠ 0) :
    x.filled input = D.drop (D.length - D.length % 16) ++ input.take (x.fill input) := by
  have hused := h.used
  have hbl := h.buflen
  have hcopy : copyLen x.buf x.bufused input = 16 - x.bufused := by
    rw [copyLen]
    omega
  have hfull : (copyAt x.buf x.bufused input).length
      ≤ x.bufused + copyLen x.buf x.bufused input := by
    rw [length_copyAt _ _ (by omega), hcopy]
    omega
  have htake := take_copyAt x.buf x.bufused input (by omega)
  rw [List.take_of_length_le hfull] at htake
  rw [XXHZero.filled, if_pos hm, htake, h.rest, XXHZero.fill, if_pos hm]

/-- The lanes take in the completed stripe, and then the whole stripes of the input. -/
theorem Hashes.updateGo_fill {D : Bytes} {x : XXHZero} (h : Hashes D x)
    (hv : x.v = Lanes.init.absorb D) {input : Bytes}
    (hlong : ¬ input.length < x.buf.length - x.bufused) :
    updateGo x.v (if x.bufused ≠ 0 then some (x.filled input) else none)
        (input.drop (x.fill input)) = Lanes.init.absorb (D ++ input) := by
  have hfill := h.whole_fill hlong
  have hsplit : D ++ input = (D ++ input.take (x.fill input)) ++ input.drop (x.fill input) := by
    rw [List.append_assoc, List.take_append_drop]
  by_cases hm : x.bufused ≠ 0
  · have hbuf := h.filled_eq hlong hm
    have hstripes : D.take (D.length - D.length % 16)
        ++ (D.drop (D.length - D.length % 16) ++ input.take (x.fill input))
          = D ++ input.take (x.fill input) := by
      rw [← List.append_assoc, List.take_append_drop]
    have hwhole : (D.take (D.length - D.length % 16)).length % 16 = 0 := by
      rw [List.length_take]
      omega
    rw [if_pos hm, updateGo_eq _ _ _ (fun b hb => Option.some.inj hb ▸ h.length_filled input),
      Option.getD_some, hbuf, hv, Lanes.absorb_whole _ D, ← Lanes.absorb_append _ _ hwhole,
      hstripes, ← Lanes.absorb_append _ _ hfill, ← hsplit]
  · -- nothing is carried: `D` is whole stripes
    have hnone : x.fill input = 0 := by rw [XXHZero.fill, if_neg hm]
    rw [hnone, List.take_zero, List.append_nil] at hfill
    rw [if_neg hm, updateGo_eq _ _ _ (by rintro _ ⟨⟩), Option.getD_none, hnone, List.drop_zero, hv,
      ← Lanes.absorb_append _ _ hfill, List.append_nil, Lanes.absorb_append _ _ hfill]

/-- The input does not fit. -/
theorem Hashes.long {D : Bytes} {x : XXHZero} (h : Hashes D x)
    (hv : x.v = Lanes.init.absorb D) {input : Bytes}
    (hlong : ¬ input.length < x.buf.length - x.bufused) :
    let rest := (input.drop (x.fill input)).drop
      ((input.drop (x.fill input)).length - (input.drop (x.fill input)).length % 16)
    Hashes (D ++ input)
      { v := updateGo x.v (if x.bufused ≠ 0 then some (x.filled input) else none)
          (input.drop (x.fill input))
        totalLen := x.totalLen + UInt64.ofNat input.length
        buf := copyAt (x.filled input) 0 rest
        bufused := copyLen (x.filled input) 0 rest } := by
  intro rest
  obtain ⟨hmod, hdrop⟩ := rest_append (h.whole_fill hlong) (input.drop (x.fill input))
  rw [List.append_assoc, List.take_append_drop] at hmod hdrop
  have hlen := h.length_filled input
  have hrest : rest.length = (D ++ input).length % 16 := by
    rw [hmod, List.length_drop]
    omega
  have hcopy : copyLen (x.filled input) 0 rest = rest.length := by
    rw [copyLen]
    omega
  refine ⟨?_, by rw [hcopy, hrest], ?_, ?_, fun _ => h.updateGo_fill hv hlong⟩
  · rw [h.total, List.length_append, UInt64.ofNat_add]
  · rw [length_copyAt _ _ (Nat.zero_le _), hlen]
  · have htake := take_copyAt (x.filled input) 0 rest (Nat.zero_le _)
    rw [hcopy, Nat.zero_add, List.take_zero, List.nil_append, List.take_length] at htake
    rw [hcopy, htake, hdrop]

/-- **One `Write`** takes in exactly its input. -/
theorem Hashes.write {D : Bytes} {x : XXHZero} (h : Hashes D x) (input : Bytes)
    (hlen : (D ++ input).length < 2 ^ 64) : Hashes (D ++ input) (x.write input) := by
  have hD : D.length < 2 ^ 64 := by
    rw [List.length_append] at hlen
    omega
  obtain ⟨h₁, hv⟩ := h.start hD
  rw [XXHZero.write]
  generalize (if x.totalLen = 0 then x.reset else x) = y at h₁ hv
  by_cases hshort : input.length < y.buf.length - y.bufused
  · simp only [if_pos hshort]
    exact h₁.short hv hshort
  · have hinput : (if y.bufused ≠ 0 then input.drop (copyLen y.buf y.bufused input) else input)
        = input.drop (y.fill input) := by
      rw [XXHZero.fill]
      split_ifs
      · rfl
      · rfl
    have hcarried : (if y.bufused ≠ 0 then
          some (if y.bufused ≠ 0 then copyAt y.buf y.bufused input else y.buf) else none)
        = if y.bufused ≠ 0 then some (y.filled input) else none := rfl
    simp only [if_neg hshort]
    rw [hinput, hcarried]
    exact h₁.long hv hshort

/-- Writing pieces one after the other takes in their concatenation. -/
theorem Hashes.foldl_write (pieces : List Bytes) {D : Bytes} {x : XXHZero} (h : Hashes D x)
    (hlen : (D ++ pieces.flatten).length < 2 ^ 64) :
    Hashes (D ++ pieces.flatten) (pieces.foldl XXHZero.write x) := by
  induction pieces generalizing D x with
  | nil => simpa using h
  | cons p ps ih =>
      rw [List.flatten_cons, ← List.append_assoc] at hlen ⊢
      refine ih (h.write p ?_) hlen
      rw [List.length_append] at hlen
      omega

/-- The state determines the sum: it is the one-shot sum of what was taken in. -/
theorem Hashes.sum32_eq {D : Bytes} {x : XXHZero} (h : Hashes D x) (hD : D.length < 2 ^ 64) :
    x.sum32 = checksumZero D := by
  have htot := h.toNat_totalLen hD
  have hbig : (UInt32.ofNat x.totalLen.toNat ≥ 16 ∨ x.totalLen ≥ 0x100000000)
      ↔ 16 ≤ D.length := by
    rw [ge_iff_le, ge_iff_le, UInt32.le_iff_toNat_le, UInt64.le_iff_toNat_le, htot,
      UInt32.toNat_ofNat']
    have h16 : (16 : UInt32).toNat = 16 := rfl
    have h32 : (0x100000000 : UInt64).toNat = 2 ^ 32 := rfl
    rw [h16, h32]
    omega
  have hrest : D.length - D.length % 16 = 16 * (D.length / 16) := by omega
  rw [htot] at hbig
  simp only [XXHZero.sum32, checksumZero, htot, h.rest, if_congr hbig rfl rfl]
  by_cases hshort : D.length < 16
  · have h0 : D.length - D.length % 16 = 0 := by omega
    rw [if_neg (by omega), if_pos hshort, h0, List.drop_zero]
  · have hne : D ≠ [] := by
      intro hnil
      rw [hnil] at hshort
      simp at hshort
    rw [if_pos (by omega), if_neg hshort, h.lanes hne, hrest]
    rfl

/-- **Streaming is one-shot.** However a byte sequence below 2^64 bytes is split over
`Write` calls, the sum is the one-shot sum of the whole. -/
theorem sum32_hashAll (pieces : List Bytes) (hlen : pieces.flatten.length < 2 ^ 64) :
    (hashAll pieces).sum32 = checksumZero pieces.flatten := by
  have h := Hashes.zero.foldl_write pieces (by rwa [List.nil_append])
  rw [List.nil_append] at h
  exact h.sum32_eq hlen

/-! ## Any history of calls

`Sum32` may be called between two `Write` calls. It is modelled with the state it leaves, so
that a history of both kinds of calls says what `Sum32` does to the writes after it. -/

/-- A call on an `XXHZero`. -/
inductive HashCall
  | write (input : Bytes)
  | sum32
  deriving DecidableEq, Repr

namespace HashCall

/-- What a call returns of the hash, and the state it leaves. -/
def apply (x : XXHZero) : HashCall → List UInt32 × XXHZero
  | .write input => ([], x.write input)
  | .sum32 => ([x.sum32], x)

/-- The sums that the calls return, and the state they leave. -/
def run (x : XXHZero) : List HashCall → List UInt32 × XXHZero
  | [] => ([], x)
  | c :: cs =>
      let (sums, x) := c.apply x
      let (sums', x) := run x cs
      (sums ++ sums', x)

/-- The bytes a call writes. -/
def input : HashCall → Bytes
  | .write p => p
  | .sum32 => []

/-- The bytes written by the calls. -/
def written (cs : List HashCall) : Bytes := cs.flatMap input

/-- The one-shot sums of what had been written by each `Sum32`, with `D` written before. -/
def sumsFrom (D : Bytes) : List HashCall → List UInt32
  | [] => []
  | .write p :: cs => sumsFrom (D ++ p) cs
  | .sum32 :: cs => checksumZero D :: sumsFrom D cs

/-- The calls of `Write` among the calls. -/
def writes : List HashCall → List Bytes
  | [] => []
  | .write p :: cs => p :: writes cs
  | .sum32 :: cs => writes cs

/-- A history on a hash that has taken in `D`. -/
theorem run_spec (cs : List HashCall) {D : Bytes} {x : XXHZero} (h : Hashes D x)
    (hlen : (D ++ written cs).length < 2 ^ 64) :
    (run x cs).1 = sumsFrom D cs ∧ (run x cs).2 = (writes cs).foldl XXHZero.write x
      ∧ Hashes (D ++ written cs) (run x cs).2 := by
  induction cs generalizing D x with
  | nil =>
      rw [written, List.flatMap_nil, List.append_nil]
      exact ⟨rfl, rfl, h⟩
  | cons c cs ih =>
      have hsplit : D ++ written (c :: cs) = (D ++ c.input) ++ written cs := by
        rw [written, List.flatMap_cons, ← List.append_assoc, written]
      rw [hsplit] at hlen ⊢
      have hD : (D ++ c.input).length < 2 ^ 64 := by
        rw [List.length_append] at hlen
        omega
      cases c with
      | write p => exact ih (h.write p hD) hlen
      | sum32 =>
          -- nothing is written: the history goes on from the same state
          have hnil : D ++ input .sum32 = D := List.append_nil D
          rw [hnil] at hlen hD ⊢
          obtain ⟨hsums, hstate, hhash⟩ := ih h hlen
          refine ⟨?_, hstate, hhash⟩
          have hsum : x.sum32 = checksumZero D := h.sum32_eq hD
          show x.sum32 :: (run x cs).1 = checksumZero D :: sumsFrom D cs
          rw [hsum, hsums]

end HashCall

/-- **The streaming hash.** In every history of `Write` and `Sum32` calls on a hash that starts
at its zero value, each `Sum32` returns the one-shot sum of the bytes written before it, and
the state afterwards is that of the `Write` calls alone. The unrolled loop does what the plain
one does. -/
theorem streaming_eq_oneshot (cs : List HashCall) (hlen : (HashCall.written cs).length < 2 ^ 64) :
    (HashCall.run .zero cs).1 = HashCall.sumsFrom [] cs
      ∧ (HashCall.run .zero cs).2 = hashAll (HashCall.writes cs)
      ∧ (HashCall.run .zero cs).2.sum32 = checksumZero (HashCall.written cs)
      ∧ ∀ (v : Lanes) (buf : Option Bytes) (input : Bytes),
        updateGo v buf input = (buf.elim v v.round).absorb input := by
  obtain ⟨hsums, hstate, hhash⟩ := HashCall.run_spec cs .zero (by rwa [List.nil_append])
  refine ⟨hsums, hstate, ?_, ?_⟩
  · rw [List.nil_append] at hhash
    exact hhash.sum32_eq hlen
  · intro v buf input
    exact updateGo_plain v buf input

theorem streaming_eq_oneshot_split :
    (HashCall.run .zero [.write [1, 2], .sum32, .write [], .write [3], .sum32]).1
      = [checksumZero [1, 2], checksumZero [1, 2, 3]] :=
  (streaming_eq_oneshot [.write [1, 2], .sum32, .write [], .write [3], .sum32] (by decide)).1

/-- The reference value of the empty input. -/
example : checksumZero [] = 0x02CC5D05 := by decide

end Plz4.Xxh32
