/-
The LZ4 block format: what a block is, what it stands for, and that the decoder accepts
blocks and nothing else.

A block is a list of sequences, each some literals and a match, and the literals at its
end. `expand` says what it stands for behind a history. Every input that is decoded is a
block whose offsets stay within what comes before (`plainDecode_sound`), and every block
that keeps the end-of-block conditions is decoded to what it stands for
(`plainDecode_complete`).
-/
import Plz4.Lz4.DecompressSpec

set_option autoImplicit false

namespace Plz4.Lz4

open Lz77

/-! ## Blocks -/

/-- Literals, then a match. -/
structure Sequence where
  lits : Bytes
  offset : ℕ
  length : ℕ
  deriving DecidableEq, Repr

/-- The bytes that continue a length field: as many as needed of 255, then the rest. -/
def lengthField (n : ℕ) : Bytes := List.replicate (n / 255) 255 ++ [UInt8.ofNat (n % 255)]

/-- A length of which the token holds up to 15. -/
def lengthBytes (n : ℕ) : Bytes := if n < 15 then [] else lengthField (n - 15)

/-- The token: both lengths, as far as they fit. -/
def tokenOf (litLength matchCode : ℕ) : UInt8 :=
  UInt8.ofNat (min litLength 15 * 16 + min matchCode 15)

/-- A sequence as it is written. -/
def Sequence.bytes (s : Sequence) : Bytes :=
  tokenOf s.lits.length (s.length - minMatch) :: (lengthBytes s.lits.length ++ s.lits
    ++ LittleEndian.put 2 s.offset ++ lengthBytes (s.length - minMatch))

/-- The last literals as they are written; no decoder looks at the low bits of their token. -/
def lastBytes (low : ℕ) (lits : Bytes) : Bytes :=
  tokenOf lits.length low :: (lengthBytes lits.length ++ lits)

/-- What one sequence adds to what is there. -/
def Sequence.expand (win : Bytes) (s : Sequence) : Bytes := extend (win ++ s.lits) s.offset s.length

/-- What a list of sequences comes to. -/
def expand (win : Bytes) (ss : List Sequence) : Bytes := ss.foldl Sequence.expand win

/-- How many bytes it adds. -/
def expandLength (ss : List Sequence) : ℕ := (ss.map (fun s => s.lits.length + s.length)).sum

@[simp] theorem expand_nil (win : Bytes) : expand win [] = win := rfl

@[simp] theorem expand_cons (win : Bytes) (s : Sequence) (ss : List Sequence) :
    expand win (s :: ss) = expand (s.expand win) ss := rfl

theorem expand_append (win : Bytes) (ss ts : List Sequence) :
    expand win (ss ++ ts) = expand (expand win ss) ts := List.foldl_append

@[simp] theorem expandLength_nil : expandLength [] = 0 := rfl

@[simp] theorem expandLength_cons (s : Sequence) (ss : List Sequence) :
    expandLength (s :: ss) = s.lits.length + s.length + expandLength ss := rfl

theorem length_sequence_expand (win : Bytes) (s : Sequence) :
    (s.expand win).length = win.length + (s.lits.length + s.length) := by
  rw [Sequence.expand, length_extend, List.length_append]
  omega

theorem length_expand (win : Bytes) (ss : List Sequence) :
    (expand win ss).length = win.length + expandLength ss := by
  induction ss generalizing win with
  | nil => rfl
  | cons s ss ih =>
      rw [expand_cons, ih, length_sequence_expand, expandLength_cons]
      omega

/-- The history stays in front. -/
theorem prefix_expand (win : Bytes) (ss : List Sequence) : win <+: expand win ss := by
  induction ss generalizing win with
  | nil => exact List.prefix_rfl
  | cons s ss ih =>
      have hone : win <+: s.expand win :=
        (List.prefix_append _ _).trans (prefix_extend (win ++ s.lits) s.offset (Nat.zero_le _))
      exact hone.trans (ih _)

/-! ## Length fields -/

theorem lengthField_add (n : ℕ) : lengthField (n + 255) = 255 :: lengthField n := by
  rw [lengthField, lengthField, Nat.add_div_right _ (by decide), Nat.add_mod_right,
    List.replicate_succ, List.cons_append]

theorem lengthField_of_lt {n : ℕ} (h : n < 255) : lengthField n = [UInt8.ofNat n] := by
  rw [lengthField, Nat.div_eq_of_lt h, Nat.mod_eq_of_lt h]
  rfl

theorem length_lengthField (n : ℕ) : (lengthField n).length = n / 255 + 1 := by
  rw [lengthField, List.length_append, List.length_replicate]
  rfl

theorem toNat_ofNat {n : ℕ} (h : n < 256) : (UInt8.ofNat n).toNat = n := UInt8.toNat_ofNat_of_lt' h

/-- A length field is read back, given that enough comes behind it. -/
theorem plainLength_lengthField {lim n : ℕ} {tail : Bytes} (acc : ℕ) (h : lim ≤ tail.length) :
    plainLength lim (lengthField n ++ tail) acc = .ok (acc + n, tail) := by
  induction n using Nat.strong_induction_on generalizing acc with
  | _ n ih =>
      by_cases hlt : n < 255
      · have hne : ¬ UInt8.ofNat n = 255 := by
          intro heq
          have hnat := congrArg UInt8.toNat heq
          have h255 : (255 : UInt8).toNat = 255 := rfl
          rw [toNat_ofNat (by omega)] at hnat
          omega
        rw [lengthField_of_lt hlt, List.singleton_append, plainLength, if_neg (by omega), if_neg hne,
          toNat_ofNat (by omega)]
      · obtain ⟨k, rfl⟩ : ∃ k, n = k + 255 := ⟨n - 255, by omega⟩
        have hlen : (lengthField k ++ tail).length = (lengthField k).length + tail.length :=
          List.length_append
        rw [lengthField_add, List.cons_append, plainLength, if_neg (by omega), if_pos rfl,
          ih k (by omega), Nat.add_assoc, Nat.add_comm 255 k]

/-- What was read as a length is a length field. -/
theorem plainLength_eq_ok {lim acc n : ℕ} {rest tail : Bytes}
    (h : plainLength lim rest acc = .ok (n, tail)) :
    ∃ k, n = acc + k ∧ rest = lengthField k ++ tail := by
  induction rest generalizing acc with
  | nil => cases h
  | cons b rest ih =>
      rw [plainLength] at h
      split_ifs at h with hshort h255
      · obtain ⟨k, rfl, rfl⟩ := ih h
        refine ⟨k + 255, by omega, ?_⟩
        rw [lengthField_add, h255, List.cons_append]
      · simp only [Except.ok.injEq, Prod.mk.injEq] at h
        obtain ⟨rfl, rfl⟩ := h
        have hlt : b.toNat < 255 := by
          have hb : b.toNat < 256 := b.toNat_lt
          have hne : b.toNat ≠ 255 := fun heq => h255 (UInt8.toNat_inj.mp heq)
          omega
        refine ⟨b.toNat, rfl, ?_⟩
        rw [lengthField_of_lt hlt, UInt8.ofNat_toNat]
        rfl

/-! ## Tokens -/

theorem tokenOf_toNat (l k : ℕ) : (tokenOf l k).toNat = min l 15 * 16 + min k 15 := by
  rw [tokenOf, toNat_ofNat (by omega)]

theorem tokenOf_high (l k : ℕ) : (tokenOf l k).toNat / 16 = min l 15 := by
  rw [tokenOf_toNat]
  omega

theorem tokenOf_low (l k : ℕ) : (tokenOf l k).toNat % 16 = min k 15 := by
  rw [tokenOf_toNat]
  omega

theorem tokenOf_eq {token : UInt8} {l k : ℕ} (hl : token.toNat / 16 = min l 15)
    (hk : token.toNat % 16 = min k 15) : token = tokenOf l k := by
  rw [← UInt8.toNat_inj, tokenOf_toNat]
  omega

/-- A literal length is read back. -/
theorem plainLitLength_tokenOf {n : ℕ} (k : ℕ) {tail : Bytes} (h : n ≤ tail.length) :
    plainLitLength (tokenOf n k) (lengthBytes n ++ tail) = .ok (n, tail) := by
  have h15 : runMask = 15 := rfl
  rw [plainLitLength, tokenOf_high, lengthBytes]
  by_cases hlt : n < 15
  · rw [if_neg (by omega), if_pos hlt, List.nil_append, Nat.min_eq_left (by omega)]
  · have hlen : (lengthField (n - 15) ++ tail).length = (n - 15) / 255 + 1 + tail.length := by
      rw [List.length_append, length_lengthField]
    rw [if_pos (by omega), if_neg hlt, if_neg (by omega), plainLength_lengthField _ (by omega),
      show runMask + (n - 15) = n by omega]

/-- A match length is read back. -/
theorem plainMatchLength_tokenOf (l : ℕ) {n : ℕ} {tail : Bytes} (hn : minMatch ≤ n)
    (h : lastLiterals - 1 ≤ tail.length) :
    plainMatchLength (tokenOf l (n - minMatch)) (lengthBytes (n - minMatch) ++ tail)
      = .ok (n, tail) := by
  have h15 : mlMask = 15 := rfl
  rw [plainMatchLength, tokenOf_low, lengthBytes]
  by_cases hlt : n - minMatch < 15
  · rw [if_neg (by omega), if_pos hlt, List.nil_append, Nat.min_eq_left (by omega),
      Nat.sub_add_cancel hn]
  · rw [if_pos (by omega), if_neg hlt, plainLength_lengthField _ h, Except.map]
    dsimp only
    rw [show mlMask + (n - minMatch - 15) + minMatch = n by omega]

/-- The other way round: what was read as a literal length. -/
theorem plainLitLength_eq_ok {token : UInt8} {rest tail : Bytes} {n : ℕ}
    (h : plainLitLength token rest = .ok (n, tail)) :
    token.toNat / 16 = min n 15 ∧ rest = lengthBytes n ++ tail := by
  have h15 : runMask = 15 := rfl
  have hlt : token.toNat / 16 < 16 := Nat.div_lt_of_lt_mul token.toNat_lt
  rw [plainLitLength] at h
  split_ifs at h with hrun hshort
  · obtain ⟨k, rfl, rfl⟩ := plainLength_eq_ok h
    rw [lengthBytes, if_neg (by omega), show runMask + k - 15 = k by omega]
    exact ⟨by omega, rfl⟩
  · simp only [Except.ok.injEq, Prod.mk.injEq] at h
    obtain ⟨rfl, rfl⟩ := h
    rw [lengthBytes, if_pos (by omega)]
    exact ⟨by omega, rfl⟩

theorem plainMatchLength_eq_ok {token : UInt8} {rest tail : Bytes} {n : ℕ}
    (h : plainMatchLength token rest = .ok (n, tail)) :
    token.toNat % 16 = min (n - minMatch) 15 ∧ rest = lengthBytes (n - minMatch) ++ tail
      ∧ minMatch ≤ n := by
  have h15 : mlMask = 15 := rfl
  have hlt : token.toNat % 16 < 16 := Nat.mod_lt _ (by decide)
  rw [plainMatchLength] at h
  split_ifs at h with hml
  · rcases hp : plainLength (lastLiterals - 1) rest mlMask with u | ⟨k, rest'⟩
    · rw [hp] at h
      cases h
    · rw [hp] at h
      simp only [Except.map, Except.ok.injEq, Prod.mk.injEq] at h
      obtain ⟨rfl, rfl⟩ := h
      obtain ⟨j, rfl, rfl⟩ := plainLength_eq_ok hp
      rw [Nat.add_sub_cancel, lengthBytes, if_neg (by omega), h15, Nat.add_sub_cancel_left]
      exact ⟨by omega, rfl, Nat.le_add_left _ _⟩
  · simp only [Except.ok.injEq, Prod.mk.injEq] at h
    obtain ⟨rfl, rfl⟩ := h
    rw [Nat.add_sub_cancel, lengthBytes, if_pos (by omega)]
    exact ⟨by omega, rfl, Nat.le_add_left _ _⟩

/-! ## One sequence -/

variable {ext room : ℕ} {win : Bytes}

/-- **A sequence is decoded**, if what follows leaves room for the end-of-block
conditions. -/
theorem plainStep_sequence {s : Sequence} {tail : Bytes} (hlen : minMatch ≤ s.length)
    (hoff : s.offset < 65536) (hin : s.offset ≤ win.length + s.lits.length) (htail : 6 ≤ tail.length)
    (hlits : s.lits.length + mfLimit ≤ room)
    (hroom : s.lits.length + s.length + lastLiterals ≤ room) :
    plainStep ext ⟨s.bytes ++ tail, win, room⟩
      = .next ⟨tail, s.expand win, room - (s.lits.length + s.length)⟩ := by
  have hmf : mfLimit = 12 := rfl
  have h5 : lastLiterals = 5 := rfl
  set code := lengthBytes (s.length - minMatch) with hcode
  set body := s.lits ++ (LittleEndian.put 2 s.offset ++ (code ++ tail)) with hbody
  have hbytes : s.bytes ++ tail
      = tokenOf s.lits.length (s.length - minMatch) :: (lengthBytes s.lits.length ++ body) := by
    rw [Sequence.bytes, hbody]
    simp only [List.cons_append, List.append_assoc, ← hcode]
  have hput : (LittleEndian.put 2 s.offset).length = 2 := LittleEndian.length_put 2 _
  have hlong : body.length = s.lits.length + (2 + (code.length + tail.length)) := by
    rw [hbody, List.length_append, List.length_append, List.length_append, hput]
  have hoffset : LittleEndian.get (((body.drop s.lits.length)).take 2) = s.offset := by
    rw [hbody, List.drop_left, List.take_left' hput, LittleEndian.get_put_of_lt (by omega)]
  have hrest : (body.drop s.lits.length).drop 2 = code ++ tail := by
    rw [hbody, List.drop_left, List.drop_left' hput]
  have htake : body.take s.lits.length = s.lits := by rw [hbody, List.take_left]
  have hwin : (win ++ s.lits).length = win.length + s.lits.length := List.length_append
  rw [hbytes, plainStep]
  dsimp only
  rw [plainLitLength_tokenOf _ (by omega)]
  dsimp only
  rw [if_neg (by omega), plainMatch]
  dsimp only
  rw [hoffset, hrest, htake, plainMatchLength_tokenOf _ hlen (by omega)]
  dsimp only
  rw [if_neg (show ¬ (_ ∨ _) by omega), ite_self, Nat.sub_sub]
  rfl

/-- **The last literals are decoded.** -/
theorem plainStep_last {lits : Bytes} (low : ℕ) (hroom : lits.length ≤ room) :
    plainStep ext ⟨lastBytes low lits, win, room⟩ = .done (win ++ lits) := by
  have h15 : runMask = 15 := rfl
  rw [lastBytes, plainStep]
  dsimp only
  rw [plainLitLength_tokenOf low (le_refl _), tokenOf_high]
  dsimp only
  have hshort : ¬ (min lits.length 15 ≠ runMask ∧ 17 ≤ (lengthBytes lits.length ++ lits).length
      ∧ 32 ≤ room) := by
    rintro ⟨hne, hlen, -⟩
    rw [lengthBytes, if_pos (by omega), List.nil_append] at hlen
    omega
  rw [if_pos ⟨hshort, .inr (by omega)⟩, if_pos ⟨rfl, hroom⟩]

/-- What a decoded sequence was. -/
theorem plainStep_eq_next {p p' : Plain} (h : plainStep ext p = .next p') :
    ∃ s : Sequence, minMatch ≤ s.length ∧ s.offset < 65536
      ∧ s.offset ≤ p.win.length + s.lits.length ∧ p.rest = s.bytes ++ p'.rest
      ∧ p'.win = s.expand p.win ∧ p.room = p'.room + (s.lits.length + s.length) := by
  obtain ⟨rest, win, room⟩ := p
  have h15 : runMask = 15 := rfl
  have hmf : mfLimit = 12 := rfl
  have h4 : minMatch = 4 := rfl
  have hml15 : mlMask = 15 := rfl
  have h5 : lastLiterals = 5 := rfl
  rw [plainStep] at h
  rcases rest with _ | ⟨token, rest₁⟩
  · cases h
  dsimp only at h
  rcases hlit : plainLitLength token rest₁ with unread | ⟨n, rest⟩
  · rw [hlit] at h
    cases h
  obtain ⟨hhigh, rfl⟩ := plainLitLength_eq_ok hlit
  rw [hlit] at h
  dsimp only at h ⊢
  split_ifs at h with hlast hdone
  rw [plainMatch] at h
  dsimp only at h
  rcases hmatch : plainMatchLength token ((rest.drop n).drop 2) with unread | ⟨k, tail⟩
  · rw [hmatch] at h
    cases h
  obtain ⟨hlow, htail, hk⟩ := plainMatchLength_eq_ok hmatch
  rw [hmatch] at h
  dsimp only at h
  -- there are at least the literals and the offset
  have hlong : n + 2 ≤ rest.length := by
    by_cases hshort : token.toNat / 16 ≠ runMask ∧ 17 ≤ (lengthBytes n ++ rest).length ∧ 32 ≤ room
    · have hlen := hshort.2.1
      rw [lengthBytes, if_pos (by omega), List.nil_append] at hlen
      omega
    · have hnot : ¬ (room < n + mfLimit ∨ rest.length < n + 8) := fun hc => hlast ⟨hshort, hc⟩
      omega
  have htake : (rest.take n).length = n := by
    rw [List.length_take]
    omega
  have hwin : (win ++ rest.take n).length = win.length + n := by rw [List.length_append, htake]
  have htake2 : ((rest.drop n).take 2).length = 2 := by
    rw [List.length_take, List.length_drop]
    omega
  have hbytes : token :: (lengthBytes n ++ rest)
      = (⟨rest.take n, LittleEndian.get ((rest.drop n).take 2), k⟩ : Sequence).bytes ++ tail := by
    have hput : LittleEndian.put 2 (LittleEndian.get ((rest.drop n).take 2)) = (rest.drop n).take 2 := by
      have hput := LittleEndian.put_get ((rest.drop n).take 2)
      rwa [htake2] at hput
    rw [Sequence.bytes]
    dsimp only
    rw [htake, hput, tokenOf_eq hhigh hlow]
    simp only [List.cons_append, List.append_assoc, ← htail, List.take_append_drop]
  refine ⟨⟨rest.take n, LittleEndian.get ((rest.drop n).take 2), k⟩, hk, offset_lt _, ?_, ?_⟩
  · dsimp only
    rw [htake]
    split_ifs at h with hquick hout
    · omega
    · omega
  · dsimp only
    rw [htake, hbytes]
    split_ifs at h with hquick hout
    · simp only [PlainNext.next.injEq] at h
      rw [← h]
      refine ⟨rfl, rfl, ?_⟩
      dsimp only
      omega
    · simp only [PlainNext.next.injEq] at h
      rw [← h]
      refine ⟨rfl, rfl, ?_⟩
      dsimp only
      omega

/-- What the decoded last literals were. -/
theorem plainStep_eq_done {p : Plain} {out : Bytes} (h : plainStep ext p = .done out) :
    ∃ low lits, p.rest = lastBytes low lits ∧ out = p.win ++ lits ∧ lits.length ≤ p.room := by
  obtain ⟨rest, win, room⟩ := p
  rw [plainStep] at h
  rcases rest with _ | ⟨token, rest₁⟩
  · cases h
  dsimp only at h
  rcases hlit : plainLitLength token rest₁ with unread | ⟨n, rest⟩
  · rw [hlit] at h
    cases h
  obtain ⟨hhigh, rfl⟩ := plainLitLength_eq_ok hlit
  rw [hlit] at h
  dsimp only at h ⊢
  split_ifs at h with hlast hdone
  · obtain ⟨rfl, hle⟩ := hdone
    simp only [PlainNext.done.injEq] at h
    have hlow : token.toNat % 16 = min (token.toNat % 16) 15 := by omega
    refine ⟨token.toNat % 16, rest, ?_, h.symm, hle⟩
    rw [lastBytes, ← tokenOf_eq hhigh hlow]
  · rw [plainMatch] at h
    dsimp only at h
    rcases hmatch : plainMatchLength token ((rest.drop n).drop 2) with unread | ⟨k, tail⟩
    · rw [hmatch] at h
      cases h
    · rw [hmatch] at h
      dsimp only at h
      split_ifs at h

/-! ## Whole blocks -/

/-- A block as it is written. -/
def blockBytes (ss : List Sequence) (low : ℕ) (last : Bytes) : Bytes :=
  ss.flatMap Sequence.bytes ++ lastBytes low last

/-- Every match is long enough and refers to something that is there, from position `pos`
on. -/
def Within : ℕ → List Sequence → Prop
  | _, [] => True
  | pos, s :: ss => minMatch ≤ s.length ∧ s.offset < 65536 ∧ s.offset ≤ pos + s.lits.length
      ∧ Within (pos + (s.lits.length + s.length)) ss

/-- The end-of-block conditions for a block that ends at position `total`: a match starts
at least twelve bytes and ends at least five bytes before that. -/
def EndRules (total : ℕ) : ℕ → List Sequence → Prop
  | _, [] => True
  | pos, s :: ss => pos + s.lits.length + mfLimit ≤ total
      ∧ pos + (s.lits.length + s.length) + lastLiterals ≤ total
      ∧ EndRules total (pos + (s.lits.length + s.length)) ss

instance decidableWithin : (pos : ℕ) → (ss : List Sequence) → Decidable (Within pos ss)
  | _, [] => inferInstanceAs (Decidable True)
  | pos, s :: ss =>
      have := decidableWithin (pos + (s.lits.length + s.length)) ss
      inferInstanceAs (Decidable (minMatch ≤ s.length ∧ s.offset < 65536
        ∧ s.offset ≤ pos + s.lits.length ∧ Within (pos + (s.lits.length + s.length)) ss))

instance decidableEndRules (total : ℕ) :
    (pos : ℕ) → (ss : List Sequence) → Decidable (EndRules total pos ss)
  | _, [] => inferInstanceAs (Decidable True)
  | pos, s :: ss =>
      have := decidableEndRules total (pos + (s.lits.length + s.length)) ss
      inferInstanceAs (Decidable (pos + s.lits.length + mfLimit ≤ total
        ∧ pos + (s.lits.length + s.length) + lastLiterals ≤ total
        ∧ EndRules total (pos + (s.lits.length + s.length)) ss))

theorem blockBytes_cons (s : Sequence) (ss : List Sequence) (low : ℕ) (last : Bytes) :
    blockBytes (s :: ss) low last = s.bytes ++ blockBytes ss low last := by
  rw [blockBytes, List.flatMap_cons, List.append_assoc]
  rfl

theorem within_append {pos : ℕ} {ss ts : List Sequence} :
    Within pos (ss ++ ts) ↔ Within pos ss ∧ Within (pos + expandLength ss) ts := by
  induction ss generalizing pos with
  | nil => simp [Within]
  | cons s ss ih => simp only [List.cons_append, Within, ih, expandLength_cons, Nat.add_assoc, and_assoc]

theorem endRules_append {total pos : ℕ} {ss ts : List Sequence} :
    EndRules total pos (ss ++ ts)
      ↔ EndRules total pos ss ∧ EndRules total (pos + expandLength ss) ts := by
  induction ss generalizing pos with
  | nil => simp [EndRules]
  | cons s ss ih =>
      simp only [List.cons_append, EndRules, ih, expandLength_cons, Nat.add_assoc, and_assoc]

/-- Behind a match there are at least the last five literals and their token. -/
theorem EndRules.length_blockBytes {total pos : ℕ} {s : Sequence} {ss : List Sequence} (low : ℕ)
    (last : Bytes) (h : EndRules total pos (s :: ss))
    (htotal : pos + expandLength (s :: ss) + last.length = total) :
    lastLiterals + 1 ≤ (blockBytes ss low last).length := by
  induction ss generalizing s pos with
  | nil =>
      obtain ⟨-, hend, -⟩ := h
      rw [expandLength_cons, expandLength_nil] at htotal
      rw [blockBytes, List.flatMap_nil, List.nil_append, lastBytes, List.length_cons,
        List.length_append]
      omega
  | cons t ss ih =>
      obtain ⟨-, -, hrest⟩ := h
      rw [expandLength_cons] at htotal
      have hle := ih hrest (by omega)
      rw [blockBytes_cons, List.length_append]
      omega

/-- The loop on a block. -/
theorem plainLoop_block (ext : ℕ) {ss : List Sequence} {last : Bytes} {pos k : ℕ} (low extra : ℕ)
    (hwithin : Within win.length ss) (hends : EndRules (pos + room) pos ss)
    (hfit : expandLength ss + last.length = room) (hk : (blockBytes ss low last).length ≤ k) :
    plainLoop ext k (.next ⟨blockBytes ss low last, win, room + extra⟩)
      = .ok (expand win ss ++ last) := by
  induction ss generalizing win pos room k with
  | nil =>
      rw [blockBytes, List.flatMap_nil, List.nil_append] at hk ⊢
      rw [expandLength_nil] at hfit
      obtain ⟨k, rfl⟩ : ∃ j, k = j + 1 := ⟨k - 1, by rw [lastBytes, List.length_cons] at hk; omega⟩
      rw [plainLoop, plainStep_last low (by omega), plainLoop, expand_nil]
  | cons s ss ih =>
      have htail := hends.length_blockBytes low last (by rw [← hfit]; omega)
      obtain ⟨hlen, hoff, hin, hrest⟩ := hwithin
      obtain ⟨hlits, hend, hends'⟩ := hends
      rw [expandLength_cons] at hfit
      rw [blockBytes_cons, List.length_append] at hk
      have hbytes : 0 < s.bytes.length := by
        rw [Sequence.bytes, List.length_cons]
        omega
      have hroom : room + extra - (s.lits.length + s.length)
          = room - (s.lits.length + s.length) + extra := by omega
      obtain ⟨k, rfl⟩ : ∃ j, k = j + 1 := ⟨k - 1, by omega⟩
      rw [plainLoop, blockBytes_cons, plainStep_sequence hlen hoff hin (by exact htail) (by omega)
        (by omega), hroom, expand_cons]
      have hends₁ : EndRules (pos + (s.lits.length + s.length) + (room - (s.lits.length + s.length)))
          (pos + (s.lits.length + s.length)) ss := by
        rwa [show pos + (s.lits.length + s.length) + (room - (s.lits.length + s.length)) = pos + room
          by omega]
      refine ih ?_ hends₁ (by omega) (by omega)
      rwa [length_sequence_expand]

/-- **Blocks are decoded.** A block that keeps the end-of-block conditions, and whose
offsets reach back no further than the history, is decoded to what it stands for, into any
buffer that is long enough. Only where there is no room at all is the last token looked at
as a whole. -/
theorem plainDecode_complete {hist last : Bytes} {ss : List Sequence} {low cap : ℕ}
    (hwithin : Within hist.length ss) (hends : EndRules (expandLength ss + last.length) 0 ss)
    (hcap : expandLength ss + last.length ≤ cap) (hlow : low = 0 ∨ 0 < cap) :
    plainDecode ext hist (blockBytes ss low last) cap
      = .ok ((expand hist ss ++ last).drop hist.length) := by
  have hne : blockBytes ss low last ≠ [] := by
    rw [blockBytes, lastBytes]
    simp
  rw [plainDecode, if_neg hne]
  by_cases hzero : cap = 0
  · -- nothing but an empty block fits
    rcases ss with _ | ⟨s, ss⟩
    · rw [expandLength_nil] at hcap
      have hlast : last = [] := List.length_eq_zero_iff.mp (by omega)
      obtain rfl : low = 0 := hlow.resolve_right (by omega)
      subst hlast
      rw [if_pos hzero, if_pos (by rfl), expand_nil, List.append_nil, List.drop_length]
    · have h4 : minMatch = 4 := rfl
      have hlen := hwithin.1
      rw [expandLength_cons] at hcap
      omega
  · have hloop := plainLoop_block ext low (cap - (expandLength ss + last.length)) hwithin
      (show EndRules (0 + (expandLength ss + last.length)) 0 ss by rwa [Nat.zero_add]) rfl (le_refl _)
    rw [Nat.add_sub_cancel' hcap] at hloop
    rw [if_neg hzero, hloop]

/-- The loop accepts nothing else. -/
theorem plainLoop_eq_ok {p : Plain} {k : ℕ} {out : Bytes} (h : plainLoop ext k (.next p) = .ok out) :
    ∃ ss low last, p.rest = blockBytes ss low last ∧ Within p.win.length ss
      ∧ out = expand p.win ss ++ last ∧ expandLength ss + last.length ≤ p.room := by
  induction k generalizing p with
  | zero => cases h
  | succ k ih =>
      rw [plainLoop] at h
      rcases hstep : plainStep ext p with p' | win' | unread
      · rw [hstep] at h
        obtain ⟨s, hlen, hoff, hin, hrest, hwin, hroom⟩ := plainStep_eq_next hstep
        obtain ⟨ss, low, last, hrest', hwithin, rfl, hfit⟩ := ih h
        refine ⟨s :: ss, low, last, ?_, ⟨hlen, hoff, hin, ?_⟩, ?_, ?_⟩
        · rw [hrest, hrest', blockBytes_cons]
        · rwa [hwin, length_sequence_expand] at hwithin
        · rw [hwin, expand_cons]
        · rw [expandLength_cons]
          omega
      · rw [hstep, plainLoop] at h
        obtain ⟨low, lits, hrest, rfl, hle⟩ := plainStep_eq_done hstep
        simp only [Except.ok.injEq] at h
        refine ⟨[], low, lits, hrest, trivial, h.symm, ?_⟩
        rw [expandLength_nil]
        omega
      · rw [hstep, plainLoop] at h
        cases h

/-- **Nothing but blocks is decoded**, and what comes out is what the block stands for: no
offset reaches back further than the history, and the output fits. -/
theorem plainDecode_sound {hist src out : Bytes} {cap : ℕ}
    (h : plainDecode ext hist src cap = .ok out) :
    ∃ ss low last, src = blockBytes ss low last ∧ Within hist.length ss
      ∧ hist ++ out = expand hist ss ++ last ∧ out.length ≤ cap := by
  rw [plainDecode] at h
  split_ifs at h with hnil hcap hzero
  · simp only [Except.ok.injEq] at h
    subst h
    refine ⟨[], 0, [], hzero, trivial, rfl, Nat.zero_le _⟩
  · rcases hloop : plainLoop ext src.length (.next ⟨src, hist, cap⟩) with unread | win'
    · rw [hloop] at h
      cases h
    · rw [hloop] at h
      simp only [Except.ok.injEq] at h
      obtain ⟨ss, low, last, hsrc, hwithin, rfl, hfit⟩ := plainLoop_eq_ok hloop
      dsimp only at hsrc hwithin hfit h
      have hpre : hist <+: expand hist ss ++ last := (prefix_expand hist ss).trans (List.prefix_append _ _)
      obtain ⟨rest, hrest⟩ := hpre
      refine ⟨ss, low, last, hsrc, hwithin, ?_, ?_⟩
      · rw [← h, ← hrest, List.drop_left]
      · rw [← h, List.length_drop, List.length_append, length_expand]
        omega

/-! ## Blocks of a source -/

/-- A block that stands for `src` behind a history and keeps every rule of the format. -/
def BlockOf (hist src block : Bytes) : Prop :=
  ∃ ss last, block = blockBytes ss 0 last ∧ Within hist.length ss ∧ EndRules src.length 0 ss
    ∧ expandLength ss + last.length = src.length ∧ expand hist ss ++ last = hist ++ src

theorem Within.mono {pos pos' : ℕ} {ss : List Sequence} (h : Within pos ss) (hle : pos ≤ pos') :
    Within pos' ss := by
  induction ss generalizing pos pos' with
  | nil => exact trivial
  | cons s ss ih =>
      obtain ⟨hlen, hoff, hin, hrest⟩ := h
      exact ⟨hlen, hoff, by omega, ih hrest (by omega)⟩

/-- Sequences that stay within the history do not see what is in front of it. -/
theorem expand_append_left {hist : Bytes} {ss : List Sequence} (pre : Bytes)
    (h : Within hist.length ss) : expand (pre ++ hist) ss = pre ++ expand hist ss := by
  induction ss generalizing hist with
  | nil => rfl
  | cons s ss ih =>
      obtain ⟨-, -, hin, hrest⟩ := h
      have hone : s.expand (pre ++ hist) = pre ++ s.expand hist := by
        have hle : s.offset ≤ (hist ++ s.lits).length := by
          rw [List.length_append]
          exact hin
        rw [Sequence.expand, List.append_assoc, extend_append pre _ _ hle]
        rfl
      rw [expand_cons, expand_cons, hone, ih]
      rwa [length_sequence_expand]

/-- A longer history does not matter. -/
theorem BlockOf.longer {hist hist' src block : Bytes} (h : BlockOf hist src block)
    (hsuf : hist <:+ hist') : BlockOf hist' src block := by
  obtain ⟨pre, rfl⟩ := hsuf
  obtain ⟨ss, last, hblock, hwithin, hends, hlen, hexp⟩ := h
  refine ⟨ss, last, hblock, hwithin.mono ?_, hends, hlen, ?_⟩
  · rw [List.length_append]
    exact Nat.le_add_left _ _
  · rw [expand_append_left pre hwithin, List.append_assoc, hexp, List.append_assoc]

theorem BlockOf.ne_nil {hist src block : Bytes} (h : BlockOf hist src block) : block ≠ [] := by
  obtain ⟨ss, last, rfl, -⟩ := h
  rw [blockBytes, lastBytes]
  simp

/-- **A block of a source is decoded to it**, into any buffer that is long enough. -/
theorem BlockOf.decode {hist src block : Bytes} (h : BlockOf hist src block) {cap : ℕ}
    (hcap : src.length ≤ cap) : plainDecode ext hist block cap = .ok src := by
  obtain ⟨ss, last, rfl, hwithin, hends, hlen, hexp⟩ := h
  rw [← hlen] at hends hcap
  rw [plainDecode_complete hwithin hends hcap (.inl rfl), hexp, List.drop_left]

/-- The empty block. -/
theorem blockOf_nil (hist : Bytes) : BlockOf hist [] [0] :=
  ⟨[], [], rfl, trivial, trivial, rfl, rfl⟩

end Plz4.Lz4
