/-
The two decode functions the bindings call (`LZ4_decompress_safe` and
`LZ4_decompress_safe_usingDict`) on arbitrary input.

Both are instances of the generic decoder, so both compute the plain decoder and neither
makes an undefined access. Which loops a build compiles in and what the destination held
before do not show. Where the dictionary lies can show, but only in whether a block that
breaks the end-of-block conditions is refused.
-/
import Plz4.Lz4.Block

set_option autoImplicit false

namespace Plz4.Lz4

/-! ## The instances -/

/-- How many bytes of the history the decoder takes for an external dictionary. -/
def extLength (dict : Bytes) (adjacent : Bool) : ℕ := if adjacent then 0 else dict.length

/-- **`LZ4_decompress_safe`** computes the plain decoder. -/
theorem decompressSafe_spec (fastDecLoop : Bool) (src dst : Bytes) :
    ∃ r, decompressSafe fastDecLoop src dst = some r
      ∧ decoded r = plainDecode 0 [] src dst.length := by
  have hwf : (⟨fastDecLoop, src, 0, dst.length, .noDict, 0, []⟩ : DecEnv).Wf :=
    ⟨Nat.zero_le _, .inr (.inl ⟨rfl, rfl, rfl⟩)⟩
  obtain ⟨r, hr, hres⟩ := decompressGeneric_spec hwf (show dst.length = _ from rfl)
  exact ⟨r, hr, hres⟩

/-- **`LZ4_decompress_safe_usingDict`** computes the plain decoder behind the dictionary,
wherever that lies. -/
theorem decompressSafeUsingDict_spec (fastDecLoop : Bool) (src dst dict : Bytes) (adjacent : Bool) :
    ∃ r, decompressSafeUsingDict fastDecLoop src dst dict adjacent = some r
      ∧ decoded r = plainDecode (extLength dict adjacent) dict src dst.length := by
  rw [decompressSafeUsingDict]
  by_cases hempty : dict.length = 0
  · obtain rfl : dict = [] := List.length_eq_zero_iff.mp hempty
    have hext : extLength [] adjacent = 0 := by cases adjacent <;> rfl
    rw [if_pos hempty, hext]
    exact decompressSafe_spec fastDecLoop src dst
  rw [if_neg hempty]
  cases adjacent with
  | false =>
      have hwf : (⟨fastDecLoop, src, 0, dst.length, .usingExtDict, 0, dict⟩ : DecEnv).Wf :=
        ⟨Nat.zero_le _, .inl ⟨rfl, rfl⟩⟩
      obtain ⟨r, hr, hres⟩ := decompressGeneric_spec hwf (show dst.length = _ from rfl)
      refine ⟨r, hr, ?_⟩
      dsimp only at hres
      rw [List.take_zero, List.append_nil] at hres
      exact hres
  | true =>
      rw [if_pos rfl]
      set e : DecEnv := ⟨fastDecLoop, src, dict.length, dict.length + dst.length,
        if dict.length ≥ 65536 - 1 then .withPrefix64k else .noDict,
        if dict.length ≥ 65536 - 1 then dict.length - 65536 else 0, []⟩ with he
      have hwf : e.Wf := by
        refine ⟨Nat.le_add_right _ _, ?_⟩
        rw [he]
        split_ifs with hlong
        · exact .inr (.inr ⟨rfl, rfl, hlong, rfl⟩)
        · exact .inr (.inl ⟨rfl, rfl, rfl⟩)
      obtain ⟨r, hr, hres⟩ := decompressGeneric_spec hwf (show (dict ++ dst).length = _ from List.length_append)
      refine ⟨(r.1, r.2.drop dict.length), ?_, ?_⟩
      · dsimp only
        rw [← he, hr]
        rfl
      · rw [decoded]
        dsimp only
        rw [he] at hres
        dsimp only at hres
        rw [hres, List.nil_append, List.take_left, Nat.add_sub_cancel_left]
        rfl

/-! ## What the placement of the dictionary is good for -/

variable {ext : ℕ}

/-- A match in an external dictionary is held to the end-of-block conditions, and nothing
else depends on where the dictionary lies. -/
theorem plainMatch_ext (token : UInt8) (short : Prop) [Decidable short] (p : Plain) :
    (∃ unread, plainMatch ext token short p = .error unread)
      ∨ plainMatch ext token short p = plainMatch 0 token short p := by
  rw [plainMatch, plainMatch]
  rcases plainMatchLength token (p.rest.drop 2) with unread | ⟨length, rest⟩
  · exact .inr rfl
  · dsimp only
    by_cases hbad : p.win.length < LittleEndian.get (p.rest.take 2) ∨ p.room < length + lastLiterals
    · rw [if_pos hbad]
      by_cases hquick : short ∧ token.toNat % 16 ≠ mlMask ∧ 8 ≤ LittleEndian.get (p.rest.take 2)
          ∧ LittleEndian.get (p.rest.take 2) + ext ≤ p.win.length
      · obtain ⟨hshort, hml, h8, hfar⟩ := hquick
        rw [if_pos ⟨hshort, hml, h8, hfar⟩, if_pos ⟨hshort, hml, h8, by omega⟩]
        exact .inr rfl
      · rw [if_neg hquick]
        exact .inl ⟨_, rfl⟩
    · rw [if_neg hbad, ite_self, ite_self]
      exact .inr rfl

theorem plainStep_ext (ext : ℕ) (p : Plain) :
    (∃ unread, plainStep ext p = .error unread) ∨ plainStep ext p = plainStep 0 p := by
  rw [plainStep, plainStep]
  rcases p.rest with _ | ⟨token, rest₁⟩
  · exact .inr rfl
  · dsimp only
    rcases plainLitLength token rest₁ with unread | ⟨length, rest⟩
    · exact .inr rfl
    · dsimp only
      split_ifs
      · exact .inr rfl
      · exact .inr rfl
      · exact plainMatch_ext token _ _

theorem plainLoop_ext {k : ℕ} {p : Plain} {out : Bytes} (h : plainLoop ext k (.next p) = .ok out) :
    plainLoop 0 k (.next p) = .ok out := by
  induction k generalizing p with
  | zero => cases h
  | succ k ih =>
      rw [plainLoop] at h ⊢
      rcases plainStep_ext ext p with ⟨unread, hstep⟩ | hstep
      · rw [hstep, plainLoop] at h
        cases h
      · rw [hstep] at h
        rcases hnext : plainStep 0 p with p' | win | unread
        · rw [hnext] at h
          exact ih h
        · rw [hnext, plainLoop] at h
          rw [plainLoop]
          exact h
        · rw [hnext, plainLoop] at h
          cases h

/-- What is decoded with an external dictionary is decoded with a prefix. -/
theorem plainDecode_ext {hist src out : Bytes} {cap : ℕ} (h : plainDecode ext hist src cap = .ok out) :
    plainDecode 0 hist src cap = .ok out := by
  rw [plainDecode] at h ⊢
  split_ifs at h ⊢ with hnil hcap hzero
  · exact h
  · rcases hloop : plainLoop ext src.length (.next ⟨src, hist, cap⟩) with unread | win
    · rw [hloop] at h
      cases h
    · rw [hloop] at h
      rw [plainLoop_ext hloop]
      exact h

/-! ## What a longer buffer is good for -/

/-- More room. -/
def Plain.more (p : Plain) (extra : ℕ) : Plain := { p with room := p.room + extra }

/-- A longer buffer changes nothing about a match that was decoded. -/
theorem plainMatch_more {token : UInt8} {short short' : Prop} [Decidable short] [Decidable short']
    {p p' : Plain} (extra : ℕ) (himp : short → short') (h18 : short → 18 ≤ p.room)
    (h : plainMatch ext token short p = .next p') :
    plainMatch ext token short' (p.more extra) = .next (p'.more extra) := by
  have h4 : minMatch = 4 := rfl
  have hml : mlMask = 15 := rfl
  rw [plainMatch] at h ⊢
  rw [Plain.more]
  dsimp only at h ⊢
  rcases hmatch : plainMatchLength token (p.rest.drop 2) with unread | ⟨k, tail⟩
  · rw [hmatch] at h
    cases h
  obtain ⟨hlow, -, hk⟩ := plainMatchLength_eq_ok hmatch
  rw [hmatch] at h
  dsimp only at h ⊢
  set offset := LittleEndian.get (p.rest.take 2) with hoffset
  by_cases hquick : short ∧ token.toNat % 16 ≠ mlMask ∧ 8 ≤ offset ∧ offset + ext ≤ p.win.length
  · obtain ⟨hshort, hfar⟩ := hquick
    have hroom := h18 hshort
    rw [if_pos ⟨hshort, hfar⟩, PlainNext.next.injEq] at h
    rw [if_pos ⟨himp hshort, hfar⟩, ← h, Plain.more]
    dsimp only
    rw [show p.room + extra - k = p.room - k + extra by omega]
  · rw [if_neg hquick] at h
    by_cases hbad : p.win.length < offset ∨ p.room < k + lastLiterals
    · rw [if_pos hbad] at h
      cases h
    · rw [if_neg hbad, PlainNext.next.injEq] at h
      rw [if_neg (show ¬ (_ ∨ p.room + extra < k + lastLiterals) by omega), ite_self, ← h, Plain.more]
      dsimp only
      rw [show p.room + extra - k = p.room - k + extra by omega]

theorem plainMatch_ne_done {token : UInt8} {short : Prop} [Decidable short] {p : Plain} {win : Bytes} :
    plainMatch ext token short p ≠ .done win := by
  rw [plainMatch]
  rcases plainMatchLength token (p.rest.drop 2) with unread | ⟨k, tail⟩
  · exact fun h => (by cases h)
  · dsimp only
    split_ifs
    all_goals exact fun h => (by cases h)

/-- A longer buffer changes nothing about a sequence that was decoded. -/
theorem plainStep_more (ext : ℕ) {p : Plain} (extra : ℕ) :
    (∀ p', plainStep ext p = .next p' → plainStep ext (p.more extra) = .next (p'.more extra))
      ∧ (∀ win, plainStep ext p = .done win → plainStep ext (p.more extra) = .done win) := by
  obtain ⟨rest, win, room⟩ := p
  have h15 : runMask = 15 := rfl
  have hmf : mfLimit = 12 := rfl
  rw [Plain.more, plainStep, plainStep]
  rcases rest with _ | ⟨token, rest₁⟩
  · exact ⟨fun _ h => (by cases h), fun _ h => (by cases h)⟩
  dsimp only
  rcases hlit : plainLitLength token rest₁ with unread | ⟨n, rest⟩
  · exact ⟨fun _ h => (by cases h), fun _ h => (by cases h)⟩
  obtain ⟨hhigh, rfl⟩ := plainLitLength_eq_ok hlit
  dsimp only
  by_cases hlast : ¬ (token.toNat / 16 ≠ runMask ∧ 17 ≤ (lengthBytes n ++ rest).length ∧ 32 ≤ room)
      ∧ (room < n + mfLimit ∨ rest.length < n + 8)
  · rw [if_pos hlast]
    by_cases hdone : rest.length = n ∧ n ≤ room
    · -- the last literals are never taken for a common sequence
      obtain ⟨rfl, hle⟩ := hdone
      have hlong : ¬ (token.toNat / 16 ≠ runMask
          ∧ 17 ≤ (lengthBytes rest.length ++ rest).length ∧ 32 ≤ room + extra) := by
        rintro ⟨hne, hlen, -⟩
        rw [lengthBytes, if_pos (by omega), List.nil_append] at hlen
        omega
      rw [if_pos ⟨rfl, hle⟩, if_pos ⟨hlong, .inr (by omega)⟩, if_pos ⟨rfl, by omega⟩]
      exact ⟨fun _ h => (by cases h), fun _ h => h⟩
    · rw [if_neg hdone]
      exact ⟨fun _ h => (by cases h), fun _ h => (by cases h)⟩
  · have hmore : ¬ (¬ (token.toNat / 16 ≠ runMask ∧ 17 ≤ (lengthBytes n ++ rest).length
        ∧ 32 ≤ room + extra) ∧ (room + extra < n + mfLimit ∨ rest.length < n + 8)) := by
      rintro ⟨hlong, hend⟩
      apply hlast
      exact ⟨fun hshort => hlong ⟨hshort.1, hshort.2.1, by omega⟩, by omega⟩
    have hroom : n ≤ room := by
      by_cases hshort : token.toNat / 16 ≠ runMask ∧ 17 ≤ (lengthBytes n ++ rest).length ∧ 32 ≤ room
      · omega
      · have hnot : ¬ (room < n + mfLimit ∨ rest.length < n + 8) := fun hc => hlast ⟨hshort, hc⟩
        omega
    rw [if_neg hlast, if_neg hmore, show room + extra - n = room - n + extra by omega]
    refine ⟨fun p' h => ?_, fun _ h => absurd h plainMatch_ne_done⟩
    refine plainMatch_more extra (fun hs => ⟨hs.1, hs.2.1, by omega⟩) (fun hs => ?_) h
    have h32 := hs.2.2
    change 18 ≤ room - n
    omega

theorem plainLoop_more {k : ℕ} {p : Plain} {out : Bytes} (extra : ℕ)
    (h : plainLoop ext k (.next p) = .ok out) : plainLoop ext k (.next (p.more extra)) = .ok out := by
  induction k generalizing p with
  | zero => cases h
  | succ k ih =>
      obtain ⟨hnext, hdone⟩ := plainStep_more ext (p := p) extra
      rw [plainLoop] at h ⊢
      rcases hstep : plainStep ext p with p' | win | unread
      · rw [hstep] at h
        rw [hnext p' hstep]
        exact ih h
      · rw [hstep] at h
        rw [hdone win hstep]
        exact h
      · rw [hstep, plainLoop] at h
        cases h

/-- **A longer buffer does not matter** to a block that was decoded into a shorter one. -/
theorem plainDecode_more {hist src out : Bytes} {cap cap' : ℕ} (hle : cap ≤ cap')
    (h : plainDecode ext hist src cap = .ok out) : plainDecode ext hist src cap' = .ok out := by
  obtain ⟨extra, rfl⟩ : ∃ extra, cap' = cap + extra := ⟨cap' - cap, by omega⟩
  rw [plainDecode] at h ⊢
  by_cases hnil : src = []
  · rw [if_pos hnil] at h
    cases h
  rw [if_neg hnil] at h ⊢
  by_cases hcap : cap = 0
  · rw [if_pos hcap] at h
    by_cases hzero : src = [0]
    · subst hzero
      rw [if_pos rfl] at h
      by_cases hextra : cap + extra = 0
      · rw [if_pos hextra, if_pos rfl]
        exact h
      · -- the empty block is decoded into any buffer
        have hloop : plainLoop ext [(0 : UInt8)].length (.next ⟨[0], hist, cap + extra⟩) = .ok hist := by
          have hstep : plainStep ext ⟨lastBytes 0 [], hist, cap + extra⟩ = .done (hist ++ []) :=
            plainStep_last 0 (Nat.zero_le _)
          have hbytes : lastBytes 0 [] = [0] := rfl
          rw [hbytes, List.append_nil] at hstep
          change plainLoop ext 0 (plainStep ext ⟨[0], hist, cap + extra⟩) = _
          rw [hstep, plainLoop]
        rw [if_neg hextra, hloop]
        dsimp only
        rw [List.drop_length]
        exact h
    · rw [if_neg hzero] at h
      cases h
  · rw [if_neg hcap] at h
    rw [if_neg (by omega)]
    rcases hloop : plainLoop ext src.length (.next ⟨src, hist, cap⟩) with unread | win
    · rw [hloop] at h
      cases h
    · rw [hloop] at h
      have hmore := plainLoop_more extra hloop
      rw [Plain.more] at hmore
      rw [hmore]
      exact h

/-! ## The two functions -/

variable {src dst dict : Bytes} {fastDecLoop adjacent : Bool}

/-- **The decode functions are exact.** On every input, into any memory and wherever the
dictionary lies, neither build makes an undefined access, and both return what the plain
decoder does. -/
theorem decompress_exact (src dst dict : Bytes) (fastDecLoop adjacent : Bool) :
    (∃ r, decompressSafe fastDecLoop src dst = some r
        ∧ decoded r = plainDecode 0 [] src dst.length)
      ∧ ∃ r, decompressSafeUsingDict fastDecLoop src dst dict adjacent = some r
        ∧ decoded r = plainDecode (extLength dict adjacent) dict src dst.length :=
  ⟨decompressSafe_spec fastDecLoop src dst,
    decompressSafeUsingDict_spec fastDecLoop src dst dict adjacent⟩

/-- What a result stands for. -/
theorem decoded_eq {r : ℤ × Bytes}
    (h : decompressSafeUsingDict fastDecLoop src dst dict adjacent = some r) :
    decoded r = plainDecode (extLength dict adjacent) dict src dst.length := by
  obtain ⟨r', hr', hdec⟩ := decompressSafeUsingDict_spec fastDecLoop src dst dict adjacent
  rw [hr', Option.some_inj] at h
  rw [← h, hdec]

/-- **Only blocks are accepted.** What a decode function accepts is a block none of whose
offsets reaches back further than the dictionary, and what it wrote is what the block
stands for, no more than there was room for. -/
theorem decompress_sound {r : ℤ × Bytes} {out : Bytes}
    (hrun : decompressSafeUsingDict fastDecLoop src dst dict adjacent = some r)
    (hout : decoded r = .ok out) :
    ∃ ss low last, src = blockBytes ss low last ∧ Within dict.length ss
      ∧ dict ++ out = expand dict ss ++ last ∧ out.length ≤ dst.length := by
  rw [decoded_eq hrun] at hout
  exact plainDecode_sound hout

/-- A match of four bytes in the dictionary, and five literals. -/
theorem decompress_sound_match :
    ∃ ss low last, ([0, 4, 0, 0x50, 5, 6, 7, 8, 9] : Bytes) = blockBytes ss low last
      ∧ Within [1, 2, 3, 4].length ss
      ∧ ([1, 2, 3, 4] : Bytes) ++ [1, 2, 3, 4, 5, 6, 7, 8, 9] = expand [1, 2, 3, 4] ss ++ last
      ∧ ([1, 2, 3, 4, 5, 6, 7, 8, 9] : Bytes).length ≤ (List.replicate 64 (0 : UInt8)).length := by
  obtain ⟨r, hr⟩ : ∃ r, decompressSafeUsingDict false [0, 4, 0, 0x50, 5, 6, 7, 8, 9]
      (List.replicate 64 0) [1, 2, 3, 4] false = some r := Option.isSome_iff_exists.mp (by decide +kernel)
  have hout : (decompressSafeUsingDict false [0, 4, 0, 0x50, 5, 6, 7, 8, 9]
      (List.replicate 64 0) [1, 2, 3, 4] false).map decoded = some (.ok [1, 2, 3, 4, 5, 6, 7, 8, 9]) := by
    decide +kernel
  rw [hr, Option.map_some, Option.some_inj] at hout
  exact decompress_sound hr hout

/-- **Blocks that keep the rules are accepted**, behind any history they stay within and
into any buffer that is long enough, whatever the low bits of the last token are; into an
empty buffer only if they are zero. -/
theorem decompress_complete {ss : List Sequence} {low : ℕ} {last : Bytes}
    (hwithin : Within dict.length ss) (hends : EndRules (expandLength ss + last.length) 0 ss)
    (hcap : expandLength ss + last.length ≤ dst.length) (hlow : low = 0 ∨ 0 < dst.length) :
    ∃ r, decompressSafeUsingDict fastDecLoop (blockBytes ss low last) dst dict adjacent = some r
      ∧ decoded r = .ok ((expand dict ss ++ last).drop dict.length) := by
  obtain ⟨r, hr, hdec⟩ :=
    decompressSafeUsingDict_spec fastDecLoop (blockBytes ss low last) dst dict adjacent
  exact ⟨r, hr, hdec.trans (plainDecode_complete hwithin hends hcap hlow)⟩

/-- An overlapping match, far from the end, and low bits in the last token. -/
theorem decompress_complete_run :
    ∃ r, decompressSafeUsingDict true (blockBytes [⟨[7], 1, 20⟩] 9 [1, 2, 3, 4, 5])
      (List.replicate 26 0) []
        false = some r
      ∧ decoded r = .ok ((expand [] [⟨[7], 1, 20⟩] ++ [1, 2, 3, 4, 5]).drop ([] : Bytes).length) :=
  decompress_complete (by decide) (by decide) (by decide) (.inr (by decide))

/-- **What is accepted is accepted elsewhere.** A block that one build has decoded is decoded
by the other, into any longer buffer, and to the same, if the dictionary lies right in
front of that. -/
theorem decompress_stable {r : ℤ × Bytes} {out dst' : Bytes} (fastDecLoop' : Bool)
    (hrun : decompressSafeUsingDict fastDecLoop src dst dict adjacent = some r)
    (hout : decoded r = .ok out) (hle : dst.length ≤ dst'.length) :
    ∃ r', decompressSafeUsingDict fastDecLoop' src dst' dict true = some r' ∧ decoded r' = .ok out := by
  obtain ⟨r', hr', hdec⟩ := decompressSafeUsingDict_spec fastDecLoop' src dst' dict true
  rw [decoded_eq hrun] at hout
  exact ⟨r', hr', hdec.trans (plainDecode_more hle (plainDecode_ext hout))⟩

theorem decompress_stable_match :
    ∃ r', decompressSafeUsingDict true [0, 4, 0, 0x50, 5, 6, 7, 8, 9] (List.replicate 100 1) [1, 2, 3, 4]
        true = some r'
      ∧ decoded r' = .ok [1, 2, 3, 4, 5, 6, 7, 8, 9] := by
  obtain ⟨r, hr⟩ : ∃ r, decompressSafeUsingDict false [0, 4, 0, 0x50, 5, 6, 7, 8, 9]
      (List.replicate 64 0) [1, 2, 3, 4] false = some r := Option.isSome_iff_exists.mp (by decide +kernel)
  have hout : (decompressSafeUsingDict false [0, 4, 0, 0x50, 5, 6, 7, 8, 9]
      (List.replicate 64 0) [1, 2, 3, 4] false).map decoded = some (.ok [1, 2, 3, 4, 5, 6, 7, 8, 9]) := by
    decide +kernel
  rw [hr, Option.map_some, Option.some_inj] at hout
  exact decompress_stable true hr hout (by decide)

end Plz4.Lz4
