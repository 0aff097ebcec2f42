/-
What the compressor's contexts keep, and what comes out of a call.

A context may be used again and again: with its tables left as they are and only moved
out of reach, with a dictionary loaded over them, or with a loaded dictionary attached.
`LZ4Stream.Ok` is what all of this needs of the tables, and every operation keeps it. A call on
such a context makes no undefined access and returns a block of the source behind the
context's history, or 0, and then the destination is shorter than the bound.
-/
import Plz4.Lz4.CompressSpec
import Plz4.Lz4.CompressStream

set_option autoImplicit false

namespace Plz4.Lz4

open Mem

/-! ## Invariants -/

/-- A loaded dictionary: every entry of its table is unused, or stands for a place from
which eight bytes can be read. -/
structure StreamData.Loaded (d : StreamData) : Prop where
  offset : d.currentOffset = 65536
  dictSize_le : d.dictSize ≤ 65536
  entries : ∀ h, d.hashTable h = 0
    ∨ (65536 ≤ d.hashTable h + d.dictSize ∧ d.hashTable h + 8 ≤ 65536)
  cleared : d.tableType = .clearedTable → ∀ h, d.hashTable h = 0

/-- A context that may be used. -/
structure LZ4Stream.Ok (s : LZ4Stream) : Prop where
  entries : ∀ h, s.hashTable h = 0 ∨ s.hashTable h + minMatch ≤ s.currentOffset
  dictSize_le : s.dictSize ≤ s.currentOffset
  offset_le : s.currentOffset ≤ 2 ^ 31 + 65536
  cleared : s.tableType = .clearedTable → ∀ h, s.hashTable h = 0
  dictCtx : ∀ d, s.dictCtx = some d →
    d.Loaded ∧ 65536 ≤ s.currentOffset ∧ s.dictionary = []

/-- The bytes a call may refer back to. -/
def LZ4Stream.history (s : LZ4Stream) : Bytes := s.dictCtx.elim s.dictionary StreamData.dictionary

theorem ok_initStream : initStream.Ok :=
  ⟨fun _ => .inl rfl, Nat.le_refl _, Nat.zero_le _, fun _ _ => rfl, fun _ h => (by cases h)⟩

theorem StreamData.Loaded.ok {d : StreamData} (h : d.Loaded) : (⟨d, none⟩ : LZ4Stream).Ok := by
  have hoff := h.offset
  have hsize := h.dictSize_le
  refine ⟨fun x => ?_, ?_, ?_, h.cleared, fun _ h => (by cases h)⟩
  · have h4 : minMatch = 4 := rfl
    rcases h.entries x with hzero | ⟨-, hle⟩
    · exact .inl hzero
    · exact .inr (by dsimp only; omega)
  · change d.dictSize ≤ d.currentOffset
    omega
  · dsimp only
    omega

/-! ## Resetting and attaching -/

/-- A context that may be reset, whatever its history is. -/
structure LZ4Stream.Resettable (s : LZ4Stream) : Prop where
  entries : ∀ h, s.hashTable h = 0 ∨ s.hashTable h + minMatch ≤ s.currentOffset
  offset_le : s.currentOffset ≤ 2 ^ 31
  cleared : s.tableType = .clearedTable → ∀ h, s.hashTable h = 0

theorem LZ4Stream.Ok.resettable {s : LZ4Stream} (h : s.Ok) (hle : s.currentOffset ≤ 2 ^ 31) :
    s.Resettable :=
  ⟨h.entries, hle, h.cleared⟩

/-- A table is left as it is or cleared. -/
theorem resetTable_spec {s : LZ4Stream} (h : s.Resettable) (inputSize : ℕ) (tableType : TableType) :
    (∀ x, (resetTable s inputSize tableType).hashTable x = 0
        ∨ (resetTable s inputSize tableType).hashTable x + minMatch
          ≤ (resetTable s inputSize tableType).currentOffset)
      ∧ (resetTable s inputSize tableType).currentOffset ≤ s.currentOffset
      ∧ ((resetTable s inputSize tableType).tableType = .clearedTable →
          ∀ x, (resetTable s inputSize tableType).hashTable x = 0) := by
  rw [resetTable]
  split_ifs
  · exact ⟨fun _ => .inl rfl, Nat.zero_le _, fun _ _ => rfl⟩
  · exact ⟨h.entries, le_refl _, h.cleared⟩

/-- **A reset context** is fit for use; its own history is gone. -/
theorem resetStreamFast_spec {s : LZ4Stream} (h : s.Resettable) :
    (resetStreamFast s).Ok ∧ (resetStreamFast s).history = [] ∧ (resetStreamFast s).dictCtx = none
      ∧ ((resetStreamFast s).currentOffset = 0 ∨ 65536 ≤ (resetStreamFast s).currentOffset) := by
  obtain ⟨hentries, hoff, hcleared⟩ := resetTable_spec h 0 .byU32
  have hle := h.offset_le
  rw [resetStreamFast, prepareTable]
  dsimp only
  set r := resetTable s 0 .byU32 with hr
  by_cases hzero : r.currentOffset = 0
  · rw [if_neg (fun hc => hc.1 hzero)]
    exact ⟨⟨hentries, Nat.zero_le _, by dsimp only; omega, hcleared, fun _ h => (by cases h)⟩, rfl, rfl,
      .inl hzero⟩
  · have hsum : u32 (r.currentOffset + 65536) = r.currentOffset + 65536 := by
      rw [u32]
      omega
    rw [if_pos ⟨hzero, rfl⟩, hsum]
    refine ⟨⟨fun x => ?_, Nat.zero_le _, by dsimp only; omega, hcleared, fun _ h => (by cases h)⟩, rfl,
      rfl, .inr (Nat.le_add_left _ _)⟩
    rcases hentries x with hx | hx
    · exact .inl hx
    · exact .inr (by dsimp only; omega)

/-- **Attaching a loaded dictionary** to a context that has been reset. -/
theorem attachDictionary_spec {s d : LZ4Stream} (h : s.Ok) (hhist : s.history = [])
    (hctx : s.dictCtx = none) (hoff : s.currentOffset = 0 ∨ 65536 ≤ s.currentOffset)
    (hd : d.toStreamData.Loaded) :
    (attachDictionary s (some d)).Ok ∧ (attachDictionary s (some d)).history = d.dictionary := by
  have h4 : minMatch = 4 := rfl
  have hnil : s.dictionary = [] := by
    rw [LZ4Stream.history, hctx] at hhist
    exact hhist
  rw [attachDictionary]
  set off := if s.currentOffset = 0 then 65536 else s.currentOffset with hoffdef
  have hoff' : 65536 ≤ off ∧ s.currentOffset ≤ off ∧ off ≤ 2 ^ 31 + 65536 := by
    have hle := h.offset_le
    split_ifs at hoffdef with hzero
    · omega
    · omega
  have hentries : ∀ x, s.hashTable x = 0 ∨ s.hashTable x + minMatch ≤ off := by
    intro x
    rcases h.entries x with hzero | hx
    · exact .inl hzero
    · exact .inr (by omega)
  by_cases hempty : d.dictSize = 0
  · rw [if_pos hempty]
    have hdnil : d.dictionary = [] := List.length_eq_zero_iff.mp hempty
    refine ⟨⟨hentries, ?_, hoff'.2.2, h.cleared, fun _ h => (by cases h)⟩, ?_⟩
    · change s.dictionary.length ≤ off
      rw [hnil]
      exact Nat.zero_le _
    · rw [LZ4Stream.history, hdnil]
      exact hnil
  · rw [if_neg hempty]
    refine ⟨⟨hentries, ?_, hoff'.2.2, h.cleared, ?_⟩, rfl⟩
    · change s.dictionary.length ≤ off
      rw [hnil]
      exact Nat.zero_le _
    · intro d' hd'
      obtain rfl := Option.some.inj hd'
      exact ⟨hd, hoff'.1, hnil⟩

/-! ## Loading -/

/-- The loops enter places of the dictionary only. -/
theorem loadDictLoop_spec {dict : Bytes} {step i k idx32 : ℕ} {p : ℤ} {table : HashTable}
    (write : ℕ → Bool) (hidx : idx32 + dict.length = 65536 + i) (hp : p = i) (hi : i ≤ dict.length)
    (hstep : 0 < step) (hstep8 : step ≤ 8) (hk : dict.length < i + k)
    (htable : ∀ h, table h = 0 ∨ (65536 ≤ table h + dict.length ∧ table h + 8 ≤ 65536)) :
    ∃ table', loadDictLoop dict step write k p idx32 table = some table'
      ∧ ∀ h, table' h = 0 ∨ (65536 ≤ table' h + dict.length ∧ table' h + 8 ≤ 65536) := by
  induction k generalizing i idx32 p table with
  | zero => omega
  | succ k ih =>
      rw [loadDictLoop]
      by_cases hgo : p ≤ dict.length - 8
      · obtain ⟨h, hh⟩ := hashPosition_isSome (m := dict) hp (by omega) .byU32
        rw [if_pos hgo, hh]
        simp only [Option.bind_eq_bind, Option.bind_some]
        apply ih (i := i + step) (by omega) (by omega) (by omega) (by omega)
        intro x
        split_ifs
        · rw [putIndexOnHash, if_neg (by decide)]
          by_cases hx : x = h
          · rw [hx, Function.update_self, u32]
            omega
          · rw [Function.update_of_ne hx]
            exact htable x
        · exact htable x
      · rw [if_neg hgo]
        exact ⟨table, rfl, htable⟩

/-- **Loading a dictionary** works for every dictionary, and what it leaves of it is its
end, or nothing if it is too short. -/
theorem loadDictInternal_spec (slow : Bool) (dict : Bytes) :
    ∃ s, loadDictInternal slow dict = some s ∧ s.toStreamData.Loaded ∧ s.dictCtx = none
      ∧ s.dictionary <:+ dict := by
  rw [loadDictInternal]
  dsimp only
  by_cases hshort : dict.length < 8
  · rw [if_pos hshort]
    exact ⟨_, rfl, ⟨rfl, Nat.zero_le _, fun _ => .inl rfl, fun _ _ => rfl⟩, rfl, List.nil_suffix⟩
  rw [if_neg hshort]
  have hlen : (dict.rtake 65536).length ≤ 65536 := by
    rw [List.length_rtake]
    exact Nat.min_le_left _ _
  have hsuf : dict.rtake 65536 <:+ dict := List.drop_suffix _ _
  generalize dict.rtake 65536 = d at hlen hsuf ⊢
  have hloaded : ∀ t : HashTable,
      (∀ h, t h = 0 ∨ (65536 ≤ t h + d.length ∧ t h + 8 ≤ 65536)) →
      (⟨t, 65536, .byU32, d⟩ : StreamData).Loaded := by
    intro t ht
    refine ⟨rfl, ?_, ?_, fun h => (by cases h)⟩
    · rw [StreamData.dictSize]
      exact hlen
    · intro h
      rw [StreamData.dictSize]
      exact ht h
  have hidx : 65536 - d.length + d.length = 65536 + 0 := by omega
  obtain ⟨t₁, ht₁, hentries₁⟩ := loadDictLoop_spec (p := 0) (k := d.length + 1) (fun _ => true) hidx rfl
    (by omega) (show 0 < 3 by omega) (by omega) (by omega)
    (show ∀ h, initStream.hashTable h = 0 ∨ _ from fun _ => .inl rfl)
  obtain ⟨t₂, ht₂, hentries₂⟩ := loadDictLoop_spec (p := 0) (k := d.length + 1)
    (fun i => decide (i ≤ 65536 - 65536)) hidx rfl (by omega) (show 0 < 1 by omega) (by omega) (by omega)
    hentries₁
  simp only [ht₁, Option.bind_eq_bind, Option.bind_some]
  cases slow with
  | false =>
      rw [if_neg (by decide)]
      exact ⟨_, rfl, hloaded t₁ hentries₁, rfl, hsuf⟩
  | true =>
      rw [if_pos rfl, ht₂]
      exact ⟨_, rfl, hloaded t₂ hentries₂, rfl, hsuf⟩

/-! ## The generic compressor on a context -/

section Env

variable (s : LZ4Stream) (src hist : Bytes) (cap acceleration : ℕ) (out : OutputDirective)
  (tableType : TableType) (dictDirective : DictDirective) (dictIssue : DictIssue)

theorem inputSize_compEnv :
    (compEnv s src cap out tableType dictDirective dictIssue acceleration).inputSize = src.length := by
  rw [compEnv, CompEnv.inputSize]
  dsimp only
  rw [List.length_append, Nat.add_sub_cancel_left]

theorem win_compEnv :
    (compEnv s src cap out tableType dictDirective dictIssue acceleration).win hist = hist ++ src := by
  rw [compEnv, CompEnv.win]
  dsimp only
  rw [List.drop_left]

end Env

variable {s : LZ4Stream} {src hist : Bytes} {cap acceleration : ℕ} {out : OutputDirective}
  {tableType : TableType} {dictDirective : DictDirective} {dictIssue : DictIssue}

/-- What the modes need of a context. -/
theorem wf_compEnv
    (hdict : (if dictDirective = .usingDictCtx then (s.dictCtx.getD s.toStreamData).dictionary
      else s.dictionary) = hist)
    (hnone : dictDirective = .noDict → hist = []) (hle : hist.length ≤ s.currentOffset)
    (hidx : s.currentOffset + src.length ≤ 2 ^ 31)
    (hsmall : tableType = .byU16 → s.currentOffset + src.length < limit64K)
    (hacc : 1 ≤ acceleration)
    (hctx : dictDirective = .usingDictCtx → tableType = .byU32
      ∧ ∃ d, s.dictCtx = some d ∧ d.Loaded ∧ 65536 ≤ s.currentOffset) :
    (compEnv s src cap out tableType dictDirective dictIssue acceleration).Wf hist := by
  have h4 : minMatch = 4 := rfl
  have hmax : distanceMax = 65535 := rfl
  have hsize := inputSize_compEnv s src cap acceleration out tableType dictDirective dictIssue
  have hwin := win_compEnv s src hist cap acceleration out tableType dictDirective dictIssue
  refine ⟨?_, ?_, hle, fun _ => hdict, ?_, hnone, ?_, ?_, hacc, ?_, ?_⟩
  · rw [compEnv]
    dsimp only
    rw [List.length_append]
    exact Nat.le_add_right _ _
  · rw [← hdict]
    rfl
  · intro hext
    rw [CompEnv.maybeExtMem, decide_eq_false_iff_not] at hext
    have hbefore : (if dictDirective = .withPrefix64k then s.dictionary else []) = hist := by
      cases dictDirective with
      | noDict => rw [if_neg (by decide), hnone rfl]
      | withPrefix64k => rw [if_pos rfl, ← hdict, if_neg (by decide)]
      | usingExtDict => exact absurd (.inl rfl) hext
      | usingDictCtx => exact absurd (.inr rfl) hext
    rw [hwin, compEnv]
    dsimp only
    rw [hbefore, Nat.sub_self, List.drop_zero]
    exact ⟨le_refl _, rfl⟩
  · rw [hsize]
    change s.currentOffset + src.length + 65536 ≤ 2 ^ 32
    omega
  · intro h16
    rw [hsize]
    exact hsmall h16
  · intro hd
    obtain ⟨-, d, hs, hloaded, hoff⟩ := hctx hd
    change (s.dictCtx.getD s.toStreamData).currentOffset ≤ s.currentOffset
    rw [hs, Option.getD_some, hloaded.offset]
    exact hoff
  · intro hd h
    change dictDirective = .usingDictCtx at hd
    obtain ⟨htype, d, hs, hloaded, hoff⟩ := hctx hd
    have hlen : d.dictionary = hist := by rw [← hdict, if_pos hd, hs, Option.getD_some]
    have hentry := hloaded.entries h
    have hdoff := hloaded.offset
    rw [StreamData.dictSize, hlen] at hentry
    change (s.dictCtx.getD s.toStreamData).hashTable h < (s.dictCtx.getD s.toStreamData).currentOffset
      ∧ CompEnv.Covered _ hist ((s.dictCtx.getD s.toStreamData).hashTable h
        + (s.currentOffset - (s.dictCtx.getD s.toStreamData).currentOffset))
    rw [hs, Option.getD_some, hdoff]
    refine ⟨by omega, ?_⟩
    rcases hentry with hzero | ⟨hge, hle8⟩
    · refine .inr (.inl ⟨?_, ?_⟩)
      · change tableType ≠ .byU16
        rw [htype]
        decide
      · change d.hashTable h + (s.currentOffset - 65536) + distanceMax ≤ s.currentOffset
        omega
    · refine .inr (.inr ⟨?_, fun _ => ?_⟩)
      · change s.currentOffset ≤ _
        omega
      · change _ ≤ s.currentOffset
        omega

/-- The table of a context, for its own history. -/
theorem tableOk_compEnv (h : s.Ok) (htype : tableType = .byU32)
    (hhist : dictDirective ≠ .usingDictCtx → hist = s.dictionary)
    (hissue : dictIssue = .noDictIssue → dictDirective ≠ .usingDictCtx →
      65536 ≤ s.dictSize ∨ s.currentOffset ≤ s.dictSize)
    (hext : dictDirective = .usingExtDict → 4 ≤ s.dictSize) :
    (compEnv s src cap out tableType dictDirective dictIssue acceleration).TableOk hist 1 s.hashTable := by
  have h4 : minMatch = 4 := rfl
  have hmax : distanceMax = 65535 := rfl
  have hsize := h.dictSize_le
  intro x
  have hentry := h.entries x
  refine ⟨?_, fun hdir hbefore => ?_⟩
  · change s.hashTable x < s.currentOffset + 1
    omega
  change dictDirective ≠ .usingDictCtx at hdir
  change s.hashTable x < s.currentOffset at hbefore
  have hlen : hist.length = s.dictSize := by rw [hhist hdir, StreamData.dictSize]
  have hfour : CompEnv.maybeExtMem (compEnv s src cap out tableType dictDirective dictIssue acceleration) = true →
      s.hashTable x + minMatch ≤ s.currentOffset := by
    intro hmaybe
    rw [CompEnv.maybeExtMem, decide_eq_true_eq] at hmaybe
    have hext' := hext (hmaybe.resolve_right hdir)
    omega
  by_cases hfar : s.hashTable x + hist.length < s.currentOffset
  · cases hi : dictIssue with
    | dictSmall => exact .inl ⟨rfl, hfar⟩
    | noDictIssue =>
        refine .inr (.inl ⟨?_, ?_⟩)
        · change tableType ≠ .byU16
          rw [htype]
          decide
        · change s.hashTable x + distanceMax ≤ s.currentOffset
          have hlarge := hissue hi hdir
          omega
  · exact .inr (.inr ⟨by change s.currentOffset ≤ _; omega, hfour⟩)

/-- The table of a loaded dictionary, for the dictionary; it need not fill the window. -/
theorem StreamData.Loaded.tableOk {d : StreamData} (h : d.Loaded) :
    (compEnv ⟨d, none⟩ src cap out .byU32 .usingExtDict dictIssue acceleration).TableOk d.dictionary 1
      d.hashTable := by
  have h4 : minMatch = 4 := rfl
  have hmax : distanceMax = 65535 := rfl
  have hoff := h.offset
  intro x
  refine ⟨?_, fun _ _ => ?_⟩
  · change d.hashTable x < d.currentOffset + 1
    rcases h.entries x with hzero | ⟨-, hle⟩
    · omega
    · omega
  · rcases h.entries x with hzero | ⟨hge, hle⟩
    · refine .inr (.inl ⟨(by decide : TableType.byU32 ≠ .byU16), ?_⟩)
      change d.hashTable x + distanceMax ≤ d.currentOffset
      omega
    · rw [StreamData.dictSize] at hge
      refine .inr (.inr ⟨?_, fun _ => ?_⟩)
      · change d.currentOffset ≤ d.hashTable x + d.dictionary.length
        omega
      · change d.hashTable x + minMatch ≤ d.currentOffset
        omega

/-- What a call comes to: a block of the source, or 0 for want of room. -/
def Outcome (hist src mem : Bytes) (value : ℕ) (mem' : Bytes) : Prop :=
  mem'.length = mem.length
    ∧ ((value = 0 ∧ mem.length < compressBound src.length)
      ∨ (BlockOf hist src (mem'.take value) ∧ value ≤ mem.length))

/-- **`LZ4_compress_generic`** on a context and a destination that are fit for it. -/
theorem compressGeneric_spec (s : LZ4Stream) (hist src mem : Bytes) (cap : ℕ) (out : OutputDirective)
    (tableType : TableType) (dictDirective : DictDirective) (dictIssue : DictIssue) (acceleration : ℕ)
    (hn : src.length ≤ maxInputSize)
    (hwf : (compEnv s src cap out tableType dictDirective dictIssue acceleration).Wf hist)
    (htable : src ≠ [] → (compEnv s src cap out tableType dictDirective dictIssue acceleration).TableOk
      hist 1 s.hashTable)
    (hroom : (out = .limitedOutput ∧ cap = mem.length)
      ∨ (out = .notLimited ∧ compressBound src.length ≤ mem.length)) :
    ∃ value mem' s', compressGeneric s src mem cap out tableType dictDirective dictIssue acceleration
        = some (value, mem', s')
      ∧ Outcome hist src mem value mem'
      ∧ ((src = [] ∧ s' = s) ∨ (src ≠ [] ∧ ∃ table, s' = updateContext s src tableType dictDirective table
        ∧ (compEnv s src cap out tableType dictDirective dictIssue acceleration).TableLeft hist
          s.hashTable table)) := by
  have hbound : compressBound src.length = src.length + src.length / 255 + 16 := by
    rw [compressBound, if_neg (by omega)]
  rw [compressGeneric, if_neg (by omega)]
  by_cases hnil : src = []
  · subst hnil
    rw [List.length_nil] at hbound
    rw [List.length_nil, if_pos rfl]
    by_cases hfull : out ≠ .notLimited ∧ cap ≤ 0
    · rw [if_pos hfull]
      refine ⟨0, mem, s, rfl, ⟨rfl, .inl ⟨rfl, ?_⟩⟩, .inl ⟨rfl, rfl⟩⟩
      rcases hroom with ⟨-, hcap⟩ | ⟨hlim, -⟩
      · rw [List.length_nil, hbound]
        omega
      · exact absurd hlim hfull.1
    · have hpos : 1 ≤ mem.length := by
        rcases hroom with ⟨hlim, hcap⟩ | ⟨-, hcap⟩
        · rw [hlim] at hfull
          have hcap' : ¬ cap ≤ 0 := fun hc => hfull ⟨by decide, hc⟩
          omega
        · rw [List.length_nil, hbound] at hcap
          omega
      have hfilled : Filled mem.length [] mem := Filled.of_length rfl
      obtain ⟨m₁, hm₁, h₁⟩ := hfilled.store (d := 0) [(0 : UInt8)] rfl (by
        rw [List.length_nil, List.length_singleton]
        omega)
      rw [if_neg hfull, hm₁]
      refine ⟨1, m₁, s, rfl, ⟨h₁.len, .inr ⟨?_, hpos⟩⟩, .inl ⟨rfl, rfl⟩⟩
      have htake := h₁.take
      rw [List.nil_append, List.length_singleton] at htake
      rw [htake]
      exact blockOf_nil hist
  · have hne : ¬ src.length = 0 := fun hzero => hnil (List.length_eq_zero_iff.mp hzero)
    set e := compEnv s src cap out tableType dictDirective dictIssue acceleration with he
    have hsize : e.inputSize = src.length := inputSize_compEnv s src cap acceleration out _ _ _
    have hwin : e.win hist = hist ++ src := win_compEnv s src hist cap acceleration out _ _ _
    have hout : e.outputDirective = out := rfl
    have hmaxout : e.maxOutputSize = cap := rfl
    have hroom' : e.Room mem.length := by
      rcases hroom with ⟨hlim, hcap⟩ | ⟨hlim, hcap⟩
      · exact .inl ⟨hlim, hcap.le⟩
      · refine .inr ⟨hlim, ?_⟩
        rw [hsize]
        omega
    obtain ⟨value, mem', table, hrun, hret⟩ := compressGenericValidated_spec hwf hroom' (htable hnil)
    rw [if_neg hne]
    simp only [hrun, Option.bind_eq_bind, Option.bind_some]
    refine ⟨value, mem', _, rfl, ⟨hret.length, ?_⟩, .inr ⟨hnil, table, rfl, hret.table⟩⟩
    rcases hret.result with ⟨hzero, hlim, hlt⟩ | ⟨ss, last, hblock, hlen, hwithin, hends, hsum, hexp, -⟩
    · refine .inl ⟨hzero, ?_⟩
      rw [hsize, hmaxout] at hlt
      rcases hroom with ⟨-, hcap⟩ | ⟨hnot, -⟩
      · omega
      · rw [hout, hnot] at hlim
        cases hlim
    · refine .inr ⟨?_, ?_⟩
      · rw [hsize] at hends hsum
        rw [hwin] at hexp
        exact ⟨ss, last, hblock, hwithin, hends, hsum, hexp⟩
      · rw [hlen, ← hblock, List.length_take, hret.length]
        exact Nat.min_le_right _ _

/-! ## The two entry points -/

theorem clampAcceleration_pos (acceleration : ℤ) : 1 ≤ clampAcceleration acceleration := by
  rw [clampAcceleration]
  split_ifs
  · exact le_refl _
  · decide
  · omega

/-- **`LZ4_compress_fast`** makes no undefined access, and what it returns is the length of
a block of the source, or 0 if the destination is shorter than the bound. -/
theorem compressFast_spec (src mem : Bytes) (acceleration : ℤ) (hn : src.length ≤ maxInputSize) :
    ∃ value mem', compressFast src mem acceleration = some (value, mem')
      ∧ Outcome [] src mem value mem' := by
  have hmax : maxInputSize = 0x7E000000 := rfl
  have h64 : limit64K = 65547 := rfl
  have hwf : ∀ (cap : ℕ) (out : OutputDirective),
      (compEnv initStream src cap out (if src.length < limit64K then .byU16 else .byU32) .noDict
        .noDictIssue (clampAcceleration acceleration)).Wf [] := by
    intro cap out
    refine wf_compEnv rfl (fun _ => rfl) (Nat.zero_le _) ?_ (fun h16 => ?_)
      (clampAcceleration_pos acceleration) (fun h => (by cases h))
    · change 0 + src.length ≤ 2 ^ 31
      omega
    · change 0 + src.length < limit64K
      split_ifs at h16 with hshort
      omega
  have htable : ∀ (cap : ℕ) (out : OutputDirective),
      (compEnv initStream src cap out (if src.length < limit64K then .byU16 else .byU32) .noDict
        .noDictIssue (clampAcceleration acceleration)).TableOk [] 1 initStream.hashTable :=
    fun _ _ _ => ⟨Nat.succ_pos _, fun _ hlt => absurd hlt (Nat.not_lt_zero _)⟩
  rw [compressFast]
  by_cases hcap : mem.length ≥ compressBound src.length
  · obtain ⟨value, mem', s', hrun, hout, -⟩ := compressGeneric_spec initStream [] src mem 0
      .notLimited _ _ _ _ hn (hwf 0 .notLimited) (fun _ => htable 0 .notLimited) (.inr ⟨rfl, hcap⟩)
    refine ⟨value, mem', ?_, hout⟩
    simp only [if_pos hcap, hrun, Option.bind_eq_bind, Option.bind_some]
  · obtain ⟨value, mem', s', hrun, hout, -⟩ := compressGeneric_spec initStream [] src mem
      mem.length .limitedOutput _ _ _ _ hn (hwf mem.length .limitedOutput)
      (fun _ => htable mem.length .limitedOutput) (.inl ⟨rfl, rfl⟩)
    refine ⟨value, mem', ?_, hout⟩
    simp only [if_neg hcap, hrun, Option.bind_eq_bind, Option.bind_some]

/-- **Rescaling** keeps what is needed, and makes room for the next source. -/
theorem renormDictT_spec (h : s.Ok) {n : ℕ} (hn : n ≤ maxInputSize) :
    (renormDictT s n).Ok ∧ (renormDictT s n).currentOffset + n ≤ 2 ^ 31
      ∧ (renormDictT s n).dictCtx = s.dictCtx ∧ (renormDictT s n).dictionary <:+ s.dictionary := by
  have hmax : maxInputSize = 0x7E000000 := rfl
  have h4 : minMatch = 4 := rfl
  have hoff := h.offset_le
  have hsum : u32 (s.currentOffset + n) = s.currentOffset + n := by
    rw [u32]
    omega
  rw [renormDictT, hsum]
  by_cases hbig : s.currentOffset + n > 0x80000000
  · obtain ⟨delta, hdelta⟩ : ∃ delta, s.currentOffset = delta + 65536 :=
      ⟨s.currentOffset - 65536, by omega⟩
    have hu : u32 (s.currentOffset + 2 ^ 32 - 65536) = delta := by
      rw [u32]
      omega
    have hlen : (s.dictionary.rtake 65536).length ≤ 65536 := by
      rw [List.length_rtake]
      exact Nat.min_le_left _ _
    have hsuf : s.dictionary.rtake 65536 <:+ s.dictionary := List.drop_suffix _ _
    rw [if_pos hbig, hu]
    generalize s.dictionary.rtake 65536 = dict at hlen hsuf ⊢
    have hentries : ∀ x, (if s.hashTable x < delta then 0 else s.hashTable x - delta) = 0
        ∨ (if s.hashTable x < delta then 0 else s.hashTable x - delta) + minMatch ≤ 65536 := by
      intro x
      split_ifs
      · exact .inl rfl
      · rcases h.entries x with hzero | hx
        · exact .inl (by omega)
        · exact .inr (by omega)
    have hcleared : s.tableType = .clearedTable →
        ∀ x, (if s.hashTable x < delta then 0 else s.hashTable x - delta) = 0 := by
      intro hc x
      rw [h.cleared hc x, Nat.zero_sub, ite_self]
    refine ⟨⟨hentries, hlen, ?_, hcleared, fun d hd => ?_⟩, ?_, rfl, hsuf⟩
    · dsimp only
      omega
    · obtain ⟨hloaded, -, hnil⟩ := h.dictCtx d hd
      rw [hnil] at hsuf
      exact ⟨hloaded, le_refl _, List.suffix_nil.mp hsuf⟩
    · dsimp only
      omega
  · rw [if_neg hbig]
    exact ⟨h, by omega, rfl, List.suffix_rfl⟩

/-- What a call leaves in a context that searched its own table. -/
theorem ok_updateContext {table : HashTable} (h : s.Ok) (hidx : s.currentOffset + src.length ≤ 2 ^ 31)
    (hne : tableType ≠ .clearedTable)
    (hctx : dictDirective ≠ .usingDictCtx → s.dictCtx = none)
    (hleft : (compEnv s src cap out tableType dictDirective dictIssue acceleration).TableLeft hist
      s.hashTable table) :
    (updateContext s src tableType dictDirective table).Ok
      ∧ (updateContext s src tableType dictDirective table).currentOffset = s.currentOffset + src.length
      ∧ (updateContext s src tableType dictDirective table).dictCtx = none := by
  have h4 : minMatch = 4 := rfl
  have hmf : mfLimit = 12 := rfl
  have h13 : lz4MinLength = 13 := rfl
  have hsize := h.dictSize_le
  have hsum : u32 (s.currentOffset + src.length) = s.currentOffset + src.length := by
    rw [u32]
    omega
  have hentries : ∀ x, table x = 0 ∨ table x + minMatch ≤ s.currentOffset + src.length := by
    intro x
    rw [CompEnv.TableLeft, inputSize_compEnv] at hleft
    rcases hleft with ⟨-, rfl⟩ | ⟨hlong, hok⟩
    · rcases h.entries x with hzero | hx
      · exact .inl hzero
      · exact .inr (by omega)
    · have hlt : table x < s.currentOffset + (src.length - (mfLimit - 1)) := (hok x).1
      exact .inr (by omega)
  rw [updateContext]
  dsimp only
  by_cases hd : dictDirective = .usingDictCtx
  · rw [if_pos hd]
    dsimp only
    rw [hsum]
    refine ⟨⟨hentries, ?_, by dsimp only; omega, fun hc => absurd hc hne, fun _ h => (by cases h)⟩, rfl, rfl⟩
    rw [StreamData.dictSize]
    exact Nat.le_add_left _ _
  · rw [if_neg hd]
    dsimp only
    rw [hsum, hctx hd]
    refine ⟨⟨hentries, ?_, by dsimp only; omega, fun hc => absurd hc hne, fun _ h => (by cases h)⟩, rfl, rfl⟩
    rw [StreamData.dictSize]
    dsimp only
    rw [List.length_append]
    exact Nat.add_le_add_right hsize _

/-- The history of a context after a call in one of the external modes. -/
theorem LZ4Stream.Ok.setDictionary (h : s.Ok) (hle : src.length ≤ s.currentOffset)
    (hctx : s.dictCtx = none ∨ src = []) : ({ s with dictionary := src } : LZ4Stream).Ok := by
  refine ⟨h.entries, hle, h.offset_le, h.cleared, fun d hd => ?_⟩
  rcases hctx with hnone | hnil
  · rw [hnone] at hd
    cases hd
  · obtain ⟨hloaded, hoff, -⟩ := h.dictCtx d hd
    exact ⟨hloaded, hoff, hnil⟩

/-- What is forgotten does not make the context unusable. -/
theorem LZ4Stream.Ok.dropDictionary (h : s.Ok) : ({ s with dictionary := [] } : LZ4Stream).Ok := by
  refine ⟨h.entries, Nat.zero_le _, h.offset_le, h.cleared, fun d hd => ?_⟩
  obtain ⟨hloaded, hoff, -⟩ := h.dictCtx d hd
  exact ⟨hloaded, hoff, rfl⟩

/-- A result of the generic compressor, as the caller goes on with it. -/
structure CallOk (hist src mem : Bytes) (value : ℕ) (mem' : Bytes) (s' : LZ4Stream) : Prop where
  ok : s'.Ok
  offset_le : s'.currentOffset ≤ 2 ^ 31
  length_le : src.length ≤ s'.currentOffset
  dictCtx : s'.dictCtx = none ∨ src = []
  outcome : Outcome hist src mem value mem'

/-- The generic compressor, called as the streaming functions call it. -/
theorem compressGeneric_ok (h : s.Ok) (hist src mem : Bytes) (dictDirective : DictDirective)
    (dictIssue : DictIssue) (acceleration : ℕ) (hn : src.length ≤ maxInputSize)
    (hidx : s.currentOffset + src.length ≤ 2 ^ 31)
    (hwf : (compEnv s src mem.length .limitedOutput .byU32 dictDirective dictIssue acceleration).Wf hist)
    (htable : src ≠ [] → (compEnv s src mem.length .limitedOutput .byU32 dictDirective dictIssue
      acceleration).TableOk hist 1 s.hashTable)
    (hctx : src ≠ [] → dictDirective ≠ .usingDictCtx → s.dictCtx = none) :
    ∃ value mem' s', compressGeneric s src mem mem.length .limitedOutput .byU32 dictDirective dictIssue
        acceleration = some (value, mem', s') ∧ CallOk hist src mem value mem' s' := by
  obtain ⟨value, mem', s', hrun, hout, hleft⟩ := compressGeneric_spec s hist src mem mem.length
    .limitedOutput .byU32 dictDirective dictIssue acceleration hn hwf htable (.inl ⟨rfl, rfl⟩)
  refine ⟨value, mem', s', hrun, ?_⟩
  rcases hleft with ⟨rfl, rfl⟩ | ⟨hne, table, rfl, hleft⟩
  · exact ⟨h, by omega, Nat.zero_le _, .inr rfl, hout⟩
  · obtain ⟨hok, hoff, hnone⟩ := ok_updateContext h hidx (by decide) (hctx hne) hleft
    exact ⟨hok, by omega, by omega, .inl hnone, hout⟩

/-- The history is the context's own, in front of the source or somewhere else. -/
theorem compressOwn_spec (h : s.Ok) (src mem : Bytes) {dictDirective : DictDirective}
    {dictIssue : DictIssue} {acceleration : ℕ} (hn : src.length ≤ maxInputSize)
    (hidx : s.currentOffset + src.length ≤ 2 ^ 31) (hacc : 1 ≤ acceleration)
    (hdir : dictDirective = .withPrefix64k ∨ dictDirective = .usingExtDict)
    (hnone : src ≠ [] → s.dictCtx = none)
    (hissue : dictIssue = .noDictIssue → 65536 ≤ s.dictSize ∨ s.currentOffset ≤ s.dictSize)
    (hfour : dictDirective = .usingExtDict → src ≠ [] → 4 ≤ s.dictSize) :
    ∃ value mem' s', compressGeneric s src mem mem.length .limitedOutput .byU32 dictDirective dictIssue
        acceleration = some (value, mem', s') ∧ CallOk s.dictionary src mem value mem' s' := by
  have hctx : dictDirective ≠ .usingDictCtx := by
    rcases hdir with rfl | rfl
    · decide
    · decide
  have hhist : dictDirective ≠ .noDict := by
    rcases hdir with rfl | rfl
    · decide
    · decide
  refine compressGeneric_ok h s.dictionary src mem dictDirective dictIssue acceleration hn hidx ?_ ?_
    (fun hne _ => hnone hne)
  · exact wf_compEnv (if_neg hctx) (fun hd => absurd hd hhist) h.dictSize_le hidx
      (fun hd => (by cases hd)) hacc (fun hd => absurd hd hctx)
  · exact fun hne => tableOk_compEnv h rfl (fun _ => rfl) (fun hi _ => hissue hi)
      (fun hd => hfour hd hne)

/-- The history is that of an attached dictionary: its table is copied for a long source, and
searched beside the context's own for a short one. -/
theorem compressDictCtx_spec (h : s.Ok) {d : StreamData} (hd : s.dictCtx = some d) (src mem : Bytes)
    {acceleration : ℕ} (hn : src.length ≤ maxInputSize) (hidx : s.currentOffset + src.length ≤ 2 ^ 31)
    (hacc : 1 ≤ acceleration) :
    ∃ value mem' s', (if src.length > 4096 then
        compressGeneric ⟨d, none⟩ src mem mem.length .limitedOutput .byU32 .usingExtDict .noDictIssue
          acceleration
      else
        compressGeneric s src mem mem.length .limitedOutput .byU32 .usingDictCtx .noDictIssue
          acceleration) = some (value, mem', s') ∧ CallOk d.dictionary src mem value mem' s' := by
  have hmax : maxInputSize = 0x7E000000 := rfl
  obtain ⟨hloaded, hoff, -⟩ := h.dictCtx d hd
  have hdsize := hloaded.dictSize_le
  have hdoff := hloaded.offset
  split_ifs with hlarge
  · have hidx' : d.currentOffset + src.length ≤ 2 ^ 31 := by
      rw [hdoff]
      omega
    refine compressGeneric_ok hloaded.ok d.dictionary src mem .usingExtDict .noDictIssue acceleration hn
      hidx' ?_ (fun _ => hloaded.tableOk) (fun _ _ => rfl)
    exact wf_compEnv (if_neg (by decide)) (fun hdir => (by cases hdir)) hloaded.ok.dictSize_le hidx'
      (fun ht => (by cases ht)) hacc (fun hdir => (by cases hdir))
  · refine compressGeneric_ok h d.dictionary src mem .usingDictCtx .noDictIssue acceleration hn hidx
      ?_ ?_ (fun _ hdir => absurd rfl hdir)
    · exact wf_compEnv (by rw [if_pos rfl, hd, Option.getD_some]) (fun hdir => (by cases hdir))
        (hdsize.trans hoff) hidx (fun ht => (by cases ht)) hacc (fun _ => ⟨rfl, d, hd, hloaded, hoff⟩)
    · exact fun _ => tableOk_compEnv h rfl (fun hdir => absurd rfl hdir) (fun _ hdir => absurd rfl hdir)
        (fun hdir => (by cases hdir))

/-- Rescaling for a source that is too long, but not so long that the sum overflows. -/
theorem renormDictT_large (h : s.Ok) {n : ℕ} (hn : n < 2 ^ 31 - 65536) :
    (renormDictT s n).Resettable ∧ (renormDictT s n).dictCtx = s.dictCtx := by
  have h4 : minMatch = 4 := rfl
  have hoff := h.offset_le
  obtain ⟨delta, hu⟩ : ∃ delta, u32 (s.currentOffset + 2 ^ 32 - 65536) = delta := ⟨_, rfl⟩
  have hdelta : s.currentOffset ≤ delta + 65536 := by
    rw [← hu, u32]
    omega
  have hsum : u32 (s.currentOffset + n) = s.currentOffset + n := by
    rw [u32]
    omega
  rw [renormDictT, hsum]
  by_cases hbig : s.currentOffset + n > 0x80000000
  · rw [if_pos hbig, hu]
    have hentries : ∀ x, (if s.hashTable x < delta then 0 else s.hashTable x - delta) = 0
        ∨ (if s.hashTable x < delta then 0 else s.hashTable x - delta) + minMatch ≤ 65536 := by
      intro x
      split_ifs
      · exact .inl rfl
      · rcases h.entries x with hzero | hx
        · exact .inl (by omega)
        · exact .inr (by omega)
    have hcleared : s.tableType = .clearedTable →
        ∀ x, (if s.hashTable x < delta then 0 else s.hashTable x - delta) = 0 := by
      intro hc x
      rw [h.cleared hc x, Nat.zero_sub, ite_self]
    exact ⟨⟨hentries, by dsimp only; omega, hcleared⟩, rfl⟩
  · rw [if_neg hbig]
    exact ⟨h.resettable (by omega), rfl⟩

/-- **A source that is too long** is refused, and the context may be reset afterwards. -/
theorem compressFastContinue_large (h : s.Ok) (src mem : Bytes) (acceleration : ℤ) (adjacent : Bool)
    (hn : maxInputSize < src.length) (hlt : src.length < 2 ^ 31 - 65536) :
    ∃ s', compressFastContinue s src mem acceleration adjacent = some (0, mem, s')
      ∧ s'.Resettable := by
  have hrefused : ∀ (q : LZ4Stream) cap out dir issue acc,
      compressGeneric q src mem cap out .byU32 dir issue acc = some (0, mem, q) := by
    intro q cap out dir issue acc
    rw [compressGeneric, if_pos hn]
  have hmax : maxInputSize = 0x7E000000 := rfl
  have hlong : src.length > 4096 := by omega
  obtain ⟨hres, hctx⟩ := renormDictT_large h hlt
  rw [compressFastContinue]
  dsimp only
  simp only [hrefused, if_pos hlong]
  generalize renormDictT s src.length = r at hres hctx ⊢
  generalize (if r.dictSize = 0 then decide (src.length = 0) else adjacent) = isPrefix
  -- neither the history nor what becomes of it matters
  obtain ⟨q, hdrop, hq, hqctx⟩ : ∃ q : LZ4Stream,
      (if decide (r.dictSize < 4 ∧ isPrefix = false ∧ src.length > 0 ∧ r.dictCtx = none) = true
        then { r with dictionary := [] } else r) = q
      ∧ q.Resettable ∧ q.dictCtx = r.dictCtx := by
    refine ⟨_, rfl, ?_⟩
    split_ifs
    · exact ⟨⟨hres.entries, hres.offset_le, hres.cleared⟩, rfl⟩
    · exact ⟨hres, rfl⟩
  rw [hdrop]
  split_ifs
  · exact ⟨q, rfl, hq⟩
  · rcases hd : q.dictCtx with _ | d
    · exact ⟨{ q with dictionary := src }, rfl, hq.entries, hq.offset_le, hq.cleared⟩
    · -- the tables are those of the dictionary
      have hloaded := (h.dictCtx d (hctx ▸ hqctx ▸ hd)).1
      have hdict := hloaded.ok.resettable (by rw [hloaded.offset]; decide)
      exact ⟨⟨{ d with dictionary := src }, none⟩, rfl, hdict.entries, hdict.offset_le,
        hdict.cleared⟩

/-- **`LZ4_compress_fast_continue`** on a context that may be used makes no undefined access
and leaves one that may be used again. What it returns is the length of a block of the
source behind the context's history, or 0 if the destination is shorter than the bound. -/
theorem compressFastContinue_spec (h : s.Ok) (src mem : Bytes) (acceleration : ℤ) (adjacent : Bool)
    (hn : src.length ≤ maxInputSize) :
    ∃ value mem' s', compressFastContinue s src mem acceleration adjacent = some (value, mem', s')
      ∧ s'.Ok ∧ s'.currentOffset ≤ 2 ^ 31 ∧ Outcome s.history src mem value mem' := by
  obtain ⟨hok, hidx, hctx, hsuf⟩ := renormDictT_spec h hn
  have hacc := clampAcceleration_pos acceleration
  have hhist : s.history = s.dictCtx.elim s.dictionary StreamData.dictionary := rfl
  have hkeep : ∀ {mem' : Bytes} {value : ℕ} {dict : Bytes}, dict <:+ s.history →
      Outcome dict src mem value mem' → Outcome s.history src mem value mem' := by
    intro mem' value dict hs hout
    refine ⟨hout.1, hout.2.imp id (fun hb => ⟨hb.1.longer hs, hb.2⟩)⟩
  rw [compressFastContinue]
  dsimp only
  generalize renormDictT s src.length = r at hok hidx hctx hsuf ⊢
  generalize clampAcceleration acceleration = acc at hacc ⊢
  set isPrefix : Bool := if r.dictSize = 0 then decide (src.length = 0) else adjacent with hpre₀
  set tiny : Bool := decide (r.dictSize < 4 ∧ isPrefix = false ∧ src.length > 0 ∧ r.dictCtx = none)
    with htiny
  -- with a dictionary context there is no other history
  have hempty : ∀ d, r.dictCtx = some d → r.dictionary = [] := fun d hd => (hok.dictCtx d hd).2.2
  set q : LZ4Stream := if tiny = true then { r with dictionary := [] } else r with hq
  have hq' : q.Ok ∧ q.currentOffset = r.currentOffset ∧ q.dictCtx = r.dictCtx
      ∧ q.dictionary <:+ r.dictionary := by
    rw [hq]
    split_ifs
    · exact ⟨hok.dropDictionary, rfl, rfl, List.nil_suffix⟩
    · exact ⟨hok, rfl, rfl, List.suffix_rfl⟩
  obtain ⟨hqok, hqoff, hqctx, hqsuf⟩ := hq'
  set issue : DictIssue := if q.dictSize < 65536 ∧ q.dictSize < q.currentOffset then .dictSmall
    else .noDictIssue with hissue
  have hissue' : issue = .noDictIssue → 65536 ≤ q.dictSize ∨ q.currentOffset ≤ q.dictSize := by
    intro hi
    rw [hissue] at hi
    split_ifs at hi with hsmall
    by_contra hcon
    exact hsmall ⟨by omega, by omega⟩
  have hown : q.dictionary <:+ s.history := by
    cases hd : r.dictCtx with
    | none =>
        rw [hhist, ← hctx, hd]
        exact hqsuf.trans hsuf
    | some d =>
        rw [hempty d hd] at hqsuf
        rw [List.suffix_nil.mp hqsuf]
        exact List.nil_suffix
  by_cases hmode : isPrefix = true ∨ tiny = true
  · -- the history, if there is one, lies in front of the source
    rw [if_pos hmode]
    have hnone : src ≠ [] → r.dictCtx = none := by
      intro hne
      cases hd : r.dictCtx with
      | none => rfl
      | some d =>
          exfalso
          have hzero : r.dictSize = 0 := by rw [StreamData.dictSize, hempty d hd, List.length_nil]
          have hlen : src.length ≠ 0 := fun hl => hne (List.length_eq_zero_iff.mp hl)
          rcases hmode with hp | ht
          · rw [hpre₀, if_pos hzero, decide_eq_true_eq] at hp
            exact hlen hp
          · rw [htiny, decide_eq_true_eq] at ht
            rw [hd] at ht
            cases ht.2.2.2
    obtain ⟨value, mem', s', hrun, hcall⟩ := compressOwn_spec hqok src mem hn (by omega) hacc (.inl rfl)
      (fun hne => hqctx.trans (hnone hne)) hissue' (fun hd => (by cases hd))
    exact ⟨value, mem', s', hrun, hcall.ok, hcall.offset_le, hkeep hown hcall.outcome⟩
  · rw [if_neg hmode]
    have hpre : isPrefix = false := by
      cases hp : isPrefix with
      | false => rfl
      | true => exact absurd (.inl hp) hmode
    have hntiny : ¬ (r.dictSize < 4 ∧ isPrefix = false ∧ src.length > 0 ∧ r.dictCtx = none) := by
      intro ht
      exact hmode (.inr (by rw [htiny, decide_eq_true_eq]; exact ht))
    have hqr : q = r := by
      rw [hq, if_neg]
      rw [htiny, decide_eq_true_eq]
      exact hntiny
    rw [hqr] at hqok hissue' hown ⊢
    cases hd : r.dictCtx with
    | none =>
        -- the history is the context's own, somewhere else
        have hfour : src ≠ [] → 4 ≤ r.dictSize := by
          intro hne
          by_contra hlt
          exact hntiny ⟨by omega, hpre, List.length_pos_of_ne_nil hne, hd⟩
        obtain ⟨value, mem', s', hrun, hcall⟩ := compressOwn_spec hqok src mem hn hidx hacc (.inr rfl)
          (fun _ => hd) hissue' (fun _ => hfour)
        refine ⟨value, mem', { s' with dictionary := src }, ?_,
          hcall.ok.setDictionary hcall.length_le hcall.dictCtx, hcall.offset_le, hkeep hown hcall.outcome⟩
        simp only [hrun, Option.bind_eq_bind, Option.bind_some]
    | some d =>
        have hdh : d.dictionary <:+ s.history := by
          rw [hhist, ← hctx, hd]
          exact List.suffix_rfl
        obtain ⟨value, mem', s', hrun, hcall⟩ := compressDictCtx_spec hqok hd src mem hn hidx hacc
        refine ⟨value, mem', { s' with dictionary := src }, ?_,
          hcall.ok.setDictionary hcall.length_le hcall.dictCtx, hcall.offset_le, hkeep hdh hcall.outcome⟩
        dsimp only
        split_ifs at hrun ⊢
        · rw [hrun]
          rfl
        · rw [hrun]
          rfl

end Plz4.Lz4
