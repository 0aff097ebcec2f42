/-
What `LZ4_compress_generic_validated` computes: a block of the source.

The invariant says of the output that it begins with the bytes of some sequences, and of
these that they stand for the source up to the anchor. A jump of the main loop adds a
sequence or leaves them as they are; the last literals make the list a block. What the
tables hold decides which sequences come out, never whether they are right.
-/
import Plz4.Lz4.Encode
import Plz4.Lz4.Search

set_option autoImplicit false

namespace Plz4.Lz4

open Mem Lz77

/-! ## What has been emitted -/

/-- Sequences that stand for the first `a` bytes of the source. -/
structure Emitted (e : CompEnv) (hist : Bytes) (a : ℕ) (ss : List Sequence) : Prop where
  whole : expand hist ss = (e.win hist).take (hist.length + a)
  within : Within hist.length ss
  ends : EndRules e.inputSize 0 ss
  cost : 255 * (ss.flatMap Sequence.bytes).length ≤ 256 * a
  le : a ≤ e.inputSize

variable {e : CompEnv} {hist : Bytes} {N : ℕ} {given : HashTable}

/-- The bytes of the source from `a` on. -/
def CompEnv.part (e : CompEnv) (a n : ℕ) : Bytes := (e.cur.drop (e.source + a)).take n

theorem CompEnv.part_eq (e : CompEnv) (hist : Bytes) (a n : ℕ) :
    e.part a n = ((e.win hist).drop (hist.length + a)).take n := by
  rw [CompEnv.part, CompEnv.win, ← List.drop_drop, ← List.drop_drop, List.drop_left]

theorem CompEnv.Wf.length_part (hwf : e.Wf hist) {a n : ℕ} (h : a + n ≤ e.inputSize) :
    (e.part a n).length = n := by
  have hlen := hwf.length_src
  rw [CompEnv.part, List.length_take, List.length_drop]
  omega

theorem Emitted.nil (e : CompEnv) (hist : Bytes) : Emitted e hist 0 [] := by
  refine ⟨?_, trivial, trivial, Nat.le_refl _, Nat.zero_le _⟩
  rw [expand_nil, CompEnv.win, Nat.add_zero, List.take_left]

theorem Emitted.length_eq {a : ℕ} {ss : List Sequence} (h : Emitted e hist a ss) :
    expandLength ss = a := by
  have hlen := congrArg List.length h.whole
  have hle := h.le
  have hwin := e.length_win hist
  rw [length_expand, List.length_take] at hlen
  omega

/-- What agrees with the window at some distance is what an extension copies. -/
theorem Agree.extend {win : Bytes} {p q r : ℕ} (h : Agree win p q r) :
    extend (win.take q) (q - p) r = win.take (q + r) := by
  have hlt := h.lt
  have hfits := h.fits
  refine extend_take (by omega) (by omega) hfits (fun i hi => ?_)
  have hi' := congrArg (fun xs : Bytes => xs.getD i default) h.same
  rw [List.getD_eq_getElem?_getD, List.getD_eq_getElem?_getD, List.getElem?_take_of_lt hi,
    List.getElem?_take_of_lt hi, List.getElem?_drop, List.getElem?_drop,
    ← List.getD_eq_getElem?_getD, ← List.getD_eq_getElem?_getD] at hi'
  rw [show q + i - (q - p) = p + i by omega, hi']

/-- **A sequence more**: literals up to `j`, and a match there that agrees with the window
at the place `p`. -/
theorem Emitted.add (hwf : e.Wf hist) {a j p code : ℕ} {ss : List Sequence} (h : Emitted e hist a ss)
    (haj : a ≤ j) (hj : j + mfLimit ≤ e.inputSize) (hdist : hist.length + j ≤ p + distanceMax)
    (hagree : Agree (e.win hist) p (hist.length + j) (minMatch + code))
    (hend : j + (code + minMatch) + lastLiterals ≤ e.inputSize) :
    Emitted e hist (j + (code + minMatch))
      (ss ++ [⟨e.part a (j - a), hist.length + j - p, code + minMatch⟩]) := by
  have h4 : minMatch = 4 := rfl
  have h5 : lastLiterals = 5 := rfl
  have hmf : mfLimit = 12 := rfl
  have hmax : distanceMax = 65535 := rfl
  have hlt := hagree.lt
  have hlen := hwf.length_part (a := a) (n := j - a) (by omega)
  have hsum := h.length_eq
  have hcost := h.cost
  set s : Sequence := ⟨e.part a (j - a), hist.length + j - p, code + minMatch⟩ with hs
  have hslits : s.lits.length = j - a := hlen
  have hslen : s.length = code + minMatch := rfl
  have hsoff : s.offset = hist.length + j - p := rfl
  refine ⟨?_, ?_, ?_, ?_, by omega⟩
  · have htake : (e.win hist).take (hist.length + a) ++ e.part a (j - a)
        = (e.win hist).take (hist.length + j) := by
      rw [e.part_eq hist, ← List.take_add, show hist.length + a + (j - a) = hist.length + j by omega]
    have hext := hagree.extend
    rw [expand_append, expand_cons, expand_nil, h.whole, Sequence.expand, hs]
    dsimp only
    rw [htake, Nat.add_comm code, hext, Nat.add_assoc]
  · rw [within_append]
    refine ⟨h.within, ?_, ?_, ?_, trivial⟩
    · omega
    · omega
    · omega
  · rw [endRules_append]
    refine ⟨h.ends, ?_, ?_, trivial⟩
    · omega
    · omega
  · have hbytes := cost_sequence (s := s) (by omega)
    rw [List.flatMap_append, List.length_append, List.flatMap_singleton]
    omega

/-! ## The invariant of the main loop -/

/-- The destination is long enough for what the code does not check. -/
def CompEnv.Room (e : CompEnv) (N : ℕ) : Prop :=
  (e.outputDirective = .limitedOutput ∧ e.maxOutputSize ≤ N)
    ∨ (e.outputDirective = .notLimited ∧ e.inputSize + e.inputSize / 255 + 16 ≤ N)

/-- Where the main loop searches: right behind the anchor. -/
structure SearchOk (e : CompEnv) (hist : Bytes) (N a : ℕ) (s : CompState) (ss : List Sequence) :
    Prop where
  emitted : Emitted e hist a ss
  anchor : s.anchor = e.source + a
  ip : s.ip = e.source + a + 1
  op : s.op = (ss.flatMap Sequence.bytes).length
  mem : Filled N (ss.flatMap Sequence.bytes) s.mem
  table : e.TableOk hist (a + 1) s.table
  le : a + mfLimit ≤ e.inputSize
  long : lz4MinLength ≤ e.inputSize

/-- At `_next_match`: the literals from `a` to `j` are there, and a place `p` to match. -/
structure MatchOk (e : CompEnv) (hist : Bytes) (N a j p k : ℕ) (s : MatchState) (ss : List Sequence) :
    Prop where
  emitted : Emitted e hist a ss
  le : a ≤ j
  fits : j + k + mfLimit ≤ e.inputSize
  long : lz4MinLength ≤ e.inputSize
  ip : s.ip = e.source + j
  token : s.token = (ss.flatMap Sequence.bytes).length
  op : s.op = (ss.flatMap Sequence.bytes).length + 1 + (lengthBytes (j - a)).length + (j - a : ℕ)
  mem : Filled N (ss.flatMap Sequence.bytes
    ++ tokenOf (j - a) 0 :: (lengthBytes (j - a) ++ e.part a (j - a))) s.mem
  table : e.TableOk hist (j + k + 1) s.table
  points : Points e hist s.found p
  agree : Agree (e.win hist) p (hist.length + j) (minMatch + k)
  inDict : s.found.inDict = true → p + minMatch + k ≤ hist.length
  dist : hist.length + j ≤ p + distanceMax
  offset : e.maybeExtMem = true → s.offset = hist.length + j - p
  limited : e.outputDirective = .limitedOutput → s.op + 5 ≤ e.maxOutputSize

/-- The table a call leaves: the one it was given, if the source is too short to search. -/
def CompEnv.TableLeft (e : CompEnv) (hist : Bytes) (given table : HashTable) : Prop :=
  (e.inputSize < lz4MinLength ∧ table = given)
    ∨ (lz4MinLength ≤ e.inputSize ∧ e.TableOk hist (e.inputSize - (mfLimit - 1)) table)

/-- At `_last_literals`. -/
structure LastOk (e : CompEnv) (hist : Bytes) (N a : ℕ) (given : HashTable) (anchor op : ℤ)
    (mem : Bytes) (table : HashTable) (ss : List Sequence) : Prop where
  emitted : Emitted e hist a ss
  anchor : anchor = e.source + a
  op : op = (ss.flatMap Sequence.bytes).length
  mem : Filled N (ss.flatMap Sequence.bytes) mem
  table : e.TableLeft hist given table

/-- What the function returns: 0 because the output is too small, or the length of a block
that stands for the source. -/
structure RetOk (e : CompEnv) (hist : Bytes) (N : ℕ) (given : HashTable) (value : ℕ) (mem : Bytes)
    (table : HashTable) : Prop where
  length : mem.length = N
  table : e.TableLeft hist given table
  result : (value = 0 ∧ e.outputDirective = .limitedOutput
      ∧ e.maxOutputSize < e.inputSize + e.inputSize / 255 + 16)
    ∨ ∃ ss last, mem.take value = blockBytes ss 0 last ∧ value = (blockBytes ss 0 last).length
      ∧ Within hist.length ss ∧ EndRules e.inputSize 0 ss
      ∧ expandLength ss + last.length = e.inputSize ∧ expand hist ss ++ last = e.win hist
      ∧ (e.outputDirective = .limitedOutput → value ≤ e.maxOutputSize)

/-- A place in the main loop that is reached, with a bound on the jumps to come. -/
def Good (e : CompEnv) (hist : Bytes) (N : ℕ) (given : HashTable) (fuel : ℕ) : CompNext → Prop
  | .search s => ∃ a ss, SearchOk e hist N a s ss ∧ 2 * (e.inputSize - a) + 2 ≤ fuel
  | .nextMatch s => ∃ a j p k ss, MatchOk e hist N a j p k s ss ∧ 2 * (e.inputSize - j) + 1 ≤ fuel
  | .lastLiterals anchor op mem table =>
      ∃ a ss, LastOk e hist N a given anchor op mem table ss ∧ 1 ≤ fuel
  | .ret value mem table => RetOk e hist N given value mem table

/-- No room is left; the bound of a compressed block has not been given, then. -/
theorem RetOk.zero {mem : Bytes} {table : HashTable} (hmem : mem.length = N)
    (htable : e.TableLeft hist given table) (hlim : e.outputDirective = .limitedOutput)
    (hlt : e.maxOutputSize < e.inputSize + e.inputSize / 255 + 16) : RetOk e hist N given 0 mem table :=
  ⟨hmem, htable, .inl ⟨rfl, hlim, hlt⟩⟩

/-! ## The steps -/

/-- **Searching** leads to a match or to the last literals. -/
theorem searchStep_spec (hwf : e.Wf hist) (hroom : e.Room N) {a fuel : ℕ} {s : CompState}
    {ss : List Sequence} (h : SearchOk e hist N a s ss) (hfuel : 2 * (e.inputSize - a) + 1 ≤ fuel) :
    ∃ r, searchStep e s = some r ∧ Good e hist N given fuel r := by
  have h4 : minMatch = 4 := rfl
  have h5 : lastLiterals = 5 := rfl
  have hmf : mfLimit = 12 := rfl
  have hmax : distanceMax = 65535 := rfl
  have hlong := h.long
  have hle := h.le
  have hsrc := hwf.length_src
  have hcost := h.emitted.cost
  have hfast := hwf.fast
  have hidx := hwf.index_lt
  have hanchor := h.anchor
  have hop := h.op
  obtain ⟨r, table', hfind, hcases⟩ := findMatch_spec hwf (k := e.cur.length + 1) s.forwardH
    h.table (Nat.succ_pos a) (by omega)
    (show s.ip = (e.source : ℤ) + ((a + 1 : ℕ) : ℤ) by rw [h.ip]; omega) (le_refl 1)
    (show 64 ≤ e.acceleration <<< skipTrigger by rw [skipTrigger, Nat.shiftLeft_eq]; omega) (by omega)
  rw [searchStep, hfind]
  simp only [Option.bind_eq_bind, Option.bind_some]
  rcases hcases with ⟨rfl, htable⟩ | ⟨i, p, c, rfl, hi, hin, htable, hfound⟩
  · exact ⟨_, rfl, a, ss, ⟨h.emitted, h.anchor, h.op, h.mem, .inr ⟨hlong, htable⟩⟩, by omega⟩
  have hindex : e.index ((e.source : ℤ) + i) = e.startIndex + i := hwf.index_eq rfl (by omega)
  have hci := hfound.index
  have hlt := hfound.agree.lt
  have hdist := hfound.dist
  -- the distance, before the match is extended backwards
  have hoff : u32 (e.startIndex + i + 2 ^ 32 - c.matchIndex) = hist.length + i - p := by
    rw [u32]
    omega
  obtain ⟨k, hcatch, hak, hkp, hpoints, hagree⟩ := catchUp_spec hwf hfound.points
    hfound.agree (a := a) (by omega) h.anchor (show (e.source : ℤ) + i = e.source + i from rfl)
  set j := i - k with hj
  have hlit : ((e.source : ℤ) + j - s.anchor).toNat = j - a := by omega
  simp only [hindex, hoff, hcatch, Option.bind_some, hlit]
  by_cases hfull : e.outputDirective = .limitedOutput
      ∧ s.op + 1 + (j - a : ℕ) + (2 + 1 + lastLiterals) + ((j - a) / 255 : ℕ) > e.olimit
  · rw [if_pos hfull]
    have hover := hfull.2
    rw [CompEnv.olimit] at hover
    have hleft : e.TableLeft hist given table' := .inr ⟨hlong, htable.mono (by omega)⟩
    exact ⟨_, rfl, RetOk.zero h.mem.len hleft hfull.1 (by omega)⟩
  · have hlenB := length_lengthBytes (j - a)
    -- the length of the literals, if it needs bytes of its own, is no less than eight
    have hfit : (ss.flatMap Sequence.bytes).length + 1 + (lengthBytes (j - a)).length + (j - a) + 7 ≤ N
        ∧ (ss.flatMap Sequence.bytes).length + 1 + (lengthBytes (j - a)).length + 8 ≤ N := by
      rcases hroom with ⟨hlim, hN⟩ | ⟨-, hN⟩
      · have hnot : ¬ s.op + 1 + (j - a : ℕ) + (2 + 1 + lastLiterals) + ((j - a) / 255 : ℕ) > e.olimit :=
          fun hover => hfull ⟨hlim, hover⟩
        rw [CompEnv.olimit] at hnot
        omega
      · omega
    obtain ⟨m₁, hm₁, h₁⟩ := putLitLength_spec h.mem (n := j - a) h.op
      (show s.op + 1 = ((ss.flatMap Sequence.bytes).length : ℤ) + 1 by omega) (by omega)
    have hlen₁ : (ss.flatMap Sequence.bytes ++ tokenOf (j - a) 0 :: lengthBytes (j - a)).length
        = (ss.flatMap Sequence.bytes).length + 1 + (lengthBytes (j - a)).length := by
      rw [List.length_append, List.length_cons]
      omega
    obtain ⟨m₂, hm₂, h₂⟩ := putLiterals_spec h₁
      (show s.op + 1 + ((lengthBytes (j - a)).length : ℤ)
        = ((ss.flatMap Sequence.bytes ++ tokenOf (j - a) 0 :: lengthBytes (j - a)).length : ℤ) by omega)
      (show s.anchor = ((e.source + a : ℕ) : ℤ) by omega) (by omega) (by omega)
      (show e.source + a + (j - a) + 8 ≤ e.cur.length by omega)
    rw [if_neg hfull, hm₁]
    simp only [Option.bind_some, hm₂]
    refine ⟨_, rfl, a, j, p - k, k, ss, ⟨h.emitted, by omega, by omega, hlong, rfl, h.op, ?_, ?_, ?_, hpoints,
      hagree, ?_, ?_, ?_, ?_⟩, by omega⟩
    · dsimp only
      omega
    · rw [List.append_assoc, List.cons_append] at h₂
      exact h₂
    · rwa [show j + k + 1 = i + 1 by omega]
    · intro hdict
      have hfour := (hfound.points.inDict hdict).2.2.2
      omega
    · omega
    · intro _
      dsimp only
      omega
    · intro hlim
      have hnot : ¬ s.op + 1 + (j - a : ℕ) + (2 + 1 + lastLiterals) + ((j - a) / 255 : ℕ) > e.olimit :=
        fun hover => hfull ⟨hlim, hover⟩
      rw [CompEnv.olimit] at hnot
      dsimp only
      omega

/-- What follows a match: the last literals, a match at once, or another search. -/
def afterMatch (e : CompEnv) (mem : Bytes) (table : HashTable) (op ip : ℤ) : Option CompNext :=
  if ip ≥ e.mflimitPlusOne then some (.lastLiterals ip op mem table)
  else do
    let h ← hashPosition e.cur (ip - 2) e.tableType
    let table := putIndexOnHash (e.index (ip - 2)) h table e.tableType
    let h ← hashPosition e.cur ip e.tableType
    let c := candidate e h table
    let table := putIndexOnHash (e.index ip) h table e.tableType
    let found ← isMatch e c ip
    if found then do
      let mem ← store mem op [0]
      some (.nextMatch ⟨ip, op + 1, op, u32 (e.index ip + 2 ^ 32 - c.matchIndex), c, mem, table⟩)
    else do
      let forwardH ← hashPosition e.cur (ip + 1) e.tableType
      some (.search ⟨ip + 1, ip, op, forwardH, mem, table⟩)

/-- A match is its offset and its length, and what follows. -/
theorem matchStep_eq (s : MatchState) :
    matchStep e s = (store s.mem s.op (LittleEndian.put 2
        (if e.maybeExtMem then s.offset else (s.ip - s.found.pos).toNat))).bind fun mem =>
      (matchCode e s.ip s.found).bind fun code =>
        if e.outputDirective = .limitedOutput
            ∧ s.op + 2 + (1 + lastLiterals) + ((code + 240) / 255 : ℕ) > e.olimit then
          some (.ret 0 mem s.table)
        else (putMatchLength mem s.token (s.op + 2) code).bind fun r =>
          afterMatch e r.1 s.table r.2 (s.ip + (code + minMatch)) :=
  rfl

/-- The offset that is written, the distance of the match. -/
theorem MatchOk.offset_eq {a j p k : ℕ} {s : MatchState} {ss : List Sequence}
    (h : MatchOk e hist N a j p k s ss) :
    (if e.maybeExtMem then s.offset else (s.ip - s.found.pos).toNat) = hist.length + j - p := by
  have hip := h.ip
  split_ifs with hext
  · exact h.offset hext
  · obtain ⟨hpos, -, -⟩ := h.points.own (h.points.inDict_eq_false (fun hc => hext hc.1))
    rw [CompEnv.shift] at hpos
    omega

/-- **After a match** the next one may stand right there. Where it does, it comes without
literals; else the search goes on. -/
theorem afterMatch_spec (hwf : e.Wf hist) {j fuel : ℕ} {ss : List Sequence} {mem : Bytes}
    {table : HashTable} (hemit : Emitted e hist j ss) (hmem : Filled N (ss.flatMap Sequence.bytes) mem)
    (hN : (ss.flatMap Sequence.bytes).length + 1 ≤ N)
    (hlimited : e.outputDirective = .limitedOutput →
      (ss.flatMap Sequence.bytes).length + 6 ≤ e.maxOutputSize)
    (htable : e.TableOk hist j table) (hj : 2 ≤ j) (hlong : lz4MinLength ≤ e.inputSize)
    (hleft : e.TableLeft hist given table) (hfuel : 2 * (e.inputSize - j) + 2 ≤ fuel) :
    ∃ r, afterMatch e mem table (ss.flatMap Sequence.bytes).length (e.source + (j : ℕ)) = some r
      ∧ Good e hist N given fuel r := by
  have hmf : mfLimit = 12 := rfl
  have hsrc := hwf.length_src
  have hidx := hwf.index_lt
  have hpast : (e.source : ℤ) + (j : ℕ) ≥ e.mflimitPlusOne ↔ e.inputSize + 1 ≤ j + mfLimit := by
    rw [CompEnv.mflimitPlusOne, CompEnv.iend]
    omega
  rw [afterMatch]
  by_cases hlast : e.inputSize + 1 ≤ j + mfLimit
  · rw [if_pos (hpast.mpr hlast)]
    exact ⟨_, rfl, j, ss, ⟨hemit, rfl, rfl, hmem, hleft⟩, by omega⟩
  · rw [if_neg (fun hc => hlast (hpast.mp hc))]
    obtain ⟨x, hx⟩ := hashPosition_isSome (m := e.cur) (p := (e.source : ℤ) + (j : ℕ) - 2)
      (i := e.source + (j - 2)) (by omega) (by omega) e.tableType
    obtain ⟨y, hy⟩ := hashPosition_isSome (m := e.cur) (p := (e.source : ℤ) + (j : ℕ))
      (i := e.source + j) (by omega) (by omega) e.tableType
    obtain ⟨z, hz⟩ := hashPosition_isSome (m := e.cur) (p := (e.source : ℤ) + (j : ℕ) + 1)
      (i := e.source + (j + 1)) (by omega) (by omega) e.tableType
    have hidx2 : e.index ((e.source : ℤ) + (j : ℕ) - 2) = e.startIndex + (j - 2) :=
      hwf.index_eq (by omega) (by omega)
    have hidx' : e.index ((e.source : ℤ) + (j : ℕ)) = e.startIndex + j := hwf.index_eq rfl (by omega)
    have htable₁ := htable.put hwf (j := j - 2) (by omega) (by omega) x
    obtain ⟨b, hb, hfound⟩ := isMatch_spec hwf htable₁ (by omega) (by omega)
      (show (e.source : ℤ) + (j : ℕ) = (e.source : ℤ) + (j : ℕ) from rfl) y
    have htable₂ := (htable₁.mono (Nat.le_succ j)).put hwf (j := j) (Nat.lt_succ_self _) (by omega) y
    simp only [hx, hy, hz, hidx2, hidx', Option.bind_eq_bind, Option.bind_some, hb]
    cases b with
    | true =>
        obtain ⟨p, hp⟩ := hfound rfl
        have hci := hp.index
        have hlt := hp.agree.lt
        have hdist := hp.dist
        set c := candidate e y (putIndexOnHash (e.startIndex + (j - 2)) x table e.tableType) with hc
        obtain ⟨m₁, hm₁, h₁⟩ := hmem.store (d := ((ss.flatMap Sequence.bytes).length : ℤ))
          [(0 : UInt8)] rfl (by rw [List.length_singleton]; omega)
        rw [if_pos rfl, hm₁]
        refine ⟨_, rfl, j, j, p, 0, ss, ⟨hemit, le_refl _, by omega, hlong, rfl, rfl, ?_, ?_, ?_,
          hp.points, hp.agree, ?_, hdist, ?_, ?_⟩, by omega⟩
        · dsimp only
          rw [Nat.sub_self, lengthBytes, if_pos (by omega), List.length_nil]
          omega
        · have hempty : e.part j 0 = [] := List.take_zero
          rw [Nat.sub_self, lengthBytes, if_pos (by omega), hempty]
          exact h₁
        · exact htable₂
        · intro hdict
          exact (hp.points.inDict hdict).2.2.2
        · intro _
          dsimp only
          rw [u32]
          omega
        · intro hlim
          have hroom := hlimited hlim
          dsimp only
          omega
    | false =>
        rw [if_neg (by decide)]
        exact ⟨_, rfl, j, ss, ⟨hemit, rfl, rfl, rfl, hmem, htable₂, by omega, hlong⟩, by omega⟩

/-- **A match** is encoded, and leads to the next one, to another search or to the last
literals. -/
theorem matchStep_spec (hwf : e.Wf hist) (hroom : e.Room N) {a j p k fuel : ℕ} {s : MatchState}
    {ss : List Sequence} (h : MatchOk e hist N a j p k s ss) (hfuel : 2 * (e.inputSize - j) ≤ fuel) :
    ∃ r, matchStep e s = some r ∧ Good e hist N given fuel r := by
  have h4 : minMatch = 4 := rfl
  have h5 : lastLiterals = 5 := rfl
  have hmf : mfLimit = 12 := rfl
  have hmax : distanceMax = 65535 := rfl
  have hlong := h.long
  have haj := h.le
  have hfits := h.fits
  have hsrc := hwf.length_src
  have hip := h.ip
  have hop := h.op
  have htoken := h.token
  have hlimited := h.limited
  have hidx := hwf.index_lt
  have hlt := h.agree.lt
  have hlenp := hwf.length_part (a := a) (n := j - a) (by omega)
  have hlenB := length_lengthBytes (j - a)
  set w := ss.flatMap Sequence.bytes with hw
  obtain ⟨code, hcode, hkc, hend, hagree⟩ := matchCode_spec hwf h.points h.agree h.inDict (by omega) h.ip
  have hlenC := length_lengthBytes code
  have hemit := h.emitted.add hwf haj (by omega) h.dist hagree hend
  have hcost := hemit.cost
  rw [List.flatMap_append, List.length_append, List.flatMap_singleton, ← hw] at hcost
  set q : Sequence := ⟨e.part a (j - a), hist.length + j - p, code + minMatch⟩ with hq
  have hqlen : q.bytes.length = 3 + (j - a + 240) / 255 + (j - a) + (code + 240) / 255 := by
    rw [length_sequence_bytes, hq]
    dsimp only
    rw [hlenp, Nat.add_sub_cancel]
  set mid := lengthBytes (j - a) ++ e.part a (j - a) with hmid
  have hmidlen : mid.length = (j - a + 240) / 255 + (j - a) := by
    rw [hmid, List.length_append, hlenB, hlenp]
  have hwmid : (w ++ tokenOf (j - a) 0 :: mid).length = w.length + 1 + mid.length := by
    rw [List.length_append, List.length_cons]
    omega
  -- both ways to be short of room
  have hN : w.length + 1 + mid.length + 2 ≤ N := by
    rcases hroom with ⟨hlim, hN⟩ | ⟨-, hN⟩
    · have hroom' := hlimited hlim
      omega
    · omega
  have hmem : Filled N (w ++ tokenOf (j - a) 0 :: mid) s.mem := h.mem
  obtain ⟨m₁, hm₁, h₁⟩ := hmem.store (d := s.op)
    (LittleEndian.put 2 (hist.length + j - p)) (by omega) (by rw [LittleEndian.length_put]; omega)
  have hleft : e.TableLeft hist given s.table := .inr ⟨hlong, h.table.mono (by omega)⟩
  rw [matchStep_eq, h.offset_eq, hm₁, hcode]
  simp only [Option.bind_some]
  by_cases hfull : e.outputDirective = .limitedOutput
      ∧ s.op + 2 + (1 + lastLiterals) + ((code + 240) / 255 : ℕ) > e.olimit
  · rw [if_pos hfull]
    have hover := hfull.2
    rw [CompEnv.olimit] at hover
    exact ⟨_, rfl, RetOk.zero h₁.len hleft hfull.1 (by omega)⟩
  · have hfit : w.length + 1 + (mid.length + 2) + (lengthBytes code).length + 4 ≤ N := by
      rcases hroom with ⟨hlim, hN⟩ | ⟨-, hN⟩
      · have hnot : ¬ s.op + 2 + (1 + lastLiterals) + ((code + 240) / 255 : ℕ) > e.olimit :=
          fun hover => hfull ⟨hlim, hover⟩
        rw [CompEnv.olimit] at hnot
        omega
      · omega
    have hlimit' : e.outputDirective = .limitedOutput → w.length + q.bytes.length + 6 ≤ e.maxOutputSize := by
      intro hlim
      have hnot : ¬ s.op + 2 + (1 + lastLiterals) + ((code + 240) / 255 : ℕ) > e.olimit :=
        fun hover => hfull ⟨hlim, hover⟩
      rw [CompEnv.olimit] at hnot
      omega
    rw [List.append_assoc, List.cons_append] at h₁
    have hmid2 : (mid ++ LittleEndian.put 2 (hist.length + j - p)).length = mid.length + 2 := by
      rw [List.length_append, LittleEndian.length_put]
    obtain ⟨m₂, hm₂, h₂⟩ := putMatchLength_spec h₁ h.token
      (show s.op + 2 = (w.length : ℤ) + 1 + (mid ++ LittleEndian.put 2 (hist.length + j - p)).length by omega)
      (show _ + (lengthBytes code).length + 4 ≤ N by omega)
    -- the sequence is there
    have hbytes : w ++ tokenOf (j - a) code :: (mid ++ LittleEndian.put 2 (hist.length + j - p)
        ++ lengthBytes code) = (ss ++ [q]).flatMap Sequence.bytes := by
      rw [List.flatMap_append, List.flatMap_singleton, ← hw, Sequence.bytes, hq]
      dsimp only
      rw [hlenp, Nat.add_sub_cancel]
    rw [hbytes] at h₂
    have hlen₂ : ((ss ++ [q]).flatMap Sequence.bytes).length = w.length + q.bytes.length := by
      rw [List.flatMap_append, List.flatMap_singleton, List.length_append]
    have hop₂ : s.op + 2 + ((lengthBytes code).length : ℤ)
        = (((ss ++ [q]).flatMap Sequence.bytes).length : ℤ) := by
      omega
    set j' := j + (code + minMatch) with hj'
    have hip' : s.ip + ((code : ℤ) + (minMatch : ℕ)) = e.source + (j' : ℕ) := by omega
    have htable := h.table.mono (show j + k + 1 ≤ j' by omega)
    rw [if_neg hfull, hm₂]
    simp only [Option.bind_some, hop₂, hip']
    exact afterMatch_spec hwf hemit h₂ (by omega) (fun hlim => by have hroom' := hlimit' hlim; omega)
      htable (by omega) hlong hleft (by omega)

/-- **The last literals** end the block. -/
theorem lastLiteralsStep_spec (hwf : e.Wf hist) (hroom : e.Room N) {a : ℕ} {anchor op : ℤ}
    {mem : Bytes} {table : HashTable} {ss : List Sequence}
    (h : LastOk e hist N a given anchor op mem table ss) :
    ∃ value mem', lastLiteralsStep e anchor op mem table = some (.ret value mem' table)
      ∧ RetOk e hist N given value mem' table := by
  have hcost := h.emitted.cost
  have hle := h.emitted.le
  have hsrc := hwf.length_src
  have hop := h.op
  have h15 : runMask = 15 := rfl
  set w := ss.flatMap Sequence.bytes with hw
  have hrun : (e.iend - anchor).toNat = e.inputSize - a := by
    rw [CompEnv.iend, h.anchor]
    omega
  have hround : (e.inputSize - a + 255 - runMask) / 255 = (e.inputSize - a + 240) / 255 := by
    rw [h15, Nat.add_sub_assoc (by omega)]
  rw [lastLiteralsStep, hrun]
  dsimp only
  rw [hround]
  by_cases hfull : e.outputDirective = .limitedOutput
      ∧ op + (e.inputSize - a : ℕ) + 1 + ((e.inputSize - a + 240) / 255 : ℕ) > e.olimit
  · rw [if_pos hfull]
    have hover := hfull.2
    rw [CompEnv.olimit] at hover
    exact ⟨0, mem, rfl, RetOk.zero h.mem.len h.table hfull.1 (by omega)⟩
  · set n := e.inputSize - a with hn
    have hlenB := length_lengthBytes n
    have hfit : w.length + 1 + (lengthBytes n).length + n ≤ N := by
      rcases hroom with ⟨hlim, hN⟩ | ⟨-, hN⟩
      · have hnot : ¬ op + (n : ℕ) + 1 + ((n + 240) / 255 : ℕ) > e.olimit := fun hover => hfull ⟨hlim, hover⟩
        rw [CompEnv.olimit] at hnot
        omega
      · omega
    have hmem : Filled N w mem := h.mem
    obtain ⟨m₁, hm₁, h₁⟩ := putLitLength_spec hmem (n := n) h.op
      (show op + 1 = (w.length : ℤ) + 1 by rw [h.op]) (by omega)
    have hlen₁ : (w ++ tokenOf n 0 :: lengthBytes n).length = w.length + 1 + (lengthBytes n).length := by
      rw [List.length_append, List.length_cons]
      omega
    obtain ⟨m₂, hm₂, h₂⟩ := h₁.copyFrom e.cur (d := op + 1 + ((lengthBytes n).length : ℤ))
      (s := anchor) (i := e.source + a) (n := n) (by omega) (by rw [h.anchor]; omega) (by omega) (by omega)
    have hlenp := hwf.length_part (a := a) (n := n) (by omega)
    have hblock : w ++ tokenOf n 0 :: lengthBytes n ++ e.part a n = blockBytes ss 0 (e.part a n) := by
      rw [blockBytes, lastBytes, hlenp, List.append_assoc, List.cons_append]
    have hlen₂ : (blockBytes ss 0 (e.part a n)).length
        = w.length + 1 + (lengthBytes n).length + n := by
      rw [← hblock, List.length_append, hlen₁, hlenp]
    have h₂' : Filled N (blockBytes ss 0 (e.part a n)) m₂ := by
      rw [← hblock]
      exact h₂
    have hvalue : (op + 1 + ((lengthBytes n).length : ℤ) + (n : ℕ)).toNat
        = (blockBytes ss 0 (e.part a n)).length := by
      omega
    rw [if_neg hfull, hm₁]
    simp only [Option.bind_eq_bind, Option.bind_some, hm₂, hvalue]
    refine ⟨_, m₂, rfl, h₂.len, h.table, .inr ⟨ss, e.part a n, h₂'.take, rfl, h.emitted.within,
      h.emitted.ends, ?_, ?_, ?_⟩⟩
    · rw [h.emitted.length_eq, hlenp]
      omega
    · have hwin := e.length_win hist
      rw [h.emitted.whole, e.part_eq hist, ← List.take_add, List.take_of_length_le]
      omega
    · intro hlim
      have hnot : ¬ op + (n : ℕ) + 1 + ((n + 240) / 255 : ℕ) > e.olimit := fun hover => hfull ⟨hlim, hover⟩
      rw [CompEnv.olimit] at hnot
      omega

/-- **The main loop** ends, without an undefined access, and returns a block. -/
theorem compressLoop_spec (hwf : e.Wf hist) (hroom : e.Room N) {fuel : ℕ} {r : CompNext}
    (h : Good e hist N given fuel r) :
    ∃ value mem table, compressLoop e fuel r = some (value, mem, table)
      ∧ RetOk e hist N given value mem table := by
  induction fuel generalizing r with
  | zero =>
      cases r with
      | search s =>
          obtain ⟨a, ss, -, hle⟩ := h
          omega
      | nextMatch s =>
          obtain ⟨a, j, p, k, ss, -, hle⟩ := h
          omega
      | lastLiterals anchor op mem table =>
          obtain ⟨a, ss, -, hle⟩ := h
          omega
      | ret value mem table =>
          rw [compressLoop]
          exact ⟨value, mem, table, rfl, h⟩
  | succ fuel ih =>
      cases r with
      | search s =>
          obtain ⟨a, ss, hok, hle⟩ := h
          obtain ⟨r, hr, hgood⟩ := searchStep_spec hwf hroom hok (show _ ≤ fuel by omega)
          rw [compressLoop, hr, Option.bind_some]
          exact ih hgood
      | nextMatch s =>
          obtain ⟨a, j, p, k, ss, hok, hle⟩ := h
          obtain ⟨r, hr, hgood⟩ := matchStep_spec hwf hroom hok (show _ ≤ fuel by omega)
          rw [compressLoop, hr, Option.bind_some]
          exact ih hgood
      | lastLiterals anchor op mem table =>
          obtain ⟨a, ss, hok, -⟩ := h
          obtain ⟨value, mem', hr, hret⟩ := lastLiteralsStep_spec hwf hroom hok
          rw [compressLoop, hr, Option.bind_some]
          exact ih (r := .ret value mem' table) hret
      | ret value mem table =>
          rw [compressLoop]
          exact ⟨value, mem, table, rfl, h⟩

/-- **`LZ4_compress_generic_validated`** makes no undefined access and leaves the tables
fit for the next call. It returns 0 only if the output is limited to less than the bound,
and a block of the source otherwise. -/
theorem compressGenericValidated_spec (hwf : e.Wf hist) {mem : Bytes} {table : HashTable}
    (hroom : e.Room mem.length) (htable : e.TableOk hist 1 table) :
    ∃ value mem' table', compressGenericValidated e mem table = some (value, mem', table')
      ∧ RetOk e hist mem.length table value mem' table' := by
  have hmf : mfLimit = 12 := rfl
  have hmin : lz4MinLength = 13 := rfl
  have hsrc := hwf.length_src
  have hnil : Emitted e hist 0 [] := Emitted.nil e hist
  have hempty : Filled mem.length (([] : List Sequence).flatMap Sequence.bytes) mem :=
    Filled.of_length rfl
  rw [compressGenericValidated]
  dsimp only
  by_cases hshort : e.inputSize < lz4MinLength
  · rw [if_pos hshort]
    apply compressLoop_spec hwf hroom
    exact ⟨0, [], ⟨hnil, by omega, rfl, hempty, .inl ⟨hshort, rfl⟩⟩, by omega⟩
  · obtain ⟨x, hx⟩ := hashPosition_isSome (m := e.cur) (p := (e.source : ℤ)) (i := e.source) rfl
      (by omega) e.tableType
    obtain ⟨y, hy⟩ := hashPosition_isSome (m := e.cur) (p := (e.source : ℤ) + 1) (i := e.source + 1)
      (by omega) (by omega) e.tableType
    rw [if_neg hshort]
    simp only [hx, hy, Option.bind_eq_bind, Option.bind_some]
    apply compressLoop_spec hwf hroom
    refine ⟨0, [], ⟨hnil, by dsimp only; omega, by dsimp only; omega, rfl, hempty, ?_,
      by omega, by omega⟩, by omega⟩
    exact htable.put hwf (j := 0) (by omega) (by omega) x

end Plz4.Lz4
