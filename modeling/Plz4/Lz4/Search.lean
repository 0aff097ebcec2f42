/-
How the compressor finds a match: what a candidate of the hash table points to, the
search loop, the catching up and the length of the match.

Everything is stated about the window, the history followed by the source. Whatever the
hashes are, an index that passes the checks stands for a place of the window that is no
further away than the format can say, and the four bytes that were compared there agree
with those at the input pointer. From there on a match only grows by bytes that agree.
-/
import Plz4.Lz4.Count

set_option autoImplicit false

namespace Plz4.Lz4

open Mem Lz77

/-! ## The window -/

namespace CompEnv

variable (e : CompEnv) (hist : Bytes)

/-- The history and the source. -/
def win : Bytes := hist ++ e.cur.drop e.source

/-- Where the window would begin in the object of the source. -/
def shift : ℤ := e.source - hist.length

/-- How much of the window is not in the object of the source. -/
def lo : ℕ := if e.maybeExtMem then hist.length else 0

/-- An index in front of the source is skipped, or stands for a place of the history. -/
def Covered (idx : ℕ) : Prop :=
  (e.dictIssue = .dictSmall ∧ idx + hist.length < e.startIndex)
    ∨ (e.tableType ≠ .byU16 ∧ idx + distanceMax ≤ e.startIndex)
    ∨ (e.startIndex ≤ idx + hist.length ∧ (e.maybeExtMem = true → idx + minMatch ≤ e.startIndex))

/-- What the callers of the generic compressor see to. -/
structure Wf : Prop where
  source_le : e.source ≤ e.cur.length
  dictSize_eq : e.dictSize = hist.length
  hist_le : hist.length ≤ e.startIndex
  ext : e.maybeExtMem = true → e.dictionary = hist
  own : e.maybeExtMem = false →
    hist.length ≤ e.source ∧ e.cur.drop (e.source - hist.length) = e.win hist
  noDict : e.dictDirective = .noDict → hist = []
  index_lt : e.startIndex + e.inputSize + 65536 ≤ 2 ^ 32
  small : e.tableType = .byU16 → e.startIndex + e.inputSize < limit64K
  fast : 1 ≤ e.acceleration
  dictOffset_le : e.dictDirective = .usingDictCtx → e.dictOffset ≤ e.startIndex
  dictTable : e.dictDirective = .usingDictCtx → ∀ h, e.dictTable h < e.dictOffset
    ∧ e.Covered hist (e.dictTable h + (e.startIndex - e.dictOffset))

/-- The entries of a table while the input pointer is at the `i`-th byte of the source. -/
def TableOk (i : ℕ) (table : HashTable) : Prop :=
  ∀ h, table h < e.startIndex + i
    ∧ (e.dictDirective ≠ .usingDictCtx → table h < e.startIndex → e.Covered hist (table h))

end CompEnv

variable {e : CompEnv} {hist : Bytes}

theorem CompEnv.length_win (e : CompEnv) (hist : Bytes) :
    (e.win hist).length = hist.length + e.inputSize := by
  rw [CompEnv.win, List.length_append, List.length_drop]
  rfl

theorem CompEnv.lo_of_ext (hist : Bytes) (hext : e.maybeExtMem = true) : e.lo hist = hist.length := by
  rw [CompEnv.lo, if_pos hext]

theorem CompEnv.lo_of_own (hist : Bytes) (hext : e.maybeExtMem = false) : e.lo hist = 0 := by
  rw [CompEnv.lo, if_neg (by rw [hext]; decide)]

theorem CompEnv.lo_le (e : CompEnv) (hist : Bytes) : e.lo hist ≤ hist.length := by
  rw [CompEnv.lo]
  split_ifs
  · exact le_refl _
  · exact Nat.zero_le _

namespace CompEnv.Wf

theorem length_src (hwf : e.Wf hist) : e.cur.length = e.source + e.inputSize := by
  have hle := hwf.source_le
  rw [CompEnv.inputSize]
  omega

/-- The object of the source shows the end of the window. -/
theorem view_cur (hwf : e.Wf hist) :
    View e.cur (e.win hist) (e.shift hist) (e.lo hist) (e.win hist).length := by
  have hlen := e.length_win hist
  have hsrc := hwf.source_le
  rw [CompEnv.shift, CompEnv.lo]
  cases hext : e.maybeExtMem with
  | true =>
      rw [if_pos rfl]
      apply view_drop _ hsrc (by omega)
      rw [CompEnv.win, List.drop_left]
  | false =>
      obtain ⟨hle, hdrop⟩ := hwf.own hext
      have hview := view_drop (show e.cur.drop (e.source - hist.length) = (e.win hist).drop 0 from hdrop)
        (by omega) (Nat.zero_le _)
      rw [if_neg (by decide)]
      rwa [show ((e.source - hist.length : ℕ) : ℤ) - (0 : ℕ) = (e.source : ℤ) - hist.length by omega]
        at hview

/-- The dictionary shows its beginning. -/
theorem view_dict (hwf : e.Wf hist) (hext : e.maybeExtMem = true) :
    View e.dictionary (e.win hist) 0 0 hist.length := by
  rw [hwf.ext hext]
  exact view_take hist _

/-- The index of a place of the source. -/
theorem index_eq (hwf : e.Wf hist) {ip : ℤ} {i : ℕ} (hip : ip = e.source + i) (hi : i ≤ e.inputSize) :
    e.index ip = e.startIndex + i := by
  have hlt := hwf.index_lt
  rw [CompEnv.index, CompEnv.base, hip]
  omega

end CompEnv.Wf

/-! ## The table -/

theorem CompEnv.TableOk.mono {i j : ℕ} {table : HashTable} (h : e.TableOk hist i table) (hij : i ≤ j) :
    e.TableOk hist j table :=
  fun x => ⟨by have hlt := (h x).1; omega, (h x).2⟩

/-- A place of the source is entered, for a hash or another. -/
theorem CompEnv.TableOk.put (hwf : e.Wf hist) {i j : ℕ} {table : HashTable} (h : e.TableOk hist i table)
    (hj : j < i) (hn : j + mfLimit ≤ e.inputSize) (x : ℕ) :
    e.TableOk hist i (putIndexOnHash (e.startIndex + j) x table e.tableType) := by
  have hlt := hwf.index_lt
  have hmf : mfLimit = 12 := rfl
  have h64 : limit64K = 65547 := rfl
  have hstored : (if e.tableType = .byU16 then (e.startIndex + j) % 2 ^ 16 else u32 (e.startIndex + j))
      = e.startIndex + j := by
    split_ifs with h16
    · have hsmall := hwf.small h16
      omega
    · rw [u32]
      omega
  intro y
  rw [putIndexOnHash, hstored]
  by_cases hy : y = x
  · rw [hy, Function.update_self]
    exact ⟨by omega, fun _ hbefore => by omega⟩
  · rw [Function.update_of_ne hy]
    exact h y

/-! ## Candidates -/

/-- A candidate points to the place `p` of the window. -/
structure Points (e : CompEnv) (hist : Bytes) (c : Candidate) (p : ℕ) : Prop where
  inDict : c.inDict = true →
    e.maybeExtMem = true ∧ c.pos = p ∧ c.lowLimit = 0 ∧ p + minMatch ≤ hist.length
  own : c.inDict = false →
    c.pos = p + e.shift hist ∧ c.lowLimit = e.lo hist + e.shift hist ∧ e.lo hist ≤ p

theorem Points.inDict_eq_false {c : Candidate} {p : ℕ} (h : Points e hist c p)
    (hext : ¬ (e.maybeExtMem = true ∧ c.inDict = true)) : c.inDict = false := by
  cases hc : c.inDict with
  | false => rfl
  | true => exact absurd ⟨(h.inDict hc).1, hc⟩ hext

/-- A candidate in the object of the source. -/
theorem points_own {idx : ℕ} {low : ℤ} (hlow : low = e.lo hist + e.shift hist)
    (hle : e.lo hist ≤ idx + hist.length - e.startIndex) (hin : e.startIndex ≤ idx + hist.length) :
    Points e hist ⟨idx, false, e.base + idx, low⟩ (idx + hist.length - e.startIndex) := by
  refine ⟨fun h => (by cases h), fun _ => ⟨?_, hlow, hle⟩⟩
  rw [CompEnv.base, CompEnv.shift]
  dsimp only
  omega

/-- The object it is in shows the window around that place. -/
theorem Points.view (hwf : e.Wf hist) {c : Candidate} {p : ℕ} (h : Points e hist c p)
    (hp : p + minMatch ≤ (e.win hist).length) :
    ∃ (sp : ℤ) (lo hi : ℕ), View (c.obj e) (e.win hist) sp lo hi ∧ c.pos = p + sp
      ∧ c.lowLimit = lo + sp ∧ lo ≤ p ∧ p + minMatch ≤ hi ∧ hi ≤ (e.win hist).length := by
  have hlen := e.length_win hist
  rcases hin : c.inDict with _ | _
  · obtain ⟨hpos, hlow, hle⟩ := h.own hin
    refine ⟨e.shift hist, e.lo hist, (e.win hist).length, ?_, hpos, hlow, hle, hp, le_refl _⟩
    rw [Candidate.obj, hin]
    exact hwf.view_cur
  · obtain ⟨hext, hpos, hlow, hle⟩ := h.inDict hin
    refine ⟨0, 0, hist.length, ?_, by omega, by omega, Nat.zero_le _, hle, by omega⟩
    rw [Candidate.obj, hin]
    exact hwf.view_dict hext

/-- **What a hash table has to offer**: an index that is behind the pointer, and that is
skipped or points into the window. -/
theorem candidate_spec (hwf : e.Wf hist) {i : ℕ} {table : HashTable} (htable : e.TableOk hist i table)
    (x : ℕ) :
    (candidate e x table).matchIndex < e.startIndex + i
      ∧ ((candidate e x table).matchIndex < e.startIndex →
          e.Covered hist (candidate e x table).matchIndex)
      ∧ (e.startIndex ≤ (candidate e x table).matchIndex + hist.length →
          ((candidate e x table).matchIndex < e.startIndex → e.maybeExtMem = true →
            (candidate e x table).matchIndex + minMatch ≤ e.startIndex) →
          Points e hist (candidate e x table)
            ((candidate e x table).matchIndex + hist.length - e.startIndex)) := by
  obtain ⟨hlt, hcov⟩ := htable x
  have hsize := hwf.dictSize_eq
  have hhist := hwf.hist_le
  have hidx := hwf.index_lt
  have hlo := e.lo_le hist
  have h4 : minMatch = 4 := rfl
  rw [candidate]
  by_cases hctx : e.dictDirective = .usingDictCtx
  · have hext : e.maybeExtMem = true := by
      rw [CompEnv.maybeExtMem, hctx]
      decide
    have hloeq := CompEnv.lo_of_ext hist hext
    rw [if_pos hctx]
    by_cases hbefore : table x < e.startIndex
    · obtain ⟨hdlt, hdcov⟩ := hwf.dictTable hctx x
      have hoff := hwf.dictOffset_le hctx
      have hdelta : u32 (e.dictTable x + e.dictDelta) = e.dictTable x + (e.startIndex - e.dictOffset) := by
        rw [CompEnv.dictDelta, u32, u32]
        omega
      rw [if_pos hbefore]
      simp only [hdelta]
      refine ⟨by omega, fun _ => hdcov, fun hin hfour => ?_⟩
      have hroom := hfour (by omega) hext
      refine ⟨fun _ => ⟨hext, ?_, rfl, by omega⟩, fun h => (by cases h)⟩
      dsimp only
      omega
    · rw [if_neg hbefore]
      refine ⟨hlt, fun h => absurd h hbefore, fun hin _ => points_own ?_ (by omega) hin⟩
      rw [hloeq, CompEnv.shift]
      omega
  · rw [if_neg hctx]
    by_cases hed : e.dictDirective = .usingExtDict
    · have hext : e.maybeExtMem = true := by
        rw [CompEnv.maybeExtMem, hed]
        decide
      have hloeq := CompEnv.lo_of_ext hist hext
      rw [if_pos hed]
      by_cases hbefore : table x < e.startIndex
      · rw [if_pos hbefore]
        refine ⟨hlt, fun _ => hcov hctx hbefore, fun hin hfour => ?_⟩
        dsimp only at hin hfour ⊢
        have hroom := hfour hbefore hext
        refine ⟨fun _ => ⟨hext, ?_, rfl, by omega⟩, fun h => (by cases h)⟩
        dsimp only
        omega
      · rw [if_neg hbefore]
        refine ⟨hlt, fun h => absurd h hbefore, fun hin _ => points_own ?_ (by omega) hin⟩
        rw [hloeq, CompEnv.shift]
        omega
    · have hext : e.maybeExtMem = false := by
        rw [CompEnv.maybeExtMem, decide_eq_false_iff_not]
        simp [hctx, hed]
      have hloeq := CompEnv.lo_of_own hist hext
      rw [if_neg hed]
      refine ⟨hlt, hcov hctx, fun hin _ => points_own ?_ (by omega) hin⟩
      rw [hloeq, CompEnv.shift]
      split_ifs with hpre
      · omega
      · have hnil : e.dictDirective = .noDict := by
          cases hd : e.dictDirective with
          | noDict => rfl
          | withPrefix64k => exact absurd hd hpre
          | usingExtDict => exact absurd hd hed
          | usingDictCtx => exact absurd hd hctx
        have hlen : hist.length = 0 := by rw [hwf.noDict hnil, List.length_nil]
        omega

/-- Two places of the window with `r` bytes that agree. -/
structure Agree (win : Bytes) (p q r : ℕ) : Prop where
  same : (win.drop p).take r = (win.drop q).take r
  lt : p < q
  fits : q + r ≤ win.length

/-- What the search has found: a place for the match and the distance to it. -/
structure Found (e : CompEnv) (hist : Bytes) (c : Candidate) (i p : ℕ) : Prop where
  points : Points e hist c p
  dist : hist.length + i ≤ p + distanceMax
  index : c.matchIndex + (hist.length + i) = e.startIndex + i + p
  agree : Agree (e.win hist) p (hist.length + i) minMatch

/-- **A candidate is looked at** only where it may be, and taken only if its bytes agree. -/
theorem isMatch_spec (hwf : e.Wf hist) {i : ℕ} {table : HashTable} (htable : e.TableOk hist i table)
    (hpos : 0 < i) (hi : i + mfLimit ≤ e.inputSize) {ip : ℤ} (hip : ip = e.source + i) (x : ℕ) :
    ∃ b, isMatch e (candidate e x table) ip = some b
      ∧ (b = true → ∃ p, Found e hist (candidate e x table) i p) := by
  obtain ⟨hlt, hcov, hpoints⟩ := candidate_spec hwf htable x
  set c := candidate e x table with hc
  have hmf : mfLimit = 12 := rfl
  have h4 : minMatch = 4 := rfl
  have hmax : distanceMax = 65535 := rfl
  have h64 : limit64K = 65547 := rfl
  have hhist := hwf.hist_le
  have hidx := hwf.index_lt
  have hlen := e.length_win hist
  have hindex : e.index ip = e.startIndex + i := hwf.index_eq hip (by omega)
  have hlimit : e.prefixIdxLimit = e.startIndex - hist.length := by
    rw [CompEnv.prefixIdxLimit, hwf.dictSize_eq, u32]
    omega
  have hsum : u32 (c.matchIndex + distanceMax) = c.matchIndex + distanceMax := by
    rw [u32]
    omega
  rw [isMatch, hlimit, hsum, hindex]
  split_ifs with hsmall hfar
  · exact ⟨false, rfl, fun h => (by cases h)⟩
  · exact ⟨false, rfl, fun h => (by cases h)⟩
  · -- what is not skipped is a place of the window
    have hin : e.startIndex ≤ c.matchIndex + hist.length
        ∧ (c.matchIndex < e.startIndex → e.maybeExtMem = true → c.matchIndex + minMatch ≤ e.startIndex) := by
      by_cases hbefore : c.matchIndex < e.startIndex
      · rcases hcov hbefore with ⟨hd, hless⟩ | ⟨ht, hless⟩ | ⟨hge, hfour⟩
        · exact absurd ⟨hd, by omega⟩ hsmall
        · exact absurd ⟨ht, by omega⟩ hfar
        · exact ⟨hge, fun _ => hfour⟩
      · exact ⟨by omega, fun h => absurd h hbefore⟩
    have hdist : e.startIndex + i ≤ c.matchIndex + distanceMax := by
      by_cases h16 : e.tableType = .byU16
      · have hsrc := hwf.small h16
        omega
      · by_contra hcon
        exact hfar ⟨h16, by omega⟩
    have hp := hpoints hin.1 hin.2
    set p := c.matchIndex + hist.length - e.startIndex with hpdef
    obtain ⟨sp, lo, hi', hview, haddr, -, hlo, hhi, hhi'⟩ := hp.view hwf (by omega)
    have hcur := hwf.view_cur
    have hlole := e.lo_le hist
    have hsrc4 : ip = ((hist.length + i : ℕ) : ℤ) + e.shift hist := by
      rw [hip, CompEnv.shift]
      omega
    rw [haddr, hsrc4]
    simp only [read32, get_view hview hlo (show p + 4 ≤ hi' by omega),
      get_view hcur (show e.lo hist ≤ hist.length + i by omega)
        (show hist.length + i + 4 ≤ (e.win hist).length by omega), Option.bind_eq_bind, Option.bind_some]
    refine ⟨_, rfl, fun hsame => ⟨p, hp, by omega, by omega, ?_, by omega, by omega⟩⟩
    rw [decide_eq_true_eq, get_inj] at hsame
    · exact hsame
    · rw [length_piece (by omega), length_piece (by omega)]

/-! ## The search loop -/

/-- **The search loop** ends, with the last literals or with a match further on. -/
theorem findMatch_spec (hwf : e.Wf hist) {i k nb step : ℕ} (forwardH : ℕ) {table : HashTable}
    (htable : e.TableOk hist i table) (hpos : 0 < i) (hi : i + mfLimit ≤ e.inputSize + 1) {forwardIp : ℤ}
    (hip : forwardIp = e.source + i) (hstep : 1 ≤ step) (hnb : 64 ≤ nb) (hk : e.inputSize < i + k) :
    ∃ r table', findMatch e k nb step forwardIp forwardH table = some (r, table')
      ∧ ((r = none ∧ e.TableOk hist (e.inputSize - (mfLimit - 1)) table')
        ∨ ∃ (j p : ℕ) (c : Candidate), r = some ((e.source : ℤ) + j, c) ∧ i ≤ j ∧ j + mfLimit ≤ e.inputSize
          ∧ e.TableOk hist (j + 1) table' ∧ Found e hist c j p) := by
  have hmf : mfLimit = 12 := rfl
  have hlen := hwf.length_src
  induction k generalizing i nb step forwardIp forwardH table with
  | zero => omega
  | succ k ih =>
      rw [findMatch]
      dsimp only
      have hpast : forwardIp + step > e.mflimitPlusOne ↔ e.inputSize + 1 < i + step + mfLimit := by
        rw [CompEnv.mflimitPlusOne, CompEnv.iend, hip]
        omega
      by_cases hend : e.inputSize + 1 < i + step + mfLimit
      · rw [if_pos (hpast.mpr hend)]
        exact ⟨none, table, rfl, .inl ⟨rfl, htable.mono (by omega)⟩⟩
      · rw [if_neg (fun h => hend (hpast.mp h))]
        obtain ⟨h', hhash⟩ := hashPosition_isSome (m := e.cur) (p := forwardIp + step)
          (i := e.source + (i + step)) (by omega) (by omega) e.tableType
        obtain ⟨b, hb, hfound⟩ := isMatch_spec hwf htable hpos (by omega) hip forwardH
        have hput := (htable.mono (Nat.le_succ i)).put hwf (j := i) (Nat.lt_succ_self i) (by omega)
          forwardH
        simp only [hhash, hwf.index_eq hip (by omega), hb, Option.bind_eq_bind, Option.bind_some]
        cases b with
        | true =>
            obtain ⟨p, hp⟩ := hfound rfl
            rw [if_pos rfl, hip]
            exact ⟨_, _, rfl, .inr ⟨i, p, _, rfl, le_refl _, by omega, hput, hp⟩⟩
        | false =>
            have hnext : 1 ≤ nb >>> skipTrigger := by
              rw [skipTrigger, Nat.shiftRight_eq_div_pow]
              omega
            rw [if_neg (by decide)]
            obtain ⟨r, table', hr, hcases⟩ := ih h' (hput.mono (show i + 1 ≤ i + step by omega)) (by omega)
              (by omega) (show forwardIp + step = (e.source : ℤ) + ((i + step : ℕ) : ℤ) by omega) hnext
              (show 64 ≤ nb + 1 by omega) (by omega)
            refine ⟨r, table', hr, ?_⟩
            rcases hcases with hnone | ⟨j, p, c, hr, hj, hrest⟩
            · exact .inl hnone
            · exact .inr ⟨j, p, c, hr, by omega, hrest⟩

/-! ## Catching up -/

variable {win : Bytes} {p q r : ℕ}

/-- One byte more in front. -/
theorem Agree.back (h : Agree win (p + 1) (q + 1) r)
    (hbyte : ((win.drop p).take 1).headD 0 = ((win.drop q).take 1).headD 0) :
    Agree win p q (r + 1) := by
  have hlt := h.lt
  have hfits := h.fits
  refine ⟨?_, by omega, by omega⟩
  rw [headD_eq_iff (by omega) (by omega)] at hbyte
  rw [Nat.add_comm r 1, List.take_add, List.take_add, List.drop_drop, List.drop_drop, hbyte, h.same]

theorem readByte_view {obj : Bytes} {s : ℤ} {lo hi : ℕ} (h : View obj win s lo hi)
    (hlo : lo ≤ p) (hhi : p + 1 ≤ hi) {a : ℤ} (ha : a = p + s) :
    readByte obj a = some (((win.drop p).take 1).headD 0) := by
  rw [readByte, ha, h p 1 hlo hhi]
  rfl

/-- The loop of the catching up: `j` bytes in front of the match agree as well. -/
theorem catchUpLoop_spec {obj : Bytes} {sp sq lowLimit anchor ip pos : ℤ} {lo hi lo' a k : ℕ}
    (hobj : View obj win sp lo hi) (hcur : View e.cur win sq lo' win.length)
    (hagree : Agree win (p + 1) (q + 1) r) (hhi : p + 1 + r ≤ hi) (hlo : lo ≤ p) (hlo' : lo' ≤ a)
    (hlow : lowLimit = lo + sp) (hanchor : anchor = a + sq) (ha : a ≤ q) (hip : ip = q + 1 + sq)
    (hpos : pos = p + 1 + sp) (hk : q < a + k)
    (hbyte : ((win.drop p).take 1).headD 0 = ((win.drop q).take 1).headD 0) :
    ∃ j, catchUpLoop e obj anchor lowLimit k ip pos
        = some (((q - j : ℕ) : ℤ) + sq, ((p - j : ℕ) : ℤ) + sp)
      ∧ a + j ≤ q ∧ lo + j ≤ p ∧ Agree win (p - j) (q - j) (r + 1 + j) := by
  induction k generalizing p q r ip pos with
  | zero => omega
  | succ k ih =>
      have hlt := hagree.lt
      have hfits := hagree.fits
      have hback := hagree.back hbyte
      rw [catchUpLoop]
      by_cases hgo : a < q ∧ lo < p
      · obtain ⟨q, rfl⟩ : ∃ q', q = q' + 1 := ⟨q - 1, by omega⟩
        obtain ⟨p, rfl⟩ : ∃ p', p = p' + 1 := ⟨p - 1, by omega⟩
        rw [if_pos (by omega)]
        simp only [readByte_view hcur (p := q) (a := ip - 1 - 1) (by omega) (by omega) (by omega),
          readByte_view hobj (p := p) (a := pos - 1 - 1) (by omega) (by omega) (by omega),
          Option.bind_eq_bind, Option.bind_some]
        by_cases heq : ((win.drop q).take 1).headD 0 = ((win.drop p).take 1).headD 0
        · rw [if_pos heq]
          obtain ⟨j, hj, haj, hlj, hall⟩ := ih hback (by omega) (by omega) (by omega)
            (show ip - 1 = (q : ℤ) + 1 + sq by omega) (show pos - 1 = (p : ℤ) + 1 + sp by omega) (by omega)
            heq.symm
          refine ⟨j + 1, ?_, by omega, by omega, ?_⟩
          · rw [hj, show q + 1 - (j + 1) = q - j by omega, show p + 1 - (j + 1) = p - j by omega]
          · rw [show p + 1 - (j + 1) = p - j by omega, show q + 1 - (j + 1) = q - j by omega,
              show r + 1 + (j + 1) = r + 1 + 1 + j by omega]
            exact hall
        · rw [if_neg heq]
          refine ⟨0, ?_, by omega, by omega, hback⟩
          rw [Option.some_inj, Prod.mk.injEq]
          exact ⟨by omega, by omega⟩
      · rw [if_neg (by omega)]
        refine ⟨0, ?_, by omega, by omega, hback⟩
        rw [Option.some_inj, Prod.mk.injEq]
        exact ⟨by omega, by omega⟩

/-- **Catching up**: the match begins `j` bytes earlier, but not before the anchor. -/
theorem catchUp_spec (hwf : e.Wf hist) {c : Candidate} {a i p : ℕ} {anchor ip : ℤ}
    (hpoints : Points e hist c p) (hagree : Agree (e.win hist) p (hist.length + i) minMatch)
    (ha : a < i) (hanchor : anchor = e.source + a) (hip : ip = e.source + i) :
    ∃ j, catchUp e anchor ip c = some ((e.source : ℤ) + (i - j : ℕ), c.pos - j) ∧ a + j ≤ i ∧ j ≤ p
      ∧ Points e hist { c with pos := c.pos - j } (p - j)
      ∧ Agree (e.win hist) (p - j) (hist.length + (i - j)) (minMatch + j) := by
  have h4 : minMatch = 4 := rfl
  have hlt := hagree.lt
  have hfits := hagree.fits
  have hlole := e.lo_le hist
  have hcur := hwf.view_cur
  have hlen := e.length_win hist
  have hsrc := hwf.length_src
  have hshift : e.shift hist = (e.source : ℤ) - hist.length := rfl
  obtain ⟨sp, lo, hi, hview, hpos, hlow, hlo, hhi, hhi'⟩ := hpoints.view hwf (by omega)
  -- the new place is one of the same object
  have hmoved : ∀ j, lo + j ≤ p → Points e hist { c with pos := c.pos - j } (p - j) := by
    intro j hj
    refine ⟨fun hin => ?_, fun hin => ?_⟩
    · obtain ⟨hext, hpos', hlow', hle⟩ := hpoints.inDict hin
      exact ⟨hext, by dsimp only; omega, hlow', by omega⟩
    · obtain ⟨hpos', hlow', hle⟩ := hpoints.own hin
      exact ⟨by dsimp only; omega, hlow', by omega⟩
  have hstay : ∃ j, some (ip, c.pos) = some ((e.source : ℤ) + (i - j : ℕ), c.pos - j) ∧ a + j ≤ i ∧ j ≤ p
      ∧ Points e hist { c with pos := c.pos - j } (p - j)
      ∧ Agree (e.win hist) (p - j) (hist.length + (i - j)) (minMatch + j) := by
    refine ⟨0, ?_, by omega, Nat.zero_le _, hmoved 0 (by omega), hagree⟩
    rw [Option.some_inj, Prod.mk.injEq]
    exact ⟨by omega, by omega⟩
  rw [catchUp]
  by_cases hgo : lo < p
  · obtain ⟨p, rfl⟩ : ∃ p', p = p' + 1 := ⟨p - 1, by omega⟩
    obtain ⟨i, rfl⟩ : ∃ i', i = i' + 1 := ⟨i - 1, by omega⟩
    rw [if_pos (by omega)]
    simp only [readByte_view hcur (p := hist.length + i) (a := ip - 1) (by omega) (by omega)
        (by omega),
      readByte_view hview (p := p) (a := c.pos - 1) (by omega) (by omega) (by omega),
      Option.bind_eq_bind, Option.bind_some]
    by_cases heq : (((e.win hist).drop (hist.length + i)).take 1).headD 0
        = (((e.win hist).drop p).take 1).headD 0
    · rw [if_pos heq]
      have hanchor' : anchor = ((hist.length + a : ℕ) : ℤ) + e.shift hist := by omega
      have hip' : ip = ((hist.length + i : ℕ) : ℤ) + 1 + e.shift hist := by omega
      have hpos' : c.pos = (p : ℤ) + 1 + sp := by omega
      have hagree' : Agree (e.win hist) (p + 1) (hist.length + i + 1) minMatch := hagree
      obtain ⟨j, hj, haj, hlj, hall⟩ := catchUpLoop_spec (k := e.cur.length + 1) hview hcur hagree'
        (by omega) (by omega) (show e.lo hist ≤ hist.length + a by omega) hlow hanchor' (by omega) hip'
        hpos' (by omega) heq.symm
      refine ⟨j + 1, ?_, by omega, by omega, hmoved (j + 1) (by omega), ?_⟩
      · rw [hj, Option.some_inj, Prod.mk.injEq]
        exact ⟨by omega, by omega⟩
      · rw [show p + 1 - (j + 1) = p - j by omega,
          show hist.length + (i + 1 - (j + 1)) = hist.length + i - j by omega,
          show minMatch + (j + 1) = minMatch + 1 + j by omega]
        exact hall
    · rw [if_neg heq]
      exact hstay
  · rw [if_neg (by omega)]
    exact hstay

/-! ## The length of a match -/

/-- More bytes that agree behind those that do. -/
theorem Agree.append {k : ℕ} (h : Agree win p q r)
    (hmore : (win.drop (p + r)).take k = (win.drop (q + r)).take k) (hfits : q + r + k ≤ win.length) :
    Agree win p q (r + k) := by
  refine ⟨?_, h.lt, by omega⟩
  rw [List.take_add, List.take_add, List.drop_drop, List.drop_drop, h.same, hmore]

/-- What agrees, cut in two. -/
theorem Agree.split {k : ℕ} (h : Agree win p q (r + k)) :
    Agree win p q r ∧ (win.drop (p + r)).take k = (win.drop (q + r)).take k := by
  have hfits := h.fits
  have hlt := h.lt
  have hsame := h.same
  rw [List.take_add, List.take_add, List.drop_drop, List.drop_drop] at hsame
  obtain ⟨hfront, hback⟩ := List.append_inj hsame (by
    rw [length_piece (by omega), length_piece (by omega)])
  exact ⟨⟨hfront, hlt, by omega⟩, hback⟩

/-- **The match length**: the match agrees with the input, is at least as long as is known
already, and ends before the last literals. -/
theorem matchCode_spec (hwf : e.Wf hist) {c : Candidate} {i p k : ℕ} {ip : ℤ}
    (hpoints : Points e hist c p) (hagree : Agree (e.win hist) p (hist.length + i) (minMatch + k))
    (hin : c.inDict = true → p + minMatch + k ≤ hist.length)
    (hi : i + k + mfLimit ≤ e.inputSize) (hip : ip = e.source + i) :
    ∃ code, matchCode e ip c = some code ∧ k ≤ code ∧ i + (code + minMatch) + lastLiterals ≤ e.inputSize
      ∧ Agree (e.win hist) p (hist.length + i) (minMatch + code) := by
  have h4 : minMatch = 4 := rfl
  have hmf : mfLimit = 12 := rfl
  have h5 : lastLiterals = 5 := rfl
  have hlt := hagree.lt
  have hlole := e.lo_le hist
  have hcur := hwf.view_cur
  have hlen := e.length_win hist
  have hsrc := hwf.length_src
  have hshift : e.shift hist = (e.source : ℤ) - hist.length := rfl
  obtain ⟨hfour, hknown⟩ := hagree.split
  have hlimit : e.matchlimit = e.source + (e.inputSize : ℤ) - 5 := by
    rw [CompEnv.matchlimit, CompEnv.iend, hsrc, h5]
    omega
  rw [matchCode]
  by_cases hext : e.maybeExtMem = true ∧ c.inDict = true
  · -- a match in the dictionary, which may go on at the start of the source
    obtain ⟨hext', hpos, -, -⟩ := hpoints.inDict hext.2
    have hdict := hwf.view_dict hext'
    have hdlen : e.dictionary.length = hist.length := by rw [hwf.ext hext']
    have hk := hin hext.2
    have hlo := CompEnv.lo_of_ext hist hext'
    set len := min (hist.length - p) (e.inputSize - 5 - i) with hlen'
    have hmin : min (ip + (e.dictionary.length - c.pos)) e.matchlimit = e.source + ((i + len : ℕ) : ℤ) := by
      rw [hlimit, hdlen, hpos, hip]
      omega
    have hcount : count e.dictionary e.cur (ip + minMatch) (c.pos + minMatch)
        (e.source + ((i + len : ℕ) : ℤ))
        = some (repeats (e.win hist) (p + 4) (hist.length + i + 4) (len - 4)) :=
      count_spec hdict hcur (Nat.zero_le _) (by omega) (by omega) (by omega) (by omega) (by omega)
        (by omega) (by omega) (by omega)
    set code := repeats (e.win hist) (p + 4) (hist.length + i + 4) (len - 4) with hcode
    have hcodele : code ≤ len - 4 := repeats_le _ _ _ _
    have hkle : k ≤ code := le_repeats (by omega) (by omega) (by rw [h4] at hknown; exact hknown)
    have hall : Agree (e.win hist) p (hist.length + i) (minMatch + code) := by
      refine hfour.append ?_ (by omega)
      rw [h4]
      exact take_repeats _ _ _ _
    rw [if_pos hext]
    simp only [hmin, hcount, Option.bind_eq_bind, Option.bind_some]
    by_cases hfull : code = len - 4
    · have hmore : count e.cur e.cur (e.source + ((i + len : ℕ) : ℤ)) e.source e.matchlimit
          = some (repeats (e.win hist) hist.length (hist.length + i + len) (e.inputSize - 5 - i - len)) :=
        count_spec hcur hcur (by omega) (by omega) (by omega) (le_refl _) (by omega) (by omega)
          (by omega) (by omega) (by omega)
      rw [if_pos (by omega), hmore, Option.bind_some]
      set more := repeats (e.win hist) hist.length (hist.length + i + len) (e.inputSize - 5 - i - len)
        with hmoredef
      have hmorele : more ≤ e.inputSize - 5 - i - len := repeats_le _ _ _ _
      refine ⟨code + more, rfl, by omega, by omega, ?_⟩
      rw [← Nat.add_assoc]
      refine hall.append ?_ (by omega)
      by_cases hclip : len = hist.length - p
      · -- the whole rest of the dictionary agrees
        rw [show p + (minMatch + code) = hist.length by omega,
          show hist.length + i + (minMatch + code) = hist.length + i + len by omega]
        exact take_repeats _ _ _ _
      · have hzero : more = 0 := by omega
        rw [hzero, List.take_zero, List.take_zero]
    · rw [if_neg (by omega)]
      exact ⟨code, rfl, hkle, by omega, hall⟩
  · obtain ⟨hpos, -, hle⟩ := hpoints.own (hpoints.inDict_eq_false hext)
    have hcount : count e.cur e.cur (ip + minMatch) (c.pos + minMatch) e.matchlimit
        = some (repeats (e.win hist) (p + 4) (hist.length + i + 4) (e.inputSize - 5 - i - 4)) :=
      count_spec hcur hcur (by omega) (by omega) (by omega) (le_refl _) (by omega) (by omega)
        (by omega) (by omega) (by omega)
    set code := repeats (e.win hist) (p + 4) (hist.length + i + 4) (e.inputSize - 5 - i - 4) with hcode
    have hcodele : code ≤ e.inputSize - 5 - i - 4 := repeats_le _ _ _ _
    have hkle : k ≤ code := le_repeats (by omega) (by omega) (by rw [h4] at hknown; exact hknown)
    rw [if_neg hext, hcount]
    refine ⟨code, rfl, hkle, by omega, hfour.append ?_ (by omega)⟩
    rw [h4]
    exact take_repeats _ _ _ _

end Plz4.Lz4
