/-
The `io` layer: sources, destinations and `io.ReadFull`.

A source is read in two ways in this development. Where the program takes bytes
from a caller's `io.Reader` chunk by chunk (`ReadFrom`), the source is an `Rd`:
the bytes it will deliver, how much of them each `Read` hands out, and the error
it repeats afterwards. `Rd.readFull_spec` says that how the bytes are cut does
not show through `io.ReadFull`. Where the program parses a stream, the source is
the unread byte list, and `readFull` is the same function on it.

A destination is the list of `Write` calls made so far with what each returned;
which calls fail is a plan indexed by the call number.
-/
import Plz4.Zerr
import Plz4.Lib.Reads

set_option autoImplicit false

namespace Plz4

/-- A byte slice. -/
abbrev Bytes := List UInt8

/-! ## Sources delivered in chunks -/

/-- An `io.Reader`: the bytes still to come, the most each of the next `Read`
calls hands out (all that is asked for once the list is used up), whether the
final error comes with the last bytes or with the call after, and that error. -/
structure Rd where
  data : Bytes
  sizes : List ℕ
  eager : Bool
  err : Err
  deriving DecidableEq, Repr

/-- One `Read` into a buffer of `m` bytes. -/
def Rd.read (r : Rd) (m : ℕ) : Bytes × Option Err × Rd :=
  if r.data = [] then ([], some r.err, { r with sizes := r.sizes.tail })
  else
    let k := min m (r.sizes.headD m)
    let rest := r.data.drop k
    (r.data.take k, if rest = [] ∧ r.eager then some r.err else none,
      { r with data := rest, sizes := r.sizes.tail })

/-- The loop of `io.ReadAtLeast`: read until `m` bytes are there or an error
comes. The first argument bounds the number of passes. -/
def Rd.readLoop : ℕ → Rd → ℕ → Bytes → Bytes × Option Err × Rd
  | 0, r, _, acc => (acc, none, r)
  | k + 1, r, m, acc =>
      if m ≤ acc.length then (acc, none, r)
      else
        let (d, e, r') := r.read (m - acc.length)
        match e with
        | none => Rd.readLoop k r' m (acc ++ d)
        | some e => (acc ++ d, some e, r')

/-- `io.ReadFull` into a buffer of `m` bytes. -/
def Rd.readFull (r : Rd) (m : ℕ) : Bytes × Option Err × Rd :=
  let (acc, e, r') := r.readLoop (r.sizes.length + 3) m []
  if m ≤ acc.length then (acc, none, r')
  else if acc ≠ [] ∧ e = some .eof then (acc, some .unexpectedEOF, r')
  else (acc, e, r')

/-- What `io.ReadFull` of `m` bytes reports on a source: nothing when the bytes
are there, the source's error when none is, and its error with `io.EOF` turned
into `io.ErrUnexpectedEOF` when only some are. -/
def Rd.fullErr (r : Rd) (m : ℕ) : Option Err :=
  if m ≤ r.data.length then none
  else if r.data ≠ [] ∧ r.err = .eof then some .unexpectedEOF
  else some r.err

/-- The loop takes exactly the next bytes, whatever the chunking, and stops short
of `m` only with the source's error. The induction is on the number of passes:
a pass uses up a chunk size, and once the sizes are used up the next pass brings
all that is left and the one after it stops. -/
theorem Rd.readLoop_spec (k : ℕ) (r : Rd) (m : ℕ) (acc : Bytes)
    (hk : r.sizes.length + 3 ≤ k
      ∨ 1 ≤ k ∧ (r.data = [] ∨ m ≤ acc.length)) :
    ∃ e r', r.readLoop k m acc = (acc ++ r.data.take (m - acc.length), e, r')
      ∧ r'.data = r.data.drop (m - acc.length) ∧ r'.err = r.err ∧ r'.eager = r.eager
      ∧ (acc.length + r.data.length < m → e = some r.err) := by
  induction k generalizing r acc with
  | zero => omega
  | succ k ih =>
      by_cases hm : m ≤ acc.length
      · refine ⟨none, r, ?_, ?_, rfl, rfl, fun h => by omega⟩
        · simp [Rd.readLoop, hm]
        · simp [Nat.sub_eq_zero_of_le hm]
      by_cases hd : r.data = []
      · refine ⟨some r.err, { r with sizes := r.sizes.tail }, ?_, ?_, rfl, rfl, fun _ => rfl⟩
        · simp [Rd.readLoop, hm, Rd.read, hd]
        · simp [hd]
      have hk' : r.sizes.length + 3 ≤ k + 1 := by
        rcases hk with h | ⟨_, h | h⟩
        · exact h
        · exact absurd h hd
        · exact absurd h hm
      -- a pass that brings bytes: `c` of them
      set c := min (m - acc.length) (r.sizes.headD (m - acc.length)) with hc
      have hread : r.read (m - acc.length) = (r.data.take c,
          if r.data.drop c = [] ∧ r.eager then some r.err else none,
          { r with data := r.data.drop c, sizes := r.sizes.tail }) := by
        simp [Rd.read, hd, hc]
      have hcle : c ≤ m - acc.length := by omega
      rw [Rd.readLoop, if_neg hm, hread]
      by_cases hlast : r.data.drop c = [] ∧ r.eager
      · have hle : r.data.length ≤ c := List.drop_eq_nil_iff.mp hlast.1
        refine ⟨some r.err, { r with data := r.data.drop c, sizes := r.sizes.tail },
          ?_, ?_, rfl, rfl, fun _ => rfl⟩
        · simp only [if_pos hlast]
          rw [List.take_of_length_le hle, List.take_of_length_le (by omega)]
        · rw [List.drop_of_length_le hle, List.drop_of_length_le (by omega)]
      · simp only [if_neg hlast]
        have hfuel : r.sizes.tail.length + 3 ≤ k
            ∨ 1 ≤ k ∧ (r.data.drop c = [] ∨ m ≤ (acc ++ r.data.take c).length) := by
          rcases hs : r.sizes with _ | ⟨p, ps⟩
          · have hcm : c = m - acc.length := by simp [hc, hs]
            refine .inr ⟨by rw [hs] at hk'; simp at hk'; omega, ?_⟩
            rw [List.drop_eq_nil_iff, List.length_append, List.length_take]
            omega
          · rw [hs] at hk'
            simp only [List.length_cons, List.tail_cons] at hk' ⊢
            omega
        obtain ⟨e, r', hloop, hdata, herr, heag, hfail⟩ :=
          ih { r with data := r.data.drop c, sizes := r.sizes.tail } (acc ++ r.data.take c) hfuel
        have hsplit : m - acc.length = c + (m - acc.length - c) := by omega
        have htake : r.data.take c ++ (r.data.drop c).take (m - (acc ++ r.data.take c).length)
              = r.data.take (m - acc.length)
            ∧ (r.data.drop c).drop (m - (acc ++ r.data.take c).length)
              = r.data.drop (m - acc.length) := by
          rcases Nat.lt_or_ge r.data.length c with hlt | hge
          · simp [List.take_of_length_le (Nat.le_of_lt hlt),
              List.take_of_length_le (Nat.le_trans (Nat.le_of_lt hlt) hcle),
              List.drop_of_length_le (Nat.le_of_lt hlt),
              List.drop_of_length_le (Nat.le_trans (Nat.le_of_lt hlt) hcle)]
          · have hlen : m - (acc ++ r.data.take c).length = m - acc.length - c := by
              rw [List.length_append, List.length_take]
              omega
            rw [hlen, ← List.take_add, ← hsplit, List.drop_drop, ← hsplit]
            exact ⟨rfl, rfl⟩
        refine ⟨e, r', ?_, ?_, herr, heag, ?_⟩
        · rw [hloop, ← htake.1, List.append_assoc]
        · rw [hdata, htake.2]
        · intro hshort
          apply hfail
          simp only [List.length_append, List.length_take, List.length_drop]
          omega

/-- `io.ReadFull` takes the next `m` bytes of the source, or all that is left, and
reports `fullErr`; the chunking shows nowhere. -/
theorem Rd.readFull_spec (r : Rd) (m : ℕ) :
    ∃ r', r.readFull m = (r.data.take m, r.fullErr m, r')
      ∧ r'.data = r.data.drop m ∧ r'.err = r.err := by
  obtain ⟨e, r', hloop, hdata, herr, -, hfail⟩ :=
    Rd.readLoop_spec (r.sizes.length + 3) r m [] (.inl (Nat.le_refl _))
  simp only [List.length_nil, Nat.sub_zero, List.nil_append, Nat.zero_add] at hloop hdata hfail
  refine ⟨r', ?_, hdata, herr⟩
  simp only [Rd.readFull, hloop, List.length_take, Rd.fullErr]
  by_cases hm : m ≤ r.data.length
  · rw [if_pos (by omega), if_pos hm]
  · have htake : r.data.take m = r.data := List.take_of_length_le (by omega)
    rw [if_neg (by omega), if_neg hm, hfail (by omega), htake]
    simp only [Option.some.injEq]
    split_ifs <;> rfl

/-- A full read. -/
theorem Rd.readFull_none {r r' : Rd} {m : ℕ} {d : Bytes} (h : r.readFull m = (d, none, r')) :
    d = r.data.take m ∧ m ≤ r.data.length ∧ r'.data = r.data.drop m ∧ r'.err = r.err := by
  obtain ⟨r'', hspec, hdata, herr⟩ := Rd.readFull_spec r m
  rw [h, Prod.mk.injEq, Prod.mk.injEq] at hspec
  obtain ⟨hd, he, rfl⟩ := hspec
  refine ⟨hd, ?_, hdata, herr⟩
  by_contra hm
  rw [Rd.fullErr, if_neg hm] at he
  split_ifs at he

/-- A read that stops short takes all there is. -/
theorem Rd.readFull_some {r r' : Rd} {m : ℕ} {d : Bytes} {e : Err}
    (h : r.readFull m = (d, some e, r')) :
    d = r.data ∧ r.data.length < m ∧ r'.data = [] ∧ r'.err = r.err
      ∧ (r.data ≠ [] ∧ r.err = .eof ∧ e = .unexpectedEOF
        ∨ ¬ (r.data ≠ [] ∧ r.err = .eof) ∧ e = r.err) := by
  obtain ⟨r'', hspec, hdata, herr⟩ := Rd.readFull_spec r m
  rw [h, Prod.mk.injEq, Prod.mk.injEq] at hspec
  obtain ⟨hd, he, rfl⟩ := hspec
  have hm : ¬ m ≤ r.data.length := by
    intro hm
    rw [Rd.fullErr, if_pos hm] at he
    cases he
  rw [Rd.fullErr, if_neg hm] at he
  refine ⟨?_, by omega, ?_, herr, ?_⟩
  · rw [hd, List.take_of_length_le (by omega)]
  · rw [hdata, List.drop_of_length_le (by omega)]
  · split_ifs at he with hc
    · exact .inl ⟨hc.1, hc.2, Option.some.inj he⟩
    · exact .inr ⟨hc, Option.some.inj he⟩

/-! ## Sources as unread bytes -/

/-- `io.ReadFull` on a stream of which `src` is unread: the bytes read and the
error, and what is left. -/
def readFull (src : Bytes) (n : ℕ) : (Bytes × Option Err) × Bytes :=
  if n ≤ src.length then ((src.take n, none), src.drop n)
  else ((src, some (if src = [] then .eof else .unexpectedEOF)), [])

/-- `io.CopyN(io.Discard, src, n)`: the count and the error, and what is left. -/
def copyN (src : Bytes) (n : ℕ) : (ℕ × Option Err) × Bytes :=
  if n ≤ src.length then ((n, none), src.drop n) else ((src.length, some .eof), [])

/-- The byte-list `readFull` is `io.ReadFull` on every chunked delivery of a finite
stream that ends in `io.EOF`. -/
theorem readFull_eq_rd (r : Rd) (n : ℕ) (heof : r.err = .eof) :
    ∃ r', r.readFull n = ((readFull r.data n).1.1, (readFull r.data n).1.2, r')
      ∧ r'.data = (readFull r.data n).2 ∧ r'.err = .eof := by
  obtain ⟨r', hr, hdata, herr⟩ := Rd.readFull_spec r n
  refine ⟨r', ?_, ?_, by rw [herr, heof]⟩
  · rw [hr, Rd.fullErr, readFull]
    by_cases hn : n ≤ r.data.length
    · simp [hn]
    · rw [if_neg hn, if_neg hn, List.take_of_length_le (by omega)]
      by_cases hd : r.data = [] <;> simp [hd, heof]
  · rw [hdata, readFull]
    by_cases hn : n ≤ r.data.length
    · rw [if_pos hn]
    · rw [if_neg hn, List.drop_of_length_le (by omega)]

theorem readFull_of_le {src : Bytes} {n : ℕ} (h : n ≤ src.length) :
    readFull src n = ((src.take n, none), src.drop n) := by
  rw [readFull, if_pos h]

theorem readFull_of_gt {src : Bytes} {n : ℕ} (h : src.length < n) :
    readFull src n = ((src, some (if src = [] then .eof else .unexpectedEOF)), []) := by
  rw [readFull, if_neg (by omega)]

theorem readFull_append {n : ℕ} {xs : Bytes} (ys : Bytes) (h : xs.length = n) :
    readFull (xs ++ ys) n = ((xs, none), ys) := by
  rw [readFull_of_le (by rw [List.length_append]; omega), List.take_left' h, List.drop_left' h]

/-- The bytes read and the bytes left are the stream. -/
theorem readFull_split (src : Bytes) (n : ℕ) :
    (readFull src n).1.1 ++ (readFull src n).2 = src := by
  by_cases hn : n ≤ src.length
  · rw [readFull, if_pos hn]
    exact List.take_append_drop n src
  · rw [readFull, if_neg hn]
    exact List.append_nil src

/-- What a read reports that met the end of input. -/
def AtEnd (r : Bytes × Option Err) : Prop := r.2 = some .eof ∨ r.2 = some .unexpectedEOF

/-- A full read takes `n` bytes. -/
theorem readFull_exact {n : ℕ} {q : Bytes} (h : q.length = n) :
    Reads.Exact (fun s => readFull s n) AtEnd q (q, none) := by
  refine ⟨fun t => readFull_append t h, fun p hp hne => ?_⟩
  have hlt : p.length < n := by
    have hle := hp.length_le
    rcases Nat.lt_or_ge p.length n with hlt | hge
    · exact hlt
    · exact absurd (hp.eq_of_length (by omega)) hne
  simp only [readFull_of_gt hlt, AtEnd]
  by_cases hnil : p = [] <;> simp [hnil]

/-- A read without an error took `n` bytes off the front. -/
theorem readFull_ok {src : Bytes} {n : ℕ} (h : (readFull src n).1.2 = none) :
    readFull src n = ((src.take n, none), src.drop n) ∧ (src.take n).length = n
      ∧ src = src.take n ++ src.drop n := by
  have hle : n ≤ src.length := by
    by_contra hgt
    rw [readFull_of_gt (by omega)] at h
    cases h
  rw [List.length_take]
  exact ⟨readFull_of_le hle, by omega, (List.take_append_drop n src).symm⟩

/-- A read that does not fail is a full one. -/
theorem readFull_length {src b rest : Bytes} {n : ℕ} (h : readFull src n = ((b, none), rest)) :
    b.length = n := by
  have hnone : (readFull src n).1.2 = none := by rw [h]
  obtain ⟨hres, hlen, -⟩ := readFull_ok hnone
  rw [h, Prod.mk.injEq, Prod.mk.injEq] at hres
  rw [hres.1.1]
  exact hlen

/-- `io.CopyN` to nowhere takes `n` bytes. -/
theorem copyN_exact {n : ℕ} {q : Bytes} (h : q.length = n) :
    Reads.Exact (fun s => copyN s n) (fun r => r.2 = some .eof) q (n, none) := by
  refine ⟨fun t => ?_, fun p hp hne => ?_⟩
  · simp only [copyN]
    rw [if_pos (by rw [List.length_append]; omega), List.drop_left' h]
  · have hle := hp.length_le
    have hlt : ¬ n ≤ p.length := fun hge => hne (hp.eq_of_length (by omega))
    simp only [copyN, if_neg hlt]

/-! ## Destinations -/

/-- One call of `Write`: what was passed, how much was accepted and the error. -/
structure WrCall where
  arg : Bytes
  n : ℕ
  err : Option Err
  deriving DecidableEq, Repr

/-- How a destination answers its calls, by call number: `none` accepts everything,
`some (k, e)` accepts at most `k` bytes and fails with `e`. -/
abbrev WrPlan := ℕ → Option (ℕ × Err)

/-- The plan of a destination that never fails. -/
def WrPlan.ok : WrPlan := fun _ => none

/-- One `Write` on a destination with the given calls behind it. -/
def wrWrite (plan : WrPlan) (calls : List WrCall) (p : Bytes) :
    ℕ × Option Err × List WrCall :=
  match plan calls.length with
  | none => (p.length, none, calls ++ [⟨p, p.length, none⟩])
  | some (k, e) => (min k p.length, some e, calls ++ [⟨p, min k p.length, some e⟩])

/-- The bytes passed to `Write` over all calls. -/
def passed (calls : List WrCall) : Bytes := calls.flatMap (fun c => c.arg)

/-- The bytes the destination accepted over all calls. -/
def accepted (calls : List WrCall) : Bytes := calls.flatMap (fun c => c.arg.take c.n)

@[simp] theorem passed_nil : passed [] = [] := rfl

@[simp] theorem passed_append (xs ys : List WrCall) : passed (xs ++ ys) = passed xs ++ passed ys :=
  List.flatMap_append

@[simp] theorem wrWrite_ok (calls : List WrCall) (p : Bytes) :
    wrWrite .ok calls p = (p.length, none, calls ++ [⟨p, p.length, none⟩]) := rfl

end Plz4
