/-
What a caller does with a Writer (`plz4_writer.go`), and what the frame it asks for
consists of.

`WCall` is any call; `Feed` is a call of a caller that only feeds the writer, where
a reader given to `ReadFrom` ends in `io.EOF`. `segments` are the bytes fed between
consecutive flushes and `pieces` the blocks they are cut into.
-/
import Plz4.BlkSpec
import Plz4.Lib.Cut

set_option autoImplicit false

namespace Plz4

open Cut Xxh32

/-- A call on a Writer. -/
inductive WCall
  | write (src : Bytes)
  | readFrom (r : Rd)
  | flush
  | close

/-- What a call returned. -/
structure CallRes where
  n : ℕ
  err : Option Err
  deriving DecidableEq, Repr

/-- A reader that ends in `io.EOF`, in any chunking. -/
structure EofRd where
  rd : Rd
  eof : rd.err = .eof

/-- A call that feeds the writer. -/
inductive Feed
  | write (src : Bytes)
  | readFrom (r : EofRd)
  | flush

namespace Feed

/-- The call on the Writer. -/
def call : Feed → WCall
  | .write src => .write src
  | .readFrom r => .readFrom r.rd
  | .flush => .flush

/-- The bytes the call adds to the content. -/
def bytes : Feed → Bytes
  | .write src => src
  | .readFrom r => r.rd.data
  | .flush => []

/-- The calls of a whole life of a Writer. -/
def script (fs : List Feed) : List WCall := fs.map call ++ [.close]

end Feed

/-- The content fed by the calls. -/
def content (fs : List Feed) : Bytes := fs.flatMap Feed.bytes

/-- The bytes fed since the last flush, added to `seg`, flush by flush. -/
def segmentsFrom (seg : Bytes) : List Feed → List Bytes
  | [] => [seg]
  | .flush :: fs => seg :: segmentsFrom [] fs
  | .write src :: fs => segmentsFrom (seg ++ src) fs
  | .readFrom r :: fs => segmentsFrom (seg ++ r.rd.data) fs

/-- The byte sequences between consecutive flushes. -/
def segments (fs : List Feed) : List Bytes := segmentsFrom [] fs

/-- The blocks: every segment cut into pieces of `bsz` bytes and a shorter rest. -/
def pieces (bsz : ℕ) (fs : List Feed) : List Bytes := (segments fs).flatMap (cut bsz)

theorem flatten_segmentsFrom (seg : Bytes) (fs : List Feed) :
    (segmentsFrom seg fs).flatten = seg ++ content fs := by
  induction fs generalizing seg with
  | nil => simp [segmentsFrom, content]
  | cons f fs ih =>
      cases f with
      | write src =>
          rw [segmentsFrom, ih, content, content, List.flatMap_cons, Feed.bytes, List.append_assoc]
      | readFrom r =>
          rw [segmentsFrom, ih, content, content, List.flatMap_cons, Feed.bytes, List.append_assoc]
      | flush =>
          rw [segmentsFrom, List.flatten_cons, ih, content, content, List.flatMap_cons, Feed.bytes,
            List.nil_append]

/-- The blocks joined are the content. -/
theorem flatten_pieces {bsz : ℕ} (h : 0 < bsz) (fs : List Feed) :
    (pieces bsz fs).flatten = content fs := by
  rw [pieces, flatten_flatMap_cut h, segments, flatten_segmentsFrom, List.nil_append]

/-- Every block has between one and `bsz` bytes. -/
theorem mem_pieces {bsz : ℕ} (h : 0 < bsz) {fs : List Feed} {p : Bytes} (hp : p ∈ pieces bsz fs) :
    p ≠ [] ∧ p.length ≤ bsz := by
  obtain ⟨s, -, hs⟩ := List.mem_flatMap.mp hp
  exact mem_cut h hs

/-! ## What the calls have taken -/

/-- The bytes a call took, by the count it returned. -/
def takenOf : WCall → CallRes → Bytes
  | .write src, r => src.take r.n
  | .readFrom rd, r => rd.data.take r.n
  | .flush, _ | .close, _ => []

/-- The bytes the calls took that have returned. -/
def taken (script : List WCall) (rs : List CallRes) : Bytes :=
  (List.zipWith takenOf script rs).flatten

/-- One more call has returned. -/
theorem taken_concat {script rest : List WCall} {rs : List CallRes} {call : WCall}
    (h : script.drop rs.length = call :: rest) (r : CallRes) :
    taken script (rs ++ [r]) = taken script rs ++ takenOf call r := by
  unfold taken
  induction rs generalizing script with
  | nil =>
      rw [List.length_nil, List.drop_zero] at h
      rw [h]
      simp
  | cons r' rs ih =>
      rcases script with _ | ⟨call', script⟩
      · cases h
      · rw [List.length_cons, List.drop_succ_cons] at h
        rw [List.cons_append, List.zipWith_cons_cons, List.flatten_cons, ih h,
          List.zipWith_cons_cons, List.flatten_cons, List.append_assoc]

theorem takenOf_zero (call : WCall) (e : Option Err) : takenOf call ⟨0, e⟩ = [] := by
  cases call <;> rfl

/-! ## The encoded blocks -/

variable {Z : Clz4}

/-- The bytes of a made block. -/
def made (ret : Except Err Bytes) : Bytes :=
  match ret with
  | .ok b => b
  | .error _ => []

/-- One compressor makes the blocks of `ps` in order: their bytes, and the compressor
afterwards. -/
def encodeFrom (cmp : Compressor Z) (bsz : ℕ) (checksum : Bool) :
    List Bytes → List Bytes × Compressor Z
  | [] => ([], cmp)
  | p :: ps =>
      let (ret, cmp) := compressToBlk p cmp bsz checksum none
      let (es, cmp) := encodeFrom cmp bsz checksum ps
      (made ret :: es, cmp)

theorem length_encodeFrom (cmp : Compressor Z) (bsz : ℕ) (checksum : Bool) (ps : List Bytes) :
    (encodeFrom cmp bsz checksum ps).1.length = ps.length := by
  induction ps generalizing cmp with
  | nil => rfl
  | cons p ps ih => simp only [encodeFrom, List.length_cons, ih]

theorem encodeFrom_concat (cmp : Compressor Z) (bsz : ℕ) (checksum : Bool) (ps : List Bytes)
    (p : Bytes) :
    encodeFrom cmp bsz checksum (ps ++ [p])
      = ((encodeFrom cmp bsz checksum ps).1
          ++ [made (compressToBlk p (encodeFrom cmp bsz checksum ps).2 bsz checksum none).1],
        (compressToBlk p (encodeFrom cmp bsz checksum ps).2 bsz checksum none).2) := by
  induction ps generalizing cmp with
  | nil => rfl
  | cons q ps ih => simp only [List.cons_append, encodeFrom, ih]

theorem reach_encodeFrom {f : CompressorFactory Z} {cmp : Compressor Z} (h : f.Reach cmp)
    (bsz : ℕ) (checksum : Bool) (ps : List Bytes) :
    f.Reach (encodeFrom cmp bsz checksum ps).2 := by
  induction ps generalizing cmp with
  | nil => exact h
  | cons p ps ih =>
      refine @ih (compressToBlk p cmp bsz checksum none).2 ?_
      rw [compressToBlk_cmp]
      exact h.compress p bsz none

/-- The blocks a writer's first compressor makes. -/
def encoded (Z : Clz4) (o : OptsT) (ps : List Bytes) : List Bytes × Compressor Z :=
  encodeFrom (o.newCompressorFactory Z).newCompressor o.bsz o.blockChecksum ps

theorem length_encoded (Z : Clz4) (o : OptsT) (ps : List Bytes) :
    (encoded Z o ps).1.length = ps.length := length_encodeFrom _ _ _ ps

/-- The compressor of a writer of independent blocks tags its failures, whatever it
has compressed. -/
theorem tags_encoded (Z : Clz4) {o : OptsT} (h : o.blockLinked = false) (ps : List Bytes) :
    (encoded Z o ps).2.Tags := by
  refine CompressorFactory.Reach.tags ?_
    (reach_encodeFrom (f := o.newCompressorFactory Z) .new o.bsz o.blockChecksum ps)
  rw [OptsT.newCompressorFactory_indie, h, Bool.not_false]

/-! ## The trailer and the positions of the blocks -/

/-- The hash a writer with the content checksum on has when the blocks are through. -/
def contentHash (o : OptsT) (ps : List Bytes) : Option UInt32 :=
  if o.contentChecksum then some (hashAll ps).sum32 else none

/-- For content below 2^64 bytes it is the xxh32 of the content. -/
theorem contentHash_eq {o : OptsT} {ps : List Bytes} (h : ps.flatten.length < 2 ^ 64) :
    contentHash o ps = if o.contentChecksum then some (checksumZero ps.flatten) else none := by
  rw [contentHash, sum32_hashAll ps h]

/-- The pairs of source and destination offsets before each of the blocks `ps` (whose
encodings are `es`) and after the last. -/
def marks (s d : ℕ) : List Bytes → List Bytes → List (ℕ × ℕ)
  | p :: ps, e :: es => (s, d) :: marks (s + p.length) (d + e.length) ps es
  | _, _ => [(s, d)]

/-- The `i`-th pair: the source bytes before block `i` and the output bytes before its
size word. -/
theorem getElem?_marks (s d : ℕ) {ps es : List Bytes} (hlen : ps.length = es.length) {i : ℕ}
    (hi : i ≤ ps.length) :
    (marks s d ps es)[i]? = some (s + (ps.take i).flatten.length, d + (es.take i).flatten.length)
    := by
  induction ps generalizing s d es i with
  | nil =>
      obtain rfl : i = 0 := by simpa using hi
      simp [marks]
  | cons p ps ih =>
      obtain ⟨e, es, rfl⟩ : ∃ e es', es = e :: es' := by
        cases es with
        | nil => simp at hlen
        | cons e es => exact ⟨e, es, rfl⟩
      simp only [List.length_cons, Nat.add_right_cancel_iff] at hlen
      cases i with
      | zero => simp [marks]
      | succ i =>
          simp only [List.length_cons, Nat.add_le_add_iff_right] at hi
          rw [marks, List.getElem?_cons_succ, ih _ _ hlen hi]
          simp only [List.take_succ_cons, List.flatten_cons, List.length_append, Nat.add_assoc]

theorem length_marks (s d : ℕ) {ps es : List Bytes} (hlen : ps.length = es.length) :
    (marks s d ps es).length = ps.length + 1 := by
  induction ps generalizing s d es with
  | nil => simp [marks]
  | cons p ps ih =>
      obtain ⟨e, es, rfl⟩ : ∃ e es', es = e :: es' := by
        cases es with
        | nil => simp at hlen
        | cons e es => exact ⟨e, es, rfl⟩
      simp only [List.length_cons, Nat.add_right_cancel_iff] at hlen
      rw [marks, List.length_cons, ih _ _ hlen, List.length_cons]

/-- One block more. -/
theorem marks_concat (s d : ℕ) {ps es : List Bytes} (hlen : ps.length = es.length) (p e : Bytes) :
    marks s d (ps ++ [p]) (es ++ [e])
      = marks s d ps es
        ++ [(s + (ps ++ [p]).flatten.length, d + (es ++ [e]).flatten.length)] := by
  induction ps generalizing s d es with
  | nil =>
      obtain rfl : es = [] := List.length_eq_zero_iff.mp hlen.symm
      simp [marks]
  | cons q ps ih =>
      obtain ⟨f, es, rfl⟩ : ∃ e es', es = e :: es' := by
        cases es with
        | nil => simp at hlen
        | cons e es => exact ⟨e, es, rfl⟩
      simp only [List.length_cons, Nat.add_right_cancel_iff] at hlen
      simp only [List.cons_append, marks, ih _ _ hlen, List.flatten_cons, List.length_append,
        Nat.add_assoc]

end Plz4
