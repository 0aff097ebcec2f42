/-
What a session consists of: the blocks the source is parsed into, and what the
decompressor makes of them in order.

`parseFrames` and `decodeAll` say what the readers are for; they know nothing of
hashing one block late, of workers or of channels. `syncSession_same` connects the
synchronous reader to them.
-/
import Plz4.SyncReader

set_option autoImplicit false

namespace Plz4

open Xxh32

/-! ## Parsing -/

/-- The blocks parsed up to the first error, that error, and what is left. -/
structure Parsed where
  frames : List FrameT
  err : Err
  fr : FrameReader
  rest : Bytes

/-- Parsing in at most `k + 1` reads. -/
def parseAux (fr : FrameReader) : ℕ → Bytes → Parsed
  | 0, src => ⟨[], .unexpectedEOF, fr, src⟩
  | k + 1, src =>
      match fr.read src with
      | ((.ok frame, _), src) =>
          { parseAux fr k src with frames := frame :: (parseAux fr k src).frames }
      | ((.error e, fr), src) => ⟨[], e, fr, src⟩

/-- Parsing the whole source. -/
def parseFrames (fr : FrameReader) (src : Bytes) : Parsed := parseAux fr (src.length + 1) src

/-- A block leaves the reader as it was. -/
theorem FrameReader.read_ok_fr {fr fr' : FrameReader} {src rest : Bytes} {frame : FrameT}
    (h : fr.read src = ((.ok frame, fr'), rest)) : fr' = fr := by
  have hdata : ∀ word src, (fr.readData word src).1.err = none →
      (fr.readData word src).1.fr = fr := by
    intro word src herr
    by_cases heof : (⟨LittleEndian.getU32 word⟩ : DataBlockSize).eof = true
    · simp only [readData, heof, if_true, reduceCtorEq] at herr
    · simp only [readData, heof, Bool.false_eq_true, if_false]
      split_ifs
      · rfl
      · split
        · rfl
        · split <;> rfl
      · split <;> rfl
  rw [read_eq] at h
  rcases he : (fr._read src).1.err with _ | e
  · simp only [he, Prod.mk.injEq] at h
    rw [← h.1.2]
    rcases hr : readFull src 4 with ⟨⟨word, _ | e⟩, src'⟩
    · simp only [_read, hr] at he ⊢
      exact hdata _ _ he
    · simp only [_read, hr, reduceCtorEq] at he
  · simp only [he, Prod.mk.injEq, reduceCtorEq, false_and] at h

/-- A block takes at least four bytes. -/
theorem FrameReader.read_ok_length {fr fr' : FrameReader} {src rest : Bytes} {frame : FrameT}
    (h : fr.read src = ((.ok frame, fr'), rest)) : rest.length + 4 ≤ src.length := by
  have hok : ReadOk (fr.read src).1 := .inl ⟨frame, by rw [h]⟩
  obtain ⟨q, hq⟩ := read_ok hok
  have hsplit := congrArg List.length hq.split
  have hlen := hq.length
  rw [h, List.length_append] at hsplit
  simp only at hsplit
  omega

/-- The bound on the reads does not matter once it covers the source. -/
theorem parseAux_congr (fr : FrameReader) (k m : ℕ) (src : Bytes) (hk : src.length < k)
    (hm : src.length < m) : parseAux fr k src = parseAux fr m src := by
  induction k generalizing m src with
  | zero => omega
  | succ k ih =>
      obtain ⟨m, rfl⟩ : ∃ m', m = m' + 1 := ⟨m - 1, by omega⟩
      rcases hr : fr.read src with ⟨⟨e | frame, fr'⟩, rest⟩
      · simp only [parseAux, hr]
      · have hlen := FrameReader.read_ok_length hr
        simp only [parseAux, hr, ih m rest (by omega) (by omega)]

/-- A block, then the rest. -/
theorem parseFrames_ok {fr fr' : FrameReader} {src rest : Bytes} {frame : FrameT}
    (h : fr.read src = ((.ok frame, fr'), rest)) :
    parseFrames fr src
      = { parseFrames fr rest with frames := frame :: (parseFrames fr rest).frames } := by
  have hlen := FrameReader.read_ok_length h
  rw [parseFrames, parseAux, h]
  simp only
  rw [parseAux_congr fr src.length (rest.length + 1) rest (by omega) (by omega), ← parseFrames]

theorem parseFrames_error {fr fr' : FrameReader} {src rest : Bytes} {e : Err}
    (h : fr.read src = ((.error e, fr'), rest)) :
    parseFrames fr src = ⟨[], e, fr', rest⟩ := by
  simp only [parseFrames, parseAux, h]

/-- The blocks of a parse lie in the source. -/
theorem length_parseFrames (fr : FrameReader) (src : Bytes) :
    4 * (parseFrames fr src).frames.length ≤ src.length := by
  have haux : ∀ k src, 4 * (parseAux fr k src).frames.length ≤ src.length := by
    intro k
    induction k with
    | zero => exact fun src => Nat.zero_le _
    | succ k ih =>
        intro src
        rcases hr : fr.read src with ⟨⟨e | frame, fr'⟩, rest⟩
        · simp only [parseAux, hr, List.length_nil, mul_zero, Nat.zero_le]
        · have hlen := FrameReader.read_ok_length hr
          have hrest := ih rest
          simp only [parseAux, hr, List.length_cons]
          omega
  exact haux _ _

/-! ## Decoding -/

/-- What one frame decodes to, and the decompressor afterwards. -/
def decodeFrame (Z : Clz4) (bsz : ℕ) (dc : Decompressor) (f : FrameT) :
    Except Err Bytes × Decompressor :=
  if f.uncompressed then (.ok f.blk, dc) else blkDecompress Z dc bsz f.blk

/-- What the frames decode to in order, each with its source size. -/
def decodeAll (Z : Clz4) (bsz : ℕ) : Decompressor → List FrameT → List (Except Err Bytes × ℕ)
  | _, [] => []
  | dc, f :: fs =>
      ((decodeFrame Z bsz dc f).1, f.readCnt) :: decodeAll Z bsz (decodeFrame Z bsz dc f).2 fs

/-- The session made of the decoded frames up to the first failure, or to the end of
the parse with the content hash checked. -/
def sessionOf (hasher : Option XXHZero) (p : Parsed) : List (Except Err Bytes × ℕ) → Session
  | [] => ⟨[], 0, checkSum hasher p.fr.srcSum p.err, p.rest⟩
  | (.ok b, n) :: ds => (sessionOf (hasher.map (fun h : XXHZero => h.write b)) p ds).cons (b, n)
  | (.error e, n) :: _ => ⟨[], n, e, p.rest⟩

/-- The session a reader of the header and the options is to have. -/
def frameSession (Z : Clz4) (hdr : HeaderT) (o : OptsT) (src : Bytes) : Session :=
  let p := parseFrames (readerFrame hdr) src
  sessionOf (if useHasher hdr o then some .zero else none) p
    (decodeAll Z (readerFrame hdr).bsz (readerDc hdr o) p.frames)

theorem sessionOf_congr {hasher : Option XXHZero} {p p' : Parsed} (herr : p.err = p'.err)
    (hfr : p.fr = p'.fr) (hrest : p.rest = p'.rest) (ds : List (Except Err Bytes × ℕ)) :
    sessionOf hasher p ds = sessionOf hasher p' ds := by
  induction ds generalizing hasher with
  | nil => rw [sessionOf, sessionOf, herr, hfr, hrest]
  | cons d ds ih =>
      obtain ⟨e | b, n⟩ := d
      · rw [sessionOf, sessionOf, hrest]
      · rw [sessionOf, sessionOf, ih]

/-- A failure to decompress is not the end mark. -/
theorem blkDecompress_error {Z : Clz4} {dc dc' : Decompressor} {bsz : ℕ} {data : Bytes} {e : Err}
    (h : blkDecompress Z dc bsz data = (.error e, dc')) :
    ∃ code, e = .join (.const .errCorrupted) (.join (.const .errDecompress) (.lz4Decompress code))
    := by
  rw [blkDecompress] at h
  cases hcode : dc.decode Z data (bsz + szOverhead) with
  | ok out =>
      rw [Decompressor.decompress_ok hcode] at h
      simp only [Prod.mk.injEq, reduceCtorEq, false_and] at h
  | error code =>
      rw [Decompressor.decompress_error hcode] at h
      simp only [Prod.mk.injEq, Except.error.injEq] at h
      exact ⟨code, h.1.symm⟩

/-- The reader's session from any point on is the parse and the decoding from there
on; the hasher is one block behind. -/
theorem SyncReader.session_same (Z : Clz4) (k : ℕ) (r : SyncReader) (prevBlk : Option Bytes) :
    (r.session Z k prevBlk).Same
      (sessionOf (hashPrev r.hasher prevBlk) (parseAux r.frameRdr k r.src)
        (decodeAll Z r.frameRdr.bsz r.dc (parseAux r.frameRdr k r.src).frames)) := by
  induction k generalizing r prevBlk with
  | zero =>
      rw [session, parseAux, decodeAll, sessionOf]
      exact ⟨rfl, rfl, rfl, fun _ => rfl⟩
  | succ k ih =>
      set hasher := hashPrev r.hasher prevBlk with hhasher
      rcases hr : r.frameRdr.read r.src with ⟨⟨e | frame, fr⟩, rest⟩
      · have hnext : r.nextBlock Z prevBlk = (⟨none, 0, some (checkSum hasher fr.srcSum e)⟩,
            { r with hasher := hasher, frameRdr := fr, src := rest }) := by
          simp only [nextBlock, ← hhasher, hr]
        -- the parse ends here, and the content hash is checked
        simp only [session, hnext, parseAux, hr, decodeAll, sessionOf, Option.getD_some]
        exact Session.Same.refl _
      · have hfr := FrameReader.read_ok_fr hr
        subst hfr
        have hsession : ∀ x ds, sessionOf x { parseAux r.frameRdr k rest with
            frames := frame :: (parseAux r.frameRdr k rest).frames } ds
              = sessionOf x (parseAux r.frameRdr k rest) ds := by
          intro x ds
          apply sessionOf_congr <;> rfl
        -- a block: it is hashed when the next one is asked for
        by_cases hunc : frame.uncompressed = true
        · have hnext : r.nextBlock Z prevBlk = (⟨some frame.blk, frame.readCnt, none⟩,
              { r with hasher := hasher, src := rest }) := by
            simp only [nextBlock, ← hhasher, hr, hunc, if_true]
          have hih := ih { r with hasher := hasher, src := rest } (some frame.blk)
          simp only [session, hnext, parseAux, hr, decodeAll, decodeFrame, hunc, if_true, sessionOf,
            hsession]
          exact hih.cons _
        · rcases hdec : blkDecompress Z r.dc r.frameRdr.bsz frame.blk with ⟨e | b, dc⟩
          · have hnext : r.nextBlock Z prevBlk = (⟨none, frame.readCnt, some e⟩,
                { r with hasher := hasher, src := rest, dc := dc }) := by
              simp only [nextBlock, ← hhasher, hr, if_neg hunc, hdec]
            obtain ⟨code, rfl⟩ := blkDecompress_error hdec
            simp only [session, hnext, parseAux, hr, decodeAll, decodeFrame, if_neg hunc, hdec,
              sessionOf, Option.getD_some]
            exact ⟨rfl, rfl, rfl, fun h => (by cases h)⟩
          · have hnext : r.nextBlock Z prevBlk = (⟨some b, frame.readCnt, none⟩,
                { r with hasher := hasher, src := rest, dc := dc }) := by
              simp only [nextBlock, ← hhasher, hr, if_neg hunc, hdec]
            have hih := ih { r with hasher := hasher, src := rest, dc := dc } (some b)
            simp only [session, hnext, parseAux, hr, decodeAll, decodeFrame, if_neg hunc, hdec,
              sessionOf, hsession]
            exact hih.cons _

/-- **The synchronous reader.** Its session is the parse of the source, decoded in
order. -/
theorem syncSession_same (Z : Clz4) (hdr : HeaderT) (o : OptsT) (src : Bytes) :
    (syncSession Z hdr o src).Same (frameSession Z hdr o src) :=
  SyncReader.session_same Z (src.length + 1) (newSyncReader src hdr o) none

/-! ## The sequence of results

A reader whose threads work ahead has its results from the same decoded frames; the
results are read off in order up to the first error. -/

/-- The decompressor before block `k`. -/
def dcAt (Z : Clz4) (bsz : ℕ) (dc : Decompressor) (fs : List FrameT) (k : ℕ) : Decompressor :=
  (fs.take k).foldl (fun dc f => (decodeFrame Z bsz dc f).2) dc

variable {Z : Clz4} {bsz : ℕ} {dc : Decompressor} {fs : List FrameT}

theorem dcAt_succ {k : ℕ} {f : FrameT} (h : fs[k]? = some f) :
    dcAt Z bsz dc fs (k + 1) = (decodeFrame Z bsz (dcAt Z bsz dc fs k) f).2 := by
  rw [dcAt, List.take_add_one, h, List.foldl_append]
  rfl

/-- A stored block leaves the decompressor alone. -/
theorem dcAt_succ_stored {k : ℕ} {f : FrameT} (h : fs[k]? = some f)
    (hunc : f.uncompressed = true) : dcAt Z bsz dc fs (k + 1) = dcAt Z bsz dc fs k := by
  rw [dcAt_succ h, decodeFrame, if_pos hunc]

/-- For independent blocks every block finds the decompressor as it was made. -/
theorem dcAt_of_not_linked (hdc : dc.linked = false) (k : ℕ) : dcAt Z bsz dc fs k = dc := by
  induction k with
  | zero => rfl
  | succ k ih =>
      rcases hf : fs[k]? with _ | f
      · rw [dcAt, List.take_add_one, hf, Option.toList_none, List.append_nil]
        exact ih
      · rw [dcAt_succ hf, ih, decodeFrame]
        split_ifs
        · rfl
        · exact Decompressor.decompress_of_not_linked hdc _ _

theorem length_decodeAll (Z : Clz4) (bsz : ℕ) (dc : Decompressor) (fs : List FrameT) :
    (decodeAll Z bsz dc fs).length = fs.length := by
  induction fs generalizing dc with
  | nil => rfl
  | cons f fs ih => rw [decodeAll, List.length_cons, List.length_cons, ih]

theorem getElem?_decodeAll (Z : Clz4) (bsz : ℕ) (dc : Decompressor) (fs : List FrameT) (k : ℕ) :
    (decodeAll Z bsz dc fs)[k]?
      = fs[k]?.map (fun f => ((decodeFrame Z bsz (dcAt Z bsz dc fs k) f).1, f.readCnt)) := by
  induction fs generalizing dc k with
  | nil => rfl
  | cons f fs ih =>
      cases k with
      | zero => rfl
      | succ k =>
          rw [decodeAll, List.getElem?_cons_succ, List.getElem?_cons_succ, ih]
          rfl

/-- Independent blocks decode the same from any of them on. -/
theorem decodeAll_drop (hdc : dc.linked = false) (k : ℕ) :
    decodeAll Z bsz dc (fs.drop k) = (decodeAll Z bsz dc fs).drop k := by
  apply List.ext_getElem?
  intro i
  rw [List.getElem?_drop, getElem?_decodeAll, getElem?_decodeAll, List.getElem?_drop,
    dcAt_of_not_linked hdc, dcAt_of_not_linked hdc]

/-- A failure to decode is a failure of the engine. -/
theorem decodeAll_error {Z : Clz4} {bsz : ℕ} {dc : Decompressor} {fs : List FrameT} {e : Err}
    {n : ℕ} (h : (Except.error e, n) ∈ decodeAll Z bsz dc fs) :
    ∃ code, e = .join (.const .errCorrupted) (.join (.const .errDecompress) (.lz4Decompress code))
    := by
  obtain ⟨k, hk⟩ := List.mem_iff_getElem?.mp h
  rw [getElem?_decodeAll, Option.map_eq_some_iff] at hk
  obtain ⟨f, -, hf⟩ := hk
  have herr := (Prod.mk.injEq _ _ _ _).mp hf |>.1
  rw [decodeFrame] at herr
  split_ifs at herr
  exact blkDecompress_error (Prod.ext herr rfl)

/-- It is never taken for the end mark. -/
theorem decodeAll_ne_endMark (Z : Clz4) (bsz : ℕ) (dc : Decompressor) (fs : List FrameT) (n : ℕ) :
    (Except.error (Err.const .endMark), n) ∉ decodeAll Z bsz dc fs := by
  intro hmem
  obtain ⟨code, hcode⟩ := decodeAll_error hmem
  cases hcode

/-- What `NextBlock` makes of a decoded frame. -/
def decodeRes : Except Err Bytes × ℕ → NextRes
  | (.ok b, n) => ⟨some b, n, none⟩
  | (.error e, n) => ⟨none, n, some e⟩

/-- All results there are to deliver, the content hash not yet checked: one for each
frame, then the error that ended the parse. -/
def expected (p : Parsed) (ds : List (Except Err Bytes × ℕ)) : List NextRes :=
  ds.map decodeRes ++ [⟨none, 0, some p.err⟩]

variable {p : Parsed} {ds : List (Except Err Bytes × ℕ)}

theorem length_expected : (expected p ds).length = ds.length + 1 := by
  rw [expected, List.length_append, List.length_map, List.length_singleton]

/-- A result with an error has no block. -/
theorem expected_blk {r : NextRes} {e : Err} (h : r ∈ expected p ds) (he : r.err = some e) :
    r.blk = none := by
  rw [expected, List.mem_append, List.mem_map, List.mem_singleton] at h
  rcases h with ⟨⟨e' | b, n⟩, -, rfl⟩ | rfl
  · rfl
  · cases he
  · rfl

/-- The end mark comes last. -/
theorem expected_endMark {k : ℕ} {r : NextRes} (hds : ∀ n, (.error (.const .endMark), n) ∉ ds)
    (h : (expected p ds)[k]? = some r) (he : r.err = some (.const .endMark)) :
    k = ds.length := by
  have hlt := (List.getElem?_eq_some_iff.mp h).1
  rw [length_expected] at hlt
  by_contra hne
  rw [expected, List.getElem?_append_left (by rw [List.length_map]; omega), List.getElem?_map,
    Option.map_eq_some_iff] at h
  obtain ⟨⟨e' | b, n⟩, hd, rfl⟩ := h
  · rw [decodeRes, Option.some.injEq] at he
    exact hds n (he ▸ List.mem_of_getElem? hd)
  · cases he

/-- The hasher after some results. -/
def hashRes (hasher : Option XXHZero) (rs : List NextRes) : Option XXHZero :=
  hasher.map (fun h => (rs.filterMap NextRes.blk).foldl XXHZero.write h)

theorem sessionOf_rest (hasher : Option XXHZero) (p : Parsed)
    (ds : List (Except Err Bytes × ℕ)) : (sessionOf hasher p ds).rest = p.rest := by
  induction ds generalizing hasher with
  | nil => rfl
  | cons d ds ih =>
      obtain ⟨e | b, n⟩ := d
      · rfl
      · exact ih _

/-- The session starts with the expected results as long as they have no error. -/
theorem sessionOf_prefix (hasher : Option XXHZero) (k : ℕ)
    (hclean : ∀ r ∈ (expected p ds).take k, r.err = none) :
    (expected p ds).take k <+: (sessionOf hasher p ds).results := by
  induction ds generalizing hasher k with
  | nil =>
      cases k with
      | zero => exact List.nil_prefix
      | succ k => cases hclean _ List.mem_cons_self
  | cons d ds ih =>
      cases k with
      | zero => exact List.nil_prefix
      | succ k =>
          obtain ⟨e | b, n⟩ := d
          · cases hclean _ List.mem_cons_self
          · have hk := ih (hasher.map (fun h : XXHZero => h.write b)) k
              (fun r hr => hclean r (List.mem_cons_of_mem _ hr))
            exact List.prefix_cons_inj _ |>.mpr hk

/-- The first error ends the session, after the check of the content hash. -/
theorem sessionOf_results (hds : ∀ n, (.error (.const .endMark), n) ∉ ds)
    (hasher : Option XXHZero) {k : ℕ} {r : NextRes} {e : Err}
    (hclean : ∀ r ∈ (expected p ds).take k, r.err = none)
    (hk : (expected p ds)[k]? = some r) (he : r.err = some e) :
    (sessionOf hasher p ds).results = (expected p ds).take k
      ++ [⟨r.blk, r.nRead,
        some (checkSum (hashRes hasher ((expected p ds).take k)) p.fr.srcSum e)⟩] := by
  induction ds generalizing hasher k with
  | nil =>
      cases k with
      | zero =>
          obtain rfl := Option.some.inj hk
          obtain rfl := Option.some.inj he
          cases hasher <;> rfl
      | succ k => cases hclean _ List.mem_cons_self
  | cons d ds ih =>
      obtain ⟨e' | b, n⟩ := d
      · cases k with
        | zero =>
            obtain rfl := Option.some.inj hk
            obtain rfl := Option.some.inj he
            -- no block decodes to the end mark, so this error is not checked for the hash
            have hne : e' ≠ .const .endMark := by
              rintro rfl
              exact hds n List.mem_cons_self
            have hsum : ∀ h sum, checkSum h sum e' = e' := fun h sum => if_neg hne
            rw [hsum]
            rfl
        | succ k => cases hclean _ List.mem_cons_self
      · cases k with
        | zero =>
            obtain rfl := Option.some.inj hk
            cases he
        | succ k =>
            -- the hash takes the block in before the blocks behind it
            have htail := ih (fun n hn => hds n (List.mem_cons_of_mem _ hn))
              (hasher.map (fun h : XXHZero => h.write b)) (k := k)
              (fun r hr => hclean r (List.mem_cons_of_mem _ hr)) hk
            have hhash : hashRes hasher ((expected p ((.ok b, n) :: ds)).take (k + 1))
                = hashRes (hasher.map (fun h : XXHZero => h.write b)) ((expected p ds).take k) := by
              rw [hashRes, hashRes, Option.map_map]
              rfl
            rw [hhash]
            exact congrArg (List.cons _) htail

end Plz4
