/-
The size of decoded blocks. A stored block is checked against the block size of the header;
a compressed one is decoded into a whole block of the pool, which has room for `szOverhead`
bytes more.
-/
import Plz4.BlkParse
import Plz4.Frames
import Plz4.ReaderSpec

set_option autoImplicit false

namespace Plz4

variable {Z : Clz4}

/-! ## Stored blocks -/

/-- A block that was parsed has at most the bytes of the block size. -/
theorem length_of_mem_frames {fr : FrameReader} {src : Bytes} {f : FrameT}
    (h : f ∈ (parseFrames fr src).frames) : f.blk.length ≤ fr.bsz := by
  induction hn : src.length using Nat.strongRecOn generalizing src with
  | ind n ih =>
      rcases hr : fr.read src with ⟨⟨e | frame, fr'⟩, rest⟩
      · rw [parseFrames_error hr] at h
        cases h
      · have hlen := FrameReader.read_ok_length hr
        obtain ⟨b, hb, -, hframe, rfl⟩ := FrameReader.read_ok_raw hr
        rw [parseFrames_ok hr] at h
        rcases List.mem_cons.mp h with rfl | h
        · rw [hframe]
          exact hb.length_le
        · exact ih rest.length (by omega) h rfl

/-! ## The blocks of a session -/

/-- The blocks before `k` decode. -/
def DecodedUpTo (Z : Clz4) (bsz : ℕ) (dc : Decompressor) (fs : List FrameT) (k : ℕ) : Prop :=
  ∀ i < k, ∀ f, fs[i]? = some f → ∃ b, (decodeFrame Z bsz (dcAt Z bsz dc fs i) f).1 = .ok b

/-- A session has the blocks up to the first that does not decode. -/
theorem sessionOf_getElem? {hasher : Option Xxh32.XXHZero} {p : Parsed}
    {ds : List (Except Err Bytes × ℕ)} {k : ℕ} {b : Bytes × ℕ} :
    (sessionOf hasher p ds).blks[k]? = some b
      ↔ ds[k]? = some (.ok b.1, b.2) ∧ ∀ i < k, ∀ d, ds[i]? = some d → ∃ b, d.1 = .ok b := by
  induction ds generalizing hasher k with
  | nil =>
      rw [sessionOf]
      simp
  | cons d ds ih =>
      obtain ⟨e | b', n⟩ := d
      · constructor
        · intro h
          rw [sessionOf] at h
          cases h
        · rintro ⟨hk, hall⟩
          cases k with
          | zero => cases hk
          | succ k =>
              obtain ⟨b, hb⟩ := hall 0 (Nat.succ_pos k) _ rfl
              cases hb
      · cases k with
        | zero =>
            rw [sessionOf, Session.cons, List.getElem?_cons_zero, List.getElem?_cons_zero]
            constructor
            · rintro ⟨⟩
              exact ⟨rfl, (by rintro _ ⟨⟩)⟩
            · rintro ⟨⟨⟩, -⟩
              rfl
        | succ k =>
            rw [sessionOf, Session.cons, List.getElem?_cons_succ, List.getElem?_cons_succ, ih]
            apply and_congr_right
            intro _
            constructor
            · intro h i hi d hd
              cases i with
              | zero => exact ⟨b', by rw [← Option.some.inj hd]⟩
              | succ i => exact h i (by omega) d hd
            · intro h i hi d hd
              exact h (i + 1) (by omega) d hd

/-- The error that ends a session at a block which does not decode. -/
theorem sessionOf_error (hasher : Option Xxh32.XXHZero) {p : Parsed}
    {ds : List (Except Err Bytes × ℕ)} {k n : ℕ} {e : Err}
    (hk : ds[k]? = some (.error e, n)) (h : ∀ i < k, ∀ d, ds[i]? = some d → ∃ b, d.1 = .ok b) :
    (sessionOf hasher p ds).blks.length = k ∧ (sessionOf hasher p ds).endErr = e := by
  induction ds generalizing hasher k with
  | nil => cases hk
  | cons d ds ih =>
      cases k with
      | zero =>
          obtain rfl := Option.some.inj hk
          exact ⟨rfl, rfl⟩
      | succ k =>
          obtain ⟨b, hb⟩ := h 0 (Nat.succ_pos k) d rfl
          obtain ⟨r, n'⟩ := d
          obtain rfl : r = .ok b := hb
          obtain ⟨hlen, herr⟩ := ih (hasher.map (fun h : Xxh32.XXHZero => h.write b)) hk
            (fun i hi d hd => h (i + 1) (by omega) d hd)
          exact ⟨congrArg (· + 1) hlen, herr⟩

/-! ## The limit -/

/-- The block size of the frame, its blocks, and the decompressor before block `k`. -/
def Opened.bsz (p : Opened) : ℕ := p.hdr.blockDesc.idx.size

def Opened.frames (p : Opened) : List FrameT := (parseFrames (readerFrame p.hdr) p.src).frames

def Opened.dcAt (Z : Clz4) (p : Opened) (k : ℕ) : Decompressor :=
  Plz4.dcAt Z p.bsz (readerDc p.hdr p.opts) p.frames k

/-- Block `k` of the frame is compressed, and the reader gets to it. -/
structure Opened.Reaches (Z : Clz4) (p : Opened) (k : ℕ) (f : FrameT) : Prop where
  get : p.frames[k]? = some f
  compressed : f.uncompressed = false
  before : DecodedUpTo Z p.bsz (readerDc p.hdr p.opts) p.frames k

/-- The engine makes more than `bsz` bytes of a block, if it is given the room. -/
def Overlong (Z : Clz4) (bsz : ℕ) (dc : Decompressor) (f : FrameT) : Prop :=
  ∃ out, dc.decode Z f.blk (bsz + szOverhead) = .ok out ∧ bsz < out.length

theorem decodeFrame_compressed (bsz : ℕ) (dc : Decompressor) {f : FrameT}
    (h : f.uncompressed = false) : (decodeFrame Z bsz dc f).1
      = (dc.decompress Z f.blk (bsz + szOverhead)).1 := by
  rw [decodeFrame, h, if_neg Bool.false_ne_true, blkDecompress]

/-- A block that was reached and decodes is delivered. -/
theorem Opened.Reaches.delivered {p : Opened} {k : ℕ} {f : FrameT} (h : p.Reaches Z k f)
    {out : Bytes} (hout : (p.dcAt Z k).decode Z f.blk (p.bsz + szOverhead) = .ok out) :
    (frameSession Z p.hdr p.opts p.src).blks[k]? = some (out, f.readCnt) := by
  rw [frameSession, sessionOf_getElem?, getElem?_decodeAll]
  refine ⟨?_, ?_⟩
  · have hdec := decodeFrame_compressed (Z := Z) p.bsz (p.dcAt Z k) h.compressed
    rw [Decompressor.decompress_ok hout] at hdec
    exact (congrArg (Option.map _) h.get).trans (congrArg (fun r => some (r, f.readCnt)) hdec)
  · intro i hi d hd
    rw [getElem?_decodeAll, Option.map_eq_some_iff] at hd
    obtain ⟨f', hf', rfl⟩ := hd
    exact h.before i hi f' hf'

/-- A block that was reached and does not decode ends the session. -/
theorem Opened.Reaches.rejected {p : Opened} {k : ℕ} {f : FrameT} (h : p.Reaches Z k f) {code : ℤ}
    (hcode : (p.dcAt Z k).decode Z f.blk (p.bsz + szOverhead) = .error code) :
    (frameSession Z p.hdr p.opts p.src).blks.length = k
      ∧ lz4Corrupted (frameSession Z p.hdr p.opts p.src).endErr = true := by
  have hdec := decodeFrame_compressed (Z := Z) p.bsz (p.dcAt Z k) h.compressed
  rw [Decompressor.decompress_error hcode] at hdec
  have hk : (decodeAll Z p.bsz (readerDc p.hdr p.opts) p.frames)[k]? = some (.error (.join
      (.const .errCorrupted) (.join (.const .errDecompress) (.lz4Decompress code))), f.readCnt) := by
    rw [getElem?_decodeAll]
    exact (congrArg (Option.map _) h.get).trans (congrArg (fun r => some (r, f.readCnt)) hdec)
  obtain ⟨hlen, herr⟩ := sessionOf_error
    (if useHasher p.hdr p.opts then some .zero else none) (p := parseFrames (readerFrame p.hdr) p.src) hk (by
      intro i hi d hd
      rw [getElem?_decodeAll, Option.map_eq_some_iff] at hd
      obtain ⟨f', hf', rfl⟩ := hd
      exact h.before i hi f' hf')
  refine ⟨hlen, ?_⟩
  have hend : (frameSession Z p.hdr p.opts p.src).endErr = _ := herr
  rw [hend]
  rfl

/-- **The size limit.** The reader hands out no block of more than the block size, and rejects
every block that decodes to more, exactly if no block it gets to decodes to more than the
block size within the room of a pool block. -/
theorem block_limit_iff (S : Sched Z) {src : Bytes} {seeks : Option SeekT} {o : OptsT} {p : Opened}
    (hp : openFrame seeks o src = p) (h : p.err = none) :
    ((∀ b ∈ (S.blkSession p.hdr p.opts p.src).blks, b.1.length ≤ p.bsz)
      ∧ ∀ k f, p.Reaches Z k f →
        (∀ out, (p.dcAt Z k).decode Z f.blk (p.bsz + szOverhead) = .ok out → p.bsz < out.length) →
        (S.blkSession p.hdr p.opts p.src).blks.length = k
          ∧ lz4Corrupted (S.blkSession p.hdr p.opts p.src).endErr = true)
      ↔ ∀ k f, p.Reaches Z k f → ¬ Overlong Z p.bsz (p.dcAt Z k) f := by
  have hsame : (S.blkSession p.hdr p.opts p.src).Same (frameSession Z p.hdr p.opts p.src) := by
    subst hp
    exact S.blkSession_same (Reader.openFrame_serial h)
  rw [hsame.blks, hsame.endErr]
  constructor
  · -- an overlong block that is reached is handed out
    rintro ⟨hle, -⟩ k f hreach ⟨out, hout, hlt⟩
    have hget := hreach.delivered hout
    have hlen := hle _ (List.mem_of_getElem? hget)
    exact absurd hlen (Nat.not_le.mpr hlt)
  · intro hnot
    refine ⟨?_, ?_⟩
    · intro b hb
      obtain ⟨k, hk⟩ := List.mem_iff_getElem?.mp hb
      obtain ⟨hget, hbefore⟩ := sessionOf_getElem?.mp hk
      rw [getElem?_decodeAll, Option.map_eq_some_iff] at hget
      obtain ⟨f, hf, hdec⟩ := hget
      rw [Prod.mk.injEq] at hdec
      by_cases hunc : f.uncompressed = true
      · -- stored: the parser has checked the size word
        rw [decodeFrame, if_pos hunc] at hdec
        rw [← Except.ok.inj hdec.1]
        exact length_of_mem_frames (List.mem_of_getElem? hf)
      · have hcomp : f.uncompressed = false := Bool.not_eq_true _ ▸ hunc
        have hreach : p.Reaches Z k f := by
          refine ⟨hf, hcomp, ?_⟩
          intro i hi f' hf'
          exact hbefore i hi _ ((getElem?_decodeAll Z _ _ _ i).trans (congrArg (Option.map _) hf'))
        -- compressed: one of more than the block size is overlong
        by_contra hgt
        rw [decodeFrame_compressed _ _ hcomp] at hdec
        rcases hout : (p.dcAt Z k).decode Z f.blk (p.bsz + szOverhead) with code | out
        · have herr := hdec.1
          have hfail := Decompressor.decompress_error hout
          have hne := (congrArg Prod.fst hfail).symm.trans herr
          cases hne
        · have hok := Decompressor.decompress_ok hout
          have hb1 : out = b.1 := Except.ok.inj ((congrArg Prod.fst hok).symm.trans hdec.1)
          exact hnot k f hreach ⟨out, hout, hb1 ▸ Nat.not_le.mp hgt⟩
    · intro k f hreach hall
      rcases hout : (p.dcAt Z k).decode Z f.blk (p.bsz + szOverhead) with code | out
      · exact hreach.rejected hout
      · exact absurd ⟨out, hout, hall out hout⟩ (hnot k f hreach)

/-- The engine of literals makes too little of any block. -/
theorem block_limit_lit :
    ∃ (S : Sched litEngine) (p : Opened), openFrame none .sync64KB Lz4Frame.lit.bytes = p
      ∧ p.err = none
      ∧ ∀ b ∈ (S.blkSession p.hdr p.opts p.src).blks, b.1.length ≤ p.bsz := by
  obtain ⟨S⟩ := Sched.nonempty litEngine
  have hnone : (openFrame none .sync64KB Lz4Frame.lit.bytes).err = none := by decide +kernel
  have hbsz : (openFrame none .sync64KB Lz4Frame.lit.bytes).bsz = 64 * 1024 := by decide +kernel
  refine ⟨S, _, rfl, hnone, ((block_limit_iff S rfl hnone).mpr ?_).1⟩
  rintro k f - ⟨out, hout, hlt⟩
  rw [hbsz] at hlt
  have hlit : litDecode f.blk (64 * 1024 + szOverhead) = .ok out := by
    rw [← hbsz]
    generalize (openFrame none .sync64KB Lz4Frame.lit.bytes).dcAt litEngine k = dc at hout
    cases dc with
    | indie => exact hout
    | withDict d => exact hout
  rcases hblk : f.blk with _ | ⟨token, literals⟩
  · rw [hblk] at hlit
    cases hlit
  · rw [hblk, litDecode] at hlit
    split_ifs at hlit with hshort
    rw [← Except.ok.inj hlit] at hlt
    omega

/-! ## A block that is too long -/

/-- An LZ4 block: one zero, a match of 65531 at offset 1, five zeros. -/
def runBlk : Bytes :=
  [0x1F, 0, 1, 0] ++ List.replicate 256 0xFF ++ [0xE8, 0x50, 0, 0, 0, 0, 0]

/-- Decoding this block. -/
def runDecode (source : Bytes) (dstCap : ℕ) : Except ℤ Bytes :=
  if source = runBlk ∧ 64 * 1024 + 1 ≤ dstCap then .ok (List.replicate (64 * 1024 + 1) 0)
  else .error (-1)

theorem length_runDecode (source : Bytes) (dstCap : ℕ) (out : Bytes)
    (h : runDecode source dstCap = .ok out) : out.length ≤ dstCap := by
  rw [runDecode] at h
  split_ifs at h with hn
  rw [← Except.ok.inj h, List.length_replicate]
  exact hn.2

/-- An engine that decodes this block. -/
def runEngine : Clz4 :=
  { litEngine with decompressSafe := runDecode, decompressSafe_le := length_runDecode }

/-- A frame of blocks of 64 KiB from which a block of one byte more is delivered. -/
theorem block_limit_exceeded :
    ∃ (S : Sched runEngine) (src : Bytes) (p : Opened),
      openFrame none .sync64KB src = p ∧ p.err = none
        ∧ ∃ b ∈ (S.blkSession p.hdr p.opts p.src).blks, p.bsz < b.1.length := by
  obtain ⟨S⟩ := Sched.nonempty runEngine
  set src := headerBytes { OptsT.sync64KB with contentChecksum := false }
    ++ (blkBytes false runBlk false ++ trailerBytes none) with hsrc
  have hnone : (openFrame none .sync64KB src).err = none := by decide +kernel
  have hbsz : (openFrame none .sync64KB src).bsz = 64 * 1024 := by decide +kernel
  have hframes : (openFrame none .sync64KB src).frames = [⟨runBlk, 271, false⟩] := by
    decide +kernel
  have hindep : (openFrame none .sync64KB src).hdr.flags.blockIndependence = true := by
    decide +kernel
  have hdict : (openFrame none .sync64KB src).opts.dictionary = none := by decide +kernel
  generalize hp : openFrame none .sync64KB src = p at hnone hbsz hframes hindep hdict
  have hsame : (S.blkSession p.hdr p.opts p.src).Same (frameSession runEngine p.hdr p.opts p.src) := by
    rw [← hp]
    exact S.blkSession_same (Reader.openFrame_serial (by rw [hp]; exact hnone))
  have hreach : p.Reaches runEngine 0 ⟨runBlk, 271, false⟩ := by
    refine ⟨by rw [hframes]; rfl, rfl, ?_⟩
    intro i hi
    exact absurd hi (Nat.not_lt_zero i)
  -- there is no dictionary, and room for eight bytes more than the block size
  have hdc : p.dcAt runEngine 0 = .indie := by
    have hmade : p.dcAt runEngine 0 = readerDc p.hdr p.opts := rfl
    rw [hmade, readerDc, readerDict, hindep, hdict]
    rfl
  have hout : (p.dcAt runEngine 0).decode runEngine runBlk (p.bsz + szOverhead)
      = .ok (List.replicate (64 * 1024 + 1) 0) := by
    have hengine : (Decompressor.indie).decode runEngine = runDecode := rfl
    rw [hdc, hbsz, hengine, runDecode, if_pos ⟨rfl, by decide⟩]
  refine ⟨S, src, p, hp, hnone, _, hsame.blks ▸ List.mem_of_getElem? (hreach.delivered hout), ?_⟩
  rw [hbsz, List.length_replicate]
  exact Nat.lt_succ_self _

end Plz4
