/-
What the compressor makes of a source is decoded to it again: after one call, after any calls
on a context with a dictionary attached, and along a chain of linked blocks.

The two halves meet at `BlockOf`. The compressor's side of it does not depend on the decoder's
build, on what a destination held before, or on where the decoder's dictionary lies, and the
dictionary may be longer than the one the compressor knew.
-/
import Plz4.Dict
import Plz4.Lz4.DecompressSafe
import Plz4.Lz4.StreamSpec

set_option autoImplicit false

namespace Plz4.Lz4

variable {dict src block hist mem mem' : Bytes} {value : ℕ}

/-! ## Blocks that are decoded -/

/-- Every build decodes `block` to `src`, behind whatever ends with `dict` and into every
buffer that is long enough. -/
def Decodes (dict src block : Bytes) : Prop :=
  ∀ (fastDecLoop adjacent : Bool) (dict' dst : Bytes), dict <:+ dict' → src.length ≤ dst.length →
    ∃ r, decompressSafeUsingDict fastDecLoop block dst dict' adjacent = some r ∧ decoded r = .ok src

theorem BlockOf.decodes (h : BlockOf dict src block) : Decodes dict src block := by
  intro fastDecLoop adjacent dict' dst hsuf hle
  obtain ⟨r, hr, hdec⟩ := decompressSafeUsingDict_spec fastDecLoop block dst dict' adjacent
  exact ⟨r, hr, hdec.trans ((h.longer hsuf).decode hle)⟩

/-- A call that returned 0 was short of room; any other left a block that is decoded. -/
def Returned (dict src dst : Bytes) (r : ℕ × Bytes) : Prop :=
  r.1 ≤ dst.length ∧ (r.1 = 0 → dst.length < compressBound src.length)
    ∧ (r.1 ≠ 0 → Decodes dict src (r.2.take r.1))

theorem Outcome.returned (h : Outcome hist src mem value mem') (hsuf : hist <:+ dict) :
    Returned dict src mem (value, mem') := by
  rcases h.2 with ⟨rfl, hlt⟩ | ⟨hblock, hle⟩
  · exact ⟨Nat.zero_le _, fun _ => hlt, fun hne => absurd rfl hne⟩
  · refine ⟨hle, fun hzero => ?_, fun _ => (hblock.longer hsuf).decodes⟩
    change value = 0 at hzero
    rw [hzero, List.take_zero] at hblock
    exact absurd rfl hblock.ne_nil

/-! ## One call -/

/-- **`LZ4_compress_fast` keeps the format.** It makes no undefined access, returns 0 only
for want of room, and what it returns otherwise is the length of a block of the source that
keeps the end-of-block conditions and refers to nothing in front of the source. -/
theorem compressFast_format (src mem : Bytes) (acceleration : ℤ) (hn : src.length ≤ maxInputSize) :
    ∃ value mem', compressFast src mem acceleration = some (value, mem') ∧ value ≤ mem.length
      ∧ (value = 0 → mem.length < compressBound src.length)
      ∧ (value ≠ 0 → ∃ ss last, mem'.take value = blockBytes ss 0 last ∧ Within 0 ss
        ∧ EndRules src.length 0 ss ∧ expand [] ss ++ last = src) := by
  obtain ⟨value, mem', hrun, hout⟩ := compressFast_spec src mem acceleration hn
  refine ⟨value, mem', hrun, ?_⟩
  rcases hout.2 with ⟨rfl, hlt⟩ | ⟨hblock, hle⟩
  · exact ⟨Nat.zero_le _, fun _ => hlt, fun hne => absurd rfl hne⟩
  · refine ⟨hle, fun hzero => ?_, fun _ => ?_⟩
    · rw [hzero, List.take_zero] at hblock
      exact absurd rfl hblock.ne_nil
    · obtain ⟨ss, last, hbytes, hwithin, hends, -, hexp⟩ := hblock
      exact ⟨ss, last, hbytes, hwithin, hends, hexp⟩

/-- A run of one byte: a literal, a match with it, and the last five literals. -/
theorem compressFast_format_run :
    ∃ value mem', compressFast (List.replicate 24 7) (List.replicate 41 0) 1 = some (value, mem')
      ∧ mem'.take value = [0x1E, 7, 1, 0, 0x50, 7, 7, 7, 7, 7]
      ∧ ∃ ss last, mem'.take value = blockBytes ss 0 last ∧ Within 0 ss
        ∧ EndRules (List.replicate 24 (7 : UInt8)).length 0 ss
        ∧ expand [] ss ++ last = List.replicate 24 7 := by
  obtain ⟨value, mem', hrun, -, -, hblock⟩ :=
    compressFast_format (List.replicate 24 7) (List.replicate 41 0) 1 (by decide)
  have hout : (compressFast (List.replicate 24 7) (List.replicate 41 0) 1).map
      (fun r => r.2.take r.1)
      = some [0x1E, 7, 1, 0, 0x50, 7, 7, 7, 7, 7] := by decide +kernel
  rw [hrun, Option.map_some, Option.some_inj] at hout
  refine ⟨value, mem', hrun, hout, hblock ?_⟩
  rintro rfl
  cases hout

/-- **Block round trip.** What `LZ4_compress_fast` makes of a source is decoded to it, with or
without a dictionary. -/
theorem compressFast_round_trip (src mem : Bytes) (acceleration : ℤ) (hn : src.length ≤ maxInputSize) :
    ∃ r, compressFast src mem acceleration = some r ∧ Returned [] src mem r := by
  obtain ⟨value, mem', hrun, hout⟩ := compressFast_spec src mem acceleration hn
  exact ⟨(value, mem'), hrun, hout.returned List.nil_suffix⟩

theorem compressFast_round_trip_run :
    ∃ r, compressFast (List.replicate 24 7) (List.replicate 41 0) 1 = some r
      ∧ r.2.take r.1 = [0x1E, 7, 1, 0, 0x50, 7, 7, 7, 7, 7]
      ∧ Decodes [] (List.replicate 24 7) (r.2.take r.1) := by
  obtain ⟨r, hrun, -, -, hdec⟩ :=
    compressFast_round_trip (List.replicate 24 7) (List.replicate 41 0) 1 (by decide)
  have hout : (compressFast (List.replicate 24 7) (List.replicate 41 0) 1).map
      (fun r => r.2.take r.1)
      = some [0x1E, 7, 1, 0, 0x50, 7, 7, 7, 7, 7] := by decide +kernel
  rw [hrun, Option.map_some, Option.some_inj] at hout
  refine ⟨r, hrun, hout, hdec fun hzero => ?_⟩
  rw [hzero] at hout
  cases hout

/-! ## A context with a dictionary -/

/-- A call of a compress function: what is compressed, into what memory, and whether the
history of the context ends where the source begins. -/
structure StreamCall where
  src : Bytes
  dst : Bytes
  adjacent : Bool

/-- `StreamIndieCtx.Compress`, again and again: what the calls return. -/
def compressIndie (dict : LZ4Stream) : LZ4Stream → List StreamCall → Option (List (ℕ × Bytes))
  | _, [] => some []
  | ctx, c :: calls => do
      let ctx := attachDictionary (resetStreamFast ctx) (some dict)
      let (value, mem, ctx) ← compressFastContinue ctx c.src c.dst 1 c.adjacent
      let rs ← compressIndie dict ctx calls
      some ((value, mem) :: rs)

theorem compressIndie_spec {strm ctx : LZ4Stream} (hctx : ctx.Resettable)
    (hstrm : strm.toStreamData.Loaded) (hsuf : strm.dictionary <:+ dict) {calls : List StreamCall}
    (hcalls : ∀ c ∈ calls, c.src.length ≤ maxInputSize) :
    ∃ rs, compressIndie strm ctx calls = some rs
      ∧ List.Forall₂ (fun c r => Returned dict c.src c.dst r) calls rs := by
  induction calls generalizing ctx with
  | nil => exact ⟨[], rfl, .nil⟩
  | cons c calls ih =>
      obtain ⟨hok, hhist, hnone, hoff⟩ := resetStreamFast_spec hctx
      obtain ⟨hatt, hdict⟩ := attachDictionary_spec hok hhist hnone hoff hstrm
      obtain ⟨value, mem', ctx', hrun, hok', hle', hout⟩ := compressFastContinue_spec hatt c.src c.dst 1
        c.adjacent (hcalls c List.mem_cons_self)
      obtain ⟨rs, hrs, hall⟩ :=
        ih (hok'.resettable hle') (fun c' hc' => hcalls c' (List.mem_cons_of_mem _ hc'))
      rw [hdict] at hout
      refine ⟨(value, mem') :: rs, ?_, .cons (hout.returned hsuf) hall⟩
      rw [compressIndie]
      simp only [hrun, hrs, Option.bind_eq_bind, Option.bind_some]

/-- **Independent blocks with a dictionary.** One context, whatever has been compressed with
it before and whether or not that worked, never makes an undefined access, and every block
it returns is decoded with the dictionary. -/
theorem compressIndie_round_trip (dict : Bytes) (calls : List StreamCall)
    (hcalls : ∀ c ∈ calls, c.src.length ≤ maxInputSize) :
    ∃ strm rs, loadDictSlow dict = some strm ∧ compressIndie strm initStream calls = some rs
      ∧ List.Forall₂ (fun c r => Returned dict c.src c.dst r) calls rs := by
  obtain ⟨strm, hload, hstrm, -, hsuf⟩ := loadDictInternal_spec true dict
  obtain ⟨rs, hrs, hall⟩ :=
    compressIndie_spec (ok_initStream.resettable (Nat.zero_le _)) hstrm hsuf hcalls
  exact ⟨strm, rs, hload, hrs, hall⟩

/-- Two calls with the same dictionary, each of which finds a match in it. -/
def dictCalls : List StreamCall :=
  [⟨[1, 2, 3, 4, 5, 6, 7, 8, 9, 10, 11, 12, 13, 14, 15, 16, 1, 2], List.replicate 40 0, false⟩,
    ⟨[1, 2, 3, 4, 5, 6, 7, 8, 9, 10, 11, 12, 13, 14, 15, 16, 3], List.replicate 40 0, true⟩]

theorem compressIndie_round_trip_two :
    ∃ strm rs, loadDictSlow [1, 2, 3, 4, 5, 6, 7, 8, 9, 10, 11, 12, 13, 14, 15, 16] = some strm
      ∧ compressIndie strm initStream dictCalls = some rs
      ∧ rs.map (fun r => r.2.take r.1)
        = [[0x09, 16, 0, 0x50, 14, 15, 16, 1, 2], [0x08, 16, 0, 0x50, 13, 14, 15, 16, 3]]
      ∧ List.Forall₂ (fun (c : StreamCall) r =>
          Returned [1, 2, 3, 4, 5, 6, 7, 8, 9, 10, 11, 12, 13, 14, 15, 16] c.src c.dst r)
        dictCalls rs := by
  obtain ⟨strm, rs, hload, hrun, hall⟩ :=
    compressIndie_round_trip [1, 2, 3, 4, 5, 6, 7, 8, 9, 10, 11, 12, 13, 14, 15, 16] dictCalls
      (by decide)
  have hout : ((loadDictSlow [1, 2, 3, 4, 5, 6, 7, 8, 9, 10, 11, 12, 13, 14, 15, 16]).bind
      fun strm =>
      compressIndie strm initStream dictCalls).map (List.map fun r => r.2.take r.1)
      = some [[0x09, 16, 0, 0x50, 14, 15, 16, 1, 2], [0x08, 16, 0, 0x50, 13, 14, 15, 16, 3]] := by
    decide +kernel
  rw [hload, Option.bind_some, hrun, Option.map_some, Option.some_inj] at hout
  exact ⟨strm, rs, hload, hrun, hout, hall⟩

/-! ## Linked blocks -/

/-- `StreamLinkedCtx.Compress` along a chain: the first block is compressed with the context
as it is, every other one with the last 64 KiB of the block before it. -/
def compressLinked : LZ4Stream → Option Bytes → List StreamCall → Option (List (ℕ × Bytes))
  | _, _, [] => some []
  | ctx, dict, c :: calls => do
      let ctx ← dict.elim (some ctx) loadDict
      let (value, mem, ctx) ← compressFastContinue ctx c.src c.dst 1 c.adjacent
      let rs ← compressLinked ctx (some (c.src.rtake lz4DictSz)) calls
      some ((value, mem) :: rs)

/-- Every block is decoded with the window that the frame format prescribes at its place: the
dictionary, which then takes in every block, also one for which the call returned 0 and that
is stored. The readers leave a stored block out of their window. -/
def ReturnedFrom : DictT → List StreamCall → List (ℕ × Bytes) → Prop
  | _, [], [] => True
  | d, c :: calls, r :: rs => Returned d.data c.src c.dst r ∧ ReturnedFrom (d.update c.src) calls rs
  | _, _, _ => False

theorem compressLinked_spec {ctx : LZ4Stream} {dict : Option Bytes} {d : DictT}
    (hctx : dict = none → ctx.Ok ∧ ctx.history <:+ d.data)
    (hdict : ∀ tail, dict = some tail → tail <:+ d.data) {calls : List StreamCall}
    (hcalls : ∀ c ∈ calls, c.src.length ≤ maxInputSize) :
    ∃ rs, compressLinked ctx dict calls = some rs ∧ ReturnedFrom d calls rs := by
  induction calls generalizing ctx dict d with
  | nil => exact ⟨[], rfl, trivial⟩
  | cons c calls ih =>
      obtain ⟨ctx₁, hload, hok, hhist⟩ : ∃ ctx₁, dict.elim (some ctx) loadDict = some ctx₁ ∧ ctx₁.Ok
          ∧ ctx₁.history <:+ d.data := by
        rcases dict with _ | tail
        · exact ⟨ctx, rfl, hctx rfl⟩
        · obtain ⟨s, hs, hloaded, hnone, hsuf⟩ := loadDictInternal_spec false tail
          have hs' : s = ⟨s.toStreamData, none⟩ := by rw [← hnone]
          have hok : s.Ok := by
            rw [hs']
            exact hloaded.ok
          refine ⟨s, hs, hok, ?_⟩
          rw [LZ4Stream.history, hnone]
          exact hsuf.trans (hdict tail rfl)
      obtain ⟨value, mem', ctx', hrun, -, -, hout⟩ := compressFastContinue_spec hok c.src c.dst 1
        c.adjacent (hcalls c List.mem_cons_self)
      have hnext : ∀ tail, some (c.src.rtake lz4DictSz) = some tail → tail <:+ (d.update c.src).data := by
        intro tail htail
        rw [← Option.some.inj htail, DictT.data_update]
        exact List.rtake_suffix_rtake lz4DictSz (List.suffix_append _ _)
      have hfresh : some (c.src.rtake lz4DictSz) = none →
          ctx'.Ok ∧ ctx'.history <:+ (d.update c.src).data := fun h => (by cases h)
      obtain ⟨rs, hrs, hall⟩ := ih hfresh hnext (fun c' hc' => hcalls c' (List.mem_cons_of_mem _ hc'))
      refine ⟨(value, mem') :: rs, ?_, hout.returned hhist, hall⟩
      rw [compressLinked, hload]
      simp only [hrun, hrs, Option.bind_eq_bind, Option.bind_some]

/-- `NewStreamLinkedCtx`, for the dictionary of the options. -/
def newStreamLinkedCtx (dict : Option Bytes) : Option LZ4Stream :=
  let ctx := resetStreamFast initStream
  match dict with
  | none => some ctx
  | some d => (loadDictSlow (newDictT d true).data).map (fun strm => attachDictionary ctx (some strm))

/-- **Linked blocks.** Along a chain of any length every block that is returned is decoded
with the window that the frame format prescribes at its place: the last 64 KiB of the
dictionary and of all blocks before it, compressed or not. -/
theorem compressLinked_round_trip (dict : Option Bytes) (calls : List StreamCall)
    (hcalls : ∀ c ∈ calls, c.src.length ≤ maxInputSize) :
    ∃ ctx rs, newStreamLinkedCtx dict = some ctx ∧ compressLinked ctx none calls = some rs
      ∧ ReturnedFrom (newDictT (dict.getD []) true) calls rs := by
  obtain ⟨hok, hhist, hnone, hoff⟩ :=
    resetStreamFast_spec (ok_initStream.resettable (Nat.zero_le _))
  have htail : ∀ tail, (none : Option Bytes) = some tail →
      tail <:+ (newDictT (dict.getD []) true).data := fun _ h => (by cases h)
  rcases dict with _ | d
  · obtain ⟨rs, hrs, hall⟩ := compressLinked_spec (fun _ => ⟨hok, hhist ▸ List.nil_suffix⟩) htail hcalls
    exact ⟨_, rs, rfl, hrs, hall⟩
  · obtain ⟨strm, hload, hstrm, -, hsuf⟩ := loadDictInternal_spec true (newDictT d true).data
    obtain ⟨hatt, hdict⟩ := attachDictionary_spec hok hhist hnone hoff hstrm
    obtain ⟨rs, hrs, hall⟩ := compressLinked_spec (fun _ => ⟨hatt, hdict ▸ hsuf⟩) htail hcalls
    refine ⟨_, rs, ?_, hrs, hall⟩
    rw [newStreamLinkedCtx, loadDictSlow, hload]
    rfl

/-- Two blocks: the first has a match in the dictionary, the second in the first. -/
theorem compressLinked_round_trip_two :
    ∃ ctx rs, newStreamLinkedCtx (some [1, 2, 3, 4, 5, 6, 7, 8, 9, 10, 11, 12, 13, 14, 15, 16])
      = some ctx
      ∧ compressLinked ctx none dictCalls = some rs
      ∧ rs.map (fun r => r.2.take r.1)
        = [[0x09, 16, 0, 0x50, 14, 15, 16, 1, 2], [0x08, 18, 0, 0x50, 13, 14, 15, 16, 3]]
      ∧ ReturnedFrom (newDictT ((some [1, 2, 3, 4, 5, 6, 7, 8, 9, 10, 11, 12, 13, 14, 15, 16] :
          Option Bytes).getD []) true) dictCalls rs := by
  obtain ⟨ctx, rs, hctx, hrun, hall⟩ := compressLinked_round_trip
    (some [1, 2, 3, 4, 5, 6, 7, 8, 9, 10, 11, 12, 13, 14, 15, 16]) dictCalls (by decide)
  have hout : ((newStreamLinkedCtx
      (some [1, 2, 3, 4, 5, 6, 7, 8, 9, 10, 11, 12, 13, 14, 15, 16])).bind
      fun ctx => compressLinked ctx none dictCalls).map (List.map fun r => r.2.take r.1)
      = some [[0x09, 16, 0, 0x50, 14, 15, 16, 1, 2], [0x08, 18, 0, 0x50, 13, 14, 15, 16, 3]] := by
    decide +kernel
  rw [hctx, Option.bind_some, hrun, Option.map_some, Option.some_inj] at hout
  exact ⟨ctx, rs, hctx, hrun, hout, hall⟩

end Plz4.Lz4
