/-
The LZ4 block decoder (`internal/pkg/clz4/lz4.c`, `LZ4_decompress_generic`), as a 64-bit
little-endian build compiles it.

Source and destination are objects in memory and every pointer is an address in one of
them, so `none` stands for an access outside of an object or an overlapping `memcpy`.
The labels of the source are functions of their own, called where the source jumps to
them. `DecEnv` has what the instantiations of the generic function differ in; the
destination is a part of an object that may begin with the bytes of a prefix.

Left out are partial decoding, which nothing in the repository asks for, and the checks
that an address plus a length does not wrap around, which cannot fire at 64 bits.
-/
import Plz4.Io
import Plz4.Lib.LittleEndian
import Plz4.Lib.Mem

set_option autoImplicit false

namespace Plz4.Lz4

open Mem

/-! ## Constants of the format -/

def minMatch : ℕ := 4
def wildCopyLength : ℕ := 8
def lastLiterals : ℕ := 5
def mfLimit : ℕ := 12
def matchSafeguardDistance : ℕ := 2 * wildCopyLength - minMatch
def fastLoopSafeDistance : ℕ := 64
/-- `ML_MASK` -/
def mlMask : ℕ := 15
/-- `RUN_MASK` -/
def runMask : ℕ := 15

/-- `dict_directive`: where what comes before the block is. -/
inductive DictDirective
  | noDict
  | withPrefix64k
  | usingExtDict
  | usingDictCtx
  deriving DecidableEq, Repr

/-! ## Reads of the source -/

/-- `*p` -/
def readByte (m : Bytes) (p : ℤ) : Option UInt8 := (load m p 1).map (fun bs => bs.headD 0)

/-- `LZ4_readLE16` -/
def readLE16 (m : Bytes) (p : ℤ) : Option ℕ := (load m p 2).map LittleEndian.get

/-- The loop of `read_variable_length`: the length, or none for `rvl_error`, and where
the input pointer is afterwards. -/
def rvlLoop (src : Bytes) (ilimit : ℤ) : ℕ → ℤ → ℕ → Option (Option ℕ × ℤ)
  | 0, _, _ => none
  | k + 1, ip, length => do
      let s ← readByte src ip
      let ip := ip + 1
      let length := length + s.toNat
      if ip > ilimit then some (none, ip)
      else if s = 255 then rvlLoop src ilimit k ip length
      else some (some length, ip)

/-- `read_variable_length` -/
def readVariableLength (src : Bytes) (ip ilimit : ℤ) (initialCheck : Bool) :
    Option (Option ℕ × ℤ) :=
  if initialCheck ∧ ip ≥ ilimit then some (none, ip) else rvlLoop src ilimit src.length ip 0

/-! ## Copies -/

/-- `LZ4_wildCopy8` within the destination. -/
def wildCopy8 (mem : Bytes) (d s e : ℤ) : Option Bytes :=
  wildCopy (fun m d s => memcpy m d s 8) 8 (mem.length + 1) mem d s e

/-- `LZ4_wildCopy8` from the source. -/
def wildCopy8From (src mem : Bytes) (d s e : ℤ) : Option Bytes :=
  wildCopy (fun m d s => copyFrom src m d s 8) 8 (mem.length + 1) mem d s e

/-- `LZ4_wildCopy32` within the destination. -/
def wildCopy32 (mem : Bytes) (d s e : ℤ) : Option Bytes :=
  wildCopy (fun m d s => (memcpy m d s 16).bind (fun m => memcpy m (d + (16 : ℕ)) (s + (16 : ℕ)) 16))
    (16 + 16) (mem.length + 1) mem d s e

/-- `LZ4_wildCopy32` from the source. -/
def wildCopy32From (src mem : Bytes) (d s e : ℤ) : Option Bytes :=
  wildCopy
    (fun m d s => (copyFrom src m d s 16).bind
      (fun m => copyFrom src m (d + (16 : ℕ)) (s + (16 : ℕ)) 16))
    (16 + 16) (mem.length + 1) mem d s e

/-- `inc32table` -/
def inc32table : List ℤ := [0, 1, 2, 1, 0, 4, 4, 4]

/-- `dec64table` -/
def dec64table : List ℤ := [0, 0, 0, -1, -4, 1, 2, 3]

/-- The first eight bytes of a match, and where to go on reading it: one copy if they do
not overlap, otherwise piecewise, spreading the pattern to a distance of at least eight.
The writing of zeros is what offset 0 comes to. -/
def copyFirst8 (mem : Bytes) (op src : ℤ) (offset : ℕ) : Option (Bytes × ℤ) :=
  if offset < 8 then do
    let mem ← store mem op [0, 0, 0, 0]
    let mem ← byteCopy 4 mem op src (op + 4)
    let src := src + inc32table.getD offset 0
    let mem ← memcpy mem (op + 4) src 4
    some (mem, src - dec64table.getD offset 0)
  else do
    let mem ← memcpy mem op src 8
    some (mem, src + 8)

/-- `LZ4_memcpy_using_offset_base` -/
def memcpyUsingOffsetBase (mem : Bytes) (dst src dstEnd : ℤ) (offset : ℕ) : Option Bytes := do
  let (mem, src) ← copyFirst8 mem dst src offset
  wildCopy8 mem (dst + 8) src dstEnd

/-- The loop of `LZ4_memcpy_using_offset` that writes the pattern `v` again and again. -/
def patternFill (v : Bytes) : ℕ → Bytes → ℤ → ℤ → Option Bytes
  | 0, mem, d, e => if d < e then none else some mem
  | k + 1, mem, d, e =>
      if d < e then (store mem d v).bind (fun m => patternFill v k m (d + 8) e) else some mem

/-- `LZ4_memcpy_using_offset` -/
def memcpyUsingOffset (mem : Bytes) (dst src dstEnd : ℤ) (offset : ℕ) : Option Bytes :=
  if offset = 1 ∨ offset = 2 ∨ offset = 4 then do
    let unit ← load mem src offset
    let v := (List.replicate (8 / offset) unit).flatten
    let mem ← store mem dst v
    patternFill v mem.length mem (dst + 8) dstEnd
  else memcpyUsingOffsetBase mem dst src dstEnd offset

/-! ## The generic decoder -/

/-- What the parameters of `LZ4_decompress_generic` fix for the whole call. -/
structure DecEnv where
  /-- `LZ4_FAST_DEC_LOOP` -/
  fastDecLoop : Bool
  src : Bytes
  /-- where `dst` begins in its object -/
  dst : ℕ
  /-- `oend`, the end of the object -/
  oend : ℕ
  dict : DictDirective
  lowPrefix : ℤ
  /-- the bytes from `dictStart` to `dictEnd` -/
  dictionary : Bytes

variable (e : DecEnv)

/-- `iend` -/
def DecEnv.iend : ℤ := e.src.length

/-- `checkOffset` -/
def DecEnv.checkOffset : Bool := e.dictionary.length < 65536

/-- The variables of the loops. -/
structure DecState where
  ip : ℤ
  op : ℤ
  mem : Bytes

/-- Where an iteration leads: to the head of one of the two loops, or out of the function
with the value it returns. -/
inductive DecNext
  | fast (s : DecState)
  | safe (s : DecState)
  | ret (value : ℤ) (mem : Bytes)

/-- `_output_error` -/
def outputError (ip : ℤ) (mem : Bytes) : DecNext := .ret (-ip - 1) mem

/-- A match that begins in the external dictionary, and where the output pointer is
behind it; none if the end-of-block condition is violated. -/
def extDictCopy (op src : ℤ) (length : ℕ) (mem : Bytes) : Option (Option (ℤ × Bytes)) :=
  if op + length > e.oend - lastLiterals then some none
  else if length ≤ e.lowPrefix - src then do
    let mem ← copyFrom e.dictionary mem op (e.dictionary.length - (e.lowPrefix - src)) length
    some (some (op + length, mem))
  else do
    -- the match stretches into the current block
    let copySize := (e.lowPrefix - src).toNat
    let restSize := length - copySize
    let mem ← copyFrom e.dictionary mem op (e.dictionary.length - copySize) copySize
    let op := op + copySize
    if restSize > op - e.lowPrefix then do
      let mem ← byteCopy restSize mem op e.lowPrefix (op + restSize)
      some (some (op + restSize, mem))
    else do
      let mem ← memcpy mem op e.lowPrefix restSize
      some (some (op + restSize, mem))

/-- `safe_match_copy` -/
def safeMatchCopy (ip op src : ℤ) (offset length : ℕ) (mem : Bytes) : Option DecNext :=
  if e.checkOffset ∧ src + e.dictionary.length < e.lowPrefix then some (outputError ip mem)
  else if e.dict = .usingExtDict ∧ src < e.lowPrefix then do
    let r ← extDictCopy e op src length mem
    match r with
    | none => some (outputError ip mem)
    | some (op, mem) => some (.safe ⟨ip, op, mem⟩)
  else do
    let cpy := op + length
    let (mem, src) ← copyFirst8 mem op src offset
    let op := op + 8
    if cpy > e.oend - matchSafeguardDistance then
      let oCopyLimit : ℤ := e.oend - (wildCopyLength - 1)
      if cpy > e.oend - lastLiterals then some (outputError ip mem)
      else if op < oCopyLimit then do
        let mem ← wildCopy8 mem op src oCopyLimit
        let mem ← byteCopy mem.length mem oCopyLimit (src + (oCopyLimit - op)) cpy
        some (.safe ⟨ip, cpy, mem⟩)
      else do
        let mem ← byteCopy mem.length mem op src cpy
        some (.safe ⟨ip, cpy, mem⟩)
    else do
      let mem ← memcpy mem op src 8
      if length > 16 then do
        let mem ← wildCopy8 mem (op + 8) (src + 8) cpy
        some (.safe ⟨ip, cpy, mem⟩)
      else some (.safe ⟨ip, cpy, mem⟩)

/-- `_copy_match`: `length` is the match length field of the token. -/
def copyMatch (ip op : ℤ) (offset length : ℕ) (mem : Bytes) : Option DecNext :=
  if length = mlMask then do
    let (addl, ip) ← readVariableLength e.src ip (e.iend - lastLiterals + 1) false
    match addl with
    | none => some (outputError ip mem)
    | some addl => safeMatchCopy e ip op (op - offset) offset (length + addl + minMatch) mem
  else safeMatchCopy e ip op (op - offset) offset (length + minMatch) mem

/-- `safe_literal_copy`: the last literals, or other literals and then the match. -/
def safeLiteralCopy (token : UInt8) (ip op : ℤ) (length : ℕ) (mem : Bytes) : Option DecNext :=
  let cpy := op + length
  if cpy > e.oend - mfLimit ∨ ip + length > e.iend - (2 + 1 + lastLiterals) then
    if ip + length ≠ e.iend ∨ cpy > e.oend then some (outputError ip mem)
    else do
      let mem ← copyFrom e.src mem op ip length
      some (.ret (op + length - e.dst) mem)
  else do
    let mem ← wildCopy8From e.src mem op ip cpy
    let ip := ip + length
    let offset ← readLE16 e.src ip
    copyMatch e (ip + 2) cpy offset (token.toNat % 16) mem

/-- One iteration of the safe loop. -/
def safeStep (s : DecState) : Option DecNext := do
  let token ← readByte e.src s.ip
  let ip := s.ip + 1
  let length := token.toNat / 16
  -- the two-stage shortcut
  if length ≠ runMask ∧ ip < e.iend - 14 - 2 ∧ s.op ≤ e.oend - 14 - 18 then do
    let mem ← copyFrom e.src s.mem s.op ip 16
    let op := s.op + length
    let ip := ip + length
    let length := token.toNat % 16
    let offset ← readLE16 e.src ip
    let ip := ip + 2
    let src := op - offset
    if length ≠ mlMask ∧ offset ≥ 8 ∧ (e.dict = .withPrefix64k ∨ src ≥ e.lowPrefix) then do
      let mem ← memcpy mem op src 8
      let mem ← memcpy mem (op + 8) (src + 8) 8
      let mem ← memcpy mem (op + 16) (src + 16) 2
      some (.safe ⟨ip, op + length + minMatch, mem⟩)
    else copyMatch e ip op offset length mem
  else if length = runMask then do
    let (addl, ip) ← readVariableLength e.src ip (e.iend - runMask) true
    match addl with
    | none => some (outputError ip s.mem)
    | some addl => safeLiteralCopy e token ip s.op (length + addl) s.mem
  else safeLiteralCopy e token ip s.op length s.mem

/-- The end of an iteration of the fast loop, where the match is copied without a look at
the end of the buffer. -/
def fastCopy (ip op src : ℤ) (offset length : ℕ) (mem : Bytes) : Option DecNext :=
  if e.checkOffset ∧ src + e.dictionary.length < e.lowPrefix then some (outputError ip mem)
  else if e.dict = .usingExtDict ∧ src < e.lowPrefix then do
    let r ← extDictCopy e op src length mem
    match r with
    | none => some (outputError ip mem)
    | some (op, mem) => some (.fast ⟨ip, op, mem⟩)
  else do
    let cpy := op + length
    let mem ← if offset < 16 then memcpyUsingOffset mem op src cpy offset
      else wildCopy32 mem op src cpy
    some (.fast ⟨ip, cpy, mem⟩)

/-- The second half of an iteration of the fast loop: offset and match length. -/
def fastMatch (token : UInt8) (ip op : ℤ) (mem : Bytes) : Option DecNext := do
  let offset ← readLE16 e.src ip
  let ip := ip + 2
  let src := op - offset
  let length := token.toNat % 16
  if length = mlMask then do
    let (addl, ip) ← readVariableLength e.src ip (e.iend - lastLiterals + 1) false
    match addl with
    | none => some (outputError ip mem)
    | some addl =>
        let length := length + addl + minMatch
        if op + length ≥ e.oend - fastLoopSafeDistance then
          safeMatchCopy e ip op src offset length mem
        else fastCopy e ip op src offset length mem
  else
    let length := length + minMatch
    if op + length ≥ e.oend - fastLoopSafeDistance then safeMatchCopy e ip op src offset length mem
    else if (e.dict = .withPrefix64k ∨ src ≥ e.lowPrefix) ∧ offset ≥ 8 then do
      let mem ← memcpy mem op src 8
      let mem ← memcpy mem (op + 8) (src + 8) 8
      let mem ← memcpy mem (op + 16) (src + 16) 2
      some (.fast ⟨ip, op + length, mem⟩)
    else fastCopy e ip op src offset length mem

/-- One iteration of the fast loop. -/
def fastStep (s : DecState) : Option DecNext := do
  let token ← readByte e.src s.ip
  let ip := s.ip + 1
  let length := token.toNat / 16
  if length = runMask then do
    let (addl, ip) ← readVariableLength e.src ip (e.iend - runMask) true
    match addl with
    | none => some (outputError ip s.mem)
    | some addl =>
        let length := length + addl
        if s.op + length > e.oend - 32 ∨ ip + length > e.iend - 32 then
          safeLiteralCopy e token ip s.op length s.mem
        else do
          let mem ← wildCopy32From e.src s.mem s.op ip (s.op + length)
          fastMatch e token (ip + length) (s.op + length) mem
  else if ip ≤ e.iend - (16 + 1) then do
    let mem ← copyFrom e.src s.mem s.op ip 16
    fastMatch e token (ip + length) (s.op + length) mem
  else safeLiteralCopy e token ip s.op length s.mem

/-- The loops, with a bound on the iterations: what the function returns, and the object
of the destination. -/
def decodeLoop : ℕ → DecNext → Option (ℤ × Bytes)
  | _, .ret value mem => some (value, mem)
  | 0, _ => none
  | k + 1, .fast s => (fastStep e s).bind (decodeLoop k)
  | k + 1, .safe s => (safeStep e s).bind (decodeLoop k)

/-- `LZ4_decompress_generic`. The bindings pass `NULL` for an empty slice. -/
def decompressGeneric (mem : Bytes) : Option (ℤ × Bytes) :=
  if e.src = [] then some (-1, mem)
  else if e.oend = e.dst then some (if e.src.length = 1 ∧ e.src = [0] then 0 else -1, mem)
  else if e.fastDecLoop ∧ e.oend - e.dst ≥ fastLoopSafeDistance then
    decodeLoop e e.src.length (.fast ⟨0, e.dst, mem⟩)
  else decodeLoop e e.src.length (.safe ⟨0, e.dst, mem⟩)

/-! ## The instances -/

/-- `LZ4_decompress_safe` into `dst`. -/
def decompressSafe (fastDecLoop : Bool) (src dst : Bytes) : Option (ℤ × Bytes) :=
  decompressGeneric ⟨fastDecLoop, src, 0, dst.length, .noDict, 0, []⟩ dst

/-- `LZ4_decompress_safe_usingDict` into `dst`. The dictionary may lie right before the
destination, and is a prefix then. -/
def decompressSafeUsingDict (fastDecLoop : Bool) (src dst dict : Bytes) (adjacent : Bool) :
    Option (ℤ × Bytes) :=
  if dict.length = 0 then decompressSafe fastDecLoop src dst
  else if adjacent then
    let lowPrefix : ℤ := if dict.length ≥ 65536 - 1 then dict.length - 65536 else 0
    let directive := if dict.length ≥ 65536 - 1 then .withPrefix64k else .noDict
    (decompressGeneric
        ⟨fastDecLoop, src, dict.length, dict.length + dst.length, directive, lowPrefix, []⟩
        (dict ++ dst)).map
      (fun r => (r.1, r.2.drop dict.length))
  else decompressGeneric ⟨fastDecLoop, src, 0, dst.length, .usingExtDict, 0, dict⟩ dst

/-- What the bindings make of it: the bytes decoded, or the negative code. -/
def decoded (r : ℤ × Bytes) : Except ℤ Bytes :=
  if r.1 < 0 then .error r.1 else .ok (r.2.take r.1.toNat)

end Plz4.Lz4
