/-
The LZ4 block compressor (`internal/pkg/clz4/lz4.c`, `LZ4_compress_generic`), as a 64-bit
little-endian build compiles it.

The source is the end of an object, which may begin with the bytes of a prefix, and a
dictionary that does not lie right before it is an object of its own; `match` points into
one of the two. As in the decoder an access outside of an object is `none`, and a label
of the source is a function. `CompEnv` has what is fixed for a whole call: the parameters
the source decides at compile time, the buffers, and what is read of the contexts.

Left out are the table of pointers (`byPtr`), which only a 32-bit build uses, and
`fillOutput`, which is for `LZ4_compress_destSize`. The tables of hashes are functions:
`hashPosition_lt` says that an index is never outside of the array.
-/
import Mathlib.Logic.Function.Basic
import Plz4.Lz4.Decompress

set_option autoImplicit false

namespace Plz4.Lz4

open Mem

/-! ## Constants -/

/-- `LZ4_minLength` -/
def lz4MinLength : ℕ := mfLimit + 1
/-- `LZ4_DISTANCE_MAX` -/
def distanceMax : ℕ := 65535
/-- `LZ4_MAX_INPUT_SIZE` -/
def maxInputSize : ℕ := 0x7E000000
/-- `LZ4_skipTrigger` -/
def skipTrigger : ℕ := 6
/-- `LZ4_64Klimit` -/
def limit64K : ℕ := 65536 + (mfLimit - 1)
/-- `LZ4_HASHLOG` -/
def hashLog : ℕ := 12

/-- `LZ4_compressBound` -/
def compressBound (isize : ℕ) : ℕ :=
  if isize > maxInputSize then 0 else isize + isize / 255 + 16

/-- `tableType_t` -/
inductive TableType
  | clearedTable
  | byU32
  | byU16
  deriving DecidableEq, Repr

/-- `limitedOutput_directive` -/
inductive OutputDirective
  | notLimited
  | limitedOutput
  deriving DecidableEq, Repr

/-- `dictIssue_directive` -/
inductive DictIssue
  | noDictIssue
  | dictSmall
  deriving DecidableEq, Repr

/-! ## Words and hashes -/

/-- Arithmetic on `U32`. -/
def u32 (n : ℕ) : ℕ := n % 2 ^ 32

/-- `LZ4_read32` -/
def read32 (m : Bytes) (p : ℤ) : Option ℕ := (load m p 4).map LittleEndian.get

/-- `LZ4_read_ARCH` -/
def readArch (m : Bytes) (p : ℤ) : Option ℕ := (load m p 8).map LittleEndian.get

/-- `LZ4_hash4` -/
def hash4 (sequence : ℕ) (tableType : TableType) : ℕ :=
  if tableType = .byU16 then (sequence * 2654435761 % 2 ^ 32) >>> (minMatch * 8 - (hashLog + 1))
  else (sequence * 2654435761 % 2 ^ 32) >>> (minMatch * 8 - hashLog)

/-- `LZ4_hash5` -/
def hash5 (sequence : ℕ) (tableType : TableType) : ℕ :=
  let hashLog := if tableType = .byU16 then hashLog + 1 else hashLog
  ((sequence <<< 24 % 2 ^ 64) * 889523592379 % 2 ^ 64) >>> (64 - hashLog)

/-- `LZ4_hashPosition` -/
def hashPosition (m : Bytes) (p : ℤ) (tableType : TableType) : Option ℕ :=
  if tableType ≠ .byU16 then (readArch m p).map (fun w => hash5 w tableType)
  else (read32 m p).map (fun w => hash4 w tableType)

/-- `hashTable`; entries that were never written are 0. -/
abbrev HashTable := ℕ → ℕ

/-- `LZ4_putIndexOnHash` -/
def putIndexOnHash (idx h : ℕ) (table : HashTable) (tableType : TableType) : HashTable :=
  Function.update table h (if tableType = .byU16 then idx % 2 ^ 16 else u32 idx)

/-- How many entries the table has. -/
def tableSize (tableType : TableType) : ℕ :=
  if tableType = .byU16 then 2 ^ (hashLog + 1) else 2 ^ hashLog

/-! ## Counting -/

/-- `LZ4_NbCommonBytes`: the low zero bytes of a word that is not 0. -/
def nbCommonBytes : ℕ → ℕ → ℕ
  | 0, _ => 0
  | k + 1, val => if val % 256 = 0 then nbCommonBytes k (val / 256) + 1 else 0

/-- One comparison at the end of `LZ4_count`, of 4, 2 or 1 bytes: both pointers move on
if they agree. -/
def countPiece (obj cur : Bytes) (pInLimit : ℤ) (w : ℕ) (p : ℤ × ℤ) : Option (ℤ × ℤ) :=
  if p.1 < pInLimit - (w - 1) then do
    let a ← (load obj p.2 w).map LittleEndian.get
    let b ← (load cur p.1 w).map LittleEndian.get
    some (if a = b then (p.1 + w, p.2 + w) else p)
  else some p

/-- The last bytes of `LZ4_count`, fewer than a word. -/
def countTail (obj cur : Bytes) (pInLimit pIn pMatch : ℤ) : Option ℤ := do
  let p ← countPiece obj cur pInLimit 4 (pIn, pMatch)
  let p ← countPiece obj cur pInLimit 2 p
  let p ← countPiece obj cur pInLimit 1 p
  some p.1

/-- The loop of `LZ4_count`, a word at a time; its first pass is written out in the
source. -/
def countLoop (obj cur : Bytes) (pInLimit : ℤ) : ℕ → ℤ → ℤ → Option ℤ
  | 0, _, _ => none
  | k + 1, pIn, pMatch =>
      if pIn < pInLimit - (8 - 1) then do
        let a ← readArch obj pMatch
        let b ← readArch cur pIn
        let diff := a ^^^ b
        if diff = 0 then countLoop obj cur pInLimit k (pIn + 8) (pMatch + 8)
        else some (pIn + nbCommonBytes 8 diff)
      else countTail obj cur pInLimit pIn pMatch

/-- `LZ4_count`, with `pMatch` in the object `obj`. -/
def count (obj cur : Bytes) (pIn pMatch pInLimit : ℤ) : Option ℕ :=
  (countLoop obj cur pInLimit (cur.length + 1) pIn pMatch).map (fun p => (p - pIn).toNat)

/-! ## The environment of a call -/

/-- What is fixed for a call of `LZ4_compress_generic_validated`. -/
structure CompEnv where
  /-- the object that ends with the source -/
  cur : Bytes
  /-- where `source` begins in it -/
  source : ℕ
  maxOutputSize : ℕ
  outputDirective : OutputDirective
  tableType : TableType
  dictDirective : DictDirective
  dictIssue : DictIssue
  acceleration : ℕ
  /-- `cctx->currentOffset` when the call begins -/
  startIndex : ℕ
  /-- the bytes from `dictionary` to `dictEnd` -/
  dictionary : Bytes
  dictSize : ℕ
  /-- `dictCtx->hashTable` -/
  dictTable : HashTable
  /-- `dictCtx->currentOffset` -/
  dictOffset : ℕ

namespace CompEnv

variable (e : CompEnv)

def inputSize : ℕ := e.cur.length - e.source
def iend : ℤ := e.cur.length
def mflimitPlusOne : ℤ := e.iend - mfLimit + 1
def matchlimit : ℤ := e.iend - lastLiterals
def olimit : ℤ := e.maxOutputSize

/-- `base`, an address that may be in front of the object. -/
def base : ℤ := e.source - e.startIndex

/-- `maybe_extMem` -/
def maybeExtMem : Bool := e.dictDirective = .usingExtDict ∨ e.dictDirective = .usingDictCtx

def dictDelta : ℕ := u32 (e.startIndex + 2 ^ 32 - e.dictOffset)
def prefixIdxLimit : ℕ := u32 (e.startIndex + 2 ^ 32 - e.dictSize)

/-- `(U32)(p - base)` -/
def index (p : ℤ) : ℕ := (p - e.base).toNat % 2 ^ 32

end CompEnv

variable (e : CompEnv)

/-! ## Candidates -/

/-- A match candidate: its index, where it points, and how far back it may be extended. -/
structure Candidate where
  matchIndex : ℕ
  /-- `match` is in the object of the dictionary -/
  inDict : Bool
  pos : ℤ
  lowLimit : ℤ

/-- The object a candidate points into. -/
def Candidate.obj (c : Candidate) : Bytes := if c.inDict then e.dictionary else e.cur

/-- What the tables have for a hash. -/
def candidate (h : ℕ) (table : HashTable) : Candidate :=
  let matchIndex := table h
  if e.dictDirective = .usingDictCtx then
    if matchIndex < e.startIndex then
      -- there was no match, try the dictionary
      let matchIndex := e.dictTable h
      ⟨u32 (matchIndex + e.dictDelta), true, e.dictSize - e.dictOffset + matchIndex, 0⟩
    else ⟨matchIndex, false, e.base + matchIndex, e.source⟩
  else if e.dictDirective = .usingExtDict then
    if matchIndex < e.startIndex then
      ⟨matchIndex, true, e.dictSize - e.startIndex + matchIndex, 0⟩
    else ⟨matchIndex, false, e.base + matchIndex, e.source⟩
  else
    -- single continuous memory segment
    ⟨matchIndex, false, e.base + matchIndex,
      e.source - if e.dictDirective = .withPrefix64k then (e.dictSize : ℤ) else 0⟩

/-- Whether a candidate is within the valid area and the distance, and its first four
bytes are those at `ip`. -/
def isMatch (c : Candidate) (ip : ℤ) : Option Bool :=
  if e.dictIssue = .dictSmall ∧ c.matchIndex < e.prefixIdxLimit then some false
  else if e.tableType ≠ .byU16 ∧ u32 (c.matchIndex + distanceMax) < e.index ip then some false
  else do
    let a ← read32 (c.obj e) c.pos
    let b ← read32 e.cur ip
    some (a = b)

/-- The search loop: the next match and where it was found, or none for the jump to
`_last_literals`. -/
def findMatch : ℕ → ℕ → ℕ → ℤ → ℕ → HashTable → Option (Option (ℤ × Candidate) × HashTable)
  | 0, _, _, _, _, _ => none
  | k + 1, searchMatchNb, step, forwardIp, forwardH, table => do
      let h := forwardH
      let c := candidate e h table
      let ip := forwardIp
      let forwardIp := forwardIp + step
      let step := searchMatchNb >>> skipTrigger
      if forwardIp > e.mflimitPlusOne then some (none, table)
      else
        let forwardH ← hashPosition e.cur forwardIp e.tableType
        let table := putIndexOnHash (e.index ip) h table e.tableType
        let found ← isMatch e c ip
        if found then some (some (ip, c), table)
        else findMatch k (searchMatchNb + 1) step forwardIp forwardH table

/-- The loop of the catching up, entered when one byte more has been found equal. -/
def catchUpLoop (obj : Bytes) (anchor lowLimit : ℤ) : ℕ → ℤ → ℤ → Option (ℤ × ℤ)
  | 0, _, _ => none
  | k + 1, ip, pos => do
      let ip := ip - 1
      let pos := pos - 1
      if ip > anchor ∧ pos > lowLimit then do
        let a ← readByte e.cur (ip - 1)
        let b ← readByte obj (pos - 1)
        if a = b then catchUpLoop obj anchor lowLimit k ip pos else some (ip, pos)
      else some (ip, pos)

/-- The catching up: a match is extended backwards. -/
def catchUp (anchor ip : ℤ) (c : Candidate) : Option (ℤ × ℤ) :=
  if c.pos > c.lowLimit then do
    let a ← readByte e.cur (ip - 1)
    let b ← readByte (c.obj e) (c.pos - 1)
    if a = b then catchUpLoop e (c.obj e) anchor c.lowLimit (e.cur.length + 1) ip c.pos
    else some (ip, c.pos)
  else some (ip, c.pos)

/-- `matchCode`: how far the match goes on behind its first four bytes. One in the
dictionary may go on at the start of the source. -/
def matchCode (ip : ℤ) (c : Candidate) : Option ℕ :=
  if e.maybeExtMem ∧ c.inDict then do
    let limit := min (ip + (e.dictionary.length - c.pos)) e.matchlimit
    let matchCode ← count e.dictionary e.cur (ip + minMatch) (c.pos + minMatch) limit
    if ip + (matchCode + minMatch) = limit then do
      let more ← count e.cur e.cur limit e.source e.matchlimit
      some (matchCode + more)
    else some matchCode
  else count e.cur e.cur (ip + minMatch) (c.pos + minMatch) e.matchlimit

/-! ## Encoding -/

/-- `for(; len >= 255 ; len-=255) *op++ = 255; *op++ = (BYTE)len;` -/
def putLength : ℕ → Bytes → ℤ → ℕ → Option (Bytes × ℤ)
  | 0, _, _, _ => none
  | k + 1, mem, op, len =>
      if len ≥ 255 then do
        let mem ← store mem op [255]
        putLength k mem (op + 1) (len - 255)
      else do
        let mem ← store mem op [UInt8.ofNat len]
        some (mem, op + 1)

/-- A token with a literal length, and what continues it. -/
def putLitLength (mem : Bytes) (token op : ℤ) (litLength : ℕ) : Option (Bytes × ℤ) :=
  if litLength ≥ runMask then do
    let mem ← store mem token [UInt8.ofNat (runMask * 16)]
    putLength (litLength + 1) mem op (litLength - runMask)
  else do
    let mem ← store mem token [UInt8.ofNat (litLength * 16)]
    some (mem, op)

/-- The bytes of 255 of a match length, four at a time: `op` and what is left of the
length. -/
def putMatchLoop : ℕ → Bytes → ℤ → ℕ → Option (Bytes × ℤ × ℕ)
  | 0, _, _, _ => none
  | k + 1, mem, op, matchCode =>
      if matchCode ≥ 4 * 255 then do
        let mem ← store mem (op + 4) [255, 255, 255, 255]
        putMatchLoop k mem (op + 4) (matchCode - 4 * 255)
      else some (mem, op, matchCode)

/-- The match length: the token is added to, and what continues it is written. -/
def putMatchLength (mem : Bytes) (token op : ℤ) (matchCode : ℕ) : Option (Bytes × ℤ) := do
  let t ← readByte mem token
  if matchCode ≥ mlMask then do
    let mem ← store mem token [t + UInt8.ofNat mlMask]
    let matchCode := matchCode - mlMask
    let mem ← store mem op [255, 255, 255, 255]
    let (mem, op, matchCode) ← putMatchLoop (matchCode + 1) mem op matchCode
    let op := op + (matchCode / 255 : ℕ)
    let mem ← store mem op [UInt8.ofNat (matchCode % 255)]
    some (mem, op + 1)
  else do
    let mem ← store mem token [t + UInt8.ofNat matchCode]
    some (mem, op)

/-! ## The main loop -/

/-- The variables of the main loop where it searches. -/
structure CompState where
  ip : ℤ
  anchor : ℤ
  op : ℤ
  forwardH : ℕ
  mem : Bytes
  table : HashTable

/-- The variables at `_next_match`. -/
structure MatchState where
  ip : ℤ
  op : ℤ
  token : ℤ
  offset : ℕ
  found : Candidate
  mem : Bytes
  table : HashTable

/-- Where a part of the main loop leads. -/
inductive CompNext
  | search (s : CompState)
  | nextMatch (s : MatchState)
  | lastLiterals (anchor op : ℤ) (mem : Bytes) (table : HashTable)
  | ret (value : ℕ) (mem : Bytes) (table : HashTable)

/-- From the head of the main loop to `_next_match`: find a match, catch up, encode the
literals. -/
def searchStep (s : CompState) : Option CompNext := do
  let (found, table) ← findMatch e (e.cur.length + 1) (e.acceleration <<< skipTrigger) 1 s.ip
    s.forwardH s.table
  match found with
  | none => some (.lastLiterals s.anchor s.op s.mem table)
  | some (ip, c) => do
      let offset := u32 (e.index ip + 2 ^ 32 - c.matchIndex)
      let (ip, pos) ← catchUp e s.anchor ip c
      let litLength := (ip - s.anchor).toNat
      let token := s.op
      let op := s.op + 1
      if e.outputDirective = .limitedOutput
          ∧ op + litLength + (2 + 1 + lastLiterals) + (litLength / 255 : ℕ) > e.olimit then
        some (.ret 0 s.mem table)
      else do
        let (mem, op) ← putLitLength s.mem token op litLength
        let mem ← wildCopy8From e.cur mem op s.anchor (op + litLength)
        some (.nextMatch ⟨ip, op + litLength, token, offset, { c with pos := pos }, mem, table⟩)

/-- From `_next_match` to the end of the loop's body: encode offset and match length, and
test the next position. -/
def matchStep (s : MatchState) : Option CompNext := do
  let offset := if e.maybeExtMem then s.offset else (s.ip - s.found.pos).toNat
  let mem ← store s.mem s.op (LittleEndian.put 2 offset)
  let op := s.op + 2
  let code ← matchCode e s.ip s.found
  let ip := s.ip + (code + minMatch)
  if e.outputDirective = .limitedOutput
      ∧ op + (1 + lastLiterals) + ((code + 240) / 255 : ℕ) > e.olimit then
    some (.ret 0 mem s.table)
  else do
    let (mem, op) ← putMatchLength mem s.token op code
    let anchor := ip
    if ip ≥ e.mflimitPlusOne then some (.lastLiterals anchor op mem s.table)
    else do
      let h ← hashPosition e.cur (ip - 2) e.tableType
      let table := putIndexOnHash (e.index (ip - 2)) h s.table e.tableType
      -- test next position
      let h ← hashPosition e.cur ip e.tableType
      let c := candidate e h table
      let table := putIndexOnHash (e.index ip) h table e.tableType
      let found ← isMatch e c ip
      if found then do
        let mem ← store mem op [0]
        some (.nextMatch ⟨ip, op + 1, op, u32 (e.index ip + 2 ^ 32 - c.matchIndex), c, mem, table⟩)
      else do
        let forwardH ← hashPosition e.cur (ip + 1) e.tableType
        some (.search ⟨ip + 1, anchor, op, forwardH, mem, table⟩)

/-- `_last_literals` -/
def lastLiteralsStep (anchor op : ℤ) (mem : Bytes) (table : HashTable) : Option CompNext :=
  let lastRun := (e.iend - anchor).toNat
  if e.outputDirective = .limitedOutput
      ∧ op + lastRun + 1 + ((lastRun + 255 - runMask) / 255 : ℕ) > e.olimit then
    some (.ret 0 mem table)
  else do
    let (mem, op) ← putLitLength mem op (op + 1) lastRun
    let mem ← copyFrom e.cur mem op anchor lastRun
    some (.ret (op + lastRun).toNat mem table)

/-- The main loop, with a bound on the jumps: the value returned, the object of the
destination and the table. -/
def compressLoop : ℕ → CompNext → Option (ℕ × Bytes × HashTable)
  | _, .ret value mem table => some (value, mem, table)
  | 0, _ => none
  | k + 1, .search s => (searchStep e s).bind (compressLoop k)
  | k + 1, .nextMatch s => (matchStep e s).bind (compressLoop k)
  | k + 1, .lastLiterals anchor op mem table =>
      (lastLiteralsStep e anchor op mem table).bind (compressLoop k)

/-- `LZ4_compress_generic_validated`, with the table of the context. -/
def compressGenericValidated (mem : Bytes) (table : HashTable) : Option (ℕ × Bytes × HashTable) :=
  let fuel := 2 * e.cur.length + 2
  if e.inputSize < lz4MinLength then compressLoop e fuel (.lastLiterals e.source 0 mem table)
  else do
    let h ← hashPosition e.cur e.source e.tableType
    let table := putIndexOnHash e.startIndex h table e.tableType
    let forwardH ← hashPosition e.cur (e.source + 1) e.tableType
    compressLoop e fuel (.search ⟨e.source + 1, e.source, 0, forwardH, mem, table⟩)

end Plz4.Lz4
