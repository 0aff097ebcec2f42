/-
The contexts of the compressor (`LZ4_stream_t`) and the functions the bindings call.

`dictionary` is the history of a context: what the pointer points to, as far as
`dictSize` goes. Whether that is right before the source is for the call to say
(`adjacent`); a pointer to no bytes is NULL, and so is the source if there is none of it.
What the bindings pass does not overlap, so the repair of a dictionary that the source has
overwritten is left out. A dictionary context is only ever a loaded one, which has no
dictionary context of its own.
-/
import Mathlib.Data.List.DropRight
import Plz4.Lz4.Compress

set_option autoImplicit false

namespace Plz4.Lz4

open Mem

/-! ## Contexts -/

/-- `LZ4_stream_t_internal` but for its `dictCtx`. -/
structure StreamData where
  hashTable : HashTable
  currentOffset : ℕ
  tableType : TableType
  dictionary : Bytes

/-- `dictSize` -/
def StreamData.dictSize (s : StreamData) : ℕ := s.dictionary.length

/-- `LZ4_stream_t` -/
structure LZ4Stream extends StreamData where
  dictCtx : Option StreamData

/-- `LZ4_initStream`, `LZ4_resetStream`: everything is zero. -/
def initStream : LZ4Stream := ⟨⟨fun _ => 0, 0, .clearedTable, []⟩, none⟩

/-- The first part of `LZ4_prepareTable`: a table that cannot be left as it is. -/
def resetTable (cctx : LZ4Stream) (inputSize : ℕ) (tableType : TableType) : LZ4Stream :=
  if cctx.tableType ≠ .clearedTable
      ∧ (cctx.tableType ≠ tableType
        ∨ (tableType = .byU16 ∧ u32 (cctx.currentOffset + inputSize) ≥ 0xFFFF)
        ∨ (tableType = .byU32 ∧ cctx.currentOffset > 2 ^ 30)
        ∨ inputSize ≥ 4096) then
    { cctx with hashTable := fun _ => 0, currentOffset := 0, tableType := .clearedTable }
  else cctx

/-- `LZ4_prepareTable` -/
def prepareTable (cctx : LZ4Stream) (inputSize : ℕ) (tableType : TableType) : LZ4Stream :=
  let cctx := resetTable cctx inputSize tableType
  -- a gap, so that all previous entries are too far back
  let currentOffset :=
    if cctx.currentOffset ≠ 0 ∧ tableType = .byU32 then u32 (cctx.currentOffset + 65536)
    else cctx.currentOffset
  { cctx with currentOffset := currentOffset, dictCtx := none, dictionary := [] }

/-- `LZ4_resetStream_fast` -/
def resetStreamFast (ctx : LZ4Stream) : LZ4Stream := prepareTable ctx 0 .byU32

/-- `LZ4_attach_dictionary` -/
def attachDictionary (working : LZ4Stream) (dictionaryStream : Option LZ4Stream) : LZ4Stream :=
  match dictionaryStream with
  | none => { working with dictCtx := none }
  | some d =>
      { working with
        currentOffset := if working.currentOffset = 0 then 65536 else working.currentOffset
        -- an empty dictionary is not attached
        dictCtx := if d.dictSize = 0 then none else some d.toStreamData }

/-! ## Loading a dictionary -/

/-- A loop of `LZ4_loadDict_internal`: every `step`-th place of the dictionary is entered,
where the table may be written. -/
def loadDictLoop (dict : Bytes) (step : ℕ) (write : ℕ → Bool) :
    ℕ → ℤ → ℕ → HashTable → Option HashTable
  | 0, _, _, _ => none
  | k + 1, p, idx32, table =>
      if p ≤ dict.length - 8 then do
        let h ← hashPosition dict p .byU32
        let table := if write (table h) then putIndexOnHash idx32 h table .byU32 else table
        loadDictLoop dict step write k (p + step) (idx32 + step) table
      else some table

/-- `LZ4_loadDict_internal` -/
def loadDictInternal (slow : Bool) (dictionary : Bytes) : Option LZ4Stream :=
  let dict : LZ4Stream := { initStream with currentOffset := 65536 }
  if dictionary.length < 8 then some dict
  else do
    let dictionary := dictionary.rtake 65536
    let idx32 := dict.currentOffset - dictionary.length
    let table ← loadDictLoop dictionary 3 (fun _ => true) (dictionary.length + 1) 0 idx32 dict.hashTable
    let table ←
      if slow then
        loadDictLoop dictionary 1 (fun i => i ≤ dict.currentOffset - 65536) (dictionary.length + 1) 0
          idx32 table
      else some table
    some { dict with hashTable := table, tableType := .byU32, dictionary := dictionary }

/-- `LZ4_loadDict` -/
def loadDict (dictionary : Bytes) : Option LZ4Stream := loadDictInternal false dictionary

/-- `LZ4_loadDictSlow` -/
def loadDictSlow (dictionary : Bytes) : Option LZ4Stream := loadDictInternal true dictionary

/-! ## Compressing -/

/-- `LZ4_renormDictT` -/
def renormDictT (s : LZ4Stream) (nextSize : ℕ) : LZ4Stream :=
  if u32 (s.currentOffset + nextSize) > 0x80000000 then
    let delta := u32 (s.currentOffset + 2 ^ 32 - 65536)
    { s with
      hashTable := fun h => if s.hashTable h < delta then 0 else s.hashTable h - delta
      currentOffset := 65536
      dictionary := s.dictionary.rtake 65536 }
  else s

/-- What `LZ4_compress_generic_validated` reads of its parameters and of the contexts. The
prefix of the source, if there is one, is the dictionary of the context. -/
def compEnv (cctx : LZ4Stream) (src : Bytes) (maxOutputSize : ℕ) (outputDirective : OutputDirective)
    (tableType : TableType) (dictDirective : DictDirective) (dictIssue : DictIssue)
    (acceleration : ℕ) : CompEnv :=
  let before := if dictDirective = .withPrefix64k then cctx.dictionary else []
  let dictCtx := cctx.dictCtx.getD cctx.toStreamData
  let dictionary := if dictDirective = .usingDictCtx then dictCtx.dictionary else cctx.dictionary
  { cur := before ++ src
    source := before.length
    maxOutputSize := maxOutputSize
    outputDirective := outputDirective
    tableType := tableType
    dictDirective := dictDirective
    dictIssue := dictIssue
    acceleration := acceleration
    startIndex := cctx.currentOffset
    dictionary := dictionary
    dictSize := dictionary.length
    dictTable := dictCtx.hashTable
    dictOffset := dictCtx.currentOffset }

/-- "Update context state": what a call leaves in the context. With a dictionary context
the caller sets `dictionary` itself. -/
def updateContext (cctx : LZ4Stream) (src : Bytes) (tableType : TableType)
    (dictDirective : DictDirective) (table : HashTable) : LZ4Stream :=
  let cctx : LZ4Stream :=
    if dictDirective = .usingDictCtx then { cctx with dictCtx := none, dictionary := src }
    else { cctx with dictionary := cctx.dictionary ++ src }
  { cctx with
    hashTable := table
    currentOffset := u32 (cctx.currentOffset + src.length)
    tableType := tableType }

/-- `LZ4_compress_generic` -/
def compressGeneric (cctx : LZ4Stream) (src mem : Bytes) (maxOutputSize : ℕ)
    (outputDirective : OutputDirective) (tableType : TableType) (dictDirective : DictDirective)
    (dictIssue : DictIssue) (acceleration : ℕ) : Option (ℕ × Bytes × LZ4Stream) :=
  if src.length > maxInputSize then some (0, mem, cctx)
  else if src.length = 0 then
    if outputDirective ≠ .notLimited ∧ maxOutputSize ≤ 0 then some (0, mem, cctx)
    else do
      let mem ← store mem 0 [0]
      some (1, mem, cctx)
  else do
    let e := compEnv cctx src maxOutputSize outputDirective tableType dictDirective dictIssue
      acceleration
    let (value, mem, table) ← compressGenericValidated e mem cctx.hashTable
    some (value, mem, updateContext cctx src tableType dictDirective table)

/-- How both entry points limit the acceleration. -/
def clampAcceleration (acceleration : ℤ) : ℕ :=
  if acceleration < 1 then 1 else if acceleration > 65537 then 65537 else acceleration.toNat

/-- `LZ4_compress_fast_extState`, and `LZ4_compress_fast` with a context of its own. -/
def compressFast (src mem : Bytes) (acceleration : ℤ) : Option (ℕ × Bytes) := do
  let acceleration := clampAcceleration acceleration
  let tableType := if src.length < limit64K then TableType.byU16 else .byU32
  let (value, mem, _) ←
    if mem.length ≥ compressBound src.length then
      compressGeneric initStream src mem 0 .notLimited tableType .noDict .noDictIssue acceleration
    else
      compressGeneric initStream src mem mem.length .limitedOutput tableType .noDict .noDictIssue
        acceleration
  some (value, mem)

/-- `LZ4_compress_fast_continue`; `adjacent` says that the dictionary ends where the source
begins. -/
def compressFastContinue (s : LZ4Stream) (src mem : Bytes) (acceleration : ℤ) (adjacent : Bool) :
    Option (ℕ × Bytes × LZ4Stream) := do
  let s := renormDictT s src.length
  let acceleration := clampAcceleration acceleration
  let isPrefix : Bool := if s.dictSize = 0 then src.length = 0 else adjacent
  -- invalidate tiny dictionaries
  let tiny : Bool := s.dictSize < 4 ∧ isPrefix = false ∧ src.length > 0 ∧ s.dictCtx = none
  let s : LZ4Stream := if tiny then { s with dictionary := [] } else s
  let dictIssue : DictIssue :=
    if s.dictSize < 65536 ∧ s.dictSize < s.currentOffset then .dictSmall else .noDictIssue
  if isPrefix ∨ tiny then
    compressGeneric s src mem mem.length .limitedOutput .byU32 .withPrefix64k dictIssue acceleration
  else do
    let (value, mem, s) ←
      match s.dictCtx with
      | some d =>
          if src.length > 4096 then
            compressGeneric ⟨d, none⟩ src mem mem.length .limitedOutput .byU32 .usingExtDict .noDictIssue
              acceleration
          else
            compressGeneric s src mem mem.length .limitedOutput .byU32 .usingDictCtx .noDictIssue
              acceleration
      | none =>
          compressGeneric s src mem mem.length .limitedOutput .byU32 .usingExtDict dictIssue acceleration
    some (value, mem, { s with dictionary := src })

end Plz4.Lz4
