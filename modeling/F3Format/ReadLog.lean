import F3Format.Lib.Logged
import F3Format.PointAccess

/-!
# What a reader decodes

The functions of the reader that read chunks, with a log of the chunks whose
bytes they hand to a decoder. Each is the function of the same name, with a
record where the bytes of a chunk are read; without its log it is that function
(`erase_*`).
-/

set_option autoImplicit false

namespace F3Format

open Lib Lib.Logged

/-- A chunk whose bytes are decoded: the checksum recorded for it, and the bytes read. -/
structure ReadChunk where
  checksum : Option UInt64
  bytes : Bytes
  deriving DecidableEq, Repr

/-- A computation of the reader with the chunks it decodes. -/
abbrev ReadLog (α : Type) := Logged Fault ReadChunk α

theorem erase_collect {α β : Type} (f : α → ReadLog β) (xs : List α) :
    erase (Logged.collect f xs) = F3Format.collect (fun x => erase (f x)) xs := by
  induction xs with
  | nil => rfl
  | cons x xs ih =>
      rw [Logged.collect, F3Format.collect]
      simp only [erase_bind, erase_pure, ih, pure_eq_ok]

namespace ReadLog

/-! ## Columns -/

/-- `PrimitiveColDecoder.openChunk`. -/
def openChunk (env : Env) (d : PrimitiveColDecoder) (c : Fb.Chunk) : ReadLog ChunkDecoder := do
  let buf ← lift (d.readChunk env c.offset c.size c.checksum)
  record ⟨c.checksum, buf⟩
  let encunits ← lift (okOr (.general "No chunks in column meta") c.encunits)
  lift (createPhysicalDecoder encunits c.encoding d.primitiveType buf d.wasmContext
    (some d.sharedDictionaryCache))

/-- `PrimitiveColDecoder.decodeChunk`. -/
def decodeChunk (env : Env) (d : PrimitiveColDecoder) (c : Fb.Chunk) :
    ReadLog (List ArrayRef) := do
  let decoder ← openChunk env d c
  lift (decoder.drain env)

/-- `PrimitiveColDecoder.decodeBatch`. -/
def decodePrimitive (env : Env) (d : PrimitiveColDecoder) : ReadLog (List ArrayRef) := do
  let arrays ← Logged.collect (decodeChunk env d) d.chunksMeta
  pure arrays.flatten

/-- `PrimitiveColDecoder.rowsOfChunks`. -/
def rowsOfChunks (env : Env) (d : PrimitiveColDecoder) (rowId : Nat) :
    List Fb.Chunk → Nat → Nat → ReadLog (List ArrayRef)
  | [], _, _ => pure []
  | c :: cs, curRow, remaining => do
      if remaining = 0 then pure []
      else if curRow + c.numRows ≤ rowId then rowsOfChunks env d rowId cs (curRow + c.numRows) remaining
      else do
        let skipped ← lift (checkedSub rowId curRow)
        let available ← lift (checkedSub c.numRows skipped)
        let decoder ← openChunk env d c
        let (arrays, decoded) ← lift (PrimitiveColDecoder.rowsOfChunk env skipped
          (decoder.units.length + 1) decoder (min available remaining))
        let remaining ← lift (checkedSub remaining decoded)
        let rest ← rowsOfChunks env d rowId cs curRow remaining
        pure (arrays ++ rest)

/-- `PrimitiveColDecoder.decodeRowAt`. -/
def decodeRowAt (env : Env) (d : PrimitiveColDecoder) (rowId len : Nat) :
    ReadLog (List ArrayRef) := rowsOfChunks env d rowId d.chunksMeta 0 len

mutual

/-- `LogicalColDecoder.decodeBatch`. -/
def decodeBatch (env : Env) : LogicalColDecoder → ReadLog (List ArrayRef)
  | .primitive d => decodePrimitive env d
  | .list field d values => do
      let validityOffsets ← decodePrimitive env d
      let values ← decodeBatch env values
      lift (F3Format.collect (rebuildList field) (validityOffsets.zip values))
  | .struct fields d children => do
      let validity ← decodePrimitive env d
      let children ← decodeChildren env children
      let children ← lift (transpose children)
      lift (F3Format.collect (rebuildStruct fields) (validity.zip children))

/-- `LogicalColDecoder.decodeChildren`. -/
def decodeChildren (env : Env) : List LogicalColDecoder → ReadLog (List (List ArrayRef))
  | [] => pure []
  | c :: cs => do
      let arrays ← decodeBatch env c
      let rest ← decodeChildren env cs
      pure (arrays :: rest)

end

/-- `LogicalColDecoder.decodeRowAt`. -/
def decodeLogicalRowAt (env : Env) (rowId len : Nat) : LogicalColDecoder → ReadLog (List ArrayRef)
  | .primitive d => decodeRowAt env d rowId len
  | .list .. => lift (panicking "not yet implemented")
  | .struct .. => lift (panicking "not yet implemented")

/-- `decodeSelected`. -/
def decodeSelected (env : Env) (decoder : LogicalColDecoder) : Selection → ReadLog (List ArrayRef)
  | .all => decodeBatch env decoder
  | .rowIndexes rows => do
      let row ← lift (index rows 0)
      decodeLogicalRowAt env row 1 decoder

/-- `decodeCols`. -/
def decodeCols (env : Env) (o : DecoderOptions) (selection : Selection) :
    List (Result Field) → Nat → ReadLog (List (List ArrayRef))
  | [], _ => pure []
  | field :: fields, columnIdx => do
      let field ← lift field
      let (decoder, next) ← lift (createLogicalDecoder o field columnIdx)
      let arrays ← decodeSelected env decoder selection
      let columns ← decodeCols env o selection fields next
      pure (arrays :: columns)

/-- `FileReaderV2.readRowGroup`. -/
def readRowGroup (env : Env) (r : FileReaderV2) (schema : List Field)
    (cache : SharedDictionaryCache) (p : GroupedColumnMetadata × Selection) :
    ReadLog (List RecordBatch) := do
  let columns ← decodeCols env ⟨r.reader, p.1.columnMetadatas, r.wasmContext, cache, r.checksumType⟩
    p.2 (projectedFields schema r.projections) 0
  lift (assembleBatches schema columns)

/-- `FileReaderV2.readFile`. -/
def readFile (env : Env) (r : FileReaderV2) : ReadLog (List RecordBatch) := do
  let footer ← lift (Footer.tryNewWithProjection env r.rowGroupCntNPointers
    r.groupedColumnMetadataBuffers r.schema)
  let cache ← lift (unwrapSome r.sharedDictionaryCache)
  let batches ← Logged.collect (readRowGroup env r footer.schema cache)
    (processSelection r.selection footer.rowGroupMetadatas)
  pure batches.flatten

section Erase

variable (env : Env)

@[simp] theorem erase_openChunk (d : PrimitiveColDecoder) (c : Fb.Chunk) :
    erase (openChunk env d c) = d.openChunk env c := by
  simp only [openChunk, PrimitiveColDecoder.openChunk, erase_bind, erase_lift, erase_record,
    ok_bind]

@[simp] theorem erase_decodePrimitive (d : PrimitiveColDecoder) :
    erase (decodePrimitive env d) = d.decodeBatch env := by
  have hchunk : (fun c => erase (decodeChunk env d c)) = d.decodeChunk env := by
    funext c
    simp only [decodeChunk, PrimitiveColDecoder.decodeChunk, erase_bind, erase_openChunk,
      erase_lift]
  simp only [decodePrimitive, PrimitiveColDecoder.decodeBatch, erase_bind, erase_collect, hchunk,
    erase_pure, pure_eq_ok]

theorem erase_rowsOfChunks (d : PrimitiveColDecoder) (rowId : Nat) (cs : List Fb.Chunk)
    (curRow remaining : Nat) :
    erase (rowsOfChunks env d rowId cs curRow remaining) =
      d.rowsOfChunks env rowId cs curRow remaining := by
  induction cs generalizing curRow remaining with
  | nil => rfl
  | cons c cs ih =>
      rw [rowsOfChunks, PrimitiveColDecoder.rowsOfChunks]
      split
      · rfl
      · split
        · exact ih _ _
        · simp only [erase_bind, erase_lift, erase_openChunk, erase_pure, ih, pure_eq_ok]

@[simp] theorem erase_decodeRowAt (d : PrimitiveColDecoder) (rowId len : Nat) :
    erase (decodeRowAt env d rowId len) = d.decodeRowAt env rowId len :=
  erase_rowsOfChunks env d rowId d.chunksMeta 0 len

mutual

theorem erase_decodeBatch : ∀ d : LogicalColDecoder,
    erase (decodeBatch env d) = LogicalColDecoder.decodeBatch env d
  | .primitive d => erase_decodePrimitive env d
  | .list field d values => by
      rw [decodeBatch, LogicalColDecoder.decodeBatch]
      simp only [erase_bind, erase_decodePrimitive, erase_decodeBatch values, erase_lift]
  | .struct fields d children => by
      rw [decodeBatch, LogicalColDecoder.decodeBatch]
      simp only [erase_bind, erase_decodePrimitive, erase_decodeChildren children, erase_lift]

theorem erase_decodeChildren : ∀ ds : List LogicalColDecoder,
    erase (decodeChildren env ds) = LogicalColDecoder.decodeChildren env ds
  | [] => rfl
  | d :: ds => by
      rw [decodeChildren, LogicalColDecoder.decodeChildren]
      simp only [erase_bind, erase_decodeBatch d, erase_decodeChildren ds, erase_pure, pure_eq_ok]

end

@[simp] theorem erase_decodeSelected (d : LogicalColDecoder) (selection : Selection) :
    erase (decodeSelected env d selection) = F3Format.decodeSelected env d selection := by
  cases selection with
  | all => exact erase_decodeBatch env d
  | rowIndexes rows =>
      have hrow : ∀ row, erase (decodeLogicalRowAt env row 1 d) = d.decodeRowAt env row 1 := by
        intro row
        cases d with
        | primitive d => exact erase_decodeRowAt env d row 1
        | list field d values => rfl
        | struct fields d children => rfl
      simp only [decodeSelected, F3Format.decodeSelected, erase_bind, erase_lift, hrow]

theorem erase_decodeCols (o : DecoderOptions) (selection : Selection)
    (fields : List (Result Field)) (columnIdx : Nat) :
    erase (decodeCols env o selection fields columnIdx) =
      F3Format.decodeCols env o selection fields columnIdx := by
  induction fields generalizing columnIdx with
  | nil => rfl
  | cons field fields ih =>
      rw [decodeCols, F3Format.decodeCols]
      simp only [erase_bind, erase_lift, erase_decodeSelected, ih, erase_pure, pure_eq_ok]

/-- Without its log, the reader is the reader. -/
@[simp] theorem erase_readFile (r : FileReaderV2) : erase (readFile env r) = r.readFile env := by
  have hgroup : ∀ schema cache,
      (fun p => erase (readRowGroup env r schema cache p)) = r.readRowGroup env schema cache := by
    intro schema cache
    funext p
    simp only [readRowGroup, FileReaderV2.readRowGroup, erase_bind, erase_decodeCols, erase_lift]
  simp only [readFile, FileReaderV2.readFile, FileReaderV2.readFileBasedOnFooter, erase_bind,
    erase_lift, erase_collect, hgroup, erase_pure, pure_eq_ok]

end Erase

end ReadLog

end F3Format
