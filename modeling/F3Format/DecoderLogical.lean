import F3Format.DecoderPhysical

/-!
# Logical column decoders

`decoder/logical.rs`: the decoder of a field mirrors the tree of its encoder.
A list zips its validity-and-offsets column with its values, a struct transposes
the columns of its fields.
-/

set_option autoImplicit false

namespace F3Format

open Lib

/-- `PrimitiveColDecoder`; `chunksMeta` are the chunks the iterator has left. -/
structure PrimitiveColDecoder where
  r : Bytes
  chunksMeta : List Fb.Chunk
  primitiveType : DataType
  wasmContext : Option WASMReadingContext
  sharedDictionaryCache : SharedDictionaryCache
  checksumType : Option ChecksumType

namespace PrimitiveColDecoder

/-- `read_chunk`. -/
def readChunk (env : Env) (d : PrimitiveColDecoder) (offset size : Nat)
    (checksum : Option UInt64) : Result Bytes := do
  let buf ← readExactAt d.r offset size
  match d.checksumType with
  | none => pure buf
  | some _ => do
      let checksum ← okOr (.general "No checksum in column meta for chunk at offset") checksum
      if checksum ≠ env.xxh64 buf then fail (.general "Checksum verification failed")
      else pure buf

/-- The chunk decoder for one chunk of the column. -/
def openChunk (env : Env) (d : PrimitiveColDecoder) (chunkMeta : Fb.Chunk) :
    Result ChunkDecoder := do
  let buf ← d.readChunk env chunkMeta.offset chunkMeta.size chunkMeta.checksum
  let encunits ← okOr (.general "No chunks in column meta") chunkMeta.encunits
  createPhysicalDecoder encunits chunkMeta.encoding d.primitiveType buf d.wasmContext
    (some d.sharedDictionaryCache)

/-- The arrays of one chunk. -/
def decodeChunk (env : Env) (d : PrimitiveColDecoder) (chunkMeta : Fb.Chunk) :
    Result (List ArrayRef) := do
  let decoder ← d.openChunk env chunkMeta
  decoder.drain env

/-- `decode_batch`. -/
def decodeBatch (env : Env) (d : PrimitiveColDecoder) : Result (List ArrayRef) := do
  let arrays ← collect (d.decodeChunk env) d.chunksMeta
  pure arrays.flatten

/-- The inner loop of `decode_row_at` over one chunk, for at most `fuel` rounds:
the arrays and how many rows they have. -/
def rowsOfChunk (env : Env) (rowIdInChunk : Nat) :
    Nat → ChunkDecoder → Nat → Result (List ArrayRef × Nat)
  | 0, _, _ => pure ([], 0)
  | fuel + 1, decoder, toDecode => do
      let (array, decoder) ← decoder.decodeRowAt env rowIdInChunk toDecode
      match array with
      | none => pure ([], 0)
      | some a => do
          let toDecode ← checkedSub toDecode a.len
          if toDecode = 0 then pure ([a], a.len)
          else do
            let (arrays, decoded) ← rowsOfChunk env rowIdInChunk fuel decoder toDecode
            pure (a :: arrays, a.len + decoded)

/-- The outer loop of `decode_row_at`. -/
def rowsOfChunks (env : Env) (d : PrimitiveColDecoder) (rowId : Nat) :
    List Fb.Chunk → Nat → Nat → Result (List ArrayRef)
  | [], _, _ => pure []
  | c :: cs, curRow, remaining => do
      if remaining = 0 then pure []
      else if curRow + c.numRows ≤ rowId then rowsOfChunks env d rowId cs (curRow + c.numRows) remaining
      else do
        let skipped ← checkedSub rowId curRow
        let available ← checkedSub c.numRows skipped
        let toDecode := min available remaining
        let decoder ← d.openChunk env c
        let (arrays, decoded) ← rowsOfChunk env skipped (decoder.units.length + 1) decoder toDecode
        let remaining ← checkedSub remaining decoded
        let rest ← rowsOfChunks env d rowId cs curRow remaining
        pure (arrays ++ rest)

/-- `decode_row_at`. -/
def decodeRowAt (env : Env) (d : PrimitiveColDecoder) (rowId len : Nat) :
    Result (List ArrayRef) :=
  d.rowsOfChunks env rowId d.chunksMeta 0 len

end PrimitiveColDecoder

/-- `Box<dyn LogicalColDecoder>`. -/
inductive LogicalColDecoder where
  | primitive (d : PrimitiveColDecoder)
  | list (field : Field) (validityOffsetsDecoder : PrimitiveColDecoder)
      (valuesDecoder : LogicalColDecoder)
  | struct (fields : List Field) (validityDecoder : PrimitiveColDecoder)
      (children : List LogicalColDecoder)

/-- `field_to_view`. -/
def fieldToView : Field → Field
  | .mk name (.prim .utf8) nullable => .mk name (.prim .utf8View) nullable
  | .mk name (.prim .largeUtf8) nullable => .mk name (.prim .utf8View) nullable
  | .mk name (.prim .binary) nullable => .mk name (.prim .binaryView) nullable
  | .mk name (.prim .largeBinary) nullable => .mk name (.prim .binaryView) nullable
  | f => f

/-- The list array built from a validity-and-offsets array and its values. -/
def rebuildList (field : Field) (p : ArrayRef × ArrayRef) : Result ArrayRef :=
  match field.dataType, p.1 with
  | .list child, .list false _ offsets _ nulls => do
      let offsets ← offsetBufferNew offsets
      listArrayNew false (fieldToView child) offsets p.2 nulls
  | .largeList child, .list true _ offsets _ nulls => do
      let offsets ← offsetBufferNew offsets
      listArrayNew true (fieldToView child) offsets p.2 nulls
  | .list _, _ => panicking "list array"
  | .largeList _, _ => panicking "list array"
  | _, _ => panicking "internal error: entered unreachable code"

/-- `transpose`: row `i` of the result holds the `i`-th array of every child. -/
def transpose (v : List (List ArrayRef)) : Result (List (List ArrayRef)) :=
  match v with
  | [] => panicking "assertion failed: !v.is_empty()"
  | first :: _ => collect (fun i => collect (fun n : List ArrayRef => unwrapSome n[i]?) v)
      (List.range first.length)

/-- The struct array built from a validity array and one array of each child. -/
def rebuildStruct (fields : List Field) (p : ArrayRef × List ArrayRef) : Result ArrayRef :=
  match p.1 with
  | .prim .boolean vs =>
      let nulls := if vs.isEmpty then none else some (boolValues vs)
      structArrayNew (fields.map fieldToView) p.2 nulls
  | _ => panicking "boolean array"

namespace LogicalColDecoder

mutual

/-- `LogicalColDecoder::decode_batch`. -/
def decodeBatch (env : Env) : LogicalColDecoder → Result (List ArrayRef)
  | primitive d => d.decodeBatch env
  | list field d values => do
      let validityOffsets ← d.decodeBatch env
      let values ← decodeBatch env values
      collect (rebuildList field) (validityOffsets.zip values)
  | struct fields d children => do
      let validity ← d.decodeBatch env
      let children ← decodeChildren env children
      let children ← transpose children
      collect (rebuildStruct fields) (validity.zip children)

/-- `decode_batch` on every child of a struct. -/
def decodeChildren (env : Env) : List LogicalColDecoder → Result (List (List ArrayRef))
  | [] => pure []
  | c :: cs => do
      let arrays ← decodeBatch env c
      let rest ← decodeChildren env cs
      pure (arrays :: rest)

end

/-- `LogicalColDecoder::decode_row_at`, a `todo!` for nested columns. -/
def decodeRowAt (env : Env) (rowId len : Nat) : LogicalColDecoder → Result (List ArrayRef)
  | primitive d => d.decodeRowAt env rowId len
  | list .. => panicking "not yet implemented"
  | struct .. => panicking "not yet implemented"

end LogicalColDecoder

/-! ## Building the tree -/

/-- The arguments `create_logical_decoder` passes down unchanged. -/
structure DecoderOptions where
  r : Bytes
  columnMetas : List Fb.ColumnMetadata
  wasmContext : Option WASMReadingContext
  sharedDictionaryCache : SharedDictionaryCache
  checksumType : Option ChecksumType

/-- The decoder of physical column `columnIndex`. -/
def DecoderOptions.primitive (o : DecoderOptions) (columnIndex : Nat) (primitiveType : DataType) :
    Result PrimitiveColDecoder := do
  let columnMeta ← unwrapSome (o.columnMetas[columnIndex]?)
  let chunks ← okOr (.general "No chunks in column meta") columnMeta.columnChunks
  pure ⟨o.r, chunks, primitiveType, o.wasmContext, o.sharedDictionaryCache, o.checksumType⟩

mutual

/-- `create_logical_decoder`, with the next column index passed and returned. -/
def createLogicalDecoder (o : DecoderOptions) : Field → Nat → Result (LogicalColDecoder × Nat)
  | .mk name dataType nullable, columnIdx =>
      createLogicalDecoderOf o name nullable dataType columnIdx

/-- The match of `create_logical_decoder` on the field's type. -/
def createLogicalDecoderOf (o : DecoderOptions) (name : String) (nullable : Bool) :
    DataType → Nat → Result (LogicalColDecoder × Nat)
  | .prim t, columnIdx => do
      let d ← o.primitive columnIdx (.prim t)
      if t.nonNest then pure (.primitive d, columnIdx + 1)
      else panicking "not yet implemented: Implement logical encoding for field"
  | .list child, columnIdx => do
      let d ← o.primitive columnIdx (.list child)
      let (values, next) ← createLogicalDecoder o child (columnIdx + 1)
      pure (.list (.mk name (.list child) nullable) d values, next)
  | .largeList child, columnIdx => do
      let d ← o.primitive columnIdx (.largeList child)
      let (values, next) ← createLogicalDecoder o child (columnIdx + 1)
      pure (.list (.mk name (.largeList child) nullable) d values, next)
  | .struct childFields, columnIdx => do
      let d ← o.primitive columnIdx (.prim .boolean)
      let (children, next) ← createLogicalDecoders o childFields (columnIdx + 1)
      pure (.struct childFields d children, next)

/-- `create_logical_decoder` on each field in order. -/
def createLogicalDecoders (o : DecoderOptions) :
    List Field → Nat → Result (List LogicalColDecoder × Nat)
  | [], columnIdx => pure ([], columnIdx)
  | f :: fs, columnIdx => do
      let (d, next) ← createLogicalDecoder o f columnIdx
      let (ds, next) ← createLogicalDecoders o fs next
      pure (d :: ds, next)

end

end F3Format
