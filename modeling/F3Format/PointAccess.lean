import F3Format.Reader

/-!
# Point access to a list of structs

`point_access_list_struct` of `reader/mod.rs` and the decoders
`create_list_struct_decoder` of `decoder/logical.rs` builds for it: one row of a
list of structs of leaves, and of its structs one field. The feature
`list-offsets-pushdown` is off, as in the default configuration.
-/

set_option autoImplicit false

namespace F3Format

open Lib

/-! ## Decoders -/

/-- Column `i` of some struct arrays. -/
def concatColumn (arrays : List ArrayRef) (i : Nat) : Result ArrayRef := do
  let parts ← collect (fun a => do
    let columns ← structColumns a
    index columns i) arrays
  ChunkDecoder.concatArrays parts

/-- `arrow::compute::concat` of struct arrays. -/
def concatStructs : List ArrayRef → Result ArrayRef
  | [] => fail (.external "concat requires input of at least one array")
  | [a] => .ok a
  | a :: b :: rest =>
      if (b :: rest).any fun c => decide (c.dataType ≠ a.dataType) then
        fail (.external "It is not possible to concatenate arrays of different data types")
      else
        match a with
        | .struct fields _ _ _ => do
            let arrays := a :: b :: rest
            let columns ← collect (concatColumn arrays) (List.range fields.length)
            pure (.struct fields columns
              (if arrays.any fun a => decide (a.nullCount > 0) then
                some (arrays.flatMap ArrayRef.validity) else none)
              (arrays.map ArrayRef.len).sum)
        | _ => fail (.nyi "the values of a list of structs are structs")

/-- `StructOfNonNestColDecoder`. -/
structure StructOfNonNestColDecoder where
  fields : List Field
  structValidityDecoder : PrimitiveColDecoder
  children : List PrimitiveColDecoder

/-- One row of a struct, with the field `projectIdx` only. -/
def StructOfNonNestColDecoder.rebuild (d : StructOfNonNestColDecoder) (projectIdx : Nat)
    (p : ArrayRef × ArrayRef) : Result ArrayRef := do
  let field ← index d.fields projectIdx
  rebuildStruct [field] (p.1, [p.2])

/-- `StructOfNonNestColDecoder::decode_batch_at_with_proj`. -/
def StructOfNonNestColDecoder.decodeBatchAtWithProj (env : Env) (d : StructOfNonNestColDecoder)
    (projectIdx rowId len : Nat) : Result (List ArrayRef) := do
  let validity ← d.structValidityDecoder.decodeRowAt env rowId len
  let child ← index d.children projectIdx
  let values ← child.decodeRowAt env rowId len
  collect (d.rebuild projectIdx) (validity.zip values)

/-- `ListStructColDecoder`. -/
structure ListStructColDecoder where
  field : Field
  validityOffsetsDecoder : PrimitiveColDecoder
  children : StructOfNonNestColDecoder

/-- The offsets and the validity of the list array a decoder is about to fill, with
the name and nullability of its structs and their fields. -/
def ListStructColDecoder.parts (d : ListStructColDecoder) (validityOffsets : ArrayRef) :
    Result (Field × List Field × List Nat × Option (List Bool)) :=
  match d.field.dataType with
  | .list child =>
      match child.dataType, validityOffsets with
      | .struct structFields, .list false _ offsets _ nulls => do
          let offsets ← offsetBufferNew offsets
          pure (child, structFields, offsets, nulls)
      | .struct _, _ => panicking "list array"
      | _, _ => panicking "internal error: entered unreachable code"
  | .largeList _ => panicking "not yet implemented"
  | _ => panicking "internal error: entered unreachable code"

/-- The lengths of the first `len` lists. -/
def firstLengths (offsets : List Nat) (len : Nat) : Result (List Nat) :=
  collect (fun i => do
    let stop ← index offsets (i + 1)
    let start ← index offsets i
    pure (stop - start)) (List.range len)

/-- The list array over the structs with one field. -/
def ListStructColDecoder.rebuild (child : Field) (structFields : List Field)
    (nulls : Option (List Bool)) (lengths : List Nat) (projectIdx : Nat)
    (values : List ArrayRef) : Result ArrayRef := do
  let field ← index structFields projectIdx
  let items ← concatStructs values
  listArrayNew false (.mk child.name (.struct [fieldToView field]) child.isNullable)
    (ChunkDecoder.offsetsFromLengths lengths) items nulls

/-- `ListStructColDecoder::decode_batch_at_with_proj`. -/
def ListStructColDecoder.decodeBatchAtWithProj (env : Env) (d : ListStructColDecoder)
    (projectIdx rowId len : Nat) : Result (List ArrayRef) := do
  let validityOffsets ← d.validityOffsetsDecoder.decodeRowAt env rowId len
  let validityOffsets ← ChunkDecoder.concatArrays validityOffsets
  let (child, structFields, offsets, nulls) ← d.parts validityOffsets
  let lengths ← firstLengths offsets len
  let first ← index offsets 0
  let last ← index offsets len
  let values ← d.children.decodeBatchAtWithProj env projectIdx first (last - first)
  let list ← ListStructColDecoder.rebuild child structFields nulls lengths projectIdx values
  pure [list]

/-- The decoders of the fields of the structs, for columns from `columnIdx` on. -/
def createFieldDecoders (o : DecoderOptions) (fields : List Field) (columnIdx : Nat) :
    Result (List PrimitiveColDecoder) :=
  collect (fun p : Field × Nat => unwrap (o.primitive (columnIdx + p.2) p.1.dataType))
    fields.zipIdx

/-- The fields of the structs in a list, if they are leaves. -/
def listStructFields : DataType → Result (List Field)
  | .list child | .largeList child =>
      match child.dataType with
      | .struct fields =>
          if fields.all fun f => f.dataType.nonNest then .ok fields
          else panicking "wrong type in create_list_struct_decoder"
      | _ => panicking "wrong type in create_list_struct_decoder"
  | _ => panicking "wrong type in create_list_struct_decoder"

/-- `create_list_struct_decoder`. Its decoders all get `checksum_type: None`,
whatever the caller asked for. -/
def createListStructDecoder (o : DecoderOptions) (field : Field) (columnIdx : Nat) :
    Result ListStructColDecoder := do
  let o := { o with checksumType := none }
  let validityOffsets ← o.primitive columnIdx field.dataType
  let fields ← listStructFields field.dataType
  let structValidity ← o.primitive (columnIdx + 1) (.prim .boolean)
  let children ← createFieldDecoders o fields (columnIdx + 2)
  pure ⟨field, validityOffsets, fields, structValidity, children⟩

/-! ## The access -/

namespace FileReaderV2

/-- The batch of one row group of `point_access_list_struct`. -/
def pointBatch (arrays : List ArrayRef) : Result RecordBatch := do
  let column ← unwrap (ChunkDecoder.concatArrays arrays)
  unwrap (RecordBatch.tryNew [.mk "item" column.dataType (decide (column.nullCount ≠ 0))] [column])

/-- One row group of `point_access_list_struct`. -/
def pointRowGroup (env : Env) (r : FileReaderV2) (cache : SharedDictionaryCache)
    (colLeafId : Nat) (colField : Field) (rowId : Nat) (g : GroupedColumnMetadata) :
    Result RecordBatch := do
  let d ← createListStructDecoder
    ⟨r.reader, g.columnMetadatas, r.wasmContext, cache, r.checksumType⟩ colField 0
  let arrays ← d.decodeBatchAtWithProj env colLeafId rowId 1
  pointBatch arrays

/-- `point_access_list_struct`. -/
def pointAccessListStruct (env : Env) (r : FileReaderV2) (colLeafId : Nat) (colField : Field)
    (rowId : Nat) : Result (List RecordBatch) := do
  let footer ← Footer.tryNewWithProjection env r.rowGroupCntNPointers
    r.groupedColumnMetadataBuffers r.schema
  let cache ← unwrapSome r.sharedDictionaryCache
  collect (r.pointRowGroup env cache colLeafId colField rowId) footer.rowGroupMetadatas

end FileReaderV2

end F3Format
