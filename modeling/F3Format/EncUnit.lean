import F3Format.Context

/-!
# Encoding units

An EncUnit is the unit of encoding: one array turned into bytes by Vortex or by
a custom library. This file holds the Vortex framing of
`fff-encoding/src/schemes/vortex.rs`, the choice of the encoder
(`encoder/encunit.rs`), the serialised unit with its metadata, and the choice
and run of the decoder (`decoder/encunit.rs`). The feature
`list-offsets-pushdown` is off, as in the default configuration.
-/

set_option autoImplicit false

namespace F3Format

open Lib

/-! ## Vortex framing -/

/-- `VORTEX_ALIGNMENT`. -/
def vortexAlignment : Nat := 64

/-- `padding_size`. -/
def paddingSize (size alignment : Nat) : Nat :=
  (size + alignment - 1) / alignment * alignment - size

/-- `VortexEncoder::encode_arr`, as the list of buffers it returns: the length of
the dtype message, the message, padding, and the array message. -/
def encodeArr (env : Env) (enableDict : Bool) (arr : ArrayRef) : Result (List Bytes) := do
  let (dtypeBuf, w) ← liftErr (env.vortex.messages enableDict arr)
  let dtypeSize := leEncode 4 dtypeBuf.length
  let writtenLen := dtypeBuf.length + dtypeSize.length
  pure [dtypeSize, dtypeBuf, List.replicate (paddingSize writtenLen vortexAlignment) 0, w]

/-- The validity bits the list encoders write: all set when there is no null buffer. -/
def listValidity (offsets : List Nat) (nulls : Option (List Bool)) : List Bool :=
  nulls.getD (List.replicate (offsets.length - 1) true)

/-- `VortexEncoder::list_encode`: validity, then the offset buffer as it stands. -/
def listEncode (env : Env) (enableDict : Bool) : ArrayRef → Result (List Bytes)
  | .list large _ offsets _ nulls => do
      let res ← encodeArr env enableDict (boolArray (listValidity offsets nulls))
      let more ← encodeArr env enableDict (offsetsArray large offsets)
      pure (res ++ more)
  | _ => panicking "wrong type in list_encode"

/-- `VortexEncoder::list_struct_encode`. -/
def listStructEncode (env : Env) (enableDict : Bool) :
    ArrayRef → ArrayRef → Result (List Bytes)
  | .list large _ offsets _ nulls, field => do
      let res ← encodeArr env enableDict (boolArray (listValidity offsets nulls))
      let more ← encodeArr env enableDict (offsetsArray large offsets)
      let last ← encodeArr env enableDict field
      pure (res ++ more ++ last)
  | _, _ => panicking "wrong type in list_encode"

/-- `vortex_deser`: reads one array from the front and returns what follows it. -/
def vortexDeser (env : Env) (encblock : Bytes) : Result (ArrayRef × Bytes) := do
  let (sizeBuf, encblock) ← splitTo encblock 4
  let metadataSize := leDecode sizeBuf
  let (dtypeBytes, encblock) ← splitTo encblock metadataSize
  let (_, encblock) ← splitTo encblock (paddingSize (metadataSize + 4) vortexAlignment)
  liftErr (env.vortex.readArray dtypeBytes encblock)

/-! ## Encoders -/

/-- The two encoders `create_encunit_encoder` can return. -/
inductive EncUnitEncoder where
  | custom (libPath : String)
  | vortex (enableDict : Bool)
  deriving DecidableEq, Repr

namespace EncUnitEncoder

/-- `Encoder::encode`; the buffers of the unit. -/
def encode (env : Env) : EncUnitEncoder → ArrayRef → Result (List Bytes)
  | custom path, arr => do
      let encoded ← env.customEncode path arr
      pure [encoded]
  | vortex enableDict, arr =>
      match arr with
      | .prim t _ =>
          if t.nonNest then encodeArr env enableDict arr
          else panicking "Vortex encoding for this type"
      | .list .. => listEncode env enableDict arr
      | .struct .. => panicking "Vortex encoding for this type"

/-- `encoder.encoding_type().to_fbs_encoding()`. -/
def encodingType : EncUnitEncoder → EncodingType
  | custom _ => .customWasm
  | vortex _ => .cascade

end EncUnitEncoder

/-- `create_encunit_encoder`. -/
def createEncunitEncoder (w : WASMWritingContext) (dataType : DataType) (enableDict : Bool) :
    EncUnitEncoder :=
  match w.dataTypeToWasmLib dataType with
  | some lib => .custom lib.encodeLibPath
  | none => .vortex enableDict

/-- `encode_to_bytes`. -/
def encodeToBytes (env : Env) (encoder : EncUnitEncoder) (arr : ArrayRef) : Result Bytes := do
  let buffers ← unwrap (encoder.encode env arr)
  pure buffers.flatten

/-- The `footer::Encoding` every push site builds for a unit: `wasmKey` is the
data type looked up in the writing context. -/
def unitEncoding (w : WASMWritingContext) (encodingType : EncodingType) (wasmKey : DataType) :
    Encoding where
  encodingType := if w.alwaysSetCustomWasmForBuiltIn then .customWasm else encodingType
  wasmEncoding :=
    (if w.alwaysSetCustomWasmForBuiltIn then w.builtinWasmId else w.dataTypeToWasmId wasmKey).map
      fun id => ⟨id, []⟩

/-- `SerializedEncUnit`. -/
structure SerializedEncUnit where
  bytes : Bytes
  numRows : Nat
  encoding : Encoding
  compressionType : CompressionType
  deriving DecidableEq, Repr

/-- The steps common to the sites that push a unit: pick the encoder by the
array's type, encode, compress with `applied`, and label the unit with
`recorded`. The sites differ in these parameters only. -/
def encodeEncUnit (env : Env) (w : WASMWritingContext) (enableDict : Bool)
    (applied recorded : CompressionType) (wasmKey : DataType) (arr : ArrayRef) :
    Result SerializedEncUnit := do
  let encoder := createEncunitEncoder w arr.dataType enableDict
  let encUnit ← encodeToBytes env encoder arr
  let compressed ← compressData env encUnit applied
  pure ⟨compressed, u32 arr.len, unitEncoding w encoder.encodingType wasmKey, recorded⟩

/-- The bytes an encoder produced for `arr`, before compression. -/
def unitPayload (env : Env) (w : WASMWritingContext) (enableDict : Bool) (arr : ArrayRef) :
    Result Bytes :=
  encodeToBytes env (createEncunitEncoder w arr.dataType enableDict) arr

/-- `EncodedColumnChunk`. -/
structure EncodedColumnChunk where
  encunits : List SerializedEncUnit
  numRows : Nat
  dictEncoding : DictionaryEncoding
  columnIndex : Nat
  deriving DecidableEq, Repr

namespace EncodedColumnChunk

/-- `EncodedColumnChunk::default()`, which `std::mem::take` leaves behind. -/
def default : EncodedColumnChunk := ⟨[], 0, .noDictionary, 0⟩

/-- `EncodedColumnChunk::builder().set_dict_encoding(d).build()`. -/
def withDictEncoding (d : DictionaryEncoding) : EncodedColumnChunk := { default with dictEncoding := d }

/-- `encunits.push(unit); num_rows += rows`. -/
def push (c : EncodedColumnChunk) (unit : SerializedEncUnit) (rows : Nat) : EncodedColumnChunk :=
  { c with encunits := c.encunits ++ [unit], numRows := c.numRows + rows }

/-- `update_column_index`. -/
def updateColumnIndex (c : EncodedColumnChunk) (columnIndex : Nat) : EncodedColumnChunk :=
  { c with columnIndex := columnIndex }

/-- The bytes of the chunk's units, in order. -/
def bytes (c : EncodedColumnChunk) : Bytes := (c.encunits.map SerializedEncUnit.bytes).flatten

end EncodedColumnChunk

/-! ## Decoders -/

/-- `DUMMY_NULL_FIELD`. -/
def dummyNullField : Field := .mk "dummy" (.prim .null) true

/-- `OffsetBuffer::new`. -/
def offsetBufferNew (offsets : List Nat) : Result (List Nat) :=
  if offsets.isEmpty then panicking "offsets cannot be empty"
  else if monotone offsets then .ok offsets
  else panicking "offsets must be monotonically increasing"

/-- `new_list_offsets_validity_from_buffers` without a child array. -/
def newListOffsetsValidityFromBuffers (large : Bool) (validity : List Bool) (offsets : List Nat)
    (numRows : Nat) : Result ArrayRef := do
  let nulls := if validity.isEmpty then none else some (validity.take numRows)
  if offsets.length < numRows + 1 then panicking "the offset of the new Buffer cannot exceed"
  else
    let dataBuffer := offsets.take (numRows + 1)
    let maxOffset := dataBuffer.getLastD 0
    let offsets ← offsetBufferNew dataBuffer
    listArrayNew large dummyNullField offsets (.prim .null (List.replicate maxOffset none)) nulls

/-- `VortexListDecoder`: validity and offsets, over dummy values. -/
def vortexListDecode (env : Env) (large : Bool) (data : Bytes) : Result ArrayRef := do
  let (validityArray, encblock) ← vortexDeser env data
  let (offsetsArray, _) ← vortexDeser env encblock
  match validityArray with
  | .prim .boolean vs =>
      newListOffsetsValidityFromBuffers large (boolValues vs) (offsetValues offsetsArray.rows)
        vs.length
  | _ => panicking "called `Option::unwrap()` on a `None` value"

/-- The decoders `create_encunit_decoder` can return. -/
inductive EncUnitDecoder where
  | wasm (data : Bytes) (rt : Bytes) (outputType : DataType) (numRows : Nat)
  | vortex (data : Bytes) (outputType : DataType)

/-- `EncUnitDecoder::decode`. -/
def EncUnitDecoder.decode (env : Env) : EncUnitDecoder → Result ArrayRef
  | wasm data rt outputType numRows =>
      if outputType.nonNest then env.wasmDecode rt data outputType numRows
      else panicking "not implemented"
  | vortex data outputType =>
      match outputType with
      | .prim t =>
          if t.nonNest then do
            let (array, _) ← vortexDeser env data
            pure array
          else panicking "not implemented"
      | .list _ => vortexListDecode env false data
      | .largeList _ => vortexListDecode env true data
      | .struct _ => panicking "not implemented"

/-- The closure `return_wasm_decoder` of `create_encunit_decoder`. -/
def returnWasmDecoder (env : Env) (encoding : Fb.Encoding) (data : Bytes) (outputType : DataType)
    (wasmContext : WASMReadingContext) (numRows : Nat) : Result EncUnitDecoder := do
  let e ← okOr (.general "not provided custom WASM in the file") encoding.wasmEncoding
  let rt ← wasmContext.getRuntime env e.wasmId
  pure (.wasm data rt outputType numRows)

/-- The bytes of a unit, decompressed if it is labelled as compressed. -/
def unitData (env : Env) (compressionType : CompressionType) (data : Bytes) : Result Bytes :=
  if compressionType ≠ .uncompressed then decompressData env data compressionType else pure data

/-- Decompression by the label of a unit inverts the compression. -/
theorem unitData_of_compressData {env : Env} (laws : env.CompressionLaws) {payload out : Bytes}
    {c : CompressionType} (h : compressData env payload c = .ok out) :
    unitData env c out = .ok payload := by
  unfold unitData
  by_cases hc : c ≠ .uncompressed
  · rw [if_pos hc]
    exact decompressData_of_compressData laws h
  · rw [if_neg hc]
    have hnone : c = .uncompressed := not_not.1 hc
    subst hnone
    cases h
    rfl

/-- Whether a reader whose decoder has version `reader` must fall back to the
decoder in the file: the unit is newer, and of another major version or of
major version 0. -/
def fallsBackToWasm (reader unit : Version) : Bool :=
  reader.lt unit && (decide (reader.major ≠ unit.major) || decide (reader.major = 0))

/-- `create_encunit_decoder`. -/
def createEncunitDecoder (env : Env) (encoding : Fb.Encoding) (compressionType : CompressionType)
    (data : Bytes) (numRows : Nat) (outputType : DataType)
    (wasmContext : Option WASMReadingContext) : Result EncUnitDecoder := do
  let data ← unitData env compressionType data
  match encoding.type_ with
  | .cascade =>
      let wasmContext ← okOr (.general "WASM context not found") wasmContext
      let versions ← okOr (.general "Encoding versions not found") wasmContext.encodingVersions
      let version ← okOr (.general "Encoding version not found") (versions.lookup encoding.type_)
      let readerVersion ← unwrapSome (defaultEncodingVersions.lookup encoding.type_)
      if fallsBackToWasm readerVersion version then
        returnWasmDecoder env encoding data outputType wasmContext numRows
      else pure (.vortex data outputType)
  | .customWasm =>
      match wasmContext with
      | some wasmContext => returnWasmDecoder env encoding data outputType wasmContext numRows
      | none => fail (.general "WASM context required for custom encoding")
  | .unknown _ => panicking "not implemented"

end F3Format
