import F3Format.SharedDictionary

/-!
# Physical column encoders

`encoder/physical.rs`: the encoders that buffer the units or the arrays of one
physical column and cut them into chunks. A call works on the encoder, the
column's counter, the shared-dictionary context and the position of the random
generator, which `Working` joins; the state reached is kept when a call fails.
-/

set_option autoImplicit false

namespace F3Format

open Lib

/-- An encoder with what its methods mutate besides it. -/
structure Working (E : Type) where
  enc : E
  counter : EncodingCounter
  ctx : SharedDictionaryContext
  rng : Nat

/-- The computation of a method of the encoder type `E`. -/
abbrev EncAct (E α : Type) := Act Fault (Working E) α

/-- The encoder `E` seen inside an encoder `F`. -/
def Working.embed {E F : Type} (wrap : E → F) (t : Working E) : Working F :=
  ⟨wrap t.enc, t.counter, t.ctx, t.rng⟩

/-- Runs a method of the wrapped encoder `e`. -/
def delegate {E F α : Type} (wrap : E → F) (e : E) (x : EncAct E α) : EncAct F α :=
  Act.zoom (fun s => ⟨e, s.counter, s.ctx, s.rng⟩) (fun _ t => t.embed wrap) x

/-! ## Units without a dictionary -/

/-- `EncoderDictColEncoder`. -/
structure EncoderDictColEncoder where
  accumulatedChunk : EncodedColumnChunk
  accumulatedSize : Nat
  columnChunkSize : Nat
  wasmContext : WASMWritingContext
  enableDict : Bool
  compressionType : CompressionType

namespace EncoderDictColEncoder

/-- `EncoderDictColEncoder::new`. -/
def new (columnChunkSize : Nat) (wasmContext : WASMWritingContext) (enableDict : Bool)
    (compressionType : CompressionType) : EncoderDictColEncoder :=
  ⟨.withDictEncoding .noDictionary, 0, columnChunkSize, wasmContext, enableDict, compressionType⟩

/-- `encode`. -/
def encode (env : Env) (array : ArrayRef) :
    EncAct EncoderDictColEncoder (List EncodedColumnChunk) := do
  let s ← get
  let unit ← Act.lift (encodeEncUnit env s.enc.wasmContext s.enc.enableDict
    s.enc.compressionType s.enc.compressionType array.dataType array)
  let size := s.enc.accumulatedSize + unit.bytes.length
  let chunk := s.enc.accumulatedChunk.push unit array.len
  let counter := { s.counter with indexSize := s.counter.indexSize + unit.bytes.length }
  if size > s.enc.columnChunkSize then do
    set { s with
      enc := { s.enc with accumulatedChunk := .default, accumulatedSize := 0 }
      counter := counter }
    pure [chunk]
  else do
    set { s with
      enc := { s.enc with accumulatedChunk := chunk, accumulatedSize := size }
      counter := counter }
    pure []

/-- `memory_size`. -/
def memorySize (e : EncoderDictColEncoder) : Nat := e.accumulatedSize

/-- `finish`. -/
def finish : EncAct EncoderDictColEncoder (List EncodedColumnChunk) := do
  let s ← get
  let counter := { s.counter with dictType := .encoderDictionary }
  if s.enc.accumulatedChunk.encunits.isEmpty then do
    set { s with counter := counter }
    pure []
  else do
    set { s with
      enc := { s.enc with accumulatedChunk := .default, accumulatedSize := 0 }
      counter := counter }
    pure [s.enc.accumulatedChunk]

end EncoderDictColEncoder

/-- `ListOfStructColEncoder`, built only with the feature `list-offsets-pushdown`. -/
structure ListOfStructColEncoder where
  accumulatedChunk : EncodedColumnChunk
  accumulatedSize : Nat
  columnChunkSize : Nat
  wasmContext : WASMWritingContext
  compressionType : CompressionType

namespace ListOfStructColEncoder

/-- `ListOfStructColEncoder::new`. -/
def new (columnChunkSize : Nat) (wasmContext : WASMWritingContext)
    (compressionType : CompressionType) : ListOfStructColEncoder :=
  ⟨.withDictEncoding .noDictionary, 0, columnChunkSize, wasmContext, compressionType⟩

/-- The unit `encode` pushes for a list array and one field of its structs. -/
def unit (env : Env) (w : WASMWritingContext) (compressionType : CompressionType)
    (listArray field : ArrayRef) : Result SerializedEncUnit := do
  let buffers ← unwrap (listStructEncode env true listArray field)
  let compressed ← compressData env buffers.flatten compressionType
  pure ⟨compressed, u32 listArray.len, unitEncoding w .cascade listArray.dataType,
    compressionType⟩

/-- `encode`. -/
def encode (env : Env) (listArray field : ArrayRef) :
    Act Fault ListOfStructColEncoder (Option EncodedColumnChunk) := do
  let e ← get
  let u ← Act.lift (unit env e.wasmContext e.compressionType listArray field)
  let size := e.accumulatedSize + u.bytes.length
  let chunk := e.accumulatedChunk.push u listArray.len
  if size > e.columnChunkSize then do
    set { e with accumulatedChunk := .default, accumulatedSize := 0 }
    pure (some chunk)
  else do
    set { e with accumulatedChunk := chunk, accumulatedSize := size }
    pure none

/-- `memory_size`. -/
def memorySize (e : ListOfStructColEncoder) : Nat := e.accumulatedSize

/-- `finish`, which leaves `accumulated_size` as it is. -/
def finish : Act Fault ListOfStructColEncoder (Option EncodedColumnChunk) := do
  let e ← get
  if e.accumulatedChunk.encunits.isEmpty then pure none
  else do
    set { e with accumulatedChunk := .default }
    pure (some e.accumulatedChunk)

end ListOfStructColEncoder

/-! ## Local dictionaries -/

/-- The unsigned type `cast_index_dtype` picks for a dictionary length. -/
def indexDtype (dictLen : Nat) : PrimType :=
  if dictLen < 2 ^ 8 then .uint8
  else if dictLen < 2 ^ 16 then .uint16
  else if dictLen < 2 ^ 32 then .uint32
  else .uint64

/-- `y as uN` on a value of an index array. -/
def castIndexValue (t : PrimType) : Scalar → Scalar
  | .int i =>
      match t with
      | .uint8 => .int (i % 2 ^ 8)
      | .uint16 => .int (i % 2 ^ 16)
      | .uint32 => .int (i % 2 ^ 32)
      | _ => .int i
  | v => v

/-- `cast_index_dtype`. -/
def castIndexDtype (indexArray : ArrayRef) (dictLen : Nat) : ArrayRef :=
  let t := indexDtype dictLen
  .prim t (indexArray.rows.map fun o => o.map (castIndexValue t))

/-- `DictColEncoder`. -/
structure DictColEncoder where
  accumulatedChunk : EncodedColumnChunk
  accumulatedSize : Nat
  columnChunkSize : Nat
  wasmContext : WASMWritingContext
  compressionType : CompressionType

namespace DictColEncoder

/-- `DictColEncoder::new`. -/
def new (columnChunkSize : Nat) (wasmContext : WASMWritingContext)
    (compressionType : CompressionType) : DictColEncoder :=
  ⟨.withDictEncoding (.dictionary []), 0, columnChunkSize, wasmContext, compressionType⟩

/-- The dictionary of one array and its narrowed indices. -/
def dictAndIndices (array : ArrayRef) : Result (ArrayRef × ArrayRef) := do
  let dict ← Dictionary.tryNew array.dataType
  let dict ← dict.extend array
  let (dict, indices) := dict.finish
  pure (dict, castIndexDtype indices dict.len)

/-- The dictionary unit and the index unit `encode` pushes for an array, and the
number of indices. Both arrays are encoded before the first is compressed. -/
def units (env : Env) (w : WASMWritingContext) (compressionType : CompressionType)
    (array : ArrayRef) : Result (SerializedEncUnit × SerializedEncUnit × Nat) := do
  let (dict, indices) ← dictAndIndices array
  let dictEncUnit ← unitPayload env w false dict
  let indicesEncUnit ← unitPayload env w false indices
  let compressedDict ← compressData env dictEncUnit compressionType
  let compressedIndices ← compressData env indicesEncUnit compressionType
  let dictEncoder := createEncunitEncoder w dict.dataType false
  let indicesEncoder := createEncunitEncoder w indices.dataType false
  pure (⟨compressedDict, u32 dict.len, unitEncoding w dictEncoder.encodingType array.dataType,
      compressionType⟩,
    ⟨compressedIndices, u32 indices.len,
      unitEncoding w indicesEncoder.encodingType indices.dataType, compressionType⟩,
    indices.len)

/-- `encode`. -/
def encode (env : Env) (array : ArrayRef) : EncAct DictColEncoder (List EncodedColumnChunk) := do
  let s ← get
  let (dictUnit, indexUnit, indicesLen) ← Act.lift
    (units env s.enc.wasmContext s.enc.compressionType array)
  let size := s.enc.accumulatedSize + (dictUnit.bytes.length + indexUnit.bytes.length)
  -- the rows of the dictionary unit are not rows of the column
  let chunk := (s.enc.accumulatedChunk.push dictUnit 0).push indexUnit indicesLen
  let counter := { s.counter with
    dictSize := s.counter.dictSize + dictUnit.bytes.length
    indexSize := s.counter.indexSize + indexUnit.bytes.length }
  if size > s.enc.columnChunkSize then do
    set { s with
      enc := { s.enc with
        accumulatedChunk := .withDictEncoding (.dictionary [])
        accumulatedSize := 0 }
      counter := counter }
    pure [chunk]
  else do
    set { s with
      enc := { s.enc with accumulatedChunk := chunk, accumulatedSize := size }
      counter := counter }
    pure []

/-- `memory_size`. -/
def memorySize (e : DictColEncoder) : Nat := e.accumulatedSize

/-- `finish`: the taken chunk is replaced by the default one, without the label
of the constructor, and `accumulated_size` is left as it is. -/
def finish : EncAct DictColEncoder (List EncodedColumnChunk) := do
  let s ← get
  let counter := { s.counter with dictType := .localDictionary }
  if s.enc.accumulatedChunk.encunits.isEmpty then do
    set { s with counter := counter }
    pure []
  else do
    set { s with
      enc := { s.enc with accumulatedChunk := .default }
      counter := counter }
    pure [s.enc.accumulatedChunk]

end DictColEncoder

/-! ## Index units -/

/-- The label of a chunk of `encode_shared_to_chunks`. -/
def sharedLabel : Option Nat → DictionaryEncoding
  | some dictIdx => .sharedDictionary dictIdx
  | none => .noDictionary

/-- The loop of `GLBestEncoder::encode_shared_to_chunks`: `chunk`, `size` and
`res` are `accumulated_chunk`, `accumulated_size` and `res`. Chunks are cut for
index arrays only. -/
def encodeUnitsLoop (env : Env) (w : WASMWritingContext) (compressionType : CompressionType)
    (columnChunkSize : Nat) (dictIdx : Option Nat) :
    List ArrayRef → EncodedColumnChunk → Nat → List EncodedColumnChunk →
      Act Fault EncodingCounter (List EncodedColumnChunk)
  | [], chunk, size, res => pure (if size > 0 then res ++ [chunk] else res)
  | arr :: arrs, chunk, size, res => do
      let unit ← Act.lift
        (encodeEncUnit env w false compressionType compressionType arr.dataType arr)
      let size := size + unit.bytes.length
      modify fun counter =>
        if dictIdx.isSome then { counter with indexSize := counter.indexSize + unit.bytes.length }
        else { counter with dictSize := counter.dictSize + unit.bytes.length }
      let chunk := chunk.push unit arr.len
      if dictIdx.isSome ∧ size > columnChunkSize then
        encodeUnitsLoop env w compressionType columnChunkSize dictIdx arrs
          (.withDictEncoding (sharedLabel dictIdx)) 0 (res ++ [chunk])
      else encodeUnitsLoop env w compressionType columnChunkSize dictIdx arrs chunk size res

/-- `GLBestEncoder::encode_shared_to_chunks`; with a dictionary id it is also
the second half of `SharedDictColEncoder::encode_dict_scope`. -/
def encodeSharedToChunks (env : Env) (w : WASMWritingContext) (compressionType : CompressionType)
    (columnChunkSize : Nat) (arrs : List ArrayRef) (dictIdx : Option Nat) :
    Act Fault EncodingCounter (List EncodedColumnChunk) :=
  encodeUnitsLoop env w compressionType columnChunkSize dictIdx arrs
    (.withDictEncoding (sharedLabel dictIdx)) 0 []

/-- Runs a computation on the counter of an encoder. -/
def onCounter {E α : Type} (x : Act Fault EncodingCounter α) : EncAct E α :=
  Act.zoom Working.counter (fun s c => { s with counter := c }) x

/-! ## Shared dictionaries -/

/-- `SharedDictColEncoder`. -/
structure SharedDictColEncoder where
  fixedDictScope : Nat
  bufferedArrays : List ArrayRef
  bufferedArrayLen : Nat
  bufferedArrayMemSize : Nat
  columnChunkSize : Nat
  wasmContext : WASMWritingContext
  submittedDictIdx : Option Nat
  compressionType : CompressionType

namespace SharedDictColEncoder

/-- `SharedDictColEncoder::new`. -/
def new (fixedDictScope columnChunkSize : Nat) (wasmContext : WASMWritingContext)
    (compressionType : CompressionType) : SharedDictColEncoder :=
  ⟨fixedDictScope, [], 0, 0, columnChunkSize, wasmContext, none, compressionType⟩

/-- A new dictionary in the context. -/
def newDictionary (dtype : DataType) : EncAct SharedDictColEncoder Nat := do
  let s ← get
  let (ctx, idx) ← Act.lift (s.ctx.newDictionary dtype)
  set { s with ctx := ctx }
  pure idx

/-- `shared_dict_ctx.extend_and_get_index(dict_idx, arr)` for each array. -/
def extendAll (dictIdx : Nat) : List ArrayRef → EncAct SharedDictColEncoder (List ArrayRef)
  | [] => pure []
  | arr :: arrs => do
      let s ← get
      let (ctx, indices) ← Act.lift (s.ctx.extendAndGetIndex dictIdx arr)
      set { s with ctx := ctx }
      let rest ← extendAll dictIdx arrs
      pure (indices :: rest)

/-- The dictionary of a scope: the submitted one, or a new one of the type of
the first buffered array. -/
def scopeDictIdx (e : SharedDictColEncoder) : EncAct SharedDictColEncoder Nat :=
  match e.submittedDictIdx with
  | some idx => pure idx
  | none => do
      let first ← Act.lift (unwrapSome e.bufferedArrays.head?)
      newDictionary first.dataType

/-- The second half of `encode_dict_scope`: the arrays `e` had buffered extend the
dictionary, and their indices are encoded. -/
def encodeIndices (env : Env) (e : SharedDictColEncoder) (dictIdx : Nat) :
    EncAct SharedDictColEncoder (List EncodedColumnChunk) := do
  let indicesArrs ← extendAll dictIdx e.bufferedArrays
  let s ← get
  let dictLen ← Act.lift (s.ctx.dictLen dictIdx)
  onCounter (encodeSharedToChunks env e.wasmContext e.compressionType e.columnChunkSize
    (indicesArrs.map fun arr => castIndexDtype arr dictLen) (some dictIdx))

/-- `encode_dict_scope`. -/
def encodeDictScope (env : Env) : EncAct SharedDictColEncoder (List EncodedColumnChunk) := do
  let s ← get
  set { s with
    enc := { s.enc with bufferedArrays := [], bufferedArrayLen := 0, bufferedArrayMemSize := 0 } }
  let dictIdx ← scopeDictIdx s.enc
  encodeIndices env s.enc dictIdx

/-- `encode`. -/
def encode (env : Env) (array : ArrayRef) :
    EncAct SharedDictColEncoder (List EncodedColumnChunk) := do
  let s ← get
  if s.enc.bufferedArrays.head?.any fun a => a.dataType ≠ array.dataType then
    throw (.err (.general "Datatypes of arrays do not match"))
  else do
    let e := { s.enc with
      bufferedArrayLen := s.enc.bufferedArrayLen + array.len
      bufferedArrayMemSize := s.enc.bufferedArrayMemSize + env.arrayMemorySize array
      bufferedArrays := s.enc.bufferedArrays ++ [array] }
    set { s with enc := e }
    if e.bufferedArrayLen ≥ e.fixedDictScope then encodeDictScope env else pure []

/-- `memory_size`. -/
def memorySize (e : SharedDictColEncoder) : Nat := e.bufferedArrayMemSize

/-- `finish`. -/
def finish (env : Env) : EncAct SharedDictColEncoder (List EncodedColumnChunk) := do
  let s ← get
  if s.enc.bufferedArrays.isEmpty then pure [] else encodeDictScope env

/-- `shared_dict_ctx.submit_values(dict_idx, arr)` for each array. -/
def submitAll (dictIdx : Nat) : List ArrayRef → EncAct SharedDictColEncoder Unit
  | [] => pure ()
  | arr :: arrs => do
      let s ← get
      let ctx ← Act.lift (s.ctx.submitValues dictIdx arr)
      set { s with ctx := ctx }
      submitAll dictIdx arrs

/-- The dictionary `submit_dict` adds to, which is remembered. Without a buffered
array to take the type from, the call panics. -/
def submittedDict : EncAct SharedDictColEncoder Nat := do
  let s ← get
  let idx ← scopeDictIdx s.enc
  modify fun s => { s with enc := { s.enc with submittedDictIdx := some idx } }
  pure idx

/-- `submit_dict`. -/
def submitDict : EncAct SharedDictColEncoder Unit := do
  let s ← get
  let dictIdx ← submittedDict
  submitAll dictIdx s.enc.bufferedArrays

end SharedDictColEncoder

/-! ## The better of global and local dictionaries -/

/-- `GLBestEncoder`. -/
structure GLBestEncoder where
  sampleSize : Option (Float × Nat)
  bufferedArrays : List ArrayRef
  bufferedArrayLen : Nat
  bufferedArrayMemSize : Nat
  columnChunkSize : Nat
  wasmContext : WASMWritingContext
  compressionType : CompressionType

namespace GLBestEncoder

/-- `GLBestEncoder::new`. -/
def new (sampleSize : Option (Float × Nat)) (columnChunkSize : Nat)
    (wasmContext : WASMWritingContext) (compressionType : CompressionType) : GLBestEncoder :=
  ⟨sampleSize, [], 0, 0, columnChunkSize, wasmContext, compressionType⟩

/-- `encode`. -/
def encode (env : Env) (array : ArrayRef) : EncAct GLBestEncoder (List EncodedColumnChunk) := do
  let s ← get
  if s.enc.bufferedArrays.head?.any fun a => a.dataType ≠ array.dataType then
    throw (.err (.general "Datatypes of arrays do not match"))
  else do
    set { s with enc := { s.enc with
      bufferedArrayLen := s.enc.bufferedArrayLen + array.len
      bufferedArrayMemSize := s.enc.bufferedArrayMemSize + env.arrayMemorySize array
      bufferedArrays := s.enc.bufferedArrays ++ [array] } }
    pure []

/-- `memory_size`. -/
def memorySize (e : GLBestEncoder) : Nat := e.bufferedArrayMemSize

/-- The loop of the closure `encode_to_local_chunks`. -/
def localLoop (env : Env) : List ArrayRef → EncAct EncoderDictColEncoder (List EncodedColumnChunk)
  | [] => EncoderDictColEncoder.finish
  | arr :: arrs => do
      let chunks ← EncoderDictColEncoder.encode env arr
      let rest ← localLoop env arrs
      pure (chunks ++ rest)

/-- The closure `encode_to_local_chunks`, with a counter and an encoder of its
own; the units are not compressed. The inner encoder does not use the context. -/
def encodeToLocalChunks (env : Env) (e : GLBestEncoder) (arrs : List ArrayRef) :
    Result (EncodingCounter × List EncodedColumnChunk) :=
  let inner := EncoderDictColEncoder.new e.columnChunkSize e.wasmContext true .uncompressed
  match localLoop env arrs ⟨inner, .default, .new false .uncompressed, 0⟩ with
  | .ok chunks s => .ok (s.counter, chunks)
  | .error f _ => .error f

/-- `encode_shared_to_chunks` on a counter of its own. -/
def encodeShared (env : Env) (e : GLBestEncoder) (arrs : List ArrayRef)
    (counter : EncodingCounter) (dictIdx : Option Nat) :
    Result (EncodingCounter × List EncodedColumnChunk) :=
  match encodeSharedToChunks env e.wasmContext e.compressionType e.columnChunkSize arrs dictIdx
    counter with
  | .ok chunks counter => .ok (counter, chunks)
  | .error f _ => .error f

/-- The buffered arrays added to a dictionary, with their index arrays. -/
def extendGlobal : Dictionary → List ArrayRef → Result (Dictionary × List ArrayRef)
  | d, [] => pure (d, [])
  | d, arr :: arrs => do
      let (d, indices) ← d.extendAndGetIndex arr
      let (d, rest) ← extendGlobal d arrs
      pure (d, indices :: rest)

/-- `(0..n).choose_multiple(&mut thread_rng(), amount)`. -/
def chooseMultiple (env : Env) (n amount : Nat) : EncAct GLBestEncoder (List Nat) := do
  let s ← get
  set { s with rng := s.rng + 1 }
  pure (env.chooseMultiple s.rng n amount)

/-- `estimate_arrays_encoded_size`. -/
def estimateArraysEncodedSize (env : Env) (e : GLBestEncoder) (arrs : List ArrayRef)
    (arrTotalSize sampleCount : Nat) : EncAct GLBestEncoder Float :=
  if arrs.length ≤ sampleCount then do
    let (counter, _) ← Act.lift (encodeShared env e arrs .default (some 1))
    pure (Float.ofNat counter.indexSize)
  else do
    let chosen ← chooseMultiple env arrs.length sampleCount
    let sampleArrs ← Act.lift (collect (index arrs) chosen)
    let (counter, _) ← Act.lift (encodeShared env e sampleArrs .default (some 1))
    pure (Float.ofNat (counter.indexSize * arrTotalSize) /
      Float.ofNat (sampleArrs.map ArrayRef.len).sum)

/-- `estimate_arr_encoded_size`. -/
def estimateArrEncodedSize (env : Env) (e : GLBestEncoder) (arr : ArrayRef)
    (sampleLen sampleCount : Nat) : EncAct GLBestEncoder Float :=
  if arr.len ≤ sampleLen * sampleCount then do
    let (counter, _) ← Act.lift (encodeShared env e [arr] .default none)
    pure (Float.ofNat counter.dictSize)
  else if sampleLen = 0 then Act.lift (panicking "attempt to divide by zero")
  else do
    let numSlices := arr.len / sampleLen
    let chosen ← chooseMultiple env numSlices sampleCount
    let sampleDictArrs := chosen.map fun i => arr.slice (i * sampleLen) sampleLen
    let (counter, _) ← Act.lift (encodeShared env e sampleDictArrs .default none)
    pure (Float.ofNat (counter.dictSize * arr.len) /
      Float.ofNat (sampleDictArrs.map ArrayRef.len).sum)

/-- `(buffered_array_len as f64 * sample_ratio) as usize`. -/
def sampledLen (bufferedArrayLen : Nat) (sampleRatio : Float) : Nat :=
  (Float.ofNat bufferedArrayLen * sampleRatio).toUInt64.toNat

/-- The sampled estimates: the encoded size with local dictionaries, and with
the global one. -/
def sampledEstimates (env : Env) (e : GLBestEncoder) (bufferedArrs : List ArrayRef)
    (bufferedArrayLen : Nat) (globalDict : Dictionary) (globalIndicesArrs : List ArrayRef)
    (sampleRatio : Float) (sampleLen : Nat) : EncAct GLBestEncoder (Float × Float) :=
  if sampleLen = 0 then Act.lift (panicking "attempt to divide by zero")
  else do
    let sampleCount := sampledLen bufferedArrayLen sampleRatio / sampleLen
    let chosen ← chooseMultiple env bufferedArrs.length sampleCount
    let sampleOrigs ← Act.lift (collect (index bufferedArrs) chosen)
    let (sampleLocalCounter, _) ← Act.lift (encodeToLocalChunks env e sampleOrigs)
    let localEst := Float.ofNat (sampleLocalCounter.totalSize * bufferedArrayLen) /
      Float.ofNat (sampleLen * sampleCount)
    let globalIndexEst ←
      estimateArraysEncodedSize env e globalIndicesArrs bufferedArrayLen sampleCount
    let globalDictEst ← estimateArrEncodedSize env e globalDict.peekDict sampleLen sampleCount
    pure (localEst, globalIndexEst + globalDictEst)

/-- The branch of `finish` that compares sampled estimates. -/
def finishSampled (env : Env) (e : GLBestEncoder) (bufferedArrs : List ArrayRef)
    (bufferedArrayLen : Nat) (globalDict : Dictionary) (globalIndicesArrs : List ArrayRef)
    (sampleRatio : Float) (sampleLen : Nat) : EncAct GLBestEncoder (List EncodedColumnChunk) := do
  let est ← sampledEstimates env e bufferedArrs bufferedArrayLen globalDict globalIndicesArrs
    sampleRatio sampleLen
  if est.1 ≤ est.2 then do
    let (localCounter, localChunks) ← Act.lift (encodeToLocalChunks env e bufferedArrs)
    modify fun s => { s with counter := localCounter }
    pure localChunks
  else do
    let s ← get
    let (ctx, globalDictId) := s.ctx.addDictionary globalDict
    set { s with ctx := ctx }
    onCounter (encodeSharedToChunks env e.wasmContext e.compressionType e.columnChunkSize
      globalIndicesArrs (some globalDictId))

/-- The branch of `finish` that encodes both ways and compares the sizes. -/
def finishCompared (env : Env) (e : GLBestEncoder) (bufferedArrs : List ArrayRef)
    (globalDict : Dictionary) (globalIndicesArrs : List ArrayRef) :
    EncAct GLBestEncoder (List EncodedColumnChunk) := do
  let (localCounter, localChunks) ← Act.lift (encodeToLocalChunks env e bufferedArrs)
  let s ← get
  let peekGlobalDictId := s.ctx.peekDictId
  let (globalCounter, globalIndexChunks) ← Act.lift
    (encodeShared env e globalIndicesArrs .default (some peekGlobalDictId))
  let (globalCounter, _) ← Act.lift
    (encodeShared env e [globalDict.peekDict] globalCounter none)
  if localCounter.totalSize ≤ globalCounter.totalSize then do
    set { s with counter := localCounter }
    pure localChunks
  else do
    -- the size of the dictionary is deferred to the time it is written
    let globalCounter := { globalCounter with dictSize := 0 }
    let (ctx, globalDictId) := s.ctx.addDictionary globalDict
    if globalDictId ≠ peekGlobalDictId then Act.lift (panicking "assertion failed")
    else do
      set { s with ctx := ctx, counter := globalCounter }
      pure globalIndexChunks

/-- `finish`. -/
def finish (env : Env) : EncAct GLBestEncoder (List EncodedColumnChunk) := do
  let s ← get
  let e := s.enc
  match e.bufferedArrays with
  | [] => pure []
  | first :: rest => do
      set { s with
        enc := { e with bufferedArrays := [], bufferedArrayLen := 0, bufferedArrayMemSize := 0 } }
      let globalDict ← Act.lift (Dictionary.tryNew first.dataType)
      let (globalDict, indicesArrs) ← Act.lift (extendGlobal globalDict (first :: rest))
      let globalIndicesArrs := indicesArrs.map fun arr => castIndexDtype arr globalDict.len
      match e.sampleSize with
      | some (sampleRatio, sampleLen) =>
          if sampledLen e.bufferedArrayLen sampleRatio > sampleLen then
            finishSampled env e (first :: rest) e.bufferedArrayLen globalDict globalIndicesArrs
              sampleRatio sampleLen
          else finishCompared env e (first :: rest) globalDict globalIndicesArrs
      | none => finishCompared env e (first :: rest) globalDict globalIndicesArrs

end GLBestEncoder

/-! ## The encoders behind one trait -/

/-- `Box<dyn PhysicalColEncoder>`. -/
inductive PhysicalColEncoder where
  | encoderDict (e : EncoderDictColEncoder)
  | dict (e : DictColEncoder)
  | sharedDict (e : SharedDictColEncoder)
  | glBest (e : GLBestEncoder)

namespace PhysicalColEncoder

/-- `PhysicalColEncoder::encode`. -/
def encode (env : Env) (array : ArrayRef) :
    EncAct PhysicalColEncoder (List EncodedColumnChunk) := do
  let s ← get
  match s.enc with
  | .encoderDict e => delegate .encoderDict e (EncoderDictColEncoder.encode env array)
  | .dict e => delegate .dict e (DictColEncoder.encode env array)
  | .sharedDict e => delegate .sharedDict e (SharedDictColEncoder.encode env array)
  | .glBest e => delegate .glBest e (GLBestEncoder.encode env array)

/-- `PhysicalColEncoder::memory_size`. -/
def memorySize : PhysicalColEncoder → Nat
  | encoderDict e => e.memorySize
  | dict e => e.memorySize
  | sharedDict e => e.memorySize
  | glBest e => e.memorySize

/-- `PhysicalColEncoder::finish`. -/
def finish (env : Env) : EncAct PhysicalColEncoder (List EncodedColumnChunk) := do
  let s ← get
  match s.enc with
  | .encoderDict e => delegate .encoderDict e EncoderDictColEncoder.finish
  | .dict e => delegate .dict e DictColEncoder.finish
  | .sharedDict e => delegate .sharedDict e (SharedDictColEncoder.finish env)
  | .glBest e => delegate .glBest e (GLBestEncoder.finish env)

/-- `PhysicalColEncoder::submit_dict`; only shared dictionaries do something. -/
def submitDict : EncAct PhysicalColEncoder Unit := do
  let s ← get
  match s.enc with
  | .sharedDict e => delegate .sharedDict e SharedDictColEncoder.submitDict
  | _ => pure ()

end PhysicalColEncoder

/-- `u64::MAX`, the scope of a dictionary for the whole row group. -/
def u64Max : Nat := 2 ^ 64 - 1

/-- `create_physical_encoder`. -/
def createPhysicalEncoder (dataType : DataType) (maxChunkSize : Nat)
    (wasmContext : WASMWritingContext) (dictionaryType : DictionaryTypeOptions)
    (compressionType : CompressionType) : Result PhysicalColEncoder :=
  match dataType with
  | .prim t =>
      if t.nonNest then
        match dictionaryType with
        | .noDictionary =>
            .ok (.encoderDict (.new maxChunkSize wasmContext false compressionType))
        | .encoderDictionary =>
            .ok (.encoderDict (.new maxChunkSize wasmContext true compressionType))
        | .localDictionary => .ok (.dict (.new maxChunkSize wasmContext compressionType))
        | .globalDictionary | .globalDictionaryMultiColSharing =>
            .ok (.sharedDict (.new u64Max maxChunkSize wasmContext compressionType))
        | .fixedScopeDictionary scope =>
            .ok (.sharedDict (.new scope maxChunkSize wasmContext compressionType))
        | .glBest sampleSize =>
            .ok (.glBest (.new sampleSize maxChunkSize wasmContext compressionType))
      else panicking "not yet implemented: Other data types not supported"
  | .list _ | .largeList _ =>
      .ok (.encoderDict (.new maxChunkSize wasmContext true compressionType))
  | .struct _ => panicking "not yet implemented: Other data types not supported"

end F3Format
