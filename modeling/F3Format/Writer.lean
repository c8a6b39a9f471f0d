import F3Format.EncoderLogical

/-!
# The file writer

`writer.rs` and `RowGroupsTable::to_indirect_and_flush`, on a sink in memory
that starts empty, so that the position of the stream is the number of bytes
written. The sink itself never fails.

Every `as u32` of the writer is `u32`, the value modulo `2 ^ 32`. The field
`narrowed` of the state has no counterpart in the source: it logs the values
before they are narrowed, so that "all recorded sizes and counts fit their
fields" can be said of a run (`FileWriter.Fits`). Additions on `u32` counters wrap.
-/

set_option autoImplicit false

namespace F3Format

open Lib

/-! ## Options -/

/-- `CustomEncodingOptions`. -/
structure CustomEncodingOptions where
  wasms : List (Nat × WasmLib)
  dataTypeToWasmId : List (DataType × Nat)

/-- `CustomEncodingOptions::is_empty`. -/
def CustomEncodingOptions.isEmpty (o : CustomEncodingOptions) : Bool := o.wasms.isEmpty

/-- `FileWriterOptions`. The last field is what `build` asserts. -/
structure FileWriterOptions where
  iounitSize : Nat
  checksumType : ChecksumType
  writeBuiltInWasm : Bool
  customEncunitLen : List (Nat × Nat)
  rowGroupSize : Nat
  customEncodingOptions : CustomEncodingOptions
  dictionaryType : DictionaryTypeOptions
  enableIoUnitChecksum : Bool
  compressionType : CompressionType
  exclusive : writeBuiltInWasm = true → customEncodingOptions.isEmpty = true

/-- `FileWriterOptions::default`. -/
def FileWriterOptions.default : FileWriterOptions where
  iounitSize := 8 * 1024 * 1024
  checksumType := .xxHash
  writeBuiltInWasm := false
  customEncunitLen := []
  rowGroupSize := u64Max
  customEncodingOptions := ⟨[], []⟩
  dictionaryType := .encoderDictionary
  enableIoUnitChecksum := false
  compressionType := .uncompressed
  exclusive := fun h => by cases h

/-- The writing context `try_new` chooses. The remaining case of its match, a
`todo!`, is excluded by the assertion of `build`. -/
def FileWriterOptions.wasmContext (env : Env) (o : FileWriterOptions) : WASMWritingContext :=
  if o.writeBuiltInWasm then .defaultWithAlwaysSetCustomWasm env
  else if o.customEncodingOptions.isEmpty then .empty
  else .withCustomWasms o.customEncodingOptions.wasms o.customEncodingOptions.dataTypeToWasmId

/-! ## State -/

/-- `FileWriteState`. The checksum is kept as the bytes fed to it. -/
structure FileWriteState where
  writer : Bytes
  rowGroupsTable : RowGroupsTable
  numRowsInFile : Nat
  numPhysicalColumns : Nat
  dataChecksum : Bytes
  columnCounters : List EncodingCounter
  enableIoUnitChecksum : Bool
  columnMetadatasInCurRowGroup : List ColumnMetadata
  startOffsetOfCurRowGroup : Nat
  numRowsInCurRowGroup : Nat
  /-- the values narrowed to `u32` so far -/
  narrowed : List Nat

namespace FileWriteState

/-- Logs values that are about to be narrowed. -/
def log (s : FileWriteState) (vs : List Nat) : FileWriteState :=
  { s with narrowed := s.narrowed ++ vs }

/-- `write_and_update_file_level_checksum`. -/
def writeAndUpdate (s : FileWriteState) (buf : Bytes) : FileWriteState :=
  { s with writer := s.writer ++ buf, dataChecksum := s.dataChecksum ++ buf }

/-- The loop of `flush_chunk_and_get_metadata` over the units. -/
def flushEncunits : List SerializedEncUnit → FileWriteState → FileWriteState × List EncUnit
  | [], s => (s, [])
  | unit :: units, s =>
      let s := (s.writeAndUpdate unit.bytes).log [unit.bytes.length]
      let r := flushEncunits units s
      (r.1, ⟨u32 unit.bytes.length, unit.numRows, unit.encoding, unit.compressionType⟩ :: r.2)

/-- `flush_chunk_and_get_metadata`. -/
def flushChunkAndGetMetadata (env : Env) (s : FileWriteState) (chunk : EncodedColumnChunk) :
    FileWriteState × Chunk :=
  let offset := s.writer.length
  let r := flushEncunits chunk.encunits s
  let size := r.1.writer.length - offset
  let checksum := if s.enableIoUnitChecksum then some (env.xxh64 chunk.bytes) else none
  (r.1.log [size], ⟨offset, u32 size, chunk.numRows, chunk.dictEncoding, r.2, checksum⟩)

/-- `flush_chunk`. -/
def flushChunk (env : Env) (s : FileWriteState) (chunk : EncodedColumnChunk) :
    Result FileWriteState := do
  let r := flushChunkAndGetMetadata env s chunk
  let m ← index r.1.columnMetadatasInCurRowGroup chunk.columnIndex
  pure { r.1 with
    columnMetadatasInCurRowGroup :=
      r.1.columnMetadatasInCurRowGroup.set chunk.columnIndex (m.addChunk r.2) }

/-- `finish_row_group`. -/
def finishRowGroup (s : FileWriteState) : FileWriteState :=
  let size := s.writer.length - s.startOffsetOfCurRowGroup
  { s.log [size] with
    rowGroupsTable := s.rowGroupsTable.addMeta s.numRowsInCurRowGroup s.startOffsetOfCurRowGroup
      (u32 size) ⟨s.columnMetadatasInCurRowGroup⟩
    columnMetadatasInCurRowGroup := List.replicate s.numPhysicalColumns .empty
    numRowsInCurRowGroup := 0
    startOffsetOfCurRowGroup := s.writer.length }

/-- The two counter updates at the end of `write_batch`. -/
def addRows (s : FileWriteState) (numRows : Nat) : FileWriteState :=
  { s.log [numRows, s.numRowsInCurRowGroup + numRows] with
    numRowsInFile := u32 (s.numRowsInFile + u32 numRows)
    numRowsInCurRowGroup := u32 (s.numRowsInCurRowGroup + u32 numRows) }

/-- Writes one `ColumnMetadata` and returns its section. -/
def flushColumnMetadata (env : Env) (s : FileWriteState) (m : ColumnMetadata) :
    FileWriteState × MetadataSection :=
  let data := env.columnMetadataFb.build m.toFb
  ((s.writeAndUpdate data).log [data.length],
    ⟨s.writer.length, u32 data.length, .uncompressed⟩)

/-- The inner loop of `to_indirect_and_flush`. -/
def flushColumnMetadatas (env : Env) :
    List ColumnMetadata → FileWriteState → FileWriteState × List MetadataSection
  | [], s => (s, [])
  | m :: ms, s =>
      let r := flushColumnMetadata env s m
      let r' := flushColumnMetadatas env ms r.1
      (r'.1, r.2 :: r'.2)

/-- The outer loop of `to_indirect_and_flush`. -/
def flushRowGroupMetadatas (env : Env) :
    List RowGroupMetadata → FileWriteState → FileWriteState × List IndirectRowGroupMetadata
  | [], s => (s, [])
  | g :: gs, s =>
      let r := flushColumnMetadatas env g.colMetadatas s
      let r' := flushRowGroupMetadatas env gs r.1
      (r'.1, ⟨r.2⟩ :: r'.2)

/-- `to_indirect_and_flush`: the state and the position of the first metadata. -/
def toIndirectAndFlush (env : Env) (s : FileWriteState) : FileWriteState × Nat :=
  let r := flushRowGroupMetadatas env s.rowGroupsTable.rowGroupMetadata s
  ({ r.1 with rowGroupsTable := { r.1.rowGroupsTable with
      indirectRowGroupMetadata := r.1.rowGroupsTable.indirectRowGroupMetadata ++ r.2 } },
    s.writer.length)

/-- The loop of `finish` over the WASM binaries. -/
def flushWasms : List Bytes → FileWriteState → FileWriteState × List Fb.MetadataSection
  | [], s => (s, [])
  | wasm :: wasms, s =>
      let offset := s.writer.length
      let s := (s.writeAndUpdate wasm).log [wasm.length]
      let r := flushWasms wasms s
      (r.1, ⟨offset, u32 wasm.length, .uncompressed⟩ :: r.2)

/-- The chunks of one dictionary, flushed in order. -/
def flushDictChunks (env : Env) :
    List EncodedColumnChunk → FileWriteState → FileWriteState × List Chunk
  | [], s => (s, [])
  | c :: cs, s =>
      -- `slice_len as u32` of `write_slice` is the row count of the unit
      let r := flushChunkAndGetMetadata env (s.log [c.numRows]) c
      let r' := flushDictChunks env cs r.1
      (r'.1, r.2 :: r'.2)

/-- The chunks of all dictionaries. -/
def flushAllDictChunks (env : Env) :
    List (List EncodedColumnChunk) → FileWriteState → FileWriteState × List (List Chunk)
  | [], s => (s, [])
  | cs :: css, s =>
      let r := flushDictChunks env cs s
      let r' := flushAllDictChunks env css r.1
      (r'.1, r.2 :: r'.2)

end FileWriteState

/-- `FileWriter`. -/
structure FileWriter where
  schema : List Field
  columnEncoders : List LogicalColEncoder
  logicalTree : LogicalTree
  state : FileWriteState
  schemaChecksum : Bytes
  wasmContext : WASMWritingContext
  customEncunitLen : List (Nat × Nat)
  rowGroupSize : Nat
  sharedDictionaryContext : SharedDictionaryContext
  /-- position of the thread's random generator -/
  rng : Nat

/-- The computation of a method of the writer. -/
abbrev WriterAct (α : Type) := Act Fault FileWriter α

namespace FileWriter

/-- `FileWriter::try_new`. -/
def tryNew (env : Env) (schema : List Field) (options : FileWriterOptions) :
    Result FileWriter := do
  let wasmContext := options.wasmContext env
  let (columnEncoders, childTrees, numPhysicalColumns) ← createLogicalEncoders
    ⟨options.iounitSize, wasmContext, options.dictionaryType, options.compressionType⟩ schema 0
  pure {
    schema := schema
    columnEncoders := columnEncoders
    logicalTree := .mk .struct childTrees
    state := {
      writer := []
      rowGroupsTable := .empty
      numRowsInFile := 0
      numPhysicalColumns := numPhysicalColumns
      dataChecksum := []
      columnCounters := List.replicate numPhysicalColumns .default
      enableIoUnitChecksum := options.enableIoUnitChecksum
      columnMetadatasInCurRowGroup := List.replicate numPhysicalColumns .empty
      startOffsetOfCurRowGroup := 0
      numRowsInCurRowGroup := 0
      narrowed := [] }
    schemaChecksum := []
    wasmContext := wasmContext
    customEncunitLen := options.customEncunitLen
    rowGroupSize := options.rowGroupSize
    sharedDictionaryContext := .new options.dictionaryType.isMultiColSharing
      options.compressionType
    rng := 0 }

/-- The writer after a method of encoder `i` left the state `t`. -/
def putBack (w : FileWriter) (i : Nat) (t : Working LogicalColEncoder) : FileWriter :=
  { w with
    columnEncoders := w.columnEncoders.set i t.enc
    state := { w.state with columnCounters := w.state.columnCounters.set i t.counter }
    sharedDictionaryContext := t.ctx
    rng := t.rng }

/-- Calls a method of encoder `i` on its counter and the shared context. -/
def callEncoder {α : Type} (i : Nat)
    (x : LogicalColEncoder → Shared → EncResult LogicalColEncoder α) : WriterAct α := fun w =>
  match w.columnEncoders[i]?, w.state.columnCounters[i]? with
  | some e, some c =>
      match x e ⟨(), c, w.sharedDictionaryContext, w.rng⟩ with
      | .ok a t => .ok a (w.putBack i t)
      | .error f t => .error f (w.putBack i t)
  | _, _ => .error (.panic "index out of bounds") w

/-- A step on the write state that may fail before it changes anything. -/
def onState (f : FileWriteState → Result FileWriteState) : WriterAct Unit := do
  let w ← get
  let s ← Act.lift (f w.state)
  set { w with state := s }

/-- `res.into_iter().try_for_each(|chunk| self.state.flush_chunk(chunk))`. -/
def flushChunks (env : Env) (res : Option (List EncodedColumnChunk)) : WriterAct Unit :=
  Act.forEach (fun chunk => onState fun s => s.flushChunk env chunk) (res.getD [])

/-- Encodes one array of column `i` and flushes the chunks it completes. -/
def encodeArray (env : Env) (i : Nat) (col : ArrayRef) : WriterAct Unit := do
  let res ← callEncoder i fun e => e.encode env col
  flushChunks env res

/-- The body of the loop of `write_batch` over the columns. -/
def writeColumn (env : Env) (numRows : Nat) (p : ArrayRef × Nat) : WriterAct Unit := do
  let w ← get
  match w.customEncunitLen.lookup p.2 with
  | none => encodeArray env p.2 p.1
  | some encunitLen =>
      if numRows < encunitLen then
        throw (.err (.nyi "Batch size should be larger than the custom encunit size"))
      else if encunitLen = 0 then throw (.panic "attempt to divide by zero")
      else
        Act.forEach (fun j => encodeArray env p.2
            (p.1.slice (j * encunitLen) (min encunitLen (p.1.len - j * encunitLen))))
          (List.range (numRows / encunitLen))

/-- `flush_pending_chunks`. -/
def flushPendingChunks (env : Env) : WriterAct Unit := do
  let w ← get
  Act.forEach (fun i => do
    let res ← callEncoder i fun e => e.finish env
    flushChunks env res) (List.range w.columnEncoders.length)

/-- `write_batch`. -/
def writeBatch (env : Env) (batch : RecordBatch) : WriterAct Unit := do
  Act.forEach (writeColumn env batch.numRows) batch.columns.zipIdx
  onState fun s => .ok (s.addRows batch.numRows)
  let w ← get
  if w.state.numRowsInCurRowGroup ≥ w.rowGroupSize then do
    flushPendingChunks env
    onState fun s => .ok s.finishRowGroup
  else pure ()

/-- `memory_size`. -/
def memorySize (w : FileWriter) : Nat := (w.columnEncoders.map LogicalColEncoder.memorySize).sum

/-! ## `finish` -/

/-- `encoder.submit_dict(&mut self.shared_dictionary_context)` for encoder `i`;
the counter is not involved. -/
def submitDict (i : Nat) : WriterAct Unit := fun w =>
  match w.columnEncoders[i]? with
  | none => .error (.panic "index out of bounds") w
  | some e =>
      match e.submitDict ⟨(), .default, w.sharedDictionaryContext, w.rng⟩ with
      | .ok _ t => .ok () { w with
          columnEncoders := w.columnEncoders.set i t.enc
          sharedDictionaryContext := t.ctx }
      | .error f t => .error f { w with
          columnEncoders := w.columnEncoders.set i t.enc
          sharedDictionaryContext := t.ctx }

/-- The first part of `finish`: with sharing across columns, every encoder
submits its values and similar dictionaries are merged. -/
def submitAndMerge (env : Env) : WriterAct Unit := do
  let w ← get
  if w.sharedDictionaryContext.isMultiColSharing then do
    Act.forEach submitDict (List.range w.columnEncoders.length)
    let w ← get
    let ctx ← Act.lift (w.sharedDictionaryContext.mergeDicts env)
    set { w with sharedDictionaryContext := ctx }
  else pure ()

/-- `dict_start_idx`: how many chunks the dictionaries before each one have. -/
def dictStartIdx : Nat → List Nat → List Nat
  | _, [] => []
  | acc, x :: xs => acc :: dictStartIdx (acc + x) xs

/-- `dict_positions`, before the ids are narrowed. -/
def dictPositions (counts : List Nat) (mergePeers : List (Option Nat)) :
    Result (List (List Nat)) :=
  let starts := dictStartIdx 0 counts
  collect (fun p : (Nat × Nat) × Nat =>
      let own := (List.range p.1.2).map fun k => p.1.1 + k
      match (mergePeers[p.2]?).join with
      | some peer => do
          let first ← index starts peer
          pure (first :: own)
      | none => pure own)
    (starts.zip counts).zipIdx

/-- The sections of a file that `finish` writes before the footer, and their positions. -/
structure Sections where
  dictChunks : List (List Chunk)
  dictPositions : List (List Nat)
  dictDtypes : List DataType
  wasmMetaStart : Nat
  wasmMetaSize : Nat
  metadataStart : Nat

/-- Writes the WASM binaries and the table of their positions: the state, and
the start and the size of the table. -/
def writeWasmBinaries (env : Env) (w : WASMWritingContext) (s : FileWriteState) :
    FileWriteState × Nat × Nat :=
  let r := FileWriteState.flushWasms w.getSortedWasms s
  let wasms := env.wasmBinariesFb.build ⟨some r.2⟩
  let start := r.1.writer.length
  let s := r.1.writeAndUpdate wasms
  let size := s.writer.length - start
  (s.log [size], start, size)

/-- The footer table for a state and the sections before it. -/
def footerTable (env : Env) (w : FileWriter) (s : FileWriteState) (sec : Sections) :
    Fb.Footer where
  schema := some (env.ipcSchema.build w.schema)
  logicalTree := some w.logicalTree
  rowGroups := some {
    rowCounts := some s.rowGroupsTable.rowCounts
    offsets := some s.rowGroupsTable.offsets
    sizes := some s.rowGroupsTable.sizes
    rowGroupMetadatas :=
      some (s.rowGroupsTable.indirectRowGroupMetadata.map IndirectRowGroupMetadata.toFb) }
  optionalSections := some {
    names := some ["WASMBinaries"]
    offsets := some [sec.wasmMetaStart]
    sizes := some [u32 sec.wasmMetaSize]
    compressionTypes := some [.uncompressed] }
  sharedDictionaryTable := some (SharedDictionaryTable.toFb env
    ⟨sec.dictChunks.flatten, sec.dictPositions.map fun ids => ids.map u32, sec.dictDtypes⟩)
  encodingVersions := some (createDefaultEncodingVersions.map EncodingVersion.toFb)

/-- The values `finish` puts into the postscript. -/
structure PostscriptValues where
  metadataSize : Nat
  footerSize : Nat
  dataChecksum : UInt64
  schemaChecksum : UInt64

/-- The 32 bytes of the postscript. -/
def postscriptBytes (p : PostscriptValues) : Bytes :=
  leEncode 4 (u32 p.metadataSize) ++ leEncode 4 (u32 p.footerSize) ++
    [CompressionType.uncompressed.toByte] ++ [ChecksumType.xxHash.toByte] ++
    leEncode 8 p.dataChecksum.toNat ++ leEncode 8 p.schemaChecksum.toNat ++
    leEncode 2 majorVersion ++ leEncode 2 minorVersion ++ magic

/-- Writes the footer and the postscript. -/
def writeTrailer (env : Env) (w : FileWriter) (s : FileWriteState) (sec : Sections) :
    FileWriteState × PostscriptValues :=
  let footerData := env.footerFb.build (footerTable env w s sec)
  let s := s.writeAndUpdate footerData
  let p : PostscriptValues :=
    { metadataSize := s.writer.length - sec.metadataStart
      footerSize := footerData.length
      dataChecksum := env.xxh64 s.dataChecksum
      schemaChecksum := env.xxh64 (w.schemaChecksum ++ env.ipcSchema.build w.schema) }
  ({ s.log [p.metadataSize, p.footerSize] with writer := s.writer ++ postscriptBytes p }, p)

/-- The last part of `finish`, once all row groups are finished: dictionaries,
WASM binaries, column metadata, footer and postscript. -/
def writeSections (env : Env) (w : FileWriter) :
    Result (FileWriteState × Sections × PostscriptValues) := do
  let (dictChunks, mergePeers, dictDtypes) ←
    w.sharedDictionaryContext.finishAndFlush env w.wasmContext
  let r := FileWriteState.flushAllDictChunks env dictChunks w.state
  let wasm := writeWasmBinaries env w.wasmContext r.1
  let m := wasm.1.toIndirectAndFlush env
  let positions ← dictPositions (r.2.map List.length) mergePeers
  -- dictionary ids were handed out as `u32`
  let s := m.1.log (positions.flatten ++ [w.sharedDictionaryContext.dictionaries.length])
  let sec : Sections := ⟨r.2, positions, dictDtypes, wasm.2.1, wasm.2.2, m.2⟩
  let t := writeTrailer env w s sec
  pure (t.1, sec, t.2)

/-- The row groups of `finish`: pending data and the last row group. -/
def finishRowGroups (env : Env) : WriterAct Unit := do
  submitAndMerge env
  flushPendingChunks env
  onState fun s => .ok s.finishRowGroup

/-- `finish`: the counters; the file is the sink of the final state. -/
def finish (env : Env) : WriterAct (List EncodingCounter) := do
  finishRowGroups env
  let w ← get
  let r ← Act.lift (writeSections env w)
  set { w with state := r.1 }
  pure r.1.columnCounters

/-! ## Runs -/

/-- A call a user makes between `try_new` and `finish`. -/
inductive Call where
  | writeBatch (batch : RecordBatch)
  | flushPendingChunks

/-- One call. -/
def call (env : Env) : Call → WriterAct Unit
  | .writeBatch batch => writeBatch env batch
  | .flushPendingChunks => flushPendingChunks env

/-- The calls in order, up to the first failure. -/
def calls (env : Env) (cs : List Call) : WriterAct Unit := Act.forEach (call env) cs

/-- The batches a sequence of calls writes. -/
def batches : List Call → List RecordBatch
  | [] => []
  | .writeBatch b :: cs => b :: batches cs
  | .flushPendingChunks :: cs => batches cs

/-- `w` is reached from a new writer by the calls, all of which return `Ok`. -/
def Reaches (env : Env) (schema : List Field) (options : FileWriterOptions) (cs : List Call)
    (w : FileWriter) : Prop :=
  ∃ w₀, tryNew env schema options = .ok w₀ ∧ Act.Returns (calls env cs) w₀ () w

/-- `w` is the final state of a run of the calls followed by `finish`, all `Ok`. -/
def Finishes (env : Env) (schema : List Field) (options : FileWriterOptions) (cs : List Call)
    (w : FileWriter) : Prop :=
  ∃ w₁ counters, Reaches env schema options cs w₁ ∧ Act.Returns (finish env) w₁ counters w

/-- Every value the run narrowed to `u32` is below `2 ^ 32`. -/
def Fits (w : FileWriter) : Prop := ∀ v ∈ w.state.narrowed, v < 2 ^ 32

/-- The bytes of the file. -/
def file (w : FileWriter) : Bytes := w.state.writer

end FileWriter

end F3Format
