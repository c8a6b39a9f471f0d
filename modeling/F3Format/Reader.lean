import F3Format.DecoderLogical

/-!
# The file reader

`reader/mod.rs`, `reader/builder.rs` and the `Footer` of `file/footer.rs`, over
a file in memory. A subtraction that underflows is a panic. The sections a
`ColumnMetadata` is cut out of are named functions, one for each place of the
source that slices one.
-/

set_option autoImplicit false

namespace F3Format

open Lib

/-- `Projection`. -/
inductive Projection where
  | all
  | leafColumnIndexes (indices : List Nat)
  deriving DecidableEq, Repr

/-- `Selection`. -/
inductive Selection where
  | all
  | rowIndexes (rows : List Nat)
  deriving DecidableEq, Repr

/-! ## Postscript and footer -/

/-- `footer::PostScript`. -/
structure PostScript where
  metadataSize : Nat
  footerSize : Nat
  compression : CompressionType
  checksumType : ChecksumType
  dataChecksum : UInt64
  schemaChecksum : UInt64
  majorVersion : Nat
  minorVersion : Nat
  deriving DecidableEq, Repr

/-- `Reader::read_exact_at` of a byte slice, which panics out of range. -/
def readSliceAt (buf : Bytes) (offset len : Nat) : Result Bytes :=
  sliceRange buf offset (offset + len)

/-- The fields of a postscript buffer. -/
def parsePostscript (postscriptBuffer : Bytes) : Result PostScript := do
  if slice postscriptBuffer (postscriptBuffer.length - 2) 2 ≠ magic then
    fail (.general "Magic number incorrect")
  else do
    let field := fun off len => leDecode (slice postscriptBuffer off len)
    let checksumType ← ChecksumType.ofByte (UInt8.ofNat (field 9 1))
    pure {
      metadataSize := field 0 4
      footerSize := field 4 4
      compression := CompressionType.ofByte (UInt8.ofNat (field 8 1))
      checksumType := checksumType
      dataChecksum := UInt64.ofNat (field 10 8)
      schemaChecksum := UInt64.ofNat (field 18 8)
      majorVersion := field 26 2
      minorVersion := field 28 2 }

/-- `read_postscript` through the given `read_exact_at`. -/
def readPostscript (readAt : Nat → Nat → Result Bytes) (fileSize : Nat) : Result PostScript := do
  let offset ← checkedSub fileSize postscriptSize
  let postscriptBuffer ← readAt offset postscriptSize
  parsePostscript postscriptBuffer

/-- The FlatBuffers error of a footer as a `ParseError`. -/
def parseRoot {α : Type} (msg : String) : Except Error α → Result α
  | .ok a => .ok a
  | .error _ => fail (.parseError msg)

/-- What `parse_footer` returns. -/
structure ParsedFooter where
  schema : List Field
  logicalTree : LogicalTree
  rowGroups : Fb.RowGroups
  sharedDictionaryTable : Option Fb.SharedDictionaryTable
  optionalSections : Option Fb.OptionalMetadataSections
  /-- later entries of the vector replace earlier ones -/
  encodingVersions : Option (List (EncodingType × Version))

/-- `parse_footer`. -/
def parseFooter (env : Env) (footer : Fb.Footer) : Result ParsedFooter := do
  let schemaBytes ← okOr (.parseError "Schema not found") footer.schema
  let schema ← parseRoot "Unable to get root as message" (env.ipcSchema.root schemaBytes)
  let logicalTree ← unwrapSome footer.logicalTree
  let rowGroups ← okOr (.parseError "Row groups not found in footer") footer.rowGroups
  pure {
    schema := schema
    logicalTree := logicalTree
    rowGroups := rowGroups
    sharedDictionaryTable := footer.sharedDictionaryTable
    optionalSections := footer.optionalSections
    encodingVersions := footer.encodingVersions.map fun versions =>
      (versions.map fun v => (v.encodingType, v.version)).reverse }

/-- `GroupedColumnMetadata`. -/
structure GroupedColumnMetadata where
  columnMetadatas : List Fb.ColumnMetadata
  rowCount : Nat
  offset : Nat
  size : Nat

/-- `footer::Footer`. -/
structure Footer where
  schema : List Field
  rowGroupMetadatas : List GroupedColumnMetadata

namespace Footer

/-- `flatbuffers::root::<ColumnMetadata>(buf).unwrap()`. -/
def rootColumnMetadata (env : Env) (buf : Bytes) : Result Fb.ColumnMetadata :=
  unwrap (liftErr (env.columnMetadataFb.root buf))

/-- `file_size - POSTSCRIPT_SIZE - post_script.metadata_size`. -/
def dataSize (fileSize : Nat) (ps : PostScript) : Result Nat := do
  let n ← checkedSub fileSize postscriptSize
  checkedSub n ps.metadataSize

/-- The slice of `Footer::try_new` for one column, out of the metadata buffer. -/
def sectionSlice (buf : Bytes) (dataSize : Nat) (s : Fb.MetadataSection) : Result Bytes := do
  let start ← checkedSub s.offset dataSize
  sliceRange buf start (start + s.size)

/-- The slice of `Footer::try_new` for the footer. -/
def footerSlice (buf : Bytes) (ps : PostScript) : Result Bytes := do
  let start ← checkedSub ps.metadataSize ps.footerSize
  sliceRange buf start buf.length

/-- One row group of `Footer::try_new`. -/
def rowGroup (env : Env) (buf : Bytes) (dataSize : Nat)
    (p : Fb.RowGroupMetadata × Nat × Nat × Nat) : Result GroupedColumnMetadata := do
  let sections ← unwrapSome p.1.colMetadatas
  let columnMetadatas ← collect (fun s => do
    let bytes ← sectionSlice buf dataSize s
    rootColumnMetadata env bytes) sections
  pure ⟨columnMetadatas, p.2.1, p.2.2.1, p.2.2.2⟩

/-- `Footer::try_new`. -/
def tryNew (env : Env) (buf : Bytes) (fileSize : Nat) (ps : PostScript) : Result Footer := do
  let dataSize ← dataSize fileSize ps
  let bytes ← footerSlice buf ps
  let footer ← parseRoot "Unable to get root as footer" (env.footerFb.root bytes)
  let parsed ← parseFooter env footer
  let groups ← okOr (.parseError "Row group metadatas not found") parsed.rowGroups.rowGroupMetadatas
  let rowCounts ← okOr (.parseError "Row counts not found") parsed.rowGroups.rowCounts
  let offsets ← okOr (.parseError "Offsets not found") parsed.rowGroups.offsets
  let sizes ← okOr (.parseError "Sizes not found") parsed.rowGroups.sizes
  let metadatas ← collect (rowGroup env buf dataSize)
    (groups.zip (rowCounts.zip (offsets.zip sizes)))
  pure ⟨parsed.schema, metadatas⟩

/-- `Footer::try_new_with_projection`. -/
def tryNewWithProjection (env : Env) (rowGroupCntNPointers : List (Nat × Nat × Nat))
    (groupedColumnMetadataBufs : List (List Bytes)) (schema : List Field) : Result Footer := do
  let metadatas ← collect (fun p : List Bytes × Nat × Nat × Nat => do
    let columnMetadatas ← collect (rootColumnMetadata env) p.1
    pure (⟨columnMetadatas, p.2.1, p.2.2.1, p.2.2.2⟩ : GroupedColumnMetadata))
    (groupedColumnMetadataBufs.zip rowGroupCntNPointers)
  pure ⟨schema, metadatas⟩

end Footer

/-- `get_metadata_buffer`. -/
def getMetadataBuffer (file : Bytes) (ps : PostScript) : Result Bytes := do
  if ps.compression ≠ .uncompressed then fail (.general "Compression type not supported")
  else do
    let offset ← Footer.dataSize file.length ps
    readExactAt file offset ps.metadataSize

/-! ## Selection -/

/-- The loop of `process_selection` over the row groups, on sorted indexes. -/
def selectRows : List GroupedColumnMetadata → Nat → List Nat →
    List (GroupedColumnMetadata × Selection)
  | [], _, _ => []
  | m :: ms, startRow, sorted =>
      let endRow := startRow + m.rowCount
      let pending := sorted.dropWhile fun r => decide (r < startRow)
      let groupIndexes := pending.takeWhile fun r => decide (r < endRow)
      let sorted := pending.dropWhile fun r => decide (r < endRow)
      let here := if groupIndexes.isEmpty then []
        else [(m, Selection.rowIndexes (groupIndexes.map fun r => r - startRow))]
      if sorted.isEmpty then here else here ++ selectRows ms endRow sorted

/-- `process_selection`. -/
def processSelection (selection : Selection) (groups : List GroupedColumnMetadata) :
    List (GroupedColumnMetadata × Selection) :=
  match selection with
  | .all => groups.map fun g => (g, .all)
  | .rowIndexes rows =>
      if rows.isEmpty then [] else selectRows groups 0 (rows.insertionSort fun a b => a ≤ b)

/-! ## Reading the row groups -/

/-- The fields the reader decodes, each looked up when its turn comes. -/
def projectedFields (schema : List Field) : Projection → List (Result Field)
  | .all => schema.map .ok
  | .leafColumnIndexes indices => indices.map fun v => unwrapSome schema[v]?

/-- The arrays of one column under a selection. -/
def decodeSelected (env : Env) (decoder : LogicalColDecoder) : Selection → Result (List ArrayRef)
  | .all => decoder.decodeBatch env
  | .rowIndexes rows => do
      let row ← index rows 0
      decoder.decodeRowAt env row 1

/-- The closure `decode_col` on each field; the column index runs on. -/
def decodeCols (env : Env) (o : DecoderOptions) (selection : Selection) :
    List (Result Field) → Nat → Result (List (List ArrayRef))
  | [], _ => pure []
  | field :: fields, columnIdx => do
      let field ← field
      let (decoder, next) ← createLogicalDecoder o field columnIdx
      let arrays ← decodeSelected env decoder selection
      let columns ← decodeCols env o selection fields next
      pure (arrays :: columns)

/-- The `i`-th batch: the `i`-th array of every column. -/
def assembleBatch (schema : List Field) (columns : List (List ArrayRef)) (i : Nat) :
    Result RecordBatch := do
  let columnsThisBatch ← collect (fun c : List ArrayRef => index c i) columns
  RecordBatch.tryNew
    ((columnsThisBatch.zip schema).map fun p => .mk p.2.name p.1.dataType p.2.isNullable)
    columnsThisBatch

/-- The batches of the decoded columns of one row group. -/
def assembleBatches (schema : List Field) (columns : List (List ArrayRef)) :
    Result (List RecordBatch) := do
  let first ← index columns 0
  collect (assembleBatch schema columns) (List.range first.length)

/-- `FileReaderV2`. -/
structure FileReaderV2 where
  reader : Bytes
  schema : List Field
  projections : Projection
  selection : Selection
  groupedColumnMetadataBuffers : List (List Bytes)
  rowGroupCntNPointers : List (Nat × Nat × Nat)
  wasmContext : Option WASMReadingContext
  sharedDictionaryCache : Option SharedDictionaryCache
  checksumType : Option ChecksumType

namespace FileReaderV2

/-- One selected row group of `read_file_based_on_footer`. -/
def readRowGroup (env : Env) (r : FileReaderV2) (schema : List Field)
    (cache : SharedDictionaryCache) (p : GroupedColumnMetadata × Selection) :
    Result (List RecordBatch) := do
  let columns ← decodeCols env ⟨r.reader, p.1.columnMetadatas, r.wasmContext, cache, r.checksumType⟩
    p.2 (projectedFields schema r.projections) 0
  assembleBatches schema columns

/-- `read_file_based_on_footer`. -/
def readFileBasedOnFooter (env : Env) (r : FileReaderV2) (footer : Footer) :
    Result (List RecordBatch) := do
  let cache ← unwrapSome r.sharedDictionaryCache
  let batches ← collect (r.readRowGroup env footer.schema cache)
    (processSelection r.selection footer.rowGroupMetadatas)
  pure batches.flatten

/-- `read_file`. -/
def readFile (env : Env) (r : FileReaderV2) : Result (List RecordBatch) := do
  let footer ← Footer.tryNewWithProjection env r.rowGroupCntNPointers
    r.groupedColumnMetadataBuffers r.schema
  r.readFileBasedOnFooter env footer

end FileReaderV2

/-! ## The builder -/

/-- `DEFAULT_IOUNIT_SIZE`. -/
def defaultIounitSize : Nat := 8 * 1024 * 1024

/-- `FileReaderV2Builder`. -/
structure FileReaderV2Builder where
  reader : Bytes
  projections : Projection
  selection : Selection
  readAhead : Bool
  wasmRts : Option (List (Nat × Bytes))
  verifyIoUnitChecksum : Bool
  verifyFileChecksum : Bool

namespace FileReaderV2Builder

/-- `FileReaderV2Builder::new`. -/
def new (reader : Bytes) : FileReaderV2Builder :=
  ⟨reader, .all, .all, false, none, false, false⟩

/-- `with_projections`. -/
def withProjections (b : FileReaderV2Builder) (p : Projection) : FileReaderV2Builder :=
  { b with projections := p }

/-- `with_read_ahead`. -/
def withReadAhead (b : FileReaderV2Builder) (readAhead : Bool) : FileReaderV2Builder :=
  { b with readAhead := readAhead }

/-- `with_selection`, which asserts a single row index. -/
def withSelection (b : FileReaderV2Builder) (s : Selection) : Result FileReaderV2Builder :=
  match s with
  | .all => pure { b with selection := s }
  | .rowIndexes rows =>
      if rows.length = 1 then pure { b with selection := s }
      else panicking "Only one row index is supported for experiment purposes"

/-- The read-ahead buffer; empty without read-ahead. -/
def readAheadBuffer (b : FileReaderV2Builder) : Result Bytes :=
  if b.readAhead then
    let len := min defaultIounitSize b.reader.length
    readExactAt b.reader (b.reader.length - len) len
  else pure []

/-- The postscript, read from the read-ahead buffer if there is one. -/
def postscript (b : FileReaderV2Builder) (buffer : Bytes) : Result PostScript :=
  if b.readAhead then readPostscript (readSliceAt buffer) buffer.length
  else readPostscript (readExactAt b.reader) b.reader.length

/-- `verify_file_checksum`, if it is asked for. -/
def checkFile (env : Env) (b : FileReaderV2Builder) (ps : PostScript) : Result Unit :=
  if b.verifyFileChecksum then do
    let len ← checkedSub b.reader.length postscriptSize
    let data ← readExactAt b.reader 0 len
    if ps.dataChecksum ≠ env.xxh64 data then
      fail (.general "File level Checksum verification failed")
    else pure ()
  else pure ()

/-- The bytes of the footer. -/
def footerBytes (b : FileReaderV2Builder) (buffer : Bytes) (ps : PostScript) : Result Bytes :=
  if b.readAhead then
    if ps.footerSize < defaultIounitSize - 32 then do
      let stop ← checkedSub buffer.length postscriptSize
      let start ← checkedSub stop ps.footerSize
      sliceRange buffer start stop
    else panicking "Unlikely that footer size is larger than 8MB"
  else do
    let stop ← checkedSub b.reader.length postscriptSize
    let start ← checkedSub stop ps.footerSize
    readExactAt b.reader start ps.footerSize

/-- The number of columns of the first row group. -/
def totalColumns (rowGroups : Fb.RowGroups) : Result Nat := do
  let groups ← unwrapSome rowGroups.rowGroupMetadatas
  let first ← index groups 0
  let sections ← unwrapSome first.colMetadatas
  pure sections.length

/-- The zipped row counts, offsets and sizes. -/
def cntNPointers (rowGroups : Fb.RowGroups) : Result (List (Nat × Nat × Nat)) := do
  let rowCounts ← unwrapSome rowGroups.rowCounts
  let offsets ← unwrapSome rowGroups.offsets
  let sizes ← unwrapSome rowGroups.sizes
  pure (rowCounts.zip (offsets.zip sizes))

/-- `ratio > 0.6 || total_columns <= 100`: whether the metadata is read at once. -/
def readsAllMetadata (projections : Projection) (totalColumns : Nat) : Bool :=
  match projections with
  | .all => true
  | .leafColumnIndexes indices =>
      decide (Float.ofNat indices.length / Float.ofNat totalColumns > 0.6) ||
        decide (totalColumns ≤ 100)

/-- `all_metadata_buffer`, when it is read: the metadata without the footer. -/
def bulkBuffer (b : FileReaderV2Builder) (buffer : Bytes) (ps : PostScript) : Result Bytes := do
  let size ← checkedSub ps.metadataSize ps.footerSize
  if b.readAhead then do
    let offset ← Footer.dataSize buffer.length ps
    readSliceAt buffer offset size
  else do
    let offset ← Footer.dataSize b.reader.length ps
    readExactAt b.reader offset size

/-- `all_metadata_buffer`. -/
def allMetadataBuffer (b : FileReaderV2Builder) (buffer : Bytes) (ps : PostScript)
    (totalColumns : Nat) : Result (Option Bytes) :=
  if readsAllMetadata b.projections totalColumns then do
    let res ← b.bulkBuffer buffer ps
    pure (some res)
  else pure none

/-- The bytes of a `ColumnMetadata` cut out of `all_metadata_buffer`. -/
def bulkSlice (fileSize : Nat) (ps : PostScript) (buf : Bytes) (s : Fb.MetadataSection) :
    Result Bytes := do
  let dataSize ← Footer.dataSize fileSize ps
  let start ← checkedSub s.offset dataSize
  sliceRange buf start (start + s.size)

/-- The bytes of a `ColumnMetadata` read on their own. -/
def readSection (file : Bytes) (s : Fb.MetadataSection) : Result Bytes :=
  readExactAt file s.offset s.size

/-- The bytes of a `ColumnMetadata`, by one of the two routes. -/
def columnMetadataBuffer (b : FileReaderV2Builder) (ps : PostScript) (all : Option Bytes)
    (s : Fb.MetadataSection) : Result Bytes :=
  match all with
  | none => readSection b.reader s
  | some buf => bulkSlice b.reader.length ps buf s

/-- The sections of the projected columns of a row group. -/
def columnMetaPtrs (projections : Projection) (g : Fb.RowGroupMetadata) :
    Result (List Fb.MetadataSection) :=
  match projections with
  | .all => unwrapSome g.colMetadatas
  | .leafColumnIndexes indices => collect (fun i => do
      let sections ← unwrapSome g.colMetadatas
      index sections i) indices

/-- The metadata buffers of one row group. -/
def rowGroupBuffers (b : FileReaderV2Builder) (ps : PostScript) (all : Option Bytes)
    (g : Fb.RowGroupMetadata) : Result (List Bytes) := do
  let ptrs ← columnMetaPtrs b.projections g
  collect (b.columnMetadataBuffer ps all) ptrs

/-- The context made from the section `WASMBinaries`. -/
def sectionsContext (b : FileReaderV2Builder) (sections : Fb.OptionalMetadataSections)
    (versions : Option (List (EncodingType × Version))) : Result WASMReadingContext := do
  let names ← unwrapSome sections.names
  let pos ← unwrapSome (names.idxOf? "WASMBinaries")
  let offsets ← unwrapSome sections.offsets
  let offset ← index offsets pos
  let sizes ← unwrapSome sections.sizes
  let size ← index sizes pos
  let types ← unwrapSome sections.compressionTypes
  let compressionType ← index types pos
  pure ⟨none, some ⟨offset, size, compressionType⟩, some b.reader, versions⟩

/-- `wasm_context`. -/
def wasmContext (b : FileReaderV2Builder) (parsed : ParsedFooter) :
    Result (Option WASMReadingContext) :=
  match b.wasmRts, parsed.optionalSections with
  | some rts, _ => pure (some ⟨some rts, none, none, parsed.encodingVersions⟩)
  | none, none => pure none
  | none, some sections => do
      let ctx ← b.sectionsContext sections parsed.encodingVersions
      pure (some ctx)

/-- `shared_dictionary_cache`. -/
def dictionaryCache (env : Env) (b : FileReaderV2Builder) (parsed : ParsedFooter)
    (wasmContext : Option WASMReadingContext) : Result (Option SharedDictionaryCache) :=
  match parsed.sharedDictionaryTable with
  | none => pure none
  | some table => do
      let cache ← unwrap (SharedDictionaryCache.tryNewReadAll env b.reader table wasmContext)
      pure (some cache)

/-- The footer of the file and its postscript. -/
def openFooter (env : Env) (b : FileReaderV2Builder) (buffer : Bytes) :
    Result (PostScript × ParsedFooter) := do
  let ps ← b.postscript buffer
  b.checkFile env ps
  let bytes ← b.footerBytes buffer ps
  let footer ← parseRoot "Unable to get root as footer" (env.footerFb.root bytes)
  let parsed ← parseFooter env footer
  pure (ps, parsed)

/-- `build`. -/
def build (env : Env) (b : FileReaderV2Builder) : Result FileReaderV2 := do
  let buffer ← b.readAheadBuffer
  let (ps, parsed) ← b.openFooter env buffer
  let totalColumns ← totalColumns parsed.rowGroups
  let cntNPointers ← cntNPointers parsed.rowGroups
  let all ← b.allMetadataBuffer buffer ps totalColumns
  let groups ← okOr (.parseError "Row group metadatas not found") parsed.rowGroups.rowGroupMetadatas
  let buffers ← collect (b.rowGroupBuffers ps all) groups
  let wasmContext ← b.wasmContext parsed
  let cache ← b.dictionaryCache env parsed wasmContext
  pure {
    reader := b.reader
    schema := parsed.schema
    projections := b.projections
    selection := b.selection
    groupedColumnMetadataBuffers := buffers
    rowGroupCntNPointers := cntNPointers
    wasmContext := wasmContext
    sharedDictionaryCache := cache
    checksumType := if b.verifyIoUnitChecksum then some ps.checksumType else none }

end FileReaderV2Builder

end F3Format
