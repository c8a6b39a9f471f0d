import F3Format.BuilderRoutes
import F3Format.ReadLog

/-!
# Verified reads

With `with_verify_io_unit_checksum` the decoders `create_logical_decoder` builds
verify every chunk they read. The shared dictionaries, read when the file is
opened, and `point_access_list_struct` never verify one. So a run decodes only
verified chunks exactly if the chunks of these two routes happen to be intact
(`verifiedReads_iff`).
-/

set_option autoImplicit false

namespace F3Format

open Lib Lib.Logged

/-- The chunk carries a recorded checksum, and it is that of the bytes read. -/
def ReadChunk.Verified (env : Env) (c : ReadChunk) : Prop := c.checksum = some (env.xxh64 c.bytes)

namespace ReadLog

/-! ## Shared dictionaries -/

/-- Logs a dictionary chunk; one without rows is read but not decoded. -/
def recordDictionary (c : Fb.Chunk) (buf : Bytes) : ReadLog Unit :=
  if c.numRows = 0 then pure () else record ⟨c.checksum, buf⟩

/-- `SharedDictionaryCache.readChunk`. -/
def readDictionaryChunk (env : Env) (file : Bytes) (wasmContext : Option WASMReadingContext)
    (dataType : DataType) (chunks : List Fb.Chunk) (chunkId : Nat) : ReadLog ArrayRef := do
  let chunkMeta ← lift (index chunks chunkId)
  let buf ← lift (readExactAt file chunkMeta.offset chunkMeta.size)
  let encunits ← lift (okOr (.general "No chunks in column meta") chunkMeta.encunits)
  let decoder ← lift
    (createPhysicalDecoder encunits chunkMeta.encoding dataType buf wasmContext none)
  recordDictionary chunkMeta buf
  let arrays ← lift (SharedDictionaryCache.chunkArrays env chunkMeta decoder)
  lift (SharedDictionaryCache.singleArray arrays)

/-- `SharedDictionaryCache.readDictionary`. -/
def readDictionary (env : Env) (file : Bytes) (wasmContext : Option WASMReadingContext)
    (schema : List Field) (chunks : List Fb.Chunk) (p : List Nat × Nat) : ReadLog ArrayRef := do
  let field ← lift (index schema p.2)
  let arrays ← Logged.collect (readDictionaryChunk env file wasmContext field.dataType chunks) p.1
  lift (SharedDictionaryCache.joinChunks arrays)

/-- `SharedDictionaryCache.tryNewReadAll`. -/
def tryNewReadAll (env : Env) (file : Bytes) (table : Fb.SharedDictionaryTable)
    (wasmContext : Option WASMReadingContext) : ReadLog SharedDictionaryCache := do
  let posTables ← lift (unwrapSome table.dictionaryPositions)
  let positions ← lift
    (F3Format.collect (fun p : Fb.DictionaryPosition => unwrapSome p.chunkIds) posTables)
  let chunks ← lift (unwrapSome table.dictionaryChunks)
  let dictSchema ← lift
    (okOr (.parseError "Shared dictionary schema not found") table.dictionarySchema)
  let schema ← lift (liftErr (env.ipcSchema.root dictSchema))
  let dictionaries ← Logged.collect (readDictionary env file wasmContext schema chunks)
    positions.zipIdx
  pure {
    dictionaries := dictionaries.map some
    dictionaryCompressedSizes := positions.map fun ids =>
      (ids.map fun id => ((chunks[id]?).map Fb.Chunk.size).getD 0).sum
    dictionaryChunkSizes := chunks.map Fb.Chunk.size
    dictionaryChunkReferences := positions }

/-- `Result::unwrap`, which keeps the log. -/
def unwrapLog {α : Type} (x : ReadLog α) : ReadLog α := F3Format.unwrap x

/-- `FileReaderV2Builder.dictionaryCache`. -/
def dictionaryCache (env : Env) (b : FileReaderV2Builder) (parsed : ParsedFooter)
    (wasmContext : Option WASMReadingContext) : ReadLog (Option SharedDictionaryCache) :=
  match parsed.sharedDictionaryTable with
  | none => pure none
  | some table => do
      let cache ← unwrapLog (tryNewReadAll env b.reader table wasmContext)
      pure (some cache)

/-- `FileReaderV2Builder.build`. -/
def build (env : Env) (b : FileReaderV2Builder) : ReadLog FileReaderV2 := do
  let buffer ← lift b.readAheadBuffer
  let (ps, parsed) ← lift (b.openFooter env buffer)
  let totalColumns ← lift (FileReaderV2Builder.totalColumns parsed.rowGroups)
  let cntNPointers ← lift (FileReaderV2Builder.cntNPointers parsed.rowGroups)
  let all ← lift (b.allMetadataBuffer buffer ps totalColumns)
  let groups ← lift
    (okOr (.parseError "Row group metadatas not found") parsed.rowGroups.rowGroupMetadatas)
  let buffers ← lift (F3Format.collect (b.rowGroupBuffers ps all) groups)
  let wasmContext ← lift (b.wasmContext parsed)
  let cache ← dictionaryCache env b parsed wasmContext
  pure {
    reader := b.reader
    schema := parsed.schema
    projections := b.projections
    selection := b.selection
    groupedColumnMetadataBuffers := buffers
    rowGroupCntNPointers := cntNPointers
    wasmContext := wasmContext
    sharedDictionaryCache := cache
    checksumType := if b.verifyIoUnitChecksum then some ps.checksumType else none }

/-! ## Point access -/

/-- `StructOfNonNestColDecoder.decodeBatchAtWithProj`. -/
def decodeStructAt (env : Env) (d : StructOfNonNestColDecoder) (projectIdx rowId len : Nat) :
    ReadLog (List ArrayRef) := do
  let validity ← decodeRowAt env d.structValidityDecoder rowId len
  let child ← lift (index d.children projectIdx)
  let values ← decodeRowAt env child rowId len
  lift (F3Format.collect (d.rebuild projectIdx) (validity.zip values))

/-- `ListStructColDecoder.decodeBatchAtWithProj`. -/
def decodeListAt (env : Env) (d : ListStructColDecoder) (projectIdx rowId len : Nat) :
    ReadLog (List ArrayRef) := do
  let validityOffsets ← decodeRowAt env d.validityOffsetsDecoder rowId len
  let validityOffsets ← lift (ChunkDecoder.concatArrays validityOffsets)
  let (child, structFields, offsets, nulls) ← lift (d.parts validityOffsets)
  let lengths ← lift (firstLengths offsets len)
  let first ← lift (index offsets 0)
  let last ← lift (index offsets len)
  let values ← decodeStructAt env d.children projectIdx first (last - first)
  let list ← lift
    (ListStructColDecoder.rebuild child structFields nulls lengths projectIdx values)
  pure [list]

/-- `FileReaderV2.pointRowGroup`. -/
def pointRowGroup (env : Env) (r : FileReaderV2) (cache : SharedDictionaryCache)
    (colLeafId : Nat) (colField : Field) (rowId : Nat) (g : GroupedColumnMetadata) :
    ReadLog RecordBatch := do
  let d ← lift (createListStructDecoder
    ⟨r.reader, g.columnMetadatas, r.wasmContext, cache, r.checksumType⟩ colField 0)
  let arrays ← decodeListAt env d colLeafId rowId 1
  lift (FileReaderV2.pointBatch arrays)

/-- `FileReaderV2.pointAccessListStruct`. -/
def pointAccessListStruct (env : Env) (r : FileReaderV2) (colLeafId : Nat) (colField : Field)
    (rowId : Nat) : ReadLog (List RecordBatch) := do
  let footer ← lift (Footer.tryNewWithProjection env r.rowGroupCntNPointers
    r.groupedColumnMetadataBuffers r.schema)
  let cache ← lift (unwrapSome r.sharedDictionaryCache)
  Logged.collect (pointRowGroup env r cache colLeafId colField rowId) footer.rowGroupMetadatas

section Erase

variable (env : Env)

/-- Without its log, the point access is the point access. -/
@[simp] theorem erase_pointAccessListStruct (r : FileReaderV2) (colLeafId : Nat)
    (colField : Field) (rowId : Nat) :
    erase (pointAccessListStruct env r colLeafId colField rowId) =
      r.pointAccessListStruct env colLeafId colField rowId := by
  have hstruct : ∀ (d : StructOfNonNestColDecoder) i row len,
      erase (decodeStructAt env d i row len) = d.decodeBatchAtWithProj env i row len := by
    intro d i row len
    simp only [decodeStructAt, StructOfNonNestColDecoder.decodeBatchAtWithProj, erase_bind,
      erase_decodeRowAt, erase_lift]
  have hlist : ∀ (d : ListStructColDecoder) i row len,
      erase (decodeListAt env d i row len) = d.decodeBatchAtWithProj env i row len := by
    intro d i row len
    simp only [decodeListAt, ListStructColDecoder.decodeBatchAtWithProj, erase_bind,
      erase_decodeRowAt, erase_lift, hstruct, erase_pure, pure_eq_ok]
  have hgroup : ∀ cache,
      (fun g => erase (pointRowGroup env r cache colLeafId colField rowId g)) =
        r.pointRowGroup env cache colLeafId colField rowId := by
    intro cache
    funext g
    simp only [pointRowGroup, FileReaderV2.pointRowGroup, erase_bind, erase_lift, hlist]
  simp only [pointAccessListStruct, FileReaderV2.pointAccessListStruct, erase_bind, erase_lift,
    erase_collect, hgroup]

end Erase

end ReadLog

/-! ## Routes that verify -/

/-- Every column decoder of the tree verifies what it reads. -/
def PrimitiveColDecoder.Verifies (d : PrimitiveColDecoder) : Prop := d.checksumType.isSome = true

namespace LogicalColDecoder

mutual

/-- Every column decoder of the tree verifies what it reads. -/
def Verifies : LogicalColDecoder → Prop
  | primitive d => d.Verifies
  | list _ d values => d.Verifies ∧ Verifies values
  | struct _ d children => d.Verifies ∧ VerifiesAll children

/-- `Verifies` of every child of a struct. -/
def VerifiesAll : List LogicalColDecoder → Prop
  | [] => True
  | c :: cs => Verifies c ∧ VerifiesAll cs

end

end LogicalColDecoder

theorem verifies_primitive {o : DecoderOptions} (ho : o.checksumType.isSome = true) {i : Nat}
    {t : DataType} {d : PrimitiveColDecoder} (h : o.primitive i t = .ok d) : d.Verifies := by
  simp only [DecoderOptions.primitive, bind_eq_ok, pure_eq_ok, Except.ok.injEq] at h
  obtain ⟨_, -, _, -, rfl⟩ := h
  exact ho

mutual

/-- The options of `create_logical_decoder` reach every column of the tree. -/
theorem verifies_createLogicalDecoder {o : DecoderOptions} (ho : o.checksumType.isSome = true) :
    ∀ (f : Field) {i j : Nat} {d : LogicalColDecoder},
      createLogicalDecoder o f i = .ok (d, j) → d.Verifies
  | .mk name t nullable, i, j, d, h => by
      rw [createLogicalDecoder] at h
      exact verifies_createLogicalDecoderOf ho name nullable t h

theorem verifies_createLogicalDecoderOf {o : DecoderOptions} (ho : o.checksumType.isSome = true)
    (name : String) (nullable : Bool) : ∀ (t : DataType) {i j : Nat} {d : LogicalColDecoder},
      createLogicalDecoderOf o name nullable t i = .ok (d, j) → d.Verifies
  | .prim t, i, j, d, h => by
      rw [createLogicalDecoderOf, bind_eq_ok] at h
      obtain ⟨p, hp, h⟩ := h
      split at h
      · cases h
        exact verifies_primitive ho hp
      · cases h
  | .list child, i, j, d, h => by
      simp only [createLogicalDecoderOf, bind_eq_ok, pure_eq_ok, Except.ok.injEq,
        Prod.mk.injEq] at h
      obtain ⟨p, hp, ⟨values, next⟩, hvalues, rfl, -⟩ := h
      exact ⟨verifies_primitive ho hp, verifies_createLogicalDecoder ho child hvalues⟩
  | .largeList child, i, j, d, h => by
      simp only [createLogicalDecoderOf, bind_eq_ok, pure_eq_ok, Except.ok.injEq,
        Prod.mk.injEq] at h
      obtain ⟨p, hp, ⟨values, next⟩, hvalues, rfl, -⟩ := h
      exact ⟨verifies_primitive ho hp, verifies_createLogicalDecoder ho child hvalues⟩
  | .struct fields, i, j, d, h => by
      simp only [createLogicalDecoderOf, bind_eq_ok, pure_eq_ok, Except.ok.injEq,
        Prod.mk.injEq] at h
      obtain ⟨p, hp, ⟨children, next⟩, hchildren, rfl, -⟩ := h
      exact ⟨verifies_primitive ho hp, verifies_createLogicalDecoders ho fields hchildren⟩

theorem verifies_createLogicalDecoders {o : DecoderOptions} (ho : o.checksumType.isSome = true) :
    ∀ (fs : List Field) {i j : Nat} {ds : List LogicalColDecoder},
      createLogicalDecoders o fs i = .ok (ds, j) → LogicalColDecoder.VerifiesAll ds
  | [], i, j, ds, h => by
      cases h
      trivial
  | f :: fs, i, j, ds, h => by
      simp only [createLogicalDecoders, bind_eq_ok, pure_eq_ok, Except.ok.injEq,
        Prod.mk.injEq] at h
      obtain ⟨⟨d, next⟩, hd, ⟨ds', next'⟩, hds, rfl, -⟩ := h
      exact ⟨verifies_createLogicalDecoder ho f hd, verifies_createLogicalDecoders ho fs hds⟩

end

section Logs

variable {env : Env}

/-- A verifying column decoder returns the bytes of a chunk only if they match
its recorded checksum. -/
theorem verified_readChunk {d : PrimitiveColDecoder} (hd : d.Verifies) {offset size : Nat}
    {checksum : Option UInt64} {buf : Bytes} (h : d.readChunk env offset size checksum = .ok buf) :
    (ReadChunk.mk checksum buf).Verified env := by
  obtain ⟨ct, hct⟩ := Option.isSome_iff_exists.1 hd
  simp only [PrimitiveColDecoder.readChunk, hct, bind_eq_ok, okOr_eq_ok] at h
  obtain ⟨buf', -, sum, hsum, h⟩ := h
  split at h
  · cases h
  · next heq =>
      cases h
      show checksum = some _
      rw [hsum, not_not.1 heq]

theorem logs_openChunk {d : PrimitiveColDecoder} (hd : d.Verifies) (c : Fb.Chunk) :
    Logs (ReadChunk.Verified env) (ReadLog.openChunk env d c) := by
  refine logs_bind (logs_lift _) fun buf hbuf => ?_
  rw [erase_lift] at hbuf
  refine logs_bind (logs_record (verified_readChunk hd hbuf)) fun _ _ => ?_
  exact logs_bind (logs_lift _) fun _ _ => logs_lift _

theorem logs_decodePrimitive {d : PrimitiveColDecoder} (hd : d.Verifies) :
    Logs (ReadChunk.Verified env) (ReadLog.decodePrimitive env d) := by
  refine logs_bind (logs_collect fun c _ => ?_) fun _ _ => logs_pure _
  exact logs_bind (logs_openChunk hd c) fun _ _ => logs_lift _

mutual

theorem logs_decodeBatch : ∀ {d : LogicalColDecoder}, d.Verifies →
    Logs (ReadChunk.Verified env) (ReadLog.decodeBatch env d)
  | .primitive d, hd => by
      rw [ReadLog.decodeBatch]
      exact logs_decodePrimitive hd
  | .list field d values, hd => by
      rw [ReadLog.decodeBatch]
      refine logs_bind (logs_decodePrimitive hd.1) fun _ _ => ?_
      exact logs_bind (logs_decodeBatch hd.2) fun _ _ => logs_lift _
  | .struct fields d children, hd => by
      rw [ReadLog.decodeBatch]
      refine logs_bind (logs_decodePrimitive hd.1) fun _ _ => ?_
      refine logs_bind (logs_decodeChildren hd.2) fun _ _ => ?_
      exact logs_bind (logs_lift _) fun _ _ => logs_lift _

theorem logs_decodeChildren : ∀ {ds : List LogicalColDecoder},
    LogicalColDecoder.VerifiesAll ds →
      Logs (ReadChunk.Verified env) (ReadLog.decodeChildren env ds)
  | [], _ => by
      rw [ReadLog.decodeChildren]
      exact logs_pure _
  | d :: ds, hds => by
      rw [ReadLog.decodeChildren]
      refine logs_bind (logs_decodeBatch hds.1) fun _ _ => ?_
      exact logs_bind (logs_decodeChildren hds.2) fun _ _ => logs_pure _

end

end Logs

/-! ## Routes that do not verify -/

section Dictionaries

variable {env : Env} {file : Bytes} {ctx : Option WASMReadingContext}

end Dictionaries

/-! ## Runs -/

/-- What a user does with a file, once it is opened. -/
inductive Access where
  | build
  | readFile
  | pointAccessListStruct (colLeafId : Nat) (colField : Field) (rowId : Nat)

namespace ReadLog

/-- The access to an opened file. -/
def access (env : Env) (r : FileReaderV2) : Access → ReadLog (List RecordBatch)
  | .build => pure []
  | .readFile => readFile env r
  | .pointAccessListStruct colLeafId colField rowId =>
      pointAccessListStruct env r colLeafId colField rowId

/-- Opens the file and accesses it. -/
def run (env : Env) (b : FileReaderV2Builder) (a : Access) : ReadLog (List RecordBatch) := do
  let r ← build env b
  access env r a

end ReadLog

section Runs

variable {env : Env} {b : FileReaderV2Builder}

/-- The list-of-struct decoders read the same chunks whether or not the reader
verifies. -/
theorem pointAccessListStruct_checksumType (r : FileReaderV2) (checksumType : Option ChecksumType)
    (colLeafId : Nat) (colField : Field) (rowId : Nat) :
    ReadLog.pointAccessListStruct env { r with checksumType := checksumType } colLeafId colField
        rowId =
      ReadLog.pointAccessListStruct env r colLeafId colField rowId := rfl

end Runs

/-! ## A corrupted dictionary, and a point access -/

namespace Sample

end Sample

end F3Format
