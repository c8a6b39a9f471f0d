import F3Format.BuilderRoutes
import F3Format.MalformedRows
import F3Format.SampleEnv

/-!
# Malformed files

Opening a file and reading it takes much of what the file says for granted. The
`Guarded` predicates say what, in the order of the code; a file whose sizes,
offsets and tables are not guarded makes the reader panic, and any other one is
read or rejected with an error (`safe_open_and_read_iff`).
-/

set_option autoImplicit false

namespace F3Format

open Lib

variable {env : Env}

namespace FileReaderV2Builder

/-! ## Postscript and footer -/

/-- The bytes of the postscript. -/
def tail (b : FileReaderV2Builder) : Bytes :=
  slice b.reader (b.reader.length - postscriptSize) postscriptSize

/-- The file has a postscript, and behind the right magic number the code of its
checksum type is known. -/
def PostscriptGuarded (b : FileReaderV2Builder) : Prop :=
  postscriptSize ≤ b.reader.length ∧
    (slice b.tail (b.tail.length - 2) 2 = magic → UInt8.ofNat (leDecode (slice b.tail 9 1)) = 0)

/-- The number of bytes the footer and the metadata are looked for in. -/
def reach (b : FileReaderV2Builder) : Nat :=
  if b.readAhead then min defaultIounitSize b.reader.length else b.reader.length

/-- The footer is as long as the postscript says, and what is read ahead has it. -/
def FooterFits (b : FileReaderV2Builder) (ps : PostScript) : Prop :=
  (b.readAhead = true → ps.footerSize < defaultIounitSize - 32) ∧
    postscriptSize + ps.footerSize ≤ b.reach

/-- A footer with a schema has the logical tree. -/
def FooterGuarded (env : Env) (footer : Fb.Footer) : Prop :=
  ∀ bytes schema, footer.schema = some bytes → env.ipcSchema.root bytes = .ok schema →
    footer.logicalTree.isSome = true

/-- What opening the footer takes for granted. -/
def OpenGuarded (env : Env) (b : FileReaderV2Builder) : Prop :=
  b.PostscriptGuarded ∧ After (b.postscript b.window) fun ps =>
    After (b.checkFile env ps) fun _ => b.FooterFits ps ∧
      After (b.footerBytes b.window ps) fun bytes => ∀ footer, env.footerFb.root bytes = .ok footer →
        FooterGuarded env footer

/-- The first row group lists its columns. -/
def ColumnsListed (rowGroups : Fb.RowGroups) : Prop :=
  ∃ g gs, rowGroups.rowGroupMetadatas = some (g :: gs) ∧ g.colMetadatas.isSome = true

/-- The tables of row counts, offsets and sizes are there. -/
def TablesListed (rowGroups : Fb.RowGroups) : Prop :=
  rowGroups.rowCounts.isSome = true ∧ rowGroups.offsets.isSome = true ∧
    rowGroups.sizes.isSome = true

/-- Where the metadata is read at once, it is as long as the postscript says. -/
def BulkFits (b : FileReaderV2Builder) (ps : PostScript) (totalColumns : Nat) : Prop :=
  readsAllMetadata b.projections totalColumns = true →
    ps.footerSize ≤ ps.metadataSize ∧ postscriptSize + ps.metadataSize ≤ b.reach

/-- A section is inside the buffer it is cut out of. -/
def SectionGuarded (b : FileReaderV2Builder) (ps : PostScript) (all : Option Bytes)
    (s : Fb.MetadataSection) : Prop :=
  ∀ buf, all = some buf → postscriptSize + ps.metadataSize ≤ b.reader.length ∧
    b.reader.length ≤ s.offset + postscriptSize + ps.metadataSize ∧
      s.offset + s.size + postscriptSize + ps.metadataSize ≤ b.reader.length + buf.length

/-- A row group lists its columns, and the projected ones are among them. -/
def PointersGuarded (projections : Projection) (g : Fb.RowGroupMetadata) : Prop :=
  match projections with
  | .all => g.colMetadatas.isSome = true
  | .leafColumnIndexes indices => ∀ i ∈ indices, ∃ sections, g.colMetadatas = some sections ∧
      i < sections.length

/-- What cutting out the metadata of a row group takes for granted. -/
def GroupGuarded (b : FileReaderV2Builder) (ps : PostScript) (all : Option Bytes)
    (g : Fb.RowGroupMetadata) : Prop :=
  PointersGuarded b.projections g ∧ After (columnMetaPtrs b.projections g) fun ptrs =>
    ∀ s, Reached (b.columnMetadataBuffer ps all) ptrs s → b.SectionGuarded ps all s

/-- The optional sections have an entry for the decoders. -/
def SectionsGuarded (sections : Fb.OptionalMetadataSections) : Prop :=
  ∃ names pos offsets sizes types, sections.names = some names ∧
    names.idxOf? "WASMBinaries" = some pos ∧ sections.offsets = some offsets ∧
      pos < offsets.length ∧ sections.sizes = some sizes ∧ pos < sizes.length ∧
        sections.compressionTypes = some types ∧ pos < types.length

/-- Where the file has optional sections and no decoders are given, they are guarded. -/
def ContextGuarded (b : FileReaderV2Builder) (parsed : ParsedFooter) : Prop :=
  ∀ sections, b.wasmRts = none → parsed.optionalSections = some sections →
    SectionsGuarded sections

/-- The dictionaries of the file can be read: here every error is a panic. -/
def DictionariesGuarded (env : Env) (b : FileReaderV2Builder) (parsed : ParsedFooter)
    (ctx : Option WASMReadingContext) : Prop :=
  ∀ table, parsed.sharedDictionaryTable = some table →
    ∃ cache, SharedDictionaryCache.tryNewReadAll env b.reader table ctx = .ok cache

end FileReaderV2Builder

/-! ## Reading row groups -/

/-- What decoding a column takes for granted under a selection. -/
def SelectedGuarded (env : Env) (decoder : LogicalColDecoder) : Selection → Prop
  | .all => decoder.Guarded env
  | .rowIndexes rows => ∃ row, rows[0]? = some row ∧ decoder.RowGuarded env row 1

/-- What decoding the projected columns takes for granted: the projection names
fields of the schema, and each column the loop gets to is guarded. -/
def ColsGuarded (env : Env) (o : DecoderOptions) (selection : Selection) :
    List (Result Field) → Nat → Prop
  | [], _ => True
  | field :: fields, columnIdx => ∃ f, field = .ok f ∧ Creatable o f columnIdx ∧
      After (createLogicalDecoder o f columnIdx) fun p => SelectedGuarded env p.1 selection ∧
        After (decodeSelected env p.1 selection) fun _ => ColsGuarded env o selection fields p.2

/-- What assembling the batches takes for granted: there is a column, and for
each batch the loop gets to every column has an array. -/
def BatchesGuarded (schema : List Field) (columns : List (List ArrayRef)) : Prop :=
  ∃ first rest, columns = first :: rest ∧
    ∀ i, Reached (assembleBatch schema columns) (List.range first.length) i →
      ∀ c ∈ columns, i < c.length

namespace FileReaderV2

/-- What reading a row group takes for granted. -/
def RowGroupGuarded (env : Env) (r : FileReaderV2) (schema : List Field)
    (cache : SharedDictionaryCache) (p : GroupedColumnMetadata × Selection) : Prop :=
  let o : DecoderOptions := ⟨r.reader, p.1.columnMetadatas, r.wasmContext, cache, r.checksumType⟩
  ColsGuarded env o p.2 (projectedFields schema r.projections) 0 ∧
    After (decodeCols env o p.2 (projectedFields schema r.projections) 0) (BatchesGuarded schema)

/-- What `read_file` takes for granted: the column metadata is well formed, the
file has a dictionary table, and each row group the loop gets to is guarded. -/
def Guarded (env : Env) (r : FileReaderV2) : Prop :=
  (∀ p ∈ r.groupedColumnMetadataBuffers.zip r.rowGroupCntNPointers, ∀ buf ∈ p.1,
    ∃ m, env.columnMetadataFb.root buf = .ok m) ∧
  After (Footer.tryNewWithProjection env r.rowGroupCntNPointers r.groupedColumnMetadataBuffers
    r.schema) fun footer =>
      ∃ cache, r.sharedDictionaryCache = some cache ∧
        ∀ p, Reached (r.readRowGroup env footer.schema cache)
          (processSelection r.selection footer.rowGroupMetadatas) p →
            r.RowGroupGuarded env footer.schema cache p

end FileReaderV2

/-! ## Opening and reading -/

namespace FileReaderV2Builder

/-- The reader the builder makes of the parts of a file. -/
def opened (b : FileReaderV2Builder) (ps : PostScript) (parsed : ParsedFooter)
    (tables : List (Nat × Nat × Nat)) (buffers : List (List Bytes))
    (ctx : Option WASMReadingContext) (cache : Option SharedDictionaryCache) : FileReaderV2 where
  reader := b.reader
  schema := parsed.schema
  projections := b.projections
  selection := b.selection
  groupedColumnMetadataBuffers := buffers
  rowGroupCntNPointers := tables
  wasmContext := ctx
  sharedDictionaryCache := cache
  checksumType := if b.verifyIoUnitChecksum then some ps.checksumType else none

/-- What the parts after the footer take for granted, up to reading the file. -/
def PartsGuarded (env : Env) (b : FileReaderV2Builder) (ps : PostScript) (parsed : ParsedFooter) :
    Prop :=
  ColumnsListed parsed.rowGroups ∧ After (totalColumns parsed.rowGroups) fun totalColumns =>
    TablesListed parsed.rowGroups ∧ After (cntNPointers parsed.rowGroups) fun tables =>
      b.BulkFits ps totalColumns ∧
        After (b.allMetadataBuffer b.window ps totalColumns) fun all =>
          ∀ groups, parsed.rowGroups.rowGroupMetadatas = some groups →
            (∀ g, Reached (b.rowGroupBuffers ps all) groups g → b.GroupGuarded ps all g) ∧
              After (collect (b.rowGroupBuffers ps all) groups) fun buffers =>
                b.ContextGuarded parsed ∧ After (b.wasmContext parsed) fun ctx =>
                  b.DictionariesGuarded env parsed ctx ∧
                    After (b.dictionaryCache env parsed ctx) fun cache =>
                      (b.opened ps parsed tables buffers ctx cache).Guarded env

/-- What opening and reading a file take for granted. -/
def Guarded (env : Env) (b : FileReaderV2Builder) : Prop :=
  b.OpenGuarded env ∧ After (b.openFooter env b.window) fun p => b.PartsGuarded env p.1 p.2

end FileReaderV2Builder

namespace Sample

end Sample

end F3Format
