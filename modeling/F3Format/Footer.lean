import F3Format.Arrow
import F3Format.Lib.Bytes

/-!
# File metadata

Two families of types. The first is what the writer fills in
(`file/footer.rs`, `dict/shared_dictionary.rs`); the second, in namespace `Fb`,
is what a reader sees through the FlatBuffers accessors of `File.fbs`, where
every non-scalar field may be absent. `toFb` maps one to the other.
-/

set_option autoImplicit false

namespace F3Format

open Lib

/-- `MAJOR_VERSION`. -/
def majorVersion : Nat := 0

/-- `MINOR_VERSION`. -/
def minorVersion : Nat := 1

/-- `MAGIC`, the two letters `F3`. -/
def magic : Bytes := [70, 51]

/-- `POSTSCRIPT_SIZE`. -/
def postscriptSize : Nat := 32

/-- `fb::CompressionType`; a code outside the enumeration is kept as it is. -/
inductive CompressionType where
  | uncompressed
  | zstd
  | lz4
  | unknown (code : UInt8)
  deriving DecidableEq, Repr

namespace CompressionType

/-- `CompressionType::from(u8)`. -/
def ofByte (b : UInt8) : CompressionType :=
  if b = 0 then .uncompressed else if b = 1 then .zstd else if b = 2 then .lz4 else .unknown b

/-- `u8::from(CompressionType)`. -/
def toByte : CompressionType → UInt8
  | uncompressed => 0
  | zstd => 1
  | lz4 => 2
  | unknown b => b

/-- The three types `compress_data` accepts. -/
def supported : CompressionType → Bool
  | unknown _ => false
  | _ => true

end CompressionType

/-- `fb::EncodingType`. -/
inductive EncodingType where
  | cascade
  | customWasm
  | unknown (code : UInt8)
  deriving DecidableEq, Repr

/-- `common::checksum::ChecksumType`. -/
inductive ChecksumType where
  | xxHash
  deriving DecidableEq, Repr

/-- `ChecksumType::from(u8)`, which panics on an unknown code. -/
def ChecksumType.ofByte (b : UInt8) : Result ChecksumType :=
  if b = 0 then .ok .xxHash else panicking "Invalid checksum type"

/-- `ChecksumType as u8`. -/
def ChecksumType.toByte : ChecksumType → UInt8
  | xxHash => 0

/-- `fb::LogicalId`. -/
inductive LogicalId where
  | flat
  | list
  | struct
  | listOfStructOfPrimitive
  deriving DecidableEq, Repr

/-- `encoder::logical::LogicalTree`. -/
inductive LogicalTree where
  | mk (id : LogicalId) (children : List LogicalTree)

/-- `semver::Version`, without pre-release tags. -/
structure Version where
  major : Nat
  minor : Nat
  patch : Nat
  deriving DecidableEq, Repr

/-- `Version::cmp_precedence(..).is_lt()`. -/
def Version.lt (a b : Version) : Bool :=
  decide (a.major < b.major ∨ (a.major = b.major ∧ (a.minor < b.minor ∨
    (a.minor = b.minor ∧ a.patch < b.patch))))

/-- `DEFAULT_ENCODING_VERSIONS`. -/
def defaultEncodingVersions : List (EncodingType × Version) :=
  [(.cascade, ⟨0, 21, 0⟩), (.customWasm, ⟨1, 0, 0⟩)]

/-! ## Metadata the reader sees -/

namespace Fb

/-- `fb::WASMEncoding`. -/
structure WASMEncoding where
  wasmId : Nat
  miniEncunitSizes : Option (List Nat)
  deriving DecidableEq, Repr

/-- `fb::Encoding`. -/
structure Encoding where
  type_ : EncodingType
  wasmEncoding : Option WASMEncoding
  deriving DecidableEq, Repr

/-- `fb::EncUnit`. -/
structure EncUnit where
  size : Nat
  encoding : Option Encoding
  numRows : Nat
  compression : CompressionType
  deriving DecidableEq, Repr

/-- The union `fb::DictionaryEncoding` with the table it selects. -/
inductive DictionaryEncoding where
  | none
  | noDictionary
  | localDictionary (dictionaryEncblockIdxs : Option (List Nat))
  | sharedDictionary (sharedDictionaryIdx : Nat)
  deriving DecidableEq, Repr

/-- `fb::Chunk`. -/
structure Chunk where
  offset : Nat
  size : Nat
  numRows : Nat
  encoding : DictionaryEncoding
  encunits : Option (List EncUnit)
  checksum : Option UInt64
  deriving DecidableEq, Repr

/-- `fb::ColumnMetadata`. -/
structure ColumnMetadata where
  columnChunks : Option (List Chunk)
  deriving DecidableEq, Repr

/-- `fb::MetadataSection`. -/
structure MetadataSection where
  offset : Nat
  size : Nat
  compressionType : CompressionType
  deriving DecidableEq, Repr

/-- `fb::RowGroupMetadata`. -/
structure RowGroupMetadata where
  colMetadatas : Option (List MetadataSection)
  deriving DecidableEq, Repr

/-- `fb::RowGroups`. -/
structure RowGroups where
  rowCounts : Option (List Nat)
  offsets : Option (List Nat)
  sizes : Option (List Nat)
  rowGroupMetadatas : Option (List RowGroupMetadata)
  deriving DecidableEq, Repr

/-- `fb::WASMBinaries`. -/
structure WASMBinaries where
  wasmBinaries : Option (List MetadataSection)
  deriving DecidableEq, Repr

/-- `fb::OptionalMetadataSections`. -/
structure OptionalMetadataSections where
  names : Option (List String)
  offsets : Option (List Nat)
  sizes : Option (List Nat)
  compressionTypes : Option (List CompressionType)
  deriving DecidableEq, Repr

/-- `fb::DictionaryPosition`. -/
structure DictionaryPosition where
  chunkIds : Option (List Nat)
  deriving DecidableEq, Repr

/-- `fb::SharedDictionaryTable`. -/
structure SharedDictionaryTable where
  dictionaryChunks : Option (List Chunk)
  dictionaryPositions : Option (List DictionaryPosition)
  dictionarySchema : Option Bytes
  deriving DecidableEq, Repr

/-- `fb::EncodingVersion`. -/
structure EncodingVersion where
  encodingType : EncodingType
  version : Version
  deriving DecidableEq, Repr

/-- `fb::Footer`. -/
structure Footer where
  schema : Option Bytes
  logicalTree : Option LogicalTree
  rowGroups : Option RowGroups
  optionalSections : Option OptionalMetadataSections
  sharedDictionaryTable : Option SharedDictionaryTable
  encodingVersions : Option (List EncodingVersion)

end Fb

/-! ## Metadata the writer fills in -/

/-- `footer::DictionaryEncoding`. -/
inductive DictionaryEncoding where
  | noDictionary
  | dictionary (idxs : List Nat)
  | sharedDictionary (idx : Nat)
  deriving DecidableEq, Repr

/-- `footer::WASMEncoding`. -/
structure WASMEncoding where
  wasmId : Nat
  miniEncunitSizes : List Nat
  deriving DecidableEq, Repr

/-- `footer::Encoding`. -/
structure Encoding where
  encodingType : EncodingType
  wasmEncoding : Option WASMEncoding
  deriving DecidableEq, Repr

/-- `footer::EncUnit`. -/
structure EncUnit where
  size : Nat
  numRows : Nat
  encoding : Encoding
  compression : CompressionType
  deriving DecidableEq, Repr

/-- `footer::Chunk`. -/
structure Chunk where
  offset : Nat
  size : Nat
  numRows : Nat
  encoding : DictionaryEncoding
  blocks : List EncUnit
  checksum : Option UInt64
  deriving DecidableEq, Repr

/-- `footer::ColumnMetadata`. -/
structure ColumnMetadata where
  columnChunks : List Chunk
  deriving DecidableEq, Repr

/-- `ColumnMetadata::default()`. -/
def ColumnMetadata.empty : ColumnMetadata := ⟨[]⟩

/-- `ColumnMetadata::add_chunk`. -/
def ColumnMetadata.addChunk (m : ColumnMetadata) (c : Chunk) : ColumnMetadata :=
  ⟨m.columnChunks ++ [c]⟩

/-- `footer::MetadataSection`. -/
structure MetadataSection where
  offset : Nat
  size : Nat
  compressionType : CompressionType
  deriving DecidableEq, Repr

/-- `footer::IndirectRowGroupMetadata`. -/
structure IndirectRowGroupMetadata where
  colMetadatas : List MetadataSection
  deriving DecidableEq, Repr

/-- `footer::RowGroupMetadata`. -/
structure RowGroupMetadata where
  colMetadatas : List ColumnMetadata
  deriving DecidableEq, Repr

/-- `footer::RowGroupsTable`. -/
structure RowGroupsTable where
  rowCounts : List Nat
  offsets : List Nat
  sizes : List Nat
  indirectRowGroupMetadata : List IndirectRowGroupMetadata
  rowGroupMetadata : List RowGroupMetadata

/-- `RowGroupsTable::default()`. -/
def RowGroupsTable.empty : RowGroupsTable := ⟨[], [], [], [], []⟩

/-- `RowGroupsTable::add_meta`. -/
def RowGroupsTable.addMeta (t : RowGroupsTable) (rowCount offset size : Nat)
    (rowGroupMetadata : RowGroupMetadata) : RowGroupsTable :=
  { t with
    rowCounts := t.rowCounts ++ [rowCount]
    offsets := t.offsets ++ [offset]
    sizes := t.sizes ++ [size]
    rowGroupMetadata := t.rowGroupMetadata ++ [rowGroupMetadata] }

/-- `SharedDictionaryTable`. -/
structure SharedDictionaryTable where
  dictionaryChunks : List Chunk
  dictionaryPositions : List (List Nat)
  dictionaryDatatypes : List DataType

/-- `footer::EncodingVersion`. -/
structure EncodingVersion where
  encodingType : EncodingType
  version : Version
  deriving DecidableEq, Repr

/-- `create_default_encoding_versions`. The source walks a hash map, so the
order of the list carries no meaning. -/
def createDefaultEncodingVersions : List EncodingVersion :=
  defaultEncodingVersions.map fun p => ⟨p.1, p.2⟩

/-! ## `to_fb` -/

/-- `WASMEncoding::to_fb`. -/
def WASMEncoding.toFb (e : WASMEncoding) : Fb.WASMEncoding :=
  ⟨e.wasmId, some e.miniEncunitSizes⟩

/-- `Encoding::to_fb`. -/
def Encoding.toFb (e : Encoding) : Fb.Encoding :=
  ⟨e.encodingType, e.wasmEncoding.map WASMEncoding.toFb⟩

/-- `EncUnit::to_fb`. -/
def EncUnit.toFb (u : EncUnit) : Fb.EncUnit :=
  ⟨u.size, some u.encoding.toFb, u.numRows, u.compression⟩

/-- The union value written for a chunk's dictionary encoding. -/
def DictionaryEncoding.toFb : DictionaryEncoding → Fb.DictionaryEncoding
  | noDictionary => .noDictionary
  | dictionary idxs => .localDictionary (some idxs)
  | sharedDictionary idx => .sharedDictionary idx

/-- `Chunk::to_fb`. -/
def Chunk.toFb (c : Chunk) : Fb.Chunk :=
  ⟨c.offset, c.size, c.numRows, c.encoding.toFb, some (c.blocks.map EncUnit.toFb), c.checksum⟩

/-- `ColumnMetadata::to_fb`. -/
def ColumnMetadata.toFb (m : ColumnMetadata) : Fb.ColumnMetadata :=
  ⟨some (m.columnChunks.map Chunk.toFb)⟩

/-- `MetadataSection::to_fb`. -/
def MetadataSection.toFb (s : MetadataSection) : Fb.MetadataSection :=
  ⟨s.offset, s.size, s.compressionType⟩

/-- `IndirectRowGroupMetadata::to_fb`. -/
def IndirectRowGroupMetadata.toFb (m : IndirectRowGroupMetadata) : Fb.RowGroupMetadata :=
  ⟨some (m.colMetadatas.map MetadataSection.toFb)⟩

/-- `EncodingVersion::to_fb`. -/
def EncodingVersion.toFb (v : EncodingVersion) : Fb.EncodingVersion :=
  ⟨v.encodingType, v.version⟩

end F3Format
