import F3Format.EncoderLogical
import F3Format.Lib.Wire

/-!
# A concrete environment

`Sample.env` gives every external function a small definition that keeps its
documented behaviour: serialisers are codecs, the compressors write a header
byte, and Vortex writes the type and the rows of an array. The laws of `Env`
hold of it, so that results that assume them can be run.
-/

set_option autoImplicit false

namespace F3Format

open Lib

namespace Sample

/-! ## Arrays -/

/-- An integer by its sign. -/
def intCodec : Codec Int :=
  (Codec.nat.sum Codec.nat).retract
    (fun
      | .ofNat n => .inl n
      | .negSucc n => .inr n)
    (fun
      | .inl n => .ofNat n
      | .inr n => .negSucc n)
    (fun i => by cases i <;> rfl)

/-- A value of a leaf array. -/
def scalarCodec : Codec Scalar :=
  (Codec.bool.sum (intCodec.sum (Codec.nat.sum (Codec.string.sum Codec.byte.list)))).retract
    (fun
      | .bool b => .inl b
      | .int i => .inr (.inl i)
      | .float bits => .inr (.inr (.inl bits))
      | .str s => .inr (.inr (.inr (.inl s)))
      | .bytes b => .inr (.inr (.inr (.inr b))))
    (fun
      | .inl b => .bool b
      | .inr (.inl i) => .int i
      | .inr (.inr (.inl bits)) => .float bits
      | .inr (.inr (.inr (.inl s))) => .str s
      | .inr (.inr (.inr (.inr b))) => .bytes b)
    (fun v => by cases v <;> rfl)

/-- A time unit as a number. -/
def timeUnitCode : TimeUnit → Nat
  | .second => 0
  | .millisecond => 1
  | .microsecond => 2
  | .nanosecond => 3

/-- The time unit of a number. -/
def timeUnitOf : Nat → TimeUnit
  | 0 => .second
  | 1 => .millisecond
  | 2 => .microsecond
  | _ => .nanosecond

theorem timeUnitOf_code (u : TimeUnit) : timeUnitOf (timeUnitCode u) = u := by cases u <;> rfl

/-- A childless type as a number, two parameters and a time zone. -/
def primCode : PrimType → Nat × (Nat × Nat) × Option String
  | .null => (0, (0, 0), none)
  | .boolean => (1, (0, 0), none)
  | .int8 => (2, (0, 0), none)
  | .int16 => (3, (0, 0), none)
  | .int32 => (4, (0, 0), none)
  | .int64 => (5, (0, 0), none)
  | .uint8 => (6, (0, 0), none)
  | .uint16 => (7, (0, 0), none)
  | .uint32 => (8, (0, 0), none)
  | .uint64 => (9, (0, 0), none)
  | .float16 => (10, (0, 0), none)
  | .float32 => (11, (0, 0), none)
  | .float64 => (12, (0, 0), none)
  | .timestamp u tz => (13, (timeUnitCode u, 0), tz)
  | .date32 => (14, (0, 0), none)
  | .date64 => (15, (0, 0), none)
  | .time32 .second => (16, (0, 0), none)
  | .time32 .millisecond => (17, (0, 0), none)
  | .time64 .microsecond => (18, (0, 0), none)
  | .time64 .nanosecond => (19, (0, 0), none)
  | .duration u => (20, (timeUnitCode u, 0), none)
  | .interval .yearMonth => (21, (0, 0), none)
  | .interval .dayTime => (22, (0, 0), none)
  | .interval .monthDayNano => (23, (0, 0), none)
  | .binary => (24, (0, 0), none)
  | .largeBinary => (25, (0, 0), none)
  | .binaryView => (26, (0, 0), none)
  | .utf8 => (27, (0, 0), none)
  | .largeUtf8 => (28, (0, 0), none)
  | .utf8View => (29, (0, 0), none)
  | .decimal128 p s => (30, (p, s), none)
  | .decimal256 p s => (31, (p, s), none)

/-- The type of a code. -/
def primOf : Nat × (Nat × Nat) × Option String → PrimType
  | (0, _, _) => .null
  | (1, _, _) => .boolean
  | (2, _, _) => .int8
  | (3, _, _) => .int16
  | (4, _, _) => .int32
  | (5, _, _) => .int64
  | (6, _, _) => .uint8
  | (7, _, _) => .uint16
  | (8, _, _) => .uint32
  | (9, _, _) => .uint64
  | (10, _, _) => .float16
  | (11, _, _) => .float32
  | (12, _, _) => .float64
  | (13, (u, _), tz) => .timestamp (timeUnitOf u) tz
  | (14, _, _) => .date32
  | (15, _, _) => .date64
  | (16, _, _) => .time32 .second
  | (17, _, _) => .time32 .millisecond
  | (18, _, _) => .time64 .microsecond
  | (19, _, _) => .time64 .nanosecond
  | (20, (u, _), _) => .duration (timeUnitOf u)
  | (21, _, _) => .interval .yearMonth
  | (22, _, _) => .interval .dayTime
  | (23, _, _) => .interval .monthDayNano
  | (24, _, _) => .binary
  | (25, _, _) => .largeBinary
  | (26, _, _) => .binaryView
  | (27, _, _) => .utf8
  | (28, _, _) => .largeUtf8
  | (29, _, _) => .utf8View
  | (30, (p, s), _) => .decimal128 p s
  | (_, (p, s), _) => .decimal256 p s

theorem primOf_code (t : PrimType) : primOf (primCode t) = t := by
  cases t with
  | timestamp u tz => exact congrArg (PrimType.timestamp · tz) (timeUnitOf_code u)
  | duration u => exact congrArg PrimType.duration (timeUnitOf_code u)
  | time32 u => cases u <;> rfl
  | time64 u => cases u <;> rfl
  | interval u => cases u <;> rfl
  | _ => rfl

/-- A childless type. -/
def primCodec : Codec PrimType :=
  (Codec.nat.pair ((Codec.nat.pair Codec.nat).pair Codec.string.option)).retract primCode primOf
    primOf_code

/-- The rows of a leaf array behind its type. -/
def leafCodec : Codec (PrimType × List (Option Scalar)) :=
  primCodec.pair scalarCodec.option.list

/-- Vortex: no dtype message, and an array message with the type and the rows. -/
def vortex : Vortex where
  messages := fun _ arr =>
    match arr with
    | .prim t vs => .ok ([], leafCodec.put (t, vs))
    | _ => .error (.nyi "vortex")
  readArray := fun _ buf =>
    match leafCodec.get buf with
    | some ((t, vs), rest) => .ok ((ArrayRef.prim t vs).toView, rest)
    | none => .error (.parseError "vortex")

theorem vortex_roundTrips : vortex.RoundTrips := by
  intro enableDict t vs _
  refine ⟨[], leafCodec.put (t, vs), rfl, by decide, fun rest => ?_⟩
  simp only [vortex, leafCodec.get_put]

/-! ## Types and trees -/

/-- What a field's type is without its children. -/
def fieldKind : DataType → PrimType ⊕ Nat
  | .prim p => .inl p
  | .list _ => .inr 0
  | .largeList _ => .inr 1
  | .struct _ => .inr 2

/-- The label of a field in the tree of its schema. -/
abbrev FieldLabel := (String × Bool) × (PrimType ⊕ Nat)

/-- A field from its label and its children. -/
def fieldOf (label : FieldLabel) (children : List Field) : Field :=
  .mk label.1.1
    (match label.2 with
      | .inl p => .prim p
      | .inr 0 => .list (children.headD dummyNullField)
      | .inr 1 => .largeList (children.headD dummyNullField)
      | .inr _ => .struct children)
    label.1.2

mutual

/-- A field as a tree. -/
def fieldTree : Field → Rose FieldLabel
  | .mk name dataType nullable =>
      .node ((name, nullable), fieldKind dataType) (childTrees dataType)

/-- The trees of the children of a type. -/
def childTrees : DataType → List (Rose FieldLabel)
  | .prim _ => []
  | .list child => [fieldTree child]
  | .largeList child => [fieldTree child]
  | .struct fields => fieldTrees fields

/-- `fieldTree` of each field. -/
def fieldTrees : List Field → List (Rose FieldLabel)
  | [] => []
  | f :: fs => fieldTree f :: fieldTrees fs

end

mutual

/-- The field of a tree. -/
def treeField : Rose FieldLabel → Field
  | .node label children => fieldOf label (treeFields children)

/-- `treeField` of each tree. -/
def treeFields : List (Rose FieldLabel) → List Field
  | [] => []
  | t :: ts => treeField t :: treeFields ts

end

mutual

theorem treeField_fieldTree (f : Field) : treeField (fieldTree f) = f := by
  cases f with
  | mk name dataType nullable =>
      rw [fieldTree, treeField]
      exact fieldOf_childTrees name dataType nullable

theorem fieldOf_childTrees (name : String) (dataType : DataType) (nullable : Bool) :
    fieldOf ((name, nullable), fieldKind dataType) (treeFields (childTrees dataType)) =
      .mk name dataType nullable := by
  cases dataType with
  | prim p => rfl
  | list child =>
      rw [childTrees, treeFields, treeFields, treeField_fieldTree child]
      rfl
  | largeList child =>
      rw [childTrees, treeFields, treeFields, treeField_fieldTree child]
      rfl
  | struct fields =>
      rw [childTrees, treeFields_fieldTrees fields]
      rfl

theorem treeFields_fieldTrees (fs : List Field) : treeFields (fieldTrees fs) = fs := by
  cases fs with
  | nil => rfl
  | cons f fs => rw [fieldTrees, treeFields, treeField_fieldTree f, treeFields_fieldTrees fs]

end

/-- A field with its children. -/
def fieldCodec : Codec Field :=
  (Rose.codec ((Codec.string.pair Codec.bool).pair (primCodec.sum Codec.nat))).retract fieldTree
    treeField treeField_fieldTree

/-- A logical id as a number. -/
def logicalIdCode : LogicalId → Nat
  | .flat => 0
  | .list => 1
  | .struct => 2
  | .listOfStructOfPrimitive => 3

/-- The logical id of a number. -/
def logicalIdOf : Nat → LogicalId
  | 0 => .flat
  | 1 => .list
  | 2 => .struct
  | _ => .listOfStructOfPrimitive

theorem logicalIdOf_code (i : LogicalId) : logicalIdOf (logicalIdCode i) = i := by
  cases i <;> rfl

mutual

/-- A logical tree as a labelled tree. -/
def logicalRose : LogicalTree → Rose Nat
  | .mk id children => .node (logicalIdCode id) (logicalRoses children)

/-- `logicalRose` of each tree. -/
def logicalRoses : List LogicalTree → List (Rose Nat)
  | [] => []
  | t :: ts => logicalRose t :: logicalRoses ts

end

mutual

/-- The logical tree of a labelled tree. -/
def roseLogical : Rose Nat → LogicalTree
  | .node label children => .mk (logicalIdOf label) (roseLogicals children)

/-- `roseLogical` of each tree. -/
def roseLogicals : List (Rose Nat) → List LogicalTree
  | [] => []
  | t :: ts => roseLogical t :: roseLogicals ts

end

mutual

theorem roseLogical_logicalRose (t : LogicalTree) : roseLogical (logicalRose t) = t := by
  cases t with
  | mk id children =>
      rw [logicalRose, roseLogical, logicalIdOf_code, roseLogicals_logicalRoses children]

theorem roseLogicals_logicalRoses (ts : List LogicalTree) :
    roseLogicals (logicalRoses ts) = ts := by
  cases ts with
  | nil => rfl
  | cons t ts =>
      rw [logicalRoses, roseLogicals, roseLogical_logicalRose t, roseLogicals_logicalRoses ts]

end

/-- A logical tree. -/
def logicalCodec : Codec LogicalTree :=
  (Rose.codec Codec.nat).retract logicalRose roseLogical roseLogical_logicalRose

/-! ## File metadata -/

/-- A compression type, apart from the codes outside the enumeration. -/
def compressionCodec : Codec CompressionType :=
  (Codec.byte.sum Codec.byte).retract
    (fun
      | .unknown code => .inr code
      | c => .inl c.toByte)
    (fun
      | .inr code => .unknown code
      | .inl b => .ofByte b)
    (fun c => by cases c <;> rfl)

/-- An encoding type. -/
def encodingTypeCodec : Codec EncodingType :=
  (Codec.bool.sum Codec.byte).retract
    (fun
      | .unknown code => .inr code
      | .cascade => .inl false
      | .customWasm => .inl true)
    (fun
      | .inr code => .unknown code
      | .inl false => .cascade
      | .inl true => .customWasm)
    (fun c => by cases c <;> rfl)

/-- A checksum. -/
def uint64Codec : Codec UInt64 :=
  Codec.nat.retract UInt64.toNat UInt64.ofNat fun _ => UInt64.ofNat_toNat

/-- `Fb.WASMEncoding`. -/
def wasmEncodingCodec : Codec Fb.WASMEncoding :=
  (Codec.nat.pair Codec.nat.list.option).retract (fun e => (e.wasmId, e.miniEncunitSizes))
    (fun p => ⟨p.1, p.2⟩) fun _ => rfl

/-- `Fb.Encoding`. -/
def encodingCodec : Codec Fb.Encoding :=
  (encodingTypeCodec.pair wasmEncodingCodec.option).retract (fun e => (e.type_, e.wasmEncoding))
    (fun p => ⟨p.1, p.2⟩) fun _ => rfl

/-- `Fb.EncUnit`. -/
def encUnitCodec : Codec Fb.EncUnit :=
  ((Codec.nat.pair encodingCodec.option).pair (Codec.nat.pair compressionCodec)).retract
    (fun u => ((u.size, u.encoding), (u.numRows, u.compression)))
    (fun p => ⟨p.1.1, p.1.2, p.2.1, p.2.2⟩) fun _ => rfl

/-- `Fb.DictionaryEncoding`. -/
def dictionaryEncodingCodec : Codec Fb.DictionaryEncoding :=
  (Codec.bool.sum (Codec.nat.list.option.sum Codec.nat)).retract
    (fun
      | .none => .inl false
      | .noDictionary => .inl true
      | .localDictionary idxs => .inr (.inl idxs)
      | .sharedDictionary idx => .inr (.inr idx))
    (fun
      | .inl false => .none
      | .inl true => .noDictionary
      | .inr (.inl idxs) => .localDictionary idxs
      | .inr (.inr idx) => .sharedDictionary idx)
    (fun d => by cases d <;> rfl)

/-- `Fb.Chunk`. -/
def chunkCodec : Codec Fb.Chunk :=
  (((Codec.nat.pair Codec.nat).pair (Codec.nat.pair dictionaryEncodingCodec)).pair
    (encUnitCodec.list.option.pair uint64Codec.option)).retract
    (fun c => (((c.offset, c.size), (c.numRows, c.encoding)), (c.encunits, c.checksum)))
    (fun p => ⟨p.1.1.1, p.1.1.2, p.1.2.1, p.1.2.2, p.2.1, p.2.2⟩) fun _ => rfl

/-- `Fb.ColumnMetadata`. -/
def columnMetadataCodec : Codec Fb.ColumnMetadata :=
  chunkCodec.list.option.retract Fb.ColumnMetadata.columnChunks (fun c => ⟨c⟩) fun _ => rfl

/-- `Fb.MetadataSection`. -/
def metadataSectionCodec : Codec Fb.MetadataSection :=
  ((Codec.nat.pair Codec.nat).pair compressionCodec).retract
    (fun s => ((s.offset, s.size), s.compressionType)) (fun p => ⟨p.1.1, p.1.2, p.2⟩) fun _ => rfl

/-- `Fb.WASMBinaries`. -/
def wasmBinariesCodec : Codec Fb.WASMBinaries :=
  metadataSectionCodec.list.option.retract Fb.WASMBinaries.wasmBinaries (fun b => ⟨b⟩)
    fun _ => rfl

/-- `Fb.RowGroupMetadata`. -/
def rowGroupMetadataCodec : Codec Fb.RowGroupMetadata :=
  metadataSectionCodec.list.option.retract Fb.RowGroupMetadata.colMetadatas (fun m => ⟨m⟩)
    fun _ => rfl

/-- `Fb.RowGroups`. -/
def rowGroupsCodec : Codec Fb.RowGroups :=
  ((Codec.nat.list.option.pair Codec.nat.list.option).pair
    (Codec.nat.list.option.pair rowGroupMetadataCodec.list.option)).retract
    (fun g => ((g.rowCounts, g.offsets), (g.sizes, g.rowGroupMetadatas)))
    (fun p => ⟨p.1.1, p.1.2, p.2.1, p.2.2⟩) fun _ => rfl

/-- `Fb.OptionalMetadataSections`. -/
def optionalSectionsCodec : Codec Fb.OptionalMetadataSections :=
  ((Codec.string.list.option.pair Codec.nat.list.option).pair
    (Codec.nat.list.option.pair compressionCodec.list.option)).retract
    (fun s => ((s.names, s.offsets), (s.sizes, s.compressionTypes)))
    (fun p => ⟨p.1.1, p.1.2, p.2.1, p.2.2⟩) fun _ => rfl

/-- `Fb.DictionaryPosition`. -/
def dictionaryPositionCodec : Codec Fb.DictionaryPosition :=
  Codec.nat.list.option.retract Fb.DictionaryPosition.chunkIds (fun c => ⟨c⟩) fun _ => rfl

/-- `Fb.SharedDictionaryTable`. -/
def sharedDictionaryTableCodec : Codec Fb.SharedDictionaryTable :=
  ((chunkCodec.list.option.pair dictionaryPositionCodec.list.option).pair
    Codec.byte.list.option).retract
    (fun t => ((t.dictionaryChunks, t.dictionaryPositions), t.dictionarySchema))
    (fun p => ⟨p.1.1, p.1.2, p.2⟩) fun _ => rfl

/-- `Fb.EncodingVersion`. -/
def encodingVersionCodec : Codec Fb.EncodingVersion :=
  (encodingTypeCodec.pair (Codec.nat.pair (Codec.nat.pair Codec.nat))).retract
    (fun v => (v.encodingType, (v.version.major, (v.version.minor, v.version.patch))))
    (fun p => ⟨p.1, ⟨p.2.1, p.2.2.1, p.2.2.2⟩⟩) fun _ => rfl

/-- `Fb.Footer`. -/
def footerCodec : Codec Fb.Footer :=
  (((Codec.byte.list.option.pair logicalCodec.option).pair
    (rowGroupsCodec.option.pair optionalSectionsCodec.option)).pair
    (sharedDictionaryTableCodec.option.pair encodingVersionCodec.list.option)).retract
    (fun f => (((f.schema, f.logicalTree), (f.rowGroups, f.optionalSections)),
      (f.sharedDictionaryTable, f.encodingVersions)))
    (fun p => ⟨p.1.1.1, p.1.1.2, p.1.2.1, p.1.2.2, p.2.1, p.2.2⟩) fun _ => rfl

/-- A codec as a serialiser. -/
def flatBuffer {α : Type} (c : Codec α) : FlatBuffer α where
  build := c.put
  root := fun bytes =>
    match c.get bytes with
    | some (a, _) => .ok a
    | none => .error (.parseError "FlatBuffers")

theorem flatBuffer_lawful {α : Type} (c : Codec α) : (flatBuffer c).Lawful := by
  intro a
  have h := c.get_put a []
  rw [List.append_nil] at h
  simp only [flatBuffer, h]

/-! ## The environment -/

/-- The environment without the decoders that run in it. -/
def base : Env where
  vortex := vortex
  lz4CompressPrependSize := fun b => 4 :: b
  lz4DecompressSizePrepended := fun b => .ok b.tail
  zstdEncodeAll := fun b => .ok (40 :: b)
  zstdDecodeAll := fun b => .ok b.tail
  customEncode := fun _ _ => .ok []
  runtimeLoads := fun _ => true
  wasmDecode := fun _ _ _ _ => fail (.nyi "wasm")
  builtinWasm := [0, 97, 115, 109]
  xxh64 := fun b => UInt64.ofNat b.length
  columnMetadataFb := flatBuffer columnMetadataCodec
  footerFb := flatBuffer footerCodec
  wasmBinariesFb := flatBuffer wasmBinariesCodec
  ipcSchema := flatBuffer fieldCodec.list
  arrayMemorySize := ArrayRef.len
  hashString := String.length
  estimateJaccard := fun _ _ => 0x3FF0000000000000
  chooseMultiple := fun _ n amount => (List.range n).take amount

/-- The environment: custom encoders write what Vortex writes, and a decoder
binary reads it. -/
def env : Env :=
  { base with
    customEncode := fun _ arr => do
      let buffers ← encodeArr base false arr
      pure buffers.flatten
    wasmDecode := fun _ data _ _ => do
      let (array, _) ← vortexDeser base data
      pure array }

theorem roundTrips : env.vortex.RoundTrips := vortex_roundTrips

theorem compressionLaws : env.CompressionLaws where
  lz4 := fun _ => rfl
  lz4_ne_nil := fun _ => List.cons_ne_nil _ _
  zstd := fun b => ⟨40 :: b, rfl, rfl, List.cons_ne_nil _ _⟩

theorem serializationLaws : env.SerializationLaws where
  columnMetadata := flatBuffer_lawful _
  footer := flatBuffer_lawful _
  wasmBinaries := flatBuffer_lawful _
  ipcSchema := flatBuffer_lawful _

/-- The counter, the context and the generator a writer starts with. -/
def shared : Shared := ⟨(), .default, .new false .uncompressed, 0⟩

/-- An array of one number. -/
def seven : ArrayRef := .prim .int32 [some (.int 7)]

end Sample

end F3Format
