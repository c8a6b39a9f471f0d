import F3Format.EncoderPhysical

/-!
# Logical column encoders

`encoder/logical.rs`: the encoder of a field is a tree of physical encoders. A
list becomes a column of validity and offsets and the columns of its values; a
struct becomes a validity column and the columns of its fields. Every chunk is
stamped with the index of its physical column.
-/

set_option autoImplicit false

namespace F3Format

open Lib

/-- `Box<dyn LogicalColEncoder>`. -/
inductive LogicalColEncoder where
  | flat (dataEncoder : PhysicalColEncoder) (columnIndex : Nat)
  | list (offsetsEncoder : PhysicalColEncoder) (columnIndex : Nat)
      (valuesEncoder : LogicalColEncoder)
  | struct (validityEncoder : PhysicalColEncoder) (columnIndex : Nat)
      (fieldsEncoders : List LogicalColEncoder)

/-- What an encoder's methods mutate besides the encoder. -/
abbrev Shared := Working Unit

/-- The state without the encoder. -/
def Working.shared {E : Type} (s : Working E) : Shared := ⟨(), s.counter, s.ctx, s.rng⟩

/-- The outcome of a call on an encoder of type `E`. -/
abbrev EncResult (E α : Type) := EStateM.Result Fault (Working E) α

/-- Calls a method of a physical encoder. -/
def callPhysical {α : Type} (x : EncAct PhysicalColEncoder α) (p : PhysicalColEncoder)
    (s : Shared) : EncResult PhysicalColEncoder α :=
  x ⟨p, s.counter, s.ctx, s.rng⟩

/-- `(!res.is_empty()).then_some(res)`. -/
def thenSome (res : List EncodedColumnChunk) : Option (List EncodedColumnChunk) :=
  if res.isEmpty then none else some res

@[simp] theorem getD_thenSome (res : List EncodedColumnChunk) : (thenSome res).getD [] = res := by
  cases res <;> rfl

/-- The chunks with `update_column_index` applied. -/
def stamp (columnIndex : Nat) (chunks : List EncodedColumnChunk) : List EncodedColumnChunk :=
  chunks.map fun c => c.updateColumnIndex columnIndex

/-- `extract_items`: the values between the first and the last offset. -/
def extractItems : ArrayRef → Result ArrayRef
  | .list _ _ offsets values _ =>
      let itemsStart := offsets.headD 0
      let itemsEnd := offsets.getLastD 0
      if itemsStart ≤ itemsEnd ∧ itemsEnd ≤ values.len then
        .ok (values.slice itemsStart (itemsEnd - itemsStart))
      else panicking "the length + offset of the sliced array cannot exceed the length"
  | _ => panicking "explicit panic"

/-- `extract_validity`. -/
def extractValidity (array : ArrayRef) : ArrayRef := boolArray array.validity

/-- `array.as_struct().columns()`. -/
def structColumns : ArrayRef → Result (List ArrayRef)
  | .struct _ columns _ _ => .ok columns
  | _ => panicking "struct array"

namespace LogicalColEncoder

mutual

/-- `LogicalColEncoder::encode`. -/
def encode (env : Env) : LogicalColEncoder → ArrayRef → Shared →
    EncResult LogicalColEncoder (Option (List EncodedColumnChunk))
  | flat p i, array, s =>
      match callPhysical (PhysicalColEncoder.encode env array) p s with
      | .ok chunks t => .ok (thenSome (stamp i chunks)) (t.embed fun p => flat p i)
      | .error f t => .error f (t.embed fun p => flat p i)
  | list p i v, array, s =>
      match callPhysical (PhysicalColEncoder.encode env array) p s with
      | .error f t => .error f (t.embed fun p => list p i v)
      | .ok chunks t =>
          match extractItems array with
          | .error f => .error f (t.embed fun p => list p i v)
          | .ok items =>
              match encode env v items t.shared with
              | .ok more u =>
                  .ok (thenSome (stamp i chunks ++ more.getD [])) (u.embed fun v => list t.enc i v)
              | .error f u => .error f (u.embed fun v => list t.enc i v)
  | struct p i fs, array, s =>
      match callPhysical (PhysicalColEncoder.encode env (extractValidity array)) p s with
      | .error f t => .error f (t.embed fun p => struct p i fs)
      | .ok chunks t =>
          match structColumns array with
          | .error f => .error f (t.embed fun p => struct p i fs)
          | .ok columns =>
              match encodeFields env fs columns t.shared with
              | .ok more u =>
                  .ok (thenSome (stamp i chunks ++ more)) (u.embed fun fs => struct t.enc i fs)
              | .error f u => .error f (u.embed fun fs => struct t.enc i fs)

/-- The loop of `StructColEncoder::encode` over the zipped fields and columns. -/
def encodeFields (env : Env) : List LogicalColEncoder → List ArrayRef → Shared →
    EncResult (List LogicalColEncoder) (List EncodedColumnChunk)
  | [], _, s => .ok [] (s.embed fun _ => [])
  | e :: es, [], s => .ok [] (s.embed fun _ => e :: es)
  | e :: es, column :: columns, s =>
      match encode env e column s with
      | .error f t => .error f (t.embed fun e => e :: es)
      | .ok chunks t =>
          match encodeFields env es columns t.shared with
          | .ok more u => .ok (chunks.getD [] ++ more) (u.embed fun es => t.enc :: es)
          | .error f u => .error f (u.embed fun es => t.enc :: es)

end

mutual

/-- `LogicalColEncoder::finish`. -/
def finish (env : Env) : LogicalColEncoder → Shared →
    EncResult LogicalColEncoder (Option (List EncodedColumnChunk))
  | flat p i, s =>
      match callPhysical (PhysicalColEncoder.finish env) p s with
      | .ok chunks t => .ok (thenSome (stamp i chunks)) (t.embed fun p => flat p i)
      | .error f t => .error f (t.embed fun p => flat p i)
  | list p i v, s =>
      match callPhysical (PhysicalColEncoder.finish env) p s with
      | .error f t => .error f (t.embed fun p => list p i v)
      | .ok chunks t =>
          match finish env v t.shared with
          | .ok more u =>
              .ok (thenSome (stamp i chunks ++ more.getD [])) (u.embed fun v => list t.enc i v)
          | .error f u => .error f (u.embed fun v => list t.enc i v)
  | struct p i fs, s =>
      match callPhysical (PhysicalColEncoder.finish env) p s with
      | .error f t => .error f (t.embed fun p => struct p i fs)
      | .ok chunks t =>
          match finishFields env fs t.shared with
          | .ok more u =>
              .ok (thenSome (stamp i chunks ++ more)) (u.embed fun fs => struct t.enc i fs)
          | .error f u => .error f (u.embed fun fs => struct t.enc i fs)

/-- The loop of `StructColEncoder::finish`. -/
def finishFields (env : Env) : List LogicalColEncoder → Shared →
    EncResult (List LogicalColEncoder) (List EncodedColumnChunk)
  | [], s => .ok [] (s.embed fun _ => [])
  | e :: es, s =>
      match finish env e s with
      | .error f t => .error f (t.embed fun e => e :: es)
      | .ok chunks t =>
          match finishFields env es t.shared with
          | .ok more u => .ok (chunks.getD [] ++ more) (u.embed fun es => t.enc :: es)
          | .error f u => .error f (u.embed fun es => t.enc :: es)

end

mutual

/-- `LogicalColEncoder::submit_dict`. -/
def submitDict : LogicalColEncoder → Shared → EncResult LogicalColEncoder Unit
  | flat p i, s =>
      match callPhysical PhysicalColEncoder.submitDict p s with
      | .ok u t => .ok u (t.embed fun p => flat p i)
      | .error f t => .error f (t.embed fun p => flat p i)
  | list p i v, s =>
      match callPhysical PhysicalColEncoder.submitDict p s with
      | .error f t => .error f (t.embed fun p => list p i v)
      | .ok _ t =>
          match submitDict v t.shared with
          | .ok r u => .ok r (u.embed fun v => list t.enc i v)
          | .error f u => .error f (u.embed fun v => list t.enc i v)
  | struct p i fs, s =>
      match callPhysical PhysicalColEncoder.submitDict p s with
      | .error f t => .error f (t.embed fun p => struct p i fs)
      | .ok _ t =>
          match submitFields fs t.shared with
          | .ok r u => .ok r (u.embed fun fs => struct t.enc i fs)
          | .error f u => .error f (u.embed fun fs => struct t.enc i fs)

/-- The loop of `StructColEncoder::submit_dict`. -/
def submitFields : List LogicalColEncoder → Shared → EncResult (List LogicalColEncoder) Unit
  | [], s => .ok () (s.embed fun _ => [])
  | e :: es, s =>
      match submitDict e s with
      | .error f t => .error f (t.embed fun e => e :: es)
      | .ok _ t =>
          match submitFields es t.shared with
          | .ok r u => .ok r (u.embed fun es => t.enc :: es)
          | .error f u => .error f (u.embed fun es => t.enc :: es)

end

mutual

/-- `LogicalColEncoder::memory_size`. -/
def memorySize : LogicalColEncoder → Nat
  | flat p _ => p.memorySize
  | list p _ v => p.memorySize + memorySize v
  | struct p _ fs => p.memorySize + memorySizeFields fs

/-- The memory sizes of the fields of a struct, added up. -/
def memorySizeFields : List LogicalColEncoder → Nat
  | [] => 0
  | e :: es => memorySize e + memorySizeFields es

end

end LogicalColEncoder

/-! ## Building the tree -/

/-- The arguments `create_logical_encoder` passes down unchanged. -/
structure EncoderOptions where
  maxChunkSize : Nat
  wasmContext : WASMWritingContext
  dictionaryType : DictionaryTypeOptions
  compressionType : CompressionType

/-- `create_physical_encoder` with the passed-down arguments. -/
def EncoderOptions.physical (o : EncoderOptions) (dataType : DataType) :
    Result PhysicalColEncoder :=
  createPhysicalEncoder dataType o.maxChunkSize o.wasmContext o.dictionaryType o.compressionType

mutual

/-- `create_logical_encoder`, with the next free column index passed and returned. -/
def createLogicalEncoder (o : EncoderOptions) :
    Field → Nat → Result (LogicalColEncoder × LogicalTree × Nat)
  | .mk _ dataType _, columnIdx => createLogicalEncoderOf o dataType columnIdx

/-- The match of `create_logical_encoder` on the field's type. -/
def createLogicalEncoderOf (o : EncoderOptions) :
    DataType → Nat → Result (LogicalColEncoder × LogicalTree × Nat)
  | .prim t, columnIdx =>
      if t.nonNest then do
        let dataEncoder ← o.physical (.prim t)
        pure (.flat dataEncoder columnIdx, .mk .flat [], columnIdx + 1)
      else panicking "not yet implemented: Implement logical encoding for field"
  | .list child, columnIdx => do
      let offsetsEncoder ← o.physical (.list child)
      let (valuesEncoder, childTree, next) ← createLogicalEncoder o child (columnIdx + 1)
      pure (.list offsetsEncoder columnIdx valuesEncoder, .mk .list [childTree], next)
  | .largeList child, columnIdx => do
      let offsetsEncoder ← o.physical (.largeList child)
      let (valuesEncoder, childTree, next) ← createLogicalEncoder o child (columnIdx + 1)
      pure (.list offsetsEncoder columnIdx valuesEncoder, .mk .list [childTree], next)
  | .struct childFields, columnIdx => do
      let (fieldsEncoders, childTrees, next) ← createLogicalEncoders o childFields (columnIdx + 1)
      let validityEncoder ← o.physical (.prim .boolean)
      pure (.struct validityEncoder columnIdx fieldsEncoders, .mk .struct childTrees, next)

/-- `create_logical_encoder` on each field in order. -/
def createLogicalEncoders (o : EncoderOptions) :
    List Field → Nat → Result (List LogicalColEncoder × List LogicalTree × Nat)
  | [], columnIdx => pure ([], [], columnIdx)
  | f :: fs, columnIdx => do
      let (enc, childTree, next) ← createLogicalEncoder o f columnIdx
      let (encs, childTrees, next) ← createLogicalEncoders o fs next
      pure (enc :: encs, childTree :: childTrees, next)

end

end F3Format
