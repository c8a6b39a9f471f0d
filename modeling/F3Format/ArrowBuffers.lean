import F3Format.EncUnit

/-!
# Arrays from raw buffers

`buffer_to_array.rs` turns the buffers a guest returns into an array. Buffers
carry no type: the first holds the validity bits, empty when there are no nulls,
and the rest are read at the data type the caller declares. Arrow checks how long
a buffer is and where it lies, not what it was written as.
-/

set_option autoImplicit false

namespace F3Format

open Lib

/-- `arrow_buffer::Buffer`: bytes at an address. -/
structure ArrowBuffer where
  address : Nat
  bytes : Bytes
  deriving DecidableEq, Repr

/-! ## Native types -/

/-- An `ArrowNativeType`: its size and alignment in bytes, and the value that a
little-endian number of that size stands for. -/
structure NativeType where
  size : Nat
  align : Nat
  value : Nat → Scalar

/-- The number of `size` bytes in two's complement. -/
def signedOf (size n : Nat) : Int :=
  if n < 2 ^ (8 * size - 1) then n else n - 2 ^ (8 * size)

namespace NativeType

/-- `u8` to `u64`. -/
def unsigned (size : Nat) : NativeType := ⟨size, size, fun n => .int n⟩

/-- A signed integer, aligned like an integer of `align` bytes. -/
def signed (size align : Nat) : NativeType := ⟨size, align, fun n => .int (signedOf size n)⟩

/-- A float, kept as its bits. -/
def floating (size : Nat) : NativeType := ⟨size, size, fun n => .float n⟩

end NativeType

/-- `ArrowPrimitiveType::Native`. An interval counts as one number of its size. -/
def PrimType.native : PrimType → Option NativeType
  | .int8 => some (.signed 1 1)
  | .int16 => some (.signed 2 2)
  | .int32 | .date32 | .time32 _ | .interval .yearMonth => some (.signed 4 4)
  | .int64 | .date64 | .time64 _ | .timestamp _ _ | .duration _ => some (.signed 8 8)
  | .uint8 => some (.unsigned 1)
  | .uint16 => some (.unsigned 2)
  | .uint32 => some (.unsigned 4)
  | .uint64 => some (.unsigned 8)
  | .float16 => some (.floating 2)
  | .float32 => some (.floating 4)
  | .float64 => some (.floating 8)
  | .decimal128 _ _ => some (.signed 16 16)
  | .decimal256 _ _ => some (.signed 32 16)
  | .interval .dayTime => some (.signed 8 4)
  | .interval .monthDayNano => some (.signed 16 8)
  | _ => none

/-! ## Views of a buffer -/

/-- `ScalarBuffer::new(buffer, 0, len)`, as its values. -/
def scalarBufferNew (t : NativeType) (buffer : ArrowBuffer) (len : Nat) : Result (List Nat) :=
  if 2 ^ 64 ≤ len * t.size then panicking "length overflow"
  else if buffer.bytes.length < len * t.size then
    panicking "the offset of the new Buffer cannot exceed the existing length"
  else if buffer.address % t.align ≠ 0 then
    panicking "Memory pointer from external source is not aligned with the specified scalar type"
  else .ok ((List.range len).map fun i => leDecode (slice buffer.bytes (i * t.size) t.size))

/-- Bit `i` of a bitmap. -/
def bitOf (bytes : Bytes) (i : Nat) : Bool := (bytes.getD (i / 8) 0).toNat.testBit (i % 8)

/-- `BooleanBuffer::new(buffer, 0, len)`, as its bits. -/
def booleanBufferNew (buffer : ArrowBuffer) (len : Nat) : Result (List Bool) :=
  if 8 * buffer.bytes.length < len then panicking "assertion failed: total_len <= bit_len"
  else .ok ((List.range len).map (bitOf buffer.bytes))

/-- `arrow_buffer_to_validity`. -/
def arrowBufferToValidity (buffer : ArrowBuffer) (numRows : Nat) : Result (Option (List Bool)) :=
  if buffer.bytes.isEmpty then pure none
  else do
    let bits ← booleanBufferNew buffer numRows
    pure (some bits)

/-- `buffer_iter.next().unwrap()`. -/
def nextBuffer (buffers : List ArrowBuffer) : Result (ArrowBuffer × List ArrowBuffer) :=
  match buffers with
  | [] => panicking "called `Option::unwrap()` on a `None` value"
  | b :: rest => pure (b, rest)

/-- The rows of values of which the null buffer masks some. -/
def maskedBy (nulls : Option (List Bool)) (values : List Scalar) : List (Option Scalar) :=
  match nulls with
  | none => values.map some
  | some bits => List.zipWith (fun bit v => if bit then some v else none) bits values

/-! ## Arrays -/

/-- `new_primitive_array_from_arrow_buffer_iter`. -/
def newPrimitiveArrayFromArrowBufferIter (native : NativeType) (buffers : List ArrowBuffer)
    (numRows : Nat) (dataType : PrimType) : Result ArrayRef := do
  let (nullBuffer, buffers) ← nextBuffer buffers
  let nulls ← arrowBufferToValidity nullBuffer numRows
  let (dataBuffer, _) ← nextBuffer buffers
  let values ← scalarBufferNew native dataBuffer numRows
  pure (.prim dataType (maskedBy nulls (values.map native.value)))

/-- The native type of a view: `u128`. -/
def viewType : NativeType := ⟨16, 16, fun n => .int n⟩

/-- The bytes a view stands for: up to twelve are in the view, more are in one of
the data buffers. -/
def viewBytes (buffers : List ArrowBuffer) (view : Nat) : Result Bytes :=
  let len := view % 2 ^ 32
  if len ≤ 12 then pure (slice (leEncode 16 view) 4 len)
  else do
    let buffer ← index buffers (view / 2 ^ 64 % 2 ^ 32)
    sliceRange buffer.bytes (view / 2 ^ 96) (view / 2 ^ 96 + len)

/-- The value of the bytes of a string or binary view. -/
def viewValue (dataType : PrimType) (bytes : Bytes) : Result Scalar :=
  match dataType with
  | .utf8View =>
      match String.fromUTF8? ⟨bytes.toArray⟩ with
      | some s => pure (.str s)
      | none => panicking "invalid utf8 sequence"
  | _ => pure (.bytes bytes)

/-- A row of a view array; what a null row's view points to is not looked at. -/
def viewRow (dataType : PrimType) (buffers : List ArrowBuffer) (bit : Bool) (view : Nat) :
    Result (Option Scalar) :=
  if bit then do
    let bytes ← viewBytes buffers view
    let v ← viewValue dataType bytes
    pure (some v)
  else pure none

/-- `new_generic_byte_view_array_from_arrow_buffer_iter`, whose array is made without
checks: what reading a row would do stands here. -/
def newGenericByteViewArrayFromArrowBufferIter (buffers : List ArrowBuffer) (numRows : Nat)
    (dataType : PrimType) : Result ArrayRef := do
  let (nullBuffer, buffers) ← nextBuffer buffers
  let nulls ← arrowBufferToValidity nullBuffer numRows
  let (viewsBuffer, buffers) ← nextBuffer buffers
  let views ← scalarBufferNew viewType viewsBuffer numRows
  let rows ← collect (fun p : Bool × Nat => viewRow dataType buffers p.1 p.2)
    ((nulls.getD (List.replicate numRows true)).zip views)
  pure (.prim dataType rows)

/-- `primitive_array_from_arrow_buffers_iter` on a type without children. -/
def primitiveArrayFromArrowBuffersIter (dataType : PrimType) (buffers : List ArrowBuffer)
    (numRows : Nat) : Result ArrayRef :=
  match dataType with
  | .boolean => do
      let (nullBuffer, buffers) ← nextBuffer buffers
      let nulls ← arrowBufferToValidity nullBuffer numRows
      let (dataBuffer, _) ← nextBuffer buffers
      let bits ← booleanBufferNew dataBuffer numRows
      pure (.prim .boolean (maskedBy nulls (bits.map .bool)))
  | .null => pure (.prim .null (List.replicate numRows none))
  | .utf8 | .largeUtf8 => newGenericByteViewArrayFromArrowBufferIter buffers numRows .utf8View
  | .binary | .largeBinary =>
      newGenericByteViewArrayFromArrowBufferIter buffers numRows .binaryView
  | _ =>
      match dataType.native with
      | some native => newPrimitiveArrayFromArrowBufferIter native buffers numRows dataType
      | none => fail (.io "The data type cannot be decoded from a primitive encoding")

/-! ## What the declared type decides -/

section

variable {native : NativeType} {buffers : List ArrowBuffer} {numRows : Nat} {t : PrimType}
  {a : ArrayRef}

theorem of_newPrimitiveArrayFromArrowBufferIter
    (h : newPrimitiveArrayFromArrowBufferIter native buffers numRows t = .ok a) :
    ∃ rows, a = .prim t rows := by
  simp only [newPrimitiveArrayFromArrowBufferIter, bind_eq_ok, pure_eq_ok, Except.ok.injEq] at h
  obtain ⟨_, -, _, -, _, -, values, -, rfl⟩ := h
  exact ⟨_, rfl⟩

theorem of_newGenericByteViewArrayFromArrowBufferIter
    (h : newGenericByteViewArrayFromArrowBufferIter buffers numRows t = .ok a) :
    ∃ rows, a = .prim t rows := by
  simp only [newGenericByteViewArrayFromArrowBufferIter, bind_eq_ok, pure_eq_ok,
    Except.ok.injEq] at h
  obtain ⟨_, -, _, -, _, -, _, -, rows, -, rfl⟩ := h
  exact ⟨rows, rfl⟩

/-- The array has the declared type, whatever the buffers were written as. -/
theorem of_primitiveArrayFromArrowBuffersIter
    (h : primitiveArrayFromArrowBuffersIter t buffers numRows = .ok a) :
    ∃ rows, a = .prim t.view rows := by
  unfold primitiveArrayFromArrowBuffersIter at h
  split at h
  · simp only [bind_eq_ok, pure_eq_ok, Except.ok.injEq] at h
    obtain ⟨_, -, _, -, _, -, bits, -, rfl⟩ := h
    exact ⟨_, rfl⟩
  · cases h
    exact ⟨_, rfl⟩
  · exact of_newGenericByteViewArrayFromArrowBufferIter h
  · exact of_newGenericByteViewArrayFromArrowBufferIter h
  · exact of_newGenericByteViewArrayFromArrowBufferIter h
  · exact of_newGenericByteViewArrayFromArrowBufferIter h
  · next hutf8 hlargeUtf8 hbinary hlargeBinary =>
      have hview : t.view = t := by
        cases t <;> first | rfl | contradiction
      rw [hview]
      split at h
      · exact of_newPrimitiveArrayFromArrowBufferIter h
      · cases h

/-- Values that take fewer bytes than the native type asks for are not read. -/
theorem newPrimitiveArray_of_short {validity values : ArrowBuffer} {nulls : Option (List Bool)}
    (hnulls : arrowBufferToValidity validity numRows = .ok nulls)
    (hfit : numRows * native.size < 2 ^ 64)
    (hshort : values.bytes.length < numRows * native.size) :
    newPrimitiveArrayFromArrowBufferIter native [validity, values] numRows t =
      panicking "the offset of the new Buffer cannot exceed the existing length" := by
  have hread : scalarBufferNew native values numRows =
      panicking "the offset of the new Buffer cannot exceed the existing length" := by
    rw [scalarBufferNew, if_neg (Nat.not_le.2 hfit), if_pos hshort]
  simp only [newPrimitiveArrayFromArrowBufferIter, nextBuffer, pure_eq_ok, ok_bind, hnulls, hread]
  rfl

end

end F3Format
