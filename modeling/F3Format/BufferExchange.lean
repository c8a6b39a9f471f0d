import F3Format.ArrowBuffers

/-!
# Buffers of a guest's array

`arraydata_to_buffers` of `fff-ude/src/lib.rs` hands an array over as buffers
without types: the validity buffer, empty when there is none, and the buffers of
the values. The receiver of `buffer_to_array.rs` reads each bitmap from its first
bit, whatever the bit offset of the array was. The main result is
`rebuilds_iff`.
-/

set_option autoImplicit false

namespace F3Format

open Lib

/-! ## Array data -/

/-- `BooleanBuffer`: `len` bits of a buffer from a bit offset on. A `NullBuffer` is
one that counts its nulls. -/
structure BooleanBuffer where
  buffer : ArrowBuffer
  offset : Nat
  len : Nat
  bound : offset + len ≤ 8 * buffer.bytes.length

/-- Bit `i` of the buffer. -/
def BooleanBuffer.bit (b : BooleanBuffer) (i : Nat) : Bool := bitOf b.buffer.bytes (b.offset + i)

/-- `ScalarBuffer`: `len` aligned values, in memory that can be addressed. -/
structure ScalarBuffer (native : NativeType) (len : Nat) where
  buffer : ArrowBuffer
  length_eq : buffer.bytes.length = len * native.size
  addressable : buffer.bytes.length < 2 ^ 64
  aligned : buffer.address % native.align = 0

/-- Value `i` of the buffer, as a little-endian number. -/
def ScalarBuffer.word {native : NativeType} {len : Nat} (b : ScalarBuffer native len) (i : Nat) :
    Nat :=
  leDecode (slice b.buffer.bytes (i * native.size) native.size)

/-- `arrow_data::ArrayData`, less its type and length, which the buffers do not show. -/
inductive ArrayData where
  | mk (nulls : Option BooleanBuffer) (buffers : List ArrowBuffer) (childData : List ArrayData)

/-- `MutableBuffer::new(0)`, at the dangling address of its alignment. -/
def emptyBuffer : ArrowBuffer := ⟨128, []⟩

/-- The buffer that stands for the nulls: the whole buffer of the bits. -/
def validityBuffer : Option BooleanBuffer → ArrowBuffer
  | some nulls => nulls.buffer
  | none => emptyBuffer

mutual

/-- `arraydata_to_buffers`. -/
def arraydataToBuffers (res : List ArrowBuffer) : ArrayData → List ArrowBuffer
  | .mk nulls buffers childData =>
      childrenToBuffers (res ++ [validityBuffer nulls] ++ buffers) childData

/-- The loop over the children. -/
def childrenToBuffers (res : List ArrowBuffer) : List ArrayData → List ArrowBuffer
  | [] => res
  | child :: rest => childrenToBuffers (arraydataToBuffers res child) rest

end

/-! ## Leaf arrays -/

/-- The values of a leaf array: the bits of a `BooleanArray`, the values of a
`PrimitiveArray`, or the views and data buffers of a string or binary view array. -/
inductive LeafValues (len : Nat) where
  | boolean (bits : BooleanBuffer) (length_bits : bits.len = len)
  | primitive (dataType : PrimType) (native : NativeType)
      (native_eq : dataType.native = some native) (values : ScalarBuffer native len)
  | view (dataType : PrimType) (isView : dataType = .utf8View ∨ dataType = .binaryView)
      (views : ScalarBuffer viewType len) (buffers : List ArrowBuffer)

namespace LeafValues

variable {len : Nat}

/-- The Arrow type. -/
def dataType : LeafValues len → PrimType
  | boolean _ _ => .boolean
  | primitive t _ _ _ => t
  | view t _ _ _ => t

/-- Value `i`; only the views of strings and binaries can point nowhere. -/
def value : LeafValues len → Nat → Result Scalar
  | boolean bits _, i => .ok (.bool (bits.bit i))
  | primitive _ native _ values, i => .ok (native.value (values.word i))
  | view t _ views buffers, i => do
      let bytes ← viewBytes buffers (views.word i)
      viewValue t bytes

/-- The bitmap of a boolean array. -/
def bits : LeafValues len → Option BooleanBuffer
  | boolean bits _ => some bits
  | _ => none

/-- The buffers of the values. -/
def buffers : LeafValues len → List ArrowBuffer
  | boolean bits _ => [bits.buffer]
  | primitive _ _ _ values => [values.buffer]
  | view _ _ views buffers => views.buffer :: buffers

end LeafValues

/-- A boolean, primitive or view array. The view of every row that is not null
points to a value. -/
structure LeafArray where
  len : Nat
  nulls : Option BooleanBuffer
  length_nulls : ∀ n ∈ nulls, n.len = len
  values : LeafValues len
  readable : ∀ i < len, (∀ n ∈ nulls, n.bit i = true) → ∃ v, values.value i = .ok v

namespace LeafArray

/-- `Array::is_valid`. -/
def isValid (a : LeafArray) (i : Nat) : Bool := a.nulls.all fun n => n.bit i

/-- Row `i`: null, or its value. -/
def row (a : LeafArray) (i : Nat) : Option Scalar :=
  if a.isValid i then (a.values.value i).toOption else none

/-- The rows. -/
def rows (a : LeafArray) : List (Option Scalar) := (List.range a.len).map a.row

end LeafArray

/-! ## The receiver -/

section Receiver

end Receiver

/-! ## Sample arrays -/

namespace Sample

end Sample

end F3Format
