import F3Format.Footer

/-!
# Code outside the repository

The program calls libraries whose source is not part of it: Vortex, lz4, zstd,
the FlatBuffers and Arrow IPC serialisers, xxHash, dynamic encoder libraries,
the WASM runtime, the random generator and the random sketch coefficients. They
are the fields of `Env`, a parameter of the model. What a theorem relies on is
one of the predicates below and stands in its hypotheses.
-/

set_option autoImplicit false

namespace F3Format

open Lib

/-- A serialiser and its reader. -/
structure FlatBuffer (α : Type) where
  build : α → Bytes
  root : Bytes → Except Error α

/-- Reading back what was built. -/
def FlatBuffer.Lawful {α : Type} (fb : FlatBuffer α) : Prop :=
  ∀ a, fb.root (fb.build a) = .ok a

/-- The Vortex compressor and its IPC messages. `messages enableDict arr` are
the dtype message and the array message of the compressed array, with the
dictionary compressor enabled or excluded; `readArray` reads an array message
from the front of a buffer, given the dtype message, and converts it to Arrow. -/
structure Vortex where
  messages : Bool → ArrayRef → Except Error (Bytes × Bytes)
  readArray : Bytes → Bytes → Except Error (ArrayRef × Bytes)

/-- External code. -/
structure Env where
  vortex : Vortex
  /-- `lz4_flex::compress_prepend_size` -/
  lz4CompressPrependSize : Bytes → Bytes
  /-- `lz4_flex::decompress_size_prepended` -/
  lz4DecompressSizePrepended : Bytes → Except Error Bytes
  /-- `zstd::stream::encode_all` at level 0 -/
  zstdEncodeAll : Bytes → Except Error Bytes
  /-- `zstd::stream::decode_all` -/
  zstdDecodeAll : Bytes → Except Error Bytes
  /-- the function `encode` of the dynamic library at a path -/
  customEncode : String → ArrayRef → Result Bytes
  /-- `Runtime::try_new(wasm).unwrap()` accepts the binary -/
  runtimeLoads : Bytes → Bool
  /-- `call_multi_buf` on a binary and `primitive_array_from_arrow_buffers_iter` -/
  wasmDecode : Bytes → Bytes → DataType → Nat → Result ArrayRef
  /-- the file at `BUILTIN_WASM_PATH` -/
  builtinWasm : Bytes
  /-- xxHash64 of all bytes given to `update` -/
  xxh64 : Bytes → UInt64
  columnMetadataFb : FlatBuffer Fb.ColumnMetadata
  footerFb : FlatBuffer Fb.Footer
  wasmBinariesFb : FlatBuffer Fb.WASMBinaries
  /-- the Arrow schema as an IPC message -/
  ipcSchema : FlatBuffer (List Field)
  /-- `Array::get_array_memory_size` -/
  arrayMemorySize : ArrayRef → Nat
  /-- `DefaultHasher` on a string -/
  hashString : String → Nat
  /-- the estimate of two finished sketches, as the bits of a finite
  non-negative `f64`; the sketch coefficients are random -/
  estimateJaccard : List Nat → List Nat → Nat
  /-- `choose_multiple` over `0..n` at the `k`-th draw of the thread's generator -/
  chooseMultiple : Nat → Nat → Nat → List Nat

/-- The `Err` of a library as a fault. -/
def liftErr {α : Type} : Except Error α → Result α
  | .ok a => .ok a
  | .error e => fail e

@[simp] theorem liftErr_eq_ok {α : Type} (r : Except Error α) (a : α) :
    liftErr r = .ok a ↔ r = .ok a := by
  cases r <;> simp [liftErr, fail]

/-! ## Documented behaviour -/

/-- A leaf array as Vortex returns it: the same rows, strings and binaries as views. -/
def ArrayRef.toView : ArrayRef → ArrayRef
  | .prim t vs => .prim t.view vs
  | a => a

@[simp] theorem ArrayRef.rows_toView (a : ArrayRef) : a.toView.rows = a.rows := by
  cases a <;> rfl

/-- Vortex reads back every leaf array it writes, whatever follows it, and its
dtype messages fit the length field in front of them. -/
def Vortex.RoundTrips (v : Vortex) : Prop :=
  ∀ (enableDict : Bool) (t : PrimType) (vs : List (Option Scalar)), t.nonNest = true →
    ∃ dtype array, v.messages enableDict (.prim t vs) = .ok (dtype, array) ∧
      dtype.length < 2 ^ 32 ∧
      ∀ rest, v.readArray dtype (array ++ rest) = .ok ((ArrayRef.prim t vs).toView, rest)

/-- The block compressors are inverted by their decompressors and never return
an empty string (lz4 writes the size in front, zstd a frame header). -/
structure Env.CompressionLaws (env : Env) : Prop where
  lz4 : ∀ b, env.lz4DecompressSizePrepended (env.lz4CompressPrependSize b) = .ok b
  lz4_ne_nil : ∀ b, env.lz4CompressPrependSize b ≠ []
  zstd : ∀ b, ∃ c, env.zstdEncodeAll b = .ok c ∧ env.zstdDecodeAll c = .ok b ∧ c ≠ []

/-- FlatBuffers and the Arrow IPC schema are read back as built. -/
structure Env.SerializationLaws (env : Env) : Prop where
  columnMetadata : env.columnMetadataFb.Lawful
  footer : env.footerFb.Lawful
  wasmBinaries : env.wasmBinariesFb.Lawful
  ipcSchema : env.ipcSchema.Lawful

end F3Format
