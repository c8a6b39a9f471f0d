import F3Format.Env

/-!
# Compression, input and WASM contexts

`compression/mod.rs`, the random-access part of `io/reader.rs` and
`context.rs`. The reading context looks its binaries up through the file
itself, as the lazily initialised map of the source does; the map is a function
of the file, so recomputing it at each call gives the same runtimes.
-/

set_option autoImplicit false

namespace F3Format

open Lib

/-! ## Block compression -/

/-- `compress_data`. -/
def compressData (env : Env) (data : Bytes) : CompressionType → Result Bytes
  | .uncompressed => .ok data
  | .lz4 => .ok (env.lz4CompressPrependSize data)
  | .zstd => liftErr (env.zstdEncodeAll data)
  | .unknown _ => fail (.general "Unsupported compression type")

/-- `decompress_data`. -/
def decompressData (env : Env) (data : Bytes) : CompressionType → Result Bytes
  | .uncompressed => .ok data
  | .lz4 => liftErr (env.lz4DecompressSizePrepended data)
  | .zstd => liftErr (env.zstdDecodeAll data)
  | .unknown _ => fail (.general "Unsupported compression type")

section

variable {env : Env}

/-- Every supported type compresses, and decompression recovers the data. -/
theorem compressData_ok (laws : env.CompressionLaws) (data : Bytes) {c : CompressionType}
    (hc : c.supported = true) :
    ∃ out, compressData env data c = .ok out ∧ decompressData env out c = .ok data := by
  cases c with
  | uncompressed => exact ⟨data, rfl, rfl⟩
  | lz4 =>
      refine ⟨_, rfl, ?_⟩
      simp [decompressData, laws.lz4]
  | zstd =>
      obtain ⟨out, h1, h2, -⟩ := laws.zstd data
      exact ⟨out, by simp [compressData, h1], by simp [decompressData, h2]⟩
  | unknown code => simp [CompressionType.supported] at hc

theorem decompressData_of_compressData (laws : env.CompressionLaws) {data out : Bytes}
    {c : CompressionType} (h : compressData env data c = .ok out) :
    decompressData env out c = .ok data := by
  have hc : c.supported = true := by
    cases c with
    | unknown code => simp [compressData, fail] at h
    | uncompressed => rfl
    | lz4 => rfl
    | zstd => rfl
  obtain ⟨out', h1, h2⟩ := compressData_ok laws data hc
  rw [h] at h1
  cases h1
  exact h2

theorem compressData_ne_nil (laws : env.CompressionLaws) {data out : Bytes}
    {c : CompressionType} (h : compressData env data c = .ok out) (hd : data ≠ []) :
    out ≠ [] := by
  cases c with
  | uncompressed =>
      cases h
      exact hd
  | lz4 =>
      cases h
      exact laws.lz4_ne_nil data
  | zstd =>
      obtain ⟨out', h1, -, h3⟩ := laws.zstd data
      simp only [compressData, h1, liftErr, Except.ok.injEq] at h
      exact h ▸ h3
  | unknown code => simp [compressData, fail] at h

end

/-! ## Reading at a position -/

/-- `Reader::read_exact_at` of a file into a buffer of `len` bytes. -/
def readExactAt (file : Bytes) (offset len : Nat) : Result Bytes :=
  if offset + len ≤ file.length then .ok (slice file offset len)
  else fail (.external "failed to fill whole buffer")

/-- `buf[start..stop]`. -/
def sliceRange (buf : Bytes) (start stop : Nat) : Result Bytes :=
  if start ≤ stop ∧ stop ≤ buf.length then .ok (slice buf start (stop - start))
  else panicking "range end index out of range for slice"

/-- `Bytes::split_to`. -/
def splitTo (buf : Bytes) (at_ : Nat) : Result (Bytes × Bytes) :=
  if at_ ≤ buf.length then .ok (buf.take at_, buf.drop at_)
  else panicking "split_to out of bounds"

theorem readExactAt_eq_ok (file : Bytes) (offset len : Nat) (b : Bytes) :
    readExactAt file offset len = .ok b ↔
      offset + len ≤ file.length ∧ slice file offset len = b := by
  unfold readExactAt
  split
  · next h => simp [h]
  · next h => simp [h, fail]

theorem sliceRange_eq_ok (buf : Bytes) (start stop : Nat) (b : Bytes) :
    sliceRange buf start stop = .ok b ↔
      (start ≤ stop ∧ stop ≤ buf.length) ∧ slice buf start (stop - start) = b := by
  unfold sliceRange
  split
  · next h => simp [h]
  · next h => simp [h, panicking]

/-- A segment is what the range of its bounds selects. -/
theorem sliceRange_of_holdsAt {bytes b : Bytes} {start stop : Nat} (h : HoldsAt bytes start b)
    (hstop : stop = start + b.length) : sliceRange bytes start stop = .ok b := by
  subst hstop
  rw [sliceRange_eq_ok, Nat.add_sub_cancel_left]
  exact ⟨⟨Nat.le_add_right .., h.le_length⟩, h.slice_eq⟩

/-- Splitting off a known first part. -/
theorem splitTo_append (a b : Bytes) : splitTo (a ++ b) a.length = .ok (a, b) := by
  simp [splitTo]

theorem splitTo_append_of_length {a b : Bytes} {n : Nat} (h : n = a.length) :
    splitTo (a ++ b) n = .ok (a, b) := by
  subst h
  exact splitTo_append a b

/-! ## Writing context -/

/-- `WasmLib`: the dynamic encoder library and the decoder binary. -/
structure WasmLib where
  encodeLibPath : String
  decodeWasmBinary : Bytes
  deriving DecidableEq, Repr

/-- `WASMWritingContext`. Hash maps are association lists. -/
structure WASMWritingContext where
  wasms : List (Nat × WasmLib)
  dataTypeToWasmIdMap : List (DataType × Nat)
  alwaysSetCustomWasmForBuiltIn : Bool
  builtinWasmId : Option Nat

namespace WASMWritingContext

/-- `WASMWritingContext::default_with_always_set_custom_wasm`. -/
def defaultWithAlwaysSetCustomWasm (env : Env) : WASMWritingContext where
  wasms := [(0, ⟨"/", env.builtinWasm⟩)]
  dataTypeToWasmIdMap := []
  alwaysSetCustomWasmForBuiltIn := true
  builtinWasmId := some 0

/-- `WASMWritingContext::empty`. -/
def empty : WASMWritingContext where
  wasms := []
  dataTypeToWasmIdMap := []
  alwaysSetCustomWasmForBuiltIn := false
  builtinWasmId := none

/-- `WASMWritingContext::with_custom_wasms`. -/
def withCustomWasms (wasms : List (Nat × WasmLib)) (dataTypeToWasmId : List (DataType × Nat)) :
    WASMWritingContext where
  wasms := wasms
  dataTypeToWasmIdMap := dataTypeToWasmId
  alwaysSetCustomWasmForBuiltIn := false
  builtinWasmId := none

/-- `get_sorted_wasms`: the decoder binaries in the order of their ids. -/
def getSortedWasms (w : WASMWritingContext) : List Bytes :=
  (w.wasms.insertionSort fun a b => a.1 ≤ b.1).map fun p => p.2.decodeWasmBinary

/-- `data_type_to_wasm_id`. -/
def dataTypeToWasmId (w : WASMWritingContext) (dt : DataType) : Option Nat :=
  w.dataTypeToWasmIdMap.lookup dt

/-- `data_type_to_wasm_lib`. -/
def dataTypeToWasmLib (w : WASMWritingContext) (dt : DataType) : Option WasmLib :=
  (w.dataTypeToWasmId dt).bind fun id => w.wasms.lookup id

end WASMWritingContext

/-! ## Reading context -/

/-- `WASMReadingContext`. -/
structure WASMReadingContext where
  /-- runtimes given by the caller, if any -/
  lazyWasm : Option (List (Nat × Bytes))
  wasmLocations : Option MetadataSection
  r : Option Bytes
  encodingVersions : Option (List (EncodingType × Version))

namespace WASMReadingContext

/-- The map built on the first call of `get_runtime` from the binaries in the file. -/
def loadWasms (env : Env) (ctx : WASMReadingContext) : Result (List (Nat × Bytes)) := do
  let wasmLocations ← unwrapSome ctx.wasmLocations
  let read ← unwrapSome ctx.r
  let buf ← unwrap (readExactAt read wasmLocations.offset wasmLocations.size)
  let wasmBinaries ← unwrap (liftErr (env.wasmBinariesFb.root buf))
  let locs ← unwrapSome wasmBinaries.wasmBinaries
  let bins ← collect (fun (loc : Fb.MetadataSection) => do
    let bin ← unwrap (readExactAt read loc.offset loc.size)
    if env.runtimeLoads bin then .ok bin else panicking "Runtime::try_new") locs
  pure (bins.zipIdx.map fun p => (p.2, p.1))

/-- `lazy_wasm.get_or_init(..)`. -/
def runtimes (env : Env) (ctx : WASMReadingContext) : Result (List (Nat × Bytes)) :=
  match ctx.lazyWasm with
  | some wasms => pure wasms
  | none => loadWasms env ctx

/-- `get_runtime`. -/
def getRuntime (env : Env) (ctx : WASMReadingContext) (wasmId : Nat) : Result Bytes := do
  let wasms ← runtimes env ctx
  unwrapSome (wasms.lookup wasmId)

end WASMReadingContext

end F3Format
