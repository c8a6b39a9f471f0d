import F3Format.DecoderPhysical

/-!
# Reading units back

What a chunk decoder does with the units of a chunk, given what each of them
decodes to. `Decodes` is the statement for one unit with its metadata, in front
of any bytes; the native encoder's units satisfy it (`decodes_of_native`), and a
chunk of such units is drained array by array (`drain_noDict`).
-/

set_option autoImplicit false

namespace F3Format

open Lib

/-- The metadata of a unit as the writer records it. -/
def SerializedEncUnit.recorded (u : SerializedEncUnit) : EncUnit :=
  ⟨u32 u.bytes.length, u.numRows, u.encoding, u.compressionType⟩

/-- The bytes of some units. -/
def unitBytes (us : List SerializedEncUnit) : Bytes := (us.map SerializedEncUnit.bytes).flatten

/-- The metadata of some units as a reader sees it. -/
def unitMetas (us : List SerializedEncUnit) : List Fb.EncUnit :=
  us.map fun u => u.recorded.toFb

@[simp] theorem unitBytes_cons (u : SerializedEncUnit) (us : List SerializedEncUnit) :
    unitBytes (u :: us) = u.bytes ++ unitBytes us := by
  simp [unitBytes]

@[simp] theorem unitMetas_cons (u : SerializedEncUnit) (us : List SerializedEncUnit) :
    unitMetas (u :: us) = u.recorded.toFb :: unitMetas us := rfl

/-- At the front of any buffer, the unit is split off and decodes to `arr`. -/
def Decodes (env : Env) (ctx : Option WASMReadingContext) (outputType : DataType)
    (u : SerializedEncUnit) (arr : ArrayRef) : Prop :=
  ∃ decoder : EncUnitDecoder, decoder.decode env = .ok arr ∧ ∀ rest,
    ChunkDecoder.unitDecoder env u.recorded.toFb (u.bytes ++ rest) outputType ctx =
      .ok (decoder, rest)

/-! ## Native units -/

/-- The reading context has the native decoder take a Vortex unit: the file
records a version of it that does not ask for the decoder in the file. -/
def WASMReadingContext.Native (ctx : WASMReadingContext) : Prop :=
  ∃ versions version readerVersion, ctx.encodingVersions = some versions ∧
    versions.lookup .cascade = some version ∧
    defaultEncodingVersions.lookup .cascade = some readerVersion ∧
    fallsBackToWasm readerVersion version = false

section Native

variable {env : Env}

/-- Reading the framing back, whatever follows it. -/
theorem encodeArr_ok (hv : env.vortex.RoundTrips) (enableDict : Bool) {t : PrimType}
    (ht : t.nonNest = true) (vs : List (Option Scalar)) :
    ∃ buffers, encodeArr env enableDict (.prim t vs) = .ok buffers ∧ buffers.flatten ≠ [] ∧
      ∀ rest, vortexDeser env (buffers.flatten ++ rest) =
        .ok ((ArrayRef.prim t vs).toView, rest) := by
  obtain ⟨dtype, array, hmessages, hlen, hread⟩ := hv enableDict t vs ht
  refine ⟨_, by simp only [encodeArr, hmessages, liftErr, ok_bind, pure_eq_ok]; rfl, ?_, ?_⟩
  · -- the length field alone has four bytes
    intro hnil
    have h := congrArg List.length hnil
    simp [length_leEncode] at h
  · intro rest
    have hsize : leDecode (leEncode 4 dtype.length) = dtype.length :=
      leDecode_leEncode_of_lt (by simpa using hlen)
    rw [vortexDeser]
    simp only [List.flatten_cons, List.flatten_nil, List.append_nil, List.append_assoc]
    rw [splitTo_append_of_length (length_leEncode 4 _).symm, ok_bind]
    dsimp only
    rw [hsize, splitTo_append, ok_bind]
    dsimp only
    rw [splitTo_append_of_length (by simp [length_leEncode]), ok_bind]
    dsimp only
    rw [hread, liftErr]

theorem unitPayload_native (hv : env.vortex.RoundTrips) (enableDict : Bool) {t : PrimType}
    (ht : t.nonNest = true) (vs : List (Option Scalar)) :
    ∃ payload, unitPayload env .empty enableDict (.prim t vs) = .ok payload ∧ payload ≠ [] ∧
      ∀ rest, vortexDeser env (payload ++ rest) = .ok ((ArrayRef.prim t vs).toView, rest) := by
  obtain ⟨buffers, hbuffers, hne, hread⟩ := encodeArr_ok hv enableDict ht vs
  refine ⟨buffers.flatten, ?_, hne, hread⟩
  show encodeToBytes env (.vortex enableDict) (.prim t vs) = .ok buffers.flatten
  simp only [encodeToBytes, EncUnitEncoder.encode, ht, if_true, hbuffers, unwrap, ok_bind,
    pure_eq_ok]

/-- The decoder of a native unit that decompresses to `payload`. -/
theorem unitDecoder_native {ctx : WASMReadingContext} (hctx : ctx.Native)
    {u : SerializedEncUnit} {payload : Bytes} {wasmKey : DataType}
    (henc : u.encoding = unitEncoding .empty .cascade wasmKey)
    (hdata : unitData env u.compressionType u.bytes = .ok payload)
    (hfit : u.bytes.length < 2 ^ 32) (outputType : DataType) (rest : Bytes) :
    ChunkDecoder.unitDecoder env u.recorded.toFb (u.bytes ++ rest) outputType (some ctx) =
      .ok (.vortex payload outputType, rest) := by
  obtain ⟨versions, version, readerVersion, hversions, hversion, hreader, hnative⟩ := hctx
  have hsize : u.recorded.toFb.size = u.bytes.length := u32_of_lt hfit
  have htype : u.recorded.encoding.toFb.type_ = .cascade := by
    show u.encoding.encodingType = .cascade
    rw [henc]
    rfl
  rw [ChunkDecoder.unitDecoder, hsize, splitTo_append, ok_bind]
  dsimp only
  show (createEncunitDecoder env u.recorded.encoding.toFb u.compressionType u.bytes u.numRows
    outputType (some ctx) >>= _) = _
  rw [createEncunitDecoder, hdata, ok_bind]
  simp only [htype, okOr, ok_bind, hversions, hversion, hreader, unwrapSome, hnative,
    Bool.false_eq_true, if_false, pure_eq_ok]

/-- A unit of the native encoder for a leaf array: it exists, and it decodes to
the array. The output type only selects the decoder. -/
theorem decodes_of_native (hv : env.vortex.RoundTrips) (laws : env.CompressionLaws)
    {ctx : WASMReadingContext} (hctx : ctx.Native) {u : SerializedEncUnit} {enableDict : Bool}
    {t : PrimType} (ht : t.nonNest = true) {vs : List (Option Scalar)} {payload : Bytes}
    (hpayload : unitPayload env .empty enableDict (.prim t vs) = .ok payload)
    (hdata : compressData env payload u.compressionType = .ok u.bytes) {wasmKey : DataType}
    (henc : u.encoding = unitEncoding .empty .cascade wasmKey)
    (hfit : u.bytes.length < 2 ^ 32) {out : PrimType} (hout : out.nonNest = true) :
    Decodes env (some ctx) (.prim out) u (ArrayRef.prim t vs).toView := by
  obtain ⟨payload', hpayload', -, hread⟩ := unitPayload_native hv enableDict ht vs
  rw [hpayload] at hpayload'
  cases hpayload'
  have hunit := unitData_of_compressData laws hdata
  refine ⟨.vortex payload (.prim out), ?_, unitDecoder_native hctx henc hunit hfit _⟩
  have hdeser := hread []
  rw [List.append_nil] at hdeser
  simp only [EncUnitDecoder.decode, hout, if_true, hdeser, ok_bind, pure_eq_ok]

end Native

/-! ## Draining a chunk -/

namespace ChunkDecoder

variable {env : Env} {ctx : Option WASMReadingContext}

/-- Units that decode are returned one by one. -/
theorem drain_noDict {dataType : DataType} {us : List SerializedEncUnit} {arrs : List ArrayRef}
    (h : List.Forall₂ (Decodes env ctx dataType) us arrs) (rest : Bytes) :
    drain env (.noDict ⟨unitMetas us, unitBytes us ++ rest, ctx⟩ dataType) = .ok arrs := by
  induction h with
  | nil => exact drain_none env rfl
  | @cons u arr us arrs hu _ ih =>
      obtain ⟨decoder, hdecode, hsplit⟩ := hu
      have hstep : decodeBatch env
          (.noDict ⟨unitMetas (u :: us), unitBytes (u :: us) ++ rest, ctx⟩ dataType) =
            .ok (some arr, .noDict ⟨unitMetas us, unitBytes us ++ rest, ctx⟩ dataType) := by
        rw [decodeBatch, decodeNoDict]
        simp only [unitMetas_cons, unitBytes_cons, List.append_assoc, hsplit, ok_bind, hdecode,
          pure_eq_ok]
      rw [drain_step env hstep, ih, ok_bind, pure_eq_ok]

/-- Index units that decode are looked up in the shared dictionary one by one. -/
theorem drain_sharedDict {dict : ArrayRef} {us : List SerializedEncUnit} {arrs : List ArrayRef}
    (h : List.Forall₂ (fun u arr => ∃ indices, Decodes env ctx (.prim .int64) u indices ∧
      dictIndexToData dict indices = .ok arr) us arrs) (rest : Bytes) :
    drain env (.sharedDict ⟨unitMetas us, unitBytes us ++ rest, ctx⟩ dict) = .ok arrs := by
  induction h with
  | nil => exact drain_none env rfl
  | @cons u arr us arrs hu _ ih =>
      obtain ⟨indices, ⟨decoder, hdecode, hsplit⟩, hlookup⟩ := hu
      have hstep : decodeBatch env
          (.sharedDict ⟨unitMetas (u :: us), unitBytes (u :: us) ++ rest, ctx⟩ dict) =
            .ok (some arr, .sharedDict ⟨unitMetas us, unitBytes us ++ rest, ctx⟩ dict) := by
        rw [decodeBatch, decodeSharedDict]
        simp only [unitMetas_cons, unitBytes_cons, List.append_assoc, hsplit, ok_bind, hdecode,
          hlookup, pure_eq_ok]
      rw [drain_step env hstep, ih, ok_bind, pure_eq_ok]

end ChunkDecoder

end F3Format
