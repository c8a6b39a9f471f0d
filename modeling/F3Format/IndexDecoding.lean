import F3Format.IndexUnits
import F3Format.SampleEnv

/-!
# Index units, natively and in WASM

The native decoder returns the array type that is stored in a unit; the buffers of
a WASM module are read at the type that the caller declares. The caller is
`SharedDictColDecoder`, which declares `Int64` for the indices of every
dictionary, whereas `dict_index_to_data!` accepts the unsigned types only. So the
native path returns the values of the column, and the other one never an array.
-/

set_option autoImplicit false

namespace F3Format

open Lib ChunkDecoder

/-! ## The two paths -/

/-- `WASMEncUnitDecoder` calls the module and turns its buffers into an array;
`callMultiBuf` gives the buffers of a call. -/
def Env.RunsWasm (env : Env) (callMultiBuf : Bytes → Bytes → Result (List ArrowBuffer)) : Prop :=
  ∀ rt data t numRows, env.wasmDecode rt data (.prim t) numRows = (do
    let res ← callMultiBuf rt data
    primitiveArrayFromArrowBuffersIter t res numRows)

/-- The buffers are those of an array: at its own type they give the array, and its
values take no more bytes than they need. -/
structure BuffersOf (t : PrimType) (native : NativeType) (vs : List (Option Scalar))
    (validity values : ArrowBuffer) : Prop where
  type_native : t.native = some native
  rebuilt : newPrimitiveArrayFromArrowBufferIter native [validity, values] vs.length t =
    .ok (.prim t vs)
  exact : values.bytes.length = vs.length * native.size

/-- The metadata of a unit under an encoding. -/
def SerializedEncUnit.labelled (u : SerializedEncUnit) (encoding : Fb.Encoding) : Fb.EncUnit :=
  { u.recorded.toFb with encoding := some encoding }

/-- The array of a shared dictionary in the cache; one without values is replaced
by a placeholder. -/
def Dictionary.readBack (d : Dictionary) : ArrayRef :=
  if d.values = [] then placeholderArray else .prim d.datatype.decodedDict (d.values.map some)

/-- Both units, read from the same bytes, give `decode_batch` the same array. -/
def SameBatch (env : Env) (dict : ArrayRef) (us : List Fb.EncUnit) (buf : Bytes)
    (native guest : Fb.EncUnit × Option WASMReadingContext) : Prop :=
  ∃ a s s', decodeBatch env (.sharedDict ⟨native.1 :: us, buf, native.2⟩ dict) = .ok (some a, s) ∧
    decodeBatch env (.sharedDict ⟨guest.1 :: us, buf, guest.2⟩ dict) = .ok (some a, s')

section

variable {env : Env}

/-! ## In the module -/

theorem indexDtype_cases (n : Nat) : indexDtype n = .uint8 ∨ indexDtype n = .uint16 ∨
    indexDtype n = .uint32 ∨ indexDtype n = .uint64 := by
  unfold indexDtype
  split
  · exact .inl rfl
  · split
    · exact .inr (.inl rfl)
    · split
      · exact .inr (.inr (.inl rfl))
      · exact .inr (.inr (.inr rfl))

/-- No dictionary accepts indices of type `Int64`. -/
theorem dictIndexToData_int64 (dict : ArrayRef) (rows : List (Option Scalar)) :
    ∃ f, dictIndexToData dict (.prim .int64 rows) = .error f := by
  have hexpected : ∀ n, ¬ PrimType.int64 = expectedIndexType n := by
    intro n h
    rw [expectedIndexType_eq] at h
    rcases indexDtype_cases n with hn | hn | hn | hn <;> rw [hn] at h <;> cases h
  unfold dictIndexToData
  split
  · next t vs =>
      split
      · next target _ =>
          split
          · exact ⟨_, rfl⟩
          · rw [indexDowncast, if_neg (hexpected vs.length)]
            exact ⟨_, rfl⟩
      · exact ⟨_, rfl⟩
  · exact ⟨_, rfl⟩

/-- A unit decoded by a module gives `decode_batch` no array, whatever it returns. -/
theorem decodeBatch_wasm {callMultiBuf : Bytes → Bytes → Result (List ArrowBuffer)}
    (hwasm : env.RunsWasm callMultiBuf) (us : List Fb.EncUnit) {m : Fb.EncUnit}
    {buf data rt rest : Bytes} {numRows : Nat} {ctx : Option WASMReadingContext}
    (h : unitDecoder env m buf (.prim .int64) ctx =
      .ok (.wasm data rt (.prim .int64) numRows, rest)) (dict : ArrayRef) :
    ∃ f, decodeBatch env (.sharedDict ⟨m :: us, buf, ctx⟩ dict) = .error f := by
  rw [decodeBatch, decodeSharedDict]
  simp only [h, ok_bind]
  have hdecode : EncUnitDecoder.decode env (.wasm data rt (.prim .int64) numRows) = (do
      let res ← callMultiBuf rt data
      primitiveArrayFromArrowBuffersIter .int64 res numRows) := hwasm rt data .int64 numRows
  rw [hdecode]
  cases hcall : callMultiBuf rt data with
  | error f => exact ⟨f, rfl⟩
  | ok res =>
      rw [ok_bind]
      cases harray : primitiveArrayFromArrowBuffersIter .int64 res numRows with
      | error f => exact ⟨f, rfl⟩
      | ok a =>
          obtain ⟨rows, rfl⟩ := of_primitiveArrayFromArrowBuffersIter harray
          obtain ⟨f, hf⟩ := dictIndexToData_int64 dict rows
          refine ⟨f, ?_⟩
          rw [ok_bind, show PrimType.int64.view = .int64 from rfl, hf]
          rfl

/-- What happens to indices of fewer than eight bytes, if the module returns the
buffers of their array: the values are too short for `Int64`. -/
theorem decodeBatch_narrow {callMultiBuf : Bytes → Bytes → Result (List ArrowBuffer)}
    (hwasm : env.RunsWasm callMultiBuf) (us : List Fb.EncUnit) {m : Fb.EncUnit}
    {buf data rt rest : Bytes} {ctx : Option WASMReadingContext} {t : PrimType}
    {native : NativeType} {vs : List (Option Scalar)} {validity values : ArrowBuffer}
    (h : unitDecoder env m buf (.prim .int64) ctx =
      .ok (.wasm data rt (.prim .int64) vs.length, rest))
    (hcall : callMultiBuf rt data = .ok [validity, values])
    (hbuffers : BuffersOf t native vs validity values) (hnarrow : native.size < 8)
    (hne : vs ≠ []) (hfit : vs.length < 2 ^ 32) (dict : ArrayRef) :
    decodeBatch env (.sharedDict ⟨m :: us, buf, ctx⟩ dict) =
      panicking "the offset of the new Buffer cannot exceed the existing length" := by
  have hpos : 0 < vs.length := List.length_pos_iff.2 hne
  have hshort : values.bytes.length < vs.length * 8 := by
    rw [hbuffers.exact]
    exact Nat.mul_lt_mul_of_pos_left hnarrow hpos
  obtain ⟨nulls, hnulls⟩ : ∃ nulls, arrowBufferToValidity validity vs.length = .ok nulls := by
    have hrebuilt := hbuffers.rebuilt
    simp only [newPrimitiveArrayFromArrowBufferIter, nextBuffer, pure_eq_ok, ok_bind,
      bind_eq_ok] at hrebuilt
    obtain ⟨nulls, hnulls, -⟩ := hrebuilt
    exact ⟨nulls, hnulls⟩
  have hread : newPrimitiveArrayFromArrowBufferIter (.signed 8 8) [validity, values] vs.length
      .int64 = panicking "the offset of the new Buffer cannot exceed the existing length" :=
    newPrimitiveArray_of_short hnulls (by show vs.length * 8 < _; omega) hshort
  have hdecode : EncUnitDecoder.decode env (.wasm data rt (.prim .int64) vs.length) =
      panicking "the offset of the new Buffer cannot exceed the existing length" := by
    show env.wasmDecode rt data (.prim .int64) vs.length = _
    rw [hwasm, hcall, ok_bind]
    exact hread
  rw [decodeBatch, decodeSharedDict]
  simp only [h, ok_bind, hdecode]
  rfl

/-- At the type that was written, the buffers give the array the native decoder gives. -/
theorem decode_at_written_type {callMultiBuf : Bytes → Bytes → Result (List ArrowBuffer)}
    (hwasm : env.RunsWasm callMultiBuf) {n : Nat} {native : NativeType}
    {vs : List (Option Scalar)} {validity values : ArrowBuffer} {rt data : Bytes}
    (hcall : callMultiBuf rt data = .ok [validity, values])
    (hbuffers : BuffersOf (indexDtype n) native vs validity values) :
    EncUnitDecoder.decode env (.wasm data rt (.prim (indexDtype n)) vs.length) =
      .ok (.prim (indexDtype n) vs) := by
  have hread : primitiveArrayFromArrowBuffersIter (indexDtype n) [validity, values] vs.length =
      newPrimitiveArrayFromArrowBufferIter native [validity, values] vs.length
        (indexDtype n) := by
    have hnative := hbuffers.type_native
    rcases indexDtype_cases n with h | h | h | h <;> rw [h] at hnative ⊢ <;> cases hnative <;> rfl
  have hnest : (DataType.prim (indexDtype n)).nonNest = true := indexDtype_nonNest n
  rw [EncUnitDecoder.decode, if_pos hnest, hwasm, hcall, ok_bind, hread]
  exact hbuffers.rebuilt

/-! ## Natively -/

/-- The native decoder gets the decompressed bytes of the unit. -/
theorem createEncunitDecoder_vortex {e : Fb.Encoding} {c : CompressionType} {bytes data : Bytes}
    {numRows : Nat} {out out' : DataType} {ctx : Option WASMReadingContext}
    (h : createEncunitDecoder env e c bytes numRows out ctx = .ok (.vortex data out')) :
    unitData env c bytes = .ok data := by
  have hguest : ∀ {payload : Bytes} {reading : WASMReadingContext},
      ¬ returnWasmDecoder env e payload out reading numRows = .ok (.vortex data out') := by
    intro payload reading hret
    simp only [returnWasmDecoder, bind_eq_ok, pure_eq_ok, Except.ok.injEq] at hret
    obtain ⟨_, -, _, -, hwasm⟩ := hret
    cases hwasm
  rw [createEncunitDecoder, bind_eq_ok] at h
  obtain ⟨payload, hpayload, h⟩ := h
  rw [hpayload]
  split at h
  · simp only [bind_eq_ok] at h
    obtain ⟨reading, -, versions, -, version, -, readerVersion, -, h⟩ := h
    split at h
    · exact absurd h hguest
    · cases h
      rfl
  · split at h
    · exact absurd h hguest
    · cases h
  · cases h

theorem unitDecoder_labelled {u : SerializedEncUnit} (hfit : u.bytes.length < 2 ^ 32)
    (e : Fb.Encoding) (after : Bytes) (out : DataType) (ctx : Option WASMReadingContext) :
    unitDecoder env (u.labelled e) (u.bytes ++ after) out ctx = (do
      let decoder ← createEncunitDecoder env e u.compressionType u.bytes u.numRows out ctx
      pure (decoder, after)) := by
  have hsize : (u.labelled e).size = u.bytes.length := u32_of_lt hfit
  rw [unitDecoder, hsize, splitTo_append, ok_bind]
  rfl

/-- The values of a column by their positions in the dictionary that is read back. -/
theorem dictIndexToData_readBack {d : Dictionary} {vs : List (Option Scalar)}
    (h : Covers d.values vs) :
    ∃ t, dictIndexToData d.readBack
      (.prim (indexDtype d.values.length) (indicesOf d.values vs)) = .ok (.prim t vs) := by
  by_cases hnil : d.values = []
  · have hnone : ∀ o ∈ vs, o = none := by
      intro o ho
      cases o with
      | none => rfl
      | some v =>
          have hmem := h v ho
          rw [hnil] at hmem
          cases hmem
    have hvs : vs = List.replicate vs.length none := List.eq_replicate_iff.2 ⟨rfl, hnone⟩
    have hlookup : ∀ n, collect (lookupIndex .int32 [none]) (List.replicate n none) =
        .ok (List.replicate n none) := by
      intro n
      induction n with
      | zero => rfl
      | succ n ih => exact collect_cons_eq_ok.2 ⟨none, _, rfl, ih, rfl⟩
    refine ⟨.int32, ?_⟩
    rw [Dictionary.readBack, if_pos hnil, hnil, hvs, indicesOf, List.map_replicate]
    show (collect (lookupIndex .int32 [none]) (List.replicate vs.length none) >>= _) = _
    rw [hlookup]
    rfl
  · refine ⟨d.datatype.decodedDict, ?_⟩
    rw [Dictionary.readBack, if_neg hnil]
    exact dictIndexToData_indicesOf d.supported h

/-- A native unit of indices gives `decode_batch` the values they stand for. -/
theorem decodeBatch_native (hv : env.vortex.RoundTrips) (laws : env.CompressionLaws)
    {w : WASMWritingContext} {d : Dictionary} {vs : List (Option Scalar)}
    {u : SerializedEncUnit} (hunit : IndexUnit env w d vs u) (hfit : u.bytes.length < 2 ^ 32)
    (hlib : w.dataTypeToWasmLib (.prim (indexDtype d.values.length)) = none)
    (us : List Fb.EncUnit) {e : Fb.Encoding} {ctx : Option WASMReadingContext}
    {after data rest : Bytes}
    (h : unitDecoder env (u.labelled e) (u.bytes ++ after) (.prim .int64) ctx =
      .ok (.vortex data (.prim .int64), rest)) :
    ∃ t s, decodeBatch env (.sharedDict ⟨u.labelled e :: us, u.bytes ++ after, ctx⟩ d.readBack) =
      .ok (some (.prim t vs), s) := by
  obtain ⟨payload, hpayload, hcompressed⟩ := hunit.encoded
  have hcreated := h
  rw [unitDecoder_labelled hfit, bind_eq_ok] at hcreated
  obtain ⟨decoder, hcreated, hpair⟩ := hcreated
  cases hpair
  have hdata := createEncunitDecoder_vortex hcreated
  rw [unitData_of_compressData laws hcompressed] at hdata
  cases hdata
  have hnative : unitPayload env w false
      (.prim (indexDtype d.values.length) (indicesOf d.values vs)) =
        unitPayload env .empty false
          (.prim (indexDtype d.values.length) (indicesOf d.values vs)) := by
    rw [unitPayload, ArrayRef.dataType_prim, createEncunitEncoder, hlib]
    rfl
  obtain ⟨payload', hpayload', -, hread⟩ := unitPayload_native hv false
    (indexDtype_nonNest d.values.length) (indicesOf d.values vs)
  rw [hnative, hpayload'] at hpayload
  cases hpayload
  have hdeser := hread []
  rw [List.append_nil, ArrayRef.toView, indexDtype_view] at hdeser
  have hdecode : EncUnitDecoder.decode env (.vortex data (.prim .int64)) =
      .ok (.prim (indexDtype d.values.length) (indicesOf d.values vs)) := by
    show (vortexDeser env data >>= _) = _
    rw [hdeser]
    rfl
  obtain ⟨t, hlookup⟩ := dictIndexToData_readBack hunit.covers
  refine ⟨t, .sharedDict ⟨us, after, ctx⟩ d.readBack, ?_⟩
  rw [decodeBatch, decodeSharedDict]
  simp only [h, ok_bind, hdecode, hlookup, pure_eq_ok]

/-! ## Both -/

/-- For no unit the encoders emit do the two paths agree: the module's buffers give no
array, and natively encoded indices are decoded to the values of the column. -/
theorem index_units_disagree {callMultiBuf : Bytes → Bytes → Result (List ArrowBuffer)}
    (hwasm : env.RunsWasm callMultiBuf) {w : WASMWritingContext} {d : Dictionary}
    {c : EncodedColumnChunk} {u : SerializedEncUnit} (hchunk : IndexChunk env w d c)
    (hu : u ∈ c.encunits) {native guest : Fb.Encoding}
    {nativeCtx guestCtx : Option WASMReadingContext} (us : List Fb.EncUnit)
    {after data rest data' rest' rt : Bytes} {numRows : Nat}
    (hnative : unitDecoder env (u.labelled native) (u.bytes ++ after) (.prim .int64) nativeCtx =
      .ok (.vortex data (.prim .int64), rest))
    (hguest : unitDecoder env (u.labelled guest) (u.bytes ++ after) (.prim .int64) guestCtx =
      .ok (.wasm data' rt (.prim .int64) numRows, rest')) :
    ¬ SameBatch env d.readBack us (u.bytes ++ after) (u.labelled native, nativeCtx)
        (u.labelled guest, guestCtx) ∧
      (env.vortex.RoundTrips → env.CompressionLaws → u.bytes.length < 2 ^ 32 →
        w.dataTypeToWasmLib (.prim (indexDtype d.values.length)) = none →
        ∃ vs t s, IndexUnit env w d vs u ∧
          decodeBatch env (.sharedDict ⟨u.labelled native :: us, u.bytes ++ after, nativeCtx⟩
            d.readBack) = .ok (some (.prim t vs), s)) := by
  constructor
  · rintro ⟨a, s, s', -, hsame⟩
    obtain ⟨f, hf⟩ := decodeBatch_wasm hwasm us hguest d.readBack
    rw [hf] at hsame
    cases hsame
  · intro hv laws hfit hlib
    obtain ⟨vs, hunit⟩ := hchunk.units hu
    obtain ⟨t, s, hbatch⟩ := decodeBatch_native hv laws hunit hfit hlib us hnative
    exact ⟨vs, t, s, hunit, hbatch⟩

end

/-! ## A dictionary of one value -/

namespace Sample

/-- The buffers of an array of unsigned numbers without nulls. -/
def guestBuffers : ArrayRef → List ArrowBuffer
  | .prim t vs =>
      [⟨64, []⟩, ⟨64, vs.flatMap fun o =>
        match t.native, o with
        | some native, some (.int i) => leEncode native.size i.toNat
        | _, _ => []⟩]
  | _ => []

/-- A module that decodes what Vortex wrote and returns the buffers of the array. -/
def callMultiBuf (_ data : Bytes) : Result (List ArrowBuffer) := do
  let (array, _) ← vortexDeser base data
  pure (guestBuffers array)

/-- The environment with that module behind every binary. -/
def guestEnv : Env :=
  { base with
    wasmDecode := fun rt data outputType numRows =>
      match outputType with
      | .prim t => do
          let res ← callMultiBuf rt data
          primitiveArrayFromArrowBuffersIter t res numRows
      | _ => panicking "not implemented" }

theorem guestEnv_runsWasm : guestEnv.RunsWasm callMultiBuf := fun _ _ _ _ => rfl

/-- The context of a writer under `write_built_in_wasm`. -/
def builtInWasm : WASMWritingContext := ⟨[(0, ⟨"builtin", base.builtinWasm⟩)], [], true, some 0⟩

/-- A column with one number buffered. -/
def sharedColumn : Working SharedDictColEncoder :=
  ⟨SharedDictColEncoder.holding guestEnv (.new u64Max 64 builtInWasm .uncompressed) [seven],
    .default, .new false .uncompressed, 0⟩

/-- Its dictionary. -/
def sevenDict : Dictionary :=
  ⟨.int32, (TypedDict.new.extend [some (.int 7)]).1, PrimType.dictSupported_int32⟩

/-- The one index, of one byte, as Vortex writes it. -/
def indexBytes : Bytes :=
  (unitPayload guestEnv builtInWasm false (.prim .uint8 [some (.int 0)])).toOption.getD []

/-- Its unit. -/
def sevenIndex : SerializedEncUnit :=
  ⟨indexBytes, 1, ⟨.customWasm, some ⟨0, []⟩⟩, .uncompressed⟩

theorem sevenIndex_emitted :
    IndexChunk guestEnv builtInWasm sevenDict ⟨[sevenIndex], 1, .sharedDictionary 0, 0⟩ :=
  .scope (s := sharedColumn) rfl (SharedDictionaryContext.valid_new false .uncompressed)
    (by decide) rfl (List.mem_singleton_self _) rfl rfl

/-- The reading context of the file. -/
def builtInContext : WASMReadingContext :=
  ⟨some [(0, base.builtinWasm)], none, none, some defaultEncodingVersions⟩

/-- The unit for the native decoder. -/
def nativeIndex : Fb.EncUnit := sevenIndex.labelled ⟨.cascade, none⟩

/-- The unit as it is labelled in the file. -/
def guestIndex : Fb.EncUnit := sevenIndex.labelled ⟨.customWasm, some ⟨0, some []⟩⟩

end Sample

/-- The unit is decoded natively to the value of the column, and its array is what
the module returns the buffers of, but reading them panics. -/
theorem one_byte_index_panics :
    (∃ validity values, Sample.callMultiBuf Sample.base.builtinWasm Sample.indexBytes =
        .ok [validity, values] ∧
      BuffersOf .uint8 (.unsigned 1) [some (.int 0)] validity values) ∧
    (∃ s, decodeBatch Sample.guestEnv (.sharedDict ⟨[Sample.nativeIndex], Sample.indexBytes,
      some Sample.builtInContext⟩ Sample.sevenDict.readBack) = .ok (some Sample.seven, s)) ∧
    decodeBatch Sample.guestEnv (.sharedDict ⟨[Sample.guestIndex], Sample.indexBytes,
      some Sample.builtInContext⟩ Sample.sevenDict.readBack) =
        panicking "the offset of the new Buffer cannot exceed the existing length" :=
  ⟨⟨⟨64, []⟩, ⟨64, [0]⟩, rfl, rfl, rfl, rfl⟩, ⟨_, rfl⟩, rfl⟩

theorem index_units_disagree_seven :
    ¬ SameBatch Sample.guestEnv Sample.sevenDict.readBack [] (Sample.indexBytes ++ [])
        (Sample.nativeIndex, some Sample.builtInContext)
        (Sample.guestIndex, some Sample.builtInContext) ∧
      ∃ vs t s, IndexUnit Sample.guestEnv Sample.builtInWasm Sample.sevenDict vs
          Sample.sevenIndex ∧
        decodeBatch Sample.guestEnv (.sharedDict ⟨[Sample.nativeIndex],
          Sample.indexBytes ++ [], some Sample.builtInContext⟩ Sample.sevenDict.readBack) =
            .ok (some (.prim t vs), s) :=
  have hnative : unitDecoder Sample.guestEnv Sample.nativeIndex (Sample.indexBytes ++ [])
      (.prim .int64) (some Sample.builtInContext) =
        .ok (.vortex Sample.indexBytes (.prim .int64), []) := rfl
  have hguest : unitDecoder Sample.guestEnv Sample.guestIndex (Sample.indexBytes ++ [])
      (.prim .int64) (some Sample.builtInContext) =
        .ok (.wasm Sample.indexBytes Sample.base.builtinWasm (.prim .int64) 1, []) := rfl
  have h := index_units_disagree Sample.guestEnv_runsWasm Sample.sevenIndex_emitted
    (List.mem_singleton_self _) [] hnative hguest
  ⟨h.1, h.2 Sample.vortex_roundTrips
    ⟨fun _ => rfl, fun _ => List.cons_ne_nil _ _,
      fun b => ⟨40 :: b, rfl, rfl, List.cons_ne_nil _ _⟩⟩ (by decide) rfl⟩

end F3Format
