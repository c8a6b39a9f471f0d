import F3Format.ColumnProjection
import F3Format.FlatColumns
import F3Format.RowRanges

/-!
# Reading a flat file back

If every unit decodes to the rows it was made of, each column of a row group
decodes to the arrays that `write_batch` encoded for it, in order
(`readProjected_flat`). What is left of the reader is then a function of these
arrays: it pairs the arrays of the columns by their positions.
-/

set_option autoImplicit false

namespace F3Format

open Lib FileWriter FileReaderV2Builder

/-! ## The codec -/

/-- What the options encode for a leaf array, a reader with the context decodes
to the same rows. -/
def UnitOptions.RoundTrips (env : Env) (o : UnitOptions) (ctx : WASMReadingContext) : Prop :=
  ∀ (t : PrimType) (vs : List (Option Scalar)) (u : SerializedEncUnit), t.nonNest = true →
    o.unit env (.prim t vs) = .ok u → u.bytes.length < 2 ^ 32 → vs.length < 2 ^ 32 →
      Decodes env (some ctx) (.prim t) u (ArrayRef.prim t vs).toView

/-- Every reader of the finished file decodes the units of its writer. -/
def FileWriter.CodecRoundTrips (env : Env) (schema : List Field) (options : FileWriterOptions)
    (cs : List Call) (w : FileWriter) : Prop :=
  ∀ w₁ sec p, FinishesWith env schema options cs w w₁ sec p →
    (options.units env).RoundTrips env ((FileReaderV2Builder.new w.file).contextOf sec)

/-- The reader of a written file takes the native decoder for Vortex units. -/
theorem native_contextOf (file : Bytes) (sec : Sections) :
    ((FileReaderV2Builder.new file).contextOf sec).Native :=
  ⟨_, _, _, rfl, rfl, rfl, rfl⟩

/-- The native codec, if Vortex and the block compressors are inverted by their readers. -/
theorem roundTrips_native {env : Env} (hv : env.vortex.RoundTrips) (laws : env.CompressionLaws)
    {ctx : WASMReadingContext} (hctx : ctx.Native) {o : UnitOptions}
    (ho : o.wasmContext = .empty) : o.RoundTrips env ctx := by
  intro t vs u ht hunit hfit _
  obtain ⟨w, enableDict, c⟩ := o
  have hw : w = .empty := ho
  subst hw
  rw [UnitOptions.unit, encodeEncUnit, bind_eq_ok] at hunit
  obtain ⟨payload, hpayload, hunit⟩ := hunit
  rw [bind_eq_ok] at hunit
  obtain ⟨bytes, hbytes, hu⟩ := hunit
  cases hu
  exact decodes_of_native (u := ⟨bytes, _, _, c⟩) hv laws hctx ht hpayload hbytes rfl hfit ht

theorem codecRoundTrips_native {env : Env} (hv : env.vortex.RoundTrips)
    (laws : env.CompressionLaws) {options : FileWriterOptions}
    (ho : options.wasmContext env = .empty) (schema : List Field) (cs : List Call)
    (w : FileWriter) : CodecRoundTrips env schema options cs w :=
  fun _ sec _ _ => roundTrips_native hv laws (native_contextOf w.file sec) ho

/-! ## The arrays of matching batches -/

/-- The columns of the batch are columns of the schema. -/
def RecordBatch.Matches (schema : List Field) (b : RecordBatch) : Prop :=
  validBatch schema b.columns b.numRows = true

section Batches

variable {schema : List Field} {lens : List (Nat × Nat)} {b : RecordBatch}

theorem RecordBatch.Matches.length_columns (h : b.Matches schema) :
    b.columns.length = schema.length := by
  simp only [RecordBatch.Matches, validBatch, Bool.and_eq_true, decide_eq_true_eq] at h
  have hlen := congrArg List.length h.1.1
  rwa [List.length_map, List.length_map, eq_comm] at hlen

/-- A column of a matching batch of a flat schema is a leaf array of the type of its field. -/
theorem RecordBatch.Matches.column (h : b.Matches schema) (hflat : flatSchema schema = true)
    {i : Nat} {f : Field} (hf : schema[i]? = some f) : ∃ t vs, f.dataType = .prim t ∧
      t.nonNest = true ∧ b.columns[i]? = some (.prim t vs) ∧ vs.length = b.numRows ∧
        (f.isNullable = false → ∀ v ∈ vs, v.isSome = true) := by
  have hlen := h.length_columns
  simp only [RecordBatch.Matches, validBatch, Bool.and_eq_true, decide_eq_true_eq,
    List.all_eq_true, Bool.or_eq_true] at h
  obtain ⟨⟨htypes, hrows⟩, hnulls⟩ := h
  have hi : i < b.columns.length := hlen ▸ (List.getElem?_eq_some_iff.1 hf).1
  have hc := List.getElem?_eq_getElem hi
  have htype : f.dataType = b.columns[i].dataType := by
    have hsame := congrArg (fun ts => ts[i]?) htypes
    simpa [List.getElem?_map, hf, hc] using hsame
  have hnon : b.columns[i].dataType.nonNest = true := by
    rw [← htype]
    exact List.all_eq_true.1 hflat f (List.mem_of_getElem? hf)
  obtain ⟨t, vs, hprim, ht⟩ := ArrayRef.eq_prim_of_nonNest hnon
  rw [hprim] at hc htype
  refine ⟨t, vs, htype, ht, hc, ?_, ?_⟩
  · exact hrows _ (List.mem_of_getElem? hc)
  · intro hf' v hv
    have hzip : (f, ArrayRef.prim t vs) ∈ schema.zip b.columns :=
      List.mem_of_getElem? (List.getElem?_zip_eq_some.2 ⟨hf, hc⟩)
    rcases hnulls _ hzip with hnullable | hcount
    · rw [hf'] at hnullable
      cases hnullable
    · have hzero : (vs.map Option.isSome).count false = 0 := hcount
      rw [List.count_eq_zero] at hzero
      cases hs : v.isSome with
      | true => rfl
      | false => exact absurd (List.mem_map.2 ⟨v, hv, hs⟩) hzero

/-- The lengths of the arrays that a column of the given number of rows is encoded in. -/
def unitLengths (lens : List (Nat × Nat)) (numRows i : Nat) : List Nat :=
  match lens.lookup i with
  | none => [numRows]
  | some n => List.replicate (numRows / n) n

/-- The slices of a leaf column are leaf arrays with the first rows of the column. -/
theorem encodedArrays_prim {numRows i : Nat} {t : PrimType} {vs : List (Option Scalar)}
    (hrows : vs.length = numRows) (haccepted : ∀ n, lens.lookup i = some n → 0 < n ∧ n ≤ numRows) :
    ∃ parts : List (List (Option Scalar)),
      encodedArrays lens numRows (.prim t vs, i) = parts.map (ArrayRef.prim t) ∧
        parts.map List.length = unitLengths lens numRows i ∧
          parts.flatten = vs.take (unitLengths lens numRows i).sum := by
  rw [encodedArrays, unitLengths]
  dsimp only
  cases hlen : lens.lookup i with
  | none =>
      refine ⟨[vs], rfl, by rw [List.map_singleton, hrows], ?_⟩
      rw [List.sum_singleton, ← hrows, List.take_length, List.flatten_singleton]
  | some n =>
      obtain ⟨hpos, -⟩ := haccepted n hlen
      have hslice : ∀ j < numRows / n, min n ((ArrayRef.prim t vs).len - j * n) = n := by
        intro j hj
        have hmul : (j + 1) * n ≤ numRows := (Nat.le_div_iff_mul_le hpos).1 hj
        rw [ArrayRef.len_prim, hrows]
        rw [Nat.succ_mul] at hmul
        omega
      refine ⟨(List.range (numRows / n)).map fun j => slice vs (j * n) n, ?_, ?_, ?_⟩
      · rw [List.map_map]
        refine List.map_congr_left fun j hj => ?_
        rw [hslice j (List.mem_range.1 hj)]
        rfl
      · rw [List.map_map, List.eq_replicate_iff]
        refine ⟨by rw [List.length_map, List.length_range], fun m hm => ?_⟩
        obtain ⟨j, hj, rfl⟩ := List.mem_map.1 hm
        have hmul : (j + 1) * n ≤ numRows := (Nat.le_div_iff_mul_le hpos).1 (List.mem_range.1 hj)
        refine length_slice vs ?_
        rw [hrows]
        rw [Nat.succ_mul] at hmul
        exact hmul
      · rw [List.sum_replicate_nat]
        induction numRows / n with
        | zero => simp
        | succ k ih =>
            rw [List.range_succ, List.map_append, List.flatten_append, ih, List.map_singleton,
              List.flatten_singleton, Nat.succ_mul, slice, List.take_add]

/-- The values of column `i` of a batch. -/
def RecordBatch.valuesOf (b : RecordBatch) (i : Nat) : List (Option Scalar) :=
  ((b.columns[i]?).map ArrayRef.rows).getD []

/-- The values of column `i` that are encoded. -/
def RecordBatch.keptOf (lens : List (Nat × Nat)) (b : RecordBatch) (i : Nat) :
    List (Option Scalar) :=
  (b.valuesOf i).take (unitLengths lens b.numRows i).sum

/-- The arrays of column `i` are leaf arrays of this type with these rows. -/
def LeafArrays (f : Field) (arrays : List ArrayRef) (lengths : List Nat)
    (values : List (Option Scalar)) : Prop :=
  ∃ (t : PrimType) (parts : List (List (Option Scalar))), f.dataType = .prim t ∧
    t.nonNest = true ∧ arrays = parts.map (ArrayRef.prim t) ∧ parts.map List.length = lengths ∧
      parts.flatten = values ∧ (f.isNullable = false → ∀ vs ∈ parts, ∀ v ∈ vs, v.isSome = true)

/-- The arrays that the batches of a row group give a column. -/
theorem leafArrays_of_matches (hflat : flatSchema schema = true) {i : Nat} {f : Field}
    (hf : schema[i]? = some f) : ∀ {bs : List RecordBatch}, (∀ b ∈ bs, b.Matches schema) →
      (∀ b ∈ bs, b.Accepted lens) →
        LeafArrays f (bs.flatMap fun b => b.arraysOf lens i)
          (bs.flatMap fun b => unitLengths lens b.numRows i) (bs.flatMap fun b => b.keptOf lens i)
  | [], _, _ => by
      have hnon : f.dataType.nonNest = true :=
        List.all_eq_true.1 hflat f (List.mem_of_getElem? hf)
      cases htype : f.dataType with
      | prim t =>
          rw [htype] at hnon
          exact ⟨t, [], htype, hnon, rfl, rfl, rfl, fun _ vs hvs => by cases hvs⟩
      | list child => rw [htype] at hnon; cases hnon
      | largeList child => rw [htype] at hnon; cases hnon
      | struct children => rw [htype] at hnon; cases hnon
  | b :: bs, hmatch, haccepted => by
      obtain ⟨t, parts, htype, ht, harrays, hlengths, hvalues, hnulls⟩ :=
        leafArrays_of_matches hflat hf (fun c hc => hmatch c (List.mem_cons_of_mem _ hc))
          fun c hc => haccepted c (List.mem_cons_of_mem _ hc)
      obtain ⟨t', vs, htype', -, hc, hrows, hvs⟩ :=
        (hmatch b (List.mem_cons_self ..)).column hflat hf
      rw [htype] at htype'
      cases htype'
      have hi : i < b.columns.length := (List.getElem?_eq_some_iff.1 hc).1
      obtain ⟨own, hown, hownlengths, hownvalues⟩ := encodedArrays_prim (t := t) hrows
        fun n hn => haccepted b (List.mem_cons_self ..) i n hi hn
      refine ⟨t, own ++ parts, htype, ht, ?_, ?_, ?_, ?_⟩
      · rw [List.flatMap_cons, harrays, RecordBatch.arraysOf, hc, List.map_append, ← hown]
      · rw [List.map_append, hownlengths, hlengths, List.flatMap_cons]
      · rw [List.flatten_append, hownvalues, hvalues, List.flatMap_cons, RecordBatch.keptOf,
          RecordBatch.valuesOf, hc]
        rfl
      · intro hf' us hus v hv
        rcases List.mem_append.1 hus with hus | hus
        · refine hvs hf' v (List.mem_of_mem_take (i := (unitLengths lens b.numRows i).sum) ?_)
          rw [← hownvalues]
          exact List.mem_flatten.2 ⟨us, hus, hv⟩
        · exact hnulls hf' us hus v hv

end Batches

/-! ## Chunks and columns -/

section Columns

variable {env : Env} {o : UnitOptions} {ctx : WASMReadingContext} {t : PrimType}

/-- A unit that decodes, and whose size and row count fit, holds its array. -/
theorem unitHolds_of_unit (hcodec : o.RoundTrips env ctx) (ht : t.nonNest = true)
    {vs : List (Option Scalar)} {u : SerializedEncUnit} (hu : o.unit env (.prim t vs) = .ok u)
    (hsize : u.bytes.length < 2 ^ 32) (hrows : vs.length < 2 ^ 32) :
    UnitHolds env (some ctx) (.prim t) u.recorded.toFb u.bytes (ArrayRef.prim t vs).toView where
  size := u32_of_lt hsize
  rows := by
    rw [UnitOptions.unit, encodeEncUnit, bind_eq_ok] at hu
    obtain ⟨payload, -, hu⟩ := hu
    rw [bind_eq_ok] at hu
    obtain ⟨bytes, -, hu⟩ := hu
    cases hu
    exact u32_of_lt hrows
  decodes := hcodec t vs u ht hu hsize hrows

theorem unitsHold_of_units (hcodec : o.RoundTrips env ctx) (ht : t.nonNest = true) :
    ∀ {us : List SerializedEncUnit} {parts : List (List (Option Scalar))},
      List.Forall₂ (fun u a => o.unit env a = .ok u) us (parts.map (ArrayRef.prim t)) →
        (∀ u ∈ us, u.bytes.length < 2 ^ 32) → (∀ vs ∈ parts, vs.length < 2 ^ 32) →
          UnitsHold env (some ctx) (.prim t) (us.map fun u => u.recorded.toFb)
            (us.map SerializedEncUnit.bytes).flatten (parts.map fun vs =>
              (ArrayRef.prim t vs).toView)
  | [], [], _, _, _ => .nil []
  | u :: _, vs :: _, .cons hu hus, hsizes, hrows =>
      .cons (unitHolds_of_unit hcodec ht hu (hsizes u (List.mem_cons_self ..))
          (hrows vs (List.mem_cons_self ..)))
        (unitsHold_of_units hcodec ht hus (fun u' hu' => hsizes u' (List.mem_cons_of_mem _ hu'))
          fun vs' hvs' => hrows vs' (List.mem_cons_of_mem _ hvs'))

/-- Units that lie one after another are drained in order. -/
theorem drain_of_unitsHold {c : Option WASMReadingContext} {outputType : DataType}
    {units : List Fb.EncUnit} {buf : Bytes} {arrays : List ArrayRef}
    (h : UnitsHold env c outputType units buf arrays) :
    ChunkDecoder.drain env (.noDict ⟨units, buf, c⟩ outputType) = .ok arrays := by
  induction h with
  | nil rest => exact ChunkDecoder.drain_none env rfl
  | @cons u us data buf a as hu _ ih =>
      obtain ⟨decoder, hdecode, hsplit⟩ := hu.decodes
      have hstep : ChunkDecoder.decodeBatch env (.noDict ⟨u :: us, data ++ buf, c⟩ outputType) =
          .ok (some a, .noDict ⟨us, buf, c⟩ outputType) := by
        rw [ChunkDecoder.decodeBatch, ChunkDecoder.decodeNoDict]
        simp only [hsplit, ok_bind, hdecode, pure_eq_ok]
      rw [ChunkDecoder.drain_step env hstep, ih, ok_bind, pure_eq_ok]

variable {d : PrimitiveColDecoder}

/-- A recorded chunk holds the arrays whose units it was made of. -/
theorem chunkHolds_of_recorded (hcodec : o.RoundTrips env ctx) (ht : t.nonNest = true)
    {narrowed : List Nat} (hfit : ∀ v ∈ narrowed, v < 2 ^ 32) {m : Chunk}
    {parts : List (List (Option Scalar))}
    (h : Recorded env o d.r narrowed m (parts.map (ArrayRef.prim t)))
    (hrows : ∀ vs ∈ parts, vs.length < 2 ^ 32) (htype : d.primitiveType = .prim t)
    (hctx : d.wasmContext = some ctx) (hchecksum : d.checksumType = none) :
    d.ChunkHolds env m.toFb (parts.map fun vs => (ArrayRef.prim t vs).toView) := by
  obtain ⟨c, checksum, offset, rfl, hholds, hsizes, hchunk⟩ := h
  have hsize : ∀ n ∈ c.sizes, n < 2 ^ 32 := fun n hn => hfit n (hsizes n hn)
  have hbytes : c.bytes.length < 2 ^ 32 :=
    hsize _ (List.mem_append_right _ (List.mem_singleton_self _))
  refine ⟨?_, ?_, c.encunits.map fun u => u.recorded.toFb, c.bytes, ?_, ?_, ?_⟩
  · show (DictionaryEncoding.toFb c.dictEncoding) = _
    rw [hchunk.encoding]
    rfl
  · show c.numRows = _
    rw [hchunk.rows, List.map_map, List.map_map]
    rfl
  · show some ((c.encunits.map SerializedEncUnit.recorded).map EncUnit.toFb) = _
    rw [List.map_map]
    rfl
  · rw [PrimitiveColDecoder.readChunk, hchecksum]
    have hread : readExactAt d.r offset (u32 c.bytes.length) = .ok c.bytes := by
      rw [u32_of_lt hbytes]
      exact reads_readExactAt _ _ _ hholds
    show (readExactAt d.r offset (u32 c.bytes.length) >>= _) = _
    rw [hread, ok_bind]
    rfl
  · rw [htype, hctx]
    exact unitsHold_of_units hcodec ht hchunk.units
      (fun u hu => hsize _ (List.mem_append_left _ (List.mem_map_of_mem hu))) hrows

/-- Some arrays are leaf arrays of one type with row counts that fit. -/
def FitLeaves (t : PrimType) (arrays : List ArrayRef) : Prop :=
  ∀ a ∈ arrays, ∃ vs, a = .prim t vs ∧ vs.length < 2 ^ 32

theorem FitLeaves.eq_map {arrays : List ArrayRef} (h : FitLeaves t arrays) :
    arrays = (arrays.map ArrayRef.rows).map (ArrayRef.prim t) ∧
      ∀ vs ∈ arrays.map ArrayRef.rows, vs.length < 2 ^ 32 := by
  constructor
  · rw [List.map_map]
    conv => lhs; rw [← List.map_id arrays]
    refine List.map_congr_left fun a ha => ?_
    obtain ⟨vs, rfl, -⟩ := h a ha
    rfl
  · intro vs hvs
    obtain ⟨a, ha, rfl⟩ := List.mem_map.1 hvs
    obtain ⟨vs, rfl, hlen⟩ := h a ha
    exact hlen

/-- The recorded chunks of a column hold what its encoder was given. -/
theorem holds_of_recorded (hcodec : o.RoundTrips env ctx) (ht : t.nonNest = true)
    {narrowed : List Nat} (hfit : ∀ v ∈ narrowed, v < 2 ^ 32) {chunks : List Chunk}
    {flushed : List (List ArrayRef)}
    (h : List.Forall₂ (Recorded env o d.r narrowed) chunks flushed)
    (hleaves : FitLeaves t flushed.flatten) (htype : d.primitiveType = .prim t)
    (hctx : d.wasmContext = some ctx) (hchecksum : d.checksumType = none)
    (hchunks : d.chunksMeta = chunks.map Chunk.toFb) :
    d.Holds env (flushed.map fun arrays => arrays.map ArrayRef.toView) := by
  have hchunk : ∀ arrays ∈ flushed, FitLeaves t arrays :=
    fun arrays harrays a ha => hleaves a (List.mem_flatten.2 ⟨arrays, harrays, ha⟩)
  refine ⟨?_, ?_, .prim t.view, ?_⟩
  · rw [htype]
    exact ht
  · rw [hchunks, List.forall₂_map_left_iff, List.forall₂_map_right_iff]
    refine ((List.forall₂_and_left _ _).2 ⟨hchunk, h.flip⟩).flip.imp fun m arrays hm => ?_
    obtain ⟨hleaf, hrecorded⟩ := hm
    obtain ⟨harrays, hrows⟩ := hleaf.eq_map
    rw [harrays] at hrecorded
    have hholds := chunkHolds_of_recorded hcodec ht hfit hrecorded hrows htype hctx hchecksum
    rw [harrays, List.map_map]
    exact hholds
  · intro chunk hmem a ha
    obtain ⟨arrays, harrays, rfl⟩ := List.mem_map.1 hmem
    obtain ⟨a', ha', rfl⟩ := List.mem_map.1 ha
    obtain ⟨vs, rfl, -⟩ := hchunk arrays harrays a' ha'
    exact ⟨rfl, rfl, rfl⟩

/-- `decode_batch` returns what the column holds, array by array. -/
theorem PrimitiveColDecoder.Holds.decodeBatch {contents : List (List ArrayRef)}
    (h : d.Holds env contents) : d.decodeBatch env = .ok contents.flatten := by
  have hall : collect (d.decodeChunk env) d.chunksMeta = .ok contents := by
    refine collect_eq_ok_iff.2 (h.chunks.imp fun c arrays hc => ?_)
    obtain ⟨units, buf, hopen, hunits⟩ := openChunk_ok h.decodable hc
    rw [PrimitiveColDecoder.decodeChunk, hopen, ok_bind]
    exact drain_of_unitsHold hunits
  rw [PrimitiveColDecoder.decodeBatch, hall, ok_bind, pure_eq_ok]

end Columns

/-! ## Row groups -/

/-- What column `i` of a row group decodes to. -/
def decodedColumn (lens : List (Nat × Nat)) (bs : List RecordBatch) (i : Nat) : List ArrayRef :=
  (bs.flatMap fun b => b.arraysOf lens i).map ArrayRef.toView

theorem le_of_mem_unitLengths {lens : List (Nat × Nat)} {numRows i len : Nat}
    (haccepted : ∀ n, lens.lookup i = some n → 0 < n ∧ n ≤ numRows)
    (h : len ∈ unitLengths lens numRows i) : len ≤ numRows := by
  rw [unitLengths] at h
  cases hlen : lens.lookup i with
  | none =>
      rw [hlen] at h
      exact Nat.le_of_eq (List.mem_singleton.1 h)
  | some n =>
      rw [hlen] at h
      rw [List.eq_of_mem_replicate h]
      exact (haccepted n hlen).2

section Groups

variable {env : Env} {schema : List Field} {options : FileWriterOptions} {cs : List Call}
  {w w₁ : FileWriter} {sec : Sections} {p : PostscriptValues}

/-- A finished run of a flat schema without dictionaries in its file: all sizes
fit, the codec is inverted, and the batches match the schema. -/
structure FlatRun (env : Env) (schema : List Field) (options : FileWriterOptions)
    (cs : List Call) (w w₁ : FileWriter) (sec : Sections) (p : PostscriptValues) : Prop where
  finishes : FinishesWith env schema options cs w w₁ sec p
  fits : w.Fits
  flat : flatSchema schema = true
  plain : options.dictionaryType.isPlain = true
  codec : (options.units env).RoundTrips env ((FileReaderV2Builder.new w.file).contextOf sec)
  matching : ∀ b ∈ batches cs, b.Matches schema

namespace FlatRun

theorem written (h : FlatRun env schema options cs w w₁ sec p) :
    FlatWritten env options schema.length w sec (rowGroupsOf options (batches cs)) :=
  h.finishes.flatWritten h.flat h.plain

theorem flatten_rowGroups (options : FileWriterOptions) (bs : List RecordBatch) :
    (rowGroupsOf options bs).flatten = bs := flatten_all_collectGroups _ bs

/-- What is known of the batches of a row group. -/
theorem group (h : FlatRun env schema options cs w w₁ sec p) {bs : List RecordBatch}
    (hbs : bs ∈ rowGroupsOf options (batches cs)) : (∀ b ∈ bs, b.Matches schema) ∧
      (∀ b ∈ bs, b.Accepted options.customEncunitLen) ∧ (∀ b ∈ bs, b.numRows < 2 ^ 32) ∧
        recordedRows bs = (bs.map RecordBatch.numRows).sum := by
  obtain ⟨hcount, hrows⟩ := h.written.counts bs hbs h.fits
  refine ⟨fun b hb => h.matching b ?_, fun b hb => h.written.accepted b ?_, hrows, hcount⟩
  · rw [← flatten_rowGroups options (batches cs)]
    exact List.mem_flatten.2 ⟨bs, hbs, hb⟩
  · exact List.mem_flatten.2 ⟨bs, hbs, hb⟩

/-- The arrays of a column of a row group. -/
theorem leafArrays (h : FlatRun env schema options cs w w₁ sec p) {bs : List RecordBatch}
    (hbs : bs ∈ rowGroupsOf options (batches cs)) {i : Nat} {f : Field}
    (hf : schema[i]? = some f) :
    LeafArrays f (bs.flatMap fun b => b.arraysOf options.customEncunitLen i)
      (bs.flatMap fun b => unitLengths options.customEncunitLen b.numRows i)
      (bs.flatMap fun b => b.keptOf options.customEncunitLen i) := by
  obtain ⟨hmatch, haccepted, -, -⟩ := h.group hbs
  exact leafArrays_of_matches h.flat hf hmatch haccepted

theorem fitLeaves (h : FlatRun env schema options cs w w₁ sec p) {bs : List RecordBatch}
    (hbs : bs ∈ rowGroupsOf options (batches cs)) {i : Nat} {f : Field}
    (hf : schema[i]? = some f) {t : PrimType} (ht : f.dataType = .prim t) :
    FitLeaves t (bs.flatMap fun b => b.arraysOf options.customEncunitLen i) := by
  obtain ⟨hmatch, haccepted, hrows, -⟩ := h.group hbs
  obtain ⟨t', parts, ht', -, harrays, hlengths, -⟩ := h.leafArrays hbs hf
  rw [ht] at ht'
  cases ht'
  intro a ha
  rw [harrays] at ha
  obtain ⟨vs, hvs, rfl⟩ := List.mem_map.1 ha
  refine ⟨vs, rfl, ?_⟩
  have hlen : vs.length ∈ parts.map List.length := List.mem_map_of_mem hvs
  rw [hlengths] at hlen
  obtain ⟨b, hb, hmem⟩ := List.mem_flatMap.1 hlen
  have hi : i < b.columns.length := by
    rw [(hmatch b hb).length_columns]
    exact (List.getElem?_eq_some_iff.1 hf).1
  exact Nat.lt_of_le_of_lt
    (le_of_mem_unitLengths (fun n hn => haccepted b hb i n hi hn) hmem) (hrows b hb)

/-- **A column of a row group holds the arrays of its batches.** -/
theorem column (h : FlatRun env schema options cs w w₁ sec p) {g : RowGroupMetadata}
    {bs : List RecordBatch} (hbs : bs ∈ rowGroupsOf options (batches cs))
    (hg : GroupHolds env (options.units env) schema.length options.customEncunitLen w.file
      w.state.narrowed g bs) {i : Nat} {f : Field} (hf : schema[i]? = some f)
    (cache : SharedDictionaryCache) : ∃ m contents, g.colMetadatas[i]? = some m ∧
      PrimitiveColDecoder.Holds env ⟨w.file, m.columnChunks.map Chunk.toFb, f.dataType,
        some ((FileReaderV2Builder.new w.file).contextOf sec), cache, none⟩ contents ∧
      contents.flatten = decodedColumn options.customEncunitLen bs i := by
  obtain ⟨t, -, htype, ht, -⟩ := h.leafArrays hbs hf
  obtain ⟨m, flushed, hm, hrecorded, hflushed⟩ := hg.2 i (List.getElem?_eq_some_iff.1 hf).1
  have hleaves := h.fitLeaves hbs hf htype
  rw [← hflushed] at hleaves
  refine ⟨m, _, hm, holds_of_recorded h.codec ht h.fits hrecorded hleaves htype rfl rfl rfl, ?_⟩
  rw [decodedColumn, ← hflushed, List.map_flatten]

/-- Reading the dictionaries of a file without any. -/
theorem cache (h : FlatRun env schema options cs w w₁ sec p) (laws : env.SerializationLaws)
    (file : Bytes) (ctx : Option WASMReadingContext) :
    SharedDictionaryCache.tryNewReadAll env file (sec.dictionaryTable env) ctx =
      .ok ⟨[], [], [], []⟩ := by
  obtain ⟨hchunks, hpositions, hdtypes⟩ := h.written.noDictionaries
  have htable : sec.dictionaryTable env = ⟨some [], some [], some (env.ipcSchema.build [])⟩ := by
    rw [Sections.dictionaryTable, hchunks, hpositions, hdtypes]
    rfl
  rw [SharedDictionaryCache.tryNewReadAll, htable]
  simp only [unwrapSome, ok_bind, collect, okOr, laws.ipcSchema [], liftErr, List.zipIdx_nil,
    List.map_nil, pure_eq_ok]

/-- The columns of a row group are decoded one by one: what each decoder that
holds the arrays of its column returns is collected. -/
theorem collect_columns (h : FlatRun env schema options cs w w₁ sec p) {g : RowGroupMetadata}
    {bs : List RecordBatch} (hbs : bs ∈ rowGroupsOf options (batches cs))
    (hg : GroupHolds env (options.units env) schema.length options.customEncunitLen w.file
      w.state.narrowed g bs) (cache : SharedDictionaryCache) (metas : List Fb.ColumnMetadata)
    {selection : Selection} {res : Nat → List ArrayRef}
    (hres : ∀ i d contents, i < schema.length → PrimitiveColDecoder.Holds env d contents →
      contents.flatten = decodedColumn options.customEncunitLen bs i →
        decodeSelected env (.primitive d) selection = .ok (res i)) :
    collect (decodeColumn env ((FileReaderV2Builder.new w.file).decoders sec p cache metas)
        selection) (schema.zip (g.colMetadatas.map ColumnMetadata.toFb)) =
      .ok ((List.range schema.length).map res) := by
  have hlen : (schema.zip (g.colMetadatas.map ColumnMetadata.toFb)).length = schema.length := by
    rw [List.length_zip, List.length_map, hg.1, Nat.min_self]
  refine collect_eq_ok_iff.2 (List.forall₂_iff_get.2 ⟨?_, fun i hi _ => ?_⟩)
  · rw [hlen, List.length_map, List.length_range]
  · have hi' : i < schema.length := hlen ▸ hi
    have hf := List.getElem?_eq_getElem hi'
    obtain ⟨m, contents, hm, hholds, hcontents⟩ := h.column hbs hg hf cache
    have hq : (schema.zip (g.colMetadatas.map ColumnMetadata.toFb))[i]? =
        some (schema[i], m.toFb) :=
      List.getElem?_zip_eq_some.2 ⟨hf, by rw [List.getElem?_map, hm]; rfl⟩
    rw [List.get_eq_getElem, List.get_eq_getElem, (List.getElem?_eq_some_iff.1 hq).2,
      List.getElem_map, List.getElem_range]
    exact hres i _ contents hi' hholds hcontents

/-- A row group is read as a whole. -/
theorem readProjectedGroup_eq (h : FlatRun env schema options cs w w₁ sec p)
    {g : RowGroupMetadata} {bs : List RecordBatch} (hbs : bs ∈ rowGroupsOf options (batches cs))
    (hg : GroupHolds env (options.units env) schema.length options.customEncunitLen w.file
      w.state.narrowed g bs) (cache : SharedDictionaryCache) :
    readProjectedGroup env w sec p cache schema .all g = assembleBatches schema
      ((List.range schema.length).map (decodedColumn options.customEncunitLen bs)) := by
  have hcolumns : collect (decodeColumn env ((FileReaderV2Builder.new w.file).decoders sec p cache [])
      .all) (schema.zip (g.colMetadatas.map ColumnMetadata.toFb)) =
        .ok ((List.range schema.length).map (decodedColumn options.customEncunitLen bs)) :=
    h.collect_columns hbs hg cache [] fun i d contents _ hd hc => by
      rw [decodeSelected, LogicalColDecoder.decodeBatch, hd.decodeBatch, hc]
  rw [readProjectedGroup]
  show (collect _ (schema.zip (g.colMetadatas.map ColumnMetadata.toFb)) >>= _) = _
  rw [hcolumns, ok_bind]

/-- **Reading a flat file.** The row groups are read one after another, and the
batches of each are assembled from the arrays that were encoded. -/
theorem readProjected_flat (h : FlatRun env schema options cs w w₁ sec p)
    (laws : env.SerializationLaws) : readProjected env w .all = (do
      let batches ← collect (fun bs => assembleBatches schema
        ((List.range schema.length).map (decodedColumn options.customEncunitLen bs)))
          (rowGroupsOf options (batches cs))
      pure batches.flatten) := by
  obtain ⟨f, hf⟩ := h.finishes.finished h.fits
  rw [readProjected_eq laws h.finishes hf h.flat (P := .all) trivial, h.cache laws]
  simp only [unwrap, ok_bind]
  congr 1
  refine collect_congr₂ ?_
  have hmem : ∀ bs ∈ rowGroupsOf options (batches cs), bs ∈ rowGroupsOf options (batches cs) :=
    fun _ hbs => hbs
  refine ((List.forall₂_and_left _ _).2 ⟨hmem, h.written.groups.flip⟩).flip.imp fun g bs hgroup => ?_
  exact h.readProjectedGroup_eq hgroup.1 hgroup.2 _

end FlatRun

end Groups

/-! ## Batches -/

/-- Columns of leaf arrays that are cut alike, with one array of each length. -/
structure Aligned (schema : List Field) (cols : Nat → List ArrayRef) (lengths : List Nat) :
    Prop where
  nonempty : schema ≠ []
  leaves : ∀ (i : Nat) (f : Field), schema[i]? = some f →
    ∃ values, LeafArrays f (cols i) lengths values

section Batches

variable {schema : List Field} {cols : Nat → List ArrayRef} {lengths : List Nat}

/-- The array at a position of a column. -/
theorem Aligned.array (h : Aligned schema cols lengths) {i k len : Nat} {f : Field}
    (hf : schema[i]? = some f) (hk : lengths[k]? = some len) : ∃ t vs, f.dataType = .prim t ∧
      (cols i)[k]? = some (.prim t vs) ∧ vs.length = len ∧
        (f.isNullable = false → ∀ v ∈ vs, v.isSome = true) := by
  obtain ⟨values, t, parts, htype, -, harrays, hlengths, -, hnulls⟩ := h.leaves i f hf
  rw [← hlengths, List.getElem?_map] at hk
  obtain ⟨vs, hvs, hlen⟩ := Option.map_eq_some_iff.1 hk
  refine ⟨t, vs, htype, ?_, hlen, fun hf' => hnulls hf' vs (List.mem_of_getElem? hvs)⟩
  rw [harrays, List.getElem?_map, hvs]
  rfl

/-- The field of a decoded leaf column. -/
theorem fieldToView_prim (name : String) (t : PrimType) (nullable : Bool) :
    fieldToView (.mk name (.prim t) nullable) = .mk name (.prim t.view) nullable := by
  cases t <;> rfl

/-- The decoded columns of a row group. -/
def viewed (n : Nat) (cols : Nat → List ArrayRef) : List (List ArrayRef) :=
  (List.range n).map fun i => (cols i).map ArrayRef.toView

/-- The arrays at one position of aligned columns make a batch. -/
theorem Aligned.assembleBatch (h : Aligned schema cols lengths) {k len : Nat}
    (hk : lengths[k]? = some len) : ∃ q, assembleBatch schema (viewed schema.length cols) k =
      .ok q ∧ q.schema = schema.map fieldToView ∧ q.numRows = len ∧
        ∀ i < schema.length, q.columns[i]? = ((cols i)[k]?).map ArrayRef.toView := by
  have hindex : ∀ c ∈ viewed schema.length cols, ∃ a, index c k = .ok a := by
    intro c hc
    obtain ⟨i, hi, rfl⟩ := List.mem_map.1 hc
    obtain ⟨t, vs, -, hvs, -⟩ := h.array (List.getElem?_eq_getElem (List.mem_range.1 hi)) hk
    exact ⟨_, (index_eq_ok _ _ _).2 (by rw [List.getElem?_map, hvs]; rfl)⟩
  obtain ⟨row, hrow⟩ := collect_ok_of_forall hindex
  have hlen : row.length = schema.length := by
    rw [length_of_collect hrow, viewed, List.length_map, List.length_range]
  -- the array of each column, with its type, its length and its nulls
  have hcell : ∀ i f, schema[i]? = some f → ∃ t vs, f.dataType = .prim t ∧
      (cols i)[k]? = some (.prim t vs) ∧ row[i]? = some (.prim t.view vs) ∧ vs.length = len ∧
        (f.isNullable = false → ∀ v ∈ vs, v.isSome = true) := by
    intro i f hf
    obtain ⟨t, vs, htype, hvs, hvlen, hnulls⟩ := h.array hf hk
    have hi : i < schema.length := (List.getElem?_eq_some_iff.1 hf).1
    have hcol : (viewed schema.length cols)[i]? = some ((cols i).map ArrayRef.toView) := by
      rw [viewed, List.getElem?_map, List.getElem?_range hi]
      rfl
    obtain ⟨a, ha, hindexed⟩ := exists_getElem?_of_forall₂ (collect_eq_ok_iff.1 hrow) hcol
    rw [index_eq_ok, List.getElem?_map, hvs] at hindexed
    cases hindexed
    exact ⟨t, vs, htype, hvs, ha, hvlen, hnulls⟩
  have hrowlen : ∀ a ∈ row, a.len = len := by
    intro a ha
    obtain ⟨i, hi⟩ := List.getElem?_of_mem ha
    have hilt : i < schema.length := hlen ▸ (List.getElem?_eq_some_iff.1 hi).1
    obtain ⟨t, vs, -, -, hvs, hvlen, -⟩ := hcell i _ (List.getElem?_eq_getElem hilt)
    rw [hi] at hvs
    cases hvs
    exact hvlen
  have hschema : batchSchema (schema.map Field.label) row = schema.map fieldToView := by
    refine List.ext_getElem? fun i => ?_
    rw [batchSchema, List.getElem?_map, List.getElem?_map]
    cases hf : schema[i]? with
    | none =>
        have hzip : (row.zip (schema.map Field.label))[i]? = none := by
          rw [List.getElem?_eq_none_iff, List.length_zip, List.length_map, hlen, Nat.min_self]
          exact List.getElem?_eq_none_iff.1 hf
        rw [hzip]
        rfl
    | some f =>
        obtain ⟨t, vs, htype, -, hvs, -⟩ := hcell i f hf
        have hzip : (row.zip (schema.map Field.label))[i]? =
            some (.prim t.view vs, f.label) :=
          List.getElem?_zip_eq_some.2 ⟨hvs, by rw [List.getElem?_map, hf]; rfl⟩
        obtain ⟨name, dataType, nullable⟩ := f
        have hprim : dataType = .prim t := htype
        subst hprim
        rw [hzip, Option.map_some, Option.map_some, fieldToView_prim]
        rfl
  have hne : row ≠ [] := by
    intro hnil
    rw [hnil] at hlen
    exact h.nonempty (List.eq_nil_of_length_eq_zero hlen.symm)
  have hrows : (row.head?.map ArrayRef.len).getD 0 = len := by
    cases row with
    | nil => exact absurd rfl hne
    | cons a rest => exact hrowlen a (List.mem_cons_self ..)
  have hvalid : validBatch (schema.map fieldToView) row len = true := by
    simp only [validBatch, Bool.and_eq_true, decide_eq_true_eq, List.all_eq_true, Bool.or_eq_true]
    refine ⟨⟨?_, hrowlen⟩, fun p hp => ?_⟩
    · rw [← hschema, batchSchema, List.map_map]
      have hfst : (row.zip (schema.map Field.label)).map Prod.fst = row :=
        List.map_fst_zip (by rw [List.length_map, hlen])
      conv => rhs; rw [← hfst, List.map_map]
      rfl
    · obtain ⟨i, hi⟩ := List.getElem?_of_mem hp
      obtain ⟨hfield, harray⟩ := List.getElem?_zip_eq_some.1 hi
      rw [List.getElem?_map] at hfield
      obtain ⟨f, hf, hview⟩ := Option.map_eq_some_iff.1 hfield
      obtain ⟨t, vs, htype, -, hvs, -, hnulls⟩ := hcell i f hf
      rw [harray] at hvs
      obtain ⟨name, dataType, nullable⟩ := f
      have hprim : dataType = .prim t := htype
      subst hprim
      rw [fieldToView_prim] at hview
      rw [← hview, Option.some.inj hvs]
      cases hn : nullable with
      | true => exact .inl rfl
      | false =>
          refine .inr (List.count_eq_zero.2 fun hmem => ?_)
          obtain ⟨v, hv, hnone⟩ := List.mem_map.1 hmem
          rw [hnulls hn v hv] at hnone
          cases hnone
  refine ⟨⟨schema.map fieldToView, row, len, hvalid⟩,
    assembleBatch_eq_ok.2 ⟨row, hrow, hne, hschema.symm, rfl, hrows.symm⟩, rfl, rfl, ?_⟩
  intro i hi
  obtain ⟨t, vs, -, hcol, hvs, -⟩ := hcell i _ (List.getElem?_eq_getElem hi)
  rw [hcol]
  exact hvs

/-- The batches have the columns, cut into arrays of these lengths. -/
structure Assembled (schema : List Field) (cols : Nat → List ArrayRef) (lengths : List Nat)
    (qs : List RecordBatch) : Prop where
  numRows : qs.map RecordBatch.numRows = lengths
  fields : ∀ q ∈ qs, q.schema = schema.map fieldToView
  columns : ∀ i < schema.length,
    qs.map (fun q => q.columns[i]?) = ((cols i).map ArrayRef.toView).map some

theorem Assembled.append {cols' : Nat → List ArrayRef} {lengths' : List Nat}
    {qs qs' : List RecordBatch} (h : Assembled schema cols lengths qs)
    (h' : Assembled schema cols' lengths' qs') :
    Assembled schema (fun i => cols i ++ cols' i) (lengths ++ lengths') (qs ++ qs') where
  numRows := by rw [List.map_append, h.numRows, h'.numRows]
  fields := fun q hq => (List.mem_append.1 hq).elim (h.fields q) (h'.fields q)
  columns := by
    intro i hi
    rw [List.map_append, h.columns i hi, h'.columns i hi, List.map_append, List.map_append]

/-- The values of a column of the batches. -/
theorem Assembled.values {qs : List RecordBatch} (h : Assembled schema cols lengths qs) {i : Nat}
    (hi : i < schema.length) :
    (qs.flatMap fun q => q.valuesOf i) = (cols i).flatMap ArrayRef.rows := by
  have hqs : (qs.flatMap fun q => q.valuesOf i) =
      (qs.map fun q => q.columns[i]?).flatMap fun c => (c.map ArrayRef.rows).getD [] := by
    rw [List.flatMap_map]
    rfl
  rw [hqs, h.columns i hi, List.map_map, List.flatMap_map]
  refine List.flatMap_congr fun a _ => ?_
  exact ArrayRef.rows_toView a

/-- **Aligned columns are assembled to batches**, which have the arrays of the
columns in their order. -/
theorem Aligned.assembleBatches (h : Aligned schema cols lengths) : ∃ qs,
    assembleBatches schema (viewed schema.length cols) = .ok qs ∧
      Assembled schema cols lengths qs := by
  have hlen : ∀ i < schema.length, (cols i).length = lengths.length := by
    intro i hi
    obtain ⟨values, t, parts, -, -, harrays, hlengths, -⟩ :=
      h.leaves i _ (List.getElem?_eq_getElem hi)
    rw [harrays, List.length_map, ← hlengths, List.length_map]
  have hpos : 0 < schema.length := List.length_pos_iff.2 h.nonempty
  have hfirst : (viewed schema.length cols)[0]? = some ((cols 0).map ArrayRef.toView) := by
    rw [viewed, List.getElem?_map, List.getElem?_range hpos]
    rfl
  have hall : ∀ k ∈ List.range lengths.length, ∃ q,
      F3Format.assembleBatch schema (viewed schema.length cols) k = .ok q := by
    intro k hk
    obtain ⟨q, hq, -⟩ :=
      h.assembleBatch (List.getElem?_eq_getElem (List.mem_range.1 hk))
    exact ⟨q, hq⟩
  obtain ⟨qs, hqs⟩ := collect_ok_of_forall hall
  have hqlen : qs.length = lengths.length := by
    rw [length_of_collect hqs, List.length_range]
  have hbatch : ∀ k len : Nat, lengths[k]? = some len → ∃ q : RecordBatch, qs[k]? = some q ∧
      q.schema = schema.map fieldToView ∧ q.numRows = len ∧
        ∀ i < schema.length, q.columns[i]? = ((cols i)[k]?).map ArrayRef.toView := by
    intro k len hk
    obtain ⟨q, hq, hschema, hrows, hcolumns⟩ := h.assembleBatch hk
    obtain ⟨q', hq', hassembled⟩ := exists_getElem?_of_forall₂ (collect_eq_ok_iff.1 hqs)
      (List.getElem?_range (List.getElem?_eq_some_iff.1 hk).1)
    rw [hq] at hassembled
    cases hassembled
    exact ⟨q, hq', hschema, hrows, hcolumns⟩
  refine ⟨qs, ?_, ?_, ?_, ?_⟩
  · refine assembleBatches_eq_ok.2 ⟨_, hfirst, ?_⟩
    rw [List.length_map, hlen 0 hpos]
    exact collect_eq_ok_iff.1 hqs
  · refine List.ext_getElem (by rw [List.length_map, hqlen]) fun k _ hk => ?_
    obtain ⟨q, hq, -, hrows, -⟩ := hbatch k _ (List.getElem?_eq_getElem hk)
    rw [List.getElem_map, (List.getElem?_eq_some_iff.1 hq).2, hrows]
  · intro q hq
    obtain ⟨k, hk⟩ := List.getElem?_of_mem hq
    have hklt : k < lengths.length := hqlen ▸ (List.getElem?_eq_some_iff.1 hk).1
    obtain ⟨q', hq', hschema, -⟩ := hbatch k _ (List.getElem?_eq_getElem hklt)
    rw [hk] at hq'
    cases hq'
    exact hschema
  · intro i hi
    refine List.ext_getElem (by
      rw [List.length_map, List.length_map, List.length_map, hqlen, hlen i hi]) fun k hk hk' => ?_
    rw [List.length_map] at hk
    obtain ⟨q, hq, -, -, hcolumns⟩ := hbatch k _ (List.getElem?_eq_getElem (hqlen ▸ hk))
    have hklt : k < (cols i).length := by rwa [List.length_map, List.length_map] at hk'
    rw [List.getElem_map, List.getElem_map, List.getElem_map, (List.getElem?_eq_some_iff.1 hq).2,
      hcolumns i hi, List.getElem?_eq_getElem hklt]
    rfl

end Batches

end F3Format
