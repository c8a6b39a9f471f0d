import F3Format.EncoderRuns
import F3Format.UnitReading
import F3Format.DictionaryIndices
import F3Format.SampleEnv

/-!
# Local dictionaries

`DictColEncoder` writes for each array a unit with its distinct values and a unit
with the indices, narrowed to the smallest type that holds them.
`DictColDecoder` requires the index unit to hold 64-bit indices before it looks
them up in the type that fits the dictionary. The two agree only on arrays with
so many distinct values that the encoder does not narrow their indices.
-/

set_option autoImplicit false

namespace F3Format

open Lib Lib.Cutting PushedUnits ChunkDecoder

/-! ## The units of one array -/

namespace DictColEncoder

variable {env : Env}

theorem dictAndIndices_prim {t : PrimType} (ht : t.dictSupported = true)
    (vs : List (Option Scalar)) :
    dictAndIndices (.prim t vs) =
      .ok (.prim t.arrayType ((extendedBy [] vs).map some),
        .prim (indexDtype (distinctValues vs)) (indicesOf (extendedBy [] vs) vs)) := by
  obtain ⟨-, hdict, hindices⟩ := Dictionary.extend_spec (d := .new) TypedDict.valid_new vs
  have hnew : (TypedDict.new : TypedDict Scalar Scalar).dictionary = [] := rfl
  rw [hnew] at hdict hindices
  have hall : ((TypedDict.new : TypedDict Scalar Scalar).extend vs).1.indices =
      ((TypedDict.new : TypedDict Scalar Scalar).extend vs).2 := rfl
  unfold dictAndIndices
  rw [ArrayRef.dataType_prim, Dictionary.tryNew_prim ht, ok_bind]
  show (Dictionary.extend ⟨t, .new, ht⟩ (.prim t vs) >>= _) = _
  have hextend : Dictionary.extend ⟨t, .new, ht⟩ (.prim t vs) =
      .ok ⟨t, (TypedDict.new.extend vs).1, ht⟩ := if_neg (not_not_intro rfl)
  rw [hextend, ok_bind]
  dsimp only [Dictionary.finish, Dictionary.toArray]
  rw [hdict, hall, hindices, ArrayRef.len_prim, List.length_map, length_extendedBy_nil,
    castIndexDtype_indicesOf (covers_extendedBy [] vs) (length_extendedBy_nil vs).le]
  rfl

/-- The two units an array is encoded to, and what they decode to. -/
structure UnitsOf (env : Env) (ctx : WASMReadingContext) (t : PrimType)
    (vs : List (Option Scalar)) (q : PushedUnits) : Prop where
  dictionary : Decodes env (some ctx) (.prim t) q.first
    (.prim t.decodedDict ((extendedBy [] vs).map some))
  dictRows : q.first.numRows = u32 (distinctValues vs)
  indices : ∃ u, q.rest = [u] ∧ Decodes env (some ctx) (.prim .int64) u
    (.prim (indexDtype (distinctValues vs)) (indicesOf (extendedBy [] vs) vs))

/-- Every array of a supported type can be encoded. -/
theorem item_ok (hv : env.vortex.RoundTrips) (laws : env.CompressionLaws) {c : CompressionType}
    (hc : c.supported = true) {t : PrimType} (ht : t.dictSupported = true)
    (vs : List (Option Scalar)) : ∃ q, item env .empty c (.prim t vs) = .ok q := by
  obtain ⟨dictPayload, hdict, -, -⟩ := unitPayload_native hv false (arrayType_nonNest ht)
    ((extendedBy [] vs).map some)
  obtain ⟨indexPayload, hindex, -, -⟩ := unitPayload_native hv false
    (indexDtype_nonNest (distinctValues vs)) (indicesOf (extendedBy [] vs) vs)
  obtain ⟨dictOut, hdictOut, -⟩ := compressData_ok laws dictPayload hc
  obtain ⟨indexOut, hindexOut, -⟩ := compressData_ok laws indexPayload hc
  unfold item units
  simp only [dictAndIndices_prim ht, ok_bind, hdict, hindex, hdictOut, hindexOut, pure_eq_ok,
    Except.ok.injEq, exists_eq']

/-- What the units of an array decode to, if their sizes fit the size field. -/
theorem unitsOf_item (hv : env.vortex.RoundTrips) (laws : env.CompressionLaws)
    {ctx : WASMReadingContext} (hctx : ctx.Native) {c : CompressionType} {t : PrimType}
    (ht : t.dictSupported = true) {vs : List (Option Scalar)} {q : PushedUnits}
    (hq : item env .empty c (.prim t vs) = .ok q)
    (hfit : ∀ u ∈ q.units, u.bytes.length < 2 ^ 32) : UnitsOf env ctx t vs q := by
  unfold item units at hq
  rw [dictAndIndices_prim ht] at hq
  simp only [ok_bind, bind_eq_ok, pure_eq_ok, Except.ok.injEq] at hq
  obtain ⟨r, ⟨dictPayload, hdict, indexPayload, hindex, dictOut, hdictOut, indexOut, hindexOut,
    rfl⟩, rfl⟩ := hq
  have hdictFit := hfit _ (List.mem_cons_self)
  have hindexFit := hfit _ (List.mem_cons_of_mem _ (List.mem_cons_self))
  refine ⟨?_, ?_, _, rfl, ?_⟩
  · exact decodes_of_native hv laws hctx (arrayType_nonNest ht) hdict hdictOut rfl hdictFit
      (dictSupported_nonNest ht)
  · show u32 ((extendedBy [] vs).map some).length = _
    rw [List.length_map, length_extendedBy_nil]
  · have hview : (ArrayRef.prim (indexDtype (distinctValues vs))
        (indicesOf (extendedBy [] vs) vs)).toView =
          .prim (indexDtype (distinctValues vs)) (indicesOf (extendedBy [] vs) vs) := by
      rw [ArrayRef.toView, indexDtype_view]
    rw [← hview]
    exact decodes_of_native hv laws hctx (indexDtype_nonNest (distinctValues vs)) hindex hindexOut
      rfl hindexFit rfl

end DictColEncoder

/-! ## Decoding a chunk -/

/-- The arrays whose indices the decoder accepts: they are not narrowed, and the
recorded length of the dictionary is not zero. -/
def Wide (vs : List (Option Scalar)) : Prop :=
  2 ^ 32 ≤ distinctValues vs ∧ distinctValues vs % 2 ^ 32 ≠ 0

/-- The lookup of the indices of an array succeeds exactly for a wide one. -/
theorem dictOfIndices_spec {t : PrimType} (ht : t.dictSupported = true)
    (vs : List (Option Scalar)) :
    let dict := if u32 (distinctValues vs) > 0
      then .prim t.decodedDict ((extendedBy [] vs).map some) else placeholderArray
    let indices := .prim (indexDtype (distinctValues vs)) (indicesOf (extendedBy [] vs) vs)
    (Wide vs → dictOfIndices dict indices = .ok (.prim t.decodedDict vs)) ∧
      (¬ Wide vs → ∃ f, dictOfIndices dict indices = .error f) := by
  intro dict indices
  constructor
  · rintro ⟨hmany, hmod⟩
    have htype : indexDtype (distinctValues vs) = .uint64 := (indexDtype_eq_uint64 _).2 hmany
    have hrows : u32 (distinctValues vs) > 0 := Nat.pos_of_ne_zero hmod
    have hdict : dict = .prim t.decodedDict ((extendedBy [] vs).map some) := if_pos hrows
    have hlookup := dictIndexToData_indicesOf ht (covers_extendedBy [] vs)
    rw [length_extendedBy_nil] at hlookup
    rw [dictOfIndices, if_neg, hdict]
    · exact hlookup
    · show ¬ DataType.prim (indexDtype (distinctValues vs)) ≠ .prim .uint64
      rw [htype]
      exact not_not_intro rfl
  · intro hwide
    by_cases hmany : 2 ^ 32 ≤ distinctValues vs
    · -- the length is a multiple of 2 ^ 32, so a placeholder stands for the dictionary
      have htype : indexDtype (distinctValues vs) = .uint64 := (indexDtype_eq_uint64 _).2 hmany
      have hrows : ¬ u32 (distinctValues vs) > 0 := by
        intro hpos
        exact hwide ⟨hmany, Nat.pos_iff_ne_zero.1 hpos⟩
      have hdict : dict = placeholderArray := if_neg hrows
      refine ⟨.err (.general "Incorrect type of indices"), ?_⟩
      show dictOfIndices dict (.prim (indexDtype (distinctValues vs)) _) = _
      rw [hdict, htype]
      rfl
    · refine ⟨.err (.general "Incorrect type of indices"), ?_⟩
      rw [dictOfIndices, if_pos]
      · rfl
      · intro htype
        have hprim : indexDtype (distinctValues vs) = .uint64 := DataType.prim.inj htype
        exact hmany ((indexDtype_eq_uint64 _).1 hprim)

section Decode

variable {env : Env} {ctx : WASMReadingContext} {t : PrimType}

/-- The decoder of a chunk at the first of these units. -/
def dictDecoder (ctx : WASMReadingContext) (t : PrimType) (us : List SerializedEncUnit) :
    ChunkDecoder := .dict ⟨unitMetas us, unitBytes us, some ctx⟩ (.prim t)

/-- One round of the decoder on the units of an array. -/
theorem decodeBatch_units_of (ht : t.dictSupported = true) {vs : List (Option Scalar)}
    {q : PushedUnits} (hq : DictColEncoder.UnitsOf env ctx t vs q) (us : List SerializedEncUnit) :
    (Wide vs → decodeBatch env (dictDecoder ctx t (q.units ++ us)) =
        .ok (some (.prim t.decodedDict vs), dictDecoder ctx t us)) ∧
      (¬ Wide vs → ∃ f, decodeBatch env (dictDecoder ctx t (q.units ++ us)) = .error f) := by
  obtain ⟨first, rest, rows⟩ := q
  obtain ⟨⟨dictUnit, hdictDecode, hdictSplit⟩, hrows, u, hrest, indexUnit, hindexDecode,
    hindexSplit⟩ := hq
  have hrest' : rest = [u] := hrest
  subst hrest'
  obtain ⟨hok, herr⟩ := dictOfIndices_spec ht vs
  have hrun : decodeBatch env (dictDecoder ctx t (first :: u :: us)) =
      (dictOfIndices (if u32 (distinctValues vs) > 0
          then .prim t.decodedDict ((extendedBy [] vs).map some) else placeholderArray)
        (.prim (indexDtype (distinctValues vs)) (indicesOf (extendedBy [] vs) vs)) >>= fun a =>
          .ok (some a, dictDecoder ctx t us)) := by
    have hdict : dictOfUnit env first.recorded.toFb dictUnit =
        .ok (if u32 (distinctValues vs) > 0
          then .prim t.decodedDict ((extendedBy [] vs).map some) else placeholderArray) := by
      unfold dictOfUnit
      rw [show first.recorded.toFb.numRows = u32 (distinctValues vs) from hrows]
      split
      · exact hdictDecode
      · rfl
    rw [dictDecoder, decodeBatch, decodeDict]
    simp only [unitMetas_cons, unitBytes_cons, hdictSplit, ok_bind, hdict, hindexSplit,
      hindexDecode, pure_eq_ok]
    rfl
  show (Wide vs → decodeBatch env (dictDecoder ctx t (first :: u :: us)) = _) ∧
    (_ → ∃ f, decodeBatch env (dictDecoder ctx t (first :: u :: us)) = .error f)
  rw [hrun]
  constructor
  · intro hwide
    rw [hok hwide, ok_bind]
  · intro hwide
    obtain ⟨f, hf⟩ := herr hwide
    exact ⟨f, by rw [hf, error_bind]⟩

/-- A chunk is drained to the arrays whose units it holds, if they are wide. -/
theorem drain_dict_of_wide (ht : t.dictSupported = true) {vss : List (List (Option Scalar))}
    {qs : List PushedUnits} (h : List.Forall₂ (DictColEncoder.UnitsOf env ctx t) vss qs)
    (hwide : ∀ vs ∈ vss, Wide vs) :
    drain env (dictDecoder ctx t (qs.map PushedUnits.units).flatten) =
      .ok (vss.map fun vs => .prim t.decodedDict vs) := by
  induction h with
  | nil => exact drain_none env rfl
  | @cons vs q vss qs hq _ ih =>
      have hstep := (decodeBatch_units_of ht hq (qs.map PushedUnits.units).flatten).1 (hwide vs (by simp))
      rw [List.map_cons, List.flatten_cons, drain_step env hstep,
        ih fun ws hws => hwide ws (by simp [hws]), ok_bind]
      rfl

/-- Draining fails at the first array that is not wide. -/
theorem wide_of_drain_dict (ht : t.dictSupported = true) {vss : List (List (Option Scalar))}
    {qs : List PushedUnits} (h : List.Forall₂ (DictColEncoder.UnitsOf env ctx t) vss qs) :
    ∀ arrs, drain env (dictDecoder ctx t (qs.map PushedUnits.units).flatten) = .ok arrs →
      ∀ vs ∈ vss, Wide vs := by
  induction h with
  | nil =>
      intro _ _ vs hvs
      cases hvs
  | @cons vs q vss qs hq _ ih =>
      intro arrs hdrain
      rw [List.map_cons, List.flatten_cons] at hdrain
      obtain ⟨hok, herr⟩ := decodeBatch_units_of ht hq (qs.map PushedUnits.units).flatten
      by_cases hwide : Wide vs
      · rw [drain_step env (hok hwide), bind_eq_ok] at hdrain
        obtain ⟨rest, hrest, -⟩ := hdrain
        intro ws hws
        rcases List.mem_cons.1 hws with rfl | hws
        · exact hwide
        · exact ih rest hrest ws hws
      · obtain ⟨f, hf⟩ := herr hwide
        rw [drain_error env hf] at hdrain
        cases hdrain

end Decode

/-! ## Round trip -/

/-- A column is encoded as one row group by a new `DictColEncoder`, all calls
succeed, and the decoders of the chunks return one array per written array, in
order, with its rows, and then `None`. -/
def LocalRoundTrip (env : Env) (ctx : WASMReadingContext) (c : CompressionType) (t : PrimType)
    (columnChunkSize : Nat) (o : Shared) (columns : List (List (Option Scalar))) : Prop :=
  ∃ (chunks : List (List EncodedColumnChunk)) (decoded : List (List ArrayRef)),
    (Act.trace (DictColEncoder.colEncoder env columnChunkSize .empty c).call
      (session (columns.map (ArrayRef.prim t)))
      (o.embed fun _ => .new columnChunkSize .empty c)).1 = chunks.map .ok ∧
    List.Forall₂ (fun chunk arrs => drain env (dictDecoder ctx t chunk.encunits) = .ok arrs)
      chunks.flatten decoded ∧
    decoded.flatten.map ArrayRef.rows = columns

section RoundTrip

variable {env : Env}

/-- The chunks of a column hold the units of its arrays, in order. -/
theorem emitted_units (hv : env.vortex.RoundTrips) (laws : env.CompressionLaws)
    {ctx : WASMReadingContext} (hctx : ctx.Native) {c : CompressionType}
    (hc : c.supported = true) {t : PrimType} (ht : t.dictSupported = true)
    (columnChunkSize : Nat) (o : Shared) (columns : List (List (Option Scalar)))
    (hfit : ∀ vs ∈ columns, ∀ q, DictColEncoder.item env .empty c (.prim t vs) = .ok q →
      ∀ u ∈ q.units, u.bytes.length < 2 ^ 32) :
    ∃ (groups : List (List (DictionaryEncoding × List PushedUnits))),
      (Act.trace (DictColEncoder.colEncoder env columnChunkSize .empty c).call
        (session (columns.map (ArrayRef.prim t)))
        (o.embed fun _ => .new columnChunkSize .empty c)).1 =
          (groups.map (List.map chunkOf)).map .ok ∧
      List.Forall₂ (DictColEncoder.UnitsOf env ctx t) columns (contents groups.flatten) := by
  let B := DictColEncoder.buffered env columnChunkSize .empty c
  choose item hitem using fun vs => DictColEncoder.item_ok hv laws hc ht vs
  have hitems : List.Forall₂ (fun a q => sized B.item a = .ok q) (columns.map (ArrayRef.prim t))
      (columns.map fun vs => (item vs, (item vs).size)) := by
    rw [List.forall₂_map_left_iff, List.forall₂_map_right_iff, List.forall₂_same]
    intro vs _
    exact sized_of_ok (hitem vs)
  obtain ⟨groups, htrace, hcontents⟩ := trace_session B.policy hitems (Cutting.fresh B.policy)
  refine ⟨groups, ?_, ?_⟩
  · have h := (B.trace_eq (session (columns.map (ArrayRef.prim t)))
      (s := o.embed fun _ => .new columnChunkSize .empty c) B.fresh_eq).1
    rw [h, htrace, List.map_map, List.map_map]
    rfl
  · have hfirst : contents groups.flatten = columns.map item := by
      rw [hcontents, List.map_map]
      rfl
    rw [hfirst, List.forall₂_map_right_iff, List.forall₂_same]
    intro vs hvs
    exact DictColEncoder.unitsOf_item hv laws hctx ht (hitem vs) (hfit vs hvs _ (hitem vs))

/-- Chunk by chunk, wide arrays come back. -/
theorem drain_groups_of_wide {ctx : WASMReadingContext} {t : PrimType}
    (ht : t.dictSupported = true) :
    ∀ (groups : List (DictionaryEncoding × List PushedUnits))
      (columns : List (List (Option Scalar))),
      List.Forall₂ (DictColEncoder.UnitsOf env ctx t) columns (contents groups) →
      (∀ vs ∈ columns, Wide vs) →
      ∃ decoded : List (List ArrayRef),
        List.Forall₂ (fun chunk arrs => drain env (dictDecoder ctx t chunk.encunits) = .ok arrs)
          (groups.map chunkOf) decoded ∧ decoded.flatten.map ArrayRef.rows = columns
  | [], columns, h, _ => by
      cases h
      exact ⟨[], .nil, rfl⟩
  | g :: groups, columns, h, hwide => by
      have hsplit : contents (g :: groups) = g.2 ++ contents groups := rfl
      rw [hsplit] at h
      -- the arrays of the first chunk, and those of the others
      obtain ⟨decoded, hdecoded, hrows⟩ := drain_groups_of_wide ht groups _
        (List.forall₂_drop_append columns g.2 _ h) fun vs hvs => hwide vs (List.mem_of_mem_drop hvs)
      have hdrain := drain_dict_of_wide ht (List.forall₂_take_append columns g.2 _ h)
        fun vs hvs => hwide vs (List.mem_of_mem_take hvs)
      refine ⟨_ :: decoded, .cons hdrain hdecoded, ?_⟩
      have hmine : (columns.take g.2.length).map (fun vs => (ArrayRef.prim t.decodedDict vs).rows) =
          columns.take g.2.length := List.map_id _
      rw [List.flatten_cons, List.map_append, hrows, List.map_map]
      show (columns.take g.2.length).map (fun vs => (ArrayRef.prim t.decodedDict vs).rows) ++ _ = _
      rw [hmine, List.take_append_drop]

/-- If every chunk comes back, every array is wide. -/
theorem wide_of_drain_groups {ctx : WASMReadingContext} {t : PrimType}
    (ht : t.dictSupported = true) :
    ∀ (groups : List (DictionaryEncoding × List PushedUnits))
      (columns : List (List (Option Scalar))) (decoded : List (List ArrayRef)),
      List.Forall₂ (DictColEncoder.UnitsOf env ctx t) columns (contents groups) →
      List.Forall₂ (fun chunk arrs => drain env (dictDecoder ctx t chunk.encunits) = .ok arrs)
        (groups.map chunkOf) decoded →
      ∀ vs ∈ columns, Wide vs
  | [], columns, _, h, _ => by
      cases h
      intro vs hvs
      cases hvs
  | g :: groups, columns, decoded, h, hdecoded => by
      have hsplit : contents (g :: groups) = g.2 ++ contents groups := rfl
      rw [hsplit] at h
      cases hdecoded with
      | cons hdrain hrest =>
          intro vs hvs
          rw [← List.take_append_drop g.2.length columns, List.mem_append] at hvs
          rcases hvs with hvs | hvs
          · exact wide_of_drain_dict ht (List.forall₂_take_append columns g.2 _ h) _ hdrain vs hvs
          · exact wide_of_drain_groups ht groups _ _ (List.forall₂_drop_append columns g.2 _ h)
              hrest vs hvs

/-- A column that comes back has only wide arrays. -/
theorem wide_of_localRoundTrip (hv : env.vortex.RoundTrips) (laws : env.CompressionLaws)
    {ctx : WASMReadingContext} (hctx : ctx.Native) {c : CompressionType}
    (hc : c.supported = true) {t : PrimType} (ht : t.dictSupported = true)
    {columnChunkSize : Nat} {o : Shared} {columns : List (List (Option Scalar))}
    (hfit : ∀ vs ∈ columns, ∀ q, DictColEncoder.item env .empty c (.prim t vs) = .ok q →
      ∀ u ∈ q.units, u.bytes.length < 2 ^ 32)
    (h : LocalRoundTrip env ctx c t columnChunkSize o columns) : ∀ vs ∈ columns, Wide vs := by
  obtain ⟨groups, htrace, hunits⟩ := emitted_units hv laws hctx hc ht columnChunkSize o columns hfit
  obtain ⟨chunks, decoded, htrace', hdecoded, -⟩ := h
  rw [htrace] at htrace'
  have hchunks : groups.map (List.map chunkOf) = chunks :=
    List.map_injective_iff.2 (fun a b h => Except.ok.inj h) htrace'
  rw [← hchunks, List.map_flatten.symm] at hdecoded
  exact wide_of_drain_groups ht groups.flatten columns decoded hunits hdecoded

/-- Local dictionaries round-trip exactly for columns all of whose arrays have
at least `2 ^ 32` distinct values, in a number that is no multiple of `2 ^ 32`. -/
theorem local_round_trip_iff (hv : env.vortex.RoundTrips) (laws : env.CompressionLaws)
    {ctx : WASMReadingContext} (hctx : ctx.Native) {c : CompressionType}
    (hc : c.supported = true) {t : PrimType} (ht : t.dictSupported = true)
    (columnChunkSize : Nat) (o : Shared) (columns : List (List (Option Scalar)))
    (hfit : ∀ vs ∈ columns, ∀ q, DictColEncoder.item env .empty c (.prim t vs) = .ok q →
      ∀ u ∈ q.units, u.bytes.length < 2 ^ 32) :
    LocalRoundTrip env ctx c t columnChunkSize o columns ↔
      ∀ vs ∈ columns, 2 ^ 32 ≤ distinctValues vs ∧ distinctValues vs % 2 ^ 32 ≠ 0 := by
  constructor
  · intro h
    exact wide_of_localRoundTrip hv laws hctx hc ht hfit h
  · intro hwide
    obtain ⟨groups, htrace, hunits⟩ :=
      emitted_units hv laws hctx hc ht columnChunkSize o columns hfit
    obtain ⟨decoded, hdecoded, hrows⟩ := drain_groups_of_wide ht groups.flatten columns hunits hwide
    rw [List.map_flatten] at hdecoded
    exact ⟨_, decoded, htrace, hdecoded, hrows⟩

end RoundTrip

/-- A reading context of a file written with the decoders of the reader. -/
def Sample.context : WASMReadingContext := ⟨none, none, none, some defaultEncodingVersions⟩

theorem Sample.native : Sample.context.Native := ⟨_, _, _, rfl, rfl, rfl, rfl⟩

/-- The two units of an array of one number are small. -/
theorem Sample.seven_fits : ∀ vs ∈ [[some (Scalar.int 7)]], ∀ q,
    DictColEncoder.item Sample.env .empty .uncompressed (.prim .int32 vs) = .ok q →
      ∀ u ∈ q.units, u.bytes.length < 2 ^ 32 := by
  intro vs hvs q hq
  rw [List.mem_singleton] at hvs
  subst hvs
  have hall : (match DictColEncoder.item Sample.env .empty .uncompressed Sample.seven with
      | .ok q => q.units.all fun u => decide (u.bytes.length < 2 ^ 32)
      | .error _ => true) = true := by decide
  rw [show DictColEncoder.item Sample.env .empty .uncompressed Sample.seven = .ok q from hq] at hall
  simpa using hall

theorem local_round_trip_iff_seven :
    LocalRoundTrip Sample.env Sample.context .uncompressed .int32 1000 Sample.shared
        [[some (.int 7)]] ↔
      ∀ vs ∈ [[some (Scalar.int 7)]],
        2 ^ 32 ≤ distinctValues vs ∧ distinctValues vs % 2 ^ 32 ≠ 0 :=
  local_round_trip_iff Sample.roundTrips Sample.compressionLaws Sample.native rfl rfl 1000
    Sample.shared [[some (.int 7)]] Sample.seven_fits

/-- A column with one array of one number does not come back: its index unit
holds bytes, and the decoder asks for 64-bit indices. -/
theorem seven_not_localRoundTrip :
    ¬ LocalRoundTrip Sample.env Sample.context .uncompressed .int32 1000 Sample.shared
      [[some (.int 7)]] := by
  intro h
  have hwide := wide_of_localRoundTrip Sample.roundTrips Sample.compressionLaws Sample.native rfl
    rfl Sample.seven_fits h _ (List.mem_singleton_self _)
  have hone : distinctValues [some (Scalar.int 7)] = 1 := by decide
  have hmany := hwide.1
  rw [hone] at hmany
  omega

end F3Format
