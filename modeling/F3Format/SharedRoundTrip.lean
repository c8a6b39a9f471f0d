import F3Format.ColumnJournal
import F3Format.FlatRoundTrip
import F3Format.IndexDecoding

/-!
# Columns with shared dictionaries are read back

Indices are written long before their dictionary is: its id is handed out by a
context that all columns and row groups share, and the type of the indices is
chosen when a scope is closed. The journal of the columns says which arrays the
chunks of a column hold, and the table of the file gives every dictionary back.
Together: whatever the scopes are and whichever chunks `GLBestEncoder` prefers, a
reader gets the rows that were written (`shared_round_trip`).

`merge_dicts` may change the order of the values of a dictionary after indices into
it were flushed. Then the values of a column come back renamed, one to one, by a
permutation of the dictionary (`merged_round_trip`).
-/

set_option autoImplicit false

namespace F3Format

open Lib FileWriter

/-! ## Without sharing between columns nothing is merged -/

theorem SharedDictionaryContext.keptByCalls_isMultiColSharing (m : Bool) :
    PhysicalColEncoder.KeptByCalls fun ctx => ctx.isMultiColSharing = m where
  newDictionary := by
    intro ctx dtype r hctx h
    simp only [newDictionary, bind_eq_ok, pure_eq_ok, Except.ok.injEq] at h
    obtain ⟨d, -, rfl⟩ := h
    exact hctx
  extendAndGetIndex := by
    intro ctx idx arr r hctx h
    simp only [extendAndGetIndex, bind_eq_ok, pure_eq_ok, Except.ok.injEq] at h
    obtain ⟨d, -, r', -, rfl⟩ := h
    exact hctx
  submitValues := by
    intro ctx ctx' idx arr hctx h
    simp only [submitValues, bind_eq_ok, pure_eq_ok, Except.ok.injEq] at h
    obtain ⟨d, -, d', -, rfl⟩ := h
    exact hctx
  snoc := fun hctx _ => hctx

section Unmerged

variable {env : Env} {P : CallEvent → Prop} {a b : Point}

/-- Whether columns share dictionaries is decided by the options, once. -/
theorem Step.isMultiColSharing_eq (h : Step env P a b) :
    b.ctx.isMultiColSharing = a.ctx.isMultiColSharing := by
  cases h with
  | call e hruns _ _ =>
      exact hruns.method.context (SharedDictionaryContext.keptByCalls_isMultiColSharing _)
        hruns.encoder hruns.returns rfl
  | submitDict _ _ hrun =>
      exact PhysicalColEncoder.submitDict_context
        (SharedDictionaryContext.keptByCalls_isMultiColSharing _) hrun rfl
  | mergeDicts _ hrun =>
      simp only [SharedDictionaryContext.mergeDicts, bind_eq_ok, pure_eq_ok,
        Except.ok.injEq] at hrun
      obtain ⟨s, -, rfl⟩ := hrun
      rfl
  | flushChunk _ => rfl
  | addRows _ => rfl
  | finishRowGroup => rfl

theorem Steps.isMultiColSharing_eq (h : Steps env P a b) :
    b.ctx.isMultiColSharing = a.ctx.isMultiColSharing := by
  induction h with
  | refl => rfl
  | tail _ hstep ih => exact hstep.isMultiColSharing_eq.trans ih

variable {schema : List Field} {options : FileWriterOptions} {cs : List Call}
  {w w₁ : FileWriter} {sec : Sections} {p : PostscriptValues}

/-- `finish` merges dictionaries only if columns share them. -/
theorem FileWriter.FinishesWith.unmerged (h : FinishesWith env schema options cs w w₁ sec p)
    (hmulti : options.dictionaryType.isMultiColSharing = false) :
    w₁.sharedDictionaryContext.mergeResult = [] := by
  obtain ⟨wend, ⟨w₀, hnew, hcalls⟩, hgroups⟩ := h.rowGroups
  obtain ⟨hsteps, hunmerged⟩ :=
    (goes_forEach (fun c => goes_call c) cs) w₀ () wend (unmerged_tryNew hnew) hcalls
  have hend : wend.sharedDictionaryContext.isMultiColSharing = false := by
    have hstart : w₀.sharedDictionaryContext.isMultiColSharing = false := by
      rw [(tryNew_point hnew).2]
      exact hmulti
    exact hsteps.isMultiColSharing_eq.trans hstart
  obtain ⟨_, w₂, hmerge, hrest⟩ := (Act.returns_bind _ _ _ _ _).1 hgroups
  obtain ⟨_, w₃, hflush, hlast⟩ := (Act.returns_bind _ _ _ _ _).1 hrest
  obtain ⟨v, w₄, hget, hbranch⟩ := (Act.returns_bind _ _ _ _ _).1 hmerge
  obtain ⟨rfl, rfl⟩ := (Act.returns_get _ _ _).1 hget
  rw [hend] at hbranch
  obtain ⟨-, rfl⟩ := (Act.returns_pure _ _ _ _).1 hbranch
  obtain ⟨-, hunmerged₃⟩ := goes_flushPendingChunks _ () w₃ hunmerged hflush
  obtain ⟨s, hs, rfl⟩ := returns_onState hlast
  exact hunmerged₃.mergeResult

/-- No dictionary was matched with another one. -/
def SharedDictionaryContext.Unmatched (ctx : SharedDictionaryContext) : Prop :=
  ∀ i : Nat, (ctx.mergeResult[i]?).join = none

/-- What is known of a dictionary: it has the same values as the one that goes by its
id, in the same order if none were matched. -/
theorem Point.Knows.named {p : Point} {i : Nat} {d : Dictionary} (h : p.Knows i d) :
    ∃ d', p.ctx.Names i d' ∧ d'.datatype = d.datatype ∧ d'.values.Perm d.values ∧
      (p.ctx.Unmatched → d'.values = d.values) := by
  rcases h.names with hd | ⟨peer, l, d', hres, hd', htype, hperm⟩
  · exact ⟨d, hd, rfl, .refl _, fun _ => rfl⟩
  · refine ⟨d', hd', htype, hperm, fun hunmatched => ?_⟩
    rw [hunmatched i] at hres
    cases hres

end Unmerged

/-! ## Dictionaries in another order -/

/-- The value at the place of `v` in the other dictionary; values that are in none stay. -/
def relabel (dict dict' : List Scalar) (v : Scalar) : Scalar := (dict'[dict.idxOf v]?).getD v

section Relabel

variable {dict dict' : List Scalar}

theorem relabel_of_mem (hperm : dict'.Perm dict) {v : Scalar} (hv : v ∈ dict) :
    dict'[dict.idxOf v]? = some (relabel dict dict' v) := by
  have hlt : dict.idxOf v < dict'.length := hperm.length_eq ▸ List.idxOf_lt_length_of_mem hv
  rw [relabel, List.getElem?_eq_getElem hlt]
  rfl

theorem relabel_of_not_mem (hperm : dict'.Perm dict) {v : Scalar} (hv : v ∉ dict) :
    relabel dict dict' v = v := by
  have hnone : dict'[dict.idxOf v]? = none := by
    rw [List.idxOf_eq_length hv, ← hperm.length_eq]
    exact List.getElem?_eq_none (Nat.le_refl _)
  rw [relabel, hnone]
  rfl

theorem relabel_self : relabel dict dict = id := by
  funext v
  by_cases hv : v ∈ dict
  · have hget := relabel_of_mem (.refl dict) hv
    rw [List.getElem?_eq_getElem (List.idxOf_lt_length_of_mem hv), List.getElem_idxOf] at hget
    exact (Option.some.inj hget).symm
  · exact relabel_of_not_mem (.refl dict) hv

/-- Different values are renamed to different ones. -/
theorem relabel_injective (hperm : dict'.Perm dict) (hnodup : dict'.Nodup) :
    Function.Injective (relabel dict dict') := by
  have hin : ∀ v, v ∈ dict → relabel dict dict' v ∈ dict := fun v hv =>
    hperm.mem_iff.1 (List.mem_of_getElem? (relabel_of_mem hperm hv))
  intro v v' h
  by_cases hv : v ∈ dict
  · by_cases hv' : v' ∈ dict
    · -- one place in the other dictionary, so one place in this one
      have hget := relabel_of_mem hperm hv
      rw [h, ← relabel_of_mem hperm hv'] at hget
      have hidx := (List.getElem?_inj (hperm.length_eq ▸ List.idxOf_lt_length_of_mem hv)
        hnodup).1 hget
      have hlt := List.idxOf_lt_length_of_mem hv
      have hlt' := List.idxOf_lt_length_of_mem hv'
      calc v = dict[dict.idxOf v] := (List.getElem_idxOf hlt).symm
        _ = dict[dict.idxOf v'] := by simp only [hidx]
        _ = v' := List.getElem_idxOf hlt'
    · rw [relabel_of_not_mem hperm hv'] at h
      exact absurd (h ▸ hin v hv) hv'
  · by_cases hv' : v' ∈ dict
    · rw [relabel_of_not_mem hperm hv] at h
      exact absurd (h ▸ hin v' hv') hv
    · rwa [relabel_of_not_mem hperm hv, relabel_of_not_mem hperm hv'] at h

/-- The indices of a column are those of the renamed column in the other dictionary. -/
theorem indicesOf_relabel (hperm : dict'.Perm dict) (hnodup : dict'.Nodup)
    {vs : List (Option Scalar)} (h : Covers dict vs) :
    indicesOf dict' (vs.map (Option.map (relabel dict dict'))) = indicesOf dict vs := by
  rw [indicesOf, indicesOf, List.map_map]
  refine List.map_congr_left fun o ho => ?_
  cases o with
  | none => rfl
  | some v =>
      have hget := relabel_of_mem hperm (h v ho)
      obtain ⟨hlt, hval⟩ := List.getElem?_eq_some_iff.1 hget
      show some (indexScalar (dict'.idxOf (relabel dict dict' v))) = _
      rw [← hval, hnodup.idxOf_getElem]
      rfl

theorem covers_relabel (hperm : dict'.Perm dict) {vs : List (Option Scalar)}
    (h : Covers dict vs) : Covers dict' (vs.map (Option.map (relabel dict dict'))) := by
  intro v hv
  obtain ⟨o, ho, hmap⟩ := List.mem_map.1 hv
  obtain ⟨x, rfl, rfl⟩ := Option.map_eq_some_iff.1 hmap
  exact List.mem_of_getElem? (relabel_of_mem hperm (h x ho))

end Relabel

/-! ## Chunks -/

/-- `σ` renames values one to one; it is the identity if values are read as they are. -/
structure Renames (exact : Prop) (σ : Scalar → Scalar) : Prop where
  injective : Function.Injective σ
  identity : exact → σ = id

/-- `out` has the rows of the leaf array `a`, renamed. Its type may be another one:
strings are read as views, and nulls without a dictionary as `Int32`. -/
def ArrayRef.ReadsAs (exact : Prop) (a out : ArrayRef) : Prop :=
  ∃ t t' vs σ, a = .prim t vs ∧ out = .prim t' (vs.map (Option.map σ)) ∧ Renames exact σ

/-- The dictionary of indices and the one they are looked up in. -/
structure LooksUp (exact : Prop) (d d' : Dictionary) : Prop where
  datatype : d'.datatype = d.datatype
  perm : d'.values.Perm d.values
  nodup : d'.values.Nodup
  exact : exact → d'.values = d.values

theorem LooksUp.renames {exact : Prop} {d d' : Dictionary} (h : LooksUp exact d d') :
    Renames exact (relabel d.values d'.values) where
  injective := relabel_injective h.perm h.nodup
  identity := fun hexact => by rw [h.exact hexact, relabel_self]

/-- What is done with each element of a list gives what is related to it. -/
theorem collect_of_forall₂ {α β γ : Type} {f : α → Result γ} {r : β → γ → Prop} {xs : List α}
    {ys : List β} (h : List.Forall₂ (fun x y => ∃ z, f x = .ok z ∧ r y z) xs ys) :
    ∃ zs, collect f xs = .ok zs ∧ List.Forall₂ r ys zs := by
  induction h with
  | nil => exact ⟨[], rfl, .nil⟩
  | cons hxy _ ih =>
      obtain ⟨z, hz, hr⟩ := hxy
      obtain ⟨zs, hzs, hrest⟩ := ih
      exact ⟨z :: zs, collect_cons_eq_ok.2 ⟨z, zs, hz, hzs, rfl⟩, .cons hr hrest⟩

section Chunks

variable {env : Env} {ctx : WASMReadingContext} {exact : Prop}

/-- Indices are decoded as they were written, although the decoder is told `Int64`. -/
theorem decodes_indices (hv : env.vortex.RoundTrips) (laws : env.CompressionLaws)
    (hctx : ctx.Native) {compressionType : CompressionType} {d : Dictionary}
    {vs : List (Option Scalar)} {u : SerializedEncUnit}
    (hunit : UnitOptions.unit env ⟨.empty, false, compressionType⟩
      (.prim (indexDtype d.values.length) (indicesOf d.values vs)) = .ok u)
    (hfit : u.bytes.length < 2 ^ 32) :
    Decodes env (some ctx) (.prim .int64) u
      (.prim (indexDtype d.values.length) (indicesOf d.values vs)) := by
  rw [UnitOptions.unit, encodeEncUnit, bind_eq_ok] at hunit
  obtain ⟨payload, hpayload, hunit⟩ := hunit
  rw [bind_eq_ok] at hunit
  obtain ⟨bytes, hbytes, hu⟩ := hunit
  cases hu
  have hdecodes : Decodes env (some ctx) (.prim .int64) ⟨bytes, _, _, compressionType⟩ _ :=
    decodes_of_native hv laws hctx (indexDtype_nonNest _) hpayload hbytes rfl hfit rfl
  rw [ArrayRef.toView, indexDtype_view] at hdecodes
  exact hdecodes

/-- The units of a chunk of indices are looked up one by one. -/
theorem drain_indices (hv : env.vortex.RoundTrips) (laws : env.CompressionLaws)
    (hctx : ctx.Native) {compressionType : CompressionType} {d d' : Dictionary}
    (hlooks : LooksUp exact d d') {units : List SerializedEncUnit} {arrays : List ArrayRef}
    (h : List.Forall₂ (fun u a => ∃ vs, a = .prim d.datatype vs ∧ Covers d.values vs ∧
      UnitOptions.unit env ⟨.empty, false, compressionType⟩
        (.prim (indexDtype d.values.length) (indicesOf d.values vs)) = .ok u) units arrays)
    (hfit : ∀ u ∈ units, u.bytes.length < 2 ^ 32) : ∃ outs,
      ChunkDecoder.drain env (.sharedDict ⟨units.map fun u => u.recorded.toFb,
        (units.map SerializedEncUnit.bytes).flatten, some ctx⟩ d'.readBack) = .ok outs ∧
      List.Forall₂ (ArrayRef.ReadsAs exact) arrays outs := by
  induction h with
  | nil => exact ⟨[], ChunkDecoder.drain_none env rfl, .nil⟩
  | @cons u a units arrays hu _ ih =>
      obtain ⟨hfitu, hfitrest⟩ := List.forall_mem_cons.1 hfit
      obtain ⟨vs, rfl, hcovers, hunit⟩ := hu
      obtain ⟨outs, hdrain, hreads⟩ := ih hfitrest
      obtain ⟨decoder, hdecode, hsplit⟩ := decodes_indices hv laws hctx hunit hfitu
      obtain ⟨t, hlookup⟩ := dictIndexToData_readBack (covers_relabel hlooks.perm hcovers)
      rw [indicesOf_relabel hlooks.perm hlooks.nodup hcovers, hlooks.perm.length_eq] at hlookup
      refine ⟨.prim t (vs.map (Option.map (relabel d.values d'.values))) :: outs, ?_,
        .cons ⟨d.datatype, t, vs, _, rfl, rfl, hlooks.renames⟩ hreads⟩
      have hstep : ChunkDecoder.decodeBatch env (.sharedDict
          ⟨u.recorded.toFb :: units.map fun u => u.recorded.toFb,
            u.bytes ++ (units.map SerializedEncUnit.bytes).flatten, some ctx⟩ d'.readBack) =
          .ok (some (.prim t (vs.map (Option.map (relabel d.values d'.values)))),
            .sharedDict ⟨units.map fun u => u.recorded.toFb,
              (units.map SerializedEncUnit.bytes).flatten, some ctx⟩ d'.readBack) := by
        rw [ChunkDecoder.decodeBatch, ChunkDecoder.decodeSharedDict]
        simp only [hsplit, ok_bind, hdecode, hlookup, pure_eq_ok]
      rw [List.map_cons, List.map_cons, List.flatten_cons, ChunkDecoder.drain_step env hstep,
        hdrain, ok_bind, pure_eq_ok]

variable {o : EncoderOptions} {known : Nat → Dictionary → Prop} {narrowed : List Nat}
  {d : PrimitiveColDecoder} {t : PrimType}

/-- **A recorded chunk is decoded to the rows of its arrays**, in whichever of the two
ways it holds them. -/
theorem decodeChunk_recorded (hv : env.vortex.RoundTrips) (laws : env.CompressionLaws)
    (hctx : ctx.Native) (hwasm : o.wasmContext = .empty)
    (hlocal : o.dictionaryType ≠ .localDictionary) (hfit : ∀ v ∈ narrowed, v < 2 ^ 32)
    {m : Chunk} {arrays : List ArrayRef} (h : RecordedAs env o known d.r narrowed m arrays)
    (ht : t.nonNest = true) (hleaves : FitLeaves t arrays) (htype : d.primitiveType = .prim t)
    (hreader : d.wasmContext = some ctx) (hchecksum : d.checksumType = none)
    (hcache : ∀ i dict, known i dict → ∃ dict', LooksUp exact dict dict' ∧
      d.sharedDictionaryCache.getDict i = some dict'.readBack) :
    ∃ outs, d.decodeChunk env m.toFb = .ok outs ∧
      List.Forall₂ (ArrayRef.ReadsAs exact) arrays outs := by
  have hdecodable : d.primitiveType.decodable = true := by
    rw [htype]
    exact ht
  obtain ⟨c, checksum, offset, rfl, hholds, hsizes, hcontents⟩ := h
  cases hcontents with
  | @plain unitOptions hw hchunk =>
      obtain ⟨harrays, hrows⟩ := hleaves.eq_map
      have hrecorded : Recorded env unitOptions d.r narrowed (c.record env checksum offset)
          ((arrays.map ArrayRef.rows).map (ArrayRef.prim t)) := by
        rw [← harrays]
        exact ⟨c, checksum, offset, rfl, hholds, hsizes, hchunk⟩
      have hunits := chunkHolds_of_recorded (roundTrips_native hv laws hctx (hw.trans hwasm)) ht
        hfit hrecorded hrows htype hreader hchecksum
      obtain ⟨units, buf, hopen, hall⟩ := openChunk_ok hdecodable hunits
      have hreads : List.Forall₂ (ArrayRef.ReadsAs exact)
          ((arrays.map ArrayRef.rows).map (ArrayRef.prim t))
          ((arrays.map ArrayRef.rows).map fun vs => (ArrayRef.prim t vs).toView) := by
        rw [List.forall₂_map_left_iff, List.forall₂_map_right_iff, List.forall₂_same]
        refine fun vs _ => ⟨t, t.view, vs, id, rfl, ?_, Function.injective_id, fun _ => rfl⟩
        rw [Option.map_id, List.map_id]
        rfl
      rw [← harrays] at hreads
      refine ⟨_, ?_, hreads⟩
      rw [PrimitiveColDecoder.decodeChunk, hopen, ok_bind]
      exact drain_of_unitsHold hall
  | pairs hdict _ => exact absurd hdict hlocal
  | indices hchunk =>
      obtain ⟨i, dict, compressionType, hlabel, hknown, hunits⟩ := hchunk.units
      have hsize : ∀ n ∈ c.sizes, n < 2 ^ 32 := fun n hn => hfit n (hsizes n hn)
      have hbytes : c.bytes.length < 2 ^ 32 :=
        hsize _ (List.mem_append_right _ (List.mem_singleton_self _))
      rw [hwasm] at hunits
      obtain ⟨dict', hlooks, hdict⟩ := hcache i dict hknown
      obtain ⟨outs, hdrain, hreads⟩ := drain_indices hv laws hctx hlooks hunits
        fun u hu => hsize _ (List.mem_append_left _ (List.mem_map_of_mem hu))
      refine ⟨outs, ?_, hreads⟩
      have hread : readExactAt d.r offset (u32 c.bytes.length) = .ok c.bytes := by
        rw [u32_of_lt hbytes]
        exact reads_readExactAt _ _ _ hholds
      have hopen : d.openChunk env (c.record env checksum offset).toFb =
          .ok (.sharedDict ⟨c.encunits.map fun u => u.recorded.toFb,
            (c.encunits.map SerializedEncUnit.bytes).flatten, some ctx⟩ dict'.readBack) := by
        have hencoding : (c.record env checksum offset).toFb.encoding = .sharedDictionary i := by
          show DictionaryEncoding.toFb c.dictEncoding = _
          rw [hlabel]
          rfl
        have hblocks : (c.record env checksum offset).toFb.encunits =
            some (c.encunits.map fun u => u.recorded.toFb) := by
          show some ((c.encunits.map SerializedEncUnit.recorded).map EncUnit.toFb) = _
          rw [List.map_map]
          rfl
        have hchunk : d.readChunk env (c.record env checksum offset).toFb.offset
            (c.record env checksum offset).toFb.size
              (c.record env checksum offset).toFb.checksum = .ok c.bytes := by
          rw [PrimitiveColDecoder.readChunk, hchecksum]
          show (readExactAt d.r offset (u32 c.bytes.length) >>= _) = _
          rw [hread, ok_bind]
          rfl
        simp only [PrimitiveColDecoder.openChunk, hchunk, hblocks, hencoding, okOr, ok_bind,
          createPhysicalDecoder, hdecodable, if_true, hdict, hreader, pure_eq_ok]
        rfl
      rw [PrimitiveColDecoder.decodeChunk, hopen, ok_bind]
      exact hdrain

/-- The chunks of a column are decoded to the rows of the arrays it was given. -/
theorem decodeBatch_recorded (hv : env.vortex.RoundTrips) (laws : env.CompressionLaws)
    (hctx : ctx.Native) (hwasm : o.wasmContext = .empty)
    (hlocal : o.dictionaryType ≠ .localDictionary) (hfit : ∀ v ∈ narrowed, v < 2 ^ 32)
    {chunks : List Chunk} {contents : List (List ArrayRef)}
    (h : List.Forall₂ (RecordedAs env o known d.r narrowed) chunks contents)
    (hchunks : d.chunksMeta = chunks.map Chunk.toFb) (ht : t.nonNest = true)
    (hleaves : FitLeaves t contents.flatten) (htype : d.primitiveType = .prim t)
    (hreader : d.wasmContext = some ctx) (hchecksum : d.checksumType = none)
    (hcache : ∀ i dict, known i dict → ∃ dict', LooksUp exact dict dict' ∧
      d.sharedDictionaryCache.getDict i = some dict'.readBack) :
    ∃ outs, d.decodeBatch env = .ok outs ∧
      List.Forall₂ (ArrayRef.ReadsAs exact) contents.flatten outs := by
  have hchunk : ∀ arrays ∈ contents, FitLeaves t arrays :=
    fun arrays harrays a ha => hleaves a (List.mem_flatten.2 ⟨arrays, harrays, ha⟩)
  obtain ⟨outss, houtss, hreads⟩ := collect_of_forall₂ (((List.forall₂_and_left _ _).2
    ⟨hchunk, h.flip⟩).flip.imp fun (m : Chunk) (arrays : List ArrayRef) hm => by
      have hrecorded : RecordedAs env o known d.r narrowed m arrays := hm.2
      exact decodeChunk_recorded hv laws hctx hwasm hlocal hfit hrecorded ht hm.1 htype hreader
        hchecksum hcache)
  refine ⟨outss.flatten, ?_, List.rel_flatten hreads⟩
  rw [PrimitiveColDecoder.decodeBatch, hchunks, collect_map, houtss, ok_bind, pure_eq_ok]

end Chunks

/-! ## Columns of a flat schema -/

section Columns

variable {schema : List Field} {o : EncoderOptions}

/-- The encoders of a flat schema stand at their columns. -/
theorem createLogicalEncoders_leaves : ∀ {schema : List Field} {start : Nat}
    {r : List LogicalColEncoder × List LogicalTree × Nat}, flatSchema schema = true →
      createLogicalEncoders o schema start = .ok r →
        r.1.length = schema.length ∧ ∀ i < schema.length, ∃ p, r.1[i]? = some (.flat p (start + i))
  | [], start, r, _, h => by
      cases h
      exact ⟨rfl, fun i hi => absurd hi (Nat.not_lt_zero i)⟩
  | .mk name dataType nullable :: fs, start, r, hflat, h => by
      obtain ⟨htype, hrest⟩ := flatSchema_cons.1 hflat
      cases dataType with
      | list child => cases htype
      | largeList child => cases htype
      | struct children => cases htype
      | prim t =>
          have ht : t.nonNest = true := htype
          simp only [createLogicalEncoders, createLogicalEncoder, createLogicalEncoderOf, ht,
            if_true, bind_eq_ok, pure_eq_ok, Except.ok.injEq] at h
          obtain ⟨-, ⟨p, -, rfl⟩, r', hr', rfl⟩ := h
          obtain ⟨hlen, hleaves⟩ := createLogicalEncoders_leaves hrest hr'
          refine ⟨congrArg Nat.succ hlen, fun i hi => ?_⟩
          cases i with
          | zero => exact ⟨p, rfl⟩
          | succ i =>
              obtain ⟨q, hq⟩ := hleaves i (Nat.lt_of_succ_lt_succ hi)
              refine ⟨q, ?_⟩
              rw [List.getElem?_cons_succ, hq]
              show some (LogicalColEncoder.flat q (start + 1 + i)) = _
              rw [Nat.add_right_comm, Nat.add_assoc]

/-- The arrays for one column, picked from those of all columns. -/
theorem sentTo_zipIdx {f : ArrayRef × Nat → List ArrayRef} (k : Nat) :
    ∀ (columns : List ArrayRef) (start : Nat),
      sentTo k ((columns.zipIdx start).flatMap fun p => (f p).map (Prod.mk p.2)) =
        if start ≤ k then (columns[k - start]?.map fun c => f (c, k)).getD [] else []
  | [], start => by
      simp [sentTo]
  | c :: columns, start => by
      have hone : ∀ (i : Nat) (arrays : List ArrayRef),
          sentTo k (arrays.map (Prod.mk i)) = if i = k then arrays else [] := by
        intro i arrays
        by_cases hi : i = k
        · simp [sentTo, hi]
        · simp [sentTo, hi]
      have happ : ∀ xs ys : List (Nat × ArrayRef),
          sentTo k (xs ++ ys) = sentTo k xs ++ sentTo k ys :=
        fun xs ys => List.filterMap_append
      rw [List.zipIdx_cons, List.flatMap_cons, happ, hone, sentTo_zipIdx k columns (start + 1)]
      rcases Nat.lt_trichotomy start k with hlt | rfl | hgt
      · obtain ⟨n, rfl⟩ : ∃ n, k = start + 1 + n := ⟨k - (start + 1), by omega⟩
        rw [if_neg (by omega), if_pos (by omega), if_pos (by omega), List.nil_append,
          Nat.add_sub_cancel_left, show start + 1 + n - start = n + 1 by omega,
          List.getElem?_cons_succ]
      · rw [if_pos rfl, if_neg (by omega), if_pos (Nat.le_refl _), Nat.sub_self, List.append_nil]
        rfl
      · rw [if_neg (by omega), if_neg (by omega), if_neg (by omega)]
        rfl

/-- Each array of a batch goes to the column of its field. -/
theorem columnArrays_flat {env : Env} {options : FileWriterOptions} {w₀ : FileWriter}
    (hflat : flatSchema schema = true) (hnew : tryNew env schema options = .ok w₀)
    (lens : List (Nat × Nat)) {bs : List RecordBatch} (hmatch : ∀ b ∈ bs, b.Matches schema)
    (k : Nat) : columnArrays w₀.columnEncoders lens bs k = encodedColumn lens bs k := by
  simp only [tryNew, bind_eq_ok, pure_eq_ok, Except.ok.injEq] at hnew
  obtain ⟨r, hr, rfl⟩ := hnew
  obtain ⟨-, hleaves⟩ := createLogicalEncoders_leaves hflat hr
  refine List.flatMap_congr fun b hb => ?_
  have hroutes : batchSends r.1 lens b = b.columns.zipIdx.flatMap fun p =>
      (encodedArrays lens b.numRows p).map (Prod.mk p.2) := by
    refine List.flatMap_congr fun p hp => ?_
    obtain ⟨q, hq⟩ := hleaves p.2 (by
      rw [← (hmatch b hb).length_columns]
      exact (List.mem_zipIdx' hp).1)
    rw [Nat.zero_add] at hq
    have hone : ∀ a, fieldRoutes r.1 p.2 a = [(p.2, a)] := fun a => by
      rw [fieldRoutes, hq]
      rfl
    rw [columnSends, List.map_eq_flatMap]
    exact List.flatMap_congr fun a _ => hone a
  show sentTo k (batchSends r.1 lens b) = _
  rw [hroutes, sentTo_zipIdx, if_pos (Nat.zero_le k), Nat.sub_zero, RecordBatch.arraysOf]
  cases b.columns[k]? <;> rfl

end Columns

/-! ## Batches -/

/-- The leaf array `a` has the rows of column `i` of the batch, renamed. -/
def RecordBatch.Decodes (exact : Prop) (i : Nat) (b : RecordBatch) (a : ArrayRef) : Prop :=
  ∃ t σ, a = .prim t ((b.valuesOf i).map (Option.map σ)) ∧ Renames exact σ

/-- Each column has an array for each batch. -/
structure DecodedAs (schema : List Field) (exact : Prop) (bs : List RecordBatch)
    (columns : List (List ArrayRef)) : Prop where
  length : columns.length = schema.length
  arrays : ∀ (i : Nat) (column : List ArrayRef), columns[i]? = some column →
    List.Forall₂ (RecordBatch.Decodes exact i) bs column

/-- `q` has the rows of `b` under the names of the fields; in each column the values
are renamed one to one. -/
structure RecordBatch.ReadRenamed (schema : List Field) (exact : Prop) (b q : RecordBatch) :
    Prop where
  numRows : q.numRows = b.numRows
  labels : q.schema.map Field.label = schema.map Field.label
  columns : ∀ i < schema.length, ∃ σ, q.valuesOf i = (b.valuesOf i).map (Option.map σ) ∧
    Renames exact σ

/-- `q` has the rows of `b` under the names of the fields. -/
structure RecordBatch.ReadBack (schema : List Field) (b q : RecordBatch) : Prop where
  rows : b.ReadAs q
  labels : q.schema.map Field.label = schema.map Field.label

section Batches

variable {schema : List Field} {exact : Prop} {bs : List RecordBatch}
  {columns : List (List ArrayRef)}

/-- Values that are read as they are. -/
theorem RecordBatch.ReadRenamed.readBack {b q : RecordBatch} (h : b.ReadRenamed schema exact q)
    (hexact : exact) (hmatch : b.Matches schema) : b.ReadBack schema q where
  labels := h.labels
  rows := by
    refine ⟨h.numRows, ?_⟩
    have hwidth : q.columns.length = schema.length := by
      have htypes := congrArg List.length q.dataType_columns
      have hlabels := congrArg List.length h.labels
      rw [List.length_map, List.length_map] at htypes hlabels
      exact htypes.trans hlabels
    have hvalues : ∀ (p : RecordBatch) (i : Nat), i < p.columns.length →
        (p.columns.map ArrayRef.rows)[i]? = some (p.valuesOf i) := by
      intro p i hi
      rw [List.getElem?_map, RecordBatch.valuesOf, List.getElem?_eq_getElem hi]
      rfl
    refine List.ext_getElem? fun i => ?_
    by_cases hi : i < schema.length
    · obtain ⟨σ, hcolumn, hrenames⟩ := h.columns i hi
      rw [hvalues b i (hmatch.length_columns ▸ hi), hvalues q i (hwidth ▸ hi), hcolumn,
        hrenames.identity hexact, Option.map_id, List.map_id]
    · rw [List.getElem?_eq_none (by rw [List.length_map, hmatch.length_columns]; omega),
        List.getElem?_eq_none (by rw [List.length_map, hwidth]; omega)]

/-- The arrays at one position make a batch, whatever their types are. -/
theorem DecodedAs.assembleBatch (h : DecodedAs schema exact bs columns)
    (hflat : flatSchema schema = true) (hne : schema ≠ []) (hmatch : ∀ b ∈ bs, b.Matches schema)
    {k : Nat} {b : RecordBatch} (hb : bs[k]? = some b) :
    ∃ q, F3Format.assembleBatch schema columns k = .ok q ∧ b.ReadRenamed schema exact q := by
  have hbatch := hmatch b (List.mem_of_getElem? hb)
  have hcell : ∀ c ∈ columns, ∃ a, index c k = .ok a := by
    intro c hc
    obtain ⟨i, hi⟩ := List.getElem?_of_mem hc
    obtain ⟨a, ha, -⟩ := exists_getElem?_of_forall₂ (h.arrays i c hi) hb
    exact ⟨a, (index_eq_ok _ _ _).2 ha⟩
  obtain ⟨row, hrow⟩ := collect_ok_of_forall hcell
  have hlen : row.length = schema.length := (length_of_collect hrow).trans h.length
  -- each array has the rows of its column of the batch
  have hvalues : ∀ (i : Nat) (f : Field), schema[i]? = some f → ∃ t σ,
      row[i]? = some (.prim t ((b.valuesOf i).map (Option.map σ))) ∧ Renames exact σ ∧
        (b.valuesOf i).length = b.numRows ∧
          (f.isNullable = false → ∀ v ∈ b.valuesOf i, v.isSome = true) := by
    intro i f hf
    obtain ⟨t', vs, -, -, hcolumn, hrows, hnulls⟩ := hbatch.column hflat hf
    have hvs : b.valuesOf i = vs := by
      rw [RecordBatch.valuesOf, hcolumn]
      rfl
    have hi : i < columns.length := h.length ▸ (List.getElem?_eq_some_iff.1 hf).1
    have hc := List.getElem?_eq_getElem hi
    obtain ⟨a, ha, hindexed⟩ := exists_getElem?_of_forall₂ (collect_eq_ok_iff.1 hrow) hc
    obtain ⟨a', ha', t, σ, hprim, hrenames⟩ := exists_getElem?_of_forall₂ (h.arrays i _ hc) hb
    rw [index_eq_ok, ha', Option.some.injEq] at hindexed
    rw [← hindexed, hprim] at ha
    rw [hvs] at ha ⊢
    exact ⟨t, σ, ha, hrenames, hrows, hnulls⟩
  have hfield : ∀ (a : ArrayRef) (i : Nat), row[i]? = some a → ∃ f, schema[i]? = some f := by
    intro a i ha
    exact ⟨_, List.getElem?_eq_getElem (hlen ▸ (List.getElem?_eq_some_iff.1 ha).1)⟩
  have hrows : ∀ a ∈ row, a.len = b.numRows := by
    intro a ha
    obtain ⟨i, hi⟩ := List.getElem?_of_mem ha
    obtain ⟨f, hf⟩ := hfield a i hi
    obtain ⟨t, σ, hvs, -, hlenvs, -⟩ := hvalues i f hf
    rw [hi, Option.some.injEq] at hvs
    rw [hvs]
    exact (List.length_map _).trans hlenvs
  have hrowne : row ≠ [] := by
    rintro rfl
    exact hne (List.eq_nil_of_length_eq_zero hlen.symm)
  have hfirst : (row.head?.map ArrayRef.len).getD 0 = b.numRows := by
    cases row with
    | nil => exact absurd rfl hrowne
    | cons a rest => exact hrows a List.mem_cons_self
  have hvalid : validBatch (batchSchema (schema.map Field.label) row) row b.numRows = true := by
    simp only [validBatch, Bool.and_eq_true, decide_eq_true_eq, List.all_eq_true, Bool.or_eq_true]
    refine ⟨⟨?_, hrows⟩, fun p hp => ?_⟩
    · rw [batchSchema, List.map_map]
      have hfst : (row.zip (schema.map Field.label)).map Prod.fst = row :=
        List.map_fst_zip (by rw [List.length_map, hlen])
      conv => rhs; rw [← hfst, List.map_map]
      rfl
    · obtain ⟨i, hi⟩ := List.getElem?_of_mem hp
      obtain ⟨hpfield, hparray⟩ := List.getElem?_zip_eq_some.1 hi
      obtain ⟨f, hf⟩ := hfield _ i hparray
      obtain ⟨t, σ, hvs, -, -, hnulls⟩ := hvalues i f hf
      rw [hparray, Option.some.injEq] at hvs
      have hzip : (row.zip (schema.map Field.label))[i]? = some (p.2, f.label) :=
        List.getElem?_zip_eq_some.2 ⟨hparray, by rw [List.getElem?_map, hf]; rfl⟩
      rw [batchSchema, List.getElem?_map, hzip, Option.map_some, Option.some.injEq] at hpfield
      rw [← hpfield, hvs]
      cases hn : f.isNullable with
      | true => exact .inl hn
      | false =>
          refine .inr (List.count_eq_zero.2 fun hmem => ?_)
          obtain ⟨v, hv, hnone⟩ := List.mem_map.1 hmem
          obtain ⟨o, ho, rfl⟩ := List.mem_map.1 hv
          rw [Option.isSome_map, hnulls hn o ho] at hnone
          cases hnone
  refine ⟨⟨batchSchema (schema.map Field.label) row, row, b.numRows, hvalid⟩,
    assembleBatch_eq_ok.2 ⟨row, hrow, hrowne, rfl, rfl, hfirst.symm⟩, rfl, ?_, fun i hi => ?_⟩
  · show (batchSchema (schema.map Field.label) row).map Field.label = _
    rw [labels_batchSchema, hlen, List.take_of_length_le (by rw [List.length_map])]
  · obtain ⟨t, σ, hvs, hrenames, -⟩ := hvalues i _ (List.getElem?_eq_getElem hi)
    refine ⟨σ, ?_, hrenames⟩
    show ((row[i]?).map ArrayRef.rows).getD [] = _
    rw [hvs]
    rfl

/-- The columns of a row group are assembled to its batches. -/
theorem DecodedAs.assembleBatches (h : DecodedAs schema exact bs columns)
    (hflat : flatSchema schema = true) (hne : schema ≠ [])
    (hmatch : ∀ b ∈ bs, b.Matches schema) :
    ∃ qs, F3Format.assembleBatches schema columns = .ok qs ∧
      List.Forall₂ (RecordBatch.ReadRenamed schema exact) bs qs := by
  have hpos : 0 < columns.length := h.length ▸ List.length_pos_iff.2 hne
  have hfirst := List.getElem?_eq_getElem hpos
  have hlen : bs.length = (columns[0]).length := (h.arrays 0 _ hfirst).length_eq
  have hbatch : ∀ k < bs.length, ∃ q, F3Format.assembleBatch schema columns k = .ok q ∧
      ∀ b, bs[k]? = some b → b.ReadRenamed schema exact q := by
    intro k hk
    obtain ⟨q, hq, hread⟩ := h.assembleBatch hflat hne hmatch (List.getElem?_eq_getElem hk)
    refine ⟨q, hq, fun b hb => ?_⟩
    rw [List.getElem?_eq_getElem hk, Option.some.injEq] at hb
    exact hb ▸ hread
  have hexists : ∀ k ∈ List.range bs.length, ∃ q,
      F3Format.assembleBatch schema columns k = .ok q := fun k hk => by
    obtain ⟨q, hq, -⟩ := hbatch k (List.mem_range.1 hk)
    exact ⟨q, hq⟩
  obtain ⟨qs, hqs⟩ := collect_ok_of_forall hexists
  have hall := collect_eq_ok_iff.1 hqs
  refine ⟨qs, assembleBatches_eq_ok.2 ⟨_, hfirst, hlen ▸ hall⟩, ?_⟩
  refine List.forall₂_iff_get.2 ⟨by rw [← hall.length_eq, List.length_range], fun k hk hk' => ?_⟩
  obtain ⟨q, hq, hread⟩ := hbatch k hk
  obtain ⟨q', hq', hassembled⟩ := exists_getElem?_of_forall₂ hall (List.getElem?_range hk)
  rw [hq, Except.ok.injEq] at hassembled
  subst hassembled
  have hsame : qs.get ⟨k, hk'⟩ = q := by
    rw [List.getElem?_eq_getElem hk', Option.some.injEq] at hq'
    exact hq'
  rw [hsame]
  exact hread _ (List.getElem?_eq_getElem hk)

end Batches

/-! ## The whole file -/

section Files

variable {env : Env} {schema : List Field} {options : FileWriterOptions}
  {cs : List FileWriter.Call} {w w₁ : FileWriter} {sec : Sections} {p : PostscriptValues}

/-- A finished run of a flat schema, natively encoded and uncompressed, without local
dictionaries: all sizes fit, and the batches match the schema. -/
structure SharedRun (env : Env) (schema : List Field) (options : FileWriterOptions)
    (cs : List FileWriter.Call) (w w₁ : FileWriter) (sec : Sections) (p : PostscriptValues) :
    Prop where
  finishes : FinishesWith env schema options cs w w₁ sec p
  fits : w.Fits
  dictionariesFit : w₁.DictionariesFit env
  flat : flatSchema schema = true
  notLocal : options.dictionaryType ≠ .localDictionary
  lens : options.customEncunitLen = []
  native : options.wasmContext env = .empty
  uncompressed : options.compressionType = .uncompressed
  matching : ∀ b ∈ batches cs, b.Matches schema

namespace SharedRun

/-- The dictionaries that indices refer to are in the cache of the reader, up to the
order of their values. -/
theorem cache (h : SharedRun env schema options cs w w₁ sec p) (laws : env.SerializationLaws)
    (hv : env.vortex.RoundTrips) : ∃ cache,
      SharedDictionaryCache.tryNewReadAll env w.file (sec.dictionaryTable env)
        (some ((FileReaderV2Builder.new w.file).contextOf sec)) = .ok cache ∧
      ∀ i d, w₁.point.Knows i d → ∃ d', LooksUp w₁.sharedDictionaryContext.Unmatched d d' ∧
        cache.getDict i = some d'.readBack := by
  obtain ⟨css, peers, hstored⟩ := h.finishes.storedIn
  have hsound := h.finishes.point_sound h.dictionariesFit.count
  have hwriting : w₁.wasmContext = .empty := by
    have hcontext := h.finishes.wasmContext_eq
    rw [h.finishes.final] at hcontext
    exact hcontext.trans h.native
  have hcodec : w₁.sharedDictionaryContext.DecodesSlices env w₁.wasmContext
      (some ((FileReaderV2Builder.new w.file).contextOf sec)) := by
    rw [hwriting]
    exact SharedDictionaryContext.decodesSlices_native hv
      (h.finishes.compressionType_eq.trans h.uncompressed) (native_contextOf w.file sec)
  obtain ⟨cache, hcache, hdictionaries⟩ := hstored.tryNewReadAll_ok laws hsound.matched
    (h.dictionariesFit.table css peers _ hstored.flushed) hcodec
  refine ⟨cache, hcache, fun i d hknows => ?_⟩
  obtain ⟨d', hnames, htype, hperm, hexact⟩ := hknows.named
  have hvalid : d'.Valid := hsound.valid d' (List.mem_of_getElem? hnames)
  refine ⟨d', ⟨htype, hperm, .of_map _ hvalid.nodup, hexact⟩, ?_⟩
  have hget : w₁.sharedDictionaryContext.dictionaries[i]? = some d' := hnames
  rw [SharedDictionaryCache.getDict, hdictionaries, List.getElem?_map, hget]
  rfl

/-- The batches of a row group match the schema, and their rows are counted as they are. -/
theorem group (h : SharedRun env schema options cs w w₁ sec p) {es : List LogicalColEncoder}
    (hstored : Stored env schema options es w w₁ (rowGroupsOf options (batches cs)))
    {bs : List RecordBatch} (hbs : bs ∈ rowGroupsOf options (batches cs)) :
    ∀ b ∈ bs, b.Matches schema ∧ b.numRows < 2 ^ 32 := by
  intro b hb
  refine ⟨h.matching b ?_, ?_⟩
  · rw [← flatten_all_collectGroups (groupFull options.rowGroupSize) (batches cs)]
    exact List.mem_flatten.2 ⟨bs, hbs, hb⟩
  · exact Nat.lt_of_le_of_lt (List.single_le_sum (fun _ _ => Nat.zero_le _) _
      (List.mem_map_of_mem hb)) (hstored.counts bs hbs)

/-- A column of a row group is decoded to the rows of its batches, array by array. -/
theorem column (h : SharedRun env schema options cs w w₁ sec p) (laws : env.CompressionLaws)
    (hv : env.vortex.RoundTrips) {w₀ : FileWriter} (hnew : tryNew env schema options = .ok w₀)
    (hstored : Stored env schema options w₀.columnEncoders w w₁
      (rowGroupsOf options (batches cs))) {g : RowGroupMetadata} {bs : List RecordBatch}
    (hbs : bs ∈ rowGroupsOf options (batches cs))
    (hg : EntryOf env (encoderOptions env options) w₁.point.Knows w.file w.state.narrowed
      (Field.nodesAll schema) g (entryOf w₀.columnEncoders options.customEncunitLen bs))
    {exact : Prop} {cache : SharedDictionaryCache}
    (hcache : ∀ i d, w₁.point.Knows i d → ∃ d', LooksUp exact d d' ∧
      cache.getDict i = some d'.readBack) {i : Nat}
    {f : Field} (hf : schema[i]? = some f) : ∃ m outs, g.colMetadatas[i]? = some m ∧
      PrimitiveColDecoder.decodeBatch env ⟨w.file, m.columnChunks.map Chunk.toFb, f.dataType,
        some ((FileReaderV2Builder.new w.file).contextOf sec), cache, none⟩ = .ok outs ∧
      List.Forall₂ (RecordBatch.Decodes exact i) bs outs := by
  have hi : i < schema.length := (List.getElem?_eq_some_iff.1 hf).1
  have hgroup := h.group hstored hbs
  have hmatch : ∀ b ∈ bs, b.Matches schema := fun b hb => (hgroup b hb).1
  obtain ⟨-, hnodes⟩ := supportedAll_of_flat h.flat
  obtain ⟨m, contents, hm, hrecorded, hcontents⟩ := hg.columns i (hnodes ▸ hi)
  have harrays : contents.flatten = encodedColumn [] bs i := by
    rw [hcontents]
    exact (columnArrays_flat h.flat hnew _ hmatch i).trans (h.lens ▸ rfl)
  have hcolumn := encodedColumn_nil hi hmatch
  -- the type of the column is that of its field
  obtain ⟨t, ht, htype⟩ : ∃ t : PrimType, t.nonNest = true ∧ f.dataType = .prim t := by
    have hnonNest := List.all_eq_true.1 h.flat f (List.mem_of_getElem? hf)
    obtain ⟨name, dataType, nullable⟩ := f
    cases dataType with
    | prim t => exact ⟨t, hnonNest, rfl⟩
    | list child => cases hnonNest
    | largeList child => cases hnonNest
    | struct children => cases hnonNest
  have hleaves : FitLeaves t contents.flatten := by
    rw [harrays]
    intro a ha
    have hmem : some a ∈ bs.map fun b => b.columns[i]? := hcolumn ▸ List.mem_map_of_mem ha
    obtain ⟨b, hb, hba⟩ := List.mem_map.1 hmem
    obtain ⟨t', vs, htype', -, hvs, hlen, -⟩ := (hmatch b hb).column h.flat hf
    rw [htype, DataType.prim.injEq] at htype'
    subst htype'
    rw [hba, Option.some.injEq] at hvs
    exact ⟨vs, hvs, hlen ▸ (hgroup b hb).2⟩
  obtain ⟨outs, houts, hreads⟩ := decodeBatch_recorded (o := encoderOptions env options)
    (d := ⟨w.file, m.columnChunks.map Chunk.toFb, f.dataType,
      some ((FileReaderV2Builder.new w.file).contextOf sec), cache, none⟩) hv laws
    (native_contextOf w.file sec) h.native h.notLocal h.fits hrecorded rfl ht hleaves htype rfl rfl
    hcache
  refine ⟨m, outs, hm, houts, ?_⟩
  rw [harrays] at hreads
  have hsome : List.Forall₂ (fun (c : Option ArrayRef) out =>
      ∃ a, c = some a ∧ ArrayRef.ReadsAs exact a out) ((encodedColumn [] bs i).map some) outs := by
    rw [List.forall₂_map_left_iff]
    exact hreads.imp fun a out hread => ⟨a, rfl, hread⟩
  rw [hcolumn, List.forall₂_map_left_iff] at hsome
  refine hsome.imp fun b out hout => ?_
  obtain ⟨a, ha, t₁, t₂, vs, σ, rfl, rfl, hrenames⟩ := hout
  refine ⟨t₂, σ, ?_, hrenames⟩
  rw [RecordBatch.valuesOf, ha]
  rfl

/-- A row group is read as its batches. -/
theorem readGroup (h : SharedRun env schema options cs w w₁ sec p) (laws : env.CompressionLaws)
    (hv : env.vortex.RoundTrips) (hne : schema ≠ []) {w₀ : FileWriter}
    (hnew : tryNew env schema options = .ok w₀)
    (hstored : Stored env schema options w₀.columnEncoders w w₁
      (rowGroupsOf options (batches cs))) {g : RowGroupMetadata} {bs : List RecordBatch}
    (hbs : bs ∈ rowGroupsOf options (batches cs))
    (hg : EntryOf env (encoderOptions env options) w₁.point.Knows w.file w.state.narrowed
      (Field.nodesAll schema) g (entryOf w₀.columnEncoders options.customEncunitLen bs))
    {exact : Prop} {cache : SharedDictionaryCache}
    (hcache : ∀ i d, w₁.point.Knows i d → ∃ d', LooksUp exact d d' ∧
      cache.getDict i = some d'.readBack) :
    ∃ qs, readProjectedGroup env w sec p cache schema .all g = .ok qs ∧
      List.Forall₂ (RecordBatch.ReadRenamed schema exact) bs qs := by
  obtain ⟨-, hnodes⟩ := supportedAll_of_flat h.flat
  have hlen : (schema.zip (g.colMetadatas.map ColumnMetadata.toFb)).length = schema.length := by
    rw [List.length_zip, List.length_map, hg.length, hnodes, Nat.min_self]
  -- what is decoded from the metadata of a column
  have hcolumn : ∀ (i : Nat) (q : Field × Fb.ColumnMetadata),
      (schema.zip (g.colMetadatas.map ColumnMetadata.toFb))[i]? = some q → ∃ outs,
        decodeColumn env ((FileReaderV2Builder.new w.file).decoders sec p cache []) .all q =
          .ok outs ∧ List.Forall₂ (RecordBatch.Decodes exact i) bs outs := by
    intro i q hq
    obtain ⟨hf, hmeta⟩ := List.getElem?_zip_eq_some.1 hq
    obtain ⟨m, outs, hm, houts, hreads⟩ := h.column laws hv hnew hstored hbs hg hcache hf
    rw [List.getElem?_map, hm, Option.map_some, Option.some.injEq] at hmeta
    refine ⟨outs, ?_, hreads⟩
    rw [decodeColumn, ← hmeta]
    exact houts
  obtain ⟨columns, hcolumns⟩ : ∃ columns, collect
      (decodeColumn env ((FileReaderV2Builder.new w.file).decoders sec p cache []) .all)
        (schema.zip (g.colMetadatas.map ColumnMetadata.toFb)) = .ok columns :=
    collect_ok_of_forall fun q hq => by
      obtain ⟨i, hi⟩ := List.getElem?_of_mem hq
      obtain ⟨outs, houts, -⟩ := hcolumn i q hi
      exact ⟨outs, houts⟩
  have hdecoded : DecodedAs schema exact bs columns := by
    refine ⟨(length_of_collect hcolumns).trans hlen, fun i column hi => ?_⟩
    have hall := collect_eq_ok_iff.1 hcolumns
    have hlt := (List.getElem?_eq_some_iff.1 hi).1
    rw [← hall.length_eq] at hlt
    obtain ⟨outs, houts, hreads⟩ := hcolumn i _ (List.getElem?_eq_getElem hlt)
    obtain ⟨outs', houts', hdecode⟩ :=
      exists_getElem?_of_forall₂ hall (List.getElem?_eq_getElem hlt)
    rw [houts, Except.ok.injEq] at hdecode
    rw [hi, Option.some.injEq] at houts'
    rw [houts', ← hdecode]
    exact hreads
  obtain ⟨qs, hqs, hreads⟩ := hdecoded.assembleBatches h.flat hne
    fun b hb => (h.group hstored hbs b hb).1
  refine ⟨qs, ?_, hreads⟩
  rw [readProjectedGroup]
  show (collect _ (schema.zip (g.colMetadatas.map ColumnMetadata.toFb)) >>= _) = _
  rw [hcolumns, ok_bind]
  exact hqs

/-- The file is read batch by batch, once its dictionaries are. -/
theorem readAll (h : SharedRun env schema options cs w w₁ sec p) (laws : env.SerializationLaws)
    (hlaws : env.CompressionLaws) (hv : env.vortex.RoundTrips) (hne : schema ≠ [])
    {exact : Prop} {cache : SharedDictionaryCache}
    (hcache : SharedDictionaryCache.tryNewReadAll env w.file (sec.dictionaryTable env)
      (some ((FileReaderV2Builder.new w.file).contextOf sec)) = .ok cache)
    (hknown : ∀ i d, w₁.point.Knows i d → ∃ d', LooksUp exact d d' ∧
      cache.getDict i = some d'.readBack) : ∃ qs, readProjected env w .all = .ok qs ∧
        List.Forall₂ (RecordBatch.ReadRenamed schema exact) (batches cs) qs := by
  obtain ⟨hsup, -⟩ := supportedAll_of_flat h.flat
  have hbytes : env.IndicesHaveBytes (options.wasmContext env) :=
    indicesHaveBytes_of_native hlaws fun t => by rw [h.native]; rfl
  obtain ⟨w₀, hnew, hstored⟩ := h.finishes.stored hsup hbytes h.fits
  obtain ⟨f, hf⟩ := h.finishes.finished h.fits
  have hmem : ∀ bs ∈ rowGroupsOf options (batches cs), bs ∈ rowGroupsOf options (batches cs) :=
    fun _ hbs => hbs
  have hgroups := ((List.forall₂_and_left _ _).2 ⟨hmem, hstored.groups.flip⟩).flip.imp
    fun (g : RowGroupMetadata) (bs : List RecordBatch) hgroup =>
      h.readGroup hlaws hv hne hnew hstored hgroup.1 hgroup.2 hknown
  obtain ⟨qss, hqss, hreads⟩ := collect_of_forall₂ hgroups
  refine ⟨qss.flatten, ?_, ?_⟩
  · rw [readProjected_eq laws h.finishes hf h.flat (P := .all) trivial, hcache]
    simp only [unwrap, ok_bind, hqss, pure_eq_ok]
  · have hflatten := List.rel_flatten hreads
    rwa [rowGroupsOf, flatten_all_collectGroups] at hflatten

end SharedRun

/-- **Merging dictionaries renames values.** A finished run of a flat schema, whatever
the scopes of its dictionaries are, whichever chunks the size comparison prefers and
whichever dictionaries `merge_dicts` matches: the file is read, and gives one batch for
each written batch, in their order. Nulls stay where they are, and the values of each
column of a batch are renamed one to one; they stay what they are if no dictionary was
matched. -/
theorem merged_round_trip (laws : env.SerializationLaws) (hlaws : env.CompressionLaws)
    (hv : env.vortex.RoundTrips) (h : SharedRun env schema options cs w w₁ sec p)
    (hne : schema ≠ []) : ∃ qs, readProjected env w .all = .ok qs ∧
      List.Forall₂ (RecordBatch.ReadRenamed schema w₁.sharedDictionaryContext.Unmatched)
        (batches cs) qs := by
  obtain ⟨cache, hcache, hknown⟩ := h.cache laws hv
  exact h.readAll laws hlaws hv hne hcache hknown

/-- **Shared dictionaries are lossless.** Where columns do not share dictionaries, the
file of such a run gives one batch for each written batch, in their order and with
their rows. -/
theorem shared_round_trip (laws : env.SerializationLaws) (hlaws : env.CompressionLaws)
    (hv : env.vortex.RoundTrips) (h : SharedRun env schema options cs w w₁ sec p)
    (hmulti : options.dictionaryType.isMultiColSharing = false) (hne : schema ≠ []) :
    ∃ qs, readProjected env w .all = .ok qs ∧
      List.Forall₂ (RecordBatch.ReadBack schema) (batches cs) qs := by
  obtain ⟨cache, hcache, hknown⟩ := h.cache laws hv
  obtain ⟨qs, hqs, hreads⟩ := h.readAll laws hlaws hv hne hcache hknown
  have hunmatched : w₁.sharedDictionaryContext.Unmatched := fun i => by
    rw [h.finishes.unmerged hmulti]
    rfl
  exact ⟨qs, hqs, ((List.forall₂_and_left _ _).2 ⟨h.matching, hreads⟩).imp
    fun b q hboth => hboth.2.readBack hunmatched hboth.1⟩

/-- The run and its file, if all sizes fit. -/
theorem exists_finishesWith {cs : List FileWriter.Call} {options : FileWriterOptions}
    (hfits : FileWriter.runFits env schema options cs = true)
    (hdicts : FileWriter.runDictionariesFit env schema options cs = true) :
    ∃ w w₁ sec p, FinishesWith env schema options cs w w₁ sec p ∧ w.Fits ∧
      w₁.DictionariesFit env := by
  cases hrun : FileWriter.run env schema options cs with
  | error f =>
      rw [FileWriter.runFits, hrun] at hfits
      cases hfits
  | ok w =>
      obtain ⟨w₁, sec, p, hfin⟩ := finishes_iff.1 (finishes_of_run hrun)
      exact ⟨w, w₁, sec, p, hfin, fits_of_runFits hfits hrun,
        FileWriter.dictionariesFit_of_ok hdicts hrun hfin⟩

end Files

namespace Sample

theorem glBestFits : FileWriter.runFits env nullSchema glBestOptions
    [.writeBatch nullBatch, .flushPendingChunks, .writeBatch nullBatch] = true := by
  decide +kernel

theorem glBestDictionariesFit : FileWriter.runDictionariesFit env nullSchema glBestOptions
    [.writeBatch nullBatch, .flushPendingChunks, .writeBatch nullBatch] = true := by
  decide +kernel

/-- Two columns with one value in common. -/
def commonBatch : RecordBatch :=
  ⟨nullSchema, [.prim .int32 [some (.int 1), some (.int 2)],
    .prim .int32 [some (.int 2), some (.int 3)]], 2, by decide⟩

/-- The columns share dictionaries. -/
def sharingOptions : FileWriterOptions :=
  { FileWriterOptions.default with dictionaryType := .globalDictionaryMultiColSharing }

/-- The dictionaries of the first batch are complete before they are merged. -/
def sharingCalls : List FileWriter.Call :=
  [.writeBatch commonBatch, .flushPendingChunks, .writeBatch commonBatch]

theorem sharingFits : FileWriter.runFits env nullSchema sharingOptions sharingCalls = true := by
  decide +kernel

theorem sharingDictionariesFit :
    FileWriter.runDictionariesFit env nullSchema sharingOptions sharingCalls = true := by
  decide +kernel

/-- The first columns of the batches that are read. -/
def readColumn (cs : List FileWriter.Call) : Option (List (List (Option Scalar))) :=
  match FileWriter.run env nullSchema sharingOptions cs with
  | .ok w => (readProjected env w .all).toOption.map fun qs => qs.map fun q => q.valuesOf 0
  | .error _ => none

-- the first batch is read with its two values exchanged
example : readColumn sharingCalls =
    some [[some (.int 2), some (.int 1)], [some (.int 1), some (.int 2)]] := by
  decide +kernel

end Sample

theorem merged_round_trip_sample : ∃ w w₁ sec p qs,
    FinishesWith Sample.env Sample.nullSchema Sample.sharingOptions Sample.sharingCalls w w₁ sec p ∧
    readProjected Sample.env w .all = .ok qs ∧
      List.Forall₂ (RecordBatch.ReadRenamed Sample.nullSchema
        w₁.sharedDictionaryContext.Unmatched) [Sample.commonBatch, Sample.commonBatch] qs := by
  obtain ⟨w, w₁, sec, p, hfin, hfits, hdicts⟩ :=
    exists_finishesWith Sample.sharingFits Sample.sharingDictionariesFit
  have hmatch : ∀ b ∈ batches Sample.sharingCalls, b.Matches Sample.nullSchema := by
    simp only [Sample.sharingCalls, batches, List.mem_cons, List.not_mem_nil, or_false, or_self]
    rintro b rfl
    exact Sample.commonBatch.valid
  obtain ⟨qs, hqs, hreads⟩ := merged_round_trip Sample.serializationLaws Sample.compressionLaws
    Sample.roundTrips ⟨hfin, hfits, hdicts, rfl, nofun, rfl, rfl, rfl, hmatch⟩
    (List.cons_ne_nil _ _)
  exact ⟨w, w₁, sec, p, qs, hfin, hqs, hreads⟩

/-- Two batches with a flush between them. -/
theorem shared_round_trip_sample : ∃ w w₁ sec p qs,
    FinishesWith Sample.env Sample.nullSchema Sample.glBestOptions
      [.writeBatch Sample.nullBatch, .flushPendingChunks, .writeBatch Sample.nullBatch] w w₁ sec p ∧
    readProjected Sample.env w .all = .ok qs ∧
      List.Forall₂ (RecordBatch.ReadBack Sample.nullSchema)
        [Sample.nullBatch, Sample.nullBatch] qs := by
  obtain ⟨w, w₁, sec, p, hfin, hfits, hdicts⟩ :=
    exists_finishesWith Sample.glBestFits Sample.glBestDictionariesFit
  have hmatch : ∀ b ∈ [Sample.nullBatch, Sample.nullBatch], b.Matches Sample.nullSchema := by
    simp only [List.mem_cons, List.not_mem_nil, or_false, or_self]
    rintro b rfl
    exact Sample.nullBatch.valid
  obtain ⟨qs, hqs, hreads⟩ := shared_round_trip Sample.serializationLaws Sample.compressionLaws
    Sample.roundTrips ⟨hfin, hfits, hdicts, rfl, nofun, rfl, rfl, rfl, hmatch⟩ rfl
    (List.cons_ne_nil _ _)
  exact ⟨w, w₁, sec, p, qs, hfin, hqs, hreads⟩

end F3Format
