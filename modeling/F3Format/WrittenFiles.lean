import F3Format.BuilderStrategies
import F3Format.ColumnNumbering

/-!
# Reading a written file

What `read_file` does on the file of a finished run, without the bytes of its
metadata: the builder finds the row groups as the writer recorded them, and for
a flat schema the columns are decoded one by one, each on its own
(`readFile_written`).
-/

set_option autoImplicit false

namespace F3Format

open Lib FileWriter FileReaderV2Builder

/-! ## What a run leaves as it is -/

namespace FileWriter

/-- The parts of a writer that are fixed when it is created. -/
structure Fixed where
  schema : List Field
  customEncunitLen : List (Nat × Nat)
  rowGroupSize : Nat
  numPhysicalColumns : Nat

/-- The fixed parts. -/
def fixed (w : FileWriter) : Fixed :=
  ⟨w.schema, w.customEncunitLen, w.rowGroupSize, w.state.numPhysicalColumns⟩

/-- The fixed parts of a writer, and the context of its encoders. -/
def settings (w : FileWriter) : Fixed × WASMWritingContext := (w.fixed, w.wasmContext)

section Keeps

variable (env : Env)

theorem keeps_onState {f : FileWriteState → Result FileWriteState}
    (hf : ∀ s t, f s = .ok t → t.numPhysicalColumns = s.numPhysicalColumns) :
    Act.Keeps settings (onState f) := by
  refine Act.keeps_get_bind fun w => ?_
  cases h : f w.state with
  | error e => rfl
  | ok s => exact congrArg (fun n => (Fixed.mk _ _ _ n, w.wasmContext)) (hf w.state s h)

theorem keeps_callEncoder {α : Type} (i : Nat)
    (x : LogicalColEncoder → Shared → EncResult LogicalColEncoder α) :
    Act.Keeps settings (callEncoder i x) := by
  intro w
  unfold callEncoder
  split
  · split
    · rfl
    · rfl
  · rfl

theorem keeps_flushChunks (res : Option (List EncodedColumnChunk)) :
    Act.Keeps settings (flushChunks env res) := by
  refine Act.keeps_forEach (fun c => keeps_onState fun s t h => ?_) _
  obtain ⟨m, -, rfl⟩ := FileWriteState.flushChunk_eq_ok.1 h
  rfl

theorem keeps_writeColumn (numRows : Nat) (p : ArrayRef × Nat) :
    Act.Keeps settings (writeColumn env numRows p) := by
  have hencode : ∀ a, Act.Keeps settings (encodeArray env p.2 a) := fun a =>
    Act.keeps_bind (keeps_callEncoder _ _) fun res => keeps_flushChunks env res
  refine Act.keeps_get_bind_all fun w => ?_
  split
  · exact hencode _
  · split
    · exact Act.keeps_throw _
    · split
      · exact Act.keeps_throw _
      · exact Act.keeps_forEach (fun j => hencode _) _

theorem keeps_flushPendingChunks : Act.Keeps settings (flushPendingChunks env) := by
  refine Act.keeps_get_bind_all fun w => ?_
  exact Act.keeps_forEach (fun i => Act.keeps_bind (keeps_callEncoder _ _)
    fun res => keeps_flushChunks env res) _

theorem keeps_writeBatch (batch : RecordBatch) : Act.Keeps settings (writeBatch env batch) := by
  refine Act.keeps_bind (Act.keeps_forEach (keeps_writeColumn env batch.numRows) _) fun _ => ?_
  refine Act.keeps_bind (keeps_onState fun s t h => by cases h; rfl) fun _ => ?_
  refine Act.keeps_get_bind_all fun w => ?_
  split
  · exact Act.keeps_bind (keeps_flushPendingChunks env)
      fun _ => keeps_onState fun s t h => by cases h; rfl
  · exact Act.keeps_pure _

theorem keeps_calls (cs : List Call) : Act.Keeps settings (calls env cs) := by
  refine Act.keeps_forEach (fun c => ?_) cs
  cases c with
  | writeBatch batch => exact keeps_writeBatch env batch
  | flushPendingChunks => exact keeps_flushPendingChunks env

theorem keeps_submitAndMerge : Act.Keeps settings (submitAndMerge env) := by
  refine Act.keeps_get_bind_all fun w => ?_
  split
  · refine Act.keeps_bind (Act.keeps_forEach (fun i => ?_) _) fun _ => ?_
    · intro w
      unfold submitDict
      split
      · rfl
      · split
        · rfl
        · rfl
    · refine Act.keeps_get_bind fun w => ?_
      cases w.sharedDictionaryContext.mergeDicts env with
      | error e => rfl
      | ok ctx => rfl
  · exact Act.keeps_pure _

theorem keeps_finishRowGroups : Act.Keeps settings (finishRowGroups env) := by
  refine Act.keeps_bind (keeps_submitAndMerge env) fun _ => ?_
  exact Act.keeps_bind (keeps_flushPendingChunks env)
    fun _ => keeps_onState fun s t h => by cases h; rfl

end Keeps

section Runs

variable {env : Env} {schema : List Field} {options : FileWriterOptions} {cs : List Call}
  {w w₁ : FileWriter} {sec : Sections} {p : PostscriptValues}

theorem settings_of_keeps {α : Type} {x : WriterAct α} (hx : Act.Keeps settings x)
    {w t : FileWriter} {a : α} (h : Act.Returns x w a t) : t.settings = w.settings := by
  have hleft := hx w
  rw [show x w = .ok a t from h] at hleft
  exact hleft

/-- The settings of a writer are those of its creation, to the end of the run. -/
theorem FinishesWith.settings_eq (h : FinishesWith env schema options cs w w₁ sec p) :
    ∃ w₀, tryNew env schema options = .ok w₀ ∧ w.settings = w₀.settings := by
  obtain ⟨wend, ⟨w₀, hnew, hcalls⟩, hgroups⟩ := h.rowGroups
  obtain ⟨f, hf⟩ := writeSections_spec h.sections
  refine ⟨w₀, hnew, ?_⟩
  have hlast : w.settings = w₁.settings := by
    rw [h.final]
    exact congrArg (fun n => (Fixed.mk _ _ _ n, w₁.wasmContext)) hf.numPhysicalColumns
  rw [hlast, settings_of_keeps (keeps_finishRowGroups env) hgroups,
    settings_of_keeps (keeps_calls env cs) hcalls]

theorem FinishesWith.fixed_eq (h : FinishesWith env schema options cs w w₁ sec p) :
    ∃ w₀, tryNew env schema options = .ok w₀ ∧ w.fixed = w₀.fixed := by
  obtain ⟨w₀, hnew, hsettings⟩ := h.settings_eq
  exact ⟨w₀, hnew, congrArg Prod.fst hsettings⟩

/-- The encoders of a run use the context of its options. -/
theorem FinishesWith.wasmContext_eq (h : FinishesWith env schema options cs w w₁ sec p) :
    w.wasmContext = options.wasmContext env := by
  obtain ⟨w₀, hnew, hsettings⟩ := h.settings_eq
  simp only [tryNew, bind_eq_ok, pure_eq_ok, Except.ok.injEq] at hnew
  obtain ⟨r, -, rfl⟩ := hnew
  exact congrArg Prod.snd hsettings

theorem flatSchema_cons {f : Field} {fs : List Field} :
    flatSchema (f :: fs) = true ↔ f.dataType.nonNest = true ∧ flatSchema fs = true := by
  rw [flatSchema, List.all_cons, Bool.and_eq_true]
  rfl

theorem supportedAll_of_flat : ∀ {schema : List Field}, flatSchema schema = true →
    Field.supportedAll schema = true ∧ Field.nodesAll schema = schema.length
  | [], _ => ⟨rfl, rfl⟩
  | .mk name (.prim t) nullable :: fs, h => by
      obtain ⟨htype, hrest⟩ := flatSchema_cons.1 h
      obtain ⟨hsupported, hnodes⟩ := supportedAll_of_flat hrest
      refine ⟨?_, ?_⟩
      · rw [Field.supportedAll, hsupported, Bool.and_true]
        exact htype
      · rw [Field.nodesAll, hnodes, List.length_cons]
        exact Nat.add_comm 1 fs.length
  | .mk name (.list child) nullable :: fs, h => nomatch (flatSchema_cons.1 h).1
  | .mk name (.largeList child) nullable :: fs, h => nomatch (flatSchema_cons.1 h).1
  | .mk name (.struct fields) nullable :: fs, h => nomatch (flatSchema_cons.1 h).1

theorem fixed_tryNew {w₀ : FileWriter} (hflat : flatSchema schema = true)
    (h : tryNew env schema options = .ok w₀) :
    w₀.fixed = ⟨schema, options.customEncunitLen, options.rowGroupSize, schema.length⟩ := by
  obtain ⟨hsupported, hnodes⟩ := supportedAll_of_flat hflat
  simp only [tryNew, bind_eq_ok, pure_eq_ok, Except.ok.injEq] at h
  obtain ⟨r, hr, rfl⟩ := h
  obtain ⟨es, trees, hes, -⟩ := createLogicalEncoders_numbers (o := ⟨options.iounitSize,
    options.wasmContext env, options.dictionaryType, options.compressionType⟩) schema 0 hsupported
  rw [hr] at hes
  cases hes
  simp only [fixed, Nat.zero_add, hnodes]

/-- The schema and the number of columns of the file of a flat run. -/
theorem FinishesWith.schema_eq (h : FinishesWith env schema options cs w w₁ sec p)
    (hflat : flatSchema schema = true) :
    w.schema = schema ∧ w.state.numPhysicalColumns = schema.length := by
  obtain ⟨w₀, hnew, hfixed⟩ := h.fixed_eq
  rw [fixed_tryNew hflat hnew] at hfixed
  exact ⟨congrArg Fixed.schema hfixed, congrArg Fixed.numPhysicalColumns hfixed⟩

end Runs

end FileWriter

/-! ## The tables of the row groups -/

/-- The row counts, offsets and sizes of all row groups. -/
def RowGroupsTable.pointers (t : RowGroupsTable) : List (Nat × Nat × Nat) :=
  t.rowCounts.zip (t.offsets.zip t.sizes)

/-- Every row group has a row count, an offset and a size. -/
structure FileWriteState.Aligned (s : FileWriteState) : Prop where
  rowCounts : s.rowGroupsTable.rowCounts.length = s.rowGroupsTable.rowGroupMetadata.length
  offsets : s.rowGroupsTable.offsets.length = s.rowGroupsTable.rowGroupMetadata.length
  sizes : s.rowGroupsTable.sizes.length = s.rowGroupsTable.rowGroupMetadata.length

theorem stateInvariant_aligned (env : Env) : StateInvariant env FileWriteState.Aligned where
  flushChunk := by
    intro s t c hs ht
    obtain ⟨m, -, rfl⟩ := FileWriteState.flushChunk_eq_ok.1 ht
    exact ⟨hs.rowCounts, hs.offsets, hs.sizes⟩
  addRows := fun s n hs => ⟨hs.rowCounts, hs.offsets, hs.sizes⟩
  finishRowGroup := by
    intro s hs
    have hlen : ∀ {xs : List Nat} (x : Nat) (g : RowGroupMetadata),
        xs.length = s.rowGroupsTable.rowGroupMetadata.length →
          (xs ++ [x]).length = (s.rowGroupsTable.rowGroupMetadata ++ [g]).length := by
      intro xs x g h
      rw [List.length_append, List.length_append, h]
      rfl
    exact ⟨hlen _ _ hs.rowCounts, hlen _ _ hs.offsets, hlen _ _ hs.sizes⟩
  counters := fun s cs hs => ⟨hs.rowCounts, hs.offsets, hs.sizes⟩

theorem aligned_tryNew {env : Env} {schema : List Field} {options : FileWriterOptions}
    {w : FileWriter} (h : tryNew env schema options = .ok w) : w.state.Aligned := by
  simp only [tryNew, bind_eq_ok, pure_eq_ok, Except.ok.injEq] at h
  obtain ⟨r, -, rfl⟩ := h
  exact ⟨rfl, rfl, rfl⟩

theorem FileWriter.FinishesWith.aligned {env : Env} {schema : List Field}
    {options : FileWriterOptions} {cs : List Call} {w w₁ : FileWriter} {sec : Sections}
    {p : PostscriptValues} (h : FinishesWith env schema options cs w w₁ sec p) :
    w.state.Aligned := by
  obtain ⟨wend, ⟨w₀, hnew, hcalls⟩, hgroups⟩ := h.rowGroups
  have hend := ((Act.maintains_forEach (stateInvariant_aligned env).maintains_call cs).returns
    (aligned_tryNew hnew) hcalls).2
  have hlast := ((stateInvariant_aligned env).maintains_finishRowGroups.returns hend hgroups).2
  obtain ⟨f, hf⟩ := writeSections_spec h.sections
  obtain ⟨sections, htable, -⟩ := hf.sections
  refine ⟨?_, ?_, ?_⟩
  · rw [htable]
    exact hlast.rowCounts
  · rw [htable]
    exact hlast.offsets
  · rw [htable]
    exact hlast.sizes

/-! ## Projected columns -/

namespace Projection

variable {α β : Type}

/-- The entries of the projected columns, in the order of the projection. -/
def pick : Projection → List α → List α
  | all, xs => xs
  | leafColumnIndexes indices, xs => indices.filterMap fun i => xs[i]?

theorem pick_map (P : Projection) (f : α → β) (xs : List α) :
    P.pick (xs.map f) = (P.pick xs).map f := by
  cases P with
  | all => rfl
  | leafColumnIndexes indices =>
      simp only [pick, List.getElem?_map, List.map_filterMap]

theorem mem_of_mem_pick {P : Projection} {xs : List α} {x : α} (h : x ∈ P.pick xs) : x ∈ xs := by
  cases P with
  | all => exact h
  | leafColumnIndexes indices =>
      obtain ⟨i, -, hi⟩ := List.mem_filterMap.1 h
      exact List.mem_of_getElem? hi

theorem length_pick_leaf {n : Nat} : ∀ {indices : List Nat}, (∀ i ∈ indices, i < n) →
    ∀ {xs : List α}, xs.length = n → ((leafColumnIndexes indices).pick xs).length = indices.length
  | [], _, _, _ => rfl
  | i :: is, h, xs, hxs => by
      have hi : i < xs.length := by
        rw [hxs]
        exact h i (List.mem_cons_self ..)
      have ih := length_pick_leaf (fun j hj => h j (List.mem_cons_of_mem _ hj)) hxs
      simp only [pick] at ih
      simp only [pick, List.filterMap_cons, List.getElem?_eq_getElem hi, List.length_cons, ih]

/-- Picking out of lists of the same length picks the same positions. -/
theorem pick_zip {P : Projection} {xs : List α} {ys : List β} (hlen : xs.length = ys.length)
    (hP : P.Valid xs.length) : P.pick (xs.zip ys) = (P.pick xs).zip (P.pick ys) := by
  cases P with
  | all => rfl
  | leafColumnIndexes indices =>
      simp only [pick]
      induction indices with
      | nil => rfl
      | cons i is ih =>
          have hi : i < xs.length := hP i (List.mem_cons_self ..)
          have hi' : i < ys.length := hlen ▸ hi
          have hz : i < (xs.zip ys).length := by
            rw [List.length_zip]
            omega
          rw [List.filterMap_cons, List.filterMap_cons, List.filterMap_cons,
            List.getElem?_eq_getElem hi, List.getElem?_eq_getElem hi',
            List.getElem?_eq_getElem hz, List.getElem_zip]
          dsimp only
          rw [List.zip_cons_cons, ih fun j hj => hP j (List.mem_cons_of_mem _ hj)]

/-- What a loop collects for the picked entries is picked out of what it
collects for all. -/
theorem collect_pick {f : α → Result β} {P : Projection} {xs : List α} {ys : List β}
    (hP : P.Valid xs.length) (h : collect f xs = .ok ys) :
    collect f (P.pick xs) = .ok (P.pick ys) := by
  cases P with
  | all => exact h
  | leafColumnIndexes indices =>
      have hall := collect_eq_ok_iff.1 h
      simp only [pick]
      induction indices with
      | nil => rfl
      | cons i is ih =>
          have hi : i < xs.length := hP i (List.mem_cons_self ..)
          obtain ⟨y, hy, hf⟩ := exists_getElem?_of_forall₂ hall
            (List.getElem?_eq_getElem hi)
          rw [List.filterMap_cons, List.filterMap_cons, List.getElem?_eq_getElem hi, hy]
          exact collect_cons_eq_ok.2
            ⟨y, _, hf, ih fun j hj => hP j (List.mem_cons_of_mem _ hj), rfl⟩

/-- The projected fields the reader looks up are there. -/
theorem projectedFields_eq {schema : List Field} {P : Projection} (hP : P.Valid schema.length) :
    projectedFields schema P = (P.pick schema).map .ok := by
  cases P with
  | all => rfl
  | leafColumnIndexes indices =>
      simp only [projectedFields, pick]
      induction indices with
      | nil => rfl
      | cons i is ih =>
          have hi : i < schema.length := hP i (List.mem_cons_self ..)
          rw [List.map_cons, List.filterMap_cons, List.getElem?_eq_getElem hi]
          dsimp only
          rw [List.map_cons, ih fun j hj => hP j (List.mem_cons_of_mem _ hj)]
          rfl

end Projection

theorem projectedBytes_eq {env : Env} {P : Projection} {g : RowGroupMetadata}
    (hP : P.Valid g.colMetadatas.length) :
    projectedBytes env P g = .ok ((P.pick g.colMetadatas).map (ColumnMetadata.bytes env)) := by
  cases P with
  | all => rfl
  | leafColumnIndexes indices =>
      simp only [projectedBytes, Projection.pick]
      induction indices with
      | nil => rfl
      | cons i is ih =>
          have hi : i < g.colMetadatas.length := hP i (List.mem_cons_self ..)
          have ih' := ih fun j hj => hP j (List.mem_cons_of_mem _ hj)
          rw [List.filterMap_cons, List.getElem?_eq_getElem hi]
          refine collect_cons_eq_ok.2 ⟨_, _, ?_, ih', rfl⟩
          rw [(index_eq_ok _ _ _).2 (List.getElem?_eq_getElem hi), ok_bind, pure_eq_ok]

/-! ## Flat columns -/

/-- The arrays of a flat column, decoded from its metadata. -/
def decodeColumn (env : Env) (o : DecoderOptions) (selection : Selection)
    (p : Field × Fb.ColumnMetadata) : Result (List ArrayRef) := do
  let chunks ← okOr (.general "No chunks in column meta") p.2.columnChunks
  decodeSelected env (.primitive ⟨o.r, chunks, p.1.dataType, o.wasmContext,
    o.sharedDictionaryCache, o.checksumType⟩) selection

/-- Flat columns are decoded one by one, each from the metadata at its position. -/
theorem decodeCols_flat {env : Env} {o : DecoderOptions} {selection : Selection} :
    ∀ {fields : List Field} {before after : List Fb.ColumnMetadata},
      flatSchema fields = true → o.columnMetas = before ++ after →
        after.length = fields.length →
          decodeCols env o selection (fields.map .ok) before.length =
            collect (decodeColumn env o selection) (fields.zip after)
  | [], _, _, _, _, _ => rfl
  | f :: fs, before, [], _, _, hlen => nomatch hlen
  | f :: fs, before, m :: after, hflat, hmetas, hlen => by
      have hrest := @decodeCols_flat env o selection fs (before ++ [m]) after
        (flatSchema_cons.1 hflat).2 (by rw [hmetas, List.append_assoc]; rfl)
        (Nat.succ.inj hlen)
      rw [List.length_append, List.length_singleton] at hrest
      have hmeta : o.columnMetas[before.length]? = some m := by
        rw [hmetas, List.getElem?_append_right (Nat.le_refl _), Nat.sub_self]
        rfl
      have hcreate : createLogicalDecoder o f before.length = (do
          let chunks ← okOr (.general "No chunks in column meta") m.columnChunks
          pure (.primitive ⟨o.r, chunks, f.dataType, o.wasmContext, o.sharedDictionaryCache,
            o.checksumType⟩, before.length + 1)) := by
        obtain ⟨name, dataType, nullable⟩ := f
        have htype := (flatSchema_cons.1 hflat).1
        cases dataType with
        | prim t =>
            have ht : t.nonNest = true := htype
            simp only [createLogicalDecoder, createLogicalDecoderOf, DecoderOptions.primitive,
              hmeta, unwrapSome, ok_bind, bind_assoc, ht, if_true, pure_eq_ok, Field.dataType]
        | list child => cases htype
        | largeList child => cases htype
        | struct children => cases htype
      rw [List.map_cons, decodeCols, ok_bind, hcreate, List.zip_cons_cons, collect, decodeColumn]
      cases m.columnChunks with
      | none => rfl
      | some chunks =>
          simp only [okOr, ok_bind, pure_eq_ok, hrest]

/-- Decoding the projected columns of a flat row group. -/
theorem decodeCols_pick {env : Env} {o : DecoderOptions} {selection : Selection}
    {schema : List Field} {metas : List Fb.ColumnMetadata} {P : Projection}
    (hflat : flatSchema schema = true) (hlen : metas.length = schema.length)
    (hP : P.Valid schema.length) (hmetas : o.columnMetas = P.pick metas) :
    decodeCols env o selection (projectedFields schema P) 0 =
      collect (decodeColumn env o selection) (P.pick (schema.zip metas)) := by
  have hpick : flatSchema (P.pick schema) = true := by
    rw [flatSchema, List.all_eq_true]
    intro f hf
    exact List.all_eq_true.1 hflat f (Projection.mem_of_mem_pick hf)
  have hsame : (P.pick metas).length = (P.pick schema).length := by
    cases P with
    | all => exact hlen
    | leafColumnIndexes indices =>
        rw [Projection.length_pick_leaf hP hlen, Projection.length_pick_leaf hP rfl]
  rw [Projection.projectedFields_eq hP, Projection.pick_zip hlen.symm hP]
  exact @decodeCols_flat env o selection _ [] _ hpick (by rw [hmetas]; rfl) hsame

/-! ## Reading the file of a finished run -/

/-- The row groups of a written file, as a reader with the projection groups them. -/
def FileWriter.grouped (w : FileWriter) (P : Projection) : List GroupedColumnMetadata :=
  (w.state.rowGroupsTable.rowGroupMetadata.zip w.state.rowGroupsTable.pointers).map fun p =>
    ⟨P.pick (p.1.colMetadatas.map ColumnMetadata.toFb), p.2.1, p.2.2.1, p.2.2.2⟩

/-- The options of the decoders of a file, without the column metadata. -/
def FileReaderV2Builder.decoders (b : FileReaderV2Builder) (sec : Sections)
    (p : PostscriptValues) (cache : SharedDictionaryCache) (metas : List Fb.ColumnMetadata) :
    DecoderOptions :=
  ⟨b.reader, metas, some (b.contextOf sec), cache,
    if b.verifyIoUnitChecksum then some p.toPostScript.checksumType else none⟩

/-- A row group of a flat file: its columns are decoded one by one. -/
def FileReaderV2Builder.readGroup (env : Env) (b : FileReaderV2Builder) (sec : Sections)
    (p : PostscriptValues) (cache : SharedDictionaryCache) (schema : List Field)
    (g : GroupedColumnMetadata × Selection) : Result (List RecordBatch) := do
  let columns ← collect (decodeColumn env (b.decoders sec p cache g.1.columnMetadatas) g.2)
    ((b.projections.pick schema).zip g.1.columnMetadatas)
  assembleBatches schema columns

section Reading

variable {env : Env} {schema : List Field} {options : FileWriterOptions} {cs : List Call}
  {w w₁ : FileWriter} {sec : Sections} {p : PostscriptValues} {f : FileParts}
  {b : FileReaderV2Builder}

/-- The metadata a reader parses is the metadata the writer recorded. -/
theorem tryNewWithProjection_written (laws : env.SerializationLaws) (w : FileWriter)
    (P : Projection) (schema : List Field) :
    Footer.tryNewWithProjection env w.state.rowGroupsTable.pointers
        (w.state.rowGroupsTable.rowGroupMetadata.map fun g =>
          (P.pick g.colMetadatas).map (ColumnMetadata.bytes env)) schema =
      .ok ⟨schema, w.grouped P⟩ := by
  have hroot : ∀ ms : List ColumnMetadata, collect (Footer.rootColumnMetadata env)
      (ms.map (ColumnMetadata.bytes env)) = .ok (ms.map ColumnMetadata.toFb) := by
    intro ms
    refine collect_eq_ok_iff.2 ?_
    rw [List.forall₂_map_left_iff, List.forall₂_map_right_iff, List.forall₂_same]
    intro m _
    rw [Footer.rootColumnMetadata, ColumnMetadata.bytes, laws.columnMetadata m.toFb]
    rfl
  rw [Footer.tryNewWithProjection, List.zip_map_left]
  have hgroups : ∀ ps : List (RowGroupMetadata × Nat × Nat × Nat),
      collect (fun p : List Bytes × Nat × Nat × Nat => do
        let columnMetadatas ← collect (Footer.rootColumnMetadata env) p.1
        pure (⟨columnMetadatas, p.2.1, p.2.2.1, p.2.2.2⟩ : GroupedColumnMetadata))
        (ps.map (Prod.map (fun g : RowGroupMetadata =>
          (P.pick g.colMetadatas).map (ColumnMetadata.bytes env)) id)) =
      .ok (ps.map fun p => ⟨P.pick (p.1.colMetadatas.map ColumnMetadata.toFb), p.2.1, p.2.2.1,
        p.2.2.2⟩) := by
    intro ps
    refine collect_eq_ok_iff.2 ?_
    rw [List.forall₂_map_left_iff, List.forall₂_map_right_iff, List.forall₂_same]
    intro q _
    show (collect (Footer.rootColumnMetadata env)
      ((P.pick q.1.colMetadatas).map (ColumnMetadata.bytes env)) >>= _) = _
    rw [hroot, ok_bind, Projection.pick_map]
    rfl
  rw [hgroups, ok_bind]
  rfl

/-- The row groups a reader groups have a metadata for each projected column. -/
theorem mem_grouped {P : Projection} {g : GroupedColumnMetadata} (hg : g ∈ w.grouped P) :
    ∃ r ∈ w.state.rowGroupsTable.rowGroupMetadata,
      g.columnMetadatas = P.pick (r.colMetadatas.map ColumnMetadata.toFb) := by
  obtain ⟨q, hq, rfl⟩ := List.mem_map.1 hg
  exact ⟨q.1, (List.of_mem_zip hq).1, rfl⟩

theorem mem_selectRows : ∀ {groups : List GroupedColumnMetadata} {startRow : Nat}
    {sorted : List Nat} {q : GroupedColumnMetadata × Selection},
      q ∈ selectRows groups startRow sorted → q.1 ∈ groups
  | [], _, _, _, hq => nomatch hq
  | m :: ms, startRow, sorted, q, hq => by
      rw [selectRows] at hq
      have hhere : ∀ {q : GroupedColumnMetadata × Selection} {c : Bool} {s : Selection},
          q ∈ (if c then [] else [(m, s)]) → q.1 ∈ m :: ms := by
        intro q c s hq
        cases c with
        | true => cases hq
        | false =>
            rw [List.mem_singleton.1 hq]
            exact List.mem_cons_self ..
      split at hq
      · exact hhere hq
      · rcases List.mem_append.1 hq with hq | hq
        · exact hhere hq
        · exact List.mem_cons_of_mem _ (mem_selectRows hq)

/-- A selection keeps row groups of the file. -/
theorem mem_processSelection {selection : Selection} {groups : List GroupedColumnMetadata}
    {q : GroupedColumnMetadata × Selection} (hq : q ∈ processSelection selection groups) :
    q.1 ∈ groups := by
  cases selection with
  | all =>
      obtain ⟨g, hg, rfl⟩ := List.mem_map.1 hq
      exact hg
  | rowIndexes rows =>
      rw [processSelection] at hq
      split at hq
      · cases hq
      · exact mem_selectRows hq

/-- **Reading the file of a finished run of a flat schema.** The dictionaries are
read first; then every selected row group is read, column by column. -/
theorem readFile_written (laws : env.SerializationLaws)
    (h : FinishesWith env schema options cs w w₁ sec p) (hf : Finished env w w₁ sec p f)
    (hflat : flatSchema schema = true) (hb : b.reader = w.file) (hahead : b.readAhead = false)
    (hP : b.projections.Valid schema.length) :
    (do let r ← b.build env; r.readFile env) = (do
      let cache ← unwrap (SharedDictionaryCache.tryNewReadAll env b.reader
        (sec.dictionaryTable env) (some (b.contextOf sec)))
      let batches ← collect (b.readGroup env sec p cache schema)
        (processSelection b.selection (w.grouped b.projections))
      pure batches.flatten) := by
  obtain ⟨hschema, hcols⟩ := h.schema_eq hflat
  have hcount := (h.columns hf).2
  have hbuffers : collect (projectedBytes env b.projections)
      w.state.rowGroupsTable.rowGroupMetadata =
        .ok (w.state.rowGroupsTable.rowGroupMetadata.map fun g =>
          (b.projections.pick g.colMetadatas).map (ColumnMetadata.bytes env)) := by
    refine collect_eq_ok_iff.2 ?_
    rw [List.forall₂_map_right_iff, List.forall₂_same]
    intro g hg
    refine projectedBytes_eq ?_
    rw [hcount g hg, hcols]
    exact hP
  rw [build_eq laws h hf hb fun ha => absurd ha (by rw [hahead]; exact Bool.false_ne_true),
    builtReader, hbuffers, ok_bind, bind_assoc]
  cases unwrap (SharedDictionaryCache.tryNewReadAll env b.reader (sec.dictionaryTable env)
      (some (b.contextOf sec))) with
  | error e => rfl
  | ok cache =>
      simp only [ok_bind, pure_eq_ok]
      rw [FileReaderV2.readFile]
      show (Footer.tryNewWithProjection env w.state.rowGroupsTable.pointers _ w.schema >>= _) = _
      rw [tryNewWithProjection_written laws, ok_bind, FileReaderV2.readFileBasedOnFooter, hschema]
      show (collect _ (processSelection b.selection (w.grouped b.projections)) >>= _) = _
      congr 1
      refine collect_congr fun q hq => ?_
      obtain ⟨r, hr, hmetas⟩ := mem_grouped (mem_processSelection hq)
      have hlen : (r.colMetadatas.map ColumnMetadata.toFb).length = schema.length := by
        rw [List.length_map, hcount r hr, hcols]
      rw [FileReaderV2.readRowGroup, readGroup]
      congr 1
      refine (decodeCols_pick hflat hlen hP hmetas).trans ?_
      rw [Projection.pick_zip hlen.symm hP, hmetas]
      rfl

end Reading

end F3Format
