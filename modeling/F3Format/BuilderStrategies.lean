import F3Format.BuilderRoutes

/-!
# Read-ahead and column-by-column reads

The builder can read the tail of a file ahead, and it reads the column metadata
at once or column by column. On the file of a finished run all strategies give
the same reader, as long as what was read ahead reaches what is sliced out of
it (`strategiesAgree_iff`).
-/

set_option autoImplicit false

namespace F3Format

open Lib FileWriter FileReaderV2Builder

/-- The projection names columns of a schema with `n` physical columns. -/
def Projection.Valid (n : Nat) : Projection → Prop
  | .all => True
  | .leafColumnIndexes indices => ∀ i ∈ indices, i < n

/-- The reading context the builder makes for the file of a finished run. -/
def FileReaderV2Builder.contextOf (b : FileReaderV2Builder) (sec : Sections) :
    WASMReadingContext :=
  match b.wasmRts with
  | some rts => ⟨some rts, none, none, some defaultEncodingVersions.reverse⟩
  | none => ⟨none, some ⟨sec.wasmMetaStart, u32 sec.wasmMetaSize, .uncompressed⟩, some b.reader,
      some defaultEncodingVersions.reverse⟩

/-- The dictionary table of a footer. -/
def FileWriter.Sections.dictionaryTable (env : Env) (sec : Sections) : Fb.SharedDictionaryTable :=
  SharedDictionaryTable.toFb env
    ⟨sec.dictChunks.flatten, sec.dictPositions.map fun ids => ids.map u32, sec.dictDtypes⟩

/-- The metadata buffers of the projected columns of a row group. -/
def projectedBytes (env : Env) (projections : Projection) (g : RowGroupMetadata) :
    Result (List Bytes) :=
  match projections with
  | .all => .ok (g.colMetadatas.map (ColumnMetadata.bytes env))
  | .leafColumnIndexes indices => collect (fun i => do
      let m ← index g.colMetadatas i
      pure (m.bytes env)) indices

section Steps

variable {env : Env} {schema : List Field} {options : FileWriterOptions} {cs : List Call} {w w₁ : FileWriter} {sec : Sections} {p : PostscriptValues} {f : FileParts}
  {b : FileReaderV2Builder}

theorem checkFile_eq (h : Finished env w w₁ sec p f) (hb : b.reader = w.file) :
    b.checkFile env p.toPostScript = .ok () := by
  have hlen := h.ends.length_eq
  have hm := h.ends.metadataSize
  unfold checkFile
  split
  · have hsub : checkedSub b.reader.length postscriptSize =
        .ok (f.data ++ f.metadata ++ f.footer).length := by
      rw [hb]
      refine (checkedSub_eq_ok _ _ _).2 ⟨by omega, ?_⟩
      simp only [List.length_append]
      omega
    have hholds : HoldsAt b.reader 0 (f.data ++ f.metadata ++ f.footer) := by
      rw [hb]
      exact ⟨[], f.postscript, by simp [h.ends.eq], rfl⟩
    rw [hsub, ok_bind, reads_readExactAt _ _ _ hholds, ok_bind]
    exact if_neg (not_not_intro h.checksum)
  · rfl

/-- The footer is opened, if the read-ahead accepts its size. -/
theorem openFooter_eq (laws : env.SerializationLaws) (h : Finished env w w₁ sec p f)
    (hb : b.reader = w.file)
    (hsmall : b.readAhead = true → p.footerSize < defaultIounitSize - 32) :
    b.openFooter env b.window = .ok (p.toPostScript, w.parsedFooter env sec) := by
  have hends : Ends b.reader f.data f p := by
    rw [hb]
    exact h.ends
  have hroot : parseRoot "Unable to get root as footer" (env.footerFb.root f.footer) =
      .ok (footerTable env w w.state sec) := by
    rw [h.footer, laws.footer]
    rfl
  rw [openFooter, postscript_eq hends, ok_bind, checkFile_eq h hb, ok_bind,
    footerBytes_eq hends hsmall, ok_bind, hroot, ok_bind, parseFooter_footerTable laws w sec,
    ok_bind, pure_eq_ok]

theorem openFooter_large (h : Finished env w w₁ sec p f) (hb : b.reader = w.file)
    (hahead : b.readAhead = true) (hlarge : ¬ p.footerSize < defaultIounitSize - 32)
    (out : PostScript × ParsedFooter) : b.openFooter env b.window ≠ .ok out := by
  have hends : Ends b.reader f.data f p := by
    rw [hb]
    exact h.ends
  intro hopen
  rw [openFooter, postscript_eq hends, ok_bind, checkFile_eq h hb, ok_bind, bind_eq_ok] at hopen
  obtain ⟨bytes, hbytes, -⟩ := hopen
  exact footerBytes_large hahead hlarge bytes hbytes

/-- A column's metadata by either branch. -/
theorem columnMetadataBuffer_eq (h : Finished env w w₁ sec p f) (hb : b.reader = w.file)
    {all : Option Bytes} (hall : ∀ buf, all = some buf → buf = f.metadata) {s : MetadataSection}
    {bytes : Bytes} (hs : SectionOf f.data.length (f.data ++ f.metadata) bytes s)
    (hfit : bytes.length < 2 ^ 32) :
    b.columnMetadataBuffer p.toPostScript all s.toFb = .ok bytes := by
  unfold columnMetadataBuffer
  cases all with
  | none =>
      show readSection b.reader s.toFb = _
      rw [hb]
      exact readSection_eq h.ends hs hfit
  | some buf =>
      rw [hall buf rfl, hb]
      exact bulkSlice_eq h.ends hs hfit

/-- The buffers of a row group by either branch. -/
theorem rowGroupBuffers_eq (h : Finished env w w₁ sec p f) (hb : b.reader = w.file)
    {all : Option Bytes} (hall : ∀ buf, all = some buf → buf = f.metadata) {g : RowGroupMetadata}
    {i : IndirectRowGroupMetadata}
    (hg : List.Forall₂ (fun m s => SectionOf f.data.length (f.data ++ f.metadata) (m.bytes env) s ∧
      (m.bytes env).length < 2 ^ 32) g.colMetadatas i.colMetadatas) :
    b.rowGroupBuffers p.toPostScript all i.toFb = projectedBytes env b.projections g := by
  have hcolumn : ∀ {m : ColumnMetadata} {s : MetadataSection}, (SectionOf f.data.length (f.data ++ f.metadata) (m.bytes env) s ∧
      (m.bytes env).length < 2 ^ 32) →
        b.columnMetadataBuffer p.toPostScript all s.toFb = .ok (m.bytes env) :=
    fun hs => columnMetadataBuffer_eq h hb hall hs.1 hs.2
  unfold rowGroupBuffers columnMetaPtrs projectedBytes
  cases b.projections with
  | all =>
      show collect (b.columnMetadataBuffer p.toPostScript all)
        (i.colMetadatas.map MetadataSection.toFb) = _
      refine collect_eq_ok_iff.2 ?_
      rw [List.forall₂_map_left_iff, List.forall₂_map_right_iff]
      exact hg.flip.imp fun s m hs => hcolumn hs
  | leafColumnIndexes indices =>
      -- the sections are collected first, then their bytes
      have hindex : ∀ x, index (i.colMetadatas.map MetadataSection.toFb) x =
          (index i.colMetadatas x >>= fun s => .ok s.toFb) := by
        intro x
        unfold index
        rw [List.getElem?_map]
        cases i.colMetadatas[x]? with
        | none => rfl
        | some s => rfl
      have hmem : ∀ (x : Nat) (s : MetadataSection), i.colMetadatas[x]? = some s →
          ∃ m : ColumnMetadata, g.colMetadatas[x]? = some m ∧
            b.columnMetadataBuffer p.toPostScript all s.toFb = .ok (m.bytes env) := by
        intro x s hs
        obtain ⟨m, hm, hsection⟩ := exists_getElem?_of_forall₂ hg.flip hs
        exact ⟨m, hm, hcolumn hsection⟩
      show (collect (fun x => index (i.colMetadatas.map MetadataSection.toFb) x) indices >>=
        collect (b.columnMetadataBuffer p.toPostScript all)) = _
      rw [collect_bind_collect]
      · apply collect_congr
        intro x _
        rw [hindex]
        unfold index
        cases hs : i.colMetadatas[x]? with
        | none =>
            have hm : g.colMetadatas[x]? = none := by
              rw [List.getElem?_eq_none_iff] at hs ⊢
              rw [hg.length_eq]
              exact hs
            rw [hm]
            rfl
        | some s =>
            obtain ⟨m, hm, hbytes⟩ := hmem x s hs
            rw [hm, ok_bind, ok_bind, ok_bind, hbytes]
            rfl
      · intro x s hs
        rw [hindex, bind_eq_ok] at hs
        obtain ⟨s', hs', hs⟩ := hs
        cases hs
        obtain ⟨m, -, hbytes⟩ := hmem x s' ((index_eq_ok _ _ _).1 hs')
        exact ⟨_, hbytes⟩

theorem wasmContext_eq (w : FileWriter) :
    b.wasmContext (w.parsedFooter env sec) = .ok (some (b.contextOf sec)) := by
  unfold FileReaderV2Builder.wasmContext contextOf
  cases b.wasmRts with
  | some rts => rfl
  | none => rfl

theorem dictionaryCache_eq (w : FileWriter) :
    b.dictionaryCache env (w.parsedFooter env sec) (some (b.contextOf sec)) =
      (do
        let cache ← unwrap (SharedDictionaryCache.tryNewReadAll env b.reader
          (sec.dictionaryTable env) (some (b.contextOf sec)))
        pure (some cache)) := rfl

/-- There is a row group, and each has one metadata for each physical column. -/
theorem FileWriter.FinishesWith.columns (h : FinishesWith env schema options cs w w₁ sec p)
    (hf : Finished env w w₁ sec p f) :
    w.state.rowGroupsTable.rowGroupMetadata ≠ [] ∧
      ∀ g ∈ w.state.rowGroupsTable.rowGroupMetadata,
        g.colMetadatas.length = w.state.numPhysicalColumns := by
  obtain ⟨hsound, hne⟩ := h.sound
  obtain ⟨sections, htable, -⟩ := hf.written.sections
  have hgroups : w.state.rowGroupsTable.rowGroupMetadata =
      w₁.state.rowGroupsTable.rowGroupMetadata := by
    rw [htable]
  rw [hgroups, hf.written.numPhysicalColumns]
  exact ⟨hne, hsound.groups⟩

/-- The number of columns of the first row group. -/
theorem totalColumns_eq (h : FinishesWith env schema options cs w w₁ sec p)
    (hf : Finished env w w₁ sec p f) :
    totalColumns (w.parsedFooter env sec).rowGroups = .ok w.state.numPhysicalColumns := by
  obtain ⟨hne, hcount⟩ := h.columns hf
  have hrel := hf.sections
  show (index (w.state.rowGroupsTable.indirectRowGroupMetadata.map
    IndirectRowGroupMetadata.toFb) 0 >>= _) = _
  generalize w.state.rowGroupsTable.indirectRowGroupMetadata = indirect at hrel ⊢
  generalize w.state.rowGroupsTable.rowGroupMetadata = groups at hrel hne hcount
  cases hrel with
  | nil => exact absurd rfl hne
  | @cons g i _ _ hhead _ =>
      have hlen : i.colMetadatas.length = w.state.numPhysicalColumns := by
        rw [← hhead.length_eq]
        exact hcount g (by simp)
      show Except.ok (i.colMetadatas.map MetadataSection.toFb).length = _
      rw [List.length_map, hlen]

/-- What the builder does after it has opened the footer, without its I/O. -/
def builtReader (env : Env) (w : FileWriter) (sec : Sections) (p : PostscriptValues)
    (b : FileReaderV2Builder) : Result FileReaderV2 := do
  let buffers ← collect (projectedBytes env b.projections)
    w.state.rowGroupsTable.rowGroupMetadata
  let cache ← unwrap (SharedDictionaryCache.tryNewReadAll env b.reader
    (sec.dictionaryTable env) (some (b.contextOf sec)))
  pure {
    reader := b.reader
    schema := w.schema
    projections := b.projections
    selection := b.selection
    groupedColumnMetadataBuffers := buffers
    rowGroupCntNPointers := w.state.rowGroupsTable.rowCounts.zip
      (w.state.rowGroupsTable.offsets.zip w.state.rowGroupsTable.sizes)
    wasmContext := some (b.contextOf sec)
    sharedDictionaryCache := some cache
    checksumType := if b.verifyIoUnitChecksum then some p.toPostScript.checksumType else none }

/-- What was read ahead holds the footer, and the metadata if it is read at once. -/
structure ReadAheadFits (p : PostscriptValues) (projections : Projection) (n : Nat) : Prop where
  footer : p.footerSize < defaultIounitSize - 32
  metadata : readsAllMetadata projections n = true →
    p.metadataSize + postscriptSize ≤ defaultIounitSize

/-- With and without read-ahead the builder makes the same reader. -/
theorem build_eq (laws : env.SerializationLaws)
    (h : FinishesWith env schema options cs w w₁ sec p) (hf : Finished env w w₁ sec p f)
    (hb : b.reader = w.file)
    (hfits : b.readAhead = true → ReadAheadFits p b.projections w.state.numPhysicalColumns) :
    b.build env = builtReader env w sec p b := by
  have hends : Ends b.reader f.data f p := by
    rw [hb]
    exact hf.ends
  obtain ⟨all, hall, hbulk⟩ : ∃ all,
      b.allMetadataBuffer b.window p.toPostScript w.state.numPhysicalColumns = .ok all ∧
        ∀ buf, all = some buf → buf = f.metadata := by
    unfold allMetadataBuffer
    split
    · next hreads =>
        rw [bulkBuffer_eq hends fun hahead => (hfits hahead).metadata hreads]
        exact ⟨some f.metadata, rfl, by rintro _ ⟨⟩; rfl⟩
    · exact ⟨none, rfl, by rintro _ ⟨⟩⟩
  have hbuffers : collect (b.rowGroupBuffers p.toPostScript all)
      (w.state.rowGroupsTable.indirectRowGroupMetadata.map IndirectRowGroupMetadata.toFb) =
        collect (projectedBytes env b.projections) w.state.rowGroupsTable.rowGroupMetadata := by
    apply collect_congr₂
    rw [List.forall₂_map_left_iff]
    exact hf.sections.flip.imp fun i g hg => rowGroupBuffers_eq hf hb hbulk hg
  rw [build, readAheadBuffer_eq, ok_bind, openFooter_eq laws hf hb fun h => (hfits h).footer,
    ok_bind]
  dsimp only
  rw [totalColumns_eq h hf, ok_bind]
  show (b.allMetadataBuffer b.window p.toPostScript w.state.numPhysicalColumns >>= _) = _
  rw [hall, ok_bind]
  show (collect (b.rowGroupBuffers p.toPostScript all) _ >>= _) = _
  rw [hbuffers, builtReader]
  cases collect (projectedBytes env b.projections) w.state.rowGroupsTable.rowGroupMetadata with
  | error e => rfl
  | ok buffers =>
      rw [ok_bind, ok_bind, wasmContext_eq, ok_bind, dictionaryCache_eq]
      cases unwrap (SharedDictionaryCache.tryNewReadAll env b.reader (sec.dictionaryTable env)
          (some (b.contextOf sec))) with
      | error e => rfl
      | ok cache => rfl

theorem projectedBytes_eq_ok {projections : Projection} {g : RowGroupMetadata} :
    (∃ bytes, projectedBytes env projections g = .ok bytes) ↔
      projections.Valid g.colMetadatas.length := by
  cases projections with
  | all => exact ⟨fun _ => trivial, fun _ => ⟨_, rfl⟩⟩
  | leafColumnIndexes indices =>
      have hone : ∀ i, (∃ bytes, (index g.colMetadatas i >>= fun m => pure (m.bytes env)) =
          .ok bytes) ↔ i < g.colMetadatas.length := by
        intro i
        simp only [bind_eq_ok, index_eq_ok, pure_eq_ok, Except.ok.injEq]
        constructor
        · rintro ⟨_, m, hm, -⟩
          exact (List.getElem?_eq_some_iff.1 hm).1
        · intro hi
          exact ⟨_, _, List.getElem?_eq_getElem hi, rfl⟩
      constructor
      · rintro ⟨bytes, hbytes⟩ i hi
        obtain ⟨j, hj⟩ := exists_of_collect_ok hbytes hi
        exact (hone i).1 ⟨j, hj⟩
      · intro hvalid
        exact collect_ok_of_forall fun i hi => (hone i).2 (hvalid i hi)

/-- The reader is built exactly when the projection is valid and the shared
dictionaries can be read. -/
theorem builtReader_eq_ok (h : FinishesWith env schema options cs w w₁ sec p)
    (hf : Finished env w w₁ sec p f) :
    (∃ r, builtReader env w sec p b = .ok r) ↔
      b.projections.Valid w.state.numPhysicalColumns ∧
        ∃ cache, SharedDictionaryCache.tryNewReadAll env b.reader (sec.dictionaryTable env)
          (some (b.contextOf sec)) = .ok cache := by
  have hgroups := h.columns hf
  have hvalid : (∃ buffers, collect (projectedBytes env b.projections)
      w.state.rowGroupsTable.rowGroupMetadata = .ok buffers) ↔
        b.projections.Valid w.state.numPhysicalColumns := by
    constructor
    · rintro ⟨buffers, hbuffers⟩
      obtain ⟨g, hg⟩ := List.exists_mem_of_ne_nil _ hgroups.1
      rw [← hgroups.2 g hg]
      exact projectedBytes_eq_ok.1 (exists_of_collect_ok hbuffers hg)
    · intro hvalid
      apply collect_ok_of_forall
      intro g hg
      rw [← hgroups.2 g hg] at hvalid
      exact projectedBytes_eq_ok.2 hvalid
  rw [← hvalid]
  constructor
  · rintro ⟨r, hr⟩
    simp only [builtReader, bind_eq_ok, unwrap_eq_ok] at hr
    obtain ⟨buffers, hbuffers, cache, hcache, -⟩ := hr
    exact ⟨⟨buffers, hbuffers⟩, cache, hcache⟩
  · rintro ⟨⟨buffers, hbuffers⟩, cache, hcache⟩
    unfold builtReader
    rw [hbuffers, ok_bind, hcache, unwrap, ok_bind]
    exact ⟨_, rfl⟩

/-- All strategies succeed and agree: the reader, the footer, and the buffers of
the two branches. -/
structure StrategiesAgree (env : Env) (b : FileReaderV2Builder) : Prop where
  reader : ∃ r, ∀ ahead, (b.withReadAhead ahead).build env = .ok r
  footer : ∃ ps parsed groups, parsed.rowGroups.rowGroupMetadatas = some groups ∧
    ∀ ahead, ∃ buffer, (b.withReadAhead ahead).readAheadBuffer = .ok buffer ∧
      (b.withReadAhead ahead).openFooter env buffer = .ok (ps, parsed) ∧
      ∀ buf, (b.withReadAhead ahead).bulkBuffer buffer ps = .ok buf → ∀ g ∈ groups,
        (b.withReadAhead ahead).rowGroupBuffers ps (some buf) g =
          (b.withReadAhead ahead).rowGroupBuffers ps none g

theorem readAheadFits_of_build (laws : env.SerializationLaws)
    (h : FinishesWith env schema options cs w w₁ sec p) (hf : Finished env w w₁ sec p f)
    (hb : b.reader = w.file) (hahead : b.readAhead = true) {r : FileReaderV2}
    (hbuild : b.build env = .ok r) :
    ReadAheadFits p b.projections w.state.numPhysicalColumns := by
  have hends : Ends b.reader f.data f p := by
    rw [hb]
    exact hf.ends
  rw [build, readAheadBuffer_eq, ok_bind, bind_eq_ok] at hbuild
  obtain ⟨out, hopen, hrest⟩ := hbuild
  have hfooter : p.footerSize < defaultIounitSize - 32 := by
    by_contra hlarge
    exact openFooter_large hf hb hahead hlarge out hopen
  rw [openFooter_eq laws hf hb fun _ => hfooter] at hopen
  cases hopen
  refine ⟨hfooter, fun hreads => ?_⟩
  by_contra hlarge
  dsimp only at hrest
  rw [totalColumns_eq h hf, ok_bind, bind_eq_ok] at hrest
  obtain ⟨pointers, -, hrest⟩ := hrest
  rw [bind_eq_ok] at hrest
  obtain ⟨all, hall, -⟩ := hrest
  rw [allMetadataBuffer, if_pos hreads, bind_eq_ok] at hall
  obtain ⟨buf, hbuf, -⟩ := hall
  exact bulkBuffer_large hends hahead hlarge buf hbuf

/-- On the file of a finished run, all strategies succeed and agree exactly when
what is read ahead holds the footer and the metadata, the projection is valid
and the shared dictionaries can be read. -/
theorem strategiesAgree_iff (laws : env.SerializationLaws)
    (h : FinishesWith env schema options cs w w₁ sec p) (hfit : w.Fits)
    (hb : b.reader = w.file) :
    StrategiesAgree env b ↔
      ReadAheadFits p b.projections w.state.numPhysicalColumns ∧
        b.projections.Valid w.state.numPhysicalColumns ∧
        ∃ cache, SharedDictionaryCache.tryNewReadAll env b.reader (sec.dictionaryTable env)
          (some (b.contextOf sec)) = .ok cache := by
  obtain ⟨f, hf⟩ := h.finished hfit
  constructor
  · rintro ⟨⟨r, hr⟩, -⟩
    have hfits := readAheadFits_of_build (b := b.withReadAhead true) laws h hf hb rfl (hr true)
    have hbuilt := hr true
    rw [build_eq (b := b.withReadAhead true) laws h hf hb fun _ => hfits] at hbuilt
    exact ⟨hfits, (builtReader_eq_ok (b := b.withReadAhead true) h hf).1 ⟨r, hbuilt⟩⟩
  · rintro ⟨hfits, hrest⟩
    obtain ⟨r, hr⟩ := (builtReader_eq_ok (b := b) h hf).2 hrest
    constructor
    · refine ⟨r, fun ahead => ?_⟩
      rw [build_eq (b := b.withReadAhead ahead) laws h hf hb fun _ => hfits]
      exact hr
    · refine ⟨p.toPostScript, w.parsedFooter env sec, _, rfl, fun ahead => ?_⟩
      have hends : Ends (b.withReadAhead ahead).reader f.data f p := by
        show Ends b.reader f.data f p
        rw [hb]
        exact hf.ends
      refine ⟨(b.withReadAhead ahead).window, readAheadBuffer_eq _,
        openFooter_eq laws hf hb fun _ => hfits.footer, ?_⟩
      intro buf hbuf g hg
      have hbulk : ∀ buf', some buf = some buf' → buf' = f.metadata := by
        rintro _ ⟨⟩
        by_cases hin : p.metadataSize + postscriptSize ≤ defaultIounitSize
        · rw [bulkBuffer_eq hends fun _ => hin] at hbuf
          cases hbuf
          rfl
        · cases ahead with
          | false =>
              rw [bulkBuffer_eq hends fun hfalse => by cases hfalse] at hbuf
              cases hbuf
              rfl
          | true => exact absurd hbuf (bulkBuffer_large hends rfl hin buf)
      obtain ⟨i, hi, rfl⟩ := List.mem_map.1 hg
      obtain ⟨n, hn⟩ := List.mem_iff_getElem?.1 hi
      obtain ⟨group, -, hgroup⟩ := exists_getElem?_of_forall₂ hf.sections.flip hn
      have hreader : (b.withReadAhead ahead).reader = w.file := hb
      rw [rowGroupBuffers_eq hf hreader hbulk hgroup,
        rowGroupBuffers_eq hf hreader (by rintro _ ⟨⟩) hgroup]

end Steps

/-- An integer column, read without read-ahead and with it. -/
theorem strategiesAgree_iff_sample : ∃ w w₁ sec p,
    FinishesWith Sample.env Sample.schema .default [.writeBatch Sample.batch] w w₁ sec p ∧
      (StrategiesAgree Sample.env (.new w.file) ↔
        ReadAheadFits p .all w.state.numPhysicalColumns ∧
          Projection.Valid w.state.numPhysicalColumns .all ∧
          ∃ cache, SharedDictionaryCache.tryNewReadAll Sample.env w.file
            (sec.dictionaryTable Sample.env)
            (some ((FileReaderV2Builder.new w.file).contextOf sec)) = .ok cache) := by
  obtain ⟨w, hw, hfit⟩ := exists_of_runFits Sample.runFits
  obtain ⟨w₁, sec, p, h⟩ := finishes_iff.1 hw
  exact ⟨w, w₁, sec, p, h, strategiesAgree_iff Sample.serializationLaws h hfit rfl⟩

/-! ### A footer that is not read ahead -/

namespace Sample

/-- A column name of `n` letters. -/
def longName (n : Nat) : String := String.ofList (List.replicate n 'a')

/-- A schema with one column of that name. -/
def longSchema (n : Nat) : List Field := [.mk (longName n) (.prim .int32) true]

theorem length_letters (n : Nat) :
    (List.flatMap Codec.nat.put (List.replicate n 97)).length = n := by
  induction n with
  | zero => rfl
  | succ n ih =>
      rw [List.replicate_succ, List.flatMap_cons, List.length_append, ih]
      show 1 + n = n + 1
      omega

theorem length_longName (n : Nat) :
    (Codec.string.put (longName n)).length = (Codec.nat.put n).length + n := by
  have hchars : (longName n).toList.map Char.toNat = List.replicate n 97 := by
    rw [longName, String.toList_ofList, List.map_replicate]
    rfl
  show ((Codec.list Codec.nat).put ((longName n).toList.map Char.toNat)).length = _
  rw [hchars]
  show (Codec.nat.put (List.replicate n 97).length ++
    List.flatMap Codec.nat.put (List.replicate n 97)).length = _
  rw [List.length_append, length_letters, List.length_replicate]

theorem length_schema (name : String) :
    (env.ipcSchema.build [.mk name (.prim .int32) true]).length =
      (Codec.string.put name).length + 9 := by
  show (Codec.nat.put 1 ++ ((Codec.nat.put 1 ++ (((Codec.string.put name ++ [1]) ++ [0, 4, 0, 0, 0])
    ++ (Codec.nat.put 0 ++ []))) ++ [])).length = _
  simp [Codec.nat, Codec.putDigits]

/-- The footer of a file without batches, apart from its schema. -/
def emptyFooter : Fb.Footer :=
  ⟨none, some (.mk .struct [.mk .flat []]),
    some ⟨some [0], some [0], some [0], some [⟨some [⟨2, 2, .uncompressed⟩]⟩]⟩,
    some ⟨some ["WASMBinaries"], some [0], some [2], some [.uncompressed]⟩,
    some ⟨some [], some [], some [0]⟩,
    some (createDefaultEncodingVersions.map EncodingVersion.toFb)⟩

theorem length_footer {t : Fb.Footer} {schema : Bytes} (h : t.schema = some schema) :
    (footerCodec.put t).length = (Codec.byte.list.put schema).length +
      (footerCodec.put { t with schema := none }).length := by
  obtain ⟨_, tree, groups, sections, dicts, versions⟩ := t
  cases h
  show ((((1 :: Codec.byte.list.put schema) ++ logicalCodec.option.put tree) ++ (_ ++ _)) ++
    (_ ++ _)).length = _ + (((([0] ++ logicalCodec.option.put tree) ++ (_ ++ _)) ++
      (_ ++ _)) : Bytes).length
  simp only [List.length_append, List.length_cons, List.length_nil]
  omega

theorem length_bytes (b : Bytes) :
    (Codec.byte.list.put b).length = (Codec.nat.put b.length).length + b.length := by
  have hflat : List.flatMap Codec.byte.put b = b := List.flatMap_singleton' b
  show (Codec.nat.put b.length ++ List.flatMap Codec.byte.put b).length = _
  rw [hflat, List.length_append]

/-- A file without batches, for any column name: what it narrows, and its footer. -/
theorem run_of_name (name : String) : ∃ (w : FileWriter) (footer : Bytes),
    FileWriter.run env [.mk name (.prim .int32) true] .default [] = .ok w ∧
      w.schema = [.mk name (.prim .int32) true] ∧
      w.state.narrowed = [0, 2, 2, 0, footer.length + 2, footer.length] ∧
      footer = footerCodec.put { emptyFooter with
        schema := some (env.ipcSchema.build [.mk name (.prim .int32) true]) } :=
  ⟨_, _, rfl, rfl, rfl, rfl⟩

/-- With a name of `n` letters, `n` large, the footer is not read ahead. -/
theorem longName_not_agree {n : Nat} (hlow : 8 * 1024 * 1024 ≤ n) (hhigh : n < 2 ^ 28) :
    ∃ w, Finishes env (longSchema n) .default [] w ∧ w.Fits ∧
      ¬ StrategiesAgree env (.new w.file) := by
  obtain ⟨w, footer, hrun, hschema, hnarrowed, hfooter⟩ := run_of_name (longName n)
  have hw : Finishes env (longSchema n) .default [] w := finishes_of_run hrun
  have hlen : ∀ t : Fb.Footer,
      t.schema = some (env.ipcSchema.build [.mk (longName n) (.prim .int32) true]) →
        8 * 1024 * 1024 ≤ (footerCodec.put t).length := by
    intro t ht
    rw [length_footer ht, length_bytes, length_schema, length_longName]
    omega
  have hfit : w.Fits := by
    have hempty : (footerCodec.put { emptyFooter with schema := none }).length = 71 := by
      decide +kernel
    have hsmall : footer.length < 2 ^ 31 := by
      have hname := Codec.length_putDigits_le n n
      have hput : (Codec.nat.put n).length ≤ n + 1 := hname
      have hbytes : ∀ m : Nat, (Codec.nat.put m).length ≤ m + 1 :=
        fun m => Codec.length_putDigits_le m m
      have hschema' := hbytes (env.ipcSchema.build [.mk (longName n) (.prim .int32) true]).length
      rw [hfooter, length_footer rfl, hempty, length_bytes]
      rw [length_schema, length_longName] at *
      omega
    intro v hv
    rw [hnarrowed] at hv
    simp only [List.mem_cons, List.not_mem_nil, or_false] at hv
    omega
  refine ⟨w, hw, hfit, fun hagree => ?_⟩
  obtain ⟨w₁, sec, p, h⟩ := finishes_iff.1 hw
  obtain ⟨f, hf⟩ := h.finished hfit
  obtain ⟨r, hr⟩ := hagree.reader
  have hfits := readAheadFits_of_build (b := (FileReaderV2Builder.new w.file).withReadAhead true)
    serializationLaws h hf rfl rfl (hr true)
  have hsize := hfits.footer
  have hlarge : 8 * 1024 * 1024 ≤ f.footer.length := by
    rw [hf.footer]
    apply hlen
    show some (env.ipcSchema.build w.schema) = _
    rw [hschema]
  rw [hf.ends.footerSize] at hsize
  have hwindow : defaultIounitSize = 8 * 1024 * 1024 := rfl
  omega

end Sample

/-- A column name of 8 Mi letters makes the footer larger than what is read ahead. -/
theorem long_footer_not_agree : ∃ w,
    Finishes Sample.env (Sample.longSchema (8 * 1024 * 1024)) .default [] w ∧ w.Fits ∧
      ¬ StrategiesAgree Sample.env (.new w.file) :=
  Sample.longName_not_agree (Nat.le_refl _) (by omega)

end F3Format
