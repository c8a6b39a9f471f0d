import F3Format.Checksums
import F3Format.DictionarySharing
import F3Format.IndexWidths
import F3Format.WrittenFiles

/-!
# Sharing statistics of a written file

The dictionaries a chunk of a written file refers to are in its table, and the
chunks of the table are in the file, so the walk of `get_shared_dict_sizes` only
fails where there are more columns than fields. A column comes to a chunk twice if
two of its own dictionaries are merged (`sharedDictSizes_exact_iff`).
-/

set_option autoImplicit false

namespace F3Format

open Lib FileWriter

/-! ## The dictionaries of the chunks -/

/-- The dictionaries that chunks carry, recorded or still to be flushed, exist. -/
structure Point.Labelled (p : Point) : Prop where
  pending : ∀ c ∈ p.pending, ∀ idx, c.dictEncoding = .sharedDictionary idx →
    idx < p.ctx.dictionaries.length
  records : ∀ c ∈ p.state.records, ∀ idx, c.encoding = .sharedDictionary idx →
    idx < p.ctx.dictionaries.length

section Steps

variable {env : Env} {P : CallEvent → Prop} {a b : Point}

/-- **Every step keeps the chunks labelled.** -/
theorem Point.Labelled.step (h : a.Labelled) (hsound : a.Sound) (hstep : Step env P a b)
    (hfit : b.ctx.dictionaries.length < 2 ^ 32) : b.Labelled := by
  have hle := hstep.length_le
  have hpending : ∀ c ∈ a.pending, ∀ idx, c.dictEncoding = .sharedDictionary idx →
      idx < b.ctx.dictionaries.length := fun c hc idx hidx =>
    Nat.lt_of_lt_of_le (h.pending c hc idx hidx) hle
  have hrecords : ∀ c ∈ a.state.records, ∀ idx, c.encoding = .sharedDictionary idx →
      idx < b.ctx.dictionaries.length := fun c hc idx hidx =>
    Nat.lt_of_lt_of_le (h.records c hc idx hidx) hle
  cases hstep with
  | @call pre post pending s e hruns _ _ =>
      obtain ⟨heffect, -, -⟩ := hsound.effect hruns (Nat.lt_of_le_of_lt hle hfit)
      refine ⟨List.forall_mem_append.2 ⟨hpending, ?_⟩, hrecords⟩
      intro c hc idx hidx
      obtain ⟨chunk, hchunk, rfl⟩ := List.mem_map.1 hc
      exact heffect.labels_lt hchunk hidx
  | submitDict _ _ _ => exact ⟨hpending, hrecords⟩
  | mergeDicts _ _ => exact ⟨hpending, hrecords⟩
  | @flushChunk ls c pending s s' ctx hrun =>
      obtain ⟨m, hm, rfl⟩ := FileWriteState.flushChunk_eq_ok.1 hrun
      obtain ⟨hc, hrest⟩ := List.forall_mem_cons.1 hpending
      refine ⟨hrest, fun r hr idx hidx => ?_⟩
      rcases FileWriteState.mem_records_of_flush hr hm rfl rfl with hold | rfl
      · exact hrecords r hold idx hidx
      · exact hc idx hidx
  | addRows n => exact ⟨hpending, hrecords⟩
  | finishRowGroup =>
      exact ⟨hpending, fun c hc => hrecords c (FileWriteState.mem_records_of_finishRowGroup hc)⟩

theorem Point.Labelled.steps (h : a.Labelled) (hsound : a.Sound) (hsteps : Steps env P a b)
    (hfit : b.ctx.dictionaries.length < 2 ^ 32) : b.Labelled := by
  induction hsteps with
  | refl => exact h
  | tail hsteps hstep ih =>
      have hfit' := Nat.lt_of_le_of_lt hstep.length_le hfit
      exact (ih hfit').step (hsound.steps hsteps hfit') hstep hfit

end Steps

theorem FileWriter.labelled_tryNew {env : Env} {schema : List Field} {options : FileWriterOptions}
    {w : FileWriter} (h : tryNew env schema options = .ok w) : w.point.Labelled := by
  simp only [tryNew, bind_eq_ok, pure_eq_ok, Except.ok.injEq] at h
  obtain ⟨r, -, rfl⟩ := h
  refine ⟨fun c hc => absurd hc List.not_mem_nil, fun c hc => ?_⟩
  obtain ⟨m, hm, hc⟩ := List.mem_flatMap.1 hc
  rcases List.mem_append.1 hm with hempty | hgroup
  · rw [show m = ColumnMetadata.empty from List.eq_of_mem_replicate hempty] at hc
    cases hc
  · cases hgroup

/-! ## The table -/

section Table

variable {env : Env} {ctx : SharedDictionaryContext} {w : WASMWritingContext} {file : Bytes}
  {sec : FileWriter.Sections} {css : List (List EncodedColumnChunk)} {peers : List (Option Nat)}

/-- A dictionary does not have a chunk twice. -/
theorem SharedDictionaryContext.StoredIn.nodup_ids (h : ctx.StoredIn env w file sec css peers)
    (hm : ctx.Matched) (i : Nat) (hi : i < ctx.dictionaries.length) :
    (FileWriter.idsOf css peers i).Nodup := by
  have hown : ((List.range ((css[i]?).getD []).length).map fun k =>
      FileWriter.startOf css i + k).Nodup :=
    List.Nodup.map (fun _ _ heq => Nat.add_left_cancel heq) List.nodup_range
  rw [FileWriter.idsOf]
  cases hpeer : (peers[i]?).join with
  | none => exact hown
  | some peer =>
      obtain ⟨l, hres, hlt⟩ := SharedDictionaryContext.peer_flushed h.flushed hpeer
      obtain ⟨hne, -⟩ := hm i peer l hres
      obtain ⟨c, cs, hcs, -⟩ := SharedDictionaryContext.first_chunk hm h.flushed hres hlt
        (List.getElem?_eq_getElem hi)
      -- the first chunk of the peer lies in front of the own ones
      have hbefore : FileWriter.startOf css peer < FileWriter.startOf css i := by
        obtain ⟨hp, hget⟩ := List.getElem?_eq_some_iff.1 hcs
        have hsucc : FileWriter.startOf css (peer + 1) =
            FileWriter.startOf css peer + (c :: cs).length := by
          rw [FileWriter.startOf, FileWriter.startOf, List.take_add_one, hcs, Option.toList_some,
            List.flatten_append, List.length_append, List.flatten_singleton]
        have hle : FileWriter.startOf css (peer + 1) ≤ FileWriter.startOf css i :=
          (List.Sublist.flatten (List.take_sublist_take_left (by omega))).length_le
        rw [hsucc, List.length_cons] at hle
        omega
      refine List.nodup_cons.2 ⟨fun hmem => ?_, hown⟩
      obtain ⟨k, -, hk⟩ := List.mem_map.1 hmem
      omega

end Table

/-! ## The references in a file -/

/-- Physical column `c` has, in some row group, a chunk with the dictionary `dict`. -/
def FileWriter.References (w : FileWriter) (c dict : Nat) : Prop :=
  ∃ g ∈ w.state.rowGroupsTable.rowGroupMetadata, ∃ m, g.colMetadatas[c]? = some m ∧
    ∃ chunk ∈ m.columnChunks, chunk.encoding = .sharedDictionary dict

/-- Chunk `k` of the table is one of the dictionary's. -/
def FileWriter.Sections.IsChunk (sec : FileWriter.Sections) (dict k : Nat) : Prop :=
  ∃ ids, sec.dictPositions[dict]? = some ids ∧ k ∈ ids

/-- Physical column `c` references chunk `k` of the table. -/
def FileWriter.ReferencesChunk (w : FileWriter) (sec : FileWriter.Sections) (c k : Nat) : Prop :=
  ∃ dict, w.References c dict ∧ sec.IsChunk dict k

/-- The size of a chunk of the table. -/
def FileWriter.Sections.chunkSize (sec : FileWriter.Sections) (k : Nat) : Nat :=
  ((sec.dictChunks.flatten[k]?).map Chunk.size).getD 0

theorem asShared_toFb {e : DictionaryEncoding} {dict : Nat} :
    e.toFb.asShared = some dict ↔ e = .sharedDictionary dict := by
  cases e with
  | noDictionary => exact iff_of_false (fun h => by cases h) (fun h => by cases h)
  | dictionary idxs => exact iff_of_false (fun h => by cases h) (fun h => by cases h)
  | sharedDictionary idx =>
      show some idx = some dict ↔ _
      rw [Option.some.injEq, DictionaryEncoding.sharedDictionary.injEq]

theorem mem_sharedDicts {m : ColumnMetadata} {dict : Nat} :
    dict ∈ m.toFb.sharedDicts ↔ ∃ c ∈ m.columnChunks, c.encoding = .sharedDictionary dict := by
  show dict ∈ (m.columnChunks.map Chunk.toFb).filterMap (fun c => c.encoding.asShared) ↔ _
  rw [List.filterMap_map, List.mem_filterMap]
  exact exists_congr fun c => and_congr_right fun _ => asShared_toFb

theorem mem_referencesOf {groups : List GroupedColumnMetadata} {c dict : Nat} :
    (c, dict) ∈ referencesOf groups ↔ ∃ g ∈ groups, ∃ m, g.columnMetadatas[c]? = some m ∧
      dict ∈ m.sharedDicts := by
  simp only [referencesOf, GroupedColumnMetadata.references, List.mem_flatMap, List.mem_map,
    Prod.mk.injEq]
  refine exists_congr fun g => and_congr_right fun _ => ?_
  constructor
  · rintro ⟨⟨m, c'⟩, hm, dict', hdict, rfl, rfl⟩
    exact ⟨m, List.mem_zipIdx_iff_getElem?.1 hm, hdict⟩
  · rintro ⟨m, hm, hdict⟩
    exact ⟨(m, c), List.mem_zipIdx_iff_getElem?.2 hm, dict, hdict, rfl, rfl⟩

/-- The reader sees the references of the file. -/
theorem references_grouped {w : FileWriter} (h : w.state.Aligned) {c dict : Nat} :
    (c, dict) ∈ referencesOf (w.grouped .all) ↔ w.References c dict := by
  have hlen : w.state.rowGroupsTable.rowGroupMetadata.length =
      w.state.rowGroupsTable.pointers.length := by
    rw [RowGroupsTable.pointers, List.length_zip, List.length_zip, h.rowCounts, h.offsets, h.sizes,
      Nat.min_self, Nat.min_self]
  have hzip : (w.state.rowGroupsTable.rowGroupMetadata.zip w.state.rowGroupsTable.pointers).map
      Prod.fst = w.state.rowGroupsTable.rowGroupMetadata := List.map_fst_zip hlen.le
  rw [mem_referencesOf, FileWriter.References]
  constructor
  · rintro ⟨g, hg, m, hm, hdict⟩
    obtain ⟨q, hq, rfl⟩ := List.mem_map.1 hg
    have hcolumns : (q.1.colMetadatas.map ColumnMetadata.toFb)[c]? = some m := hm
    rw [List.getElem?_map, Option.map_eq_some_iff] at hcolumns
    obtain ⟨m', hm', rfl⟩ := hcolumns
    exact ⟨q.1, (List.of_mem_zip hq).1, m', hm', mem_sharedDicts.1 hdict⟩
  · rintro ⟨g, hg, m, hm, hdict⟩
    rw [← hzip] at hg
    obtain ⟨q, hq, rfl⟩ := List.mem_map.1 hg
    refine ⟨_, List.mem_map.2 ⟨q, hq, rfl⟩, m.toFb, ?_, mem_sharedDicts.2 hdict⟩
    show (q.1.colMetadatas.map ColumnMetadata.toFb)[c]? = some m.toFb
    rw [List.getElem?_map, hm, Option.map_some]

section Files

variable {env : Env} {schema : List Field} {options : FileWriterOptions}
  {cs : List FileWriter.Call} {w w₁ : FileWriter} {sec : FileWriter.Sections}
  {p : FileWriter.PostscriptValues} {b : FileReaderV2Builder} {r : FileReaderV2}

/-- A reference of the file is one of the dictionaries of the writer. -/
theorem FileWriter.FinishesWith.reference_lt (h : FinishesWith env schema options cs w w₁ sec p)
    (hcount : w₁.sharedDictionaryContext.dictionaries.length < 2 ^ 32) {c dict : Nat}
    (href : w.References c dict) : dict < w₁.sharedDictionaryContext.dictionaries.length := by
  obtain ⟨w₀, hnew, hsteps⟩ := h.steps
  have hlabelled : w₁.point.Labelled :=
    (FileWriter.labelled_tryNew hnew).steps (FileWriter.sound_point hnew) hsteps hcount
  obtain ⟨f, hf⟩ := writeSections_spec h.sections
  obtain ⟨sections, htable, -⟩ := hf.sections
  obtain ⟨g, hg, m, hm, chunk, hchunk, hdict⟩ := href
  refine hlabelled.records chunk ?_ dict hdict
  rw [htable] at hg
  exact List.mem_flatMap.2 ⟨m, List.mem_append_right _
    (List.mem_flatMap.2 ⟨g, hg, List.mem_of_getElem? hm⟩), hchunk⟩

/-- The writer keeps the schema it was made with. -/
theorem FileWriter.FinishesWith.keeps_schema (h : FinishesWith env schema options cs w w₁ sec p) :
    w.schema = schema := by
  obtain ⟨w₀, hnew, hfixed⟩ := h.fixed_eq
  simp only [tryNew, bind_eq_ok, pure_eq_ok, Except.ok.injEq] at hnew
  obtain ⟨r, -, rfl⟩ := hnew
  exact congrArg Fixed.schema hfixed

/-- The parts of the cache that the statistics are made from. -/
theorem cache_of_tryNewReadAll (laws : env.SerializationLaws)
    (h : FinishesWith env schema options cs w w₁ sec p) (hfit : w₁.DictionariesFit env)
    {reading : Option WASMReadingContext} {cache : SharedDictionaryCache}
    (hcache : SharedDictionaryCache.tryNewReadAll env w.file (sec.dictionaryTable env) reading =
      .ok cache) :
    cache.dictionaryChunkReferences = sec.dictPositions ∧
      cache.dictionaryChunkSizes = sec.dictChunks.flatten.map Chunk.size ∧
      cache.dictionaryCompressedSizes.length = sec.dictPositions.length ∧
      sec.dictPositions.length = w₁.sharedDictionaryContext.dictionaries.length ∧
      (∀ ids ∈ sec.dictPositions, ids.Nodup) ∧
      ∀ ids ∈ sec.dictPositions, ∀ k ∈ ids, k < sec.dictChunks.flatten.length := by
  obtain ⟨css, peers, hstored⟩ := h.storedIn
  have hm : w₁.sharedDictionaryContext.Matched := (h.point_sound hfit.count).matched
  have htable := hfit.table css peers _ hstored.flushed
  obtain ⟨hpositions, hids⟩ := hstored.table hm
  rw [hstored.tryNewReadAll_eq laws hm htable, bind_eq_ok] at hcache
  obtain ⟨dictionaries, -, hcache⟩ := hcache
  cases hcache
  have hsome : ∀ ids ∈ sec.dictPositions, ∃ i < w₁.sharedDictionaryContext.dictionaries.length,
      FileWriter.idsOf css peers i = ids := by
    rw [hpositions]
    intro ids hmem
    obtain ⟨i, hi, rfl⟩ := List.mem_map.1 hmem
    exact ⟨i, List.mem_range.1 hi, rfl⟩
  refine ⟨rfl, ?_, List.length_map .., hstored.length_positions hm, ?_, ?_⟩
  · exact List.map_map ..
  · intro ids hmem
    obtain ⟨i, hi, rfl⟩ := hsome ids hmem
    exact hstored.nodup_ids hm i hi
  · intro ids hmem k hk
    obtain ⟨i, hi, rfl⟩ := hsome ids hmem
    obtain ⟨n, hn, rfl⟩ := List.mem_iff_getElem.1 hk
    obtain ⟨piece, -, u, -, hc⟩ := exists_getElem?_of_forall₂
      (hids i _ (List.getElem?_eq_getElem hi)) (List.getElem?_eq_getElem hn)
    obtain ⟨checksum, base, hrecords, -⟩ := hstored.records
    rw [hrecords, length_recordsFrom]
    exact (List.getElem?_eq_some_iff.1 hc).1

/-- The sharing statistics of a file, as the reader returns them: a counter and a list
of peers for each field, and the list of a column has one entry for each other column
and each chunk of the table that both reference. -/
structure SharingExact (env : Env) (order : HashOrder) (w : FileWriter)
    (sec : FileWriter.Sections) (r : FileReaderV2) (schema : List Field) : Prop where
  exact : ∃ counters peers, r.getSharedDictSizes env order = .ok (counters, peers) ∧
    counters.length = schema.length ∧ peers.length = schema.length ∧
    ∀ (a : Nat) (entries : List (Nat × Nat)), peers[a]? = some entries →
      ∃ meets : List (Nat × Nat), meets.Nodup ∧
        (∀ b k, (b, k) ∈ meets ↔
          b ≠ a ∧ w.ReferencesChunk sec a k ∧ w.ReferencesChunk sec b k) ∧
        entries.Perm (meets.map fun v => (v.1, sec.chunkSize v.2))

/-- **The statistics are exact if and only if** only columns that have a field
reference dictionaries, and no column references two dictionaries with a common chunk. -/
theorem sharedDictSizes_exact_iff (laws : env.SerializationLaws)
    (h : FinishesWith env schema options cs w w₁ sec p) (hfits : w.Fits)
    (hdicts : w₁.DictionariesFit env) (hb : b.reader = w.file) (hall : b.projections = .all)
    (hr : b.build env = .ok r) (order : HashOrder) :
    SharingExact env order w sec r schema ↔
      (∀ c dict, w.References c dict → c < schema.length) ∧
        ∀ c dict dict' k, w.References c dict → w.References c dict' →
          sec.IsChunk dict k → sec.IsChunk dict' k → dict = dict' := by
  obtain ⟨f, hf⟩ := h.finished hfits
  rw [build_eq laws h hf hb fun hahead => readAheadFits_of_build laws h hf hb hahead hr] at hr
  simp only [builtReader, bind_eq_ok, unwrap_eq_ok, pure_eq_ok, Except.ok.injEq] at hr
  obtain ⟨buffers, hbuffers, cache, hcache, rfl⟩ := hr
  rw [hb] at hcache
  obtain ⟨hreferences, hsizes, hlen, hcount, hnodup, hids⟩ :=
    cache_of_tryNewReadAll laws h hdicts hcache
  have hfooter : Footer.tryNewWithProjection env w.state.rowGroupsTable.pointers buffers w.schema =
      .ok ⟨schema, w.grouped .all⟩ := by
    rw [hall] at hbuffers
    have hpicked : buffers = w.state.rowGroupsTable.rowGroupMetadata.map fun g =>
        (Projection.all.pick g.colMetadatas).map (ColumnMetadata.bytes env) := by
      have hcollect : collect (projectedBytes env .all) w.state.rowGroupsTable.rowGroupMetadata =
          .ok (w.state.rowGroupsTable.rowGroupMetadata.map fun g =>
            (Projection.all.pick g.colMetadatas).map (ColumnMetadata.bytes env)) := by
        rw [collect_eq_ok_iff, List.forall₂_map_right_iff, List.forall₂_same]
        exact fun g _ => projectedBytes_eq trivial
      rw [hcollect] at hbuffers
      exact (Except.ok.inj hbuffers).symm
    rw [hpicked, tryNewWithProjection_written laws, h.keeps_schema]
  have hresolvable : Resolvable ⟨schema, w.grouped .all⟩ cache := by
    refine ⟨?_, ?_, ?_, ?_, ?_⟩
    · intro g hg m hm
      obtain ⟨group, -, hmetas⟩ := mem_grouped hg
      rw [hmetas] at hm
      obtain ⟨m', -, rfl⟩ := List.mem_map.1 hm
      exact Option.some_ne_none _
    · rintro ⟨c, dict⟩ he
      rw [hreferences, hcount]
      exact h.reference_lt hdicts.count ((references_grouped h.aligned).1 he)
    · rw [hlen, hreferences]
    · rw [hreferences]
      exact hnodup
    · rw [hreferences, hsizes, List.length_map]
      exact hids
  have hcomes : ∀ c k, ComesTo ⟨schema, w.grouped .all⟩ cache c k ↔ w.ReferencesChunk sec c k := by
    intro c k
    rw [ComesTo, FileWriter.ReferencesChunk, hreferences]
    constructor
    · rintro ⟨dict, ids, he, hget, hk⟩
      exact ⟨dict, (references_grouped h.aligned).1 he, ids, hget, hk⟩
    · rintro ⟨dict, he, ids, hget, hk⟩
      exact ⟨dict, ids, (references_grouped h.aligned).2 he, hget, hk⟩
  have hsize : ∀ k, (cache.dictionaryChunkSizes[k]?).getD 0 = sec.chunkSize k := by
    intro k
    rw [hsizes, List.getElem?_map]
    rfl
  have hwalk : FileReaderV2.getSharedDictSizes env order
      { reader := b.reader
        schema := w.schema
        projections := b.projections
        selection := b.selection
        groupedColumnMetadataBuffers := buffers
        rowGroupCntNPointers := w.state.rowGroupsTable.rowCounts.zip
          (w.state.rowGroupsTable.offsets.zip w.state.rowGroupsTable.sizes)
        wasmContext := some (b.contextOf sec)
        sharedDictionaryCache := some cache
        checksumType := if b.verifyIoUnitChecksum then some p.toPostScript.checksumType else none } =
      FileReaderV2.getSharedDictSizeBasedOnFooter order ⟨schema, w.grouped .all⟩ cache := by
    rw [FileReaderV2.getSharedDictSizes]
    show (Footer.tryNewWithProjection env w.state.rowGroupsTable.pointers buffers w.schema >>= _) = _
    rw [hfooter, ok_bind]
    rfl
  refine Iff.trans ?_ ((exactPeers_iff order hresolvable).trans ?_)
  · constructor
    · rintro ⟨counters, peers, hok, hcounters, hcolumns, hpeers⟩
      refine ⟨(counters, peers), hwalk ▸ hok, hcounters, hcolumns, fun a entries hget => ?_⟩
      obtain ⟨meets, hmeets, hmem, hperm⟩ := hpeers a entries hget
      exact ⟨meets, hmeets, fun b k => by rw [hmem, hcomes, hcomes], by simpa only [hsize] using hperm⟩
    · rintro ⟨⟨counters, peers⟩, hok, hexact⟩
      refine ⟨counters, peers, hwalk.trans hok, hexact.counters, hexact.columns, ?_⟩
      intro a entries hget
      obtain ⟨meets, hmeets, hmem, hperm⟩ := hexact.peers a entries hget
      exact ⟨meets, hmeets, fun b k => by rw [hmem, hcomes, hcomes], by simpa only [hsize] using hperm⟩
  · refine and_congr ?_ ?_
    · exact ⟨fun hlt c dict href => hlt (c, dict) ((references_grouped h.aligned).2 href),
        fun hlt e he => hlt e.1 e.2 ((references_grouped h.aligned).1 he)⟩
    · rw [ComesOnce, hreferences]
      constructor
      · rintro honce c dict dict' k href href' ⟨ids, hget, hk⟩ ⟨ids', hget', hk'⟩
        exact honce c dict dict' ids ids' ((references_grouped h.aligned).2 href)
          ((references_grouped h.aligned).2 href') hget hget' k hk hk'
      · intro honce c dict dict' ids ids' href href' hget hget' k hk hk'
        exact honce c dict dict' k ((references_grouped h.aligned).1 href)
          ((references_grouped h.aligned).1 href') ⟨ids, hget, hk⟩ ⟨ids', hget', hk'⟩

end Files

/-! ## A struct has more columns than fields -/

/-- The run succeeds, a reader opens the file, and the walk panics. -/
def walkPanics (env : Env) (schema : List Field) (options : FileWriterOptions)
    (cs : List FileWriter.Call) : Bool :=
  match FileWriter.run env schema options cs with
  | .error _ => false
  | .ok w =>
      match (FileReaderV2Builder.new w.file).build env with
      | .error _ => false
      | .ok r =>
          match r.getSharedDictSizes env .insertion with
          | .ok _ => false
          | .error _ => true

theorem exists_of_walkPanics {env : Env} {schema : List Field} {options : FileWriterOptions}
    {cs : List FileWriter.Call} (h : walkPanics env schema options cs = true) :
    ∃ w r, FileWriter.run env schema options cs = .ok w ∧
      (FileReaderV2Builder.new w.file).build env = .ok r ∧
      ∀ result, r.getSharedDictSizes env .insertion ≠ .ok result := by
  unfold walkPanics at h
  split at h
  · cases h
  · next w hw =>
      split at h
      · cases h
      · next r hr =>
          split at h
          · cases h
          · next f hf =>
              refine ⟨w, r, hw, hr, fun result hresult => ?_⟩
              rw [hf] at hresult
              cases hresult

namespace Sample

/-- A struct of one integer. -/
def structSchema : List Field := [.mk "s" (.struct [.mk "a" (.prim .int32) true]) true]

/-- Two structs. -/
def structBatch : RecordBatch :=
  ⟨structSchema, [.struct [.mk "a" (.prim .int32) true]
    [.prim .int32 [some (.int 7), some (.int 8)]] none 2], 2, by decide⟩

end Sample

theorem walkPanics_struct : walkPanics Sample.env Sample.structSchema Sample.dictionaryOptions
    [.writeBatch Sample.structBatch] = true := by
  decide +kernel

theorem sharedDictSizes_panics : ∃ w w₁ sec p r,
    FinishesWith Sample.env Sample.structSchema Sample.dictionaryOptions
      [.writeBatch Sample.structBatch] w w₁ sec p ∧
    (FileReaderV2Builder.new w.file).build Sample.env = .ok r ∧
    ¬ SharingExact Sample.env .insertion w sec r Sample.structSchema := by
  obtain ⟨w, r, hrun, hr, hpanics⟩ := exists_of_walkPanics walkPanics_struct
  obtain ⟨w₁, sec, p, hfin⟩ := finishes_iff.1 (finishes_of_run hrun)
  refine ⟨w, w₁, sec, p, r, hfin, hr, ?_⟩
  rintro ⟨counters, peers, hok, -⟩
  exact hpanics _ hok

theorem fits_nullSchema : FileWriter.runFits Sample.env Sample.nullSchema Sample.dictionaryOptions
    [.writeBatch Sample.nullBatch] = true := by
  decide +kernel

/-- The file of such a run is opened. -/
theorem exists_build {schema : List Field} {options : FileWriterOptions}
    {cs : List FileWriter.Call} {w w₁ : FileWriter} {sec : FileWriter.Sections}
    {p : FileWriter.PostscriptValues}
    (h : FinishesWith Sample.env schema options cs w w₁ sec p) (hfits : w.Fits)
    (hdicts : w₁.DictionariesFit Sample.env) (hwasm : options.wasmContext Sample.env = .empty)
    (hcompression : options.compressionType = .uncompressed) :
    ∃ r, (FileReaderV2Builder.new w.file).build Sample.env = .ok r := by
  obtain ⟨f, hf⟩ := h.finished hfits
  obtain ⟨css, peers, hstored⟩ := h.storedIn
  have hempty : w₁.wasmContext = .empty := by
    have hcontext := h.wasmContext_eq
    rw [h.final] at hcontext
    exact hcontext.trans hwasm
  have hcodec : w₁.sharedDictionaryContext.DecodesSlices Sample.env w₁.wasmContext
      (some ((FileReaderV2Builder.new w.file).contextOf sec)) :=
    hempty ▸ SharedDictionaryContext.decodesSlices_native Sample.roundTrips (h.compressionType_eq.trans hcompression)
      (native_contextOf w.file sec)
  obtain ⟨cache, hcache, -⟩ := hstored.tryNewReadAll_ok Sample.serializationLaws
    (h.point_sound hdicts.count).matched (hdicts.table css peers _ hstored.flushed) hcodec
  rw [build_eq Sample.serializationLaws h hf rfl fun hahead => by cases hahead]
  exact (builtReader_eq_ok h hf).2 ⟨trivial, cache, hcache⟩

theorem sharedDictSizes_exact_iff_sample : ∃ w w₁ sec p r,
    FinishesWith Sample.env Sample.nullSchema Sample.dictionaryOptions
      [.writeBatch Sample.nullBatch] w w₁ sec p ∧
    (FileReaderV2Builder.new w.file).build Sample.env = .ok r ∧ ∀ order,
      (SharingExact Sample.env order w sec r Sample.nullSchema ↔
        (∀ c dict, w.References c dict → c < Sample.nullSchema.length) ∧
          ∀ c dict dict' k, w.References c dict → w.References c dict' →
            sec.IsChunk dict k → sec.IsChunk dict' k → dict = dict') := by
  obtain ⟨w, hrun⟩ : ∃ w, FileWriter.run Sample.env Sample.nullSchema Sample.dictionaryOptions
      [.writeBatch Sample.nullBatch] = .ok w := by
    cases hrun : FileWriter.run Sample.env Sample.nullSchema Sample.dictionaryOptions
        [.writeBatch Sample.nullBatch] with
    | ok w => exact ⟨w, rfl⟩
    | error f =>
        have hfits := fits_nullSchema
        rw [FileWriter.runFits, hrun] at hfits
        cases hfits
  obtain ⟨w₁, sec, p, hfin⟩ := finishes_iff.1 (finishes_of_run hrun)
  have hfits : w.Fits := fits_of_runFits fits_nullSchema hrun
  have hdicts := FileWriter.dictionariesFit_of_ok Sample.nullDictionariesFit hrun hfin
  obtain ⟨r, hr⟩ := exists_build hfin hfits hdicts rfl rfl
  exact ⟨w, w₁, sec, p, r, hfin, hr, fun order =>
    sharedDictSizes_exact_iff Sample.serializationLaws hfin hfits hdicts rfl rfl hr order⟩

end F3Format
