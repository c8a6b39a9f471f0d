import F3Format.CustomUnitLengths
import F3Format.SelectedGroups

/-!
# Selecting one row

A single row index is located in a row group, then in a chunk, then in a unit. Row
groups are located by their row counts, which also count the rows that are in no
unit; a column is read by what its units hold. `selectsRows_iff` says when the two
agree, so that selecting a row is reading the file and picking the row.
-/

set_option autoImplicit false

namespace F3Format

open Lib FileWriter FileReaderV2Builder

/-! ## One row of a column -/

section Column

variable {env : Env} {d : PrimitiveColDecoder} {dataType : DataType}

/-- One row of a chunk is in one unit, whatever the boundaries before it. -/
theorem rowsOfChunk_one {units : List Fb.EncUnit} {buf : Bytes} {as : List ArrayRef} {row : Nat}
    (hhold : UnitsHold env d.wasmContext d.primitiveType units buf as)
    (harrays : ∀ a ∈ as, ColumnArray dataType a)
    {x : Cell} (hx : (as.map ArrayRef.cells).flatten[row]? = some x) (n : Nat) :
    ∃ a, PrimitiveColDecoder.rowsOfChunk env row (n + 1)
      (.noDict ⟨units, buf, d.wasmContext⟩ d.primitiveType) 1 = .ok ([a], 1) ∧
        a.cells = [x] ∧ a.dataType = dataType := by
  obtain ⟨hrow, hcell⟩ := List.getElem?_eq_some_iff.1 hx
  have hwalk : walkUnits row (as.map ArrayRef.cells) 0 1 = some [x] := by
    refine (walkUnits_eq_some_iff Nat.one_pos (Nat.zero_le row) (by omega)).2 ⟨?_, ?_⟩
    · apply OneUnit.of_lt_sum
      rw [sum_unitRows]
      exact hrow
    · rw [Nat.sub_zero, slice, List.take_one, List.head?_drop, hx]
      rfl
  have hend : row + 1 ≤ (as.map ArrayRef.cells).flatten.length := hrow
  have hread := rowsOfChunk_walk hhold harrays Nat.one_pos hend n
  rw [hwalk] at hread
  exact hread

/-- **One row of a column.** The chunks before it are skipped, and it is the only
array; beyond the last row there is none. -/
theorem rowsOfChunks_one (hdecodable : d.primitiveType.decodable = true) (row : Nat) :
    ∀ {chunks : List Fb.Chunk} {contents : List (List ArrayRef)} (cur : Nat), cur ≤ row →
      List.Forall₂ (d.ChunkHolds env) chunks contents →
        (∀ as ∈ contents, ∀ a ∈ as, ColumnArray dataType a) →
          match (columnCells contents)[row - cur]? with
          | none => d.rowsOfChunks env row chunks cur 1 = .ok []
          | some x => ∃ a, d.rowsOfChunks env row chunks cur 1 = .ok [a] ∧ a.cells = [x] ∧
              a.dataType = dataType := by
  intro chunks contents cur hcur hchunks
  -- the cursor advances past a skipped chunk
  induction hchunks generalizing cur with
  | nil =>
      intro _
      rfl
  | @cons c as cs contents hc hcs ih =>
      intro harrays
      obtain ⟨has, hrest⟩ := List.forall_mem_cons.1 harrays
      have hcells : columnCells (as :: contents) =
          (as.map ArrayRef.cells).flatten ++ columnCells contents := by
        rw [columnCells, List.flatten_cons, List.flatMap_append, List.flatMap_def]
        rfl
      rw [hcells, PrimitiveColDecoder.rowsOfChunks, if_neg Nat.one_ne_zero, numRows_eq hc has]
      by_cases hskip : cur + (as.map ArrayRef.cells).flatten.length ≤ row
      · have hshift : row - cur - (as.map ArrayRef.cells).flatten.length =
            row - (cur + (as.map ArrayRef.cells).flatten.length) := Nat.sub_sub ..
        rw [if_pos hskip, List.getElem?_append_right (by omega), hshift]
        exact ih _ hskip hrest
      · have hrow : row - cur < (as.map ArrayRef.cells).flatten.length := by omega
        rw [if_neg hskip, List.getElem?_append_left hrow, List.getElem?_eq_getElem hrow]
        have hskipped : checkedSub row cur = .ok (row - cur) := if_pos hcur
        have havailable : checkedSub (as.map ArrayRef.cells).flatten.length (row - cur) =
            .ok ((as.map ArrayRef.cells).flatten.length - (row - cur)) := if_pos (Nat.le_of_lt hrow)
        have hone : min ((as.map ArrayRef.cells).flatten.length - (row - cur)) 1 = 1 := by omega
        obtain ⟨units, buf, hopen, hhold⟩ := openChunk_ok hdecodable hc
        obtain ⟨a, hread, hcell, htype⟩ :=
          rowsOfChunk_one hhold has (List.getElem?_eq_getElem hrow) units.length
        have hdone : ∀ cs' : List Fb.Chunk, d.rowsOfChunks env row cs' cur 0 = .ok [] := by
          intro cs'
          cases cs' with
          | nil => rfl
          | cons c' cs' => rfl
        refine ⟨a, ?_, hcell, htype⟩
        have hunits : (ChunkDecoder.noDict ⟨units, buf, d.wasmContext⟩ d.primitiveType).units.length =
            units.length := rfl
        simp only [hskipped, havailable, hone, hopen, hunits, hread, ok_bind]
        have hremaining : checkedSub 1 1 = .ok 0 := rfl
        simp only [hremaining, hdone, ok_bind, pure_eq_ok, List.append_nil]

/-- The cells of leaf arrays are their values. -/
theorem columnCells_prim {t : PrimType} {contents : List (List ArrayRef)}
    (h : ∀ as ∈ contents, ∀ a ∈ as, ColumnArray (.prim t) a) :
    columnCells contents = (contents.flatten.flatMap ArrayRef.rows).map Cell.value := by
  rw [columnCells, List.map_flatMap]
  refine List.flatMap_congr fun a ha => ?_
  obtain ⟨as, has, hmem⟩ := List.mem_flatten.1 ha
  obtain ⟨vs, rfl⟩ := ArrayRef.eq_prim_of_dataType (h as has a hmem).dataType
  rfl

/-- **`decode_row_at` of one row of a leaf column** is that row, if there is one. -/
theorem PrimitiveColDecoder.Holds.decodeRowAt_one {contents : List (List ArrayRef)}
    (h : d.Holds env contents) {t : PrimType}
    (htype : ∀ as ∈ contents, ∀ a ∈ as, ColumnArray (.prim t) a) (row : Nat) :
    d.decodeRowAt env row 1 =
      .ok ((contents.flatten.flatMap ArrayRef.rows)[row]?.toList.map fun v => .prim t [v]) := by
  have hone := rowsOfChunks_one h.decodable row 0 (Nat.zero_le row) h.chunks htype
  rw [columnCells_prim htype, Nat.sub_zero, List.getElem?_map] at hone
  rw [PrimitiveColDecoder.decodeRowAt]
  cases hv : (contents.flatten.flatMap ArrayRef.rows)[row]? with
  | none =>
      rw [hv] at hone
      exact hone
  | some v =>
      rw [hv] at hone
      obtain ⟨a, hok, hcell, hprim⟩ := hone
      obtain ⟨vs, rfl⟩ := ArrayRef.eq_prim_of_dataType hprim
      have hvs : vs = [v] := List.map_injective_iff.2 (fun _ _ => Cell.value.inj) hcell
      rw [hok, hvs]
      rfl

end Column

/-! ## The row group of a row -/

theorem localRows_one {start size row : Nat} : localRows start size [row] =
    if start ≤ row ∧ row < start + size then [row - start] else [] := by
  rw [localRows, inWindow, List.filter_singleton, ← Bool.decide_and]
  split
  · next h => rw [decide_eq_true h, cond_true, List.map_singleton]
  · next h => rw [decide_eq_false h, cond_false, List.map_nil]

theorem visitFrom_of_lt {row : Nat} : ∀ {ms : List GroupedColumnMetadata} {start : Nat},
    row < start → visitFrom [row] start ms = []
  | [], _, _ => rfl
  | m :: ms, start, h => by
      have hnone : ¬ (start ≤ row ∧ row < start + m.rowCount) := by omega
      rw [visitFrom, visit, localRows_one, if_neg hnone, if_pos rfl,
        visitFrom_of_lt (Nat.lt_add_right _ h), List.append_nil]

theorem visitFrom_one {row : Nat} : ∀ (ms : List GroupedColumnMetadata) {start : Nat},
    start ≤ row → visitFrom [row] start ms =
      ((locate GroupedColumnMetadata.rowCount ms (row - start)).map fun p =>
        (p.1, Selection.rowIndexes [p.2])).toList
  | [], _, _ => rfl
  | m :: ms, start, h => by
      rw [visitFrom, visit, locate]
      by_cases hin : row < start + m.rowCount
      · have hrows : localRows start m.rowCount [row] = [row - start] := by
          rw [localRows_one, if_pos ⟨h, hin⟩]
        have hlocal : row - start < m.rowCount := by omega
        rw [hrows, if_pos hlocal, if_neg (List.cons_ne_nil _ _), visitFrom_of_lt hin]
        rfl
      · have hrows : localRows start m.rowCount [row] = [] := by
          rw [localRows_one, if_neg fun hand => hin hand.2]
        have hlocal : ¬ row - start < m.rowCount := by omega
        rw [hrows, if_pos rfl, if_neg hlocal, List.nil_append,
          visitFrom_one ms (Nat.le_of_not_lt hin), Nat.sub_sub]

/-- A single row index is looked for in the row group that contains it. -/
theorem processSelection_one (row : Nat) (groups : List GroupedColumnMetadata) :
    processSelection (.rowIndexes [row]) groups =
      ((locate GroupedColumnMetadata.rowCount groups row).map fun p =>
        (p.1, Selection.rowIndexes [p.2])).toList := by
  have hsort : [row].insertionSort (fun a b => a ≤ b) = [row] := rfl
  rw [processSelection_eq, hsort]
  exact visitFrom_one groups (Nat.zero_le row)

/-! ## One row of aligned columns -/

section Rows

variable {schema : List Field} {cols : Nat → List ArrayRef} {lengths : List Nat}

/-- Row `l` of column `i` as an array of one row, if there is one. -/
def rowAt (schema : List Field) (cols : Nat → List ArrayRef) (l i : Nat) : List ArrayRef :=
  match schema[i]? with
  | some (.mk _ (.prim t) _) => ((cols i).flatMap ArrayRef.rows)[l]?.toList.map fun v => .prim t [v]
  | _ => []

theorem rowAt_eq {i : Nat} {f : Field} {t : PrimType} (hf : schema[i]? = some f)
    (ht : f.dataType = .prim t) (l : Nat) : rowAt schema cols l i =
      ((cols i).flatMap ArrayRef.rows)[l]?.toList.map fun v => .prim t [v] := by
  obtain ⟨name, dataType, nullable⟩ := f
  have hprim : dataType = .prim t := ht
  subst hprim
  rw [rowAt, hf]

theorem LeafArrays.flatMap_rows {f : Field} {arrays : List ArrayRef} {values : List (Option Scalar)}
    (h : LeafArrays f arrays lengths values) :
    arrays.flatMap ArrayRef.rows = values ∧ values.length = lengths.sum := by
  obtain ⟨t, parts, -, -, harrays, hlengths, hvalues, -⟩ := h
  constructor
  · rw [harrays, ← hvalues, List.flatMap_map]
    exact List.flatMap_id
  · rw [← hvalues, List.length_flatten, hlengths]

theorem Aligned.length_rows (h : Aligned schema cols lengths) {i : Nat} (hi : i < schema.length) :
    ((cols i).flatMap ArrayRef.rows).length = lengths.sum := by
  obtain ⟨values, hvalues⟩ := h.leaves i _ (List.getElem?_eq_getElem hi)
  obtain ⟨hrows, hlen⟩ := hvalues.flatMap_rows
  rw [hrows, hlen]

/-- One row of aligned columns is aligned. -/
theorem Aligned.rowAt (h : Aligned schema cols lengths) (l : Nat) :
    Aligned schema (rowAt schema cols l) (if l < lengths.sum then [1] else []) where
  nonempty := h.nonempty
  leaves := by
    intro i f hf
    obtain ⟨values, hleaves⟩ := h.leaves i f hf
    obtain ⟨hrows, hlen⟩ := hleaves.flatMap_rows
    obtain ⟨t, parts, htype, ht, -, -, hvalues, hnulls⟩ := hleaves
    rw [rowAt_eq hf htype, hrows]
    by_cases hl : l < lengths.sum
    · rw [if_pos hl, List.getElem?_eq_getElem (hlen ▸ hl)]
      refine ⟨[values[l]], t, [[values[l]]], htype, ht, rfl, rfl, rfl, fun hf' vs hvs v hv => ?_⟩
      have hmem : v ∈ parts.flatten := by
        rw [List.mem_singleton.1 hvs] at hv
        rw [List.mem_singleton.1 hv, hvalues]
        exact List.getElem_mem _
      obtain ⟨us, hus, hv⟩ := List.mem_flatten.1 hmem
      exact hnulls hf' us hus v hv
    · rw [if_neg hl, List.getElem?_eq_none (by omega)]
      exact ⟨[], t, [], htype, ht, rfl, rfl, rfl, fun _ vs hvs => nomatch hvs⟩

/-- A leaf column that holds arrays of this type gives one row of them. -/
theorem decodeRowAt_rowAt {env : Env} {d : PrimitiveColDecoder} {contents : List (List ArrayRef)}
    (h : Aligned schema cols lengths) (hholds : d.Holds env contents) {i : Nat}
    (hi : i < schema.length) (hcontents : contents.flatten = (cols i).map ArrayRef.toView) (l : Nat) :
    d.decodeRowAt env l 1 = .ok ((rowAt schema cols l i).map ArrayRef.toView) := by
  obtain ⟨values, t, parts, htype, -, harrays, -⟩ := h.leaves i _ (List.getElem?_eq_getElem hi)
  have hcolumn : ∀ as ∈ contents, ∀ a ∈ as, ColumnArray (.prim t.view) a := by
    intro as has a ha
    have hmem : a ∈ (cols i).map ArrayRef.toView :=
      hcontents ▸ List.mem_flatten.2 ⟨as, has, ha⟩
    rw [harrays, List.map_map] at hmem
    obtain ⟨vs, -, rfl⟩ := List.mem_map.1 hmem
    exact ⟨rfl, rfl, rfl⟩
  have hrows : contents.flatten.flatMap ArrayRef.rows = (cols i).flatMap ArrayRef.rows := by
    rw [hcontents, List.flatMap_map]
    exact List.flatMap_congr fun a _ => ArrayRef.rows_toView a
  rw [hholds.decodeRowAt_one hcolumn, hrows, rowAt_eq (List.getElem?_eq_getElem hi) htype,
    List.map_map]
  rfl

end Rows

/-! ## One row of a file -/

/-- What the reader returns for one row index. -/
def FileWriter.readRow (env : Env) (w : FileWriter) (row : Nat) : Result (List RecordBatch) := do
  let b ← (FileReaderV2Builder.new w.file).withSelection (.rowIndexes [row])
  let r ← b.build env
  r.readFile env

/-- The rows that a row group counts. -/
def writtenRows (bs : List RecordBatch) : Nat := (bs.map RecordBatch.numRows).sum

/-- The rows that the units of a column hold. -/
def columnRows (lens : List (Nat × Nat)) (i : Nat) (bs : List RecordBatch) : List (Option Scalar) :=
  (encodedColumn lens bs i).flatMap ArrayRef.rows

section File

variable {env : Env} {schema : List Field} {options : FileWriterOptions} {cs : List Call}
  {w w₁ : FileWriter} {sec : Sections} {p : PostscriptValues}

namespace FlatRun

/-- The row groups of the footer are those of the batches. -/
theorem forall₂_grouped (h : FlatRun env schema options cs w w₁ sec p) :
    List.Forall₂ (fun (m : GroupedColumnMetadata) bs => bs ∈ rowGroupsOf options (batches cs) ∧
      m.rowCount = writtenRows bs ∧ ∃ g : RowGroupMetadata,
        m.columnMetadatas = g.colMetadatas.map ColumnMetadata.toFb ∧
          GroupHolds env (options.units env) schema.length options.customEncunitLen w.file
            w.state.narrowed g bs)
      (w.grouped .all) (rowGroupsOf options (batches cs)) := by
  have haligned := h.finishes.aligned
  have hgroups := h.written.groups
  have hpointers : w.state.rowGroupsTable.pointers.length =
      w.state.rowGroupsTable.rowGroupMetadata.length := by
    rw [RowGroupsTable.pointers, List.length_zip, List.length_zip, haligned.rowCounts,
      haligned.offsets, haligned.sizes, Nat.min_self, Nat.min_self]
  have hlen : (w.grouped .all).length = (rowGroupsOf options (batches cs)).length := by
    rw [grouped, List.length_map, List.length_zip, hpointers, Nat.min_self, hgroups.length_eq]
  refine List.forall₂_iff_get.2 ⟨hlen, fun k hk hk' => ?_⟩
  have hmem := List.getElem_mem hk'
  have hmeta : k < w.state.rowGroupsTable.rowGroupMetadata.length := by
    rw [hgroups.length_eq]
    exact hk'
  obtain ⟨-, -, -, hrecorded⟩ := h.group hmem
  refine ⟨hmem, ?_, w.state.rowGroupsTable.rowGroupMetadata[k], ?_, ?_⟩
  · show ((w.grouped .all)[k]).rowCount = writtenRows (rowGroupsOf options (batches cs))[k]
    rw [writtenRows, ← hrecorded]
    simp only [grouped, RowGroupsTable.pointers, List.getElem_map, List.getElem_zip,
      h.written.rowCounts]
  · show ((w.grouped .all)[k]).columnMetadatas = _
    simp only [grouped, List.getElem_map, List.getElem_zip]
    rfl
  · exact (List.forall₂_iff_get.1 hgroups).2 k hmeta hk'

variable (hne : schema ≠ [])
  (hcut : ∀ b ∈ batches cs, b.CutAlike options.customEncunitLen schema.length)

include hne hcut

/-- The row of a row group. -/
theorem readGroup_row (h : FlatRun env schema options cs w w₁ sec p) {bs : List RecordBatch}
    (hbs : bs ∈ rowGroupsOf options (batches cs)) {m : GroupedColumnMetadata} {g : RowGroupMetadata}
    (hm : m.columnMetadatas = g.colMetadatas.map ColumnMetadata.toFb)
    (hg : GroupHolds env (options.units env) schema.length options.customEncunitLen w.file
      w.state.narrowed g bs) (cache : SharedDictionaryCache) (l : Nat) : ∃ qs lengths,
    (FileReaderV2Builder.new w.file).readGroup env sec p cache schema (m, .rowIndexes [l]) =
      .ok qs ∧ Assembled schema (rowAt schema (encodedColumn options.customEncunitLen bs) l)
        lengths qs ∧ (lengths = [1] ∨ lengths = []) ∧ ∀ i < schema.length,
          lengths.length = (columnRows options.customEncunitLen i bs)[l]?.toList.length := by
  have haligned := h.aligned hne hcut hbs
  obtain ⟨qs, hqs, hassembled⟩ := (haligned.rowAt l).assembleBatches
  have hcolumns : collect (decodeColumn env
      ((FileReaderV2Builder.new w.file).decoders sec p cache m.columnMetadatas) (.rowIndexes [l]))
        (schema.zip (g.colMetadatas.map ColumnMetadata.toFb)) = .ok (viewed schema.length
          (rowAt schema (encodedColumn options.customEncunitLen bs) l)) := by
    refine h.collect_columns hbs hg cache m.columnMetadatas fun i d contents hi hd hc => ?_
    show d.decodeRowAt env l 1 = _
    exact decodeRowAt_rowAt haligned hd hi hc l
  refine ⟨qs, _, ?_, hassembled, ?_, fun i hi => ?_⟩
  · rw [FileReaderV2Builder.readGroup]
    rw [← hm] at hcolumns
    show (collect (decodeColumn env _ (.rowIndexes [l])) (schema.zip m.columnMetadatas) >>= _) = _
    rw [hcolumns, ok_bind]
    exact hqs
  · split
    · exact .inl rfl
    · exact .inr rfl
  · have hlen := haligned.length_rows hi
    rw [columnRows]
    split
    · next hl => rw [List.getElem?_eq_getElem (hlen ▸ hl)]; rfl
    · next hl => rw [List.getElem?_eq_none (by omega)]; rfl

/-- **The row that is read**, column by column: what lies at the row index in the
row groups. -/
theorem readRow_eq (h : FlatRun env schema options cs w w₁ sec p) (laws : env.SerializationLaws)
    (row : Nat) : ∃ qs, readRow env w row = .ok qs ∧
      (∀ q ∈ qs, q.numRows = 1 ∧ q.schema = schema.map fieldToView) ∧ ∀ i < schema.length,
        qs.length = (lookAt writtenRows (columnRows options.customEncunitLen i)
          (rowGroupsOf options (batches cs)) row).toList.length ∧
        (qs.flatMap fun q => q.valuesOf i) = (lookAt writtenRows
          (columnRows options.customEncunitLen i) (rowGroupsOf options (batches cs)) row).toList := by
  obtain ⟨f, hf⟩ := h.finishes.finished h.fits
  have hread : readRow env w row = (do
      let batches ← collect ((FileReaderV2Builder.new w.file).readGroup env sec p ⟨[], [], [], []⟩ schema)
        (processSelection (.rowIndexes [row]) (w.grouped .all))
      pure batches.flatten) := by
    have hbuild := readFile_written laws h.finishes hf h.flat
      (b := { FileReaderV2Builder.new w.file with selection := .rowIndexes [row] })
      rfl rfl trivial
    rw [h.cache laws] at hbuild
    exact hbuild
  have hcounts : ∀ (m : GroupedColumnMetadata) (bs : List RecordBatch),
      (bs ∈ rowGroupsOf options (batches cs) ∧ m.rowCount = writtenRows bs ∧
        ∃ g : RowGroupMetadata, m.columnMetadatas = g.colMetadatas.map ColumnMetadata.toFb ∧
          GroupHolds env (options.units env) schema.length options.customEncunitLen w.file
            w.state.narrowed g bs) → m.rowCount = writtenRows bs :=
    fun _ _ hr => hr.2.1
  have hlocate := locate_rel hcounts h.forall₂_grouped row
  rw [hread, processSelection_one]
  simp only [lookAt]
  cases hm : locate GroupedColumnMetadata.rowCount (w.grouped .all) row with
  | none =>
      rw [hm] at hlocate
      cases hbs : locate writtenRows (rowGroupsOf options (batches cs)) row with
      | some q => rw [hbs] at hlocate; cases hlocate
      | none => exact ⟨[], rfl, fun q hq => absurd hq List.not_mem_nil, fun i _ => ⟨rfl, rfl⟩⟩
  | some m =>
      rw [hm] at hlocate
      cases hbs : locate writtenRows (rowGroupsOf options (batches cs)) row with
      | none => rw [hbs] at hlocate; cases hlocate
      | some q =>
          rw [hbs] at hlocate
          obtain ⟨m, l⟩ := m
          obtain ⟨bs, l'⟩ := q
          cases hlocate with
          | some hrel =>
              obtain ⟨⟨hmem, -, g, hmetas, hg⟩, hl⟩ := hrel
              have hl : l = l' := hl
              subst hl
              obtain ⟨qs, lengths, hqs, hassembled, hone, hlen⟩ :=
                h.readGroup_row hne hcut hmem hmetas hg ⟨[], [], [], []⟩ l
              have hnum : qs.length = lengths.length := by
                rw [← hassembled.numRows, List.length_map]
              refine ⟨qs, ?_, fun q hq => ⟨?_, hassembled.fields q hq⟩, fun i hi => ⟨?_, ?_⟩⟩
              · show (collect _ [(m, Selection.rowIndexes [l])] >>= _) = _
                simp only [collect, hqs, ok_bind, pure_eq_ok, List.flatten_singleton]
              · have hmemq := List.mem_map_of_mem (f := RecordBatch.numRows) hq
                rw [hassembled.numRows] at hmemq
                rcases hone with hone | hone
                · rw [hone] at hmemq
                  exact List.mem_singleton.1 hmemq
                · rw [hone] at hmemq
                  cases hmemq
              · rw [hnum]
                exact hlen i hi
              · obtain ⟨_, t, _, htype, -⟩ :=
                  (h.aligned hne hcut hmem).leaves i _ (List.getElem?_eq_getElem hi)
                rw [hassembled.values hi, rowAt_eq (List.getElem?_eq_getElem hi) htype,
                  List.flatMap_map]
                exact List.flatMap_singleton' _

end FlatRun

end File

/-! ## The rows that are counted and the rows that are held -/

section Counts

variable {lens : List (Nat × Nat)}

/-- The rows that the units of a row group hold, if its columns are cut alike. -/
def keptRows (lens : List (Nat × Nat)) (bs : List RecordBatch) : Nat :=
  (bs.map fun b => (unitLengths lens b.numRows 0).sum).sum

theorem sum_flatMap_unitLengths (lens : List (Nat × Nat)) (bs : List RecordBatch) :
    (bs.flatMap fun b => unitLengths lens b.numRows 0).sum = keptRows lens bs := by
  rw [List.flatMap_def, List.sum_flatten, List.map_map]
  rfl

theorem keptRows_flatten (lens : List (Nat × Nat)) (gs : List (List RecordBatch)) :
    keptRows lens gs.flatten = (gs.map (keptRows lens)).sum := by
  rw [keptRows, List.map_flatten, List.sum_flatten, List.map_map]
  rfl

/-- All rows are kept iff the unit length divides the rows of every batch. -/
theorem keptRows_eq_iff {bs : List RecordBatch} : keptRows lens bs = writtenRows bs ↔
    ∀ b ∈ bs, unitLength lens b.numRows 0 ∣ b.numRows := by
  constructor
  · intro h b hb
    have hle : List.Forall₂ (· ≤ ·) (bs.map fun b => (unitLengths lens b.numRows 0).sum)
        (bs.map RecordBatch.numRows) := by
      rw [List.forall₂_map_left_iff, List.forall₂_map_right_iff, List.forall₂_same]
      exact fun c _ => sum_unitLengths_le lens c.numRows 0
    have hall := sum_eq_of_le hle h.symm
    rw [List.forall₂_map_left_iff, List.forall₂_map_right_iff, List.forall₂_same] at hall
    exact sum_unitLengths_eq_iff.1 (hall b hb)
  · intro h
    rw [keptRows, writtenRows]
    exact congrArg List.sum (List.map_congr_left fun b hb => sum_unitLengths_eq_iff.2 (h b hb))

/-- A batch with rows keeps some of them. -/
theorem keptRows_eq_zero_iff {bs : List RecordBatch}
    (haccepted : ∀ n ∈ bs.map RecordBatch.numRows, ∀ k, lens.lookup 0 = some k → 0 < k ∧ k ≤ n) :
    keptRows lens bs = 0 ↔ ∀ b ∈ bs, b.numRows = 0 := by
  have hbatch : ∀ b ∈ bs, (unitLengths lens b.numRows 0).sum = 0 ↔ b.numRows = 0 := by
    intro b hb
    rw [unitLengths]
    cases hk : lens.lookup 0 with
    | none => rw [List.sum_singleton]
    | some k =>
        obtain ⟨hpos, hle⟩ := haccepted _ (List.mem_map_of_mem hb) k hk
        have hdiv : 0 < b.numRows / k := Nat.div_pos hle hpos
        rw [List.sum_replicate_nat, Nat.mul_eq_zero]
        omega
  rw [keptRows, List.sum_eq_zero_iff]
  constructor
  · intro h b hb
    exact (hbatch b hb).1 (h _ (List.mem_map_of_mem hb))
  · intro h n hn
    obtain ⟨b, hb, rfl⟩ := List.mem_map.1 hn
    exact (hbatch b hb).2 (h b hb)

theorem columnRows_flatten (lens : List (Nat × Nat)) (i : Nat) (gs : List (List RecordBatch)) :
    columnRows lens i gs.flatten = gs.flatMap (columnRows lens i) := by
  rw [columnRows, encodedColumn, flatMap_flatten, List.flatMap_assoc]
  rfl

end Counts

/-! ## Selecting a row and reading the file -/

/-- The batch is one row of the batches. -/
structure RecordBatch.IsRow (q : RecordBatch) (full : List RecordBatch) (row : Nat) : Prop where
  numRows : q.numRows = 1
  schema : ∀ b ∈ full, q.schema = b.schema
  values : ∀ i, q.valuesOf i = (full.flatMap fun b => b.valuesOf i)[row]?.toList

/-- The file is read, and each of its rows is selected as one batch; beyond them
there is none. -/
def FileWriter.SelectsRows (env : Env) (w : FileWriter) : Prop :=
  ∃ full, readProjected env w .all = .ok full ∧ ∀ row,
    (row < (full.map RecordBatch.numRows).sum →
      ∃ q, readRow env w row = .ok [q] ∧ q.IsRow full row) ∧
    ((full.map RecordBatch.numRows).sum ≤ row → readRow env w row = .ok [])

theorem eq_of_toList_eq {α : Type} {o o' : Option α} (h : o.toList = o'.toList) : o = o' := by
  have hhead := congrArg List.head? h
  rwa [Option.head?_toList, Option.head?_toList] at hhead

/-- Beyond the schema there are no columns. -/
theorem RecordBatch.valuesOf_eq_nil {q : RecordBatch} {i : Nat} (h : q.schema.length ≤ i) :
    q.valuesOf i = [] := by
  have hwidth := congrArg List.length q.dataType_columns
  rw [List.length_map, List.length_map] at hwidth
  rw [RecordBatch.valuesOf, List.getElem?_eq_none (by omega)]
  rfl

section Selected

variable {env : Env} {schema : List Field} {options : FileWriterOptions} {cs : List Call}
  {w w₁ : FileWriter} {sec : Sections} {p : PostscriptValues}
  (hne : schema ≠ []) (hcut : ∀ b ∈ batches cs, b.CutAlike options.customEncunitLen schema.length)

include hne hcut

/-- Each column of a row group holds the rows that are kept. -/
theorem FlatRun.length_columnRows (h : FlatRun env schema options cs w w₁ sec p)
    {bs : List RecordBatch} (hbs : bs ∈ rowGroupsOf options (batches cs)) {i : Nat}
    (hi : i < schema.length) :
    (columnRows options.customEncunitLen i bs).length = keptRows options.customEncunitLen bs := by
  rw [columnRows, (h.aligned hne hcut hbs).length_rows hi, sum_flatMap_unitLengths]

/-- **Row by row.** What the reader selects is what is read, in every column, iff no
row group with rows follows one that keeps fewer than it counts. -/
theorem FlatRun.lookAt_eq_iff (h : FlatRun env schema options cs w w₁ sec p) {i : Nat}
    (hi : i < schema.length) :
    (∀ row, lookAt writtenRows (columnRows options.customEncunitLen i)
        (rowGroupsOf options (batches cs)) row =
          (columnRows options.customEncunitLen i (batches cs))[row]?) ↔
      (rowGroupsOf options (batches cs)).Pairwise fun g g' =>
        (∀ b ∈ g, unitLength options.customEncunitLen b.numRows 0 ∣ b.numRows) ∨
          ∀ b ∈ g', b.numRows = 0 := by
  have hpos : 0 < schema.length := Nat.lt_of_le_of_lt (Nat.zero_le i) hi
  have hall : columnRows options.customEncunitLen i (batches cs) =
      (rowGroupsOf options (batches cs)).flatMap (columnRows options.customEncunitLen i) := by
    rw [← columnRows_flatten, FlatRun.flatten_rowGroups]
  have hle : ∀ bs ∈ rowGroupsOf options (batches cs),
      (columnRows options.customEncunitLen i bs).length ≤ writtenRows bs := by
    intro bs hbs
    rw [h.length_columnRows hne hcut hbs hi, keptRows, writtenRows]
    exact List.sum_le_sum fun b _ => sum_unitLengths_le _ b.numRows 0
  rw [hall, lookAt_eq_getElem?_iff hle]
  refine List.Pairwise.iff_of_mem fun {g g'} hg hg' => ?_
  rw [h.length_columnRows hne hcut hg hi, keptRows_eq_iff, ← List.length_eq_zero_iff,
    h.length_columnRows hne hcut hg' hi, keptRows_eq_zero_iff (h.accepted hg' hpos)]

end Selected

/-- **Selecting one row is picking it from the full read**, for every row, iff the
columns of every batch are cut alike and no row group with rows follows one whose
units leave rows over. -/
theorem selectsRows_iff {env : Env} {schema : List Field} {options : FileWriterOptions}
    {cs : List Call} {w : FileWriter} (laws : env.SerializationLaws)
    (hfin : Finishes env schema options cs w) (hfits : w.Fits) (hflat : flatSchema schema = true)
    (hplain : options.dictionaryType.isPlain = true)
    (hcodec : CodecRoundTrips env schema options cs w)
    (hmatch : ∀ b ∈ batches cs, b.Matches schema) :
    SelectsRows env w ↔ schema ≠ [] ∧
      (∀ b ∈ batches cs, b.CutAlike options.customEncunitLen schema.length) ∧
      (rowGroupsOf options (batches cs)).Pairwise fun g g' =>
        (∀ b ∈ g, unitLength options.customEncunitLen b.numRows 0 ∣ b.numRows) ∨
          ∀ b ∈ g', b.numRows = 0 := by
  obtain ⟨w₁, sec, p, hrun⟩ := finishes_iff.1 hfin
  have h : FlatRun env schema options cs w w₁ sec p :=
    ⟨hrun, hfits, hflat, hplain, hcodec w₁ sec p hrun, hmatch⟩
  -- what the full read has in each column
  have hfull : ∀ {full}, readProjected env w .all = .ok full → schema ≠ [] →
      (∀ b ∈ batches cs, b.CutAlike options.customEncunitLen schema.length) →
        (∀ b ∈ full, b.schema = schema.map fieldToView) ∧ ∀ i < schema.length,
          (full.flatMap fun b => b.valuesOf i) =
            columnRows options.customEncunitLen i (batches cs) ∧
          (columnRows options.customEncunitLen i (batches cs)).length =
            (full.map RecordBatch.numRows).sum := by
    intro full hread hne hcut
    obtain ⟨full', hread', hassembled⟩ := h.read_all hne hcut laws
    rw [hread] at hread'
    cases hread'
    refine ⟨hassembled.fields, fun i hi => ⟨hassembled.values hi, ?_⟩⟩
    rw [hassembled.numRows, sum_flatMap_unitLengths, ← FlatRun.flatten_rowGroups options (batches cs),
      columnRows_flatten, keptRows_flatten, List.length_flatMap]
    exact congrArg List.sum (List.map_congr_left fun bs hbs => h.length_columnRows hne hcut hbs hi)
  constructor
  · rintro ⟨full, hread, hrows⟩
    obtain ⟨hne, hcut⟩ := h.cutAlike_of_read laws hread
    have hpos : 0 < schema.length := List.length_pos_iff.2 hne
    obtain ⟨hvalues, hcount⟩ := (hfull hread hne hcut).2 0 hpos
    refine ⟨hne, hcut, (h.lookAt_eq_iff hne hcut hpos).1 fun row => ?_⟩
    obtain ⟨qs, hqs, -, hcolumns⟩ := h.readRow_eq hne hcut laws row
    obtain ⟨-, hpicked⟩ := hcolumns 0 hpos
    obtain ⟨hbelow, hbeyond⟩ := hrows row
    apply eq_of_toList_eq
    rw [← hpicked]
    by_cases hrow : row < (full.map RecordBatch.numRows).sum
    · obtain ⟨q, hq, hisRow⟩ := hbelow hrow
      rw [hqs] at hq
      cases hq
      rw [List.flatMap_singleton, hisRow.values 0, hvalues]
    · rw [hqs] at hbeyond
      rw [Except.ok.inj (hbeyond (Nat.le_of_not_lt hrow)), List.getElem?_eq_none (by omega)]
      rfl
  · rintro ⟨hne, hcut, hpairs⟩
    obtain ⟨full, hread, -⟩ := h.read_all hne hcut laws
    obtain ⟨hfields, hcolumns⟩ := hfull hread hne hcut
    have hpos : 0 < schema.length := List.length_pos_iff.2 hne
    refine ⟨full, hread, fun row => ?_⟩
    obtain ⟨qs, hqs, hbatch, hpicked⟩ := h.readRow_eq hne hcut laws row
    have hlook : ∀ i < schema.length, lookAt writtenRows (columnRows options.customEncunitLen i)
        (rowGroupsOf options (batches cs)) row =
          (full.flatMap fun b => b.valuesOf i)[row]? := by
      intro i hi
      rw [(hcolumns i hi).1]
      exact (h.lookAt_eq_iff hne hcut hi).2 hpairs row
    have hlen := (hpicked 0 hpos).1
    obtain ⟨hvalues, hcount⟩ := hcolumns 0 hpos
    rw [hlook 0 hpos, hvalues] at hlen
    constructor
    · intro hrow
      rw [List.getElem?_eq_getElem (by omega)] at hlen
      obtain ⟨q, rfl⟩ := List.length_eq_one_iff.1 hlen
      obtain ⟨hone, hschema⟩ := hbatch q (List.mem_singleton_self q)
      refine ⟨q, hqs, hone, fun b hb => hschema.trans (hfields b hb).symm, fun i => ?_⟩
      by_cases hi : i < schema.length
      · have hvalue := (hpicked i hi).2
        rwa [hlook i hi, List.flatMap_singleton] at hvalue
      · have hwide : ∀ b : RecordBatch, b.schema = schema.map fieldToView → b.valuesOf i = [] := by
          intro b hb
          apply RecordBatch.valuesOf_eq_nil
          rw [hb, List.length_map]
          exact Nat.le_of_not_lt hi
        rw [hwide q hschema, List.flatMap_eq_nil_iff.2 fun b hb => hwide b (hfields b hb)]
        rfl
    · intro hrow
      rw [List.getElem?_eq_none (by omega)] at hlen
      rw [hqs, List.length_eq_zero_iff.1 hlen]

namespace Sample

/-- Units of two rows, and a row group for each batch. -/
def groupedOptions : FileWriterOptions := { cutOptions with rowGroupSize := 1 }

/-- Two batches of three rows: the units of each row group hold two of them. -/
def groupedCalls : List Call := [.writeBatch cutBatch, .writeBatch cutBatch]

theorem groupedFits :
    FileWriter.runFits Sample.env cutSchema groupedOptions groupedCalls = true := by decide +kernel

theorem groupedMatches : ∀ b ∈ batches groupedCalls, b.Matches cutSchema := by
  intro b hb
  rw [List.eq_of_mem_replicate (n := 2) hb]
  rfl

theorem groupedCodec (w : FileWriter) :
    CodecRoundTrips Sample.env cutSchema groupedOptions groupedCalls w :=
  codecRoundTrips_native roundTrips compressionLaws rfl cutSchema groupedCalls w

/-- The row counts and the values of the full read, and the number of batches that a
row index selects. -/
def groupedValues (row : Nat) : Result (List Nat × List (List (Option Scalar)) × Nat) := do
  let w ← FileWriter.run Sample.env cutSchema groupedOptions groupedCalls
  let full ← readProjected Sample.env w .all
  let selected ← readRow Sample.env w row
  pure (full.map RecordBatch.numRows, full.map (fun b => b.valuesOf 0), selected.length)

theorem groupedValues_eq {row n : Nat} {counts : List Nat} {values : List (List (Option Scalar))}
    (h : groupedValues row = .ok (counts, values, n)) : ∃ w full selected,
      FileWriter.run Sample.env cutSchema groupedOptions groupedCalls = .ok w ∧
        readProjected Sample.env w .all = .ok full ∧ readRow Sample.env w row = .ok selected ∧
          full.map RecordBatch.numRows = counts ∧ full.map (fun b => b.valuesOf 0) = values ∧
            selected.length = n := by
  simp only [groupedValues, bind_eq_ok, pure_eq_ok, Except.ok.injEq, Prod.mk.injEq] at h
  obtain ⟨w, hw, full, hfull, selected, hselected, hcounts, hvalues, hlen⟩ := h
  exact ⟨w, full, selected, hw, hfull, hselected, hcounts, hvalues, hlen⟩

end Sample

theorem selectsRows_iff_sample : ∃ w,
    Finishes Sample.env Sample.cutSchema Sample.groupedOptions Sample.groupedCalls w ∧
      (SelectsRows Sample.env w ↔ Sample.cutSchema ≠ [] ∧
        (∀ b ∈ batches Sample.groupedCalls,
          b.CutAlike Sample.groupedOptions.customEncunitLen Sample.cutSchema.length) ∧
        (rowGroupsOf Sample.groupedOptions (batches Sample.groupedCalls)).Pairwise fun g g' =>
          (∀ b ∈ g, unitLength Sample.groupedOptions.customEncunitLen b.numRows 0 ∣ b.numRows) ∨
            ∀ b ∈ g', b.numRows = 0) := by
  obtain ⟨w, hfin, hfits⟩ := exists_of_runFits Sample.groupedFits
  exact ⟨w, hfin, selectsRows_iff Sample.serializationLaws hfin hfits rfl rfl
    (Sample.groupedCodec w) Sample.groupedMatches⟩

/-- Row 2 of the full read is the first row of the second row group; the reader looks
for the row that the first one counts but does not hold. -/
theorem second_row_group_shifted : ∃ w full,
    Finishes Sample.env Sample.cutSchema Sample.groupedOptions Sample.groupedCalls w ∧ w.Fits ∧
      flatSchema Sample.cutSchema = true ∧
        CodecRoundTrips Sample.env Sample.cutSchema Sample.groupedOptions Sample.groupedCalls w ∧
          (∀ b ∈ batches Sample.groupedCalls, b.Matches Sample.cutSchema) ∧
            readProjected Sample.env w .all = .ok full ∧
              (full.flatMap fun b => b.valuesOf 0) =
                [some (.int 7), some (.int 8), some (.int 7), some (.int 8)] ∧
                readRow Sample.env w 2 = .ok [] ∧ ¬ SelectsRows Sample.env w := by
  have hvalues : Sample.groupedValues 2 =
      .ok ([2, 2], [[some (.int 7), some (.int 8)], [some (.int 7), some (.int 8)]], 0) := by
    decide +kernel
  obtain ⟨w, full, selected, hw, hfull, hselected, hcounts, hread, hlen⟩ :=
    Sample.groupedValues_eq hvalues
  rw [List.length_eq_zero_iff.1 hlen] at hselected
  have hcolumn : (full.flatMap fun b => b.valuesOf 0) =
      [some (.int 7), some (.int 8), some (.int 7), some (.int 8)] := by
    rw [List.flatMap_def, hread]
    rfl
  refine ⟨w, full, finishes_of_run hw, fits_of_runFits Sample.groupedFits hw, rfl,
    Sample.groupedCodec w, Sample.groupedMatches, hfull, hcolumn, hselected, ?_⟩
  rintro ⟨full', hfull', hrows⟩
  rw [hfull] at hfull'
  cases hfull'
  obtain ⟨hbelow, -⟩ := hrows 2
  rw [hcounts] at hbelow
  obtain ⟨q, hq, -⟩ := hbelow (by decide)
  rw [hselected] at hq
  cases hq

end F3Format
