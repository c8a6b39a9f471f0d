import F3Format.Checksums
import F3Format.DictionaryTable

/-!
# Recorded sizes and counts

A file records sizes and row counts in fields of 32 bits: of units, chunks, row
groups, the WASM binaries and their table, the column metadata, and in the
postscript. `FileSizes` holds such numbers. A `Ledger` keeps the exact ones next
to a run of the writer, step by step (`WriteStep`), and every step keeps the
recorded ones equal to the exact ones modulo `2 ^ 32` (`Ledger.Of`). The writer
does not check any of them, so that what it records is true of exactly the runs
in which the numbers fit (`recordedSizes_eq_iff`).
-/

set_option autoImplicit false

namespace F3Format

open Lib FileWriter

/-! ## The numbers -/

/-- The size of a chunk, and the size and the number of rows of each of its units. -/
structure ChunkSizes where
  size : Nat
  units : List (Nat × Nat)
  deriving DecidableEq, Repr

/-- The rows and the size of a row group, and the chunks of each of its columns. -/
structure RowGroupSizes where
  rows : Nat
  size : Nat
  columns : List (List ChunkSizes)
  deriving DecidableEq, Repr

/-- The sizes and counts of a file. -/
structure FileSizes where
  rowGroups : List RowGroupSizes
  dictionaries : List ChunkSizes
  wasms : List Nat
  /-- the optional sections; the only one is the table of the WASM binaries -/
  sections : List Nat
  columnMetadatas : List Nat
  metadata : Nat
  footer : Nat
  deriving DecidableEq, Repr

/-- The chunk with every number changed by `f`. -/
def ChunkSizes.map (f : Nat → Nat) (c : ChunkSizes) : ChunkSizes :=
  ⟨f c.size, c.units.map fun u => (f u.1, f u.2)⟩

/-- The row group with every number changed by `f`. -/
def RowGroupSizes.map (f : Nat → Nat) (g : RowGroupSizes) : RowGroupSizes :=
  ⟨f g.rows, f g.size, g.columns.map fun col => col.map (ChunkSizes.map f)⟩

/-- The file with every number changed by `f`. -/
def FileSizes.map (f : Nat → Nat) (s : FileSizes) : FileSizes where
  rowGroups := s.rowGroups.map (RowGroupSizes.map f)
  dictionaries := s.dictionaries.map (ChunkSizes.map f)
  wasms := s.wasms.map f
  sections := s.sections.map f
  columnMetadatas := s.columnMetadatas.map f
  metadata := f s.metadata
  footer := f s.footer

/-- The units of a chunk are not larger than the chunk. -/
def ChunkSizes.Nested (c : ChunkSizes) : Prop := ∀ u ∈ c.units, u.1 ≤ c.size

/-- The chunks of a row group are not larger than the row group. -/
def RowGroupSizes.Nested (g : RowGroupSizes) : Prop :=
  ∀ col ∈ g.columns, ∀ c ∈ col, c.size ≤ g.size ∧ c.Nested

/-- Every part is not larger than the part it is in. -/
structure FileSizes.Nested (s : FileSizes) : Prop where
  rowGroups : ∀ g ∈ s.rowGroups, g.Nested
  dictionaries : ∀ c ∈ s.dictionaries, c.Nested
  columnMetadatas : ∀ n ∈ s.columnMetadatas, n ≤ s.metadata
  footer : s.footer ≤ s.metadata

/-- The units have fewer than `2 ^ 32` rows. -/
def ChunkSizes.RowsFit (c : ChunkSizes) : Prop := ∀ u ∈ c.units, u.2 < 2 ^ 32

/-- The rows and the bytes of the row group, and the rows of its units. -/
structure RowGroupSizes.Fits (g : RowGroupSizes) : Prop where
  rows : g.rows < 2 ^ 32
  size : g.size < 2 ^ 32
  units : ∀ col ∈ g.columns, ∀ c ∈ col, c.RowsFit

/-- What decides whether all numbers are below `2 ^ 32`. -/
structure FileSizes.Fits (s : FileSizes) : Prop where
  rowGroups : ∀ g ∈ s.rowGroups, g.Fits
  dictionaries : ∀ c ∈ s.dictionaries, c.size < 2 ^ 32 ∧ c.RowsFit
  wasms : ∀ n ∈ s.wasms, n < 2 ^ 32
  sections : ∀ n ∈ s.sections, n < 2 ^ 32
  metadata : s.metadata < 2 ^ 32

theorem u32_eq_self_iff {n : Nat} : u32 n = n ↔ n < 2 ^ 32 :=
  Nat.mod_eq_iff_lt (by decide)

theorem map_eq_self_iff {α : Type} {f : α → α} {xs : List α} :
    xs.map f = xs ↔ ∀ x ∈ xs, f x = x := by
  induction xs with
  | nil => simp
  | cons x xs ih => rw [List.map_cons, List.cons.injEq, List.forall_mem_cons, ih]

/-- Of a chunk, the size and the rows of the units decide. -/
theorem ChunkSizes.map_u32_eq_iff {c : ChunkSizes} (h : c.Nested) :
    c.map u32 = c ↔ c.size < 2 ^ 32 ∧ c.RowsFit := by
  obtain ⟨size, units⟩ := c
  simp only [map, mk.injEq, map_eq_self_iff, Prod.mk.injEq, u32_eq_self_iff, RowsFit, Prod.forall]
  constructor
  · rintro ⟨hsize, hunits⟩
    exact ⟨hsize, fun a b hu => (hunits a b hu).2⟩
  · rintro ⟨hsize, hrows⟩
    exact ⟨hsize, fun a b hu => ⟨Nat.lt_of_le_of_lt (h (a, b) hu) hsize, hrows a b hu⟩⟩

/-- Of a row group, its rows, its size and the rows of the units decide. -/
theorem RowGroupSizes.map_u32_eq_iff {g : RowGroupSizes} (h : g.Nested) :
    g.map u32 = g ↔ g.Fits := by
  have hchunks : ∀ col ∈ g.columns, ∀ c ∈ col,
      (c.map u32 = c ↔ c.size < 2 ^ 32 ∧ c.RowsFit) :=
    fun col hcol c hc => (h col hcol c hc).2 |> ChunkSizes.map_u32_eq_iff
  obtain ⟨rows, size, columns⟩ := g
  simp only [map, mk.injEq, map_eq_self_iff, u32_eq_self_iff]
  constructor
  · rintro ⟨hrows, hsize, hcolumns⟩
    exact ⟨hrows, hsize, fun col hcol c hc => ((hchunks col hcol c hc).1
      (hcolumns col hcol c hc)).2⟩
  · rintro ⟨hrows, hsize, hunits⟩
    refine ⟨hrows, hsize, fun col hcol c hc => (hchunks col hcol c hc).2 ⟨?_, hunits col hcol c hc⟩⟩
    exact Nat.lt_of_le_of_lt (h col hcol c hc).1 hsize

/-- A file's numbers are kept by the narrowing exactly when these fit. -/
theorem FileSizes.map_u32_eq_iff {s : FileSizes} (h : s.Nested) : s.map u32 = s ↔ s.Fits := by
  have hgroups : ∀ g ∈ s.rowGroups, (g.map u32 = g ↔ g.Fits) :=
    fun g hg => RowGroupSizes.map_u32_eq_iff (h.rowGroups g hg)
  have hdicts : ∀ c ∈ s.dictionaries, (c.map u32 = c ↔ c.size < 2 ^ 32 ∧ c.RowsFit) :=
    fun c hc => ChunkSizes.map_u32_eq_iff (h.dictionaries c hc)
  obtain ⟨rowGroups, dictionaries, wasms, sections, columnMetadatas, metadata, footer⟩ := s
  simp only [map, mk.injEq, map_eq_self_iff, u32_eq_self_iff]
  constructor
  · rintro ⟨hg, hd, hw, hs, -, hm, -⟩
    exact ⟨fun g hmem => (hgroups g hmem).1 (hg g hmem), fun c hmem => (hdicts c hmem).1 (hd c hmem),
      hw, hs, hm⟩
  · rintro ⟨hg, hd, hw, hs, hm⟩
    refine ⟨fun g hmem => (hgroups g hmem).2 (hg g hmem),
      fun c hmem => (hdicts c hmem).2 (hd c hmem), hw, hs, ?_, hm, ?_⟩
    · exact fun n hn => Nat.lt_of_le_of_lt (h.columnMetadatas n hn) hm
    · exact Nat.lt_of_le_of_lt h.footer hm

/-! ## Exact and recorded numbers -/

/-- The unit holds the array as some encoder encodes it, and records its length. -/
structure UnitOf (env : Env) (u : SerializedEncUnit) (array : ArrayRef) : Prop where
  bytes : ∃ w enableDict c payload, unitPayload env w enableDict array = .ok payload ∧
    compressData env payload c = .ok u.bytes
  rows : u.numRows = u32 array.len

/-- The exact numbers of a chunk whose units hold the arrays. -/
def EncodedColumnChunk.exactSizes (c : EncodedColumnChunk) (arrays : List ArrayRef) : ChunkSizes :=
  ⟨c.bytes.length, List.zipWith (fun u a => (u.bytes.length, a.len)) c.encunits arrays⟩

/-- The numbers the record of a chunk has. -/
def Chunk.recordedSizes (c : Chunk) : ChunkSizes :=
  ⟨c.size, c.blocks.map fun e => (e.size, e.numRows)⟩

/-- The numbers the metadata of a column has. -/
def ColumnMetadata.recordedSizes (m : ColumnMetadata) : List ChunkSizes :=
  m.columnChunks.map Chunk.recordedSizes

/-- The numbers the table of the row groups has. -/
def RowGroupsTable.recordedSizes (t : RowGroupsTable) : List RowGroupSizes :=
  List.zipWith (fun (n : Nat × Nat) g =>
    ⟨n.1, n.2, g.colMetadatas.map ColumnMetadata.recordedSizes⟩)
    (t.rowCounts.zip t.sizes) t.rowGroupMetadata

section Chunks

variable {env : Env} {c : EncodedColumnChunk} {arrays : List ArrayRef}

/-- The record of a chunk has its numbers, narrowed. -/
theorem recordedSizes_record (h : List.Forall₂ (UnitOf env) c.encunits arrays) (checksum : Bool)
    (offset : Nat) :
    (c.record env checksum offset).recordedSizes = (c.exactSizes arrays).map u32 := by
  have hunits : ∀ {us : List SerializedEncUnit} {as : List ArrayRef},
      List.Forall₂ (UnitOf env) us as →
        (us.map SerializedEncUnit.recorded).map (fun e => (e.size, e.numRows)) =
          (List.zipWith (fun u a => (u.bytes.length, a.len)) us as).map
            fun n => (u32 n.1, u32 n.2) := by
    intro us as hus
    induction hus with
    | nil => rfl
    | cons hu _ ih =>
        rw [List.map_cons, List.map_cons, List.zipWith_cons_cons, List.map_cons, ih, ← hu.rows]
        rfl
  rw [Chunk.recordedSizes, ChunkSizes.map, ChunkSizes.mk.injEq]
  exact ⟨rfl, hunits h⟩

theorem length_le_of_mem_units {us : List SerializedEncUnit} {u : SerializedEncUnit}
    (hu : u ∈ us) : u.bytes.length ≤ (us.map SerializedEncUnit.bytes).flatten.length := by
  exact (List.sublist_flatten_of_mem (List.mem_map_of_mem hu)).length_le

theorem nested_exactSizes : (c.exactSizes arrays).Nested := by
  intro n hn
  obtain ⟨i, hi, rfl⟩ := List.mem_iff_getElem.1 hn
  simp only [EncodedColumnChunk.exactSizes, List.getElem_zipWith]
  exact length_le_of_mem_units (List.getElem_mem _)

end Chunks

/-! ## The ledger of a run -/

/-- The exact numbers of the finished row groups, and of the one in progress. -/
structure Ledger where
  closed : List RowGroupSizes
  current : RowGroupSizes

namespace Ledger

/-- A row group that has nothing in its `n` columns. -/
def emptyRowGroup (n : Nat) : RowGroupSizes := ⟨0, 0, List.replicate n []⟩

/-- The ledger of a new writer with `n` physical columns. -/
def new (n : Nat) : Ledger := ⟨[], emptyRowGroup n⟩

/-- A chunk is written for column `i`. -/
def addChunk (l : Ledger) (i : Nat) (c : ChunkSizes) : Ledger :=
  { l with current := { l.current with
      size := l.current.size + c.size
      columns := l.current.columns.set i (l.current.columns.getD i [] ++ [c]) } }

/-- The rows of a batch are counted. -/
def addRows (l : Ledger) (n : Nat) : Ledger :=
  { l with current := { l.current with rows := l.current.rows + n } }

/-- The row group is finished. -/
def finishRowGroup (l : Ledger) (n : Nat) : Ledger :=
  ⟨l.closed ++ [l.current], emptyRowGroup n⟩

/-- The row groups are made of parts that are not larger. -/
structure Nested (l : Ledger) : Prop where
  closed : ∀ g ∈ l.closed, g.Nested
  current : l.current.Nested

end Ledger

/-- One operation of the writer on its state, with the exact numbers next to it. -/
inductive WriteStep (env : Env) : FileWriteState × Ledger → FileWriteState × Ledger → Prop where
  | flushChunk {s t : FileWriteState} {l : Ledger} {c : EncodedColumnChunk}
      {arrays : List ArrayRef} (harrays : List.Forall₂ (UnitOf env) c.encunits arrays)
      (h : s.flushChunk env c = .ok t) :
      WriteStep env (s, l) (t, l.addChunk c.columnIndex (c.exactSizes arrays))
  | addRows (s : FileWriteState) (l : Ledger) (n : Nat) :
      WriteStep env (s, l) (s.addRows n, l.addRows n)
  | finishRowGroup (s : FileWriteState) (l : Ledger) :
      WriteStep env (s, l) (s.finishRowGroup, l.finishRowGroup s.numPhysicalColumns)
  | counters (s : FileWriteState) (l : Ledger) (cs : List EncodingCounter) :
      WriteStep env (s, l) ({ s with columnCounters := cs }, l)

/-- Any number of operations. -/
abbrev WriteSteps (env : Env) : FileWriteState × Ledger → FileWriteState × Ledger → Prop :=
  Relation.ReflTransGen (WriteStep env)

/-- What the state records are the numbers of the ledger, narrowed. -/
structure Ledger.Of (s : FileWriteState) (l : Ledger) : Prop where
  rowCounts : s.rowGroupsTable.rowCounts = l.closed.map fun g => u32 g.rows
  sizes : s.rowGroupsTable.sizes = l.closed.map fun g => u32 g.size
  metadata : s.rowGroupsTable.rowGroupMetadata.map (fun g =>
      g.colMetadatas.map ColumnMetadata.recordedSizes) =
    l.closed.map fun g => (g.map u32).columns
  rows : s.numRowsInCurRowGroup = u32 l.current.rows
  size : s.writer.length = s.startOffsetOfCurRowGroup + l.current.size
  current : s.columnMetadatasInCurRowGroup.map ColumnMetadata.recordedSizes =
    (l.current.map u32).columns

theorem u32_add (m n : Nat) : u32 (u32 m + u32 n) = u32 (m + n) := (Nat.add_mod m n _).symm

theorem recordedSizes_addChunk (m : ColumnMetadata) (c : Chunk) :
    (m.addChunk c).recordedSizes = m.recordedSizes ++ [c.recordedSizes] := by
  rw [ColumnMetadata.recordedSizes, ColumnMetadata.addChunk, List.map_append]
  rfl

namespace Ledger

variable {env : Env} {s t : FileWriteState} {l : Ledger}

theorem Of.flushChunk (h : Of s l) {c : EncodedColumnChunk} {arrays : List ArrayRef}
    (harrays : List.Forall₂ (UnitOf env) c.encunits arrays) (ht : s.flushChunk env c = .ok t) :
    Of t (l.addChunk c.columnIndex (c.exactSizes arrays)) := by
  obtain ⟨m, hm, rfl⟩ := FileWriteState.flushChunk_eq_ok.1 ht
  refine ⟨h.rowCounts, h.sizes, h.metadata, h.rows, ?_, ?_⟩
  · show (s.writer ++ c.bytes).length = s.startOffsetOfCurRowGroup + (l.current.size + c.bytes.length)
    rw [List.length_append, h.size, Nat.add_assoc]
  · -- the column of the chunk is in the ledger, with the records it has so far
    have hcolumn : ∃ col, l.current.columns[c.columnIndex]? = some col ∧
        col.map (ChunkSizes.map u32) = m.recordedSizes := by
      have hget : ((l.current.map u32).columns)[c.columnIndex]? = some m.recordedSizes := by
        rw [← h.current, List.getElem?_map, hm]
        rfl
      rw [RowGroupSizes.map, List.getElem?_map, Option.map_eq_some_iff] at hget
      exact hget
    obtain ⟨col, hcol, hrecords⟩ := hcolumn
    show (s.columnMetadatasInCurRowGroup.set _ _).map ColumnMetadata.recordedSizes =
      (l.current.columns.set _ _).map fun col => col.map (ChunkSizes.map u32)
    rw [List.map_set, List.map_set, h.current, recordedSizes_addChunk,
      recordedSizes_record harrays, List.getD_eq_getElem?_getD, hcol, Option.getD_some,
      List.map_append, hrecords]
    rfl

theorem Of.addRows (h : Of s l) (n : Nat) : Of (s.addRows n) (l.addRows n) := by
  refine ⟨h.rowCounts, h.sizes, h.metadata, ?_, h.size, h.current⟩
  show u32 (s.numRowsInCurRowGroup + u32 n) = u32 (l.current.rows + n)
  rw [h.rows, u32_add]

theorem recordedSizes_empty (n : Nat) :
    (List.replicate n ColumnMetadata.empty).map ColumnMetadata.recordedSizes =
      ((emptyRowGroup n).map u32).columns := by
  show _ = (List.replicate n []).map _
  rw [List.map_replicate, List.map_replicate]
  rfl

theorem Of.finishRowGroup (h : Of s l) :
    Of s.finishRowGroup (l.finishRowGroup s.numPhysicalColumns) := by
  refine ⟨?_, ?_, ?_, rfl, rfl, recordedSizes_empty _⟩
  · show s.rowGroupsTable.rowCounts ++ [s.numRowsInCurRowGroup] = _
    rw [h.rowCounts, h.rows, Ledger.finishRowGroup, List.map_append]
    rfl
  · show s.rowGroupsTable.sizes ++ [u32 (s.writer.length - s.startOffsetOfCurRowGroup)] = _
    rw [h.sizes, h.size, Nat.add_sub_cancel_left, Ledger.finishRowGroup, List.map_append]
    rfl
  · show (s.rowGroupsTable.rowGroupMetadata ++
      [RowGroupMetadata.mk s.columnMetadatasInCurRowGroup]).map _ = _
    rw [List.map_append, h.metadata, Ledger.finishRowGroup, List.map_append, List.map_singleton,
      List.map_singleton, ← h.current]

/-- Every operation keeps the ledger in step with the state. -/
theorem Of.step {x y : FileWriteState × Ledger} (hstep : WriteStep env x y) (h : Of x.1 x.2) :
    Of y.1 y.2 := by
  cases hstep with
  | flushChunk harrays ht => exact h.flushChunk harrays ht
  | addRows s l n => exact h.addRows n
  | finishRowGroup s l => exact h.finishRowGroup
  | counters s l cs => exact ⟨h.rowCounts, h.sizes, h.metadata, h.rows, h.size, h.current⟩

theorem Of.steps {x y : FileWriteState × Ledger} (hsteps : WriteSteps env x y)
    (h : Of x.1 x.2) : Of y.1 y.2 := by
  induction hsteps with
  | refl => exact h
  | tail _ hstep ih => exact ih.step hstep

theorem nested_emptyRowGroup (n : Nat) : (emptyRowGroup n).Nested := by
  intro col hcol c hc
  rw [List.eq_of_mem_replicate hcol] at hc
  cases hc

theorem Nested.addChunk (h : l.Nested) {c : ChunkSizes} (hc : c.Nested) (i : Nat) :
    (l.addChunk i c).Nested := by
  refine ⟨h.closed, ?_⟩
  have hold : ∀ col ∈ l.current.columns, ∀ d ∈ col,
      d.size ≤ l.current.size + c.size ∧ d.Nested := by
    intro col hcol d hd
    obtain ⟨hsize, hnested⟩ := h.current col hcol d hd
    exact ⟨Nat.le_trans hsize (Nat.le_add_right _ _), hnested⟩
  intro col hcol d hd
  rcases List.mem_or_eq_of_mem_set hcol with hcol | rfl
  · exact hold col hcol d hd
  · rcases List.mem_append.1 hd with hd | hd
    · cases hi : l.current.columns[i]? with
      | none =>
          rw [List.getD_eq_getElem?_getD, hi] at hd
          cases hd
      | some col =>
          rw [List.getD_eq_getElem?_getD, hi] at hd
          exact hold col (List.mem_of_getElem? hi) d hd
    · rw [List.mem_singleton] at hd
      subst hd
      exact ⟨Nat.le_add_left _ _, hc⟩

theorem Nested.step {x y : FileWriteState × Ledger} (hstep : WriteStep env x y)
    (h : x.2.Nested) : y.2.Nested := by
  cases hstep with
  | flushChunk harrays ht => exact h.addChunk nested_exactSizes _
  | addRows s l n => exact ⟨h.closed, h.current⟩
  | finishRowGroup s l =>
      refine ⟨?_, nested_emptyRowGroup _⟩
      intro g hg
      rcases List.mem_append.1 hg with hg | hg
      · exact h.closed g hg
      · rw [List.mem_singleton] at hg
        subst hg
        exact h.current
  | counters s l cs => exact h

theorem Nested.steps {x y : FileWriteState × Ledger} (hsteps : WriteSteps env x y)
    (h : x.2.Nested) : y.2.Nested := by
  induction hsteps with
  | refl => exact h
  | tail _ hstep ih => exact ih.step hstep

/-- The numbers the table of the row groups has. -/
theorem Of.recordedSizes (h : Of s l) :
    s.rowGroupsTable.recordedSizes = l.closed.map (RowGroupSizes.map u32) := by
  have hzip : ∀ (gs : List RowGroupSizes) (ms : List RowGroupMetadata),
      ms.map (fun g => g.colMetadatas.map ColumnMetadata.recordedSizes) =
        gs.map (fun g => (g.map u32).columns) →
      List.zipWith (fun (n : Nat × Nat) (g : RowGroupMetadata) =>
          RowGroupSizes.mk n.1 n.2 (g.colMetadatas.map ColumnMetadata.recordedSizes))
        ((gs.map fun g => u32 g.rows).zip (gs.map fun g => u32 g.size)) ms =
          gs.map (RowGroupSizes.map u32) := by
    intro gs
    induction gs with
    | nil =>
        intro ms _
        rfl
    | cons g gs ih =>
        intro ms hms
        cases ms with
        | nil => cases hms
        | cons m ms =>
            rw [List.map_cons, List.map_cons, List.cons.injEq] at hms
            rw [List.map_cons, List.map_cons, List.zip_cons_cons, List.zipWith_cons_cons,
              ih ms hms.2, hms.1]
            rfl
  rw [RowGroupsTable.recordedSizes, h.rowCounts, h.sizes]
  exact hzip l.closed _ h.metadata

end Ledger

/-! ## The ledger follows every run -/

/-- The unit holds some array. -/
def HasArray (env : Env) (u : SerializedEncUnit) : Prop := ∃ array, UnitOf env u array

/-- Wherever a column encoder pushes a unit, it records the length of an array. -/
theorem pushSites_hasArray (env : Env) (w : WASMWritingContext) :
    PushSites env w (HasArray env) where
  encUnit := by
    intro enableDict c array u h
    unfold encodeEncUnit at h
    simp only [bind_eq_ok, pure_eq_ok, Except.ok.injEq] at h
    obtain ⟨payload, hpayload, out, hout, rfl⟩ := h
    exact ⟨array, ⟨w, enableDict, c, payload, hpayload, hout⟩, rfl⟩
  dict := by
    intro c array r h
    unfold DictColEncoder.units at h
    simp only [bind_eq_ok, pure_eq_ok, Except.ok.injEq] at h
    obtain ⟨arrays, -, dictPayload, hdict, indexPayload, hindex, dictOut, hdictOut, indexOut,
      hindexOut, rfl⟩ := h
    exact ⟨⟨arrays.1, ⟨w, false, c, dictPayload, hdict, hdictOut⟩, rfl⟩,
      ⟨arrays.2, ⟨w, false, c, indexPayload, hindex, hindexOut⟩, rfl⟩⟩

theorem exists_arrays {env : Env} {us : List SerializedEncUnit} (h : ∀ u ∈ us, HasArray env u) :
    ∃ arrays, List.Forall₂ (UnitOf env) us arrays := by
  induction us with
  | nil => exact ⟨[], .nil⟩
  | cons u us ih =>
      obtain ⟨⟨array, hu⟩, hus⟩ := List.forall_mem_cons.1 h
      obtain ⟨arrays, harrays⟩ := ih hus
      exact ⟨array :: arrays, .cons hu harrays⟩

/-- Every operation of the writer is a step of the ledger. -/
theorem runInvariant_ledger (env : Env) (w : WASMWritingContext) (x : FileWriteState × Ledger) :
    RunInvariant env (LogicalColEncoder.HoldsUnits env w (HasArray env))
      (fun c => ∀ u ∈ c.encunits, HasArray env u) (fun s => ∃ l, WriteSteps env x (s, l)) where
  encode := fun e array s he => LogicalColEncoder.encode_units (pushSites_hasArray env w) e array s he
  finish := fun e s he => LogicalColEncoder.finish_units (pushSites_hasArray env w) e s he
  submitDict := fun e s he => LogicalColEncoder.submitDict_units e s he
  flushChunk := by
    rintro s t c hc ⟨l, hl⟩ ht
    obtain ⟨arrays, harrays⟩ := exists_arrays hc
    exact ⟨_, hl.tail (.flushChunk harrays ht)⟩
  addRows := fun s n ⟨l, hl⟩ => ⟨_, hl.tail (.addRows s l n)⟩
  finishRowGroup := fun s ⟨l, hl⟩ => ⟨_, hl.tail (.finishRowGroup s l)⟩
  counters := fun s cs ⟨l, hl⟩ => ⟨_, hl.tail (.counters s l cs)⟩

/-- The state of a new writer, and the ledger it starts with. -/
def FileWriter.start (w₀ : FileWriter) : FileWriteState × Ledger :=
  (w₀.state, .new w₀.state.numPhysicalColumns)

namespace FileWriter

section

variable {env : Env} {schema : List Field} {options : FileWriterOptions} {cs : List Call}
  {w₀ w₁ : FileWriter}

theorem of_start (hnew : tryNew env schema options = .ok w₀) :
    Ledger.Of w₀.start.1 w₀.start.2 := by
  simp only [tryNew, bind_eq_ok, pure_eq_ok, Except.ok.injEq] at hnew
  obtain ⟨r, -, rfl⟩ := hnew
  exact ⟨rfl, rfl, rfl, rfl, rfl, Ledger.recordedSizes_empty _⟩

theorem nested_start (w₀ : FileWriter) : w₀.start.2.Nested := by
  refine ⟨?_, Ledger.nested_emptyRowGroup _⟩
  intro g hg
  cases hg

/-- After any calls, successful or not, and the row groups of `finish`, the state has
a ledger. -/
theorem exists_ledger (hnew : tryNew env schema options = .ok w₀)
    (hgroups : Act.Returns (finishRowGroups env) (Act.trace (call env) cs w₀).2 () w₁) :
    ∃ l, WriteSteps env w₀.start (w₁.state, l) := by
  have hI := runInvariant_ledger env (options.wasmContext env) w₀.start
  have hstart : RunInvariant.Holds
      (LogicalColEncoder.HoldsUnits env (options.wasmContext env) (HasArray env))
      (fun s => ∃ l, WriteSteps env w₀.start (s, l)) w₀ := by
    refine ⟨?_, _, Relation.ReflTransGen.refl⟩
    simp only [tryNew, bind_eq_ok, pure_eq_ok, Except.ok.injEq] at hnew
    obtain ⟨r, hr, rfl⟩ := hnew
    exact LogicalColEncoder.holdsAllUnits_iff.1 (holdsUnits_createLogicalEncoders schema hr)
  have hcalls := Act.trace_invariant (call env) _ (fun c w hw => (hI.maintains_call c w hw).2) cs
    hstart
  exact (hI.maintains_finishRowGroups.returns hcalls hgroups).2.2

end

/-! ## The numbers of a file -/

/-- The entries of the table of the WASM binaries, which are written after the
dictionaries. -/
def wasmEntries (env : Env) (w₁ : FileWriter) (css : List (List EncodedColumnChunk)) :
    List Fb.MetadataSection :=
  (FileWriteState.flushWasms w₁.wasmContext.getSortedWasms
    (FileWriteState.flushAllDictChunks env css w₁.state).1).2

/-- The numbers a file records that `finish` writes from `w₁` on: in the tables it
hands to the serialisers, and in the postscript. -/
def recordedSizes (env : Env) (w₁ : FileWriter) (css : List (List EncodedColumnChunk))
    (t : FileWriteState) (sec : Sections) : FileSizes where
  rowGroups := t.rowGroupsTable.recordedSizes
  dictionaries := sec.dictChunks.flatten.map Chunk.recordedSizes
  wasms := (w₁.wasmEntries env css).map Fb.MetadataSection.size
  sections := ((footerTable env w₁ t sec).optionalSections.bind
    Fb.OptionalMetadataSections.sizes).getD []
  columnMetadatas := t.rowGroupsTable.indirectRowGroupMetadata.flatMap fun g =>
    g.colMetadatas.map MetadataSection.size
  metadata := leDecode (slice t.writer (t.writer.length - postscriptSize) 4)
  footer := leDecode (slice t.writer (t.writer.length - postscriptSize + 4) 4)

/-- The exact numbers of that file, which has the parts `f`. -/
structure ExactSizes (env : Env) (w₀ w₁ : FileWriter) (css : List (List EncodedColumnChunk))
    (f : FileParts) (s : FileSizes) : Prop where
  rowGroups : ∃ current, WriteSteps env w₀.start (w₁.state, ⟨s.rowGroups, current⟩)
  dictionaries : ∃ arrays,
    List.Forall₂ (fun c as => List.Forall₂ (UnitOf env) c.encunits as) css.flatten arrays ∧
      s.dictionaries = List.zipWith EncodedColumnChunk.exactSizes css.flatten arrays
  wasms : s.wasms = w₁.wasmContext.getSortedWasms.map List.length
  sections : s.sections = [f.wasmTable.length]
  columnMetadatas : s.columnMetadatas = (w₁.state.rowGroupsTable.rowGroupMetadata.flatMap
    RowGroupMetadata.colMetadatas).map fun m => (m.bytes env).length
  metadata : s.metadata = f.metadata.length + f.footer.length
  footer : s.footer = f.footer.length

/-- The calls `cs` on the new writer `w₀`, successful or not, and then a `finish` that
has finished the row groups in `w₁`. -/
structure EndsWith (env : Env) (w₀ : FileWriter) (cs : List Call) (w₁ : FileWriter)
    (css : List (List EncodedColumnChunk)) (t : FileWriteState) (sec : Sections)
    (p : PostscriptValues) (f : FileParts) : Prop where
  rowGroups : Act.Returns (finishRowGroups env) (Act.trace (call env) cs w₀).2 () w₁
  dictionaries : ∃ peers, w₁.sharedDictionaryContext.finishAndFlush env w₁.wasmContext =
    .ok (css, peers, sec.dictDtypes)
  sections : writeSections env w₁ = .ok (t, sec, p)
  written : Written env w₁ t sec p f

section

variable {env : Env} {schema : List Field} {options : FileWriterOptions} {cs : List Call}
  {w₀ w₁ : FileWriter} {css : List (List EncodedColumnChunk)} {t : FileWriteState}
  {sec : Sections} {p : PostscriptValues} {f : FileParts} {s : FileSizes}

theorem recordedSizes_recordsFrom {checksum : Bool} {chunks : List EncodedColumnChunk}
    {arrays : List (List ArrayRef)}
    (h : List.Forall₂ (fun c as => List.Forall₂ (UnitOf env) c.encunits as) chunks arrays)
    (offset : Nat) :
    (recordsFrom env checksum offset chunks).map Chunk.recordedSizes =
      (List.zipWith EncodedColumnChunk.exactSizes chunks arrays).map (ChunkSizes.map u32) := by
  induction h generalizing offset with
  | nil => rfl
  | cons hc _ ih =>
      rw [recordsFrom, List.map_cons, ih, recordedSizes_record hc, List.zipWith_cons_cons,
        List.map_cons]

theorem sizes_of_forall₂ {α β : Type} {R : α → β → Prop} {xs : List α} {ys : List β}
    {exact : α → Nat} {recorded : β → Nat} (h : List.Forall₂ R xs ys)
    (hR : ∀ x y, R x y → recorded y = u32 (exact x)) :
    ys.map recorded = (xs.map exact).map u32 := by
  induction h with
  | nil => rfl
  | cons hxy _ ih => rw [List.map_cons, List.map_cons, List.map_cons, ih, hR _ _ hxy]

theorem sizes_wasmEntries (w₁ : FileWriter) (css : List (List EncodedColumnChunk)) :
    (w₁.wasmEntries env css).map Fb.MetadataSection.size =
      (w₁.wasmContext.getSortedWasms.map List.length).map u32 := by
  obtain ⟨sections, hrun, hall⟩ := FileWriteState.flushWasms_spec w₁.wasmContext.getSortedWasms
    (FileWriteState.flushAllDictChunks env css w₁.state).1
  rw [wasmEntries, hrun]
  exact sizes_of_forall₂ hall fun b m h => h.2

theorem sizes_indirect {lo : Nat} {file : Bytes} {gs : List RowGroupMetadata}
    {is : List IndirectRowGroupMetadata}
    (h : List.Forall₂ (fun (g : RowGroupMetadata) (i : IndirectRowGroupMetadata) =>
      List.Forall₂ (fun m => SectionOf lo file (m.bytes env)) g.colMetadatas i.colMetadatas) gs is) :
    (is.flatMap fun g => g.colMetadatas.map MetadataSection.size) =
      ((gs.flatMap RowGroupMetadata.colMetadatas).map fun m => (m.bytes env).length).map u32 := by
  induction h with
  | nil => rfl
  | cons hg _ ih =>
      rw [List.flatMap_cons, List.flatMap_cons, List.map_append, List.map_append, ih,
        sizes_of_forall₂ hg fun m i h => h.size]

/-- The first two fields of the postscript. -/
theorem postscript_sizes {pre : Bytes} (h : t.writer = pre ++ postscriptBytes p) :
    leDecode (slice t.writer (t.writer.length - postscriptSize) 4) = u32 p.metadataSize ∧
      leDecode (slice t.writer (t.writer.length - postscriptSize + 4) 4) = u32 p.footerSize := by
  have hlen : t.writer.length - postscriptSize = pre.length := by
    rw [h, List.length_append, length_postscriptBytes, Nat.add_sub_cancel]
  have hnarrow : ∀ n, leDecode (leEncode 4 (u32 n)) = u32 n :=
    fun n => leDecode_leEncode_of_lt (Nat.mod_lt _ (by decide))
  rw [hlen, h]
  constructor
  · rw [slice_append_right_zero]
    exact hnarrow p.metadataSize
  · rw [slice_append_right]
    exact hnarrow p.footerSize

theorem EndsWith.sound (hnew : tryNew env schema options = .ok w₀)
    (h : EndsWith env w₀ cs w₁ css t sec p f) : w₁.state.Sound := by
  have hI := stateInvariant_sound env
  have hcalls := Act.trace_invariant (call env) _ (fun c w hw => (hI.maintains_call c w hw).2) cs
    (sound_tryNew hnew)
  exact (hI.maintains_finishRowGroups.returns hcalls h.rowGroups).2

/-- The chunks of the dictionaries are those the file lists. -/
theorem EndsWith.dictChunks (h : EndsWith env w₀ cs w₁ css t sec p f) :
    sec.dictChunks.flatten =
      recordsFrom env w₁.state.enableIoUnitChecksum f.rowGroups.length css.flatten := by
  obtain ⟨css', peers', hflush', -, hrecords, -⟩ := h.written.dictionaries
  obtain ⟨peers, hflush⟩ := h.dictionaries
  rw [hflush] at hflush'
  cases hflush'
  exact hrecords

/-- Every number a file records is the exact one, narrowed. -/
theorem recordedSizes_eq (hnew : tryNew env schema options = .ok w₀)
    (h : EndsWith env w₀ cs w₁ css t sec p f) (hs : ExactSizes env w₀ w₁ css f s) :
    recordedSizes env w₁ css t sec = s.map u32 := by
  obtain ⟨current, hsteps⟩ := hs.rowGroups
  obtain ⟨arrays, harrays, hdictionaries⟩ := hs.dictionaries
  obtain ⟨sections, htable, hall, -, -⟩ := h.written.sections
  have hledger := Ledger.Of.steps hsteps (of_start hnew)
  have hindirect := (h.sound hnew).indirect
  have hfile : t.writer = (f.data ++ f.metadata ++ f.footer) ++ postscriptBytes p := by
    rw [h.written.file, FileParts.bytes, h.written.postscript]
    simp only [List.append_assoc]
  have hpostscript := postscript_sizes hfile
  rw [recordedSizes, FileSizes.map, FileSizes.mk.injEq]
  refine ⟨?_, ?_, ?_, ?_, ?_, ?_, ?_⟩
  · rw [htable]
    exact hledger.recordedSizes
  · rw [h.dictChunks, hdictionaries]
    exact recordedSizes_recordsFrom harrays _
  · rw [hs.wasms]
    exact sizes_wasmEntries w₁ css
  · rw [hs.sections, ← h.written.wasmMetaSize]
    rfl
  · rw [hs.columnMetadatas, htable, hindirect]
    exact sizes_indirect hall
  · rw [hpostscript.1, h.written.metadataSize, hs.metadata]
  · rw [hpostscript.2, h.written.footerSize, hs.footer]

/-- The parts of a file are not larger than the parts they are in. -/
theorem ExactSizes.nested (h : EndsWith env w₀ cs w₁ css t sec p f)
    (hs : ExactSizes env w₀ w₁ css f s) : s.Nested := by
  obtain ⟨current, hsteps⟩ := hs.rowGroups
  obtain ⟨arrays, -, hdictionaries⟩ := hs.dictionaries
  obtain ⟨sections, -, hall, -, -⟩ := h.written.sections
  refine ⟨(Ledger.Nested.steps hsteps (nested_start w₀)).closed, ?_, ?_, ?_⟩
  · intro c hc
    rw [hdictionaries] at hc
    obtain ⟨i, hi, rfl⟩ := List.mem_iff_getElem.1 hc
    rw [List.getElem_zipWith]
    exact nested_exactSizes
  · -- each metadata is behind the data and in front of the footer
    intro n hn
    rw [hs.columnMetadatas] at hn
    obtain ⟨m, hm, rfl⟩ := List.mem_map.1 hn
    obtain ⟨g, hg, hm⟩ := List.mem_flatMap.1 hm
    obtain ⟨i, hi⟩ := List.mem_iff_getElem?.1 hg
    obtain ⟨j, hj⟩ := List.mem_iff_getElem?.1 hm
    obtain ⟨indirect, -, hcolumns⟩ := exists_getElem?_of_forall₂ hall hi
    obtain ⟨pointer, -, hsection⟩ := exists_getElem?_of_forall₂ hcolumns hj
    have hstart := hsection.start
    have hend := hsection.holds.le_length
    rw [List.length_append] at hend
    rw [hs.metadata]
    omega
  · rw [hs.metadata, hs.footer]
    exact Nat.le_add_left _ _

/-- Every finished run has its exact numbers. -/
theorem exists_exactSizes (hnew : tryNew env schema options = .ok w₀)
    (h : EndsWith env w₀ cs w₁ css t sec p f) : ∃ s, ExactSizes env w₀ w₁ css f s := by
  obtain ⟨⟨closed, current⟩, hsteps⟩ := exists_ledger hnew h.rowGroups
  obtain ⟨peers, hflush⟩ := h.dictionaries
  have hchunks := SharedDictionaryContext.finishAndFlush_spec hflush
  have harrays : ∃ arrays, List.Forall₂ (fun c as => List.Forall₂ (UnitOf env) c.encunits as)
      css.flatten arrays := by
    refine ⟨_, (List.forall₂_map_right_iff (f := fun q : SharedDictionaryContext.Piece =>
      [q.1])).2 (hchunks.flip.imp ?_)⟩
    rintro c piece ⟨u, ⟨payload, hpayload, rfl⟩, rfl⟩
    exact .cons ⟨⟨w₁.wasmContext, false, .uncompressed, payload, hpayload, rfl⟩, rfl⟩ .nil
  obtain ⟨arrays, harrays⟩ := harrays
  exact ⟨⟨closed, _, _, _, _, _, _⟩, ⟨current, hsteps⟩, ⟨arrays, harrays, rfl⟩, rfl, rfl, rfl, rfl,
    rfl⟩

end

/-- After any calls on a new writer, of which some may have failed, and a `finish` that
returns `Ok`: the numbers the file records are the exact ones if and only if the
exact ones fit. -/
theorem recordedSizes_eq_iff {env : Env} {schema : List Field} {options : FileWriterOptions}
    {cs : List Call} {w₀ w : FileWriter} {counters : List EncodingCounter}
    (hnew : tryNew env schema options = .ok w₀)
    (hfinish : Act.Returns (finish env) (Act.trace (call env) cs w₀).2 counters w) :
    ∃ w₁ css sec p f, EndsWith env w₀ cs w₁ css w.state sec p f ∧
      (∃ s, ExactSizes env w₀ w₁ css f s) ∧
      ∀ s, ExactSizes env w₀ w₁ css f s →
        (recordedSizes env w₁ css w.state sec = s ↔ s.Fits) := by
  obtain ⟨w₁, sec, p, hgroups, hsections⟩ := returns_finish hfinish
  obtain ⟨f, hwritten⟩ := writeSections_spec hsections
  obtain ⟨css, peers, hflush, -⟩ := hwritten.dictionaries
  have hends : EndsWith env w₀ cs w₁ css w.state sec p f :=
    ⟨hgroups, ⟨peers, hflush⟩, hsections, hwritten⟩
  refine ⟨w₁, css, sec, p, f, hends, exists_exactSizes hnew hends, ?_⟩
  intro s hs
  rw [recordedSizes_eq hnew hends hs]
  exact FileSizes.map_u32_eq_iff (hs.nested hends)

theorem recordedSizes_eq_iff_sample : ∃ w₀ w counters,
    tryNew Sample.env Sample.schema checksumOptions = .ok w₀ ∧
    Act.Returns (finish Sample.env)
      (Act.trace (call Sample.env) [.writeBatch Sample.batch] w₀).2 counters w ∧
    ∃ w₁ css sec p f,
      EndsWith Sample.env w₀ [.writeBatch Sample.batch] w₁ css w.state sec p f ∧
      (∃ s, ExactSizes Sample.env w₀ w₁ css f s) ∧
      ∀ s, ExactSizes Sample.env w₀ w₁ css f s →
        (recordedSizes Sample.env w₁ css w.state sec = s ↔ s.Fits) := by
  obtain ⟨w₀, w, counters, hnew, hfinish⟩ := exists_of_finishesAfter finishesAfter_sample
  exact ⟨w₀, w, counters, hnew, hfinish, recordedSizes_eq_iff hnew hfinish⟩

/-! ### A row count that does not fit -/

/-- A batch of `n` rows without columns. -/
def manyRows (n : Nat) : RecordBatch := ⟨[], [], n, rfl⟩

/-- What a run that writes `2 ^ 32` such rows does to the write state. -/
theorem run_of_manyRows : ∃ w₀ w₁,
    tryNew Sample.env [] .default = .ok w₀ ∧
      Act.Returns (finishRowGroups Sample.env)
        (Act.trace (call Sample.env) [.writeBatch (manyRows (2 ^ 32))] w₀).2 () w₁ ∧
      w₁.state = (w₀.state.addRows (2 ^ 32)).finishRowGroup :=
  ⟨_, _, rfl, rfl, rfl⟩

theorem finishesAfter_manyRows :
    finishesAfter Sample.env [] .default [.writeBatch (manyRows (2 ^ 32))] = true := by
  decide +kernel

/-- The only row group of that file has `2 ^ 32` rows, and records none. -/
theorem row_count_wraps : ∃ w₀ w counters w₁ css sec p f s,
    tryNew Sample.env [] .default = .ok w₀ ∧
      Act.Returns (finish Sample.env)
        (Act.trace (call Sample.env) [.writeBatch (manyRows (2 ^ 32))] w₀).2 counters w ∧
      EndsWith Sample.env w₀ [.writeBatch (manyRows (2 ^ 32))] w₁ css w.state sec p f ∧
      ExactSizes Sample.env w₀ w₁ css f s ∧
      s.rowGroups.map RowGroupSizes.rows = [2 ^ 32] ∧
      (recordedSizes Sample.env w₁ css w.state sec).rowGroups.map RowGroupSizes.rows = [0] := by
  obtain ⟨w₀, w, counters, hnew, hfinish⟩ := exists_of_finishesAfter finishesAfter_manyRows
  obtain ⟨w₀', w₁, hnew', hgroups, hstate⟩ := run_of_manyRows
  rw [hnew] at hnew'
  cases hnew'
  obtain ⟨w₁', sec, p, hgroups', hsections⟩ := returns_finish hfinish
  have hsame : w₁' = w₁ := by
    unfold Act.Returns at hgroups hgroups'
    rw [hgroups] at hgroups'
    cases hgroups'
    rfl
  subst hsame
  obtain ⟨f, hwritten⟩ := writeSections_spec hsections
  obtain ⟨css, peers, hflush, -⟩ := hwritten.dictionaries
  have hends : EndsWith Sample.env w₀ [.writeBatch (manyRows (2 ^ 32))] w₁' css w.state sec p f :=
    ⟨hgroups', ⟨peers, hflush⟩, hsections, hwritten⟩
  obtain ⟨s, hs⟩ := exists_exactSizes hnew hends
  -- the ledger of the two operations of the run
  have hsteps : WriteSteps Sample.env w₀.start (w₁'.state, (w₀.start.2.addRows (2 ^ 32)).finishRowGroup
      w₀.state.numPhysicalColumns) := by
    rw [hstate]
    exact (Relation.ReflTransGen.single (.addRows _ _ _)).tail (.finishRowGroup _ _)
  have hexact : ExactSizes Sample.env w₀ w₁' css f
      { s with rowGroups := [{ Ledger.emptyRowGroup w₀.state.numPhysicalColumns with
        rows := 0 + 2 ^ 32 }] } :=
    ⟨⟨_, hsteps⟩, hs.dictionaries, hs.wasms, hs.sections, hs.columnMetadatas, hs.metadata, hs.footer⟩
  refine ⟨w₀, w, counters, w₁', css, sec, p, f, _, hnew, hfinish, hends, hexact, rfl, ?_⟩
  rw [recordedSizes_eq hnew hends hexact]
  show [u32 (0 + 2 ^ 32)] = [0]
  decide

end FileWriter

end F3Format
