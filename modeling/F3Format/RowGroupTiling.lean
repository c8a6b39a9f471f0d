import F3Format.Lib.Placement
import F3Format.SharedRoundTrip

/-!
# Row groups tile the file

The writer puts row groups into the file one after the other, and the chunks of a
row group in the order in which its encoders complete them. `FileWriteState.Tiled`
says so of the state of a writer: the ranges that the table records are consecutive,
and the chunks that a row group records fill its range. Every operation of the writer
keeps this (`Tiled.step`), so it holds at every moment of a run (`row_groups_tile`),
and the row counts of the table are those of the chunks in every column.
-/

set_option autoImplicit false

namespace F3Format

open Lib

/-! ## Ranges -/

/-- The range of the file that a chunk has. -/
def Chunk.range (c : Chunk) : Nat × Nat := (c.offset, c.size)

/-- The ranges of the finished row groups. -/
def RowGroupsTable.ranges (t : RowGroupsTable) : List (Nat × Nat) := t.offsets.zip t.sizes

/-- The units of the chunk hold arrays, and they are one after the other where the
chunk is. -/
structure Chunk.LaidOut (env : Env) (file : Bytes) (c : Chunk) : Prop where
  size : c.size = (c.blocks.map EncUnit.size).sum
  units : ∃ us : List SerializedEncUnit, (∀ u ∈ us, HasArray env u) ∧
    c.blocks = us.map SerializedEncUnit.recorded ∧
    c.blocks.map EncUnit.size = us.map (fun u => u.bytes.length) ∧
      HoldsAt file c.offset (us.map SerializedEncUnit.bytes).flatten

/-- The chunks of some columns fill the range from `lo` to `hi`. -/
structure Fills (env : Env) (file : Bytes) (ms : List ColumnMetadata) (lo hi : Nat) : Prop where
  tiles : ∃ chunks : List Chunk, chunks.Perm (ms.flatMap ColumnMetadata.columnChunks) ∧
    Tiles lo (chunks.map Chunk.range) hi
  laidOut : ∀ c ∈ ms.flatMap ColumnMetadata.columnChunks, c.LaidOut env file

section Fills

variable {env : Env} {file : Bytes}

theorem Chunk.LaidOut.mono {c : Chunk} (h : c.LaidOut env file) (more : Bytes) :
    c.LaidOut env (file ++ more) where
  size := h.size
  units := by
    obtain ⟨us, harrays, hblocks, hsizes, hholds⟩ := h.units
    exact ⟨us, harrays, hblocks, hsizes, hholds.append more⟩

/-- The record of a chunk says where its units are, if the sizes fit. -/
theorem laidOut_record {c : EncodedColumnChunk} (harrays : ∀ u ∈ c.encunits, HasArray env u)
    (hfit : ∀ n ∈ c.sizes, n < 2 ^ 32) (checksum : Bool) (offset : Nat)
    (hholds : HoldsAt file offset c.bytes) : (c.record env checksum offset).LaidOut env file := by
  have hsizes : (c.encunits.map SerializedEncUnit.recorded).map EncUnit.size =
      c.encunits.map fun u => u.bytes.length := by
    rw [List.map_map]
    refine List.map_congr_left fun u hu => u32_of_lt (hfit _ ?_)
    exact List.mem_append_left _ (List.mem_map_of_mem hu)
  refine ⟨?_, c.encunits, harrays, rfl, hsizes, hholds⟩
  show u32 c.bytes.length = ((c.encunits.map SerializedEncUnit.recorded).map EncUnit.size).sum
  rw [hsizes, u32_of_lt (hfit _ (List.mem_append_right _ (List.mem_singleton_self _))),
    EncodedColumnChunk.bytes, List.length_flatten, List.map_map]
  rfl

theorem Fills.mono {ms : List ColumnMetadata} {lo hi : Nat} (h : Fills env file ms lo hi)
    (more : Bytes) : Fills env (file ++ more) ms lo hi :=
  ⟨h.tiles, fun c hc => (h.laidOut c hc).mono more⟩

/-- Columns without chunks fill nothing. -/
theorem fills_empty (n lo : Nat) : Fills env file (List.replicate n .empty) lo lo := by
  have hnone : (List.replicate n ColumnMetadata.empty).flatMap ColumnMetadata.columnChunks = [] :=
    List.flatMap_eq_nil_iff.2 fun m hm => by rw [List.eq_of_mem_replicate hm]; rfl
  refine ⟨⟨[], ?_, rfl⟩, ?_⟩
  · rw [hnone]
  · rw [hnone]
    exact List.forall_mem_nil _

/-- A chunk that is added to a column is added to the chunks of all columns. -/
theorem perm_addChunk {c : Chunk} : ∀ {ms : List ColumnMetadata} {i : Nat} {m : ColumnMetadata},
    ms[i]? = some m → ((ms.set i (m.addChunk c)).flatMap ColumnMetadata.columnChunks).Perm
      (ms.flatMap ColumnMetadata.columnChunks ++ [c])
  | [], i, m, h => nomatch h
  | m' :: ms, 0, m, h => by
      cases h
      rw [List.set_cons_zero, List.flatMap_cons, List.flatMap_cons, ColumnMetadata.addChunk,
        List.append_assoc, List.append_assoc]
      exact List.perm_append_comm.append_left m'.columnChunks
  | m' :: ms, i + 1, m, h => by
      have hm : ms[i]? = some m := h
      rw [List.set_cons_succ, List.flatMap_cons, List.flatMap_cons, List.append_assoc]
      exact (perm_addChunk hm).append_left m'.columnChunks

/-- A chunk that is written behind the others extends the range. -/
theorem Fills.addChunk {ms : List ColumnMetadata} {lo hi i : Nat} {m : ColumnMetadata} {c : Chunk}
    (h : Fills env file ms lo hi) (hm : ms[i]? = some m) (hoffset : c.offset = hi)
    (hc : c.LaidOut env file) : Fills env file (ms.set i (m.addChunk c)) lo (hi + c.size) where
  tiles := by
    obtain ⟨chunks, hperm, htiles⟩ := h.tiles
    refine ⟨chunks ++ [c], (hperm.append_right [c]).trans (perm_addChunk hm).symm, ?_⟩
    rw [List.map_append, List.map_singleton, Chunk.range, hoffset]
    exact tiles_snoc htiles
  laidOut := by
    intro d hd
    rcases List.mem_append.1 ((perm_addChunk hm).mem_iff.1 hd) with hd | hd
    · exact h.laidOut d hd
    · rw [List.mem_singleton.1 hd]
      exact hc

theorem Fills.append {ms ms' : List ColumnMetadata} {lo mid hi : Nat}
    (h : Fills env file ms lo mid) (h' : Fills env file ms' mid hi) :
    Fills env file (ms ++ ms') lo hi where
  tiles := by
    obtain ⟨chunks, hperm, htiles⟩ := h.tiles
    obtain ⟨chunks', hperm', htiles'⟩ := h'.tiles
    refine ⟨chunks ++ chunks', ?_, ?_⟩
    · rw [List.flatMap_append]
      exact hperm.append hperm'
    · rw [List.map_append]
      exact tiles_append htiles htiles'
  laidOut := by
    intro c hc
    rw [List.flatMap_append] at hc
    rcases List.mem_append.1 hc with hc | hc
    · exact h.laidOut c hc
    · exact h'.laidOut c hc

/-- The order of the columns does not matter. -/
theorem Fills.perm {ms ms' : List ColumnMetadata} {lo hi : Nat} (h : Fills env file ms lo hi)
    (hperm : ms.Perm ms') : Fills env file ms' lo hi where
  tiles := by
    obtain ⟨chunks, hchunks, htiles⟩ := h.tiles
    exact ⟨chunks, hchunks.trans (hperm.flatMap_right _), htiles⟩
  laidOut := fun c hc => h.laidOut c ((hperm.flatMap_right _).mem_iff.2 hc)

/-- What fills consecutive ranges fills them all. -/
theorem fills_all {gs : List RowGroupMetadata} {rs : List (Nat × Nat)}
    (h : List.Forall₂ (fun (g : RowGroupMetadata) r =>
      Fills env file g.colMetadatas r.1 (r.1 + r.2)) gs rs) :
    ∀ {lo hi : Nat}, Tiles lo rs hi →
      Fills env file (gs.flatMap RowGroupMetadata.colMetadatas) lo hi := by
  induction h with
  | nil =>
      rintro lo hi rfl
      exact fills_empty 0 lo
  | cons hg _ ih =>
      rintro lo hi ⟨rfl, htiles⟩
      exact hg.append (ih htiles)

theorem Fills.mem {ms : List ColumnMetadata} {lo hi : Nat} (h : Fills env file ms lo hi)
    {m : ColumnMetadata} (hm : m ∈ ms) {c : Chunk} (hc : c ∈ m.columnChunks) :
    lo ≤ c.offset ∧ c.offset + c.size ≤ hi := by
  obtain ⟨chunks, hperm, htiles⟩ := h.tiles
  have hmem : c ∈ chunks := hperm.mem_iff.2 (List.mem_flatMap.2 ⟨m, hm, hc⟩)
  exact tiles_mem htiles (List.mem_map_of_mem hmem)

theorem Fills.disjoint {ms : List ColumnMetadata} {lo hi : Nat} (h : Fills env file ms lo hi) :
    (ms.flatMap ColumnMetadata.columnChunks).Pairwise
      fun c c' => Lib.Disjoint c.range c'.range := by
  obtain ⟨chunks, hperm, htiles⟩ := h.tiles
  have hpairwise := List.pairwise_map.1 (tiles_pairwise_disjoint htiles)
  exact hperm.pairwise hpairwise fun hcc p hboth => hcc p hboth.symm

theorem Fills.cover {ms : List ColumnMetadata} {lo hi : Nat} (h : Fills env file ms lo hi)
    {p : Nat} (hp : lo ≤ p ∧ p < hi) :
    ∃ c ∈ ms.flatMap ColumnMetadata.columnChunks, InRange c.range p := by
  obtain ⟨chunks, hperm, htiles⟩ := h.tiles
  obtain ⟨r, hr, hin⟩ := tiles_cover htiles hp
  obtain ⟨c, hc, rfl⟩ := List.mem_map.1 hr
  exact ⟨c, hperm.mem_iff.1 hc, hin⟩

end Fills

/-! ## Every operation keeps the tiling -/

/-- The row groups are one after the other from the start of the file, the chunks of
each fill its range, and those of the row group in progress what comes behind, up to
`dataEnd`. -/
structure FileWriteState.Tiled (env : Env) (s : FileWriteState) (dataEnd : Nat) : Prop where
  aligned : s.rowGroupsTable.offsets.length = s.rowGroupsTable.sizes.length
  rowGroups : Tiles 0 s.rowGroupsTable.ranges s.startOffsetOfCurRowGroup
  closed : List.Forall₂ (fun (g : RowGroupMetadata) r =>
    Fills env s.writer g.colMetadatas r.1 (r.1 + r.2))
      s.rowGroupsTable.rowGroupMetadata s.rowGroupsTable.ranges
  current : Fills env s.writer s.columnMetadatasInCurRowGroup s.startOffsetOfCurRowGroup dataEnd

namespace FileWriteState

variable {env : Env} {s t : FileWriteState}

/-- What was narrowed stays narrowed. -/
theorem narrowed_of_step {x y : FileWriteState × Ledger} (hstep : WriteStep env x y) :
    ∀ v ∈ x.1.narrowed, v ∈ y.1.narrowed := by
  intro v hv
  cases hstep with
  | flushChunk harrays ht =>
      obtain ⟨m, -, rfl⟩ := flushChunk_eq_ok.1 ht
      exact List.mem_append_left _ hv
  | addRows s l n => exact List.mem_append_left _ hv
  | finishRowGroup s l => exact List.mem_append_left _ hv
  | counters s l cs => exact hv

theorem Tiled.flushChunk (h : s.Tiled env s.writer.length) {c : EncodedColumnChunk}
    (harrays : ∀ u ∈ c.encunits, HasArray env u) (ht : s.flushChunk env c = .ok t)
    (hfit : ∀ v ∈ t.narrowed, v < 2 ^ 32) : t.Tiled env t.writer.length := by
  obtain ⟨m, hm, rfl⟩ := flushChunk_eq_ok.1 ht
  have hsizes : ∀ n ∈ c.sizes, n < 2 ^ 32 := fun n hn => hfit n (List.mem_append_right _ hn)
  have hrecord := laidOut_record harrays hsizes s.enableIoUnitChecksum s.writer.length
    (holdsAt_snoc s.writer c.bytes)
  have hsize : (c.record env s.enableIoUnitChecksum s.writer.length).size = c.bytes.length :=
    u32_of_lt (hsizes _ (List.mem_append_right _ (List.mem_singleton_self _)))
  refine ⟨h.aligned, h.rowGroups, h.closed.imp fun _ _ hg => hg.mono c.bytes, ?_⟩
  show Fills env (s.writer ++ c.bytes) _ _ (s.writer ++ c.bytes).length
  rw [List.length_append, ← hsize]
  exact (h.current.mono c.bytes).addChunk hm rfl hrecord

theorem Tiled.finishRowGroup (h : s.Tiled env s.writer.length)
    (hfit : ∀ v ∈ s.finishRowGroup.narrowed, v < 2 ^ 32) :
    s.finishRowGroup.Tiled env s.finishRowGroup.writer.length := by
  obtain ⟨chunks, -, htiles⟩ := h.current.tiles
  have hle := tiles_le htiles
  have hsize : u32 (s.writer.length - s.startOffsetOfCurRowGroup) =
      s.writer.length - s.startOffsetOfCurRowGroup :=
    u32_of_lt (hfit _ (List.mem_append_right _ (List.mem_singleton_self _)))
  have hranges : s.finishRowGroup.rowGroupsTable.ranges = s.rowGroupsTable.ranges ++
      [(s.startOffsetOfCurRowGroup, s.writer.length - s.startOffsetOfCurRowGroup)] := by
    show (s.rowGroupsTable.offsets ++ [_]).zip (s.rowGroupsTable.sizes ++ [_]) = _
    rw [List.zip_append h.aligned, hsize]
    rfl
  have hend : s.startOffsetOfCurRowGroup + (s.writer.length - s.startOffsetOfCurRowGroup) =
      s.writer.length := Nat.add_sub_cancel' hle
  refine ⟨?_, ?_, ?_, fills_empty _ _⟩
  · show (s.rowGroupsTable.offsets ++ [_]).length = (s.rowGroupsTable.sizes ++ [_]).length
    rw [List.length_append, List.length_append, h.aligned]
    rfl
  · rw [hranges]
    show Tiles 0 _ s.writer.length
    have hsnoc : Tiles 0 (_ ++ [(_, s.writer.length - s.startOffsetOfCurRowGroup)]) _ :=
      tiles_snoc h.rowGroups
    rwa [hend] at hsnoc
  · rw [hranges]
    refine List.rel_append h.closed (.cons ?_ .nil)
    show Fills env s.writer s.columnMetadatasInCurRowGroup _ _
    rw [hend]
    exact h.current

/-- **Every operation of the writer keeps the tiling.** -/
theorem Tiled.step {x y : FileWriteState × Ledger} (hstep : WriteStep env x y)
    (h : x.1.Tiled env x.1.writer.length) (hfit : ∀ v ∈ y.1.narrowed, v < 2 ^ 32) :
    y.1.Tiled env y.1.writer.length := by
  cases hstep with
  | flushChunk harrays ht =>
      refine h.flushChunk (fun u hu => ?_) ht hfit
      obtain ⟨i, hi⟩ := List.mem_iff_getElem?.1 hu
      obtain ⟨array, -, hunit⟩ := exists_getElem?_of_forall₂ harrays hi
      exact ⟨array, hunit⟩
  | addRows s l n => exact ⟨h.aligned, h.rowGroups, h.closed, h.current⟩
  | finishRowGroup s l => exact h.finishRowGroup hfit
  | counters s l cs => exact ⟨h.aligned, h.rowGroups, h.closed, h.current⟩

theorem Tiled.steps {x y : FileWriteState × Ledger} (hsteps : WriteSteps env x y)
    (h : x.1.Tiled env x.1.writer.length) (hfit : ∀ v ∈ y.1.narrowed, v < 2 ^ 32) :
    y.1.Tiled env y.1.writer.length := by
  induction hsteps with
  | refl => exact h
  | tail _ hstep ih =>
      exact (ih fun v hv => hfit v (narrowed_of_step hstep v hv)).step hstep hfit

/-- All chunks, of finished row groups or not, fill the file up to `dataEnd`. -/
theorem Tiled.fills {dataEnd : Nat} (h : s.Tiled env dataEnd) :
    Fills env s.writer (s.columnMetadatasInCurRowGroup ++
      s.rowGroupsTable.rowGroupMetadata.flatMap RowGroupMetadata.colMetadatas) 0 dataEnd :=
  ((fills_all h.closed h.rowGroups).append h.current).perm List.perm_append_comm

end FileWriteState

/-! ## Every moment of a run -/

/-- What the ranges of row groups and chunks are like, when the row groups end at
`dataEnd`. -/
structure FileWriteState.RowGroupsTile (env : Env) (s : FileWriteState) (dataEnd : Nat) :
    Prop where
  /-- the finished row groups are consecutive, from the start of the file -/
  consecutive : Tiles 0 s.rowGroupsTable.ranges s.startOffsetOfCurRowGroup
  apart : s.rowGroupsTable.ranges.Pairwise Lib.Disjoint
  /-- chunks are inside their row group -/
  inside : List.Forall₂ (fun (g : RowGroupMetadata) r => ∀ m ∈ g.colMetadatas,
    ∀ c ∈ m.columnChunks, r.1 ≤ c.offset ∧ c.offset + c.size ≤ r.1 + r.2)
      s.rowGroupsTable.rowGroupMetadata s.rowGroupsTable.ranges
  /-- chunks are apart, and nothing is between them -/
  disjoint : s.records.Pairwise fun c c' => Lib.Disjoint c.range c'.range
  cover : ∀ p < dataEnd, ∃ c ∈ s.records, InRange c.range p
  laidOut : ∀ c ∈ s.records, c.LaidOut env s.writer

/-- The row counts are those of every column, and all rows are counted. -/
structure FileWriteState.RowsCounted (s : FileWriteState) (rows : Nat) : Prop where
  columns : List.Forall₂ (fun (g : RowGroupMetadata) n => ∀ m ∈ g.colMetadatas,
    (m.columnChunks.map Chunk.numRows).sum = n)
      s.rowGroupsTable.rowGroupMetadata s.rowGroupsTable.rowCounts
  total : s.rowGroupsTable.rowCounts.sum + s.numRowsInCurRowGroup = rows

theorem FileWriteState.Tiled.rowGroupsTile {env : Env} {s : FileWriteState} {dataEnd : Nat}
    (h : s.Tiled env dataEnd) : s.RowGroupsTile env dataEnd where
  consecutive := h.rowGroups
  apart := tiles_pairwise_disjoint h.rowGroups
  inside := by
    refine h.closed.imp ?_
    intro g r hg m hm c hc
    exact hg.mem hm hc
  disjoint := h.fills.disjoint
  cover := fun p hp => h.fills.cover ⟨Nat.zero_le p, hp⟩
  laidOut := h.fills.laidOut

namespace FileWriter

section Runs

variable {env : Env} {schema : List Field} {options : FileWriterOptions} {cs : List Call}
  {w w₀ w₁ : FileWriter} {sec : Sections} {p : PostscriptValues} {dataEnd : Nat}

theorem tiled_tryNew (h : tryNew env schema options = .ok w₀) :
    w₀.state.Tiled env w₀.state.writer.length := by
  simp only [tryNew, bind_eq_ok, pure_eq_ok, Except.ok.injEq] at h
  obtain ⟨r, -, rfl⟩ := h
  exact ⟨rfl, rfl, .nil, fills_empty _ _⟩

/-- The calls of a run are steps of the ledger. -/
theorem Reaches.ledger (h : Reaches env schema options cs w) :
    ∃ w₀, tryNew env schema options = .ok w₀ ∧ RunInvariant.Holds
      (LogicalColEncoder.HoldsUnits env (options.wasmContext env) (HasArray env))
      (fun s => ∃ l, WriteSteps env w₀.start (s, l)) w := by
  obtain ⟨w₀, hnew, hcalls⟩ := h
  have hI := runInvariant_ledger env (options.wasmContext env) w₀.start
  refine ⟨w₀, hnew, ((Act.maintains_forEach hI.maintains_call cs).returns ⟨?_, _, .refl⟩ hcalls).2⟩
  simp only [tryNew, bind_eq_ok, pure_eq_ok, Except.ok.injEq] at hnew
  obtain ⟨r, hr, rfl⟩ := hnew
  exact LogicalColEncoder.holdsAllUnits_iff.1 (holdsUnits_createLogicalEncoders schema hr)

/-- A writer of a run, and where its row groups end: after the calls of the run, or
after `finish`. -/
inductive Passes (env : Env) (schema : List Field) (options : FileWriterOptions)
    (cs : List Call) : FileWriter → Nat → Prop where
  | calls {w : FileWriter} (h : Reaches env schema options cs w) :
      Passes env schema options cs w w.state.writer.length
  | finish {w w₁ : FileWriter} {sec : Sections} {p : PostscriptValues}
      (h : FinishesWith env schema options cs w w₁ sec p) :
      Passes env schema options cs w w₁.state.writer.length

/-- `finish` writes the rest of the file behind the row groups. -/
theorem inProgress_of_writeSections {t : FileWriteState}
    (h : writeSections env w = .ok (t, sec, p)) :
    t.columnMetadatasInCurRowGroup = w.state.columnMetadatasInCurRowGroup ∧
      t.startOffsetOfCurRowGroup = w.state.startOffsetOfCurRowGroup ∧
        t.numRowsInCurRowGroup = w.state.numRowsInCurRowGroup := by
  simp only [writeSections, bind_eq_ok, pure_eq_ok, Except.ok.injEq, Prod.mk.injEq] at h
  obtain ⟨⟨css, peers, dtypes⟩, -, positions, -, ht, -⟩ := h
  obtain ⟨records, hdicts, -⟩ := FileWriteState.flushAllDictChunks_spec env css w.state
  obtain ⟨wasms, hwasms, -⟩ := writeWasmBinaries_spec env w.wasmContext
    (w.state.appended (chunkBytes css.flatten) (css.flatten.flatMap fun c => c.numRows :: c.sizes))
  rw [hdicts] at ht
  simp only [hwasms] at ht
  obtain ⟨metadata, sections, hindirect, -⟩ := toIndirectAndFlush_spec env
    ((w.state.appended (chunkBytes css.flatten)
      (css.flatten.flatMap fun c => c.numRows :: c.sizes)).appended
        (w.wasmContext.getSortedWasms.flatten ++ env.wasmBinariesFb.build ⟨some wasms⟩)
        (w.wasmContext.getSortedWasms.map List.length ++
          [(env.wasmBinariesFb.build ⟨some wasms⟩).length]))
  simp only [hindirect] at ht
  rw [← ht]
  exact ⟨rfl, rfl, rfl⟩

/-- **Row groups tile the file** at every moment of a run. -/
theorem Passes.tiled (h : Passes env schema options cs w dataEnd) (hfit : w.Fits) :
    w.state.Tiled env dataEnd := by
  cases h with
  | calls h =>
      obtain ⟨w₀, hnew, -, l, hsteps⟩ := h.ledger
      exact FileWriteState.Tiled.steps hsteps (tiled_tryNew hnew) hfit
  | @finish w₁ sec p h =>
      obtain ⟨wend, hreach, hgroups⟩ := h.rowGroups
      obtain ⟨w₀, hnew, hholds⟩ := hreach.ledger
      have hI := runInvariant_ledger env (options.wasmContext env) w₀.start
      obtain ⟨-, -, l, hsteps⟩ := hI.maintains_finishRowGroups.returns hholds hgroups
      obtain ⟨⟨more, hfile⟩, ⟨sections, htable⟩, hnarrowed⟩ := h.extends
      obtain ⟨hcurrent, hstart, -⟩ := inProgress_of_writeSections h.sections
      have htiled := FileWriteState.Tiled.steps hsteps (tiled_tryNew hnew)
        fun v hv => hfit v (hnarrowed v hv)
      have hwriter : w.state.writer = w₁.state.writer ++ more := hfile
      refine ⟨?_, ?_, ?_, ?_⟩
      · rw [htable]
        exact htiled.aligned
      · rw [htable, hstart]
        exact htiled.rowGroups
      · rw [htable, hwriter]
        exact htiled.closed.imp fun _ _ hg => hg.mono more
      · rw [hcurrent, hstart, hwriter]
        exact htiled.current.mono more

/-! ## Rows -/

theorem numRows_of_recorded {o : EncoderOptions} {known : Nat → Dictionary → Prop} {file : Bytes}
    {narrowed : List Nat} {chunks : List Chunk} {contents : List (List ArrayRef)}
    (h : List.Forall₂ (RecordedAs env o known file narrowed) chunks contents) :
    chunks.map Chunk.numRows = contents.map fun arrays => (arrays.map ArrayRef.len).sum := by
  induction h with
  | nil => rfl
  | cons hc _ ih =>
      obtain ⟨c, checksum, offset, rfl, -, -, hcontents⟩ := hc
      rw [List.map_cons, List.map_cons, ih]
      exact congrArg (· :: _) hcontents.rows

/-- The chunks of a column have the rows of its arrays. -/
theorem numRows_of_entry {o : EncoderOptions} {known : Nat → Dictionary → Prop} {file : Bytes}
    {narrowed : List Nat} {n : Nat} {g : RowGroupMetadata} {e : Entry}
    (h : EntryOf env o known file narrowed n g e) {k : Nat} {m : ColumnMetadata}
    (hm : g.colMetadatas[k]? = some m) :
    (m.columnChunks.map Chunk.numRows).sum = ((e.arrays k).map ArrayRef.len).sum := by
  have hk : k < n := h.length ▸ (List.getElem?_eq_some_iff.1 hm).1
  obtain ⟨m', contents, hm', hrecorded, hflat⟩ := h.columns k hk
  obtain rfl := Option.some.inj (hm.symm.trans hm')
  rw [numRows_of_recorded hrecorded, ← hflat, List.map_flatten, List.sum_flatten, List.map_map]
  rfl

/-- Every column of matching batches has their rows. -/
theorem map_len_encodedColumn_nil (hflat : flatSchema schema = true) {k : Nat}
    (hk : k < schema.length) {bs : List RecordBatch} (hmatch : ∀ b ∈ bs, b.Matches schema) :
    (encodedColumn [] bs k).map ArrayRef.len = bs.map RecordBatch.numRows := by
  have hcolumn := congrArg (List.map (Option.map ArrayRef.len)) (encodedColumn_nil hk hmatch)
  rw [List.map_map, List.map_map] at hcolumn
  have hrows : bs.map (Option.map ArrayRef.len ∘ fun b => b.columns[k]?) =
      bs.map (some ∘ RecordBatch.numRows) := by
    refine List.map_congr_left fun b hb => ?_
    obtain ⟨t, vs, -, -, hget, hlen, -⟩ :=
      (hmatch b hb).column hflat (List.getElem?_eq_getElem hk)
    simp only [Function.comp_apply, hget, Option.map_some, ← hlen]
    rfl
  rw [hrows] at hcolumn
  refine List.map_injective_iff.2 (Option.some_injective _) ?_
  rw [List.map_map, List.map_map]
  exact hcolumn

/-- The table counts the rows of the journal. -/
theorem rowsCounted_of_refines (hflat : flatSchema schema = true)
    (hnew : tryNew env schema options = .ok w₀) {groups : Groups RecordBatch} {j : Journal}
    (hof : JournalOf w₀.columnEncoders [] groups j)
    (h : w.point.Refines env (encoderOptions env options) schema.length j)
    (hmatch : ∀ b ∈ groups.all.flatten, b.Matches schema) (hfit : w.Fits) :
    w.state.RowsCounted (groups.all.flatten.map RecordBatch.numRows).sum := by
  obtain ⟨hcurrent, hclosed⟩ := h.counts hfit
  have hcounts : w.state.rowGroupsTable.rowCounts = j.closed.map Entry.rows := by
    have hnarrowed : w.state.rowGroupsTable.rowCounts = j.closed.map fun e => u32 e.rows :=
      h.rowCounts
    rw [hnarrowed, List.map_congr_left fun e he => u32_of_lt (hclosed e he)]
  constructor
  · rw [hcounts, List.forall₂_map_right_iff]
    refine ((List.forall₂_and_left _ _).2 ⟨fun _ he => he, h.closed.flip⟩).flip.imp ?_
    rintro g e ⟨he, hentry⟩ m hm
    obtain ⟨k, hk⟩ := List.mem_iff_getElem?.1 hm
    have hlt : k < schema.length := hentry.length ▸ (List.getElem?_eq_some_iff.1 hk).1
    rw [hof.closed] at he
    obtain ⟨bs, hbs, rfl⟩ := List.mem_map.1 he
    have hall : ∀ b ∈ bs, b.Matches schema := fun b hb =>
      hmatch b (List.mem_flatten.2 ⟨bs, List.mem_append_left _ hbs, hb⟩)
    rw [numRows_of_entry hentry hk]
    show ((columnArrays w₀.columnEncoders [] bs k).map ArrayRef.len).sum = _
    rw [columnArrays_flat hflat hnew [] hall, map_len_encodedColumn_nil hflat hlt hall]
    rfl
  · have hrows : w.state.numRowsInCurRowGroup = u32 j.current.rows := h.rows
    rw [hcounts, hrows, u32_of_lt hcurrent, hof.closed, hof.current, Groups.all,
      List.flatten_append, List.map_append, List.sum_append, List.map_map, List.map_flatten,
      List.sum_flatten, List.map_map, List.flatten_singleton]
    rfl

theorem Passes.rowsCounted (h : Passes env schema options cs w dataEnd)
    (hflat : flatSchema schema = true) (hlens : options.customEncunitLen = [])
    (hbytes : env.IndicesHaveBytes (options.wasmContext env))
    (hmatch : ∀ b ∈ batches cs, b.Matches schema) (hfit : w.Fits)
    (hdicts : w.sharedDictionaryContext.dictionaries.length < 2 ^ 32) :
    w.state.RowsCounted ((batches cs).map RecordBatch.numRows).sum := by
  obtain ⟨hsup, hnodes⟩ := supportedAll_of_flat hflat
  have hall : (collectGroups (groupFull options.rowGroupSize) (batches cs)).all.flatten =
      batches cs := flatten_all_collectGroups _ _
  cases h with
  | calls h =>
      obtain ⟨w₀, hnew, hlens₀, -, -, j, hof, hrefines⟩ := h.journaled hsup hbytes hdicts
      rw [show w₀.fixed.customEncunitLen = [] from hlens₀.trans hlens] at hof
      rw [hnodes] at hrefines
      have hcounted := rowsCounted_of_refines hflat hnew hof hrefines (by rwa [hall]) hfit
      rwa [hall] at hcounted
  | @finish w₁ sec p h =>
      obtain ⟨wend, hreach, hgroups⟩ := h.rowGroups
      rw [h.final] at hdicts
      obtain ⟨w₀, j, hnew, hof, hrefines⟩ := hreach.journal hgroups hsup hbytes hdicts
      rw [hlens] at hof
      rw [hnodes] at hrefines
      obtain ⟨-, ⟨sections, htable⟩, hnarrowed⟩ := h.extends
      obtain ⟨-, -, hinProgress⟩ := inProgress_of_writeSections h.sections
      have hlast : (Groups.mk (rowGroupsOf options (batches cs)) []).all.flatten = batches cs := by
        rw [Groups.all, List.flatten_append]
        exact (List.append_nil _).trans hall
      have hcounted := rowsCounted_of_refines hflat hnew hof hrefines (by rwa [hlast])
        fun v hv => hfit v (hnarrowed v hv)
      rw [hlast] at hcounted
      refine ⟨?_, ?_⟩
      · rw [htable]
        exact hcounted.columns
      · rw [htable, hinProgress]
        exact hcounted.total

/-- **Row groups tile the file, and count its rows**, at every moment of a run. -/
theorem row_groups_tile (h : Passes env schema options cs w dataEnd)
    (hflat : flatSchema schema = true) (hlens : options.customEncunitLen = [])
    (hbytes : env.IndicesHaveBytes (options.wasmContext env))
    (hmatch : ∀ b ∈ batches cs, b.Matches schema) (hfit : w.Fits)
    (hdicts : w.sharedDictionaryContext.dictionaries.length < 2 ^ 32) :
    w.state.RowGroupsTile env dataEnd ∧
      w.state.RowsCounted ((batches cs).map RecordBatch.numRows).sum :=
  ⟨(h.tiled hfit).rowGroupsTile, h.rowsCounted hflat hlens hbytes hmatch hfit hdicts⟩

/-- Two batches, each a row group of its own. -/
theorem row_groups_tile_sample : ∃ w w₁ sec p,
    FinishesWith Sample.env Sample.nullSchema { Sample.glBestOptions with rowGroupSize := 1 }
      [.writeBatch Sample.nullBatch, .writeBatch Sample.nullBatch] w w₁ sec p ∧
    w.state.RowGroupsTile Sample.env w₁.state.writer.length ∧
      w.state.RowsCounted ([Sample.nullBatch, Sample.nullBatch].map RecordBatch.numRows).sum := by
  have hrun : runFits Sample.env Sample.nullSchema
      { Sample.glBestOptions with rowGroupSize := 1 }
      [.writeBatch Sample.nullBatch, .writeBatch Sample.nullBatch] = true := by
    decide +kernel
  obtain ⟨w, hfinishes, hfits⟩ := exists_of_runFits hrun
  obtain ⟨w₁, sec, p, h⟩ := finishes_iff.1 hfinishes
  have hmatch : ∀ b ∈ [Sample.nullBatch, Sample.nullBatch], b.Matches Sample.nullSchema := by
    simp only [List.mem_cons, List.not_mem_nil, or_false, or_self]
    rintro b rfl
    exact Sample.nullBatch.valid
  have hcount := hfits _ (dictionaries_mem_narrowed h.sections)
  have hdicts : w.sharedDictionaryContext.dictionaries.length < 2 ^ 32 := by
    rw [h.final]
    exact hcount
  obtain ⟨htile, hcounted⟩ := row_groups_tile (.finish h) rfl rfl
    (indicesHaveBytes_of_native Sample.compressionLaws fun _ => rfl) hmatch hfits hdicts
  exact ⟨w, w₁, sec, p, h, htile, hcounted⟩

end Runs

end FileWriter

end F3Format
