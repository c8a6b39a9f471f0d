import F3Format.WrittenFiles

/-!
# Reading some of the columns

A projection decodes the columns it names, but the fields of its batches are
those of the first columns of the schema. `projection_commutes_iff` says when
the batches of a projection are the projected batches of the whole file.
-/

set_option autoImplicit false

namespace F3Format

open Lib FileWriter FileReaderV2Builder

variable {env : Env}

/-! ## How many arrays a column decodes to -/

/-- The arrays of a chunk: one for each unit, or for a dictionary unit with its indices. -/
def Fb.Chunk.arrayCount (c : Fb.Chunk) : Nat :=
  match c.encoding with
  | .localDictionary _ => (c.encunits.getD []).length / 2
  | _ => (c.encunits.getD []).length

/-- The arrays of a column of a row group. -/
def Fb.ColumnMetadata.arrayCount (m : Fb.ColumnMetadata) : Nat :=
  ((m.columnChunks.getD []).map Fb.Chunk.arrayCount).sum

namespace ChunkDecoder

/-- The arrays a chunk decoder has left. -/
def arrayCount : ChunkDecoder → Nat
  | noDict s _ => s.encunits.length
  | dict s _ => s.encunits.length / 2
  | sharedDict s _ => s.encunits.length

theorem arrayCount_of_none {decoder next : ChunkDecoder}
    (h : decodeBatch env decoder = .ok (none, next)) : decoder.arrayCount = 0 := by
  cases decoder with
  | noDict s dataType =>
      have hd : decodeNoDict env s dataType = .ok (none, next) := h
      unfold decodeNoDict at hd
      split at hd
      · next hu => simp [arrayCount, hu]
      · simp [bind_eq_ok] at hd
  | dict s dataType =>
      have hd : decodeDict env s dataType = .ok (none, next) := h
      unfold decodeDict at hd
      split at hd
      · next hu => simp [arrayCount, hu]
      · next d rest hu =>
          cases rest with
          | nil => simp [bind_eq_ok, fail] at hd
          | cons u us => simp [bind_eq_ok] at hd
  | sharedDict s sharedDictionary =>
      have hd : decodeSharedDict env s sharedDictionary = .ok (none, next) := h
      unfold decodeSharedDict at hd
      split at hd
      · next hu => simp [arrayCount, hu]
      · simp [bind_eq_ok] at hd

theorem arrayCount_of_some {decoder next : ChunkDecoder} {a : ArrayRef}
    (h : decodeBatch env decoder = .ok (some a, next)) :
    decoder.arrayCount = next.arrayCount + 1 := by
  cases decoder with
  | noDict s dataType =>
      have hd : decodeNoDict env s dataType = .ok (some a, next) := h
      unfold decodeNoDict at hd
      split at hd
      · simp at hd
      · next u us hu =>
          simp only [bind_eq_ok, pure_eq_ok, Except.ok.injEq, Prod.mk.injEq] at hd
          obtain ⟨_, -, _, -, -, rfl⟩ := hd
          simp [arrayCount, hu]
  | dict s dataType =>
      have hd : decodeDict env s dataType = .ok (some a, next) := h
      unfold decodeDict at hd
      split at hd
      · simp at hd
      · next d rest hu =>
          cases rest with
          | nil => simp [bind_eq_ok, fail] at hd
          | cons u us =>
              simp only [bind_eq_ok, pure_eq_ok, Except.ok.injEq, Prod.mk.injEq] at hd
              obtain ⟨_, -, _, -, _, -, _, -, _, -, -, rfl⟩ := hd
              simp only [arrayCount, hu, List.length_cons]
              omega
  | sharedDict s sharedDictionary =>
      have hd : decodeSharedDict env s sharedDictionary = .ok (some a, next) := h
      unfold decodeSharedDict at hd
      split at hd
      · simp at hd
      · next u us hu =>
          simp only [bind_eq_ok, pure_eq_ok, Except.ok.injEq, Prod.mk.injEq] at hd
          obtain ⟨_, -, _, -, _, -, -, rfl⟩ := hd
          simp [arrayCount, hu]

/-- The loop over a chunk returns that many arrays. -/
theorem length_drain {decoder : ChunkDecoder} {arrays : List ArrayRef}
    (h : drain env decoder = .ok arrays) : arrays.length = decoder.arrayCount := by
  induction hn : decoder.units.length using Nat.strong_induction_on generalizing decoder arrays with
  | _ n ih =>
      cases hd : decodeBatch env decoder with
      | error f =>
          rw [drain_error env hd] at h
          cases h
      | ok p =>
          obtain ⟨o, next⟩ := p
          cases o with
          | none =>
              rw [drain_none env hd] at h
              cases h
              exact (arrayCount_of_none hd).symm
          | some a =>
              have hlt := decodeBatch_units env hd
              rw [drain_step env hd] at h
              simp only [bind_eq_ok, pure_eq_ok, Except.ok.injEq] at h
              obtain ⟨rest, hrest, rfl⟩ := h
              rw [List.length_cons, ih next.units.length (by omega) hrest rfl,
                arrayCount_of_some hd]

end ChunkDecoder

theorem arrayCount_openChunk {d : PrimitiveColDecoder} {c : Fb.Chunk} {decoder : ChunkDecoder}
    (h : d.openChunk env c = .ok decoder) : decoder.arrayCount = c.arrayCount := by
  simp only [PrimitiveColDecoder.openChunk, bind_eq_ok, okOr_eq_ok] at h
  obtain ⟨buf, -, us, hus, h⟩ := h
  unfold Fb.Chunk.arrayCount
  rw [hus]
  cases he : c.encoding with
  | none =>
      rw [he] at h
      cases h
  | noDictionary =>
      simp only [he, createPhysicalDecoder] at h
      split at h
      · cases h
        rfl
      · cases h
  | localDictionary idxs =>
      simp only [he, createPhysicalDecoder] at h
      split at h
      · cases h
        rfl
      · cases h
  | sharedDictionary idx =>
      simp only [he, createPhysicalDecoder] at h
      split at h
      · simp only [bind_eq_ok, okOr_eq_ok, pure_eq_ok, Except.ok.injEq] at h
        obtain ⟨_, -, _, -, rfl⟩ := h
        rfl
      · cases h

/-- A flat column decodes to as many arrays as its metadata announces. -/
theorem length_decodeColumn {o : DecoderOptions} {p : Field × Fb.ColumnMetadata}
    {arrays : List ArrayRef} (h : decodeColumn env o .all p = .ok arrays) :
    arrays.length = p.2.arrayCount := by
  simp only [decodeColumn, bind_eq_ok, okOr_eq_ok] at h
  obtain ⟨chunks, hchunks, h⟩ := h
  simp only [decodeSelected, LogicalColDecoder.decodeBatch, PrimitiveColDecoder.decodeBatch,
    bind_eq_ok, pure_eq_ok, Except.ok.injEq] at h
  obtain ⟨parts, hparts, rfl⟩ := h
  rw [Fb.ColumnMetadata.arrayCount, hchunks, Option.getD_some, List.length_flatten]
  congr 1
  rw [← List.forall₂_eq_eq_eq, List.forall₂_map_left_iff, List.forall₂_map_right_iff]
  refine (collect_eq_ok_iff.1 hparts).flip.imp fun part c hc => ?_
  simp only [PrimitiveColDecoder.decodeChunk, bind_eq_ok] at hc
  obtain ⟨decoder, hopen, hdrain⟩ := hc
  rw [ChunkDecoder.length_drain hdrain, arrayCount_openChunk hopen]

/-! ## Batches -/

/-- What the schema of a batch takes over from a field: its name and nullability. -/
def Field.label (f : Field) : String × Bool := (f.name, f.isNullable)

/-- `q` is the projection of the batch `b`. -/
structure RecordBatch.Projects (P : Projection) (b q : RecordBatch) : Prop where
  schema : q.schema = P.pick b.schema
  columns : q.columns = P.pick b.columns
  numRows : q.numRows = b.numRows

/-- The fields of the first columns are named like the projected ones, and are
nullable where they are. -/
def LabelsAgree (schema : List Field) (indices : List Nat) : Prop :=
  (schema.take indices.length).map Field.label =
    ((Projection.leafColumnIndexes indices).pick schema).map Field.label

/-- The schema of a batch is made of the types of its columns and of the labels
of the first fields. -/
def batchSchema (labels : List (String × Bool)) (row : List ArrayRef) : List Field :=
  (row.zip labels).map fun p => .mk p.2.1 p.1.dataType p.2.2

theorem batchSchema_eq (schema : List Field) (row : List ArrayRef) :
    ((row.zip schema).map fun p => Field.mk p.2.name p.1.dataType p.2.isNullable) =
      batchSchema (schema.map Field.label) row := by
  rw [batchSchema, List.zip_map_right, List.map_map]
  rfl

theorem labels_batchSchema (labels : List (String × Bool)) : ∀ row : List ArrayRef,
    (batchSchema labels row).map Field.label = labels.take row.length := by
  induction labels with
  | nil =>
      intro row
      cases row <;> rfl
  | cons l ls ih =>
      intro row
      cases row with
      | nil => rfl
      | cons a row => exact congrArg (List.cons l) (ih row)

theorem tryNew_eq_ok {schema : List Field} {columns : List ArrayRef} {b : RecordBatch} :
    RecordBatch.tryNew schema columns = .ok b ↔
      columns ≠ [] ∧ b.schema = schema ∧ b.columns = columns ∧
        b.numRows = (columns.head?.map ArrayRef.len).getD 0 := by
  cases columns with
  | nil => exact iff_of_false (fun h => nomatch h) fun h => h.1 rfl
  | cons c cs =>
      unfold RecordBatch.tryNew
      constructor
      · intro h
        dsimp only at h
        split at h
        · cases h
          exact ⟨List.cons_ne_nil _ _, rfl, rfl, rfl⟩
        · cases h
      · rintro ⟨-, rfl, hcolumns, hrows⟩
        obtain ⟨s, cols, n, hvalid⟩ := b
        subst hcolumns hrows
        exact dif_pos hvalid

theorem assembleBatch_eq_ok {schema : List Field} {columns : List (List ArrayRef)} {i : Nat}
    {b : RecordBatch} : assembleBatch schema columns i = .ok b ↔
      ∃ row, collect (fun c : List ArrayRef => index c i) columns = .ok row ∧ row ≠ [] ∧
        b.schema = batchSchema (schema.map Field.label) row ∧ b.columns = row ∧
          b.numRows = (row.head?.map ArrayRef.len).getD 0 := by
  simp only [assembleBatch, bind_eq_ok, batchSchema_eq, tryNew_eq_ok]

/-- The labels of a batch are the first ones of the schema. -/
theorem labels_assembleBatch {schema : List Field} {columns : List (List ArrayRef)} {i : Nat}
    {b : RecordBatch} (h : assembleBatch schema columns i = .ok b) :
    b.schema.map Field.label = (schema.take columns.length).map Field.label := by
  obtain ⟨row, hrow, -, hschema, -, -⟩ := assembleBatch_eq_ok.1 h
  rw [hschema, labels_batchSchema, length_of_collect hrow, List.map_take]

/-- The projection of a batch is a batch. -/
theorem RecordBatch.exists_projects {P : Projection} (b : RecordBatch)
    (hP : P.Valid b.schema.length) : ∃ q, b.Projects P q := by
  have hvalid := b.valid
  have hlen := b.length_columns.symm
  refine ⟨⟨P.pick b.schema, P.pick b.columns, b.numRows, ?_⟩, rfl, rfl, rfl⟩
  simp only [validBatch, Bool.and_eq_true, decide_eq_true_eq, List.all_eq_true] at hvalid ⊢
  obtain ⟨⟨htypes, hrows⟩, hnulls⟩ := hvalid
  refine ⟨⟨?_, fun c hc => hrows c (Projection.mem_of_mem_pick hc)⟩, fun p hp => ?_⟩
  · rw [← Projection.pick_map, htypes, Projection.pick_map]
  · rw [← Projection.pick_zip hlen hP] at hp
    exact hnulls p (Projection.mem_of_mem_pick hp)

/-- Only the first labels count, one for each column. -/
theorem batchSchema_take (labels : List (String × Bool)) : ∀ row : List ArrayRef,
    batchSchema (labels.take row.length) row = batchSchema labels row := by
  induction labels with
  | nil =>
      intro row
      rw [List.take_nil]
  | cons l ls ih =>
      intro row
      cases row with
      | nil => rfl
      | cons a row => exact congrArg (List.cons _) (ih row)

theorem pick_batchSchema {P : Projection} {labels : List (String × Bool)} {row : List ArrayRef}
    (hlen : row.length = labels.length) (hP : P.Valid row.length) :
    P.pick (batchSchema labels row) = batchSchema (P.pick labels) (P.pick row) := by
  rw [batchSchema, batchSchema, Projection.pick_map, Projection.pick_zip hlen hP]

/-- **A batch of a projection** is the projected batch, if the labels agree. -/
theorem assembleBatch_pick {schema : List Field} {columns : List (List ArrayRef)} {i : Nat}
    {b : RecordBatch} {indices : List Nat} (hne : indices ≠ [])
    (hvalid : ∀ j ∈ indices, j < schema.length) (hlen : columns.length = schema.length)
    (hlabels : LabelsAgree schema indices) (h : assembleBatch schema columns i = .ok b) :
    ∃ q, assembleBatch schema ((Projection.leafColumnIndexes indices).pick columns) i = .ok q ∧
      b.Projects (.leafColumnIndexes indices) q := by
  obtain ⟨row, hrow, -, hschema, hcolumns, hrows⟩ := assembleBatch_eq_ok.1 h
  have hrowlen : row.length = schema.length := (length_of_collect hrow).trans hlen
  have hpicked : ((Projection.leafColumnIndexes indices).pick row).length = indices.length :=
    Projection.length_pick_leaf hvalid hrowlen
  have hlabelslen : row.length = (schema.map Field.label).length := by
    rw [hrowlen, List.length_map]
  have hsame : b.schema.length = schema.length := by
    rw [hschema, batchSchema, List.length_map, List.length_zip, List.length_map, hrowlen,
      Nat.min_self]
  have hP : ∀ {n}, n = schema.length → (Projection.leafColumnIndexes indices).Valid n := by
    rintro n rfl
    exact hvalid
  obtain ⟨q, hq⟩ := b.exists_projects (hP hsame)
  refine ⟨q, assembleBatch_eq_ok.2 ⟨(Projection.leafColumnIndexes indices).pick row,
    Projection.collect_pick (hP hlen) hrow, ?_, ?_, ?_, ?_⟩, hq⟩
  · intro hnil
    rw [hnil] at hpicked
    exact hne (List.eq_nil_of_length_eq_zero hpicked.symm)
  · -- the picked labels are those of the first fields
    rw [hq.schema, hschema, pick_batchSchema hlabelslen (hP hrowlen), Projection.pick_map,
      ← hlabels, ← hpicked, List.map_take, batchSchema_take]
  · rw [hq.columns, hcolumns]
  · rw [hq.numRows]
    cases hcases : (Projection.leafColumnIndexes indices).pick row with
    | nil =>
        rw [hcases] at hpicked
        exact absurd (List.eq_nil_of_length_eq_zero hpicked.symm) hne
    | cons c rest =>
        have hc : c ∈ row := Projection.mem_of_mem_pick (hcases ▸ List.mem_cons_self ..)
        exact (b.len_of_mem (hcolumns ▸ hc)).symm

/-- Conversely, the labels agree if some batch of the projection is the projected one. -/
theorem labelsAgree_of_projects {schema : List Field} {columns columns' : List (List ArrayRef)}
    {i j : Nat} {b q : RecordBatch} {indices : List Nat} (hlen : columns.length = schema.length)
    (hlen' : columns'.length = indices.length) (h : assembleBatch schema columns i = .ok b)
    (h' : assembleBatch schema columns' j = .ok q)
    (hq : b.Projects (.leafColumnIndexes indices) q) : LabelsAgree schema indices := by
  have hb := labels_assembleBatch h
  rw [hlen, List.take_length] at hb
  have hlabels := labels_assembleBatch h'
  rw [hlen', hq.schema, ← Projection.pick_map, hb, Projection.pick_map] at hlabels
  exact hlabels.symm

/-! ## Row groups -/

theorem assembleBatches_eq_ok {schema : List Field} {columns : List (List ArrayRef)}
    {bs : List RecordBatch} : assembleBatches schema columns = .ok bs ↔
      ∃ first, columns[0]? = some first ∧
        List.Forall₂ (fun i b => assembleBatch schema columns i = .ok b)
          (List.range first.length) bs := by
  simp only [assembleBatches, bind_eq_ok, index_eq_ok, collect_eq_ok_iff]

theorem exists_of_forall₂_range {α : Type} {R : Nat → α → Prop} {n : Nat} {xs : List α}
    (h : List.Forall₂ R (List.range n) xs) {i : Nat} (hi : i < n) : ∃ x ∈ xs, R i x := by
  obtain ⟨x, hx, hR⟩ := exists_getElem?_of_forall₂ h (List.getElem?_range hi)
  exact ⟨x, List.mem_of_getElem? hx, hR⟩

/-- Every column has an array for every batch. -/
theorem length_le_of_assembleBatches {schema : List Field} {columns : List (List ArrayRef)}
    {bs : List RecordBatch} (h : assembleBatches schema columns = .ok bs) {c : List ArrayRef}
    (hc : c ∈ columns) : bs.length ≤ c.length := by
  obtain ⟨first, -, hall⟩ := assembleBatches_eq_ok.1 h
  have hlen : bs.length = first.length := by
    rw [← hall.length_eq, List.length_range]
  cases hn : bs.length with
  | zero => exact Nat.zero_le _
  | succ n =>
      obtain ⟨b, -, hb⟩ := exists_of_forall₂_range hall (i := n) (by omega)
      obtain ⟨row, hrow, -⟩ := assembleBatch_eq_ok.1 hb
      obtain ⟨a, ha⟩ := exists_of_collect_ok hrow hc
      exact (List.getElem?_eq_some_iff.1 ((index_eq_ok _ _ _).1 ha)).1

/-- The batches of a row group are projected one by one, if the first projected
column has an array for each of them and no others. -/
theorem assembleBatches_pick {schema : List Field} {columns : List (List ArrayRef)}
    {bs : List RecordBatch} {i : Nat} {is : List Nat}
    (hvalid : ∀ j ∈ i :: is, j < schema.length) (hlen : columns.length = schema.length)
    (h : assembleBatches schema columns = .ok bs) {c : List ArrayRef} (hc : columns[i]? = some c)
    (hcount : c.length = bs.length) (hlabels : bs = [] ∨ LabelsAgree schema (i :: is)) :
    ∃ qs, assembleBatches schema ((Projection.leafColumnIndexes (i :: is)).pick columns) = .ok qs ∧
      List.Forall₂ (RecordBatch.Projects (.leafColumnIndexes (i :: is))) bs qs := by
  obtain ⟨first, -, hall⟩ := assembleBatches_eq_ok.1 h
  have hfirst : first.length = c.length := by
    rw [hcount, ← hall.length_eq, List.length_range]
  rw [hfirst] at hall
  have hpick : ((Projection.leafColumnIndexes (i :: is)).pick columns)[0]? = some c := by
    simp only [Projection.pick, List.filterMap_cons, hc]
    rfl
  rcases hlabels with rfl | hlabels
  · have hnil : c.length = 0 := hcount
    refine ⟨[], assembleBatches_eq_ok.2 ⟨c, hpick, ?_⟩, .nil⟩
    rw [hnil]
    exact .nil
  · -- batch by batch
    have hbatch : ∀ {js : List Nat} {bs : List RecordBatch},
        List.Forall₂ (fun i b => assembleBatch schema columns i = .ok b) js bs → ∃ qs,
          List.Forall₂ (fun j q => assembleBatch schema
            ((Projection.leafColumnIndexes (i :: is)).pick columns) j = .ok q) js qs ∧
          List.Forall₂ (RecordBatch.Projects (.leafColumnIndexes (i :: is))) bs qs := by
      intro js bs hjs
      induction hjs with
      | nil => exact ⟨[], .nil, .nil⟩
      | cons hhead _ ih =>
          obtain ⟨qs, hqs, hprojects⟩ := ih
          obtain ⟨q, hq, hproject⟩ :=
            assembleBatch_pick (List.cons_ne_nil _ _) hvalid hlen hlabels hhead
          exact ⟨q :: qs, .cons hq hqs, .cons hproject hprojects⟩
    obtain ⟨qs, hqs, hprojects⟩ := hbatch hall
    exact ⟨qs, assembleBatches_eq_ok.2 ⟨c, hpick, hqs⟩, hprojects⟩

/-! ## Files -/

/-- The arrays of column `i` of a row group. -/
def RowGroupMetadata.arrayCount (g : RowGroupMetadata) (i : Nat) : Nat :=
  ((g.colMetadatas[i]?).map fun m => m.toFb.arrayCount).getD 0

namespace FileWriter

/-- What a reader with a projection reads from the file. -/
def readProjected (env : Env) (w : FileWriter) (P : Projection) : Result (List RecordBatch) := do
  let r ← ((FileReaderV2Builder.new w.file).withProjections P).build env
  r.readFile env

/-- One row group under a projection. -/
def readProjectedGroup (env : Env) (w : FileWriter) (sec : Sections) (p : PostscriptValues)
    (cache : SharedDictionaryCache) (schema : List Field) (P : Projection)
    (g : RowGroupMetadata) : Result (List RecordBatch) := do
  let columns ← collect
    (decodeColumn env ((FileReaderV2Builder.new w.file).decoders sec p cache []) .all)
    (P.pick (schema.zip (g.colMetadatas.map ColumnMetadata.toFb)))
  assembleBatches schema columns

/-- In every row group, the first projected column has as many arrays as the
first column. -/
def CountsAgree (w : FileWriter) (indices : List Nat) : Prop :=
  ∀ g ∈ w.state.rowGroupsTable.rowGroupMetadata, g.arrayCount (indices.headD 0) = g.arrayCount 0

/-- The first column has no arrays at all. -/
def NoArrays (w : FileWriter) : Prop :=
  ∀ g ∈ w.state.rowGroupsTable.rowGroupMetadata, g.arrayCount 0 = 0

section

variable {schema : List Field} {options : FileWriterOptions} {cs : List Call}
  {w w₁ : FileWriter} {sec : Sections} {p : PostscriptValues} {f : FileParts}

theorem collect_map {α β γ : Type} (g : α → β) (f : β → Result γ) (xs : List α) :
    collect f (xs.map g) = collect (fun x => f (g x)) xs := by
  refine collect_congr₂ ?_
  rw [List.forall₂_map_left_iff, List.forall₂_same]
  exact fun x _ => rfl

/-- Reading under a projection, row group by row group. -/
theorem readProjected_eq (laws : env.SerializationLaws)
    (h : FinishesWith env schema options cs w w₁ sec p) (hf : Finished env w w₁ sec p f)
    (hflat : flatSchema schema = true) {P : Projection} (hP : P.Valid schema.length) :
    readProjected env w P = (do
      let cache ← unwrap (SharedDictionaryCache.tryNewReadAll env w.file
        (sec.dictionaryTable env) (some ((FileReaderV2Builder.new w.file).contextOf sec)))
      let batches ← collect (readProjectedGroup env w sec p cache schema P)
        w.state.rowGroupsTable.rowGroupMetadata
      pure batches.flatten) := by
  have haligned := h.aligned
  obtain ⟨-, hcols⟩ := h.schema_eq hflat
  rw [readProjected, readFile_written laws h hf hflat rfl rfl hP]
  congr 1
  funext cache
  congr 1
  have hgroups : (w.state.rowGroupsTable.rowGroupMetadata.zip
      w.state.rowGroupsTable.pointers).map Prod.fst = w.state.rowGroupsTable.rowGroupMetadata := by
    refine List.map_fst_zip ?_
    rw [RowGroupsTable.pointers, List.length_zip, List.length_zip, haligned.rowCounts,
      haligned.offsets, haligned.sizes, Nat.min_self, Nat.min_self]
  have hselected : processSelection ((FileReaderV2Builder.new w.file).withProjections P).selection
      (w.grouped ((FileReaderV2Builder.new w.file).withProjections P).projections) =
        (w.grouped P).map fun g => (g, .all) := rfl
  rw [hselected, grouped, List.map_map, collect_map]
  conv => rhs; rw [← hgroups, collect_map]
  refine collect_congr fun q hq => ?_
  have hlen : (q.1.colMetadatas.map ColumnMetadata.toFb).length = schema.length := by
    rw [List.length_map, (h.columns hf).2 q.1 (List.of_mem_zip hq).1, hcols]
  rw [readProjectedGroup, Projection.pick_zip hlen.symm hP]
  rfl

/-- The columns of a row group that is read, and what a projection makes of them. -/
theorem exists_columns {cache : SharedDictionaryCache} {g : RowGroupMetadata}
    (hlen : g.colMetadatas.length = schema.length) {bs : List RecordBatch}
    (h : readProjectedGroup env w sec p cache schema .all g = .ok bs) :
    ∃ columns, columns.length = schema.length ∧ assembleBatches schema columns = .ok bs ∧
      (∀ (i : Nat) (c : List ArrayRef), columns[i]? = some c → c.length = g.arrayCount i) ∧
        ∀ P : Projection, P.Valid schema.length →
          readProjectedGroup env w sec p cache schema P g =
            assembleBatches schema (P.pick columns) := by
  rw [readProjectedGroup, bind_eq_ok] at h
  obtain ⟨columns, hcolumns, hbatches⟩ := h
  simp only [Projection.pick] at hcolumns
  have hzip : (schema.zip (g.colMetadatas.map ColumnMetadata.toFb)).length = schema.length := by
    rw [List.length_zip, List.length_map, hlen, Nat.min_self]
  refine ⟨columns, (length_of_collect hcolumns).trans hzip, hbatches, ?_, ?_⟩
  · intro i c hc
    obtain ⟨q, hq, hdecode⟩ := exists_getElem?_of_forall₂ (collect_eq_ok_iff.1 hcolumns).flip hc
    obtain ⟨-, hmeta⟩ := List.getElem?_zip_eq_some.1 hq
    rw [List.getElem?_map] at hmeta
    obtain ⟨m, hm, hqm⟩ := Option.map_eq_some_iff.1 hmeta
    rw [length_decodeColumn hdecode, RowGroupMetadata.arrayCount, hm, ← hqm]
    rfl
  · intro P hP
    rw [readProjectedGroup, Projection.collect_pick (by rw [hzip]; exact hP) hcolumns, ok_bind]

/-- Every batch of a row group is assembled from the decoded columns. -/
theorem exists_assembled {cache : SharedDictionaryCache} {g : RowGroupMetadata} {P : Projection}
    {bs : List RecordBatch} (h : readProjectedGroup env w sec p cache schema P g = .ok bs)
    {b : RecordBatch} (hb : b ∈ bs) : ∃ columns i,
      columns.length = (P.pick (schema.zip (g.colMetadatas.map ColumnMetadata.toFb))).length ∧
        assembleBatch schema columns i = .ok b := by
  rw [readProjectedGroup, bind_eq_ok] at h
  obtain ⟨columns, hcolumns, hbatches⟩ := h
  obtain ⟨first, -, hall⟩ := assembleBatches_eq_ok.1 hbatches
  obtain ⟨k, hk⟩ := List.getElem?_of_mem hb
  obtain ⟨i, -, hi⟩ := exists_getElem?_of_forall₂ hall.flip hk
  exact ⟨columns, i, length_of_collect hcolumns, hi⟩

theorem exists_of_mem_flatten {α β : Type} {R : α → List β → Prop} {xs : List α}
    {yss : List (List β)} (h : List.Forall₂ R xs yss) {y : β} (hy : y ∈ yss.flatten) :
    ∃ x ∈ xs, ∃ ys, R x ys ∧ y ∈ ys := by
  obtain ⟨ys, hys, hmem⟩ := List.mem_flatten.1 hy
  obtain ⟨k, hk⟩ := List.getElem?_of_mem hys
  obtain ⟨x, hx, hR⟩ := exists_getElem?_of_forall₂ h.flip hk
  exact ⟨x, List.mem_of_getElem? hx, ys, hR, hmem⟩

theorem sum_eq_of_le : ∀ {ns ms : List Nat}, List.Forall₂ (· ≤ ·) ns ms → ms.sum = ns.sum →
    List.Forall₂ (· = ·) ns ms
  | _, _, .nil, _ => .nil
  | _, _, .cons hhead htail, h => by
      have hsum := htail.sum_le_sum
      simp only [List.sum_cons] at h
      exact .cons (by omega) (sum_eq_of_le htail (by omega))

/-- The batches of the row groups are projected row group by row group. -/
theorem projectedGroups_ok {cache : SharedDictionaryCache} {i : Nat} {is : List Nat}
    (hvalid : ∀ j ∈ i :: is, j < schema.length) {gs : List RowGroupMetadata}
    {bss : List (List RecordBatch)}
    (hlen : ∀ g ∈ gs, g.colMetadatas.length = schema.length)
    (hcount : ∀ g ∈ gs, g.arrayCount i = g.arrayCount 0)
    (hlabels : (∀ g ∈ gs, g.arrayCount 0 = 0) ∨ LabelsAgree schema (i :: is))
    (h : List.Forall₂ (fun g bs => readProjectedGroup env w sec p cache schema .all g = .ok bs)
      gs bss) :
    ∃ qss, List.Forall₂ (fun g qs => readProjectedGroup env w sec p cache schema
        (.leafColumnIndexes (i :: is)) g = .ok qs) gs qss ∧
      List.Forall₂ (List.Forall₂ (RecordBatch.Projects (.leafColumnIndexes (i :: is)))) bss qss := by
  induction h with
  | nil => exact ⟨[], .nil, .nil⟩
  | @cons g bs gs bss hhead _ ih =>
      obtain ⟨qss, hqss, hprojects⟩ := ih (fun g' hg' => hlen g' (List.mem_cons_of_mem _ hg'))
        (fun g' hg' => hcount g' (List.mem_cons_of_mem _ hg'))
        (hlabels.imp_left fun hz g' hg' => hz g' (List.mem_cons_of_mem _ hg'))
      obtain ⟨columns, hcolumns, hbatches, hcounts, hpick⟩ :=
        exists_columns (hlen g (List.mem_cons_self ..)) hhead
      obtain ⟨first, hfirst, hall⟩ := assembleBatches_eq_ok.1 hbatches
      have hbs : bs.length = g.arrayCount 0 := by
        rw [← hall.length_eq, List.length_range, hcounts 0 first hfirst]
      have hi : i < columns.length := by
        rw [hcolumns]
        exact hvalid i (List.mem_cons_self ..)
      have hc := List.getElem?_eq_getElem hi
      obtain ⟨qs, hqs, hproject⟩ := assembleBatches_pick hvalid hcolumns hbatches hc
        (by rw [hcounts i _ hc, hbs, hcount g (List.mem_cons_self ..)])
        (hlabels.imp_left fun hz => List.eq_nil_of_length_eq_zero
          (hbs.trans (hz g (List.mem_cons_self ..))))
      refine ⟨qs :: qss, .cons ?_ hqss, .cons hproject hprojects⟩
      rw [hpick (.leafColumnIndexes (i :: is)) hvalid]
      exact hqs

/-- What the row groups must be like if the projected read has the right batches. -/
theorem projectedGroups_length {cache : SharedDictionaryCache} {i : Nat} {is : List Nat}
    (hvalid : ∀ j ∈ i :: is, j < schema.length) {gs : List RowGroupMetadata}
    {bss qss : List (List RecordBatch)}
    (hlen : ∀ g ∈ gs, g.colMetadatas.length = schema.length)
    (h : List.Forall₂ (fun g bs => readProjectedGroup env w sec p cache schema .all g = .ok bs)
      gs bss)
    (hq : List.Forall₂ (fun g qs => readProjectedGroup env w sec p cache schema
      (.leafColumnIndexes (i :: is)) g = .ok qs) gs qss) :
    bss.map List.length = gs.map (fun g => g.arrayCount 0) ∧
      qss.map List.length = gs.map (fun g => g.arrayCount i) ∧
        List.Forall₂ (· ≤ ·) (bss.map List.length) (qss.map List.length) := by
  induction h generalizing qss with
  | nil =>
      cases hq
      exact ⟨rfl, rfl, .nil⟩
  | @cons g bs gs bss hhead _ ih =>
      cases hq with
      | @cons _ qs _ qss hqs hrest =>
          obtain ⟨hbss, hqss, hle⟩ := ih (fun g' hg' => hlen g' (List.mem_cons_of_mem _ hg')) hrest
          obtain ⟨columns, hcolumns, hbatches, hcounts, hpick⟩ :=
            exists_columns (hlen g (List.mem_cons_self ..)) hhead
          rw [hpick (.leafColumnIndexes (i :: is)) hvalid] at hqs
          obtain ⟨first, hfirst, hall⟩ := assembleBatches_eq_ok.1 hbatches
          obtain ⟨c, hc, hqall⟩ := assembleBatches_eq_ok.1 hqs
          have hi : i < columns.length := by
            rw [hcolumns]
            exact hvalid i (List.mem_cons_self ..)
          have hci : columns[i]? = some c := by
            simp only [Projection.pick, List.filterMap_cons, List.getElem?_eq_getElem hi] at hc
            rw [List.getElem?_eq_getElem hi]
            exact hc
          have hbs : bs.length = g.arrayCount 0 := by
            rw [← hall.length_eq, List.length_range, hcounts 0 first hfirst]
          have hqlen : qs.length = g.arrayCount i := by
            rw [← hqall.length_eq, List.length_range, hcounts i c hci]
          refine ⟨congrArg₂ List.cons hbs hbss, congrArg₂ List.cons hqlen hqss, .cons ?_ hle⟩
          rw [hqlen, ← hcounts i c hci]
          exact length_le_of_assembleBatches hbatches (List.mem_of_getElem? hci)

end

end FileWriter

/-- **A projection reads the projected batches, exactly if the arrays of its first
column are as many as those of the first column of the file, and either there
are none or the first fields have the labels of the projected ones.** -/
theorem projection_commutes_iff (laws : env.SerializationLaws) {schema : List Field}
    {options : FileWriterOptions} {cs : List Call} {w : FileWriter}
    (hw : Finishes env schema options cs w) (hfit : w.Fits) (hflat : flatSchema schema = true)
    {indices : List Nat} (hne : indices ≠ []) (hvalid : ∀ i ∈ indices, i < schema.length)
    {bs : List RecordBatch} (hall : readProjected env w .all = .ok bs) :
    (∃ qs, readProjected env w (.leafColumnIndexes indices) = .ok qs ∧
      List.Forall₂ (RecordBatch.Projects (.leafColumnIndexes indices)) bs qs) ↔
        w.CountsAgree indices ∧ (w.NoArrays ∨ LabelsAgree schema indices) := by
  obtain ⟨w₁, sec, p, h⟩ := finishes_iff.1 hw
  obtain ⟨f, hf⟩ := h.finished hfit
  obtain ⟨i, is, rfl⟩ := List.exists_cons_of_ne_nil hne
  have hlen : ∀ g ∈ w.state.rowGroupsTable.rowGroupMetadata,
      g.colMetadatas.length = schema.length := by
    intro g hg
    rw [(h.columns hf).2 g hg, (h.schema_eq hflat).2]
  rw [readProjected_eq laws h hf hflat (P := .all) trivial, bind_eq_ok] at hall
  obtain ⟨cache, hcache, hall⟩ := hall
  rw [bind_eq_ok] at hall
  obtain ⟨bss, hbss, hall⟩ := hall
  cases hall
  rw [readProjected_eq laws h hf hflat (P := .leafColumnIndexes (i :: is)) hvalid, hcache, ok_bind]
  have hgroups := collect_eq_ok_iff.1 hbss
  constructor
  · rintro ⟨qs, hqs, hprojects⟩
    rw [bind_eq_ok] at hqs
    obtain ⟨qss, hqss, hqs⟩ := hqs
    cases hqs
    have hqgroups := collect_eq_ok_iff.1 hqss
    obtain ⟨hbcounts, hqcounts, hle⟩ := projectedGroups_length hvalid hlen hgroups hqgroups
    -- no more batches in all, so as many in every row group
    have hsum := hprojects.length_eq
    rw [List.length_flatten, List.length_flatten] at hsum
    have hcounts := sum_eq_of_le hle hsum.symm
    rw [List.forall₂_eq_eq_eq, hbcounts, hqcounts] at hcounts
    refine ⟨fun g hg => (List.map_inj_left.1 hcounts g hg).symm, ?_⟩
    have hzip : ∀ g ∈ w.state.rowGroupsTable.rowGroupMetadata,
        (schema.zip (g.colMetadatas.map ColumnMetadata.toFb)).length = schema.length := by
      intro g hg
      rw [List.length_zip, List.length_map, hlen g hg, Nat.min_self]
    cases hflatten : bss.flatten with
    | nil =>
        left
        intro g hg
        have hcount : g.arrayCount 0 ∈ bss.map List.length := by
          rw [hbcounts]
          exact List.mem_map_of_mem hg
        obtain ⟨bs, hbs, hcount⟩ := List.mem_map.1 hcount
        rw [← hcount, List.flatten_eq_nil_iff.1 hflatten bs hbs]
        rfl
    | cons b rest =>
        right
        rw [hflatten] at hprojects
        cases hq : qss.flatten with
        | nil =>
            rw [hq] at hprojects
            cases hprojects
        | cons q rest' =>
            rw [hq] at hprojects
            cases hprojects with
            | cons hproject _ =>
                obtain ⟨g, hg, bs, hread, hb⟩ := exists_of_mem_flatten hgroups
                  (hflatten ▸ List.mem_cons_self ..)
                obtain ⟨g', hg', qs, hread', hq'⟩ := exists_of_mem_flatten hqgroups
                  (hq ▸ List.mem_cons_self ..)
                obtain ⟨columns, j, hcolumns, hassembled⟩ := exists_assembled hread hb
                obtain ⟨columns', j', hcolumns', hassembled'⟩ := exists_assembled hread' hq'
                exact labelsAgree_of_projects (hcolumns.trans (hzip g hg))
                  (hcolumns'.trans (Projection.length_pick_leaf hvalid (hzip g' hg')))
                  hassembled hassembled' hproject
  · rintro ⟨hcount, hlabels⟩
    obtain ⟨qss, hqss, hprojects⟩ := projectedGroups_ok hvalid hlen hcount hlabels hgroups
    refine ⟨qss.flatten, ?_, List.rel_flatten hprojects⟩
    rw [collect_eq_ok_iff.2 hqss, ok_bind, pure_eq_ok]

namespace Sample

/-- A schema whose second column may not have nulls. -/
def keyedSchema : List Field := [.mk "a" (.prim .int32) true, .mk "b" (.prim .int32) false]

/-- A batch of one row. -/
def keyedBatch : RecordBatch := ⟨keyedSchema, [seven, seven], 1, by decide⟩

theorem keyedFits :
    FileWriter.runFits Sample.env keyedSchema .default [.writeBatch keyedBatch] = true := by
  decide +kernel

/-- The labels of the batches that a projection reads from the file with that batch. -/
def keyedLabels (P : Projection) : Result (List (List (String × Bool))) := do
  let w ← FileWriter.run Sample.env keyedSchema .default [.writeBatch keyedBatch]
  let batches ← readProjected Sample.env w P
  pure (batches.map fun b => b.schema.map Field.label)

theorem keyedLabels_eq {P : Projection} {labels : List (List (String × Bool))}
    (h : keyedLabels P = .ok labels) : ∃ w bs,
      FileWriter.run Sample.env keyedSchema .default [.writeBatch keyedBatch] = .ok w ∧
        readProjected Sample.env w P = .ok bs ∧
          bs.map (fun b => b.schema.map Field.label) = labels := by
  simp only [keyedLabels, bind_eq_ok, pure_eq_ok, Except.ok.injEq] at h
  obtain ⟨w, hw, bs, hbs, hlabels⟩ := h
  exact ⟨w, bs, hw, hbs, hlabels⟩

end Sample

/-- The first column of a file of two. -/
theorem projection_commutes_iff_sample : ∃ w bs,
    Finishes Sample.env Sample.keyedSchema .default [.writeBatch Sample.keyedBatch] w ∧
      ((∃ qs, readProjected Sample.env w (.leafColumnIndexes [0]) = .ok qs ∧
        List.Forall₂ (RecordBatch.Projects (.leafColumnIndexes [0])) bs qs) ↔
          w.CountsAgree [0] ∧ (w.NoArrays ∨ LabelsAgree Sample.keyedSchema [0])) := by
  have hlabels : Sample.keyedLabels .all = .ok [[("a", true), ("b", false)]] := by decide +kernel
  obtain ⟨w, bs, hw, hbs, -⟩ := Sample.keyedLabels_eq hlabels
  exact ⟨w, bs, finishes_of_run hw, projection_commutes_iff Sample.serializationLaws
    (finishes_of_run hw) (fits_of_runFits Sample.keyedFits hw) rfl (by decide) (by decide) hbs⟩

/-- The second column alone gets the name of the first one, and may have nulls. -/
theorem second_column_mislabelled : ∃ w bs qs,
    Finishes Sample.env Sample.keyedSchema .default [.writeBatch Sample.keyedBatch] w ∧ w.Fits ∧
      flatSchema Sample.keyedSchema = true ∧ readProjected Sample.env w .all = .ok bs ∧
        readProjected Sample.env w (.leafColumnIndexes [1]) = .ok qs ∧
          bs.map (fun b => b.schema.map Field.label) = [[("a", true), ("b", false)]] ∧
            qs.map (fun q => q.schema.map Field.label) = [[("a", true)]] ∧
              ¬ List.Forall₂ (RecordBatch.Projects (.leafColumnIndexes [1])) bs qs := by
  have hall : Sample.keyedLabels .all = .ok [[("a", true), ("b", false)]] := by decide +kernel
  have hsecond : Sample.keyedLabels (.leafColumnIndexes [1]) = .ok [[("a", true)]] := by
    decide +kernel
  obtain ⟨w, bs, hw, hbs, hfull⟩ := Sample.keyedLabels_eq hall
  obtain ⟨w', qs, hw', hqs, hpart⟩ := Sample.keyedLabels_eq hsecond
  rw [hw] at hw'
  cases hw'
  refine ⟨w, bs, qs, finishes_of_run hw, fits_of_runFits Sample.keyedFits hw, rfl, hbs, hqs, hfull,
    hpart, ?_⟩
  intro hprojects
  cases hprojects with
  | nil => cases hfull
  | cons hproject _ =>
      -- the label of the second column is not that of the first
      simp only [List.map_cons, List.cons.injEq] at hfull hpart
      have hlabels := hpart.1
      rw [hproject.schema, ← Projection.pick_map, hfull.1] at hlabels
      revert hlabels
      decide

end F3Format
