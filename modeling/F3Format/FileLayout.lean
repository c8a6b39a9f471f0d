import F3Format.Reader
import F3Format.UnitReading

/-!
# The layout of a file

Everything `finish` writes is appended to the file: dictionaries, WASM binaries
and their table, the column metadata of every row group, the footer and the
postscript. The first section says what each step appends and which positions
it records. `found_of_trailer` reads the end of a file back, and
`layout_of_finishes` puts both together: what the reader slices is what the
writer wrote.
-/

set_option autoImplicit false

namespace F3Format

open Lib

/-! ## What the steps append -/

/-- The record of a chunk written at `offset`. -/
def EncodedColumnChunk.record (env : Env) (checksum : Bool) (offset : Nat)
    (c : EncodedColumnChunk) : Chunk :=
  ⟨offset, u32 c.bytes.length, c.numRows, c.dictEncoding, c.encunits.map SerializedEncUnit.recorded,
    if checksum then some (env.xxh64 c.bytes) else none⟩

/-- The sizes narrowed when a chunk is written. -/
def EncodedColumnChunk.sizes (c : EncodedColumnChunk) : List Nat :=
  c.encunits.map (fun u => u.bytes.length) ++ [c.bytes.length]

/-- The bytes of a column's metadata. -/
def ColumnMetadata.bytes (env : Env) (m : ColumnMetadata) : Bytes :=
  env.columnMetadataFb.build m.toFb

/-- The section is where the file has `b`, at `lo` or after it. -/
structure SectionOf (lo : Nat) (file b : Bytes) (s : MetadataSection) : Prop where
  start : lo ≤ s.offset
  holds : HoldsAt file s.offset b
  size : s.size = u32 b.length

theorem SectionOf.mono {n lo : Nat} {file b : Bytes} {s : MetadataSection}
    (h : SectionOf lo file b s) (hn : n ≤ lo) (more : Bytes) : SectionOf n (file ++ more) b s :=
  ⟨Nat.le_trans hn h.start, h.holds.append more, h.size⟩

/-- The records of chunks written one after the other from `offset` on. -/
def recordsFrom (env : Env) (checksum : Bool) : Nat → List EncodedColumnChunk → List Chunk
  | _, [] => []
  | offset, c :: cs =>
      c.record env checksum offset :: recordsFrom env checksum (offset + c.bytes.length) cs

/-- The bytes of some chunks. -/
def chunkBytes (cs : List EncodedColumnChunk) : Bytes := (cs.map EncodedColumnChunk.bytes).flatten

theorem length_recordsFrom (env : Env) (checksum : Bool) (offset : Nat)
    (cs : List EncodedColumnChunk) : (recordsFrom env checksum offset cs).length = cs.length := by
  induction cs generalizing offset with
  | nil => rfl
  | cons c cs ih => simp [recordsFrom, ih]

theorem recordsFrom_append (env : Env) (checksum : Bool) (offset : Nat)
    (cs cs' : List EncodedColumnChunk) :
    recordsFrom env checksum offset (cs ++ cs') = recordsFrom env checksum offset cs ++
      recordsFrom env checksum (offset + (chunkBytes cs).length) cs' := by
  induction cs generalizing offset with
  | nil => simp [recordsFrom, chunkBytes]
  | cons c cs ih =>
      simp only [List.cons_append, recordsFrom, ih]
      simp [chunkBytes, Nat.add_assoc]

/-- Relative to what is in front of it, the section is inside what follows. -/
theorem SectionOf.drop {pre metadata b : Bytes} {s : MetadataSection}
    (h : SectionOf pre.length (pre ++ metadata) b s) : HoldsAt metadata (s.offset - pre.length) b := by
  have hdrop := h.holds.drop h.start
  rwa [List.drop_left] at hdrop

namespace FileWriteState

/-- The state after `bytes` are written and the values `vs` narrowed. -/
def appended (s : FileWriteState) (bytes : Bytes) (vs : List Nat) : FileWriteState :=
  { s with
    writer := s.writer ++ bytes
    dataChecksum := s.dataChecksum ++ bytes
    narrowed := s.narrowed ++ vs }

section Appended

variable (s : FileWriteState) (bytes bytes' : Bytes) (vs vs' : List Nat)

@[simp] theorem writer_appended : (s.appended bytes vs).writer = s.writer ++ bytes := rfl

@[simp] theorem narrowed_appended : (s.appended bytes vs).narrowed = s.narrowed ++ vs := rfl

@[simp] theorem rowGroupsTable_appended :
    (s.appended bytes vs).rowGroupsTable = s.rowGroupsTable := rfl

@[simp] theorem enableIoUnitChecksum_appended :
    (s.appended bytes vs).enableIoUnitChecksum = s.enableIoUnitChecksum := rfl

@[simp] theorem appended_appended :
    (s.appended bytes vs).appended bytes' vs' = s.appended (bytes ++ bytes') (vs ++ vs') := by
  simp [appended]

theorem appended_nil : s.appended [] [] = s := by
  simp [appended]

theorem log_eq : s.log vs = s.appended [] vs := by
  simp [log, appended]

theorem writeAndUpdate_eq : s.writeAndUpdate bytes = s.appended bytes [] := by
  simp [writeAndUpdate, appended]

end Appended

theorem flushEncunits_spec (us : List SerializedEncUnit) (s : FileWriteState) :
    flushEncunits us s =
      (s.appended (unitBytes us) (us.map fun u => u.bytes.length),
        us.map SerializedEncUnit.recorded) := by
  induction us generalizing s with
  | nil => simp [flushEncunits, unitBytes, appended_nil]
  | cons u us ih =>
      rw [flushEncunits, ih, writeAndUpdate_eq, log_eq]
      simp [SerializedEncUnit.recorded]

theorem flushChunkAndGetMetadata_spec (env : Env) (s : FileWriteState) (c : EncodedColumnChunk) :
    flushChunkAndGetMetadata env s c =
      (s.appended c.bytes c.sizes, c.record env s.enableIoUnitChecksum s.writer.length) := by
  have hbytes : unitBytes c.encunits = c.bytes := rfl
  have hsize : (s.writer ++ c.bytes).length - s.writer.length = c.bytes.length := by simp
  unfold flushChunkAndGetMetadata
  simp only [flushEncunits_spec, log_eq, writer_appended, appended_appended, List.append_nil,
    hbytes, hsize]
  rfl

/-- The column metadata of a row group, one section after the other. -/
theorem flushColumnMetadatas_spec (env : Env) (ms : List ColumnMetadata) (s : FileWriteState) :
    ∃ sections, flushColumnMetadatas env ms s =
        (s.appended (ms.map (ColumnMetadata.bytes env)).flatten
          (ms.map fun m => (m.bytes env).length), sections) ∧
      List.Forall₂ (fun m => SectionOf s.writer.length
        (s.writer ++ (ms.map (ColumnMetadata.bytes env)).flatten) (m.bytes env)) ms sections ∧
      ∀ sec, sections.head? = some sec → sec.offset = s.writer.length := by
  induction ms generalizing s with
  | nil => exact ⟨[], by simp [flushColumnMetadatas, appended_nil], .nil, by simp⟩
  | cons m ms ih =>
      have hfirst : flushColumnMetadata env s m =
          (s.appended (m.bytes env) [(m.bytes env).length],
            ⟨s.writer.length, u32 (m.bytes env).length, .uncompressed⟩) := by
        simp [flushColumnMetadata, writeAndUpdate_eq, log_eq, ColumnMetadata.bytes]
      obtain ⟨sections, hrun, hall, -⟩ := ih (s.appended (m.bytes env) [(m.bytes env).length])
      refine ⟨⟨s.writer.length, u32 (m.bytes env).length, .uncompressed⟩ :: sections, ?_, ?_, ?_⟩
      · rw [flushColumnMetadatas, hfirst]
        simp only [hrun, appended_appended]
        rfl
      · have hhead : HoldsAt (s.writer ++ m.bytes env) s.writer.length (m.bytes env) :=
          holdsAt_snoc s.writer (m.bytes env)
        rw [List.map_cons, List.flatten_cons, ← List.append_assoc]
        refine .cons ⟨Nat.le_refl _, hhead.append _, rfl⟩ (hall.imp fun m' sec h => ?_)
        have h' := h.mono (n := s.writer.length) (by simp) []
        rwa [List.append_nil] at h'
      · rintro sec ⟨⟩
        rfl

/-- The column metadata of all row groups. -/
theorem flushRowGroupMetadatas_spec (env : Env) (gs : List RowGroupMetadata) (s : FileWriteState) :
    ∃ bytes sections, flushRowGroupMetadatas env gs s =
        (s.appended bytes ((gs.flatMap RowGroupMetadata.colMetadatas).map fun m =>
          (m.bytes env).length), sections) ∧
      List.Forall₂ (fun (g : RowGroupMetadata) (i : IndirectRowGroupMetadata) =>
        List.Forall₂ (fun m => SectionOf s.writer.length (s.writer ++ bytes) (m.bytes env))
          g.colMetadatas i.colMetadatas) gs sections ∧
      ∀ i, sections.head? = some i → ∀ sec, i.colMetadatas.head? = some sec →
        sec.offset = s.writer.length := by
  induction gs generalizing s with
  | nil => exact ⟨[], [], by simp [flushRowGroupMetadatas, appended_nil], .nil, by simp⟩
  | cons g gs ih =>
      obtain ⟨columns, hcolumns, hall, hhead⟩ := flushColumnMetadatas_spec env g.colMetadatas s
      obtain ⟨bytes, sections, hrun, hrest, -⟩ := ih (s.appended
        (g.colMetadatas.map (ColumnMetadata.bytes env)).flatten
        (g.colMetadatas.map fun m => (m.bytes env).length))
      refine ⟨(g.colMetadatas.map (ColumnMetadata.bytes env)).flatten ++ bytes,
        ⟨columns⟩ :: sections, ?_, ?_, ?_⟩
      · rw [flushRowGroupMetadatas, hcolumns]
        simp only [hrun, appended_appended, List.flatMap_cons, List.map_append]
      · rw [← List.append_assoc]
        refine .cons (hall.imp fun m sec h => h.mono (Nat.le_refl _) bytes)
          (hrest.imp fun g' i h => h.imp fun m sec h' => ?_)
        have h'' := h'.mono (n := s.writer.length) (by simp) []
        rwa [List.append_nil] at h''
      · rintro i ⟨⟩
        exact hhead

/-- The WASM binaries, recorded as they are placed. -/
theorem flushWasms_spec (wasms : List Bytes) (s : FileWriteState) :
    ∃ sections, flushWasms wasms s =
        (s.appended wasms.flatten (wasms.map List.length), sections) ∧
      List.Forall₂ (fun b (m : Fb.MetadataSection) => HoldsAt (s.writer ++ wasms.flatten) m.offset b ∧
        m.size = u32 b.length) wasms sections := by
  induction wasms generalizing s with
  | nil => exact ⟨[], by simp [flushWasms, appended_nil], .nil⟩
  | cons b wasms ih =>
      obtain ⟨sections, hrun, hall⟩ := ih (s.appended b [b.length])
      refine ⟨⟨s.writer.length, u32 b.length, .uncompressed⟩ :: sections, ?_, ?_⟩
      · rw [flushWasms]
        simp only [writeAndUpdate_eq, log_eq, appended_appended, List.append_nil, List.nil_append,
          hrun, List.flatten_cons, List.map_cons, List.singleton_append]
      · rw [List.flatten_cons, ← List.append_assoc]
        exact .cons ⟨(holdsAt_snoc s.writer b).append _, rfl⟩ hall

/-- The chunks of the dictionaries, one after the other; their row counts are narrowed too. -/
theorem flushDictChunks_spec (env : Env) (cs : List EncodedColumnChunk) (s : FileWriteState) :
    flushDictChunks env cs s =
      (s.appended (chunkBytes cs) (cs.flatMap fun c => c.numRows :: c.sizes),
        recordsFrom env s.enableIoUnitChecksum s.writer.length cs) := by
  induction cs generalizing s with
  | nil => simp [flushDictChunks, recordsFrom, chunkBytes, appended_nil]
  | cons c cs ih =>
      rw [flushDictChunks]
      simp only [log_eq, flushChunkAndGetMetadata_spec, ih, appended_appended]
      simp [recordsFrom, chunkBytes]

theorem flushAllDictChunks_spec (env : Env) (css : List (List EncodedColumnChunk))
    (s : FileWriteState) :
    ∃ records, flushAllDictChunks env css s =
        (s.appended (chunkBytes css.flatten) (css.flatten.flatMap fun c => c.numRows :: c.sizes),
          records) ∧
      records.flatten = recordsFrom env s.enableIoUnitChecksum s.writer.length css.flatten ∧
      records.map List.length = css.map List.length := by
  induction css generalizing s with
  | nil => exact ⟨[], by simp [flushAllDictChunks, chunkBytes, appended_nil], rfl, rfl⟩
  | cons cs css ih =>
      obtain ⟨records, hrun, hflat, hlen⟩ := ih (s.appended (chunkBytes cs)
        (cs.flatMap fun c => c.numRows :: c.sizes))
      refine ⟨recordsFrom env s.enableIoUnitChecksum s.writer.length cs :: records, ?_, ?_, ?_⟩
      · rw [flushAllDictChunks]
        simp only [flushDictChunks_spec, hrun, appended_appended]
        simp [chunkBytes]
      · rw [List.flatten_cons, List.flatten_cons, recordsFrom_append, hflat]
        simp
      · rw [List.map_cons, List.map_cons, hlen, length_recordsFrom]

end FileWriteState

/-! ## The parts of a file -/

/-- The byte strings a file consists of, in their order. -/
structure FileParts where
  rowGroups : Bytes
  dictionaries : Bytes
  wasms : Bytes
  wasmTable : Bytes
  metadata : Bytes
  footer : Bytes
  postscript : Bytes

namespace FileParts

/-- Everything before the column metadata. -/
def data (f : FileParts) : Bytes := f.rowGroups ++ f.dictionaries ++ f.wasms ++ f.wasmTable

/-- The file. -/
def bytes (f : FileParts) : Bytes := f.data ++ (f.metadata ++ (f.footer ++ f.postscript))

end FileParts

namespace FileWriter

/-- What `writeSections` leaves: the parts of the file, and where its records
say they are. -/
structure Written (env : Env) (w : FileWriter) (t : FileWriteState) (sec : Sections)
    (p : PostscriptValues) (f : FileParts) : Prop where
  file : t.writer = f.bytes
  rowGroups : f.rowGroups = w.state.writer
  /-- the chunks of the dictionaries -/
  dictionaries : ∃ css peers,
    w.sharedDictionaryContext.finishAndFlush env w.wasmContext = .ok (css, peers, sec.dictDtypes) ∧
    f.dictionaries = chunkBytes css.flatten ∧
    sec.dictChunks.flatten =
      recordsFrom env w.state.enableIoUnitChecksum f.rowGroups.length css.flatten ∧
    FileWriter.dictPositions (css.map List.length) peers = .ok sec.dictPositions ∧
    ∀ c ∈ css.flatten, c.numRows ∈ t.narrowed ∧ ∀ n ∈ c.sizes, n ∈ t.narrowed
  dictionaryIds : ∀ ids ∈ sec.dictPositions, ∀ id ∈ ids, id ∈ t.narrowed
  /-- the WASM binaries and their table -/
  wasms : ∃ sections, f.wasmTable = env.wasmBinariesFb.build ⟨some sections⟩ ∧
    List.Forall₂ (fun b (m : Fb.MetadataSection) =>
      HoldsAt (f.rowGroups ++ f.dictionaries ++ f.wasms) m.offset b ∧ m.size = u32 b.length)
      w.wasmContext.getSortedWasms sections ∧
    ∀ b ∈ w.wasmContext.getSortedWasms, b.length ∈ t.narrowed
  wasmMetaStart : sec.wasmMetaStart = (f.rowGroups ++ f.dictionaries ++ f.wasms).length
  wasmMetaSize : sec.wasmMetaSize = f.wasmTable.length
  wasmMetaFits : sec.wasmMetaSize ∈ t.narrowed
  metadataStart : sec.metadataStart = f.data.length
  /-- the column metadata -/
  sections : ∃ sections, t.rowGroupsTable = { w.state.rowGroupsTable with
      indirectRowGroupMetadata := w.state.rowGroupsTable.indirectRowGroupMetadata ++ sections } ∧
    List.Forall₂ (fun (g : RowGroupMetadata) (i : IndirectRowGroupMetadata) =>
      List.Forall₂ (fun m => SectionOf f.data.length (f.data ++ f.metadata) (m.bytes env))
        g.colMetadatas i.colMetadatas) w.state.rowGroupsTable.rowGroupMetadata sections ∧
    (∀ i, sections.head? = some i → ∀ s, i.colMetadatas.head? = some s →
      s.offset = f.data.length) ∧
    ∀ g ∈ w.state.rowGroupsTable.rowGroupMetadata, ∀ m ∈ g.colMetadatas,
      (m.bytes env).length ∈ t.narrowed
  footer : f.footer = env.footerFb.build (footerTable env w t sec)
  postscript : f.postscript = postscriptBytes p
  metadataSize : p.metadataSize = f.metadata.length + f.footer.length
  metadataSizeFits : p.metadataSize ∈ t.narrowed
  footerSize : p.footerSize = f.footer.length
  footerSizeFits : p.footerSize ∈ t.narrowed
  dataChecksum : w.state.dataChecksum = w.state.writer →
    p.dataChecksum = env.xxh64 (f.data ++ f.metadata ++ f.footer)
  narrowed : ∀ v ∈ w.state.narrowed, v ∈ t.narrowed
  numPhysicalColumns : t.numPhysicalColumns = w.state.numPhysicalColumns

theorem writeWasmBinaries_spec (env : Env) (w : WASMWritingContext) (s : FileWriteState) :
    ∃ sections, writeWasmBinaries env w s =
        (s.appended (w.getSortedWasms.flatten ++ env.wasmBinariesFb.build ⟨some sections⟩)
            (w.getSortedWasms.map List.length ++
              [(env.wasmBinariesFb.build ⟨some sections⟩).length]),
          (s.writer ++ w.getSortedWasms.flatten).length,
          (env.wasmBinariesFb.build ⟨some sections⟩).length) ∧
      List.Forall₂ (fun b (m : Fb.MetadataSection) =>
        HoldsAt (s.writer ++ w.getSortedWasms.flatten) m.offset b ∧ m.size = u32 b.length)
        w.getSortedWasms sections := by
  obtain ⟨sections, hrun, hall⟩ := FileWriteState.flushWasms_spec w.getSortedWasms s
  have hsize : ∀ a b : Bytes, (a ++ b).length - a.length = b.length := by
    intro a b
    simp
  refine ⟨sections, ?_, hall⟩
  simp only [writeWasmBinaries, hrun, FileWriteState.writeAndUpdate_eq, FileWriteState.log_eq,
    FileWriteState.appended_appended, FileWriteState.writer_appended, List.append_nil,
    ← List.append_assoc, hsize]

theorem toIndirectAndFlush_spec (env : Env) (s : FileWriteState) :
    ∃ bytes sections, s.toIndirectAndFlush env =
        ({ s.appended bytes ((s.rowGroupsTable.rowGroupMetadata.flatMap
              RowGroupMetadata.colMetadatas).map fun m => (m.bytes env).length) with
            rowGroupsTable := { s.rowGroupsTable with
              indirectRowGroupMetadata :=
                s.rowGroupsTable.indirectRowGroupMetadata ++ sections } },
          s.writer.length) ∧
      List.Forall₂ (fun (g : RowGroupMetadata) (i : IndirectRowGroupMetadata) =>
        List.Forall₂ (fun m => SectionOf s.writer.length (s.writer ++ bytes) (m.bytes env))
          g.colMetadatas i.colMetadatas) s.rowGroupsTable.rowGroupMetadata sections ∧
      ∀ i, sections.head? = some i → ∀ sec, i.colMetadatas.head? = some sec →
        sec.offset = s.writer.length := by
  obtain ⟨bytes, sections, hrun, hall, hhead⟩ :=
    FileWriteState.flushRowGroupMetadatas_spec env s.rowGroupsTable.rowGroupMetadata s
  refine ⟨bytes, sections, ?_, hall, hhead⟩
  simp only [FileWriteState.toIndirectAndFlush, hrun, FileWriteState.rowGroupsTable_appended]

theorem writeTrailer_spec (env : Env) (w : FileWriter) (s : FileWriteState) (sec : Sections) :
    ∃ footer p, footer = env.footerFb.build (footerTable env w s sec) ∧
      p.metadataSize = (s.writer ++ footer).length - sec.metadataStart ∧
      p.footerSize = footer.length ∧ p.dataChecksum = env.xxh64 (s.dataChecksum ++ footer) ∧
      writeTrailer env w s sec =
        ({ s.appended footer [p.metadataSize, p.footerSize] with
            writer := s.writer ++ footer ++ postscriptBytes p }, p) := by
  refine ⟨_, (writeTrailer env w s sec).2, rfl, rfl, rfl, rfl, ?_⟩
  simp only [writeTrailer, FileWriteState.writeAndUpdate_eq, FileWriteState.log_eq,
    FileWriteState.appended_appended, FileWriteState.writer_appended, List.append_nil,
    List.nil_append]

/-- The parts `finish` writes are the parts of the file. -/
theorem writeSections_spec {env : Env} {w : FileWriter} {t : FileWriteState} {sec : Sections}
    {p : PostscriptValues} (h : writeSections env w = .ok (t, sec, p)) :
    ∃ f, Written env w t sec p f := by
  unfold writeSections at h
  simp only [bind_eq_ok, pure_eq_ok, Except.ok.injEq, Prod.mk.injEq] at h
  obtain ⟨⟨css, peers, dtypes⟩, hflush, positions, hpositions, ht, hsec, hp⟩ := h
  obtain ⟨records, hdicts, hrecords, hlengths⟩ :=
    FileWriteState.flushAllDictChunks_spec env css w.state
  obtain ⟨wasms, hwasms, hplaced⟩ := writeWasmBinaries_spec env w.wasmContext
    (w.state.appended (chunkBytes css.flatten) (css.flatten.flatMap fun c => c.numRows :: c.sizes))
  rw [hdicts] at ht hsec hp hpositions
  simp only [hwasms, FileWriteState.appended_appended] at ht hsec hp
  obtain ⟨metadata, sections, hindirect, hall, hhead⟩ := toIndirectAndFlush_spec env
    (w.state.appended (chunkBytes css.flatten ++ (w.wasmContext.getSortedWasms.flatten ++
        env.wasmBinariesFb.build ⟨some wasms⟩))
      ((css.flatten.flatMap fun c => c.numRows :: c.sizes) ++
        (w.wasmContext.getSortedWasms.map List.length ++
          [(env.wasmBinariesFb.build ⟨some wasms⟩).length])))
  simp only [hindirect] at ht hsec hp
  generalize hs : FileWriteState.log _ _ = s at ht hp
  rw [hsec] at ht hp
  obtain ⟨footer, p', hfooter, hmeta, hfoot, hsum, htrailer⟩ := writeTrailer_spec env w s sec
  rw [htrailer] at ht hp
  have hpp : p' = p := hp
  subst hpp
  let f : FileParts := ⟨w.state.writer, chunkBytes css.flatten,
    w.wasmContext.getSortedWasms.flatten, env.wasmBinariesFb.build ⟨some wasms⟩, metadata, footer,
    postscriptBytes p'⟩
  have hdata : w.state.writer ++ (chunkBytes css.flatten ++
      (w.wasmContext.getSortedWasms.flatten ++ env.wasmBinariesFb.build ⟨some wasms⟩)) = f.data := by
    simp [f, FileParts.data]
  rw [FileWriteState.log_eq] at hs
  rw [FileWriteState.writer_appended, hdata] at hall hhead
  have hwriter : s.writer = f.data ++ metadata := by
    rw [← hs, ← hdata]
    simp [FileWriteState.appended]
  have hnarrowed : t.narrowed = s.narrowed ++ [p'.metadataSize, p'.footerSize] := by
    rw [← ht]
    rfl
  have htable : t.rowGroupsTable = s.rowGroupsTable := by
    rw [← ht]
    rfl
  have hnarrowedAll : t.narrowed = w.state.narrowed ++
      ((css.flatten.flatMap fun c => c.numRows :: c.sizes) ++
        (w.wasmContext.getSortedWasms.map List.length ++
          [(env.wasmBinariesFb.build ⟨some wasms⟩).length])) ++
      ((w.state.rowGroupsTable.rowGroupMetadata.flatMap RowGroupMetadata.colMetadatas).map
        fun m => (m.bytes env).length) ++
      (positions.flatten ++ [w.sharedDictionaryContext.dictionaries.length]) ++
      [p'.metadataSize, p'.footerSize] := by
    rw [hnarrowed, ← hs]
    rfl
  refine ⟨f, ?_⟩
  constructor
  case file =>
    rw [← ht, hwriter]
    simp [f, FileParts.bytes]
  case rowGroups => rfl
  case dictionaries =>
    rw [← hsec]
    rw [hlengths] at hpositions
    refine ⟨css, peers, hflush, rfl, hrecords, hpositions, ?_⟩
    intro c hc
    have hmem : ∀ n, n ∈ c.numRows :: c.sizes → n ∈ t.narrowed := by
      intro n hn
      have h : n ∈ css.flatten.flatMap fun c => c.numRows :: c.sizes :=
        List.mem_flatMap.2 ⟨c, hc, hn⟩
      rw [hnarrowedAll]
      simp only [List.mem_append]
      tauto
    exact ⟨hmem _ (by simp), fun n hn => hmem n (by simp [hn])⟩
  case dictionaryIds =>
    rw [← hsec]
    intro ids hids id hid
    have h := List.mem_flatten_of_mem hids hid
    rw [hnarrowedAll]
    simp only [List.mem_append]
    tauto
  case wasms =>
    rw [FileWriteState.writer_appended] at hplaced
    refine ⟨wasms, rfl, hplaced, ?_⟩
    intro b hb
    have h := List.mem_map_of_mem (f := List.length) hb
    rw [hnarrowedAll]
    simp only [List.mem_append]
    tauto
  case wasmMetaStart =>
    rw [← hsec]
    rfl
  case wasmMetaSize =>
    rw [← hsec]
  case wasmMetaFits =>
    rw [← hsec, hnarrowedAll]
    simp only [List.mem_append, List.mem_singleton]
    tauto
  case metadataStart =>
    rw [← hsec, ← hdata]
    rfl
  case sections =>
    refine ⟨sections, ?_, hall, hhead, ?_⟩
    · rw [htable, ← hs]
      rfl
    · intro g hg m hm
      have h := List.mem_map_of_mem (f := fun m : ColumnMetadata => (m.bytes env).length)
        (List.mem_flatMap.2 ⟨g, hg, hm⟩)
      rw [hnarrowedAll]
      simp only [List.mem_append]
      tauto
  case footer =>
    show footer = _
    rw [hfooter, footerTable, footerTable, htable]
  case postscript => rfl
  case metadataSize =>
    rw [hmeta, hwriter, ← hsec]
    show (f.data ++ metadata ++ footer).length - (w.state.writer ++ _).length = _
    rw [hdata]
    simp only [List.length_append]
    show _ = metadata.length + footer.length
    omega
  case metadataSizeFits =>
    rw [hnarrowed]
    simp
  case footerSize => exact hfoot
  case footerSizeFits =>
    rw [hnarrowed]
    simp
  case dataChecksum =>
    intro hsound
    have hs' : s.dataChecksum = f.data ++ metadata := by
      rw [← hdata, ← hsound, ← hs]
      simp [FileWriteState.appended]
    rw [hsum, hs']
  case narrowed =>
    intro v hv
    rw [hnarrowedAll]
    simp only [List.mem_append]
    tauto
  case numPhysicalColumns =>
    rw [← ht, ← hs]
    rfl

end FileWriter

end F3Format
