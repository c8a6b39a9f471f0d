import F3Format.BuilderRoutes
import F3Format.DecoderLogical
import F3Format.Lib.Trace

/-!
# Checksums of a written file

The writer feeds every byte before the postscript to one running checksum, through
three routines that are interleaved over a run, and the bytes of each chunk to one
of its own. `Hashed` is what every operation of the writer keeps: the running
checksum has seen what the file holds, and every record of a chunk has the
checksum of the bytes at its position. A reader that verifies a file nobody
touched finds both (`checksums_verify`), for any hash function.
-/

set_option autoImplicit false

namespace F3Format

open Lib FileWriter

/-- The record was made for `chunk`, and the file holds the chunk at its position. -/
structure Chunk.RecordOf (env : Env) (checksum : Bool) (file : Bytes) (chunk : EncodedColumnChunk)
    (c : Chunk) : Prop where
  record : c = chunk.record env checksum c.offset
  holds : HoldsAt file c.offset chunk.bytes

/-- The checksum of the record is that of the bytes it points to, and `read_chunk`
returns these bytes, whether it verifies them or not. -/
structure Chunk.Intact (env : Env) (file : Bytes) (c : Chunk) : Prop where
  checksum : c.checksum = some (env.xxh64 (slice file c.offset c.size))
  read : ∀ d : PrimitiveColDecoder, d.r = file →
    d.readChunk env c.offset c.size c.checksum = .ok (slice file c.offset c.size)

namespace Chunk

variable {env : Env} {file : Bytes} {chunk : EncodedColumnChunk} {c : Chunk}

theorem RecordOf.append {checksum : Bool} (h : c.RecordOf env checksum file chunk)
    (more : Bytes) : c.RecordOf env checksum (file ++ more) chunk :=
  ⟨h.record, h.holds.append more⟩

/-- A record whose size fits its field is intact. -/
theorem RecordOf.intact (h : c.RecordOf env true file chunk)
    (hfit : chunk.bytes.length < 2 ^ 32) : c.Intact env file := by
  have hsize : c.size = chunk.bytes.length := by
    rw [h.record]
    exact u32_of_lt hfit
  have hsum : c.checksum = some (env.xxh64 chunk.bytes) := by
    rw [h.record]
    rfl
  have hslice : slice file c.offset c.size = chunk.bytes := by
    rw [hsize]
    exact h.holds.slice_eq
  refine ⟨by rw [hslice, hsum], ?_⟩
  intro d hd
  have hread : readExactAt d.r c.offset c.size = .ok chunk.bytes := by
    rw [hd, hsize]
    exact (readExactAt_eq_ok _ _ _ _).2 ⟨h.holds.le_length, h.holds.slice_eq⟩
  rw [PrimitiveColDecoder.readChunk, hread, ok_bind, hslice, hsum]
  cases d.checksumType with
  | none => rfl
  | some t =>
      show (if env.xxh64 chunk.bytes ≠ env.xxh64 chunk.bytes then _ else _) = _
      rw [if_neg (not_not_intro rfl)]
      rfl

/-- The records of chunks that are written one after the other. -/
theorem recordOf_of_mem_recordsFrom {checksum : Bool} {cs : List EncodedColumnChunk} {offset : Nat}
    (hfile : HoldsAt file offset (chunkBytes cs)) (hc : c ∈ recordsFrom env checksum offset cs) :
    ∃ chunk, c.RecordOf env checksum file chunk := by
  induction cs generalizing offset with
  | nil => cases hc
  | cons chunk cs ih =>
      have hbytes : chunkBytes (chunk :: cs) = chunk.bytes ++ chunkBytes cs := by
        simp [chunkBytes]
      rw [hbytes] at hfile
      rcases List.mem_cons.1 hc with rfl | hc
      · exact ⟨chunk, rfl, hfile.left⟩
      · exact ih hfile.right hc

end Chunk

/-! ## What the operations of the writer keep -/

/-- The records of all chunks of row groups, finished or not. -/
def FileWriteState.records (s : FileWriteState) : List Chunk :=
  (s.columnMetadatasInCurRowGroup ++
    s.rowGroupsTable.rowGroupMetadata.flatMap RowGroupMetadata.colMetadatas).flatMap
      ColumnMetadata.columnChunks

/-- The running checksum has seen what is written, and the records are those of
chunks that are written, with a checksum of their own if the option asks for it. -/
structure FileWriteState.Hashed (env : Env) (checksum : Bool) (s : FileWriteState) : Prop where
  enabled : s.enableIoUnitChecksum = checksum
  data : s.dataChecksum = s.writer
  records : ∀ c ∈ s.records, ∃ chunk, c.RecordOf env checksum s.writer chunk

/-- A flushed chunk adds its record to those that are there. -/
theorem FileWriteState.mem_records_of_flush {s t : FileWriteState} {i : Nat} {m : ColumnMetadata}
    {r c : Chunk} (hc : c ∈ t.records) (hm : s.columnMetadatasInCurRowGroup[i]? = some m)
    (hcurrent : t.columnMetadatasInCurRowGroup =
      s.columnMetadatasInCurRowGroup.set i (m.addChunk r))
    (htable : t.rowGroupsTable = s.rowGroupsTable) : c ∈ s.records ∨ c = r := by
  rw [records, htable, hcurrent] at hc
  obtain ⟨m', hm', hc⟩ := List.mem_flatMap.1 hc
  rcases List.mem_append.1 hm' with hmem | hmem
  · rcases List.mem_or_eq_of_mem_set hmem with hold | rfl
    · exact .inl (List.mem_flatMap.2 ⟨m', List.mem_append_left _ hold, hc⟩)
    · rcases List.mem_append.1 hc with hold | hnew
      · exact .inl (List.mem_flatMap.2
          ⟨m, List.mem_append_left _ (List.mem_of_getElem? hm), hold⟩)
      · exact .inr (List.mem_singleton.1 hnew)
  · exact .inl (List.mem_flatMap.2 ⟨m', List.mem_append_right _ hmem, hc⟩)

/-- Finishing a row group moves records but makes none. -/
theorem FileWriteState.mem_records_of_finishRowGroup {s : FileWriteState} {c : Chunk}
    (hc : c ∈ s.finishRowGroup.records) : c ∈ s.records := by
  obtain ⟨m, hm, hc⟩ := List.mem_flatMap.1 hc
  refine List.mem_flatMap.2 ⟨m, ?_, hc⟩
  rcases List.mem_append.1 hm with hempty | hmem
  · -- the metadata of the new row group has no chunks
    rw [show m = ColumnMetadata.empty from List.eq_of_mem_replicate hempty] at hc
    cases hc
  · obtain ⟨g, hg, hmem⟩ := List.mem_flatMap.1 hmem
    rcases List.mem_append.1 hg with hold | hnew
    · exact List.mem_append_right _ (List.mem_flatMap.2 ⟨g, hold, hmem⟩)
    · rw [List.mem_singleton] at hnew
      subst hnew
      exact List.mem_append_left _ hmem

theorem stateInvariant_hashed (env : Env) (checksum : Bool) :
    StateInvariant env (FileWriteState.Hashed env checksum) where
  flushChunk := by
    intro s t chunk hs ht
    obtain ⟨m, hm, rfl⟩ := FileWriteState.flushChunk_eq_ok.1 ht
    refine ⟨hs.enabled, ?_, ?_⟩
    · show s.dataChecksum ++ chunk.bytes = s.writer ++ chunk.bytes
      rw [hs.data]
    · intro c hc
      rcases FileWriteState.mem_records_of_flush hc hm rfl rfl with hold | rfl
      · obtain ⟨stored, hstored⟩ := hs.records c hold
        exact ⟨stored, hstored.append chunk.bytes⟩
      · refine ⟨chunk, ?_, holdsAt_snoc s.writer chunk.bytes⟩
        rw [hs.enabled]
        rfl
  addRows := fun s n hs => ⟨hs.enabled, hs.data, hs.records⟩
  finishRowGroup := fun s hs => ⟨hs.enabled, hs.data, fun c hc =>
    hs.records c (FileWriteState.mem_records_of_finishRowGroup hc)⟩
  counters := fun s cs hs => ⟨hs.enabled, hs.data, hs.records⟩

theorem FileWriter.hashed_tryNew {env : Env} {schema : List Field} {options : FileWriterOptions}
    {w : FileWriter} (h : tryNew env schema options = .ok w) :
    w.state.Hashed env options.enableIoUnitChecksum := by
  simp only [tryNew, bind_eq_ok, pure_eq_ok, Except.ok.injEq] at h
  obtain ⟨r, -, rfl⟩ := h
  refine ⟨rfl, rfl, ?_⟩
  intro c hc
  obtain ⟨m, hm, hc⟩ := List.mem_flatMap.1 hc
  rcases List.mem_append.1 hm with hempty | hgroup
  · rw [show m = ColumnMetadata.empty from List.eq_of_mem_replicate hempty] at hc
    cases hc
  · cases hgroup

/-- After any calls, successful or not, and the row groups of `finish`. -/
theorem FileWriter.hashed_of_finishRowGroups {env : Env} {schema : List Field}
    {options : FileWriterOptions} {cs : List Call} {w₀ w₁ : FileWriter}
    (hnew : tryNew env schema options = .ok w₀)
    (hgroups : Act.Returns (finishRowGroups env) (Act.trace (call env) cs w₀).2 () w₁) :
    w₁.state.Hashed env options.enableIoUnitChecksum := by
  have hI := stateInvariant_hashed env options.enableIoUnitChecksum
  have hcalls : (Act.trace (call env) cs w₀).2.state.Hashed env options.enableIoUnitChecksum :=
    Act.trace_invariant (call env) (fun w => w.state.Hashed env options.enableIoUnitChecksum)
      (fun c w hw => (hI.maintains_call c w hw).2) cs (hashed_tryNew hnew)
  exact (hI.maintains_finishRowGroups.returns hcalls hgroups).2

/-! ## The checksum of the file -/

/-- The data checksum is read back, whatever the sizes in the postscript are. -/
theorem parsePostscript_dataChecksum (p : PostscriptValues) :
    ∃ ps, parsePostscript (postscriptBytes p) = .ok ps ∧ ps.dataChecksum = p.dataChecksum := by
  have hmagic : slice (postscriptBytes p) ((postscriptBytes p).length - 2) 2 = magic := by
    rw [length_postscriptBytes]
    rfl
  have hdata : leDecode (slice (postscriptBytes p) 10 8) = p.dataChecksum.toNat := by
    show leDecode (leEncode 8 p.dataChecksum.toNat) = _
    exact leDecode_leEncode_of_lt (UInt64.toNat_lt _)
  have htype : ChecksumType.ofByte (UInt8.ofNat (leDecode (slice (postscriptBytes p) 9 1))) =
      .ok .xxHash := rfl
  rw [parsePostscript, if_neg (not_not_intro hmagic)]
  simp only [htype, ok_bind, pure_eq_ok, Except.ok.injEq, exists_eq_left', hdata,
    UInt64.ofNat_toNat]

section

variable {env : Env} {b : FileReaderV2Builder} {pre : Bytes} {p : PostscriptValues}

theorem readPostscript_dataChecksum {readAt : Nat → Nat → Result Bytes} {buf : Bytes}
    (hread : Reads readAt buf) (h : buf = pre ++ postscriptBytes p) :
    ∃ ps, readPostscript readAt buf.length = .ok ps ∧ ps.dataChecksum = p.dataChecksum := by
  have hlen : buf.length = pre.length + postscriptSize := by
    rw [h, List.length_append, length_postscriptBytes]
  have hbytes : readAt pre.length postscriptSize = .ok (postscriptBytes p) := by
    have hholds : HoldsAt buf pre.length (postscriptBytes p) := h ▸ holdsAt_snoc pre _
    have hat := hread _ _ hholds
    rwa [length_postscriptBytes] at hat
  have hsub : checkedSub buf.length postscriptSize = .ok pre.length :=
    (checkedSub_eq_ok _ _ _).2 ⟨by omega, by omega⟩
  obtain ⟨ps, hps, hsum⟩ := parsePostscript_dataChecksum p
  refine ⟨ps, ?_, hsum⟩
  rw [readPostscript, hsub, ok_bind, hbytes, ok_bind, hps]

/-- The builder reads the checksum with and without read-ahead. -/
theorem FileReaderV2Builder.postscript_dataChecksum (h : b.reader = pre ++ postscriptBytes p) :
    ∃ ps, b.postscript b.window = .ok ps ∧ ps.dataChecksum = p.dataChecksum := by
  unfold postscript
  split
  · next hb =>
      have hlen : b.reader.length = pre.length + postscriptSize := by
        rw [h, List.length_append, length_postscriptBytes]
      have hsize : defaultIounitSize = 8 * 1024 * 1024 := rfl
      have hps : postscriptSize = 32 := rfl
      have hwindow : b.window =
          pre.drop (b.reader.length - min defaultIounitSize b.reader.length) ++
            postscriptBytes p := by
        rw [window, if_pos hb, h, List.drop_append_of_le_length]
        rw [← h]
        omega
      exact readPostscript_dataChecksum (reads_readSliceAt _) hwindow
  · exact readPostscript_dataChecksum (reads_readExactAt _) h

/-- `verify_file_checksum` accepts a file whose postscript has the checksum of what
is in front of it. -/
theorem FileReaderV2Builder.checkFile_ok (h : b.reader = pre ++ postscriptBytes p)
    {ps : PostScript} (hps : ps.dataChecksum = env.xxh64 pre) : b.checkFile env ps = .ok () := by
  unfold checkFile
  split
  · have hlen : b.reader.length = pre.length + postscriptSize := by
      rw [h, List.length_append, length_postscriptBytes]
    have hsub : checkedSub b.reader.length postscriptSize = .ok pre.length :=
      (checkedSub_eq_ok _ _ _).2 ⟨by omega, by omega⟩
    have hread : readExactAt b.reader 0 pre.length = .ok pre := by
      refine (readExactAt_eq_ok _ _ _ _).2 ⟨by omega, ?_⟩
      rw [h, slice, List.drop_zero, List.take_left]
    rw [hsub, ok_bind, hread, ok_bind, hps, if_neg (not_not_intro rfl)]
    rfl
  · rfl

end

/-! ## Finished files -/

namespace FileWriter

/-- What `finish` does when it returns `Ok`. -/
theorem returns_finish {env : Env} {w₀ w : FileWriter} {counters : List EncodingCounter}
    (h : Act.Returns (finish env) w₀ counters w) :
    ∃ w₁ sec p, Act.Returns (finishRowGroups env) w₀ () w₁ ∧
      writeSections env w₁ = .ok (w.state, sec, p) := by
  obtain ⟨_, w₁, hgroups, hrest⟩ := (Act.returns_bind _ _ _ _ _).1 h
  obtain ⟨w', w'', hget, hrest⟩ := (Act.returns_bind _ _ _ _ _).1 hrest
  obtain ⟨rfl, rfl⟩ := (Act.returns_get _ _ _).1 hget
  obtain ⟨⟨t, sec, p⟩, w', hlift, hset⟩ := (Act.returns_bind _ _ _ _ _).1 hrest
  obtain ⟨hsections, rfl⟩ := (Act.returns_lift _ _ _ _).1 hlift
  obtain ⟨_, w', hstate, hpure⟩ := (Act.returns_bind _ _ _ _ _).1 hset
  have hw' := (Act.returns_set _ _ _ _).1 hstate
  obtain ⟨-, rfl⟩ := (Act.returns_pure _ _ _ _).1 hpure
  subst hw'
  exact ⟨w₁, sec, p, hgroups, hsections⟩

section

variable {env : Env} {w₁ : FileWriter} {t : FileWriteState} {sec : Sections}
  {p : PostscriptValues} {checksum : Bool}

/-- The file ends in a postscript with the checksum of everything in front of it. -/
theorem file_of_writeSections (hw : w₁.state.Hashed env checksum)
    (h : writeSections env w₁ = .ok (t, sec, p)) :
    ∃ pre, t.writer = pre ++ postscriptBytes p ∧ p.dataChecksum = env.xxh64 pre := by
  obtain ⟨f, hf⟩ := writeSections_spec h
  refine ⟨f.data ++ f.metadata ++ f.footer, ?_, hf.dataChecksum hw.data⟩
  rw [hf.file, FileParts.bytes, hf.postscript]
  simp only [List.append_assoc]

/-- The records of row groups and dictionaries in a finished file. -/
theorem records_of_writeSections (hw : w₁.state.Hashed env checksum)
    (h : writeSections env w₁ = .ok (t, sec, p)) :
    ∀ c ∈ w₁.state.records ++ sec.dictChunks.flatten, ∃ chunk,
      c.RecordOf env checksum t.writer chunk := by
  obtain ⟨f, hf⟩ := writeSections_spec h
  obtain ⟨css, peers, -, hbytes, hrecords, -⟩ := hf.dictionaries
  have hfile : t.writer = w₁.state.writer ++ (chunkBytes css.flatten ++
      (f.wasms ++ f.wasmTable ++ (f.metadata ++ (f.footer ++ f.postscript)))) := by
    rw [hf.file, FileParts.bytes, FileParts.data, hf.rowGroups, hbytes]
    simp only [List.append_assoc]
  intro c hc
  rcases List.mem_append.1 hc with hgroup | hdict
  · obtain ⟨chunk, hchunk⟩ := hw.records c hgroup
    rw [hfile]
    exact ⟨chunk, hchunk.append _⟩
  · rw [hrecords, hw.enabled, hf.rowGroups] at hdict
    apply Chunk.recordOf_of_mem_recordsFrom ?_ hdict
    rw [hfile, ← List.append_assoc]
    exact (holdsAt_snoc w₁.state.writer (chunkBytes css.flatten)).append _

end

/-- After any calls on a new writer, of which some may have failed, and a `finish`
that returns `Ok`: the file passes `verify_file_checksum`, and with
`enable_io_unit_checksum` every chunk of a row group or a dictionary whose size fits
its field is read without a mismatch. -/
theorem checksums_verify {env : Env} {schema : List Field} {options : FileWriterOptions}
    {cs : List Call} {w₀ w : FileWriter} {counters : List EncodingCounter}
    (hnew : tryNew env schema options = .ok w₀)
    (hfinish : Act.Returns (finish env) (Act.trace (call env) cs w₀).2 counters w) :
    (∀ b : FileReaderV2Builder, b.reader = w.file → ∃ buffer ps, b.readAheadBuffer = .ok buffer ∧
      b.postscript buffer = .ok ps ∧
      ps.dataChecksum = env.xxh64 (w.file.take (w.file.length - postscriptSize)) ∧
      b.checkFile env ps = .ok ()) ∧
    ∃ w₁ sec p, Act.Returns (finishRowGroups env) (Act.trace (call env) cs w₀).2 () w₁ ∧
      writeSections env w₁ = .ok (w.state, sec, p) ∧
      (options.enableIoUnitChecksum = true →
        ∀ c ∈ w₁.state.records ++ sec.dictChunks.flatten, ∃ chunk,
          c.RecordOf env true w.file chunk ∧
            (chunk.bytes.length < 2 ^ 32 → c.Intact env w.file)) := by
  obtain ⟨w₁, sec, p, hgroups, hsections⟩ := returns_finish hfinish
  have hhashed := hashed_of_finishRowGroups hnew hgroups
  obtain ⟨pre, hfile, hsum⟩ := file_of_writeSections hhashed hsections
  constructor
  · intro b hb
    have hreader : b.reader = pre ++ postscriptBytes p := hb.trans hfile
    obtain ⟨ps, hps, hdata⟩ := FileReaderV2Builder.postscript_dataChecksum hreader
    have hpre : w.file.take (w.file.length - postscriptSize) = pre := by
      rw [← hb, hreader, List.length_append, length_postscriptBytes, Nat.add_sub_cancel,
        List.take_left]
    refine ⟨b.window, ps, b.readAheadBuffer_eq, hps, ?_, ?_⟩
    · rw [hpre, hdata, hsum]
    · exact FileReaderV2Builder.checkFile_ok hreader (hdata.trans hsum)
  · refine ⟨w₁, sec, p, hgroups, hsections, ?_⟩
    intro henabled c hc
    rw [henabled] at hhashed
    obtain ⟨chunk, hchunk⟩ := records_of_writeSections hhashed hsections c hc
    exact ⟨chunk, hchunk, hchunk.intact⟩

/-- `finish` returns `Ok` after these calls on a new writer. -/
def finishesAfter (env : Env) (schema : List Field) (options : FileWriterOptions)
    (cs : List Call) : Bool :=
  match tryNew env schema options with
  | .ok w₀ =>
      match finish env (Act.trace (call env) cs w₀).2 with
      | .ok _ _ => true
      | .error _ _ => false
  | .error _ => false

theorem exists_of_finishesAfter {env : Env} {schema : List Field} {options : FileWriterOptions}
    {cs : List Call} (h : finishesAfter env schema options cs = true) :
    ∃ w₀ w counters, tryNew env schema options = .ok w₀ ∧
      Act.Returns (finish env) (Act.trace (call env) cs w₀).2 counters w := by
  unfold finishesAfter at h
  split at h
  · next w₀ hnew =>
      split at h
      · next counters w hfinish => exact ⟨w₀, w, counters, hnew, hfinish⟩
      · cases h
  · cases h

/-- A dictionary shared by the column, and a checksum for each chunk. -/
def checksumOptions : FileWriterOptions :=
  { FileWriterOptions.default with
    dictionaryType := .globalDictionary
    enableIoUnitChecksum := true }

theorem finishesAfter_sample :
    finishesAfter Sample.env Sample.schema checksumOptions [.writeBatch Sample.batch] = true := by
  decide +kernel

theorem checksums_verify_sample : ∃ w₀ w counters,
    tryNew Sample.env Sample.schema checksumOptions = .ok w₀ ∧
    Act.Returns (finish Sample.env)
      (Act.trace (call Sample.env) [.writeBatch Sample.batch] w₀).2 counters w ∧
    (∀ b : FileReaderV2Builder, b.reader = w.file → ∃ buffer ps, b.readAheadBuffer = .ok buffer ∧
      b.postscript buffer = .ok ps ∧
      ps.dataChecksum = Sample.env.xxh64 (w.file.take (w.file.length - postscriptSize)) ∧
      b.checkFile Sample.env ps = .ok ()) ∧
    ∃ w₁ sec p, Act.Returns (finishRowGroups Sample.env)
        (Act.trace (call Sample.env) [.writeBatch Sample.batch] w₀).2 () w₁ ∧
      writeSections Sample.env w₁ = .ok (w.state, sec, p) ∧
      (checksumOptions.enableIoUnitChecksum = true →
        ∀ c ∈ w₁.state.records ++ sec.dictChunks.flatten, ∃ chunk,
          c.RecordOf Sample.env true w.file chunk ∧
            (chunk.bytes.length < 2 ^ 32 → c.Intact Sample.env w.file)) := by
  obtain ⟨w₀, w, counters, hnew, hfinish⟩ := exists_of_finishesAfter finishesAfter_sample
  exact ⟨w₀, w, counters, hnew, hfinish, checksums_verify hnew hfinish⟩

end FileWriter

end F3Format
