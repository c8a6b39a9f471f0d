import F3Format.WriterRuns
import F3Format.SampleEnv

/-!
# What the builder slices out of a file

The builder reads the postscript, the footer and the column metadata from the
end of a file, relative to the end of the whole file or of a tail of it that
was read ahead. `Ends` is the shape both have; the slices a buffer of this
shape gives are the parts the writer wrote.
-/

set_option autoImplicit false

namespace F3Format

open Lib FileWriter

/-! ## The postscript -/

/-- The postscript a reader should get. -/
def FileWriter.PostscriptValues.toPostScript (p : PostscriptValues) : PostScript :=
  ⟨p.metadataSize, p.footerSize, .uncompressed, .xxHash, p.dataChecksum, p.schemaChecksum,
    majorVersion, minorVersion⟩

@[simp] theorem length_postscriptBytes (p : PostscriptValues) :
    (postscriptBytes p).length = postscriptSize := by
  simp [postscriptBytes, magic, postscriptSize]

/-- Every field is read back from where it was written. -/
theorem parsePostscript_postscriptBytes {p : PostscriptValues} (hm : p.metadataSize < 2 ^ 32)
    (hf : p.footerSize < 2 ^ 32) : parsePostscript (postscriptBytes p) = .ok p.toPostScript := by
  -- the widths are literals, so that each field is the slice by computation
  have hmagic : slice (postscriptBytes p) ((postscriptBytes p).length - 2) 2 = magic := by
    rw [length_postscriptBytes]
    rfl
  have hmetadata : leDecode (slice (postscriptBytes p) 0 4) = p.metadataSize := by
    show leDecode (leEncode 4 (u32 p.metadataSize)) = _
    rw [u32_of_lt hm, leDecode_leEncode_of_lt hm]
  have hfooter : leDecode (slice (postscriptBytes p) 4 4) = p.footerSize := by
    show leDecode (leEncode 4 (u32 p.footerSize)) = _
    rw [u32_of_lt hf, leDecode_leEncode_of_lt hf]
  have hdata : leDecode (slice (postscriptBytes p) 10 8) = p.dataChecksum.toNat := by
    show leDecode (leEncode 8 p.dataChecksum.toNat) = _
    exact leDecode_leEncode_of_lt (UInt64.toNat_lt _)
  have hschema : leDecode (slice (postscriptBytes p) 18 8) = p.schemaChecksum.toNat := by
    show leDecode (leEncode 8 p.schemaChecksum.toNat) = _
    exact leDecode_leEncode_of_lt (UInt64.toNat_lt _)
  rw [parsePostscript, if_neg (not_not_intro hmagic)]
  simp only [hmetadata, hfooter, hdata, hschema, UInt64.ofNat_toNat]
  rfl

/-! ## Reading the end of a buffer -/

/-- Reading a range of `buf` gives what `buf` holds there. -/
def Reads (readAt : Nat → Nat → Result Bytes) (buf : Bytes) : Prop :=
  ∀ off b, HoldsAt buf off b → readAt off b.length = .ok b

theorem reads_readExactAt (buf : Bytes) : Reads (readExactAt buf) buf := by
  intro off b h
  exact (readExactAt_eq_ok _ _ _ _).2 ⟨h.le_length, h.slice_eq⟩

theorem reads_readSliceAt (buf : Bytes) : Reads (readSliceAt buf) buf := by
  intro off b h
  refine (sliceRange_eq_ok _ _ _ _).2 ⟨⟨Nat.le_add_right _ _, h.le_length⟩, ?_⟩
  rw [Nat.add_sub_cancel_left]
  exact h.slice_eq

/-- After `pre`, the buffer has the column metadata, the footer and the
postscript of a file, and the postscript says how long they are. -/
structure Ends (buf pre : Bytes) (f : FileParts) (p : PostscriptValues) : Prop where
  eq : buf = pre ++ (f.metadata ++ (f.footer ++ f.postscript))
  postscript : f.postscript = postscriptBytes p
  metadataSize : p.metadataSize = f.metadata.length + f.footer.length
  footerSize : p.footerSize = f.footer.length
  fits : p.metadataSize < 2 ^ 32

/-- A buffer whose last bytes are a postscript. -/
theorem readPostscript_of_holds {readAt : Nat → Nat → Result Bytes} {buf : Bytes}
    (hread : Reads readAt buf) {p : PostscriptValues} {off : Nat}
    (h : HoldsAt buf off (postscriptBytes p)) (hlen : off + postscriptSize = buf.length)
    (hm : p.metadataSize < 2 ^ 32) (hf : p.footerSize < 2 ^ 32) :
    readPostscript readAt buf.length = .ok p.toPostScript := by
  have hbytes := hread _ _ h
  rw [length_postscriptBytes] at hbytes
  have hsub : checkedSub buf.length postscriptSize = .ok off :=
    (checkedSub_eq_ok _ _ _).2 ⟨by omega, by omega⟩
  rw [readPostscript, hsub, ok_bind, hbytes, ok_bind, parsePostscript_postscriptBytes hm hf]

namespace Ends

variable {buf pre : Bytes} {f : FileParts} {p : PostscriptValues}

theorem length_eq (h : Ends buf pre f p) :
    buf.length = pre.length + p.metadataSize + postscriptSize := by
  rw [h.eq, h.postscript, h.metadataSize]
  simp only [List.length_append, length_postscriptBytes]
  omega

theorem holds_metadata (h : Ends buf pre f p) : HoldsAt buf pre.length f.metadata :=
  ⟨pre, f.footer ++ f.postscript, h.eq, rfl⟩

theorem holds_footer (h : Ends buf pre f p) :
    HoldsAt buf (pre.length + f.metadata.length) f.footer :=
  ⟨pre ++ f.metadata, f.postscript, by rw [h.eq, List.append_assoc], by simp⟩

theorem holds_postscript (h : Ends buf pre f p) :
    HoldsAt buf (pre.length + p.metadataSize) (postscriptBytes p) := by
  refine ⟨pre ++ (f.metadata ++ f.footer), [], ?_, ?_⟩
  · rw [h.eq, h.postscript]
    simp
  · rw [h.metadataSize]
    simp

theorem footerSize_lt (h : Ends buf pre f p) : p.footerSize < 2 ^ 32 := by
  have hm := h.metadataSize
  have hf := h.footerSize
  have hfits := h.fits
  omega

theorem readPostscript_eq (h : Ends buf pre f p) {readAt : Nat → Nat → Result Bytes}
    (hread : Reads readAt buf) : readPostscript readAt buf.length = .ok p.toPostScript := by
  have hlen := h.length_eq
  exact readPostscript_of_holds hread h.holds_postscript (by omega) h.fits h.footerSize_lt

theorem dataSize_eq (h : Ends buf pre f p) :
    Footer.dataSize buf.length p.toPostScript = .ok pre.length := by
  have hlen := h.length_eq
  have hsub : checkedSub buf.length postscriptSize = .ok (pre.length + p.metadataSize) :=
    (checkedSub_eq_ok _ _ _).2 ⟨by omega, by omega⟩
  have hmeta : checkedSub (pre.length + p.metadataSize) p.metadataSize = .ok pre.length :=
    (checkedSub_eq_ok _ _ _).2 ⟨by omega, by omega⟩
  rw [Footer.dataSize, hsub, ok_bind]
  exact hmeta

/-- The range of the footer, counted from the end of the buffer. -/
theorem footerRange (h : Ends buf pre f p) :
    checkedSub buf.length postscriptSize = .ok (pre.length + p.metadataSize) ∧
      checkedSub (pre.length + p.metadataSize) p.footerSize =
        .ok (pre.length + f.metadata.length) := by
  have hlen := h.length_eq
  have hm := h.metadataSize
  have hf := h.footerSize
  exact ⟨(checkedSub_eq_ok _ _ _).2 ⟨by omega, by omega⟩,
    (checkedSub_eq_ok _ _ _).2 ⟨by omega, by omega⟩⟩

theorem metadataRange (h : Ends buf pre f p) :
    checkedSub p.metadataSize p.footerSize = .ok f.metadata.length := by
  have hm := h.metadataSize
  have hf := h.footerSize
  exact (checkedSub_eq_ok _ _ _).2 ⟨by omega, by omega⟩

/-- A tail that is long enough ends in the same way. -/
theorem tail (h : Ends buf pre f p) {n : Nat} (hn : n ≤ pre.length) :
    Ends (buf.drop n) (pre.drop n) f p := by
  refine ⟨?_, h.postscript, h.metadataSize, h.footerSize, h.fits⟩
  rw [h.eq, List.drop_append_of_le_length hn]

end Ends

/-! ## The routes of the builder -/

namespace FileReaderV2Builder

/-- What is read ahead: the last bytes of the file, or nothing. -/
def window (b : FileReaderV2Builder) : Bytes :=
  if b.readAhead then b.reader.drop (b.reader.length - min defaultIounitSize b.reader.length)
  else []

theorem readAheadBuffer_eq (b : FileReaderV2Builder) : b.readAheadBuffer = .ok b.window := by
  unfold readAheadBuffer window
  split
  · refine (readExactAt_eq_ok _ _ _ _).2 ⟨by omega, ?_⟩
    rw [slice, List.take_of_length_le (by rw [List.length_drop]; omega)]
  · rfl

section Routes

variable {b : FileReaderV2Builder} {pre : Bytes} {f : FileParts} {p : PostscriptValues}

/-- How much of the file is in front of what is read ahead. -/
theorem length_window (hb : b.readAhead = true) :
    b.window.length = min defaultIounitSize b.reader.length := by
  rw [window, if_pos hb, List.length_drop]
  omega

/-- The postscript is found with and without read-ahead. -/
theorem postscript_eq (h : Ends b.reader pre f p) :
    b.postscript b.window = .ok p.toPostScript := by
  have hlen := h.length_eq
  unfold postscript
  split
  · next hb =>
      have hwindow := length_window hb
      have hsize : defaultIounitSize = 8 * 1024 * 1024 := rfl
      have hps : postscriptSize = 32 := rfl
      have hdrop : b.reader.length - min defaultIounitSize b.reader.length ≤
          pre.length + p.metadataSize := by omega
      have hholds : HoldsAt b.window (pre.length + p.metadataSize -
          (b.reader.length - min defaultIounitSize b.reader.length)) (postscriptBytes p) := by
        rw [window, if_pos hb]
        exact h.holds_postscript.drop hdrop
      exact readPostscript_of_holds (reads_readSliceAt _) hholds (by omega) h.fits h.footerSize_lt
  · exact h.readPostscript_eq (reads_readExactAt _)

/-- The footer is found, if the read-ahead accepts its size. -/
theorem footerBytes_eq (h : Ends b.reader pre f p)
    (hsmall : b.readAhead = true → p.footerSize < defaultIounitSize - 32) :
    b.footerBytes b.window p.toPostScript = .ok f.footer := by
  have hlen := h.length_eq
  have hm := h.metadataSize
  have hf := h.footerSize
  unfold footerBytes
  split
  · next hb =>
      have hwindow := length_window hb
      have hsize : defaultIounitSize = 8 * 1024 * 1024 := rfl
      have hps : postscriptSize = 32 := rfl
      have hlt := hsmall hb
      have hdrop : b.reader.length - min defaultIounitSize b.reader.length ≤
          pre.length + f.metadata.length := by omega
      have hholds : HoldsAt b.window (pre.length + f.metadata.length -
          (b.reader.length - min defaultIounitSize b.reader.length)) f.footer := by
        rw [window, if_pos hb]
        exact h.holds_footer.drop hdrop
      have hstop : checkedSub b.window.length postscriptSize =
          .ok (b.window.length - postscriptSize) := (checkedSub_eq_ok _ _ _).2 ⟨by omega, rfl⟩
      have hstart : checkedSub (b.window.length - postscriptSize) p.footerSize =
          .ok (b.window.length - postscriptSize - p.footerSize) :=
        (checkedSub_eq_ok _ _ _).2 ⟨by omega, rfl⟩
      rw [if_pos (show p.toPostScript.footerSize < defaultIounitSize - 32 from hlt), hstop, ok_bind]
      show (checkedSub _ p.footerSize >>= _) = _
      rw [hstart, ok_bind]
      refine (sliceRange_eq_ok _ _ _ _).2 ⟨⟨by omega, by omega⟩, ?_⟩
      have hslice := hholds.slice_eq
      rw [← hslice]
      congr 1 <;> omega
  · obtain ⟨hstop, hstart⟩ := h.footerRange
    rw [hstop, ok_bind]
    show (checkedSub _ p.footerSize >>= _) = _
    rw [hstart, ok_bind]
    have hread := reads_readExactAt b.reader _ _ h.holds_footer
    rw [← hf] at hread
    exact hread

/-- The read-ahead refuses a larger footer. -/
theorem footerBytes_large (hb : b.readAhead = true)
    (hlarge : ¬ p.footerSize < defaultIounitSize - 32) (bytes : Bytes) :
    b.footerBytes b.window p.toPostScript ≠ .ok bytes := by
  rw [footerBytes, if_pos hb,
    if_neg (show ¬ p.toPostScript.footerSize < defaultIounitSize - 32 from hlarge)]
  intro h
  cases h

/-- The column metadata is read at once, if it lies in what was read ahead. -/
theorem bulkBuffer_eq (h : Ends b.reader pre f p)
    (hsmall : b.readAhead = true → p.metadataSize + postscriptSize ≤ defaultIounitSize) :
    b.bulkBuffer b.window p.toPostScript = .ok f.metadata := by
  have hlen := h.length_eq
  unfold bulkBuffer
  show (checkedSub p.metadataSize p.footerSize >>= _) = _
  rw [h.metadataRange, ok_bind]
  split
  · next hb =>
      have hin := hsmall hb
      have hdrop : b.reader.length - min defaultIounitSize b.reader.length ≤ pre.length := by omega
      have htail := h.tail hdrop
      have hwindow : b.window = b.reader.drop _ := if_pos hb
      rw [hwindow, htail.dataSize_eq, ok_bind]
      exact reads_readSliceAt _ _ _ htail.holds_metadata
  · rw [h.dataSize_eq, ok_bind]
    exact reads_readExactAt _ _ _ h.holds_metadata

/-- Beyond what was read ahead, a subtraction underflows. -/
theorem bulkBuffer_large (h : Ends b.reader pre f p) (hb : b.readAhead = true)
    (hlarge : ¬ p.metadataSize + postscriptSize ≤ defaultIounitSize) (bytes : Bytes) :
    b.bulkBuffer b.window p.toPostScript ≠ .ok bytes := by
  have hwindow := length_window hb
  intro hbulk
  unfold bulkBuffer at hbulk
  simp only [bind_eq_ok, if_pos hb, Footer.dataSize, checkedSub_eq_ok] at hbulk
  obtain ⟨size, -, offset, ⟨n, ⟨hn, rfl⟩, hsub, -⟩, -⟩ := hbulk
  have hm : p.metadataSize ≤ b.window.length - postscriptSize := hsub
  omega

end Routes

end FileReaderV2Builder

/-! ## Sections -/

section Sections

variable {pre bytes : Bytes} {f : FileParts} {p : PostscriptValues} {s : MetadataSection}

/-- A section, cut out of the bulk buffer of the builder. -/
theorem bulkSlice_eq {file : Bytes} (h : Ends file pre f p)
    (hs : SectionOf pre.length (pre ++ f.metadata) bytes s) (hfit : bytes.length < 2 ^ 32) :
    FileReaderV2Builder.bulkSlice file.length p.toPostScript f.metadata s.toFb = .ok bytes := by
  have hsize : s.toFb.size = bytes.length := hs.size.trans (u32_of_lt hfit)
  have hsub : checkedSub s.toFb.offset pre.length = .ok (s.offset - pre.length) :=
    (checkedSub_eq_ok _ _ _).2 ⟨hs.start, rfl⟩
  rw [FileReaderV2Builder.bulkSlice, h.dataSize_eq, ok_bind, hsub, ok_bind, hsize]
  exact reads_readSliceAt _ _ _ hs.drop

/-- A section, read on its own by the builder. -/
theorem readSection_eq {file : Bytes} (h : Ends file pre f p)
    (hs : SectionOf pre.length (pre ++ f.metadata) bytes s) (hfit : bytes.length < 2 ^ 32) :
    FileReaderV2Builder.readSection file s.toFb = .ok bytes := by
  have hsize : s.toFb.size = bytes.length := hs.size.trans (u32_of_lt hfit)
  have hholds : HoldsAt file s.offset bytes := by
    rw [h.eq, ← List.append_assoc]
    exact hs.holds.append _
  rw [FileReaderV2Builder.readSection, hsize]
  exact reads_readExactAt _ _ _ hholds

/-- The metadata buffer of `Footer::try_new`. -/
theorem getMetadataBuffer_eq {file : Bytes} (h : Ends file pre f p) :
    getMetadataBuffer file p.toPostScript = .ok (f.metadata ++ f.footer) := by
  have hholds : HoldsAt file pre.length (f.metadata ++ f.footer) :=
    ⟨pre, f.postscript, by rw [h.eq, List.append_assoc], rfl⟩
  have hread := reads_readExactAt _ _ _ hholds
  rw [List.length_append, ← h.metadataSize] at hread
  rw [getMetadataBuffer, if_neg (show ¬ p.toPostScript.compression ≠ .uncompressed from
    not_not_intro rfl), h.dataSize_eq, ok_bind]
  exact hread

/-- The footer, cut out of that buffer. -/
theorem footerSlice_eq {file : Bytes} (h : Ends file pre f p) :
    Footer.footerSlice (f.metadata ++ f.footer) p.toPostScript = .ok f.footer := by
  show (checkedSub p.metadataSize p.footerSize >>= _) = _
  rw [h.metadataRange, ok_bind]
  refine (sliceRange_eq_ok _ _ _ _).2 ⟨⟨by simp, Nat.le_refl _⟩, ?_⟩
  have hslice := (holdsAt_snoc f.metadata f.footer).slice_eq
  rw [List.length_append, Nat.add_sub_cancel_left]
  exact hslice

/-- A section, cut out of that buffer. -/
theorem sectionSlice_eq (hs : SectionOf pre.length (pre ++ f.metadata) bytes s)
    (hfit : bytes.length < 2 ^ 32) :
    Footer.sectionSlice (f.metadata ++ f.footer) pre.length s.toFb = .ok bytes := by
  have hsize : s.toFb.size = bytes.length := hs.size.trans (u32_of_lt hfit)
  have hsub : checkedSub s.toFb.offset pre.length = .ok (s.offset - pre.length) :=
    (checkedSub_eq_ok _ _ _).2 ⟨hs.start, rfl⟩
  rw [Footer.sectionSlice, hsub, ok_bind, hsize]
  exact reads_readSliceAt _ _ _ (hs.drop.append f.footer)

end Sections

/-! ## The file of a finished run -/

namespace FileWriter

/-- The file ends with its parts. -/
theorem Written.ends {env : Env} {w : FileWriter} {t : FileWriteState} {sec : Sections}
    {p : PostscriptValues} {f : FileParts} (h : Written env w t sec p f)
    (hfit : ∀ v ∈ t.narrowed, v < 2 ^ 32) : Ends t.writer f.data f p :=
  ⟨h.file, h.postscript, h.metadataSize, h.footerSize, hfit _ h.metadataSizeFits⟩

/-- What a reader parses out of the footer. -/
def parsedFooter (env : Env) (w : FileWriter) (sec : Sections) : ParsedFooter where
  schema := w.schema
  logicalTree := w.logicalTree
  rowGroups := {
    rowCounts := some w.state.rowGroupsTable.rowCounts
    offsets := some w.state.rowGroupsTable.offsets
    sizes := some w.state.rowGroupsTable.sizes
    rowGroupMetadatas :=
      some (w.state.rowGroupsTable.indirectRowGroupMetadata.map IndirectRowGroupMetadata.toFb) }
  sharedDictionaryTable := some (SharedDictionaryTable.toFb env
    ⟨sec.dictChunks.flatten, sec.dictPositions.map fun ids => ids.map u32, sec.dictDtypes⟩)
  optionalSections := some {
    names := some ["WASMBinaries"]
    offsets := some [sec.wasmMetaStart]
    sizes := some [u32 sec.wasmMetaSize]
    compressionTypes := some [.uncompressed] }
  encodingVersions := some defaultEncodingVersions.reverse

theorem parseFooter_footerTable {env : Env} (laws : env.SerializationLaws) (w : FileWriter)
    (sec : Sections) :
    parseFooter env (footerTable env w w.state sec) = .ok (parsedFooter env w sec) := by
  simp only [parseFooter, footerTable, okOr, ok_bind, laws.ipcSchema w.schema, parseRoot,
    unwrapSome, pure_eq_ok]
  rfl

/-- The metadata of column `c` of row group `g`. -/
def metadataAt (w : FileWriter) (g c : Nat) : Option ColumnMetadata := do
  let group ← w.state.rowGroupsTable.rowGroupMetadata[g]?
  group.colMetadatas[c]?

/-- The section the footer records for it. -/
def sectionAt (w : FileWriter) (g c : Nat) : Option MetadataSection := do
  let group ← w.state.rowGroupsTable.indirectRowGroupMetadata[g]?
  group.colMetadatas[c]?

end FileWriter

/-- Lists related position by position have related entries. -/
theorem exists_getElem?_of_forall₂ {α β : Type} {R : α → β → Prop} {as : List α} {bs : List β}
    (h : List.Forall₂ R as bs) {i : Nat} {a : α} (ha : as[i]? = some a) :
    ∃ b, bs[i]? = some b ∧ R a b := by
  induction h generalizing i with
  | nil => simp at ha
  | @cons a' b' as bs hhead _ ih =>
      cases i with
      | zero =>
          simp only [List.getElem?_cons_zero, Option.some.injEq] at ha
          exact ⟨b', rfl, ha ▸ hhead⟩
      | succ i => exact ih ha

/-- The three routes to a section all take the bytes `bytes`. -/
structure TakenBy (file : Bytes) (ps : PostScript) (s : Fb.MetadataSection) (bytes : Bytes) :
    Prop where
  /-- the bulk buffer of a builder; what it reads ahead must reach the metadata -/
  bulk : ∀ b : FileReaderV2Builder, b.reader = file →
    (b.readAhead = true → ps.metadataSize + postscriptSize ≤ defaultIounitSize) →
    ∃ buffer buf, b.readAheadBuffer = .ok buffer ∧ b.bulkBuffer buffer ps = .ok buf ∧
      FileReaderV2Builder.bulkSlice file.length ps buf s = .ok bytes
  /-- the read of one column -/
  single : FileReaderV2Builder.readSection file s = .ok bytes
  /-- `Footer::try_new` -/
  tryNew : ∃ buf start, getMetadataBuffer file ps = .ok buf ∧
    Footer.dataSize file.length ps = .ok start ∧ Footer.sectionSlice buf start s = .ok bytes

/-- A reader finds everything where the writer put it. -/
structure FoundByReader (env : Env) (w : FileWriter) (sec : Sections) (p : PostscriptValues) :
    Prop where
  postscript : readPostscript (readExactAt w.file) w.file.length = .ok p.toPostScript
  metadataStart : Footer.dataSize w.file.length p.toPostScript = .ok sec.metadataStart
  firstSection : ∀ s, w.sectionAt 0 0 = some s → s.offset = sec.metadataStart
  footer : ∀ b : FileReaderV2Builder, b.reader = w.file →
    (b.readAhead = true → p.footerSize < defaultIounitSize - 32) →
    ∃ buffer, b.readAheadBuffer = .ok buffer ∧ b.footerBytes buffer p.toPostScript =
      .ok (env.footerFb.build (footerTable env w w.state sec))
  footerOfMetadata : ∃ buf, getMetadataBuffer w.file p.toPostScript = .ok buf ∧
    Footer.footerSlice buf p.toPostScript =
      .ok (env.footerFb.build (footerTable env w w.state sec))
  parsed : parseFooter env (footerTable env w w.state sec) = .ok (w.parsedFooter env sec)
  sections : ∀ g c m, w.metadataAt g c = some m → ∃ s, w.sectionAt g c = some s ∧
    TakenBy w.file p.toPostScript s.toFb (m.bytes env)
  onlySections : ∀ g c s, w.sectionAt g c = some s → ∃ m, w.metadataAt g c = some m

section Finished

variable {env : Env} {schema : List Field} {options : FileWriterOptions} {cs : List Call}
  {w w₁ : FileWriter} {sec : Sections} {p : PostscriptValues}

/-- The parts of the file of a finished run, in terms of its last state. -/
structure FileWriter.Finished (env : Env) (w w₁ : FileWriter) (sec : Sections)
    (p : PostscriptValues) (f : FileParts) : Prop where
  ends : Ends w.file f.data f p
  footer : f.footer = env.footerFb.build (footerTable env w w.state sec)
  metadataStart : sec.metadataStart = f.data.length
  sections : List.Forall₂ (fun (g : RowGroupMetadata) (i : IndirectRowGroupMetadata) =>
    List.Forall₂ (fun m s => SectionOf f.data.length (f.data ++ f.metadata) (m.bytes env) s ∧
      (m.bytes env).length < 2 ^ 32) g.colMetadatas i.colMetadatas)
    w.state.rowGroupsTable.rowGroupMetadata w.state.rowGroupsTable.indirectRowGroupMetadata
  first : ∀ i, w.state.rowGroupsTable.indirectRowGroupMetadata.head? = some i → ∀ s,
    i.colMetadatas.head? = some s → s.offset = f.data.length
  checksum : p.dataChecksum = env.xxh64 (f.data ++ f.metadata ++ f.footer)
  written : Written env w₁ w.state sec p f

theorem FileWriter.FinishesWith.finished (h : FinishesWith env schema options cs w w₁ sec p)
    (hfit : w.Fits) : ∃ f, Finished env w w₁ sec p f := by
  obtain ⟨f, hf⟩ := writeSections_spec h.sections
  obtain ⟨hsound, -⟩ := h.sound
  obtain ⟨sections, htable, hall, hhead, hsizes⟩ := hf.sections
  have hindirect : w.state.rowGroupsTable.indirectRowGroupMetadata = sections := by
    rw [htable, hsound.indirect]
    rfl
  have hgroups : w.state.rowGroupsTable.rowGroupMetadata =
      w₁.state.rowGroupsTable.rowGroupMetadata := by
    rw [htable]
  refine ⟨f, hf.ends hfit, ?_, hf.metadataStart, ?_, ?_, hf.dataChecksum hsound.checksum, hf⟩
  · rw [hf.footer, h.final]
    rfl
  · rw [hgroups, hindirect]
    refine ((List.forall₂_and_left _ _).2 ⟨hsizes, hall⟩).imp ?_
    rintro g i ⟨hg, hcolumns⟩
    refine ((List.forall₂_and_left _ _).2 ⟨hg, hcolumns⟩).imp ?_
    rintro m s ⟨hm, hs⟩
    exact ⟨hs, hfit _ hm⟩
  · rw [hindirect]
    exact hhead

namespace FileWriter.Finished

variable {f : FileParts}

/-- The section of a column of a row group, with the bytes it holds. -/
theorem exists_section (h : Finished env w w₁ sec p f) {g c : Nat} {m : ColumnMetadata}
    (hm : w.metadataAt g c = some m) : ∃ s, w.sectionAt g c = some s ∧
      SectionOf f.data.length (f.data ++ f.metadata) (m.bytes env) s ∧
        (m.bytes env).length < 2 ^ 32 := by
  obtain ⟨group, hgroup, hcolumn⟩ := Option.bind_eq_some_iff.1 hm
  obtain ⟨i, hi, hcolumns⟩ := exists_getElem?_of_forall₂ h.sections hgroup
  obtain ⟨s, hs, hsection⟩ := exists_getElem?_of_forall₂ hcolumns hcolumn
  exact ⟨s, Option.bind_eq_some_iff.2 ⟨i, hi, hs⟩, hsection⟩

theorem exists_metadata (h : Finished env w w₁ sec p f) {g c : Nat} {s : MetadataSection}
    (hs : w.sectionAt g c = some s) : ∃ m, w.metadataAt g c = some m := by
  obtain ⟨i, hi, hsection⟩ := Option.bind_eq_some_iff.1 hs
  obtain ⟨group, hgroup, hcolumns⟩ := exists_getElem?_of_forall₂ h.sections.flip hi
  obtain ⟨m, hm, -⟩ := exists_getElem?_of_forall₂ hcolumns.flip hsection
  exact ⟨m, Option.bind_eq_some_iff.2 ⟨group, hgroup, hm⟩⟩

/-- Every route takes the bytes of the section. -/
theorem takenBy (h : Finished env w w₁ sec p f) {s : MetadataSection} {bytes : Bytes}
    (hs : SectionOf f.data.length (f.data ++ f.metadata) bytes s) (hfit : bytes.length < 2 ^ 32) :
    TakenBy w.file p.toPostScript s.toFb bytes where
  bulk := by
    intro b hb hwindow
    have hends : Ends b.reader f.data f p := by
      rw [hb]
      exact h.ends
    refine ⟨b.window, f.metadata, b.readAheadBuffer_eq,
      FileReaderV2Builder.bulkBuffer_eq hends hwindow, ?_⟩
    exact bulkSlice_eq h.ends hs hfit
  single := readSection_eq h.ends hs hfit
  tryNew := ⟨f.metadata ++ f.footer, f.data.length, getMetadataBuffer_eq h.ends,
    h.ends.dataSize_eq, sectionSlice_eq hs hfit⟩

end FileWriter.Finished

/-- The reader finds exactly what the writer wrote. -/
theorem layout_of_finishes (laws : env.SerializationLaws)
    (hw : Finishes env schema options cs w) (hfit : w.Fits) :
    ∃ w₁ sec p, FinishesWith env schema options cs w w₁ sec p ∧ FoundByReader env w sec p := by
  obtain ⟨w₁, sec, p, h⟩ := finishes_iff.1 hw
  obtain ⟨f, hf⟩ := h.finished hfit
  refine ⟨w₁, sec, p, h, ?_⟩
  constructor
  case postscript => exact hf.ends.readPostscript_eq (reads_readExactAt _)
  case metadataStart =>
    rw [hf.metadataStart]
    exact hf.ends.dataSize_eq
  case firstSection =>
    intro s hs
    obtain ⟨i, hi, hsection⟩ := Option.bind_eq_some_iff.1 hs
    rw [← List.head?_eq_getElem?] at hi hsection
    rw [hf.metadataStart]
    exact hf.first i hi s hsection
  case footer =>
    intro b hb hsmall
    have hends : Ends b.reader f.data f p := by
      rw [hb]
      exact hf.ends
    refine ⟨b.window, b.readAheadBuffer_eq, ?_⟩
    rw [← hf.footer]
    exact FileReaderV2Builder.footerBytes_eq hends hsmall
  case footerOfMetadata =>
    refine ⟨_, getMetadataBuffer_eq hf.ends, ?_⟩
    rw [← hf.footer]
    exact footerSlice_eq hf.ends
  case parsed => exact parseFooter_footerTable laws w sec
  case sections =>
    intro g c m hm
    obtain ⟨s, hs, hsection, hsize⟩ := hf.exists_section hm
    exact ⟨s, hs, hf.takenBy hsection hsize⟩
  case onlySections =>
    intro g c s hs
    exact hf.exists_metadata hs

end Finished

/-- A schema of one integer column. -/
def Sample.schema : List Field := [.mk "a" (.prim .int32) true]

/-- A batch of one row. -/
def Sample.batch : RecordBatch := ⟨Sample.schema, [Sample.seven], 1, by decide⟩

theorem Sample.runFits :
    FileWriter.runFits Sample.env Sample.schema .default [.writeBatch Sample.batch] = true := by
  decide +kernel

/-- The layout of a file with one row. -/
theorem layout_of_finishes_sample : ∃ w w₁ sec p,
    FinishesWith Sample.env Sample.schema .default [.writeBatch Sample.batch] w w₁ sec p ∧
      FoundByReader Sample.env w sec p := by
  obtain ⟨w, hw, hfit⟩ := exists_of_runFits Sample.runFits
  exact ⟨w, layout_of_finishes Sample.serializationLaws hw hfit⟩

end F3Format
