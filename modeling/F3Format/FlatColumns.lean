import F3Format.EncoderRuns
import F3Format.Lib.Grouping
import F3Format.WrittenFiles

/-!
# What the columns of a flat file hold

Without dictionaries in the file (`NoDictionary`, `EncoderDictionary`) every
column of a flat schema has one encoder, which turns each array into one unit.
`Logged` says where the arrays of a column are: in the chunks recorded for the
row group in progress, and behind them in the encoder. Every step of a run keeps
it, so that each row group of a finished file holds, column by column, the
arrays of its batches (`FinishesWith.flatWritten`).
-/

set_option autoImplicit false

namespace F3Format

open Lib FileWriter

/-! ## The arrays of a batch -/

/-- The arrays `write_batch` encodes for a column with its index: slices of the
custom unit length, or the column itself. -/
def encodedArrays (lens : List (Nat × Nat)) (numRows : Nat) (p : ArrayRef × Nat) :
    List ArrayRef :=
  match lens.lookup p.2 with
  | none => [p.1]
  | some n => (List.range (numRows / n)).map fun j =>
      p.1.slice (j * n) (min n (p.1.len - j * n))

/-- The arrays a batch gives column `i`. -/
def RecordBatch.arraysOf (lens : List (Nat × Nat)) (b : RecordBatch) (i : Nat) : List ArrayRef :=
  match b.columns[i]? with
  | some c => encodedArrays lens b.numRows (c, i)
  | none => []

/-- The batch passes the check of `write_batch` on custom unit lengths, and none
of these is zero. -/
def RecordBatch.Accepted (lens : List (Nat × Nat)) (b : RecordBatch) : Prop :=
  ∀ (i n : Nat), i < b.columns.length → lens.lookup i = some n → 0 < n ∧ n ≤ b.numRows

/-- The rows the counter of a row group shows after some batches. -/
def recordedRows (bs : List RecordBatch) : Nat :=
  bs.foldl (fun count b => u32 (count + u32 b.numRows)) 0

/-- The row group is finished after these batches. -/
def groupFull (rowGroupSize : Nat) (bs : List RecordBatch) : Bool :=
  decide (rowGroupSize ≤ recordedRows bs)

/-- The batches of each row group. The last row group is finished by `finish`. -/
def rowGroupsOf (options : FileWriterOptions) (bs : List RecordBatch) : List (List RecordBatch) :=
  (collectGroups (groupFull options.rowGroupSize) bs).all

theorem recordedRows_snoc (bs : List RecordBatch) (b : RecordBatch) :
    recordedRows (bs ++ [b]) = u32 (recordedRows bs + u32 b.numRows) := by
  rw [recordedRows, List.foldl_append]
  rfl

/-! ## Units and chunks -/

/-- What the unit of an array depends on. -/
structure UnitOptions where
  wasmContext : WASMWritingContext
  enableDict : Bool
  compressionType : CompressionType

/-- The unit of an array. -/
def UnitOptions.unit (env : Env) (o : UnitOptions) (array : ArrayRef) : Result SerializedEncUnit :=
  encodeEncUnit env o.wasmContext o.enableDict o.compressionType o.compressionType array.dataType
    array

/-- No dictionary chunks in the file: `NoDictionary` and `EncoderDictionary`. -/
def DictionaryTypeOptions.isPlain : DictionaryTypeOptions → Bool
  | .noDictionary => true
  | .encoderDictionary => true
  | _ => false

/-- Whether the unit encoders may use dictionaries of their own. -/
def DictionaryTypeOptions.enablesDict : DictionaryTypeOptions → Bool
  | .encoderDictionary => true
  | _ => false

/-- The options with which a writer makes its units. -/
def FileWriterOptions.units (env : Env) (options : FileWriterOptions) : UnitOptions :=
  ⟨options.wasmContext env, options.dictionaryType.enablesDict, options.compressionType⟩

/-- The options with which an encoder makes its units. -/
def EncoderDictColEncoder.units (e : EncoderDictColEncoder) : UnitOptions :=
  ⟨e.wasmContext, e.enableDict, e.compressionType⟩

/-- The chunk is labelled as one without a dictionary, and its units are those of the arrays. -/
structure ChunkOf (env : Env) (o : UnitOptions) (c : EncodedColumnChunk)
    (arrays : List ArrayRef) : Prop where
  encoding : c.dictEncoding = .noDictionary
  rows : c.numRows = (arrays.map ArrayRef.len).sum
  units : List.Forall₂ (fun u a => o.unit env a = .ok u) c.encunits arrays

section Chunks

variable {env : Env} {o : UnitOptions}

theorem chunkOf_default : ChunkOf env o .default [] := ⟨rfl, rfl, .nil⟩

theorem ChunkOf.push {c : EncodedColumnChunk} {arrays : List ArrayRef}
    (h : ChunkOf env o c arrays) {a : ArrayRef} {u : SerializedEncUnit}
    (hu : o.unit env a = .ok u) : ChunkOf env o (c.push u a.len) (arrays ++ [a]) where
  encoding := h.encoding
  rows := by
    show c.numRows + a.len = _
    rw [h.rows, List.map_append, List.sum_append]
    rfl
  units := List.rel_append h.units (.cons hu .nil)

theorem ChunkOf.eq_nil {c : EncodedColumnChunk} {arrays : List ArrayRef}
    (h : ChunkOf env o c arrays) (hc : c.encunits.isEmpty = true) : arrays = [] := by
  have hlen := h.units.length_eq
  rw [List.isEmpty_iff.1 hc] at hlen
  exact List.eq_nil_of_length_eq_zero hlen.symm

/-- Stamping the column index changes neither the units nor the label. -/
theorem ChunkOf.stamped {c : EncodedColumnChunk} {arrays : List ArrayRef}
    (h : ChunkOf env o c arrays) (i : Nat) : ChunkOf env o (c.updateColumnIndex i) arrays :=
  ⟨h.encoding, h.rows, h.units⟩

/-- The encoder has the arrays `pending` in its chunk, after it returned chunks
with the arrays `returned`. -/
structure Buffers (env : Env) (o : UnitOptions) (e : EncoderDictColEncoder)
    (pending : List ArrayRef) : Prop where
  options : e.units = o
  chunk : ChunkOf env o e.accumulatedChunk pending

/-- `encode` adds the array behind the others, and returns whole chunks. -/
theorem Buffers.encode {array : ArrayRef} {s t : Working EncoderDictColEncoder}
    {chunks : List EncodedColumnChunk} {pending : List ArrayRef} (h : Buffers env o s.enc pending)
    (hr : Act.Returns (EncoderDictColEncoder.encode env array) s chunks t) :
    ∃ contents rest, List.Forall₂ (ChunkOf env o) chunks contents ∧ Buffers env o t.enc rest ∧
      contents.flatten ++ rest = pending ++ [array] ∧ t.ctx = s.ctx := by
  have hr' : EncoderDictColEncoder.encode env array s = .ok chunks t := hr
  rw [EncoderDictColEncoder.encode_run] at hr'
  have hoptions := h.options
  subst hoptions
  split at hr'
  · cases hr'
  · next u hu =>
      have hpush := h.chunk.push hu
      split at hr'
      · -- the chunk has become too large
        cases hr'
        exact ⟨[pending ++ [array]], [], .cons hpush .nil, ⟨rfl, chunkOf_default⟩, by simp, rfl⟩
      · cases hr'
        exact ⟨[], pending ++ [array], .nil, ⟨rfl, hpush⟩, rfl, rfl⟩

/-- `finish` returns what is left. -/
theorem Buffers.finish {s t : Working EncoderDictColEncoder} {chunks : List EncodedColumnChunk}
    {pending : List ArrayRef} (h : Buffers env o s.enc pending)
    (hr : Act.Returns EncoderDictColEncoder.finish s chunks t) :
    ∃ contents, List.Forall₂ (ChunkOf env o) chunks contents ∧ Buffers env o t.enc [] ∧
      contents.flatten = pending ∧ t.ctx = s.ctx := by
  have hr' : EncoderDictColEncoder.finish s = .ok chunks t := hr
  rw [EncoderDictColEncoder.finish_run] at hr'
  split at hr'
  · next hempty =>
      cases hr'
      have hnil := h.chunk.eq_nil hempty
      subst hnil
      exact ⟨[], .nil, h, rfl, rfl⟩
  · cases hr'
    exact ⟨[pending], .cons h.chunk .nil, ⟨h.options, chunkOf_default⟩, by simp, rfl⟩

end Chunks

/-! ## Where the arrays of a column are -/

/-- The record is that of a chunk of the file, which holds the arrays. -/
def Recorded (env : Env) (o : UnitOptions) (file : Bytes) (narrowed : List Nat) (m : Chunk)
    (arrays : List ArrayRef) : Prop :=
  ∃ (c : EncodedColumnChunk) (checksum : Bool) (offset : Nat),
    m = c.record env checksum offset ∧ HoldsAt file offset c.bytes ∧
      (∀ n ∈ c.sizes, n ∈ narrowed) ∧ ChunkOf env o c arrays

theorem Recorded.mono {env : Env} {o : UnitOptions} {file file' : Bytes}
    {narrowed narrowed' : List Nat} {m : Chunk} {arrays : List ArrayRef}
    (h : Recorded env o file narrowed m arrays) (hfile : ∃ more, file' = file ++ more)
    (hnarrowed : ∀ n ∈ narrowed, n ∈ narrowed') : Recorded env o file' narrowed' m arrays := by
  obtain ⟨c, checksum, offset, hm, hholds, hsizes, hchunk⟩ := h
  obtain ⟨more, rfl⟩ := hfile
  exact ⟨c, checksum, offset, hm, hholds.append more, fun n hn => hnarrowed n (hsizes n hn), hchunk⟩

namespace FileWriter

/-- `w'` is `w` after some chunks were written. -/
structure Extends (w w' : FileWriter) : Prop where
  file : ∃ more, w'.file = w.file ++ more
  narrowed : ∀ n ∈ w.state.narrowed, n ∈ w'.state.narrowed
  table : w'.state.rowGroupsTable = w.state.rowGroupsTable
  numRows : w'.state.numRowsInCurRowGroup = w.state.numRowsInCurRowGroup
  context : w'.sharedDictionaryContext = w.sharedDictionaryContext
  fixed : w'.fixed = w.fixed

theorem Extends.refl (w : FileWriter) : Extends w w :=
  ⟨⟨[], (List.append_nil _).symm⟩, fun _ hn => hn, rfl, rfl, rfl, rfl⟩

theorem Extends.trans {w w' w'' : FileWriter} (h : Extends w w') (h' : Extends w' w'') :
    Extends w w'' := by
  obtain ⟨more, hmore⟩ := h.file
  obtain ⟨more', hmore'⟩ := h'.file
  exact ⟨⟨more ++ more', by rw [hmore', hmore, List.append_assoc]⟩,
    fun n hn => h'.narrowed n (h.narrowed n hn), h'.table.trans h.table,
    h'.numRows.trans h.numRows, h'.context.trans h.context, h'.fixed.trans h.fixed⟩

/-- Column `i` of the row group in progress: the arrays of its chunks, one list
for each, and those its encoder has. -/
structure ColumnState (env : Env) (o : UnitOptions) (w : FileWriter) (i : Nat)
    (flushed : List (List ArrayRef)) (pending : List ArrayRef) : Prop where
  encoder : ∃ e, w.columnEncoders[i]? = some (.flat (.encoderDict e) i) ∧ Buffers env o e pending
  chunks : ∃ m, w.state.columnMetadatasInCurRowGroup[i]? = some m ∧
    List.Forall₂ (Recorded env o w.file w.state.narrowed) m.columnChunks flushed

/-- The columns of the row group in progress have these arrays. -/
structure Logged (env : Env) (o : UnitOptions) (n : Nat) (cols : Nat → List ArrayRef)
    (w : FileWriter) : Prop where
  encoders : w.columnEncoders.length = n
  metadatas : w.state.columnMetadatasInCurRowGroup.length = n
  columns : ∀ i < n, ∃ flushed pending, ColumnState env o w i flushed pending ∧
    flushed.flatten ++ pending = cols i

section Steps

variable {env : Env} {o : UnitOptions} {n : Nat} {w w' : FileWriter}

/-- A column that is not touched. -/
theorem ColumnState.mono {i : Nat} {flushed : List (List ArrayRef)} {pending : List ArrayRef}
    (h : ColumnState env o w i flushed pending) (he : Extends w w')
    (hencoder : w'.columnEncoders[i]? = w.columnEncoders[i]?)
    (hmeta : w'.state.columnMetadatasInCurRowGroup[i]? =
      w.state.columnMetadatasInCurRowGroup[i]?) : ColumnState env o w' i flushed pending where
  encoder := by
    rw [hencoder]
    exact h.encoder
  chunks := by
    obtain ⟨m, hm, hrecorded⟩ := h.chunks
    exact ⟨m, hmeta.trans hm, hrecorded.imp fun _ _ hr => hr.mono he.file he.narrowed⟩

/-- Chunks of column `i` that are flushed are recorded behind the others. -/
theorem returns_flushChunks {i : Nat} : ∀ {res : List EncodedColumnChunk}
    {contents : List (List ArrayRef)} {w : FileWriter} {m : ColumnMetadata}
    {flushed : List (List ArrayRef)}, List.Forall₂ (ChunkOf env o) res contents →
      (∀ c ∈ res, c.columnIndex = i) → w.state.columnMetadatasInCurRowGroup[i]? = some m →
        List.Forall₂ (Recorded env o w.file w.state.narrowed) m.columnChunks flushed →
          Act.Returns (Act.forEach (fun c => onState fun s => s.flushChunk env c) res) w () w' →
            Extends w w' ∧ w'.columnEncoders = w.columnEncoders ∧ ∃ m',
              w'.state.columnMetadatasInCurRowGroup =
                w.state.columnMetadatasInCurRowGroup.set i m' ∧
              List.Forall₂ (Recorded env o w'.file w'.state.narrowed) m'.columnChunks
                (flushed ++ contents)
  | _, _, w, m, flushed, .nil, _, hm, hflushed, hr => by
      rw [Act.returns_forEach_nil] at hr
      subst hr
      refine ⟨.refl w, rfl, m, ?_, by rw [List.append_nil]; exact hflushed⟩
      obtain ⟨hlt, rfl⟩ := List.getElem?_eq_some_iff.1 hm
      exact (List.set_getElem_self hlt).symm
  | _, _, w, m, flushed, @List.Forall₂.cons _ _ _ c arrays res contents hc hres, hi, hm, hflushed,
      hr => by
      rw [Act.returns_forEach_cons] at hr
      obtain ⟨w₁, hfirst, hrest⟩ := hr
      obtain ⟨v, w₀, hget, hfirst⟩ := (Act.returns_bind _ _ _ _ _).1 hfirst
      obtain ⟨rfl, rfl⟩ := (Act.returns_get _ _ _).1 hget
      obtain ⟨s, w₀, hlift, hset⟩ := (Act.returns_bind _ _ _ _ _).1 hfirst
      obtain ⟨hs, rfl⟩ := (Act.returns_lift _ _ _ _).1 hlift
      have hw₁ := (Act.returns_set _ _ _ _).1 hset
      obtain ⟨m₀, hm₀, hs⟩ := FileWriteState.flushChunk_eq_ok.1 hs
      have hindex := hi c (List.mem_cons_self ..)
      rw [hindex] at hm₀ hs
      rw [hm] at hm₀
      cases hm₀
      have hext : Extends w w₁ := by
        rw [← hw₁, hs]
        exact ⟨⟨c.bytes, rfl⟩, fun n hn => List.mem_append_left _ hn, rfl, rfl, rfl, rfl⟩
      have hlt : i < w.state.columnMetadatasInCurRowGroup.length :=
        (List.getElem?_eq_some_iff.1 hm).1
      have hmeta : w₁.state.columnMetadatasInCurRowGroup =
          w.state.columnMetadatasInCurRowGroup.set i (m.addChunk
            (c.record env w.state.enableIoUnitChecksum w.state.writer.length)) := by
        rw [← hw₁, hs]
      have hrecorded : Recorded env o w₁.file w₁.state.narrowed
          (c.record env w.state.enableIoUnitChecksum w.state.writer.length) arrays := by
        refine ⟨c, _, _, rfl, ?_, ?_, hc⟩
        · rw [← hw₁, hs]
          exact holdsAt_snoc w.state.writer c.bytes
        · rw [← hw₁, hs]
          exact fun n hn => List.mem_append_right _ hn
      have hmeta₁ : w₁.state.columnMetadatasInCurRowGroup[i]? = some (m.addChunk
          (c.record env w.state.enableIoUnitChecksum w.state.writer.length)) := by
        rw [hmeta, List.getElem?_set_self hlt]
      have hflushed₁ : List.Forall₂ (Recorded env o w₁.file w₁.state.narrowed)
          (m.addChunk (c.record env w.state.enableIoUnitChecksum
            w.state.writer.length)).columnChunks (flushed ++ [arrays]) :=
        List.rel_append (hflushed.imp fun _ _ hr => hr.mono hext.file hext.narrowed)
          (.cons hrecorded .nil)
      obtain ⟨hext', hencoders, m', hm', hall⟩ := returns_flushChunks hres
        (fun c' hc' => hi c' (List.mem_cons_of_mem _ hc')) hmeta₁ hflushed₁ hrest
      refine ⟨hext.trans hext', ?_, m', ?_, ?_⟩
      · rw [hencoders, ← hw₁]
      · rw [hm', hmeta, List.set_set]
      · rw [List.append_assoc] at hall
        exact hall

/-- A call of encoder `i` and the chunks it returned: the other columns stay as
they are, and column `i` has the contents of these chunks behind those it had. -/
theorem returns_column {i : Nat} {x : LogicalColEncoder → Shared →
      EncResult LogicalColEncoder (Option (List EncodedColumnChunk))}
    {flushed : List (List ArrayRef)} {pending : List ArrayRef}
    {post : List (List ArrayRef) → List ArrayRef → Prop}
    (hx : ∀ e s res t, Buffers env o e pending → x (.flat (.encoderDict e) i) s = .ok res t →
      ∃ e' contents rest, t.enc = .flat (.encoderDict e') i ∧ t.ctx = s.ctx ∧
        List.Forall₂ (ChunkOf env o) (res.getD []) contents ∧
          (∀ c ∈ res.getD [], c.columnIndex = i) ∧ Buffers env o e' rest ∧ post contents rest)
    (hstate : ColumnState env o w i flushed pending)
    (hr : Act.Returns (do let res ← callEncoder i x; flushChunks env res) w () w') :
    Extends w w' ∧ w'.columnEncoders.length = w.columnEncoders.length ∧
      w'.state.columnMetadatasInCurRowGroup.length = w.state.columnMetadatasInCurRowGroup.length ∧
      (∀ k, k ≠ i → w'.columnEncoders[k]? = w.columnEncoders[k]? ∧
        w'.state.columnMetadatasInCurRowGroup[k]? = w.state.columnMetadatasInCurRowGroup[k]?) ∧
      ∃ contents rest, post contents rest ∧
        ColumnState env o w' i (flushed ++ contents) rest := by
  obtain ⟨res, w₁, hcall, hflush⟩ := (Act.returns_bind _ _ _ _ _).1 hr
  obtain ⟨e₀, c, t, he₀, -, hrun, rfl⟩ := returns_callEncoder hcall
  obtain ⟨e, he, hbuffers⟩ := hstate.encoder
  obtain ⟨m, hm, hrecorded⟩ := hstate.chunks
  rw [he] at he₀
  cases he₀
  obtain ⟨e', contents, rest, hencoder, hctx, hres, hindex, hrest, hpost⟩ :=
    hx e _ res t hbuffers hrun
  have hput : Extends w (w.putBack i t) :=
    ⟨⟨[], (List.append_nil _).symm⟩, fun _ hn => hn, rfl, rfl, hctx, rfl⟩
  obtain ⟨hext, hencoders, m', hm', hall⟩ := returns_flushChunks hres hindex
    (show (w.putBack i t).state.columnMetadatasInCurRowGroup[i]? = some m from hm) hrecorded hflush
  have hilt : i < w.columnEncoders.length := (List.getElem?_eq_some_iff.1 he).1
  have hmlt : i < w.state.columnMetadatasInCurRowGroup.length :=
    (List.getElem?_eq_some_iff.1 hm).1
  have hencoders' : w'.columnEncoders = w.columnEncoders.set i t.enc := hencoders
  have hm'' : w'.state.columnMetadatasInCurRowGroup =
      w.state.columnMetadatasInCurRowGroup.set i m' := hm'
  refine ⟨hput.trans hext, ?_, ?_, ?_, contents, rest, hpost, ⟨e', ?_, hrest⟩, m', ?_, hall⟩
  · rw [hencoders', List.length_set]
  · rw [hm'', List.length_set]
  · intro k hk
    rw [hencoders', hm'', List.getElem?_set_ne (Ne.symm hk), List.getElem?_set_ne (Ne.symm hk)]
    exact ⟨rfl, rfl⟩
  · rw [hencoders', List.getElem?_set_self hilt, hencoder]
  · rw [hm'', List.getElem?_set_self hmlt]

/-- A method of the physical encoder of a flat column. -/
theorem callPhysical_flat {α : Type} {x : EncAct PhysicalColEncoder α}
    {y : EncAct EncoderDictColEncoder α} {e : EncoderDictColEncoder} {s : Shared} {a : α}
    {t : Working PhysicalColEncoder}
    (hx : ∀ s : Working PhysicalColEncoder, s.enc = .encoderDict e →
      x s = delegate .encoderDict e y s)
    (h : callPhysical x (.encoderDict e) s = .ok a t) : ∃ t' : Working EncoderDictColEncoder,
      Act.Returns y ⟨e, s.counter, s.ctx, s.rng⟩ a t' ∧ t = t'.embed .encoderDict := by
  have hrun : Act.Returns (delegate .encoderDict e y)
      ⟨.encoderDict e, s.counter, s.ctx, s.rng⟩ a t := (hx _ rfl).symm.trans h
  obtain ⟨t', ht', rfl⟩ := (Act.returns_zoom _ _ _ _ _ _).1 hrun
  exact ⟨t', ht', rfl⟩

theorem columnIndex_stamp {i : Nat} {chunks : List EncodedColumnChunk} :
    ∀ c ∈ stamp i chunks, c.columnIndex = i := by
  intro c hc
  obtain ⟨c', -, rfl⟩ := List.mem_map.1 hc
  rfl

theorem chunkOf_stamp {i : Nat} {chunks : List EncodedColumnChunk}
    {contents : List (List ArrayRef)} (h : List.Forall₂ (ChunkOf env o) chunks contents) :
    List.Forall₂ (ChunkOf env o) (stamp i chunks) contents := by
  rw [stamp, List.forall₂_map_left_iff]
  exact h.imp fun _ _ hc => hc.stamped i

/-- `encode` on a flat column. -/
theorem encode_flat {i : Nat} {array : ArrayRef} {e : EncoderDictColEncoder}
    {pending : List ArrayRef} {s : Shared} {res : Option (List EncodedColumnChunk)}
    {t : Working LogicalColEncoder} (h : Buffers env o e pending)
    (hr : LogicalColEncoder.encode env (.flat (.encoderDict e) i) array s = .ok res t) :
    ∃ e' contents rest, t.enc = .flat (.encoderDict e') i ∧ t.ctx = s.ctx ∧
      List.Forall₂ (ChunkOf env o) (res.getD []) contents ∧
        (∀ c ∈ res.getD [], c.columnIndex = i) ∧ Buffers env o e' rest ∧
          contents.flatten ++ rest = pending ++ [array] := by
  rw [LogicalColEncoder.encode] at hr
  split at hr
  · next chunks t' hcall =>
      cases hr
      have hdelegate : ∀ s : Working PhysicalColEncoder, s.enc = .encoderDict e →
          PhysicalColEncoder.encode env array s =
            delegate .encoderDict e (EncoderDictColEncoder.encode env array) s := by
        intro s hs
        rw [PhysicalColEncoder.encode, Act.get_bind, hs]
      obtain ⟨u, hu, rfl⟩ := callPhysical_flat hdelegate hcall
      have hstart : Buffers env o
          (⟨e, s.counter, s.ctx, s.rng⟩ : Working EncoderDictColEncoder).enc pending := h
      obtain ⟨contents, rest, hchunks, hrest, hflatten, hctx⟩ := hstart.encode hu
      refine ⟨u.enc, contents, rest, rfl, hctx, ?_, ?_, hrest, hflatten⟩
      · rw [getD_thenSome]
        exact chunkOf_stamp hchunks
      · rw [getD_thenSome]
        exact columnIndex_stamp
  · cases hr

/-- `finish` on a flat column. -/
theorem finish_flat {i : Nat} {e : EncoderDictColEncoder} {pending : List ArrayRef} {s : Shared}
    {res : Option (List EncodedColumnChunk)} {t : Working LogicalColEncoder}
    (h : Buffers env o e pending)
    (hr : LogicalColEncoder.finish env (.flat (.encoderDict e) i) s = .ok res t) :
    ∃ e' contents rest, t.enc = .flat (.encoderDict e') i ∧ t.ctx = s.ctx ∧
      List.Forall₂ (ChunkOf env o) (res.getD []) contents ∧
        (∀ c ∈ res.getD [], c.columnIndex = i) ∧ Buffers env o e' rest ∧
          rest = [] ∧ contents.flatten = pending := by
  rw [LogicalColEncoder.finish] at hr
  split at hr
  · next chunks t' hcall =>
      cases hr
      have hdelegate : ∀ s : Working PhysicalColEncoder, s.enc = .encoderDict e →
          PhysicalColEncoder.finish env s =
            delegate .encoderDict e EncoderDictColEncoder.finish s := by
        intro s hs
        rw [PhysicalColEncoder.finish, Act.get_bind, hs]
      obtain ⟨u, hu, rfl⟩ := callPhysical_flat hdelegate hcall
      have hstart : Buffers env o
          (⟨e, s.counter, s.ctx, s.rng⟩ : Working EncoderDictColEncoder).enc pending := h
      obtain ⟨contents, hchunks, hrest, hflatten, hctx⟩ := hstart.finish hu
      refine ⟨u.enc, contents, [], rfl, hctx, ?_, ?_, hrest, rfl, hflatten⟩
      · rw [getD_thenSome]
        exact chunkOf_stamp hchunks
      · rw [getD_thenSome]
        exact columnIndex_stamp
  · cases hr

/-! ## The steps of a run -/

/-- The columns with some arrays more in column `i`. -/
def addArrays (cols : Nat → List ArrayRef) (i : Nat) (arrays : List ArrayRef) :
    Nat → List ArrayRef :=
  fun k => if k = i then cols k ++ arrays else cols k

theorem addArrays_nil (cols : Nat → List ArrayRef) (i : Nat) : addArrays cols i [] = cols := by
  funext k
  by_cases hk : k = i <;> simp [addArrays, hk]

theorem addArrays_append (cols : Nat → List ArrayRef) (i : Nat) (as bs : List ArrayRef) :
    addArrays (addArrays cols i as) i bs = addArrays cols i (as ++ bs) := by
  funext k
  by_cases hk : k = i <;> simp [addArrays, hk]

variable {cols : Nat → List ArrayRef}

/-- A column that is called has a state. -/
theorem Logged.lt_of_callEncoder (h : Logged env o n cols w) {α : Type} {i : Nat}
    {x : LogicalColEncoder → Shared → EncResult LogicalColEncoder α} {a : α}
    (hr : Act.Returns (callEncoder i x) w a w') : i < n := by
  obtain ⟨e, -, -, he, -⟩ := returns_callEncoder hr
  rw [← h.encoders]
  exact (List.getElem?_eq_some_iff.1 he).1

theorem Logged.encodeArray (h : Logged env o n cols w) {i : Nat} {a : ArrayRef}
    (hr : Act.Returns (encodeArray env i a) w () w') :
    Logged env o n (addArrays cols i [a]) w' ∧ Extends w w' := by
  obtain ⟨res, w₁, hcall, -⟩ := (Act.returns_bind _ _ _ _ _).1 hr
  have hi := h.lt_of_callEncoder hcall
  obtain ⟨flushed, pending, hstate, hcols⟩ := h.columns i hi
  obtain ⟨hext, hencoders, hmetas, hothers, contents, rest, hpost, hnext⟩ :=
    returns_column (fun e s res t hb hx => encode_flat hb hx) hstate hr
  refine ⟨⟨hencoders.trans h.encoders, hmetas.trans h.metadatas, fun k hk => ?_⟩, hext⟩
  by_cases hki : k = i
  · subst hki
    refine ⟨flushed ++ contents, rest, hnext, ?_⟩
    rw [List.flatten_append, List.append_assoc, hpost, ← List.append_assoc, hcols, addArrays,
      if_pos rfl]
  · obtain ⟨flushed', pending', hstate', hcols'⟩ := h.columns k hk
    obtain ⟨hencoder, hmeta⟩ := hothers k hki
    refine ⟨flushed', pending', hstate'.mono hext hencoder hmeta, ?_⟩
    rw [hcols', addArrays, if_neg hki]

/-- The arrays of one column of a batch. -/
theorem Logged.writeColumn (h : Logged env o n cols w) {numRows : Nat} {p : ArrayRef × Nat}
    (hr : Act.Returns (writeColumn env numRows p) w () w') :
    Logged env o n (addArrays cols p.2 (encodedArrays w.customEncunitLen numRows p)) w' ∧
      Extends w w' ∧ ∀ len, w.customEncunitLen.lookup p.2 = some len → 0 < len ∧ len ≤ numRows := by
  obtain ⟨v, w₀, hget, hr⟩ := (Act.returns_bind _ _ _ _ _).1 hr
  obtain ⟨rfl, rfl⟩ := (Act.returns_get _ _ _).1 hget
  rw [encodedArrays]
  cases hlen : w.customEncunitLen.lookup p.2 with
  | none =>
      rw [hlen] at hr
      obtain ⟨hlogged, hext⟩ := h.encodeArray hr
      exact ⟨hlogged, hext, fun len hsome => nomatch hsome⟩
  | some len =>
      rw [hlen] at hr
      dsimp only at hr ⊢
      split at hr
      · exact absurd hr (Act.returns_throw _ _ _ _)
      · next hshort =>
          split at hr
          · exact absurd hr (Act.returns_throw _ _ _ _)
          · next hzero =>
              have hloop := Act.forEach_invariant _
                (fun (js : List Nat) u => Logged env o n (addArrays cols p.2 (js.map fun j =>
                  p.1.slice (j * len) (min len (p.1.len - j * len)))) u ∧ Extends w u)
                _ [] w w' () (fun js j u u' hu hr' _ => by
                  obtain ⟨hlogged, hext⟩ := hu.1.encodeArray hr'
                  rw [addArrays_append] at hlogged
                  rw [List.map_append]
                  exact ⟨hlogged, hu.2.trans hext⟩)
                ⟨by rw [List.map_nil, addArrays_nil]; exact h, .refl w⟩ hr
              rw [List.nil_append] at hloop
              refine ⟨hloop.1, hloop.2, fun len' hsome => ?_⟩
              cases hsome
              exact ⟨Nat.pos_of_ne_zero hzero, Nat.le_of_not_lt hshort⟩

/-- The entries of a list with their positions, of which one position is kept. -/
theorem flatMap_zipIdx {α β : Type} (f : α × Nat → List β) (k : Nat) (xs : List α) :
    (xs.zipIdx.flatMap fun p => if p.2 = k then f p else []) =
      match xs[k]? with
      | some x => f (x, k)
      | none => [] := by
  induction xs using List.reverseRecOn with
  | nil => rfl
  | append_singleton xs x ih =>
      rw [List.zipIdx_append, List.flatMap_append, ih, List.zipIdx_singleton,
        List.flatMap_singleton, Nat.zero_add]
      rcases Nat.lt_trichotomy k xs.length with hlt | heq | hgt
      · rw [List.getElem?_append_left hlt, if_neg (Nat.ne_of_gt hlt), List.append_nil]
      · subst heq
        rw [List.getElem?_append_right (Nat.le_refl _), Nat.sub_self,
          List.getElem?_eq_none (Nat.le_refl _), if_pos rfl]
        rfl
      · rw [List.getElem?_eq_none (Nat.le_of_lt hgt), if_neg (Nat.ne_of_lt hgt),
          List.getElem?_eq_none (by rw [List.length_append, List.length_singleton]; omega)]
        rfl

/-- The columns of a batch. -/
theorem Logged.writeColumns (h : Logged env o n cols w) {b : RecordBatch}
    (hr : Act.Returns (Act.forEach (FileWriter.writeColumn env b.numRows) b.columns.zipIdx) w ()
      w') :
    Logged env o n (fun k => cols k ++ b.arraysOf w.customEncunitLen k) w' ∧ Extends w w' ∧
      b.Accepted w.customEncunitLen := by
  have hloop := Act.forEach_invariant _
    (fun (ps : List (ArrayRef × Nat)) u => (Logged env o n (fun k => cols k ++ ps.flatMap fun p =>
        if p.2 = k then encodedArrays w.customEncunitLen b.numRows p else []) u ∧ Extends w u) ∧
      ∀ p ∈ ps, ∀ len, w.customEncunitLen.lookup p.2 = some len → 0 < len ∧ len ≤ b.numRows)
    _ [] w w' () (fun ps p u u' hu hr' _ => by
      obtain ⟨⟨hlogged, hext⟩, hall⟩ := hu
      have hlens : u.customEncunitLen = w.customEncunitLen :=
        congrArg Fixed.customEncunitLen hext.fixed
      obtain ⟨hlogged', hext', hp⟩ := hlogged.writeColumn hr'
      rw [hlens] at hlogged' hp
      refine ⟨⟨?_, hext.trans hext'⟩, ?_⟩
      · have hcols : addArrays (fun k => cols k ++ ps.flatMap fun p =>
            if p.2 = k then encodedArrays w.customEncunitLen b.numRows p else []) p.2
              (encodedArrays w.customEncunitLen b.numRows p) =
            fun k => cols k ++ (ps ++ [p]).flatMap fun p =>
              if p.2 = k then encodedArrays w.customEncunitLen b.numRows p else [] := by
          funext k
          rw [addArrays, List.flatMap_append, List.flatMap_singleton]
          by_cases hk : k = p.2
          · rw [if_pos hk, if_pos hk.symm, List.append_assoc]
          · rw [if_neg hk, if_neg fun hpk => hk hpk.symm, List.append_nil]
        rw [← hcols]
        exact hlogged'
      · intro q hq
        rcases List.mem_append.1 hq with hq | hq
        · exact hall q hq
        · rw [List.mem_singleton.1 hq]
          exact hp)
    ⟨⟨by simpa using h, .refl w⟩, fun p hp => by cases hp⟩ hr
  rw [List.nil_append] at hloop
  obtain ⟨⟨hlogged, hext⟩, hall⟩ := hloop
  refine ⟨?_, hext, ?_⟩
  · have hcols : (fun k => cols k ++ b.columns.zipIdx.flatMap fun p =>
        if p.2 = k then encodedArrays w.customEncunitLen b.numRows p else []) =
          fun k => cols k ++ b.arraysOf w.customEncunitLen k := by
      funext k
      rw [flatMap_zipIdx, RecordBatch.arraysOf]
      cases b.columns[k]? with
      | none => rfl
      | some c => rfl
    rw [← hcols]
    exact hlogged
  · intro i len hi hlen
    have hmem : (b.columns[i], i) ∈ b.columns.zipIdx :=
      List.mem_zipIdx_iff_getElem?.2 (List.getElem?_eq_getElem hi)
    exact hall _ hmem len hlen

/-- After `flush_pending_chunks` every array is in a chunk. -/
theorem Logged.flushPendingChunks (h : Logged env o n cols w)
    (hr : Act.Returns (flushPendingChunks env) w () w') :
    Logged env o n cols w' ∧ Extends w w' ∧
      ∀ i < n, ∃ flushed, ColumnState env o w' i flushed [] ∧ flushed.flatten = cols i := by
  obtain ⟨v, w₀, hget, hr⟩ := (Act.returns_bind _ _ _ _ _).1 hr
  obtain ⟨rfl, rfl⟩ := (Act.returns_get _ _ _).1 hget
  have hloop := Act.forEach_invariant _
    (fun (is : List Nat) u => (Logged env o n cols u ∧ Extends w u) ∧
      ∀ i ∈ is, ∃ flushed, ColumnState env o u i flushed [] ∧ flushed.flatten = cols i)
    _ [] w w' () (fun is i u u' hu hr' _ => by
      obtain ⟨⟨hlogged, hext⟩, hall⟩ := hu
      obtain ⟨res, u₁, hcall, -⟩ := (Act.returns_bind _ _ _ _ _).1 hr'
      have hi := hlogged.lt_of_callEncoder hcall
      obtain ⟨flushed, pending, hstate, hcols⟩ := hlogged.columns i hi
      obtain ⟨hext', hencoders, hmetas, hothers, contents, rest, ⟨hnil, hpost⟩, hnext⟩ :=
        returns_column (fun e s res t hb hx => finish_flat hb hx) hstate hr'
      have hcontents : (flushed ++ contents).flatten = cols i := by
        rw [List.flatten_append, hpost, hcols]
      rw [hnil] at hnext
      refine ⟨⟨⟨hencoders.trans hlogged.encoders, hmetas.trans hlogged.metadatas, ?_⟩,
        hext.trans hext'⟩, ?_⟩
      · intro k hk
        by_cases hki : k = i
        · subst hki
          exact ⟨_, [], hnext, by rw [List.append_nil]; exact hcontents⟩
        · obtain ⟨flushed', pending', hstate', hcols'⟩ := hlogged.columns k hk
          exact ⟨flushed', pending', hstate'.mono hext' (hothers k hki).1 (hothers k hki).2, hcols'⟩
      · intro k hk
        by_cases hki : k = i
        · subst hki
          exact ⟨_, hnext, hcontents⟩
        · rcases List.mem_append.1 hk with hk | hk
          · obtain ⟨flushed', hstate', hcols'⟩ := hall k hk
            exact ⟨flushed', hstate'.mono hext' (hothers k hki).1 (hothers k hki).2, hcols'⟩
          · exact absurd (List.mem_singleton.1 hk) hki)
    ⟨⟨h, .refl w⟩, fun i hi => by cases hi⟩ hr
  rw [List.nil_append] at hloop
  obtain ⟨⟨hlogged, hext⟩, hall⟩ := hloop
  exact ⟨hlogged, hext, fun i hi => hall i (List.mem_range.2 (h.encoders ▸ hi))⟩

end Steps

/-! ## Runs -/

/-- A finished row group: the chunks of its columns hold the arrays of its batches. -/
def GroupHolds (env : Env) (o : UnitOptions) (n : Nat) (lens : List (Nat × Nat)) (file : Bytes)
    (narrowed : List Nat) (g : RowGroupMetadata) (bs : List RecordBatch) : Prop :=
  g.colMetadatas.length = n ∧ ∀ i < n, ∃ m contents, g.colMetadatas[i]? = some m ∧
    List.Forall₂ (Recorded env o file narrowed) m.columnChunks contents ∧
      contents.flatten = bs.flatMap fun b => b.arraysOf lens i

theorem GroupHolds.mono {env : Env} {o : UnitOptions} {n : Nat} {lens : List (Nat × Nat)}
    {file file' : Bytes} {narrowed narrowed' : List Nat} {g : RowGroupMetadata}
    {bs : List RecordBatch} (h : GroupHolds env o n lens file narrowed g bs)
    (hfile : ∃ more, file' = file ++ more) (hnarrowed : ∀ v ∈ narrowed, v ∈ narrowed') :
    GroupHolds env o n lens file' narrowed' g bs := by
  refine ⟨h.1, fun i hi => ?_⟩
  obtain ⟨m, contents, hm, hrecorded, hcontents⟩ := h.2 i hi
  exact ⟨m, contents, hm, hrecorded.imp fun _ _ hr => hr.mono hfile hnarrowed, hcontents⟩

/-- The rows of every prefix of the batches of a row group are counted as they are. -/
def CountsRows (narrowed : List Nat) (bs : List RecordBatch) : Prop :=
  (∀ v ∈ narrowed, v < 2 ^ 32) → recordedRows bs = (bs.map RecordBatch.numRows).sum ∧
    ∀ b ∈ bs, b.numRows < 2 ^ 32

theorem CountsRows.snoc {narrowed narrowed' : List Nat} {bs : List RecordBatch} {b : RecordBatch}
    (h : CountsRows narrowed bs) (hnarrowed : ∀ v ∈ narrowed, v ∈ narrowed')
    (hrows : b.numRows ∈ narrowed') (hsum : recordedRows bs + b.numRows ∈ narrowed') :
    CountsRows narrowed' (bs ++ [b]) := by
  intro hfit
  obtain ⟨hcount, hall⟩ := h fun v hv => hfit v (hnarrowed v hv)
  refine ⟨?_, fun c hc => ?_⟩
  · rw [recordedRows_snoc, u32_of_lt (hfit _ hrows), u32_of_lt (hfit _ hsum), hcount,
      List.map_append, List.sum_append]
    rfl
  · rcases List.mem_append.1 hc with hc | hc
    · exact hall c hc
    · rw [List.mem_singleton.1 hc]
      exact hfit _ hrows

/-- What a writer has after some batches: the finished row groups, and the
columns and the row count of the one in progress. -/
structure Holds (env : Env) (o : UnitOptions) (parts : Fixed) (w : FileWriter)
    (groups : Groups RecordBatch) : Prop where
  fixed : w.fixed = parts
  context : w.sharedDictionaryContext.isMultiColSharing = false ∧
    w.sharedDictionaryContext.dictionaries = []
  current : Logged env o parts.numPhysicalColumns
    (fun i => groups.current.flatMap fun b => b.arraysOf parts.customEncunitLen i) w
  numRows : w.state.numRowsInCurRowGroup = recordedRows groups.current
  closed : List.Forall₂ (GroupHolds env o parts.numPhysicalColumns parts.customEncunitLen w.file
    w.state.narrowed) w.state.rowGroupsTable.rowGroupMetadata groups.closed
  rowCounts : w.state.rowGroupsTable.rowCounts = groups.closed.map recordedRows
  counts : ∀ bs ∈ groups.all, CountsRows w.state.narrowed bs
  accepted : ∀ b ∈ groups.all.flatten, b.Accepted parts.customEncunitLen

section Runs

variable {env : Env} {o : UnitOptions} {parts : Fixed} {w w' : FileWriter}
  {groups : Groups RecordBatch}

/-- Writing more chunks of the row group in progress. -/
theorem Holds.extend (h : Holds env o parts w groups) (hext : Extends w w')
    (hcurrent : Logged env o parts.numPhysicalColumns
      (fun i => groups.current.flatMap fun b => b.arraysOf parts.customEncunitLen i) w') :
    Holds env o parts w' groups where
  fixed := hext.fixed.trans h.fixed
  context := by
    rw [hext.context]
    exact h.context
  current := hcurrent
  numRows := hext.numRows.trans h.numRows
  closed := by
    rw [hext.table]
    exact h.closed.imp fun _ _ hg => hg.mono hext.file hext.narrowed
  rowCounts := by
    rw [hext.table]
    exact h.rowCounts
  counts := fun bs hbs hfit => h.counts bs hbs fun v hv => hfit v (hext.narrowed v hv)
  accepted := h.accepted

theorem Holds.flushPendingChunks (h : Holds env o parts w groups)
    (hr : Act.Returns (FileWriter.flushPendingChunks env) w () w') :
    Holds env o parts w' groups ∧ ∀ i < parts.numPhysicalColumns, ∃ flushed,
      ColumnState env o w' i flushed [] ∧
        flushed.flatten = groups.current.flatMap fun b => b.arraysOf parts.customEncunitLen i := by
  obtain ⟨hlogged, hext, hall⟩ := h.current.flushPendingChunks hr
  exact ⟨h.extend hext hlogged, hall⟩

/-- A step on the write state that cannot fail. -/
theorem returns_onState_ok {f : FileWriteState → FileWriteState}
    (hr : Act.Returns (onState fun s => .ok (f s)) w () w') : w' = { w with state := f w.state } := by
  obtain ⟨s, hs, rfl⟩ := returns_onState hr
  cases hs
  rfl

/-- Pending chunks are flushed and the row group is finished. -/
theorem Holds.finishRowGroup (h : Holds env o parts w groups)
    (hr : Act.Returns (do
      FileWriter.flushPendingChunks env
      onState fun s => .ok s.finishRowGroup) w () w') :
    Holds env o parts w' ⟨groups.closed ++ [groups.current], []⟩ := by
  obtain ⟨_, w₁, hflush, hfinish⟩ := (Act.returns_bind _ _ _ _ _).1 hr
  obtain ⟨h₁, hall⟩ := h.flushPendingChunks hflush
  have hw' := returns_onState_ok hfinish
  subst hw'
  have hcols : w₁.state.numPhysicalColumns = parts.numPhysicalColumns :=
    congrArg Fixed.numPhysicalColumns h₁.fixed
  refine ⟨h₁.fixed, h₁.context, ⟨h₁.current.encoders, ?_, ?_⟩, rfl, ?_, ?_, ?_, ?_⟩
  · show (List.replicate w₁.state.numPhysicalColumns ColumnMetadata.empty).length = _
    rw [List.length_replicate, hcols]
  · intro i hi
    obtain ⟨flushed, hstate, -⟩ := hall i hi
    refine ⟨[], [], ⟨hstate.encoder, .empty, ?_, .nil⟩, rfl⟩
    show (List.replicate w₁.state.numPhysicalColumns ColumnMetadata.empty)[i]? = _
    rw [List.getElem?_replicate, if_pos (by omega)]
  · -- the row group just finished comes last
    show List.Forall₂ _ (w₁.state.rowGroupsTable.rowGroupMetadata ++
      [⟨w₁.state.columnMetadatasInCurRowGroup⟩]) _
    have hnarrowed : ∀ v ∈ w₁.state.narrowed, v ∈ w₁.state.finishRowGroup.narrowed :=
      fun v hv => List.mem_append_left _ hv
    have hfile : ∃ more, w₁.file = w₁.file ++ more := ⟨[], (List.append_nil _).symm⟩
    have hlast : GroupHolds env o parts.numPhysicalColumns parts.customEncunitLen w₁.file
        w₁.state.narrowed ⟨w₁.state.columnMetadatasInCurRowGroup⟩ groups.current := by
      refine ⟨h₁.current.metadatas, fun i hi => ?_⟩
      obtain ⟨flushed, hstate, hflushed⟩ := hall i hi
      obtain ⟨m, hm, hrecorded⟩ := hstate.chunks
      exact ⟨m, flushed, hm, hrecorded, hflushed⟩
    exact List.rel_append (h₁.closed.imp fun _ _ hg => hg.mono hfile hnarrowed)
      (.cons (hlast.mono hfile hnarrowed) .nil)
  · show w₁.state.rowGroupsTable.rowCounts ++ [w₁.state.numRowsInCurRowGroup] = _
    rw [h₁.rowCounts, h₁.numRows, List.map_append]
    rfl
  · intro bs hbs hfit
    have hfit' : ∀ v ∈ w₁.state.narrowed, v < 2 ^ 32 :=
      fun v hv => hfit v (List.mem_append_left _ hv)
    rcases List.mem_append.1 hbs with hbs | hbs
    · exact h₁.counts bs hbs hfit'
    · rw [List.mem_singleton.1 hbs]
      exact ⟨rfl, fun b hb => by cases hb⟩
  · intro b hb
    refine h₁.accepted b ?_
    simpa [Groups.all] using hb

/-- A batch whose columns are written is counted. -/
theorem Holds.addBatch (h : Holds env o parts w groups) {b : RecordBatch} (hext : Extends w w')
    (hcurrent : Logged env o parts.numPhysicalColumns (fun i => (groups.current ++ [b]).flatMap
      fun b => b.arraysOf parts.customEncunitLen i) w')
    (haccepted : b.Accepted parts.customEncunitLen) :
    Holds env o parts { w' with state := w'.state.addRows b.numRows }
      ⟨groups.closed, groups.current ++ [b]⟩ := by
  have hadded : ∀ v ∈ w'.state.narrowed, v ∈ (w'.state.addRows b.numRows).narrowed :=
    fun v hv => List.mem_append_left _ hv
  have hnarrowed : ∀ v ∈ w.state.narrowed, v ∈ (w'.state.addRows b.numRows).narrowed :=
    fun v hv => hadded v (hext.narrowed v hv)
  have hfile : ∃ more, w'.file = w'.file ++ more := ⟨[], (List.append_nil _).symm⟩
  refine ⟨hext.fixed.trans h.fixed, ?_, ⟨hcurrent.encoders, hcurrent.metadatas, ?_⟩, ?_, ?_, ?_, ?_,
    ?_⟩
  · rw [hext.context]
    exact h.context
  · intro i hi
    obtain ⟨flushed, pending, hstate, hcols⟩ := hcurrent.columns i hi
    refine ⟨flushed, pending, ⟨hstate.encoder, ?_⟩, hcols⟩
    obtain ⟨m, hm, hrecorded⟩ := hstate.chunks
    exact ⟨m, hm, hrecorded.imp fun _ _ hr => hr.mono hfile hadded⟩
  · show u32 (w'.state.numRowsInCurRowGroup + u32 b.numRows) = _
    rw [hext.numRows, h.numRows, recordedRows_snoc]
  · show List.Forall₂ _ w'.state.rowGroupsTable.rowGroupMetadata _
    rw [hext.table]
    exact h.closed.imp fun _ _ hg => hg.mono hext.file hnarrowed
  · show w'.state.rowGroupsTable.rowCounts = _
    rw [hext.table]
    exact h.rowCounts
  · intro bs hbs
    rcases List.mem_append.1 hbs with hbs | hbs
    · intro hfit
      exact h.counts bs (List.mem_append_left _ hbs) fun v hv => hfit v (hnarrowed v hv)
    · rw [List.mem_singleton.1 hbs]
      refine (h.counts groups.current (List.mem_append_right _ (List.mem_singleton_self _))).snoc
        hnarrowed (List.mem_append_right _ (by simp)) (List.mem_append_right _ ?_)
      rw [hext.numRows, h.numRows]
      simp
  · intro c hc
    have hc' : c ∈ groups.all.flatten ∨ c = b := by simpa [Groups.all, or_assoc] using hc
    rcases hc' with hc' | rfl
    · exact h.accepted c hc'
    · exact haccepted

/-- **One batch.** -/
theorem Holds.writeBatch (h : Holds env o parts w groups) {b : RecordBatch}
    (hr : Act.Returns (FileWriter.writeBatch env b) w () w') :
    Holds env o parts w' (groups.add (groupFull parts.rowGroupSize) b) := by
  obtain ⟨_, w₁, hcolumns, hr⟩ := (Act.returns_bind _ _ _ _ _).1 hr
  obtain ⟨_, w₂, hrows, hr⟩ := (Act.returns_bind _ _ _ _ _).1 hr
  obtain ⟨v, w₀, hget, hr⟩ := (Act.returns_bind _ _ _ _ _).1 hr
  obtain ⟨rfl, rfl⟩ := (Act.returns_get _ _ _).1 hget
  obtain ⟨hlogged, hext, haccepted⟩ := h.current.writeColumns hcolumns
  have hlens : w.customEncunitLen = parts.customEncunitLen :=
    congrArg Fixed.customEncunitLen h.fixed
  rw [hlens] at hlogged haccepted
  have hcols : (fun i => (groups.current.flatMap fun b => b.arraysOf parts.customEncunitLen i) ++
      b.arraysOf parts.customEncunitLen i) =
        fun i => (groups.current ++ [b]).flatMap fun b => b.arraysOf parts.customEncunitLen i := by
    funext i
    rw [List.flatMap_append, List.flatMap_singleton]
  rw [hcols] at hlogged
  have hadded := h.addBatch hext hlogged haccepted
  rw [← returns_onState_ok hrows] at hadded
  have hsize : w₂.rowGroupSize = parts.rowGroupSize := congrArg Fixed.rowGroupSize hadded.fixed
  rw [hadded.numRows, hsize] at hr
  by_cases hfull : recordedRows (groups.current ++ [b]) ≥ parts.rowGroupSize
  · rw [if_pos hfull] at hr
    rw [Groups.add_of_full (decide_eq_true hfull)]
    exact hadded.finishRowGroup hr
  · rw [if_neg hfull] at hr
    rw [Groups.add_of_not_full (decide_eq_false hfull)]
    obtain ⟨-, rfl⟩ := (Act.returns_pure _ _ _ _).1 hr
    exact hadded

/-- **A run of calls.** -/
theorem Holds.calls (h : Holds env o parts w groups) {cs : List Call}
    (hr : Act.Returns (FileWriter.calls env cs) w () w') :
    Holds env o parts w' ((batches cs).foldl (Groups.add (groupFull parts.rowGroupSize)) groups) := by
  induction cs generalizing w groups with
  | nil =>
      have hsame := (Act.returns_forEach_nil _ _ _ _).1 hr
      rw [← hsame]
      exact h
  | cons c cs ih =>
      obtain ⟨w₁, hcall, hrest⟩ := (Act.returns_forEach_cons _ _ _ _ _ _).1 hr
      cases c with
      | writeBatch b => exact ih (h.writeBatch hcall) hrest
      | flushPendingChunks => exact ih (h.flushPendingChunks hcall).1 hrest

end Runs

/-! ## From a new writer to the finished file -/

section Files

variable {env : Env} {schema : List Field} {options : FileWriterOptions} {cs : List Call}
  {w w₁ : FileWriter} {sec : Sections} {p : PostscriptValues}

theorem createLogicalEncoders_flat {o : EncoderOptions} (hplain : o.dictionaryType.isPlain = true) :
    ∀ {schema : List Field} {start : Nat} {r : List LogicalColEncoder × List LogicalTree × Nat},
      flatSchema schema = true → createLogicalEncoders o schema start = .ok r →
        r.1 = (List.range' start schema.length).map fun i => .flat (.encoderDict (.new
          o.maxChunkSize o.wasmContext o.dictionaryType.enablesDict o.compressionType)) i
  | [], start, r, _, h => by
      cases h
      rfl
  | f :: fs, start, r, hflat, h => by
      obtain ⟨htype, hrest⟩ := flatSchema_cons.1 hflat
      obtain ⟨name, dataType, nullable⟩ := f
      cases dataType with
      | list child => cases htype
      | largeList child => cases htype
      | struct children => cases htype
      | prim t =>
          have ht : t.nonNest = true := htype
          have hphysical : o.physical (.prim t) = .ok (.encoderDict (.new o.maxChunkSize
              o.wasmContext o.dictionaryType.enablesDict o.compressionType)) := by
            cases hd : o.dictionaryType with
            | noDictionary =>
                simp only [EncoderOptions.physical, createPhysicalEncoder, ht, if_true, hd,
                  DictionaryTypeOptions.enablesDict]
            | encoderDictionary =>
                simp only [EncoderOptions.physical, createPhysicalEncoder, ht, if_true, hd,
                  DictionaryTypeOptions.enablesDict]
            | _ =>
                rw [hd] at hplain
                cases hplain
          simp only [createLogicalEncoders, createLogicalEncoder, createLogicalEncoderOf, ht,
            if_true, hphysical, ok_bind, bind_eq_ok, pure_eq_ok, Except.ok.injEq] at h
          obtain ⟨r', hr', rfl⟩ := h
          have ih := createLogicalEncoders_flat hplain hrest hr'
          dsimp only
          rw [ih, List.length_cons, List.range'_succ, List.map_cons]

/-- A new writer has nothing. -/
theorem holds_tryNew (hflat : flatSchema schema = true)
    (hplain : options.dictionaryType.isPlain = true) (h : tryNew env schema options = .ok w) :
    Holds env (options.units env)
      ⟨schema, options.customEncunitLen, options.rowGroupSize, schema.length⟩ w .empty := by
  have hfixed := fixed_tryNew hflat h
  have hcols : w.state.numPhysicalColumns = schema.length :=
    congrArg Fixed.numPhysicalColumns hfixed
  simp only [tryNew, bind_eq_ok, pure_eq_ok, Except.ok.injEq] at h
  obtain ⟨r, hr, rfl⟩ := h
  have hencoders := createLogicalEncoders_flat hplain hflat hr
  have hmetas : (List.replicate r.2.2 ColumnMetadata.empty).length = schema.length := by
    rw [List.length_replicate]
    exact hcols
  have hmulti : options.dictionaryType.isMultiColSharing = false := by
    cases hd : options.dictionaryType with
    | noDictionary => rfl
    | encoderDictionary => rfl
    | _ =>
        rw [hd] at hplain
        cases hplain
  refine ⟨hfixed, ⟨hmulti, rfl⟩, ⟨?_, hmetas, ?_⟩, rfl, .nil, rfl, ?_, ?_⟩
  · show r.1.length = _
    rw [hencoders, List.length_map, List.length_range']
  · intro i hi
    have hencoder : r.1[i]? = some (.flat (.encoderDict (.new options.iounitSize
        (options.wasmContext env) options.dictionaryType.enablesDict options.compressionType)) i) := by
      rw [hencoders, List.getElem?_map, List.getElem?_range' hi, Option.map_some, Nat.zero_add,
        Nat.one_mul]
    refine ⟨[], [], ⟨⟨_, hencoder, rfl, chunkOf_default⟩, .empty, ?_, .nil⟩, rfl⟩
    show (List.replicate r.2.2 ColumnMetadata.empty)[i]? = _
    rw [List.length_replicate] at hmetas
    rw [List.getElem?_replicate, if_pos (hmetas ▸ hi)]
  · intro bs hbs
    rw [List.mem_singleton.1 hbs]
    exact fun _ => ⟨rfl, fun b hb => by cases hb⟩
  · intro b hb
    cases hb

/-- What the file of a run without dictionaries holds: the row groups of its
batches, and no shared dictionary. -/
structure FlatWritten (env : Env) (options : FileWriterOptions) (n : Nat) (w : FileWriter)
    (sec : Sections) (rowGroups : List (List RecordBatch)) : Prop where
  groups : List.Forall₂ (GroupHolds env (options.units env) n options.customEncunitLen w.file
    w.state.narrowed) w.state.rowGroupsTable.rowGroupMetadata rowGroups
  rowCounts : w.state.rowGroupsTable.rowCounts = rowGroups.map recordedRows
  counts : ∀ bs ∈ rowGroups, CountsRows w.state.narrowed bs
  accepted : ∀ b ∈ rowGroups.flatten, b.Accepted options.customEncunitLen
  noDictionaries : sec.dictChunks.flatten = [] ∧ sec.dictPositions = [] ∧ sec.dictDtypes = []

/-- **The file of a finished run.** -/
theorem FinishesWith.flatWritten (h : FinishesWith env schema options cs w w₁ sec p)
    (hflat : flatSchema schema = true) (hplain : options.dictionaryType.isPlain = true) :
    FlatWritten env options schema.length w sec (rowGroupsOf options (batches cs)) := by
  obtain ⟨wend, ⟨w₀, hnew, hcalls⟩, hgroups⟩ := h.rowGroups
  have hend := (holds_tryNew hflat hplain hnew).calls hcalls
  -- there are no dictionaries to submit
  obtain ⟨_, w₂, hsubmit, hlast⟩ := (Act.returns_bind _ _ _ _ _).1 hgroups
  have hsame : w₂ = wend := by
    obtain ⟨v, w₃, hget, hrest⟩ := (Act.returns_bind _ _ _ _ _).1 hsubmit
    obtain ⟨rfl, rfl⟩ := (Act.returns_get _ _ _).1 hget
    rw [hend.context.1] at hrest
    exact ((Act.returns_pure _ _ _ _).1 hrest).2.symm
  subst hsame
  have hfinal := hend.finishRowGroup hlast
  obtain ⟨f, hf⟩ := writeSections_spec h.sections
  obtain ⟨sections, htable, -⟩ := hf.sections
  have hfile : ∃ more, w.file = w₁.file ++ more := by
    refine ⟨f.dictionaries ++ f.wasms ++ f.wasmTable ++
      (f.metadata ++ (f.footer ++ f.postscript)), ?_⟩
    rw [file, file, hf.file, FileParts.bytes, FileParts.data, hf.rowGroups]
    simp only [List.append_assoc]
  refine ⟨?_, ?_, ?_, ?_, ?_⟩
  · rw [htable]
    exact hfinal.closed.imp fun _ _ hg => hg.mono hfile hf.narrowed
  · rw [htable]
    exact hfinal.rowCounts
  · intro bs hbs hfit
    exact hfinal.counts bs (List.mem_append_left _ hbs) fun v hv => hfit v (hf.narrowed v hv)
  · intro b hb
    refine hfinal.accepted b ?_
    rw [Groups.all, List.flatten_append]
    exact List.mem_append_left _ hb
  · obtain ⟨css, peers, hflush, -, hchunks, hpositions, -⟩ := hf.dictionaries
    rw [SharedDictionaryContext.finishAndFlush, hfinal.context.2] at hflush
    have hnothing : css = [] ∧ peers = [] ∧ sec.dictDtypes = [] := by
      simpa [collect, eq_comm] using hflush
    obtain ⟨rfl, rfl, hdtypes⟩ := hnothing
    have hnowhere : sec.dictPositions = [] := by
      simpa [FileWriter.dictPositions, dictStartIdx, collect, eq_comm] using hpositions
    exact ⟨hchunks, hnowhere, hdtypes⟩

end Files

end FileWriter

end F3Format
