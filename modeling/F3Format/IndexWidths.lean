import F3Format.FlatReading
import F3Format.StoredDictionaries

/-!
# Index widths

The encoder narrows the indices of a scope to the smallest type for the length that
the dictionary has when the scope is closed. The decoder expects the type for the
length of the dictionary it has put together from the file, or of a placeholder. A
closed scope's dictionary is settled, so both lengths are the same, or both types
are `UInt8` (`index_widths_agree`).
-/

set_option autoImplicit false

namespace F3Format

open Lib SharedDictionaryContext

/-! ## Indices -/

/-- Indices below `n`, with nulls anywhere. -/
def IndicesBelow (n : Nat) (is : List (Option Nat)) : Prop := ∀ i, some i ∈ is → i < n

/-- The rows of an array of indices. -/
def indexRows (is : List (Option Nat)) : List (Option Scalar) := is.map fun o => o.map indexScalar

/-- The dictionary array that was read has the index width of a dictionary of `n`
values, and every index array of that dictionary is narrowed without loss and looked
up in it. -/
structure ReadableAt (n : Nat) (dict : ArrayRef) : Prop where
  width : expectedIndexType dict.len = indexDtype n
  lossless : ∀ is, IndicesBelow n is →
    castIndexDtype (.prim .uint64 (indexRows is)) n = .prim (indexDtype n) (indexRows is)
  inRange : ∀ is, IndicesBelow n is → IndicesBelow dict.len is
  lookups : ∀ is, IndicesBelow n is → ∃ t,
    dictIndexToData dict (castIndexDtype (.prim .uint64 (indexRows is)) n) =
      .ok (.prim t (is.map fun o => o.bind fun i => (dict.rows[i]?).join))

section Lookups

variable {n : Nat} {is : List (Option Nat)}

theorem castIndexDtype_indexRows (h : IndicesBelow n is) :
    castIndexDtype (.prim .uint64 (indexRows is)) n = .prim (indexDtype n) (indexRows is) := by
  unfold castIndexDtype
  dsimp only
  rw [ArrayRef.rows_prim, indexRows, List.map_map]
  congr 1
  apply List.map_congr_left
  intro o ho
  cases o with
  | none => rfl
  | some i => exact congrArg some (castIndexValue_of_lt (h i ho))

theorem collect_lookupIndex_indexRows {t : PrimType} {dict : List (Option Scalar)}
    (h : ∀ i, some i ∈ is → ∃ v, dict[i]? = some (some v)) :
    collect (lookupIndex t dict) (indexRows is) =
      .ok (is.map fun o => o.bind fun i => (dict[i]?).join) := by
  rw [indexRows, collect_eq_ok_iff, List.forall₂_map_left_iff, List.forall₂_map_right_iff,
    List.forall₂_same]
  intro o ho
  cases o with
  | none => rfl
  | some i =>
      obtain ⟨v, hv⟩ := h i ho
      rw [Option.map_some, indexScalar, lookupIndex, Int.toNat_natCast, dictValue, Option.bind_some,
        hv]
      rfl

/-- **A dictionary that is read back is readable at its length.** -/
theorem readableAt_readBack (d : Dictionary) : ReadableAt d.len d.readBack := by
  have hlen : d.len = d.values.length := len_eq_values_length d
  by_cases hnil : d.values = []
  · -- the placeholder has one row, and no index refers to it
    have hzero : d.len = 0 := by rw [hlen, hnil, List.length_nil]
    rw [Dictionary.readBack, if_pos hnil]
    refine ⟨by rw [hzero]; rfl, fun is h => castIndexDtype_indexRows h, ?_, ?_⟩
    · intro is h i hi
      have hlt := h i hi
      omega
    · intro is h
      refine ⟨.int32, ?_⟩
      have hlookup : collect (lookupIndex .int32 [none]) (indexRows is) =
          .ok (is.map fun o => o.bind fun i => (([none] : List (Option Scalar))[i]?).join) :=
        collect_lookupIndex_indexRows fun i hi => absurd (h i hi) (by omega)
      rw [castIndexDtype_indexRows h, hzero]
      show (collect (lookupIndex .int32 [none]) (indexRows is) >>= fun values => _) = _
      rw [hlookup]
      rfl
  · have hback : d.readBack = .prim d.datatype.decodedDict (d.values.map some) := if_neg hnil
    obtain ⟨hdown, harray⟩ := downcastType_decodedDict d.supported
    have hrows : d.readBack.len = d.len := by
      rw [hback, ArrayRef.len_prim, List.length_map, hlen]
    refine ⟨by rw [hrows]; rfl, fun is h => castIndexDtype_indexRows h, ?_, ?_⟩
    · intro is h
      rwa [hrows]
    · intro is h
      refine ⟨d.datatype.decodedDict, ?_⟩
      rw [castIndexDtype_indexRows h, hback, dictIndexToData, hdown]
      dsimp only
      have hvalues : ∀ i, some i ∈ is → ∃ v, (d.values.map some)[i]? = some (some v) := by
        intro i hi
        have hlt : i < d.values.length := hlen ▸ h i hi
        exact ⟨d.values.get ⟨i, hlt⟩, by
          rw [List.getElem?_map, List.getElem?_eq_getElem hlt, Option.map_some,
            List.get_eq_getElem]⟩
      rw [if_neg (not_not_intro harray), List.length_map, ← hlen, expectedIndexType_eq,
        indexDowncast, if_pos rfl, collect_lookupIndex_indexRows hvalues]
      rfl

end Lookups

/-! ## The units of a scope -/

section Scopes

variable {env : Env}

/-- A chunk that carries a shared dictionary is a chunk of indices. -/
theorem PhysicalColEncoder.Method.indexChunk {p : PhysicalColEncoder}
    {x : EncAct PhysicalColEncoder (List EncodedColumnChunk)} (hx : p.Method env x)
    {s t : Working PhysicalColEncoder} {chunks : List EncodedColumnChunk} (hs : s.enc = p)
    (h : x s = .ok chunks t) (hplain : p.HoldsPlain) (hvalid : s.ctx.Valid)
    (hfit : s.ctx.dictionaries.length < 2 ^ 32) {c : EncodedColumnChunk} (hc : c ∈ chunks)
    {idx : Nat} (hidx : c.dictEncoding = .sharedDictionary idx) {d : Dictionary}
    (hd : t.ctx.dictionaries[idx]? = some d) : ∃ w, IndexChunk env w d c := by
  have hnone : (∀ c ∈ chunks, c.Plain) → ∃ w, IndexChunk env w d c :=
    fun hall => absurd hidx (hall c hc idx)
  cases hx with
  | encode array hsubmitted =>
      rw [PhysicalColEncoder.encode, Act.get_bind, hs] at h
      cases p with
      | encoderDict e =>
          obtain ⟨u, hu, rfl⟩ := delegate_eq_ok h
          exact hnone (EncoderDictColEncoder.encode_plain hu hplain).1
      | dict e =>
          obtain ⟨u, hu, rfl⟩ := delegate_eq_ok h
          exact hnone (DictColEncoder.encode_plain hu hplain).1
      | glBest e =>
          obtain ⟨u, hu, rfl⟩ := delegate_eq_ok h
          rw [GLBestEncoder.encode_run] at hu
          split at hu
          · cases hu
          · cases hu
            cases hc
      | sharedDict e =>
          obtain ⟨u, hu, rfl⟩ := delegate_eq_ok h
          rw [SharedDictColEncoder.encode_run] at hu
          split at hu
          · cases hu
          · split at hu
            · exact ⟨_, .scope rfl hvalid hfit hu hc hidx hd⟩
            · cases hu
              cases hc
  | finish =>
      rw [PhysicalColEncoder.finish, Act.get_bind, hs] at h
      cases p with
      | encoderDict e =>
          obtain ⟨u, hu, rfl⟩ := delegate_eq_ok h
          exact hnone (EncoderDictColEncoder.finish_plain hu hplain).1
      | dict e =>
          obtain ⟨u, hu, rfl⟩ := delegate_eq_ok h
          exact hnone (DictColEncoder.finish_plain hu hplain).1
      | glBest e =>
          obtain ⟨u, hu, rfl⟩ := delegate_eq_ok h
          exact ⟨_, .glBest rfl hfit hu hc hidx hd⟩
      | sharedDict e =>
          obtain ⟨u, hu, rfl⟩ := delegate_eq_ok h
          rw [SharedDictColEncoder.finish_run] at hu
          split at hu
          · cases hu
            cases hc
          · exact ⟨_, .scope rfl hvalid hfit hu hc hidx hd⟩

/-- The units of a scope are the narrowed indices of the dictionary. -/
theorem IndexChunk.narrowed {w : WASMWritingContext} {d : Dictionary} {c : EncodedColumnChunk}
    (h : IndexChunk env w d c) {u : SerializedEncUnit} (hu : u ∈ c.encunits) :
    ∃ is payload, IndicesBelow d.len is ∧
      unitPayload env w false (castIndexDtype (.prim .uint64 (indexRows is)) d.len) = .ok payload ∧
        compressData env payload u.compressionType = .ok u.bytes := by
  obtain ⟨vs, hunit⟩ := h.units hu
  obtain ⟨payload, hpayload, hbytes⟩ := hunit.encoded
  have hbelow : IndicesBelow d.len (vs.map fun o => o.map fun v => d.values.idxOf v) := by
    intro i hi
    obtain ⟨o, ho, hoi⟩ := List.mem_map.1 hi
    obtain ⟨v, rfl, rfl⟩ := Option.map_eq_some_iff.1 hoi
    exact List.idxOf_lt_length_of_mem (hunit.covers v ho)
  refine ⟨vs.map fun o => o.map fun v => d.values.idxOf v, payload, hbelow, ?_, hbytes⟩
  have hrows : indexRows (vs.map fun o => o.map fun v => d.values.idxOf v) =
      indicesOf d.values vs := by
    rw [indexRows, indicesOf, List.map_map]
    refine List.map_congr_left fun o _ => ?_
    exact Option.map_map ..
  rw [castIndexDtype_indexRows hbelow, hrows, len_eq_values_length]
  exact hpayload

end Scopes

/-! ## Runs -/

/-- A run from `a` to `b` makes the call. -/
structure Steps.Makes (env : Env) (a b : Point) (e : CallEvent) : Prop where
  runs : e.Runs env
  between : ∃ pre post pending s s',
    Steps env AnyCall a ⟨pre ++ e.leaf :: post, pending, s, e.before.ctx⟩ ∧
      Step env AnyCall ⟨pre ++ e.leaf :: post, pending, s, e.before.ctx⟩
        ⟨pre ++ e.left :: post, pending ++ stamp e.leaf.column e.chunks, s', e.after.ctx⟩ ∧
      Steps env AnyCall
        ⟨pre ++ e.left :: post, pending ++ stamp e.leaf.column e.chunks, s', e.after.ctx⟩ b

/-- The number of dictionaries and what the table says about their chunks fit 32 bits. -/
structure FileWriter.DictionariesFit (env : Env) (w : FileWriter) : Prop where
  count : w.sharedDictionaryContext.dictionaries.length < 2 ^ 32
  table : ∀ css peers dtypes,
    w.sharedDictionaryContext.finishAndFlush env w.wasmContext = .ok (css, peers, dtypes) →
      TableFits css

section Runs

variable {env : Env} {schema : List Field} {options : FileWriterOptions}
  {cs : List FileWriter.Call} {w w₁ : FileWriter} {sec : FileWriter.Sections}
  {p : FileWriter.PostscriptValues}

/-- The dictionaries of the writer are in the file. -/
theorem FileWriter.FinishesWith.storedIn (h : FinishesWith env schema options cs w w₁ sec p) :
    ∃ css peers,
      w₁.sharedDictionaryContext.StoredIn env w₁.wasmContext w.file sec css peers := by
  obtain ⟨f, hf⟩ := writeSections_spec h.sections
  obtain ⟨css, peers, hflushed, hbytes, hrecords, hpositions, -⟩ := hf.dictionaries
  refine ⟨css, peers, hflushed, hpositions, _, _, hrecords, ?_⟩
  show HoldsAt w.state.writer _ _
  rw [hf.file, FileParts.bytes, FileParts.data, ← hbytes]
  exact ⟨f.rowGroups, f.wasms ++ (f.wasmTable ++ (f.metadata ++ (f.footer ++ f.postscript))),
    by simp, rfl⟩

theorem FileWriter.FinishesWith.point_sound (h : FinishesWith env schema options cs w w₁ sec p)
    (hcount : w₁.sharedDictionaryContext.dictionaries.length < 2 ^ 32) :
    w₁.point.Sound := by
  obtain ⟨w₀, hnew, hsteps⟩ := h.steps
  exact (FileWriter.sound_point hnew).steps hsteps hcount

theorem FileWriter.FinishesWith.compressionType_eq
    (h : FinishesWith env schema options cs w w₁ sec p) :
    w₁.sharedDictionaryContext.compressionType = options.compressionType := by
  obtain ⟨w₀, hnew, hsteps⟩ := h.steps
  have hctx := hsteps.compressionType_eq
  rw [show w₀.point.ctx = _ from (FileWriter.tryNew_point hnew).2] at hctx
  exact hctx

/-- The dictionary of a chunk has its final length when the scope is closed. -/
theorem settled_of_makes {a b : Point} {e : CallEvent} (ha : a.Sound)
    (hcount : b.ctx.dictionaries.length < 2 ^ 32) (h : Steps.Makes env a b e)
    {c : EncodedColumnChunk} (hc : c ∈ e.chunks) {idx : Nat}
    (hidx : c.dictEncoding = .sharedDictionary idx) : ∃ d d' w,
      e.after.ctx.dictionaries[idx]? = some d ∧ b.ctx.dictionaries[idx]? = some d' ∧
        d'.len = d.len ∧ IndexChunk env w d c := by
  obtain ⟨pre, post, pending, s, s', hbefore, hstep, hafter⟩ := h.between
  have hfit' := Nat.lt_of_le_of_lt hafter.length_le hcount
  have hfit := Nat.lt_of_le_of_lt hstep.length_le hfit'
  have hsound := ha.steps hbefore hfit
  obtain ⟨d, hd, hsettled⟩ : ∃ d, e.after.ctx.dictionaries[idx]? = some d ∧
      Point.Settled idx d.len ⟨pre ++ e.left :: post, pending ++ stamp e.leaf.column e.chunks, s',
        e.after.ctx⟩ := hsound.settled h.runs hfit' hc hidx
  obtain ⟨d', hd', hlen⟩ := (hsettled.steps (hsound.step hstep hfit') hafter hcount).length
  obtain ⟨w, hindex⟩ := h.runs.method.indexChunk h.runs.encoder h.runs.returns
    (hsound.plain e.leaf (List.mem_append_right _ List.mem_cons_self)) hsound.valid hfit hc hidx hd
  exact ⟨d, d', w, hd, hd', hlen, hindex⟩

/-- **Writer and reader choose the same index width.** In every run, whatever the
scopes, the submissions and the merges are: each dictionary that is read back is
readable at the length it had when the indices were narrowed. -/
theorem index_widths_agree (laws : env.SerializationLaws)
    (h : FileWriter.FinishesWith env schema options cs w w₁ sec p)
    (hfit : w₁.DictionariesFit env) {reading : Option WASMReadingContext}
    (hcodec : w₁.sharedDictionaryContext.ReadsSlices env w₁.wasmContext reading) :
    (w₁.sharedDictionaryContext.DecodesSlices env w₁.wasmContext reading → ∃ cache,
      SharedDictionaryCache.tryNewReadAll env w.file (sec.dictionaryTable env) reading =
        .ok cache) ∧
    ∀ cache, SharedDictionaryCache.tryNewReadAll env w.file (sec.dictionaryTable env) reading =
        .ok cache →
      (∀ idx d, w₁.sharedDictionaryContext.dictionaries[idx]? = some d →
        ∃ dict, cache.getDict idx = some dict ∧ ReadableAt d.len dict) ∧
      ∀ w₀ e, FileWriter.tryNew env schema options = .ok w₀ →
        Steps.Makes env w₀.point w₁.point e →
          ∀ c ∈ e.chunks, ∀ idx, c.dictEncoding = .sharedDictionary idx → ∃ d dict,
            e.after.ctx.dictionaries[idx]? = some d ∧ cache.getDict idx = some dict ∧
              ReadableAt d.len dict ∧ ∀ u ∈ c.encunits, ∃ writing is payload,
                IndicesBelow d.len is ∧
                  unitPayload env writing false
                    (castIndexDtype (.prim .uint64 (indexRows is)) d.len) = .ok payload ∧
                  compressData env payload u.compressionType = .ok u.bytes := by
  obtain ⟨css, peers, hstored⟩ := h.storedIn
  have hmatched : w₁.sharedDictionaryContext.Matched := (h.point_sound hfit.count).matched
  have htable := hfit.table css peers _ hstored.flushed
  refine ⟨fun hdecodes => ?_, fun cache hcache => ?_⟩
  · obtain ⟨cache, hcache, -⟩ := hstored.tryNewReadAll_ok laws hmatched htable hdecodes
    exact ⟨cache, hcache⟩
  · have hdicts := hstored.tryNewReadAll_sound laws hmatched htable hcodec hcache
    have hget : ∀ idx d, w₁.sharedDictionaryContext.dictionaries[idx]? = some d →
        cache.getDict idx = some d.readBack := by
      intro idx d hd
      rw [SharedDictionaryCache.getDict, hdicts, List.getElem?_map, hd]
      rfl
    refine ⟨fun idx d hd => ⟨d.readBack, hget idx d hd, readableAt_readBack d⟩, ?_⟩
    intro w₀ e hnew hmakes c hc idx hidx
    obtain ⟨d, d', writing, hd, hd', hlen, hindex⟩ :=
      settled_of_makes (FileWriter.sound_point hnew) hfit.count hmakes hc hidx
    refine ⟨d, d'.readBack, hd, hget idx d' hd', hlen ▸ readableAt_readBack d', ?_⟩
    intro u hu
    obtain ⟨is, payload, hbelow, hpayload, hbytes⟩ := hindex.narrowed hu
    exact ⟨writing, is, payload, hbelow, hpayload, hbytes⟩

end Runs

/-! ## A run with an empty dictionary -/

namespace FileWriter

/-- The run succeeds, and its dictionaries fit. -/
def runDictionariesFit (env : Env) (schema : List Field) (options : FileWriterOptions)
    (cs : List Call) : Bool :=
  match run env schema options cs with
  | .error _ => false
  | .ok w =>
      decide (w.sharedDictionaryContext.dictionaries.length < 2 ^ 32) &&
        match w.sharedDictionaryContext.finishAndFlush env w.wasmContext with
        | .error _ => true
        | .ok r => decide (r.1.flatten.length < 2 ^ 32) &&
            r.1.flatten.all fun c => decide (c.bytes.length < 2 ^ 32)

theorem dictionariesFit_of_ok {env : Env} {schema : List Field} {options : FileWriterOptions}
    {cs : List Call} (h : runDictionariesFit env schema options cs = true) {w w₁ : FileWriter}
    {sec : Sections} {p : PostscriptValues} (hrun : run env schema options cs = .ok w)
    (hfin : FinishesWith env schema options cs w w₁ sec p) : w₁.DictionariesFit env := by
  -- `finish` leaves the context as it was when the sections were written
  have hctx : w₁.sharedDictionaryContext = w.sharedDictionaryContext := by rw [hfin.final]
  have hwasm : w₁.wasmContext = w.wasmContext := by rw [hfin.final]
  unfold runDictionariesFit at h
  rw [hrun] at h
  rw [Bool.and_eq_true, decide_eq_true_eq] at h
  refine ⟨by rw [hctx]; exact h.1, fun css peers dtypes hflush => ?_⟩
  have htable := h.2
  rw [← hctx, ← hwasm, hflush, Bool.and_eq_true, decide_eq_true_eq, List.all_eq_true] at htable
  exact ⟨htable.1, fun c hc => of_decide_eq_true (htable.2 c hc)⟩

theorem dictionariesFit_of_run {env : Env} {schema : List Field} {options : FileWriterOptions}
    {cs : List Call} (h : runDictionariesFit env schema options cs = true) :
    ∃ w w₁ sec p, FinishesWith env schema options cs w w₁ sec p ∧ w₁.DictionariesFit env := by
  cases hrun : run env schema options cs with
  | error f =>
      unfold runDictionariesFit at h
      rw [hrun] at h
      cases h
  | ok w =>
      obtain ⟨w₁, sec, p, hfin⟩ := finishes_iff.1 (finishes_of_run hrun)
      exact ⟨w, w₁, sec, p, hfin, dictionariesFit_of_ok h hrun hfin⟩

end FileWriter

namespace Sample

/-- Two columns; the second one has no values. -/
def nullSchema : List Field := [.mk "a" (.prim .int32) true, .mk "b" (.prim .int32) true]

/-- A batch of three rows. -/
def nullBatch : RecordBatch :=
  ⟨nullSchema, [.prim .int32 [some (.int 7), none, some (.int 8)],
    .prim .int32 [none, none, none]], 3, by decide⟩

/-- One dictionary for each column. -/
def dictionaryOptions : FileWriterOptions :=
  { FileWriterOptions.default with dictionaryType := .globalDictionary }

theorem nullDictionariesFit :
    FileWriter.runDictionariesFit env nullSchema dictionaryOptions [.writeBatch nullBatch] =
      true := by
  decide +kernel

end Sample

theorem index_widths_agree_sample : ∃ w w₁ sec p cache,
    FileWriter.FinishesWith Sample.env Sample.nullSchema Sample.dictionaryOptions
      [.writeBatch Sample.nullBatch] w w₁ sec p ∧
    SharedDictionaryCache.tryNewReadAll Sample.env w.file (sec.dictionaryTable Sample.env)
      (some ((FileReaderV2Builder.new w.file).contextOf sec)) = .ok cache ∧
    ∀ idx d, w₁.sharedDictionaryContext.dictionaries[idx]? = some d →
      ∃ dict, cache.getDict idx = some dict ∧ ReadableAt d.len dict := by
  obtain ⟨w, w₁, sec, p, hfin, hfit⟩ := FileWriter.dictionariesFit_of_run Sample.nullDictionariesFit
  have hwasm : w₁.wasmContext = .empty := by
    have hempty := hfin.wasmContext_eq
    rw [hfin.final] at hempty
    exact hempty
  have hcodec : w₁.sharedDictionaryContext.DecodesSlices Sample.env w₁.wasmContext
      (some ((FileReaderV2Builder.new w.file).contextOf sec)) :=
    hwasm ▸ decodesSlices_native Sample.roundTrips hfin.compressionType_eq (native_contextOf w.file sec)
  obtain ⟨hbuilt, hall⟩ := index_widths_agree Sample.serializationLaws hfin hfit hcodec.reads
  obtain ⟨cache, hcache⟩ := hbuilt hcodec
  exact ⟨w, w₁, sec, p, cache, hfin, hcache, (hall cache hcache).1⟩

end F3Format
