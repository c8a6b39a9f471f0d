import F3Format.BuilderStrategies
import F3Format.CustomUnitLengths
import F3Format.Lib.SortedKeys
import F3Format.WrittenFiles

/-!
# The ids of WASM binaries

A file stores the decoder binaries of its custom encodings in the order of their
ids, without the ids. A reader takes the position of a binary for its id:
`wasm_ids_resolve_iff` shows that each id is resolved to its own binary exactly if
the ids are the numbers below their count.
-/

set_option autoImplicit false

namespace F3Format

open Lib

open FileWriter FileReaderV2Builder

/-- The reading context that `build` makes. -/
def FileReaderV2Builder.openContext (env : Env) (b : FileReaderV2Builder) :
    Result (Option WASMReadingContext) := do
  let buffer ← b.readAheadBuffer
  let (_, parsed) ← b.openFooter env buffer
  b.wasmContext parsed

/-- **The id is that of the binary**: its runtime is the one of the binary, and units
labelled with it are decoded by that. -/
structure WASMReadingContext.Resolves (env : Env) (ctx : WASMReadingContext) (id : Nat)
    (binary : Bytes) : Prop where
  runtime : ctx.getRuntime env id = .ok binary
  units : ∀ (encoding : Fb.Encoding) (e : Fb.WASMEncoding) (compression : CompressionType)
    (data : Bytes) (numRows : Nat) (outputType : DataType), encoding.type_ = .customWasm →
      encoding.wasmEncoding = some e → e.wasmId = id →
        createEncunitDecoder env encoding compression data numRows outputType (some ctx) = do
          let data ← unitData env compression data
          pure (.wasm data binary outputType numRows)

section Resolving

variable {env : Env} {ctx : WASMReadingContext} {binaries : List Bytes}

/-- Units are decoded by the runtime of their label. -/
theorem WASMReadingContext.resolves_iff {id : Nat} {binary : Bytes} :
    ctx.Resolves env id binary ↔ ctx.getRuntime env id = .ok binary := by
  constructor
  · intro h
    exact h.runtime
  · intro h
    refine ⟨h, ?_⟩
    intro encoding e compression data numRows outputType htype he hid
    rw [createEncunitDecoder]
    cases unitData env compression data with
    | error f => rfl
    | ok data' =>
        rw [ok_bind, ok_bind, htype]
        show returnWasmDecoder env encoding data' outputType ctx numRows = _
        rw [returnWasmDecoder, he, okOr, ok_bind, hid, h, ok_bind]

/-- The runtimes of a file, by the positions of their binaries. -/
theorem loadWasms_eq {file : Bytes} {loc : MetadataSection} {table : Bytes}
    {sections : List Fb.MetadataSection}
    (htable : readExactAt file loc.offset loc.size = .ok table)
    (hroot : env.wasmBinariesFb.root table = .ok ⟨some sections⟩)
    (hall : List.Forall₂ (fun b (s : Fb.MetadataSection) =>
      readExactAt file s.offset s.size = .ok b) binaries sections)
    (versions : Option (List (EncodingType × Version))) :
    WASMReadingContext.loadWasms env ⟨none, some loc, some file, versions⟩ = (do
      let bins ← collect (fun b => if env.runtimeLoads b then .ok b
        else panicking "Runtime::try_new") binaries
      pure (byPosition bins)) := by
  have hbins : collect (fun (s : Fb.MetadataSection) => do
      let bin ← unwrap (readExactAt file s.offset s.size)
      if env.runtimeLoads bin then .ok bin else panicking "Runtime::try_new") sections =
        collect (fun b => if env.runtimeLoads b then .ok b else panicking "Runtime::try_new")
          binaries := by
    refine (collect_congr₂ (hall.imp fun b s hs => ?_)).symm
    rw [hs]
    rfl
  rw [WASMReadingContext.loadWasms]
  show (unwrap (readExactAt file loc.offset loc.size) >>= _) = _
  rw [htable]
  show (unwrap (liftErr (env.wasmBinariesFb.root table)) >>= _) = _
  rw [hroot]
  show (collect _ sections >>= _) = _
  rw [hbins]
  rfl

/-- Which ids are resolved to which runtimes. -/
theorem getRuntime_eq_ok {versions : Option (List (EncodingType × Version))} {file : Bytes}
    {loc : MetadataSection} (hload : WASMReadingContext.loadWasms env
        ⟨none, some loc, some file, versions⟩ = (do
      let bins ← collect (fun b => if env.runtimeLoads b then .ok b
        else panicking "Runtime::try_new") binaries
      pure (byPosition bins))) {id : Nat} {binary : Bytes} :
    WASMReadingContext.getRuntime env ⟨none, some loc, some file, versions⟩ id = .ok binary ↔
      (∀ b ∈ binaries, env.runtimeLoads b = true) ∧ binaries[id]? = some binary := by
  rw [WASMReadingContext.getRuntime]
  show (WASMReadingContext.loadWasms env ⟨none, some loc, some file, versions⟩ >>= _) = _ ↔ _
  rw [hload]
  by_cases hall : ∀ b ∈ binaries, env.runtimeLoads b = true
  · have hcollect : collect (fun b => if env.runtimeLoads b then .ok b
        else panicking "Runtime::try_new") binaries = .ok binaries := by
      refine collect_eq_ok_iff.2 (List.forall₂_same.2 fun b hb => ?_)
      rw [if_pos (hall b hb)]
    rw [hcollect, ok_bind, pure_eq_ok, ok_bind, unwrapSome_eq_ok, lookup_byPosition]
    exact (and_iff_right hall).symm
  · refine iff_of_false (fun h => hall fun b hb => ?_) fun h => hall h.1
    rw [bind_eq_ok] at h
    obtain ⟨wasms, hwasms, -⟩ := h
    rw [bind_eq_ok] at hwasms
    obtain ⟨bins, hbins, -⟩ := hwasms
    obtain ⟨b', hb'⟩ := exists_of_collect_ok hbins hb
    by_contra hnot
    rw [if_neg hnot] at hb'
    cases hb'

end Resolving

/-! ## Files -/

section Files

variable {env : Env} {schema : List Field} {options : FileWriterOptions} {cs : List Call}
  {w w₁ : FileWriter} {sec : Sections} {p : PostscriptValues} {f : FileParts}

/-- The context of a file is that of its section. -/
theorem openContext_eq (laws : env.SerializationLaws) (hf : Finished env w w₁ sec p f) :
    (FileReaderV2Builder.new w.file).openContext env =
      .ok (some ((FileReaderV2Builder.new w.file).contextOf sec)) := by
  rw [openContext, readAheadBuffer_eq, ok_bind, openFooter_eq laws hf rfl (fun hahead => Bool.noConfusion hahead),
    ok_bind]
  exact wasmContext_eq w

/-- The binaries of a file are at their positions, under the positions. -/
theorem getRuntime_contextOf (laws : env.SerializationLaws) (hf : Finished env w w₁ sec p f)
    (hfits : w.Fits) {id : Nat} {binary : Bytes} :
    ((FileReaderV2Builder.new w.file).contextOf sec).getRuntime env id = .ok binary ↔
      (∀ b ∈ w₁.wasmContext.getSortedWasms, env.runtimeLoads b = true) ∧
        w₁.wasmContext.getSortedWasms[id]? = some binary := by
  obtain ⟨sections, htable, hall, hsizes⟩ := hf.written.wasms
  have hfile : w.file = f.bytes := hf.written.file
  have hmeta : u32 sec.wasmMetaSize = f.wasmTable.length := by
    rw [u32_of_lt (hfits _ hf.written.wasmMetaFits), hf.written.wasmMetaSize]
  have hroot : env.wasmBinariesFb.root f.wasmTable = .ok ⟨some sections⟩ := by
    rw [htable]
    exact laws.wasmBinaries _
  have hread : readExactAt w.file sec.wasmMetaStart (u32 sec.wasmMetaSize) = .ok f.wasmTable := by
    rw [hmeta, hf.written.wasmMetaStart, hfile]
    refine reads_readExactAt _ _ _ ⟨f.rowGroups ++ f.dictionaries ++ f.wasms,
      f.metadata ++ (f.footer ++ f.postscript), ?_, rfl⟩
    rw [FileParts.bytes, FileParts.data, List.append_assoc _ f.wasmTable]
  have hbinaries : List.Forall₂ (fun b (s : Fb.MetadataSection) =>
      readExactAt w.file s.offset s.size = .ok b) w₁.wasmContext.getSortedWasms sections := by
    refine List.forall₂_iff_zip.2 ⟨hall.length_eq, fun {b s} hmem => ?_⟩
    obtain ⟨hholds, hsize⟩ := (List.forall₂_iff_zip.1 hall).2 hmem
    have hfit := hfits _ (hsizes b (List.of_mem_zip hmem).1)
    rw [hsize, u32_of_lt hfit, hfile]
    refine reads_readExactAt _ _ _ ?_
    have hwhole := hholds.append (f.wasmTable ++ (f.metadata ++ (f.footer ++ f.postscript)))
    rw [FileParts.bytes, FileParts.data, List.append_assoc]
    exact hwhole
  exact getRuntime_eq_ok (loadWasms_eq hread hroot hbinaries _)

/-- **Each id is resolved to its own binary iff the ids are the numbers below their
count**, and the binaries load. -/
theorem wasm_ids_resolve_iff (laws : env.SerializationLaws)
    (h : Finishes env schema options cs w) (hfits : w.Fits)
    (hkeys : (options.customEncodingOptions.wasms.map Prod.fst).Nodup) :
    ∃ ctx, (FileReaderV2Builder.new w.file).openContext env = .ok (some ctx) ∧
      ((∀ q ∈ options.customEncodingOptions.wasms, ctx.Resolves env q.1 q.2.decodeWasmBinary) ↔
        ∀ q ∈ options.customEncodingOptions.wasms,
          q.1 < options.customEncodingOptions.wasms.length ∧
            env.runtimeLoads q.2.decodeWasmBinary = true) := by
  obtain ⟨w₁, sec, p, hwith⟩ := finishes_iff.1 h
  obtain ⟨f, hf⟩ := hwith.finished hfits
  refine ⟨_, openContext_eq laws hf, ?_⟩
  simp only [WASMReadingContext.resolves_iff, getRuntime_contextOf laws hf hfits]
  have hctx : w₁.wasmContext = options.wasmContext env := by
    rw [← hwith.wasmContext_eq, hwith.final]
  rw [hctx]
  cases hempty : options.customEncodingOptions.isEmpty with
  | true =>
      -- there is no id
      have hnil := List.isEmpty_iff.1 hempty
      rw [hnil]
      exact iff_of_true (fun _ hq => nomatch hq) fun _ hq => nomatch hq
  | false =>
      have hbuiltIn : options.writeBuiltInWasm = false := by
        cases hb : options.writeBuiltInWasm with
        | true => exact absurd (options.exclusive hb) (by rw [hempty]; exact Bool.false_ne_true)
        | false => rfl
      have hsorted : (options.wasmContext env).getSortedWasms =
          (sortByKey options.customEncodingOptions.wasms).map fun q => q.2.decodeWasmBinary := by
        rw [FileWriterOptions.wasmContext, hbuiltIn, hempty]
        rfl
      rw [hsorted]
      constructor
      · intro hall q hq
        obtain ⟨hload, hget⟩ := hall q hq
        have hlt := (List.getElem?_eq_some_iff.1 hget).1
        rw [List.length_map, length_sortByKey] at hlt
        refine ⟨hlt, hload _ (List.mem_map.2 ⟨q, ?_, rfl⟩)⟩
        exact (List.perm_insertionSort _ _).mem_iff.2 hq
      · intro hall q hq
        refine ⟨fun b hb => ?_, ?_⟩
        · obtain ⟨q', hq', rfl⟩ := List.mem_map.1 hb
          exact (hall q' ((List.perm_insertionSort _ _).mem_iff.1 hq')).2
        · rw [List.getElem?_map, getElem?_sortByKey hkeys (fun q' hq' => (hall q' hq').1) hq]
          rfl

end Files

namespace Sample

/-- Options with these decoder binaries. -/
def wasmOptions (wasms : List (Nat × WasmLib)) : FileWriterOptions :=
  { FileWriterOptions.default with
    customEncodingOptions := ⟨wasms, []⟩
    exclusive := fun h => by cases h }

/-- Two binaries, given out of order. -/
def denseWasms : List (Nat × WasmLib) := [(1, ⟨"lib1.so", [0, 97, 1]⟩), (0, ⟨"lib0.so", [0, 97, 0]⟩)]

/-- One binary, with the id 1. -/
def sparseWasms : List (Nat × WasmLib) := [(1, ⟨"lib1.so", [0, 97, 1]⟩)]

theorem denseFits : FileWriter.runFits env cutSchema (wasmOptions denseWasms)
    [.writeBatch cutBatch] = true := by decide +kernel

theorem sparseFits : FileWriter.runFits env cutSchema (wasmOptions sparseWasms)
    [.writeBatch cutBatch] = true := by decide +kernel

end Sample

theorem wasm_ids_resolve_iff_dense : ∃ w,
    Finishes Sample.env Sample.cutSchema (Sample.wasmOptions Sample.denseWasms)
        [.writeBatch Sample.cutBatch] w ∧
      ∃ ctx, (FileReaderV2Builder.new w.file).openContext Sample.env = .ok (some ctx) ∧
        ((∀ q ∈ Sample.denseWasms, ctx.Resolves Sample.env q.1 q.2.decodeWasmBinary) ↔
          ∀ q ∈ Sample.denseWasms, q.1 < Sample.denseWasms.length ∧
            Sample.env.runtimeLoads q.2.decodeWasmBinary = true) := by
  obtain ⟨w, hfin, hfits⟩ := exists_of_runFits Sample.denseFits
  exact ⟨w, hfin, wasm_ids_resolve_iff Sample.serializationLaws hfin hfits (by decide)⟩

/-- The only binary has the id 1 and is at the position 0. -/
theorem sparse_id_unresolved : ∃ w ctx,
    Finishes Sample.env Sample.cutSchema (Sample.wasmOptions Sample.sparseWasms)
        [.writeBatch Sample.cutBatch] w ∧
      (FileReaderV2Builder.new w.file).openContext Sample.env = .ok (some ctx) ∧
        ctx.getRuntime Sample.env 1 ≠ .ok [0, 97, 1] ∧
          ¬ ∀ q ∈ Sample.sparseWasms, ctx.Resolves Sample.env q.1 q.2.decodeWasmBinary := by
  obtain ⟨w, hfin, hfits⟩ := exists_of_runFits Sample.sparseFits
  obtain ⟨w₁, sec, p, hwith⟩ := finishes_iff.1 hfin
  obtain ⟨f, hf⟩ := hwith.finished hfits
  have hctx : w₁.wasmContext = (Sample.wasmOptions Sample.sparseWasms).wasmContext Sample.env := by
    rw [← hwith.wasmContext_eq, hwith.final]
  have hunresolved : ((FileReaderV2Builder.new w.file).contextOf sec).getRuntime Sample.env 1 ≠
      .ok [0, 97, 1] := by
    intro hget
    have hsorted := ((getRuntime_contextOf Sample.serializationLaws hf hfits).1 hget).2
    rw [hctx] at hsorted
    cases hsorted
  refine ⟨w, _, hfin, openContext_eq Sample.serializationLaws hf, hunresolved, fun hall => ?_⟩
  exact hunresolved (hall _ (List.mem_singleton_self _)).runtime

end F3Format
