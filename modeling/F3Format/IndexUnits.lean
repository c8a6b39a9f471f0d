import F3Format.ArrowBuffers
import F3Format.DictionaryIndices
import F3Format.EncoderScopes
import F3Format.UnitReading

/-!
# Index units

A shared-dictionary column is a sequence of units of indices, narrowed to the
smallest type for the length of the dictionary. `IndexChunk` are the chunks the
encoders emit; each of their units holds the positions of some values in the
dictionary (`IndexChunk.units`). A unit can be decoded natively or by a module in
the file. The native decoder returns the type that was written, while the buffers
of a module are read at the type `SharedDictColDecoder` declares, which is
`Int64` for every dictionary. No dictionary has indices of that type.
-/

set_option autoImplicit false

namespace F3Format

open Lib Lib.Cutting PushedUnits

/-! ## What the encoders emit -/

/-- The map of every dictionary finds its keys, and they are distinct. -/
def SharedDictionaryContext.Valid (ctx : SharedDictionaryContext) : Prop :=
  ∀ d ∈ ctx.dictionaries, d.Valid

theorem SharedDictionaryContext.valid_new (isMultiColSharing : Bool) (c : CompressionType) :
    (SharedDictionaryContext.new isMultiColSharing c).Valid := by
  intro d hd
  cases hd

theorem SharedDictionaryContext.Valid.put {ctx : SharedDictionaryContext} (h : ctx.Valid)
    {d : Dictionary} (hd : d.Valid) (i : Nat) : (ctx.put i d).Valid := by
  intro d' hd'
  rcases List.mem_or_eq_of_mem_set hd' with hmem | rfl
  · exact h d' hmem
  · exact hd

theorem SharedDictionaryContext.Valid.snoc {ctx : SharedDictionaryContext} (h : ctx.Valid)
    {d : Dictionary} (hd : d.Valid) : (ctx.snoc d).Valid := by
  intro d' hd'
  rcases List.mem_append.1 hd' with hmem | hmem
  · exact h d' hmem
  · rw [List.mem_singleton] at hmem
    subst hmem
    exact hd

/-- The chunks of indices a column encoder emits, with the dictionary as the call
leaves it. -/
inductive IndexChunk (env : Env) (w : WASMWritingContext) :
    Dictionary → EncodedColumnChunk → Prop where
  | scope {s t : Working SharedDictColEncoder} {chunks : List EncodedColumnChunk}
      {c : EncodedColumnChunk} {idx : Nat} {d : Dictionary} (hw : s.enc.wasmContext = w)
      (hvalid : s.ctx.Valid) (hfit : s.ctx.dictionaries.length < 2 ^ 32)
      (hrun : SharedDictColEncoder.encodeDictScope env s = .ok chunks t) (hc : c ∈ chunks)
      (hidx : c.dictEncoding = .sharedDictionary idx) (hd : t.ctx.dictionaries[idx]? = some d) :
      IndexChunk env w d c
  | glBest {s t : Working GLBestEncoder} {chunks : List EncodedColumnChunk}
      {c : EncodedColumnChunk} {idx : Nat} {d : Dictionary} (hw : s.enc.wasmContext = w)
      (hfit : s.ctx.dictionaries.length < 2 ^ 32)
      (hrun : GLBestEncoder.finish env s = .ok chunks t) (hc : c ∈ chunks)
      (hidx : c.dictEncoding = .sharedDictionary idx) (hd : t.ctx.dictionaries[idx]? = some d) :
      IndexChunk env w d c

/-- The unit of the positions of `vs` in the dictionary. -/
structure IndexUnit (env : Env) (w : WASMWritingContext) (d : Dictionary)
    (vs : List (Option Scalar)) (u : SerializedEncUnit) : Prop where
  covers : Covers d.values vs
  numRows : u.numRows = u32 vs.length
  encoded : ∃ payload, unitPayload env w false
      (.prim (indexDtype d.values.length) (indicesOf d.values vs)) = .ok payload ∧
    compressData env payload u.compressionType = .ok u.bytes

section Scopes

variable {env : Env} {w : WASMWritingContext}

/-- Extending a dictionary by arrays: it grows, and the indices are the positions
in what it has become. -/
theorem extendGlobal_spec {d : Dictionary} (hd : d.Valid) :
    ∀ {arrs : List ArrayRef} {r : Dictionary × List ArrayRef},
      GLBestEncoder.extendGlobal d arrs = .ok r → r.1.Valid ∧ d.values <+: r.1.values ∧
        ∀ indices ∈ r.2, ∃ vs, Covers r.1.values vs ∧
          indices = .prim .uint64 (indicesOf r.1.values vs) := by
  intro arrs
  induction arrs generalizing d with
  | nil =>
      rintro r h
      cases h
      exact ⟨hd, List.prefix_rfl, fun indices hi => by cases hi⟩
  | cons arr arrs ih =>
      intro r h
      rw [extendGlobal_cons, bind_eq_ok] at h
      obtain ⟨r₁, hfirst, h⟩ := h
      rw [bind_eq_ok] at h
      obtain ⟨r₂, hrest, h⟩ := h
      cases h
      have htype : arr.dataType = .prim d.datatype := by
        by_contra hne
        rw [Dictionary.extendAndGetIndex, if_pos hne] at hfirst
        cases hfirst
      obtain ⟨t, vs, rfl, -⟩ := ArrayRef.eq_prim_of_nonNest (a := arr)
        (by rw [htype]; exact dictSupported_nonNest d.supported)
      rw [ArrayRef.dataType_prim, DataType.prim.injEq] at htype
      subst htype
      obtain ⟨d', hextend, hvalid, -, hvalues⟩ := Dictionary.extendAndGetIndex_spec hd vs
      rw [hfirst] at hextend
      cases hextend
      obtain ⟨hvalid', hprefix, hindices⟩ := ih hvalid hrest
      have hgrown : d.values <+: d'.values := by
        rw [hvalues]
        exact prefix_extendedBy d.values vs
      have hcovers : Covers d'.values vs := by
        rw [hvalues]
        exact covers_extendedBy d.values vs
      refine ⟨hvalid', hgrown.trans hprefix, ?_⟩
      intro indices hi
      rcases List.mem_cons.1 hi with rfl | hi
      · refine ⟨vs, hcovers.mono hprefix.subset, ?_⟩
        rw [ indicesOf_prefix hprefix hcovers]
      · exact hindices indices hi

theorem len_eq_values_length (d : Dictionary) : d.len = d.values.length := rfl

/-- The units of the indices of a scope. -/
theorem scopeItems_spec {c : CompressionType} {d : Dictionary} (hd : d.Valid)
    {arrs : List ArrayRef} {r : Dictionary × List (PushedUnits × Nat)}
    (h : scopeItems env w c d arrs = .ok r) :
    ∀ item ∈ r.2, ∀ u ∈ item.1.units, ∃ vs, IndexUnit env w r.1 vs u := by
  simp only [scopeItems, scopeIndices, bind_eq_ok, pure_eq_ok, Except.ok.injEq] at h
  obtain ⟨_, ⟨g, hg, rfl⟩, items, hitems, rfl⟩ := h
  obtain ⟨-, -, hindices⟩ := extendGlobal_spec hd hg
  intro item hitem u hu
  obtain ⟨narrowed, hnarrowed, harray⟩ := exists_of_mem_collect hitems hitem
  obtain ⟨indices, hmem, rfl⟩ := List.mem_map.1 hnarrowed
  obtain ⟨vs, hcovers, rfl⟩ := hindices indices hmem
  have hunit := sized_eq_ok harray
  rw [len_eq_values_length, castIndexDtype_indicesOf hcovers (Nat.le_refl _)] at hunit
  simp only [EncoderDictColEncoder.item, encodeEncUnit, bind_eq_ok, pure_eq_ok,
    Except.ok.injEq] at hunit
  obtain ⟨_, ⟨payload, hpayload, out, hout, rfl⟩, hq⟩ := hunit
  rw [← hq, units, List.mem_singleton] at hu
  subst hu
  refine ⟨vs, hcovers, ?_, payload, hpayload, hout⟩
  show u32 (indicesOf g.1.values vs).length = _
  rw [indicesOf, List.length_map]

/-- The units of the groups a scope is cut into. -/
theorem indexGroups_units {d : Dictionary} {items : List (PushedUnits × Nat)}
    (h : ∀ item ∈ items, ∀ u ∈ item.1.units, ∃ vs, IndexUnit env w d vs u)
    {columnChunkSize : Nat} {g : List PushedUnits}
    (hg : g ∈ indexGroups columnChunkSize true items) {l : DictionaryEncoding}
    {u : SerializedEncUnit} (hu : u ∈ (chunkOf (l, g)).encunits) :
    ∃ vs, IndexUnit env w d vs u := by
  obtain ⟨us, hus, hmem⟩ := List.mem_flatten.1 hu
  obtain ⟨q, hq, rfl⟩ := List.mem_map.1 hus
  rcases mem_cutAll _ items [] 0 g hg q hq with hnil | hpushed
  · cases hnil
  · obtain ⟨item, hitem, rfl⟩ := List.mem_map.1 hpushed
    exact h item hitem u hmem

theorem newScope_valid {arrs : List ArrayRef} {d : Dictionary}
    (h : SharedDictColEncoder.newScope arrs = .ok d) : d.Valid := by
  simp only [SharedDictColEncoder.newScope, bind_eq_ok] at h
  obtain ⟨first, -, h⟩ := h
  cases hfirst : first.dataType with
  | prim t =>
      rw [hfirst] at h
      exact (Dictionary.valid_tryNew h).1
  | list child => rw [hfirst] at h; cases h
  | largeList child => rw [hfirst] at h; cases h
  | struct fields => rw [hfirst] at h; cases h

/-- Indices are only encoded against a dictionary the context has. -/
theorem exists_dictionary {e : SharedDictColEncoder} {idx : Nat}
    {s t : Working SharedDictColEncoder} {chunks : List EncodedColumnChunk}
    (h : SharedDictColEncoder.encodeIndices env e idx s = .ok chunks t) :
    ∃ d, s.ctx.dictionaries[idx]? = some d := by
  cases hd : s.ctx.dictionaries[idx]? with
  | some d => exact ⟨d, rfl⟩
  | none =>
      exfalso
      have hindex : index s.ctx.dictionaries idx = panicking "index out of bounds" := by
        rw [index, hd]
      unfold SharedDictColEncoder.encodeIndices at h
      cases harrs : e.bufferedArrays with
      | nil =>
          rw [harrs, SharedDictColEncoder.extendAll, pure_bind, Act.get_bind,
            SharedDictionaryContext.dictLen, hindex] at h
          cases h
      | cons arr arrs =>
          have hfirst : SharedDictColEncoder.extendAll idx (arr :: arrs) s =
              .error (.panic "index out of bounds") s := by
            rw [SharedDictColEncoder.extendAll, Act.get_bind,
              SharedDictionaryContext.extendAndGetIndex, hindex]
            rfl
          rw [harrs, Act.bind_of_error _ hfirst] at h
          cases h

/-- Every unit of a chunk of indices holds positions in the dictionary. -/
theorem IndexChunk.units {d : Dictionary} {c : EncodedColumnChunk} (h : IndexChunk env w d c)
    {u : SerializedEncUnit} (hu : u ∈ c.encunits) : ∃ vs, IndexUnit env w d vs u := by
  cases h with
  | @scope s t chunks _ idx _ hw hvalid hfit hrun hc hidx hd =>
      subst hw
      cases hsubmitted : s.enc.submittedDictIdx with
      | none =>
          have hspec := SharedDictColEncoder.encodeDictScope_spec env s hsubmitted hfit
          cases hscope : SharedDictColEncoder.newScope s.enc.bufferedArrays >>= fun d =>
              scopeItems env s.enc.wasmContext s.enc.compressionType d s.enc.bufferedArrays with
          | error f =>
              rw [hscope] at hspec
              obtain ⟨counter, ctx, herror, -⟩ := hspec
              rw [hrun] at herror
              cases herror
          | ok r =>
              rw [hscope] at hspec
              obtain ⟨counter, hok⟩ := hspec
              rw [hrun] at hok
              cases hok
              rw [bind_eq_ok] at hscope
              obtain ⟨d₀, hnew, hitems⟩ := hscope
              obtain ⟨g, hg, rfl⟩ := List.mem_map.1 hc
              cases hidx
              have hlast : (s.ctx.snoc r.1).dictionaries[s.ctx.dictionaries.length]? =
                  some r.1 := by
                simp [SharedDictionaryContext.snoc]
              have hd' : (s.ctx.snoc r.1).dictionaries[s.ctx.dictionaries.length]? = some d := hd
              rw [hlast] at hd'
              cases hd'
              exact indexGroups_units (scopeItems_spec (newScope_valid hnew) hitems) hg hu
      | some dictIdx =>
          rw [SharedDictColEncoder.encodeDictScope_submitted env s hsubmitted] at hrun
          obtain ⟨d₀, hd₀⟩ := exists_dictionary hrun
          have hspec := SharedDictColEncoder.encodeIndices_spec env s.enc dictIdx
            { s with enc := s.enc.emptied } hd₀
          cases hscope : scopeItems env s.enc.wasmContext s.enc.compressionType d₀
              s.enc.bufferedArrays with
          | error f =>
              rw [hscope] at hspec
              obtain ⟨counter, d', herror⟩ := hspec
              rw [hrun] at herror
              cases herror
          | ok r =>
              rw [hscope] at hspec
              obtain ⟨counter, hok⟩ := hspec
              rw [hrun] at hok
              cases hok
              obtain ⟨g, hg, rfl⟩ := List.mem_map.1 hc
              cases hidx
              obtain ⟨hlt, hget⟩ := List.getElem?_eq_some_iff.1 hd₀
              have hput : (s.ctx.put idx r.1).dictionaries[idx]? = some r.1 :=
                List.getElem?_set_self hlt
              have hd' : (s.ctx.put idx r.1).dictionaries[idx]? = some d := hd
              rw [hput] at hd'
              cases hd'
              have hvalid₀ : d₀.Valid := hvalid d₀ (List.mem_of_getElem? hd₀)
              exact indexGroups_units (scopeItems_spec hvalid₀ hscope) hg hu
  | @glBest s t chunks _ idx _ hw hfit hrun hc hidx hd =>
      subst hw
      by_cases hnil : s.enc.bufferedArrays = []
      · rw [GLBestEncoder.finish_nil env s hnil] at hrun
        cases hrun
        cases hc
      · obtain ⟨choice, rng, hof, hends⟩ := GLBestEncoder.finish_spec env s.enc s.rng hnil
        have hend := hends s.counter s.ctx
        have hs : GLBestEncoder.finish env ⟨s.enc, s.counter, s.ctx, s.rng⟩ = .ok chunks t := hrun
        rw [hs] at hend
        cases choice with
        | localChunks localChunks =>
            obtain ⟨counter, hok⟩ := hend
            cases hok
            obtain ⟨localCounter, hlocal⟩ := hof
            obtain ⟨items, groups, -, rfl, -, hnone⟩ :=
              GLBestEncoder.encodeToLocalChunks_ok hlocal
            obtain ⟨g, hg, rfl⟩ := List.mem_map.1 hc
            rw [chunkOf_dictEncoding, hnone g hg] at hidx
            cases hidx
        | globalChunks dict groups =>
            obtain ⟨counter, hok⟩ := hend
            cases hok
            obtain ⟨items, hitems, rfl⟩ := hof
            rw [bind_eq_ok] at hitems
            obtain ⟨d₀, hnew, hscope⟩ := hitems
            obtain ⟨g, hg, rfl⟩ := List.mem_map.1 hc
            cases hidx
            have hpeek : s.ctx.peekDictId = s.ctx.dictionaries.length := u32_of_lt hfit
            have hlast : (s.ctx.snoc dict).dictionaries[s.ctx.dictionaries.length]? =
                some dict := by
              simp [SharedDictionaryContext.snoc]
            rw [hpeek] at hd
            have hd' : (s.ctx.snoc dict).dictionaries[s.ctx.dictionaries.length]? = some d := hd
            rw [hlast] at hd'
            cases hd'
            exact indexGroups_units (scopeItems_spec (newScope_valid hnew) hscope) hg hu
        | failed f added =>
            cases added with
            | none =>
                obtain ⟨counter, herror⟩ := hend
                cases herror
            | some dict =>
                obtain ⟨counter, herror⟩ := hend
                cases herror

end Scopes

/-! ## The calls keep the dictionaries valid -/

theorem Dictionary.Valid.extendAndGetIndex {d : Dictionary} (hd : d.Valid) {arr : ArrayRef}
    {r : Dictionary × ArrayRef} (h : d.extendAndGetIndex arr = .ok r) : r.1.Valid := by
  unfold Dictionary.extendAndGetIndex at h
  split at h
  · cases h
  · cases h
    exact (Dictionary.extend_spec hd arr.rows).1

theorem Dictionary.Valid.submitValues {d : Dictionary} (hd : d.Valid) {arr : ArrayRef}
    {d' : Dictionary} (h : d.submitValues arr = .ok d') : d'.Valid := by
  unfold Dictionary.submitValues at h
  split at h
  · next t vs =>
      split at h
      · cases h
        exact (TypedDict.submitValuesNoNull_spec hd vs.reduceOption).1
      · cases h
  · cases h

namespace SharedDictionaryContext.Valid

variable {ctx : SharedDictionaryContext}

theorem newDictionary (hctx : ctx.Valid) {dtype : DataType} {r : SharedDictionaryContext × Nat}
    (h : ctx.newDictionary dtype = .ok r) : r.1.Valid := by
  simp only [SharedDictionaryContext.newDictionary, bind_eq_ok, pure_eq_ok, Except.ok.injEq] at h
  obtain ⟨d, hd, rfl⟩ := h
  cases dtype with
  | prim t => exact hctx.snoc (Dictionary.valid_tryNew hd).1
  | list child => cases hd
  | largeList child => cases hd
  | struct fields => cases hd

theorem of_index (hctx : ctx.Valid) {idx : Nat} {d : Dictionary}
    (h : index ctx.dictionaries idx = .ok d) : d.Valid :=
  hctx d (List.mem_of_getElem? ((index_eq_ok _ _ _).1 h))

theorem extendAndGetIndex (hctx : ctx.Valid) {idx : Nat} {arr : ArrayRef}
    {r : SharedDictionaryContext × ArrayRef} (h : ctx.extendAndGetIndex idx arr = .ok r) :
    r.1.Valid := by
  simp only [SharedDictionaryContext.extendAndGetIndex, bind_eq_ok, pure_eq_ok,
    Except.ok.injEq] at h
  obtain ⟨d, hd, r', hr', rfl⟩ := h
  exact hctx.put ((hctx.of_index hd).extendAndGetIndex hr') idx

theorem submitValues (hctx : ctx.Valid) {idx : Nat} {arr : ArrayRef}
    {ctx' : SharedDictionaryContext} (h : ctx.submitValues idx arr = .ok ctx') : ctx'.Valid := by
  simp only [SharedDictionaryContext.submitValues, bind_eq_ok, pure_eq_ok, Except.ok.injEq] at h
  obtain ⟨d, hd, d', hd', rfl⟩ := h
  exact hctx.put ((hctx.of_index hd).submitValues hd') idx

end SharedDictionaryContext.Valid

/-- A property of the context that its operations keep. -/
structure SharedDictionaryContext.Invariant (I : SharedDictionaryContext → Prop) : Prop where
  newDictionary : ∀ {ctx : SharedDictionaryContext} {dtype : DataType}
    {r : SharedDictionaryContext × Nat}, I ctx → ctx.newDictionary dtype = .ok r → I r.1
  extendAndGetIndex : ∀ {ctx : SharedDictionaryContext} {idx : Nat} {arr : ArrayRef}
    {r : SharedDictionaryContext × ArrayRef}, I ctx → ctx.extendAndGetIndex idx arr = .ok r → I r.1
  submitValues : ∀ {ctx ctx' : SharedDictionaryContext} {idx : Nat} {arr : ArrayRef},
    I ctx → ctx.submitValues idx arr = .ok ctx' → I ctx'

theorem SharedDictionaryContext.invariant_valid :
    SharedDictionaryContext.Invariant SharedDictionaryContext.Valid where
  newDictionary := fun hctx h => hctx.newDictionary h
  extendAndGetIndex := fun hctx h => hctx.extendAndGetIndex h
  submitValues := fun hctx h => hctx.submitValues h

namespace SharedDictColEncoder

/-- The context of the encoder has the property. -/
def InContext (I : SharedDictionaryContext → Prop) (s : Working SharedDictColEncoder) : Prop :=
  I s.ctx

/-- The dictionaries of the context are valid. -/
def ContextValid (s : Working SharedDictColEncoder) : Prop := s.ctx.Valid

section

variable {I : SharedDictionaryContext → Prop}

theorem newDictionary_inContext (hI : SharedDictionaryContext.Invariant I) (dtype : DataType) :
    Act.Maintains (InContext I) (fun _ => True) (newDictionary dtype) := by
  apply Act.maintains_get_bind
  intro s hs
  apply Act.maintains_bind (Act.maintains_lift fun r hr => hI.newDictionary hs hr)
  rintro ⟨ctx, idx⟩ hctx
  exact Act.maintains_set_bind hctx (Act.maintains_pure trivial)

theorem scopeDictIdx_inContext (hI : SharedDictionaryContext.Invariant I)
    (e : SharedDictColEncoder) :
    Act.Maintains (InContext I) (fun _ => True) (scopeDictIdx e) := by
  unfold scopeDictIdx
  cases e.submittedDictIdx with
  | some idx => exact Act.maintains_pure trivial
  | none =>
      apply Act.maintains_bind (Act.maintains_lift (P := fun _ => True) fun _ _ => trivial)
      intro first _
      exact newDictionary_inContext hI first.dataType

theorem extendAll_inContext (hI : SharedDictionaryContext.Invariant I) (dictIdx : Nat) (arrs : List ArrayRef) :
    Act.Maintains (InContext I) (fun _ => True) (extendAll dictIdx arrs) := by
  induction arrs with
  | nil => exact Act.maintains_pure trivial
  | cons arr arrs ih =>
      apply Act.maintains_get_bind
      intro s hs
      apply Act.maintains_bind (Act.maintains_lift fun r hr => hI.extendAndGetIndex hs hr)
      rintro ⟨ctx, indices⟩ hctx
      exact Act.maintains_set_bind hctx
        (Act.maintains_bind ih fun rest _ => Act.maintains_pure trivial)

theorem submitAll_inContext (hI : SharedDictionaryContext.Invariant I) (dictIdx : Nat) (arrs : List ArrayRef) :
    Act.Maintains (InContext I) (fun _ => True) (submitAll dictIdx arrs) := by
  induction arrs with
  | nil => exact Act.maintains_pure trivial
  | cons arr arrs ih =>
      apply Act.maintains_get_bind
      intro s hs
      apply Act.maintains_bind (Act.maintains_lift fun ctx hctx => hI.submitValues hs hctx)
      intro ctx hctx
      exact Act.maintains_set_bind hctx ih

theorem encodeDictScope_inContext (hI : SharedDictionaryContext.Invariant I) (env : Env) :
    Act.Maintains (InContext I) (fun _ => True) (encodeDictScope env) := by
  apply Act.maintains_get_bind
  intro s hs
  refine Act.maintains_set_bind hs ?_
  apply Act.maintains_bind (scopeDictIdx_inContext hI s.enc)
  intro dictIdx _
  apply Act.maintains_bind (extendAll_inContext hI dictIdx _)
  intro indicesArrs _
  apply Act.maintains_get_bind
  intro t ht
  apply Act.maintains_bind (Act.maintains_lift (P := fun _ => True) fun _ _ => trivial)
  intro dictLen _ u hu
  rw [onCounter_run]
  cases encodeSharedToChunks env s.enc.wasmContext s.enc.compressionType s.enc.columnChunkSize
      (indicesArrs.map fun arr => castIndexDtype arr dictLen) (some dictIdx) u.counter with
  | ok chunks counter => exact ⟨fun _ _ => trivial, hu⟩
  | error f counter => exact ⟨fun _ _ => trivial, hu⟩

theorem encode_inContext (hI : SharedDictionaryContext.Invariant I) (env : Env)
    (array : ArrayRef) : Act.Maintains (InContext I) (fun _ => True) (encode env array) := by
  apply Act.maintains_get_bind
  intro s hs
  split
  · exact Act.maintains_throw _
  · refine Act.maintains_set_bind hs ?_
    split
    · exact encodeDictScope_inContext hI env
    · exact Act.maintains_pure trivial

theorem finish_inContext (hI : SharedDictionaryContext.Invariant I) (env : Env) :
    Act.Maintains (InContext I) (fun _ => True) (finish env) := by
  apply Act.maintains_get_bind
  intro s hs
  split
  · exact Act.maintains_pure trivial
  · exact encodeDictScope_inContext hI env

theorem submitDict_inContext (hI : SharedDictionaryContext.Invariant I) :
    Act.Maintains (InContext I) (fun _ => True) submitDict := by
  apply Act.maintains_get_bind
  intro s hs
  apply Act.maintains_bind (P := fun _ => True) ?_ fun idx _ => submitAll_inContext hI idx _
  apply Act.maintains_get_bind
  intro t ht
  apply Act.maintains_bind (scopeDictIdx_inContext hI t.enc)
  intro idx _
  exact Act.maintains_bind (Act.maintains_modify fun u hu => hu) fun _ _ =>
    Act.maintains_pure trivial

end

/-- Every call of the encoder leaves the context valid if it was. -/
theorem call_valid (env : Env) (array : ArrayRef) :
    Act.Maintains ContextValid (fun _ => True) (encode env array) ∧
      Act.Maintains ContextValid (fun _ => True) (finish env) ∧
      Act.Maintains ContextValid (fun _ => True) submitDict :=
  ⟨encode_inContext SharedDictionaryContext.invariant_valid env array,
    finish_inContext SharedDictionaryContext.invariant_valid env,
    submitDict_inContext SharedDictionaryContext.invariant_valid⟩

end SharedDictColEncoder

end F3Format
