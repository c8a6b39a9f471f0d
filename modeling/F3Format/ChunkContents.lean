import F3Format.DictionaryScopes
import F3Format.FlatColumns
import F3Format.LocalDictionaries

/-!
# What a chunk holds

Five encoders turn the arrays of a column into chunks: units of the arrays as
they stand, pairs of a local dictionary and its indices, or indices into a shared
dictionary. `Contents` says for each kind which arrays a chunk holds, and `Has`
which ones an encoder still has. A call moves arrays from one side to the other:
what it returns and what it keeps is what it was given, in order
(`Method.contents_encode`, `Method.contents_finish`).
-/

set_option autoImplicit false

namespace F3Format

open Lib Lib.Cutting PushedUnits

/-! ## Three kinds of chunks -/

/-- The chunk holds the indices of the arrays in dictionary `idx`; `known` says
which dictionaries go by which id. -/
structure IndexChunkOf (env : Env) (w : WASMWritingContext) (known : Nat → Dictionary → Prop)
    (c : EncodedColumnChunk) (arrays : List ArrayRef) : Prop where
  rows : c.numRows = (arrays.map ArrayRef.len).sum
  units : ∃ (idx : Nat) (d : Dictionary) (compressionType : CompressionType),
    c.dictEncoding = .sharedDictionary idx ∧ known idx d ∧
      List.Forall₂ (fun u a => ∃ vs, a = .prim d.datatype vs ∧ Covers d.values vs ∧
        UnitOptions.unit env ⟨w, false, compressionType⟩
          (.prim (indexDtype d.values.length) (indicesOf d.values vs)) = .ok u) c.encunits arrays

/-- The chunk holds, for each array, the unit of its dictionary and that of its
indices. After a flush the label is that of a chunk without dictionaries. -/
structure PairsChunkOf (env : Env) (w : WASMWritingContext) (compressionType : CompressionType)
    (c : EncodedColumnChunk) (arrays : List ArrayRef) : Prop where
  encoding : c.dictEncoding = .dictionary [] ∨ c.dictEncoding = .noDictionary
  rows : c.numRows = (arrays.map ArrayRef.len).sum
  units : ∃ pairs : List (SerializedEncUnit × SerializedEncUnit),
    c.encunits = pairs.flatMap (fun p => [p.1, p.2]) ∧
      List.Forall₂ (fun p a => DictColEncoder.units env w compressionType a =
        .ok (p.1, p.2, a.len)) pairs arrays

/-- The chunk holds the arrays, in one of the three ways. There are pairs only with
local dictionaries. -/
inductive Contents (env : Env) (o : EncoderOptions) (known : Nat → Dictionary → Prop)
    (c : EncodedColumnChunk) (arrays : List ArrayRef) : Prop where
  | plain {u : UnitOptions} (hw : u.wasmContext = o.wasmContext) (h : ChunkOf env u c arrays)
  | pairs {compressionType : CompressionType} (hlocal : o.dictionaryType = .localDictionary)
      (h : PairsChunkOf env o.wasmContext compressionType c arrays)
  | indices (h : IndexChunkOf env o.wasmContext known c arrays)

namespace Contents

variable {env : Env} {o : EncoderOptions} {known known' : Nat → Dictionary → Prop}
  {c : EncodedColumnChunk} {arrays : List ArrayRef}

/-- **The rows of a chunk are those of its arrays.** -/
theorem rows (h : Contents env o known c arrays) : c.numRows = (arrays.map ArrayRef.len).sum := by
  cases h with
  | plain hw h => exact h.rows
  | pairs hlocal h => exact h.rows
  | indices h => exact h.rows

/-- More may become known of the dictionary of the chunk. -/
theorem mono (h : Contents env o known c arrays)
    (hknown : ∀ i d, c.dictEncoding = .sharedDictionary i → known i d → known' i d) :
    Contents env o known' c arrays := by
  cases h with
  | plain hw h => exact .plain hw h
  | pairs hlocal h => exact .pairs hlocal h
  | indices h =>
      obtain ⟨idx, d, compressionType, hlabel, hd, hunits⟩ := h.units
      exact .indices ⟨h.rows, idx, d, compressionType, hlabel, hknown idx d hlabel hd, hunits⟩

/-- Stamping the column index changes neither the units nor the label. -/
theorem stamped (h : Contents env o known c arrays) (i : Nat) :
    Contents env o known (c.updateColumnIndex i) arrays := by
  cases h with
  | plain hw h => exact .plain hw (h.stamped i)
  | pairs hlocal h => exact .pairs hlocal ⟨h.encoding, h.rows, h.units⟩
  | indices h => exact .indices ⟨h.rows, h.units⟩

end Contents

/-- Related elements of a list of groups are grouped alike. -/
theorem forall₂_groups {α β : Type} {r : α → β → Prop} : ∀ {gs : List (List α)} {ys : List β},
    List.Forall₂ r gs.flatten ys → ∃ hs : List (List β),
      hs.flatten = ys ∧ List.Forall₂ (List.Forall₂ r) gs hs
  | [], ys, h => by
      cases h
      exact ⟨[], rfl, .nil⟩
  | g :: gs, ys, h => by
      rw [List.flatten_cons] at h
      have hfirst := List.forall₂_take g.length h
      have hrest := List.forall₂_drop g.length h
      rw [List.take_left] at hfirst
      rw [List.drop_left] at hrest
      obtain ⟨hs, hflat, hgroups⟩ := forall₂_groups hrest
      refine ⟨ys.take g.length :: hs, ?_, .cons hfirst hgroups⟩
      rw [List.flatten_cons, hflat, List.take_append_drop]

/-! ## Chunks without shared dictionaries -/

section Plain

variable {env : Env} {o : UnitOptions}

/-- The units of some arrays, grouped. -/
theorem chunkOf_items {label : DictionaryEncoding} (hlabel : label = .noDictionary) :
    ∀ {g : List PushedUnits} {arrays : List ArrayRef}, List.Forall₂ (fun q a =>
      EncoderDictColEncoder.item env o.wasmContext o.enableDict o.compressionType a = .ok q) g
        arrays → ChunkOf env o (chunkOf (label, g)) arrays := by
  intro g arrays h
  induction h with
  | nil => exact ⟨hlabel, rfl, .nil⟩
  | @cons q a g arrays hq hrest ih =>
      simp only [EncoderDictColEncoder.item, bind_eq_ok, pure_eq_ok, Except.ok.injEq] at hq
      obtain ⟨u, hu, rfl⟩ := hq
      refine ⟨hlabel, ?_, ?_⟩
      · have hrows : (chunkOf (label, g)).numRows = (arrays.map ArrayRef.len).sum := ih.rows
        show a.len + (chunkOf (label, g)).numRows = _
        rw [hrows, List.map_cons, List.sum_cons]
      · exact .cons hu ih.units

/-- The local chunks of a `GLBestEncoder` hold its arrays. -/
theorem GLBestEncoder.contents_local {e : GLBestEncoder} {arrs : List ArrayRef}
    {counter : EncodingCounter} {chunks : List EncodedColumnChunk}
    (h : encodeToLocalChunks env e arrs = .ok (counter, chunks)) :
    ∃ contents, contents.flatten = arrs ∧
      List.Forall₂ (ChunkOf env ⟨e.wasmContext, true, .uncompressed⟩) chunks contents := by
  obtain ⟨items, groups, hitems, rfl, hcontents, hlabels⟩ := encodeToLocalChunks_ok h
  have hall : List.Forall₂ (fun q a =>
      EncoderDictColEncoder.item env e.wasmContext true .uncompressed a = .ok q)
      (groups.map Prod.snd).flatten arrs := by
    have hcontents' : (groups.map Prod.snd).flatten = items := hcontents
    rw [hcontents']
    exact (collect_eq_ok_iff.1 hitems).flip
  obtain ⟨contents, hflat, hgroups⟩ := forall₂_groups hall
  refine ⟨contents, hflat, ?_⟩
  rw [List.forall₂_map_left_iff] at hgroups ⊢
  have hboth := (List.forall₂_and_left groups contents).2 ⟨hlabels, hgroups⟩
  exact hboth.imp fun g arrays h => chunkOf_items h.1 h.2

/-- The indices of an array are as many as its rows. -/
theorem DictColEncoder.indicesLen_eq {w : WASMWritingContext} {c : CompressionType}
    {array : ArrayRef} {dictUnit indexUnit : SerializedEncUnit} {n : Nat}
    (h : units env w c array = .ok (dictUnit, indexUnit, n)) : n = array.len := by
  simp only [units, bind_eq_ok, pure_eq_ok, Except.ok.injEq] at h
  obtain ⟨⟨dict, indices⟩, hdict, dp, -, ip, -, cd, -, ci, -, hunits⟩ := h
  have hn : n = indices.len := by
    simp only [Prod.mk.injEq] at hunits
    exact hunits.2.2.symm
  rw [hn]
  cases array with
  | prim t vs =>
      by_cases ht : t.dictSupported = true
      · rw [dictAndIndices_prim ht] at hdict
        cases hdict
        show (indicesOf (extendedBy [] vs) vs).length = vs.length
        rw [indicesOf, List.length_map]
      · simp only [dictAndIndices, ArrayRef.dataType_prim, Dictionary.tryNew, dif_neg ht] at hdict
        cases hdict
  | list large child offsets values nulls =>
      cases large <;> cases hdict
  | struct fields columns nulls len => cases hdict

theorem PairsChunkOf.push {w : WASMWritingContext} {compressionType : CompressionType}
    {c : EncodedColumnChunk} {arrays : List ArrayRef}
    (h : PairsChunkOf env w compressionType c arrays) {a : ArrayRef}
    {dictUnit indexUnit : SerializedEncUnit} {n : Nat}
    (hu : DictColEncoder.units env w compressionType a = .ok (dictUnit, indexUnit, n)) :
    PairsChunkOf env w compressionType ((c.push dictUnit 0).push indexUnit n) (arrays ++ [a]) := by
  have hn := DictColEncoder.indicesLen_eq hu
  subst hn
  obtain ⟨pairs, hpairs, hall⟩ := h.units
  refine ⟨h.encoding, ?_, pairs ++ [(dictUnit, indexUnit)], ?_, ?_⟩
  · show c.numRows + 0 + a.len = _
    rw [h.rows, List.map_append, List.sum_append]
    rfl
  · show c.encunits ++ [dictUnit] ++ [indexUnit] = _
    rw [hpairs, List.flatMap_append, List.append_assoc]
    rfl
  · exact List.rel_append hall (.cons hu .nil)

theorem PairsChunkOf.eq_nil {w : WASMWritingContext} {compressionType : CompressionType}
    {c : EncodedColumnChunk} {arrays : List ArrayRef}
    (h : PairsChunkOf env w compressionType c arrays) (hc : c.encunits.isEmpty = true) :
    arrays = [] := by
  obtain ⟨pairs, hpairs, hall⟩ := h.units
  rw [List.isEmpty_iff.1 hc] at hpairs
  cases hall with
  | nil => rfl
  | cons hp hrest => cases hpairs

theorem pairsChunkOf_empty {w : WASMWritingContext} {compressionType : CompressionType}
    {label : DictionaryEncoding} (h : label = .dictionary [] ∨ label = .noDictionary) :
    PairsChunkOf env w compressionType (.withDictEncoding label) [] :=
  ⟨h, rfl, [], rfl, .nil⟩

/-- `encode` adds the array behind the others, and returns whole chunks. -/
theorem DictColEncoder.encode_pairs {array : ArrayRef} {s t : Working DictColEncoder}
    {chunks : List EncodedColumnChunk} {pending : List ArrayRef}
    (h : PairsChunkOf env s.enc.wasmContext s.enc.compressionType s.enc.accumulatedChunk pending)
    (hr : encode env array s = .ok chunks t) :
    t.enc.wasmContext = s.enc.wasmContext ∧ t.enc.compressionType = s.enc.compressionType ∧
      ∃ contents rest, List.Forall₂ (PairsChunkOf env s.enc.wasmContext s.enc.compressionType)
          chunks contents ∧
        PairsChunkOf env s.enc.wasmContext s.enc.compressionType t.enc.accumulatedChunk rest ∧
        contents.flatten ++ rest = pending ++ [array] := by
  rw [encode_run] at hr
  split at hr
  · cases hr
  · next dictUnit indexUnit n hu =>
      have hpush := h.push hu
      dsimp only at hr
      split at hr
      · -- the chunk has become too large
        cases hr
        exact ⟨rfl, rfl, [pending ++ [array]], [], .cons hpush .nil,
          pairsChunkOf_empty (.inl rfl), by simp⟩
      · cases hr
        exact ⟨rfl, rfl, [], pending ++ [array], .nil, hpush, rfl⟩

/-- `finish` returns what is left. -/
theorem DictColEncoder.finish_pairs {s t : Working DictColEncoder}
    {chunks : List EncodedColumnChunk} {pending : List ArrayRef}
    (h : PairsChunkOf env s.enc.wasmContext s.enc.compressionType s.enc.accumulatedChunk pending)
    (hr : finish s = .ok chunks t) :
    t.enc.wasmContext = s.enc.wasmContext ∧ t.enc.compressionType = s.enc.compressionType ∧
      ∃ contents, List.Forall₂ (PairsChunkOf env s.enc.wasmContext s.enc.compressionType)
          chunks contents ∧
        PairsChunkOf env s.enc.wasmContext s.enc.compressionType t.enc.accumulatedChunk [] ∧
        contents.flatten = pending := by
  rw [finish_run] at hr
  split at hr
  · next hempty =>
      have hnil := h.eq_nil hempty
      subst hnil
      cases hr
      exact ⟨rfl, rfl, [], .nil, h, rfl⟩
  · cases hr
    exact ⟨rfl, rfl, [pending], .cons h .nil, pairsChunkOf_empty (.inr rfl), by simp⟩

end Plain

/-! ## Chunks of indices -/

/-- The unit of an index array has bytes, whichever encoder the writing context
picks. The last chunk of a scope is dropped if it has none. -/
def Env.IndicesHaveBytes (env : Env) (w : WASMWritingContext) : Prop :=
  ∀ (c : CompressionType) (n : Nat) (vs : List (Option Scalar)) (u : SerializedEncUnit),
    UnitOptions.unit env ⟨w, false, c⟩ (.prim (indexDtype n) vs) = .ok u → u.bytes ≠ []

/-- The Vortex encoder writes a size of four bytes in front. -/
theorem indicesHaveBytes_of_native {env : Env} (laws : env.CompressionLaws)
    {w : WASMWritingContext} (hw : ∀ t : PrimType, w.dataTypeToWasmLib (.prim t) = none) :
    env.IndicesHaveBytes w := by
  intro c n vs u hu
  simp only [UnitOptions.unit, encodeEncUnit, ArrayRef.dataType_prim, bind_eq_ok, pure_eq_ok,
    Except.ok.injEq] at hu
  obtain ⟨payload, hpayload, out, hout, rfl⟩ := hu
  refine compressData_ne_nil laws hout ?_
  rw [encodeToBytes, createEncunitEncoder, hw, bind_eq_ok] at hpayload
  obtain ⟨parts, hparts, hflat⟩ := hpayload
  rw [unwrap_eq_ok, EncUnitEncoder.encode, if_pos (indexDtype_nonNest n), encodeArr, bind_eq_ok]
    at hparts
  obtain ⟨p, -, hp⟩ := hparts
  cases hp
  cases hflat
  intro hnil
  have hlen := congrArg List.length hnil
  simp only [List.flatten_cons, List.length_append, length_leEncode, List.length_nil] at hlen
  omega

section Indices

variable {env : Env} {w : WASMWritingContext} {compressionType : CompressionType}

/-- Extending a dictionary by arrays, which are columns of its type. -/
theorem extendGlobal_columns {d : Dictionary} (hd : d.Valid) {arrs : List ArrayRef}
    {r : Dictionary × List ArrayRef} (h : GLBestEncoder.extendGlobal d arrs = .ok r) :
    d.Grown r.1 ∧ ∃ vss : List (List (Option Scalar)), arrs = vss.map (.prim d.datatype) ∧
      (∀ vs ∈ vss, Covers r.1.values vs) ∧
        r.2 = vss.map fun vs => .prim .uint64 (indicesOf r.1.values vs) := by
  induction arrs generalizing d r with
  | nil =>
      cases h
      exact ⟨.refl hd, [], rfl, List.forall_mem_nil _, rfl⟩
  | cons arr arrs ih =>
      rw [extendGlobal_cons, bind_eq_ok] at h
      obtain ⟨r₁, hfirst, h⟩ := h
      rw [bind_eq_ok] at h
      obtain ⟨r₂, hrest, h⟩ := h
      cases h
      have hgrown := grown_of_extendAndGetIndex hd hfirst
      obtain ⟨hgrown', vss, rfl, hcovers, hindices⟩ := ih hgrown.valid hrest
      have htype : arr.dataType = .prim d.datatype := by
        by_contra hne
        rw [Dictionary.extendAndGetIndex, if_pos hne] at hfirst
        cases hfirst
      obtain ⟨t, vs, rfl, -⟩ := ArrayRef.eq_prim_of_nonNest (a := arr)
        (by rw [htype]; exact dictSupported_nonNest d.supported)
      rw [ArrayRef.dataType_prim, DataType.prim.injEq] at htype
      subst htype
      obtain ⟨d', hextend, -, -, hvalues⟩ := Dictionary.extendAndGetIndex_spec hd vs
      rw [hfirst] at hextend
      cases hextend
      have hcovered : Covers d'.values vs := hvalues ▸ covers_extendedBy d.values vs
      refine ⟨hgrown.trans hgrown', vs :: vss, ?_, ?_, ?_⟩
      · rw [List.map_cons, hgrown.datatype]
      · exact List.forall_mem_cons.2 ⟨hcovered.mono hgrown'.values.subset, hcovers⟩
      · rw [List.map_cons, ← hindices, indicesOf_prefix hgrown'.values hcovered]

/-- The unit of the indices of an array in `d`, as the loop over index units pushes it. -/
def IndexItem (env : Env) (w : WASMWritingContext) (compressionType : CompressionType)
    (d : Dictionary) (q : PushedUnits) (a : ArrayRef) : Prop :=
  ∃ vs u, a = .prim d.datatype vs ∧ Covers d.values vs ∧
    UnitOptions.unit env ⟨w, false, compressionType⟩
      (.prim (indexDtype d.values.length) (indicesOf d.values vs)) = .ok u ∧
    q = ⟨u, [], a.len⟩

/-- The items of a scope, one for each array. -/
theorem scopeItems_columns {d : Dictionary} (hd : d.Valid) {arrs : List ArrayRef}
    {r : Dictionary × List (PushedUnits × Nat)}
    (h : scopeItems env w compressionType d arrs = .ok r) :
    List.Forall₂ (fun item a => IndexItem env w compressionType r.1 item.1 a ∧
      item.2 = item.1.size) r.2 arrs := by
  simp only [scopeItems, scopeIndices, bind_eq_ok, pure_eq_ok, Except.ok.injEq] at h
  obtain ⟨_, ⟨g, hg, rfl⟩, items, hitems, rfl⟩ := h
  obtain ⟨hgrown, vss, rfl, hcovers, hindices⟩ := extendGlobal_columns hd hg
  have hall := collect_eq_ok_iff.1 hitems
  rw [hindices, List.map_map, List.forall₂_map_left_iff] at hall
  have hboth := (List.forall₂_and_left vss items).2 ⟨hcovers, hall⟩
  rw [List.forall₂_map_right_iff]
  refine List.Forall₂.flip (hboth.imp ?_)
  rintro vs item ⟨hcovered, hsized⟩
  dsimp only [Function.comp_def] at hsized
  rw [len_eq_values_length, castIndexDtype_indicesOf hcovered (Nat.le_refl _)] at hsized
  have hitem := sized_eq_ok hsized
  have hsize : item.2 = item.1.size := by
    rw [sized_of_ok hitem, Except.ok.injEq] at hsized
    rw [← hsized]
  simp only [EncoderDictColEncoder.item, bind_eq_ok, pure_eq_ok, Except.ok.injEq] at hitem
  obtain ⟨u, hu, hq⟩ := hitem
  refine ⟨⟨vs, u, by rw [hgrown.datatype], hcovered, hu, ?_⟩, hsize⟩
  rw [← hq]
  show (⟨u, [], (indicesOf g.1.values vs).length⟩ : PushedUnits) = ⟨u, [], vs.length⟩
  rw [indicesOf, List.length_map]

/-- A group of index units is a chunk of the arrays. -/
theorem indexChunkOf_items {known : Nat → Dictionary → Prop} {d : Dictionary} {idx : Nat}
    (hd : known idx d) {g : List PushedUnits} {arrays : List ArrayRef}
    (h : List.Forall₂ (IndexItem env w compressionType d) g arrays) :
    IndexChunkOf env w known (chunkOf (.sharedDictionary idx, g)) arrays := by
  refine ⟨?_, idx, d, compressionType, rfl, hd, ?_⟩
  · show (g.map PushedUnits.rows).sum = _
    induction h with
    | nil => rfl
    | cons hq hrest ih =>
        obtain ⟨vs, u, -, -, -, rfl⟩ := hq
        rw [List.map_cons, List.map_cons, List.sum_cons, List.sum_cons, ih]
  · show List.Forall₂ _ (g.map PushedUnits.units).flatten arrays
    induction h with
    | nil => exact .nil
    | cons hq hrest ih =>
        obtain ⟨vs, u, ha, hcovers, hu, rfl⟩ := hq
        exact .cons ⟨vs, ha, hcovers, hu⟩ ih

/-- **The groups a scope is cut into hold all of its arrays.** -/
theorem indexGroups_contents (hbytes : env.IndicesHaveBytes w) {known : Nat → Dictionary → Prop}
    {d : Dictionary} {idx : Nat} (hd : known idx d) {items : List (PushedUnits × Nat)}
    {arrs : List ArrayRef} (h : List.Forall₂ (fun item a =>
      IndexItem env w compressionType d item.1 a ∧ item.2 = item.1.size) items arrs)
    (columnChunkSize : Nat) : ∃ contents, contents.flatten = arrs ∧
      List.Forall₂ (IndexChunkOf env w known) ((indexGroups columnChunkSize true items).map fun g =>
        chunkOf (.sharedDictionary idx, g)) contents := by
  have hpos : ∀ item ∈ items, 0 < item.2 := by
    clear hd
    induction h with
    | nil => exact List.forall_mem_nil _
    | cons hitem hrest ih =>
        obtain ⟨⟨vs, u, -, -, hu, hq⟩, hsize⟩ := hitem
        refine List.forall_mem_cons.2 ⟨?_, ih⟩
        rw [hsize, hq]
        show 0 < u.bytes.length + 0
        exact List.length_pos_of_ne_nil (hbytes compressionType _ _ u hu)
  have hflat : (indexGroups columnChunkSize true items).flatten = items.map Prod.fst :=
    flatten_cutAll (some columnChunkSize) items [] 0 hpos (.inl rfl)
  have hall : List.Forall₂ (IndexItem env w compressionType d)
      (indexGroups columnChunkSize true items).flatten arrs := by
    rw [hflat, List.forall₂_map_left_iff]
    exact h.imp fun item a hitem => hitem.1
  obtain ⟨contents, hcontents, hgroups⟩ := forall₂_groups hall
  refine ⟨contents, hcontents, ?_⟩
  rw [List.forall₂_map_left_iff]
  exact hgroups.imp fun g arrays => indexChunkOf_items hd

/-- A dictionary goes by the id at which the context has it. -/
def SharedDictionaryContext.Names (ctx : SharedDictionaryContext) (i : Nat) (d : Dictionary) : Prop :=
  ctx.dictionaries[i]? = some d

theorem names_snoc (ctx : SharedDictionaryContext) (d : Dictionary) :
    (ctx.snoc d).Names ctx.dictionaries.length d := by
  rw [SharedDictionaryContext.Names, SharedDictionaryContext.snoc, List.getElem?_concat_length]

/-- **A scope returns all the arrays that were buffered.** -/
theorem SharedDictColEncoder.encodeDictScope_contents {s t : Working SharedDictColEncoder}
    {chunks : List EncodedColumnChunk} (hbytes : env.IndicesHaveBytes s.enc.wasmContext)
    (hvalid : s.ctx.Valid) (hfit : s.ctx.dictionaries.length < 2 ^ 32)
    (h : encodeDictScope env s = .ok chunks t) :
    ∃ contents, contents.flatten = s.enc.bufferedArrays ∧
      List.Forall₂ (IndexChunkOf env s.enc.wasmContext t.ctx.Names) chunks contents := by
  cases hsubmitted : s.enc.submittedDictIdx with
  | none =>
      have hspec := encodeDictScope_spec env s hsubmitted hfit
      cases hscope : newScope s.enc.bufferedArrays >>= fun d =>
          scopeItems env s.enc.wasmContext s.enc.compressionType d s.enc.bufferedArrays with
      | error f =>
          rw [hscope] at hspec
          obtain ⟨counter, ctx, herror, -⟩ := hspec
          rw [h] at herror
          cases herror
      | ok r =>
          rw [hscope] at hspec
          obtain ⟨counter, hok⟩ := hspec
          rw [h] at hok
          cases hok
          rw [bind_eq_ok] at hscope
          obtain ⟨d₀, hnew, hitems⟩ := hscope
          exact indexGroups_contents hbytes (names_snoc s.ctx r.1)
            (scopeItems_columns (newScope_valid hnew) hitems) _
  | some dictIdx =>
      rw [encodeDictScope_submitted env s hsubmitted] at h
      obtain ⟨d₀, hd₀⟩ := exists_dictionary h
      have hspec := encodeIndices_spec env s.enc dictIdx { s with enc := s.enc.emptied } hd₀
      cases hscope : scopeItems env s.enc.wasmContext s.enc.compressionType d₀
          s.enc.bufferedArrays with
      | error f =>
          rw [hscope] at hspec
          obtain ⟨counter, d', herror⟩ := hspec
          rw [h] at herror
          cases herror
      | ok r =>
          rw [hscope] at hspec
          obtain ⟨counter, hok⟩ := hspec
          rw [h] at hok
          cases hok
          obtain ⟨hlt, -⟩ := List.getElem?_eq_some_iff.1 hd₀
          have hput : (s.ctx.put dictIdx r.1).Names dictIdx r.1 := List.getElem?_set_self hlt
          exact indexGroups_contents hbytes hput
            (scopeItems_columns (hvalid d₀ (List.mem_of_getElem? hd₀)) hscope) _

/-- **`finish` of a `GLBestEncoder` returns all the arrays that were buffered.** -/
theorem GLBestEncoder.finish_contents {s t : Working GLBestEncoder}
    {chunks : List EncodedColumnChunk} (hbytes : env.IndicesHaveBytes s.enc.wasmContext)
    (hfit : s.ctx.dictionaries.length < 2 ^ 32) (h : finish env s = .ok chunks t)
    {o : EncoderOptions} (ho : s.enc.wasmContext = o.wasmContext) :
    t.enc.wasmContext = s.enc.wasmContext ∧ t.enc.bufferedArrays = [] ∧
      ∃ contents, contents.flatten = s.enc.bufferedArrays ∧
        List.Forall₂ (Contents env o t.ctx.Names) chunks contents := by
  by_cases hnil : s.enc.bufferedArrays = []
  · rw [finish_nil env s hnil] at h
    cases h
    exact ⟨rfl, hnil, [], hnil.symm, .nil⟩
  · obtain ⟨choice, rng, hof, hends⟩ := finish_spec env s.enc s.rng hnil
    have hend := hends s.counter s.ctx
    have hs : finish env ⟨s.enc, s.counter, s.ctx, s.rng⟩ = .ok chunks t := h
    rw [hs] at hend
    cases choice with
    | localChunks localChunks =>
        obtain ⟨counter, hok⟩ := hend
        cases hok
        obtain ⟨localCounter, hlocal⟩ := hof
        obtain ⟨contents, hflat, hall⟩ := contents_local hlocal
        exact ⟨rfl, rfl, contents, hflat, hall.imp fun c arrays hc => .plain ho hc⟩
    | globalChunks d groups =>
        obtain ⟨counter, hok⟩ := hend
        cases hok
        obtain ⟨items, hitems, rfl⟩ := hof
        rw [bind_eq_ok] at hitems
        obtain ⟨d₀, hnew, hscope⟩ := hitems
        -- the id that was peeked is the one the dictionary gets
        have hid : s.ctx.peekDictId = s.ctx.dictionaries.length := Nat.mod_eq_of_lt hfit
        have hname : (s.ctx.snoc d).Names s.ctx.peekDictId d := hid ▸ names_snoc s.ctx d
        obtain ⟨contents, hflat, hall⟩ := indexGroups_contents hbytes hname
          (scopeItems_columns (newScope_valid hnew) hscope) s.enc.columnChunkSize
        exact ⟨rfl, rfl, contents, hflat, hall.imp fun c arrays hc => .indices (ho ▸ hc)⟩
    | failed f added =>
        cases added with
        | none =>
            obtain ⟨counter, herror⟩ := hend
            cases herror
        | some d =>
            obtain ⟨counter, herror⟩ := hend
            cases herror

end Indices

/-! ## Calls of the encoders -/

/-- The encoder still has these arrays, in its chunk or as they are. -/
def PhysicalColEncoder.Has (env : Env) (o : EncoderOptions) (pending : List ArrayRef) :
    PhysicalColEncoder → Prop
  | encoderDict e => ∃ u : UnitOptions, u.wasmContext = o.wasmContext ∧ Buffers env u e pending
  | dict e => o.dictionaryType = .localDictionary ∧ e.wasmContext = o.wasmContext ∧
      PairsChunkOf env o.wasmContext e.compressionType e.accumulatedChunk pending
  | sharedDict e => e.wasmContext = o.wasmContext ∧ e.bufferedArrays = pending
  | glBest e => e.wasmContext = o.wasmContext ∧ e.bufferedArrays = pending

section Calls

variable {env : Env} {o : EncoderOptions} {pending : List ArrayRef}

/-- **`encode` returns or keeps every array it was given, in order.** -/
theorem PhysicalColEncoder.encode_contents (hbytes : env.IndicesHaveBytes o.wasmContext) {array : ArrayRef}
    {s t : Working PhysicalColEncoder} {chunks : List EncodedColumnChunk}
    (h : s.enc.Has env o pending) (hvalid : s.ctx.Valid)
    (hfit : s.ctx.dictionaries.length < 2 ^ 32) (hr : encode env array s = .ok chunks t) :
    ∃ contents rest, List.Forall₂ (Contents env o t.ctx.Names) chunks contents ∧
      t.enc.Has env o rest ∧ contents.flatten ++ rest = pending ++ [array] := by
  obtain ⟨enc, counter, ctx, rng⟩ := s
  rw [encode, Act.get_bind] at hr
  cases enc with
  | encoderDict e =>
      obtain ⟨u, hu, rfl⟩ := delegate_eq_ok hr
      obtain ⟨o, ho, hbuffers⟩ := h
      obtain ⟨contents, rest, hall, hrest, hflat, -⟩ := Buffers.encode (s := ⟨e, counter, ctx, rng⟩)
        hbuffers hu
      exact ⟨contents, rest, hall.imp fun c arrays hc => .plain ho hc, ⟨o, ho, hrest⟩, hflat⟩
  | dict e =>
      obtain ⟨u, hu, rfl⟩ := delegate_eq_ok hr
      obtain ⟨hlocal, hwasm, hchunk⟩ := h
      rw [← hwasm] at hchunk
      obtain ⟨hw, hc, contents, rest, hall, hrest, hflat⟩ := DictColEncoder.encode_pairs
        (s := ⟨e, counter, ctx, rng⟩) hchunk hu
      rw [show (DictColEncoder.wasmContext _) = _ from hwasm] at hall hrest
      refine ⟨contents, rest, hall.imp fun c arrays hc => .pairs hlocal hc,
        ⟨hlocal, hw.trans hwasm, ?_⟩, hflat⟩
      rw [hc]
      exact hrest
  | sharedDict e =>
      obtain ⟨u, hu, rfl⟩ := delegate_eq_ok hr
      obtain ⟨hwasm, rfl⟩ := h
      rw [SharedDictColEncoder.encode_run] at hu
      split at hu
      · cases hu
      · split at hu
        · -- the scope is full
          obtain ⟨contents, hflat, hall⟩ := SharedDictColEncoder.encodeDictScope_contents
            (s := ⟨e.buffering env array, counter, ctx, rng⟩) (hwasm ▸ hbytes) hvalid hfit hu
          have hleft := (SharedDictColEncoder.encodeDictScope_left env
            ⟨e.buffering env array, counter, ctx, rng⟩).1
          rw [hu] at hleft
          have henc : u.enc = (e.buffering env array).emptied := hleft
          have hall' : List.Forall₂ (IndexChunkOf env o.wasmContext u.ctx.Names) chunks contents :=
            hwasm ▸ hall
          refine ⟨contents, [], hall'.imp fun c arrays hc => .indices hc, ?_, ?_⟩
          · show u.enc.wasmContext = o.wasmContext ∧ u.enc.bufferedArrays = []
            rw [henc]
            exact ⟨hwasm, rfl⟩
          · rw [hflat, List.append_nil]
            rfl
        · cases hu
          exact ⟨[], e.bufferedArrays ++ [array], .nil, ⟨hwasm, rfl⟩, rfl⟩
  | glBest e =>
      obtain ⟨u, hu, rfl⟩ := delegate_eq_ok hr
      obtain ⟨hwasm, rfl⟩ := h
      rw [GLBestEncoder.encode_run] at hu
      split at hu
      · cases hu
      · cases hu
        exact ⟨[], e.bufferedArrays ++ [array], .nil, ⟨hwasm, rfl⟩, rfl⟩

/-- **`finish` returns every array the encoder still had, in order.** -/
theorem PhysicalColEncoder.finish_contents (hbytes : env.IndicesHaveBytes o.wasmContext)
    {s t : Working PhysicalColEncoder} {chunks : List EncodedColumnChunk}
    (h : s.enc.Has env o pending) (hvalid : s.ctx.Valid)
    (hfit : s.ctx.dictionaries.length < 2 ^ 32) (hr : finish env s = .ok chunks t) :
    ∃ contents, List.Forall₂ (Contents env o t.ctx.Names) chunks contents ∧
      t.enc.Has env o [] ∧ contents.flatten = pending := by
  obtain ⟨enc, counter, ctx, rng⟩ := s
  rw [finish, Act.get_bind] at hr
  cases enc with
  | encoderDict e =>
      obtain ⟨u, hu, rfl⟩ := delegate_eq_ok hr
      obtain ⟨o, ho, hbuffers⟩ := h
      obtain ⟨contents, hall, hrest, hflat, -⟩ := Buffers.finish (s := ⟨e, counter, ctx, rng⟩)
        hbuffers hu
      exact ⟨contents, hall.imp fun c arrays hc => .plain ho hc, ⟨o, ho, hrest⟩, hflat⟩
  | dict e =>
      obtain ⟨u, hu, rfl⟩ := delegate_eq_ok hr
      obtain ⟨hlocal, hwasm, hchunk⟩ := h
      rw [← hwasm] at hchunk
      obtain ⟨hw, hc, contents, hall, hrest, hflat⟩ := DictColEncoder.finish_pairs
        (s := ⟨e, counter, ctx, rng⟩) hchunk hu
      rw [show (DictColEncoder.wasmContext _) = _ from hwasm] at hall hrest
      refine ⟨contents, hall.imp fun c arrays hc => .pairs hlocal hc,
        ⟨hlocal, hw.trans hwasm, ?_⟩, hflat⟩
      rw [hc]
      exact hrest
  | sharedDict e =>
      obtain ⟨u, hu, rfl⟩ := delegate_eq_ok hr
      obtain ⟨hwasm, rfl⟩ := h
      rw [SharedDictColEncoder.finish_run] at hu
      split at hu
      · next hempty =>
          cases hu
          have hnil : e.bufferedArrays = [] := List.isEmpty_iff.1 hempty
          exact ⟨[], .nil, ⟨hwasm, hnil⟩, hnil.symm⟩
      · obtain ⟨contents, hflat, hall⟩ := SharedDictColEncoder.encodeDictScope_contents
          (s := ⟨e, counter, ctx, rng⟩) (hwasm ▸ hbytes) hvalid hfit hu
        have hleft := (SharedDictColEncoder.encodeDictScope_left env ⟨e, counter, ctx, rng⟩).1
        rw [hu] at hleft
        have henc : u.enc = e.emptied := hleft
        have hall' : List.Forall₂ (IndexChunkOf env o.wasmContext u.ctx.Names) chunks contents :=
          hwasm ▸ hall
        refine ⟨contents, hall'.imp fun c arrays hc => .indices hc, ?_, hflat⟩
        show u.enc.wasmContext = o.wasmContext ∧ u.enc.bufferedArrays = []
        rw [henc]
        exact ⟨hwasm, rfl⟩
  | glBest e =>
      obtain ⟨u, hu, rfl⟩ := delegate_eq_ok hr
      obtain ⟨hwasm, rfl⟩ := h
      obtain ⟨hw, hnil, contents, hflat, hall⟩ := GLBestEncoder.finish_contents
        (s := ⟨e, counter, ctx, rng⟩) (hwasm ▸ hbytes) hfit hu hwasm
      exact ⟨contents, hall, ⟨hw.trans hwasm, hnil⟩, hflat⟩

/-- A new encoder has nothing. -/
theorem PhysicalColEncoder.has_physical {o : EncoderOptions} {dataType : DataType}
    {p : PhysicalColEncoder} (h : o.physical dataType = .ok p) : p.Has env o [] := by
  unfold EncoderOptions.physical createPhysicalEncoder at h
  split at h
  · split at h
    · split at h
      · cases h
        exact ⟨_, rfl, rfl, chunkOf_default⟩
      · cases h
        exact ⟨_, rfl, rfl, chunkOf_default⟩
      · next hlocal =>
          cases h
          exact ⟨hlocal, rfl, pairsChunkOf_empty (.inl rfl)⟩
      · cases h
        exact ⟨rfl, rfl⟩
      · cases h
        exact ⟨rfl, rfl⟩
      · cases h
        exact ⟨rfl, rfl⟩
      · cases h
        exact ⟨rfl, rfl⟩
    · cases h
  · cases h
    exact ⟨_, rfl, rfl, chunkOf_default⟩
  · cases h
    exact ⟨_, rfl, rfl, chunkOf_default⟩
  · cases h

end Calls

end F3Format
