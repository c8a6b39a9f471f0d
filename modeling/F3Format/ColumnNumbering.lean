import F3Format.ColumnCalls
import F3Format.DecoderLogical

/-!
# The numbering of physical columns

`create_logical_encoder` and `create_logical_decoder` are two recursions over a
field tree, each with its own column index sequence. Both number the nodes in
preorder, so that a node of the decoder reads the column its counterpart wrote,
and decodes it as the type of the arrays sent there.
-/

set_option autoImplicit false

namespace F3Format

open Lib

/-! ## Supported field trees -/

mutual

/-- Trees of supported leaves, lists, large lists and structs. -/
def DataType.supported : DataType → Bool
  | .prim t => t.nonNest
  | .list child => child.supported
  | .largeList child => child.supported
  | .struct fields => Field.supportedAll fields

/-- The type of the field is supported. -/
def Field.supported : Field → Bool
  | .mk _ dataType _ => dataType.supported

/-- All fields are supported. -/
def Field.supportedAll : List Field → Bool
  | [] => true
  | f :: fs => f.supported && Field.supportedAll fs

end

mutual

/-- The number of nodes of a field tree. -/
def DataType.nodes : DataType → Nat
  | .prim _ => 1
  | .list child => child.nodes + 1
  | .largeList child => child.nodes + 1
  | .struct fields => Field.nodesAll fields + 1

/-- The number of nodes of the tree of a field. -/
def Field.nodes : Field → Nat
  | .mk _ dataType _ => dataType.nodes

/-- The number of nodes of a list of fields. -/
def Field.nodesAll : List Field → Nat
  | [] => 0
  | f :: fs => f.nodes + Field.nodesAll fs

end

theorem Field.supported_eq (f : Field) : f.supported = f.dataType.supported := by
  cases f
  rfl

/-! ## The encoder -/

section Encoder

variable (o : EncoderOptions)

/-- Every supported type but a struct has a physical encoder. -/
theorem EncoderOptions.exists_physical {t : PrimType} (h : t.nonNest = true) :
    ∃ p, o.physical (.prim t) = .ok p := by
  simp only [physical, createPhysicalEncoder, h, if_true]
  cases o.dictionaryType <;> exact ⟨_, rfl⟩

theorem range'_append_one (i m n : Nat) :
    List.range' i m ++ List.range' (i + m) n = List.range' i (m + n) := by
  have h := @List.range'_append i m n 1
  rwa [Nat.one_mul] at h

mutual

/-- The encoder of a type takes the next index for its root and the following
ones for its children, in order. -/
theorem createLogicalEncoderOf_numbers : ∀ (t : DataType) (i : Nat), t.supported = true →
    ∃ e tree, createLogicalEncoderOf o t i = .ok (e, tree, i + t.nodes) ∧
      e.columns = List.range' i t.nodes
  | .prim t, i, h => by
      obtain ⟨p, hp⟩ := o.exists_physical h
      refine ⟨.flat p i, .mk .flat [], ?_, rfl⟩
      have ht : t.nonNest = true := h
      simp only [createLogicalEncoderOf, ht, if_true, hp, ok_bind]
      rfl
  | .list child, i, h => by
      obtain ⟨e, tree, he, hcols⟩ := createLogicalEncoder_numbers child (i + 1) h
      obtain ⟨p, hp⟩ : ∃ p, o.physical (.list child) = .ok p := ⟨_, rfl⟩
      refine ⟨.list p i e, .mk .list [tree], ?_, ?_⟩
      · simp only [createLogicalEncoderOf, hp, ok_bind, he, pure_eq_ok, DataType.nodes]
        rw [Nat.add_right_comm, Nat.add_assoc]
      · rw [LogicalColEncoder.columns, hcols, DataType.nodes, List.range'_succ]
  | .largeList child, i, h => by
      obtain ⟨e, tree, he, hcols⟩ := createLogicalEncoder_numbers child (i + 1) h
      obtain ⟨p, hp⟩ : ∃ p, o.physical (.largeList child) = .ok p := ⟨_, rfl⟩
      refine ⟨.list p i e, .mk .list [tree], ?_, ?_⟩
      · simp only [createLogicalEncoderOf, hp, ok_bind, he, pure_eq_ok, DataType.nodes]
        rw [Nat.add_right_comm, Nat.add_assoc]
      · rw [LogicalColEncoder.columns, hcols, DataType.nodes, List.range'_succ]
  | .struct fields, i, h => by
      obtain ⟨es, trees, hes, hcols⟩ := createLogicalEncoders_numbers fields (i + 1) h
      obtain ⟨p, hp⟩ := o.exists_physical (t := .boolean) rfl
      refine ⟨.struct p i es, .mk .struct trees, ?_, ?_⟩
      · simp only [createLogicalEncoderOf, hes, hp, ok_bind, pure_eq_ok, DataType.nodes]
        rw [Nat.add_right_comm, Nat.add_assoc]
      · rw [LogicalColEncoder.columns, hcols, DataType.nodes, List.range'_succ]

theorem createLogicalEncoder_numbers : ∀ (f : Field) (i : Nat), f.supported = true →
    ∃ e tree, createLogicalEncoder o f i = .ok (e, tree, i + f.nodes) ∧
      e.columns = List.range' i f.nodes
  | .mk _ dataType _, i, h => createLogicalEncoderOf_numbers dataType i h

theorem createLogicalEncoders_numbers : ∀ (fs : List Field) (i : Nat),
    Field.supportedAll fs = true →
    ∃ es trees, createLogicalEncoders o fs i = .ok (es, trees, i + Field.nodesAll fs) ∧
      LogicalColEncoder.columnsOf es = List.range' i (Field.nodesAll fs)
  | [], i, _ => ⟨[], [], rfl, rfl⟩
  | f :: fs, i, h => by
      simp only [Field.supportedAll, Bool.and_eq_true] at h
      obtain ⟨e, tree, he, hcols⟩ := createLogicalEncoder_numbers f i h.1
      obtain ⟨es, trees, hes, hrest⟩ := createLogicalEncoders_numbers fs (i + f.nodes) h.2
      refine ⟨e :: es, tree :: trees, ?_, ?_⟩
      · simp only [createLogicalEncoders, he, hes, ok_bind, pure_eq_ok, Field.nodesAll,
          Nat.add_assoc]
      · rw [LogicalColEncoder.columnsOf, hcols, hrest, Field.nodesAll, range'_append_one]

end

end Encoder

/-! ## The types sent -/

mutual

/-- What each column of a type holds: a leaf its own type, a list its validity
and offsets, a struct its validity. -/
def DataType.columnTypes : DataType → List DataType
  | .prim t => [.prim t]
  | .list child => .list child :: child.columnTypes
  | .largeList child => .largeList child :: child.columnTypes
  | .struct fields => .prim .boolean :: Field.columnTypesAll fields

/-- The types of the columns of a field. -/
def Field.columnTypes : Field → List DataType
  | .mk _ dataType _ => dataType.columnTypes

/-- The types of the columns of a list of fields. -/
def Field.columnTypesAll : List Field → List DataType
  | [] => []
  | f :: fs => f.columnTypes ++ Field.columnTypesAll fs

end

mutual

theorem DataType.length_columnTypes : ∀ t : DataType, t.columnTypes.length = t.nodes
  | .prim _ => rfl
  | .list child => congrArg Nat.succ child.length_columnTypes
  | .largeList child => congrArg Nat.succ child.length_columnTypes
  | .struct fields => congrArg Nat.succ (Field.length_columnTypesAll fields)

theorem Field.length_columnTypes : ∀ f : Field, f.columnTypes.length = f.nodes
  | .mk _ dataType _ => dataType.length_columnTypes

theorem Field.length_columnTypesAll : ∀ fs : List Field,
    (Field.columnTypesAll fs).length = Field.nodesAll fs
  | [] => rfl
  | f :: fs => by
      rw [Field.columnTypesAll, List.length_append, f.length_columnTypes,
        Field.length_columnTypesAll fs, Field.nodesAll]

end

/-- `extract_items` of a well-formed list is a slice of its values. -/
theorem extractItems_ok {large : Bool} {child : Field} {offsets : List Nat} {values : ArrayRef}
    {nulls : Option (List Bool)} (hwf : (ArrayRef.list large child offsets values nulls).wf = true) :
    ∃ items, extractItems (.list large child offsets values nulls) = .ok items ∧
      items.wf = true ∧ items.dataType = child.dataType := by
  simp only [ArrayRef.wf, Bool.and_eq_true, decide_eq_true_eq] at hwf
  obtain ⟨⟨⟨⟨⟨⟨-, hmono⟩, hlast⟩, -⟩, -⟩, htype⟩, hvalues⟩ := hwf
  have horder : offsets.headD 0 ≤ offsets.getLastD 0 := headD_le_getLastD hmono
  refine ⟨_, if_pos ⟨horder, hlast⟩, values.wf_slice hvalues ?_, ?_⟩
  · omega
  · rw [ArrayRef.dataType_slice, htype]

mutual

/-- The encoder built for a type sends, of every well-formed array of that type,
an array of the column's type to every column. -/
theorem sent_createLogicalEncoderOf {o : EncoderOptions} : ∀ (t : DataType) {i : Nat}
    {e : LogicalColEncoder} {tree : LogicalTree} {n : Nat} {a : ArrayRef},
    createLogicalEncoderOf o t i = .ok (e, tree, n) → a.dataType = t → a.wf = true →
      ∃ calls, e.sent a = .ok calls ∧ calls.map (fun c => c.2.dataType) = t.columnTypes
  | .prim t, i, e, tree, n, a, he, ha, _ => by
      simp only [createLogicalEncoderOf] at he
      split at he
      · simp only [bind_eq_ok, pure_eq_ok, Except.ok.injEq, Prod.mk.injEq] at he
        obtain ⟨p, -, rfl, -⟩ := he
        exact ⟨[(i, a)], rfl, congrArg (fun t => [t]) ha⟩
      · cases he
  | .list child, i, e, tree, n, a, he, ha, hwf => by
      simp only [createLogicalEncoderOf, bind_eq_ok, pure_eq_ok, Except.ok.injEq,
        Prod.mk.injEq] at he
      obtain ⟨p, -, ⟨v, childTree, m⟩, hv, rfl, -⟩ := he
      cases a with
      | prim t vs => cases ha
      | struct fs cols nulls len => cases ha
      | list large f offsets values nulls =>
          cases large with
          | true => cases ha
          | false =>
              cases ha
              obtain ⟨items, hitems, hiwf, hitype⟩ := extractItems_ok hwf
              obtain ⟨calls, hcalls, htypes⟩ := sent_createLogicalEncoder child hv hitype hiwf
              refine ⟨_, by simp only [LogicalColEncoder.sent, hitems, hcalls, ok_bind]; rfl, ?_⟩
              exact congrArg (List.cons (DataType.list child)) htypes
  | .largeList child, i, e, tree, n, a, he, ha, hwf => by
      simp only [createLogicalEncoderOf, bind_eq_ok, pure_eq_ok, Except.ok.injEq,
        Prod.mk.injEq] at he
      obtain ⟨p, -, ⟨v, childTree, m⟩, hv, rfl, -⟩ := he
      cases a with
      | prim t vs => cases ha
      | struct fs cols nulls len => cases ha
      | list large f offsets values nulls =>
          cases large with
          | false => cases ha
          | true =>
              cases ha
              obtain ⟨items, hitems, hiwf, hitype⟩ := extractItems_ok hwf
              obtain ⟨calls, hcalls, htypes⟩ := sent_createLogicalEncoder child hv hitype hiwf
              refine ⟨_, by simp only [LogicalColEncoder.sent, hitems, hcalls, ok_bind]; rfl, ?_⟩
              exact congrArg (List.cons (DataType.largeList child)) htypes
  | .struct fields, i, e, tree, n, a, he, ha, hwf => by
      simp only [createLogicalEncoderOf, bind_eq_ok, pure_eq_ok, Except.ok.injEq,
        Prod.mk.injEq] at he
      obtain ⟨⟨es, trees, m⟩, hes, p, -, rfl, -⟩ := he
      cases a with
      | prim t vs => cases ha
      | list large f offsets values nulls => cases large <;> cases ha
      | struct fs cols nulls len =>
          cases ha
          simp only [ArrayRef.wf, Bool.and_eq_true, decide_eq_true_eq] at hwf
          obtain ⟨⟨⟨⟨htypes, -⟩, -⟩, -⟩, hcols⟩ := hwf
          obtain ⟨calls, hcalls, hctypes⟩ := sentOf_createLogicalEncoders fields hes htypes.symm hcols
          refine ⟨_, by simp only [LogicalColEncoder.sent, structColumns, hcalls, ok_bind]; rfl, ?_⟩
          exact congrArg (List.cons (DataType.prim .boolean)) hctypes

theorem sent_createLogicalEncoder {o : EncoderOptions} : ∀ (f : Field) {i : Nat}
    {e : LogicalColEncoder} {tree : LogicalTree} {n : Nat} {a : ArrayRef},
    createLogicalEncoder o f i = .ok (e, tree, n) → a.dataType = f.dataType → a.wf = true →
      ∃ calls, e.sent a = .ok calls ∧ calls.map (fun c => c.2.dataType) = f.columnTypes
  | .mk _ dataType _, _, _, _, _, _, he, ha, hwf => sent_createLogicalEncoderOf dataType he ha hwf

theorem sentOf_createLogicalEncoders {o : EncoderOptions} : ∀ (fs : List Field) {i : Nat}
    {es : List LogicalColEncoder} {trees : List LogicalTree} {n : Nat} {cs : List ArrayRef},
    createLogicalEncoders o fs i = .ok (es, trees, n) →
      cs.map ArrayRef.dataType = fs.map Field.dataType → ArrayRef.wfList cs = true →
        ∃ calls, LogicalColEncoder.sentOf es cs = .ok calls ∧
          calls.map (fun c => c.2.dataType) = Field.columnTypesAll fs
  | [], _, es, _, _, cs, he, _, _ => by
      cases he
      exact ⟨[], by cases cs <;> rfl, rfl⟩
  | f :: fs, i, es, trees, n, cs, he, htypes, hwf => by
      simp only [createLogicalEncoders, bind_eq_ok, pure_eq_ok, Except.ok.injEq,
        Prod.mk.injEq] at he
      obtain ⟨⟨e, tree, m⟩, he, ⟨rest, restTrees, m'⟩, hrest, rfl, -⟩ := he
      cases cs with
      | nil => cases htypes
      | cons c cs =>
          simp only [List.map_cons, List.cons.injEq] at htypes
          simp only [ArrayRef.wfList, Bool.and_eq_true] at hwf
          obtain ⟨calls, hcalls, hct⟩ := sent_createLogicalEncoder f he htypes.1 hwf.1
          obtain ⟨more, hmore, hmt⟩ := sentOf_createLogicalEncoders fs hrest htypes.2 hwf.2
          refine ⟨calls ++ more, ?_, ?_⟩
          · simp only [LogicalColEncoder.sentOf, hcalls, hmore, ok_bind]
            rfl
          · rw [List.map_append, hct, hmt]
            rfl

end

/-! ## The decoder -/

namespace LogicalColDecoder

mutual

/-- The types the decoder passes to its physical decoders, in preorder. -/
def columnTypes : LogicalColDecoder → List DataType
  | primitive d => [d.primitiveType]
  | list _ d values => d.primitiveType :: columnTypes values
  | struct _ d children => d.primitiveType :: columnTypesAll children

/-- The types passed for the children of a struct. -/
def columnTypesAll : List LogicalColDecoder → List DataType
  | [] => []
  | d :: ds => columnTypes d ++ columnTypesAll ds

end

end LogicalColDecoder

/-- The decoder reads the chunks of physical column `i`. -/
def PrimitiveColDecoder.Reads (columnMetas : List Fb.ColumnMetadata) (i : Nat)
    (d : PrimitiveColDecoder) : Prop :=
  ∃ columnMeta, columnMetas[i]? = some columnMeta ∧ columnMeta.columnChunks = some d.chunksMeta

mutual

/-- Encoder and decoder trees of one shape; a node of the decoder reads the
column that its counterpart writes. As it is stated for all metadata, also for
columns with different chunks, it determines the index of every node. -/
inductive SameColumns (metas : List Fb.ColumnMetadata) :
    LogicalColEncoder → LogicalColDecoder → Prop where
  | leaf {p : PhysicalColEncoder} {i : Nat} {d : PrimitiveColDecoder} :
      d.Reads metas i → SameColumns metas (.flat p i) (.primitive d)
  | list {p : PhysicalColEncoder} {i : Nat} {v : LogicalColEncoder} {field : Field}
      {d : PrimitiveColDecoder} {values : LogicalColDecoder} :
      d.Reads metas i → SameColumns metas v values →
        SameColumns metas (.list p i v) (.list field d values)
  | struct {p : PhysicalColEncoder} {i : Nat} {es : List LogicalColEncoder} {fields : List Field}
      {d : PrimitiveColDecoder} {children : List LogicalColDecoder} :
      d.Reads metas i → SameColumnsAll metas es children →
        SameColumns metas (.struct p i es) (.struct fields d children)

/-- `SameColumns` of every pair of children. -/
inductive SameColumnsAll (metas : List Fb.ColumnMetadata) :
    List LogicalColEncoder → List LogicalColDecoder → Prop where
  | nil : SameColumnsAll metas [] []
  | cons {e : LogicalColEncoder} {es : List LogicalColEncoder} {d : LogicalColDecoder}
      {ds : List LogicalColDecoder} :
      SameColumns metas e d → SameColumnsAll metas es ds → SameColumnsAll metas (e :: es) (d :: ds)

end

theorem DecoderOptions.primitive_eq_ok {o : DecoderOptions} {i : Nat} {t : DataType}
    {d : PrimitiveColDecoder} (h : o.primitive i t = .ok d) :
    d.Reads o.columnMetas i ∧ d.primitiveType = t := by
  simp only [primitive, bind_eq_ok, unwrapSome_eq_ok, okOr_eq_ok, pure_eq_ok,
    Except.ok.injEq] at h
  obtain ⟨columnMeta, hmeta, chunks, hchunks, rfl⟩ := h
  exact ⟨⟨columnMeta, hmeta, hchunks⟩, rfl⟩

section Decoder

variable {oe : EncoderOptions} {o : DecoderOptions}

mutual

/-- Both recursions over a type, started at one index, make trees that agree. -/
theorem createLogicalDecoderOf_agrees : ∀ (t : DataType) {name : String} {nullable : Bool}
    {i : Nat} {e : LogicalColEncoder} {tree : LogicalTree} {n m : Nat} {d : LogicalColDecoder},
    createLogicalEncoderOf oe t i = .ok (e, tree, n) →
      createLogicalDecoderOf o name nullable t i = .ok (d, m) →
        SameColumns o.columnMetas e d ∧ d.columnTypes = t.columnTypes ∧ m = n
  | .prim t, _, _, i, e, tree, n, m, d, he, hd => by
      simp only [createLogicalEncoderOf, createLogicalDecoderOf] at he hd
      by_cases ht : t.nonNest = true
      · simp only [ht, if_true, bind_eq_ok, pure_eq_ok, Except.ok.injEq, Prod.mk.injEq] at he hd
        obtain ⟨p, -, rfl, -, rfl⟩ := he
        obtain ⟨d, hread, rfl, rfl⟩ := hd
        obtain ⟨hreads, htype⟩ := DecoderOptions.primitive_eq_ok hread
        exact ⟨.leaf hreads, congrArg (fun t => [t]) htype, rfl⟩
      · simp only [ht] at he
        cases he
  | .list child, _, _, i, e, tree, n, m, d, he, hd => by
      simp only [createLogicalEncoderOf, createLogicalDecoderOf, bind_eq_ok, pure_eq_ok,
        Except.ok.injEq, Prod.mk.injEq] at he hd
      obtain ⟨p, -, ⟨v, childTree, k⟩, hv, rfl, -, rfl⟩ := he
      obtain ⟨d, hread, ⟨values, k'⟩, hvalues, rfl, rfl⟩ := hd
      obtain ⟨hreads, htype⟩ := DecoderOptions.primitive_eq_ok hread
      obtain ⟨hsame, htypes, hnext⟩ := createLogicalDecoder_agrees child hv hvalues
      refine ⟨.list hreads hsame, ?_, hnext⟩
      rw [LogicalColDecoder.columnTypes, htype, htypes, DataType.columnTypes]
  | .largeList child, _, _, i, e, tree, n, m, d, he, hd => by
      simp only [createLogicalEncoderOf, createLogicalDecoderOf, bind_eq_ok, pure_eq_ok,
        Except.ok.injEq, Prod.mk.injEq] at he hd
      obtain ⟨p, -, ⟨v, childTree, k⟩, hv, rfl, -, rfl⟩ := he
      obtain ⟨d, hread, ⟨values, k'⟩, hvalues, rfl, rfl⟩ := hd
      obtain ⟨hreads, htype⟩ := DecoderOptions.primitive_eq_ok hread
      obtain ⟨hsame, htypes, hnext⟩ := createLogicalDecoder_agrees child hv hvalues
      refine ⟨.list hreads hsame, ?_, hnext⟩
      rw [LogicalColDecoder.columnTypes, htype, htypes, DataType.columnTypes]
  | .struct fields, _, _, i, e, tree, n, m, d, he, hd => by
      simp only [createLogicalEncoderOf, createLogicalDecoderOf, bind_eq_ok, pure_eq_ok,
        Except.ok.injEq, Prod.mk.injEq] at he hd
      obtain ⟨⟨es, trees, k⟩, hes, p, -, rfl, -, rfl⟩ := he
      obtain ⟨d, hread, ⟨children, k'⟩, hchildren, rfl, rfl⟩ := hd
      obtain ⟨hreads, htype⟩ := DecoderOptions.primitive_eq_ok hread
      obtain ⟨hsame, htypes, hnext⟩ := createLogicalDecoders_agrees fields hes hchildren
      refine ⟨.struct hreads hsame, ?_, hnext⟩
      rw [LogicalColDecoder.columnTypes, htype, htypes, DataType.columnTypes]

theorem createLogicalDecoder_agrees : ∀ (f : Field) {i : Nat} {e : LogicalColEncoder}
    {tree : LogicalTree} {n m : Nat} {d : LogicalColDecoder},
    createLogicalEncoder oe f i = .ok (e, tree, n) → createLogicalDecoder o f i = .ok (d, m) →
      SameColumns o.columnMetas e d ∧ d.columnTypes = f.columnTypes ∧ m = n
  | .mk _ dataType _, _, _, _, _, _, _, he, hd => createLogicalDecoderOf_agrees dataType he hd

theorem createLogicalDecoders_agrees : ∀ (fs : List Field) {i : Nat}
    {es : List LogicalColEncoder} {trees : List LogicalTree} {n m : Nat}
    {ds : List LogicalColDecoder},
    createLogicalEncoders oe fs i = .ok (es, trees, n) →
      createLogicalDecoders o fs i = .ok (ds, m) →
        SameColumnsAll o.columnMetas es ds ∧
          LogicalColDecoder.columnTypesAll ds = Field.columnTypesAll fs ∧ m = n
  | [], _, _, _, _, _, _, he, hd => by
      cases he
      cases hd
      exact ⟨.nil, rfl, rfl⟩
  | f :: fs, i, es, trees, n, m, ds, he, hd => by
      simp only [createLogicalEncoders, createLogicalDecoders, bind_eq_ok, pure_eq_ok,
        Except.ok.injEq, Prod.mk.injEq] at he hd
      obtain ⟨⟨e, tree, k⟩, he, ⟨rest, restTrees, l⟩, hrest, rfl, -, rfl⟩ := he
      obtain ⟨⟨d, k'⟩, hd, ⟨ds, l'⟩, hds, rfl, rfl⟩ := hd
      obtain ⟨hsame, htypes, rfl⟩ := createLogicalDecoder_agrees f he hd
      obtain ⟨hall, hatypes, hnext⟩ := createLogicalDecoders_agrees fs hrest hds
      refine ⟨.cons hsame hall, ?_, hnext⟩
      rw [LogicalColDecoder.columnTypesAll, htypes, hatypes, Field.columnTypesAll]

end

/-- The metadata has a list of chunks for each of the first `n` columns. -/
def CoversColumns (metas : List Fb.ColumnMetadata) (n : Nat) : Prop :=
  ∀ i < n, ∃ columnMeta, metas[i]? = some columnMeta ∧ columnMeta.columnChunks.isSome = true

theorem CoversColumns.primitive {n i : Nat} (h : CoversColumns o.columnMetas n) (hi : i < n)
    (t : DataType) : ∃ d, o.primitive i t = .ok d := by
  obtain ⟨columnMeta, hmeta, hsome⟩ := h i hi
  obtain ⟨chunks, hchunks⟩ := Option.isSome_iff_exists.1 hsome
  refine ⟨⟨o.r, chunks, t, o.wasmContext, o.sharedDictionaryCache, o.checksumType⟩, ?_⟩
  rw [DecoderOptions.primitive, hmeta, unwrapSome, ok_bind, hchunks, okOr, ok_bind, pure_eq_ok]

mutual

/-- A covered tree has a decoder. -/
theorem createLogicalDecoderOf_ok : ∀ (t : DataType) {name : String} {nullable : Bool}
    {i n : Nat}, t.supported = true → CoversColumns o.columnMetas n → i + t.nodes ≤ n →
      ∃ d, createLogicalDecoderOf o name nullable t i = .ok (d, i + t.nodes)
  | .prim t, _, _, i, n, ht, hcov, hn => by
      obtain ⟨d, hd⟩ := hcov.primitive (i := i) hn (.prim t)
      have hnon : t.nonNest = true := ht
      refine ⟨.primitive d, ?_⟩
      simp only [createLogicalDecoderOf, hd, hnon, ok_bind, if_true]
      rfl
  | .list child, name, nullable, i, n, ht, hcov, hn => by
      simp only [DataType.nodes] at hn
      obtain ⟨d, hd⟩ := hcov.primitive (i := i) (by omega) (.list child)
      obtain ⟨values, hvalues⟩ := createLogicalDecoder_ok child (i := i + 1) ht hcov (by omega)
      refine ⟨.list (.mk name (.list child) nullable) d values, ?_⟩
      simp only [createLogicalDecoderOf, hd, hvalues, ok_bind, pure_eq_ok, DataType.nodes]
      rw [Nat.add_right_comm, Nat.add_assoc]
  | .largeList child, name, nullable, i, n, ht, hcov, hn => by
      simp only [DataType.nodes] at hn
      obtain ⟨d, hd⟩ := hcov.primitive (i := i) (by omega) (.largeList child)
      obtain ⟨values, hvalues⟩ := createLogicalDecoder_ok child (i := i + 1) ht hcov (by omega)
      refine ⟨.list (.mk name (.largeList child) nullable) d values, ?_⟩
      simp only [createLogicalDecoderOf, hd, hvalues, ok_bind, pure_eq_ok, DataType.nodes]
      rw [Nat.add_right_comm, Nat.add_assoc]
  | .struct fields, _, _, i, n, ht, hcov, hn => by
      simp only [DataType.nodes] at hn
      obtain ⟨d, hd⟩ := hcov.primitive (i := i) (by omega) (.prim .boolean)
      obtain ⟨ds, hds⟩ := createLogicalDecoders_ok fields (i := i + 1) ht hcov (by omega)
      refine ⟨.struct fields d ds, ?_⟩
      simp only [createLogicalDecoderOf, hd, hds, ok_bind, pure_eq_ok, DataType.nodes]
      rw [Nat.add_right_comm, Nat.add_assoc]

theorem createLogicalDecoder_ok : ∀ (f : Field) {i n : Nat}, f.supported = true →
    CoversColumns o.columnMetas n → i + f.nodes ≤ n →
      ∃ d, createLogicalDecoder o f i = .ok (d, i + f.nodes)
  | .mk _ dataType _, _, _, ht, hcov, hn => createLogicalDecoderOf_ok dataType ht hcov hn

theorem createLogicalDecoders_ok : ∀ (fs : List Field) {i n : Nat},
    Field.supportedAll fs = true → CoversColumns o.columnMetas n → i + Field.nodesAll fs ≤ n →
      ∃ ds, createLogicalDecoders o fs i = .ok (ds, i + Field.nodesAll fs)
  | [], i, _, _, _, _ => ⟨[], rfl⟩
  | f :: fs, i, n, ht, hcov, hn => by
      simp only [Field.supportedAll, Bool.and_eq_true] at ht
      simp only [Field.nodesAll] at hn
      obtain ⟨d, hd⟩ := createLogicalDecoder_ok f (i := i) ht.1 hcov (by omega)
      obtain ⟨ds, hds⟩ := createLogicalDecoders_ok fs (i := i + f.nodes) ht.2 hcov (by omega)
      refine ⟨d :: ds, ?_⟩
      simp only [createLogicalDecoders, hd, hds, ok_bind, pure_eq_ok, Field.nodesAll,
        Nat.add_assoc]

end

end Decoder

/-! ## The numberings agree -/

/-- What an encoder sends of the arrays of a field: one array to each of its
columns, in order, of the types listed, and nothing else is encoded. -/
def SendsTypes (f : Field) (e : LogicalColEncoder) (types : List DataType) : Prop :=
  ∀ a : ArrayRef, a.dataType = f.dataType → a.wf = true →
    ∃ calls, e.sent a = .ok calls ∧ calls.map Prod.fst = e.columns ∧
      calls.map (fun c => c.2.dataType) = types ∧
      ∀ (env : Env) (s : Shared),
        onPhysicals LogicalColEncoder.physicals (chunksOf (e.encode env a s)) =
          encodeEach env e.physicals calls s

theorem sendsTypes_createLogicalEncoder {o : EncoderOptions} {f : Field} {i : Nat}
    {e : LogicalColEncoder} {tree : LogicalTree} {n : Nat}
    (h : createLogicalEncoder o f i = .ok (e, tree, n)) : SendsTypes f e f.columnTypes := by
  intro a ha hwf
  obtain ⟨calls, hcalls, htypes⟩ := sent_createLogicalEncoder f h ha hwf
  exact ⟨calls, hcalls, e.columns_sent hcalls, htypes,
    fun env s => e.encode_eq_encodeEach env s hcalls⟩

/-- The encoder and the decoder of a field agree: node by node they use one
column, and the types the decoder expects are those the encoder sends. -/
structure NumberedAlike (metas : List Fb.ColumnMetadata) (f : Field) (e : LogicalColEncoder)
    (d : LogicalColDecoder) : Prop where
  columns : SameColumns metas e d
  types : SendsTypes f e d.columnTypes

/-- `NumberedAlike` for each field of a schema. -/
inductive AllNumberedAlike (metas : List Fb.ColumnMetadata) :
    List Field → List LogicalColEncoder → List LogicalColDecoder → Prop where
  | nil : AllNumberedAlike metas [] [] []
  | cons {f : Field} {fs : List Field} {e : LogicalColEncoder} {es : List LogicalColEncoder}
      {d : LogicalColDecoder} {ds : List LogicalColDecoder} :
      NumberedAlike metas f e d → AllNumberedAlike metas fs es ds →
        AllNumberedAlike metas (f :: fs) (e :: es) (d :: ds)

theorem allNumberedAlike {oe : EncoderOptions} {o : DecoderOptions} : ∀ {fs : List Field} {i : Nat}
    {es : List LogicalColEncoder} {trees : List LogicalTree} {n m : Nat}
    {ds : List LogicalColDecoder},
    createLogicalEncoders oe fs i = .ok (es, trees, n) →
      createLogicalDecoders o fs i = .ok (ds, m) →
        m = n ∧ AllNumberedAlike o.columnMetas fs es ds
  | [], _, _, _, _, _, _, he, hd => by
      cases he
      cases hd
      exact ⟨rfl, .nil⟩
  | f :: fs, i, es, trees, n, m, ds, he, hd => by
      simp only [createLogicalEncoders, createLogicalDecoders, bind_eq_ok, pure_eq_ok,
        Except.ok.injEq, Prod.mk.injEq] at he hd
      obtain ⟨⟨e, tree, k⟩, he, ⟨rest, restTrees, l⟩, hrest, rfl, -, rfl⟩ := he
      obtain ⟨⟨d, k'⟩, hd, ⟨ds, l'⟩, hds, rfl, rfl⟩ := hd
      obtain ⟨hsame, htypes, rfl⟩ := createLogicalDecoder_agrees f he hd
      obtain ⟨hnext, hall⟩ := allNumberedAlike hrest hds
      have hsends : SendsTypes f e d.columnTypes := by
        rw [htypes]
        exact sendsTypes_createLogicalEncoder he
      exact ⟨hnext, .cons ⟨hsame, hsends⟩ hall⟩

/-- **Encoder and decoder number the physical columns of a schema identically.**
The encoder uses every index below the total once. The decoder exists wherever
the metadata covers these columns, takes as many indexes, and agrees with the
encoder at every node of every field. -/
theorem columns_numbered_alike (oe : EncoderOptions) (o : DecoderOptions) {schema : List Field}
    (hs : Field.supportedAll schema = true) :
    ∃ es trees n, createLogicalEncoders oe schema 0 = .ok (es, trees, n) ∧
      LogicalColEncoder.columnsOf es = List.range n ∧
      (CoversColumns o.columnMetas n → ∃ ds, createLogicalDecoders o schema 0 = .ok (ds, n)) ∧
      ∀ ds m, createLogicalDecoders o schema 0 = .ok (ds, m) →
        m = n ∧ AllNumberedAlike o.columnMetas schema es ds := by
  obtain ⟨es, trees, hes, hcols⟩ := createLogicalEncoders_numbers oe schema 0 hs
  rw [Nat.zero_add] at hes
  refine ⟨es, trees, _, hes, ?_, ?_, ?_⟩
  · rw [hcols, List.range_eq_range']
  · intro hcov
    have hds := createLogicalDecoders_ok (i := 0) schema hs hcov (by omega)
    rwa [Nat.zero_add] at hds
  · intro ds m hds
    exact allNumberedAlike hes hds

namespace Sample

/-- A struct of an integer and a list of strings, and a list of lists. -/
def nestedSchema : List Field :=
  [.mk "s" (.struct [.mk "a" (.prim .int32) false,
      .mk "b" (.list (.mk "item" (.prim .utf8) true)) true]) true,
    .mk "l" (.largeList (.mk "item" (.list (.mk "item" (.prim .float64) true)) true)) true]

end Sample

theorem columns_numbered_alike_nested :
    Field.supportedAll Sample.nestedSchema = true ∧
      ∀ (oe : EncoderOptions) (o : DecoderOptions), ∃ es trees n,
        createLogicalEncoders oe Sample.nestedSchema 0 = .ok (es, trees, n) ∧
          LogicalColEncoder.columnsOf es = List.range n ∧
          (CoversColumns o.columnMetas n →
            ∃ ds, createLogicalDecoders o Sample.nestedSchema 0 = .ok (ds, n)) ∧
          ∀ ds m, createLogicalDecoders o Sample.nestedSchema 0 = .ok (ds, m) →
            m = n ∧ AllNumberedAlike o.columnMetas Sample.nestedSchema es ds :=
  ⟨by decide, fun oe o => columns_numbered_alike oe o (by decide)⟩

end F3Format
