import F3Format.Dict

/-!
# Shared dictionaries on the writing side

`dict/shared_dictionary_context.rs`: the context hands out dictionary ids,
matches similar dictionaries and turns all of them into chunks at the end of the
file; `counter.rs` and the table of `dict/shared_dictionary.rs`.

The similarity of two dictionaries is an estimate of random sketches. It is a
parameter, given as the bits of a non-negative `f64`, on which `<` agrees with
`<` of the numbers.
-/

set_option autoImplicit false

namespace F3Format

open Lib

/-! ## Options and counters -/

/-- `DictionaryTypeOptions`. -/
inductive DictionaryTypeOptions where
  | noDictionary
  | encoderDictionary
  | localDictionary
  | globalDictionary
  | fixedScopeDictionary (scope : Nat)
  | globalDictionaryMultiColSharing
  | glBest (sampleSize : Option (Float × Nat))

/-- `options.dictionary_type() == GlobalDictionaryMultiColSharing`. -/
def DictionaryTypeOptions.isMultiColSharing : DictionaryTypeOptions → Bool
  | globalDictionaryMultiColSharing => true
  | _ => false

/-- `EncodingCounter`. -/
structure EncodingCounter where
  dictType : DictionaryTypeOptions
  dictSize : Nat
  indexSize : Nat

namespace EncodingCounter

/-- `EncodingCounter::default`. -/
def default : EncodingCounter := ⟨.encoderDictionary, 0, 0⟩

/-- `total_size`. -/
def totalSize (c : EncodingCounter) : Nat := c.dictSize + c.indexSize

end EncodingCounter

/-! ## The context -/

/-- `SharedDictionaryContext`. -/
structure SharedDictionaryContext where
  dictionaries : List Dictionary
  isMultiColSharing : Bool
  mergeResult : List (Option (Nat × Nat))
  compressionType : CompressionType

namespace SharedDictionaryContext

/-- `SharedDictionaryContext::new`. -/
def new (isMultiColSharing : Bool) (compressionType : CompressionType) :
    SharedDictionaryContext := ⟨[], isMultiColSharing, [], compressionType⟩

/-- `peek_dict_id`. -/
def peekDictId (ctx : SharedDictionaryContext) : Nat := u32 ctx.dictionaries.length

/-- `add_dictionary`: the new context and the id of the dictionary. -/
def addDictionary (ctx : SharedDictionaryContext) (dictionary : Dictionary) :
    SharedDictionaryContext × Nat :=
  ({ ctx with dictionaries := ctx.dictionaries ++ [dictionary] }, u32 ctx.dictionaries.length)

/-- `new_dictionary`. -/
def newDictionary (ctx : SharedDictionaryContext) (dtype : DataType) :
    Result (SharedDictionaryContext × Nat) := do
  let dictionary ← Dictionary.tryNew dtype
  pure (ctx.addDictionary dictionary)

/-- `extend_and_get_index`. -/
def extendAndGetIndex (ctx : SharedDictionaryContext) (dictIdx : Nat) (arr : ArrayRef) :
    Result (SharedDictionaryContext × ArrayRef) := do
  let dictionary ← index ctx.dictionaries dictIdx
  let (dictionary, indices) ← dictionary.extendAndGetIndex arr
  pure ({ ctx with dictionaries := ctx.dictionaries.set dictIdx dictionary }, indices)

/-- `submit_values`. -/
def submitValues (ctx : SharedDictionaryContext) (dictIdx : Nat) (values : ArrayRef) :
    Result SharedDictionaryContext := do
  let dictionary ← index ctx.dictionaries dictIdx
  let dictionary ← dictionary.submitValues values
  pure { ctx with dictionaries := ctx.dictionaries.set dictIdx dictionary }

/-- `dict_len`. -/
def dictLen (ctx : SharedDictionaryContext) (dictIdx : Nat) : Result Nat := do
  let dictionary ← index ctx.dictionaries dictIdx
  pure dictionary.len

/-! ## Merging -/

/-- The bits of `MERGE_THRESHOLD`, `0.01f64`. -/
def mergeThreshold : Nat := 0x3F847AE147AE147B

/-- The bits of `OVERLAP_THRESHOLD`, `0.99f64`. -/
def overlapThreshold : Nat := 0x3FEFAE147AE147AE

/-- `INTERSECTION_LEN_THRESHOLD`. -/
def intersectionLenThreshold : Float := 1024.0

/-- `est_intersection_len < INTERSECTION_LEN_THRESHOLD` for two dictionary
lengths and the bits of their similarity. -/
def intersectionTooSmall (lenI lenJ sim : Nat) : Bool :=
  let s := Float.ofBits (UInt64.ofNat sim)
  decide (Float.ofNat (lenI + lenJ) * s / (s + 1.0) < intersectionLenThreshold)

/-- A pair of dictionaries with the bits of its similarity. -/
structure SimilarityEdge where
  sim : Nat
  i : Nat
  j : Nat
  deriving DecidableEq, Repr

/-- The comparison of `sort_unstable_by`: most similar first, then by ids. -/
def SimilarityEdge.le (x y : SimilarityEdge) : Prop :=
  y.sim < x.sim ∨ (x.sim = y.sim ∧ (x.i < y.i ∨ (x.i = y.i ∧ x.j ≤ y.j)))

instance : DecidableRel SimilarityEdge.le := fun _ _ => inferInstanceAs (Decidable (_ ∨ _))

/-- The ids of the non-empty dictionaries of one data type. -/
def sketchGroup (dicts : List Dictionary) (dtype : PrimType) : List Nat :=
  (dicts.zipIdx.filter fun p => p.1.len ≠ 0 && p.1.datatype = dtype).map Prod.snd

/-- The data types of the non-empty dictionaries. The source keeps the groups in
a hash map; they have no dictionary in common, so their order does not matter. -/
def groupTypes (dicts : List Dictionary) : List PrimType :=
  ((dicts.filter fun d => d.len ≠ 0).map Dictionary.datatype).dedup

/-- `sketch_i.estimate_jaccard(sketch_j)`. -/
def similarity (env : Env) (dicts : List Dictionary) (i j : Nat) : Nat :=
  let hashes := fun k => ((dicts[k]?).map (Dictionary.dictHashIter env)).getD []
  env.estimateJaccard (hashes i) (hashes j)

/-- The edges of a group, `(i, j)` with `i` later in the group than `j`, sorted. -/
def similarityEdges (env : Env) (dicts : List Dictionary) (group : List Nat) :
    List SimilarityEdge :=
  let edges := group.zipIdx.flatMap fun p =>
    (group.take p.2).map fun j => ⟨similarity env dicts p.1 j, p.1, j⟩
  edges.insertionSort SimilarityEdge.le

/-- The dictionaries and the merge result, which merging updates together. -/
structure MergeState where
  dicts : List Dictionary
  mergeRes : List (Option (Nat × Nat))

/-- Whether `merge_res[i].is_some() || merge_res[j].is_some()`. -/
def MergeState.matched (s : MergeState) (i j : Nat) : Bool :=
  (s.mergeRes[i]?.join).isSome || (s.mergeRes[j]?.join).isSome

/-- The body of the loop over the edges, after the `break`. -/
def mergeEdge (edge : SimilarityEdge) (s : MergeState) : Result MergeState := do
  let dictI := min edge.i edge.j
  let dictJ := max edge.i edge.j
  if ¬ dictI < dictJ then panicking "assertion failed: dict_i < dict_j"
  else if s.matched dictI dictJ then pure s
  else
    let di ← index s.dicts dictI
    let dj ← index s.dicts dictJ
    if intersectionTooSmall di.len dj.len edge.sim && edge.sim < overlapThreshold then pure s
    else
      let (di, dj, mergeLen) ← di.mergeWith dj
      let dicts := (s.dicts.set dictI di).set dictJ dj
      if mergeLen > 0 then
        pure ⟨dicts, (s.mergeRes.set dictI (some (dictJ, mergeLen))).set dictJ
          (some (dictI, mergeLen))⟩
      else pure ⟨dicts, s.mergeRes⟩

/-- The loop over the sorted edges, left at the first dissimilar pair. -/
def mergeEdges : List SimilarityEdge → MergeState → Result MergeState
  | [], s => pure s
  | edge :: edges, s =>
      if edge.sim < mergeThreshold then pure s
      else do
        let s ← mergeEdge edge s
        mergeEdges edges s

/-- One group of dictionaries of the same type. -/
def mergeGroup (env : Env) (dicts : List Dictionary) (t : PrimType) (s : MergeState) :
    Result MergeState :=
  let group := sketchGroup dicts t
  if group.length < 2 then pure s else mergeEdges (similarityEdges env dicts group) s

/-- The loop over the groups. The sketches, and so the edges, come from the
dictionaries `dicts` before any merge. -/
def mergeGroups (env : Env) (dicts : List Dictionary) :
    List PrimType → MergeState → Result MergeState
  | [], s => pure s
  | t :: ts, s => do
      let s ← mergeGroup env dicts t s
      mergeGroups env dicts ts s

/-- `merge_dicts`. -/
def mergeDicts (env : Env) (ctx : SharedDictionaryContext) : Result SharedDictionaryContext := do
  let dicts := ctx.dictionaries
  let mergeRes := ctx.mergeResult.take dicts.length ++
    List.replicate (dicts.length - ctx.mergeResult.length) none
  let s ← mergeGroups env dicts (groupTypes dicts) ⟨dicts, mergeRes⟩
  pure { ctx with dictionaries := s.dicts, mergeResult := s.mergeRes }

/-! ## Writing the dictionaries -/

/-- The closure `write_slice` of `finish_and_flush`: the slice is encoded and
labelled with the context's compression type, and is not compressed. -/
def writeSlice (env : Env) (ctx : SharedDictionaryContext) (w : WASMWritingContext)
    (slice : ArrayRef) : Result SerializedEncUnit :=
  encodeEncUnit env w false .uncompressed ctx.compressionType slice.dataType slice

/-- A dictionary chunk of one unit. -/
def sliceChunk (unit : SerializedEncUnit) (numRows : Nat) : EncodedColumnChunk :=
  (EncodedColumnChunk.withDictEncoding .noDictionary).push unit numRows

/-- The chunk of the common values, which the first dictionary of a pair writes. -/
def commonChunk (env : Env) (ctx : SharedDictionaryContext) (w : WASMWritingContext)
    (i peer mergeLen : Nat) (dict : ArrayRef) : Result (List EncodedColumnChunk) :=
  if i < peer then do
    let unit ← writeSlice env ctx w (dict.slice 0 mergeLen)
    pure [sliceChunk unit mergeLen]
  else pure []

/-- The chunk of the values after the common ones, if there are any. -/
def restChunk (env : Env) (ctx : SharedDictionaryContext) (w : WASMWritingContext)
    (mergeLen dictLen : Nat) (dict : ArrayRef) : Result (List EncodedColumnChunk) :=
  if dictLen = 0 then pure []
  else do
    let unit ← writeSlice env ctx w (dict.slice mergeLen dictLen)
    pure [sliceChunk unit dictLen]

/-- The chunks of dictionary `i` and the peer whose common part it refers to. -/
def flushDictionary (env : Env) (ctx : SharedDictionaryContext) (w : WASMWritingContext)
    (i : Nat) (dictionary : Dictionary) : Result (List EncodedColumnChunk × Option Nat) := do
  let dict := dictionary.finish.1
  match (ctx.mergeResult[i]?).join with
  | some (peer, mergeLen) =>
      let common ← commonChunk env ctx w i peer mergeLen dict
      let dictLen ← checkedSub dict.len mergeLen
      let rest ← restChunk env ctx w mergeLen dictLen dict
      pure (common ++ rest, if i < peer then none else some peer)
  | none =>
      let unit ← writeSlice env ctx w dict
      pure ([sliceChunk unit dict.len], none)

/-- `finish_and_flush`: the chunks of every dictionary, the peers and the types. -/
def finishAndFlush (env : Env) (ctx : SharedDictionaryContext) (w : WASMWritingContext) :
    Result (List (List EncodedColumnChunk) × List (Option Nat) × List DataType) := do
  let pairs ← collect (fun p : Dictionary × Nat => flushDictionary env ctx w p.2 p.1)
    ctx.dictionaries.zipIdx
  pure (pairs.map Prod.fst, pairs.map Prod.snd,
    ctx.dictionaries.map fun d => .prim d.datatype)

end SharedDictionaryContext

/-- `SharedDictionaryTable::to_fb`: the data types become an IPC schema of
unnamed, non-nullable fields. -/
def SharedDictionaryTable.toFb (env : Env) (t : SharedDictionaryTable) :
    Fb.SharedDictionaryTable where
  dictionaryChunks := some (t.dictionaryChunks.map Chunk.toFb)
  dictionaryPositions := some (t.dictionaryPositions.map fun pos => ⟨some pos⟩)
  dictionarySchema :=
    some (env.ipcSchema.build (t.dictionaryDatatypes.map fun dtype => .mk "" dtype false))

end F3Format
