import F3Format.Writer

/-!
# Chunk decoders and the dictionary cache

`decoder/physical.rs` and `dict/shared_dictionary_cache.rs`. A chunk decoder
walks over the units of one chunk and consumes the chunk's bytes from the
front; the cache decodes every shared dictionary when a file is opened.
-/

set_option autoImplicit false

namespace F3Format

open Lib

/-! ## Dictionary lookup -/

/-- What `value(i)` reads from a slot that holds a null. -/
def PrimType.slotDefault : PrimType → Scalar
  | .boolean => .bool false
  | .float32 | .float64 => .float 0
  | .utf8 | .largeUtf8 | .utf8View => .str ""
  | _ => .int 0

/-- `dict_ref.value(ind as usize)`. -/
def dictValue (t : PrimType) (dict : List (Option Scalar)) (i : Nat) : Result Scalar :=
  match dict[i]? with
  | some (some v) => .ok v
  | some none => .ok t.slotDefault
  | none => panicking "Trying to access an element at index out of bounds"

/-- One index of `index_downcast!`. -/
def lookupIndex (t : PrimType) (dict : List (Option Scalar)) :
    Option Scalar → Result (Option Scalar)
  | some (.int i) => do
      let v ← dictValue t dict i.toNat
      pure (some v)
  | some _ => panicking "not an integer"
  | none => pure none

/-- The index type `dict_index_to_data!` expects for a dictionary length. -/
def expectedIndexType (dictLen : Nat) : PrimType :=
  if dictLen < 2 ^ 8 then .uint8
  else if dictLen < 2 ^ 16 then .uint16
  else if dictLen < 2 ^ 32 then .uint32
  else .uint64

/-- `index_downcast!`: the values of the indices, as an array of type `t`. -/
def indexDowncast (t indexType : PrimType) (dict : List (Option Scalar)) (indices : ArrayRef) :
    Result ArrayRef :=
  match indices with
  | .prim it vs =>
      if it = indexType then do
        let values ← collect (lookupIndex t dict) vs
        pure (.prim t values)
      else fail (.general "Incorrect type of indices")
  | _ => fail (.general "Incorrect type of indices")

/-- The array type each arm of the match on `dict.data_type()` downcasts to. -/
def downcastType : PrimType → Option PrimType
  | .int32 => some .int32
  | .int64 => some .int64
  | .float32 => some .float32
  | .float64 => some .float64
  | .utf8 | .largeUtf8 => some .utf8
  | .utf8View => some .utf8View
  | .timestamp unit _ => some (.timestamp unit none)
  | .time32 unit => some (.time32 unit)
  | .time64 unit => some (.time64 unit)
  | .date32 => some .date32
  | .boolean => some .boolean
  | _ => none

/-- The match on `dict.data_type()` with `dict_index_to_data!` in its arms. -/
def dictIndexToData (dict indices : ArrayRef) : Result ArrayRef :=
  match dict with
  | .prim t vs =>
      match downcastType t with
      | some target =>
          -- a `LargeUtf8` dictionary is downcast to `StringArray`
          if t.arrayType ≠ target then
            panicking "called `Option::unwrap()` on a `None` value"
          else indexDowncast target (expectedIndexType vs.length) vs indices
      | none => fail (.general "Decoding other datatypes are not supported")
  | _ => fail (.general "Decoding other datatypes are not supported")

/-! ## Chunk decoders -/

/-- The parts the chunk decoders share: the units left and the bytes left. -/
structure UnitStream where
  encunits : List Fb.EncUnit
  encodedChunkBuf : Bytes
  wasmContext : Option WASMReadingContext

/-- `Box<dyn ChunkDecoder>`. -/
inductive ChunkDecoder where
  | noDict (s : UnitStream) (dataType : DataType)
  | dict (s : UnitStream) (dataType : DataType)
  | sharedDict (s : UnitStream) (sharedDictionary : ArrayRef)

namespace ChunkDecoder

/-- The units still to decode. -/
def units : ChunkDecoder → List Fb.EncUnit
  | noDict s _ => s.encunits
  | dict s _ => s.encunits
  | sharedDict s _ => s.encunits

/-- Splits the bytes of a unit off the buffer and creates its decoder. -/
def unitDecoder (env : Env) (u : Fb.EncUnit) (buf : Bytes) (outputType : DataType)
    (wasmContext : Option WASMReadingContext) : Result (EncUnitDecoder × Bytes) := do
  let (data, buf) ← splitTo buf u.size
  let encoding ← unwrapSome u.encoding
  let decoder ← createEncunitDecoder env encoding u.compression data u.numRows outputType
    wasmContext
  pure (decoder, buf)

/-- `NoDictColDecoder::decode_batch`. -/
def decodeNoDict (env : Env) (s : UnitStream) (dataType : DataType) :
    Result (Option ArrayRef × ChunkDecoder) :=
  match s.encunits with
  | [] => pure (none, noDict s dataType)
  | u :: us => do
      let (decoder, buf) ← unitDecoder env u s.encodedChunkBuf dataType s.wasmContext
      let array ← decoder.decode env
      pure (some array, noDict ⟨us, buf, s.wasmContext⟩ dataType)

/-- The dictionary of a dictionary unit; a unit without rows is not decoded. -/
def dictOfUnit (env : Env) (d : Fb.EncUnit) (decoder : EncUnitDecoder) : Result ArrayRef :=
  if d.numRows > 0 then decoder.decode env else pure placeholderArray

/-- The array of an index unit, which is first required to be a `UInt64Array`. -/
def dictOfIndices (dictArray indices : ArrayRef) : Result ArrayRef :=
  if indices.dataType ≠ .prim .uint64 then fail (.general "Incorrect type of indices")
  else dictIndexToData dictArray indices

/-- `DictColDecoder::decode_batch`: a dictionary unit, then an index unit. -/
def decodeDict (env : Env) (s : UnitStream) (dataType : DataType) :
    Result (Option ArrayRef × ChunkDecoder) :=
  match s.encunits with
  | [] => pure (none, dict s dataType)
  | d :: rest => do
      let (dictDecoder, buf) ← unitDecoder env d s.encodedChunkBuf dataType s.wasmContext
      let dictArray ← dictOfUnit env d dictDecoder
      match rest with
      | [] => fail (.nyi "Index does not exists")
      | u :: us => do
          let (indicesDecoder, buf) ← unitDecoder env u buf (.prim .int64) s.wasmContext
          let indices ← indicesDecoder.decode env
          let array ← dictOfIndices dictArray indices
          pure (some array, dict ⟨us, buf, s.wasmContext⟩ dataType)

/-- `SharedDictColDecoder::decode_batch`. -/
def decodeSharedDict (env : Env) (s : UnitStream) (sharedDictionary : ArrayRef) :
    Result (Option ArrayRef × ChunkDecoder) :=
  match s.encunits with
  | [] => pure (none, sharedDict s sharedDictionary)
  | u :: us => do
      let (indicesDecoder, buf) ← unitDecoder env u s.encodedChunkBuf (.prim .int64) s.wasmContext
      let indices ← indicesDecoder.decode env
      let array ← dictIndexToData sharedDictionary indices
      pure (some array, sharedDict ⟨us, buf, s.wasmContext⟩ sharedDictionary)

/-- `ChunkDecoder::decode_batch`. -/
def decodeBatch (env : Env) : ChunkDecoder → Result (Option ArrayRef × ChunkDecoder)
  | noDict s dataType => decodeNoDict env s dataType
  | dict s dataType => decodeDict env s dataType
  | sharedDict s sharedDictionary => decodeSharedDict env s sharedDictionary

/-- `while let Some(array) = decoder.decode_batch()? { arrays.push(array) }`,
for at most `fuel` rounds. -/
def drainFuel (env : Env) : Nat → ChunkDecoder → Result (List ArrayRef)
  | 0, _ => pure []
  | fuel + 1, decoder => do
      let (array, decoder) ← decodeBatch env decoder
      match array with
      | none => pure []
      | some a => do
          let rest ← drainFuel env fuel decoder
          pure (a :: rest)

/-- The loop with one round more than there are units; a round that goes on
consumes a unit (`drain_step`). -/
def drain (env : Env) (decoder : ChunkDecoder) : Result (List ArrayRef) :=
  drainFuel env (decoder.units.length + 1) decoder

/-- A round that returns an array leaves fewer units. -/
theorem decodeBatch_units (env : Env) {decoder decoder' : ChunkDecoder} {a : ArrayRef}
    (h : decodeBatch env decoder = .ok (some a, decoder')) :
    decoder'.units.length < decoder.units.length := by
  cases decoder with
  | noDict s dataType =>
      have hd : decodeNoDict env s dataType = .ok (some a, decoder') := h
      unfold decodeNoDict at hd
      split at hd
      · simp at hd
      · next u us hu =>
          simp only [bind_eq_ok, pure_eq_ok, Except.ok.injEq, Prod.mk.injEq] at hd
          obtain ⟨_, -, _, -, -, rfl⟩ := hd
          simp [units, hu]
  | dict s dataType =>
      have hd : decodeDict env s dataType = .ok (some a, decoder') := h
      unfold decodeDict at hd
      split at hd
      · simp at hd
      · next d rest hu =>
          simp only [bind_eq_ok] at hd
          obtain ⟨_, -, _, -, hd⟩ := hd
          cases rest with
          | nil => simp [fail] at hd
          | cons u us =>
              simp only [bind_eq_ok, pure_eq_ok, Except.ok.injEq, Prod.mk.injEq] at hd
              obtain ⟨_, -, _, -, _, -, -, rfl⟩ := hd
              simp only [units, hu, List.length_cons]
              omega
  | sharedDict s sharedDictionary =>
      have hd : decodeSharedDict env s sharedDictionary = .ok (some a, decoder') := h
      unfold decodeSharedDict at hd
      split at hd
      · simp at hd
      · next u us hu =>
          simp only [bind_eq_ok, pure_eq_ok, Except.ok.injEq, Prod.mk.injEq] at hd
          obtain ⟨_, -, _, -, _, -, -, rfl⟩ := hd
          simp [units, hu]

/-- More fuel than units changes nothing. -/
theorem drainFuel_eq (env : Env) : ∀ (n m : Nat) (decoder : ChunkDecoder),
    decoder.units.length < n → decoder.units.length < m →
      drainFuel env n decoder = drainFuel env m decoder
  | 0, _, _, h, _ => absurd h (Nat.not_lt_zero _)
  | _ + 1, 0, _, _, h => absurd h (Nat.not_lt_zero _)
  | n + 1, m + 1, decoder, hn, hm => by
      unfold drainFuel
      cases hd : decodeBatch env decoder with
      | error f => rfl
      | ok r =>
          obtain ⟨o, decoder'⟩ := r
          cases o with
          | none => rfl
          | some a =>
              have hlt := decodeBatch_units env hd
              show (drainFuel env n decoder' >>= _) = (drainFuel env m decoder' >>= _)
              rw [drainFuel_eq env n m decoder' (by omega) (by omega)]

/-- Unrolling one round of the loop. -/
theorem drain_step (env : Env) {decoder decoder' : ChunkDecoder} {a : ArrayRef}
    (h : decodeBatch env decoder = .ok (some a, decoder')) :
    drain env decoder = (do let rest ← drain env decoder'; pure (a :: rest)) := by
  have hlt := decodeBatch_units env h
  unfold drain
  conv => lhs; unfold drainFuel
  rw [h]
  show (drainFuel env decoder.units.length decoder' >>= _) = _
  rw [drainFuel_eq env decoder.units.length (decoder'.units.length + 1) decoder' hlt (by omega)]

theorem drain_none (env : Env) {decoder decoder' : ChunkDecoder}
    (h : decodeBatch env decoder = .ok (none, decoder')) : drain env decoder = .ok [] := by
  unfold drain drainFuel
  rw [h]
  rfl

theorem drain_error (env : Env) {decoder : ChunkDecoder} {f : Fault}
    (h : decodeBatch env decoder = .error f) : drain env decoder = .error f := by
  unfold drain drainFuel
  rw [h]
  rfl

/-! ## Decoding at a row -/

/-- `EncUnitDecoder::slice` with the fallback to `decode().slice()` of its
caller. Vortex filters the rows `start..stop` of the decoded array. -/
def sliceUnit (env : Env) (decoder : EncUnitDecoder) (start stop : Nat) : Result ArrayRef := do
  let array ← decoder.decode env
  if stop ≤ array.len then pure (array.slice start (stop - start))
  else panicking "index out of bounds"

/-- The loop of `NoDictColDecoder::decode_row_at`: `cur` and `remaining` are its
counters; the arrays and the remaining stream are returned. -/
def rowLoop (env : Env) (dataType : DataType) (wasmContext : Option WASMReadingContext)
    (rowIdInChunk : Nat) :
    List Fb.EncUnit → Bytes → Nat → Nat → Result (List ArrayRef × UnitStream)
  | [], buf, _, _ => pure ([], ⟨[], buf, wasmContext⟩)
  | u :: us, buf, cur, remaining => do
      let lastCur := cur
      let cur := cur + u.numRows
      if cur ≥ rowIdInChunk then do
        let idx ← checkedSub rowIdInChunk lastCur
        let toDecode := min remaining (u.numRows - idx)
        let remaining := remaining - toDecode
        let (decoder, buf) ← unitDecoder env u buf dataType wasmContext
        let array ← sliceUnit env decoder idx (idx + toDecode)
        if remaining = 0 then pure ([array], ⟨us, buf, wasmContext⟩)
        else do
          let (arrays, s) ← rowLoop env dataType wasmContext rowIdInChunk us buf cur remaining
          pure (array :: arrays, s)
      else do
        let (_, buf) ← splitTo buf u.size
        if remaining = 0 then pure ([], ⟨us, buf, wasmContext⟩)
        else rowLoop env dataType wasmContext rowIdInChunk us buf cur remaining

/-- `OffsetBuffer::lengths`. -/
def rowLengths (offsets : List Nat) : List Nat :=
  List.zipWith (fun start stop => stop - start) offsets offsets.tail

/-- `OffsetBuffer::from_lengths`. -/
def offsetsFromLengths (lengths : List Nat) : List Nat := lengths.scanl (· + ·) 0

/-- The lengths of the rows of a list array. -/
def listLengths : ArrayRef → List Nat
  | .list _ _ offsets _ _ => rowLengths offsets
  | _ => []

/-- The leaf values between the first and the last offset of a list array. -/
def listItems : ArrayRef → List (Option Scalar)
  | .list _ _ offsets values _ =>
      slice values.rows (offsets.headD 0) (offsets.getLastD 0 - offsets.headD 0)
  | _ => []

/-- The concatenation of several arrays of the type of the given one. A list's
offsets are made anew from the lengths. -/
def concatLike (arrays : List ArrayRef) : ArrayRef → Result ArrayRef
  | .prim t _ => .ok (.prim t (arrays.flatMap ArrayRef.rows))
  | .list large field _ (.prim t _) _ =>
      .ok (.list large field (offsetsFromLengths (arrays.flatMap listLengths))
        (.prim t (arrays.flatMap listItems))
        (if arrays.any fun a => decide (a.nullCount > 0) then
          some (arrays.flatMap ArrayRef.validity) else none))
  | _ => fail (.nyi "no physical column holds another array")

/-- `arrow::compute::concat` of the arrays of a physical column: leaves, or lists
over leaf values. -/
def concatArrays : List ArrayRef → Result ArrayRef
  | [] => fail (.external "concat requires input of at least one array")
  | [a] => .ok a
  | a :: b :: rest =>
      if (b :: rest).any fun c => decide (c.dataType ≠ a.dataType) then
        fail (.external "It is not possible to concatenate arrays of different data types")
      else concatLike (a :: b :: rest) a

/-- `ChunkDecoder::decode_row_at`. -/
def decodeRowAt (env : Env) (rowIdInChunk len : Nat) :
    ChunkDecoder → Result (Option ArrayRef × ChunkDecoder)
  | noDict s dataType => do
      let (arrays, s) ← rowLoop env dataType s.wasmContext rowIdInChunk s.encunits
        s.encodedChunkBuf 0 len
      if arrays.isEmpty then pure (none, noDict s dataType)
      else do
        let a ← concatArrays arrays
        pure (some a, noDict s dataType)
  | dict _ _ => fail (.nyi "Random access for dict is not implemented yet")
  | sharedDict _ _ => fail (.nyi "Random access for dict is not implemented yet")

end ChunkDecoder

/-! ## Dictionary cache -/

/-- `SharedDictionaryCache`. -/
structure SharedDictionaryCache where
  dictionaries : List (Option ArrayRef)
  dictionaryCompressedSizes : List Nat
  dictionaryChunkSizes : List Nat
  dictionaryChunkReferences : List (List Nat)

/-- `SharedDictionaryCache::get_dict`. -/
def SharedDictionaryCache.getDict (c : SharedDictionaryCache) (i : Nat) : Option ArrayRef :=
  (c.dictionaries[i]?).join

/-- `chunk_meta.encoding_as_shared_dictionary()`. -/
def Fb.DictionaryEncoding.asShared : Fb.DictionaryEncoding → Option Nat
  | .sharedDictionary idx => some idx
  | _ => Option.none

/-- `non_nest_types!() | DataType::List(_) | DataType::LargeList(_)`. -/
def DataType.decodable : DataType → Bool
  | .prim t => t.nonNest
  | .list _ => true
  | .largeList _ => true
  | .struct _ => false

/-- `create_physical_decoder`. -/
def createPhysicalDecoder (encunits : List Fb.EncUnit) (encoding : Fb.DictionaryEncoding)
    (dataType : DataType) (buf : Bytes) (wasmContext : Option WASMReadingContext)
    (cache : Option SharedDictionaryCache) : Result ChunkDecoder :=
  match encoding with
  | .noDictionary =>
      if dataType.decodable then .ok (.noDict ⟨encunits, buf, wasmContext⟩ dataType)
      else panicking "not yet implemented: Implement other data types"
  | .localDictionary _ =>
      if dataType.decodable then .ok (.dict ⟨encunits, buf, wasmContext⟩ dataType)
      else panicking "not yet implemented: Implement other data types"
  | .sharedDictionary idx =>
      if dataType.decodable then do
        let cache ← okOr
          (.general "Shared dictionary cache not found for a shared dictionary column") cache
        let dict ← okOr (.general "Shared dictionary not found in cache") (cache.getDict idx)
        pure (.sharedDict ⟨encunits, buf, wasmContext⟩ dict)
      else panicking "not yet implemented: Implement other data types"
  | .none => panicking "not yet implemented: Implement shared dict"

namespace SharedDictionaryCache

/-- The arrays of a dictionary chunk; a chunk without rows stands for a placeholder. -/
def chunkArrays (env : Env) (chunkMeta : Fb.Chunk) (decoder : ChunkDecoder) :
    Result (List ArrayRef) :=
  if chunkMeta.numRows = 0 then pure [placeholderArray] else decoder.drain env

/-- The one array each dictionary chunk is expected to hold. -/
def singleArray : List ArrayRef → Result ArrayRef
  | [a] => pure a
  | _ => fail (.nyi
      "Now we only handle the case where each dictionary chunk has a single EncUnit")

/-- Reads and decodes one dictionary chunk of `try_new_read_all`. -/
def readChunk (env : Env) (file : Bytes) (wasmContext : Option WASMReadingContext)
    (dataType : DataType) (chunks : List Fb.Chunk) (chunkId : Nat) : Result ArrayRef := do
  let chunkMeta ← index chunks chunkId
  let buf ← readExactAt file chunkMeta.offset chunkMeta.size
  let encunits ← okOr (.general "No chunks in column meta") chunkMeta.encunits
  let decoder ← createPhysicalDecoder encunits chunkMeta.encoding dataType buf wasmContext none
  let arrays ← chunkArrays env chunkMeta decoder
  singleArray arrays

/-- One dictionary: its only chunk, or its two chunks concatenated. -/
def joinChunks : List ArrayRef → Result ArrayRef
  | [a] => .ok a
  | [a, b] =>
      if a.dataType ≠ b.dataType then panicking "assertion `left == right` failed"
      else ChunkDecoder.concatArrays [a, b]
  | _ => fail (.general "Now we only handle the case where each dictionary has <=2 chunks")

/-- Dictionary `i` of the table with the given chunk ids. -/
def readDictionary (env : Env) (file : Bytes) (wasmContext : Option WASMReadingContext)
    (schema : List Field) (chunks : List Fb.Chunk) (p : List Nat × Nat) : Result ArrayRef := do
  let field ← index schema p.2
  let arrays ← collect (readChunk env file wasmContext field.dataType chunks) p.1
  joinChunks arrays

/-- `SharedDictionaryCache::try_new_read_all`. -/
def tryNewReadAll (env : Env) (file : Bytes) (table : Fb.SharedDictionaryTable)
    (wasmContext : Option WASMReadingContext) : Result SharedDictionaryCache := do
  let posTables ← unwrapSome table.dictionaryPositions
  let positions ← collect (fun p : Fb.DictionaryPosition => unwrapSome p.chunkIds) posTables
  let chunks ← unwrapSome table.dictionaryChunks
  let dictSchema ← okOr (.parseError "Shared dictionary schema not found") table.dictionarySchema
  let schema ← liftErr (env.ipcSchema.root dictSchema)
  let dictionaries ← collect (readDictionary env file wasmContext schema chunks)
    positions.zipIdx
  pure {
    dictionaries := dictionaries.map some
    dictionaryCompressedSizes := positions.map fun ids =>
      (ids.map fun id => ((chunks[id]?).map Fb.Chunk.size).getD 0).sum
    dictionaryChunkSizes := chunks.map Fb.Chunk.size
    dictionaryChunkReferences := positions }

end SharedDictionaryCache

end F3Format
