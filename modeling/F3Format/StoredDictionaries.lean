import F3Format.DictionaryScopes
import F3Format.DictionaryTable
import F3Format.IndexDecoding
import F3Format.BuilderStrategies
import F3Format.Lib.Chunks

/-!
# Dictionaries read back from the file

`finish` numbers the chunks of all dictionaries in the order they are written. A
dictionary is the concatenation of the chunks its position table names: its own,
behind the first chunk of its peer if it shares that (`dictPositions_spec`). With
merged dictionaries that have a common first part these chunks hold the parts of
the dictionary (`stored_parts`), and `try_new_read_all` puts them together again
(`tryNewReadAll_eq`).
-/

set_option autoImplicit false

namespace F3Format

open Lib SharedDictionaryContext

/-! ## Chunk ids -/

section Positions

variable {α : Type} {css : List (List α)} {peers : List (Option Nat)}

theorem getElem?_flatten_of_part {i k : Nat} {cs : List α} {c : α} (hcs : css[i]? = some cs)
    (hc : cs[k]? = some c) : css.flatten[(css.take i).flatten.length + k]? = some c := by
  obtain ⟨pre, post, hflat, hlen⟩ := holdsAt_flatten hcs
  have hk := (List.getElem?_eq_some_iff.1 hc).1
  rw [hflat, ← hlen, List.getElem?_append_right (Nat.le_add_right ..), Nat.add_sub_cancel_left,
    List.getElem?_append_left hk, hc]

namespace FileWriter

theorem length_dictStartIdx (acc : Nat) (counts : List Nat) :
    (dictStartIdx acc counts).length = counts.length := by
  induction counts generalizing acc with
  | nil => rfl
  | cons n counts ih => rw [dictStartIdx, List.length_cons, List.length_cons, ih]

/-- The first id of a dictionary is the number of chunks before it. -/
theorem getElem?_dictStartIdx {acc i : Nat} {counts : List Nat} (hi : i < counts.length) :
    (dictStartIdx acc counts)[i]? = some (acc + (counts.take i).sum) := by
  induction counts generalizing acc i with
  | nil => cases hi
  | cons n counts ih =>
      cases i with
      | zero => rfl
      | succ i =>
          rw [List.length_cons] at hi
          rw [dictStartIdx, List.getElem?_cons_succ, ih (by omega), List.take_succ_cons,
            List.sum_cons, Nat.add_assoc]

/-- The number of elements of the parts before part `i`. -/
abbrev startOf (css : List (List α)) (i : Nat) : Nat := (css.take i).flatten.length

theorem startIdx_eq {i : Nat} (hi : i < css.length) :
    (dictStartIdx 0 (css.map List.length))[i]? = some (startOf css i) := by
  rw [getElem?_dictStartIdx (by rwa [List.length_map]), Nat.zero_add, startOf,
    List.length_flatten, List.map_take]

/-- The chunks of dictionary `i` as the reader concatenates them. -/
def chunksOf (css : List (List α)) (peers : List (Option Nat)) (i : Nat) : List α :=
  (match (peers[i]?).join with
    | some peer => ((css[peer]?).getD []).take 1
    | none => []) ++ (css[i]?).getD []

/-- The ids of the chunks `chunksOf` names. -/
def idsOf (css : List (List α)) (peers : List (Option Nat)) (i : Nat) : List Nat :=
  (match (peers[i]?).join with
    | some peer => [startOf css peer]
    | none => []) ++ (List.range ((css[i]?).getD []).length).map fun k => startOf css i + k

theorem getElem?_zip_starts {i : Nat} {cs : List α} (hcs : css[i]? = some cs) :
    (((dictStartIdx 0 (css.map List.length)).zip (css.map List.length)).zipIdx)[i]? =
      some ((startOf css i, cs.length), i) := by
  have hi := (List.getElem?_eq_some_iff.1 hcs).1
  have hcount : (css.map List.length)[i]? = some cs.length := by
    rw [List.getElem?_map, hcs, Option.map_some]
  have hzip : ((dictStartIdx 0 (css.map List.length)).zip (css.map List.length))[i]? =
      some (startOf css i, cs.length) := List.getElem?_zip_eq_some.2 ⟨startIdx_eq hi, hcount⟩
  rw [List.getElem?_zipIdx, hzip, Option.map_some, Nat.zero_add]

/-- The position tables, if every peer is a dictionary. -/
theorem dictPositions_eq (hpeers : ∀ i peer : Nat, (peers[i]?).join = some peer → peer < css.length) :
    dictPositions (css.map List.length) peers =
      .ok ((List.range css.length).map (idsOf css peers)) := by
  unfold dictPositions
  dsimp only
  have hlen : (((dictStartIdx 0 (css.map List.length)).zip (css.map List.length)).zipIdx).length =
      css.length := by
    rw [List.length_zipIdx, List.length_zip, length_dictStartIdx, List.length_map, Nat.min_self]
  rw [collect_eq_ok_iff, List.forall₂_iff_get]
  refine ⟨by rw [hlen, List.length_map, List.length_range], ?_⟩
  intro i hi hi'
  have hcss : i < css.length := hlen ▸ hi
  have hget := getElem?_zip_starts (List.getElem?_eq_getElem hcss)
  rw [List.getElem?_eq_getElem hi, Option.some.injEq] at hget
  rw [List.get_eq_getElem, List.get_eq_getElem, hget, List.getElem_map, List.getElem_range, idsOf,
    List.getElem?_eq_getElem hcss, Option.getD_some]
  cases hpeer : (peers[i]?).join with
  | none => simp only [List.nil_append, pure_eq_ok]
  | some peer =>
      have hstart := (index_eq_ok (dictStartIdx 0 (css.map List.length)) peer _).2
        (startIdx_eq (hpeers i peer hpeer))
      simp only [hstart, ok_bind, pure_eq_ok, List.singleton_append]

/-- An id names its chunk. -/
theorem idsOf_chunksOf {i : Nat} (hne : ∀ peer, (peers[i]?).join = some peer →
    ∃ c cs, css[peer]? = some (c :: cs)) :
    List.Forall₂ (fun id c => css.flatten[id]? = some c) (idsOf css peers i)
      (chunksOf css peers i) := by
  unfold idsOf chunksOf
  refine List.rel_append ?_ ?_
  · cases hpeer : (peers[i]?).join with
    | none => exact .nil
    | some peer =>
        obtain ⟨c, cs, hcs⟩ := hne peer hpeer
        show List.Forall₂ _ [_] (((css[peer]?).getD []).take 1)
        rw [hcs]
        exact .cons (getElem?_flatten_of_part (k := 0) hcs rfl) .nil
  · cases hcs : css[i]? with
    | none => exact .nil
    | some cs =>
        rw [Option.getD_some, List.forall₂_map_left_iff, List.forall₂_iff_get]
        refine ⟨List.length_range, ?_⟩
        intro k hk hk'
        rw [List.get_eq_getElem, List.getElem_range, List.get_eq_getElem]
        exact getElem?_flatten_of_part hcs (List.getElem?_eq_getElem hk')

end FileWriter

end Positions

/-! ## The parts of a dictionary -/

namespace SharedDictionaryContext

/-- The parts in which a dictionary is stored: all of it, or the values it has in
common with its peer and what remains. -/
def partsOf (dict : ArrayRef) : Option Nat → List Piece
  | none => [(dict, dict.len)]
  | some mergeLen =>
      (dict.slice 0 mergeLen, mergeLen) ::
        if dict.len - mergeLen = 0 then []
        else [(dict.slice mergeLen (dict.len - mergeLen), dict.len - mergeLen)]

theorem partsOf_some (dict : ArrayRef) (l : Nat) :
    partsOf dict (some l) = (dict.slice 0 l, l) ::
      if dict.len - l = 0 then [] else [(dict.slice l (dict.len - l), dict.len - l)] := rfl

/-- The length of the common part of dictionary `i`. -/
def mergeLenOf (ctx : SharedDictionaryContext) (i : Nat) : Option Nat :=
  ((ctx.mergeResult[i]?).join).map Prod.snd

section Flush

variable {env : Env} {ctx : SharedDictionaryContext} {w : WASMWritingContext}
  {css : List (List EncodedColumnChunk)} {peers : List (Option Nat)} {dtypes : List DataType}
  {i : Nat} {d : Dictionary}

/-- The second dictionary of a pair refers to the first one. -/
theorem flushDictionary_peer {r : List EncodedColumnChunk × Option Nat}
    (h : flushDictionary env ctx w i d = .ok r) :
    r.2 = ((ctx.mergeResult[i]?).join).bind fun p => if i < p.1 then none else some p.1 := by
  unfold flushDictionary at h
  cases hres : (ctx.mergeResult[i]?).join with
  | none =>
      rw [hres] at h
      simp only [bind_eq_ok, pure_eq_ok, Except.ok.injEq] at h
      obtain ⟨u, hu, rfl⟩ := h
      rfl
  | some p =>
      obtain ⟨peer, mergeLen⟩ := p
      rw [hres] at h
      simp only [bind_eq_ok, pure_eq_ok, Except.ok.injEq] at h
      obtain ⟨common, -, dictLen, -, rest, -, rfl⟩ := h
      rfl

/-- What is written for one of the dictionaries. -/
theorem flushed_dictionary (h : finishAndFlush env ctx w = .ok (css, peers, dtypes))
    (hd : ctx.dictionaries[i]? = some d) : ∃ cs peer, css[i]? = some cs ∧ peers[i]? = some peer ∧
      flushDictionary env ctx w i d = .ok (cs, peer) := by
  unfold finishAndFlush at h
  simp only [bind_eq_ok, pure_eq_ok, Except.ok.injEq, Prod.mk.injEq] at h
  obtain ⟨pairs, hpairs, rfl, rfl, -⟩ := h
  have hzip : ctx.dictionaries.zipIdx[i]? = some (d, i) := by
    rw [List.getElem?_zipIdx, hd, Option.map_some, Nat.zero_add]
  obtain ⟨⟨cs, peer⟩, hr, hflush⟩ :=
    exists_getElem?_of_forall₂ (collect_eq_ok_iff.1 hpairs) hzip
  refine ⟨cs, peer, ?_, ?_, hflush⟩
  · rw [List.getElem?_map, hr, Option.map_some]
  · rw [List.getElem?_map, hr, Option.map_some]

theorem length_flushed (h : finishAndFlush env ctx w = .ok (css, peers, dtypes)) :
    css.length = ctx.dictionaries.length ∧ peers.length = ctx.dictionaries.length ∧
      dtypes = ctx.dictionaries.map fun d => .prim d.datatype := by
  unfold finishAndFlush at h
  simp only [bind_eq_ok, pure_eq_ok, Except.ok.injEq, Prod.mk.injEq] at h
  obtain ⟨pairs, hpairs, rfl, rfl, rfl⟩ := h
  have hlen := length_of_collect hpairs
  rw [List.length_zipIdx] at hlen
  exact ⟨by rw [List.length_map, hlen], by rw [List.length_map, hlen], rfl⟩

/-- A dictionary that refers to another one is the second of a merged pair. -/
theorem peer_flushed (h : finishAndFlush env ctx w = .ok (css, peers, dtypes)) {peer : Nat}
    (hpeer : (peers[i]?).join = some peer) : ∃ mergeLen,
      (ctx.mergeResult[i]?).join = some (peer, mergeLen) ∧ ¬ i < peer := by
  obtain ⟨-, hlen, -⟩ := length_flushed h
  have hi : i < ctx.dictionaries.length := by
    rw [← hlen]
    by_contra hge
    rw [List.getElem?_eq_none (by omega)] at hpeer
    cases hpeer
  obtain ⟨cs, o, -, ho, hflush⟩ := flushed_dictionary h (List.getElem?_eq_getElem hi)
  rw [ho] at hpeer
  have hrefers := flushDictionary_peer hflush
  have ho' : o = some peer := hpeer
  cases hres : (ctx.mergeResult[i]?).join with
  | none =>
      rw [hres] at hrefers
      rw [ho'] at hrefers
      cases hrefers
  | some p =>
      obtain ⟨q, mergeLen⟩ := p
      rw [hres] at hrefers
      have hif : some peer = if i < q then none else some q := ho' ▸ hrefers
      split at hif
      · cases hif
      · next hlt =>
          cases hif
          exact ⟨mergeLen, rfl, hlt⟩

theorem len_toArray (d : Dictionary) : d.toArray.len = d.values.length := List.length_map ..

/-- The common part of two matched dictionaries is one array. -/
theorem slice_toArray_eq {p : Dictionary} {l : Nat} (htype : d.datatype = p.datatype)
    (htake : d.values.take l = p.values.take l) : d.toArray.slice 0 l = p.toArray.slice 0 l := by
  show ArrayRef.prim _ (((d.values.map some).drop 0).take l) =
    ArrayRef.prim _ (((p.values.map some).drop 0).take l)
  rw [htype, List.drop_zero, List.drop_zero, ← List.map_take, ← List.map_take, htake]

theorem piecesOf_unmerged (hres : (ctx.mergeResult[i]?).join = none) (dict : ArrayRef) :
    ctx.piecesOf i dict = [(dict, dict.len)] := by
  unfold piecesOf
  rw [hres]

theorem piecesOf_merged {peer l : Nat} (hres : (ctx.mergeResult[i]?).join = some (peer, l))
    (dict : ArrayRef) : ctx.piecesOf i dict =
      (if i < peer then [(dict.slice 0 l, l)] else []) ++
        (if dict.len - l = 0 then [] else [(dict.slice l (dict.len - l), dict.len - l)]) := by
  unfold piecesOf
  rw [hres]

/-- The second dictionary of a pair finds the common part in the first chunk of the first. -/
theorem first_chunk (hm : ctx.Matched) (h : finishAndFlush env ctx w = .ok (css, peers, dtypes))
    {peer l : Nat} (hres : (ctx.mergeResult[i]?).join = some (peer, l)) (hlt : ¬ i < peer)
    (hd : ctx.dictionaries[i]? = some d) : ∃ c cs, css[peer]? = some (c :: cs) ∧
      IsChunkOf env ctx w (d.toArray.slice 0 l, l) c := by
  obtain ⟨hne, hback, d', p, hd', hp, htype, -, -, -, htake⟩ := hm i peer l hres
  rw [hd] at hd'
  cases hd'
  obtain ⟨cs, o, hcs, -, hflush⟩ := flushed_dictionary h hp
  have hpieces := flushDictionary_spec hflush
  rw [piecesOf_merged hback, if_pos (show peer < i by omega), List.singleton_append] at hpieces
  obtain ⟨c, more, hc, -, rfl⟩ := List.forall₂_cons_left_iff.1 hpieces
  exact ⟨c, more, hcs, slice_toArray_eq htype htake ▸ hc⟩

/-- **The chunks of a dictionary hold its parts.** -/
theorem stored_parts (hm : ctx.Matched) (h : finishAndFlush env ctx w = .ok (css, peers, dtypes))
    (hd : ctx.dictionaries[i]? = some d) :
    List.Forall₂ (IsChunkOf env ctx w) (partsOf d.toArray (ctx.mergeLenOf i))
      (FileWriter.chunksOf css peers i) := by
  obtain ⟨cs, o, hcs, ho, hflush⟩ := flushed_dictionary h hd
  have hown := flushDictionary_spec hflush
  have hrefers := flushDictionary_peer hflush
  rw [FileWriter.chunksOf, hcs, ho, Option.getD_some]
  unfold mergeLenOf
  cases hres : (ctx.mergeResult[i]?).join with
  | none =>
      rw [hres] at hrefers
      rw [piecesOf_unmerged hres] at hown
      rw [show o = none from hrefers]
      exact hown
  | some p =>
      obtain ⟨peer, l⟩ := p
      rw [hres] at hrefers
      rw [piecesOf_merged hres] at hown
      by_cases hlt : i < peer
      · -- the first of the pair has both parts
        rw [if_pos hlt] at hown
        rw [show o = none from hrefers.trans (if_pos hlt)]
        exact hown
      · -- the second one takes the common part from the first
        rw [if_neg hlt, List.nil_append] at hown
        obtain ⟨c, more, hpeer, hc⟩ := first_chunk hm h hres hlt hd
        rw [show o = some peer from hrefers.trans (if_neg hlt)]
        show List.Forall₂ _ _ (((css[peer]?).getD []).take 1 ++ cs)
        rw [hpeer]
        exact .cons hc hown

/-- The table of a matched context, with the chunks each dictionary is read from. -/
theorem positions_flushed (hm : ctx.Matched)
    (h : finishAndFlush env ctx w = .ok (css, peers, dtypes)) :
    FileWriter.dictPositions (css.map List.length) peers =
        .ok ((List.range css.length).map (FileWriter.idsOf css peers)) ∧
      ∀ i d, ctx.dictionaries[i]? = some d →
        List.Forall₂ (fun id piece => ∃ u, IsUnitOf env ctx w piece.1 u ∧
          css.flatten[id]? = some (sliceChunk u piece.2)) (FileWriter.idsOf css peers i)
          (partsOf d.toArray (ctx.mergeLenOf i)) := by
  obtain ⟨hlen, -, -⟩ := length_flushed h
  constructor
  · refine FileWriter.dictPositions_eq fun i peer hpeer => ?_
    obtain ⟨l, hres, -⟩ := peer_flushed h hpeer
    obtain ⟨-, -, d, p, -, hp, -⟩ := hm i peer l hres
    rw [hlen]
    exact (List.getElem?_eq_some_iff.1 hp).1
  · intro i d hd
    have hids : List.Forall₂ (fun id c => css.flatten[id]? = some c)
        (FileWriter.idsOf css peers i) (FileWriter.chunksOf css peers i) := by
      refine FileWriter.idsOf_chunksOf fun peer hpeer => ?_
      obtain ⟨l, hres, hlt⟩ := peer_flushed h hpeer
      obtain ⟨c, more, hpeer, -⟩ := first_chunk hm h hres hlt hd
      exact ⟨c, more, hpeer⟩
    have hparts := (stored_parts hm h hd).flip
    rw [List.forall₂_iff_get] at hids hparts ⊢
    refine ⟨hids.1.trans hparts.1, fun k hk hk' => ?_⟩
    have hk'' : k < (FileWriter.chunksOf css peers i).length := hids.1 ▸ hk
    obtain ⟨u, hu, hc⟩ := hparts.2 k hk'' hk'
    exact ⟨u, hu, hc ▸ hids.2 k hk hk''⟩

end Flush

end SharedDictionaryContext

/-! ## Reading the parts -/

section Records

variable {cs : List EncodedColumnChunk} {k : Nat} {c : EncodedColumnChunk}

theorem getElem?_recordsFrom (env : Env) (checksum : Bool) (offset : Nat) (hc : cs[k]? = some c) :
    (recordsFrom env checksum offset cs)[k]? =
      some (c.record env checksum (offset + (chunkBytes (cs.take k)).length)) := by
  induction cs generalizing k offset with
  | nil => cases hc
  | cons c' cs ih =>
      cases k with
      | zero =>
          cases hc
          rfl
      | succ k =>
          rw [List.getElem?_cons_succ] at hc
          rw [recordsFrom, List.getElem?_cons_succ, ih _ hc, List.take_succ_cons]
          simp [chunkBytes, Nat.add_assoc]

/-- A chunk lies behind the chunks before it. -/
theorem holdsAt_chunk {file : Bytes} {offset : Nat} (hfile : HoldsAt file offset (chunkBytes cs))
    (hc : cs[k]? = some c) :
    HoldsAt file (offset + (chunkBytes (cs.take k)).length) c.bytes := by
  have hpart : (cs.map EncodedColumnChunk.bytes)[k]? = some c.bytes := by
    rw [List.getElem?_map, hc, Option.map_some]
  have hinside := holdsAt_flatten hpart
  rw [← List.map_take] at hinside
  obtain ⟨pre, post, rfl, rfl⟩ := hfile
  rw [← List.append_assoc]
  exact (hinside.prepend pre).append post

end Records

namespace SharedDictionaryCache

/-- The array of a unit of a dictionary. -/
def readUnit (env : Env) (reading : Option WASMReadingContext) (t : PrimType)
    (u : SerializedEncUnit) : Result ArrayRef := do
  let r ← ChunkDecoder.unitDecoder env u.recorded.toFb u.bytes (.prim t) reading
  r.1.decode env

/-- The array of a part: a part without rows is read as a placeholder. -/
def readPart (piece : Piece) : ArrayRef :=
  if piece.2 = 0 then placeholderArray else piece.1.toView

section Reading

variable {env : Env} {reading : Option WASMReadingContext} {t : PrimType} {u : SerializedEncUnit}

theorem readUnit_of_decodes {arr : ArrayRef} (h : Decodes env reading (.prim t) u arr) :
    readUnit env reading t u = .ok arr := by
  obtain ⟨decoder, hdecode, hsplit⟩ := h
  have hsplit' := hsplit []
  rw [List.append_nil] at hsplit'
  rw [readUnit, hsplit', ok_bind]
  exact hdecode

/-- Draining a chunk of one unit. -/
theorem drain_unit (env : Env) (reading : Option WASMReadingContext) (t : PrimType)
    (u : SerializedEncUnit) :
    ChunkDecoder.drain env (.noDict ⟨[u.recorded.toFb], u.bytes, reading⟩ (.prim t)) =
      (readUnit env reading t u >>= fun a => .ok [a]) := by
  have hbatch : ChunkDecoder.decodeBatch env
      (.noDict ⟨[u.recorded.toFb], u.bytes, reading⟩ (.prim t)) =
        (ChunkDecoder.unitDecoder env u.recorded.toFb u.bytes (.prim t) reading >>= fun r =>
          r.1.decode env >>= fun array =>
            .ok (some array, .noDict ⟨[], r.2, reading⟩ (.prim t))) := rfl
  unfold readUnit
  cases hunit : ChunkDecoder.unitDecoder env u.recorded.toFb u.bytes (.prim t) reading with
  | error f =>
      rw [hunit] at hbatch
      exact ChunkDecoder.drain_error env hbatch
  | ok r =>
      obtain ⟨decoder, buf⟩ := r
      rw [hunit, ok_bind] at hbatch
      rw [ok_bind]
      dsimp only at hbatch ⊢
      cases harray : decoder.decode env with
      | error f =>
          rw [harray] at hbatch
          exact ChunkDecoder.drain_error env hbatch
      | ok a =>
          rw [harray] at hbatch
          rw [ChunkDecoder.drain_step env hbatch, ChunkDecoder.drain_none env rfl]
          rfl

/-- A chunk of the table is read as its unit. -/
theorem readChunk_stored (checksum : Bool) {file : Bytes} {chunks : List Fb.Chunk} {id off n : Nat}
    (hchunk : chunks[id]? = some ((sliceChunk u n).record env checksum off).toFb)
    (hholds : HoldsAt file off u.bytes) (hfit : u.bytes.length < 2 ^ 32)
    (ht : t.dictSupported = true) :
    readChunk env file reading (.prim t) chunks id =
      if n = 0 then .ok placeholderArray else readUnit env reading t u := by
  have hbytes : (sliceChunk u n).bytes = u.bytes := List.append_nil u.bytes
  have hsize : ((sliceChunk u n).record env checksum off).toFb.size = u.bytes.length := by
    show u32 (sliceChunk u n).bytes.length = _
    rw [hbytes, u32_of_lt hfit]
  have hrows : ((sliceChunk u n).record env checksum off).toFb.numRows = n := Nat.zero_add n
  have hread : readExactAt file ((sliceChunk u n).record env checksum off).toFb.offset
      ((sliceChunk u n).record env checksum off).toFb.size = .ok u.bytes := by
    rw [hsize]
    exact reads_readExactAt file off u.bytes hholds
  have hdecoder : createPhysicalDecoder [u.recorded.toFb] .noDictionary (.prim t) u.bytes reading
      none = .ok (.noDict ⟨[u.recorded.toFb], u.bytes, reading⟩ (.prim t)) :=
    if_pos (dictSupported_nonNest ht)
  rw [readChunk, (index_eq_ok _ _ _).2 hchunk, ok_bind, hread, ok_bind]
  show (createPhysicalDecoder [u.recorded.toFb] .noDictionary (.prim t) u.bytes reading none >>=
    fun decoder => _) = _
  rw [hdecoder, ok_bind, chunkArrays, hrows]
  split
  · rfl
  · rw [drain_unit]
    cases readUnit env reading t u with
    | error f => rfl
    | ok a => rfl

theorem joinChunks_two (t : PrimType) (vs vs' : List (Option Scalar)) :
    joinChunks [.prim t vs, .prim t vs'] = .ok (.prim t (vs ++ vs')) := by
  have hsame : ¬ (ArrayRef.prim t vs).dataType ≠ (ArrayRef.prim t vs').dataType :=
    not_not_intro rfl
  have hall : ¬ ([ArrayRef.prim t vs'].any fun c =>
      decide (c.dataType ≠ (ArrayRef.prim t vs).dataType)) = true := by simp
  rw [joinChunks, if_neg hsame, ChunkDecoder.concatArrays, if_neg hall]
  show Except.ok (ArrayRef.prim t (vs ++ (vs' ++ []))) = _
  rw [List.append_nil]

/-- The parts of a dictionary are put together to the dictionary. -/
theorem joinChunks_parts (d : Dictionary) {m : Option Nat}
    (hm : ∀ l, m = some l → 1 ≤ l ∧ l ≤ d.len) :
    joinChunks ((partsOf d.toArray m).map readPart) = .ok d.readBack := by
  have hlen : d.toArray.len = d.len := len_toArray d
  have hnil : d.values = [] ↔ d.len = 0 := List.length_eq_zero_iff.symm
  cases m with
  | none =>
      show Except.ok (readPart (d.toArray, d.toArray.len)) = _
      rw [readPart, Dictionary.readBack, hlen]
      by_cases hzero : d.len = 0
      · rw [if_pos hzero, if_pos (hnil.2 hzero)]
      · rw [if_neg hzero, if_neg fun h => hzero (hnil.1 h)]
        rfl
  | some l =>
      obtain ⟨hpos, hle⟩ := hm l rfl
      have hback : d.readBack = .prim d.datatype.decodedDict (d.values.map some) :=
        if_neg fun h => by have := hnil.1 h; omega
      have hfirst : readPart (d.toArray.slice 0 l, l) =
          .prim d.datatype.decodedDict ((d.values.map some).take l) :=
        if_neg (show ¬ l = 0 by omega)
      have hvalues : (d.values.map some).length = d.len := List.length_map ..
      rw [partsOf_some, hlen, hback]
      by_cases hrest : d.len - l = 0
      · -- nothing is left behind the common part
        have hall : (d.values.map some).take l = d.values.map some :=
          List.take_of_length_le (by omega)
        rw [if_pos hrest]
        show Except.ok (readPart (d.toArray.slice 0 l, l)) = _
        rw [hfirst, hall]
      · have hall : ((d.values.map some).drop l).take (d.len - l) = (d.values.map some).drop l :=
          List.take_of_length_le (by rw [List.length_drop, hvalues])
        have hsecond : readPart (d.toArray.slice l (d.len - l), d.len - l) =
            .prim d.datatype.decodedDict (((d.values.map some).drop l).take (d.len - l)) :=
          if_neg hrest
        rw [if_neg hrest, List.map_cons, List.map_singleton, hfirst, hsecond, hall,
          joinChunks_two, List.take_append_drop]

end Reading

end SharedDictionaryCache

/-! ## The table in the file -/

/-- The dictionaries of the context are in the file: their chunks, one after the
other, their records and the position table. -/
structure SharedDictionaryContext.StoredIn (env : Env) (ctx : SharedDictionaryContext)
    (w : WASMWritingContext) (file : Bytes) (sec : FileWriter.Sections)
    (css : List (List EncodedColumnChunk)) (peers : List (Option Nat)) : Prop where
  flushed : ctx.finishAndFlush env w = .ok (css, peers, sec.dictDtypes)
  positions : FileWriter.dictPositions (css.map List.length) peers = .ok sec.dictPositions
  records : ∃ checksum base, sec.dictChunks.flatten = recordsFrom env checksum base css.flatten ∧
    HoldsAt file base (chunkBytes css.flatten)

/-- The chunk ids and the chunk sizes fit their 32 bits. -/
structure TableFits (css : List (List EncodedColumnChunk)) : Prop where
  ids : css.flatten.length < 2 ^ 32
  sizes : ∀ c ∈ css.flatten, c.bytes.length < 2 ^ 32

namespace SharedDictionaryContext

/-- The unit of a slice of a dictionary is decoded to the slice. -/
def DecodesSlices (env : Env) (ctx : SharedDictionaryContext) (w : WASMWritingContext)
    (reading : Option WASMReadingContext) : Prop :=
  ∀ (t : PrimType) (vs : List (Option Scalar)) (u : SerializedEncUnit), t.dictSupported = true →
    IsUnitOf env ctx w (.prim t.arrayType vs) u → u.bytes.length < 2 ^ 32 →
      SharedDictionaryCache.readUnit env reading t u = .ok (.prim t.decodedDict vs)

/-- The unit of a slice of a dictionary is decoded to the slice, or not at all. -/
def ReadsSlices (env : Env) (ctx : SharedDictionaryContext) (w : WASMWritingContext)
    (reading : Option WASMReadingContext) : Prop :=
  ∀ (t : PrimType) (vs : List (Option Scalar)) (u : SerializedEncUnit) (a : ArrayRef),
    t.dictSupported = true → IsUnitOf env ctx w (.prim t.arrayType vs) u →
      u.bytes.length < 2 ^ 32 → SharedDictionaryCache.readUnit env reading t u = .ok a →
        a = .prim t.decodedDict vs

theorem DecodesSlices.reads {env : Env} {ctx : SharedDictionaryContext} {w : WASMWritingContext}
    {reading : Option WASMReadingContext} (h : ctx.DecodesSlices env w reading) :
    ctx.ReadsSlices env w reading := by
  intro t vs u a ht hu hfit ha
  rw [h t vs u ht hu hfit] at ha
  exact (Except.ok.inj ha).symm

/-- Without compression the native units of the slices are decoded. -/
theorem decodesSlices_native {env : Env} (hv : env.vortex.RoundTrips)
    {ctx : SharedDictionaryContext} (hc : ctx.compressionType = .uncompressed)
    {reading : WASMReadingContext} (hnative : reading.Native) :
    ctx.DecodesSlices env .empty (some reading) := by
  rintro t vs u ht ⟨payload, hpayload, rfl⟩ hfit
  obtain ⟨payload', hpayload', -, hread⟩ :=
    unitPayload_native hv false (arrayType_nonNest ht) vs
  rw [hpayload] at hpayload'
  cases hpayload'
  have hdata : unitData env ctx.compressionType payload = .ok payload := by
    rw [hc]
    rfl
  have hdeser := hread []
  rw [List.append_nil] at hdeser
  refine SharedDictionaryCache.readUnit_of_decodes ⟨.vortex payload (.prim t), ?_,
    unitDecoder_native hnative rfl hdata hfit (.prim t)⟩
  simp only [EncUnitDecoder.decode, dictSupported_nonNest ht, if_true, hdeser, ok_bind, pure_eq_ok]
  rfl

section Table

variable {env : Env} {ctx : SharedDictionaryContext} {w : WASMWritingContext} {file : Bytes}
  {sec : FileWriter.Sections} {css : List (List EncodedColumnChunk)} {peers : List (Option Nat)}
  {reading : Option WASMReadingContext}

/-- The table names the chunks of the parts of each dictionary. -/
theorem StoredIn.table (h : ctx.StoredIn env w file sec css peers) (hm : ctx.Matched) :
    sec.dictPositions = (List.range ctx.dictionaries.length).map (FileWriter.idsOf css peers) ∧
      ∀ i d, ctx.dictionaries[i]? = some d →
        List.Forall₂ (fun id piece => ∃ u, IsUnitOf env ctx w piece.1 u ∧
          css.flatten[id]? = some (sliceChunk u piece.2)) (FileWriter.idsOf css peers i)
          (partsOf d.toArray (ctx.mergeLenOf i)) := by
  obtain ⟨hpositions, hids⟩ := positions_flushed hm h.flushed
  rw [h.positions, (length_flushed h.flushed).1] at hpositions
  exact ⟨Except.ok.inj hpositions, hids⟩

/-- Every part of a dictionary is an array of its type. -/
theorem eq_prim_of_mem_partsOf {d : Dictionary} {m : Option Nat} {piece : Piece}
    (h : piece ∈ partsOf d.toArray m) : ∃ vs, piece.1 = .prim d.datatype.arrayType vs := by
  cases m with
  | none =>
      rw [List.mem_singleton.1 h]
      exact ⟨_, rfl⟩
  | some l =>
      rw [partsOf_some] at h
      rcases List.mem_cons.1 h with rfl | h
      · exact ⟨_, rfl⟩
      · split at h
        · cases h
        · rw [List.mem_singleton.1 h]
          exact ⟨_, rfl⟩

/-- Each id is read as the unit of its part. -/
theorem StoredIn.readChunks (h : ctx.StoredIn env w file sec css peers) (hm : ctx.Matched)
    (hfits : TableFits css) (reading : Option WASMReadingContext) {i : Nat} {d : Dictionary} (hd : ctx.dictionaries[i]? = some d) :
    List.Forall₂ (fun id (piece : Piece) => ∃ u vs, piece.1 = .prim d.datatype.arrayType vs ∧
      IsUnitOf env ctx w (.prim d.datatype.arrayType vs) u ∧ u.bytes.length < 2 ^ 32 ∧
        SharedDictionaryCache.readChunk env file reading (.prim d.datatype)
          (sec.dictChunks.flatten.map Chunk.toFb) id =
            if piece.2 = 0 then .ok placeholderArray
            else SharedDictionaryCache.readUnit env reading d.datatype u)
      (FileWriter.idsOf css peers i) (partsOf d.toArray (ctx.mergeLenOf i)) := by
  obtain ⟨checksum, base, hrecords, hfile⟩ := h.records
  have hids := (h.table hm).2 i d hd
  rw [List.forall₂_iff_get] at hids ⊢
  refine ⟨hids.1, fun k hk hk' => ?_⟩
  obtain ⟨u, hu, hc⟩ := hids.2 k hk hk'
  obtain ⟨vs, hvs⟩ := eq_prim_of_mem_partsOf (List.get_mem _ ⟨k, hk'⟩)
  have hbytes : ∀ n, (sliceChunk u n).bytes = u.bytes := fun n => List.append_nil u.bytes
  have hfit : u.bytes.length < 2 ^ 32 := by
    have hsize := hfits.sizes _ (List.mem_of_getElem? hc)
    rwa [hbytes] at hsize
  have hholds := holdsAt_chunk hfile hc
  rw [hbytes] at hholds
  refine ⟨u, vs, hvs, hvs ▸ hu, hfit, ?_⟩
  refine SharedDictionaryCache.readChunk_stored checksum ?_ hholds hfit d.supported
  rw [List.getElem?_map, hrecords, getElem?_recordsFrom env checksum base hc, Option.map_some]

/-- The schema of the dictionaries in the footer. -/
def schemaOf (dtypes : List DataType) : List Field := dtypes.map fun dtype => .mk "" dtype false

/-- The common part of a dictionary is a part of it. -/
theorem Matched.mergeLen (hm : ctx.Matched) {i : Nat} {d : Dictionary}
    (hd : ctx.dictionaries[i]? = some d) (l : Nat) (hl : ctx.mergeLenOf i = some l) :
    1 ≤ l ∧ l ≤ d.len := by
  obtain ⟨⟨peer, l'⟩, hres, rfl⟩ := Option.map_eq_some_iff.1 hl
  obtain ⟨-, -, d', p, hd', -, -, hpos, hle, -⟩ := hm i peer l' hres
  rw [hd] at hd'
  cases hd'
  exact ⟨hpos, hle⟩

/-- The chunks of a dictionary are read at its type. -/
theorem StoredIn.readDictionary_eq (h : ctx.StoredIn env w file sec css peers) {i : Nat}
    {d : Dictionary} (hd : ctx.dictionaries[i]? = some d) (ids : List Nat) :
    SharedDictionaryCache.readDictionary env file reading (schemaOf sec.dictDtypes)
      (sec.dictChunks.flatten.map Chunk.toFb) (ids, i) =
        (collect (SharedDictionaryCache.readChunk env file reading (.prim d.datatype)
          (sec.dictChunks.flatten.map Chunk.toFb)) ids >>= SharedDictionaryCache.joinChunks) := by
  have hfield : (schemaOf sec.dictDtypes)[i]? = some (.mk "" (.prim d.datatype) false) := by
    rw [schemaOf, (length_flushed h.flushed).2.2, List.getElem?_map, List.getElem?_map, hd]
    rfl
  rw [SharedDictionaryCache.readDictionary, (index_eq_ok _ _ _).2 hfield, ok_bind]
  rfl

/-- A dictionary is put together from its parts, if their units are decoded. -/
theorem StoredIn.readDictionary_ok (h : ctx.StoredIn env w file sec css peers) (hm : ctx.Matched)
    (hfits : TableFits css) (hcodec : ctx.DecodesSlices env w reading) {i : Nat} {d : Dictionary}
    (hd : ctx.dictionaries[i]? = some d) :
    SharedDictionaryCache.readDictionary env file reading (schemaOf sec.dictDtypes)
      (sec.dictChunks.flatten.map Chunk.toFb) (FileWriter.idsOf css peers i, i) =
        .ok d.readBack := by
  have hcollect : collect (SharedDictionaryCache.readChunk env file reading (.prim d.datatype)
      (sec.dictChunks.flatten.map Chunk.toFb)) (FileWriter.idsOf css peers i) =
        .ok ((partsOf d.toArray (ctx.mergeLenOf i)).map SharedDictionaryCache.readPart) := by
    rw [collect_eq_ok_iff, List.forall₂_map_right_iff]
    refine (h.readChunks hm hfits reading hd).imp fun id piece hread => ?_
    obtain ⟨u, vs, hvs, hu, hfit, hread⟩ := hread
    rw [hread, SharedDictionaryCache.readPart]
    split
    · rfl
    · rw [hcodec d.datatype vs u d.supported hu hfit, hvs]
      rfl
  rw [h.readDictionary_eq hd, hcollect, ok_bind]
  exact SharedDictionaryCache.joinChunks_parts d (hm.mergeLen hd)

/-- What is read for a dictionary is the dictionary. -/
theorem StoredIn.readDictionary_sound (h : ctx.StoredIn env w file sec css peers)
    (hm : ctx.Matched) (hfits : TableFits css) (hcodec : ctx.ReadsSlices env w reading) {i : Nat}
    {d : Dictionary} (hd : ctx.dictionaries[i]? = some d) {a : ArrayRef}
    (hread : SharedDictionaryCache.readDictionary env file reading (schemaOf sec.dictDtypes)
      (sec.dictChunks.flatten.map Chunk.toFb) (FileWriter.idsOf css peers i, i) = .ok a) :
    a = d.readBack := by
  rw [h.readDictionary_eq hd, bind_eq_ok] at hread
  obtain ⟨arrays, hcollect, hjoin⟩ := hread
  have harrays : arrays =
      (partsOf d.toArray (ctx.mergeLenOf i)).map SharedDictionaryCache.readPart := by
    have hparts := h.readChunks hm hfits reading hd
    rw [collect_eq_ok_iff] at hcollect
    rw [List.forall₂_iff_get] at hcollect hparts
    refine List.ext_get ?_ fun k hk hk' => ?_
    · rw [List.length_map, ← hcollect.1, ← hparts.1]
    · have hid : k < (FileWriter.idsOf css peers i).length := hcollect.1 ▸ hk
      have hpiece := hparts.1 ▸ hid
      obtain ⟨u, vs, hvs, hu, hfit, hchunk⟩ := hparts.2 k hid hpiece
      have harray := hcollect.2 k hid hk
      rw [hchunk] at harray
      rw [List.get_eq_getElem, List.get_eq_getElem, List.getElem_map]
      rw [List.get_eq_getElem, List.get_eq_getElem] at harray
      rw [List.get_eq_getElem] at hvs
      unfold SharedDictionaryCache.readPart
      split at harray
      · next hzero =>
          rw [if_pos hzero]
          exact (Except.ok.inj harray).symm
      · next hzero =>
          rw [if_neg hzero, hcodec d.datatype vs u _ d.supported hu hfit harray, hvs]
          rfl
  rw [harrays, SharedDictionaryCache.joinChunks_parts d (hm.mergeLen hd)] at hjoin
  exact (Except.ok.inj hjoin).symm

/-- Reading the table is reading its dictionaries. -/
theorem StoredIn.tryNewReadAll_eq (laws : env.SerializationLaws)
    (h : ctx.StoredIn env w file sec css peers) (hm : ctx.Matched) (hfits : TableFits css) :
    SharedDictionaryCache.tryNewReadAll env file (sec.dictionaryTable env) reading = (do
      let dictionaries ← collect (SharedDictionaryCache.readDictionary env file reading
        (schemaOf sec.dictDtypes) (sec.dictChunks.flatten.map Chunk.toFb)) sec.dictPositions.zipIdx
      pure {
        dictionaries := dictionaries.map some
        dictionaryCompressedSizes := sec.dictPositions.map fun ids =>
          (ids.map fun id => (((sec.dictChunks.flatten.map Chunk.toFb)[id]?).map
            Fb.Chunk.size).getD 0).sum
        dictionaryChunkSizes := (sec.dictChunks.flatten.map Chunk.toFb).map Fb.Chunk.size
        dictionaryChunkReferences := sec.dictPositions }) := by
  have hids : (sec.dictPositions.map fun ids => ids.map u32) = sec.dictPositions := by
    rw [(h.table hm).1, List.map_map]
    refine List.map_congr_left fun i hi => ?_
    have hi' := List.getElem?_eq_getElem (List.mem_range.1 hi)
    have hall := (h.table hm).2 i _ hi'
    show (FileWriter.idsOf css peers i).map u32 = _
    conv => rhs; rw [← List.map_id (FileWriter.idsOf css peers i)]
    refine List.map_congr_left fun id hid => ?_
    obtain ⟨k, hk, rfl⟩ := List.mem_iff_getElem.1 hid
    obtain ⟨piece, -, u, -, hc⟩ := exists_getElem?_of_forall₂ hall (List.getElem?_eq_getElem hk)
    exact u32_of_lt (Nat.lt_trans (List.getElem?_eq_some_iff.1 hc).1 hfits.ids)
  have hpositions : ∀ tables : List (List Nat), collect
      (fun p : Fb.DictionaryPosition => unwrapSome p.chunkIds) (tables.map fun pos => ⟨some pos⟩) =
        .ok tables := by
    intro tables
    rw [collect_eq_ok_iff, List.forall₂_map_left_iff]
    exact List.forall₂_same.2 fun _ _ => rfl
  unfold SharedDictionaryCache.tryNewReadAll FileWriter.Sections.dictionaryTable
    SharedDictionaryTable.toFb
  dsimp only
  rw [hids]
  have hsome : ∀ {α : Type} (a : α), unwrapSome (some a) = .ok a := fun _ => rfl
  simp only [hsome, ok_bind, hpositions, okOr, laws.ipcSchema _, liftErr]
  rfl

theorem StoredIn.length_positions (h : ctx.StoredIn env w file sec css peers) (hm : ctx.Matched) :
    sec.dictPositions.length = ctx.dictionaries.length := by
  rw [(h.table hm).1, List.length_map, List.length_range]

/-- **The table gives every dictionary back**, if the units of its chunks are decoded. -/
theorem StoredIn.tryNewReadAll_ok (laws : env.SerializationLaws)
    (h : ctx.StoredIn env w file sec css peers) (hm : ctx.Matched) (hfits : TableFits css)
    (hcodec : ctx.DecodesSlices env w reading) : ∃ cache,
      SharedDictionaryCache.tryNewReadAll env file (sec.dictionaryTable env) reading = .ok cache ∧
        cache.dictionaries = ctx.dictionaries.map fun d => some d.readBack := by
  have hcollect : collect (SharedDictionaryCache.readDictionary env file reading
      (schemaOf sec.dictDtypes) (sec.dictChunks.flatten.map Chunk.toFb)) sec.dictPositions.zipIdx =
        .ok (ctx.dictionaries.map Dictionary.readBack) := by
    have hpositions := (h.table hm).1
    have hlen := h.length_positions hm
    rw [collect_eq_ok_iff, List.forall₂_iff_get]
    refine ⟨by rw [List.length_zipIdx, List.length_map, hlen], fun i hi hi' => ?_⟩
    rw [List.length_map] at hi'
    have hd := List.getElem?_eq_getElem hi'
    rw [List.get_eq_getElem, List.get_eq_getElem, List.getElem_zipIdx, List.getElem_map, Nat.zero_add]
    simp only [hpositions, List.getElem_map, List.getElem_range]
    exact h.readDictionary_ok hm hfits hcodec hd
  rw [h.tryNewReadAll_eq laws hm hfits, hcollect, ok_bind]
  refine ⟨_, rfl, ?_⟩
  dsimp only
  rw [List.map_map]
  rfl

/-- **What the table gives back are the dictionaries.** -/
theorem StoredIn.tryNewReadAll_sound (laws : env.SerializationLaws)
    (h : ctx.StoredIn env w file sec css peers) (hm : ctx.Matched) (hfits : TableFits css)
    (hcodec : ctx.ReadsSlices env w reading) {cache : SharedDictionaryCache}
    (hread : SharedDictionaryCache.tryNewReadAll env file (sec.dictionaryTable env) reading =
      .ok cache) : cache.dictionaries = ctx.dictionaries.map fun d => some d.readBack := by
  rw [h.tryNewReadAll_eq laws hm hfits, bind_eq_ok] at hread
  obtain ⟨dictionaries, hcollect, hcache⟩ := hread
  cases hcache
  dsimp only
  have hpositions := (h.table hm).1
  have hlen := h.length_positions hm
  obtain ⟨hlength, hall⟩ := List.forall₂_iff_get.1 (collect_eq_ok_iff.1 hcollect)
  rw [List.length_zipIdx, hlen] at hlength
  refine List.ext_getElem ?_ fun i hi hi' => ?_
  · rw [List.length_map, List.length_map, ← hlength]
  · rw [List.length_map] at hi hi'
    have hd := List.getElem?_eq_getElem hi'
    have hi'' : i < sec.dictPositions.zipIdx.length := by
      rw [List.length_zipIdx, hlen]
      exact hi'
    have hone := hall i hi'' hi
    rw [List.get_eq_getElem, List.get_eq_getElem, List.getElem_zipIdx, Nat.zero_add] at hone
    simp only [hpositions, List.getElem_map, List.getElem_range] at hone
    rw [List.getElem_map, List.getElem_map, h.readDictionary_sound hm hfits hcodec hd hone]

end Table

end SharedDictionaryContext

end F3Format
