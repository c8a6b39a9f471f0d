import F3Format.SharedDictionary

/-!
# The units of the shared dictionaries

`finish_and_flush` writes each dictionary in one or two pieces: the whole of it,
or the part it shares with its peer (once for both) and what remains. `pieces`
lists these arrays in the order they are written; `finishAndFlush_spec` says
that the chunks are the units of the pieces.
-/

set_option autoImplicit false

namespace F3Format

open Lib

namespace SharedDictionaryContext

/-- An array to be written and the number of rows of its chunk. -/
abbrev Piece := ArrayRef × Nat

/-- The pieces of dictionary `i`, whose array is `dict`. -/
def piecesOf (ctx : SharedDictionaryContext) (i : Nat) (dict : ArrayRef) : List Piece :=
  match (ctx.mergeResult[i]?).join with
  | some (peer, mergeLen) =>
      (if i < peer then [(dict.slice 0 mergeLen, mergeLen)] else []) ++
        (if dict.len - mergeLen = 0 then []
          else [(dict.slice mergeLen (dict.len - mergeLen), dict.len - mergeLen)])
  | none => [(dict, dict.len)]

/-- The pieces of all dictionaries, in the order they are written. -/
def pieces (ctx : SharedDictionaryContext) : List Piece :=
  ctx.dictionaries.zipIdx.flatMap fun p => ctx.piecesOf p.2 p.1.toArray

/-- The unit of a piece holds the bytes the encoder produced, under the label of
the context. -/
def IsUnitOf (env : Env) (ctx : SharedDictionaryContext) (w : WASMWritingContext)
    (slice : ArrayRef) (u : SerializedEncUnit) : Prop :=
  ∃ payload, unitPayload env w false slice = .ok payload ∧
    u = ⟨payload, u32 slice.len,
      unitEncoding w (createEncunitEncoder w slice.dataType false).encodingType slice.dataType,
      ctx.compressionType⟩

/-- The chunk of a piece. -/
def IsChunkOf (env : Env) (ctx : SharedDictionaryContext) (w : WASMWritingContext)
    (piece : Piece) (chunk : EncodedColumnChunk) : Prop :=
  ∃ u, IsUnitOf env ctx w piece.1 u ∧ chunk = sliceChunk u piece.2

section

variable {env : Env} {ctx : SharedDictionaryContext} {w : WASMWritingContext}

theorem writeSlice_eq_ok {slice : ArrayRef} {u : SerializedEncUnit} :
    writeSlice env ctx w slice = .ok u ↔ IsUnitOf env ctx w slice u := by
  unfold writeSlice encodeEncUnit IsUnitOf unitPayload
  simp only [bind_eq_ok, compressData, pure_eq_ok, Except.ok.injEq]
  constructor
  · rintro ⟨payload, hp, out, rfl, rfl⟩
    exact ⟨payload, hp, rfl⟩
  · rintro ⟨payload, hp, rfl⟩
    exact ⟨payload, hp, payload, rfl, rfl⟩

theorem commonChunk_spec {i peer mergeLen : Nat} {dict : ArrayRef}
    {chunks : List EncodedColumnChunk}
    (h : commonChunk env ctx w i peer mergeLen dict = .ok chunks) :
    List.Forall₂ (IsChunkOf env ctx w)
      (if i < peer then [(dict.slice 0 mergeLen, mergeLen)] else []) chunks := by
  unfold commonChunk at h
  by_cases hi : i < peer
  · rw [if_pos hi, bind_eq_ok] at h
    obtain ⟨u, hu, hchunks⟩ := h
    cases hchunks
    rw [if_pos hi]
    exact .cons ⟨u, writeSlice_eq_ok.1 hu, rfl⟩ .nil
  · rw [if_neg hi] at h
    cases h
    rw [if_neg hi]
    exact .nil

theorem restChunk_spec {mergeLen dictLen : Nat} {dict : ArrayRef}
    {chunks : List EncodedColumnChunk}
    (h : restChunk env ctx w mergeLen dictLen dict = .ok chunks) :
    List.Forall₂ (IsChunkOf env ctx w)
      (if dictLen = 0 then [] else [(dict.slice mergeLen dictLen, dictLen)]) chunks := by
  unfold restChunk at h
  by_cases hlen : dictLen = 0
  · rw [if_pos hlen] at h
    cases h
    rw [if_pos hlen]
    exact .nil
  · rw [if_neg hlen, bind_eq_ok] at h
    obtain ⟨u, hu, hchunks⟩ := h
    cases hchunks
    rw [if_neg hlen]
    exact .cons ⟨u, writeSlice_eq_ok.1 hu, rfl⟩ .nil

theorem flushDictionary_spec {i : Nat} {d : Dictionary} {r : List EncodedColumnChunk × Option Nat}
    (h : flushDictionary env ctx w i d = .ok r) :
    List.Forall₂ (IsChunkOf env ctx w) (ctx.piecesOf i d.toArray) r.1 := by
  unfold flushDictionary at h
  unfold piecesOf
  cases hres : (ctx.mergeResult[i]?).join with
  | none =>
      rw [hres] at h
      simp only [bind_eq_ok, pure_eq_ok, Except.ok.injEq] at h
      obtain ⟨u, hu, rfl⟩ := h
      exact .cons ⟨u, writeSlice_eq_ok.1 hu, rfl⟩ .nil
  | some p =>
      obtain ⟨peer, mergeLen⟩ := p
      rw [hres] at h
      simp only [bind_eq_ok, pure_eq_ok, Except.ok.injEq, checkedSub_eq_ok] at h
      obtain ⟨common, hcommon, dictLen, ⟨-, rfl⟩, rest, hrest, rfl⟩ := h
      exact List.rel_append (commonChunk_spec hcommon) (restChunk_spec hrest)

/-- Every chunk that is written is the unit of its piece. -/
theorem finishAndFlush_spec
    {r : List (List EncodedColumnChunk) × List (Option Nat) × List DataType}
    (h : finishAndFlush env ctx w = .ok r) :
    List.Forall₂ (IsChunkOf env ctx w) ctx.pieces r.1.flatten := by
  unfold finishAndFlush at h
  rw [bind_eq_ok] at h
  obtain ⟨pairs, hpairs, hr⟩ := h
  cases hr
  rw [collect_eq_ok_iff] at hpairs
  unfold pieces
  show List.Forall₂ _ _ (pairs.map Prod.fst).flatten
  generalize ctx.dictionaries.zipIdx = dicts at hpairs ⊢
  -- dictionary by dictionary, the chunks are appended as the pieces are
  induction hpairs with
  | nil => exact .nil
  | cons hhead _ ih =>
      rw [List.flatMap_cons, List.map_cons, List.flatten_cons]
      exact List.rel_append (flushDictionary_spec hhead) ih

end

end SharedDictionaryContext

end F3Format
