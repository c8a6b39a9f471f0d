import F3Format.MalformedColumns

/-!
# Malformed columns at a row

The decoding of single rows walks over the chunks of a column and the units of a
chunk with counters of its own. What its three loops take for granted is stated
along their recursion.
-/

set_option autoImplicit false

namespace F3Format

open Lib

variable {env : Env}

/-! ## Concatenation -/

theorem safe_concatArrays (arrays : List ArrayRef) : Safe (ChunkDecoder.concatArrays arrays) := by
  unfold ChunkDecoder.concatArrays
  split
  · exact safe_fail _
  · exact safe_ok _
  · refine safe_ite.2 ⟨fun _ => safe_fail _, fun _ => ?_⟩
    unfold ChunkDecoder.concatLike
    split
    · exact safe_ok _
    · exact safe_ok _
    · exact safe_fail _

/-! ## The loop over the units -/

namespace ChunkDecoder

theorem safe_sliceUnit {decoder : EncUnitDecoder} {start stop : Nat} :
    Safe (sliceUnit env decoder start stop) ↔
      decoder.Guarded env ∧ After (decoder.decode env) fun array => stop ≤ array.len := by
  refine safe_bind_iff safe_decode fun array _ => ?_
  rw [safe_ite]
  simp

/-- What the loop over the units takes for granted, with its counters. -/
def UnitsGuarded (env : Env) (dataType : DataType) (ctx : Option WASMReadingContext)
    (rowIdInChunk : Nat) : List Fb.EncUnit → Bytes → Nat → Nat → Prop
  | [], _, _, _ => True
  | u :: us, buf, cur, remaining =>
      if cur + u.numRows ≥ rowIdInChunk then
        cur ≤ rowIdInChunk ∧ u.Guarded env buf ctx ∧
          After (unitDecoder env u buf dataType ctx) fun p =>
            let idx := rowIdInChunk - cur
            let toDecode := min remaining (u.numRows - idx)
            (p.1.Guarded env ∧ After (p.1.decode env) fun array => idx + toDecode ≤ array.len) ∧
              After (sliceUnit env p.1 idx (idx + toDecode)) fun _ => remaining - toDecode ≠ 0 →
                UnitsGuarded env dataType ctx rowIdInChunk us p.2 (cur + u.numRows)
                  (remaining - toDecode)
      else
        u.size ≤ buf.length ∧ (remaining ≠ 0 →
          UnitsGuarded env dataType ctx rowIdInChunk us (buf.drop u.size) (cur + u.numRows)
            remaining)

theorem safe_rowLoop {dataType : DataType} {ctx : Option WASMReadingContext} {rowIdInChunk : Nat}
    (us : List Fb.EncUnit) {buf : Bytes} {cur remaining : Nat} :
    Safe (rowLoop env dataType ctx rowIdInChunk us buf cur remaining) ↔
      UnitsGuarded env dataType ctx rowIdInChunk us buf cur remaining := by
  induction us generalizing buf cur remaining with
  | nil => exact iff_of_true (safe_pure _) trivial
  | cons u us ih =>
      rw [rowLoop, UnitsGuarded]
      dsimp only
      by_cases hcur : cur + u.numRows ≥ rowIdInChunk
      · rw [if_pos hcur, if_pos hcur, safe_checkedSub_bind]
        refine and_congr_right fun _ => ?_
        refine safe_bind_iff safe_unitDecoder fun p _ => ?_
        refine safe_bind_iff safe_sliceUnit fun array _ => ?_
        rw [safe_ite, and_iff_right fun _ => safe_pure _]
        refine imp_congr_right fun _ => ?_
        rw [safe_bind_first fun _ _ => safe_pure _]
        exact ih
      · rw [if_neg hcur, if_neg hcur, safe_splitTo_bind]
        refine and_congr_right fun _ => ?_
        rw [safe_ite, and_iff_right fun _ => safe_pure _]
        exact imp_congr_right fun _ => ih

/-- What `decode_row_at` of a chunk decoder takes for granted. -/
def RowGuarded (env : Env) (rowIdInChunk len : Nat) : ChunkDecoder → Prop
  | noDict s dataType =>
      UnitsGuarded env dataType s.wasmContext rowIdInChunk s.encunits s.encodedChunkBuf 0 len
  | dict _ _ => True
  | sharedDict _ _ => True

theorem safe_decodeRowAt {rowIdInChunk len : Nat} : ∀ {decoder : ChunkDecoder},
    Safe (decodeRowAt env rowIdInChunk len decoder) ↔ decoder.RowGuarded env rowIdInChunk len
  | noDict s dataType => by
      rw [decodeRowAt, RowGuarded, safe_bind_first, safe_rowLoop]
      intro p _
      refine safe_ite.2 ⟨fun _ => safe_pure _, fun _ => ?_⟩
      exact safe_bind.2 ⟨safe_concatArrays _, fun _ _ => safe_pure _⟩
  | dict _ _ => iff_of_true (safe_fail _) trivial
  | sharedDict _ _ => iff_of_true (safe_fail _) trivial

end ChunkDecoder

/-! ## The loops over a chunk and over the chunks -/

namespace PrimitiveColDecoder

/-- What the inner loop takes for granted: no more rows come than were asked for. -/
def RoundsGuarded (env : Env) (rowIdInChunk : Nat) : Nat → ChunkDecoder → Nat → Prop
  | 0, _, _ => True
  | fuel + 1, decoder, toDecode => decoder.RowGuarded env rowIdInChunk toDecode ∧
      After (decoder.decodeRowAt env rowIdInChunk toDecode) fun p => ∀ a, p.1 = some a →
        a.len ≤ toDecode ∧ (toDecode - a.len ≠ 0 →
          RoundsGuarded env rowIdInChunk fuel p.2 (toDecode - a.len))

theorem safe_rowsOfChunk {rowIdInChunk : Nat} (fuel : Nat) {decoder : ChunkDecoder}
    {toDecode : Nat} : Safe (rowsOfChunk env rowIdInChunk fuel decoder toDecode) ↔
      RoundsGuarded env rowIdInChunk fuel decoder toDecode := by
  induction fuel generalizing decoder toDecode with
  | zero => exact iff_of_true (safe_pure _) trivial
  | succ fuel ih =>
      rw [rowsOfChunk, RoundsGuarded]
      refine safe_bind_iff ChunkDecoder.safe_decodeRowAt fun p _ => ?_
      obtain ⟨o, next⟩ := p
      cases o with
      | none => exact iff_of_true (safe_pure _) fun a ha => nomatch ha
      | some a =>
          simp only [Option.some.injEq, forall_eq', safe_checkedSub_bind, safe_ite]
          refine and_congr_right fun _ => ?_
          rw [and_iff_right fun _ => safe_pure _]
          refine imp_congr_right fun _ => ?_
          rw [safe_bind_first fun _ _ => safe_pure _]
          exact ih

/-- What the outer loop takes for granted: the row is in the chunk it stops at,
which can be opened, and no more rows come than were asked for. -/
def ChunksGuarded (env : Env) (d : PrimitiveColDecoder) (rowId : Nat) :
    List Fb.Chunk → Nat → Nat → Prop
  | [], _, _ => True
  | c :: cs, curRow, remaining => remaining ≠ 0 →
      if curRow + c.numRows ≤ rowId then
        ChunksGuarded env d rowId cs (curRow + c.numRows) remaining
      else
        let skipped := rowId - curRow
        let toDecode := min (c.numRows - skipped) remaining
        curRow ≤ rowId ∧ skipped ≤ c.numRows ∧ d.OpenGuarded env c ∧
          After (d.openChunk env c) fun decoder =>
            RoundsGuarded env skipped (decoder.units.length + 1) decoder toDecode ∧
              After (rowsOfChunk env skipped (decoder.units.length + 1) decoder toDecode) fun p =>
                p.2 ≤ remaining ∧ ChunksGuarded env d rowId cs curRow (remaining - p.2)

theorem safe_rowsOfChunks {d : PrimitiveColDecoder} {rowId : Nat} (cs : List Fb.Chunk)
    {curRow remaining : Nat} : Safe (d.rowsOfChunks env rowId cs curRow remaining) ↔
      d.ChunksGuarded env rowId cs curRow remaining := by
  induction cs generalizing curRow remaining with
  | nil => exact iff_of_true (safe_pure _) trivial
  | cons c cs ih =>
      rw [rowsOfChunks, ChunksGuarded, safe_ite, and_iff_right fun _ => safe_pure _]
      refine imp_congr_right fun _ => ?_
      by_cases hskip : curRow + c.numRows ≤ rowId
      · rw [if_pos hskip, if_pos hskip]
        exact ih
      · rw [if_neg hskip, if_neg hskip, safe_checkedSub_bind]
        refine and_congr_right fun _ => ?_
        rw [safe_checkedSub_bind]
        refine and_congr_right fun _ => ?_
        refine safe_bind_iff safe_openChunk fun decoder _ => ?_
        refine safe_bind_iff (safe_rowsOfChunk _) fun p _ => ?_
        rw [safe_checkedSub_bind]
        refine and_congr_right fun _ => ?_
        rw [safe_bind_first fun _ _ => safe_pure _]
        exact ih

end PrimitiveColDecoder

namespace LogicalColDecoder

/-- What `decode_row_at` takes for granted: the column is not nested. -/
def RowGuarded (env : Env) (rowId len : Nat) : LogicalColDecoder → Prop
  | primitive d => d.ChunksGuarded env rowId d.chunksMeta 0 len
  | list .. => False
  | struct .. => False

theorem safe_decodeRowAt {rowId len : Nat} {d : LogicalColDecoder} :
    Safe (decodeRowAt env rowId len d) ↔ d.RowGuarded env rowId len := by
  cases d with
  | primitive d => exact PrimitiveColDecoder.safe_rowsOfChunks d.chunksMeta
  | list => exact iff_of_false (not_safe_panicking _) id
  | struct => exact iff_of_false (not_safe_panicking _) id

end LogicalColDecoder

end F3Format
