import F3Format.ArraySlices
import F3Format.DecoderPhysical

/-!
# The arrays of a physical column

A physical column decodes to leaf arrays, or to list arrays of which only the
validity and the offsets count. A cell is what one row of such an array says.
Slicing an array slices its cells and concatenating arrays appends them.
-/

set_option autoImplicit false

namespace F3Format

open Lib ChunkDecoder

/-- A row of a physical column: a value, or the validity and length of a list. -/
inductive Cell where
  | value (v : Option Scalar)
  | list (valid : Bool) (length : Nat)
  deriving DecidableEq, Repr

namespace ArrayRef

/-- The cells of a leaf array or a list array. -/
def cells : ArrayRef → List Cell
  | prim _ vs => vs.map Cell.value
  | list large field offsets values nulls =>
      List.zipWith Cell.list (validity (list large field offsets values nulls)) (rowLengths offsets)
  | struct .. => []

/-- A leaf array, or a list array over leaf values. -/
def isColumn : ArrayRef → Bool
  | prim .. => true
  | list _ _ _ (prim ..) _ => true
  | _ => false

end ArrayRef

/-- An array that a physical column of the type can hold. -/
structure ColumnArray (dataType : DataType) (a : ArrayRef) : Prop where
  dataType : a.dataType = dataType
  wf : a.wf = true
  isColumn : a.isColumn = true

/-! ## Offsets -/

theorem length_rowLengths (offsets : List Nat) :
    (rowLengths offsets).length = offsets.length - 1 := by
  simp [rowLengths]

theorem rowLengths_drop (offsets : List Nat) (n : Nat) :
    rowLengths (offsets.drop n) = (rowLengths offsets).drop n := by
  simp [rowLengths, List.drop_zipWith, List.tail_drop]

theorem rowLengths_take : ∀ (offsets : List Nat) (n : Nat),
    rowLengths (offsets.take (n + 1)) = (rowLengths offsets).take n
  | [], n => by simp [rowLengths]
  | [a], n => by simp [rowLengths]
  | a :: b :: rest, 0 => by simp [rowLengths]
  | a :: b :: rest, n + 1 => by
      have ih := rowLengths_take (b :: rest) n
      simp only [rowLengths, List.take_succ_cons, List.tail_cons, List.zipWith_cons_cons,
        List.cons.injEq, true_and] at ih ⊢
      exact ih

theorem rowLengths_slice (offsets : List Nat) (off n : Nat) :
    rowLengths (slice offsets off (n + 1)) = slice (rowLengths offsets) off n := by
  rw [slice, slice, rowLengths_take, rowLengths_drop]

theorem rowLengths_scanl (lengths : List Nat) (start : Nat) :
    rowLengths (lengths.scanl (· + ·) start) = lengths := by
  induction lengths generalizing start with
  | nil => rfl
  | cons l ls ih =>
      have hrest := ih (start + l)
      cases ls with
      | nil => simp [rowLengths]
      | cons m ms =>
          simp only [List.scanl_cons, rowLengths, List.tail_cons, List.zipWith_cons_cons] at hrest ⊢
          rw [hrest, Nat.add_sub_cancel_left]

@[simp] theorem rowLengths_offsetsFromLengths (lengths : List Nat) :
    rowLengths (offsetsFromLengths lengths) = lengths := rowLengths_scanl lengths 0

@[simp] theorem length_offsetsFromLengths (lengths : List Nat) :
    (offsetsFromLengths lengths).length = lengths.length + 1 := by
  simp [offsetsFromLengths]

/-! ## Slices -/

theorem slice_map {α β : Type} (f : α → β) (xs : List α) (off n : Nat) :
    slice (xs.map f) off n = (slice xs off n).map f := by
  simp [slice]

theorem slice_zipWith {α β γ : Type} (f : α → β → γ) (xs : List α) (ys : List β) (off n : Nat) :
    slice (List.zipWith f xs ys) off n = List.zipWith f (slice xs off n) (slice ys off n) := by
  simp [slice, List.drop_zipWith, List.take_zipWith]

namespace ColumnArray

variable {dataType : DataType} {a : ArrayRef}

theorem length_cells (h : ColumnArray dataType a) : a.cells.length = a.len := by
  cases a with
  | prim t vs => simp [ArrayRef.cells]
  | list large field offsets values nulls =>
      have hvalid := ArrayRef.length_validity h.wf
      simp only [ArrayRef.len] at hvalid
      simp only [ArrayRef.cells, ArrayRef.len, List.length_zipWith, hvalid, length_rowLengths,
        Nat.min_self]
  | struct fs cols nulls n => cases h.isColumn

/-- A slice covers the cells of its range. -/
theorem cells_slice (h : ColumnArray dataType a) {off n : Nat} (hn : off + n ≤ a.len) :
    (a.slice off n).cells = slice a.cells off n := by
  cases a with
  | prim t vs => exact (slice_map Cell.value vs off n).symm
  | list large field offsets values nulls =>
      have hvalid := ArrayRef.validity_slice hn
      simp only [ArrayRef.slice] at hvalid
      simp only [ArrayRef.slice, ArrayRef.cells, hvalid, slice_zipWith]
      rw [← slice, rowLengths_slice]
  | struct fs cols nulls len => cases h.isColumn

theorem slice (h : ColumnArray dataType a) {off n : Nat} (hn : off + n ≤ a.len) :
    ColumnArray dataType (a.slice off n) where
  dataType := (ArrayRef.dataType_slice a off n).trans h.dataType
  wf := ArrayRef.wf_slice a h.wf hn
  isColumn := by
    have hcol := h.isColumn
    cases a with
    | prim t vs => rfl
    | list large field offsets values nulls =>
        cases values with
        | prim t vs => rfl
        | list => cases hcol
        | struct => cases hcol
    | struct fs cols nulls len => cases hcol

end ColumnArray

/-! ## Concatenation -/

theorem cells_concat_prim {t : PrimType} : ∀ {as : List ArrayRef},
    (∀ a ∈ as, ColumnArray (.prim t) a) →
      (as.flatMap ArrayRef.rows).map Cell.value = as.flatMap ArrayRef.cells
  | [], _ => rfl
  | a :: as, h => by
      rw [List.flatMap_cons, List.flatMap_cons, List.map_append,
        cells_concat_prim fun b hb => h b (List.mem_cons_of_mem _ hb)]
      have ha := h a (List.mem_cons_self ..)
      cases a with
      | prim t vs => rfl
      | list large field offsets values nulls => cases large <;> cases ha.dataType
      | struct fs cols nulls len => cases ha.isColumn

theorem validity_eq_replicate {a : ArrayRef} (h : a.nullCount = 0) :
    a.validity = List.replicate a.validity.length true := by
  rw [List.eq_replicate_iff]
  refine ⟨rfl, fun b hb => ?_⟩
  cases b with
  | true => rfl
  | false =>
      rw [ArrayRef.nullCount, List.count_eq_zero] at h
      exact absurd hb h

theorem cells_concat_list {large : Bool} {field : Field} : ∀ {as : List ArrayRef},
    (∀ a ∈ as, ColumnArray (if large then .largeList field else .list field) a) →
      List.zipWith Cell.list (as.flatMap ArrayRef.validity) (as.flatMap listLengths) =
        as.flatMap ArrayRef.cells ∧
      (as.flatMap ArrayRef.validity).length = (as.flatMap listLengths).length
  | [], _ => ⟨rfl, rfl⟩
  | a :: as, h => by
      obtain ⟨hcells, hlen⟩ :=
        cells_concat_list fun b hb => h b (List.mem_cons_of_mem _ hb)
      have ha := h a (List.mem_cons_self ..)
      cases a with
      | prim t vs => cases large <;> cases ha.dataType
      | list large' field' offsets values nulls =>
          have hvalid := ArrayRef.length_validity ha.wf
          simp only [ArrayRef.len] at hvalid
          have hsame : (ArrayRef.list large' field' offsets values nulls).validity.length =
              (listLengths (.list large' field' offsets values nulls)).length := by
            rw [hvalid, listLengths, length_rowLengths]
          constructor
          · rw [List.flatMap_cons, List.flatMap_cons, List.flatMap_cons,
              List.zipWith_append hsame, hcells]
            rfl
          · rw [List.flatMap_cons, List.flatMap_cons, List.length_append, List.length_append,
              hsame, hlen]
      | struct fs cols nulls len => cases ha.isColumn

theorem flatMap_validity_of_none {as : List ArrayRef}
    (h : (as.any fun a => decide (a.nullCount > 0)) = false) :
    as.flatMap ArrayRef.validity = List.replicate (as.flatMap ArrayRef.validity).length true := by
  rw [List.eq_replicate_iff]
  refine ⟨rfl, fun b hb => ?_⟩
  obtain ⟨a, ha, hb⟩ := List.mem_flatMap.1 hb
  have hcount := List.any_eq_false.1 h a ha
  have hzero : a.nullCount = 0 := by simpa using hcount
  rw [validity_eq_replicate hzero] at hb
  exact List.eq_of_mem_replicate hb

/-- Several arrays of one column and their concatenation. -/
theorem concatLike_ok {dataType : DataType} {a : ArrayRef} {as : List ArrayRef}
    (ha : ColumnArray dataType a) (h : ∀ a ∈ as, ColumnArray dataType a) :
    ∃ b, concatLike as a = .ok b ∧ b.cells = as.flatMap ArrayRef.cells ∧
      b.len = b.cells.length ∧ b.dataType = dataType := by
  cases a with
  | prim t vs =>
      obtain rfl : dataType = .prim t := ha.dataType.symm
      exact ⟨.prim t (as.flatMap ArrayRef.rows), rfl, cells_concat_prim h,
        by simp [ArrayRef.cells], rfl⟩
  | struct fs cols nulls len => cases ha.isColumn
  | list large field offsets values nulls =>
      cases values with
      | list => cases ha.isColumn
      | struct => cases ha.isColumn
      | prim t vs =>
          obtain rfl : dataType = if large then .largeList field else .list field := by
            rw [← ha.dataType]
            cases large <;> rfl
          obtain ⟨hcells, hlen⟩ := cells_concat_list h
          have hvalid : (if as.any fun a => decide (a.nullCount > 0) then
              some (as.flatMap ArrayRef.validity) else none).getD
                (List.replicate (as.flatMap listLengths).length true) =
                  as.flatMap ArrayRef.validity := by
            cases hany : as.any fun a => decide (a.nullCount > 0) with
            | true => rfl
            | false =>
                rw [flatMap_validity_of_none hany, hlen]
                rfl
          refine ⟨_, rfl, ?_, ?_, ?_⟩
          · simp only [ArrayRef.cells, ArrayRef.validity, rowLengths_offsetsFromLengths,
              length_offsetsFromLengths, Nat.add_sub_cancel]
            rw [hvalid, hcells]
          · simp only [ArrayRef.cells, ArrayRef.validity, ArrayRef.len,
              rowLengths_offsetsFromLengths, length_offsetsFromLengths, Nat.add_sub_cancel]
            rw [hvalid, List.length_zipWith, hlen, Nat.min_self]
          · cases large <;> rfl

/-- **Concatenating arrays of one column appends their cells.** -/
theorem concatArrays_ok {dataType : DataType} {as : List ArrayRef} (hne : as ≠ [])
    (h : ∀ a ∈ as, ColumnArray dataType a) :
    ∃ a, concatArrays as = .ok a ∧ a.cells = as.flatMap ArrayRef.cells ∧
      a.len = a.cells.length ∧ a.dataType = dataType := by
  rcases as with _ | ⟨a, _ | ⟨b, rest⟩⟩
  · exact absurd rfl hne
  · have ha := h a (List.mem_cons_self ..)
    exact ⟨a, rfl, by simp, ha.length_cells.symm, ha.dataType⟩
  · have ha := h a (List.mem_cons_self ..)
    have htypes : ((b :: rest).any fun c => decide (c.dataType ≠ a.dataType)) = false := by
      rw [List.any_eq_false]
      intro c hc
      rw [(h c (List.mem_cons_of_mem _ hc)).dataType, ha.dataType]
      simp
    rw [concatArrays, htypes]
    exact concatLike_ok ha h

end F3Format
