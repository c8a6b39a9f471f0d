import F3Format.Lib.Windows
import F3Format.Reader

/-!
# Row indexes over row groups

`process_selection` walks over the row groups with a cursor into the sorted row
indexes. Each row group is a window of the rows of the file: it is visited iff an
index falls into it, with the indexes counted from its start.
-/

set_option autoImplicit false

namespace F3Format

open Lib

/-- The row counts of the row groups. -/
def groupRowCounts (groups : List GroupedColumnMetadata) : List Nat :=
  groups.map GroupedColumnMetadata.rowCount

/-- What is selected from a row group that starts at this row. -/
def visit (start : Nat) (m : GroupedColumnMetadata) (rows : List Nat) :
    List (GroupedColumnMetadata × Selection) :=
  if localRows start m.rowCount rows = [] then []
  else [(m, .rowIndexes (localRows start m.rowCount rows))]

/-- The position and the local rows of a row group, if it is visited. -/
def visitAt (sizes rows : List Nat) (k : Nat) : List (Nat × List Nat) :=
  if localRows (windowStart sizes k) (sizes[k]?.getD 0) rows = [] then []
  else [(k, localRows (windowStart sizes k) (sizes[k]?.getD 0) rows)]

section Loop

variable {rows : List Nat} {start : Nat} {m : GroupedColumnMetadata}
  {ms : List GroupedColumnMetadata}

theorem selectRows_nil (ms : List GroupedColumnMetadata) (start : Nat) :
    selectRows ms start [] = [] := by
  cases ms with
  | nil => rfl
  | cons m ms => rfl

/-- One turn of the loop: nothing is below the start, and the cursor stops at the end. -/
theorem selectRows_cons (hsorted : rows.Pairwise (· ≤ ·)) (hstart : ∀ r ∈ rows, start ≤ r) :
    selectRows (m :: ms) start rows = visit start m rows ++
      selectRows ms (start + m.rowCount)
        (rows.filter fun r => decide (start + m.rowCount ≤ r)) := by
  have hpending : (rows.dropWhile fun r => decide (r < start)) = rows := by
    rw [dropWhile_lt_of_sorted hsorted]
    exact List.filter_eq_self.2 fun r hr => decide_eq_true (hstart r hr)
  have hhere : (rows.takeWhile fun r => decide (r < start + m.rowCount)) =
      inWindow start m.rowCount rows := by
    rw [takeWhile_lt_of_sorted hsorted, filter_lt_add hsorted]
    have hnone : ∀ r ∈ rows, ¬ decide (r < start) = true :=
      fun r hr h => Nat.not_lt_of_ge (hstart r hr) (of_decide_eq_true h)
    rw [List.filter_eq_nil_iff.2 hnone, List.nil_append]
  have hvisit : (if (inWindow start m.rowCount rows).isEmpty = true then [] else
      [(m, Selection.rowIndexes ((inWindow start m.rowCount rows).map fun r => r - start))]) =
        visit start m rows := by
    rw [visit, localRows]
    simp only [List.map_eq_nil_iff, List.isEmpty_iff]
  rw [selectRows]
  simp only [hpending, hhere, dropWhile_lt_of_sorted hsorted, hvisit]
  split
  · -- the early exit
    next hempty =>
      rw [List.isEmpty_iff.1 hempty, selectRows_nil, List.append_nil]
  · rfl

/-- What is selected from row groups one after another. -/
def visitFrom (rows : List Nat) : Nat → List GroupedColumnMetadata →
    List (GroupedColumnMetadata × Selection)
  | _, [] => []
  | start, m :: ms => visit start m rows ++ visitFrom rows (start + m.rowCount) ms

/-- A window does not see what is below it. -/
theorem localRows_filter (start size : Nat) (rows : List Nat) :
    localRows start size (rows.filter fun r => decide (start ≤ r)) = localRows start size rows := by
  rw [localRows, localRows, inWindow, inWindow, List.filter_filter]
  congr 1
  refine List.filter_congr fun r _ => ?_
  by_cases hr : start ≤ r
  · simp [hr]
  · simp [hr]

/-- **The loop visits the row groups one by one.** -/
theorem selectRows_eq (hsorted : rows.Pairwise (· ≤ ·)) :
    ∀ (ms : List GroupedColumnMetadata) (start : Nat),
      selectRows ms start (rows.filter fun r => decide (start ≤ r)) = visitFrom rows start ms
  | [], _ => rfl
  | m :: ms, start => by
      have hle : ∀ r ∈ rows.filter fun r => decide (start ≤ r), start ≤ r :=
        fun r hr => of_decide_eq_true (List.mem_filter.1 hr).2
      have hrest : ((rows.filter fun r => decide (start ≤ r)).filter fun r =>
          decide (start + m.rowCount ≤ r)) = rows.filter fun r => decide (start + m.rowCount ≤ r) := by
        rw [List.filter_filter]
        refine List.filter_congr fun r _ => ?_
        by_cases hr : start + m.rowCount ≤ r
        · simp [hr, Nat.le_trans (Nat.le_add_right start m.rowCount) hr]
        · simp [hr]
      rw [selectRows_cons (hsorted.filter _) hle, hrest, selectRows_eq hsorted ms, visitFrom,
        visit, visit, localRows_filter]

/-- Row groups are visited with their positions. -/
theorem forall₂_visitFrom (rows : List Nat) : ∀ (ms done : List GroupedColumnMetadata),
    List.Forall₂ (fun (v : Nat × List Nat) (q : GroupedColumnMetadata × Selection) =>
        (done ++ ms)[v.1]? = some q.1 ∧ q.2 = .rowIndexes v.2)
      ((List.range' done.length ms.length).flatMap (visitAt (groupRowCounts (done ++ ms)) rows))
      (visitFrom rows (windowStart (groupRowCounts (done ++ ms)) done.length) ms)
  | [], _ => .nil
  | m :: ms, done => by
      have hat : (done ++ m :: ms)[done.length]? = some m := by
        rw [List.getElem?_append_right (Nat.le_refl _), Nat.sub_self]
        rfl
      have hsize : (groupRowCounts (done ++ m :: ms))[done.length]? = some m.rowCount := by
        rw [groupRowCounts, List.getElem?_map, hat]
        rfl
      have ih := forall₂_visitFrom rows ms (done ++ [m])
      rw [List.append_assoc, List.singleton_append, List.length_append, List.length_singleton,
        windowStart_succ hsize] at ih
      rw [List.length_cons, List.range'_succ, List.flatMap_cons, visitFrom]
      refine List.rel_append ?_ ih
      rw [visitAt, visit, hsize, Option.getD_some]
      split
      · exact .nil
      · exact .cons ⟨hat, rfl⟩ .nil

end Loop

/-! ## The partition -/

theorem mem_visitAt {sizes rows : List Nat} {k : Nat} {v : Nat × List Nat} :
    v ∈ visitAt sizes rows k ↔ localRows (windowStart sizes k) (sizes[k]?.getD 0) rows ≠ [] ∧
      v = (k, localRows (windowStart sizes k) (sizes[k]?.getD 0) rows) := by
  rw [visitAt]
  split
  · next h => simp [h]
  · next h => simp [h]

/-- Mapped back, the rows of a visit are those in the window. -/
theorem flatMap_visitAt (sizes rows : List Nat) (k : Nat) :
    ((visitAt sizes rows k).flatMap fun v => v.2.map fun l => windowStart sizes v.1 + l) =
      inWindow (windowStart sizes k) (sizes[k]?.getD 0) rows := by
  rw [visitAt]
  split
  · next h =>
      rw [localRows, List.map_eq_nil_iff] at h
      rw [h]
      rfl
  · rw [List.flatMap_cons, List.flatMap_nil, List.append_nil, map_localRows]

theorem pairwise_visits (sizes rows : List Nat) (n : Nat) :
    (((List.range n).flatMap (visitAt sizes rows)).map Prod.fst).Pairwise (· < ·) := by
  have hsub : (((List.range n).flatMap (visitAt sizes rows)).map Prod.fst).Sublist
      (List.range n) := by
    induction n with
    | zero => exact .slnil
    | succ n ih =>
        rw [List.range_succ, List.flatMap_append, List.map_append]
        refine ih.append ?_
        rw [List.flatMap_cons, List.flatMap_nil, List.append_nil, visitAt]
        split
        · exact List.nil_sublist _
        · exact List.Sublist.refl _
  exact List.pairwise_lt_range.sublist hsub

/-- `process_selection` visits the row groups with the sorted row indexes. -/
theorem processSelection_eq (rows : List Nat) (groups : List GroupedColumnMetadata) :
    processSelection (.rowIndexes rows) groups =
      visitFrom (rows.insertionSort fun a b => a ≤ b) 0 groups := by
  have hsorted : (rows.insertionSort fun a b => a ≤ b).Pairwise (· ≤ ·) :=
    List.pairwise_insertionSort _ rows
  have hall : ((rows.insertionSort fun a b => a ≤ b).filter fun r => decide (0 ≤ r)) =
      rows.insertionSort fun a b => a ≤ b :=
    List.filter_eq_self.2 fun r _ => decide_eq_true (Nat.zero_le r)
  rw [← selectRows_eq hsorted, hall, processSelection]
  split
  · next hempty =>
      rw [List.isEmpty_iff.1 hempty]
      exact (selectRows_nil groups 0).symm
  · rfl

/-- **`process_selection` partitions the row indexes.** The row groups are visited
in file order, at most once, and exactly those into which an index falls; mapped
back, the local indexes are the sorted in-range indexes. -/
theorem processSelection_partition (rows : List Nat) (groups : List GroupedColumnMetadata) :
    ∃ visits : List (Nat × List Nat),
      List.Forall₂ (fun v q => groups[v.1]? = some q.1 ∧ q.2 = Selection.rowIndexes v.2) visits
        (processSelection (.rowIndexes rows) groups) ∧
      (visits.map Prod.fst).Pairwise (· < ·) ∧
      (∀ k < groups.length, k ∈ visits.map Prod.fst ↔ ∃ r ∈ rows,
        windowStart (groupRowCounts groups) k ≤ r ∧ r < windowStart (groupRowCounts groups) (k + 1)) ∧
      (visits.flatMap fun v => v.2.map fun l => windowStart (groupRowCounts groups) v.1 + l).Pairwise
        (· ≤ ·) ∧
      (visits.flatMap fun v => v.2.map fun l => windowStart (groupRowCounts groups) v.1 + l).Perm
        (rows.filter fun r => decide (r < (groupRowCounts groups).sum)) := by
  have hsorted : (rows.insertionSort fun a b => a ≤ b).Pairwise (· ≤ ·) :=
    List.pairwise_insertionSort _ rows
  have hperm : (rows.insertionSort fun a b => a ≤ b).Perm rows := List.perm_insertionSort _ rows
  have hlen : (groupRowCounts groups).length = groups.length := List.length_map ..
  -- the cursor runs over the sorted indexes
  have hback : (((List.range groups.length).flatMap (visitAt (groupRowCounts groups)
      (rows.insertionSort fun a b => a ≤ b))).flatMap fun v =>
        v.2.map fun l => windowStart (groupRowCounts groups) v.1 + l) =
      (rows.insertionSort fun a b => a ≤ b).filter fun r =>
        decide (r < (groupRowCounts groups).sum) := by
    rw [List.flatMap_assoc, List.flatMap_congr fun k _ => flatMap_visitAt (groupRowCounts groups) _ k,
      flatMap_inWindow hsorted _ (Nat.le_of_eq hlen.symm), ← hlen, windowStart_length]
  refine ⟨(List.range groups.length).flatMap (visitAt (groupRowCounts groups)
    (rows.insertionSort fun a b => a ≤ b)), ?_, pairwise_visits _ _ _, ?_, ?_, ?_⟩
  · rw [processSelection_eq, List.range_eq_range']
    exact forall₂_visitFrom _ groups []
  · intro k hk
    have hsize : (groupRowCounts groups)[k]? = some (groupRowCounts groups)[k] :=
      List.getElem?_eq_getElem (hlen ▸ hk)
    rw [windowStart_succ hsize]
    constructor
    · intro hmem
      obtain ⟨v, hv, rfl⟩ := List.mem_map.1 hmem
      obtain ⟨k', -, hv⟩ := List.mem_flatMap.1 hv
      obtain ⟨hne, rfl⟩ := mem_visitAt.1 hv
      obtain ⟨l, hl⟩ := List.exists_mem_of_ne_nil _ hne
      obtain ⟨r, hr, -⟩ := List.mem_map.1 hl
      obtain ⟨hmem, hwindow⟩ := mem_inWindow.1 hr
      rw [hsize] at hwindow
      exact ⟨r, hperm.mem_iff.1 hmem, hwindow⟩
    · rintro ⟨r, hr, hwindow⟩
      refine List.mem_map.2 ⟨_, List.mem_flatMap.2 ⟨k, List.mem_range.2 hk,
        mem_visitAt.2 ⟨?_, rfl⟩⟩, rfl⟩
      rw [hsize, Option.getD_some, ne_eq, localRows_eq_nil_iff]
      intro hnone
      exact hnone r (hperm.mem_iff.2 hr) hwindow
  · rw [hback]
    exact hsorted.filter _
  · rw [hback]
    exact hperm.filter _

end F3Format
