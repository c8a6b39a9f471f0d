import Mathlib

/-!
# Collecting items into groups

Items are appended to the group in progress; the group is closed as soon as it
is full. What closes a group is a predicate on its items. Nothing is lost or
reordered (`flatten_all_collectGroups`), and an invariant of the groups holds if adding an item
to the group in progress keeps it.
-/

set_option autoImplicit false

namespace Lib

variable {α : Type}

/-- The closed groups and the one in progress. -/
structure Groups (α : Type) where
  closed : List (List α)
  current : List α

namespace Groups

/-- No items yet. -/
def empty : Groups α := ⟨[], []⟩

/-- One more item. -/
def add (full : List α → Bool) (g : Groups α) (x : α) : Groups α :=
  if full (g.current ++ [x]) then ⟨g.closed ++ [g.current ++ [x]], []⟩
  else ⟨g.closed, g.current ++ [x]⟩

/-- All groups, the one in progress last. -/
def all (g : Groups α) : List (List α) := g.closed ++ [g.current]

theorem add_of_full {full : List α → Bool} {g : Groups α} {x : α}
    (h : full (g.current ++ [x]) = true) :
    g.add full x = ⟨g.closed ++ [g.current ++ [x]], []⟩ := if_pos h

theorem add_of_not_full {full : List α → Bool} {g : Groups α} {x : α}
    (h : full (g.current ++ [x]) = false) : g.add full x = ⟨g.closed, g.current ++ [x]⟩ :=
  if_neg (ne_true_of_eq_false h)

theorem flatten_all_add (full : List α → Bool) (g : Groups α) (x : α) :
    (g.add full x).all.flatten = g.all.flatten ++ [x] := by
  cases h : full (g.current ++ [x]) with
  | true =>
      rw [add_of_full h]
      simp [all]
  | false =>
      rw [add_of_not_full h]
      simp [all]

end Groups

/-- The groups of a list of items. -/
def collectGroups (full : List α → Bool) (xs : List α) : Groups α :=
  xs.foldl (Groups.add full) Groups.empty

theorem collectGroups_snoc (full : List α → Bool) (xs : List α) (x : α) :
    collectGroups full (xs ++ [x]) = (collectGroups full xs).add full x := by
  rw [collectGroups, List.foldl_append]
  rfl

/-- Every item is in one group, in order. -/
theorem flatten_all_collectGroups (full : List α → Bool) (xs : List α) :
    (collectGroups full xs).all.flatten = xs := by
  induction xs using List.reverseRecOn with
  | nil => rfl
  | append_singleton xs x ih => rw [collectGroups_snoc, Groups.flatten_all_add, ih]

end Lib
