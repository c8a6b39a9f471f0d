import Mathlib

/-!
# Keys as positions

A table that is stored as the list of its values in the order of their keys, and
looked up by position. If every key is smaller than the number of keys, the keys are
the positions.
-/

set_option autoImplicit false

namespace Lib

universe u

variable {β : Type u} {xs : List (Nat × β)}

/-- The table in the order of its keys. -/
def sortByKey (xs : List (Nat × β)) : List (Nat × β) := xs.insertionSort fun a b => a.1 ≤ b.1

/-- The table of the positions of a list. -/
def byPosition (bs : List β) : List (Nat × β) := bs.zipIdx.map fun p => (p.2, p.1)

theorem lookup_zipIdx : ∀ (bs : List β) (n i : Nat),
    ((bs.zipIdx n).map fun p => (p.2, p.1)).lookup (n + i) = bs[i]?
  | [], n, i => rfl
  | b :: bs, n, 0 => by
      rw [List.zipIdx_cons, List.map_cons, Nat.add_zero]
      exact List.lookup_cons_self
  | b :: bs, n, i + 1 => by
      have hne : (n + (i + 1) == n) = false := beq_eq_false_iff_ne.2 (by omega)
      rw [List.zipIdx_cons, List.map_cons, List.lookup_cons, hne]
      rw [show n + (i + 1) = (n + 1) + i by omega]
      exact lookup_zipIdx bs (n + 1) i

theorem lookup_byPosition (bs : List β) (i : Nat) : (byPosition bs).lookup i = bs[i]? := by
  have h := lookup_zipIdx bs 0 i
  rw [Nat.zero_add] at h
  exact h

/-- Distinct keys below their number are, in order, the positions. -/
theorem keys_sortByKey (hkeys : (xs.map Prod.fst).Nodup) (hlt : ∀ p ∈ xs, p.1 < xs.length) :
    (sortByKey xs).map Prod.fst = List.range xs.length := by
  have hperm : List.Perm ((sortByKey xs).map Prod.fst) (xs.map Prod.fst) :=
    (List.perm_insertionSort _ xs).map Prod.fst
  have hrange : List.Perm (xs.map Prod.fst) (List.range xs.length) := by
    refine (List.subperm_of_subset hkeys fun k hk => ?_).perm_of_length_le ?_
    · obtain ⟨p, hp, rfl⟩ := List.mem_map.1 hk
      exact List.mem_range.2 (hlt p hp)
    · rw [List.length_range, List.length_map]
  refine List.Perm.eq_of_pairwise (fun a b _ _ => Nat.le_antisymm) ?_ ?_ (hperm.trans hrange)
  · exact List.pairwise_map.2 (List.pairwise_insertionSort (fun a b : Nat × β => a.1 ≤ b.1) xs)
  · exact List.pairwise_lt_range.imp Nat.le_of_lt

@[simp] theorem length_sortByKey (xs : List (Nat × β)) : (sortByKey xs).length = xs.length :=
  (List.perm_insertionSort _ xs).length_eq

/-- **Each entry is at the position of its key.** -/
theorem getElem?_sortByKey (hkeys : (xs.map Prod.fst).Nodup) (hlt : ∀ p ∈ xs, p.1 < xs.length)
    {p : Nat × β} (hp : p ∈ xs) : (sortByKey xs)[p.1]? = some p := by
  have hmem : p ∈ sortByKey xs := (List.perm_insertionSort _ xs).mem_iff.2 hp
  obtain ⟨i, hi, hget⟩ := List.mem_iff_getElem.1 hmem
  have hkey : ((sortByKey xs).map Prod.fst)[i]? = some p.1 := by
    rw [List.getElem?_map, List.getElem?_eq_getElem hi, hget]
    rfl
  have hrange : i < xs.length := by
    rw [length_sortByKey] at hi
    exact hi
  rw [keys_sortByKey hkeys hlt, List.getElem?_range hrange] at hkey
  rw [← Option.some.inj hkey, List.getElem?_eq_getElem hi, hget]

end Lib
