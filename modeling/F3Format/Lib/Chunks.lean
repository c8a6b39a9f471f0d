import F3Format.Lib.Bytes

/-!
# Windows of one width

`slice::chunks_exact`: a list cut into windows of `n` elements, what does not fill
a window being left out. A table of fixed-width records is cut back into its
records, and a list whose length `n` divides is the concatenation of its windows.
-/

set_option autoImplicit false

namespace Lib

universe u v

variable {α : Type u} {β : Type v}

/-- The windows of `n` elements at the multiples of `n`. -/
def chunksExact (n : Nat) (xs : List α) : List (List α) :=
  (List.range (xs.length / n)).map fun i => slice xs (i * n) n

@[simp] theorem length_chunksExact (n : Nat) (xs : List α) :
    (chunksExact n xs).length = xs.length / n := by
  simp [chunksExact]

theorem chunksExact_of_lt {n : Nat} {xs : List α} (h : xs.length < n) : chunksExact n xs = [] := by
  rw [chunksExact, Nat.div_eq_of_lt h]
  rfl

/-- The first window is the first `n` elements. -/
theorem chunksExact_append {n : Nat} (hn : 0 < n) {a : List α} (ha : a.length = n)
    (xs : List α) : chunksExact n (a ++ xs) = a :: chunksExact n xs := by
  have hlen : (a ++ xs).length / n = xs.length / n + 1 := by
    rw [List.length_append, ha, Nat.add_div_left _ hn]
  rw [chunksExact, hlen, List.range_succ_eq_map, List.map_cons, List.map_map]
  congr 1
  · rw [Nat.zero_mul, slice_append_left a xs (by omega), ← ha, slice_full]
  · apply List.map_congr_left
    intro i _
    show slice (a ++ xs) ((i + 1) * n) n = slice xs (i * n) n
    rw [Nat.succ_mul, Nat.add_comm, ← ha]
    exact slice_append_right a xs _ _

/-- A table of records of width `n` is cut into its records. -/
theorem chunksExact_flatMap {n : Nat} (hn : 0 < n) {f : β → List α} {bs : List β}
    (hf : ∀ b ∈ bs, (f b).length = n) : chunksExact n (bs.flatMap f) = bs.map f := by
  induction bs with
  | nil => exact chunksExact_of_lt hn
  | cons b bs ih =>
      rw [List.flatMap_cons, chunksExact_append hn (hf b (List.mem_cons_self ..)),
        ih fun c hc => hf c (List.mem_cons_of_mem _ hc), List.map_cons]

theorem length_of_mem_chunksExact {n : Nat} {xs a : List α} (h : a ∈ chunksExact n xs) :
    a.length = n := by
  obtain ⟨i, hi, rfl⟩ := List.mem_map.1 h
  apply length_slice
  have hlt : (i + 1) * n ≤ xs.length / n * n :=
    Nat.mul_le_mul_right n (List.mem_range.1 hi)
  have hle := Nat.div_mul_le_self xs.length n
  rw [Nat.succ_mul] at hlt
  omega

/-- The windows give back a list whose length is a multiple of their width. -/
theorem flatten_chunksExact {n : Nat} (hn : 0 < n) {xs : List α} (h : n ∣ xs.length) :
    (chunksExact n xs).flatten = xs := by
  obtain ⟨k, hk⟩ := h
  induction k generalizing xs with
  | zero =>
      rw [Nat.mul_zero] at hk
      rw [List.length_eq_zero_iff.1 hk, chunksExact_of_lt (by simpa using hn)]
      rfl
  | succ k ih =>
      -- the first window is split off
      rw [Nat.mul_succ] at hk
      have hfirst : (xs.take n).length = n := List.length_take_of_le (by omega)
      have hrest : (xs.drop n).length = n * k := by
        rw [List.length_drop]
        omega
      have hsplit := chunksExact_append hn hfirst (xs.drop n)
      rw [List.take_append_drop] at hsplit
      rw [hsplit, List.flatten_cons, ih hrest, List.take_append_drop]

/-! ## Parts of a concatenation -/

/-- The `i`-th part begins behind the parts before it. -/
theorem holdsAt_flatten {parts : List (List α)} {i : Nat} {part : List α}
    (h : parts[i]? = some part) : HoldsAt parts.flatten (parts.take i).flatten.length part := by
  obtain ⟨hlt, rfl⟩ := List.getElem?_eq_some_iff.1 h
  refine ⟨(parts.take i).flatten, (parts.drop (i + 1)).flatten, ?_, rfl⟩
  rw [← List.flatten_cons, ← List.flatten_append, ← List.drop_eq_getElem_cons hlt,
    List.take_append_drop]

theorem length_flatten_of_forall {n : Nat} {parts : List (List α)}
    (h : ∀ part ∈ parts, part.length = n) : parts.flatten.length = parts.length * n := by
  rw [List.length_flatten, List.map_congr_left h, List.map_const', List.sum_replicate, smul_eq_mul]

end Lib
