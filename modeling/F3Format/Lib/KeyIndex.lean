import Mathlib

/-!
# Append-only collections with distinct keys

`insertAll key xs ys` appends to `xs` those elements of `ys` whose key is not
there yet. Old elements keep their positions, keys stay distinct, and the
position `idxOf?` finds for a key in one collection is the position it has in
every extension of it.
-/

set_option autoImplicit false

namespace Lib

universe u v

variable {α : Type u} {κ : Type v} [DecidableEq κ] (key : α → κ)

/-- Appends `x` unless its key is present. -/
def insertNew (xs : List α) (x : α) : List α :=
  if key x ∈ xs.map key then xs else xs ++ [x]

/-- Appends the elements of `ys` with new keys, in order. -/
def insertAll (xs ys : List α) : List α := ys.foldl (insertNew key) xs

@[simp] theorem insertAll_nil (xs : List α) : insertAll key xs [] = xs := rfl

@[simp] theorem insertAll_cons (xs : List α) (y : α) (ys : List α) :
    insertAll key xs (y :: ys) = insertAll key (insertNew key xs y) ys := rfl

theorem insertAll_append (xs ys zs : List α) :
    insertAll key xs (ys ++ zs) = insertAll key (insertAll key xs ys) zs := by
  simp [insertAll]

theorem prefix_insertNew (xs : List α) (x : α) : xs <+: insertNew key xs x := by
  unfold insertNew
  split
  · exact List.prefix_rfl
  · exact List.prefix_append xs [x]

/-- Old elements keep their positions. -/
theorem prefix_insertAll (xs ys : List α) : xs <+: insertAll key xs ys := by
  induction ys generalizing xs with
  | nil => exact List.prefix_rfl
  | cons y ys ih => exact (prefix_insertNew key xs y).trans (ih _)

theorem key_mem_insertNew (xs : List α) (x : α) : key x ∈ (insertNew key xs x).map key := by
  unfold insertNew
  split
  · next h => exact h
  · simp

/-- Every inserted element has its key in the result. -/
theorem key_mem_insertAll {xs ys : List α} {y : α} (hy : y ∈ ys) :
    key y ∈ (insertAll key xs ys).map key := by
  induction ys generalizing xs with
  | nil => cases hy
  | cons z zs ih =>
      rcases List.mem_cons.1 hy with e | hm
      · subst e
        have hpre : (insertNew key xs y).map key <+: (insertAll key xs (y :: zs)).map key :=
          (prefix_insertAll key _ zs).map key
        exact hpre.subset (key_mem_insertNew key xs y)
      · exact ih hm

theorem mem_insertNew {xs : List α} {x z : α} (h : z ∈ insertNew key xs x) :
    z ∈ xs ∨ z = x := by
  unfold insertNew at h
  split at h
  · exact .inl h
  · simpa using h

/-- Nothing else gets in. -/
theorem mem_insertAll {xs ys : List α} {z : α} (h : z ∈ insertAll key xs ys) :
    z ∈ xs ∨ z ∈ ys := by
  induction ys generalizing xs with
  | nil => exact .inl h
  | cons y ys ih =>
      rcases ih h with h1 | h2
      · rcases mem_insertNew key h1 with h3 | rfl
        · exact .inl h3
        · exact .inr (by simp)
      · exact .inr (by simp [h2])

theorem nodup_insertNew {xs : List α} (x : α) (h : (xs.map key).Nodup) :
    ((insertNew key xs x).map key).Nodup := by
  unfold insertNew
  split
  · exact h
  · next hx =>
      rw [List.map_append, List.map_singleton, List.nodup_append]
      refine ⟨h, List.nodup_singleton _, ?_⟩
      intro a ha b hb e
      rw [List.mem_singleton] at hb
      subst hb
      exact hx (e ▸ ha)

/-- Keys stay distinct. -/
theorem nodup_insertAll {xs : List α} (ys : List α) (h : (xs.map key).Nodup) :
    ((insertAll key xs ys).map key).Nodup := by
  induction ys generalizing xs with
  | nil => exact h
  | cons y ys ih => exact ih (nodup_insertNew key y h)

/-- Inserting keys that are all present changes nothing. -/
theorem insertAll_of_forall_mem {xs ys : List α} (h : ∀ y ∈ ys, key y ∈ xs.map key) :
    insertAll key xs ys = xs := by
  induction ys with
  | nil => rfl
  | cons y ys ih =>
      have hy : insertNew key xs y = xs := if_pos (h y (by simp))
      rw [insertAll_cons, hy]
      exact ih fun z hz => h z (by simp [hz])

/-- Inserting elements with distinct new keys appends them. -/
theorem insertAll_of_nodup {xs ys : List α} (h : ((xs ++ ys).map key).Nodup) :
    insertAll key xs ys = xs ++ ys := by
  induction ys generalizing xs with
  | nil => simp
  | cons y ys ih =>
      have hy : key y ∉ xs.map key := by
        rw [List.map_append, List.nodup_append] at h
        intro hm
        exact h.2.2 _ hm (key y) (by simp) rfl
      rw [insertAll_cons, insertNew, if_neg hy, ih (by simpa using h)]
      simp

/-! ## Positions -/

/-- The position of a key survives an extension. -/
theorem idxOf?_of_prefix {ks ks' : List κ} {k : κ} (h : ks <+: ks') (hk : k ∈ ks) :
    ks'.idxOf? k = ks.idxOf? k := by
  obtain ⟨r, rfl⟩ := h
  induction ks with
  | nil => cases hk
  | cons x xs ih =>
      by_cases hx : x = k
      · simp [List.idxOf?_cons, hx]
      · have hm : k ∈ xs := by
          rcases List.mem_cons.1 hk with e | hm
          · exact absurd e.symm hx
          · exact hm
        simp [List.idxOf?_cons, hx, ih hm]

theorem idxOf?_append_singleton {ks : List κ} {k k' : κ} (h : k' ∉ ks) :
    (ks ++ [k']).idxOf? k = if k = k' then some ks.length else ks.idxOf? k := by
  induction ks with
  | nil =>
      by_cases e : k = k'
      · simp [List.idxOf?_cons, e]
      · simp [List.idxOf?_cons, e, Ne.symm e]
  | cons x xs ih =>
      have hx : k' ≠ x := fun e => h (by simp [e])
      have hxs : k' ∉ xs := fun e => h (by simp [e])
      by_cases e : x = k
      · subst e
        simp [List.idxOf?_cons, Ne.symm hx]
      · rw [List.cons_append, List.idxOf?_cons, List.idxOf?_cons, ih hxs]
        by_cases e' : k = k'
        · subst e'
          simp [e]
        · simp [e, e']

theorem exists_idxOf?_of_mem {ks : List κ} {k : κ} (h : k ∈ ks) :
    ∃ i, ks.idxOf? k = some i ∧ i < ks.length ∧ ks[i]? = some k := by
  induction ks with
  | nil => cases h
  | cons x xs ih =>
      by_cases e : x = k
      · exact ⟨0, by simp [List.idxOf?_cons, e], by simp, by simp [e]⟩
      · have hm : k ∈ xs := by
          rcases List.mem_cons.1 h with e' | hm
          · exact absurd e'.symm e
          · exact hm
        obtain ⟨i, h1, h2, h3⟩ := ih hm
        exact ⟨i + 1, by simp [List.idxOf?_cons, e, h1], by simpa using h2, by simpa using h3⟩

end Lib
