import Mathlib

/-!
# Consecutive placement

Writing segments one after another gives each the range that starts where the
previous one ended. `Tiles a rs b` says that the ranges `rs`, given as pairs of
a start and a size, are laid out in this way from `a` up to `b`. Tilings are
closed under concatenation, their ranges stay inside `[a, b)`, two of them never
overlap, and every position of `[a, b)` lies in one of them.
-/

set_option autoImplicit false

namespace Lib

/-- The position `p` lies in the range with this start and size. -/
def InRange (r : Nat × Nat) (p : Nat) : Prop := r.1 ≤ p ∧ p < r.1 + r.2

/-- Two ranges without a common position. -/
def Disjoint (r r' : Nat × Nat) : Prop := ∀ p, ¬ (InRange r p ∧ InRange r' p)

/-- The ranges are consecutive from `a` to `b`. -/
def Tiles : Nat → List (Nat × Nat) → Nat → Prop
  | a, [], b => a = b
  | a, r :: rs, b => r.1 = a ∧ Tiles (a + r.2) rs b

@[simp] theorem tiles_nil (a b : Nat) : Tiles a [] b ↔ a = b := Iff.rfl

@[simp] theorem tiles_cons (a b : Nat) (r : Nat × Nat) (rs : List (Nat × Nat)) :
    Tiles a (r :: rs) b ↔ r.1 = a ∧ Tiles (a + r.2) rs b := Iff.rfl

theorem tiles_append {rs rs' : List (Nat × Nat)} {a b c : Nat}
    (h : Tiles a rs b) (h' : Tiles b rs' c) : Tiles a (rs ++ rs') c := by
  induction rs generalizing a with
  | nil =>
      have e : a = b := h
      subst e
      exact h'
  | cons r rs ih => exact ⟨h.1, ih h.2⟩

theorem tiles_snoc {rs : List (Nat × Nat)} {a b size : Nat} (h : Tiles a rs b) :
    Tiles a (rs ++ [(b, size)]) (b + size) :=
  tiles_append h ⟨rfl, rfl⟩

theorem tiles_split {rs rs' : List (Nat × Nat)} {a c : Nat} (h : Tiles a (rs ++ rs') c) :
    ∃ b, Tiles a rs b ∧ Tiles b rs' c := by
  induction rs generalizing a with
  | nil => exact ⟨a, rfl, h⟩
  | cons r rs ih =>
      obtain ⟨b, h1, h2⟩ := ih h.2
      exact ⟨b, ⟨h.1, h1⟩, h2⟩

theorem tiles_le {rs : List (Nat × Nat)} {a b : Nat} (h : Tiles a rs b) : a ≤ b := by
  induction rs generalizing a with
  | nil => exact Nat.le_of_eq h
  | cons r rs ih => exact Nat.le_trans (Nat.le_add_right a r.2) (ih h.2)

/-- The end of a tiling is its start plus the sizes. -/
theorem tiles_sum {rs : List (Nat × Nat)} {a b : Nat} (h : Tiles a rs b) :
    b = a + (rs.map Prod.snd).sum := by
  induction rs generalizing a with
  | nil =>
      have e : a = b := h
      simp [e]
  | cons r rs ih =>
      have e := ih h.2
      simp only [List.map_cons, List.sum_cons]
      omega

/-- Every range of a tiling lies inside the tiled interval. -/
theorem tiles_mem {rs : List (Nat × Nat)} {a b : Nat} (h : Tiles a rs b) {r : Nat × Nat}
    (hr : r ∈ rs) : a ≤ r.1 ∧ r.1 + r.2 ≤ b := by
  induction rs generalizing a with
  | nil => cases hr
  | cons q rs ih =>
      have hle := tiles_le h.2
      have hq := h.1
      rcases List.mem_cons.1 hr with e | hm
      · subst e
        omega
      · have hin := ih h.2 hm
        omega

/-- The ranges of a tiling are pairwise disjoint. -/
theorem tiles_pairwise_disjoint {rs : List (Nat × Nat)} {a b : Nat} (h : Tiles a rs b) :
    rs.Pairwise Disjoint := by
  induction rs generalizing a with
  | nil => exact List.Pairwise.nil
  | cons r rs ih =>
      refine List.Pairwise.cons ?_ (ih h.2)
      intro r' hr' p ⟨hp, hp'⟩
      have hin := tiles_mem h.2 hr'
      have hstart := h.1
      unfold InRange at hp hp'
      omega

/-- A tiling covers its interval. -/
theorem tiles_cover {rs : List (Nat × Nat)} {a b : Nat} (h : Tiles a rs b) {p : Nat}
    (hp : a ≤ p ∧ p < b) : ∃ r ∈ rs, InRange r p := by
  induction rs generalizing a with
  | nil =>
      have e : a = b := h
      omega
  | cons r rs ih =>
      have hstart := h.1
      by_cases hlt : p < a + r.2
      · refine ⟨r, by simp, ?_⟩
        unfold InRange
        omega
      · obtain ⟨r', hr', hin⟩ := ih h.2 (by omega)
        exact ⟨r', by simp [hr'], hin⟩

end Lib
