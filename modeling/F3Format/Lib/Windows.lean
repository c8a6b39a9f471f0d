import Mathlib

/-!
# Cutting a sorted list at boundaries

Consecutive windows of given sizes cut a sorted list of positions into the parts
that fall into them. The parts give the list back, up to the end of the last
window (`flatMap_inWindow`).

A single position is located in one window. If the windows are only partly filled,
what lies at a position is not what lies there when the fillings are put together,
unless only the last filled window has room left (`lookAt_eq_getElem?_iff`).
-/

set_option autoImplicit false

namespace Lib

/-- Where window `k` starts. -/
def windowStart (sizes : List Nat) (k : Nat) : Nat := (sizes.take k).sum

/-- The positions in a window. -/
def inWindow (start size : Nat) (rows : List Nat) : List Nat :=
  rows.filter fun r => decide (start ≤ r) && decide (r < start + size)

/-- The positions in a window, counted from its start. -/
def localRows (start size : Nat) (rows : List Nat) : List Nat :=
  (inWindow start size rows).map fun r => r - start

variable {rows sizes : List Nat} {start size : Nat}

theorem mem_inWindow {r : Nat} :
    r ∈ inWindow start size rows ↔ r ∈ rows ∧ start ≤ r ∧ r < start + size := by
  rw [inWindow, List.mem_filter, Bool.and_eq_true, decide_eq_true_eq, decide_eq_true_eq]

@[simp] theorem windowStart_zero (sizes : List Nat) : windowStart sizes 0 = 0 := rfl

theorem windowStart_cons_succ (size : Nat) (sizes : List Nat) (k : Nat) :
    windowStart (size :: sizes) (k + 1) = size + windowStart sizes k := by
  rw [windowStart, List.take_succ_cons, List.sum_cons, windowStart]

theorem windowStart_succ {k : Nat} (h : sizes[k]? = some size) :
    windowStart sizes (k + 1) = windowStart sizes k + size := by
  rw [windowStart, List.take_add_one, h, List.sum_append, windowStart]
  rfl

theorem windowStart_length (sizes : List Nat) : windowStart sizes sizes.length = sizes.sum := by
  rw [windowStart, List.take_length]

/-- Local positions are positions of the window. -/
theorem lt_of_mem_localRows {l : Nat} (h : l ∈ localRows start size rows) : l < size := by
  obtain ⟨r, hr, rfl⟩ := List.mem_map.1 h
  obtain ⟨-, hle, hlt⟩ := mem_inWindow.1 hr
  omega

/-- Counting from the start and back. -/
theorem map_localRows (start size : Nat) (rows : List Nat) :
    (localRows start size rows).map (fun l => start + l) = inWindow start size rows := by
  rw [localRows, List.map_map]
  conv => rhs; rw [← List.map_id (inWindow start size rows)]
  refine List.map_congr_left fun r hr => ?_
  obtain ⟨-, hle, -⟩ := mem_inWindow.1 hr
  exact Nat.add_sub_cancel' hle

theorem localRows_eq_nil_iff :
    localRows start size rows = [] ↔ ∀ r ∈ rows, ¬ (start ≤ r ∧ r < start + size) := by
  rw [localRows, List.map_eq_nil_iff, List.eq_nil_iff_forall_not_mem]
  constructor
  · intro h r hr hwindow
    exact h r (mem_inWindow.2 ⟨hr, hwindow⟩)
  · intro h r hr
    exact h r (mem_inWindow.1 hr).1 (mem_inWindow.1 hr).2

section Sorted

variable (hsorted : rows.Pairwise (· ≤ ·))

include hsorted

theorem takeWhile_lt_of_sorted (bound : Nat) :
    rows.takeWhile (fun r => decide (r < bound)) = rows.filter fun r => decide (r < bound) := by
  induction rows with
  | nil => rfl
  | cons r rows ih =>
      obtain ⟨hfirst, hrest⟩ := List.pairwise_cons.1 hsorted
      by_cases hr : r < bound
      · simp only [List.takeWhile_cons, List.filter_cons, decide_eq_true hr, if_true, ih hrest]
      · have hnone : ∀ r' ∈ rows, ¬ decide (r' < bound) = true := by
          intro r' hr' h
          exact hr (Nat.lt_of_le_of_lt (hfirst r' hr') (of_decide_eq_true h))
        rw [List.takeWhile_cons_of_neg (by simpa using hr),
          List.filter_cons_of_neg (by simpa using hr), List.filter_eq_nil_iff.2 hnone]

theorem dropWhile_lt_of_sorted (bound : Nat) :
    rows.dropWhile (fun r => decide (r < bound)) = rows.filter fun r => decide (bound ≤ r) := by
  induction rows with
  | nil => rfl
  | cons r rows ih =>
      obtain ⟨hfirst, hrest⟩ := List.pairwise_cons.1 hsorted
      by_cases hr : r < bound
      · rw [List.filter_cons_of_neg (by simpa using hr)]
        simp only [List.dropWhile_cons, decide_eq_true hr, if_true, ih hrest]
      · have hall : ∀ r' ∈ rows, decide (bound ≤ r') = true := by
          intro r' hr'
          exact decide_eq_true (Nat.le_trans (Nat.le_of_not_lt hr) (hfirst r' hr'))
        rw [List.dropWhile_cons_of_neg (by simpa using hr),
          List.filter_cons_of_pos (by simpa using hr), List.filter_eq_self.2 hall]

/-- What is below the end of a window is below its start or in it. -/
theorem filter_lt_add (start size : Nat) :
    (rows.filter fun r => decide (r < start + size)) =
      (rows.filter fun r => decide (r < start)) ++ inWindow start size rows := by
  induction rows with
  | nil => rfl
  | cons r rows ih =>
      obtain ⟨hfirst, hrest⟩ := List.pairwise_cons.1 hsorted
      have ih := ih hrest
      rw [inWindow] at ih ⊢
      by_cases hbelow : r < start
      · have hin : r < start + size := Nat.lt_of_lt_of_le hbelow (Nat.le_add_right start size)
        have hout : ¬ start ≤ r := Nat.not_le_of_gt hbelow
        simp only [List.filter_cons, hin, hbelow, hout, decide_true, decide_false, Bool.false_and,
          if_true, Bool.false_eq_true, if_false, ih, List.cons_append]
      · -- from here on, nothing is below the start
        have hnone : ∀ r' ∈ rows, ¬ decide (r' < start) = true := by
          intro r' hr' h
          exact hbelow (Nat.lt_of_le_of_lt (hfirst r' hr') (of_decide_eq_true h))
        rw [List.filter_eq_nil_iff.2 hnone, List.nil_append] at ih
        have hstart : start ≤ r := Nat.le_of_not_lt hbelow
        simp only [List.filter_cons, hbelow, hstart, decide_true, decide_false, Bool.true_and,
          Bool.false_eq_true, if_false, List.filter_eq_nil_iff.2 hnone, List.nil_append, ih]

/-- **The windows give the list back**, up to the end of the last one. -/
theorem flatMap_inWindow (sizes : List Nat) {n : Nat} (hn : n ≤ sizes.length) :
    ((List.range n).flatMap fun k => inWindow (windowStart sizes k) (sizes[k]?.getD 0) rows) =
      rows.filter fun r => decide (r < windowStart sizes n) := by
  induction n with
  | zero =>
      rw [windowStart_zero, List.range_zero, List.flatMap_nil]
      exact (List.filter_eq_nil_iff.2 fun r _ => by simp).symm
  | succ n ih =>
      have hsize : sizes[n]? = some sizes[n] := List.getElem?_eq_getElem hn
      rw [List.range_succ, List.flatMap_append, ih (Nat.le_of_succ_le hn), windowStart_succ hsize,
        filter_lt_add hsorted, List.flatMap_cons, List.flatMap_nil, List.append_nil, hsize]
      rfl

end Sorted

/-! ## Locating one position -/

section Locate

variable {α β γ : Type}

/-- The window that contains a position, and the position counted from its start. -/
def locate (size : α → Nat) : List α → Nat → Option (α × Nat)
  | [], _ => none
  | a :: as, r => if r < size a then some (a, r) else locate size as (r - size a)

theorem mem_of_locate {size : α → Nat} {p : α × Nat} : ∀ {as : List α} {r : Nat},
    locate size as r = some p → p.1 ∈ as ∧ p.2 < size p.1
  | [], _, h => nomatch h
  | a :: as, r, h => by
      rw [locate] at h
      split at h
      · next hr =>
          cases h
          exact ⟨List.mem_cons_self .., hr⟩
      · obtain ⟨hmem, hlt⟩ := mem_of_locate h
        exact ⟨List.mem_cons_of_mem _ hmem, hlt⟩

/-- Windows of the same sizes locate a position alike. -/
theorem locate_rel {R : α → β → Prop} {size : α → Nat} {size' : β → Nat}
    (hsize : ∀ a b, R a b → size a = size' b) {as : List α} {bs : List β}
    (h : List.Forall₂ R as bs) (r : Nat) :
    Option.Rel (fun p q => R p.1 q.1 ∧ p.2 = q.2) (locate size as r) (locate size' bs r) := by
  induction h generalizing r with
  | nil => exact .none
  | @cons a b as bs hab _ ih =>
      rw [locate, locate, hsize a b hab]
      split
      · exact .some ⟨hab, rfl⟩
      · exact ih _

variable {size : α → Nat} {rows : α → List γ}

/-- What lies at a position of the windows. -/
def lookAt (size : α → Nat) (rows : α → List γ) (as : List α) (r : Nat) : Option γ :=
  (locate size as r).bind fun p => (rows p.1)[p.2]?

theorem lookAt_cons (a : α) (as : List α) (r : Nat) : lookAt size rows (a :: as) r =
    if r < size a then (rows a)[r]? else lookAt size rows as (r - size a) := by
  rw [lookAt, locate]
  split
  · rfl
  · rfl

theorem lookAt_eq_none {as : List α} (h : ∀ a ∈ as, rows a = []) (r : Nat) :
    lookAt size rows as r = none := by
  rw [lookAt]
  cases hp : locate size as r with
  | none => rfl
  | some p =>
      rw [Option.bind_some, h p.1 (mem_of_locate hp).1]
      rfl

/-- **Looking into the windows is looking into their fillings put together** iff
every window before a filled one is full. -/
theorem lookAt_eq_getElem?_iff : ∀ {as : List α}, (∀ a ∈ as, (rows a).length ≤ size a) →
    ((∀ r, lookAt size rows as r = (as.flatMap rows)[r]?) ↔
      as.Pairwise fun a b => (rows a).length = size a ∨ rows b = [])
  | [], _ => by
      constructor
      · intro _
        exact .nil
      · intro _ r
        rfl
  | a :: as, hle => by
      obtain ⟨ha, has⟩ := List.forall_mem_cons.1 hle
      have ih := lookAt_eq_getElem?_iff has
      rw [List.flatMap_cons, List.pairwise_cons]
      by_cases hfull : (rows a).length = size a
      · -- the other windows start where the filling of the first one ends
        have hshift : (∀ r, lookAt size rows (a :: as) r = (rows a ++ as.flatMap rows)[r]?) ↔
            ∀ r, lookAt size rows as r = (as.flatMap rows)[r]? := by
          constructor
          · intro h r
            have hr := h (size a + r)
            rw [lookAt_cons, if_neg (by omega), Nat.add_sub_cancel_left, ← hfull,
              List.getElem?_append_right (Nat.le_add_right _ _), Nat.add_sub_cancel_left] at hr
            exact hr
          · intro h r
            rw [lookAt_cons]
            split
            · next hr => exact (List.getElem?_append_left (hfull ▸ hr)).symm
            · next hr =>
                rw [h, List.getElem?_append_right (by omega), hfull]
        rw [hshift, ih]
        exact ⟨fun h => ⟨fun b _ => .inl hfull, h⟩, fun h => h.2⟩
      · have hlt : (rows a).length < size a := Nat.lt_of_le_of_ne ha hfull
        constructor
        · intro h
          have hend := h (rows a).length
          rw [lookAt_cons, if_pos hlt, List.getElem?_eq_none (Nat.le_refl _),
            List.getElem?_append_right (Nat.le_refl _), Nat.sub_self, eq_comm,
            List.getElem?_eq_none_iff, Nat.le_zero, List.length_eq_zero_iff,
            List.flatMap_eq_nil_iff] at hend
          exact ⟨fun b hb => .inr (hend b hb), List.Pairwise.imp_of_mem
            (fun _ hb _ => .inr (hend _ hb)) (List.pairwise_of_forall fun _ _ => trivial)⟩
        · rintro ⟨hfirst, -⟩ r
          have hempty : ∀ b ∈ as, rows b = [] := fun b hb => (hfirst b hb).resolve_left hfull
          rw [List.flatMap_eq_nil_iff.2 hempty, List.append_nil, lookAt_cons,
            lookAt_eq_none hempty]
          split
          · rfl
          · next hr => exact (List.getElem?_eq_none (by omega)).symm

end Locate

end Lib
