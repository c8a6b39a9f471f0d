import Mathlib

/-!
# The smallest elements of a multiset

`bottomK k m` are the `k` smallest elements of `m` in order. A bounded heap that
drops its maximum keeps them (`Keeps`), and the union of two sorted lists, taken
with maximum multiplicities, is found element by element (`matchedUnion`), each
element with a mark that says whether it is matched in both. The first `k`
elements of the union need the first `k` elements of both lists only.
-/

set_option autoImplicit false

namespace Lib

universe u

variable {α : Type u} [LinearOrder α]

/-- The `k` smallest elements, smallest first. -/
def bottomK (k : Nat) (m : Multiset α) : List α := (m.sort (· ≤ ·)).take k

theorem length_bottomK (k : Nat) (m : Multiset α) : (bottomK k m).length = min k m.card := by
  rw [bottomK, List.length_take, Multiset.length_sort]

theorem pairwise_bottomK (k : Nat) (m : Multiset α) : (bottomK k m).Pairwise (· ≤ ·) :=
  (m.pairwise_sort (· ≤ ·)).sublist (List.take_sublist k _)

/-- A sorted list is the sorted list of its elements. -/
theorem sort_coe_of_pairwise {xs : List α} (h : xs.Pairwise (· ≤ ·)) :
    (xs : Multiset α).sort (· ≤ ·) = xs := by
  have hperm : ((xs : Multiset α).sort (· ≤ ·)).Perm xs := by
    rw [← Multiset.coe_eq_coe, Multiset.sort_eq]
  exact hperm.eq_of_pairwise (fun _ _ _ _ hab hba => le_antisymm hab hba)
    (Multiset.pairwise_sort ..) h

/-! ## A bounded heap -/

/-- The elements kept out of `m`: as many as `k` allows, none above one that was dropped. -/
def Keeps (k : Nat) (kept : List α) (m : Multiset α) : Prop :=
  ∃ dropped : Multiset α, (kept : Multiset α) + dropped = m ∧ kept.length = min k m.card ∧
    ∀ a ∈ kept, ∀ b ∈ dropped, a ≤ b

namespace Keeps

variable {k : Nat} {kept : List α} {m : Multiset α}

theorem nil (k : Nat) : Keeps k ([] : List α) 0 :=
  ⟨0, rfl, by simp, fun a ha => absurd ha List.not_mem_nil⟩

/-- As long as there is room, everything is kept. -/
theorem push (h : Keeps k kept m) (hroom : kept.length < k) (x : α) :
    Keeps k (x :: kept) (x ::ₘ m) := by
  obtain ⟨dropped, hsum, hlen, hle⟩ := h
  have hcard : kept.length + dropped.card = m.card := by
    rw [← hsum, Multiset.card_add, Multiset.coe_card]
  have hnone : dropped = 0 := Multiset.card_eq_zero.1 (by omega)
  subst hnone
  refine ⟨0, ?_, ?_, fun a _ b hb => absurd hb (Multiset.notMem_zero b)⟩
  · rw [← Multiset.cons_coe, Multiset.cons_add, hsum]
  · rw [List.length_cons, Multiset.card_cons]
    omega

/-- An element not below the maximum of a full heap is dropped. -/
theorem drop (h : Keeps k kept m) (hfull : ¬ kept.length < k) {x : α}
    (hx : ∀ a ∈ kept, a ≤ x) : Keeps k kept (x ::ₘ m) := by
  obtain ⟨dropped, hsum, hlen, hle⟩ := h
  refine ⟨x ::ₘ dropped, ?_, ?_, ?_⟩
  · rw [Multiset.add_cons, hsum]
  · rw [Multiset.card_cons]
    omega
  · intro a ha b hb
    rcases Multiset.mem_cons.1 hb with rfl | hb
    · exact hx a ha
    · exact hle a ha b hb

/-- An element below the maximum takes its place. -/
theorem replace (h : Keeps k kept m) (hfull : ¬ kept.length < k) {x top : α} (htop : top ∈ kept)
    (hmax : ∀ a ∈ kept, a ≤ top) (hx : x < top) : Keeps k (x :: kept.erase top) (x ::ₘ m) := by
  obtain ⟨dropped, hsum, hlen, hle⟩ := h
  have hpos := List.length_pos_of_mem htop
  have herase : (kept : Multiset α) = top ::ₘ (kept.erase top : List α) := by
    rw [Multiset.cons_coe, Multiset.coe_eq_coe]
    exact List.perm_cons_erase htop
  refine ⟨top ::ₘ dropped, ?_, ?_, ?_⟩
  · rw [← Multiset.cons_coe, Multiset.cons_add, Multiset.add_cons, ← Multiset.cons_add, ← herase,
      hsum]
  · rw [List.length_cons, List.length_erase_of_mem htop, Multiset.card_cons]
    omega
  · intro a ha b hb
    -- what is kept is at most the old maximum, and that is at most what was dropped before
    have hatop : a ≤ top := by
      rcases List.mem_cons.1 ha with rfl | ha
      · exact hx.le
      · exact hmax a (List.mem_of_mem_erase ha)
    rcases Multiset.mem_cons.1 hb with rfl | hb
    · exact hatop
    · exact hatop.trans (hle top htop b hb)

/-- Sorted, what is kept is the bottom of what was seen. -/
theorem eq_bottomK (h : Keeps k kept m) {sorted : List α} (hperm : sorted.Perm kept)
    (hsorted : sorted.Pairwise (· ≤ ·)) : sorted = bottomK k m := by
  obtain ⟨dropped, hsum, hlen, hle⟩ := h
  have hsort : m.sort (· ≤ ·) = sorted ++ dropped.sort (· ≤ ·) := by
    have hall : (m.sort (· ≤ ·)).Perm (sorted ++ dropped.sort (· ≤ ·)) := by
      rw [← Multiset.coe_eq_coe, Multiset.sort_eq, ← Multiset.coe_add, Multiset.sort_eq,
        Multiset.coe_eq_coe.2 hperm, hsum]
    have hpairs : (sorted ++ dropped.sort (· ≤ ·)).Pairwise (· ≤ ·) := by
      rw [List.pairwise_append]
      refine ⟨hsorted, Multiset.pairwise_sort .., fun a ha b hb => ?_⟩
      exact hle a (hperm.mem_iff.1 ha) b ((Multiset.mem_sort _).1 hb)
    exact hall.eq_of_pairwise (fun _ _ _ _ hab hba => le_antisymm hab hba)
      (Multiset.pairwise_sort ..) hpairs
  have hcard : kept.length + dropped.card = m.card := by
    rw [← hsum, Multiset.card_add, Multiset.coe_card]
  have hsl := hperm.length_eq
  rw [bottomK, hsort]
  by_cases hk : sorted.length = k
  · rw [← hk, List.take_left]
  · have hnone : dropped = 0 := Multiset.card_eq_zero.1 (by omega)
    rw [hnone, Multiset.sort_zero, List.append_nil, List.take_of_length_le (by omega)]

end Keeps

/-! ## The union of two sorted lists -/

/-- The elements of the union of two sorted lists; `true` marks those found in both. -/
def matchedUnion : List α → List α → List (α × Bool)
  | [], ys => ys.map fun y => (y, false)
  | x :: xs, [] => (x :: xs).map fun y => (y, false)
  | x :: xs, y :: ys =>
      if x < y then (x, false) :: matchedUnion xs (y :: ys)
      else if y < x then (y, false) :: matchedUnion (x :: xs) ys
      else (x, true) :: matchedUnion xs ys
  termination_by xs ys => xs.length + ys.length

@[simp] theorem matchedUnion_nil_left (ys : List α) :
    matchedUnion [] ys = ys.map fun y => (y, false) := by
  rw [matchedUnion]

@[simp] theorem matchedUnion_nil_right (xs : List α) :
    matchedUnion xs [] = xs.map fun y => (y, false) := by
  cases xs with
  | nil => simp
  | cons x xs => rw [matchedUnion]

theorem matchedUnion_cons_of_lt {x y : α} (h : x < y) (xs ys : List α) :
    matchedUnion (x :: xs) (y :: ys) = (x, false) :: matchedUnion xs (y :: ys) := by
  rw [matchedUnion, if_pos h]

theorem matchedUnion_cons_of_gt {x y : α} (h : y < x) (xs ys : List α) :
    matchedUnion (x :: xs) (y :: ys) = (y, false) :: matchedUnion (x :: xs) ys := by
  rw [matchedUnion, if_neg h.not_gt, if_pos h]

theorem matchedUnion_cons_self (x : α) (xs ys : List α) :
    matchedUnion (x :: xs) (x :: ys) = (x, true) :: matchedUnion xs ys := by
  rw [matchedUnion, if_neg (lt_irrefl x), if_neg (lt_irrefl x)]

theorem map_fst_unmatched {β : Type u} (xs : List β) : (xs.map fun y => (y, false)).map Prod.fst = xs := by
  rw [List.map_map]
  exact List.map_id xs

/-- Induction along two lists that are merged. -/
theorem merge_induction {motive : List α → List α → Prop} (nil_left : ∀ ys, motive [] ys)
    (nil_right : ∀ xs, motive xs [])
    (lt : ∀ x y xs ys, x < y → motive xs (y :: ys) → motive (x :: xs) (y :: ys))
    (gt : ∀ x y xs ys, y < x → motive (x :: xs) ys → motive (x :: xs) (y :: ys))
    (eq : ∀ x xs ys, motive xs ys → motive (x :: xs) (x :: ys)) (xs ys : List α) :
    motive xs ys := by
  induction xs, ys using matchedUnion.induct with
  | case1 ys => exact nil_left ys
  | case2 x xs => exact nil_right (x :: xs)
  | case3 x xs y ys h ih => exact lt x y xs ys h ih
  | case4 x xs y ys _ h ih => exact gt x y xs ys h ih
  | case5 x xs y ys h h' ih =>
      have hxy : x = y := le_antisymm (le_of_not_gt h') (le_of_not_gt h)
      subst hxy
      exact eq x xs ys ih

theorem cons_union_of_notMem {a : α} {t : Multiset α} (h : a ∉ t) (s : Multiset α) :
    (a ::ₘ s) ∪ t = a ::ₘ (s ∪ t) := by
  have hzero := Multiset.count_eq_zero.2 h
  ext b
  rw [Multiset.count_union, Multiset.count_cons, Multiset.count_cons, Multiset.count_union]
  by_cases hb : b = a
  · subst hb
    simp [hzero]
  · simp [hb]

/-- A head that is below the other list is not in it. -/
theorem notMem_of_lt_head {x y : α} {ys : List α} (h : x < y) (hys : (y :: ys).Pairwise (· ≤ ·)) :
    x ∉ ((y :: ys : List α) : Multiset α) := by
  rw [Multiset.mem_coe]
  intro hmem
  rcases List.mem_cons.1 hmem with rfl | hmem
  · exact lt_irrefl x h
  · exact absurd (List.rel_of_pairwise_cons hys hmem) h.not_ge

/-- Its elements are the union. -/
theorem coe_matchedUnion {xs ys : List α} (hxs : xs.Pairwise (· ≤ ·))
    (hys : ys.Pairwise (· ≤ ·)) :
    (((matchedUnion xs ys).map Prod.fst : List α) : Multiset α) = (xs : Multiset α) ∪ ys := by
  induction xs, ys using merge_induction with
  | nil_left ys => rw [matchedUnion_nil_left, map_fst_unmatched, Multiset.coe_nil, Multiset.zero_union]
  | nil_right xs =>
      rw [matchedUnion_nil_right, map_fst_unmatched, Multiset.coe_nil, Multiset.union_zero]
  | lt x y xs ys h ih =>
      rw [matchedUnion_cons_of_lt h, List.map_cons, ← Multiset.cons_coe, ih hxs.of_cons hys,
        ← Multiset.cons_coe x xs, cons_union_of_notMem (notMem_of_lt_head h hys)]
  | gt x y xs ys h ih =>
      rw [matchedUnion_cons_of_gt h, List.map_cons, ← Multiset.cons_coe, ih hxs hys.of_cons,
        Multiset.union_comm _ ((y :: ys : List α) : Multiset α), ← Multiset.cons_coe y ys,
        cons_union_of_notMem (notMem_of_lt_head h hxs), Multiset.union_comm (ys : Multiset α)]
  | eq x xs ys ih =>
      rw [matchedUnion_cons_self, List.map_cons, ← Multiset.cons_coe, ih hxs.of_cons hys.of_cons,
        Multiset.cons_union_distrib, Multiset.cons_coe, Multiset.cons_coe]

/-- It is sorted. -/
theorem pairwise_matchedUnion {xs ys : List α} (hxs : xs.Pairwise (· ≤ ·))
    (hys : ys.Pairwise (· ≤ ·)) : ((matchedUnion xs ys).map Prod.fst).Pairwise (· ≤ ·) := by
  have hmem : ∀ {xs ys : List α} {z : α}, xs.Pairwise (· ≤ ·) → ys.Pairwise (· ≤ ·) →
      z ∈ (matchedUnion xs ys).map Prod.fst → z ∈ xs ∨ z ∈ ys := by
    intro xs ys z hxs hys hz
    rw [← Multiset.mem_coe, coe_matchedUnion hxs hys, Multiset.mem_union] at hz
    exact hz
  induction xs, ys using merge_induction with
  | nil_left ys =>
      rw [matchedUnion_nil_left, map_fst_unmatched]
      exact hys
  | nil_right xs =>
      rw [matchedUnion_nil_right, map_fst_unmatched]
      exact hxs
  | lt x y xs ys h ih =>
      rw [matchedUnion_cons_of_lt h, List.map_cons, List.pairwise_cons]
      refine ⟨fun z hz => ?_, ih hxs.of_cons hys⟩
      rcases hmem hxs.of_cons hys hz with hz | hz
      · exact List.rel_of_pairwise_cons hxs hz
      · rcases List.mem_cons.1 hz with rfl | hz
        · exact h.le
        · exact h.le.trans (List.rel_of_pairwise_cons hys hz)
  | gt x y xs ys h ih =>
      rw [matchedUnion_cons_of_gt h, List.map_cons, List.pairwise_cons]
      refine ⟨fun z hz => ?_, ih hxs hys.of_cons⟩
      rcases hmem hxs hys.of_cons hz with hz | hz
      · rcases List.mem_cons.1 hz with rfl | hz
        · exact h.le
        · exact h.le.trans (List.rel_of_pairwise_cons hxs hz)
      · exact List.rel_of_pairwise_cons hys hz
  | eq x xs ys ih =>
      rw [matchedUnion_cons_self, List.map_cons, List.pairwise_cons]
      refine ⟨fun z hz => ?_, ih hxs.of_cons hys.of_cons⟩
      rcases hmem hxs.of_cons hys.of_cons hz with hz | hz
      · exact List.rel_of_pairwise_cons hxs hz
      · exact List.rel_of_pairwise_cons hys hz

/-- The marks among the first `n` elements count those matched on both sides. -/
theorem countP_take_matchedUnion {xs ys : List α} (hxs : xs.Pairwise (· ≤ ·))
    (hys : ys.Pairwise (· ≤ ·)) (n : Nat) :
    ((matchedUnion xs ys).take n).countP Prod.snd =
      (((((matchedUnion xs ys).map Prod.fst).take n : List α) : Multiset α) ∩
        ((xs : Multiset α) ∩ (ys : Multiset α))).card := by
  induction xs, ys using merge_induction generalizing n with
  | nil_left ys =>
      rw [Multiset.coe_nil, Multiset.zero_inter, Multiset.inter_zero, Multiset.card_zero,
        List.countP_eq_zero]
      intro p hp
      obtain ⟨y, -, rfl⟩ := List.mem_map.1 (by simpa using List.mem_of_mem_take hp)
      simp
  | nil_right xs =>
      rw [Multiset.coe_nil, Multiset.inter_zero, Multiset.inter_zero, Multiset.card_zero,
        List.countP_eq_zero]
      intro p hp
      obtain ⟨y, -, rfl⟩ := List.mem_map.1 (by simpa using List.mem_of_mem_take hp)
      simp
  | lt x y xs ys h ih =>
      cases n with
      | zero => simp
      | succ n =>
          have hx := notMem_of_lt_head h hys
          have hinter : ((x :: xs : List α) : Multiset α) ∩ (y :: ys : List α) =
              (xs : Multiset α) ∩ (y :: ys : List α) := by
            rw [← Multiset.cons_coe x xs, Multiset.cons_inter_of_neg _ hx]
          rw [matchedUnion_cons_of_lt h, List.take_succ_cons, List.map_cons, List.take_succ_cons,
            List.countP_cons_of_neg (by simp), ih hxs.of_cons hys, hinter, ← Multiset.cons_coe x,
            Multiset.cons_inter_of_neg]
          exact fun hmem => hx (Multiset.mem_inter.1 hmem).2
  | gt x y xs ys h ih =>
      cases n with
      | zero => simp
      | succ n =>
          have hy := notMem_of_lt_head h hxs
          have hinter : ((x :: xs : List α) : Multiset α) ∩ (y :: ys : List α) =
              ((x :: xs : List α) : Multiset α) ∩ ys := by
            rw [Multiset.inter_comm, ← Multiset.cons_coe y ys, Multiset.cons_inter_of_neg _ hy,
              Multiset.inter_comm]
          rw [matchedUnion_cons_of_gt h, List.take_succ_cons, List.map_cons, List.take_succ_cons,
            List.countP_cons_of_neg (by simp), ih hxs hys.of_cons, hinter, ← Multiset.cons_coe y,
            Multiset.cons_inter_of_neg]
          exact fun hmem => hy (Multiset.mem_inter.1 hmem).1
  | eq x xs ys ih =>
      cases n with
      | zero => simp
      | succ n =>
          rw [matchedUnion_cons_self, List.take_succ_cons, List.map_cons, List.take_succ_cons,
            List.countP_cons_of_pos (by simp), ih hxs.of_cons hys.of_cons, ← Multiset.cons_coe x xs,
            ← Multiset.cons_coe x ys, ← Multiset.cons_inter_distrib, ← Multiset.cons_coe x,
            ← Multiset.cons_inter_distrib, Multiset.card_cons]

/-- **The first elements of the union** need as many of each list. -/
theorem take_matchedUnion_take (n : Nat) {a b : Nat} (ha : n ≤ a) (hb : n ≤ b) (xs ys : List α) :
    (matchedUnion (xs.take a) (ys.take b)).take n = (matchedUnion xs ys).take n := by
  induction xs, ys using merge_induction generalizing n a b with
  | nil_left ys =>
      rw [List.take_nil, matchedUnion_nil_left, matchedUnion_nil_left, List.map_take,
        List.take_take, Nat.min_eq_left hb]
  | nil_right xs =>
      rw [List.take_nil, matchedUnion_nil_right, matchedUnion_nil_right, List.map_take,
        List.take_take, Nat.min_eq_left ha]
  | lt x y xs ys h ih =>
      cases n with
      | zero => simp
      | succ n =>
          obtain ⟨a, rfl⟩ : ∃ a', a = a' + 1 := ⟨a - 1, by omega⟩
          obtain ⟨b, rfl⟩ : ∃ b', b = b' + 1 := ⟨b - 1, by omega⟩
          have hrest := ih (a := a) (b := b + 1) n (by omega) (by omega)
          rw [List.take_succ_cons] at hrest
          rw [List.take_succ_cons, List.take_succ_cons, matchedUnion_cons_of_lt h,
            matchedUnion_cons_of_lt h, List.take_succ_cons, List.take_succ_cons, hrest]
  | gt x y xs ys h ih =>
      cases n with
      | zero => simp
      | succ n =>
          obtain ⟨a, rfl⟩ : ∃ a', a = a' + 1 := ⟨a - 1, by omega⟩
          obtain ⟨b, rfl⟩ : ∃ b', b = b' + 1 := ⟨b - 1, by omega⟩
          have hrest := ih (a := a + 1) (b := b) n (by omega) (by omega)
          rw [List.take_succ_cons] at hrest
          rw [List.take_succ_cons, List.take_succ_cons, matchedUnion_cons_of_gt h,
            matchedUnion_cons_of_gt h, List.take_succ_cons, List.take_succ_cons, hrest]
  | eq x xs ys ih =>
      cases n with
      | zero => simp
      | succ n =>
          obtain ⟨a, rfl⟩ : ∃ a', a = a' + 1 := ⟨a - 1, by omega⟩
          obtain ⟨b, rfl⟩ : ∃ b', b = b' + 1 := ⟨b - 1, by omega⟩
          rw [List.take_succ_cons, List.take_succ_cons, matchedUnion_cons_self,
            matchedUnion_cons_self, List.take_succ_cons, List.take_succ_cons,
            ih n (by omega) (by omega)]

/-- The union of two bottoms begins with the bottom of the union. -/
theorem take_matchedUnion_bottomK (k : Nat) (m m' : Multiset α) :
    ((matchedUnion (bottomK k m) (bottomK k m')).map Prod.fst).take k = bottomK k (m ∪ m') := by
  have hm := m.pairwise_sort (· ≤ ·)
  have hm' := m'.pairwise_sort (· ≤ ·)
  have hsort := sort_coe_of_pairwise (pairwise_matchedUnion hm hm')
  rw [coe_matchedUnion hm hm', Multiset.sort_eq, Multiset.sort_eq] at hsort
  rw [← List.map_take, bottomK, bottomK, take_matchedUnion_take k le_rfl le_rfl, List.map_take,
    ← hsort, bottomK]

/-- Its marks count the elements of the bottom of the union that are matched. -/
theorem countP_take_matchedUnion_bottomK (k : Nat) (m m' : Multiset α) :
    ((matchedUnion (bottomK k m) (bottomK k m')).take k).countP Prod.snd =
      ((bottomK k (m ∪ m') : Multiset α) ∩ (m ∩ m')).card := by
  have hm := m.pairwise_sort (· ≤ ·)
  have hm' := m'.pairwise_sort (· ≤ ·)
  have hbottom := take_matchedUnion_bottomK k m m'
  rw [← List.map_take, bottomK, bottomK, take_matchedUnion_take k le_rfl le_rfl,
    List.map_take] at hbottom
  rw [bottomK, bottomK, take_matchedUnion_take k le_rfl le_rfl, countP_take_matchedUnion hm hm',
    hbottom, Multiset.sort_eq, Multiset.sort_eq]

end Lib
