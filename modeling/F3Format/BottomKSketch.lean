import F3Format.Errors
import F3Format.Lib.BottomK

/-!
# The bottom-K sketch

`dict/bottom_k_sketch.rs`: for each of the random hash functions a bounded heap
keeps the K smallest hash values of a dictionary, and a truncated merge of two
such arrays estimates the Jaccard similarity. K and the coefficients are
parameters. The main result is `jaccardCounts_eq`: the merge counts the union's
bottom K, although both arrays are truncated.
-/

set_option autoImplicit false

namespace F3Format

open Lib

/-- `u64`; its sum and its product wrap. -/
abbrev U64 := Fin (2 ^ 64)

/-! ## Heaps -/

/-- `BinaryHeap<u64>`, its elements in any order. -/
abbrev BinaryHeap := List U64

namespace BinaryHeap

/-- `peek`: the maximum. -/
def peek (h : BinaryHeap) : Option U64 := h.max?

/-- `pop`, without the maximum that it returns. -/
def pop (h : BinaryHeap) : BinaryHeap :=
  match h.max? with
  | some top => h.erase top
  | none => h

/-- `push`. -/
def push (h : BinaryHeap) (x : U64) : BinaryHeap := x :: h

end BinaryHeap

/-! ## The sketch -/

/-- `BottomKSketch`. -/
structure BottomKSketch where
  bottomK : List BinaryHeap
  bottomKArr : List (List U64)

/-- The two counts of `estimate_jaccard` for one hash function. -/
structure JaccardCounts where
  collected : Nat
  common : Nat
  deriving DecidableEq

namespace BottomKSketch

/-- `new`, for `m` hash functions. -/
def new (m : Nat) : BottomKSketch := ⟨List.replicate m [], []⟩

/-- `a.wrapping_mul(val).wrapping_add(*b)`. -/
def hashVal (c : U64 × U64) (val : U64) : U64 := c.1 * val + c.2

/-- The body of the loop of `add_hash` on one heap. -/
def addHashVal (k : Nat) (heap : BinaryHeap) (hashVal : U64) : Result BinaryHeap :=
  if heap.length < k then .ok (heap.push hashVal)
  else do
    let top ← unwrapSome heap.peek
    if hashVal < top then pure (heap.pop.push hashVal) else pure heap

/-- The loop of `add_hash`: the `i`-th coefficients feed the `i`-th heap. -/
def addHashLoop (k : Nat) (val : U64) :
    List (U64 × U64) → List BinaryHeap → Result (List BinaryHeap)
  | [], heaps => pure heaps
  | _ :: _, [] => panicking "index out of bounds"
  | c :: coeffs, heap :: heaps => do
      let heap ← addHashVal k heap (hashVal c val)
      let heaps ← addHashLoop k val coeffs heaps
      pure (heap :: heaps)

/-- `add_hash`. -/
def addHash (k : Nat) (coeffs : List (U64 × U64)) (s : BottomKSketch) (val : U64) :
    Result BottomKSketch := do
  let heaps ← addHashLoop k val coeffs s.bottomK
  pure { s with bottomK := heaps }

/-- `finish`: the heaps are drained into sorted arrays. -/
def finish (s : BottomKSketch) : BottomKSketch where
  bottomK := s.bottomK.map fun _ => []
  bottomKArr := s.bottomK.map fun heap => heap.insertionSort (· ≤ ·)

/-- The sketch of a sequence of values. -/
def ofValues (k : Nat) (coeffs : List (U64 × U64)) (vals : List U64) : Result BottomKSketch := do
  let s ← vals.foldlM (addHash k coeffs) (new coeffs.length)
  pure s.finish

/-- The loop of `estimate_jaccard` over one pair of arrays, with `turns` of its `k` turns left. -/
def countLoop (k : Nat) (self other : List U64) :
    Nat → (collected common selfPos otherPos : Nat) → Result JaccardCounts
  | 0, collected, common, _, _ => pure ⟨collected, common⟩
  | turns + 1, collected, common, selfPos, otherPos =>
      if selfPos = self.length then
        pure ⟨min k (collected + other.length - otherPos), common⟩
      else if otherPos = other.length then
        pure ⟨min k (collected + self.length - selfPos), common⟩
      else do
        let selfVal ← index self selfPos
        let otherVal ← index other otherPos
        match compare selfVal otherVal with
        | .lt => countLoop k self other turns (collected + 1) common (selfPos + 1) otherPos
        | .eq =>
            countLoop k self other turns (collected + 1) (common + 1) (selfPos + 1) (otherPos + 1)
        | .gt => countLoop k self other turns (collected + 1) common selfPos (otherPos + 1)

/-- The counts of `estimate_jaccard` at the `i`-th hash function. -/
def jaccardCounts (k : Nat) (self other : BottomKSketch) (i : Nat) : Result JaccardCounts := do
  let selfArr ← index self.bottomKArr i
  let otherArr ← index other.bottomKArr i
  countLoop k selfArr otherArr k 0 0 0 0

/-- `estimate_jaccard`, over `m` hash functions. -/
def estimateJaccard (k m : Nat) (self other : BottomKSketch) : Result Float := do
  let counts ← collect (jaccardCounts k self other) (List.range m)
  let jaccard := counts.foldl
    (fun sum c => sum + Float.ofNat c.common / Float.ofNat c.collected) 0
  pure (jaccard / Float.ofNat m)

/-! ## The heaps keep the smallest values -/

section Heaps

variable {k : Nat}

/-- One value: the heap keeps the bottom of one value more. -/
theorem addHashVal_keeps (hk : 0 < k) {heap : BinaryHeap} {m : Multiset U64}
    (h : Keeps k heap m) (x : U64) :
    ∃ heap', addHashVal k heap x = .ok heap' ∧ Keeps k heap' (x ::ₘ m) := by
  by_cases hroom : heap.length < k
  · exact ⟨x :: heap, if_pos hroom, h.push hroom x⟩
  · rw [addHashVal, if_neg hroom]
    cases htop : heap.max? with
    | none =>
        rw [List.max?_eq_none_iff.1 htop] at hroom
        exact absurd hk hroom
    | some top =>
        obtain ⟨hmem, hmax⟩ := List.max?_eq_some_iff.1 htop
        have hpeek : unwrapSome heap.peek = .ok top := (unwrapSome_eq_ok ..).2 htop
        have hpop : heap.pop = heap.erase top := by
          rw [BinaryHeap.pop, htop]
        rw [hpeek, ok_bind]
        by_cases hx : x < top
        · refine ⟨x :: heap.erase top, ?_, h.replace hroom hmem hmax hx⟩
          rw [if_pos hx, hpop]
          rfl
        · refine ⟨heap, if_neg hx, h.drop hroom fun a ha => ?_⟩
          exact (hmax a ha).trans (not_lt.1 hx)

/-- The hash values of a sequence under one pair of coefficients. -/
def hashVals (c : U64 × U64) (vals : List U64) : Multiset U64 :=
  (vals.map (hashVal c) : List U64)

/-- Every heap keeps the bottom of its hash values. -/
def Holds (k : Nat) (coeffs : List (U64 × U64)) (vals : List U64) (heaps : List BinaryHeap) :
    Prop :=
  List.Forall₂ (fun c heap => Keeps k heap (hashVals c vals)) coeffs heaps

theorem hashVals_snoc (c : U64 × U64) (vals : List U64) (val : U64) :
    hashVals c (vals ++ [val]) = hashVal c val ::ₘ hashVals c vals := by
  rw [hashVals, hashVals, List.map_append, Multiset.cons_coe, Multiset.coe_eq_coe]
  exact List.perm_append_singleton ..

theorem addHashLoop_holds (hk : 0 < k) (vals : List U64) (val : U64) {coeffs : List (U64 × U64)}
    {heaps : List BinaryHeap} (h : Holds k coeffs vals heaps) :
    ∃ heaps', addHashLoop k val coeffs heaps = .ok heaps' ∧
      Holds k coeffs (vals ++ [val]) heaps' := by
  induction h with
  | nil => exact ⟨[], rfl, .nil⟩
  | @cons c heap coeffs heaps hc _ ih =>
      obtain ⟨heap', hone, hkeeps⟩ := addHashVal_keeps hk hc (hashVal c val)
      obtain ⟨heaps', hrest, hholds⟩ := ih
      refine ⟨heap' :: heaps', ?_, .cons ?_ hholds⟩
      · rw [addHashLoop, hone, ok_bind, hrest]
        rfl
      · rw [hashVals_snoc]
        exact hkeeps

/-- Over a whole sequence. -/
theorem addHashes_holds (hk : 0 < k) (coeffs : List (U64 × U64)) (seen vals : List U64)
    {s : BottomKSketch} (h : Holds k coeffs seen s.bottomK) :
    ∃ s', vals.foldlM (addHash k coeffs) s = .ok s' ∧ Holds k coeffs (seen ++ vals) s'.bottomK := by
  induction vals generalizing seen s with
  | nil =>
      refine ⟨s, rfl, ?_⟩
      rw [List.append_nil]
      exact h
  | cons val vals ih =>
      obtain ⟨heaps, hloop, hholds⟩ := addHashLoop_holds hk seen val h
      obtain ⟨s', hrun, hend⟩ := ih (seen ++ [val]) (s := { s with bottomK := heaps }) hholds
      refine ⟨s', ?_, ?_⟩
      · rw [List.foldlM_cons, addHash, hloop]
        exact hrun
      · rw [List.append_assoc] at hend
        exact hend

theorem holds_new (k : Nat) (coeffs : List (U64 × U64)) :
    Holds k coeffs [] (new coeffs.length).bottomK := by
  show List.Forall₂ _ coeffs (List.replicate coeffs.length [])
  induction coeffs with
  | nil => exact .nil
  | cons c coeffs ih => exact .cons (Keeps.nil k) ih

theorem Holds.map_sort {coeffs : List (U64 × U64)} {vals : List U64} {heaps : List BinaryHeap}
    (h : Holds k coeffs vals heaps) :
    heaps.map (fun heap => heap.insertionSort (· ≤ ·)) =
      coeffs.map fun c => Lib.bottomK k (hashVals c vals) := by
  induction h with
  | nil => rfl
  | cons hc _ ih =>
      rw [List.map_cons, List.map_cons, ih,
        hc.eq_bottomK (List.perm_insertionSort ..) (List.pairwise_insertionSort ..)]

/-- **The arrays of a sketch** hold the bottom K of the hash values. -/
theorem ofValues_spec (hk : 0 < k) (coeffs : List (U64 × U64)) (vals : List U64) :
    ∃ s, ofValues k coeffs vals = .ok s ∧
      s.bottomKArr = coeffs.map fun c => Lib.bottomK k (hashVals c vals) := by
  obtain ⟨s, hrun, hholds⟩ := addHashes_holds hk coeffs [] vals (holds_new k coeffs)
  rw [List.nil_append] at hholds
  exact ⟨s.finish, by rw [ofValues, hrun]; rfl, hholds.map_sort⟩

end Heaps

/-! ## The merge counts the union -/

section Counts

variable {k : Nat} {self other : List U64}

/-- The loop from the positions on: what is left of the union is collected up to `k`,
and what is left of its marks is common. -/
theorem countLoop_eq (turns : Nat) {collected common selfPos otherPos : Nat}
    (hturns : collected + turns = k) (hself : selfPos ≤ self.length)
    (hother : otherPos ≤ other.length) :
    countLoop k self other turns collected common selfPos otherPos =
      .ok ⟨min k (collected + (matchedUnion (self.drop selfPos) (other.drop otherPos)).length),
        common + ((matchedUnion (self.drop selfPos) (other.drop otherPos)).take turns).countP
          Prod.snd⟩ := by
  have hunmatched : ∀ (xs : List U64) (n : Nat),
      ((xs.map fun x => (x, false)).take n).countP Prod.snd = 0 := by
    intro xs n
    rw [List.countP_eq_zero]
    intro p hp
    obtain ⟨x, -, rfl⟩ := List.mem_map.1 (List.mem_of_mem_take hp)
    simp
  induction turns generalizing collected common selfPos otherPos with
  | zero =>
      have hmin : min k (collected +
          (matchedUnion (self.drop selfPos) (other.drop otherPos)).length) = collected := by omega
      rw [countLoop, hmin]
      rfl
  | succ turns ih =>
      rw [countLoop]
      by_cases hs : selfPos = self.length
      · -- the rest of the other array is collected at once
        have hdrop : self.drop selfPos = [] := List.drop_eq_nil_of_le (by omega)
        rw [if_pos hs, hdrop, matchedUnion_nil_left, hunmatched, List.length_map, List.length_drop,
          Nat.add_sub_assoc hother]
        rfl
      by_cases ho : otherPos = other.length
      · have hdrop : other.drop otherPos = [] := List.drop_eq_nil_of_le (by omega)
        rw [if_neg hs, if_pos ho, hdrop, matchedUnion_nil_right, hunmatched, List.length_map,
          List.length_drop, Nat.add_sub_assoc hself]
        rfl
      have hslt : selfPos < self.length := by omega
      have holt : otherPos < other.length := by omega
      have hx : index self selfPos = .ok self[selfPos] :=
        (index_eq_ok ..).2 (List.getElem?_eq_getElem hslt)
      have hy : index other otherPos = .ok other[otherPos] :=
        (index_eq_ok ..).2 (List.getElem?_eq_getElem holt)
      rw [if_neg hs, if_neg ho, hx, ok_bind, hy, ok_bind, List.drop_eq_getElem_cons hslt,
        List.drop_eq_getElem_cons holt]
      rcases lt_trichotomy self[selfPos] other[otherPos] with hlt | heq | hgt
      · rw [compare_lt_iff_lt.2 hlt, matchedUnion_cons_of_lt hlt]
        dsimp only
        rw [ih (by omega) (by omega) hother, ← List.drop_eq_getElem_cons holt, List.length_cons,
          List.take_succ_cons, List.countP_cons_of_neg (by simp)]
        congr 3
        omega
      · rw [compare_eq_iff_eq.2 heq, ← heq, matchedUnion_cons_self]
        dsimp only
        rw [ih (by omega) (by omega) (by omega), List.length_cons, List.take_succ_cons,
          List.countP_cons_of_pos (by simp)]
        congr 2
        · omega
        · omega
      · rw [compare_gt_iff_gt.2 hgt, matchedUnion_cons_of_gt hgt]
        dsimp only
        rw [ih (by omega) hself (by omega), ← List.drop_eq_getElem_cons hslt, List.length_cons,
          List.take_succ_cons, List.countP_cons_of_neg (by simp)]
        congr 3
        omega

/-- The counts of the union of two multisets of hash values. -/
def unionCounts (k : Nat) (m m' : Multiset U64) : JaccardCounts where
  collected := min k (m ∪ m').card
  common := ((Lib.bottomK k (m ∪ m') : Multiset U64) ∩ (m ∩ m')).card

theorem unionCounts_comm (m m' : Multiset U64) : unionCounts k m m' = unionCounts k m' m := by
  rw [unionCounts, unionCounts, Multiset.union_comm, Multiset.inter_comm m m']

theorem unionCounts_common_le (m m' : Multiset U64) :
    (unionCounts k m m').common ≤ (unionCounts k m m').collected := by
  refine (Multiset.card_le_card Multiset.inter_le_left).trans ?_
  rw [Multiset.coe_card, length_bottomK]
  exact le_rfl

theorem unionCounts_collected_pos (hk : 0 < k) {m m' : Multiset U64} (h : m ≠ 0 ∨ m' ≠ 0) :
    0 < (unionCounts k m m').collected := by
  have hcard : 0 < (m ∪ m').card := by
    rcases h with h | h
    · exact (Multiset.card_pos.2 h).trans_le (Multiset.card_le_card Multiset.le_union_left)
    · exact (Multiset.card_pos.2 h).trans_le (Multiset.card_le_card Multiset.le_union_right)
  exact lt_min hk hcard

/-- The loop over two bottoms counts the union. -/
theorem countLoop_bottomK (m m' : Multiset U64) :
    countLoop k (Lib.bottomK k m) (Lib.bottomK k m') k 0 0 0 0 = .ok (unionCounts k m m') := by
  have htake := take_matchedUnion_bottomK k m m'
  have hcount := countP_take_matchedUnion_bottomK k m m'
  have hlen := congrArg List.length htake
  rw [List.length_take, List.length_map, length_bottomK] at hlen
  rw [countLoop_eq k (Nat.zero_add k) (Nat.zero_le _) (Nat.zero_le _), List.drop_zero,
    List.drop_zero, Nat.zero_add, Nat.zero_add, hcount, hlen]
  rfl

/-- **The sketch measures the union's bottom K.** -/
theorem jaccardCounts_eq (hk : 0 < k) (coeffs : List (U64 × U64)) {xs ys : List U64}
    (hne : xs ≠ [] ∨ ys ≠ []) :
    ∃ s t, ofValues k coeffs xs = .ok s ∧ ofValues k coeffs ys = .ok t ∧
      ∀ (i : Nat) (c : U64 × U64), coeffs[i]? = some c →
        s.bottomKArr[i]? = some (Lib.bottomK k (hashVals c xs)) ∧
        t.bottomKArr[i]? = some (Lib.bottomK k (hashVals c ys)) ∧
        ∃ counts, jaccardCounts k s t i = .ok counts ∧ jaccardCounts k t s i = .ok counts ∧
          counts.collected = min k (hashVals c xs ∪ hashVals c ys).card ∧
          counts.common = ((Lib.bottomK k (hashVals c xs ∪ hashVals c ys) : Multiset U64) ∩
            (hashVals c xs ∩ hashVals c ys)).card ∧
          0 < counts.collected ∧ counts.common ≤ counts.collected := by
  obtain ⟨s, hs, hsarr⟩ := ofValues_spec hk coeffs xs
  obtain ⟨t, ht, htarr⟩ := ofValues_spec hk coeffs ys
  refine ⟨s, t, hs, ht, fun i c hc => ?_⟩
  have hsi : s.bottomKArr[i]? = some (Lib.bottomK k (hashVals c xs)) := by
    rw [hsarr, List.getElem?_map, hc]
    rfl
  have hti : t.bottomKArr[i]? = some (Lib.bottomK k (hashVals c ys)) := by
    rw [htarr, List.getElem?_map, hc]
    rfl
  have hsome : hashVals c xs ≠ 0 ∨ hashVals c ys ≠ 0 := by
    rcases hne with hne | hne
    · exact .inl fun h => hne (List.map_eq_nil_iff.1 ((Multiset.coe_eq_zero _).1 h))
    · exact .inr fun h => hne (List.map_eq_nil_iff.1 ((Multiset.coe_eq_zero _).1 h))
  refine ⟨hsi, hti, unionCounts k (hashVals c xs) (hashVals c ys), ?_, ?_, rfl, rfl,
    unionCounts_collected_pos hk hsome, unionCounts_common_le ..⟩
  · rw [jaccardCounts, (index_eq_ok ..).2 hsi, ok_bind, (index_eq_ok ..).2 hti, ok_bind]
    exact countLoop_bottomK ..
  · rw [jaccardCounts, (index_eq_ok ..).2 hsi, (index_eq_ok ..).2 hti, ok_bind, ok_bind,
      unionCounts_comm]
    exact countLoop_bottomK ..

/-- Two sequences that share a value, under the coefficients `3 * val + 1`. -/
theorem jaccardCounts_sample :
    ∃ s t, ofValues 2 [(3, 1)] [5, 2, 9] = .ok s ∧ ofValues 2 [(3, 1)] [2] = .ok t ∧
      ∀ (i : Nat) (c : U64 × U64), [((3 : U64), (1 : U64))][i]? = some c →
        s.bottomKArr[i]? = some (Lib.bottomK 2 (hashVals c [5, 2, 9])) ∧
        t.bottomKArr[i]? = some (Lib.bottomK 2 (hashVals c [2])) ∧
        ∃ counts, jaccardCounts 2 s t i = .ok counts ∧ jaccardCounts 2 t s i = .ok counts ∧
          counts.collected = min 2 (hashVals c [5, 2, 9] ∪ hashVals c [2]).card ∧
          counts.common = ((Lib.bottomK 2 (hashVals c [5, 2, 9] ∪ hashVals c [2]) : Multiset U64) ∩
            (hashVals c [5, 2, 9] ∩ hashVals c [2])).card ∧
          0 < counts.collected ∧ counts.common ≤ counts.collected :=
  jaccardCounts_eq (by decide) [(3, 1)] (.inl (by decide))

end Counts

end BottomKSketch

end F3Format
