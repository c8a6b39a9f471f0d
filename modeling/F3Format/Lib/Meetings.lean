import Mathlib.Data.List.Perm.Basic
import Mathlib.Data.List.Nodup

/-!
# Who meets whom

A visit is a pair of a visitor and a place. Two visitors meet where both have been.
A log that is written visit by visit knows the meetings of each visitor: a new
visitor meets all that are at the place already, and they meet the newcomer
(`meetings_snoc_self`, `meetings_snoc_other`). This needs that nobody visits a
place twice: a second visit meets its own visitor.
-/

set_option autoImplicit false

namespace Lib

universe u v

/-- Two conditions that exclude each other select disjoint parts. -/
theorem filter_or_perm {β : Type u} {p q : β → Bool} {l : List β}
    (h : ∀ x ∈ l, ¬ (p x = true ∧ q x = true)) :
    (l.filter fun x => p x || q x).Perm (l.filter p ++ l.filter q) := by
  induction l with
  | nil => exact List.Perm.refl _
  | cons x l ih =>
      have ih' := ih fun y hy => h y (List.mem_cons_of_mem _ hy)
      have hx := h x List.mem_cons_self
      cases hp : p x with
      | true =>
          have hq : ¬ q x = true := fun hq => hx ⟨hp, hq⟩
          rw [List.filter_cons_of_pos (by rw [hp, Bool.true_or]), List.filter_cons_of_pos hp,
            List.filter_cons_of_neg hq, List.cons_append]
          exact ih'.cons x
      | false =>
          have hp' : ¬ p x = true := by
            rw [hp]
            exact Bool.false_ne_true
          rw [List.filter_cons_of_neg hp']
          cases hq : q x with
          | true =>
              rw [List.filter_cons_of_pos (by rw [hp, hq, Bool.false_or]),
                List.filter_cons_of_pos hq]
              exact (ih'.cons x).trans List.perm_middle.symm
          | false =>
              have hq' : ¬ q x = true := by
                rw [hq]
                exact Bool.false_ne_true
              rw [List.filter_cons_of_neg (by rw [hp, hq]; exact Bool.false_ne_true),
                List.filter_cons_of_neg hq']
              exact ih'

variable {α : Type u} {κ : Type v} [DecidableEq κ]

/-- The visitors of a place, in the order they came. -/
def visitors (vs : List (α × κ)) (k : κ) : List α :=
  (vs.filter fun v => decide (v.2 = k)).map Prod.fst

theorem mem_visitors {vs : List (α × κ)} {a : α} {k : κ} : a ∈ visitors vs k ↔ (a, k) ∈ vs := by
  rw [visitors, List.mem_map]
  constructor
  · rintro ⟨⟨a', k'⟩, hv, rfl⟩
    obtain ⟨hmem, hk⟩ := List.mem_filter.1 hv
    rw [decide_eq_true_iff] at hk
    subst hk
    exact hmem
  · intro h
    exact ⟨(a, k), List.mem_filter.2 ⟨h, decide_eq_true rfl⟩, rfl⟩

theorem visitors_snoc (vs : List (α × κ)) (c : α) (k l : κ) :
    visitors (vs ++ [(c, k)]) l = visitors vs l ++ if k = l then [c] else [] := by
  rw [visitors, List.filter_append, List.map_append]
  congr 1
  by_cases hk : k = l
  · simp [hk]
  · simp [hk]

variable [DecidableEq α]

/-- The visits of others to the places `a` visits. -/
def meetings (vs : List (α × κ)) (a : α) : List (α × κ) :=
  vs.filter fun v => decide (v.1 ≠ a ∧ (a, v.2) ∈ vs)

section

variable {vs : List (α × κ)} {a c : α} {k : κ}

theorem mem_meetings {v : α × κ} :
    v ∈ meetings vs a ↔ v ∈ vs ∧ v.1 ≠ a ∧ (a, v.2) ∈ vs := by
  rw [meetings, List.mem_filter, decide_eq_true_iff]

theorem nodup_meetings (h : vs.Nodup) (a : α) : (meetings vs a).Nodup := h.filter _

/-- Those at the place meet the newcomer. -/
theorem meetings_snoc_other (hne : a ≠ c) :
    meetings (vs ++ [(c, k)]) a = meetings vs a ++ if (a, k) ∈ vs then [(c, k)] else [] := by
  have hmem : ∀ l, (a, l) ∈ vs ++ [(c, k)] ↔ (a, l) ∈ vs := by
    intro l
    rw [List.mem_append, List.mem_singleton, Prod.mk.injEq]
    exact or_iff_left fun h => hne h.1
  rw [meetings, List.filter_append]
  congr 1
  · apply List.filter_congr
    intro v _
    simp only [hmem]
  · by_cases hk : (a, k) ∈ vs
    · rw [if_pos hk, List.filter_cons_of_pos]
      · rfl
      · exact decide_eq_true ⟨Ne.symm hne, (hmem k).2 hk⟩
    · rw [if_neg hk, List.filter_cons_of_neg]
      · rfl
      · rw [decide_eq_true_iff]
        exact fun h => hk ((hmem k).1 h.2)

/-- The newcomer meets those at the place. -/
theorem meetings_snoc_self (hnew : (c, k) ∉ vs) :
    (meetings (vs ++ [(c, k)]) c).Perm
      (meetings vs c ++ (visitors vs k).map fun b => (b, k)) := by
  -- whoever was at the place is another visitor
  have hother : ∀ v ∈ vs, v.2 = k → v.1 ≠ c := by
    rintro ⟨b, l⟩ hv hl hb
    exact hnew (by rwa [← hl, ← hb])
  have hhere : (visitors vs k).map (fun b => (b, k)) = vs.filter fun v => decide (v.2 = k) := by
    rw [visitors, List.map_map]
    conv => rhs; rw [← List.map_id (vs.filter _)]
    refine List.map_congr_left fun v hv => ?_
    have hk := (List.mem_filter.1 hv).2
    rw [decide_eq_true_iff] at hk
    exact Prod.ext rfl hk.symm
  have hsplit : meetings (vs ++ [(c, k)]) c =
      vs.filter fun v => decide (v.1 ≠ c ∧ (c, v.2) ∈ vs) || decide (v.2 = k) := by
    rw [meetings, List.filter_append, List.filter_cons_of_neg, List.filter_nil, List.append_nil]
    · apply List.filter_congr
      intro v hv
      rw [← Bool.decide_or, decide_eq_decide, List.mem_append, List.mem_singleton, Prod.mk.injEq]
      constructor
      · rintro ⟨hne, hmem | ⟨-, hk⟩⟩
        · exact .inl ⟨hne, hmem⟩
        · exact .inr hk
      · rintro (⟨hne, hmem⟩ | hk)
        · exact ⟨hne, .inl hmem⟩
        · exact ⟨hother v hv hk, .inr ⟨rfl, hk⟩⟩
    · rw [decide_eq_true_iff]
      exact fun h => h.1 rfl
  rw [hsplit, hhere, meetings]
  refine List.Perm.symm ?_
  -- the two conditions exclude each other, as the newcomer was not at the place
  refine (filter_or_perm fun v _ h => ?_).symm
  simp only [decide_eq_true_iff] at h
  obtain ⟨⟨-, hmem⟩, hk⟩ := h
  rw [hk] at hmem
  exact hnew hmem

end

end Lib
