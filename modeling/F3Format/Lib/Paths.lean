import Mathlib

/-!
# Paths of labelled transition systems

A path records the labels of its steps. An invariant may speak of the labels
passed so far (`Path.history`), which is the rule for a refinement: the abstract
state is the fold of the labels (`Path.refines`).
-/

set_option autoImplicit false

namespace Lib

variable {σ ι τ : Type}

/-- A finite path from one state to another, with its labels. -/
inductive Path (step : σ → ι → σ → Prop) : σ → List ι → σ → Prop where
  | nil (s : σ) : Path step s [] s
  | cons {s t u : σ} {l : ι} {ls : List ι} (h : step s l t) (rest : Path step t ls u) :
      Path step s (l :: ls) u

namespace Path

variable {step : σ → ι → σ → Prop} {s t u : σ} {l : ι} {ls ms : List ι}

theorem single (h : step s l t) : Path step s [l] t := .cons h (.nil t)

theorem append (h : Path step s ls t) (h' : Path step t ms u) : Path step s (ls ++ ms) u := by
  induction h with
  | nil => exact h'
  | cons hstep rest ih => exact .cons hstep (ih h')

theorem snoc (h : Path step s ls t) (h' : step t l u) : Path step s (ls ++ [l]) u :=
  h.append (.single h')

/-- A path of steps without their labels. -/
theorem reflTransGen {r : σ → σ → Prop} (hr : ∀ s l t, step s l t → r s t)
    (h : Path step s ls t) : Relation.ReflTransGen r s t := by
  induction h with
  | nil => exact .refl
  | cons hstep rest ih => exact .head (hr _ _ _ hstep) ih

/-- **The history rule.** An invariant may speak of the labels passed so far. -/
theorem history {I : List ι → σ → Prop}
    (hstep : ∀ done s l t, I done s → step s l t → I (done ++ [l]) t) (h : Path step s ls t)
    {done : List ι} (hs : I done s) : I (done ++ ls) t := by
  induction h generalizing done with
  | nil => simpa using hs
  | cons hfirst rest ih =>
      have hnext := ih (hstep done _ _ _ hs hfirst)
      rwa [List.append_assoc] at hnext

/-- A condition that holds before a step if it holds after it. -/
theorem backward {P : σ → Prop} (hback : ∀ s l t, step s l t → P t → P s)
    (h : Path step s ls t) (ht : P t) : P s := by
  induction h with
  | nil => exact ht
  | cons hfirst rest ih => exact hback _ _ _ hfirst (ih ht)

/-- **The refinement rule.** Each step refines what its label does to an abstract
state, as long as `P` holds. Then a path whose labels are possible in the abstract
system refines what they do there, if `P` holds at its end. -/
theorem refines {P : σ → Prop} {R : σ → τ → Prop} {after : τ → ι → Option τ}
    (hback : ∀ s l t, step s l t → P t → P s)
    (hstep : ∀ {s l t a b}, R s a → step s l t → P t → after a l = some b → R t b)
    (h : Path step s ls t) (ht : P t) {a b : τ} (hs : R s a)
    (hall : ls.foldlM after a = some b) : R t b := by
  induction h generalizing a with
  | nil =>
      cases hall
      exact hs
  | cons hfirst rest ih =>
      rw [List.foldlM_cons, Option.bind_eq_bind, Option.bind_eq_some_iff] at hall
      obtain ⟨c, hc, hrest⟩ := hall
      exact ih ht (hstep hs hfirst (rest.backward hback ht) hc) hrest

end Path

end Lib
