import F3Format.Lib.Act

/-!
# The two exits of a computation

`Exits x s Q E` is a triple for `Act`: from the state `s` the computation `x` ends
with a value and a state of which `Q` holds, or fails with an error and a state of
which `E` holds.
-/

set_option autoImplicit false

namespace Lib

namespace Act

variable {ε σ α β : Type}

def Exits (x : Act ε σ α) (s : σ) (Q : α → σ → Prop) (E : ε → σ → Prop) : Prop :=
  match x s with
  | .ok a t => Q a t
  | .error e t => E e t

section Rules

variable {x : Act ε σ α} {s : σ} {Q Q' : α → σ → Prop} {R : β → σ → Prop} {E E' : ε → σ → Prop}

theorem exits_pure {a : α} (h : Q a s) : Exits (pure a : Act ε σ α) s Q E := h

theorem exits_throw {e : ε} (h : E e s) : Exits (throw e : Act ε σ α) s Q E := h

theorem exits_lift {r : Except ε α} (hok : ∀ a, r = .ok a → Q a s)
    (herror : ∀ e, r = .error e → E e s) : Exits (lift r : Act ε σ α) s Q E := by
  cases r with
  | ok a => exact hok a rfl
  | error e => exact herror e rfl

/-- What follows starts from a state of the first exit. -/
theorem exits_bind {f : α → Act ε σ β} (hx : Exits x s Q E)
    (hf : ∀ a t, Q a t → Exits (f a) t R E) : Exits (x >>= f) s R E := by
  rw [Exits] at hx
  cases h : x s with
  | ok a t =>
      rw [h] at hx
      rw [Exits, bind_of_ok f h]
      exact hf a t hx
  | error e t =>
      rw [h] at hx
      rw [Exits, bind_of_error f h]
      exact hx

theorem exits_if {p : Prop} [Decidable p] {y : Act ε σ α} (hx : p → Exits x s Q E)
    (hy : ¬ p → Exits y s Q E) : Exits (if p then x else y) s Q E := by
  split
  · next h => exact hx h
  · next h => exact hy h

theorem Exits.mono (h : Exits x s Q E) (hQ : ∀ a t, Q a t → Q' a t)
    (hE : ∀ e t, E e t → E' e t) : Exits x s Q' E' := by
  rw [Exits] at h ⊢
  cases hx : x s with
  | ok a t =>
      rw [hx] at h
      exact hQ a t h
  | error e t =>
      rw [hx] at h
      exact hE e t h

theorem Exits.of_ok (h : Exits x s Q E) {a : α} {t : σ} (hx : x s = .ok a t) : Q a t := by
  rw [Exits, hx] at h
  exact h

theorem Exits.of_error (h : Exits x s Q E) {e : ε} {t : σ} (hx : x s = .error e t) : E e t := by
  rw [Exits, hx] at h
  exact h

/-- A computation that cannot fail. -/
theorem Exits.returns (h : Exits x s Q fun _ _ => False) : ∃ a t, x s = .ok a t ∧ Q a t := by
  cases hx : x s with
  | ok a t => exact ⟨a, t, rfl, h.of_ok hx⟩
  | error e t => exact (h.of_error hx).elim

end Rules

end Act

end Lib
