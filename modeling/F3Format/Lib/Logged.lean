import Mathlib

/-!
# Computations with a log

A fallible computation that also returns a log of what it did. `erase` forgets
the log, and is a morphism, so that a logged version of a function can be
compared with the function step by step; `Logs` is what holds of every entry of
a successful run.
-/

set_option autoImplicit false

namespace Lib

/-- A computation that fails with `ε`, or returns a value and the entries it logged. -/
def Logged (ε ι α : Type) : Type := Except ε (α × List ι)

namespace Logged

variable {ε ι α β : Type}

/-- A value, without entries. -/
def ret (a : α) : Logged ε ι α := .ok (a, [])

/-- One computation after another; the entries of a failed run are lost. -/
def andThen (x : Logged ε ι α) (f : α → Logged ε ι β) : Logged ε ι β :=
  match x with
  | .error e => .error e
  | .ok (a, l) =>
      match f a with
      | .error e => .error e
      | .ok (b, l') => .ok (b, l ++ l')

instance : Monad (Logged ε ι) where
  pure := ret
  bind := andThen

/-- A computation that logs nothing. -/
def lift : Except ε α → Logged ε ι α
  | .ok a => ret a
  | .error e => .error e

/-- Logs one entry. -/
def record (i : ι) : Logged ε ι Unit := .ok ((), [i])

/-- The computation without its log. -/
def erase : Logged ε ι α → Except ε α
  | .ok (a, _) => .ok a
  | .error e => .error e

/-- The computation returns `a` and logs `l`. -/
def Returns (x : Logged ε ι α) (a : α) (l : List ι) : Prop := x = .ok (a, l)

/-- Collects the results of a list of computations, up to the first failure. -/
def collect (f : α → Logged ε ι β) : List α → Logged ε ι (List β)
  | [] => pure []
  | x :: xs => do
      let y ← f x
      let ys ← collect f xs
      pure (y :: ys)

/-! ## Inversion -/

theorem returns_pure {a b : α} {l : List ι} :
    Returns (pure a : Logged ε ι α) b l ↔ a = b ∧ l = [] := by
  constructor
  · intro h
    cases h
    exact ⟨rfl, rfl⟩
  · rintro ⟨rfl, rfl⟩
    rfl

theorem returns_lift {r : Except ε α} {a : α} {l : List ι} :
    Returns (lift r : Logged ε ι α) a l ↔ r = .ok a ∧ l = [] := by
  cases r with
  | ok b =>
      constructor
      · intro h
        cases h
        exact ⟨rfl, rfl⟩
      · rintro ⟨h, rfl⟩
        cases h
        rfl
  | error e =>
      constructor
      · intro h
        cases h
      · rintro ⟨h, -⟩
        cases h

theorem returns_record {i : ι} {u : Unit} {l : List ι} :
    Returns (record i : Logged ε ι Unit) u l ↔ l = [i] := by
  constructor
  · intro h
    cases h
    rfl
  · rintro rfl
    rfl

/-- A sequence returns exactly when both parts do, and logs what both log. -/
theorem returns_bind {x : Logged ε ι α} {f : α → Logged ε ι β} {b : β} {l : List ι} :
    Returns (x >>= f) b l ↔
      ∃ a l₁ l₂, Returns x a l₁ ∧ Returns (f a) b l₂ ∧ l = l₁ ++ l₂ := by
  show andThen x f = .ok (b, l) ↔ _
  cases x with
  | error e =>
      constructor
      · intro h
        cases h
      · rintro ⟨a, l₁, l₂, h, -, -⟩
        cases h
  | ok p =>
      obtain ⟨a, l₁⟩ := p
      cases hf : f a with
      | error e =>
          simp only [andThen, hf]
          constructor
          · intro h
            cases h
          · rintro ⟨a', l₁', l₂, h, h', -⟩
            cases h
            rw [Returns, hf] at h'
            cases h'
      | ok q =>
          obtain ⟨b', l₂⟩ := q
          simp only [andThen, hf]
          constructor
          · intro h
            cases h
            exact ⟨a, l₁, l₂, rfl, hf, rfl⟩
          · rintro ⟨a', l₁', l₂', h, h', rfl⟩
            cases h
            rw [Returns, hf] at h'
            cases h'
            rfl

@[simp] theorem erase_pure (a : α) : erase (pure a : Logged ε ι α) = .ok a := rfl

@[simp] theorem erase_lift (r : Except ε α) : erase (lift r : Logged ε ι α) = r := by
  cases r with
  | ok a => rfl
  | error e => rfl

@[simp] theorem erase_record (i : ι) : erase (record i : Logged ε ι Unit) = .ok () := rfl

@[simp] theorem erase_bind (x : Logged ε ι α) (f : α → Logged ε ι β) :
    erase (x >>= f) = (erase x >>= fun a => erase (f a)) := by
  show erase (andThen x f) = _
  cases x with
  | error e => rfl
  | ok p =>
      obtain ⟨a, l⟩ := p
      simp only [andThen, erase]
      show _ = erase (f a)
      cases f a with
      | error e => rfl
      | ok q => rfl

/-- What a computation returns with its log, it returns without it. -/
theorem Returns.erase_eq {x : Logged ε ι α} {a : α} {l : List ι} (h : Returns x a l) :
    erase x = .ok a := by
  rw [Returns] at h
  rw [h]
  rfl

/-- Every entry of a successful run satisfies `P`. -/
def Logs (P : ι → Prop) (x : Logged ε ι α) : Prop := ∀ a l, Returns x a l → ∀ i ∈ l, P i

variable {P : ι → Prop}

theorem logs_pure (a : α) : Logs P (pure a : Logged ε ι α) := by
  intro b l h
  obtain ⟨-, rfl⟩ := returns_pure.1 h
  intro i hi
  cases hi

theorem logs_lift (r : Except ε α) : Logs P (lift r : Logged ε ι α) := by
  intro a l h
  obtain ⟨-, rfl⟩ := returns_lift.1 h
  intro i hi
  cases hi

theorem logs_record {i : ι} (h : P i) : Logs P (record i : Logged ε ι Unit) := by
  intro u l hr
  rw [returns_record.1 hr]
  intro j hj
  rw [List.mem_singleton.1 hj]
  exact h

/-- The second part may use what the first one returned. -/
theorem logs_bind {x : Logged ε ι α} {f : α → Logged ε ι β} (hx : Logs P x)
    (hf : ∀ a, erase x = .ok a → Logs P (f a)) : Logs P (x >>= f) := by
  intro b l h
  obtain ⟨a, l₁, l₂, h₁, h₂, rfl⟩ := returns_bind.1 h
  intro i hi
  rcases List.mem_append.1 hi with hi | hi
  · exact hx a l₁ h₁ i hi
  · exact hf a h₁.erase_eq b l₂ h₂ i hi

theorem logs_collect {f : α → Logged ε ι β} {xs : List α} (hf : ∀ x ∈ xs, Logs P (f x)) :
    Logs P (collect f xs) := by
  induction xs with
  | nil => exact logs_pure _
  | cons x xs ih =>
      refine logs_bind (hf x (List.mem_cons_self ..)) fun y _ => ?_
      refine logs_bind (ih fun z hz => hf z (List.mem_cons_of_mem _ hz)) fun ys _ => ?_
      exact logs_pure _

end Logged

end Lib
