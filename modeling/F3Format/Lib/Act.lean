import Mathlib

/-!
# Computations that keep their state on failure

`EStateM ε σ` is the monad of a method that mutates its receiver and may
return early: the state reached is kept on both exits. The rules below invert
successful runs and lift what one step preserves to a loop.
-/

set_option autoImplicit false

namespace Lib

universe u

variable {ε σ α β : Type}

/-- A stateful computation that may fail with `ε`, keeping the state it reached. -/
abbrev Act (ε σ α : Type) := EStateM ε σ α

namespace Act

/-- The computation `x` ends successfully in state `t` with value `a`. -/
def Returns (x : Act ε σ α) (s : σ) (a : α) (t : σ) : Prop := x s = .ok a t

/-- The computation `x` fails in state `t` with error `e`. -/
def Fails (x : Act ε σ α) (s : σ) (e : ε) (t : σ) : Prop := x s = .error e t

/-- Runs a result-producing pure computation without touching the state. -/
def lift : Except ε α → Act ε σ α
  | .ok a => pure a
  | .error e => throw e

/-- What a call returned. -/
def outcome : EStateM.Result ε σ α → Except ε α
  | .ok a _ => .ok a
  | .error e _ => .error e

/-- The state a call left. -/
def left : EStateM.Result ε σ α → σ
  | .ok _ t => t
  | .error _ t => t

/-! ## Running a computation -/

@[simp] theorem pure_apply (a : α) (s : σ) : (pure a : Act ε σ α) s = .ok a s := rfl

@[simp] theorem throw_apply (e : ε) (s : σ) : (throw e : Act ε σ α) s = .error e s := rfl

@[simp] theorem get_bind (f : σ → Act ε σ β) (s : σ) :
    ((get : Act ε σ σ) >>= f) s = f s s := rfl

@[simp] theorem set_bind (t : σ) (f : PUnit → Act ε σ β) (s : σ) :
    ((set t : Act ε σ PUnit) >>= f) s = f () t := rfl

@[simp] theorem modify_bind (g : σ → σ) (f : PUnit → Act ε σ β) (s : σ) :
    ((modify g : Act ε σ PUnit) >>= f) s = f () (g s) := rfl

@[simp] theorem lift_ok_bind (a : α) (f : α → Act ε σ β) (s : σ) :
    (lift (.ok a : Except ε α) >>= f) s = f a s := rfl

@[simp] theorem lift_error_bind (e : ε) (f : α → Act ε σ β) (s : σ) :
    (lift (.error e : Except ε α) >>= f) s = .error e s := rfl

theorem bind_of_ok {x : Act ε σ α} {s s' : σ} {a : α} (f : α → Act ε σ β) (h : x s = .ok a s') :
    (x >>= f) s = f a s' := by
  show EStateM.bind x f s = _
  rw [EStateM.bind, h]

theorem bind_of_error {x : Act ε σ α} {s s' : σ} {e : ε} (f : α → Act ε σ β)
    (h : x s = .error e s') : (x >>= f) s = .error e s' := by
  show EStateM.bind x f s = _
  rw [EStateM.bind, h]

/-! ## Successful runs -/

@[simp] theorem returns_pure (a b : α) (s t : σ) :
    Returns (pure a : Act ε σ α) s b t ↔ a = b ∧ s = t := by
  simp [Returns, pure, EStateM.pure]

@[simp] theorem returns_modify (f : σ → σ) (s t : σ) (u : Unit) :
    Returns (modify f : Act ε σ Unit) s u t ↔ f s = t := by
  simp [Returns, modify, modifyGet, MonadStateOf.modifyGet, EStateM.modifyGet]

@[simp] theorem returns_get (s t : σ) (a : σ) :
    Returns (get : Act ε σ σ) s a t ↔ s = a ∧ s = t := by
  simp [Returns, get, getThe, MonadStateOf.get, EStateM.get]

@[simp] theorem returns_set (s s' t : σ) (u : Unit) :
    Returns (set s' : Act ε σ Unit) s u t ↔ s' = t := by
  simp [Returns, set, MonadStateOf.set, EStateM.set]

@[simp] theorem returns_throw (e : ε) (s t : σ) (a : α) :
    ¬ Returns (throw e : Act ε σ α) s a t := by
  simp [Returns, throw, throwThe, MonadExceptOf.throw, EStateM.throw]

@[simp] theorem returns_lift (r : Except ε α) (s t : σ) (a : α) :
    Returns (lift r : Act ε σ α) s a t ↔ r = .ok a ∧ s = t := by
  cases r with
  | ok b => simp [lift]
  | error e => simp [lift]

/-- A sequence succeeds exactly when both parts do. -/
theorem returns_bind (x : Act ε σ α) (f : α → Act ε σ β) (s t : σ) (b : β) :
    Returns (x >>= f) s b t ↔ ∃ a s', Returns x s a s' ∧ Returns (f a) s' b t := by
  unfold Returns
  show EStateM.bind x f s = .ok b t ↔ _
  unfold EStateM.bind
  cases x s with
  | ok a s' =>
      constructor
      · intro h
        exact ⟨a, s', rfl, h⟩
      · rintro ⟨a', s'', hx, hf⟩
        cases hx
        exact hf
  | error e s' => simp

/-! ## Frames -/

/-- The computation leaves the part `view` of the state as it is, on both exits. -/
def Keeps {τ : Type} (view : σ → τ) (x : Act ε σ α) : Prop := ∀ s, view (left (x s)) = view s

section Keeps

variable {τ : Type} {view : σ → τ}

theorem keeps_pure (a : α) : Keeps view (pure a : Act ε σ α) := fun _ => rfl

theorem keeps_throw (e : ε) : Keeps view (throw e : Act ε σ α) := fun _ => rfl

theorem keeps_get : Keeps view (get : Act ε σ σ) := fun _ => rfl

theorem keeps_lift (r : Except ε α) : Keeps view (lift r : Act ε σ α) := by
  intro s
  cases r with
  | ok a => rfl
  | error e => rfl

theorem keeps_modify {g : σ → σ} (h : ∀ s, view (g s) = view s) :
    Keeps view (modify g : Act ε σ PUnit) := h

theorem keeps_bind {x : Act ε σ α} {f : α → Act ε σ β} (hx : Keeps view x)
    (hf : ∀ a, Keeps view (f a)) : Keeps view (x >>= f) := by
  intro s
  have hs := hx s
  cases hxs : x s with
  | ok a s' =>
      rw [bind_of_ok f hxs, hf a s']
      rw [hxs] at hs
      exact hs
  | error e s' =>
      rw [bind_of_error f hxs]
      rw [hxs] at hs
      exact hs

/-- A state read and then changed outside the view. -/
theorem keeps_get_bind {f : σ → Act ε σ β} (hf : ∀ s, view (left (f s s)) = view s) :
    Keeps view ((get : Act ε σ σ) >>= f) := hf

theorem keeps_get_bind_all {f : σ → Act ε σ β} (hf : ∀ s, Keeps view (f s)) :
    Keeps view ((get : Act ε σ σ) >>= f) := fun s => hf s s

end Keeps

/-! ## Invariants -/

/-- From a state with `I` the computation leaves a state with `I`, on both exits,
and a value it returns satisfies `P`. -/
def Maintains (I : σ → Prop) (P : α → Prop) (x : Act ε σ α) : Prop :=
  ∀ s, I s → (∀ a, outcome (x s) = .ok a → P a) ∧ I (left (x s))

section Maintains

variable {I : σ → Prop} {P : α → Prop} {Q : β → Prop}

theorem maintains_pure {a : α} (h : P a) : Maintains I P (pure a : Act ε σ α) := by
  intro s hs
  refine ⟨?_, hs⟩
  intro b hb
  cases hb
  exact h

theorem maintains_throw (e : ε) : Maintains I P (throw e : Act ε σ α) := by
  intro s hs
  refine ⟨?_, hs⟩
  intro b hb
  cases hb

theorem maintains_lift {r : Except ε α} (h : ∀ a, r = .ok a → P a) :
    Maintains I P (lift r : Act ε σ α) := by
  cases r with
  | ok a => exact maintains_pure (h a rfl)
  | error e => exact maintains_throw e

theorem maintains_bind {x : Act ε σ α} {f : α → Act ε σ β} (hx : Maintains I P x)
    (hf : ∀ a, P a → Maintains I Q (f a)) : Maintains I Q (x >>= f) := by
  intro s hs
  obtain ⟨hvalue, hleft⟩ := hx s hs
  cases hxs : x s with
  | ok a s' =>
      rw [hxs] at hvalue hleft
      rw [bind_of_ok f hxs]
      exact hf a (hvalue a rfl) s' hleft
  | error e s' =>
      rw [hxs] at hleft
      rw [bind_of_error f hxs]
      refine ⟨?_, hleft⟩
      intro b hb
      cases hb

/-- The state read is one with the invariant. -/
theorem maintains_get_bind {f : σ → Act ε σ β} (hf : ∀ s, I s → Maintains I Q (f s)) :
    Maintains I Q ((get : Act ε σ σ) >>= f) := by
  intro s hs
  rw [get_bind]
  exact hf s hs s hs

theorem maintains_set_bind {t : σ} {f : PUnit → Act ε σ β} (ht : I t)
    (hf : Maintains I Q (f ())) : Maintains I Q ((set t : Act ε σ PUnit) >>= f) := by
  intro s _
  rw [set_bind]
  exact hf t ht

theorem maintains_modify {g : σ → σ} (hg : ∀ s, I s → I (g s)) :
    Maintains I (fun _ => True) (modify g : Act ε σ PUnit) := by
  intro s hs
  exact ⟨fun _ _ => trivial, hg s hs⟩

/-- What a successful run of such a computation gives. -/
theorem Maintains.returns {x : Act ε σ α} (h : Maintains I P x) {s t : σ} {a : α} (hs : I s)
    (hr : Returns x s a t) : P a ∧ I t := by
  have hx := h s hs
  have e : x s = .ok a t := hr
  rw [e] at hx
  exact ⟨hx.1 a rfl, hx.2⟩

end Maintains

/-- Runs a computation on a part of the state. -/
def zoom {τ : Type} (view : σ → τ) (put : σ → τ → σ) (x : Act ε τ α) : Act ε σ α := fun s =>
  match x (view s) with
  | .ok a t => .ok a (put s t)
  | .error e t => .error e (put s t)

theorem returns_zoom {τ : Type} (view : σ → τ) (put : σ → τ → σ) (x : Act ε τ α)
    (s t : σ) (a : α) :
    Returns (zoom view put x) s a t ↔ ∃ t', Returns x (view s) a t' ∧ put s t' = t := by
  unfold Returns zoom
  cases x (view s) with
  | ok b t' =>
      constructor
      · intro h
        cases h
        exact ⟨t', rfl, rfl⟩
      · rintro ⟨t'', h, rfl⟩
        cases h
        rfl
  | error e t' => simp

/-- `for x in xs { f x }`, stopping at the first failure. -/
def forEach (f : α → Act ε σ Unit) : List α → Act ε σ Unit
  | [] => pure ()
  | x :: xs => do f x; forEach f xs

@[simp] theorem returns_forEach_nil (f : α → Act ε σ Unit) (s t : σ) (u : Unit) :
    Returns (forEach f []) s u t ↔ s = t := by
  simp [forEach]

theorem returns_forEach_cons (f : α → Act ε σ Unit) (x : α) (xs : List α) (s t : σ) (u : Unit) :
    Returns (forEach f (x :: xs)) s u t ↔
      ∃ s', Returns (f x) s () s' ∧ Returns (forEach f xs) s' u t := by
  rw [forEach, returns_bind]
  constructor
  · rintro ⟨a, s', hx, hxs⟩
    exact ⟨s', hx, hxs⟩
  · rintro ⟨s', hx, hxs⟩
    exact ⟨(), s', hx, hxs⟩

/-- What every iteration leaves as it is, the loop does. -/
theorem keeps_forEach {τ : Type} {view : σ → τ} {f : α → Act ε σ Unit}
    (hf : ∀ a, Keeps view (f a)) (xs : List α) : Keeps view (forEach f xs) := by
  induction xs with
  | nil => exact keeps_pure ()
  | cons x xs ih => exact keeps_bind (hf x) fun _ => ih

/-- What every iteration maintains, the loop does. -/
theorem maintains_forEach_of_mem {I : σ → Prop} {f : α → Act ε σ Unit} {xs : List α}
    (hf : ∀ a ∈ xs, Maintains I (fun _ => True) (f a)) :
    Maintains I (fun _ => True) (forEach f xs) := by
  induction xs with
  | nil => exact maintains_pure trivial
  | cons x xs ih =>
      obtain ⟨hx, hxs⟩ := List.forall_mem_cons.1 hf
      exact maintains_bind hx fun _ _ => ih hxs

theorem maintains_forEach {I : σ → Prop} {f : α → Act ε σ Unit}
    (hf : ∀ a, Maintains I (fun _ => True) (f a)) (xs : List α) :
    Maintains I (fun _ => True) (forEach f xs) :=
  maintains_forEach_of_mem fun a _ => hf a

/-- Loop rule: `I done s` is the invariant after the items `done`; each
iteration appends its item. -/
theorem forEach_invariant (f : α → Act ε σ Unit) (I : List α → σ → Prop) :
    ∀ (xs done : List α) (s t : σ) (u : Unit),
      (∀ d x s s', I d s → Returns (f x) s () s' → x ∈ xs → I (d ++ [x]) s') →
      I done s → Returns (forEach f xs) s u t → I (done ++ xs) t
  | [], done, s, t, u, _, hs, h => by
      rw [returns_forEach_nil] at h
      subst h
      simpa using hs
  | x :: xs, done, s, t, u, hstep, hs, h => by
      rw [returns_forEach_cons] at h
      obtain ⟨s', hx, hxs⟩ := h
      have hs' : I (done ++ [x]) s' := hstep done x s s' hs hx (by simp)
      have hrest := forEach_invariant f I xs (done ++ [x]) s' t u
        (fun d y s s' hd hy hm => hstep d y s s' hd hy (by simp [hm])) hs' hxs
      simpa using hrest

/-- Progress rule: if every iteration succeeds from a state with the invariant
and keeps it, the loop succeeds. -/
theorem forEach_returns (f : α → Act ε σ Unit) (I : List α → σ → Prop) :
    ∀ (xs done : List α) (s : σ),
      (∀ d x s, I d s → x ∈ xs → ∃ s', Returns (f x) s () s' ∧ I (d ++ [x]) s') →
      I done s → ∃ t, Returns (forEach f xs) s () t ∧ I (done ++ xs) t
  | [], done, s, _, hs => ⟨s, by simp, by simpa using hs⟩
  | x :: xs, done, s, hstep, hs => by
      obtain ⟨s', hx, hs'⟩ := hstep done x s hs (by simp)
      obtain ⟨t, ht, hI⟩ := forEach_returns f I xs (done ++ [x]) s'
        (fun d y s hd hy => hstep d y s hd (by simp [hy])) hs'
      exact ⟨t, (returns_forEach_cons f x xs s t ()).2 ⟨s', hx, ht⟩, by simpa using hI⟩

end Act

end Lib
