import F3Format.Context

/-!
# Calls that do not panic

`Safe x` says that the call `x` returns `Ok` or `Err`. Every construct the code
is made of has its rule: the exact condition under which it does not panic. What
follows a call is looked at where the call returns (`After`), an item of a loop
where the loop gets to it (`Reached`).
-/

set_option autoImplicit false

namespace F3Format

open Lib

/-- The call returns `Ok` or `Err`. -/
def Safe {α : Type} (x : Result α) : Prop := ∀ msg, x ≠ .error (.panic msg)

/-- `P` holds of what the call returns, if it returns `Ok`. -/
def After {α : Type} (x : Result α) (P : α → Prop) : Prop := ∀ a, x = .ok a → P a

/-- The call returns `Ok` or panics: it has no `Err`. -/
def NoErr {α : Type} (x : Result α) : Prop := ∀ e, x ≠ .error (.err e)

/-- The loop of `collect` gets to `x`: all items before it succeed. -/
def Reached {α β : Type} (f : α → Result β) (xs : List α) (x : α) : Prop :=
  ∃ ys zs, xs = ys ++ x :: zs ∧ ∀ y ∈ ys, ∃ b, f y = .ok b

section Rules

variable {α β : Type}

@[simp] theorem safe_ok (a : α) : Safe (.ok a : Result α) := by
  intro msg h
  cases h

@[simp] theorem safe_pure (a : α) : Safe (pure a : Result α) := safe_ok a

@[simp] theorem safe_fail (e : Error) : Safe (fail e : Result α) := by
  intro msg h
  cases h

@[simp] theorem not_safe_panicking (msg : String) : ¬ Safe (panicking msg : Result α) :=
  fun h => h msg rfl

/-- How a call fails does not depend on what it would return. -/
theorem safe_error {f : Fault} : Safe (.error f : Result α) ↔ Safe (.error f : Result β) := by
  constructor
  · intro h msg he
    exact h msg (by cases he; rfl)
  · intro h msg he
    exact h msg (by cases he; rfl)

/-- A sequence is safe if its first part is, and its second part whenever it is reached. -/
theorem safe_bind {x : Result α} {f : α → Result β} :
    Safe (x >>= f) ↔ Safe x ∧ ∀ a, x = .ok a → Safe (f a) := by
  cases x with
  | ok a => simp
  | error e =>
      constructor
      · intro h
        exact ⟨safe_error.1 h, fun a ha => nomatch ha⟩
      · rintro ⟨h, -⟩
        exact safe_error.1 h

/-- The rule for a sequence, with the conditions of its parts. -/
theorem safe_bind_iff {x : Result α} {f : α → Result β} {P : Prop} {Q : α → Prop}
    (hx : Safe x ↔ P) (hf : ∀ a, x = .ok a → (Safe (f a) ↔ Q a)) :
    Safe (x >>= f) ↔ P ∧ After x Q := by
  rw [safe_bind, hx]
  exact and_congr_right fun _ => forall₂_congr hf

/-- The rule where the first part never panics. -/
theorem safe_bind_after {x : Result α} {f : α → Result β} {Q : α → Prop} (hx : Safe x)
    (hf : ∀ a, x = .ok a → (Safe (f a) ↔ Q a)) : Safe (x >>= f) ↔ After x Q := by
  rw [safe_bind_iff (iff_true_intro hx) hf, true_and]

/-- The rule where only the first part can panic. -/
theorem safe_bind_first {x : Result α} {f : α → Result β} (hf : ∀ a, x = .ok a → Safe (f a)) :
    Safe (x >>= f) ↔ Safe x := by
  rw [safe_bind]
  exact and_iff_left hf

@[simp] theorem after_ok (a : α) (P : α → Prop) : After (.ok a : Result α) P ↔ P a := by
  constructor
  · intro h
    exact h a rfl
  · rintro h b hb
    cases hb
    exact h

theorem safe_ite {c : Prop} [Decidable c] {x y : Result α} :
    Safe (if c then x else y) ↔ (c → Safe x) ∧ (¬ c → Safe y) := by
  by_cases h : c
  · simp [h]
  · simp [h]

/-- The rule for `assert!` and the checks that panic. -/
theorem safe_if_panicking {c : Prop} [Decidable c] {msg : String} {x : Result α} :
    Safe (if c then panicking msg else x) ↔ ¬ c ∧ Safe x := by
  rw [safe_ite]
  constructor
  · rintro ⟨h, hx⟩
    have hc : ¬ c := fun hc => not_safe_panicking msg (h hc)
    exact ⟨hc, hx hc⟩
  · rintro ⟨hc, hx⟩
    exact ⟨fun h => absurd h hc, fun _ => hx⟩

@[simp] theorem safe_unwrapSome {o : Option α} : Safe (unwrapSome o) ↔ o.isSome = true := by
  cases o with
  | none => simp [unwrapSome]
  | some a => simp [unwrapSome]

@[simp] theorem safe_okOr (e : Error) (o : Option α) : Safe (okOr e o) := by
  cases o with
  | none => exact safe_fail e
  | some a => exact safe_ok a

@[simp] theorem safe_liftErr (x : Except Error α) : Safe (liftErr x) := by
  cases x with
  | ok a => exact safe_ok a
  | error e => exact safe_fail e

@[simp] theorem safe_checkedSub {a b : Nat} : Safe (checkedSub a b) ↔ b ≤ a := by
  unfold checkedSub
  by_cases h : b ≤ a
  · simp [h]
  · simp [h]

@[simp] theorem safe_readExactAt (file : Bytes) (offset len : Nat) :
    Safe (readExactAt file offset len) := by
  unfold readExactAt
  split
  · exact safe_ok _
  · exact safe_fail _

@[simp] theorem safe_splitTo {buf : Bytes} {n : Nat} : Safe (splitTo buf n) ↔ n ≤ buf.length := by
  unfold splitTo
  by_cases h : n ≤ buf.length
  · simp [h]
  · simp [h]

/-! ## Calls without an `Err` -/

theorem NoErr.safe_iff {x : Result α} (h : NoErr x) : Safe x ↔ ∃ a, x = .ok a := by
  cases x with
  | ok a => exact iff_of_true (safe_ok a) ⟨a, rfl⟩
  | error f =>
      cases f with
      | err e => exact absurd rfl (h e)
      | panic msg => exact iff_of_false (not_safe_panicking msg) fun ⟨a, ha⟩ => nomatch ha

theorem noErr_ok (a : α) : NoErr (.ok a : Result α) := fun _ he => nomatch he

theorem noErr_panicking (msg : String) : NoErr (panicking msg : Result α) := fun _ he => nomatch he

theorem noErr_if_panicking {c : Prop} [Decidable c] {msg : String} {x : Result α} (hx : NoErr x) :
    NoErr (if c then panicking msg else x) := by
  split
  · exact noErr_panicking msg
  · exact hx

theorem noErr_bind {x : Result α} {f : α → Result β} (hx : NoErr x) (hf : ∀ a, NoErr (f a)) :
    NoErr (x >>= f) := by
  intro e he
  rcases (bind_eq_error _ _ _).1 he with h | ⟨a, -, h⟩
  · exact hx e h
  · exact hf a e h

theorem noErr_unwrap (x : Result α) : NoErr (unwrap x) := by
  intro e he
  cases x with
  | ok a => cases he
  | error f => cases f <;> cases he

theorem noErr_unwrapSome (o : Option α) : NoErr (unwrapSome o) := by
  intro e he
  cases o <;> cases he

theorem noErr_collect {f : α → Result β} (hf : ∀ x, NoErr (f x)) (xs : List α) :
    NoErr (collect f xs) := by
  induction xs with
  | nil => exact noErr_ok _
  | cons x xs ih => exact noErr_bind (hf x) fun _ => noErr_bind ih fun _ => noErr_ok _

/-! ## A construct and what follows it -/

@[simp] theorem safe_pure_bind (a : α) (f : α → Result β) :
    Safe ((pure a : Result α) >>= f) ↔ Safe (f a) := Iff.rfl

@[simp] theorem safe_fail_bind (e : Error) (f : α → Result β) :
    Safe ((fail e : Result α) >>= f) := safe_fail e

theorem safe_unwrapSome_bind {o : Option α} {f : α → Result β} :
    Safe (unwrapSome o >>= f) ↔ ∃ a, o = some a ∧ Safe (f a) := by
  cases o with
  | none => exact iff_of_false (not_safe_panicking _) (by simp)
  | some a => simp [unwrapSome]

theorem safe_okOr_bind {e : Error} {o : Option α} {f : α → Result β} :
    Safe (okOr e o >>= f) ↔ ∀ a, o = some a → Safe (f a) := by
  rw [safe_bind, and_iff_right (safe_okOr e o)]
  exact forall_congr' fun a => by rw [okOr_eq_ok]

theorem safe_liftErr_bind {x : Except Error α} {f : α → Result β} :
    Safe (liftErr x >>= f) ↔ ∀ a, x = .ok a → Safe (f a) := by
  rw [safe_bind, and_iff_right (safe_liftErr x)]
  exact forall_congr' fun a => by rw [liftErr_eq_ok]

theorem safe_checkedSub_bind {a b : Nat} {f : Nat → Result β} :
    Safe (checkedSub a b >>= f) ↔ b ≤ a ∧ Safe (f (a - b)) := by
  unfold checkedSub
  by_cases h : b ≤ a
  · simp [h]
  · rw [if_neg h]
    exact iff_of_false (not_safe_panicking _) fun hb => h hb.1

theorem safe_splitTo_bind {buf : Bytes} {n : Nat} {f : Bytes × Bytes → Result β} :
    Safe (splitTo buf n >>= f) ↔ n ≤ buf.length ∧ Safe (f (buf.take n, buf.drop n)) := by
  unfold splitTo
  by_cases h : n ≤ buf.length
  · simp [h]
  · rw [if_neg h]
    exact iff_of_false (not_safe_panicking _) fun hb => h hb.1

/-! ## Loops -/

theorem reached_head (f : α → Result β) (x : α) (xs : List α) : Reached f (x :: xs) x :=
  ⟨[], xs, rfl, by simp⟩

theorem reached_cons {f : α → Result β} {x y : α} {xs : List α} {b : β} (hx : f x = .ok b)
    (h : Reached f xs y) : Reached f (x :: xs) y := by
  obtain ⟨ys, zs, rfl, hys⟩ := h
  refine ⟨x :: ys, zs, rfl, ?_⟩
  intro z hz
  rcases List.mem_cons.1 hz with rfl | hz
  · exact ⟨b, hx⟩
  · exact hys z hz

theorem Reached.mem {f : α → Result β} {xs : List α} {x : α} (h : Reached f xs x) : x ∈ xs := by
  obtain ⟨ys, zs, rfl, -⟩ := h
  simp

/-- A loop is safe if every item it gets to is. -/
theorem safe_collect {f : α → Result β} {xs : List α} :
    Safe (collect f xs) ↔ ∀ x, Reached f xs x → Safe (f x) := by
  induction xs with
  | nil =>
      constructor
      · intro _ x hx
        cases hx.mem
      · intro _
        exact safe_ok _
  | cons x xs ih =>
      rw [collect, safe_bind]
      constructor
      · rintro ⟨hx, hrest⟩ y ⟨ys, zs, heq, hys⟩
        cases ys with
        | nil =>
            cases heq
            exact hx
        | cons y' ys =>
            cases heq
            obtain ⟨b, hb⟩ := hys x (List.mem_cons_self ..)
            have hxs := (safe_bind.1 (hrest b hb)).1
            exact ih.1 hxs y ⟨ys, zs, rfl, fun z hz => hys z (List.mem_cons_of_mem _ hz)⟩
      · intro h
        refine ⟨h x (reached_head f x xs), fun b hb => safe_bind.2 ⟨?_, fun _ _ => safe_pure _⟩⟩
        exact ih.2 fun y hy => h y (reached_cons hb hy)

/-- A loop whose items have their conditions. -/
theorem safe_collect_iff {f : α → Result β} {P : α → Prop} {xs : List α}
    (h : ∀ x, Reached f xs x → (Safe (f x) ↔ P x)) :
    Safe (collect f xs) ↔ ∀ x, Reached f xs x → P x := by
  rw [safe_collect]
  exact forall₂_congr h

/-- A loop whose items have no `Err` is safe if every item is. -/
theorem safe_collect_all {f : α → Result β} (hf : ∀ x, NoErr (f x))
    {xs : List α} : Safe (collect f xs) ↔ ∀ x ∈ xs, Safe (f x) := by
  rw [safe_collect]
  constructor
  · intro h
    induction xs with
    | nil =>
        intro x hx
        cases hx
    | cons x xs ih =>
        have hx := h x (reached_head f x xs)
        obtain ⟨b, hb⟩ := (hf x).safe_iff.1 hx
        intro y hy
        rcases List.mem_cons.1 hy with rfl | hy
        · exact hx
        · exact ih (fun z hz => h z (reached_cons hb hz)) y hy
  · intro h x hx
    exact h x hx.mem

end Rules

end F3Format
