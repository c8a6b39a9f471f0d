import F3Format.Lib.Act

/-!
# Errors and panics

`Error` lists the variants of `fff_core::errors::Error` the modelled code
builds. A Rust call has three ways to end: a value, an `Err`, or a panic
(`unwrap` on an error, an index out of range, `assert!`, `todo!`); `Fault`
joins the last two, so that "does not panic" is a statement about the model.
-/

set_option autoImplicit false

namespace F3Format

/-- `fff_core::errors::Error`. -/
inductive Error where
  | general (msg : String)
  | nyi (msg : String)
  | eof (msg : String)
  | parseError (msg : String)
  | external (msg : String)
  | io (msg : String)
  deriving DecidableEq, Repr

/-- How a call fails: it returns an `Err`, or it panics. -/
inductive Fault where
  | err (e : Error)
  | panic (msg : String)
  deriving DecidableEq, Repr

/-- The outcome of a Rust call that returns `Result`. -/
abbrev Result (α : Type) := Except Fault α

/-- `Err(e)`. -/
def fail {α : Type} (e : Error) : Result α := .error (.err e)

/-- A panic. -/
def panicking {α : Type} (msg : String) : Result α := .error (.panic msg)

/-- `Result::unwrap`: an `Err` becomes a panic. -/
def unwrap {α : Type} : Result α → Result α
  | .ok a => .ok a
  | .error (.err _) => panicking "called `Result::unwrap()` on an `Err` value"
  | .error (.panic msg) => panicking msg

/-- `Option::unwrap`. -/
def unwrapSome {α : Type} : Option α → Result α
  | some a => .ok a
  | none => panicking "called `Option::unwrap()` on a `None` value"

/-- `Option::ok_or_else`. -/
def okOr {α : Type} (e : Error) : Option α → Result α
  | some a => .ok a
  | none => fail e

/-- `xs[i]`. -/
def index {α : Type} (xs : List α) (i : Nat) : Result α :=
  match xs[i]? with
  | some a => .ok a
  | none => panicking "index out of bounds"

/-- `a - b` on unsigned integers. -/
def checkedSub (a b : Nat) : Result Nat :=
  if b ≤ a then .ok (a - b) else panicking "attempt to subtract with overflow"

section Simp

variable {α β : Type}

@[simp] theorem unwrap_eq_ok (r : Result α) (a : α) : unwrap r = .ok a ↔ r = .ok a := by
  cases r with
  | ok b => simp [unwrap]
  | error f => cases f <;> simp [unwrap, panicking]

@[simp] theorem unwrapSome_eq_ok (o : Option α) (a : α) :
    unwrapSome o = .ok a ↔ o = some a := by
  cases o <;> simp [unwrapSome, panicking]

@[simp] theorem okOr_eq_ok (e : Error) (o : Option α) (a : α) :
    okOr e o = .ok a ↔ o = some a := by
  cases o <;> simp [okOr, fail]

@[simp] theorem index_eq_ok (xs : List α) (i : Nat) (a : α) :
    index xs i = .ok a ↔ xs[i]? = some a := by
  unfold index
  cases xs[i]? <;> simp [panicking]

@[simp] theorem checkedSub_eq_ok (a b c : Nat) :
    checkedSub a b = .ok c ↔ b ≤ a ∧ c = a - b := by
  unfold checkedSub
  by_cases h : b ≤ a
  · simp [h, eq_comm]
  · simp [h, panicking]

/-- A sequence of pure fallible calls succeeds exactly when both parts do. -/
theorem bind_eq_ok (r : Result α) (f : α → Result β) (b : β) :
    (r >>= f) = .ok b ↔ ∃ a, r = .ok a ∧ f a = .ok b := by
  cases r with
  | ok a => simp [bind, Except.bind]
  | error e => simp [bind, Except.bind]

/-- A sequence fails where its first failing part does. -/
theorem bind_eq_error (r : Result α) (f : α → Result β) (e : Fault) :
    (r >>= f) = .error e ↔ r = .error e ∨ ∃ a, r = .ok a ∧ f a = .error e := by
  cases r with
  | ok a => simp [bind, Except.bind]
  | error e => simp [bind, Except.bind]

@[simp] theorem ok_bind (a : α) (f : α → Result β) :
    ((Except.ok a : Result α) >>= f) = f a := rfl

@[simp] theorem error_bind (e : Fault) (f : α → Result β) :
    ((Except.error e : Result α) >>= f) = .error e := rfl

@[simp] theorem pure_eq_ok (a : α) : (pure a : Result α) = .ok a := rfl

end Simp

/-- A value narrowed by `as u32`. -/
def u32 (n : Nat) : Nat := n % 2 ^ 32

theorem u32_of_lt {n : Nat} (h : n < 2 ^ 32) : u32 n = n := Nat.mod_eq_of_lt h

/-- `iter.map(f).collect::<Result<Vec<_>>>()`. -/
def collect {α β : Type} (f : α → Result β) : List α → Result (List β)
  | [] => .ok []
  | x :: xs => do
      let y ← f x
      let ys ← collect f xs
      pure (y :: ys)

section Collect

variable {α β : Type} {f : α → Result β}

theorem collect_cons_eq_ok {x : α} {xs : List α} {zs : List β} :
    collect f (x :: xs) = .ok zs ↔ ∃ y ys, f x = .ok y ∧ collect f xs = .ok ys ∧ zs = y :: ys := by
  simp only [collect, bind_eq_ok, pure_eq_ok, Except.ok.injEq]
  constructor
  · rintro ⟨y, hy, ys, hys, e⟩
    exact ⟨y, ys, hy, hys, e.symm⟩
  · rintro ⟨y, ys, hy, hys, e⟩
    exact ⟨y, hy, ys, hys, e.symm⟩

/-- Collecting succeeds exactly when every call does. -/
theorem collect_eq_ok_iff {xs : List α} {ys : List β} :
    collect f xs = .ok ys ↔ List.Forall₂ (fun x y => f x = .ok y) xs ys := by
  induction xs generalizing ys with
  | nil =>
      constructor
      · intro h
        cases h
        exact .nil
      · intro h
        cases h
        rfl
  | cons x xs ih =>
      rw [collect_cons_eq_ok]
      constructor
      · rintro ⟨y, ys', hy, hys, rfl⟩
        exact .cons hy (ih.1 hys)
      · intro h
        cases h with
        | cons hy hys => exact ⟨_, _, hy, ih.2 hys, rfl⟩

theorem collect_append {xs xs' : List α} {ys ys' : List β} (h : collect f xs = .ok ys)
    (h' : collect f xs' = .ok ys') : collect f (xs ++ xs') = .ok (ys ++ ys') := by
  induction xs generalizing ys with
  | nil =>
      cases h
      exact h'
  | cons x xs ih =>
      obtain ⟨y, ys₀, hy, hys, rfl⟩ := collect_cons_eq_ok.1 h
      exact collect_cons_eq_ok.2 ⟨y, ys₀ ++ ys', hy, ih hys, rfl⟩

/-- What is collected comes from one of the calls. -/
theorem exists_of_mem_collect {xs : List α} {ys : List β} (h : collect f xs = .ok ys) {y : β}
    (hy : y ∈ ys) : ∃ x ∈ xs, f x = .ok y := by
  rw [collect_eq_ok_iff] at h
  induction h with
  | nil => cases hy
  | @cons x z xs zs hhead _ ih =>
      rcases List.mem_cons.1 hy with rfl | hy
      · exact ⟨x, by simp, hhead⟩
      · obtain ⟨x', hx', hf⟩ := ih hy
        exact ⟨x', by simp [hx'], hf⟩

theorem collect_congr {g : α → Result β} {xs : List α} (h : ∀ x ∈ xs, f x = g x) :
    collect f xs = collect g xs := by
  induction xs with
  | nil => rfl
  | cons x xs ih =>
      rw [collect, collect, h x (by simp), ih fun y hy => h y (by simp [hy])]

theorem collect_congr₂ {γ : Type} {g : γ → Result β} {xs : List α} {ys : List γ}
    (h : List.Forall₂ (fun x y => f x = g y) xs ys) : collect f xs = collect g ys := by
  induction h with
  | nil => rfl
  | cons hhead _ ih => rw [collect, collect, hhead, ih]

/-- Two passes are one, if the second never fails on what the first collects. -/
theorem collect_bind_collect {γ : Type} {g : β → Result γ} {xs : List α}
    (h : ∀ x y, f x = .ok y → ∃ z, g y = .ok z) :
    (collect f xs >>= collect g) = collect (fun x => f x >>= g) xs := by
  induction xs with
  | nil => rfl
  | cons x xs ih =>
      cases hx : f x with
      | error e => simp only [collect, hx, error_bind]
      | ok y =>
          obtain ⟨z, hz⟩ := h x y hx
          simp only [collect, hx, hz, ok_bind, ← ih]
          cases collect f xs with
          | error e => rfl
          | ok ys =>
              simp only [ok_bind, pure_eq_ok, collect, hz]

theorem exists_of_collect_ok {xs : List α} {ys : List β} (h : collect f xs = .ok ys) {x : α}
    (hx : x ∈ xs) : ∃ y, f x = .ok y := by
  rw [collect_eq_ok_iff] at h
  induction h with
  | nil => cases hx
  | @cons x' y xs ys hhead _ ih =>
      rcases List.mem_cons.1 hx with rfl | hx
      · exact ⟨y, hhead⟩
      · exact ih hx

/-- Collecting fails where one of the calls does. -/
theorem exists_of_collect_error {xs : List α} {e : Fault} (h : collect f xs = .error e) :
    ∃ x ∈ xs, f x = .error e := by
  induction xs with
  | nil => cases h
  | cons x xs ih =>
      rw [collect, bind_eq_error] at h
      rcases h with h | ⟨y, -, h⟩
      · exact ⟨x, List.mem_cons_self .., h⟩
      · rw [bind_eq_error] at h
        rcases h with h | ⟨ys, -, h⟩
        · obtain ⟨x', hx', hf⟩ := ih h
          exact ⟨x', List.mem_cons_of_mem _ hx', hf⟩
        · cases h

theorem collect_ok_of_forall {xs : List α} (h : ∀ x ∈ xs, ∃ y, f x = .ok y) :
    ∃ ys, collect f xs = .ok ys := by
  induction xs with
  | nil => exact ⟨[], rfl⟩
  | cons x xs ih =>
      obtain ⟨y, hy⟩ := h x (by simp)
      obtain ⟨ys, hys⟩ := ih fun z hz => h z (by simp [hz])
      exact ⟨y :: ys, collect_cons_eq_ok.2 ⟨y, ys, hy, hys, rfl⟩⟩

theorem length_of_collect {xs : List α} {ys : List β} (h : collect f xs = .ok ys) :
    ys.length = xs.length := (collect_eq_ok_iff.1 h).length_eq.symm

end Collect

end F3Format
