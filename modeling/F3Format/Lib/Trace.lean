import F3Format.Lib.Act

/-!
# Sequences of calls

A trace makes calls one after another and records the outcome of each. A call
that fails is followed by the next one, in the state the failed call left. The
rules of this file are the invariant rule and the simulation rule: two objects
whose calls are related call by call have related traces.
-/

set_option autoImplicit false

namespace Lib

namespace Act

variable {ε σ τ α β κ : Type}

/-- The outcomes of the calls `cs`, made in order from `s`, and the last state. -/
def trace (f : κ → Act ε σ α) : List κ → σ → List (Except ε α) × σ
  | [], s => ([], s)
  | c :: cs, s => (outcome (f c s) :: (trace f cs (left (f c s))).1, (trace f cs (left (f c s))).2)

@[simp] theorem trace_nil (f : κ → Act ε σ α) (s : σ) : trace f [] s = ([], s) := rfl

theorem trace_append (f : κ → Act ε σ α) (cs ds : List κ) (s : σ) :
    trace f (cs ++ ds) s =
      ((trace f cs s).1 ++ (trace f ds (trace f cs s).2).1,
        (trace f ds (trace f cs s).2).2) := by
  induction cs generalizing s with
  | nil => rfl
  | cons c cs ih =>
      rw [List.cons_append, trace, trace, ih]
      rfl

/-- What every call keeps, the trace keeps. -/
theorem trace_invariant (f : κ → Act ε σ α) (I : σ → Prop)
    (hstep : ∀ c s, I s → I (left (f c s))) (cs : List κ) {s : σ} (hs : I s) :
    I (trace f cs s).2 := by
  induction cs generalizing s with
  | nil => exact hs
  | cons c cs ih => exact ih (hstep c s hs)

/-- What holds of every outcome from a state with the invariant. -/
theorem trace_outcomes (f : κ → Act ε σ α) (I : σ → Prop) (P : κ → Except ε α → Prop) :
    ∀ (cs : List κ) (s : σ),
      (∀ c s, c ∈ cs → I s → P c (outcome (f c s)) ∧ I (left (f c s))) → I s →
        ∀ o ∈ (trace f cs s).1, ∃ c ∈ cs, P c o
  | [], _, _, _ => by
      intro o ho
      cases ho
  | c :: cs, s, hstep, hs => by
      obtain ⟨hP, hI⟩ := hstep c s (by simp) hs
      intro o ho
      rcases List.mem_cons.1 ho with rfl | ho
      · exact ⟨c, by simp, hP⟩
      · obtain ⟨d, hd, hPd⟩ := trace_outcomes f I P cs _
          (fun d t hd ht => hstep d t (by simp [hd]) ht) hI o ho
        exact ⟨d, by simp [hd], hPd⟩

/-- Calls that maintain an invariant return what they promise, in any sequence. -/
theorem trace_maintains {f : κ → Act ε σ α} {I : σ → Prop} {P : α → Prop}
    (hf : ∀ c, Maintains I P (f c)) (cs : List κ) {s : σ} (hs : I s) :
    ∀ o ∈ (trace f cs s).1, ∀ a, o = .ok a → P a := by
  intro o ho
  obtain ⟨c, -, hP⟩ := trace_outcomes f I (fun _ o => ∀ a, o = .ok a → P a) cs s
    (fun c s _ hs => hf c s hs) hs o ho
  exact hP

/-- The invariant `I done s` may speak of the calls made so far. -/
theorem trace_history (f : κ → Act ε σ α) (I : List κ → σ → Prop)
    (hstep : ∀ done c s, I done s → I (done ++ [c]) (left (f c s))) (cs done : List κ) {s : σ}
    (hs : I done s) : I (done ++ cs) (trace f cs s).2 := by
  induction cs generalizing done s with
  | nil => simpa using hs
  | cons c cs ih =>
      have h := ih (done ++ [c]) (hstep done c s hs)
      rw [List.append_assoc] at h
      exact h

/-- Outcomes that are both values related by `Q`, or the same failure. -/
inductive Agree (Q : α → β → Prop) : Except ε α → Except ε β → Prop where
  | ok {a : α} {b : β} (h : Q a b) : Agree Q (.ok a) (.ok b)
  | error (e : ε) : Agree Q (.error e) (.error e)

theorem agree_eq_iff {x y : Except ε α} : Agree (fun a b => a = b) x y ↔ x = y := by
  constructor
  · rintro (⟨rfl⟩ | ⟨e⟩)
    · rfl
    · rfl
  · rintro rfl
    cases x with
    | ok a => exact .ok rfl
    | error e => exact .error e

theorem Agree.mono {Q Q' : α → β → Prop} (hQ : ∀ a b, Q a b → Q' a b) {x : Except ε α}
    {y : Except ε β} (h : Agree Q x y) : Agree Q' x y := by
  cases h with
  | ok h => exact .ok (hQ _ _ h)
  | error e => exact .error e

/-- The two computations, from the states `s` and `t`, agree and end in related states. -/
def Simulates (R' : σ → τ → Prop) (Q : α → β → Prop) (x : EStateM.Result ε σ α)
    (y : EStateM.Result ε τ β) : Prop :=
  Agree Q (outcome x) (outcome y) ∧ R' (left x) (left y)

/-- What the right computation promises, the left one does up to the relations. -/
theorem Simulates.promises {R' : σ → τ → Prop} {Q : α → β → Prop} {x : EStateM.Result ε σ α}
    {y : EStateM.Result ε τ β} (h : Simulates R' Q x y) {P : β → Prop} {I : τ → Prop}
    (hy : (∀ b, outcome y = .ok b → P b) ∧ I (left y)) :
    (∀ a, outcome x = .ok a → ∃ b, Q a b ∧ P b) ∧ ∃ t, R' (left x) t ∧ I t := by
  obtain ⟨hout, hleft⟩ := h
  refine ⟨?_, left y, hleft, hy.2⟩
  intro a ha
  rw [ha] at hout
  generalize houty : outcome y = o at hout
  cases hout with
  | ok hQ => exact ⟨_, hQ, hy.1 _ houty⟩

/-- Simulation rule for traces. The relation may depend on the number of calls made. -/
theorem trace_simulates (f : κ → Act ε σ α) (g : κ → Act ε τ β) (R : Nat → σ → τ → Prop)
    (Q : α → β → Prop) :
    ∀ (cs : List κ) (n : Nat) (s : σ) (t : τ),
      (∀ k c s t, c ∈ cs → n ≤ k → k < n + cs.length → R k s t →
        Simulates (R (k + 1)) Q (f c s) (g c t)) →
      R n s t →
      List.Forall₂ (Agree Q) (trace f cs s).1 (trace g cs t).1 ∧
        R (n + cs.length) (trace f cs s).2 (trace g cs t).2
  | [], n, s, t, _, h => ⟨.nil, h⟩
  | c :: cs, n, s, t, hstep, h => by
      obtain ⟨hout, hleft⟩ := hstep n c s t (by simp) (Nat.le_refl n) (by simp) h
      have hrest := trace_simulates f g R Q cs (n + 1) (left (f c s)) (left (g c t))
        (fun k d s t hd hk hk' hR => hstep k d s t (by simp [hd]) (by omega)
          (by simp only [List.length_cons]; omega) hR) hleft
      refine ⟨.cons hout hrest.1, ?_⟩
      rw [List.length_cons, Nat.add_comm cs.length 1, ← Nat.add_assoc]
      exact hrest.2

/-! ## Relational rules -/

/-- From related states the computations agree and end in related states. -/
def Relates (R R' : σ → τ → Prop) (Q : α → β → Prop) (x : Act ε σ α) (y : Act ε τ β) : Prop :=
  ∀ s t, R s t → Simulates R' Q (x s) (y t)

section Relates

variable {α' β' : Type} {R R' R'' : σ → τ → Prop}

theorem relates_pure {Q : α → β → Prop} {a : α} {b : β} (hQ : Q a b)
    (hR : ∀ s t, R s t → R' s t) :
    Relates R R' Q (pure a : Act ε σ α) (pure b : Act ε τ β) :=
  fun s t h => ⟨.ok hQ, hR s t h⟩

/-- Sequences are related when both parts are. A failure of the first part must
leave states the end relation accepts. -/
theorem relates_bind {Q : α → β → Prop} {Q' : α' → β' → Prop} {x : Act ε σ α} {y : Act ε τ β}
    {f : α → Act ε σ α'} {g : β → Act ε τ β'} (hx : Relates R R' Q x y)
    (hfail : ∀ s t, R' s t → R'' s t)
    (hf : ∀ a b, Q a b → Relates R' R'' Q' (f a) (g b)) :
    Relates R R'' Q' (x >>= f) (y >>= g) := by
  intro s t h
  obtain ⟨hout, hleft⟩ := hx s t h
  show Simulates R'' Q' (EStateM.bind x f s) (EStateM.bind y g t)
  unfold EStateM.bind
  cases hxs : x s with
  | ok a s' =>
      cases hyt : y t with
      | ok b t' =>
          rw [hxs, hyt] at hout hleft
          cases hout with
          | ok hQ => exact hf a b hQ s' t' hleft
      | error e t' =>
          rw [hxs, hyt] at hout
          cases hout
  | error e s' =>
      cases hyt : y t with
      | ok b t' =>
          rw [hxs, hyt] at hout
          cases hout
      | error e' t' =>
          rw [hxs, hyt] at hout hleft
          cases hout
          exact ⟨.error e, hfail s' t' hleft⟩

/-- The same pure computation on both sides. -/
theorem relates_lift (r : Except ε α) (hR : ∀ s t, R s t → R' s t) :
    Relates R R' (fun a b => a = b ∧ r = .ok a) (lift r : Act ε σ α) (lift r : Act ε τ α) := by
  intro s t h
  cases r with
  | ok a => exact ⟨.ok ⟨rfl, rfl⟩, hR s t h⟩
  | error e => exact ⟨.error e, hR s t h⟩

theorem relates_throw {Q : α → β → Prop} (e : ε) (hR : ∀ s t, R s t → R' s t) :
    Relates R R' Q (throw e : Act ε σ α) (throw e : Act ε τ β) :=
  fun s t h => ⟨.error e, hR s t h⟩

theorem Relates.mono {R₀ : σ → τ → Prop} {Q Q' : α → β → Prop} {x : Act ε σ α} {y : Act ε τ β}
    (h : Relates R R' Q x y) (h₀ : ∀ s t, R₀ s t → R s t) (h₁ : ∀ s t, R' s t → R'' s t)
    (hQ : ∀ a b, Q a b → Q' a b) : Relates R₀ R'' Q' x y := by
  intro s t hs
  obtain ⟨hout, hleft⟩ := h s t (h₀ s t hs)
  exact ⟨hout.mono hQ, h₁ _ _ hleft⟩

end Relates

end Act

end Lib
