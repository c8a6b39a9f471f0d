import Mathlib

/-!
# Readers that ask for their input

A reader is handed one piece after another and says how many elements the next
piece has to have, until it asks for no more. `pull` serves it from the front of
a list. What a reader takes in is the relation `Consumes`; served from a list
that begins with it, the reader finishes and leaves what follows, and served
from a proper part of it, it never finishes.
-/

set_option autoImplicit false

namespace Lib

universe u v w

variable {σ : Type u} {ε : Type v} {α : Type w}

/-- From its state and the last piece, a reader asks for a next piece or for none. -/
abbrev PullReader (σ : Type u) (ε : Type v) (α : Type w) :=
  σ → List α → Except ε (Option Nat × σ)

/-- How serving a reader ends, or that the fuel did. -/
inductive Pulled (σ : Type u) (ε : Type v) (α : Type w) where
  | running
  | failed (e : ε)
  | short
  | finished (s : σ) (rest : List α)

/-- Serves the reader from the front of `input`, for at most `fuel` calls. -/
def pull (read : PullReader σ ε α) : Nat → σ → List α → List α → Pulled σ ε α
  | 0, _, _, _ => .running
  | fuel + 1, s, piece, input =>
      match read s piece with
      | .error e => .failed e
      | .ok (none, s') => .finished s' input
      | .ok (some n, s') =>
          if n ≤ input.length then pull read fuel s' (input.take n) (input.drop n) else .short

/-- From `s`, handed `piece`, the reader takes in `message` and ends at `s'`. -/
inductive Consumes (read : PullReader σ ε α) : σ → List α → List α → σ → Prop where
  | done {s s' : σ} {piece : List α} (h : read s piece = .ok (none, s')) :
      Consumes read s piece [] s'
  | more {s mid s' : σ} {piece next message : List α}
      (h : read s piece = .ok (some next.length, mid)) (tail : Consumes read mid next message s') :
      Consumes read s piece (next ++ message) s'

section Pull

variable {read : PullReader σ ε α} {s s' : σ} {piece message : List α}

end Pull

end Lib
