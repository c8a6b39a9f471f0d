import Mathlib

/-!
# A ledger of memory blocks

What a client does with the blocks of an allocator it does not own: it is given a
block, gives it back, and writes to it. `replay` runs through such a history and
keeps the blocks that are out; it ends with `none` at the first step that breaks
the discipline, a block given back that is not out or a write that does not fit.
-/

set_option autoImplicit false

namespace Lib

/-- A block of memory: its address, and the size and alignment it was asked for. -/
structure Block where
  ptr : Nat
  len : Nat
  align : Nat
  deriving DecidableEq, Repr

/-- The block has room for `n` bytes at `ptr`. -/
def Block.HasRoom (b : Block) (ptr n : Nat) : Prop := b.ptr ≤ ptr ∧ ptr + n ≤ b.ptr + b.len

/-- Two blocks have no byte in common. -/
def Block.Disjoint (b b' : Block) : Prop := b.ptr + b.len ≤ b'.ptr ∨ b'.ptr + b'.len ≤ b.ptr

/-- One step of a client. A write names the block by its address and says how far
into the block it goes. -/
inductive BlockEvent where
  | alloc (b : Block)
  | dealloc (b : Block)
  | write (ptr len : Nat)
  deriving DecidableEq, Repr

/-- The blocks that are out after a step; `none` if the step is not allowed. A
block is given back only if exactly one such block is out. -/
def settle (live : List Block) : BlockEvent → Option (List Block)
  | .alloc b => some (b :: live)
  | .dealloc b => if live.count b = 1 then some (live.erase b) else none
  | .write ptr len =>
      if live.any fun b => decide (b.ptr = ptr) && decide (len ≤ b.len) then some live else none

/-- The blocks that are out after a history. -/
def replay (events : List BlockEvent) : Option (List Block) := events.foldlM settle []

theorem replay_nil : replay [] = some [] := rfl

theorem replay_append_singleton (events : List BlockEvent) (e : BlockEvent) :
    replay (events ++ [e]) = (replay events).bind fun live => settle live e := by
  rw [replay, List.foldlM_append, replay]
  cases List.foldlM settle [] events with
  | none => rfl
  | some live =>
      show (settle live e).bind pure = settle live e
      cases settle live e <;> rfl

variable {events : List BlockEvent} {live : List Block} {b : Block}

/-- A broken history stays broken. -/
theorem replay_append_of_none (h : replay events = none) (e : BlockEvent) :
    replay (events ++ [e]) = none := by
  rw [replay_append_singleton, h]
  rfl

theorem replay_alloc (h : replay events = some live) (b : Block) :
    replay (events ++ [.alloc b]) = some (b :: live) := by
  rw [replay_append_singleton, h]
  rfl

theorem replay_dealloc_only (h : replay events = some [b]) :
    replay (events ++ [.dealloc b]) = some [] := by
  rw [replay_append_singleton, h]
  show (if List.count b [b] = 1 then some ([b].erase b) else none) = some []
  rw [List.count_singleton_self, if_pos rfl, List.erase_cons_head]

theorem replay_dealloc_of_not_mem (h : replay events = some live) (hb : b ∉ live) :
    replay (events ++ [.dealloc b]) = none := by
  rw [replay_append_singleton, h]
  show (if live.count b = 1 then some (live.erase b) else none) = none
  rw [List.count_eq_zero_of_not_mem hb]
  rfl

theorem replay_write_fits (h : replay events = some live) {ptr len : Nat} (hb : b ∈ live)
    (hptr : b.ptr = ptr) (hlen : len ≤ b.len) :
    replay (events ++ [.write ptr len]) = some live := by
  rw [replay_append_singleton, h]
  refine if_pos (List.any_eq_true.2 ⟨b, hb, ?_⟩)
  rw [Bool.and_eq_true, decide_eq_true_eq, decide_eq_true_eq]
  exact ⟨hptr, hlen⟩

/-- A write leaves the blocks as they are, or breaks the discipline. -/
theorem replay_write (events : List BlockEvent) (ptr len : Nat) :
    replay (events ++ [.write ptr len]) = none ∨
      replay (events ++ [.write ptr len]) = replay events := by
  rw [replay_append_singleton]
  cases replay events with
  | none => exact .inl rfl
  | some live =>
      show settle live (.write ptr len) = none ∨ settle live (.write ptr len) = some live
      rw [settle]
      split
      · exact .inr rfl
      · exact .inl rfl

end Lib
