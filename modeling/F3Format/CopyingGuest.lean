import F3Format.GuestLaws

/-!
# A guest that keeps its promises

A decoder that hands out a copy of the first bytes of its input, with an allocator
that does not use memory twice. It checks the blocks it is given: an iterator whose
slot is not in a block that is out traps.
-/

set_option autoImplicit false

namespace F3Format

open Lib

/-- The store: the memory that is free from `top` on, the blocks that are out, the
iterators, and the last input, slot and output that were written. -/
structure CopyingGuest where
  top : Nat
  blocks : List Block
  iters : Nat → Option (List Bytes)
  nextIter : Nat
  inputPtr : Nat
  input : Bytes
  slotPtr : Nat
  slot : Nat × Nat
  output : Bytes

namespace CopyingGuest

/-- Where outputs are. -/
def outputPtr : Nat := 8

/-- Where blocks begin. -/
def heapPtr : Nat := 1024

def start : CopyingGuest := ⟨heapPtr, [], fun _ => none, 16, 0, [], 0, (0, 0), []⟩

/-- The buffers of an input: one, of at most 1024 bytes. -/
def decoded (input : Bytes) : List Bytes := [input.take 1024]

def hasRoom (g : CopyingGuest) (ptr n : Nat) : Bool :=
  g.blocks.any fun b => decide (b.ptr ≤ ptr) && decide (ptr + n ≤ b.ptr + b.len)

def alloc (g : CopyingGuest) (len align : Nat) : Option Nat × CopyingGuest :=
  if g.top + len < 2 ^ 32 then
    (some g.top, { g with top := g.top + len, blocks := ⟨g.top, len, align⟩ :: g.blocks })
  else (some 0, g)

def dealloc (g : CopyingGuest) (ptr len align : Nat) : Option Unit × CopyingGuest :=
  if g.blocks.contains ⟨ptr, len, align⟩ then
    (some (), { g with blocks := g.blocks.erase ⟨ptr, len, align⟩ })
  else (none, g)

def slice (g : CopyingGuest) (ptr stop : Nat) : Bytes :=
  if ptr = outputPtr then g.output.take (stop - ptr)
  else if ptr = g.inputPtr then g.input.take (stop - ptr)
  else []

/-- There are not more than `2 ^ 31` iterators. -/
def function (g : CopyingGuest) (inPtr len out : Nat) : Option Int × CopyingGuest :=
  if g.nextIter < 2 ^ 31 then
    (some 0, { g with
      iters := Function.update g.iters g.nextIter (some (decoded (g.slice inPtr (inPtr + len))))
      nextIter := g.nextIter + 1
      slotPtr := out
      slot := (g.nextIter, 8) })
  else (some (-1), { g with slotPtr := out, slot := (outputPtr, 0) })

def next (g : CopyingGuest) (iter out : Nat) : Option Unit × CopyingGuest :=
  if g.hasRoom out 12 then
    match g.iters iter with
    | none => (none, g)
    | some [] => (some (), { g with slotPtr := out, slot := (0, 0) })
    | some (bytes :: rest) => (some (), { g with
        iters := Function.update g.iters iter (some rest)
        slotPtr := out
        slot := (outputPtr, bytes.length)
        output := bytes })
  else (none, g)

def readU32 (g : CopyingGuest) (ptr : Nat) : Nat :=
  if ptr = g.slotPtr then g.slot.1 else if ptr = g.slotPtr + 4 then g.slot.2 else 0

/-- The module: each instance starts with an empty heap. -/
def copyingModule : WasmModule CopyingGuest where
  guest :=
    { functions := fun _ => true
      hasInit := false
      hasDecode := false
      alloc := alloc
      dealloc := dealloc
      function := fun g _ inPtr len out => g.function inPtr len out
      init := fun g _ _ _ _ _ => (none, g)
      decode := fun g _ _ => (none, g)
      bufferIteratorNext := fun g iter out _ => g.next iter out
      bufferIteratorDrop := fun g iter => (some (), { g with
        iters := Function.update g.iters iter none })
      write := fun g ptr bytes => some { g with inputPtr := ptr, input := bytes }
      readU32 := fun g ptr => some (g.readU32 ptr)
      slice := fun g ptr stop => some (g.slice ptr stop) }
  functions := fun _ => true
  instantiate := fun _ => some start

/-- Blocks are in the heap, iterators are before `nextIter`, and their buffers are
short. -/
structure Healthy (g : CopyingGuest) : Prop where
  heap : heapPtr ≤ g.top ∧ g.top < 2 ^ 32
  blocks : ∀ b ∈ g.blocks, heapPtr ≤ b.ptr ∧ b.ptr + b.len ≤ g.top
  fresh : ∀ q, g.nextIter ≤ q → g.iters q = none
  short : ∀ q rs, g.iters q = some rs → ∀ bytes ∈ rs, bytes.length ≤ 1024

section Laws

variable {g : CopyingGuest}

theorem healthy_start : Healthy start := by
  refine ⟨⟨Nat.le_refl _, by decide⟩, fun _ h => ?_, fun _ _ => rfl, fun _ _ h => ?_⟩
  · cases h
  · cases h

theorem healthy_alloc (h : Healthy g) {len align : Nat} {r : Option Nat} {g' : CopyingGuest}
    (halloc : g.alloc len align = (r, g')) : Healthy g' ∧ g'.iters = g.iters ∧
      ((∃ p, r = some p ∧ p ≠ 0 ∧ g'.blocks = ⟨p, len, align⟩ :: g.blocks ∧
          ∀ b ∈ g.blocks, b.Disjoint ⟨p, len, align⟩) ∨
        (r = some 0 ∨ r = none) ∧ g'.blocks = g.blocks) := by
  rw [alloc] at halloc
  split at halloc
  · next hlt =>
      cases halloc
      refine ⟨⟨⟨?_, hlt⟩, ?_, h.fresh, h.short⟩, rfl, .inl ⟨_, rfl, ?_, rfl, ?_⟩⟩
      · exact Nat.le_trans h.heap.1 (Nat.le_add_right ..)
      · intro b hb
        rcases List.mem_cons.1 hb with rfl | hb
        · exact ⟨h.heap.1, Nat.le_refl _⟩
        · obtain ⟨hlow, hhigh⟩ := h.blocks b hb
          exact ⟨hlow, Nat.le_trans hhigh (Nat.le_add_right ..)⟩
      · intro hzero
        have hheap := h.heap.1
        rw [hzero] at hheap
        exact absurd hheap (by decide)
      · intro b hb
        exact .inl (h.blocks b hb).2
  · cases halloc
    exact ⟨h, rfl, .inr ⟨.inl rfl, rfl⟩⟩

theorem healthy_dealloc (h : Healthy g) {b : Block} (hb : b ∈ g.blocks) :
    ∃ g', g.dealloc b.ptr b.len b.align = (some (), g') ∧ Healthy g' ∧ g'.iters = g.iters ∧
      g'.blocks = g.blocks.erase b := by
  refine ⟨_, if_pos (List.contains_iff_mem.2 hb), ⟨h.heap, ?_, h.fresh, h.short⟩, rfl, rfl⟩
  intro b' hb'
  exact h.blocks b' (List.mem_of_mem_erase hb')

/-- What was written to a block is read there. -/
theorem slice_write (h : Healthy g) {b : Block} {ptr : Nat} {bytes : Bytes} (hb : b ∈ g.blocks)
    (hroom : b.HasRoom ptr bytes.length) :
    ({ g with inputPtr := ptr, input := bytes } : CopyingGuest).slice ptr (ptr + bytes.length) =
      bytes := by
  have hlow : heapPtr ≤ ptr := Nat.le_trans (h.blocks b hb).1 hroom.1
  have hne : ptr ≠ outputPtr := by
    rintro rfl
    exact absurd hlow (by decide)
  rw [slice, if_neg hne, if_pos rfl, Nat.add_sub_cancel_left, List.take_length]

theorem healthy_function (h : Healthy g) {inPtr len out : Nat} {r : Option Int}
    {g' : CopyingGuest} (hcall : g.function inPtr len out = (r, g')) :
    Healthy g' ∧ g'.blocks = g.blocks ∧ (∀ q rs, g.iters q = some rs → g'.iters q = some rs) ∧
      (∀ n, r = some n → ∃ p l, g'.readU32 out = p ∧ g'.readU32 (out + 4) = l ∧ p + l < 2 ^ 32 ∧
        (n = 0 → g.iters p = none ∧
          g'.iters p = some (decoded (g.slice inPtr (inPtr + len))))) := by
  rw [function] at hcall
  split at hcall
  · next hlt =>
      cases hcall
      refine ⟨⟨h.heap, h.blocks, ?_, ?_⟩, rfl, ?_, ?_⟩
      · intro q hq
        have hne : q ≠ g.nextIter := Nat.ne_of_gt hq
        exact (Function.update_of_ne hne ..).trans (h.fresh q (Nat.le_of_lt hq))
      · intro q rs hq bytes hbytes
        by_cases he : q = g.nextIter
        · subst he
          cases (Function.update_self ..).symm.trans hq
          rw [decoded, List.mem_singleton] at hbytes
          rw [hbytes, List.length_take]
          exact Nat.min_le_left ..
        · exact h.short q rs ((Function.update_of_ne he ..).symm.trans hq) bytes hbytes
      · intro q rs hq
        have hne : q ≠ g.nextIter := by
          rintro rfl
          cases (h.fresh g.nextIter (Nat.le_refl _)).symm.trans hq
        exact (Function.update_of_ne hne ..).trans hq
      · rintro n -
        refine ⟨g.nextIter, 8, if_pos rfl, ?_, by omega, fun _ => ⟨h.fresh _ (Nat.le_refl _), ?_⟩⟩
        · exact (if_neg (by simp)).trans (if_pos rfl)
        · exact Function.update_self ..
  · cases hcall
    refine ⟨⟨h.heap, h.blocks, h.fresh, h.short⟩, rfl, fun _ _ hq => hq, ?_⟩
    rintro n hn
    cases hn
    refine ⟨outputPtr, 0, if_pos rfl, ?_, by decide, fun hn => absurd hn (by decide)⟩
    exact (if_neg (by simp)).trans (if_pos rfl)

theorem hasRoom_of_mem {b : Block} {ptr n : Nat} (hb : b ∈ g.blocks) (hroom : b.HasRoom ptr n) :
    g.hasRoom ptr n = true := by
  refine List.any_eq_true.2 ⟨b, hb, ?_⟩
  rw [Bool.and_eq_true, decide_eq_true_eq, decide_eq_true_eq]
  exact hroom

theorem healthy_next (h : Healthy g) {b : Block} {q out : Nat} {rs : List Bytes}
    (hb : b ∈ g.blocks) (hroom : b.HasRoom out 12) : g.iters q = some rs →
    ∃ g' p l, g.next q out = (some (), g') ∧ Healthy g' ∧ g'.blocks = g.blocks ∧
      g'.iters q = some rs.tail ∧ (∀ q', q' ≠ q → g'.iters q' = g.iters q') ∧
        g'.readU32 out = p ∧ g'.readU32 (out + 4) = l ∧
          match rs with
          | [] => p = 0
          | bytes :: _ => p ≠ 0 ∧ l = bytes.length ∧ p + l < 2 ^ 32 ∧ g'.slice p (p + l) = bytes := by
  intro hq
  rw [next, if_pos (hasRoom_of_mem hb hroom), hq]
  cases rs with
  | nil =>
      refine ⟨_, 0, 0, rfl, ⟨h.heap, h.blocks, h.fresh, h.short⟩, rfl, hq, fun _ _ => rfl,
        if_pos rfl, ?_, rfl⟩
      exact (if_neg (by simp)).trans (if_pos rfl)
  | cons bytes rest =>
      have hshort := h.short q (bytes :: rest) hq
      refine ⟨_, outputPtr, bytes.length, rfl, ⟨h.heap, h.blocks, ?_, ?_⟩, rfl, ?_, ?_, if_pos rfl,
        ?_, by decide, rfl, ?_, ?_⟩
      · intro q' hq'
        have hne : q' ≠ q := by
          rintro rfl
          cases (h.fresh q' hq').symm.trans hq
        exact (Function.update_of_ne hne ..).trans (h.fresh q' hq')
      · intro q' rs' hq'
        by_cases he : q' = q
        · subst he
          cases (Function.update_self ..).symm.trans hq'
          exact fun bytes' hbytes' => hshort bytes' (List.mem_cons_of_mem _ hbytes')
        · exact h.short q' rs' ((Function.update_of_ne he ..).symm.trans hq')
      · exact Function.update_self ..
      · intro q' hne
        exact Function.update_of_ne hne ..
      · exact (if_neg (by simp)).trans (if_pos rfl)
      · have hlen := hshort bytes (List.mem_cons_self ..)
        show 8 + bytes.length < 2 ^ 32
        omega
      · rw [slice, if_pos rfl, Nat.add_sub_cancel_left]
        exact List.take_length

/-- **The guest keeps the promises.** -/
def laws : GuestLaws copyingModule where
  Healthy := Healthy
  live := blocks
  iters := iters
  decoded := fun _ input => decoded input
  start := by
    intro n g h
    cases h
    exact ⟨healthy_start, rfl, fun _ => rfl⟩
  fits := fun h hb => Nat.lt_of_le_of_lt (h.blocks _ hb).2 h.heap.2
  readable := fun _ _ _ => ⟨_, rfl⟩
  alloc := fun h halloc => healthy_alloc h halloc
  dealloc := fun h hb => healthy_dealloc h hb
  write := by
    intro g b p bytes g' h hb hroom hwrite
    cases hwrite
    refine ⟨⟨h.heap, h.blocks, h.fresh, h.short⟩, rfl, rfl, ?_⟩
    exact congrArg some (slice_write h hb hroom)
  function := by
    intro g b name input inPtr out r g' h _ _ hslice hcall
    obtain ⟨hhealthy, hlive, hkeeps, hreturned⟩ := healthy_function h hcall
    refine ⟨hhealthy, hlive, hkeeps, fun n hn => ?_⟩
    obtain ⟨p, l, hp, hl, hlt, hnew⟩ := hreturned n hn
    refine ⟨p, l, congrArg some hp, congrArg some hl, hlt, fun hzero => ⟨(hnew hzero).1, ?_⟩⟩
    rw [(hnew hzero).2, Option.some.inj hslice]
  next := by
    intro g b q rs out h hq hb hroom
    obtain ⟨g', p, l, hnext, hhealthy, hlive, hself, hothers, hp, hl, hanswer⟩ :=
      healthy_next h hb hroom hq
    refine ⟨g', p, l, hnext, hhealthy, hlive, hself, hothers, congrArg some hp, congrArg some hl, ?_⟩
    cases rs with
    | nil => exact hanswer
    | cons bytes rest => exact ⟨hanswer.1, hanswer.2.1, hanswer.2.2.1, congrArg some hanswer.2.2.2⟩
  drop := by
    intro g q rs h hq
    refine ⟨_, rfl, ⟨h.heap, h.blocks, ?_, ?_⟩, rfl, fun q' hne => Function.update_of_ne hne ..⟩
    · intro q' hq'
      by_cases he : q' = q
      · subst he
        exact Function.update_self ..
      · exact (Function.update_of_ne he ..).trans (h.fresh q' hq')
    · intro q' rs' hq'
      by_cases he : q' = q
      · subst he
        cases (Function.update_self ..).symm.trans hq'
      · exact h.short q' rs' ((Function.update_of_ne he ..).symm.trans hq')

end Laws

end CopyingGuest

end F3Format
