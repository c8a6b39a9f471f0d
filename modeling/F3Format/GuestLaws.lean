import F3Format.BlockDiscipline
import F3Format.Lib.Exits
import F3Format.WasmRuntime

/-!
# What a guest promises

A guest that is used as it should be keeps its promises: its allocator gives out
disjoint blocks, its decoder copies the input, and each iterator goes through the
buffers of its own input, whatever else is asked of the guest. The promises are
about the blocks that the guest has given out and the iterators it has, which
`GuestLaws` names by `live` and `iters`.
-/

set_option autoImplicit false

namespace F3Format

open Lib

/-- The promises of the guest of a module. -/
structure GuestLaws {γ : Type} (M : WasmModule γ) where
  /-- The guest has only been used as it should be. -/
  Healthy : γ → Prop
  /-- The blocks that the host has been given and has not given back. -/
  live : γ → List Block
  /-- The iterators, with the buffers that each has not handed out yet. -/
  iters : γ → Nat → Option (List Bytes)
  /-- The buffers that a function decodes an input to. -/
  decoded : String → Bytes → List Bytes
  start : ∀ {n g}, M.instantiate n = some g → Healthy g ∧ live g = [] ∧ ∀ q, iters g q = none
  /-- Blocks are within the address space, and can be read. -/
  fits : ∀ {g b}, Healthy g → b ∈ live g → b.ptr + b.len < 2 ^ 32
  readable : ∀ {g b p}, Healthy g → b ∈ live g → b.HasRoom p 4 →
    ∃ n, M.guest.readU32 g p = some n
  /-- A null pointer says that there is no memory. -/
  alloc : ∀ {g len align r g'}, Healthy g → M.guest.alloc g len align = (r, g') →
    Healthy g' ∧ iters g' = iters g ∧
      ((∃ p, r = some p ∧ p ≠ 0 ∧ live g' = ⟨p, len, align⟩ :: live g ∧
          ∀ b ∈ live g, b.Disjoint ⟨p, len, align⟩) ∨
        (r = some 0 ∨ r = none) ∧ live g' = live g)
  dealloc : ∀ {g b}, Healthy g → b ∈ live g →
    ∃ g', M.guest.dealloc g b.ptr b.len b.align = (some (), g') ∧ Healthy g' ∧
      iters g' = iters g ∧ live g' = (live g).erase b
  write : ∀ {g b p bytes g'}, Healthy g → b ∈ live g → b.HasRoom p bytes.length →
    M.guest.write g p bytes = some g' →
      Healthy g' ∧ iters g' = iters g ∧ live g' = live g ∧
        M.guest.slice g' p (p + bytes.length) = some bytes
  /-- A function leaves the address and the length of its output in the block, here
  of a new iterator. -/
  function : ∀ {g b name input inPtr out r g'}, Healthy g → b ∈ live g → b.HasRoom out 8 →
    M.guest.slice g inPtr (inPtr + input.length) = some input →
    M.guest.function g name inPtr input.length out = (r, g') →
      Healthy g' ∧ live g' = live g ∧ (∀ q rs, iters g q = some rs → iters g' q = some rs) ∧
        (∀ n, r = some n → ∃ p l, M.guest.readU32 g' out = some p ∧
          M.guest.readU32 g' (out + 4) = some l ∧ p + l < 2 ^ 32 ∧
            (n = 0 → iters g p = none ∧ iters g' p = some (decoded name input)))
  /-- An iterator leaves the address and the length of its next buffer in the block,
  and the address of its owner, or a null pointer at its end. -/
  next : ∀ {g b q rs out}, Healthy g → iters g q = some rs → b ∈ live g → b.HasRoom out 12 →
    ∃ g' p l, M.guest.bufferIteratorNext g q out (out + 8) = (some (), g') ∧ Healthy g' ∧
      live g' = live g ∧ iters g' q = some rs.tail ∧ (∀ q', q' ≠ q → iters g' q' = iters g q') ∧
        M.guest.readU32 g' out = some p ∧ M.guest.readU32 g' (out + 4) = some l ∧
          match rs with
          | [] => p = 0
          | bytes :: _ => p ≠ 0 ∧ l = bytes.length ∧ p + l < 2 ^ 32 ∧
              M.guest.slice g' p (p + l) = some bytes
  drop : ∀ {g q rs}, Healthy g → iters g q = some rs →
    ∃ g', M.guest.bufferIteratorDrop g q = (some (), g') ∧ Healthy g' ∧ live g' = live g ∧
      ∀ q', q' ≠ q → iters g' q' = iters g q'

namespace GuestLaws

variable {γ : Type} {M : WasmModule γ} (L : GuestLaws M)

/-- The guest still serves its iterators, and its blocks are out unless `freed`. -/
structure Kept (freed : Prop) (g g' : γ) : Prop where
  healthy : L.Healthy g'
  iters : ∀ q rs, L.iters g q = some rs → L.iters g' q = some rs
  live : ¬ freed → ∀ b ∈ L.live g, b ∈ L.live g'

/-- The cached block is out, and is not shorter than the length that is remembered. -/
def Cached (s : Instance γ) (ptr : Nat) (b : Block) : Prop :=
  b ∈ L.live s.guest ∧ b.ptr = ptr ∧ s.cachedAllocPtr = some ptr ∧
    ∃ len, s.cachedAllocLen = some len ∧ 4 * 3 ≤ len ∧ len ≤ b.len

/-- An instance that can be called: it is new, or has its block. -/
def Ready (s : Instance γ) : Prop :=
  L.Healthy s.guest ∧
    ((s.cachedAllocPtr = none ∧ s.cachedAllocLen = none) ∨ ∃ ptr b, L.Cached s ptr b)

/-- The cached block is out with exactly the length that is remembered. -/
def Remembered (s : Instance γ) : Prop :=
  ∃ b ∈ L.live s.guest, s.cachedAllocPtr = some b.ptr ∧ s.cachedAllocLen = some b.len ∧
    b.align = inputAlignment

variable {L} {freed : Prop} {g g' g'' : γ}

theorem Kept.refl (h : L.Healthy g) : L.Kept freed g g :=
  ⟨h, fun _ _ hq => hq, fun _ _ hb => hb⟩

theorem Kept.trans (h : L.Kept freed g g') (h' : L.Kept freed g' g'') : L.Kept freed g g'' :=
  ⟨h'.healthy, fun q rs hq => h'.iters q rs (h.iters q rs hq),
    fun hf b hb => h'.live hf b (h.live hf b hb)⟩

theorem Kept.of_eq (h : L.Healthy g') (hiters : L.iters g' = L.iters g)
    (hlive : L.live g' = L.live g) : L.Kept freed g g' := by
  refine ⟨h, fun q rs hq => ?_, fun _ b hb => ?_⟩
  · rw [hiters]
    exact hq
  · rw [hlive]
    exact hb

/-! ## Calls of an instance -/

section Calls

open Instance

variable {s : Instance γ} {len l ptr : Nat} {b : Block}

/-- How a call fails: with an `Err`, and the guest is as it was. -/
def Errs (L : GuestLaws M) (freed : Prop) (g : γ) (f : Fault) (t : Instance γ) : Prop :=
  (∃ e, f = .err e) ∧ L.Kept freed g t.guest

/-- `add32` within a block. -/
theorem exits_add32 {n m : Nat} {Q : Nat → Instance γ → Prop} {E : Fault → Instance γ → Prop}
    (hlt : n + m < 2 ^ 32) (h : Q (n + m) s) : Act.Exits (Act.lift (add32 n m)) s Q E := by
  have hadd : add32 n m = .ok (n + m) := if_pos hlt
  rw [hadd]
  exact Act.exits_pure h

theorem exits_newBlock (freed : Prop) (len : Nat) (hs : L.Healthy s.guest) (hl : s.cachedAllocLen = some l)
    (hmin : 4 * 3 ≤ l) (hle : l ≤ len) :
    Act.Exits (newBlock M.guest len) s
      (fun ptr t => L.Kept freed s.guest t.guest ∧ ∃ b, L.Cached t ptr b ∧ len ≤ b.len)
      (L.Errs freed s.guest) := by
  rw [Act.Exits]
  cases halloc : M.guest.alloc s.guest len inputAlignment with
  | mk r g =>
      obtain ⟨hhealthy, hiters, hlive⟩ := L.alloc hs halloc
      have hkept : L.Kept freed s.guest g := by
        rcases hlive with ⟨p, -, -, hlive, -⟩ | ⟨-, hlive⟩
        · refine ⟨hhealthy, fun q rs hq => ?_, fun _ b hb => ?_⟩
          · rw [hiters]
            exact hq
          · rw [hlive]
            exact List.mem_cons_of_mem _ hb
        · exact Kept.of_eq hhealthy hiters hlive
      cases r with
      | none =>
          have hcall : newBlock M.guest len s = .error trap { s with guest := g } := by
            refine Act.bind_of_error _ ?_
            rw [allocCall, halloc]
          rw [hcall]
          exact ⟨⟨_, rfl⟩, hkept⟩
      | some p =>
          have hcall : newBlock M.guest len s =
              ensureAllocated p ⟨g, some p, s.cachedAllocLen,
                s.events ++ [.alloc ⟨p, len, inputAlignment⟩]⟩ := by
            have halloc' : allocCall M.guest len s = .ok p
                { s with
                  guest := g, events := s.events ++ [.alloc ⟨p, len, inputAlignment⟩] } := by
              rw [allocCall, halloc]
            rw [newBlock, Act.bind_of_ok _ halloc']
            rfl
          rw [hcall, ensureAllocated]
          by_cases hp : p = 0
          · rw [if_neg (not_not.2 hp)]
            exact ⟨⟨_, rfl⟩, hkept⟩
          · rw [if_pos hp]
            refine ⟨hkept, ⟨p, len, inputAlignment⟩, ⟨?_, rfl, rfl, l, hl, hmin, hle⟩, Nat.le_refl len⟩
            rcases hlive with ⟨p', hp', -, hlive, -⟩ | ⟨hr | hr, -⟩
            · cases hp'
              show _ ∈ L.live g
              rw [hlive]
              exact List.mem_cons_self ..
            · exact absurd (Option.some.inj hr) hp
            · cases hr

/-- **The block of a call is out, and long enough.** -/
theorem exits_allocPtr (hs : L.Ready s) (hmin : 4 * 3 ≤ len)
    (hgrows : s.Grows len → L.Remembered s) :
    Act.Exits (allocPtr M.guest len) s
      (fun ptr t => L.Kept (s.Grows len) s.guest t.guest ∧ ∃ b, L.Cached t ptr b ∧ len ≤ b.len)
      (L.Errs (s.Grows len) s.guest) := by
  obtain ⟨hhealthy, ⟨hptr, hlen⟩ | ⟨ptr, b, hb, hbptr, hptr, l, hlen, hmin', hle⟩⟩ := hs
  · -- the first call
    obtain ⟨guest, cachedPtr, cachedLen, events⟩ := s
    cases hptr
    cases hlen
    rw [Act.Exits, allocPtr_first]
    exact exits_newBlock (s := ⟨guest, none, some len, events⟩) _ len hhealthy rfl hmin (Nat.le_refl len)
  · obtain ⟨guest, cachedPtr, cachedLen, events⟩ := s
    cases hptr
    cases hlen
    by_cases hlt : l < len
    · -- the block is given back
      obtain ⟨b', hb', hptr', hlen', halign⟩ := hgrows ⟨ptr, l, rfl, rfl, hlt⟩
      cases hptr'
      cases hlen'
      obtain ⟨g', hdealloc, hhealthy', hiters, hlive⟩ := L.dealloc hhealthy hb'
      have hcall : deallocCall M.guest b'.ptr b'.len ⟨guest, some b'.ptr, some b'.len, events⟩ =
          .ok () ⟨g', some b'.ptr, some b'.len,
            events ++ [.dealloc ⟨b'.ptr, b'.len, inputAlignment⟩]⟩ := by
        rw [deallocCall, ← halign, hdealloc]
      rw [Act.Exits, allocPtr_grows hlt, Act.bind_of_ok _ hcall]
      have hfreed : ∀ {g''}, L.Kept True g' g'' →
          L.Kept (Instance.Grows ⟨guest, some b'.ptr, some b'.len, events⟩ len) guest g'' := by
        intro g'' h
        refine ⟨h.healthy, fun q rs hq => h.iters q rs ?_, fun hnot => ?_⟩
        · rw [hiters]
          exact hq
        · exact absurd ⟨b'.ptr, b'.len, rfl, rfl, hlt⟩ hnot
      have hnew := exits_newBlock True len
        (s := ⟨g', some b'.ptr, some b'.len,
          events ++ [.dealloc ⟨b'.ptr, b'.len, inputAlignment⟩]⟩) hhealthy' rfl hmin' (Nat.le_of_lt hlt)
      exact hnew.mono (fun _ _ h => ⟨hfreed h.1, h.2⟩) fun _ _ h => ⟨h.1, hfreed h.2⟩
    · rw [Act.Exits, allocPtr_reuse hlt, ensureAllocated]
      by_cases hp : ptr = 0
      · rw [if_neg (not_not.2 hp)]
        exact ⟨⟨_, rfl⟩, Kept.refl hhealthy⟩
      · rw [if_pos hp]
        exact ⟨Kept.refl hhealthy, b, ⟨hb, hbptr, rfl, l, rfl, hmin', hle⟩,
          Nat.le_trans (Nat.le_of_not_lt hlt) hle⟩

/-- A word of a block is read. -/
theorem exits_readU32 {p n : Nat} {Q : Nat → Instance γ → Prop} {E : Fault → Instance γ → Prop}
    (hread : M.guest.readU32 s.guest p = some n) (h : Q n s) :
    Act.Exits (readU32 M.guest p) s Q E := by
  rw [Act.Exits, readU32, hread]
  exact h

/-- The output of a call, if it is within the memory. -/
theorem exits_outputSlice {p n : Nat} {Q : Bytes → Instance γ → Prop}
    {E : Fault → Instance γ → Prop} (hlt : p + n < 2 ^ 32)
    (hsome : ∀ bytes, M.guest.slice s.guest p (p + n) = some bytes → Q bytes s)
    (hnone : M.guest.slice s.guest p (p + n) = none →
      E (anyhow "output slice out of bounds") s) :
    Act.Exits (outputSlice M.guest p n) s Q E := by
  have hadd : add32 p n = .ok (p + n) := if_pos hlt
  cases h : M.guest.slice s.guest p (p + n) with
  | some bytes =>
      have hslice : outputSlice M.guest p n s = .ok bytes s := by
        rw [outputSlice, hadd]
        refine Eq.trans (Act.lift_ok_bind _ _ _) ?_
        simp only [h]
      rw [Act.Exits, hslice]
      exact hsome bytes h
  | none =>
      have hslice : outputSlice M.guest p n s =
          .error (anyhow "output slice out of bounds") s := by
        rw [outputSlice, hadd]
        refine Eq.trans (Act.lift_ok_bind _ _ _) ?_
        simp only [h]
      rw [Act.Exits, hslice]
      exact hnone h

/-- What a call left in its block, and the output there. -/
theorem exits_returnValues {p n : Nat} {Q : Nat × Nat × Bytes → Instance γ → Prop}
    {E : Fault → Instance γ → Prop} (hptr : ptr + 4 < 2 ^ 32)
    (hp : M.guest.readU32 s.guest ptr = some p) (hn : M.guest.readU32 s.guest (ptr + 4) = some n)
    (hlt : p + n < 2 ^ 32) (hok : ∀ bytes, Q (p, n, bytes) s)
    (herror : E (anyhow "output slice out of bounds") s) :
    Act.Exits (returnValues M.guest ptr) s Q E := by
  refine Act.exits_bind (Q := fun a t => p = a ∧ s = t) (exits_readU32 hp ⟨rfl, rfl⟩) ?_
  rintro _ _ ⟨rfl, rfl⟩
  refine Act.exits_bind (Q := fun a t => a = ptr + 4 ∧ s = t) (exits_add32 hptr ⟨rfl, rfl⟩) ?_
  rintro _ _ ⟨rfl, rfl⟩
  refine Act.exits_bind (Q := fun a t => n = a ∧ s = t) (exits_readU32 hn ⟨rfl, rfl⟩) ?_
  rintro _ _ ⟨rfl, rfl⟩
  refine Act.exits_bind (Q := fun _ t => s = t)
    (exits_outputSlice hlt (fun _ _ => rfl) fun _ => herror) ?_
  rintro bytes _ rfl
  exact Act.exits_pure (hok bytes)

/-- The rest of a call after its block: the input is written, the function is called,
and its output taken. -/
theorem exits_function (freed : Prop) {name : String} {input : Bytes} (hs : L.Healthy s.guest)
    (hb : L.Cached s ptr b) (hlen : input.length + 4 * 3 ≤ b.len) :
    Act.Exits (do
        let inPtr ← Act.lift (add32 ptr (4 * 3))
        memoryWrite M.guest ptr (4 * 3) input
        if M.guest.functions name = false then throw (anyhow s!"function not found: {name}")
        else do
          let errno ← exportCall fun g => M.guest.function g name inPtr input.length ptr
          let (outPtr, _, outBytes) ← returnValues M.guest ptr
          if errno = 0 then pure (outPtr, ptr) else throw (errorNumber errno outBytes)) s
      (fun r t => L.Kept freed s.guest t.guest ∧ r.2 = ptr ∧ L.Cached t ptr b ∧
        L.iters s.guest r.1 = none ∧ L.iters t.guest r.1 = some (L.decoded name input))
      (L.Errs freed s.guest) := by
  obtain ⟨hlive, hbptr, hptr, l, hl, hmin, hle⟩ := hb
  have hfits := L.fits hs hlive
  refine Act.exits_bind (Q := fun a t => a = ptr + 4 * 3 ∧ s = t)
    (exits_add32 (by omega) ⟨rfl, rfl⟩) ?_
  rintro _ _ ⟨rfl, rfl⟩
  -- the input is in the block, and nothing else has changed
  refine Act.exits_bind (Q := fun _ t => L.Healthy t.guest ∧ L.iters t.guest = L.iters s.guest ∧
      L.live t.guest = L.live s.guest ∧ t.cachedAllocPtr = some ptr ∧ t.cachedAllocLen = some l ∧
      M.guest.slice t.guest (ptr + 4 * 3) (ptr + 4 * 3 + input.length) = some input) ?_ ?_
  · rw [Act.Exits, memoryWrite]
    cases hwrite : M.guest.write s.guest (ptr + 4 * 3) input with
    | none => exact ⟨⟨_, rfl⟩, Kept.refl hs⟩
    | some g =>
        have hroom : b.HasRoom (ptr + 4 * 3) input.length := ⟨by omega, by omega⟩
        obtain ⟨hhealthy, hiters, hlive', hslice⟩ := L.write hs hlive hroom hwrite
        exact ⟨hhealthy, hiters, hlive', hptr, hl, hslice⟩
  rintro _ t ⟨ht, hiters, hlive', htptr, htl, hslice⟩
  have hkept : L.Kept freed s.guest t.guest := Kept.of_eq ht hiters hlive'
  refine Act.exits_if (fun _ => Act.exits_throw ⟨⟨_, rfl⟩, hkept⟩) fun _ => ?_
  -- the function leaves a new iterator, or fails
  have hlivet : b ∈ L.live t.guest := by
    rw [hlive']
    exact hlive
  have hroom : b.HasRoom ptr 8 := ⟨by omega, by omega⟩
  refine Act.exits_bind (Q := fun n u => L.Kept freed s.guest u.guest ∧ L.Cached u ptr b ∧
      ∃ p m, M.guest.readU32 u.guest ptr = some p ∧ M.guest.readU32 u.guest (ptr + 4) = some m ∧
        p + m < 2 ^ 32 ∧ (n = 0 → L.iters s.guest p = none ∧
          L.iters u.guest p = some (L.decoded name input))) ?_ ?_
  · rw [Act.Exits, exportCall]
    cases hcall : M.guest.function t.guest name (ptr + 4 * 3) input.length ptr with
    | mk r g =>
        obtain ⟨hhealthy, hlive'', hkeeps, hreturned⟩ := L.function ht hlivet hroom hslice hcall
        have hkept' : L.Kept freed t.guest g :=
          ⟨hhealthy, hkeeps, fun _ b hb => by rw [hlive'']; exact hb⟩
        cases r with
        | none => exact ⟨⟨_, rfl⟩, hkept.trans hkept'⟩
        | some n =>
            obtain ⟨p, m, hp, hm, hlt, hnew⟩ := hreturned n rfl
            refine ⟨hkept.trans hkept', ⟨?_, hbptr, htptr, l, htl, hmin, hle⟩, p, m, hp, hm, hlt, ?_⟩
            · show b ∈ L.live g
              rw [hlive'']
              exact hlivet
            · intro hn
              rw [← hiters]
              exact hnew hn
  rintro n u ⟨hku, hbu, p, m, hp, hm, hlt, hnew⟩
  refine Act.exits_bind (Q := fun v w => p = v.1 ∧ u = w)
    (exits_returnValues (by omega) hp hm hlt (fun _ => ⟨rfl, rfl⟩) ⟨⟨_, rfl⟩, hku⟩) ?_
  rintro ⟨_, _, bytes⟩ _ ⟨rfl, rfl⟩
  refine Act.exits_if (fun hn => Act.exits_pure ⟨hku, rfl, hbu, hnew hn⟩) fun _ => ?_
  refine Act.exits_throw ⟨?_, hku⟩
  rw [errorNumber]
  split
  · exact ⟨_, rfl⟩
  · exact ⟨_, rfl⟩

/-- **A call returns a new iterator over its own buffers, whose block is out, and the
iterators and blocks of other calls are left alone.** Only a call that needs a longer
block gives one back. -/
theorem exits_callGenericFunction (name : String) (input : Bytes) (hs : L.Ready s)
    (hgrows : ∀ len, needed M.guest (.genericFunction name input) = some len →
      s.Grows len → L.Remembered s) :
    Act.Exits (callGenericFunction M.guest name input) s
      (fun r t => L.Kept (∃ len, needed M.guest (.genericFunction name input) = some len ∧
          s.Grows len) s.guest t.guest ∧ (∃ b, L.Cached t r.2 b) ∧
        L.iters s.guest r.1 = none ∧ L.iters t.guest r.1 = some (L.decoded name input))
      (L.Errs (∃ len, needed M.guest (.genericFunction name input) = some len ∧
        s.Grows len) s.guest) := by
  rw [callGenericFunction]
  cases hlen : u32TryFrom (input.length + 4 * 3) with
  | error f =>
      refine ⟨?_, Kept.refl hs.1⟩
      rw [u32TryFrom] at hlen
      split at hlen
      · cases hlen
      · cases hlen
        exact ⟨_, rfl⟩
  | ok len =>
      have hneeded : needed M.guest (.genericFunction name input) = some len := by
        rw [needed, hlen]
        rfl
      have hlen' := of_u32TryFrom hlen
      have hfreed : ∀ {g g'}, L.Kept (s.Grows len) g g' → L.Kept (∃ len,
          needed M.guest (.genericFunction name input) = some len ∧ s.Grows len) g g' :=
        fun h => ⟨h.healthy, h.iters, fun hnot => h.live fun hg => hnot ⟨len, hneeded, hg⟩⟩
      refine Act.exits_bind (x := allocPtr M.guest len)
        ((exits_allocPtr hs (by omega) (hgrows len hneeded)).mono (fun _ _ h => h)
          fun _ _ h => ⟨h.1, hfreed h.2⟩) ?_
      rintro ptr t ⟨hkept, b, hb, hle⟩
      refine (exits_function (s.Grows len) hkept.healthy hb (by omega)).mono ?_ ?_
      · rintro ⟨q, a⟩ u ⟨hkept', rfl, hbu, hfresh, hnew⟩
        refine ⟨hfreed (hkept.trans hkept'), ⟨b, hbu⟩, ?_, hnew⟩
        cases hq : L.iters s.guest q with
        | none => rfl
        | some rs => exact absurd ((hkept.iters q rs hq).symm.trans hfresh) (by simp)
      · rintro f u ⟨herr, hkept'⟩
        exact ⟨herr, hfreed (hkept.trans hkept')⟩

end Calls

/-! ## Steps of an iterator -/

section Iterators

open Instance

variable {s : Instance γ} {q ptr : Nat} {rs : List Bytes} {b : Block}

/-- **An iterator with room in a block that is out gives its next buffer.** -/
theorem exits_bufferIteratorNext (hs : L.Healthy s.guest) (hq : L.iters s.guest q = some rs)
    (hb : b ∈ L.live s.guest) (hroom : b.HasRoom ptr 12) :
    Act.Exits (bufferIteratorNext M.guest q ptr) s
      (fun answer t => answer = rs.head? ∧ L.Healthy t.guest ∧ L.live t.guest = L.live s.guest ∧
        L.iters t.guest q = some rs.tail ∧
        (∀ q', q' ≠ q → L.iters t.guest q' = L.iters s.guest q') ∧
        t.cachedAllocPtr = s.cachedAllocPtr ∧ t.cachedAllocLen = s.cachedAllocLen)
      (fun _ _ => False) := by
  obtain ⟨g, p, l, hnext, hhealthy, hlive, hself, hothers, hp, hl, hanswer⟩ :=
    L.next hs hq hb hroom
  have hfits := L.fits hs hb
  have hroom' := hroom
  obtain ⟨hle, hlt⟩ := hroom
  have hbg : b ∈ L.live g := by
    rw [hlive]
    exact hb
  have hroom8 : b.HasRoom (ptr + 8) 4 := ⟨by omega, by omega⟩
  obtain ⟨owner, howner⟩ := L.readable hhealthy hbg hroom8
  refine Act.exits_bind (Q := fun a t => a = ptr + 8 ∧ s = t) (exits_add32 (by omega) ⟨rfl, rfl⟩) ?_
  rintro _ _ ⟨rfl, rfl⟩
  refine Act.exits_bind (Q := fun _ t => t = { s with guest := g }) ?_ ?_
  · rw [Act.Exits, exportCall, hnext]
  rintro _ _ rfl
  refine Act.exits_bind (Q := fun a t => p = a ∧ t = { s with guest := g })
    (exits_readU32 hp ⟨rfl, rfl⟩) ?_
  rintro _ _ ⟨rfl, rfl⟩
  refine Act.exits_bind (Q := fun a t => a = ptr + 4 ∧ t = { s with guest := g })
    (exits_add32 (by omega) ⟨rfl, rfl⟩) ?_
  rintro _ _ ⟨rfl, rfl⟩
  refine Act.exits_bind (Q := fun a t => l = a ∧ t = { s with guest := g })
    (exits_readU32 hl ⟨rfl, rfl⟩) ?_
  rintro _ _ ⟨rfl, rfl⟩
  refine Act.exits_bind (Q := fun _ t => t = { s with guest := g }) (exits_readU32 howner rfl) ?_
  rintro _ _ rfl
  cases rs with
  | nil =>
      refine Act.exits_if (fun _ => ?_) fun hne => absurd hanswer hne
      exact Act.exits_pure ⟨rfl, hhealthy, hlive, hself, hothers, rfl, rfl⟩
  | cons bytes rs =>
      obtain ⟨hne, rfl, hlt', hslice⟩ := hanswer
      refine Act.exits_if (fun hzero => absurd hzero hne) fun _ => ?_
      refine Act.exits_bind (Q := fun out t => bytes = out ∧ t = { s with guest := g })
        (exits_outputSlice hlt' (fun out hout => ?_) fun hnone => ?_) ?_
      · exact ⟨Option.some.inj (hslice.symm.trans hout), rfl⟩
      · cases hnone.symm.trans hslice
      · rintro _ _ ⟨rfl, rfl⟩
        exact Act.exits_pure ⟨rfl, hhealthy, hlive, hself, hothers, rfl, rfl⟩

theorem exits_bufferIteratorDrop (hs : L.Healthy s.guest) (hq : L.iters s.guest q = some rs) :
    Act.Exits (bufferIteratorDrop M.guest q) s
      (fun _ t => L.Healthy t.guest ∧ L.live t.guest = L.live s.guest ∧
        (∀ q', q' ≠ q → L.iters t.guest q' = L.iters s.guest q') ∧
        t.cachedAllocPtr = s.cachedAllocPtr ∧ t.cachedAllocLen = s.cachedAllocLen)
      (fun _ _ => False) := by
  obtain ⟨g, hdrop, hhealthy, hlive, hothers⟩ := L.drop hs hq
  rw [Act.Exits, bufferIteratorDrop, exportCall, hdrop]
  exact ⟨hhealthy, hlive, hothers, rfl, rfl⟩

end Iterators

end GuestLaws

end F3Format
