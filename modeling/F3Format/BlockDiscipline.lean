import F3Format.WasmInstance

/-!
# The scratch block of an instance

An instance gives its scratch block back when a call needs a longer one, but keeps
the length of its first block. From then on the length it remembers is not that
of the block it has: `run_disciplined_iff` shows that the blocks of the guest are
used as they should be exactly in the runs in which no call needs a longer block.
-/

set_option autoImplicit false

namespace F3Format

open Lib

/-- A call of an instance. -/
inductive InstanceCall where
  | scalarFunction (name : String) (input : Bytes)
  | genericFunction (name : String) (input : Bytes)
  | init (input kwargs : Bytes)
  | decode (decoder : Nat)

namespace Instance

variable {γ : Type} (G : Guest γ)

/-- The call, without its result. -/
def call : InstanceCall → Act Fault (Instance γ) Unit
  | .scalarFunction name input => do
      let _ ← callScalarFunction G name input
      pure ()
  | .genericFunction name input => do
      let _ ← callGenericFunction G name input
      pure ()
  | .init input kwargs => do
      let _ ← callInit G input kwargs
      pure ()
  | .decode decoder => do
      let _ ← callDecode G decoder
      pure ()

/-- The length of the block a call asks for, if it gets that far. -/
def needed : InstanceCall → Option Nat
  | .scalarFunction name input =>
      if G.functions name = false then none
      else (u32TryFrom (input.length + 4 * 2)).toOption
  | .genericFunction _ input => (u32TryFrom (input.length + 4 * 3)).toOption
  | .init input kwargs => (u32TryFrom (input.length + kwargs.length + 4 * 3)).toOption
  | .decode _ => some (4 * 3)

/-- The instance has a block, and is asked for a longer one. -/
def Grows (s : Instance γ) (len : Nat) : Prop :=
  ∃ ptr cachedLen, s.cachedAllocPtr = some ptr ∧ s.cachedAllocLen = some cachedLen ∧
    cachedLen < len

/-- The instance after some calls, whether they succeed or not. -/
def runCalls (s : Instance γ) : List InstanceCall → Instance γ
  | [] => s
  | c :: cs => runCalls (Act.left (call G c s)) cs

/-- No call of the run needs a longer block than the instance has. -/
def NeverGrows (s : Instance γ) : List InstanceCall → Prop
  | [] => True
  | c :: cs => (∀ len, needed G c = some len → ¬ s.Grows len) ∧
      NeverGrows (Act.left (call G c s)) cs

/-! ## Sound instances -/

/-- The block that is out is the cached one, with the cached length. -/
def Sound (s : Instance γ) : Prop :=
  match s.cachedAllocPtr with
  | some ptr => ∃ len, s.cachedAllocLen = some len ∧
      replay s.events = some [⟨ptr, len, inputAlignment⟩]
  | none => replay s.events = some []

/-- The cached block is out, and has at least this length. -/
def Holds (ptr len : Nat) (s : Instance γ) : Prop :=
  ∃ cachedLen, s.cachedAllocPtr = some ptr ∧ s.cachedAllocLen = some cachedLen ∧ len ≤ cachedLen ∧
    replay s.events = some [⟨ptr, cachedLen, inputAlignment⟩]

/-- The discipline is broken, or the cached block is not out. -/
def Broken (s : Instance γ) : Prop :=
  replay s.events = none ∨ ∃ ptr len live, s.cachedAllocPtr = some ptr ∧
    s.cachedAllocLen = some len ∧ replay s.events = some live ∧
      (⟨ptr, len, inputAlignment⟩ : Block) ∉ live

theorem sound_new (g : γ) : (new g).Sound := replay_nil

theorem Holds.sound {s : Instance γ} {ptr len : Nat} (h : s.Holds ptr len) : s.Sound := by
  obtain ⟨cachedLen, hptr, hlen, -, hlive⟩ := h
  rw [Sound, hptr]
  exact ⟨cachedLen, hlen, hlive⟩

theorem Holds.mono {s : Instance γ} {ptr len len' : Nat} (h : s.Holds ptr len) (hle : len' ≤ len) :
    s.Holds ptr len' := by
  obtain ⟨cachedLen, hptr, hlen, hfits, hlive⟩ := h
  exact ⟨cachedLen, hptr, hlen, Nat.le_trans hle hfits, hlive⟩

/-! ## What the parts of a call keep -/

section Parts

variable {G} {I : Instance γ → Prop}

/-- What does not depend on the store is kept by every call of an export. -/
theorem maintains_exportCall {α : Type} (hI : ∀ s g, I s → I { s with guest := g })
    (f : γ → Option α × γ) : Act.Maintains I (fun _ => True) (exportCall f) := by
  intro s hs
  rw [exportCall]
  split
  · exact ⟨fun _ _ => trivial, hI s _ hs⟩
  · exact ⟨fun _ _ => trivial, hI s _ hs⟩

theorem maintains_readU32 (ptr : Nat) : Act.Maintains I (fun _ => True) (readU32 G ptr) := by
  intro s hs
  rw [readU32]
  split
  · exact ⟨fun _ _ => trivial, hs⟩
  · exact ⟨fun _ _ => trivial, hs⟩

theorem maintains_outputSlice (ptr len : Nat) :
    Act.Maintains I (fun _ => True) (outputSlice G ptr len) := by
  refine Act.maintains_bind (Act.maintains_lift fun _ _ => trivial) fun stop _ => ?_
  intro s hs
  dsimp only
  split
  · exact ⟨fun _ _ => trivial, hs⟩
  · exact ⟨fun _ _ => trivial, hs⟩

theorem maintains_returnValues (allocPtr : Nat) :
    Act.Maintains I (fun _ => True) (returnValues G allocPtr) := by
  refine Act.maintains_bind (maintains_readU32 allocPtr) fun outPtr _ => ?_
  refine Act.maintains_bind (Act.maintains_lift fun _ _ => trivial) fun at4 _ => ?_
  refine Act.maintains_bind (maintains_readU32 at4) fun outLen _ => ?_
  refine Act.maintains_bind (maintains_outputSlice outPtr outLen) fun outBytes _ => ?_
  exact Act.maintains_pure trivial

theorem maintains_memoryWrite {len : Nat} {ptr : Nat}
    (hwrite : ∀ s g n, n ≤ len → I s →
      I { s with guest := g, events := s.events ++ [.write ptr n] }) {offset : Nat} {bytes : Bytes}
    (hfits : offset + bytes.length ≤ len) :
    Act.Maintains I (fun _ => True) (memoryWrite G ptr offset bytes) := by
  intro s hs
  rw [memoryWrite]
  split
  · exact ⟨fun _ _ => trivial, hwrite s _ _ hfits hs⟩
  · exact ⟨fun _ _ => trivial, hs⟩

/-- What a call does with its block: it calls exports, and writes to the block no
more than it has asked for. -/
def UsesBlock {α : Type} (len : Nat) (rest : Nat → Act Fault (Instance γ) α) : Prop :=
  ∀ (ptr : Nat) (I : Instance γ → Prop), (∀ s g, I s → I { s with guest := g }) →
    (∀ s g n, n ≤ len → I s → I { s with guest := g, events := s.events ++ [.write ptr n] }) →
      Act.Maintains I (fun _ => True) (rest ptr)

/-- The end of a call: an export is called, and its output taken. -/
theorem maintains_output {α : Type} (hI : ∀ s g, I s → I { s with guest := g })
    (f : γ → Option Int × γ) (ptr : Nat) {k : Int → Nat × Nat × Bytes → Act Fault (Instance γ) α}
    (hk : ∀ n v, Act.Maintains I (fun _ => True) (k n v)) :
    Act.Maintains I (fun _ => True) (do
      let errno ← exportCall f
      let v ← returnValues G ptr
      k errno v) := by
  refine Act.maintains_bind (maintains_exportCall hI f) fun errno _ => ?_
  exact Act.maintains_bind (maintains_returnValues ptr) fun v _ => hk errno v

theorem maintains_if {α : Type} {p : Prop} [Decidable p] {x y : Act Fault (Instance γ) α}
    (hx : Act.Maintains I (fun _ => True) x) (hy : Act.Maintains I (fun _ => True) y) :
    Act.Maintains I (fun _ => True) (if p then x else y) := by
  split
  · exact hx
  · exact hy

theorem maintains_fault {α : Type} (e : Fault) :
    Act.Maintains I (fun _ => True) (throw e : Act Fault (Instance γ) α) := Act.maintains_throw e

theorem maintains_value {α : Type} (a : α) :
    Act.Maintains I (fun _ => True) (pure a : Act Fault (Instance γ) α) :=
  Act.maintains_pure trivial

theorem maintains_add32 (a b : Nat) :
    Act.Maintains I (fun _ => True) (Act.lift (add32 a b) : Act Fault (Instance γ) Nat) :=
  Act.maintains_lift fun _ _ => trivial

theorem of_u32TryFrom {n len : Nat} (h : u32TryFrom n = .ok len) : n = len := by
  rw [u32TryFrom] at h
  split at h
  · exact Except.ok.inj h
  · cases h

theorem usesBlock_scalarFunction {name : String} {input : Bytes} {len : Nat}
    (hname : G.functions name ≠ false) (h : u32TryFrom (input.length + 4 * 2) = .ok len) :
    ∃ rest, callScalarFunction G name input = (allocPtr G len >>= rest) ∧ UsesBlock len rest := by
  have hlen := of_u32TryFrom h
  rw [callScalarFunction, if_neg hname, h]
  refine ⟨_, rfl, ?_⟩
  intro ptr I hstore hwrite
  refine Act.maintains_bind (maintains_add32 _ _) fun inPtr _ => ?_
  refine Act.maintains_bind (maintains_memoryWrite hwrite (by omega)) fun _ _ => ?_
  exact maintains_output hstore _ _ fun _ _ =>
    maintains_if (maintains_value _) (maintains_fault _)

theorem usesBlock_genericFunction {name : String} {input : Bytes} {len : Nat}
    (h : u32TryFrom (input.length + 4 * 3) = .ok len) :
    ∃ rest, callGenericFunction G name input = (allocPtr G len >>= rest) ∧ UsesBlock len rest := by
  have hlen := of_u32TryFrom h
  rw [callGenericFunction, h]
  refine ⟨_, rfl, ?_⟩
  intro ptr I hstore hwrite
  refine Act.maintains_bind (maintains_add32 _ _) fun inPtr _ => ?_
  refine Act.maintains_bind (maintains_memoryWrite hwrite (by omega)) fun _ _ => ?_
  refine maintains_if (maintains_fault _) ?_
  exact maintains_output hstore _ _ fun _ _ =>
    maintains_if (maintains_value _) (maintains_fault _)

theorem usesBlock_init {input kwargs : Bytes} {len : Nat}
    (h : u32TryFrom (input.length + kwargs.length + 4 * 3) = .ok len) :
    ∃ rest, callInit G input kwargs = (allocPtr G len >>= rest) ∧ UsesBlock len rest := by
  have hlen := of_u32TryFrom h
  rw [callInit, h]
  refine ⟨_, rfl, ?_⟩
  intro ptr I hstore hwrite
  refine Act.maintains_bind (maintains_add32 _ _) fun inPtr _ => ?_
  refine Act.maintains_bind (maintains_memoryWrite hwrite (by omega)) fun _ _ => ?_
  refine Act.maintains_bind (maintains_add32 _ _) fun kwargsPtr _ => ?_
  refine Act.maintains_bind (maintains_memoryWrite hwrite (by omega)) fun _ _ => ?_
  refine maintains_if (maintains_fault _) ?_
  exact maintains_output hstore _ _ fun _ _ =>
    maintains_if (maintains_value _) (maintains_fault _)

theorem usesBlock_decode (G : Guest γ) (decoder : Nat) :
    ∃ rest, callDecode G decoder = (allocPtr G (4 * 3) >>= rest) ∧ UsesBlock (4 * 3) rest := by
  refine ⟨_, rfl, ?_⟩
  intro ptr I hstore _
  refine maintains_if (maintains_fault _) ?_
  exact maintains_output hstore _ _ fun _ _ => maintains_if (maintains_value _)
    (maintains_if (maintains_value _) (maintains_fault _))

/-- The result of a call is not part of a run. -/
theorem UsesBlock.discard {α : Type} {len : Nat} {x : Act Fault (Instance γ) α}
    (h : ∃ rest, x = (allocPtr G len >>= rest) ∧ UsesBlock len rest) :
    ∃ rest, (do let _ ← x; pure ()) = (allocPtr G len >>= rest) ∧ UsesBlock len rest := by
  obtain ⟨rest, rfl, hrest⟩ := h
  refine ⟨fun ptr => do let _ ← rest ptr; pure (), bind_assoc .., ?_⟩
  intro ptr I hstore hwrite
  exact Act.maintains_bind (hrest ptr I hstore hwrite) fun _ _ => maintains_value ()

theorem u32TryFrom_of_toOption {n len : Nat} (h : (u32TryFrom n).toOption = some len) :
    u32TryFrom n = .ok len := by
  cases hn : u32TryFrom n with
  | ok m =>
      rw [hn] at h
      rw [Option.some.inj h]
  | error e =>
      rw [hn] at h
      cases h

/-- **A call allocates its block and uses it.** -/
theorem call_eq {c : InstanceCall} {len : Nat} (h : needed G c = some len) :
    ∃ rest, call G c = (allocPtr G len >>= rest) ∧ UsesBlock len rest := by
  cases c with
  | scalarFunction name input =>
      rw [needed] at h
      split at h
      · cases h
      · next hname =>
          exact UsesBlock.discard (usesBlock_scalarFunction hname (u32TryFrom_of_toOption h))
  | genericFunction name input =>
      exact UsesBlock.discard (usesBlock_genericFunction (u32TryFrom_of_toOption h))
  | init input kwargs => exact UsesBlock.discard (usesBlock_init (u32TryFrom_of_toOption h))
  | decode decoder =>
      cases h
      exact UsesBlock.discard (usesBlock_decode G decoder)

/-- A call that asks for no block does nothing. -/
theorem call_of_needed_none {c : InstanceCall} (h : needed G c = none) (s : Instance γ) :
    Act.left (call G c s) = s := by
  have herror : ∀ {n : Nat}, (u32TryFrom n).toOption = none → ∃ e, u32TryFrom n = .error e := by
    intro n hn
    cases hr : u32TryFrom n with
    | ok m =>
        rw [hr] at hn
        cases hn
    | error e => exact ⟨e, rfl⟩
  cases c with
  | scalarFunction name input =>
      rw [needed] at h
      rw [call, callScalarFunction]
      split at h
      · next hname =>
          rw [if_pos hname]
          rfl
      · next hname =>
          obtain ⟨e, he⟩ := herror h
          rw [if_neg hname, he]
          rfl
  | genericFunction name input =>
      obtain ⟨e, he⟩ := herror h
      rw [call, callGenericFunction, he]
      rfl
  | init input kwargs =>
      obtain ⟨e, he⟩ := herror h
      rw [call, callInit, he]
      rfl
  | decode decoder => cases h

end Parts

/-! ## The cached block -/

section Block

variable {G} {guest : γ} {events : List BlockEvent} {len cachedLen ptr : Nat}

/-- The end of `alloc_ptr`: a null pointer is an error. -/
def ensureAllocated (ptr : Nat) : Act Fault (Instance γ) Nat :=
  if ptr ≠ 0 then pure ptr else throw (anyhow "failed to allocate for input")

/-- The block is there and long enough. -/
theorem allocPtr_reuse (hle : ¬ cachedLen < len) :
    allocPtr G len ⟨guest, some ptr, some cachedLen, events⟩ =
      ensureAllocated ptr ⟨guest, some ptr, some cachedLen, events⟩ := by
  rw [allocPtr, Act.get_bind]
  dsimp only
  rw [if_neg hle]
  rfl

/-- A new block is allocated and cached. -/
def newBlock (G : Guest γ) (len : Nat) : Act Fault (Instance γ) Nat := do
  let ptr ← allocCall G len
  modify fun s => { s with cachedAllocPtr := some ptr }
  ensureAllocated ptr

/-- There has been no call yet. -/
theorem allocPtr_first (G : Guest γ) (guest : γ) (events : List BlockEvent) (len : Nat) :
    allocPtr G len ⟨guest, none, none, events⟩ =
      newBlock G len ⟨guest, none, some len, events⟩ := rfl

/-- The first allocation has trapped. -/
theorem allocPtr_retry (hle : ¬ cachedLen < len) :
    allocPtr G len ⟨guest, none, some cachedLen, events⟩ =
      newBlock G cachedLen ⟨guest, none, some cachedLen, events⟩ := by
  rw [allocPtr, Act.get_bind]
  dsimp only
  rw [if_neg hle]
  rfl

/-- A longer block is asked for, and there is none: the pointer is unwrapped. -/
theorem allocPtr_panics (hlt : cachedLen < len) :
    allocPtr G len ⟨guest, none, some cachedLen, events⟩ =
      .error (.panic "called `Option::unwrap()` on a `None` value")
        ⟨guest, none, some cachedLen, events⟩ := by
  rw [allocPtr, Act.get_bind]
  dsimp only
  rw [if_pos hlt]
  rfl

/-- A longer block is asked for: the cached length stays what it was. -/
theorem allocPtr_grows (hlt : cachedLen < len) :
    allocPtr G len ⟨guest, some ptr, some cachedLen, events⟩ =
      (deallocCall G ptr cachedLen >>= fun _ => newBlock G len)
          ⟨guest, some ptr, some cachedLen, events⟩ := by
  rw [allocPtr, Act.get_bind]
  dsimp only
  rw [if_pos hlt]
  rfl

theorem ensureAllocated_cases (ptr : Nat) (s : Instance γ) :
    ensureAllocated ptr s = .ok ptr s ∨ ∃ e, ensureAllocated ptr s = .error e s := by
  rw [ensureAllocated]
  split
  · exact .inl rfl
  · exact .inr ⟨_, rfl⟩

theorem deallocCall_cases (G : Guest γ) (ptr len : Nat) (s : Instance γ) :
    ∃ g, deallocCall G ptr len s = .ok ()
        { s with guest := g, events := s.events ++ [.dealloc ⟨ptr, len, inputAlignment⟩] } ∨
      deallocCall G ptr len s = .error trap
        { s with guest := g, events := s.events ++ [.dealloc ⟨ptr, len, inputAlignment⟩] } := by
  rw [deallocCall]
  split
  · exact ⟨_, .inl rfl⟩
  · exact ⟨_, .inr rfl⟩

/-- The allocation traps, or the new block is cached. -/
theorem newBlock_cases (G : Guest γ) (len : Nat) (s : Instance γ) :
    (∃ g, newBlock G len s = .error trap { s with guest := g }) ∨
      ∃ ptr t, t.cachedAllocPtr = some ptr ∧ t.cachedAllocLen = s.cachedAllocLen ∧
        t.events = s.events ++ [.alloc ⟨ptr, len, inputAlignment⟩] ∧
          (newBlock G len s = .ok ptr t ∨ ∃ e, newBlock G len s = .error e t) := by
  have hcall : (∃ g, allocCall G len s = .error trap { s with guest := g }) ∨
      ∃ ptr g, allocCall G len s = .ok ptr
        { s with guest := g, events := s.events ++ [.alloc ⟨ptr, len, inputAlignment⟩] } := by
    rw [allocCall]
    split
    · exact .inr ⟨_, _, rfl⟩
    · exact .inl ⟨_, rfl⟩
  rcases hcall with ⟨g, hg⟩ | ⟨ptr, g, hg⟩
  · exact .inl ⟨g, Act.bind_of_error _ hg⟩
  · refine .inr ⟨ptr, ⟨g, some ptr, s.cachedAllocLen, _⟩, rfl, rfl, rfl, ?_⟩
    have hblock : newBlock G len s = ensureAllocated ptr ⟨g, some ptr, s.cachedAllocLen,
        s.events ++ [.alloc ⟨ptr, len, inputAlignment⟩]⟩ := Act.bind_of_ok _ hg
    rw [hblock]
    exact ensureAllocated_cases ptr _

variable {s : Instance γ}

/-- A block that is long enough is found or allocated. -/
theorem allocPtr_sound (G : Guest γ) (hs : s.Sound) (hgrows : ¬ s.Grows len) :
    (∀ ptr, Act.outcome (allocPtr G len s) = .ok ptr →
      (Act.left (allocPtr G len s)).Holds ptr len) ∧ (Act.left (allocPtr G len s)).Sound := by
  -- a new block of length `l`, when no block is out
  have hnew : ∀ (guest : γ) (events : List BlockEvent) (l : Nat), len ≤ l →
      replay events = some [] →
        (∀ ptr, Act.outcome (newBlock G l ⟨guest, none, some l, events⟩) = .ok ptr →
          (Act.left (newBlock G l ⟨guest, none, some l, events⟩)).Holds ptr len) ∧
        (Act.left (newBlock G l ⟨guest, none, some l, events⟩)).Sound := by
    intro guest events l hle hlive
    rcases newBlock_cases G l ⟨guest, none, some l, events⟩ with
      ⟨g, hg⟩ | ⟨ptr, t, hptr, hlen, hevents, ht⟩
    · rw [hg]
      exact ⟨(fun _ hok => nomatch hok), hlive⟩
    · have hholds : t.Holds ptr len := by
        refine ⟨l, hptr, hlen, hle, ?_⟩
        rw [hevents]
        exact replay_alloc hlive _
      rcases ht with ht | ⟨e, ht⟩
      · rw [ht]
        refine ⟨fun ptr' hok => ?_, hholds.sound⟩
        cases hok
        exact hholds
      · rw [ht]
        exact ⟨(fun _ hok => nomatch hok), hholds.sound⟩
  obtain ⟨guest, cachedPtr, cachedLen, events⟩ := s
  cases cachedPtr with
  | none =>
      have hlive : replay events = some [] := hs
      cases cachedLen with
      | none =>
          rw [allocPtr_first]
          exact hnew guest events len (Nat.le_refl len) hlive
      | some l =>
          by_cases hle : l < len
          · rw [allocPtr_panics hle]
            exact ⟨(fun _ hok => nomatch hok), hs⟩
          · rw [allocPtr_retry hle]
            exact hnew guest events l (Nat.le_of_not_lt hle) hlive
  | some ptr =>
      obtain ⟨l, hl, hlive⟩ := hs
      cases hl
      have hle : ¬ l < len := fun hlt => hgrows ⟨ptr, l, rfl, rfl, hlt⟩
      have hholds : (⟨guest, some ptr, some l, events⟩ : Instance γ).Holds ptr len :=
        ⟨l, rfl, rfl, Nat.le_of_not_lt hle, hlive⟩
      rw [allocPtr_reuse hle]
      rcases ensureAllocated_cases ptr (⟨guest, some ptr, some l, events⟩ : Instance γ) with
        h | ⟨e, h⟩
      · rw [h]
        refine ⟨fun ptr' hok => ?_, hholds.sound⟩
        cases hok
        exact hholds
      · rw [h]
        exact ⟨(fun _ hok => nomatch hok), hholds.sound⟩

/-- After a block is replaced, the cached length is not that of the new one. -/
theorem newBlock_broken (G : Guest γ) {l ptr : Nat} (hlt : l < len)
    (hptr : s.cachedAllocPtr = some ptr) (hlen : s.cachedAllocLen = some l)
    (hlive : replay s.events = some [] ∨ replay s.events = none) :
    (Act.left (newBlock G len s)).Broken := by
  rcases newBlock_cases G len s with ⟨g, hg⟩ | ⟨q, t, hq, ht, hevents, hresult⟩
  · rw [hg]
    rcases hlive with hlive | hlive
    · exact .inr ⟨ptr, l, [], hptr, hlen, hlive, List.not_mem_nil⟩
    · exact .inl hlive
  · have hbroken : t.Broken := by
      rcases hlive with hlive | hlive
      · refine .inr ⟨q, l, [⟨q, len, inputAlignment⟩], hq, ht.trans hlen, ?_, ?_⟩
        · rw [hevents]
          exact replay_alloc hlive _
        · intro hmem
          have hsame := congrArg Block.len (List.mem_singleton.1 hmem)
          exact absurd hsame (Nat.ne_of_lt hlt)
      · refine .inl ?_
        rw [hevents]
        exact replay_append_of_none hlive _
    rcases hresult with h | ⟨e, h⟩
    · rw [h]
      exact hbroken
    · rw [h]
      exact hbroken

/-- A call that needs a longer block breaks the discipline, now or later. -/
theorem allocPtr_broken_of_grows (G : Guest γ) (hs : s.Sound) (hgrows : s.Grows len) :
    (Act.left (allocPtr G len s)).Broken := by
  obtain ⟨guest, cachedPtr, cachedLen, events⟩ := s
  obtain ⟨ptr, l, hptr, hlen, hlt⟩ := hgrows
  cases hptr
  cases hlen
  obtain ⟨l', hl', hlive⟩ := hs
  cases hl'
  rw [allocPtr_grows hlt]
  have hlive' := replay_dealloc_only hlive
  obtain ⟨g, h | h⟩ := deallocCall_cases G ptr l (⟨guest, some ptr, some l, events⟩ : Instance γ)
  · rw [Act.bind_of_ok _ h]
    exact newBlock_broken G hlt rfl rfl (.inl hlive')
  · rw [Act.bind_of_error _ h]
    exact .inr ⟨ptr, l, [], rfl, rfl, hlive', List.not_mem_nil⟩

/-- Nothing repairs a broken instance. -/
theorem maintains_allocPtr_broken (G : Guest γ) (len : Nat) :
    Act.Maintains Broken (fun _ => True) (allocPtr G len) := by
  intro s hs
  refine ⟨fun _ _ => trivial, ?_⟩
  -- a history that is broken, or a block that is given back and is not out
  have hnone : ∀ (s : Instance γ), replay s.events = none → ∀ l,
      (Act.left (newBlock G l s)).Broken := by
    intro s hs l
    rcases newBlock_cases G l s with ⟨g, hg⟩ | ⟨q, t, -, -, hevents, hresult⟩
    · rw [hg]
      exact .inl hs
    · have ht : replay t.events = none := by
        rw [hevents]
        exact replay_append_of_none hs _
      rcases hresult with h | ⟨e, h⟩
      · rw [h]
        exact .inl ht
      · rw [h]
        exact .inl ht
  obtain ⟨guest, cachedPtr, cachedLen, events⟩ := s
  cases cachedPtr with
  | none =>
      have hlive : replay events = none := by
        rcases hs with hs | ⟨ptr, l, live, hptr, -⟩
        · exact hs
        · cases hptr
      cases cachedLen with
      | none =>
          rw [allocPtr_first]
          exact hnone _ hlive len
      | some l =>
          by_cases hle : l < len
          · rw [allocPtr_panics hle]
            exact .inl hlive
          · rw [allocPtr_retry hle]
            exact hnone _ hlive l
  | some ptr =>
      cases cachedLen with
      | none =>
          have hlive : replay events = none := by
            rcases hs with hs | ⟨ptr', l, live, -, hlen, -⟩
            · exact hs
            · cases hlen
          show (Act.left (ensureAllocated ptr ⟨guest, some ptr, some len, events⟩)).Broken
          rcases ensureAllocated_cases ptr (⟨guest, some ptr, some len, events⟩ : Instance γ) with
            h | ⟨e, h⟩
          · rw [h]
            exact .inl hlive
          · rw [h]
            exact .inl hlive
      | some l =>
          by_cases hlt : l < len
          · rw [allocPtr_grows hlt]
            have hdealloc : replay (events ++ [.dealloc ⟨ptr, l, inputAlignment⟩]) = none := by
              rcases hs with hs | ⟨ptr', l', live, hptr, hlen, hlive, hmem⟩
              · exact replay_append_of_none hs _
              · cases hptr
                cases hlen
                exact replay_dealloc_of_not_mem hlive hmem
            obtain ⟨g, h | h⟩ :=
              deallocCall_cases G ptr l (⟨guest, some ptr, some l, events⟩ : Instance γ)
            · rw [Act.bind_of_ok _ h]
              exact hnone _ hdealloc len
            · rw [Act.bind_of_error _ h]
              exact .inl hdealloc
          · rw [allocPtr_reuse hlt]
            rcases ensureAllocated_cases ptr (⟨guest, some ptr, some l, events⟩ : Instance γ) with
              h | ⟨e, h⟩
            · rw [h]
              exact hs
            · rw [h]
              exact hs

end Block

/-! ## Calls -/

section Calls

variable {G} {s : Instance γ} {c : InstanceCall} {len : Nat}

/-- A computation that keeps a property of the state, after another one. -/
theorem left_bind {α β : Type} {I : Instance γ → Prop} {x : Act Fault (Instance γ) α}
    {f : α → Act Fault (Instance γ) β} (hx : I (Act.left (x s)))
    (hf : ∀ a, Act.outcome (x s) = .ok a → I (Act.left (x s)) →
      I (Act.left (f a (Act.left (x s))))) : I (Act.left ((x >>= f) s)) := by
  cases h : x s with
  | ok a t =>
      rw [Act.bind_of_ok f h]
      rw [h] at hx hf
      exact hf a rfl hx
  | error e t =>
      rw [Act.bind_of_error f h]
      rw [h] at hx
      exact hx

theorem UsesBlock.keeps_broken {rest : Nat → Act Fault (Instance γ) Unit}
    (hrest : UsesBlock len rest) (ptr : Nat) :
    Act.Maintains Broken (fun _ => True) (rest ptr) := by
  refine hrest ptr Broken (fun s g hs => hs) fun s g n _ hs => ?_
  rcases replay_write s.events ptr n with hnone | hsame
  · exact .inl hnone
  · rcases hs with hs | ⟨p, l, live, hptr, hlen, hlive, hmem⟩
    · exact .inl (replay_append_of_none hs _)
    · exact .inr ⟨p, l, live, hptr, hlen, hsame.trans hlive, hmem⟩

theorem UsesBlock.keeps_holds {rest : Nat → Act Fault (Instance γ) Unit}
    (hrest : UsesBlock len rest) (ptr : Nat) :
    Act.Maintains (Holds ptr len) (fun _ => True) (rest ptr) := by
  refine hrest ptr (Holds ptr len) (fun s g hs => hs) fun s g n hn hs => ?_
  obtain ⟨l, hptr, hlen, hle, hlive⟩ := hs
  exact ⟨l, hptr, hlen, hle, replay_write_fits hlive (List.mem_singleton_self _) rfl
    (Nat.le_trans hn hle)⟩

/-- A call that does not need a longer block keeps the instance sound. -/
theorem call_sound (hs : s.Sound) (hgrows : ∀ len, needed G c = some len → ¬ s.Grows len) :
    (Act.left (call G c s)).Sound := by
  cases hneeded : needed G c with
  | none =>
      rw [call_of_needed_none hneeded]
      exact hs
  | some len =>
      obtain ⟨rest, hcall, hrest⟩ := call_eq hneeded
      obtain ⟨hholds, hsound⟩ := allocPtr_sound G hs (hgrows len hneeded)
      rw [hcall]
      refine left_bind hsound fun ptr hptr _ => ?_
      exact (hrest.keeps_holds ptr _ (hholds ptr hptr)).2.sound

theorem call_broken_of_grows (hs : s.Sound) (hneeded : needed G c = some len)
    (hgrows : s.Grows len) : (Act.left (call G c s)).Broken := by
  obtain ⟨rest, hcall, hrest⟩ := call_eq hneeded
  rw [hcall]
  refine left_bind (allocPtr_broken_of_grows G hs hgrows) fun ptr _ hbroken => ?_
  exact (hrest.keeps_broken ptr _ hbroken).2

theorem call_broken (hs : s.Broken) : (Act.left (call G c s)).Broken := by
  cases hneeded : needed G c with
  | none =>
      rw [call_of_needed_none hneeded]
      exact hs
  | some len =>
      obtain ⟨rest, hcall, hrest⟩ := call_eq hneeded
      rw [hcall]
      refine left_bind (maintains_allocPtr_broken G len s hs).2 fun ptr _ hbroken => ?_
      exact (hrest.keeps_broken ptr _ hbroken).2

/-- A sound instance gives its block back. -/
theorem drop_sound (hs : s.Sound) : replay (Act.left (drop G s)).events = some [] := by
  obtain ⟨guest, cachedPtr, cachedLen, events⟩ := s
  cases cachedPtr with
  | none => exact hs
  | some ptr =>
      obtain ⟨l, hl, hlive⟩ := hs
      cases hl
      show replay (Act.left (deallocCall G ptr l ⟨guest, some ptr, some l, events⟩)).events = _
      obtain ⟨g, h | h⟩ := deallocCall_cases G ptr l (⟨guest, some ptr, some l, events⟩ : Instance γ)
      · rw [h]
        exact replay_dealloc_only hlive
      · rw [h]
        exact replay_dealloc_only hlive

/-- A broken instance breaks the discipline at last when it is dropped. -/
theorem drop_broken (hs : s.Broken) : replay (Act.left (drop G s)).events = none := by
  have hdealloc : ∀ ptr l, s.cachedAllocPtr = some ptr → s.cachedAllocLen = some l →
      replay (s.events ++ [.dealloc ⟨ptr, l, inputAlignment⟩]) = none := by
    intro ptr l hptr hlen
    rcases hs with hs | ⟨ptr', l', live, hptr', hlen', hlive, hmem⟩
    · exact replay_append_of_none hs _
    · rw [hptr] at hptr'
      rw [hlen] at hlen'
      cases hptr'
      cases hlen'
      exact replay_dealloc_of_not_mem hlive hmem
  have hold : s.cachedAllocPtr = none ∨ s.cachedAllocLen = none → replay s.events = none := by
    intro h
    rcases hs with hs | ⟨ptr', l', live, hptr', hlen', -⟩
    · exact hs
    · rw [hptr', hlen'] at h
      rcases h with h | h <;> cases h
  obtain ⟨guest, cachedPtr, cachedLen, events⟩ := s
  cases cachedPtr with
  | none => exact hold (.inl rfl)
  | some ptr =>
      cases cachedLen with
      | none => exact hold (.inr rfl)
      | some l =>
          show replay (Act.left (deallocCall G ptr l ⟨guest, some ptr, some l, events⟩)).events = _
          obtain ⟨g, h | h⟩ :=
            deallocCall_cases G ptr l (⟨guest, some ptr, some l, events⟩ : Instance γ)
          · rw [h]
            exact hdealloc ptr l rfl rfl
          · rw [h]
            exact hdealloc ptr l rfl rfl

end Calls

/-! ## Runs -/

variable {G}

theorem runCalls_sound : ∀ {cs : List InstanceCall} {s : Instance γ}, s.Sound →
    NeverGrows G s cs → (runCalls G s cs).Sound
  | [], _, hs, _ => hs
  | c :: cs, s, hs, h => by
      have hcall : (Act.left (call G c s)).Sound := call_sound hs h.1
      rw [runCalls]
      exact runCalls_sound hcall h.2

theorem runCalls_broken : ∀ {cs : List InstanceCall} {s : Instance γ}, s.Broken →
    (runCalls G s cs).Broken
  | [], _, hs => hs
  | c :: cs, s, hs => by
      have hcall : (Act.left (call G c s)).Broken := call_broken hs
      rw [runCalls]
      exact runCalls_broken hcall

theorem runCalls_broken_of_grows : ∀ {cs : List InstanceCall} {s : Instance γ}, s.Sound →
    ¬ NeverGrows G s cs → (runCalls G s cs).Broken
  | [], _, _, h => absurd trivial h
  | c :: cs, s, hs, h => by
      rw [runCalls]
      by_cases hc : ∀ len, needed G c = some len → ¬ s.Grows len
      · have hcall : (Act.left (call G c s)).Sound := call_sound hs hc
        exact runCalls_broken_of_grows hcall fun hcs => h ⟨hc, hcs⟩
      · simp only [not_forall, not_not] at hc
        obtain ⟨len, hneeded, hgrows⟩ := hc
        have hcall : (Act.left (call G c s)).Broken := call_broken_of_grows hs hneeded hgrows
        exact runCalls_broken hcall

/-- Every block given back is one that is out, and every write fits the cached
block, in the calls and when the instance is dropped. -/
def Disciplined (G : Guest γ) (g : γ) (cs : List InstanceCall) : Prop :=
  (replay (Act.left (drop G (runCalls G (new g) cs))).events).isSome = true

/-- **The blocks of the guest are used as they should be iff no call needs a
longer block than the instance has.** -/
theorem run_disciplined_iff (G : Guest γ) (g : γ) (cs : List InstanceCall) :
    Disciplined G g cs ↔ NeverGrows G (new g) cs := by
  by_cases h : NeverGrows G (new g) cs
  · have hdrop := drop_sound (G := G) (runCalls_sound (sound_new g) h)
    rw [Disciplined, hdrop]
    exact iff_of_true rfl h
  · have hdrop := drop_broken (G := G) (runCalls_broken_of_grows (sound_new g) h)
    rw [Disciplined, hdrop]
    exact iff_of_false Bool.false_ne_true h

/-! ## A longer input -/

/-- A guest that allocates upwards and decodes everything to an empty output. -/
def bumpGuest : Guest Nat where
  functions := fun _ => true
  hasInit := true
  hasDecode := true
  alloc := fun g len _ => (some g, g + len)
  dealloc := fun g _ _ _ => (some (), g)
  function := fun g _ _ _ _ => (some 0, g)
  init := fun g _ _ _ _ _ => (some 0, g)
  decode := fun g _ _ => (some 0, g)
  bufferIteratorNext := fun g _ _ _ => (some (), g)
  bufferIteratorDrop := fun g _ => (some (), g)
  write := fun g _ _ => some g
  readU32 := fun _ _ => some 0
  slice := fun _ _ _ => some []

/-- The second call has one byte of input more than the first. -/
def growingCalls : List InstanceCall :=
  [.genericFunction "decode_ffi" [], .genericFunction "decode_ffi" [0]]

/-- The block of 13 bytes is given back as one of 12. -/
theorem longer_input_breaks :
    (Act.left (drop bumpGuest (runCalls bumpGuest (new 1024) growingCalls))).events =
      [.alloc ⟨1024, 12, 4⟩, .write 1024 12, .dealloc ⟨1024, 12, 4⟩, .alloc ⟨1036, 13, 4⟩,
        .write 1036 13, .dealloc ⟨1036, 12, 4⟩] ∧
      ¬ Disciplined bumpGuest 1024 growingCalls := by
  constructor
  · decide
  · show ¬ (replay (Act.left (drop bumpGuest (runCalls bumpGuest (new 1024)
      growingCalls))).events).isSome = true
    decide

end Instance

end F3Format
