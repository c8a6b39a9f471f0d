import F3Format.Errors
import F3Format.Lib.Bytes
import F3Format.Lib.Ledger

/-!
# Wasm instances

`Instance` of `fff-ude-wasm/src/lib.rs`: the host side of a Wasm decoder. Each
call passes its input, and takes its results, through one scratch block in the
guest's memory, which the instance allocates at its first call and keeps.

The guest is a parameter: the exports of the module on the state of its store. A
`u32` sum that overflows is a panic, as in a build with overflow checks.
-/

set_option autoImplicit false

namespace F3Format

open Lib

/-- What the host uses of a guest, on the state `γ` of its store. A call that
traps has no result. -/
structure Guest (γ : Type) where
  /-- The exports ending in `ffi` that have the type of a decoder. -/
  functions : String → Bool
  hasInit : Bool
  hasDecode : Bool
  alloc : γ → Nat → Nat → Option Nat × γ
  dealloc : γ → Nat → Nat → Nat → Option Unit × γ
  function : γ → String → Nat → Nat → Nat → Option Int × γ
  init : γ → Nat → Nat → Nat → Nat → Nat → Option Int × γ
  decode : γ → Nat → Nat → Option Int × γ
  bufferIteratorNext : γ → Nat → Nat → Nat → Option Unit × γ
  bufferIteratorDrop : γ → Nat → Option Unit × γ
  /-- `Memory::write`. -/
  write : γ → Nat → Bytes → Option γ
  /-- Four bytes of `Memory::data`. -/
  readU32 : γ → Nat → Option Nat
  /-- `Memory::data(..).get(a..b)`. -/
  slice : γ → Nat → Nat → Option Bytes

/-- `INPUT_ALIGNMENT`. -/
def inputAlignment : Nat := 4

/-- `Instance`. The exports and the store are the guest's; `events` is not in the
source: it records what has been done with blocks of the guest. -/
structure Instance (γ : Type) where
  guest : γ
  cachedAllocPtr : Option Nat
  cachedAllocLen : Option Nat
  events : List BlockEvent

/-- An `anyhow::Error`, of which the message is kept. -/
def anyhow (msg : String) : Fault := .err (.external msg)

/-- The error of a call that trapped. -/
def trap : Fault := anyhow "error while executing at wasm backtrace"

/-- `a + b` on `u32`. -/
def add32 (a b : Nat) : Result Nat :=
  if a + b < 2 ^ 32 then .ok (a + b) else panicking "attempt to add with overflow"

/-- `u32::try_from(n).context("input too large")`. -/
def u32TryFrom (n : Nat) : Result Nat :=
  if n < 2 ^ 32 then .ok n else .error (anyhow "input too large")

namespace Instance

variable {γ : Type} (G : Guest γ)

/-- The instance that `Instance::new` builds on a store. -/
def new (g : γ) : Instance γ := ⟨g, none, none, []⟩

/-! ## Calls of the guest -/

/-- `self.alloc.call(.., (len, INPUT_ALIGNMENT))`. -/
def allocCall (len : Nat) : Act Fault (Instance γ) Nat := fun s =>
  match G.alloc s.guest len inputAlignment with
  | (some ptr, g) => .ok ptr
      { s with guest := g, events := s.events ++ [.alloc ⟨ptr, len, inputAlignment⟩] }
  | (none, g) => .error trap { s with guest := g }

/-- `self.dealloc.call(.., (ptr, len, INPUT_ALIGNMENT))`. -/
def deallocCall (ptr len : Nat) : Act Fault (Instance γ) Unit := fun s =>
  let events := s.events ++ [.dealloc ⟨ptr, len, inputAlignment⟩]
  match G.dealloc s.guest ptr len inputAlignment with
  | (some (), g) => .ok () { s with guest := g, events := events }
  | (none, g) => .error trap { s with guest := g, events := events }

/-- Any other call of an export. -/
def exportCall {α : Type} (f : γ → Option α × γ) : Act Fault (Instance γ) α := fun s =>
  match f s.guest with
  | (some a, g) => .ok a { s with guest := g }
  | (none, g) => .error trap { s with guest := g }

/-- `self.memory.write(.., block + offset, bytes)`. -/
def memoryWrite (block offset : Nat) (bytes : Bytes) : Act Fault (Instance γ) Unit := fun s =>
  match G.write s.guest (block + offset) bytes with
  | some g => .ok ()
      { s with guest := g, events := s.events ++ [.write block (offset + bytes.length)] }
  | none => .error (anyhow "out of bounds memory access") s

/-- `read_u32`. -/
def readU32 (ptr : Nat) : Act Fault (Instance γ) Nat := fun s =>
  match G.readU32 s.guest ptr with
  | some n => .ok n s
  | none => .error (.panic "range end index out of range for slice") s

/-- `memory.data(..).get(out_ptr..out_ptr + out_len).context(..)`. -/
def outputSlice (ptr len : Nat) : Act Fault (Instance γ) Bytes := do
  let stop ← Act.lift (add32 ptr len)
  fun s => match G.slice s.guest ptr stop with
    | some bytes => .ok bytes s
    | none => .error (anyhow "output slice out of bounds") s

/-! ## The cached block -/

/-- The pointer to a scratch block of at least `len` bytes. The code is the same
in all calls: it is kept if it is long enough, and otherwise given back and
allocated anew. -/
def allocPtr (len : Nat) : Act Fault (Instance γ) Nat := do
  let s ← get
  let allocLen ← match s.cachedAllocLen with
    | some cachedLen =>
        if cachedLen < len then do
          let ptr ← Act.lift (unwrapSome s.cachedAllocPtr)
          deallocCall G ptr cachedLen
          let ptr ← allocCall G len
          modify fun s => { s with cachedAllocPtr := some ptr }
          pure len
        else pure cachedLen
    | none => do
        modify fun s => { s with cachedAllocLen := some len }
        pure len
  let s ← get
  let allocPtr ← match s.cachedAllocPtr with
    | some ptr => pure ptr
    | none => do
        let ptr ← allocCall G allocLen
        modify fun s => { s with cachedAllocPtr := some ptr }
        pure ptr
  if allocPtr ≠ 0 then pure allocPtr
  else throw (anyhow "failed to allocate for input")

/-! ## The calls -/

/-- The address and the length that a call left in the block, and the bytes there. -/
def returnValues (allocPtr : Nat) : Act Fault (Instance γ) (Nat × Nat × Bytes) := do
  let outPtr ← readU32 G allocPtr
  let at4 ← Act.lift (add32 allocPtr 4)
  let outLen ← readU32 G at4
  let outBytes ← outputSlice G outPtr outLen
  pure (outPtr, outLen, outBytes)

/-- The error of a call that returned a number other than zero; the output is its
message, or the error if it is not UTF-8. -/
def errorNumber (errno : Int) (outBytes : Bytes) : Fault :=
  match String.fromUTF8? ⟨outBytes.toArray⟩ with
  | some msg => anyhow s!"error number: {errno}, out bytes: {msg}"
  | none => anyhow "invalid utf-8 sequence"

/-- `call_scalar_function`: the output and its address. -/
def callScalarFunction (name : String) (input : Bytes) :
    Act Fault (Instance γ) (Bytes × Nat) := do
  if G.functions name = false then throw (anyhow s!"function not found: {name}")
  else do
    let len ← Act.lift (u32TryFrom (input.length + 4 * 2))
    let allocPtr ← allocPtr G len
    let inPtr ← Act.lift (add32 allocPtr (4 * 2))
    memoryWrite G allocPtr (4 * 2) input
    let errno ← exportCall fun g => G.function g name inPtr input.length allocPtr
    let (outPtr, _, outBytes) ← returnValues G allocPtr
    if errno = 0 then pure (outBytes, outPtr) else throw (errorNumber errno outBytes)

/-- `call_generic_function`: the iterator in the guest and the block of its outputs. -/
def callGenericFunction (name : String) (input : Bytes) : Act Fault (Instance γ) (Nat × Nat) := do
  let len ← Act.lift (u32TryFrom (input.length + 4 * 3))
  let allocPtr ← allocPtr G len
  let inPtr ← Act.lift (add32 allocPtr (4 * 3))
  memoryWrite G allocPtr (4 * 3) input
  if G.functions name = false then throw (anyhow s!"function not found: {name}")
  else do
    let errno ← exportCall fun g => G.function g name inPtr input.length allocPtr
    let (outPtr, _, outBytes) ← returnValues G allocPtr
    if errno = 0 then pure (outPtr, allocPtr) else throw (errorNumber errno outBytes)

/-- `call_init`: the slice of the decoder. -/
def callInit (input kwargs : Bytes) : Act Fault (Instance γ) (Nat × Nat) := do
  let len ← Act.lift (u32TryFrom (input.length + kwargs.length + 4 * 3))
  let allocPtr ← allocPtr G len
  let inPtr ← Act.lift (add32 allocPtr (4 * 3))
  memoryWrite G allocPtr (4 * 3) input
  let kwargsPtr ← Act.lift (add32 inPtr input.length)
  memoryWrite G allocPtr (4 * 3 + input.length) kwargs
  if G.hasInit = false then throw (.panic "called `Option::unwrap()` on a `None` value")
  else do
    let errno ← exportCall fun g =>
      G.init g inPtr input.length kwargsPtr kwargs.length allocPtr
    let (outPtr, outLen, outBytes) ← returnValues G allocPtr
    if errno = 0 then pure (outPtr, outLen) else throw (errorNumber errno outBytes)

/-- `call_decode`: the number 1 says that there is nothing more. -/
def callDecode (decoder : Nat) : Act Fault (Instance γ) (Option (Nat × Nat)) := do
  let len ← Act.lift (u32TryFrom (4 * 3))
  let allocPtr ← allocPtr G len
  if G.hasDecode = false then throw (.panic "called `Option::unwrap()` on a `None` value")
  else do
    let errno ← exportCall fun g => G.decode g decoder allocPtr
    let (outPtr, _, outBytes) ← returnValues G allocPtr
    if errno = 0 then pure (some (outPtr, allocPtr))
    else if errno = 1 then pure none
    else throw (errorNumber errno outBytes)

/-- `Drop for Instance`. -/
def drop : Act Fault (Instance γ) Unit := do
  let s ← get
  match s.cachedAllocPtr with
  | none => pure ()
  | some ptr => do
      let len ← Act.lift (unwrapSome s.cachedAllocLen)
      deallocCall G ptr len

end Instance

end F3Format
