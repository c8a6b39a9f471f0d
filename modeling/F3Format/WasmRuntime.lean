import F3Format.WasmInstance

/-!
# Wasm runtimes

`Runtime` of `fff-ude-wasm/src/lib.rs`: the instances of one module, of which a
pool keeps those that no call is using. An instance goes back to the pool when the
call returns; the iterator that the call returned goes on using it.

An `Arc<Mutex<Instance>>` is the number of the instance among those that were
made. Each step is atomic, as it is under the lock of the instance.
-/

set_option autoImplicit false

namespace F3Format

open Lib

/-- The Wasm module of a runtime. -/
structure WasmModule (γ : Type) where
  guest : Guest γ
  /-- `Runtime::functions`: the names of the exports. -/
  functions : String → Bool
  /-- The store that the `n`th instantiation gives, if it succeeds. -/
  instantiate : Nat → Option γ

/-- `Mutex<Instance>`. `lastCall` is not in the source: it records whether the last
call succeeded. -/
structure SharedInstance (γ : Type) where
  inner : Instance γ
  poisoned : Bool
  lastCall : Option Bool

/-- The mutex of a new instance. -/
def SharedInstance.new {γ : Type} (g : γ) : SharedInstance γ := ⟨Instance.new g, false, none⟩

/-- `BufferIter`. -/
structure BufferIter where
  ptr : Nat
  allocPtr : Nat
  instanceArc : Nat

/-- An iterator that a call returned, with the call and with what its `next` has
answered since. -/
structure IterRecord where
  iter : BufferIter
  name : String
  input : Bytes
  answers : List (Result (Option Bytes))
  dropped : Bool

/-- `Runtime`, with the instances made so far, the iterators returned to the
callers, and the instances that buffers they yielded refer to. -/
structure Runtime (γ : Type) where
  shared : List (SharedInstance γ)
  /-- The pool. -/
  instances : List Nat
  iters : List IterRecord
  buffers : List Nat
  instantiations : Nat

namespace Instance

variable {γ : Type} (G : Guest γ)

/-- `BufferIter::next`, on the instance: the guest leaves the address and the
length of the buffer in the block, and the address of its owner. -/
def bufferIteratorNext (ptr allocPtr : Nat) : Act Fault (Instance γ) (Option Bytes) := do
  let at8 ← Act.lift (add32 allocPtr 8)
  exportCall fun g => G.bufferIteratorNext g ptr allocPtr at8
  let outPtr ← readU32 G allocPtr
  let at4 ← Act.lift (add32 allocPtr 4)
  let outLen ← readU32 G at4
  let _arrowBufferAddress ← readU32 G at8
  if outPtr = 0 then pure none
  else do
    let outBytes ← outputSlice G outPtr outLen
    pure (some outBytes)

/-- `buffer_iterator_drop`. -/
def bufferIteratorDrop (ptr : Nat) : Act Fault (Instance γ) Unit :=
  exportCall fun g => G.bufferIteratorDrop g ptr

end Instance

namespace Runtime

variable {γ : Type} (M : WasmModule γ)

/-- A runtime without instances. -/
def new : Runtime γ := ⟨[], [], [], [], 0⟩

/-! ## Instances -/

/-- `Arc::new(Mutex::new(Instance::new(self)?))`. -/
def newInstance : Act Fault (Runtime γ) Nat := fun rt =>
  let rt' := { rt with instantiations := rt.instantiations + 1 }
  match M.instantiate rt.instantiations with
  | some g => .ok rt.shared.length { rt' with shared := rt.shared ++ [.new g] }
  | none => .error (anyhow "instantiation failed") rt'

/-- An instance from the pool, or a new one. -/
def takeInstance : Act Fault (Runtime γ) Nat := do
  let rt ← get
  match rt.instances with
  | arc :: rest => do
      set { rt with instances := rest }
      pure arc
  | [] => newInstance M

/-- `self.instances.lock().unwrap().push_back(arc)`. -/
def pushBack (arc : Nat) : Act Fault (Runtime γ) Unit :=
  modify fun rt => { rt with instances := rt.instances ++ [arc] }

/-- The failure of `lock().unwrap()` after a panic that held the lock. -/
def poisonError : Fault := .panic "called `Result::unwrap()` on an `Err` value: PoisonError"

/-- An iterator or a buffer of the callers, or the pool, refers to the instance. -/
def refersTo (rt : Runtime γ) (arc : Nat) : Bool :=
  rt.instances.contains arc || rt.buffers.contains arc ||
    rt.iters.any fun r => !r.dropped && r.iter.instanceArc == arc

/-- The last `Arc` of an instance but one is dropped: the instance is dropped
unless it is referred to, and a trap in it is a panic. -/
def release (arc : Nat) : Act Fault (Runtime γ) Unit := fun rt =>
  if rt.refersTo arc then .ok () rt
  else match rt.shared[arc]? with
    | none => .ok () rt
    | some s => match Instance.drop M.guest s.inner with
      | .ok () t => .ok () { rt with shared := rt.shared.set arc { s with inner := t } }
      | .error _ t => .error (.panic "called `Result::unwrap()` on an `Err` value")
          { rt with shared := rt.shared.set arc { s with inner := t } }

/-! ## Calls -/

/-- `guard.call_generic_function(name, input, arc)`, with the guard taken: an `Err`
is a value, and a panic poisons the lock. -/
def attempt (arc : Nat) (name : String) (input : Bytes) :
    Act Fault (Runtime γ) (Except Error BufferIter) := fun rt =>
  match rt.shared[arc]? with
  | none => .error poisonError rt
  | some s =>
    if s.poisoned then .error poisonError rt
    else match Instance.callGenericFunction M.guest name input s.inner with
      | .ok (ptr, allocPtr) t => .ok (.ok ⟨ptr, allocPtr, arc⟩)
          { rt with shared := rt.shared.set arc ⟨t, false, some true⟩ }
      | .error (.err e) t => .ok (.error e)
          { rt with shared := rt.shared.set arc ⟨t, false, some false⟩ }
      | .error (.panic msg) t => .error (.panic msg)
          { rt with shared := rt.shared.set arc ⟨t, true, some false⟩ }

/-- `call_multi_buf`. -/
def callMultiBuf (name : String) (input : Bytes) : Act Fault (Runtime γ) BufferIter := do
  if M.functions name = false then throw (anyhow s!"function not found: {name}")
  else do
    let arc ← takeInstance M
    match ← attempt M arc name input with
    | .ok iter => do
        pushBack arc
        pure iter
    | .error _ => do
        release M arc
        let arc ← newInstance M
        match ← attempt M arc name input with
        | .ok iter => do
            pushBack arc
            pure iter
        | .error _ => throw (.panic "assertion failed: output.is_ok()")

/-! ## Iterators -/

/-- A step of an iterator on its instance: its errors are unwrapped while the lock
is held. -/
def onInstance {α : Type} (arc : Nat) (x : Act Fault (Instance γ) α) :
    Act Fault (Runtime γ) α := fun rt =>
  match rt.shared[arc]? with
  | none => .error poisonError rt
  | some s =>
    if s.poisoned then .error poisonError rt
    else match x s.inner with
      | .ok a t => .ok a { rt with shared := rt.shared.set arc { s with inner := t } }
      | .error _ t => .error (.panic "called `Result::unwrap()` on an `Err` value")
          { rt with shared := rt.shared.set arc { s with inner := t, poisoned := true } }

/-- `BufferIter::next`: a buffer keeps the instance. -/
def next (iter : BufferIter) : Act Fault (Runtime γ) (Option Bytes) := do
  let answer ← onInstance iter.instanceArc
    (Instance.bufferIteratorNext M.guest iter.ptr iter.allocPtr)
  match answer with
  | none => pure none
  | some bytes => do
      modify fun rt => { rt with buffers := rt.buffers ++ [iter.instanceArc] }
      pure (some bytes)

/-- `Drop for BufferIter`, and the drop of its `Arc`. -/
def dropIter (iter : BufferIter) : Act Fault (Runtime γ) Unit := do
  onInstance iter.instanceArc (Instance.bufferIteratorDrop M.guest iter.ptr)
  release M iter.instanceArc

/-! ## Runs -/

/-- What a caller does: iterators are named by the number of the call that
returned them. -/
inductive Step where
  | call (name : String) (input : Bytes)
  | next (iter : Nat)
  | drop (iter : Nat)

/-- The runtime after a step, whether it succeeds or not. A caller has no iterator
that it has dropped. -/
def step (rt : Runtime γ) : Step → Runtime γ
  | .call name input => match callMultiBuf M name input rt with
      | .ok iter rt' => { rt' with iters := rt'.iters ++ [⟨iter, name, input, [], false⟩] }
      | .error _ rt' => rt'
  | .next k => match rt.iters[k]? with
      | none => rt
      | some r =>
        if r.dropped then rt
        else
          let result := next M r.iter rt
          let r' := { r with answers := r.answers ++ [Act.outcome result] }
          let rt' := Act.left result
          { rt' with iters := rt'.iters.set k r' }
  | .drop k => match rt.iters[k]? with
      | none => rt
      | some r =>
        if r.dropped then rt
        else Act.left (dropIter M r.iter
          { rt with iters := rt.iters.set k { r with dropped := true } })

/-- The runtime after some steps. -/
def run (rt : Runtime γ) : List Step → Runtime γ
  | [] => rt
  | st :: sts => run (step M rt st) sts

end Runtime

end F3Format
