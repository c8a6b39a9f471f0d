import F3Format.DecoderPhysical
import F3Format.Panics

/-!
# Malformed units

What a unit, and the chunk decoder in front of it, must be like for the decoding
not to panic. Each `Guarded` predicate lists what the code takes for granted and
does not check; its lemma says that the call is safe exactly under it.
-/

set_option autoImplicit false

namespace F3Format

open Lib

variable {env : Env}

/-! ## Vortex framing -/

/-- The dtype message and the padding that the first four bytes announce fit the buffer. -/
def Framed (encblock : Bytes) : Prop :=
  4 ≤ encblock.length ∧
    4 + leDecode (encblock.take 4) +
      paddingSize (leDecode (encblock.take 4) + 4) vortexAlignment ≤ encblock.length

theorem safe_vortexDeser {encblock : Bytes} :
    Safe (vortexDeser env encblock) ↔ Framed encblock := by
  rw [vortexDeser, safe_splitTo_bind]
  refine and_congr_right fun hlen => ?_
  dsimp only
  rw [safe_splitTo_bind]
  dsimp only
  rw [safe_splitTo_bind, and_iff_left (safe_liftErr _)]
  simp only [List.length_drop]
  omega

/-! ## Lists -/

/-- The offsets of a list array with `n` rows: there are enough, and they increase. -/
def OffsetsFit (n : Nat) (offsets : List Nat) : Prop :=
  n < offsets.length ∧ monotone (offsets.take (n + 1)) = true

/-- The two buffers of a list unit: a boolean array, and as many offsets as it asks for. -/
def ListFramed (env : Env) (data : Bytes) : Prop :=
  Framed data ∧ After (vortexDeser env data) fun validity =>
    Framed validity.2 ∧ After (vortexDeser env validity.2) fun offsets =>
      validity.1.dataType = .prim .boolean ∧
        OffsetsFit validity.1.len (offsetValues offsets.1.rows)

/-- The array over dummy values takes nothing but the offsets for granted. -/
theorem safe_newListOffsets {large : Bool} {validity : List Bool} {offsets : List Nat} :
    Safe (newListOffsetsValidityFromBuffers large validity offsets validity.length) ↔
      OffsetsFit validity.length offsets := by
  unfold newListOffsetsValidityFromBuffers OffsetsFit
  dsimp only
  by_cases hlen : offsets.length < validity.length + 1
  · rw [if_pos hlen]
    exact iff_of_false (not_safe_panicking _) fun h => by omega
  · have hne : (offsets.take (validity.length + 1)).isEmpty = false := by
      rw [List.isEmpty_eq_false_iff_exists_mem, ← List.length_pos_iff_exists_mem,
        List.length_take]
      omega
    rw [if_neg hlen, offsetBufferNew, hne, if_neg Bool.false_ne_true]
    by_cases hmono : monotone (offsets.take (validity.length + 1)) = true
    · -- the dummy values reach exactly up to the last offset
      rw [if_pos hmono, ok_bind]
      refine iff_of_true ?_ ⟨by omega, hmono⟩
      have hnulls : (if validity.isEmpty then none
          else some (validity.take validity.length)).any (fun bs => decide (bs.length ≠
            (offsets.take (validity.length + 1)).length - 1)) = false := by
        split
        · rfl
        · simp only [Option.any_some, List.length_take, decide_eq_false_iff_not]
          omega
      have hvalues : ¬ (offsets.take (validity.length + 1)).getLastD 0 >
          (ArrayRef.prim .null (List.replicate
            ((offsets.take (validity.length + 1)).getLastD 0) none)).len := by
        rw [ArrayRef.len_prim, List.length_replicate]
        exact Nat.lt_irrefl _
      rw [listArrayNew, if_neg hvalues, hnulls, if_neg Bool.false_ne_true,
        if_neg fun h => h.1 rfl, if_neg fun h => h rfl]
      exact safe_ok _
    · rw [if_neg hmono]
      exact iff_of_false (not_safe_panicking _) fun h => hmono h.2

theorem safe_vortexListDecode {large : Bool} {data : Bytes} :
    Safe (vortexListDecode env large data) ↔ ListFramed env data := by
  refine safe_bind_iff safe_vortexDeser fun p _ => ?_
  refine safe_bind_iff safe_vortexDeser fun q _ => ?_
  obtain ⟨validity, rest⟩ := p
  cases validity with
  | prim t vs =>
      cases t with
      | boolean =>
          have hlen : (boolValues vs).length = vs.length := List.length_map ..
          have h := @safe_newListOffsets large (boolValues vs) (offsetValues q.1.rows)
          rw [hlen] at h
          exact h.trans (and_iff_right rfl).symm
      | _ => exact iff_of_false (not_safe_panicking _) fun h => nomatch h.1
  | list large' field offsets values nulls =>
      cases large' <;> exact iff_of_false (not_safe_panicking _) fun h => nomatch h.1
  | struct => exact iff_of_false (not_safe_panicking _) fun h => nomatch h.1

/-! ## Units -/

/-- What the decoder of a unit takes for granted. The decoder in the file is
outside the repository. -/
def EncUnitDecoder.Guarded (env : Env) : EncUnitDecoder → Prop
  | wasm data rt outputType numRows =>
      outputType.nonNest = true ∧ Safe (env.wasmDecode rt data outputType numRows)
  | vortex data (.prim t) => t.nonNest = true ∧ Framed data
  | vortex data (.list _) => ListFramed env data
  | vortex data (.largeList _) => ListFramed env data
  | vortex _ (.struct _) => False

theorem safe_decode : ∀ {d : EncUnitDecoder}, Safe (d.decode env) ↔ d.Guarded env
  | .wasm data rt outputType numRows => by
      rw [EncUnitDecoder.decode, EncUnitDecoder.Guarded]
      by_cases h : outputType.nonNest = true
      · rw [if_pos h]
        exact (and_iff_right h).symm
      · rw [if_neg h]
        exact iff_of_false (not_safe_panicking _) fun hg => h hg.1
  | .vortex data (.prim t) => by
      simp only [EncUnitDecoder.decode, EncUnitDecoder.Guarded]
      by_cases h : t.nonNest = true
      · rw [if_pos h, safe_bind_first fun _ _ => safe_pure _, safe_vortexDeser]
        exact (and_iff_right h).symm
      · rw [if_neg h]
        exact iff_of_false (not_safe_panicking _) fun hg => h hg.1
  | .vortex data (.list _) => safe_vortexListDecode
  | .vortex data (.largeList _) => safe_vortexListDecode
  | .vortex data (.struct _) => iff_of_false (not_safe_panicking _) id

/-- The decoder in the file that an encoding names can be loaded. -/
def Fb.Encoding.Loads (env : Env) (e : Fb.Encoding) (ctx : WASMReadingContext) : Prop :=
  ∀ w, e.wasmEncoding = some w → ∃ rt, ctx.getRuntime env w.wasmId = .ok rt

/-- A unit whose encoding is known; where the code turns to a decoder in the
file, that decoder can be loaded. -/
def Fb.Encoding.Guarded (env : Env) (e : Fb.Encoding) (ctx : Option WASMReadingContext) : Prop :=
  match e.type_ with
  | .cascade => ∀ c versions version reader, ctx = some c → c.encodingVersions = some versions →
      versions.lookup .cascade = some version →
      defaultEncodingVersions.lookup .cascade = some reader →
      fallsBackToWasm reader version = true → e.Loads env c
  | .customWasm => ∀ c, ctx = some c → e.Loads env c
  | .unknown _ => False

/-- What creating the decoder of a unit takes for granted. -/
def Fb.EncUnit.Guarded (env : Env) (u : Fb.EncUnit) (buf : Bytes)
    (ctx : Option WASMReadingContext) : Prop :=
  u.size ≤ buf.length ∧ ∃ e, u.encoding = some e ∧
    After (unitData env u.compression (buf.take u.size)) fun _ => e.Guarded env ctx

@[simp] theorem safe_unitData (env : Env) (c : CompressionType) (data : Bytes) :
    Safe (unitData env c data) := by
  unfold unitData
  split
  · cases c with
    | uncompressed => exact safe_ok _
    | lz4 => exact safe_liftErr _
    | zstd => exact safe_liftErr _
    | unknown code => exact safe_fail _
  · exact safe_ok _

/-- The lookup of a runtime has no `Err`: it returns or panics. -/
theorem safe_getRuntime {ctx : WASMReadingContext} {id : Nat} :
    Safe (ctx.getRuntime env id) ↔ ∃ rt, ctx.getRuntime env id = .ok rt := by
  refine NoErr.safe_iff (noErr_bind ?_ fun _ => noErr_unwrapSome _)
  unfold WASMReadingContext.runtimes
  split
  · exact noErr_ok _
  · refine noErr_bind (noErr_unwrapSome _) fun _ => noErr_bind (noErr_unwrapSome _) fun _ => ?_
    refine noErr_bind (noErr_unwrap _) fun _ => noErr_bind (noErr_unwrap _) fun _ => ?_
    refine noErr_bind (noErr_unwrapSome _) fun _ => noErr_bind (noErr_collect ?_ _) fun _ =>
      noErr_ok _
    intro loc
    refine noErr_bind (noErr_unwrap _) fun bin => ?_
    split
    · exact noErr_ok _
    · exact noErr_panicking _

theorem safe_returnWasmDecoder {e : Fb.Encoding} {data : Bytes} {outputType : DataType}
    {ctx : WASMReadingContext} {numRows : Nat} :
    Safe (returnWasmDecoder env e data outputType ctx numRows) ↔ e.Loads env ctx := by
  rw [returnWasmDecoder, safe_okOr_bind]
  refine forall₂_congr fun w _ => ?_
  rw [safe_bind_first fun _ _ => safe_pure _, safe_getRuntime]

theorem safe_createEncunitDecoder {e : Fb.Encoding} {c : CompressionType} {data : Bytes}
    {numRows : Nat} {outputType : DataType} {ctx : Option WASMReadingContext} :
    Safe (createEncunitDecoder env e c data numRows outputType ctx) ↔
      After (unitData env c data) fun _ => e.Guarded env ctx := by
  refine safe_bind_after (safe_unitData env c data) fun data' _ => ?_
  unfold Fb.Encoding.Guarded
  cases htype : e.type_ with
  | cascade =>
      dsimp only
      rw [safe_okOr_bind]
      constructor
      · intro h c versions version reader hc hversions hversion hreader hfalls
        have h₁ := safe_okOr_bind.1 (h c hc) versions hversions
        have h₂ := safe_okOr_bind.1 h₁ version hversion
        obtain ⟨reader', hreader', h₃⟩ := safe_unwrapSome_bind.1 h₂
        rw [hreader] at hreader'
        cases hreader'
        rw [if_pos hfalls] at h₃
        exact safe_returnWasmDecoder.1 h₃
      · intro h c hc
        refine safe_okOr_bind.2 fun versions hversions => safe_okOr_bind.2 fun version hversion => ?_
        refine safe_unwrapSome_bind.2 ⟨_, rfl, ?_⟩
        refine safe_ite.2 ⟨fun hfalls => ?_, fun _ => safe_pure _⟩
        exact safe_returnWasmDecoder.2 (h c versions version _ hc hversions hversion rfl hfalls)
  | customWasm =>
      cases ctx with
      | none => exact iff_of_true (safe_fail _) fun c hc => nomatch hc
      | some c =>
          refine safe_returnWasmDecoder.trans ?_
          simp
  | unknown code => exact iff_of_false (not_safe_panicking _) id

/-- Creating the decoder of a unit. -/
theorem safe_unitDecoder {u : Fb.EncUnit} {buf : Bytes} {outputType : DataType}
    {ctx : Option WASMReadingContext} :
    Safe (ChunkDecoder.unitDecoder env u buf outputType ctx) ↔ u.Guarded env buf ctx := by
  rw [ChunkDecoder.unitDecoder, safe_splitTo_bind]
  refine and_congr_right fun _ => ?_
  dsimp only
  rw [safe_unwrapSome_bind]
  refine exists_congr fun e => and_congr_right fun _ => ?_
  rw [safe_bind_first fun _ _ => safe_pure _, safe_createEncunitDecoder]

end F3Format
