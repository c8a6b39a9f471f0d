import F3Format.EncodedUnits
import F3Format.DictionaryTable
import F3Format.SampleEnv

/-!
# Labels of encoding units

A unit records the compression type of its bytes, and a decoder decompresses by
that record. `Faithful` says that the bytes of a unit are the compressed output
of an encoder under the recorded type. The column encoders only push faithful
units, in any run; the units of shared dictionaries are labelled with a type
that was not applied to them.
-/

set_option autoImplicit false

namespace F3Format

open Lib Lib.Cutting PushedUnits

/-- The bytes of `u` are `payload` compressed as recorded, and the decompression
step of a decoder recovers it. -/
structure FaithfulTo (env : Env) (payload : Bytes) (u : SerializedEncUnit) : Prop where
  compressed : compressData env payload u.compressionType = .ok u.bytes
  recovered : unitData env u.compressionType u.bytes = .ok payload

/-- What an encoder produced for an array, or the list encoder for a list and a
field of its structs. -/
inductive Produced (env : Env) (w : WASMWritingContext) : Bytes → Prop where
  | encUnit {enableDict : Bool} {array : ArrayRef} {payload : Bytes}
      (h : unitPayload env w enableDict array = .ok payload) : Produced env w payload
  | listStruct {listArray field : ArrayRef} {buffers : List Bytes}
      (h : listStructEncode env true listArray field = .ok buffers) :
      Produced env w buffers.flatten

/-- The unit holds what an encoder produced, compressed as the unit says. -/
def Faithful (env : Env) (w : WASMWritingContext) (u : SerializedEncUnit) : Prop :=
  ∃ payload, Produced env w payload ∧ FaithfulTo env payload u

/-- Every unit one call pushes is faithful. -/
def PushedUnits.Faithful (env : Env) (w : WASMWritingContext) (q : PushedUnits) : Prop :=
  ∀ u ∈ q.units, F3Format.Faithful env w u

/-- Every unit of the chunk is faithful. -/
def EncodedColumnChunk.Faithful (env : Env) (w : WASMWritingContext) (c : EncodedColumnChunk) :
    Prop := ∀ u ∈ c.encunits, F3Format.Faithful env w u

/-- Every unit of every chunk is faithful. -/
def AllFaithful (env : Env) (w : WASMWritingContext) (cs : List EncodedColumnChunk) : Prop :=
  ∀ c ∈ cs, c.Faithful env w

section Units

variable {env : Env} {w : WASMWritingContext}

theorem faithfulTo_of_compressed (laws : env.CompressionLaws) {payload : Bytes}
    {u : SerializedEncUnit} (h : compressData env payload u.compressionType = .ok u.bytes) :
    FaithfulTo env payload u :=
  ⟨h, unitData_of_compressData laws h⟩

/-- A push site that records the type it applied pushes a faithful unit. -/
theorem encodeEncUnit_faithful (laws : env.CompressionLaws) {enableDict : Bool}
    {c : CompressionType} {wasmKey : DataType} {array : ArrayRef} {u : SerializedEncUnit}
    (h : encodeEncUnit env w enableDict c c wasmKey array = .ok u) : Faithful env w u := by
  unfold encodeEncUnit at h
  simp only [bind_eq_ok, pure_eq_ok, Except.ok.injEq] at h
  obtain ⟨payload, hpayload, out, hout, rfl⟩ := h
  exact ⟨payload, .encUnit hpayload, faithfulTo_of_compressed laws hout⟩

theorem pushSites_faithful (laws : env.CompressionLaws) :
    PushSites env w (Faithful env w) where
  encUnit := fun _ _ _ _ h => encodeEncUnit_faithful laws h
  dict := by
    intro c array r h
    unfold DictColEncoder.units at h
    simp only [bind_eq_ok, pure_eq_ok, Except.ok.injEq] at h
    obtain ⟨arrays, -, dictPayload, hdict, indexPayload, hindex, dictOut, hdictOut, indexOut,
      hindexOut, rfl⟩ := h
    exact ⟨⟨dictPayload, .encUnit hdict, faithfulTo_of_compressed laws hdictOut⟩,
      ⟨indexPayload, .encUnit hindex, faithfulTo_of_compressed laws hindexOut⟩⟩

theorem listOfStructItem_faithful (laws : env.CompressionLaws) {c : CompressionType}
    {a : ArrayRef × ArrayRef} {q : PushedUnits}
    (h : ListOfStructColEncoder.item env w c a = .ok q) : q.Faithful env w := by
  unfold ListOfStructColEncoder.item ListOfStructColEncoder.unit at h
  simp only [bind_eq_ok, pure_eq_ok, Except.ok.injEq] at h
  obtain ⟨r, ⟨buffers, hbuffers, out, hout, rfl⟩, rfl⟩ := h
  rw [unwrap_eq_ok] at hbuffers
  intro u hu
  rw [units, List.mem_singleton] at hu
  subst hu
  exact ⟨buffers.flatten, .listStruct hbuffers, faithfulTo_of_compressed laws hout⟩

end Units

/-! ## The column encoders -/

section Encoders

variable {env : Env} {w : WASMWritingContext}

/-- An encoder that is a buffer, with faithful units in the buffer. -/
def Buffered.Holds {E A : Type} {m : ColEncoder E A} (B : Buffered m) (env : Env)
    (w : WASMWritingContext) (e : E) : Prop :=
  ∃ b, e = B.ofBuffer b ∧ ∀ q ∈ b.items, q.Faithful env w

/-! ## Behind the trait -/

/-- A call on a physical encoder. -/
inductive EncoderCall where
  | encode (array : ArrayRef)
  | submitDict
  | finish

/-- Makes the call; `submit_dict` returns no chunk. -/
def PhysicalColEncoder.call (env : Env) :
    EncoderCall → EncAct PhysicalColEncoder (List EncodedColumnChunk)
  | .encode array => encode env array
  | .submitDict => do
      submitDict
      pure []
  | .finish => finish env

/-- What is buffered is faithful, and everything is encoded in the context `w`. -/
def PhysicalColEncoder.Holds (env : Env) (w : WASMWritingContext)
    (s : Working PhysicalColEncoder) : Prop :=
  match s.enc with
  | .encoderDict e => ∃ columnChunkSize enableDict c,
      (EncoderDictColEncoder.buffered env columnChunkSize w enableDict c).Holds env w e
  | .dict e => ∃ columnChunkSize c, (DictColEncoder.buffered env columnChunkSize w c).Holds env w e
  | .sharedDict e => e.wasmContext = w
  | .glBest e => e.wasmContext = w

/-- Every call keeps the invariant and returns faithful chunks. -/
theorem PhysicalColEncoder.call_faithful (laws : env.CompressionLaws) (c : EncoderCall) :
    Act.Maintains (Holds env w) (AllFaithful env w) (call env c) := by
  cases c with
  | encode array => exact encode_units (pushSites_faithful laws) array
  | submitDict =>
      apply Act.maintains_bind submitDict_units
      intro _ _
      exact Act.maintains_pure allUnits_nil
  | finish => exact finish_units (pushSites_faithful laws)

/-- A new encoder has nothing buffered. -/
theorem holds_of_createPhysicalEncoder {dataType : DataType} {columnChunkSize : Nat}
    {dictionaryType : DictionaryTypeOptions} {c : CompressionType} {e : PhysicalColEncoder}
    (h : createPhysicalEncoder dataType columnChunkSize w dictionaryType c = .ok e)
    (o : Shared) : PhysicalColEncoder.Holds env w (o.embed fun _ => e) :=
  PhysicalColEncoder.holdsUnits_create h

end Encoders

/-! ## The units of dictionaries -/

/-- The chunk of a piece is one unit that is faithful to the piece. -/
def FaithfulPiece (env : Env) (w : WASMWritingContext) (piece : SharedDictionaryContext.Piece)
    (chunk : EncodedColumnChunk) : Prop :=
  ∃ payload u, unitPayload env w false piece.1 = .ok payload ∧ chunk.encunits = [u] ∧
    FaithfulTo env payload u

/-- The unit of a piece holds the payload itself, so that its label is true only
of a payload that compression does not change. -/
theorem faithfulPiece_iff {env : Env} (laws : env.CompressionLaws) {ctx : SharedDictionaryContext}
    {w : WASMWritingContext} {piece : SharedDictionaryContext.Piece} {chunk : EncodedColumnChunk}
    (h : SharedDictionaryContext.IsChunkOf env ctx w piece chunk) :
    FaithfulPiece env w piece chunk ↔ ∀ payload, unitPayload env w false piece.1 = .ok payload →
      compressData env payload ctx.compressionType = .ok payload := by
  obtain ⟨u, ⟨payload, hpayload, rfl⟩, rfl⟩ := h
  constructor
  · rintro ⟨payload', u', hpayload', hu, hfaithful⟩ p hp
    rw [hpayload] at hpayload' hp
    cases hpayload'
    cases hp
    cases hu
    exact hfaithful.compressed
  · intro hfix
    exact ⟨payload, _, hpayload, rfl, faithfulTo_of_compressed laws (hfix payload hpayload)⟩

theorem forall₂_iff_forall {α β : Type} {R S : α → β → Prop} {P : α → Prop} {as : List α}
    {bs : List β} (h : List.Forall₂ R as bs) (hRS : ∀ a b, R a b → (S a b ↔ P a)) :
    List.Forall₂ S as bs ↔ ∀ a ∈ as, P a := by
  induction h with
  | nil => simp
  | cons hhead _ ih => rw [List.forall₂_cons, ih, hRS _ _ hhead, List.forall_mem_cons]

/-- Every unit a column encoder emits, in any run, is labelled with the
compression applied to it; the units of shared dictionaries are exactly when
compression does not change their payloads. -/
theorem units_faithful {env : Env} (laws : env.CompressionLaws) (w : WASMWritingContext)
    (c : CompressionType) (columnChunkSize : Nat) :
    (∀ dataType dictionaryType e (o : Shared) calls,
      createPhysicalEncoder dataType columnChunkSize w dictionaryType c = .ok e →
        ∀ r ∈ (Act.trace (PhysicalColEncoder.call env) calls (o.embed fun _ => e)).1,
          ∀ chunks, r = .ok chunks → AllFaithful env w chunks) ∧
    (∀ (o : Shared) calls, ∀ r ∈ (Act.trace (ListOfStructColEncoder.colEncoder env columnChunkSize w c).call
        calls (o.embed fun _ => .new columnChunkSize w c)).1,
      ∀ chunks, r = .ok chunks → AllFaithful env w chunks) ∧
    (∀ (ctx : SharedDictionaryContext) r, ctx.compressionType = c →
      ctx.finishAndFlush env w = .ok r →
        (List.Forall₂ (FaithfulPiece env w) ctx.pieces r.1.flatten ↔
          ∀ piece ∈ ctx.pieces, ∀ payload, unitPayload env w false piece.1 = .ok payload →
            compressData env payload c = .ok payload)) := by
  refine ⟨?_, ?_, ?_⟩
  · intro dataType dictionaryType e o calls he
    exact Act.trace_maintains (PhysicalColEncoder.call_faithful laws) calls
      (holds_of_createPhysicalEncoder he o)
  · intro o calls
    exact Act.trace_maintains
      ((ListOfStructColEncoder.buffered env columnChunkSize w c).maintains
        fun _ _ hq => listOfStructItem_faithful laws hq) calls (Buffered.holdsUnits_fresh _)
  · intro ctx r hc hr
    subst hc
    exact forall₂_iff_forall (SharedDictionaryContext.finishAndFlush_spec hr)
      fun piece chunk h => faithfulPiece_iff laws h

/-- The encoder of an integer column, compressed, on a run of one array. -/
theorem units_faithful_lz4 : Sample.env.CompressionLaws ∧
    ∀ r ∈ (Act.trace (PhysicalColEncoder.call Sample.env) [.encode Sample.seven, .finish]
        (Sample.shared.embed fun _ => .encoderDict (.new 1000 .empty true .lz4))).1,
      ∀ chunks, r = .ok chunks → AllFaithful Sample.env .empty chunks :=
  ⟨Sample.compressionLaws, (units_faithful Sample.compressionLaws .empty .lz4 1000).1 (.prim .int32)
    .encoderDictionary _ _ _ rfl⟩

/-- A context with one dictionary, of one number. -/
def Sample.sevenContext (c : CompressionType) : SharedDictionaryContext :=
  ⟨[⟨.int32, ⟨[.int 7], [some 0], [(.int 7, 0)]⟩, PrimType.dictSupported_int32⟩], false, [], c⟩

/-- The unit of a dictionary written under lz4 is no lz4 block of anything. -/
theorem dictionary_unit_not_compressed :
    ¬ ∀ r, (Sample.sevenContext .lz4).finishAndFlush Sample.env .empty = .ok r →
      ∀ chunk ∈ r.1.flatten, ∀ u ∈ chunk.encunits,
        ∃ payload, compressData Sample.env payload u.compressionType = .ok u.bytes := by
  intro h
  obtain ⟨payload, hpayload⟩ := h _ rfl _ (List.mem_cons_self) _ (List.mem_cons_self)
  -- an lz4 block of the environment starts with 4, the payload of an encoder with 0
  have hhead : (4 :: payload).head? = some (0 : UInt8) := congrArg
    (fun r : Result Bytes => match r with
      | .ok b => b.head?
      | .error _ => none) hpayload
  cases hhead

end F3Format
