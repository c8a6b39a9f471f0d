import F3Format.EncoderLogical
import F3Format.Lib.Cutting

/-!
# The physical encoders as buffers

Three of the encoders (`EncoderDictColEncoder`, `DictColEncoder`,
`ListOfStructColEncoder`) push encoded units on a chunk and cut it by size. They
are instances of one buffer (`Lib.Cutting`): `Buffered` holds the translation
and the proof that every call simulates the call on the buffer.
-/

set_option autoImplicit false

namespace F3Format

open Lib Lib.Cutting

/-! ## The trait -/

/-- A constructor and the methods every physical encoder has. -/
structure ColEncoder (E A : Type) where
  fresh : E
  encode : A → EncAct E (List EncodedColumnChunk)
  finish : EncAct E (List EncodedColumnChunk)
  memorySize : E → Nat

/-- One call. -/
def ColEncoder.call {E A : Type} (m : ColEncoder E A) :
    Call A → EncAct E (List EncodedColumnChunk)
  | .encode a => m.encode a
  | .finish => m.finish

/-- `EncoderDictColEncoder` behind the trait. -/
def EncoderDictColEncoder.colEncoder (env : Env) (columnChunkSize : Nat)
    (w : WASMWritingContext) (enableDict : Bool) (compressionType : CompressionType) :
    ColEncoder EncoderDictColEncoder ArrayRef :=
  ⟨.new columnChunkSize w enableDict compressionType, EncoderDictColEncoder.encode env,
    EncoderDictColEncoder.finish, EncoderDictColEncoder.memorySize⟩

/-- `DictColEncoder` behind the trait. -/
def DictColEncoder.colEncoder (env : Env) (columnChunkSize : Nat) (w : WASMWritingContext)
    (compressionType : CompressionType) : ColEncoder DictColEncoder ArrayRef :=
  ⟨.new columnChunkSize w compressionType, DictColEncoder.encode env, DictColEncoder.finish,
    DictColEncoder.memorySize⟩

/-- `SharedDictColEncoder` behind the trait. -/
def SharedDictColEncoder.colEncoder (env : Env) (fixedDictScope columnChunkSize : Nat)
    (w : WASMWritingContext) (compressionType : CompressionType) :
    ColEncoder SharedDictColEncoder ArrayRef :=
  ⟨.new fixedDictScope columnChunkSize w compressionType, SharedDictColEncoder.encode env,
    SharedDictColEncoder.finish env, SharedDictColEncoder.memorySize⟩

/-- `GLBestEncoder` behind the trait. -/
def GLBestEncoder.colEncoder (env : Env) (sampleSize : Option (Float × Nat))
    (columnChunkSize : Nat) (w : WASMWritingContext) (compressionType : CompressionType) :
    ColEncoder GLBestEncoder ArrayRef :=
  ⟨.new sampleSize columnChunkSize w compressionType, GLBestEncoder.encode env,
    GLBestEncoder.finish env, GLBestEncoder.memorySize⟩

/-- A method of `ListOfStructColEncoder`, which has neither counter nor context,
with the chunk it may return as a list. -/
def ListOfStructColEncoder.method (x : Act Fault ListOfStructColEncoder (Option EncodedColumnChunk)) :
    EncAct ListOfStructColEncoder (List EncodedColumnChunk) := do
  let chunk ← Act.zoom Working.enc (fun s e => { s with enc := e }) x
  pure chunk.toList

/-- `ListOfStructColEncoder` behind the trait; its inputs are a list array and a field. -/
def ListOfStructColEncoder.colEncoder (env : Env) (columnChunkSize : Nat)
    (w : WASMWritingContext) (compressionType : CompressionType) :
    ColEncoder ListOfStructColEncoder (ArrayRef × ArrayRef) :=
  ⟨.new columnChunkSize w compressionType,
    fun a => ListOfStructColEncoder.method (ListOfStructColEncoder.encode env a.1 a.2),
    ListOfStructColEncoder.method ListOfStructColEncoder.finish,
    ListOfStructColEncoder.memorySize⟩

/-! ## What one call pushes -/

/-- The units one call pushes, at least one, and the rows it adds to the chunk. -/
structure PushedUnits where
  first : SerializedEncUnit
  rest : List SerializedEncUnit
  rows : Nat

namespace PushedUnits

/-- The units in order. -/
def units (q : PushedUnits) : List SerializedEncUnit := q.first :: q.rest

/-- The bytes of the units. -/
def size (q : PushedUnits) : Nat := (q.units.map fun u => u.bytes.length).sum

/-- The chunk that holds these pushes under a label. -/
def chunkOf (g : DictionaryEncoding × List PushedUnits) : EncodedColumnChunk :=
  ⟨(g.2.map units).flatten, (g.2.map rows).sum, g.1, 0⟩

@[simp] theorem chunkOf_dictEncoding (g : DictionaryEncoding × List PushedUnits) :
    (chunkOf g).dictEncoding = g.1 := rfl

theorem chunkOf_nil (l : DictionaryEncoding) :
    chunkOf (l, []) = EncodedColumnChunk.withDictEncoding l := rfl

theorem chunkOf_snoc (l : DictionaryEncoding) (items : List PushedUnits) (q : PushedUnits) :
    chunkOf (l, items ++ [q]) =
      { chunkOf (l, items) with
        encunits := (chunkOf (l, items)).encunits ++ q.units
        numRows := (chunkOf (l, items)).numRows + q.rows } := by
  simp [chunkOf]

theorem encunits_isEmpty (l : DictionaryEncoding) (items : List PushedUnits) :
    (chunkOf (l, items)).encunits.isEmpty = items.isEmpty := by
  cases items with
  | nil => rfl
  | cons q qs => rfl

/-- An item with its size, as a buffer wants it. -/
def sized {A : Type} (item : A → Result PushedUnits) (a : A) : Result (PushedUnits × Nat) := do
  let q ← item a
  pure (q, q.size)

theorem sized_of_ok {A : Type} {item : A → Result PushedUnits} {a : A} {q : PushedUnits}
    (h : item a = .ok q) : sized item a = .ok (q, q.size) := by
  simp [sized, h]

theorem sized_of_error {A : Type} {item : A → Result PushedUnits} {a : A} {f : Fault}
    (h : item a = .error f) : sized item a = .error f := by
  simp [sized, h]

theorem sized_eq_ok {A : Type} {item : A → Result PushedUnits} {a : A} {q : PushedUnits × Nat}
    (h : sized item a = .ok q) : item a = .ok q.1 := by
  cases hi : item a with
  | error f => simp [sized, hi] at h
  | ok q' =>
      rw [sized_of_ok hi, Except.ok.injEq] at h
      rw [← h]

end PushedUnits

open PushedUnits

/-! ## Encoders that are buffers -/

/-- An encoder whose calls are the calls on a buffer of pushed units. -/
structure Buffered {E A : Type} (m : ColEncoder E A) where
  policy : CutPolicy DictionaryEncoding
  item : A → Result PushedUnits
  ofBuffer : Buffer PushedUnits DictionaryEncoding → E
  fresh_eq : m.fresh = ofBuffer (Cutting.fresh policy)
  memorySize_eq : ∀ b, m.memorySize (ofBuffer b) = b.size
  simulates : ∀ (c : Call A) (s : Working E) (b : Buffer PushedUnits DictionaryEncoding),
    s.enc = ofBuffer b →
      Act.Simulates (fun s b => s.enc = ofBuffer b) (fun chunks groups => chunks = groups.map chunkOf)
        (m.call c s) (act policy (sized item) c b)
  keepsShared : ∀ (c : Call A) (s : Working E),
    (Act.left (m.call c s)).ctx = s.ctx ∧ (Act.left (m.call c s)).rng = s.rng

namespace Buffered

variable {E A : Type} {m : ColEncoder E A} (B : Buffered m)

/-- The sizes of the units pushed for some inputs; a failing input pushes none. -/
def sizes (as : List A) : List Nat := Cutting.sizes (sized B.item) as

/-- A trace of the encoder is the trace of the buffer with its groups as chunks. -/
theorem trace_eq (cs : List (Call A)) {s : Working E} {b : Buffer PushedUnits DictionaryEncoding}
    (h : s.enc = B.ofBuffer b) :
    (Act.trace m.call cs s).1 =
        (Act.trace (act B.policy (sized B.item)) cs b).1.map (Except.map (List.map chunkOf)) ∧
      (Act.trace m.call cs s).2.enc =
        B.ofBuffer (Act.trace (act B.policy (sized B.item)) cs b).2 := by
  have hsim := Act.trace_simulates m.call (act B.policy (sized B.item))
    (fun _ s b => s.enc = B.ofBuffer b) (fun chunks groups => chunks = groups.map chunkOf) cs 0 s b
    (fun _ c s b _ _ _ hs => B.simulates c s b hs) h
  refine ⟨?_, hsim.2⟩
  have hall := hsim.1
  revert hall
  generalize (Act.trace m.call cs s).1 = xs
  generalize (Act.trace (act B.policy (sized B.item)) cs b).1 = ys
  intro hall
  induction hall with
  | nil => rfl
  | cons hhead htail ih =>
      rw [List.map_cons, ← ih]
      cases hhead with
      | ok hq => rw [hq]; rfl
      | error e => rfl

end Buffered

section Steps

variable {E : Type} (ofBuffer : Buffer PushedUnits DictionaryEncoding → E)
  (p : CutPolicy DictionaryEncoding) (b : Buffer PushedUnits DictionaryEncoding)

/-- A call that pushes `q` and cuts the chunk when the total exceeds the limit. -/
theorem simulates_push (q : PushedUnits) {s₁ s₂ : Working E}
    (h₁ : s₁.enc = ofBuffer (Cutting.fresh p))
    (h₂ : s₂.enc = ofBuffer ⟨b.items ++ [q], b.size + q.size, b.label⟩) :
    Act.Simulates (ε := Fault) (fun s b => s.enc = ofBuffer b)
      (fun chunks groups => chunks = groups.map chunkOf)
      (if b.size + q.size > p.limit then .ok [chunkOf (b.label, b.items ++ [q])] s₁ else .ok [] s₂)
      (.ok (push p b q q.size).2 (push p b q q.size).1) := by
  unfold push
  by_cases hlim : b.size + q.size > p.limit
  · simp only [if_pos hlim]
    exact ⟨.ok rfl, h₁⟩
  · simp only [if_neg hlim]
    exact ⟨.ok rfl, h₂⟩

/-- A call that takes the chunk unless it is empty. -/
theorem simulates_flush {s₁ s₂ : Working E} (h₁ : s₁.enc = ofBuffer b)
    (h₂ : b.items ≠ [] → s₂.enc = ofBuffer ⟨[], if p.keepsSize then b.size else 0, p.flushLabel⟩) :
    Act.Simulates (ε := Fault) (fun s b => s.enc = ofBuffer b)
      (fun chunks groups => chunks = groups.map chunkOf)
      (if (chunkOf (b.label, b.items)).encunits.isEmpty then .ok [] s₁
        else .ok [chunkOf (b.label, b.items)] s₂)
      (.ok (flush p b).2 (flush p b).1) := by
  rw [encunits_isEmpty]
  unfold flush
  cases hb : b.items with
  | nil => exact ⟨.ok rfl, h₁⟩
  | cons q qs => exact ⟨.ok rfl, h₂ (by simp [hb])⟩

end Steps

/-! ### `EncoderDictColEncoder` -/

namespace EncoderDictColEncoder

theorem encode_run (env : Env) (array : ArrayRef) (s : Working EncoderDictColEncoder) :
    encode env array s =
      match encodeEncUnit env s.enc.wasmContext s.enc.enableDict s.enc.compressionType
        s.enc.compressionType array.dataType array with
      | .error f => .error f s
      | .ok unit =>
          if s.enc.accumulatedSize + unit.bytes.length > s.enc.columnChunkSize then
            .ok [s.enc.accumulatedChunk.push unit array.len] { s with
              enc := { s.enc with accumulatedChunk := .default, accumulatedSize := 0 }
              counter := { s.counter with indexSize := s.counter.indexSize + unit.bytes.length } }
          else .ok [] { s with
              enc := { s.enc with
                accumulatedChunk := s.enc.accumulatedChunk.push unit array.len
                accumulatedSize := s.enc.accumulatedSize + unit.bytes.length }
              counter := { s.counter with
                indexSize := s.counter.indexSize + unit.bytes.length } } := by
  rw [encode, Act.get_bind]
  cases encodeEncUnit env s.enc.wasmContext s.enc.enableDict s.enc.compressionType
      s.enc.compressionType array.dataType array with
  | error f => rfl
  | ok unit =>
      rw [Act.lift_ok_bind]
      dsimp only
      split
      · rfl
      · rfl

theorem finish_run (s : Working EncoderDictColEncoder) :
    finish s =
      if s.enc.accumulatedChunk.encunits.isEmpty then
        .ok [] { s with counter := { s.counter with dictType := .encoderDictionary } }
      else .ok [s.enc.accumulatedChunk] { s with
        enc := { s.enc with accumulatedChunk := .default, accumulatedSize := 0 }
        counter := { s.counter with dictType := .encoderDictionary } } := by
  rw [finish, Act.get_bind]
  dsimp only
  split
  · rfl
  · rfl

/-- The unit pushed for an array. -/
def item (env : Env) (w : WASMWritingContext) (enableDict : Bool)
    (compressionType : CompressionType) (array : ArrayRef) : Result PushedUnits := do
  let unit ← encodeEncUnit env w enableDict compressionType compressionType array.dataType array
  pure ⟨unit, [], array.len⟩

/-- The encoder with this buffer. -/
def ofBuffer (columnChunkSize : Nat) (w : WASMWritingContext) (enableDict : Bool)
    (compressionType : CompressionType) (b : Buffer PushedUnits DictionaryEncoding) :
    EncoderDictColEncoder :=
  ⟨chunkOf (b.label, b.items), b.size, columnChunkSize, w, enableDict, compressionType⟩

/-- The policy: a flush resets the total, and both labels are the same. -/
def policy (columnChunkSize : Nat) : CutPolicy DictionaryEncoding :=
  ⟨columnChunkSize, .noDictionary, .noDictionary, false⟩

theorem chunkOf_push (l : DictionaryEncoding) (items : List PushedUnits)
    (unit : SerializedEncUnit) (rows : Nat) :
    (chunkOf (l, items)).push unit rows = chunkOf (l, items ++ [⟨unit, [], rows⟩]) := by
  rw [chunkOf_snoc]
  rfl

theorem simulates (env : Env) (columnChunkSize : Nat) (w : WASMWritingContext)
    (enableDict : Bool) (compressionType : CompressionType) (c : Call ArrayRef)
    (s : Working EncoderDictColEncoder) (b : Buffer PushedUnits DictionaryEncoding)
    (hs : s.enc = ofBuffer columnChunkSize w enableDict compressionType b) :
    Act.Simulates (fun s b => s.enc = ofBuffer columnChunkSize w enableDict compressionType b)
      (fun chunks groups => chunks = groups.map chunkOf)
      ((colEncoder env columnChunkSize w enableDict compressionType).call c s)
      (act (policy columnChunkSize) (sized (item env w enableDict compressionType)) c b) := by
  obtain ⟨e, counter, ctx, rng⟩ := s
  have he : e = ofBuffer columnChunkSize w enableDict compressionType b := hs
  subst he
  cases c with
  | encode array =>
      show Act.Simulates _ _ (encode env array _) _
      rw [encode_run]
      cases hu : encodeEncUnit env w enableDict compressionType compressionType array.dataType
          array with
      | error f =>
          have hi : item env w enableDict compressionType array = .error f := by
            simp [item, hu]
          simp only [ofBuffer, hu, act, sized_of_error hi]
          exact ⟨.error f, rfl⟩
      | ok unit =>
          have hi : item env w enableDict compressionType array = .ok ⟨unit, [], array.len⟩ := by
            simp [item, hu]
          have hsize : (⟨unit, [], array.len⟩ : PushedUnits).size = unit.bytes.length := by
            simp [size, units]
          simp only [ofBuffer, hu, act, sized_of_ok hi, chunkOf_push]
          rw [← hsize]
          exact simulates_push (ofBuffer columnChunkSize w enableDict compressionType)
            (policy columnChunkSize) b _ rfl rfl
  | finish =>
      show Act.Simulates _ _ (finish _) _
      rw [finish_run]
      exact simulates_flush (ofBuffer columnChunkSize w enableDict compressionType)
        (policy columnChunkSize) b rfl fun _ => rfl

theorem keepsShared (env : Env) (columnChunkSize : Nat) (w : WASMWritingContext)
    (enableDict : Bool) (compressionType : CompressionType) (c : Call ArrayRef)
    (s : Working EncoderDictColEncoder) :
    (Act.left ((colEncoder env columnChunkSize w enableDict compressionType).call c s)).ctx = s.ctx ∧
      (Act.left ((colEncoder env columnChunkSize w enableDict compressionType).call c s)).rng =
        s.rng := by
  cases c with
  | encode array =>
      show (Act.left (encode env array s)).ctx = s.ctx ∧ (Act.left (encode env array s)).rng = s.rng
      rw [encode_run]
      split
      · exact ⟨rfl, rfl⟩
      · split
        · exact ⟨rfl, rfl⟩
        · exact ⟨rfl, rfl⟩
  | finish =>
      show (Act.left (finish s)).ctx = s.ctx ∧ (Act.left (finish s)).rng = s.rng
      rw [finish_run]
      split
      · exact ⟨rfl, rfl⟩
      · exact ⟨rfl, rfl⟩

/-- The encoder is a buffer. -/
def buffered (env : Env) (columnChunkSize : Nat) (w : WASMWritingContext) (enableDict : Bool)
    (compressionType : CompressionType) :
    Buffered (colEncoder env columnChunkSize w enableDict compressionType) where
  policy := policy columnChunkSize
  item := item env w enableDict compressionType
  ofBuffer := ofBuffer columnChunkSize w enableDict compressionType
  fresh_eq := rfl
  memorySize_eq := fun _ => rfl
  simulates := simulates env columnChunkSize w enableDict compressionType
  keepsShared := keepsShared env columnChunkSize w enableDict compressionType

end EncoderDictColEncoder

/-! ### `DictColEncoder` -/

namespace DictColEncoder

theorem encode_run (env : Env) (array : ArrayRef) (s : Working DictColEncoder) :
    encode env array s =
      match units env s.enc.wasmContext s.enc.compressionType array with
      | .error f => .error f s
      | .ok (dictUnit, indexUnit, indicesLen) =>
          let size := dictUnit.bytes.length + indexUnit.bytes.length
          let chunk := (s.enc.accumulatedChunk.push dictUnit 0).push indexUnit indicesLen
          let counter := { s.counter with
            dictSize := s.counter.dictSize + dictUnit.bytes.length
            indexSize := s.counter.indexSize + indexUnit.bytes.length }
          if s.enc.accumulatedSize + size > s.enc.columnChunkSize then
            .ok [chunk] { s with
              enc := { s.enc with
                accumulatedChunk := .withDictEncoding (.dictionary [])
                accumulatedSize := 0 }
              counter := counter }
          else .ok [] { s with
            enc := { s.enc with
              accumulatedChunk := chunk
              accumulatedSize := s.enc.accumulatedSize + size }
            counter := counter } := by
  rw [encode, Act.get_bind]
  cases units env s.enc.wasmContext s.enc.compressionType array with
  | error f => rfl
  | ok r =>
      obtain ⟨dictUnit, indexUnit, indicesLen⟩ := r
      rw [Act.lift_ok_bind]
      dsimp only
      split
      · rfl
      · rfl

theorem finish_run (s : Working DictColEncoder) :
    finish s =
      if s.enc.accumulatedChunk.encunits.isEmpty then
        .ok [] { s with counter := { s.counter with dictType := .localDictionary } }
      else .ok [s.enc.accumulatedChunk] { s with
        enc := { s.enc with accumulatedChunk := .default }
        counter := { s.counter with dictType := .localDictionary } } := by
  rw [finish, Act.get_bind]
  dsimp only
  split
  · rfl
  · rfl

/-- The two units pushed for an array. -/
def item (env : Env) (w : WASMWritingContext) (compressionType : CompressionType)
    (array : ArrayRef) : Result PushedUnits := do
  let (dictUnit, indexUnit, indicesLen) ← units env w compressionType array
  pure ⟨dictUnit, [indexUnit], indicesLen⟩

/-- The encoder with this buffer. -/
def ofBuffer (columnChunkSize : Nat) (w : WASMWritingContext) (compressionType : CompressionType)
    (b : Buffer PushedUnits DictionaryEncoding) : DictColEncoder :=
  ⟨chunkOf (b.label, b.items), b.size, columnChunkSize, w, compressionType⟩

/-- The policy: a flush keeps the total, and leaves the default label behind. -/
def policy (columnChunkSize : Nat) : CutPolicy DictionaryEncoding :=
  ⟨columnChunkSize, .dictionary [], .noDictionary, true⟩

theorem chunkOf_push_push (l : DictionaryEncoding) (items : List PushedUnits)
    (dictUnit indexUnit : SerializedEncUnit) (rows : Nat) :
    ((chunkOf (l, items)).push dictUnit 0).push indexUnit rows =
      chunkOf (l, items ++ [⟨dictUnit, [indexUnit], rows⟩]) := by
  rw [chunkOf_snoc]
  simp [EncodedColumnChunk.push, PushedUnits.units]

theorem simulates (env : Env) (columnChunkSize : Nat) (w : WASMWritingContext)
    (compressionType : CompressionType) (c : Call ArrayRef) (s : Working DictColEncoder)
    (b : Buffer PushedUnits DictionaryEncoding)
    (hs : s.enc = ofBuffer columnChunkSize w compressionType b) :
    Act.Simulates (fun s b => s.enc = ofBuffer columnChunkSize w compressionType b)
      (fun chunks groups => chunks = groups.map chunkOf)
      ((colEncoder env columnChunkSize w compressionType).call c s)
      (act (policy columnChunkSize) (sized (item env w compressionType)) c b) := by
  obtain ⟨e, counter, ctx, rng⟩ := s
  have he : e = ofBuffer columnChunkSize w compressionType b := hs
  subst he
  cases c with
  | encode array =>
      show Act.Simulates _ _ (encode env array _) _
      rw [encode_run]
      cases hu : units env w compressionType array with
      | error f =>
          have hi : item env w compressionType array = .error f := by simp [item, hu]
          simp only [ofBuffer, hu, act, sized_of_error hi]
          exact ⟨.error f, rfl⟩
      | ok r =>
          obtain ⟨dictUnit, indexUnit, indicesLen⟩ := r
          have hi : item env w compressionType array =
              .ok ⟨dictUnit, [indexUnit], indicesLen⟩ := by simp [item, hu]
          have hsize : (⟨dictUnit, [indexUnit], indicesLen⟩ : PushedUnits).size =
              dictUnit.bytes.length + indexUnit.bytes.length := by
            simp [size, PushedUnits.units]
          simp only [ofBuffer, hu, act, sized_of_ok hi, chunkOf_push_push]
          rw [← hsize]
          exact simulates_push (ofBuffer columnChunkSize w compressionType)
            (policy columnChunkSize) b _ rfl rfl
  | finish =>
      show Act.Simulates _ _ (finish _) _
      rw [finish_run]
      exact simulates_flush (ofBuffer columnChunkSize w compressionType)
        (policy columnChunkSize) b rfl fun _ => rfl

theorem keepsShared (env : Env) (columnChunkSize : Nat) (w : WASMWritingContext)
    (compressionType : CompressionType) (c : Call ArrayRef) (s : Working DictColEncoder) :
    (Act.left ((colEncoder env columnChunkSize w compressionType).call c s)).ctx = s.ctx ∧
      (Act.left ((colEncoder env columnChunkSize w compressionType).call c s)).rng = s.rng := by
  cases c with
  | encode array =>
      show (Act.left (encode env array s)).ctx = s.ctx ∧ (Act.left (encode env array s)).rng = s.rng
      rw [encode_run]
      split
      · exact ⟨rfl, rfl⟩
      · dsimp only
        split
        · exact ⟨rfl, rfl⟩
        · exact ⟨rfl, rfl⟩
  | finish =>
      show (Act.left (finish s)).ctx = s.ctx ∧ (Act.left (finish s)).rng = s.rng
      rw [finish_run]
      split
      · exact ⟨rfl, rfl⟩
      · exact ⟨rfl, rfl⟩

/-- The encoder is a buffer. -/
def buffered (env : Env) (columnChunkSize : Nat) (w : WASMWritingContext)
    (compressionType : CompressionType) :
    Buffered (colEncoder env columnChunkSize w compressionType) where
  policy := policy columnChunkSize
  item := item env w compressionType
  ofBuffer := ofBuffer columnChunkSize w compressionType
  fresh_eq := rfl
  memorySize_eq := fun _ => rfl
  simulates := simulates env columnChunkSize w compressionType
  keepsShared := keepsShared env columnChunkSize w compressionType

end DictColEncoder

/-! ### `ListOfStructColEncoder` -/

namespace ListOfStructColEncoder

theorem method_run (x : Act Fault ListOfStructColEncoder (Option EncodedColumnChunk))
    (s : Working ListOfStructColEncoder) :
    method x s =
      match x s.enc with
      | .ok chunk e => .ok chunk.toList { s with enc := e }
      | .error f e => .error f { s with enc := e } := by
  cases hx : x s.enc with
  | ok chunk e =>
      have hz : Act.zoom Working.enc (fun s e => { s with enc := e }) x s =
          .ok chunk { s with enc := e } := by
        simp [Act.zoom, hx]
      exact Act.bind_of_ok _ hz
  | error f e =>
      have hz : Act.zoom Working.enc (fun s e => { s with enc := e }) x s =
          .error f { s with enc := e } := by
        simp [Act.zoom, hx]
      exact Act.bind_of_error _ hz

theorem encode_run (env : Env) (listArray field : ArrayRef)
    (s : Working ListOfStructColEncoder) :
    method (encode env listArray field) s =
      match unit env s.enc.wasmContext s.enc.compressionType listArray field with
      | .error f => .error f s
      | .ok u =>
          if s.enc.accumulatedSize + u.bytes.length > s.enc.columnChunkSize then
            .ok [s.enc.accumulatedChunk.push u listArray.len]
              { s with enc := { s.enc with accumulatedChunk := .default, accumulatedSize := 0 } }
          else .ok [] { s with enc := { s.enc with
            accumulatedChunk := s.enc.accumulatedChunk.push u listArray.len
            accumulatedSize := s.enc.accumulatedSize + u.bytes.length } } := by
  rw [method_run, encode, Act.get_bind]
  cases unit env s.enc.wasmContext s.enc.compressionType listArray field with
  | error f => rfl
  | ok u =>
      rw [Act.lift_ok_bind]
      dsimp only
      by_cases hlim : s.enc.accumulatedSize + u.bytes.length > s.enc.columnChunkSize
      · simp only [if_pos hlim]
        rfl
      · simp only [if_neg hlim]
        rfl

theorem finish_run (s : Working ListOfStructColEncoder) :
    method finish s =
      if s.enc.accumulatedChunk.encunits.isEmpty then .ok [] s
      else .ok [s.enc.accumulatedChunk]
        { s with enc := { s.enc with accumulatedChunk := .default } } := by
  rw [method_run, finish, Act.get_bind]
  by_cases hnil : s.enc.accumulatedChunk.encunits.isEmpty
  · simp only [if_pos hnil]
    rfl
  · simp only [if_neg hnil]
    rfl

/-- The unit pushed for a list array and a field. -/
def item (env : Env) (w : WASMWritingContext) (compressionType : CompressionType)
    (a : ArrayRef × ArrayRef) : Result PushedUnits := do
  let u ← unit env w compressionType a.1 a.2
  pure ⟨u, [], a.1.len⟩

/-- The encoder with this buffer. -/
def ofBuffer (columnChunkSize : Nat) (w : WASMWritingContext) (compressionType : CompressionType)
    (b : Buffer PushedUnits DictionaryEncoding) : ListOfStructColEncoder :=
  ⟨chunkOf (b.label, b.items), b.size, columnChunkSize, w, compressionType⟩

/-- The policy: a flush keeps the total; the default label is that of the constructor. -/
def policy (columnChunkSize : Nat) : CutPolicy DictionaryEncoding :=
  ⟨columnChunkSize, .noDictionary, .noDictionary, true⟩

theorem simulates (env : Env) (columnChunkSize : Nat) (w : WASMWritingContext)
    (compressionType : CompressionType) (c : Call (ArrayRef × ArrayRef))
    (s : Working ListOfStructColEncoder) (b : Buffer PushedUnits DictionaryEncoding)
    (hs : s.enc = ofBuffer columnChunkSize w compressionType b) :
    Act.Simulates (fun s b => s.enc = ofBuffer columnChunkSize w compressionType b)
      (fun chunks groups => chunks = groups.map chunkOf)
      ((colEncoder env columnChunkSize w compressionType).call c s)
      (act (policy columnChunkSize) (sized (item env w compressionType)) c b) := by
  obtain ⟨e, counter, ctx, rng⟩ := s
  have he : e = ofBuffer columnChunkSize w compressionType b := hs
  subst he
  cases c with
  | encode a =>
      show Act.Simulates _ _ (method (encode env a.1 a.2) _) _
      rw [encode_run]
      cases hu : unit env w compressionType a.1 a.2 with
      | error f =>
          have hi : item env w compressionType a = .error f := by simp [item, hu]
          simp only [ofBuffer, hu, act, sized_of_error hi]
          exact ⟨.error f, rfl⟩
      | ok u =>
          have hi : item env w compressionType a = .ok ⟨u, [], a.1.len⟩ := by simp [item, hu]
          have hsize : (⟨u, [], a.1.len⟩ : PushedUnits).size = u.bytes.length := by
            simp [size, PushedUnits.units]
          simp only [ofBuffer, hu, act, sized_of_ok hi, EncoderDictColEncoder.chunkOf_push]
          rw [← hsize]
          exact simulates_push (ofBuffer columnChunkSize w compressionType)
            (policy columnChunkSize) b _ rfl rfl
  | finish =>
      show Act.Simulates _ _ (method finish _) _
      rw [finish_run]
      exact simulates_flush (ofBuffer columnChunkSize w compressionType)
        (policy columnChunkSize) b rfl fun _ => rfl

theorem keepsShared (env : Env) (columnChunkSize : Nat) (w : WASMWritingContext)
    (compressionType : CompressionType) (c : Call (ArrayRef × ArrayRef))
    (s : Working ListOfStructColEncoder) :
    (Act.left ((colEncoder env columnChunkSize w compressionType).call c s)).ctx = s.ctx ∧
      (Act.left ((colEncoder env columnChunkSize w compressionType).call c s)).rng = s.rng := by
  cases c with
  | encode a =>
      show (Act.left (method (encode env a.1 a.2) s)).ctx = s.ctx ∧
        (Act.left (method (encode env a.1 a.2) s)).rng = s.rng
      rw [encode_run]
      split
      · exact ⟨rfl, rfl⟩
      · split
        · exact ⟨rfl, rfl⟩
        · exact ⟨rfl, rfl⟩
  | finish =>
      show (Act.left (method finish s)).ctx = s.ctx ∧ (Act.left (method finish s)).rng = s.rng
      rw [finish_run]
      split
      · exact ⟨rfl, rfl⟩
      · exact ⟨rfl, rfl⟩

/-- The encoder is a buffer. -/
def buffered (env : Env) (columnChunkSize : Nat) (w : WASMWritingContext)
    (compressionType : CompressionType) :
    Buffered (colEncoder env columnChunkSize w compressionType) where
  policy := policy columnChunkSize
  item := item env w compressionType
  ofBuffer := ofBuffer columnChunkSize w compressionType
  fresh_eq := rfl
  memorySize_eq := fun _ => rfl
  simulates := simulates env columnChunkSize w compressionType
  keepsShared := keepsShared env columnChunkSize w compressionType

end ListOfStructColEncoder

end F3Format
