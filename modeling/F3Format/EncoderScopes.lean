import F3Format.EncoderRuns

/-!
# The physical encoders that buffer arrays

`SharedDictColEncoder` and `GLBestEncoder` buffer arrays and encode the indices
of all of them together. Their common loop cuts the index units as one list
(`encodeSharedToChunks_spec`). What a scope and a `finish` do is a function of
the buffered arrays, and of the generator; the context only supplies the id of
the new dictionary (`encodeDictScope_spec`, `finish_spec`).
-/

set_option autoImplicit false

namespace F3Format

open Lib Lib.Cutting PushedUnits

/-! ## Index units -/

/-- What the loop over index units does to the counter for `n` bytes. -/
def countUnits (isIndex : Bool) (n : Nat) (counter : EncodingCounter) : EncodingCounter :=
  if isIndex then { counter with indexSize := counter.indexSize + n }
  else { counter with dictSize := counter.dictSize + n }

@[simp] theorem countUnits_zero (isIndex : Bool) (counter : EncodingCounter) :
    countUnits isIndex 0 counter = counter := by
  cases isIndex <;> rfl

theorem countUnits_add (isIndex : Bool) (n m : Nat) (counter : EncodingCounter) :
    countUnits isIndex m (countUnits isIndex n counter) = countUnits isIndex (n + m) counter := by
  cases isIndex
  · simp [countUnits, Nat.add_assoc]
  · simp [countUnits, Nat.add_assoc]

section UnitsLoop

variable (env : Env) (w : WASMWritingContext) (compressionType : CompressionType)
  (columnChunkSize : Nat) (dictIdx : Option Nat)

/-- The units of some index arrays with their sizes. -/
def indexItems (arrs : List ArrayRef) : Result (List (PushedUnits × Nat)) :=
  collect (sized (EncoderDictColEncoder.item env w false compressionType)) arrs

/-- The groups the loop cuts the units into; only index units are cut. -/
def indexGroups (columnChunkSize : Nat) (isIndex : Bool)
    (items : List (PushedUnits × Nat)) : List (List PushedUnits) :=
  cutAll (if isIndex then some columnChunkSize else none) items [] 0

theorem encodeUnitsLoop_cons_run (arr : ArrayRef) (arrs : List ArrayRef)
    (chunk : EncodedColumnChunk) (size : Nat) (res : List EncodedColumnChunk)
    (counter : EncodingCounter) :
    encodeUnitsLoop env w compressionType columnChunkSize dictIdx (arr :: arrs) chunk size res
        counter =
      match encodeEncUnit env w false compressionType compressionType arr.dataType arr with
      | .error f => .error f counter
      | .ok unit =>
          if dictIdx.isSome ∧ size + unit.bytes.length > columnChunkSize then
            encodeUnitsLoop env w compressionType columnChunkSize dictIdx arrs
              (.withDictEncoding (sharedLabel dictIdx)) 0 (res ++ [chunk.push unit arr.len])
              (countUnits dictIdx.isSome unit.bytes.length counter)
          else encodeUnitsLoop env w compressionType columnChunkSize dictIdx arrs
            (chunk.push unit arr.len) (size + unit.bytes.length) res
            (countUnits dictIdx.isSome unit.bytes.length counter) := by
  rw [encodeUnitsLoop]
  cases encodeEncUnit env w false compressionType compressionType arr.dataType arr with
  | error f => rfl
  | ok unit =>
      rw [Act.lift_ok_bind]
      dsimp only
      rw [Act.modify_bind]
      split
      · rfl
      · rfl

/-- The loop from any point of it: its chunks are the groups of the units left. -/
theorem encodeUnitsLoop_spec : ∀ (arrs : List ArrayRef) (acc : List PushedUnits) (size : Nat)
    (res : List EncodedColumnChunk) (counter : EncodingCounter),
    match indexItems env w compressionType arrs with
    | .ok items =>
        encodeUnitsLoop env w compressionType columnChunkSize dictIdx arrs
            (chunkOf (sharedLabel dictIdx, acc)) size res counter =
          .ok (res ++ (cutAll (if dictIdx.isSome then some columnChunkSize else none) items acc
              size).map fun g => chunkOf (sharedLabel dictIdx, g))
            (countUnits dictIdx.isSome (items.map Prod.snd).sum counter)
    | .error f =>
        ∃ counter', encodeUnitsLoop env w compressionType columnChunkSize dictIdx arrs
          (chunkOf (sharedLabel dictIdx, acc)) size res counter = .error f counter'
  | [], acc, size, res, counter => by
      show encodeUnitsLoop env w compressionType columnChunkSize dictIdx []
        (chunkOf (sharedLabel dictIdx, acc)) size res counter = _
      rw [encodeUnitsLoop, cutAll]
      by_cases h : size > 0
      · simp only [if_pos h]
        simp
      · simp only [if_neg h]
        simp
  | arr :: arrs, acc, size, res, counter => by
      have ih := encodeUnitsLoop_spec arrs
      rw [encodeUnitsLoop_cons_run]
      cases hu : encodeEncUnit env w false compressionType compressionType arr.dataType arr with
      | error f =>
          have hi : EncoderDictColEncoder.item env w false compressionType arr = .error f := by
            simp [EncoderDictColEncoder.item, hu]
          have hitems : indexItems env w compressionType (arr :: arrs) = .error f := by
            simp [indexItems, collect, sized_of_error hi]
          rw [hitems]
          exact ⟨counter, rfl⟩
      | ok unit =>
          have hi : EncoderDictColEncoder.item env w false compressionType arr =
              .ok ⟨unit, [], arr.len⟩ := by
            simp [EncoderDictColEncoder.item, hu]
          have hsize : (⟨unit, [], arr.len⟩ : PushedUnits).size = unit.bytes.length := by
            simp [PushedUnits.size, PushedUnits.units]
          have hcons : indexItems env w compressionType (arr :: arrs) =
              (indexItems env w compressionType arrs >>= fun items =>
                .ok ((⟨unit, [], arr.len⟩, unit.bytes.length) :: items)) := by
            simp [indexItems, collect, sized_of_ok hi, hsize]
          rw [hcons]
          dsimp only
          rw [EncoderDictColEncoder.chunkOf_push]
          by_cases hcut : dictIdx.isSome ∧ size + unit.bytes.length > columnChunkSize
          · rw [if_pos hcut]
            have hrest := ih [] 0 (res ++ [chunkOf (sharedLabel dictIdx,
              acc ++ [⟨unit, [], arr.len⟩])])
              (countUnits dictIdx.isSome unit.bytes.length counter)
            cases hitems : indexItems env w compressionType arrs with
            | error f => rw [hitems] at hrest; exact hrest
            | ok items =>
                rw [hitems] at hrest
                have hlim : ((if dictIdx.isSome then some columnChunkSize else none :
                    Option Nat).any fun n => decide (size + unit.bytes.length > n)) = true := by
                  simp [hcut.1, hcut.2]
                show encodeUnitsLoop _ _ _ _ _ _ _ _ _ _ = _
                rw [cutAll, if_pos hlim]
                refine hrest.trans ?_
                rw [countUnits_add]
                simp
          · rw [if_neg hcut]
            have hrest := ih (acc ++ [⟨unit, [], arr.len⟩]) (size + unit.bytes.length) res
              (countUnits dictIdx.isSome unit.bytes.length counter)
            cases hitems : indexItems env w compressionType arrs with
            | error f => rw [hitems] at hrest; exact hrest
            | ok items =>
                rw [hitems] at hrest
                have hlim : ¬ ((if dictIdx.isSome then some columnChunkSize else none :
                    Option Nat).any fun n => decide (size + unit.bytes.length > n)) = true := by
                  cases hsome : dictIdx.isSome with
                  | false => simp
                  | true => simpa [hsome] using hcut
                show encodeUnitsLoop _ _ _ _ _ _ _ _ _ _ = _
                rw [cutAll, if_neg hlim]
                refine hrest.trans ?_
                rw [countUnits_add]
                simp

theorem encodeSharedToChunks_spec (arrs : List ArrayRef) (counter : EncodingCounter) :
    match indexItems env w compressionType arrs with
    | .ok items =>
        encodeSharedToChunks env w compressionType columnChunkSize arrs dictIdx counter =
          .ok ((indexGroups columnChunkSize dictIdx.isSome items).map fun g =>
              chunkOf (sharedLabel dictIdx, g))
            (countUnits dictIdx.isSome (items.map Prod.snd).sum counter)
    | .error f =>
        ∃ counter', encodeSharedToChunks env w compressionType columnChunkSize arrs dictIdx
          counter = .error f counter' := by
  have h := encodeUnitsLoop_spec env w compressionType columnChunkSize dictIdx arrs [] 0 [] counter
  cases hitems : indexItems env w compressionType arrs with
  | ok items =>
      rw [hitems] at h
      simp only [List.nil_append] at h
      exact h
  | error f =>
      rw [hitems] at h
      exact h

end UnitsLoop

/-! ## Dictionary scopes -/

/-- The context with one more dictionary. -/
def SharedDictionaryContext.snoc (ctx : SharedDictionaryContext) (d : Dictionary) :
    SharedDictionaryContext :=
  { ctx with dictionaries := ctx.dictionaries ++ [d] }

/-- The context with dictionary `i` replaced. -/
def SharedDictionaryContext.put (ctx : SharedDictionaryContext) (i : Nat) (d : Dictionary) :
    SharedDictionaryContext :=
  { ctx with dictionaries := ctx.dictionaries.set i d }

theorem SharedDictionaryContext.put_put (ctx : SharedDictionaryContext) (i : Nat)
    (d d' : Dictionary) : (ctx.put i d).put i d' = ctx.put i d' := by
  simp [SharedDictionaryContext.put]

theorem SharedDictionaryContext.put_snoc (ctx : SharedDictionaryContext) (d d' : Dictionary) :
    (ctx.snoc d).put ctx.dictionaries.length d' = ctx.snoc d' := by
  simp [SharedDictionaryContext.put, SharedDictionaryContext.snoc]

/-- A dictionary extended by some arrays, with their narrowed indices. -/
def scopeIndices (d : Dictionary) (arrs : List ArrayRef) : Result (Dictionary × List ArrayRef) := do
  let r ← GLBestEncoder.extendGlobal d arrs
  pure (r.1, r.2.map fun arr => castIndexDtype arr r.1.len)

/-- The same with the units of the indices. -/
def scopeItems (env : Env) (w : WASMWritingContext) (compressionType : CompressionType)
    (d : Dictionary) (arrs : List ArrayRef) : Result (Dictionary × List (PushedUnits × Nat)) := do
  let r ← scopeIndices d arrs
  let items ← indexItems env w compressionType r.2
  pure (r.1, items)

theorem extendGlobal_cons (d : Dictionary) (arr : ArrayRef) (arrs : List ArrayRef) :
    GLBestEncoder.extendGlobal d (arr :: arrs) =
      (d.extendAndGetIndex arr >>= fun r => GLBestEncoder.extendGlobal r.1 arrs >>= fun r' =>
        .ok (r'.1, r.2 :: r'.2)) := rfl

namespace SharedDictColEncoder

theorem extendAll_cons_run (dictIdx : Nat) (arr : ArrayRef) (arrs : List ArrayRef)
    (s : Working SharedDictColEncoder) {d : Dictionary}
    (hd : s.ctx.dictionaries[dictIdx]? = some d) :
    extendAll dictIdx (arr :: arrs) s =
      match d.extendAndGetIndex arr with
      | .error f => .error f s
      | .ok r =>
          match extendAll dictIdx arrs { s with ctx := s.ctx.put dictIdx r.1 } with
          | .ok rest t => .ok (r.2 :: rest) t
          | .error f t => .error f t := by
  rw [extendAll, Act.get_bind, SharedDictionaryContext.extendAndGetIndex]
  have hi : index s.ctx.dictionaries dictIdx = .ok d := (index_eq_ok _ _ _).2 hd
  rw [hi, ok_bind]
  cases d.extendAndGetIndex arr with
  | error f => rfl
  | ok r =>
      rw [ok_bind]
      dsimp only
      rw [pure_eq_ok, Act.lift_ok_bind]
      dsimp only
      rw [Act.set_bind]
      show ((extendAll dictIdx arrs >>= _) : EncAct _ _) { s with ctx := s.ctx.put dictIdx r.1 } = _
      cases h : extendAll dictIdx arrs { s with ctx := s.ctx.put dictIdx r.1 } with
      | ok rest t => exact Act.bind_of_ok _ h
      | error f t => exact Act.bind_of_error _ h

/-- Extending dictionary `dictIdx` of the context is extending that dictionary. -/
theorem extendAll_spec (dictIdx : Nat) : ∀ (arrs : List ArrayRef) (d : Dictionary)
    (s : Working SharedDictColEncoder), s.ctx.dictionaries[dictIdx]? = some d →
    match GLBestEncoder.extendGlobal d arrs with
    | .ok r => extendAll dictIdx arrs s = .ok r.2 { s with ctx := s.ctx.put dictIdx r.1 }
    | .error f => ∃ d', extendAll dictIdx arrs s =
        .error f { s with ctx := s.ctx.put dictIdx d' }
  | [], d, s, hd => by
      have hlt := (List.getElem?_eq_some_iff.1 hd)
      obtain ⟨hi, hget⟩ := hlt
      have hput : s.ctx.put dictIdx d = s.ctx := by
        unfold SharedDictionaryContext.put
        rw [← hget, List.set_getElem_self]
      show extendAll dictIdx [] s = .ok [] { s with ctx := s.ctx.put dictIdx d }
      rw [hput]
      rfl
  | arr :: arrs, d, s, hd => by
      obtain ⟨hi, -⟩ := List.getElem?_eq_some_iff.1 hd
      have hput : s.ctx.put dictIdx d = s.ctx := by
        obtain ⟨hi, hget⟩ := List.getElem?_eq_some_iff.1 hd
        unfold SharedDictionaryContext.put
        rw [← hget, List.set_getElem_self]
      rw [extendAll_cons_run dictIdx arr arrs s hd, extendGlobal_cons]
      cases hr : d.extendAndGetIndex arr with
      | error f => exact ⟨d, by rw [hput]⟩
      | ok r =>
          have ih := extendAll_spec dictIdx arrs r.1 { s with ctx := s.ctx.put dictIdx r.1 }
            (by simp [SharedDictionaryContext.put, hi])
          rw [ok_bind]
          cases hg : GLBestEncoder.extendGlobal r.1 arrs with
          | error f =>
              rw [hg] at ih
              obtain ⟨d', hd'⟩ := ih
              refine ⟨d', ?_⟩
              simp only [hd', SharedDictionaryContext.put_put]
          | ok r' =>
              rw [hg] at ih
              dsimp only at ih
              simp only [ih, ok_bind, SharedDictionaryContext.put_put]

theorem onCounter_run {E α : Type} (x : Act Fault EncodingCounter α) (s : Working E) :
    onCounter x s =
      match x s.counter with
      | .ok a c => .ok a { s with counter := c }
      | .error f c => .error f { s with counter := c } := by
  rw [onCounter, Act.zoom]
  cases x s.counter with
  | ok a c => rfl
  | error f c => rfl

/-- The chunks of a scope whose dictionary is `dictIdx`. -/
theorem encodeIndices_spec (env : Env) (e : SharedDictColEncoder) (dictIdx : Nat)
    (s : Working SharedDictColEncoder) {d : Dictionary}
    (hd : s.ctx.dictionaries[dictIdx]? = some d) :
    match scopeItems env e.wasmContext e.compressionType d e.bufferedArrays with
    | .ok r => ∃ counter, encodeIndices env e dictIdx s =
        .ok ((indexGroups e.columnChunkSize true r.2).map fun g =>
            chunkOf (.sharedDictionary dictIdx, g))
          { s with counter := counter, ctx := s.ctx.put dictIdx r.1 }
    | .error f => ∃ counter d', encodeIndices env e dictIdx s =
        .error f { s with counter := counter, ctx := s.ctx.put dictIdx d' } := by
  have hext := extendAll_spec dictIdx e.bufferedArrays d s hd
  obtain ⟨hi, -⟩ := List.getElem?_eq_some_iff.1 hd
  rw [scopeItems, scopeIndices]
  cases hg : GLBestEncoder.extendGlobal d e.bufferedArrays with
  | error f =>
      rw [hg] at hext
      obtain ⟨d', hd'⟩ := hext
      exact ⟨s.counter, d', Act.bind_of_error _ hd'⟩
  | ok r =>
      rw [hg] at hext
      have hlen : (s.ctx.put dictIdx r.1).dictLen dictIdx = .ok r.1.len := by
        simp [SharedDictionaryContext.dictLen, SharedDictionaryContext.put, index, hi]
      have hrun : encodeIndices env e dictIdx s =
          onCounter (encodeSharedToChunks env e.wasmContext e.compressionType e.columnChunkSize
            (r.2.map fun arr => castIndexDtype arr r.1.len) (some dictIdx))
            { s with ctx := s.ctx.put dictIdx r.1 } := by
        rw [encodeIndices, Act.bind_of_ok _ hext, Act.get_bind]
        dsimp only
        rw [hlen, Act.lift_ok_bind]
      have hchunks := encodeSharedToChunks_spec env e.wasmContext e.compressionType
        e.columnChunkSize (some dictIdx) (r.2.map fun arr => castIndexDtype arr r.1.len) s.counter
      simp only [ok_bind, pure_eq_ok]
      rw [hrun, onCounter_run]
      cases hitems : indexItems env e.wasmContext e.compressionType
          (r.2.map fun arr => castIndexDtype arr r.1.len) with
      | error f =>
          rw [hitems] at hchunks
          obtain ⟨c, hc⟩ := hchunks
          exact ⟨c, r.1, by simp only [hc]⟩
      | ok items =>
          rw [hitems] at hchunks
          dsimp only at hchunks
          exact ⟨_, by simp only [hchunks]; rfl⟩

/-- The encoder with nothing buffered. -/
def emptied (e : SharedDictColEncoder) : SharedDictColEncoder :=
  { e with bufferedArrays := [], bufferedArrayLen := 0, bufferedArrayMemSize := 0 }

/-- The encoder with these arrays buffered. -/
def holding (env : Env) (e : SharedDictColEncoder) (arrs : List ArrayRef) :
    SharedDictColEncoder :=
  { e with
    bufferedArrays := arrs
    bufferedArrayLen := (arrs.map ArrayRef.len).sum
    bufferedArrayMemSize := (arrs.map env.arrayMemorySize).sum }

/-- A scope of an encoder that has submitted its dictionary. -/
theorem encodeDictScope_submitted (env : Env) (s : Working SharedDictColEncoder) {idx : Nat}
    (h : s.enc.submittedDictIdx = some idx) :
    encodeDictScope env s = encodeIndices env s.enc idx { s with enc := s.enc.emptied } := by
  rw [encodeDictScope, Act.get_bind]
  dsimp only
  rw [Act.set_bind]
  have hscope : scopeDictIdx s.enc { s with enc := s.enc.emptied } =
      .ok idx { s with enc := s.enc.emptied } := by
    rw [scopeDictIdx, h]
    rfl
  exact Act.bind_of_ok _ hscope

/-- The dictionary a scope without a submitted one starts from. -/
def newScope (arrs : List ArrayRef) : Result Dictionary := do
  let first ← unwrapSome arrs.head?
  Dictionary.tryNew first.dataType

/-- A scope with a dictionary of its own: the dictionary is appended to the
context, and the chunks carry its id. -/
theorem encodeDictScope_spec (env : Env) (s : Working SharedDictColEncoder)
    (hnone : s.enc.submittedDictIdx = none) (hfit : s.ctx.dictionaries.length < 2 ^ 32) :
    match newScope s.enc.bufferedArrays >>= fun d =>
        scopeItems env s.enc.wasmContext s.enc.compressionType d s.enc.bufferedArrays with
    | .ok r => ∃ counter, encodeDictScope env s =
        .ok ((indexGroups s.enc.columnChunkSize true r.2).map fun g =>
            chunkOf (.sharedDictionary s.ctx.dictionaries.length, g))
          ⟨s.enc.emptied, counter, s.ctx.snoc r.1, s.rng⟩
    | .error f => ∃ counter ctx, encodeDictScope env s =
        .error f ⟨s.enc.emptied, counter, ctx, s.rng⟩ ∧
          (newScope s.enc.bufferedArrays = .error f ∧ ctx = s.ctx ∨
            ∃ d₀ d, newScope s.enc.bufferedArrays = .ok d₀ ∧ ctx = s.ctx.snoc d) := by
  have hstart : encodeDictScope env s =
      ((scopeDictIdx s.enc >>= fun idx => encodeIndices env s.enc idx) :
        EncAct SharedDictColEncoder _) { s with enc := s.enc.emptied } := by
    rw [encodeDictScope, Act.get_bind]
    dsimp only
    rw [Act.set_bind]
    rfl
  rw [hstart]
  cases hfirst : unwrapSome s.enc.bufferedArrays.head? with
  | error f =>
      have hnew : newScope s.enc.bufferedArrays = .error f := by
        rw [newScope, hfirst]
        rfl
      rw [hnew]
      have hscope : scopeDictIdx s.enc { s with enc := s.enc.emptied } =
          .error f { s with enc := s.enc.emptied } := by
        rw [scopeDictIdx, hnone]
        dsimp only
        rw [hfirst]
        rfl
      exact ⟨s.counter, s.ctx, Act.bind_of_error _ hscope, .inl ⟨rfl, rfl⟩⟩
  | ok first =>
      have hnewScope : newScope s.enc.bufferedArrays = Dictionary.tryNew first.dataType := by
        rw [newScope, hfirst]
        rfl
      have hrun : scopeDictIdx s.enc { s with enc := s.enc.emptied } =
          newDictionary first.dataType { s with enc := s.enc.emptied } := by
        rw [scopeDictIdx, hnone]
        dsimp only
        rw [hfirst]
        rfl
      rw [hnewScope]
      cases hd : Dictionary.tryNew first.dataType with
      | error f =>
          have hnew : newDictionary first.dataType { s with enc := s.enc.emptied } =
              .error f { s with enc := s.enc.emptied } := by
            rw [newDictionary, Act.get_bind, SharedDictionaryContext.newDictionary, hd]
            rfl
          exact ⟨s.counter, s.ctx, Act.bind_of_error _ (hrun.trans hnew), .inl ⟨rfl, rfl⟩⟩
      | ok d =>
          have hnew : newDictionary first.dataType { s with enc := s.enc.emptied } =
              .ok s.ctx.dictionaries.length
                { s with enc := s.enc.emptied, ctx := s.ctx.snoc d } := by
            rw [newDictionary, Act.get_bind, SharedDictionaryContext.newDictionary, hd, ok_bind,
              pure_eq_ok, Act.lift_ok_bind]
            simp only [SharedDictionaryContext.addDictionary, u32_of_lt hfit]
            rfl
          have hlast : (s.ctx.snoc d).dictionaries[s.ctx.dictionaries.length]? = some d := by
            simp [SharedDictionaryContext.snoc]
          have hchunks := encodeIndices_spec env s.enc s.ctx.dictionaries.length
            { s with enc := s.enc.emptied, ctx := s.ctx.snoc d } hlast
          rw [ok_bind, Act.bind_of_ok _ (hrun.trans hnew)]
          simp only [SharedDictionaryContext.put_snoc] at hchunks
          cases hitems : scopeItems env s.enc.wasmContext s.enc.compressionType d
              s.enc.bufferedArrays with
          | ok r =>
              rw [hitems] at hchunks
              exact hchunks
          | error f =>
              rw [hitems] at hchunks
              obtain ⟨c, d', h⟩ := hchunks
              exact ⟨c, _, h, .inr ⟨d, d', rfl, rfl⟩⟩

/-- What a scope leaves of the encoder and the generator, however it ends. -/
theorem encodeDictScope_left (env : Env) (s : Working SharedDictColEncoder) :
    (Act.left (encodeDictScope env s)).enc = s.enc.emptied ∧
      (Act.left (encodeDictScope env s)).rng = s.rng := by
  have hnew : ∀ dtype, Act.Keeps (fun s => (s.enc, s.rng)) (newDictionary dtype) := by
    intro dtype s
    rw [newDictionary, Act.get_bind]
    cases s.ctx.newDictionary dtype with
    | error f => rfl
    | ok r => rfl
  have hscope : ∀ e, Act.Keeps (fun s => (s.enc, s.rng)) (scopeDictIdx e) := by
    intro e
    unfold scopeDictIdx
    split
    · exact Act.keeps_pure _
    · exact Act.keeps_bind (Act.keeps_lift _) fun first => hnew _
  have hext : ∀ idx arrs, Act.Keeps (fun s => (s.enc, s.rng)) (extendAll idx arrs) := by
    intro idx arrs
    induction arrs with
    | nil => exact Act.keeps_pure _
    | cons arr arrs ih =>
        intro s
        rw [extendAll, Act.get_bind]
        cases s.ctx.extendAndGetIndex idx arr with
        | error f => rfl
        | ok r =>
            rw [Act.lift_ok_bind]
            dsimp only
            rw [Act.set_bind]
            exact Act.keeps_bind ih (fun _ => Act.keeps_pure _) _
  have hcount : ∀ (x : Act Fault EncodingCounter (List EncodedColumnChunk)),
      Act.Keeps (fun s : Working SharedDictColEncoder => (s.enc, s.rng)) (onCounter x) := by
    intro x s
    rw [onCounter_run]
    cases x s.counter with
    | ok a c => rfl
    | error f c => rfl
  have hindices : ∀ e idx, Act.Keeps (fun s => (s.enc, s.rng)) (encodeIndices env e idx) := by
    intro e idx
    refine Act.keeps_bind (hext idx _) fun arrs => Act.keeps_get_bind fun s => ?_
    exact Act.keeps_bind (Act.keeps_lift _) (fun n => hcount _) s
  have h := Act.keeps_bind (hscope s.enc) (fun idx => hindices s.enc idx)
    { s with enc := s.enc.emptied }
  rw [encodeDictScope, Act.get_bind]
  dsimp only
  rw [Act.set_bind]
  exact Prod.mk.inj h

/-- The encoder with one more array buffered. -/
def buffering (env : Env) (e : SharedDictColEncoder) (array : ArrayRef) : SharedDictColEncoder :=
  { e with
    bufferedArrayLen := e.bufferedArrayLen + array.len
    bufferedArrayMemSize := e.bufferedArrayMemSize + env.arrayMemorySize array
    bufferedArrays := e.bufferedArrays ++ [array] }

theorem buffering_holding (env : Env) (e : SharedDictColEncoder) (arrs : List ArrayRef)
    (array : ArrayRef) :
    buffering env (holding env e arrs) array = holding env e (arrs ++ [array]) := by
  simp [buffering, holding]

theorem encode_run (env : Env) (array : ArrayRef) (s : Working SharedDictColEncoder) :
    encode env array s =
      if s.enc.bufferedArrays.head?.any fun a => decide (a.dataType ≠ array.dataType) then
        .error (.err (.general "Datatypes of arrays do not match")) s
      else if s.enc.bufferedArrayLen + array.len ≥ s.enc.fixedDictScope then
        encodeDictScope env { s with enc := s.enc.buffering env array }
      else .ok [] { s with enc := s.enc.buffering env array } := by
  rw [encode, Act.get_bind]
  split
  · rfl
  · dsimp only
    rw [Act.set_bind]
    split
    · rfl
    · rfl

theorem finish_run (env : Env) (s : Working SharedDictColEncoder) :
    finish env s = if s.enc.bufferedArrays.isEmpty then .ok [] s else encodeDictScope env s := by
  rw [finish, Act.get_bind]
  split
  · rfl
  · rfl

end SharedDictColEncoder

/-! ## Global or local dictionaries -/

/-- The computation uses and changes the position of the generator only. -/
def RngOnly {E α : Type} (x : EncAct E α) : Prop :=
  ∀ e rng, ∃ (r : Result α) (rng' : Nat), ∀ counter ctx,
    x ⟨e, counter, ctx, rng⟩ =
      match r with
      | .ok a => .ok a ⟨e, counter, ctx, rng'⟩
      | .error f => .error f ⟨e, counter, ctx, rng'⟩

section RngOnly

variable {E α β : Type}

theorem rngOnly_lift (r : Result α) : RngOnly (Act.lift r : EncAct E α) := by
  intro e rng
  refine ⟨r, rng, fun counter ctx => ?_⟩
  cases r with
  | ok a => rfl
  | error f => rfl

theorem rngOnly_pure (a : α) : RngOnly (pure a : EncAct E α) := rngOnly_lift (.ok a)

theorem rngOnly_bind {x : EncAct E α} {f : α → EncAct E β} (hx : RngOnly x)
    (hf : ∀ a, RngOnly (f a)) : RngOnly (x >>= f) := by
  intro e rng
  obtain ⟨r, rng', hr⟩ := hx e rng
  cases r with
  | error fault => exact ⟨.error fault, rng', fun counter ctx => Act.bind_of_error f (hr counter ctx)⟩
  | ok a =>
      obtain ⟨r', rng'', hr'⟩ := hf a e rng'
      refine ⟨r', rng'', fun counter ctx => ?_⟩
      rw [Act.bind_of_ok f (hr counter ctx)]
      exact hr' counter ctx

end RngOnly

namespace GLBestEncoder

theorem rngOnly_chooseMultiple (env : Env) (n amount : Nat) :
    RngOnly (chooseMultiple env n amount) := by
  intro e rng
  exact ⟨.ok (env.chooseMultiple rng n amount), rng + 1, fun _ _ => rfl⟩

theorem rngOnly_estimateArraysEncodedSize (env : Env) (e : GLBestEncoder) (arrs : List ArrayRef)
    (arrTotalSize sampleCount : Nat) :
    RngOnly (estimateArraysEncodedSize env e arrs arrTotalSize sampleCount) := by
  unfold estimateArraysEncodedSize
  split
  · exact rngOnly_bind (rngOnly_lift _) fun _ => rngOnly_pure _
  · refine rngOnly_bind (rngOnly_chooseMultiple env _ _) fun _ => ?_
    refine rngOnly_bind (rngOnly_lift _) fun _ => ?_
    exact rngOnly_bind (rngOnly_lift _) fun _ => rngOnly_pure _

theorem rngOnly_estimateArrEncodedSize (env : Env) (e : GLBestEncoder) (arr : ArrayRef)
    (sampleLen sampleCount : Nat) :
    RngOnly (estimateArrEncodedSize env e arr sampleLen sampleCount) := by
  unfold estimateArrEncodedSize
  split
  · exact rngOnly_bind (rngOnly_lift _) fun _ => rngOnly_pure _
  · split
    · exact rngOnly_lift _
    · refine rngOnly_bind (rngOnly_chooseMultiple env _ _) fun _ => ?_
      exact rngOnly_bind (rngOnly_lift _) fun _ => rngOnly_pure _

theorem rngOnly_sampledEstimates (env : Env) (e : GLBestEncoder) (arrs : List ArrayRef) (n : Nat)
    (d : Dictionary) (indices : List ArrayRef) (ratio : Float) (sampleLen : Nat) :
    RngOnly (sampledEstimates env e arrs n d indices ratio sampleLen) := by
  unfold sampledEstimates
  split
  · exact rngOnly_lift _
  · refine rngOnly_bind (rngOnly_chooseMultiple env _ _) fun _ => ?_
    refine rngOnly_bind (rngOnly_lift _) fun _ => ?_
    refine rngOnly_bind (rngOnly_lift _) fun _ => ?_
    refine rngOnly_bind (rngOnly_estimateArraysEncodedSize env e _ _ _) fun _ => ?_
    exact rngOnly_bind (rngOnly_estimateArrEncodedSize env e _ _ _) fun _ => rngOnly_pure _

/-- The encoder with nothing buffered. -/
def emptied (e : GLBestEncoder) : GLBestEncoder :=
  { e with bufferedArrays := [], bufferedArrayLen := 0, bufferedArrayMemSize := 0 }

/-- The encoder with these arrays buffered. -/
def holding (env : Env) (e : GLBestEncoder) (arrs : List ArrayRef) : GLBestEncoder :=
  { e with
    bufferedArrays := arrs
    bufferedArrayLen := (arrs.map ArrayRef.len).sum
    bufferedArrayMemSize := (arrs.map env.arrayMemorySize).sum }

/-- The loop over the arrays on a buffer: its chunks are groups of the units in
order, without a dictionary. -/
theorem localLoop_spec (env : Env) (columnChunkSize : Nat) (w : WASMWritingContext)
    (enableDict : Bool) (compressionType : CompressionType) : ∀ (arrs : List ArrayRef)
    (b : Buffer PushedUnits DictionaryEncoding) (s : Working EncoderDictColEncoder),
    s.enc = EncoderDictColEncoder.ofBuffer columnChunkSize w enableDict compressionType b →
    b.label = .noDictionary →
    match collect (EncoderDictColEncoder.item env w enableDict compressionType) arrs with
    | .ok items => ∃ groups t, localLoop env arrs s = .ok (groups.map chunkOf) t ∧
        contents groups = b.items ++ items ∧ (∀ g ∈ groups, g.1 = .noDictionary)
    | .error f => ∃ t, localLoop env arrs s = .error f t
  | [], b, s, hs, hb => by
      obtain ⟨hout, hleft⟩ := EncoderDictColEncoder.simulates env columnChunkSize w enableDict
        compressionType .finish s b hs
      have hcons := flush_conserves (EncoderDictColEncoder.policy columnChunkSize) b
      have hcall : (EncoderDictColEncoder.colEncoder env columnChunkSize w enableDict
          compressionType).call .finish s = localLoop env [] s := rfl
      rw [hcall] at hout hleft
      cases hl : localLoop env [] s with
      | error f t =>
          rw [hl] at hout
          cases hout
      | ok chunks t =>
          rw [hl] at hout
          cases hout with
          | ok hq =>
              refine ⟨_, t, by rw [hq], ?_, ?_⟩
              · rw [hcons.2, List.append_nil] at hcons
                exact hcons.1.trans (List.append_nil _).symm
              · intro g hg
                unfold flush at hg
                split at hg
                · cases hg
                · rw [List.mem_singleton] at hg
                  rw [hg]
                  exact hb
  | arr :: arrs, b, s, hs, hb => by
      obtain ⟨hout, hleft⟩ := EncoderDictColEncoder.simulates env columnChunkSize w enableDict
        compressionType (.encode arr) s b hs
      have hcall : (EncoderDictColEncoder.colEncoder env columnChunkSize w enableDict
          compressionType).call (.encode arr) s = EncoderDictColEncoder.encode env arr s := rfl
      rw [hcall] at hout hleft
      cases hi : EncoderDictColEncoder.item env w enableDict compressionType arr with
      | error f =>
          simp only [act, sized_of_error hi] at hout
          cases hl : EncoderDictColEncoder.encode env arr s with
          | ok chunks t =>
              rw [hl] at hout
              cases hout
          | error f' t =>
              rw [hl] at hout
              cases hout
              simp only [collect, hi, error_bind]
              exact ⟨t, Act.bind_of_error _ hl⟩
      | ok q =>
          simp only [act, sized_of_ok hi] at hout hleft
          cases hl : EncoderDictColEncoder.encode env arr s with
          | error f t =>
              rw [hl] at hout
              cases hout
          | ok chunks t =>
              rw [hl] at hout hleft
              cases hout with
              | ok hq =>
                  have hpush := push_conserves (EncoderDictColEncoder.policy columnChunkSize) b q
                    q.size
                  have hlabel : (push (EncoderDictColEncoder.policy columnChunkSize) b q
                      q.size).1.label = .noDictionary := by
                    unfold push
                    split
                    · rfl
                    · exact hb
                  have hgroups : ∀ g ∈ (push (EncoderDictColEncoder.policy columnChunkSize) b q
                      q.size).2, g.1 = .noDictionary := by
                    intro g hg
                    unfold push at hg
                    split at hg
                    · rw [List.mem_singleton] at hg
                      rw [hg]
                      exact hb
                    · cases hg
                  have ih := localLoop_spec env columnChunkSize w enableDict compressionType arrs
                    (push (EncoderDictColEncoder.policy columnChunkSize) b q q.size).1 t hleft hlabel
                  simp only [collect, hi, ok_bind]
                  cases hitems : collect (EncoderDictColEncoder.item env w enableDict
                      compressionType) arrs with
                  | error f =>
                      rw [hitems] at ih
                      obtain ⟨t', ht'⟩ := ih
                      refine ⟨t', ?_⟩
                      rw [localLoop, Act.bind_of_ok _ hl]
                      exact Act.bind_of_error _ ht'
                  | ok items =>
                      rw [hitems] at ih
                      obtain ⟨groups, t', ht', hcontents, hnone⟩ := ih
                      refine ⟨(push (EncoderDictColEncoder.policy columnChunkSize) b q q.size).2 ++
                        groups, t', ?_, ?_, ?_⟩
                      · rw [localLoop, Act.bind_of_ok _ hl, Act.bind_of_ok _ ht', hq,
                          List.map_append]
                        rfl
                      · have happ : contents ((push (EncoderDictColEncoder.policy
                            columnChunkSize) b q q.size).2 ++ groups) = contents (push
                              (EncoderDictColEncoder.policy columnChunkSize) b q q.size).2 ++
                                contents groups := by
                          simp [contents]
                        rw [happ, hcontents, ← List.append_assoc, hpush]
                        simp
                      · intro g hg
                        rcases List.mem_append.1 hg with h | h
                        · exact hgroups g h
                        · exact hnone g h

/-- The local chunks of some arrays are groups of their units, in order. -/
theorem encodeToLocalChunks_ok {env : Env} {e : GLBestEncoder} {arrs : List ArrayRef}
    {counter : EncodingCounter} {chunks : List EncodedColumnChunk}
    (h : encodeToLocalChunks env e arrs = .ok (counter, chunks)) :
    ∃ items groups,
      collect (EncoderDictColEncoder.item env e.wasmContext true .uncompressed) arrs = .ok items ∧
        chunks = groups.map chunkOf ∧ contents groups = items ∧
        ∀ g ∈ groups, g.1 = .noDictionary := by
  have hspec := localLoop_spec env e.columnChunkSize e.wasmContext true .uncompressed arrs
    (fresh (EncoderDictColEncoder.policy e.columnChunkSize))
    ⟨EncoderDictColEncoder.new e.columnChunkSize e.wasmContext true .uncompressed, .default,
      .new false .uncompressed, 0⟩ rfl rfl
  unfold encodeToLocalChunks at h
  cases hitems : collect (EncoderDictColEncoder.item env e.wasmContext true .uncompressed) arrs with
  | error f =>
      rw [hitems] at hspec
      obtain ⟨t, ht⟩ := hspec
      simp only [ht] at h
      cases h
  | ok items =>
      rw [hitems] at hspec
      obtain ⟨groups, t, ht, hcontents, hnone⟩ := hspec
      simp only [ht, Except.ok.injEq, Prod.mk.injEq] at h
      exact ⟨items, groups, rfl, h.2.symm, hcontents, hnone⟩

/-- What `finish` chooses: chunks with local dictionaries, or the groups of index
units and their dictionary. -/
inductive Choice where
  | localChunks (chunks : List EncodedColumnChunk)
  | globalChunks (d : Dictionary) (groups : List (List PushedUnits))
  /-- a failure, after a dictionary was added or before -/
  | failed (f : Fault) (added : Option Dictionary)

/-- A choice is made of the buffered arrays. -/
def Choice.Of (env : Env) (e : GLBestEncoder) (arrs : List ArrayRef) : Choice → Prop
  | .localChunks chunks => ∃ counter, encodeToLocalChunks env e arrs = .ok (counter, chunks)
  | .globalChunks d groups => ∃ items,
      (SharedDictColEncoder.newScope arrs >>= fun d =>
        scopeItems env e.wasmContext e.compressionType d arrs) = .ok (d, items) ∧
      groups = indexGroups e.columnChunkSize true items
  | .failed _ _ => True

/-- The outcome of a choice in a context: only the id of a new dictionary depends on it. -/
def Choice.Ends (c : Choice) (e : GLBestEncoder) (ctx : SharedDictionaryContext)
    (rng : Nat) (x : EStateM.Result Fault (Working GLBestEncoder) (List EncodedColumnChunk)) :
    Prop :=
  match c with
  | .localChunks chunks => ∃ counter, x = .ok chunks ⟨e, counter, ctx, rng⟩
  | .globalChunks d groups => ∃ counter,
      x = .ok (groups.map fun g => chunkOf (.sharedDictionary ctx.peekDictId, g))
        ⟨e, counter, ctx.snoc d, rng⟩
  | .failed f none => ∃ counter, x = .error f ⟨e, counter, ctx, rng⟩
  | .failed f (some d) => ∃ counter, x = .error f ⟨e, counter, ctx.snoc d, rng⟩

theorem encodeShared_spec (env : Env) (e : GLBestEncoder) (arrs : List ArrayRef)
    (counter : EncodingCounter) (dictIdx : Option Nat) :
    encodeShared env e arrs counter dictIdx =
      (indexItems env e.wasmContext e.compressionType arrs >>= fun items =>
        .ok (countUnits dictIdx.isSome (items.map Prod.snd).sum counter,
          (indexGroups e.columnChunkSize dictIdx.isSome items).map fun g =>
            chunkOf (sharedLabel dictIdx, g))) := by
  have h := encodeSharedToChunks_spec env e.wasmContext e.compressionType e.columnChunkSize dictIdx
    arrs counter
  unfold encodeShared
  cases hi : indexItems env e.wasmContext e.compressionType arrs with
  | ok items =>
      rw [hi] at h
      dsimp only at h
      rw [h]
      rfl
  | error f =>
      rw [hi] at h
      obtain ⟨c, hc⟩ := h
      rw [hc]
      rfl

/-- The branch that encodes both ways. -/
theorem finishCompared_spec (env : Env) (e : GLBestEncoder) (arrs : List ArrayRef)
    (d : Dictionary) (indices : List ArrayRef)
    (hscope : (SharedDictColEncoder.newScope arrs >>= fun d => scopeIndices d arrs) =
      .ok (d, indices)) :
    ∃ c : Choice, c.Of env e arrs ∧ ∀ s : Working GLBestEncoder,
      c.Ends s.enc s.ctx s.rng (finishCompared env e arrs d indices s) := by
  unfold finishCompared
  cases hl : encodeToLocalChunks env e arrs with
  | error f =>
      exact ⟨.failed f none, trivial, fun s => ⟨s.counter, rfl⟩⟩
  | ok l =>
      cases hi : indexItems env e.wasmContext e.compressionType indices with
      | error f =>
          refine ⟨.failed f none, trivial, fun s => ⟨s.counter, ?_⟩⟩
          rw [Act.lift_ok_bind]
          dsimp only
          rw [Act.get_bind, encodeShared_spec, hi]
          rfl
      | ok items =>
          cases hd : encodeShared env e [d.peekDict]
              (countUnits true (items.map Prod.snd).sum .default) none with
          | error f =>
              refine ⟨.failed f none, trivial, fun s => ⟨s.counter, ?_⟩⟩
              rw [Act.lift_ok_bind]
              dsimp only
              rw [Act.get_bind, encodeShared_spec, hi, ok_bind, Act.lift_ok_bind]
              dsimp only [Option.isSome]
              rw [hd]
              rfl
          | ok g =>
              by_cases hle : l.1.totalSize ≤ g.1.totalSize
              · refine ⟨.localChunks l.2, ⟨l.1, hl⟩, fun s => ⟨l.1, ?_⟩⟩
                · rw [Act.lift_ok_bind]
                  dsimp only
                  rw [Act.get_bind, encodeShared_spec, hi, ok_bind, Act.lift_ok_bind]
                  dsimp only [Option.isSome]
                  rw [hd, Act.lift_ok_bind, if_pos hle]
                  rfl
              · refine ⟨.globalChunks d (indexGroups e.columnChunkSize true items), ?_,
                  fun s => ⟨{ g.1 with dictSize := 0 }, ?_⟩⟩
                · refine ⟨items, ?_, rfl⟩
                  rw [bind_eq_ok] at hscope ⊢
                  obtain ⟨d₀, h₀, h₁⟩ := hscope
                  refine ⟨d₀, h₀, ?_⟩
                  rw [scopeItems, h₁, ok_bind]
                  dsimp only
                  rw [hi]
                  rfl
                · rw [Act.lift_ok_bind]
                  dsimp only
                  rw [Act.get_bind, encodeShared_spec, hi, ok_bind, Act.lift_ok_bind]
                  dsimp only [Option.isSome]
                  rw [hd, Act.lift_ok_bind, if_neg hle]
                  have hid : (s.ctx.addDictionary d).2 = s.ctx.peekDictId := rfl
                  rw [if_neg (not_not_intro hid)]
                  rfl

/-- The branch that compares sampled estimates. -/
theorem finishSampled_spec (env : Env) (e : GLBestEncoder) (arrs : List ArrayRef) (n : Nat)
    (d : Dictionary) (indices : List ArrayRef) (ratio : Float) (sampleLen : Nat)
    (hscope : (SharedDictColEncoder.newScope arrs >>= fun d => scopeIndices d arrs) =
      .ok (d, indices)) (e' : GLBestEncoder) (rng : Nat) :
    ∃ (c : Choice) (rng' : Nat), c.Of env e arrs ∧ ∀ counter ctx, c.Ends e' ctx rng'
        (finishSampled env e arrs n d indices ratio sampleLen ⟨e', counter, ctx, rng⟩) := by
  obtain ⟨r, rng', hr⟩ :=
    rngOnly_sampledEstimates env e arrs n d indices ratio sampleLen e' rng
  cases r with
  | error f =>
      refine ⟨.failed f none, rng', trivial, fun counter ctx => ⟨counter, ?_⟩⟩
      exact Act.bind_of_error _ (hr counter ctx)
  | ok est =>
      by_cases hle : est.1 ≤ est.2
      · cases hl : encodeToLocalChunks env e arrs with
        | error f =>
            refine ⟨.failed f none, rng', trivial, fun counter ctx => ⟨counter, ?_⟩⟩
            rw [finishSampled, Act.bind_of_ok _ (hr counter ctx), if_pos hle, hl]
            rfl
        | ok l =>
            refine ⟨.localChunks l.2, rng', ⟨l.1, hl⟩, fun counter ctx => ⟨l.1, ?_⟩⟩
            · rw [finishSampled, Act.bind_of_ok _ (hr counter ctx), if_pos hle, hl]
              rfl
      · have hrun : ∀ counter ctx,
            finishSampled env e arrs n d indices ratio sampleLen ⟨e', counter, ctx, rng⟩ =
              onCounter (encodeSharedToChunks env e.wasmContext e.compressionType
                e.columnChunkSize indices (some ctx.peekDictId)) ⟨e', counter, ctx.snoc d, rng'⟩ := by
          intro counter ctx
          rw [finishSampled, Act.bind_of_ok _ (hr counter ctx), if_neg hle]
          rfl
        cases hi : indexItems env e.wasmContext e.compressionType indices with
        | error f =>
            refine ⟨.failed f (some d), rng', trivial, fun counter ctx => ?_⟩
            have h := encodeSharedToChunks_spec env e.wasmContext e.compressionType
              e.columnChunkSize (some ctx.peekDictId) indices counter
            rw [hi] at h
            obtain ⟨c, hc⟩ := h
            refine ⟨c, ?_⟩
            rw [hrun, SharedDictColEncoder.onCounter_run, hc]
        | ok items =>
            refine ⟨.globalChunks d (indexGroups e.columnChunkSize true items), rng', ?_,
              fun counter ctx => ?_⟩
            · refine ⟨items, ?_, rfl⟩
              rw [bind_eq_ok] at hscope ⊢
              obtain ⟨d₀, h₀, h₁⟩ := hscope
              refine ⟨d₀, h₀, ?_⟩
              rw [scopeItems, h₁, ok_bind]
              dsimp only
              rw [hi]
              rfl
            · have h := encodeSharedToChunks_spec env e.wasmContext e.compressionType
                e.columnChunkSize (some ctx.peekDictId) indices counter
              rw [hi] at h
              dsimp only at h
              refine ⟨countUnits true (items.map Prod.snd).sum counter, ?_⟩
              rw [hrun, SharedDictColEncoder.onCounter_run, h]
              rfl

/-- The first error of the dictionary that `finish` builds of the buffered arrays. -/
theorem finish_failed (env : Env) {e : GLBestEncoder} {first : ArrayRef} {rest : List ArrayRef}
    (harrs : e.bufferedArrays = first :: rest) {f : Fault}
    (hfail : (Dictionary.tryNew first.dataType >>= fun d => extendGlobal d (first :: rest)) =
      .error f) (counter : EncodingCounter) (ctx : SharedDictionaryContext) (rng : Nat) :
    finish env ⟨e, counter, ctx, rng⟩ = .error f ⟨e.emptied, counter, ctx, rng⟩ := by
  obtain ⟨sampleSize, arrs, len, memSize, chunkSize, wasmContext, compressionType⟩ := e
  subst harrs
  rw [finish, Act.get_bind]
  dsimp only
  rcases (bind_eq_error _ _ _).1 hfail with hd | ⟨d, hd, hg⟩
  · rw [Act.set_bind, hd]
    rfl
  · rw [Act.set_bind, hd, Act.lift_ok_bind, hg]
    rfl

/-- `finish` with the dictionary of the buffered arrays at hand. -/
theorem finish_extended (env : Env) {e : GLBestEncoder} {first : ArrayRef} {rest : List ArrayRef}
    (harrs : e.bufferedArrays = first :: rest) {d : Dictionary} {g : Dictionary × List ArrayRef}
    (hd : Dictionary.tryNew first.dataType = .ok d) (hg : extendGlobal d (first :: rest) = .ok g)
    (counter : EncodingCounter) (ctx : SharedDictionaryContext) (rng : Nat) :
    (e.sampleSize = none → finish env ⟨e, counter, ctx, rng⟩ =
      finishCompared env e (first :: rest) g.1 (g.2.map fun arr => castIndexDtype arr g.1.len)
        ⟨e.emptied, counter, ctx, rng⟩) ∧
    ∀ ratio sampleLen, e.sampleSize = some (ratio, sampleLen) →
      finish env ⟨e, counter, ctx, rng⟩ =
        (if sampledLen e.bufferedArrayLen ratio > sampleLen then
          finishSampled env e (first :: rest) e.bufferedArrayLen g.1
            (g.2.map fun arr => castIndexDtype arr g.1.len) ratio sampleLen
        else finishCompared env e (first :: rest) g.1
          (g.2.map fun arr => castIndexDtype arr g.1.len)) ⟨e.emptied, counter, ctx, rng⟩ := by
  obtain ⟨sampleSize, arrs, len, memSize, chunkSize, wasmContext, compressionType⟩ := e
  subst harrs
  constructor
  · rintro ⟨⟩
    rw [finish, Act.get_bind]
    dsimp only
    rw [Act.set_bind, hd, Act.lift_ok_bind, hg]
    rfl
  · rintro ratio sampleLen ⟨⟩
    rw [finish, Act.get_bind]
    dsimp only
    rw [Act.set_bind, hd, Act.lift_ok_bind, hg]
    rfl

/-- `finish` with something buffered. -/
theorem finish_spec (env : Env) (e : GLBestEncoder) (rng : Nat) (hne : e.bufferedArrays ≠ []) :
    ∃ (c : Choice) (rng' : Nat), c.Of env e e.bufferedArrays ∧
      ∀ counter ctx, c.Ends e.emptied ctx rng' (finish env ⟨e, counter, ctx, rng⟩) := by
  cases harrs : e.bufferedArrays with
  | nil => exact absurd harrs hne
  | cons first rest =>
      have hnew : SharedDictColEncoder.newScope (first :: rest) =
          Dictionary.tryNew first.dataType := rfl
      cases hd : Dictionary.tryNew first.dataType with
      | error f =>
          refine ⟨.failed f none, rng, trivial, fun counter ctx => ⟨counter, ?_⟩⟩
          rw [finish_failed env harrs (by rw [hd]; rfl)]
      | ok d =>
          cases hg : extendGlobal d (first :: rest) with
          | error f =>
              refine ⟨.failed f none, rng, trivial, fun counter ctx => ⟨counter, ?_⟩⟩
              rw [finish_failed env harrs (by rw [hd]; exact hg)]
          | ok g =>
              have hscope : (SharedDictColEncoder.newScope (first :: rest) >>= fun d =>
                  scopeIndices d (first :: rest)) =
                  .ok (g.1, g.2.map fun arr => castIndexDtype arr g.1.len) := by
                rw [hnew, hd, ok_bind, scopeIndices, hg]
                rfl
              obtain ⟨c, hc, hends⟩ := finishCompared_spec env e (first :: rest) g.1
                (g.2.map fun arr => castIndexDtype arr g.1.len) hscope
              have hcompared : ∃ (c : Choice) (rng' : Nat), c.Of env e (first :: rest) ∧
                  ∀ counter ctx, c.Ends e.emptied ctx rng'
                    (finishCompared env e (first :: rest) g.1
                      (g.2.map fun arr => castIndexDtype arr g.1.len)
                      ⟨e.emptied, counter, ctx, rng⟩) :=
                ⟨c, rng, hc, fun counter ctx => hends ⟨e.emptied, counter, ctx, rng⟩⟩
              have hrun := fun counter ctx => finish_extended env harrs hd hg counter ctx rng
              cases hsampled : e.sampleSize with
              | none =>
                  simp only [(hrun _ _).1 hsampled]
                  exact hcompared
              | some p =>
                  obtain ⟨ratio, sampleLen⟩ := p
                  simp only [(hrun _ _).2 ratio sampleLen hsampled]
                  by_cases hsample : sampledLen e.bufferedArrayLen ratio > sampleLen
                  · simp only [if_pos hsample]
                    exact finishSampled_spec env e (first :: rest) e.bufferedArrayLen g.1 _ ratio
                      sampleLen hscope e.emptied rng
                  · simp only [if_neg hsample]
                    exact hcompared

theorem finish_nil (env : Env) (s : Working GLBestEncoder) (h : s.enc.bufferedArrays = []) :
    finish env s = .ok [] s := by
  rw [finish, Act.get_bind]
  dsimp only
  rw [h]
  rfl

/-- The encoder with one more array buffered. -/
def buffering (env : Env) (e : GLBestEncoder) (array : ArrayRef) : GLBestEncoder :=
  { e with
    bufferedArrayLen := e.bufferedArrayLen + array.len
    bufferedArrayMemSize := e.bufferedArrayMemSize + env.arrayMemorySize array
    bufferedArrays := e.bufferedArrays ++ [array] }

theorem buffering_holding (env : Env) (e : GLBestEncoder) (arrs : List ArrayRef)
    (array : ArrayRef) :
    buffering env (holding env e arrs) array = holding env e (arrs ++ [array]) := by
  simp [buffering, holding]

theorem encode_run (env : Env) (array : ArrayRef) (s : Working GLBestEncoder) :
    encode env array s =
      if s.enc.bufferedArrays.head?.any fun a => decide (a.dataType ≠ array.dataType) then
        .error (.err (.general "Datatypes of arrays do not match")) s
      else .ok [] { s with enc := s.enc.buffering env array } := by
  rw [encode, Act.get_bind]
  split
  · rfl
  · rfl

end GLBestEncoder

end F3Format
