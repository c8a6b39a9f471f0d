import F3Format.DictionaryMerging
import F3Format.WriterSteps

/-!
# Dictionaries during a run

A call of an encoder either leaves the context as it is, adds one dictionary, or
extends the dictionary the encoder has submitted its values to, which it does
once (`Method.scope`). So a dictionary that no encoder still has to extend keeps
its length until the end of the run, through all later scopes, submissions and
merges (`Settled`). Merged dictionaries keep their common first part (`Matched`).
-/

set_option autoImplicit false

namespace F3Format

open Lib Lib.Cutting PushedUnits

/-! ## Growth -/

/-- `d'` is `d` with more values at the end. -/
structure Dictionary.Grown (d d' : Dictionary) : Prop where
  datatype : d'.datatype = d.datatype
  values : d.values <+: d'.values
  valid : d'.Valid

namespace Dictionary.Grown

variable {d d' d'' : Dictionary}

theorem refl (h : d.Valid) : d.Grown d := ⟨rfl, List.prefix_rfl, h⟩

theorem trans (h : d.Grown d') (h' : d'.Grown d'') : d.Grown d'' :=
  ⟨h'.datatype.trans h.datatype, h.values.trans h'.values, h'.valid⟩

theorem len_le (h : d.Grown d') : d.len ≤ d'.len := h.values.length_le

theorem take_eq (h : d.Grown d') {l : Nat} (hl : l ≤ d.len) :
    d'.values.take l = d.values.take l := by
  obtain ⟨more, hmore⟩ := h.values
  have htake : (d.values ++ more).take l = d.values.take l := List.take_append_of_le_length hl
  rw [← hmore, htake]

end Dictionary.Grown

theorem grown_of_extendAndGetIndex {d : Dictionary} (hd : d.Valid) {arr : ArrayRef}
    {r : Dictionary × ArrayRef} (h : d.extendAndGetIndex arr = .ok r) : d.Grown r.1 := by
  refine ⟨?_, ?_, hd.extendAndGetIndex h⟩
  · unfold Dictionary.extendAndGetIndex at h
    split at h
    · cases h
    · cases h
      rfl
  · unfold Dictionary.extendAndGetIndex at h
    split at h
    · cases h
    · cases h
      show d.typedDict.dictionary <+: (d.typedDict.extend arr.rows).1.dictionary
      rw [(Dictionary.extend_spec hd arr.rows).2.1]
      exact prefix_extendedBy _ _

theorem grown_of_extendGlobal : ∀ {arrs : List ArrayRef} {d : Dictionary}
    {r : Dictionary × List ArrayRef}, d.Valid → GLBestEncoder.extendGlobal d arrs = .ok r →
      d.Grown r.1
  | [], d, r, hd, h => by
      cases h
      exact .refl hd
  | arr :: arrs, d, r, hd, h => by
      rw [extendGlobal_cons, bind_eq_ok] at h
      obtain ⟨r₁, hfirst, h⟩ := h
      rw [bind_eq_ok] at h
      obtain ⟨r₂, hrest, h⟩ := h
      cases h
      have hgrown := grown_of_extendAndGetIndex hd hfirst
      have hrest' : r₁.1.Grown r₂.1 := grown_of_extendGlobal hgrown.valid hrest
      exact hgrown.trans hrest'

theorem grown_of_scopeItems {env : Env} {w : WASMWritingContext} {c : CompressionType}
    {d : Dictionary} (hd : d.Valid) {arrs : List ArrayRef}
    {r : Dictionary × List (PushedUnits × Nat)} (h : scopeItems env w c d arrs = .ok r) :
    d.Grown r.1 := by
  simp only [scopeItems, scopeIndices, bind_eq_ok, pure_eq_ok, Except.ok.injEq] at h
  obtain ⟨_, ⟨g, hg, rfl⟩, items, -, rfl⟩ := h
  exact grown_of_extendGlobal hd hg

theorem grown_of_submitValues {d d' : Dictionary} (hd : d.Valid) {arr : ArrayRef}
    (h : d.submitValues arr = .ok d') : d.Grown d' := by
  refine ⟨?_, ?_, hd.submitValues h⟩
  · unfold Dictionary.submitValues at h
    split at h
    · split at h
      · cases h
        rfl
      · cases h
    · cases h
  · unfold Dictionary.submitValues at h
    split at h
    · next t vs =>
        split at h
        · cases h
          show d.typedDict.dictionary <+: (d.typedDict.submitValues vs).dictionary
          rw [TypedDict.submitValues,
            (TypedDict.submitValuesNoNull_spec (show d.typedDict.Valid from hd) _).2]
          exact prefix_insertAll _ _ _
        · cases h
    · cases h

/-! ## What a call does to the dictionaries -/

/-- The dictionary an encoder will still extend: the one it has submitted its values
to, as long as it holds arrays. -/
def PhysicalColEncoder.owes : PhysicalColEncoder → Option Nat
  | sharedDict e => if e.bufferedArrays = [] then none else e.submittedDictIdx
  | _ => none

/-- The chunk carries no shared dictionary. -/
def EncodedColumnChunk.Plain (c : EncodedColumnChunk) : Prop :=
  ∀ idx, c.dictEncoding ≠ .sharedDictionary idx

/-- What an encoder without shared dictionaries has accumulated carries none. -/
def PhysicalColEncoder.HoldsPlain : PhysicalColEncoder → Prop
  | encoderDict e => e.accumulatedChunk.Plain
  | dict e => e.accumulatedChunk.Plain
  | _ => True

theorem plain_withDictEncoding {l : DictionaryEncoding} (h : ∀ idx, l ≠ .sharedDictionary idx) :
    (EncodedColumnChunk.withDictEncoding l).Plain := h

theorem plain_default : EncodedColumnChunk.default.Plain := by
  intro idx h
  cases h

theorem EncodedColumnChunk.Plain.push {c : EncodedColumnChunk} (h : c.Plain)
    (u : SerializedEncUnit) (n : Nat) : (c.push u n).Plain := h

section Plain

variable {env : Env} {chunks : List EncodedColumnChunk}

theorem EncoderDictColEncoder.encode_plain {array : ArrayRef} {s t : Working EncoderDictColEncoder}
    (h : encode env array s = .ok chunks t) (hplain : s.enc.accumulatedChunk.Plain) :
    (∀ c ∈ chunks, c.Plain) ∧ t.enc.accumulatedChunk.Plain := by
  rw [encode_run] at h
  split at h
  · cases h
  · next unit _ =>
      split at h
      · cases h
        exact ⟨List.forall_mem_singleton.2 (hplain.push _ _), plain_default⟩
      · cases h
        exact ⟨List.forall_mem_nil _, hplain.push _ _⟩

theorem EncoderDictColEncoder.finish_plain {s t : Working EncoderDictColEncoder}
    (h : finish s = .ok chunks t) (hplain : s.enc.accumulatedChunk.Plain) :
    (∀ c ∈ chunks, c.Plain) ∧ t.enc.accumulatedChunk.Plain := by
  rw [finish_run] at h
  split at h
  · cases h
    exact ⟨List.forall_mem_nil _, hplain⟩
  · cases h
    exact ⟨List.forall_mem_singleton.2 hplain, plain_default⟩

theorem DictColEncoder.encode_plain {array : ArrayRef} {s t : Working DictColEncoder}
    (h : encode env array s = .ok chunks t) (hplain : s.enc.accumulatedChunk.Plain) :
    (∀ c ∈ chunks, c.Plain) ∧ t.enc.accumulatedChunk.Plain := by
  rw [encode_run] at h
  split at h
  · cases h
  · dsimp only at h
    split at h
    · cases h
      exact ⟨List.forall_mem_singleton.2 ((hplain.push _ _).push _ _),
        plain_withDictEncoding fun idx hidx => by cases hidx⟩
    · cases h
      exact ⟨List.forall_mem_nil _, (hplain.push _ _).push _ _⟩

theorem DictColEncoder.finish_plain {s t : Working DictColEncoder}
    (h : finish s = .ok chunks t) (hplain : s.enc.accumulatedChunk.Plain) :
    (∀ c ∈ chunks, c.Plain) ∧ t.enc.accumulatedChunk.Plain := by
  rw [finish_run] at h
  split at h
  · cases h
    exact ⟨List.forall_mem_nil _, hplain⟩
  · cases h
    exact ⟨List.forall_mem_singleton.2 hplain, plain_default⟩

end Plain

/-- The chunks carry no other shared dictionary than `idx`. -/
def OnlyLabelled (idx : Nat) (cs : List EncodedColumnChunk) : Prop :=
  ∀ c ∈ cs, ∀ i, c.dictEncoding = .sharedDictionary i → i = idx

theorem onlyLabelled_chunkOf (idx : Nat) (gs : List (List PushedUnits)) :
    OnlyLabelled idx (gs.map fun g => chunkOf (.sharedDictionary idx, g)) := by
  intro c hc i hi
  obtain ⟨g, -, rfl⟩ := List.mem_map.1 hc
  cases hi
  rfl

/-- What a call does: nothing, with chunks without a shared dictionary; a new
dictionary, which its chunks carry; or an extension of the dictionary `own`. -/
inductive ScopeEffect (own : Option Nat) (ctx : SharedDictionaryContext) :
    List EncodedColumnChunk → SharedDictionaryContext → Prop where
  | none {cs : List EncodedColumnChunk} (hcs : ∀ c ∈ cs, c.Plain) : ScopeEffect own ctx cs ctx
  | added {cs : List EncodedColumnChunk} {d : Dictionary} (hd : d.Valid)
      (hcs : OnlyLabelled ctx.dictionaries.length cs) : ScopeEffect own ctx cs (ctx.snoc d)
  | extended {cs : List EncodedColumnChunk} {idx : Nat} {d d' : Dictionary}
      (hown : own = some idx) (hd : ctx.dictionaries[idx]? = some d) (hgrown : d.Grown d')
      (hcs : OnlyLabelled idx cs) : ScopeEffect own ctx cs (ctx.put idx d')

theorem scopeEffect_plain {own : Option Nat} {ctx ctx' : SharedDictionaryContext}
    {cs : List EncodedColumnChunk} (hctx : ctx' = ctx) (hcs : ∀ c ∈ cs, c.Plain) :
    ScopeEffect own ctx cs ctx' := by
  subst hctx
  exact .none hcs

theorem scopeEffect_nil (own : Option Nat) (ctx : SharedDictionaryContext) :
    ScopeEffect own ctx [] ctx := .none fun c hc => by cases hc

section

variable {env : Env}

/-- A scope that is not empty. -/
theorem SharedDictColEncoder.encodeDictScope_effect {s t : Working SharedDictColEncoder}
    {chunks : List EncodedColumnChunk} (hvalid : s.ctx.Valid)
    (hfit : s.ctx.dictionaries.length < 2 ^ 32) (h : encodeDictScope env s = .ok chunks t) :
    ScopeEffect s.enc.submittedDictIdx s.ctx chunks t.ctx ∧ t.enc = s.enc.emptied := by
  cases hsubmitted : s.enc.submittedDictIdx with
  | none =>
      have hspec := encodeDictScope_spec env s hsubmitted hfit
      cases hscope : newScope s.enc.bufferedArrays >>= fun d =>
          scopeItems env s.enc.wasmContext s.enc.compressionType d s.enc.bufferedArrays with
      | error f =>
          rw [hscope] at hspec
          obtain ⟨counter, ctx, herror, -⟩ := hspec
          rw [h] at herror
          cases herror
      | ok r =>
          rw [hscope] at hspec
          obtain ⟨counter, hok⟩ := hspec
          rw [h] at hok
          cases hok
          rw [bind_eq_ok] at hscope
          obtain ⟨d₀, hnew, hitems⟩ := hscope
          have hvalid' := (grown_of_scopeItems (newScope_valid hnew) hitems).valid
          exact ⟨.added hvalid' (onlyLabelled_chunkOf _ _), rfl⟩
  | some idx =>
      rw [encodeDictScope_submitted env s hsubmitted] at h
      obtain ⟨d₀, hd₀⟩ := exists_dictionary h
      have hspec := encodeIndices_spec env s.enc idx { s with enc := s.enc.emptied } hd₀
      cases hscope : scopeItems env s.enc.wasmContext s.enc.compressionType d₀
          s.enc.bufferedArrays with
      | error f =>
          rw [hscope] at hspec
          obtain ⟨counter, d', herror⟩ := hspec
          rw [h] at herror
          cases herror
      | ok r =>
          rw [hscope] at hspec
          obtain ⟨counter, hok⟩ := hspec
          rw [h] at hok
          cases hok
          have hgrown := grown_of_scopeItems (hvalid d₀ (List.mem_of_getElem? hd₀)) hscope
          exact ⟨.extended rfl hd₀ hgrown (onlyLabelled_chunkOf _ _), rfl⟩

/-- A finished encoder adds one dictionary for its indices, or none. -/
theorem GLBestEncoder.finish_effect {s t : Working GLBestEncoder}
    {chunks : List EncodedColumnChunk} (hfit : s.ctx.dictionaries.length < 2 ^ 32)
    (h : finish env s = .ok chunks t) : ScopeEffect none s.ctx chunks t.ctx := by
  by_cases hnil : s.enc.bufferedArrays = []
  · rw [finish_nil env s hnil] at h
    cases h
    exact scopeEffect_nil none s.ctx
  · obtain ⟨choice, rng, hof, hends⟩ := finish_spec env s.enc s.rng hnil
    have hend := hends s.counter s.ctx
    have hs : finish env ⟨s.enc, s.counter, s.ctx, s.rng⟩ = .ok chunks t := h
    rw [hs] at hend
    cases choice with
    | localChunks localChunks =>
        obtain ⟨counter, hok⟩ := hend
        cases hok
        obtain ⟨localCounter, hlocal⟩ := hof
        obtain ⟨items, groups, -, rfl, -, hnone⟩ := encodeToLocalChunks_ok hlocal
        refine .none fun c hc => ?_
        obtain ⟨g, hg, rfl⟩ := List.mem_map.1 hc
        intro idx hidx
        rw [chunkOf_dictEncoding, hnone g hg] at hidx
        cases hidx
    | globalChunks dict groups =>
        obtain ⟨counter, hok⟩ := hend
        cases hok
        obtain ⟨items, hitems, -⟩ := hof
        rw [bind_eq_ok] at hitems
        obtain ⟨d₀, hnew, hscope⟩ := hitems
        have hpeek : s.ctx.peekDictId = s.ctx.dictionaries.length := u32_of_lt hfit
        have hvalid := (grown_of_scopeItems (newScope_valid hnew) hscope).valid
        rw [hpeek]
        exact .added hvalid (onlyLabelled_chunkOf _ _)
    | failed f added =>
        cases added with
        | none =>
            obtain ⟨counter, herror⟩ := hend
            cases herror
        | some d =>
            obtain ⟨counter, herror⟩ := hend
            cases herror

namespace PhysicalColEncoder

/-- **The effect of a call.** Afterwards the encoder owes no dictionary anything. -/
theorem Method.scope {p : PhysicalColEncoder}
    {x : EncAct PhysicalColEncoder (List EncodedColumnChunk)} (hx : p.Method env x)
    {s t : Working PhysicalColEncoder} {chunks : List EncodedColumnChunk} (hs : s.enc = p)
    (h : x s = .ok chunks t) (hplain : p.HoldsPlain) (hvalid : s.ctx.Valid)
    (hfit : s.ctx.dictionaries.length < 2 ^ 32) :
    ScopeEffect p.owes s.ctx chunks t.ctx ∧ t.enc.owes = none ∧ t.enc.HoldsPlain := by
  cases hx with
  | encode array hnone =>
      rw [PhysicalColEncoder.encode, Act.get_bind, hs] at h
      cases p with
      | encoderDict e =>
          obtain ⟨u, hu, rfl⟩ := delegate_eq_ok h
          obtain ⟨hchunks, hleft⟩ := EncoderDictColEncoder.encode_plain hu hplain
          exact ⟨scopeEffect_plain (EncoderDictColEncoder.encode_ctx hu) hchunks, rfl, hleft⟩
      | dict e =>
          obtain ⟨u, hu, rfl⟩ := delegate_eq_ok h
          obtain ⟨hchunks, hleft⟩ := DictColEncoder.encode_plain hu hplain
          exact ⟨scopeEffect_plain (DictColEncoder.encode_ctx hu) hchunks, rfl, hleft⟩
      | glBest e =>
          obtain ⟨u, hu, rfl⟩ := delegate_eq_ok h
          rw [GLBestEncoder.encode_run] at hu
          split at hu
          · cases hu
          · cases hu
            exact ⟨scopeEffect_nil _ _, rfl, trivial⟩
      | sharedDict e =>
          obtain ⟨u, hu, rfl⟩ := delegate_eq_ok h
          have hsub : e.submittedDictIdx = none := hnone
          rw [SharedDictColEncoder.encode_run] at hu
          split at hu
          · cases hu
          · split at hu
            · obtain ⟨heffect, henc⟩ := SharedDictColEncoder.encodeDictScope_effect hvalid hfit hu
              have hown : (owes (.sharedDict e)) = e.submittedDictIdx := by
                rw [owes, hsub, ite_self]
              rw [hown]
              refine ⟨heffect, ?_, trivial⟩
              show owes (.sharedDict u.enc) = none
              rw [henc]
              rfl
            · cases hu
              refine ⟨scopeEffect_nil _ _, ?_, trivial⟩
              show (if _ then none else e.submittedDictIdx) = none
              rw [hsub, ite_self]
  | finish =>
      rw [PhysicalColEncoder.finish, Act.get_bind, hs] at h
      cases p with
      | encoderDict e =>
          obtain ⟨u, hu, rfl⟩ := delegate_eq_ok h
          obtain ⟨hchunks, hleft⟩ := EncoderDictColEncoder.finish_plain hu hplain
          exact ⟨scopeEffect_plain (EncoderDictColEncoder.finish_ctx hu) hchunks, rfl, hleft⟩
      | dict e =>
          obtain ⟨u, hu, rfl⟩ := delegate_eq_ok h
          obtain ⟨hchunks, hleft⟩ := DictColEncoder.finish_plain hu hplain
          exact ⟨scopeEffect_plain (DictColEncoder.finish_ctx hu) hchunks, rfl, hleft⟩
      | glBest e =>
          obtain ⟨u, hu, rfl⟩ := delegate_eq_ok h
          exact ⟨GLBestEncoder.finish_effect hfit hu, rfl, trivial⟩
      | sharedDict e =>
          obtain ⟨u, hu, rfl⟩ := delegate_eq_ok h
          rw [SharedDictColEncoder.finish_run] at hu
          split at hu
          · next hempty =>
              cases hu
              refine ⟨scopeEffect_nil _ _, ?_, trivial⟩
              exact if_pos (List.isEmpty_iff.1 hempty)
          · next hempty =>
              obtain ⟨heffect, henc⟩ := SharedDictColEncoder.encodeDictScope_effect hvalid hfit hu
              have hown : owes (.sharedDict e) = e.submittedDictIdx :=
                if_neg fun hnil => hempty (List.isEmpty_iff.2 hnil)
              rw [hown]
              refine ⟨heffect, ?_, trivial⟩
              show owes (.sharedDict u.enc) = none
              rw [henc]
              rfl

end PhysicalColEncoder

end

/-! ## What a submission does -/

namespace SharedDictColEncoder

theorem submitAll_effect {idx : Nat} : ∀ {arrs : List ArrayRef} {s t : Working SharedDictColEncoder}
    {d : Dictionary}, s.ctx.dictionaries[idx]? = some d → d.Valid →
      submitAll idx arrs s = .ok () t →
        ∃ d', d.Grown d' ∧ t = { s with ctx := s.ctx.put idx d' }
  | [], s, t, d, hd, hvalid, h => by
      cases h
      refine ⟨d, .refl hvalid, ?_⟩
      obtain ⟨hlt, hget⟩ := List.getElem?_eq_some_iff.1 hd
      rw [SharedDictionaryContext.put, ← hget, List.set_getElem_self]
  | arr :: arrs, s, t, d, hd, hvalid, h => by
      have hindex : index s.ctx.dictionaries idx = .ok d := (index_eq_ok _ _ _).2 hd
      rw [submitAll, Act.get_bind, SharedDictionaryContext.submitValues, hindex, ok_bind] at h
      cases hsubmit : d.submitValues arr with
      | error f => rw [hsubmit] at h; cases h
      | ok d₁ =>
          rw [hsubmit, ok_bind, pure_eq_ok, Act.lift_ok_bind, Act.set_bind] at h
          have hgrown := grown_of_submitValues hvalid hsubmit
          obtain ⟨hlt, -⟩ := List.getElem?_eq_some_iff.1 hd
          have hd₁ : (s.ctx.put idx d₁).dictionaries[idx]? = some d₁ := List.getElem?_set_self hlt
          obtain ⟨d', hgrown', rfl⟩ := submitAll_effect
            (s := { s with ctx := s.ctx.put idx d₁ }) hd₁ hgrown.valid h
          exact ⟨d', hgrown.trans hgrown', by rw [SharedDictionaryContext.put_put]⟩

/-- The values go to a new dictionary, which the encoder remembers. -/
theorem submitDict_effect {s t : Working SharedDictColEncoder}
    (hnone : s.enc.submittedDictIdx = none) (hfit : s.ctx.dictionaries.length < 2 ^ 32)
    (h : submitDict s = .ok () t) : ∃ d : Dictionary, d.Valid ∧ t.ctx = s.ctx.snoc d ∧
      t.enc = { s.enc with submittedDictIdx := some s.ctx.dictionaries.length } := by
  rw [submitDict, Act.get_bind] at h
  obtain ⟨idx, s₁, hdict, hall⟩ := (Act.returns_bind _ _ _ _ _).1 h
  unfold submittedDict at hdict
  obtain ⟨v, s₂, hget, hdict⟩ := (Act.returns_bind _ _ _ _ _).1 hdict
  obtain ⟨rfl, rfl⟩ := (Act.returns_get _ _ _).1 hget
  obtain ⟨idx', s₂, hscope, hrest⟩ := (Act.returns_bind _ _ _ _ _).1 hdict
  obtain ⟨_, s₃, hmodify, hpure⟩ := (Act.returns_bind _ _ _ _ _).1 hrest
  have hs₃ := (Act.returns_modify _ _ _ _).1 hmodify
  obtain ⟨rfl, rfl⟩ := (Act.returns_pure _ _ _ _).1 hpure
  unfold scopeDictIdx at hscope
  rw [hnone] at hscope
  obtain ⟨first, s₄, hfirst, hnew⟩ := (Act.returns_bind _ _ _ _ _).1 hscope
  obtain ⟨-, rfl⟩ := (Act.returns_lift _ _ _ _).1 hfirst
  unfold newDictionary at hnew
  obtain ⟨v, s₅, hget, hnew⟩ := (Act.returns_bind _ _ _ _ _).1 hnew
  obtain ⟨rfl, rfl⟩ := (Act.returns_get _ _ _).1 hget
  obtain ⟨r, s₅, hlift, hnew⟩ := (Act.returns_bind _ _ _ _ _).1 hnew
  obtain ⟨hcreate, rfl⟩ := (Act.returns_lift _ _ _ _).1 hlift
  obtain ⟨_, s₆, hset, hpure⟩ := (Act.returns_bind _ _ _ _ _).1 hnew
  have hs₆ := (Act.returns_set _ _ _ _).1 hset
  obtain ⟨hidx, rfl⟩ := (Act.returns_pure _ _ _ _).1 hpure
  simp only [SharedDictionaryContext.newDictionary, bind_eq_ok, pure_eq_ok, Except.ok.injEq]
    at hcreate
  obtain ⟨d, hd, rfl⟩ := hcreate
  subst hs₃ hs₆
  have hid : idx' = s.ctx.dictionaries.length := hidx.symm.trans (u32_of_lt hfit)
  have hvalid : d.Valid := by
    cases hdtype : first.dataType with
    | prim p =>
        rw [hdtype] at hd
        exact (Dictionary.valid_tryNew hd).1
    | list child => rw [hdtype] at hd; cases hd
    | largeList child => rw [hdtype] at hd; cases hd
    | struct fields => rw [hdtype] at hd; cases hd
  subst hid
  have hlast : (s.ctx.snoc d).dictionaries[s.ctx.dictionaries.length]? = some d := by
    simp [SharedDictionaryContext.snoc]
  obtain ⟨d', hgrown, rfl⟩ := submitAll_effect hlast hvalid hall
  exact ⟨d', hgrown.valid, SharedDictionaryContext.put_snoc s.ctx d d', rfl⟩

end SharedDictColEncoder

/-- **The effect of a submission**: nothing, or a new dictionary, to which nobody
but this encoder still owes values. -/
theorem PhysicalColEncoder.submitDict_effect {s t : Working PhysicalColEncoder}
    (hnone : s.enc.submittedDictIdx = none) (hplain : s.enc.HoldsPlain)
    (hfit : s.ctx.dictionaries.length < 2 ^ 32) (h : submitDict s = .ok () t) :
    t.enc.HoldsPlain ∧ ((t.ctx = s.ctx ∧ t.enc.owes = none) ∨ ∃ d : Dictionary, d.Valid ∧
      t.ctx = s.ctx.snoc d ∧
        (t.enc.owes = none ∨ t.enc.owes = some s.ctx.dictionaries.length)) := by
  rw [submitDict, Act.get_bind] at h
  cases hp : s.enc with
  | sharedDict e =>
      rw [hp] at h hnone
      obtain ⟨u, hu, rfl⟩ := delegate_eq_ok h
      obtain ⟨d, hd, hctx, henc⟩ := SharedDictColEncoder.submitDict_effect
        (s := ⟨e, s.counter, s.ctx, s.rng⟩) hnone hfit hu
      refine ⟨trivial, .inr ⟨d, hd, hctx, ?_⟩⟩
      show owes (.sharedDict u.enc) = none ∨ owes (.sharedDict u.enc) = _
      rw [henc, owes]
      split
      · exact .inl rfl
      · exact .inr rfl
  | encoderDict e =>
      rw [hp] at h
      cases h
      exact ⟨hplain, .inl ⟨rfl, by rw [hp]; rfl⟩⟩
  | dict e =>
      rw [hp] at h
      cases h
      exact ⟨hplain, .inl ⟨rfl, by rw [hp]; rfl⟩⟩
  | glBest e =>
      rw [hp] at h
      cases h
      exact ⟨hplain, .inl ⟨rfl, by rw [hp]; rfl⟩⟩

/-! ## The number of dictionaries -/

namespace SharedDictionaryContext

theorem mergeEdge_length {edge : SimilarityEdge} {s s' : MergeState}
    (h : mergeEdge edge s = .ok s') : s'.dicts.length = s.dicts.length := by
  unfold mergeEdge at h
  dsimp only at h
  split at h
  · cases h
  · split at h
    · cases h
      rfl
    · simp only [bind_eq_ok] at h
      obtain ⟨di, -, dj, -, h⟩ := h
      split at h
      · cases h
        rfl
      · rw [bind_eq_ok] at h
        obtain ⟨r, -, h⟩ := h
        split at h
        · cases h
          simp only [List.length_set]
        · cases h
          simp only [List.length_set]

theorem mergeEdges_length : ∀ {edges : List SimilarityEdge} {s s' : MergeState},
    mergeEdges edges s = .ok s' → s'.dicts.length = s.dicts.length
  | [], s, s', h => by
      cases h
      rfl
  | edge :: edges, s, s', h => by
      rw [mergeEdges] at h
      split at h
      · cases h
        rfl
      · rw [bind_eq_ok] at h
        obtain ⟨s₁, hfirst, hrest⟩ := h
        exact (mergeEdges_length hrest).trans (mergeEdge_length hfirst)

theorem mergeGroups_length {env : Env} {dicts : List Dictionary} :
    ∀ {types : List PrimType} {s s' : MergeState},
      mergeGroups env dicts types s = .ok s' → s'.dicts.length = s.dicts.length
  | [], s, s', h => by
      cases h
      rfl
  | t :: types, s, s', h => by
      rw [mergeGroups, bind_eq_ok] at h
      obtain ⟨s₁, hfirst, hrest⟩ := h
      refine (mergeGroups_length hrest).trans ?_
      unfold mergeGroup at hfirst
      dsimp only at hfirst
      split at hfirst
      · cases hfirst
        rfl
      · exact mergeEdges_length hfirst

theorem mergeDicts_length {env : Env} {ctx ctx' : SharedDictionaryContext}
    (h : ctx.mergeDicts env = .ok ctx') :
    ctx'.dictionaries.length = ctx.dictionaries.length := by
  simp only [mergeDicts, bind_eq_ok, pure_eq_ok, Except.ok.injEq] at h
  obtain ⟨s, hs, rfl⟩ := h
  exact mergeGroups_length hs

theorem keptByCalls_le_length (n : Nat) :
    PhysicalColEncoder.KeptByCalls fun ctx => n ≤ ctx.dictionaries.length where
  newDictionary := by
    intro ctx dtype r hctx h
    simp only [newDictionary, bind_eq_ok, pure_eq_ok, Except.ok.injEq] at h
    obtain ⟨d, -, rfl⟩ := h
    show n ≤ (ctx.dictionaries ++ [d]).length
    rw [List.length_append]
    omega
  extendAndGetIndex := by
    intro ctx idx arr r hctx h
    simp only [extendAndGetIndex, bind_eq_ok, pure_eq_ok, Except.ok.injEq] at h
    obtain ⟨d, -, r', -, rfl⟩ := h
    show n ≤ (ctx.dictionaries.set idx _).length
    rw [List.length_set]
    exact hctx
  submitValues := by
    intro ctx ctx' idx arr hctx h
    simp only [submitValues, bind_eq_ok, pure_eq_ok, Except.ok.injEq] at h
    obtain ⟨d, -, d', -, rfl⟩ := h
    show n ≤ (ctx.dictionaries.set idx _).length
    rw [List.length_set]
    exact hctx
  snoc := by
    intro ctx d hctx _
    show n ≤ (ctx.dictionaries ++ [d]).length
    rw [List.length_append]
    omega

theorem keptByCalls_compressionType (c : CompressionType) :
    PhysicalColEncoder.KeptByCalls fun ctx => ctx.compressionType = c where
  newDictionary := by
    intro ctx dtype r hctx h
    simp only [newDictionary, bind_eq_ok, pure_eq_ok, Except.ok.injEq] at h
    obtain ⟨d, -, rfl⟩ := h
    exact hctx
  extendAndGetIndex := by
    intro ctx idx arr r hctx h
    simp only [extendAndGetIndex, bind_eq_ok, pure_eq_ok, Except.ok.injEq] at h
    obtain ⟨d, -, r', -, rfl⟩ := h
    exact hctx
  submitValues := by
    intro ctx ctx' idx arr hctx h
    simp only [submitValues, bind_eq_ok, pure_eq_ok, Except.ok.injEq] at h
    obtain ⟨d, -, d', -, rfl⟩ := h
    exact hctx
  snoc := fun hctx _ => hctx

end SharedDictionaryContext

variable {env : Env} {P : CallEvent → Prop} {a b : Point}

/-- Dictionaries are never removed. -/
theorem Step.length_le (h : Step env P a b) :
    a.ctx.dictionaries.length ≤ b.ctx.dictionaries.length := by
  cases h with
  | call e hruns _ _ =>
      exact hruns.method.context (SharedDictionaryContext.keptByCalls_le_length _) hruns.encoder
        hruns.returns (Nat.le_refl _)
  | submitDict _ _ hrun =>
      exact PhysicalColEncoder.submitDict_context
        (SharedDictionaryContext.keptByCalls_le_length _) hrun (Nat.le_refl _)
  | mergeDicts _ hrun => exact (SharedDictionaryContext.mergeDicts_length hrun).ge
  | flushChunk _ => exact Nat.le_refl _
  | addRows _ => exact Nat.le_refl _
  | finishRowGroup => exact Nat.le_refl _

/-- The compression type of the context is that of the options, throughout. -/
theorem Step.compressionType_eq (h : Step env P a b) :
    b.ctx.compressionType = a.ctx.compressionType := by
  cases h with
  | call e hruns _ _ =>
      exact hruns.method.context (SharedDictionaryContext.keptByCalls_compressionType _)
        hruns.encoder hruns.returns rfl
  | submitDict _ _ hrun =>
      exact PhysicalColEncoder.submitDict_context
        (SharedDictionaryContext.keptByCalls_compressionType _) hrun rfl
  | mergeDicts _ hrun =>
      simp only [SharedDictionaryContext.mergeDicts, bind_eq_ok, pure_eq_ok,
        Except.ok.injEq] at hrun
      obtain ⟨s, -, rfl⟩ := hrun
      rfl
  | flushChunk _ => rfl
  | addRows _ => rfl
  | finishRowGroup => rfl

/-! ## What holds at every point -/

/-- Merged dictionaries go in pairs of one type with a common first part. -/
def SharedDictionaryContext.Matched (ctx : SharedDictionaryContext) : Prop :=
  ∀ i peer l : Nat, (ctx.mergeResult[i]?).join = some (peer, l) →
    i ≠ peer ∧ (ctx.mergeResult[peer]?).join = some (i, l) ∧ ∃ d p : Dictionary,
      ctx.dictionaries[i]? = some d ∧ ctx.dictionaries[peer]? = some p ∧
        d.datatype = p.datatype ∧ 1 ≤ l ∧ l ≤ d.len ∧ l ≤ p.len ∧
          d.values.take l = p.values.take l

namespace SharedDictionaryContext

variable {ctx : SharedDictionaryContext}

theorem matched_of_nil (h : ctx.mergeResult = []) : ctx.Matched := by
  intro i peer l hi
  rw [h] at hi
  cases hi

theorem matched_of_mergeSound {dicts : List Dictionary}
    (h : MergeSound dicts ctx.dictionaries ctx.mergeResult) : ctx.Matched := by
  intro i peer l hi
  have hsome : ctx.mergeResult[i]? = some (some (peer, l)) := by
    cases hget : ctx.mergeResult[i]? with
    | none => rw [hget] at hi; cases hi
    | some o => rw [hget] at hi; exact congrArg some hi
  obtain ⟨hne, d, p, hd, hp, htype, hpos, hld, hlp, htake⟩ := h.matched i peer l hsome
  have hback := (h.symmetric i peer l).1 hsome
  exact ⟨hne, by rw [hback]; rfl, d, p, hd, hp, htype, hpos, hld, hlp, htake⟩

/-- The dictionaries of a context may grow. -/
theorem Matched.grow (h : ctx.Matched) {ctx' : SharedDictionaryContext}
    (hmerge : ctx'.mergeResult = ctx.mergeResult)
    (hgrow : ∀ (i : Nat) (d : Dictionary), ctx.dictionaries[i]? = some d →
      ∃ d', ctx'.dictionaries[i]? = some d' ∧ d.Grown d') : ctx'.Matched := by
  intro i peer l hi
  rw [hmerge] at hi
  obtain ⟨hne, hback, d, p, hd, hp, htype, hpos, hld, hlp, htake⟩ := h i peer l hi
  obtain ⟨d', hd', hgd⟩ := hgrow i d hd
  obtain ⟨p', hp', hgp⟩ := hgrow peer p hp
  refine ⟨hne, hmerge ▸ hback, d', p', hd', hp', ?_, hpos, hld.trans hgd.len_le,
    hlp.trans hgp.len_le, ?_⟩
  · rw [hgd.datatype, hgp.datatype, htype]
  · rw [hgd.take_eq hld, hgp.take_eq hlp, htake]

theorem grown_snoc (hvalid : ctx.Valid) (d₀ : Dictionary) (i : Nat) (d : Dictionary)
    (h : ctx.dictionaries[i]? = some d) :
    (ctx.snoc d₀).dictionaries[i]? = some d ∧ d.Grown d := by
  obtain ⟨hi, -⟩ := List.getElem?_eq_some_iff.1 h
  refine ⟨?_, .refl (hvalid d (List.mem_of_getElem? h))⟩
  show (ctx.dictionaries ++ [d₀])[i]? = some d
  rw [List.getElem?_append_left hi, h]

theorem grown_put (hvalid : ctx.Valid) {idx : Nat} {d₀ d₁ : Dictionary}
    (hd₀ : ctx.dictionaries[idx]? = some d₀) (hgrown : d₀.Grown d₁) (i : Nat) (d : Dictionary)
    (h : ctx.dictionaries[i]? = some d) :
    ∃ d', (ctx.put idx d₁).dictionaries[i]? = some d' ∧ d.Grown d' ∧ (i ≠ idx → d' = d) := by
  by_cases hi : i = idx
  · subst hi
    rw [hd₀] at h
    cases h
    obtain ⟨hlt, -⟩ := List.getElem?_eq_some_iff.1 hd₀
    exact ⟨d₁, List.getElem?_set_self hlt, hgrown, fun hne => absurd rfl hne⟩
  · refine ⟨d, ?_, .refl (hvalid d (List.mem_of_getElem? h)), fun _ => rfl⟩
    show (ctx.dictionaries.set idx d₁)[i]? = some d
    rw [List.getElem?_set_ne (Ne.symm hi), h]

end SharedDictionaryContext

/-- The dictionaries that some encoder will still extend. -/
def Point.owed (p : Point) : List Nat := p.leaves.filterMap fun l => l.encoder.owes

/-- What holds at every point of a run. -/
structure Point.Sound (p : Point) : Prop where
  valid : p.ctx.Valid
  matched : p.ctx.Matched
  plain : ∀ l ∈ p.leaves, l.encoder.HoldsPlain
  /-- a dictionary is owed values by one encoder at most -/
  owedNodup : p.owed.Nodup
  owedLt : ∀ i ∈ p.owed, i < p.ctx.dictionaries.length

/-- A settled dictionary has the length `n` and is owed nothing. -/
structure Point.Settled (idx n : Nat) (p : Point) : Prop where
  free : idx ∉ p.owed
  length : ∃ d, p.ctx.dictionaries[idx]? = some d ∧ d.len = n

namespace ScopeEffect

variable {own : Option Nat} {ctx ctx' : SharedDictionaryContext} {cs : List EncodedColumnChunk}

/-- A call extends no dictionary but `own`. -/
theorem grows (h : ScopeEffect own ctx cs ctx') (hvalid : ctx.Valid) (i : Nat) (d : Dictionary)
    (hd : ctx.dictionaries[i]? = some d) :
    ∃ d', ctx'.dictionaries[i]? = some d' ∧ d.Grown d' ∧ (own ≠ some i → d' = d) := by
  cases h with
  | none _ => exact ⟨d, hd, .refl (hvalid d (List.mem_of_getElem? hd)), fun _ => rfl⟩
  | @added d₀ _ _ =>
      obtain ⟨hget, hgrown⟩ := SharedDictionaryContext.grown_snoc hvalid d₀ i d hd
      exact ⟨d, hget, hgrown, fun _ => rfl⟩
  | extended hown hd₀ hgrown _ =>
      obtain ⟨d', hget, hgrown', hsame⟩ :=
        SharedDictionaryContext.grown_put hvalid hd₀ hgrown i d hd
      refine ⟨d', hget, hgrown', fun hne => hsame fun hi => hne ?_⟩
      rw [hown, hi]

theorem valid (h : ScopeEffect own ctx cs ctx') (hvalid : ctx.Valid) : ctx'.Valid := by
  cases h with
  | none _ => exact hvalid
  | added hd _ => exact hvalid.snoc hd
  | extended _ _ hgrown _ => exact hvalid.put hgrown.valid _

theorem mergeResult (h : ScopeEffect own ctx cs ctx') : ctx'.mergeResult = ctx.mergeResult := by
  cases h with
  | none _ => rfl
  | added _ _ => rfl
  | extended _ _ _ _ => rfl

theorem matched (h : ScopeEffect own ctx cs ctx') (hvalid : ctx.Valid) (hm : ctx.Matched) :
    ctx'.Matched := by
  refine hm.grow h.mergeResult fun i d hd => ?_
  obtain ⟨d', hd', hgrown, -⟩ := h.grows hvalid i d hd
  exact ⟨d', hd', hgrown⟩

/-- The chunks carry dictionaries the context has. -/
theorem labels_lt (h : ScopeEffect own ctx cs ctx') {c : EncodedColumnChunk} (hc : c ∈ cs)
    {idx : Nat} (hidx : c.dictEncoding = .sharedDictionary idx) :
    idx < ctx'.dictionaries.length := by
  cases h with
  | none hcs => exact absurd hidx (hcs c hc idx)
  | @added d _ hcs =>
      rw [hcs c hc idx hidx]
      show _ < (ctx.dictionaries ++ [d]).length
      rw [List.length_append, List.length_singleton]
      omega
  | @extended i d d' _ hd _ hcs =>
      rw [hcs c hc idx hidx]
      show i < (ctx.dictionaries.set i d').length
      rw [List.length_set]
      exact (List.getElem?_eq_some_iff.1 hd).1

/-- A chunk's dictionary is the one the encoder owed values, or a new one. -/
theorem label_own (h : ScopeEffect own ctx cs ctx') {c : EncodedColumnChunk} (hc : c ∈ cs)
    {idx : Nat} (hidx : c.dictEncoding = .sharedDictionary idx) :
    own = some idx ∨ idx = ctx.dictionaries.length := by
  cases h with
  | none hcs => exact absurd hidx (hcs c hc idx)
  | added _ hcs => exact .inr (hcs c hc idx hidx)
  | extended hown _ _ hcs => exact .inl (by rw [hown, hcs c hc idx hidx])

end ScopeEffect

/-- The encoders that owe values, with one of them singled out. -/
theorem owed_split (pre post : List Leaf) (l : Leaf) :
    (pre ++ l :: post).filterMap (fun l => l.encoder.owes) =
      pre.filterMap (fun l => l.encoder.owes) ++ (l.encoder.owes.toList ++
        post.filterMap fun l => l.encoder.owes) := by
  rw [List.filterMap_append, List.filterMap_cons]
  cases l.encoder.owes with
  | none => rfl
  | some i => rfl

/-- What a call does at a sound point. -/
theorem Point.Sound.effect {pre post : List Leaf} {pending : List EncodedColumnChunk}
    {s : FileWriteState} {e : CallEvent}
    (h : Point.Sound ⟨pre ++ e.leaf :: post, pending, s, e.before.ctx⟩) (hruns : e.Runs env)
    (hfit : e.before.ctx.dictionaries.length < 2 ^ 32) :
    ScopeEffect e.leaf.encoder.owes e.before.ctx e.chunks e.after.ctx ∧
      e.left.encoder.owes = none ∧ e.left.encoder.HoldsPlain :=
  hruns.method.scope hruns.encoder hruns.returns
    (h.plain e.leaf (List.mem_append_right _ List.mem_cons_self)) h.valid hfit

/-- Replacing one of the encoders. -/
theorem plain_replaced {pre post : List Leaf} {l l' : Leaf}
    (h : ∀ k ∈ pre ++ l :: post, k.encoder.HoldsPlain) (hl' : l'.encoder.HoldsPlain) :
    ∀ k ∈ pre ++ l' :: post, k.encoder.HoldsPlain := by
  obtain ⟨hpre, hrest⟩ := List.forall_mem_append.1 h
  exact List.forall_mem_append.2 ⟨hpre, List.forall_mem_cons.2
    ⟨hl', (List.forall_mem_cons.1 hrest).2⟩⟩

/-- **Every step keeps a point sound.** -/
theorem Point.Sound.step (h : a.Sound) (hstep : Step env P a b)
    (hfit : b.ctx.dictionaries.length < 2 ^ 32) : b.Sound := by
  have hfit' := Nat.lt_of_le_of_lt hstep.length_le hfit
  cases hstep with
  | @call pre post pending s e hruns _ _ =>
      obtain ⟨heffect, howes, hplain⟩ := h.effect hruns hfit'
      have hsub : List.Sublist ((pre ++ e.left :: post).filterMap fun l => l.encoder.owes)
          ((pre ++ e.leaf :: post).filterMap fun l => l.encoder.owes) := by
        rw [owed_split, owed_split, howes]
        exact (List.Sublist.refl _).append (List.sublist_append_right _ _)
      refine ⟨heffect.valid h.valid, heffect.matched h.valid h.matched,
        plain_replaced h.plain hplain, h.owedNodup.sublist hsub, ?_⟩
      intro i hi
      obtain ⟨d, hd⟩ : ∃ d, e.before.ctx.dictionaries[i]? = some d :=
        ⟨_, List.getElem?_eq_getElem (h.owedLt i (hsub.subset hi))⟩
      obtain ⟨d', hd', -⟩ := heffect.grows h.valid i d hd
      exact (List.getElem?_eq_some_iff.1 hd').1
  | @submitDict pre post l pending s before after hencoder hnone hrun =>
      have hl : l.encoder.owes = none := by
        cases hp : l.encoder with
        | sharedDict e =>
            rw [hp] at hnone
            have hsub : e.submittedDictIdx = none := hnone
            rw [PhysicalColEncoder.owes, hsub, ite_self]
        | encoderDict e => rfl
        | dict e => rfl
        | glBest e => rfl
      have hplainBefore : before.enc.HoldsPlain := by
        rw [hencoder]
        exact h.plain l (List.mem_append_right _ List.mem_cons_self)
      obtain ⟨hplain, hctx⟩ := PhysicalColEncoder.submitDict_effect (hencoder ▸ hnone)
        hplainBefore hfit' hrun
      have howed := h.owedNodup
      have hlt := h.owedLt
      rw [Point.owed, owed_split, hl] at howed hlt
      rcases hctx with ⟨hsame, howes⟩ | ⟨d, hd, hsnoc, howes⟩
      · refine ⟨by rw [hsame]; exact h.valid, by rw [hsame]; exact h.matched,
          plain_replaced h.plain hplain, ?_, ?_⟩
        · rw [Point.owed, owed_split, howes]
          exact howed
        · rw [Point.owed, owed_split, howes]
          intro i hi
          have hi' := hlt i hi
          rw [hsame]
          exact hi'
      · have hlen : after.ctx.dictionaries.length = before.ctx.dictionaries.length + 1 := by
          rw [hsnoc]
          show (before.ctx.dictionaries ++ [d]).length = _
          rw [List.length_append, List.length_singleton]
        refine ⟨by rw [hsnoc]; exact h.valid.snoc hd, ?_, plain_replaced h.plain hplain, ?_, ?_⟩
        · refine h.matched.grow (by rw [hsnoc]; rfl) fun i d' hd' => ?_
          have hgrown := SharedDictionaryContext.grown_snoc h.valid d i d' hd'
          exact ⟨d', hsnoc ▸ hgrown.1, hgrown.2⟩
        · rw [Point.owed, owed_split]
          rcases howes with howes | howes
          · rw [howes]
            exact howed
          · rw [howes]
            -- the new id is not among those that were owed before
            have hnew : before.ctx.dictionaries.length ∉
                pre.filterMap (fun l => l.encoder.owes) ++ post.filterMap fun l =>
                  l.encoder.owes := fun hmem => Nat.lt_irrefl _ (hlt _ hmem)
            exact (List.nodup_middle).2 (List.nodup_cons.2 ⟨hnew, howed⟩)
        · rw [Point.owed, owed_split]
          intro i hi
          show i < after.ctx.dictionaries.length
          rw [hlen]
          have hcases : i ∈ pre.filterMap (fun l => l.encoder.owes) ++ ([] ++
              post.filterMap fun l => l.encoder.owes) ∨ i = before.ctx.dictionaries.length := by
            simp only [List.mem_append] at hi ⊢
            rcases howes with howes | howes
            · rw [howes] at hi
              exact .inl (by simpa using hi)
            · rw [howes] at hi
              simp only [Option.toList_some, List.mem_singleton] at hi
              tauto
          rcases hcases with hmem | hmem
          · exact Nat.lt_succ_of_lt (hlt i hmem)
          · omega
  | @mergeDicts ls pending s ctx ctx' hnil hrun =>
      obtain ⟨⟨r, hr, hsound⟩, -⟩ := SharedDictionaryContext.mergeDicts_sound env ctx.dictionaries
        ctx.isMultiColSharing ctx.compressionType h.valid
      have hctx : ctx = ⟨ctx.dictionaries, ctx.isMultiColSharing, [], ctx.compressionType⟩ := by
        rw [← hnil]
      rw [hctx, hr] at hrun
      cases hrun
      refine ⟨hsound.valid, SharedDictionaryContext.matched_of_mergeSound hsound, h.plain,
        h.owedNodup, ?_⟩
      intro i hi
      show i < ctx'.dictionaries.length
      rw [hsound.length]
      exact h.owedLt i hi
  | flushChunk _ => exact ⟨h.valid, h.matched, h.plain, h.owedNodup, h.owedLt⟩
  | addRows _ => exact ⟨h.valid, h.matched, h.plain, h.owedNodup, h.owedLt⟩
  | finishRowGroup => exact ⟨h.valid, h.matched, h.plain, h.owedNodup, h.owedLt⟩

/-- **A settled dictionary stays settled.** -/
theorem Point.Settled.step {idx n : Nat} (h : a.Settled idx n) (hsound : a.Sound)
    (hstep : Step env P a b) (hfit : b.ctx.dictionaries.length < 2 ^ 32) : b.Settled idx n := by
  have hfit' := Nat.lt_of_le_of_lt hstep.length_le hfit
  obtain ⟨d, hd, hlen⟩ := h.length
  have hfree := h.free
  cases hstep with
  | @call pre post pending s e hruns _ _ =>
      obtain ⟨heffect, howes, -⟩ := hsound.effect hruns hfit'
      rw [Point.owed, owed_split] at hfree
      simp only [List.mem_append, Option.mem_toList, not_or] at hfree
      obtain ⟨d', hd', -, hsame⟩ := heffect.grows hsound.valid idx d hd
      refine ⟨?_, d', hd', ?_⟩
      · rw [Point.owed, owed_split, howes]
        simp only [List.mem_append, Option.toList_none, List.not_mem_nil, not_or]
        exact ⟨hfree.1, not_false, hfree.2.2⟩
      · rw [hsame hfree.2.1, hlen]
  | @submitDict pre post l pending s before after hencoder hnone hrun =>
      have hplainBefore : before.enc.HoldsPlain := by
        rw [hencoder]
        exact hsound.plain l (List.mem_append_right _ List.mem_cons_self)
      obtain ⟨-, hctx⟩ := PhysicalColEncoder.submitDict_effect (hencoder ▸ hnone) hplainBefore
        hfit' hrun
      rw [Point.owed, owed_split] at hfree
      simp only [List.mem_append, Option.mem_toList, not_or] at hfree
      have hlt := (List.getElem?_eq_some_iff.1 hd).1
      rcases hctx with ⟨hsame, howes⟩ | ⟨d₀, -, hsnoc, howes⟩
      · refine ⟨?_, d, by rw [hsame]; exact hd, hlen⟩
        rw [Point.owed, owed_split, howes]
        simp only [List.mem_append, Option.toList_none, List.not_mem_nil, not_or]
        exact ⟨hfree.1, not_false, hfree.2.2⟩
      · have hget := (SharedDictionaryContext.grown_snoc hsound.valid d₀ idx d hd).1
        refine ⟨?_, d, by rw [hsnoc]; exact hget, hlen⟩
        rw [Point.owed, owed_split]
        simp only [List.mem_append, Option.mem_toList, not_or]
        refine ⟨hfree.1, ?_, hfree.2.2⟩
        rcases howes with howes | howes
        · rw [howes]
          exact fun hmem => by cases hmem
        · rw [howes]
          intro hmem
          cases hmem
          exact Nat.lt_irrefl _ hlt
  | @mergeDicts ls pending s ctx ctx' hnil hrun =>
      obtain ⟨⟨r, hr, hmerged⟩, -⟩ := SharedDictionaryContext.mergeDicts_sound env ctx.dictionaries
        ctx.isMultiColSharing ctx.compressionType hsound.valid
      have hctx : ctx = ⟨ctx.dictionaries, ctx.isMultiColSharing, [], ctx.compressionType⟩ := by
        rw [← hnil]
      rw [hctx, hr] at hrun
      cases hrun
      obtain ⟨d', hd', -, hperm⟩ := hmerged.kept idx d hd
      exact ⟨hfree, d', hd', hperm.length_eq.trans hlen⟩
  | flushChunk _ => exact ⟨hfree, d, hd, hlen⟩
  | addRows _ => exact ⟨hfree, d, hd, hlen⟩
  | finishRowGroup => exact ⟨hfree, d, hd, hlen⟩

/-- The dictionary of a chunk is settled once the chunk is returned. -/
theorem Point.Sound.settled {pre post : List Leaf} {pending : List EncodedColumnChunk}
    {s s' : FileWriteState} {e : CallEvent}
    (h : Point.Sound ⟨pre ++ e.leaf :: post, pending, s, e.before.ctx⟩) (hruns : e.Runs env)
    (hfit : e.after.ctx.dictionaries.length < 2 ^ 32) {c : EncodedColumnChunk} (hc : c ∈ e.chunks)
    {idx : Nat} (hidx : c.dictEncoding = .sharedDictionary idx) :
    ∃ d, e.after.ctx.dictionaries[idx]? = some d ∧ Point.Settled idx d.len
      ⟨pre ++ e.left :: post, pending ++ stamp e.leaf.column e.chunks, s', e.after.ctx⟩ := by
  have hfit' : e.before.ctx.dictionaries.length < 2 ^ 32 :=
    Nat.lt_of_le_of_lt (hruns.method.context (SharedDictionaryContext.keptByCalls_le_length _)
      hruns.encoder hruns.returns (Nat.le_refl _)) hfit
  obtain ⟨heffect, howes, -⟩ := h.effect hruns hfit'
  have hd := List.getElem?_eq_getElem (heffect.labels_lt hc hidx)
  refine ⟨_, hd, ?_, _, hd, rfl⟩
  rw [Point.owed, owed_split, howes]
  have hnodup := h.owedNodup
  have hlt := h.owedLt
  rw [Point.owed, owed_split] at hnodup hlt
  intro hmem
  have hothers : idx ∈ pre.filterMap (fun l => l.encoder.owes) ++
      post.filterMap fun l => l.encoder.owes := hmem
  rcases heffect.label_own hc hidx with hown | hnew
  · -- the encoder owed it alone
    rw [hown] at hnodup
    exact (List.nodup_cons.1 (List.nodup_middle.1 hnodup)).1 hothers
  · have hin : idx ∈ pre.filterMap (fun l => l.encoder.owes) ++ (e.leaf.encoder.owes.toList ++
        post.filterMap fun l => l.encoder.owes) := by
      rcases List.mem_append.1 hothers with hpre | hpost
      · exact List.mem_append_left _ hpre
      · exact List.mem_append_right _ (List.mem_append_right _ hpost)
    exact absurd (hnew ▸ hlt idx hin) (Nat.lt_irrefl _)

/-! ## Runs -/

theorem Steps.length_le (h : Steps env P a b) :
    a.ctx.dictionaries.length ≤ b.ctx.dictionaries.length := by
  induction h with
  | refl => exact Nat.le_refl _
  | tail _ hstep ih => exact ih.trans hstep.length_le

theorem Steps.compressionType_eq (h : Steps env P a b) :
    b.ctx.compressionType = a.ctx.compressionType := by
  induction h with
  | refl => rfl
  | tail _ hstep ih => exact hstep.compressionType_eq.trans ih

/-- Every point of a run is sound. -/
theorem Point.Sound.steps (h : a.Sound) (hsteps : Steps env P a b)
    (hfit : b.ctx.dictionaries.length < 2 ^ 32) : b.Sound := by
  induction hsteps with
  | refl => exact h
  | tail _ hstep ih => exact (ih (Nat.lt_of_le_of_lt hstep.length_le hfit)).step hstep hfit

theorem Point.Settled.steps {idx n : Nat} (h : a.Settled idx n) (hsound : a.Sound)
    (hsteps : Steps env P a b) (hfit : b.ctx.dictionaries.length < 2 ^ 32) : b.Settled idx n := by
  induction hsteps with
  | refl => exact h
  | tail hsteps hstep ih =>
      have hfit' := Nat.lt_of_le_of_lt hstep.length_le hfit
      exact (ih hfit').step (hsound.steps hsteps hfit') hstep hfit

theorem holdsPlain_physical {o : EncoderOptions} {dataType : DataType} {p : PhysicalColEncoder}
    (h : o.physical dataType = .ok p) : p.HoldsPlain ∧ p.owes = none := by
  have hlabel : ∀ l : DictionaryEncoding, (∀ idx, l ≠ .sharedDictionary idx) →
      (EncodedColumnChunk.withDictEncoding l).Plain := fun _ => plain_withDictEncoding
  unfold EncoderOptions.physical createPhysicalEncoder at h
  split at h
  · split at h
    · split at h
      · cases h
        exact ⟨hlabel _ fun _ he => (by cases he), rfl⟩
      · cases h
        exact ⟨hlabel _ fun _ he => (by cases he), rfl⟩
      · cases h
        exact ⟨hlabel _ fun _ he => (by cases he), rfl⟩
      · cases h
        exact ⟨trivial, rfl⟩
      · cases h
        exact ⟨trivial, rfl⟩
      · cases h
        exact ⟨trivial, rfl⟩
      · cases h
        exact ⟨trivial, rfl⟩
    · cases h
  · cases h
    exact ⟨hlabel _ fun _ he => (by cases he), rfl⟩
  · cases h
    exact ⟨hlabel _ fun _ he => (by cases he), rfl⟩
  · cases h

/-- A new writer is at a sound point. -/
theorem FileWriter.sound_point {schema : List Field} {options : FileWriterOptions} {w : FileWriter}
    (h : tryNew env schema options = .ok w) : w.point.Sound := by
  obtain ⟨hleaves, hctx⟩ := tryNew_point h
  have hnew : ∀ l ∈ w.leaves, l.encoder.HoldsPlain ∧ l.encoder.owes = none := by
    intro l hl
    obtain ⟨-, dataType, hp⟩ := hleaves l hl
    exact holdsPlain_physical hp
  have howed : w.point.owed = [] := by
    refine List.filterMap_eq_nil_iff.2 fun l hl => (hnew l hl).2
  refine ⟨?_, ?_, fun l hl => (hnew l hl).1, by rw [howed]; exact List.nodup_nil, ?_⟩
  · show w.sharedDictionaryContext.Valid
    rw [hctx]
    exact SharedDictionaryContext.valid_new _ _
  · show w.sharedDictionaryContext.Matched
    rw [hctx]
    exact SharedDictionaryContext.matched_of_nil rfl
  · rw [howed]
    intro i hi
    cases hi

end F3Format
