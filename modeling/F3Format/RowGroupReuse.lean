import F3Format.EncoderScopes
import F3Format.SampleEnv

/-!
# Encoders over several row groups

An encoder is used again after each `finish`. `Independent` says that a used
encoder then behaves as a new one: it emits the same chunks for the same calls
and reports no memory. Three encoders always do (`EncoderDictColEncoder`,
`SharedDictColEncoder`, `GLBestEncoder`); the other two keep their byte total
over `finish`, and `DictColEncoder` also loses the label of its chunks, so that
they do only after some histories.
-/

set_option autoImplicit false

namespace F3Format

open Lib Lib.Cutting PushedUnits

/-! ## Dictionary numbering -/

/-- Moves dictionary ids counted from `n` to ids counted from `n'`. -/
def DictionaryEncoding.renumber (n n' : Nat) : DictionaryEncoding → DictionaryEncoding
  | .sharedDictionary idx => .sharedDictionary (idx - n + n')
  | d => d

/-- The chunk with its dictionary id moved. -/
def EncodedColumnChunk.renumber (n n' : Nat) (c : EncodedColumnChunk) : EncodedColumnChunk :=
  { c with dictEncoding := c.dictEncoding.renumber n n' }

/-- The chunks of two calls are the same up to the numbering of dictionaries. -/
def Renumbered (n n' : Nat) (cs cs' : List EncodedColumnChunk) : Prop :=
  cs' = cs.map (EncodedColumnChunk.renumber n n')

namespace ColEncoder

variable {E A : Type}

/-- The encoder after some calls and a `finish`, starting from a new one. -/
def used (m : ColEncoder E A) (o : Shared) (history : List (Call A)) : Working E :=
  (Act.trace m.call (history ++ [.finish]) (o.embed fun _ => m.fresh)).2

/-- What the encode calls `following` and a `finish` return. -/
def emits (m : ColEncoder E A) (following : List A) (s : Working E) :
    List (Result (List EncodedColumnChunk)) :=
  (Act.trace m.call (session following) s).1

/-- A used encoder behaves as a new one: no memory is accounted to it, with the
counter, the context and the generator it has reached it emits what a new one
emits, and a new one in any other context emits the same up to the numbering of
the dictionaries, as long as their ids fit. -/
structure Independent (m : ColEncoder E A) (o : Shared) (history : List (Call A))
    (following : List A) : Prop where
  memory : m.memorySize (m.used o history).enc = m.memorySize m.fresh
  same : m.emits following (m.used o history) =
    m.emits following ((m.used o history).embed fun _ => m.fresh)
  renumbered : ∀ o' : Shared, o'.rng = (m.used o history).rng →
    (m.used o history).ctx.dictionaries.length + following.length < 2 ^ 32 →
    o'.ctx.dictionaries.length + following.length < 2 ^ 32 →
    List.Forall₂
      (Act.Agree (Renumbered (m.used o history).ctx.dictionaries.length
        o'.ctx.dictionaries.length))
      (m.emits following (m.used o history)) (m.emits following (o'.embed fun _ => m.fresh))

end ColEncoder

/-! ## Buffered encoders -/

namespace Buffered

variable {E A : Type} {m : ColEncoder E A} (B : Buffered m)

/-- The labels of a policy carry no dictionary id. -/
def Unnumbered : Prop := ∀ n n', B.policy.cutLabel.renumber n n' = B.policy.cutLabel ∧
  B.policy.flushLabel.renumber n n' = B.policy.flushLabel

/-- The trace of the buffer for a history and the buffer it leaves. -/
def bufferAfter (history : List (Call A)) : Buffer PushedUnits DictionaryEncoding :=
  (Act.trace (act B.policy (sized B.item)) (history ++ [.finish]) (fresh B.policy)).2

theorem used_enc (o : Shared) (history : List (Call A)) :
    (m.used o history).enc = B.ofBuffer (B.bufferAfter history) := by
  have h := B.trace_eq (history ++ [.finish]) (s := o.embed fun _ => m.fresh) B.fresh_eq
  exact h.2

/-- What the calls return is determined by the buffer. -/
theorem emits_eq (following : List A) {s : Working E}
    {b : Buffer PushedUnits DictionaryEncoding} (h : s.enc = B.ofBuffer b) :
    m.emits following s =
      (Act.trace (act B.policy (sized B.item)) (session following) b).1.map
        (Except.map (List.map chunkOf)) :=
  (B.trace_eq (session following) h).1

theorem renumber_chunkOf {n n' : Nat} {g : DictionaryEncoding × List PushedUnits}
    (h : g.1.renumber n n' = g.1) : (chunkOf g).renumber n n' = chunkOf g := by
  simp only [EncodedColumnChunk.renumber, chunkOf_dictEncoding, h]
  rfl

/-- The chunks of a new buffer carry no dictionary id. -/
theorem emits_renumbered (hplain : B.Unnumbered) (following : List A) {s s' : Working E}
    (hs : s.enc = m.fresh) (hs' : s'.enc = m.fresh) (n n' : Nat) :
    List.Forall₂ (Act.Agree (Renumbered n n')) (m.emits following s) (m.emits following s') := by
  rw [B.emits_eq following (hs.trans B.fresh_eq), B.emits_eq following (hs'.trans B.fresh_eq)]
  have hlabel := label_of_fresh B.policy (sized B.item) (session following)
  generalize (Act.trace (act B.policy (sized B.item)) (session following) (fresh B.policy)).1 = xs
    at hlabel ⊢
  rw [List.forall₂_map_left_iff, List.forall₂_map_right_iff, List.forall₂_same]
  intro o ho
  cases o with
  | error f => exact .error f
  | ok groups =>
      refine .ok ?_
      show groups.map chunkOf = (groups.map chunkOf).map (EncodedColumnChunk.renumber n n')
      rw [List.map_map]
      refine List.map_congr_left fun g hg => ?_
      rcases hlabel _ ho groups rfl g hg with h | h
      · exact (renumber_chunkOf (by rw [h]; exact (hplain n n').1)).symm
      · exact (renumber_chunkOf (by rw [h]; exact (hplain n n').2)).symm

/-- A used encoder that is a new one. -/
theorem independent_of_enc_eq (hplain : B.Unnumbered) {o : Shared} {history : List (Call A)}
    (following : List A) (h : (m.used o history).enc = m.fresh) :
    m.Independent o history following where
  memory := by rw [h]
  same := by
    have he : (m.used o history).embed (fun _ => m.fresh) = m.used o history := by
      rw [← h]
      rfl
    rw [he]
  renumbered := fun _ _ _ _ => B.emits_renumbered hplain following h rfl _ _

/-- A policy that resets everything makes every history forgotten. -/
theorem independent_of_resets (hplain : B.Unnumbered) (hkeep : B.policy.keepsSize = false)
    (hlabel : B.policy.flushLabel = B.policy.cutLabel) (o : Shared) (history : List (Call A))
    (following : List A) : m.Independent o history following := by
  apply B.independent_of_enc_eq hplain
  rw [B.used_enc, B.fresh_eq]
  congr 1
  exact restarts_of_resets hkeep hlabel (sized B.item) history

/-- An encoder that keeps its total behaves as a new one after exactly those
histories whose buffer restarts. -/
theorem independent_iff_of_keeps (hplain : B.Unnumbered) (hkeep : B.policy.keepsSize = true)
    (o : Shared) (history : List (Call A)) (following : List A) :
    m.Independent o history following ↔
      Restarts B.policy (B.sizes (inputs history)) (B.sizes following) := by
  have hused := B.used_enc o history
  constructor
  · intro h
    have hsize : (B.bufferAfter history).size = 0 := by
      have hm := h.memory
      rw [hused, B.fresh_eq, B.memorySize_eq, B.memorySize_eq] at hm
      exact hm
    have hsame := h.same
    rw [B.emits_eq following hused, B.emits_eq following (s := (m.used o history).embed
      fun _ => m.fresh) B.fresh_eq] at hsame
    refine restarts_of_labels hkeep (sized B.item) history following hsize ?_
    -- the labels of the groups are those of the chunks
    have hlabels : ∀ x : Result (List (DictionaryEncoding × List PushedUnits)),
        labels x = (x.map (List.map chunkOf)).map
          (List.map EncodedColumnChunk.dictEncoding) := by
      intro x
      cases x with
      | error f => rfl
      | ok groups => simp [labels, Except.map, Function.comp_def]
    have hmap : ∀ xs : List (Result (List (DictionaryEncoding × List PushedUnits))),
        xs.map labels = (xs.map (Except.map (List.map chunkOf))).map
          (Except.map (List.map EncodedColumnChunk.dictEncoding)) := by
      intro xs
      rw [List.map_map]
      exact List.map_congr_left fun x _ => hlabels x
    rw [hmap, hmap]
    exact congrArg _ hsame
  · intro h
    obtain ⟨hsize, hsame⟩ := outcomes_of_restarts hkeep (sized B.item) history following h
    have hfresh : m.emits following (m.used o history) =
        m.emits following ((m.used o history).embed fun _ => m.fresh) := by
      rw [B.emits_eq following hused, B.emits_eq following (s := (m.used o history).embed
        fun _ => m.fresh) B.fresh_eq]
      exact congrArg _ hsame
    refine ⟨?_, hfresh, fun o' _ _ _ => ?_⟩
    · rw [hused, B.fresh_eq, B.memorySize_eq, B.memorySize_eq]
      exact hsize
    · rw [hfresh]
      exact B.emits_renumbered hplain following rfl rfl _ _

end Buffered

/-! ## Encoders that buffer arrays -/

/-- The contexts hold `n + j` and `n' + j` dictionaries, for some `j` up to `k`:
both encoders have added the same number of dictionaries. -/
def InStep (n n' k : Nat) (ctx ctx' : SharedDictionaryContext) : Prop :=
  ∃ j ≤ k, ctx.dictionaries.length = n + j ∧ ctx'.dictionaries.length = n' + j

theorem InStep.succ {n n' k : Nat} {ctx ctx' : SharedDictionaryContext} (h : InStep n n' k ctx ctx') :
    InStep n n' (k + 1) ctx ctx' := by
  obtain ⟨j, hj, h1, h2⟩ := h
  exact ⟨j, by omega, h1, h2⟩

theorem InStep.snoc {n n' k : Nat} {ctx ctx' : SharedDictionaryContext} (h : InStep n n' k ctx ctx')
    (d d' : Dictionary) : InStep n n' (k + 1) (ctx.snoc d) (ctx'.snoc d') := by
  obtain ⟨j, hj, h1, h2⟩ := h
  refine ⟨j + 1, by omega, ?_, ?_⟩
  · simp only [SharedDictionaryContext.snoc, List.length_append, List.length_singleton]
    omega
  · simp only [SharedDictionaryContext.snoc, List.length_append, List.length_singleton]
    omega

/-- The same groups under the ids the two contexts give out. -/
theorem renumbered_groups (n n' j : Nat) (groups : List (List PushedUnits)) :
    Renumbered n n' (groups.map fun g => chunkOf (.sharedDictionary (n + j), g))
      (groups.map fun g => chunkOf (.sharedDictionary (n' + j), g)) := by
  show _ = List.map _ _
  rw [List.map_map]
  refine List.map_congr_left fun g _ => ?_
  have hid : n + j - n + n' = n' + j := by omega
  simp only [Function.comp_apply, EncodedColumnChunk.renumber, chunkOf_dictEncoding,
    DictionaryEncoding.renumber, hid]
  rfl

namespace SharedDictColEncoder

variable {env : Env} {e₀ : SharedDictColEncoder}

/-- The state of an encoder between calls: some arrays are buffered. -/
def Holds (env : Env) (e₀ e : SharedDictColEncoder) : Prop := ∃ arrs, e = holding env e₀ arrs

theorem holds_encode (array : ArrayRef) {s : Working SharedDictColEncoder}
    (hs : Holds env e₀ s.enc) : Holds env e₀ (Act.left (encode env array s)).enc := by
  obtain ⟨arrs, harrs⟩ := hs
  rw [encode_run]
  split
  · exact ⟨arrs, harrs⟩
  · rw [harrs, buffering_holding]
    split
    · exact ⟨[], (encodeDictScope_left env _).1⟩
    · exact ⟨arrs ++ [array], rfl⟩

theorem finish_left {s : Working SharedDictColEncoder} (hs : Holds env e₀ s.enc) :
    (Act.left (finish env s)).enc = holding env e₀ [] := by
  obtain ⟨arrs, harrs⟩ := hs
  rw [finish_run]
  split
  · next hnil =>
      have harrs' : arrs = [] := by simpa [harrs, holding] using hnil
      show s.enc = _
      rw [harrs, harrs']
  · rw [(encodeDictScope_left env s).1, harrs]
    rfl

/-- Two encoders with the same buffer, in contexts that are in step. -/
structure Parallel (env : Env) (e₀ : SharedDictColEncoder) (n n' k : Nat)
    (s t : Working SharedDictColEncoder) : Prop where
  enc : t.enc = s.enc
  holds : Holds env e₀ s.enc
  inStep : InStep n n' k s.ctx t.ctx

theorem parallel_scope {n n' k : Nat} (hnone : e₀.submittedDictIdx = none)
    (hn : n + k < 2 ^ 32) (hn' : n' + k < 2 ^ 32) {s t : Working SharedDictColEncoder}
    (h : Parallel env e₀ n n' k s t) :
    Act.Simulates (Parallel env e₀ n n' (k + 1)) (Renumbered n n') (encodeDictScope env s)
      (encodeDictScope env t) := by
  obtain ⟨j, hj, hlen, hlen'⟩ := h.inStep
  obtain ⟨arrs, harrs⟩ := h.holds
  have hnone_s : s.enc.submittedDictIdx = none := by rw [harrs]; exact hnone
  have hs := encodeDictScope_spec env s hnone_s (by omega)
  have ht := encodeDictScope_spec env t (by rw [h.enc]; exact hnone_s) (by omega)
  have hempty : s.enc.emptied = holding env e₀ [] := by rw [harrs]; rfl
  rw [h.enc] at ht
  cases hr : (newScope s.enc.bufferedArrays >>= fun d =>
      scopeItems env s.enc.wasmContext s.enc.compressionType d s.enc.bufferedArrays) with
  | ok r =>
      rw [hr] at hs ht
      obtain ⟨c, hc⟩ := hs
      obtain ⟨c', hc'⟩ := ht
      rw [hc, hc']
      refine ⟨.ok ?_, rfl, ⟨[], hempty⟩, h.inStep.snoc r.1 r.1⟩
      rw [hlen, hlen']
      exact renumbered_groups n n' j _
  | error f =>
      rw [hr] at hs ht
      obtain ⟨c, ctx, hc, hctx⟩ := hs
      obtain ⟨c', ctx', hc', hctx'⟩ := ht
      rw [hc, hc']
      refine ⟨.error f, rfl, ⟨[], hempty⟩, ?_⟩
      -- the dictionary of a scope that fails after it was made stays in the context
      rcases hctx with ⟨hnew, hctx⟩ | ⟨d₀, d, hnew, hctx⟩
      · rcases hctx' with ⟨-, hctx'⟩ | ⟨d₀', d', hnew', hctx'⟩
        · rw [hctx, hctx']
          exact h.inStep.succ
        · rw [hnew] at hnew'
          cases hnew'
      · rcases hctx' with ⟨hnew', hctx'⟩ | ⟨d₀', d', hnew', hctx'⟩
        · rw [hnew] at hnew'
          cases hnew'
        · rw [hctx, hctx']
          exact h.inStep.snoc d d'

theorem parallel_call {n n' k : Nat} (hnone : e₀.submittedDictIdx = none)
    (hn : n + k < 2 ^ 32) (hn' : n' + k < 2 ^ 32) {s t : Working SharedDictColEncoder}
    (h : Parallel env e₀ n n' k s t) (fixedDictScope columnChunkSize : Nat)
    (w : WASMWritingContext) (compressionType : CompressionType) (c : Call ArrayRef) :
    Act.Simulates (Parallel env e₀ n n' (k + 1)) (Renumbered n n')
      ((colEncoder env fixedDictScope columnChunkSize w compressionType).call c s)
      ((colEncoder env fixedDictScope columnChunkSize w compressionType).call c t) := by
  cases c with
  | encode array =>
      show Act.Simulates _ _ (encode env array s) (encode env array t)
      rw [encode_run, encode_run, h.enc]
      by_cases hmis : (s.enc.bufferedArrays.head?.any fun a =>
          decide (a.dataType ≠ array.dataType)) = true
      · simp only [if_pos hmis]
        exact ⟨.error _, h.enc, h.holds, h.inStep.succ⟩
      · simp only [if_neg hmis]
        obtain ⟨arrs, harrs⟩ := h.holds
        have hnext : Parallel env e₀ n n' k
            { s with enc := holding env e₀ (arrs ++ [array]) }
            { t with enc := holding env e₀ (arrs ++ [array]) } :=
          ⟨rfl, ⟨arrs ++ [array], rfl⟩, h.inStep⟩
        simp only [harrs, buffering_holding]
        by_cases hfull : (holding env e₀ arrs).bufferedArrayLen + array.len ≥
            (holding env e₀ arrs).fixedDictScope
        · simp only [if_pos hfull]
          exact parallel_scope hnone hn hn' hnext
        · simp only [if_neg hfull]
          exact ⟨.ok rfl, hnext.enc, hnext.holds, hnext.inStep.succ⟩
  | finish =>
      show Act.Simulates _ _ (finish env s) (finish env t)
      rw [finish_run, finish_run, h.enc]
      by_cases hnil : s.enc.bufferedArrays.isEmpty = true
      · simp only [if_pos hnil]
        exact ⟨.ok rfl, h.enc, h.holds, h.inStep.succ⟩
      · simp only [if_neg hnil]
        exact parallel_scope hnone hn hn' h

/-- Every history of a `SharedDictColEncoder` is forgotten. -/
theorem independent (env : Env) (fixedDictScope columnChunkSize : Nat) (w : WASMWritingContext)
    (compressionType : CompressionType) (o : Shared) (history : List (Call ArrayRef))
    (following : List ArrayRef) :
    (colEncoder env fixedDictScope columnChunkSize w compressionType).Independent o history
      following := by
  have hholds : ∀ c (s : Working SharedDictColEncoder),
      Holds env (new fixedDictScope columnChunkSize w compressionType) s.enc →
      Holds env (new fixedDictScope columnChunkSize w compressionType)
        (Act.left ((colEncoder env fixedDictScope columnChunkSize w compressionType).call c s)).enc := by
    intro c s hs
    cases c with
    | encode array => exact holds_encode array hs
    | finish => exact ⟨[], finish_left hs⟩
  have henc : ((colEncoder env fixedDictScope columnChunkSize w compressionType).used o
      history).enc = new fixedDictScope columnChunkSize w compressionType := by
    unfold ColEncoder.used
    rw [Act.trace_append]
    refine finish_left (Act.trace_invariant _
      (fun s : Working SharedDictColEncoder =>
        Holds env (new fixedDictScope columnChunkSize w compressionType) s.enc) hholds history ?_)
    exact ⟨[], rfl⟩
  refine ⟨by rw [henc]; rfl, ?_, ?_⟩
  · have hembed : ((colEncoder env fixedDictScope columnChunkSize w compressionType).used o
        history).embed (fun _ => new fixedDictScope columnChunkSize w compressionType) =
        (colEncoder env fixedDictScope columnChunkSize w compressionType).used o history := by
      rw [← henc]
      rfl
    exact congrArg _ hembed.symm
  · intro o' _ hfit hfit'
    have hlen : (session following).length = following.length + 1 := by simp [session]
    refine (Act.trace_simulates _ _ (Parallel env
      (new fixedDictScope columnChunkSize w compressionType) _ _) _ (session following) 0 _ _
      (fun k c s t _ _ hk hR => parallel_call rfl (by omega) (by omega) hR fixedDictScope
        columnChunkSize w compressionType c) ?_).1
    exact ⟨henc.symm, ⟨[], henc⟩, 0, Nat.le_refl 0, rfl, rfl⟩

end SharedDictColEncoder

namespace GLBestEncoder

variable {env : Env} {e₀ : GLBestEncoder}

/-- The state of an encoder between calls: some arrays are buffered. -/
def Holds (env : Env) (e₀ e : GLBestEncoder) : Prop := ∃ arrs, e = holding env e₀ arrs

/-- The encoder, the context and the generator a choice leaves. -/
theorem Choice.Ends.left {c : Choice} {e : GLBestEncoder} {ctx : SharedDictionaryContext}
    {rng : Nat} {x : EStateM.Result Fault (Working GLBestEncoder) (List EncodedColumnChunk)}
    (h : c.Ends e ctx rng x) : (Act.left x).enc = e := by
  cases c with
  | localChunks chunks =>
      obtain ⟨_, rfl⟩ := h
      rfl
  | globalChunks d groups =>
      obtain ⟨_, rfl⟩ := h
      rfl
  | failed f added =>
      cases added with
      | none =>
          obtain ⟨_, rfl⟩ := h
          rfl
      | some d =>
          obtain ⟨_, rfl⟩ := h
          rfl

theorem holds_encode (array : ArrayRef) {s : Working GLBestEncoder}
    (hs : Holds env e₀ s.enc) : Holds env e₀ (Act.left (encode env array s)).enc := by
  obtain ⟨arrs, harrs⟩ := hs
  rw [encode_run]
  split
  · exact ⟨arrs, harrs⟩
  · refine ⟨arrs ++ [array], ?_⟩
    rw [harrs, buffering_holding]
    rfl

theorem finish_left {s : Working GLBestEncoder} (hs : Holds env e₀ s.enc) :
    (Act.left (finish env s)).enc = holding env e₀ [] := by
  obtain ⟨arrs, harrs⟩ := hs
  cases hnil : s.enc.bufferedArrays with
  | nil =>
      rw [finish_nil env s hnil]
      have harrs' : arrs = [] := by simpa [harrs, holding] using hnil
      show s.enc = _
      rw [harrs, harrs']
  | cons first rest =>
      obtain ⟨c, rng', -, hends⟩ := finish_spec env s.enc s.rng (by rw [hnil]; simp)
      rw [(hends s.counter s.ctx).left, harrs]
      rfl

/-- Two encoders with the same buffer and generator, in contexts that are in step. -/
structure Parallel (env : Env) (e₀ : GLBestEncoder) (n n' k : Nat)
    (s t : Working GLBestEncoder) : Prop where
  enc : t.enc = s.enc
  rng : t.rng = s.rng
  holds : Holds env e₀ s.enc
  inStep : InStep n n' k s.ctx t.ctx

/-- The chunks of a choice of local dictionaries carry no dictionary id. -/
theorem renumbered_local {e : GLBestEncoder} {arrs : List ArrayRef}
    {chunks : List EncodedColumnChunk} (h : (Choice.localChunks chunks).Of env e arrs)
    (n n' : Nat) : Renumbered n n' chunks chunks := by
  obtain ⟨counter, hc⟩ := h
  obtain ⟨items, groups, -, rfl, -, hnone⟩ := encodeToLocalChunks_ok hc
  show _ = List.map _ _
  rw [List.map_map]
  refine List.map_congr_left fun g hg => ?_
  exact (Buffered.renumber_chunkOf (by rw [hnone g hg]; rfl)).symm

theorem parallel_call {n n' k : Nat} (hn : n + k < 2 ^ 32) (hn' : n' + k < 2 ^ 32)
    {s t : Working GLBestEncoder} (h : Parallel env e₀ n n' k s t)
    (sampleSize : Option (Float × Nat)) (columnChunkSize : Nat) (w : WASMWritingContext)
    (compressionType : CompressionType) (c : Call ArrayRef) :
    Act.Simulates (Parallel env e₀ n n' (k + 1)) (Renumbered n n')
      ((colEncoder env sampleSize columnChunkSize w compressionType).call c s)
      ((colEncoder env sampleSize columnChunkSize w compressionType).call c t) := by
  obtain ⟨arrs, harrs⟩ := h.holds
  cases c with
  | encode array =>
      show Act.Simulates _ _ (encode env array s) (encode env array t)
      rw [encode_run, encode_run, h.enc]
      by_cases hmis : (s.enc.bufferedArrays.head?.any fun a =>
          decide (a.dataType ≠ array.dataType)) = true
      · simp only [if_pos hmis]
        exact ⟨.error _, h.enc, h.rng, h.holds, h.inStep.succ⟩
      · simp only [if_neg hmis]
        refine ⟨.ok rfl, rfl, h.rng, ⟨arrs ++ [array], ?_⟩, h.inStep.succ⟩
        show s.enc.buffering env array = _
        rw [harrs, buffering_holding]
  | finish =>
      show Act.Simulates _ _ (finish env s) (finish env t)
      cases hnil : s.enc.bufferedArrays with
      | nil =>
          rw [finish_nil env s hnil, finish_nil env t (by rw [h.enc]; exact hnil)]
          exact ⟨.ok rfl, h.enc, h.rng, h.holds, h.inStep.succ⟩
      | cons first rest =>
          obtain ⟨c, rng', hof, hends⟩ := finish_spec env s.enc s.rng (by rw [hnil]; simp)
          have ht : c.Ends s.enc.emptied t.ctx rng' (finish env t) := by
            have h' := hends t.counter t.ctx
            rw [← h.enc, ← h.rng] at h'
            rw [← h.enc]
            exact h'
          have hs : c.Ends s.enc.emptied s.ctx rng' (finish env s) := hends s.counter s.ctx
          have hempty : s.enc.emptied = holding env e₀ [] := by rw [harrs]; rfl
          obtain ⟨j, hj, hlen, hlen'⟩ := h.inStep
          cases c with
          | localChunks chunks =>
              obtain ⟨c₁, hc₁⟩ := hs
              obtain ⟨c₂, hc₂⟩ := ht
              rw [hc₁, hc₂]
              exact ⟨.ok (renumbered_local hof n n'), rfl, rfl, ⟨[], hempty⟩, h.inStep.succ⟩
          | globalChunks d groups =>
              obtain ⟨c₁, hc₁⟩ := hs
              obtain ⟨c₂, hc₂⟩ := ht
              rw [hc₁, hc₂]
              refine ⟨.ok ?_, rfl, rfl, ⟨[], hempty⟩, h.inStep.snoc d d⟩
              have hid : s.ctx.peekDictId = n + j := by
                rw [SharedDictionaryContext.peekDictId, hlen, u32_of_lt (by omega)]
              have hid' : t.ctx.peekDictId = n' + j := by
                rw [SharedDictionaryContext.peekDictId, hlen', u32_of_lt (by omega)]
              rw [hid, hid']
              exact renumbered_groups n n' j groups
          | failed f added =>
              cases added with
              | none =>
                  obtain ⟨c₁, hc₁⟩ := hs
                  obtain ⟨c₂, hc₂⟩ := ht
                  rw [hc₁, hc₂]
                  exact ⟨.error f, rfl, rfl, ⟨[], hempty⟩, h.inStep.succ⟩
              | some d =>
                  obtain ⟨c₁, hc₁⟩ := hs
                  obtain ⟨c₂, hc₂⟩ := ht
                  rw [hc₁, hc₂]
                  exact ⟨.error f, rfl, rfl, ⟨[], hempty⟩, h.inStep.snoc d d⟩

/-- Every history of a `GLBestEncoder` is forgotten. -/
theorem independent (env : Env) (sampleSize : Option (Float × Nat)) (columnChunkSize : Nat)
    (w : WASMWritingContext) (compressionType : CompressionType) (o : Shared)
    (history : List (Call ArrayRef)) (following : List ArrayRef) :
    (colEncoder env sampleSize columnChunkSize w compressionType).Independent o history
      following := by
  have hholds : ∀ c (s : Working GLBestEncoder),
      Holds env (new sampleSize columnChunkSize w compressionType) s.enc →
      Holds env (new sampleSize columnChunkSize w compressionType)
        (Act.left ((colEncoder env sampleSize columnChunkSize w compressionType).call c s)).enc := by
    intro c s hs
    cases c with
    | encode array => exact holds_encode array hs
    | finish => exact ⟨[], finish_left hs⟩
  have henc : ((colEncoder env sampleSize columnChunkSize w compressionType).used o
      history).enc = new sampleSize columnChunkSize w compressionType := by
    unfold ColEncoder.used
    rw [Act.trace_append]
    refine finish_left (Act.trace_invariant _
      (fun s : Working GLBestEncoder =>
        Holds env (new sampleSize columnChunkSize w compressionType) s.enc) hholds history ?_)
    exact ⟨[], rfl⟩
  refine ⟨by rw [henc]; rfl, ?_, ?_⟩
  · have hembed : ((colEncoder env sampleSize columnChunkSize w compressionType).used o
        history).embed (fun _ => new sampleSize columnChunkSize w compressionType) =
        (colEncoder env sampleSize columnChunkSize w compressionType).used o history := by
      rw [← henc]
      rfl
    exact congrArg _ hembed.symm
  · intro o' hrng hfit hfit'
    have hlen : (session following).length = following.length + 1 := by simp [session]
    refine (Act.trace_simulates _ _ (Parallel env
      (new sampleSize columnChunkSize w compressionType) _ _) _ (session following) 0 _ _
      (fun k c s t _ _ hk hR => parallel_call (by omega) (by omega) hR sampleSize
        columnChunkSize w compressionType c) ?_).1
    exact ⟨henc.symm, hrng, ⟨[], henc⟩, 0, Nat.le_refl 0, rfl, rfl⟩

end GLBestEncoder

/-! ## All encoders -/

theorem EncoderDictColEncoder.independent (env : Env) (columnChunkSize : Nat)
    (w : WASMWritingContext) (enableDict : Bool) (compressionType : CompressionType) (o : Shared)
    (history : List (Call ArrayRef)) (following : List ArrayRef) :
    (colEncoder env columnChunkSize w enableDict compressionType).Independent o history following :=
  (buffered env columnChunkSize w enableDict compressionType).independent_of_resets
    (fun _ _ => ⟨rfl, rfl⟩) rfl rfl o history following

/-- The bytes of the units each array adds, in the order of the calls; an array
that cannot be encoded adds none. -/
def DictColEncoder.unitSizes (env : Env) (w : WASMWritingContext)
    (compressionType : CompressionType) (arrs : List ArrayRef) : List Nat :=
  Cutting.sizes (sized (item env w compressionType)) arrs

/-- The same for `ListOfStructColEncoder`. -/
def ListOfStructColEncoder.unitSizes (env : Env) (w : WASMWritingContext)
    (compressionType : CompressionType) (arrs : List (ArrayRef × ArrayRef)) : List Nat :=
  Cutting.sizes (sized (item env w compressionType)) arrs

/-- When a used encoder behaves as a new one. Three encoders always do. The
other two do exactly when the bytes they encoded since a chunk was last cut by
size, which `finish` does not forget, are zero; for `DictColEncoder`, nothing may
have been encoded since, or nothing may follow, as its label is lost too. -/
theorem independent_iff (env : Env) (w : WASMWritingContext) (columnChunkSize : Nat)
    (compressionType : CompressionType) (o : Shared) :
    (∀ enableDict history following,
      (EncoderDictColEncoder.colEncoder env columnChunkSize w enableDict
        compressionType).Independent o history following) ∧
    (∀ fixedDictScope history following,
      (SharedDictColEncoder.colEncoder env fixedDictScope columnChunkSize w
        compressionType).Independent o history following) ∧
    (∀ sampleSize history following,
      (GLBestEncoder.colEncoder env sampleSize columnChunkSize w
        compressionType).Independent o history following) ∧
    (∀ history following,
      (DictColEncoder.colEncoder env columnChunkSize w compressionType).Independent o history
          following ↔
        (sinceCut columnChunkSize
            (DictColEncoder.unitSizes env w compressionType (inputs history))).sum = 0 ∧
          (sinceCut columnChunkSize
              (DictColEncoder.unitSizes env w compressionType (inputs history)) = [] ∨
            DictColEncoder.unitSizes env w compressionType following = [])) ∧
    (∀ history following,
      (ListOfStructColEncoder.colEncoder env columnChunkSize w compressionType).Independent o
          history following ↔
        (sinceCut columnChunkSize
          (ListOfStructColEncoder.unitSizes env w compressionType (inputs history))).sum = 0) := by
  refine ⟨fun enableDict history following => ?_, fun scope history following => ?_,
    fun sample history following => ?_, fun history following => ?_, fun history following => ?_⟩
  · exact EncoderDictColEncoder.independent env columnChunkSize w enableDict compressionType o
      history following
  · exact SharedDictColEncoder.independent env scope columnChunkSize w compressionType o history
      following
  · exact GLBestEncoder.independent env sample columnChunkSize w compressionType o history following
  · have h := (DictColEncoder.buffered env columnChunkSize w
      compressionType).independent_iff_of_keeps (fun _ _ => ⟨rfl, rfl⟩) rfl o history following
    rw [h]
    constructor
    · rintro ⟨hsum, hcut | hlabel | hnone⟩
      · exact ⟨hsum, .inl hcut⟩
      · cases hlabel
      · exact ⟨hsum, .inr hnone⟩
    · rintro ⟨hsum, hcut | hnone⟩
      · exact ⟨hsum, .inl hcut⟩
      · exact ⟨hsum, .inr (.inr hnone)⟩
  · have h := (ListOfStructColEncoder.buffered env columnChunkSize w
      compressionType).independent_iff_of_keeps (fun _ _ => ⟨rfl, rfl⟩) rfl o history following
    rw [h]
    constructor
    · exact fun h => h.1
    · exact fun h => ⟨h, .inr (.inl rfl)⟩

/-- After one array and a `finish`, a `DictColEncoder` still reports the bytes it
has given away, and the next chunk is labelled as one without a dictionary. -/
theorem dictColEncoder_not_independent :
    ¬ (DictColEncoder.colEncoder Sample.env 1000 .empty .uncompressed).Independent Sample.shared
      [.encode Sample.seven] [Sample.seven] := by
  intro h
  have hmemory : (DictColEncoder.colEncoder Sample.env 1000 .empty .uncompressed).memorySize
      ((DictColEncoder.colEncoder Sample.env 1000 .empty .uncompressed).used Sample.shared
        [.encode Sample.seven]).enc ≠ 0 := by decide
  exact hmemory h.memory

end F3Format
