import F3Format.SharingStatistics

/-!
# Encoding counters

Every field has a counter of the bytes its encoders emit. All encoders add to it
but `GLBestEncoder`, whose `finish` starts it anew unless it takes the global
dictionary on sampled estimates. So the counters of a file account for every byte
of its chunks if and only if no count is lost that way
(`counters_account_iff`).
-/

set_option autoImplicit false

namespace F3Format

open Lib Lib.Cutting PushedUnits FileWriter

/-! ## Bytes in chunks -/

/-- The bytes an encoder has in a chunk that it has not returned. -/
def PhysicalColEncoder.held : PhysicalColEncoder → Nat
  | encoderDict e => e.accumulatedChunk.bytes.length
  | dict e => e.accumulatedChunk.bytes.length
  | sharedDict _ => 0
  | glBest _ => 0

/-- A call from `s` to `t` adds the bytes of the chunks it returns to the counter,
and those it keeps, but for `lost` bytes that were counted before. -/
def Accounts {E : Type} (held : E → Nat) (s t : Working E) (chunks : List EncodedColumnChunk)
    (lost : Nat) : Prop :=
  t.counter.totalSize + lost + held s.enc =
    s.counter.totalSize + held t.enc + (chunkBytes chunks).length

/-- An encoder that holds no bytes. -/
theorem accounts_unheld {E : Type} {s t : Working E} {chunks : List EncodedColumnChunk}
    {lost : Nat} : Accounts (fun _ => 0) s t chunks lost ↔
      t.counter.totalSize + lost = s.counter.totalSize + (chunkBytes chunks).length := Iff.rfl

theorem length_chunkBytes_append (cs ds : List EncodedColumnChunk) :
    (chunkBytes (cs ++ ds)).length = (chunkBytes cs).length + (chunkBytes ds).length := by
  simp [chunkBytes]

theorem length_chunkBytes_singleton (c : EncodedColumnChunk) :
    (chunkBytes [c]).length = c.bytes.length := by
  simp [chunkBytes]

theorem length_bytes_push (c : EncodedColumnChunk) (u : SerializedEncUnit) (rows : Nat) :
    (c.push u rows).bytes.length = c.bytes.length + u.bytes.length := by
  simp [EncodedColumnChunk.bytes, EncodedColumnChunk.push]

theorem bytes_eq_nil {c : EncodedColumnChunk} (h : c.encunits.isEmpty = true) : c.bytes = [] := by
  rw [EncodedColumnChunk.bytes, List.isEmpty_iff.1 h]
  rfl

theorem length_bytes_chunkOf (l : DictionaryEncoding) (g : List PushedUnits) :
    (chunkOf (l, g)).bytes.length = (g.map PushedUnits.size).sum := by
  induction g with
  | nil => rfl
  | cons q qs ih =>
      have hcons : (chunkOf (l, q :: qs)).bytes =
          (chunkOf (l, [q])).bytes ++ (chunkOf (l, qs)).bytes := by
        simp [EncodedColumnChunk.bytes, chunkOf]
      rw [hcons, List.length_append, ih]
      simp [EncodedColumnChunk.bytes, chunkOf, PushedUnits.size]
      rfl

/-! ## Units on a chunk -/

namespace EncoderDictColEncoder

variable {env : Env} {s t : Working EncoderDictColEncoder} {chunks : List EncodedColumnChunk}

theorem encode_accounts {array : ArrayRef} (h : encode env array s = .ok chunks t) :
    Accounts (fun e => e.accumulatedChunk.bytes.length) s t chunks 0 := by
  rw [encode_run] at h
  split at h
  · cases h
  · next unit hunit =>
      split at h
      · cases h
        show s.counter.dictSize + (s.counter.indexSize + unit.bytes.length) + 0 +
          s.enc.accumulatedChunk.bytes.length = s.counter.dictSize + s.counter.indexSize + 0 +
            (chunkBytes [s.enc.accumulatedChunk.push unit array.len]).length
        rw [length_chunkBytes_singleton, length_bytes_push]
        omega
      · cases h
        show s.counter.dictSize + (s.counter.indexSize + unit.bytes.length) + 0 +
          s.enc.accumulatedChunk.bytes.length = s.counter.dictSize + s.counter.indexSize +
            (s.enc.accumulatedChunk.push unit array.len).bytes.length + 0
        rw [length_bytes_push]
        omega

theorem finish_accounts (h : finish s = .ok chunks t) :
    Accounts (fun e => e.accumulatedChunk.bytes.length) s t chunks 0 ∧
      t.enc.accumulatedChunk.bytes.length = 0 := by
  rw [finish_run] at h
  split at h
  · next hempty =>
      cases h
      exact ⟨rfl, by rw [bytes_eq_nil hempty]; rfl⟩
  · cases h
    refine ⟨?_, rfl⟩
    unfold Accounts
    rw [length_chunkBytes_singleton]
    rfl

end EncoderDictColEncoder

namespace DictColEncoder

variable {env : Env} {s t : Working DictColEncoder} {chunks : List EncodedColumnChunk}

theorem encode_accounts {array : ArrayRef} (h : encode env array s = .ok chunks t) :
    Accounts (fun e => e.accumulatedChunk.bytes.length) s t chunks 0 := by
  rw [encode_run] at h
  split at h
  · cases h
  · next dictUnit indexUnit rows hunits =>
      dsimp only at h
      split at h
      · cases h
        show s.counter.dictSize + dictUnit.bytes.length +
          (s.counter.indexSize + indexUnit.bytes.length) + 0 +
            s.enc.accumulatedChunk.bytes.length = s.counter.dictSize + s.counter.indexSize + 0 +
              (chunkBytes [(s.enc.accumulatedChunk.push dictUnit 0).push indexUnit rows]).length
        rw [length_chunkBytes_singleton, length_bytes_push, length_bytes_push]
        omega
      · cases h
        show s.counter.dictSize + dictUnit.bytes.length +
          (s.counter.indexSize + indexUnit.bytes.length) + 0 +
            s.enc.accumulatedChunk.bytes.length = s.counter.dictSize + s.counter.indexSize +
              ((s.enc.accumulatedChunk.push dictUnit 0).push indexUnit rows).bytes.length + 0
        rw [length_bytes_push, length_bytes_push]
        omega

theorem finish_accounts (h : finish s = .ok chunks t) :
    Accounts (fun e => e.accumulatedChunk.bytes.length) s t chunks 0 ∧
      t.enc.accumulatedChunk.bytes.length = 0 := by
  rw [finish_run] at h
  split at h
  · next hempty =>
      cases h
      exact ⟨rfl, by rw [bytes_eq_nil hempty]; rfl⟩
  · cases h
    refine ⟨?_, rfl⟩
    unfold Accounts
    rw [length_chunkBytes_singleton]
    rfl

end DictColEncoder

/-! ## Index units -/

section IndexUnits

variable {env : Env} {w : WASMWritingContext} {compressionType : CompressionType}

/-- An item of the loop over index arrays has the size of its units. -/
theorem size_of_indexItems {arrs : List ArrayRef} {items : List (PushedUnits × Nat)}
    (h : indexItems env w compressionType arrs = .ok items) : ∀ q ∈ items, q.2 = q.1.size := by
  intro q hq
  obtain ⟨arr, -, harr⟩ := exists_of_mem_collect h hq
  have hitem := sized_eq_ok harr
  rw [sized_of_ok hitem, Except.ok.injEq] at harr
  exact (congrArg Prod.snd harr).symm

/-- The chunks of the loop have the bytes it counts. -/
theorem encodeSharedToChunks_accounts {columnChunkSize : Nat} {arrs : List ArrayRef}
    {dictIdx : Option Nat} {counter counter' : EncodingCounter} {chunks : List EncodedColumnChunk}
    (h : encodeSharedToChunks env w compressionType columnChunkSize arrs dictIdx counter =
      .ok chunks counter') : ∃ n, counter' = countUnits dictIdx.isSome n counter ∧
        (chunkBytes chunks).length = n := by
  have hspec := encodeSharedToChunks_spec env w compressionType columnChunkSize dictIdx arrs counter
  cases hitems : indexItems env w compressionType arrs with
  | error f =>
      rw [hitems] at hspec
      obtain ⟨c, hc⟩ := hspec
      rw [hc] at h
      cases h
  | ok items =>
      rw [hitems] at hspec
      dsimp only at hspec
      rw [hspec] at h
      cases h
      refine ⟨_, rfl, ?_⟩
      have hsum := sum_cutAll PushedUnits.size
        (if dictIdx.isSome then some columnChunkSize else none) items [] 0
        (size_of_indexItems hitems) rfl
      have hlen : ∀ gs : List (List PushedUnits),
          (chunkBytes (gs.map fun g => chunkOf (sharedLabel dictIdx, g))).length =
            (gs.map fun g => (g.map PushedUnits.size).sum).sum := by
        intro gs
        rw [chunkBytes, List.length_flatten, List.map_map, List.map_map]
        exact congrArg List.sum (List.map_congr_left fun g _ => length_bytes_chunkOf _ g)
      exact (hlen _).trans (hsum.trans (Nat.zero_add _))

end IndexUnits

theorem totalSize_countUnits (isIndex : Bool) (n : Nat) (counter : EncodingCounter) :
    (countUnits isIndex n counter).totalSize = counter.totalSize + n := by
  cases isIndex
  · simp only [countUnits, EncodingCounter.totalSize, Bool.false_eq_true, if_false]
    omega
  · simp only [countUnits, EncodingCounter.totalSize, if_true]
    omega

/-! ## Shared dictionaries -/

namespace SharedDictColEncoder

variable {env : Env} {s t : Working SharedDictColEncoder} {chunks : List EncodedColumnChunk}

theorem keeps_counter_extendAll (idx : Nat) (arrs : List ArrayRef) :
    Act.Keeps Working.counter (extendAll idx arrs) := by
  induction arrs with
  | nil => exact Act.keeps_pure _
  | cons arr arrs ih =>
      intro s
      rw [extendAll, Act.get_bind]
      cases s.ctx.extendAndGetIndex idx arr with
      | error f => rfl
      | ok r =>
          rw [Act.lift_ok_bind]
          dsimp only
          rw [Act.set_bind]
          exact Act.keeps_bind ih (fun _ => Act.keeps_pure _) _

theorem keeps_counter_scopeDictIdx (e : SharedDictColEncoder) :
    Act.Keeps Working.counter (scopeDictIdx e) := by
  unfold scopeDictIdx
  split
  · exact Act.keeps_pure _
  · refine Act.keeps_bind (Act.keeps_lift _) fun first s => ?_
    rw [newDictionary, Act.get_bind]
    cases s.ctx.newDictionary first.dataType with
    | error f => rfl
    | ok r => rfl

/-- Both parts of a scope in which the counter changes are the loop over the index arrays. -/
theorem encodeDictScope_accounts (h : encodeDictScope env s = .ok chunks t) :
    Accounts (fun _ => 0) s t chunks 0 := by
  rw [encodeDictScope, Act.get_bind, Act.set_bind] at h
  obtain ⟨idx, s₁, hidx, h⟩ := (Act.returns_bind _ _ _ _ _).1 h
  have hs₁ := keeps_counter_scopeDictIdx s.enc
    { s with enc := { s.enc with
      bufferedArrays := [], bufferedArrayLen := 0, bufferedArrayMemSize := 0 } }
  rw [hidx] at hs₁
  obtain ⟨indices, s₂, hindices, h⟩ := (Act.returns_bind _ _ _ _ _).1 h
  have hs₂ := keeps_counter_extendAll idx s.enc.bufferedArrays s₁
  rw [hindices] at hs₂
  obtain ⟨s₃, s₄, hget, h⟩ := (Act.returns_bind _ _ _ _ _).1 h
  obtain ⟨rfl, rfl⟩ := (Act.returns_get _ _ _).1 hget
  obtain ⟨dictLen, s₅, hlift, h⟩ := (Act.returns_bind _ _ _ _ _).1 h
  obtain ⟨-, rfl⟩ := (Act.returns_lift _ _ _ _).1 hlift
  have hrun : onCounter _ s₂ = .ok chunks t := h
  rw [onCounter_run] at hrun
  split at hrun
  · next chunks' counter hencode =>
      cases hrun
      obtain ⟨n, hcounter, hlen⟩ := encodeSharedToChunks_accounts hencode
      have hstart : s₂.counter = s.counter := hs₂.trans hs₁
      show counter.totalSize + 0 + 0 = s.counter.totalSize + 0 + (chunkBytes chunks).length
      rw [hcounter, totalSize_countUnits, hlen, hstart]
      omega
  · cases hrun

theorem encode_accounts {array : ArrayRef} (h : encode env array s = .ok chunks t) :
    Accounts (fun _ => 0) s t chunks 0 := by
  rw [encode_run] at h
  split at h
  · cases h
  · split at h
    · have hscope := encodeDictScope_accounts h
      exact hscope
    · cases h
      rfl

theorem finish_accounts (h : finish env s = .ok chunks t) :
    Accounts (fun _ => 0) s t chunks 0 := by
  rw [finish_run] at h
  split at h
  · cases h
    rfl
  · exact encodeDictScope_accounts h

end SharedDictColEncoder

/-! ## Global or local dictionaries -/

namespace GLBestEncoder

variable {env : Env}

theorem localLoop_accounts : ∀ {arrs : List ArrayRef} {s t : Working EncoderDictColEncoder}
    {chunks : List EncodedColumnChunk}, localLoop env arrs s = .ok chunks t →
      Accounts (fun e => e.accumulatedChunk.bytes.length) s t chunks 0 ∧
        t.enc.accumulatedChunk.bytes.length = 0
  | [], _, _, _, h => EncoderDictColEncoder.finish_accounts h
  | arr :: arrs, s, t, chunks, h => by
      rw [localLoop] at h
      obtain ⟨first, s₁, hfirst, h⟩ := (Act.returns_bind _ _ _ _ _).1 h
      obtain ⟨rest, s₂, hrest, h⟩ := (Act.returns_bind _ _ _ _ _).1 h
      obtain ⟨rfl, rfl⟩ := (Act.returns_pure _ _ _ _).1 h
      have hone := EncoderDictColEncoder.encode_accounts hfirst
      obtain ⟨hmore, hempty⟩ := localLoop_accounts hrest
      refine ⟨?_, hempty⟩
      unfold Accounts at hone hmore ⊢
      rw [length_chunkBytes_append]
      omega

/-- The counter of the local chunks is their size. -/
theorem encodeToLocalChunks_accounts {e : GLBestEncoder} {arrs : List ArrayRef}
    {counter : EncodingCounter} {chunks : List EncodedColumnChunk}
    (h : encodeToLocalChunks env e arrs = .ok (counter, chunks)) :
    counter.totalSize = (chunkBytes chunks).length := by
  unfold encodeToLocalChunks at h
  dsimp only at h
  split at h
  · next chunks' s hloop =>
      cases h
      obtain ⟨hcount, hempty⟩ := localLoop_accounts hloop
      have hcount' : s.counter.totalSize + 0 + 0 =
          0 + s.enc.accumulatedChunk.bytes.length + (chunkBytes chunks).length := hcount
      omega
  · cases h

theorem encodeShared_accounts {e : GLBestEncoder} {arrs : List ArrayRef}
    {counter counter' : EncodingCounter} {dictIdx : Option Nat} {chunks : List EncodedColumnChunk}
    (h : encodeShared env e arrs counter dictIdx = .ok (counter', chunks)) :
    ∃ n, counter' = countUnits dictIdx.isSome n counter ∧ (chunkBytes chunks).length = n := by
  unfold encodeShared at h
  split at h
  · next chunks' c hencode =>
      cases h
      exact encodeSharedToChunks_accounts hencode
  · cases h

variable {s t : Working GLBestEncoder} {chunks : List EncodedColumnChunk}

theorem finishCompared_accounts {e : GLBestEncoder} {arrs indices : List ArrayRef}
    {d : Dictionary} (h : finishCompared env e arrs d indices s = .ok chunks t) :
    t.counter.totalSize = (chunkBytes chunks).length := by
  unfold finishCompared at h
  obtain ⟨⟨localCounter, localChunks⟩, s₁, hlift, h⟩ := (Act.returns_bind _ _ _ _ _).1 h
  obtain ⟨hlocal, rfl⟩ := (Act.returns_lift _ _ _ _).1 hlift
  obtain ⟨v, s₂, hget, h⟩ := (Act.returns_bind _ _ _ _ _).1 h
  obtain ⟨rfl, rfl⟩ := (Act.returns_get _ _ _).1 hget
  obtain ⟨⟨indexCounter, indexChunks⟩, s₂, hlift, h⟩ := (Act.returns_bind _ _ _ _ _).1 h
  obtain ⟨hindex, rfl⟩ := (Act.returns_lift _ _ _ _).1 hlift
  obtain ⟨⟨globalCounter, dictChunks⟩, s₂, hlift, h⟩ := (Act.returns_bind _ _ _ _ _).1 h
  obtain ⟨hdict, rfl⟩ := (Act.returns_lift _ _ _ _).1 hlift
  dsimp only at h
  split at h
  · obtain ⟨_, s₂, hset, h⟩ := (Act.returns_bind _ _ _ _ _).1 h
    have hs₂ := (Act.returns_set _ _ _ _).1 hset
    obtain ⟨rfl, rfl⟩ := (Act.returns_pure _ _ _ _).1 h
    subst hs₂
    exact encodeToLocalChunks_accounts hlocal
  · split at h
    · cases ((Act.returns_lift _ _ _ _).1 h).1
    · obtain ⟨_, s₂, hset, h⟩ := (Act.returns_bind _ _ _ _ _).1 h
      have hs₂ := (Act.returns_set _ _ _ _).1 hset
      obtain ⟨rfl, rfl⟩ := (Act.returns_pure _ _ _ _).1 h
      subst hs₂
      -- the index size is that of the chunks, the dictionary size is reset
      obtain ⟨n, rfl, hn⟩ := encodeShared_accounts hindex
      obtain ⟨m, rfl, -⟩ := encodeShared_accounts hdict
      show 0 + (0 + n) = _
      rw [Nat.zero_add, Nat.zero_add, hn]

/-- The estimates of a sample that a `finish` from this state compares, if it does. -/
def Samples (env : Env) (s : Working GLBestEncoder) (est : Float × Float) : Prop :=
  ∃ ratio sampleLen d indices t, s.enc.sampleSize = some (ratio, sampleLen) ∧
    sampleLen < sampledLen s.enc.bufferedArrayLen ratio ∧
      (SharedDictColEncoder.newScope s.enc.bufferedArrays >>= fun d =>
        scopeIndices d s.enc.bufferedArrays) = .ok (d, indices) ∧
      sampledEstimates env s.enc s.enc.bufferedArrays s.enc.bufferedArrayLen d indices ratio
        sampleLen { s with enc := s.enc.emptied } = .ok est t

/-- `finish` starts the counter anew: there is something to encode, and it does not
prefer the global dictionary on the estimates of a sample. -/
def Restarts (env : Env) (s : Working GLBestEncoder) : Prop :=
  s.enc.bufferedArrays ≠ [] ∧ ¬ ∃ est, Samples env s est ∧ ¬ est.1 ≤ est.2

theorem Samples.unique {est est' : Float × Float} (h : Samples env s est)
    (h' : Samples env s est') : est = est' := by
  obtain ⟨ratio, sampleLen, d, indices, t, hsize, -, hscope, hest⟩ := h
  obtain ⟨ratio', sampleLen', d', indices', t', hsize', -, hscope', hest'⟩ := h'
  cases hsize.symm.trans hsize'
  cases hscope.symm.trans hscope'
  cases hest.symm.trans hest'
  rfl

/-- Without an estimate the counter is started anew. -/
theorem restarts_of_forall (hne : s.enc.bufferedArrays ≠ [])
    (h : ∀ ratio sampleLen, s.enc.sampleSize = some (ratio, sampleLen) →
      ¬ sampleLen < sampledLen s.enc.bufferedArrayLen ratio) : Restarts env s := by
  refine ⟨hne, ?_⟩
  rintro ⟨est, ⟨ratio, sampleLen, -, -, -, hsize, hlen, -⟩, -⟩
  exact h ratio sampleLen hsize hlen

theorem finishSampled_accounts {e : GLBestEncoder} {arrs indices : List ArrayRef} {n : Nat}
    {d : Dictionary} {ratio : Float} {sampleLen : Nat}
    (h : finishSampled env e arrs n d indices ratio sampleLen s = .ok chunks t) :
    ∃ est s', sampledEstimates env e arrs n d indices ratio sampleLen s = .ok est s' ∧
      (est.1 ≤ est.2 → t.counter.totalSize = (chunkBytes chunks).length) ∧
        (¬ est.1 ≤ est.2 →
          t.counter.totalSize = s.counter.totalSize + (chunkBytes chunks).length) := by
  obtain ⟨est, s₁, hest, h⟩ := (Act.returns_bind _ _ _ _ _).1 h
  refine ⟨est, s₁, hest, fun hle => ?_, fun hgt => ?_⟩
  · rw [if_pos hle] at h
    obtain ⟨⟨localCounter, localChunks⟩, s₂, hlift, h⟩ := (Act.returns_bind _ _ _ _ _).1 h
    obtain ⟨hlocal, rfl⟩ := (Act.returns_lift _ _ _ _).1 hlift
    obtain ⟨_, s₂, hmodify, h⟩ := (Act.returns_bind _ _ _ _ _).1 h
    have hs₂ := (Act.returns_modify _ _ _ _).1 hmodify
    obtain ⟨rfl, rfl⟩ := (Act.returns_pure _ _ _ _).1 h
    subst hs₂
    exact encodeToLocalChunks_accounts hlocal
  · rw [if_neg hgt] at h
    obtain ⟨v, s₂, hget, h⟩ := (Act.returns_bind _ _ _ _ _).1 h
    obtain ⟨rfl, rfl⟩ := (Act.returns_get _ _ _).1 hget
    obtain ⟨_, s₂, hset, h⟩ := (Act.returns_bind _ _ _ _ _).1 h
    have hs₂ := (Act.returns_set _ _ _ _).1 hset
    subst hs₂
    have hrun : onCounter _ _ = .ok chunks t := h
    rw [SharedDictColEncoder.onCounter_run] at hrun
    split at hrun
    · next chunks' counter hencode =>
        cases hrun
        obtain ⟨m, hcounter, hm⟩ := encodeSharedToChunks_accounts hencode
        -- the estimates only move the generator
        have hkeep : s₁.counter = s.counter := by
          obtain ⟨r, rng, hr⟩ :=
            rngOnly_sampledEstimates env e arrs n d indices ratio sampleLen s.enc s.rng
          have hs := hr s.counter s.ctx
          rw [show (⟨s.enc, s.counter, s.ctx, s.rng⟩ : Working GLBestEncoder) = s from rfl] at hs
          cases r with
          | error f => cases hs.symm.trans hest
          | ok est' =>
              cases hs.symm.trans hest
              rfl
        show counter.totalSize = _
        rw [hcounter, totalSize_countUnits, hm]
        exact congrArg (fun c => EncodingCounter.totalSize c + m) hkeep
    · cases hrun

/-- **What `finish` does to the counter.** -/
theorem finish_accounts (h : finish env s = .ok chunks t) :
    (Restarts env s → Accounts (fun _ => 0) s t chunks s.counter.totalSize) ∧
      (¬ Restarts env s → Accounts (fun _ => 0) s t chunks 0) := by
  cases harrs : s.enc.bufferedArrays with
  | nil =>
      rw [finish_nil env s harrs] at h
      cases h
      exact ⟨fun hr => absurd harrs hr.1, fun _ => rfl⟩
  | cons first rest =>
      cases hd : Dictionary.tryNew first.dataType with
      | error f =>
          have hfail := finish_failed env harrs (by rw [hd]; rfl) s.counter s.ctx s.rng
          cases h.symm.trans hfail
      | ok d =>
          cases hg : extendGlobal d (first :: rest) with
          | error f =>
              have hfail := finish_failed env harrs (by rw [hd]; exact hg) s.counter s.ctx s.rng
              cases h.symm.trans hfail
          | ok g =>
              have hscope : (SharedDictColEncoder.newScope (first :: rest) >>= fun d =>
                  scopeIndices d (first :: rest)) =
                  .ok (g.1, g.2.map fun arr => castIndexDtype arr g.1.len) := by
                rw [show SharedDictColEncoder.newScope (first :: rest) =
                  Dictionary.tryNew first.dataType from rfl, hd, ok_bind, scopeIndices, hg]
                rfl
              have hrun := finish_extended env harrs hd hg s.counter s.ctx s.rng
              have hcompared : ∀ s' : Working GLBestEncoder,
                  finishCompared env s.enc (first :: rest) g.1
                    (g.2.map fun arr => castIndexDtype arr g.1.len) s' = .ok chunks t →
                    Accounts (fun _ => 0) s t chunks s.counter.totalSize := by
                intro s' h'
                rw [accounts_unheld, finishCompared_accounts h', Nat.add_comm]
              have hne : s.enc.bufferedArrays ≠ [] := by
                rw [harrs]
                exact List.cons_ne_nil _ _
              cases hsampled : s.enc.sampleSize with
              | none =>
                  have hrestarts : Restarts env s := restarts_of_forall hne fun ratio sampleLen hs => by
                    rw [hsampled] at hs
                    cases hs
                  exact ⟨fun _ => hcompared _ ((hrun.1 hsampled).symm.trans h),
                    fun hn => absurd hrestarts hn⟩
              | some p =>
                  obtain ⟨ratio, sampleLen⟩ := p
                  have hrun' := (hrun.2 ratio sampleLen hsampled).symm.trans h
                  by_cases hlen : sampledLen s.enc.bufferedArrayLen ratio > sampleLen
                  · rw [if_pos hlen] at hrun'
                    obtain ⟨est, s', hest, hlocal, hglobal⟩ := finishSampled_accounts hrun'
                    have hsamples : Samples env s est :=
                      ⟨ratio, sampleLen, g.1, _, s', hsampled, hlen, harrs ▸ hscope, harrs ▸ hest⟩
                    constructor
                    · intro hr
                      have hle : est.1 ≤ est.2 := by
                        by_contra hgt
                        exact hr.2 ⟨est, hsamples, hgt⟩
                      rw [accounts_unheld, hlocal hle, Nat.add_comm]
                    · intro hn
                      have hgt : ¬ est.1 ≤ est.2 := by
                        intro hle
                        refine hn ⟨hne, ?_⟩
                        rintro ⟨est', hest', hgt⟩
                        exact hgt (hsamples.unique hest' ▸ hle)
                      exact accounts_unheld.2 (hglobal hgt)
                  · rw [if_neg hlen] at hrun'
                    have hrestarts : Restarts env s :=
                      restarts_of_forall hne fun ratio' sampleLen' hs => by
                        rw [hsampled] at hs
                        cases hs
                        exact hlen
                    exact ⟨fun _ => hcompared _ hrun', fun hn => absurd hrestarts hn⟩

theorem encode_accounts {array : ArrayRef} (h : encode env array s = .ok chunks t) :
    Accounts (fun _ => 0) s t chunks 0 := by
  rw [encode_run] at h
  split at h
  · cases h
  · cases h
    rfl

end GLBestEncoder

/-! ## Calls -/

/-- The call starts its counter anew. -/
def CallEvent.Restarts (env : Env) (e : CallEvent) : Prop :=
  e.method = PhysicalColEncoder.finish env ∧ ∃ g, e.before.enc = .glBest g ∧
    GLBestEncoder.Restarts env ⟨g, e.before.counter, e.before.ctx, e.before.rng⟩

/-- The call loses no count: it does not start its counter anew, or nothing is
counted yet. -/
def CallEvent.Counts (env : Env) (e : CallEvent) : Prop :=
  e.Restarts env → e.before.counter.totalSize = 0

section Calls

variable {env : Env}

/-- A method that is not the `finish` of a `GLBestEncoder` adds to the counter. -/
theorem PhysicalColEncoder.Method.accounts {p : PhysicalColEncoder}
    {x : EncAct PhysicalColEncoder (List EncodedColumnChunk)} (hx : p.Method env x)
    {s t : Working PhysicalColEncoder} {chunks : List EncodedColumnChunk} (hs : s.enc = p)
    (h : x s = .ok chunks t) :
    Accounts held s t chunks 0 ∨ x = PhysicalColEncoder.finish env ∧ ∃ g, s.enc = .glBest g := by
  obtain ⟨enc, counter, ctx, rng⟩ := s
  subst hs
  cases hx with
  | encode array _ =>
      left
      rw [PhysicalColEncoder.encode, Act.get_bind] at h
      cases enc with
      | encoderDict e =>
          obtain ⟨u, hu, rfl⟩ := delegate_eq_ok h
          exact EncoderDictColEncoder.encode_accounts hu
      | dict e =>
          obtain ⟨u, hu, rfl⟩ := delegate_eq_ok h
          exact DictColEncoder.encode_accounts hu
      | sharedDict e =>
          obtain ⟨u, hu, rfl⟩ := delegate_eq_ok h
          exact SharedDictColEncoder.encode_accounts hu
      | glBest e =>
          obtain ⟨u, hu, rfl⟩ := delegate_eq_ok h
          exact GLBestEncoder.encode_accounts hu
  | finish =>
      rw [PhysicalColEncoder.finish, Act.get_bind] at h
      cases enc with
      | encoderDict e =>
          obtain ⟨u, hu, rfl⟩ := delegate_eq_ok h
          exact .inl (EncoderDictColEncoder.finish_accounts hu).1
      | dict e =>
          obtain ⟨u, hu, rfl⟩ := delegate_eq_ok h
          exact .inl (DictColEncoder.finish_accounts hu).1
      | sharedDict e =>
          obtain ⟨u, hu, rfl⟩ := delegate_eq_ok h
          exact .inl (SharedDictColEncoder.finish_accounts hu)
      | glBest e => exact .inr ⟨rfl, e, rfl⟩

/-- **What a call does to its counter.** -/
theorem CallEvent.Runs.accounts {e : CallEvent} (h : e.Runs env) :
    ∃ lost, Accounts PhysicalColEncoder.held e.before e.after e.chunks lost ∧
      (lost = 0 ↔ e.Counts env) := by
  have hglBest : ∀ {g : GLBestEncoder}, e.method = PhysicalColEncoder.finish env →
      e.before.enc = .glBest g → ∃ t, e.after = t.embed .glBest ∧
        GLBestEncoder.finish env ⟨g, e.before.counter, e.before.ctx, e.before.rng⟩ =
          .ok e.chunks t := by
    intro g hmethod henc
    have hreturns := h.returns
    rw [hmethod, PhysicalColEncoder.finish, Act.get_bind, henc] at hreturns
    obtain ⟨t, ht, heq⟩ := PhysicalColEncoder.delegate_eq_ok hreturns
    exact ⟨t, heq, ht⟩
  by_cases hr : e.Restarts env
  · obtain ⟨hmethod, g, henc, hrestarts⟩ := hr
    obtain ⟨t, ht, hfinish⟩ := hglBest hmethod henc
    refine ⟨e.before.counter.totalSize, ?_, fun hzero _ => hzero,
      fun hcounts => hcounts ⟨hmethod, g, henc, hrestarts⟩⟩
    have hcount := accounts_unheld.1 ((GLBestEncoder.finish_accounts hfinish).1 hrestarts)
    rw [Accounts, ht, henc]
    exact hcount
  · refine ⟨0, ?_, fun _ hr' => absurd hr' hr, fun _ => rfl⟩
    rcases h.method.accounts h.encoder h.returns with hadds | ⟨hmethod, g, henc⟩
    · exact hadds
    · obtain ⟨t, ht, hfinish⟩ := hglBest hmethod henc
      have hnot : ¬ GLBestEncoder.Restarts env ⟨g, e.before.counter, e.before.ctx, e.before.rng⟩ :=
        fun hg => hr ⟨hmethod, g, henc, hg⟩
      have hcount := accounts_unheld.1 ((GLBestEncoder.finish_accounts hfinish).2 hnot)
      rw [Accounts, ht, henc]
      exact hcount

end Calls

/-! ## The chunks of a field -/

/-- The recorded size of the chunks of a column. -/
def ColumnMetadata.size (m : ColumnMetadata) : Nat := (m.columnChunks.map Chunk.size).sum

/-- The size of the chunks of column `c`, in all row groups. -/
def RowGroupsTable.columnSize (t : RowGroupsTable) (c : Nat) : Nat :=
  (t.rowGroupMetadata.map fun g => ((g.colMetadatas[c]?).map ColumnMetadata.size).getD 0).sum

/-- The same with the row group in progress. -/
def FileWriteState.columnSize (s : FileWriteState) (c : Nat) : Nat :=
  s.rowGroupsTable.columnSize c +
    ((s.columnMetadatasInCurRowGroup[c]?).map ColumnMetadata.size).getD 0

/-- The bytes encoded for the columns `cols`, which are those of field `j`: in
chunks that are recorded, that wait to be flushed, and that encoders hold. -/
def Point.fieldSize (p : Point) (j : Nat) (cols : List Nat) : Nat :=
  (cols.map p.state.columnSize).sum +
    (chunkBytes (p.pending.filter fun c => decide (c.columnIndex ∈ cols))).length +
      ((p.leaves.filter fun l => decide (l.field = j)).map fun l => l.encoder.held).sum

/-- The columns of field `j` are `cols`. -/
def Point.Owns (p : Point) (j : Nat) (cols : List Nat) : Prop :=
  ∀ l ∈ p.leaves, l.field = j ↔ l.column ∈ cols

/-- The counter of field `j` counts the bytes of its columns, but for `lost` of them. -/
def Point.Counted (p : Point) (j : Nat) (cols : List Nat) (lost : Nat) : Prop :=
  ∀ c, p.state.columnCounters[j]? = some c → c.totalSize + lost = p.fieldSize j cols

section Steps

variable {env : Env} {P : CallEvent → Prop} {a b : Point} {j : Nat} {cols : List Nat}

/-- Adding to one column adds to the sum of those it is among. -/
theorem sum_map_add_one (f : Nat → Nat) (i n : Nat) : ∀ {cols : List Nat}, cols.Nodup →
    (cols.map fun c => f c + if c = i then n else 0).sum =
      (cols.map f).sum + if i ∈ cols then n else 0
  | [], _ => rfl
  | c :: cols, h => by
      obtain ⟨hc, hcols⟩ := List.nodup_cons.1 h
      have ih := sum_map_add_one f i n hcols
      rw [List.map_cons, List.sum_cons, ih, List.map_cons, List.sum_cons]
      by_cases hi : c = i
      · subst hi
        rw [if_pos rfl, if_neg hc, if_pos List.mem_cons_self]
        omega
      · have hmem : i ∈ c :: cols ↔ i ∈ cols := by simp [Ne.symm hi]
        rw [if_neg hi]
        by_cases hic : i ∈ cols
        · rw [if_pos hic, if_pos (hmem.2 hic)]
          omega
        · rw [if_neg hic, if_neg fun h => hic (hmem.1 h)]
          omega

theorem chunkBytes_stamp (i : Nat) (chunks : List EncodedColumnChunk) :
    chunkBytes (stamp i chunks) = chunkBytes chunks := by
  rw [chunkBytes, stamp, List.map_map]
  rfl

theorem filter_stamp (i : Nat) (chunks : List EncodedColumnChunk) (cols : List Nat) :
    (stamp i chunks).filter (fun c => decide (c.columnIndex ∈ cols)) =
      if i ∈ cols then stamp i chunks else [] := by
  have hindex : ∀ c ∈ stamp i chunks, c.columnIndex = i := FileWriter.columnIndex_stamp
  by_cases hi : i ∈ cols
  · rw [if_pos hi, List.filter_eq_self]
    exact fun c hc => decide_eq_true (by rwa [hindex c hc])
  · rw [if_neg hi, List.filter_eq_nil_iff]
    intro c hc hmem
    exact hi (hindex c hc ▸ of_decide_eq_true hmem)

/-- The bytes that the encoders of a field hold, with one of them put apart. -/
theorem sum_held (pre post : List Leaf) (l : Leaf) (j : Nat) :
    (((pre ++ l :: post).filter fun l => decide (l.field = j)).map fun l => l.encoder.held).sum =
      (((pre ++ post).filter fun l => decide (l.field = j)).map fun l => l.encoder.held).sum +
        if l.field = j then l.encoder.held else 0 := by
  rw [List.filter_append, List.filter_append, List.filter_cons]
  by_cases hl : l.field = j
  · simp only [hl, decide_true, if_true, List.map_append, List.map_cons, List.sum_append,
      List.sum_cons]
    omega
  · simp [hl]

theorem PhysicalColEncoder.submitDict_held {s t : Working PhysicalColEncoder} {u : Unit}
    (h : submitDict s = .ok u t) : t.enc.held = s.enc.held := by
  rw [submitDict, Act.get_bind] at h
  cases hs : s.enc with
  | sharedDict e =>
      rw [hs] at h
      obtain ⟨r, -, rfl⟩ := delegate_eq_ok h
      rfl
  | encoderDict e =>
      rw [hs] at h
      cases h
      rw [hs]
  | dict e =>
      rw [hs] at h
      cases h
      rw [hs]
  | glBest e =>
      rw [hs] at h
      cases h
      rw [hs]

/-- A flushed chunk adds its size to its column. -/
theorem FileWriteState.columnSize_flushChunk {s t : FileWriteState} {c : EncodedColumnChunk}
    (h : s.flushChunk env c = .ok t) (hfit : ∀ v ∈ t.narrowed, v < 2 ^ 32) (x : Nat) :
    t.columnSize x = s.columnSize x + if x = c.columnIndex then c.bytes.length else 0 := by
  obtain ⟨m, hm, rfl⟩ := flushChunk_eq_ok.1 h
  have hlen : c.bytes.length < 2 ^ 32 :=
    hfit _ (List.mem_append_right _ (List.mem_append_right _ (List.mem_singleton_self _)))
  have hsize : (c.record env s.enableIoUnitChecksum s.writer.length).size = c.bytes.length :=
    u32_of_lt hlen
  obtain ⟨hlt, -⟩ := List.getElem?_eq_some_iff.1 hm
  show s.rowGroupsTable.columnSize x +
    (((s.columnMetadatasInCurRowGroup.set c.columnIndex _)[x]?).map ColumnMetadata.size).getD 0 = _
  rw [columnSize]
  by_cases hx : x = c.columnIndex
  · subst hx
    rw [List.getElem?_set_self hlt, hm, if_pos rfl]
    show _ + ((m.columnChunks ++ [_]).map Chunk.size).sum = _ + m.size + _
    rw [List.map_append, List.sum_append, List.map_singleton, List.sum_singleton, hsize,
      ← Nat.add_assoc]
    rfl
  · rw [List.getElem?_set_ne (Ne.symm hx), if_neg hx]
    rfl

/-- A finished row group has the chunks of the one in progress. -/
theorem FileWriteState.columnSize_finishRowGroup (s : FileWriteState) (x : Nat) :
    s.finishRowGroup.columnSize x = s.columnSize x := by
  have hempty : ((s.finishRowGroup.columnMetadatasInCurRowGroup[x]?).map ColumnMetadata.size).getD 0 =
      0 := by
    show (((List.replicate s.numPhysicalColumns ColumnMetadata.empty)[x]?).map _).getD 0 = 0
    rw [List.getElem?_replicate]
    split
    · rfl
    · rfl
  have htable : s.finishRowGroup.rowGroupsTable.columnSize x = s.rowGroupsTable.columnSize x +
      ((s.columnMetadatasInCurRowGroup[x]?).map ColumnMetadata.size).getD 0 := by
    show ((s.rowGroupsTable.rowGroupMetadata ++
      [(⟨s.columnMetadatasInCurRowGroup⟩ : RowGroupMetadata)]).map _).sum = _
    rw [List.map_append, List.sum_append]
    rfl
  rw [columnSize, hempty, htable]
  rfl

/-- The bytes of a field before and after a call. -/
theorem Point.fieldSize_call {pre post : List Leaf} {pending : List EncodedColumnChunk}
    {s : FileWriteState} {e : CallEvent} (hruns : e.Runs env)
    (howns : Point.Owns ⟨pre ++ e.leaf :: post, pending, s, e.before.ctx⟩ j cols) :
    Point.fieldSize ⟨pre ++ e.left :: post, pending ++ stamp e.leaf.column e.chunks,
        { s with columnCounters := s.columnCounters.set e.leaf.field e.after.counter },
        e.after.ctx⟩ j cols + (if e.leaf.field = j then e.before.enc.held else 0) =
      Point.fieldSize ⟨pre ++ e.leaf :: post, pending, s, e.before.ctx⟩ j cols +
        (if e.leaf.field = j then e.after.enc.held + (chunkBytes e.chunks).length else 0) := by
  have hfield := howns e.leaf (List.mem_append_right _ List.mem_cons_self)
  rw [Point.fieldSize, Point.fieldSize, sum_held, sum_held, List.filter_append, filter_stamp,
    length_chunkBytes_append, hruns.encoder]
  show (cols.map s.columnSize).sum + _ + (_ + if e.leaf.field = j then e.after.enc.held else 0) +
    _ = _
  by_cases hf : e.leaf.field = j
  · rw [if_pos hf, if_pos hf, if_pos hf, if_pos (hfield.1 hf), chunkBytes_stamp]
    dsimp only
    omega
  · rw [if_neg hf, if_neg hf, if_neg hf, if_neg fun h => hf (hfield.2 h)]
    dsimp only
    rfl

/-- **What a step does to the counters.** -/
theorem Step.counted (hstep : Step env P a b) (hfit : ∀ v ∈ b.state.narrowed, v < 2 ^ 32) :
    ∃ lost : Nat → Nat,
      (∀ j cols k, cols.Nodup → a.Owns j cols → a.Counted j cols k →
        b.Counted j cols (k + lost j)) ∧
      ((∀ j < a.state.columnCounters.length, lost j = 0) → Step env (CallEvent.Counts env) a b) ∧
      ((∀ e, P e → e.Counts env) → ∀ j, lost j = 0) := by
  cases hstep with
  | @call pre post pending s e hruns hP hcounter =>
      obtain ⟨n, haccounts, hn⟩ := hruns.accounts
      obtain ⟨hj, -⟩ := List.getElem?_eq_some_iff.1 hcounter
      refine ⟨fun j => if e.leaf.field = j then n else 0, ?_, ?_, ?_⟩
      · intro j cols k _ howns hcounted c hc
        have hsize := Point.fieldSize_call hruns howns
        unfold Accounts at haccounts
        by_cases hf : e.leaf.field = j
        · subst hf
          have hafter : c = e.after.counter := by
            rw [List.getElem?_set_self hj] at hc
            exact (Option.some.inj hc).symm
          have hbefore := hcounted _ hcounter
          rw [if_pos rfl, if_pos rfl] at hsize
          dsimp only
          rw [if_pos rfl, hafter]
          omega
        · rw [List.getElem?_set_ne hf] at hc
          have hbefore := hcounted c hc
          rw [if_neg hf, if_neg hf] at hsize
          dsimp only
          rw [if_neg hf]
          omega
      · intro hlost
        have hzero := hlost e.leaf.field hj
        dsimp only at hzero
        rw [if_pos rfl] at hzero
        exact .call e hruns (hn.1 hzero) hcounter
      · intro hcounts j
        have hzero := hn.2 (hcounts e hP)
        dsimp only
        rw [hzero, ite_self]
  | @submitDict pre post l pending s before after hencoder hnone hrun =>
      refine ⟨fun _ => 0, ?_, fun _ => .submitDict hencoder hnone hrun, fun _ _ => rfl⟩
      intro j cols k _ _ hcounted c hc
      have hheld := PhysicalColEncoder.submitDict_held hrun
      rw [hencoder] at hheld
      have hbefore := hcounted c hc
      rw [Point.fieldSize, sum_held] at hbefore ⊢
      dsimp only at hbefore ⊢
      rw [hheld]
      exact hbefore
  | mergeDicts hnil hrun =>
      exact ⟨fun _ => 0, fun _ _ _ _ _ hcounted => hcounted, fun _ => .mergeDicts hnil hrun,
        fun _ _ => rfl⟩
  | @flushChunk ls chunk pending s s' ctx hrun =>
      refine ⟨fun _ => 0, ?_, fun _ => .flushChunk hrun, fun _ _ => rfl⟩
      intro j cols k hnodup _ hcounted c hc
      have hcounters : s'.columnCounters = s.columnCounters := by
        obtain ⟨m, -, rfl⟩ := FileWriteState.flushChunk_eq_ok.1 hrun
        rfl
      have hbefore := hcounted c (hcounters ▸ hc)
      have hsum : (cols.map s'.columnSize).sum = (cols.map s.columnSize).sum +
          if chunk.columnIndex ∈ cols then chunk.bytes.length else 0 := by
        rw [← sum_map_add_one _ _ _ hnodup]
        exact congrArg List.sum (List.map_congr_left fun x _ =>
          FileWriteState.columnSize_flushChunk hrun hfit x)
      rw [Point.fieldSize] at hbefore ⊢
      dsimp only at hbefore ⊢
      rw [List.filter_cons] at hbefore
      rw [hsum]
      by_cases hmem : chunk.columnIndex ∈ cols
      · rw [if_pos (decide_eq_true hmem), ← List.singleton_append, length_chunkBytes_append,
          length_chunkBytes_singleton] at hbefore
        rw [if_pos hmem]
        omega
      · rw [if_neg (by simpa using hmem)] at hbefore
        rw [if_neg hmem]
        exact hbefore
  | addRows n =>
      exact ⟨fun _ => 0, fun _ _ _ _ _ hcounted => hcounted, fun _ => .addRows n, fun _ _ => rfl⟩
  | @finishRowGroup ls s ctx =>
      refine ⟨fun _ => 0, ?_, fun _ => .finishRowGroup, fun _ _ => rfl⟩
      intro j cols k _ _ hcounted c hc
      have hbefore := hcounted c hc
      rw [Point.fieldSize] at hbefore ⊢
      dsimp only at hbefore ⊢
      rw [List.map_congr_left fun x _ => s.columnSize_finishRowGroup x]
      exact hbefore

theorem Step.narrowed (hstep : Step env P a b) : ∀ v ∈ a.state.narrowed, v ∈ b.state.narrowed := by
  intro v hv
  cases hstep with
  | call e hruns hP hcounter => exact hv
  | submitDict hencoder hnone hrun => exact hv
  | mergeDicts hnil hrun => exact hv
  | flushChunk hrun =>
      obtain ⟨m, -, rfl⟩ := FileWriteState.flushChunk_eq_ok.1 hrun
      exact List.mem_append_left _ hv
  | addRows n => exact List.mem_append_left _ hv
  | finishRowGroup => exact List.mem_append_left _ hv

theorem Step.length_columnCounters (hstep : Step env P a b) :
    b.state.columnCounters.length = a.state.columnCounters.length := by
  cases hstep with
  | call e hruns hP hcounter => exact List.length_set
  | submitDict hencoder hnone hrun => rfl
  | mergeDicts hnil hrun => rfl
  | flushChunk hrun =>
      obtain ⟨m, -, rfl⟩ := FileWriteState.flushChunk_eq_ok.1 hrun
      rfl
  | addRows n => rfl
  | finishRowGroup => rfl

theorem Steps.length_columnCounters (hsteps : Steps env P a b) :
    b.state.columnCounters.length = a.state.columnCounters.length := by
  induction hsteps with
  | refl => rfl
  | tail _ hstep ih => exact hstep.length_columnCounters.trans ih

theorem Point.Owns.replace {pre post : List Leaf} {l l' : Leaf} {p p' : Point}
    (h : p.Owns j cols) (hp : p.leaves = pre ++ l :: post) (hp' : p'.leaves = pre ++ l' :: post)
    (hfield : l'.field = l.field) (hcolumn : l'.column = l.column) : p'.Owns j cols := by
  intro x hx
  rw [hp'] at hx
  have hmem : ∀ y ∈ pre ++ l :: post, y.field = j ↔ y.column ∈ cols := hp ▸ h
  rcases List.mem_append.1 hx with hpre | hpost
  · exact hmem x (List.mem_append_left _ hpre)
  · rcases List.mem_cons.1 hpost with rfl | hpost
    · rw [hfield, hcolumn]
      exact hmem l (List.mem_append_right _ List.mem_cons_self)
    · exact hmem x (List.mem_append_right _ (List.mem_cons_of_mem _ hpost))

theorem Step.owns (hstep : Step env P a b) (h : a.Owns j cols) : b.Owns j cols := by
  cases hstep with
  | call e hruns hP hcounter => exact h.replace rfl rfl rfl rfl
  | submitDict hencoder hnone hrun => exact h.replace rfl rfl rfl rfl
  | mergeDicts hnil hrun => exact h
  | flushChunk hrun => exact h
  | addRows n => exact h
  | finishRowGroup => exact h

/-- **What a run does to the counters.** They are short of what their fields have
unless every call of the run counts. -/
theorem Steps.counted {owned : Nat → List Nat} (hsteps : Steps env P a b)
    (hnodup : ∀ j, (owned j).Nodup) (howns : ∀ j, a.Owns j (owned j))
    (hstart : ∀ j, a.Counted j (owned j) 0) (hfit : ∀ v ∈ b.state.narrowed, v < 2 ^ 32) :
    (∀ j, b.Owns j (owned j)) ∧ ∃ lost : Nat → Nat, (∀ j, b.Counted j (owned j) (lost j)) ∧
      ((∀ j < b.state.columnCounters.length, lost j = 0) →
        Steps env (CallEvent.Counts env) a b) ∧
      ((∀ e, P e → e.Counts env) → ∀ j, lost j = 0) := by
  induction hsteps with
  | refl => exact ⟨howns, fun _ => 0, hstart, fun _ => .refl, fun _ _ => rfl⟩
  | tail hsteps hstep ih =>
      obtain ⟨howns', lost, hcounted, hcounts, hzero⟩ :=
        ih fun v hv => hfit v (hstep.narrowed v hv)
      obtain ⟨more, hnext, hlast, hnone⟩ := hstep.counted hfit
      refine ⟨fun j => hstep.owns (howns' j), fun j => lost j + more j,
        fun j => hnext j _ _ (hnodup j) (howns' j) (hcounted j), ?_, ?_⟩
      · intro hall
        rw [hstep.length_columnCounters] at hall
        exact (hcounts fun j hj => (Nat.add_eq_zero_iff.1 (hall j hj)).1).tail
          (hlast fun j hj => (Nat.add_eq_zero_iff.1 (hall j hj)).2)
      · intro hP j
        dsimp only
        rw [hzero hP j, hnone hP j]

end Steps

/-! ## The end of a row group -/

namespace LogicalColEncoder

variable {env : Env} {j : Nat}

/-- An encoder that is finished holds nothing. -/
theorem held_of_finish {p : PhysicalColEncoder} {s : Shared} {chunks : List EncodedColumnChunk}
    {t : Working PhysicalColEncoder}
    (h : callPhysical (PhysicalColEncoder.finish env) p s = .ok chunks t) : t.enc.held = 0 := by
  have hfinish : PhysicalColEncoder.finish env ⟨p, s.counter, s.ctx, s.rng⟩ = .ok chunks t := h
  rw [PhysicalColEncoder.finish, Act.get_bind] at hfinish
  cases p with
  | encoderDict e =>
      obtain ⟨u, hu, rfl⟩ := PhysicalColEncoder.delegate_eq_ok hfinish
      exact (EncoderDictColEncoder.finish_accounts hu).2
  | dict e =>
      obtain ⟨u, hu, rfl⟩ := PhysicalColEncoder.delegate_eq_ok hfinish
      exact (DictColEncoder.finish_accounts hu).2
  | sharedDict e =>
      obtain ⟨u, -, rfl⟩ := PhysicalColEncoder.delegate_eq_ok hfinish
      rfl
  | glBest e =>
      obtain ⟨u, -, rfl⟩ := PhysicalColEncoder.delegate_eq_ok hfinish
      rfl

mutual

theorem leaves_held_of_finish : ∀ (e : LogicalColEncoder) (s : Shared)
    {res : Option (List EncodedColumnChunk)} {t : Working LogicalColEncoder},
    finish env e s = .ok res t → ∀ l ∈ t.enc.leaves j, l.encoder.held = 0
  | flat p i, s, res, t, h => by
      rw [finish] at h
      cases hp : callPhysical (PhysicalColEncoder.finish env) p s with
      | error f t => rw [hp] at h; cases h
      | ok chunks u =>
          rw [hp] at h
          cases h
          exact List.forall_mem_cons.2 ⟨held_of_finish hp, fun l hl => by cases hl⟩
  | list p i v, s, res, t, h => by
      rw [finish] at h
      cases hp : callPhysical (PhysicalColEncoder.finish env) p s with
      | error f t => rw [hp] at h; cases h
      | ok chunks u =>
          rw [hp] at h
          dsimp only at h
          cases hv : finish env v u.shared with
          | error f t => rw [hv] at h; cases h
          | ok more r =>
              rw [hv] at h
              cases h
              exact List.forall_mem_cons.2
                ⟨held_of_finish hp, leaves_held_of_finish v u.shared hv⟩
  | struct p i fs, s, res, t, h => by
      rw [finish] at h
      cases hp : callPhysical (PhysicalColEncoder.finish env) p s with
      | error f t => rw [hp] at h; cases h
      | ok chunks u =>
          rw [hp] at h
          dsimp only at h
          cases hfs : finishFields env fs u.shared with
          | error f t => rw [hfs] at h; cases h
          | ok more r =>
              rw [hfs] at h
              cases h
              exact List.forall_mem_cons.2
                ⟨held_of_finish hp, allLeaves_held_of_finish fs u.shared hfs⟩

theorem allLeaves_held_of_finish : ∀ (es : List LogicalColEncoder) (s : Shared)
    {res : List EncodedColumnChunk} {t : Working (List LogicalColEncoder)},
    finishFields env es s = .ok res t → ∀ l ∈ allLeaves j t.enc, l.encoder.held = 0
  | [], s, res, t, h => by
      rw [finishFields] at h
      cases h
      exact fun l hl => by cases hl
  | e :: es, s, res, t, h => by
      rw [finishFields] at h
      cases he : finish env e s with
      | error f t => rw [he] at h; cases h
      | ok chunks u =>
          rw [he] at h
          dsimp only at h
          cases hes : finishFields env es u.shared with
          | error f t => rw [hes] at h; cases h
          | ok more r =>
              rw [hes] at h
              cases h
              exact List.forall_mem_append.2
                ⟨leaves_held_of_finish e s he, allLeaves_held_of_finish es u.shared hes⟩

end

end LogicalColEncoder

namespace FileWriter

variable {env : Env}

theorem columnEncoders_of_flushChunks : ∀ {cs : List EncodedColumnChunk} {w w' : FileWriter},
    Act.Returns (Act.forEach (fun c => onState fun s => s.flushChunk env c) cs) w () w' →
      w'.columnEncoders = w.columnEncoders
  | [], w, w', h => by rw [(Act.returns_forEach_nil _ _ _ _).1 h]
  | c :: cs, w, w', h => by
      obtain ⟨w₁, hfirst, hrest⟩ := (Act.returns_forEach_cons _ _ _ _ _ _).1 h
      obtain ⟨s, -, rfl⟩ := returns_onState hfirst
      have hcolumns := columnEncoders_of_flushChunks hrest
      exact hcolumns

/-- The encoders of field `i` hold nothing. -/
def Drained (i : Nat) (w : FileWriter) : Prop :=
  ∀ e, w.columnEncoders[i]? = some e → ∀ l ∈ e.leaves i, l.encoder.held = 0

theorem drained_of_finish {i : Nat} {w w' : FileWriter}
    (h : Act.Returns (callEncoder i (fun e => e.finish env) >>= flushChunks env) w () w') :
    w'.columnEncoders.length = w.columnEncoders.length ∧ Drained i w' ∧
      ∀ k, Drained k w → Drained k w' := by
  obtain ⟨res, w₁, hcall, hflush⟩ := (Act.returns_bind _ _ _ _ _).1 h
  obtain ⟨e, c, t, he, -, hrun, rfl⟩ := returns_callEncoder hcall
  have hencoders : w'.columnEncoders = w.columnEncoders.set i t.enc :=
    columnEncoders_of_flushChunks hflush
  obtain ⟨hi, -⟩ := List.getElem?_eq_some_iff.1 he
  have hown : Drained i w' := by
    intro e' he'
    rw [hencoders, List.getElem?_set_self hi] at he'
    cases he'
    exact LogicalColEncoder.leaves_held_of_finish e _ hrun
  refine ⟨by rw [hencoders, List.length_set], hown, fun k hk => ?_⟩
  by_cases hik : i = k
  · exact hik ▸ hown
  · intro e' he'
    rw [hencoders, List.getElem?_set_ne hik] at he'
    exact hk e' he'

/-- After the loop over the fields no encoder holds anything. -/
theorem drained_of_flushPendingChunks {w w' : FileWriter}
    (h : Act.Returns (flushPendingChunks env) w () w') : ∀ i, Drained i w' := by
  obtain ⟨v, w₀, hget, hloop⟩ := (Act.returns_bind _ _ _ _ _).1 h
  obtain ⟨rfl, rfl⟩ := (Act.returns_get _ _ _).1 hget
  have hall : ∀ (xs : List Nat) {w₁ : FileWriter},
      Act.Returns (Act.forEach (fun i => callEncoder i (fun e => e.finish env) >>= flushChunks env) xs)
        w₁ () w' → w'.columnEncoders.length = w₁.columnEncoders.length ∧
          ∀ i, i ∈ xs ∨ Drained i w₁ → Drained i w' := by
    intro xs
    induction xs with
    | nil =>
        intro w₁ hrun
        rw [(Act.returns_forEach_nil _ _ _ _).1 hrun]
        exact ⟨rfl, fun i hi => hi.resolve_left List.not_mem_nil⟩
    | cons x xs ih =>
        intro w₁ hrun
        obtain ⟨w₂, hfirst, hrest⟩ := (Act.returns_forEach_cons _ _ _ _ _ _).1 hrun
        obtain ⟨hlen, hx, hkeep⟩ := drained_of_finish hfirst
        obtain ⟨hlen', hrest'⟩ := ih hrest
        refine ⟨hlen'.trans hlen, fun i hi => hrest' i ?_⟩
        rcases hi with hi | hi
        · rcases List.mem_cons.1 hi with rfl | hi
          · exact .inr hx
          · exact .inl hi
        · exact .inr (hkeep i hi)
  intro i e he
  obtain ⟨hlen, hdrained⟩ := hall _ hloop
  obtain ⟨hi, -⟩ := List.getElem?_eq_some_iff.1 he
  exact hdrained i (.inl (List.mem_range.2 (hlen ▸ hi))) e he

/-- The leaves of drained fields. -/
theorem held_of_drained : ∀ (es : List LogicalColEncoder) (j : Nat),
    (∀ (i : Nat) (e : LogicalColEncoder), es[i]? = some e →
      ∀ l ∈ e.leaves (j + i), l.encoder.held = 0) →
        ∀ l ∈ fieldLeaves j es, l.encoder.held = 0
  | [], _, _, _, hl => by cases hl
  | e :: es, j, h, l, hl => by
      rcases List.mem_append.1 hl with hl | hl
      · exact h 0 e rfl l hl
      · refine held_of_drained es (j + 1) (fun i e' he' => ?_) l hl
        have hnext := h (i + 1) e' he'
        rwa [show j + (i + 1) = j + 1 + i by omega] at hnext

/-- At the end of a run nothing is held, and every chunk is in a row group. -/
theorem fieldSize_of_finishRowGroups {w w' : FileWriter} {j : Nat} {cols : List Nat}
    (h : Act.Returns (finishRowGroups env) w () w') :
    w'.point.fieldSize j cols = (cols.map w'.state.rowGroupsTable.columnSize).sum := by
  obtain ⟨_, w₁, -, hrest⟩ := (Act.returns_bind _ _ _ _ _).1 h
  obtain ⟨_, w₂, hflush, hlast⟩ := (Act.returns_bind _ _ _ _ _).1 hrest
  obtain ⟨s, hs, rfl⟩ := returns_onState hlast
  cases hs
  have hheld : ∀ l ∈ w₂.leaves, l.encoder.held = 0 :=
    held_of_drained w₂.columnEncoders 0 fun i e he => by
      rw [Nat.zero_add]
      exact drained_of_flushPendingChunks hflush i e he
  have hzero : ((w₂.leaves.filter fun l => decide (l.field = j)).map
      fun l => l.encoder.held).sum = 0 := by
    refine List.sum_eq_zero fun n hn => ?_
    obtain ⟨l, hl, rfl⟩ := List.mem_map.1 hn
    exact hheld l (List.mem_of_mem_filter hl)
  have hsize : ∀ c, w₂.state.finishRowGroup.columnSize c =
      w₂.state.finishRowGroup.rowGroupsTable.columnSize c := by
    intro c
    show _ + (((List.replicate w₂.state.numPhysicalColumns ColumnMetadata.empty)[c]?).map _).getD 0 = _
    rw [List.getElem?_replicate]
    split
    · rfl
    · rfl
  show (cols.map w₂.state.finishRowGroup.columnSize).sum + 0 + _ = _
  rw [List.map_congr_left fun c _ => hsize c]
  exact congrArg ((cols.map w₂.state.finishRowGroup.rowGroupsTable.columnSize).sum + ·) hzero

end FileWriter

/-! ## The columns of a field -/

/-- The columns of field `j`: those after the columns of the fields before it. -/
def Field.columnsAt (schema : List Field) (j : Nat) : List Nat :=
  match schema[j]? with
  | some f => List.range' (Field.nodesAll (schema.take j)) f.nodes
  | none => []

theorem Field.nodup_columnsAt (schema : List Field) (j : Nat) : (columnsAt schema j).Nodup := by
  unfold columnsAt
  split
  · exact List.nodup_range'
  · exact List.nodup_nil

theorem Field.nodesAll_take_lt : ∀ {schema : List Field} {j k : Nat} {f : Field},
    schema[j]? = some f → j < k →
      nodesAll (schema.take j) + f.nodes ≤ nodesAll (schema.take k)
  | [], _, _, _, h, _ => by cases h
  | g :: schema, 0, k + 1, f, h, _ => by
      cases h
      rw [List.take_zero, List.take_succ_cons, nodesAll, nodesAll]
      omega
  | g :: schema, j + 1, k + 1, f, h, hlt => by
      have htail : schema[j]? = some f := h
      have ih := nodesAll_take_lt htail (Nat.lt_of_succ_lt_succ hlt)
      rw [List.take_succ_cons, List.take_succ_cons, nodesAll, nodesAll]
      omega

/-- No column is of two fields. -/
theorem Field.eq_of_mem_columnsAt {schema : List Field} {j k c : Nat} (hj : c ∈ columnsAt schema j)
    (hk : c ∈ columnsAt schema k) : j = k := by
  unfold columnsAt at hj hk
  split at hj
  · next f hf =>
      split at hk
      · next g hg =>
          rw [List.mem_range'_1] at hj hk
          rcases Nat.lt_trichotomy j k with hlt | heq | hgt
          · have hle := nodesAll_take_lt hf hlt
            omega
          · exact heq
          · have hle := nodesAll_take_lt hg hgt
            omega
      · cases hk
  · cases hj

namespace LogicalColEncoder

mutual

theorem columns_leaves : ∀ (e : LogicalColEncoder) (j : Nat),
    (e.leaves j).map Leaf.column = e.columns
  | flat p i, j => rfl
  | list p i v, j => by rw [leaves, columns, List.map_cons, columns_leaves v j]
  | struct p i fs, j => by rw [leaves, columns, List.map_cons, columns_allLeaves fs j]

theorem columns_allLeaves : ∀ (es : List LogicalColEncoder) (j : Nat),
    (allLeaves j es).map Leaf.column = columnsOf es
  | [], j => rfl
  | e :: es, j => by
      rw [allLeaves, columnsOf, List.map_append, columns_leaves e j, columns_allLeaves es j]

end

end LogicalColEncoder

/-- The encoders of a schema have the columns of their fields. -/
theorem column_of_mem_fieldLeaves {o : EncoderOptions} : ∀ {fs : List Field} {i k n : Nat}
    {es : List LogicalColEncoder} {trees : List LogicalTree},
    createLogicalEncoders o fs i = .ok (es, trees, n) → Field.supportedAll fs = true →
      ∀ l ∈ fieldLeaves k es, ∃ m f, fs[m]? = some f ∧ l.field = k + m ∧
        l.column ∈ List.range' (i + Field.nodesAll (fs.take m)) f.nodes
  | [], _, _, _, _, _, h, _, l, hl => by
      cases h
      cases hl
  | f :: fs, i, k, _, _, _, h, hsup, l, hl => by
      simp only [Field.supportedAll, Bool.and_eq_true] at hsup
      obtain ⟨e', tree', he', hcols⟩ := createLogicalEncoder_numbers o f i hsup.1
      simp only [createLogicalEncoders, bind_eq_ok, pure_eq_ok, Except.ok.injEq,
        Prod.mk.injEq] at h
      obtain ⟨⟨e, tree, m⟩, he, ⟨es, trees, m'⟩, hes, rfl, -⟩ := h
      cases he.symm.trans he'
      rcases List.mem_append.1 hl with hl | hl
      · obtain ⟨hfield, -⟩ := fresh_createLogicalEncoder (j := k) f he l hl
        refine ⟨0, f, rfl, hfield, ?_⟩
        have hmem : l.column ∈ (e'.leaves k).map Leaf.column := List.mem_map_of_mem hl
        rw [LogicalColEncoder.columns_leaves, hcols] at hmem
        exact hmem
      · obtain ⟨m, g, hg, hfield, hcolumn⟩ := column_of_mem_fieldLeaves hes hsup.2 l hl
        refine ⟨m + 1, g, hg, by omega, ?_⟩
        rwa [List.take_succ_cons, Field.nodesAll, ← Nat.add_assoc]

namespace FileWriter

variable {env : Env} {schema : List Field} {options : FileWriterOptions} {w₀ : FileWriter}

theorem owns_tryNew (hsup : Field.supportedAll schema = true)
    (h : tryNew env schema options = .ok w₀) (j : Nat) :
    w₀.point.Owns j (Field.columnsAt schema j) := by
  intro l hl
  have hcolumn : l.column ∈ Field.columnsAt schema l.field := by
    simp only [tryNew, bind_eq_ok, pure_eq_ok, Except.ok.injEq] at h
    obtain ⟨⟨es, trees, n⟩, hes, rfl⟩ := h
    obtain ⟨m, f, hf, hfield, hmem⟩ := column_of_mem_fieldLeaves hes hsup l hl
    rw [Nat.zero_add] at hfield hmem
    rw [Field.columnsAt, hfield, hf]
    exact hmem
  constructor
  · rintro rfl
    exact hcolumn
  · exact fun hmem => Field.eq_of_mem_columnsAt hcolumn hmem

/-- A new encoder holds nothing. -/
theorem held_physical {o : EncoderOptions} {dataType : DataType} {p : PhysicalColEncoder}
    (h : o.physical dataType = .ok p) : p.held = 0 := by
  unfold EncoderOptions.physical createPhysicalEncoder at h
  split at h
  · split at h
    · split at h
      all_goals
        cases h
        rfl
    · cases h
  · cases h
    rfl
  · cases h
    rfl
  · cases h

theorem counted_tryNew (h : tryNew env schema options = .ok w₀) (j : Nat) (cols : List Nat) :
    w₀.point.Counted j cols 0 := by
  obtain ⟨hleaves, -⟩ := tryNew_point h
  have hheld : ((w₀.leaves.filter fun l => decide (l.field = j)).map
      fun l => l.encoder.held).sum = 0 := by
    refine List.sum_eq_zero fun n hn => ?_
    obtain ⟨l, hl, rfl⟩ := List.mem_map.1 hn
    obtain ⟨-, dataType, hp⟩ := hleaves l (List.mem_of_mem_filter hl)
    exact held_physical hp
  simp only [tryNew, bind_eq_ok, pure_eq_ok, Except.ok.injEq] at h
  obtain ⟨⟨es, trees, n⟩, -, rfl⟩ := h
  intro c hc
  have hzero : c = .default := List.eq_of_mem_replicate (List.mem_of_getElem? hc)
  have hsize : ∀ x : Nat, ((((List.replicate n ColumnMetadata.empty)[x]?).map ColumnMetadata.size).getD 0) =
      0 := by
    intro x
    rw [List.getElem?_replicate]
    split
    · rfl
    · rfl
  have hcols : ∀ x ∈ cols.map fun x => 0 + (((List.replicate n ColumnMetadata.empty)[x]?).map
      ColumnMetadata.size).getD 0, x = 0 := by
    intro x hx
    obtain ⟨y, -, rfl⟩ := List.mem_map.1 hx
    rw [hsize]
  rw [hzero]
  show 0 = (cols.map fun x => 0 + (((List.replicate n ColumnMetadata.empty)[x]?).map
    ColumnMetadata.size).getD 0).sum + 0 + _
  rw [List.sum_eq_zero hcols]
  exact hheld.symm.trans (Nat.zero_add _).symm

/-- The sections do not touch the counters and the row groups. -/
theorem counters_of_writeSections {w : FileWriter} {t : FileWriteState} {sec : Sections}
    {p : PostscriptValues} (h : writeSections env w = .ok (t, sec, p)) :
    t.columnCounters = w.state.columnCounters ∧
      t.rowGroupsTable.rowGroupMetadata = w.state.rowGroupsTable.rowGroupMetadata := by
  obtain ⟨f, hf⟩ := writeSections_spec h
  obtain ⟨sections, htable, -⟩ := hf.sections
  refine ⟨?_, by rw [htable]⟩
  unfold writeSections at h
  simp only [bind_eq_ok, pure_eq_ok, Except.ok.injEq, Prod.mk.injEq] at h
  obtain ⟨⟨css, peers, dtypes⟩, -, positions, -, ht, -⟩ := h
  obtain ⟨records, hdicts, -⟩ := FileWriteState.flushAllDictChunks_spec env css w.state
  obtain ⟨wasms, hwasms, -⟩ := writeWasmBinaries_spec env w.wasmContext
    (w.state.appended (chunkBytes css.flatten) (css.flatten.flatMap fun c => c.numRows :: c.sizes))
  rw [hdicts] at ht
  simp only [hwasms, FileWriteState.appended_appended] at ht
  obtain ⟨metadata, sections', hindirect, -⟩ := toIndirectAndFlush_spec env
    (w.state.appended (chunkBytes css.flatten ++ (w.wasmContext.getSortedWasms.flatten ++
        env.wasmBinariesFb.build ⟨some wasms⟩))
      ((css.flatten.flatMap fun c => c.numRows :: c.sizes) ++
        (w.wasmContext.getSortedWasms.map List.length ++
          [(env.wasmBinariesFb.build ⟨some wasms⟩).length])))
  simp only [hindirect] at ht
  rw [← ht]
  rfl

variable {cs : List Call} {w w₁ w' : FileWriter} {counters : List EncodingCounter}

/-- The counters `finish` returns, and the point at which they are complete. -/
theorem counters_of_finish (hgroups : Act.Returns (finishRowGroups env) w () w₁)
    (hfinish : Act.Returns (finish env) w counters w') :
    counters = w₁.state.columnCounters ∧ (∀ v ∈ w₁.state.narrowed, v ∈ w'.state.narrowed) ∧
      ∀ c, w'.state.rowGroupsTable.columnSize c = w₁.state.rowGroupsTable.columnSize c := by
  obtain ⟨_, w₂, hgroups', hrest⟩ := (Act.returns_bind _ _ _ _ _).1 hfinish
  cases hgroups.symm.trans hgroups'
  obtain ⟨v, w₃, hget, hrest⟩ := (Act.returns_bind _ _ _ _ _).1 hrest
  obtain ⟨rfl, rfl⟩ := (Act.returns_get _ _ _).1 hget
  obtain ⟨⟨t, sec, p⟩, w₃, hlift, hrest⟩ := (Act.returns_bind _ _ _ _ _).1 hrest
  obtain ⟨hsections, rfl⟩ := (Act.returns_lift _ _ _ _).1 hlift
  obtain ⟨_, w₃, hset, hpure⟩ := (Act.returns_bind _ _ _ _ _).1 hrest
  have hw₃ := (Act.returns_set _ _ _ _).1 hset
  obtain ⟨rfl, rfl⟩ := (Act.returns_pure _ _ _ _).1 hpure
  subst hw₃
  obtain ⟨hcounters, htable⟩ := counters_of_writeSections hsections
  obtain ⟨f, hf⟩ := writeSections_spec hsections
  refine ⟨hcounters, hf.narrowed, fun c => ?_⟩
  show (t.rowGroupsTable.rowGroupMetadata.map _).sum = _
  rw [htable]
  rfl

/-- A run up to the point at which the counters are complete. -/
theorem steps_of_calls (hnew : tryNew env schema options = .ok w₀)
    (hcalls : Act.Returns (calls env cs) w₀ () w)
    (hgroups : Act.Returns (finishRowGroups env) w () w₁) :
    Steps env AnyCall w₀.point w₁.point := by
  have hgoes : Goes env Unmerged (calls env cs) := goes_forEach goes_call cs
  obtain ⟨hsteps, hw⟩ := hgoes w₀ () w (unmerged_tryNew hnew) hcalls
  exact hsteps.trans (steps_of_finishRowGroups hw hgroups)

/-- There is a counter for each column, though those behind the fields stay at zero. -/
theorem length_counters (hnew : tryNew env schema options = .ok w₀)
    (hcalls : Act.Returns (calls env cs) w₀ () w)
    (hgroups : Act.Returns (finishRowGroups env) w () w₁)
    (hfinish : Act.Returns (finish env) w counters w') :
    counters.length = w₀.state.numPhysicalColumns := by
  have hsteps := steps_of_calls hnew hcalls hgroups
  rw [(counters_of_finish hgroups hfinish).1]
  refine hsteps.length_columnCounters.trans ?_
  simp only [tryNew, bind_eq_ok, pure_eq_ok, Except.ok.injEq] at hnew
  obtain ⟨r, -, rfl⟩ := hnew
  exact List.length_replicate

/-- The counters of a run, of any schema. -/
theorem counters_spec (hsup : Field.supportedAll schema = true)
    (hnew : tryNew env schema options = .ok w₀) (hcalls : Act.Returns (calls env cs) w₀ () w)
    (hgroups : Act.Returns (finishRowGroups env) w () w₁)
    (hfinish : Act.Returns (finish env) w counters w') (hfit : w'.Fits) :
    Steps env (CallEvent.Counts env) w₀.point w₁.point ↔
      ∀ j c, counters[j]? = some c →
        c.totalSize = ((Field.columnsAt schema j).map w'.state.rowGroupsTable.columnSize).sum := by
  obtain ⟨hcounters, hnarrowed, htable⟩ := counters_of_finish hgroups hfinish
  have hfit₁ : ∀ v ∈ w₁.state.narrowed, v < 2 ^ 32 := fun v hv => hfit v (hnarrowed v hv)
  have hsize : ∀ j, w₁.point.fieldSize j (Field.columnsAt schema j) =
      ((Field.columnsAt schema j).map w'.state.rowGroupsTable.columnSize).sum := by
    intro j
    rw [fieldSize_of_finishRowGroups hgroups]
    exact congrArg List.sum (List.map_congr_left fun c _ => (htable c).symm)
  have hrun : ∀ {P : CallEvent → Prop}, Steps env P w₀.point w₁.point → _ := fun hsteps =>
    Steps.counted hsteps (Field.nodup_columnsAt schema) (owns_tryNew hsup hnew)
      (fun j => counted_tryNew hnew j _) hfit₁
  have hany := steps_of_calls hnew hcalls hgroups
  constructor
  · intro hcounts j c hc
    obtain ⟨-, lost, hcounted, -, hzero⟩ := hrun hcounts
    have hexact := hcounted j c (hcounters ▸ hc)
    rw [hzero (fun _ h => h) j, hsize] at hexact
    exact hexact
  · intro hexact
    obtain ⟨-, lost, hcounted, hcounts, -⟩ := hrun hany
    refine hcounts fun j hj => ?_
    have hget := List.getElem?_eq_getElem hj
    have hshort := hcounted j _ hget
    rw [hcounters] at hexact
    rw [hsize, ← hexact j _ hget] at hshort
    omega

end FileWriter

/-! ## Flat schemas -/

theorem Field.columnsAt_flat {schema : List Field} (hflat : flatSchema schema = true) {j : Nat}
    (hj : j < schema.length) : columnsAt schema j = [j] := by
  have htake : flatSchema (schema.take j) = true :=
    List.all_eq_true.2 fun f hf => List.all_eq_true.1 hflat f (List.mem_of_mem_take hf)
  have hget := List.getElem?_eq_getElem hj
  have hprim : (schema.get ⟨j, hj⟩).dataType.nonNest = true :=
    List.all_eq_true.1 hflat _ (List.getElem_mem hj)
  have hnodes : (schema.get ⟨j, hj⟩).nodes = 1 := by
    have hone : flatSchema [schema.get ⟨j, hj⟩] = true := by
      rw [flatSchema_cons]
      exact ⟨hprim, rfl⟩
    exact (supportedAll_of_flat hone).2
  rw [columnsAt, hget]
  show List.range' _ (schema.get ⟨j, hj⟩).nodes = _
  rw [hnodes, (supportedAll_of_flat htake).2, List.length_take, Nat.min_eq_left hj.le]
  rfl

/-- **The counters account for every byte if and only if** every call of the run
counts: the `finish` of a `GLBestEncoder` finds nothing counted, or adds. -/
theorem FileWriter.counters_account_iff {env : Env} {schema : List Field}
    {options : FileWriterOptions} {cs : List FileWriter.Call} {w₀ w w₁ w' : FileWriter}
    {counters : List EncodingCounter} (hflat : flatSchema schema = true)
    (hnew : tryNew env schema options = .ok w₀) (hcalls : Act.Returns (calls env cs) w₀ () w)
    (hgroups : Act.Returns (finishRowGroups env) w () w₁)
    (hfinish : Act.Returns (finish env) w counters w') (hfit : w'.Fits) :
    (∀ i c, counters[i]? = some c →
      c.dictSize + c.indexSize = w'.state.rowGroupsTable.columnSize i) ↔
        Steps env (CallEvent.Counts env) w₀.point w₁.point := by
  rw [counters_spec (supportedAll_of_flat hflat).1 hnew hcalls hgroups hfinish hfit]
  have hlen : counters.length = schema.length :=
    (length_counters hnew hcalls hgroups hfinish).trans
      (congrArg Fixed.numPhysicalColumns (fixed_tryNew hflat hnew))
  refine forall_congr' fun j => forall_congr' fun c => imp_congr_right fun hc => ?_
  have hj : j < schema.length := hlen ▸ (List.getElem?_eq_some_iff.1 hc).1
  rw [Field.columnsAt_flat hflat hj, List.map_singleton, List.sum_singleton]
  rfl

/-- If the run succeeds and its sizes fit: whether the counters are exact. -/
def FileWriter.runCounters (env : Env) (schema : List Field) (options : FileWriterOptions)
    (cs : List FileWriter.Call) : Option Bool :=
  match tryNew env schema options with
  | .error _ => none
  | .ok w₀ =>
      match calls env cs w₀ with
      | .error _ _ => none
      | .ok _ w =>
          match finish env w with
          | .error _ _ => none
          | .ok counters w' =>
              if w'.state.narrowed.all fun v => decide (v < 2 ^ 32) then
                some (counters.zipIdx.all fun p =>
                  decide (p.1.dictSize + p.1.indexSize = w'.state.rowGroupsTable.columnSize p.2))
              else none

theorem FileWriter.exists_of_runCounters {env : Env} {schema : List Field}
    {options : FileWriterOptions} {cs : List FileWriter.Call} {b : Bool}
    (h : runCounters env schema options cs = some b) : ∃ w₀ w w₁ w' counters,
      tryNew env schema options = .ok w₀ ∧ Act.Returns (calls env cs) w₀ () w ∧
        Act.Returns (finishRowGroups env) w () w₁ ∧ Act.Returns (finish env) w counters w' ∧
          w'.Fits ∧ (b = true ↔ ∀ i c, counters[i]? = some c →
            c.dictSize + c.indexSize = w'.state.rowGroupsTable.columnSize i) := by
  unfold runCounters at h
  split at h
  · cases h
  · next w₀ hnew =>
      split at h
      · cases h
      · next u w hcalls =>
          split at h
          · cases h
          · next counters w' hfinish =>
              split at h
              · next hfits =>
                  cases h
                  obtain ⟨_, w₁, hgroups, -⟩ := (Act.returns_bind _ _ _ _ _).1 hfinish
                  refine ⟨w₀, w, w₁, w', counters, hnew, hcalls, hgroups, hfinish, ?_, ?_⟩
                  · exact fun v hv => of_decide_eq_true (List.all_eq_true.1 hfits v hv)
                  · rw [List.all_eq_true]
                    constructor
                    · intro hall i c hc
                      exact of_decide_eq_true (hall (c, i) (List.mem_zipIdx_iff_getElem?.2 hc))
                    · rintro hall ⟨c, i⟩ hmem
                      exact decide_eq_true (hall i c (List.mem_zipIdx_iff_getElem?.1 hmem))
              · cases h

namespace Sample

/-- The better of the two kinds of dictionaries, without sampling. -/
def glBestOptions : FileWriterOptions :=
  { FileWriterOptions.default with dictionaryType := .glBest none }

/-- Two batches, each in chunks of its own. -/
def twoFinishes : List FileWriter.Call :=
  [.writeBatch nullBatch, .flushPendingChunks, .writeBatch nullBatch]

theorem runCounters_once : FileWriter.runCounters env nullSchema glBestOptions
    [.writeBatch nullBatch] = some true := by
  decide +kernel

theorem runCounters_twice : FileWriter.runCounters env nullSchema glBestOptions twoFinishes =
    some false := by
  decide +kernel

end Sample

theorem FileWriter.counters_account_iff_sample : ∃ w₀ w w₁ w' counters,
    tryNew Sample.env Sample.nullSchema Sample.glBestOptions = .ok w₀ ∧
    Act.Returns (calls Sample.env [.writeBatch Sample.nullBatch]) w₀ () w ∧
    Act.Returns (finishRowGroups Sample.env) w () w₁ ∧
    Act.Returns (finish Sample.env) w counters w' ∧
    ((∀ i c, counters[i]? = some c →
      c.dictSize + c.indexSize = w'.state.rowGroupsTable.columnSize i) ↔
        Steps Sample.env (CallEvent.Counts Sample.env) w₀.point w₁.point) := by
  obtain ⟨w₀, w, w₁, w', counters, hnew, hcalls, hgroups, hfinish, hfits, -⟩ :=
    exists_of_runCounters Sample.runCounters_once
  exact ⟨w₀, w, w₁, w', counters, hnew, hcalls, hgroups, hfinish,
    counters_account_iff (by decide) hnew hcalls hgroups hfinish hfits⟩

/-- The second `finish` of the encoder forgets what the first one counted. -/
theorem FileWriter.counters_lose_bytes : ∃ w₀ w w' counters,
    tryNew Sample.env Sample.nullSchema Sample.glBestOptions = .ok w₀ ∧
    Act.Returns (calls Sample.env Sample.twoFinishes) w₀ () w ∧
    Act.Returns (finish Sample.env) w counters w' ∧ w'.Fits ∧
    ¬ ∀ i c, counters[i]? = some c →
      c.dictSize + c.indexSize = w'.state.rowGroupsTable.columnSize i := by
  obtain ⟨w₀, w, w₁, w', counters, hnew, hcalls, -, hfinish, hfits, hexact⟩ :=
    exists_of_runCounters Sample.runCounters_twice
  exact ⟨w₀, w, w', counters, hnew, hcalls, hfinish, hfits,
    fun hall => Bool.false_ne_true (hexact.2 hall)⟩

/-! ## Modes without a choice -/

/-- The encoder chooses between global and local dictionaries. -/
def PhysicalColEncoder.chooses : PhysicalColEncoder → Bool
  | glBest _ => true
  | _ => false

section Modes

variable {env : Env} {P : CallEvent → Prop} {a b : Point}

theorem PhysicalColEncoder.Method.chooses_eq {p : PhysicalColEncoder}
    {x : EncAct PhysicalColEncoder (List EncodedColumnChunk)} (hx : p.Method env x)
    {s t : Working PhysicalColEncoder} {chunks : List EncodedColumnChunk} (hs : s.enc = p)
    (h : x s = .ok chunks t) : t.enc.chooses = p.chooses := by
  cases hx with
  | encode array _ =>
      rw [PhysicalColEncoder.encode, Act.get_bind, hs] at h
      cases p with
      | encoderDict e => obtain ⟨u, -, rfl⟩ := delegate_eq_ok h; rfl
      | dict e => obtain ⟨u, -, rfl⟩ := delegate_eq_ok h; rfl
      | sharedDict e => obtain ⟨u, -, rfl⟩ := delegate_eq_ok h; rfl
      | glBest e => obtain ⟨u, -, rfl⟩ := delegate_eq_ok h; rfl
  | finish =>
      rw [PhysicalColEncoder.finish, Act.get_bind, hs] at h
      cases p with
      | encoderDict e => obtain ⟨u, -, rfl⟩ := delegate_eq_ok h; rfl
      | dict e => obtain ⟨u, -, rfl⟩ := delegate_eq_ok h; rfl
      | sharedDict e => obtain ⟨u, -, rfl⟩ := delegate_eq_ok h; rfl
      | glBest e => obtain ⟨u, -, rfl⟩ := delegate_eq_ok h; rfl

theorem PhysicalColEncoder.submitDict_chooses {s t : Working PhysicalColEncoder} {u : Unit}
    (h : submitDict s = .ok u t) : t.enc.chooses = s.enc.chooses := by
  rw [submitDict, Act.get_bind] at h
  cases hs : s.enc with
  | sharedDict e => rw [hs] at h; obtain ⟨r, -, rfl⟩ := delegate_eq_ok h; rfl
  | encoderDict e => rw [hs] at h; cases h; rw [hs]
  | dict e => rw [hs] at h; cases h; rw [hs]
  | glBest e => rw [hs] at h; cases h; rw [hs]

/-- No encoder of the point chooses. -/
def Point.Unchoosing (p : Point) : Prop := ∀ l ∈ p.leaves, l.encoder.chooses = false

theorem Point.Unchoosing.replace {pre post : List Leaf} {l l' : Leaf} {p p' : Point} (h : p.Unchoosing)
    (hp : p.leaves = pre ++ l :: post) (hp' : p'.leaves = pre ++ l' :: post)
    (hl : l'.encoder.chooses = l.encoder.chooses) : p'.Unchoosing := by
  intro x hx
  rw [hp'] at hx
  have hmem : ∀ y ∈ pre ++ l :: post, y.encoder.chooses = false := hp ▸ h
  rcases List.mem_append.1 hx with hpre | hpost
  · exact hmem x (List.mem_append_left _ hpre)
  · rcases List.mem_cons.1 hpost with rfl | hpost
    · exact hl.trans (hmem l (List.mem_append_right _ List.mem_cons_self))
    · exact hmem x (List.mem_append_right _ (List.mem_cons_of_mem _ hpost))

theorem Step.unchoosing (hstep : Step env P a b) (h : a.Unchoosing) : b.Unchoosing := by
  cases hstep with
  | call e hruns hP hcounter =>
      exact h.replace rfl rfl (hruns.method.chooses_eq hruns.encoder hruns.returns)
  | submitDict hencoder hnone hrun =>
      exact h.replace rfl rfl (hencoder ▸ PhysicalColEncoder.submitDict_chooses hrun)
  | mergeDicts hnil hrun => exact h
  | flushChunk hrun => exact h
  | addRows n => exact h
  | finishRowGroup => exact h

/-- Where no encoder chooses every step counts. -/
theorem Step.counts (hstep : Step env P a b) (h : a.Unchoosing) :
    Step env (CallEvent.Counts env) a b := by
  cases hstep with
  | call e hruns hP hcounter =>
      refine .call e hruns ?_ hcounter
      rintro ⟨-, g, henc, -⟩
      have hleaf := h e.leaf (List.mem_append_right _ List.mem_cons_self)
      rw [← hruns.encoder, henc] at hleaf
      cases hleaf
  | submitDict hencoder hnone hrun => exact .submitDict hencoder hnone hrun
  | mergeDicts hnil hrun => exact .mergeDicts hnil hrun
  | flushChunk hrun => exact .flushChunk hrun
  | addRows n => exact .addRows n
  | finishRowGroup => exact .finishRowGroup

theorem Steps.counts (hsteps : Steps env P a b) (h : a.Unchoosing) :
    Steps env (CallEvent.Counts env) a b ∧ b.Unchoosing := by
  induction hsteps with
  | refl => exact ⟨.refl, h⟩
  | tail _ hstep ih => exact ⟨ih.1.tail (hstep.counts ih.2), hstep.unchoosing ih.2⟩

end Modes

namespace FileWriter

variable {env : Env} {schema : List Field} {options : FileWriterOptions} {cs : List Call}
  {w₀ w w₁ w' : FileWriter} {counters : List EncodingCounter}

theorem chooses_physical {o : EncoderOptions} {dataType : DataType} {p : PhysicalColEncoder}
    (hmode : ∀ sampleSize, o.dictionaryType ≠ .glBest sampleSize)
    (h : o.physical dataType = .ok p) : p.chooses = false := by
  unfold EncoderOptions.physical createPhysicalEncoder at h
  split at h
  · split at h
    · split at h
      case h_7 sampleSize hglBest => exact absurd hglBest (hmode sampleSize)
      all_goals
        cases h
        rfl
    · cases h
  · cases h
    rfl
  · cases h
    rfl
  · cases h

theorem unchoosing_tryNew (hmode : ∀ sampleSize, options.dictionaryType ≠ .glBest sampleSize)
    (h : tryNew env schema options = .ok w₀) : w₀.point.Unchoosing := by
  intro l hl
  obtain ⟨-, dataType, hp⟩ := (tryNew_point h).1 l hl
  exact chooses_physical hmode hp

/-- **In every other mode the counters account for every byte**, also of the
columns of nested fields. -/
theorem counters_account (hsup : Field.supportedAll schema = true)
    (hmode : ∀ sampleSize, options.dictionaryType ≠ .glBest sampleSize)
    (hnew : tryNew env schema options = .ok w₀) (hcalls : Act.Returns (calls env cs) w₀ () w)
    (hfinish : Act.Returns (finish env) w counters w') (hfit : w'.Fits) :
    ∀ j c, counters[j]? = some c → c.dictSize + c.indexSize =
      ((Field.columnsAt schema j).map w'.state.rowGroupsTable.columnSize).sum := by
  obtain ⟨_, w₁, hgroups, -⟩ := (Act.returns_bind _ _ _ _ _).1 hfinish
  have hsteps := (Steps.counts (steps_of_calls hnew hcalls hgroups) (unchoosing_tryNew hmode hnew)).1
  exact (counters_spec hsup hnew hcalls hgroups hfinish hfit).1 hsteps

theorem counters_account_sample : ∃ w₀ w w' counters,
    tryNew Sample.env Sample.structSchema Sample.dictionaryOptions = .ok w₀ ∧
    Act.Returns (calls Sample.env [.writeBatch Sample.structBatch]) w₀ () w ∧
    Act.Returns (finish Sample.env) w counters w' ∧
    ∀ j c, counters[j]? = some c → c.dictSize + c.indexSize =
      ((Field.columnsAt Sample.structSchema j).map w'.state.rowGroupsTable.columnSize).sum := by
  have hrun : runCounters Sample.env Sample.structSchema Sample.dictionaryOptions
      [.writeBatch Sample.structBatch] = some false := by
    decide +kernel
  obtain ⟨w₀, w, w₁, w', counters, hnew, hcalls, -, hfinish, hfits, -⟩ :=
    exists_of_runCounters hrun
  exact ⟨w₀, w, w', counters, hnew, hcalls, hfinish,
    counters_account (by decide) (fun _ h => by cases h) hnew hcalls hfinish hfits⟩

end FileWriter

end F3Format
