import F3Format.EncodedUnits
import F3Format.FileLayout

/-!
# Invariants of the writer

The methods of the writer reach its write state through four operations: a
chunk is flushed, rows are added, a row group is finished, and an encoder
updates its counter. What these keep, every run keeps, on success and on
failure (`RunInvariant`, and `StateInvariant` where the chunks do not matter).
`Sound` is the first such invariant: the checksum covers the bytes written, and
every row group has one metadata for each physical column.
-/

set_option autoImplicit false

namespace F3Format

open Lib

/-- What every step of a run keeps: `J` of the encoders, `Q` of the chunks they
return, and `I` of the write state. -/
structure RunInvariant (env : Env) (J : LogicalColEncoder → Prop) (Q : EncodedColumnChunk → Prop)
    (I : FileWriteState → Prop) : Prop where
  encode : ∀ (e : LogicalColEncoder) (array : ArrayRef) (s : Shared), J e →
    EncResult.Gives J (fun res => ∀ c ∈ res.getD [], Q c) (e.encode env array s)
  finish : ∀ (e : LogicalColEncoder) (s : Shared), J e →
    EncResult.Gives J (fun res => ∀ c ∈ res.getD [], Q c) (e.finish env s)
  submitDict : ∀ (e : LogicalColEncoder) (s : Shared), J e →
    EncResult.Gives J (fun _ => True) (e.submitDict s)
  flushChunk : ∀ s t c, Q c → I s → s.flushChunk env c = .ok t → I t
  addRows : ∀ s n, I s → I (s.addRows n)
  finishRowGroup : ∀ s, I s → I s.finishRowGroup
  counters : ∀ s cs, I s → I { s with columnCounters := cs }

namespace RunInvariant

variable {env : Env} {J : LogicalColEncoder → Prop} {Q : EncodedColumnChunk → Prop}
  {I : FileWriteState → Prop}

/-- The properties of the encoders and of the state, as one of the writer. -/
def Holds (J : LogicalColEncoder → Prop) (I : FileWriteState → Prop) (w : FileWriter) : Prop :=
  (∀ e ∈ w.columnEncoders, J e) ∧ I w.state

theorem maintains_onState {f : FileWriteState → Result FileWriteState}
    (hf : ∀ s t, I s → f s = .ok t → I t) :
    Act.Maintains (Holds J I) (fun _ => True) (FileWriter.onState f) := by
  apply Act.maintains_get_bind
  intro w hw
  apply Act.maintains_bind (Act.maintains_lift (P := I) fun s hs => hf w.state s hw.2 hs)
  intro s hs w' _
  exact ⟨fun _ _ => trivial, hw.1, hs⟩

/-- The encoders after one of them is replaced. -/
theorem forall_mem_set {es : List LogicalColEncoder} (hes : ∀ e ∈ es, J e) (i : Nat)
    {e : LogicalColEncoder} (he : J e) : ∀ e' ∈ es.set i e, J e' := by
  intro e' he'
  rcases List.mem_or_eq_of_mem_set he' with hmem | rfl
  · exact hes e' hmem
  · exact he

theorem maintains_callEncoder (hI : RunInvariant env J Q I) {α : Type} {R : α → Prop} (i : Nat)
    {x : LogicalColEncoder → Shared → EncResult LogicalColEncoder α}
    (hx : ∀ e s, J e → EncResult.Gives J R (x e s)) :
    Act.Maintains (Holds J I) R (FileWriter.callEncoder i x) := by
  rintro w ⟨hes, hs⟩
  unfold FileWriter.callEncoder
  split
  · next e c he _ =>
      have hcall := hx e ⟨(), c, w.sharedDictionaryContext, w.rng⟩
        (hes e (List.mem_of_getElem? he))
      split
      · next a t hrun =>
          rw [hrun, EncResult.gives_ok] at hcall
          refine ⟨?_, forall_mem_set hes i hcall.2, hI.counters _ _ hs⟩
          rintro _ ⟨⟩
          exact hcall.1
      · next f t hrun =>
          rw [hrun, EncResult.gives_error] at hcall
          refine ⟨?_, forall_mem_set hes i hcall, hI.counters _ _ hs⟩
          rintro _ ⟨⟩
  · refine ⟨?_, hes, hs⟩
    rintro _ ⟨⟩

theorem maintains_flushChunks (hI : RunInvariant env J Q I)
    {res : Option (List EncodedColumnChunk)} (hres : ∀ c ∈ res.getD [], Q c) :
    Act.Maintains (Holds J I) (fun _ => True) (FileWriter.flushChunks env res) :=
  Act.maintains_forEach_of_mem fun c hc =>
    maintains_onState fun s t hs ht => hI.flushChunk s t c (hres c hc) hs ht

theorem maintains_encodeArray (hI : RunInvariant env J Q I) (i : Nat) (col : ArrayRef) :
    Act.Maintains (Holds J I) (fun _ => True) (FileWriter.encodeArray env i col) :=
  Act.maintains_bind (hI.maintains_callEncoder i fun e s he => hI.encode e col s he)
    fun _ hres => hI.maintains_flushChunks hres

theorem maintains_writeColumn (hI : RunInvariant env J Q I) (numRows : Nat) (p : ArrayRef × Nat) :
    Act.Maintains (Holds J I) (fun _ => True) (FileWriter.writeColumn env numRows p) := by
  apply Act.maintains_get_bind
  intro w _
  split
  · exact hI.maintains_encodeArray p.2 p.1
  · split
    · exact Act.maintains_throw _
    · split
      · exact Act.maintains_throw _
      · exact Act.maintains_forEach (fun j => hI.maintains_encodeArray p.2 _) _

theorem maintains_flushPendingChunks (hI : RunInvariant env J Q I) :
    Act.Maintains (Holds J I) (fun _ => True) (FileWriter.flushPendingChunks env) := by
  apply Act.maintains_get_bind
  intro w _
  exact Act.maintains_forEach (fun i => Act.maintains_bind
    (hI.maintains_callEncoder i fun e s he => hI.finish e s he)
    fun _ hres => hI.maintains_flushChunks hres) _

theorem maintains_finishRowGroup (hI : RunInvariant env J Q I) :
    Act.Maintains (Holds J I) (fun _ => True)
      (FileWriter.onState fun s => .ok s.finishRowGroup) := by
  apply maintains_onState
  rintro s t hs ⟨⟩
  exact hI.finishRowGroup s hs

theorem maintains_writeBatch (hI : RunInvariant env J Q I) (batch : RecordBatch) :
    Act.Maintains (Holds J I) (fun _ => True) (FileWriter.writeBatch env batch) := by
  apply Act.maintains_bind (Act.maintains_forEach (hI.maintains_writeColumn batch.numRows) _)
  intro _ _
  apply Act.maintains_bind (P := fun _ => True)
  · apply maintains_onState
    rintro s t hs ⟨⟩
    exact hI.addRows s batch.numRows hs
  · intro _ _
    apply Act.maintains_get_bind
    intro w _
    split
    · exact Act.maintains_bind hI.maintains_flushPendingChunks fun _ _ =>
        hI.maintains_finishRowGroup
    · exact Act.maintains_pure trivial

/-- Every call of a run keeps the property. -/
theorem maintains_call (hI : RunInvariant env J Q I) (c : FileWriter.Call) :
    Act.Maintains (Holds J I) (fun _ => True) (FileWriter.call env c) := by
  cases c with
  | writeBatch batch => exact hI.maintains_writeBatch batch
  | flushPendingChunks => exact hI.maintains_flushPendingChunks

/-- The dictionaries are submitted without touching the write state. -/
theorem maintains_submitDict (hI : RunInvariant env J Q I) (i : Nat) :
    Act.Maintains (Holds J I) (fun _ => True) (FileWriter.submitDict i) := by
  rintro w ⟨hes, hs⟩
  refine ⟨fun _ _ => trivial, ?_⟩
  unfold FileWriter.submitDict
  split
  · exact ⟨hes, hs⟩
  · next e he =>
      have hcall := hI.submitDict e ⟨(), .default, w.sharedDictionaryContext, w.rng⟩
        (hes e (List.mem_of_getElem? he))
      split
      · next a t hrun =>
          rw [hrun] at hcall
          exact ⟨forall_mem_set hes i hcall.2, hs⟩
      · next f t hrun =>
          rw [hrun] at hcall
          exact ⟨forall_mem_set hes i hcall.2, hs⟩

theorem maintains_submitAndMerge (hI : RunInvariant env J Q I) :
    Act.Maintains (Holds J I) (fun _ => True) (FileWriter.submitAndMerge env) := by
  apply Act.maintains_get_bind
  intro w _
  split
  · refine Act.maintains_bind (P := fun _ => True)
      (Act.maintains_forEach hI.maintains_submitDict _) ?_
    intro _ _
    apply Act.maintains_get_bind
    intro w hw
    apply Act.maintains_bind (Act.maintains_lift (P := fun _ => True) fun _ _ => trivial)
    intro ctx _ w' _
    exact ⟨fun _ _ => trivial, hw⟩
  · exact Act.maintains_pure trivial

/-- The row groups of `finish` keep the property. -/
theorem maintains_finishRowGroups (hI : RunInvariant env J Q I) :
    Act.Maintains (Holds J I) (fun _ => True) (FileWriter.finishRowGroups env) := by
  apply Act.maintains_bind hI.maintains_submitAndMerge
  intro _ _
  exact Act.maintains_bind hI.maintains_flushPendingChunks fun _ _ => hI.maintains_finishRowGroup

end RunInvariant

/-- A property of the write state that the operations of the writer keep. -/
structure StateInvariant (env : Env) (I : FileWriteState → Prop) : Prop where
  flushChunk : ∀ s t c, I s → s.flushChunk env c = .ok t → I t
  addRows : ∀ s n, I s → I (s.addRows n)
  finishRowGroup : ∀ s, I s → I s.finishRowGroup
  counters : ∀ s cs, I s → I { s with columnCounters := cs }

namespace StateInvariant

variable {env : Env} {I : FileWriteState → Prop}

/-- The property of the state, as one of the writer. -/
def Holds (I : FileWriteState → Prop) (w : FileWriter) : Prop := I w.state

/-- It asks nothing of the encoders and their chunks. -/
theorem runInvariant (hI : StateInvariant env I) :
    RunInvariant env (fun _ => True) (fun _ => True) I where
  encode := fun _ _ _ _ => ⟨fun _ _ _ _ => trivial, trivial⟩
  finish := fun _ _ _ => ⟨fun _ _ _ _ => trivial, trivial⟩
  submitDict := fun _ _ _ => ⟨fun _ _ => trivial, trivial⟩
  flushChunk := fun s t c _ hs ht => hI.flushChunk s t c hs ht
  addRows := hI.addRows
  finishRowGroup := hI.finishRowGroup
  counters := hI.counters

/-- Every call of a run keeps the property. -/
theorem maintains_call (hI : StateInvariant env I) (c : FileWriter.Call) :
    Act.Maintains (Holds I) (fun _ => True) (FileWriter.call env c) := by
  intro w hw
  have hcall := hI.runInvariant.maintains_call c w ⟨fun _ _ => trivial, hw⟩
  exact ⟨hcall.1, hcall.2.2⟩

/-- The row groups of `finish` keep the property. -/
theorem maintains_finishRowGroups (hI : StateInvariant env I) :
    Act.Maintains (Holds I) (fun _ => True) (FileWriter.finishRowGroups env) := by
  intro w hw
  have hgroups := hI.runInvariant.maintains_finishRowGroups w ⟨fun _ _ => trivial, hw⟩
  exact ⟨hgroups.1, hgroups.2.2⟩

end StateInvariant

/-! ## A sound write state -/

/-- The checksum covers what is written, no section of column metadata is
recorded yet, and every row group has one metadata for each physical column. -/
structure FileWriteState.Sound (s : FileWriteState) : Prop where
  checksum : s.dataChecksum = s.writer
  indirect : s.rowGroupsTable.indirectRowGroupMetadata = []
  current : s.columnMetadatasInCurRowGroup.length = s.numPhysicalColumns
  groups : ∀ g ∈ s.rowGroupsTable.rowGroupMetadata, g.colMetadatas.length = s.numPhysicalColumns

/-- Flushing a chunk appends its bytes and adds its record to a column. -/
theorem FileWriteState.flushChunk_eq_ok {env : Env} {s t : FileWriteState}
    {c : EncodedColumnChunk} :
    s.flushChunk env c = .ok t ↔
      ∃ m, s.columnMetadatasInCurRowGroup[c.columnIndex]? = some m ∧
        t = { s.appended c.bytes c.sizes with
          columnMetadatasInCurRowGroup := s.columnMetadatasInCurRowGroup.set c.columnIndex
            (m.addChunk (c.record env s.enableIoUnitChecksum s.writer.length)) } := by
  simp only [flushChunk, flushChunkAndGetMetadata_spec, bind_eq_ok, index_eq_ok, pure_eq_ok,
    Except.ok.injEq]
  constructor
  · rintro ⟨m, hm, rfl⟩
    exact ⟨m, hm, rfl⟩
  · rintro ⟨m, hm, rfl⟩
    exact ⟨m, hm, rfl⟩

theorem stateInvariant_sound (env : Env) : StateInvariant env FileWriteState.Sound where
  flushChunk := by
    intro s t c hs ht
    obtain ⟨m, -, rfl⟩ := FileWriteState.flushChunk_eq_ok.1 ht
    refine ⟨?_, hs.indirect, ?_, hs.groups⟩
    · show s.dataChecksum ++ c.bytes = s.writer ++ c.bytes
      rw [hs.checksum]
    · show (s.columnMetadatasInCurRowGroup.set _ _).length = _
      rw [List.length_set]
      exact hs.current
  addRows := fun s n hs => ⟨hs.checksum, hs.indirect, hs.current, hs.groups⟩
  finishRowGroup := by
    intro s hs
    refine ⟨hs.checksum, hs.indirect, List.length_replicate, ?_⟩
    intro g hg
    rcases List.mem_append.1 hg with hg | hg
    · exact hs.groups g hg
    · rw [List.mem_singleton] at hg
      subst hg
      exact hs.current
  counters := fun s cs hs => ⟨hs.checksum, hs.indirect, hs.current, hs.groups⟩

namespace FileWriter

/-- A new writer is sound. -/
theorem sound_tryNew {env : Env} {schema : List Field} {options : FileWriterOptions}
    {w : FileWriter} (h : tryNew env schema options = .ok w) : w.state.Sound := by
  simp only [tryNew, bind_eq_ok, pure_eq_ok, Except.ok.injEq] at h
  obtain ⟨r, -, rfl⟩ := h
  refine ⟨rfl, rfl, List.length_replicate, ?_⟩
  intro g hg
  cases hg

theorem sound_of_reaches {env : Env} {schema : List Field} {options : FileWriterOptions}
    {cs : List Call} {w : FileWriter} (h : Reaches env schema options cs w) : w.state.Sound := by
  obtain ⟨w₀, hnew, hrun⟩ := h
  exact ((Act.maintains_forEach (stateInvariant_sound env).maintains_call cs).returns
    (sound_tryNew hnew) hrun).2

/-- What a successful call of an encoder leaves. -/
theorem returns_callEncoder {α : Type} {i : Nat}
    {x : LogicalColEncoder → Shared → EncResult LogicalColEncoder α} {w w' : FileWriter} {a : α}
    (h : Act.Returns (callEncoder i x) w a w') : ∃ e c t, w.columnEncoders[i]? = some e ∧
      w.state.columnCounters[i]? = some c ∧
      x e ⟨(), c, w.sharedDictionaryContext, w.rng⟩ = .ok a t ∧ w' = w.putBack i t := by
  unfold Act.Returns callEncoder at h
  split at h
  · next e c he hc =>
      split at h
      · next b t hrun =>
          cases h
          exact ⟨e, c, t, he, hc, hrun, rfl⟩
      · cases h
  · cases h

/-- What a successful step on the write state leaves. -/
theorem returns_onState {f : FileWriteState → Result FileWriteState} {w w' : FileWriter}
    {u : Unit} (h : Act.Returns (onState f) w u w') :
    ∃ s, f w.state = .ok s ∧ w' = { w with state := s } := by
  obtain ⟨v, w₁, hget, hrest⟩ := (Act.returns_bind _ _ _ _ _).1 h
  obtain ⟨rfl, rfl⟩ := (Act.returns_get _ _ _).1 hget
  obtain ⟨s, w₂, hlift, hset⟩ := (Act.returns_bind _ _ _ _ _).1 hrest
  obtain ⟨hs, rfl⟩ := (Act.returns_lift _ _ _ _).1 hlift
  exact ⟨s, hs, ((Act.returns_set _ _ _ _).1 hset).symm⟩

/-! ## Finished runs -/

/-- A finished run with the state `w₁` in which `finish` starts to write the
sections, and what it wrote. -/
structure FinishesWith (env : Env) (schema : List Field) (options : FileWriterOptions)
    (cs : List Call) (w : FileWriter) (w₁ : FileWriter) (sec : Sections) (p : PostscriptValues) :
    Prop where
  rowGroups : ∃ w₀, Reaches env schema options cs w₀ ∧ Act.Returns (finishRowGroups env) w₀ () w₁
  sections : writeSections env w₁ = .ok (w.state, sec, p)
  final : w = { w₁ with state := w.state }

theorem finishes_iff {env : Env} {schema : List Field} {options : FileWriterOptions}
    {cs : List Call} {w : FileWriter} :
    Finishes env schema options cs w ↔ ∃ w₁ sec p, FinishesWith env schema options cs w w₁ sec p := by
  constructor
  · rintro ⟨w₀, counters, hreach, hfinish⟩
    obtain ⟨_, w₁, hgroups, hrest⟩ := (Act.returns_bind _ _ _ _ _).1 hfinish
    obtain ⟨w', w'', hget, hrest⟩ := (Act.returns_bind _ _ _ _ _).1 hrest
    obtain ⟨rfl, rfl⟩ := (Act.returns_get _ _ _).1 hget
    obtain ⟨⟨t, sec, p⟩, w', hlift, hset⟩ := (Act.returns_bind _ _ _ _ _).1 hrest
    obtain ⟨hsections, rfl⟩ := (Act.returns_lift _ _ _ _).1 hlift
    obtain ⟨_, w', hstate, hpure⟩ := (Act.returns_bind _ _ _ _ _).1 hset
    have hw' := (Act.returns_set _ _ _ _).1 hstate
    obtain ⟨-, rfl⟩ := (Act.returns_pure _ _ _ _).1 hpure
    subst hw'
    exact ⟨w₁, sec, p, ⟨w₀, hreach, hgroups⟩, hsections, rfl⟩
  · rintro ⟨w₁, sec, p, ⟨w₀, hreach, hgroups⟩, hsections, hfinal⟩
    refine ⟨w₀, w.state.columnCounters, hreach, ?_⟩
    refine (Act.returns_bind _ _ _ _ _).2 ⟨(), w₁, hgroups, ?_⟩
    refine (Act.returns_bind _ _ _ _ _).2 ⟨w₁, w₁, (Act.returns_get _ _ _).2 ⟨rfl, rfl⟩, ?_⟩
    refine (Act.returns_bind _ _ _ _ _).2
      ⟨(w.state, sec, p), w₁, (Act.returns_lift _ _ _ _).2 ⟨hsections, rfl⟩, ?_⟩
    refine (Act.returns_bind _ _ _ _ _).2 ⟨(), w, (Act.returns_set _ _ _ _).2 hfinal.symm, ?_⟩
    exact (Act.returns_pure _ _ _ _).2 ⟨rfl, rfl⟩

/-! ## Runs as computations -/

/-- The calls, then `finish`. -/
def session (env : Env) (cs : List Call) : WriterAct Unit := do
  calls env cs
  let _ ← finish env
  pure ()

/-- The writer after a run, for a run that succeeds. -/
def run (env : Env) (schema : List Field) (options : FileWriterOptions) (cs : List Call) :
    Result FileWriter := do
  let w ← tryNew env schema options
  let _ ← Act.outcome (session env cs w)
  pure (Act.left (session env cs w))

theorem finishes_of_run {env : Env} {schema : List Field} {options : FileWriterOptions}
    {cs : List Call} {w : FileWriter} (h : run env schema options cs = .ok w) :
    Finishes env schema options cs w := by
  simp only [run, bind_eq_ok, pure_eq_ok, Except.ok.injEq] at h
  obtain ⟨w₀, hnew, _, hout, rfl⟩ := h
  have hsession : Act.Returns (session env cs) w₀ () (Act.left (session env cs w₀)) := by
    unfold Act.Returns
    cases hx : session env cs w₀ with
    | ok a t => rfl
    | error e t =>
        rw [hx] at hout
        cases hout
  obtain ⟨_, w₁, hcalls, hrest⟩ := (Act.returns_bind _ _ _ _ _).1 hsession
  obtain ⟨counters, w₂, hfinish, hpure⟩ := (Act.returns_bind _ _ _ _ _).1 hrest
  obtain ⟨-, hw₂⟩ := (Act.returns_pure _ _ _ _).1 hpure
  rw [← hw₂]
  exact ⟨w₁, counters, ⟨w₀, hnew, hcalls⟩, hfinish⟩

/-- The run succeeds and what it narrows fits. -/
def runFits (env : Env) (schema : List Field) (options : FileWriterOptions) (cs : List Call) :
    Bool :=
  match run env schema options cs with
  | .ok w => w.state.narrowed.all fun v => decide (v < 2 ^ 32)
  | .error _ => false

theorem fits_of_runFits {env : Env} {schema : List Field} {options : FileWriterOptions}
    {cs : List Call} (h : runFits env schema options cs = true) {w : FileWriter}
    (hw : run env schema options cs = .ok w) : w.Fits := by
  simp only [runFits, hw] at h
  intro v hv
  exact of_decide_eq_true (List.all_eq_true.1 h v hv)

theorem exists_of_runFits {env : Env} {schema : List Field} {options : FileWriterOptions}
    {cs : List Call} (h : runFits env schema options cs = true) :
    ∃ w, Finishes env schema options cs w ∧ w.Fits := by
  cases hrun : run env schema options cs with
  | ok w => exact ⟨w, finishes_of_run hrun, fits_of_runFits h hrun⟩
  | error f =>
      simp only [runFits, hrun] at h
      cases h

namespace FinishesWith

variable {env : Env} {schema : List Field} {options : FileWriterOptions} {cs : List Call}
  {w w₁ : FileWriter} {sec : Sections} {p : PostscriptValues}

/-- When the sections are written, the state is sound and has a row group. -/
theorem sound (h : FinishesWith env schema options cs w w₁ sec p) :
    w₁.state.Sound ∧ w₁.state.rowGroupsTable.rowGroupMetadata ≠ [] := by
  obtain ⟨w₀, hreach, hgroups⟩ := h.rowGroups
  refine ⟨((stateInvariant_sound env).maintains_finishRowGroups.returns
    (sound_of_reaches hreach) hgroups).2, ?_⟩
  obtain ⟨_, w', -, hrest⟩ := (Act.returns_bind _ _ _ _ _).1 hgroups
  obtain ⟨_, w'', -, hrest⟩ := (Act.returns_bind _ _ _ _ _).1 hrest
  obtain ⟨v, w₃, hget, hrest⟩ := (Act.returns_bind _ _ _ _ _).1 hrest
  obtain ⟨rfl, rfl⟩ := (Act.returns_get _ _ _).1 hget
  obtain ⟨s, w₄, hlift, hset⟩ := (Act.returns_bind _ _ _ _ _).1 hrest
  obtain ⟨hs, rfl⟩ := (Act.returns_lift _ _ _ _).1 hlift
  cases hs
  have hw₁ := (Act.returns_set _ _ _ _).1 hset
  subst hw₁
  simp [FileWriteState.finishRowGroup, RowGroupsTable.addMeta]

end FinishesWith

end FileWriter

end F3Format
