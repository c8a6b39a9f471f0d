import F3Format.EncoderScopes

/-!
# Units that the column encoders push

What holds of a unit wherever an encoder pushes one (`PushSites`) holds of every
unit a column encoder emits, in any run: of the units it has buffered, and of
those it makes when a scope ends. This is shown for the physical encoders one by
one, then behind their trait, and then for the trees of logical encoders.
-/

set_option autoImplicit false

namespace F3Format

open Lib Lib.Cutting PushedUnits

/-- `P` holds of every unit of the chunks. -/
def AllUnits (P : SerializedEncUnit → Prop) (cs : List EncodedColumnChunk) : Prop :=
  ∀ c ∈ cs, ∀ u ∈ c.encunits, P u

/-- `P` holds of the units that are pushed in the context `w`, at any site. -/
structure PushSites (env : Env) (w : WASMWritingContext) (P : SerializedEncUnit → Prop) :
    Prop where
  encUnit : ∀ (enableDict : Bool) (c : CompressionType) (array : ArrayRef) (u : SerializedEncUnit),
    encodeEncUnit env w enableDict c c array.dataType array = .ok u → P u
  dict : ∀ (c : CompressionType) (array : ArrayRef)
    (r : SerializedEncUnit × SerializedEncUnit × Nat),
    DictColEncoder.units env w c array = .ok r → P r.1 ∧ P r.2.1

section Units

variable {env : Env} {w : WASMWritingContext} {P : SerializedEncUnit → Prop}

theorem allUnits_nil : AllUnits P [] := by
  intro c hc
  cases hc

/-- A chunk of pushed units. -/
theorem units_chunkOf {l : DictionaryEncoding} {items : List PushedUnits}
    (h : ∀ q ∈ items, ∀ u ∈ q.units, P u) : ∀ u ∈ (chunkOf (l, items)).encunits, P u := by
  intro u hu
  obtain ⟨us, hus, hmem⟩ := List.mem_flatten.1 hu
  obtain ⟨q, hq, rfl⟩ := List.mem_map.1 hus
  exact h q hq u hmem

namespace PushSites

theorem item (hP : PushSites env w P) {enableDict : Bool} {c : CompressionType} {array : ArrayRef}
    {q : PushedUnits} (h : EncoderDictColEncoder.item env w enableDict c array = .ok q) :
    ∀ u ∈ q.units, P u := by
  unfold EncoderDictColEncoder.item at h
  rw [bind_eq_ok] at h
  obtain ⟨unit, hunit, hq⟩ := h
  cases hq
  intro u hu
  rw [units, List.mem_singleton] at hu
  subst hu
  exact hP.encUnit enableDict c array u hunit

theorem dictItem (hP : PushSites env w P) {c : CompressionType} {array : ArrayRef}
    {q : PushedUnits} (h : DictColEncoder.item env w c array = .ok q) : ∀ u ∈ q.units, P u := by
  unfold DictColEncoder.item at h
  simp only [bind_eq_ok, pure_eq_ok, Except.ok.injEq] at h
  obtain ⟨r, hr, rfl⟩ := h
  obtain ⟨hdict, hindex⟩ := hP.dict c array r hr
  intro u hu
  rcases List.mem_cons.1 hu with rfl | hu
  · exact hdict
  · rw [List.mem_singleton] at hu
    subst hu
    exact hindex

/-- The groups index units are cut into. -/
theorem indexGroups (hP : PushSites env w P) {c : CompressionType} {arrs : List ArrayRef}
    {items : List (PushedUnits × Nat)} (h : indexItems env w c arrs = .ok items)
    (columnChunkSize : Nat) (isIndex : Bool) (l : DictionaryEncoding) :
    AllUnits P
      ((F3Format.indexGroups columnChunkSize isIndex items).map fun g => chunkOf (l, g)) := by
  have hitems : ∀ q ∈ items.map Prod.fst, ∀ u ∈ q.units, P u := by
    intro q hq
    obtain ⟨item, hitem, rfl⟩ := List.mem_map.1 hq
    obtain ⟨array, -, harray⟩ := exists_of_mem_collect h hitem
    exact hP.item (sized_eq_ok harray)
  intro chunk hchunk
  obtain ⟨g, hg, rfl⟩ := List.mem_map.1 hchunk
  apply units_chunkOf
  intro q hq
  rcases mem_cutAll _ items [] 0 g hg q hq with hq | hq
  · cases hq
  · exact hitems q hq

/-- The units of the indices of a scope. -/
theorem scopeItems (hP : PushSites env w P) {c : CompressionType} {d : Dictionary}
    {arrs : List ArrayRef} {r : Dictionary × List (PushedUnits × Nat)}
    (h : F3Format.scopeItems env w c d arrs = .ok r) (columnChunkSize : Nat)
    (l : DictionaryEncoding) :
    AllUnits P
      ((F3Format.indexGroups columnChunkSize true r.2).map fun g => chunkOf (l, g)) := by
  unfold F3Format.scopeItems at h
  simp only [bind_eq_ok, pure_eq_ok, Except.ok.injEq] at h
  obtain ⟨scope, -, items, hitems, rfl⟩ := h
  exact hP.indexGroups hitems columnChunkSize true l

/-- The loop over index units, whatever the counter is. -/
theorem encodeSharedToChunks (hP : PushSites env w P) (c : CompressionType)
    (columnChunkSize : Nat) (arrs : List ArrayRef) (dictIdx : Option Nat) :
    Act.Maintains (fun _ => True) (AllUnits P)
      (F3Format.encodeSharedToChunks env w c columnChunkSize arrs dictIdx) := by
  intro counter _
  refine ⟨?_, trivial⟩
  intro chunks hchunks
  have hspec := encodeSharedToChunks_spec env w c columnChunkSize dictIdx arrs counter
  cases hitems : indexItems env w c arrs with
  | error f =>
      rw [hitems] at hspec
      obtain ⟨counter', hrun⟩ := hspec
      rw [hrun] at hchunks
      cases hchunks
  | ok items =>
      rw [hitems] at hspec
      rw [hspec] at hchunks
      cases hchunks
      exact hP.indexGroups hitems columnChunkSize _ _

end PushSites

end Units

/-! ## The encoders that buffer units -/

section Encoders

variable {env : Env} {w : WASMWritingContext} {P : SerializedEncUnit → Prop}

/-- An encoder that is a buffer, and `P` holds of the units in the buffer. -/
def Buffered.HoldsUnits {E A : Type} {m : ColEncoder E A} (B : Buffered m)
    (P : SerializedEncUnit → Prop) (e : E) : Prop :=
  ∃ b, e = B.ofBuffer b ∧ ∀ q ∈ b.items, ∀ u ∈ q.units, P u

/-- What holds of the units a call pushes holds of those the encoder emits. -/
theorem Buffered.maintains {E A : Type} {m : ColEncoder E A} (B : Buffered m)
    (hitem : ∀ a q, B.item a = .ok q → ∀ u ∈ q.units, P u) (c : Call A) :
    Act.Maintains (fun s => B.HoldsUnits P s.enc) (AllUnits P) (m.call c) := by
  intro s hs
  obtain ⟨b, hb, hitems⟩ := hs
  have hact := maintains_act B.policy (fun a q hq => hitem a q.1 (sized_eq_ok hq)) c b hitems
  obtain ⟨hvalue, t, hleft, hI⟩ := (B.simulates c s b hb).promises
    (P := fun groups => ∀ q ∈ contents groups, ∀ u ∈ q.units, P u)
    (I := fun b => ∀ q ∈ b.items, ∀ u ∈ q.units, P u) hact
  refine ⟨?_, t, hleft, hI⟩
  intro chunks hchunks
  obtain ⟨groups, rfl, hgroups⟩ := hvalue chunks hchunks
  intro chunk hchunk
  obtain ⟨g, hg, rfl⟩ := List.mem_map.1 hchunk
  apply units_chunkOf
  intro q hq
  exact hgroups q (List.mem_flatten_of_mem (List.mem_map_of_mem hg) hq)

theorem Buffered.holdsUnits_fresh {E A : Type} {m : ColEncoder E A} (B : Buffered m) :
    B.HoldsUnits P m.fresh := by
  refine ⟨fresh B.policy, B.fresh_eq, ?_⟩
  intro q hq
  cases hq

/-! ## The encoders that buffer arrays -/

theorem maintains_onCounter {E α : Type} {I : Working E → Prop} {Q : α → Prop}
    {x : Act Fault EncodingCounter α} (hx : Act.Maintains (fun _ => True) Q x)
    (hI : ∀ s counter, I s → I { s with counter := counter }) :
    Act.Maintains I Q (onCounter x : EncAct E α) := by
  intro s hs
  have h := hx s.counter trivial
  rw [SharedDictColEncoder.onCounter_run]
  cases hrun : x s.counter with
  | ok a counter =>
      rw [hrun] at h
      exact ⟨h.1, hI s counter hs⟩
  | error f counter =>
      rw [hrun] at h
      exact ⟨h.1, hI s counter hs⟩

namespace SharedDictColEncoder

/-- The encoder works in the context `w`. -/
def Uses (w : WASMWritingContext) (s : Working SharedDictColEncoder) : Prop :=
  s.enc.wasmContext = w

theorem maintains_newDictionary (dtype : DataType) :
    Act.Maintains (Uses w) (fun _ => True) (newDictionary dtype) := by
  apply Act.maintains_get_bind
  intro s hs
  apply Act.maintains_bind (Act.maintains_lift (P := fun _ => True) fun _ _ => trivial)
  rintro ⟨ctx, idx⟩ _
  refine Act.maintains_set_bind ?_ (Act.maintains_pure trivial)
  exact hs

theorem maintains_scopeDictIdx (e : SharedDictColEncoder) :
    Act.Maintains (Uses w) (fun _ => True) (scopeDictIdx e) := by
  unfold scopeDictIdx
  cases e.submittedDictIdx with
  | some idx => exact Act.maintains_pure trivial
  | none =>
      apply Act.maintains_bind (Act.maintains_lift (P := fun _ => True) fun _ _ => trivial)
      intro first _
      exact maintains_newDictionary first.dataType

theorem maintains_extendAll (dictIdx : Nat) (arrs : List ArrayRef) :
    Act.Maintains (Uses w) (fun _ => True) (extendAll dictIdx arrs) := by
  induction arrs with
  | nil => exact Act.maintains_pure trivial
  | cons arr arrs ih =>
      apply Act.maintains_get_bind
      intro s hs
      apply Act.maintains_bind (Act.maintains_lift (P := fun _ => True) fun _ _ => trivial)
      rintro ⟨ctx, indices⟩ _
      refine Act.maintains_set_bind ?_ ?_
      · exact hs
      · exact Act.maintains_bind ih fun rest _ => Act.maintains_pure trivial

theorem maintains_submitAll (dictIdx : Nat) (arrs : List ArrayRef) :
    Act.Maintains (Uses w) (fun _ => True) (submitAll dictIdx arrs) := by
  induction arrs with
  | nil => exact Act.maintains_pure trivial
  | cons arr arrs ih =>
      apply Act.maintains_get_bind
      intro s hs
      apply Act.maintains_bind (Act.maintains_lift (P := fun _ => True) fun _ _ => trivial)
      intro ctx _
      refine Act.maintains_set_bind ?_ ih
      exact hs

theorem maintains_submitDict :
    Act.Maintains (Uses w) (fun _ => True) submitDict := by
  apply Act.maintains_get_bind
  intro s _
  apply Act.maintains_bind (P := fun _ => True) ?_ (fun idx _ => maintains_submitAll idx _)
  apply Act.maintains_get_bind
  intro t _
  apply Act.maintains_bind (maintains_scopeDictIdx t.enc)
  intro idx _
  refine Act.maintains_bind (Act.maintains_modify ?_) fun _ _ => Act.maintains_pure trivial
  intro u hu
  exact hu

theorem encodeDictScope_units (hP : PushSites env w P) :
    Act.Maintains (Uses w) (AllUnits P) (encodeDictScope env) := by
  apply Act.maintains_get_bind
  intro s hs
  refine Act.maintains_set_bind ?_ ?_
  · exact hs
  apply Act.maintains_bind (maintains_scopeDictIdx s.enc)
  intro dictIdx _
  apply Act.maintains_bind (maintains_extendAll dictIdx _)
  intro indicesArrs _
  apply Act.maintains_get_bind
  intro t _
  apply Act.maintains_bind (Act.maintains_lift (P := fun _ => True) fun _ _ => trivial)
  intro dictLen _
  apply maintains_onCounter ?_ (fun _ _ h => h)
  rw [show s.enc.wasmContext = w from hs]
  exact hP.encodeSharedToChunks _ _ _ _

theorem encode_units (hP : PushSites env w P) (array : ArrayRef) :
    Act.Maintains (Uses w) (AllUnits P) (encode env array) := by
  apply Act.maintains_get_bind
  intro s hs
  split
  · exact Act.maintains_throw _
  · refine Act.maintains_set_bind ?_ ?_
    · exact hs
    · split
      · exact encodeDictScope_units hP
      · exact Act.maintains_pure allUnits_nil

theorem finish_units (hP : PushSites env w P) :
    Act.Maintains (Uses w) (AllUnits P) (finish env) := by
  apply Act.maintains_get_bind
  intro s _
  split
  · exact Act.maintains_pure allUnits_nil
  · exact encodeDictScope_units hP

end SharedDictColEncoder

namespace GLBestEncoder

/-- The encoder works in the context `w`. -/
def Uses (w : WASMWritingContext) (s : Working GLBestEncoder) : Prop := s.enc.wasmContext = w

theorem encode_units (array : ArrayRef) :
    Act.Maintains (Uses w) (AllUnits P) (encode env array) := by
  apply Act.maintains_get_bind
  intro s hs
  split
  · exact Act.maintains_throw _
  · refine Act.maintains_set_bind ?_ (Act.maintains_pure allUnits_nil)
    exact hs

/-- The local chunks, which are not compressed. -/
theorem localChunks_units {e : GLBestEncoder} (hP : PushSites env e.wasmContext P)
    {arrs : List ArrayRef} {counter : EncodingCounter} {chunks : List EncodedColumnChunk}
    (h : encodeToLocalChunks env e arrs = .ok (counter, chunks)) :
    AllUnits P chunks := by
  obtain ⟨items, groups, hitems, rfl, hcontents, -⟩ := encodeToLocalChunks_ok h
  intro chunk hchunk
  obtain ⟨g, hg, rfl⟩ := List.mem_map.1 hchunk
  apply units_chunkOf
  intro q hq
  have hmem : q ∈ items := by
    rw [← hcontents]
    exact List.mem_flatten_of_mem (List.mem_map_of_mem hg) hq
  obtain ⟨array, -, hitem⟩ := exists_of_mem_collect hitems hmem
  exact hP.item hitem

theorem finish_units (hP : PushSites env w P) :
    Act.Maintains (Uses w) (AllUnits P) (finish env) := by
  rintro ⟨e, counter, ctx, rng⟩ rfl
  by_cases hnil : e.bufferedArrays = []
  · rw [finish_nil env _ hnil]
    refine ⟨?_, rfl⟩
    intro chunks hchunks
    cases hchunks
    exact allUnits_nil
  · obtain ⟨choice, rng', hof, hends⟩ := finish_spec env e rng hnil
    have hend := hends counter ctx
    generalize finish env ⟨e, counter, ctx, rng⟩ = x at hend
    cases choice with
    | localChunks chunks =>
        obtain ⟨counter', rfl⟩ := hend
        obtain ⟨localCounter, hlocal⟩ := hof
        refine ⟨?_, rfl⟩
        intro cs hcs
        cases hcs
        exact localChunks_units hP hlocal
    | globalChunks d groups =>
        obtain ⟨counter', rfl⟩ := hend
        obtain ⟨items, hitems, rfl⟩ := hof
        rw [bind_eq_ok] at hitems
        obtain ⟨d₀, -, hscope⟩ := hitems
        refine ⟨?_, rfl⟩
        intro cs hcs
        cases hcs
        exact hP.scopeItems hscope e.columnChunkSize _
    | failed f added =>
        cases added with
        | none =>
            obtain ⟨counter', rfl⟩ := hend
            refine ⟨?_, rfl⟩
            intro cs hcs
            cases hcs
        | some d =>
            obtain ⟨counter', rfl⟩ := hend
            refine ⟨?_, rfl⟩
            intro cs hcs
            cases hcs

end GLBestEncoder

/-! ## Behind the trait -/

/-- `P` holds of what is buffered, and everything is encoded in the context `w`. -/
def PhysicalColEncoder.HoldsUnits (env : Env) (w : WASMWritingContext)
    (P : SerializedEncUnit → Prop) : PhysicalColEncoder → Prop
  | .encoderDict e => ∃ columnChunkSize enableDict c,
      (EncoderDictColEncoder.buffered env columnChunkSize w enableDict c).HoldsUnits P e
  | .dict e => ∃ columnChunkSize c,
      (DictColEncoder.buffered env columnChunkSize w c).HoldsUnits P e
  | .sharedDict e => e.wasmContext = w
  | .glBest e => e.wasmContext = w

/-- A call on the wrapped encoder. -/
theorem maintains_delegate {E F α : Type} (wrap : E → F) {x : EncAct E α} {I : Working E → Prop}
    {J : F → Prop} {Q : α → Prop} (hx : Act.Maintains I Q x)
    (hJ : ∀ t, I t → J (wrap t.enc)) {e : E} {s : Working F}
    (he : I ⟨e, s.counter, s.ctx, s.rng⟩) :
    (∀ a, Act.outcome (delegate wrap e x s) = .ok a → Q a) ∧
      J (Act.left (delegate wrap e x s)).enc := by
  have h := hx ⟨e, s.counter, s.ctx, s.rng⟩ he
  unfold delegate Act.zoom
  dsimp only
  cases hrun : x ⟨e, s.counter, s.ctx, s.rng⟩ with
  | ok a t =>
      rw [hrun] at h
      exact ⟨h.1, hJ t h.2⟩
  | error f t =>
      rw [hrun] at h
      exact ⟨h.1, hJ t h.2⟩

namespace PhysicalColEncoder

theorem encode_units (hP : PushSites env w P) (array : ArrayRef) :
    Act.Maintains (fun s => HoldsUnits env w P s.enc) (AllUnits P) (encode env array) := by
  rintro ⟨e, counter, ctx, rng⟩ hs
  rw [encode, Act.get_bind]
  cases e with
  | encoderDict e =>
      obtain ⟨columnChunkSize, enableDict, c, h⟩ := hs
      exact maintains_delegate (J := HoldsUnits env w P) encoderDict
        ((EncoderDictColEncoder.buffered env columnChunkSize w enableDict c).maintains
          (fun _ _ hq => hP.item hq) (.encode array))
        (fun t ht => ⟨columnChunkSize, enableDict, c, ht⟩) h
  | dict e =>
      obtain ⟨columnChunkSize, c, h⟩ := hs
      exact maintains_delegate (J := HoldsUnits env w P) dict
        ((DictColEncoder.buffered env columnChunkSize w c).maintains
          (fun _ _ hq => hP.dictItem hq) (.encode array))
        (fun t ht => ⟨columnChunkSize, c, ht⟩) h
  | sharedDict e =>
      exact maintains_delegate (J := HoldsUnits env w P) sharedDict
        (SharedDictColEncoder.encode_units hP array) (fun t ht => ht) hs
  | glBest e =>
      exact maintains_delegate (J := HoldsUnits env w P) glBest
        (GLBestEncoder.encode_units array) (fun t ht => ht) hs

theorem finish_units (hP : PushSites env w P) :
    Act.Maintains (fun s => HoldsUnits env w P s.enc) (AllUnits P) (finish env) := by
  rintro ⟨e, counter, ctx, rng⟩ hs
  rw [finish, Act.get_bind]
  cases e with
  | encoderDict e =>
      obtain ⟨columnChunkSize, enableDict, c, h⟩ := hs
      exact maintains_delegate (J := HoldsUnits env w P) encoderDict
        ((EncoderDictColEncoder.buffered env columnChunkSize w enableDict c).maintains
          (fun _ _ hq => hP.item hq) .finish)
        (fun t ht => ⟨columnChunkSize, enableDict, c, ht⟩) h
  | dict e =>
      obtain ⟨columnChunkSize, c, h⟩ := hs
      exact maintains_delegate (J := HoldsUnits env w P) dict
        ((DictColEncoder.buffered env columnChunkSize w c).maintains
          (fun _ _ hq => hP.dictItem hq) .finish)
        (fun t ht => ⟨columnChunkSize, c, ht⟩) h
  | sharedDict e =>
      exact maintains_delegate (J := HoldsUnits env w P) sharedDict
        (SharedDictColEncoder.finish_units hP) (fun t ht => ht) hs
  | glBest e =>
      exact maintains_delegate (J := HoldsUnits env w P) glBest
        (GLBestEncoder.finish_units hP) (fun t ht => ht) hs

theorem submitDict_units :
    Act.Maintains (fun s => HoldsUnits env w P s.enc) (fun _ => True) submitDict := by
  rintro ⟨e, counter, ctx, rng⟩ hs
  rw [submitDict, Act.get_bind]
  cases e with
  | sharedDict e =>
      exact maintains_delegate (J := HoldsUnits env w P) sharedDict
        SharedDictColEncoder.maintains_submitDict (fun t ht => ht) hs
  | encoderDict e => exact ⟨fun _ _ => trivial, hs⟩
  | dict e => exact ⟨fun _ _ => trivial, hs⟩
  | glBest e => exact ⟨fun _ _ => trivial, hs⟩

/-- A new encoder has nothing buffered. -/
theorem holdsUnits_create {dataType : DataType} {columnChunkSize : Nat}
    {dictionaryType : DictionaryTypeOptions} {c : CompressionType} {e : PhysicalColEncoder}
    (h : createPhysicalEncoder dataType columnChunkSize w dictionaryType c = .ok e) :
    HoldsUnits env w P e := by
  have hbuffer : ∀ enableDict,
      HoldsUnits env w P (.encoderDict (.new columnChunkSize w enableDict c)) := by
    intro enableDict
    exact ⟨columnChunkSize, enableDict, c, Buffered.holdsUnits_fresh _⟩
  unfold createPhysicalEncoder at h
  split at h
  · split at h
    · cases dictionaryType with
      | noDictionary => cases h; exact hbuffer false
      | encoderDictionary => cases h; exact hbuffer true
      | localDictionary =>
          cases h
          exact ⟨columnChunkSize, c, Buffered.holdsUnits_fresh _⟩
      | globalDictionary => cases h; exact rfl
      | fixedScopeDictionary scope => cases h; exact rfl
      | globalDictionaryMultiColSharing => cases h; exact rfl
      | glBest sampleSize => cases h; exact rfl
    · cases h
  · cases h; exact hbuffer true
  · cases h; exact hbuffer true
  · cases h

end PhysicalColEncoder

/-! ## Logical encoders -/

/-- What a call returns, and the encoder it leaves on both exits. -/
def EncResult.Gives {E α : Type} (I : E → Prop) (Q : α → Prop) (r : EncResult E α) : Prop :=
  (∀ a, Act.outcome r = .ok a → Q a) ∧ I (Act.left r).enc

namespace EncResult

variable {E α : Type} {I : E → Prop} {Q : α → Prop}

theorem gives_ok {a : α} {t : Working E} : Gives I Q (.ok a t) ↔ Q a ∧ I t.enc := by
  constructor
  · rintro ⟨hvalue, hleft⟩
    exact ⟨hvalue a rfl, hleft⟩
  · rintro ⟨ha, ht⟩
    refine ⟨?_, ht⟩
    rintro _ ⟨⟩
    exact ha

theorem gives_error {f : Fault} {t : Working E} : Gives I Q (.error f t) ↔ I t.enc := by
  constructor
  · exact And.right
  · intro ht
    refine ⟨?_, ht⟩
    rintro _ ⟨⟩

end EncResult

theorem allUnits_append {cs ds : List EncodedColumnChunk} (hcs : AllUnits P cs)
    (hds : AllUnits P ds) : AllUnits P (cs ++ ds) := by
  intro c hc
  rcases List.mem_append.1 hc with hc | hc
  · exact hcs c hc
  · exact hds c hc

theorem allUnits_stamp {cs : List EncodedColumnChunk} (hcs : AllUnits P cs) (i : Nat) :
    AllUnits P (stamp i cs) := by
  intro c hc
  obtain ⟨d, hd, rfl⟩ := List.mem_map.1 hc
  exact hcs d hd

/-- `P` holds of every unit of the chunks a call returns. -/
def Returned (P : SerializedEncUnit → Prop) (r : Option (List EncodedColumnChunk)) : Prop :=
  AllUnits P (r.getD [])

theorem returned_thenSome {cs : List EncodedColumnChunk} (h : AllUnits P cs) :
    Returned P (thenSome cs) := by
  rwa [Returned, getD_thenSome]

namespace LogicalColEncoder

mutual

/-- `P` holds of what the physical encoders of the tree have buffered. -/
def HoldsUnits (env : Env) (w : WASMWritingContext) (P : SerializedEncUnit → Prop) :
    LogicalColEncoder → Prop
  | flat p _ => p.HoldsUnits env w P
  | list p _ v => p.HoldsUnits env w P ∧ HoldsUnits env w P v
  | struct p _ fs => p.HoldsUnits env w P ∧ HoldsAllUnits env w P fs

/-- The same of several trees. -/
def HoldsAllUnits (env : Env) (w : WASMWritingContext) (P : SerializedEncUnit → Prop) :
    List LogicalColEncoder → Prop
  | [] => True
  | e :: es => HoldsUnits env w P e ∧ HoldsAllUnits env w P es

end

theorem holdsAllUnits_iff {es : List LogicalColEncoder} :
    HoldsAllUnits env w P es ↔ ∀ e ∈ es, e.HoldsUnits env w P := by
  induction es with
  | nil => simp [HoldsAllUnits]
  | cons e es ih => rw [HoldsAllUnits, ih, List.forall_mem_cons]

theorem callPhysical_units {α : Type} {Q : α → Prop} {x : EncAct PhysicalColEncoder α}
    (hx : Act.Maintains (fun s => s.enc.HoldsUnits env w P) Q x) {p : PhysicalColEncoder}
    (hp : p.HoldsUnits env w P) (s : Shared) :
    EncResult.Gives (PhysicalColEncoder.HoldsUnits env w P) Q (callPhysical x p s) :=
  hx ⟨p, s.counter, s.ctx, s.rng⟩ hp

open EncResult

mutual

theorem encode_units (hP : PushSites env w P) : ∀ (e : LogicalColEncoder) (array : ArrayRef)
    (s : Shared), e.HoldsUnits env w P →
      Gives (HoldsUnits env w P) (Returned P) (encode env e array s)
  | flat p i, array, s, he => by
      have hcall := callPhysical_units (PhysicalColEncoder.encode_units hP array) he s
      rw [encode]
      cases hp : callPhysical (PhysicalColEncoder.encode env array) p s with
      | error f t =>
          rw [hp, gives_error] at hcall
          exact gives_error.2 hcall
      | ok chunks t =>
          rw [hp, gives_ok] at hcall
          exact gives_ok.2 ⟨returned_thenSome (allUnits_stamp hcall.1 i), hcall.2⟩
  | list p i v, array, s, ⟨he, hv⟩ => by
      have hcall := callPhysical_units (PhysicalColEncoder.encode_units hP array) he s
      rw [encode]
      cases hp : callPhysical (PhysicalColEncoder.encode env array) p s with
      | error f t =>
          rw [hp, gives_error] at hcall
          exact gives_error.2 ⟨hcall, hv⟩
      | ok chunks t =>
          rw [hp, gives_ok] at hcall
          dsimp only
          cases extractItems array with
          | error f => exact gives_error.2 ⟨hcall.2, hv⟩
          | ok items =>
              have hvalues := encode_units hP v items t.shared hv
              dsimp only
              cases hrun : encode env v items t.shared with
              | error f u =>
                  rw [hrun, gives_error] at hvalues
                  exact gives_error.2 ⟨hcall.2, hvalues⟩
              | ok more u =>
                  rw [hrun, gives_ok] at hvalues
                  exact gives_ok.2 ⟨returned_thenSome
                    (allUnits_append (allUnits_stamp hcall.1 i) hvalues.1), hcall.2, hvalues.2⟩
  | struct p i fs, array, s, ⟨he, hfs⟩ => by
      have hcall := callPhysical_units
        (PhysicalColEncoder.encode_units hP (extractValidity array)) he s
      rw [encode]
      cases hp : callPhysical (PhysicalColEncoder.encode env (extractValidity array)) p s with
      | error f t =>
          rw [hp, gives_error] at hcall
          exact gives_error.2 ⟨hcall, hfs⟩
      | ok chunks t =>
          rw [hp, gives_ok] at hcall
          dsimp only
          cases structColumns array with
          | error f => exact gives_error.2 ⟨hcall.2, hfs⟩
          | ok columns =>
              have hfields := encodeFields_units hP fs columns t.shared hfs
              dsimp only
              cases hrun : encodeFields env fs columns t.shared with
              | error f u =>
                  rw [hrun, gives_error] at hfields
                  exact gives_error.2 ⟨hcall.2, hfields⟩
              | ok more u =>
                  rw [hrun, gives_ok] at hfields
                  exact gives_ok.2 ⟨returned_thenSome
                    (allUnits_append (allUnits_stamp hcall.1 i) hfields.1), hcall.2, hfields.2⟩

theorem encodeFields_units (hP : PushSites env w P) : ∀ (es : List LogicalColEncoder)
    (columns : List ArrayRef) (s : Shared), HoldsAllUnits env w P es →
      Gives (HoldsAllUnits env w P) (AllUnits P) (encodeFields env es columns s)
  | [], _, s, he => gives_ok.2 ⟨allUnits_nil, he⟩
  | e :: es, [], s, he => gives_ok.2 ⟨allUnits_nil, he⟩
  | e :: es, column :: columns, s, ⟨he, hes⟩ => by
      have hfirst := encode_units hP e column s he
      rw [encodeFields]
      cases hcall : encode env e column s with
      | error f t =>
          rw [hcall, gives_error] at hfirst
          exact gives_error.2 ⟨hfirst, hes⟩
      | ok chunks t =>
          rw [hcall, gives_ok] at hfirst
          have hrest := encodeFields_units hP es columns t.shared hes
          dsimp only
          cases hrun : encodeFields env es columns t.shared with
          | error f u =>
              rw [hrun, gives_error] at hrest
              exact gives_error.2 ⟨hfirst.2, hrest⟩
          | ok more u =>
              rw [hrun, gives_ok] at hrest
              exact gives_ok.2 ⟨allUnits_append hfirst.1 hrest.1, hfirst.2, hrest.2⟩

end

mutual

theorem finish_units (hP : PushSites env w P) : ∀ (e : LogicalColEncoder) (s : Shared),
    e.HoldsUnits env w P → Gives (HoldsUnits env w P) (Returned P) (finish env e s)
  | flat p i, s, he => by
      have hcall := callPhysical_units (PhysicalColEncoder.finish_units hP) he s
      rw [finish]
      cases hp : callPhysical (PhysicalColEncoder.finish env) p s with
      | error f t =>
          rw [hp, gives_error] at hcall
          exact gives_error.2 hcall
      | ok chunks t =>
          rw [hp, gives_ok] at hcall
          exact gives_ok.2 ⟨returned_thenSome (allUnits_stamp hcall.1 i), hcall.2⟩
  | list p i v, s, ⟨he, hv⟩ => by
      have hcall := callPhysical_units (PhysicalColEncoder.finish_units hP) he s
      rw [finish]
      cases hp : callPhysical (PhysicalColEncoder.finish env) p s with
      | error f t =>
          rw [hp, gives_error] at hcall
          exact gives_error.2 ⟨hcall, hv⟩
      | ok chunks t =>
          rw [hp, gives_ok] at hcall
          have hvalues := finish_units hP v t.shared hv
          dsimp only
          cases hrun : finish env v t.shared with
          | error f u =>
              rw [hrun, gives_error] at hvalues
              exact gives_error.2 ⟨hcall.2, hvalues⟩
          | ok more u =>
              rw [hrun, gives_ok] at hvalues
              exact gives_ok.2 ⟨returned_thenSome
                (allUnits_append (allUnits_stamp hcall.1 i) hvalues.1), hcall.2, hvalues.2⟩
  | struct p i fs, s, ⟨he, hfs⟩ => by
      have hcall := callPhysical_units (PhysicalColEncoder.finish_units hP) he s
      rw [finish]
      cases hp : callPhysical (PhysicalColEncoder.finish env) p s with
      | error f t =>
          rw [hp, gives_error] at hcall
          exact gives_error.2 ⟨hcall, hfs⟩
      | ok chunks t =>
          rw [hp, gives_ok] at hcall
          have hfields := finishFields_units hP fs t.shared hfs
          dsimp only
          cases hrun : finishFields env fs t.shared with
          | error f u =>
              rw [hrun, gives_error] at hfields
              exact gives_error.2 ⟨hcall.2, hfields⟩
          | ok more u =>
              rw [hrun, gives_ok] at hfields
              exact gives_ok.2 ⟨returned_thenSome
                (allUnits_append (allUnits_stamp hcall.1 i) hfields.1), hcall.2, hfields.2⟩

theorem finishFields_units (hP : PushSites env w P) : ∀ (es : List LogicalColEncoder)
    (s : Shared), HoldsAllUnits env w P es →
      Gives (HoldsAllUnits env w P) (AllUnits P) (finishFields env es s)
  | [], s, he => gives_ok.2 ⟨allUnits_nil, he⟩
  | e :: es, s, ⟨he, hes⟩ => by
      have hfirst := finish_units hP e s he
      rw [finishFields]
      cases hcall : finish env e s with
      | error f t =>
          rw [hcall, gives_error] at hfirst
          exact gives_error.2 ⟨hfirst, hes⟩
      | ok chunks t =>
          rw [hcall, gives_ok] at hfirst
          have hrest := finishFields_units hP es t.shared hes
          dsimp only
          cases hrun : finishFields env es t.shared with
          | error f u =>
              rw [hrun, gives_error] at hrest
              exact gives_error.2 ⟨hfirst.2, hrest⟩
          | ok more u =>
              rw [hrun, gives_ok] at hrest
              exact gives_ok.2 ⟨allUnits_append hfirst.1 hrest.1, hfirst.2, hrest.2⟩

end

mutual

theorem submitDict_units : ∀ (e : LogicalColEncoder) (s : Shared), e.HoldsUnits env w P →
    Gives (HoldsUnits env w P) (fun _ => True) (submitDict e s)
  | flat p i, s, he => by
      have hcall := callPhysical_units PhysicalColEncoder.submitDict_units he s
      rw [submitDict]
      cases hp : callPhysical PhysicalColEncoder.submitDict p s with
      | error f t =>
          rw [hp, gives_error] at hcall
          exact gives_error.2 hcall
      | ok r t =>
          rw [hp, gives_ok] at hcall
          exact gives_ok.2 hcall
  | list p i v, s, ⟨he, hv⟩ => by
      have hcall := callPhysical_units PhysicalColEncoder.submitDict_units he s
      rw [submitDict]
      cases hp : callPhysical PhysicalColEncoder.submitDict p s with
      | error f t =>
          rw [hp, gives_error] at hcall
          exact gives_error.2 ⟨hcall, hv⟩
      | ok r t =>
          rw [hp, gives_ok] at hcall
          have hvalues := submitDict_units v t.shared hv
          dsimp only
          cases hrun : submitDict v t.shared with
          | error f u =>
              rw [hrun, gives_error] at hvalues
              exact gives_error.2 ⟨hcall.2, hvalues⟩
          | ok r u =>
              rw [hrun, gives_ok] at hvalues
              exact gives_ok.2 ⟨trivial, hcall.2, hvalues.2⟩
  | struct p i fs, s, ⟨he, hfs⟩ => by
      have hcall := callPhysical_units PhysicalColEncoder.submitDict_units he s
      rw [submitDict]
      cases hp : callPhysical PhysicalColEncoder.submitDict p s with
      | error f t =>
          rw [hp, gives_error] at hcall
          exact gives_error.2 ⟨hcall, hfs⟩
      | ok r t =>
          rw [hp, gives_ok] at hcall
          have hfields := submitFields_units fs t.shared hfs
          dsimp only
          cases hrun : submitFields fs t.shared with
          | error f u =>
              rw [hrun, gives_error] at hfields
              exact gives_error.2 ⟨hcall.2, hfields⟩
          | ok r u =>
              rw [hrun, gives_ok] at hfields
              exact gives_ok.2 ⟨trivial, hcall.2, hfields.2⟩

theorem submitFields_units : ∀ (es : List LogicalColEncoder) (s : Shared),
    HoldsAllUnits env w P es →
      Gives (HoldsAllUnits env w P) (fun _ => True) (submitFields es s)
  | [], s, he => gives_ok.2 ⟨trivial, he⟩
  | e :: es, s, ⟨he, hes⟩ => by
      have hfirst := submitDict_units e s he
      rw [submitFields]
      cases hcall : submitDict e s with
      | error f t =>
          rw [hcall, gives_error] at hfirst
          exact gives_error.2 ⟨hfirst, hes⟩
      | ok r t =>
          rw [hcall, gives_ok] at hfirst
          have hrest := submitFields_units es t.shared hes
          dsimp only
          cases hrun : submitFields es t.shared with
          | error f u =>
              rw [hrun, gives_error] at hrest
              exact gives_error.2 ⟨hfirst.2, hrest⟩
          | ok r u =>
              rw [hrun, gives_ok] at hrest
              exact gives_ok.2 ⟨trivial, hfirst.2, hrest.2⟩

end

end LogicalColEncoder

/-! ## New encoders -/

variable {o : EncoderOptions}

mutual

/-- A new tree of encoders has nothing buffered. -/
theorem holdsUnits_createLogicalEncoderOf : ∀ (t : DataType) {i : Nat} {e : LogicalColEncoder}
    {tree : LogicalTree} {n : Nat}, createLogicalEncoderOf o t i = .ok (e, tree, n) →
      e.HoldsUnits env o.wasmContext P
  | .prim t, _, _, _, _, h => by
      rw [createLogicalEncoderOf] at h
      split at h
      · simp only [bind_eq_ok, pure_eq_ok, Except.ok.injEq, Prod.mk.injEq] at h
        obtain ⟨p, hp, rfl, -⟩ := h
        exact PhysicalColEncoder.holdsUnits_create hp
      · cases h
  | .list child, _, _, _, _, h => by
      simp only [createLogicalEncoderOf, bind_eq_ok, pure_eq_ok, Except.ok.injEq,
        Prod.mk.injEq] at h
      obtain ⟨p, hp, ⟨v, childTree, m⟩, hv, rfl, -⟩ := h
      exact ⟨PhysicalColEncoder.holdsUnits_create hp, holdsUnits_createLogicalEncoder child hv⟩
  | .largeList child, _, _, _, _, h => by
      simp only [createLogicalEncoderOf, bind_eq_ok, pure_eq_ok, Except.ok.injEq,
        Prod.mk.injEq] at h
      obtain ⟨p, hp, ⟨v, childTree, m⟩, hv, rfl, -⟩ := h
      exact ⟨PhysicalColEncoder.holdsUnits_create hp, holdsUnits_createLogicalEncoder child hv⟩
  | .struct fields, _, _, _, _, h => by
      simp only [createLogicalEncoderOf, bind_eq_ok, pure_eq_ok, Except.ok.injEq,
        Prod.mk.injEq] at h
      obtain ⟨⟨es, trees, m⟩, hes, p, hp, rfl, -⟩ := h
      exact ⟨PhysicalColEncoder.holdsUnits_create hp, holdsUnits_createLogicalEncoders fields hes⟩

theorem holdsUnits_createLogicalEncoder : ∀ (f : Field) {i : Nat} {e : LogicalColEncoder}
    {tree : LogicalTree} {n : Nat}, createLogicalEncoder o f i = .ok (e, tree, n) →
      e.HoldsUnits env o.wasmContext P
  | .mk _ dataType _, _, _, _, _, h => holdsUnits_createLogicalEncoderOf dataType h

theorem holdsUnits_createLogicalEncoders : ∀ (fs : List Field) {i : Nat}
    {es : List LogicalColEncoder} {trees : List LogicalTree} {n : Nat},
    createLogicalEncoders o fs i = .ok (es, trees, n) →
      LogicalColEncoder.HoldsAllUnits env o.wasmContext P es
  | [], _, _, _, _, h => by
      cases h
      trivial
  | f :: fs, _, _, _, _, h => by
      simp only [createLogicalEncoders, bind_eq_ok, pure_eq_ok, Except.ok.injEq,
        Prod.mk.injEq] at h
      obtain ⟨⟨e, tree, m⟩, he, ⟨es, trees, m'⟩, hes, rfl, -⟩ := h
      exact ⟨holdsUnits_createLogicalEncoder f he, holdsUnits_createLogicalEncoders fs hes⟩

end

end Encoders

end F3Format
