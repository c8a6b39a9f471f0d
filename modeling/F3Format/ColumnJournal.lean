import F3Format.ChunkContents
import F3Format.RecordedSizes
import F3Format.WriterTrace

/-!
# A journal of the columns

What a writer is for, apart from its chunks: it collects arrays for each column,
counts rows, and closes row groups. `Journal.after` says what an action does to
such a journal. A writer refines its journal (`Point.Refines`): of each column,
the chunks that are recorded, those that wait to be flushed and what its encoder
still has are together the arrays of the journal, in order. Every action keeps
this (`Does.refines`), so it holds for whole runs, whichever encoders are at work.
-/

set_option autoImplicit false

namespace F3Format

open Lib

/-! ## The journal -/

/-- A row group: the arrays of its columns and the number of its rows. -/
structure Entry where
  arrays : Nat → List ArrayRef
  rows : Nat

/-- A row group without anything. -/
def Entry.empty : Entry := ⟨fun _ => [], 0⟩

/-- The closed row groups, the one in progress, and the columns that have received
nothing since they were finished. -/
structure Journal where
  closed : List Entry
  current : Entry
  finished : Finset Nat

namespace Journal

/-- Nothing is written yet. -/
def empty : Journal := ⟨[], .empty, ∅⟩

/-- What an action does. A row group is only closed when its `n` columns are finished. -/
def after (n : Nat) (j : Journal) : Action → Option Journal
  | .encode k a => some { j with
      current := ⟨FileWriter.addArrays j.current.arrays k [a], j.current.rows⟩
      finished := j.finished.erase k }
  | .finish k => some { j with finished := insert k j.finished }
  | .addRows n => some { j with current := ⟨j.current.arrays, j.current.rows + n⟩ }
  | .finishRowGroup =>
      if Finset.range n ⊆ j.finished then some ⟨j.closed ++ [j.current], .empty, j.finished⟩
      else none
  | .submitDict => some j
  | .mergeDicts => some j
  | .flushChunk => some j

/-- The flushing of chunks is not seen in the journal. -/
theorem foldlM_essential (n : Nat) (actions : List Action) (j : Journal) :
    (essential actions).foldlM (after n) j = actions.foldlM (after n) j := by
  rw [essential, List.foldlM_filter]
  congr 1
  funext j action
  cases action <;> rfl

end Journal

/-! ## What is known of a dictionary -/

/-- A chunk of indices was made when `d` went by the id `i`: that dictionary is
settled, and it is still the same, unless it was merged with another one, which
may change the order of its values. -/
structure Point.Knows (p : Point) (i : Nat) (d : Dictionary) : Prop where
  settled : p.Settled i d.len
  names : p.ctx.Names i d ∨ ∃ peer l d', (p.ctx.mergeResult[i]?).join = some (peer, l) ∧
    p.ctx.Names i d' ∧ d'.datatype = d.datatype ∧ d'.values.Perm d.values

section Knows

variable {env : Env} {a b : Point}

/-- A dictionary that is owed nothing is only changed when it is merged. -/
theorem names_of_step {P : CallEvent → Prop} (hstep : Step env P a b) (hsound : a.Sound)
    (hfit : b.ctx.dictionaries.length < 2 ^ 32) {i : Nat} {d : Dictionary}
    (hfree : i ∉ a.owed) (hd : a.ctx.Names i d) :
    (b.ctx.Names i d ∧ b.ctx.mergeResult = a.ctx.mergeResult) ∨
      (a.ctx.mergeResult = [] ∧ (b.ctx.Names i d ∨ ∃ peer l d',
        (b.ctx.mergeResult[i]?).join = some (peer, l) ∧ b.ctx.Names i d' ∧
          d'.datatype = d.datatype ∧ d'.values.Perm d.values)) := by
  have hfit' := Nat.lt_of_le_of_lt hstep.length_le hfit
  cases hstep with
  | @call pre post pending s e hruns _ _ =>
      obtain ⟨heffect, -, -⟩ := hsound.effect hruns hfit'
      rw [Point.owed, owed_split] at hfree
      simp only [List.mem_append, Option.mem_toList, not_or] at hfree
      obtain ⟨d', hd', -, hsame⟩ := heffect.grows hsound.valid i d hd
      have hnames : e.after.ctx.Names i d := hsame hfree.2.1 ▸ hd'
      exact .inl ⟨hnames, heffect.mergeResult⟩
  | @submitDict pre post l pending s before after hencoder hnone hrun =>
      have hplain : before.enc.HoldsPlain := by
        rw [hencoder]
        exact hsound.plain l (List.mem_append_right _ List.mem_cons_self)
      obtain ⟨-, hctx⟩ := PhysicalColEncoder.submitDict_effect (hencoder ▸ hnone) hplain hfit' hrun
      rcases hctx with ⟨hsame, -⟩ | ⟨d₀, -, hsnoc, -⟩
      · dsimp only
        rw [hsame]
        exact .inl ⟨hd, rfl⟩
      · dsimp only
        rw [hsnoc]
        exact .inl ⟨(SharedDictionaryContext.grown_snoc hsound.valid d₀ i d hd).1, rfl⟩
  | @mergeDicts ls pending s ctx ctx' hnil hrun =>
      obtain ⟨⟨r, hr, hmerged⟩, -⟩ := SharedDictionaryContext.mergeDicts_sound env ctx.dictionaries
        ctx.isMultiColSharing ctx.compressionType hsound.valid
      have hctx : ctx = ⟨ctx.dictionaries, ctx.isMultiColSharing, [], ctx.compressionType⟩ := by
        rw [← hnil]
      rw [hctx, hr] at hrun
      cases hrun
      refine .inr ⟨hnil, ?_⟩
      have hlt : i < ctx'.mergeResult.length := by
        rw [hmerged.mergeResLength]
        exact (List.getElem?_eq_some_iff.1 hd).1
      cases hres : ctx'.mergeResult[i] with
      | none =>
          have hget : ctx'.mergeResult[i]? = some none := by rw [List.getElem?_eq_getElem hlt, hres]
          exact .inl ((hmerged.unmatched i hget).trans hd)
      | some pair =>
          obtain ⟨d', hd', htype, hperm⟩ := hmerged.kept i d hd
          refine .inr ⟨pair.1, pair.2, d', ?_, hd', htype, hperm⟩
          rw [List.getElem?_eq_getElem hlt, hres]
          rfl
  | flushChunk _ => exact .inl ⟨hd, rfl⟩
  | addRows _ => exact .inl ⟨hd, rfl⟩
  | finishRowGroup => exact .inl ⟨hd, rfl⟩

/-- **What is known of a dictionary stays known.** -/
theorem Point.Knows.step {P : CallEvent → Prop} {i : Nat} {d : Dictionary} (h : a.Knows i d)
    (hsound : a.Sound) (hstep : Step env P a b) (hfit : b.ctx.dictionaries.length < 2 ^ 32) :
    b.Knows i d where
  settled := h.settled.step hsound hstep hfit
  names := by
    rcases h.names with hd | ⟨peer, l, d', hres, hd', htype, hperm⟩
    · rcases names_of_step hstep hsound hfit h.settled.free hd with ⟨hnames, -⟩ | ⟨-, hnames⟩
      · exact .inl hnames
      · exact hnames
    · -- there is no second merge
      rcases names_of_step hstep hsound hfit h.settled.free hd' with ⟨hnames, hsame⟩ | ⟨hnil, -⟩
      · exact .inr ⟨peer, l, d', hsame ▸ hres, hnames, htype, hperm⟩
      · rw [hnil] at hres
        cases hres

end Knows

/-! ## Refinement -/

/-- The record of a chunk is in the file, with these arrays. -/
def RecordedAs (env : Env) (o : EncoderOptions) (known : Nat → Dictionary → Prop)
    (file : Bytes) (narrowed : List Nat) (m : Chunk) (arrays : List ArrayRef) : Prop :=
  ∃ (c : EncodedColumnChunk) (checksum : Bool) (offset : Nat),
    m = c.record env checksum offset ∧ HoldsAt file offset c.bytes ∧
      (∀ n ∈ c.sizes, n ∈ narrowed) ∧ Contents env o known c arrays

/-- A row group of the file has the columns of an entry of the journal. -/
structure EntryOf (env : Env) (o : EncoderOptions) (known : Nat → Dictionary → Prop)
    (file : Bytes) (narrowed : List Nat) (n : Nat) (g : RowGroupMetadata) (e : Entry) : Prop where
  length : g.colMetadatas.length = n
  columns : ∀ k < n, ∃ m contents, g.colMetadatas[k]? = some m ∧
    List.Forall₂ (RecordedAs env o known file narrowed) m.columnChunks contents ∧
      contents.flatten = e.arrays k

/-- The chunks that wait to be flushed to a column. -/
def Point.waiting (p : Point) (k : Nat) : List EncodedColumnChunk :=
  p.pending.filter fun c => decide (c.columnIndex = k)

/-- The row group in progress has these arrays in column `k`. A finished column
has nothing left in its encoder. -/
def Point.HoldsColumn (env : Env) (o : EncoderOptions) (p : Point) (k : Nat)
    (arrays : List ArrayRef) (finished : Prop) : Prop :=
  ∃ m recorded waiting rest,
    p.state.columnMetadatasInCurRowGroup[k]? = some m ∧
    List.Forall₂ (RecordedAs env o p.Knows p.state.writer p.state.narrowed) m.columnChunks
      recorded ∧
    List.Forall₂ (Contents env o p.Knows) (p.waiting k) waiting ∧
    (∀ l ∈ p.leaves, l.column = k → l.encoder.Has env o rest) ∧
    recorded.flatten ++ (waiting.flatten ++ rest) = arrays ∧ (finished → rest = [])

/-- **The writer refines the journal.** -/
structure Point.Refines (env : Env) (o : EncoderOptions) (n : Nat) (p : Point) (j : Journal) :
    Prop where
  sound : p.Sound
  columns : (p.leaves.map Leaf.column).Nodup ∧ ∀ l ∈ p.leaves, l.column < n
  numColumns : p.state.numPhysicalColumns = n ∧ p.state.columnMetadatasInCurRowGroup.length = n
  current : ∀ k < n, p.HoldsColumn env o k (j.current.arrays k) (k ∈ j.finished)
  rows : p.state.numRowsInCurRowGroup = u32 j.current.rows
  closed : List.Forall₂ (EntryOf env o p.Knows p.state.writer p.state.narrowed n)
    p.state.rowGroupsTable.rowGroupMetadata j.closed
  rowCounts : p.state.rowGroupsTable.rowCounts = j.closed.map fun e => u32 e.rows
  /-- rows are counted as they are if everything fits -/
  counts : (∀ v ∈ p.state.narrowed, v < 2 ^ 32) → j.current.rows < 2 ^ 32 ∧
    ∀ e ∈ j.closed, e.rows < 2 ^ 32

section Mono

variable {env : Env} {o : EncoderOptions} {known known' : Nat → Dictionary → Prop}
  {file file' : Bytes} {narrowed narrowed' : List Nat}

theorem RecordedAs.mono {m : Chunk} {arrays : List ArrayRef}
    (h : RecordedAs env o known file narrowed m arrays)
    (hknown : ∀ i d, known i d → known' i d) (hfile : ∃ more, file' = file ++ more)
    (hnarrowed : ∀ n ∈ narrowed, n ∈ narrowed') :
    RecordedAs env o known' file' narrowed' m arrays := by
  obtain ⟨c, checksum, offset, hm, hholds, hsizes, hcontents⟩ := h
  obtain ⟨more, rfl⟩ := hfile
  exact ⟨c, checksum, offset, hm, hholds.append more, fun n hn => hnarrowed n (hsizes n hn),
    hcontents.mono fun i d _ => hknown i d⟩

theorem EntryOf.mono {n : Nat} {g : RowGroupMetadata} {e : Entry}
    (h : EntryOf env o known file narrowed n g e) (hknown : ∀ i d, known i d → known' i d)
    (hfile : ∃ more, file' = file ++ more) (hnarrowed : ∀ n ∈ narrowed, n ∈ narrowed') :
    EntryOf env o known' file' narrowed' n g e where
  length := h.length
  columns := fun k hk => by
    obtain ⟨m, contents, hm, hrecorded, hflat⟩ := h.columns k hk
    exact ⟨m, contents, hm, hrecorded.imp fun _ _ hr => hr.mono hknown hfile hnarrowed, hflat⟩

/-- What a step leaves of the file and of what is known. -/
structure Point.Extends (a b : Point) : Prop where
  knows : ∀ i d, a.Knows i d → b.Knows i d
  file : ∃ more, b.state.writer = a.state.writer ++ more
  narrowed : ∀ v ∈ a.state.narrowed, v ∈ b.state.narrowed

theorem Step.extends {P : CallEvent → Prop} {a b : Point} (hstep : Step env P a b)
    (hsound : a.Sound) (hfit : b.ctx.dictionaries.length < 2 ^ 32) : a.Extends b where
  knows := fun i d h => h.step hsound hstep hfit
  file := by
    cases hstep with
    | flushChunk hrun =>
        obtain ⟨m, -, rfl⟩ := FileWriteState.flushChunk_eq_ok.1 hrun
        exact ⟨_, rfl⟩
    | call _ _ _ _ => exact ⟨[], (List.append_nil _).symm⟩
    | submitDict _ _ _ => exact ⟨[], (List.append_nil _).symm⟩
    | mergeDicts _ _ => exact ⟨[], (List.append_nil _).symm⟩
    | addRows _ => exact ⟨[], (List.append_nil _).symm⟩
    | finishRowGroup => exact ⟨[], (List.append_nil _).symm⟩
  narrowed := hstep.narrowed

/-- Fewer columns may count as finished. -/
theorem Point.HoldsColumn.weaken {a : Point} {k : Nat} {arrays : List ArrayRef}
    {finished finished' : Prop} (h : a.HoldsColumn env o k arrays finished)
    (himp : finished' → finished) : a.HoldsColumn env o k arrays finished' := by
  obtain ⟨m, recorded, waiting, rest, hm, hrecorded, hcontents, hhas, hflat, hrest⟩ := h
  exact ⟨m, recorded, waiting, rest, hm, hrecorded, hcontents, hhas, hflat,
    fun hf => hrest (himp hf)⟩

/-- A column that a step does not touch. -/
theorem Point.HoldsColumn.mono {a b : Point} {k : Nat} {arrays : List ArrayRef}
    {finished : Prop} (h : a.HoldsColumn env o k arrays finished) (hext : a.Extends b)
    (hmeta : b.state.columnMetadatasInCurRowGroup[k]? =
      a.state.columnMetadatasInCurRowGroup[k]?)
    (hwaiting : b.waiting k = a.waiting k)
    (hleaves : ∀ l' ∈ b.leaves, l'.column = k → ∃ l ∈ a.leaves, l.column = k ∧
      ∀ rest, l.encoder.Has env o rest → l'.encoder.Has env o rest) :
    b.HoldsColumn env o k arrays finished := by
  obtain ⟨m, recorded, waiting, rest, hm, hrecorded, hcontents, hhas, hflat, hrest⟩ := h
  refine ⟨m, recorded, waiting, rest, hmeta.trans hm,
    hrecorded.imp fun _ _ hr => hr.mono hext.knows hext.file hext.narrowed, ?_, ?_, hflat, hrest⟩
  · rw [hwaiting]
    exact hcontents.imp fun c arrays hc => hc.mono fun i d _ => hext.knows i d
  · intro l' hl' hcolumn
    obtain ⟨l, hl, hk, hsame⟩ := hleaves l' hl' hcolumn
    exact hsame rest (hhas l hl hk)

end Mono

/-! ## Calls -/

section Calls

variable {env : Env} {o : EncoderOptions} {n : Nat} {j j' : Journal}

/-- **What a call does with the arrays of its encoder.** Behind those it had comes
the one it is given; after a `finish` it has none. -/
theorem CallEvent.Is.contents (hbytes : env.IndicesHaveBytes o.wasmContext) {e : CallEvent} {action : Action}
    (his : e.Is env action) (hruns : e.Runs env) {pending : List ArrayRef}
    (hhas : e.leaf.encoder.Has env o pending) (hvalid : e.before.ctx.Valid)
    (hfit : e.before.ctx.dictionaries.length < 2 ^ 32) :
    ∃ contents rest more, List.Forall₂ (Contents env o e.after.ctx.Names) e.chunks contents ∧
      e.left.encoder.Has env o rest ∧ contents.flatten ++ rest = pending ++ more ∧
        ((∃ a, action = .encode e.leaf.column a ∧ more = [a]) ∨
          action = .finish e.leaf.column ∧ more = [] ∧ rest = []) := by
  have hreturns := hruns.returns
  rw [← hruns.encoder] at hhas
  cases his with
  | encode array hnone hmethod =>
      rw [hmethod] at hreturns
      obtain ⟨contents, rest, hall, hrest, hflat⟩ :=
        PhysicalColEncoder.encode_contents hbytes hhas hvalid hfit hreturns
      exact ⟨contents, rest, [array], hall, hrest, hflat, .inl ⟨array, rfl, rfl⟩⟩
  | finish hmethod =>
      rw [hmethod] at hreturns
      obtain ⟨contents, hall, hrest, hflat⟩ :=
        PhysicalColEncoder.finish_contents hbytes hhas hvalid hfit hreturns
      exact ⟨contents, [], [], hall, hrest, by rw [hflat], .inr ⟨rfl, rfl, rfl⟩⟩

theorem filter_stamp_self (i : Nat) (chunks : List EncodedColumnChunk) :
    (stamp i chunks).filter (fun c => decide (c.columnIndex = i)) = stamp i chunks := by
  refine List.filter_eq_self.2 fun c hc => ?_
  rw [FileWriter.columnIndex_stamp c hc]
  exact decide_eq_true rfl

theorem filter_stamp_ne {i k : Nat} (h : i ≠ k) (chunks : List EncodedColumnChunk) :
    (stamp i chunks).filter (fun c => decide (c.columnIndex = k)) = [] := by
  refine List.filter_eq_nil_iff.2 fun c hc => ?_
  rw [FileWriter.columnIndex_stamp c hc, decide_eq_true_iff]
  exact h

/-- The writer before a call. -/
abbrev CallEvent.source (e : CallEvent) (pre post : List Leaf) (pending : List EncodedColumnChunk)
    (s : FileWriteState) : Point :=
  ⟨pre ++ e.leaf :: post, pending, s, e.before.ctx⟩

/-- The writer after a call. -/
abbrev CallEvent.target (e : CallEvent) (pre post : List Leaf) (pending : List EncodedColumnChunk)
    (s : FileWriteState) : Point :=
  ⟨pre ++ e.left :: post, pending ++ stamp e.leaf.column e.chunks,
    { s with columnCounters := s.columnCounters.set e.leaf.field e.after.counter }, e.after.ctx⟩

variable {e : CallEvent} {pre post : List Leaf} {pending : List EncodedColumnChunk}
  {s : FileWriteState}

/-- What is known of the dictionary of a chunk when it is returned. -/
theorem Point.Sound.knows (h : (e.source pre post pending s).Sound) (hruns : e.Runs env)
    (hfit : e.after.ctx.dictionaries.length < 2 ^ 32) {c : EncodedColumnChunk} (hc : c ∈ e.chunks)
    {i : Nat} {d : Dictionary} (hlabel : c.dictEncoding = .sharedDictionary i)
    (hd : e.after.ctx.Names i d) : (e.target pre post pending s).Knows i d := by
  obtain ⟨d', hd', hsettled⟩ : ∃ d', e.after.ctx.dictionaries[i]? = some d' ∧
      Point.Settled i d'.len (e.target pre post pending s) :=
    h.settled hruns hfit hc hlabel
  rw [hd, Option.some.injEq] at hd'
  subst hd'
  exact ⟨hsettled, .inl hd⟩

/-- The chunks that a call returned, as they wait to be flushed. -/
theorem Point.Sound.contents_stamp (h : (e.source pre post pending s).Sound) (hruns : e.Runs env)
    (hfit : e.after.ctx.dictionaries.length < 2 ^ 32) {contents : List (List ArrayRef)}
    (hall : List.Forall₂ (Contents env o e.after.ctx.Names) e.chunks contents) :
    List.Forall₂ (Contents env o (e.target pre post pending s).Knows)
      (stamp e.leaf.column e.chunks) contents := by
  have hmem := (List.forall₂_and_left e.chunks contents).2 ⟨fun c hc => hc, hall⟩
  rw [stamp, List.forall₂_map_left_iff]
  refine hmem.imp fun c arrays hboth => ?_
  have hcontents : Contents env o (e.target pre post pending s).Knows c arrays :=
    hboth.2.mono fun i d hlabel hd => h.knows hruns hfit hboth.1 hlabel hd
  exact hcontents.stamped e.leaf.column

/-- The encoders of other columns are not touched by a call. -/
theorem mem_of_mem_left {l : Leaf} (h : l ∈ pre ++ e.left :: post)
    (hne : l.column ≠ e.leaf.column) : l ∈ pre ++ e.leaf :: post := by
  rcases List.mem_append.1 h with hl | hl
  · exact List.mem_append_left _ hl
  · rcases List.mem_cons.1 hl with rfl | hl
    · exact absurd rfl hne
    · exact List.mem_append_right _ (List.mem_cons_of_mem _ hl)

/-- The encoder of the column of a call is the one that was called. -/
theorem eq_left_of_column {l : Leaf} (hnodup : ((pre ++ e.leaf :: post).map Leaf.column).Nodup)
    (h : l ∈ pre ++ e.left :: post) (hcolumn : l.column = e.leaf.column) : l = e.left := by
  rw [List.map_append, List.map_cons, List.nodup_middle, List.nodup_cons, ← List.map_append]
    at hnodup
  have hnot : l ∉ pre ++ post := fun hl => hnodup.1 (hcolumn ▸ List.mem_map_of_mem hl)
  rcases List.mem_append.1 h with hl | hl
  · exact absurd (List.mem_append_left _ hl) hnot
  · rcases List.mem_cons.1 hl with rfl | hl
    · rfl
    · exact absurd (List.mem_append_right _ hl) hnot

/-- The column of the call has what it had, and what the encoder was given. -/
theorem Point.HoldsColumn.called (hbytes : env.IndicesHaveBytes o.wasmContext) {action : Action}
    {arrays : List ArrayRef} {finished : Prop}
    (h : (e.source pre post pending s).HoldsColumn env o e.leaf.column arrays finished)
    (hsound : (e.source pre post pending s).Sound)
    (hnodup : ((pre ++ e.leaf :: post).map Leaf.column).Nodup)
    (hext : (e.source pre post pending s).Extends (e.target pre post pending s))
    (hruns : e.Runs env) (his : e.Is env action)
    (hfit : e.before.ctx.dictionaries.length < 2 ^ 32)
    (hfit' : e.after.ctx.dictionaries.length < 2 ^ 32) : ∃ more,
      (e.target pre post pending s).HoldsColumn env o e.leaf.column (arrays ++ more)
          (action = .finish e.leaf.column) ∧
        ((∃ a, action = .encode e.leaf.column a ∧ more = [a]) ∨
          action = .finish e.leaf.column ∧ more = []) := by
  obtain ⟨m, recorded, waiting, rest, hm, hrecorded, hcontents, hhas, hflat, -⟩ := h
  obtain ⟨contents, rest', more, hall, hhas', hflat', haction⟩ :=
    his.contents hbytes hruns (hhas e.leaf (by simp) rfl) hsound.valid hfit
  refine ⟨more, ⟨m, recorded, waiting ++ contents, rest', hm,
    hrecorded.imp fun _ _ hr => hr.mono hext.knows hext.file hext.narrowed, ?_, ?_, ?_, ?_⟩, ?_⟩
  · rw [Point.waiting, List.filter_append, filter_stamp_self]
    exact List.rel_append (hcontents.imp fun c arrays hc => hc.mono fun i d _ => hext.knows i d)
      (hsound.contents_stamp hruns hfit' hall)
  · intro l hl hcolumn
    rw [eq_left_of_column hnodup hl hcolumn]
    exact hhas'
  · rw [← hflat, List.flatten_append, List.append_assoc, hflat']
    simp only [List.append_assoc]
  · intro hfinish
    rcases haction with ⟨a, hencode, -⟩ | ⟨-, -, hnil⟩
    · rw [hencode] at hfinish
      cases hfinish
    · exact hnil
  · rcases haction with hencode | ⟨hfinish, hmore, -⟩
    · exact .inl hencode
    · exact .inr ⟨hfinish, hmore⟩

/-- The other columns keep what they have. -/
theorem Point.HoldsColumn.notCalled {k : Nat} {arrays : List ArrayRef} {finished : Prop}
    (h : (e.source pre post pending s).HoldsColumn env o k arrays finished)
    (hext : (e.source pre post pending s).Extends (e.target pre post pending s))
    (hne : k ≠ e.leaf.column) :
    (e.target pre post pending s).HoldsColumn env o k arrays finished := by
  refine h.mono hext rfl ?_ fun l hl hcolumn => ⟨l, mem_of_mem_left hl (hcolumn ▸ hne), hcolumn,
    fun _ hrest => hrest⟩
  rw [Point.waiting, List.filter_append, filter_stamp_ne (Ne.symm hne), List.append_nil]
  rfl

/-- **A call refines its action.** -/
theorem Point.Refines.call (hbytes : env.IndicesHaveBytes o.wasmContext) {action : Action}
    (h : (e.source pre post pending s).Refines env o n j) (hruns : e.Runs env)
    (his : e.Is env action) (hcounter : s.columnCounters[e.leaf.field]? = some e.before.counter)
    (hfit : e.after.ctx.dictionaries.length < 2 ^ 32) (hj : j.after n action = some j') :
    (e.target pre post pending s).Refines env o n j' := by
  have hstep : Step env AnyCall (e.source pre post pending s) (e.target pre post pending s) :=
    .call e hruns trivial hcounter
  have hext := hstep.extends h.sound hfit
  have hfit' := Nat.lt_of_le_of_lt hstep.length_le hfit
  obtain ⟨hnodup, hlt⟩ := h.columns
  have hk : e.leaf.column < n := hlt e.leaf (by simp)
  have hsame : (pre ++ e.left :: post).map Leaf.column = (pre ++ e.leaf :: post).map Leaf.column := by
    simp [CallEvent.left]
  have hcolumns : ((pre ++ e.left :: post).map Leaf.column).Nodup ∧
      ∀ l ∈ pre ++ e.left :: post, l.column < n := by
    refine ⟨hsame ▸ hnodup, fun l hl => ?_⟩
    have hmem : l.column ∈ (pre ++ e.leaf :: post).map Leaf.column :=
      hsame ▸ List.mem_map_of_mem hl
    obtain ⟨l₀, hl₀, hcolumn⟩ := List.mem_map.1 hmem
    exact hcolumn ▸ hlt l₀ hl₀
  have hclosed := h.closed.imp fun _ _ hg => EntryOf.mono hg hext.knows hext.file hext.narrowed
  obtain ⟨more, hcalled, hcases⟩ :=
    (h.current _ hk).called hbytes h.sound hnodup hext hruns his hfit' hfit
  have hothers : ∀ k < n, k ≠ e.leaf.column → (e.target pre post pending s).HoldsColumn env o k
      (j.current.arrays k) (k ∈ j.finished) :=
    fun k hkn hne => (h.current k hkn).notCalled hext hne
  rcases hcases with ⟨a, rfl, rfl⟩ | ⟨rfl, rfl⟩
  · cases hj
    refine ⟨h.sound.step hstep hfit, hcolumns, h.numColumns, fun k hkn => ?_, h.rows, hclosed,
      h.rowCounts, h.counts⟩
    by_cases hne : k = e.leaf.column
    · subst hne
      dsimp only [FileWriter.addArrays]
      rw [if_pos rfl]
      exact hcalled.weaken fun hmem => absurd hmem (Finset.notMem_erase _ _)
    · dsimp only [FileWriter.addArrays]
      rw [if_neg hne]
      exact (hothers k hkn hne).weaken Finset.mem_of_mem_erase
  · cases hj
    refine ⟨h.sound.step hstep hfit, hcolumns, h.numColumns, fun k hkn => ?_, h.rows, hclosed,
      h.rowCounts, h.counts⟩
    by_cases hne : k = e.leaf.column
    · subst hne
      rw [List.append_nil] at hcalled
      exact hcalled.weaken fun _ => rfl
    · exact (hothers k hkn hne).weaken fun hmem => Finset.mem_of_mem_insert_of_ne hmem hne

/-! ## The other steps -/

/-- A submission keeps the arrays of the encoder. -/
theorem PhysicalColEncoder.submitDict_has {s t : Working PhysicalColEncoder}
    (hnone : s.enc.submittedDictIdx = none) (hfit : s.ctx.dictionaries.length < 2 ^ 32)
    (h : submitDict s = .ok () t) {rest : List ArrayRef} (hhas : s.enc.Has env o rest) :
    t.enc.Has env o rest := by
  obtain ⟨enc, counter, ctx, rng⟩ := s
  cases enc with
  | sharedDict e =>
      have h' : delegate .sharedDict e SharedDictColEncoder.submitDict
          ⟨.sharedDict e, counter, ctx, rng⟩ = .ok () t := h
      obtain ⟨u, hu, rfl⟩ := delegate_eq_ok h'
      obtain ⟨d, -, -, henc⟩ := SharedDictColEncoder.submitDict_effect
        (s := ⟨e, counter, ctx, rng⟩) hnone hfit hu
      show u.enc.wasmContext = o.wasmContext ∧ u.enc.bufferedArrays = rest
      rw [henc]
      exact hhas
  | encoderDict e => cases h; exact hhas
  | dict e => cases h; exact hhas
  | glBest e => cases h; exact hhas

/-- A step that changes no more than an encoder, which keeps its arrays, and the context. -/
theorem Point.Refines.keep {a b : Point} {action : Action} (h : a.Refines env o n j)
    (hsound : b.Sound) (hext : a.Extends b) (hstate : b.state = a.state)
    (hpending : b.pending = a.pending)
    (hcolumns : b.leaves.map Leaf.column = a.leaves.map Leaf.column)
    (hleaves : ∀ l' ∈ b.leaves, ∃ l ∈ a.leaves, l.column = l'.column ∧
      ∀ rest, l.encoder.Has env o rest → l'.encoder.Has env o rest)
    (hj : j.after n action = some j') (hsame : j.after n action = some j) : b.Refines env o n j' := by
  rw [hsame] at hj
  cases hj
  refine ⟨hsound, ⟨hcolumns ▸ h.columns.1, fun l hl => ?_⟩, hstate ▸ h.numColumns, fun k hk => ?_,
    hstate ▸ h.rows, ?_, hstate ▸ h.rowCounts, hstate ▸ h.counts⟩
  · obtain ⟨l₀, hl₀, hcolumn, -⟩ := hleaves l hl
    exact hcolumn ▸ h.columns.2 l₀ hl₀
  · refine (h.current k hk).mono hext (by rw [hstate]) (by rw [Point.waiting, hpending]; rfl) ?_
    intro l hl hcolumn
    obtain ⟨l₀, hl₀, hcolumn₀, hhas⟩ := hleaves l hl
    exact ⟨l₀, hl₀, hcolumn₀.trans hcolumn, hhas⟩
  · rw [show b.state.rowGroupsTable = a.state.rowGroupsTable by rw [hstate]]
    exact h.closed.imp fun _ _ hg => hg.mono hext.knows hext.file hext.narrowed

/-- Flushing a chunk. -/
theorem Point.Refines.flushChunk {ls : List Leaf} {c : EncodedColumnChunk}
    {pending : List EncodedColumnChunk} {s s' : FileWriteState} {ctx : SharedDictionaryContext}
    (h : Point.Refines env o n ⟨ls, c :: pending, s, ctx⟩ j) (hrun : s.flushChunk env c = .ok s')
    (hfit : ctx.dictionaries.length < 2 ^ 32) : Point.Refines env o n ⟨ls, pending, s', ctx⟩ j := by
  have hstep : Step env AnyCall ⟨ls, c :: pending, s, ctx⟩ ⟨ls, pending, s', ctx⟩ := .flushChunk hrun
  have hext := hstep.extends h.sound hfit
  have hclosed := h.closed.imp fun _ _ hg => EntryOf.mono hg hext.knows hext.file hext.narrowed
  obtain ⟨m₀, hm₀, rfl⟩ := FileWriteState.flushChunk_eq_ok.1 hrun
  have hlt := (List.getElem?_eq_some_iff.1 hm₀).1
  refine ⟨h.sound.step hstep hfit, h.columns,
    ⟨h.numColumns.1, (List.length_set ..).trans h.numColumns.2⟩, fun k hk => ?_, h.rows, hclosed,
    h.rowCounts, fun hall => h.counts fun v hv => hall v (List.mem_append_left _ hv)⟩
  by_cases hne : k = c.columnIndex
  · subst hne
    obtain ⟨m, recorded, waiting, rest, hm, hrecorded, hcontents, hhas, hflat, hrest⟩ :=
      h.current _ hk
    rw [hm, Option.some.injEq] at hm₀
    subst hm₀
    have hwaiting : Point.waiting ⟨ls, c :: pending, s, ctx⟩ c.columnIndex =
        c :: Point.waiting ⟨ls, pending, s, ctx⟩ c.columnIndex :=
      List.filter_cons_of_pos (decide_eq_true rfl)
    rw [hwaiting] at hcontents
    cases hcontents with
    | @cons _ arrays _ contents hc hcontents =>
        refine ⟨_, recorded ++ [arrays], contents, rest, List.getElem?_set_self hlt, ?_,
          hcontents.imp fun _ _ hc => hc.mono fun i d _ => hext.knows i d, hhas, ?_, hrest⟩
        · refine List.rel_append (hrecorded.imp fun _ _ hr =>
            hr.mono hext.knows hext.file hext.narrowed) (.cons ?_ .nil)
          exact ⟨c, s.enableIoUnitChecksum, s.writer.length, rfl, holdsAt_snoc s.writer c.bytes,
            fun v hv => List.mem_append_right _ hv, hc.mono fun i d _ => hext.knows i d⟩
        · rw [← hflat]
          simp only [List.flatten_append, List.flatten_cons, List.flatten_nil, List.append_nil,
            List.append_assoc]
  · refine (h.current k hk).mono hext (List.getElem?_set_ne (Ne.symm hne)) ?_
      fun l hl hcolumn => ⟨l, hl, hcolumn, fun _ hrest => hrest⟩
    exact (List.filter_cons_of_neg (fun hmem => hne (of_decide_eq_true hmem).symm)).symm

/-- Counting rows. -/
theorem Point.Refines.addRows {ls : List Leaf} {s : FileWriteState} {ctx : SharedDictionaryContext}
    (h : Point.Refines env o n ⟨ls, [], s, ctx⟩ j) {rows : Nat}
    (hfit : ctx.dictionaries.length < 2 ^ 32) (hj : j.after n (.addRows rows) = some j') :
    Point.Refines env o n ⟨ls, [], s.addRows rows, ctx⟩ j' := by
  have hstep : Step env AnyCall ⟨ls, [], s, ctx⟩ ⟨ls, [], s.addRows rows, ctx⟩ := .addRows rows
  have hext := hstep.extends h.sound hfit
  cases hj
  refine ⟨h.sound.step hstep hfit, h.columns, h.numColumns, fun k hk => ?_, ?_,
    h.closed.imp fun _ _ hg => EntryOf.mono hg hext.knows hext.file hext.narrowed, h.rowCounts,
    fun hall => ?_⟩
  · exact (h.current k hk).mono hext rfl rfl fun l hl hcolumn => ⟨l, hl, hcolumn, fun _ hrest => hrest⟩
  · show u32 (s.numRowsInCurRowGroup + u32 rows) = u32 (j.current.rows + rows)
    have hrows : s.numRowsInCurRowGroup = u32 j.current.rows := h.rows
    rw [hrows, u32_add]
  · obtain ⟨hcurrent, hclosed⟩ := h.counts fun v hv => hall v (List.mem_append_left _ hv)
    refine ⟨?_, hclosed⟩
    have hrows : s.numRowsInCurRowGroup = j.current.rows := h.rows.trans (u32_of_lt hcurrent)
    have hsum : s.numRowsInCurRowGroup + rows < 2 ^ 32 :=
      hall _ (List.mem_append_right _ (by simp))
    rwa [hrows] at hsum

/-- Closing a row group. -/
theorem Point.Refines.finishRowGroup {ls : List Leaf} {s : FileWriteState}
    {ctx : SharedDictionaryContext} (h : Point.Refines env o n ⟨ls, [], s, ctx⟩ j)
    (hfit : ctx.dictionaries.length < 2 ^ 32) (hj : j.after n .finishRowGroup = some j') :
    Point.Refines env o n ⟨ls, [], s.finishRowGroup, ctx⟩ j' := by
  have hstep : Step env AnyCall ⟨ls, [], s, ctx⟩ ⟨ls, [], s.finishRowGroup, ctx⟩ := .finishRowGroup
  have hext := hstep.extends h.sound hfit
  simp only [Journal.after] at hj
  split at hj
  · next hfinished =>
      cases hj
      obtain ⟨hphysical, hlength⟩ := h.numColumns
      -- every column is in the chunks that are recorded
      have hcolumns : ∀ k < n, ∃ m recorded, s.columnMetadatasInCurRowGroup[k]? = some m ∧
          List.Forall₂ (RecordedAs env o (Point.Knows ⟨ls, [], s.finishRowGroup, ctx⟩)
            s.finishRowGroup.writer s.finishRowGroup.narrowed) m.columnChunks recorded ∧
          recorded.flatten = j.current.arrays k ∧
          ∀ l ∈ ls, l.column = k → l.encoder.Has env o [] := by
        intro k hk
        obtain ⟨m, recorded, waiting, rest, hm, hrecorded, hcontents, hhas, hflat, hrest⟩ :=
          h.current k hk
        obtain rfl := hrest (hfinished (Finset.mem_range.2 hk))
        cases hcontents
        rw [List.flatten_nil, List.append_nil, List.append_nil] at hflat
        exact ⟨m, recorded, hm, hrecorded.imp fun _ _ hr =>
          hr.mono hext.knows hext.file hext.narrowed, hflat, hhas⟩
      refine ⟨h.sound.step hstep hfit, h.columns, ⟨hphysical, ?_⟩, fun k hk => ?_, rfl, ?_, ?_,
        fun hall => ?_⟩
      · exact List.length_replicate.trans hphysical
      · obtain ⟨-, -, -, -, -, hhas⟩ := hcolumns k hk
        refine ⟨.empty, [], [], [], ?_, .nil, .nil, hhas, rfl, fun _ => rfl⟩
        show (List.replicate s.numPhysicalColumns ColumnMetadata.empty)[k]? = _
        exact List.getElem?_replicate_of_lt (hphysical ▸ hk)
      · refine List.rel_append (h.closed.imp fun _ _ hg =>
          EntryOf.mono hg hext.knows hext.file hext.narrowed) (.cons ⟨hlength, fun k hk => ?_⟩ .nil)
        obtain ⟨m, recorded, hm, hrecorded, hflat, -⟩ := hcolumns k hk
        exact ⟨m, recorded, hm, hrecorded, hflat⟩
      · have hrows : s.numRowsInCurRowGroup = u32 j.current.rows := h.rows
        have hcounts : s.rowGroupsTable.rowCounts = j.closed.map fun e => u32 e.rows := h.rowCounts
        show s.rowGroupsTable.rowCounts ++ [s.numRowsInCurRowGroup] = _
        rw [hcounts, hrows, List.map_append, List.map_singleton]
      · obtain ⟨hcurrent, hclosed⟩ := h.counts fun v hv => hall v (hstep.narrowed v hv)
        refine ⟨Nat.two_pow_pos 32, fun e he => ?_⟩
        rcases List.mem_append.1 he with he | he
        · exact hclosed e he
        · rw [List.mem_singleton.1 he]
          exact hcurrent
  · cases hj

/-- **Every step refines its action.** -/
theorem Does.refines (hbytes : env.IndicesHaveBytes o.wasmContext) {a b : Point} {action : Action}
    (h : a.Refines env o n j) (hdoes : Does env a action b)
    (hfit : b.ctx.dictionaries.length < 2 ^ 32) (hj : j.after n action = some j') :
    b.Refines env o n j' := by
  have hstep := hdoes.step
  have hext := hstep.extends h.sound hfit
  have hsound := h.sound.step hstep hfit
  cases hdoes with
  | call e hruns his hcounter => exact Point.Refines.call hbytes h hruns his hcounter hfit hj
  | @submitDict pre post l pending s before after hencoder hnone hrun =>
      have hfit' := Nat.lt_of_le_of_lt hstep.length_le hfit
      refine h.keep hsound hext rfl rfl (by simp) (fun l' hl' => ?_) hj rfl
      rcases List.mem_append.1 hl' with hl' | hl'
      · exact ⟨l', List.mem_append_left _ hl', rfl, fun _ hhas => hhas⟩
      · rcases List.mem_cons.1 hl' with rfl | hl'
        · refine ⟨l, by simp, rfl, fun rest hhas => ?_⟩
          rw [← hencoder] at hhas hnone
          exact PhysicalColEncoder.submitDict_has hnone hfit' hrun hhas
        · exact ⟨l', by simp [hl'], rfl, fun _ hhas => hhas⟩
  | mergeDicts hnil hrun =>
      exact h.keep hsound hext rfl rfl rfl (fun l hl => ⟨l, hl, rfl, fun _ hhas => hhas⟩) hj rfl
  | flushChunk hrun =>
      cases hj
      exact h.flushChunk hrun hfit
  | addRows rows => exact h.addRows hfit hj
  | finishRowGroup => exact h.finishRowGroup hfit hj

/-- **A run refines its actions.** -/
theorem refines_of_path (hbytes : env.IndicesHaveBytes o.wasmContext) {a b : Point} {actions : List Action}
    (h : a.Refines env o n j) (hpath : Path (Does env) a actions b)
    (hfit : b.ctx.dictionaries.length < 2 ^ 32) (hj : actions.foldlM (Journal.after n) j = some j') :
    b.Refines env o n j' :=
  hpath.refines (P := fun p => p.ctx.dictionaries.length < 2 ^ 32)
    (fun _ _ _ hdoes hlt => Nat.lt_of_le_of_lt hdoes.step.length_le hlt)
    (fun h hdoes hlt hj => hdoes.refines hbytes h hlt hj) hfit h hj

end Calls

/-! ## The journal of a run -/

namespace FileWriter

/-- The arrays that are sent to column `k`. -/
def sentTo (k : Nat) (sends : List (Nat × ArrayRef)) : List ArrayRef :=
  sends.filterMap fun c => if c.1 = k then some c.2 else none

/-- The arrays that some batches give a physical column. -/
def columnArrays (es : List LogicalColEncoder) (lens : List (Nat × Nat)) (bs : List RecordBatch)
    (k : Nat) : List ArrayRef :=
  bs.flatMap fun b => sentTo k (batchSends es lens b)

/-- The row group of some batches. -/
def entryOf (es : List LogicalColEncoder) (lens : List (Nat × Nat)) (bs : List RecordBatch) :
    Entry :=
  ⟨columnArrays es lens bs, (bs.map RecordBatch.numRows).sum⟩

/-- The journal is that of these row groups. -/
structure JournalOf (es : List LogicalColEncoder) (lens : List (Nat × Nat))
    (groups : Groups RecordBatch) (j : Journal) : Prop where
  closed : j.closed = groups.closed.map (entryOf es lens)
  current : j.current = entryOf es lens groups.current

section Journals

variable {es : List LogicalColEncoder} {lens : List (Nat × Nat)} {n : Nat}

theorem addArrays_sentTo (cols : Nat → List ArrayRef) (c : Nat × ArrayRef)
    (sends : List (Nat × ArrayRef)) :
    (fun k => addArrays cols c.1 [c.2] k ++ sentTo k sends) =
      fun k => cols k ++ sentTo k (c :: sends) := by
  funext k
  by_cases hk : k = c.1
  · subst hk
    simp [addArrays, sentTo]
  · simp [addArrays, sentTo, hk, Ne.symm hk]

/-- Arrays that are sent are added to their columns. -/
theorem foldlM_send : ∀ (sends : List (Nat × ArrayRef)) (j : Journal), ∃ finished,
    (sends.map Action.send).foldlM (Journal.after n) j =
      some ⟨j.closed, ⟨fun k => j.current.arrays k ++ sentTo k sends, j.current.rows⟩, finished⟩
  | [], j => ⟨j.finished, by simp [sentTo]⟩
  | c :: sends, j => by
      obtain ⟨finished, h⟩ := foldlM_send sends { j with
        current := ⟨addArrays j.current.arrays c.1 [c.2], j.current.rows⟩
        finished := j.finished.erase c.1 }
      refine ⟨finished, ?_⟩
      rw [List.map_cons, List.foldlM_cons]
      refine h.trans ?_
      rw [← addArrays_sentTo]

/-- Columns that are finished. -/
theorem foldlM_finish : ∀ (columns : List Nat) (j : Journal),
    (columns.map Action.finish).foldlM (Journal.after n) j =
      some { j with finished := columns.toFinset ∪ j.finished }
  | [], j => by simp
  | k :: columns, j => by
      rw [List.map_cons, List.foldlM_cons]
      refine (foldlM_finish columns { j with finished := insert k j.finished }).trans ?_
      rw [List.toFinset_cons, Finset.union_insert, Finset.insert_union]

/-- Submitting and merging dictionaries is not seen in the journal. -/
theorem foldlM_dictionaries (j : Journal) : ∀ {actions : List Action},
    (∀ a ∈ actions, a = .submitDict ∨ a = .mergeDicts) →
      actions.foldlM (Journal.after n) j = some j
  | [], _ => rfl
  | a :: actions, h => by
      obtain ⟨ha, hrest⟩ := List.forall_mem_cons.1 h
      rw [List.foldlM_cons]
      rcases ha with rfl | rfl
      · exact foldlM_dictionaries j hrest
      · exact foldlM_dictionaries j hrest

theorem entryOf_snoc (bs : List RecordBatch) (b : RecordBatch) :
    entryOf es lens (bs ++ [b]) = ⟨fun k => (entryOf es lens bs).arrays k ++
      sentTo k (batchSends es lens b), (entryOf es lens bs).rows + b.numRows⟩ := by
  have harrays : columnArrays es lens (bs ++ [b]) =
      fun k => columnArrays es lens bs k ++ sentTo k (batchSends es lens b) := by
    funext k
    simp [columnArrays]
  rw [entryOf, harrays]
  simp [entryOf]

theorem recordedRows_eq (bs : List RecordBatch) :
    recordedRows bs = u32 (bs.map RecordBatch.numRows).sum := by
  induction bs using List.reverseRecOn with
  | nil => rfl
  | append_singleton bs b ih => rw [recordedRows_snoc, ih, u32_add]; simp

/-- A batch of the row group in progress. -/
theorem JournalOf.batch {groups : Groups RecordBatch} {j : Journal}
    (h : JournalOf es lens groups j) (b : RecordBatch) : ∃ j',
      (batchActions es lens b).foldlM (Journal.after n) j = some j' ∧
        JournalOf es lens ⟨groups.closed, groups.current ++ [b]⟩ j' := by
  obtain ⟨finished, hsends⟩ := foldlM_send (n := n) (batchSends es lens b) j
  refine ⟨⟨j.closed, entryOf es lens (groups.current ++ [b]), finished⟩, ?_, h.closed, rfl⟩
  rw [batchActions, List.foldlM_append, hsends, h.current, entryOf_snoc]
  rfl

/-- Closing a row group. -/
theorem JournalOf.close {groups : Groups RecordBatch} {j : Journal}
    (h : JournalOf es lens groups j) (hcolumns : LogicalColEncoder.columnsOf es = List.range n) :
    ∃ j', (closeActions es).foldlM (Journal.after n) j = some j' ∧
      JournalOf es lens ⟨groups.closed ++ [groups.current], []⟩ j' := by
  have hsubset : Finset.range n ⊆ (List.range n).toFinset ∪ j.finished := by
    intro k hk
    simp only [Finset.mem_union, List.mem_toFinset, List.mem_range]
    exact .inl (Finset.mem_range.1 hk)
  refine ⟨⟨j.closed ++ [j.current], .empty, (List.range n).toFinset ∪ j.finished⟩, ?_, ?_, rfl⟩
  · rw [closeActions, List.foldlM_append, foldlM_finish, hcolumns]
    simp only [Option.bind_eq_bind, Option.bind_some, List.foldlM_cons, List.foldlM_nil,
      Journal.after, if_pos hsubset]
    rfl
  · show j.closed ++ [j.current] = _
    rw [h.closed, h.current, List.map_append, List.map_singleton]

/-- Finishing all columns is not seen in the row groups. -/
theorem JournalOf.finish {groups : Groups RecordBatch} {j : Journal}
    (h : JournalOf es lens groups j) (columns : List Nat) : ∃ j',
      (columns.map Action.finish).foldlM (Journal.after n) j = some j' ∧
        JournalOf es lens groups j' :=
  ⟨_, foldlM_finish columns j, h.closed, h.current⟩

end Journals

section Runs

variable {env : Env} {o : EncoderOptions} {parts : Fixed} {es : List LogicalColEncoder}
  {n : Nat} {w w' : FileWriter} {groups : Groups RecordBatch}

theorem Ran.steps {actions : List Action} (h : Ran env actions w w') :
    Steps env AnyCall w.point w'.point := by
  obtain ⟨path, hpath, -⟩ := h
  exact steps_of_path hpath

/-- The writer refines a journal along its actions. -/
theorem Ran.refines (hbytes : env.IndicesHaveBytes o.wasmContext) {actions : List Action} {j j' : Journal}
    (h : Ran env actions w w') (hw : w.point.Refines env o n j)
    (hfit : w'.sharedDictionaryContext.dictionaries.length < 2 ^ 32)
    (hj : actions.foldlM (Journal.after n) j = some j') : w'.point.Refines env o n j' := by
  obtain ⟨path, hpath, rfl⟩ := h
  rw [Journal.foldlM_essential] at hj
  exact refines_of_path hbytes hw hpath hfit hj

/-- A writer in the middle of a run, with the row groups of its batches. -/
structure Journaled (env : Env) (o : EncoderOptions) (parts : Fixed)
    (es : List LogicalColEncoder) (n : Nat) (w : FileWriter) (groups : Groups RecordBatch) :
    Prop where
  running : Running parts es w
  refines : ∃ j, JournalOf es parts.customEncunitLen groups j ∧ w.point.Refines env o n j

theorem Journaled.writeBatch (hbytes : env.IndicesHaveBytes o.wasmContext)
    (hcolumns : LogicalColEncoder.columnsOf es = List.range n)
    (h : Journaled env o parts es n w groups) {b : RecordBatch}
    (hr : Act.Returns (FileWriter.writeBatch env b) w () w')
    (hfit : w'.sharedDictionaryContext.dictionaries.length < 2 ^ 32) :
    Journaled env o parts es n w' (groups.add (groupFull parts.rowGroupSize) b) := by
  obtain ⟨j, hj, hrefines⟩ := h.refines
  obtain ⟨w₁, hbatch, hrunning, hclose⟩ := ran_writeBatch h.running hr
  obtain ⟨j₁, hj₁, hof₁⟩ := hj.batch (n := n) b
  have hfit₁ : w₁.sharedDictionaryContext.dictionaries.length < 2 ^ 32 := by
    split at hclose
    · exact Nat.lt_of_le_of_lt hclose.steps.length_le hfit
    · exact hclose ▸ hfit
  have hrefines₁ := hbatch.refines hbytes hrefines hfit₁ hj₁
  -- the writer looks at the rows that the journal counts
  have hrows : w₁.state.numRowsInCurRowGroup = recordedRows (groups.current ++ [b]) := by
    have hcount : w₁.state.numRowsInCurRowGroup = u32 j₁.current.rows := hrefines₁.rows
    rw [hcount, hof₁.current, recordedRows_eq]
    rfl
  rw [hrows] at hclose
  by_cases hfull : parts.rowGroupSize ≤ recordedRows (groups.current ++ [b])
  · rw [if_pos hfull] at hclose
    obtain ⟨j₂, hj₂, hof₂⟩ := hof₁.close hcolumns
    rw [Groups.add_of_full (decide_eq_true hfull)]
    exact ⟨hrunning, j₂, hof₂, hclose.refines hbytes hrefines₁ hfit hj₂⟩
  · rw [if_neg hfull] at hclose
    subst hclose
    rw [Groups.add_of_not_full (decide_eq_false hfull)]
    exact ⟨hrunning, j₁, hof₁, hrefines₁⟩

theorem Journaled.flushPendingChunks (hbytes : env.IndicesHaveBytes o.wasmContext)
    (h : Journaled env o parts es n w groups)
    (hr : Act.Returns (FileWriter.flushPendingChunks env) w () w')
    (hfit : w'.sharedDictionaryContext.dictionaries.length < 2 ^ 32) :
    Journaled env o parts es n w' groups := by
  obtain ⟨j, hj, hrefines⟩ := h.refines
  obtain ⟨hran, hrunning⟩ := plays_flushPendingChunks w w' h.running hr
  obtain ⟨j', hj', hof⟩ := hj.finish (n := n) (LogicalColEncoder.columnsOf es)
  exact ⟨hrunning, j', hof, hran.refines hbytes hrefines hfit hj'⟩

/-- **A run of calls.** -/
theorem Journaled.calls (hbytes : env.IndicesHaveBytes o.wasmContext)
    (hcolumns : LogicalColEncoder.columnsOf es = List.range n)
    (h : Journaled env o parts es n w groups) {cs : List Call}
    (hr : Act.Returns (FileWriter.calls env cs) w () w')
    (hfit : w'.sharedDictionaryContext.dictionaries.length < 2 ^ 32) :
    Journaled env o parts es n w'
      ((batches cs).foldl (Groups.add (groupFull parts.rowGroupSize)) groups) := by
  induction cs generalizing w groups with
  | nil =>
      obtain rfl := (Act.returns_forEach_nil _ _ _ _).1 hr
      exact h
  | cons c cs ih =>
      obtain ⟨w₁, hcall, hrest⟩ := (Act.returns_forEach_cons _ _ _ _ _ _).1 hr
      have hunmerged : Unmerged w₁ := (goes_call c w () w₁ h.running.unmerged hcall).2
      have hgoes : Goes env Unmerged (FileWriter.calls env cs) := goes_forEach (fun c => goes_call c) cs
      have hfit₁ := Nat.lt_of_le_of_lt (hgoes w₁ () w' hunmerged hrest).1.length_le hfit
      cases c with
      | writeBatch b => exact ih (h.writeBatch hbytes hcolumns hcall hfit₁) hrest
      | flushPendingChunks => exact ih (h.flushPendingChunks hbytes hcall hfit₁) hrest

/-- **The row groups of `finish`** close the last one. -/
theorem Journaled.finishRowGroups (hbytes : env.IndicesHaveBytes o.wasmContext)
    (hcolumns : LogicalColEncoder.columnsOf es = List.range n)
    (h : Journaled env o parts es n w groups)
    (hr : Act.Returns (FileWriter.finishRowGroups env) w () w')
    (hfit : w'.sharedDictionaryContext.dictionaries.length < 2 ^ 32) :
    ∃ j, JournalOf es parts.customEncunitLen ⟨groups.all, []⟩ j ∧ w'.point.Refines env o n j := by
  obtain ⟨j, hj, hrefines⟩ := h.refines
  obtain ⟨actions, w₁, hactions, hran, hclose⟩ := ran_finishRowGroups h.running hr
  have hfit₁ := Nat.lt_of_le_of_lt hclose.steps.length_le hfit
  have hrefines₁ := hran.refines hbytes hrefines hfit₁ (foldlM_dictionaries j hactions)
  obtain ⟨j', hj', hof⟩ := hj.close hcolumns
  exact ⟨j', hof, hclose.refines hbytes hrefines₁ hfit hj'⟩

end Runs

section Files

variable {env : Env} {schema : List Field} {options : FileWriterOptions} {cs : List Call}
  {w w₀ w₁ : FileWriter} {sec : Sections} {p : PostscriptValues}

/-- The encoders of a new writer have the columns in order. -/
theorem columnsOf_tryNew (hsup : Field.supportedAll schema = true)
    (h : tryNew env schema options = .ok w) :
    LogicalColEncoder.columnsOf w.columnEncoders = List.range (Field.nodesAll schema) ∧
      w.state.numPhysicalColumns = Field.nodesAll schema := by
  obtain ⟨es, trees, hes, hcols⟩ :=
    createLogicalEncoders_numbers (encoderOptions env options) schema 0 hsup
  simp only [tryNew, bind_eq_ok, pure_eq_ok, Except.ok.injEq] at h
  obtain ⟨r, hr, rfl⟩ := h
  rw [encoderOptions] at hes
  rw [hes, Except.ok.injEq] at hr
  subst hr
  exact ⟨by rw [List.range_eq_range']; exact hcols, Nat.zero_add _⟩

/-- A new writer refines the empty journal. -/
theorem refines_tryNew (hsup : Field.supportedAll schema = true)
    (h : tryNew env schema options = .ok w) :
    w.point.Refines env (encoderOptions env options) (Field.nodesAll schema) .empty := by
  obtain ⟨hcolumns, hnum⟩ := columnsOf_tryNew hsup h
  obtain ⟨hleaves, -⟩ := tryNew_point h
  have hsound := sound_point h
  have hmap : w.leaves.map Leaf.column = List.range (Field.nodesAll schema) := by
    rw [leaves, columns_fieldLeaves, hcolumns]
  obtain ⟨hmetadatas, hrows, htable⟩ : w.state.columnMetadatasInCurRowGroup =
      List.replicate w.state.numPhysicalColumns .empty ∧ w.state.numRowsInCurRowGroup = 0 ∧
        w.state.rowGroupsTable = .empty := by
    simp only [tryNew, bind_eq_ok, pure_eq_ok, Except.ok.injEq] at h
    obtain ⟨r, hr, rfl⟩ := h
    exact ⟨rfl, rfl, rfl⟩
  refine ⟨hsound, ⟨?_, fun l hl => ?_⟩, ⟨hnum, ?_⟩, fun k hk => ?_, hrows, ?_, ?_, fun _ => ?_⟩
  · show (w.leaves.map Leaf.column).Nodup
    rw [hmap]
    exact List.nodup_range
  · have hmem : l.column ∈ w.leaves.map Leaf.column := List.mem_map_of_mem hl
    rw [hmap] at hmem
    exact List.mem_range.1 hmem
  · show w.state.columnMetadatasInCurRowGroup.length = _
    rw [hmetadatas, List.length_replicate, hnum]
  · refine ⟨.empty, [], [], [], ?_, .nil, .nil, fun l hl _ => ?_, rfl, fun _ => rfl⟩
    · show w.state.columnMetadatasInCurRowGroup[k]? = _
      rw [hmetadatas, hnum]
      exact List.getElem?_replicate_of_lt hk
    · obtain ⟨-, dataType, hp⟩ := hleaves l hl
      exact PhysicalColEncoder.has_physical hp
  · show List.Forall₂ _ w.state.rowGroupsTable.rowGroupMetadata []
    rw [htable]
    exact .nil
  · show w.state.rowGroupsTable.rowCounts = []
    rw [htable]
    rfl
  · exact ⟨Nat.two_pow_pos 32, List.forall_mem_nil _⟩

/-- The dictionaries are counted among what the trailer says. -/
theorem dictionaries_mem_narrowed {t : FileWriteState}
    (h : writeSections env w = .ok (t, sec, p)) :
    w.sharedDictionaryContext.dictionaries.length ∈ t.narrowed := by
  simp only [writeSections, bind_eq_ok, pure_eq_ok, Except.ok.injEq, Prod.mk.injEq] at h
  obtain ⟨r, -, positions, -, ht, -, -⟩ := h
  rw [← ht]
  simp only [writeTrailer, FileWriteState.log, FileWriteState.writeAndUpdate]
  exact List.mem_append_left _ (List.mem_append_right _ (List.mem_append_right _ (by simp)))

/-- **The journal of a run**, after any of its calls. -/
theorem Reaches.journaled (h : Reaches env schema options cs w)
    (hsup : Field.supportedAll schema = true)
    (hbytes : env.IndicesHaveBytes (options.wasmContext env))
    (hfit : w.sharedDictionaryContext.dictionaries.length < 2 ^ 32) :
    ∃ w₀, tryNew env schema options = .ok w₀ ∧
      w₀.customEncunitLen = options.customEncunitLen ∧
      LogicalColEncoder.columnsOf w₀.columnEncoders = List.range (Field.nodesAll schema) ∧
      Journaled env (encoderOptions env options) w₀.fixed w₀.columnEncoders
        (Field.nodesAll schema) w (collectGroups (groupFull options.rowGroupSize) (batches cs)) := by
  obtain ⟨w₀, hnew, hcalls⟩ := h
  obtain ⟨hcolumns, -⟩ := columnsOf_tryNew hsup hnew
  have hstart : Journaled env (encoderOptions env options) w₀.fixed w₀.columnEncoders
      (Field.nodesAll schema) w₀ .empty :=
    ⟨running_tryNew hnew, .empty, ⟨rfl, rfl⟩, refines_tryNew hsup hnew⟩
  have hfixed : w₀.customEncunitLen = options.customEncunitLen ∧
      w₀.rowGroupSize = options.rowGroupSize := by
    simp only [tryNew, bind_eq_ok, pure_eq_ok, Except.ok.injEq] at hnew
    obtain ⟨r, -, rfl⟩ := hnew
    exact ⟨rfl, rfl⟩
  have hjournaled := hstart.calls hbytes hcolumns hcalls hfit
  rw [show w₀.fixed.rowGroupSize = options.rowGroupSize from hfixed.2] at hjournaled
  exact ⟨w₀, hnew, hfixed.1, hcolumns, hjournaled⟩

/-- The journal of a run in `finish`, before anything else is written. -/
theorem Reaches.journal (h : Reaches env schema options cs w)
    (hgroups : Act.Returns (finishRowGroups env) w () w₁)
    (hsup : Field.supportedAll schema = true)
    (hbytes : env.IndicesHaveBytes (options.wasmContext env))
    (hfit : w₁.sharedDictionaryContext.dictionaries.length < 2 ^ 32) :
    ∃ w₀ j, tryNew env schema options = .ok w₀ ∧
      JournalOf w₀.columnEncoders options.customEncunitLen
        ⟨rowGroupsOf options (batches cs), []⟩ j ∧
      w₁.point.Refines env (encoderOptions env options) (Field.nodesAll schema) j := by
  have hunmerged : Unmerged w := by
    obtain ⟨w₀, hnew, hcalls⟩ := h
    exact ((goes_forEach (fun c => goes_call c) cs) w₀ () w (unmerged_tryNew hnew) hcalls).2
  have hcount := Nat.lt_of_le_of_lt (steps_of_finishRowGroups hunmerged hgroups).length_le hfit
  obtain ⟨w₀, hnew, hlens, hcolumns, hjournaled⟩ := h.journaled hsup hbytes hcount
  obtain ⟨j, hof, hrefines⟩ := hjournaled.finishRowGroups hbytes hcolumns hgroups hfit
  exact ⟨w₀, j, hnew, hlens ▸ hof, hrefines⟩

/-- What the row groups of the file of a run hold: in each column the arrays that
its batches send there, in order, and as many rows as they have. -/
structure Stored (env : Env) (schema : List Field) (options : FileWriterOptions)
    (es : List LogicalColEncoder) (w w₁ : FileWriter) (rowGroups : List (List RecordBatch)) :
    Prop where
  groups : List.Forall₂ (fun g bs => EntryOf env (encoderOptions env options) w₁.point.Knows w.file
    w.state.narrowed (Field.nodesAll schema) g (entryOf es options.customEncunitLen bs))
      w.state.rowGroupsTable.rowGroupMetadata rowGroups
  rowCounts : w.state.rowGroupsTable.rowCounts =
    rowGroups.map fun bs => (bs.map RecordBatch.numRows).sum
  counts : ∀ bs ∈ rowGroups, (bs.map RecordBatch.numRows).sum < 2 ^ 32

/-- The file of a finished run begins with its row groups, and has their table. -/
theorem FinishesWith.extends (h : FinishesWith env schema options cs w w₁ sec p) :
    (∃ more, w.file = w₁.state.writer ++ more) ∧
      (∃ sections, w.state.rowGroupsTable =
        { w₁.state.rowGroupsTable with indirectRowGroupMetadata := sections }) ∧
      ∀ v ∈ w₁.state.narrowed, v ∈ w.state.narrowed := by
  obtain ⟨f, hf⟩ := writeSections_spec h.sections
  obtain ⟨sections, htable, -⟩ := hf.sections
  refine ⟨⟨f.dictionaries ++ f.wasms ++ f.wasmTable ++
    (f.metadata ++ (f.footer ++ f.postscript)), ?_⟩, ⟨_, htable⟩, hf.narrowed⟩
  rw [file, hf.file, FileParts.bytes, FileParts.data, hf.rowGroups]
  simp only [List.append_assoc]

/-- **The file of a finished run.** No array is lost, doubled or moved, whichever
encoders are at work. -/
theorem FinishesWith.stored (h : FinishesWith env schema options cs w w₁ sec p)
    (hsup : Field.supportedAll schema = true)
    (hbytes : env.IndicesHaveBytes (options.wasmContext env)) (hfit : w.Fits) :
    ∃ w₀, tryNew env schema options = .ok w₀ ∧
      Stored env schema options w₀.columnEncoders w w₁ (rowGroupsOf options (batches cs)) := by
  obtain ⟨wend, hreach, hgroups⟩ := h.rowGroups
  obtain ⟨w₀, j, hnew, hof, hrefines⟩ := hreach.journal hgroups hsup hbytes
    (hfit _ (dictionaries_mem_narrowed h.sections))
  obtain ⟨hfile, ⟨sections, htable⟩, hnarrowed⟩ := h.extends
  have hclosed : j.closed = (rowGroupsOf options (batches cs)).map
      (entryOf w₀.columnEncoders options.customEncunitLen) := hof.closed
  obtain ⟨-, hrows⟩ := hrefines.counts fun v hv => hfit v (hnarrowed v hv)
  refine ⟨w₀, hnew, ?_, ?_, fun bs hbs => hrows _ (hclosed ▸ List.mem_map_of_mem hbs)⟩
  · have hentries := hrefines.closed.imp fun _ _ hg =>
      EntryOf.mono hg (fun _ _ hknows => hknows) hfile hnarrowed
    rw [hclosed, List.forall₂_map_right_iff] at hentries
    rw [htable]
    exact hentries
  · have hcounts : w₁.state.rowGroupsTable.rowCounts = j.closed.map fun e => u32 e.rows :=
      hrefines.rowCounts
    rw [htable]
    show w₁.state.rowGroupsTable.rowCounts = _
    rw [hcounts, List.map_congr_left fun e he => u32_of_lt (hrows e he), hclosed, List.map_map]
    rfl

theorem stored_sample : ∃ w w₁ sec p w₀,
    FinishesWith Sample.env Sample.structSchema Sample.dictionaryOptions
      [.writeBatch Sample.structBatch] w w₁ sec p ∧
    tryNew Sample.env Sample.structSchema Sample.dictionaryOptions = .ok w₀ ∧
      Stored Sample.env Sample.structSchema Sample.dictionaryOptions w₀.columnEncoders w w₁
        (rowGroupsOf Sample.dictionaryOptions [Sample.structBatch]) := by
  have hrun : runFits Sample.env Sample.structSchema Sample.dictionaryOptions
      [.writeBatch Sample.structBatch] = true := by
    decide +kernel
  obtain ⟨w, hfinishes, hfits⟩ := exists_of_runFits hrun
  obtain ⟨w₁, sec, p, h⟩ := finishes_iff.1 hfinishes
  obtain ⟨w₀, hnew, hstored⟩ := h.stored (by decide)
    (indicesHaveBytes_of_native Sample.compressionLaws fun _ => rfl) hfits
  exact ⟨w, w₁, sec, p, w₀, h, hnew, hstored⟩

end Files

end FileWriter

end F3Format
