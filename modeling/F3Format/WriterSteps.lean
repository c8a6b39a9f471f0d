import F3Format.IndexUnits
import F3Format.WriterRuns

/-!
# Runs as sequences of steps

A writer calls the physical encoders of its columns one at a time, also those
inside a nested field. A `Step` is one such call, or one of the other things a
writer does with its state. Every call of the writer is a sequence of steps
(`steps_of_reaches`, `steps_of_finishRowGroups`), so that what each step keeps
holds at every point of a run.
-/

set_option autoImplicit false

namespace F3Format

open Lib

/-! ## The physical encoders of a writer -/

/-- A physical encoder, its column, and the field it belongs to. -/
structure Leaf where
  encoder : PhysicalColEncoder
  column : Nat
  field : Nat

/-- The dictionary an encoder has submitted its values to. -/
def PhysicalColEncoder.submittedDictIdx : PhysicalColEncoder → Option Nat
  | sharedDict e => e.submittedDictIdx
  | _ => none

namespace LogicalColEncoder

mutual

/-- The physical encoders of a field, parents before children. -/
def leaves (field : Nat) : LogicalColEncoder → List Leaf
  | flat p i => [⟨p, i, field⟩]
  | list p i v => ⟨p, i, field⟩ :: leaves field v
  | struct p i fs => ⟨p, i, field⟩ :: allLeaves field fs

/-- The physical encoders of the fields of a struct. -/
def allLeaves (field : Nat) : List LogicalColEncoder → List Leaf
  | [] => []
  | e :: es => leaves field e ++ allLeaves field es

end

end LogicalColEncoder

/-- No encoder has submitted its values yet. -/
def Unsubmitted (ls : List Leaf) : Prop := ∀ l ∈ ls, l.encoder.submittedDictIdx = none

theorem unsubmitted_cons {l : Leaf} {ls : List Leaf} :
    Unsubmitted (l :: ls) ↔ l.encoder.submittedDictIdx = none ∧ Unsubmitted ls :=
  List.forall_mem_cons

theorem unsubmitted_append {ls ls' : List Leaf} :
    Unsubmitted (ls ++ ls') ↔ Unsubmitted ls ∧ Unsubmitted ls' :=
  List.forall_mem_append

/-- A method that returns chunks. An encoder that has submitted its values is
only asked to finish. -/
inductive PhysicalColEncoder.Method (env : Env) (p : PhysicalColEncoder) :
    EncAct PhysicalColEncoder (List EncodedColumnChunk) → Prop where
  | encode (array : ArrayRef) (hnone : p.submittedDictIdx = none) :
      Method env p (PhysicalColEncoder.encode env array)
  | finish : Method env p (PhysicalColEncoder.finish env)

/-! ## Steps -/

/-- The part of a writer that changes, with the chunks that are still to be flushed. -/
structure Point where
  leaves : List Leaf
  pending : List EncodedColumnChunk
  state : FileWriteState
  ctx : SharedDictionaryContext

/-- The call a step makes: the encoder with what it works on, the chunks it
returned, and what it left. -/
structure CallEvent where
  leaf : Leaf
  method : EncAct PhysicalColEncoder (List EncodedColumnChunk)
  before : Working PhysicalColEncoder
  chunks : List EncodedColumnChunk
  after : Working PhysicalColEncoder

namespace CallEvent

/-- The call is one an encoder makes in this environment. -/
structure Runs (env : Env) (e : CallEvent) : Prop where
  encoder : e.before.enc = e.leaf.encoder
  method : e.leaf.encoder.Method env e.method
  returns : e.method e.before = .ok e.chunks e.after

/-- The encoder after the call. -/
def left (e : CallEvent) : Leaf := { e.leaf with encoder := e.after.enc }

end CallEvent

/-- One step of a writer. The calls it makes are required to satisfy `P`. -/
inductive Step (env : Env) (P : CallEvent → Prop) : Point → Point → Prop where
  | call {pre post : List Leaf} {pending : List EncodedColumnChunk} {s : FileWriteState}
      (e : CallEvent) (hruns : e.Runs env) (hP : P e)
      (hcounter : s.columnCounters[e.leaf.field]? = some e.before.counter) :
      Step env P ⟨pre ++ e.leaf :: post, pending, s, e.before.ctx⟩
        ⟨pre ++ e.left :: post, pending ++ stamp e.leaf.column e.chunks,
          { s with columnCounters := s.columnCounters.set e.leaf.field e.after.counter },
          e.after.ctx⟩
  | submitDict {pre post : List Leaf} {l : Leaf} {pending : List EncodedColumnChunk}
      {s : FileWriteState} {before after : Working PhysicalColEncoder}
      (hencoder : before.enc = l.encoder) (hnone : l.encoder.submittedDictIdx = none)
      (hrun : PhysicalColEncoder.submitDict before = .ok () after) :
      Step env P ⟨pre ++ l :: post, pending, s, before.ctx⟩
        ⟨pre ++ { l with encoder := after.enc } :: post, pending, s, after.ctx⟩
  | mergeDicts {ls : List Leaf} {pending : List EncodedColumnChunk} {s : FileWriteState}
      {ctx ctx' : SharedDictionaryContext} (hnil : ctx.mergeResult = [])
      (hrun : ctx.mergeDicts env = .ok ctx') :
      Step env P ⟨ls, pending, s, ctx⟩ ⟨ls, pending, s, ctx'⟩
  | flushChunk {ls : List Leaf} {c : EncodedColumnChunk} {pending : List EncodedColumnChunk}
      {s s' : FileWriteState} {ctx : SharedDictionaryContext}
      (hrun : s.flushChunk env c = .ok s') :
      Step env P ⟨ls, c :: pending, s, ctx⟩ ⟨ls, pending, s', ctx⟩
  | addRows {ls : List Leaf} {s : FileWriteState} {ctx : SharedDictionaryContext} (n : Nat) :
      Step env P ⟨ls, [], s, ctx⟩ ⟨ls, [], s.addRows n, ctx⟩
  | finishRowGroup {ls : List Leaf} {s : FileWriteState} {ctx : SharedDictionaryContext} :
      Step env P ⟨ls, [], s, ctx⟩ ⟨ls, [], s.finishRowGroup, ctx⟩

/-- A sequence of steps. -/
abbrev Steps (env : Env) (P : CallEvent → Prop) : Point → Point → Prop :=
  Relation.ReflTransGen (Step env P)

/-- No condition on the calls. -/
abbrev AnyCall : CallEvent → Prop := fun _ => True

/-! ## What a call leaves of the submissions -/

section

variable {env : Env}

theorem EncoderDictColEncoder.encode_ctx {array : ArrayRef} {s t : Working EncoderDictColEncoder}
    {chunks : List EncodedColumnChunk} (h : encode env array s = .ok chunks t) : t.ctx = s.ctx := by
  rw [encode_run] at h
  split at h
  · cases h
  · split at h
    · cases h
      rfl
    · cases h
      rfl

theorem EncoderDictColEncoder.finish_ctx {s t : Working EncoderDictColEncoder}
    {chunks : List EncodedColumnChunk} (h : finish s = .ok chunks t) : t.ctx = s.ctx := by
  rw [finish_run] at h
  split at h
  · cases h
    rfl
  · cases h
    rfl

theorem DictColEncoder.encode_ctx {array : ArrayRef} {s t : Working DictColEncoder}
    {chunks : List EncodedColumnChunk} (h : encode env array s = .ok chunks t) : t.ctx = s.ctx := by
  rw [encode_run] at h
  split at h
  · cases h
  · dsimp only at h
    split at h
    · cases h
      rfl
    · cases h
      rfl

theorem DictColEncoder.finish_ctx {s t : Working DictColEncoder}
    {chunks : List EncodedColumnChunk} (h : finish s = .ok chunks t) : t.ctx = s.ctx := by
  rw [finish_run] at h
  split at h
  · cases h
    rfl
  · cases h
    rfl

/-- The indices of a scope are those of a valid dictionary. -/
theorem valid_of_scopeItems {w : WASMWritingContext} {c : CompressionType} {d : Dictionary}
    (hd : d.Valid) {arrs : List ArrayRef} {r : Dictionary × List (PushedUnits × Nat)}
    (h : scopeItems env w c d arrs = .ok r) : r.1.Valid := by
  simp only [scopeItems, scopeIndices, bind_eq_ok, pure_eq_ok, Except.ok.injEq] at h
  obtain ⟨_, ⟨g, hg, rfl⟩, items, -, rfl⟩ := h
  exact (extendGlobal_spec hd hg).1

/-- A finished encoder adds one dictionary to the context, or none. -/
theorem GLBestEncoder.finish_ctx {s t : Working GLBestEncoder} {chunks : List EncodedColumnChunk}
    (h : finish env s = .ok chunks t) :
    t.ctx = s.ctx ∨ ∃ d : Dictionary, d.Valid ∧ t.ctx = s.ctx.snoc d := by
  by_cases hnil : s.enc.bufferedArrays = []
  · rw [finish_nil env s hnil] at h
    cases h
    exact .inl rfl
  · obtain ⟨choice, rng, hof, hends⟩ := finish_spec env s.enc s.rng hnil
    have hend := hends s.counter s.ctx
    have hs : finish env ⟨s.enc, s.counter, s.ctx, s.rng⟩ = .ok chunks t := h
    rw [hs] at hend
    cases choice with
    | localChunks localChunks =>
        obtain ⟨counter, hok⟩ := hend
        cases hok
        exact .inl rfl
    | globalChunks dict groups =>
        obtain ⟨counter, hok⟩ := hend
        cases hok
        obtain ⟨items, hitems, -⟩ := hof
        rw [bind_eq_ok] at hitems
        obtain ⟨d₀, hnew, hscope⟩ := hitems
        exact .inr ⟨dict, valid_of_scopeItems (newScope_valid hnew) hscope, rfl⟩
    | failed f added =>
        cases added with
        | none =>
            obtain ⟨counter, herror⟩ := hend
            cases herror
        | some d =>
            obtain ⟨counter, herror⟩ := hend
            cases herror

end

namespace PhysicalColEncoder

variable {env : Env}

theorem delegate_eq_ok {E F α : Type} {wrap : E → F} {e : E} {x : EncAct E α} {s t : Working F}
    {a : α} (h : delegate wrap e x s = .ok a t) :
    ∃ u, x ⟨e, s.counter, s.ctx, s.rng⟩ = .ok a u ∧ t = u.embed wrap := by
  obtain ⟨u, hu, rfl⟩ := (Act.returns_zoom _ _ x s t a).1 h
  exact ⟨u, hu, rfl⟩

/-- A call that returns chunks submits nothing. -/
theorem Method.submittedDictIdx_eq {p : PhysicalColEncoder}
    {x : EncAct PhysicalColEncoder (List EncodedColumnChunk)} (hx : p.Method env x)
    {s t : Working PhysicalColEncoder} {chunks : List EncodedColumnChunk} (hs : s.enc = p)
    (h : x s = .ok chunks t) : t.enc.submittedDictIdx = p.submittedDictIdx := by
  have hscope : ∀ {s t : Working SharedDictColEncoder} {chunks : List EncodedColumnChunk},
      SharedDictColEncoder.encodeDictScope env s = .ok chunks t →
        t.enc.submittedDictIdx = s.enc.submittedDictIdx := by
    intro s t chunks h
    have hleft := (SharedDictColEncoder.encodeDictScope_left env s).1
    rw [h] at hleft
    show (Act.left (.ok chunks t : EncResult _ _)).enc.submittedDictIdx = _
    rw [hleft]
    rfl
  cases hx with
  | encode array hnone =>
      cases p with
      | encoderDict e =>
          rw [PhysicalColEncoder.encode, Act.get_bind, hs] at h
          obtain ⟨u, -, rfl⟩ := delegate_eq_ok h
          rfl
      | dict e =>
          rw [PhysicalColEncoder.encode, Act.get_bind, hs] at h
          obtain ⟨u, -, rfl⟩ := delegate_eq_ok h
          rfl
      | glBest e =>
          rw [PhysicalColEncoder.encode, Act.get_bind, hs] at h
          obtain ⟨u, -, rfl⟩ := delegate_eq_ok h
          rfl
      | sharedDict e =>
          rw [PhysicalColEncoder.encode, Act.get_bind, hs] at h
          obtain ⟨u, hu, rfl⟩ := delegate_eq_ok h
          rw [SharedDictColEncoder.encode_run] at hu
          split at hu
          · cases hu
          · split at hu
            · exact hscope hu
            · cases hu
              rfl
  | finish =>
      cases p with
      | encoderDict e =>
          rw [PhysicalColEncoder.finish, Act.get_bind, hs] at h
          obtain ⟨u, -, rfl⟩ := delegate_eq_ok h
          rfl
      | dict e =>
          rw [PhysicalColEncoder.finish, Act.get_bind, hs] at h
          obtain ⟨u, -, rfl⟩ := delegate_eq_ok h
          rfl
      | glBest e =>
          rw [PhysicalColEncoder.finish, Act.get_bind, hs] at h
          obtain ⟨u, -, rfl⟩ := delegate_eq_ok h
          rfl
      | sharedDict e =>
          rw [PhysicalColEncoder.finish, Act.get_bind, hs] at h
          obtain ⟨u, hu, rfl⟩ := delegate_eq_ok h
          rw [SharedDictColEncoder.finish_run] at hu
          split at hu
          · cases hu
            rfl
          · exact hscope hu

/-- What every call of an encoder keeps of the context. A dictionary that is added
as a whole is a valid one. -/
structure KeptByCalls (I : SharedDictionaryContext → Prop) : Prop extends
    SharedDictionaryContext.Invariant I where
  snoc : ∀ {ctx : SharedDictionaryContext} {d : Dictionary}, I ctx → d.Valid → I (ctx.snoc d)

variable {I : SharedDictionaryContext → Prop}

theorem Method.context {p : PhysicalColEncoder}
    {x : EncAct PhysicalColEncoder (List EncodedColumnChunk)} (hx : p.Method env x)
    (hI : KeptByCalls I) {s t : Working PhysicalColEncoder} {chunks : List EncodedColumnChunk}
    (hs : s.enc = p) (h : x s = .ok chunks t) (hctx : I s.ctx) : I t.ctx := by
  cases hx with
  | encode array hnone =>
      rw [PhysicalColEncoder.encode, Act.get_bind, hs] at h
      cases p with
      | encoderDict e =>
          obtain ⟨u, hu, rfl⟩ := delegate_eq_ok h
          exact EncoderDictColEncoder.encode_ctx hu ▸ hctx
      | dict e =>
          obtain ⟨u, hu, rfl⟩ := delegate_eq_ok h
          exact DictColEncoder.encode_ctx hu ▸ hctx
      | glBest e =>
          obtain ⟨u, hu, rfl⟩ := delegate_eq_ok h
          rw [GLBestEncoder.encode_run] at hu
          split at hu
          · cases hu
          · cases hu
            exact hctx
      | sharedDict e =>
          obtain ⟨u, hu, rfl⟩ := delegate_eq_ok h
          exact ((SharedDictColEncoder.encode_inContext hI.toInvariant env array).returns
            (s := ⟨e, s.counter, s.ctx, s.rng⟩) hctx hu).2
  | finish =>
      rw [PhysicalColEncoder.finish, Act.get_bind, hs] at h
      cases p with
      | encoderDict e =>
          obtain ⟨u, hu, rfl⟩ := delegate_eq_ok h
          exact EncoderDictColEncoder.finish_ctx hu ▸ hctx
      | dict e =>
          obtain ⟨u, hu, rfl⟩ := delegate_eq_ok h
          exact DictColEncoder.finish_ctx hu ▸ hctx
      | glBest e =>
          obtain ⟨u, hu, rfl⟩ := delegate_eq_ok h
          rcases GLBestEncoder.finish_ctx hu with hsame | ⟨d, hd, hsnoc⟩
          · exact hsame ▸ hctx
          · exact hsnoc ▸ hI.snoc hctx hd
      | sharedDict e =>
          obtain ⟨u, hu, rfl⟩ := delegate_eq_ok h
          exact ((SharedDictColEncoder.finish_inContext hI.toInvariant env).returns
            (s := ⟨e, s.counter, s.ctx, s.rng⟩) hctx hu).2

theorem submitDict_context (hI : KeptByCalls I) {s t : Working PhysicalColEncoder} {u : Unit}
    (h : submitDict s = .ok u t) (hctx : I s.ctx) : I t.ctx := by
  rw [submitDict, Act.get_bind] at h
  cases hp : s.enc with
  | sharedDict e =>
      rw [hp] at h
      obtain ⟨r, hr, rfl⟩ := delegate_eq_ok h
      exact ((SharedDictColEncoder.submitDict_inContext hI.toInvariant).returns
        (s := ⟨e, s.counter, s.ctx, s.rng⟩) hctx hr).2
  | encoderDict e =>
      rw [hp] at h
      cases h
      exact hctx
  | dict e =>
      rw [hp] at h
      cases h
      exact hctx
  | glBest e =>
      rw [hp] at h
      cases h
      exact hctx

end PhysicalColEncoder

/-! ## Calls on trees -/

section Visits

variable {env : Env} {j : Nat}

/-- The encoders `ls` of field `j`, wherever they stand, are called in steps that
return `chunks` and leave `ls'`; only the counter of the field is touched. -/
structure Visits (env : Env) (j : Nat) (ls : List Leaf) (s : Shared)
    (chunks : List EncodedColumnChunk) (ls' : List Leaf) (t : Shared) : Prop where
  steps : ∀ (pre post : List Leaf) (pending : List EncodedColumnChunk) (st : FileWriteState),
    st.columnCounters[j]? = some s.counter →
      Steps env AnyCall ⟨pre ++ ls ++ post, pending, st, s.ctx⟩
        ⟨pre ++ ls' ++ post, pending ++ chunks,
          { st with columnCounters := st.columnCounters.set j t.counter }, t.ctx⟩
  unsubmitted : Unsubmitted ls → Unsubmitted ls'
  context : ∀ {I : SharedDictionaryContext → Prop},
    PhysicalColEncoder.KeptByCalls I → I s.ctx → I t.ctx

theorem visits_refl (ls : List Leaf) (s : Shared) : Visits env j ls s [] ls s := by
  refine ⟨?_, id, fun _ hctx => hctx⟩
  intro pre post pending st hcounter
  obtain ⟨hj, hget⟩ := List.getElem?_eq_some_iff.1 hcounter
  rw [List.append_nil, ← hget, List.set_getElem_self]

theorem visits_append {ls ls' ms ms' : List Leaf} {s t u : Shared}
    {cs ds : List EncodedColumnChunk} (h : Visits env j ls s cs ls' t)
    (h' : Visits env j ms t ds ms' u) :
    Visits env j (ls ++ ms) s (cs ++ ds) (ls' ++ ms') u := by
  constructor
  · intro pre post pending st hcounter
    have hfirst := h.steps pre (ms ++ post) pending st hcounter
    obtain ⟨hj, -⟩ := List.getElem?_eq_some_iff.1 hcounter
    have hnext : (st.columnCounters.set j t.counter)[j]? = some t.counter :=
      List.getElem?_set_self hj
    have hsecond := h'.steps (pre ++ ls') post (pending ++ cs)
      { st with columnCounters := st.columnCounters.set j t.counter } hnext
    simp only [List.set_set, List.append_assoc] at hfirst hsecond ⊢
    exact hfirst.trans hsecond
  · intro hu
    obtain ⟨hls, hms⟩ := unsubmitted_append.1 hu
    exact unsubmitted_append.2 ⟨h.unsubmitted hls, h'.unsubmitted hms⟩
  · intro I hI hctx
    exact h'.context hI (h.context hI hctx)

theorem visits_call {p : PhysicalColEncoder} {i : Nat} {s : Shared}
    {x : EncAct PhysicalColEncoder (List EncodedColumnChunk)} (hx : p.Method env x)
    {chunks : List EncodedColumnChunk} {t : Working PhysicalColEncoder}
    (h : callPhysical x p s = .ok chunks t) :
    Visits env j [⟨p, i, j⟩] s (stamp i chunks) [⟨t.enc, i, j⟩] t.shared := by
  constructor
  · intro pre post pending st hcounter
    rw [List.append_assoc, List.append_assoc]
    exact .single (.call ⟨⟨p, i, j⟩, x, ⟨p, s.counter, s.ctx, s.rng⟩, chunks, t⟩ ⟨rfl, hx, h⟩
      trivial hcounter)
  · intro hu
    have hp := (unsubmitted_cons.1 hu).1
    refine unsubmitted_cons.2 ⟨?_, fun l hl => by cases hl⟩
    exact (hx.submittedDictIdx_eq rfl h).trans hp
  · intro I hI hctx
    exact hx.context hI rfl h hctx

namespace LogicalColEncoder

mutual

theorem encode_visits : ∀ (e : LogicalColEncoder) (array : ArrayRef) (s : Shared)
    {res : Option (List EncodedColumnChunk)} {t : Working LogicalColEncoder},
    Unsubmitted (e.leaves j) → encode env e array s = .ok res t →
      Visits env j (e.leaves j) s (res.getD []) (t.enc.leaves j) t.shared
  | flat p i, array, s, res, t, hu, h => by
      rw [encode] at h
      rw [leaves] at hu
      cases hp : callPhysical (PhysicalColEncoder.encode env array) p s with
      | error f t => rw [hp] at h; cases h
      | ok chunks u =>
          rw [hp] at h
          cases h
          rw [getD_thenSome, leaves]
          exact visits_call (.encode array (unsubmitted_cons.1 hu).1) hp
  | list p i v, array, s, res, t, hu, h => by
      rw [encode] at h
      rw [leaves, unsubmitted_cons] at hu
      cases hp : callPhysical (PhysicalColEncoder.encode env array) p s with
      | error f t => rw [hp] at h; cases h
      | ok chunks u =>
          rw [hp] at h
          dsimp only at h
          cases hitems : extractItems array with
          | error f => rw [hitems] at h; cases h
          | ok items =>
              rw [hitems] at h
              dsimp only at h
              cases hv : encode env v items u.shared with
              | error f t => rw [hv] at h; cases h
              | ok more r =>
                  rw [hv] at h
                  cases h
                  have hvalues := encode_visits v items u.shared hu.2 hv
                  rw [getD_thenSome, leaves]
                  exact visits_append (visits_call (.encode array hu.1) hp) hvalues
  | struct p i fs, array, s, res, t, hu, h => by
      rw [encode] at h
      rw [leaves, unsubmitted_cons] at hu
      cases hp : callPhysical (PhysicalColEncoder.encode env (extractValidity array)) p s with
      | error f t => rw [hp] at h; cases h
      | ok chunks u =>
          rw [hp] at h
          dsimp only at h
          cases hcolumns : structColumns array with
          | error f => rw [hcolumns] at h; cases h
          | ok columns =>
              rw [hcolumns] at h
              dsimp only at h
              cases hfs : encodeFields env fs columns u.shared with
              | error f t => rw [hfs] at h; cases h
              | ok more r =>
                  rw [hfs] at h
                  cases h
                  have hfields := encodeFields_visits fs columns u.shared hu.2 hfs
                  rw [getD_thenSome, leaves]
                  exact visits_append (visits_call (.encode (extractValidity array) hu.1) hp) hfields

theorem encodeFields_visits : ∀ (es : List LogicalColEncoder) (columns : List ArrayRef)
    (s : Shared) {res : List EncodedColumnChunk} {t : Working (List LogicalColEncoder)},
    Unsubmitted (allLeaves j es) → encodeFields env es columns s = .ok res t →
      Visits env j (allLeaves j es) s res (allLeaves j t.enc) ⟨(), t.counter, t.ctx, t.rng⟩
  | [], _, s, res, t, _, h => by
      rw [encodeFields] at h
      cases h
      exact visits_refl _ s
  | e :: es, [], s, res, t, _, h => by
      rw [encodeFields] at h
      cases h
      exact visits_refl _ s
  | e :: es, column :: columns, s, res, t, hu, h => by
      rw [encodeFields] at h
      rw [allLeaves, unsubmitted_append] at hu
      cases he : encode env e column s with
      | error f t => rw [he] at h; cases h
      | ok chunks u =>
          rw [he] at h
          dsimp only at h
          cases hes : encodeFields env es columns u.shared with
          | error f t => rw [hes] at h; cases h
          | ok more r =>
              rw [hes] at h
              cases h
              rw [allLeaves]
              exact visits_append (encode_visits e column s hu.1 he)
                (encodeFields_visits es columns u.shared hu.2 hes)

end

mutual

theorem finish_visits : ∀ (e : LogicalColEncoder) (s : Shared)
    {res : Option (List EncodedColumnChunk)} {t : Working LogicalColEncoder},
    finish env e s = .ok res t →
      Visits env j (e.leaves j) s (res.getD []) (t.enc.leaves j) t.shared
  | flat p i, s, res, t, h => by
      rw [finish] at h
      cases hp : callPhysical (PhysicalColEncoder.finish env) p s with
      | error f t => rw [hp] at h; cases h
      | ok chunks u =>
          rw [hp] at h
          cases h
          rw [getD_thenSome, leaves]
          exact visits_call .finish hp
  | list p i v, s, res, t, h => by
      rw [finish] at h
      cases hp : callPhysical (PhysicalColEncoder.finish env) p s with
      | error f t => rw [hp] at h; cases h
      | ok chunks u =>
          rw [hp] at h
          dsimp only at h
          cases hv : finish env v u.shared with
          | error f t => rw [hv] at h; cases h
          | ok more r =>
              rw [hv] at h
              cases h
              have hvalues := finish_visits v u.shared hv
              rw [getD_thenSome, leaves]
              exact visits_append (visits_call .finish hp) hvalues
  | struct p i fs, s, res, t, h => by
      rw [finish] at h
      cases hp : callPhysical (PhysicalColEncoder.finish env) p s with
      | error f t => rw [hp] at h; cases h
      | ok chunks u =>
          rw [hp] at h
          dsimp only at h
          cases hfs : finishFields env fs u.shared with
          | error f t => rw [hfs] at h; cases h
          | ok more r =>
              rw [hfs] at h
              cases h
              have hfields := finishFields_visits fs u.shared hfs
              rw [getD_thenSome, leaves]
              exact visits_append (visits_call .finish hp) hfields

theorem finishFields_visits : ∀ (es : List LogicalColEncoder) (s : Shared)
    {res : List EncodedColumnChunk} {t : Working (List LogicalColEncoder)},
    finishFields env es s = .ok res t →
      Visits env j (allLeaves j es) s res (allLeaves j t.enc) ⟨(), t.counter, t.ctx, t.rng⟩
  | [], s, res, t, h => by
      rw [finishFields] at h
      cases h
      exact visits_refl _ s
  | e :: es, s, res, t, h => by
      rw [finishFields] at h
      cases he : finish env e s with
      | error f t => rw [he] at h; cases h
      | ok chunks u =>
          rw [he] at h
          dsimp only at h
          cases hes : finishFields env es u.shared with
          | error f t => rw [hes] at h; cases h
          | ok more r =>
              rw [hes] at h
              cases h
              rw [allLeaves]
              exact visits_append (finish_visits e s he) (finishFields_visits es u.shared hes)

end

end LogicalColEncoder

/-- The encoders `ls` submit their values, wherever they stand. -/
structure Submits (env : Env) (ls : List Leaf) (ctx : SharedDictionaryContext) (ls' : List Leaf)
    (ctx' : SharedDictionaryContext) : Prop where
  steps : ∀ (pre post : List Leaf) (pending : List EncodedColumnChunk) (st : FileWriteState),
    Steps env AnyCall ⟨pre ++ ls ++ post, pending, st, ctx⟩ ⟨pre ++ ls' ++ post, pending, st, ctx'⟩
  context : ∀ {I : SharedDictionaryContext → Prop},
    PhysicalColEncoder.KeptByCalls I → I ctx → I ctx'

theorem submits_append {ls ls' ms ms' : List Leaf} {c c' c'' : SharedDictionaryContext}
    (h : Submits env ls c ls' c') (h' : Submits env ms c' ms' c'') :
    Submits env (ls ++ ms) c (ls' ++ ms') c'' := by
  refine ⟨?_, fun hI hctx => h'.context hI (h.context hI hctx)⟩
  intro pre post pending st
  have hfirst := h.steps pre (ms ++ post) pending st
  have hsecond := h'.steps (pre ++ ls') post pending st
  simp only [List.append_assoc] at hfirst hsecond ⊢
  exact hfirst.trans hsecond

theorem submits_call {p : PhysicalColEncoder} {i : Nat} {s : Shared}
    (hnone : p.submittedDictIdx = none) {u : Unit} {t : Working PhysicalColEncoder}
    (h : callPhysical PhysicalColEncoder.submitDict p s = .ok u t) :
    Submits env [⟨p, i, j⟩] s.ctx [⟨t.enc, i, j⟩] t.ctx := by
  refine ⟨?_, fun hI hctx => PhysicalColEncoder.submitDict_context hI h hctx⟩
  intro pre post pending st
  have hstep : Step env AnyCall ⟨pre ++ ⟨p, i, j⟩ :: post, pending, st, s.ctx⟩
      ⟨pre ++ ⟨t.enc, i, j⟩ :: post, pending, st, t.ctx⟩ :=
    @Step.submitDict env AnyCall pre post ⟨p, i, j⟩ pending st ⟨p, s.counter, s.ctx, s.rng⟩ t
      rfl hnone h
  rw [List.append_assoc, List.append_assoc]
  exact .single hstep

namespace LogicalColEncoder

mutual

theorem submitDict_submits : ∀ (e : LogicalColEncoder) (s : Shared) {u : Unit}
    {t : Working LogicalColEncoder}, Unsubmitted (e.leaves j) → submitDict e s = .ok u t →
      Submits env (e.leaves j) s.ctx (t.enc.leaves j) t.ctx
  | flat p i, s, u, t, hu, h => by
      rw [submitDict] at h
      rw [leaves] at hu
      cases hp : callPhysical PhysicalColEncoder.submitDict p s with
      | error f t => rw [hp] at h; cases h
      | ok r q =>
          rw [hp] at h
          cases h
          rw [leaves]
          exact submits_call (unsubmitted_cons.1 hu).1 hp
  | list p i v, s, u, t, hu, h => by
      rw [submitDict] at h
      rw [leaves, unsubmitted_cons] at hu
      cases hp : callPhysical PhysicalColEncoder.submitDict p s with
      | error f t => rw [hp] at h; cases h
      | ok r q =>
          rw [hp] at h
          dsimp only at h
          cases hv : submitDict v q.shared with
          | error f t => rw [hv] at h; cases h
          | ok r' q' =>
              rw [hv] at h
              cases h
              rw [leaves]
              exact submits_append (submits_call hu.1 hp) (submitDict_submits v q.shared hu.2 hv)
  | struct p i fs, s, u, t, hu, h => by
      rw [submitDict] at h
      rw [leaves, unsubmitted_cons] at hu
      cases hp : callPhysical PhysicalColEncoder.submitDict p s with
      | error f t => rw [hp] at h; cases h
      | ok r q =>
          rw [hp] at h
          dsimp only at h
          cases hfs : submitFields fs q.shared with
          | error f t => rw [hfs] at h; cases h
          | ok r' q' =>
              rw [hfs] at h
              cases h
              rw [leaves]
              exact submits_append (submits_call hu.1 hp) (submitFields_submits fs q.shared hu.2 hfs)

theorem submitFields_submits : ∀ (es : List LogicalColEncoder) (s : Shared) {u : Unit}
    {t : Working (List LogicalColEncoder)}, Unsubmitted (allLeaves j es) →
      submitFields es s = .ok u t → Submits env (allLeaves j es) s.ctx (allLeaves j t.enc) t.ctx
  | [], s, u, t, _, h => by
      rw [submitFields] at h
      cases h
      exact ⟨fun _ _ _ _ => .refl, fun _ hctx => hctx⟩
  | e :: es, s, u, t, hu, h => by
      rw [submitFields] at h
      rw [allLeaves, unsubmitted_append] at hu
      cases he : submitDict e s with
      | error f t => rw [he] at h; cases h
      | ok r q =>
          rw [he] at h
          dsimp only at h
          cases hes : submitFields es q.shared with
          | error f t => rw [hes] at h; cases h
          | ok r' q' =>
              rw [hes] at h
              cases h
              rw [allLeaves]
              exact submits_append (submitDict_submits e s hu.1 he)
                (submitFields_submits es q.shared hu.2 hes)

end

end LogicalColEncoder

end Visits

/-! ## Calls of the writer -/

/-- The physical encoders of the fields from number `j` on. -/
def fieldLeaves : Nat → List LogicalColEncoder → List Leaf
  | _, [] => []
  | j, e :: es => e.leaves j ++ fieldLeaves (j + 1) es

/-- The encoders of field `i` are a part of all of them, and replaced as a whole. -/
theorem fieldLeaves_split : ∀ (es : List LogicalColEncoder) (j i : Nat) {e : LogicalColEncoder},
    es[i]? = some e → ∃ pre post, fieldLeaves j es = pre ++ e.leaves (j + i) ++ post ∧
      ∀ e', fieldLeaves j (es.set i e') = pre ++ e'.leaves (j + i) ++ post
  | [], _, _, _, h => by cases h
  | e :: es, j, 0, e', h => by
      cases h
      exact ⟨[], fieldLeaves (j + 1) es, rfl, fun _ => rfl⟩
  | e :: es, j, i + 1, e', h => by
      obtain ⟨pre, post, hall, hset⟩ := fieldLeaves_split es (j + 1) i h
      have hsum : j + (i + 1) = j + 1 + i := by omega
      refine ⟨e.leaves j ++ pre, post, ?_, ?_⟩
      · rw [fieldLeaves, hall, hsum]
        simp only [List.append_assoc]
      · intro e''
        rw [List.set_cons_succ, fieldLeaves, hset, hsum]
        simp only [List.append_assoc]

namespace FileWriter

/-- The physical encoders of the writer. -/
def leaves (w : FileWriter) : List Leaf := fieldLeaves 0 w.columnEncoders

/-- The writer between two of its operations. -/
def point (w : FileWriter) : Point := ⟨w.leaves, [], w.state, w.sharedDictionaryContext⟩

section

variable {env : Env}

/-- A successful run of `x` from a writer with `I` is a sequence of steps, and keeps `I`. -/
def Goes {α : Type} (env : Env) (I : FileWriter → Prop) (x : WriterAct α) : Prop :=
  ∀ w a w', I w → Act.Returns x w a w' → Steps env AnyCall w.point w'.point ∧ I w'

variable {I : FileWriter → Prop}

theorem goes_pure {α : Type} (a : α) : Goes env I (pure a : WriterAct α) := by
  intro w b w' hw h
  obtain ⟨-, rfl⟩ := (Act.returns_pure _ _ _ _).1 h
  exact ⟨.refl, hw⟩

theorem goes_throw {α : Type} (f : Fault) : Goes env I (throw f : WriterAct α) := by
  intro w b w' _ h
  exact absurd h (Act.returns_throw _ _ _ _)

theorem goes_bind {α β : Type} {x : WriterAct α} {f : α → WriterAct β} (hx : Goes env I x)
    (hf : ∀ a, Goes env I (f a)) : Goes env I (x >>= f) := by
  intro w b w' hw h
  obtain ⟨a, w₁, hfirst, hrest⟩ := (Act.returns_bind _ _ _ _ _).1 h
  obtain ⟨hsteps, hw₁⟩ := hx w a w₁ hw hfirst
  obtain ⟨hsteps', hw'⟩ := hf a w₁ b w' hw₁ hrest
  exact ⟨hsteps.trans hsteps', hw'⟩

theorem goes_get_bind {α : Type} {f : FileWriter → WriterAct α} (hf : ∀ w, Goes env I (f w)) :
    Goes env I (get >>= f) := by
  intro w b w' hw h
  exact hf w w b w' hw h

theorem goes_forEach {α : Type} {f : α → WriterAct Unit} (hf : ∀ a, Goes env I (f a))
    (xs : List α) : Goes env I (Act.forEach f xs) := by
  induction xs with
  | nil => exact goes_pure ()
  | cons x xs ih => exact goes_bind (hf x) fun _ => ih

/-- Flushing chunks that are pending. -/
theorem steps_flushChunks : ∀ (cs : List EncodedColumnChunk) {w w' : FileWriter},
    Act.Returns (Act.forEach (fun c => onState fun s => s.flushChunk env c) cs) w () w' →
      Steps env AnyCall ⟨w.leaves, cs, w.state, w.sharedDictionaryContext⟩ w'.point ∧
        w'.leaves = w.leaves ∧ w'.sharedDictionaryContext = w.sharedDictionaryContext
  | [], w, w', h => by
      have hw := (Act.returns_forEach_nil _ _ _ _).1 h
      subst hw
      exact ⟨.refl, rfl, rfl⟩
  | c :: cs, w, w', h => by
      obtain ⟨w₁, hfirst, hrest⟩ := (Act.returns_forEach_cons _ _ _ _ _ _).1 h
      obtain ⟨s, hs, rfl⟩ := returns_onState hfirst
      obtain ⟨hsteps, hleaves⟩ := steps_flushChunks cs hrest
      exact ⟨.head (.flushChunk hs) hsteps, hleaves⟩

/-- A call of an encoder and the flushing of what it returned. -/
theorem goes_callAndFlush {i : Nat}
    {x : LogicalColEncoder → Shared → EncResult LogicalColEncoder (Option (List EncodedColumnChunk))}
    {J : List Leaf → SharedDictionaryContext → Prop}
    (hx : ∀ (e : LogicalColEncoder) (s : Shared) {res : Option (List EncodedColumnChunk)}
      {t : Working LogicalColEncoder} (pre post : List Leaf), J (pre ++ e.leaves i ++ post) s.ctx →
        x e s = .ok res t → Visits env i (e.leaves i) s (res.getD []) (t.enc.leaves i) t.shared ∧
          J (pre ++ t.enc.leaves i ++ post) t.ctx) :
    Goes env (fun w => J w.leaves w.sharedDictionaryContext)
      (callEncoder i x >>= flushChunks env) := by
  intro w a w' hw h
  obtain ⟨res, w₁, hcall, hflush⟩ := (Act.returns_bind _ _ _ _ _).1 h
  obtain ⟨e, c, t, he, hc, hrun, rfl⟩ := returns_callEncoder hcall
  obtain ⟨pre, post, hall, hset⟩ := fieldLeaves_split w.columnEncoders 0 i he
  rw [Nat.zero_add] at hall hset
  have hJ : J (pre ++ e.leaves i ++ post) w.sharedDictionaryContext := hall ▸ hw
  obtain ⟨hvisits, hJ'⟩ := hx e ⟨(), c, w.sharedDictionaryContext, w.rng⟩ pre post hJ hrun
  have hleaves : (w.putBack i t).leaves = pre ++ t.enc.leaves i ++ post := hset t.enc
  obtain ⟨hsteps, hkept, hctx⟩ := steps_flushChunks (res.getD []) (w := w.putBack i t) hflush
  have hfirst := hvisits.steps pre post [] w.state hc
  rw [hleaves] at hsteps
  constructor
  · have hpoint : w.point = ⟨pre ++ e.leaves i ++ post, [], w.state, w.sharedDictionaryContext⟩ := by
      rw [← hall]
      rfl
    rw [hpoint]
    exact hfirst.trans hsteps
  · show J w'.leaves w'.sharedDictionaryContext
    rw [hkept, hleaves, hctx]
    exact hJ'

/-- Nothing is submitted or merged yet. -/
structure Unmerged (w : FileWriter) : Prop where
  unsubmitted : Unsubmitted w.leaves
  mergeResult : w.sharedDictionaryContext.mergeResult = []

theorem keptByCalls_mergeResult (m : List (Option (Nat × Nat))) :
    PhysicalColEncoder.KeptByCalls fun ctx => ctx.mergeResult = m where
  newDictionary := by
    intro ctx dtype r hctx h
    simp only [SharedDictionaryContext.newDictionary, bind_eq_ok, pure_eq_ok, Except.ok.injEq] at h
    obtain ⟨d, -, rfl⟩ := h
    exact hctx
  extendAndGetIndex := by
    intro ctx idx arr r hctx h
    simp only [SharedDictionaryContext.extendAndGetIndex, bind_eq_ok, pure_eq_ok,
      Except.ok.injEq] at h
    obtain ⟨d, -, r', -, rfl⟩ := h
    exact hctx
  submitValues := by
    intro ctx ctx' idx arr hctx h
    simp only [SharedDictionaryContext.submitValues, bind_eq_ok, pure_eq_ok, Except.ok.injEq] at h
    obtain ⟨d, -, d', -, rfl⟩ := h
    exact hctx
  snoc := fun hctx _ => hctx

theorem goes_encodeArray (i : Nat) (col : ArrayRef) : Goes env Unmerged (encodeArray env i col) := by
  have h : Goes env (fun w => Unsubmitted w.leaves ∧ w.sharedDictionaryContext.mergeResult = [])
      (encodeArray env i col) := by
    refine goes_callAndFlush (J := fun ls ctx => Unsubmitted ls ∧ ctx.mergeResult = []) ?_
    rintro e s res t pre post ⟨hJ, hmerge⟩ hrun
    obtain ⟨hpre, hpost⟩ := unsubmitted_append.1 hJ
    obtain ⟨hpre, he⟩ := unsubmitted_append.1 hpre
    have hvisits := LogicalColEncoder.encode_visits (j := i) e col s he hrun
    refine ⟨hvisits, ?_, hvisits.context (keptByCalls_mergeResult []) hmerge⟩
    exact unsubmitted_append.2 ⟨unsubmitted_append.2 ⟨hpre, hvisits.unsubmitted he⟩, hpost⟩
  intro w a w' hw hrun
  obtain ⟨hsteps, hu, hm⟩ := h w a w' ⟨hw.unsubmitted, hw.mergeResult⟩ hrun
  exact ⟨hsteps, hu, hm⟩

theorem goes_onState {f : FileWriteState → FileWriteState}
    (hstep : ∀ (ls : List Leaf) (s : FileWriteState) (ctx : SharedDictionaryContext),
      Step env AnyCall ⟨ls, [], s, ctx⟩ ⟨ls, [], f s, ctx⟩) :
    Goes env Unmerged (onState fun s => .ok (f s)) := by
  intro w u w' hw h
  obtain ⟨s, hs, rfl⟩ := returns_onState h
  cases hs
  exact ⟨.single (hstep _ _ _), hw.unsubmitted, hw.mergeResult⟩

theorem goes_writeColumn (numRows : Nat) (p : ArrayRef × Nat) :
    Goes env Unmerged (writeColumn env numRows p) := by
  apply goes_get_bind
  intro w
  split
  · exact goes_encodeArray p.2 p.1
  · split
    · exact goes_throw _
    · split
      · exact goes_throw _
      · exact goes_forEach (fun j => goes_encodeArray p.2 _) _

/-- A field is finished and its chunks are flushed. -/
theorem goes_finishField {J : List Leaf → SharedDictionaryContext → Prop} (i : Nat)
    (hJ : ∀ {pre ls ls' post : List Leaf} {ctx ctx' : SharedDictionaryContext},
      (Unsubmitted ls → Unsubmitted ls') → (ctx.mergeResult = [] → ctx'.mergeResult = []) →
        J (pre ++ ls ++ post) ctx → J (pre ++ ls' ++ post) ctx') :
    Goes env (fun w => J w.leaves w.sharedDictionaryContext)
      (callEncoder i (fun e => e.finish env) >>= flushChunks env) := by
  refine goes_callAndFlush (J := J) ?_
  intro e s res t pre post hctx hrun
  have hvisits := LogicalColEncoder.finish_visits (j := i) e s hrun
  exact ⟨hvisits, hJ hvisits.unsubmitted (hvisits.context (keptByCalls_mergeResult [])) hctx⟩

theorem goes_flushPendingChunks : Goes env Unmerged (flushPendingChunks env) := by
  apply goes_get_bind
  intro w
  refine goes_forEach (fun i => ?_) _
  have h : Goes env (fun w => Unsubmitted w.leaves ∧ w.sharedDictionaryContext.mergeResult = [])
      (callEncoder i (fun e => e.finish env) >>= flushChunks env) :=
    goes_finishField (J := fun ls ctx => Unsubmitted ls ∧ ctx.mergeResult = []) i ?_
  · intro w a w' hw hrun
    obtain ⟨hsteps, hu, hm⟩ := h w a w' ⟨hw.unsubmitted, hw.mergeResult⟩ hrun
    exact ⟨hsteps, hu, hm⟩
  · rintro pre ls ls' post ctx ctx' hls hctx ⟨hu, hm⟩
    obtain ⟨hpre, hpost⟩ := unsubmitted_append.1 hu
    obtain ⟨hpre, hls'⟩ := unsubmitted_append.1 hpre
    exact ⟨unsubmitted_append.2 ⟨unsubmitted_append.2 ⟨hpre, hls hls'⟩, hpost⟩, hctx hm⟩

/-- The same without a condition, as it is called at the end. -/
theorem steps_flushPendingChunks {w w' : FileWriter} {u : Unit}
    (h : Act.Returns (flushPendingChunks env) w u w') : Steps env AnyCall w.point w'.point := by
  have hgoes : Goes env (fun _ => True) (flushPendingChunks env) := by
    apply goes_get_bind
    intro w
    exact goes_forEach (fun i => goes_finishField (J := fun _ _ => True) i fun _ _ h => h) _
  exact (hgoes w u w' trivial h).1

theorem goes_writeBatch (batch : RecordBatch) : Goes env Unmerged (writeBatch env batch) := by
  refine goes_bind (goes_forEach (goes_writeColumn batch.numRows) _) fun _ => ?_
  refine goes_bind (goes_onState fun _ _ _ => .addRows batch.numRows) fun _ => ?_
  apply goes_get_bind
  intro w
  split
  · exact goes_bind goes_flushPendingChunks fun _ =>
      goes_onState fun _ _ _ => .finishRowGroup
  · exact goes_pure ()

/-- **Every call is a sequence of steps.** -/
theorem goes_call (c : Call) : Goes env Unmerged (call env c) := by
  cases c with
  | writeBatch batch => exact goes_writeBatch batch
  | flushPendingChunks => exact goes_flushPendingChunks

/-! ## The end of a run -/

/-- What a successful submission of a field leaves. -/
theorem returns_submitDict {i : Nat} {w w' : FileWriter} {u : Unit}
    (h : Act.Returns (submitDict i) w u w') : ∃ e t, w.columnEncoders[i]? = some e ∧
      e.submitDict ⟨(), .default, w.sharedDictionaryContext, w.rng⟩ = .ok () t ∧
      w' = { w with
        columnEncoders := w.columnEncoders.set i t.enc
        sharedDictionaryContext := t.ctx } := by
  unfold Act.Returns submitDict at h
  split at h
  · cases h
  · next e he =>
      split at h
      · next t hrun =>
          cases h
          exact ⟨e, t, he, hrun, rfl⟩
      · cases h

/-- The fields submit their values one after the other, each of them once. -/
theorem steps_submitAll : ∀ (xs : List Nat) {w w' : FileWriter}, xs.Nodup →
    (∀ i ∈ xs, ∀ e, w.columnEncoders[i]? = some e → Unsubmitted (e.leaves i)) →
    w.sharedDictionaryContext.mergeResult = [] →
    Act.Returns (Act.forEach submitDict xs) w () w' →
      Steps env AnyCall w.point w'.point ∧ w'.sharedDictionaryContext.mergeResult = []
  | [], w, w', _, _, hm, h => by
      have hw := (Act.returns_forEach_nil _ _ _ _).1 h
      subst hw
      exact ⟨.refl, hm⟩
  | i :: xs, w, w', hnodup, hu, hm, h => by
      obtain ⟨hi, hxs⟩ := List.nodup_cons.1 hnodup
      obtain ⟨w₁, hfirst, hrest⟩ := (Act.returns_forEach_cons _ _ _ _ _ _).1 h
      obtain ⟨e, t, he, hrun, rfl⟩ := returns_submitDict hfirst
      have hsubmits : Submits env (e.leaves i) w.sharedDictionaryContext (t.enc.leaves i) t.ctx :=
        LogicalColEncoder.submitDict_submits e ⟨(), .default, w.sharedDictionaryContext, w.rng⟩
          (hu i List.mem_cons_self e he) hrun
      obtain ⟨pre, post, hall, hset⟩ := fieldLeaves_split w.columnEncoders 0 i he
      rw [Nat.zero_add] at hall hset
      have hsteps := hsubmits.steps pre post [] w.state
      rw [← hall, ← hset] at hsteps
      -- the other fields are as they were
      have hrest' := steps_submitAll xs hxs (fun k hk e' he' => hu k (List.mem_cons_of_mem _ hk) e'
        (by
          have hne : i ≠ k := fun hik => hi (hik ▸ hk)
          rwa [List.getElem?_set_ne hne] at he')) (hsubmits.context (keptByCalls_mergeResult []) hm)
        hrest
      exact ⟨hsteps.trans hrest'.1, hrest'.2⟩

theorem unsubmitted_field {w : FileWriter} (hw : Unsubmitted w.leaves) {i : Nat}
    {e : LogicalColEncoder} (he : w.columnEncoders[i]? = some e) : Unsubmitted (e.leaves i) := by
  obtain ⟨pre, post, hall, -⟩ := fieldLeaves_split w.columnEncoders 0 i he
  rw [Nat.zero_add] at hall
  have hu : Unsubmitted (pre ++ e.leaves i ++ post) := hall ▸ hw
  exact (unsubmitted_append.1 (unsubmitted_append.1 hu).1).2

theorem steps_submitAndMerge {w w' : FileWriter} (hw : Unmerged w)
    (h : Act.Returns (submitAndMerge env) w () w') : Steps env AnyCall w.point w'.point := by
  obtain ⟨v, w₁, hget, hrest⟩ := (Act.returns_bind _ _ _ _ _).1 h
  obtain ⟨rfl, rfl⟩ := (Act.returns_get _ _ _).1 hget
  split at hrest
  · obtain ⟨_, w₁, hsubmit, hrest⟩ := (Act.returns_bind _ _ _ _ _).1 hrest
    obtain ⟨v, w₂, hget, hrest⟩ := (Act.returns_bind _ _ _ _ _).1 hrest
    obtain ⟨rfl, rfl⟩ := (Act.returns_get _ _ _).1 hget
    obtain ⟨ctx, w₂, hlift, hset⟩ := (Act.returns_bind _ _ _ _ _).1 hrest
    obtain ⟨hmerge, rfl⟩ := (Act.returns_lift _ _ _ _).1 hlift
    have hw' := (Act.returns_set _ _ _ _).1 hset
    obtain ⟨hsteps, hm⟩ : Steps env AnyCall w.point w₁.point ∧ _ :=
      steps_submitAll _ List.nodup_range
        (fun i _ e he => unsubmitted_field hw.unsubmitted he) hw.mergeResult hsubmit
    subst hw'
    exact hsteps.trans (.single (.mergeDicts hm hmerge))
  · obtain ⟨-, rfl⟩ := (Act.returns_pure _ _ _ _).1 hrest
    exact .refl

/-- **The row groups of `finish` are a sequence of steps.** -/
theorem steps_of_finishRowGroups {w w' : FileWriter} (hw : Unmerged w)
    (h : Act.Returns (finishRowGroups env) w () w') : Steps env AnyCall w.point w'.point := by
  obtain ⟨_, w₁, hmerge, hrest⟩ := (Act.returns_bind _ _ _ _ _).1 h
  obtain ⟨_, w₂, hflush, hlast⟩ := (Act.returns_bind _ _ _ _ _).1 hrest
  obtain ⟨s, hs, rfl⟩ := returns_onState hlast
  cases hs
  exact ((steps_submitAndMerge hw hmerge).trans (steps_flushPendingChunks hflush)).tail
    .finishRowGroup

/-! ## New writers -/

/-- The leaves of a new tree are new encoders. -/
def Fresh (o : EncoderOptions) (j : Nat) (ls : List Leaf) : Prop :=
  ∀ l ∈ ls, l.field = j ∧ ∃ dataType, o.physical dataType = .ok l.encoder

theorem fresh_cons {o : EncoderOptions} {j i : Nat} {p : PhysicalColEncoder} {dataType : DataType}
    {ls : List Leaf} (hp : o.physical dataType = .ok p) (h : Fresh o j ls) :
    Fresh o j (⟨p, i, j⟩ :: ls) :=
  List.forall_mem_cons.2 ⟨⟨rfl, dataType, hp⟩, h⟩

theorem fresh_nil {o : EncoderOptions} {j : Nat} : Fresh o j [] := fun l hl => by cases hl

section Fresh

variable {o : EncoderOptions} {j : Nat}

mutual

theorem fresh_createLogicalEncoderOf : ∀ (t : DataType) {i : Nat} {e : LogicalColEncoder}
    {tree : LogicalTree} {n : Nat}, createLogicalEncoderOf o t i = .ok (e, tree, n) →
      Fresh o j (e.leaves j)
  | .prim t, _, _, _, _, h => by
      rw [createLogicalEncoderOf] at h
      split at h
      · simp only [bind_eq_ok, pure_eq_ok, Except.ok.injEq, Prod.mk.injEq] at h
        obtain ⟨p, hp, rfl, -⟩ := h
        exact fresh_cons hp fresh_nil
      · cases h
  | .list child, _, _, _, _, h => by
      simp only [createLogicalEncoderOf, bind_eq_ok, pure_eq_ok, Except.ok.injEq,
        Prod.mk.injEq] at h
      obtain ⟨p, hp, ⟨v, childTree, m⟩, hv, rfl, -⟩ := h
      exact fresh_cons hp (fresh_createLogicalEncoder child hv)
  | .largeList child, _, _, _, _, h => by
      simp only [createLogicalEncoderOf, bind_eq_ok, pure_eq_ok, Except.ok.injEq,
        Prod.mk.injEq] at h
      obtain ⟨p, hp, ⟨v, childTree, m⟩, hv, rfl, -⟩ := h
      exact fresh_cons hp (fresh_createLogicalEncoder child hv)
  | .struct fields, _, _, _, _, h => by
      simp only [createLogicalEncoderOf, bind_eq_ok, pure_eq_ok, Except.ok.injEq,
        Prod.mk.injEq] at h
      obtain ⟨⟨es, trees, m⟩, hes, p, hp, rfl, -⟩ := h
      exact fresh_cons hp (fresh_allLeaves fields hes)

theorem fresh_createLogicalEncoder : ∀ (f : Field) {i : Nat} {e : LogicalColEncoder}
    {tree : LogicalTree} {n : Nat}, createLogicalEncoder o f i = .ok (e, tree, n) →
      Fresh o j (e.leaves j)
  | .mk _ dataType _, _, _, _, _, h => fresh_createLogicalEncoderOf dataType h

theorem fresh_allLeaves : ∀ (fs : List Field) {i : Nat} {es : List LogicalColEncoder}
    {trees : List LogicalTree} {n : Nat}, createLogicalEncoders o fs i = .ok (es, trees, n) →
      Fresh o j (LogicalColEncoder.allLeaves j es)
  | [], _, _, _, _, h => by
      cases h
      exact fresh_nil
  | f :: fs, _, _, _, _, h => by
      simp only [createLogicalEncoders, bind_eq_ok, pure_eq_ok, Except.ok.injEq,
        Prod.mk.injEq] at h
      obtain ⟨⟨e, tree, m⟩, he, ⟨es, trees, m'⟩, hes, rfl, -⟩ := h
      exact List.forall_mem_append.2
        ⟨fresh_createLogicalEncoder f he, fresh_allLeaves fs hes⟩

end

/-- Every physical encoder of a new writer is a new one, of a field of the schema. -/
theorem fresh_fieldLeaves : ∀ (fs : List Field) {i j : Nat} {es : List LogicalColEncoder}
    {trees : List LogicalTree} {n : Nat}, createLogicalEncoders o fs i = .ok (es, trees, n) →
      ∀ l ∈ fieldLeaves j es, (j ≤ l.field ∧ l.field < j + fs.length) ∧
        ∃ dataType, o.physical dataType = .ok l.encoder
  | [], _, _, _, _, _, h, l, hl => by
      cases h
      cases hl
  | f :: fs, _, j, _, _, _, h, l, hl => by
      simp only [createLogicalEncoders, bind_eq_ok, pure_eq_ok, Except.ok.injEq,
        Prod.mk.injEq] at h
      obtain ⟨⟨e, tree, m⟩, he, ⟨es, trees, m'⟩, hes, rfl, -⟩ := h
      rw [List.length_cons]
      rcases List.mem_append.1 hl with hl | hl
      · obtain ⟨hj, hp⟩ := fresh_createLogicalEncoder f he l hl
        exact ⟨by omega, hp⟩
      · obtain ⟨hj, hp⟩ := fresh_fieldLeaves fs hes l hl
        exact ⟨by omega, hp⟩

end Fresh

theorem submittedDictIdx_physical {o : EncoderOptions} {dataType : DataType}
    {p : PhysicalColEncoder} (h : o.physical dataType = .ok p) : p.submittedDictIdx = none := by
  unfold EncoderOptions.physical createPhysicalEncoder at h
  split at h
  · split at h
    · split at h
      all_goals
        cases h
        rfl
    · cases h
  · cases h
    rfl
  · cases h
    rfl
  · cases h

/-- The encoder options of a writer. -/
def encoderOptions (env : Env) (options : FileWriterOptions) : EncoderOptions :=
  ⟨options.iounitSize, options.wasmContext env, options.dictionaryType, options.compressionType⟩

/-- A new writer: new encoders, and an empty context. -/
theorem tryNew_point {schema : List Field} {options : FileWriterOptions} {w : FileWriter}
    (h : tryNew env schema options = .ok w) :
    (∀ l ∈ w.leaves, l.field < schema.length ∧
      ∃ dataType, (encoderOptions env options).physical dataType = .ok l.encoder) ∧
      w.sharedDictionaryContext = .new options.dictionaryType.isMultiColSharing
        options.compressionType := by
  simp only [tryNew, bind_eq_ok, pure_eq_ok, Except.ok.injEq] at h
  obtain ⟨⟨es, trees, n⟩, hes, rfl⟩ := h
  refine ⟨?_, rfl⟩
  intro l hl
  obtain ⟨hj, hp⟩ := fresh_fieldLeaves schema hes l hl
  exact ⟨by omega, hp⟩

theorem unmerged_tryNew {schema : List Field} {options : FileWriterOptions} {w : FileWriter}
    (h : tryNew env schema options = .ok w) : Unmerged w := by
  obtain ⟨hleaves, hctx⟩ := tryNew_point h
  refine ⟨?_, by rw [hctx]; rfl⟩
  intro l hl
  obtain ⟨-, dataType, hp⟩ := hleaves l hl
  exact submittedDictIdx_physical hp

/-- **A run of calls is a sequence of steps** from a new writer. -/
theorem steps_of_reaches {schema : List Field} {options : FileWriterOptions} {cs : List Call}
    {w : FileWriter} (h : Reaches env schema options cs w) : ∃ w₀,
      tryNew env schema options = .ok w₀ ∧ Steps env AnyCall w₀.point w.point ∧ Unmerged w := by
  obtain ⟨w₀, hnew, hcalls⟩ := h
  have hgoes : Goes env Unmerged (calls env cs) := goes_forEach goes_call cs
  obtain ⟨hsteps, hw⟩ := hgoes w₀ () w (unmerged_tryNew hnew) hcalls
  exact ⟨w₀, hnew, hsteps, hw⟩

/-- The run up to the point at which `finish` starts to write the sections. -/
theorem FinishesWith.steps {schema : List Field} {options : FileWriterOptions} {cs : List Call}
    {w w₁ : FileWriter} {sec : Sections} {p : PostscriptValues}
    (h : FinishesWith env schema options cs w w₁ sec p) : ∃ w₀,
      tryNew env schema options = .ok w₀ ∧ Steps env AnyCall w₀.point w₁.point := by
  obtain ⟨w', hreach, hgroups⟩ := h.rowGroups
  obtain ⟨w₀, hnew, hsteps, hw'⟩ := steps_of_reaches hreach
  exact ⟨w₀, hnew, hsteps.trans (steps_of_finishRowGroups hw' hgroups)⟩

end

end FileWriter

end F3Format
