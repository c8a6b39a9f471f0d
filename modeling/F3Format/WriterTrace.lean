import F3Format.EncodingCounters
import F3Format.Lib.Paths

/-!
# Runs with their actions

A step of a writer is one of a few actions: an array is encoded for a column, a
column is finished, a chunk is flushed. `Ran` says which actions lead from one
writer to another, but for the flushing of chunks, which depends on their sizes.
The actions of a run are determined by its batches (`ran_writeBatch`,
`ran_finishRowGroups`): the arrays of each batch in the order of the columns, and
at the end of a row group every column is finished.
-/

set_option autoImplicit false

namespace F3Format

open Lib

/-! ## Actions -/

/-- What a step of a writer does. -/
inductive Action where
  | encode (column : Nat) (array : ArrayRef)
  | finish (column : Nat)
  | submitDict
  | mergeDicts
  | flushChunk
  | addRows (numRows : Nat)
  | finishRowGroup

/-- The action of a call. -/
inductive CallEvent.Is (env : Env) (e : CallEvent) : Action → Prop where
  | encode (array : ArrayRef) (hnone : e.leaf.encoder.submittedDictIdx = none)
      (h : e.method = PhysicalColEncoder.encode env array) : Is env e (.encode e.leaf.column array)
  | finish (h : e.method = PhysicalColEncoder.finish env) : Is env e (.finish e.leaf.column)

/-- A step of a writer with what it does. -/
inductive Does (env : Env) : Point → Action → Point → Prop where
  | call {pre post : List Leaf} {pending : List EncodedColumnChunk} {s : FileWriteState}
      (e : CallEvent) (hruns : e.Runs env) {action : Action} (his : e.Is env action)
      (hcounter : s.columnCounters[e.leaf.field]? = some e.before.counter) :
      Does env ⟨pre ++ e.leaf :: post, pending, s, e.before.ctx⟩ action
        ⟨pre ++ e.left :: post, pending ++ stamp e.leaf.column e.chunks,
          { s with columnCounters := s.columnCounters.set e.leaf.field e.after.counter },
          e.after.ctx⟩
  | submitDict {pre post : List Leaf} {l : Leaf} {pending : List EncodedColumnChunk}
      {s : FileWriteState} {before after : Working PhysicalColEncoder}
      (hencoder : before.enc = l.encoder) (hnone : l.encoder.submittedDictIdx = none)
      (hrun : PhysicalColEncoder.submitDict before = .ok () after) :
      Does env ⟨pre ++ l :: post, pending, s, before.ctx⟩ .submitDict
        ⟨pre ++ { l with encoder := after.enc } :: post, pending, s, after.ctx⟩
  | mergeDicts {ls : List Leaf} {pending : List EncodedColumnChunk} {s : FileWriteState}
      {ctx ctx' : SharedDictionaryContext} (hnil : ctx.mergeResult = [])
      (hrun : ctx.mergeDicts env = .ok ctx') :
      Does env ⟨ls, pending, s, ctx⟩ .mergeDicts ⟨ls, pending, s, ctx'⟩
  | flushChunk {ls : List Leaf} {c : EncodedColumnChunk} {pending : List EncodedColumnChunk}
      {s s' : FileWriteState} {ctx : SharedDictionaryContext}
      (hrun : s.flushChunk env c = .ok s') :
      Does env ⟨ls, c :: pending, s, ctx⟩ .flushChunk ⟨ls, pending, s', ctx⟩
  | addRows {ls : List Leaf} {s : FileWriteState} {ctx : SharedDictionaryContext} (n : Nat) :
      Does env ⟨ls, [], s, ctx⟩ (.addRows n) ⟨ls, [], s.addRows n, ctx⟩
  | finishRowGroup {ls : List Leaf} {s : FileWriteState} {ctx : SharedDictionaryContext} :
      Does env ⟨ls, [], s, ctx⟩ .finishRowGroup ⟨ls, [], s.finishRowGroup, ctx⟩

section Steps

variable {env : Env} {a b : Point} {action : Action} {actions : List Action}

/-- An action is a step. -/
theorem Does.step (h : Does env a action b) : Step env AnyCall a b := by
  cases h with
  | call e hruns his hcounter => exact .call e hruns trivial hcounter
  | submitDict hencoder hnone hrun => exact .submitDict hencoder hnone hrun
  | mergeDicts hnil hrun => exact .mergeDicts hnil hrun
  | flushChunk hrun => exact .flushChunk hrun
  | addRows n => exact .addRows n
  | finishRowGroup => exact .finishRowGroup

theorem steps_of_path (h : Path (Does env) a actions b) : Steps env AnyCall a b :=
  h.reflTransGen fun _ _ _ hdoes => hdoes.step

/-- Every encoder keeps its column. -/
theorem Does.columns (h : Does env a action b) :
    b.leaves.map Leaf.column = a.leaves.map Leaf.column := by
  cases h with
  | call e hruns his hcounter => simp [CallEvent.left]
  | submitDict hencoder hnone hrun => simp
  | mergeDicts hnil hrun => rfl
  | flushChunk hrun => rfl
  | addRows n => rfl
  | finishRowGroup => rfl

theorem columns_of_path (h : Path (Does env) a actions b) :
    b.leaves.map Leaf.column = a.leaves.map Leaf.column := by
  induction h with
  | nil => rfl
  | cons hfirst rest ih => exact ih.trans hfirst.columns

end Steps

/-! ## Calls on trees -/

section Traces

variable {env : Env} {j : Nat}

/-- The encoders `ls` of field `j`, wherever they stand, do these actions, return
`chunks` and leave `ls'`. -/
def Traces (env : Env) (j : Nat) (ls : List Leaf) (s : Shared) (actions : List Action)
    (chunks : List EncodedColumnChunk) (ls' : List Leaf) (t : Shared) : Prop :=
  ∀ (pre post : List Leaf) (pending : List EncodedColumnChunk) (st : FileWriteState),
    st.columnCounters[j]? = some s.counter →
      Path (Does env) ⟨pre ++ ls ++ post, pending, st, s.ctx⟩ actions
        ⟨pre ++ ls' ++ post, pending ++ chunks,
          { st with columnCounters := st.columnCounters.set j t.counter }, t.ctx⟩

theorem traces_refl (ls : List Leaf) (s : Shared) : Traces env j ls s [] [] ls s := by
  intro pre post pending st hcounter
  obtain ⟨hj, hget⟩ := List.getElem?_eq_some_iff.1 hcounter
  rw [List.append_nil, ← hget, List.set_getElem_self]
  exact .nil _

theorem traces_append {ls ls' ms ms' : List Leaf} {s t u : Shared} {actions later : List Action}
    {cs ds : List EncodedColumnChunk} (h : Traces env j ls s actions cs ls' t)
    (h' : Traces env j ms t later ds ms' u) :
    Traces env j (ls ++ ms) s (actions ++ later) (cs ++ ds) (ls' ++ ms') u := by
  intro pre post pending st hcounter
  have hfirst := h pre (ms ++ post) pending st hcounter
  obtain ⟨hj, -⟩ := List.getElem?_eq_some_iff.1 hcounter
  have hnext : (st.columnCounters.set j t.counter)[j]? = some t.counter :=
    List.getElem?_set_self hj
  have hsecond := h' (pre ++ ls') post (pending ++ cs)
    { st with columnCounters := st.columnCounters.set j t.counter } hnext
  simp only [List.set_set, List.append_assoc] at hfirst hsecond ⊢
  exact hfirst.append hsecond

theorem traces_encode {p : PhysicalColEncoder} {i : Nat} {s : Shared} {array : ArrayRef}
    (hnone : p.submittedDictIdx = none) {chunks : List EncodedColumnChunk}
    {t : Working PhysicalColEncoder}
    (h : callPhysical (PhysicalColEncoder.encode env array) p s = .ok chunks t) :
    Traces env j [⟨p, i, j⟩] s [.encode i array] (stamp i chunks) [⟨t.enc, i, j⟩] t.shared := by
  intro pre post pending st hcounter
  rw [List.append_assoc, List.append_assoc]
  exact .single (.call ⟨⟨p, i, j⟩, PhysicalColEncoder.encode env array,
    ⟨p, s.counter, s.ctx, s.rng⟩, chunks, t⟩ ⟨rfl, .encode array hnone, h⟩
      (.encode array hnone rfl) hcounter)

theorem traces_finish {p : PhysicalColEncoder} {i : Nat} {s : Shared}
    {chunks : List EncodedColumnChunk} {t : Working PhysicalColEncoder}
    (h : callPhysical (PhysicalColEncoder.finish env) p s = .ok chunks t) :
    Traces env j [⟨p, i, j⟩] s [.finish i] (stamp i chunks) [⟨t.enc, i, j⟩] t.shared := by
  intro pre post pending st hcounter
  rw [List.append_assoc, List.append_assoc]
  exact .single (.call ⟨⟨p, i, j⟩, PhysicalColEncoder.finish env,
    ⟨p, s.counter, s.ctx, s.rng⟩, chunks, t⟩ ⟨rfl, .finish, h⟩ (.finish rfl) hcounter)

/-- The action of sending an array to a column. -/
def Action.send (c : Nat × ArrayRef) : Action := .encode c.1 c.2

namespace LogicalColEncoder

mutual

/-- The arrays `encode` gives to the physical encoders, with their columns. The
fields of a struct are zipped with its columns. Behind an array without the
parts that are asked for there is nothing: there `encode` fails. -/
def routes : LogicalColEncoder → ArrayRef → List (Nat × ArrayRef)
  | flat _ i, a => [(i, a)]
  | list _ i v, a => (i, a) ::
      match extractItems a with
      | .ok items => routes v items
      | .error _ => []
  | struct _ i fs, a => (i, extractValidity a) ::
      match structColumns a with
      | .ok columns => routesOf fs columns
      | .error _ => []

/-- The arrays of the fields of a struct. -/
def routesOf : List LogicalColEncoder → List ArrayRef → List (Nat × ArrayRef)
  | e :: es, column :: columns => routes e column ++ routesOf es columns
  | _, _ => []

end

theorem routes_list (p : PhysicalColEncoder) (i : Nat) (v : LogicalColEncoder) {a items : ArrayRef}
    (h : extractItems a = .ok items) : (list p i v).routes a = (i, a) :: v.routes items := by
  rw [routes, h]

theorem routes_struct (p : PhysicalColEncoder) (i : Nat) (fs : List LogicalColEncoder)
    {a : ArrayRef} {columns : List ArrayRef} (h : structColumns a = .ok columns) :
    (struct p i fs).routes a = (i, extractValidity a) :: routesOf fs columns := by
  rw [routes, h]

mutual

/-- Encoding with a tree sends its arrays to its columns. -/
theorem encode_traces : ∀ (e : LogicalColEncoder) {array : ArrayRef} (s : Shared)
    {res : Option (List EncodedColumnChunk)} {t : Working LogicalColEncoder},
    Unsubmitted (e.leaves j) → encode env e array s = .ok res t →
      Traces env j (e.leaves j) s ((e.routes array).map .send) (res.getD []) (t.enc.leaves j)
        t.shared
  | flat p i, array, s, res, t, hu, h => by
      rw [encode] at h
      rw [leaves] at hu
      cases hp : callPhysical (PhysicalColEncoder.encode env array) p s with
      | error f t => rw [hp] at h; cases h
      | ok chunks u =>
          rw [hp] at h
          cases h
          rw [getD_thenSome, leaves, routes]
          exact traces_encode (unsubmitted_cons.1 hu).1 hp
  | list p i v, array, s, res, t, hu, h => by
      rw [encode] at h
      rw [leaves, unsubmitted_cons] at hu
      cases hp : callPhysical (PhysicalColEncoder.encode env array) p s with
      | error f t => rw [hp] at h; cases h
      | ok chunks u =>
          rw [hp] at h
          dsimp only at h
          cases hitems : extractItems array with
          | error f => rw [hitems] at h; cases h
          | ok items =>
              rw [hitems] at h
              dsimp only at h
              cases hv : encode env v items u.shared with
              | error f t => rw [hv] at h; cases h
              | ok more r =>
                  rw [hv] at h
                  cases h
                  have hvalues := encode_traces v u.shared hu.2 hv
                  rw [getD_thenSome, leaves, routes_list p i v hitems]
                  exact traces_append (traces_encode hu.1 hp) hvalues
  | struct p i fs, array, s, res, t, hu, h => by
      rw [encode] at h
      rw [leaves, unsubmitted_cons] at hu
      cases hp : callPhysical (PhysicalColEncoder.encode env (extractValidity array)) p s with
      | error f t => rw [hp] at h; cases h
      | ok chunks u =>
          rw [hp] at h
          dsimp only at h
          cases hcolumns : structColumns array with
          | error f => rw [hcolumns] at h; cases h
          | ok columns =>
              rw [hcolumns] at h
              dsimp only at h
              cases hfs : encodeFields env fs columns u.shared with
              | error f t => rw [hfs] at h; cases h
              | ok more r =>
                  rw [hfs] at h
                  cases h
                  have hfields := encodeFields_traces fs u.shared hu.2 hfs
                  rw [getD_thenSome, leaves, routes_struct p i fs hcolumns]
                  exact traces_append (traces_encode hu.1 hp) hfields

theorem encodeFields_traces : ∀ (es : List LogicalColEncoder) {columns : List ArrayRef}
    (s : Shared) {res : List EncodedColumnChunk} {t : Working (List LogicalColEncoder)},
    Unsubmitted (allLeaves j es) → encodeFields env es columns s = .ok res t →
      Traces env j (allLeaves j es) s ((routesOf es columns).map .send) res (allLeaves j t.enc)
        ⟨(), t.counter, t.ctx, t.rng⟩
  | [], _, s, res, t, _, h => by
      rw [encodeFields] at h
      cases h
      exact traces_refl _ s
  | e :: es, [], s, res, t, _, h => by
      rw [encodeFields] at h
      cases h
      exact traces_refl _ s
  | e :: es, column :: columns, s, res, t, hu, h => by
      rw [encodeFields] at h
      rw [allLeaves, unsubmitted_append] at hu
      cases he : encode env e column s with
      | error f t => rw [he] at h; cases h
      | ok chunks u =>
          rw [he] at h
          dsimp only at h
          cases hes : encodeFields env es columns u.shared with
          | error f t => rw [hes] at h; cases h
          | ok more r =>
              rw [hes] at h
              cases h
              rw [allLeaves, routesOf, List.map_append]
              exact traces_append (encode_traces e s hu.1 he)
                (encodeFields_traces es u.shared hu.2 hes)

end

mutual

/-- Finishing a tree finishes its columns. -/
theorem finish_traces : ∀ (e : LogicalColEncoder) (s : Shared)
    {res : Option (List EncodedColumnChunk)} {t : Working LogicalColEncoder},
    finish env e s = .ok res t →
      Traces env j (e.leaves j) s (e.columns.map .finish) (res.getD []) (t.enc.leaves j) t.shared
  | flat p i, s, res, t, h => by
      rw [finish] at h
      cases hp : callPhysical (PhysicalColEncoder.finish env) p s with
      | error f t => rw [hp] at h; cases h
      | ok chunks u =>
          rw [hp] at h
          cases h
          rw [getD_thenSome, leaves]
          exact traces_finish hp
  | list p i v, s, res, t, h => by
      rw [finish] at h
      cases hp : callPhysical (PhysicalColEncoder.finish env) p s with
      | error f t => rw [hp] at h; cases h
      | ok chunks u =>
          rw [hp] at h
          dsimp only at h
          cases hv : finish env v u.shared with
          | error f t => rw [hv] at h; cases h
          | ok more r =>
              rw [hv] at h
              cases h
              have hvalues := finish_traces v u.shared hv
              rw [getD_thenSome, leaves]
              exact traces_append (traces_finish hp) hvalues
  | struct p i fs, s, res, t, h => by
      rw [finish] at h
      cases hp : callPhysical (PhysicalColEncoder.finish env) p s with
      | error f t => rw [hp] at h; cases h
      | ok chunks u =>
          rw [hp] at h
          dsimp only at h
          cases hfs : finishFields env fs u.shared with
          | error f t => rw [hfs] at h; cases h
          | ok more r =>
              rw [hfs] at h
              cases h
              have hfields := finishFields_traces fs u.shared hfs
              rw [getD_thenSome, leaves]
              exact traces_append (traces_finish hp) hfields

theorem finishFields_traces : ∀ (es : List LogicalColEncoder) (s : Shared)
    {res : List EncodedColumnChunk} {t : Working (List LogicalColEncoder)},
    finishFields env es s = .ok res t →
      Traces env j (allLeaves j es) s ((columnsOf es).map .finish) res (allLeaves j t.enc)
        ⟨(), t.counter, t.ctx, t.rng⟩
  | [], s, res, t, h => by
      rw [finishFields] at h
      cases h
      exact traces_refl _ s
  | e :: es, s, res, t, h => by
      rw [finishFields] at h
      cases he : finish env e s with
      | error f t => rw [he] at h; cases h
      | ok chunks u =>
          rw [he] at h
          dsimp only at h
          cases hes : finishFields env es u.shared with
          | error f t => rw [hes] at h; cases h
          | ok more r =>
              rw [hes] at h
              cases h
              rw [allLeaves, columnsOf, List.map_append]
              exact traces_append (finish_traces e s he) (finishFields_traces es u.shared hes)

end

/-- The tree has the columns of the other one and sends the same arrays to them. -/
structure Alike (e e' : LogicalColEncoder) : Prop where
  routes : ∀ a, e'.routes a = e.routes a
  columns : e'.columns = e.columns

/-- `Alike` for the fields of a struct. -/
structure AllAlike (es es' : List LogicalColEncoder) : Prop where
  routes : ∀ as, routesOf es' as = routesOf es as
  columns : columnsOf es' = columnsOf es

theorem Alike.trans {e e' e'' : LogicalColEncoder} (h : Alike e e') (h' : Alike e' e'') :
    Alike e e'' :=
  ⟨fun a => (h'.routes a).trans (h.routes a), h'.columns.trans h.columns⟩

theorem alike_flat (p p' : PhysicalColEncoder) (i : Nat) : Alike (flat p i) (flat p' i) :=
  ⟨fun _ => rfl, rfl⟩

theorem Alike.list {v v' : LogicalColEncoder} (h : Alike v v') (p p' : PhysicalColEncoder)
    (i : Nat) : Alike (list p i v) (.list p' i v') where
  routes := fun a => by simp only [LogicalColEncoder.routes, h.routes]
  columns := congrArg (List.cons i) h.columns

theorem AllAlike.struct {fs fs' : List LogicalColEncoder} (h : AllAlike fs fs')
    (p p' : PhysicalColEncoder) (i : Nat) : Alike (struct p i fs) (.struct p' i fs') where
  routes := fun a => by simp only [LogicalColEncoder.routes, h.routes]
  columns := congrArg (List.cons i) h.columns

theorem allAlike_refl (es : List LogicalColEncoder) : AllAlike es es := ⟨fun _ => rfl, rfl⟩

theorem Alike.cons {e e' : LogicalColEncoder} {es es' : List LogicalColEncoder} (h : Alike e e')
    (hes : AllAlike es es') : AllAlike (e :: es) (e' :: es') where
  routes := by
    intro as
    cases as with
    | nil => rfl
    | cons a as => simp only [routesOf, h.routes, hes.routes]
  columns := by rw [columnsOf, columnsOf, h.columns, hes.columns]

mutual

/-- Encoding does not change the shape of a tree. -/
theorem encode_alike : ∀ (e : LogicalColEncoder) {array : ArrayRef} {s : Shared}
    {res : Option (List EncodedColumnChunk)} {t : Working LogicalColEncoder},
    encode env e array s = .ok res t → Alike e t.enc
  | flat p i, array, s, res, t, h => by
      rw [encode] at h
      split at h
      · cases h
        exact alike_flat _ _ i
      · cases h
  | list p i v, array, s, res, t, h => by
      rw [encode] at h
      split at h
      · cases h
      · split at h
        · cases h
        · split at h
          · next hv =>
              cases h
              exact (encode_alike v hv).list _ _ i
          · cases h
  | struct p i fs, array, s, res, t, h => by
      rw [encode] at h
      split at h
      · cases h
      · split at h
        · cases h
        · split at h
          · next hfs =>
              cases h
              exact (encodeFields_alike fs hfs).struct _ _ i
          · cases h

theorem encodeFields_alike : ∀ (es : List LogicalColEncoder) {columns : List ArrayRef}
    {s : Shared} {res : List EncodedColumnChunk} {t : Working (List LogicalColEncoder)},
    encodeFields env es columns s = .ok res t → AllAlike es t.enc
  | [], _, s, res, t, h => by
      rw [encodeFields] at h
      cases h
      exact allAlike_refl []
  | e :: es, [], s, res, t, h => by
      rw [encodeFields] at h
      cases h
      exact allAlike_refl (e :: es)
  | e :: es, column :: columns, s, res, t, h => by
      rw [encodeFields] at h
      split at h
      · cases h
      · next he =>
          split at h
          · next hes =>
              cases h
              exact (encode_alike e he).cons (encodeFields_alike es hes)
          · cases h

end

mutual

/-- Finishing does not change the shape of a tree. -/
theorem finish_alike : ∀ (e : LogicalColEncoder) {s : Shared}
    {res : Option (List EncodedColumnChunk)} {t : Working LogicalColEncoder},
    finish env e s = .ok res t → Alike e t.enc
  | flat p i, s, res, t, h => by
      rw [finish] at h
      split at h
      · cases h
        exact alike_flat _ _ i
      · cases h
  | list p i v, s, res, t, h => by
      rw [finish] at h
      split at h
      · cases h
      · split at h
        · next hv =>
            cases h
            exact (finish_alike v hv).list _ _ i
        · cases h
  | struct p i fs, s, res, t, h => by
      rw [finish] at h
      split at h
      · cases h
      · split at h
        · next hfs =>
            cases h
            exact (finishFields_alike fs hfs).struct _ _ i
        · cases h

theorem finishFields_alike : ∀ (es : List LogicalColEncoder) {s : Shared}
    {res : List EncodedColumnChunk} {t : Working (List LogicalColEncoder)},
    finishFields env es s = .ok res t → AllAlike es t.enc
  | [], s, res, t, h => by
      rw [finishFields] at h
      cases h
      exact allAlike_refl []
  | e :: es, s, res, t, h => by
      rw [finishFields] at h
      split at h
      · cases h
      · next he =>
          split at h
          · next hes =>
              cases h
              exact (finish_alike e he).cons (finishFields_alike es hes)
          · cases h

end

end LogicalColEncoder

/-- The encoders `ls` submit their values, wherever they stand. -/
def SubmitTraces (env : Env) (ls : List Leaf) (ctx : SharedDictionaryContext) (ls' : List Leaf)
    (ctx' : SharedDictionaryContext) : Prop :=
  ∃ n, ∀ (pre post : List Leaf) (pending : List EncodedColumnChunk) (st : FileWriteState),
    Path (Does env) ⟨pre ++ ls ++ post, pending, st, ctx⟩ (List.replicate n .submitDict)
      ⟨pre ++ ls' ++ post, pending, st, ctx'⟩

theorem submitTraces_append {ls ls' ms ms' : List Leaf} {c c' c'' : SharedDictionaryContext}
    (h : SubmitTraces env ls c ls' c') (h' : SubmitTraces env ms c' ms' c'') :
    SubmitTraces env (ls ++ ms) c (ls' ++ ms') c'' := by
  obtain ⟨n, h⟩ := h
  obtain ⟨m, h'⟩ := h'
  refine ⟨n + m, fun pre post pending st => ?_⟩
  have hfirst := h pre (ms ++ post) pending st
  have hsecond := h' (pre ++ ls') post pending st
  simp only [List.append_assoc] at hfirst hsecond ⊢
  rw [List.replicate_add]
  exact hfirst.append hsecond

theorem submitTraces_call {p : PhysicalColEncoder} {i : Nat} {s : Shared}
    (hnone : p.submittedDictIdx = none) {u : Unit} {t : Working PhysicalColEncoder}
    (h : callPhysical PhysicalColEncoder.submitDict p s = .ok u t) :
    SubmitTraces env [⟨p, i, j⟩] s.ctx [⟨t.enc, i, j⟩] t.ctx := by
  refine ⟨1, fun pre post pending st => ?_⟩
  rw [List.append_assoc, List.append_assoc]
  exact .single (@Does.submitDict env pre post ⟨p, i, j⟩ pending st
    ⟨p, s.counter, s.ctx, s.rng⟩ t rfl hnone h)

namespace LogicalColEncoder

mutual

/-- A tree submits the values of its columns, and keeps its shape. -/
theorem submitDict_traces : ∀ (e : LogicalColEncoder) (s : Shared) {u : Unit}
    {t : Working LogicalColEncoder}, Unsubmitted (e.leaves j) → submitDict e s = .ok u t →
      SubmitTraces env (e.leaves j) s.ctx (t.enc.leaves j) t.ctx ∧ Alike e t.enc
  | flat p i, s, u, t, hu, h => by
      rw [submitDict] at h
      rw [leaves] at hu
      cases hp : callPhysical PhysicalColEncoder.submitDict p s with
      | error f t => rw [hp] at h; cases h
      | ok r q =>
          rw [hp] at h
          cases h
          rw [leaves]
          exact ⟨submitTraces_call (unsubmitted_cons.1 hu).1 hp, alike_flat _ _ i⟩
  | list p i v, s, u, t, hu, h => by
      rw [submitDict] at h
      rw [leaves, unsubmitted_cons] at hu
      cases hp : callPhysical PhysicalColEncoder.submitDict p s with
      | error f t => rw [hp] at h; cases h
      | ok r q =>
          rw [hp] at h
          dsimp only at h
          cases hv : submitDict v q.shared with
          | error f t => rw [hv] at h; cases h
          | ok r' q' =>
              rw [hv] at h
              cases h
              obtain ⟨hvalues, halike⟩ := submitDict_traces v q.shared hu.2 hv
              rw [leaves]
              exact ⟨submitTraces_append (submitTraces_call hu.1 hp) hvalues, halike.list _ _ i⟩
  | struct p i fs, s, u, t, hu, h => by
      rw [submitDict] at h
      rw [leaves, unsubmitted_cons] at hu
      cases hp : callPhysical PhysicalColEncoder.submitDict p s with
      | error f t => rw [hp] at h; cases h
      | ok r q =>
          rw [hp] at h
          dsimp only at h
          cases hfs : submitFields fs q.shared with
          | error f t => rw [hfs] at h; cases h
          | ok r' q' =>
              rw [hfs] at h
              cases h
              obtain ⟨hfields, halike⟩ := submitFields_traces fs q.shared hu.2 hfs
              rw [leaves]
              exact ⟨submitTraces_append (submitTraces_call hu.1 hp) hfields, halike.struct _ _ i⟩

theorem submitFields_traces : ∀ (es : List LogicalColEncoder) (s : Shared) {u : Unit}
    {t : Working (List LogicalColEncoder)}, Unsubmitted (allLeaves j es) →
      submitFields es s = .ok u t →
        SubmitTraces env (allLeaves j es) s.ctx (allLeaves j t.enc) t.ctx ∧ AllAlike es t.enc
  | [], s, u, t, _, h => by
      rw [submitFields] at h
      cases h
      exact ⟨⟨0, fun _ _ _ _ => .nil _⟩, allAlike_refl []⟩
  | e :: es, s, u, t, hu, h => by
      rw [submitFields] at h
      rw [allLeaves, unsubmitted_append] at hu
      cases he : submitDict e s with
      | error f t => rw [he] at h; cases h
      | ok r q =>
          rw [he] at h
          dsimp only at h
          cases hes : submitFields es q.shared with
          | error f t => rw [hes] at h; cases h
          | ok r' q' =>
              rw [hes] at h
              cases h
              obtain ⟨hfirst, halike⟩ := submitDict_traces e s hu.1 he
              obtain ⟨hrest, halikes⟩ := submitFields_traces es q.shared hu.2 hes
              rw [allLeaves]
              exact ⟨submitTraces_append hfirst hrest, halike.cons halikes⟩

end

end LogicalColEncoder

end Traces

/-! ## Calls of the writer -/

/-- The actions but for the flushing of chunks. -/
def essential (actions : List Action) : List Action :=
  actions.filter fun
    | .flushChunk => false
    | _ => true

theorem essential_append (as bs : List Action) :
    essential (as ++ bs) = essential as ++ essential bs := List.filter_append ..

theorem essential_send (calls : List (Nat × ArrayRef)) :
    essential (calls.map .send) = calls.map .send := by
  refine List.filter_eq_self.2 fun a ha => ?_
  obtain ⟨c, -, rfl⟩ := List.mem_map.1 ha
  rfl

theorem essential_finish (columns : List Nat) :
    essential (columns.map .finish) = columns.map .finish := by
  refine List.filter_eq_self.2 fun a ha => ?_
  obtain ⟨c, -, rfl⟩ := List.mem_map.1 ha
  rfl

theorem essential_submitDict (n : Nat) :
    essential (List.replicate n .submitDict) = List.replicate n .submitDict := by
  refine List.filter_eq_self.2 fun a ha => ?_
  rw [List.eq_of_mem_replicate ha]

/-- The fields from number `j` on have these columns. -/
theorem columns_fieldLeaves (es : List LogicalColEncoder) (j : Nat) :
    (fieldLeaves j es).map Leaf.column = LogicalColEncoder.columnsOf es := by
  induction es generalizing j with
  | nil => rfl
  | cons e es ih =>
      rw [fieldLeaves, LogicalColEncoder.columnsOf, List.map_append,
        LogicalColEncoder.columns_leaves, ih (j + 1)]

namespace FileWriter

variable {env : Env} {es : List LogicalColEncoder} {w w' w'' : FileWriter}

/-- These actions, and the flushing of chunks, lead from one writer to the other. -/
def Ran (env : Env) (actions : List Action) (w w' : FileWriter) : Prop :=
  ∃ path, Path (Does env) w.point path w'.point ∧ essential path = actions

theorem ran_refl (w : FileWriter) : Ran env [] w w := ⟨[], .nil _, rfl⟩

theorem Ran.trans {as bs : List Action} (h : Ran env as w w') (h' : Ran env bs w' w'') :
    Ran env (as ++ bs) w w'' := by
  obtain ⟨path, hpath, rfl⟩ := h
  obtain ⟨path', hpath', rfl⟩ := h'
  exact ⟨path ++ path', hpath.append hpath', essential_append path path'⟩

/-- One of the encoders is replaced by one of its shape. -/
theorem alike_set {ws : List LogicalColEncoder} (h : List.Forall₂ LogicalColEncoder.Alike es ws)
    {i : Nat} {e e' : LogicalColEncoder} (he : ws[i]? = some e) (halike : e.Alike e') :
    List.Forall₂ LogicalColEncoder.Alike es (ws.set i e') := by
  induction h generalizing i with
  | nil => exact .nil
  | @cons a b as bs hfirst hrest ih =>
      cases i with
      | zero =>
          cases he
          exact .cons (hfirst.trans halike) hrest
      | succ i => exact .cons hfirst (ih he)

/-- Flushing chunks that are pending. -/
theorem path_flushChunks : ∀ (cs : List EncodedColumnChunk) {w w' : FileWriter},
    Act.Returns (Act.forEach (fun c => onState fun s => s.flushChunk env c) cs) w () w' →
      ∃ path, Path (Does env) ⟨w.leaves, cs, w.state, w.sharedDictionaryContext⟩ path w'.point ∧
        essential path = []
  | [], w, w', h => by
      have hw := (Act.returns_forEach_nil _ _ _ _).1 h
      subst hw
      exact ⟨[], .nil _, rfl⟩
  | c :: cs, w, w', h => by
      obtain ⟨w₁, hfirst, hrest⟩ := (Act.returns_forEach_cons _ _ _ _ _ _).1 h
      obtain ⟨s, hs, rfl⟩ := returns_onState hfirst
      obtain ⟨path, hpath, hnone⟩ := path_flushChunks cs hrest
      exact ⟨.flushChunk :: path, .cons (.flushChunk hs) hpath, hnone⟩

/-- A call of an encoder and the flushing of what it returned. -/
theorem ran_callAndFlush (actions : List Action) {i : Nat}
    {x : LogicalColEncoder → Shared → EncResult LogicalColEncoder (Option (List EncodedColumnChunk))}
    (hx : ∀ (e : LogicalColEncoder) (s : Shared) {res : Option (List EncodedColumnChunk)}
      {t : Working LogicalColEncoder}, w.columnEncoders[i]? = some e → x e s = .ok res t →
        Traces env i (e.leaves i) s actions (res.getD []) (t.enc.leaves i) t.shared ∧
          e.Alike t.enc)
    (halike : List.Forall₂ LogicalColEncoder.Alike es w.columnEncoders)
    (h : Act.Returns (callEncoder i x >>= flushChunks env) w () w') :
    Ran env (essential actions) w w' ∧
      List.Forall₂ LogicalColEncoder.Alike es w'.columnEncoders := by
  obtain ⟨res, w₁, hcall, hflush⟩ := (Act.returns_bind _ _ _ _ _).1 h
  obtain ⟨e, c, t, he, hc, hrun, rfl⟩ := returns_callEncoder hcall
  obtain ⟨pre, post, hall, hset⟩ := fieldLeaves_split w.columnEncoders 0 i he
  rw [Nat.zero_add] at hall hset
  obtain ⟨htraces, hsame⟩ := hx e ⟨(), c, w.sharedDictionaryContext, w.rng⟩ he hrun
  have hleaves : (w.putBack i t).leaves = pre ++ t.enc.leaves i ++ post := hset t.enc
  obtain ⟨path, hpath, hnone⟩ := path_flushChunks (res.getD []) (w := w.putBack i t) hflush
  have hfirst := htraces pre post [] w.state hc
  rw [hleaves] at hpath
  constructor
  · have hpoint : w.point = ⟨pre ++ e.leaves i ++ post, [], w.state, w.sharedDictionaryContext⟩ := by
      rw [← hall]
      rfl
    rw [Ran, hpoint]
    exact ⟨actions ++ path, hfirst.append hpath, by
      rw [essential_append, hnone, List.append_nil]⟩
  · rw [columnEncoders_of_flushChunks hflush]
    exact alike_set halike he hsame

/-- A writer in the middle of a run, with the shapes of its encoders. -/
structure Running (parts : Fixed) (es : List LogicalColEncoder) (w : FileWriter) : Prop where
  fixed : w.fixed = parts
  unmerged : Unmerged w
  alike : List.Forall₂ LogicalColEncoder.Alike es w.columnEncoders

theorem Running.encoder {parts : Fixed} (h : Running parts es w) {i : Nat} {e : LogicalColEncoder}
    (he : w.columnEncoders[i]? = some e) : ∃ e₀, es[i]? = some e₀ ∧ e₀.Alike e := by
  obtain ⟨hlt, rfl⟩ := List.getElem?_eq_some_iff.1 he
  have hlt' : i < es.length := h.alike.length_eq ▸ hlt
  exact ⟨es[i], List.getElem?_eq_getElem hlt', h.alike.get hlt' hlt⟩

variable {parts : Fixed}

/-- A successful run of `x` does the actions, and leaves a writer that is running. -/
def Plays (env : Env) (parts : Fixed) (es : List LogicalColEncoder) (actions : List Action)
    (x : WriterAct Unit) : Prop :=
  ∀ w w', Running parts es w → Act.Returns x w () w' → Ran env actions w w' ∧ Running parts es w'

theorem plays_bind {as bs : List Action} {x : WriterAct Unit} {f : Unit → WriterAct Unit}
    (hx : Plays env parts es as x) (hf : Plays env parts es bs (f ())) :
    Plays env parts es (as ++ bs) (x >>= f) := by
  intro w w' hw h
  obtain ⟨_, w₁, hfirst, hrest⟩ := (Act.returns_bind _ _ _ _ _).1 h
  obtain ⟨hran, hrunning⟩ := hx w w₁ hw hfirst
  obtain ⟨hran', hrunning'⟩ := hf w₁ w' hrunning hrest
  exact ⟨hran.trans hran', hrunning'⟩

theorem plays_forEach {α : Type} {f : α → WriterAct Unit} {actions : α → List Action}
    {xs : List α} (hf : ∀ a ∈ xs, Plays env parts es (actions a) (f a)) :
    Plays env parts es (xs.flatMap actions) (Act.forEach f xs) := by
  induction xs with
  | nil =>
      intro w w' hw h
      obtain rfl := (Act.returns_forEach_nil _ _ _ _).1 h
      exact ⟨ran_refl w, hw⟩
  | cons a xs ih =>
      intro w w' hw h
      obtain ⟨w₁, hfirst, hrest⟩ := (Act.returns_forEach_cons _ _ _ _ _ _).1 h
      obtain ⟨hran, hrunning⟩ := hf a List.mem_cons_self w w₁ hw hfirst
      obtain ⟨hran', hrunning'⟩ :=
        ih (fun b hb => hf b (List.mem_cons_of_mem a hb)) w₁ w' hrunning hrest
      exact ⟨hran.trans hran', hrunning'⟩

/-- The fixed parts of a writer are those of its settings. -/
theorem fixed_of_keeps {x : WriterAct Unit} (hx : Act.Keeps settings x)
    (h : Act.Returns x w () w') (hw : w.fixed = parts) : w'.fixed = parts := by
  have hsettings := settings_of_keeps hx h
  have hfixed : w'.fixed = w.fixed := congrArg Prod.fst hsettings
  exact hfixed.trans hw

/-- The arrays of an array of field `i`, with their columns. -/
def fieldRoutes (es : List LogicalColEncoder) (i : Nat) (a : ArrayRef) : List (Nat × ArrayRef) :=
  match es[i]? with
  | some e => e.routes a
  | none => []

theorem fieldRoutes_eq {i : Nat} {e₀ e : LogicalColEncoder} (he₀ : es[i]? = some e₀)
    (hsame : e₀.Alike e) (a : ArrayRef) : e.routes a = fieldRoutes es i a := by
  rw [hsame.routes, fieldRoutes, he₀]

/-- One array of field `i`. -/
theorem plays_encodeArray (i : Nat) (a : ArrayRef) :
    Plays env parts es ((fieldRoutes es i a).map .send) (encodeArray env i a) := by
  intro w w' hw h
  have hkeeps : Act.Keeps settings (encodeArray env i a) :=
    Act.keeps_bind (keeps_callEncoder i _) fun res => keeps_flushChunks env res
  obtain ⟨-, hunmerged⟩ := goes_encodeArray i a w () w' hw.unmerged h
  obtain ⟨hran, halike⟩ := ran_callAndFlush _ (fun e s res t he hrun => by
    obtain ⟨e₀, he₀, hsame⟩ := hw.encoder he
    have htraces := e.encode_traces s (unsubmitted_field hw.unmerged.unsubmitted he) hrun
    rw [fieldRoutes_eq he₀ hsame] at htraces
    exact ⟨htraces, e.encode_alike hrun⟩) hw.alike h
  rw [essential_send] at hran
  exact ⟨hran, fixed_of_keeps hkeeps h hw.fixed, hunmerged, halike⟩

/-- The arrays of a column of a batch, as they go to the physical columns. -/
def columnSends (es : List LogicalColEncoder) (lens : List (Nat × Nat)) (numRows : Nat)
    (p : ArrayRef × Nat) : List (Nat × ArrayRef) :=
  (encodedArrays lens numRows p).flatMap (fieldRoutes es p.2)

/-- The arrays of a batch, as they go to the physical columns. -/
def batchSends (es : List LogicalColEncoder) (lens : List (Nat × Nat)) (b : RecordBatch) :
    List (Nat × ArrayRef) :=
  b.columns.zipIdx.flatMap (columnSends es lens b.numRows)

theorem plays_writeColumn (numRows : Nat) (p : ArrayRef × Nat) : Plays env parts es
    ((columnSends es parts.customEncunitLen numRows p).map .send) (writeColumn env numRows p) := by
  intro w w' hw h
  have hlens : w.customEncunitLen = parts.customEncunitLen :=
    congrArg Fixed.customEncunitLen hw.fixed
  obtain ⟨v, w₀, hget, h⟩ := (Act.returns_bind _ _ _ _ _).1 h
  obtain ⟨rfl, rfl⟩ := (Act.returns_get _ _ _).1 hget
  rw [columnSends, encodedArrays, ← hlens]
  cases hlookup : w.customEncunitLen.lookup p.2 with
  | none =>
      rw [hlookup] at h
      dsimp only
      rw [List.flatMap_singleton]
      exact plays_encodeArray p.2 p.1 w w' hw h
  | some len =>
      rw [hlookup] at h
      dsimp only at h ⊢
      split at h
      · exact absurd h (Act.returns_throw _ _ _ _)
      · split at h
        · exact absurd h (Act.returns_throw _ _ _ _)
        · rw [List.flatMap_map, List.map_flatMap]
          exact plays_forEach (fun j _ => plays_encodeArray p.2 _) w w' hw h

/-- The columns of a batch. -/
theorem plays_writeColumns (b : RecordBatch) : Plays env parts es
    ((batchSends es parts.customEncunitLen b).map .send)
      (Act.forEach (writeColumn env b.numRows) b.columns.zipIdx) := by
  rw [batchSends, List.map_flatMap]
  exact plays_forEach fun p _ => plays_writeColumn b.numRows p

/-- The columns of field `i`. -/
def fieldColumns (es : List LogicalColEncoder) (i : Nat) : List Nat :=
  match es[i]? with
  | some e => e.columns
  | none => []

theorem flatMap_fieldColumns (es : List LogicalColEncoder) :
    (List.range es.length).flatMap (fieldColumns es) = LogicalColEncoder.columnsOf es := by
  induction es with
  | nil => rfl
  | cons e es ih =>
      rw [List.length_cons, List.range_succ_eq_map, List.flatMap_cons, List.flatMap_map,
        LogicalColEncoder.columnsOf, ← ih]
      rfl

/-- A field is finished and its chunks are flushed. Its dictionary may be submitted. -/
theorem ran_finishField {i : Nat} (halike : List.Forall₂ LogicalColEncoder.Alike es w.columnEncoders)
    (h : Act.Returns (callEncoder i (fun e => e.finish env) >>= flushChunks env) w () w') :
    Ran env ((fieldColumns es i).map .finish) w w' ∧
      List.Forall₂ LogicalColEncoder.Alike es w'.columnEncoders := by
  obtain ⟨hran, halike'⟩ := ran_callAndFlush ((fieldColumns es i).map .finish)
    (fun e s res t he hrun => by
      have htraces := e.finish_traces (j := i) s hrun
      obtain ⟨hlt, rfl⟩ := List.getElem?_eq_some_iff.1 he
      have hlt' : i < es.length := halike.length_eq ▸ hlt
      have hsame := halike.get hlt' hlt
      have hcolumns : (w.columnEncoders[i]).columns = fieldColumns es i := by
        rw [fieldColumns, List.getElem?_eq_getElem hlt']
        exact hsame.columns
      rw [hcolumns] at htraces
      exact ⟨htraces, (w.columnEncoders[i]).finish_alike hrun⟩) halike h
  rw [essential_finish] at hran
  exact ⟨hran, halike'⟩

/-- All fields are finished. -/
theorem ran_flushPendingChunks
    (halike : List.Forall₂ LogicalColEncoder.Alike es w.columnEncoders)
    (h : Act.Returns (flushPendingChunks env) w () w') :
    Ran env ((LogicalColEncoder.columnsOf es).map .finish) w w' ∧
      List.Forall₂ LogicalColEncoder.Alike es w'.columnEncoders := by
  obtain ⟨v, w₀, hget, h⟩ := (Act.returns_bind _ _ _ _ _).1 h
  obtain ⟨rfl, rfl⟩ := (Act.returns_get _ _ _).1 hget
  have hloop := Act.forEach_invariant _
    (fun (is : List Nat) u => Ran env ((is.flatMap (fieldColumns es)).map .finish) w u ∧
      List.Forall₂ LogicalColEncoder.Alike es u.columnEncoders)
    _ [] w w' () (fun is i u u' hu hr _ => by
      obtain ⟨hran, halike'⟩ := ran_finishField hu.2 hr
      refine ⟨?_, halike'⟩
      rw [List.flatMap_append, List.flatMap_singleton, List.map_append]
      exact hu.1.trans hran) ⟨ran_refl w, halike⟩ h
  rw [List.nil_append, ← halike.length_eq, flatMap_fieldColumns] at hloop
  exact hloop

theorem plays_flushPendingChunks : Plays env parts es
    ((LogicalColEncoder.columnsOf es).map .finish) (flushPendingChunks env) := by
  intro w w' hw h
  obtain ⟨-, hunmerged⟩ := goes_flushPendingChunks w () w' hw.unmerged h
  obtain ⟨hran, halike⟩ := ran_flushPendingChunks hw.alike h
  exact ⟨hran, fixed_of_keeps (keeps_flushPendingChunks env) h hw.fixed, hunmerged, halike⟩

/-- A step on the write state that does one action. -/
theorem plays_onState {f : FileWriteState → FileWriteState} {action : Action}
    (hdoes : ∀ (ls : List Leaf) (s : FileWriteState) (ctx : SharedDictionaryContext),
      Does env ⟨ls, [], s, ctx⟩ action ⟨ls, [], f s, ctx⟩)
    (hcolumns : ∀ s, (f s).numPhysicalColumns = s.numPhysicalColumns)
    (hessential : essential [action] = [action]) :
    Plays env parts es [action] (onState fun s => .ok (f s)) := by
  intro w w' hw h
  have hkeeps : Act.Keeps settings (onState fun s => .ok (f s)) :=
    keeps_onState fun s t hst => by
      cases hst
      exact hcolumns s
  have hfixed := fixed_of_keeps hkeeps h hw.fixed
  obtain rfl := returns_onState_ok h
  exact ⟨⟨[action], .single (hdoes w.leaves w.state w.sharedDictionaryContext), hessential⟩, hfixed,
    ⟨hw.unmerged.unsubmitted, hw.unmerged.mergeResult⟩, hw.alike⟩

theorem plays_addRows (n : Nat) :
    Plays env parts es [.addRows n] (onState fun s => .ok (s.addRows n)) :=
  plays_onState (fun _ _ _ => .addRows n) (fun _ => rfl) rfl

theorem plays_finishRowGroup :
    Plays env parts es [.finishRowGroup] (onState fun s => .ok s.finishRowGroup) :=
  plays_onState (fun _ _ _ => .finishRowGroup) (fun _ => rfl) rfl

/-- The actions that close a row group. -/
def closeActions (es : List LogicalColEncoder) : List Action :=
  (LogicalColEncoder.columnsOf es).map .finish ++ [.finishRowGroup]

/-- The actions for a batch, without those that close a row group. -/
def batchActions (es : List LogicalColEncoder) (lens : List (Nat × Nat)) (b : RecordBatch) :
    List Action :=
  (batchSends es lens b).map .send ++ [.addRows b.numRows]

/-- **One batch.** The row group is closed if it has become large enough. -/
theorem ran_writeBatch {b : RecordBatch} (hw : Running parts es w)
    (h : Act.Returns (writeBatch env b) w () w') : ∃ w₁,
      Ran env (batchActions es parts.customEncunitLen b) w w₁ ∧ Running parts es w' ∧
        if parts.rowGroupSize ≤ w₁.state.numRowsInCurRowGroup then
          Ran env (closeActions es) w₁ w' else w' = w₁ := by
  obtain ⟨_, w₀, hcolumns, h⟩ := (Act.returns_bind _ _ _ _ _).1 h
  obtain ⟨_, w₁, hrows, h⟩ := (Act.returns_bind _ _ _ _ _).1 h
  obtain ⟨v, w₂, hget, h⟩ := (Act.returns_bind _ _ _ _ _).1 h
  obtain ⟨rfl, rfl⟩ := (Act.returns_get _ _ _).1 hget
  obtain ⟨hran₀, hw₀⟩ := plays_writeColumns b w w₀ hw hcolumns
  obtain ⟨hran₁, hw₁⟩ := plays_addRows b.numRows w₀ w₁ hw₀ hrows
  have hsize : w₁.rowGroupSize = parts.rowGroupSize := congrArg Fixed.rowGroupSize hw₁.fixed
  rw [hsize] at h
  refine ⟨w₁, hran₀.trans hran₁, ?_⟩
  by_cases hfull : parts.rowGroupSize ≤ w₁.state.numRowsInCurRowGroup
  · rw [if_pos hfull] at h
    obtain ⟨hran, hw'⟩ := plays_bind plays_flushPendingChunks plays_finishRowGroup w₁ w' hw₁ h
    rw [if_pos hfull]
    exact ⟨hw', hran⟩
  · rw [if_neg hfull] at h
    obtain ⟨-, rfl⟩ := (Act.returns_pure _ _ _ _).1 h
    rw [if_neg hfull]
    exact ⟨hw₁, rfl⟩

/-! ## The end of a run -/

/-- The fields submit their values one after the other, each of them once. -/
theorem ran_submitAll : ∀ (xs : List Nat) {w w' : FileWriter}, xs.Nodup →
    (∀ i ∈ xs, ∀ e, w.columnEncoders[i]? = some e → Unsubmitted (e.leaves i)) →
    List.Forall₂ LogicalColEncoder.Alike es w.columnEncoders →
    Act.Returns (Act.forEach submitDict xs) w () w' →
      (∃ n, Ran env (List.replicate n .submitDict) w w') ∧
        List.Forall₂ LogicalColEncoder.Alike es w'.columnEncoders
  | [], w, w', _, _, halike, h => by
      have hw := (Act.returns_forEach_nil _ _ _ _).1 h
      subst hw
      exact ⟨⟨0, ran_refl w⟩, halike⟩
  | i :: xs, w, w', hnodup, hu, halike, h => by
      obtain ⟨hi, hxs⟩ := List.nodup_cons.1 hnodup
      obtain ⟨w₁, hfirst, hrest⟩ := (Act.returns_forEach_cons _ _ _ _ _ _).1 h
      obtain ⟨e, t, he, hrun, rfl⟩ := returns_submitDict hfirst
      obtain ⟨⟨n, htraces⟩, hsame⟩ := @LogicalColEncoder.submitDict_traces env _ e
        ⟨(), .default, w.sharedDictionaryContext, w.rng⟩ _ _ (hu i List.mem_cons_self e he) hrun
      obtain ⟨pre, post, hall, hset⟩ := fieldLeaves_split w.columnEncoders 0 i he
      rw [Nat.zero_add] at hall hset
      have hpath := htraces pre post [] w.state
      rw [← hall, ← hset] at hpath
      -- the other fields are as they were
      obtain ⟨⟨m, hran⟩, halike'⟩ := ran_submitAll xs hxs
        (fun k hk e' he' => hu k (List.mem_cons_of_mem _ hk) e' (by
          have hne : i ≠ k := fun hik => hi (hik ▸ hk)
          rwa [List.getElem?_set_ne hne] at he')) (alike_set halike he hsame) hrest
      have hhere : Ran env (List.replicate n .submitDict) w { w with
          columnEncoders := w.columnEncoders.set i t.enc
          sharedDictionaryContext := t.ctx } :=
        ⟨List.replicate n .submitDict, hpath, essential_submitDict n⟩
      exact ⟨⟨n + m, by rw [List.replicate_add]; exact hhere.trans hran⟩, halike'⟩

/-- Submitting and merging, if the dictionaries are shared across columns. -/
theorem ran_submitAndMerge (hw : Running parts es w)
    (h : Act.Returns (submitAndMerge env) w () w') : ∃ actions, Ran env actions w w' ∧
      (∀ a ∈ actions, a = .submitDict ∨ a = .mergeDicts) ∧
        List.Forall₂ LogicalColEncoder.Alike es w'.columnEncoders := by
  obtain ⟨v, w₁, hget, hrest⟩ := (Act.returns_bind _ _ _ _ _).1 h
  obtain ⟨rfl, rfl⟩ := (Act.returns_get _ _ _).1 hget
  split at hrest
  · obtain ⟨_, w₁, hsubmit, hrest⟩ := (Act.returns_bind _ _ _ _ _).1 hrest
    obtain ⟨v, w₂, hget, hrest⟩ := (Act.returns_bind _ _ _ _ _).1 hrest
    obtain ⟨rfl, rfl⟩ := (Act.returns_get _ _ _).1 hget
    obtain ⟨ctx, w₂, hlift, hset⟩ := (Act.returns_bind _ _ _ _ _).1 hrest
    obtain ⟨hmerge, rfl⟩ := (Act.returns_lift _ _ _ _).1 hlift
    have hw' := (Act.returns_set _ _ _ _).1 hset
    have hunsubmitted := fun (i : Nat) (_ : i ∈ List.range w.columnEncoders.length)
      (e : LogicalColEncoder) (he : w.columnEncoders[i]? = some e) =>
        unsubmitted_field hw.unmerged.unsubmitted he
    obtain ⟨-, hm⟩ := @steps_submitAll env _ _ _ List.nodup_range hunsubmitted
      hw.unmerged.mergeResult hsubmit
    obtain ⟨⟨n, hran⟩, halike⟩ := @ran_submitAll env _ _ _ _ List.nodup_range hunsubmitted
      hw.alike hsubmit
    have hmerged : Ran env [.mergeDicts] w₁ { w₁ with sharedDictionaryContext := ctx } :=
      ⟨[.mergeDicts], .single (.mergeDicts hm hmerge), rfl⟩
    subst hw'
    refine ⟨List.replicate n .submitDict ++ [.mergeDicts], hran.trans hmerged, fun a ha => ?_,
      halike⟩
    rcases List.mem_append.1 ha with ha | ha
    · exact .inl (List.eq_of_mem_replicate ha)
    · exact .inr (List.mem_singleton.1 ha)
  · obtain ⟨-, rfl⟩ := (Act.returns_pure _ _ _ _).1 hrest
    exact ⟨[], ran_refl w, List.forall_mem_nil _, hw.alike⟩

/-- **The row groups of `finish`.** -/
theorem ran_finishRowGroups (hw : Running parts es w)
    (h : Act.Returns (finishRowGroups env) w () w') : ∃ actions w₁,
      (∀ a ∈ actions, a = .submitDict ∨ a = .mergeDicts) ∧ Ran env actions w w₁ ∧
        Ran env (closeActions es) w₁ w' := by
  obtain ⟨_, w₁, hsubmit, hrest⟩ := (Act.returns_bind _ _ _ _ _).1 h
  obtain ⟨_, w₂, hflush, hfinish⟩ := (Act.returns_bind _ _ _ _ _).1 hrest
  obtain ⟨actions, hran, hactions, halike⟩ := ran_submitAndMerge hw hsubmit
  obtain ⟨hran', -⟩ := ran_flushPendingChunks halike hflush
  obtain rfl := returns_onState_ok hfinish
  refine ⟨actions, w₁, hactions, hran, hran'.trans ?_⟩
  exact ⟨[.finishRowGroup], .single .finishRowGroup, rfl⟩

/-- A new writer is running, with its own encoders. -/
theorem running_tryNew {schema : List Field} {options : FileWriterOptions}
    (h : tryNew env schema options = .ok w) : Running w.fixed w.columnEncoders w where
  fixed := rfl
  unmerged := unmerged_tryNew h
  alike := List.forall₂_same.2 fun _ _ => ⟨fun _ => rfl, rfl⟩

end FileWriter

end F3Format
