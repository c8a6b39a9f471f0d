import F3Format.BuilderRoutes
import F3Format.EncoderRuns

/-!
# Batches that fail

`write_batch` encodes the columns one after another into encoders that keep
what they are given. A failing call leaves the writer as it was when it fails in
the first column before the encoder takes the array (`RefusesFirst`). In a run
whose failing calls are all of this kind the failed batches leave no trace
(`failed_batches_leave_no_trace`); a failure in a later column leaves the arrays
of the columns before it.
-/

set_option autoImplicit false

namespace F3Format

open Lib

/-! ## Encoders that refuse an array -/

namespace SharedDictColEncoder

/-- Nothing is buffered and no dictionary is chosen. -/
structure Idle (e : SharedDictColEncoder) : Prop where
  bufferedArrays : e.bufferedArrays = []
  bufferedArrayLen : e.bufferedArrayLen = 0
  bufferedArrayMemSize : e.bufferedArrayMemSize = 0
  submittedDictIdx : e.submittedDictIdx = none

end SharedDictColEncoder

/-- The first buffered array is of another type. -/
def otherType (buffered : List ArrayRef) (array : ArrayRef) : Prop :=
  buffered.head?.any (fun a => decide (a.dataType ≠ array.dataType)) = true

namespace PhysicalColEncoder

/-- The encoder fails on the array before it changes anything. -/
def Refuses (env : Env) (array : ArrayRef) : PhysicalColEncoder → Prop
  | encoderDict e => ∃ f, encodeEncUnit env e.wasmContext e.enableDict e.compressionType
      e.compressionType array.dataType array = .error f
  | dict e => ∃ f, DictColEncoder.units env e.wasmContext e.compressionType array = .error f
  | sharedDict e => otherType e.bufferedArrays array ∨
      -- the array fills a scope on its own, and its type has no dictionary
      e.Idle ∧ e.fixedDictScope ≤ array.len ∧ ∃ f, Dictionary.tryNew array.dataType = .error f
  | glBest e => otherType e.bufferedArrays array

section

variable {env : Env} {array : ArrayRef}

/-- A failure of the wrapped encoder that changes nothing changes nothing. -/
theorem delegate_error {E F α : Type} {wrap : E → F} {e : E} {x : EncAct E α} {f : Fault}
    {s : Working F} (hx : x ⟨e, s.counter, s.ctx, s.rng⟩ = .error f ⟨e, s.counter, s.ctx, s.rng⟩)
    (hs : s.enc = wrap e) : delegate wrap e x s = .error f s := by
  obtain ⟨enc, counter, ctx, rng⟩ := s
  have henc : enc = wrap e := hs
  subst henc
  simp only [delegate, Act.zoom, hx, Working.embed]

theorem sharedDict_refuses {e : SharedDictColEncoder} {s : Working SharedDictColEncoder}
    (hs : s.enc = e) (h : (sharedDict e).Refuses env array) :
    ∃ f, SharedDictColEncoder.encode env array s = .error f s := by
  obtain ⟨enc, counter, ctx, rng⟩ := s
  have henc : enc = e := hs
  subst henc
  rcases h with htype | ⟨hidle, hscope, f, hnew⟩
  · refine ⟨.err (.general "Datatypes of arrays do not match"), ?_⟩
    rw [SharedDictColEncoder.encode, Act.get_bind]
    exact congrFun (if_pos htype) _
  · obtain ⟨fixedDictScope, arrays, len, memSize, columnChunkSize, w, submitted, c⟩ := enc
    obtain ⟨rfl, rfl, rfl, rfl⟩ := hidle
    have hfull : 0 + array.len ≥ fixedDictScope := by
      have hlen : fixedDictScope ≤ array.len := hscope
      omega
    have hctx : ctx.newDictionary array.dataType = .error f := by
      rw [SharedDictionaryContext.newDictionary, hnew, error_bind]
    have hfirst : SharedDictColEncoder.scopeDictIdx
        ⟨fixedDictScope, [array], 0 + array.len, 0 + env.arrayMemorySize array, columnChunkSize, w,
          none, c⟩ ⟨⟨fixedDictScope, [], 0, 0, columnChunkSize, w, none, c⟩, counter, ctx, rng⟩ =
        .error f ⟨⟨fixedDictScope, [], 0, 0, columnChunkSize, w, none, c⟩, counter, ctx, rng⟩ := by
      show SharedDictColEncoder.newDictionary array.dataType _ = _
      rw [SharedDictColEncoder.newDictionary, Act.get_bind, hctx]
      rfl
    -- the scope is taken and given up again
    have htaken : SharedDictColEncoder.encodeDictScope env
        ⟨⟨fixedDictScope, [array], 0 + array.len, 0 + env.arrayMemorySize array, columnChunkSize, w,
          none, c⟩, counter, ctx, rng⟩ =
        .error f ⟨⟨fixedDictScope, [], 0, 0, columnChunkSize, w, none, c⟩, counter, ctx, rng⟩ := by
      rw [SharedDictColEncoder.encodeDictScope, Act.get_bind, Act.set_bind]
      exact Act.bind_of_error _ hfirst
    refine ⟨f, ?_⟩
    rw [SharedDictColEncoder.encode, Act.get_bind]
    show (if 0 + array.len ≥ fixedDictScope then SharedDictColEncoder.encodeDictScope env
      else pure []) _ = _
    rw [if_pos hfull]
    exact htaken

theorem glBest_refuses {e : GLBestEncoder} {s : Working GLBestEncoder} (hs : s.enc = e)
    (h : (glBest e).Refuses env array) : ∃ f, GLBestEncoder.encode env array s = .error f s := by
  subst hs
  refine ⟨.err (.general "Datatypes of arrays do not match"), ?_⟩
  have htype : otherType s.enc.bufferedArrays array := h
  rw [GLBestEncoder.encode, Act.get_bind]
  exact congrFun (if_pos htype) s

/-- An array that is refused leaves everything as it was. -/
theorem encode_of_refuses {p : PhysicalColEncoder} (h : p.Refuses env array)
    {s : Working PhysicalColEncoder} (hs : s.enc = p) :
    ∃ f, PhysicalColEncoder.encode env array s = .error f s := by
  obtain ⟨enc, counter, ctx, rng⟩ := s
  have henc : enc = p := hs
  subst henc
  cases enc with
  | encoderDict e =>
      obtain ⟨f, hf⟩ := h
      refine ⟨f, ?_⟩
      show delegate encoderDict e (EncoderDictColEncoder.encode env array) _ = _
      refine delegate_error ?_ rfl
      rw [EncoderDictColEncoder.encode_run]
      simp only [hf]
  | dict e =>
      obtain ⟨f, hf⟩ := h
      refine ⟨f, ?_⟩
      show delegate dict e (DictColEncoder.encode env array) _ = _
      refine delegate_error ?_ rfl
      rw [DictColEncoder.encode_run]
      simp only [hf]
  | sharedDict e =>
      obtain ⟨f, hf⟩ := sharedDict_refuses (s := ⟨e, counter, ctx, rng⟩) rfl h
      refine ⟨f, ?_⟩
      show delegate sharedDict e (SharedDictColEncoder.encode env array) _ = _
      exact delegate_error hf rfl
  | glBest e =>
      obtain ⟨f, hf⟩ := glBest_refuses (s := ⟨e, counter, ctx, rng⟩) rfl h
      refine ⟨f, ?_⟩
      show delegate glBest e (GLBestEncoder.encode env array) _ = _
      exact delegate_error hf rfl

end

end PhysicalColEncoder

/-! ## Calls that are refused -/

theorem set_of_getElem? {α : Type} {xs : List α} {i : Nat} {x : α} (h : xs[i]? = some x) :
    xs.set i x = xs := by
  obtain ⟨hi, rfl⟩ := List.getElem?_eq_some_iff.1 h
  exact List.set_getElem_self hi

namespace FileWriter

/-- The array `write_batch` first hands to the encoder of column `0`, unless the
batch is shorter than the column's unit. -/
def firstArray (w : FileWriter) (numRows : Nat) (column : ArrayRef) : Option ArrayRef :=
  match w.customEncunitLen.lookup 0 with
  | none => some column
  | some encunitLen =>
      if numRows < encunitLen then none else some (column.slice 0 (min encunitLen column.len))

/-- `write_batch` fails in the first column, before its encoder takes anything. -/
def RefusesFirst (env : Env) (w : FileWriter) (batch : RecordBatch) : Prop :=
  ∃ column rest, batch.columns = column :: rest ∧
    ∀ array, w.firstArray batch.numRows column = some array →
      ∃ p i, w.columnEncoders.head? = some (.flat p i) ∧ p.Refuses env array

section

variable {env : Env} {w : FileWriter}

theorem callEncoder_refuses {array : ArrayRef} {p : PhysicalColEncoder} {i : Nat}
    (hp : w.columnEncoders.head? = some (.flat p i)) (h : p.Refuses env array) :
    ∃ f, callEncoder 0 (fun e => e.encode env array) w = .error f w := by
  rw [List.head?_eq_getElem?] at hp
  cases hc : w.state.columnCounters[0]? with
  | none => exact ⟨.panic "index out of bounds", by simp only [callEncoder, hp, hc]⟩
  | some c =>
      obtain ⟨f, hf⟩ := PhysicalColEncoder.encode_of_refuses h
        (s := ⟨p, c, w.sharedDictionaryContext, w.rng⟩) rfl
      have hput : w.putBack 0 ⟨.flat p i, c, w.sharedDictionaryContext, w.rng⟩ = w := by
        have he : w.columnEncoders.set 0 (.flat p i) = w.columnEncoders :=
          set_of_getElem? hp
        have hcs : w.state.columnCounters.set 0 c = w.state.columnCounters :=
          set_of_getElem? hc
        simp only [putBack, he, hcs]
      refine ⟨f, ?_⟩
      simp only [callEncoder, hp, hc, LogicalColEncoder.encode, callPhysical, hf, Working.embed]
      exact congrArg _ hput

theorem encodeArray_refuses {array : ArrayRef} {p : PhysicalColEncoder} {i : Nat}
    (hp : w.columnEncoders.head? = some (.flat p i)) (h : p.Refuses env array) :
    ∃ f, encodeArray env 0 array w = .error f w := by
  obtain ⟨f, hf⟩ := callEncoder_refuses hp h
  exact ⟨f, Act.bind_of_error _ hf⟩

theorem forEach_error {α σ : Type} {f : α → Act Fault σ Unit} {x : α} {xs : List α} {s t : σ}
    {e : Fault} (h : f x s = .error e t) : Act.forEach f (x :: xs) s = .error e t :=
  Act.bind_of_error _ h

/-- A refused column leaves the writer as it was. -/
theorem writeColumn_refuses {numRows : Nat} {column : ArrayRef}
    (h : ∀ array, w.firstArray numRows column = some array →
      ∃ p i, w.columnEncoders.head? = some (.flat p i) ∧ p.Refuses env array) :
    ∃ f, writeColumn env numRows (column, 0) w = .error f w := by
  rw [writeColumn, Act.get_bind]
  cases hlen : w.customEncunitLen.lookup 0 with
  | none =>
      have hfirst : w.firstArray numRows column = some column := by
        simp only [firstArray, hlen]
      obtain ⟨p, i, hp, hrefuses⟩ := h column hfirst
      exact encodeArray_refuses hp hrefuses
  | some encunitLen =>
      by_cases hshort : numRows < encunitLen
      · refine ⟨.err (.nyi "Batch size should be larger than the custom encunit size"), ?_⟩
        simp only [if_pos hshort]
        rfl
      by_cases hzero : encunitLen = 0
      · refine ⟨.panic "attempt to divide by zero", ?_⟩
        simp only [if_neg hshort, if_pos hzero]
        rfl
      · -- the first unit of the column is the one that is refused
        have hfirst : w.firstArray numRows column =
            some (column.slice 0 (min encunitLen column.len)) := by
          simp only [firstArray, hlen, if_neg hshort]
        obtain ⟨p, i, hp, hrefuses⟩ := h _ hfirst
        obtain ⟨f, hf⟩ := encodeArray_refuses hp hrefuses
        obtain ⟨n, hn⟩ : ∃ n, numRows / encunitLen = n + 1 :=
          Nat.exists_eq_succ_of_ne_zero
            (Nat.pos_iff_ne_zero.1 (Nat.div_pos (Nat.not_lt.1 hshort) (Nat.pos_of_ne_zero hzero)))
        refine ⟨f, ?_⟩
        simp only [if_neg hshort, if_neg hzero, hn, List.range_succ_eq_map]
        apply forEach_error
        simpa using hf

/-- A batch refused in its first column leaves the writer as it was. -/
theorem writeBatch_refuses {batch : RecordBatch} (h : w.RefusesFirst env batch) :
    ∃ f, writeBatch env batch w = .error f w := by
  obtain ⟨column, rest, hcolumns, hrefuses⟩ := h
  obtain ⟨f, hf⟩ := writeColumn_refuses hrefuses
  refine ⟨f, Act.bind_of_error _ ?_⟩
  rw [hcolumns]
  exact forEach_error hf

end

/-! ## Runs with failing calls -/

/-- The batches whose `write_batch` returns `Ok`, when they are written one after
another whatever the calls return. -/
def accepted (env : Env) : List RecordBatch → FileWriter → List RecordBatch
  | [], _ => []
  | b :: bs, w =>
      match writeBatch env b w with
      | .ok _ t => b :: accepted env bs t
      | .error _ t => accepted env bs t

/-- Every call that fails is refused in its first column. -/
def RefusedFirst (env : Env) : List RecordBatch → FileWriter → Prop
  | [], _ => True
  | b :: bs, w =>
      (∀ f t, writeBatch env b w = .error f t → w.RefusesFirst env b) ∧
        RefusedFirst env bs (Act.left (writeBatch env b w))

/-- `finish`, then what a reader with the settings of `b` reads. -/
def readBack (env : Env) (b : FileReaderV2Builder) (w : FileWriter) :
    Result (List RecordBatch) := do
  let _ ← Act.outcome (finish env w)
  let r ← ({ b with reader := (Act.left (finish env w)).file }).build env
  r.readFile env

/-- The file reads back as if the failed batches had never been submitted. -/
def LeavesNoTrace (env : Env) (schema : List Field) (options : FileWriterOptions)
    (bs : List RecordBatch) : Prop :=
  ∀ w, tryNew env schema options = .ok w → ∀ b,
    readBack env b (Act.trace (writeBatch env) bs w).2 =
      readBack env b (Act.trace (writeBatch env) (accepted env bs w) w).2

/-- Refused calls can be left out of a run. -/
theorem trace_accepted {env : Env} {bs : List RecordBatch} {w : FileWriter}
    (h : RefusedFirst env bs w) :
    (Act.trace (writeBatch env) (accepted env bs w) w).2 =
      (Act.trace (writeBatch env) bs w).2 := by
  induction bs generalizing w with
  | nil => rfl
  | cons b bs ih =>
      obtain ⟨hrefused, hrest⟩ := h
      cases hb : writeBatch env b w with
      | ok u t =>
          rw [hb] at hrest
          have hstate := ih hrest
          simp only [accepted, hb, Act.trace, Act.left]
          exact hstate
      | error f t =>
          obtain ⟨f', hf'⟩ := writeBatch_refuses (hrefused f t hb)
          rw [hb, EStateM.Result.error.injEq] at hf'
          obtain ⟨-, rfl⟩ := hf'
          rw [hb] at hrest
          have hstate := ih hrest
          simp only [accepted, hb, Act.trace, Act.left]
          exact hstate

end FileWriter

/-- **Batches refused in their first column leave no trace.** -/
theorem failed_batches_leave_no_trace {env : Env} {schema : List Field}
    {options : FileWriterOptions} {bs : List RecordBatch}
    (h : ∀ w, FileWriter.tryNew env schema options = .ok w → FileWriter.RefusedFirst env bs w) :
    FileWriter.LeavesNoTrace env schema options bs := by
  intro w hw b
  rw [FileWriter.trace_accepted (h w hw)]

/-! ## A refused batch, and one that fails later -/

namespace Sample

/-- The default options with units of two rows in one column. -/
def unitsOfTwo (column : Nat) : FileWriterOptions :=
  { FileWriterOptions.default with customEncunitLen := [(column, 2)] }

/-- A schema of two integer columns. -/
def pairSchema : List Field := [.mk "a" (.prim .int32) true, .mk "b" (.prim .int32) true]

/-- A batch of one row, too short for a unit. -/
def shortBatch : RecordBatch := ⟨pairSchema, [seven, seven], 1, by decide⟩

/-- An array of two numbers. -/
def twoNumbers : ArrayRef := .prim .int32 [some (.int 1), none]

/-- A batch of two rows. -/
def fullBatch : RecordBatch := ⟨pairSchema, [twoNumbers, twoNumbers], 2, by decide⟩

/-- After the refused batch the full one is written. -/
theorem fullBatch_ok : (do
    let w ← FileWriter.tryNew env pairSchema (unitsOfTwo 0)
    Act.outcome (FileWriter.writeBatch env fullBatch
      (Act.left (FileWriter.writeBatch env shortBatch w)))).isOk = true := by
  decide +kernel

theorem refusedFirst {w : FileWriter}
    (h : FileWriter.tryNew env pairSchema (unitsOfTwo 0) = .ok w) :
    FileWriter.RefusedFirst env [shortBatch, fullBatch] w := by
  have hok := fullBatch_ok
  rw [h, ok_bind] at hok
  refine ⟨fun f t _ => ⟨seven, [seven], rfl, fun array harray => ?_⟩, fun f t hfail => ?_, trivial⟩
  · cases h
    cases harray
  · rw [hfail] at hok
    cases hok

end Sample

/-- A batch that is too short for the first column, between nothing and a full one. -/
theorem failed_batches_leave_no_trace_short :
    FileWriter.LeavesNoTrace Sample.env Sample.pairSchema (Sample.unitsOfTwo 0)
      [Sample.shortBatch, Sample.fullBatch] :=
  failed_batches_leave_no_trace fun _ h => Sample.refusedFirst h

/-- A batch that is too short for the second column leaves its first column, and
the file cannot be read. -/
theorem short_second_column_leaves_trace :
    ¬ FileWriter.LeavesNoTrace Sample.env Sample.pairSchema (Sample.unitsOfTwo 1)
      [Sample.shortBatch, Sample.fullBatch] := by
  intro h
  have hsame := congrArg Except.isOk (h _ rfl (.new []))
  revert hsame
  decide +kernel

end F3Format
