import F3Format.CustomUnitLengths

/-!
# The round trip of flat files

Without custom unit lengths every array of a batch is one unit, so that the
arrays of a column are those of the batches, however the calls cut them into
chunks and row groups. `flat_round_trip` reads the whole file.
-/

set_option autoImplicit false

namespace F3Format

open Lib FileWriter FileReaderV2Builder

/-! ## Batches in units of their own -/

section

variable {schema : List Field} {bs qs : List RecordBatch}

/-- `q` has the rows of `b`, column by column. -/
structure RecordBatch.ReadAs (b q : RecordBatch) : Prop where
  numRows : q.numRows = b.numRows
  rows : b.SameRows q

theorem cutAlike_nil (b : RecordBatch) (n : Nat) : b.CutAlike [] n := fun _ _ => rfl

theorem flatMap_unitLengths_nil (bs : List RecordBatch) :
    (bs.flatMap fun b => unitLengths [] b.numRows 0) = bs.map RecordBatch.numRows :=
  List.map_eq_flatMap.symm

theorem RecordBatch.Matches.arraysOf_nil {b : RecordBatch} (h : b.Matches schema) {i : Nat}
    (hi : i < schema.length) : (b.arraysOf [] i).map some = [b.columns[i]?] := by
  have hcolumn := List.getElem?_eq_getElem (l := b.columns) (h.length_columns ▸ hi)
  rw [RecordBatch.arraysOf, hcolumn]
  rfl

/-- The column of the batches. -/
theorem encodedColumn_nil {i : Nat} (hi : i < schema.length) :
    ∀ {bs : List RecordBatch}, (∀ b ∈ bs, b.Matches schema) →
      (encodedColumn [] bs i).map some = bs.map fun b => b.columns[i]?
  | [], _ => rfl
  | b :: bs, hmatch => by
      obtain ⟨hb, hbs⟩ := List.forall_mem_cons.1 hmatch
      rw [encodedColumn, List.flatMap_cons, List.map_append, hb.arraysOf_nil hi, List.map_cons,
        ← encodedColumn_nil hi hbs]
      rfl

/-- The batches that are read have the columns of the batches, array by array. -/
theorem Assembled.getElem? (h : Assembled schema (encodedColumn [] bs)
      (bs.flatMap fun b => unitLengths [] b.numRows 0) qs)
    (hmatch : ∀ b ∈ bs, b.Matches schema) {i : Nat} (hi : i < schema.length) :
    (qs.map fun q => q.columns[i]?) = bs.map fun b => (b.columns[i]?).map ArrayRef.toView := by
  have hcolumn := congrArg (List.map (Option.map ArrayRef.toView)) (encodedColumn_nil hi hmatch)
  rw [List.map_map, List.map_map] at hcolumn
  rw [h.columns i hi, List.map_map]
  exact hcolumn

theorem Assembled.sameRows (h : Assembled schema (encodedColumn [] bs)
      (bs.flatMap fun b => unitLengths [] b.numRows 0) qs)
    (hmatch : ∀ b ∈ bs, b.Matches schema) : List.Forall₂ RecordBatch.ReadAs bs qs := by
  have hnumRows := h.numRows
  rw [flatMap_unitLengths_nil] at hnumRows
  have hlen : bs.length = qs.length := by
    have hlengths := congrArg List.length hnumRows
    rwa [List.length_map, List.length_map, eq_comm] at hlengths
  refine List.forall₂_iff_get.2 ⟨hlen, fun k hb hq => ?_⟩
  show (bs[k]).ReadAs (qs[k])
  have hmatches := hmatch _ (List.getElem_mem hb)
  have hwidth : (qs[k]).columns.length = schema.length := by
    have htypes := congrArg List.length (qs[k]).dataType_columns
    rwa [List.length_map, List.length_map, h.fields _ (List.getElem_mem hq),
      List.length_map] at htypes
  constructor
  · have hk := congrArg (fun ns => ns[k]?) hnumRows
    simpa [List.getElem?_map, List.getElem?_eq_getElem hb, List.getElem?_eq_getElem hq] using hk
  · apply List.ext_getElem?
    intro i
    -- the columns are compared one by one; beyond the schema there are none
    rw [List.getElem?_map, List.getElem?_map]
    by_cases hi : i < schema.length
    · have hk := congrArg (fun cs => cs[k]?) (h.getElem? hmatch hi)
      simp only [List.getElem?_map, List.getElem?_eq_getElem hb, List.getElem?_eq_getElem hq,
        Option.map_some, Option.some.injEq] at hk
      rw [hk, Option.map_map]
      congr 1
      funext a
      exact (ArrayRef.rows_toView a).symm
    · have hb' : (bs[k]).columns.length ≤ i := by
        rw [hmatches.length_columns]
        omega
      rw [List.getElem?_eq_none hb', List.getElem?_eq_none (by omega)]

end

/-! ## The whole file -/

/-- **Flat round trip.** A finished run of a flat schema, without custom unit lengths
and without dictionaries in its file, whose sizes fit: the file is read, and gives
one batch for each written batch, in their order and with their rows. -/
theorem flat_round_trip {env : Env} {schema : List Field} {options : FileWriterOptions}
    {cs : List Call} {w : FileWriter} (laws : env.SerializationLaws)
    (hfin : Finishes env schema options cs w) (hfits : w.Fits) (hne : schema ≠ [])
    (hflat : flatSchema schema = true) (hplain : options.dictionaryType.isPlain = true)
    (hlens : options.customEncunitLen = []) (hcodec : CodecRoundTrips env schema options cs w)
    (hmatch : ∀ b ∈ batches cs, b.Matches schema) :
    ∃ qs, readProjected env w .all = .ok qs ∧
      List.Forall₂ RecordBatch.ReadAs (batches cs) qs := by
  obtain ⟨w₁, sec, p, hrun⟩ := finishes_iff.1 hfin
  have h : FlatRun env schema options cs w w₁ sec p :=
    ⟨hrun, hfits, hflat, hplain, hcodec w₁ sec p hrun, hmatch⟩
  have hcut : ∀ b ∈ batches cs, b.CutAlike options.customEncunitLen schema.length := by
    rw [hlens]
    exact fun b _ => cutAlike_nil b schema.length
  obtain ⟨qs, hread, hassembled⟩ := h.read_all hne hcut laws
  rw [hlens] at hassembled
  exact ⟨qs, hread, hassembled.sameRows hmatch⟩

namespace Sample

theorem flatFits : FileWriter.runFits env cutSchema .default
    [.writeBatch cutBatch, .flushPendingChunks, .writeBatch cutBatch] = true := by
  decide +kernel

end Sample

/-- Two batches with a flush between them. -/
theorem flat_round_trip_sample : ∃ w qs,
    Finishes Sample.env Sample.cutSchema .default
      [.writeBatch Sample.cutBatch, .flushPendingChunks, .writeBatch Sample.cutBatch] w ∧
    readProjected Sample.env w .all = .ok qs ∧
      List.Forall₂ RecordBatch.ReadAs [Sample.cutBatch, Sample.cutBatch] qs := by
  obtain ⟨w, hfin, hfits⟩ := exists_of_runFits Sample.flatFits
  have hmatch : ∀ b ∈ [Sample.cutBatch, Sample.cutBatch], b.Matches Sample.cutSchema := by
    intro b hb
    rw [List.eq_of_mem_replicate (n := 2) hb]
    rfl
  obtain ⟨qs, hqs⟩ := flat_round_trip Sample.serializationLaws hfin hfits (List.cons_ne_nil _ _) rfl
    rfl rfl (codecRoundTrips_native Sample.roundTrips Sample.compressionLaws rfl Sample.cutSchema
      _ w) hmatch
  exact ⟨w, qs, hfin, hqs⟩

end F3Format
