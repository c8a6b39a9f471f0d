import F3Format.FlatReading

/-!
# Custom unit lengths

With custom unit lengths, `write_batch` cuts each column of a batch into units of
its own length and drops the rows that do not fill a unit. `readsBack_iff` says
when nothing is lost: all columns of a batch are cut alike, and the length
divides the number of rows.
-/

set_option autoImplicit false

namespace F3Format

open Lib FileWriter FileReaderV2Builder

/-! ## Lengths -/

/-- The rows of a unit of column `i`: the custom length, or all rows of the batch. -/
def unitLength (lens : List (Nat × Nat)) (numRows i : Nat) : Nat :=
  (lens.lookup i).getD numRows

/-- All columns of the batch are cut alike. -/
def RecordBatch.CutAlike (lens : List (Nat × Nat)) (numColumns : Nat) (b : RecordBatch) : Prop :=
  ∀ i < numColumns, unitLength lens b.numRows i = unitLength lens b.numRows 0

section Lengths

variable {lens : List (Nat × Nat)} {n i j : Nat}

theorem sum_unitLengths_le (lens : List (Nat × Nat)) (n i : Nat) :
    (unitLengths lens n i).sum ≤ n := by
  rw [unitLengths]
  cases lens.lookup i with
  | none => exact Nat.le_of_eq (List.sum_singleton)
  | some k =>
      rw [List.sum_replicate_nat]
      exact Nat.div_mul_le_self n k

/-- No row is left over iff the unit length divides the number of rows. -/
theorem sum_unitLengths_eq_iff : (unitLengths lens n i).sum = n ↔ unitLength lens n i ∣ n := by
  rw [unitLengths, unitLength]
  cases lens.lookup i with
  | none => exact iff_of_true List.sum_singleton (Nat.dvd_refl n)
  | some k =>
      rw [List.sum_replicate_nat]
      exact ⟨fun h => Dvd.intro_left _ h, fun h => Nat.div_mul_cancel h⟩

/-- The lengths are determined by the unit length. -/
theorem unitLengths_congr (hi : ∀ k, lens.lookup i = some k → 0 < k ∧ k ≤ n)
    (hj : ∀ k, lens.lookup j = some k → 0 < k ∧ k ≤ n)
    (h : unitLength lens n i = unitLength lens n j) :
    unitLengths lens n i = unitLengths lens n j := by
  -- a single unit may be cut with or without a custom length
  have hself : ∀ k, 0 < k → List.replicate (k / k) k = [k] := by
    intro k hk
    rw [Nat.div_self hk]
    rfl
  rw [unitLength, unitLength] at h
  rw [unitLengths, unitLengths]
  cases hik : lens.lookup i with
  | none =>
      cases hjk : lens.lookup j with
      | none => rfl
      | some k =>
          rw [hik, hjk] at h
          have hk : n = k := h
          subst hk
          exact (hself n (hj n hjk).1).symm
  | some k =>
      cases hjk : lens.lookup j with
      | none =>
          rw [hik, hjk] at h
          have hk : k = n := h
          subst hk
          exact hself k (hi k hik).1
      | some k' =>
          rw [hik, hjk] at h
          have hk : k = k' := h
          subst hk
          rfl

/-- The first length is the unit length. -/
theorem head?_unitLengths (h : ∀ k, lens.lookup i = some k → 0 < k ∧ k ≤ n) :
    (unitLengths lens n i).head? = some (unitLength lens n i) := by
  rw [unitLengths, unitLength]
  cases hk : lens.lookup i with
  | none => rfl
  | some k =>
      obtain ⟨hpos, hle⟩ := h k hk
      have hdiv : n / k ≠ 0 := Nat.ne_of_gt (Nat.div_pos hle hpos)
      show (List.replicate (n / k) k).head? = some k
      rw [List.head?_replicate, if_neg hdiv]

/-- Two columns have the same unit length in every batch if the lengths of one
are the first lengths of the other. -/
theorem unitLength_eq_of_leading : ∀ {ns : List Nat},
    (∀ n ∈ ns, ∀ k, lens.lookup i = some k → 0 < k ∧ k ≤ n) →
      (∀ n ∈ ns, ∀ k, lens.lookup j = some k → 0 < k ∧ k ≤ n) →
        (ns.flatMap fun n => unitLengths lens n j) <+: (ns.flatMap fun n => unitLengths lens n i) →
          ∀ n ∈ ns, unitLength lens n i = unitLength lens n j
  | [], _, _, _, n, hn => nomatch hn
  | m :: ms, hi, hj, h, n, hn => by
      have hmi := hi m (List.mem_cons_self ..)
      have hmj := hj m (List.mem_cons_self ..)
      rw [List.flatMap_cons, List.flatMap_cons] at h
      have hhead : unitLength lens m i = unitLength lens m j := by
        obtain ⟨rest, hrest⟩ := h
        have hfirst := congrArg List.head? hrest
        rw [List.head?_append, List.head?_append, List.head?_append, head?_unitLengths hmi,
          head?_unitLengths hmj] at hfirst
        exact (Option.some.inj hfirst).symm
      rw [unitLengths_congr hmi hmj hhead, List.prefix_append_right_inj] at h
      rcases List.mem_cons.1 hn with rfl | hn
      · exact hhead
      · exact unitLength_eq_of_leading (fun n' hn' => hi n' (List.mem_cons_of_mem _ hn'))
          (fun n' hn' => hj n' (List.mem_cons_of_mem _ hn')) h n hn

end Lengths

/-! ## The arrays that are read -/

/-- The arrays in which column `i` of some batches is encoded. -/
def encodedColumn (lens : List (Nat × Nat)) (bs : List RecordBatch) (i : Nat) : List ArrayRef :=
  bs.flatMap fun b => b.arraysOf lens i

theorem viewed_encodedColumn (lens : List (Nat × Nat)) (bs : List RecordBatch) (n : Nat) :
    viewed n (encodedColumn lens bs) = (List.range n).map (decodedColumn lens bs) := rfl

@[simp] theorem ArrayRef.len_toView (a : ArrayRef) : a.toView.len = a.len := by
  cases a <;> rfl

/-- The first arrays of every column have the lengths of the batches. -/
theorem lengths_of_assembleBatches {schema : List Field} {cols : Nat → List ArrayRef}
    {qs : List RecordBatch} (h : assembleBatches schema (viewed schema.length cols) = .ok qs)
    {i : Nat} (hi : i < schema.length) :
    qs.map RecordBatch.numRows <+: (cols i).map ArrayRef.len ∧ qs.length = (cols 0).length := by
  obtain ⟨first, hfirst, hall⟩ := assembleBatches_eq_ok.1 h
  have hlen : qs.length = first.length := by rw [← hall.length_eq, List.length_range]
  have hpos : 0 < schema.length := Nat.lt_of_le_of_lt (Nat.zero_le i) hi
  have hcol : ∀ j < schema.length,
      (viewed schema.length cols)[j]? = some ((cols j).map ArrayRef.toView) := by
    intro j hj
    rw [viewed, List.getElem?_map, List.getElem?_range hj]
    rfl
  rw [hcol 0 hpos] at hfirst
  cases hfirst
  rw [List.length_map] at hlen
  refine ⟨?_, hlen⟩
  rw [List.prefix_iff_eq_take, List.length_map]
  -- position by position: the batch is as long as each of its columns
  refine List.ext_getElem? fun k => ?_
  cases hk : qs[k]? with
  | none =>
      have hge : qs.length ≤ k := List.getElem?_eq_none_iff.1 hk
      rw [List.getElem?_map, hk, List.getElem?_take_eq_none hge]
      rfl
  | some q =>
      have hklt : k < qs.length := (List.getElem?_eq_some_iff.1 hk).1
      obtain ⟨k', hk', hq⟩ := exists_getElem?_of_forall₂ hall.flip hk
      have hkk : k = k' := by
        rw [List.getElem?_range (by rw [List.length_map, ← hlen]; exact hklt)] at hk'
        exact Option.some.inj hk'
      subst hkk
      obtain ⟨row, hrow, -, -, hcolumns, -⟩ := assembleBatch_eq_ok.1 hq
      obtain ⟨a, hmem, ha⟩ := exists_getElem?_of_forall₂ (collect_eq_ok_iff.1 hrow) (hcol i hi)
      rw [index_eq_ok, List.getElem?_map] at ha
      obtain ⟨a', ha', rfl⟩ := Option.map_eq_some_iff.1 ha
      have hrows : a'.toView.len = q.numRows :=
        q.len_of_mem (hcolumns ▸ List.mem_of_getElem? hmem)
      rw [List.getElem?_map, hk, List.getElem?_take_of_lt hklt, List.getElem?_map, ha',
        Option.map_some, Option.map_some, ← hrows, ArrayRef.len_toView]

/-! ## The whole file -/

section File

variable {env : Env} {schema : List Field} {options : FileWriterOptions} {cs : List Call}
  {w w₁ : FileWriter} {sec : Sections} {p : PostscriptValues}

theorem flatMap_flatten {α β : Type} (f : α → List β) (xss : List (List α)) :
    xss.flatten.flatMap f = xss.flatMap fun xs => xs.flatMap f := by
  rw [← List.flatMap_id, List.flatMap_assoc]
  rfl

namespace FlatRun

/-- The lengths of the arrays of a column of a row group. -/
theorem map_len_encodedColumn (h : FlatRun env schema options cs w w₁ sec p)
    {bs : List RecordBatch} (hbs : bs ∈ rowGroupsOf options (batches cs)) {i : Nat}
    (hi : i < schema.length) :
    (encodedColumn options.customEncunitLen bs i).map ArrayRef.len =
      bs.flatMap fun b => unitLengths options.customEncunitLen b.numRows i := by
  obtain ⟨t, parts, -, -, harrays, hlengths, -⟩ := h.leafArrays hbs (List.getElem?_eq_getElem hi)
  rw [encodedColumn, harrays, ← hlengths, List.map_map]
  rfl

theorem accepted (h : FlatRun env schema options cs w w₁ sec p) {bs : List RecordBatch}
    (hbs : bs ∈ rowGroupsOf options (batches cs)) {i : Nat} (hi : i < schema.length) :
    ∀ n ∈ bs.map RecordBatch.numRows, ∀ k, options.customEncunitLen.lookup i = some k →
      0 < k ∧ k ≤ n := by
  obtain ⟨hmatch, haccepted, -, -⟩ := h.group hbs
  intro n hn k hk
  obtain ⟨b, hb, rfl⟩ := List.mem_map.1 hn
  exact haccepted b hb i k (by rwa [(hmatch b hb).length_columns]) hk

/-- Reading the file is assembling each row group. -/
theorem readProjected_eq_ok (h : FlatRun env schema options cs w w₁ sec p)
    (laws : env.SerializationLaws) {qs : List RecordBatch} :
    readProjected env w .all = .ok qs ↔ ∃ qss, List.Forall₂ (fun bs qs => assembleBatches schema
      (viewed schema.length (encodedColumn options.customEncunitLen bs)) = .ok qs)
        (rowGroupsOf options (batches cs)) qss ∧ qs = qss.flatten := by
  rw [h.readProjected_flat laws]
  simp only [bind_eq_ok, pure_eq_ok, Except.ok.injEq, collect_eq_ok_iff, viewed_encodedColumn]
  constructor
  · rintro ⟨qss, hqss, rfl⟩
    exact ⟨qss, hqss, rfl⟩
  · rintro ⟨qss, hqss, rfl⟩
    exact ⟨qss, hqss, rfl⟩

/-- A file that is read has a column, and the columns of its batches are cut alike. -/
theorem cutAlike_of_read (h : FlatRun env schema options cs w w₁ sec p)
    (laws : env.SerializationLaws) {qs : List RecordBatch}
    (hread : readProjected env w .all = .ok qs) : schema ≠ [] ∧
      ∀ b ∈ batches cs, b.CutAlike options.customEncunitLen schema.length := by
  obtain ⟨qss, hqss, -⟩ := (h.readProjected_eq_ok laws).1 hread
  constructor
  · -- the columns of the row group in progress at the end have a first one
    rintro rfl
    have hne : rowGroupsOf options (batches cs) ≠ [] :=
      List.append_ne_nil_of_right_ne_nil _ (List.cons_ne_nil _ _)
    obtain ⟨bs, hbs⟩ := List.exists_mem_of_ne_nil _ hne
    obtain ⟨i, hi⟩ := List.getElem?_of_mem hbs
    obtain ⟨q, -, hq⟩ := exists_getElem?_of_forall₂ hqss hi
    obtain ⟨first, hfirst, -⟩ := assembleBatches_eq_ok.1 hq
    cases hfirst
  · intro b hb i hi
    rw [← flatten_rowGroups options (batches cs)] at hb
    obtain ⟨bs, hbs, hmem⟩ := List.mem_flatten.1 hb
    obtain ⟨k, hk⟩ := List.getElem?_of_mem hbs
    obtain ⟨q, -, hq⟩ := exists_getElem?_of_forall₂ hqss hk
    have hpos : 0 < schema.length := Nat.lt_of_le_of_lt (Nat.zero_le i) hi
    obtain ⟨hfront, -⟩ := lengths_of_assembleBatches hq hi
    obtain ⟨hfirst, hlen⟩ := lengths_of_assembleBatches hq hpos
    have hall := hfirst.eq_of_length (by rw [List.length_map, List.length_map, hlen])
    rw [hall, h.map_len_encodedColumn hbs hi, h.map_len_encodedColumn hbs hpos] at hfront
    rw [← List.flatMap_map RecordBatch.numRows (unitLengths options.customEncunitLen · i),
      ← List.flatMap_map RecordBatch.numRows (unitLengths options.customEncunitLen · 0)] at hfront
    exact unitLength_eq_of_leading (h.accepted hbs hi) (h.accepted hbs hpos) hfront b.numRows
      (List.mem_map_of_mem hmem)

variable (hne : schema ≠ [])
  (hcut : ∀ b ∈ batches cs, b.CutAlike options.customEncunitLen schema.length)

include hne hcut

/-- The columns of a row group, if those of its batches are cut alike. -/
theorem aligned (h : FlatRun env schema options cs w w₁ sec p) {bs : List RecordBatch}
    (hbs : bs ∈ rowGroupsOf options (batches cs)) :
    Aligned schema (encodedColumn options.customEncunitLen bs)
      (bs.flatMap fun b => unitLengths options.customEncunitLen b.numRows 0) where
  nonempty := hne
  leaves := by
    intro i f hf
    have hi : i < schema.length := (List.getElem?_eq_some_iff.1 hf).1
    have hpos : 0 < schema.length := Nat.lt_of_le_of_lt (Nat.zero_le i) hi
    have hlengths : (bs.flatMap fun b => unitLengths options.customEncunitLen b.numRows i) =
        bs.flatMap fun b => unitLengths options.customEncunitLen b.numRows 0 := by
      refine List.flatMap_congr fun b hb => ?_
      refine unitLengths_congr (h.accepted hbs hi _ (List.mem_map_of_mem hb))
        (h.accepted hbs hpos _ (List.mem_map_of_mem hb)) (hcut b ?_ i hi)
      rw [← flatten_rowGroups options (batches cs)]
      exact List.mem_flatten.2 ⟨bs, hbs, hb⟩
    rw [← hlengths]
    exact ⟨_, h.leafArrays hbs hf⟩

/-- **The file is read**: its batches are the arrays that were encoded. -/
theorem read_all (h : FlatRun env schema options cs w w₁ sec p) (laws : env.SerializationLaws) :
    ∃ qs, readProjected env w .all = .ok qs ∧
      Assembled schema (encodedColumn options.customEncunitLen (batches cs))
        ((batches cs).flatMap fun b => unitLengths options.customEncunitLen b.numRows 0) qs := by
  have hgroups : ∀ {gs : List (List RecordBatch)}, (∀ bs ∈ gs, bs ∈ rowGroupsOf options (batches cs)) →
      ∃ qss, List.Forall₂ (fun bs qs => assembleBatches schema
        (viewed schema.length (encodedColumn options.customEncunitLen bs)) = .ok qs) gs qss ∧
          Assembled schema (encodedColumn options.customEncunitLen gs.flatten)
            (gs.flatten.flatMap fun b => unitLengths options.customEncunitLen b.numRows 0)
              qss.flatten := by
    intro gs hgs
    induction gs with
    | nil => exact ⟨[], .nil, rfl, (fun q hq => nomatch hq), fun i _ => rfl⟩
    | cons bs gs ih =>
        obtain ⟨qss, hqss, hrest⟩ := ih fun bs' hbs' => hgs bs' (List.mem_cons_of_mem _ hbs')
        obtain ⟨qs, hqs, hassembled⟩ :=
          (h.aligned hne hcut (hgs bs (List.mem_cons_self ..))).assembleBatches
        refine ⟨qs :: qss, .cons hqs hqss, ?_⟩
        have happend := hassembled.append hrest
        rw [← List.flatMap_append] at happend
        have hcols : (fun i => encodedColumn options.customEncunitLen bs i ++
            encodedColumn options.customEncunitLen gs.flatten i) =
              encodedColumn options.customEncunitLen (bs ++ gs.flatten) := by
          funext i
          exact List.flatMap_append.symm
        rw [hcols] at happend
        exact happend
  obtain ⟨qss, hqss, hassembled⟩ := hgroups fun bs hbs => hbs
  rw [flatten_rowGroups] at hassembled
  exact ⟨qss.flatten, (h.readProjected_eq_ok laws).2 ⟨qss, hqss, rfl⟩, hassembled⟩

end FlatRun

/-- What is encoded of a column of some batches. -/
theorem rows_encodedColumn (hflat : flatSchema schema = true) {lens : List (Nat × Nat)} {i : Nat}
    (hi : i < schema.length) {bs : List RecordBatch} (hmatch : ∀ b ∈ bs, b.Matches schema)
    (haccepted : ∀ b ∈ bs, b.Accepted lens) :
    (encodedColumn lens bs i).flatMap ArrayRef.rows = bs.flatMap fun b => b.keptOf lens i := by
  obtain ⟨t, parts, -, -, harrays, -, hvalues, -⟩ :=
    leafArrays_of_matches hflat (List.getElem?_eq_getElem hi) hmatch haccepted
  rw [encodedColumn, harrays, ← hvalues, List.flatMap_map]
  exact List.flatMap_id

theorem RecordBatch.Matches.length_valuesOf (hflat : flatSchema schema = true) {b : RecordBatch}
    (h : b.Matches schema) {i : Nat} (hi : i < schema.length) :
    (b.valuesOf i).length = b.numRows := by
  obtain ⟨t, vs, -, -, hc, hrows, -⟩ := h.column hflat (List.getElem?_eq_getElem hi)
  rw [RecordBatch.valuesOf, hc]
  exact hrows

/-- All values are encoded iff the unit length divides the rows of every batch. -/
theorem flatMap_keptOf_eq_iff (hflat : flatSchema schema = true) {lens : List (Nat × Nat)} {i : Nat}
    (hi : i < schema.length) {bs : List RecordBatch} (hmatch : ∀ b ∈ bs, b.Matches schema) :
    (bs.flatMap fun b => b.keptOf lens i) = (bs.flatMap fun b => b.valuesOf i) ↔
      ∀ b ∈ bs, unitLength lens b.numRows i ∣ b.numRows := by
  have hlen : ∀ b ∈ bs, (b.keptOf lens i).length = (unitLengths lens b.numRows i).sum := by
    intro b hb
    rw [RecordBatch.keptOf, List.length_take, (hmatch b hb).length_valuesOf hflat hi]
    exact Nat.min_eq_left (sum_unitLengths_le lens b.numRows i)
  constructor
  · intro h b hb
    have hle : List.Forall₂ (· ≤ ·) (bs.map fun b => (b.keptOf lens i).length)
        (bs.map fun b => (b.valuesOf i).length) := by
      rw [List.forall₂_map_left_iff, List.forall₂_map_right_iff, List.forall₂_same]
      intro c _
      exact List.length_take_le' _ _
    have hsum := congrArg List.length h
    rw [List.length_flatMap, List.length_flatMap] at hsum
    have hall := sum_eq_of_le hle hsum.symm
    rw [List.forall₂_map_left_iff, List.forall₂_map_right_iff, List.forall₂_same] at hall
    rw [← sum_unitLengths_eq_iff, ← hlen b hb, hall b hb]
    exact (hmatch b hb).length_valuesOf hflat hi
  · intro h
    refine List.flatMap_congr fun b hb => ?_
    rw [RecordBatch.keptOf, sum_unitLengths_eq_iff.2 (h b hb)]
    exact List.take_of_length_le (Nat.le_of_eq ((hmatch b hb).length_valuesOf hflat hi))

end File

/-! ## What is lost -/

namespace FileWriter

/-- Reading the file succeeds and returns the values of every column. -/
def ReadsBack (env : Env) (schema : List Field) (cs : List Call) (w : FileWriter) : Prop :=
  ∃ qs, readProjected env w .all = .ok qs ∧ ∀ i < schema.length,
    (qs.flatMap fun q => q.valuesOf i) = (batches cs).flatMap fun b => b.valuesOf i

end FileWriter

/-- **Custom unit lengths lose nothing** iff the columns of every batch are cut
alike and without a remainder. -/
theorem readsBack_iff {env : Env} {schema : List Field} {options : FileWriterOptions}
    {cs : List Call} {w : FileWriter} (laws : env.SerializationLaws)
    (hfin : Finishes env schema options cs w) (hfits : w.Fits) (hflat : flatSchema schema = true)
    (hplain : options.dictionaryType.isPlain = true)
    (hcodec : CodecRoundTrips env schema options cs w)
    (hmatch : ∀ b ∈ batches cs, b.Matches schema) :
    ReadsBack env schema cs w ↔ schema ≠ [] ∧ ∀ b ∈ batches cs,
      b.CutAlike options.customEncunitLen schema.length ∧
        unitLength options.customEncunitLen b.numRows 0 ∣ b.numRows := by
  obtain ⟨w₁, sec, p, hrun⟩ := finishes_iff.1 hfin
  have h : FlatRun env schema options cs w w₁ sec p :=
    ⟨hrun, hfits, hflat, hplain, hcodec w₁ sec p hrun, hmatch⟩
  have hvalues : ∀ i < schema.length, (encodedColumn options.customEncunitLen (batches cs) i).flatMap
      ArrayRef.rows = (batches cs).flatMap fun b => b.keptOf options.customEncunitLen i :=
    fun i hi => rows_encodedColumn hflat hi hmatch fun b hb =>
      h.written.accepted b (by rwa [FlatRun.flatten_rowGroups])
  constructor
  · rintro ⟨qs, hread, hback⟩
    obtain ⟨hne, hcut⟩ := h.cutAlike_of_read laws hread
    have hpos : 0 < schema.length := List.length_pos_iff.2 hne
    obtain ⟨qs', hread', hassembled⟩ := h.read_all hne hcut laws
    rw [hread] at hread'
    cases hread'
    have hkept := hback 0 hpos
    rw [hassembled.values hpos, hvalues 0 hpos] at hkept
    have hdvd := (flatMap_keptOf_eq_iff hflat hpos hmatch).1 hkept
    exact ⟨hne, fun b hb => ⟨hcut b hb, hdvd b hb⟩⟩
  · rintro ⟨hne, hcond⟩
    obtain ⟨qs, hread, hassembled⟩ := h.read_all hne (fun b hb => (hcond b hb).1) laws
    refine ⟨qs, hread, fun i hi => ?_⟩
    rw [hassembled.values hi, hvalues i hi, flatMap_keptOf_eq_iff hflat hi hmatch]
    intro b hb
    rw [(hcond b hb).1 i hi]
    exact (hcond b hb).2

namespace Sample

def cutSchema : List Field := [.mk "a" (.prim .int32) true]

/-- Three rows, one more than a unit holds. -/
def cutBatch : RecordBatch :=
  ⟨cutSchema, [.prim .int32 [some (.int 7), some (.int 8), some (.int 9)]], 3, by decide⟩

/-- Units of two rows. -/
def cutOptions : FileWriterOptions :=
  { FileWriterOptions.default with customEncunitLen := [(0, 2)] }

theorem cutFits :
    FileWriter.runFits Sample.env cutSchema cutOptions [.writeBatch cutBatch] = true := by decide +kernel

/-- The values that are read back. -/
def cutValues : Result (List (List (Option Scalar))) := do
  let w ← FileWriter.run Sample.env cutSchema cutOptions [.writeBatch cutBatch]
  let batches ← readProjected Sample.env w .all
  pure (batches.map fun b => b.valuesOf 0)

theorem cutValues_eq {values : List (List (Option Scalar))} (h : cutValues = .ok values) :
    ∃ w qs, FileWriter.run Sample.env cutSchema cutOptions [.writeBatch cutBatch] = .ok w ∧
      readProjected Sample.env w .all = .ok qs ∧ qs.map (fun q => q.valuesOf 0) = values := by
  simp only [cutValues, bind_eq_ok, pure_eq_ok, Except.ok.injEq] at h
  obtain ⟨w, hw, qs, hqs, hvalues⟩ := h
  exact ⟨w, qs, hw, hqs, hvalues⟩

theorem cutCodec (cs : List Call) (w : FileWriter) :
    CodecRoundTrips Sample.env cutSchema cutOptions cs w :=
  codecRoundTrips_native roundTrips compressionLaws rfl cutSchema cs w

theorem cutMatches : ∀ b ∈ batches [.writeBatch cutBatch], b.Matches cutSchema := by
  intro b hb
  cases List.mem_singleton.1 hb
  rfl

end Sample

theorem readsBack_iff_sample : ∃ w,
    Finishes Sample.env Sample.cutSchema Sample.cutOptions [.writeBatch Sample.cutBatch] w ∧
      (ReadsBack Sample.env Sample.cutSchema [.writeBatch Sample.cutBatch] w ↔
        Sample.cutSchema ≠ [] ∧ ∀ b ∈ batches [.writeBatch Sample.cutBatch],
          b.CutAlike Sample.cutOptions.customEncunitLen Sample.cutSchema.length ∧
            unitLength Sample.cutOptions.customEncunitLen b.numRows 0 ∣ b.numRows) := by
  obtain ⟨w, hfin, hfits⟩ := exists_of_runFits Sample.cutFits
  exact ⟨w, hfin, readsBack_iff Sample.serializationLaws hfin hfits rfl rfl
    (Sample.cutCodec _ w) Sample.cutMatches⟩

/-- The third row is in no unit. -/
theorem third_row_lost : ∃ w qs,
    Finishes Sample.env Sample.cutSchema Sample.cutOptions [.writeBatch Sample.cutBatch] w ∧
      w.Fits ∧ CodecRoundTrips Sample.env Sample.cutSchema Sample.cutOptions
        [.writeBatch Sample.cutBatch] w ∧ flatSchema Sample.cutSchema = true ∧
        (∀ b ∈ batches [.writeBatch Sample.cutBatch], b.Matches Sample.cutSchema) ∧
          Sample.cutBatch.valuesOf 0 = [some (.int 7), some (.int 8), some (.int 9)] ∧
            readProjected Sample.env w .all = .ok qs ∧
              (qs.flatMap fun q => q.valuesOf 0) = [some (.int 7), some (.int 8)] ∧
                ¬ ReadsBack Sample.env Sample.cutSchema [.writeBatch Sample.cutBatch] w := by
  have hvalues : Sample.cutValues = .ok [[some (.int 7), some (.int 8)]] := by decide +kernel
  obtain ⟨w, qs, hw, hqs, hread⟩ := Sample.cutValues_eq hvalues
  have hback : (qs.flatMap fun q => q.valuesOf 0) = [some (.int 7), some (.int 8)] := by
    rw [List.flatMap_def, hread]
    rfl
  refine ⟨w, qs, finishes_of_run hw, fits_of_runFits Sample.cutFits hw, Sample.cutCodec _ w, rfl,
    Sample.cutMatches, rfl, hqs, hback, ?_⟩
  rintro ⟨qs', hqs', hall⟩
  rw [hqs] at hqs'
  cases hqs'
  have hfirst := hall 0 (by decide)
  rw [hback] at hfirst
  revert hfirst
  decide

end F3Format
