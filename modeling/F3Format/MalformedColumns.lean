import F3Format.DecoderLogical
import F3Format.MalformedUnits

/-!
# Malformed columns

What the chunks of a column, and the columns of a field, must be like for the
decoders not to panic: the rounds of a chunk decoder, the chunks of a physical
column, the arrays a list or a struct is put together from, and the tree of
decoders of a field.
-/

set_option autoImplicit false

namespace F3Format

open Lib

variable {env : Env}

/-! ## Dictionary lookup -/

/-- What looking indices up in a dictionary takes for granted: the dictionary is
not a `LargeUtf8` array, and indices of the expected type are in range. -/
def LookupGuarded (dict indices : ArrayRef) : Prop :=
  ∀ t vs, dict = .prim t vs → t ≠ .largeUtf8 ∧ ((downcastType t).isSome = true →
    ∀ is, indices = .prim (expectedIndexType vs.length) is →
      ∀ o ∈ is, o = none ∨ ∃ i, o = some (.int i) ∧ i.toNat < vs.length)

theorem noErr_lookupIndex (t : PrimType) (dict : List (Option Scalar)) (o : Option Scalar) :
    NoErr (lookupIndex t dict o) := by
  intro e he
  unfold lookupIndex at he
  split at he
  · next i =>
      unfold dictValue at he
      cases h : dict[i.toNat]? with
      | none =>
          rw [h] at he
          cases he
      | some o' =>
          rw [h] at he
          cases o' <;> cases he
  · cases he
  · cases he

theorem safe_lookupIndex {t : PrimType} {dict : List (Option Scalar)} {o : Option Scalar} :
    Safe (lookupIndex t dict o) ↔ o = none ∨ ∃ i, o = some (.int i) ∧ i.toNat < dict.length := by
  cases o with
  | none => exact iff_of_true (safe_ok _) (Or.inl rfl)
  | some v =>
      cases v with
      | int i =>
          rw [lookupIndex, safe_bind_first fun _ _ => safe_pure _, dictValue]
          cases h : dict[i.toNat]? with
          | none =>
              have hlen := List.getElem?_eq_none_iff.1 h
              refine iff_of_false (not_safe_panicking _) ?_
              rintro (hn | ⟨j, hj, hlt⟩)
              · cases hn
              · cases hj
                omega
          | some o' =>
              have hlen := (List.getElem?_eq_some_iff.1 h).1
              refine iff_of_true ?_ (Or.inr ⟨i, rfl, hlen⟩)
              cases o' with
              | none => exact safe_ok _
              | some v => exact safe_ok _
      | _ =>
          refine iff_of_false (not_safe_panicking _) ?_
          rintro (hn | ⟨j, hj, -⟩)
          · cases hn
          · cases hj

/-- Only a `LargeUtf8` dictionary is downcast to another type than its own. -/
theorem arrayType_eq_of_downcastType {t target : PrimType} (h : downcastType t = some target) :
    t.arrayType = target ↔ t ≠ .largeUtf8 := by
  cases t <;> cases h <;> simp [PrimType.arrayType]

theorem safe_indexDowncast {t it : PrimType} {dict : List (Option Scalar)} {indices : ArrayRef} :
    Safe (indexDowncast t it dict indices) ↔ ∀ vs, indices = .prim it vs →
      ∀ o ∈ vs, o = none ∨ ∃ i, o = some (.int i) ∧ i.toNat < dict.length := by
  cases indices with
  | prim it' vs =>
      simp only [indexDowncast]
      by_cases h : it' = it
      · subst h
        rw [if_pos rfl, safe_bind_first fun _ _ => safe_pure _,
          safe_collect_all (noErr_lookupIndex t dict)]
        simp only [safe_lookupIndex, ArrayRef.prim.injEq, true_and, forall_eq']
      · rw [if_neg h]
        exact iff_of_true (safe_fail _) fun vs' heq => absurd (by cases heq; rfl) h
  | list => exact iff_of_true (safe_fail _) fun vs' heq => nomatch heq
  | struct => exact iff_of_true (safe_fail _) fun vs' heq => nomatch heq

theorem safe_dictIndexToData {dict indices : ArrayRef} :
    Safe (dictIndexToData dict indices) ↔ LookupGuarded dict indices := by
  cases dict with
  | prim t vs =>
      simp only [dictIndexToData, LookupGuarded, ArrayRef.prim.injEq, and_imp, forall_eq',
        forall_apply_eq_imp_iff]
      cases h : downcastType t with
      | none =>
          refine iff_of_true (safe_fail _) ⟨?_, fun hs => nomatch hs⟩
          rintro rfl
          cases h
      | some target =>
          have htype := arrayType_eq_of_downcastType h
          dsimp only
          by_cases heq : t.arrayType = target
          · rw [if_neg (not_not_intro heq), safe_indexDowncast]
            exact (and_iff_right (htype.1 heq)).symm.trans
              (and_congr_right fun _ => ⟨fun hv _ => hv, fun hv => hv rfl⟩)
          · rw [if_pos heq]
            exact iff_of_false (not_safe_panicking _) fun hg => heq (htype.2 hg.1)
  | list => exact iff_of_true (safe_fail _) fun t vs heq => nomatch heq
  | struct => exact iff_of_true (safe_fail _) fun t vs heq => nomatch heq

/-! ## Chunk decoders -/

/-- The unit is decoded without a panic, and `P` holds of the array. -/
def Fb.EncUnit.Decodable (env : Env) (u : Fb.EncUnit) (buf : Bytes) (outputType : DataType)
    (ctx : Option WASMReadingContext) (P : ArrayRef → Prop) : Prop :=
  u.Guarded env buf ctx ∧ After (ChunkDecoder.unitDecoder env u buf outputType ctx) fun p =>
    p.1.Guarded env ∧ After (p.1.decode env) P

/-- Decoding a unit and going on with its array. -/
theorem safe_unit {α : Type} {u : Fb.EncUnit} {buf : Bytes} {outputType : DataType}
    {ctx : Option WASMReadingContext} {P : ArrayRef → Prop}
    {f : EncUnitDecoder × Bytes → ArrayRef → Result α} (hf : ∀ p a, Safe (f p a) ↔ P a) :
    Safe (ChunkDecoder.unitDecoder env u buf outputType ctx >>= fun p => p.1.decode env >>= f p) ↔
      u.Decodable env buf outputType ctx P :=
  safe_bind_iff safe_unitDecoder fun p _ => safe_bind_iff safe_decode fun a _ => hf p a

namespace ChunkDecoder

/-- What a round of `decode_batch` takes for granted about the next units. -/
def RoundGuarded (env : Env) : ChunkDecoder → Prop
  | noDict s dataType => ∀ u us, s.encunits = u :: us →
      u.Decodable env s.encodedChunkBuf dataType s.wasmContext fun _ => True
  | dict s dataType => ∀ d rest, s.encunits = d :: rest →
      d.Guarded env s.encodedChunkBuf s.wasmContext ∧
        After (unitDecoder env d s.encodedChunkBuf dataType s.wasmContext) fun p =>
          (d.numRows > 0 → p.1.Guarded env) ∧ After (dictOfUnit env d p.1) fun dictArray =>
            ∀ u us, rest = u :: us →
              u.Decodable env p.2 (.prim .int64) s.wasmContext fun indices =>
                indices.dataType = .prim .uint64 → LookupGuarded dictArray indices
  | sharedDict s sharedDictionary => ∀ u us, s.encunits = u :: us →
      u.Decodable env s.encodedChunkBuf (.prim .int64) s.wasmContext
        (LookupGuarded sharedDictionary)

theorem safe_dictOfUnit {d : Fb.EncUnit} {decoder : EncUnitDecoder} :
    Safe (dictOfUnit env d decoder) ↔ (d.numRows > 0 → decoder.Guarded env) := by
  rw [dictOfUnit, safe_ite, safe_decode]
  exact and_iff_left fun _ => safe_pure _

theorem safe_dictOfIndices {dictArray indices : ArrayRef} :
    Safe (dictOfIndices dictArray indices) ↔
      (indices.dataType = .prim .uint64 → LookupGuarded dictArray indices) := by
  rw [dictOfIndices, safe_ite, and_iff_right fun _ => safe_fail _, not_ne_iff,
    safe_dictIndexToData]

theorem safe_decodeBatch {decoder : ChunkDecoder} :
    Safe (decodeBatch env decoder) ↔ decoder.RoundGuarded env := by
  cases decoder with
  | noDict s dataType =>
      rw [decodeBatch, decodeNoDict, RoundGuarded]
      split
      · next hu =>
          refine iff_of_true (safe_pure _) fun u us heq => ?_
          rw [hu] at heq
          cases heq
      · next u us hu =>
          rw [hu]
          simp only [List.cons.injEq, and_imp, forall_eq', forall_apply_eq_imp_iff]
          exact safe_unit fun p a => iff_of_true (safe_pure _) trivial
  | dict s dataType =>
      rw [decodeBatch, decodeDict, RoundGuarded]
      split
      · next hu =>
          refine iff_of_true (safe_pure _) fun u us heq => ?_
          rw [hu] at heq
          cases heq
      · next d rest hu =>
          rw [hu]
          simp only [List.cons.injEq, and_imp, forall_eq', forall_apply_eq_imp_iff]
          refine safe_bind_iff safe_unitDecoder fun p _ => ?_
          refine safe_bind_iff safe_dictOfUnit fun dictArray _ => ?_
          cases rest with
          | nil =>
              refine iff_of_true (safe_fail _) fun u us heq => ?_
              cases heq
          | cons u us =>
              simp only [List.cons.injEq, and_imp, forall_eq', forall_apply_eq_imp_iff]
              refine safe_unit fun q indices => ?_
              rw [safe_bind_first fun _ _ => safe_pure _, safe_dictOfIndices]
  | sharedDict s sharedDictionary =>
      rw [decodeBatch, decodeSharedDict, RoundGuarded]
      split
      · next hu =>
          refine iff_of_true (safe_pure _) fun u us heq => ?_
          rw [hu] at heq
          cases heq
      · next u us hu =>
          rw [hu]
          simp only [List.cons.injEq, and_imp, forall_eq', forall_apply_eq_imp_iff]
          refine safe_unit fun p a => ?_
          rw [safe_bind_first fun _ _ => safe_pure _, safe_dictIndexToData]

/-- A round that returns an array. -/
def Round (env : Env) (decoder decoder' : ChunkDecoder) : Prop :=
  ∃ a, decodeBatch env decoder = .ok (some a, decoder')

/-- Every round the loop over a chunk gets to is guarded. -/
def DrainGuarded (env : Env) (decoder : ChunkDecoder) : Prop :=
  ∀ decoder', Relation.ReflTransGen (Round env) decoder decoder' → decoder'.RoundGuarded env

/-- Where the first round is the last, it is the only one to guard. -/
theorem drainGuarded_of_last {decoder : ChunkDecoder}
    (h : ∀ decoder', ¬ Round env decoder decoder') :
    decoder.DrainGuarded env ↔ decoder.RoundGuarded env := by
  constructor
  · intro hg
    exact hg decoder .refl
  · intro hg decoder' hreach
    rcases hreach.cases_head with rfl | ⟨next, hround, -⟩
    · exact hg
    · exact absurd hround (h next)

theorem drainGuarded_step {decoder next : ChunkDecoder} {a : ArrayRef}
    (h : decodeBatch env decoder = .ok (some a, next)) :
    decoder.DrainGuarded env ↔ next.DrainGuarded env := by
  constructor
  · intro hg decoder' hreach
    exact hg decoder' (.head ⟨a, h⟩ hreach)
  · intro hg decoder' hreach
    rcases hreach.cases_head with rfl | ⟨next', ⟨a', hround⟩, hrest⟩
    · refine safe_decodeBatch.1 ?_
      rw [h]
      exact safe_ok _
    · rw [h] at hround
      cases hround
      exact hg decoder' hrest

/-- The loop over a chunk, by induction on the units it has left. -/
theorem safe_drain {decoder : ChunkDecoder} :
    Safe (drain env decoder) ↔ decoder.DrainGuarded env := by
  induction hn : decoder.units.length using Nat.strong_induction_on generalizing decoder with
  | _ n ih =>
      cases h : decodeBatch env decoder with
      | error f =>
          rw [drain_error env h, drainGuarded_of_last (fun d ⟨a, ha⟩ => nomatch h.symm.trans ha),
            ← safe_decodeBatch, h]
          exact safe_error
      | ok p =>
          obtain ⟨o, next⟩ := p
          cases o with
          | none =>
              rw [drain_none env h, drainGuarded_of_last (fun d ⟨a, ha⟩ => nomatch h.symm.trans ha),
                ← safe_decodeBatch, h]
              exact iff_of_true (safe_ok _) (safe_ok _)
          | some a =>
              have hlt := decodeBatch_units env h
              rw [drain_step env h, safe_bind_first fun _ _ => safe_pure _,
                ih next.units.length (by omega) rfl, drainGuarded_step h]

end ChunkDecoder

/-! ## Physical columns -/

theorem safe_createPhysicalDecoder {encunits : List Fb.EncUnit} {encoding : Fb.DictionaryEncoding}
    {dataType : DataType} {buf : Bytes} {ctx : Option WASMReadingContext}
    {cache : Option SharedDictionaryCache} :
    Safe (createPhysicalDecoder encunits encoding dataType buf ctx cache) ↔
      encoding ≠ .none ∧ dataType.decodable = true := by
  cases encoding with
  | none => exact iff_of_false (not_safe_panicking _) fun h => h.1 rfl
  | noDictionary =>
      simp only [createPhysicalDecoder, safe_ite]
      simp
  | localDictionary idxs =>
      simp only [createPhysicalDecoder, safe_ite]
      simp
  | sharedDictionary idx =>
      simp only [createPhysicalDecoder, safe_ite, not_safe_panicking]
      constructor
      · rintro ⟨-, h⟩
        refine ⟨?_, not_not.1 h⟩
        rintro ⟨⟩
      · rintro ⟨-, h⟩
        refine ⟨fun _ => ?_, fun hn => hn h⟩
        exact safe_okOr_bind.2 fun c _ => safe_okOr_bind.2 fun dict _ => safe_pure _

namespace PrimitiveColDecoder

/-- What opening a chunk takes for granted: its dictionary encoding is set, and
the column has a type with a decoder. -/
def OpenGuarded (env : Env) (d : PrimitiveColDecoder) (c : Fb.Chunk) : Prop :=
  After (d.readChunk env c.offset c.size c.checksum) fun _ => c.encunits.isSome = true →
    c.encoding ≠ .none ∧ d.primitiveType.decodable = true

/-- What the decoding of a chunk takes for granted. -/
def ChunkGuarded (env : Env) (d : PrimitiveColDecoder) (c : Fb.Chunk) : Prop :=
  d.OpenGuarded env c ∧ After (d.openChunk env c) fun decoder => decoder.DrainGuarded env

/-- Every chunk the loop over the column gets to is guarded. -/
def Guarded (env : Env) (d : PrimitiveColDecoder) : Prop :=
  ∀ c, Reached (d.decodeChunk env) d.chunksMeta c → d.ChunkGuarded env c

theorem safe_readChunk (d : PrimitiveColDecoder) (offset size : Nat) (checksum : Option UInt64) :
    Safe (d.readChunk env offset size checksum) := by
  refine safe_bind.2 ⟨safe_readExactAt _ _ _, fun buf _ => ?_⟩
  split
  · exact safe_pure _
  · refine safe_okOr_bind.2 fun sum _ => safe_ite.2 ⟨fun _ => safe_fail _, fun _ => safe_pure _⟩

theorem safe_openChunk {d : PrimitiveColDecoder} {c : Fb.Chunk} :
    Safe (d.openChunk env c) ↔ d.OpenGuarded env c := by
  refine safe_bind_after (d.safe_readChunk _ _ _) fun buf _ => ?_
  rw [safe_okOr_bind]
  simp only [safe_createPhysicalDecoder]
  cases c.encunits with
  | none => simp
  | some us => simp

theorem safe_decodeChunk {d : PrimitiveColDecoder} {c : Fb.Chunk} :
    Safe (d.decodeChunk env c) ↔ d.ChunkGuarded env c :=
  safe_bind_iff safe_openChunk fun _ _ => ChunkDecoder.safe_drain

theorem safe_decodeBatch {d : PrimitiveColDecoder} :
    Safe (d.decodeBatch env) ↔ d.Guarded env := by
  rw [decodeBatch, safe_bind_first fun _ _ => safe_pure _]
  exact safe_collect_iff fun c _ => safe_decodeChunk

end PrimitiveColDecoder

/-! ## Lists and structs -/

/-- What `GenericListArray::new` checks. -/
def ListFits (field : Field) (offsets : List Nat) (values : ArrayRef)
    (nulls : Option (List Bool)) : Prop :=
  offsets.getLastD 0 ≤ values.len ∧ (∀ bs, nulls = some bs → bs.length = offsets.length - 1) ∧
    (field.isNullable = false → values.nullCount = 0) ∧ field.dataType = values.dataType

theorem safe_listArrayNew {large : Bool} {field : Field} {offsets : List Nat} {values : ArrayRef}
    {nulls : Option (List Bool)} :
    Safe (listArrayNew large field offsets values nulls) ↔ ListFits field offsets values nulls := by
  simp only [listArrayNew, safe_if_panicking, safe_ok, and_true, ListFits]
  refine and_congr (by omega) (and_congr ?_ (and_congr ?_ not_not))
  · cases nulls with
    | none => simp
    | some bs => simp
  · cases field.isNullable with
    | false => simp
    | true => simp

/-- The two arrays a list column is put together from. -/
def ListGuarded (field : Field) (p : ArrayRef × ArrayRef) : Prop :=
  ∃ large child f offsets values nulls,
    field.dataType = (if large = true then .largeList child else .list child) ∧
      p.1 = .list large f offsets values nulls ∧ offsets ≠ [] ∧ monotone offsets = true ∧
        ListFits (fieldToView child) offsets p.2 nulls

theorem safe_offsetBufferNew {offsets : List Nat} :
    Safe (offsetBufferNew offsets) ↔ offsets ≠ [] ∧ monotone offsets = true := by
  cases offsets with
  | nil => exact iff_of_false (not_safe_panicking _) fun h => h.1 rfl
  | cons o os =>
      rw [offsetBufferNew, if_neg (by simp), safe_ite, and_iff_right fun _ => safe_ok _]
      simp

theorem safe_rebuiltList {large : Bool} {field : Field} {offsets : List Nat} {values : ArrayRef}
    {nulls : Option (List Bool)} :
    Safe (do
      let offsets ← offsetBufferNew offsets
      listArrayNew large field offsets values nulls) ↔
        offsets ≠ [] ∧ monotone offsets = true ∧ ListFits field offsets values nulls := by
  rw [safe_bind, safe_offsetBufferNew, and_assoc]
  refine and_congr_right fun hne => and_congr_right fun hmono => ?_
  have hok : offsetBufferNew offsets = .ok offsets := by
    rw [offsetBufferNew, if_neg (by simp [hne]), if_pos hmono]
  rw [hok]
  simp only [Except.ok.injEq, forall_eq', safe_listArrayNew]

theorem safe_rebuildList {field : Field} {p : ArrayRef × ArrayRef} :
    Safe (rebuildList field p) ↔ ListGuarded field p := by
  obtain ⟨validityOffsets, values⟩ := p
  unfold rebuildList ListGuarded
  split
  · next child f offsets v nulls htype harray =>
      rw [safe_rebuiltList]
      constructor
      · rintro ⟨hne, hmono, hfits⟩
        exact ⟨false, child, f, offsets, v, nulls, htype, harray, hne, hmono, hfits⟩
      · rintro ⟨large, child', f', offsets', v', nulls', htype', harray', h⟩
        cases harray.symm.trans harray'
        cases htype.symm.trans htype'
        exact h
  · next child f offsets v nulls htype harray =>
      rw [safe_rebuiltList]
      constructor
      · rintro ⟨hne, hmono, hfits⟩
        exact ⟨true, child, f, offsets, v, nulls, htype, harray, hne, hmono, hfits⟩
      · rintro ⟨large, child', f', offsets', v', nulls', htype', harray', h⟩
        cases harray.symm.trans harray'
        cases htype.symm.trans htype'
        exact h
  · next child htype hother =>
      refine iff_of_false (not_safe_panicking _) ?_
      rintro ⟨large, child', f', offsets', v', nulls', htype', harray', -⟩
      cases large with
      | false => exact hother _ _ _ _ harray'
      | true => cases htype.symm.trans htype'
  · next child htype hother =>
      refine iff_of_false (not_safe_panicking _) ?_
      rintro ⟨large, child', f', offsets', v', nulls', htype', harray', -⟩
      cases large with
      | false => cases htype.symm.trans htype'
      | true => exact hother _ _ _ _ harray'
  · next hlist hlarge _ _ =>
      refine iff_of_false (not_safe_panicking _) ?_
      rintro ⟨large, child', f', offsets', v', nulls', htype', -⟩
      cases large with
      | false => exact hlist _ htype'
      | true => exact hlarge _ htype'

theorem noErr_offsetBufferNew (offsets : List Nat) : NoErr (offsetBufferNew offsets) := by
  refine noErr_if_panicking ?_
  split
  · exact noErr_ok _
  · exact noErr_panicking _

theorem noErr_listArrayNew (large : Bool) (field : Field) (offsets : List Nat) (values : ArrayRef)
    (nulls : Option (List Bool)) : NoErr (listArrayNew large field offsets values nulls) :=
  noErr_if_panicking (noErr_if_panicking (noErr_if_panicking (noErr_if_panicking (noErr_ok _))))

theorem noErr_rebuildList (field : Field) (p : ArrayRef × ArrayRef) :
    NoErr (rebuildList field p) := by
  unfold rebuildList
  split
  · exact noErr_bind (noErr_offsetBufferNew _) fun _ => noErr_listArrayNew _ _ _ _ _
  · exact noErr_bind (noErr_offsetBufferNew _) fun _ => noErr_listArrayNew _ _ _ _ _
  · exact noErr_panicking _
  · exact noErr_panicking _
  · exact noErr_panicking _

theorem isSome_getElem?_iff {α : Type} {xs : List α} {i : Nat} :
    xs[i]?.isSome = true ↔ i < xs.length := by
  rw [Option.isSome_iff_ne_none, Ne, List.getElem?_eq_none_iff, not_le]

/-- The columns of a struct have as many arrays as its first. -/
def Transposes (columns : List (List ArrayRef)) : Prop :=
  ∃ first rest, columns = first :: rest ∧ ∀ column ∈ columns, first.length ≤ column.length

theorem safe_transpose {columns : List (List ArrayRef)} :
    Safe (transpose columns) ↔ Transposes columns := by
  cases columns with
  | nil => exact iff_of_false (not_safe_panicking _) fun ⟨first, rest, he, _⟩ => nomatch he
  | cons first rest =>
      have hrow : ∀ i : Nat, NoErr (collect (fun n : List ArrayRef => unwrapSome n[i]?) (first :: rest)) :=
        fun i => noErr_collect (fun _ => noErr_unwrapSome _) _
      have hcell : ∀ (i : Nat) (n : List ArrayRef), NoErr (unwrapSome n[i]?) :=
        fun i n => noErr_unwrapSome _
      simp only [transpose, safe_collect_all hrow, safe_collect_all (hcell _), safe_unwrapSome,
        List.mem_range, isSome_getElem?_iff]
      constructor
      · intro h
        refine ⟨first, rest, rfl, fun column hcolumn => ?_⟩
        by_contra hlt
        exact absurd (h column.length (by omega) column hcolumn) (lt_irrefl _)
      · rintro ⟨first', rest', he, h⟩ i hi column hcolumn
        cases he
        exact lt_of_lt_of_le hi (h column hcolumn)

/-- What `StructArray::new` checks. -/
def StructFits (fields : List Field) (columns : List ArrayRef) (nulls : Option (List Bool)) :
    Prop :=
  fields.length = columns.length ∧
    (∀ bs, nulls = some bs → bs.length = (columns.head?.map ArrayRef.len).getD 0) ∧
    (∀ p ∈ fields.zip columns, p.1.dataType = p.2.dataType) ∧
    (∀ c ∈ columns, c.len = (columns.head?.map ArrayRef.len).getD 0) ∧
    ∀ p ∈ fields.zip columns, p.1.isNullable = false → unmaskedNull p.2.validity nulls = false

theorem safe_structArrayNew {fields : List Field} {columns : List ArrayRef}
    {nulls : Option (List Bool)} :
    Safe (structArrayNew fields columns nulls) ↔ StructFits fields columns nulls := by
  simp only [structArrayNew, safe_if_panicking, safe_ok, and_true, StructFits]
  refine and_congr not_not (and_congr ?_ (and_congr ?_ (and_congr ?_ ?_)))
  · cases nulls with
    | none => simp
    | some bs => simp
  · simp
  · simp
  · simp

/-- The validity and the columns a struct column is put together from. -/
def StructGuarded (fields : List Field) (p : ArrayRef × List ArrayRef) : Prop :=
  ∃ vs, p.1 = .prim .boolean vs ∧
    StructFits (fields.map fieldToView) p.2 (if vs.isEmpty then none else some (boolValues vs))

theorem safe_rebuildStruct {fields : List Field} {p : ArrayRef × List ArrayRef} :
    Safe (rebuildStruct fields p) ↔ StructGuarded fields p := by
  unfold rebuildStruct StructGuarded
  split
  · next vs harray =>
      rw [safe_structArrayNew, harray]
      simp
  · next harray =>
      refine iff_of_false (not_safe_panicking _) ?_
      rintro ⟨vs, hvs, -⟩
      exact harray vs hvs

theorem noErr_structArrayNew (fields : List Field) (columns : List ArrayRef)
    (nulls : Option (List Bool)) : NoErr (structArrayNew fields columns nulls) :=
  noErr_if_panicking (noErr_if_panicking (noErr_if_panicking (noErr_if_panicking
    (noErr_if_panicking (noErr_ok _)))))

theorem noErr_rebuildStruct (fields : List Field) (p : ArrayRef × List ArrayRef) :
    NoErr (rebuildStruct fields p) := by
  unfold rebuildStruct
  split
  · exact noErr_structArrayNew _ _ _
  · exact noErr_panicking _

/-! ## Trees of decoders -/

namespace LogicalColDecoder

mutual

/-- What `decode_batch` of a tree takes for granted: every physical column it
gets to is guarded, and so are the arrays it puts together. -/
def Guarded (env : Env) : LogicalColDecoder → Prop
  | primitive d => d.Guarded env
  | list field d values => d.Guarded env ∧ After (d.decodeBatch env) fun validityOffsets =>
      Guarded env values ∧ After (decodeBatch env values) fun arrays =>
        ∀ p ∈ validityOffsets.zip arrays, ListGuarded field p
  | struct fields d children => d.Guarded env ∧ After (d.decodeBatch env) fun validity =>
      GuardedAll env children ∧ After (decodeChildren env children) fun columns =>
        Transposes columns ∧ After (transpose columns) fun rows =>
          ∀ p ∈ validity.zip rows, StructGuarded fields p

/-- `Guarded` of every child of a struct the reader gets to. -/
def GuardedAll (env : Env) : List LogicalColDecoder → Prop
  | [] => True
  | c :: cs => Guarded env c ∧ After (decodeBatch env c) fun _ => GuardedAll env cs

end

mutual

theorem safe_decodeBatch : ∀ {d : LogicalColDecoder}, Safe (decodeBatch env d) ↔ d.Guarded env
  | primitive d => by
      rw [decodeBatch, Guarded]
      exact PrimitiveColDecoder.safe_decodeBatch
  | list field d values => by
      rw [decodeBatch, Guarded]
      refine safe_bind_iff PrimitiveColDecoder.safe_decodeBatch fun validityOffsets _ => ?_
      refine safe_bind_iff safe_decodeBatch fun arrays _ => ?_
      rw [safe_collect_all (noErr_rebuildList field)]
      exact forall₂_congr fun p _ => safe_rebuildList
  | struct fields d children => by
      rw [decodeBatch, Guarded]
      refine safe_bind_iff PrimitiveColDecoder.safe_decodeBatch fun validity _ => ?_
      refine safe_bind_iff safe_decodeChildren fun columns _ => ?_
      refine safe_bind_iff safe_transpose fun rows _ => ?_
      rw [safe_collect_all (noErr_rebuildStruct fields)]
      exact forall₂_congr fun p _ => safe_rebuildStruct

theorem safe_decodeChildren : ∀ {ds : List LogicalColDecoder},
    Safe (decodeChildren env ds) ↔ GuardedAll env ds
  | [] => by
      rw [decodeChildren, GuardedAll]
      exact iff_of_true (safe_pure _) trivial
  | c :: cs => by
      rw [decodeChildren, GuardedAll]
      refine safe_bind_iff safe_decodeBatch fun arrays _ => ?_
      rw [safe_bind_first fun _ _ => safe_pure _]
      exact safe_decodeChildren

end

end LogicalColDecoder

/-! ## Creating the tree -/

namespace DecoderOptions

theorem safe_primitive {o : DecoderOptions} {i : Nat} {t : DataType} :
    Safe (o.primitive i t) ↔ i < o.columnMetas.length := by
  rw [primitive, safe_unwrapSome_bind, ← isSome_getElem?_iff, Option.isSome_iff_exists]
  refine exists_congr fun m => and_iff_left ?_
  exact safe_okOr_bind.2 fun chunks _ => safe_pure _

end DecoderOptions

mutual

/-- What `create_logical_decoder` takes for granted: there is metadata for every
physical column of the field, and its leaves have a type with a decoder. -/
def Creatable (o : DecoderOptions) : Field → Nat → Prop
  | .mk _ dataType _, columnIdx => CreatableOf o dataType columnIdx

/-- `Creatable` by the type of the field. -/
def CreatableOf (o : DecoderOptions) : DataType → Nat → Prop
  | .prim t, columnIdx => columnIdx < o.columnMetas.length ∧
      After (o.primitive columnIdx (.prim t)) fun _ => t.nonNest = true
  | .list child, columnIdx => columnIdx < o.columnMetas.length ∧
      After (o.primitive columnIdx (.list child)) fun _ => Creatable o child (columnIdx + 1)
  | .largeList child, columnIdx => columnIdx < o.columnMetas.length ∧
      After (o.primitive columnIdx (.largeList child)) fun _ => Creatable o child (columnIdx + 1)
  | .struct fields, columnIdx => columnIdx < o.columnMetas.length ∧
      After (o.primitive columnIdx (.prim .boolean)) fun _ => CreatableAll o fields (columnIdx + 1)

/-- `Creatable` of every child of a struct. -/
def CreatableAll (o : DecoderOptions) : List Field → Nat → Prop
  | [], _ => True
  | f :: fs, columnIdx => Creatable o f columnIdx ∧
      After (createLogicalDecoder o f columnIdx) fun p => CreatableAll o fs p.2

end

mutual

theorem safe_createLogicalDecoder {o : DecoderOptions} : ∀ {f : Field} {i : Nat},
    Safe (createLogicalDecoder o f i) ↔ Creatable o f i
  | .mk name dataType nullable, i => by
      rw [createLogicalDecoder, Creatable]
      exact safe_createLogicalDecoderOf name nullable

theorem safe_createLogicalDecoderOf {o : DecoderOptions} (name : String) (nullable : Bool) :
    ∀ {t : DataType} {i : Nat},
      Safe (createLogicalDecoderOf o name nullable t i) ↔ CreatableOf o t i
  | .prim t, i => by
      rw [createLogicalDecoderOf, CreatableOf]
      refine safe_bind_iff DecoderOptions.safe_primitive fun d _ => ?_
      rw [safe_ite]
      simp
  | .list child, i => by
      rw [createLogicalDecoderOf, CreatableOf]
      refine safe_bind_iff DecoderOptions.safe_primitive fun d _ => ?_
      rw [safe_bind_first fun _ _ => safe_pure _]
      exact safe_createLogicalDecoder
  | .largeList child, i => by
      rw [createLogicalDecoderOf, CreatableOf]
      refine safe_bind_iff DecoderOptions.safe_primitive fun d _ => ?_
      rw [safe_bind_first fun _ _ => safe_pure _]
      exact safe_createLogicalDecoder
  | .struct fields, i => by
      rw [createLogicalDecoderOf, CreatableOf]
      refine safe_bind_iff DecoderOptions.safe_primitive fun d _ => ?_
      rw [safe_bind_first fun _ _ => safe_pure _]
      exact safe_createLogicalDecoders

theorem safe_createLogicalDecoders {o : DecoderOptions} : ∀ {fs : List Field} {i : Nat},
    Safe (createLogicalDecoders o fs i) ↔ CreatableAll o fs i
  | [], i => by
      rw [createLogicalDecoders, CreatableAll]
      exact iff_of_true (safe_pure _) trivial
  | f :: fs, i => by
      rw [createLogicalDecoders, CreatableAll]
      refine safe_bind_iff safe_createLogicalDecoder fun p _ => ?_
      rw [safe_bind_first fun _ _ => safe_pure _]
      exact safe_createLogicalDecoders

end

end F3Format
