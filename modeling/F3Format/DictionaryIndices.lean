import F3Format.EncoderPhysical
import F3Format.DecoderPhysical

/-!
# Values and their indices

A dictionary replaces values by their positions (`indicesOf`). Positions survive
when the dictionary grows (`indicesOf_prefix`), the encoder's choice of an index
type leaves them as they are (`castIndexDtype_indicesOf`), and looking them up
gives the values back (`dictIndexToData_indicesOf`), as encoder and decoder pick
the same type for the same length.
-/

set_option autoImplicit false

namespace F3Format

open Lib

/-- The positions of the values of a column in a dictionary. -/
def indicesOf (dict : List Scalar) (vs : List (Option Scalar)) : List (Option Scalar) :=
  vs.map fun o => o.map fun v => indexScalar (dict.idxOf v)

/-- The dictionary has every value of the column. -/
def Covers (dict : List Scalar) (vs : List (Option Scalar)) : Prop := ∀ v, some v ∈ vs → v ∈ dict

theorem covers_of_cons {dict : List Scalar} {o : Option Scalar} {vs : List (Option Scalar)}
    (h : Covers dict (o :: vs)) : Covers dict vs := by
  intro v hv
  exact h v (List.mem_cons_of_mem _ hv)

theorem Covers.mono {dict dict' : List Scalar} {vs : List (Option Scalar)} (h : Covers dict vs)
    (hsub : dict ⊆ dict') : Covers dict' vs := by
  intro v hv
  exact hsub (h v hv)

theorem idxOf?_eq_some_idxOf {dict : List Scalar} {v : Scalar} (h : v ∈ dict) :
    dict.idxOf? v = some (dict.idxOf v) := by
  obtain ⟨i, hi, -, -⟩ := exists_idxOf?_of_mem h
  rw [List.idxOf_eq_getD_idxOf?, hi, Option.getD_some]

/-- Positions survive when the dictionary grows. -/
theorem indicesOf_prefix {dict dict' : List Scalar} {vs : List (Option Scalar)}
    (hpre : dict <+: dict') (h : Covers dict vs) : indicesOf dict' vs = indicesOf dict vs := by
  obtain ⟨more, rfl⟩ := hpre
  apply List.map_congr_left
  intro o ho
  cases o with
  | none => rfl
  | some v => rw [Option.map_some, Option.map_some, List.idxOf_append, if_pos (h v ho)]

/-! ## The dictionary of a column -/

/-- The values of a column in the order of their first occurrence, after those
the dictionary already has. -/
def extendedBy (dict : List Scalar) (vs : List (Option Scalar)) : List Scalar :=
  insertAll (id : Scalar → Scalar) dict vs.reduceOption

theorem prefix_extendedBy (dict : List Scalar) (vs : List (Option Scalar)) :
    dict <+: extendedBy dict vs := prefix_insertAll id dict _

theorem covers_extendedBy (dict : List Scalar) (vs : List (Option Scalar)) :
    Covers (extendedBy dict vs) vs := by
  intro v hv
  have hmem : v ∈ vs.reduceOption := List.reduceOption_mem_iff.2 hv
  have h : id v ∈ (extendedBy dict vs).map id := key_mem_insertAll id hmem
  rw [List.map_id] at h
  exact h

/-- The number of distinct values of a column; nulls do not count. -/
def distinctValues (vs : List (Option Scalar)) : Nat := vs.reduceOption.toFinset.card

theorem length_extendedBy_nil (vs : List (Option Scalar)) :
    (extendedBy [] vs).length = distinctValues vs := by
  have hnodup : (extendedBy [] vs).Nodup := by
    have h : ((extendedBy [] vs).map id).Nodup := nodup_insertAll id _ List.nodup_nil
    rw [List.map_id] at h
    exact h
  have hset : (extendedBy [] vs).toFinset = vs.reduceOption.toFinset := by
    ext v
    rw [List.mem_toFinset, List.mem_toFinset]
    constructor
    · intro hv
      rcases mem_insertAll id hv with h | h
      · cases h
      · exact h
    · intro hv
      exact covers_extendedBy [] vs v (List.reduceOption_mem_iff.1 hv)
  rw [distinctValues, ← hset, List.toFinset_card_of_nodup hnodup]

namespace Dictionary

/-- The keys are distinct and the map of the dictionary finds them. -/
def Valid (d : Dictionary) : Prop := d.typedDict.Valid

theorem keys_eq (d : Dictionary) : d.typedDict.keys = d.values := List.map_id _

theorem tryNew_prim {t : PrimType} (ht : t.dictSupported = true) :
    tryNew (.prim t) = .ok ⟨t, .new, ht⟩ := dif_pos ht

theorem valid_tryNew {t : PrimType} {d : Dictionary} (h : tryNew (.prim t) = .ok d) :
    d.Valid ∧ d.datatype = t ∧ d.values = [] := by
  by_cases ht : t.dictSupported = true
  · rw [tryNew_prim ht] at h
    cases h
    exact ⟨TypedDict.valid_new, rfl, rfl⟩
  · rw [tryNew, dif_neg ht] at h
    cases h

/-- Extending the typed dictionary by a column. -/
theorem extend_spec {d : TypedDict Scalar Scalar} (hd : d.Valid) (vs : List (Option Scalar)) :
    (d.extend vs).1.Valid ∧ (d.extend vs).1.dictionary = extendedBy d.dictionary vs ∧
      ((d.extend vs).2.map fun o => o.map indexScalar) =
        indicesOf (extendedBy d.dictionary vs) vs := by
  obtain ⟨hvalid, hdict, hindices⟩ := TypedDict.foldl_extendOne_spec hd vs
  refine ⟨hvalid, hdict, ?_⟩
  have hkeys : (vs.foldl TypedDict.extendOne d).keys = extendedBy d.dictionary vs := by
    show List.map id _ = _
    rw [List.map_id, hdict]
    rfl
  have hslice : (d.extend vs).2 =
      vs.map fun o => o.bind fun v => (extendedBy d.dictionary vs).idxOf? v := by
    show (vs.foldl TypedDict.extendOne d).indices.drop d.indices.length = _
    rw [hindices, List.drop_left, hkeys]
    rfl
  rw [hslice, List.map_map]
  apply List.map_congr_left
  intro o ho
  cases o with
  | none => rfl
  | some v =>
      show ((extendedBy d.dictionary vs).idxOf? v).map _ = _
      rw [idxOf?_eq_some_idxOf (covers_extendedBy d.dictionary vs v ho)]
      rfl

/-- `extend_and_get_index` on a column of the type of the dictionary. -/
theorem extendAndGetIndex_spec {d : Dictionary} (hd : d.Valid) (vs : List (Option Scalar)) :
    ∃ d' : Dictionary, d.extendAndGetIndex (.prim d.datatype vs) =
        .ok (d', .prim .uint64 (indicesOf d'.values vs)) ∧
      d'.Valid ∧ d'.datatype = d.datatype ∧ d'.values = extendedBy d.values vs := by
  obtain ⟨hvalid, hdict, hindices⟩ := extend_spec hd vs
  refine ⟨{ d with typedDict := (d.typedDict.extend vs).1 }, ?_, hvalid, rfl, hdict⟩
  have hvalues : indicesOf (d.typedDict.extend vs).1.dictionary vs =
      (d.typedDict.extend vs).2.map fun o => o.map indexScalar := by rw [hdict, hindices]
  have hsame : ¬ (ArrayRef.prim d.datatype vs).dataType ≠ .prim d.datatype := not_not_intro rfl
  unfold extendAndGetIndex
  rw [if_neg hsame]
  show Except.ok (_, ArrayRef.prim .uint64 _) =
    Except.ok (_, ArrayRef.prim .uint64 (indicesOf (d.typedDict.extend vs).1.dictionary vs))
  rw [hvalues]
  rfl

end Dictionary

/-! ## Index types -/

theorem expectedIndexType_eq (n : Nat) : expectedIndexType n = indexDtype n := rfl

/-- An index below the dictionary's length fits the index type. -/
theorem castIndexValue_of_lt {i n : Nat} (h : i < n) :
    castIndexValue (indexDtype n) (indexScalar i) = indexScalar i := by
  unfold indexDtype indexScalar
  split
  · simp only [castIndexValue, Scalar.int.injEq]
    omega
  · split
    · simp only [castIndexValue, Scalar.int.injEq]
      omega
    · split
      · simp only [castIndexValue, Scalar.int.injEq]
        omega
      · rfl

/-- Narrowing leaves the indices as they are. -/
theorem castIndexDtype_indicesOf {dict : List Scalar} {vs : List (Option Scalar)}
    (h : Covers dict vs) {n : Nat} (hn : dict.length ≤ n) :
    castIndexDtype (.prim .uint64 (indicesOf dict vs)) n =
      .prim (indexDtype n) (indicesOf dict vs) := by
  unfold castIndexDtype
  dsimp only
  rw [ArrayRef.rows_prim, indicesOf, List.map_map]
  congr 1
  apply List.map_congr_left
  intro o ho
  cases o with
  | none => rfl
  | some v =>
      have hlt : dict.idxOf v < n :=
        Nat.lt_of_lt_of_le (List.idxOf_lt_length_of_mem (h v ho)) hn
      show some (castIndexValue (indexDtype n) (indexScalar (dict.idxOf v))) = _
      rw [castIndexValue_of_lt hlt]
      rfl

theorem indexDtype_nonNest (n : Nat) : (indexDtype n).nonNest = true := by
  unfold indexDtype
  split
  · rfl
  · split
    · rfl
    · split
      · rfl
      · rfl

theorem indexDtype_view (n : Nat) : (indexDtype n).view = indexDtype n := by
  unfold indexDtype
  split
  · rfl
  · split
    · rfl
    · split
      · rfl
      · rfl

/-- Only a dictionary of `2 ^ 32` values has indices of 64 bits. -/
theorem indexDtype_eq_uint64 (n : Nat) : indexDtype n = .uint64 ↔ 2 ^ 32 ≤ n := by
  unfold indexDtype
  split
  · next h => simp; omega
  · split
    · next h => simp; omega
    · split
      · next h => simp; omega
      · next h => simp; omega

/-! ## Looking indices up -/

theorem arrayType_nonNest {t : PrimType} (ht : t.dictSupported = true) :
    t.arrayType.nonNest = true := by
  cases t <;> first | rfl | cases ht

theorem dictSupported_nonNest {t : PrimType} (ht : t.dictSupported = true) :
    t.nonNest = true := by
  cases t <;> first | rfl | cases ht

/-- The type a decoded dictionary comes back with. -/
def PrimType.decodedDict (t : PrimType) : PrimType := t.arrayType.view

theorem downcastType_decodedDict {t : PrimType} (ht : t.dictSupported = true) :
    downcastType t.decodedDict = some t.decodedDict ∧ t.decodedDict.arrayType = t.decodedDict := by
  cases t <;> first | exact ⟨rfl, rfl⟩ | cases ht

theorem lookupIndex_indicesOf {t : PrimType} {dict : List Scalar} {o : Option Scalar}
    (h : ∀ v, o = some v → v ∈ dict) :
    lookupIndex t (dict.map some) (o.map fun v => indexScalar (dict.idxOf v)) = .ok o := by
  cases o with
  | none => rfl
  | some v =>
      have hlt := List.idxOf_lt_length_of_mem (h v rfl)
      have hget : (dict.map some)[dict.idxOf v]? = some (some v) := by
        rw [List.getElem?_map, List.getElem?_eq_getElem hlt, List.getElem_idxOf hlt]
        rfl
      rw [Option.map_some, indexScalar, lookupIndex, Int.toNat_natCast, dictValue, hget]
      rfl

theorem collect_lookupIndex {t : PrimType} {dict : List Scalar} {vs : List (Option Scalar)}
    (h : Covers dict vs) : collect (lookupIndex t (dict.map some)) (indicesOf dict vs) = .ok vs := by
  induction vs with
  | nil => rfl
  | cons o vs ih =>
      have hhead : ∀ v, o = some v → v ∈ dict := by
        rintro v rfl
        exact h v (List.mem_cons_self)
      exact collect_cons_eq_ok.2
        ⟨o, vs, lookupIndex_indicesOf hhead, ih (covers_of_cons h), rfl⟩

/-- Indices of the expected type are mapped back to the values. -/
theorem dictIndexToData_indicesOf {t : PrimType} (ht : t.dictSupported = true)
    {dict : List Scalar} {vs : List (Option Scalar)} (h : Covers dict vs) :
    dictIndexToData (.prim t.decodedDict (dict.map some))
      (.prim (indexDtype dict.length) (indicesOf dict vs)) = .ok (.prim t.decodedDict vs) := by
  obtain ⟨hdown, harray⟩ := downcastType_decodedDict ht
  rw [dictIndexToData, hdown]
  dsimp only
  rw [if_neg (not_not_intro harray), List.length_map, expectedIndexType_eq, indexDowncast,
    if_pos rfl, collect_lookupIndex h]
  rfl

end F3Format
