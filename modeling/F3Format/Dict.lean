import F3Format.EncUnit
import F3Format.Lib.KeyIndex

/-!
# Dictionaries

`dict.rs` and `dict/dict_hash.rs`: a typed dictionary numbers values by first
occurrence and looks them up by a hash key; `Dictionary` is the same over Arrow
arrays. The key of a float is its bit pattern, the key of every other value the
value itself, so on `Scalar` the key is the identity.
-/

set_option autoImplicit false

namespace F3Format

open Lib

/-- `DictHash<U>` for `T`: the key a value is looked up by. -/
class DictHash (T U : Type) where
  dictHash : T → U

/-- `TypedDict<T, U>`. The hash map is an association list, newest entry first. -/
structure TypedDict (T U : Type) where
  dictionary : List T
  indices : List (Option Nat)
  keyToInd : List (U × Nat)

namespace TypedDict

variable {T U : Type} [DictHash T U] [DecidableEq U]

/-- `TypedDict::new`. -/
def new : TypedDict T U := ⟨[], [], []⟩

/-- `TypedDict::len`. -/
def len (d : TypedDict T U) : Nat := d.dictionary.length

/-- One iteration of the loop of `extend`. -/
def extendOne (d : TypedDict T U) : Option T → TypedDict T U
  | none => { d with indices := d.indices ++ [none] }
  | some val =>
      let hashVal : U := DictHash.dictHash val
      match d.keyToInd.lookup hashVal with
      | some ind => { d with indices := d.indices ++ [some ind] }
      | none =>
          let ind := d.dictionary.length
          { dictionary := d.dictionary ++ [val]
            indices := d.indices ++ [some ind]
            keyToInd := (hashVal, ind) :: d.keyToInd }

/-- `TypedDict::extend`, with the slice of indices it returns. -/
def extend (d : TypedDict T U) (arr : List (Option T)) : TypedDict T U × List (Option Nat) :=
  let sliceBeginIdx := d.indices.length
  let d' := arr.foldl extendOne d
  (d', d'.indices.drop sliceBeginIdx)

/-- One iteration of the loops of `submit_values` and `submit_values_no_null`. -/
def submitOne (d : TypedDict T U) (val : T) : TypedDict T U :=
  let hashVal : U := DictHash.dictHash val
  match d.keyToInd.lookup hashVal with
  | some _ => d
  | none =>
      { d with
        dictionary := d.dictionary ++ [val]
        keyToInd := (hashVal, d.dictionary.length) :: d.keyToInd }

/-- `submit_values_no_null`. -/
def submitValuesNoNull (d : TypedDict T U) (arr : List T) : TypedDict T U :=
  arr.foldl submitOne d

/-- `submit_values`: nulls are flattened away. -/
def submitValues (d : TypedDict T U) (arr : List (Option T)) : TypedDict T U :=
  submitValuesNoNull d arr.reduceOption

/-- `merge_with`: both dictionaries, then the number of common values. -/
def mergeWith (self other : TypedDict T U) : TypedDict T U × TypedDict T U × Nat :=
  let commonValues := other.dictionary.filter fun val =>
    (self.keyToInd.lookup (DictHash.dictHash val : U)).isSome
  if commonValues.isEmpty then (self, other, 0)
  else
    let self' := { self with dictionary := [], keyToInd := [] }
    let other' := { other with dictionary := [], keyToInd := [] }
    (submitValuesNoNull (submitValuesNoNull self' commonValues) self.dictionary,
      submitValuesNoNull (submitValuesNoNull other' commonValues) other.dictionary,
      commonValues.length)

/-- The keys in dictionary order. -/
def keys (d : TypedDict T U) : List U := d.dictionary.map DictHash.dictHash

/-- The keys are distinct and the hash map is the inverse of the dictionary. -/
structure Valid (d : TypedDict T U) : Prop where
  nodup : d.keys.Nodup
  lookup : ∀ k, d.keyToInd.lookup k = d.keys.idxOf? k

theorem valid_new : (new : TypedDict T U).Valid := ⟨List.nodup_nil, fun _ => rfl⟩

/-- The key function of `insertAll` for these dictionaries. -/
abbrev hashKey : T → U := DictHash.dictHash

theorem lookup_cons_self_eq (m : List (U × Nat)) (k k' : U) (n : Nat) :
    List.lookup k ((k', n) :: m) = if k = k' then some n else m.lookup k := by
  by_cases h : k = k'
  · subst h
    simp
  · have hb : (k == k') = false := by simpa using h
    simp [List.lookup_cons, hb, h]

/-- Adding a value with a new key keeps the map the inverse of the dictionary. -/
theorem valid_push {d : TypedDict T U} (hd : d.Valid) (val : T) (indices : List (Option Nat))
    (h : (hashKey val : U) ∉ d.keys) :
    (⟨d.dictionary ++ [val], indices, (hashKey val, d.dictionary.length) :: d.keyToInd⟩ :
      TypedDict T U).Valid := by
  have hkeys : (⟨d.dictionary ++ [val], indices,
      (hashKey val, d.dictionary.length) :: d.keyToInd⟩ : TypedDict T U).keys =
        d.keys ++ [hashKey val] := by
    simp [keys]
  constructor
  · rw [hkeys, List.nodup_append]
    refine ⟨hd.nodup, List.nodup_singleton _, ?_⟩
    intro a ha b hb e
    rw [List.mem_singleton] at hb
    subst hb
    exact h (e ▸ ha)
  · intro k
    rw [hkeys, idxOf?_append_singleton h]
    show List.lookup k ((hashKey val, d.dictionary.length) :: d.keyToInd) = _
    rw [lookup_cons_self_eq, hd.lookup k]
    simp [keys]

theorem valid_with_indices {d : TypedDict T U} (hd : d.Valid) (indices : List (Option Nat)) :
    ({ d with indices := indices } : TypedDict T U).Valid := ⟨hd.nodup, hd.lookup⟩

theorem lookup_eq_none_iff {d : TypedDict T U} (hd : d.Valid) (k : U) :
    d.keyToInd.lookup k = none ↔ k ∉ d.keys := by
  rw [hd.lookup]
  simp

theorem extendOne_some_spec {d : TypedDict T U} (hd : d.Valid) (val : T) :
    (extendOne d (some val)).Valid ∧
      (extendOne d (some val)).dictionary = insertNew (hashKey (U := U)) d.dictionary val ∧
      (extendOne d (some val)).indices =
        d.indices ++ [(extendOne d (some val)).keys.idxOf? (hashKey val)] := by
  cases hl : d.keyToInd.lookup (hashKey val : U) with
  | some ind =>
      have hmem : (hashKey val : U) ∈ d.keys := by
        by_contra hn
        rw [(lookup_eq_none_iff hd _).2 hn] at hl
        cases hl
      have he : extendOne d (some val) = { d with indices := d.indices ++ [some ind] } := by
        simp only [extendOne]
        rw [show d.keyToInd.lookup (DictHash.dictHash val : U) = some ind from hl]
      rw [he]
      refine ⟨valid_with_indices hd _, (if_pos hmem).symm, ?_⟩
      have hk := hd.lookup (hashKey val)
      rw [hl] at hk
      show d.indices ++ [some ind] = d.indices ++ [d.keys.idxOf? (hashKey val)]
      rw [← hk]
  | none =>
      have hmem := (lookup_eq_none_iff hd _).1 hl
      have he : extendOne d (some val) =
          ⟨d.dictionary ++ [val], d.indices ++ [some d.dictionary.length],
            (hashKey val, d.dictionary.length) :: d.keyToInd⟩ := by
        simp only [extendOne]
        rw [show d.keyToInd.lookup (DictHash.dictHash val : U) = none from hl]
      rw [he]
      refine ⟨valid_push hd val _ hmem, (if_neg hmem).symm, ?_⟩
      have hk : (d.keys ++ [hashKey val]).idxOf? (hashKey val : U) = some d.dictionary.length := by
        rw [idxOf?_append_singleton hmem, if_pos rfl]
        simp [keys]
      simp only [keys, List.map_append, List.map_singleton] at hk ⊢
      rw [hk]

/-- One `extend` step: the dictionary grows by first occurrence, and the index
recorded for a value is the position of its key. -/
theorem extendOne_spec {d : TypedDict T U} (hd : d.Valid) (o : Option T) :
    (extendOne d o).Valid ∧
      (extendOne d o).dictionary = insertAll (hashKey (U := U)) d.dictionary o.toList ∧
      (extendOne d o).indices =
        d.indices ++ [o.bind fun v => (extendOne d o).keys.idxOf? (hashKey v)] := by
  cases o with
  | none => exact ⟨valid_with_indices hd _, rfl, rfl⟩
  | some val => exact extendOne_some_spec hd val

/-- `extend` over a whole array. -/
theorem foldl_extendOne_spec {d : TypedDict T U} (hd : d.Valid) (arr : List (Option T)) :
    (arr.foldl extendOne d).Valid ∧
      (arr.foldl extendOne d).dictionary =
        insertAll (hashKey (U := U)) d.dictionary arr.reduceOption ∧
      (arr.foldl extendOne d).indices =
        d.indices ++ arr.map fun o => o.bind fun v =>
          (arr.foldl extendOne d).keys.idxOf? (hashKey v) := by
  induction arr generalizing d with
  | nil => exact ⟨hd, rfl, by simp⟩
  | cons o os ih =>
      obtain ⟨h1, h2, h3⟩ := extendOne_spec hd o
      obtain ⟨i1, i2, i3⟩ := ih h1
      have hred : (o :: os).reduceOption = o.toList ++ os.reduceOption := by
        cases o <;> simp [List.reduceOption]
      refine ⟨i1, ?_, ?_⟩
      · rw [List.foldl_cons, i2, h2, hred, insertAll_append]
      · rw [List.foldl_cons, i3, h3, List.append_assoc, List.map_cons]
        congr 1
        -- the index of the first value is already its position in the final dictionary
        cases o with
        | none => rfl
        | some v =>
            have hmem : (hashKey v : U) ∈ (extendOne d (some v)).keys := by
              show _ ∈ (extendOne d (some v)).dictionary.map hashKey
              rw [h2]
              exact key_mem_insertAll hashKey (by simp)
            have hpre : (extendOne d (some v)).keys <+: (os.foldl extendOne (extendOne d (some v))).keys := by
              show (extendOne d (some v)).dictionary.map hashKey <+: List.map hashKey _
              rw [i2]
              exact (prefix_insertAll hashKey _ _).map _
            show [(extendOne d (some v)).keys.idxOf? (hashKey v)] ++ _ = _
            rw [← idxOf?_of_prefix hpre hmem]
            rfl

theorem submitOne_spec {d : TypedDict T U} (hd : d.Valid) (val : T) :
    (submitOne d val).Valid ∧
      (submitOne d val).dictionary = insertNew (hashKey (U := U)) d.dictionary val := by
  cases hl : d.keyToInd.lookup (hashKey val : U) with
  | some ind =>
      have hmem : (hashKey val : U) ∈ d.keys := by
        by_contra hn
        rw [(lookup_eq_none_iff hd _).2 hn] at hl
        cases hl
      have he : submitOne d val = d := by
        simp only [submitOne]
        rw [show d.keyToInd.lookup (DictHash.dictHash val : U) = some ind from hl]
      rw [he]
      exact ⟨hd, (if_pos hmem).symm⟩
  | none =>
      have hmem := (lookup_eq_none_iff hd _).1 hl
      have he : submitOne d val = ⟨d.dictionary ++ [val], d.indices,
          (hashKey val, d.dictionary.length) :: d.keyToInd⟩ := by
        simp only [submitOne]
        rw [show d.keyToInd.lookup (DictHash.dictHash val : U) = none from hl]
      rw [he]
      exact ⟨valid_push hd val _ hmem, (if_neg hmem).symm⟩

theorem submitValuesNoNull_spec {d : TypedDict T U} (hd : d.Valid) (arr : List T) :
    (submitValuesNoNull d arr).Valid ∧
      (submitValuesNoNull d arr).dictionary =
        insertAll (hashKey (U := U)) d.dictionary arr := by
  unfold submitValuesNoNull
  induction arr generalizing d with
  | nil => exact ⟨hd, rfl⟩
  | cons v vs ih =>
      obtain ⟨h1, h2⟩ := submitOne_spec hd v
      obtain ⟨i1, i2⟩ := ih h1
      refine ⟨i1, ?_⟩
      rw [List.foldl_cons, i2, h2, insertAll_cons]

/-- The values of `other` that `self` also has, in the order of `other`. -/
def commonValues (self other : TypedDict T U) : List T :=
  other.dictionary.filter fun val => decide ((hashKey val : U) ∈ self.keys)

theorem mergeWith_common {self other : TypedDict T U} (hs : self.Valid) :
    (other.dictionary.filter fun val =>
      (self.keyToInd.lookup (DictHash.dictHash val : U)).isSome) = commonValues self other := by
  unfold commonValues
  congr 1
  funext val
  rw [Bool.eq_iff_iff, decide_eq_true_iff, Option.isSome_iff_ne_none, Ne,
    lookup_eq_none_iff hs, Decidable.not_not]

/-- What a merge does: with no common value nothing, otherwise both dictionaries
start with the common values and keep the rest in their own order. -/
theorem mergeWith_spec {self other : TypedDict T U} (hs : self.Valid) (ho : other.Valid) :
    (mergeWith self other).1.Valid ∧ (mergeWith self other).2.1.Valid ∧
      (mergeWith self other).2.2 = (commonValues self other).length ∧
      (commonValues self other = [] →
        (mergeWith self other).1 = self ∧ (mergeWith self other).2.1 = other) ∧
      (commonValues self other ≠ [] →
        (mergeWith self other).1.dictionary =
          insertAll (hashKey (U := U)) (commonValues self other) self.dictionary ∧
        (mergeWith self other).2.1.dictionary =
          insertAll (hashKey (U := U)) (commonValues self other) other.dictionary) := by
  unfold mergeWith
  rw [mergeWith_common hs]
  cases hc : commonValues self other with
  | nil => exact ⟨hs, ho, rfl, fun _ => ⟨rfl, rfl⟩, fun h => absurd rfl h⟩
  | cons c cs =>
      have hnodup : ((c :: cs).map (hashKey (T := T) (U := U))).Nodup := by
        rw [← hc]
        exact (List.filter_sublist.map _).nodup ho.nodup
      have hempty : ∀ indices, (⟨[], indices, []⟩ : TypedDict T U).Valid := fun indices =>
        ⟨List.nodup_nil, fun _ => rfl⟩
      have hfirst : ∀ indices,
          (submitValuesNoNull (⟨[], indices, []⟩ : TypedDict T U) (c :: cs)).Valid ∧
          (submitValuesNoNull (⟨[], indices, []⟩ : TypedDict T U) (c :: cs)).dictionary =
            c :: cs := by
        intro indices
        obtain ⟨h1, h2⟩ := submitValuesNoNull_spec (hempty indices) (c :: cs)
        refine ⟨h1, h2.trans ?_⟩
        show insertAll hashKey [] (c :: cs) = [] ++ c :: cs
        exact insertAll_of_nodup hashKey (by simpa using hnodup)
      obtain ⟨s1, s2⟩ := hfirst self.indices
      obtain ⟨o1, o2⟩ := hfirst other.indices
      obtain ⟨s3, s4⟩ := submitValuesNoNull_spec s1 self.dictionary
      obtain ⟨o3, o4⟩ := submitValuesNoNull_spec o1 other.dictionary
      refine ⟨s3, o3, rfl, (fun h => by cases h), fun _ => ⟨?_, ?_⟩⟩
      · rw [s2] at s4
        exact s4
      · rw [o2] at o4
        exact o4

end TypedDict

/-! ## Dictionaries over Arrow arrays -/

/-- The key of a scalar. -/
instance : DictHash Scalar Scalar := ⟨id⟩

/-- `DictHash::hash_to_u64`. -/
def hashToU64 (env : Env) : Scalar → Nat
  | .bool b => b.toNat
  | .int i => (i % 2 ^ 64).toNat
  | .float bits => bits
  | .str s => env.hashString s
  | .bytes _ => 0

/-- The types `Dictionary::try_new` accepts. -/
def PrimType.dictSupported : PrimType → Bool
  | .int32 | .int64 | .float32 | .float64 | .utf8 | .largeUtf8 => true
  | .timestamp _ _ | .time32 _ | .time64 _ | .date32 | .boolean => true
  | _ => false

/-- The Rust array type of a data type: timestamp arrays do not carry the time
zone in their type, and a newly built one has none. -/
def PrimType.arrayType : PrimType → PrimType
  | .timestamp unit _ => .timestamp unit none
  | t => t

/-- The value type a dictionary stores for a data type, by its integer width or kind. -/
def PrimType.storeType : PrimType → PrimType
  | .timestamp _ _ | .time64 _ => .int64
  | .time32 _ | .date32 => .int32
  | .largeUtf8 => .utf8
  | t => t

/-- An index as a value of an index array. -/
def indexScalar (i : Nat) : Scalar := .int i

theorem PrimType.dictSupported_int32 : PrimType.int32.dictSupported = true := rfl

/-- `dict::Dictionary`. Only supported types can be built, so that the final
arm of its methods' matches is never taken. -/
structure Dictionary where
  datatype : PrimType
  typedDict : TypedDict Scalar Scalar
  supported : datatype.dictSupported = true

namespace Dictionary

/-- `Dictionary::try_new`; the text of the error is the type's display form. -/
def tryNew : DataType → Result Dictionary
  | .prim t =>
      if h : t.dictSupported = true then .ok ⟨t, TypedDict.new, h⟩ else fail (.nyi "DataType")
  | _ => fail (.nyi "DataType")

/-- `Dictionary::extend_and_get_index`. -/
def extendAndGetIndex (d : Dictionary) (arr : ArrayRef) : Result (Dictionary × ArrayRef) :=
  if arr.dataType ≠ .prim d.datatype then fail (.general "Data type mismatch")
  else
    let r := d.typedDict.extend arr.rows
    .ok ({ d with typedDict := r.1 },
      .prim .uint64 (r.2.map fun o => o.map indexScalar))

/-- `Dictionary::extend`. -/
def extend (d : Dictionary) (arr : ArrayRef) : Result Dictionary :=
  if arr.dataType ≠ .prim d.datatype then fail (.general "Data type mismatch")
  else .ok { d with typedDict := (d.typedDict.extend arr.rows).1 }

/-- `Dictionary::submit_values`, which checks the array type only. -/
def submitValues (d : Dictionary) (arr : ArrayRef) : Result Dictionary :=
  match arr with
  | .prim t vs =>
      if t.arrayType = d.datatype.arrayType then
        .ok { d with typedDict := d.typedDict.submitValues vs }
      else fail (.general "Array type mismatch in submit values")
  | _ => fail (.general "Array type mismatch in submit values")

/-- `Dictionary::merge_with`. -/
def mergeWith (self other : Dictionary) : Result (Dictionary × Dictionary × Nat) :=
  if self.datatype.storeType ≠ other.datatype.storeType then
    fail (.general "Other dict type mismatch in merge")
  else
    let r := self.typedDict.mergeWith other.typedDict
    .ok ({ self with typedDict := r.1 }, { other with typedDict := r.2.1 }, r.2.2)

/-- The dictionary as an array of its Rust array type. -/
def toArray (d : Dictionary) : ArrayRef :=
  .prim d.datatype.arrayType (d.typedDict.dictionary.map some)

/-- `Dictionary::peek_dict`. -/
def peekDict (d : Dictionary) : ArrayRef := d.toArray

/-- `Dictionary::finish`: the dictionary array and the array of all indices. -/
def finish (d : Dictionary) : ArrayRef × ArrayRef :=
  (d.toArray, .prim .uint64 (d.typedDict.indices.map fun o => o.map indexScalar))

/-- `Dictionary::len`. -/
def len (d : Dictionary) : Nat := d.typedDict.len

/-- `Dictionary::dict_hash_iter`. -/
def dictHashIter (env : Env) (d : Dictionary) : List Nat :=
  d.typedDict.dictionary.map (hashToU64 env)

/-- The values in order. -/
def values (d : Dictionary) : List Scalar := d.typedDict.dictionary

end Dictionary

end F3Format
