import F3Format.SampleEnv
import F3Format.SharedDictionary

/-!
# Merging dictionaries

`merge_with` puts the values that two dictionaries share in front of both, in one
order, so that the file can store them once. `merge_dicts` merges pairs of similar
dictionaries of one type, each dictionary with at most one peer: whatever the
similarities are, the result is a symmetric matching of dictionaries with a
common first part (`mergeDicts_sound`).
-/

set_option autoImplicit false

namespace F3Format

open Lib

namespace TypedDict

/-! ## Two dictionaries -/

section Values

variable {d self other : TypedDict Scalar Scalar}

/-- The key of a scalar is the scalar. -/
theorem keys_scalar (d : TypedDict Scalar Scalar) : d.keys = d.dictionary :=
  List.map_id d.dictionary

theorem hashKey_scalar (v : Scalar) : (hashKey v : Scalar) = v := rfl

theorem map_hashKey (vs : List Scalar) : vs.map (hashKey (U := Scalar)) = vs := List.map_id vs

theorem Valid.nodup_dictionary (h : d.Valid) : d.dictionary.Nodup := keys_scalar d ▸ h.nodup

/-- The values that both dictionaries have. -/
theorem mem_commonValues {v : Scalar} :
    v ∈ commonValues self other ↔ v ∈ self.dictionary ∧ v ∈ other.dictionary := by
  rw [commonValues, List.mem_filter, decide_eq_true_iff, keys_scalar, hashKey_scalar, and_comm]

/-- Inserting values in front of a dictionary that has them all reorders it. -/
theorem insertAll_perm {common vs : List Scalar} (hcommon : common.Nodup) (hvs : vs.Nodup)
    (hsub : ∀ v ∈ common, v ∈ vs) : (insertAll (hashKey (U := Scalar)) common vs).Perm vs := by
  have hnodup : (insertAll (hashKey (U := Scalar)) common vs).Nodup := by
    have h : ((insertAll (hashKey (U := Scalar)) common vs).map (hashKey (U := Scalar))).Nodup :=
      nodup_insertAll _ vs (by rwa [map_hashKey])
    rwa [map_hashKey] at h
  rw [List.perm_ext_iff_of_nodup hnodup hvs]
  intro v
  constructor
  · intro h
    rcases mem_insertAll _ h with h | h
    · exact hsub v h
    · exact h
  · intro h
    have hkey : (hashKey v : Scalar) ∈
        (insertAll (hashKey (U := Scalar)) common vs).map (hashKey (U := Scalar)) :=
      key_mem_insertAll _ h
    rwa [map_hashKey] at hkey

/-- The indices of a dictionary are positions in it. -/
theorem extend_of_subset (hd : d.Valid) {arr : List (Option Scalar)}
    (hsub : ∀ v, some v ∈ arr → v ∈ d.dictionary) :
    (d.extend arr).1.dictionary = d.dictionary ∧
      (d.extend arr).2.map (fun o => o.bind fun i => d.dictionary[i]?) = arr := by
  obtain ⟨-, hdict, hindices⟩ := foldl_extendOne_spec hd arr
  have hsame : (arr.foldl extendOne d).dictionary = d.dictionary := by
    rw [hdict]
    refine insertAll_of_forall_mem _ fun v hv => ?_
    rw [map_hashKey]
    exact hsub v (List.reduceOption_mem_iff.1 hv)
  refine ⟨hsame, ?_⟩
  have hslice : (d.extend arr).2 = arr.map fun o => o.bind fun v => d.dictionary.idxOf? v := by
    show (arr.foldl extendOne d).indices.drop d.indices.length = _
    rw [hindices, List.drop_left, keys_scalar, hsame]
    rfl
  rw [hslice, List.map_map]
  conv => rhs; rw [← List.map_id arr]
  refine List.map_congr_left fun o ho => ?_
  cases o with
  | none => rfl
  | some v =>
      obtain ⟨i, hi, -, hget⟩ := exists_idxOf?_of_mem (hsub v ho)
      show (d.dictionary.idxOf? v).bind (fun i => d.dictionary[i]?) = some v
      rw [hi]
      exact hget

/-- The dictionary after some calls of `extend`. -/
def extendAll (d : TypedDict Scalar Scalar) (arrs : List (List (Option Scalar))) :
    TypedDict Scalar Scalar :=
  arrs.foldl (fun d arr => (d.extend arr).1) d

theorem extendAll_spec (hd : d.Valid) (arrs : List (List (Option Scalar))) :
    (d.extendAll arrs).Valid ∧ d.dictionary <+: (d.extendAll arrs).dictionary := by
  induction arrs generalizing d with
  | nil => exact ⟨hd, List.prefix_rfl⟩
  | cons arr arrs ih =>
      obtain ⟨hvalid, hdict, -⟩ := foldl_extendOne_spec hd arr
      obtain ⟨hvalid', hlater⟩ := ih (d := (d.extend arr).1) hvalid
      refine ⟨hvalid', List.IsPrefix.trans ?_ hlater⟩
      show _ <+: (arr.foldl extendOne d).dictionary
      rw [hdict]
      exact prefix_insertAll _ _ _

/-- Whatever is extended first: extending with these values adds no entry, and
the indices decode to the values. -/
def Remembers (d : TypedDict Scalar Scalar) (submitted : List Scalar) : Prop :=
  ∀ (earlier : List (List (Option Scalar))) (arr : List (Option Scalar)),
    (∀ v, some v ∈ arr → v ∈ submitted) →
      ((d.extendAll earlier).extend arr).1.dictionary = (d.extendAll earlier).dictionary ∧
        ((d.extendAll earlier).extend arr).2.map
          (fun o => o.bind fun i => (d.extendAll earlier).dictionary[i]?) = arr

theorem remembers_of_subset (hd : d.Valid) {submitted : List Scalar}
    (hsub : ∀ v ∈ submitted, v ∈ d.dictionary) : d.Remembers submitted := by
  intro earlier arr harr
  obtain ⟨hvalid, hlater⟩ := extendAll_spec hd earlier
  exact extend_of_subset hvalid fun v hv => hlater.subset (hsub v (harr v hv))

/-- What a merge of two dictionaries with a common value does. -/
structure Merged (d peer d' peer' : TypedDict Scalar Scalar) (l : Nat) : Prop where
  positive : 0 < l
  valid : d'.Valid
  peerValid : peer'.Valid
  perm : d'.dictionary.Perm d.dictionary
  peerPerm : peer'.dictionary.Perm peer.dictionary
  common : d'.dictionary.take l = commonValues d peer
  peerCommon : peer'.dictionary.take l = commonValues d peer
  length : (commonValues d peer).length = l

theorem merged_of_common (hs : self.Valid) (ho : other.Valid) (hne : commonValues self other ≠ []) :
    Merged self other (mergeWith self other).1 (mergeWith self other).2.1
      (mergeWith self other).2.2 := by
  obtain ⟨hvalid, hpeer, hlen, -, hdicts⟩ := mergeWith_spec hs ho
  obtain ⟨hdict, hpeerdict⟩ := hdicts hne
  have hnodup : (commonValues self other).Nodup := ho.nodup_dictionary.filter _
  -- the common values stay in front of whatever is inserted behind them
  have hfront : ∀ vs, (insertAll (hashKey (U := Scalar)) (commonValues self other) vs).take
      (mergeWith self other).2.2 = commonValues self other := by
    intro vs
    rw [hlen]
    exact (List.prefix_iff_eq_take.1 (prefix_insertAll _ _ vs)).symm
  refine ⟨?_, hvalid, hpeer, ?_, ?_, ?_, ?_, hlen.symm⟩
  · rw [hlen]
    exact List.length_pos_iff.2 hne
  · rw [hdict]
    exact insertAll_perm hnodup hs.nodup_dictionary fun v hv => (mem_commonValues.1 hv).1
  · rw [hpeerdict]
    exact insertAll_perm hnodup ho.nodup_dictionary fun v hv => (mem_commonValues.1 hv).2
  · rw [hdict]
    exact hfront _
  · rw [hpeerdict]
    exact hfront _

end Values

/-- **Merging two dictionaries.** Without a common key nothing happens; otherwise
both dictionaries start with the common values, keep their contents, and know all
values submitted before. -/
theorem mergeWith_sound (self other : TypedDict Scalar Scalar) (hs : self.Valid)
    (ho : other.Valid) :
    ((∀ k ∈ self.keys, k ∉ other.keys) → mergeWith self other = (self, other, 0)) ∧
      ((∃ k ∈ self.keys, k ∈ other.keys) → ∃ self' other' l,
        mergeWith self other = (self', other', l) ∧
        l = (other.keys.filter fun k => decide (k ∈ self.keys)).length ∧
        self'.dictionary.take l = other'.dictionary.take l ∧
        (∀ v, v ∈ self'.dictionary.take l ↔ v ∈ self.dictionary ∧ v ∈ other.dictionary) ∧
        self'.dictionary.Perm self.dictionary ∧ other'.dictionary.Perm other.dictionary ∧
        self'.Valid ∧ other'.Valid ∧
        self'.Remembers self.dictionary ∧ other'.Remembers other.dictionary) := by
  constructor
  · intro hdisjoint
    have hnone : commonValues self other = [] := by
      rw [List.eq_nil_iff_forall_not_mem]
      intro v hv
      obtain ⟨hself, hother⟩ := mem_commonValues.1 hv
      rw [← keys_scalar] at hself hother
      exact hdisjoint v hself hother
    obtain ⟨-, -, hlen, hsame, -⟩ := mergeWith_spec hs ho
    obtain ⟨hself, hother⟩ := hsame hnone
    rw [hnone] at hlen
    exact Prod.ext hself (Prod.ext hother hlen)
  · rintro ⟨k, hself, hother⟩
    rw [keys_scalar] at hself hother
    have hne : commonValues self other ≠ [] :=
      List.ne_nil_of_mem (mem_commonValues.2 ⟨hself, hother⟩)
    have h := merged_of_common hs ho hne
    refine ⟨(mergeWith self other).1, (mergeWith self other).2.1, (mergeWith self other).2.2, rfl,
      ?_, h.common.trans h.peerCommon.symm, ?_, h.perm, h.peerPerm, h.valid, h.peerValid, ?_, ?_⟩
    · rw [← h.length, commonValues, keys_scalar, keys_scalar]
      rfl
    · intro v
      rw [h.common]
      exact mem_commonValues
    · exact remembers_of_subset h.valid fun v hv => h.perm.mem_iff.2 hv
    · exact remembers_of_subset h.peerValid fun v hv => h.peerPerm.mem_iff.2 hv

/-- Two overlapping dictionaries. -/
def sampleLeft : TypedDict Scalar Scalar :=
  new.submitValuesNoNull [.int 11, .int 1, .int 3, .int 4, .int 2, .int 6, .int 4, .int 3]

def sampleRight : TypedDict Scalar Scalar :=
  new.submitValuesNoNull [.int 3, .int 5, .int 1, .int 2, .int 19, .int 2, .int 6]

theorem valid_sampleLeft : sampleLeft.Valid := (submitValuesNoNull_spec valid_new _).1

theorem valid_sampleRight : sampleRight.Valid := (submitValuesNoNull_spec valid_new _).1

theorem mergeWith_sound_sample : ∃ self' other' l,
    mergeWith sampleLeft sampleRight = (self', other', l) ∧
      l = (sampleRight.keys.filter fun k => decide (k ∈ sampleLeft.keys)).length ∧
      self'.dictionary.take l = other'.dictionary.take l ∧
      (∀ v, v ∈ self'.dictionary.take l ↔
        v ∈ sampleLeft.dictionary ∧ v ∈ sampleRight.dictionary) ∧
      self'.dictionary.Perm sampleLeft.dictionary ∧
      other'.dictionary.Perm sampleRight.dictionary ∧ self'.Valid ∧ other'.Valid ∧
      self'.Remembers sampleLeft.dictionary ∧ other'.Remembers sampleRight.dictionary :=
  (mergeWith_sound sampleLeft sampleRight valid_sampleLeft valid_sampleRight).2
    ⟨.int 1, by decide, by decide⟩

end TypedDict

/-! ## All dictionaries -/

namespace SharedDictionaryContext

/-- The merge result is a symmetric partial matching of dictionaries of one type
with a common first part; nothing else has happened to the dictionaries. -/
structure MergeSound (dicts dicts' : List Dictionary) (mergeRes : List (Option (Nat × Nat))) :
    Prop where
  length : dicts'.length = dicts.length
  mergeResLength : mergeRes.length = dicts.length
  symmetric : ∀ i j l : Nat, mergeRes[i]? = some (some (j, l)) ↔ mergeRes[j]? = some (some (i, l))
  matched : ∀ i j l : Nat, mergeRes[i]? = some (some (j, l)) → i ≠ j ∧ ∃ d peer,
    dicts'[i]? = some d ∧ dicts'[j]? = some peer ∧ d.datatype = peer.datatype ∧ 1 ≤ l ∧
      l ≤ d.len ∧ l ≤ peer.len ∧ d.values.take l = peer.values.take l
  kept : ∀ (i : Nat) (d : Dictionary), dicts[i]? = some d → ∃ d', dicts'[i]? = some d' ∧
    d'.datatype = d.datatype ∧ d'.values.Perm d.values
  unmatched : ∀ i : Nat, mergeRes[i]? = some none → dicts'[i]? = dicts[i]?
  valid : ∀ d ∈ dicts', d.typedDict.Valid

/-- The two dictionaries of an edge are different ones of the same type. -/
def SimilarityEdge.Fits (dicts : List Dictionary) (edge : SimilarityEdge) : Prop :=
  edge.i ≠ edge.j ∧ ∃ di dj, dicts[edge.i]? = some di ∧ dicts[edge.j]? = some dj ∧
    di.datatype = dj.datatype

/-- Nothing is merged yet. -/
theorem mergeSound_start {dicts : List Dictionary} (hvalid : ∀ d ∈ dicts, d.typedDict.Valid) :
    MergeSound dicts dicts (List.replicate dicts.length none) where
  length := rfl
  mergeResLength := List.length_replicate
  symmetric := by
    intro i j l
    constructor
    · intro h
      cases (List.mem_replicate.1 (List.mem_of_getElem? h)).2
    · intro h
      cases (List.mem_replicate.1 (List.mem_of_getElem? h)).2
  matched := by
    intro i j l h
    cases (List.mem_replicate.1 (List.mem_of_getElem? h)).2
  kept := fun _ d hd => ⟨d, hd, rfl, List.Perm.refl _⟩
  unmatched := fun _ _ => rfl
  valid := hvalid

section Step

variable {dicts dicts' : List Dictionary} {mergeRes : List (Option (Nat × Nat))} {a b l : Nat}
  {da db da' db' : Dictionary}

theorem getElem?_set_set {α : Type} {xs : List α} {x y : α} {k : Nat} (hab : a ≠ b)
    (ha : a < xs.length) (hb : b < xs.length) :
    ((xs.set a x).set b y)[k]? = if k = b then some y else if k = a then some x else xs[k]? := by
  by_cases hkb : k = b
  · subst hkb
    rw [if_pos rfl, List.getElem?_set_self (by rwa [List.length_set])]
  · rw [if_neg hkb, List.getElem?_set_ne (Ne.symm hkb)]
    by_cases hka : k = a
    · subst hka
      rw [if_pos rfl, List.getElem?_set_self ha]
    · rw [if_neg hka, List.getElem?_set_ne (Ne.symm hka)]

theorem set_eq_self {α : Type} {xs : List α} {x : α} {k : Nat} (h : xs[k]? = some x) :
    xs.set k x = xs := by
  obtain ⟨hk, rfl⟩ := List.getElem?_eq_some_iff.1 h
  exact List.set_getElem_self hk

/-- A pair of unmatched dictionaries of one type is merged and recorded. -/
theorem MergeSound.merge (h : MergeSound dicts dicts' mergeRes) (hab : a ≠ b)
    (hafree : mergeRes[a]? = some none) (hbfree : mergeRes[b]? = some none)
    (ha : dicts'[a]? = some da) (hb : dicts'[b]? = some db) (htype : da.datatype = db.datatype)
    (hatype : da'.datatype = da.datatype) (hbtype : db'.datatype = db.datatype)
    (hm : TypedDict.Merged da.typedDict db.typedDict da'.typedDict db'.typedDict l) :
    MergeSound dicts ((dicts'.set a da').set b db')
      ((mergeRes.set a (some (b, l))).set b (some (a, l))) := by
  have halt : a < dicts'.length := (List.getElem?_eq_some_iff.1 ha).1
  have hblt : b < dicts'.length := (List.getElem?_eq_some_iff.1 hb).1
  have hres : ∀ k, ((mergeRes.set a (some (b, l))).set b (some (a, l)))[k]? =
      if k = b then some (some (a, l)) else if k = a then some (some (b, l)) else mergeRes[k]? :=
    fun k => getElem?_set_set hab (List.getElem?_eq_some_iff.1 hafree).1
      (List.getElem?_eq_some_iff.1 hbfree).1
  have hdict : ∀ k, ((dicts'.set a da').set b db')[k]? =
      if k = b then some db' else if k = a then some da' else dicts'[k]? :=
    fun k => getElem?_set_set hab halt hblt
  -- the peer of a dictionary that was matched before is neither of the two
  have hold : ∀ i j l', mergeRes[i]? = some (some (j, l')) → i ≠ a ∧ i ≠ b ∧ j ≠ a ∧ j ≠ b := by
    intro i j l' hi
    have hj := (h.symmetric i j l').1 hi
    refine ⟨?_, ?_, ?_, ?_⟩ <;> rintro rfl
    · rw [hafree] at hi; cases hi
    · rw [hbfree] at hi; cases hi
    · rw [hafree] at hj; cases hj
    · rw [hbfree] at hj; cases hj
  have hla : l ≤ da'.len := by
    have hlen := congrArg List.length hm.common
    rw [hm.length, List.length_take] at hlen
    exact Nat.le_trans (Nat.le_of_eq hlen.symm) (Nat.min_le_right ..)
  have hlb : l ≤ db'.len := by
    have hlen := congrArg List.length hm.peerCommon
    rw [hm.length, List.length_take] at hlen
    exact Nat.le_trans (Nat.le_of_eq hlen.symm) (Nat.min_le_right ..)
  have hfirst : da'.values.take l = db'.values.take l := hm.common.trans hm.peerCommon.symm
  have hsymm : ∀ i j l' : Nat, ((mergeRes.set a (some (b, l))).set b (some (a, l)))[i]? =
      some (some (j, l')) → ((mergeRes.set a (some (b, l))).set b (some (a, l)))[j]? =
        some (some (i, l')) := by
    intro i j l' hi
    rw [hres] at hi ⊢
    by_cases hib : i = b
    · rw [if_pos hib] at hi
      cases hi
      rw [if_neg hab, if_pos rfl, hib]
    · rw [if_neg hib] at hi
      by_cases hia : i = a
      · rw [if_pos hia] at hi
        cases hi
        rw [if_pos rfl, hia]
      · rw [if_neg hia] at hi
        obtain ⟨-, -, hja, hjb⟩ := hold i j l' hi
        rw [if_neg hjb, if_neg hja]
        exact (h.symmetric i j l').1 hi
  refine ⟨?_, ?_, fun i j l' => ⟨hsymm i j l', hsymm j i l'⟩, ?_, ?_, ?_, ?_⟩
  · rw [List.length_set, List.length_set]
    exact h.length
  · rw [List.length_set, List.length_set]
    exact h.mergeResLength
  · intro i j l' hi
    rw [hres] at hi
    rw [hdict, hdict]
    have htypes : da'.datatype = db'.datatype := by rw [hatype, hbtype, htype]
    by_cases hib : i = b
    · rw [if_pos hib] at hi
      cases hi
      rw [if_pos hib, if_neg hab, if_pos rfl, hib]
      exact ⟨hab.symm, db', da', rfl, rfl, htypes.symm, hm.positive, hlb, hla, hfirst.symm⟩
    · rw [if_neg hib] at hi
      by_cases hia : i = a
      · rw [if_pos hia] at hi
        cases hi
        rw [if_neg hib, if_pos hia, if_pos rfl, hia]
        exact ⟨hab, da', db', rfl, rfl, htypes, hm.positive, hla, hlb, hfirst⟩
      · rw [if_neg hia] at hi
        obtain ⟨-, -, hja, hjb⟩ := hold i j l' hi
        rw [if_neg hib, if_neg hia, if_neg hjb, if_neg hja]
        exact h.matched i j l' hi
  · intro i d hd
    obtain ⟨d', hd', htype', hperm⟩ := h.kept i d hd
    rw [hdict]
    by_cases hib : i = b
    · rw [hib, hb] at hd'
      cases hd'
      rw [if_pos hib]
      exact ⟨db', rfl, hbtype.trans htype', hm.peerPerm.trans hperm⟩
    · rw [if_neg hib]
      by_cases hia : i = a
      · rw [hia, ha] at hd'
        cases hd'
        rw [if_pos hia]
        exact ⟨da', rfl, hatype.trans htype', hm.perm.trans hperm⟩
      · rw [if_neg hia]
        exact ⟨d', hd', htype', hperm⟩
  · intro i hi
    rw [hres] at hi
    rw [hdict]
    by_cases hib : i = b
    · rw [if_pos hib] at hi
      cases hi
    · rw [if_neg hib] at hi ⊢
      by_cases hia : i = a
      · rw [if_pos hia] at hi
        cases hi
      · rw [if_neg hia] at hi ⊢
        exact h.unmatched i hi
  · intro d hd
    rcases List.mem_or_eq_of_mem_set hd with hd | rfl
    · rcases List.mem_or_eq_of_mem_set hd with hd | rfl
      · exact h.valid d hd
      · exact hm.valid
    · exact hm.peerValid

/-- One edge: nothing happens, or its two dictionaries are merged. -/
theorem mergeEdge_sound {edge : SimilarityEdge} {s : MergeState} (hedge : edge.Fits dicts)
    (h : MergeSound dicts s.dicts s.mergeRes) :
    ∃ s', mergeEdge edge s = .ok s' ∧ MergeSound dicts s'.dicts s'.mergeRes := by
  obtain ⟨hne, di, dj, hi, hj, htype⟩ := hedge
  -- the smaller id comes first
  have hpair : ∃ da db, dicts[min edge.i edge.j]? = some da ∧ dicts[max edge.i edge.j]? = some db ∧
      da.datatype = db.datatype := by
    rcases Nat.le_total edge.i edge.j with hle | hle
    · rw [Nat.min_eq_left hle, Nat.max_eq_right hle]
      exact ⟨di, dj, hi, hj, htype⟩
    · rw [Nat.min_eq_right hle, Nat.max_eq_left hle]
      exact ⟨dj, di, hj, hi, htype.symm⟩
  have hlt : min edge.i edge.j < max edge.i edge.j := by omega
  rw [mergeEdge]
  dsimp only
  rw [if_neg (not_not.2 hlt)]
  generalize min edge.i edge.j = a at hpair hlt ⊢
  generalize max edge.i edge.j = b at hpair hlt ⊢
  obtain ⟨da, db, ha, hb, htype⟩ := hpair
  cases hmatched : s.matched a b with
  | true => exact ⟨s, if_pos rfl, h⟩
  | false =>
      rw [if_neg Bool.false_ne_true]
      -- both dictionaries are still those of the start
      have hfree : ∀ (k : Nat) (d : Dictionary), dicts[k]? = some d →
          (s.mergeRes[k]?.join).isSome = false → s.mergeRes[k]? = some none := by
        intro k d hd hnone
        have hk : k < s.mergeRes.length := by
          rw [h.mergeResLength]
          exact (List.getElem?_eq_some_iff.1 hd).1
        rw [List.getElem?_eq_getElem hk] at hnone ⊢
        rw [Option.isSome_eq_false_iff, Option.isNone_iff_eq_none] at hnone
        rw [show s.mergeRes[k] = none from hnone]
      rw [MergeState.matched, Bool.or_eq_false_iff] at hmatched
      have hafree := hfree a da ha hmatched.1
      have hbfree := hfree b db hb hmatched.2
      have ha' : s.dicts[a]? = some da := (h.unmatched a hafree).trans ha
      have hb' : s.dicts[b]? = some db := (h.unmatched b hbfree).trans hb
      rw [(index_eq_ok _ _ _).2 ha', ok_bind, (index_eq_ok _ _ _).2 hb', ok_bind]
      split
      · exact ⟨s, rfl, h⟩
      · have hstore : ¬ da.datatype.storeType ≠ db.datatype.storeType := by
          rw [htype]
          exact not_not.2 rfl
        rw [Dictionary.mergeWith, if_neg hstore]
        have hda := h.valid da (List.mem_of_getElem? ha')
        have hdb := h.valid db (List.mem_of_getElem? hb')
        cases hcommon : TypedDict.commonValues da.typedDict db.typedDict with
        | nil =>
            -- no overlap: both stay as they are, and nothing is recorded
            obtain ⟨-, -, hlen, hsame, -⟩ := TypedDict.mergeWith_spec hda hdb
            obtain ⟨hself, hother⟩ := hsame hcommon
            rw [hcommon] at hlen
            have hset : (s.dicts.set a da).set b db = s.dicts := by
              rw [set_eq_self ha', set_eq_self hb']
            refine ⟨s, ?_, h⟩
            dsimp only [ok_bind]
            rw [hself, hother, hlen, List.length_nil, if_neg (Nat.lt_irrefl 0)]
            show Except.ok (⟨(s.dicts.set a da).set b db, s.mergeRes⟩ : MergeState) = Except.ok s
            rw [hset]
        | cons v vs =>
            have hm := TypedDict.merged_of_common hda hdb (by rw [hcommon]; exact List.cons_ne_nil _ _)
            refine ⟨_, if_pos hm.positive, ?_⟩
            exact h.merge (Nat.ne_of_lt hlt) hafree hbfree ha' hb' htype rfl rfl hm

/-- Any edges, in any order. -/
theorem mergeEdges_sound : ∀ {edges : List SimilarityEdge} {s : MergeState},
    (∀ edge ∈ edges, edge.Fits dicts) → MergeSound dicts s.dicts s.mergeRes →
      ∃ s', mergeEdges edges s = .ok s' ∧ MergeSound dicts s'.dicts s'.mergeRes
  | [], s, _, h => ⟨s, rfl, h⟩
  | edge :: edges, s, hedges, h => by
      rw [mergeEdges]
      split
      · exact ⟨s, rfl, h⟩
      · obtain ⟨s', hs', h'⟩ := mergeEdge_sound (hedges edge (List.mem_cons_self ..)) h
        rw [hs', ok_bind]
        exact mergeEdges_sound (fun e he => hedges e (List.mem_cons_of_mem _ he)) h'

end Step

/-! ## Groups -/

section Groups

variable {env : Env} {dicts : List Dictionary} {t : PrimType}

theorem mem_sketchGroup {k : Nat} (h : k ∈ sketchGroup dicts t) :
    ∃ d, dicts[k]? = some d ∧ d.datatype = t := by
  obtain ⟨⟨d, k'⟩, hp, rfl⟩ := List.mem_map.1 h
  obtain ⟨hmem, htype⟩ := List.mem_filter.1 hp
  rw [Bool.and_eq_true, decide_eq_true_eq] at htype
  exact ⟨d, List.mem_zipIdx_iff_getElem?.1 hmem, of_decide_eq_true htype.2⟩

theorem nodup_sketchGroup (dicts : List Dictionary) (t : PrimType) :
    (sketchGroup dicts t).Nodup := by
  have hall : (dicts.zipIdx.map Prod.snd).Nodup := by
    rw [List.zipIdx_map_snd]
    exact List.nodup_range'
  exact (List.filter_sublist.map Prod.snd).nodup hall

/-- The edges of a group connect different dictionaries of the type. -/
theorem fits_of_mem_similarityEdges {edge : SimilarityEdge}
    (h : edge ∈ similarityEdges env dicts (sketchGroup dicts t)) : edge.Fits dicts := by
  rw [similarityEdges, (List.perm_insertionSort _ _).mem_iff] at h
  obtain ⟨⟨i, n⟩, hp, he⟩ := List.mem_flatMap.1 h
  obtain ⟨j, hj, rfl⟩ := List.mem_map.1 he
  have hi : (sketchGroup dicts t)[n]? = some i := List.mem_zipIdx_iff_getElem?.1 hp
  obtain ⟨di, hdi, htypei⟩ := mem_sketchGroup (List.mem_of_getElem? hi)
  obtain ⟨dj, hdj, htypej⟩ := mem_sketchGroup (List.mem_of_mem_take hj)
  refine ⟨?_, di, dj, hdi, hdj, htypei.trans htypej.symm⟩
  -- the second dictionary is earlier in the group
  intro hsame
  obtain ⟨m, hm⟩ := List.getElem?_of_mem hj
  have hmn : m < n := by
    have hlt := (List.getElem?_eq_some_iff.1 hm).1
    rw [List.length_take] at hlt
    omega
  have hij : i = j := hsame
  rw [List.getElem?_take_of_lt hmn, ← hij] at hm
  have hnm := (List.getElem?_inj (List.getElem?_eq_some_iff.1 hm).1
    (nodup_sketchGroup dicts t)).1 (hm.trans hi.symm)
  omega

/-- **The groups can be visited in any order.** -/
theorem mergeGroups_sound : ∀ (types : List PrimType) {s : MergeState},
    MergeSound dicts s.dicts s.mergeRes →
      ∃ s', mergeGroups env dicts types s = .ok s' ∧ MergeSound dicts s'.dicts s'.mergeRes
  | [], s, h => ⟨s, rfl, h⟩
  | t :: ts, s, h => by
      have hgroup : ∃ s', mergeGroup env dicts t s = .ok s' ∧
          MergeSound dicts s'.dicts s'.mergeRes := by
        rw [mergeGroup]
        split
        · exact ⟨s, rfl, h⟩
        · exact mergeEdges_sound (fun edge he => fits_of_mem_similarityEdges he) h
      obtain ⟨s', hs', h'⟩ := hgroup
      rw [mergeGroups, hs', ok_bind]
      exact mergeGroups_sound ts h'

end Groups

/-- **`merge_dicts` computes a sound matching**, whatever the similarities and the
order of the groups are. -/
theorem mergeDicts_sound (env : Env) (dicts : List Dictionary) (isMultiColSharing : Bool)
    (compressionType : CompressionType) (hvalid : ∀ d ∈ dicts, d.typedDict.Valid) :
    (∃ ctx, mergeDicts env ⟨dicts, isMultiColSharing, [], compressionType⟩ = .ok ctx ∧
      MergeSound dicts ctx.dictionaries ctx.mergeResult) ∧
      ∀ types : List PrimType, ∃ s,
        mergeGroups env dicts types ⟨dicts, List.replicate dicts.length none⟩ = .ok s ∧
          MergeSound dicts s.dicts s.mergeRes := by
  have hall : ∀ types : List PrimType, ∃ s,
      mergeGroups env dicts types ⟨dicts, List.replicate dicts.length none⟩ = .ok s ∧
        MergeSound dicts s.dicts s.mergeRes :=
    fun types => mergeGroups_sound types (mergeSound_start hvalid)
  refine ⟨?_, hall⟩
  obtain ⟨s, hs, h⟩ := hall (groupTypes dicts)
  refine ⟨⟨s.dicts, isMultiColSharing, s.mergeRes, compressionType⟩, ?_, h⟩
  rw [mergeDicts]
  dsimp only
  rw [List.take_nil, List.nil_append, List.length_nil, Nat.sub_zero, hs]
  rfl

/-- Two dictionaries of one type. -/
def sampleDictionaries : List Dictionary :=
  [⟨.int32, TypedDict.sampleLeft, PrimType.dictSupported_int32⟩,
    ⟨.int32, TypedDict.sampleRight, PrimType.dictSupported_int32⟩]

theorem mergeDicts_sound_sample :
    ∃ ctx, mergeDicts Sample.env ⟨sampleDictionaries, true, [], .uncompressed⟩ = .ok ctx ∧
      MergeSound sampleDictionaries ctx.dictionaries ctx.mergeResult := by
  refine (mergeDicts_sound Sample.env sampleDictionaries true .uncompressed ?_).1
  intro d hd
  rcases List.mem_pair.1 hd with rfl | rfl
  · exact TypedDict.valid_sampleLeft
  · exact TypedDict.valid_sampleRight

end SharedDictionaryContext

end F3Format
