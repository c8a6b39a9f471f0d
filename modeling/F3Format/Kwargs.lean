import F3Format.Context
import F3Format.Lib.Chunks

/-!
# Decoding arguments

`fff-ude/src/kwargs.rs`: the key and word byte strings handed to a decoder as
one buffer, which holds the number of keys, the two tables of lengths and the
keys and words in turn. Reading recomputes every boundary from a running
offset. The main result is `kwargsDeserialize_kwargsSerialize`.
-/

set_option autoImplicit false

namespace F3Format

open Lib

/-! ## `i32` -/

/-- `n as i32`, of an unsigned integer. -/
def asI32 (n : Nat) : Int :=
  if n % 2 ^ 32 < 2 ^ 31 then ((n % 2 ^ 32 : Nat) : Int)
  else ((n % 2 ^ 32 : Nat) : Int) - 2 ^ 32

/-- `i32::to_le_bytes`. -/
def i32ToLeBytes (i : Int) : Bytes := leEncode 4 (i % 2 ^ 32).toNat

/-- `i32::from_le_bytes`. -/
def i32FromLeBytes (bytes : Bytes) : Int := asI32 (leDecode bytes)

/-- `i as usize`, which extends the sign. -/
def asUsize (i : Int) : Nat := (i % 2 ^ 64).toNat

theorem asI32_of_lt {n : Nat} (h : n < 2 ^ 31) : asI32 n = n := by
  have hmod : n % 2 ^ 32 = n := Nat.mod_eq_of_lt (by omega)
  rw [asI32, hmod, if_pos h]

@[simp] theorem length_i32ToLeBytes (i : Int) : (i32ToLeBytes i).length = 4 :=
  length_leEncode 4 _

/-- A length below `2 ^ 31` comes back. -/
theorem asUsize_i32FromLeBytes {n : Nat} (h : n < 2 ^ 31) :
    asUsize (i32FromLeBytes (i32ToLeBytes (asI32 n))) = n := by
  have hbytes : leDecode (i32ToLeBytes (asI32 n)) = n := by
    rw [asI32_of_lt h, i32ToLeBytes]
    have hnat : ((n : Int) % 2 ^ 32).toNat = n := by omega
    rw [hnat]
    exact leDecode_leEncode_of_lt (by omega)
  rw [i32FromLeBytes, hbytes, asI32_of_lt h, asUsize]
  omega

/-! ## Writing and reading -/

/-- `HashMap<&[u8], &[u8]>`. -/
abbrev KwargsMap := AList fun _ : Bytes => Bytes

/-- `kwargs_serialize`. -/
def kwargsSerialize (kwargs : List (Bytes × Bytes)) : Bytes :=
  let numKeys := asI32 kwargs.length
  let keyLens := kwargs.map fun p => asI32 p.1.length
  let wordLens := kwargs.map fun p => asI32 p.2.length
  i32ToLeBytes numKeys ++ keyLens.flatMap i32ToLeBytes ++ wordLens.flatMap i32ToLeBytes ++
    kwargs.flatMap fun p => p.1 ++ p.2

/-- One table of lengths. -/
def readLens (bytes : Bytes) (start stop : Nat) : Result (List Int) := do
  let table ← sliceRange bytes start stop
  pure ((chunksExact 4 table).map i32FromLeBytes)

/-- One turn of the loop of `kwargs_deserialize`; the state is `data_offset` and `result`. -/
def readPair (bytes : Bytes) (keyLens wordLens : List Int) (s : Nat × KwargsMap) (i : Nat) :
    Result (Nat × KwargsMap) := do
  let keyLen := asUsize (← index keyLens i)
  let wordLen := asUsize (← index wordLens i)
  let keyEnd := s.1 + keyLen
  let key ← sliceRange bytes s.1 keyEnd
  let wordEnd := keyEnd + wordLen
  let word ← sliceRange bytes keyEnd wordEnd
  pure (wordEnd, s.2.insert key word)

/-- `kwargs_deserialize`. -/
def kwargsDeserialize (bytes : Bytes) : Result KwargsMap := do
  let numKeys := asUsize (i32FromLeBytes (← sliceRange bytes 0 4))
  let keyLensEnd := 4 + numKeys * 4
  let keyLens ← readLens bytes 4 keyLensEnd
  let wordLensEnd := keyLensEnd + numKeys * 4
  let wordLens ← readLens bytes keyLensEnd wordLensEnd
  let s ← (List.range numKeys).foldlM (readPair bytes keyLens wordLens) (wordLensEnd, ∅)
  pure s.2

/-! ## The round trip -/

/-- The word of the last pair with the key. -/
def lastWord (kwargs : List (Bytes × Bytes)) (key : Bytes) : Option Bytes :=
  (kwargs.filter fun p => p.1 = key).getLast?.map Prod.snd

/-- The map after the pairs have been inserted in order. -/
def insertPairs (kwargs : List (Bytes × Bytes)) : KwargsMap :=
  kwargs.foldl (fun m p => m.insert p.1 p.2) ∅

theorem insertPairs_snoc (kwargs : List (Bytes × Bytes)) (p : Bytes × Bytes) :
    insertPairs (kwargs ++ [p]) = (insertPairs kwargs).insert p.1 p.2 := by
  rw [insertPairs, List.foldl_append]
  rfl

theorem lastWord_snoc (kwargs : List (Bytes × Bytes)) (p : Bytes × Bytes) (key : Bytes) :
    lastWord (kwargs ++ [p]) key = if p.1 = key then some p.2 else lastWord kwargs key := by
  rw [lastWord, List.filter_append]
  by_cases h : p.1 = key
  · simp [h]
  · simp [h, lastWord]

/-- Inserting in order keeps the last word of every key. -/
theorem lookup_insertPairs (kwargs : List (Bytes × Bytes)) (key : Bytes) :
    (insertPairs kwargs).lookup key = lastWord kwargs key := by
  induction kwargs using List.reverseRecOn with
  | nil => rfl
  | append_singleton kwargs p ih =>
      rw [insertPairs_snoc, lastWord_snoc]
      by_cases h : p.1 = key
      · rw [if_pos h, ← h, AList.lookup_insert]
      · rw [if_neg h, AList.lookup_insert_ne (Ne.symm h), ih]

section RoundTrip

variable {kwargs : List (Bytes × Bytes)}

theorem length_flatMap_i32ToLeBytes (is : List Int) :
    (is.flatMap i32ToLeBytes).length = is.length * 4 := by
  induction is with
  | nil => rfl
  | cons i is ih =>
      rw [List.flatMap_cons, List.length_append, ih, length_i32ToLeBytes, List.length_cons]
      omega

theorem readLens_of_holdsAt {bytes : Bytes} {is : List Int} {start stop : Nat}
    (h : HoldsAt bytes start (is.flatMap i32ToLeBytes)) (hstop : stop = start + is.length * 4) :
    readLens bytes start stop = .ok (is.map fun i => i32FromLeBytes (i32ToLeBytes i)) := by
  rw [readLens, sliceRange_of_holdsAt h (by rw [length_flatMap_i32ToLeBytes, hstop]), ok_bind,
    chunksExact_flatMap (by decide) fun i _ => length_i32ToLeBytes i, List.map_map]
  rfl

/-- One turn reads the pair at the offset and moves behind it. -/
theorem readPair_ok {bytes : Bytes} {keyLens wordLens : List Int} {offset i : Nat}
    {m : KwargsMap} {p : Bytes × Bytes} {n k : Int} (hkey : keyLens[i]? = some n)
    (hword : wordLens[i]? = some k) (hn : asUsize n = p.1.length) (hk : asUsize k = p.2.length)
    (hat : HoldsAt bytes offset (p.1 ++ p.2)) :
    readPair bytes keyLens wordLens (offset, m) i =
      .ok (offset + (p.1 ++ p.2).length, m.insert p.1 p.2) := by
  have hfirst : index keyLens i = .ok n := (index_eq_ok ..).2 hkey
  have hsecond : index wordLens i = .ok k := (index_eq_ok ..).2 hword
  have hkeyBytes : sliceRange bytes offset (offset + p.1.length) = .ok p.1 :=
    sliceRange_of_holdsAt hat.left rfl
  have hwordBytes : sliceRange bytes (offset + p.1.length)
      (offset + p.1.length + p.2.length) = .ok p.2 := sliceRange_of_holdsAt hat.right rfl
  simp only [readPair, hfirst, hsecond, ok_bind, hn, hk, hkeyBytes, hwordBytes, pure_eq_ok]
  rw [List.length_append, Nat.add_assoc]

/-- The loop, started behind the pairs `done`, inserts the rest. -/
theorem readPairs_ok {bytes : Bytes} {keyLens wordLens : List Int} {start : Nat}
    (hkeys : ∀ (i : Nat) (p : Bytes × Bytes), kwargs[i]? = some p →
      ∃ n, keyLens[i]? = some n ∧ asUsize n = p.1.length)
    (hwords : ∀ (i : Nat) (p : Bytes × Bytes), kwargs[i]? = some p →
      ∃ k, wordLens[i]? = some k ∧ asUsize k = p.2.length)
    (hat : HoldsAt bytes start (kwargs.flatMap fun p => p.1 ++ p.2))
    (done rest : List (Bytes × Bytes)) (hsplit : kwargs = done ++ rest) :
    (List.range' done.length rest.length).foldlM (readPair bytes keyLens wordLens)
        (start + (done.flatMap fun p => p.1 ++ p.2).length, insertPairs done) =
      .ok (start + (kwargs.flatMap fun p => p.1 ++ p.2).length, insertPairs kwargs) := by
  induction rest generalizing done with
  | nil =>
      rw [List.append_nil] at hsplit
      subst hsplit
      rfl
  | cons p rest ih =>
      have hp : kwargs[done.length]? = some p := by
        rw [hsplit, List.getElem?_append_right (Nat.le_refl _), Nat.sub_self]
        rfl
      obtain ⟨n, hkey, hn⟩ := hkeys _ p hp
      obtain ⟨k, hword, hk⟩ := hwords _ p hp
      -- the payload lies behind that of the pairs already read
      have hpayload : HoldsAt bytes (start + (done.flatMap fun p => p.1 ++ p.2).length)
          (p.1 ++ p.2) := by
        rw [hsplit, List.flatMap_append, List.flatMap_cons] at hat
        exact hat.right.left
      have hnext := ih (done ++ [p]) (by rw [hsplit, List.append_assoc]; rfl)
      rw [List.length_append, List.length_singleton, insertPairs_snoc, List.flatMap_append,
        List.length_append, List.flatMap_singleton, ← Nat.add_assoc] at hnext
      rw [List.length_cons, List.range'_succ, List.foldlM_cons,
        readPair_ok hkey hword hn hk hpayload]
      exact hnext

/-- **Round trip of the arguments**: every key is sent to its last word, and
there is no other key. -/
theorem kwargsDeserialize_kwargsSerialize (hlen : kwargs.length < 2 ^ 31)
    (hkeys : ∀ p ∈ kwargs, p.1.length < 2 ^ 31) (hwords : ∀ p ∈ kwargs, p.2.length < 2 ^ 31) :
    ∃ m, kwargsDeserialize (kwargsSerialize kwargs) = .ok m ∧
      ∀ key, m.lookup key = lastWord kwargs key := by
  have hself := holdsAt_self (kwargsSerialize kwargs)
  -- the four sections of the buffer
  have hcount : HoldsAt (kwargsSerialize kwargs) 0 (i32ToLeBytes (asI32 kwargs.length)) :=
    hself.left.left.left
  have hkeyTable := hself.left.left.right
  have hwordTable := hself.left.right
  have hdata := hself.right
  simp only [List.length_append, length_i32ToLeBytes, length_flatMap_i32ToLeBytes,
    List.length_map, Nat.zero_add] at hkeyTable hwordTable hdata
  refine ⟨insertPairs kwargs, ?_, lookup_insertPairs kwargs⟩
  have hread : sliceRange (kwargsSerialize kwargs) 0 4 = .ok (i32ToLeBytes (asI32 kwargs.length)) :=
    sliceRange_of_holdsAt hcount (by rw [length_i32ToLeBytes])
  rw [kwargsDeserialize, hread, ok_bind]
  simp only [asUsize_i32FromLeBytes hlen]
  rw [readLens_of_holdsAt hkeyTable (by rw [List.length_map]), ok_bind,
    readLens_of_holdsAt hwordTable (by rw [List.length_map]), ok_bind]
  have hloop : (List.range' 0 kwargs.length).foldlM
      (readPair (kwargsSerialize kwargs)
        ((kwargs.map fun p => asI32 p.1.length).map fun i => i32FromLeBytes (i32ToLeBytes i))
        ((kwargs.map fun p => asI32 p.2.length).map fun i => i32FromLeBytes (i32ToLeBytes i)))
      (4 + kwargs.length * 4 + kwargs.length * 4, ∅) =
        .ok (4 + kwargs.length * 4 + kwargs.length * 4 +
          (kwargs.flatMap fun p => p.1 ++ p.2).length, insertPairs kwargs) := by
    refine readPairs_ok ?_ ?_ hdata [] kwargs rfl
    · intro i p hp
      refine ⟨_, by rw [List.getElem?_map, List.getElem?_map, hp]; rfl, ?_⟩
      exact asUsize_i32FromLeBytes (hkeys p (List.mem_of_getElem? hp))
    · intro i p hp
      refine ⟨_, by rw [List.getElem?_map, List.getElem?_map, hp]; rfl, ?_⟩
      exact asUsize_i32FromLeBytes (hwords p (List.mem_of_getElem? hp))
  rw [List.range_eq_range', hloop]
  rfl

/-- A repeated key, an empty key and an empty word. -/
theorem kwargsDeserialize_sample :
    ∃ m, kwargsDeserialize (kwargsSerialize [([1], [2]), ([], [3]), ([1], [])]) = .ok m ∧
      ∀ key, m.lookup key = lastWord [([1], [2]), ([], [3]), ([1], [])] key :=
  kwargsDeserialize_kwargsSerialize (by decide) (by decide) (by decide)

example : lastWord [([1], [2]), ([], [3]), ([1], [])] [1] = some [] := by decide

end RoundTrip

end F3Format
