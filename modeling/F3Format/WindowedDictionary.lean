import F3Format.Context
import F3Format.Lib.Chunks
import F3Format.Lib.KeyIndex

/-!
# The windowed dictionary codec

`encode_custom` and `decode_custom` of `wasm-libs/wasm-test-encoders/src/lib.rs`:
every window of 128 values is written as a one-byte code, the codes being given
out in the order in which new windows occur, and the dictionary of windows follows
the codes. The validity buffer stands in front of both. The main result is
`customRoundTrips_iff`.
-/

set_option autoImplicit false

namespace F3Format

open Lib

/-! ## Arrays -/

/-- The native types of the codec. -/
inductive CustomNative where
  | i16
  | i32
  | i64
  | u16
  | u32
  | u64
  | f32
  | f64
  deriving DecidableEq, Repr

namespace CustomNative

/-- `size_of`. -/
def size : CustomNative → Nat
  | i16 | u16 => 2
  | i32 | u32 | f32 => 4
  | i64 | u64 | f64 => 8

/-- The `type_id` of the header. -/
def typeId : CustomNative → Nat
  | i16 => 0
  | i32 => 1
  | i64 => 2
  | u16 => 3
  | u32 => 4
  | u64 => 5
  | f32 => 6
  | f64 => 7

/-- The type that `decode_custom` selects for an identifier. -/
def ofTypeId : Nat → Option CustomNative
  | 0 => some i16
  | 1 => some i32
  | 2 => some i64
  | 3 => some u16
  | 4 => some u32
  | 5 => some u64
  | 6 => some f32
  | 7 => some f64
  | _ => none

theorem size_pos (native : CustomNative) : 0 < native.size := by
  cases native <;> decide

theorem ofTypeId_typeId (native : CustomNative) : ofTypeId native.typeId = some native := by
  cases native <;> rfl

theorem typeId_lt (native : CustomNative) : native.typeId < 256 ^ 4 := by
  cases native <;> decide

end CustomNative

/-- The types that `encode_custom` dispatches on, the others being `unimplemented!()`. -/
def customNative : PrimType → Option CustomNative
  | .uint16 => some .u16
  | .int16 => some .i16
  | .uint32 => some .u32
  | .int32 => some .i32
  | .uint64 => some .u64
  | .int64 => some .i64
  | .timestamp .nanosecond _ => some .i64
  | .timestamp .microsecond _ => some .i64
  | _ => none

/-- A primitive array of a supported type: its values as bytes, and the buffer
of its validity, which starts at bit 0. -/
structure CustomArray where
  dataType : PrimType
  native : CustomNative
  native_eq : customNative dataType = some native
  len : Nat
  values : Bytes
  length_values : values.length = len * native.size
  nulls : Option Bytes

/-- The windows of 128 values. -/
def CustomArray.windows (input : CustomArray) : List Bytes :=
  chunksExact (128 * input.native.size) input.values

/-! ## The encoder -/

/-- The variables of the loop: `encoded`, the hash map `dict` in the order of
insertion, and `dict_idx`. -/
structure CustomEncoding where
  encoded : Bytes
  dict : List (Bytes × UInt8)
  dictIdx : UInt8

/-- One turn of the loop. -/
def encodeWindow (s : CustomEncoding) (miniBlock : Bytes) : Result CustomEncoding :=
  match s.dict.lookup miniBlock with
  | some idx => .ok { s with encoded := s.encoded ++ [idx] }
  | none =>
    -- the counter is advanced at once, not when the next new window needs it
    if s.dictIdx.toNat + 1 < 256 then
      .ok { encoded := s.encoded ++ [s.dictIdx]
            dict := s.dict ++ [(miniBlock, s.dictIdx)]
            dictIdx := s.dictIdx + 1 }
    else panicking "Too many repeated patterns, cannot use this encoding"

/-- The section of the validity buffer. -/
def nullSection : Option Bytes → Bytes
  | none => leEncode 4 0
  | some buf => leEncode 4 1 ++ (leEncode 4 buf.length ++ buf)

/-- What stands in front of the codes. -/
def customHeader (input : CustomArray) : Bytes :=
  nullSection input.nulls ++ (leEncode 4 input.native.typeId ++ leEncode 4 input.len)

/-- `encode_custom`, where `iter` is the order in which the hash map is iterated. -/
def encodeCustom (iter : List (Bytes × UInt8) → List (Bytes × UInt8)) (input : CustomArray) :
    Result Bytes :=
  if input.len % 128 ≠ 0 then panicking "assertion failed: values.len() % 128 == 0"
  else do
    let s ← input.windows.foldlM encodeWindow ⟨customHeader input, [], 0⟩
    let pairs := (iter s.dict).mergeSort fun a b => a.2 ≤ b.2
    pure (s.encoded ++ pairs.flatMap Prod.fst)

/-! ## The decoder -/

/-- One turn of the loop of `custom_decompress`. -/
def decodeWindow (size : Nat) (input : Bytes) (dictStart : Nat) (res : Bytes) (i : Nat) :
    Result Bytes := do
  let idx ← index input i
  let start := dictStart + idx.toNat * 128 * size
  let stop := start + 128 * size
  let window ← sliceRange input start stop
  pure (res ++ window)

/-- `custom_decompress`. -/
def customDecompress (size : Nat) (input : Bytes) (len : Nat) : Result Bytes :=
  if len % 128 ≠ 0 then panicking "assertion failed: len % 128 == 0"
  else (List.range (len / 128)).foldlM (decodeWindow size input (len / 128)) []

/-- The validity buffer and the position behind it. -/
def readNulls (input : Bytes) : Result (Bytes × Nat) := do
  let nullFlag ← sliceRange input 0 4
  if leDecode nullFlag = 1 then do
    let nullLen ← sliceRange input 4 8
    let nullBuf ← sliceRange input 8 (8 + leDecode nullLen)
    pure (nullBuf, 4 + (4 + leDecode nullLen))
  else pure ([], 4)

/-- `decode_custom`, as its two buffers. -/
def decodeCustom (input : Bytes) : Result (List Bytes) := do
  let (nullBuffer, ptr) ← readNulls input
  let dataType ← sliceRange input ptr (ptr + 4)
  let len ← sliceRange input (ptr + 4) (ptr + 4 + 4)
  let rest ← sliceRange input (ptr + 4 + 4) input.length
  match CustomNative.ofTypeId (leDecode dataType) with
  | none => panicking "explicit panic"
  | some native => do
    let recovered ← customDecompress native.size rest (leDecode len)
    pure [nullBuffer, recovered]

/-- The array is encoded, and decoded to its validity buffer and its values. -/
def CustomRoundTrips (iter : List (Bytes × UInt8) → List (Bytes × UInt8)) (input : CustomArray) :
    Prop :=
  ∃ encoded, encodeCustom iter input = .ok encoded ∧
    decodeCustom encoded = .ok [input.nulls.getD [], input.values]

/-! ## The codes -/

/-- Insertion by first occurrence keeps one of each. -/
theorem length_insertAll_id (ws : List Bytes) :
    (insertAll id [] ws).length = ws.dedup.length := by
  have hnodup : (insertAll id [] ws).Nodup := by
    have hempty : (([] : List Bytes).map id).Nodup := List.nodup_nil
    have hkeys := nodup_insertAll id ws hempty
    rwa [List.map_id] at hkeys
  refine ((List.perm_ext_iff_of_nodup hnodup (List.nodup_dedup ws)).2 fun w => ?_).length_eq
  rw [List.mem_dedup]
  constructor
  · intro hw
    exact (mem_insertAll id hw).resolve_left List.not_mem_nil
  · intro hw
    have hkey : w ∈ (insertAll id [] ws).map id := key_mem_insertAll id hw
    rwa [List.map_id] at hkey

/-- The state of the loop after the windows `ws`: the codes name the windows in the
dictionary, whose entries are numbered in order. -/
structure Numbered (header : Bytes) (ws : List Bytes) (s : CustomEncoding) : Prop where
  encoded : ∃ codes, s.encoded = header ++ codes ∧
    List.Forall₂ (fun c w => (insertAll id [] ws)[c.toNat]? = some w) codes ws
  dict : s.dict.map Prod.fst = insertAll id [] ws
  codes : ∀ (i : Nat) (p : Bytes × UInt8), s.dict[i]? = some p → p.2.toNat = i
  dictIdx : s.dictIdx.toNat = (insertAll id [] ws).length

section Codes

variable {header : Bytes} {ws : List Bytes} {s : CustomEncoding}

theorem numbered_nil (header : Bytes) : Numbered header [] ⟨header, [], 0⟩ where
  encoded := ⟨[], (List.append_nil _).symm, .nil⟩
  dict := rfl
  codes := fun i p h => by cases h
  dictIdx := rfl

/-- A window found in the hash map stands at its code. -/
theorem Numbered.lookup_some (h : Numbered header ws s) {w : Bytes} {idx : UInt8}
    (hw : s.dict.lookup w = some idx) : (insertAll id [] ws)[idx.toNat]? = some w := by
  obtain ⟨l₁, l₂, hsplit, -⟩ := List.lookup_eq_some_iff.1 hw
  have hat : s.dict[l₁.length]? = some (w, idx) := by
    rw [hsplit, List.getElem?_append_right (Nat.le_refl _), Nat.sub_self]
    rfl
  rw [← h.dict, h.codes _ _ hat, List.getElem?_map, hat]
  rfl

theorem Numbered.lookup_none (h : Numbered header ws s) {w : Bytes}
    (hw : s.dict.lookup w = none) : w ∉ insertAll id [] ws := by
  rw [← h.dict]
  intro hmem
  obtain ⟨p, hp, rfl⟩ := List.mem_map.1 hmem
  simpa using List.lookup_eq_none_iff.1 hw p hp

/-- The codes already written name the same windows after the dictionary has grown. -/
theorem codes_grow {codes : List UInt8} {ws ws' : List Bytes} (w : Bytes)
    (h : List.Forall₂ (fun c w => (insertAll id [] ws)[c.toNat]? = some w) codes ws') :
    List.Forall₂ (fun c w' => (insertAll id [] (ws ++ [w]))[c.toNat]? = some w') codes ws' := by
  obtain ⟨new, hnew⟩ := prefix_insertAll id (insertAll id [] ws) [w]
  refine h.imp fun c w' hc => ?_
  rw [insertAll_append, ← hnew, List.getElem?_append_left (List.getElem?_eq_some_iff.1 hc).1]
  exact hc

/-- A known window. -/
theorem insertAll_snoc_of_mem {w : Bytes} (hw : w ∈ insertAll id [] ws) :
    insertAll id [] (ws ++ [w]) = insertAll id [] ws := by
  rw [insertAll_append]
  refine insertAll_of_forall_mem id fun v hv => ?_
  rwa [List.mem_singleton.1 hv, List.map_id]

/-- A new window. -/
theorem insertAll_snoc_of_not_mem {w : Bytes} (hw : w ∉ insertAll id [] ws) :
    insertAll id [] (ws ++ [w]) = insertAll id [] ws ++ [w] := by
  rw [insertAll_append]
  exact if_neg (by rwa [List.map_id])

/-- One turn, over all of its branches. -/
theorem encodeWindow_spec (h : Numbered header ws s) (w : Bytes) :
    (∃ s', encodeWindow s w = .ok s' ∧ Numbered header (ws ++ [w]) s') ∨
    (256 ≤ (insertAll id [] (ws ++ [w])).length ∧ ∀ s', encodeWindow s w ≠ .ok s') := by
  obtain ⟨codes, hencoded, hcodes⟩ := h.encoded
  cases hlookup : s.dict.lookup w with
  | some idx =>
      have hat := h.lookup_some hlookup
      have hsame := insertAll_snoc_of_mem (List.mem_of_getElem? hat)
      refine .inl ⟨{ s with encoded := s.encoded ++ [idx] }, ?_, ?_⟩
      · rw [encodeWindow, hlookup]
      · constructor
        · refine ⟨codes ++ [idx], by rw [hencoded, List.append_assoc], ?_⟩
          exact List.rel_append (codes_grow w hcodes) (.cons (by rwa [hsame]) .nil)
        · rw [hsame]
          exact h.dict
        · exact h.codes
        · rw [hsame]
          exact h.dictIdx
  | none =>
      have hnew := insertAll_snoc_of_not_mem (h.lookup_none hlookup)
      have hlen : s.dict.length = s.dictIdx.toNat := by
        rw [h.dictIdx, ← h.dict, List.length_map]
      have hlast : (insertAll id [] (ws ++ [w]))[s.dictIdx.toNat]? = some w := by
        rw [hnew, h.dictIdx, List.getElem?_append_right (Nat.le_refl _), Nat.sub_self]
        rfl
      have hcount : (insertAll id [] (ws ++ [w])).length = s.dictIdx.toNat + 1 := by
        rw [hnew, List.length_append, h.dictIdx, List.length_singleton]
      by_cases hroom : s.dictIdx.toNat + 1 < 256
      · refine .inl ⟨⟨s.encoded ++ [s.dictIdx], s.dict ++ [(w, s.dictIdx)], s.dictIdx + 1⟩, ?_, ?_⟩
        · simp only [encodeWindow, hlookup, if_pos hroom]
        · constructor
          · refine ⟨codes ++ [s.dictIdx], by rw [hencoded, List.append_assoc], ?_⟩
            exact List.rel_append (codes_grow w hcodes) (.cons hlast .nil)
          · rw [hnew, List.map_append, h.dict]
            rfl
          · intro i p hp
            rw [List.getElem?_append] at hp
            split at hp
            · exact h.codes i p hp
            · next hge =>
                have hi : i - s.dict.length < 1 := (List.getElem?_eq_some_iff.1 hp).1
                have hfirst : i - s.dict.length = 0 := by omega
                rw [hfirst] at hp
                cases hp
                show s.dictIdx.toNat = i
                omega
          · rw [hcount, UInt8.toNat_add]
            exact Nat.mod_eq_of_lt hroom
      · refine .inr ⟨by omega, fun s' hs' => ?_⟩
        simp only [encodeWindow, hlookup, if_neg hroom, panicking, reduceCtorEq] at hs'

/-- The dictionary grows with the windows. -/
theorem length_insertAll_le (ws ws' : List Bytes) :
    (insertAll id [] ws).length ≤ (insertAll id [] (ws ++ ws')).length := by
  rw [insertAll_append]
  exact (prefix_insertAll id _ ws').length_le

/-- The loop succeeds exactly if the counter never runs out. -/
theorem encodeWindows_spec (header : Bytes) (ws : List Bytes) :
    (∃ s, ws.foldlM encodeWindow ⟨header, [], 0⟩ = .ok s ∧ Numbered header ws s) ∨
    (256 ≤ (insertAll id [] ws).length ∧
      ∀ s, ws.foldlM encodeWindow ⟨header, [], 0⟩ ≠ .ok s) := by
  induction ws using List.reverseRecOn with
  | nil => exact .inl ⟨_, rfl, numbered_nil header⟩
  | append_singleton ws w ih =>
      rcases ih with ⟨s, hrun, hs⟩ | ⟨hfull, hfail⟩
      · rcases encodeWindow_spec hs w with ⟨s', hturn, hs'⟩ | ⟨hfull, hfail⟩
        · refine .inl ⟨s', ?_, hs'⟩
          rw [List.foldlM_append, hrun, ok_bind, List.foldlM_cons, hturn]
          rfl
        · refine .inr ⟨hfull, fun s' hs' => ?_⟩
          rw [List.foldlM_append, hrun, ok_bind, List.foldlM_cons, bind_eq_ok] at hs'
          obtain ⟨s'', hturn, -⟩ := hs'
          exact hfail s'' hturn
      · refine .inr ⟨hfull.trans (length_insertAll_le ws [w]), fun s' hs' => ?_⟩
        rw [List.foldlM_append, bind_eq_ok] at hs'
        obtain ⟨s, hrun, -⟩ := hs'
        exact hfail s hrun

/-- The counter runs out at the 256th window. -/
theorem Numbered.length_le (h : Numbered header ws s) : (insertAll id [] ws).length ≤ 255 := by
  have hlt := s.dictIdx.toNat_lt
  rw [h.dictIdx] at hlt
  omega

/-- Sorting by code undoes the order of the hash map. -/
theorem Numbered.sorted (h : Numbered header ws s)
    {iter : List (Bytes × UInt8) → List (Bytes × UInt8)} (hiter : (iter s.dict).Perm s.dict) :
    (iter s.dict).mergeSort (fun a b => a.2 ≤ b.2) = s.dict := by
  have hcode : ∀ i (hi : i < s.dict.length), s.dict[i].2.toNat = i := fun i hi =>
    h.codes i _ (List.getElem?_eq_getElem hi)
  -- the codes are the positions, so that no two entries compare equal
  have hanti : ∀ a b : Bytes × UInt8, a ∈ (iter s.dict).mergeSort (fun a b => a.2 ≤ b.2) →
      b ∈ s.dict → a.2 ≤ b.2 → b.2 ≤ a.2 → a = b := by
    intro a b ha hb hab hba
    have heq : a.2 = b.2 := UInt8.le_antisymm hab hba
    obtain ⟨i, hi, rfl⟩ := List.getElem_of_mem (hiter.mem_iff.1 (List.mem_mergeSort.1 ha))
    obtain ⟨j, hj, rfl⟩ := List.getElem_of_mem hb
    have hij : i = j := by
      rw [← hcode i hi, ← hcode j hj, heq]
    subst hij
    rfl
  have hsorted : ((iter s.dict).mergeSort fun a b => a.2 ≤ b.2).Pairwise fun a b => a.2 ≤ b.2 := by
    have htrans : ∀ a b c : Bytes × UInt8, decide (a.2 ≤ b.2) = true →
        decide (b.2 ≤ c.2) = true → decide (a.2 ≤ c.2) = true := by
      intro a b c hab hbc
      rw [decide_eq_true_eq] at hab hbc ⊢
      exact UInt8.le_trans hab hbc
    have htotal : ∀ a b : Bytes × UInt8, (decide (a.2 ≤ b.2) || decide (b.2 ≤ a.2)) = true := by
      intro a b
      simpa using UInt8.le_total a.2 b.2
    simpa using List.pairwise_mergeSort htrans htotal (iter s.dict)
  have hdict : s.dict.Pairwise fun a b => a.2 ≤ b.2 := by
    rw [List.pairwise_iff_getElem]
    intro i j hi hj hij
    rw [UInt8.le_iff_toNat_le, hcode i hi, hcode j hj]
    exact hij.le
  exact ((List.mergeSort_perm _ _).trans hiter).eq_of_pairwise hanti hsorted hdict

end Codes

/-! ## Decoding the codes -/

section Decoding

variable {size : Nat}

/-- A turn appends one window. -/
theorem length_of_decodeWindow {input res res' : Bytes} {dictStart i : Nat}
    (h : decodeWindow size input dictStart res i = .ok res') :
    res'.length = res.length + 128 * size := by
  simp only [decodeWindow, bind_eq_ok, sliceRange_eq_ok, pure_eq_ok, Except.ok.injEq] at h
  obtain ⟨idx, -, window, ⟨hle, rfl⟩, rfl⟩ := h
  rw [List.length_append, Nat.add_sub_cancel_left, length_slice _ hle.2]

/-- What is decoded has as many windows as the length says. -/
theorem length_of_customDecompress {input res : Bytes} {len : Nat}
    (h : customDecompress size input len = .ok res) : res.length = len / 128 * (128 * size) := by
  have hturns : ∀ (is : List Nat) (res res' : Bytes),
      is.foldlM (decodeWindow size input (len / 128)) res = .ok res' →
        res'.length = res.length + is.length * (128 * size) := by
    intro is
    induction is with
    | nil =>
        intro res res' hrun
        cases hrun
        rw [List.length_nil, Nat.zero_mul, Nat.add_zero]
    | cons i is ih =>
        intro res res' hrun
        rw [List.foldlM_cons, bind_eq_ok] at hrun
        obtain ⟨mid, hturn, hrest⟩ := hrun
        have hmul : (is.length + 1) * (128 * size) = is.length * (128 * size) + 128 * size :=
          Nat.succ_mul ..
        rw [ih mid res' hrest, length_of_decodeWindow hturn, List.length_cons, hmul]
        omega
  rw [customDecompress] at h
  split at h
  · cases h
  · have hlen := hturns _ _ _ h
    rwa [List.length_nil, List.length_range, Nat.zero_add] at hlen

/-- The code of window `i` selects it in the dictionary behind the codes. -/
theorem decodeWindow_ok {codes : List UInt8} {windows : List Bytes} {res w : Bytes} {c : UInt8}
    {i : Nat} (hwindows : ∀ w ∈ windows, w.length = 128 * size) (hc : codes[i]? = some c)
    (hw : windows[c.toNat]? = some w) :
    decodeWindow size (codes ++ windows.flatten) codes.length res i = .ok (res ++ w) := by
  have hcode : index (codes ++ windows.flatten) i = .ok c := by
    rw [index_eq_ok, List.getElem?_append_left (List.getElem?_eq_some_iff.1 hc).1, hc]
  have hbefore : (windows.take c.toNat).flatten.length = c.toNat * 128 * size := by
    rw [length_flatten_of_forall (n := 128 * size) fun v hv => hwindows v (List.mem_of_mem_take hv),
      List.length_take, Nat.min_eq_left (List.getElem?_eq_some_iff.1 hw).1.le, Nat.mul_assoc]
  have hat : HoldsAt (codes ++ windows.flatten) (codes.length + c.toNat * 128 * size) w := by
    have hflat := (holdsAt_flatten hw).prepend codes
    rwa [hbefore] at hflat
  have hread := sliceRange_of_holdsAt hat
    (congrArg (codes.length + c.toNat * 128 * size + ·) (hwindows w (List.mem_of_getElem? hw)).symm)
  simp only [decodeWindow, hcode, hread, ok_bind, pure_eq_ok]

/-- The codes are decoded to the windows they name. -/
theorem customDecompress_ok {codes : List UInt8} {windows named : List Bytes} {len : Nat}
    (hwindows : ∀ w ∈ windows, w.length = 128 * size)
    (hcodes : List.Forall₂ (fun c w => windows[c.toNat]? = some w) codes named)
    (hlen : len = codes.length * 128) :
    customDecompress size (codes ++ windows.flatten) len = .ok named.flatten := by
  have hcount : len / 128 = codes.length := by omega
  have hturns : ∀ k ≤ codes.length,
      (List.range k).foldlM (decodeWindow size (codes ++ windows.flatten) codes.length) [] =
        .ok (named.take k).flatten := by
    intro k
    induction k with
    | zero => exact fun _ => rfl
    | succ k ih =>
        intro hk
        have hkn : k < named.length := by rwa [← hcodes.length_eq]
        have hnext : decodeWindow size (codes ++ windows.flatten) codes.length
            (named.take k).flatten k = .ok ((named.take k).flatten ++ named[k]) :=
          decodeWindow_ok hwindows (List.getElem?_eq_getElem hk) (hcodes.get hk hkn)
        rw [List.range_succ, List.foldlM_append, ih (by omega), ok_bind, List.foldlM_cons, hnext,
          List.take_add_one, List.getElem?_eq_getElem hkn, List.flatten_append]
        simp
  have hall := hturns _ (Nat.le_refl _)
  rw [hcodes.length_eq, List.take_length] at hall
  rw [customDecompress, if_neg (by omega), hcount, hcodes.length_eq]
  exact hall

end Decoding

/-! ## The whole array -/

section RoundTrip

/-- The section of the validity buffer is read back, if its length fits its field. -/
theorem readNulls_ok {nulls : Option Bytes} (hsmall : ∀ buf ∈ nulls, buf.length < 2 ^ 32)
    (rest : Bytes) :
    readNulls (nullSection nulls ++ rest) = .ok (nulls.getD [], (nullSection nulls).length) := by
  have hself := (holdsAt_self (nullSection nulls)).append rest
  cases nulls with
  | none =>
      have hflag : sliceRange (nullSection none ++ rest) 0 4 = .ok (leEncode 4 0) :=
        sliceRange_of_holdsAt hself rfl
      rw [readNulls, hflag]
      rfl
  | some buf =>
      have hlen : leDecode (leEncode 4 buf.length) = buf.length :=
        leDecode_leEncode_of_lt (hsmall buf rfl)
      have hflag : sliceRange (nullSection (some buf) ++ rest) 0 4 = .ok (leEncode 4 1) :=
        sliceRange_of_holdsAt hself.left rfl
      have hcount : sliceRange (nullSection (some buf) ++ rest) 4 8 =
          .ok (leEncode 4 buf.length) :=
        sliceRange_of_holdsAt hself.right.left rfl
      have hbuf : sliceRange (nullSection (some buf) ++ rest) 8 (8 + buf.length) = .ok buf :=
        sliceRange_of_holdsAt hself.right.right rfl
      rw [readNulls, hflag, ok_bind, if_pos (by decide), hcount, ok_bind, hlen, hbuf]
      simp [nullSection]

/-- The decoder finds the header fields and goes on with what stands behind them. -/
theorem decodeCustom_header {input : CustomArray}
    (hsmall : ∀ buf ∈ input.nulls, buf.length < 2 ^ 32) (rest : Bytes) :
    decodeCustom (customHeader input ++ rest) =
      (customDecompress input.native.size rest (input.len % 2 ^ 32)).bind fun recovered =>
        .ok [input.nulls.getD [], recovered] := by
  have hself := holdsAt_self (customHeader input ++ rest)
  have hnulls : readNulls (customHeader input ++ rest) =
      .ok (input.nulls.getD [], (nullSection input.nulls).length) := by
    rw [customHeader, List.append_assoc]
    exact readNulls_ok hsmall _
  have htype := hself.left.right.left
  have hlen := hself.left.right.right
  have hrest := hself.right
  have hheader : (customHeader input).length = (nullSection input.nulls).length + 4 + 4 := by
    rw [customHeader, List.length_append, List.length_append, length_leEncode, length_leEncode,
      Nat.add_assoc]
  have hend : (customHeader input ++ rest).length =
      (nullSection input.nulls).length + 4 + 4 + rest.length := by
    rw [List.length_append, hheader]
  rw [Nat.zero_add, hheader] at hrest
  rw [Nat.zero_add] at htype hlen
  rw [length_leEncode] at hlen
  have htypeId : leDecode (leEncode 4 input.native.typeId) = input.native.typeId :=
    leDecode_leEncode_of_lt input.native.typeId_lt
  have hcount : leDecode (leEncode 4 input.len) = input.len % 2 ^ 32 := leDecode_leEncode ..
  rw [decodeCustom, hnulls, ok_bind]
  dsimp only
  rw [sliceRange_of_holdsAt htype (by rw [length_leEncode]), ok_bind,
    sliceRange_of_holdsAt hlen (by rw [length_leEncode]), ok_bind,
    sliceRange_of_holdsAt hrest hend, ok_bind, htypeId, CustomNative.ofTypeId_typeId, hcount]
  rfl

/-- The value of a field is bounded by its width. -/
theorem leDecode_lt (bytes : Bytes) : leDecode bytes < 256 ^ bytes.length := by
  induction bytes with
  | nil => exact Nat.one_pos
  | cons b bytes ih =>
      have hb := b.toNat_lt
      rw [leDecode, List.length_cons, Nat.pow_succ]
      omega

/-- A validity buffer that is read fits its length field. -/
theorem length_of_readNulls {input buf : Bytes} {ptr : Nat}
    (h : readNulls input = .ok (buf, ptr)) : buf.length < 2 ^ 32 := by
  simp only [readNulls, bind_eq_ok, sliceRange_eq_ok] at h
  obtain ⟨flag, -, hread⟩ := h
  split at hread
  · simp only [bind_eq_ok, sliceRange_eq_ok, pure_eq_ok, Except.ok.injEq, Prod.mk.injEq] at hread
    obtain ⟨count, ⟨hle, rfl⟩, bytes, ⟨hle', rfl⟩, rfl, -⟩ := hread
    rw [Nat.add_sub_cancel_left, length_slice _ hle'.2]
    have hfield := leDecode_lt (slice input 4 (8 - 4))
    rwa [length_slice _ hle.2] at hfield
  · cases hread
    decide

variable {iter : List (Bytes × UInt8) → List (Bytes × UInt8)} {input : CustomArray}

theorem length_of_mem_windows {w : Bytes} (hw : w ∈ input.windows) :
    w.length = 128 * input.native.size := length_of_mem_chunksExact hw

theorem flatten_windows (h128 : 128 ∣ input.len) : input.windows.flatten = input.values := by
  apply flatten_chunksExact (Nat.mul_pos (by decide) input.native.size_pos)
  rw [input.length_values]
  exact Nat.mul_dvd_mul_right h128 _

theorem length_windows (h128 : 128 ∣ input.len) : input.windows.length * 128 = input.len := by
  rw [CustomArray.windows, length_chunksExact, input.length_values,
    Nat.mul_div_mul_right _ _ input.native.size_pos]
  exact Nat.div_mul_cancel h128

/-- With few windows, the codes and the dictionary are written behind the header. -/
theorem encodeCustom_ok (hiter : ∀ dict, (iter dict).Perm dict) (h128 : 128 ∣ input.len)
    (hfew : input.windows.dedup.length ≤ 255) :
    ∃ codes, encodeCustom iter input =
        .ok (customHeader input ++ (codes ++ (insertAll id [] input.windows).flatten)) ∧
      List.Forall₂ (fun c w => (insertAll id [] input.windows)[c.toNat]? = some w)
        codes input.windows := by
  rcases encodeWindows_spec (customHeader input) input.windows with ⟨s, hrun, hs⟩ | ⟨hfull, -⟩
  · obtain ⟨codes, hencoded, hcodes⟩ := hs.encoded
    refine ⟨codes, ?_, hcodes⟩
    have hmod : ¬ input.len % 128 ≠ 0 := by
      rw [not_not]
      exact Nat.mod_eq_zero_of_dvd h128
    have hwritten : s.dict.flatMap Prod.fst = (insertAll id [] input.windows).flatten := by
      rw [List.flatMap_def, hs.dict]
    rw [encodeCustom, if_neg hmod, hrun, ok_bind, hs.sorted (hiter s.dict)]
    dsimp only
    rw [hwritten, hencoded, List.append_assoc, pure_eq_ok]
  · rw [length_insertAll_id] at hfull
    omega

/-- The encoder has given out no more than 255 codes. -/
theorem few_of_encodeCustom {encoded : Bytes} (h : encodeCustom iter input = .ok encoded) :
    input.windows.dedup.length ≤ 255 ∧ ∃ rest, encoded = customHeader input ++ rest := by
  rw [encodeCustom] at h
  split at h
  · cases h
  · rw [bind_eq_ok] at h
    obtain ⟨s, hrun, hdone⟩ := h
    cases hdone
    rcases encodeWindows_spec (customHeader input) input.windows with ⟨s', hrun', hs⟩ | ⟨-, hfail⟩
    · rw [hrun'] at hrun
      cases hrun
      obtain ⟨codes, hencoded, -⟩ := hs.encoded
      refine ⟨(length_insertAll_id _).symm.le.trans hs.length_le, ?_⟩
      rw [hencoded, List.append_assoc]
      exact ⟨_, rfl⟩
    · exact absurd hrun (hfail s)

/-- **Round trip of the codec**: an array is decoded to its validity and its values
exactly if no code is needed after the 255th, and both lengths fit their fields. -/
theorem customRoundTrips_iff (hiter : ∀ dict, (iter dict).Perm dict) (h128 : 128 ∣ input.len) :
    CustomRoundTrips iter input ↔
      input.windows.dedup.length ≤ 255 ∧ input.len < 2 ^ 32 ∧
        ∀ buf ∈ input.nulls, buf.length < 2 ^ 32 := by
  constructor
  · rintro ⟨encoded, hencode, hdecode⟩
    obtain ⟨hfew, rest, rfl⟩ := few_of_encodeCustom hencode
    have hnulls : ∀ buf ∈ input.nulls, buf.length < 2 ^ 32 := by
      intro buf hbuf
      have hread := hdecode
      rw [decodeCustom, bind_eq_ok] at hread
      obtain ⟨⟨found, ptr⟩, hfound, hrest⟩ := hread
      simp only [bind_eq_ok] at hrest
      obtain ⟨dataType, -, len, -, rest', -, hselect⟩ := hrest
      have hsame : found = buf := by
        split at hselect
        · cases hselect
        · rw [bind_eq_ok] at hselect
          obtain ⟨recovered, -, hpair⟩ := hselect
          have hget : input.nulls.getD [] = buf := by
            rw [hbuf]
            rfl
          rw [hget] at hpair
          cases hpair
          rfl
      exact hsame ▸ length_of_readNulls hfound
    refine ⟨hfew, ?_, hnulls⟩
    rw [decodeCustom_header hnulls] at hdecode
    obtain ⟨recovered, hvalues, hpair⟩ := (bind_eq_ok ..).1 hdecode
    cases hpair
    -- the values read are as many as the truncated length says
    have hlen := length_of_customDecompress hvalues
    rw [input.length_values, ← Nat.mul_assoc] at hlen
    have hcount := Nat.eq_of_mul_eq_mul_right input.native.size_pos hlen
    omega
  · rintro ⟨hfew, hlen, hnulls⟩
    obtain ⟨codes, hencode, hcodes⟩ := encodeCustom_ok hiter h128 hfew
    refine ⟨_, hencode, ?_⟩
    have hdict : ∀ w ∈ insertAll id [] input.windows, w.length = 128 * input.native.size := by
      intro w hw
      exact length_of_mem_windows ((mem_insertAll id hw).resolve_left List.not_mem_nil)
    have hcount : input.len = codes.length * 128 := by
      rw [hcodes.length_eq, length_windows h128]
    rw [decodeCustom_header hnulls, Nat.mod_eq_of_lt hlen,
      customDecompress_ok hdict hcodes hcount, flatten_windows h128]
    rfl

end RoundTrip

/-! ## Sample arrays -/

namespace Sample

/-- 128 copies of a 16-bit integer. -/
def constantWindow (i : Nat) : Bytes := (List.replicate 128 (leEncode 2 i)).flatten

theorem length_constantWindow (i : Nat) : (constantWindow i).length = 256 := by
  rw [constantWindow, List.length_flatten, List.map_replicate, List.sum_replicate, length_leEncode]
  rfl

theorem constantWindow_injective {i j : Nat} (hi : i < 2 ^ 16) (hj : j < 2 ^ 16)
    (h : constantWindow i = constantWindow j) : i = j := by
  have hfirst : ∀ n, (constantWindow n).take 2 = leEncode 2 n := fun n =>
    List.take_left' (length_leEncode 2 n)
  have hbytes : leEncode 2 i = leEncode 2 j := by
    rw [← hfirst, ← hfirst, h]
  have hi' : leDecode (leEncode 2 i) = i := leDecode_leEncode_of_lt hi
  have hj' : leDecode (leEncode 2 j) = j := leDecode_leEncode_of_lt hj
  rw [← hi', ← hj', hbytes]

/-- A `UInt16` array of `k` windows, each of one value. -/
def constantWindows (k : Nat) : CustomArray where
  dataType := .uint16
  native := .u16
  native_eq := rfl
  len := k * 128
  values := (List.range k).flatMap constantWindow
  length_values := by
    rw [List.flatMap_def, length_flatten_of_forall (n := 256), List.length_map, List.length_range]
    · show k * 256 = k * 128 * 2
      omega
    · intro w hw
      obtain ⟨i, -, rfl⟩ := List.mem_map.1 hw
      exact length_constantWindow i
  nulls := none

/-- All of its windows are distinct. -/
theorem length_dedup_constantWindows {k : Nat} (hk : k ≤ 2 ^ 16) :
    (constantWindows k).windows.dedup.length = k := by
  have hwindows : (constantWindows k).windows = (List.range k).map constantWindow :=
    chunksExact_flatMap (n := 256) (by decide) fun i _ => length_constantWindow i
  have hnodup : ((List.range k).map constantWindow).Nodup := by
    refine List.nodup_range.map_on fun i hi j hj h => ?_
    rw [List.mem_range] at hi hj
    exact constantWindow_injective (by omega) (by omega) h
  rw [hwindows, hnodup.dedup, List.length_map, List.length_range]

theorem customRoundTrips_sample : CustomRoundTrips id (constantWindows 255) :=
  (customRoundTrips_iff (fun dict => .refl dict) ⟨255, rfl⟩).2
    ⟨(length_dedup_constantWindows (by decide)).le, by decide, fun _ h => by cases h⟩

/-- The last of 256 windows has a code, but the encoder panics. -/
theorem not_customRoundTrips_sample : 128 ∣ (constantWindows 256).len ∧
    (constantWindows 256).windows.dedup.length ≤ 256 ∧
    ¬ CustomRoundTrips id (constantWindows 256) := by
  have hcount : (constantWindows 256).windows.dedup.length = 256 :=
    length_dedup_constantWindows (by decide)
  refine ⟨⟨256, rfl⟩, hcount.le, ?_⟩
  rintro ⟨encoded, hencode, -⟩
  have hfew := (few_of_encodeCustom hencode).1
  omega

end Sample

end F3Format
