import F3Format.BuilderRoutes
import F3Format.ColumnArrays
import F3Format.RowWalk

/-!
# Decoding a range of rows

`PrimitiveColDecoder::decode_row_at` on a column without dictionaries, divided
into chunks and units in any way, is the walk over its rows. So a range is
decoded exactly if it is readable, and otherwise the decoder underflows or, when
the column's rows differ, returns other rows.
-/

set_option autoImplicit false

namespace F3Format

open Lib

/-! ## What a column holds -/

/-- The unit at the front of any bytes is split off and decodes to the array. -/
structure UnitHolds (env : Env) (ctx : Option WASMReadingContext) (outputType : DataType)
    (u : Fb.EncUnit) (data : Bytes) (a : ArrayRef) : Prop where
  size : u.size = data.length
  rows : u.numRows = a.len
  decodes : ∃ decoder : EncUnitDecoder, decoder.decode env = .ok a ∧
    ∀ rest, ChunkDecoder.unitDecoder env u (data ++ rest) outputType ctx = .ok (decoder, rest)

/-- The units of a chunk lie one after another in its bytes. -/
inductive UnitsHold (env : Env) (ctx : Option WASMReadingContext) (outputType : DataType) :
    List Fb.EncUnit → Bytes → List ArrayRef → Prop where
  | nil (rest : Bytes) : UnitsHold env ctx outputType [] rest []
  | cons {u : Fb.EncUnit} {us : List Fb.EncUnit} {data buf : Bytes} {a : ArrayRef}
      {as : List ArrayRef} : UnitHolds env ctx outputType u data a →
        UnitsHold env ctx outputType us buf as →
          UnitsHold env ctx outputType (u :: us) (data ++ buf) (a :: as)

namespace PrimitiveColDecoder

/-- The chunk has no dictionary and its units hold the arrays. -/
structure ChunkHolds (env : Env) (d : PrimitiveColDecoder) (c : Fb.Chunk)
    (arrays : List ArrayRef) : Prop where
  encoding : c.encoding = .noDictionary
  rows : c.numRows = (arrays.map ArrayRef.len).sum
  units : ∃ units buf, c.encunits = some units ∧
    d.readChunk env c.offset c.size c.checksum = .ok buf ∧
      UnitsHold env d.wasmContext d.primitiveType units buf arrays

/-- The chunks of the column hold the arrays, all of one type. -/
structure Holds (env : Env) (d : PrimitiveColDecoder) (contents : List (List ArrayRef)) : Prop where
  decodable : d.primitiveType.decodable = true
  chunks : List.Forall₂ (d.ChunkHolds env) d.chunksMeta contents
  arrays : ∃ dataType, ∀ chunk ∈ contents, ∀ a ∈ chunk, ColumnArray dataType a

end PrimitiveColDecoder

/-! ## The loops are walks -/

section Walks

variable {env : Env} {dataType : DataType}

/-- One visited unit: the rows from `idx` on. -/
theorem sliceUnit_ok {decoder : EncUnitDecoder} {a : ArrayRef} (hdecode : decoder.decode env = .ok a)
    {idx n : Nat} (h : idx + n ≤ a.len) :
    ChunkDecoder.sliceUnit env decoder idx (idx + n) = .ok (a.slice idx n) := by
  simp only [ChunkDecoder.sliceUnit, hdecode, ok_bind, if_pos h, Nat.add_sub_cancel_left,
    pure_eq_ok]

/-- The loop of `NoDictColDecoder::decode_row_at` walks over the units: it
returns their rows, or panics where the walk underflows. -/
theorem rowLoop_walk {outputType : DataType} {ctx : Option WASMReadingContext} (row : Nat) :
    ∀ {units : List Fb.EncUnit} {buf : Bytes} {as : List ArrayRef} (cur remaining : Nat),
      UnitsHold env ctx outputType units buf as → (∀ a ∈ as, ColumnArray dataType a) →
        match walkUnits row (as.map ArrayRef.cells) cur remaining with
        | none => ∃ msg, ChunkDecoder.rowLoop env outputType ctx row units buf cur remaining =
            .error (.panic msg)
        | some xs => ∃ arrays s,
            ChunkDecoder.rowLoop env outputType ctx row units buf cur remaining =
              .ok (arrays, s) ∧ arrays.flatMap ArrayRef.cells = xs ∧
                ∀ a ∈ arrays, ColumnArray dataType a := by
  intro units buf as cur remaining hunits
  -- each visited unit moves the cursor and takes its rows off the remainder
  induction hunits generalizing cur remaining with
  | nil rest =>
      intro _
      exact ⟨[], ⟨[], rest, ctx⟩, rfl, rfl, fun a ha => absurd ha List.not_mem_nil⟩
  | @cons u us data buf a as hu hus hloops =>
      intro harrays
      have ha := harrays a (List.mem_cons_self ..)
      have hrest : ∀ b ∈ as, ColumnArray dataType b :=
        fun b hb => harrays b (List.mem_cons_of_mem _ hb)
      obtain ⟨decoder, hdecode, hsplit⟩ := hu.decodes
      have hrows : u.numRows = a.cells.length := by rw [hu.rows, ha.length_cells]
      have hsize : splitTo (data ++ buf) u.size = .ok (data, buf) :=
        splitTo_append_of_length hu.size
      rw [List.map_cons, walkUnits, ChunkDecoder.rowLoop]
      simp only [hrows, ge_iff_le]
      by_cases hvisit : row ≤ cur + a.cells.length
      · rw [if_pos hvisit, if_pos hvisit]
        by_cases hcur : cur ≤ row
        · have hsub : checkedSub row cur = .ok (row - cur) := if_pos hcur
          have hfit : row - cur + min remaining (a.cells.length - (row - cur)) ≤ a.len := by
            rw [← ha.length_cells]
            omega
          rw [if_pos hcur, hsub, ok_bind]
          simp only [hsplit buf, ok_bind, sliceUnit_ok hdecode hfit]
          by_cases hdone : remaining - min remaining (a.cells.length - (row - cur)) = 0
          · rw [if_pos hdone, if_pos hdone]
            refine ⟨_, _, rfl, ?_, ?_⟩
            · rw [List.flatMap_singleton, ha.cells_slice hfit]
            · intro b hb
              rw [List.mem_singleton.1 hb]
              exact ha.slice hfit
          · rw [if_neg hdone, if_neg hdone]
            have ih := hloops (cur + a.cells.length)
              (remaining - min remaining (a.cells.length - (row - cur))) hrest
            cases hwalk : walkUnits row (as.map ArrayRef.cells) (cur + a.cells.length)
                (remaining - min remaining (a.cells.length - (row - cur))) with
            | none =>
                rw [hwalk] at ih
                obtain ⟨msg, hmsg⟩ := ih
                exact ⟨msg, by rw [hmsg]; rfl⟩
            | some xs =>
                rw [hwalk] at ih
                obtain ⟨arrays, s, hloop, hcells, hall⟩ := ih
                refine ⟨_, s, by rw [hloop]; rfl, ?_, ?_⟩
                · rw [List.flatMap_cons, ha.cells_slice hfit, hcells]
                · intro b hb
                  rcases List.mem_cons.1 hb with rfl | hb
                  · exact ha.slice hfit
                  · exact hall b hb
        · have hsub : checkedSub row cur =
              .error (.panic "attempt to subtract with overflow") := if_neg hcur
          rw [if_neg hcur, hsub]
          exact ⟨_, rfl⟩
      · rw [if_neg hvisit, if_neg hvisit]
        simp only [hsize, ok_bind]
        by_cases hdone : remaining = 0
        · rw [if_pos hdone, if_pos hdone]
          exact ⟨[], _, rfl, rfl, fun b hb => by cases hb⟩
        · rw [if_neg hdone, if_neg hdone]
          exact hloops _ _ hrest

variable {d : PrimitiveColDecoder}

/-- The rows of the chunks of a column. -/
def chunkCells (contents : List (List ArrayRef)) : List (List (List Cell)) :=
  contents.map fun chunk => chunk.map ArrayRef.cells

theorem openChunk_ok (hdecodable : d.primitiveType.decodable = true) {c : Fb.Chunk}
    {as : List ArrayRef} (hc : d.ChunkHolds env c as) :
    ∃ units buf, d.openChunk env c =
        .ok (.noDict ⟨units, buf, d.wasmContext⟩ d.primitiveType) ∧
      UnitsHold env d.wasmContext d.primitiveType units buf as := by
  obtain ⟨units, buf, hunits, hread, hhold⟩ := hc.units
  refine ⟨units, buf, ?_, hhold⟩
  simp only [PrimitiveColDecoder.openChunk, hread, hunits, okOr, ok_bind, hc.encoding,
    createPhysicalDecoder, hdecodable, if_true]

/-- The row count of a chunk is that of its cells. -/
theorem numRows_eq {c : Fb.Chunk} {as : List ArrayRef} (hc : d.ChunkHolds env c as)
    (harrays : ∀ a ∈ as, ColumnArray dataType a) :
    c.numRows = (as.map ArrayRef.cells).flatten.length := by
  rw [hc.rows, List.length_flatten, List.map_map]
  exact congrArg List.sum (List.map_congr_left fun a ha => (harrays a ha).length_cells.symm)

/-- The first round of the inner loop of `decode_row_at` reads what is asked of a
chunk, and there is no second one. -/
theorem rowsOfChunk_walk {units : List Fb.EncUnit} {buf : Bytes} {as : List ArrayRef}
    {row toDecode : Nat} (hhold : UnitsHold env d.wasmContext d.primitiveType units buf as)
    (harrays : ∀ a ∈ as, ColumnArray dataType a) (hpos : 0 < toDecode)
    (htotal : row + toDecode ≤ (as.map ArrayRef.cells).flatten.length) (n : Nat) :
    match walkUnits row (as.map ArrayRef.cells) 0 toDecode with
    | none => ∃ msg, PrimitiveColDecoder.rowsOfChunk env row (n + 1)
        (.noDict ⟨units, buf, d.wasmContext⟩ d.primitiveType) toDecode = .error (.panic msg)
    | some xs => ∃ a, PrimitiveColDecoder.rowsOfChunk env row (n + 1)
        (.noDict ⟨units, buf, d.wasmContext⟩ d.primitiveType) toDecode = .ok ([a], xs.length) ∧
          a.cells = xs ∧ a.dataType = dataType := by
  have hloop := rowLoop_walk row 0 toDecode hhold harrays
  cases hwalk : walkUnits row (as.map ArrayRef.cells) 0 toDecode with
  | none =>
      rw [hwalk] at hloop
      obtain ⟨msg, hmsg⟩ := hloop
      refine ⟨msg, ?_⟩
      simp only [PrimitiveColDecoder.rowsOfChunk, ChunkDecoder.decodeRowAt, hmsg, error_bind]
  | some xs =>
      rw [hwalk] at hloop
      obtain ⟨arrays, s, hok, hcells, hall⟩ := hloop
      have hxs : xs.length = toDecode := by
        obtain ⟨-, hslice⟩ := (walkUnits_eq_some_iff hpos (Nat.zero_le row) (by omega)).1 hwalk
        rw [hslice, length_slice _ (by omega)]
      have hne : arrays ≠ [] := by
        rintro rfl
        rw [← hcells] at hxs
        simp at hxs
        omega
      obtain ⟨a, hconcat, hacells, halen, htype⟩ := concatArrays_ok hne hall
      have hlen : a.len = toDecode := by rw [halen, hacells, hcells, hxs]
      have hnonempty : arrays.isEmpty = false := by simpa using hne
      have hsub : checkedSub toDecode toDecode = .ok 0 := by
        rw [checkedSub, if_pos (Nat.le_refl _), Nat.sub_self]
      refine ⟨a, ?_, hacells.trans hcells, htype⟩
      simp only [PrimitiveColDecoder.rowsOfChunk, ChunkDecoder.decodeRowAt, hok, ok_bind,
        hnonempty, Bool.false_eq_true, if_false, hconcat, pure_eq_ok, hlen, hsub, if_true, hxs]

/-- **The loop over the chunks walks over the column.** -/
theorem rowsOfChunks_walk (hdecodable : d.primitiveType.decodable = true) (row : Nat) :
    ∀ {chunks : List Fb.Chunk} {contents : List (List ArrayRef)} (cur remaining : Nat),
      cur ≤ row → List.Forall₂ (d.ChunkHolds env) chunks contents →
        (∀ as ∈ contents, ∀ a ∈ as, ColumnArray dataType a) →
          match walkChunks row (chunkCells contents) cur remaining with
          | none => ∃ msg, d.rowsOfChunks env row chunks cur remaining = .error (.panic msg)
          | some xs => ∃ arrays, d.rowsOfChunks env row chunks cur remaining = .ok arrays ∧
              arrays.flatMap ArrayRef.cells = xs := by
  intro chunks contents cur remaining hcur hchunks
  induction hchunks generalizing cur remaining with
  | nil =>
      intro _
      exact ⟨[], rfl, rfl⟩
  | @cons c as cs contents hc hcs hloops =>
      intro harrays
      have has : ∀ a ∈ as, ColumnArray dataType a := harrays as (List.mem_cons_self ..)
      have hrest : ∀ as ∈ contents, ∀ a ∈ as, ColumnArray dataType a :=
        fun bs hbs => harrays bs (List.mem_cons_of_mem _ hbs)
      have hcells : chunkCells (as :: contents) =
          as.map ArrayRef.cells :: chunkCells contents := rfl
      rw [hcells, walkChunks, PrimitiveColDecoder.rowsOfChunks, numRows_eq hc has]
      by_cases hdone : remaining = 0
      · rw [if_pos hdone, if_pos hdone]
        exact ⟨[], rfl, rfl⟩
      rw [if_neg hdone, if_neg hdone]
      by_cases hskip : cur + (as.map ArrayRef.cells).flatten.length ≤ row
      · rw [if_pos hskip, if_pos hskip]
        exact hloops _ _ hskip hrest
      rw [if_neg hskip, if_neg hskip]
      have hsub : checkedSub row cur = .ok (row - cur) := if_pos hcur
      have hsub' : checkedSub (as.map ArrayRef.cells).flatten.length (row - cur) =
          .ok ((as.map ArrayRef.cells).flatten.length - (row - cur)) := if_pos (by omega)
      obtain ⟨units, buf, hopen, hhold⟩ := openChunk_ok hdecodable hc
      simp only [hsub, hsub', hopen, ok_bind]
      generalize hk : min ((as.map ArrayRef.cells).flatten.length - (row - cur)) remaining = k
      have htotal : row - cur + k ≤ (as.map ArrayRef.cells).flatten.length := by omega
      have hread := rowsOfChunk_walk hhold has (by omega) htotal units.length
      have hunits : (ChunkDecoder.noDict ⟨units, buf, d.wasmContext⟩ d.primitiveType).units.length =
          units.length := rfl
      rw [hunits]
      cases hwalk : walkUnits (row - cur) (as.map ArrayRef.cells) 0 k with
      | none =>
          rw [hwalk] at hread
          obtain ⟨msg, hmsg⟩ := hread
          exact ⟨msg, by rw [hmsg]; rfl⟩
      | some xs =>
          rw [hwalk] at hread
          obtain ⟨a, hok, hxs, -⟩ := hread
          have hlen : xs.length ≤ remaining := by
            obtain ⟨-, hslice⟩ :=
              (walkUnits_eq_some_iff (by omega) (Nat.zero_le _) (by omega)).1 hwalk
            rw [hslice, length_slice _ (by omega)]
            omega
          have hsubr : checkedSub remaining xs.length = .ok (remaining - xs.length) := if_pos hlen
          have ih := hloops cur (remaining - xs.length) hcur hrest
          simp only [hok, ok_bind, hsubr]
          cases hnext : walkChunks row (chunkCells contents) cur (remaining - xs.length) with
          | none =>
              rw [hnext] at ih
              obtain ⟨msg, hmsg⟩ := ih
              exact ⟨msg, by rw [hmsg]; rfl⟩
          | some ys =>
              rw [hnext] at ih
              obtain ⟨arrays, harr, hys⟩ := ih
              refine ⟨a :: arrays, by rw [harr]; rfl, ?_⟩
              rw [List.flatMap_cons, hxs, hys]

end Walks

/-! ## The ranges decoded -/

/-- The rows of a column. -/
def columnCells (contents : List (List ArrayRef)) : List Cell :=
  contents.flatten.flatMap ArrayRef.cells

theorem flatten_chunkCells (contents : List (List ArrayRef)) :
    (chunkCells contents).flatten.flatten = columnCells contents := by
  rw [columnCells, List.flatMap_def, chunkCells, List.map_flatten]

/-- The row counts of the units of every chunk. -/
def rowCounts (contents : List (List ArrayRef)) : List (List Nat) :=
  contents.map fun chunk => chunk.map ArrayRef.len

namespace PrimitiveColDecoder

variable {env : Env} {d : PrimitiveColDecoder} {contents : List (List ArrayRef)}

theorem Holds.layout_eq (h : d.Holds env contents) :
    layout (chunkCells contents) = rowCounts contents := by
  obtain ⟨dataType, harrays⟩ := h.arrays
  rw [layout, chunkCells, rowCounts, List.map_map]
  refine List.map_congr_left fun as has => ?_
  simp only [Function.comp_apply, unitRows, List.map_map]
  exact List.map_congr_left fun a ha => (harrays as has a ha).length_cells

theorem Holds.length_columnCells (h : d.Holds env contents) :
    (columnCells contents).length = ((rowCounts contents).map List.sum).sum := by
  rw [← h.layout_eq, ← flatten_chunkCells, List.length_flatten, List.map_flatten, layout,
    List.sum_flatten, List.map_map, List.map_map]
  rfl

/-- `decode_row_at` walks over the column. -/
theorem Holds.decodeRowAt_walk (h : d.Holds env contents) (rowId len : Nat) :
    match walkChunks rowId (chunkCells contents) 0 len with
    | none => ∃ msg, d.decodeRowAt env rowId len = .error (.panic msg)
    | some xs => ∃ arrays, d.decodeRowAt env rowId len = .ok arrays ∧
        arrays.flatMap ArrayRef.cells = xs := by
  obtain ⟨dataType, harrays⟩ := h.arrays
  exact rowsOfChunks_walk h.decodable rowId 0 len (Nat.zero_le rowId) h.chunks harrays

/-- A readable range is decoded. -/
theorem Holds.decodeRowAt_of_readable (h : d.Holds env contents) {rowId len : Nat}
    (hrange : rowId + len ≤ (columnCells contents).length)
    (hread : Readable (rowCounts contents) rowId len) :
    ∃ arrays, d.decodeRowAt env rowId len = .ok arrays ∧
      arrays.flatMap ArrayRef.cells = slice (columnCells contents) rowId len := by
  have hwalk := h.decodeRowAt_walk rowId len
  rw [← flatten_chunkCells] at hrange ⊢
  rw [← h.layout_eq] at hread
  have hsome : walkChunks rowId (chunkCells contents) 0 len =
      some (slice (chunkCells contents).flatten.flatten rowId len) :=
    walkChunks_of_readable (Nat.zero_le rowId) (by omega) hread
  rw [hsome] at hwalk
  exact hwalk

/-- In a column of distinct rows, only readable ranges are decoded exactly. -/
theorem Holds.readable_of_decodeRowAt (h : d.Holds env contents) {rowId len : Nat}
    (hrange : rowId + len ≤ (columnCells contents).length) (hnodup : (columnCells contents).Nodup)
    (hexact : ∃ arrays, d.decodeRowAt env rowId len = .ok arrays ∧
      arrays.flatMap ArrayRef.cells = slice (columnCells contents) rowId len) :
    Readable (rowCounts contents) rowId len := by
  obtain ⟨arrays, hok, hcells⟩ := hexact
  have hwalk := h.decodeRowAt_walk rowId len
  rw [← flatten_chunkCells] at hrange hnodup hcells
  rw [← h.layout_eq]
  cases hw : walkChunks rowId (chunkCells contents) 0 len with
  | none =>
      rw [hw] at hwalk
      obtain ⟨msg, hmsg⟩ := hwalk
      rw [hok] at hmsg
      cases hmsg
  | some xs =>
      rw [hw] at hwalk
      obtain ⟨arrays', hok', hxs⟩ := hwalk
      rw [hok, Except.ok.injEq] at hok'
      subst hok'
      rw [← hxs, hcells] at hw
      exact readable_of_walkChunks hnodup (Nat.zero_le rowId) (by omega) hw

end PrimitiveColDecoder

/-- Whatever rows a column of this division holds, `decode_row_at` returns
arrays whose concatenation is exactly the range. -/
def ExactRange (division : List (List Nat)) (rowId len : Nat) : Prop :=
  ∀ (env : Env) (d : PrimitiveColDecoder) (contents : List (List ArrayRef)),
    d.Holds env contents → rowCounts contents = division →
      ∃ arrays, d.decodeRowAt env rowId len = .ok arrays ∧
        arrays.flatMap ArrayRef.cells = slice (columnCells contents) rowId len

/-! ## A column of distinct rows -/

namespace Sample

/-- The environment with a decoder that counts on from the size of its binary. -/
def countEnv : Env :=
  { env with
    wasmDecode := fun rt _ _ numRows =>
      .ok (.prim .int64 ((List.range' rt.length numRows).map fun i : Nat => some (.int i))) }

/-- The rows from `start` on, each holding its own number. -/
def countArray (start numRows : Nat) : ArrayRef :=
  .prim .int64 ((List.range' start numRows).map fun i : Nat => some (.int i))

/-- A unit of the rows from `start` on, read by the decoder of that number. -/
def countUnit (start numRows : Nat) : Fb.EncUnit :=
  ⟨0, some ⟨.customWasm, some ⟨start, none⟩⟩, numRows, .uncompressed⟩

/-- The units of a chunk, with their arrays. -/
def countUnits : List Nat → Nat → List (Fb.EncUnit × ArrayRef)
  | [], _ => []
  | n :: ns, start => (countUnit start n, countArray start n) :: countUnits ns (start + n)

/-- The units of every chunk, with their arrays. -/
def countChunks : List (List Nat) → Nat → List (List (Fb.EncUnit × ArrayRef))
  | [], _ => []
  | c :: cs, start => countUnits c start :: countChunks cs (start + c.sum)

/-- The column of a division whose row `i` holds `i`. -/
def countColumn (division : List (List Nat)) : PrimitiveColDecoder where
  r := []
  chunksMeta := (countChunks division 0).map fun units =>
    ⟨0, 0, (units.map fun p => p.2.len).sum, .noDictionary, some (units.map Prod.fst), none⟩
  primitiveType := .prim .int64
  wasmContext := some ⟨some ((List.range (((division.map List.sum).sum) + 1)).map fun i =>
    (i, List.replicate i 0)), none, none, none⟩
  sharedDictionaryCache := ⟨[], [], [], []⟩
  checksumType := none

/-- The arrays of that column. -/
def countContents (division : List (List Nat)) : List (List ArrayRef) :=
  (countChunks division 0).map fun units => units.map Prod.snd

theorem countArray_column (start n : Nat) : ColumnArray (.prim .int64) (countArray start n) :=
  ⟨rfl, rfl, rfl⟩

@[simp] theorem len_countArray (start n : Nat) : (countArray start n).len = n := by
  simp [countArray]

/-- The runtime of a number is its binary. -/
theorem lookup_replicates {n i : Nat} (h : i < n) :
    List.lookup i ((List.range n).map fun i => (i, List.replicate i (0 : UInt8))) =
      some (List.replicate i 0) := by
  induction n with
  | zero => omega
  | succ n ih =>
      rw [List.range_succ, List.map_append, List.lookup_append]
      by_cases hlast : i = n
      · have hnone : List.lookup i ((List.range n).map fun i => (i, List.replicate i (0 : UInt8))) =
            none := by
          rw [List.lookup_eq_none_iff]
          intro p hp
          obtain ⟨j, hj, rfl⟩ := List.mem_map.1 hp
          have hlt := List.mem_range.1 hj
          simp only [bne_iff_ne, ne_eq]
          omega
        rw [hnone, hlast]
        simp
      · rw [ih (by omega)]
        rfl

theorem unitHolds_countUnit {division : List (List Nat)} {start n : Nat}
    (h : start ≤ (division.map List.sum).sum) :
    UnitHolds countEnv (countColumn division).wasmContext (.prim .int64) (countUnit start n) []
      (countArray start n) where
  size := rfl
  rows := (len_countArray start n).symm
  decodes := by
    refine ⟨.wasm [] (List.replicate start 0) (.prim .int64) n, ?_, fun rest => ?_⟩
    · have hnon : (DataType.prim .int64).nonNest = true := rfl
      simp only [EncUnitDecoder.decode, hnon, if_true, countEnv, List.length_replicate,
        countArray]
    · have hlookup := lookup_replicates (Nat.lt_succ_of_le h)
      simp only [ChunkDecoder.unitDecoder, countUnit, splitTo, Nat.zero_le, if_true, unwrapSome,
        ok_bind, List.nil_append, List.take_zero, List.drop_zero, createEncunitDecoder, unitData,
        ne_eq, not_true_eq_false, if_false, pure_eq_ok, countColumn, returnWasmDecoder, okOr,
        WASMReadingContext.getRuntime, WASMReadingContext.runtimes, hlookup]

theorem unitsHold_countUnits {division : List (List Nat)} : ∀ {ns : List Nat} {start : Nat},
    start + ns.sum ≤ (division.map List.sum).sum →
      UnitsHold countEnv (countColumn division).wasmContext (.prim .int64)
        ((countUnits ns start).map Prod.fst) [] ((countUnits ns start).map Prod.snd)
  | [], _, _ => .nil []
  | n :: ns, start, h => by
      rw [List.sum_cons] at h
      have hhead : UnitHolds countEnv (countColumn division).wasmContext (.prim .int64)
          (countUnit start n) [] (countArray start n) := unitHolds_countUnit (by omega)
      have hrest : UnitsHold countEnv (countColumn division).wasmContext (.prim .int64)
          ((countUnits ns (start + n)).map Prod.fst) [] ((countUnits ns (start + n)).map Prod.snd) :=
        unitsHold_countUnits (by omega)
      have hall := UnitsHold.cons hhead hrest
      exact hall

theorem mem_countUnits {p : Fb.EncUnit × ArrayRef} : ∀ {ns : List Nat} {start : Nat},
    p ∈ countUnits ns start → ∃ first n, p.2 = countArray first n
  | [], _, h => by cases h
  | n :: ns, start, h => by
      rcases List.mem_cons.1 h with rfl | h
      · exact ⟨start, n, rfl⟩
      · exact mem_countUnits h

theorem mem_countChunks {units : List (Fb.EncUnit × ArrayRef)} : ∀ {cs : List (List Nat)}
    {start : Nat}, units ∈ countChunks cs start → ∃ ns first, units = countUnits ns first
  | [], _, h => by cases h
  | c :: cs, start, h => by
      rcases List.mem_cons.1 h with rfl | h
      · exact ⟨c, start, rfl⟩
      · exact mem_countChunks h

theorem holds_countChunks {division : List (List Nat)} : ∀ {cs : List (List Nat)} {start : Nat},
    start + (cs.map List.sum).sum ≤ (division.map List.sum).sum →
      List.Forall₂ ((countColumn division).ChunkHolds countEnv)
        ((countChunks cs start).map fun units =>
          ⟨0, 0, (units.map fun p => p.2.len).sum, .noDictionary, some (units.map Prod.fst), none⟩)
        ((countChunks cs start).map fun units => units.map Prod.snd)
  | [], _, _ => .nil
  | c :: cs, start, h => by
      rw [List.map_cons, List.sum_cons] at h
      refine .cons ⟨rfl, ?_, ?_⟩ (holds_countChunks (by omega))
      · rw [List.map_map]
        rfl
      · exact ⟨_, [], rfl, rfl, unitsHold_countUnits (by omega)⟩

theorem holds_countColumn (division : List (List Nat)) :
    (countColumn division).Holds countEnv (countContents division) where
  decodable := rfl
  chunks := holds_countChunks (by omega)
  arrays := by
    refine ⟨.prim .int64, fun chunk hchunk a ha => ?_⟩
    obtain ⟨units, hunits, rfl⟩ := List.mem_map.1 hchunk
    obtain ⟨p, hp, rfl⟩ := List.mem_map.1 ha
    obtain ⟨ns, start, rfl⟩ := mem_countChunks hunits
    obtain ⟨first, n, hpn⟩ := mem_countUnits hp
    rw [hpn]
    exact countArray_column first n

theorem rowCounts_countUnits : ∀ (ns : List Nat) (start : Nat),
    (countUnits ns start).map (fun p => p.2.len) = ns
  | [], _ => rfl
  | n :: ns, start => by
      rw [countUnits, List.map_cons, len_countArray, rowCounts_countUnits ns]

theorem rowCounts_countContents (division : List (List Nat)) :
    rowCounts (countContents division) = division := by
  have h : ∀ (cs : List (List Nat)) (start : Nat),
      (countChunks cs start).map (fun units => units.map fun p => p.2.len) = cs := by
    intro cs
    induction cs with
    | nil => intro _; rfl
    | cons c cs ih =>
        intro start
        rw [countChunks, List.map_cons, rowCounts_countUnits, ih]
  rw [rowCounts, countContents, List.map_map]
  simpa [Function.comp_def] using h division 0

theorem cells_countUnits : ∀ (ns : List Nat) (start : Nat),
    ((countUnits ns start).map Prod.snd).flatMap ArrayRef.cells =
      (List.range' start ns.sum).map fun i : Nat => Cell.value (some (.int i))
  | [], _ => rfl
  | n :: ns, start => by
      have hrange := @List.range'_append start n ns.sum 1
      rw [Nat.one_mul] at hrange
      rw [countUnits, List.map_cons, List.flatMap_cons, cells_countUnits ns, List.sum_cons,
        ← hrange, List.map_append]
      simp [countArray, ArrayRef.cells]

/-- The rows of the column are different numbers. -/
theorem nodup_countContents (division : List (List Nat)) :
    (columnCells (countContents division)).Nodup := by
  have h : ∀ (cs : List (List Nat)) (start : Nat),
      columnCells ((countChunks cs start).map fun units => units.map Prod.snd) =
        (List.range' start (cs.map List.sum).sum).map fun i : Nat => Cell.value (some (.int i)) := by
    intro cs
    induction cs with
    | nil => intro _; rfl
    | cons c cs ih =>
        intro start
        have hrest := ih (start + c.sum)
        have hrange := @List.range'_append start c.sum (cs.map List.sum).sum 1
        rw [Nat.one_mul] at hrange
        rw [columnCells] at hrest ⊢
        rw [countChunks, List.map_cons, List.flatten_cons, List.flatMap_append, hrest,
          cells_countUnits, List.map_cons, List.sum_cons, ← hrange, List.map_append]
  rw [countContents, h]
  refine List.Nodup.map ?_ List.nodup_range'
  intro i j hij
  simp only [Cell.value.injEq, Option.some.injEq, Scalar.int.injEq] at hij
  omega

end Sample

/-- A range that is exact in every column is readable: the column of different
rows decides it. -/
theorem readable_of_exactRange {division : List (List Nat)} {rowId len : Nat}
    (hrange : rowId + len ≤ (division.map List.sum).sum) (h : ExactRange division rowId len) :
    Readable division rowId len := by
  have hholds := Sample.holds_countColumn division
  have hrows := Sample.rowCounts_countContents division
  have hlen := hholds.length_columnCells
  rw [hrows] at hlen
  have hread := hholds.readable_of_decodeRowAt (by omega) (Sample.nodup_countContents division)
    (h _ _ _ hholds hrows)
  rwa [hrows] at hread

/-- **`decode_row_at` is exact on a range of a division exactly when the range is
readable**: it lies within one unit, or it starts with a chunk and takes rows of
at most one unit of every chunk. -/
theorem exactRange_iff {division : List (List Nat)} {rowId len : Nat}
    (hrange : rowId + len ≤ (division.map List.sum).sum) :
    ExactRange division rowId len ↔ Readable division rowId len := by
  constructor
  · exact readable_of_exactRange hrange
  · rintro hread env d contents hholds rfl
    have hlen := hholds.length_columnCells
    exact hholds.decodeRowAt_of_readable (by omega) hread

/-- The second unit of a chunk. -/
theorem exactRange_second_unit : ExactRange [[1, 2], [3]] 1 2 :=
  (exactRange_iff (by decide)).2 (by decide)

namespace Sample

/-- The rows of the column of a file of one integer column: the fault of the
first step that fails. -/
def rangeFault (cs : List FileWriter.Call) (rowId len : Nat) : Option Fault :=
  match (do
    let w ← FileWriter.run env schema .default cs
    let r ← (FileReaderV2Builder.new w.file).build env
    let footer ← Footer.tryNewWithProjection env r.rowGroupCntNPointers
      r.groupedColumnMetadataBuffers r.schema
    let group ← unwrapSome footer.rowGroupMetadatas.head?
    let cache ← unwrapSome r.sharedDictionaryCache
    let field ← unwrapSome schema.head?
    let (d, _) ← createLogicalDecoder
      ⟨r.reader, group.columnMetadatas, r.wasmContext, cache, r.checksumType⟩ field 0
    d.decodeRowAt env rowId len) with
  | .ok _ => none
  | .error f => some f

end Sample

/-- Two batches of one row are two units of one chunk; a range over both panics. -/
theorem two_units_not_exact : ¬ ExactRange [[1, 1]] 0 2 ∧
    Sample.rangeFault [.writeBatch Sample.batch, .writeBatch Sample.batch] 0 2 =
      some (.panic "attempt to subtract with overflow") := by
  constructor
  · intro h
    have hread := readable_of_exactRange (by decide) h
    revert hread
    decide
  · decide +kernel

end F3Format
