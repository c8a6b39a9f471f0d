import F3Format.Lib.Bytes

/-!
# Walking to a range of rows

The two loops that decode a range of rows, on the rows alone: a column is a list
of chunks, a chunk a list of units, a unit a list of rows. The loop over the
units measures every unit against the first requested row, also after it has
read a part; the loop over the chunks does not count a chunk it has read. This
file determines the ranges that come out right.
-/

set_option autoImplicit false

namespace F3Format

open Lib

variable {α β : Type}

/-- The loop over the units of a chunk; `none` when `row - cur` underflows. -/
def walkUnits (row : Nat) : List (List α) → Nat → Nat → Option (List α)
  | [], _, _ => some []
  | u :: us, cur, remaining =>
      if row ≤ cur + u.length then
        if cur ≤ row then
          let n := min remaining (u.length - (row - cur))
          if remaining - n = 0 then some (slice u (row - cur) n)
          else (walkUnits row us (cur + u.length) (remaining - n)).map fun xs =>
            slice u (row - cur) n ++ xs
        else none
      else if remaining = 0 then some []
      else walkUnits row us (cur + u.length) remaining

/-- The loop over the chunks; a chunk that is read does not advance `cur`. -/
def walkChunks (row : Nat) : List (List (List α)) → Nat → Nat → Option (List α)
  | [], _, _ => some []
  | c :: cs, cur, remaining =>
      if remaining = 0 then some []
      else if cur + c.flatten.length ≤ row then
        walkChunks row cs (cur + c.flatten.length) remaining
      else
        match walkUnits (row - cur) c 0 (min (c.flatten.length - (row - cur)) remaining) with
        | none => none
        | some xs => (walkChunks row cs cur (remaining - xs.length)).map fun ys => xs ++ ys

/-! ## The ranges that are read -/

/-- The row counts of the units. -/
def unitRows (c : List (List α)) : List Nat := c.map List.length

/-- The range lies within one unit. -/
def OneUnit : List Nat → Nat → Nat → Prop
  | [], _, _ => False
  | u :: us, start, len => start + len ≤ u ∨ (u ≤ start ∧ OneUnit us (start - u) len)

/-- The next `len` rows take rows of at most one unit of every chunk. -/
def OneUnitEach : List (List Nat) → Nat → Prop
  | [], len => len = 0
  | c :: cs, len =>
      len = 0 ∨ ((c.sum = 0 ∨ OneUnit c 0 (min len c.sum)) ∧ OneUnitEach cs (len - min len c.sum))

/-- The range lies within one unit, or it starts with a chunk and takes rows of
at most one unit of every chunk. -/
def Readable : List (List Nat) → Nat → Nat → Prop
  | [], _, len => len = 0
  | c :: cs, start, len =>
      len = 0 ∨
        if c.sum ≤ start then Readable cs (start - c.sum) len
        else OneUnit c start len ∨ (start = 0 ∧ OneUnitEach (c :: cs) len)

instance OneUnit.decidable : (us : List Nat) → (start len : Nat) → Decidable (OneUnit us start len)
  | [], _, _ => isFalse id
  | u :: us, start, len =>
      have := OneUnit.decidable us (start - u) len
      inferInstanceAs (Decidable (start + len ≤ u ∨ (u ≤ start ∧ OneUnit us (start - u) len)))

instance OneUnitEach.decidable : (cs : List (List Nat)) → (len : Nat) →
    Decidable (OneUnitEach cs len)
  | [], len => inferInstanceAs (Decidable (len = 0))
  | c :: cs, len =>
      have := OneUnitEach.decidable cs (len - min len c.sum)
      inferInstanceAs (Decidable (len = 0 ∨ ((c.sum = 0 ∨ OneUnit c 0 (min len c.sum)) ∧
        OneUnitEach cs (len - min len c.sum))))

instance Readable.decidable : (cs : List (List Nat)) → (start len : Nat) →
    Decidable (Readable cs start len)
  | [], _, len => inferInstanceAs (Decidable (len = 0))
  | c :: cs, start, len =>
      have := Readable.decidable cs (start - c.sum) len
      inferInstanceAs (Decidable (len = 0 ∨ if c.sum ≤ start then Readable cs (start - c.sum) len
        else OneUnit c start len ∨ (start = 0 ∧ OneUnitEach (c :: cs) len)))

theorem sum_unitRows (c : List (List α)) : (unitRows c).sum = c.flatten.length := by
  simp [unitRows, List.length_flatten]

theorem OneUnit.le_sum : ∀ {us : List Nat} {start len : Nat}, OneUnit us start len →
    start + len ≤ us.sum
  | [], _, _, h => h.elim
  | u :: us, start, len, h => by
      rw [List.sum_cons]
      rcases h with h | ⟨hu, h⟩
      · omega
      · have hrest := OneUnit.le_sum h
        omega

/-- One row lies in one unit. -/
theorem OneUnit.of_lt_sum : ∀ {us : List Nat} {start : Nat}, start < us.sum → OneUnit us start 1
  | [], _, h => nomatch h
  | u :: us, start, h => by
      rw [List.sum_cons] at h
      by_cases hu : start < u
      · exact .inl hu
      · exact .inr ⟨Nat.le_of_not_lt hu, OneUnit.of_lt_sum (by omega)⟩

/-! ## Units -/

/-- **The loop over the units returns the range exactly when it lies in one unit.** -/
theorem walkUnits_eq_some_iff {row : Nat} : ∀ {us : List (List α)} {cur remaining : Nat}
    {xs : List α}, 0 < remaining → cur ≤ row → row + remaining ≤ cur + us.flatten.length →
      (walkUnits row us cur remaining = some xs ↔
        OneUnit (unitRows us) (row - cur) remaining ∧
          xs = slice us.flatten (row - cur) remaining)
  | [], cur, remaining, xs, hpos, hcur, htotal => by
      simp only [List.flatten_nil, List.length_nil] at htotal
      omega
  | u :: us, cur, remaining, xs, hpos, hcur, htotal => by
      rw [List.flatten_cons, List.length_append] at htotal
      have hunits : OneUnit (unitRows (u :: us)) (row - cur) remaining ↔
          row - cur + remaining ≤ u.length ∨ (u.length ≤ row - cur ∧
            OneUnit (unitRows us) (row - cur - u.length) remaining) := Iff.rfl
      rw [hunits, List.flatten_cons, walkUnits]
      by_cases hvisit : row ≤ cur + u.length
      · rw [if_pos hvisit, if_pos hcur]
        dsimp only
        by_cases hfits : row - cur + remaining ≤ u.length
        · -- the unit holds what is left
          have hn : min remaining (u.length - (row - cur)) = remaining := by omega
          rw [hn, Nat.sub_self, if_pos rfl, Option.some.injEq, slice_append_left _ _ hfits]
          exact ⟨fun h => ⟨.inl hfits, h.symm⟩, fun h => h.2.symm⟩
        · have hn : min remaining (u.length - (row - cur)) = u.length - (row - cur) := by omega
          rw [hn, if_neg (by omega)]
          by_cases hend : cur + u.length = row
          · -- the range starts right after the unit, which contributes no row
            have hzero : u.length - (row - cur) = 0 := by omega
            have hskip : row - cur - u.length = row - (cur + u.length) := by omega
            have hslice : slice (u ++ us.flatten) (row - cur) remaining =
                slice us.flatten (row - (cur + u.length)) remaining := by
              have h := slice_append_right u us.flatten (row - (cur + u.length)) remaining
              rwa [show u.length + (row - (cur + u.length)) = row - cur by omega] at h
            rw [hzero, Nat.sub_zero, slice_length_zero, hslice, hskip]
            simp only [List.nil_append, Option.map_id']
            rw [walkUnits_eq_some_iff hpos (by omega) (by omega)]
            constructor
            · rintro ⟨hone, hxs⟩
              exact ⟨.inr ⟨by omega, hone⟩, hxs⟩
            · rintro ⟨hone, hxs⟩
              exact ⟨(hone.resolve_left hfits).2, hxs⟩
          · -- the next unit is measured against a row before it
            have hnone : walkUnits row us (cur + u.length)
                (remaining - (u.length - (row - cur))) = none := by
              cases us with
              | nil =>
                  simp only [List.flatten_nil, List.length_nil] at htotal
                  omega
              | cons v vs => rw [walkUnits, if_pos (by omega), if_neg (by omega)]
            rw [hnone]
            constructor
            · intro h
              cases h
            · rintro ⟨hone | ⟨hle, -⟩, -⟩ <;> omega
      · rw [if_neg hvisit, if_neg (by omega)]
        have hskip : row - cur - u.length = row - (cur + u.length) := by omega
        have hslice : slice (u ++ us.flatten) (row - cur) remaining =
            slice us.flatten (row - (cur + u.length)) remaining := by
          have h := slice_append_right u us.flatten (row - (cur + u.length)) remaining
          rwa [show u.length + (row - (cur + u.length)) = row - cur by omega] at h
        rw [walkUnits_eq_some_iff hpos (by omega) (by omega), hslice, hskip]
        constructor
        · rintro ⟨hone, hxs⟩
          exact ⟨.inr ⟨by omega, hone⟩, hxs⟩
        · rintro ⟨hone | ⟨-, hone⟩, hxs⟩
          · omega
          · exact ⟨hone, hxs⟩

/-! ## Chunks -/

/-- The row counts of the units of every chunk. -/
def layout (cs : List (List (List α))) : List (List Nat) := cs.map unitRows

@[simp] theorem layout_cons (c : List (List α)) (cs : List (List (List α))) :
    layout (c :: cs) = unitRows c :: layout cs := rfl

theorem slice_zero_append (xs ys : List α) (len : Nat) :
    slice (xs ++ ys) 0 len =
      slice xs 0 (min len xs.length) ++ slice ys 0 (len - min len xs.length) := by
  have hmin : len - min len xs.length = len - xs.length := by omega
  simp only [slice, List.drop_zero, hmin, List.take_append]
  rw [← List.take_take, List.take_length]

/-- A slice that begins in the first part and reaches the second. -/
theorem slice_append_across (xs ys : List α) {off len : Nat} (h : off ≤ xs.length)
    (h' : xs.length - off ≤ len) :
    slice (xs ++ ys) off len =
      slice xs off (xs.length - off) ++ slice ys 0 (len - (xs.length - off)) := by
  have hall : (xs.drop off).take len = xs.drop off :=
    List.take_of_length_le (by rwa [List.length_drop])
  have hrest : (xs.drop off).take (xs.length - off) = xs.drop off :=
    List.take_of_length_le (Nat.le_of_eq List.length_drop)
  simp only [slice, List.drop_append_of_le_length h, List.take_append, List.length_drop,
    List.drop_zero, hall, hrest]

@[simp] theorem walkChunks_zero (row : Nat) (cs : List (List (List α))) (cur : Nat) :
    walkChunks row cs cur 0 = some [] := by
  cases cs with
  | nil => rfl
  | cons c cs => rw [walkChunks, if_pos rfl]

/-- The step of the loop at a chunk that holds the first requested row. -/
theorem walkChunks_read {row cur remaining : Nat} {c : List (List α)} {cs : List (List (List α))}
    {ys : List α} (hpos : 0 < remaining) (hcur : cur ≤ row)
    (hhere : row < cur + c.flatten.length) :
    walkChunks row (c :: cs) cur remaining = some ys ↔
      OneUnit (unitRows c) (row - cur) (min (c.flatten.length - (row - cur)) remaining) ∧
        ∃ rest, walkChunks row cs cur
            (remaining - min (c.flatten.length - (row - cur)) remaining) = some rest ∧
          ys = slice c.flatten (row - cur) (min (c.flatten.length - (row - cur)) remaining) ++
            rest := by
  have hk : 0 < min (c.flatten.length - (row - cur)) remaining := by omega
  have hunits : ∀ xs, walkUnits (row - cur) c 0 (min (c.flatten.length - (row - cur)) remaining) =
      some xs ↔ OneUnit (unitRows c) (row - cur - 0) (min (c.flatten.length - (row - cur)) remaining) ∧
        xs = slice c.flatten (row - cur - 0) (min (c.flatten.length - (row - cur)) remaining) :=
    fun xs => walkUnits_eq_some_iff hk (by omega) (by omega)
  simp only [Nat.sub_zero] at hunits
  rw [walkChunks, if_neg (by omega), if_neg (by omega)]
  cases hw : walkUnits (row - cur) c 0 (min (c.flatten.length - (row - cur)) remaining) with
  | none =>
      constructor
      · intro h
        cases h
      · rintro ⟨hone, -⟩
        have h := (hunits _).2 ⟨hone, rfl⟩
        rw [hw] at h
        cases h
  | some xs =>
      obtain ⟨hone, hxs⟩ := (hunits xs).1 hw
      have hlen : xs.length = min (c.flatten.length - (row - cur)) remaining := by
        rw [hxs, length_slice _ (by omega)]
      simp only [hlen, Option.map_eq_some_iff]
      rw [hxs]
      constructor
      · rintro ⟨rest, hrest, rfl⟩
        exact ⟨hone, rest, hrest, rfl⟩
      · rintro ⟨-, rest, hrest, rfl⟩
        exact ⟨rest, hrest, rfl⟩

/-- At the start of a chunk the loop reads every chunk from its first row on. -/
theorem walkChunks_start_iff {row : Nat} : ∀ {cs : List (List (List α))} {len : Nat} {ys : List α},
    len ≤ cs.flatten.flatten.length →
      (walkChunks row cs row len = some ys ↔
        OneUnitEach (layout cs) len ∧ ys = slice cs.flatten.flatten 0 len)
  | [], len, ys, hlen => by
      obtain rfl : len = 0 := by simpa using hlen
      simp [walkChunks, layout, OneUnitEach, eq_comm]
  | c :: cs, len, ys, hlen => by
      rw [List.flatten_cons, List.flatten_append, List.length_append] at hlen
      rw [List.flatten_cons, List.flatten_append, layout_cons, OneUnitEach, sum_unitRows]
      rcases Nat.eq_zero_or_pos len with rfl | hpos
      · simp [eq_comm]
      by_cases hempty : c.flatten.length = 0
      · have hnil : c.flatten = [] := List.length_eq_zero_iff.1 hempty
        have hskip : walkChunks row (c :: cs) row len = walkChunks row cs row len := by
          rw [walkChunks, if_neg (by omega), if_pos (by omega), hempty, Nat.add_zero]
        rw [hskip, walkChunks_start_iff (by omega), hempty, hnil]
        simp only [Nat.min_zero, Nat.sub_zero, List.nil_append, true_or, true_and]
        constructor
        · rintro ⟨heach, hys⟩
          exact ⟨.inr heach, hys⟩
        · rintro ⟨hzero | heach, hys⟩
          · omega
          · exact ⟨heach, hys⟩
      · have hmin : min (c.flatten.length - (row - row)) len = min len c.flatten.length := by omega
        rw [walkChunks_read hpos (Nat.le_refl row) (by omega), hmin, Nat.sub_self,
          slice_zero_append]
        constructor
        · rintro ⟨hone, rest, hrest, rfl⟩
          obtain ⟨heach, rfl⟩ := (walkChunks_start_iff (by omega)).1 hrest
          exact ⟨.inr ⟨.inr hone, heach⟩, rfl⟩
        · rintro ⟨hzero | ⟨hone, heach⟩, rfl⟩
          · omega
          · exact ⟨hone.resolve_left hempty, _, (walkChunks_start_iff (by omega)).2 ⟨heach, rfl⟩,
              rfl⟩

theorem walkChunks_skip {row cur remaining : Nat} {c : List (List α)}
    {cs : List (List (List α))} (hpos : 0 < remaining) (hskip : cur + c.flatten.length ≤ row) :
    walkChunks row (c :: cs) cur remaining =
      walkChunks row cs (cur + c.flatten.length) remaining := by
  rw [walkChunks, if_neg (by omega), if_pos hskip]

/-- **Every readable range is returned.** -/
theorem walkChunks_of_readable {row : Nat} : ∀ {cs : List (List (List α))} {cur len : Nat},
    cur ≤ row → row + len ≤ cur + cs.flatten.flatten.length →
      Readable (layout cs) (row - cur) len →
        walkChunks row cs cur len = some (slice cs.flatten.flatten (row - cur) len)
  | [], cur, len, hcur, htotal, h => by
      obtain rfl : len = 0 := h
      simp
  | c :: cs, cur, len, hcur, htotal, h => by
      rcases Nat.eq_zero_or_pos len with rfl | hpos
      · simp
      rw [List.flatten_cons, List.flatten_append, List.length_append] at htotal
      rw [List.flatten_cons, List.flatten_append]
      rw [layout_cons, Readable, sum_unitRows] at h
      replace h := h.resolve_left (by omega)
      by_cases hskip : c.flatten.length ≤ row - cur
      · rw [if_pos hskip] at h
        have hshift : row - cur - c.flatten.length = row - (cur + c.flatten.length) := by omega
        rw [hshift] at h
        rw [walkChunks_skip hpos (by omega), walkChunks_of_readable (by omega) (by omega) h]
        have hslice := slice_append_right c.flatten cs.flatten.flatten
          (row - (cur + c.flatten.length)) len
        rw [show c.flatten.length + (row - (cur + c.flatten.length)) = row - cur by omega] at hslice
        rw [hslice]
      · rw [if_neg hskip] at h
        rcases h with hone | ⟨hzero, heach⟩
        · have hle := hone.le_sum
          rw [sum_unitRows] at hle
          have hmin : min (c.flatten.length - (row - cur)) len = len := by omega
          rw [walkChunks_read hpos hcur (by omega), hmin, Nat.sub_self]
          refine ⟨hone, [], walkChunks_zero .., ?_⟩
          rw [List.append_nil, slice_append_left _ _ hle]
        · obtain rfl : cur = row := by omega
          have hlen : len ≤ (c :: cs).flatten.flatten.length := by
            rw [List.flatten_cons, List.flatten_append, List.length_append]
            omega
          rw [(walkChunks_start_iff hlen).2 ⟨heach, rfl⟩, hzero, List.flatten_cons,
            List.flatten_append]

/-! ## The other ranges -/

/-- Every row returned is a row of the column. -/
theorem mem_of_walkUnits {row : Nat} : ∀ {us : List (List α)} {cur remaining : Nat} {xs : List α},
    walkUnits row us cur remaining = some xs → ∀ x ∈ xs, x ∈ us.flatten
  | [], _, _, _, h, x, hx => by
      cases h
      cases hx
  | u :: us, cur, remaining, xs, h, x, hx => by
      rw [walkUnits] at h
      rw [List.flatten_cons]
      have hslice : ∀ off n, x ∈ slice u off n → x ∈ u :=
        fun off n hmem => (slice_sublist u off n).subset hmem
      split at h
      · split at h
        · dsimp only at h
          split at h
          · cases h
            exact List.mem_append_left _ (hslice _ _ hx)
          · obtain ⟨ys, hys, rfl⟩ := Option.map_eq_some_iff.1 h
            rcases List.mem_append.1 hx with hx | hx
            · exact List.mem_append_left _ (hslice _ _ hx)
            · exact List.mem_append_right _ (mem_of_walkUnits hys x hx)
        · cases h
      · split at h
        · cases h
          cases hx
        · exact List.mem_append_right _ (mem_of_walkUnits h x hx)

theorem mem_of_walkChunks {row : Nat} : ∀ {cs : List (List (List α))} {cur remaining : Nat}
    {xs : List α}, walkChunks row cs cur remaining = some xs → ∀ x ∈ xs, x ∈ cs.flatten.flatten
  | [], _, _, _, h, x, hx => by
      cases h
      cases hx
  | c :: cs, cur, remaining, xs, h, x, hx => by
      rw [walkChunks] at h
      rw [List.flatten_cons, List.flatten_append]
      split at h
      · cases h
        cases hx
      split at h
      · exact List.mem_append_right _ (mem_of_walkChunks h x hx)
      split at h
      · cases h
      · next ys hys =>
          obtain ⟨zs, hzs, rfl⟩ := Option.map_eq_some_iff.1 h
          rcases List.mem_append.1 hx with hx | hx
          · exact List.mem_append_left _ (mem_of_walkUnits hys x hx)
          · exact List.mem_append_right _ (mem_of_walkChunks hzs x hx)

/-- After a chunk that was not read from its first row, the next rows come out
wrong: the loop starts every later chunk at the same distance or skips it. -/
theorem walkChunks_inside_ne {row : Nat} : ∀ {cs : List (List (List α))} {cur len : Nat},
    cs.flatten.flatten.Nodup → cur < row → 0 < len → len ≤ cs.flatten.flatten.length →
      walkChunks row cs cur len ≠ some (slice cs.flatten.flatten 0 len)
  | [], _, _, _, _, hpos, hlen, _ => by
      simp only [List.flatten_nil, List.length_nil] at hlen
      omega
  | c :: cs, cur, len, hnodup, hcur, hpos, hlen, h => by
      rw [List.flatten_cons, List.flatten_append] at hnodup hlen h
      obtain ⟨-, hrest, hdisjoint⟩ := List.nodup_append.1 hnodup
      by_cases hempty : c.flatten = []
      · rw [walkChunks_skip hpos (by simp [hempty]; omega), hempty] at h
        rw [hempty] at hlen
        exact walkChunks_inside_ne hrest hcur hpos hlen h
      have hclen : 0 < c.flatten.length := List.length_pos_iff.2 hempty
      have hfirst : (slice (c.flatten ++ cs.flatten.flatten) 0 len)[0]? = some c.flatten[0] := by
        rw [slice, List.drop_zero, List.getElem?_take_of_lt hpos, List.getElem?_append_left hclen,
          List.getElem?_eq_getElem hclen]
      by_cases hskip : cur + c.flatten.length ≤ row
      · -- the chunk is skipped, so its first row is missing
        rw [walkChunks_skip hpos hskip] at h
        have hmem := mem_of_walkChunks h _ (List.mem_of_getElem? hfirst)
        exact hdisjoint _ (List.getElem_mem hclen) _ hmem rfl
      · -- the chunk is read from a later row
        obtain ⟨-, rest, -, heq⟩ := (walkChunks_read hpos (by omega) (by omega)).1 h
        have hlater : row - cur < c.flatten.length := by omega
        have hsecond : (slice c.flatten (row - cur)
            (min (c.flatten.length - (row - cur)) len) ++ rest)[0]? =
              some c.flatten[row - cur] := by
          have hpart : 0 < (slice c.flatten (row - cur)
              (min (c.flatten.length - (row - cur)) len)).length := by
            rw [length_slice _ (by omega)]
            omega
          rw [List.getElem?_append_left hpart, slice, List.getElem?_take_of_lt (by omega),
            List.getElem?_drop, Nat.add_zero, List.getElem?_eq_getElem hlater]
        rw [heq, hsecond, Option.some.injEq] at hfirst
        have hc : c.flatten.Nodup := (List.nodup_append.1 hnodup).1
        have hindex := (List.Nodup.getElem_inj_iff hc).1 hfirst
        omega

/-- **A range that comes out right in a column of distinct rows is readable.** -/
theorem readable_of_walkChunks {row : Nat} : ∀ {cs : List (List (List α))} {cur len : Nat},
    cs.flatten.flatten.Nodup → cur ≤ row → row + len ≤ cur + cs.flatten.flatten.length →
      walkChunks row cs cur len = some (slice cs.flatten.flatten (row - cur) len) →
        Readable (layout cs) (row - cur) len
  | [], cur, len, _, hcur, htotal, _ => by
      simp only [List.flatten_nil, List.length_nil] at htotal
      show len = 0
      omega
  | c :: cs, cur, len, hnodup, hcur, htotal, h => by
      rcases Nat.eq_zero_or_pos len with rfl | hpos
      · exact .inl rfl
      rw [List.flatten_cons, List.flatten_append, List.length_append] at htotal
      rw [List.flatten_cons, List.flatten_append] at hnodup h
      rw [layout_cons, Readable, sum_unitRows]
      refine .inr ?_
      have hrest : cs.flatten.flatten.Nodup := (List.nodup_append.1 hnodup).2.1
      by_cases hskip : c.flatten.length ≤ row - cur
      · rw [if_pos hskip]
        have hshift : row - cur - c.flatten.length = row - (cur + c.flatten.length) := by omega
        have hslice := slice_append_right c.flatten cs.flatten.flatten
          (row - (cur + c.flatten.length)) len
        rw [show c.flatten.length + (row - (cur + c.flatten.length)) = row - cur by omega] at hslice
        rw [walkChunks_skip hpos (by omega), hslice] at h
        rw [hshift]
        exact readable_of_walkChunks hrest (by omega) (by omega) h
      · rw [if_neg hskip]
        by_cases hzero : row - cur = 0
        · obtain rfl : cur = row := by omega
          rw [Nat.sub_self] at h
          have hlen : len ≤ (c :: cs).flatten.flatten.length := by
            rw [List.flatten_cons, List.flatten_append, List.length_append]
            omega
          exact .inr ⟨hzero, ((walkChunks_start_iff hlen).1 h).1⟩
        · obtain ⟨hone, rest, hwalk, heq⟩ := (walkChunks_read hpos hcur (by omega)).1 h
          by_cases hinside : row - cur + len ≤ c.flatten.length
          · have hmin : min (c.flatten.length - (row - cur)) len = len := by omega
            rw [hmin] at hone
            exact .inl hone
          · -- the range goes on in the next chunk
            exfalso
            have hmin : min (c.flatten.length - (row - cur)) len =
                c.flatten.length - (row - cur) := by omega
            rw [hmin] at hwalk heq
            have hsplit : slice (c.flatten ++ cs.flatten.flatten) (row - cur) len =
                slice c.flatten (row - cur) (c.flatten.length - (row - cur)) ++
                  slice cs.flatten.flatten 0 (len - (c.flatten.length - (row - cur))) :=
              slice_append_across _ _ (by omega) (by omega)
            rw [hsplit] at heq
            have hrestEq := List.append_cancel_left heq
            rw [← hrestEq] at hwalk
            exact walkChunks_inside_ne hrest (by omega) (by omega) (by omega) hwalk

end F3Format
