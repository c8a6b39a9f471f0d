import F3Format.Arrow
import F3Format.Lib.Bytes

/-!
# Slices of well-formed arrays

A slice keeps the type, the rows and the validity of the range it covers, and
what Arrow's constructors guarantee of an array holds of its slices.
-/

set_option autoImplicit false

namespace F3Format

/-! ## Offsets -/

theorem monotone_cons (a : Nat) (l : List Nat) :
    monotone (a :: l) = true ↔ (∀ b ∈ l.head?, a ≤ b) ∧ monotone l = true := by
  cases l with
  | nil => simp [monotone]
  | cons b l => simp [monotone]

/-- Checking neighbours is checking all pairs. -/
theorem monotone_iff_pairwise (l : List Nat) : monotone l = true ↔ l.Pairwise (· ≤ ·) := by
  induction l with
  | nil => simp [monotone]
  | cons a l ih =>
      rw [monotone_cons, ih, List.pairwise_cons]
      constructor
      · rintro ⟨hhead, hl⟩
        refine ⟨fun b hb => ?_, hl⟩
        cases l with
        | nil => simp at hb
        | cons c l =>
            have hac : a ≤ c := hhead c rfl
            rcases List.mem_cons.1 hb with rfl | hb
            · exact hac
            · exact Nat.le_trans hac ((List.pairwise_cons.1 hl).1 b hb)
      · rintro ⟨hall, hl⟩
        exact ⟨fun b hb => hall b (List.mem_of_mem_head? hb), hl⟩

theorem monotone_sublist {l l' : List Nat} (h : l'.Sublist l) (hl : monotone l = true) :
    monotone l' = true :=
  (monotone_iff_pairwise l').2 (((monotone_iff_pairwise l).1 hl).sublist h)

/-- Every offset is at most the last one. -/
theorem le_getLastD_of_mem {l : List Nat} (hl : monotone l = true) {a : Nat} (ha : a ∈ l) :
    a ≤ l.getLastD 0 := by
  obtain ⟨init, last, rfl⟩ := (List.eq_nil_or_concat' l).resolve_left (List.ne_nil_of_mem ha)
  rw [monotone_iff_pairwise, List.pairwise_append] at hl
  rw [List.getLastD_concat]
  rcases List.mem_append.1 ha with ha | ha
  · exact hl.2.2 a ha last (List.mem_singleton_self last)
  · exact Nat.le_of_eq (List.mem_singleton.1 ha)

theorem headD_le_getLastD {l : List Nat} (hl : monotone l = true) : l.headD 0 ≤ l.getLastD 0 := by
  cases l with
  | nil => exact Nat.le_refl 0
  | cons a l => exact le_getLastD_of_mem hl (List.mem_cons_self ..)

/-! ## Slices -/

namespace ArrayRef

theorem sliceList_eq (cs : List ArrayRef) (off n : Nat) :
    sliceList cs off n = cs.map fun c => c.slice off n := by
  induction cs with
  | nil => rfl
  | cons c cs ih => simp [sliceList, ih]

theorem wfList_eq_true (cs : List ArrayRef) : wfList cs = true ↔ ∀ c ∈ cs, c.wf = true := by
  induction cs with
  | nil => simp [wfList]
  | cons c cs ih => simp [wfList, ih]

@[simp] theorem dataType_slice (a : ArrayRef) (off n : Nat) :
    (a.slice off n).dataType = a.dataType := by
  cases a with
  | prim t vs => rfl
  | list large f offsets values nulls => cases large <;> rfl
  | struct fs cols nulls len => rfl

theorem len_slice {a : ArrayRef} {off n : Nat} (h : off + n ≤ a.len) : (a.slice off n).len = n := by
  cases a with
  | prim t vs => exact Lib.length_slice vs h
  | list large f offsets values nulls =>
      simp only [len] at h
      simp only [slice, len, List.length_take, List.length_drop]
      omega
  | struct fs cols nulls len => rfl

theorem length_validity {a : ArrayRef} (hwf : a.wf = true) : a.validity.length = a.len := by
  cases a with
  | prim t vs => simp [validity]
  | list large f offsets values nulls =>
      cases nulls with
      | none => simp [validity, len]
      | some bs =>
          simp only [wf, Bool.and_eq_true, Option.all_some, decide_eq_true_eq] at hwf
          exact hwf.1.1.1.2
  | struct fs cols nulls n =>
      cases nulls with
      | none => simp [validity, len]
      | some bs =>
          simp only [wf, Bool.and_eq_true, Option.all_some, decide_eq_true_eq] at hwf
          exact hwf.1.1.1.2

theorem validity_slice {a : ArrayRef} {off n : Nat} (h : off + n ≤ a.len) :
    (a.slice off n).validity = Lib.slice a.validity off n := by
  cases a with
  | prim t vs => simp [slice, validity, Lib.slice, List.map_take, List.map_drop]
  | list large f offsets values nulls =>
      cases nulls with
      | none =>
          simp only [len] at h
          have hlen : ((offsets.drop off).take (n + 1)).length - 1 = n := by
            simp only [List.length_take, List.length_drop]
            omega
          simp only [slice, validity, Option.map_none, Option.getD_none, hlen]
          exact (Lib.slice_replicate true h).symm
      | some bs => rfl
  | struct fs cols nulls len =>
      cases nulls with
      | none => exact (Lib.slice_replicate true h).symm
      | some bs => rfl

theorem nullCount_slice_le {a : ArrayRef} {off n : Nat} (h : off + n ≤ a.len) :
    (a.slice off n).nullCount ≤ a.nullCount := by
  unfold nullCount
  rw [validity_slice h]
  exact (Lib.slice_sublist a.validity off n).count_le false

end ArrayRef

theorem unmaskedNull_slice {child : List Bool} {nulls : Option (List Bool)} (off n : Nat)
    (h : unmaskedNull child nulls = false) :
    unmaskedNull (Lib.slice child off n) (nulls.map fun bs => Lib.slice bs off n) = false := by
  cases nulls with
  | none =>
      simp only [Option.map_none, unmaskedNull, List.contains_eq_mem, decide_eq_false_iff_not]
        at h ⊢
      exact fun hmem => h ((Lib.slice_sublist child off n).subset hmem)
  | some bs =>
      simp only [Option.map_some, unmaskedNull, List.any_eq_false] at h ⊢
      rw [← Lib.slice_zip]
      exact fun p hp => h p ((Lib.slice_sublist _ off n).subset hp)

mutual

/-- **A slice of a well-formed array is well formed.** -/
theorem ArrayRef.wf_slice : ∀ (a : ArrayRef) {off n : Nat}, a.wf = true → off + n ≤ a.len →
    (a.slice off n).wf = true
  | .prim _ _, _, _, _, _ => rfl
  | .list large field offsets values nulls, off, n, hwf, h => by
      simp only [ArrayRef.wf, Bool.and_eq_true, Bool.not_eq_true', List.isEmpty_eq_false_iff,
        decide_eq_true_eq] at hwf
      obtain ⟨⟨⟨⟨⟨⟨hne, hmono⟩, hlast⟩, hnulls⟩, hnullable⟩, htype⟩, hvalues⟩ := hwf
      have hpos : 0 < offsets.length := List.length_pos_iff.2 hne
      simp only [ArrayRef.len] at h
      have hcut : (Lib.slice offsets off (n + 1)).length = n + 1 := Lib.length_slice offsets (by omega)
      have hcutne : Lib.slice offsets off (n + 1) ≠ [] := by
        intro hnil
        rw [hnil] at hcut
        simp at hcut
      have hcutlast : (Lib.slice offsets off (n + 1)).getLastD 0 ≤ values.len := by
        obtain ⟨init, last, hconcat⟩ := (List.eq_nil_or_concat' _).resolve_left hcutne
        have hmem : last ∈ offsets := by
          apply (Lib.slice_sublist offsets off (n + 1)).subset
          rw [hconcat]
          exact List.mem_concat_self
        rw [hconcat, List.getLastD_concat]
        exact Nat.le_trans (le_getLastD_of_mem hmono hmem) hlast
      have hcutnulls : (nulls.map fun bs => Lib.slice bs off n).all
          (fun bs => decide (bs.length = (Lib.slice offsets off (n + 1)).length - 1)) = true := by
        cases nulls with
        | none => rfl
        | some bs =>
            simp only [Option.all_some, decide_eq_true_eq] at hnulls
            simp only [Option.map_some, Option.all_some, decide_eq_true_eq, hcut]
            exact Lib.length_slice bs (by omega)
      simp only [ArrayRef.slice, ArrayRef.wf, Bool.and_eq_true, Bool.not_eq_true',
        List.isEmpty_eq_false_iff, decide_eq_true_eq]
      exact ⟨⟨⟨⟨⟨⟨hcutne, monotone_sublist (Lib.slice_sublist ..) hmono⟩, hcutlast⟩, hcutnulls⟩,
        hnullable⟩, htype⟩, hvalues⟩
  | .struct fields columns nulls len, off, n, hwf, h => by
      simp only [ArrayRef.wf, Bool.and_eq_true, decide_eq_true_eq, List.all_eq_true] at hwf
      obtain ⟨⟨⟨⟨htypes, hnulls⟩, hlens⟩, hmasked⟩, hcolumns⟩ := hwf
      have hrange : ∀ c ∈ columns, off + n ≤ c.len := fun c hc => (hlens c hc).symm ▸ h
      simp only [ArrayRef.slice, ArrayRef.wf, ArrayRef.sliceList_eq, Bool.and_eq_true,
        decide_eq_true_eq, List.all_eq_true]
      refine ⟨⟨⟨⟨?_, ?_⟩, ?_⟩, ?_⟩, ?_⟩
      · simp only [List.map_map, htypes]
        exact List.map_congr_left fun c _ => (c.dataType_slice off n).symm
      · cases nulls with
        | none => rfl
        | some bs =>
            simp only [Option.all_some, decide_eq_true_eq] at hnulls
            simp only [Option.map_some, Option.all_some, decide_eq_true_eq]
            exact Lib.length_slice bs (hnulls.symm ▸ h)
      · rintro _ hmem
        obtain ⟨c, hc, rfl⟩ := List.mem_map.1 hmem
        exact ArrayRef.len_slice (hrange _ hc)
      · rintro p hp
        rw [List.zip_map_right] at hp
        obtain ⟨⟨f, c⟩, hfc, rfl⟩ := List.mem_map.1 hp
        have hc := hmasked (f, c) hfc
        simp only [Bool.or_eq_true, Bool.not_eq_true'] at hc
        simp only [Prod.map_apply, id_eq, Bool.or_eq_true, Bool.not_eq_true']
        refine hc.imp_right fun hnone => ?_
        rw [ArrayRef.validity_slice (hrange c (List.of_mem_zip hfc).2)]
        exact unmaskedNull_slice off n hnone
      · rw [← ArrayRef.sliceList_eq]
        exact ArrayRef.wfList_slice columns hcolumns hrange

/-- Slices of the columns of a well-formed struct. -/
theorem ArrayRef.wfList_slice : ∀ (cs : List ArrayRef) {off n : Nat},
    ArrayRef.wfList cs = true → (∀ c ∈ cs, off + n ≤ c.len) →
      ArrayRef.wfList (ArrayRef.sliceList cs off n) = true
  | [], _, _, _, _ => rfl
  | c :: cs, off, n, hwf, h => by
      simp only [ArrayRef.wfList, Bool.and_eq_true] at hwf
      simp only [ArrayRef.sliceList, ArrayRef.wfList, Bool.and_eq_true]
      exact ⟨c.wf_slice hwf.1 (h c (List.mem_cons_self ..)),
        ArrayRef.wfList_slice cs hwf.2 fun d hd => h d (List.mem_cons_of_mem _ hd)⟩

end

end F3Format
