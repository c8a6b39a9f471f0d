import F3Format.ColumnNumbering
import F3Format.SampleEnv
import F3Format.WriterRuns

/-!
# The types a nested decoder declares

A list or struct decoder computes the type of each child from the schema with
`field_to_view`, which turns a string or binary leaf into its view and leaves
every nested type as it is. The child's own decoder returns views at the leaves
below it. The two agree unless a nested child has a string or binary child of
its own.
-/

set_option autoImplicit false

namespace F3Format

open Lib

/-! ## Declared and produced types -/

/-- What leaf decoding returns for a type. -/
def DataType.decoded : DataType → DataType
  | .prim t => .prim t.view
  | t => t

/-- The type of the arrays a decoder returns: the child types as it declares them. -/
def DataType.produced : DataType → DataType
  | .prim t => .prim t.view
  | .list child => .list (fieldToView child)
  | .largeList child => .largeList (fieldToView child)
  | .struct fields => .struct (fields.map fieldToView)

/-- A string or binary type. -/
def DataType.isString : DataType → Bool
  | .prim .utf8 => true
  | .prim .largeUtf8 => true
  | .prim .binary => true
  | .prim .largeBinary => true
  | _ => false

/-- A list or struct with a string or binary child. -/
def DataType.hasStringChild : DataType → Bool
  | .prim _ => false
  | .list child => child.dataType.isString
  | .largeList child => child.dataType.isString
  | .struct fields => fields.any fun f => f.dataType.isString

theorem fieldToView_eq_self_iff (f : Field) :
    fieldToView f = f ↔ f.dataType.isString = false := by
  obtain ⟨name, t, nullable⟩ := f
  cases t with
  | prim p => cases p <;> simp [fieldToView, DataType.isString, Field.dataType]
  | list child => simp [fieldToView, DataType.isString, Field.dataType]
  | largeList child => simp [fieldToView, DataType.isString, Field.dataType]
  | struct fields => simp [fieldToView, DataType.isString, Field.dataType]

@[simp] theorem isNullable_fieldToView (f : Field) :
    (fieldToView f).isNullable = f.isNullable := by
  unfold fieldToView
  split <;> rfl

theorem map_fieldToView_eq_self_iff (fields : List Field) :
    fields.map fieldToView = fields ↔ (fields.any fun f => f.dataType.isString) = false := by
  induction fields with
  | nil => simp
  | cons f fs ih =>
      simp only [List.map_cons, List.cons.injEq, List.any_cons, Bool.or_eq_false_iff, ih,
        fieldToView_eq_self_iff]

/-- **The declared type of a child is the produced one** exactly when the child
has no string or binary child of its own. -/
theorem declared_eq_produced_iff (f : Field) :
    (fieldToView f).dataType = f.dataType.produced ↔ f.dataType.hasStringChild = false := by
  obtain ⟨name, t, nullable⟩ := f
  cases t with
  | prim p => cases p <;> simp [fieldToView, DataType.produced, DataType.hasStringChild,
      Field.dataType, PrimType.view]
  | list child =>
      have hchild := fieldToView_eq_self_iff child
      show DataType.list child = .list (fieldToView child) ↔ child.dataType.isString = false
      rw [← hchild, DataType.list.injEq]
      exact eq_comm
  | largeList child =>
      have hchild := fieldToView_eq_self_iff child
      show DataType.largeList child = .largeList (fieldToView child) ↔ child.dataType.isString = false
      rw [← hchild, DataType.largeList.injEq]
      exact eq_comm
  | struct fields =>
      have hfields := map_fieldToView_eq_self_iff fields
      show DataType.struct fields = .struct (fields.map fieldToView) ↔
        (fields.any fun f => f.dataType.isString) = false
      rw [← hfields, DataType.struct.injEq]
      exact eq_comm

/-! ## The condition -/

mutual

/-- A struct without fields occurs in the type. Its decoder always panics, in
`transpose`. -/
def DataType.hasEmptyStruct : DataType → Bool
  | .prim _ => false
  | .list child => child.hasEmptyStruct
  | .largeList child => child.hasEmptyStruct
  | .struct fields => fields.isEmpty || Field.anyEmptyStruct fields

/-- A struct without fields occurs in the field. -/
def Field.hasEmptyStruct : Field → Bool
  | .mk _ dataType _ => dataType.hasEmptyStruct

/-- A struct without fields occurs in one of the fields. -/
def Field.anyEmptyStruct : List Field → Bool
  | [] => false
  | f :: fs => f.hasEmptyStruct || Field.anyEmptyStruct fs

end

mutual

/-- No list or struct whose children can be decoded has a nested child with a
string or binary child of its own. -/
def DataType.stringsShallow : DataType → Bool
  | .prim _ => true
  | .list child =>
      child.stringsShallow && (child.hasEmptyStruct || !child.dataType.hasStringChild)
  | .largeList child =>
      child.stringsShallow && (child.hasEmptyStruct || !child.dataType.hasStringChild)
  | .struct fields =>
      Field.allStringsShallow fields &&
        (Field.anyEmptyStruct fields || !fields.any fun f => f.dataType.hasStringChild)

/-- `stringsShallow` of the type of a field. -/
def Field.stringsShallow : Field → Bool
  | .mk _ dataType _ => dataType.stringsShallow

/-- `stringsShallow` of every field. -/
def Field.allStringsShallow : List Field → Bool
  | [] => true
  | f :: fs => f.stringsShallow && Field.allStringsShallow fs

end

/-! ## The constructor calls of a decoder -/

/-- The column decodes to arrays of the decoded type. -/
def PrimitiveColDecoder.ReturnsViews (env : Env) (d : PrimitiveColDecoder) : Prop :=
  ∀ arrays, d.decodeBatch env = .ok arrays → ∀ a ∈ arrays, a.dataType = d.primitiveType.decoded

namespace LogicalColDecoder

mutual

/-- Every leaf column decodes to arrays of the decoded type. -/
def LeavesReturnViews (env : Env) : LogicalColDecoder → Prop
  | primitive d => d.ReturnsViews env
  | list _ _ values => LeavesReturnViews env values
  | struct _ _ children => AllLeavesReturnViews env children

/-- `LeavesReturnViews` of every child. -/
def AllLeavesReturnViews (env : Env) : List LogicalColDecoder → Prop
  | [] => True
  | d :: ds => LeavesReturnViews env d ∧ AllLeavesReturnViews env ds

end

mutual

/-- Every column of the tree decodes. -/
def ColumnsDecode (env : Env) : LogicalColDecoder → Prop
  | primitive d => ∃ arrays, d.decodeBatch env = .ok arrays
  | list _ d values => (∃ arrays, d.decodeBatch env = .ok arrays) ∧ ColumnsDecode env values
  | struct _ d children =>
      (∃ arrays, d.decodeBatch env = .ok arrays) ∧ AllColumnsDecode env children

/-- `ColumnsDecode` of every child. -/
def AllColumnsDecode (env : Env) : List LogicalColDecoder → Prop
  | [] => True
  | d :: ds => ColumnsDecode env d ∧ AllColumnsDecode env ds

end

/-- `Wraps env d declared child`: while `d` decodes, `child` is passed to
`ListArray::new`, `LargeListArray::new` or `StructArray::new` under the field
`declared`, at the root of `d` or below it. -/
inductive Wraps (env : Env) : LogicalColDecoder → Field → ArrayRef → Prop where
  | list {field child : Field} {d : PrimitiveColDecoder} {values : LogicalColDecoder}
      {validityOffsets arrays : List ArrayRef} {p : ArrayRef × ArrayRef} :
      d.decodeBatch env = .ok validityOffsets → values.decodeBatch env = .ok arrays →
        p ∈ validityOffsets.zip arrays →
        (field.dataType = .list child ∨ field.dataType = .largeList child) →
          Wraps env (list field d values) (fieldToView child) p.2
  | struct {fields : List Field} {d : PrimitiveColDecoder} {children : List LogicalColDecoder}
      {validity : List ArrayRef} {columns rows : List (List ArrayRef)}
      {p : ArrayRef × List ArrayRef} {q : Field × ArrayRef} :
      d.decodeBatch env = .ok validity → decodeChildren env children = .ok columns →
        transpose columns = .ok rows → p ∈ validity.zip rows →
        q ∈ (fields.map fieldToView).zip p.2 →
          Wraps env (struct fields d children) q.1 q.2
  | inList {field declared : Field} {d : PrimitiveColDecoder} {values : LogicalColDecoder}
      {child : ArrayRef} :
      Wraps env values declared child → Wraps env (list field d values) declared child
  | inStruct {fields : List Field} {declared : Field} {d : PrimitiveColDecoder}
      {children : List LogicalColDecoder} {inner : LogicalColDecoder} {child : ArrayRef} :
      inner ∈ children → Wraps env inner declared child →
        Wraps env (struct fields d children) declared child

end LogicalColDecoder

/-- The panics of the two constructors on a type mismatch. -/
def Fault.TypeMismatch (f : Fault) : Prop :=
  f = .panic "ListArray expected data type got another" ∨
    f = .panic "Incorrect datatype for StructArray field"

/-- Whatever file is read, a decoder of the field whose leaves decode as promised
declares the types its children have, and no constructor fails on a type. -/
def DeclaresProduced (f : Field) : Prop :=
  ∀ (env : Env) (o : DecoderOptions) (i : Nat) (d : LogicalColDecoder) (n : Nat),
    createLogicalDecoder o f i = .ok (d, n) → d.LeavesReturnViews env →
      (∀ declared child, d.Wraps env declared child → declared.dataType = child.dataType) ∧
        (d.ColumnsDecode env → ∀ fault, d.decodeBatch env = .error fault → ¬ fault.TypeMismatch)

/-! ## What the decoders return -/

theorem dataType_of_listArrayNew {large : Bool} {field : Field} {offsets : List Nat}
    {values a : ArrayRef} {nulls : Option (List Bool)}
    (h : listArrayNew large field offsets values nulls = .ok a) :
    a.dataType = if large then .largeList field else .list field := by
  unfold listArrayNew at h
  split at h
  · cases h
  split at h
  · cases h
  split at h
  · cases h
  split at h
  · cases h
  cases h
  cases large <;> rfl

theorem dataType_of_structArrayNew {fields : List Field} {columns : List ArrayRef}
    {nulls : Option (List Bool)} {a : ArrayRef} (h : structArrayNew fields columns nulls = .ok a) :
    a.dataType = .struct fields := by
  unfold structArrayNew at h
  split at h
  · cases h
  dsimp only at h
  split at h
  · cases h
  split at h
  · cases h
  split at h
  · cases h
  split at h
  · cases h
  cases h
  rfl

/-- A rebuilt list has the type of its field, with the child as it is declared. -/
theorem dataType_of_rebuildList {field : Field} {p : ArrayRef × ArrayRef} {a : ArrayRef}
    (h : rebuildList field p = .ok a) : a.dataType = field.dataType.produced := by
  unfold rebuildList at h
  split at h
  · next hfield _ =>
      rw [bind_eq_ok] at h
      obtain ⟨offsets, -, h⟩ := h
      rw [hfield]
      exact dataType_of_listArrayNew h
  · next hfield _ =>
      rw [bind_eq_ok] at h
      obtain ⟨offsets, -, h⟩ := h
      rw [hfield]
      exact dataType_of_listArrayNew h
  · cases h
  · cases h
  · cases h

theorem dataType_of_rebuildStruct {fields : List Field} {p : ArrayRef × List ArrayRef}
    {a : ArrayRef} (h : rebuildStruct fields p = .ok a) :
    a.dataType = .struct (fields.map fieldToView) := by
  unfold rebuildStruct at h
  split at h
  · exact dataType_of_structArrayNew h
  · cases h

section Returns

variable {env : Env} {o : DecoderOptions}

/-- A decoder returns arrays of the produced type. -/
theorem dataType_of_decodeBatch {f : Field} {i n : Nat} {d : LogicalColDecoder}
    {arrays : List ArrayRef} (hd : createLogicalDecoder o f i = .ok (d, n))
    (hleaves : d.LeavesReturnViews env) (h : d.decodeBatch env = .ok arrays) :
    ∀ a ∈ arrays, a.dataType = f.dataType.produced := by
  obtain ⟨name, t, nullable⟩ := f
  intro a ha
  cases t with
  | prim t =>
      simp only [createLogicalDecoder, createLogicalDecoderOf, bind_eq_ok] at hd
      obtain ⟨p, hp, hd⟩ := hd
      obtain ⟨-, htype⟩ := DecoderOptions.primitive_eq_ok hp
      split at hd
      · cases hd
        have hview := hleaves arrays h a ha
        rwa [htype] at hview
      · cases hd
  | list child =>
      simp only [createLogicalDecoder, createLogicalDecoderOf, bind_eq_ok, pure_eq_ok,
        Except.ok.injEq, Prod.mk.injEq] at hd
      obtain ⟨p, -, ⟨values, k⟩, -, rfl, -⟩ := hd
      simp only [LogicalColDecoder.decodeBatch, bind_eq_ok] at h
      obtain ⟨vos, -, vs, -, h⟩ := h
      obtain ⟨q, -, hq⟩ := exists_of_mem_collect h ha
      exact dataType_of_rebuildList hq
  | largeList child =>
      simp only [createLogicalDecoder, createLogicalDecoderOf, bind_eq_ok, pure_eq_ok,
        Except.ok.injEq, Prod.mk.injEq] at hd
      obtain ⟨p, -, ⟨values, k⟩, -, rfl, -⟩ := hd
      simp only [LogicalColDecoder.decodeBatch, bind_eq_ok] at h
      obtain ⟨vos, -, vs, -, h⟩ := h
      obtain ⟨q, -, hq⟩ := exists_of_mem_collect h ha
      exact dataType_of_rebuildList hq
  | struct fields =>
      simp only [createLogicalDecoder, createLogicalDecoderOf, bind_eq_ok, pure_eq_ok,
        Except.ok.injEq, Prod.mk.injEq] at hd
      obtain ⟨p, -, ⟨children, k⟩, -, rfl, -⟩ := hd
      simp only [LogicalColDecoder.decodeBatch, bind_eq_ok] at h
      obtain ⟨validity, -, columns, -, rows, -, h⟩ := h
      obtain ⟨q, -, hq⟩ := exists_of_mem_collect h ha
      exact dataType_of_rebuildStruct hq

theorem columns_of_decodeChildren : ∀ {fs : List Field} {i n : Nat} {ds : List LogicalColDecoder}
    {columns : List (List ArrayRef)}, createLogicalDecoders o fs i = .ok (ds, n) →
      LogicalColDecoder.AllLeavesReturnViews env ds →
        LogicalColDecoder.decodeChildren env ds = .ok columns →
          List.Forall₂ (fun f c => ∀ a ∈ c, a.dataType = f.dataType.produced) fs columns
  | [], _, _, _, _, hd, _, h => by
      cases hd
      cases h
      exact .nil
  | f :: fs, i, n, ds, columns, hd, hleaves, h => by
      simp only [createLogicalDecoders, bind_eq_ok, pure_eq_ok, Except.ok.injEq,
        Prod.mk.injEq] at hd
      obtain ⟨⟨d, k⟩, hd, ⟨rest, l⟩, hrest, rfl, -⟩ := hd
      simp only [LogicalColDecoder.decodeChildren, bind_eq_ok, pure_eq_ok, Except.ok.injEq] at h
      obtain ⟨arrays, harrays, more, hmore, rfl⟩ := h
      exact .cons (dataType_of_decodeBatch hd hleaves.1 harrays)
        (columns_of_decodeChildren hrest hleaves.2 hmore)

/-- Two relations of lists, composed at one position. -/
theorem exists_between_of_mem_zip {α β γ : Type} {R : α → β → Prop} {S : β → γ → Prop} :
    ∀ {xs : List α} {ys : List β} {zs : List γ} {x : α} {z : γ}, List.Forall₂ R xs ys →
      List.Forall₂ S ys zs → (x, z) ∈ xs.zip zs → ∃ y, R x y ∧ S y z
  | _, _, _, _, _, .nil, .nil, h => by cases h
  | _, _, _, _, _, .cons hr hrs, .cons hs hss, h => by
      rcases List.mem_cons.1 h with h | h
      · cases h
        exact ⟨_, hr, hs⟩
      · exact exists_between_of_mem_zip hrs hss h

theorem exists_mem_zip_of_mem {α β : Type} : ∀ {xs : List α} {ys : List β} {x : α},
    xs.length = ys.length → x ∈ xs → ∃ y, (x, y) ∈ xs.zip ys
  | _ :: _, [], _, h, _ => by cases h
  | x :: xs, y :: ys, z, h, hz => by
      rcases List.mem_cons.1 hz with rfl | hz
      · exact ⟨y, List.mem_cons_self ..⟩
      · obtain ⟨w, hw⟩ := exists_mem_zip_of_mem (Nat.succ.inj h) hz
        exact ⟨w, List.mem_cons_of_mem _ hw⟩

theorem exists_left_of_mem {α β : Type} {R : α → β → Prop} : ∀ {xs : List α} {ys : List β}
    {y : β}, List.Forall₂ R xs ys → y ∈ ys → ∃ x, R x y
  | _, _, _, .nil, h => by cases h
  | _, _, _, .cons hr hrs, h => by
      rcases List.mem_cons.1 h with rfl | h
      · exact ⟨_, hr⟩
      · exact exists_left_of_mem hrs h

/-- A row of the transposed columns takes one array of each. -/
theorem row_of_transpose {columns rows : List (List ArrayRef)} (h : transpose columns = .ok rows)
    {row : List ArrayRef} (hrow : row ∈ rows) : List.Forall₂ (fun c a => a ∈ c) columns row := by
  cases columns with
  | nil => cases h
  | cons first rest =>
      obtain ⟨i, -, hi⟩ := exists_of_mem_collect h hrow
      refine (collect_eq_ok_iff.1 hi).imp fun c a hca => ?_
      exact List.mem_of_getElem? ((unwrapSome_eq_ok _ _).1 hca)

mutual

/-- A decoder with a struct without fields below it never returns. -/
theorem not_ok_of_hasEmptyStruct : ∀ (t : DataType) {name : String} {nullable : Bool} {i n : Nat}
    {d : LogicalColDecoder} {arrays : List ArrayRef},
    createLogicalDecoderOf o name nullable t i = .ok (d, n) → t.hasEmptyStruct = true →
      d.decodeBatch env ≠ .ok arrays
  | .prim _, _, _, _, _, _, _, _, hempty, _ => by simp [DataType.hasEmptyStruct] at hempty
  | .list child, _, _, i, n, d, arrays, hd, hempty, h => by
      simp only [createLogicalDecoderOf, bind_eq_ok, pure_eq_ok, Except.ok.injEq,
        Prod.mk.injEq] at hd
      obtain ⟨p, -, ⟨values, k⟩, hvalues, rfl, -⟩ := hd
      simp only [LogicalColDecoder.decodeBatch, bind_eq_ok] at h
      obtain ⟨vos, -, vs, hvs, -⟩ := h
      exact not_ok_of_fieldHasEmptyStruct child hvalues hempty hvs
  | .largeList child, _, _, i, n, d, arrays, hd, hempty, h => by
      simp only [createLogicalDecoderOf, bind_eq_ok, pure_eq_ok, Except.ok.injEq,
        Prod.mk.injEq] at hd
      obtain ⟨p, -, ⟨values, k⟩, hvalues, rfl, -⟩ := hd
      simp only [LogicalColDecoder.decodeBatch, bind_eq_ok] at h
      obtain ⟨vos, -, vs, hvs, -⟩ := h
      exact not_ok_of_fieldHasEmptyStruct child hvalues hempty hvs
  | .struct fields, _, _, i, n, d, arrays, hd, hempty, h => by
      simp only [createLogicalDecoderOf, bind_eq_ok, pure_eq_ok, Except.ok.injEq,
        Prod.mk.injEq] at hd
      obtain ⟨p, -, ⟨children, k⟩, hchildren, rfl, -⟩ := hd
      simp only [LogicalColDecoder.decodeBatch, bind_eq_ok] at h
      obtain ⟨validity, -, columns, hcolumns, rows, hrows, -⟩ := h
      simp only [DataType.hasEmptyStruct, Bool.or_eq_true, List.isEmpty_iff] at hempty
      rcases hempty with rfl | hempty
      · -- `transpose` asserts that there is a column
        cases hchildren
        cases hcolumns
        cases hrows
      · exact not_ok_of_anyEmptyStruct fields hchildren hempty hcolumns

theorem not_ok_of_fieldHasEmptyStruct : ∀ (f : Field) {i n : Nat} {d : LogicalColDecoder}
    {arrays : List ArrayRef}, createLogicalDecoder o f i = .ok (d, n) →
      f.hasEmptyStruct = true → d.decodeBatch env ≠ .ok arrays
  | .mk _ dataType _, _, _, _, _, hd, hempty => not_ok_of_hasEmptyStruct dataType hd hempty

theorem not_ok_of_anyEmptyStruct : ∀ (fs : List Field) {i n : Nat} {ds : List LogicalColDecoder}
    {columns : List (List ArrayRef)}, createLogicalDecoders o fs i = .ok (ds, n) →
      Field.anyEmptyStruct fs = true → LogicalColDecoder.decodeChildren env ds ≠ .ok columns
  | [], _, _, _, _, _, hempty, _ => by simp [Field.anyEmptyStruct] at hempty
  | f :: fs, i, n, ds, columns, hd, hempty, h => by
      simp only [createLogicalDecoders, bind_eq_ok, pure_eq_ok, Except.ok.injEq,
        Prod.mk.injEq] at hd
      obtain ⟨⟨d, k⟩, hd, ⟨rest, l⟩, hrest, rfl, -⟩ := hd
      simp only [LogicalColDecoder.decodeChildren, bind_eq_ok] at h
      obtain ⟨arrays, harrays, more, hmore, -⟩ := h
      simp only [Field.anyEmptyStruct, Bool.or_eq_true] at hempty
      rcases hempty with hempty | hempty
      · exact not_ok_of_fieldHasEmptyStruct f hd hempty harrays
      · exact not_ok_of_anyEmptyStruct fs hrest hempty hmore

end

end Returns

/-! ## Shallow strings are enough -/

section Shallow

variable {env : Env} {o : DecoderOptions}

/-- Where a child decodes, its declared type is the type of its arrays. -/
theorem declared_of_shallow {child : Field} {i n : Nat} {values : LogicalColDecoder}
    {arrays : List ArrayRef} (hvalues : createLogicalDecoder o child i = .ok (values, n))
    (hleaves : values.LeavesReturnViews env) (harrays : values.decodeBatch env = .ok arrays)
    (hshallow : (child.hasEmptyStruct || !child.dataType.hasStringChild) = true) {a : ArrayRef}
    (ha : a ∈ arrays) : (fieldToView child).dataType = a.dataType := by
  rw [dataType_of_decodeBatch hvalues hleaves harrays a ha, declared_eq_produced_iff]
  simp only [Bool.or_eq_true, Bool.not_eq_true'] at hshallow
  rcases hshallow with hempty | hnone
  · exact absurd harrays (not_ok_of_fieldHasEmptyStruct child hvalues hempty)
  · exact hnone

mutual

/-- In a type with shallow strings every declared type is the child's type. -/
theorem wraps_of_stringsShallow : ∀ (t : DataType) {name : String} {nullable : Bool} {i n : Nat}
    {d : LogicalColDecoder} {declared : Field} {a : ArrayRef},
    createLogicalDecoderOf o name nullable t i = .ok (d, n) → t.stringsShallow = true →
      d.LeavesReturnViews env → d.Wraps env declared a → declared.dataType = a.dataType
  | .prim t, _, _, i, n, d, declared, a, hd, _, _, hw => by
      simp only [createLogicalDecoderOf, bind_eq_ok] at hd
      obtain ⟨p, -, hd⟩ := hd
      split at hd
      · cases hd
        cases hw
      · cases hd
  | .list child, _, _, i, n, d, declared, a, hd, hshallow, hleaves, hw => by
      simp only [createLogicalDecoderOf, bind_eq_ok, pure_eq_ok, Except.ok.injEq,
        Prod.mk.injEq] at hd
      obtain ⟨p, -, ⟨values, k⟩, hvalues, rfl, -⟩ := hd
      simp only [DataType.stringsShallow, Bool.and_eq_true] at hshallow
      cases hw with
      | list hvos harrays hp hfield =>
          rcases hfield with hfield | hfield
          · cases hfield
            exact declared_of_shallow hvalues hleaves harrays hshallow.2 (List.of_mem_zip hp).2
          · cases hfield
      | inList hw => exact wraps_of_fieldStringsShallow child hvalues hshallow.1 hleaves hw
  | .largeList child, _, _, i, n, d, declared, a, hd, hshallow, hleaves, hw => by
      simp only [createLogicalDecoderOf, bind_eq_ok, pure_eq_ok, Except.ok.injEq,
        Prod.mk.injEq] at hd
      obtain ⟨p, -, ⟨values, k⟩, hvalues, rfl, -⟩ := hd
      simp only [DataType.stringsShallow, Bool.and_eq_true] at hshallow
      cases hw with
      | list hvos harrays hp hfield =>
          rcases hfield with hfield | hfield
          · cases hfield
          · cases hfield
            exact declared_of_shallow hvalues hleaves harrays hshallow.2 (List.of_mem_zip hp).2
      | inList hw => exact wraps_of_fieldStringsShallow child hvalues hshallow.1 hleaves hw
  | .struct fields, _, _, i, n, d, declared, a, hd, hshallow, hleaves, hw => by
      simp only [createLogicalDecoderOf, bind_eq_ok, pure_eq_ok, Except.ok.injEq,
        Prod.mk.injEq] at hd
      obtain ⟨p, -, ⟨children, k⟩, hchildren, rfl, -⟩ := hd
      simp only [DataType.stringsShallow, Bool.and_eq_true, Bool.or_eq_true, Bool.not_eq_true',
        List.any_eq_false] at hshallow
      cases hw with
      | struct hvalidity hcolumns hrows hp hq =>
          have hnone := hshallow.2.resolve_left fun hempty =>
            not_ok_of_anyEmptyStruct fields hchildren hempty hcolumns
          have hrow := row_of_transpose hrows (List.of_mem_zip hp).2
          have htypes := columns_of_decodeChildren hchildren hleaves hcolumns
          rw [List.zip_map_left] at hq
          obtain ⟨⟨f, a⟩, hfa, rfl⟩ := List.mem_map.1 hq
          obtain ⟨c, hfc, hac⟩ := exists_between_of_mem_zip htypes hrow hfa
          have hf : f.dataType.hasStringChild = false := by
            simpa using hnone f (List.of_mem_zip hfa).1
          show (fieldToView f).dataType = a.dataType
          rw [hfc a hac]
          exact (declared_eq_produced_iff f).2 hf
      | inStruct hinner hw =>
          exact wraps_of_allStringsShallow fields hchildren hshallow.1 hleaves hinner hw

theorem wraps_of_fieldStringsShallow : ∀ (f : Field) {i n : Nat} {d : LogicalColDecoder}
    {declared : Field} {a : ArrayRef}, createLogicalDecoder o f i = .ok (d, n) →
      f.stringsShallow = true → d.LeavesReturnViews env → d.Wraps env declared a →
        declared.dataType = a.dataType
  | .mk _ dataType _, _, _, _, _, _, hd, hshallow, hleaves, hw =>
      wraps_of_stringsShallow dataType hd hshallow hleaves hw

theorem wraps_of_allStringsShallow : ∀ (fs : List Field) {i n : Nat}
    {ds : List LogicalColDecoder} {d : LogicalColDecoder} {declared : Field} {a : ArrayRef},
    createLogicalDecoders o fs i = .ok (ds, n) → Field.allStringsShallow fs = true →
      LogicalColDecoder.AllLeavesReturnViews env ds → d ∈ ds → d.Wraps env declared a →
        declared.dataType = a.dataType
  | [], _, _, _, _, _, _, hd, _, _, hmem, _ => by
      cases hd
      cases hmem
  | f :: fs, i, n, ds, d, declared, a, hd, hshallow, hleaves, hmem, hw => by
      simp only [createLogicalDecoders, bind_eq_ok, pure_eq_ok, Except.ok.injEq,
        Prod.mk.injEq] at hd
      obtain ⟨⟨first, k⟩, hfirst, ⟨rest, l⟩, hrest, rfl, -⟩ := hd
      simp only [Field.allStringsShallow, Bool.and_eq_true] at hshallow
      rcases List.mem_cons.1 hmem with rfl | hmem
      · exact wraps_of_fieldStringsShallow f hfirst hshallow.1 hleaves.1 hw
      · exact wraps_of_allStringsShallow fs hrest hshallow.2 hleaves.2 hmem hw

end

end Shallow

/-! ## Where a type mismatch comes from -/

theorem typeMismatch_listArrayNew {large : Bool} {field : Field} {offsets : List Nat}
    {values : ArrayRef} {nulls : Option (List Bool)} {f : Fault}
    (h : listArrayNew large field offsets values nulls = .error f) (hf : f.TypeMismatch) :
    field.dataType ≠ values.dataType := by
  intro heq
  unfold listArrayNew at h
  split at h
  · cases h
    simp [Fault.TypeMismatch] at hf
  split at h
  · cases h
    simp [Fault.TypeMismatch] at hf
  split at h
  · cases h
    simp [Fault.TypeMismatch] at hf
  rw [if_neg (not_not.2 heq)] at h
  cases h

theorem typeMismatch_structArrayNew {fields : List Field} {columns : List ArrayRef}
    {nulls : Option (List Bool)} {f : Fault} (h : structArrayNew fields columns nulls = .error f)
    (hf : f.TypeMismatch) : ∃ q ∈ fields.zip columns, q.1.dataType ≠ q.2.dataType := by
  by_contra hnone
  have hall : ((fields.zip columns).any fun p => decide (p.1.dataType ≠ p.2.dataType)) = false := by
    rw [List.any_eq_false]
    intro q hq
    rw [decide_eq_true_eq]
    exact fun hne => hnone ⟨q, hq, hne⟩
  unfold structArrayNew at h
  split at h
  · cases h
    simp [Fault.TypeMismatch] at hf
  dsimp only at h
  rw [hall] at h
  split at h
  · cases h
    simp [Fault.TypeMismatch] at hf
  split at h
  · next hfalse => exact Bool.false_ne_true hfalse
  split at h
  · cases h
    simp [Fault.TypeMismatch] at hf
  split at h
  · cases h
    simp [Fault.TypeMismatch] at hf
  cases h

theorem typeMismatch_offsetBufferNew {offsets : List Nat} {f : Fault}
    (h : offsetBufferNew offsets = .error f) : ¬ f.TypeMismatch := by
  unfold offsetBufferNew at h
  split at h
  · cases h
    simp [Fault.TypeMismatch]
  split at h
  · cases h
  · cases h
    simp [Fault.TypeMismatch]

theorem typeMismatch_rebuildList {field : Field} {p : ArrayRef × ArrayRef} {f : Fault}
    (h : rebuildList field p = .error f) (hf : f.TypeMismatch) :
    ∃ child, (field.dataType = .list child ∨ field.dataType = .largeList child) ∧
      (fieldToView child).dataType ≠ p.2.dataType := by
  unfold rebuildList at h
  split at h
  · next child _ _ _ _ hfield _ =>
      rw [bind_eq_error] at h
      rcases h with h | ⟨offsets, -, h⟩
      · exact absurd hf (typeMismatch_offsetBufferNew h)
      · exact ⟨child, .inl hfield, typeMismatch_listArrayNew h hf⟩
  · next child _ _ _ _ hfield _ =>
      rw [bind_eq_error] at h
      rcases h with h | ⟨offsets, -, h⟩
      · exact absurd hf (typeMismatch_offsetBufferNew h)
      · exact ⟨child, .inr hfield, typeMismatch_listArrayNew h hf⟩
  · cases h
    simp [Fault.TypeMismatch] at hf
  · cases h
    simp [Fault.TypeMismatch] at hf
  · cases h
    simp [Fault.TypeMismatch] at hf

theorem typeMismatch_rebuildStruct {fields : List Field} {p : ArrayRef × List ArrayRef} {f : Fault}
    (h : rebuildStruct fields p = .error f) (hf : f.TypeMismatch) :
    ∃ q ∈ (fields.map fieldToView).zip p.2, q.1.dataType ≠ q.2.dataType := by
  unfold rebuildStruct at h
  split at h
  · exact typeMismatch_structArrayNew h hf
  · cases h
    simp [Fault.TypeMismatch] at hf

theorem typeMismatch_transpose {columns : List (List ArrayRef)} {f : Fault}
    (h : transpose columns = .error f) : ¬ f.TypeMismatch := by
  cases columns with
  | nil =>
      cases h
      simp [Fault.TypeMismatch]
  | cons first rest =>
      obtain ⟨i, -, hi⟩ := exists_of_collect_error h
      obtain ⟨column, -, hcolumn⟩ := exists_of_collect_error hi
      cases hget : column[i]? with
      | some a =>
          rw [hget] at hcolumn
          cases hcolumn
      | none =>
          rw [hget] at hcolumn
          cases hcolumn
          simp [Fault.TypeMismatch]

namespace LogicalColDecoder

variable {env : Env}

mutual

/-- If every column decodes, a type mismatch comes from a constructor call whose
declared type is not that of the child. -/
theorem exists_wraps_of_typeMismatch : ∀ (d : LogicalColDecoder) {f : Fault},
    d.ColumnsDecode env → d.decodeBatch env = .error f → f.TypeMismatch →
      ∃ declared child, d.Wraps env declared child ∧ declared.dataType ≠ child.dataType
  | primitive d, f, hcols, h, _ => by
      obtain ⟨arrays, harrays⟩ := hcols
      rw [decodeBatch, harrays] at h
      cases h
  | list field d values, f, hcols, h, hf => by
      obtain ⟨⟨vos, hvos⟩, hvalues⟩ := hcols
      rw [decodeBatch, hvos, ok_bind, bind_eq_error] at h
      rcases h with h | ⟨vs, hvs, h⟩
      · obtain ⟨declared, child, hw, hne⟩ := exists_wraps_of_typeMismatch values hvalues h hf
        exact ⟨declared, child, .inList hw, hne⟩
      · obtain ⟨p, hp, h⟩ := exists_of_collect_error h
        obtain ⟨child, hchild, hne⟩ := typeMismatch_rebuildList h hf
        exact ⟨fieldToView child, p.2, .list hvos hvs hp hchild, hne⟩
  | struct fields d children, f, hcols, h, hf => by
      obtain ⟨⟨validity, hvalidity⟩, hchildren⟩ := hcols
      rw [decodeBatch, hvalidity, ok_bind, bind_eq_error] at h
      rcases h with h | ⟨columns, hcolumns, h⟩
      · obtain ⟨c, hc, declared, child, hw, hne⟩ :=
          exists_wraps_of_children children hchildren h hf
        exact ⟨declared, child, .inStruct hc hw, hne⟩
      rw [bind_eq_error] at h
      rcases h with h | ⟨rows, hrows, h⟩
      · exact absurd hf (typeMismatch_transpose h)
      · obtain ⟨p, hp, h⟩ := exists_of_collect_error h
        obtain ⟨q, hq, hne⟩ := typeMismatch_rebuildStruct h hf
        exact ⟨q.1, q.2, .struct hvalidity hcolumns hrows hp hq, hne⟩

theorem exists_wraps_of_children : ∀ (ds : List LogicalColDecoder) {f : Fault},
    AllColumnsDecode env ds → decodeChildren env ds = .error f → f.TypeMismatch →
      ∃ d ∈ ds, ∃ declared child, d.Wraps env declared child ∧
        declared.dataType ≠ child.dataType
  | [], _, _, h, _ => by cases h
  | d :: ds, f, hcols, h, hf => by
      rw [decodeChildren, bind_eq_error] at h
      rcases h with h | ⟨arrays, -, h⟩
      · obtain ⟨declared, child, hw, hne⟩ := exists_wraps_of_typeMismatch d hcols.1 h hf
        exact ⟨d, List.mem_cons_self .., declared, child, hw, hne⟩
      rw [bind_eq_error] at h
      rcases h with h | ⟨more, -, h⟩
      · obtain ⟨c, hc, hrest⟩ := exists_wraps_of_children ds hcols.2 h hf
        exact ⟨c, List.mem_cons_of_mem _ hc, hrest⟩
      · cases h

end

end LogicalColDecoder

/-- Shallow strings make every declared type right. -/
theorem declaresProduced_of_stringsShallow {f : Field} (h : f.stringsShallow = true) :
    DeclaresProduced f := by
  intro env o i d n hd hleaves
  have hagree : ∀ declared child, d.Wraps env declared child →
      declared.dataType = child.dataType :=
    fun declared child hw => wraps_of_fieldStringsShallow f hd h hleaves hw
  refine ⟨hagree, fun hcols fault hfault hmismatch => ?_⟩
  obtain ⟨declared, child, hw, hne⟩ := d.exists_wraps_of_typeMismatch hcols hfault hmismatch
  exact hne (hagree declared child hw)

/-! ## Shallow strings are needed -/

namespace Sample

/-- The bytes of an empty list column: no validity bits and the offset 0. -/
def emptyListData : Bytes :=
  match listEncode env false (.list false dummyNullField [0] (.prim .null []) none) with
  | .ok buffers => buffers.flatten
  | .error _ => []

/-- The environment with a decoder that returns an empty leaf array. -/
def emptyLeafEnv : Env :=
  { env with
    wasmDecode := fun _ _ outputType _ =>
      match outputType with
      | .prim t => .ok (.prim t.view [])
      | _ => fail (.nyi "wasm") }

/-- One unit in one chunk at the start of the file. -/
def oneUnit (size : Nat) (encoding : Fb.Encoding) : Fb.ColumnMetadata :=
  ⟨some [⟨0, size, 0, .noDictionary, some [⟨size, some encoding, 0, .uncompressed⟩], none⟩]⟩

/-- An empty column of a type: a leaf of a custom decoder, or a list of Vortex. -/
def emptyColumn : DataType → Fb.ColumnMetadata
  | .prim _ => oneUnit 0 ⟨.customWasm, some ⟨0, none⟩⟩
  | _ => oneUnit emptyListData.length ⟨.cascade, none⟩

/-- A reader of a file with an empty array in every column. -/
def emptyReader (types : List DataType) : DecoderOptions where
  r := emptyListData
  columnMetas := types.map emptyColumn
  wasmContext := some ⟨some [(0, [])], none, none, some defaultEncodingVersions⟩
  sharedDictionaryCache := ⟨[], [], [], []⟩
  checksumType := none

/-- The decoder of a column of `emptyReader`. -/
def emptyDecoder (types : List DataType) (t : DataType) : PrimitiveColDecoder :=
  ⟨emptyListData, (emptyColumn t).columnChunks.getD [], t, (emptyReader types).wasmContext,
    ⟨[], [], [], []⟩, none⟩

/-- A column is opened at the index where its type stands. -/
theorem primitive_emptyReader {types rest : List DataType} {i : Nat} {t t' : DataType}
    {d : PrimitiveColDecoder} (htypes : types.drop i = t :: rest)
    (hkind : emptyColumn t' = emptyColumn t) (h : (emptyReader types).primitive i t' = .ok d) :
    d = emptyDecoder types t' := by
  have hget : types[i]? = some t := by
    rw [← List.head?_drop, htypes]
    rfl
  have hmeta : (emptyReader types).columnMetas[i]? = some (emptyColumn t) := by
    simp only [emptyReader, List.getElem?_map, hget, Option.map_some]
  obtain ⟨chunks, hchunks⟩ : ∃ chunks, (emptyColumn t).columnChunks = some chunks := by
    cases t <;> exact ⟨_, rfl⟩
  simp only [DecoderOptions.primitive, hmeta, unwrapSome, ok_bind, hchunks, okOr,
    pure_eq_ok, Except.ok.injEq] at h
  rw [← h, emptyDecoder, hkind, hchunks]
  rfl

theorem decodeBatch_emptyLeaf (types : List DataType) {t : PrimType} (h : t.nonNest = true) :
    (emptyDecoder types (.prim t)).decodeBatch emptyLeafEnv = .ok [.prim t.view []] := by
  have hd : (DataType.prim t).nonNest = true := h
  simp [PrimitiveColDecoder.decodeBatch, collect, PrimitiveColDecoder.decodeChunk,
    PrimitiveColDecoder.openChunk, PrimitiveColDecoder.readChunk, emptyDecoder, emptyColumn,
    oneUnit, readExactAt, createPhysicalDecoder, DataType.decodable, h, ChunkDecoder.drain,
    ChunkDecoder.drainFuel, ChunkDecoder.units, ChunkDecoder.decodeBatch,
    ChunkDecoder.decodeNoDict, ChunkDecoder.unitDecoder, splitTo, unwrapSome,
    createEncunitDecoder, unitData, returnWasmDecoder, okOr, WASMReadingContext.getRuntime,
    WASMReadingContext.runtimes, emptyReader, EncUnitDecoder.decode, emptyLeafEnv, hd]

/-- The list array of no rows. -/
def emptyList (large : Bool) : ArrayRef := .list large dummyNullField [0] (.prim .null []) none

set_option maxRecDepth 100000 in
theorem vortexListDecode_emptyListData (large : Bool) :
    vortexListDecode emptyLeafEnv large emptyListData = .ok (emptyList large) := by
  cases large <;> rfl

theorem decodeBatch_emptyList (types : List DataType) (large : Bool) (child : Field) :
    (emptyDecoder types (if large then .largeList child else .list child)).decodeBatch
      emptyLeafEnv = .ok [emptyList large] := by
  have hlookup : List.lookup EncodingType.cascade defaultEncodingVersions = some ⟨0, 21, 0⟩ := rfl
  have hfall : fallsBackToWasm ⟨0, 21, 0⟩ ⟨0, 21, 0⟩ = false := rfl
  have hslice : slice emptyListData 0 emptyListData.length = emptyListData := by simp [slice]
  have hdecode := vortexListDecode_emptyListData large
  cases large <;>
    simp [PrimitiveColDecoder.decodeBatch, collect, PrimitiveColDecoder.decodeChunk,
      PrimitiveColDecoder.openChunk, PrimitiveColDecoder.readChunk, emptyDecoder, emptyColumn,
      oneUnit, readExactAt, createPhysicalDecoder, DataType.decodable, ChunkDecoder.drain,
      ChunkDecoder.drainFuel, ChunkDecoder.units, ChunkDecoder.decodeBatch,
      ChunkDecoder.decodeNoDict, ChunkDecoder.unitDecoder, splitTo, unwrapSome,
      createEncunitDecoder, unitData, okOr, emptyReader, EncUnitDecoder.decode, hlookup, hfall,
      hslice, hdecode]

/-- An array without rows. -/
structure NoRows (a : ArrayRef) : Prop where
  len : a.len = 0
  validity : a.validity = []

theorem NoRows.nullCount {a : ArrayRef} (h : NoRows a) : a.nullCount = 0 := by
  rw [ArrayRef.nullCount, h.validity]
  rfl

/-- A list without rows is rebuilt if the child has its declared type. -/
theorem rebuildList_noRows (name : String) (nullable large : Bool) {child : Field} {a : ArrayRef}
    (ha : NoRows a) (htype : (fieldToView child).dataType = a.dataType) :
    ∃ b, rebuildList (.mk name (if large then .largeList child else .list child) nullable)
      (emptyList large, a) = .ok b ∧ NoRows b := by
  have hnew : listArrayNew large (fieldToView child) [0] a none =
      .ok (.list large (fieldToView child) [0] a none) := by
    simp [listArrayNew, ha.nullCount, htype]
  refine ⟨.list large (fieldToView child) [0] a none, ?_, ⟨rfl, rfl⟩⟩
  cases large <;> exact hnew

/-- One array of each column makes one row. -/
theorem transpose_singletons {as : List ArrayRef} (h : as ≠ []) :
    transpose (as.map fun a => [a]) = .ok [as] := by
  have hrow : collect (fun n : List ArrayRef => unwrapSome n[0]?) (as.map fun a => [a]) =
      .ok as := by
    rw [collect_eq_ok_iff, List.forall₂_map_left_iff]
    exact List.forall₂_same.2 fun a _ => rfl
  cases as with
  | nil => exact absurd rfl h
  | cons a as =>
      rw [List.map_cons] at hrow ⊢
      exact (collect_cons_eq_ok (f := fun i : Nat => collect (fun n : List ArrayRef =>
        unwrapSome n[i]?) ([a] :: as.map fun a => [a]))).2 ⟨a :: as, [], hrow, rfl, rfl⟩

/-- A struct without rows is rebuilt if its columns have their declared types. -/
theorem rebuildStruct_noRows {fields : List Field} {columns : List ArrayRef}
    (h : List.Forall₂ (fun f a => NoRows a ∧ (fieldToView f).dataType = a.dataType) fields
      columns) :
    ∃ b, rebuildStruct fields (.prim .boolean [], columns) = .ok b ∧ NoRows b := by
  have hlen : (fields.map fieldToView).length = columns.length := by
    rw [List.length_map]
    exact h.length_eq
  have hzip : ∀ p ∈ (fields.map fieldToView).zip columns,
      NoRows p.2 ∧ p.1.dataType = p.2.dataType := by
    intro p hp
    rw [List.zip_map_left] at hp
    obtain ⟨⟨f, a⟩, hfa, rfl⟩ := List.mem_map.1 hp
    exact (List.forall₂_iff_zip.1 h).2 hfa
  have hrows : ∀ a ∈ columns, a.len = 0 := by
    intro a ha
    obtain ⟨f, hfa⟩ := exists_left_of_mem h ha
    exact hfa.1.len
  have hhead : (columns.head?.map ArrayRef.len).getD 0 = 0 := by
    cases columns with
    | nil => rfl
    | cons a as => exact hrows a (List.mem_cons_self ..)
  have hnew : structArrayNew (fields.map fieldToView) columns none =
      .ok (.struct (fields.map fieldToView) columns none 0) := by
    have htypes : ((fields.map fieldToView).zip columns).any
        (fun p => decide (p.1.dataType ≠ p.2.dataType)) = false := by
      rw [List.any_eq_false]
      intro p hp
      simpa using (hzip p hp).2
    have hlens : (columns.any fun c => decide (c.len ≠ 0)) = false := by
      rw [List.any_eq_false]
      intro c hc
      simpa using hrows c hc
    have hnulls : ((fields.map fieldToView).zip columns).any
        (fun p => !p.1.isNullable && unmaskedNull p.2.validity none) = false := by
      rw [List.any_eq_false]
      intro p hp
      rw [(hzip p hp).1.validity]
      simp [unmaskedNull]
    simp only [structArrayNew, hlen, hhead, htypes, hlens, hnulls, ne_eq, not_true_eq_false,
      if_false, Option.any_none, Bool.false_eq_true]
  exact ⟨_, hnew, ⟨rfl, rfl⟩⟩

/-- What the decoder of a type does on the empty columns: it consumes its types,
its leaves decode, it returns one array without rows if the strings are shallow
and no struct is empty, and otherwise some call declares a wrong type. -/
structure EmptyRun (t : DataType) (d : LogicalColDecoder) : Prop where
  leaves : d.LeavesReturnViews emptyLeafEnv
  decodes : t.hasEmptyStruct = false → t.stringsShallow = true →
    ∃ a, d.decodeBatch emptyLeafEnv = .ok [a] ∧ NoRows a
  mismatch : t.stringsShallow = false →
    ∃ declared child, d.Wraps emptyLeafEnv declared child ∧ declared.dataType ≠ child.dataType

/-- `EmptyRun` for the children of a struct. -/
structure EmptyRuns (fs : List Field) (ds : List LogicalColDecoder) : Prop where
  leaves : LogicalColDecoder.AllLeavesReturnViews emptyLeafEnv ds
  decodes : Field.anyEmptyStruct fs = false → Field.allStringsShallow fs = true →
    ∃ as, LogicalColDecoder.decodeChildren emptyLeafEnv ds = .ok (as.map fun a => [a]) ∧
      List.Forall₂ (fun f a => NoRows a ∧ a.dataType = f.dataType.produced) fs as
  mismatch : Field.allStringsShallow fs = false →
    ∃ d ∈ ds, ∃ declared child, d.Wraps emptyLeafEnv declared child ∧
      declared.dataType ≠ child.dataType

/-- The node of a list, above the run of its child. -/
theorem emptyRun_list {name : String} {nullable : Bool} (large : Bool) {child : Field}
    {types : List DataType} {i n : Nat} {values : LogicalColDecoder}
    (hvalues : createLogicalDecoder (emptyReader types) child i = .ok (values, n))
    (h : EmptyRun child.dataType values) {t : DataType}
    (ht : t = if large then .largeList child else .list child) :
    EmptyRun t (.list (.mk name t nullable) (emptyDecoder types t) values) := by
  have hempty : child.hasEmptyStruct = child.dataType.hasEmptyStruct := by
    cases child
    rfl
  have hshallow : child.stringsShallow = child.dataType.stringsShallow := by
    cases child
    rfl
  have hvos : (emptyDecoder types t).decodeBatch emptyLeafEnv = .ok [emptyList large] := by
    rw [ht]
    exact decodeBatch_emptyList types large child
  have hte : t.hasEmptyStruct = child.hasEmptyStruct := by
    rw [ht]
    cases large <;> rfl
  have hts : t.stringsShallow = (child.stringsShallow &&
      (child.hasEmptyStruct || !child.dataType.hasStringChild)) := by
    rw [ht]
    cases large <;> rfl
  have hfield : (Field.mk name t nullable).dataType = .list child ∨
      (Field.mk name t nullable).dataType = .largeList child := by
    rw [ht]
    cases large
    · exact .inl rfl
    · exact .inr rfl
  refine ⟨h.leaves, fun hnone hs => ?_, fun hs => ?_⟩
  · rw [hte] at hnone
    rw [hts, hnone, Bool.false_or, Bool.and_eq_true, Bool.not_eq_true', hshallow] at hs
    obtain ⟨a, ha, hrows⟩ := h.decodes (hempty ▸ hnone) hs.1
    have htype : (fieldToView child).dataType = a.dataType := by
      rw [dataType_of_decodeBatch hvalues h.leaves ha a (List.mem_singleton_self a)]
      exact (declared_eq_produced_iff child).2 hs.2
    obtain ⟨b, hb, hbrows⟩ := rebuildList_noRows name nullable large hrows htype
    refine ⟨b, ?_, hbrows⟩
    rw [← ht] at hb
    simp only [LogicalColDecoder.decodeBatch, hvos, ha, ok_bind, List.zip_cons_cons,
      List.zip_nil_left, collect, hb, pure_eq_ok]
  · rw [hts] at hs
    by_cases hchild : child.dataType.stringsShallow = true
    · rw [hshallow, hchild, Bool.true_and, Bool.or_eq_false_iff, Bool.not_eq_false'] at hs
      obtain ⟨a, ha, -⟩ := h.decodes (hempty ▸ hs.1) hchild
      refine ⟨fieldToView child, a, .list hvos ha (List.mem_singleton_self _) hfield, ?_⟩
      rw [dataType_of_decodeBatch hvalues h.leaves ha a (List.mem_singleton_self a)]
      intro heq
      have hnone := (declared_eq_produced_iff child).1 heq
      rw [hs.2] at hnone
      cases hnone
    · obtain ⟨declared, a, hw, hne⟩ := h.mismatch (Bool.eq_false_iff.2 hchild)
      exact ⟨declared, a, .inList hw, hne⟩

/-- The node of a struct, above the runs of its fields. -/
theorem emptyRun_struct {fields : List Field} {types : List DataType}
    {children : List LogicalColDecoder} (h : EmptyRuns fields children) :
    EmptyRun (.struct fields) (.struct fields (emptyDecoder types (.prim .boolean)) children) := by
  have hvalidity : (emptyDecoder types (.prim .boolean)).decodeBatch emptyLeafEnv =
      .ok [.prim .boolean []] := decodeBatch_emptyLeaf types rfl
  refine ⟨h.leaves, fun hnone hs => ?_, fun hs => ?_⟩
  · simp only [DataType.hasEmptyStruct, Bool.or_eq_false_iff] at hnone
    simp only [DataType.stringsShallow, hnone.2, Bool.false_or, Bool.and_eq_true,
      Bool.not_eq_true'] at hs
    obtain ⟨as, has, hall⟩ := h.decodes hnone.2 hs.1
    have hne : as ≠ [] := by
      rintro rfl
      cases hall
      simp at hnone
    have htypes : List.Forall₂ (fun f a => NoRows a ∧ (fieldToView f).dataType = a.dataType)
        fields as := by
      rw [List.forall₂_iff_zip] at hall ⊢
      refine ⟨hall.1, fun {f a} hfa => ⟨(hall.2 hfa).1, ?_⟩⟩
      rw [(hall.2 hfa).2, declared_eq_produced_iff]
      have hf := List.any_eq_false.1 hs.2 f (List.of_mem_zip hfa).1
      simpa using hf
    obtain ⟨b, hb, hbrows⟩ := rebuildStruct_noRows htypes
    refine ⟨b, ?_, hbrows⟩
    simp only [LogicalColDecoder.decodeBatch, hvalidity, has, ok_bind, transpose_singletons hne,
      List.zip_cons_cons, List.zip_nil_left, collect, hb, pure_eq_ok]
  · by_cases hall : Field.allStringsShallow fields = true
    · simp only [DataType.stringsShallow, hall, Bool.true_and, Bool.or_eq_false_iff,
        Bool.not_eq_false', List.any_eq_true] at hs
      obtain ⟨hnone, f, hf, hchild⟩ := hs
      obtain ⟨as, has, htypes⟩ := h.decodes hnone hall
      have hne : as ≠ [] := by
        rintro rfl
        cases htypes
        cases hf
      obtain ⟨a, hfa⟩ := exists_mem_zip_of_mem htypes.length_eq hf
      refine ⟨fieldToView f, a, ?_, ?_⟩
      · refine .struct (p := (.prim .boolean [], as)) (q := (fieldToView f, a)) hvalidity has
          (transpose_singletons hne) (List.mem_singleton_self _) ?_
        rw [List.zip_map_left]
        exact List.mem_map.2 ⟨(f, a), hfa, rfl⟩
      · rw [((List.forall₂_iff_zip.1 htypes).2 hfa).2]
        intro heq
        have hnone := (declared_eq_produced_iff f).1 heq
        rw [hchild] at hnone
        cases hnone
    · obtain ⟨d, hd, declared, a, hw, hne⟩ := h.mismatch (Bool.eq_false_iff.2 hall)
      exact ⟨declared, a, .inStruct hd hw, hne⟩

mutual

/-- Every decoder of the empty reader that is built at its own types. -/
theorem emptyRun : ∀ (t : DataType) {name : String} {nullable : Bool} {types rest : List DataType}
    {i n : Nat} {d : LogicalColDecoder}, types.drop i = t.columnTypes ++ rest →
    createLogicalDecoderOf (emptyReader types) name nullable t i = .ok (d, n) →
      EmptyRun t d ∧ types.drop n = rest
  | .prim t, _, _, types, rest, i, n, d, htypes, hd => by
      simp only [createLogicalDecoderOf, bind_eq_ok] at hd
      obtain ⟨p, hp, hd⟩ := hd
      split at hd
      · next ht =>
          cases hd
          obtain rfl := primitive_emptyReader htypes rfl hp
          have hbatch := decodeBatch_emptyLeaf types ht
          refine ⟨⟨?_, fun _ _ => ⟨_, hbatch, rfl, rfl⟩, fun hs => by cases hs⟩, ?_⟩
          · intro arrays harrays a ha
            rw [hbatch, Except.ok.injEq] at harrays
            rw [← harrays] at ha
            rw [List.mem_singleton.1 ha]
            rfl
          · rw [← List.drop_drop, htypes]
            rfl
      · cases hd
  | .list child, name, nullable, types, rest, i, n, d, htypes, hd => by
      simp only [createLogicalDecoderOf, bind_eq_ok, pure_eq_ok, Except.ok.injEq,
        Prod.mk.injEq] at hd
      obtain ⟨p, hp, ⟨values, k⟩, hvalues, rfl, rfl⟩ := hd
      obtain rfl := primitive_emptyReader htypes rfl hp
      have hnext : types.drop (i + 1) = child.columnTypes ++ rest := by
        rw [← List.drop_drop, htypes]
        rfl
      obtain ⟨hrun, hrest⟩ := emptyRunField child hnext hvalues
      exact ⟨emptyRun_list false hvalues hrun rfl, hrest⟩
  | .largeList child, name, nullable, types, rest, i, n, d, htypes, hd => by
      simp only [createLogicalDecoderOf, bind_eq_ok, pure_eq_ok, Except.ok.injEq,
        Prod.mk.injEq] at hd
      obtain ⟨p, hp, ⟨values, k⟩, hvalues, rfl, rfl⟩ := hd
      obtain rfl := primitive_emptyReader htypes rfl hp
      have hnext : types.drop (i + 1) = child.columnTypes ++ rest := by
        rw [← List.drop_drop, htypes]
        rfl
      obtain ⟨hrun, hrest⟩ := emptyRunField child hnext hvalues
      exact ⟨emptyRun_list true hvalues hrun rfl, hrest⟩
  | .struct fields, _, _, types, rest, i, n, d, htypes, hd => by
      simp only [createLogicalDecoderOf, bind_eq_ok, pure_eq_ok, Except.ok.injEq,
        Prod.mk.injEq] at hd
      obtain ⟨p, hp, ⟨children, k⟩, hchildren, rfl, rfl⟩ := hd
      obtain rfl := primitive_emptyReader htypes rfl hp
      have hnext : types.drop (i + 1) = Field.columnTypesAll fields ++ rest := by
        rw [← List.drop_drop, htypes]
        rfl
      obtain ⟨hruns, hrest⟩ := emptyRuns fields hnext hchildren
      exact ⟨emptyRun_struct hruns, hrest⟩

theorem emptyRunField : ∀ (f : Field) {types rest : List DataType} {i n : Nat}
    {d : LogicalColDecoder}, types.drop i = f.columnTypes ++ rest →
    createLogicalDecoder (emptyReader types) f i = .ok (d, n) →
      EmptyRun f.dataType d ∧ types.drop n = rest
  | .mk _ dataType _, _, _, _, _, _, htypes, hd => emptyRun dataType htypes hd

theorem emptyRuns : ∀ (fs : List Field) {types rest : List DataType} {i n : Nat}
    {ds : List LogicalColDecoder}, types.drop i = Field.columnTypesAll fs ++ rest →
    createLogicalDecoders (emptyReader types) fs i = .ok (ds, n) →
      EmptyRuns fs ds ∧ types.drop n = rest
  | [], _, _, _, _, _, htypes, hd => by
      cases hd
      exact ⟨⟨trivial, fun _ _ => ⟨[], rfl, .nil⟩, fun hs => by cases hs⟩, htypes⟩
  | f :: fs, types, rest, i, n, ds, htypes, hd => by
      simp only [createLogicalDecoders, bind_eq_ok, pure_eq_ok, Except.ok.injEq,
        Prod.mk.injEq] at hd
      obtain ⟨⟨d, k⟩, hd, ⟨more, l⟩, hmore, rfl, rfl⟩ := hd
      rw [Field.columnTypesAll, List.append_assoc] at htypes
      obtain ⟨hrun, hnext⟩ := emptyRunField f htypes hd
      obtain ⟨hruns, hrest⟩ := emptyRuns fs hnext hmore
      have hempty : f.hasEmptyStruct = f.dataType.hasEmptyStruct := by
        cases f
        rfl
      have hshallow : f.stringsShallow = f.dataType.stringsShallow := by
        cases f
        rfl
      refine ⟨⟨⟨hrun.leaves, hruns.leaves⟩, fun hnone hs => ?_, fun hs => ?_⟩, hrest⟩
      · simp only [Field.anyEmptyStruct, Bool.or_eq_false_iff] at hnone
        simp only [Field.allStringsShallow, Bool.and_eq_true] at hs
        obtain ⟨a, ha, hrows⟩ := hrun.decodes (hempty ▸ hnone.1) (hshallow ▸ hs.1)
        obtain ⟨as, has, hall⟩ := hruns.decodes hnone.2 hs.2
        refine ⟨a :: as, ?_, .cons ⟨hrows, ?_⟩ hall⟩
        · simp only [LogicalColDecoder.decodeChildren, ha, has, ok_bind, pure_eq_ok, List.map_cons]
        · exact dataType_of_decodeBatch hd hrun.leaves ha a (List.mem_singleton_self a)
      · simp only [Field.allStringsShallow, Bool.and_eq_false_iff] at hs
        rcases hs with hs | hs
        · obtain ⟨declared, child, hw⟩ := hrun.mismatch (hshallow ▸ hs)
          exact ⟨d, List.mem_cons_self .., declared, child, hw⟩
        · obtain ⟨d', hd', hw⟩ := hruns.mismatch hs
          exact ⟨d', List.mem_cons_of_mem _ hd', hw⟩

end

end Sample

/-- A deep string in a supported field is declared wrongly by some decoder. -/
theorem stringsShallow_of_declaresProduced {f : Field} (hf : f.supported = true)
    (h : DeclaresProduced f) : f.stringsShallow = true := by
  by_contra hdeep
  have hcov : CoversColumns (Sample.emptyReader f.columnTypes).columnMetas f.nodes := by
    intro i hi
    rw [← f.length_columnTypes] at hi
    refine ⟨Sample.emptyColumn f.columnTypes[i], ?_, ?_⟩
    · simp only [Sample.emptyReader, List.getElem?_map, List.getElem?_eq_getElem hi,
        Option.map_some]
    · cases f.columnTypes[i] <;> rfl
  obtain ⟨d, hd⟩ := createLogicalDecoder_ok f (i := 0) hf hcov (by omega)
  have htypes : f.columnTypes.drop 0 = f.columnTypes ++ [] := by
    rw [List.append_nil]
    rfl
  obtain ⟨hrun, -⟩ := Sample.emptyRunField f htypes hd
  have hshallow : f.stringsShallow = f.dataType.stringsShallow := by
    cases f
    rfl
  obtain ⟨declared, child, hw, hne⟩ := hrun.mismatch (hshallow ▸ Bool.eq_false_iff.2 hdeep)
  exact hne ((h _ _ _ _ _ hd hrun.leaves).1 declared child hw)

/-- **A nested decoder declares the types its children produce exactly when
strings and binaries are shallow.** -/
theorem declaresProduced_iff {f : Field} (hf : f.supported = true) :
    DeclaresProduced f ↔ f.stringsShallow = true :=
  ⟨stringsShallow_of_declaresProduced hf, declaresProduced_of_stringsShallow⟩

namespace Sample

/-- A list of strings, whose child is a leaf. -/
def shallowStrings : Field := .mk "l" (.list (.mk "item" (.prim .utf8) true)) true

/-- A list of lists of strings. -/
def deepStrings : Field :=
  .mk "l" (.list (.mk "item" (.list (.mk "item" (.prim .utf8) true)) true)) true

/-- One row, `[["x"]]`. -/
def deepArray : ArrayRef :=
  .list false (.mk "item" (.list (.mk "item" (.prim .utf8) true)) true) [0, 1]
    (.list false (.mk "item" (.prim .utf8) true) [0, 1] (.prim .utf8 [some (.str "x")]) none) none

/-- A batch of that row. -/
def deepBatch : RecordBatch := ⟨[deepStrings], [deepArray], 1, by decide⟩

/-- Writes the batches of a schema with the default options, opens the file and
reads it; the fault of the first step that fails. -/
def readFault (schema : List Field) (cs : List FileWriter.Call) : Option Fault :=
  match (do
    let w ← FileWriter.run env schema .default cs
    let r ← (FileReaderV2Builder.new w.file).build env
    r.readFile env) with
  | .ok _ => none
  | .error f => some f

end Sample

/-- A list of strings is read with the types it declares. -/
theorem shallowStrings_declaresProduced : DeclaresProduced Sample.shallowStrings :=
  (declaresProduced_iff (by decide)).2 (by decide)

/-- A file with a list of lists of strings is written and cannot be read back. -/
theorem deepStrings_not_declaresProduced : ¬ DeclaresProduced Sample.deepStrings ∧
    Sample.readFault [Sample.deepStrings] [.writeBatch Sample.deepBatch] =
      some (.panic "ListArray expected data type got another") := by
  constructor
  · intro h
    have hshallow := stringsShallow_of_declaresProduced rfl h
    revert hshallow
    decide
  · decide +kernel

end F3Format
