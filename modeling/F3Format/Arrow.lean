import F3Format.Errors

/-!
# Arrow types, arrays and record batches

The part of Arrow the format handles: data types, immutable arrays and record
batches. A leaf array is its type and its rows; floating-point values are kept
as their bit patterns. A list array keeps its offset buffer as it is, so that a
slice of a larger array starts at an offset that need not be zero, and its
values array is not trimmed. The constructors that Arrow checks are the
functions `listArrayNew`, `structArrayNew` and `RecordBatch.tryNew`.
-/

set_option autoImplicit false

namespace F3Format

/-! ## Data types -/

/-- `arrow_schema::TimeUnit`. -/
inductive TimeUnit where
  | second
  | millisecond
  | microsecond
  | nanosecond
  deriving DecidableEq, Repr

/-- The units of `Time32`; Arrow has no array type for the others. -/
inductive Time32Unit where
  | second
  | millisecond
  deriving DecidableEq, Repr

/-- The units of `Time64`; Arrow has no array type for the others. -/
inductive Time64Unit where
  | microsecond
  | nanosecond
  deriving DecidableEq, Repr

/-- `arrow_schema::IntervalUnit`. -/
inductive IntervalUnit where
  | yearMonth
  | dayTime
  | monthDayNano
  deriving DecidableEq, Repr

/-- The data types without children. -/
inductive PrimType where
  | null
  | boolean
  | int8
  | int16
  | int32
  | int64
  | uint8
  | uint16
  | uint32
  | uint64
  | float16
  | float32
  | float64
  | timestamp (unit : TimeUnit) (tz : Option String)
  | date32
  | date64
  | time32 (unit : Time32Unit)
  | time64 (unit : Time64Unit)
  | duration (unit : TimeUnit)
  | interval (unit : IntervalUnit)
  | binary
  | largeBinary
  | binaryView
  | utf8
  | largeUtf8
  | utf8View
  | decimal128 (precision scale : Nat)
  | decimal256 (precision scale : Nat)
  deriving DecidableEq, Repr

mutual

/-- `arrow_schema::DataType`. -/
inductive DataType where
  | prim (p : PrimType)
  | list (child : Field)
  | largeList (child : Field)
  | struct (fields : List Field)

/-- `arrow_schema::Field`. -/
inductive Field where
  | mk (name : String) (dataType : DataType) (nullable : Bool)

end

namespace Field

/-- The name of the field. -/
def name : Field → String
  | mk n _ _ => n

/-- The type of the field. -/
def dataType : Field → DataType
  | mk _ t _ => t

/-- Whether the field may hold nulls. -/
def isNullable : Field → Bool
  | mk _ _ b => b

end Field

mutual

/-- Decidable equality of data types. -/
def DataType.decEq : (a b : DataType) → Decidable (a = b)
  | .prim p, .prim q =>
      if h : p = q then isTrue (by rw [h]) else isFalse (by intro e; cases e; exact h rfl)
  | .list c, .list d =>
      match Field.decEq c d with
      | isTrue h => isTrue (by rw [h])
      | isFalse h => isFalse (by intro e; cases e; exact h rfl)
  | .largeList c, .largeList d =>
      match Field.decEq c d with
      | isTrue h => isTrue (by rw [h])
      | isFalse h => isFalse (by intro e; cases e; exact h rfl)
  | .struct fs, .struct gs =>
      match Field.decEqList fs gs with
      | isTrue h => isTrue (by rw [h])
      | isFalse h => isFalse (by intro e; cases e; exact h rfl)
  | .prim _, .list _ => isFalse (by intro e; cases e)
  | .prim _, .largeList _ => isFalse (by intro e; cases e)
  | .prim _, .struct _ => isFalse (by intro e; cases e)
  | .list _, .prim _ => isFalse (by intro e; cases e)
  | .list _, .largeList _ => isFalse (by intro e; cases e)
  | .list _, .struct _ => isFalse (by intro e; cases e)
  | .largeList _, .prim _ => isFalse (by intro e; cases e)
  | .largeList _, .list _ => isFalse (by intro e; cases e)
  | .largeList _, .struct _ => isFalse (by intro e; cases e)
  | .struct _, .prim _ => isFalse (by intro e; cases e)
  | .struct _, .list _ => isFalse (by intro e; cases e)
  | .struct _, .largeList _ => isFalse (by intro e; cases e)

/-- Decidable equality of fields. -/
def Field.decEq : (a b : Field) → Decidable (a = b)
  | .mk n t b, .mk n' t' b' =>
      match DataType.decEq t t' with
      | isTrue h =>
          if h' : n = n' ∧ b = b' then isTrue (by rw [h, h'.1, h'.2])
          else isFalse (by intro e; cases e; exact h' ⟨rfl, rfl⟩)
      | isFalse h => isFalse (by intro e; cases e; exact h rfl)

/-- Decidable equality of field lists. -/
def Field.decEqList : (as bs : List Field) → Decidable (as = bs)
  | [], [] => isTrue rfl
  | a :: as, b :: bs =>
      match Field.decEq a b, Field.decEqList as bs with
      | isTrue h, isTrue h' => isTrue (by rw [h, h'])
      | isFalse h, _ => isFalse (by intro e; cases e; exact h rfl)
      | _, isFalse h' => isFalse (by intro e; cases e; exact h' rfl)
  | [], _ :: _ => isFalse (by intro e; cases e)
  | _ :: _, [] => isFalse (by intro e; cases e)

end

instance : DecidableEq DataType := DataType.decEq

instance : DecidableEq Field := Field.decEq

/-- `non_nest_types!()` on a childless type. -/
def PrimType.nonNest : PrimType → Bool
  | .null => false
  | .binaryView => false
  | .utf8View => false
  | _ => true

/-- `matches!(dt, non_nest_types!())`. -/
def DataType.nonNest : DataType → Bool
  | .prim p => p.nonNest
  | _ => false

/-- The fields an Arrow schema lists, each of a non-nested type. -/
def flatSchema (fields : List Field) : Bool := fields.all fun f => f.dataType.nonNest

/-- The type a decoded leaf comes back with: strings and binaries return as views. -/
def PrimType.view : PrimType → PrimType
  | .utf8 => .utf8View
  | .largeUtf8 => .utf8View
  | .binary => .binaryView
  | .largeBinary => .binaryView
  | p => p

/-! ## Arrays -/

/-- One non-null value of a leaf array. Floats are their IEEE bit patterns. -/
inductive Scalar where
  | bool (b : Bool)
  | int (i : Int)
  | float (bits : Nat)
  | str (s : String)
  | bytes (b : List UInt8)
  deriving DecidableEq, Repr

/-- `arrow_array::ArrayRef`. -/
inductive ArrayRef where
  | prim (dtype : PrimType) (values : List (Option Scalar))
  | list (large : Bool) (field : Field) (offsets : List Nat) (values : ArrayRef)
      (nulls : Option (List Bool))
  | struct (fields : List Field) (columns : List ArrayRef) (nulls : Option (List Bool))
      (len : Nat)

namespace ArrayRef

/-- `Array::data_type`. -/
def dataType : ArrayRef → DataType
  | prim t _ => .prim t
  | list true f _ _ _ => .largeList f
  | list false f _ _ _ => .list f
  | struct fs _ _ _ => .struct fs

/-- `Array::len`. -/
def len : ArrayRef → Nat
  | prim _ vs => vs.length
  | list _ _ offsets _ _ => offsets.length - 1
  | struct _ _ _ n => n

/-- The validity of every row. -/
def validity : ArrayRef → List Bool
  | prim _ vs => vs.map Option.isSome
  | list _ _ offsets _ nulls => nulls.getD (List.replicate (offsets.length - 1) true)
  | struct _ _ nulls n => nulls.getD (List.replicate n true)

/-- `Array::null_count`. -/
def nullCount (a : ArrayRef) : Nat := a.validity.count false

/-- The rows of a leaf array. -/
def rows : ArrayRef → List (Option Scalar)
  | prim _ vs => vs
  | _ => []

mutual

/-- `Array::slice`. A list array slices its offsets and keeps its values. -/
def slice : ArrayRef → Nat → Nat → ArrayRef
  | prim t vs, off, n => prim t ((vs.drop off).take n)
  | list large f offsets values nulls, off, n =>
      list large f ((offsets.drop off).take (n + 1)) values
        (nulls.map fun bs => (bs.drop off).take n)
  | struct fs cols nulls _, off, n =>
      struct fs (sliceList cols off n) (nulls.map fun bs => (bs.drop off).take n) n

/-- `slice` on every column of a struct. -/
def sliceList : List ArrayRef → Nat → Nat → List ArrayRef
  | [], _, _ => []
  | c :: cs, off, n => slice c off n :: sliceList cs off n

end

@[simp] theorem len_prim (t : PrimType) (vs : List (Option Scalar)) :
    (prim t vs).len = vs.length := rfl

@[simp] theorem dataType_prim (t : PrimType) (vs : List (Option Scalar)) :
    (prim t vs).dataType = .prim t := rfl

@[simp] theorem rows_prim (t : PrimType) (vs : List (Option Scalar)) :
    (prim t vs).rows = vs := rfl

theorem eq_prim_of_dataType {a : ArrayRef} {t : PrimType} (h : a.dataType = .prim t) :
    ∃ vs, a = prim t vs := by
  cases a with
  | prim t' vs =>
      cases h
      exact ⟨vs, rfl⟩
  | list large f offsets values nulls => cases large <;> cases h
  | struct fs cols nulls n => cases h

/-- An array of a non-nested type is a leaf. -/
theorem eq_prim_of_nonNest {a : ArrayRef} (h : a.dataType.nonNest = true) :
    ∃ t vs, a = prim t vs ∧ t.nonNest = true := by
  cases a with
  | prim t vs => exact ⟨t, vs, rfl, h⟩
  | list large f offsets values nulls => cases large <;> simp [dataType, DataType.nonNest] at h
  | struct fs cols nulls n => simp [dataType, DataType.nonNest] at h

end ArrayRef

/-- The offsets as a standalone `Int32Array` or `Int64Array` without nulls. -/
def offsetsArray (large : Bool) (offsets : List Nat) : ArrayRef :=
  .prim (if large then .int64 else .int32) (offsets.map fun o => some (.int o))

/-- A `BooleanArray` without nulls. -/
def boolArray (bs : List Bool) : ArrayRef := .prim .boolean (bs.map fun b => some (.bool b))

/-- `Int32Array::new_null(1)`. -/
def placeholderArray : ArrayRef := .prim .int32 [none]

/-- The bits of a boolean array. -/
def boolValues (vs : List (Option Scalar)) : List Bool :=
  vs.map fun v => v == some (.bool true)

/-- The values of an offsets array. -/
def offsetValues (vs : List (Option Scalar)) : List Nat :=
  vs.map fun v => match v with
    | some (.int i) => i.toNat
    | _ => 0

@[simp] theorem boolValues_boolArray (bs : List Bool) : boolValues (boolArray bs).rows = bs := by
  induction bs with
  | nil => rfl
  | cons b bs ih =>
      have hrest : boolValues (bs.map fun b => some (Scalar.bool b)) = bs := ih
      cases b <;> simp [boolArray, boolValues] at hrest ⊢ <;> exact hrest

@[simp] theorem offsetValues_offsetsArray (large : Bool) (offsets : List Nat) :
    offsetValues (offsetsArray large offsets).rows = offsets := by
  induction offsets with
  | nil => rfl
  | cons o os ih => exact congrArg (List.cons o) ih

/-- `GenericListArray::new`: the checks of `try_new`, with its errors unwrapped. -/
def listArrayNew (large : Bool) (field : Field) (offsets : List Nat) (values : ArrayRef)
    (nulls : Option (List Bool)) : Result ArrayRef :=
  if offsets.getLastD 0 > values.len then
    panicking "Max offset exceeds length of values"
  else if nulls.any fun bs => bs.length ≠ offsets.length - 1 then
    panicking "Incorrect length of null buffer for ListArray"
  else if ¬ field.isNullable ∧ values.nullCount > 0 then
    panicking "Non-nullable field of type ListArray cannot contain nulls"
  else if field.dataType ≠ values.dataType then
    panicking "ListArray expected data type got another"
  else .ok (.list large field offsets values nulls)

/-- A null row of a non-nullable child that the parent's validity does not mask. -/
def unmaskedNull (child : List Bool) : Option (List Bool) → Bool
  | none => child.contains false
  | some parent => (child.zip parent).any fun p => !p.1 && p.2

/-- `StructArray::new`: the checks of `try_new`, with its errors unwrapped. -/
def structArrayNew (fields : List Field) (columns : List ArrayRef)
    (nulls : Option (List Bool)) : Result ArrayRef :=
  if fields.length ≠ columns.length then
    panicking "Incorrect number of arrays for StructArray fields"
  else
    let len := (columns.head?.map ArrayRef.len).getD 0
    if nulls.any fun bs => bs.length ≠ len then
      panicking "Incorrect number of nulls for StructArray"
    else if (fields.zip columns).any fun p => decide (p.1.dataType ≠ p.2.dataType) then
      panicking "Incorrect datatype for StructArray field"
    else if columns.any fun c => decide (c.len ≠ len) then
      panicking "Incorrect array length for StructArray field"
    else if (fields.zip columns).any fun p =>
        !p.1.isNullable && unmaskedNull p.2.validity nulls then
      panicking "Found unmasked nulls for non-nullable StructArray field"
    else .ok (.struct fields columns nulls len)

/-! ## Well-formed arrays -/

/-- The offsets never decrease. -/
def monotone : List Nat → Bool
  | [] => true
  | [_] => true
  | a :: b :: rest => decide (a ≤ b) && monotone (b :: rest)

mutual

/-- What Arrow's constructors guarantee at every level of an array. -/
def ArrayRef.wf : ArrayRef → Bool
  | .prim _ _ => true
  | .list _ field offsets values nulls =>
      !offsets.isEmpty && monotone offsets && decide (offsets.getLastD 0 ≤ values.len) &&
        (nulls.all fun bs => decide (bs.length = offsets.length - 1)) &&
        (field.isNullable || decide (values.nullCount = 0)) &&
        decide (field.dataType = values.dataType) && values.wf
  | .struct fields columns nulls len =>
      decide (fields.map Field.dataType = columns.map ArrayRef.dataType) &&
        (nulls.all fun bs => decide (bs.length = len)) &&
        (columns.all fun c => decide (c.len = len)) &&
        ((fields.zip columns).all fun p =>
          p.1.isNullable || !unmaskedNull p.2.validity nulls) &&
        ArrayRef.wfList columns

/-- `wf` on every column of a struct. -/
def ArrayRef.wfList : List ArrayRef → Bool
  | [] => true
  | c :: cs => c.wf && ArrayRef.wfList cs

end

/-! ## Record batches -/

/-- The checks of `RecordBatch::try_new`. -/
def validBatch (fields : List Field) (columns : List ArrayRef) (numRows : Nat) : Bool :=
  decide (fields.map Field.dataType = columns.map ArrayRef.dataType) &&
    (columns.all fun c => decide (c.len = numRows)) &&
    ((fields.zip columns).all fun p => p.1.isNullable || decide (p.2.nullCount = 0))

/-- `arrow_array::RecordBatch`; a value exists only if `try_new` accepts it. -/
structure RecordBatch where
  schema : List Field
  columns : List ArrayRef
  numRows : Nat
  valid : validBatch schema columns numRows = true

/-- `RecordBatch::try_new`. -/
def RecordBatch.tryNew (schema : List Field) (columns : List ArrayRef) : Result RecordBatch :=
  match columns with
  | [] => fail (.external "must either specify a row count or at least one column")
  | c :: cs =>
      if h : validBatch schema (c :: cs) c.len = true then .ok ⟨schema, c :: cs, c.len, h⟩
      else fail (.external "InvalidArgumentError")

namespace RecordBatch

variable (b : RecordBatch)

theorem dataType_columns : b.columns.map ArrayRef.dataType = b.schema.map Field.dataType := by
  have h := b.valid
  simp only [validBatch, Bool.and_eq_true, decide_eq_true_eq] at h
  exact h.1.1.symm

theorem len_of_mem {c : ArrayRef} (hc : c ∈ b.columns) : c.len = b.numRows := by
  have h := b.valid
  simp only [validBatch, Bool.and_eq_true, decide_eq_true_eq, List.all_eq_true] at h
  exact h.1.2 c hc

theorem length_columns : b.columns.length = b.schema.length := by
  have h := congrArg List.length b.dataType_columns
  simpa using h

/-- A column of a non-nullable field holds no null. -/
theorem nullCount_of_zip {f : Field} {c : ArrayRef} (h : (f, c) ∈ b.schema.zip b.columns)
    (hf : f.isNullable = false) : c.nullCount = 0 := by
  have hv := b.valid
  simp only [validBatch, Bool.and_eq_true, List.all_eq_true] at hv
  have hp := hv.2 (f, c) h
  simpa [hf] using hp

end RecordBatch

/-- Two batches have the same number of columns and the same rows in each. -/
def RecordBatch.SameRows (a b : RecordBatch) : Prop :=
  a.columns.map ArrayRef.rows = b.columns.map ArrayRef.rows

end F3Format
