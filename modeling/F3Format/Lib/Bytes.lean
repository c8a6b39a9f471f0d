import Mathlib

/-!
# Byte strings

A file is a list of bytes and a read is a slice of it. This file gives the
slice laws a layout proof needs (a slice survives an append, a slice of a slice
is a slice), the segments a list holds at its positions, and the fixed-width
little-endian codec of natural numbers.
-/

set_option autoImplicit false

namespace Lib

universe u

variable {α : Type u}

/-- Byte strings. -/
abbrev Bytes := List UInt8

/-! ## Slices -/

/-- The `len` elements of `xs` from position `off` on, cut short at the end. -/
def slice (xs : List α) (off len : Nat) : List α := (xs.drop off).take len

theorem length_slice (xs : List α) {off len : Nat} (h : off + len ≤ xs.length) :
    (slice xs off len).length = len := by
  simp only [slice, List.length_take, List.length_drop]
  omega

@[simp] theorem slice_length_zero (xs : List α) (off : Nat) : slice xs off 0 = [] := by
  simp [slice]

@[simp] theorem slice_full (xs : List α) : slice xs 0 xs.length = xs := by
  simp [slice]

/-- A slice inside the first part does not see what is appended. -/
theorem slice_append_left (xs ys : List α) {off len : Nat} (h : off + len ≤ xs.length) :
    slice (xs ++ ys) off len = slice xs off len := by
  unfold slice
  rw [List.drop_append_of_le_length (by omega), List.take_append_of_le_length]
  simp only [List.length_drop]
  omega

/-- A slice past the first part is a slice of the second. -/
theorem slice_append_right (xs ys : List α) (off len : Nat) :
    slice (xs ++ ys) (xs.length + off) len = slice ys off len := by
  unfold slice
  rw [List.drop_append, List.drop_eq_nil_of_le (by omega), List.nil_append,
    Nat.add_sub_cancel_left]

theorem slice_append_right_zero (xs ys : List α) (len : Nat) :
    slice (xs ++ ys) xs.length len = slice ys 0 len := by
  have h := slice_append_right xs ys 0 len
  simpa using h

/-- The middle part of a concatenation is the slice at its own position. -/
theorem slice_middle (xs ys zs : List α) :
    slice (xs ++ (ys ++ zs)) xs.length ys.length = ys := by
  rw [slice_append_right_zero, slice_append_left ys zs (by omega), slice_full]

theorem slice_slice (xs : List α) {off len off' len' : Nat} (h : off' + len' ≤ len) :
    slice (slice xs off len) off' len' = slice xs (off + off') len' := by
  unfold slice
  rw [List.drop_take, List.take_take, List.drop_drop]
  congr 1
  omega

theorem slice_sublist (xs : List α) (off len : Nat) : (slice xs off len).Sublist xs :=
  (List.take_sublist len _).trans (List.drop_sublist off xs)

theorem slice_replicate (a : α) {n off len : Nat} (h : off + len ≤ n) :
    slice (List.replicate n a) off len = List.replicate len a := by
  have hmin : min len (n - off) = len := by omega
  simp [slice, hmin]

theorem slice_zip {β : Type u} (xs : List α) (ys : List β) (off len : Nat) :
    slice (xs.zip ys) off len = (slice xs off len).zip (slice ys off len) := by
  simp [slice, List.zip, List.drop_zipWith, List.take_zipWith]

/-! ## Segments -/

/-- The list has `b` from position `off` on. -/
def HoldsAt (xs : List α) (off : Nat) (b : List α) : Prop :=
  ∃ pre post, xs = pre ++ (b ++ post) ∧ pre.length = off

theorem holdsAt_self (xs : List α) : HoldsAt xs 0 xs := ⟨[], [], by simp, rfl⟩

theorem holdsAt_snoc (xs b : List α) : HoldsAt (xs ++ b) xs.length b := ⟨xs, [], by simp, rfl⟩

namespace HoldsAt

variable {xs b c : List α} {off : Nat}

theorem le_length (h : HoldsAt xs off b) : off + b.length ≤ xs.length := by
  obtain ⟨pre, post, rfl, rfl⟩ := h
  simp only [List.length_append]
  omega

theorem slice_eq (h : HoldsAt xs off b) : slice xs off b.length = b := by
  obtain ⟨pre, post, rfl, rfl⟩ := h
  exact slice_middle pre b post

/-- What is appended moves no segment. -/
theorem append (h : HoldsAt xs off b) (ys : List α) : HoldsAt (xs ++ ys) off b := by
  obtain ⟨pre, post, rfl, rfl⟩ := h
  exact ⟨pre, post ++ ys, by simp, rfl⟩

theorem prepend (h : HoldsAt xs off b) (ys : List α) :
    HoldsAt (ys ++ xs) (ys.length + off) b := by
  obtain ⟨pre, post, rfl, rfl⟩ := h
  exact ⟨ys ++ pre, post, by simp, by simp⟩

theorem left (h : HoldsAt xs off (b ++ c)) : HoldsAt xs off b := by
  obtain ⟨pre, post, rfl, rfl⟩ := h
  exact ⟨pre, c ++ post, by simp, rfl⟩

theorem right (h : HoldsAt xs off (b ++ c)) : HoldsAt xs (off + b.length) c := by
  obtain ⟨pre, post, rfl, rfl⟩ := h
  exact ⟨pre ++ b, post, by simp, by simp⟩

/-- Dropping what is in front moves a segment to the front. -/
theorem drop (h : HoldsAt xs off b) {n : Nat} (hn : n ≤ off) : HoldsAt (xs.drop n) (off - n) b := by
  obtain ⟨pre, post, rfl, rfl⟩ := h
  exact ⟨pre.drop n, post, by rw [List.drop_append_of_le_length hn], by simp⟩

/-- A segment inside a slice is found at its position relative to the slice. -/
theorem slice_slice (h : HoldsAt xs off b) {lo n : Nat} (hlo : lo ≤ off)
    (hn : off + b.length ≤ lo + n) : Lib.slice (Lib.slice xs lo n) (off - lo) b.length = b := by
  rw [Lib.slice_slice xs (by omega), Nat.add_sub_cancel' hlo]
  exact h.slice_eq

end HoldsAt

/-! ## Little-endian integers -/

/-- The `width` low bytes of `v`, least significant first. -/
def leEncode : Nat → Nat → Bytes
  | 0, _ => []
  | width + 1, v => UInt8.ofNat (v % 256) :: leEncode width (v / 256)

/-- The number whose little-endian digits are the bytes. -/
def leDecode : Bytes → Nat
  | [] => 0
  | b :: bs => b.toNat + 256 * leDecode bs

@[simp] theorem length_leEncode (width v : Nat) : (leEncode width v).length = width := by
  induction width generalizing v with
  | zero => rfl
  | succ width ih => simp [leEncode, ih]

/-- Decoding recovers the value modulo the field width. -/
theorem leDecode_leEncode (width v : Nat) : leDecode (leEncode width v) = v % 256 ^ width := by
  induction width generalizing v with
  | zero => simp [leEncode, leDecode, Nat.mod_one]
  | succ width ih =>
      have hb : (UInt8.ofNat (v % 256)).toNat = v % 256 := by
        rw [UInt8.toNat_ofNat']
        omega
      rw [leEncode, leDecode, ih, hb, Nat.pow_succ', Nat.mod_mul]

theorem leDecode_leEncode_of_lt {width v : Nat} (h : v < 256 ^ width) :
    leDecode (leEncode width v) = v := by
  rw [leDecode_leEncode, Nat.mod_eq_of_lt h]

end Lib
