import F3Format.Lib.Bytes

/-!
# Codecs

A codec writes a value as bytes and reads it back from the front of a buffer,
whatever follows. Codecs are closed under pairs, sums, options, lists, retracts
and labelled trees, so that a record or a recursive type gets one from the
codecs of its parts.
-/

set_option autoImplicit false

namespace Lib

universe u v w

/-- A writer of values and a reader of the front of a buffer that inverts it. -/
structure Codec (α : Type u) where
  put : α → Bytes
  get : Bytes → Option (α × Bytes)
  get_put : ∀ (a : α) (rest : Bytes), get (put a ++ rest) = some (a, rest)

namespace Codec

variable {α : Type u} {β : Type v} {γ : Type w}

/-- Nothing is written. -/
def unit : Codec Unit where
  put := fun _ => []
  get := fun b => some ((), b)
  get_put := fun _ _ => rfl

/-- One byte. -/
def byte : Codec UInt8 where
  put := fun b => [b]
  get := fun
    | [] => none
    | b :: rest => some (b, rest)
  get_put := fun _ _ => rfl

/-! ## Numbers -/

/-- Base-128 digits, the most significant last; a digit that is followed by
another has its top bit set. `fuel` bounds the number of digits. -/
def putDigits : Nat → Nat → Bytes
  | 0, n => [UInt8.ofNat n]
  | fuel + 1, n =>
      if n < 128 then [UInt8.ofNat n]
      else UInt8.ofNat (128 + n % 128) :: putDigits fuel (n / 128)

/-- Reads digits up to the first without the top bit. -/
def getDigits : Bytes → Option (Nat × Bytes)
  | [] => none
  | b :: rest =>
      if b.toNat < 128 then some (b.toNat, rest)
      else (getDigits rest).map fun p => (p.1 * 128 + (b.toNat - 128), p.2)

theorem getDigits_putDigits (fuel : Nat) :
    ∀ (n : Nat) (rest : Bytes), n < 128 * (fuel + 1) →
      getDigits (putDigits fuel n ++ rest) = some (n, rest) := by
  induction fuel with
  | zero =>
      intro n rest h
      have hb : (UInt8.ofNat n).toNat = n := by
        rw [UInt8.toNat_ofNat']
        omega
      show (if (UInt8.ofNat n).toNat < 128 then some ((UInt8.ofNat n).toNat, rest) else _) = _
      rw [hb, if_pos (by omega)]
  | succ fuel ih =>
      intro n rest h
      rw [putDigits]
      by_cases hn : n < 128
      · have hb : (UInt8.ofNat n).toNat = n := by
          rw [UInt8.toNat_ofNat']
          omega
        rw [if_pos hn]
        show (if (UInt8.ofNat n).toNat < 128 then some ((UInt8.ofNat n).toNat, rest) else _) = _
        rw [hb, if_pos hn]
      · have hb : (UInt8.ofNat (128 + n % 128)).toNat = 128 + n % 128 := by
          rw [UInt8.toNat_ofNat']
          omega
        rw [if_neg hn, List.cons_append, getDigits, hb, if_neg (by omega), ih _ _ (by omega)]
        have hdiv := Nat.div_add_mod n 128
        rw [Option.map_some, show n / 128 * 128 + (128 + n % 128 - 128) = n by omega]

theorem length_putDigits_le (fuel n : Nat) : (putDigits fuel n).length ≤ fuel + 1 := by
  induction fuel generalizing n with
  | zero => simp [putDigits]
  | succ fuel ih =>
      rw [putDigits]
      split
      · simp
      · simp [ih]

/-- A natural number. -/
def nat : Codec Nat where
  put := fun n => putDigits n n
  get := getDigits
  get_put := fun n rest => getDigits_putDigits n n rest (by omega)

/-! ## Compound values -/

/-- A value through a retract onto a type that has a codec. -/
def retract (c : Codec α) (f : β → α) (g : α → β) (h : ∀ b, g (f b) = b) : Codec β where
  put := fun b => c.put (f b)
  get := fun bytes => (c.get bytes).map fun p => (g p.1, p.2)
  get_put := by
    intro b rest
    rw [c.get_put, Option.map_some, h]

/-- A pair, one part after the other. -/
def pair (c : Codec α) (d : Codec β) : Codec (α × β) where
  put := fun p => c.put p.1 ++ d.put p.2
  get := fun bytes => (c.get bytes).bind fun p => (d.get p.2).map fun q => ((p.1, q.1), q.2)
  get_put := by
    intro p rest
    rw [List.append_assoc, c.get_put, Option.bind_some, d.get_put, Option.map_some]

/-- A tag, then the value of the side it names. -/
def sum (c : Codec α) (d : Codec β) : Codec (α ⊕ β) where
  put := fun
    | .inl a => 0 :: c.put a
    | .inr b => 1 :: d.put b
  get := fun
    | [] => none
    | t :: bytes =>
        if t = 0 then (c.get bytes).map fun p => (.inl p.1, p.2)
        else (d.get bytes).map fun p => (.inr p.1, p.2)
  get_put := by
    intro s rest
    cases s with
    | inl a =>
        show (if (0 : UInt8) = 0 then (c.get (c.put a ++ rest)).map _ else _) = _
        rw [if_pos rfl, c.get_put, Option.map_some]
    | inr b =>
        show (if (1 : UInt8) = 0 then _ else (d.get (d.put b ++ rest)).map _) = _
        rw [if_neg (by decide), d.get_put, Option.map_some]

/-- An optional value. -/
def option (c : Codec α) : Codec (Option α) :=
  (sum unit c).retract
    (fun
      | none => .inl ()
      | some a => .inr a)
    (fun
      | .inl _ => none
      | .inr a => some a)
    (fun o => by cases o <;> rfl)

/-- A truth value. -/
def bool : Codec Bool :=
  byte.retract (fun b => if b then 1 else 0) (fun b => decide (b = 1))
    (fun b => by cases b <;> rfl)

/-- Reads `n` values. -/
def getMany (get : Bytes → Option (α × Bytes)) : Nat → Bytes → Option (List α × Bytes)
  | 0, bytes => some ([], bytes)
  | n + 1, bytes =>
      (get bytes).bind fun p => (getMany get n p.2).map fun q => (p.1 :: q.1, q.2)

theorem getMany_flatMap {get : Bytes → Option (α × Bytes)} {put : α → Bytes} (as : List α)
    (h : ∀ a ∈ as, ∀ rest, get (put a ++ rest) = some (a, rest)) (rest : Bytes) :
    getMany get as.length (as.flatMap put ++ rest) = some (as, rest) := by
  induction as with
  | nil => rfl
  | cons a as ih =>
      rw [List.length_cons, getMany, List.flatMap_cons, List.append_assoc, h a (by simp),
        Option.bind_some, ih (fun b hb => h b (by simp [hb])), Option.map_some]

/-- A list behind its length. -/
def list (c : Codec α) : Codec (List α) where
  put := fun as => nat.put as.length ++ as.flatMap c.put
  get := fun bytes => (nat.get bytes).bind fun p => getMany c.get p.1 p.2
  get_put := by
    intro as rest
    rw [List.append_assoc, nat.get_put, Option.bind_some]
    exact getMany_flatMap as (fun a _ => c.get_put a) rest

/-- A string through the codes of its characters. -/
def string : Codec String :=
  (list nat).retract (fun s => s.toList.map Char.toNat)
    (fun ns => String.ofList (ns.map Char.ofNat))
    (fun s => by
      have hchars : (s.toList.map Char.toNat).map Char.ofNat = s.toList := by
        rw [List.map_map]
        exact (List.map_congr_left fun c _ => Char.ofNat_toNat c).trans (List.map_id _)
      rw [hchars, String.ofList_toList])

end Codec

/-! ## Labelled trees -/

/-- A tree with a label and a list of subtrees at each node. -/
inductive Rose (α : Type u) where
  | node (label : α) (children : List (Rose α))

namespace Rose

variable {α : Type u}

mutual

/-- The number of levels. -/
def depth : Rose α → Nat
  | node _ children => depthList children + 1

/-- The greatest number of levels in a list of trees. -/
def depthList : List (Rose α) → Nat
  | [] => 0
  | t :: ts => max t.depth (depthList ts)

end

theorem depth_le_depthList {ts : List (Rose α)} {t : Rose α} (h : t ∈ ts) :
    t.depth ≤ depthList ts := by
  induction ts with
  | nil => cases h
  | cons s ts ih =>
      rw [depthList]
      rcases List.mem_cons.1 h with rfl | h
      · exact Nat.le_max_left _ _
      · exact Nat.le_trans (ih h) (Nat.le_max_right _ _)

mutual

/-- A tree in prefix order: its label, the number of its children, the children. -/
def put (putLabel : α → Bytes) : Rose α → Bytes
  | node label children =>
      putLabel label ++ (Codec.nat.put children.length ++ putList putLabel children)

/-- `put` of each tree of a list. -/
def putList (putLabel : α → Bytes) : List (Rose α) → Bytes
  | [] => []
  | t :: ts => put putLabel t ++ putList putLabel ts

end

theorem putList_eq_flatMap (putLabel : α → Bytes) (ts : List (Rose α)) :
    putList putLabel ts = ts.flatMap (put putLabel) := by
  induction ts with
  | nil => rfl
  | cons t ts ih => rw [putList, ih, List.flatMap_cons]

/-- Reads a tree of at most `fuel` levels. -/
def get (getLabel : Bytes → Option (α × Bytes)) : Nat → Bytes → Option (Rose α × Bytes)
  | 0, _ => none
  | fuel + 1, bytes =>
      (getLabel bytes).bind fun p =>
        (Codec.nat.get p.2).bind fun q =>
          (Codec.getMany (get getLabel fuel) q.1 q.2).map fun r => (node p.1 r.1, r.2)

/-- Reading inverts writing for every tree the fuel covers. The induction is on
the fuel; the children have one level less. -/
theorem get_put (c : Codec α) (fuel : Nat) :
    ∀ (t : Rose α) (rest : Bytes), t.depth ≤ fuel →
      get c.get fuel (put c.put t ++ rest) = some (t, rest) := by
  induction fuel with
  | zero =>
      intro t rest h
      cases t with
      | node label children =>
          rw [depth] at h
          omega
  | succ fuel ih =>
      intro t rest h
      cases t with
      | node label children =>
          rw [depth] at h
          have hchildren : ∀ s ∈ children, ∀ rest,
              get c.get fuel (put c.put s ++ rest) = some (s, rest) := by
            intro s hs rest
            have hdepth := depth_le_depthList hs
            exact ih s rest (by omega)
          rw [put, get, List.append_assoc, c.get_put, Option.bind_some, List.append_assoc,
            Codec.nat.get_put, Option.bind_some, putList_eq_flatMap,
            Codec.getMany_flatMap children hchildren, Option.map_some]

/-- A tree behind its number of levels. -/
def codec (c : Codec α) : Codec (Rose α) where
  put := fun t => Codec.nat.put t.depth ++ put c.put t
  get := fun bytes => (Codec.nat.get bytes).bind fun p => get c.get p.1 p.2
  get_put := by
    intro t rest
    rw [List.append_assoc, Codec.nat.get_put, Option.bind_some]
    exact get_put c t.depth t rest (Nat.le_refl _)

end Rose

end Lib
