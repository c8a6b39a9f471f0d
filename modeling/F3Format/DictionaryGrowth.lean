import F3Format.Dict

/-!
# A growing dictionary

Callers keep the indices that `extend` returned while further calls, of `extend`
or of `submit_values`, add to the dictionary. This file runs any sequence of
such calls: the dictionary is append-only and the inverse of its map
(`Inverse`), and every returned slice is read back at any later time (`Reads`).
The main result is `TypedDict.calls_sound`.
-/

set_option autoImplicit false

namespace F3Format

open Lib

namespace TypedDict

variable {T U : Type} [DictHash T U] [DecidableEq U]

/-- `TypedDict::finish`. -/
def finish (d : TypedDict T U) : List T × List (Option Nat) := (d.dictionary, d.indices)

/-! ## Calls -/

/-- A call that adds values. -/
inductive Call (T : Type) where
  | extend (arr : List (Option T))
  | submitValues (arr : List (Option T))

/-- What `extend` was given and what it returned. -/
structure Extended (T : Type) where
  arr : List (Option T)
  slice : List (Option Nat)

/-- One call; only `extend` returns something. -/
def call (d : TypedDict T U) : Call T → TypedDict T U × List (Extended T)
  | .extend arr => ((d.extend arr).1, [⟨arr, (d.extend arr).2⟩])
  | .submitValues arr => (d.submitValues arr, [])

/-- The calls in turn, with all that was returned. -/
def calls (d : TypedDict T U) : List (Call T) → TypedDict T U × List (Extended T)
  | [] => (d, [])
  | c :: cs =>
      let r := d.call c
      let rs := r.1.calls cs
      (rs.1, r.2 ++ rs.2)

theorem calls_append (d : TypedDict T U) (cs cs' : List (Call T)) :
    d.calls (cs ++ cs') =
      (((d.calls cs).1.calls cs').1, (d.calls cs).2 ++ ((d.calls cs).1.calls cs').2) := by
  induction cs generalizing d with
  | nil => rfl
  | cons c cs ih =>
      rw [List.cons_append, calls, ih, calls]
      simp only [List.append_assoc]

/-! ## What is read back -/

/-- The keys are distinct, and the map sends each key to its position and nothing else. -/
def Inverse (d : TypedDict T U) : Prop :=
  d.keys.Nodup ∧ ∀ (k : U) (j : Nat), d.keyToInd.lookup k = some j ↔ d.keys[j]? = some k

/-- An index stands for an input: null for null, and otherwise the position of a
value with the key of the input. -/
def Reads (d : TypedDict T U) : Option T → Option Nat → Prop
  | none, none => True
  | some v, some j => ∃ w, d.dictionary[j]? = some w ∧ (hashKey w : U) = hashKey v
  | _, _ => False

theorem Valid.inverse {d : TypedDict T U} (h : d.Valid) : d.Inverse := by
  refine ⟨h.nodup, fun k j => ?_⟩
  rw [h.lookup k]
  constructor
  · intro hk
    have hmem : k ∈ d.keys := by
      by_contra hn
      rw [List.idxOf?_eq_none_iff.2 hn] at hk
      cases hk
    obtain ⟨i, hi, -, hget⟩ := exists_idxOf?_of_mem hmem
    rw [hi] at hk
    cases hk
    exact hget
  · intro hj
    obtain ⟨i, hi, hlt, hget⟩ := exists_idxOf?_of_mem (List.mem_of_getElem? hj)
    -- a key has one position
    have hij : i = j := (List.getElem?_inj hlt h.nodup).1 (hget.trans hj.symm)
    rw [hi, hij]

omit [DecidableEq U] in
/-- Earlier entries do not move, so what is read once is read at every later time. -/
theorem Reads.mono {d d' : TypedDict T U} (hpre : d.dictionary <+: d'.dictionary)
    {o : Option T} {i : Option Nat} (h : Reads d o i) : Reads d' o i := by
  rcases o with _ | v <;> rcases i with _ | j
  · trivial
  · exact h.elim
  · exact h.elim
  · obtain ⟨w, hw, hkey⟩ := h
    obtain ⟨more, hmore⟩ := hpre
    refine ⟨w, ?_, hkey⟩
    rw [← hmore, List.getElem?_append_left (List.getElem?_eq_some_iff.1 hw).1, hw]

/-- The invariant of a run that started with an empty index log. -/
structure Logged (d : TypedDict T U) (log : List (Extended T)) : Prop where
  valid : d.Valid
  indices : d.indices = (log.map Extended.slice).flatten
  reads : ∀ e ∈ log, List.Forall₂ (Reads d) e.arr e.slice

theorem extend_slice {d : TypedDict T U} (hd : d.Valid) (arr : List (Option T)) :
    (d.extend arr).2 = arr.map fun o => o.bind fun v =>
      (d.extend arr).1.keys.idxOf? (hashKey v) := by
  show (arr.foldl extendOne d).indices.drop d.indices.length = _
  rw [(foldl_extendOne_spec hd arr).2.2, List.drop_left]
  rfl

theorem submitOne_indices (d : TypedDict T U) (val : T) : (submitOne d val).indices = d.indices := by
  unfold submitOne
  dsimp only
  split
  · rfl
  · rfl

theorem submitValues_indices (d : TypedDict T U) (arr : List (Option T)) :
    (d.submitValues arr).indices = d.indices := by
  unfold submitValues submitValuesNoNull
  induction arr.reduceOption generalizing d with
  | nil => rfl
  | cons v vs ih => rw [List.foldl_cons, ih, submitOne_indices]

/-- The slice that `extend` returns, read at once. -/
theorem reads_extend {d : TypedDict T U} (hd : d.Valid) (arr : List (Option T)) :
    List.Forall₂ (Reads (d.extend arr).1) arr (d.extend arr).2 := by
  have hdict : (d.extend arr).1.dictionary =
      insertAll (hashKey (U := U)) d.dictionary arr.reduceOption := (foldl_extendOne_spec hd arr).2.1
  rw [extend_slice hd, List.forall₂_map_right_iff]
  apply List.forall₂_same.2
  intro o ho
  cases o with
  | none => trivial
  | some v =>
      have hmem : (hashKey v : U) ∈ (d.extend arr).1.keys := by
        show _ ∈ (d.extend arr).1.dictionary.map hashKey
        rw [hdict]
        exact key_mem_insertAll hashKey (List.reduceOption_mem_iff.2 ho)
      obtain ⟨j, hj, -, hget⟩ := exists_idxOf?_of_mem hmem
      rw [keys, List.getElem?_map, Option.map_eq_some_iff] at hget
      obtain ⟨w, hw, hkey⟩ := hget
      show Reads _ (some v) (List.idxOf? _ _)
      rw [hj]
      exact ⟨w, hw, hkey⟩

/-- One call keeps the invariant and appends to the dictionary. -/
theorem call_logged {d : TypedDict T U} {log : List (Extended T)} (h : Logged d log) (c : Call T) :
    Logged (d.call c).1 (log ++ (d.call c).2) ∧ d.dictionary <+: (d.call c).1.dictionary := by
  cases c with
  | extend arr =>
      obtain ⟨hvalid, hdict, hindices⟩ := foldl_extendOne_spec h.valid arr
      have hpre : d.dictionary <+: (d.extend arr).1.dictionary := by
        show _ <+: (arr.foldl extendOne d).dictionary
        rw [hdict]
        exact prefix_insertAll ..
      refine ⟨⟨hvalid, ?_, ?_⟩, hpre⟩
      · show (arr.foldl extendOne d).indices = _
        rw [hindices, List.map_append, List.flatten_append, ← h.indices]
        congr 1
        show _ = (d.extend arr).2 ++ []
        rw [List.append_nil, extend_slice h.valid]
        rfl
      · intro e he
        rcases List.mem_append.1 he with he | he
        · exact (h.reads e he).imp fun _ _ => Reads.mono hpre
        · rw [List.mem_singleton.1 he]
          exact reads_extend h.valid arr
  | submitValues arr =>
      obtain ⟨hvalid, hdict⟩ := submitValuesNoNull_spec h.valid arr.reduceOption
      have hpre : d.dictionary <+: (d.submitValues arr).dictionary := by
        rw [submitValues, hdict]
        exact prefix_insertAll ..
      refine ⟨?_, hpre⟩
      show Logged _ (log ++ [])
      rw [List.append_nil]
      exact ⟨hvalid, (submitValues_indices d arr).trans h.indices,
        fun e he => (h.reads e he).imp fun _ _ => Reads.mono hpre⟩

/-- A whole run keeps the invariant and appends to the dictionary. -/
theorem calls_logged {d : TypedDict T U} {log : List (Extended T)} (h : Logged d log)
    (cs : List (Call T)) :
    Logged (d.calls cs).1 (log ++ (d.calls cs).2) ∧ d.dictionary <+: (d.calls cs).1.dictionary := by
  induction cs generalizing d log with
  | nil =>
      refine ⟨?_, List.prefix_rfl⟩
      show Logged d (log ++ [])
      rw [List.append_nil]
      exact h
  | cons c cs ih =>
      obtain ⟨hone, hpre⟩ := call_logged h c
      obtain ⟨hrest, hpre'⟩ := ih hone
      refine ⟨?_, hpre.trans hpre'⟩
      rw [List.append_assoc] at hrest
      exact hrest

theorem logged_new : Logged (new : TypedDict T U) [] :=
  ⟨valid_new, rfl, fun _ he => absurd he List.not_mem_nil⟩

/-- **Building a dictionary is append-only.** After any calls `before` the map is
the inverse of the dictionary and `finish` returns all slices; after any further
calls `after` no entry has moved and every slice of `before` is still read. -/
theorem calls_sound (before after : List (Call T)) :
    ((new : TypedDict T U).calls before).1.Inverse ∧
      ((new : TypedDict T U).calls before).1.finish.2 =
        (((new : TypedDict T U).calls before).2.map Extended.slice).flatten ∧
      ((new : TypedDict T U).calls before).1.dictionary <+:
        ((new : TypedDict T U).calls (before ++ after)).1.dictionary ∧
      ∀ e ∈ ((new : TypedDict T U).calls before).2,
        List.Forall₂ (Reads ((new : TypedDict T U).calls (before ++ after)).1) e.arr e.slice := by
  obtain ⟨hlogged, -⟩ := calls_logged (logged_new (T := T) (U := U)) before
  obtain ⟨-, hpre⟩ := calls_logged hlogged after
  rw [List.nil_append] at hlogged
  refine ⟨hlogged.valid.inverse, hlogged.indices, ?_, fun e he => ?_⟩
  · rw [calls_append]
    exact hpre
  · rw [calls_append]
    exact (hlogged.reads e he).imp fun _ _ => Reads.mono hpre

end TypedDict

end F3Format
