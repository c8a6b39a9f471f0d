import F3Format.ArraySlices
import F3Format.EncoderLogical

/-!
# An encoder tree as the list of its columns

The physical encoders of a tree in the order in which its methods visit them,
and the arrays `encode` hands to them. Encoding an array with a tree is encoding
these arrays one after another, and a failure stops at the same column.
-/

set_option autoImplicit false

namespace F3Format

open Lib

namespace LogicalColEncoder

mutual

/-- The physical encoders, each before those of its children. -/
def physicals : LogicalColEncoder → List PhysicalColEncoder
  | flat p _ => [p]
  | list p _ v => p :: physicals v
  | struct p _ fs => p :: physicalsOf fs

/-- The physical encoders of the fields of a struct. -/
def physicalsOf : List LogicalColEncoder → List PhysicalColEncoder
  | [] => []
  | e :: es => physicals e ++ physicalsOf es

end

mutual

/-- The column indexes, in the order of `physicals`. -/
def columns : LogicalColEncoder → List Nat
  | flat _ i => [i]
  | list _ i v => i :: columns v
  | struct _ i fs => i :: columnsOf fs

/-- The column indexes of the fields of a struct. -/
def columnsOf : List LogicalColEncoder → List Nat
  | [] => []
  | e :: es => columns e ++ columnsOf es

end

mutual

/-- The arrays `encode` sends to the physical encoders, with their column indexes. -/
def sent : LogicalColEncoder → ArrayRef → Result (List (Nat × ArrayRef))
  | flat _ i, a => pure [(i, a)]
  | list _ i v, a => do
      let items ← extractItems a
      let rest ← sent v items
      pure ((i, a) :: rest)
  | struct _ i fs, a => do
      let columns ← structColumns a
      let rest ← sentOf fs columns
      pure ((i, extractValidity a) :: rest)

/-- The arrays sent for the fields of a struct, given a column for each. -/
def sentOf : List LogicalColEncoder → List ArrayRef → Result (List (Nat × ArrayRef))
  | [], _ => pure []
  | _ :: _, [] => panicking "no column for the field"
  | e :: es, column :: columns => do
      let calls ← sent e column
      let rest ← sentOf es columns
      pure (calls ++ rest)

end

end LogicalColEncoder

/-- Encodes each array with the physical encoder at its place. -/
def encodeEach (env : Env) : List PhysicalColEncoder → List (Nat × ArrayRef) → Shared →
    EncResult (List PhysicalColEncoder) (List EncodedColumnChunk)
  | p :: ps, (i, a) :: calls, s =>
      match callPhysical (PhysicalColEncoder.encode env a) p s with
      | .error f t => .error f (t.embed fun p => p :: ps)
      | .ok chunks t =>
          match encodeEach env ps calls t.shared with
          | .ok more u => .ok (stamp i chunks ++ more) (u.embed fun ps => t.enc :: ps)
          | .error f u => .error f (u.embed fun ps => t.enc :: ps)
  | ps, _, s => .ok [] (s.embed fun _ => ps)

/-- The outcome of a method on a tree, seen on its physical encoders. -/
def onPhysicals {E : Type} (physicals : E → List PhysicalColEncoder) :
    EncResult E (List EncodedColumnChunk) →
      EncResult (List PhysicalColEncoder) (List EncodedColumnChunk)
  | .ok chunks t => .ok chunks (t.embed physicals)
  | .error f t => .error f (t.embed physicals)

/-- The chunks of an outcome, none for `None`. -/
def chunksOf {E : Type} : EncResult E (Option (List EncodedColumnChunk)) →
    EncResult E (List EncodedColumnChunk)
  | .ok res t => .ok (res.getD []) t
  | .error f t => .error f t

/-- Encoding with two groups of encoders, one after the other. -/
theorem encodeEach_append (env : Env) (qs : List PhysicalColEncoder)
    (later : List (Nat × ArrayRef)) : ∀ (ps : List PhysicalColEncoder)
      (calls : List (Nat × ArrayRef)) (s : Shared), ps.length = calls.length →
    encodeEach env (ps ++ qs) (calls ++ later) s =
      match encodeEach env ps calls s with
      | .error f t => .error f (t.embed fun ps => ps ++ qs)
      | .ok chunks t =>
          match encodeEach env qs later t.shared with
          | .ok more u => .ok (chunks ++ more) (u.embed fun qs => t.enc ++ qs)
          | .error f u => .error f (u.embed fun qs => t.enc ++ qs)
  | [], [], s, _ => by
      have hnil : encodeEach env [] [] s = .ok [] (s.embed fun _ => []) := rfl
      rw [List.nil_append, List.nil_append, hnil]
      show _ = match encodeEach env qs later s with
        | .ok more u => EStateM.Result.ok ([] ++ more) (u.embed fun qs => [] ++ qs)
        | .error f u => EStateM.Result.error f (u.embed fun qs => [] ++ qs)
      cases encodeEach env qs later s with
      | ok more u => rfl
      | error f u => rfl
  | [], _ :: _, _, h => absurd h (by simp)
  | _ :: _, [], _, h => absurd h (by simp)
  | p :: ps, (i, a) :: calls, s, h => by
      have ih := encodeEach_append env qs later ps calls
      simp only [List.cons_append, encodeEach]
      cases callPhysical (PhysicalColEncoder.encode env a) p s with
      | error f t => rfl
      | ok chunks t =>
          have hrest := ih t.shared (by simpa using h)
          simp only [hrest]
          cases encodeEach env ps calls t.shared with
          | error f u => rfl
          | ok more u =>
              simp only
              show _ = match encodeEach env qs later u.shared with
                | .ok last v => EStateM.Result.ok (stamp i chunks ++ more ++ last)
                    (v.embed fun qs => t.enc :: u.enc ++ qs)
                | .error f v => EStateM.Result.error f (v.embed fun qs => t.enc :: u.enc ++ qs)
              cases encodeEach env qs later u.shared with
              | ok last v =>
                  exact congrArg (fun chunks => EStateM.Result.ok chunks _)
                    (List.append_assoc _ more last).symm
              | error f v => rfl

namespace LogicalColEncoder

mutual

/-- The arrays sent carry the indexes of the columns, in order. -/
theorem columns_sent : ∀ (e : LogicalColEncoder) {a : ArrayRef} {calls : List (Nat × ArrayRef)},
    e.sent a = .ok calls → calls.map Prod.fst = e.columns
  | flat _ _, _, _, h => by
      cases h
      rfl
  | list _ i v, _, _, h => by
      simp only [sent, bind_eq_ok, pure_eq_ok, Except.ok.injEq] at h
      obtain ⟨items, -, rest, hrest, rfl⟩ := h
      exact congrArg (List.cons i) (columns_sent v hrest)
  | struct _ i fs, _, _, h => by
      simp only [sent, bind_eq_ok, pure_eq_ok, Except.ok.injEq] at h
      obtain ⟨cols, -, rest, hrest, rfl⟩ := h
      exact congrArg (List.cons i) (columns_sentOf fs hrest)

theorem columns_sentOf : ∀ (es : List LogicalColEncoder) {cs : List ArrayRef}
    {calls : List (Nat × ArrayRef)}, sentOf es cs = .ok calls →
      calls.map Prod.fst = columnsOf es
  | [], _, _, h => by
      cases h
      rfl
  | _ :: _, [], _, h => by cases h
  | e :: es, c :: cs, _, h => by
      simp only [sentOf, bind_eq_ok, pure_eq_ok, Except.ok.injEq] at h
      obtain ⟨calls, hcalls, rest, hrest, rfl⟩ := h
      rw [List.map_append, columns_sent e hcalls, columns_sentOf es hrest]
      rfl

end

mutual

theorem length_physicals : ∀ e : LogicalColEncoder, e.physicals.length = e.columns.length
  | flat _ _ => rfl
  | list _ _ v => congrArg Nat.succ (length_physicals v)
  | struct _ _ fs => congrArg Nat.succ (length_physicalsOf fs)

theorem length_physicalsOf : ∀ es : List LogicalColEncoder,
    (physicalsOf es).length = (columnsOf es).length
  | [] => rfl
  | e :: es => by
      simp only [physicalsOf, columnsOf, List.length_append]
      rw [length_physicals e, length_physicalsOf es]

end

/-- There is one array for every physical encoder. -/
theorem length_sent {e : LogicalColEncoder} {a : ArrayRef} {calls : List (Nat × ArrayRef)}
    (h : e.sent a = .ok calls) : e.physicals.length = calls.length := by
  rw [length_physicals, ← columns_sent e h, List.length_map]

mutual

/-- **Encoding with a tree is encoding the arrays sent, column by column.** -/
theorem encode_eq_encodeEach (env : Env) : ∀ (e : LogicalColEncoder) {a : ArrayRef}
    {calls : List (Nat × ArrayRef)} (s : Shared), e.sent a = .ok calls →
      onPhysicals physicals (chunksOf (e.encode env a s)) = encodeEach env e.physicals calls s
  | flat p i, a, _, s, h => by
      cases h
      simp only [encode, physicals, encodeEach]
      cases callPhysical (PhysicalColEncoder.encode env a) p s with
      | error f t => rfl
      | ok chunks t => simp [chunksOf, onPhysicals, Working.embed, Working.shared, physicals]
  | list p i v, a, _, s, h => by
      simp only [sent, bind_eq_ok, pure_eq_ok, Except.ok.injEq] at h
      obtain ⟨items, hitems, rest, hrest, rfl⟩ := h
      simp only [encode, physicals, encodeEach]
      cases callPhysical (PhysicalColEncoder.encode env a) p s with
      | error f t => rfl
      | ok chunks t =>
          simp only [hitems]
          rw [← encode_eq_encodeEach env v t.shared hrest]
          cases encode env v items t.shared with
          | error f u => rfl
          | ok more u => simp [chunksOf, onPhysicals, Working.embed, physicals]
  | struct p i fs, a, _, s, h => by
      simp only [sent, bind_eq_ok, pure_eq_ok, Except.ok.injEq] at h
      obtain ⟨cols, hcols, rest, hrest, rfl⟩ := h
      simp only [encode, physicals, encodeEach]
      cases callPhysical (PhysicalColEncoder.encode env (extractValidity a)) p s with
      | error f t => rfl
      | ok chunks t =>
          simp only [hcols]
          rw [← encodeFields_eq_encodeEach env fs t.shared hrest]
          cases encodeFields env fs cols t.shared with
          | error f u => rfl
          | ok more u => simp [chunksOf, onPhysicals, Working.embed, physicals]

theorem encodeFields_eq_encodeEach (env : Env) : ∀ (es : List LogicalColEncoder)
    {cs : List ArrayRef} {calls : List (Nat × ArrayRef)} (s : Shared),
      sentOf es cs = .ok calls →
        onPhysicals physicalsOf (encodeFields env es cs s) =
          encodeEach env (physicalsOf es) calls s
  | [], _, _, s, h => by
      cases h
      rfl
  | _ :: _, [], _, _, h => by cases h
  | e :: es, c :: cs, _, s, h => by
      simp only [sentOf, bind_eq_ok, pure_eq_ok, Except.ok.injEq] at h
      obtain ⟨calls, hcalls, rest, hrest, rfl⟩ := h
      simp only [encodeFields, physicalsOf]
      rw [encodeEach_append env _ _ _ _ s (length_sent hcalls),
        ← encode_eq_encodeEach env e s hcalls]
      cases encode env e c s with
      | error f t => rfl
      | ok chunks t =>
          simp only [chunksOf, onPhysicals]
          have hstep : (t.embed physicals).shared = t.shared := rfl
          rw [hstep, ← encodeFields_eq_encodeEach env es t.shared hrest]
          cases encodeFields env es cs t.shared with
          | error f u => rfl
          | ok more u => rfl

end

end LogicalColEncoder

end F3Format
