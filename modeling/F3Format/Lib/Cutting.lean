import F3Format.Lib.Trace

/-!
# Buffers cut at a threshold

Items of a known size are buffered under a label. A push that brings the
running total over a limit emits the buffered items as one group; a flush emits
what is left. A policy says which label a new buffer gets, and whether a flush
resets the total.

No item is lost or reordered (`push_conserves`, `flush_conserves`). A policy
that resets everything leaves no trace of the past behind a flush
(`restarts_of_resets`); for one that keeps the total, `restarts_iff` says after
which pushes a flushed buffer behaves as a new one.
-/

set_option autoImplicit false

namespace Lib

/-- Items under a label with their running total. -/
structure Buffer (α L : Type) where
  items : List α
  size : Nat
  label : L

/-- How a buffer is cut and what it starts again with. -/
structure CutPolicy (L : Type) where
  limit : Nat
  cutLabel : L
  flushLabel : L
  keepsSize : Bool

namespace Cutting

variable {α L A ε : Type} (p : CutPolicy L)

/-- The empty buffer under the label of the policy. -/
def fresh : Buffer α L := ⟨[], 0, p.cutLabel⟩

/-- Adds an item of size `n`; the groups it completes come second. -/
def push (b : Buffer α L) (x : α) (n : Nat) : Buffer α L × List (L × List α) :=
  if b.size + n > p.limit then (fresh p, [(b.label, b.items ++ [x])])
  else (⟨b.items ++ [x], b.size + n, b.label⟩, [])

/-- Emits the buffered items, if there are any. -/
def flush (b : Buffer α L) : Buffer α L × List (L × List α) :=
  match b.items with
  | [] => (b, [])
  | x :: xs => (⟨[], if p.keepsSize then b.size else 0, p.flushLabel⟩, [(b.label, x :: xs)])

/-- The items of some groups. -/
def contents (groups : List (L × List α)) : List α := (groups.map Prod.snd).flatten

theorem push_conserves (b : Buffer α L) (x : α) (n : Nat) :
    contents (push p b x n).2 ++ (push p b x n).1.items = b.items ++ [x] := by
  unfold push
  split
  · simp [contents, fresh]
  · simp [contents]

theorem flush_conserves (b : Buffer α L) :
    contents (flush p b).2 ++ (flush p b).1.items = b.items ∧ (flush p b).1.items = [] := by
  unfold flush
  split
  · next h => simp [contents, h]
  · next x xs h => simp [contents, h]

theorem push_groups_ne_nil (b : Buffer α L) (x : α) (n : Nat) :
    ∀ g ∈ (push p b x n).2, g.2 ≠ [] := by
  intro g hg
  unfold push at hg
  split at hg
  · rw [List.mem_singleton] at hg
    subst hg
    simp
  · cases hg

theorem flush_groups_ne_nil (b : Buffer α L) : ∀ g ∈ (flush p b).2, g.2 ≠ [] := by
  intro g hg
  unfold flush at hg
  split at hg
  · cases hg
  · rw [List.mem_singleton] at hg
    subst hg
    simp

/-- The sizes pushed since the running total last exceeded the limit; the total
runs on over flushes. -/
def sinceCut (limit : Nat) (sizes : List Nat) : List Nat :=
  sizes.foldl (fun acc n => if acc.sum + n > limit then [] else acc ++ [n]) []

@[simp] theorem sinceCut_nil (limit : Nat) : sinceCut limit [] = [] := rfl

theorem sinceCut_snoc (limit : Nat) (sizes : List Nat) (n : Nat) :
    sinceCut limit (sizes ++ [n]) =
      if (sinceCut limit sizes).sum + n > limit then [] else sinceCut limit sizes ++ [n] := by
  simp [sinceCut]

/-! ## Cutting a list at once -/

/-- Cuts the items after `acc`, whose running total is `size`; without a limit
nothing is cut. The last group is emitted if its total is positive. -/
def cutAll (limit : Option Nat) : List (α × Nat) → List α → Nat → List (List α)
  | [], acc, size => if size > 0 then [acc] else []
  | q :: qs, acc, size =>
      if limit.any fun n => decide (size + q.2 > n) then
        (acc ++ [q.1]) :: cutAll limit qs [] 0
      else cutAll limit qs (acc ++ [q.1]) (size + q.2)

/-- Items of positive size all end up in a group, in order. -/
theorem flatten_cutAll (limit : Option Nat) :
    ∀ (qs : List (α × Nat)) (acc : List α) (size : Nat), (∀ q ∈ qs, 0 < q.2) →
      (acc = [] ∨ 0 < size) → (cutAll limit qs acc size).flatten = acc ++ qs.map Prod.fst
  | [], acc, size, _, hacc => by
      unfold cutAll
      split
      · simp
      · next h =>
          rcases hacc with rfl | hpos
          · rfl
          · exact absurd hpos h
  | q :: qs, acc, size, hqs, _ => by
      have hq : 0 < q.2 := hqs q (by simp)
      have hrest : ∀ q ∈ qs, 0 < q.2 := fun q' h => hqs q' (by simp [h])
      unfold cutAll
      split
      · rw [List.flatten_cons, flatten_cutAll limit qs [] 0 hrest (.inl rfl)]
        simp
      · rw [flatten_cutAll limit qs (acc ++ [q.1]) (size + q.2) hrest (.inr (by omega))]
        simp

/-- Items whose sizes are their weights keep their total weight. -/
theorem sum_cutAll (f : α → Nat) (limit : Option Nat) :
    ∀ (qs : List (α × Nat)) (acc : List α) (size : Nat), (∀ q ∈ qs, q.2 = f q.1) →
      size = (acc.map f).sum →
        ((cutAll limit qs acc size).map fun g => (g.map f).sum).sum =
          (acc.map f).sum + (qs.map Prod.snd).sum
  | [], acc, size, _, hsize => by
      unfold cutAll
      split
      · simp
      · next h =>
          have hzero : (acc.map f).sum = 0 := by omega
          simp [hzero]
  | q :: qs, acc, size, hqs, hsize => by
      obtain ⟨hq, hrest⟩ := List.forall_mem_cons.1 hqs
      have hacc : size + q.2 = ((acc ++ [q.1]).map f).sum := by
        rw [hsize, hq, List.map_append, List.sum_append, List.map_singleton, List.sum_singleton]
      unfold cutAll
      split
      · rw [List.map_cons, List.sum_cons, sum_cutAll f limit qs [] 0 hrest rfl, ← hacc, hsize]
        simp [Nat.add_assoc]
      · rw [sum_cutAll f limit qs _ _ hrest hacc, ← hacc, hsize, List.map_cons, List.sum_cons,
          Nat.add_assoc]

/-- Nothing but the items ends up in a group. -/
theorem mem_cutAll (limit : Option Nat) :
    ∀ (qs : List (α × Nat)) (acc : List α) (size : Nat),
      ∀ g ∈ cutAll limit qs acc size, ∀ x ∈ g, x ∈ acc ∨ x ∈ qs.map Prod.fst
  | [], acc, size => by
      intro g hg x hx
      unfold cutAll at hg
      split at hg
      · rw [List.mem_singleton] at hg
        subst hg
        exact .inl hx
      · cases hg
  | q :: qs, acc, size => by
      intro g hg x hx
      unfold cutAll at hg
      split at hg
      · rcases List.mem_cons.1 hg with rfl | hg
        · rcases List.mem_append.1 hx with hx | hx
          · exact .inl hx
          · exact .inr (by simpa using .inl (List.mem_singleton.1 hx))
        · rcases mem_cutAll limit qs [] 0 g hg x hx with h | h
          · cases h
          · exact .inr (by simp only [List.map_cons, List.mem_cons, h, or_true])
      · rcases mem_cutAll limit qs (acc ++ [q.1]) (size + q.2) g hg x hx with h | h
        · rcases List.mem_append.1 h with h | h
          · exact .inl h
          · exact .inr (by simpa using .inl (List.mem_singleton.1 h))
        · exact .inr (by simp only [List.map_cons, List.mem_cons, h, or_true])

/-! ## Buffers behind calls -/

/-- A call on a buffered object. -/
inductive Call (A : Type) where
  | encode (a : A)
  | finish
  deriving DecidableEq, Repr

/-- The inputs of a list of calls. -/
def inputs : List (Call A) → List A
  | [] => []
  | .encode a :: cs => a :: inputs cs
  | .finish :: cs => inputs cs

theorem inputs_append (cs ds : List (Call A)) : inputs (cs ++ ds) = inputs cs ++ inputs ds := by
  induction cs with
  | nil => rfl
  | cons c cs ih =>
      cases c with
      | encode a => simp [inputs, ih]
      | finish => simp [inputs, ih]

@[simp] theorem inputs_map_encode (as : List A) : inputs (as.map Call.encode) = as := by
  induction as with
  | nil => rfl
  | cons a as ih => simp [inputs, ih]

/-- Turns each input into an item and its size, or fails and keeps the buffer. -/
def act (item : A → Except ε (α × Nat)) : Call A → Act ε (Buffer α L) (List (L × List α))
  | .encode a => fun b =>
      match item a with
      | .ok q => .ok (push p b q.1 q.2).2 (push p b q.1 q.2).1
      | .error e => .error e b
  | .finish => fun b => .ok (flush p b).2 (flush p b).1

/-- What holds of every item holds of the buffered and of the emitted ones. -/
theorem maintains_act {item : A → Except ε (α × Nat)} {P : α → Prop}
    (hitem : ∀ a q, item a = .ok q → P q.1) (c : Call A) :
    Act.Maintains (fun b : Buffer α L => ∀ x ∈ b.items, P x)
      (fun groups => ∀ x ∈ contents groups, P x) (act p item c) := by
  intro b hb
  cases c with
  | encode a =>
      cases hi : item a with
      | error e =>
          simp only [act, hi]
          refine ⟨?_, hb⟩
          intro groups hgroups
          cases hgroups
      | ok q =>
          simp only [act, hi]
          have hcons := push_conserves p b q.1 q.2
          have hall : ∀ x ∈ contents (push p b q.1 q.2).2 ++ (push p b q.1 q.2).1.items, P x := by
            rw [hcons]
            intro x hx
            rcases List.mem_append.1 hx with hx | hx
            · exact hb x hx
            · rw [List.mem_singleton] at hx
              subst hx
              exact hitem a q hi
          refine ⟨?_, fun x hx => hall x (List.mem_append_right _ hx)⟩
          intro groups hgroups
          cases hgroups
          exact fun x hx => hall x (List.mem_append_left _ hx)
  | finish =>
      obtain ⟨hcons, hnil⟩ := flush_conserves p b
      rw [hnil, List.append_nil] at hcons
      refine ⟨?_, ?_⟩
      · intro groups hgroups
        cases hgroups
        rw [hcons]
        exact hb
      · show ∀ x ∈ (flush p b).1.items, P x
        rw [hnil]
        intro x hx
        cases hx

/-- The sizes of the items the inputs turn into. -/
def sizes (item : A → Except ε (α × Nat)) (as : List A) : List Nat :=
  as.filterMap fun a =>
    match item a with
    | .ok q => some q.2
    | .error _ => none

theorem sizes_append (item : A → Except ε (α × Nat)) (as bs : List A) :
    sizes item (as ++ bs) = sizes item as ++ sizes item bs := List.filterMap_append

theorem sizes_ok {item : A → Except ε (α × Nat)} {a : A} {q : α × Nat} (h : item a = .ok q) :
    sizes item [a] = [q.2] := by
  simp [sizes, h]

theorem sizes_error {item : A → Except ε (α × Nat)} {a : A} {e : ε} (h : item a = .error e) :
    sizes item [a] = [] := by
  simp [sizes, h]

/-- The label of every group a new buffer emits is one of the two of its policy. -/
theorem label_of_fresh (item : A → Except ε (α × Nat)) (cs : List (Call A)) :
    ∀ o ∈ (Act.trace (act p item) cs (fresh p)).1, ∀ groups, o = .ok groups → ∀ g ∈ groups,
      g.1 = p.cutLabel ∨ g.1 = p.flushLabel := by
  have hall := Act.trace_outcomes (act p item)
    (fun b => b.label = p.cutLabel ∨ b.label = p.flushLabel)
    (fun _ o => ∀ groups, o = .ok groups → ∀ g ∈ groups,
      g.1 = p.cutLabel ∨ g.1 = p.flushLabel) cs (fresh p) ?_ (.inl rfl)
  · intro o ho
    obtain ⟨c, -, hc⟩ := hall o ho
    exact hc
  · intro c b _ hb
    cases c with
    | finish =>
        simp only [act, Act.outcome, Act.left, flush]
        split
        · exact ⟨by rintro _ ⟨⟩; simp, hb⟩
        · refine ⟨?_, .inr rfl⟩
          rintro _ ⟨⟩ g hg
          rw [List.mem_singleton] at hg
          rw [hg]
          exact hb
    | encode a =>
        cases hi : item a with
        | error f =>
            simp only [act, hi, Act.outcome, Act.left]
            exact ⟨by rintro _ ⟨⟩, hb⟩
        | ok q =>
            simp only [act, hi, Act.outcome, Act.left, push]
            by_cases hlim : b.size + q.2 > p.limit
            · simp only [if_pos hlim]
              refine ⟨?_, .inl rfl⟩
              rintro _ ⟨⟩ g hg
              rw [List.mem_singleton] at hg
              rw [hg]
              exact hb
            · simp only [if_neg hlim]
              exact ⟨by rintro _ ⟨⟩; simp, hb⟩

/-- The calls of `following`, then `finish`. -/
def session (following : List A) : List (Call A) := following.map .encode ++ [.finish]

/-- If every input turns into an item, the calls of a session succeed and emit
the buffered items and the new ones, in order. -/
theorem trace_session {item : A → Except ε (α × Nat)} {as : List A} {qs : List (α × Nat)}
    (h : List.Forall₂ (fun a q => item a = .ok q) as qs) (b : Buffer α L) :
    ∃ groups : List (List (L × List α)),
      (Act.trace (act p item) (session as) b).1 = groups.map .ok ∧
        contents groups.flatten = b.items ++ qs.map Prod.fst := by
  induction h generalizing b with
  | nil =>
      refine ⟨[(flush p b).2], rfl, ?_⟩
      obtain ⟨hcons, hnil⟩ := flush_conserves p b
      rw [hnil, List.append_nil] at hcons
      simpa [contents] using hcons
  | @cons a q as qs hq _ ih =>
      obtain ⟨groups, htrace, hcontents⟩ := ih (push p b q.1 q.2).1
      have hcall : act p item (.encode a) b = .ok (push p b q.1 q.2).2 (push p b q.1 q.2).1 := by
        simp only [act, hq]
      refine ⟨(push p b q.1 q.2).2 :: groups, ?_, ?_⟩
      · show (Act.outcome (act p item (.encode a) b) ::
          (Act.trace (act p item) (session as) (Act.left (act p item (.encode a) b))).1) = _
        rw [hcall]
        show _ :: (Act.trace (act p item) (session as) (push p b q.1 q.2).1).1 = _
        rw [htrace]
        rfl
      · have hpush := push_conserves p b q.1 q.2
        have happ : contents (((push p b q.1 q.2).2 :: groups).flatten) =
            contents (push p b q.1 q.2).2 ++ contents groups.flatten := by
          simp [contents]
        rw [happ, hcontents, ← List.append_assoc, hpush, List.append_assoc]
        rfl

section Restart

variable {p}

/-! ### A policy that resets everything -/

/-- An empty buffer has the total and the label of a new one. -/
def Clean (p : CutPolicy L) (b : Buffer α L) : Prop := b.items = [] → b = fresh p

theorem clean_act (hkeep : p.keepsSize = false) (hlabel : p.flushLabel = p.cutLabel)
    (item : A → Except ε (α × Nat)) (c : Call A) {b : Buffer α L} (hb : Clean p b) :
    Clean p (Act.left (act p item c b)) := by
  intro hnil
  cases c with
  | encode a =>
      cases hi : item a with
      | error e =>
          have he : Act.left (act p item (.encode a) b) = b := by simp [act, hi, Act.left]
          rw [he] at hnil ⊢
          exact hb hnil
      | ok q =>
          have he : Act.left (act p item (.encode a) b) = (push p b q.1 q.2).1 := by
            simp [act, hi, Act.left]
          rw [he] at hnil ⊢
          unfold push at hnil ⊢
          split
          · rfl
          · next hlim => simp [hlim] at hnil
  | finish =>
      show (flush p b).1 = fresh p
      unfold flush
      split
      · next h => exact hb h
      · simp [fresh, hkeep, hlabel]

/-- After a flush the buffer is a new one. -/
theorem restarts_of_resets (hkeep : p.keepsSize = false) (hlabel : p.flushLabel = p.cutLabel)
    (item : A → Except ε (α × Nat)) (history : List (Call A)) :
    (Act.trace (act p item) (history ++ [.finish]) (fresh p)).2 = fresh p := by
  have hclean : Clean p (Act.trace (act p item) (history ++ [.finish]) (fresh p)).2 :=
    Act.trace_invariant _ (Clean p) (fun c b hb => clean_act hkeep hlabel item c hb) _
      fun _ => rfl
  apply hclean
  rw [Act.trace_append]
  exact (flush_conserves p _).2

/-! ### A policy that keeps the total -/

/-- What is known of the buffer after pushes of the sizes `ns`. -/
structure Carries (p : CutPolicy L) (ns : List Nat) (b : Buffer α L) : Prop where
  size : b.size = (sinceCut p.limit ns).sum
  clean : sinceCut p.limit ns = [] → b.items = [] ∧ b.label = p.cutLabel
  dirty : sinceCut p.limit ns ≠ [] → b.items ≠ [] ∨ b.label = p.flushLabel

theorem carries_push {ns : List Nat} {b : Buffer α L} (hb : Carries p ns b) (x : α) (n : Nat) :
    Carries p (ns ++ [n]) (push p b x n).1 := by
  unfold push
  by_cases hlim : b.size + n > p.limit
  · have hcut : sinceCut p.limit (ns ++ [n]) = [] := by
      rw [sinceCut_snoc, ← hb.size, if_pos hlim]
    rw [if_pos hlim]
    refine ⟨?_, fun _ => ⟨rfl, rfl⟩, fun h => absurd hcut h⟩
    rw [hcut]
    rfl
  · have hcut : sinceCut p.limit (ns ++ [n]) = sinceCut p.limit ns ++ [n] := by
      rw [sinceCut_snoc, ← hb.size, if_neg hlim]
    rw [if_neg hlim]
    refine ⟨?_, fun h => ?_, fun _ => .inl (by simp)⟩
    · rw [hcut, List.sum_append, ← hb.size]
      simp
    · rw [hcut] at h
      simp at h

theorem carries_flush (hkeep : p.keepsSize = true) {ns : List Nat} {b : Buffer α L}
    (hb : Carries p ns b) : Carries p ns (flush p b).1 := by
  unfold flush
  split
  · exact hb
  · next x xs hx =>
      refine ⟨by simpa [hkeep] using hb.size, fun h => ?_, fun _ => .inr rfl⟩
      have hnil := (hb.clean h).1
      rw [hx] at hnil
      cases hnil

theorem carries_act (hkeep : p.keepsSize = true) (item : A → Except ε (α × Nat))
    (done : List (Call A)) (c : Call A) {b : Buffer α L}
    (hb : Carries p (sizes item (inputs done)) b) :
    Carries p (sizes item (inputs (done ++ [c]))) (Act.left (act p item c b)) := by
  rw [inputs_append, sizes_append]
  cases c with
  | encode a =>
      cases hi : item a with
      | error e =>
          have he : sizes item (inputs [Call.encode a]) = [] := sizes_error hi
          rw [he, List.append_nil]
          simpa [act, hi, Act.left] using hb
      | ok q =>
          have he : sizes item (inputs [Call.encode a]) = [q.2] := sizes_ok hi
          rw [he]
          simpa [act, hi, Act.left] using carries_push hb q.1 q.2
  | finish =>
      have he : sizes item (inputs [Call.finish (A := A)]) = [] := rfl
      rw [he, List.append_nil]
      exact carries_flush hkeep hb

/-- The buffer a flushed history leaves. -/
theorem carries_history (hkeep : p.keepsSize = true) (item : A → Except ε (α × Nat))
    (history : List (Call A)) :
    Carries p (sizes item (inputs history))
        (Act.trace (act p item) (history ++ [.finish]) (fresh p)).2 ∧
      (Act.trace (act p item) (history ++ [.finish]) (fresh p)).2.items = [] := by
  have hfresh : Carries p (sizes item (inputs ([] : List (Call A)))) (fresh p : Buffer α L) :=
    ⟨rfl, fun _ => ⟨rfl, rfl⟩, fun h => absurd rfl h⟩
  have h := Act.trace_history (act p item) (fun done b => Carries p (sizes item (inputs done)) b)
    (fun done c b hb => carries_act hkeep item done c hb) history [] hfresh
  rw [Act.trace_append]
  exact ⟨carries_flush hkeep h, (flush_conserves p _).2⟩

/-- The labels of the groups of an outcome. -/
def labels (o : Except ε (List (L × List α))) : Except ε (List L) := o.map (List.map Prod.fst)

/-- Two buffers that differ in the label only. -/
def relabel (b : Buffer α L) (l : L) : Buffer α L := { b with label := l }

/-- If a group is still to come, its label tells the buffers apart. -/
theorem labels_ne (item : A → Except ε (α × Nat)) {l l' : L} (hl : l ≠ l') :
    ∀ (following : List A) (b : Buffer α L), b.items ≠ [] ∨ sizes item following ≠ [] →
      (Act.trace (act p item) (session following) (relabel b l)).1.map labels ≠
        (Act.trace (act p item) (session following) (relabel b l')).1.map labels
  | [], b, h => by
      have hitems : b.items ≠ [] := by simpa [sizes] using h
      intro heq
      have hflush : ∀ k, (flush p (relabel b k)).2 = [(k, b.items)] := by
        intro k
        unfold flush
        split
        · next hx => exact absurd hx hitems
        · next x xs hx =>
            have hx' : b.items = x :: xs := hx
            rw [hx']
            rfl
      have hhead := congrArg List.head? heq
      have hk : ∀ k, ((Act.trace (act p item) (session []) (relabel b k)).1.map labels).head? =
          some (.ok [k]) := by
        intro k
        show some (labels (.ok (flush p (relabel b k)).2)) = _
        rw [hflush k]
        rfl
      rw [hk, hk] at hhead
      simp only [Option.some.injEq, Except.ok.injEq, List.cons.injEq, and_true] at hhead
      exact hl hhead
  | a :: following, b, h => by
      intro heq
      have htrace : ∀ k, (Act.trace (act p item) (session (a :: following)) (relabel b k)).1 =
          Act.outcome (act p item (.encode a) (relabel b k)) ::
            (Act.trace (act p item) (session following)
              (Act.left (act p item (.encode a) (relabel b k)))).1 := fun _ => rfl
      rw [htrace, htrace, List.map_cons, List.map_cons, List.cons.injEq] at heq
      obtain ⟨hhead, htail⟩ := heq
      cases hi : item a with
      | error e =>
          have hleft : ∀ k, Act.left (act p item (.encode a) (relabel b k)) = relabel b k := by
            intro k
            simp [act, hi, Act.left]
          rw [hleft, hleft] at htail
          refine labels_ne item hl following b ?_ htail
          rcases h with h | h
          · exact .inl h
          · right
            rw [← List.singleton_append, sizes_append, sizes_error hi] at h
            exact h
      | ok q =>
          have hout : ∀ k, Act.outcome (act p item (.encode a) (relabel b k)) =
              .ok (push p (relabel b k) q.1 q.2).2 := by
            intro k
            simp [act, hi, Act.outcome]
          have hleft : ∀ k, Act.left (act p item (.encode a) (relabel b k)) =
              (push p (relabel b k) q.1 q.2).1 := by
            intro k
            simp [act, hi, Act.left]
          by_cases hlim : b.size + q.2 > p.limit
          · have hpush : ∀ k, push p (relabel b k) q.1 q.2 =
                (fresh p, [(k, b.items ++ [q.1])]) := fun k => if_pos hlim
            rw [hout, hout, hpush, hpush] at hhead
            simp only [labels, Except.map, List.map_cons, List.map_nil, Except.ok.injEq,
              List.cons.injEq, and_true] at hhead
            exact hl hhead
          · have hpush : ∀ k, push p (relabel b k) q.1 q.2 =
                (relabel ⟨b.items ++ [q.1], b.size + q.2, k⟩ k, []) := fun k => if_neg hlim
            rw [hleft, hleft, hpush, hpush] at htail
            exact labels_ne item hl following ⟨b.items ++ [q.1], b.size + q.2, b.label⟩
              (.inl (by simp)) htail

/-- Without an item the label of an empty buffer is not seen. -/
theorem trace_relabel_of_no_item (item : A → Except ε (α × Nat)) (l l' : L) {b : Buffer α L}
    (hb : b.items = []) : ∀ (following : List A), sizes item following = [] →
      (Act.trace (act p item) (session following) (relabel b l)).1 =
        (Act.trace (act p item) (session following) (relabel b l')).1
  | [], _ => by
      have hflush : ∀ k, (flush p (relabel b k)).2 = [] := by
        intro k
        simp [flush, relabel, hb]
      show [Except.ok (flush p (relabel b l)).2] = [Except.ok (flush p (relabel b l')).2]
      rw [hflush, hflush]
  | a :: following, h => by
      cases hi : item a with
      | ok q =>
          rw [← List.singleton_append, sizes_append, sizes_ok hi] at h
          cases h
      | error e =>
          rw [← List.singleton_append, sizes_append, sizes_error hi] at h
          have hstep : ∀ k, act p item (.encode a) (relabel b k) = .error e (relabel b k) := by
            intro k
            simp [act, hi]
          have htrace : ∀ k, (Act.trace (act p item) (session (a :: following)) (relabel b k)).1 =
              .error e :: (Act.trace (act p item) (session following) (relabel b k)).1 := by
            intro k
            show Act.outcome (act p item (.encode a) (relabel b k)) ::
              (Act.trace (act p item) (session following)
                (Act.left (act p item (.encode a) (relabel b k)))).1 = _
            rw [hstep]
            rfl
          rw [htrace, htrace, trace_relabel_of_no_item item l l' hb following h]

/-- The condition under which a flushed buffer that keeps its total behaves as a
new one: the sizes since the last cut are zero, and there are none, or the
labels are the same, or nothing more is pushed. -/
def Restarts (p : CutPolicy L) (history following : List Nat) : Prop :=
  (sinceCut p.limit history).sum = 0 ∧
    (sinceCut p.limit history = [] ∨ p.flushLabel = p.cutLabel ∨ following = [])

/-- Under the condition, the calls that follow return what they return on a new buffer. -/
theorem outcomes_of_restarts (hkeep : p.keepsSize = true) (item : A → Except ε (α × Nat))
    (history : List (Call A)) (following : List A)
    (h : Restarts p (sizes item (inputs history)) (sizes item following)) :
    (Act.trace (act p item) (history ++ [.finish]) (fresh p)).2.size = 0 ∧
      (Act.trace (act p item) (session following)
          (Act.trace (act p item) (history ++ [.finish]) (fresh p)).2).1 =
        (Act.trace (act p item) (session following) (fresh p)).1 := by
  obtain ⟨hcarry, hnil⟩ := carries_history hkeep item history
  generalize (Act.trace (act p item) (history ++ [.finish]) (fresh p)).2 = b at hcarry hnil ⊢
  have hsize : b.size = 0 := by rw [hcarry.size, h.1]
  have hb : b = relabel (fresh p) b.label := by
    cases b
    simp_all [relabel, fresh]
  refine ⟨hsize, ?_⟩
  by_cases hlabel : b.label = p.cutLabel
  · rw [hb, hlabel]
    rfl
  · have hdirty : sinceCut p.limit (sizes item (inputs history)) ≠ [] :=
      fun hc => hlabel (hcarry.clean hc).2
    rcases hcarry.dirty hdirty with hx | hx
    · exact absurd hnil hx
    · rcases h.2 with h2 | h2 | h2
      · exact absurd h2 hdirty
      · exact absurd (hx.trans h2) hlabel
      · rw [hb]
        exact trace_relabel_of_no_item item b.label p.cutLabel rfl following h2

/-- The condition is necessary: without it the total is not zero, or the labels differ. -/
theorem restarts_of_labels (hkeep : p.keepsSize = true) (item : A → Except ε (α × Nat))
    (history : List (Call A)) (following : List A)
    (hsize : (Act.trace (act p item) (history ++ [.finish]) (fresh p)).2.size = 0)
    (hlabels : (Act.trace (act p item) (session following)
          (Act.trace (act p item) (history ++ [.finish]) (fresh p)).2).1.map labels =
        (Act.trace (act p item) (session following) (fresh p)).1.map labels) :
    Restarts p (sizes item (inputs history)) (sizes item following) := by
  obtain ⟨hcarry, hnil⟩ := carries_history hkeep item history
  generalize (Act.trace (act p item) (history ++ [.finish]) (fresh p)).2 = b
    at hcarry hnil hsize hlabels
  refine ⟨by rw [← hcarry.size, hsize], ?_⟩
  by_cases hclean : sinceCut p.limit (sizes item (inputs history)) = []
  · exact .inl hclean
  · rcases hcarry.dirty hclean with hx | hx
    · exact absurd hnil hx
    · by_cases hl : p.flushLabel = p.cutLabel
      · exact .inr (.inl hl)
      · by_cases hf : sizes item following = []
        · exact .inr (.inr hf)
        · have hb : b = relabel (fresh p) p.flushLabel := by
            cases b
            simp_all [relabel, fresh]
          rw [hb] at hlabels
          exact absurd hlabels (labels_ne item hl following (fresh p) (.inr hf))

end Restart

end Cutting

end Lib
