import F3Format.CopyingGuest
import F3Format.InstancePool

/-!
# Iterators over a pooled instance

An instance goes back to the pool while the iterator that a call returned still
takes its buffers through the scratch block. Another call may then use the block,
which does no harm, or need a longer one, and give the block back:
`run_undisturbed` shows that iterators are not disturbed in the runs in which no
call does that to an instance with iterators, or to a block whose length is not
the one it remembers.
-/

set_option autoImplicit false

namespace F3Format

open Lib

namespace Runtime

variable {γ : Type} {M : WasmModule γ}

/-- The `k`th iterator that was returned has not been dropped. -/
def Outstanding (rt : Runtime γ) (k : Nat) (r : IterRecord) : Prop :=
  rt.iters[k]? = some r ∧ r.dropped = false

/-- What the first answers of an iterator over these buffers are. -/
def answersOf (buffers : List Bytes) (n : Nat) : List (Result (Option Bytes)) :=
  (List.range n).map fun i => .ok buffers[i]?

theorem answersOf_succ (buffers : List Bytes) (n : Nat) :
    answersOf buffers (n + 1) = answersOf buffers n ++ [.ok (buffers.drop n).head?] := by
  rw [answersOf, List.range_succ, List.map_append, List.head?_drop]
  rfl

/-! ## The invariant -/

/-- The instance is as an iterator needs it. -/
structure ServedBy (L : GuestLaws M) (r : IterRecord) (s : SharedInstance γ) : Prop where
  unpoisoned : s.poisoned = false
  healthy : L.Healthy s.inner.guest
  rest : L.iters s.inner.guest r.iter.ptr =
    some ((L.decoded r.name r.input).drop r.answers.length)
  slot : ∃ b ∈ L.live s.inner.guest, b.HasRoom r.iter.allocPtr 12

/-- The instance can be called again. -/
def Callable (L : GuestLaws M) (s : SharedInstance γ) : Prop :=
  s.poisoned = false ∧ L.Healthy s.inner.guest ∧ ∃ ptr b, L.Cached s.inner ptr b

/-- Every iterator is served by its instance, and the instances of the pool can be
called. -/
structure Serving (L : GuestLaws M) (rt : Runtime γ) : Prop where
  callable : ∀ arc ∈ rt.instances, ∀ s, rt.shared[arc]? = some s → Callable L s
  served : ∀ k r, rt.Outstanding k r → ∃ s, rt.shared[r.iter.instanceArc]? = some s ∧ ServedBy L r s
  distinct : ∀ k k' r r', rt.Outstanding k r → rt.Outstanding k' r' →
    r.iter.instanceArc = r'.iter.instanceArc → r.iter.ptr = r'.iter.ptr → k = k'
  answers : ∀ (k : Nat) (r : IterRecord), rt.iters[k]? = some r →
    r.answers = answersOf (L.decoded r.name r.input) r.answers.length

section Invariant

variable {L : GuestLaws M} {rt : Runtime γ} {arc : Nat} {s s' : SharedInstance γ} {r : IterRecord}

theorem serving_new (n : Nat) : Serving L { (new : Runtime γ) with instantiations := n } := by
  refine ⟨fun _ h => ?_, fun k r h => ?_, fun k k' r r' h => ?_, fun k r h => ?_⟩
  · cases h
  · cases h.1
  · cases h.1
  · cases h

/-- What the guest keeps, it keeps for the iterator. -/
theorem ServedBy.kept (h : ServedBy L r s) (hpoisoned : s'.poisoned = false)
    (hkept : L.Kept False s.inner.guest s'.inner.guest) : ServedBy L r s' := by
  obtain ⟨b, hb, hroom⟩ := h.slot
  exact ⟨hpoisoned, hkept.healthy, hkept.iters _ _ h.rest, b, hkept.live not_false b hb, hroom⟩

/-- One instance changes. -/
theorem Serving.set (h : Serving L rt) (hlt : arc < rt.shared.length)
    (hcallable : arc ∈ rt.instances → Callable L s')
    (hserved : ∀ k r, rt.Outstanding k r → r.iter.instanceArc = arc → ServedBy L r s') :
    Serving L { rt with shared := rt.shared.set arc s' } := by
  refine ⟨?_, ?_, h.distinct, h.answers⟩
  · intro i hi t ht
    by_cases he : arc = i
    · subst he
      cases (List.getElem?_set_self hlt).symm.trans ht
      exact hcallable hi
    · exact h.callable i hi t ((List.getElem?_set_ne he).symm.trans ht)
  · intro k r hr
    by_cases he : arc = r.iter.instanceArc
    · subst he
      exact ⟨s', List.getElem?_set_self hlt, hserved k r hr rfl⟩
    · obtain ⟨t, ht, hserve⟩ := h.served k r hr
      exact ⟨t, (List.getElem?_set_ne he).trans ht, hserve⟩

/-- A new instance has no iterators. -/
theorem Serving.newInstance (h : Serving L rt) (hpool : rt.PoolSound) (s : SharedInstance γ)
    (n : Nat) : Serving L { rt with shared := rt.shared ++ [s], instantiations := n } := by
  refine ⟨?_, ?_, h.distinct, h.answers⟩
  · intro i hi t ht
    obtain ⟨t', ht', -⟩ := hpool.succeeded i hi
    have hlt := (List.getElem?_eq_some_iff.1 ht').1
    exact h.callable i hi t ((List.getElem?_append_left hlt).symm.trans ht)
  · intro k r hr
    obtain ⟨t, ht, hserve⟩ := h.served k r hr
    have hlt := (List.getElem?_eq_some_iff.1 ht).1
    exact ⟨t, (List.getElem?_append_left hlt).trans ht, hserve⟩

end Invariant

/-! ## Calls -/

/-- The call gives back no block that an iterator uses, and none with another length
than it has. -/
def KeepsBlocks (L : GuestLaws M) (rt : Runtime γ) (name : String) (input : Bytes) : Prop :=
  M.functions name = true → ∀ s len, taken M rt = some s →
    Instance.needed M.guest (.genericFunction name input) = some len → s.inner.Grows len →
      L.Remembered s.inner ∧ ∀ k r, rt.Outstanding k r → r.iter.instanceArc ≠ rt.takenArc

/-- An instance that is held can be called, and the call harms no iterator. -/
def Harmless (L : GuestLaws M) (rt : Runtime γ) (arc : Nat) (name : String) (input : Bytes)
    (s : SharedInstance γ) : Prop :=
  s.poisoned = false ∧ L.Ready s.inner ∧ ∀ len,
    Instance.needed M.guest (.genericFunction name input) = some len → s.inner.Grows len →
      L.Remembered s.inner ∧ ∀ k r, rt.Outstanding k r → r.iter.instanceArc ≠ arc

/-- The instance has a new iterator, as the call describes it. -/
structure Returned (L : GuestLaws M) (rt : Runtime γ) (iter : BufferIter) (name : String)
    (input : Bytes) (s : SharedInstance γ) : Prop where
  succeeded : s.lastCall = some true
  callable : Callable L s
  served : ServedBy L ⟨iter, name, input, [], false⟩ s
  fresh : ∀ k r, rt.Outstanding k r → r.iter.instanceArc = iter.instanceArc →
    r.iter.ptr ≠ iter.ptr

section Calls

variable {L : GuestLaws M} {rt : Runtime γ} {arc : Nat} {name : String} {input : Bytes}

theorem harmless_new {g : γ} {n : Nat} (hg : M.instantiate n = some g) :
    Harmless L rt arc name input (.new g) := by
  refine ⟨rfl, ⟨(L.start hg).1, .inl ⟨rfl, rfl⟩⟩, ?_⟩
  rintro len - ⟨ptr, l, hptr, -⟩
  cases hptr

theorem exits_takeInstance (hpool : rt.PoolSound) (h : Serving L rt)
    (hname : M.functions name = true) (hkeeps : KeepsBlocks L rt name input) :
    Act.Exits (takeInstance M) rt
      (fun arc t => t.Holding arc (Harmless L t arc name input) ∧ Serving L t ∧ t.iters = rt.iters)
      (fun _ t => t.PoolSound ∧ Serving L t ∧ t.iters = rt.iters) := by
  obtain ⟨shared, instances, iters, buffers, n⟩ := rt
  cases instances with
  | cons arc rest =>
      obtain ⟨s, hs, hcall⟩ := hpool.succeeded arc (List.mem_cons_self ..)
      obtain ⟨hnot, hrest⟩ := List.nodup_cons.1 hpool.nodup
      have hmem : ∀ {i}, i ∈ rest → i ∈ arc :: rest := List.mem_cons_of_mem arc
      obtain ⟨hpoisoned, hhealthy, hcached⟩ := h.callable arc (List.mem_cons_self ..) s hs
      refine ⟨⟨⟨hrest, fun i hi => hpool.succeeded i (hmem hi)⟩, hnot, s, hs, hpoisoned,
        ⟨hhealthy, .inr hcached⟩, fun len => hkeeps hname s len hs⟩, ?_, rfl⟩
      exact ⟨fun i hi => h.callable i (hmem hi), h.served, h.distinct, h.answers⟩
  | nil =>
      show Act.Exits (newInstance M) _ _ _
      rw [Act.Exits, newInstance]
      cases hg : M.instantiate n with
      | none => exact ⟨⟨hpool.nodup, hpool.succeeded⟩, ⟨h.callable, h.served, h.distinct, h.answers⟩, rfl⟩
      | some g =>
          exact ⟨hpool.newInstance g (n + 1) (harmless_new hg), h.newInstance hpool _ _, rfl⟩

theorem exits_newInstance (name : String) (input : Bytes) (hpool : rt.PoolSound) (h : Serving L rt) :
    Act.Exits (newInstance M) rt
      (fun arc t => t.Holding arc (Harmless L t arc name input) ∧ Serving L t ∧ t.iters = rt.iters)
      (fun _ t => t.PoolSound ∧ Serving L t ∧ t.iters = rt.iters) := by
  rw [Act.Exits, newInstance]
  cases hg : M.instantiate rt.instantiations with
  | none => exact ⟨⟨hpool.nodup, hpool.succeeded⟩, ⟨h.callable, h.served, h.distinct, h.answers⟩, rfl⟩
  | some g =>
      exact ⟨hpool.newInstance g _ (harmless_new hg), h.newInstance hpool _ _, rfl⟩

/-- A call of an instance keeps the iterators of the instance, and gives a new one. -/
theorem exits_attempt (hheld : rt.Holding arc (Harmless L rt arc name input))
    (h : Serving L rt) :
    Act.Exits (attempt M arc name input) rt
      (fun r t => (match r with
          | .ok iter => iter.instanceArc = arc ∧ t.Holding arc (Returned L t iter name input)
          | .error _ => t.Holding arc fun _ => True) ∧ Serving L t ∧ t.iters = rt.iters)
      (fun _ t => t.PoolSound ∧ Serving L t ∧ t.iters = rt.iters) := by
  obtain ⟨hpool, hnot, s, hs, hpoisoned, hready, hharmless⟩ := hheld
  have hlt : arc < rt.shared.length := (List.getElem?_eq_some_iff.1 hs).1
  have hheld : rt.Holding arc fun s' => s' = s := ⟨hpool, hnot, s, hs, rfl⟩
  have hcall := GuestLaws.exits_callGenericFunction name input hready
    fun len hlen hgrows => (hharmless len hlen hgrows).1
  -- the iterators of the instance, if it has any, are kept
  have hserving : ∀ (t : Instance γ) (ok : Bool), L.Kept (∃ len, Instance.needed M.guest
      (.genericFunction name input) = some len ∧ s.inner.Grows len) s.inner.guest t.guest →
        Serving L { rt with shared := rt.shared.set arc ⟨t, false, some ok⟩ } := by
    intro t ok hkept
    refine h.set hlt (fun hmem => absurd hmem hnot) fun k r hr harc => ?_
    obtain ⟨s', hs', hserve⟩ := h.served k r hr
    rw [harc] at hs'
    cases hs.symm.trans hs'
    refine hserve.kept rfl ⟨hkept.healthy, hkept.iters, fun _ => hkept.live ?_⟩
    rintro ⟨len, hlen, hgrows⟩
    exact (hharmless len hlen hgrows).2 k r hr harc
  rw [Act.Exits, attempt_eq name input hheld hpoisoned]
  cases hresult : Instance.callGenericFunction M.guest name input s.inner with
  | ok v t =>
      obtain ⟨hkept, ⟨b, hb⟩, hfresh, hnew⟩ := hcall.of_ok hresult
      refine ⟨⟨rfl, hheld.set ?_⟩, hserving t true hkept, rfl⟩
      refine ⟨rfl, ⟨rfl, hkept.healthy, _, b, hb⟩, ⟨rfl, hkept.healthy, hnew, b, hb.1, ?_⟩, ?_⟩
      · obtain ⟨-, hptr, -, len, -, hmin, hle⟩ := hb
        refine ⟨Nat.le_of_eq hptr, ?_⟩
        show v.2 + 12 ≤ b.ptr + b.len
        omega
      · intro k r hr harc heq
        obtain ⟨s', hs', hserve⟩ := h.served k r hr
        rw [show r.iter.instanceArc = arc from harc] at hs'
        cases hs.symm.trans hs'
        have hsome := hserve.rest
        rw [heq] at hsome
        cases hsome.symm.trans hfresh
  | error f t =>
      obtain ⟨⟨e, rfl⟩, hkept⟩ := hcall.of_error hresult
      exact ⟨hheld.set trivial, hserving t false hkept, rfl⟩

/-- After a successful attempt the instance goes back to the pool. -/
theorem serving_pushBack (h : Serving L rt) (hheld : rt.Holding arc (Callable L)) :
    Serving L { rt with instances := rt.instances ++ [arc] } := by
  obtain ⟨-, -, s, hs, hcallable⟩ := hheld
  refine ⟨?_, h.served, h.distinct, h.answers⟩
  intro i hi t ht
  rcases List.mem_append.1 hi with hi | hi
  · exact h.callable i hi t ht
  · cases List.mem_singleton.1 hi
    cases hs.symm.trans ht
    exact hcallable

/-- The end of a call: a successful attempt, and a failed one. -/
theorem exits_pushBack {iter : BufferIter} (harc : iter.instanceArc = arc)
    (hheld : rt.Holding arc (Returned L rt iter name input)) (h : Serving L rt) :
    Act.Exits (do pushBack arc; pure iter) rt
      (fun iter t => t.PoolSound ∧ Serving L t ∧ t.iters = rt.iters ∧
        ∃ s, t.shared[iter.instanceArc]? = some s ∧ Returned L t iter name input s)
      (fun _ t => t.PoolSound ∧ Serving L t ∧ t.iters = rt.iters) := by
  obtain ⟨hpool, hnot, s, hs, hreturned⟩ := hheld
  refine ⟨Holding.pushBack ⟨hpool, hnot, s, hs, hreturned.succeeded⟩,
    serving_pushBack h ⟨hpool, hnot, s, hs, hreturned.callable⟩, rfl, s, ?_, ?_⟩
  · rw [harc]
    exact hs
  · exact ⟨hreturned.succeeded, hreturned.callable, hreturned.served, hreturned.fresh⟩

/-- An instance is dropped only if it has no iterators. -/
theorem serving_release (h : Serving L rt) (arc : Nat) :
    Serving L (Act.left (release M arc rt)) ∧ (Act.left (release M arc rt)).iters = rt.iters := by
  rw [release]
  cases huse : rt.refersTo arc with
  | true => exact ⟨h, rfl⟩
  | false =>
      rw [if_neg Bool.false_ne_true]
      cases hs : rt.shared[arc]? with
      | none => exact ⟨h, rfl⟩
      | some s =>
          have hlt : arc < rt.shared.length := (List.getElem?_eq_some_iff.1 hs).1
          rw [refersTo, Bool.or_eq_false_iff, Bool.or_eq_false_iff] at huse
          obtain ⟨⟨hpooled, -⟩, hiters⟩ := huse
          have hserving : ∀ s', Serving L { rt with shared := rt.shared.set arc s' } := by
            intro s'
            refine h.set hlt (fun hmem => ?_) fun k r hr harc => ?_
            · exact Bool.noConfusion (hpooled.symm.trans (List.contains_iff_mem.2 hmem))
            · have hr' := List.any_eq_false.1 hiters r (List.mem_of_getElem? hr.1)
              rw [hr.2, harc] at hr'
              exact absurd (by simp) hr'
          dsimp only
          cases Instance.drop M.guest s.inner with
          | ok u t => exact ⟨hserving _, rfl⟩
          | error f t => exact ⟨hserving _, rfl⟩

theorem exits_release (hpool : rt.PoolSound) (h : Serving L rt) :
    Act.Exits (release M arc) rt (fun _ t => t.PoolSound ∧ Serving L t ∧ t.iters = rt.iters)
      (fun _ t => t.PoolSound ∧ Serving L t ∧ t.iters = rt.iters) := by
  have hpool' := (maintains_release M arc rt hpool).2
  have hserving := serving_release h arc
  rw [Act.Exits]
  cases hresult : release M arc rt with
  | ok u t =>
      rw [hresult] at hpool' hserving
      exact ⟨hpool', hserving⟩
  | error f t =>
      rw [hresult] at hpool' hserving
      exact ⟨hpool', hserving⟩

theorem exits_secondAttempt (hpool : rt.PoolSound) (h : Serving L rt) :
    Act.Exits (secondAttempt M name input) rt
      (fun iter t => t.PoolSound ∧ Serving L t ∧ t.iters = rt.iters ∧
        ∃ s, t.shared[iter.instanceArc]? = some s ∧ Returned L t iter name input s)
      (fun _ t => t.PoolSound ∧ Serving L t ∧ t.iters = rt.iters) := by
  refine Act.exits_bind (exits_newInstance name input hpool h) ?_
  rintro arc t ⟨hheld, ht, hiters⟩
  rw [← hiters]
  refine Act.exits_bind (exits_attempt hheld ht) ?_
  rintro (e | iter) u ⟨hheld', hu, hiters'⟩
  · exact Act.exits_throw ⟨hheld'.1, hu, hiters'⟩
  · rw [← hiters']
    exact exits_pushBack hheld'.1 hheld'.2 hu

/-- **A call harms no iterator, and the iterator that it returns is served.** -/
theorem exits_callMultiBuf (hpool : rt.PoolSound) (h : Serving L rt)
    (hkeeps : KeepsBlocks L rt name input) :
    Act.Exits (callMultiBuf M name input) rt
      (fun iter t => t.PoolSound ∧ Serving L t ∧ t.iters = rt.iters ∧
        ∃ s, t.shared[iter.instanceArc]? = some s ∧ Returned L t iter name input s)
      (fun _ t => t.PoolSound ∧ Serving L t ∧ t.iters = rt.iters) := by
  by_cases hname : M.functions name = false
  · rw [callMultiBuf, if_pos hname]
    exact Act.exits_throw ⟨hpool, h, rfl⟩
  have hname : M.functions name = true := Bool.eq_true_of_not_eq_false hname
  rw [callMultiBuf_eq hname]
  refine Act.exits_bind (exits_takeInstance hpool h hname hkeeps) ?_
  rintro arc t ⟨hheld, ht, hiters⟩
  rw [← hiters]
  refine Act.exits_bind (exits_attempt hheld ht) ?_
  rintro (e | iter) u ⟨hheld', hu, hiters'⟩
  · rw [← hiters']
    refine Act.exits_bind (exits_release hheld'.1 hu) ?_
    rintro - w ⟨hw, hservingw, hitersw⟩
    rw [← hitersw]
    exact exits_secondAttempt hw hservingw
  · rw [← hiters']
    exact exits_pushBack hheld'.1 hheld'.2 hu

end Calls

/-! ## Iterators -/

section Iterators

variable {L : GuestLaws M} {rt : Runtime γ} {k : Nat} {r : IterRecord}

/-- An iterator has moved on or is dropped, and its instance has changed with it. -/
theorem Serving.update (h : Serving L rt) (hr : rt.Outstanding k r) {s : SharedInstance γ}
    (hs : rt.shared[r.iter.instanceArc]? = some s) (hpoisoned : s.poisoned = false)
    {t : Instance γ} (hhealthy : L.Healthy t.guest) (hlive : L.live t.guest = L.live s.inner.guest)
    (hothers : ∀ q, q ≠ r.iter.ptr → L.iters t.guest q = L.iters s.inner.guest q)
    (hptr : t.cachedAllocPtr = s.inner.cachedAllocPtr)
    (hlen : t.cachedAllocLen = s.inner.cachedAllocLen) (r' : IterRecord) (hiter : r'.iter = r.iter)
    (hserved : r'.dropped = false → ServedBy L r' { s with inner := t })
    (hanswers : r'.answers = answersOf (L.decoded r'.name r'.input) r'.answers.length)
    (buffers : List Nat) :
    Serving L ⟨rt.shared.set r.iter.instanceArc { s with inner := t }, rt.instances,
      rt.iters.set k r', buffers, rt.instantiations⟩ := by
  have hlt : r.iter.instanceArc < rt.shared.length := (List.getElem?_eq_some_iff.1 hs).1
  have hk : k < rt.iters.length := (List.getElem?_eq_some_iff.1 hr.1).1
  -- an outstanding iterator is this one, as it is now, or another one
  have hcases : ∀ k₁ r₁, (rt.iters.set k r')[k₁]? = some r₁ →
      (k₁ = k ∧ r₁ = r') ∨ (k₁ ≠ k ∧ rt.iters[k₁]? = some r₁) := by
    intro k₁ r₁ h₁
    by_cases he : k = k₁
    · subst he
      exact .inl ⟨rfl, Option.some.inj (h₁.symm.trans (List.getElem?_set_self hk))⟩
    · exact .inr ⟨Ne.symm he, (List.getElem?_set_ne he).symm.trans h₁⟩
  refine ⟨?_, ?_, ?_, ?_⟩
  · intro i hi u hu
    by_cases he : r.iter.instanceArc = i
    · subst he
      cases (List.getElem?_set_self hlt).symm.trans hu
      obtain ⟨-, -, ptr, b, hb, hbptr, hbcached, hblen⟩ := h.callable _ hi s hs
      refine ⟨hpoisoned, hhealthy, ptr, b, ?_, hbptr, hptr.trans hbcached, ?_⟩
      · rw [hlive]
        exact hb
      · rw [hlen]
        exact hblen
    · exact h.callable i hi u ((List.getElem?_set_ne he).symm.trans hu)
  · rintro k₁ r₁ ⟨h₁, hdropped⟩
    rcases hcases k₁ r₁ h₁ with ⟨rfl, rfl⟩ | ⟨hne, hold⟩
    · rw [hiter]
      exact ⟨_, List.getElem?_set_self hlt, hserved hdropped⟩
    · obtain ⟨u, hu, hserve⟩ := h.served k₁ r₁ ⟨hold, hdropped⟩
      by_cases he : r.iter.instanceArc = r₁.iter.instanceArc
      · rw [← he] at hu ⊢
        cases hs.symm.trans hu
        refine ⟨_, List.getElem?_set_self hlt, hpoisoned, hhealthy, ?_, ?_⟩
        · have hq : r₁.iter.ptr ≠ r.iter.ptr := fun hq =>
            hne (h.distinct k₁ k r₁ r ⟨hold, hdropped⟩ hr he.symm hq)
          exact (hothers _ hq).trans hserve.rest
        · show ∃ b ∈ L.live t.guest, _
          rw [hlive]
          exact hserve.slot
      · exact ⟨u, (List.getElem?_set_ne he).trans hu, hserve⟩
  · rintro k₁ k₂ r₁ r₂ ⟨h₁, hd₁⟩ ⟨h₂, hd₂⟩ harc hq
    rcases hcases k₁ r₁ h₁ with ⟨rfl, rfl⟩ | ⟨hne₁, hold₁⟩
    · rcases hcases k₂ r₂ h₂ with ⟨rfl, rfl⟩ | ⟨hne₂, hold₂⟩
      · rfl
      · rw [hiter] at harc hq
        exact h.distinct k₁ k₂ r r₂ hr ⟨hold₂, hd₂⟩ harc hq
    · rcases hcases k₂ r₂ h₂ with ⟨rfl, rfl⟩ | ⟨hne₂, hold₂⟩
      · rw [hiter] at harc hq
        exact h.distinct k₁ k₂ r₁ r ⟨hold₁, hd₁⟩ hr harc hq
      · exact h.distinct k₁ k₂ r₁ r₂ ⟨hold₁, hd₁⟩ ⟨hold₂, hd₂⟩ harc hq
  · intro k₁ r₁ h₁
    rcases hcases k₁ r₁ h₁ with ⟨rfl, rfl⟩ | ⟨-, hold⟩
    · exact hanswers
    · exact h.answers k₁ r₁ hold

theorem onInstance_eq {α : Type} {arc : Nat} {s : SharedInstance γ} {x : Act Fault (Instance γ) α}
    {a : α} {t : Instance γ} (hs : rt.shared[arc]? = some s) (hpoisoned : s.poisoned = false)
    (hx : x s.inner = .ok a t) :
    onInstance arc x rt = .ok a { rt with shared := rt.shared.set arc { s with inner := t } } := by
  rw [onInstance, hs]
  dsimp only
  rw [hpoisoned, if_neg Bool.false_ne_true, hx]

/-- **`next` gives the next buffer of the iterator's own input.** -/
theorem step_next (h : Serving L rt) (hr : rt.Outstanding k r) :
    Serving L (step M rt (.next k)) ∧ (step M rt (.next k)).iters = rt.iters.set k
      { r with answers := r.answers ++
        [.ok ((L.decoded r.name r.input).drop r.answers.length).head?] } := by
  obtain ⟨s, hs, hserve⟩ := h.served k r hr
  obtain ⟨b, hb, hroom⟩ := hserve.slot
  obtain ⟨answer, t, hnext, rfl, hhealthy, hlive, hself, hothers, hptr, hlen⟩ :=
    (GuestLaws.exits_bufferIteratorNext hserve.healthy hserve.rest hb hroom).returns
  have hon := onInstance_eq hs hserve.unpoisoned hnext
  -- whatever the answer, the buffers are all that differs
  obtain ⟨buffers, hresult⟩ : ∃ buffers, next M r.iter rt =
      .ok ((L.decoded r.name r.input).drop r.answers.length).head?
        ⟨rt.shared.set r.iter.instanceArc { s with inner := t }, rt.instances, rt.iters, buffers,
          rt.instantiations⟩ := by
    rw [next, Act.bind_of_ok _ hon]
    cases ((L.decoded r.name r.input).drop r.answers.length).head? with
    | none => exact ⟨_, rfl⟩
    | some bytes => exact ⟨_, rfl⟩
  have hstep : step M rt (.next k) = ⟨rt.shared.set r.iter.instanceArc { s with inner := t },
      rt.instances, rt.iters.set k { r with answers := r.answers ++
        [.ok ((L.decoded r.name r.input).drop r.answers.length).head?] }, buffers,
          rt.instantiations⟩ := by
    rw [step, hr.1]
    dsimp only
    rw [hr.2, if_neg Bool.false_ne_true, hresult]
    rfl
  rw [hstep]
  refine ⟨h.update hr hs hserve.unpoisoned hhealthy hlive hothers hptr hlen
    { r with answers := r.answers ++ [_] } rfl ?_ ?_ buffers, rfl⟩
  · intro _
    refine ⟨hserve.unpoisoned, hhealthy, ?_, b, ?_, hroom⟩
    · show L.iters t.guest r.iter.ptr = some (List.drop (r.answers ++ [_]).length _)
      rw [hself, List.length_append, List.length_singleton, List.tail_drop]
    · show b ∈ L.live t.guest
      rw [hlive]
      exact hb
  · show r.answers ++ [_] = answersOf (L.decoded r.name r.input) (r.answers ++ [_]).length
    rw [List.length_append, List.length_singleton, answersOf_succ, ← h.answers k r hr.1]

/-- A dropped iterator leaves the others as they are. -/
theorem step_drop (h : Serving L rt) (hr : rt.Outstanding k r) :
    Serving L (step M rt (.drop k)) := by
  obtain ⟨s, hs, hserve⟩ := h.served k r hr
  obtain ⟨u, t, hdrop, hhealthy, hlive, hothers, hptr, hlen⟩ :=
    (GuestLaws.exits_bufferIteratorDrop hserve.healthy hserve.rest).returns
  have hserving := h.update hr hs hserve.unpoisoned hhealthy hlive hothers hptr hlen
    { r with dropped := true } rfl (fun hfalse => Bool.noConfusion hfalse)
    (h.answers k r hr.1) rt.buffers
  have hon : onInstance r.iter.instanceArc (Instance.bufferIteratorDrop M.guest r.iter.ptr)
      { rt with iters := rt.iters.set k { r with dropped := true } } = _ :=
    onInstance_eq hs hserve.unpoisoned hdrop
  have hstep : step M rt (.drop k) = Act.left (release M r.iter.instanceArc
      ⟨rt.shared.set r.iter.instanceArc { s with inner := t }, rt.instances,
        rt.iters.set k { r with dropped := true }, rt.buffers, rt.instantiations⟩) := by
    rw [step, hr.1]
    dsimp only
    rw [hr.2, if_neg Bool.false_ne_true, dropIter, Act.bind_of_ok _ hon]
  rw [hstep]
  exact (serving_release hserving _).1

end Iterators

/-! ## Runs -/

section Runs

variable {L : GuestLaws M} {rt : Runtime γ}

/-- A new iterator is served, and is another one than those before it. -/
theorem Serving.call (h : Serving L rt) {iter : BufferIter} {name : String} {input : Bytes}
    {s : SharedInstance γ} (hs : rt.shared[iter.instanceArc]? = some s)
    (hreturned : Returned L rt iter name input s) :
    Serving L { rt with iters := rt.iters ++ [⟨iter, name, input, [], false⟩] } := by
  have hcases : ∀ (k : Nat) (r : IterRecord),
      (rt.iters ++ [(⟨iter, name, input, [], false⟩ : IterRecord)])[k]? = some r →
        rt.iters[k]? = some r ∨ (k = rt.iters.length ∧ r = ⟨iter, name, input, [], false⟩) := by
    intro k r hr
    rcases Nat.lt_or_ge k rt.iters.length with hlt | hge
    · exact .inl ((List.getElem?_append_left hlt).symm.trans hr)
    · rw [List.getElem?_append_right hge] at hr
      have hk := (List.getElem?_eq_some_iff.1 hr).1
      have hzero : k - rt.iters.length = 0 := Nat.lt_one_iff.1 hk
      rw [hzero] at hr
      exact .inr ⟨by omega, (Option.some.inj hr).symm⟩
  refine ⟨h.callable, ?_, ?_, ?_⟩
  · rintro k r ⟨hr, hd⟩
    rcases hcases k r hr with hold | ⟨-, rfl⟩
    · exact h.served k r ⟨hold, hd⟩
    · exact ⟨s, hs, hreturned.served⟩
  · rintro k k' r r' ⟨hr, hd⟩ ⟨hr', hd'⟩ harc hq
    rcases hcases k r hr with hold | ⟨hk, rfl⟩
    · rcases hcases k' r' hr' with hold' | ⟨-, rfl⟩
      · exact h.distinct k k' r r' ⟨hold, hd⟩ ⟨hold', hd'⟩ harc hq
      · exact absurd hq (hreturned.fresh k r ⟨hold, hd⟩ harc)
    · rcases hcases k' r' hr' with hold' | ⟨hk', -⟩
      · exact absurd hq.symm (hreturned.fresh k' r' ⟨hold', hd'⟩ harc.symm)
      · rw [hk, hk']
  · intro k r hr
    rcases hcases k r hr with hold | ⟨-, rfl⟩
    · exact h.answers k r hold
    · rfl

/-- **Every step that gives back no block in use leaves the iterators served.** -/
theorem step_serving (hpool : rt.PoolSound) (h : Serving L rt) (st : Step)
    (hkeeps : ∀ name input, st = .call name input → KeepsBlocks L rt name input) :
    Serving L (step M rt st) := by
  cases st with
  | call name input =>
      have hcall := exits_callMultiBuf hpool h (hkeeps name input rfl)
      rw [step]
      split
      · next iter rt' hok =>
          obtain ⟨-, hserving, -, s, hs, hreturned⟩ := hcall.of_ok hok
          exact hserving.call hs hreturned
      · next herror => exact (hcall.of_error herror).2.1
  | next k =>
      cases hr : rt.iters[k]? with
      | none =>
          rw [step, hr]
          exact h
      | some r =>
          cases hd : r.dropped with
          | true =>
              rw [step, hr]
              dsimp only
              rw [if_pos hd]
              exact h
          | false => exact (step_next h ⟨hr, hd⟩).1
  | drop k =>
      cases hr : rt.iters[k]? with
      | none =>
          rw [step, hr]
          exact h
      | some r =>
          cases hd : r.dropped with
          | true =>
              rw [step, hr]
              dsimp only
              rw [if_pos hd]
              exact h
          | false => exact step_drop h ⟨hr, hd⟩

theorem run_serving : ∀ {rt : Runtime γ}, rt.PoolSound → Serving L rt → ∀ sts,
    AtCalls M (KeepsBlocks L) rt sts → Serving L (run M rt sts)
  | _, _, h, [], _ => h
  | _, hpool, h, .call name input :: sts, hkeeps =>
      run_serving (step_poolSound hpool _)
        (step_serving hpool h _ fun n i he => by cases he; exact hkeeps.1) sts hkeeps.2
  | _, hpool, h, .next _ :: sts, hkeeps =>
      run_serving (step_poolSound hpool _) (step_serving hpool h _ fun n i he => by cases he) sts
        hkeeps
  | _, hpool, h, .drop _ :: sts, hkeeps =>
      run_serving (step_poolSound hpool _) (step_serving hpool h _ fun n i he => by cases he) sts
        hkeeps

theorem atCalls_take {P : Runtime γ → String → Bytes → Prop} :
    ∀ {rt : Runtime γ} (sts : List Step) (n : Nat), AtCalls M P rt sts → AtCalls M P rt (sts.take n)
  | _, _, 0, _ => by rw [List.take_zero]; trivial
  | _, [], _ + 1, _ => trivial
  | _, .call _ _ :: sts, n + 1, h => ⟨h.1, atCalls_take sts n h.2⟩
  | rt, .next k :: sts, n + 1, h => by
      have hrest : AtCalls M P (step M rt (.next k)) (sts.take n) := atCalls_take sts n h
      exact hrest
  | rt, .drop k :: sts, n + 1, h => by
      have hrest : AtCalls M P (step M rt (.drop k)) (sts.take n) := atCalls_take sts n h
      exact hrest

end Runs

/-! ## An iterator by itself -/

/-- The iterator of a call after `k` steps, in a run in which there is no other call;
`n` instantiations have been made before. -/
def alone (M : WasmModule γ) (n : Nat) (name : String) (input : Bytes) (k : Nat) :
    Option IterRecord :=
  (run M { new with instantiations := n } (.call name input :: List.replicate k (.next 0))).iters[0]?

theorem run_next {L : GuestLaws M} : ∀ (k : Nat) {rt : Runtime γ} {r : IterRecord}, rt.PoolSound →
    Serving L rt → rt.iters = [r] → r.dropped = false →
      ∃ r', (run M rt (List.replicate k (.next 0))).iters = [r'] ∧
        r'.answers = answersOf (L.decoded r.name r.input) (r.answers.length + k)
  | 0, rt, r, _, h, hr, _ => by
      refine ⟨r, hr, h.answers 0 r ?_⟩
      rw [hr]
      rfl
  | k + 1, rt, r, hpool, h, hr, hd => by
      have hout : rt.Outstanding 0 r := by
        refine ⟨?_, hd⟩
        rw [hr]
        rfl
      obtain ⟨hserving, hiters⟩ := step_next h hout
      rw [hr, List.set_cons_zero] at hiters
      obtain ⟨r', hr', hanswers⟩ := run_next k (step_poolSound hpool _) hserving hiters hd
      refine ⟨r', ?_, ?_⟩
      · rw [List.replicate_succ, run]
        exact hr'
      · rw [hanswers, List.length_append, List.length_singleton, Nat.add_right_comm, Nat.add_assoc]

/-- There is no iterator to move. -/
theorem run_next_nil : ∀ (k : Nat) {rt : Runtime γ}, rt.iters = [] →
    (run M rt (List.replicate k (.next 0))).iters = []
  | 0, _, h => h
  | k + 1, rt, h => by
      have hstep : step M rt (.next 0) = rt := by
        rw [step, h]
        rfl
      rw [List.replicate_succ, run, hstep]
      exact run_next_nil k h

theorem keepsBlocks_new (L : GuestLaws M) (n : Nat) (name : String) (input : Bytes) :
    KeepsBlocks L { (new : Runtime γ) with instantiations := n } name input := by
  intro _ s len hs _ hgrows
  obtain ⟨g, -, rfl⟩ := Option.map_eq_some_iff.1 (show (M.instantiate n).map .new = some s from hs)
  obtain ⟨ptr, l, hptr, -⟩ := hgrows
  cases hptr

/-- By itself an iterator goes through the buffers of its input. -/
theorem alone_answers (L : GuestLaws M) {n k : Nat} {name : String} {input : Bytes}
    {r : IterRecord} (h : alone M n name input k = some r) :
    r.answers = answersOf (L.decoded name input) k := by
  have hpool : ({ (new : Runtime γ) with instantiations := n }).PoolSound :=
    ⟨List.nodup_nil, fun _ h => nomatch h⟩
  have hcall := exits_callMultiBuf hpool (serving_new n) (keepsBlocks_new L n name input)
  rw [alone, run, step] at h
  split at h
  · next iter rt hok =>
      obtain ⟨hpool', hserving, hiters, s, hs, hreturned⟩ := hcall.of_ok hok
      have hiters : rt.iters = [] := hiters
      have hone : rt.iters ++ [(⟨iter, name, input, [], false⟩ : IterRecord)] =
          [⟨iter, name, input, [], false⟩] := by
        rw [hiters]
        rfl
      have hpool'' : ({ rt with
          iters := rt.iters ++ [⟨iter, name, input, [], false⟩] } : Runtime γ).PoolSound :=
        ⟨hpool'.nodup, hpool'.succeeded⟩
      obtain ⟨r', hr', hanswers⟩ := run_next k hpool'' (hserving.call hs hreturned) hone rfl
      rw [hr'] at h
      cases h
      rw [hanswers, List.length_nil, Nat.zero_add]
  · next herror =>
      obtain ⟨-, -, hiters⟩ := hcall.of_error herror
      rw [run_next_nil k hiters] at h
      cases h

/-- **No iterator is disturbed**: its slot is in a block that is out, and it has
answered as it does by itself. -/
structure Undisturbed (L : GuestLaws M) (rt : Runtime γ) : Prop where
  slots : ∀ k r, rt.Outstanding k r → ∃ s, rt.shared[r.iter.instanceArc]? = some s ∧
    ∃ b ∈ L.live s.inner.guest, b.HasRoom r.iter.allocPtr 12
  answers : ∀ (k : Nat) (r : IterRecord) (n : Nat) (r' : IterRecord), rt.iters[k]? = some r →
    alone M n r.name r.input r.answers.length = some r' → r.answers = r'.answers

/-- **Iterators are not disturbed in the runs in which no call gives back a block
that an iterator uses, or with another length than it has.** -/
theorem run_undisturbed (L : GuestLaws M) (sts : List Step)
    (hkeeps : AtCalls M (KeepsBlocks L) new sts) (n : Nat) :
    Undisturbed L (run M new (sts.take n)) := by
  have h : Serving L (run M new (sts.take n)) :=
    run_serving poolSound_new (serving_new 0) _ (atCalls_take sts n hkeeps)
  refine ⟨fun k r hr => ?_, fun k r m r' hr halone => ?_⟩
  · obtain ⟨s, hs, hserve⟩ := h.served k r hr
    exact ⟨s, hs, hserve.slot⟩
  · rw [alone_answers L halone]
    exact h.answers k r hr

/-- The second call has an input of the same length; the iterator of the first goes on
after it, and then that of the second. -/
def equalInputs : List Step :=
  [.call "decode_ffi" [1], .call "decode_ffi" [2], .next 0, .next 1, .next 0, .drop 0, .next 1]

theorem run_undisturbed_equalInputs :
    AtCalls CopyingGuest.copyingModule (KeepsBlocks CopyingGuest.laws) new equalInputs ∧
      Undisturbed CopyingGuest.laws (run CopyingGuest.copyingModule new (equalInputs.take 5)) := by
  have hkeeps : AtCalls CopyingGuest.copyingModule (KeepsBlocks CopyingGuest.laws) new equalInputs := by
    refine ⟨keepsBlocks_new _ 0 _ _, ?_, trivial⟩
    intro _ s len hs hlen hgrows
    obtain ⟨ptr, l, hptr, hl, hlt⟩ := hgrows
    cases hs
    cases hlen
    cases hl
    exact absurd hlt (by decide)
  exact ⟨hkeeps, run_undisturbed CopyingGuest.laws equalInputs hkeeps 5⟩

/-- The second call has a longer input, and gives back the block in which the iterator
of the first has its slot. -/
def longerInput : List Step := [.call "decode_ffi" [1], .call "decode_ffi" [2, 3], .next 0]

/-- The slot of the iterator is not in a block that is out, and the iterator panics where
by itself it gives the buffer. -/
theorem longer_input_disturbs :
    ¬ Undisturbed CopyingGuest.laws (run CopyingGuest.copyingModule new (longerInput.take 2)) ∧
      ¬ Undisturbed CopyingGuest.laws (run CopyingGuest.copyingModule new longerInput) := by
  constructor
  · intro h
    obtain ⟨s, hs, b, hb, hroom⟩ := h.slots 0 _ ⟨rfl, rfl⟩
    cases hs
    have hb : b ∈ [(⟨1037, 14, 4⟩ : Block)] := hb
    cases List.mem_singleton.1 hb
    exact absurd hroom.1 (by decide)
  · intro h
    have hanswers := h.answers 0 _ 0 _ rfl rfl
    cases hanswers

end Runtime

end F3Format
