import F3Format.Lib.Meetings
import F3Format.Reader

/-!
# Statistics of shared dictionaries

`get_shared_dict_sizes` of `reader/mod.rs` walks the chunks of the dictionaries
each column refers to, and notes which columns have been at a chunk before. What
it returns are the meetings of the columns at the chunks, as long as no column
comes to a chunk twice, and no column stands behind the fields of the schema
(`exactPeers_iff`). The hash sets of the source are lists here, walked in any order.
-/

set_option autoImplicit false

namespace F3Format

open Lib

/-! ## The two loops -/

/-- The orders in which the hash sets are walked: the dictionaries of a column, and
the columns that have been at a chunk. -/
structure HashOrder where
  dicts : Nat → List Nat → List Nat
  cols : Nat → List Nat → List Nat
  dicts_perm : ∀ col set, (dicts col set).Perm set
  cols_perm : ∀ chunk set, (cols chunk set).Perm set

/-- The sets are walked in the order of their insertion, the last one first. -/
def HashOrder.insertion : HashOrder :=
  ⟨fun _ set => set, fun _ set => set, fun _ _ => .refl _, fun _ _ => .refl _⟩

/-- `SharedDictionaryCache::get_dict_size`. -/
def SharedDictionaryCache.getDictSize (c : SharedDictionaryCache) (i : Nat) : Option Nat :=
  c.dictionaryCompressedSizes[i]?

/-- `chunk_referencing_cols` and `sharing_peers`. -/
structure Sharing where
  chunkReferencingCols : List (List Nat)
  sharingPeers : List (List (Nat × Nat))

namespace FileReaderV2

/-- `referenced_dicts[field_id].insert(shared_dict_id)`. -/
def insertReference (refs : List (List Nat)) (fieldId dict : Nat) : Result (List (List Nat)) := do
  let set ← index refs fieldId
  pure (refs.set fieldId (set.insert dict))

/-- The body of the loop over the chunks of a column. -/
def insertChunk (fieldId : Nat) (refs : List (List Nat)) (chunk : Fb.Chunk) :
    Result (List (List Nat)) :=
  match chunk.encoding.asShared with
  | none => pure refs
  | some dict => insertReference refs fieldId dict

/-- The chunks of a column of a row group. -/
def insertColumn (refs : List (List Nat)) (p : Fb.ColumnMetadata × Nat) :
    Result (List (List Nat)) := do
  let chunks ← unwrapSome p.1.columnChunks
  chunks.foldlM (insertChunk p.2) refs

/-- `referenced_dicts`. -/
def referencedDicts (numFields : Nat) (groups : List GroupedColumnMetadata) :
    Result (List (List Nat)) :=
  groups.foldlM (fun refs g => g.columnMetadatas.zipIdx.foldlM insertColumn refs)
    (List.replicate numFields [])

/-- `sharing_peers[i].push(..)`. -/
def pushAt (peers : List (List (Nat × Nat))) (i : Nat) (x : Nat × Nat) :
    Result (List (List (Nat × Nat))) := do
  let entries ← index peers i
  pure (peers.set i (entries ++ [x]))

/-- The column meets a peer at a chunk. -/
def pushPeer (sizes : List Nat) (col chunk : Nat) (peers : List (List (Nat × Nat))) (peer : Nat) :
    Result (List (List (Nat × Nat))) := do
  let size ← index sizes chunk
  let peers ← pushAt peers col (peer, size)
  pushAt peers peer (col, size)

/-- The column comes to a chunk. -/
def visitChunk (order : HashOrder) (sizes : List Nat) (col : Nat) (s : Sharing) (chunk : Nat) :
    Result Sharing := do
  let refCols ← index s.chunkReferencingCols chunk
  let peers ← (order.cols chunk refCols).foldlM (pushPeer sizes col chunk) s.sharingPeers
  pure ⟨s.chunkReferencingCols.set chunk (refCols.insert col), peers⟩

/-- The column comes to the chunks of a dictionary. -/
def visitDict (order : HashOrder) (sizes : List Nat) (references : List (List Nat)) (col : Nat)
    (s : Sharing) (dict : Nat) : Result Sharing := do
  let chunks ← index references dict
  chunks.foldlM (visitChunk order sizes col) s

/-- The column comes to its dictionaries. -/
def visitColumn (order : HashOrder) (sizes : List Nat) (references : List (List Nat))
    (s : Sharing) (p : List Nat × Nat) : Result Sharing :=
  (order.dicts p.2 p.1).foldlM (visitDict order sizes references p.2) s

/-- The counter of a column. -/
def dictCounter (order : HashOrder) (cache : SharedDictionaryCache) (p : List Nat × Nat) :
    Result EncodingCounter := do
  let sizes ← collect (fun dict => unwrapSome (cache.getDictSize dict)) (order.dicts p.2 p.1)
  pure ⟨.globalDictionary, sizes.sum, 0⟩

/-- `get_shared_dict_size_based_on_footer`. -/
def getSharedDictSizeBasedOnFooter (order : HashOrder) (footer : Footer)
    (cache : SharedDictionaryCache) :
    Result (List EncodingCounter × List (List (Nat × Nat))) := do
  let refs ← referencedDicts footer.schema.length footer.rowGroupMetadatas
  let s ← refs.zipIdx.foldlM
    (visitColumn order cache.dictionaryChunkSizes cache.dictionaryChunkReferences)
    ⟨List.replicate cache.dictionaryChunkSizes.length [],
      List.replicate footer.schema.length []⟩
  let counters ← collect (dictCounter order cache) refs.zipIdx
  pure (counters, s.sharingPeers)

/-- `get_shared_dict_sizes`. -/
def getSharedDictSizes (env : Env) (order : HashOrder) (r : FileReaderV2) :
    Result (List EncodingCounter × List (List (Nat × Nat))) := do
  let footer ← Footer.tryNewWithProjection env r.rowGroupCntNPointers
    r.groupedColumnMetadataBuffers r.schema
  let cache ← unwrapSome r.sharedDictionaryCache
  getSharedDictSizeBasedOnFooter order footer cache

end FileReaderV2

/-! ## The references of the columns -/

section References

open FileReaderV2

/-- A loop over parts is a loop over all their elements. -/
theorem foldlM_flatMap {σ α β : Type} (f : σ → α → Result σ) (g : β → List α) (xs : List β)
    (s : σ) : (xs.flatMap g).foldlM f s = xs.foldlM (fun s x => (g x).foldlM f s) s := by
  induction xs generalizing s with
  | nil => rfl
  | cons x xs ih =>
      rw [List.flatMap_cons, List.foldlM_append, List.foldlM_cons]
      exact congrArg _ (funext ih)

theorem foldlM_congr {σ α : Type} {f g : σ → α → Result σ} {xs : List α}
    (h : ∀ x ∈ xs, ∀ s, f s x = g s x) {s : σ} : xs.foldlM f s = xs.foldlM g s := by
  induction xs generalizing s with
  | nil => rfl
  | cons x xs ih =>
      rw [List.foldlM_cons, List.foldlM_cons, h x List.mem_cons_self]
      exact congrArg _ (funext fun s => ih fun y hy => h y (List.mem_cons_of_mem _ hy))

/-- The shared dictionaries of a column of a row group. -/
def Fb.ColumnMetadata.sharedDicts (m : Fb.ColumnMetadata) : List Nat :=
  (m.columnChunks.getD []).filterMap fun c => c.encoding.asShared

/-- The references of a row group: a column and a dictionary. -/
def GroupedColumnMetadata.references (g : GroupedColumnMetadata) : List (Nat × Nat) :=
  g.columnMetadatas.zipIdx.flatMap fun p => p.1.sharedDicts.map fun dict => (p.2, dict)

/-- Inserting references one after the other. -/
def insertAll (es : List (Nat × Nat)) (refs : List (List Nat)) : Result (List (List Nat)) :=
  es.foldlM (fun refs e => insertReference refs e.1 e.2) refs

variable {refs : List (List Nat)} {groups : List GroupedColumnMetadata}

theorem insertColumn_eq {p : Fb.ColumnMetadata × Nat} (h : p.1.columnChunks ≠ none) :
    insertColumn refs p = insertAll (p.1.sharedDicts.map fun dict => (p.2, dict)) refs := by
  obtain ⟨chunks, hchunks⟩ := Option.ne_none_iff_exists'.1 h
  rw [insertColumn, hchunks, insertAll, Fb.ColumnMetadata.sharedDicts, hchunks]
  show chunks.foldlM (insertChunk p.2) refs =
    ((chunks.filterMap fun c => c.encoding.asShared).map fun dict => (p.2, dict)).foldlM _ refs
  clear hchunks
  induction chunks generalizing refs with
  | nil => rfl
  | cons chunk chunks ih =>
      rw [List.foldlM_cons, insertChunk, List.filterMap_cons]
      cases chunk.encoding.asShared with
      | none => exact ih
      | some dict =>
          dsimp only
          rw [List.map_cons, List.foldlM_cons]
          exact congrArg _ (funext fun refs' => ih)

/-- The references of all row groups. -/
def referencesOf (groups : List GroupedColumnMetadata) : List (Nat × Nat) :=
  groups.flatMap GroupedColumnMetadata.references

theorem referencedDicts_eq {n : Nat}
    (h : ∀ g ∈ groups, ∀ m ∈ g.columnMetadatas, m.columnChunks ≠ none) :
    referencedDicts n groups = insertAll (referencesOf groups) (List.replicate n []) := by
  have hgroup : ∀ g ∈ groups, ∀ refs, g.columnMetadatas.zipIdx.foldlM insertColumn refs =
      insertAll g.references refs := by
    intro g hg refs
    rw [insertAll, GroupedColumnMetadata.references, foldlM_flatMap]
    refine foldlM_congr fun p hp refs => insertColumn_eq ?_
    exact h g hg p.1 (List.fst_mem_of_mem_zipIdx hp)
  rw [referencedDicts, insertAll, referencesOf, foldlM_flatMap]
  exact foldlM_congr fun g hg refs => hgroup g hg refs

/-- The references are found again in the sets, and no set has one of them twice. -/
structure Inserted (es : List (Nat × Nat)) (n : Nat) (refs : List (List Nat)) : Prop where
  length : refs.length = n
  nodup : ∀ set ∈ refs, set.Nodup
  mem : ∀ (c : Nat) (set : List Nat), refs[c]? = some set → ∀ dict, dict ∈ set ↔ (c, dict) ∈ es

theorem inserted_nil (n : Nat) : Inserted [] n (List.replicate n []) := by
  refine ⟨List.length_replicate, ?_, ?_⟩
  · intro set hset
    rw [List.eq_of_mem_replicate hset]
    exact List.nodup_nil
  · intro c set hset dict
    rw [List.eq_of_mem_replicate (List.mem_of_getElem? hset)]
    exact iff_of_false List.not_mem_nil List.not_mem_nil

theorem Inserted.snoc {es : List (Nat × Nat)} {n c dict : Nat} (h : Inserted es n refs)
    (hc : c < n) : ∃ refs', insertReference refs c dict = .ok refs' ∧
      Inserted (es ++ [(c, dict)]) n refs' := by
  have hlt : c < refs.length := h.length ▸ hc
  have hget := List.getElem?_eq_getElem hlt
  refine ⟨refs.set c ((refs.get ⟨c, hlt⟩).insert dict), ?_, ?_, ?_, ?_⟩
  · rw [insertReference, (index_eq_ok _ _ _).2 hget, ok_bind]
    rfl
  · rw [List.length_set, h.length]
  · intro set hset
    rcases List.mem_or_eq_of_mem_set hset with hold | rfl
    · exact h.nodup set hold
    · exact (h.nodup _ (List.mem_of_getElem? hget)).insert
  · intro c' set hset dict'
    rw [List.mem_append, List.mem_singleton, Prod.mk.injEq]
    by_cases hcc : c = c'
    · subst hcc
      rw [List.getElem?_set_self hlt] at hset
      cases hset
      rw [List.mem_insert_iff, List.get_eq_getElem, h.mem c _ hget, or_comm]
      exact or_congr_right (and_iff_right rfl).symm
    · rw [List.getElem?_set_ne hcc] at hset
      rw [h.mem c' set hset]
      exact (or_iff_left fun he => hcc he.1.symm).symm

theorem insertAll_snoc (es : List (Nat × Nat)) (e : Nat × Nat) (refs : List (List Nat)) :
    insertAll (es ++ [e]) refs =
      (insertAll es refs >>= fun refs => insertReference refs e.1 e.2) := by
  rw [insertAll, List.foldlM_append]
  refine congrArg _ (funext fun refs => ?_)
  rw [List.foldlM_cons]
  exact bind_pure _

/-- Every reference of a column below `n` is inserted. -/
theorem insertAll_ok {n : Nat} {es : List (Nat × Nat)} (h : ∀ e ∈ es, e.1 < n) :
    ∃ refs, insertAll es (List.replicate n []) = .ok refs ∧ Inserted es n refs := by
  induction es using List.reverseRecOn with
  | nil => exact ⟨_, rfl, inserted_nil n⟩
  | append_singleton es e ih =>
      obtain ⟨hes, he⟩ := List.forall_mem_append.1 h
      obtain ⟨refs, hrefs, hinserted⟩ := ih hes
      obtain ⟨refs', hrefs', hinserted'⟩ :=
        hinserted.snoc (he e (List.mem_singleton_self e))
      exact ⟨refs', by rw [insertAll_snoc, hrefs, ok_bind, hrefs'], hinserted'⟩

/-- A reference of another column panics. -/
theorem lt_of_insertAll {es : List (Nat × Nat)} {refs refs' : List (List Nat)}
    (h : insertAll es refs = .ok refs') :
    refs'.length = refs.length ∧ ∀ e ∈ es, e.1 < refs.length := by
  induction es using List.reverseRecOn generalizing refs' with
  | nil =>
      cases h
      exact ⟨rfl, fun e he => absurd he List.not_mem_nil⟩
  | append_singleton es e ih =>
      rw [insertAll_snoc, bind_eq_ok] at h
      obtain ⟨refs₁, hes, hlast⟩ := h
      obtain ⟨hlen, hlt⟩ := ih hes
      simp only [insertReference, bind_eq_ok, index_eq_ok, pure_eq_ok, Except.ok.injEq] at hlast
      obtain ⟨set, hset, rfl⟩ := hlast
      have hlast := (List.getElem?_eq_some_iff.1 hset).1
      exact ⟨by rw [List.length_set, hlen], List.forall_mem_append.2
        ⟨hlt, List.forall_mem_singleton.2 (hlen ▸ hlast)⟩⟩

end References

/-! ## The visits of the columns -/

section Visits

open FileReaderV2

/-- A column comes to a chunk, for each of the visits. -/
def visitAll (order : HashOrder) (sizes : List Nat) (vs : List (Nat × Nat)) (s : Sharing) :
    Result Sharing :=
  vs.foldlM (fun s v => visitChunk order sizes v.1 s v.2) s

theorem visitAll_snoc (order : HashOrder) (sizes : List Nat) (vs : List (Nat × Nat))
    (v : Nat × Nat) (s : Sharing) :
    visitAll order sizes (vs ++ [v]) s =
      (visitAll order sizes vs s >>= fun s => visitChunk order sizes v.1 s v.2) := by
  rw [visitAll, List.foldlM_append]
  refine congrArg _ (funext fun s => ?_)
  rw [List.foldlM_cons]
  exact bind_pure _

/-- The entries a newcomer and those at the chunk get. -/
def newEntries (col size : Nat) (peers : List Nat) (a : Nat) : List (Nat × Nat) :=
  if a = col then peers.map fun b => (b, size) else if a ∈ peers then [(col, size)] else []

theorem pushAt_ok {peers : List (List (Nat × Nat))} {i : Nat} (hi : i < peers.length)
    (x : Nat × Nat) : ∃ peers', pushAt peers i x = .ok peers' ∧ peers'.length = peers.length ∧
      ∀ a, peers'[a]? = peers[a]?.map fun entries => entries ++ if a = i then [x] else [] := by
  have hget := List.getElem?_eq_getElem hi
  refine ⟨peers.set i (peers.get ⟨i, hi⟩ ++ [x]), ?_, List.length_set, fun a => ?_⟩
  · rw [pushAt, (index_eq_ok _ _ _).2 hget, ok_bind]
    rfl
  · by_cases ha : a = i
    · subst ha
      rw [List.getElem?_set_self hi, hget, Option.map_some, if_pos rfl]
      rfl
    · rw [List.getElem?_set_ne (Ne.symm ha), if_neg ha]
      cases peers[a]? with
      | none => rfl
      | some entries => rw [Option.map_some, List.append_nil]

/-- The newcomer and each of those at the chunk are entered with each other. -/
theorem pushPeers_ok {sizes : List Nat} {col chunk : Nat} (hchunk : chunk < sizes.length)
    {ps : List Nat} {peers : List (List (Nat × Nat))} (hcol : col < peers.length)
    (hnew : col ∉ ps) (hnodup : ps.Nodup) (hps : ∀ b ∈ ps, b < peers.length) :
    ∃ peers', ps.foldlM (pushPeer sizes col chunk) peers = .ok peers' ∧
      peers'.length = peers.length ∧
      ∀ a, peers'[a]? = peers[a]?.map fun entries =>
        entries ++ newEntries col (sizes.get ⟨chunk, hchunk⟩) ps a := by
  induction ps generalizing peers with
  | nil =>
      refine ⟨peers, rfl, rfl, fun a => ?_⟩
      have hnone : newEntries col (sizes.get ⟨chunk, hchunk⟩) [] a = [] := by
        rw [newEntries]
        split
        · rfl
        · rfl
      rw [hnone]
      cases peers[a]? with
      | none => rfl
      | some entries => rw [Option.map_some, List.append_nil]
  | cons b ps ih =>
      obtain ⟨hb, hrest⟩ := List.forall_mem_cons.1 hps
      obtain ⟨hbnew, hnodup'⟩ := List.nodup_cons.1 hnodup
      have hne : b ≠ col := fun h => hnew (h ▸ List.mem_cons_self)
      obtain ⟨p₁, hp₁, hlen₁, hget₁⟩ := pushAt_ok hcol (b, sizes.get ⟨chunk, hchunk⟩)
      have hb₁ : b < p₁.length := by rwa [hlen₁]
      obtain ⟨p₂, hp₂, hlen₂, hget₂⟩ := pushAt_ok hb₁ (col, sizes.get ⟨chunk, hchunk⟩)
      have hlen := hlen₂.trans hlen₁
      have hcol₂ : col < p₂.length := by rwa [hlen]
      obtain ⟨p₃, hp₃, hlen₃, hget₃⟩ := ih hcol₂
        (fun h => hnew (List.mem_cons_of_mem _ h)) hnodup' (by rwa [hlen])
      refine ⟨p₃, ?_, hlen₃.trans hlen, fun a => ?_⟩
      · rw [List.foldlM_cons, pushPeer,
          (index_eq_ok _ _ _).2 (List.getElem?_eq_getElem hchunk), ok_bind]
        show (pushAt peers col (b, sizes.get ⟨chunk, hchunk⟩) >>= fun peers =>
          pushAt peers b (col, sizes.get ⟨chunk, hchunk⟩)) >>= _ = _
        rw [hp₁, ok_bind, hp₂, ok_bind, hp₃]
      · rw [hget₃, hget₂, hget₁, Option.map_map, Option.map_map]
        refine congrArg (fun f => peers[a]?.map f) (funext fun entries => ?_)
        simp only [Function.comp_apply, List.append_assoc]
        refine congrArg (entries ++ ·) ?_
        by_cases ha : a = col
        · subst ha
          rw [if_pos rfl, if_neg (Ne.symm hne), newEntries, newEntries, if_pos rfl, if_pos rfl]
          rfl
        · by_cases hab : a = b
          · subst hab
            rw [if_neg ha, if_pos rfl, newEntries, newEntries, if_neg ha, if_neg ha,
              if_neg hbnew, if_pos List.mem_cons_self]
            rfl
          · rw [if_neg ha, if_neg hab, newEntries, newEntries, if_neg ha, if_neg ha]
            simp only [List.mem_cons, hab, false_or, List.nil_append]

/-- The accumulators after the visits: at each chunk the columns that have been there,
and for each column its meetings. -/
structure Sharing.After (sizes : List Nat) (n : Nat) (vs : List (Nat × Nat)) (s : Sharing) :
    Prop where
  chunks : s.chunkReferencingCols.length = sizes.length
  columns : s.sharingPeers.length = n
  cols : ∀ (k : Nat) (cols : List Nat), s.chunkReferencingCols[k]? = some cols →
    cols.Perm (visitors vs k)
  peers : ∀ (a : Nat) (entries : List (Nat × Nat)), s.sharingPeers[a]? = some entries →
    entries.Perm ((meetings vs a).map fun v => (v.1, (sizes[v.2]?).getD 0))

theorem Sharing.after_nil (sizes : List Nat) (n : Nat) :
    Sharing.After sizes n [] ⟨List.replicate sizes.length [], List.replicate n []⟩ := by
  refine ⟨List.length_replicate, List.length_replicate, ?_, ?_⟩
  · intro k cols h
    rw [List.eq_of_mem_replicate (List.mem_of_getElem? h)]
    exact .refl _
  · intro a entries h
    rw [List.eq_of_mem_replicate (List.mem_of_getElem? h)]
    exact .refl _

/-- **A visit of a chunk where the column has not been.** -/
theorem Sharing.After.visit {sizes : List Nat} {n : Nat} {vs : List (Nat × Nat)} {s : Sharing}
    (h : s.After sizes n vs) (order : HashOrder) (hvs : vs.Nodup) (hlt : ∀ v ∈ vs, v.1 < n)
    {c k : Nat} (hnew : (c, k) ∉ vs) (hc : c < n) (hk : k < sizes.length) :
    ∃ s', visitChunk order sizes c s k = .ok s' ∧ s'.After sizes n (vs ++ [(c, k)]) := by
  have hk' : k < s.chunkReferencingCols.length := h.chunks ▸ hk
  have hget := List.getElem?_eq_getElem hk'
  have hcols := h.cols k _ hget
  have horder := (order.cols_perm k (s.chunkReferencingCols.get ⟨k, hk'⟩)).trans hcols
  have hnodup : (visitors vs k).Nodup := by
    rw [visitors]
    refine List.Nodup.map_on ?_ (hvs.filter _)
    intro v hv v' hv' heq
    have hv₂ := of_decide_eq_true (List.mem_filter.1 hv).2
    have hv₂' := of_decide_eq_true (List.mem_filter.1 hv').2
    exact Prod.ext heq (hv₂.trans hv₂'.symm)
  have hc' : c < s.sharingPeers.length := h.columns ▸ hc
  obtain ⟨peers, hpeers, hlen, hentries⟩ := pushPeers_ok hk
    hc' (fun hmem => hnew (mem_visitors.1 (horder.mem_iff.1 hmem)))
    (horder.nodup_iff.2 hnodup)
    (fun b hb => h.columns ▸ hlt _ (mem_visitors.1 (horder.mem_iff.1 hb)))
  have hnotin : c ∉ s.chunkReferencingCols.get ⟨k, hk'⟩ := fun hmem =>
    hnew (mem_visitors.1 (hcols.mem_iff.1 hmem))
  refine ⟨⟨s.chunkReferencingCols.set k ((s.chunkReferencingCols.get ⟨k, hk'⟩).insert c), peers⟩,
    ?_, ?_, ?_, ?_, ?_⟩
  · rw [visitChunk, (index_eq_ok _ _ _).2 hget, ok_bind]
    show ((order.cols k (s.chunkReferencingCols.get ⟨k, hk'⟩)).foldlM _ _ >>= _) = _
    rw [hpeers, ok_bind]
    rfl
  · rw [List.length_set, h.chunks]
  · rw [hlen, h.columns]
  · intro l cols hl
    rw [visitors_snoc]
    by_cases hkl : k = l
    · subst hkl
      rw [List.getElem?_set_self hk'] at hl
      cases hl
      rw [if_pos rfl, List.insert_of_not_mem hnotin]
      exact (hcols.cons c).trans (List.perm_append_singleton c _).symm
    · rw [List.getElem?_set_ne hkl] at hl
      rw [if_neg hkl, List.append_nil]
      exact h.cols l cols hl
  · intro a entries ha
    have hsize : (sizes[k]?).getD 0 = sizes.get ⟨k, hk⟩ := by
      rw [List.getElem?_eq_getElem hk]
      rfl
    rw [hentries, Option.map_eq_some_iff] at ha
    obtain ⟨old, hold, rfl⟩ := ha
    have hperm := h.peers a old hold
    by_cases hac : a = c
    · subst hac
      rw [newEntries, if_pos rfl]
      refine ((hperm.append (horder.map _)).trans ?_).trans
        ((meetings_snoc_self hnew).map _).symm
      rw [List.map_append, List.map_map]
      simp only [Function.comp_def, hsize]
      exact .refl _
    · rw [meetings_snoc_other hac, List.map_append, newEntries, if_neg hac]
      refine hperm.append ?_
      by_cases hak : (a, k) ∈ vs
      · rw [if_pos hak, if_pos (horder.mem_iff.2 (mem_visitors.2 hak)), ← hsize]
        exact .refl _
      · rw [if_neg hak, if_neg fun hmem => hak (mem_visitors.1 (horder.mem_iff.1 hmem))]
        exact .refl _

/-- **If no column comes to a chunk twice, the peers are those it meets.** -/
theorem visitAll_ok {sizes : List Nat} {n : Nat} (order : HashOrder) {vs : List (Nat × Nat)}
    (hvs : vs.Nodup) (hlt : ∀ v ∈ vs, v.1 < n ∧ v.2 < sizes.length) :
    ∃ s, visitAll order sizes vs
        ⟨List.replicate sizes.length [], List.replicate n []⟩ = .ok s ∧ s.After sizes n vs := by
  induction vs using List.reverseRecOn with
  | nil => exact ⟨_, rfl, Sharing.after_nil sizes n⟩
  | append_singleton vs v ih =>
      obtain ⟨hvs', hv⟩ := List.forall_mem_append.1 hlt
      obtain ⟨hc, hk⟩ := hv v (List.mem_singleton_self v)
      have hnodup := List.nodup_append.1 hvs
      obtain ⟨s, hs, hafter⟩ := ih hnodup.1 hvs'
      have hnew : v ∉ vs := fun hmem => hnodup.2.2 v hmem v (List.mem_singleton_self v) rfl
      obtain ⟨s', hs', hafter'⟩ := hafter.visit order hnodup.1 (fun v hv => (hvs' v hv).1) hnew hc hk
      exact ⟨s', by rw [visitAll_snoc, hs, ok_bind, hs'], hafter'⟩

/-- No list has lost an entry. -/
def Grew {α : Type} (xs ys : List (List α)) : Prop :=
  ∀ (i : Nat) (l : List α), xs[i]? = some l → ∃ l', ys[i]? = some l' ∧ l ⊆ l'

theorem Grew.refl {α : Type} (xs : List (List α)) : Grew xs xs := fun _ l h => ⟨l, h, fun _ => id⟩

theorem Grew.trans {α : Type} {xs ys zs : List (List α)} (h : Grew xs ys) (h' : Grew ys zs) :
    Grew xs zs := by
  intro i l hl
  obtain ⟨l', hl', hsub⟩ := h i l hl
  obtain ⟨l'', hl'', hsub'⟩ := h' i l' hl'
  exact ⟨l'', hl'', fun _ hx => hsub' (hsub hx)⟩

/-- One list is replaced by a larger one. -/
theorem grew_set {α : Type} {xs : List (List α)} {i : Nat} {l l' : List α} (hl : xs[i]? = some l)
    (hsub : l ⊆ l') : Grew xs (xs.set i l') := by
  intro j m hm
  obtain ⟨hi, -⟩ := List.getElem?_eq_some_iff.1 hl
  by_cases hij : i = j
  · subst hij
    rw [hl] at hm
    cases hm
    exact ⟨l', List.getElem?_set_self hi, hsub⟩
  · exact ⟨m, by rw [List.getElem?_set_ne hij, hm], fun _ => id⟩

theorem pushAt_grew {peers peers' : List (List (Nat × Nat))} {i : Nat} {x : Nat × Nat}
    (h : pushAt peers i x = .ok peers') :
    Grew peers peers' ∧ ∃ entries, peers'[i]? = some entries ∧ x ∈ entries := by
  simp only [pushAt, bind_eq_ok, index_eq_ok, pure_eq_ok, Except.ok.injEq] at h
  obtain ⟨entries, hget, rfl⟩ := h
  obtain ⟨hi, -⟩ := List.getElem?_eq_some_iff.1 hget
  exact ⟨grew_set hget (List.subset_append_left _ _), _, List.getElem?_set_self hi,
    List.mem_append_right _ (List.mem_singleton_self x)⟩

/-- Everyone at the chunk becomes a peer of the column. -/
theorem pushPeers_grew {sizes : List Nat} {col chunk : Nat} {ps : List Nat}
    {peers peers' : List (List (Nat × Nat))}
    (h : ps.foldlM (pushPeer sizes col chunk) peers = .ok peers') :
    Grew peers peers' ∧ ∀ b ∈ ps, ∃ entries size, peers'[col]? = some entries ∧
      (b, size) ∈ entries := by
  induction ps generalizing peers with
  | nil =>
      cases h
      exact ⟨.refl _, fun b hb => absurd hb List.not_mem_nil⟩
  | cons b ps ih =>
      rw [List.foldlM_cons, bind_eq_ok] at h
      obtain ⟨p₂, hpush, hrest⟩ := h
      simp only [pushPeer, bind_eq_ok] at hpush
      obtain ⟨size, -, p₁, hfirst, hsecond⟩ := hpush
      obtain ⟨hgrew₁, entries₁, hget₁, hmem₁⟩ := pushAt_grew hfirst
      obtain ⟨hgrew₂, -⟩ := pushAt_grew hsecond
      obtain ⟨hgrew₃, hall⟩ := ih hrest
      refine ⟨(hgrew₁.trans hgrew₂).trans hgrew₃, List.forall_mem_cons.2 ⟨?_, hall⟩⟩
      obtain ⟨entries, hget, hsub⟩ := hgrew₂.trans hgrew₃ col entries₁ hget₁
      exact ⟨entries, size, hget, hsub hmem₁⟩

/-- A column is its own peer. -/
def Sharing.OwnPeer (s : Sharing) : Prop :=
  ∃ (c : Nat) (entries : List (Nat × Nat)) (size : Nat),
    s.sharingPeers[c]? = some entries ∧ (c, size) ∈ entries

/-- The columns are at the chunks they have visited. -/
def Sharing.Seen (vs : List (Nat × Nat)) (s : Sharing) : Prop :=
  ∀ v ∈ vs, ∃ cols, s.chunkReferencingCols[v.2]? = some cols ∧ v.1 ∈ cols

theorem Sharing.OwnPeer.grew {s s' : Sharing} (h : s.OwnPeer)
    (hgrew : Grew s.sharingPeers s'.sharingPeers) : s'.OwnPeer := by
  obtain ⟨c, entries, size, hget, hmem⟩ := h
  obtain ⟨entries', hget', hsub⟩ := hgrew c entries hget
  exact ⟨c, entries', size, hget', hsub hmem⟩

theorem visitChunk_grew {order : HashOrder} {sizes : List Nat} {c k : Nat} {s s' : Sharing}
    (h : visitChunk order sizes c s k = .ok s') : Grew s.sharingPeers s'.sharingPeers ∧
      Grew s.chunkReferencingCols s'.chunkReferencingCols ∧ s'.Seen [(c, k)] ∧
        (s.Seen [(c, k)] → s'.OwnPeer) := by
  simp only [visitChunk, bind_eq_ok, index_eq_ok, pure_eq_ok, Except.ok.injEq] at h
  obtain ⟨cols, hcols, peers, hpeers, rfl⟩ := h
  obtain ⟨hgrew, hall⟩ := pushPeers_grew hpeers
  obtain ⟨hk, -⟩ := List.getElem?_eq_some_iff.1 hcols
  refine ⟨hgrew, grew_set hcols fun b hb => List.mem_insert_of_mem hb,
    List.forall_mem_singleton.2 ⟨_, List.getElem?_set_self hk, List.mem_insert_self⟩, ?_⟩
  intro hseen
  obtain ⟨cols', hcols', hmem⟩ := hseen (c, k) (List.mem_singleton_self _)
  have hsame : cols' = cols := Option.some.inj (hcols'.symm.trans hcols)
  obtain ⟨entries, size, hget, hentry⟩ := hall c ((order.cols_perm k cols).mem_iff.2 (hsame ▸ hmem))
  exact ⟨c, entries, size, hget, hentry⟩

theorem Sharing.Seen.grew {vs : List (Nat × Nat)} {s s' : Sharing} (h : s.Seen vs)
    (hgrew : Grew s.chunkReferencingCols s'.chunkReferencingCols) : s'.Seen vs := by
  intro v hv
  obtain ⟨cols, hcols, hmem⟩ := h v hv
  obtain ⟨cols', hcols', hsub⟩ := hgrew v.2 cols hcols
  exact ⟨cols', hcols', hsub hmem⟩

/-- **A column that comes to a chunk twice becomes its own peer.** -/
theorem ownPeer_of_visitAll {order : HashOrder} {sizes : List Nat} {vs : List (Nat × Nat)}
    {s s' : Sharing} (h : visitAll order sizes vs s = .ok s') :
    s'.Seen vs ∧ (¬ vs.Nodup → s'.OwnPeer) := by
  induction vs using List.reverseRecOn generalizing s' with
  | nil => exact ⟨fun v hv => absurd hv List.not_mem_nil, fun hnot => absurd List.nodup_nil hnot⟩
  | append_singleton vs v ih =>
      rw [visitAll_snoc, bind_eq_ok] at h
      obtain ⟨s₁, hs₁, hlast⟩ := h
      obtain ⟨hseen, hown⟩ := ih hs₁
      obtain ⟨hpeers, hcols, hself, hagain⟩ := visitChunk_grew hlast
      refine ⟨List.forall_mem_append.2 ⟨hseen.grew hcols, hself⟩, fun hnot => ?_⟩
      by_cases hvs : vs.Nodup
      · have hmem : v ∈ vs := by
          by_contra hnew
          refine hnot (List.nodup_append.2 ⟨hvs, List.nodup_singleton v, ?_⟩)
          intro x hx y hy hxy
          rw [List.mem_singleton.1 hy] at hxy
          exact hnew (hxy ▸ hx)
        exact hagain (List.forall_mem_singleton.2 (hseen v hmem))
      · exact (hown hvs).grew hpeers

/-! ## The visits of a file -/

/-- The visits in the order in which they are made. -/
def visitsOf (order : HashOrder) (references refs : List (List Nat)) : List (Nat × Nat) :=
  refs.zipIdx.flatMap fun p => (order.dicts p.2 p.1).flatMap fun dict =>
    ((references[dict]?).getD []).map fun chunk => (p.2, chunk)

variable {order : HashOrder} {sizes : List Nat} {references refs : List (List Nat)}

/-- The loops over columns, dictionaries and chunks make these visits. -/
theorem visitColumns_eq (h : ∀ set ∈ refs, ∀ dict ∈ set, dict < references.length) (s : Sharing) :
    refs.zipIdx.foldlM (visitColumn order sizes references) s =
      visitAll order sizes (visitsOf order references refs) s := by
  rw [visitAll, visitsOf, foldlM_flatMap]
  refine foldlM_congr fun p hp s => ?_
  rw [visitColumn, foldlM_flatMap]
  refine foldlM_congr fun dict hdict s => ?_
  have hlt := h p.1 (List.fst_mem_of_mem_zipIdx hp) dict
    ((order.dicts_perm p.2 p.1).mem_iff.1 hdict)
  have hget := List.getElem?_eq_getElem hlt
  rw [visitDict, (index_eq_ok _ _ _).2 hget, ok_bind, hget, Option.getD_some, List.foldlM_map]

theorem mem_visitsOf {c k : Nat} : (c, k) ∈ visitsOf order references refs ↔
    ∃ set dict ids, refs[c]? = some set ∧ dict ∈ set ∧ references[dict]? = some ids ∧ k ∈ ids := by
  simp only [visitsOf, List.mem_flatMap, List.mem_map, Prod.mk.injEq]
  constructor
  · rintro ⟨⟨set, c'⟩, hp, dict, hdict, k', hk, rfl, rfl⟩
    rw [List.mem_zipIdx_iff_getElem?] at hp
    cases hids : references[dict]? with
    | none =>
        rw [hids] at hk
        cases hk
    | some ids =>
        rw [hids] at hk
        exact ⟨set, dict, ids, hp, (order.dicts_perm _ _).mem_iff.1 hdict, hids, hk⟩
  · rintro ⟨set, dict, ids, hset, hdict, hids, hk⟩
    refine ⟨(set, c), List.mem_zipIdx_iff_getElem?.2 hset, dict,
      (order.dicts_perm _ _).mem_iff.2 hdict, k, ?_, rfl, rfl⟩
    rw [hids]
    exact hk

/-- Two dictionaries of one column have no chunk in common. -/
def Disjointed (references refs : List (List Nat)) : Prop :=
  ∀ set ∈ refs, ∀ dict ∈ set, ∀ dict' ∈ set, ∀ ids ids' : List Nat,
    references[dict]? = some ids → references[dict']? = some ids' →
      ∀ k ∈ ids, k ∈ ids' → dict = dict'

variable (order) in
/-- No column comes to a chunk twice if its dictionaries have no chunk in common. -/
theorem nodup_visitsOf (hids : ∀ ids ∈ references, ids.Nodup) (hsets : ∀ set ∈ refs, set.Nodup) :
    (visitsOf order references refs).Nodup ↔ Disjointed references refs := by
  have hpair : ∀ {p : Nat} {dict k : Nat},
      (p, k) ∈ ((references[dict]?).getD []).map (fun chunk => (p, chunk)) ↔
        ∃ ids, references[dict]? = some ids ∧ k ∈ ids := by
    intro p dict k
    rw [List.mem_map]
    constructor
    · rintro ⟨k', hk, heq⟩
      cases heq
      cases hget : references[dict]? with
      | none =>
          rw [hget] at hk
          cases hk
      | some ids =>
          rw [hget] at hk
          exact ⟨ids, rfl, hk⟩
    · rintro ⟨ids, hget, hk⟩
      rw [hget]
      exact ⟨k, hk, rfl⟩
  rw [visitsOf, List.nodup_flatMap]
  constructor
  · rintro ⟨hcolumns, -⟩ set hset dict hdict dict' hdict' ids ids' hget hget' k hk hk'
    obtain ⟨c, hc⟩ := List.mem_iff_getElem?.1 hset
    have hcolumn := (List.nodup_flatMap.1
      (hcolumns (set, c) (List.mem_zipIdx_iff_getElem?.2 hc))).2
    by_contra hne
    have hsymm : Std.Symm (Function.onFun List.Disjoint fun dict : Nat =>
        ((references[dict]?).getD []).map fun chunk => (c, chunk)) := ⟨fun _ _ h => h.symm⟩
    have hdisjoint := hcolumn.forall ((order.dicts_perm c set).mem_iff.2 hdict)
      ((order.dicts_perm c set).mem_iff.2 hdict') hne
    exact hdisjoint (hpair.2 ⟨ids, hget, hk⟩) (hpair.2 ⟨ids', hget', hk'⟩)
  · intro h
    constructor
    · rintro ⟨set, c⟩ hp
      have hset := List.fst_mem_of_mem_zipIdx hp
      refine List.nodup_flatMap.2 ⟨fun dict _ => ?_, ?_⟩
      · refine List.Nodup.map (fun _ _ heq => (Prod.mk.inj heq).2) ?_
        cases hget : references[dict]? with
        | none => exact List.nodup_nil
        | some ids => exact hids ids (List.mem_of_getElem? hget)
      · refine List.Nodup.pairwise_of_forall_ne
          ((order.dicts_perm c set).nodup_iff.2 (hsets set hset)) ?_
        intro dict hdict dict' hdict' hne
        rintro ⟨c', k⟩ hk hk'
        have hc : c' = c := by
          obtain ⟨_, -, heq⟩ := List.mem_map.1 hk
          exact (Prod.mk.inj heq).1.symm
        subst hc
        obtain ⟨ids, hget, hk⟩ := hpair.1 hk
        obtain ⟨ids', hget', hk'⟩ := hpair.1 hk'
        exact hne (h set hset dict ((order.dicts_perm c' set).mem_iff.1 hdict) dict'
          ((order.dicts_perm c' set).mem_iff.1 hdict') ids ids' hget hget' k hk hk')
    · -- the visits of two columns differ in the column
      refine List.Nodup.pairwise_of_forall_ne
        (List.Nodup.of_map Prod.snd (List.nodup_zipIdx_map_snd refs)) ?_
      rintro ⟨set, c⟩ hp ⟨set', c'⟩ hp' hne
      rintro ⟨a, k⟩ hk hk'
      have hcol : ∀ {set : List Nat} {c : Nat}, (a, k) ∈ (order.dicts c set).flatMap
          (fun dict : Nat => ((references[dict]?).getD []).map fun chunk => (c, chunk)) →
            a = c := by
        intro set c hmem
        obtain ⟨dict, -, hmem⟩ := List.mem_flatMap.1 hmem
        obtain ⟨_, -, heq⟩ := List.mem_map.1 hmem
        exact (Prod.mk.inj heq).1.symm
      have hcc : c = c' := (hcol hk).symm.trans (hcol hk')
      rw [List.mem_zipIdx_iff_getElem?] at hp hp'
      subst hcc
      have hset : set = set' := Option.some.inj (hp.symm.trans hp')
      exact hne (by rw [hset])

end Visits

/-! ## The statistics of a footer -/

section Footer

open FileReaderV2

variable {order : HashOrder} {footer : Footer} {cache : SharedDictionaryCache}

/-- What the walk relies on: the metadata has chunks, the dictionaries they refer to
are in the table, and the chunks of the table are there. -/
structure Resolvable (footer : Footer) (cache : SharedDictionaryCache) : Prop where
  chunks : ∀ g ∈ footer.rowGroupMetadatas, ∀ m ∈ g.columnMetadatas, m.columnChunks ≠ none
  dicts : ∀ e ∈ referencesOf footer.rowGroupMetadatas,
    e.2 < cache.dictionaryChunkReferences.length
  sizes : cache.dictionaryCompressedSizes.length = cache.dictionaryChunkReferences.length
  nodup : ∀ ids ∈ cache.dictionaryChunkReferences, ids.Nodup
  ids : ∀ ids ∈ cache.dictionaryChunkReferences, ∀ k ∈ ids, k < cache.dictionaryChunkSizes.length

/-- A column comes to a chunk through one of its dictionaries. -/
def ComesTo (footer : Footer) (cache : SharedDictionaryCache) (c k : Nat) : Prop :=
  ∃ (dict : Nat) (ids : List Nat), (c, dict) ∈ referencesOf footer.rowGroupMetadatas ∧
    cache.dictionaryChunkReferences[dict]? = some ids ∧ k ∈ ids

/-- No column comes to a chunk through two of its dictionaries. -/
def ComesOnce (footer : Footer) (cache : SharedDictionaryCache) : Prop :=
  ∀ (c dict dict' : Nat) (ids ids' : List Nat),
    (c, dict) ∈ referencesOf footer.rowGroupMetadatas →
    (c, dict') ∈ referencesOf footer.rowGroupMetadatas →
    cache.dictionaryChunkReferences[dict]? = some ids →
    cache.dictionaryChunkReferences[dict']? = some ids' → ∀ k ∈ ids, k ∈ ids' → dict = dict'

/-- The statistics are the meetings of the columns. -/
structure ExactPeers (footer : Footer) (cache : SharedDictionaryCache)
    (r : List EncodingCounter × List (List (Nat × Nat))) : Prop where
  counters : r.1.length = footer.schema.length
  columns : r.2.length = footer.schema.length
  peers : ∀ (a : Nat) (entries : List (Nat × Nat)), r.2[a]? = some entries →
    ∃ meets : List (Nat × Nat), meets.Nodup ∧
      (∀ b k, (b, k) ∈ meets ↔ b ≠ a ∧ ComesTo footer cache a k ∧ ComesTo footer cache b k) ∧
      entries.Perm (meets.map fun v => (v.1, (cache.dictionaryChunkSizes[v.2]?).getD 0))

variable (order) in
theorem counters_ok (h : Resolvable footer cache) {refs : List (List Nat)}
    (hrefs : ∀ set ∈ refs, ∀ dict ∈ set, dict < cache.dictionaryChunkReferences.length) :
    ∃ counters, collect (dictCounter order cache) refs.zipIdx = .ok counters := by
  refine collect_ok_of_forall fun p hp => ?_
  obtain ⟨sizes, hsizes⟩ : ∃ sizes, collect (fun dict => unwrapSome (cache.getDictSize dict))
      (order.dicts p.2 p.1) = .ok sizes := by
    refine collect_ok_of_forall fun dict hdict => ?_
    have hlt := hrefs p.1 (List.fst_mem_of_mem_zipIdx hp) dict
      ((order.dicts_perm p.2 p.1).mem_iff.1 hdict)
    rw [← h.sizes] at hlt
    exact ⟨_, (unwrapSome_eq_ok _ _).2 (List.getElem?_eq_getElem hlt)⟩
  exact ⟨_, by rw [dictCounter, hsizes, ok_bind]; rfl⟩

/-- A column of the sets comes to the chunks of its dictionaries. -/
theorem mem_visitsOf_inserted {n : Nat} {refs : List (List Nat)}
    (h : Inserted (referencesOf footer.rowGroupMetadatas) n refs)
    (hlt : ∀ e ∈ referencesOf footer.rowGroupMetadatas, e.1 < n) {c k : Nat} :
    (c, k) ∈ visitsOf order cache.dictionaryChunkReferences refs ↔ ComesTo footer cache c k := by
  rw [mem_visitsOf]
  constructor
  · rintro ⟨set, dict, ids, hset, hdict, hids, hk⟩
    exact ⟨dict, ids, (h.mem c set hset dict).1 hdict, hids, hk⟩
  · rintro ⟨dict, ids, he, hids, hk⟩
    have hc : c < refs.length := h.length ▸ hlt _ he
    have hset := List.getElem?_eq_getElem hc
    exact ⟨_, dict, ids, hset, (h.mem c _ hset dict).2 he, hids, hk⟩

theorem disjointed_iff {n : Nat} {refs : List (List Nat)}
    (h : Inserted (referencesOf footer.rowGroupMetadatas) n refs)
    (hlt : ∀ e ∈ referencesOf footer.rowGroupMetadatas, e.1 < n) :
    Disjointed cache.dictionaryChunkReferences refs ↔ ComesOnce footer cache := by
  constructor
  · intro hd c dict dict' ids ids' he he' hids hids' k hk hk'
    have hc : c < refs.length := h.length ▸ hlt _ he
    have hset := List.getElem?_eq_getElem hc
    exact hd _ (List.mem_of_getElem? hset) dict ((h.mem c _ hset dict).2 he) dict'
      ((h.mem c _ hset dict').2 he') ids ids' hids hids' k hk hk'
  · intro ho set hset dict hdict dict' hdict' ids ids' hids hids' k hk hk'
    obtain ⟨c, hc⟩ := List.mem_iff_getElem?.1 hset
    exact ho c dict dict' ids ids' ((h.mem c set hc dict).1 hdict) ((h.mem c set hc dict').1 hdict')
      hids hids' k hk hk'

variable (order) in
/-- **The statistics are exact if and only if** every column with a shared dictionary
has a field, and comes to a chunk through one of its dictionaries. -/
theorem exactPeers_iff (h : Resolvable footer cache) :
    (∃ r, getSharedDictSizeBasedOnFooter order footer cache = .ok r ∧
      ExactPeers footer cache r) ↔
      (∀ e ∈ referencesOf footer.rowGroupMetadatas, e.1 < footer.schema.length) ∧
        ComesOnce footer cache := by
  have hdictsOf : ∀ {refs : List (List Nat)},
      Inserted (referencesOf footer.rowGroupMetadatas) footer.schema.length refs →
        ∀ set ∈ refs, ∀ dict ∈ set, dict < cache.dictionaryChunkReferences.length := by
    intro refs hinserted set hset dict hdict
    obtain ⟨c, hc⟩ := List.mem_iff_getElem?.1 hset
    exact h.dicts _ ((hinserted.mem c set hc dict).1 hdict)
  unfold getSharedDictSizeBasedOnFooter
  rw [referencedDicts_eq h.chunks]
  constructor
  · rintro ⟨r, hr, hexact⟩
    simp only [bind_eq_ok, pure_eq_ok, Except.ok.injEq] at hr
    obtain ⟨refs, hrefs, s, hs, counters, -, rfl⟩ := hr
    have hlt := (lt_of_insertAll hrefs).2
    rw [List.length_replicate] at hlt
    obtain ⟨refs', hrefs', hinserted⟩ := insertAll_ok hlt
    rw [hrefs] at hrefs'
    cases hrefs'
    refine ⟨hlt, ?_⟩
    rw [← disjointed_iff hinserted hlt, ← nodup_visitsOf order h.nodup hinserted.nodup]
    by_contra hnot
    rw [visitColumns_eq (hdictsOf hinserted)] at hs
    obtain ⟨c, entries, size, hget, hmem⟩ := (ownPeer_of_visitAll hs).2 hnot
    obtain ⟨meets, -, hmeets, hperm⟩ := hexact.peers c entries hget
    obtain ⟨v, hv, heq⟩ := List.mem_map.1 (hperm.mem_iff.1 hmem)
    have hne := ((hmeets v.1 v.2).1 hv).1
    exact hne (Prod.mk.inj heq).1
  · rintro ⟨hlt, honce⟩
    obtain ⟨refs, hrefs, hinserted⟩ := insertAll_ok hlt
    have hvisits : ∀ v ∈ visitsOf order cache.dictionaryChunkReferences refs,
        v.1 < footer.schema.length ∧ v.2 < cache.dictionaryChunkSizes.length := by
      rintro ⟨c, k⟩ hv
      obtain ⟨dict, ids, he, hids, hk⟩ := (mem_visitsOf_inserted hinserted hlt).1 hv
      exact ⟨hlt (c, dict) he, h.ids ids (List.mem_of_getElem? hids) k hk⟩
    have hnodup := (nodup_visitsOf order h.nodup hinserted.nodup).2
      ((disjointed_iff hinserted hlt).2 honce)
    obtain ⟨s, hs, hafter⟩ := visitAll_ok order hnodup hvisits
    obtain ⟨counters, hcounters⟩ := counters_ok order h (hdictsOf hinserted)
    have hlen := length_of_collect hcounters
    rw [List.length_zipIdx, hinserted.length] at hlen
    refine ⟨(counters, s.sharingPeers), ?_, hlen, hafter.columns, ?_⟩
    · rw [hrefs, ok_bind, visitColumns_eq (hdictsOf hinserted), hs, ok_bind, hcounters, ok_bind]
      rfl
    · intro a entries hget
      refine ⟨meetings _ a, nodup_meetings hnodup a, ?_, hafter.peers a entries hget⟩
      intro b k
      rw [mem_meetings, mem_visitsOf_inserted hinserted hlt, mem_visitsOf_inserted hinserted hlt]
      tauto

end Footer

end F3Format
