import SeqCache.Invariant.Planning

/-!
# Carrying out evictions

`commitEvictions` removes the planned entries, drops their references and retires the
pages no one holds any longer.  When it fails, nothing has changed but the history of the
backend.
-/

namespace SeqCache

open Machine Program Std

variable {R : Runtime}

/-! ## The index and the LRU set -/

section Removal

variable {pageTokens : ℕ} {stray : List TokenBlockId} {index : PrefixIndex R}
variable {prefixes : Prefixes R.Snapshot} {id : PrefixEntryId} {entry : PrefixEntry R.Snapshot}

theorem Filed.remove (h : Filed pageTokens stray index prefixes)
    (hentry : prefixes[id]? = some entry) :
    ∃ index', PrefixIndex.remove entry.key entry.blocks index = .ok () index' ∧
      Filed pageTokens stray index' (prefixes.erase id) ∧
      index'.nextBlockId = index.nextBlockId ∧
      ∀ block tokens, index'.tokensOf block = some tokens →
        index.tokensOf block = some tokens := by
  have hcount : ∀ block, blockCount prefixes stray block =
      blockCount (prefixes.erase id) stray block + entry.blocks.count block := by
    intro block
    have := mapTotal_erase (fun entry : PrefixEntry R.Snapshot => entry.blocks.count block) hentry
    unfold blockCount
    omega
  have hremoved := h.table.setTree (R.removeK index.tree entry.key)
  obtain ⟨index', hrun, htable, htree, hnext, htokens⟩ := PrefixIndex.releaseEach_spec
    "prefix token block remains interned" entry.blocks hremoved.toConsistent fun block => by
      rw [hcount]
      exact Nat.le_add_left _ _
  have hold : ∀ (other : PrefixEntryId) (found : PrefixEntry R.Snapshot),
      (prefixes.erase id)[other]? = some found → other ≠ id ∧ prefixes[other]? = some found := by
    intro other found hfound
    rw [getElem?_erase_eq] at hfound
    split_ifs at hfound with heq
    exact ⟨heq, hfound⟩
  refine ⟨index', ?_, ⟨?_, ?_, ?_, ?_⟩, hnext, htokens⟩
  · unfold PrefixIndex.remove
    rw [modify_bind_run]
    exact hrun
  · refine (htable.congr fun block => ?_).interned fun other tokens hother =>
      h.table.length_tokensOf (htokens other tokens hother)
    rw [hcount, Nat.add_sub_cancel]
  · intro key other
    rw [htree, R.getBytes_removeK]
    split_ifs with heq
    · subst heq
      simp only [false_iff, not_exists, not_and]
      intro found hfound hkey
      obtain ⟨hne, hfound⟩ := hold other found hfound
      have hleft := (h.tree entry.key id).mpr ⟨entry, hentry, rfl⟩
      have hright := (h.tree entry.key other).mpr ⟨found, hfound, hkey⟩
      rw [hleft] at hright
      exact hne (Option.some.inj hright).symm
    · rw [h.tree]
      constructor
      · rintro ⟨found, hfound, rfl⟩
        refine ⟨found, ?_, rfl⟩
        rw [getElem?_erase_eq, if_neg, hfound]
        rintro rfl
        rw [hentry] at hfound
        exact heq (congrArg PrefixEntry.key (Option.some.inj hfound)).symm
      · rintro ⟨found, hfound, hkey⟩
        exact ⟨found, (hold other found hfound).2, hkey⟩
  · exact fun other found hfound => h.key_eq other found (hold other found hfound).2
  · exact fun other found hfound => h.length_blocks other found (hold other found hfound).2

theorem Ranked.erase {lru : LruSet} (h : Ranked prefixes lru)
    (hentry : prefixes[id]? = some entry) :
    Ranked (prefixes.erase id) (lru.erase (entry.lastUsed, id)) := by
  intro used other
  rw [ExtTreeSet.mem_erase, h used other]
  constructor
  · rintro ⟨hne, found, hfound, rfl⟩
    refine ⟨found, ?_, rfl⟩
    rw [getElem?_erase_eq, if_neg, hfound]
    rintro rfl
    obtain rfl : entry = found := by simpa [hentry] using hfound
    exact hne ReflCmp.compare_self
  · rintro ⟨found, hfound, rfl⟩
    rw [getElem?_erase_eq] at hfound
    split_ifs at hfound with heq
    refine ⟨fun hcompare => heq ?_, found, hfound, rfl⟩
    exact (congrArg Prod.snd (LawfulEqCmp.eq_of_compare hcompare)).symm

theorem Clocked.eraseAll {clock : ℕ} (h : Clocked prefixes clock) (ids : List PrefixEntryId) :
    Clocked (SeqCache.eraseAll prefixes ids) clock := by
  refine ⟨fun id entry hentry => h.used_le id entry ?_, h.bounded⟩
  rw [getElem?_eraseAll] at hentry
  split_ifs at hentry
  exact hentry

end Removal

namespace SequenceCache

variable {cache : SequenceCache R} {entries : List PrefixEntryId}

theorem onIndex_ok {α : Type} {program : PrefixIndex.IndexM R α} {value : α}
    {index' : PrefixIndex R} (h : program cache.index = .ok value index') :
    onIndex program cache = .ok value { cache with index := index' } := by
  simp only [onIndex, zoom, h]

theorem onIndex_error {α : Type} {program : PrefixIndex.IndexM R α} {failure : Failure R.Error}
    {index' : PrefixIndex R} (h : program cache.index = .error failure index') :
    onIndex program cache = .error failure { cache with index := index' } := by
  simp only [onIndex, zoom, h]

/-! ## Removing the entries -/

theorem removedBy_ok (bytes : ℕ) (removed : List PageId)
    (hlive : ∀ id ∈ entries, ∃ entry, cache.prefixes[id]? = some entry)
    (hroom : bytes + cache.snapshotsOf entries ≤ usizeMax) :
    cache.removedBy entries bytes removed =
      .ok (bytes + cache.snapshotsOf entries, removed ++ cache.pagesOf entries) := by
  induction entries generalizing bytes removed with
  | nil => simp [removedBy, snapshotsOf, pagesOf, valuesOf]; rfl
  | cons id rest ih =>
      obtain ⟨entry, hentry⟩ := hlive id (by simp)
      have hcons : cache.snapshotsOf (id :: rest) =
          entry.snapshotBytes + cache.snapshotsOf rest := by
        simp [snapshotsOf, valuesOf, hentry]
      have hpages : cache.pagesOf (id :: rest) = entry.pages ++ cache.pagesOf rest := by
        simp [pagesOf, valuesOf, hentry]
      rw [hcons] at hroom
      rw [removedBy, hentry, okOr_some, pure_bind, checkedAdd_of_le (by omega),
        okOr_some, pure_bind,
        ih _ _ (fun other hmem => hlive other (List.mem_cons_of_mem _ hmem)) (by omega),
        hcons, hpages, Nat.add_assoc, List.append_assoc]

/-- The state after the listed entries are gone and their references are dropped. -/
structure Dropped (cache cache' : SequenceCache R) (stray : List TokenBlockId)
    (entries : List PrefixEntryId) : Prop where
  state : cache' = { cache.putPages cache'.pages with
    prefixes := eraseAll cache.prefixes entries
    lru := cache'.lru
    index := cache'.index }
  pages : Arena.Updated (fun id page =>
      { page with prefixRefs := page.prefixRefs - (cache.pagesOf entries).count id })
    cache.pages cache'.pages
  filed : Filed cache.config.pageTokens stray cache'.index (eraseAll cache.prefixes entries)
  ranked : Ranked (eraseAll cache.prefixes entries) cache'.lru
  next : cache'.index.nextBlockId = cache.index.nextBlockId
  tokens : ∀ block tokens, cache'.index.tokensOf block = some tokens →
    cache.index.tokensOf block = some tokens

theorem removeEntries_ok {retired : List PageId} {stray : List TokenBlockId}
    (hself : cache.putPages cache.pages = cache)
    (hbytes : cache.pages.values.length * cache.pageBytes ≤ usizeMax)
    (hnodup : entries.Nodup)
    (hlive : ∀ id ∈ entries, ∃ entry, cache.prefixes[id]? = some entry)
    (hfiled : Filed cache.config.pageTokens stray cache.index cache.prefixes)
    (hranked : Ranked cache.prefixes cache.lru)
    (hgone : ∀ id ∈ retired, cache.pages.get? id = none)
    (hkept : ∀ id ∈ cache.pagesOf entries, id ∉ retired → ∃ page, cache.pages.get? id = some page ∧
      (cache.pagesOf entries).count id ≤ page.prefixRefs) :
    ∃ cache', removeEntries retired entries cache = .ok () cache' ∧
      Dropped cache cache' stray entries := by
  induction entries generalizing cache with
  | nil =>
      refine ⟨cache, rfl, ?_, ?_, hfiled, hranked, rfl, fun _ _ htokens => htokens⟩
      · exact hself.symm
      · exact (Arena.Updated.refl _).congr fun _ _ _ => by simp [pagesOf, valuesOf]
  | cons id rest ih =>
      obtain ⟨hnot, hrest⟩ := List.nodup_cons.mp hnodup
      obtain ⟨entry, hentry⟩ := hlive id (by simp)
      obtain ⟨index', hremove, hfiled', hnext, htokens⟩ := hfiled.remove hentry
      have hpages : cache.pagesOf (id :: rest) = entry.pages ++ cache.pagesOf rest := by
        simp [pagesOf, valuesOf, hentry]
      obtain ⟨pages', hvisit, hvisited⟩ := @decrementKept_ok R { cache with
          prefixes := cache.prefixes.erase id
          lru := cache.lru.erase (entry.lastUsed, id)
          index := index' } _ retired entry.pages hbytes hgone (by
        intro page hmem hnotin
        obtain ⟨found, hfound, hcount⟩ := hkept page
          (by rw [hpages]; exact List.mem_append_left _ hmem) hnotin
        refine ⟨found, hfound, ?_⟩
        rw [hpages, List.count_append] at hcount
        omega)
      let middle : SequenceCache R :=
        { cache.putPages pages' with
          prefixes := cache.prefixes.erase id
          lru := cache.lru.erase (entry.lastUsed, id)
          index := index' }
      have hother : ∀ other ∈ rest, (cache.prefixes.erase id)[other]? = cache.prefixes[other]? := by
        intro other hmem
        rw [getElem?_erase_eq, if_neg]
        rintro rfl
        exact hnot hmem
      have hvalues : valuesOf (cache.prefixes.erase id) rest = valuesOf cache.prefixes rest := by
        unfold valuesOf
        exact List.filterMap_congr hother
      have hmiddle : middle.pagesOf rest = cache.pagesOf rest := by
        simp only [pagesOf, middle, hvalues]
      obtain ⟨cache', hrun, hdropped⟩ := @ih middle rfl
        (by
          change pages'.values.length * cache.pageBytes ≤ usizeMax
          rwa [hvisited.length_values])
        hrest
        (by
          intro other hmem
          change ∃ entry, (cache.prefixes.erase id)[other]? = some entry
          rw [hother other hmem]
          exact hlive other (List.mem_cons_of_mem _ hmem))
        hfiled' (hranked.erase hentry)
        (by
          intro page hmem
          change pages'.get? page = none
          rw [hvisited.get?, hgone page hmem]
          rfl)
        (by
          intro page hmem hnotin
          rw [hmiddle] at hmem ⊢
          obtain ⟨found, hfound, hcount⟩ := hkept page
            (by rw [hpages]; exact List.mem_append_right _ hmem) hnotin
          refine ⟨{ found with prefixRefs := found.prefixRefs - entry.pages.count page }, ?_, ?_⟩
          · change pages'.get? page = _
            rw [hvisited.get?, hfound]
            rfl
          · rw [hpages, List.count_append] at hcount
            simp only
            omega)
      refine ⟨cache', ?_, ?_, ?_, ?_, ?_, ?_, ?_⟩
      · rw [removeEntries, get_bind_run, hentry, okOr_some, pure_bind_run, modify_bind_run,
          bind_ok (@onIndex_ok R { cache with
            prefixes := cache.prefixes.erase id
            lru := cache.lru.erase (entry.lastUsed, id) } _ _ _ _ hremove)]
        have hstart : ({ cache with
            prefixes := cache.prefixes.erase id
            lru := cache.lru.erase (entry.lastUsed, id)
            index := index' } : SequenceCache R) =
            ({ cache with
              prefixes := cache.prefixes.erase id
              lru := cache.lru.erase (entry.lastUsed, id)
              index := index' } : SequenceCache R).putPages cache.pages := by
          conv_lhs => rw [← hself]
          rfl
        simp only
        rw [hstart, bind_ok hvisit]
        exact hrun
      · rw [hdropped.state]
        rfl
      · refine (hvisited.trans hdropped.pages).congr fun page record _ => ?_
        rw [hmiddle, hpages, List.count_append]
        simp only [PageRecord.mk.injEq, true_and, and_true]
        omega
      · exact hdropped.filed
      · exact hdropped.ranked
      · exact hdropped.next.trans hnext
      · exact fun block tokens hblock => htokens block tokens (hdropped.tokens block tokens hblock)

/-! ## Whole evictions -/

/-- Pages that evicting `entries` retires, in the order of the hash map. -/
def evictionBatch (cache : SequenceCache R) (entries : List PrefixEntryId) : List PageId :=
  (R.hashOrder cache.backend (cache.pagesOf entries).dedup).filter
    (cache.lastHeld (cache.pagesOf entries))

theorem evictionBatch_perm (cache : SequenceCache R) (entries : List PrefixEntryId) :
    (cache.evictionBatch entries).Perm (cache.freedBy (cache.pagesOf entries)) :=
  (R.hashOrder_perm _ _).filter _

/-- What a successful eviction of `entries` does: the pages `retired`, with storage
`physical`, went to the backend, which deferred `deferred` of them. -/
structure Evicted (cache cache' : SequenceCache R) (entries : List PrefixEntryId)
    (context : R.Context) (retired : List PageId) (physical : List R.Page) (deferred : ℕ) :
    Prop where
  config : cache'.config = cache.config
  pageBytes : cache'.pageBytes = cache.pageBytes
  pageCapacity : cache'.pageCapacity = cache.pageCapacity
  sequences : cache'.sequences = cache.sequences
  nextPrefixId : cache'.nextPrefixId = cache.nextPrefixId
  clock : cache'.clock = cache.clock
  appendNonce : cache'.appendNonce = cache.appendNonce
  prefixes : cache'.prefixes = eraseAll cache.prefixes entries
  order : cache'.recency = cache.recency.filter (· ∉ entries)
  batch : retired = cache.evictionBatch entries
  retired_perm : retired.Perm (cache.freedBy (cache.pagesOf entries))
  pages : ∀ id, cache'.pages.get? id = if id ∈ retired then none else
    (cache.pages.get? id).map fun page =>
      { page with prefixRefs := page.prefixRefs - (cache.pagesOf entries).count id }
  advances : Arena.Advances cache.pages cache'.pages
  upcoming : cache'.pages.upcoming 0 = match retired.getLast? with
    | some id => Handle.new id.slot (id.generation + 1)
    | none => cache.pages.upcoming 0
  removable : ∀ id ∈ retired, id.generation ≠ u32Max
  length_pages : cache.pages.values.length = cache'.pages.values.length + retired.length
  stored : Stored cache.pages retired physical
  retirement : Retirement context physical deferred cache.backend cache'.backend
  deferredPages : cache'.deferredPages = cache.deferredPages + deferred
  deferred_le : deferred ≤ retired.length
  reservedPages : cache'.stats.reservedPages = cache.stats.reservedPages
  privateStateBytes : cache'.stats.activePrivateStateBytes = cache.stats.activePrivateStateBytes
  pageTableBytes : cache'.stats.pageTableBytes = cache.stats.pageTableBytes
  snapshotBytes : cache.stats.retainedSnapshotBytes =
    cache'.stats.retainedSnapshotBytes + cache.snapshotsOf entries
  resident_le : cache'.stats.residentPages + retired.length ≤ cache.stats.residentPages + deferred
  resident_ge : cache.residentNow ≤ cache.stats.residentPages →
    cache'.residentNow ≤ cache'.stats.residentPages
  total_eq : cache.stats.totalManagedBytes = cache.chargedBytes cache.stats.residentPages →
    cache'.stats.totalManagedBytes = cache'.chargedBytes cache'.stats.residentPages
  next : cache'.index.nextBlockId = cache.index.nextBlockId
  tokens : ∀ block tokens, cache'.index.tokensOf block = some tokens →
    cache.index.tokensOf block = some tokens

end SequenceCache

theorem Retirement.deferredTotal_eq {context : R.Context} {physical : List R.Page}
    {deferred : ℕ} {history history' : R.History}
    (h : Retirement context physical deferred history history') :
    deferredTotal history' = deferredTotal history + deferred := by
  rcases h with ⟨-, rfl, rfl⟩ | ⟨outcome, -, rfl, rfl⟩ <;> rfl

/-- From planning to retirement the backend saw nothing but preparations. -/
def Prepares (history history' : R.History) : Prop :=
  ∃ prepared, history' = prepared ++ history ∧ ∀ event ∈ prepared, event.isPreparation = true

theorem Prepares.refl (history : R.History) : Prepares history history :=
  ⟨[], rfl, fun _ hmem => absurd hmem List.not_mem_nil⟩

theorem Prepares.cons {history history' : R.History} {event : R.Event}
    (h : Prepares history history') (hevent : event.isPreparation = true) :
    Prepares history (event :: history') := by
  obtain ⟨prepared, rfl, hall⟩ := h
  exact ⟨event :: prepared, rfl, List.forall_mem_cons.mpr ⟨hevent, hall⟩⟩

/-- Preparations are no retirements. -/
theorem Prepares.breached {start middle last : SequenceCache R} {failure : Failure R.Error}
    (h : Prepares start.backend middle.backend) (hpages : middle.pages = start.pages)
    (hbreached : SequenceCache.Breached middle failure last) :
    SequenceCache.Breached start failure last := by
  obtain ⟨prepared, heq, hall⟩ := h
  exact hbreached.after heq hpages fun event hmem =>
    BackendEvent.isRetirement_of_isPreparation (hall event hmem)

/-- A backend that promised immediate retirement when the evictions were planned defers
nothing when they are carried out. -/
theorem Retirement.deferred_of_immediate {context : R.Context} {physical : List R.Page}
    {deferred : ℕ} {history history' earlier : R.History}
    (h : Retirement context physical deferred history history') (hhonest : R.ImmediateHonest)
    (hprepares : Prepares earlier history)
    (himmediate : R.retirementIsImmediate earlier = true) : deferred = 0 := by
  rcases h with ⟨-, hzero, -⟩ | ⟨outcome, hanswer, -, rfl⟩
  · exact hzero
  · obtain ⟨prepared, rfl, hall⟩ := hprepares
    exact hhonest.never_deferred _ _ _ _ _ himmediate hall hanswer

/-- Everything but the statistics is in order, and refreshing them will not overflow. -/
structure Ready (orphans : List PageId) (stray : List TokenBlockId) (cache : SequenceCache R) :
    Prop where
  config : ConfigOk cache
  owned : Owned orphans cache.config.pageTokens cache.pages cache.sequences cache.prefixes
  counted : Counted cache
  held_le : cache.chargedBytes cache.pages.values.length ≤ cache.config.maxManagedBytes
  charged_le : cache.chargedBytes cache.residentNow ≤ 2 * cache.config.maxManagedBytes
  snapshot_le : cache.stats.retainedSnapshotBytes ≤ cache.config.maxSnapshotBytes
  entries_le : ∀ limit, cache.config.maxPrefixEntries = some limit → cache.prefixes.size ≤ limit
  filed : Filed cache.config.pageTokens stray cache.index cache.prefixes
  ranked : Ranked cache.prefixes cache.lru
  clocked : Clocked cache.prefixes cache.clock
  ids_below : ∀ id : PrefixEntryId, id ∈ cache.prefixes → id < cache.nextPrefixId
  ids_bounded : cache.nextPrefixId ≤ usizeMax

theorem Ready.refresh {orphans : List PageId} {stray : List TokenBlockId}
    {cache : SequenceCache R} (h : Ready orphans stray cache) :
    SequenceCache.refreshStats cache = .ok () cache.refresh ∧ Inv orphans stray cache.refresh := by
  have hdouble : 2 * cache.config.maxManagedBytes ≤ usizeMax := by
    have := h.config.maxManagedBytes_le
    unfold i64Max at this
    unfold usizeMax
    omega
  refine ⟨SequenceCache.refreshStats_ok h.owned.pages_wf h.owned.sequences_wf
    h.config.pageBytes_pos (h.charged_le.trans hdouble), ?_⟩
  obtain ⟨c1, c2, c3, c4, c5, c6⟩ := h.config
  obtain ⟨n1, n2, n3, n4, n5, n6⟩ := h.counted
  exact ⟨⟨c1, c2, c3, c4, c5, c6⟩, h.owned, ⟨n1, n2, n3, n4, n5, n6⟩,
    ⟨rfl, le_rfl, fun _ => rfl, fun _ => rfl, rfl⟩,
    ⟨h.held_le, h.charged_le, h.snapshot_le, h.entries_le⟩, h.filed, h.ranked, h.clocked,
    h.ids_below, h.ids_bounded⟩

namespace SequenceCache

section Commit

variable {cache : SequenceCache R} {entries : List PrefixEntryId} {orphans : List PageId}
variable {stray : List TokenBlockId}

/-- Pages that lose their last reference belong to a retained entry, so they have storage. -/
theorem freedBy_live (hinv : Inv orphans stray cache) (id : PageId)
    (hmem : id ∈ cache.freedBy (cache.pagesOf entries)) :
    ∃ page, cache.pages.get? id = some page ∧ page.physical.isSome := by
  have hpages := List.mem_dedup.mp (List.mem_filter.mp hmem).1
  obtain ⟨key, -, entry, hentry, hpage⟩ := mem_pagesOf.mp hpages
  obtain ⟨page, hlive, hphysical, -⟩ := (hinv.owned.entry key entry hentry).held id hpage
  exact ⟨page, hlive, hphysical⟩

/-- Removing entries keeps the order of the others. -/
theorem recency_eraseAll {lru : LruSet} (hranked : Ranked cache.prefixes cache.lru)
    (hranked' : Ranked (eraseAll cache.prefixes entries) lru) :
    keysByTime lru = cache.recency.filter (· ∉ entries) := by
  refine keysByTime_filter fun used id => ?_
  rw [hranked' used id, hranked used id, getElem?_eraseAll]
  by_cases hmem : id ∈ entries <;> simp [hmem]

theorem evicted_nil (cache : SequenceCache R) (context : R.Context) :
    Evicted cache cache [] context [] [] 0 where
  config := rfl
  pageBytes := rfl
  pageCapacity := rfl
  sequences := rfl
  nextPrefixId := rfl
  clock := rfl
  appendNonce := rfl
  prefixes := rfl
  order := by simp
  batch := by
    have hperm : (R.hashOrder cache.backend []).Perm [] := R.hashOrder_perm _ _
    simp [evictionBatch, pagesOf, valuesOf, List.perm_nil.mp hperm]
  retired_perm := List.Perm.refl _
  pages := fun id => by
    cases cache.pages.get? id <;> simp [pagesOf, valuesOf]
  advances := Arena.Advances.refl _
  upcoming := rfl
  removable := by simp
  length_pages := rfl
  stored := rfl
  retirement := Or.inl ⟨rfl, rfl, rfl⟩
  deferredPages := rfl
  deferred_le := le_rfl
  reservedPages := rfl
  privateStateBytes := rfl
  pageTableBytes := rfl
  snapshotBytes := rfl
  resident_le := le_rfl
  resident_ge := id
  total_eq := id
  next := rfl
  tokens := fun _ _ htokens => htokens

/-- Pages no one holds any longer, as the release of references describes them. -/
theorem releases_evicted {retired : List PageId} {pages pages' : Pages R.Page}
    (hretired : retired.Perm (cache.freedBy (cache.pagesOf entries)))
    (hremoved : Removed cache.pages pages retired)
    (hupdated : Arena.Updated (fun id page =>
      { page with prefixRefs := page.prefixRefs - (cache.pagesOf entries).count id })
        pages pages') :
    Releases cache.pages pages' [] (cache.pagesOf entries) retired []
      fun id page =>
        { page with prefixRefs := page.prefixRefs - (cache.pagesOf entries).count id } := by
  refine ⟨hupdated.wf hremoved.wf, ?_, fun _ _ _ => by simp, fun _ _ _ => rfl,
    fun _ _ _ _ => ⟨rfl, rfl, rfl⟩, by simp, ?_⟩
  · intro id
    rw [hupdated.get?, hremoved.get?]
    split_ifs <;> rfl
  · intro id page hpage
    rw [hretired.mem_iff, mem_freedBy hpage]
    simp

/-- The entries are gone and the pages `retired` were handed over, but the statistics are not
refreshed yet. -/
structure Cleared (cache cache' : SequenceCache R) (stray : List TokenBlockId)
    (entries : List PrefixEntryId) (context : R.Context) (retired : List PageId)
    (physical : List R.Page) (deferred : ℕ) : Prop where
  state : cache' = { cache with
    pages := cache'.pages
    prefixes := eraseAll cache.prefixes entries
    lru := cache'.lru
    index := cache'.index
    backend := cache'.backend
    deferredPages := cache.deferredPages + deferred
    stats := { cache.stats with
      reclaimablePrefixOnlyBytes :=
        cache'.pages.values.countP PageRecord.isReclaimable * cache.pageBytes
      retainedSnapshotBytes := cache.stats.retainedSnapshotBytes - cache.snapshotsOf entries } }
  batch : retired = cache.evictionBatch entries
  releases : Releases cache.pages cache'.pages [] (cache.pagesOf entries) retired []
    fun id page => { page with prefixRefs := page.prefixRefs - (cache.pagesOf entries).count id }
  advances : Arena.Advances cache.pages cache'.pages
  upcoming : cache'.pages.upcoming 0 = match retired.getLast? with
    | some id => Handle.new id.slot (id.generation + 1)
    | none => cache.pages.upcoming 0
  removable : ∀ id ∈ retired, id.generation ≠ u32Max
  length_pages : cache.pages.values.length = cache'.pages.values.length + retired.length
  stored : Stored cache.pages retired physical
  retirement : Retirement context physical deferred cache.backend cache'.backend
  deferred_le : deferred ≤ retired.length
  filed : Filed cache.config.pageTokens stray cache'.index (eraseAll cache.prefixes entries)
  ranked : Ranked (eraseAll cache.prefixes entries) cache'.lru
  next : cache'.index.nextBlockId = cache.index.nextBlockId
  tokens : ∀ block tokens, cache'.index.tokensOf block = some tokens →
    cache.index.tokensOf block = some tokens

namespace Cleared

variable {cache' : SequenceCache R} {context : R.Context} {retired : List PageId}
variable {physical : List R.Page} {deferred : ℕ}

theorem owned (h : Cleared cache cache' stray entries context retired physical deferred)
    (hinv : Inv orphans stray cache) (hnodup : entries.Nodup)
    (hlive : ∀ id ∈ entries, ∃ entry, cache.prefixes[id]? = some entry) :
    Owned orphans cache.config.pageTokens cache'.pages cache.sequences
      (eraseAll cache.prefixes entries) := by
  refine hinv.owned.release h.releases hinv.owned.sequences_wf (by simp)
    (prefixCount_eraseAll hnodup hlive) (fun id record hrecord => Or.inl ⟨hrecord, by simp⟩) ?_
  intro id entry hentry
  rw [getElem?_eraseAll] at hentry
  split_ifs at hentry
  exact hentry

theorem counted (h : Cleared cache cache' stray entries context retired physical deferred)
    (hinv : Inv orphans stray cache) (hnodup : entries.Nodup)
    (hlive : ∀ id ∈ entries, ∃ entry, cache.prefixes[id]? = some entry) : Counted cache' := by
  have hdeferred := h.retirement.deferredTotal_eq
  have hsum := mapTotal_eraseAll PrefixEntry.snapshotBytes hnodup hlive
  obtain ⟨h1, h2, h3, h4, -, h6⟩ := hinv.counted
  rw [h.state]
  refine ⟨h1, h2, h3, ?_, rfl, ?_⟩
  · simp only [snapshotsOf]
    omega
  · simp only
    rw [h6, hdeferred]

/-- Handing pages over leaves no more of them charged. -/
theorem resident_mul_le (h : Cleared cache cache' stray entries context retired physical deferred) :
    (cache'.pages.values.length + (cache.deferredPages + deferred)) * cache.pageBytes ≤
      (cache.pages.values.length + cache.deferredPages) * cache.pageBytes := by
  apply Nat.mul_le_mul_right
  have hlength := h.length_pages
  have hdeferred := h.deferred_le
  omega

theorem ready (h : Cleared cache cache' stray entries context retired physical deferred)
    (hinv : Inv orphans stray cache) (hnodup : entries.Nodup)
    (hlive : ∀ id ∈ entries, ∃ entry, cache.prefixes[id]? = some entry) :
    Ready orphans stray cache' := by
  have howned := h.owned hinv hnodup hlive
  have hcounted := h.counted hinv hnodup hlive
  have hsize := size_eraseAll hnodup hlive
  have hkept := Nat.mul_le_mul_right cache.pageBytes (Nat.le.intro h.length_pages.symm)
  have hresident_mul := h.resident_mul_le
  have hbefore := Nat.mul_le_mul_right cache.pageBytes hinv.published.resident_le
  have hheld := hinv.budgeted.held_le
  have hcharged := hinv.charged_le
  have hsnapshot := hinv.budgeted.snapshot_le
  have hconfig := hinv.config
  unfold residentNow at hbefore
  unfold chargedBytes at hheld hcharged
  rw [h.state] at hcounted ⊢
  constructor
  case config =>
    obtain ⟨h1, h2, h3, h4, h5, h6⟩ := hconfig
    exact ⟨h1, h2, h3, h4, h5, h6⟩
  case owned => exact howned
  case counted => exact hcounted
  case held_le =>
    simp only [chargedBytes]
    omega
  case charged_le =>
    simp only [chargedBytes, residentNow]
    omega
  case snapshot_le =>
    simp only
    omega
  case entries_le =>
    intro limit hlimit
    have hentries := hinv.budgeted.entries_le limit hlimit
    simp only
    omega
  case filed => exact h.filed
  case ranked => exact h.ranked
  case clocked => exact hinv.clocked.eraseAll entries
  case ids_below =>
    intro id hmem
    apply hinv.ids_below
    rw [ExtTreeMap.mem_iff_isSome_getElem?] at hmem ⊢
    rw [getElem?_eraseAll] at hmem
    split_ifs at hmem
    · exact absurd hmem (by simp)
    · exact hmem
  case ids_bounded => exact hinv.ids_bounded

/-- Refreshing the statistics completes the evictions. -/
theorem evicted (h : Cleared cache cache' stray entries context retired physical deferred)
    (hinv : Inv orphans stray cache) (hnodup : entries.Nodup)
    (hlive : ∀ id ∈ entries, ∃ entry, cache.prefixes[id]? = some entry) :
    Evicted cache cache'.refresh entries context retired physical deferred := by
  have hsum := snapshotsOf_le hinv.counted hnodup hlive
  have hresident := hinv.published.resident_le
  have hless := h.length_pages
  have horder := recency_eraseAll hinv.ranked h.ranked
  obtain ⟨hstate, hbatch, hreleases, hadvances, hupcoming, hremovable, hlength, hstored,
    hretirement, hdeferred_le, -, -, hnext, htokens⟩ := h
  generalize cache'.pages = pages at *
  generalize cache'.lru = lru at *
  generalize cache'.index = index at *
  generalize cache'.backend = history at *
  subst hstate
  unfold residentNow at hresident
  exact
    { config := rfl
      pageBytes := rfl
      pageCapacity := rfl
      sequences := rfl
      nextPrefixId := rfl
      clock := rfl
      appendNonce := rfl
      prefixes := rfl
      order := horder
      batch := hbatch
      retired_perm := hbatch ▸ evictionBatch_perm cache entries
      pages := hreleases.get?
      advances := hadvances
      upcoming := hupcoming
      removable := hremovable
      length_pages := hlength
      stored := hstored
      retirement := hretirement
      deferredPages := rfl
      deferred_le := hdeferred_le
      reservedPages := rfl
      privateStateBytes := rfl
      pageTableBytes := rfl
      snapshotBytes := by
        change cache.stats.retainedSnapshotBytes =
          cache.stats.retainedSnapshotBytes - cache.snapshotsOf entries + cache.snapshotsOf entries
        omega
      resident_le := by
        change pages.values.length + (cache.deferredPages + deferred) + retired.length ≤
          cache.stats.residentPages + deferred
        omega
      resident_ge := fun _ => le_rfl
      total_eq := fun _ => rfl
      next := hnext
      tokens := htokens }

end Cleared

/-- Once the pages of a plan are handed over, its entries can be removed. -/
theorem removeEntries_cleared (hinv : Inv orphans stray cache) (hnodup : entries.Nodup)
    (hlive : ∀ id ∈ entries, ∃ entry, cache.prefixes[id]? = some entry) {middle : SequenceCache R}
    {context : R.Context} {pages : Pages R.Page} {physical : List R.Page} {deferred : ℕ}
    (hretired : Retired cache middle (cache.evictionBatch entries) context pages
      physical deferred) :
    ∃ dropped, removeEntries (cache.evictionBatch entries) entries middle = .ok () dropped ∧
      Cleared cache { dropped with
        stats := { dropped.stats with
          retainedSnapshotBytes := cache.stats.retainedSnapshotBytes - cache.snapshotsOf entries } }
        stray entries context (cache.evictionBatch entries) physical deferred := by
  have hperm := evictionBatch_perm cache entries
  generalize hbatch : cache.evictionBatch entries = retired at hretired hperm ⊢
  have hdistinct : retired.Nodup := hperm.nodup_iff.mpr ((List.nodup_dedup _).filter _)
  have hpresent : ∀ id ∈ retired, ∃ page, cache.pages.get? id = some page := fun id hmem =>
    (freedBy_live hinv id (hperm.mem_iff.mp hmem)).imp fun _ h => h.1
  have hless := length_removed hdistinct hpresent hretired.removed
  have hbytes := hinv.pages_le_usize
  have hmul := Nat.mul_le_mul_right cache.pageBytes (Nat.le.intro hless.symm)
  obtain ⟨hstate, hremoved, hstored, hretirement, hdeferred_le, hremovable⟩ := hretired
  generalize middle.backend = history at hstate hretirement
  subst hstate
  obtain ⟨dropped, hdrop, hdropped⟩ := @removeEntries_ok R { cache.putPages pages with
      backend := history, deferredPages := cache.deferredPages + deferred } _ retired _ rfl
    (by
      change pages.values.length * cache.pageBytes ≤ usizeMax
      omega)
    hnodup hlive hinv.filed hinv.ranked
    (by
      intro id hmem
      change pages.get? id = none
      rw [hremoved.get?, if_pos hmem])
    (by
      intro id hmem hnot
      change ∃ page, pages.get? id = some page ∧ _
      obtain ⟨key, -, entry, hentry, hpage⟩ := mem_pagesOf.mp hmem
      obtain ⟨page, hpage', -⟩ := (hinv.owned.entry key entry hentry).held id hpage
      refine ⟨page, by rw [hremoved.get?, if_neg hnot, hpage'], ?_⟩
      rw [(hinv.owned.page id page hpage').prefix_refs, prefixCount_eraseAll hnodup hlive]
      exact Nat.le_add_left _ _)
  refine ⟨dropped, hdrop, ?_⟩
  obtain ⟨hstate, hpages, hfiled, hranked, hnext, htokens⟩ := hdropped
  generalize dropped.pages = pages' at *
  generalize dropped.lru = lru at *
  generalize dropped.index = index at *
  have hlength : pages'.values.length = pages.values.length := hpages.length_values
  subst hstate
  exact ⟨rfl, hbatch.symm, releases_evicted hperm hremoved hpages,
    hremoved.advances.trans (Arena.Advances.ofUpdated hpages),
    (hpages.upcoming_eq 0).trans hremoved.upcoming, hremovable,
    hless.trans (by rw [← hlength]), hstored, hretirement, hdeferred_le, hfiled, hranked,
    hnext, htokens⟩

/-- Whatever the backend answers, the planned evictions are carried out, refused or given up
at an answer that breaks the contract. -/
theorem commitEvictions_ends (hinv : Inv orphans stray cache) (hnodup : entries.Nodup)
    (hlive : ∀ id ∈ entries, ∃ entry, cache.prefixes[id]? = some entry) (context : R.Context) :
    Ends (commitEvictions entries context cache)
      (fun _ cache' => Inv orphans stray cache' ∧ ∃ retired physical deferred,
        Evicted cache cache' entries context retired physical deferred)
      (fun failure cache' => Refused cache (cache.evictionBatch entries) context failure ∧
          Called 0 cache cache' [] ∨
        Breached cache failure cache' ∧
          cache' = { cache with backend := cache'.backend, pages := cache'.pages }) := by
  unfold commitEvictions
  by_cases hempty : entries = []
  · subst hempty
    rw [if_pos rfl, pure_run]
    exact ⟨hinv, [], [], 0, evicted_nil cache context⟩
  rw [if_neg hempty]
  have hsum := snapshotsOf_le hinv.counted hnodup hlive
  have hsnapshot := hinv.budgeted.snapshot_le
  have hmax := hinv.config.maxSnapshotBytes_le
  have hdouble := hinv.double_le
  have hremovedBy := removedBy_ok 0 [] hlive (by omega)
  rw [Nat.zero_add, List.nil_append] at hremovedBy
  rw [bind_ok (reads_ok (fun cache : SequenceCache R => cache.removedBy entries 0 [])
    hremovedBy)]
  simp only
  rw [get_bind_run]
  rw [show (R.hashOrder cache.backend (cache.pagesOf entries).dedup).filter
    (cache.lastHeld (cache.pagesOf entries)) = cache.evictionBatch entries from rfl]
  -- The batch is a reordering of the freed pages.
  have hperm := evictionBatch_perm cache entries
  have hretired : (cache.evictionBatch entries).Nodup :=
    hperm.nodup_iff.mpr ((List.nodup_dedup _).filter _)
  have hstorage : ∀ id ∈ cache.evictionBatch entries, ∃ page, cache.pages.get? id = some page ∧
      page.physical.isSome := fun id hmem => freedBy_live hinv id (hperm.mem_iff.mp hmem)
  have hlength : (cache.evictionBatch entries).length ≤ cache.pages.values.length := by
    rw [hperm.length_eq]
    exact length_freedBy_le cache _
  have hbytes := Nat.mul_le_mul_right cache.pageBytes hlength
  have hpages := hinv.pages_le_usize
  have hdeferred := hinv.deferred_le
  have hcount := hinv.resident_le_mul (cache.pages.values.length + cache.deferredPages)
  rw [checkedMul_of_le (by omega), okOr_some, pure_bind_run, checkedSub_of_le hsum, okOr_some,
    pure_bind_run]
  refine Ends.bind (retirePageIds_ends hinv.counted hinv.owned.pages_wf hretired hstorage
    hpages (by omega) context) ?_
  rintro - middle ⟨pages, physical, deferred, hretire⟩
  obtain ⟨dropped, hdrop, hcleared⟩ := removeEntries_cleared hinv hnodup hlive hretire
  rw [bind_ok hdrop, bind_ok (updateStats_run _ _)]
  obtain ⟨hrun, hfinal⟩ := (hcleared.ready hinv hnodup hlive).refresh
  refine Eq.mpr (congrArg (fun result => Ends result _ _) hrun) ?_
  exact ⟨hfinal, _, physical, deferred, hcleared.evicted hinv hnodup hlive⟩

theorem commitEvictions_spec (hlaw : R.Retires) (hinv : Inv orphans stray cache)
    (hnodup : entries.Nodup)
    (hlive : ∀ id ∈ entries, ∃ entry, cache.prefixes[id]? = some entry) (context : R.Context) :
    Ends (commitEvictions entries context cache)
      (fun _ cache' => Inv orphans stray cache' ∧ ∃ retired physical deferred,
        Evicted cache cache' entries context retired physical deferred)
      (fun failure cache' => Refused cache (cache.evictionBatch entries) context failure ∧
        Called 0 cache cache' []) :=
  (commitEvictions_ends hinv hnodup hlive context).resolve fun failure cache' hbreached =>
    not_breached hlaw failure cache' hbreached.1

end Commit

end SequenceCache

end SeqCache
