import SeqCache.Core.Recency
import SeqCache.Invariant.Accounting
import SeqCache.Index.Interning

/-!
# The invariant of the cache

Everything that holds between two calls, on every run over a backend that keeps its
contract.  Two ghost parameters record what calls that ran out of identities have left
behind: `orphans` are page records without a holder, `stray` are references to interned
blocks that belong to no entry.  While both are empty, the invariant is exactly what
`validate` checks, and more.
-/

namespace SeqCache

open Machine Program Std

variable {R : Runtime}

/-- What `validateConfig` has checked. -/
structure ConfigOk (cache : SequenceCache R) : Prop where
  pageTokens_pos : 0 < cache.config.pageTokens
  pageBytes_pos : 0 < cache.pageBytes
  pageBytes_le : cache.pageBytes ≤ cache.config.maxManagedBytes
  emergencyBytes_le : cache.config.emergencyBytes ≤ cache.config.maxManagedBytes
  maxSnapshotBytes_le : cache.config.maxSnapshotBytes ≤ cache.config.maxManagedBytes
  maxManagedBytes_le : cache.config.maxManagedBytes ≤ i64Max

/-- The counters kept incrementally are the totals over the records. -/
structure Counted (cache : SequenceCache R) : Prop where
  reserved : cache.stats.reservedPages = cache.sequences.total SequenceRecord.reservedPages
  privateState : cache.stats.activePrivateStateBytes =
    cache.sequences.total SequenceRecord.privateStateBytes
  pageTable : cache.stats.pageTableBytes = cache.sequences.total SequenceRecord.pageTableBytes
  snapshot : cache.stats.retainedSnapshotBytes =
    mapTotal PrefixEntry.snapshotBytes cache.prefixes
  reclaimable : cache.stats.reclaimablePrefixOnlyBytes =
    cache.pages.values.countP PageRecord.isReclaimable * cache.pageBytes
  deferred : cache.deferredPages = deferredTotal cache.backend

/-- The statistics follow from the counters, and the gauges from the statistics. -/
structure Published (orphans : List PageId) (stray : List TokenBlockId)
    (cache : SequenceCache R) : Prop where
  stats_eq : cache.stats =
    cache.accounts cache.stats.residentPages cache.stats.internedTokenBlocks
  resident_le : cache.residentNow ≤ cache.stats.residentPages
  resident_eq : orphans = [] → cache.stats.residentPages = cache.residentNow
  interned_eq : stray = [] → cache.stats.internedTokenBlocks = cache.index.blockCount
  gauges_eq : cache.gauges = cache.stats.gauges

/-- Limits that hold whatever the backend does.  A backend that defers retirements it
promised to be immediate can double the total. -/
structure Budgeted (cache : SequenceCache R) : Prop where
  held_le : cache.chargedBytes cache.pages.values.length ≤ cache.config.maxManagedBytes
  total_le : cache.stats.totalManagedBytes ≤ 2 * cache.config.maxManagedBytes
  snapshot_le : cache.stats.retainedSnapshotBytes ≤ cache.config.maxSnapshotBytes
  entries_le : ∀ limit, cache.config.maxPrefixEntries = some limit → cache.prefixes.size ≤ limit

/-- References that the retained entries and the ghost list hold on a block. -/
def blockCount {Snapshot : Type} (prefixes : Prefixes Snapshot) (stray : List TokenBlockId)
    (id : TokenBlockId) : ℕ :=
  mapTotal (fun entry => entry.blocks.count id) prefixes + stray.count id

/-- Every entry is filed under its key, and nothing else is. -/
structure Filed (pageTokens : ℕ) (stray : List TokenBlockId) (index : PrefixIndex R)
    (prefixes : Prefixes R.Snapshot) : Prop where
  table : index.Interned pageTokens (blockCount prefixes stray)
  tree : ∀ (key : PrefixKey) (id : PrefixEntryId), R.getBytes index.tree key = some id ↔
    ∃ entry, prefixes[id]? = some entry ∧ entry.key = key
  key_eq : ∀ (id : PrefixEntryId) (entry : PrefixEntry R.Snapshot), prefixes[id]? = some entry →
    entry.key = keyOf entry.blocks
  length_blocks : ∀ (id : PrefixEntryId) (entry : PrefixEntry R.Snapshot),
    prefixes[id]? = some entry → entry.blocks.length = entry.pages.length

/-- The LRU set orders exactly the retained entries. -/
def Ranked {Snapshot : Type} (prefixes : Prefixes Snapshot) (lru : LruSet) : Prop :=
  ∀ (used : ℕ) (id : PrefixEntryId), (used, id) ∈ lru ↔
    ∃ entry, prefixes[id]? = some entry ∧ entry.lastUsed = used

/-- No entry was used after the current time, and the clock fits its word. -/
structure Clocked {Snapshot : Type} (prefixes : Prefixes Snapshot) (clock : ℕ) : Prop where
  used_le : ∀ (id : PrefixEntryId) (entry : PrefixEntry Snapshot), prefixes[id]? = some entry →
    entry.lastUsed ≤ clock
  bounded : clock ≤ usizeMax

/-- Retained entries, the least recently used first. -/
def SequenceCache.recency (cache : SequenceCache R) : List PrefixEntryId := keysByTime cache.lru

namespace SequenceCache

variable {cache : SequenceCache R}

theorem mem_recency (hranked : Ranked cache.prefixes cache.lru) {id : PrefixEntryId} :
    id ∈ cache.recency ↔ ∃ entry, cache.prefixes[id]? = some entry := by
  simp only [recency, keysByTime, List.mem_map, ExtTreeSet.mem_toList]
  constructor
  · rintro ⟨⟨used, found⟩, hmem, rfl⟩
    obtain ⟨entry, hentry, -⟩ := (hranked used found).mp hmem
    exact ⟨entry, hentry⟩
  · rintro ⟨entry, hentry⟩
    exact ⟨(entry.lastUsed, id), (hranked _ _).mpr ⟨entry, hentry, rfl⟩, rfl⟩

/-- No entry is listed at two times. -/
theorem nodup_recency (hranked : Ranked cache.prefixes cache.lru) : cache.recency.Nodup := by
  apply nodup_keysByTime
  intro used used' id hmem hmem'
  obtain ⟨entry, hentry, rfl⟩ := (hranked used id).mp hmem
  obtain ⟨entry', hentry', rfl⟩ := (hranked used' id).mp hmem'
  rw [hentry] at hentry'
  rw [Option.some.inj hentry']

end SequenceCache

structure Inv (orphans : List PageId) (stray : List TokenBlockId) (cache : SequenceCache R) :
    Prop where
  config : ConfigOk cache
  owned : Owned orphans cache.config.pageTokens cache.pages cache.sequences cache.prefixes
  counted : Counted cache
  published : Published orphans stray cache
  budgeted : Budgeted cache
  filed : Filed cache.config.pageTokens stray cache.index cache.prefixes
  ranked : Ranked cache.prefixes cache.lru
  clocked : Clocked cache.prefixes cache.clock
  ids_below : ∀ id : PrefixEntryId, id ∈ cache.prefixes → id < cache.nextPrefixId
  ids_bounded : cache.nextPrefixId ≤ usizeMax

/-! ## Consequences -/

namespace Inv

variable {orphans : List PageId} {stray : List TokenBlockId} {cache : SequenceCache R}

theorem total_eq (h : Inv orphans stray cache) :
    cache.stats.totalManagedBytes = cache.chargedBytes cache.stats.residentPages := by
  conv_lhs => rw [h.published.stats_eq]
  rfl

/-- Twice the largest budget still fits a machine word. -/
theorem double_le (h : Inv orphans stray cache) :
    2 * cache.config.maxManagedBytes ≤ usizeMax := by
  have := h.config.maxManagedBytes_le
  unfold i64Max at this
  unfold usizeMax
  omega

theorem charged_le (h : Inv orphans stray cache) :
    cache.chargedBytes cache.stats.residentPages ≤ 2 * cache.config.maxManagedBytes :=
  h.total_eq ▸ h.budgeted.total_le

theorem resident_le_mul (h : Inv orphans stray cache) (pages : ℕ) :
    pages ≤ pages * cache.pageBytes :=
  Nat.le_mul_of_pos_right _ h.config.pageBytes_pos

/-- Bytes of all pages with a record. -/
theorem pages_le (h : Inv orphans stray cache) :
    cache.pages.values.length * cache.pageBytes ≤ cache.config.maxManagedBytes := by
  have := h.budgeted.held_le
  unfold SequenceCache.chargedBytes at this
  omega

theorem pages_le_usize (h : Inv orphans stray cache) :
    cache.pages.values.length * cache.pageBytes ≤ usizeMax := by
  have := h.pages_le
  have := h.double_le
  omega

/-- The deferred pages are part of the total. -/
theorem deferred_le (h : Inv orphans stray cache) :
    (cache.pages.values.length + cache.deferredPages) * cache.pageBytes ≤
      2 * cache.config.maxManagedBytes := by
  have hcharged := h.charged_le
  have hresident := Nat.mul_le_mul_right cache.pageBytes h.published.resident_le
  unfold SequenceCache.chargedBytes at hcharged
  unfold SequenceCache.residentNow at hresident
  omega

theorem activeRefs_le (h : Inv orphans stray cache) {id : PageId} {page : PageRecord R.Page}
    (hpage : cache.pages.get? id = some page) : page.activeRefs ≤ 2 ^ 32 + 1 := by
  have hok := h.owned.page id page hpage
  have horphans := List.nodup_iff_count_le_one.mp h.owned.orphans_nodup id
  have hactive : activeCount cache.sequences id ≤ cache.sequences.values.length := by
    unfold activeCount Arena.total
    refine (List.sum_le_card_nsmul _ 1 ?_).trans (by simp)
    intro count hcount
    obtain ⟨record, hrecord, rfl⟩ := List.mem_map.mp hcount
    rw [← Arena.map_snd_entries, List.mem_map] at hrecord
    obtain ⟨⟨sequence, record⟩, hentry, rfl⟩ := hrecord
    exact List.nodup_iff_count_le_one.mp
      (h.owned.sequence sequence record (Arena.mem_entries.mp hentry)).nodup id
  have hlength := Arena.length_values_add_free h.owned.sequences_wf
  have hslots := h.owned.sequences_wf.length_le
  have := hok.active_refs
  omega

/-- Identities of entries are never issued twice, so they bound the number of entries. -/
theorem size_le (h : Inv orphans stray cache) : cache.prefixes.size ≤ cache.nextPrefixId := by
  have hnodup := (tabulates_toList cache.prefixes).keys_nodup
  have hsubset : (cache.prefixes.toList.map Prod.fst).toFinset ⊆
      Finset.range cache.nextPrefixId := by
    intro key hkey
    obtain ⟨⟨key, entry⟩, hmem, rfl⟩ := List.mem_map.mp (List.mem_toFinset.mp hkey)
    rw [Finset.mem_range]
    apply h.ids_below
    rw [ExtTreeMap.mem_iff_isSome_getElem?,
      ((tabulates_toList cache.prefixes).mem_iff key entry).mp hmem]
    rfl
  have hcard := Finset.card_le_card hsubset
  rwa [List.toFinset_card_of_nodup hnodup, Finset.card_range, List.length_map,
    ExtTreeMap.length_toList] at hcard

/-- A page is retained at most once by every entry. -/
theorem prefixRefs_le (h : Inv orphans stray cache) {id : PageId} {page : PageRecord R.Page}
    (hpage : cache.pages.get? id = some page) : page.prefixRefs ≤ cache.nextPrefixId := by
  rw [(h.owned.page id page hpage).prefix_refs]
  refine Nat.le_trans ?_ h.size_le
  unfold prefixCount mapTotal
  refine (List.sum_le_card_nsmul _ 1 ?_).trans (by simp [ExtTreeMap.length_toList])
  intro count hcount
  obtain ⟨⟨key, entry⟩, hmem, rfl⟩ := List.mem_map.mp hcount
  exact List.nodup_iff_count_le_one.mp
    (h.owned.entry key entry (((tabulates_toList cache.prefixes).mem_iff key entry).mp hmem)).nodup
      id

end Inv

end SeqCache
