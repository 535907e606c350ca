import SeqCache.Invariant.Transfer

/-!
# Accounting

The statistics as a pure function of the ownership records and of the counters kept
incrementally, and the conditions under which `refreshStats` computes it.
-/

namespace SeqCache

open Machine Program Std

variable {R : Runtime}

namespace SequenceCache

/-- Bytes charged for `residentPages` pages and everything else the counters hold. -/
def chargedBytes (cache : SequenceCache R) (residentPages : ℕ) : ℕ :=
  residentPages * cache.pageBytes + cache.stats.reservedPages * cache.pageBytes +
    cache.stats.activePrivateStateBytes + cache.stats.retainedSnapshotBytes +
    cache.stats.pageTableBytes

theorem chargedBytes_add (cache : SequenceCache R) (residentPages pages : ℕ) :
    cache.chargedBytes (residentPages + pages) =
      cache.chargedBytes residentPages + pages * cache.pageBytes := by
  unfold chargedBytes
  rw [Nat.add_mul]
  omega

/-- The statistics that follow from the counters for given numbers of resident pages and
interned blocks. -/
def accounts (cache : SequenceCache R) (residentPages internedTokenBlocks : ℕ) : CacheStats where
  activeSequences := cache.sequences.values.length
  retainedPrefixEntries := cache.prefixes.size
  internedTokenBlocks := internedTokenBlocks
  residentPages := residentPages
  freePages :=
    min ((cache.config.maxManagedBytes - cache.chargedBytes residentPages) / cache.pageBytes)
      (cache.pageCapacity - saturatingAdd residentPages cache.stats.reservedPages)
  reservedPages := cache.stats.reservedPages
  deferredRetirementPages := cache.deferredPages
  uniqueResidentPageBytes := residentPages * cache.pageBytes
  outstandingReservationBytes := cache.stats.reservedPages * cache.pageBytes
  activePrivateStateBytes := cache.stats.activePrivateStateBytes
  retainedSnapshotBytes := cache.stats.retainedSnapshotBytes
  pageTableBytes := cache.stats.pageTableBytes
  reclaimablePrefixOnlyBytes := cache.stats.reclaimablePrefixOnlyBytes
  totalManagedBytes := cache.chargedBytes residentPages

/-- Pages with a record, and retired pages the backend has not reclaimed. -/
def residentNow (cache : SequenceCache R) : ℕ :=
  cache.pages.values.length + cache.deferredPages

def refreshed (cache : SequenceCache R) : CacheStats :=
  cache.accounts cache.residentNow cache.index.blockCount

/-- The cache after a successful `refreshStats`. -/
def refresh (cache : SequenceCache R) : SequenceCache R :=
  { cache with stats := cache.refreshed, gauges := cache.refreshed.gauges }

theorem totalBytes_of_le {stats : CacheStats}
    (h : stats.uniqueResidentPageBytes + stats.outstandingReservationBytes +
      stats.activePrivateStateBytes + stats.retainedSnapshotBytes + stats.pageTableBytes ≤
        usizeMax) :
    totalBytes stats = some (stats.uniqueResidentPageBytes + stats.outstandingReservationBytes +
      stats.activePrivateStateBytes + stats.retainedSnapshotBytes + stats.pageTableBytes) := by
  unfold totalBytes
  rw [checkedAdd_of_le (by omega)]
  simp only [Option.bind_eq_bind, Option.bind_some]
  rw [checkedAdd_of_le (by omega), Option.bind_some, checkedAdd_of_le (by omega),
    Option.bind_some, checkedAdd_of_le h]

theorem updateStats_run (update : CacheStats → CacheStats) (cache : SequenceCache R) :
    updateStats update cache = .ok () { cache with stats := update cache.stats } := rfl

theorem refreshStats_ok {cache : SequenceCache R} (hpages : cache.pages.WF)
    (hsequences : cache.sequences.WF) (hpos : 0 < cache.pageBytes)
    (hbound : cache.chargedBytes cache.residentNow ≤ usizeMax) :
    refreshStats cache = .ok () cache.refresh := by
  have howned : cache.pages.slots.length - cache.pages.free.length = cache.pages.values.length := by
    have := Arena.length_values_add_free hpages
    omega
  have hactive : cache.sequences.slots.length - cache.sequences.free.length =
      cache.sequences.values.length := by
    have := Arena.length_values_add_free hsequences
    omega
  have hresident : cache.residentNow ≤ cache.residentNow * cache.pageBytes :=
    Nat.le_mul_of_pos_right _ hpos
  unfold chargedBytes at hbound
  unfold residentNow at hbound hresident
  unfold refreshStats
  rw [get_bind_run, checkedSub_of_le (by have := Arena.length_values_add_free hpages; omega),
    okOr_some, pure_bind_run, howned, checkedAdd_of_le (by omega), okOr_some, pure_bind_run,
    bind_ok (updateStats_run _ _),
    checkedSub_of_le (by have := Arena.length_values_add_free hsequences; omega), okOr_some,
    pure_bind_run, hactive, bind_ok (updateStats_run _ _), checkedMul_of_le (by omega), okOr_some,
    pure_bind_run, bind_ok (updateStats_run _ _), checkedMul_of_le (by omega), okOr_some,
    pure_bind_run, bind_ok (updateStats_run _ _), get_bind_run,
    totalBytes_of_le (by simp only; omega), okOr_some, pure_bind_run,
    bind_ok (updateStats_run _ _), modify_bind_run]
  rfl

end SequenceCache

end SeqCache
