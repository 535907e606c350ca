import SeqCache.Invariant.Quiet

/-!
# Caches that look alike

Two caches can reach the same contents along different ways.  The order of the free slots,
the generations of empty slots, the nonces, the transactions of the backend and the storage
behind the pages then differ, but everything that a client can ask for is the same.  The
statistics follow: they are a function of the contents.
-/

namespace SeqCache

open Machine Program Std

variable {R : Runtime}

/-- What a page record says about references and rows. -/
def PageRecord.rowsAndRefs {Page : Type} (page : PageRecord Page) : PageRecord Unit :=
  { page with physical := none }

/-- A record without the transaction of the backend. -/
def SequenceRecord.shape {Transaction : Type} (record : SequenceRecord Transaction) :
    SequenceRecord Unit :=
  { record with pending := record.pending.map fun pending => { pending with transaction := () } }

@[simp]
theorem SequenceRecord.shape_mapTransaction {Transaction : Type}
    (change : Transaction → Transaction) (record : SequenceRecord Transaction) :
    (record.mapTransaction change).shape = record.shape := by
  cases record with
  | mk pages position maxPosition reservedPages privateStateBytes pageTableBytes pending =>
      cases pending <;> rfl

namespace SequenceCache

/-- The two caches hold the same records under the same handles, and the same entries. -/
structure Alike (cache cache' : SequenceCache R) : Prop where
  config : cache'.config = cache.config
  pageBytes : cache'.pageBytes = cache.pageBytes
  pageCapacity : cache'.pageCapacity = cache.pageCapacity
  sequences : ∀ id, (cache'.sequences.get? id).map SequenceRecord.shape =
    (cache.sequences.get? id).map SequenceRecord.shape
  pages : ∀ id, (cache'.pages.get? id).map PageRecord.rowsAndRefs =
    (cache.pages.get? id).map PageRecord.rowsAndRefs
  prefixes : cache'.prefixes = cache.prefixes
  deferredPages : cache'.deferredPages = cache.deferredPages
  blockCount : cache'.index.blockCount = cache.index.blockCount

namespace Alike

variable {cache cache' : SequenceCache R}

theorem sequences_total (h : Alike cache cache') (weight : SequenceRecord Unit → ℕ) :
    cache'.sequences.total (fun record => weight record.shape) =
      cache.sequences.total (fun record => weight record.shape) := by
  apply Arena.total_congr
  intro id
  have hview := congrArg (Option.map weight) (h.sequences id)
  rw [Option.map_map, Option.map_map] at hview
  exact hview

theorem pages_total (h : Alike cache cache') (weight : PageRecord Unit → ℕ) :
    cache'.pages.total (fun page => weight page.rowsAndRefs) =
      cache.pages.total (fun page => weight page.rowsAndRefs) := by
  apply Arena.total_congr
  intro id
  have hview := congrArg (Option.map weight) (h.pages id)
  rw [Option.map_map, Option.map_map] at hview
  exact hview

theorem length_pages (h : Alike cache cache') :
    cache'.pages.values.length = cache.pages.values.length := by
  rw [← Arena.total_one, ← Arena.total_one]
  exact h.pages_total fun _ => 1

theorem countP_reclaimable (h : Alike cache cache') :
    cache'.pages.values.countP PageRecord.isReclaimable =
      cache.pages.values.countP PageRecord.isReclaimable := by
  rw [← Arena.total_indicator, ← Arena.total_indicator]
  exact h.pages_total fun page => if page.isReclaimable then 1 else 0

/-- Caches that look alike have the same statistics. -/
theorem stats_eq (h : Alike cache cache') (hinv : Inv [] [] cache) (hinv' : Inv [] [] cache') :
    cache'.stats = cache.stats := by
  have hresident : cache'.stats.residentPages = cache.stats.residentPages := by
    rw [hinv'.published.resident_eq rfl, hinv.published.resident_eq rfl, residentNow, residentNow,
      h.length_pages, h.deferredPages]
  have hinterned : cache'.stats.internedTokenBlocks = cache.stats.internedTokenBlocks := by
    rw [hinv'.published.interned_eq rfl, hinv.published.interned_eq rfl, h.blockCount]
  have hreserved : cache'.stats.reservedPages = cache.stats.reservedPages := by
    rw [hinv'.counted.reserved, hinv.counted.reserved]
    exact h.sequences_total SequenceRecord.reservedPages
  have hprivate : cache'.stats.activePrivateStateBytes =
      cache.stats.activePrivateStateBytes := by
    rw [hinv'.counted.privateState, hinv.counted.privateState]
    exact h.sequences_total SequenceRecord.privateStateBytes
  have htable : cache'.stats.pageTableBytes = cache.stats.pageTableBytes := by
    rw [hinv'.counted.pageTable, hinv.counted.pageTable]
    exact h.sequences_total SequenceRecord.pageTableBytes
  have hsnapshot : cache'.stats.retainedSnapshotBytes = cache.stats.retainedSnapshotBytes := by
    rw [hinv'.counted.snapshot, hinv.counted.snapshot, h.prefixes]
  have hreclaimable : cache'.stats.reclaimablePrefixOnlyBytes =
      cache.stats.reclaimablePrefixOnlyBytes := by
    rw [hinv'.counted.reclaimable, hinv.counted.reclaimable, h.countP_reclaimable, h.pageBytes]
  have hactive : cache'.sequences.values.length = cache.sequences.values.length := by
    rw [← Arena.total_one, ← Arena.total_one]
    exact h.sequences_total fun _ => 1
  rw [hinv'.published.stats_eq, hinv.published.stats_eq]
  simp only [accounts, chargedBytes, hresident, hinterned, hreserved, hprivate, htable, hsnapshot,
    hreclaimable, hactive, h.config, h.pageBytes, h.pageCapacity, h.prefixes, h.deferredPages]

end Alike

end SequenceCache

/-! ## Pages that go back to the reserved ones -/

/-- `stats'` are `stats` after `count` resident pages became reserved pages again. -/
structure CacheStats.Returned (pageBytes count : ℕ) (stats stats' : CacheStats) : Prop where
  residentPages : stats.residentPages = stats'.residentPages + count
  reservedPages : stats'.reservedPages = stats.reservedPages + count
  residentBytes : stats.uniqueResidentPageBytes =
    stats'.uniqueResidentPageBytes + count * pageBytes
  reservedBytes : stats'.outstandingReservationBytes =
    stats.outstandingReservationBytes + count * pageBytes
  others : stats' = { stats with
    residentPages := stats'.residentPages
    reservedPages := stats'.reservedPages
    uniqueResidentPageBytes := stats'.uniqueResidentPageBytes
    outstandingReservationBytes := stats'.outstandingReservationBytes }

namespace CacheStats.Returned

variable {pageBytes count count' : ℕ} {stats stats' stats'' : CacheStats}

theorem refl (pageBytes : ℕ) (stats : CacheStats) : Returned pageBytes 0 stats stats :=
  ⟨rfl, rfl, by simp, by simp, rfl⟩

theorem trans (h : Returned pageBytes count stats stats')
    (h' : Returned pageBytes count' stats' stats'') :
    Returned pageBytes (count + count') stats stats'' where
  residentPages := by
    rw [h.residentPages, h'.residentPages]
    omega
  reservedPages := by
    rw [h'.reservedPages, h.reservedPages]
    omega
  residentBytes := by
    rw [h.residentBytes, h'.residentBytes, Nat.add_mul]
    omega
  reservedBytes := by
    rw [h'.reservedBytes, h.reservedBytes, Nat.add_mul]
    omega
  others := by
    rw [h'.others, h.others]

/-- Of two that pages went back to, one had more of them back. -/
theorem between (h : Returned pageBytes (count + count') stats stats')
    (h' : Returned pageBytes count stats stats'') : Returned pageBytes count' stats'' stats' where
  residentPages := by
    have := h.residentPages
    have := h'.residentPages
    omega
  reservedPages := by
    rw [h.reservedPages, h'.reservedPages, Nat.add_assoc]
  residentBytes := by
    have hmore := h.residentBytes
    have hless := h'.residentBytes
    rw [Nat.add_mul] at hmore
    omega
  reservedBytes := by
    rw [h.reservedBytes, h'.reservedBytes, Nat.add_mul, Nat.add_assoc]
  others := by
    rw [h.others, h'.others]

/-- The pages that went back determine the statistics before and after. -/
theorem unique (h : Returned pageBytes count stats stats')
    (h' : Returned pageBytes count stats stats'') : stats'' = stats' := by
  have hresident : stats''.residentPages = stats'.residentPages := by
    have := h.residentPages
    have := h'.residentPages
    omega
  have hbytes : stats''.uniqueResidentPageBytes = stats'.uniqueResidentPageBytes := by
    have := h.residentBytes
    have := h'.residentBytes
    omega
  rw [h'.others, h.others, hresident, hbytes, h'.reservedPages, h.reservedPages,
    h'.reservedBytes, h.reservedBytes]

/-- They determine the statistics before from those after as well. -/
theorem unique_left (h : Returned pageBytes count stats' stats)
    (h' : Returned pageBytes count stats'' stats) : stats'' = stats' := by
  have hback : ∀ {earlier : CacheStats}, Returned pageBytes count earlier stats →
      earlier = { stats with
        residentPages := earlier.residentPages
        reservedPages := earlier.reservedPages
        uniqueResidentPageBytes := earlier.uniqueResidentPageBytes
        outstandingReservationBytes := earlier.outstandingReservationBytes } := by
    intro earlier hearlier
    rw [hearlier.others]
  have hreserved : stats''.reservedPages = stats'.reservedPages :=
    Nat.add_right_cancel (h'.reservedPages.symm.trans h.reservedPages)
  have hbytes : stats''.outstandingReservationBytes = stats'.outstandingReservationBytes :=
    Nat.add_right_cancel (h'.reservedBytes.symm.trans h.reservedBytes)
  rw [hback h', hback h, hreserved, hbytes, h'.residentPages, h.residentPages, h'.residentBytes,
    h.residentBytes]

end CacheStats.Returned

/-- The same contents, except that `count` pages went back to the reserved ones. -/
theorem SequenceCache.returned_of_counts {cache cache' : SequenceCache R} {count : ℕ}
    (hinv : Inv [] [] cache) (hinv' : Inv [] [] cache')
    (hconfig : cache'.config = cache.config) (hpageBytes : cache'.pageBytes = cache.pageBytes)
    (hcapacity : cache'.pageCapacity = cache.pageCapacity)
    (hpages : cache.pages.values.length = cache'.pages.values.length + count)
    (hreclaimable : cache'.pages.values.countP PageRecord.isReclaimable =
      cache.pages.values.countP PageRecord.isReclaimable)
    (hreserved : cache'.stats.reservedPages = cache.stats.reservedPages + count)
    (hprivate : cache'.stats.activePrivateStateBytes = cache.stats.activePrivateStateBytes)
    (htable : cache'.stats.pageTableBytes = cache.stats.pageTableBytes)
    (hsnapshot : cache'.stats.retainedSnapshotBytes = cache.stats.retainedSnapshotBytes)
    (hactive : cache'.sequences.values.length = cache.sequences.values.length)
    (hprefixes : cache'.prefixes.size = cache.prefixes.size)
    (hdeferred : cache'.deferredPages = cache.deferredPages)
    (hblocks : cache'.index.blockCount = cache.index.blockCount) :
    CacheStats.Returned cache.pageBytes count cache.stats cache'.stats := by
  have hresident : cache.stats.residentPages = cache'.stats.residentPages + count := by
    rw [hinv'.published.resident_eq rfl, hinv.published.resident_eq rfl, residentNow, residentNow,
      hpages, hdeferred]
    omega
  have hinterned : cache'.stats.internedTokenBlocks = cache.stats.internedTokenBlocks := by
    rw [hinv'.published.interned_eq rfl, hinv.published.interned_eq rfl, hblocks]
  have hfree : cache'.stats.reclaimablePrefixOnlyBytes =
      cache.stats.reclaimablePrefixOnlyBytes := by
    rw [hinv'.counted.reclaimable, hinv.counted.reclaimable, hreclaimable, hpageBytes]
  have hcharged : cache'.chargedBytes cache'.stats.residentPages =
      cache.chargedBytes cache.stats.residentPages := by
    unfold chargedBytes
    rw [hreserved, hprivate, htable, hsnapshot, hpageBytes, hresident, Nat.add_mul, Nat.add_mul]
    omega
  have hsaturated : saturatingAdd cache'.stats.residentPages cache'.stats.reservedPages =
      saturatingAdd cache.stats.residentPages cache.stats.reservedPages := by
    unfold saturatingAdd
    rw [hreserved, hresident]
    congr 1
    omega
  refine ⟨hresident, hreserved, ?_, ?_, ?_⟩
  · rw [hinv'.published.stats_eq, hinv.published.stats_eq]
    simp only [accounts]
    rw [hpageBytes, hresident, Nat.add_mul]
  · rw [hinv'.published.stats_eq, hinv.published.stats_eq]
    simp only [accounts]
    rw [hpageBytes, hreserved, Nat.add_mul]
  · rw [hinv'.published.stats_eq, hinv.published.stats_eq]
    simp only [accounts, hcharged, hsaturated, hactive, hprefixes, hinterned, hdeferred, hprivate,
      htable, hsnapshot, hfree, hconfig, hpageBytes, hcapacity]

end SeqCache
