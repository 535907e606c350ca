import SeqCache.Properties.Custody
import SeqCache.Properties.Starvation

/-!
# Drained caches

When the last sequence is finished and the last entry evicted, nothing stays behind: no page
record, no interned block, no key in the radix tree, and the statistics are those of a new
cache, up to retired pages that the backend has not reclaimed yet.  Every page that the
backend ever handed out is back, except the copies that refused branches have lost.
-/

namespace SeqCache

open Machine Program Std

variable {R : Runtime}

namespace SequenceCache

/-- Statistics of a cache that has nothing but retired pages to wait for. -/
def drainedStats (cache : SequenceCache R) : CacheStats :=
  { StatsOf.replicate 0 with
    residentPages := cache.deferredPages
    freePages :=
      min ((cache.config.maxManagedBytes - cache.deferredPages * cache.pageBytes) / cache.pageBytes)
        (cache.pageCapacity - cache.deferredPages)
    deferredRetirementPages := cache.deferredPages
    uniqueResidentPageBytes := cache.deferredPages * cache.pageBytes
    totalManagedBytes := cache.deferredPages * cache.pageBytes }

/-- Nothing is held, indexed or charged but retired pages. -/
structure Drained (cache : SequenceCache R) : Prop where
  pages : ∀ id, cache.pages.get? id = none
  blocks : ∀ id : TokenBlockId, cache.index.blocks[id]? = none
  byTokens : ∀ tokens : List Token, cache.index.byTokens[tokens]? = none
  tree : ∀ key, R.getBytes cache.index.tree key = none
  lru : ∀ used id, (used, id) ∉ cache.lru
  deferred : cache.deferredPages = deferredTotal cache.backend
  stats : cache.stats = cache.drainedStats
  gauges : cache.gauges = cache.drainedStats.gauges

variable {cache final : SequenceCache R}

/-- A page with a record is held by a sequence or by an entry. -/
theorem pages_drained {stray : List TokenBlockId} (hinv : Inv [] stray cache)
    (hidle : ∀ id, cache.sequences.get? id = none) (hbare : cache.prefixes = ∅) (id : PageId) :
    cache.pages.get? id = none := by
  cases hpage : cache.pages.get? id with
  | none => rfl
  | some page =>
      obtain ⟨sequence, record, hrecord, -⟩ | ⟨key, entry, hentry, -⟩ :=
        (hinv.owned.page id page hpage).holder
      · rw [hidle sequence] at hrecord
        cases hrecord
      · rw [hbare, ExtTreeMap.getElem?_empty] at hentry
        cases hentry

/-- Without holders every counter is zero but that of the retired pages. -/
theorem Sound.stats_drained (h : Sound cache) (hidle : ∀ id, cache.sequences.get? id = none)
    (hbare : cache.prefixes = ∅) (hblocks : ∀ id : TokenBlockId, cache.index.blocks[id]? = none) :
    cache.stats = cache.drainedStats := by
  have hsequences := Arena.values_eq_nil hidle
  have hpages := Arena.values_eq_nil (pages_drained h.inv hidle hbare)
  have hempty : cache.index.blockCount = 0 := by
    have hnone : cache.index.blocks = ∅ :=
      ExtTreeMap.ext_getElem? fun id => (hblocks id).trans ExtTreeMap.getElem?_empty.symm
    rw [PrefixIndex.blockCount, hnone]
    rfl
  obtain ⟨hreserved, hprivate, htable, hsnapshot, hreclaimable, -⟩ := h.inv.counted
  rw [Arena.total, hsequences, List.map_nil, List.sum_nil] at hreserved hprivate htable
  rw [hpages, List.countP_nil, Nat.zero_mul] at hreclaimable
  rw [hbare] at hsnapshot
  change cache.stats.retainedSnapshotBytes = 0 at hsnapshot
  have hresident := h.inv.published.resident_eq rfl
  rw [residentNow, hpages, List.length_nil, Nat.zero_add] at hresident
  have hcharged : cache.chargedBytes cache.deferredPages =
      cache.deferredPages * cache.pageBytes := by
    rw [chargedBytes, hreserved, hprivate, htable, hsnapshot]
    simp only [Nat.zero_mul, Nat.add_zero]
  have hfits : cache.deferredPages ≤ usizeMax := by
    have hbytes := h.within.bytes
    have hdouble := h.inv.double_le
    have hmul := h.inv.resident_le_mul cache.deferredPages
    rw [h.inv.total_eq, hresident, hcharged] at hbytes
    omega
  have hsum : saturatingAdd cache.deferredPages 0 = cache.deferredPages := min_eq_left hfits
  rw [h.inv.published.stats_eq, hresident, h.inv.published.interned_eq rfl, hempty]
  unfold accounts
  rw [hreserved, hprivate, htable, hsnapshot, hreclaimable, hcharged, hsequences, hbare, hsum,
    Nat.zero_mul]
  rfl

theorem Sound.drained (h : Sound cache) (hidle : ∀ id, cache.sequences.get? id = none)
    (hbare : cache.prefixes = ∅) : Drained cache := by
  have hpages := pages_drained h.inv hidle hbare
  have hheld : ∀ block, blockCount cache.prefixes [] block = 0 := by
    intro block
    rw [hbare]
    rfl
  have hblocks : ∀ id : TokenBlockId, cache.index.blocks[id]? = none := by
    intro id
    cases hblock : cache.index.blocks[id]? with
    | none => rfl
    | some record =>
        have hpos := (h.inv.filed.table.refs id record hblock).2
        rw [hheld] at hpos
        cases hpos
  have hnone : ∀ id : PrefixEntryId, cache.prefixes[id]? = none := by
    intro id
    rw [hbare]
    exact ExtTreeMap.getElem?_empty
  constructor
  case pages => exact hpages
  case blocks => exact hblocks
  case byTokens =>
    intro tokens
    cases hfound : cache.index.byTokens[tokens]? with
    | none => rfl
    | some id =>
        obtain ⟨record, hrecord, -⟩ := h.inv.filed.table.found tokens id hfound
        rw [hblocks id] at hrecord
        cases hrecord
  case tree =>
    intro key
    cases hfound : R.getBytes cache.index.tree key with
    | none => rfl
    | some id =>
        obtain ⟨entry, hentry, -⟩ := (h.inv.filed.tree key id).mp hfound
        rw [hnone id] at hentry
        cases hentry
  case lru =>
    intro used id hmem
    obtain ⟨entry, hentry, -⟩ := (h.inv.ranked used id).mp hmem
    rw [hnone id] at hentry
    cases hentry
  case deferred => exact h.inv.counted.deferred
  case stats => exact h.stats_drained hidle hbare hblocks
  case gauges =>
    rw [h.inv.published.gauges_eq, h.stats_drained hidle hbare hblocks]

section Runs

variable [DecidableEq R.Page]

/-- In every run that exhausts no identity space, a cache without sequences and entries holds
nothing, and the backend has back what it handed out, up to the pages lost by branches. -/
theorem drained_holds_nothing (hlaw : R.Retires) (hhonest : R.ImmediateHonest)
    {config : CacheConfig} (hnew : SequenceCache.new R config = .ok cache)
    {operations : List (Operation R)}
    (hintact : AllAllowed Operation.step
      (fun cache operation => ¬ Exhausted (operation.result cache)) operations cache)
    (hfinal : runAll Operation.step operations cache = final)
    (hidle : ∀ id, final.sequences.get? id = none) (hbare : final.prefixes = ∅) :
    Drained final ∧ (handedOut final.backend).Perm
      (handedBack final.backend ++ lostPages operations cache) := by
  have hreached : ReachesIntact cache (runAll Operation.step operations cache) :=
    Reachable.start.runAll hintact
  have haccounted := (accounted_new hnew).runAll hlaw ⟨[], inv_of_new hnew⟩ hintact
  rw [hfinal] at hreached haccounted
  have hsound := ReachesIntact.sound hreached hlaw hhonest (sound_of_new hnew)
  have hdrained := hsound.drained hidle hbare
  refine ⟨hdrained, ?_⟩
  have hstored : storedPages final.pages = [] := by
    rw [storedPages, Arena.values_eq_nil hdrained.pages]
    rfl
  rw [Accounted, hstored, List.nil_append, List.nil_append] at haccounted
  exact haccounted

end Runs

end SequenceCache

open Reference in
/-- Once the only entry is evicted as well, the backend has back the page it handed out. -/
theorem SequenceCache.drained_holds_nothing_served :
    Drained (runAll Operation.step (served ++ [.evictPrefix 0 7]) start) ∧
      (handedOut (runAll Operation.step (served ++ [.evictPrefix 0 7]) start).backend).Perm
        (handedBack (runAll Operation.step (served ++ [.evictPrefix 0 7]) start).backend ++
          lostPages (served ++ [.evictPrefix 0 7]) start) := by
  have hintact : AllAllowed Operation.step
      (fun cache operation => ¬ Exhausted (operation.result cache))
      (served ++ [.evictPrefix 0 7]) start := by decide +kernel
  have hidle : ∀ id, (runAll Operation.step (served ++ [.evictPrefix 0 7])
      start).sequences.get? id = none := by
    apply Arena.get?_eq_none
    decide +kernel
  have hbare : (runAll Operation.step (served ++ [.evictPrefix 0 7]) start).prefixes = ∅ := by
    apply ExtTreeMap.eq_empty_iff_size_eq_zero.mpr
    decide +kernel
  generalize hfinal : runAll Operation.step (served ++ [.evictPrefix 0 7]) start = final at *
  exact drained_holds_nothing plain_lawful.toRetires plain_immediateHonest new_start hintact hfinal
    hidle hbare

end SeqCache
