import SeqCache.Manager.Operations

/-!
# Recomputing ownership from first principles

`computeStats` and `validate` rebuild every count and every total from the ownership
records, independently of the incremental accounting.
-/

namespace SeqCache

open Machine Program Std

variable {R : Runtime}

/-- `try_fold` of checked additions. -/
def checkedSum : List ℕ → Option ℕ :=
  List.foldlM checkedAdd 0

/-- Pages a sequence holds: its table and the new pages of a pending append. -/
def SequenceRecord.heldPages {Transaction : Type} (record : SequenceRecord Transaction) :
    List PageId :=
  record.pages ++ (record.pending.map PendingAppend.newPages).getD []

namespace SequenceCache

def computeStats (cache : SequenceCache R) : CacheResult R CacheStats := do
  let residentPages ← okOr (checkedAdd cache.pages.values.length cache.deferredPages)
    (.error .arithmeticOverflow)
  let reservedPages ←
    okOr (checkedSum (cache.sequences.values.map SequenceRecord.reservedPages))
      (.error .arithmeticOverflow)
  let activePrivateStateBytes ←
    okOr (checkedSum (cache.sequences.values.map SequenceRecord.privateStateBytes))
      (.error .arithmeticOverflow)
  let pageTableBytes ←
    okOr (checkedSum (cache.sequences.values.map SequenceRecord.pageTableBytes))
      (.error .arithmeticOverflow)
  let retainedSnapshotBytes ←
    okOr (checkedSum (cache.prefixes.toList.map fun item => item.2.snapshotBytes))
      (.error .arithmeticOverflow)
  let uniqueResidentPageBytes ← okOr (checkedMul residentPages cache.pageBytes)
    (.error .arithmeticOverflow)
  let outstandingReservationBytes ← okOr (checkedMul reservedPages cache.pageBytes)
    (.error .arithmeticOverflow)
  let reclaimablePrefixOnlyBytes ←
    okOr (checkedMul (cache.pages.values.countP PageRecord.isReclaimable) cache.pageBytes)
      (.error .arithmeticOverflow)
  let stats : CacheStats :=
    { activeSequences := cache.sequences.values.length
      retainedPrefixEntries := cache.prefixes.size
      internedTokenBlocks := cache.index.blockCount
      residentPages := residentPages
      freePages := 0
      reservedPages := reservedPages
      deferredRetirementPages := cache.deferredPages
      uniqueResidentPageBytes := uniqueResidentPageBytes
      outstandingReservationBytes := outstandingReservationBytes
      activePrivateStateBytes := activePrivateStateBytes
      retainedSnapshotBytes := retainedSnapshotBytes
      pageTableBytes := pageTableBytes
      reclaimablePrefixOnlyBytes := reclaimablePrefixOnlyBytes
      totalManagedBytes := 0 }
  let totalManagedBytes ← okOr (totalBytes stats) (.error .arithmeticOverflow)
  let stats := { stats with totalManagedBytes := totalManagedBytes }
  pure { stats with freePages := cache.freePagesOf stats }

/-- An empty tail page beyond a position that ends on a page boundary. -/
def hasPreallocatedTail (cache : SequenceCache R)
    (record : SequenceRecord R.AppendTransaction) (expectedPages : ℕ) : Bool :=
  record.position % cache.config.pageTokens = 0 &&
    record.pages.length = wrappingAdd expectedPages 1 &&
    match record.pages.getLast? with
    | some tail =>
        match cache.pages.get? tail with
        | some page => page.validTokens = 0 && page.sealed = false
        | none => false
    | none => false

/-- The new pages of a pending append are private and empty. -/
def checkPendingPages (cache : SequenceCache R) : List PageId → CacheResult R Unit
  | [] => pure ()
  | id :: rest => do
      let page ← cache.pageRecord id
      ensure (¬ (page.validTokens ≠ 0 ∨ page.sealed = true ∨ page.activeRefs ≠ 1 ∨
          page.prefixRefs ≠ 0))
        (.error (.invariant "pending append page is not private and empty"))
      cache.checkPendingPages rest

/-- The last page holds exactly the rows the position says, and is private while it can
still be written. -/
def checkTail (cache : SequenceCache R) (record : SequenceRecord R.AppendTransaction)
    (preallocated : Bool) : CacheResult R Unit :=
  match record.pages.getLast?.filter fun _ => !preallocated with
  | none => pure ()
  | some tail => do
      let page ← cache.pageRecord tail
      let expected :=
        if record.position % cache.config.pageTokens = 0 then cache.config.pageTokens
        else record.position % cache.config.pageTokens
      ensure (page.validTokens = expected)
        (.error (.invariant "tail valid rows disagree with position"))
      ensure (¬ (expected < cache.config.pageTokens ∧
          (page.sealed = true ∨ page.activeRefs ≠ 1 ∨ page.prefixRefs ≠ 0)))
        (.error (.invariant "writable tail is shared"))

def checkSequence (cache : SequenceCache R) (record : SequenceRecord R.AppendTransaction) :
    CacheResult R Unit := do
  ensure (record.position ≤ record.maxPosition)
    (.error (.invariant "sequence exceeds maximum position"))
  let expectedPages ← okOr (checkedDivCeil record.position cache.config.pageTokens)
    (.error .arithmeticOverflow)
  let preallocated := cache.hasPreallocatedTail record expectedPages
  ensure (record.pages.length = expectedPages ∨ preallocated = true)
    (.error (.invariant "sequence position disagrees with pages"))
  let pendingPages := (record.pending.map PendingAppend.newPages).getD []
  cache.checkPendingPages pendingPages
  cache.checkTail record preallocated
  let maxPages ← okOr (checkedDivCeil record.maxPosition cache.config.pageTokens)
    (.error .arithmeticOverflow)
  ensure
    (wrappingAdd (wrappingAdd record.pages.length pendingPages.length) record.reservedPages =
      maxPages)
    (.error (.invariant "sequence reservation disagrees with maximum"))

/-- Every page of an entry is complete. -/
def checkEntryPages (cache : SequenceCache R) : List PageId → CacheResult R Unit
  | [] => pure ()
  | id :: rest => do
      let page ← cache.pageRecord id
      ensure (¬ (page.sealed = false ∨ page.validTokens ≠ cache.config.pageTokens))
        (.error (.invariant "prefix references writable page"))
      cache.checkEntryPages rest

def checkEntry (cache : SequenceCache R) (entry : PrefixEntry R.Snapshot) :
    CacheResult R Unit := do
  ensure (¬ (entry.position = 0 ∨ entry.position % cache.config.pageTokens ≠ 0 ∨
      wrappingMul entry.pages.length cache.config.pageTokens ≠ entry.position))
    (.error (.invariant "prefix is not page aligned"))
  cache.checkEntryPages entry.pages

/-- Handles held by sequences, with multiplicity: the map `active_refs` of the source. -/
def activeHolders (cache : SequenceCache R) : List PageId :=
  cache.sequences.values.flatMap SequenceRecord.heldPages

/-- Handles held by retained entries, with multiplicity: the map `prefix_refs`. -/
def prefixHolders (cache : SequenceCache R) : List PageId :=
  cache.prefixes.toList.flatMap fun item => item.2.pages

/-- The counts stored in a page record are the number of its holders. -/
def checkPage (cache : SequenceCache R) (id : PageId) (page : PageRecord R.Page) :
    CacheResult R Unit := do
  ensure (¬ (page.activeRefs ≠ cache.activeHolders.count id ∨
      page.prefixRefs ≠ cache.prefixHolders.count id))
    (.error (.invariant "page reference count mismatch"))
  ensure (¬ (page.activeRefs = 0 ∧ page.prefixRefs = 0))
    (.error (.invariant "unowned resident page"))

def checkLru (cache : SequenceCache R) : Bool :=
  cache.lru.size = cache.prefixes.size &&
    cache.lru.toList.all fun item =>
      match cache.prefixes[item.2]? with
      | some entry => entry.lastUsed = item.1
      | none => false

/-- Run a check over a list, stopping at the first failure. -/
def checkAll {α : Type} (check : α → CacheResult R Unit) : List α → CacheResult R Unit
  | [] => pure ()
  | item :: rest => do
      check item
      checkAll check rest

def validate (cache : SequenceCache R) : CacheResult R Unit := do
  checkAll cache.checkSequence cache.sequences.values
  checkAll (fun item => cache.checkEntry item.2) cache.prefixes.toList
  checkAll (fun item => cache.checkPage (Handle.new item.1.slot item.1.generation) item.2)
    cache.pages.entries
  let recomputed ← cache.computeStats
  ensure (recomputed = cache.stats)
    (.error (.invariant "cached accounting differs from ownership"))
  ensure (cache.checkLru = true) (.error (.invariant "LRU index differs from prefixes"))
  ensure (cache.gauges = cache.stats.gauges)
    (.error (.invariant "exported gauges differ from exact cache state"))

end SequenceCache

end SeqCache
