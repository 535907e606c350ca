import SeqCache.Manager.Primitives

/-!
# Eviction, retirement and reclamation

`planEvictions` predicts which least recently used entries have to go; `commitEvictions`
carries a plan out and hands the pages no one holds any longer to the backend.
-/

namespace SeqCache

open Machine Program Std

variable {R : Runtime}

namespace SequenceCache

/-! ## Backend calls -/

/-- Record a call; the backend answers from the history before it. -/
def record (event : R.Event) : CacheM R Unit :=
  modify fun cache => { cache with backend := event :: cache.backend }

def callRetirePages (context : R.Context) (pages : List R.Page) :
    CacheM R (Except (RetireError R.Error R.Page) RetireOutcome) := do
  let cache ← get
  let answer := R.retirePages cache.backend context pages
  record (.retirePages context pages answer)
  pure answer

def callPollReclaimed (context : R.Context) : CacheM R (Except R.Error ℕ) := do
  let cache ← get
  let answer := R.pollReclaimed cache.backend context
  record (.pollReclaimed context answer)
  pure answer

def callUpdatePageTable (context : R.Context) (pages : List R.Page) (position : ℕ) :
    CacheM R (Except R.Error Unit) := do
  let cache ← get
  let answer := R.updatePageTable cache.backend context pages position
  record (.updatePageTable context pages position answer)
  pure answer

/-! ## Planning -/

def admissionBytes (cache : SequenceCache R) (pages : ℕ) (request : AdmissionRequest) :
    CacheResult R ℕ :=
  okOr
    (do
      let bytes ← checkedMul pages cache.pageBytes
      let bytes ← checkedAdd bytes request.privateStateBytes
      checkedAdd bytes request.pageTableBytes)
    (.error .arithmeticOverflow)

def admissionLimit (cache : SequenceCache R) (allowEmergency : Bool) : CacheResult R ℕ :=
  if allowEmergency then pure cache.config.maxManagedBytes
  else
    okOr (checkedSub cache.config.maxManagedBytes cache.config.emergencyBytes)
      (.error .arithmeticOverflow)

/-- Running totals of a plan.  `removed` lists the page references dropped so far; the
hash map of the source holds their multiplicities. -/
structure PlanTotals where
  total : ℕ
  pages : ℕ
  snapshots : ℕ
  entries : ℕ
  removed : List PageId

def PlanTotals.fits (totals : PlanTotals) (cache : SequenceCache R) (byteLimit : ℕ) : Bool :=
  totals.total ≤ byteLimit && totals.pages ≤ cache.pageCapacity &&
    totals.snapshots ≤ cache.config.maxSnapshotBytes &&
    totals.entries ≤ cache.config.maxPrefixEntries.getD usizeMax

/-- Drop one entry's reference to each of its pages; a page whose last reference goes is
credited when retirement is immediate. -/
def planPages (cache : SequenceCache R) : List PageId → PlanTotals → CacheResult R PlanTotals
  | [], totals => pure totals
  | id :: rest, totals => do
      let removed := totals.removed ++ [id]
      let page ← cache.pageRecord id
      if R.retirementIsImmediate cache.backend = true ∧ page.activeRefs = 0 ∧
          removed.count id = page.prefixRefs then do
        let pages ← okOr (checkedSub totals.pages 1) (.error .arithmeticOverflow)
        let total ← okOr (checkedSub totals.total cache.pageBytes) (.error .arithmeticOverflow)
        cache.planPages rest { totals with total := total, pages := pages, removed := removed }
      else cache.planPages rest { totals with removed := removed }

/-- The totals after one more entry is planned for eviction. -/
def planEntry (cache : SequenceCache R) (entry : PrefixEntry R.Snapshot)
    (totals : PlanTotals) : CacheResult R PlanTotals := do
  let snapshots ← okOr (checkedSub totals.snapshots entry.snapshotBytes)
    (.error .arithmeticOverflow)
  let total ← okOr (checkedSub totals.total entry.snapshotBytes) (.error .arithmeticOverflow)
  let entries ← okOr (checkedSub totals.entries 1)
    (.panic "attempt to subtract with overflow")
  cache.planPages entry.pages
    { totals with total := total, snapshots := snapshots, entries := entries }

/-- The loop of `planEvictions` over the entries in LRU order. -/
def planLoop (cache : SequenceCache R) (byteLimit : ℕ) (protectedEntry : Option PrefixEntryId) :
    List PrefixEntryId → List PrefixEntryId → PlanTotals →
      CacheResult R (Option (List PrefixEntryId))
  | [], _, _ => pure none
  | id :: rest, plan, totals =>
      if some id = protectedEntry then cache.planLoop byteLimit protectedEntry rest plan totals
      else do
        let entry ← okOr cache.prefixes[id]? (.panic "no entry found for key")
        let totals ← cache.planEntry entry totals
        if totals.fits cache byteLimit then pure (some (plan ++ [id]))
        else cache.planLoop byteLimit protectedEntry rest (plan ++ [id]) totals

def planEvictions (cache : SequenceCache R) (extraBytes extraPages byteLimit : ℕ)
    (protectedEntry : Option PrefixEntryId) (targetSnapshotBytes targetEntryCount : Option ℕ) :
    CacheResult R (Option (List PrefixEntryId)) := do
  let total ← okOr (checkedAdd cache.stats.totalManagedBytes extraBytes)
    (.error .arithmeticOverflow)
  let pages ← okOr
    ((checkedAdd cache.stats.residentPages cache.stats.reservedPages).bind fun pages =>
      checkedAdd pages extraPages)
    (.error .arithmeticOverflow)
  let totals : PlanTotals :=
    { total := total
      pages := pages
      snapshots := targetSnapshotBytes.getD cache.stats.retainedSnapshotBytes
      entries := targetEntryCount.getD cache.prefixes.size
      removed := [] }
  if totals.fits cache byteLimit then pure (some [])
  else cache.planLoop byteLimit protectedEntry (cache.lru.toList.map Prod.snd) [] totals

/-! ## Retirement -/

/-- Check that every page can be retired and count those held by prefixes only. -/
def countReclaimable (cache : SequenceCache R) : List PageId → ℕ → CacheResult R ℕ
  | [], reclaimablePages => pure reclaimablePages
  | id :: rest, reclaimablePages => do
      let slot ← okOr (cache.pages.slot? id) (.error .stalePage)
      ensure (slot.generation ≠ u32Max) (.error (.idExhausted "page generation"))
      let record ← okOr slot.value (.error .stalePage)
      ensure record.physical.isSome (.error .stalePage)
      let reclaimablePages ←
        okOr (checkedAdd reclaimablePages (if record.isReclaimable then 1 else 0))
          (.error .arithmeticOverflow)
      cache.countReclaimable rest reclaimablePages

/-- Move the storage out of the page records. -/
def takePhysical : List PageId → CacheM R (List R.Page)
  | [] => pure []
  | id :: rest => do
      let record ← reads (·.pageRecord id)
      modify fun cache =>
        { cache with pages := cache.pages.set id { record with physical := none } }
      let page ← okOr record.physical (.error .stalePage)
      let pages ← takePhysical rest
      pure (page :: pages)

/-- Put storage back into the page records. -/
def restorePhysical : List (PageId × R.Page) → CacheM R Unit
  | [] => pure ()
  | (id, page) :: rest => do
      updatePage id fun record => { record with physical := some page }
      restorePhysical rest

def removePages : List PageId → CacheM R Unit
  | [] => pure ()
  | id :: rest => do
      removePage id
      removePages rest

/-- The part of `retire_page_ids` after the batch was found retirable. -/
def retireBatch (ids : List PageId) (reclaimable : ℕ) (context : R.Context) :
    CacheM R Unit := do
  let physical ← takePhysical ids
  match ← callRetirePages context physical with
  | .error failure =>
      restorePhysical (ids.zip failure.pages)
      throw (.error (.backend failure.error))
  | .ok outcome =>
      ensure (outcome.deferredPages ≤ ids.length)
        (.error (.invariant "backend deferred more pages than were retired"))
      let cache ← get
      let deferredPages ← okOr (checkedAdd cache.deferredPages outcome.deferredPages)
        (.error .arithmeticOverflow)
      removePages ids
      modify fun cache =>
        { cache with
          deferredPages := deferredPages
          stats := { cache.stats with reclaimablePrefixOnlyBytes := reclaimable } }

def retirePageIds (ids : List PageId) (context : R.Context) : CacheM R Unit :=
  if ids = [] then pure ()
  else do
    let reclaimablePages ← reads (·.countReclaimable ids 0)
    let cache ← get
    let retiredBytes ← okOr (checkedMul reclaimablePages cache.pageBytes)
      (.error .arithmeticOverflow)
    let reclaimable ← okOr (checkedSub cache.stats.reclaimablePrefixOnlyBytes retiredBytes)
      (.error (.invariant "retired pages exceed reclaimable accounting"))
    retireBatch ids reclaimable context

/-! ## Carrying a plan out -/

/-- Snapshot bytes and page references that the listed entries hold. -/
def removedBy (cache : SequenceCache R) :
    List PrefixEntryId → ℕ → List PageId → CacheResult R (ℕ × List PageId)
  | [], bytes, removed => pure (bytes, removed)
  | id :: rest, bytes, removed => do
      let entry ← okOr cache.prefixes[id]? (.error .stalePrefix)
      let bytes ← okOr (checkedAdd bytes entry.snapshotBytes) (.error .arithmeticOverflow)
      cache.removedBy rest bytes (removed ++ entry.pages)

/-- Pages whose last reference is among `removed`. -/
def lastHeld (cache : SequenceCache R) (removed : List PageId) (id : PageId) : Bool :=
  match cache.pages.get? id with
  | some page => page.activeRefs = 0 && page.prefixRefs = removed.count id
  | none => false

def decrementKept (retired : List PageId) : List PageId → CacheM R Unit
  | [] => pure ()
  | id :: rest =>
      if id ∈ retired then decrementKept retired rest
      else do
        decrementPrefixRef id
        decrementKept retired rest

/-- Run a program of the prefix index. -/
def onIndex {α : Type} (program : PrefixIndex.IndexM R α) : CacheM R α :=
  zoom SequenceCache.index (fun index cache => { cache with index := index }) program

def removeEntries (retired : List PageId) : List PrefixEntryId → CacheM R Unit
  | [] => pure ()
  | id :: rest => do
      let cache ← get
      let entry ← okOr cache.prefixes[id]? (.error .stalePrefix)
      modify fun cache =>
        { cache with
          prefixes := cache.prefixes.erase id
          lru := cache.lru.erase (entry.lastUsed, id) }
      onIndex (PrefixIndex.remove entry.key entry.blocks)
      decrementKept retired entry.pages
      removeEntries retired rest

def commitEvictions (entries : List PrefixEntryId) (context : R.Context) : CacheM R Unit :=
  if entries = [] then pure ()
  else do
    let (removedSnapshotBytes, removed) ← reads (·.removedBy entries 0 [])
    let cache ← get
    let retireIds := (R.hashOrder cache.backend removed.dedup).filter (cache.lastHeld removed)
    let _ ← okOr (checkedMul retireIds.length cache.pageBytes) (.error .arithmeticOverflow)
    let retainedSnapshotBytes ←
      okOr (checkedSub cache.stats.retainedSnapshotBytes removedSnapshotBytes)
        (.error (.invariant "evicted snapshots exceed retained accounting"))
    retirePageIds retireIds context
    removeEntries retireIds entries
    updateStats fun stats => { stats with retainedSnapshotBytes := retainedSnapshotBytes }
    refreshStats

def evictPrefix (entry : PrefixEntryId) (context : R.Context) : CacheM R Unit := do
  let cache ← get
  ensure (cache.prefixes.contains entry) (.error .stalePrefix)
  commitEvictions [entry] context
  refreshStats

def reclaimDeferred (context : R.Context) : CacheM R ℕ := do
  match ← callPollReclaimed context with
  | .error error => throw (.error (.backend error))
  | .ok reclaimed =>
      let cache ← get
      ensure (reclaimed ≤ cache.deferredPages)
        (.error (.invariant "backend reclaimed more pages than were deferred"))
      modify fun cache => { cache with deferredPages := cache.deferredPages - reclaimed }
      refreshStats
      pure reclaimed

end SequenceCache

end SeqCache
