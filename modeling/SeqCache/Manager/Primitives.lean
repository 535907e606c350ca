import SeqCache.Manager.State

/-!
# Records, reference counts and accounting

The private helpers every public operation is built from: resolving handles, moving
reference counts together with the reclaimable bytes, inserting into and removing from
the two arenas, the logical clock, and the incremental statistics.
-/

namespace SeqCache

open Machine Program Std

variable {R : Runtime}

namespace SequenceCache

/-! ## Resolving handles -/

def pageRecord (cache : SequenceCache R) (id : PageId) : CacheResult R (PageRecord R.Page) :=
  okOr (cache.pages.get? id) (.error .stalePage)

def sequenceRecord (cache : SequenceCache R) (id : SequenceId) :
    CacheResult R (SequenceRecord R.AppendTransaction) :=
  okOr (cache.sequences.get? id) (.error .staleSequence)

/-- Write access to a page record. -/
def updatePage (id : PageId) (update : PageRecord R.Page → PageRecord R.Page) :
    CacheM R Unit := do
  let record ← reads (·.pageRecord id)
  modify fun cache => { cache with pages := cache.pages.set id (update record) }

/-- Write access to a sequence record. -/
def updateSequence (id : SequenceId)
    (update : SequenceRecord R.AppendTransaction → SequenceRecord R.AppendTransaction) :
    CacheM R Unit := do
  let record ← reads (·.sequenceRecord id)
  modify fun cache => { cache with sequences := cache.sequences.set id (update record) }

/-- Backend storage of one page. -/
def physicalRef (pages : Arena (PageRecord R.Page)) (id : PageId) : CacheResult R R.Page := do
  let record ← okOr (pages.get? id) (.error .stalePage)
  okOr record.physical (.error .stalePage)

def physicalRefsFrom (pages : Arena (PageRecord R.Page)) :
    List PageId → CacheResult R (List R.Page)
  | [] => pure []
  | id :: rest => do
      let page ← physicalRef pages id
      let refs ← physicalRefsFrom pages rest
      pure (page :: refs)

def updateStats (update : CacheStats → CacheStats) : CacheM R Unit :=
  modify fun cache => { cache with stats := update cache.stats }

/-! ## Reference counts -/

def incrementActiveRef (id : PageId) : CacheM R Unit := do
  let cache ← get
  let page ← reads (·.pageRecord id)
  let activeRefs ← okOr (checkedAdd page.activeRefs 1) (.error .arithmeticOverflow)
  let reclaimable ← okOr
    (if page.isReclaimable then
      checkedSub cache.stats.reclaimablePrefixOnlyBytes cache.pageBytes
    else some cache.stats.reclaimablePrefixOnlyBytes)
    (.error (.invariant "shared page missing from reclaimable accounting"))
  updatePage id fun page => { page with activeRefs := activeRefs }
  updateStats fun stats => { stats with reclaimablePrefixOnlyBytes := reclaimable }

def decrementActiveRef (id : PageId) : CacheM R Unit := do
  let cache ← get
  let page ← reads (·.pageRecord id)
  let activeRefs ← okOr (checkedSub page.activeRefs 1)
    (.error (.invariant "missing active page reference"))
  let reclaimable ← okOr
    (if activeRefs = 0 ∧ page.prefixRefs ≠ 0 then
      checkedAdd cache.stats.reclaimablePrefixOnlyBytes cache.pageBytes
    else some cache.stats.reclaimablePrefixOnlyBytes)
    (.error .arithmeticOverflow)
  updatePage id fun page => { page with activeRefs := activeRefs }
  updateStats fun stats => { stats with reclaimablePrefixOnlyBytes := reclaimable }

def incrementPrefixRef (id : PageId) : CacheM R Unit := do
  let cache ← get
  let page ← reads (·.pageRecord id)
  let prefixRefs ← okOr (checkedAdd page.prefixRefs 1) (.error .arithmeticOverflow)
  let reclaimable ← okOr
    (if page.activeRefs = 0 ∧ page.prefixRefs = 0 then
      checkedAdd cache.stats.reclaimablePrefixOnlyBytes cache.pageBytes
    else some cache.stats.reclaimablePrefixOnlyBytes)
    (.error .arithmeticOverflow)
  updatePage id fun page => { page with prefixRefs := prefixRefs }
  updateStats fun stats => { stats with reclaimablePrefixOnlyBytes := reclaimable }

def decrementPrefixRef (id : PageId) : CacheM R Unit := do
  let cache ← get
  let page ← reads (·.pageRecord id)
  let prefixRefs ← okOr (checkedSub page.prefixRefs 1)
    (.error (.invariant "missing prefix page reference"))
  let reclaimable ← okOr
    (if page.isReclaimable ∧ prefixRefs = 0 then
      checkedSub cache.stats.reclaimablePrefixOnlyBytes cache.pageBytes
    else some cache.stats.reclaimablePrefixOnlyBytes)
    (.error (.invariant "shared page missing from reclaimable accounting"))
  updatePage id fun page => { page with prefixRefs := prefixRefs }
  updateStats fun stats => { stats with reclaimablePrefixOnlyBytes := reclaimable }

/-! ## Page arena -/

def preparePageSlot (cache : SequenceCache R) : CacheResult R Unit :=
  ensure (¬ (cache.pages.free = [] ∧ cache.pages.slots.length > u32Max))
    (.error (.idExhausted "page slot"))

def preparePageSlots (cache : SequenceCache R) (count : ℕ) : CacheResult R Unit := do
  let newSlots := count - cache.pages.free.length
  let finalLength ← okOr (checkedAdd cache.pages.slots.length newSlots)
    (.error (.idExhausted "page slot"))
  ensure (finalLength ≤ u32Max + 1) (.error (.idExhausted "page slot"))

def peekPageId (cache : SequenceCache R) : CacheResult R PageId :=
  match cache.pages.free with
  | slot :: _ => do
      let old ← okOr cache.pages.slots[slot]? (.panic "index out of bounds")
      pure (Handle.new slot old.generation)
  | [] => do
      cache.preparePageSlot
      pure (Handle.new cache.pages.slots.length 0)

def insertPagePrepared (value : PageRecord R.Page) : CacheM R PageId := do
  let cache ← get
  let (id, pages) ← okOr (cache.pages.insert value) (.panic "index out of bounds")
  modify fun cache => { cache with pages := pages }
  pure id

def insertPage (value : PageRecord R.Page) : CacheM R PageId := do
  reads (·.preparePageSlot)
  insertPagePrepared value

def removePage (id : PageId) : CacheM R Unit := do
  let cache ← get
  let slot ← okOr (cache.pages.slot? id) (.error .stalePage)
  ensure (slot.generation + 1 ≤ u32Max) (.error (.idExhausted "page generation"))
  ensure slot.value.isSome (.error .stalePage)
  modify fun cache => { cache with pages := cache.pages.release id }

/-! ## Sequence arena -/

def prepareSequenceSlot (cache : SequenceCache R) : CacheResult R Unit :=
  ensure (¬ (cache.sequences.free = [] ∧ cache.sequences.slots.length > u32Max))
    (.error (.idExhausted "sequence slot"))

def insertSequence (value : SequenceRecord R.AppendTransaction) : CacheM R SequenceId := do
  let cache ← get
  let reservedPages ← okOr (checkedAdd cache.stats.reservedPages value.reservedPages)
    (.error .arithmeticOverflow)
  let activePrivateStateBytes ←
    okOr (checkedAdd cache.stats.activePrivateStateBytes value.privateStateBytes)
      (.error .arithmeticOverflow)
  let pageTableBytes ← okOr (checkedAdd cache.stats.pageTableBytes value.pageTableBytes)
    (.error .arithmeticOverflow)
  reads (·.prepareSequenceSlot)
  let (id, sequences) ← okOr (cache.sequences.insert value) (.panic "index out of bounds")
  modify fun cache => { cache with sequences := sequences }
  updateStats fun stats =>
    { stats with
      reservedPages := reservedPages
      activePrivateStateBytes := activePrivateStateBytes
      pageTableBytes := pageTableBytes }
  pure id

def removeSequence (id : SequenceId) : CacheM R Unit := do
  let cache ← get
  let slot ← okOr (cache.sequences.slot? id) (.error .staleSequence)
  ensure (slot.generation + 1 ≤ u32Max) (.error (.idExhausted "sequence generation"))
  let record ← okOr slot.value (.error .staleSequence)
  let reservedPages ← okOr (checkedSub cache.stats.reservedPages record.reservedPages)
    (.error (.invariant "removed sequence exceeds reserved accounting"))
  let activePrivateStateBytes ←
    okOr (checkedSub cache.stats.activePrivateStateBytes record.privateStateBytes)
      (.error (.invariant "removed sequence exceeds private-state accounting"))
  let pageTableBytes ← okOr (checkedSub cache.stats.pageTableBytes record.pageTableBytes)
    (.error (.invariant "removed sequence exceeds page-table accounting"))
  modify fun cache => { cache with sequences := cache.sequences.release id }
  updateStats fun stats =>
    { stats with
      reservedPages := reservedPages
      activePrivateStateBytes := activePrivateStateBytes
      pageTableBytes := pageTableBytes }

def prepareRemoveSequence (cache : SequenceCache R) (id : SequenceId) :
    CacheResult R Unit := do
  let slot ← okOr ((cache.sequences.slot? id).filter fun slot => slot.value.isSome)
    (.error .staleSequence)
  ensure (slot.generation ≠ u32Max) (.error (.idExhausted "sequence generation"))

/-! ## Clock and identities -/

/-- Entries in order of their last use, as `tick` sorts them. -/
def useOrder (cache : SequenceCache R) : List PrefixEntryId :=
  ((cache.prefixes.toList.map fun item => (item.2.lastUsed, item.1)).insertionSort
    fun left right => left.1 < right.1 ∨ left.1 = right.1 ∧ left.2 ≤ right.2).map Prod.snd

/-- Restart the clock, numbering the entries by their order of last use. -/
def renormalize (cache : SequenceCache R) : SequenceCache R :=
  let prefixes := cache.useOrder.zipIdx.foldl
    (fun prefixes item =>
      prefixes.modify item.1 fun entry => { entry with lastUsed := item.2 + 1 })
    cache.prefixes
  { cache with
    prefixes := prefixes
    clock := prefixes.size
    lru := ExtTreeSet.ofList (prefixes.toList.map fun item => (item.2.lastUsed, item.1))
      lexOrd.compare }

def tick : CacheM R ℕ := do
  modify fun cache => if cache.clock = usizeMax then cache.renormalize else cache
  let cache ← get
  let clock ← okOr (checkedAdd cache.clock 1) (.panic "attempt to add with overflow")
  modify fun cache => { cache with clock := clock }
  pure clock

/-- Move an entry to the most recently used end. -/
def touch (clock : ℕ) (id : PrefixEntryId) (entry : PrefixEntry R.Snapshot) : CacheM R Unit :=
  modify fun cache =>
    { cache with
      prefixes := cache.prefixes.insert id { entry with lastUsed := clock }
      lru := (cache.lru.erase (entry.lastUsed, id)).insert (clock, id) }

def nextAppendNonce : CacheM R ℕ := do
  let cache ← get
  let next ← okOr (checkedAdd cache.appendNonce 1) (.error (.idExhausted "append"))
  modify fun cache => { cache with appendNonce := next }
  pure cache.appendNonce

def preparePrefixId (cache : SequenceCache R) : CacheResult R Unit :=
  ensure (cache.nextPrefixId ≠ usizeMax) (.error (.idExhausted "prefix entry"))

/-! ## Statistics -/

def publishGauges : CacheM R Unit :=
  modify fun cache => { cache with gauges := cache.stats.gauges }

/-- Sum of all byte classes, from the resident and the reservation bytes on. -/
def totalBytes (stats : CacheStats) : Option ℕ := do
  let total ← checkedAdd stats.uniqueResidentPageBytes stats.outstandingReservationBytes
  let total ← checkedAdd total stats.activePrivateStateBytes
  let total ← checkedAdd total stats.retainedSnapshotBytes
  checkedAdd total stats.pageTableBytes

/-- Pages that still fit both the byte budget and the slots of the backend. -/
def freePagesOf (cache : SequenceCache R) (stats : CacheStats) : ℕ :=
  min ((cache.config.maxManagedBytes - stats.totalManagedBytes) / cache.pageBytes)
    (cache.pageCapacity - saturatingAdd stats.residentPages stats.reservedPages)

def refreshStats : CacheM R Unit := do
  let cache ← get
  let ownedResidentPages ←
    okOr (checkedSub cache.pages.slots.length cache.pages.free.length)
      (.error (.invariant "free page slots exceed page arena"))
  let residentPages ← okOr (checkedAdd ownedResidentPages cache.deferredPages)
    (.error .arithmeticOverflow)
  updateStats fun stats => { stats with residentPages := residentPages }
  let activeSequences ←
    okOr (checkedSub cache.sequences.slots.length cache.sequences.free.length)
      (.error (.invariant "free sequence slots exceed sequence arena"))
  updateStats fun stats =>
    { stats with
      activeSequences := activeSequences
      retainedPrefixEntries := cache.prefixes.size
      internedTokenBlocks := cache.index.blockCount
      deferredRetirementPages := cache.deferredPages }
  let uniqueResidentPageBytes ← okOr (checkedMul residentPages cache.pageBytes)
    (.error .arithmeticOverflow)
  updateStats fun stats => { stats with uniqueResidentPageBytes := uniqueResidentPageBytes }
  let outstandingReservationBytes ←
    okOr (checkedMul cache.stats.reservedPages cache.pageBytes) (.error .arithmeticOverflow)
  updateStats fun stats =>
    { stats with outstandingReservationBytes := outstandingReservationBytes }
  let cache ← get
  let totalManagedBytes ← okOr (totalBytes cache.stats) (.error .arithmeticOverflow)
  updateStats fun stats => { stats with totalManagedBytes := totalManagedBytes }
  modify fun cache =>
    { cache with stats := { cache.stats with freePages := cache.freePagesOf cache.stats } }
  publishGauges

end SequenceCache

end SeqCache
