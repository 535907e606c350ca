import SeqCache.Manager.Append

/-!
# Public operations

Construction, prefix lookup, admission, branching, retention and completion, and the
type of all operations a client may call.
-/

namespace SeqCache

open Machine Program Std

variable {R : Runtime}

namespace SequenceCache

/-! ## Construction -/

def validateConfig (config : CacheConfig) (pageBytes : ℕ) : Except ConfigError Unit := do
  ensure (config.pageTokens ≠ 0) .zeroPageTokens
  ensure (pageBytes ≠ 0) .zeroPageBytes
  ensure (config.maxManagedBytes ≠ 0) .zeroManagedBytes
  ensure (pageBytes ≤ config.maxManagedBytes) .pageExceedsManagedBytes
  ensure (config.emergencyBytes ≤ config.maxManagedBytes) .emergencyCapacityExceedsManagedBytes
  ensure (config.maxSnapshotBytes ≤ config.maxManagedBytes) .snapshotLimitExceedsManagedBytes
  ensure (config.maxManagedBytes ≤ i64Max) .managedBytesExceedMetricRange
  let maxPages := config.maxManagedBytes / pageBytes
  let _ ← okOr (checkedMul maxPages pageBytes) .capacityOverflow
  pure ()

/-- The cache before its first `refresh_stats`. -/
def emptyCache (R : Runtime) (config : CacheConfig) : SequenceCache R where
  config := config
  pageBytes := R.pageBytes
  pageCapacity := R.pageCapacity.getD usizeMax
  backend := []
  gauges := StatsOf.replicate 0
  index := PrefixIndex.new
  pages := Arena.empty
  sequences := Arena.empty
  prefixes := ∅
  lru := ∅
  nextPrefixId := 0
  clock := 0
  appendNonce := 0
  stats := StatsOf.replicate 0
  deferredPages := 0

def new (R : Runtime) (config : CacheConfig) : CacheResult R (SequenceCache R) :=
  match validateConfig config R.pageBytes with
  | .error error => throw (.error (.config error))
  | .ok () =>
      match refreshStats (emptyCache R config) with
      | .ok () cache => pure cache
      | .error failure _ => throw failure

/-! ## Lookup -/

def cacheablePrefixTokens (cache : SequenceCache R) (promptTokens : ℕ) : ℕ :=
  (promptTokens - 1) / cache.config.pageTokens * cache.config.pageTokens

/-- Entry found for a query, before its clock is refreshed. -/
def findPrefix (cache : SequenceCache R) (tokens : List Token) : Option PrefixEntryId :=
  let position := cache.cacheablePrefixTokens tokens.length
  if position = 0 then none
  else
    (cache.index.lookupKey (tokens.take position) cache.config.pageTokens).bind
      cache.index.longest

def lookupPrefix (tokens : List Token) : CacheM R (Option PrefixMatch) := do
  let cache ← get
  match cache.findPrefix tokens with
  | none => pure none
  | some id =>
      let clock ← tick
      let cache ← get
      match cache.prefixes[id]? with
      | none => pure none
      | some entry =>
          touch clock id entry
          pure (some ⟨id, entry.position, entry.pages.length⟩)

def containsPrefix (cache : SequenceCache R) (tokens : List Token) (position : ℕ) : Bool :=
  position ≠ 0 && position % cache.config.pageTokens = 0 && tokens.length ≥ position &&
    (cache.index.exact (tokens.take position) cache.config.pageTokens).isSome

/-! ## Admission -/

/-- The entry, position and pages an admission starts from. -/
def admissionStart (cache : SequenceCache R) (prefixMatch : Option PrefixMatch) :
    CacheResult R (Option PrefixEntryId × ℕ × List PageId) :=
  match prefixMatch with
  | none => pure (none, 0, [])
  | some found => do
      let entry ← okOr cache.prefixes[found.entry]? (.error .stalePrefix)
      ensure (¬ (entry.position ≠ found.position ∨ entry.pages.length ≠ found.pageCount))
        (.error .stalePrefix)
      pure (some found.entry, entry.position, entry.pages)

/-- Every listed page has room for one more active reference. -/
def checkActiveRoom (cache : SequenceCache R) : List PageId → CacheResult R Unit
  | [] => pure ()
  | id :: rest => do
      let page ← cache.pageRecord id
      let _ ← okOr (checkedAdd page.activeRefs 1) (.error .arithmeticOverflow)
      cache.checkActiveRoom rest

def incrementActiveRefs : List PageId → CacheM R Unit
  | [] => pure ()
  | id :: rest => do
      incrementActiveRef id
      incrementActiveRefs rest

/-- The snapshot of an entry, for the restore callback. -/
def snapshotOf (cache : SequenceCache R) (prefixId : Option PrefixEntryId) :
    CacheResult R (Option R.Snapshot) :=
  match prefixId with
  | none => pure none
  | some id => do
      let entry ← okOr cache.prefixes[id]? (.panic "no entry found for key")
      pure (some entry.snapshot)

/-- Publish a page table for a sequence about to be admitted. -/
def publishTable (context : R.Context) (table : List R.Page) (position : ℕ) :
    CacheM R Unit := do
  match ← callUpdatePageTable context table position with
  | .ok () => pure ()
  | .error error => throw (.error (.backend error))

/-- The last steps of an admission: evict, share the pages, insert the sequence. -/
def completeAdmission (evictions : List PrefixEntryId) (sharedPages : List PageId)
    (value : SequenceRecord R.AppendTransaction) (context : R.Context) :
    CacheM R AdmissionOutcome := do
  commitEvictions evictions context
  incrementActiveRefs sharedPages
  let id ← insertSequence value
  refreshStats
  pure (.admitted id)

/-- `SequenceCache::admit`.  The callback `restore` sees the retained snapshot and the
aligned position. -/
def admitSequence (prefixMatch : Option PrefixMatch) (request : AdmissionRequest)
    (context : R.Context) (restore : Option R.Snapshot → ℕ → Except R.Error Unit) :
    CacheM R AdmissionOutcome := do
  let _ ← reclaimDeferred context
  let (prefixId, position, sharedPages) ← reads (·.admissionStart prefixMatch)
  ensure (position ≤ request.maxPosition) (.error .invalidPosition)
  let cache ← get
  let totalPages ← okOr (checkedDivCeil request.maxPosition cache.config.pageTokens)
    (.error .arithmeticOverflow)
  let reservedPages ← okOr (checkedSub totalPages sharedPages.length)
    (.error (.invariant "prefix exceeds maximum position"))
  let extra ← reads (·.admissionBytes reservedPages request)
  let limit ← reads (·.admissionLimit request.allowEmergency)
  match ← reads (·.planEvictions extra reservedPages limit prefixId none none) with
  | none => pure .wouldBlock
  | some evictions =>
      reads (·.prepareSequenceSlot)
      reads (·.checkActiveRoom sharedPages)
      let snapshot ← reads (·.snapshotOf prefixId)
      match restore snapshot position with
      | .error error => throw (.error (.backend error))
      | .ok () =>
          let table ← reads fun cache => physicalRefsFrom cache.pages sharedPages
          publishTable context table position
          completeAdmission evictions sharedPages
            { pages := sharedPages
              position := position
              maxPosition := request.maxPosition
              reservedPages := reservedPages
              privateStateBytes := request.privateStateBytes
              pageTableBytes := request.pageTableBytes
              pending := none }
            context

/-! ## Branching -/

def callCopyPartialPage (context : R.Context) (source : R.Page) (validTokens : ℕ) :
    CacheM R (Except R.Error R.Page) := do
  let cache ← get
  let answer := R.copyPartialPage cache.backend context source validTokens
  record (.copyPartialPage context source validTokens answer)
  pure answer

/-- The tail of a source that ends inside a page. -/
def branchTail (cache : SequenceCache R) (record : SequenceRecord R.AppendTransaction) :
    CacheResult R (Option PageId) :=
  if record.position % cache.config.pageTokens = 0 then pure none
  else do
    let tail ← okOr record.pages[record.position / cache.config.pageTokens]?
      (.error (.invariant "unaligned source has no tail"))
    pure (some tail)

/-- Copy the writable tail of the source, if it has one. -/
def copyTail (position : ℕ) (context : R.Context) : Option PageId →
    CacheM R (Option R.Page)
  | none => pure none
  | some tail => do
      let source ← reads fun cache => physicalRef cache.pages tail
      let cache ← get
      match ← callCopyPartialPage context source (position % cache.config.pageTokens) with
      | .ok page => pure (some page)
      | .error error => throw (.error (.backend error))

/-- Publish the branched table; a failure gives the copied page back. -/
def publishBranch (sharedPages : List PageId) (copied : Option R.Page) (position : ℕ)
    (context : R.Context) : CacheM R Unit := do
  let table ← reads fun cache => physicalRefsFrom cache.pages sharedPages
  match ← callUpdatePageTable context (table ++ copied.toList) position with
  | .ok () => pure ()
  | .error error =>
      rollbackPages context copied.toList
      throw (.error (.backend error))

/-- Register the copied tail as a private writable page. -/
def insertCopied (position : ℕ) : Option R.Page → CacheM R (List PageId)
  | none => pure []
  | some copied => do
      let cache ← get
      let id ← insertPage
        { physical := some copied
          activeRefs := 1
          prefixRefs := 0
          validTokens := position % cache.config.pageTokens
          sealed := false }
      pure [id]

/-- The last steps of a branch: evict, share the complete pages, register the copied
tail, insert the sequence. -/
def completeBranch (evictions : List PrefixEntryId) (sharedPages : List PageId)
    (copied : Option R.Page) (position reservedPages : ℕ) (request : AdmissionRequest)
    (context : R.Context) : CacheM R AdmissionOutcome := do
  commitEvictions evictions context
  incrementActiveRefs sharedPages
  let copiedIds ← insertCopied position copied
  let id ← insertSequence
    { pages := sharedPages ++ copiedIds
      position := position
      maxPosition := request.maxPosition
      reservedPages := reservedPages
      privateStateBytes := request.privateStateBytes
      pageTableBytes := request.pageTableBytes
      pending := none }
  refreshStats
  pure (.admitted id)

def branch (source : SequenceId) (request : AdmissionRequest) (context : R.Context) :
    CacheM R AdmissionOutcome := do
  let record ← reads (·.sequenceRecord source)
  ensure record.pending.isNone (.error .appendPending)
  let position := record.position
  ensure (position ≠ 0) (.error .invalidPosition)
  ensure (position ≤ request.maxPosition) (.error .invalidPosition)
  let cache ← get
  let completeCount := position / cache.config.pageTokens
  ensure (completeCount ≤ record.pages.length)
    (.error (.invariant "branch source has too few pages"))
  let sharedPages := record.pages.take completeCount
  let sourceTail ← reads (·.branchTail record)
  let copiedPages := if sourceTail.isSome then 1 else 0
  let totalPages ← okOr (checkedDivCeil request.maxPosition cache.config.pageTokens)
    (.error .arithmeticOverflow)
  let reservedPages ← okOr (checkedSub totalPages (completeCount + copiedPages))
    (.error (.invariant "branch exceeds admitted pages"))
  let pageCommitment ← okOr (checkedAdd reservedPages copiedPages)
    (.error .arithmeticOverflow)
  let extra ← reads (·.admissionBytes pageCommitment request)
  let limit ← reads (·.admissionLimit request.allowEmergency)
  match ← reads (·.planEvictions extra pageCommitment limit none none none) with
  | none => pure .wouldBlock
  | some evictions =>
      reads (·.prepareSequenceSlot)
      reads fun cache => if sourceTail.isSome then cache.preparePageSlot else pure ()
      reads (·.checkActiveRoom sharedPages)
      -- The predicted handle only feeds a debug assertion, which release builds leave out: it
      -- fails where the evictions free a slot.
      let _ ← reads fun cache =>
        if sourceTail.isSome then some <$> cache.peekPageId else pure none
      let copied ← copyTail position context sourceTail
      publishBranch sharedPages copied position context
      completeBranch evictions sharedPages copied position reservedPages request context

/-! ## Retention -/

/-- Every page of the sequence is complete. -/
def checkSealed (cache : SequenceCache R) : List PageId → CacheResult R Unit
  | [] => pure ()
  | id :: rest => do
      let page ← cache.pageRecord id
      ensure (¬ (page.sealed = false ∨ page.validTokens ≠ cache.config.pageTokens))
        (.error (.invariant "prefix contains an unsealed page"))
      cache.checkSealed rest

/-- Every listed page has room for one more prefix reference. -/
def checkPrefixRoom (cache : SequenceCache R) : List PageId → CacheResult R Unit
  | [] => pure ()
  | id :: rest => do
      let page ← cache.pageRecord id
      let _ ← okOr (checkedAdd page.prefixRefs 1) (.error .arithmeticOverflow)
      cache.checkPrefixRoom rest

def incrementPrefixRefs : List PageId → CacheM R Unit
  | [] => pure ()
  | id :: rest => do
      incrementPrefixRef id
      incrementPrefixRefs rest

/-- Snapshot bytes of the entries about to be evicted. -/
def evictedSnapshotBytes (cache : SequenceCache R) :
    List PrefixEntryId → ℕ → CacheResult R ℕ
  | [], total => pure total
  | id :: rest, total => do
      let entry ← okOr cache.prefixes[id]? (.error .stalePrefix)
      let total ← okOr (checkedAdd total entry.snapshotBytes) (.error .arithmeticOverflow)
      cache.evictedSnapshotBytes rest total

/-- Refresh an entry that already retains the prefix. -/
def retainDuplicate (existing : PrefixEntryId) : CacheM R RetainOutcome := do
  let clock ← tick
  let cache ← get
  let entry ← okOr cache.prefixes[existing]? (.error .stalePrefix)
  touch clock existing entry
  pure (.duplicate existing)

/-- The last steps of a retention, once the evictions are done. -/
def insertEntry (prepared : PreparedKey) (pages : List PageId) (position : ℕ)
    (snapshot : R.Snapshot) (retainedSnapshotBytes : ℕ) : CacheM R RetainOutcome := do
  let cache ← get
  let id := cache.nextPrefixId
  let nextPrefixId ← okOr (checkedAdd cache.nextPrefixId 1)
    (.error (.idExhausted "prefix entry"))
  modify fun cache => { cache with nextPrefixId := nextPrefixId }
  incrementPrefixRefs pages
  onIndex (PrefixIndex.commitKey prepared id)
  let clock ← tick
  modify fun cache =>
    { cache with
      prefixes := cache.prefixes.insert id
        { key := prepared.key
          blocks := prepared.blocks
          pages := pages
          position := position
          snapshot := snapshot
          snapshotBytes := R.retainedBytes snapshot
          lastUsed := clock }
      lru := cache.lru.insert (clock, id) }
  updateStats fun stats => { stats with retainedSnapshotBytes := retainedSnapshotBytes }
  refreshStats
  pure (.inserted id)

/-- Retention of a new prefix, from the point where its blocks are interned. -/
def retainPrepared (prepared : PreparedKey) (pages : List PageId) (position : ℕ)
    (snapshot : R.Snapshot) (nextSnapshotBytes entryCount : ℕ) (context : R.Context) :
    CacheM R RetainOutcome := do
  let cache ← get
  let snapshotBytes := R.retainedBytes snapshot
  match ← reads (·.planEvictions snapshotBytes 0 cache.config.maxManagedBytes none
      (some nextSnapshotBytes) (some entryCount)) with
  | none =>
      onIndex (PrefixIndex.rollbackKey prepared)
      throw (.error (if nextSnapshotBytes > cache.config.maxSnapshotBytes then .snapshotCapacity
        else .prefixCapacity))
  | some evictions =>
      reads (·.preparePrefixId)
      reads (·.checkPrefixRoom pages)
      let evicted ← reads (·.evictedSnapshotBytes evictions 0)
      let retainedSnapshotBytes ← okOr
        ((checkedSub cache.stats.retainedSnapshotBytes evicted).bind fun bytes =>
          checkedAdd bytes snapshotBytes)
        (.error .arithmeticOverflow)
      match ← attempt (commitEvictions evictions context) with
      | .error error =>
          onIndex (PrefixIndex.rollbackKey prepared)
          throw (.error error)
      | .ok () => insertEntry prepared pages position snapshot retainedSnapshotBytes

def retainPrefix (sequence : SequenceId) (tokens : List Token) (snapshot : R.Snapshot)
    (context : R.Context) : CacheM R RetainOutcome := do
  let record ← reads (·.sequenceRecord sequence)
  let cache ← get
  ensure (¬ (record.position = 0 ∨ record.position % cache.config.pageTokens ≠ 0 ∨
      tokens.length < record.position))
    (.error .invalidTokenPrefix)
  reads (·.checkSealed record.pages)
  match cache.index.exact (tokens.take record.position) cache.config.pageTokens with
  | some existing => retainDuplicate existing
  | none =>
      let snapshotBytes := R.retainedBytes snapshot
      ensure (snapshotBytes ≤ cache.config.maxSnapshotBytes) (.error .snapshotCapacity)
      let nextSnapshotBytes ←
        okOr (checkedAdd cache.stats.retainedSnapshotBytes snapshotBytes)
          (.error .arithmeticOverflow)
      let entryCount ← okOr (checkedAdd cache.prefixes.size 1) (.error .arithmeticOverflow)
      let prepared ← onIndex
        (PrefixIndex.prepareKey (tokens.take record.position) cache.config.pageTokens)
      retainPrepared prepared record.pages record.position snapshot nextSnapshotBytes entryCount
        context

/-! ## Completion -/

/-- Pages that only the finishing sequence holds. -/
def retirableOf (cache : SequenceCache R) : List PageId → CacheResult R (List PageId)
  | [] => pure []
  | id :: rest => do
      let page ← cache.pageRecord id
      let ids ← cache.retirableOf rest
      pure (if page.activeRefs = 1 ∧ page.prefixRefs = 0 then id :: ids else ids)

/-- Walk the pages beside the retired ones, which come in the same order, and give back
the references to the others. -/
def decrementShared : List PageId → List PageId → CacheM R Unit
  | _, [] => pure ()
  | retired, id :: rest =>
      if retired.head? = some id then decrementShared retired.tail rest
      else do
        decrementActiveRef id
        decrementShared retired rest

def finish (sequence : SequenceId) (context : R.Context) : CacheM R Unit := do
  let record ← reads (·.sequenceRecord sequence)
  ensure record.pending.isNone (.error .appendPending)
  reads (·.prepareRemoveSequence sequence)
  let retireIds ← reads (·.retirableOf record.pages)
  retirePageIds retireIds context
  decrementShared retireIds record.pages
  removeSequence sequence
  refreshStats

end SequenceCache

/-! ## Runs of operations -/

/-- Calls a client may make on a cache. -/
inductive Operation (R : Runtime)
  | admitSequence (prefixMatch : Option PrefixMatch) (request : AdmissionRequest)
      (context : R.Context) (restore : Option R.Snapshot → ℕ → Except R.Error Unit)
  | branch (source : SequenceId) (request : AdmissionRequest) (context : R.Context)
  | reserveAppend (sequence : SequenceId) (rows : ℕ) (context : R.Context)
  | commitAppend (reservation : AppendReservation) (committedRows : ℕ) (context : R.Context)
  | abortAppend (reservation : AppendReservation) (context : R.Context)
  | reserveAppendBatch (requests : List AppendBatchRequest) (contexts : List R.Context)
  | commitAppendBatch (reservations : List AppendReservation) (committedRows : List ℕ)
      (contexts : List R.Context)
  | abortAppendBatch (reservations : List AppendReservation) (contexts : List R.Context)
  | withAppendPages (reservation : AppendReservation)
      (operation : List (AppendSegment × R.Page) → Except R.Error Unit)
  | withAppendReservations (reservations : List AppendReservation)
      (operation : List (List (AppendSegment × R.Page)) → Except R.Error Unit)
  | retainPrefix (sequence : SequenceId) (tokens : List Token) (snapshot : R.Snapshot)
      (context : R.Context)
  | evictPrefix (entry : PrefixEntryId) (context : R.Context)
  | lookupPrefix (tokens : List Token)
  | finish (sequence : SequenceId) (context : R.Context)
  | reclaimDeferred (context : R.Context)

/-- What a call returns on success. -/
inductive Reply (R : Runtime)
  | admission (outcome : AdmissionOutcome)
  | reservation (reservation : AppendReservation)
  | reservations (result : SequenceCache.BatchResult R (List AppendReservation))
  | finalized (result : SequenceCache.BatchResult R Unit)
  | retained (outcome : RetainOutcome)
  | found (result : Option PrefixMatch)
  | reclaimed (pages : ℕ)
  | done

namespace Operation

open SequenceCache

def run : Operation R → CacheM R (Reply R)
  | .admitSequence prefixMatch request context restore =>
      .admission <$> SequenceCache.admitSequence prefixMatch request context restore
  | .branch source request context => .admission <$> SequenceCache.branch source request context
  | .reserveAppend sequence rows context =>
      .reservation <$> SequenceCache.reserveAppend sequence rows context
  | .commitAppend reservation rows context =>
      (fun _ => .done) <$> SequenceCache.commitAppend reservation rows context
  | .abortAppend reservation context =>
      (fun _ => .done) <$> SequenceCache.abortAppend reservation context
  | .reserveAppendBatch requests contexts =>
      .reservations <$> SequenceCache.reserveAppendBatch requests contexts
  | .commitAppendBatch reservations rows contexts =>
      .finalized <$> SequenceCache.commitAppendBatch reservations rows contexts
  | .abortAppendBatch reservations contexts =>
      .finalized <$> SequenceCache.abortAppendBatch reservations contexts
  | .withAppendPages reservation operation =>
      (fun _ => .done) <$> SequenceCache.withAppendPages reservation operation
  | .withAppendReservations reservations operation =>
      (fun _ => .done) <$> SequenceCache.withAppendReservations reservations operation
  | .retainPrefix sequence tokens snapshot context =>
      .retained <$> SequenceCache.retainPrefix sequence tokens snapshot context
  | .evictPrefix entry context => (fun _ => .done) <$> SequenceCache.evictPrefix entry context
  | .lookupPrefix tokens => .found <$> SequenceCache.lookupPrefix tokens
  | .finish sequence context => (fun _ => .done) <$> SequenceCache.finish sequence context
  | .reclaimDeferred context => .reclaimed <$> SequenceCache.reclaimDeferred context

/-- State after a call, whether it succeeded or failed. -/
def step (operation : Operation R) (cache : SequenceCache R) : SequenceCache R :=
  finalState (operation.run cache)

/-- Value or failure of a call. -/
def result (operation : Operation R) (cache : SequenceCache R) :
    Except (Failure R.Error) (Reply R) :=
  outcome (operation.run cache)

end Operation

/-- The error of a call, also when it is reported inside a batch. -/
def Reply.batchError : Reply R → Option (CacheError R.Error)
  | .reservations (.error failure) => some failure.error
  | .finalized (.error failure) => some failure.error
  | _ => none

/-- A call that ended with the exhaustion of an identity space. -/
def Exhausted : Except (Failure R.Error) (Reply R) → Prop
  | .error (.error (.idExhausted _)) => True
  | .ok reply => ∃ kind, reply.batchError = some (.idExhausted kind)
  | _ => False

def CacheError.isIdExhausted {Error : Type} : CacheError Error → Bool
  | .idExhausted _ => true
  | _ => false

instance : (result : Except (Failure R.Error) (Reply R)) → Decidable (Exhausted result)
  | .ok reply => decidable_of_iff (reply.batchError.any CacheError.isIdExhausted = true) (by
      cases h : reply.batchError with
      | none => simp [Exhausted, h]
      | some error => cases error <;> simp [Exhausted, h, CacheError.isIdExhausted])
  | .error (.error error) => decidable_of_iff (error.isIdExhausted = true) (by
      cases error <;> simp [Exhausted, CacheError.isIdExhausted])
  | .error (.panic _) => .isFalse id

end SeqCache
