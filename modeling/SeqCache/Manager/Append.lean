import SeqCache.Manager.Eviction

/-!
# Append reservations

Reserving, committing and aborting an exact append, singly and in ordered batches.
-/

namespace SeqCache

open Machine Program Std

variable {R : Runtime}

namespace SequenceCache

/-! ## Backend calls -/

def callAllocatePage (context : R.Context) : CacheM R (Except R.Error R.Page) := do
  let cache ← get
  let answer := R.allocatePage cache.backend context
  record (.allocatePage context answer)
  pure answer

/-- Return unpublished allocations, in the order given. -/
def rollbackPages (context : R.Context) : List R.Page → CacheM R Unit
  | [] => pure ()
  | page :: rest => do
      record (.rollbackPage context page)
      rollbackPages context rest

def callPrepareAppend (context : R.Context) (pages : List (BackendAppendPage R.Page))
    (startPosition : ℕ) : CacheM R (Except R.Error R.AppendTransaction) := do
  let cache ← get
  let answer := R.prepareAppend cache.backend context pages startPosition
  record (.prepareAppend context pages startPosition answer)
  pure answer

def callCommitAppend (context : R.Context) (transaction : R.AppendTransaction)
    (commit : BackendAppendCommit R.Page) :
    CacheM R (Except R.Error Unit × R.AppendTransaction) := do
  let cache ← get
  let answer := R.commitAppend cache.backend context transaction commit
  record (.commitAppend context commit answer.1)
  pure answer

def callAbortAppend (context : R.Context) (transaction : R.AppendTransaction)
    (restoredPages releasedPages : List R.Page) (restoredPosition : ℕ) :
    CacheM R (Except R.Error Unit × R.AppendTransaction) := do
  let cache ← get
  let answer := R.abortAppend cache.backend context transaction restoredPages releasedPages
    restoredPosition
  record (.abortAppend context restoredPages releasedPages restoredPosition answer.1)
  pure answer

/-! ## Reserving -/

/-- Last page of a sequence that ends inside a page. -/
def writableTail (cache : SequenceCache R) (record : SequenceRecord R.AppendTransaction) :
    Option PageId :=
  record.pages.getLast?.filter fun _ => record.position % cache.config.pageTokens ≠ 0

def checkWritableTail (cache : SequenceCache R)
    (record : SequenceRecord R.AppendTransaction) : CacheResult R Unit :=
  match cache.writableTail record with
  | none => pure ()
  | some tail => do
      let page ← cache.pageRecord tail
      ensure (¬ (page.sealed = true ∨ page.activeRefs ≠ 1 ∨ page.prefixRefs ≠ 0))
        (.error (.invariant "writable tail is not private"))

/-- Allocate `count` more pages after those in `allocations`; a failure rolls all of them
back, the most recent first. -/
def allocatePages (context : R.Context) : ℕ → List R.Page → CacheM R (List R.Page)
  | 0, allocations => pure allocations
  | count + 1, allocations => do
      match ← callAllocatePage context with
      | .ok page => allocatePages context count (allocations ++ [page])
      | .error error =>
          rollbackPages context allocations.reverse
          throw (.error (.backend error))

/-- Descriptions of the newly allocated pages, from input row `inputOffset` on. -/
def preparedAllocations (pageTokens rows : ℕ) :
    List R.Page → ℕ → CacheResult R (List (BackendAppendPage R.Page))
  | [], _ => pure []
  | page :: rest, inputOffset => do
      let remaining ← okOr (checkedSub rows inputOffset)
        (.panic "attempt to subtract with overflow")
      let segmentRows := min remaining pageTokens
      let prepared ← preparedAllocations pageTokens rows rest (inputOffset + segmentRows)
      pure (⟨page, 0, inputOffset, segmentRows, false⟩ :: prepared)

/-- Segment descriptions passed to `prepare_append`. -/
def preparedPages (cache : SequenceCache R) (record : SequenceRecord R.AppendTransaction)
    (rows : ℕ) (allocations : List R.Page) : CacheResult R (List (BackendAppendPage R.Page)) :=
  match cache.writableTail record with
  | none => preparedAllocations cache.config.pageTokens rows allocations 0
  | some tail => do
      let pageOffset := record.position % cache.config.pageTokens
      let segmentRows := min rows (cache.config.pageTokens - pageOffset)
      let physical ← physicalRef cache.pages tail
      let prepared ← preparedAllocations cache.config.pageTokens rows allocations segmentRows
      pure (⟨physical, pageOffset, 0, segmentRows, true⟩ :: prepared)

/-- Let the backend prepare the transaction; a failure rolls the allocations back. -/
def prepareTransaction (record : SequenceRecord R.AppendTransaction) (rows : ℕ)
    (allocations : List R.Page) (context : R.Context) : CacheM R R.AppendTransaction := do
  let prepared ← reads (·.preparedPages record rows allocations)
  match ← callPrepareAppend context prepared record.position with
  | .ok transaction => pure transaction
  | .error error =>
      rollbackPages context allocations.reverse
      throw (.error (.backend error))

/-- Publish the table extended by the allocations, if there are any. -/
def publishReserved (record : SequenceRecord R.AppendTransaction)
    (allocations : List R.Page) (context : R.Context) : CacheM R Unit :=
  if allocations = [] then pure ()
  else do
    let cache ← get
    let table ← reads fun _ => physicalRefsFrom cache.pages record.pages
    match ← callUpdatePageTable context (table ++ allocations) record.position with
    | .ok () => pure ()
    | .error error =>
        rollbackPages context allocations.reverse
        throw (.error (.backend error))

/-- Register the allocations as private, empty, writable pages. -/
def insertAllocations : List R.Page → CacheM R (List PageId)
  | [] => pure []
  | page :: rest => do
      let id ← insertPagePrepared
        { physical := some page, activeRefs := 1, prefixRefs := 0, validTokens := 0,
          sealed := false }
      let ids ← insertAllocations rest
      pure (id :: ids)

/-- The segment loop of `reserve_append`.  Every iteration covers at least one row, so
`fuel` rows are covered by `fuel` iterations. -/
def appendSegments (pageTokens : ℕ) (pages newPages : List PageId) (rows : ℕ) :
    ℕ → ℕ → ℕ → CacheResult R (List AppendSegment)
  | 0, _, _ => pure []
  | fuel + 1, inputOffset, logicalPosition =>
      if inputOffset < rows then do
        let logicalPage := logicalPosition / pageTokens
        let pageOffset := logicalPosition % pageTokens
        let segmentRows := min (rows - inputOffset) (pageTokens - pageOffset)
        let page ← okOr
          (if logicalPage < pages.length then pages[logicalPage]?
          else newPages[logicalPage - pages.length]?)
          (.error (.invariant
            (if logicalPage < pages.length then "existing page missing from append span"
            else "new page missing from append span")))
        let segments ← appendSegments pageTokens pages newPages rows fuel
          (inputOffset + segmentRows) (logicalPosition + segmentRows)
        pure (⟨page, pageOffset, inputOffset, segmentRows⟩ :: segments)
      else pure []

/-- Store the pending append of a sequence and its new accounting. -/
def registerAppend (sequence : SequenceId) (record : SequenceRecord R.AppendTransaction)
    (rows nonce nextReservedPages : ℕ) (transaction : R.AppendTransaction)
    (newPages : List PageId) : CacheM R AppendReservation := do
  let cache ← get
  let segments ← reads fun _ => appendSegments cache.config.pageTokens record.pages newPages
    rows rows 0 record.position
  let current ← reads (·.sequenceRecord sequence)
  let reservedPages ← okOr (checkedSub current.reservedPages newPages.length)
    (.panic "attempt to subtract with overflow")
  updateSequence sequence fun record =>
    { record with
      reservedPages := reservedPages
      pending := some ⟨record.position, rows, segments, newPages, nonce, transaction⟩ }
  updateStats fun stats => { stats with reservedPages := nextReservedPages }
  refreshStats
  pure ⟨sequence, record.position, rows, segments, nonce⟩

def reserveAppend (sequence : SequenceId) (rows : ℕ) (context : R.Context) :
    CacheM R AppendReservation := do
  ensure (rows ≠ 0) (.error .invalidPosition)
  let record ← reads (·.sequenceRecord sequence)
  ensure record.pending.isNone (.error .appendPending)
  let newPosition ← okOr (checkedAdd record.position rows) (.error .arithmeticOverflow)
  ensure (newPosition ≤ record.maxPosition) (.error .invalidPosition)
  reads (·.checkWritableTail record)
  let cache ← get
  let requiredPages ← okOr (checkedDivCeil newPosition cache.config.pageTokens)
    (.error .arithmeticOverflow)
  let newPageCount ← okOr (checkedSub requiredPages record.pages.length)
    (.error (.invariant "append page count moved backwards"))
  ensure (newPageCount ≤ record.reservedPages)
    (.error (.invariant "append exceeds admitted reservation"))
  let nextReservedPages ← okOr (checkedSub cache.stats.reservedPages newPageCount)
    (.error (.invariant "append exceeds globally reserved pages"))
  reads (·.preparePageSlots newPageCount)
  let nonce ← nextAppendNonce
  let allocations ← allocatePages context newPageCount []
  let transaction ← prepareTransaction record rows allocations context
  publishReserved record allocations context
  let newPages ← insertAllocations allocations
  registerAppend sequence record rows nonce nextReservedPages transaction newPages

/-! ## Finalizing -/

def validateReservation (cache : SequenceCache R) (reservation : AppendReservation) :
    Except (CacheError R.Error) Unit := do
  let record ← okOr (cache.sequences.get? reservation.sequence) .staleSequence
  let pending ← okOr record.pending .noAppendPending
  ensure
    (¬ (pending.startPosition ≠ reservation.startPosition ∨ pending.rows ≠ reservation.rows ∨
      pending.segments ≠ reservation.segments ∨ pending.nonce ≠ reservation.nonce))
    .appendReservationMismatch

/-- `self.validate_reservation(reservation)?`. -/
def requireReservation (reservation : AppendReservation) : CacheM R Unit :=
  reads fun cache => (cache.validateReservation reservation).mapError Failure.error

def restorePending (sequence : SequenceId) (pending : PendingAppend R.AppendTransaction) :
    CacheM R Unit :=
  updateSequence sequence fun record => { record with pending := some pending }

/-- Take the pending append, resolve the physical pages of the finalization and let the
backend carry it out; a failure puts the append back. -/
def finalizePending {α : Type} (sequence : SequenceId)
    (pending : PendingAppend R.AppendTransaction)
    (arguments : SequenceCache R → CacheResult R α)
    (call : α → CacheM R (Except R.Error Unit × R.AppendTransaction)) : CacheM R Unit := do
  updateSequence sequence fun record => { record with pending := none }
  let cache ← get
  match arguments cache with
  | .error failure =>
      restorePending sequence pending
      throw failure
  | .ok resolved =>
      let answer ← call resolved
      match answer.1 with
      | .error error =>
          restorePending sequence { pending with transaction := answer.2 }
          throw (.error (.backend error))
      | .ok () => pure ()

/-- Return the records of released pages, whose storage the backend has taken back. -/
def releasePages : List PageId → CacheM R Unit
  | [] => pure ()
  | id :: rest => do
      let record ← reads (·.pageRecord id)
      modify fun cache =>
        { cache with pages := cache.pages.set id { record with physical := none } }
      ensure record.physical.isSome (.error .stalePage)
      removePage id
      releasePages rest

/-- Segments of the committed rows, the last one cut short. -/
def committedSegments (segments : List AppendSegment) (committedRows : ℕ) :
    List AppendSegment :=
  (segments.takeWhile fun segment => segment.inputOffset < committedRows).map fun segment =>
    { segment with rows := min segment.rows (committedRows - segment.inputOffset) }

/-- Pages that the committed segments fill. -/
def sealedIds (cache : SequenceCache R) : List AppendSegment → CacheResult R (List PageId)
  | [] => pure []
  | segment :: rest =>
      if segment.pageOffset + segment.rows = cache.config.pageTokens then do
        let page ← cache.pageRecord segment.page
        let ids ← cache.sealedIds rest
        pure (if page.sealed then ids else segment.page :: ids)
      else cache.sealedIds rest

/-- Make the committed rows valid, sealing the pages they fill. -/
def markCommitted (pageTokens : ℕ) : List AppendSegment → CacheM R Unit
  | [] => pure ()
  | segment :: rest => do
      updatePage segment.page fun page =>
        { page with
          validTokens := segment.pageOffset + segment.rows
          sealed := segment.pageOffset + segment.rows = pageTokens }
      markCommitted pageTokens rest

def commitAppend (reservation : AppendReservation) (committedRows : ℕ)
    (context : R.Context) : CacheM R Unit := do
  requireReservation reservation
  ensure (¬ (committedRows = 0 ∨ committedRows > reservation.rows)) (.error .invalidPosition)
  let record ← reads (·.sequenceRecord reservation.sequence)
  let pending ← okOr record.pending (.error .noAppendPending)
  let newPosition ← okOr (checkedAdd reservation.startPosition committedRows)
    (.error .arithmeticOverflow)
  let cache ← get
  let committedPageCount ← okOr (checkedDivCeil newPosition cache.config.pageTokens)
    (.error .arithmeticOverflow)
  let keptNewPageCount ← okOr (checkedSub committedPageCount record.pages.length)
    (.error (.invariant "partial commit page count moved backwards"))
  ensure (keptNewPageCount ≤ pending.newPages.length) (.panic "mid > len")
  let keptNewPages := pending.newPages.take keptNewPageCount
  let releasedPages := pending.newPages.drop keptNewPageCount
  let nextReservedPages ← okOr (checkedAdd cache.stats.reservedPages releasedPages.length)
    (.error .arithmeticOverflow)
  let nextSequenceReservedPages ← okOr (checkedAdd record.reservedPages releasedPages.length)
    (.error .arithmeticOverflow)
  let segments := committedSegments reservation.segments committedRows
  let sealed ← reads (·.sealedIds segments)
  finalizePending reservation.sequence pending
    (fun cache => do
      let committedRefs ← physicalRefsFrom cache.pages (record.pages ++ keptNewPages)
      let sealedRefs ← physicalRefsFrom cache.pages sealed
      let releasedRefs ← physicalRefsFrom cache.pages releasedPages
      pure (⟨committedRefs, sealedRefs, releasedRefs, committedRows, newPosition⟩ :
        BackendAppendCommit R.Page))
    (callCommitAppend context pending.transaction)
  markCommitted cache.config.pageTokens segments
  releasePages releasedPages
  updateSequence reservation.sequence fun record =>
    { record with
      pages := record.pages ++ keptNewPages
      reservedPages := nextSequenceReservedPages
      position := newPosition }
  updateStats fun stats => { stats with reservedPages := nextReservedPages }
  refreshStats

def abortAppend (reservation : AppendReservation) (context : R.Context) : CacheM R Unit := do
  requireReservation reservation
  let record ← reads (·.sequenceRecord reservation.sequence)
  let pending ← okOr record.pending (.error .noAppendPending)
  let cache ← get
  let nextReservedPages ← okOr (checkedAdd cache.stats.reservedPages pending.newPages.length)
    (.error .arithmeticOverflow)
  let nextSequenceReservedPages ← okOr (checkedAdd record.reservedPages pending.newPages.length)
    (.error .arithmeticOverflow)
  finalizePending reservation.sequence pending
    (fun cache => do
      let restoredRefs ← physicalRefsFrom cache.pages record.pages
      let releasedRefs ← physicalRefsFrom cache.pages pending.newPages
      pure (restoredRefs, releasedRefs))
    (fun refs => callAbortAppend context pending.transaction refs.1 refs.2 record.position)
  releasePages pending.newPages
  updateSequence reservation.sequence fun record =>
    { record with reservedPages := nextSequenceReservedPages }
  updateStats fun stats => { stats with reservedPages := nextReservedPages }
  refreshStats

/-- Physical pages of a reservation, in segment order. -/
def appendPages (cache : SequenceCache R) :
    List AppendSegment → CacheResult R (List (AppendSegment × R.Page))
  | [] => pure []
  | segment :: rest => do
      let record ← okOr (cache.pages.get? segment.page)
        (.panic "validated append page remains present")
      let page ← okOr record.physical (.panic "validated append page remains present")
      let pages ← cache.appendPages rest
      pure ((segment, page) :: pages)

/-- Lend the pages of a pending reservation to the runtime, which may write them. -/
def withAppendPages {α : Type} (reservation : AppendReservation)
    (operation : List (AppendSegment × R.Page) → Except R.Error α) : CacheM R α := do
  requireReservation reservation
  let pages ← reads (·.appendPages reservation.segments)
  record (.withAppendPages (pages.map Prod.snd))
  match operation pages with
  | .ok value => pure value
  | .error error => throw (.error (.backend error))

/-- Physical pages of several reservations, in caller order. -/
def appendReservations (cache : SequenceCache R) :
    List AppendReservation → CacheResult R (List (List (AppendSegment × R.Page)))
  | [] => pure []
  | reservation :: rest => do
      let pages ← cache.appendPages reservation.segments
      let views ← cache.appendReservations rest
      pure (pages :: views)

def requireReservations : List AppendReservation → CacheM R Unit
  | [] => pure ()
  | reservation :: rest => do
      requireReservation reservation
      requireReservations rest

/-- Lend the pages of several pending reservations to one runtime operation. -/
def withAppendReservations {α : Type} (reservations : List AppendReservation)
    (operation : List (List (AppendSegment × R.Page)) → Except R.Error α) : CacheM R α := do
  requireReservations reservations
  let views ← reads (·.appendReservations reservations)
  record (.withAppendPages (views.flatten.map Prod.snd))
  match operation views with
  | .ok value => pure value
  | .error error => throw (.error (.backend error))

/-! ## Batches -/

/-- Run a call and return its error as a value; a panic still ends the program. -/
def attempt {α : Type} (program : CacheM R α) : CacheM R (Except (CacheError R.Error) α) :=
  fun cache =>
    match program cache with
    | .ok value cache => .ok (.ok value) cache
    | .error (.error error) cache => .ok (.error error) cache
    | .error (.panic message) cache => .error (.panic message) cache

/-- Batch-owned reservations which still match live pending appends, at most one for each
sequence. -/
def pendingAppendBatch (cache : SequenceCache R) :
    List SequenceId → List AppendReservation → List AppendReservation
  | _, [] => []
  | sequences, reservation :: rest =>
      if reservation.sequence ∉ sequences ∧
          (cache.validateReservation reservation).isOk = true then
        reservation :: cache.pendingAppendBatch (reservation.sequence :: sequences) rest
      else cache.pendingAppendBatch (reservation.sequence :: sequences) rest

abbrev BatchResult (R : Runtime) (α : Type) := Except (AppendBatchError R.Error) α

/-- End a batch with the reservations that are still pending. -/
def batchFailure {α : Type} (reservations : List AppendReservation)
    (error : CacheError R.Error) (failedIndex : Option ℕ) : CacheM R (BatchResult R α) := do
  let cache ← get
  pure (.error ⟨error, cache.pendingAppendBatch [] reservations, failedIndex⟩)

def reserveEach : List (AppendBatchRequest × R.Context) → ℕ → List AppendReservation →
    CacheM R (BatchResult R (List AppendReservation))
  | [], _, reservations => pure (.ok reservations)
  | (request, context) :: rest, index, reservations => do
      match ← attempt (reserveAppend request.sequence request.rows context) with
      | .ok reservation => reserveEach rest (index + 1) (reservations ++ [reservation])
      | .error error => pure (.error ⟨error, reservations, some index⟩)

def reserveAppendBatch (requests : List AppendBatchRequest) (contexts : List R.Context) :
    CacheM R (BatchResult R (List AppendReservation)) :=
  if requests.length ≠ contexts.length then
    pure (.error ⟨.appendBatchSizeMismatch, [], none⟩)
  else reserveEach (requests.zip contexts) 0 []

/-- First item that the checks before a batch commit reject. -/
def checkCommits (cache : SequenceCache R) :
    List (AppendReservation × ℕ) → ℕ → Except (CacheError R.Error × ℕ) Unit
  | [], _ => pure ()
  | (reservation, rows) :: rest, index =>
      match cache.validateReservation reservation with
      | .error error => throw (error, index)
      | .ok () =>
          if rows = 0 ∨ rows > reservation.rows then throw (.invalidPosition, index)
          else cache.checkCommits rest (index + 1)

def commitEach (batch : List AppendReservation) :
    List ((AppendReservation × ℕ) × R.Context) → ℕ → CacheM R (BatchResult R Unit)
  | [], _ => pure (.ok ())
  | ((reservation, rows), context) :: rest, index => do
      match ← attempt (commitAppend reservation rows context) with
      | .ok () => commitEach batch rest (index + 1)
      | .error error => batchFailure batch error (some index)

def commitAppendBatch (reservations : List AppendReservation) (committedRows : List ℕ)
    (contexts : List R.Context) : CacheM R (BatchResult R Unit) := do
  if reservations.length ≠ committedRows.length ∨ reservations.length ≠ contexts.length then
    batchFailure reservations .appendBatchSizeMismatch none
  else
    let cache ← get
    match cache.checkCommits (reservations.zip committedRows) 0 with
    | .error (error, index) => batchFailure reservations error (some index)
    | .ok () => commitEach reservations ((reservations.zip committedRows).zip contexts) 0

/-- First item that the checks before a batch abort reject. -/
def checkAborts (cache : SequenceCache R) :
    List AppendReservation → ℕ → Except (CacheError R.Error × ℕ) Unit
  | [], _ => pure ()
  | reservation :: rest, index =>
      match cache.validateReservation reservation with
      | .error error => throw (error, index)
      | .ok () => cache.checkAborts rest (index + 1)

def abortEach (batch : List AppendReservation) :
    List (AppendReservation × R.Context) → ℕ → CacheM R (BatchResult R Unit)
  | [], _ => pure (.ok ())
  | (reservation, context) :: rest, index => do
      match ← attempt (abortAppend reservation context) with
      | .ok () => abortEach batch rest (index + 1)
      | .error error => batchFailure batch error (some index)

def abortAppendBatch (reservations : List AppendReservation) (contexts : List R.Context) :
    CacheM R (BatchResult R Unit) := do
  if reservations.length ≠ contexts.length then
    batchFailure reservations .appendBatchSizeMismatch none
  else
    let cache ← get
    match cache.checkAborts reservations 0 with
    | .error (error, index) => batchFailure reservations error (some index)
    | .ok () => abortEach reservations (reservations.zip contexts) 0

/-! ## Reading -/

/-- Borrow the sequence's logical page table and committed position. -/
def pageTable (cache : SequenceCache R) (sequence : SequenceId) :
    CacheResult R PageTableView := do
  let record ← cache.sequenceRecord sequence
  pure ⟨record.pages, record.position, cache.config.pageTokens⟩

/-- Resolve a page handle to its backend storage. -/
def page (cache : SequenceCache R) (id : PageId) : CacheResult R R.Page := do
  let record ← cache.pageRecord id
  okOr record.physical (.error .stalePage)

end SequenceCache

end SeqCache
