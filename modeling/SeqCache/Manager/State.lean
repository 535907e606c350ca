import SeqCache.Index.PrefixIndex

/-!
# State of the sequence cache

Handles, configuration, accounting and the ownership records of `SequenceCache`, under
the names of the source.  Write-only telemetry (counters and latency histograms) is not
part of the state; the gauges are, because `validate` reads them back.
-/

namespace SeqCache

open Machine Program Std

abbrev PageId := Handle

abbrev SequenceId := Handle

/-- Immutable manager geometry and byte limits. -/
structure CacheConfig where
  pageTokens : ℕ
  maxManagedBytes : ℕ
  maxSnapshotBytes : ℕ
  maxPrefixEntries : Option ℕ
  emergencyBytes : ℕ
  deriving DecidableEq

/-- Per-request strict admission requirements. -/
structure AdmissionRequest where
  maxPosition : ℕ
  privateStateBytes : ℕ
  pageTableBytes : ℕ
  allowEmergency : Bool
  deriving DecidableEq

/-- A successful prefix lookup. -/
structure PrefixMatch where
  entry : PrefixEntryId
  position : ℕ
  pageCount : ℕ
  deriving DecidableEq

inductive AdmissionOutcome
  | admitted (id : SequenceId)
  | wouldBlock
  deriving DecidableEq

inductive RetainOutcome
  | inserted (id : PrefixEntryId)
  | duplicate (id : PrefixEntryId)
  deriving DecidableEq

/-- One ordered writable segment of an append reservation. -/
structure AppendSegment where
  page : PageId
  pageOffset : ℕ
  inputOffset : ℕ
  rows : ℕ
  deriving DecidableEq

/-- Capability for one exact, possibly multi-page append reservation. -/
structure AppendReservation where
  sequence : SequenceId
  startPosition : ℕ
  rows : ℕ
  segments : List AppendSegment
  nonce : ℕ
  deriving DecidableEq

structure AppendBatchRequest where
  sequence : SequenceId
  rows : ℕ
  deriving DecidableEq

/-- Borrowed logical page ordering for an attention operation. -/
structure PageTableView where
  pages : List PageId
  position : ℕ
  pageTokens : ℕ
  deriving DecidableEq

/-- Failure from a batch reservation, commit, or abort operation. -/
structure AppendBatchError (Error : Type) where
  error : CacheError Error
  pending : List AppendReservation
  failedIndex : Option ℕ
  deriving DecidableEq

/-- The fields shared by the exact statistics and the exported gauges. -/
structure StatsOf (α : Type) where
  activeSequences : α
  retainedPrefixEntries : α
  internedTokenBlocks : α
  residentPages : α
  freePages : α
  reservedPages : α
  deferredRetirementPages : α
  uniqueResidentPageBytes : α
  outstandingReservationBytes : α
  activePrivateStateBytes : α
  retainedSnapshotBytes : α
  pageTableBytes : α
  reclaimablePrefixOnlyBytes : α
  totalManagedBytes : α
  deriving DecidableEq

abbrev CacheStats := StatsOf ℕ

abbrev CacheGauges := StatsOf ℤ

def StatsOf.replicate {α : Type} (value : α) : StatsOf α :=
  ⟨value, value, value, value, value, value, value, value, value, value, value, value, value,
    value⟩

/-- The values a set of gauges must show for given statistics. -/
def CacheStats.gauges (stats : CacheStats) : CacheGauges where
  activeSequences := asI64 stats.activeSequences
  retainedPrefixEntries := asI64 stats.retainedPrefixEntries
  internedTokenBlocks := asI64 stats.internedTokenBlocks
  residentPages := asI64 stats.residentPages
  freePages := asI64 stats.freePages
  reservedPages := asI64 stats.reservedPages
  deferredRetirementPages := asI64 stats.deferredRetirementPages
  uniqueResidentPageBytes := asI64 stats.uniqueResidentPageBytes
  outstandingReservationBytes := asI64 stats.outstandingReservationBytes
  activePrivateStateBytes := asI64 stats.activePrivateStateBytes
  retainedSnapshotBytes := asI64 stats.retainedSnapshotBytes
  pageTableBytes := asI64 stats.pageTableBytes
  reclaimablePrefixOnlyBytes := asI64 stats.reclaimablePrefixOnlyBytes
  totalManagedBytes := asI64 stats.totalManagedBytes

/-- Ownership state of one logical page. -/
structure PageRecord (Page : Type) where
  physical : Option Page
  activeRefs : ℕ
  prefixRefs : ℕ
  validTokens : ℕ
  sealed : Bool
  deriving DecidableEq

/-- A page held by retained prefixes only. -/
def PageRecord.isReclaimable {Page : Type} (page : PageRecord Page) : Bool :=
  page.activeRefs = 0 && page.prefixRefs ≠ 0

/-- In-flight exact append spanning one or more pages. -/
structure PendingAppend (Transaction : Type) where
  startPosition : ℕ
  rows : ℕ
  segments : List AppendSegment
  newPages : List PageId
  nonce : ℕ
  transaction : Transaction
  deriving DecidableEq

/-- Ownership state of one admitted sequence. -/
structure SequenceRecord (Transaction : Type) where
  pages : List PageId
  position : ℕ
  maxPosition : ℕ
  reservedPages : ℕ
  privateStateBytes : ℕ
  pageTableBytes : ℕ
  pending : Option (PendingAppend Transaction)
  deriving DecidableEq

/-- One retained prefix checkpoint. -/
structure PrefixEntry (Snapshot : Type) where
  key : PrefixKey
  blocks : List TokenBlockId
  pages : List PageId
  position : ℕ
  snapshot : Snapshot
  snapshotBytes : ℕ
  lastUsed : ℕ
  deriving DecidableEq

/-- `BTreeSet<(u64, PrefixEntryId)>`, in lexicographic order. -/
abbrev LruSet := ExtTreeSet (ℕ × PrefixEntryId) lexOrd.compare

/-- Single-owner logical sequence and reusable-prefix manager.  The state of the backend
is the history of the calls made on it. -/
structure SequenceCache (R : Runtime) where
  config : CacheConfig
  pageBytes : ℕ
  pageCapacity : ℕ
  backend : R.History
  gauges : CacheGauges
  index : PrefixIndex R
  pages : Arena (PageRecord R.Page)
  sequences : Arena (SequenceRecord R.AppendTransaction)
  prefixes : ExtTreeMap PrefixEntryId (PrefixEntry R.Snapshot)
  lru : LruSet
  nextPrefixId : ℕ
  clock : ℕ
  appendNonce : ℕ
  stats : CacheStats
  deferredPages : ℕ

/-- Methods taking `&mut self`. -/
abbrev CacheM (R : Runtime) := EStateM (Failure R.Error) (SequenceCache R)

/-- Methods taking `&self`. -/
abbrev CacheResult (R : Runtime) (α : Type) := Except (Failure R.Error) α

end SeqCache
