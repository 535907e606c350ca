import SeqCache.Invariant.Inv

/-!
# Calls that change nothing

`Calls` describes the backend calls an operation makes before it commits to anything,
with the physical pages in flight: obtained from the backend and not yet registered.
`Quiet` says that a cache is as it was before, up to what a failing call may consume.
-/

namespace SeqCache

open Machine Program Std

variable {R : Runtime}

/-- A failure that a caller or the backend can provoke: not a panic, not a violated
invariant and not a page handle of the cache itself that does not resolve. -/
def Failure.isReported {Error : Type} : Failure Error → Bool
  | .error (.invariant _) => false
  | .error .stalePage => false
  | .error _ => true
  | .panic _ => false

theorem Failure.error_of_isReported {Error : Type} {failure : Failure Error}
    (h : failure.isReported = true) : ∃ error, failure = .error error := by
  cases failure with
  | error error => exact ⟨error, rfl⟩
  | panic message => cases h

/-! ## Histories -/

/-- A call that asks the backend for a page. -/
def BackendEvent.isAcquisition {Page Context Transaction Error : Type} :
    BackendEvent Page Context Transaction Error → Bool
  | .allocatePage _ _ => true
  | .copyPartialPage _ _ _ _ => true
  | _ => false

/-- A call that neither obtains nor returns a page, changes nothing about what is deferred
and publishes no page table. -/
def BackendEvent.isNeutral {Page Context Transaction Error : Type} :
    BackendEvent Page Context Transaction Error → Bool
  | .prepareAppend _ _ _ _ => true
  | .abortAppend _ _ _ _ (.error _) => true
  | .commitAppend _ _ (.error _) => true
  | .updatePageTable _ _ _ (.error _) => true
  | .retirePages _ _ (.error _) => true
  | .pollReclaimed _ (.error _) => true
  | .withAppendPages _ => true
  | _ => false

/-- From `history` with the pages `flight` in flight, at most `limit` at a time, to
`history'` and `flight'`. -/
inductive Calls (limit : ℕ) (history : R.History) (flight : List R.Page) :
    R.History → List R.Page → Prop
  | refl : Calls limit history flight history flight
  | acquire {history' : R.History} {flight' : List R.Page} (event : R.Event) :
      Calls limit history flight history' flight' → event.isAcquisition = true →
      flight'.length < limit →
      Calls limit history flight (event :: history') (flight' ++ event.acquired)
  | rollback {history' : R.History} {flight' flight'' : List R.Page} (context : R.Context)
      (page : R.Page) : Calls limit history flight history' flight' →
      flight'.Perm (page :: flight'') →
      Calls limit history flight (.rollbackPage context page :: history') flight''
  | neutral {history' : R.History} {flight' : List R.Page} (event : R.Event) :
      Calls limit history flight history' flight' → event.isNeutral = true →
      Calls limit history flight (event :: history') flight'
  | overreported {history' : R.History} {flight' : List R.Page} (context : R.Context)
      (reclaimed : ℕ) : Calls limit history flight history' flight' →
      deferredTotal history' < reclaimed →
      Calls limit history flight (.pollReclaimed context (.ok reclaimed) :: history') flight'

namespace Calls

variable {limit : ℕ} {history history' history'' : R.History}
variable {flight flight' flight'' : List R.Page}

theorem deferredTotal_eq (h : Calls limit history flight history' flight') :
    deferredTotal history' = deferredTotal history := by
  induction h with
  | refl => rfl
  | acquire event _ hevent _ ih =>
      cases event with
      | allocatePage => exact ih
      | copyPartialPage => exact ih
      | _ => cases hevent
  | rollback context page _ _ ih => exact ih
  | neutral event _ hevent ih =>
      cases event with
      | prepareAppend => exact ih
      | updatePageTable => exact ih
      | withAppendPages => exact ih
      | abortAppend _ _ _ _ answer =>
          cases answer with
          | error => exact ih
          | ok => cases hevent
      | commitAppend _ _ answer =>
          cases answer with
          | error => exact ih
          | ok => cases hevent
      | retirePages _ _ answer =>
          cases answer with
          | error => exact ih
          | ok => cases hevent
      | pollReclaimed _ answer =>
          cases answer with
          | error => exact ih
          | ok => cases hevent
      | _ => cases hevent
  | overreported context reclaimed _ hover ih =>
      rw [deferredTotal, if_neg (Nat.not_le_of_lt hover), ih]

theorem mono {limit' : ℕ} (h : Calls limit history flight history' flight')
    (hle : limit ≤ limit') : Calls limit' history flight history' flight' := by
  induction h with
  | refl => exact .refl
  | acquire event _ hevent hlimit ih => exact .acquire event ih hevent (hlimit.trans_le hle)
  | rollback context page _ hperm ih => exact .rollback context page ih hperm
  | neutral event _ hevent ih => exact .neutral event ih hevent
  | overreported context reclaimed _ hover ih => exact .overreported context reclaimed ih hover

end Calls

/-! ## States -/

/-- Change the transaction of a pending append. -/
def SequenceRecord.mapTransaction {Transaction : Type} (change : Transaction → Transaction)
    (record : SequenceRecord Transaction) : SequenceRecord Transaction :=
  { record with
    pending := record.pending.map fun pending =>
      { pending with transaction := change pending.transaction } }

section MapTransaction

variable {Transaction : Type} (change : Transaction → Transaction)
  (record : SequenceRecord Transaction)

@[simp]
theorem SequenceRecord.mapTransaction_heldPages :
    (record.mapTransaction change).heldPages = record.heldPages := by
  cases hpending : record.pending <;> simp [mapTransaction, heldPages, hpending]

@[simp]
theorem SequenceRecord.mapTransaction_pages :
    (record.mapTransaction change).pages = record.pages := rfl

theorem SequenceRecord.mapTransaction_id : record.mapTransaction id = record := by
  cases record with
  | mk pages position maxPosition reservedPages privateStateBytes pageTableBytes pending =>
      cases pending <;> rfl

theorem SequenceRecord.mapTransaction_comp (change' : Transaction → Transaction) :
    (record.mapTransaction change).mapTransaction change' =
      record.mapTransaction (change' ∘ change) := by
  simp [SequenceRecord.mapTransaction, Function.comp_def]

theorem SequenceOk.mapTransaction {Page : Type} {orphans : List PageId} {pageTokens : ℕ}
    {pages : Pages Page} (h : SequenceOk orphans pageTokens pages record) :
    SequenceOk orphans pageTokens pages (record.mapTransaction change) := by
  refine ⟨h.position_le, h.bounded, h.length_pages, ?_, ?_, ?_, ?_, ?_⟩
  · rw [SequenceRecord.mapTransaction_heldPages]
    exact h.length_le
  · rw [SequenceRecord.mapTransaction_heldPages]
    exact h.length_total
  · rw [SequenceRecord.mapTransaction_heldPages]
    exact h.nodup
  · rw [SequenceRecord.mapTransaction_heldPages]
    simpa [SequenceRecord.mapTransaction] using h.held
  · intro pending hpending
    obtain ⟨old, hold, rfl⟩ := Option.map_eq_some_iff.mp hpending
    have hok := h.pending old hold
    refine ⟨hok.start_eq, hok.rows_pos, hok.rows_le, hok.length_held, ?_⟩
    rw [SequenceRecord.mapTransaction_heldPages]
    exact hok.segments_eq

end MapTransaction

/-- The cache is as it was, up to the history of the backend, the transactions of pending
appends, and identities that a failing call may have consumed. -/
structure Quiet (cache cache' : SequenceCache R) : Prop where
  config : cache'.config = cache.config
  pageBytes : cache'.pageBytes = cache.pageBytes
  pageCapacity : cache'.pageCapacity = cache.pageCapacity
  gauges : cache'.gauges = cache.gauges
  pages : cache'.pages = cache.pages
  sequences : ∃ change : SequenceId → R.AppendTransaction → R.AppendTransaction,
    Arena.Updated (fun id record => record.mapTransaction (change id)) cache.sequences
      cache'.sequences
  prefixes : cache'.prefixes = cache.prefixes
  lru : cache'.lru = cache.lru
  nextPrefixId : cache'.nextPrefixId = cache.nextPrefixId
  clock : cache'.clock = cache.clock
  stats : cache'.stats = cache.stats
  deferredPages : cache'.deferredPages = cache.deferredPages
  tree : cache'.index.tree = cache.index.tree
  blocks : cache'.index.blocks = cache.index.blocks
  byTokens : cache'.index.byTokens = cache.index.byTokens
  next_le : cache.index.nextBlockId ≤ cache'.index.nextBlockId
  next_bounded : cache.index.nextBlockId ≤ usizeMax → cache'.index.nextBlockId ≤ usizeMax
  nonce_le : cache.appendNonce ≤ cache'.appendNonce

namespace Quiet

variable {cache cache' cache'' : SequenceCache R}

theorem sequences_refl (sequences : Sequences R.AppendTransaction) :
    ∃ change : SequenceId → R.AppendTransaction → R.AppendTransaction,
      Arena.Updated (fun id record => record.mapTransaction (change id)) sequences sequences :=
  ⟨fun _ => id, (Arena.Updated.refl sequences).congr fun _ record _ => record.mapTransaction_id⟩

/-- Only the backend was called. -/
theorem ofBackend (history : R.History) : Quiet cache { cache with backend := history } := by
  constructor <;> first | rfl | exact sequences_refl _ | exact le_rfl | exact fun h => h

theorem refl (cache : SequenceCache R) : Quiet cache cache := ofBackend cache.backend

theorem trans (h : Quiet cache cache') (h' : Quiet cache' cache'') : Quiet cache cache'' := by
  obtain ⟨change, hchange⟩ := h.sequences
  obtain ⟨change', hchange'⟩ := h'.sequences
  refine ⟨h'.config.trans h.config, h'.pageBytes.trans h.pageBytes,
    h'.pageCapacity.trans h.pageCapacity, h'.gauges.trans h.gauges, h'.pages.trans h.pages,
    ⟨fun id transaction => change' id (change id transaction), ?_⟩,
    h'.prefixes.trans h.prefixes, h'.lru.trans h.lru, h'.nextPrefixId.trans h.nextPrefixId,
    h'.clock.trans h.clock, h'.stats.trans h.stats, h'.deferredPages.trans h.deferredPages,
    h'.tree.trans h.tree, h'.blocks.trans h.blocks, h'.byTokens.trans h.byTokens,
    h.next_le.trans h'.next_le, fun hbound => h'.next_bounded (h.next_bounded hbound),
    h.nonce_le.trans h'.nonce_le⟩
  refine (hchange.trans hchange').congr fun id record _ => ?_
  cases hpending : record.pending <;> simp [SequenceRecord.mapTransaction, hpending]

theorem sequences_total (h : Quiet cache cache')
    (weight : SequenceRecord R.AppendTransaction → ℕ)
    (hweight : ∀ change record, weight (record.mapTransaction change) = weight record) :
    cache'.sequences.total weight = cache.sequences.total weight := by
  obtain ⟨change, hchange⟩ := h.sequences
  exact Arena.total_map weight hchange.get? fun id record => hweight (change id) record

theorem length_sequences (h : Quiet cache cache') :
    cache'.sequences.values.length = cache.sequences.values.length := by
  rw [← Arena.total_one, ← Arena.total_one]
  exact h.sequences_total _ fun _ _ => rfl

theorem accounts_eq (h : Quiet cache cache') (residentPages internedTokenBlocks : ℕ) :
    cache'.accounts residentPages internedTokenBlocks =
      cache.accounts residentPages internedTokenBlocks := by
  simp only [SequenceCache.accounts, SequenceCache.chargedBytes, h.length_sequences, h.prefixes,
    h.config, h.pageBytes, h.pageCapacity, h.stats, h.deferredPages]

/-- The invariant survives, provided the backend still owes what it owed. -/
theorem inv {orphans : List PageId} {stray : List TokenBlockId} (h : Quiet cache cache')
    (hinv : Inv orphans stray cache)
    (hdeferred : deferredTotal cache'.backend = deferredTotal cache.backend) :
    Inv orphans stray cache' := by
  obtain ⟨change, hchange⟩ := h.sequences
  have hcount : ∀ id, activeCount cache'.sequences id = activeCount cache.sequences id := by
    intro id
    exact h.sequences_total _ fun _ record => by rw [SequenceRecord.mapTransaction_heldPages]
  refine ⟨?_, ?_, ?_, ?_, ?_, ?_, ?_, ?_, ?_, ?_⟩
  · obtain ⟨h1, h2, h3, h4, h5, h6⟩ := hinv.config
    constructor <;> simpa only [h.config, h.pageBytes]
  · rw [h.config, h.pages, h.prefixes]
    refine { hinv.owned with
      sequences_wf := hchange.wf hinv.owned.sequences_wf, page := ?_, sequence := ?_ }
    · intro id page hpage
      have hok := hinv.owned.page id page hpage
      exact { hok with active_refs := (hcount id).symm ▸ hok.active_refs }
    · intro id record hrecord
      rw [hchange.get?] at hrecord
      obtain ⟨old, hold, rfl⟩ := Option.map_eq_some_iff.mp hrecord
      exact (hinv.owned.sequence id old hold).mapTransaction (change id)
  · obtain ⟨h1, h2, h3, h4, h5, h6⟩ := hinv.counted
    constructor
    · rw [h.stats, h.sequences_total _ fun _ _ => rfl, h1]
    · rw [h.stats, h.sequences_total _ fun _ _ => rfl, h2]
    · rw [h.stats, h.sequences_total _ fun _ _ => rfl, h3]
    · rw [h.stats, h.prefixes, h4]
    · rw [h.stats, h.pages, h.pageBytes, h5]
    · rw [h.deferredPages, hdeferred, h6]
  · obtain ⟨h1, h2, h3, h4, h5⟩ := hinv.published
    constructor
    · rw [h.accounts_eq, h.stats]
      exact h1
    · rw [h.stats]
      simpa only [SequenceCache.residentNow, h.pages, h.deferredPages] using h2
    · rw [h.stats]
      simpa only [SequenceCache.residentNow, h.pages, h.deferredPages] using h3
    · rw [h.stats]
      simpa only [PrefixIndex.blockCount, h.blocks] using h4
    · rw [h.gauges, h.stats, h5]
  · obtain ⟨h1, h2, h3, h4⟩ := hinv.budgeted
    constructor
    · simpa only [SequenceCache.chargedBytes, h.stats, h.pageBytes, h.pages, h.config] using h1
    · rwa [h.stats, h.config]
    · rwa [h.stats, h.config]
    · rwa [h.prefixes, h.config]
  · rw [h.config, h.prefixes]
    obtain ⟨htable, htree, hkey, hlength⟩ := hinv.filed
    refine ⟨?_, ?_, hkey, hlength⟩
    · obtain ⟨⟨t1, t2, t3, t4, t5, t6⟩, t7⟩ := htable
      refine ⟨⟨?_, ?_, ?_, ?_, ?_, ?_⟩, ?_⟩
      · rwa [h.blocks]
      · rwa [h.blocks]
      · rwa [h.blocks, h.byTokens]
      · rwa [h.blocks, h.byTokens]
      · rw [h.blocks]
        exact fun id record hrecord => (t5 id record hrecord).trans_le h.next_le
      · exact h.next_bounded t6
      · rwa [h.blocks]
    · rwa [h.tree]
  · rw [h.prefixes, h.lru]
    exact hinv.ranked
  · rw [h.prefixes, h.clock]
    exact hinv.clocked
  · rw [h.prefixes, h.nextPrefixId]
    exact hinv.ids_below
  · rw [h.nextPrefixId]
    exact hinv.ids_bounded

end Quiet

/-- The cache after a call that was refused before the backend was asked for a page. -/
structure SequenceCache.Unchanged (cache cache' : SequenceCache R) : Prop where
  quiet : Quiet cache cache'
  calls : Calls 0 cache.backend [] cache'.backend []

/-! ## Attempts -/

namespace SequenceCache

variable {α : Type} {program : CacheM R α} {cache cache' : SequenceCache R}

theorem attempt_ok {value : α} (h : program cache = .ok value cache') :
    attempt program cache = .ok (.ok value) cache' := by
  simp only [attempt, h]

theorem attempt_error {error : CacheError R.Error}
    (h : program cache = .error (.error error) cache') :
    attempt program cache = .ok (.error error) cache' := by
  simp only [attempt, h]

theorem attempt_panic {message : String} (h : program cache = .error (.panic message) cache') :
    attempt program cache = .error (.panic message) cache' := by
  simp only [attempt, h]

end SequenceCache

end SeqCache
