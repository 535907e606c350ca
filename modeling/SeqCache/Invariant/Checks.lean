import SeqCache.Invariant.References

/-!
# What validation accepts

`validate` runs its checks one after the other and stops at the first that fails.  Each
check is equivalent to a condition on the records it reads, for every value of the cache,
reached or not.
-/

namespace SeqCache

open Machine Program Std

variable {R : Runtime}

namespace SequenceCache

variable {cache : SequenceCache R}

theorem pageRecord_bind_eq_ok {α : Type} {id : PageId} {next : PageRecord R.Page → CacheResult R α}
    {result : α} : (cache.pageRecord id >>= next) = .ok result ↔
      ∃ page, cache.pages.get? id = some page ∧ next page = .ok result :=
  okOr_bind_eq_ok

/-- A check of a list is a check of each of its items. -/
theorem checkAll_eq_ok {α : Type} {check : α → CacheResult R Unit} {items : List α} :
    checkAll check items = .ok () ↔ ∀ item ∈ items, check item = .ok () := by
  induction items with
  | nil => simp [checkAll, pure, Except.pure]
  | cons item rest ih =>
      rw [checkAll, List.forall_mem_cons, ← ih]
      constructor
      · intro h
        obtain ⟨⟨⟩, hitem, hrest⟩ := except_bind_eq_ok.mp h
        exact ⟨hitem, hrest⟩
      · rintro ⟨hitem, hrest⟩
        exact (except_bind_ok hitem).trans hrest

/-! ## Sequences -/

/-- A page that no one but its holder can see or has written. -/
structure PrivateEmpty (page : PageRecord R.Page) : Prop where
  validTokens : page.validTokens = 0
  unsealed : page.sealed = false
  activeRefs : page.activeRefs = 1
  prefixRefs : page.prefixRefs = 0

theorem checkPendingPages_eq_ok {ids : List PageId} :
    cache.checkPendingPages ids = .ok () ↔
      ∀ id ∈ ids, ∃ page, cache.pages.get? id = some page ∧ PrivateEmpty page := by
  induction ids with
  | nil => simp [checkPendingPages, pure, Except.pure]
  | cons id rest ih =>
      rw [checkPendingPages, pageRecord_bind_eq_ok, List.forall_mem_cons, ← ih]
      constructor
      · rintro ⟨page, hpage, hchecks⟩
        obtain ⟨hprivate, hrest⟩ := ensure_bind_eq_ok.mp hchecks
        simp only [ne_eq, not_or, not_not, Bool.not_eq_true] at hprivate
        obtain ⟨hvalid, hsealed, hactive, hretained⟩ := hprivate
        exact ⟨⟨page, hpage, hvalid, hsealed, hactive, hretained⟩, hrest⟩
      · rintro ⟨⟨page, hpage, hvalid, hsealed, hactive, hretained⟩, hrest⟩
        exact ⟨page, hpage, ensure_bind_eq_ok.mpr ⟨by simp [*], hrest⟩⟩

/-- Rows in the last page of a sequence that has written all its pages. -/
def tailRows (pageTokens position : ℕ) : ℕ :=
  if position % pageTokens = 0 then pageTokens else position % pageTokens

/-- The last page holds the rows the position says, and no one else holds it while it can
be written. -/
def TailChecked (cache : SequenceCache R) (position : ℕ) (id : PageId) : Prop :=
  ∃ page, cache.pages.get? id = some page ∧
    page.validTokens = tailRows cache.config.pageTokens position ∧
    (tailRows cache.config.pageTokens position < cache.config.pageTokens →
      page.sealed = false ∧ page.activeRefs = 1 ∧ page.prefixRefs = 0)

theorem checkTail_eq_ok {record : SequenceRecord R.AppendTransaction} {preallocated : Bool} :
    cache.checkTail record preallocated = .ok () ↔
      (preallocated = false → ∀ id ∈ record.pages.getLast?,
        TailChecked cache record.position id) := by
  unfold checkTail
  cases preallocated with
  | true =>
      cases record.pages.getLast? <;> simp [pure, Except.pure]
  | false =>
      cases record.pages.getLast? with
      | none => simp [pure, Except.pure]
      | some tail =>
          simp only [Option.filter, Bool.not_false, if_true, Option.mem_some_iff, forall_eq',
            forall_const, pageRecord_bind_eq_ok, ensure_bind_eq_ok, ensure_eq_ok]
          constructor
          · rintro ⟨page, hpage, hvalid, hprivate⟩
            refine ⟨page, hpage, hvalid, fun hwritable => ?_⟩
            simpa using fun hshared => hprivate ⟨hwritable, hshared⟩
          · rintro ⟨page, hpage, hvalid, hprivate⟩
            refine ⟨page, hpage, hvalid, ?_⟩
            rintro ⟨hwritable, hshared⟩
            obtain ⟨hsealed, hactive, hretained⟩ := hprivate hwritable
            simp [hsealed, hactive, hretained] at hshared

/-- New pages of the append in flight. -/
def pendingPages (record : SequenceRecord R.AppendTransaction) : List PageId :=
  (record.pending.map PendingAppend.newPages).getD []

/-- What `checkSequence` accepts. -/
structure SequenceChecked (cache : SequenceCache R)
    (record : SequenceRecord R.AppendTransaction) : Prop where
  position_le : record.position ≤ record.maxPosition
  position_bounded : record.position + (cache.config.pageTokens - 1) ≤ usizeMax
  length_pages : record.pages.length = record.position ⌈/⌉ cache.config.pageTokens ∨
    cache.hasPreallocatedTail record (record.position ⌈/⌉ cache.config.pageTokens) = true
  pending : ∀ id ∈ pendingPages record, ∃ page, cache.pages.get? id = some page ∧
    PrivateEmpty page
  tail : cache.hasPreallocatedTail record (record.position ⌈/⌉ cache.config.pageTokens) = false →
    ∀ id ∈ record.pages.getLast?, TailChecked cache record.position id
  bounded : record.maxPosition + (cache.config.pageTokens - 1) ≤ usizeMax
  reserved : wrappingAdd (wrappingAdd record.pages.length (pendingPages record).length)
    record.reservedPages = record.maxPosition ⌈/⌉ cache.config.pageTokens

theorem checkSequence_eq_ok {record : SequenceRecord R.AppendTransaction} :
    cache.checkSequence record = .ok () ↔ SequenceChecked cache record := by
  unfold checkSequence
  simp only [except_bind_eq_ok, okOr_eq_ok, ensure_eq_ok, checkedDivCeil_eq_some]
  constructor
  · rintro ⟨-, hposition, expected, ⟨hbounded, rfl⟩, -, hlength, ⟨⟩, hpending, ⟨⟩, htail, held,
      ⟨hbounded', rfl⟩, hreserved⟩
    exact ⟨hposition, hbounded, hlength, checkPendingPages_eq_ok.mp hpending,
      checkTail_eq_ok.mp htail, hbounded', hreserved⟩
  · rintro ⟨hposition, hbounded, hlength, hpending, htail, hbounded', hreserved⟩
    exact ⟨(), hposition, _, ⟨hbounded, rfl⟩, (), hlength, (),
      checkPendingPages_eq_ok.mpr hpending, (), checkTail_eq_ok.mpr htail, _, ⟨hbounded', rfl⟩,
      hreserved⟩

/-! ## Entries -/

/-- What `checkEntry` accepts. -/
structure EntryChecked (cache : SequenceCache R) (entry : PrefixEntry R.Snapshot) : Prop where
  position_ne : entry.position ≠ 0
  aligned : entry.position % cache.config.pageTokens = 0
  position_eq : wrappingMul entry.pages.length cache.config.pageTokens = entry.position
  pages : ∀ id ∈ entry.pages, ∃ page, cache.pages.get? id = some page ∧ page.sealed = true ∧
    page.validTokens = cache.config.pageTokens

theorem checkEntryPages_eq_ok {ids : List PageId} :
    cache.checkEntryPages ids = .ok () ↔
      ∀ id ∈ ids, ∃ page, cache.pages.get? id = some page ∧ page.sealed = true ∧
        page.validTokens = cache.config.pageTokens := by
  induction ids with
  | nil => simp [checkEntryPages, pure, Except.pure]
  | cons id rest ih =>
      rw [checkEntryPages, pageRecord_bind_eq_ok, List.forall_mem_cons, ← ih]
      simp only [ensure_bind_eq_ok, not_or, ne_eq, not_not, Bool.not_eq_false]
      constructor
      · rintro ⟨page, hpage, hcomplete, hrest⟩
        exact ⟨⟨page, hpage, hcomplete⟩, hrest⟩
      · rintro ⟨⟨page, hpage, hcomplete⟩, hrest⟩
        exact ⟨page, hpage, hcomplete, hrest⟩

theorem checkEntry_eq_ok {entry : PrefixEntry R.Snapshot} :
    cache.checkEntry entry = .ok () ↔ EntryChecked cache entry := by
  unfold checkEntry
  rw [ensure_bind_eq_ok, checkEntryPages_eq_ok]
  simp only [not_or, ne_eq, not_not]
  constructor
  · rintro ⟨⟨hposition, haligned, hlength⟩, hpages⟩
    exact ⟨hposition, haligned, hlength, hpages⟩
  · rintro ⟨hposition, haligned, hlength, hpages⟩
    exact ⟨⟨hposition, haligned, hlength⟩, hpages⟩

/-! ## Page records -/

/-- The stored counts are the number of holders, and there is one. -/
structure PageChecked (cache : SequenceCache R) (id : PageId) (page : PageRecord R.Page) :
    Prop where
  active_refs : page.activeRefs = cache.activeHolders.count id
  prefix_refs : page.prefixRefs = cache.prefixHolders.count id
  owned : 0 < page.activeRefs + page.prefixRefs

theorem checkPage_eq_ok {id : PageId} {page : PageRecord R.Page} :
    cache.checkPage id page = .ok () ↔ PageChecked cache id page := by
  unfold checkPage
  rw [ensure_bind_eq_ok, ensure_eq_ok]
  constructor
  · rintro ⟨hcounts, howned⟩
    simp only [not_or, ne_eq, not_not] at hcounts
    exact ⟨hcounts.1, hcounts.2, by omega⟩
  · rintro ⟨hactive, hretained, howned⟩
    exact ⟨by simp [hactive, hretained], by omega⟩

/-- The map of active references, counted sequence by sequence. -/
theorem count_activeHolders (cache : SequenceCache R) (id : PageId) :
    cache.activeHolders.count id = activeCount cache.sequences id := by
  unfold activeHolders activeCount Arena.total
  rw [List.count_flatMap]
  rfl

theorem count_prefixHolders (cache : SequenceCache R) (id : PageId) :
    cache.prefixHolders.count id = prefixCount cache.prefixes id := by
  unfold prefixHolders prefixCount mapTotal
  rw [List.count_flatMap]
  rfl

/-! ## Statistics -/

/-- The cache with its counters recomputed from the records. -/
def recounted (cache : SequenceCache R) : SequenceCache R :=
  { cache with
    stats := { cache.stats with
      reservedPages := cache.sequences.total SequenceRecord.reservedPages
      activePrivateStateBytes := cache.sequences.total SequenceRecord.privateStateBytes
      pageTableBytes := cache.sequences.total SequenceRecord.pageTableBytes
      retainedSnapshotBytes := mapTotal PrefixEntry.snapshotBytes cache.prefixes
      reclaimablePrefixOnlyBytes :=
        cache.pages.values.countP PageRecord.isReclaimable * cache.pageBytes } }

/-- The recomputed totals fit a machine word. -/
structure Summable (cache : SequenceCache R) : Prop where
  resident : cache.residentNow ≤ usizeMax
  reserved : cache.recounted.stats.reservedPages ≤ usizeMax
  reclaimable : cache.recounted.stats.reclaimablePrefixOnlyBytes ≤ usizeMax
  charged : cache.recounted.chargedBytes cache.residentNow ≤ usizeMax

theorem checkedSum_eq_some {values : List ℕ} {total : ℕ} :
    checkedSum values = some total ↔ values.sum ≤ usizeMax ∧ total = values.sum := by
  have hfold : ∀ start ≤ usizeMax, List.foldlM checkedAdd start values = some total ↔
      start + values.sum ≤ usizeMax ∧ total = start + values.sum := by
    induction values with
    | nil =>
        intro start hstart
        simp [hstart, eq_comm]
    | cons value rest ih =>
        intro start hstart
        simp only [List.foldlM_cons, Option.bind_eq_bind, Option.bind_eq_some_iff,
          checkedAdd_eq_some, List.sum_cons]
        constructor
        · rintro ⟨sum, ⟨hsum, rfl⟩, hrest⟩
          obtain ⟨htotal, rfl⟩ := (ih _ hsum).mp hrest
          exact ⟨by omega, by omega⟩
        · rintro ⟨htotal, rfl⟩
          exact ⟨start + value, ⟨by omega, rfl⟩, (ih _ (by omega)).mpr ⟨by omega, by omega⟩⟩
  unfold checkedSum
  rw [hfold 0 (Nat.zero_le _), Nat.zero_add]

theorem totalBytes_eq_some {stats : CacheStats} {total : ℕ} :
    totalBytes stats = some total ↔
      stats.uniqueResidentPageBytes + stats.outstandingReservationBytes +
        stats.activePrivateStateBytes + stats.retainedSnapshotBytes + stats.pageTableBytes ≤
          usizeMax ∧
      total = stats.uniqueResidentPageBytes + stats.outstandingReservationBytes +
        stats.activePrivateStateBytes + stats.retainedSnapshotBytes + stats.pageTableBytes := by
  unfold totalBytes
  simp only [Option.bind_eq_bind, Option.bind_eq_some_iff, checkedAdd_eq_some]
  constructor
  · rintro ⟨_, ⟨-, rfl⟩, _, ⟨-, rfl⟩, _, ⟨-, rfl⟩, htotal, rfl⟩
    exact ⟨htotal, rfl⟩
  · rintro ⟨htotal, rfl⟩
    exact ⟨_, ⟨by omega, rfl⟩, _, ⟨by omega, rfl⟩, _, ⟨by omega, rfl⟩, htotal, rfl⟩

theorem computeStats_eq_ok {stats : CacheStats} :
    cache.computeStats = .ok stats ↔ Summable cache ∧ stats = cache.recounted.refreshed := by
  unfold computeStats
  simp only [except_bind_eq_ok, okOr_eq_ok, checkedAdd_eq_some, checkedMul_eq_some,
    checkedSum_eq_some, totalBytes_eq_some]
  constructor
  · rintro ⟨resident, ⟨hresident, rfl⟩, reserved, ⟨hreserved, rfl⟩, privateState,
      ⟨hprivate, rfl⟩, table, ⟨htable, rfl⟩, snapshot, ⟨hsnapshot, rfl⟩, unique, ⟨hunique, rfl⟩,
      outstanding, ⟨houtstanding, rfl⟩, reclaimable, ⟨hreclaimable, rfl⟩, total, ⟨hall, rfl⟩,
      hstats⟩
    exact ⟨⟨hresident, hreserved, hreclaimable, hall⟩, (Except.ok.inj hstats).symm⟩
  · rintro ⟨⟨hresident, hreserved, hreclaimable, hcharged⟩, rfl⟩
    have hterms := hcharged
    unfold chargedBytes recounted residentNow Arena.total mapTotal at hterms
    simp only at hterms
    exact ⟨_, ⟨hresident, rfl⟩, _, ⟨hreserved, rfl⟩, _, ⟨by omega, rfl⟩, _, ⟨by omega, rfl⟩, _,
      ⟨by omega, rfl⟩, _, ⟨by omega, rfl⟩, _, ⟨by omega, rfl⟩, _, ⟨hreclaimable, rfl⟩, _,
      ⟨hcharged, rfl⟩, rfl⟩

/-! ## Least recent use -/

/-- Sets of use times that name only retained entries, at their times. -/
def Listed (cache : SequenceCache R) : Prop :=
  ∀ used id, (used, id) ∈ cache.lru → ∃ entry, cache.prefixes[id]? = some entry ∧
    entry.lastUsed = used

theorem checkLru_eq_true :
    cache.checkLru = true ↔ cache.lru.size = cache.prefixes.size ∧ Listed cache := by
  unfold checkLru Listed
  rw [Bool.and_eq_true, decide_eq_true_eq, List.all_eq_true, Prod.forall]
  simp only [ExtTreeSet.mem_toList]
  apply and_congr_right'
  apply forall₃_congr
  intro used id _
  cases cache.prefixes[id]? <;> simp

/-- As many times as entries means that no entry is missing. -/
theorem ranked_iff : Ranked cache.prefixes cache.lru ↔
    cache.lru.size = cache.prefixes.size ∧ Listed cache := by
  have hlength : cache.recency.length = cache.lru.size := by
    unfold recency keysByTime
    rw [List.length_map, ExtTreeSet.length_toList]
  have hkeys : (cache.prefixes.toList.map Prod.fst).length = cache.prefixes.size := by
    rw [List.length_map, ExtTreeMap.length_toList]
  have hmem : ∀ id, id ∈ cache.prefixes.toList.map Prod.fst ↔
      ∃ entry, cache.prefixes[id]? = some entry := by
    intro id
    simp only [List.mem_map, Prod.exists, exists_and_right, exists_eq_right,
      ExtTreeMap.mem_toList_iff_getElem?_eq_some]
  have hnodup := (tabulates_toList cache.prefixes).keys_nodup
  constructor
  · intro hranked
    refine ⟨?_, fun used id => (hranked used id).mp⟩
    rw [← hlength, ← hkeys]
    apply List.Perm.length_eq
    rw [List.perm_ext_iff_of_nodup (nodup_recency hranked) hnodup]
    intro id
    rw [mem_recency hranked, hmem]
  · rintro ⟨hsize, hlisted⟩ used id
    refine ⟨hlisted used id, ?_⟩
    rintro ⟨entry, hentry, rfl⟩
    have hrecency : cache.recency.Nodup := by
      apply nodup_keysByTime
      intro used used' id hused hused'
      obtain ⟨found, hfound, rfl⟩ := hlisted used id hused
      obtain ⟨found', hfound', rfl⟩ := hlisted used' id hused'
      rw [hfound] at hfound'
      rw [Option.some.inj hfound']
    have hsubset : cache.recency ⊆ cache.prefixes.toList.map Prod.fst := by
      intro id hid
      obtain ⟨⟨used, id⟩, hlru, rfl⟩ := List.mem_map.mp hid
      obtain ⟨found, hfound, -⟩ := hlisted used id (ExtTreeSet.mem_toList.mp hlru)
      exact (hmem id).mpr ⟨found, hfound⟩
    have hperm := (List.subperm_of_subset hrecency hsubset).perm_of_length_le (by
      rw [hlength, hkeys, hsize])
    obtain ⟨⟨used, other⟩, hlru, rfl⟩ := List.mem_map.mp
      (hperm.mem_iff.mpr ((hmem id).mpr ⟨entry, hentry⟩))
    obtain ⟨entry', hentry', rfl⟩ := hlisted used other (ExtTreeSet.mem_toList.mp hlru)
    rw [hentry] at hentry'
    cases hentry'
    exact ExtTreeSet.mem_toList.mp hlru

theorem checkLru_iff : cache.checkLru = true ↔ Ranked cache.prefixes cache.lru :=
  checkLru_eq_true.trans ranked_iff.symm

/-! ## The whole state -/

/-- What `validate` accepts. -/
structure Checked (cache : SequenceCache R) : Prop where
  sequence : ∀ id record, cache.sequences.get? id = some record → SequenceChecked cache record
  entry : ∀ (id : PrefixEntryId) entry, cache.prefixes[id]? = some entry →
    EntryChecked cache entry
  page : ∀ id page, cache.pages.get? id = some page →
    PageChecked cache (Handle.new id.slot id.generation) page
  summable : Summable cache
  stats_eq : cache.stats = cache.recounted.refreshed
  ranked : Ranked cache.prefixes cache.lru
  gauges_eq : cache.gauges = cache.stats.gauges

theorem validate_eq_ok : cache.validate = .ok () ↔ Checked cache := by
  have hsequences : checkAll cache.checkSequence cache.sequences.values = .ok () ↔
      ∀ id record, cache.sequences.get? id = some record → SequenceChecked cache record := by
    rw [checkAll_eq_ok, ← Arena.map_snd_entries]
    simp only [List.forall_mem_map, Prod.forall, Arena.mem_entries, checkSequence_eq_ok]
  have hentries : checkAll (fun item => cache.checkEntry item.2) cache.prefixes.toList = .ok () ↔
      ∀ (id : PrefixEntryId) entry, cache.prefixes[id]? = some entry →
        EntryChecked cache entry := by
    rw [checkAll_eq_ok]
    simp only [Prod.forall, ExtTreeMap.mem_toList_iff_getElem?_eq_some, checkEntry_eq_ok]
  have hpages : checkAll
      (fun item => cache.checkPage (Handle.new item.1.slot item.1.generation) item.2)
        cache.pages.entries = .ok () ↔
      ∀ id page, cache.pages.get? id = some page →
        PageChecked cache (Handle.new id.slot id.generation) page := by
    rw [checkAll_eq_ok]
    simp only [Prod.forall, Arena.mem_entries, checkPage_eq_ok]
  unfold validate
  simp only [except_bind_eq_ok, ensure_eq_ok, computeStats_eq_ok, checkLru_iff]
  constructor
  · rintro ⟨⟨⟩, hsequence, ⟨⟩, hentry, ⟨⟩, hpage, stats, ⟨hsummable, rfl⟩, -, hstats, -, hranked,
      hgauges⟩
    exact ⟨hsequences.mp hsequence, hentries.mp hentry, hpages.mp hpage, hsummable, hstats.symm,
      hranked, hgauges⟩
  · rintro ⟨hsequence, hentry, hpage, hsummable, hstats, hranked, hgauges⟩
    exact ⟨(), hsequences.mpr hsequence, (), hentries.mpr hentry, (), hpages.mpr hpage, _,
      ⟨hsummable, rfl⟩, (), hstats.symm, (), hranked, hgauges⟩

/-! ## Without ghosts, the invariant is accepted -/

section Accepted

variable (hinv : Inv [] [] cache)
include hinv

theorem recounted_of_inv : cache.recounted = cache := by
  unfold recounted
  rw [← hinv.counted.reserved, ← hinv.counted.privateState, ← hinv.counted.pageTable,
    ← hinv.counted.snapshot, ← hinv.counted.reclaimable]

/-- The statistics are what `refreshStats` computes. -/
theorem refreshed_of_inv : cache.refreshed = cache.stats := by
  unfold refreshed
  rw [← hinv.published.resident_eq rfl, ← hinv.published.interned_eq rfl]
  exact hinv.published.stats_eq.symm

theorem summable_of_inv : Summable cache := by
  have hcharged := hinv.charged_le
  have hdouble := hinv.double_le
  have hresident := hinv.resident_le_mul cache.residentNow
  have hreserved := hinv.resident_le_mul cache.stats.reservedPages
  have hpages := hinv.pages_le_usize
  rw [hinv.published.resident_eq rfl] at hcharged
  have hterms := hcharged
  unfold chargedBytes at hterms
  refine ⟨by omega, ?_, ?_, ?_⟩
  · rw [recounted_of_inv hinv]
    omega
  · rw [recounted_of_inv hinv, hinv.counted.reclaimable]
    exact (Nat.mul_le_mul_right _ List.countP_le_length).trans hpages
  · rw [recounted_of_inv hinv]
    omega

/-- Only one sequence holds a page that is not sealed. -/
theorem private_of_inv {id : PageId} {page : PageRecord R.Page}
    (hpage : cache.pages.get? id = some page) (hsealed : page.sealed = false) :
    page.activeRefs = 1 ∧ page.prefixRefs = 0 := by
  have hok := hinv.owned.page id page hpage
  obtain ⟨hactive, hretained⟩ := hok.unshared hsealed
  have howned := hok.owned
  exact ⟨by omega, hretained⟩

omit hinv in
theorem validRows_beyond {pageTokens position n : ℕ} (hpos : 0 < pageTokens)
    (h : position ⌈/⌉ pageTokens ≤ n) : validRows pageTokens position n = 0 := by
  have hle := (ceilDiv_le_iff hpos).mp h
  unfold validRows
  omega

omit hinv in
theorem validRows_last {pageTokens position n : ℕ} (hpos : 0 < pageTokens)
    (h : n + 1 = position ⌈/⌉ pageTokens) :
    validRows pageTokens position n = tailRows pageTokens position := by
  have hdiv := Nat.div_add_mod' position pageTokens
  have hlt := Nat.mod_lt position hpos
  unfold validRows tailRows
  split_ifs with haligned
  · rw [ceilDiv_of_aligned hpos haligned] at h
    rw [← h, Nat.succ_mul] at hdiv
    omega
  · rw [ceilDiv_of_unaligned hpos haligned] at h
    obtain rfl : n = position / pageTokens := by omega
    omega

theorem sequenceChecked_of_inv {id : SequenceId} {record : SequenceRecord R.AppendTransaction}
    (hrecord : cache.sequences.get? id = some record) : SequenceChecked cache record := by
  have hok := hinv.owned.sequence id record hrecord
  have hpos := hinv.config.pageTokens_pos
  have hlength := hok.length_pages
  have htotal := hok.length_total rfl
  have hbounded := hok.bounded
  have hposition := hok.position_le
  have hlast : record.maxPosition ⌈/⌉ cache.config.pageTokens ≤ usizeMax := by
    apply (ceilDiv_le_iff hpos).mpr
    exact (by omega : record.maxPosition ≤ usizeMax).trans (Nat.le_mul_of_pos_right _ hpos)
  refine ⟨hposition, by omega, Or.inl hlength, fun id hid => ?_, fun _ id hid => ?_, hbounded, ?_⟩
  · obtain ⟨n, hn⟩ := List.mem_iff_getElem?.mp hid
    have hheld : record.heldPages[record.pages.length + n]? = some id := by
      change (record.pages ++ pendingPages record)[record.pages.length + n]? = some id
      rw [List.getElem?_append_right (Nat.le_add_right _ _), Nat.add_sub_cancel_left]
      exact hn
    obtain ⟨page, hpage, hpageOk⟩ := hok.held _ id hheld
    obtain ⟨hvalid, hsealed⟩ := hpageOk.rows rfl
    rw [validRows_beyond hpos (hlength ▸ Nat.le_add_right _ _)] at hvalid hsealed
    have hopen : page.sealed = false := by
      rw [Bool.eq_false_iff, Ne, hsealed]
      omega
    obtain ⟨hactive, hretained⟩ := private_of_inv hinv hpage hopen
    exact ⟨page, hpage, hvalid, hopen, hactive, hretained⟩
  · obtain ⟨n, hn⟩ : ∃ n, record.pages.length = n + 1 := by
      cases hpages : record.pages with
      | nil => simp [hpages] at hid
      | cons head rest => exact ⟨rest.length, rfl⟩
    have hheld : record.heldPages[n]? = some id := by
      unfold SequenceRecord.heldPages
      rw [List.getElem?_append_left (by omega)]
      rw [Option.mem_def, List.getLast?_eq_getElem?, hn, Nat.add_sub_cancel] at hid
      exact hid
    obtain ⟨page, hpage, hpageOk⟩ := hok.held n id hheld
    obtain ⟨hvalid, hsealed⟩ := hpageOk.rows rfl
    rw [validRows_last hpos (hn.symm.trans hlength)] at hvalid hsealed
    refine ⟨page, hpage, hvalid, fun hwritable => ?_⟩
    have hopen : page.sealed = false := by
      rw [Bool.eq_false_iff, Ne, hsealed]
      omega
    exact ⟨hopen, private_of_inv hinv hpage hopen⟩
  · have hheld : record.heldPages.length =
        record.pages.length + (pendingPages record).length := List.length_append
    rw [hheld] at htotal
    have hlisted : wrappingAdd record.pages.length (pendingPages record).length =
        record.pages.length + (pendingPages record).length := wrappingAdd_of_le (by omega)
    rw [hlisted, wrappingAdd_of_le (by omega)]
    exact htotal

theorem entryChecked_of_inv {id : PrefixEntryId} {entry : PrefixEntry R.Snapshot}
    (hentry : cache.prefixes[id]? = some entry) : EntryChecked cache entry := by
  have hok := hinv.owned.entry id entry hentry
  have hbounded := hok.bounded
  have hposition := hok.position_eq
  refine ⟨hok.position_ne, ?_, ?_, fun page hpage => ?_⟩
  · rw [← hposition, Nat.mul_mod_left]
  · rw [wrappingMul_of_le (by omega), hposition]
  · obtain ⟨found, hfound, -, hcomplete⟩ := hok.held page hpage
    exact ⟨found, hfound, hcomplete⟩

theorem checked_of_inv : Checked cache := by
  refine ⟨fun id record => sequenceChecked_of_inv hinv, fun id entry => entryChecked_of_inv hinv,
    fun id page hpage => ?_, summable_of_inv hinv, ?_, hinv.ranked, hinv.published.gauges_eq⟩
  · have hok := hinv.owned.page id page hpage
    have hslot := (Arena.slot_lt_of_get? hpage).trans_le hinv.owned.pages_wf.length_le
    unfold Handle.new
    rw [Nat.mod_eq_of_lt hslot]
    refine ⟨?_, ?_, hok.owned⟩
    · rw [count_activeHolders, hok.active_refs, List.count_nil, Nat.add_zero]
    · rw [count_prefixHolders, hok.prefix_refs]
  · rw [recounted_of_inv hinv, refreshed_of_inv hinv]

end Accepted

end SequenceCache

end SeqCache
