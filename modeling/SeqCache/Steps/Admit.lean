import SeqCache.Invariant.Growth
import SeqCache.Steps.Evict

/-!
# Admission as a step

`admitSequence` and `branch` plan evictions for the pages they reserve, publish a page
table, carry the plan out and register a sequence that shares complete pages.  A branch
from an unaligned position also registers a copy of the writable tail.
-/

namespace SeqCache

open Machine Program Std

variable {R : Runtime}

/-! ## The new sequence -/

/-- A sequence made of complete pages and a copy of a partial tail. -/
theorem SequenceOk.ofParts {Page Transaction : Type} {orphans : List PageId} {pageTokens : ℕ}
    {pages : Pages Page} {record : SequenceRecord Transaction} {shared fresh : List PageId}
    (hpos : 0 < pageTokens) (hpages : record.pages = shared ++ fresh)
    (hpending : record.pending = none) (hshared : shared.length = record.position / pageTokens)
    (hfresh : record.pages.length = record.position ⌈/⌉ pageTokens)
    (hposition : record.position ≤ record.maxPosition)
    (hbounded : record.maxPosition + (pageTokens - 1) ≤ usizeMax)
    (htotal : record.pages.length + record.reservedPages = record.maxPosition ⌈/⌉ pageTokens)
    (hnodup : record.pages.Nodup)
    (hcomplete : ∀ id ∈ shared, ∃ page, pages.get? id = some page ∧ page.physical.isSome ∧
      page.sealed = true ∧ page.validTokens = pageTokens)
    (htail : ∀ id ∈ fresh, ∃ page, pages.get? id = some page ∧ page.physical.isSome ∧
      page.sealed = false ∧ page.validTokens = record.position % pageTokens) :
    SequenceOk orphans pageTokens pages record := by
  have hheld := heldPages_of_pending_none hpending
  have hdiv := Nat.div_add_mod' record.position pageTokens
  have hmod := Nat.mod_lt record.position hpos
  refine ⟨hposition, hbounded, hfresh, ?_, ?_, ?_, ?_, ?_⟩
  · rw [hheld]
    exact htotal.le
  · intro _
    rw [hheld]
    exact htotal
  · rw [hheld]
    exact hnodup
  · intro n id hid
    rw [hheld, hpages, List.getElem?_append] at hid
    split_ifs at hid with hn
    · obtain ⟨page, hpage, hphysical, hsealed, hvalid⟩ := hcomplete id (List.mem_of_getElem? hid)
      have hmul := Nat.mul_le_mul_right pageTokens (Nat.succ_le_of_lt (hshared ▸ hn))
      have hrows : validRows pageTokens record.position n = pageTokens := by
        unfold validRows
        rw [Nat.succ_mul] at hmul
        exact min_eq_left (by omega)
      refine ⟨page, hpage, hphysical, fun _ => ⟨hsealed, hvalid⟩, ?_, fun _ => ?_⟩
      · rw [hpending]
        exact fun hnone => absurd hnone (by simp)
      · rw [hrows]
        exact ⟨hvalid, by simp [hsealed]⟩
    · obtain ⟨page, hpage, hphysical, hsealed, hvalid⟩ := htail id (List.mem_of_getElem? hid)
      have hlast : n < record.position ⌈/⌉ pageTokens := by
        rw [← hfresh, hpages, List.length_append]
        have := (List.getElem?_eq_some_iff.mp hid).1
        omega
      have hunaligned : record.position % pageTokens ≠ 0 := by
        intro haligned
        rw [ceilDiv_of_aligned hpos haligned] at hlast
        omega
      obtain rfl : n = record.position / pageTokens := by
        rw [ceilDiv_of_unaligned hpos hunaligned] at hlast
        omega
      have hrows : validRows pageTokens record.position (record.position / pageTokens) =
          record.position % pageTokens := by
        unfold validRows
        omega
      refine ⟨page, hpage, hphysical, ?_, fun _ _ => hsealed, fun _ => ?_⟩
      · intro hfull
        rw [Nat.succ_mul] at hfull
        omega
      · rw [hrows]
        refine ⟨hvalid, ?_⟩
        rw [hsealed]
        constructor
        · intro hfalse
          cases hfalse
        · omega
  · intro pending hsome
    rw [hpending] at hsome
    cases hsome

namespace SequenceCache

variable {cache : SequenceCache R} {orphans : List PageId} {stray : List TokenBlockId}

/-- Bytes that a sequence about to be registered is charged, without its fresh pages. -/
def admittedBytes (cache : SequenceCache R) (record : SequenceRecord R.AppendTransaction) : ℕ :=
  record.reservedPages * cache.pageBytes + record.privateStateBytes + record.pageTableBytes

/-- What the registration of a sequence does. -/
structure Admitted (cache cache' : SequenceCache R) (shared fresh : List PageId)
    (physical : List R.Page) (id : SequenceId) (record : SequenceRecord R.AppendTransaction) :
    Prop where
  state : cache' = ({ cache.putPages cache'.pages with
    sequences := cache'.sequences
    stats := CacheStats.admit (cache.putPages cache'.pages).stats record } :
      SequenceCache R).refresh
  advances : Arena.Advances cache.sequences cache'.sequences
  absent : cache.sequences.get? id = none
  sequences : ∀ other, cache'.sequences.get? other =
    if other = id then some record else cache.sequences.get? other
  pages : Grows cache.pages cache'.pages shared fresh
  length_pages : cache'.pages.values.length = cache.pages.values.length + fresh.length
  stored : Stored cache'.pages fresh physical
  issued : fresh = cache.pages.issued fresh.length
  table : record.pages = shared ++ fresh
  pending : record.pending = none

section Register

variable {pages' : Pages R.Page} {shared fresh : List PageId} {physical : List R.Page}
variable {record : SequenceRecord R.AppendTransaction}

theorem register_ok (hinv : Inv orphans stray cache)
    (hgrows : Grows cache.pages pages' shared fresh)
    (hlength : pages'.values.length = cache.pages.values.length + fresh.length)
    (hstored : Stored pages' fresh physical) (hissued : fresh = cache.pages.issued fresh.length)
    (hslot : cache.prepareSequenceSlot = .ok ())
    (hroom : cache.sequences.free = [] → cache.sequences.slots.length < 2 ^ 32)
    (htable : record.pages = shared ++ fresh) (hpending : record.pending = none)
    (hok : SequenceOk orphans cache.config.pageTokens pages' record)
    (hheld : cache.chargedBytes (cache.pages.values.length + fresh.length) +
      cache.admittedBytes record ≤ cache.config.maxManagedBytes)
    (hcharged : cache.chargedBytes (cache.residentNow + fresh.length) +
      cache.admittedBytes record ≤ 2 * cache.config.maxManagedBytes) :
    ∃ id cache', (do
        let id ← insertSequence record
        refreshStats
        pure (AdmissionOutcome.admitted id)) (cache.putPages pages') =
          .ok (.admitted id) cache' ∧
      Inv orphans stray cache' ∧ Admitted cache cache' shared fresh physical id record := by
  have hdouble := hinv.double_le
  have hreserved : cache.stats.reservedPages + record.reservedPages ≤ usizeMax := by
    have := hinv.resident_le_mul (cache.stats.reservedPages + record.reservedPages)
    rw [Nat.add_mul] at this
    unfold chargedBytes admittedBytes at hheld
    omega
  obtain ⟨id, sequences', hinsert, hwf, hadvances, habsent, hget⟩ :=
    @insertSequence_ok R (cache.putPages pages') hinv.owned.sequences_wf _
      hslot hroom hreserved
      (by
        change cache.stats.activePrivateStateBytes + record.privateStateBytes ≤ usizeMax
        unfold chargedBytes admittedBytes at hheld
        omega)
      (by
        change cache.stats.pageTableBytes + record.pageTableBytes ≤ usizeMax
        unfold chargedBytes admittedBytes at hheld
        omega)
  have hmul : (cache.stats.reservedPages + record.reservedPages) * cache.pageBytes =
      cache.stats.reservedPages * cache.pageBytes + record.reservedPages * cache.pageBytes :=
    Nat.add_mul _ _ _
  have hready : Ready orphans stray
      { cache.putPages pages' with
        sequences := sequences'
        stats := CacheStats.admit (cache.putPages pages').stats record } := by
    constructor
    · obtain ⟨h1, h2, h3, h4, h5, h6⟩ := hinv.config
      exact ⟨h1, h2, h3, h4, h5, h6⟩
    · refine hinv.owned.grow hgrows hwf (fun page => ?_) ?_
      · unfold activeCount
        rw [Arena.total_fresh _ habsent hget, heldPages_of_pending_none hpending, htable,
          List.count_append, Nat.add_assoc]
        rfl
      · intro other found hfound
        simp only at hfound
        rw [hget] at hfound
        split_ifs at hfound with heq
        · cases hfound
          exact Or.inr hok
        · exact Or.inl hfound
    · obtain ⟨h1, h2, h3, h4, h5, h6⟩ := hinv.counted
      refine ⟨?_, ?_, ?_, h4, rfl, h6⟩
      · rw [Arena.total_fresh _ habsent hget]
        exact congrArg (· + record.reservedPages) h1
      · rw [Arena.total_fresh _ habsent hget]
        exact congrArg (· + record.privateStateBytes) h2
      · rw [Arena.total_fresh _ habsent hget]
        exact congrArg (· + record.pageTableBytes) h3
    · unfold chargedBytes admittedBytes at hheld
      simp only [chargedBytes, CacheStats.admit, putPages]
      rw [hlength, hmul]
      omega
    · unfold chargedBytes admittedBytes residentNow at hcharged
      simp only [chargedBytes, residentNow, CacheStats.admit, putPages]
      rw [hlength, hmul,
        show cache.pages.values.length + fresh.length + cache.deferredPages =
          cache.pages.values.length + cache.deferredPages + fresh.length by omega]
      omega
    · exact hinv.budgeted.snapshot_le
    · exact hinv.budgeted.entries_le
    · exact hinv.filed
    · exact hinv.ranked
    · exact hinv.clocked
    · exact hinv.ids_below
    · exact hinv.ids_bounded
  obtain ⟨hrun, hfinal⟩ := hready.refresh
  refine ⟨id, _, ?_, hfinal, ?_⟩
  · rw [bind_ok hinsert, bind_ok hrun, pure_run]
  · exact ⟨rfl, hadvances, habsent, hget, hgrows, hlength, hstored, hissued, htable, hpending⟩

end Register

/-! ## Whole admissions -/

/-- Evictions planned over `cache`, the calls that published the table, the evictions, and
the registration of a sequence with the pages in flight. -/
structure Admission (cache cache' : SequenceCache R) (limit : ℕ)
    (protectedEntry : Option PrefixEntryId) (flight : List R.Page) (context : R.Context)
    (shared fresh : List PageId) (id : SequenceId) (record : SequenceRecord R.AppendTransaction)
    (plan : List PrefixEntryId) (start evicted : SequenceCache R) (retired : List PageId)
    (physical : List R.Page) (deferred : ℕ) : Prop where
  planned : Plan cache (fresh.length * cache.pageBytes + cache.admittedBytes record)
    (record.reservedPages + fresh.length) limit protectedEntry cache.stats.retainedSnapshotBytes
    cache.prefixes.size plan
  published : start = { cache with backend := start.backend }
  prepared : Prepares cache.backend start.backend
  carried_out : Evicted start evicted plan context retired physical deferred
  admitted : Admitted evicted cache' shared fresh flight id record

theorem Admission.config {cache' start evicted : SequenceCache R} {limit : ℕ}
    {protectedEntry : Option PrefixEntryId} {flight : List R.Page} {context : R.Context}
    {shared fresh retired : List PageId} {id : SequenceId}
    {record : SequenceRecord R.AppendTransaction} {plan : List PrefixEntryId}
    {physical : List R.Page} {deferred : ℕ}
    (h : Admission cache cache' limit protectedEntry flight context shared fresh id record plan
      start evicted retired physical deferred) : cache'.config = cache.config := by
  rw [h.admitted.state]
  change evicted.config = cache.config
  rw [h.carried_out.config, h.published]

/-- With an honest backend, an admitted sequence fits the limit it was admitted under. -/
theorem Admission.within {cache' start evicted : SequenceCache R} {limit : ℕ}
    {protectedEntry : Option PrefixEntryId} {flight : List R.Page} {context : R.Context}
    {shared fresh retired : List PageId} {id : SequenceId}
    {record : SequenceRecord R.AppendTransaction} {plan : List PrefixEntryId}
    {physical : List R.Page} {deferred : ℕ}
    (h : Admission cache cache' limit protectedEntry flight context shared fresh id record plan
      start evicted retired physical deferred)
    (hhonest : R.ImmediateHonest) (hinv : Inv orphans stray cache) : Within cache' limit := by
  obtain ⟨hbytes, hpages⟩ := h.planned.within hhonest hinv h.published h.prepared h.carried_out
  have hlength := h.admitted.length_pages
  have hresident : evicted.residentNow ≤ evicted.stats.residentPages := by
    refine h.carried_out.resident_ge ?_
    rw [h.published]
    exact hinv.published.resident_le
  have htotal : evicted.stats.totalManagedBytes =
      evicted.chargedBytes evicted.stats.residentPages := by
    refine h.carried_out.total_eq ?_
    rw [h.published]
    exact hinv.total_eq
  have hmul := Nat.mul_le_mul_right evicted.pageBytes hresident
  have hpageBytes : evicted.pageBytes = cache.pageBytes := by
    rw [h.carried_out.pageBytes, h.published]
  unfold residentNow at hresident hmul
  unfold chargedBytes at htotal
  unfold admittedBytes at hbytes
  rw [← hpageBytes] at hbytes
  have hstate := h.admitted.state
  generalize cache'.pages = pages at hstate hlength
  generalize cache'.sequences = sequences at hstate
  subst hstate
  constructor
  · change (pages.values.length + evicted.deferredPages) * evicted.pageBytes +
      (evicted.stats.reservedPages + record.reservedPages) * evicted.pageBytes +
      (evicted.stats.activePrivateStateBytes + record.privateStateBytes) +
      evicted.stats.retainedSnapshotBytes +
      (evicted.stats.pageTableBytes + record.pageTableBytes) ≤ limit
    rw [hlength]
    simp only [Nat.add_mul] at hmul ⊢
    omega
  · change pages.values.length + evicted.deferredPages +
      (evicted.stats.reservedPages + record.reservedPages) ≤ evicted.pageCapacity
    omega

/-! ## Checks before an admission -/

theorem checkActiveRoom_ok {ids : List PageId}
    (hroom : ∀ id ∈ ids, ∃ page, cache.pages.get? id = some page ∧
      page.activeRefs + 1 ≤ usizeMax) : cache.checkActiveRoom ids = .ok () := by
  induction ids with
  | nil => rfl
  | cons id rest ih =>
      obtain ⟨page, hpage, hle⟩ := hroom id (by simp)
      rw [checkActiveRoom, except_bind_ok (pageRecord_ok hpage), checkedAdd_of_le hle, okOr_some,
        pure_bind]
      exact ih fun other hmem => hroom other (List.mem_cons_of_mem _ hmem)

theorem callUpdatePageTable_run (context : R.Context) (table : List R.Page) (position : ℕ)
    (cache : SequenceCache R) :
    callUpdatePageTable context table position cache =
      .ok (R.updatePageTable cache.backend context table position)
        { cache with
          backend := .updatePageTable context table position
            (R.updatePageTable cache.backend context table position) :: cache.backend } := rfl

theorem admissionLimit_le {allowEmergency : Bool} {limit : ℕ}
    (h : cache.admissionLimit allowEmergency = .ok limit) :
    limit ≤ cache.config.maxManagedBytes := by
  unfold admissionLimit at h
  split_ifs at h
  · cases h
    exact le_rfl
  · cases hsub : checkedSub cache.config.maxManagedBytes cache.config.emergencyBytes with
    | none =>
        rw [hsub] at h
        cases h
    | some rest =>
        rw [hsub] at h
        cases h
        obtain ⟨-, rfl⟩ := checkedSub_eq_some.mp hsub
        exact Nat.sub_le _ _

theorem admissionLimit_error {allowEmergency : Bool} {failure : Failure R.Error}
    (h : cache.admissionLimit allowEmergency = .error failure) : failure.isReported = true := by
  unfold admissionLimit at h
  split_ifs at h
  · cases h
  · rw [okOr_eq_error h]
    rfl

theorem admissionBytes_eq {pages bytes : ℕ} {request : AdmissionRequest}
    (h : cache.admissionBytes pages request = .ok bytes) :
    bytes = pages * cache.pageBytes + request.privateStateBytes + request.pageTableBytes := by
  unfold admissionBytes at h
  cases hsum : (do
      let bytes ← checkedMul pages cache.pageBytes
      let bytes ← checkedAdd bytes request.privateStateBytes
      checkedAdd bytes request.pageTableBytes) with
  | none =>
      rw [hsum] at h
      cases h
  | some total =>
      rw [hsum] at h
      cases h
      simp only [Option.bind_eq_bind, Option.bind_eq_some_iff, checkedMul_eq_some,
        checkedAdd_eq_some] at hsum
      obtain ⟨_, ⟨-, rfl⟩, _, ⟨-, rfl⟩, -, rfl⟩ := hsum
      rfl

/-! ## Completing an admission -/

theorem share_ok (hinv : Inv orphans stray cache) {shared : List PageId} (hnodup : shared.Nodup)
    (hsealed : ∀ id ∈ shared, ∃ page, cache.pages.get? id = some page ∧ page.sealed = true) :
    ∃ pages', incrementActiveRefs shared cache = .ok () (cache.putPages pages') ∧
      Grows cache.pages pages' shared [] ∧
      pages'.values.length = cache.pages.values.length ∧
      ∀ count, pages'.issued count = cache.pages.issued count := by
  obtain ⟨pages', hrun, hupdated⟩ := (incrementActiveRef_moves cache).visitEach shared
    hinv.pages_le_usize (by
      intro id hmem
      obtain ⟨page, hpage, -⟩ := hsealed id hmem
      refine ⟨page, hpage, ?_⟩
      have := hinv.activeRefs_le hpage
      rw [List.count_eq_one_of_mem hnodup hmem]
      unfold usizeMax
      omega)
  refine ⟨pages', ?_, Grows.ofUpdated hinv.owned.pages_wf hupdated hsealed, hupdated.length_values,
    fun count => List.map_congr_left fun index _ => hupdated.upcoming_eq index⟩
  rw [putPages_self hinv.counted] at hrun
  rw [incrementActiveRefs_eq, hrun]

/-- The sequence that an admission registers. -/
def admittedRecord (pages : List PageId) (position reservedPages : ℕ)
    (request : AdmissionRequest) : SequenceRecord R.AppendTransaction where
  pages := pages
  position := position
  maxPosition := request.maxPosition
  reservedPages := reservedPages
  privateStateBytes := request.privateStateBytes
  pageTableBytes := request.pageTableBytes
  pending := none

/-- Restoring a prefix completes like a branch without a tail. -/
theorem completeAdmission_eq (evictions : List PrefixEntryId) (shared : List PageId)
    (position reservedPages : ℕ) (request : AdmissionRequest) (context : R.Context) :
    completeAdmission evictions shared
        { pages := shared
          position := position
          maxPosition := request.maxPosition
          reservedPages := reservedPages
          privateStateBytes := request.privateStateBytes
          pageTableBytes := request.pageTableBytes
          pending := none } context =
      completeBranch evictions shared none position reservedPages request context := by
  unfold completeAdmission completeBranch insertCopied
  simp only [pure_bind, List.append_nil]

section Complete

variable {start : SequenceCache R} {shared : List PageId} {copied : Option R.Page}
variable {position reservedPages limit : ℕ} {request : AdmissionRequest} {context : R.Context}
variable {protectedEntry : Option PrefixEntryId} {plan : List PrefixEntryId}

theorem insertCopied_ok {pages : Pages R.Page} {pages₀ : Pages R.Page}
    (hgrows : Grows pages₀ pages shared [])
    (hroom : copied.isSome → pages.values.length + 1 ≤ 2 ^ 32) :
    ∃ fresh pages', insertCopied position copied (cache.putPages pages) =
        .ok fresh (cache.putPages pages') ∧
      Grows pages₀ pages' shared fresh ∧ Stored pages' fresh copied.toList ∧
      fresh.length = copied.toList.length ∧ fresh = pages.issued fresh.length ∧
      pages'.values.length = pages.values.length + fresh.length ∧
      (∀ id page, pages.get? id = some page → pages'.get? id = some page) ∧
      ∀ id ∈ fresh, ∃ page, pages'.get? id = some page ∧ page.physical.isSome ∧
        page.sealed = false ∧ page.validTokens = position % cache.config.pageTokens := by
  cases copied with
  | none => exact ⟨[], pages, rfl, hgrows, rfl, rfl, rfl, rfl, fun _ _ h => h, by simp⟩
  | some storage =>
      obtain ⟨id, pages', hinsert, hwf, hadvances, habsent, hget, hlength, hissued⟩ :=
        insertPagePrepared_ok hgrows.wf (hroom rfl)
          ⟨some storage, 1, 0, position % cache.config.pageTokens, false⟩ Nat.one_ne_zero
      have hnew := hget id
      rw [if_pos rfl] at hnew
      refine ⟨[id], pages', ?_, hgrows.insert hwf hadvances habsent hget rfl rfl, ?_, rfl,
        (hissued 0).symm, hlength, ?_, ?_⟩
      · have hslot := @preparePageSlot_ok R (cache.putPages pages) hgrows.wf (hroom rfl)
        unfold insertCopied insertPage
        simp only [bind_assoc]
        rw [get_bind_run]
        rw [bind_ok (reads_ok (fun cache : SequenceCache R => cache.preparePageSlot)
          hslot)]
        exact (bind_ok hinsert).trans (pure_run _ _)
      · simp [Stored, hnew]
      · intro other page hpage
        rw [hget, if_neg, hpage]
        rintro rfl
        simp [habsent] at hpage
      · intro other hmem
        rw [List.mem_singleton.mp hmem]
        exact ⟨_, hnew, rfl, rfl, rfl⟩

theorem completeBranch_ends (hinv : Inv orphans stray cache)
    (hstart : start = { cache with backend := start.backend })
    (hprepared : Prepares cache.backend start.backend) (hinv' : Inv orphans stray start)
    (hplan : Plan cache (copied.toList.length * cache.pageBytes +
        (reservedPages * cache.pageBytes + request.privateStateBytes + request.pageTableBytes))
      (reservedPages + copied.toList.length) limit protectedEntry
      cache.stats.retainedSnapshotBytes cache.prefixes.size plan)
    (hlimit : limit ≤ cache.config.maxManagedBytes)
    (hslot : cache.prepareSequenceSlot = .ok ())
    (hslots : cache.sequences.free = [] → cache.sequences.slots.length < 2 ^ 32)
    (hroom : copied.isSome → cache.pages.values.length + 1 ≤ 2 ^ 32)
    (hnodup : shared.Nodup) (hshared : shared.length = position / cache.config.pageTokens)
    (hpages : shared.length + copied.toList.length = position ⌈/⌉ cache.config.pageTokens)
    (hposition : position ≤ request.maxPosition)
    (hbounded : request.maxPosition + (cache.config.pageTokens - 1) ≤ usizeMax)
    (htotal : shared.length + copied.toList.length + reservedPages =
      request.maxPosition ⌈/⌉ cache.config.pageTokens)
    (hcomplete : ∀ evicted retired physical deferred, Inv orphans stray evicted →
      Evicted start evicted plan context retired physical deferred →
      ∀ id ∈ shared, ∃ page, evicted.pages.get? id = some page ∧ page.physical.isSome ∧
        page.sealed = true ∧ page.validTokens = cache.config.pageTokens) :
    Ends (completeBranch plan shared copied position reservedPages request context start)
      (fun outcome cache' => Inv orphans stray cache' ∧
        ∃ fresh id evicted retired physical deferred, outcome = .admitted id ∧
          Admission cache cache' limit protectedEntry copied.toList context shared fresh id
            (admittedRecord (shared ++ fresh) position reservedPages request) plan start evicted
            retired physical deferred)
      (fun failure cache' => Refused start (start.evictionBatch plan) context failure ∧
          Called 0 start cache' [] ∨
        Breached start failure cache') := by
  unfold completeBranch
  have hlive : ∀ id ∈ plan, ∃ entry, start.prefixes[id]? = some entry := by
    rw [hstart]
    exact hplan.live
  refine Ends.bind (Ends.mono (commitEvictions_ends hinv' hplan.nodup hlive context)
    (fun _ _ h => h) fun failure cache' h => h.imp_right And.left) ?_
  rintro - evicted ⟨hevicted, retired, physical, deferred, hdone⟩
  have hshare := hcomplete evicted retired physical deferred hevicted hdone
  obtain ⟨pages₁, hrun₁, hgrows₁, hlength₁, hissued₁⟩ := share_ok hevicted hnodup fun id hmem =>
    (hshare id hmem).imp fun page h => ⟨h.1, h.2.2.1⟩
  have hconfig : evicted.config = cache.config := by
    rw [hdone.config, hstart]
  have hshrunk : evicted.pages.values.length ≤ cache.pages.values.length := by
    have := hdone.length_pages
    rw [show start.pages = cache.pages by rw [hstart]] at this
    omega
  obtain ⟨fresh, pages₂, hrun₂, hgrows₂, hstored, hfresh, hissued, hlength₂, hkept, htail⟩ :=
    insertCopied_ok hgrows₁
      (fun hsome => by have := hroom hsome; omega)
  have hsequences : evicted.sequences = cache.sequences := by
    rw [hdone.sequences, hstart]
  obtain ⟨hheld, hcharged⟩ := Plan.room hinv hplan hlimit hstart hdone
  have hbytes : evicted.pageBytes = cache.pageBytes := by
    rw [hdone.pageBytes, hstart]
  rw [bind_ok hrun₁, bind_ok hrun₂]
  obtain ⟨id, cache', hrun, hfinal, hadmitted⟩ := @register_ok R _ _ _ _ _ _ _
    (admittedRecord (shared ++ fresh) position reservedPages request) hevicted hgrows₂
    (by rw [hlength₂, hlength₁]) hstored (hissued.trans (hissued₁ _))
    (by
      have := prepareSequenceSlot_cases cache
      unfold prepareSequenceSlot at hslot ⊢
      rwa [hsequences])
    (by rwa [hsequences]) rfl rfl
    (by
      rw [hconfig]
      refine SequenceOk.ofParts (hinv.config.pageTokens_pos) rfl rfl hshared ?_ hposition hbounded
        ?_ ?_ ?_ ?_
      · change (shared ++ fresh).length = position ⌈/⌉ cache.config.pageTokens
        rw [← hpages, ← hfresh, List.length_append]
      · change (shared ++ fresh).length + reservedPages =
          request.maxPosition ⌈/⌉ cache.config.pageTokens
        rw [← htotal, ← hfresh, List.length_append]
      · refine hnodup.append hgrows₂.nodup fun id hmem hnew => ?_
        obtain ⟨page, hpage, -⟩ := hshare id hmem
        simp [hgrows₂.absent id hnew] at hpage
      · intro id hmem
        obtain ⟨page, hpage, hphysical, hsealed, hvalid⟩ := hshare id hmem
        obtain ⟨page', hpage', hphysical', hvalid', hsealed'⟩ := hgrows₂.keeps id page hpage
        exact ⟨page', hpage', hphysical' ▸ hphysical, hsealed' ▸ hsealed, hvalid' ▸ hvalid⟩
      · rw [← hconfig]
        exact htail)
    (by
      rw [chargedBytes_add, hfresh, Nat.add_assoc, admittedBytes, hbytes]
      exact hheld)
    (by
      rw [chargedBytes_add, hfresh, Nat.add_assoc, admittedBytes, hbytes]
      exact hcharged)
  refine Eq.mpr (congrArg (fun result => Ends result _ _) hrun) ?_
  refine ⟨hfinal, fresh, id, evicted, retired, physical, deferred, rfl, ?_, hstart,
    hprepared, hdone, hadmitted⟩
  rw [hfresh]
  exact hplan

end Complete

/-! ## Restoring a prefix -/

/-- The calls before an admission change nothing but the history. -/
theorem Called.inv {limit : ℕ} {cache' : SequenceCache R} {flight : List R.Page}
    (h : Called limit cache cache' flight) (hinv : Inv orphans stray cache) :
    Inv orphans stray cache' := by
  have hdeferred := h.calls.deferredTotal_eq
  have hstate := h.state
  generalize cache'.backend = history at hstate hdeferred
  subst hstate
  exact (Quiet.ofBackend history).inv hinv hdeferred

/-- Where an admission starts: an empty sequence, or the pages of a retained entry. -/
structure Restores (cache : SequenceCache R) (prefixMatch : Option PrefixMatch)
    (protectedEntry : Option PrefixEntryId) (position : ℕ) (shared : List PageId) : Prop where
  entry : protectedEntry = prefixMatch.map PrefixMatch.entry
  fresh : protectedEntry = none → position = 0 ∧ shared = []
  restored : ∀ id, protectedEntry = some id → ∃ entry, cache.prefixes[id]? = some entry ∧
    entry.position = position ∧ entry.pages = shared

theorem admissionStart_cases (prefixMatch : Option PrefixMatch) :
    cache.admissionStart prefixMatch = .error (.error .stalePrefix) ∨
      ∃ protectedEntry position shared,
        cache.admissionStart prefixMatch = .ok (protectedEntry, position, shared) ∧
          Restores cache prefixMatch protectedEntry position shared := by
  unfold admissionStart
  cases prefixMatch with
  | none => exact Or.inr ⟨none, 0, [], rfl, rfl, fun _ => ⟨rfl, rfl⟩, by simp⟩
  | some found =>
      simp only
      cases hentry : cache.prefixes[found.entry]? with
      | none => exact Or.inl rfl
      | some entry =>
          rw [okOr_some, pure_bind]
          by_cases hmatch : ¬ (entry.position ≠ found.position ∨
              entry.pages.length ≠ found.pageCount)
          · rw [ensure_pos hmatch, pure_bind]
            refine Or.inr ⟨some found.entry, entry.position, entry.pages, rfl, rfl, by simp, ?_⟩
            intro id hid
            cases hid
            exact ⟨entry, hentry, rfl, rfl⟩
          · rw [ensure_neg hmatch]
            exact Or.inl rfl

section Restored

variable {prefixMatch : Option PrefixMatch} {protectedEntry : Option PrefixEntryId}
variable {position : ℕ} {shared : List PageId}

theorem Restores.complete (h : Restores cache prefixMatch protectedEntry position shared)
    (hinv : Inv orphans stray cache) : ∀ id ∈ shared, ∃ page, cache.pages.get? id = some page ∧
      page.physical.isSome ∧ page.sealed = true ∧
      page.validTokens = cache.config.pageTokens := by
  cases protectedEntry with
  | none => simp [(h.fresh rfl).2]
  | some key =>
      obtain ⟨entry, hentry, -, rfl⟩ := h.restored key rfl
      exact (hinv.owned.entry key entry hentry).held

theorem Restores.aligned (h : Restores cache prefixMatch protectedEntry position shared)
    (hinv : Inv orphans stray cache) :
    shared.Nodup ∧ shared.length * cache.config.pageTokens = position := by
  cases protectedEntry with
  | none =>
      obtain ⟨rfl, rfl⟩ := h.fresh rfl
      simp
  | some key =>
      obtain ⟨entry, hentry, rfl, rfl⟩ := h.restored key rfl
      have hok := hinv.owned.entry key entry hentry
      exact ⟨hok.nodup, hok.position_eq⟩

/-- The restored entry survives evictions that spare it. -/
theorem Restores.evicted (h : Restores cache prefixMatch protectedEntry position shared)
    {start evicted : SequenceCache R} {plan : List PrefixEntryId} {context : R.Context}
    {retired : List PageId} {physical : List R.Page} {deferred : ℕ}
    (hstart : start = { cache with backend := start.backend })
    (hspared : ∀ id ∈ plan, some id ≠ protectedEntry)
    (hevicted : Evicted start evicted plan context retired physical deferred) :
    Restores evicted prefixMatch protectedEntry position shared := by
  refine ⟨h.entry, h.fresh, fun id hid => ?_⟩
  obtain ⟨entry, hentry, hrest⟩ := h.restored id hid
  refine ⟨entry, ?_, hrest⟩
  rw [hevicted.prefixes, getElem?_eraseAll, if_neg, hstart]
  · exact hentry
  · exact fun hmem => hspared id hmem hid.symm

theorem Restores.snapshotOf_ok (h : Restores cache prefixMatch protectedEntry position shared) :
    ∃ snapshot, cache.snapshotOf protectedEntry = .ok snapshot := by
  cases protectedEntry with
  | none => exact ⟨none, rfl⟩
  | some key =>
      obtain ⟨entry, hentry, -⟩ := h.restored key rfl
      refine ⟨some entry.snapshot, ?_⟩
      simp only [snapshotOf, hentry, okOr_some]
      rfl

theorem Restores.ofStart (h : cache.admissionStart prefixMatch =
    .ok (protectedEntry, position, shared)) :
    Restores cache prefixMatch protectedEntry position shared := by
  rcases admissionStart_cases prefixMatch with
    herror | ⟨protectedEntry', position', shared', hstart, hrestores⟩
  · rw [herror] at h
    cases h
  · rw [hstart] at h
    obtain ⟨rfl, hrest⟩ := Prod.mk.inj (Except.ok.inj h)
    obtain ⟨rfl, rfl⟩ := Prod.mk.inj hrest
    exact hrestores

end Restored

/-- What an admission asks for: the pages it shares and reserves, the bytes it needs and
the limit that applies. -/
structure Quoted (cache : SequenceCache R) (prefixMatch : Option PrefixMatch)
    (request : AdmissionRequest) (protectedEntry : Option PrefixEntryId) (position : ℕ)
    (shared : List PageId) (reservedPages extra limit : ℕ) : Prop where
  start : cache.admissionStart prefixMatch = .ok (protectedEntry, position, shared)
  position_le : position ≤ request.maxPosition
  reserved : checkedDivCeil request.maxPosition cache.config.pageTokens =
    some (shared.length + reservedPages)
  bytes : cache.admissionBytes reservedPages request = .ok extra
  limit : cache.admissionLimit request.allowEmergency = .ok limit

/-- An admission whose checks all passed, with the evictions `plan` still to be carried
out, and whose page table the backend accepted. -/
structure Opened (cache : SequenceCache R) (prefixMatch : Option PrefixMatch)
    (request : AdmissionRequest) (context : R.Context)
    (restore : Option R.Snapshot → ℕ → Except R.Error Unit)
    (protectedEntry : Option PrefixEntryId) (position : ℕ) (shared : List PageId)
    (reservedPages extra limit : ℕ) (plan : List PrefixEntryId) (table : List R.Page) :
    Prop where
  quoted : Quoted cache prefixMatch request protectedEntry position shared reservedPages extra
    limit
  planned : cache.planEvictions extra reservedPages limit protectedEntry none none =
    .ok (some plan)
  slot : cache.prepareSequenceSlot = .ok ()
  room : cache.checkActiveRoom shared = .ok ()
  restored : ∃ snapshot, cache.snapshotOf protectedEntry = .ok snapshot ∧
    restore snapshot position = .ok ()
  resolved : physicalRefsFrom cache.pages shared = .ok table
  answer : R.updatePageTable cache.backend context table position = .ok ()

/-- The cache after a page table was published. -/
def publish (cache : SequenceCache R) (context : R.Context) (table : List R.Page)
    (position : ℕ) : SequenceCache R :=
  { cache with
    backend := .updatePageTable context table position (.ok ()) :: cache.backend }

theorem publish_inv (hinv : Inv orphans stray cache) (context : R.Context)
    (table : List R.Page) (position : ℕ) :
    Inv orphans stray (cache.publish context table position) :=
  (Quiet.ofBackend _).inv hinv rfl

section Admission

variable {prefixMatch : Option PrefixMatch} {request : AdmissionRequest} {context : R.Context}
variable {restore : Option R.Snapshot → ℕ → Except R.Error Unit}
variable {protectedEntry : Option PrefixEntryId} {position : ℕ} {shared : List PageId}
variable {reservedPages extra limit : ℕ} {plan : List PrefixEntryId} {table : List R.Page}

/-- Once its table is published, an admission only has to evict and to register. -/
theorem Opened.run {start : SequenceCache R} {reclaimed : ℕ}
    (hreclaim : reclaimDeferred context start = .ok reclaimed cache)
    (h : Opened cache prefixMatch request context restore protectedEntry position shared
      reservedPages extra limit plan table) :
    admitSequence prefixMatch request context restore start =
      completeBranch plan shared none position reservedPages request context
        (cache.publish context table position) := by
  obtain ⟨⟨hstart, hposition, hreserved, hbytes, hlimit⟩, hplan, hslot, hroom,
    ⟨snapshot, hsnapshot, hrestore⟩, htable, hanswer⟩ := h
  unfold admitSequence
  rw [bind_ok hreclaim,
    bind_ok (reads_ok (fun cache : SequenceCache R =>
      cache.admissionStart prefixMatch) hstart)]
  simp only
  rw [ensure_pos hposition, pure_bind_run, get_bind_run, hreserved, okOr_some, pure_bind_run,
    checkedSub_of_le (Nat.le_add_right _ _), Nat.add_sub_cancel_left, okOr_some, pure_bind_run,
    bind_ok (reads_ok (fun cache : SequenceCache R =>
      cache.admissionBytes reservedPages request) hbytes),
    bind_ok (reads_ok (fun cache : SequenceCache R =>
      cache.admissionLimit request.allowEmergency) hlimit),
    bind_ok (reads_ok (fun cache : SequenceCache R =>
      cache.planEvictions extra reservedPages limit protectedEntry none none) hplan)]
  simp only
  rw [bind_ok (reads_ok (fun cache : SequenceCache R => cache.prepareSequenceSlot)
      hslot),
    bind_ok (reads_ok (fun cache : SequenceCache R => cache.checkActiveRoom shared)
      hroom),
    bind_ok (reads_ok (fun cache : SequenceCache R =>
      cache.snapshotOf protectedEntry) hsnapshot), hrestore]
  simp only
  rw [bind_ok (reads_ok (fun cache : SequenceCache R =>
    physicalRefsFrom cache.pages shared) htable)]
  unfold publishTable
  rw [bind_assoc, bind_ok (callUpdatePageTable_run context table position cache), hanswer]
  simp only
  rw [pure_bind_run, completeAdmission_eq]
  rfl

/-- What an admission does after its initial reclamation. -/
def Admits (cache : SequenceCache R) (prefixMatch : Option PrefixMatch)
    (request : AdmissionRequest) (context : R.Context)
    (restore : Option R.Snapshot → ℕ → Except R.Error Unit) (outcome : AdmissionOutcome)
    (cache' : SequenceCache R) : Prop :=
  (outcome = .wouldBlock ∧ cache' = cache ∧
    ∃ protectedEntry position shared reservedPages extra limit,
      Quoted cache prefixMatch request protectedEntry position shared reservedPages extra limit ∧
        cache.planEvictions extra reservedPages limit protectedEntry none none = .ok none) ∨
    ∃ protectedEntry position shared reservedPages extra limit plan table id evicted retired
        physical deferred,
      outcome = .admitted id ∧
        Opened cache prefixMatch request context restore protectedEntry position shared
          reservedPages extra limit plan table ∧
        Admission cache cache' limit protectedEntry [] context shared [] id
          (admittedRecord shared position reservedPages request) plan
          (cache.publish context table position) evicted retired physical deferred

/-- An admission that published its table and could not carry out its evictions. -/
def Stranded (cache : SequenceCache R) (prefixMatch : Option PrefixMatch)
    (request : AdmissionRequest) (context : R.Context)
    (restore : Option R.Snapshot → ℕ → Except R.Error Unit) (failure : Failure R.Error)
    (cache' : SequenceCache R) : Prop :=
  ∃ protectedEntry position shared reservedPages extra limit plan table,
    Opened cache prefixMatch request context restore protectedEntry position shared
      reservedPages extra limit plan table ∧
    Refused (cache.publish context table position)
      ((cache.publish context table position).evictionBatch plan) context failure ∧
    Called 0 (cache.publish context table position) cache' []

/-- An admission whose table is published only has to carry out its evictions. -/
theorem Opened.ends (hinv : Inv orphans stray cache)
    (h : Opened cache prefixMatch request context restore protectedEntry position shared
      reservedPages extra limit plan table) :
    Ends (completeBranch plan shared none position reservedPages request context
        (cache.publish context table position))
      (fun outcome cache' => Inv orphans stray cache' ∧
        ∃ id evicted retired physical deferred, outcome = .admitted id ∧
          Admission cache cache' limit protectedEntry [] context shared [] id
            (admittedRecord shared position reservedPages request) plan
            (cache.publish context table position) evicted retired physical deferred)
      (fun failure cache' => Refused (cache.publish context table position)
          ((cache.publish context table position).evictionBatch plan) context failure ∧
          Called 0 (cache.publish context table position) cache' [] ∨
        Breached (cache.publish context table position) failure cache') := by
  have hrestores := Restores.ofStart h.quoted.start
  have hcomplete := hrestores.complete hinv
  obtain ⟨hnodup, haligned⟩ := hrestores.aligned hinv
  have hpos := hinv.config.pageTokens_pos
  have hdiv : shared.length = position / cache.config.pageTokens := by
    rw [← haligned, Nat.mul_div_cancel _ hpos]
  have hmod : position % cache.config.pageTokens = 0 := by
    rw [← haligned, Nat.mul_mod_left]
  obtain ⟨hbounded, htotal⟩ := checkedDivCeil_eq_some.mp h.quoted.reserved
  have hextra := admissionBytes_eq h.quoted.bytes
  have hslots := (prepareSequenceSlot_cases cache).resolve_left (by
    rw [h.slot]
    exact fun heq => nomatch heq)
  have hplan : Plan cache extra reservedPages limit protectedEntry
      cache.stats.retainedSnapshotBytes cache.prefixes.size plan := by
    rcases planEvictions_cases hinv none none le_rfl le_rfl with
      ⟨-, herror⟩ | ⟨result, hresult, hplan⟩
    · rw [h.planned] at herror
      cases herror
    · rw [h.planned] at hresult
      exact hplan plan (Except.ok.inj hresult).symm
  have hfits : Plan cache ((none : Option R.Page).toList.length * cache.pageBytes +
      (reservedPages * cache.pageBytes + request.privateStateBytes + request.pageTableBytes))
      (reservedPages + (none : Option R.Page).toList.length) limit protectedEntry
      cache.stats.retainedSnapshotBytes cache.prefixes.size plan := by
    simpa [hextra] using hplan
  have hprepares : Prepares cache.backend (cache.publish context table position).backend :=
    (Prepares.refl cache.backend).cons rfl
  refine Ends.mono (completeBranch_ends hinv rfl hprepares
    (publish_inv hinv context table position) hfits (admissionLimit_le h.quoted.limit) h.slot
    hslots.2 (by simp) hnodup hdiv ?_ h.quoted.position_le hbounded ?_ ?_) ?_ fun _ _ h => h
  · simp [ceilDiv_of_aligned hpos hmod, hdiv]
  · simp only [Option.toList_none, List.length_nil]
    omega
  · intro evicted retired physical deferred hinv' hevicted
    have hconfig : evicted.config = cache.config := hevicted.config
    rw [← hconfig]
    exact (hrestores.evicted rfl hplan.unprotected hevicted).complete hinv'
  · rintro outcome cache' ⟨hfinal, fresh, id, evicted, retired, physical, deferred, rfl,
      hadmission⟩
    obtain rfl : fresh = [] := by
      have := congrArg List.length hadmission.admitted.stored
      simpa using this
    refine ⟨hfinal, id, evicted, retired, physical, deferred, rfl, ?_⟩
    simpa using hadmission

/-- What happens once the checks before an admission have passed. -/
theorem Opened.completes (hinv : Inv orphans stray cache)
    (h : Opened cache prefixMatch request context restore protectedEntry position shared
      reservedPages extra limit plan table) :
    Ends (completeBranch plan shared none position reservedPages request context
        (cache.publish context table position))
      (fun outcome cache' => Inv orphans stray cache' ∧
        Admits cache prefixMatch request context restore outcome cache')
      (fun failure cache' =>
        Stranded cache prefixMatch request context restore failure cache' ∨
          Breached cache failure cache') := by
  have hprepares : Prepares cache.backend (cache.publish context table position).backend :=
    (Prepares.refl cache.backend).cons rfl
  refine Ends.mono (h.ends hinv) ?_ ?_
  · rintro outcome cache' ⟨hfinal, id, evicted, retired, physical, deferred, rfl, hadmission⟩
    exact ⟨hfinal, Or.inr ⟨protectedEntry, position, shared, reservedPages, extra, limit, plan,
      table, id, evicted, retired, physical, deferred, rfl, h, hadmission⟩⟩
  · rintro failure cache' (⟨hrefused, hcalled⟩ | hbreached)
    · exact Or.inl ⟨protectedEntry, position, shared, reservedPages, extra, limit, plan, table, h,
        hrefused, hcalled⟩
    · exact Or.inr (hprepares.breached rfl hbreached)

end Admission

/-- Why an admission fails: at its initial reclamation, at one of its checks or calls, or when
its evictions are refused after its table was published. -/
def AdmitFails (orphans : List PageId) (stray : List TokenBlockId) (cache : SequenceCache R)
    (prefixMatch : Option PrefixMatch) (request : AdmissionRequest) (context : R.Context)
    (restore : Option R.Snapshot → ℕ → Except R.Error Unit) (failure : Failure R.Error)
    (cache' : SequenceCache R) : Prop :=
  (failure.isReported = true ∨ Overreported cache context failure) ∧
    (Called 0 cache cache' [] ∨ ∃ reclaimed middle,
      Reclaimed cache middle context reclaimed ∧ Inv orphans stray middle ∧
        (Called 0 middle cache' [] ∨
          Stranded middle prefixMatch request context restore failure cache'))

theorem admitSequence_ends (hinv : Inv orphans stray cache)
    (prefixMatch : Option PrefixMatch) (request : AdmissionRequest) (context : R.Context)
    (restore : Option R.Snapshot → ℕ → Except R.Error Unit) :
    Ends (admitSequence prefixMatch request context restore cache)
      (fun outcome cache' => Inv orphans stray cache' ∧ ∃ reclaimed middle,
        Reclaimed cache middle context reclaimed ∧ Inv orphans stray middle ∧
          Admits middle prefixMatch request context restore outcome cache')
      (fun failure cache' =>
        AdmitFails orphans stray cache prefixMatch request context restore failure cache' ∨
          Breached cache failure cache') := by
  unfold admitSequence
  refine Ends.bind (Ends.mono (reclaimDeferred_spec hinv context) (fun _ _ h => h) ?_) ?_
  · rintro failure cache' ⟨⟨error, rfl⟩ | hover, hcalled⟩
    · exact Or.inl ⟨Or.inl rfl, Or.inl hcalled⟩
    · exact Or.inl ⟨Or.inr hover, Or.inl hcalled⟩
  rintro reclaimed middle ⟨hmiddle, hreclaimed⟩
  -- A failure from here on leaves the reclaimed state behind.
  suffices hends : Ends _
      (fun outcome cache' => Inv orphans stray cache' ∧
        Admits middle prefixMatch request context restore outcome cache')
      (fun failure cache' => failure.isReported = true ∧ (Called 0 middle cache' [] ∨
          Stranded middle prefixMatch request context restore failure cache') ∨
        Breached middle failure cache') from
    Ends.mono hends
    (fun outcome cache' h => ⟨h.1, reclaimed, middle, hreclaimed, hmiddle, h.2⟩)
    (fun failure cache' h => h.imp
      (fun h => ⟨Or.inl h.1, Or.inr ⟨reclaimed, middle, hreclaimed, hmiddle, h.2⟩⟩)
      fun h => hreclaimed.breached h)
  have hself : Called 0 middle middle [] := ⟨rfl, .refl⟩
  rcases admissionStart_cases prefixMatch with
    herror | ⟨protectedEntry, position, shared, hstart, hrestores⟩
  · rw [bind_error (reads_error (fun cache : SequenceCache R =>
      cache.admissionStart prefixMatch) herror)]
    exact Or.inl ⟨rfl, Or.inl hself⟩
  rw [bind_ok (reads_ok (fun cache : SequenceCache R =>
    cache.admissionStart prefixMatch) hstart)]
  refine Ends.ensure (fun _ => Or.inl ⟨rfl, Or.inl hself⟩) (fun hposition => ?_)
  refine Ends.get ?_
  refine Ends.okOr (fun _ => Or.inl ⟨rfl, Or.inl hself⟩) (fun totalPages htotal => ?_)
  have hcomplete := hrestores.complete hmiddle
  obtain ⟨hnodup, haligned⟩ := hrestores.aligned hmiddle
  have hshared_le : shared.length ≤ totalPages := by
    obtain ⟨-, rfl⟩ := checkedDivCeil_eq_some.mp htotal
    have hpos := hmiddle.config.pageTokens_pos
    have hle := ceilDiv_mono hpos (haligned.le.trans hposition)
    rwa [ceilDiv_of_aligned hpos (Nat.mul_mod_left _ _), Nat.mul_div_cancel _ hpos] at hle
  rw [checkedSub_of_le hshared_le, okOr_some, pure_bind_run]
  generalize hreserved : totalPages - shared.length = reservedPages
  obtain rfl : totalPages = shared.length + reservedPages := by omega
  refine Ends.reads (fun failure herror => ?_) (fun extra hextra => ?_)
  · rw [okOr_eq_error herror]
    exact Or.inl ⟨rfl, Or.inl hself⟩
  refine Ends.reads (fun failure herror => Or.inl ⟨admissionLimit_error herror, Or.inl hself⟩)
    (fun limit hlimit => ?_)
  have hquoted : Quoted middle prefixMatch request protectedEntry position shared reservedPages
      extra limit := ⟨hstart, hposition, htotal, hextra, hlimit⟩
  rcases planEvictions_cases hmiddle none none le_rfl le_rfl with
    ⟨-, herror⟩ | ⟨result, hresult, -⟩
  · rw [bind_error (reads_error (fun cache : SequenceCache R =>
      cache.planEvictions extra reservedPages limit protectedEntry none none) herror)]
    exact Or.inl ⟨rfl, Or.inl hself⟩
  rw [bind_ok (reads_ok (fun cache : SequenceCache R =>
      cache.planEvictions extra reservedPages limit protectedEntry none none) hresult)]
  cases result with
  | none =>
      exact ⟨hmiddle, Or.inl ⟨rfl, rfl, protectedEntry, position, shared, reservedPages, extra,
        limit, hquoted, hresult⟩⟩
  | some plan =>
      simp only
      rcases prepareSequenceSlot_cases middle with herror | ⟨hslot, -⟩
      · rw [bind_error (reads_error (fun cache : SequenceCache R =>
          cache.prepareSequenceSlot) herror)]
        exact Or.inl ⟨rfl, Or.inl hself⟩
      have hroom : middle.checkActiveRoom shared = .ok () := checkActiveRoom_ok fun id hmem => by
        obtain ⟨page, hpage, -⟩ := hcomplete id hmem
        have := hmiddle.activeRefs_le hpage
        exact ⟨page, hpage, by unfold usizeMax; omega⟩
      obtain ⟨snapshot, hsnapshot⟩ := hrestores.snapshotOf_ok
      obtain ⟨table, htable, -⟩ := physicalRefsFrom_ok fun id hmem =>
        (hcomplete id hmem).imp fun page h => ⟨h.1, h.2.1⟩
      rw [bind_ok (reads_ok (fun cache : SequenceCache R =>
          cache.prepareSequenceSlot) hslot),
        bind_ok (reads_ok (fun cache : SequenceCache R =>
          cache.checkActiveRoom shared) hroom),
        bind_ok (reads_ok (fun cache : SequenceCache R =>
          cache.snapshotOf protectedEntry) hsnapshot)]
      cases hrestore : restore snapshot position with
      | error error => exact Or.inl ⟨rfl, Or.inl hself⟩
      | ok =>
          simp only
          rw [bind_ok (reads_ok (fun cache : SequenceCache R =>
            physicalRefsFrom cache.pages shared) htable)]
          unfold publishTable
          rw [bind_assoc, bind_ok (callUpdatePageTable_run context table position middle)]
          cases hanswer : R.updatePageTable middle.backend context table position with
          | error error => exact Or.inl ⟨rfl, Or.inl ⟨rfl, .neutral _ .refl rfl⟩⟩
          | ok =>
              have hopened : Opened middle prefixMatch request context restore protectedEntry
                  position shared reservedPages extra limit plan table :=
                ⟨hquoted, hresult, hslot, hroom, ⟨snapshot, hsnapshot, hrestore⟩, htable, hanswer⟩
              simp only
              rw [pure_bind_run, completeAdmission_eq]
              refine Ends.mono (hopened.completes hmiddle) (fun _ _ h => h) ?_
              rintro failure cache' (hstranded | hbreached)
              case inr => exact Or.inr hbreached
              refine Or.inl ⟨?_, Or.inr hstranded⟩
              obtain ⟨_, _, _, _, _, _, _, _, -, hrefused, -⟩ := hstranded
              exact hrefused.isReported

theorem admitSequence_spec (hlaw : R.Retires) (hinv : Inv orphans stray cache)
    (prefixMatch : Option PrefixMatch) (request : AdmissionRequest) (context : R.Context)
    (restore : Option R.Snapshot → ℕ → Except R.Error Unit) :
    Ends (admitSequence prefixMatch request context restore cache)
      (fun outcome cache' => Inv orphans stray cache' ∧ ∃ reclaimed middle,
        Reclaimed cache middle context reclaimed ∧ Inv orphans stray middle ∧
          Admits middle prefixMatch request context restore outcome cache')
      (AdmitFails orphans stray cache prefixMatch request context restore) :=
  (admitSequence_ends hinv prefixMatch request context restore).resolve (not_breached hlaw)

end SequenceCache

end SeqCache
