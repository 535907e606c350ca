import SeqCache.Steps.Evict

/-!
# Completion as a step

A finished sequence lets go of its pages.  Those that only it held go to the backend;
the others stay with their remaining holders.
-/

namespace SeqCache

open Machine Program Std

variable {R : Runtime}

namespace SequenceCache

variable {cache : SequenceCache R} {orphans : List PageId} {stray : List TokenBlockId}

/-- A page with a single active reference, held by no entry. -/
def solelyHeld (cache : SequenceCache R) (id : PageId) : Bool :=
  match cache.pages.get? id with
  | some page => page.activeRefs = 1 && page.prefixRefs = 0
  | none => false

/-- Pages that finishing a sequence retires. -/
def finishBatch (cache : SequenceCache R) (record : SequenceRecord R.AppendTransaction) :
    List PageId :=
  record.pages.filter cache.solelyHeld

theorem solelyHeld_iff {id : PageId} {page : PageRecord R.Page}
    (hpage : cache.pages.get? id = some page) :
    cache.solelyHeld id = true ↔ page.activeRefs = 1 ∧ page.prefixRefs = 0 := by
  simp [solelyHeld, hpage]

theorem retirableOf_ok {ids : List PageId}
    (hlive : ∀ id ∈ ids, ∃ page, cache.pages.get? id = some page) :
    cache.retirableOf ids = .ok (ids.filter cache.solelyHeld) := by
  induction ids with
  | nil => rfl
  | cons id rest ih =>
      obtain ⟨page, hpage⟩ := hlive id (by simp)
      rw [retirableOf, except_bind_ok (pageRecord_ok hpage),
        except_bind_ok (ih fun other hmem => hlive other (List.mem_cons_of_mem _ hmem)),
        List.filter_cons]
      simp only [solelyHeld_iff hpage]
      split_ifs <;> rfl

/-- The counters after a sequence is removed. -/
def CacheStats.dismiss {Transaction : Type} (stats : CacheStats)
    (record : SequenceRecord Transaction) : CacheStats :=
  { stats with
    reservedPages := stats.reservedPages - record.reservedPages
    activePrivateStateBytes := stats.activePrivateStateBytes - record.privateStateBytes
    pageTableBytes := stats.pageTableBytes - record.pageTableBytes }

/-- What a successful completion does: the pages `retired`, with storage `physical`, went
to the backend, which deferred `deferred` of them. -/
structure Finished (cache cache' : SequenceCache R) (sequence : SequenceId)
    (record : SequenceRecord R.AppendTransaction) (context : R.Context)
    (physical : List R.Page) (deferred : ℕ) : Prop where
  live : cache.sequences.get? sequence = some record
  idle : record.pending = none
  generation : sequence.generation ≠ u32Max
  removable : ∀ id ∈ cache.finishBatch record, id.generation ≠ u32Max
  state : cache' = ({ cache.putPages cache'.pages with
    backend := cache'.backend
    deferredPages := cache.deferredPages + deferred
    sequences := cache.sequences.release sequence
    stats := CacheStats.dismiss (cache.putPages cache'.pages).stats record } :
      SequenceCache R).refresh
  pages : ∀ id, cache'.pages.get? id = if id ∈ cache.finishBatch record then none else
    (cache.pages.get? id).map fun page =>
      { page with activeRefs := page.activeRefs - record.pages.count id }
  advances : Arena.Advances cache.pages cache'.pages
  length_pages : cache.pages.values.length =
    cache'.pages.values.length + (cache.finishBatch record).length
  stored : Stored cache.pages (cache.finishBatch record) physical
  retirement : Retirement context physical deferred cache.backend cache'.backend
  deferred_le : deferred ≤ (cache.finishBatch record).length

/-- Why a completion fails. -/
def FinishFails (cache : SequenceCache R) (sequence : SequenceId) (context : R.Context)
    (failure : Failure R.Error) (cache' : SequenceCache R) : Prop :=
  (failure = .error .staleSequence ∧ cache.sequences.get? sequence = none ∧ cache' = cache) ∨
    ∃ record, cache.sequences.get? sequence = some record ∧
      ((failure = .error .appendPending ∧ record.pending.isSome ∧ cache' = cache) ∨
        (failure = .error (.idExhausted "sequence generation") ∧
          sequence.generation = u32Max ∧ cache' = cache) ∨
        Refused cache (cache.finishBatch record) context failure ∧ Called 0 cache cache' [])

section Remove

variable {sequence : SequenceId} {record : SequenceRecord R.AppendTransaction}

theorem prepareRemoveSequence_cases (hrecord : cache.sequences.get? sequence = some record) :
    (sequence.generation = u32Max ∧ cache.prepareRemoveSequence sequence =
        .error (.error (.idExhausted "sequence generation"))) ∨
      sequence.generation ≠ u32Max ∧ cache.prepareRemoveSequence sequence = .ok () := by
  unfold prepareRemoveSequence
  rw [Arena.slot?_of_get? hrecord]
  simp only [Option.filter_some, Option.isSome_some, if_true, okOr_some, pure_bind]
  by_cases hgen : sequence.generation ≠ u32Max
  · exact Or.inr ⟨hgen, ensure_pos hgen⟩
  · exact Or.inl ⟨not_not.mp hgen, ensure_neg hgen⟩

theorem removeSequence_ok (hrecord : cache.sequences.get? sequence = some record)
    (hgen : sequence.generation < u32Max)
    (hreserved : record.reservedPages ≤ cache.stats.reservedPages)
    (hprivate : record.privateStateBytes ≤ cache.stats.activePrivateStateBytes)
    (htable : record.pageTableBytes ≤ cache.stats.pageTableBytes) :
    removeSequence sequence cache = .ok ()
      { cache with
        sequences := cache.sequences.release sequence
        stats := CacheStats.dismiss cache.stats record } := by
  unfold removeSequence
  rw [get_bind_run, Arena.slot?_of_get? hrecord, okOr_some, pure_bind_run,
    ensure_pos (by exact hgen), pure_bind_run, okOr_some, pure_bind_run,
    checkedSub_of_le hreserved, okOr_some, pure_bind_run, checkedSub_of_le hprivate, okOr_some,
    pure_bind_run, checkedSub_of_le htable, okOr_some, pure_bind_run, modify_bind_run,
    updateStats_run]
  rfl

/-- Pages that only the sequence held are gone, the others lose one reference. -/
theorem releases_finished {pages pages' : Pages R.Page}
    (hnodup : record.pages.Nodup)
    (hremoved : Removed cache.pages pages (cache.finishBatch record))
    (hupdated : Arena.Updated (fun id page => { page with activeRefs := page.activeRefs -
      (record.pages.filter fun id => !cache.solelyHeld id).count id }) pages pages') :
    Releases cache.pages pages' record.pages [] (cache.finishBatch record) [] fun id page =>
      { page with activeRefs := page.activeRefs - record.pages.count id } := by
  have hcount : ∀ id, id ∉ cache.finishBatch record →
      (record.pages.filter fun id => !cache.solelyHeld id).count id = record.pages.count id := by
    intro id hnot
    by_cases hmem : id ∈ record.pages
    · refine List.count_filter ?_
      have hshared : cache.solelyHeld id ≠ true := fun hsole =>
        hnot (List.mem_filter.mpr ⟨hmem, hsole⟩)
      simpa using hshared
    · rw [List.count_eq_zero.mpr hmem, List.count_eq_zero]
      exact fun hin => hmem (List.mem_filter.mp hin).1
  refine ⟨hupdated.wf hremoved.wf, ?_, fun _ _ _ => rfl, fun _ _ _ => by simp,
    fun _ _ _ _ => ⟨rfl, rfl, rfl⟩, by simp, ?_⟩
  · intro id
    rw [hupdated.get?, hremoved.get?]
    split_ifs with hmem
    · rfl
    · rw [hcount id hmem]
  · intro id page hpage
    rw [finishBatch, List.mem_filter, solelyHeld_iff hpage]
    simp only [List.not_mem_nil, or_false, List.count_nil]
    refine and_congr_right fun hmem => ?_
    rw [List.count_eq_one_of_mem hnodup hmem]

/-- The cache without the sequence, before its statistics are refreshed. -/
def dismissed (cache : SequenceCache R) (sequence : SequenceId)
    (record : SequenceRecord R.AppendTransaction) (pages : Pages R.Page) (history : R.History)
    (deferred : ℕ) : SequenceCache R :=
  { cache.putPages pages with
    backend := history
    deferredPages := cache.deferredPages + deferred
    sequences := cache.sequences.release sequence
    stats := CacheStats.dismiss (cache.putPages pages).stats record }

theorem counted_dismissed (hinv : Inv orphans stray cache)
    (hrecord : cache.sequences.get? sequence = some record) {pages : Pages R.Page}
    {history : R.History} {deferred : ℕ}
    (hhistory : deferredTotal history = deferredTotal cache.backend + deferred) :
    Counted (cache.dismissed sequence record pages history deferred) := by
  have hget : ∀ other, (cache.sequences.release sequence).get? other =
      if other = sequence then none else cache.sequences.get? other := fun other =>
    Arena.get?_release hrecord
  have hreserved := Arena.total_remove SequenceRecord.reservedPages hrecord hget
  have hprivate := Arena.total_remove SequenceRecord.privateStateBytes hrecord hget
  have htable := Arena.total_remove SequenceRecord.pageTableBytes hrecord hget
  obtain ⟨h1, h2, h3, h4, -, h6⟩ := hinv.counted
  refine ⟨?_, ?_, ?_, h4, rfl, ?_⟩
  · simp only [dismissed, CacheStats.dismiss, putPages]
    omega
  · simp only [dismissed, CacheStats.dismiss, putPages]
    omega
  · simp only [dismissed, CacheStats.dismiss, putPages]
    omega
  · simp only [dismissed]
    rw [h6, hhistory]

/-- Letting go of a sequence keeps everything else in order. -/
theorem ready_dismissed (hinv : Inv orphans stray cache)
    (hrecord : cache.sequences.get? sequence = some record) (hpending : record.pending = none)
    (hgen : sequence.generation < u32Max) {pages : Pages R.Page} {history : R.History}
    {deferred : ℕ}
    (hreleases : Releases cache.pages pages record.pages [] (cache.finishBatch record) []
      fun id page => { page with activeRefs := page.activeRefs - record.pages.count id })
    (hlength : cache.pages.values.length =
      pages.values.length + (cache.finishBatch record).length)
    (hdeferred : deferred ≤ (cache.finishBatch record).length)
    (hhistory : deferredTotal history = deferredTotal cache.backend + deferred) :
    Ready orphans stray (cache.dismissed sequence record pages history deferred) := by
  have hget : ∀ other, (cache.sequences.release sequence).get? other =
      if other = sequence then none else cache.sequences.get? other := fun other =>
    Arena.get?_release hrecord
  have hheld := hinv.budgeted.held_le
  have hcharged := hinv.ready.charged_le
  have hkept := Nat.mul_le_mul_right cache.pageBytes (Nat.le.intro hlength.symm)
  have hpromised := Nat.mul_le_mul_right cache.pageBytes
    (Nat.sub_le cache.stats.reservedPages record.reservedPages)
  have hresident : (pages.values.length + (cache.deferredPages + deferred)) * cache.pageBytes ≤
      (cache.pages.values.length + cache.deferredPages) * cache.pageBytes :=
    Nat.mul_le_mul_right _ (by omega)
  unfold chargedBytes at hheld
  unfold chargedBytes residentNow at hcharged
  constructor
  case config =>
    obtain ⟨h1, h2, h3, h4, h5, h6⟩ := hinv.config
    exact ⟨h1, h2, h3, h4, h5, h6⟩
  case owned =>
    have hactive : ∀ id, activeCount cache.sequences id =
        activeCount (cache.sequences.release sequence) id + record.pages.count id := by
      intro id
      unfold activeCount
      rw [Arena.total_remove _ hrecord hget, heldPages_of_pending_none hpending]
    refine hinv.owned.release hreleases
      (Arena.wf_release hinv.owned.sequences_wf hrecord hgen) hactive (fun _ => rfl)
      (fun other found hfound => Or.inl ⟨?_, by simp⟩) fun _ _ hentry => hentry
    simp only [dismissed] at hfound
    rw [hget] at hfound
    split_ifs at hfound
    exact hfound
  case counted => exact counted_dismissed hinv hrecord hhistory
  case held_le =>
    simp only [dismissed, chargedBytes, CacheStats.dismiss, putPages]
    omega
  case charged_le =>
    simp only [dismissed, chargedBytes, residentNow, CacheStats.dismiss, putPages]
    omega
  case snapshot_le => exact hinv.budgeted.snapshot_le
  case entries_le => exact hinv.budgeted.entries_le
  case filed => exact hinv.filed
  case ranked => exact hinv.ranked
  case clocked => exact hinv.clocked
  case ids_below => exact hinv.ids_below
  case ids_bounded => exact hinv.ids_bounded

/-- The pages that stay lose the reference of the sequence. -/
theorem decrementShared_ok (hinv : Inv orphans stray cache)
    (hrecord : cache.sequences.get? sequence = some record) {middle : SequenceCache R}
    {context : R.Context} {pages : Pages R.Page} {physical : List R.Page} {deferred : ℕ}
    (hretired : Retired cache middle (cache.finishBatch record) context pages physical deferred) :
    ∃ pages', visitEach decrementActiveRef (record.pages.filter fun id => !cache.solelyHeld id)
        (({ cache with
          backend := middle.backend, deferredPages := cache.deferredPages + deferred } :
            SequenceCache R).putPages pages) =
          .ok () (({ cache with
            backend := middle.backend, deferredPages := cache.deferredPages + deferred } :
              SequenceCache R).putPages pages') ∧
      Arena.Updated (fun id page => { page with activeRefs := page.activeRefs -
        (record.pages.filter fun id => !cache.solelyHeld id).count id }) pages pages' := by
  have hok := hinv.owned.sequence sequence record hrecord
  have hnodup : record.pages.Nodup := hok.nodup.of_append_left
  have hlive : ∀ id ∈ record.pages, ∃ page, cache.pages.get? id = some page := fun id hmem =>
    (hok.live (mem_pages_heldPages hmem)).imp fun _ h => h.1
  have hless := length_removed (hnodup.filter _)
    (fun id hmem => hlive id (List.mem_filter.mp hmem).1) hretired.removed
  have hmul := Nat.mul_le_mul_right cache.pageBytes (Nat.le.intro hless.symm)
  have hbytes := hinv.pages_le_usize
  apply (decrementActiveRef_moves (R := R) { cache with
    backend := middle.backend, deferredPages := cache.deferredPages + deferred }).visitEach
  · simp only
    omega
  · intro id hmem
    obtain ⟨hpages, hshared⟩ := List.mem_filter.mp hmem
    obtain ⟨page, hpage⟩ := hlive id hpages
    have hnot : id ∉ cache.finishBatch record := fun hin => by
      have hsole := (List.mem_filter.mp hin).2
      simp [hsole] at hshared
    refine ⟨page, by rw [hretired.removed.get?, if_neg hnot, hpage], ?_⟩
    rw [List.count_eq_one_of_mem (hnodup.filter _) hmem]
    have hrefs := (hinv.owned.page id page hpage).active_refs
    have hpositive := activeCount_pos hrecord (mem_pages_heldPages hpages)
    omega

end Remove

/-- Whatever the backend answers, a completion succeeds, fails without an effect or is given
up at an answer that breaks the contract. -/
theorem finish_ends (hinv : Inv orphans stray cache) (sequence : SequenceId)
    (context : R.Context) :
    Ends (finish sequence context cache)
      (fun _ cache' => Inv orphans stray cache' ∧ ∃ record physical deferred,
        Finished cache cache' sequence record context physical deferred)
      (fun failure cache' => FinishFails cache sequence context failure cache' ∨
        Breached cache failure cache') := by
  unfold finish
  cases hrecord : cache.sequences.get? sequence with
  | none =>
      have hread : cache.sequenceRecord sequence = .error (.error .staleSequence) := by
        simp only [sequenceRecord, hrecord, okOr_none]
        rfl
      rw [bind_error (reads_error (fun cache : SequenceCache R =>
        cache.sequenceRecord sequence) hread)]
      exact Or.inl (Or.inl ⟨rfl, hrecord, rfl⟩)
  | some record =>
  rw [bind_ok (reads_ok (fun cache : SequenceCache R =>
    cache.sequenceRecord sequence) (sequenceRecord_eq_ok.mpr hrecord))]
  refine Ends.ensure (fun hbusy => Or.inl (Or.inr ⟨record, hrecord, Or.inl ⟨rfl, ?_, rfl⟩⟩))
    (fun hidle => ?_)
  · simpa [Option.isSome_iff_ne_none] using hbusy
  have hpending : record.pending = none := Option.isNone_iff_eq_none.mp hidle
  rcases prepareRemoveSequence_cases hrecord with ⟨hlast, herror⟩ | ⟨hgen, hprepared⟩
  · rw [bind_error (reads_error (fun cache : SequenceCache R =>
      cache.prepareRemoveSequence sequence) herror)]
    exact Or.inl (Or.inr ⟨record, hrecord, Or.inr (Or.inl ⟨rfl, hlast, rfl⟩)⟩)
  have hok := hinv.owned.sequence sequence record hrecord
  have hnodup : record.pages.Nodup := hok.nodup.of_append_left
  have hstorage : ∀ id ∈ record.pages, ∃ page, cache.pages.get? id = some page ∧
      page.physical.isSome := fun id hmem => hok.live (mem_pages_heldPages hmem)
  have hlive : ∀ id ∈ record.pages, ∃ page, cache.pages.get? id = some page := fun id hmem =>
    (hstorage id hmem).imp fun _ h => h.1
  rw [bind_ok (reads_ok (fun cache : SequenceCache R =>
      cache.prepareRemoveSequence sequence) hprepared),
    bind_ok (reads_ok (fun cache : SequenceCache R =>
      cache.retirableOf record.pages) (retirableOf_ok hlive))]
  rw [show record.pages.filter cache.solelyHeld = cache.finishBatch record from rfl]
  have hbatch : (cache.finishBatch record).Nodup := hnodup.filter _
  have hbatch_live : ∀ id ∈ cache.finishBatch record, ∃ page, cache.pages.get? id = some page ∧
      page.physical.isSome := fun id hmem => hstorage id (List.mem_filter.mp hmem).1
  have hbatch_live' : ∀ id ∈ cache.finishBatch record, ∃ page, cache.pages.get? id = some page :=
    fun id hmem => (hbatch_live id hmem).imp fun _ h => h.1
  have hroom : cache.deferredPages + (cache.finishBatch record).length ≤ usizeMax := by
    have hlength := Arena.length_le_values hbatch hbatch_live'
    have hdeferred := hinv.deferred_le
    have hcount := hinv.resident_le_mul (cache.pages.values.length + cache.deferredPages)
    have hdouble := hinv.double_le
    omega
  refine Ends.bind (Ends.mono (retirePageIds_ends hinv.counted hinv.owned.pages_wf hbatch
    hbatch_live hinv.pages_le_usize hroom context) (fun _ _ h => h)
    (fun failure cache' h =>
      h.imp (fun h => Or.inr ⟨record, hrecord, Or.inr (Or.inr h)⟩) And.left)) ?_
  rintro - middle ⟨pages, physical, deferred, hretire⟩
  obtain ⟨pages', hvisit, hupdated⟩ := decrementShared_ok hinv hrecord hretire
  have hless := length_removed hbatch hbatch_live' hretire.removed
  have hmiddle := hretire.state
  have hretirement := hretire.retirement
  generalize middle.backend = history at hmiddle hretirement hvisit
  subst hmiddle
  have hdecrement := decrementShared_eq (R := R) cache.solelyHeld record.pages
  rw [show record.pages.filter cache.solelyHeld = cache.finishBatch record from rfl] at hdecrement
  rw [hdecrement]
  have hreserved := Arena.le_total SequenceRecord.reservedPages hrecord
  have hprivate := Arena.le_total SequenceRecord.privateStateBytes hrecord
  have htable := Arena.le_total SequenceRecord.pageTableBytes hrecord
  rw [← hinv.counted.reserved] at hreserved
  rw [← hinv.counted.privateState] at hprivate
  rw [← hinv.counted.pageTable] at htable
  have hgen_lt : sequence.generation < u32Max :=
    Nat.lt_of_le_of_ne (Arena.generation_le_of_get? hinv.owned.sequences_wf hrecord) hgen
  refine Eq.mpr (congrArg (fun result => Ends result _ _) (bind_ok hvisit)) ?_
  have hremove := @removeSequence_ok R (({ cache with
      backend := history, deferredPages := cache.deferredPages + deferred } :
        SequenceCache R).putPages pages') sequence record hrecord hgen_lt hreserved hprivate htable
  rw [bind_ok hremove]
  have hreleases := releases_finished hnodup hretire.removed hupdated
  have hlength : cache.pages.values.length =
      pages'.values.length + (cache.finishBatch record).length := by
    rw [hupdated.length_values]
    exact hless
  have hready := ready_dismissed hinv hrecord hpending hgen_lt hreleases hlength hretire.deferred_le
    hretirement.deferredTotal_eq
  obtain ⟨hrun, hfinal⟩ := hready.refresh
  refine Eq.mpr (congrArg (fun result => Ends result _ _) hrun) ?_
  exact ⟨hfinal, record, physical, deferred, hrecord, hpending, hgen, hretire.removable, rfl,
    hreleases.get?, hretire.removed.advances.trans (Arena.Advances.ofUpdated hupdated),
    hlength, hretire.stored, hretirement, hretire.deferred_le⟩

theorem finish_spec (hlaw : R.Retires) (hinv : Inv orphans stray cache) (sequence : SequenceId)
    (context : R.Context) :
    Ends (finish sequence context cache)
      (fun _ cache' => Inv orphans stray cache' ∧ ∃ record physical deferred,
        Finished cache cache' sequence record context physical deferred)
      (FinishFails cache sequence context) :=
  (finish_ends hinv sequence context).resolve (not_breached hlaw)

end SequenceCache

end SeqCache
