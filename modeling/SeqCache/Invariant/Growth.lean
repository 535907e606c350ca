import SeqCache.Invariant.Evictions

/-!
# Registering pages and sequences

Inserting fresh pages and sequences into the two arenas, and the checks before it.
-/

namespace SeqCache

open Machine Program Std

variable {R : Runtime}

/-! ## Fresh pages -/

section Fresh

variable {Page : Type} {pages pages' pages'' : Pages Page} {shared fresh : List PageId}

theorem Grows.ofUpdated (hwf : pages.WF)
    (h : Arena.Updated (fun id page =>
      { page with activeRefs := page.activeRefs + shared.count id }) pages pages')
    (hsealed : ∀ id ∈ shared, ∃ page, pages.get? id = some page ∧ page.sealed = true) :
    Grows pages pages' shared [] :=
  ⟨h.wf hwf, Arena.Advances.ofUpdated h, List.nodup_nil, by simp, by simp, fun id _ => h.get? id,
    hsealed⟩

/-- One more private page appears. -/
theorem Grows.insert (h : Grows pages pages' shared fresh) {id : PageId} {page : PageRecord Page}
    (hwf : pages''.WF) (hadvances : Arena.Advances pages' pages'') (habsent : pages'.get? id = none)
    (hget : ∀ other, pages''.get? other = if other = id then some page else pages'.get? other)
    (hactive : page.activeRefs = 1) (hretained : page.prefixRefs = 0) :
    Grows pages pages'' shared (id :: fresh) := by
  have hold : pages.get? id = none := by
    by_cases hmem : id ∈ fresh
    · exact h.absent id hmem
    · have := h.old id hmem
      rw [habsent, eq_comm, Option.map_eq_none_iff] at this
      exact this
  have hnot : id ∉ fresh := by
    intro hmem
    obtain ⟨found, hfound, -⟩ := h.unshared id hmem
    simp [habsent] at hfound
  refine ⟨hwf, h.advances.trans hadvances, List.nodup_cons.mpr ⟨hnot, h.nodup⟩, ?_, ?_, ?_,
    h.shared_sealed⟩
  · intro other hmem
    rcases List.mem_cons.mp hmem with rfl | hmem
    · exact hold
    · exact h.absent other hmem
  · intro other hmem
    rw [hget]
    split_ifs with heq
    · exact ⟨page, rfl, hactive, hretained⟩
    · exact h.unshared other ((List.mem_cons.mp hmem).resolve_left heq)
  · intro other hmem
    obtain ⟨hne, hother⟩ := not_or.mp (mt List.mem_cons.mpr hmem)
    rw [hget, if_neg hne, h.old other hother]

theorem Grows.perm {fresh' : List PageId} (h : Grows pages pages' shared fresh)
    (hperm : fresh'.Perm fresh) : Grows pages pages' shared fresh' :=
  ⟨h.wf, h.advances, hperm.nodup_iff.mpr h.nodup,
    fun id hmem => h.absent id (hperm.mem_iff.mp hmem),
    fun id hmem => h.unshared id (hperm.mem_iff.mp hmem),
    fun id hmem => h.old id fun hin => hmem (hperm.mem_iff.mpr hin), h.shared_sealed⟩

end Fresh

namespace SequenceCache

variable {cache : SequenceCache R} {pages : Pages R.Page}

/-- Checking for `count` more records. -/
theorem preparePageSlots_cases (hwf : cache.pages.WF) (count : ℕ) :
    (cache.preparePageSlots count = .error (.error (.idExhausted "page slot")) ∧
        2 ^ 32 < cache.pages.values.length + count) ∨
      (cache.preparePageSlots count = .ok () ∧ cache.pages.values.length + count ≤ 2 ^ 32) := by
  have hlength := Arena.length_values_add_free hwf
  have hslots := hwf.length_le
  unfold preparePageSlots
  simp only
  by_cases hsum : cache.pages.slots.length + (count - cache.pages.free.length) ≤ usizeMax
  · rw [checkedAdd_of_le hsum, okOr_some, pure_bind]
    by_cases hroom : cache.pages.slots.length + (count - cache.pages.free.length) ≤ u32Max + 1
    · rw [ensure_pos hroom]
      refine Or.inr ⟨rfl, ?_⟩
      unfold u32Max at hroom
      omega
    · rw [ensure_neg hroom]
      refine Or.inl ⟨rfl, ?_⟩
      unfold u32Max at hroom
      omega
  · have hnone : checkedAdd cache.pages.slots.length (count - cache.pages.free.length) = none := by
      simp [checkedAdd, hsum]
    rw [hnone]
    refine Or.inl ⟨rfl, ?_⟩
    unfold usizeMax at hsum
    omega

theorem preparePageSlot_cases (hwf : cache.pages.WF) :
    cache.preparePageSlot = .error (.error (.idExhausted "page slot")) ∨
      cache.preparePageSlot = .ok () ∧ cache.pages.values.length + 1 ≤ 2 ^ 32 := by
  have hlength := Arena.length_values_add_free hwf
  have hslots := hwf.length_le
  unfold preparePageSlot
  by_cases hroom : ¬ (cache.pages.free = [] ∧ cache.pages.slots.length > u32Max)
  · rw [ensure_pos hroom]
    refine Or.inr ⟨rfl, ?_⟩
    unfold u32Max at hroom
    rcases Nat.eq_zero_or_pos cache.pages.free.length with hzero | hpos
    · have := not_and.mp hroom (List.eq_nil_of_length_eq_zero hzero)
      omega
    · omega
  · rw [ensure_neg hroom]
    exact Or.inl rfl

theorem preparePageSlot_ok (hwf : cache.pages.WF) (hroom : cache.pages.values.length + 1 ≤ 2 ^ 32) :
    cache.preparePageSlot = .ok () := by
  have hlength := Arena.length_values_add_free hwf
  refine ensure_pos ?_
  rintro ⟨hfree, hslots⟩
  rw [hfree, List.length_nil] at hlength
  unfold u32Max at hslots
  omega

theorem insertPagePrepared_ok (hwf : pages.WF) (hroom : pages.values.length + 1 ≤ 2 ^ 32)
    (value : PageRecord R.Page) (hactive : value.activeRefs ≠ 0) :
    ∃ id pages', insertPagePrepared value (cache.putPages pages) =
        .ok id (cache.putPages pages') ∧ pages'.WF ∧ Arena.Advances pages pages' ∧
      pages.get? id = none ∧
      (∀ other, pages'.get? other = if other = id then some value else pages.get? other) ∧
      pages'.values.length = pages.values.length + 1 ∧
      ∀ count, pages.issued (count + 1) = id :: pages'.issued count := by
  have hlength := Arena.length_values_add_free hwf
  obtain ⟨id, pages', hinsert, hwf', habsent, hget⟩ := Arena.insert_spec hwf (by
    intro hfree
    rw [hfree, List.length_nil] at hlength
    omega) value
  have hcount : pages'.values.countP PageRecord.isReclaimable =
      pages.values.countP PageRecord.isReclaimable := by
    rw [← Arena.total_indicator, ← Arena.total_indicator, Arena.total_fresh _ habsent hget]
    simp [PageRecord.isReclaimable, hactive]
  refine ⟨id, pages', ?_, hwf', Arena.Advances.insert hinsert, habsent, hget, ?_,
    Arena.issued_insert hinsert⟩
  · unfold insertPagePrepared
    rw [get_bind_run, show (cache.putPages pages).pages = pages from rfl, hinsert, okOr_some,
      pure_bind_run]
    simp only
    rw [modify_bind_run, pure_run]
    unfold putPages
    rw [hcount]
  · rw [← Arena.total_one, ← Arena.total_one]
    exact Arena.total_fresh _ habsent hget

/-- The record of a page that was just allocated. -/
def privatePage (page : R.Page) : PageRecord R.Page :=
  ⟨some page, 1, 0, 0, false⟩

/-- Every allocation becomes the storage of a fresh private page. -/
theorem insertAllocations_ok (allocations : List R.Page) {pages₀ : Pages R.Page}
    {shared : List PageId} {fresh : List PageId} (hgrows : Grows pages₀ pages shared fresh)
    (hroom : pages.values.length + allocations.length ≤ 2 ^ 32) :
    ∃ ids pages', insertAllocations allocations (cache.putPages pages) =
        .ok ids (cache.putPages pages') ∧
      Grows pages₀ pages' shared (ids.reverse ++ fresh) ∧ ids = pages.issued allocations.length ∧
      (∀ id page, pages.get? id = some page → pages'.get? id = some page) ∧
      ids.map pages'.get? = allocations.map (fun page => some (privatePage page)) ∧
      pages'.values.length = pages.values.length + allocations.length := by
  induction allocations generalizing pages fresh with
  | nil => exact ⟨[], pages, rfl, by simpa using hgrows, rfl, fun _ _ h => h, rfl, rfl⟩
  | cons page rest ih =>
      rw [List.length_cons] at hroom
      obtain ⟨id, middle, hinsert, hwf, hadvances, habsent, hget, hlength, hissued⟩ :=
        insertPagePrepared_ok hgrows.wf (by omega) (privatePage page) Nat.one_ne_zero
      obtain ⟨ids, pages', hrun, hgrows', hids, hkeep, hstored, hlength'⟩ :=
        ih (hgrows.insert hwf hadvances habsent hget rfl rfl) (by omega)
      refine ⟨id :: ids, pages', ?_, by simpa using hgrows',
        by rw [List.length_cons, hissued, hids], ?_, ?_, ?_⟩
      · rw [insertAllocations]
        exact (bind_ok hinsert).trans (by rw [bind_ok hrun, pure_run])
      · intro other found hfound
        refine hkeep other found ?_
        rw [hget, if_neg, hfound]
        rintro rfl
        simp [habsent] at hfound
      · rw [List.map_cons, List.map_cons, hstored, hkeep id _ (by rw [hget, if_pos rfl])]
      · rw [List.length_cons]
        omega

/-! ## Fresh sequences -/

theorem prepareSequenceSlot_cases (cache : SequenceCache R) :
    cache.prepareSequenceSlot = .error (.error (.idExhausted "sequence slot")) ∨
      cache.prepareSequenceSlot = .ok () ∧
        (cache.sequences.free = [] → cache.sequences.slots.length < 2 ^ 32) := by
  unfold prepareSequenceSlot
  by_cases hroom : ¬ (cache.sequences.free = [] ∧ cache.sequences.slots.length > u32Max)
  · rw [ensure_pos hroom]
    refine Or.inr ⟨rfl, fun hfree => ?_⟩
    have := not_and.mp hroom hfree
    unfold u32Max at this
    omega
  · rw [ensure_neg hroom]
    exact Or.inl rfl

/-- The counters after a sequence is inserted. -/
def CacheStats.admit {Transaction : Type} (stats : CacheStats)
    (record : SequenceRecord Transaction) : CacheStats :=
  { stats with
    reservedPages := stats.reservedPages + record.reservedPages
    activePrivateStateBytes := stats.activePrivateStateBytes + record.privateStateBytes
    pageTableBytes := stats.pageTableBytes + record.pageTableBytes }

theorem insertSequence_ok (hwf : cache.sequences.WF) {value : SequenceRecord R.AppendTransaction}
    (hslot : cache.prepareSequenceSlot = .ok ())
    (hroom : cache.sequences.free = [] → cache.sequences.slots.length < 2 ^ 32)
    (hreserved : cache.stats.reservedPages + value.reservedPages ≤ usizeMax)
    (hprivate : cache.stats.activePrivateStateBytes + value.privateStateBytes ≤ usizeMax)
    (htable : cache.stats.pageTableBytes + value.pageTableBytes ≤ usizeMax) :
    ∃ id sequences', insertSequence value cache = .ok id
        { cache with sequences := sequences', stats := CacheStats.admit cache.stats value } ∧
      sequences'.WF ∧ Arena.Advances cache.sequences sequences' ∧
      cache.sequences.get? id = none ∧
      ∀ other, sequences'.get? other =
        if other = id then some value else cache.sequences.get? other := by
  obtain ⟨id, sequences', hinsert, hwf', habsent, hget⟩ := Arena.insert_spec hwf hroom value
  refine ⟨id, sequences', ?_, hwf', Arena.Advances.insert hinsert, habsent, hget⟩
  unfold insertSequence
  rw [get_bind_run, checkedAdd_of_le hreserved, okOr_some, pure_bind_run,
    checkedAdd_of_le hprivate, okOr_some, pure_bind_run, checkedAdd_of_le htable, okOr_some,
    pure_bind_run,
    bind_ok (reads_ok (fun cache : SequenceCache R => cache.prepareSequenceSlot) hslot),
    hinsert, okOr_some, pure_bind_run]
  simp only
  rw [modify_bind_run, bind_ok (updateStats_run _ _), pure_run]
  rfl

end SequenceCache

end SeqCache
