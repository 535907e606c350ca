import SeqCache.Invariant.Ownership

/-!
# How references move

Every operation moves page references in one of four ways: holders let go of pages and
the pages no one holds any longer are retired; a sequence takes references to complete
pages and to fresh ones; an entry takes references to complete pages; or a finalization
fails half way and leaves its pages without a holder.  One lemma for each says that
ownership stays consistent.
-/

namespace SeqCache

open Machine Std

variable {Page Transaction Snapshot : Type}
variable {orphans : List PageId} {pageTokens : ℕ} {pages pages' : Pages Page}
variable {sequences sequences' : Sequences Transaction}
variable {prefixes prefixes' : Prefixes Snapshot}

namespace Owned

theorem live_of_held (h : Owned orphans pageTokens pages sequences prefixes)
    {sequence : SequenceId} {record : SequenceRecord Transaction} {id : PageId}
    (hrecord : sequences.get? sequence = some record) (hmem : id ∈ record.heldPages) :
    ∃ page, pages.get? id = some page ∧ page.physical.isSome :=
  (h.sequence sequence record hrecord).live hmem

/-- A handle that does not resolve is held by no one. -/
theorem not_held (h : Owned orphans pageTokens pages sequences prefixes) {id : PageId}
    (hnone : pages.get? id = none) :
    activeCount sequences id = 0 ∧ orphans.count id = 0 ∧ prefixCount prefixes id = 0 := by
  refine ⟨?_, ?_, ?_⟩
  · unfold activeCount Arena.total
    rw [List.sum_eq_zero_iff]
    intro count hcount
    obtain ⟨record, hrecord, rfl⟩ := List.mem_map.mp hcount
    rw [← Arena.map_snd_entries, List.mem_map] at hrecord
    obtain ⟨⟨sequence, record⟩, hentry, rfl⟩ := hrecord
    rw [List.count_eq_zero]
    intro hmem
    obtain ⟨page, hpage, -⟩ := h.live_of_held (Arena.mem_entries.mp hentry) hmem
    simp [hnone] at hpage
  · rw [List.count_eq_zero]
    intro hmem
    obtain ⟨page, hpage⟩ := h.orphans_live id hmem
    simp [hnone] at hpage
  · unfold prefixCount mapTotal
    rw [List.sum_eq_zero_iff]
    intro count hcount
    obtain ⟨⟨key, entry⟩, hentry, rfl⟩ := List.mem_map.mp hcount
    rw [List.count_eq_zero]
    intro hmem
    obtain ⟨page, hpage, -⟩ :=
      (h.entry key entry (((tabulates_toList prefixes).mem_iff key entry).mp hentry)).held id hmem
    simp [hnone] at hpage

/-- A page that can still be written has a single holder. -/
theorem only_holder (h : Owned orphans pageTokens pages sequences prefixes)
    {sequence : SequenceId} {record : SequenceRecord Transaction} {id : PageId}
    {page : PageRecord Page} (hrecord : sequences.get? sequence = some record)
    (hmem : id ∈ record.heldPages) (hpage : pages.get? id = some page)
    (hopen : page.sealed = false) :
    page.activeRefs = 1 ∧ page.prefixRefs = 0 ∧ ∀ other record',
      sequences.get? other = some record' → other ≠ sequence → id ∉ record'.heldPages := by
  have hok := h.page id page hpage
  obtain ⟨hone, hzero⟩ := hok.unshared hopen
  have hrefs := hok.active_refs
  have hpositive := activeCount_pos hrecord hmem
  refine ⟨by omega, hzero, fun other record' hrecord' hne hmem' => ?_⟩
  have := two_le_activeCount hrecord hrecord' hne hmem hmem'
  omega

end Owned

/-! ## Letting go -/

/-- The sequences drop the references `active` and the entries drop `removed`; the pages
in `retired` are gone, and only the pages in `written` have new rows. -/
structure Releases (pages pages' : Pages Page) (active removed retired written : List PageId)
    (update : PageId → PageRecord Page → PageRecord Page) : Prop where
  wf : pages'.WF
  get? : ∀ id, pages'.get? id = if id ∈ retired then none else (pages.get? id).map (update id)
  activeRefs : ∀ id page, pages.get? id = some page →
    (update id page).activeRefs = page.activeRefs - active.count id
  prefixRefs : ∀ id page, pages.get? id = some page →
    (update id page).prefixRefs = page.prefixRefs - removed.count id
  unwritten : ∀ id page, pages.get? id = some page → id ∉ written →
    (update id page).physical = page.physical ∧
      (update id page).validTokens = page.validTokens ∧ (update id page).sealed = page.sealed
  written_open : ∀ id page, pages.get? id = some page → id ∈ written → page.sealed = false
  mem_retired : ∀ id page, pages.get? id = some page → (id ∈ retired ↔
    (id ∈ active ∨ id ∈ removed) ∧ page.activeRefs = active.count id ∧
      page.prefixRefs = removed.count id)

section Release

variable {active removed retired written : List PageId}
variable {update : PageId → PageRecord Page → PageRecord Page}

theorem Releases.keeps (h : Releases pages pages' active removed retired written update)
    {id : PageId} (hretired : id ∉ retired) (hwritten : id ∉ written) :
    Keeps pages pages' id := by
  intro page hpage
  refine ⟨update id page, ?_, h.unwritten id page hpage hwritten⟩
  rw [h.get?, if_neg hretired, hpage]
  rfl

theorem Owned.release (h : Owned orphans pageTokens pages sequences prefixes)
    (hpages : Releases pages pages' active removed retired written update)
    (hwf : sequences'.WF)
    (hactive : ∀ id, activeCount sequences id = activeCount sequences' id + active.count id)
    (hremoved : ∀ id, prefixCount prefixes id = prefixCount prefixes' id + removed.count id)
    (hsequence : ∀ id record, sequences'.get? id = some record →
      (sequences.get? id = some record ∧ ∀ page ∈ written, page ∉ record.heldPages) ∨
        SequenceOk orphans pageTokens pages' record)
    (hentry : ∀ (id : PrefixEntryId) (entry : PrefixEntry Snapshot),
      prefixes'[id]? = some entry → prefixes[id]? = some entry) :
    Owned orphans pageTokens pages' sequences' prefixes' := by
  have hheld : ∀ id page, pages.get? id = some page → id ∈ retired →
      activeCount sequences' id = 0 ∧ orphans.count id = 0 ∧ prefixCount prefixes' id = 0 := by
    intro id page hpage hmem
    obtain ⟨-, hrefs, hretained⟩ := (hpages.mem_retired id page hpage).mp hmem
    have hok := h.page id page hpage
    have := hok.active_refs
    have := hok.prefix_refs
    have := hactive id
    have := hremoved id
    omega
  refine ⟨hpages.wf, hwf, h.orphans_nodup, ?_, ?_, ?_, ?_⟩
  · intro id hmem
    obtain ⟨page, hpage⟩ := h.orphans_live id hmem
    refine ⟨update id page, ?_⟩
    have hnot : id ∉ retired := fun hretired => by
      have := (hheld id page hpage hretired).2.1
      rw [List.count_eq_zero] at this
      exact this hmem
    rw [hpages.get?, if_neg hnot, hpage]
    rfl
  · intro id page' hpage'
    rw [hpages.get?] at hpage'
    split_ifs at hpage' with hnot
    obtain ⟨page, hpage, rfl⟩ := Option.map_eq_some_iff.mp hpage'
    have hok := h.page id page hpage
    have hrefs := hok.active_refs
    have hretained := hok.prefix_refs
    have hactive := hactive id
    have hremoved := hremoved id
    have hrefs' := hpages.activeRefs id page hpage
    have hretained' := hpages.prefixRefs id page hpage
    refine ⟨by omega, by omega, ?_, ?_⟩
    · by_contra hzero
      have howned := hok.owned
      have hcount : 0 < active.count id ∨ 0 < removed.count id := by omega
      rw [List.count_pos_iff, List.count_pos_iff] at hcount
      exact hnot ((hpages.mem_retired id page hpage).mpr ⟨hcount, by omega, by omega⟩)
    · intro hsealed
      have hopen : page.sealed = false := by
        by_cases hwritten : id ∈ written
        · exact hpages.written_open id page hpage hwritten
        · rw [← (hpages.unwritten id page hpage hwritten).2.2]
          exact hsealed
      have := hok.unshared hopen
      omega
  · intro sequence record hrecord
    rcases hsequence sequence record hrecord with ⟨hold, hfree⟩ | hok
    · refine (h.sequence sequence record hold).keep ?_
      intro id hmem page hpage
      refine hpages.keeps ?_ (fun hwritten => hfree id hwritten hmem) page hpage
      intro hretired
      have := (hheld id page hpage hretired).1
      have := activeCount_pos hrecord hmem
      omega
    · exact hok
  · intro key entry hkey
    refine (h.entry key entry (hentry key entry hkey)).keep ?_
    intro id hmem page hpage
    have hpositive := prefixCount_pos hkey hmem
    refine hpages.keeps (fun hretired => ?_) (fun hwritten => ?_) page hpage
    · have := (hheld id page hpage hretired).2.2
      omega
    · have := (h.page id page hpage).unshared (hpages.written_open id page hpage hwritten)
      have := (h.page id page hpage).prefix_refs
      have := hremoved id
      omega

end Release

/-! ## Taking references -/

/-- A sequence takes one more reference to each page in `shared`, and the private pages
in `fresh` appear. -/
structure Grows (pages pages' : Pages Page) (shared fresh : List PageId) : Prop where
  wf : pages'.WF
  advances : Arena.Advances pages pages'
  nodup : fresh.Nodup
  absent : ∀ id ∈ fresh, pages.get? id = none
  unshared : ∀ id ∈ fresh, ∃ page, pages'.get? id = some page ∧ page.activeRefs = 1 ∧
    page.prefixRefs = 0
  old : ∀ id, id ∉ fresh → pages'.get? id = (pages.get? id).map fun page =>
    { page with activeRefs := page.activeRefs + shared.count id }
  shared_sealed : ∀ id ∈ shared, ∃ page, pages.get? id = some page ∧ page.sealed = true

section Growth

variable {shared fresh : List PageId}

theorem Grows.keeps (h : Grows pages pages' shared fresh) (id : PageId) :
    Keeps pages pages' id := by
  intro page hpage
  have hnot : id ∉ fresh := fun hmem => by simp [h.absent id hmem] at hpage
  refine ⟨{ page with activeRefs := page.activeRefs + shared.count id }, ?_, rfl, rfl, rfl⟩
  rw [h.old id hnot, hpage]
  rfl

theorem Owned.grow (h : Owned orphans pageTokens pages sequences prefixes)
    (hpages : Grows pages pages' shared fresh) (hwf : sequences'.WF)
    (hactive : ∀ id, activeCount sequences' id =
      activeCount sequences id + shared.count id + fresh.count id)
    (hsequence : ∀ id record, sequences'.get? id = some record →
      sequences.get? id = some record ∨ SequenceOk orphans pageTokens pages' record) :
    Owned orphans pageTokens pages' sequences' prefixes := by
  refine ⟨hpages.wf, hwf, h.orphans_nodup, ?_, ?_, ?_, ?_⟩
  · intro id hmem
    obtain ⟨page, hpage⟩ := h.orphans_live id hmem
    obtain ⟨page', hpage', -⟩ := hpages.keeps id page hpage
    exact ⟨page', hpage'⟩
  · intro id page' hpage'
    have hcount := hactive id
    by_cases hmem : id ∈ fresh
    · obtain ⟨page, hpage, hrefs, hretained⟩ := hpages.unshared id hmem
      obtain rfl : page = page' := by simpa [hpage] using hpage'
      have hfree := h.not_held (hpages.absent id hmem)
      have hone := List.count_eq_one_of_mem hpages.nodup hmem
      have hshared : shared.count id = 0 := by
        rw [List.count_eq_zero]
        intro hshared
        obtain ⟨page, hpage, -⟩ := hpages.shared_sealed id hshared
        simp [hpages.absent id hmem] at hpage
      exact ⟨by omega, by omega, by omega, fun _ => by omega⟩
    · rw [hpages.old id hmem] at hpage'
      obtain ⟨page, hpage, rfl⟩ := Option.map_eq_some_iff.mp hpage'
      have hok := h.page id page hpage
      have hrefs := hok.active_refs
      have hretained := hok.prefix_refs
      have howned := hok.owned
      have hzero := List.count_eq_zero.mpr hmem
      refine ⟨by simp only; omega, hretained, by simp only; omega, ?_⟩
      intro hsealed
      have hshared : shared.count id = 0 := by
        rw [List.count_eq_zero]
        intro hshared
        obtain ⟨page', hpage', hcomplete⟩ := hpages.shared_sealed id hshared
        simp_all
      have := hok.unshared hsealed
      simp only
      omega
  · intro sequence record hrecord
    rcases hsequence sequence record hrecord with hold | hok
    · exact (h.sequence sequence record hold).keep fun id _ => hpages.keeps id
    · exact hok
  · intro key entry hkey
    exact (h.entry key entry hkey).keep fun id _ => hpages.keeps id

end Growth

/-! ## Retaining -/

/-- An entry takes one more reference to each page in `taken`. -/
theorem Owned.retain {taken : List PageId}
    (h : Owned orphans pageTokens pages sequences prefixes) (hwf : pages'.WF)
    (hget : ∀ id, pages'.get? id = (pages.get? id).map fun page =>
      { page with prefixRefs := page.prefixRefs + taken.count id })
    (hsealed : ∀ id ∈ taken, ∃ page, pages.get? id = some page ∧ page.sealed = true)
    (hretained : ∀ id, prefixCount prefixes' id = prefixCount prefixes id + taken.count id)
    (hentry : ∀ (id : PrefixEntryId) (entry : PrefixEntry Snapshot),
      prefixes'[id]? = some entry →
        prefixes[id]? = some entry ∨ EntryOk pageTokens pages' entry) :
    Owned orphans pageTokens pages' sequences prefixes' := by
  have hkeeps : ∀ id, Keeps pages pages' id := by
    intro id page hpage
    refine ⟨{ page with prefixRefs := page.prefixRefs + taken.count id }, ?_, rfl, rfl, rfl⟩
    rw [hget, hpage]
    rfl
  refine ⟨hwf, h.sequences_wf, h.orphans_nodup, ?_, ?_, ?_, ?_⟩
  · intro id hmem
    obtain ⟨page, hpage⟩ := h.orphans_live id hmem
    obtain ⟨page', hpage', -⟩ := hkeeps id page hpage
    exact ⟨page', hpage'⟩
  · intro id page' hpage'
    rw [hget] at hpage'
    obtain ⟨page, hpage, rfl⟩ := Option.map_eq_some_iff.mp hpage'
    have hok := h.page id page hpage
    have hrefs := hok.prefix_refs
    have hcount := hretained id
    have howned := hok.owned
    refine ⟨hok.active_refs, by simp only; omega, by simp only; omega, ?_⟩
    intro hopen
    have htaken : taken.count id = 0 := by
      rw [List.count_eq_zero]
      intro hmem
      obtain ⟨page', hpage', hcomplete⟩ := hsealed id hmem
      simp_all
    have := hok.unshared hopen
    simp only
    omega
  · intro sequence record hrecord
    exact (h.sequence sequence record hrecord).keep fun id _ => hkeeps id
  · intro key entry hkey
    rcases hentry key entry hkey with hold | hok
    · exact (h.entry key entry hold).keep fun id _ => hkeeps id
    · exact hok

/-- Changing the entries without changing the pages they hold. -/
theorem Owned.relabel (h : Owned orphans pageTokens pages sequences prefixes)
    (hentry : ∀ id : PrefixEntryId,
      (prefixes'[id]?.map fun entry => (entry.pages, entry.position)) =
        prefixes[id]?.map fun entry => (entry.pages, entry.position)) :
    Owned orphans pageTokens pages sequences prefixes' := by
  have hcount : ∀ id, prefixCount prefixes' id = prefixCount prefixes id := by
    intro id
    refine mapTotal_congr _ fun key => ?_
    have := congrArg (Option.map fun pair : List PageId × ℕ => pair.1.count id) (hentry key)
    simpa only [Option.map_map, Function.comp_def] using this
  refine { h with page := ?_, entry := ?_ }
  · intro id page hpage
    have hok := h.page id page hpage
    exact { hok with prefix_refs := (hcount id).symm ▸ hok.prefix_refs }
  · intro key entry' hkey
    have hsame := hentry key
    rw [hkey, Option.map_some, eq_comm, Option.map_eq_some_iff] at hsame
    obtain ⟨entry, hold, heq⟩ := hsame
    obtain ⟨hpages, hposition⟩ := Prod.mk.inj heq
    have hok := h.entry key entry hold
    exact ⟨hposition ▸ hok.position_ne, hposition ▸ hpages ▸ hok.position_eq,
      hposition ▸ hok.bounded, hpages ▸ hok.nodup, hpages ▸ hok.held⟩

/-! ## Losing a holder -/

/-- With orphans around nothing is claimed about rows that were being written. -/
theorem SequenceOk.weaken {orphans' : List PageId} {record : SequenceRecord Transaction}
    (h : SequenceOk orphans pageTokens pages record) (hne : orphans' ≠ []) :
    SequenceOk orphans' pageTokens pages record := by
  refine { h with length_total := fun hnil => absurd hnil hne, held := ?_ }
  intro n id hid
  obtain ⟨page, hpage, hok⟩ := h.held n id hid
  exact ⟨page, hpage, { hok with rows := fun hnil => absurd hnil hne }⟩

/-- The pages `lost` remain without their holder, the pages `retired` are gone. -/
theorem Owned.lose {lost retired written : List PageId}
    {update : PageId → PageRecord Page → PageRecord Page}
    (h : Owned orphans pageTokens pages sequences prefixes) (hne : lost ≠ [])
    (hpages_wf : pages'.WF) (hsequences_wf : sequences'.WF)
    (hget : ∀ id, pages'.get? id =
      if id ∈ retired then none else (pages.get? id).map (update id))
    (hrefs : ∀ id page, (update id page).activeRefs = page.activeRefs ∧
      (update id page).prefixRefs = page.prefixRefs)
    (hunwritten : ∀ id page, id ∉ written → (update id page).physical = page.physical ∧
      (update id page).validTokens = page.validTokens ∧ (update id page).sealed = page.sealed)
    (hnodup : (retired ++ lost).Nodup)
    (hopen : ∀ id ∈ retired ++ lost ++ written, ∃ page, pages.get? id = some page ∧
      page.sealed = false)
    (hactive : ∀ id, activeCount sequences id =
      activeCount sequences' id + retired.count id + lost.count id)
    (hsequence : ∀ id record, sequences'.get? id = some record →
      (sequences.get? id = some record ∧ ∀ page ∈ written, page ∉ record.heldPages) ∨
        SequenceOk (orphans ++ lost) pageTokens pages' record) :
    Owned (orphans ++ lost) pageTokens pages' sequences' prefixes := by
  have hfacts : ∀ id page, pages.get? id = some page → id ∈ retired ++ lost →
      orphans.count id = 0 ∧ activeCount sequences' id = 0 ∧ prefixCount prefixes id = 0 := by
    intro id page hpage hmem
    obtain ⟨page', hpage', hsealed⟩ := hopen id (List.mem_append_left _ hmem)
    obtain rfl : page = page' := by simpa [hpage] using hpage'
    have hok := h.page id page hpage
    have hunshared := hok.unshared hsealed
    have hcount := hactive id
    have hone := List.count_eq_one_of_mem hnodup hmem
    rw [List.count_append] at hone
    have := hok.active_refs
    have := hok.prefix_refs
    omega
  have hlive : ∀ id page, pages.get? id = some page → id ∉ retired →
      pages'.get? id = some (update id page) := by
    intro id page hpage hnot
    rw [hget, if_neg hnot, hpage]
    rfl
  have hdisjoint := List.disjoint_of_nodup_append hnodup
  refine ⟨hpages_wf, hsequences_wf, ?_, ?_, ?_, ?_, ?_⟩
  · refine h.orphans_nodup.append hnodup.of_append_right ?_
    intro id horphan hlost
    obtain ⟨page, hpage⟩ := h.orphans_live id horphan
    have := (hfacts id page hpage (List.mem_append_right _ hlost)).1
    rw [List.count_eq_zero] at this
    exact this horphan
  · intro id hmem
    rcases List.mem_append.mp hmem with horphan | hlost
    · obtain ⟨page, hpage⟩ := h.orphans_live id horphan
      refine ⟨_, hlive id page hpage fun hretired => ?_⟩
      have := (hfacts id page hpage (List.mem_append_left _ hretired)).1
      rw [List.count_eq_zero] at this
      exact this horphan
    · obtain ⟨page, hpage, -⟩ := hopen id
        (List.mem_append_left _ (List.mem_append_right _ hlost))
      exact ⟨_, hlive id page hpage fun hretired => hdisjoint hretired hlost⟩
  · intro id page' hpage'
    rw [hget] at hpage'
    split_ifs at hpage' with hnot
    obtain ⟨page, hpage, rfl⟩ := Option.map_eq_some_iff.mp hpage'
    have hok := h.page id page hpage
    have hzero := List.count_eq_zero.mpr hnot
    have hactive := hactive id
    have hactive_refs := hok.active_refs
    obtain ⟨hrefs, hretained⟩ := hrefs id page
    refine ⟨?_, hretained.trans hok.prefix_refs, ?_, ?_⟩
    · rw [List.count_append]
      omega
    · rw [hrefs, hretained]
      exact hok.owned
    · intro hsealed
      rw [hrefs, hretained]
      apply hok.unshared
      by_cases hwritten : id ∈ written
      · obtain ⟨page', hpage', hsealed'⟩ := hopen id (List.mem_append_right _ hwritten)
        obtain rfl : page = page' := by simpa [hpage] using hpage'
        exact hsealed'
      · rw [← (hunwritten id page hwritten).2.2]
        exact hsealed
  · intro sequence record hrecord
    rcases hsequence sequence record hrecord with ⟨hold, hfree⟩ | hok
    · refine ((h.sequence sequence record hold).keep ?_).weaken (by simp [hne])
      intro id hmem page hpage
      refine ⟨_, hlive id page hpage ?_, hunwritten id page fun hwritten => hfree id hwritten hmem⟩
      intro hretired
      have := (hfacts id page hpage (List.mem_append_left _ hretired)).2.1
      have := activeCount_pos hrecord hmem
      omega
    · exact hok
  · intro key entry hkey
    refine (h.entry key entry hkey).keep ?_
    intro id hmem page hpage
    have hpositive := prefixCount_pos hkey hmem
    refine ⟨_, hlive id page hpage ?_, hunwritten id page ?_⟩
    · intro hretired
      have := (hfacts id page hpage (List.mem_append_left _ hretired)).2.2
      omega
    · intro hwritten
      obtain ⟨page', hpage', hsealed⟩ := hopen id (List.mem_append_right _ hwritten)
      obtain rfl : page = page' := by simpa [hpage] using hpage'
      have := (h.page id page hpage).unshared hsealed
      have := (h.page id page hpage).prefix_refs
      omega

end SeqCache
