import SeqCache.Invariant.Retirement

/-!
# What a plan promises

`planEvictions` predicts the totals after its evictions.  The prediction counts a page as
freed when the last of its references is dropped, which for entries that share pages
happens once, at the last of them.
-/

namespace SeqCache

open Machine Program Std

variable {R : Runtime}

namespace SequenceCache

variable {cache : SequenceCache R}

/-- Page references that the listed entries hold. -/
def pagesOf (cache : SequenceCache R) (entries : List PrefixEntryId) : List PageId :=
  (valuesOf cache.prefixes entries).flatMap PrefixEntry.pages

/-- Snapshot bytes of the listed entries. -/
def snapshotsOf (cache : SequenceCache R) (entries : List PrefixEntryId) : ℕ :=
  ((valuesOf cache.prefixes entries).map PrefixEntry.snapshotBytes).sum

/-- Pages freed by dropping the references `removed`. -/
def freedBy (cache : SequenceCache R) (removed : List PageId) : List PageId :=
  removed.dedup.filter (cache.lastHeld removed)

/-- Pages that a plan may count as free, given whether retirement is immediate. -/
def creditOf (cache : SequenceCache R) (removed : List PageId) : ℕ :=
  if R.retirementIsImmediate cache.backend then (cache.freedBy removed).length else 0

theorem pagesOf_append_eq (cache : SequenceCache R) (entries added : List PrefixEntryId) :
    cache.pagesOf (entries ++ added) = cache.pagesOf entries ++ cache.pagesOf added := by
  simp [pagesOf, valuesOf]

theorem nodup_freedBy (cache : SequenceCache R) (removed : List PageId) :
    (cache.freedBy removed).Nodup :=
  (List.nodup_dedup removed).filter _

theorem lastHeld_eq {id : PageId} {page : PageRecord R.Page} {removed : List PageId}
    (hpage : cache.pages.get? id = some page) :
    cache.lastHeld removed id = true ↔
      page.activeRefs = 0 ∧ page.prefixRefs = removed.count id := by
  simp [lastHeld, hpage]

theorem mem_freedBy {id : PageId} {page : PageRecord R.Page} {removed : List PageId}
    (hpage : cache.pages.get? id = some page) :
    id ∈ cache.freedBy removed ↔
      id ∈ removed ∧ page.activeRefs = 0 ∧ page.prefixRefs = removed.count id := by
  rw [freedBy, List.mem_filter, List.mem_dedup, lastHeld_eq hpage]

/-- Dropping one more reference frees at most the page it refers to. -/
theorem length_freedBy_append {removed : List PageId} {id : PageId} {page : PageRecord R.Page}
    (hpage : cache.pages.get? id = some page) (hlt : removed.count id < page.prefixRefs) :
    (cache.freedBy (removed ++ [id])).length = (cache.freedBy removed).length +
      if page.activeRefs = 0 ∧ (removed ++ [id]).count id = page.prefixRefs then 1 else 0 := by
  have hnodup : ∀ removed, (cache.freedBy removed).Nodup := fun removed =>
    (List.nodup_dedup removed).filter _
  have hother : ∀ other, other ≠ id →
      (other ∈ cache.freedBy (removed ++ [id]) ↔ other ∈ cache.freedBy removed) := by
    intro other hne
    simp only [freedBy, List.mem_filter, List.mem_dedup, List.mem_append, List.mem_singleton,
      hne, or_false, lastHeld, List.count_append, List.count_singleton, beq_iff_eq,
      Ne.symm hne, if_false, Nat.add_zero]
  have hold : id ∉ cache.freedBy removed := by
    rw [mem_freedBy hpage]
    omega
  split_ifs with hlast
  · have hnew : id ∈ cache.freedBy (removed ++ [id]) := by
      rw [mem_freedBy hpage]
      exact ⟨by simp, hlast.1, hlast.2.symm⟩
    have hperm : (cache.freedBy (removed ++ [id])).Perm (id :: cache.freedBy removed) := by
      rw [List.perm_ext_iff_of_nodup (hnodup _) (List.nodup_cons.mpr ⟨hold, hnodup _⟩)]
      intro other
      by_cases heq : other = id
      · subst heq
        simp [hnew]
      · rw [hother other heq]
        simp [heq]
    rw [hperm.length_eq, List.length_cons]
  · have hnew : id ∉ cache.freedBy (removed ++ [id]) := by
      rw [mem_freedBy hpage]
      rintro ⟨-, hactive, hcount⟩
      exact hlast ⟨hactive, hcount.symm⟩
    have hperm : (cache.freedBy (removed ++ [id])).Perm (cache.freedBy removed) := by
      rw [List.perm_ext_iff_of_nodup (hnodup _) (hnodup _)]
      intro other
      by_cases heq : other = id
      · subst heq
        simp [hnew, hold]
      · exact hother other heq
    rw [hperm.length_eq, Nat.add_zero]

/-- Freed pages are live, so there are no more of them than records. -/
theorem length_freedBy_le (cache : SequenceCache R) (removed : List PageId) :
    (cache.freedBy removed).length ≤ cache.pages.values.length := by
  refine Arena.length_le_values ((List.nodup_dedup removed).filter _) fun id hmem => ?_
  have hheld := (List.mem_filter.mp hmem).2
  unfold lastHeld at hheld
  cases hpage : cache.pages.get? id with
  | none => simp [hpage] at hheld
  | some page => exact ⟨page, rfl⟩

theorem creditOf_le (cache : SequenceCache R) (removed : List PageId) :
    cache.creditOf removed ≤ (cache.freedBy removed).length := by
  unfold creditOf
  split <;> omega

/-! ## The loop over the pages of one entry -/

/-- The totals of a plan that has dropped the references `removed`, against the totals
with which it started. -/
structure Tracks (cache : SequenceCache R) (bytes pages : ℕ) (totals : PlanTotals) : Prop where
  total : totals.total + cache.creditOf totals.removed * cache.pageBytes = bytes
  pages : totals.pages + cache.creditOf totals.removed = pages

theorem planPages_ok {bytes pages : ℕ} (ids : List PageId) {totals : PlanTotals}
    (h : Tracks cache bytes pages totals)
    (hbytes : cache.pages.values.length * cache.pageBytes ≤ bytes)
    (hpages : cache.pages.values.length ≤ pages)
    (hlive : ∀ id ∈ ids, ∃ page, cache.pages.get? id = some page ∧
      (totals.removed ++ ids).count id ≤ page.prefixRefs) :
    ∃ totals', cache.planPages ids totals = .ok totals' ∧ Tracks cache bytes pages totals' ∧
      totals'.removed = totals.removed ++ ids ∧ totals'.snapshots = totals.snapshots ∧
      totals'.entries = totals.entries := by
  induction ids generalizing totals with
  | nil => exact ⟨totals, rfl, h, by simp, rfl, rfl⟩
  | cons id rest ih =>
      obtain ⟨page, hpage, hcount⟩ := hlive id (by simp)
      have hlt : totals.removed.count id < page.prefixRefs := by
        rw [List.count_append, List.count_cons_self] at hcount
        omega
      have hlength := length_freedBy_append hpage hlt
      have hfreed := Nat.mul_le_mul_right cache.pageBytes
        (length_freedBy_le cache (totals.removed ++ [id]))
      have hfreed' := length_freedBy_le cache (totals.removed ++ [id])
      have htotal := h.total
      have hcredit := h.pages
      have hnext : ∀ totals' : PlanTotals, totals'.removed = totals.removed ++ [id] →
          ∀ other ∈ rest, ∃ page, cache.pages.get? other = some page ∧
            (totals'.removed ++ rest).count other ≤ page.prefixRefs := by
        intro totals' hremoved other hmem
        rw [hremoved, List.append_assoc]
        exact hlive other (List.mem_cons_of_mem _ hmem)
      rw [planPages, except_bind_ok (pageRecord_ok hpage)]
      by_cases hgone : R.retirementIsImmediate cache.backend = true ∧ page.activeRefs = 0 ∧
          (totals.removed ++ [id]).count id = page.prefixRefs
      · rw [if_pos hgone.2] at hlength
        simp only [creditOf, hgone.1, if_true] at htotal hcredit
        rw [hlength, Nat.succ_mul] at hfreed
        have hrun : (do
            let pages ← okOr (checkedSub totals.pages 1) (Failure.error .arithmeticOverflow)
            let total ← okOr (checkedSub totals.total cache.pageBytes)
              (Failure.error .arithmeticOverflow)
            cache.planPages rest
              { totals with total := total, pages := pages, removed := totals.removed ++ [id] }) =
            cache.planPages rest
              { totals with
                total := totals.total - cache.pageBytes
                pages := totals.pages - 1
                removed := totals.removed ++ [id] } := by
          rw [checkedSub_of_le (by omega), okOr_some, pure_bind, checkedSub_of_le (by omega),
            okOr_some, pure_bind]
        obtain ⟨totals', hok, htracks, hremoved, hsnapshots, hentries⟩ := @ih
          { totals with
            total := totals.total - cache.pageBytes
            pages := totals.pages - 1
            removed := totals.removed ++ [id] }
          (by
            constructor
            · simp only [creditOf, hgone.1, if_true, hlength, Nat.succ_mul]
              omega
            · simp only [creditOf, hgone.1, if_true, hlength]
              omega)
          (hnext _ rfl)
        refine ⟨totals', ?_, htracks, ?_, hsnapshots, hentries⟩
        · refine Eq.trans ?_ hok
          refine Eq.trans ?_ hrun
          exact if_pos hgone
        · rw [hremoved]
          simp
      · have hsame : cache.creditOf (totals.removed ++ [id]) = cache.creditOf totals.removed := by
          unfold creditOf
          split_ifs with himmediate
          · rw [hlength, if_neg fun hlast => hgone ⟨himmediate, hlast⟩, Nat.add_zero]
          · rfl
        obtain ⟨totals', hok, htracks, hremoved, hsnapshots, hentries⟩ := @ih
          { totals with removed := totals.removed ++ [id] }
          (by
            constructor
            · simp only [hsame]
              exact htotal
            · simp only [hsame]
              exact hcredit)
          (hnext _ rfl)
        refine ⟨totals', ?_, htracks, ?_, hsnapshots, hentries⟩
        · refine Eq.trans ?_ hok
          exact if_neg hgone
        · rw [hremoved]
          simp

/-! ## The loop over the entries -/

section Entries

variable {entries : List PrefixEntryId} {id : PrefixEntryId} {entry : PrefixEntry R.Snapshot}

theorem pagesOf_append (hentry : cache.prefixes[id]? = some entry) :
    cache.pagesOf (entries ++ [id]) = cache.pagesOf entries ++ entry.pages := by
  simp [pagesOf, valuesOf, hentry]

theorem snapshotsOf_append (entries : List PrefixEntryId)
    (hentry : cache.prefixes[id]? = some entry) :
    cache.snapshotsOf (entries ++ [id]) = cache.snapshotsOf entries + entry.snapshotBytes := by
  simp [snapshotsOf, valuesOf, hentry]

theorem count_pagesOf (page : PageId) :
    (cache.pagesOf entries).count page =
      ((valuesOf cache.prefixes entries).map fun entry => entry.pages.count page).sum := by
  rw [pagesOf, List.count_flatMap]
  rfl

theorem mem_pagesOf {page : PageId} : page ∈ cache.pagesOf entries ↔
    ∃ id ∈ entries, ∃ entry, cache.prefixes[id]? = some entry ∧ page ∈ entry.pages := by
  simp only [pagesOf, valuesOf, List.mem_flatMap, List.mem_filterMap]
  constructor
  · rintro ⟨entry, ⟨id, hid, hentry⟩, hpage⟩
    exact ⟨id, hid, entry, hentry, hpage⟩
  · rintro ⟨id, hid, entry, hentry, hpage⟩
    exact ⟨entry, ⟨id, hid, hentry⟩, hpage⟩

/-- Dropping entries drops exactly their references. -/
theorem prefixCount_eraseAll (hnodup : entries.Nodup)
    (hlive : ∀ id ∈ entries, ∃ entry, cache.prefixes[id]? = some entry) (page : PageId) :
    prefixCount cache.prefixes page =
      prefixCount (eraseAll cache.prefixes entries) page + (cache.pagesOf entries).count page := by
  rw [count_pagesOf]
  exact mapTotal_eraseAll _ hnodup hlive

theorem snapshotsOf_le (hcounted : Counted cache) (hnodup : entries.Nodup)
    (hlive : ∀ id ∈ entries, ∃ entry, cache.prefixes[id]? = some entry) :
    cache.snapshotsOf entries ≤ cache.stats.retainedSnapshotBytes := by
  have htotal := mapTotal_eraseAll PrefixEntry.snapshotBytes hnodup hlive
  rw [hcounted.snapshot, htotal]
  exact Nat.le_add_left _ _

end Entries

/-- The totals after planning the evictions `plan`. -/
structure PlanInv (cache : SequenceCache R) (bytes pages snapshots entries : ℕ)
    (plan : List PrefixEntryId) (totals : PlanTotals) : Prop where
  nodup : plan.Nodup
  live : ∀ id ∈ plan, ∃ entry, cache.prefixes[id]? = some entry
  removed : totals.removed = cache.pagesOf plan
  total : totals.total + cache.creditOf totals.removed * cache.pageBytes +
    cache.snapshotsOf plan = bytes
  pages : totals.pages + cache.creditOf totals.removed = pages
  snapshots : totals.snapshots + cache.snapshotsOf plan = snapshots
  entries : totals.entries + plan.length = entries

/-- What `planEvictions` promises about the plan it returns. -/
structure Plan (cache : SequenceCache R) (extraBytes extraPages byteLimit : ℕ)
    (protectedEntry : Option PrefixEntryId) (snapshots entries : ℕ)
    (plan : List PrefixEntryId) : Prop where
  nodup : plan.Nodup
  live : ∀ id ∈ plan, ∃ entry, cache.prefixes[id]? = some entry
  unprotected : ∀ id ∈ plan, some id ≠ protectedEntry
  bytes_le : cache.stats.totalManagedBytes + extraBytes ≤ byteLimit +
    cache.creditOf (cache.pagesOf plan) * cache.pageBytes + cache.snapshotsOf plan
  pages_le : cache.stats.residentPages + cache.stats.reservedPages + extraPages ≤
    cache.pageCapacity + cache.creditOf (cache.pagesOf plan)
  snapshots_le : snapshots ≤ cache.config.maxSnapshotBytes + cache.snapshotsOf plan
  entries_le : entries ≤ cache.config.maxPrefixEntries.getD usizeMax + plan.length

section Loop

variable {orphans : List PageId} {stray : List TokenBlockId}
variable {extraBytes extraPages byteLimit snapshots entries : ℕ}
variable {protectedEntry : Option PrefixEntryId} {plan : List PrefixEntryId}
variable {totals : PlanTotals}

/-- Planning one more entry succeeds, as long as the targets are not used up. -/
theorem planEntry_ok (hinv : Inv orphans stray cache)
    (h : PlanInv cache (cache.stats.totalManagedBytes + extraBytes)
      (cache.stats.residentPages + cache.stats.reservedPages + extraPages) snapshots entries plan
      totals)
    {id : PrefixEntryId} {entry : PrefixEntry R.Snapshot} (hnot : id ∉ plan)
    (hentry : cache.prefixes[id]? = some entry) (hsnapshot : entry.snapshotBytes ≤ totals.snapshots)
    (hcount : 1 ≤ totals.entries) :
    ∃ totals', cache.planEntry entry totals = .ok totals' ∧
      PlanInv cache (cache.stats.totalManagedBytes + extraBytes)
        (cache.stats.residentPages + cache.stats.reservedPages + extraPages) snapshots entries
        (plan ++ [id]) totals' := by
  have hnodup : (plan ++ [id]).Nodup := by
    rw [List.nodup_append]
    refine ⟨h.nodup, List.nodup_singleton id, ?_⟩
    rintro other hother _ hsingle rfl
    rw [List.mem_singleton.mp hsingle] at hother
    exact hnot hother
  have hlive : ∀ other ∈ plan ++ [id], ∃ entry, cache.prefixes[other]? = some entry := by
    intro other hother
    rcases List.mem_append.mp hother with hmem | hmem
    · exact h.live other hmem
    · rw [List.mem_singleton.mp hmem]
      exact ⟨entry, hentry⟩
  have hsum := snapshotsOf_le hinv.counted hnodup hlive
  have happend := snapshotsOf_append plan hentry
  have hsize := size_eraseAll hnodup hlive
  rw [List.length_append, List.length_singleton] at hsize
  have hcharged := hinv.total_eq
  have hresident := hinv.published.resident_le
  have hmul := Nat.mul_le_mul_right cache.pageBytes hresident
  unfold chargedBytes at hcharged
  unfold residentNow at hresident hmul
  rw [Nat.add_mul] at hmul
  have htotal := h.total
  have hsnapshots' := h.snapshots
  have hentries' := h.entries
  obtain ⟨totals', hrun, htracks, hremoved, hsame, hsame'⟩ := @planPages_ok R cache
    (cache.stats.totalManagedBytes + extraBytes - cache.snapshotsOf (plan ++ [id])) _ entry.pages
    { totals with
      total := totals.total - entry.snapshotBytes
      snapshots := totals.snapshots - entry.snapshotBytes
      entries := totals.entries - 1 }
    (by
      constructor
      · simp only
        have hcredit := Nat.mul_le_mul_right cache.pageBytes
          ((creditOf_le cache totals.removed).trans (length_freedBy_le cache totals.removed))
        omega
      · exact h.pages)
    (by omega) (by omega)
    (by
      intro page hpage
      obtain ⟨found, hfound, -⟩ := (hinv.owned.entry id entry hentry).held page hpage
      refine ⟨found, hfound, ?_⟩
      simp only [h.removed]
      rw [← pagesOf_append hentry, (hinv.owned.page page found hfound).prefix_refs,
        prefixCount_eraseAll hnodup hlive]
      exact Nat.le_add_left _ _)
  have hcredit := Nat.mul_le_mul_right cache.pageBytes
    ((creditOf_le cache totals.removed).trans (length_freedBy_le cache totals.removed))
  refine ⟨totals', ?_, hnodup, hlive, ?_, ?_, htracks.pages, ?_, ?_⟩
  · rw [planEntry, checkedSub_of_le (by omega), okOr_some, pure_bind, checkedSub_of_le (by omega),
      okOr_some, pure_bind, checkedSub_of_le (by omega), okOr_some, pure_bind]
    exact hrun
  · rw [hremoved, pagesOf_append hentry]
    simp only [h.removed]
  · have := htracks.total
    omega
  · rw [hsame]
    simp only
    omega
  · rw [hsame', List.length_append, List.length_singleton]
    simp only
    omega

/-- A target that is used up stops the planning. -/
theorem planEntry_error {entry : PrefixEntry R.Snapshot}
    (h : ¬ (entry.snapshotBytes ≤ totals.snapshots ∧ 1 ≤ totals.entries)) :
    cache.planEntry entry totals = .error
      (if entry.snapshotBytes ≤ totals.snapshots ∧ entry.snapshotBytes ≤ totals.total then
        .panic "attempt to subtract with overflow" else .error .arithmeticOverflow) := by
  unfold planEntry
  by_cases hsnapshots : entry.snapshotBytes ≤ totals.snapshots
  · rw [checkedSub_of_le hsnapshots, okOr_some, pure_bind]
    by_cases htotal : entry.snapshotBytes ≤ totals.total
    · have hentries : checkedSub totals.entries 1 = none := by
        unfold checkedSub
        rw [if_neg (fun hle => h ⟨hsnapshots, hle⟩)]
      rw [checkedSub_of_le htotal, okOr_some, pure_bind, hentries, if_pos ⟨hsnapshots, htotal⟩]
      rfl
    · have hnone : checkedSub totals.total entry.snapshotBytes = none := by
        unfold checkedSub
        rw [if_neg htotal]
      rw [hnone, if_neg (fun hboth => htotal hboth.2)]
      rfl
  · have hnone : checkedSub totals.snapshots entry.snapshotBytes = none := by
      unfold checkedSub
      rw [if_neg hsnapshots]
    rw [hnone, if_neg (fun hboth => hsnapshots hboth.1)]
    rfl

/-- Entries that may be evicted, the least recently used first. -/
def candidates (cache : SequenceCache R) (protectedEntry : Option PrefixEntryId) :
    List PrefixEntryId :=
  cache.recency.filter fun id => some id ≠ protectedEntry

/-- After evicting `plan`, the requested totals fit every limit. -/
def accommodates (cache : SequenceCache R) (extraBytes extraPages byteLimit snapshots entries : ℕ)
    (plan : List PrefixEntryId) : Bool :=
  cache.stats.totalManagedBytes + extraBytes ≤ byteLimit +
      cache.creditOf (cache.pagesOf plan) * cache.pageBytes + cache.snapshotsOf plan &&
    cache.stats.residentPages + cache.stats.reservedPages + extraPages ≤
      cache.pageCapacity + cache.creditOf (cache.pagesOf plan) &&
    snapshots ≤ cache.config.maxSnapshotBytes + cache.snapshotsOf plan &&
    entries ≤ cache.config.maxPrefixEntries.getD usizeMax + plan.length

theorem PlanInv.fits_eq (h : PlanInv cache (cache.stats.totalManagedBytes + extraBytes)
      (cache.stats.residentPages + cache.stats.reservedPages + extraPages) snapshots entries plan
      totals) :
    totals.fits cache byteLimit =
      cache.accommodates extraBytes extraPages byteLimit snapshots entries plan := by
  have htotal := h.total
  have hpages := h.pages
  have hsnapshots := h.snapshots
  have hentries := h.entries
  rw [h.removed] at htotal hpages
  unfold PlanTotals.fits accommodates
  congr 1
  · congr 1
    · congr 1
      · exact decide_eq_decide.mpr (by omega)
      · exact decide_eq_decide.mpr (by omega)
    · exact decide_eq_decide.mpr (by omega)
  · exact decide_eq_decide.mpr (by omega)

/-- The loop stops at the first plan that makes enough room, or at a target below what is
retained. -/
theorem planLoop_cases (hinv : Inv orphans stray cache) (ids : List PrefixEntryId)
    (h : PlanInv cache (cache.stats.totalManagedBytes + extraBytes)
      (cache.stats.residentPages + cache.stats.reservedPages + extraPages) snapshots entries plan
      totals)
    (hnodup : (plan ++ ids).Nodup)
    (hlive : ∀ id ∈ ids, ∃ entry, cache.prefixes[id]? = some entry) :
    cache.planLoop byteLimit protectedEntry ids plan totals =
        .ok (((ids.filter fun id => some id ≠ protectedEntry).inits.tail.map (plan ++ ·)).find?
          (cache.accommodates extraBytes extraPages byteLimit snapshots entries)) ∨
      (∃ failure, cache.planLoop byteLimit protectedEntry ids plan totals = .error failure) ∧
        (snapshots < cache.stats.retainedSnapshotBytes ∨ entries < cache.prefixes.size) := by
  induction ids generalizing plan totals with
  | nil => exact Or.inl rfl
  | cons id rest ih =>
      have hrest : ∀ id ∈ rest, ∃ entry, cache.prefixes[id]? = some entry :=
        fun other hmem => hlive other (List.mem_cons_of_mem _ hmem)
      rw [planLoop]
      by_cases hprotected : some id = protectedEntry
      · rw [if_pos hprotected, List.filter_cons_of_neg (by simpa using hprotected)]
        refine ih h ?_ hrest
        exact hnodup.sublist (List.Sublist.append_left (List.sublist_cons_self id rest) plan)
      rw [if_neg hprotected, List.filter_cons_of_pos (by simpa using hprotected)]
      obtain ⟨entry, hentry⟩ := hlive id (by simp)
      have hnot : id ∉ plan := fun hmem => List.disjoint_of_nodup_append hnodup hmem (by simp)
      rw [hentry, okOr_some, pure_bind]
      by_cases htargets : entry.snapshotBytes ≤ totals.snapshots ∧ 1 ≤ totals.entries
      · obtain ⟨totals', hrun, hplan⟩ := planEntry_ok hinv h hnot hentry htargets.1 htargets.2
        have hnext := ih hplan (by simpa using hnodup) hrest
        rw [except_bind_ok hrun, hplan.fits_eq, List.inits_cons, List.tail_cons, List.map_map]
        rw [show (List.filter (fun id => decide (some id ≠ protectedEntry)) rest).inits =
          [] :: (List.filter (fun id => decide (some id ≠ protectedEntry)) rest).inits.tail by
            cases List.filter (fun id => decide (some id ≠ protectedEntry)) rest <;> simp]
        rw [List.map_cons, List.find?_cons]
        simp only [Function.comp_apply]
        cases hfits : cache.accommodates extraBytes extraPages byteLimit snapshots entries
            (plan ++ [id]) with
        | true => exact Or.inl rfl
        | false =>
            simp only [Bool.false_eq_true, if_false]
            simpa only [Function.comp_def, List.append_assoc, List.singleton_append] using hnext
      · refine Or.inr ⟨?_, ?_⟩
        · refine ⟨_, except_bind_error (planEntry_error htargets)⟩
        · have hnodup' : (plan ++ [id]).Nodup :=
            hnodup.sublist (List.Sublist.append_left (by simp) plan)
          have hlive' : ∀ other ∈ plan ++ [id], ∃ entry, cache.prefixes[other]? = some entry := by
            intro other hother
            rcases List.mem_append.mp hother with hmem | hmem
            · exact h.live other hmem
            · rw [List.mem_singleton.mp hmem]
              exact ⟨entry, hentry⟩
          have hsum := snapshotsOf_le hinv.counted hnodup' hlive'
          have happend := snapshotsOf_append plan hentry
          have hsize := size_eraseAll hnodup' hlive'
          rw [List.length_append, List.length_singleton] at hsize
          have hsnapshots := h.snapshots
          have hentries := h.entries
          omega

theorem mem_candidates (hinv : Inv orphans stray cache) {id : PrefixEntryId} :
    id ∈ cache.candidates protectedEntry ↔
      (∃ entry, cache.prefixes[id]? = some entry) ∧ some id ≠ protectedEntry := by
  unfold candidates
  rw [List.mem_filter, mem_recency hinv.ranked, decide_eq_true_iff]

theorem candidates_nodup (hinv : Inv orphans stray cache)
    (protectedEntry : Option PrefixEntryId) : (cache.candidates protectedEntry).Nodup :=
  (nodup_recency hinv.ranked).filter _

/-- An initial segment of the candidates that makes enough room is a plan. -/
theorem Plan.ofAccommodates (hinv : Inv orphans stray cache)
    (hsegment : plan <+: cache.candidates protectedEntry)
    (h : cache.accommodates extraBytes extraPages byteLimit snapshots entries plan = true) :
    Plan cache extraBytes extraPages byteLimit protectedEntry snapshots entries plan := by
  simp only [accommodates, Bool.and_eq_true, decide_eq_true_eq] at h
  obtain ⟨⟨⟨hbytes, hpages⟩, hsnapshots⟩, hentries⟩ := h
  have hmem : ∀ id ∈ plan, (∃ entry, cache.prefixes[id]? = some entry) ∧
      some id ≠ protectedEntry :=
    fun id hid => (mem_candidates hinv).mp (hsegment.subset hid)
  exact ⟨(candidates_nodup hinv protectedEntry).sublist hsegment.sublist,
    fun id hid => (hmem id hid).1, fun id hid => (hmem id hid).2, hbytes, hpages, hsnapshots,
    hentries⟩

/-- The sums at the start of a plan fit a machine word, and its targets are not below what
is retained. -/
structure SumsFit (cache : SequenceCache R) (extraBytes extraPages snapshots entries : ℕ) :
    Prop where
  bytes : cache.stats.totalManagedBytes + extraBytes ≤ usizeMax
  pages : cache.stats.residentPages + cache.stats.reservedPages + extraPages ≤ usizeMax
  snapshots : cache.stats.retainedSnapshotBytes ≤ snapshots
  entries : cache.prefixes.size ≤ entries

/-- Sums that do not fit a machine word are reported. -/
theorem planEvictions_overflow {targetSnapshotBytes targetEntryCount : Option ℕ}
    (h : usizeMax < cache.stats.totalManagedBytes + extraBytes ∨
      usizeMax < cache.stats.residentPages + cache.stats.reservedPages + extraPages) :
    cache.planEvictions extraBytes extraPages byteLimit protectedEntry targetSnapshotBytes
      targetEntryCount = .error (.error .arithmeticOverflow) := by
  unfold planEvictions
  by_cases hbytes : cache.stats.totalManagedBytes + extraBytes ≤ usizeMax
  · have hpages := h.resolve_left (Nat.not_lt.mpr hbytes)
    have hnone : ((checkedAdd cache.stats.residentPages cache.stats.reservedPages).bind fun pages =>
        checkedAdd pages extraPages) = none := by
      cases hsum : checkedAdd cache.stats.residentPages cache.stats.reservedPages with
      | none => rfl
      | some sum =>
          obtain ⟨-, rfl⟩ := checkedAdd_eq_some.mp hsum
          simp [checkedAdd, Nat.not_le.mpr hpages]
    rw [checkedAdd_of_le hbytes, okOr_some, pure_bind, hnone]
    rfl
  · have hnone : checkedAdd cache.stats.totalManagedBytes extraBytes = none := by
      simp [checkedAdd, hbytes]
    rw [hnone]
    rfl

/-- The running totals of a plan start from the requested totals. -/
def startTotals (cache : SequenceCache R) (extraBytes extraPages snapshots entries : ℕ) :
    PlanTotals where
  total := cache.stats.totalManagedBytes + extraBytes
  pages := cache.stats.residentPages + cache.stats.reservedPages + extraPages
  snapshots := snapshots
  entries := entries
  removed := []

theorem startTotals_inv (cache : SequenceCache R)
    (extraBytes extraPages snapshots entries : ℕ) :
    PlanInv cache (cache.stats.totalManagedBytes + extraBytes)
      (cache.stats.residentPages + cache.stats.reservedPages + extraPages) snapshots entries []
      (cache.startTotals extraBytes extraPages snapshots entries) := by
  have hzero : cache.creditOf [] = 0 := by
    unfold creditOf freedBy
    simp
  constructor
  · exact List.nodup_nil
  · simp
  · rfl
  · simp [startTotals, hzero, snapshotsOf, valuesOf]
  · simp [startTotals, hzero]
  · simp [startTotals, snapshotsOf, valuesOf]
  · simp [startTotals]

/-- A plan is the shortest initial segment of the candidates that makes enough room. -/
theorem planEvictions_search (hinv : Inv orphans stray cache)
    (targetSnapshotBytes targetEntryCount : Option ℕ) :
    cache.planEvictions extraBytes extraPages byteLimit protectedEntry targetSnapshotBytes
        targetEntryCount = .ok ((cache.candidates protectedEntry).inits.find?
          (cache.accommodates extraBytes extraPages byteLimit
            (targetSnapshotBytes.getD cache.stats.retainedSnapshotBytes)
            (targetEntryCount.getD cache.prefixes.size))) ∨
      (∃ failure, cache.planEvictions extraBytes extraPages byteLimit protectedEntry
          targetSnapshotBytes targetEntryCount = .error failure) ∧
        ¬ SumsFit cache extraBytes extraPages
          (targetSnapshotBytes.getD cache.stats.retainedSnapshotBytes)
          (targetEntryCount.getD cache.prefixes.size) := by
  by_cases hbytes : cache.stats.totalManagedBytes + extraBytes ≤ usizeMax
  · by_cases hpages : cache.stats.residentPages + cache.stats.reservedPages + extraPages ≤ usizeMax
    · have hstart := cache.startTotals_inv extraBytes extraPages
        (targetSnapshotBytes.getD cache.stats.retainedSnapshotBytes)
        (targetEntryCount.getD cache.prefixes.size)
      have hloop := @planLoop_cases R cache orphans stray extraBytes extraPages byteLimit _ _
        protectedEntry [] _ hinv cache.recency hstart
        (by simpa using nodup_recency hinv.ranked)
        (fun id hmem => (mem_recency hinv.ranked).mp hmem)
      have hrun : cache.planEvictions extraBytes extraPages byteLimit protectedEntry
          targetSnapshotBytes targetEntryCount =
          if (cache.startTotals extraBytes extraPages
            (targetSnapshotBytes.getD cache.stats.retainedSnapshotBytes)
            (targetEntryCount.getD cache.prefixes.size)).fits cache byteLimit = true then
            .ok (some [])
          else cache.planLoop byteLimit protectedEntry cache.recency [] (cache.startTotals
            extraBytes extraPages (targetSnapshotBytes.getD cache.stats.retainedSnapshotBytes)
            (targetEntryCount.getD cache.prefixes.size)) := by
        unfold planEvictions
        rw [checkedAdd_of_le hbytes, okOr_some, pure_bind, checkedAdd_of_le (by omega),
          Option.bind_some, checkedAdd_of_le hpages, okOr_some, pure_bind]
        rfl
      have hinits : (cache.candidates protectedEntry).inits =
          [] :: (cache.candidates protectedEntry).inits.tail := by
        cases cache.candidates protectedEntry <;> simp
      rw [hrun, hstart.fits_eq, hinits, List.find?_cons]
      cases hfits : cache.accommodates extraBytes extraPages byteLimit
          (targetSnapshotBytes.getD cache.stats.retainedSnapshotBytes)
          (targetEntryCount.getD cache.prefixes.size) [] with
      | true => exact Or.inl rfl
      | false =>
          simp only [Bool.false_eq_true, if_false]
          rcases hloop with hok | ⟨herror, htargets⟩
          · simp only [List.nil_append, List.map_id'] at hok
            exact Or.inl hok
          · refine Or.inr ⟨herror, fun hsums => ?_⟩
            have hsnapshots := hsums.snapshots
            have hentries := hsums.entries
            omega
    · exact Or.inr ⟨⟨_, planEvictions_overflow (Or.inr (Nat.not_le.mp hpages))⟩,
        fun hsums => hpages hsums.pages⟩
  · exact Or.inr ⟨⟨_, planEvictions_overflow (Or.inl (Nat.not_le.mp hbytes))⟩,
      fun hsums => hbytes hsums.bytes⟩

/-! ### The totals of a plan -/

/-- The running totals after the listed entries are planned for eviction. -/
def planTotals (cache : SequenceCache R) :
    List PrefixEntryId → PlanTotals → CacheResult R PlanTotals
  | [], totals => pure totals
  | id :: rest, totals => do
      let entry ← okOr cache.prefixes[id]? (.panic "no entry found for key")
      let totals ← cache.planEntry entry totals
      cache.planTotals rest totals

/-- A plan that the loop returns was found to fit by its totals. -/
theorem planLoop_totals {ids : List PrefixEntryId} {result : List PrefixEntryId}
    (h : cache.planLoop byteLimit protectedEntry ids plan totals = .ok (some result)) :
    ∃ added totals', result = plan ++ added ∧ cache.planTotals added totals = .ok totals' ∧
      totals'.fits cache byteLimit = true := by
  induction ids generalizing plan totals with
  | nil => cases h
  | cons id rest ih =>
      rw [planLoop] at h
      split_ifs at h with hprotected
      · exact ih h
      · obtain ⟨entry, hentry, h⟩ := okOr_bind_eq_ok.mp h
        cases hplanned : cache.planEntry entry totals with
        | error failure =>
            rw [except_bind_error hplanned] at h
            cases h
        | ok next =>
            rw [except_bind_ok hplanned] at h
            split_ifs at h with hfits
            · cases h
              refine ⟨[id], next, rfl, ?_, hfits⟩
              rw [planTotals, hentry, okOr_some, pure_bind, except_bind_ok hplanned]
              rfl
            · obtain ⟨added, totals', rfl, htotals, hfits'⟩ := ih h
              refine ⟨id :: added, totals', by simp, ?_, hfits'⟩
              rw [planTotals, hentry, okOr_some, pure_bind, except_bind_ok hplanned]
              exact htotals

theorem planEvictions_totals {targetSnapshotBytes targetEntryCount : Option ℕ}
    (h : cache.planEvictions extraBytes extraPages byteLimit protectedEntry targetSnapshotBytes
      targetEntryCount = .ok (some plan)) :
    ∃ totals, cache.planTotals plan (cache.startTotals extraBytes extraPages
        (targetSnapshotBytes.getD cache.stats.retainedSnapshotBytes)
        (targetEntryCount.getD cache.prefixes.size)) = .ok totals ∧
      totals.fits cache byteLimit = true := by
  unfold planEvictions at h
  obtain ⟨bytes, hbytes, h⟩ := okOr_bind_eq_ok.mp h
  obtain ⟨pages, hpages, h⟩ := okOr_bind_eq_ok.mp h
  obtain ⟨-, rfl⟩ := checkedAdd_eq_some.mp hbytes
  obtain ⟨held, hheld, hpages⟩ := Option.bind_eq_some_iff.mp hpages
  obtain ⟨-, rfl⟩ := checkedAdd_eq_some.mp hheld
  obtain ⟨-, rfl⟩ := checkedAdd_eq_some.mp hpages
  simp only at h
  split_ifs at h with hfits
  · cases h
    exact ⟨_, rfl, hfits⟩
  · obtain ⟨added, totals, rfl, htotals, hfits'⟩ := planLoop_totals h
    exact ⟨totals, htotals, hfits'⟩

/-- The totals of a plan count what its entries hold. -/
theorem PlanInv.planTotals (hinv : Inv orphans stray cache) {ids : List PrefixEntryId}
    {totals' : PlanTotals}
    (h : PlanInv cache (cache.stats.totalManagedBytes + extraBytes)
      (cache.stats.residentPages + cache.stats.reservedPages + extraPages) snapshots entries plan
      totals)
    (hnodup : (plan ++ ids).Nodup) (htotals : cache.planTotals ids totals = .ok totals') :
    PlanInv cache (cache.stats.totalManagedBytes + extraBytes)
      (cache.stats.residentPages + cache.stats.reservedPages + extraPages) snapshots entries
      (plan ++ ids) totals' := by
  induction ids generalizing plan totals with
  | nil =>
      cases htotals
      simpa using h
  | cons id rest ih =>
      obtain ⟨entry, hentry, htotals⟩ := okOr_bind_eq_ok.mp htotals
      have hnot : id ∉ plan := fun hmem => List.disjoint_of_nodup_append hnodup hmem (by simp)
      by_cases htargets : entry.snapshotBytes ≤ totals.snapshots ∧ 1 ≤ totals.entries
      · obtain ⟨next, hplanned, hnext⟩ := planEntry_ok hinv h hnot hentry htargets.1 htargets.2
        rw [except_bind_ok hplanned] at htotals
        simpa using ih hnext (by simpa using hnodup) htotals
      · rw [except_bind_error (planEntry_error htargets)] at htotals
        cases htotals

/-- Evicting more entries frees no fewer pages. -/
theorem freedBy_subset (hinv : Inv orphans stray cache) {longer : List PrefixEntryId}
    (hsegment : plan <+: longer) (hnodup : longer.Nodup)
    (hlive : ∀ id ∈ longer, ∃ entry, cache.prefixes[id]? = some entry) :
    cache.freedBy (cache.pagesOf plan) ⊆ cache.freedBy (cache.pagesOf longer) := by
  intro id hmem
  obtain ⟨rest, rfl⟩ := hsegment
  have hsplit := pagesOf_append_eq cache plan rest
  have hremoved : id ∈ cache.pagesOf plan := List.mem_dedup.mp (List.mem_filter.mp hmem).1
  obtain ⟨owner, howner, entry, hentry, hpage⟩ := mem_pagesOf.mp hremoved
  obtain ⟨page, hfound, -⟩ := (hinv.owned.entry owner entry hentry).held id hpage
  obtain ⟨-, hactive, hrefs⟩ := (mem_freedBy hfound).mp hmem
  have hcount := prefixCount_eraseAll hnodup hlive id
  rw [← (hinv.owned.page id page hfound).prefix_refs] at hcount
  refine (mem_freedBy hfound).mpr ⟨?_, hactive, ?_⟩
  · rw [hsplit]
    exact List.mem_append_left _ hremoved
  · rw [hsplit, List.count_append] at hcount ⊢
    omega

/-- When an initial segment of the candidates makes enough room, so do all of them. -/
theorem accommodates_candidates (hinv : Inv orphans stray cache)
    (hsegment : plan <+: cache.candidates protectedEntry)
    (h : cache.accommodates extraBytes extraPages byteLimit snapshots entries plan = true) :
    cache.accommodates extraBytes extraPages byteLimit snapshots entries
      (cache.candidates protectedEntry) = true := by
  have hfreed := ((List.subperm_of_subset (nodup_freedBy cache _)
    (freedBy_subset hinv hsegment (candidates_nodup hinv protectedEntry)
      fun id hmem => ((mem_candidates hinv).mp hmem).1))).length_le
  have hcredit : cache.creditOf (cache.pagesOf plan) ≤
      cache.creditOf (cache.pagesOf (cache.candidates protectedEntry)) := by
    unfold creditOf
    split_ifs
    · exact hfreed
    · exact le_rfl
  have hbytes := Nat.mul_le_mul_right cache.pageBytes hcredit
  have hsnapshots : cache.snapshotsOf plan ≤
      cache.snapshotsOf (cache.candidates protectedEntry) := by
    obtain ⟨rest, hrest⟩ := hsegment
    rw [← hrest]
    simp [snapshotsOf, valuesOf]
  have hlength := hsegment.length_le
  simp only [accommodates, Bool.and_eq_true, decide_eq_true_eq] at h ⊢
  omega

/-- Planning looks at the statistics, the entries and their pages only. -/
theorem planEvictions_congr {cache' : SequenceCache R} {stray' : List TokenBlockId}
    (hinv : Inv orphans stray cache) (hinv' : Inv orphans stray' cache')
    (hstate : cache' = { cache with index := cache'.index })
    (targetSnapshotBytes targetEntryCount : Option ℕ)
    (hsnapshots : cache.stats.retainedSnapshotBytes ≤
      targetSnapshotBytes.getD cache.stats.retainedSnapshotBytes)
    (hentries : cache.prefixes.size ≤ targetEntryCount.getD cache.prefixes.size) :
    cache'.planEvictions extraBytes extraPages byteLimit protectedEntry targetSnapshotBytes
        targetEntryCount =
      cache.planEvictions extraBytes extraPages byteLimit protectedEntry targetSnapshotBytes
        targetEntryCount := by
  generalize cache'.index = index at hstate
  subst hstate
  by_cases hover : usizeMax < cache.stats.totalManagedBytes + extraBytes ∨
      usizeMax < cache.stats.residentPages + cache.stats.reservedPages + extraPages
  · rw [planEvictions_overflow hover]
    exact planEvictions_overflow hover
  have hsums : SumsFit cache extraBytes extraPages
      (targetSnapshotBytes.getD cache.stats.retainedSnapshotBytes)
      (targetEntryCount.getD cache.prefixes.size) :=
    ⟨by omega, by omega, hsnapshots, hentries⟩
  have hsearch := (@planEvictions_search R cache orphans stray extraBytes extraPages byteLimit
    protectedEntry hinv targetSnapshotBytes targetEntryCount).resolve_right
    fun h => h.2 hsums
  have hsearch' := (@planEvictions_search R { cache with index := index } orphans stray' extraBytes
    extraPages byteLimit protectedEntry hinv' targetSnapshotBytes targetEntryCount).resolve_right
    fun h => h.2 ⟨hsums.bytes, hsums.pages, hsums.snapshots, hsums.entries⟩
  rw [hsearch]
  exact hsearch'

/-- A plan fails only when the requested totals do not fit a machine word. -/
theorem planEvictions_cases (hinv : Inv orphans stray cache)
    (targetSnapshotBytes targetEntryCount : Option ℕ)
    (hsnapshots : cache.stats.retainedSnapshotBytes ≤
      targetSnapshotBytes.getD cache.stats.retainedSnapshotBytes)
    (hentries : cache.prefixes.size ≤ targetEntryCount.getD cache.prefixes.size) :
    ((usizeMax < cache.stats.totalManagedBytes + extraBytes ∨
        usizeMax < cache.stats.residentPages + cache.stats.reservedPages + extraPages) ∧
      cache.planEvictions extraBytes extraPages byteLimit protectedEntry targetSnapshotBytes
        targetEntryCount = .error (.error .arithmeticOverflow)) ∨
    ∃ result, cache.planEvictions extraBytes extraPages byteLimit protectedEntry
        targetSnapshotBytes targetEntryCount = .ok result ∧
      ∀ plan, result = some plan →
        Plan cache extraBytes extraPages byteLimit protectedEntry
          (targetSnapshotBytes.getD cache.stats.retainedSnapshotBytes)
          (targetEntryCount.getD cache.prefixes.size) plan := by
  by_cases hover : usizeMax < cache.stats.totalManagedBytes + extraBytes ∨
      usizeMax < cache.stats.residentPages + cache.stats.reservedPages + extraPages
  · exact Or.inl ⟨hover, planEvictions_overflow hover⟩
  refine Or.inr ?_
  rcases @planEvictions_search R cache orphans stray extraBytes extraPages byteLimit
    protectedEntry hinv targetSnapshotBytes targetEntryCount with hok | ⟨-, hsums⟩
  · refine ⟨_, hok, fun plan hplan => ?_⟩
    obtain ⟨hsegment, hroom, -⟩ := find?_inits_eq_some.mp hplan
    exact Plan.ofAccommodates hinv hsegment hroom
  · exact absurd ⟨by omega, by omega, hsnapshots, hentries⟩ hsums

end Loop

end SequenceCache

end SeqCache
