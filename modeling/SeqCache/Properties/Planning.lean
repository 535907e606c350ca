import SeqCache.Run.Reachable

/-!
# Plans are exact

A plan is the shortest initial segment of the LRU order after whose eviction everything
fits, and there is no plan only when evicting every candidate is not enough.  The totals
that planning computes are the statistics after the evictions, as far as the backend
retires at once.
-/

namespace SeqCache

open Machine Program Std

variable {R : Runtime}

namespace SequenceCache

/-- The statistics after evictions, with what the plan was made for, stand in the relation
to the totals of the plan.  `snapshots` and `entries` are the targets of the plan. -/
structure Predicts (relation : ℕ → ℕ → Prop) (cache cache' : SequenceCache R)
    (extraBytes extraPages snapshots entries : ℕ) (totals : PlanTotals) : Prop where
  bytes : relation (cache'.stats.totalManagedBytes + extraBytes) totals.total
  pages : relation (cache'.stats.residentPages + cache'.stats.reservedPages + extraPages)
    totals.pages
  snapshots : relation (cache'.stats.retainedSnapshotBytes + snapshots)
    (totals.snapshots + cache.stats.retainedSnapshotBytes)
  entries : relation (cache'.prefixes.size + entries) (totals.entries + cache.prefixes.size)

/-- The pages of the entry and of all sequences are still there. -/
structure Spares (cache cache' : SequenceCache R) (protectedEntry : Option PrefixEntryId) :
    Prop where
  entry : ∀ id entry, protectedEntry = some id → cache.prefixes[id]? = some entry →
    ∀ page ∈ entry.pages, ∃ record, cache'.pages.get? page = some record
  sequence : ∀ sequence record, cache.sequences.get? sequence = some record →
    ∀ page ∈ record.heldPages, ∃ record', cache'.pages.get? page = some record'

section Prediction

variable {cache cache' : SequenceCache R} {stray : List TokenBlockId}
variable {extraBytes extraPages snapshots entries : ℕ} {plan : List PrefixEntryId}
variable {totals : PlanTotals} {context : R.Context} {retired : List PageId}
variable {physical : List R.Page} {deferred : ℕ}

/-- The pages that the backend has not taken back when a plan is carried out, against what
the plan has counted as free. -/
theorem Evicted.resident_eq (h : Evicted cache cache' plan context retired physical deferred)
    (hinv : Inv [] stray cache) (hinv' : Inv [] stray cache') :
    cache'.stats.residentPages + (cache.freedBy (cache.pagesOf plan)).length =
      cache.stats.residentPages + deferred := by
  have hlength := h.length_pages
  have hdeferred := h.deferredPages
  rw [hinv.published.resident_eq rfl, hinv'.published.resident_eq rfl, residentNow, residentNow,
    ← h.retired_perm.length_eq]
  omega

theorem Evicted.bytes_eq (h : Evicted cache cache' plan context retired physical deferred)
    (hinv : Inv [] stray cache) (hinv' : Inv [] stray cache') :
    cache'.stats.totalManagedBytes +
        (cache.freedBy (cache.pagesOf plan)).length * cache.pageBytes + cache.snapshotsOf plan =
      cache.stats.totalManagedBytes + deferred * cache.pageBytes := by
  have hresident := congrArg (· * cache.pageBytes) (h.resident_eq hinv hinv')
  have htotal := hinv.total_eq
  have htotal' := hinv'.total_eq
  have hsnapshots := h.snapshotBytes
  unfold chargedBytes at htotal htotal'
  rw [h.pageBytes, h.reservedPages, h.privateStateBytes, h.pageTableBytes] at htotal'
  simp only [Nat.add_mul] at hresident
  omega

variable (h : Evicted cache cache' plan context retired physical deferred)
  (hplan : PlanInv cache (cache.stats.totalManagedBytes + extraBytes)
    (cache.stats.residentPages + cache.stats.reservedPages + extraPages) snapshots entries plan
    totals)

include h hplan

theorem Evicted.predicts {relation : ℕ → ℕ → Prop} [Std.Refl relation]
    (hbytes : relation (cache'.stats.totalManagedBytes + extraBytes) totals.total)
    (hpages : relation (cache'.stats.residentPages + cache'.stats.reservedPages + extraPages)
      totals.pages) :
    Predicts relation cache cache' extraBytes extraPages snapshots entries totals := by
  refine ⟨hbytes, hpages, ?_, ?_⟩
  · have hsnapshots : cache'.stats.retainedSnapshotBytes + snapshots =
        totals.snapshots + cache.stats.retainedSnapshotBytes := by
      have := h.snapshotBytes
      have := hplan.snapshots
      omega
    rw [hsnapshots]
    exact refl _
  · have hentries : cache'.prefixes.size + entries = totals.entries + cache.prefixes.size := by
      have := size_eraseAll hplan.nodup hplan.live
      have := hplan.entries
      rw [h.prefixes]
      omega
    rw [hentries]
    exact refl _

/-- When pages may come back late, the totals of a plan bound the statistics after it. -/
theorem Evicted.predicts_le (hinv : Inv [] stray cache) (hinv' : Inv [] stray cache')
    (hlate : R.retirementIsImmediate cache.backend = false) :
    Predicts (· ≤ ·) cache cache' extraBytes extraPages snapshots entries totals := by
  have hcredit : cache.creditOf totals.removed = 0 := by
    simp [creditOf, hlate]
  have hdeferred := h.deferred_le
  rw [h.retired_perm.length_eq] at hdeferred
  have hmul := Nat.mul_le_mul_right cache.pageBytes hdeferred
  refine h.predicts hplan ?_ ?_
  · have hbytes := h.bytes_eq hinv hinv'
    have htotal := hplan.total
    rw [hcredit, Nat.zero_mul] at htotal
    omega
  · have hresident := h.resident_eq hinv hinv'
    have hpages := hplan.pages
    rw [hcredit] at hpages
    rw [h.reservedPages]
    omega

/-- When pages come back at once, the totals of a plan are the statistics after it. -/
theorem Evicted.predicts_eq (hinv : Inv [] stray cache) (hinv' : Inv [] stray cache')
    (hhonest : R.ImmediateHonest) (himmediate : R.retirementIsImmediate cache.backend = true) :
    Predicts (· = ·) cache cache' extraBytes extraPages snapshots entries totals := by
  have hcredit : cache.creditOf totals.removed =
      (cache.freedBy (cache.pagesOf plan)).length := by
    simp [creditOf, himmediate, hplan.removed]
  have hdeferred := h.retirement.deferred_of_immediate hhonest (.refl _) himmediate
  refine h.predicts hplan ?_ ?_
  · have hbytes := h.bytes_eq hinv hinv'
    have htotal := hplan.total
    rw [hcredit] at htotal
    rw [hdeferred, Nat.zero_mul] at hbytes
    omega
  · have hresident := h.resident_eq hinv hinv'
    have hpages := hplan.pages
    rw [hcredit] at hpages
    rw [h.reservedPages]
    omega

omit hplan in
theorem Evicted.spares (hinv' : Inv [] stray cache') {protectedEntry : Option PrefixEntryId}
    (hspared : ∀ id ∈ plan, some id ≠ protectedEntry) : Spares cache cache' protectedEntry where
  entry := by
    intro id entry hid hentry page hpage
    have hkept : cache'.prefixes[id]? = some entry := by
      rw [h.prefixes, getElem?_eraseAll, if_neg fun hmem => hspared id hmem hid.symm]
      exact hentry
    obtain ⟨record, hrecord, -⟩ := (hinv'.owned.entry id entry hkept).held page hpage
    exact ⟨record, hrecord⟩
  sequence := by
    intro sequence record hrecord page hpage
    rw [← h.sequences] at hrecord
    obtain ⟨found, hfound, -⟩ := (hinv'.owned.sequence sequence record hrecord).live hpage
    exact ⟨found, hfound⟩

end Prediction

/-- What planning evictions for the given arguments does in the state `cache`. -/
structure PlansExactly (cache : SequenceCache R) (extraBytes extraPages byteLimit : ℕ)
    (protectedEntry : Option PrefixEntryId) (snapshots entries : ℕ)
    (result : Option (List PrefixEntryId)) : Prop where
  shortest : ∀ plan, result = some plan ↔ plan <+: cache.candidates protectedEntry ∧
    cache.accommodates extraBytes extraPages byteLimit snapshots entries plan = true ∧
    ∀ shorter, shorter <+: cache.candidates protectedEntry → shorter.length < plan.length →
      cache.accommodates extraBytes extraPages byteLimit snapshots entries shorter = false
  complete : result = none ↔ cache.accommodates extraBytes extraPages byteLimit snapshots entries
    (cache.candidates protectedEntry) = false
  computed : ∀ plan, result = some plan → ∃ totals, cache.planTotals plan
    (cache.startTotals extraBytes extraPages snapshots entries) = .ok totals
  predicted : ∀ plan totals, plan <+: cache.candidates protectedEntry →
    cache.planTotals plan (cache.startTotals extraBytes extraPages snapshots entries) =
      .ok totals →
    totals.fits cache byteLimit =
        cache.accommodates extraBytes extraPages byteLimit snapshots entries plan ∧
      ∀ context cache', commitEvictions plan context cache = .ok () cache' →
        (R.retirementIsImmediate cache.backend = false →
          Predicts (· ≤ ·) cache cache' extraBytes extraPages snapshots entries totals) ∧
        (R.ImmediateHonest → R.retirementIsImmediate cache.backend = true →
          Predicts (· = ·) cache cache' extraBytes extraPages snapshots entries totals) ∧
        Spares cache cache' protectedEntry

theorem plansExactly (hlaw : R.Retires) {cache : SequenceCache R} {stray : List TokenBlockId}
    (hinv : Inv [] stray cache) {extraBytes extraPages byteLimit : ℕ}
    {protectedEntry : Option PrefixEntryId} {targetSnapshotBytes targetEntryCount : Option ℕ}
    {result : Option (List PrefixEntryId)}
    (h : cache.planEvictions extraBytes extraPages byteLimit protectedEntry targetSnapshotBytes
      targetEntryCount = .ok result) :
    PlansExactly cache extraBytes extraPages byteLimit protectedEntry
      (targetSnapshotBytes.getD cache.stats.retainedSnapshotBytes)
      (targetEntryCount.getD cache.prefixes.size) result := by
  have hresult : result = (cache.candidates protectedEntry).inits.find?
      (cache.accommodates extraBytes extraPages byteLimit
        (targetSnapshotBytes.getD cache.stats.retainedSnapshotBytes)
        (targetEntryCount.getD cache.prefixes.size)) := by
    rcases planEvictions_search hinv targetSnapshotBytes targetEntryCount with
      hsearch | ⟨⟨failure, hfailure⟩, -⟩
    · exact Except.ok.inj (h.symm.trans hsearch)
    · rw [hfailure] at h
      cases h
  constructor
  case shortest =>
    intro plan
    rw [hresult]
    exact find?_inits_eq_some
  case complete =>
    rw [hresult]
    exact find?_inits_eq_none fun shorter hsegment => accommodates_candidates hinv hsegment
  case computed =>
    rintro plan rfl
    obtain ⟨totals, htotals, -⟩ := planEvictions_totals h
    exact ⟨totals, htotals⟩
  case predicted =>
    intro plan totals hsegment htotals
    have hnodup : plan.Nodup := (candidates_nodup hinv protectedEntry).sublist hsegment.sublist
    have hplan := (startTotals_inv cache _ _ _ _).planTotals hinv (by simpa using hnodup) htotals
    rw [List.nil_append] at hplan
    refine ⟨hplan.fits_eq, fun context cache' hcommit => ?_⟩
    have hspec := commitEvictions_spec hlaw hinv hnodup hplan.live context
    rw [hcommit] at hspec
    obtain ⟨hinv', retired, physical, deferred, hevicted⟩ := hspec
    refine ⟨hevicted.predicts_le hplan hinv hinv', hevicted.predicts_eq hplan hinv hinv', ?_⟩
    exact hevicted.spares hinv' fun id hmem =>
      ((mem_candidates hinv).mp (hsegment.subset hmem)).2

/-- In every state reached without exhausting an identity space, planning succeeds whenever
its sums fit, and the plan is exact. -/
theorem planEvictions_exact (hlaw : R.Lawful) {config : CacheConfig}
    {start cache : SequenceCache R} (hnew : SequenceCache.new R config = .ok start)
    (hreach : ReachesIntact start cache) (extraBytes extraPages byteLimit : ℕ)
    (protectedEntry : Option PrefixEntryId) (targetSnapshotBytes targetEntryCount : Option ℕ) :
    (SumsFit cache extraBytes extraPages
        (targetSnapshotBytes.getD cache.stats.retainedSnapshotBytes)
        (targetEntryCount.getD cache.prefixes.size) →
      ∃ result, cache.planEvictions extraBytes extraPages byteLimit protectedEntry
        targetSnapshotBytes targetEntryCount = .ok result) ∧
    ∀ result, cache.planEvictions extraBytes extraPages byteLimit protectedEntry
        targetSnapshotBytes targetEntryCount = .ok result →
      PlansExactly cache extraBytes extraPages byteLimit protectedEntry
        (targetSnapshotBytes.getD cache.stats.retainedSnapshotBytes)
        (targetEntryCount.getD cache.prefixes.size) result := by
  obtain ⟨stray, hinv⟩ := ReachesIntact.inv hreach hlaw.toRetires ⟨[], inv_of_new hnew⟩
  refine ⟨fun hfits => ?_, fun result h => plansExactly hlaw.toRetires hinv h⟩
  rcases planEvictions_search hinv targetSnapshotBytes targetEntryCount with
    hsearch | ⟨-, hoverflow⟩
  · exact ⟨_, hsearch⟩
  · exact absurd hfits hoverflow

/-- Making room for sixty-two bytes takes the eviction of the only entry. -/
theorem planEvictions_exact_served :
    PlansExactly (Reference.after Reference.served) 62 0 64 none
      (Option.getD none (Reference.after Reference.served).stats.retainedSnapshotBytes)
      (Option.getD none (Reference.after Reference.served).prefixes.size) (some [0]) := by
  have hreach : ReachesIntact Reference.start (Reference.after Reference.served) :=
    Reference.reachesIntact_after (by decide +kernel)
  have hplan : (Reference.after Reference.served).planEvictions 62 0 64 none none none =
      .ok (some [0]) := by decide +kernel
  exact (planEvictions_exact Reference.plain_lawful Reference.new_start hreach 62 0 64 none none
    none).2 (some [0]) hplan

end SequenceCache

end SeqCache
