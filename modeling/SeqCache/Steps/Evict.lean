import SeqCache.Invariant.Evictions

/-!
# Eviction and reclamation as steps

`evictPrefix` drops one entry, `reclaimDeferred` takes back what the backend reports as
reusable.
-/

namespace SeqCache

open Machine Program Std

variable {R : Runtime}

/-- A cache whose statistics were just refreshed stays ready to refresh them again. -/
theorem Inv.ready {orphans : List PageId} {stray : List TokenBlockId} {cache : SequenceCache R}
    (h : Inv orphans stray cache) : Ready orphans stray cache where
  config := h.config
  owned := h.owned
  counted := h.counted
  held_le := h.budgeted.held_le
  charged_le := by
    have hcharged := h.charged_le
    have hresident := Nat.mul_le_mul_right cache.pageBytes h.published.resident_le
    unfold SequenceCache.chargedBytes at hcharged ⊢
    omega
  snapshot_le := h.budgeted.snapshot_le
  entries_le := h.budgeted.entries_le
  filed := h.filed
  ranked := h.ranked
  clocked := h.clocked
  ids_below := h.ids_below
  ids_bounded := h.ids_bounded

namespace SequenceCache

variable {cache : SequenceCache R} {orphans : List PageId} {stray : List TokenBlockId}

/-- Refreshing the statistics again changes at most a stale count of resident pages. -/
theorem Evicted.refresh {cache' : SequenceCache R} {entries : List PrefixEntryId}
    {context : R.Context} {retired : List PageId} {physical : List R.Page} {deferred : ℕ}
    (h : Evicted cache cache' entries context retired physical deferred)
    (hinv : Inv orphans stray cache') :
    Evicted cache cache'.refresh entries context retired physical deferred :=
  { h with
    resident_le := by
      have hle := h.resident_le
      have hresident := hinv.published.resident_le
      change cache'.residentNow + retired.length ≤ cache.stats.residentPages + deferred
      omega
    resident_ge := fun _ => le_rfl
    total_eq := fun _ => rfl }

/-- The planned evictions are refused: a page to retire is at its last generation, or the
backend refuses the batch. -/
def RefusesPlan (cache : SequenceCache R) (plan : List PrefixEntryId)
    (context : R.Context) : Prop :=
  ∃ failure, Refused cache (cache.evictionBatch plan) context failure

theorem Evicted.not_refusesPlan {cache' : SequenceCache R} {plan : List PrefixEntryId}
    {context : R.Context} {retired : List PageId} {physical : List R.Page} {deferred : ℕ}
    (h : Evicted cache cache' plan context retired physical deferred) :
    ¬ cache.RefusesPlan plan context := by
  obtain rfl := h.batch
  rintro ⟨failure, ⟨-, id, hmem, hlast⟩ | ⟨answer, table, -, hstored, hanswer, hne⟩⟩
  · exact h.removable id hmem hlast
  · obtain rfl := hstored.unique h.stored
    rcases h.retirement with ⟨rfl, -, -⟩ | ⟨outcome, hok, -, -⟩
    · exact hne (List.map_eq_nil_iff.mp hstored)
    · rw [hanswer] at hok
      cases hok

/-- Why an eviction on request fails. -/
def EvictFails (cache : SequenceCache R) (id : PrefixEntryId) (context : R.Context)
    (failure : Failure R.Error) (cache' : SequenceCache R) : Prop :=
  (failure = .error .stalePrefix ∧ id ∉ cache.prefixes ∧ cache' = cache) ∨
    id ∈ cache.prefixes ∧ Refused cache (cache.evictionBatch [id]) context failure ∧
      Called 0 cache cache' []

theorem evictPrefix_ends (hinv : Inv orphans stray cache) (id : PrefixEntryId)
    (context : R.Context) :
    Ends (evictPrefix id context cache)
      (fun _ cache' => Inv orphans stray cache' ∧ id ∈ cache.prefixes ∧
        ∃ retired physical deferred,
          Evicted cache cache' [id] context retired physical deferred)
      (fun failure cache' => EvictFails cache id context failure cache' ∨
        Breached cache failure cache') := by
  unfold evictPrefix
  refine Ends.get ?_
  refine Ends.ensure (fun hnot => Or.inl (Or.inl ⟨rfl, by simpa using hnot, rfl⟩)) (fun hmem => ?_)
  rw [ExtTreeMap.contains_iff_mem] at hmem
  have hlive : ∀ other ∈ [id], ∃ entry, cache.prefixes[other]? = some entry := by
    intro other hother
    rw [List.mem_singleton.mp hother]
    exact Option.isSome_iff_exists.mp (ExtTreeMap.mem_iff_isSome_getElem?.mp hmem)
  refine Ends.bind (Ends.mono (commitEvictions_ends hinv (List.nodup_singleton id) hlive context)
    (fun _ _ h => h) (fun failure cache' h => h.imp (fun h => Or.inr ⟨hmem, h.1, h.2⟩) And.left)) ?_
  rintro - middle ⟨hmiddle, retired, physical, deferred, hevicted⟩
  obtain ⟨hrun, hfinal⟩ := hmiddle.ready.refresh
  rw [hrun]
  exact ⟨hfinal, hmem, retired, physical, deferred, hevicted.refresh hmiddle⟩

theorem evictPrefix_spec (hlaw : R.Retires) (hinv : Inv orphans stray cache)
    (id : PrefixEntryId) (context : R.Context) :
    Ends (evictPrefix id context cache)
      (fun _ cache' => Inv orphans stray cache' ∧ id ∈ cache.prefixes ∧
        ∃ retired physical deferred,
          Evicted cache cache' [id] context retired physical deferred)
      (EvictFails cache id context) :=
  (evictPrefix_ends hinv id context).resolve (not_breached hlaw)

/-- What a successful `reclaimDeferred` does. -/
structure Reclaimed (cache cache' : SequenceCache R) (context : R.Context) (reclaimed : ℕ) :
    Prop where
  answer : R.pollReclaimed cache.backend context = .ok reclaimed
  reclaimed_le : reclaimed ≤ cache.deferredPages
  state : cache' = ({ cache with
    backend := .pollReclaimed context (.ok reclaimed) :: cache.backend
    deferredPages := cache.deferredPages - reclaimed } : SequenceCache R).refresh

/-- A poll is no retirement. -/
theorem Reclaimed.breached {cache' : SequenceCache R} {context : R.Context} {reclaimed : ℕ}
    (h : Reclaimed cache cache' context reclaimed) {failure : Failure R.Error}
    {last : SequenceCache R} (hbreached : Breached cache' failure last) :
    Breached cache failure last := by
  have hevents : ∀ event ∈ ([.pollReclaimed context (.ok reclaimed)] : R.History),
      event.isRetirement = false := by
    simp [BackendEvent.isRetirement]
  refine hbreached.after ?_ ?_ hevents
  · rw [h.state]
    rfl
  · rw [h.state]
    rfl

/-- The backend reports more reclaimed pages than are deferred. -/
def Overreported (cache : SequenceCache R) (context : R.Context) (failure : Failure R.Error) :
    Prop :=
  failure = .error (.invariant "backend reclaimed more pages than were deferred") ∧
    ∃ reclaimed, R.pollReclaimed cache.backend context = .ok reclaimed ∧
      deferredTotal cache.backend < reclaimed

theorem Overreported.not_lawful {context : R.Context} {failure : Failure R.Error}
    (h : Overreported cache context failure) : ¬ R.Lawful := by
  rintro hlaw
  obtain ⟨-, reclaimed, hanswer, hover⟩ := h
  exact Nat.not_le_of_lt hover (hlaw.poll_reclaimed _ _ _ hanswer)

theorem polled_ready (hinv : Inv orphans stray cache) (context : R.Context) {reclaimed : ℕ}
    (hle : reclaimed ≤ cache.deferredPages) :
    Ready orphans stray
      { cache with
        backend := .pollReclaimed context (.ok reclaimed) :: cache.backend
        deferredPages := cache.deferredPages - reclaimed } := by
  obtain ⟨h1, h2, h3, h4, h5, h6, h7, h8, h9, h10, h11, h12⟩ := hinv.ready
  obtain ⟨c1, c2, c3, c4, c5, c6⟩ := h1
  obtain ⟨n1, n2, n3, n4, n5, n6⟩ := h3
  refine ⟨⟨c1, c2, c3, c4, c5, c6⟩, h2, ⟨n1, n2, n3, n4, n5, ?_⟩, h4, ?_, h6, h7, h8, h9,
    h10, h11, h12⟩
  · rw [deferredTotal, ← n6, if_pos hle]
  · have hmul : (cache.pages.values.length + (cache.deferredPages - reclaimed)) *
        cache.pageBytes ≤ (cache.pages.values.length + cache.deferredPages) *
          cache.pageBytes := Nat.mul_le_mul_right _ (by omega)
    unfold chargedBytes residentNow at h5 ⊢
    simp only
    omega

theorem Reclaimed.run {cache' : SequenceCache R} {context : R.Context} {reclaimed : ℕ}
    (h : Reclaimed cache cache' context reclaimed) (hinv : Inv orphans stray cache) :
    reclaimDeferred context cache = .ok reclaimed cache' := by
  have hcall : callPollReclaimed context cache = .ok (.ok reclaimed)
      { cache with backend := .pollReclaimed context (.ok reclaimed) :: cache.backend } := by
    rw [← h.answer]
    rfl
  obtain ⟨hrun, -⟩ := (polled_ready hinv context h.reclaimed_le).refresh
  unfold reclaimDeferred
  rw [bind_ok hcall]
  simp only
  rw [get_bind_run, ensure_pos h.reclaimed_le, pure_bind_run, modify_bind_run, bind_ok hrun,
    pure_run, h.state]

theorem reclaimDeferred_spec (hinv : Inv orphans stray cache)
    (context : R.Context) :
    Ends (reclaimDeferred context cache)
      (fun reclaimed cache' => Inv orphans stray cache' ∧ Reclaimed cache cache' context reclaimed)
      (fun failure cache' => ((∃ error, failure = .error (.backend error)) ∨
          Overreported cache context failure) ∧ Called 0 cache cache' []) := by
  unfold reclaimDeferred
  have hcall : ∀ answer, R.pollReclaimed cache.backend context = answer →
      callPollReclaimed context cache =
        .ok answer { cache with backend := .pollReclaimed context answer :: cache.backend } := by
    rintro answer rfl
    rfl
  cases hanswer : R.pollReclaimed cache.backend context with
  | error error =>
      rw [bind_ok (hcall _ hanswer)]
      exact ⟨Or.inl ⟨error, rfl⟩, rfl, .neutral _ .refl rfl⟩
  | ok reclaimed =>
      rw [bind_ok (hcall _ hanswer)]
      refine Ends.get ?_
      refine Ends.ensure (fun hover => ?_) (fun hle => ?_)
      · have hover' : deferredTotal cache.backend < reclaimed := by
          rw [← hinv.counted.deferred]
          exact Nat.lt_of_not_le hover
        exact ⟨Or.inr ⟨rfl, reclaimed, hanswer, hover'⟩, rfl, .overreported _ _ .refl hover'⟩
      obtain ⟨hrun, hfinal⟩ := (polled_ready hinv context hle).refresh
      rw [modify_bind_run, bind_ok hrun, pure_run]
      exact ⟨hfinal, hanswer, hle, rfl⟩

/-! ## Room made by a plan -/

/-- Carrying out a plan leaves room for what it was made for, as far as the pages with a
record are concerned; deferred pages can add at most what the plan counted as freed. -/
theorem Plan.room {extraBytes extraPages limit snapshots entries : ℕ}
    {protectedEntry : Option PrefixEntryId} {plan : List PrefixEntryId}
    {start evicted : SequenceCache R} {context : R.Context} {retired : List PageId}
    {physical : List R.Page} {deferred : ℕ} (hinv : Inv orphans stray cache)
    (hplan : Plan cache extraBytes extraPages limit protectedEntry snapshots entries plan)
    (hlimit : limit ≤ cache.config.maxManagedBytes)
    (hstart : start = { cache with backend := start.backend })
    (hevicted : Evicted start evicted plan context retired physical deferred) :
    evicted.chargedBytes evicted.pages.values.length + extraBytes ≤
        evicted.config.maxManagedBytes ∧
      evicted.chargedBytes evicted.residentNow + extraBytes ≤
        2 * evicted.config.maxManagedBytes := by
  generalize start.backend = history at hstart
  subst hstart
  have hbytes := hplan.bytes_le
  have htotal := hinv.total_eq
  have hcredit := creditOf_le cache (cache.pagesOf plan)
  have hretired : retired.length = (cache.freedBy (cache.pagesOf plan)).length :=
    hevicted.retired_perm.length_eq
  have hlength : cache.pages.values.length = evicted.pages.values.length + retired.length :=
    hevicted.length_pages
  have hdeferred : evicted.deferredPages = cache.deferredPages + deferred := hevicted.deferredPages
  have hdeferred_le := hevicted.deferred_le
  have hresident := hinv.published.resident_le
  have hpages := hinv.pages_le
  have hsnapshot : cache.stats.retainedSnapshotBytes =
      evicted.stats.retainedSnapshotBytes + cache.snapshotsOf plan := hevicted.snapshotBytes
  have hreserved : evicted.stats.reservedPages = cache.stats.reservedPages :=
    hevicted.reservedPages
  have hprivate : evicted.stats.activePrivateStateBytes = cache.stats.activePrivateStateBytes :=
    hevicted.privateStateBytes
  have htable : evicted.stats.pageTableBytes = cache.stats.pageTableBytes :=
    hevicted.pageTableBytes
  have hconfig : evicted.config = cache.config := hevicted.config
  have hpageBytes : evicted.pageBytes = cache.pageBytes := hevicted.pageBytes
  have hcredit_mul : cache.creditOf (cache.pagesOf plan) * cache.pageBytes ≤
      retired.length * cache.pageBytes := Nat.mul_le_mul_right _ (by omega)
  unfold residentNow at hresident ⊢
  unfold chargedBytes at htotal ⊢
  rw [hconfig, hpageBytes, hreserved, hprivate, htable]
  constructor
  · have hmul : evicted.pages.values.length * cache.pageBytes +
        retired.length * cache.pageBytes ≤ cache.stats.residentPages * cache.pageBytes := by
      rw [← Nat.add_mul]
      exact Nat.mul_le_mul_right _ (by omega)
    omega
  · have hmul : (evicted.pages.values.length + evicted.deferredPages) * cache.pageBytes ≤
        cache.stats.residentPages * cache.pageBytes := Nat.mul_le_mul_right _ (by omega)
    have hretired_mul : retired.length * cache.pageBytes ≤
        cache.pages.values.length * cache.pageBytes := Nat.mul_le_mul_right _ (by omega)
    omega

/-! ## Limits of an honest backend -/

/-- The total and the pages are within their limits. -/
structure Within (cache : SequenceCache R) (byteLimit : ℕ) : Prop where
  bytes : cache.stats.totalManagedBytes ≤ byteLimit
  pages : cache.stats.residentPages + cache.stats.reservedPages ≤ cache.pageCapacity

/-- With an honest backend, carrying out a plan makes the room that it was made for. -/
theorem Plan.within {extraBytes extraPages limit snapshots entries : ℕ}
    {protectedEntry : Option PrefixEntryId} {plan : List PrefixEntryId}
    {start evicted : SequenceCache R} {context : R.Context} {retired : List PageId}
    {physical : List R.Page} {deferred : ℕ} (hhonest : R.ImmediateHonest)
    (hinv : Inv orphans stray cache)
    (hplan : Plan cache extraBytes extraPages limit protectedEntry snapshots entries plan)
    (hstart : start = { cache with backend := start.backend })
    (hprepared : Prepares cache.backend start.backend)
    (hevicted : Evicted start evicted plan context retired physical deferred) :
    evicted.stats.totalManagedBytes + extraBytes ≤ limit ∧
      evicted.stats.residentPages + evicted.stats.reservedPages + extraPages ≤
        evicted.pageCapacity := by
  generalize start.backend = history at hstart hprepared
  subst hstart
  have hbytes := hplan.bytes_le
  have hpages := hplan.pages_le
  have htotal := hinv.total_eq
  have htotal' := hevicted.total_eq hinv.total_eq
  have hresident : evicted.stats.residentPages + retired.length ≤
      cache.stats.residentPages + deferred := hevicted.resident_le
  have hretired : retired.length = (cache.freedBy (cache.pagesOf plan)).length :=
    hevicted.retired_perm.length_eq
  have hdeferred_le := hevicted.deferred_le
  have hsnapshot : cache.stats.retainedSnapshotBytes =
      evicted.stats.retainedSnapshotBytes + cache.snapshotsOf plan := hevicted.snapshotBytes
  have hreserved : evicted.stats.reservedPages = cache.stats.reservedPages :=
    hevicted.reservedPages
  have hprivate : evicted.stats.activePrivateStateBytes = cache.stats.activePrivateStateBytes :=
    hevicted.privateStateBytes
  have htable : evicted.stats.pageTableBytes = cache.stats.pageTableBytes :=
    hevicted.pageTableBytes
  have hcapacity : evicted.pageCapacity = cache.pageCapacity := hevicted.pageCapacity
  have hpageBytes : evicted.pageBytes = cache.pageBytes := hevicted.pageBytes
  -- What the plan counts as freed has gone from the resident pages.
  have hcredit : evicted.stats.residentPages + cache.creditOf (cache.pagesOf plan) ≤
      cache.stats.residentPages := by
    unfold creditOf
    split_ifs with himmediate
    · have hzero := hevicted.retirement.deferred_of_immediate hhonest hprepared himmediate
      omega
    · omega
  have hmul := Nat.mul_le_mul_right cache.pageBytes hcredit
  rw [Nat.add_mul] at hmul
  unfold chargedBytes at htotal htotal'
  rw [hpageBytes, hreserved, hprivate, htable] at htotal'
  rw [hcapacity, hreserved]
  omega

end SequenceCache

end SeqCache
