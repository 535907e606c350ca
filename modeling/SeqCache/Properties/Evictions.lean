import SeqCache.Invariant.Likeness
import SeqCache.Run.Reachable

/-!
# Evictions in any order

Evicting a list of entries at once and evicting them one at a time, in whatever order,
lead to the same contents.  `Sheds` is the closed form of both: it is stated for the list
of all evicted entries, composes along the list and does not depend on its order.
-/

namespace SeqCache

open Machine Program Std

variable {R : Runtime}

/-- No retirement fails, and the backend defers every retired page or none. -/
def PageBackend.RetiresUniformly (B : PageBackend) (late : Bool) : Prop :=
  ∀ history context pages, B.retirePages history context pages =
    .ok ⟨if late then pages.length else 0⟩

namespace SequenceCache

/-- What evicting `entries` does, at once or one by one. -/
structure Sheds (late : Bool) (cache cache' : SequenceCache R) (entries : List PrefixEntryId) :
    Prop where
  config : cache'.config = cache.config
  pageBytes : cache'.pageBytes = cache.pageBytes
  pageCapacity : cache'.pageCapacity = cache.pageCapacity
  sequences : cache'.sequences = cache.sequences
  prefixes : cache'.prefixes = eraseAll cache.prefixes entries
  order : cache'.recency = cache.recency.filter (· ∉ entries)
  pages : ∀ id, cache'.pages.get? id =
    if id ∈ cache.freedBy (cache.pagesOf entries) then none
    else (cache.pages.get? id).map fun page =>
      { page with prefixRefs := page.prefixRefs - (cache.pagesOf entries).count id }
  returned : ∃ retired physical, retired.Perm (cache.freedBy (cache.pagesOf entries)) ∧
    Stored cache.pages retired physical ∧
    (handedBack cache'.backend).Perm (physical ++ handedBack cache.backend)
  deferredPages : cache'.deferredPages = cache.deferredPages +
    if late then (cache.freedBy (cache.pagesOf entries)).length else 0
  next : cache'.index.nextBlockId = cache.index.nextBlockId
  tokens : ∀ block tokens, cache'.index.tokensOf block = some tokens →
    cache.index.tokensOf block = some tokens

end SequenceCache

theorem Retirement.handedBack_eq {context : R.Context} {physical : List R.Page}
    {deferred : ℕ} {history history' : R.History}
    (h : Retirement context physical deferred history history') :
    handedBack history' = physical ++ handedBack history := by
  rcases h with ⟨rfl, -, rfl⟩ | ⟨outcome, -, rfl, -⟩
  · rfl
  · rfl

theorem Retirement.deferred_eq {context : R.Context} {physical : List R.Page}
    {deferred : ℕ} {history history' : R.History} {late : Bool}
    (h : Retirement context physical deferred history history')
    (hretires : R.RetiresUniformly late) :
    deferred = if late then physical.length else 0 := by
  rcases h with ⟨rfl, rfl, -⟩ | ⟨outcome, hanswer, -, rfl⟩
  · exact (ite_self 0).symm
  · rw [hretires] at hanswer
    cases hanswer
    rfl

namespace SequenceCache

section Sheds

variable {late : Bool} {cache middle cache' : SequenceCache R} {orphans : List PageId}
variable {stray : List TokenBlockId} {entries added : List PrefixEntryId}

theorem Evicted.sheds {context : R.Context} {retired : List PageId} {physical : List R.Page}
    {deferred : ℕ} (h : Evicted cache cache' entries context retired physical deferred)
    (hretires : R.RetiresUniformly late) : Sheds late cache cache' entries where
  config := h.config
  pageBytes := h.pageBytes
  pageCapacity := h.pageCapacity
  sequences := h.sequences
  prefixes := h.prefixes
  order := h.order
  pages := by
    intro id
    rw [h.pages id]
    simp only [h.retired_perm.mem_iff]
  returned := ⟨retired, physical, h.retired_perm, h.stored,
    List.Perm.of_eq h.retirement.handedBack_eq⟩
  deferredPages := by
    rw [h.deferredPages, h.retirement.deferred_eq hretires, h.stored.length_eq,
      h.retired_perm.length_eq]
  next := h.next
  tokens := h.tokens

theorem Sheds.nil (late : Bool) (cache : SequenceCache R) : Sheds late cache cache [] where
  config := rfl
  pageBytes := rfl
  pageCapacity := rfl
  sequences := rfl
  prefixes := rfl
  order := by simp
  pages := fun id => by
    cases cache.pages.get? id <;> simp [pagesOf, valuesOf, freedBy]
  returned := ⟨[], [], List.Perm.refl _, rfl, List.Perm.refl _⟩
  deferredPages := by simp [pagesOf, valuesOf, freedBy]
  next := rfl
  tokens := fun _ _ htokens => htokens

/-- The entries that are left hold the same pages as before. -/
theorem Sheds.pagesOf_eq (h : Sheds late cache middle entries)
    (hdisjoint : entries.Disjoint added) : middle.pagesOf added = cache.pagesOf added := by
  unfold pagesOf valuesOf
  congr 1
  apply List.filterMap_congr
  intro id hmem
  rw [h.prefixes, getElem?_eraseAll, if_neg fun hgone => hdisjoint hgone hmem]

/-- A page is freed by a list of entries when it is freed by the first of them, or by the
others from what the first have left. -/
theorem Sheds.mem_freedBy_iff (hinv : Inv orphans stray cache)
    (h : Sheds late cache middle entries) (hnodup : (entries ++ added).Nodup)
    (hlive : ∀ id ∈ entries ++ added, ∃ entry, cache.prefixes[id]? = some entry) (id : PageId) :
    id ∈ cache.freedBy (cache.pagesOf (entries ++ added)) ↔
      id ∈ cache.freedBy (cache.pagesOf entries) ∨ id ∈ middle.freedBy (middle.pagesOf added) := by
  have hdisjoint := List.disjoint_of_nodup_append hnodup
  rw [h.pagesOf_eq hdisjoint]
  cases hpage : cache.pages.get? id with
  | none =>
      have hmiddle : middle.pages.get? id = none := by
        rw [h.pages id, hpage]
        exact ite_self none
      simp [freedBy, lastHeld, hpage, hmiddle]
  | some page =>
      have hcount := prefixCount_eraseAll hnodup hlive id
      rw [← (hinv.owned.page id page hpage).prefix_refs] at hcount
      rw [pagesOf_append_eq, List.count_append] at hcount
      have hmem : ∀ entries, id ∈ cache.pagesOf entries ↔ 0 < (cache.pagesOf entries).count id :=
        fun entries => List.count_pos_iff.symm
      by_cases hfreed : id ∈ cache.freedBy (cache.pagesOf entries)
      · refine iff_of_true ?_ (Or.inl hfreed)
        rw [mem_freedBy hpage, hmem] at hfreed
        rw [mem_freedBy hpage, hmem, pagesOf_append_eq, List.count_append]
        omega
      · have hmiddle := h.pages id
        rw [if_neg hfreed, hpage, Option.map_some] at hmiddle
        rw [mem_freedBy hpage, hmem] at hfreed
        rw [mem_freedBy hpage, mem_freedBy hpage, mem_freedBy hmiddle, hmem, hmem, hmem,
          pagesOf_append_eq, List.count_append]
        simp only
        omega

theorem Sheds.freed_append_perm (hinv : Inv orphans stray cache)
    (h : Sheds late cache middle entries) (hnodup : (entries ++ added).Nodup)
    (hlive : ∀ id ∈ entries ++ added, ∃ entry, cache.prefixes[id]? = some entry) :
    (cache.freedBy (cache.pagesOf entries) ++ middle.freedBy (middle.pagesOf added)).Perm
      (cache.freedBy (cache.pagesOf (entries ++ added))) := by
  rw [List.perm_ext_iff_of_nodup ?_ (nodup_freedBy _ _)]
  · intro id
    rw [List.mem_append, h.mem_freedBy_iff hinv hnodup hlive]
  · refine List.nodup_append'.mpr ⟨nodup_freedBy _ _, nodup_freedBy _ _, fun id hgone hmem => ?_⟩
    have hnone := h.pages id
    rw [if_pos hgone] at hnone
    have hlast := (List.mem_filter.mp hmem).2
    rw [lastHeld, hnone] at hlast
    cases hlast

/-- Evicting more entries after some. -/
theorem Sheds.append (hinv : Inv orphans stray cache) (h : Sheds late cache middle entries)
    (h' : Sheds late middle cache' added) (hnodup : (entries ++ added).Nodup)
    (hlive : ∀ id ∈ entries ++ added, ∃ entry, cache.prefixes[id]? = some entry) :
    Sheds late cache cache' (entries ++ added) where
  config := h'.config.trans h.config
  pageBytes := h'.pageBytes.trans h.pageBytes
  pageCapacity := h'.pageCapacity.trans h.pageCapacity
  sequences := h'.sequences.trans h.sequences
  prefixes := by
    rw [h'.prefixes, h.prefixes]
    exact (List.foldl_append).symm
  order := by
    rw [h'.order, h.order, List.filter_filter]
    apply List.filter_congr
    intro id _
    rw [← Bool.decide_and, decide_eq_decide, List.mem_append, not_or]
    exact and_comm
  pages := by
    intro id
    have hiff := h.mem_freedBy_iff hinv hnodup hlive id
    rw [h'.pages id, h.pages id]
    simp only [hiff]
    by_cases hfirst : id ∈ cache.freedBy (cache.pagesOf entries)
    · simp [hfirst]
    · by_cases hsecond : id ∈ middle.freedBy (middle.pagesOf added)
      · simp [hsecond]
      · rw [if_neg hsecond, if_neg hfirst, if_neg (not_or.mpr ⟨hfirst, hsecond⟩),
          Option.map_map, h.pagesOf_eq (List.disjoint_of_nodup_append hnodup), pagesOf_append_eq]
        congr 1
        funext page
        simp [List.count_append, Nat.sub_sub]
  returned := by
    obtain ⟨retired, physical, hretired, hstored, hback⟩ := h.returned
    obtain ⟨retired', physical', hretired', hstored', hback'⟩ := h'.returned
    refine ⟨retired ++ retired', physical ++ physical',
      (hretired.append hretired').trans (h.freed_append_perm hinv hnodup hlive),
      hstored.append (hstored'.congr ?_), ?_⟩
    · intro id hmem
      have hlast := (List.mem_filter.mp (hretired'.subset hmem)).2
      have hpages := h.pages id
      split_ifs at hpages with hgone
      · rw [lastHeld, hpages] at hlast
        cases hlast
      · rw [hpages]
        cases cache.pages.get? id <;> rfl
    · refine hback'.trans ((hback.append_left physical').trans ?_)
      rw [← List.append_assoc]
      exact List.perm_append_comm.append_right _
  deferredPages := by
    have hlength := (h.freed_append_perm hinv hnodup hlive).length_eq
    rw [List.length_append] at hlength
    rw [h'.deferredPages, h.deferredPages, ← hlength]
    split_ifs
    · rw [Nat.add_assoc]
    · rfl
  next := h'.next.trans h.next
  tokens := fun block tokens hblock => h.tokens block tokens (h'.tokens block tokens hblock)

theorem pagesOf_perm {other : List PrefixEntryId} (hperm : entries.Perm other) :
    (cache.pagesOf entries).Perm (cache.pagesOf other) :=
  (hperm.filterMap _).flatMap_right _

theorem freedBy_perm {removed removed' : List PageId} (hperm : removed.Perm removed') :
    (cache.freedBy removed).Perm (cache.freedBy removed') := by
  have hlast : cache.lastHeld removed = cache.lastHeld removed' := by
    funext id
    simp only [lastHeld, hperm.count_eq]
  unfold freedBy
  rw [hlast]
  exact hperm.dedup.filter _

/-- The order in which the entries are listed does not matter. -/
theorem Sheds.perm (h : Sheds late cache cache' entries) {other : List PrefixEntryId}
    (hperm : entries.Perm other) : Sheds late cache cache' other where
  config := h.config
  pageBytes := h.pageBytes
  pageCapacity := h.pageCapacity
  sequences := h.sequences
  prefixes := by
    rw [h.prefixes]
    apply ExtTreeMap.ext_getElem?
    intro id
    rw [getElem?_eraseAll, getElem?_eraseAll]
    simp only [hperm.mem_iff]
  order := by
    rw [h.order]
    simp only [hperm.mem_iff]
  pages := by
    intro id
    rw [h.pages id]
    simp only [(freedBy_perm (pagesOf_perm hperm)).mem_iff, (pagesOf_perm hperm).count_eq]
  returned := by
    obtain ⟨retired, physical, hretired, hstored, hback⟩ := h.returned
    exact ⟨retired, physical, hretired.trans (freedBy_perm (pagesOf_perm hperm)), hstored, hback⟩
  deferredPages := by
    rw [h.deferredPages, (freedBy_perm (pagesOf_perm hperm)).length_eq]
  next := h.next
  tokens := h.tokens

/-! ## One after the other -/

/-- A single eviction fails only when a page to be retired is at its last generation. -/
theorem evictPrefix_sheds (hlaw : R.Retires) (hretires : R.RetiresUniformly late)
    (hinv : Inv orphans stray cache) {id : PrefixEntryId} (hlive : id ∈ cache.prefixes)
    (hremovable : ∀ page ∈ cache.freedBy (cache.pagesOf [id]), page.generation ≠ u32Max)
    (context : R.Context) :
    ∃ cache', evictPrefix id context cache = .ok () cache' ∧ Inv orphans stray cache' ∧
      Sheds late cache cache' [id] := by
  have hspec := evictPrefix_spec hlaw hinv id context
  cases hrun : evictPrefix id context cache with
  | ok value cache' =>
      rw [hrun] at hspec
      obtain ⟨hinv', -, retired, physical, deferred, hevicted⟩ := hspec
      exact ⟨cache', rfl, hinv', hevicted.sheds hretires⟩
  | error failure cache' =>
      rw [hrun] at hspec
      obtain ⟨-, hnot, -⟩ | ⟨-, hrefused, -⟩ := hspec
      · exact absurd hlive hnot
      · obtain ⟨-, page, hmem, hgeneration⟩ | ⟨answer, physical, -, -, hanswer, -⟩ := hrefused
        · exact absurd hgeneration (hremovable page
            ((evictionBatch_perm cache [id]).subset hmem))
        · rw [hretires] at hanswer
          cases hanswer

/-- Evicting entries one after the other succeeds when no page to be retired is at its last
generation. -/
theorem evictPrefix_each (hlaw : R.Retires) (hretires : R.RetiresUniformly late)
    (order : List (PrefixEntryId × R.Context)) (hinv : Inv orphans stray cache)
    (hnodup : (order.map Prod.fst).Nodup)
    (hlive : ∀ id ∈ order.map Prod.fst, ∃ entry, cache.prefixes[id]? = some entry)
    (hremovable : ∀ page ∈ cache.freedBy (cache.pagesOf (order.map Prod.fst)),
      page.generation ≠ u32Max) :
    ∃ values cache', EachOk (fun item => evictPrefix item.1 item.2) cache order values cache' ∧
      Inv orphans stray cache' ∧ Sheds late cache cache' (order.map Prod.fst) := by
  induction order generalizing cache with
  | nil =>
      exact ⟨[], cache, .nil, hinv, .nil late cache⟩
  | cons item rest ih =>
      obtain ⟨id, context⟩ := item
      rw [List.map_cons] at hnodup hlive hremovable ⊢
      obtain ⟨entry, hentry⟩ := hlive id (by simp)
      have hfreed : ∀ page ∈ cache.freedBy (cache.pagesOf [id]), page.generation ≠ u32Max :=
        fun page hmem => hremovable page
          (freedBy_subset hinv (List.prefix_append [id] _) hnodup hlive hmem)
      obtain ⟨middle, hrun, hmiddle, hsheds⟩ := evictPrefix_sheds hlaw hretires hinv
        (ExtTreeMap.mem_iff_isSome_getElem?.mpr (by rw [hentry]; rfl)) hfreed context
      have hrest : ∀ other ∈ rest.map Prod.fst, ∃ entry, middle.prefixes[other]? = some entry := by
        intro other hmem
        have hne : other ∉ [id] := by
          rw [List.mem_singleton]
          rintro rfl
          exact (List.nodup_cons.mp hnodup).1 hmem
        rw [hsheds.prefixes, getElem?_eraseAll, if_neg hne]
        exact hlive other (List.mem_cons_of_mem _ hmem)
      obtain ⟨values, cache', heach, hinv', hsheds'⟩ := ih hmiddle
        (List.nodup_cons.mp hnodup).2 hrest fun page hmem => hremovable page
          ((hsheds.mem_freedBy_iff hinv hnodup hlive page).mpr (Or.inr hmem))
      exact ⟨() :: values, cache', .cons hrun heach, hinv',
        hsheds.append hinv hsheds' hnodup hlive⟩

end Sheds

/-! ## The same contents -/

/-- The same records, entries, index and statistics, after the same pages went back. -/
structure SameContents (cache cache' : SequenceCache R) : Prop where
  sequences : cache'.sequences = cache.sequences
  pages : ∀ id, cache'.pages.get? id = cache.pages.get? id
  prefixes : cache'.prefixes = cache.prefixes
  order : cache'.recency = cache.recency
  blocks : cache'.index.blocks = cache.index.blocks
  byTokens : cache'.index.byTokens = cache.index.byTokens
  tree : ∀ key, R.getBytes cache'.index.tree key = R.getBytes cache.index.tree key
  next : cache'.index.nextBlockId = cache.index.nextBlockId
  returned : (handedBack cache'.backend).Perm (handedBack cache.backend)
  stats : cache'.stats = cache.stats

/-- The evicted entries determine the contents. -/
theorem Sheds.same {late : Bool} {cache batch singly : SequenceCache R}
    {entries : List PrefixEntryId} (h : Sheds late cache batch entries)
    (h' : Sheds late cache singly entries) (hinv : Inv [] [] batch) (hinv' : Inv [] [] singly) :
    SameContents batch singly := by
  have hprefixes : singly.prefixes = batch.prefixes := h'.prefixes.trans h.prefixes.symm
  have hconfig : singly.config = batch.config := h'.config.trans h.config.symm
  have hpages : ∀ id, singly.pages.get? id = batch.pages.get? id :=
    fun id => (h'.pages id).trans (h.pages id).symm
  have hagrees : PrefixIndex.Agrees batch.index singly.index := by
    intro block tokens tokens' htokens htokens'
    have hbefore := h.tokens block tokens htokens
    rw [h'.tokens block tokens' htokens'] at hbefore
    exact Option.some.inj hbefore
  have htable := hinv'.filed.table
  rw [hconfig, hprefixes] at htable
  obtain ⟨hblocks, hbyTokens⟩ := hinv.filed.table.tables_eq htable.toConsistent hagrees
  have halike : Alike batch singly :=
    { config := hconfig
      pageBytes := h'.pageBytes.trans h.pageBytes.symm
      pageCapacity := h'.pageCapacity.trans h.pageCapacity.symm
      sequences := fun id => by rw [h'.sequences, h.sequences]
      pages := fun id => by rw [hpages id]
      prefixes := hprefixes
      deferredPages := h'.deferredPages.trans h.deferredPages.symm
      blockCount := congrArg ExtTreeMap.size hblocks }
  refine ⟨h'.sequences.trans h.sequences.symm, hpages, hprefixes, h'.order.trans h.order.symm,
    hblocks, hbyTokens, ?_, h'.next.trans h.next.symm, ?_, halike.stats_eq hinv hinv'⟩
  · intro key
    apply Option.ext
    intro id
    rw [hinv'.filed.tree key id, hinv.filed.tree key id, hprefixes]
  · obtain ⟨retired, physical, hretired, hstored, hback⟩ := h.returned
    obtain ⟨retired', physical', hretired', hstored', hback'⟩ := h'.returned
    have hphysical := hstored'.perm hstored (hretired'.trans hretired.symm)
    exact hback'.trans ((hphysical.append_right _).trans hback.symm)

/-! ## The retired pages -/

section Batch

variable {cache : SequenceCache R} {orphans : List PageId} {stray : List TokenBlockId}
variable {entries : List PrefixEntryId}

/-- No page of a sequence is retired by an eviction. -/
theorem held_not_evicted (hinv : Inv orphans stray cache) {sequence : SequenceId}
    {record : SequenceRecord R.AppendTransaction}
    (hrecord : cache.sequences.get? sequence = some record) {id : PageId}
    (hheld : id ∈ record.heldPages) : id ∉ cache.evictionBatch entries := by
  intro hmem
  obtain ⟨page, hpage, -⟩ := (hinv.owned.sequence sequence record hrecord).live hheld
  obtain ⟨-, hactive, -⟩ := (mem_freedBy hpage).mp ((evictionBatch_perm cache entries).subset hmem)
  have hcount := activeCount_pos hrecord hheld
  rw [(hinv.owned.page id page hpage).active_refs] at hactive
  omega

/-- Nothing is left when every entry is erased. -/
theorem eraseAll_all (hall : ∀ id ∈ cache.prefixes, id ∈ entries) :
    eraseAll cache.prefixes entries = ∅ := by
  apply ExtTreeMap.ext_getElem?
  intro id
  rw [getElem?_eraseAll, ExtTreeMap.getElem?_empty]
  split_ifs with hmem
  · rfl
  · rw [ExtTreeMap.getElem?_eq_none]
    exact fun hlive => hmem (hall id hlive)

/-- Evicting every entry retires the reclaimable pages. -/
theorem mem_evictionBatch_all (hinv : Inv orphans stray cache) (hnodup : entries.Nodup)
    (hlive : ∀ id ∈ entries, ∃ entry, cache.prefixes[id]? = some entry)
    (hall : ∀ id ∈ cache.prefixes, id ∈ entries) (id : PageId) :
    id ∈ cache.evictionBatch entries ↔
      ∃ page, cache.pages.get? id = some page ∧ page.isReclaimable = true := by
  have hzero : prefixCount (eraseAll cache.prefixes entries) id = 0 := by
    rw [eraseAll_all hall]
    exact mapTotal_empty _
  have hcount := prefixCount_eraseAll hnodup hlive id
  rw [hzero, Nat.zero_add] at hcount
  rw [(evictionBatch_perm cache entries).mem_iff]
  cases hpage : cache.pages.get? id with
  | none => simp [freedBy, lastHeld, hpage]
  | some page =>
      have hrefs := (hinv.owned.page id page hpage).prefix_refs
      rw [mem_freedBy hpage, ← List.count_pos_iff, ← hcount, ← hrefs]
      simp only [Option.some.injEq, exists_eq_left', PageRecord.isReclaimable, Bool.and_eq_true,
        decide_eq_true_eq, and_true, Nat.pos_iff_ne_zero]
      exact and_comm

end Batch

/-- What evicting `entries` retires. -/
structure RetiresExactly (cache batch : SequenceCache R) (entries : List PrefixEntryId) :
    Prop where
  returned : ∃ physical, Stored cache.pages (cache.evictionBatch entries) physical ∧
    handedBack batch.backend = physical ++ handedBack cache.backend
  once : (cache.evictionBatch entries).Nodup
  unheld : ∀ sequence record, cache.sequences.get? sequence = some record →
    ∀ id ∈ record.heldPages, id ∉ cache.evictionBatch entries
  all : (∀ id ∈ cache.prefixes, id ∈ entries) →
    (∀ id, id ∈ cache.evictionBatch entries ↔
      ∃ page, cache.pages.get? id = some page ∧ page.isReclaimable = true) ∧
    (cache.evictionBatch entries).length * cache.pageBytes =
      cache.stats.reclaimablePrefixOnlyBytes

/-- In every state reached without exhausting an identity space, evicting distinct entries at
once and one at a time in any order lead to the same contents, unless a page to be retired is
at its last generation. -/
theorem commitEvictions_each (hlaw : R.Lawful) (hhonest : R.ImmediateHonest) {late : Bool}
    (hretires : R.RetiresUniformly late) {config : CacheConfig} {start cache : SequenceCache R}
    (hnew : SequenceCache.new R config = .ok start) (hreach : ReachesIntact start cache)
    {entries : List PrefixEntryId} (hnodup : entries.Nodup)
    (hlive : ∀ id ∈ entries, id ∈ cache.prefixes) (context : R.Context) :
    outcome (commitEvictions entries context cache) =
        .error (.error (.idExhausted "page generation")) ∨
      ∃ batch, commitEvictions entries context cache = .ok () batch ∧
        RetiresExactly cache batch entries ∧
        ∀ order : List (PrefixEntryId × R.Context), (order.map Prod.fst).Perm entries →
          ∃ values singly, EachOk (fun item => evictPrefix item.1 item.2) cache order values
              singly ∧ SameContents batch singly := by
  have hinv := (ReachesIntact.sound hreach hlaw.toRetires hhonest (sound_of_new hnew)).inv
  have hfound : ∀ id ∈ entries, ∃ entry, cache.prefixes[id]? = some entry := fun id hmem =>
    Option.isSome_iff_exists.mp (ExtTreeMap.mem_iff_isSome_getElem?.mp (hlive id hmem))
  have hspec := commitEvictions_spec hlaw.toRetires hinv hnodup hfound context
  cases hrun : commitEvictions entries context cache with
  | error failure cache' =>
      rw [hrun] at hspec
      obtain ⟨⟨rfl, -⟩ | ⟨answer, physical, -, -, hanswer, -⟩, -⟩ := hspec
      · exact Or.inl rfl
      · rw [hretires] at hanswer
        cases hanswer
  | ok value batch =>
      rw [hrun] at hspec
      obtain ⟨hbatch, retired, physical, deferred, hevicted⟩ := hspec
      have hnodup' : (cache.evictionBatch entries).Nodup :=
        (evictionBatch_perm cache entries).nodup_iff.mpr (nodup_freedBy cache _)
      refine Or.inr ⟨batch, rfl, ⟨⟨physical, ?_, hevicted.retirement.handedBack_eq⟩, hnodup',
        fun sequence record hrecord id => held_not_evicted hinv hrecord, fun hall => ?_⟩,
        fun order hperm => ?_⟩
      · rw [← hevicted.batch]
        exact hevicted.stored
      · have hmem := mem_evictionBatch_all hinv hnodup hfound hall
        refine ⟨hmem, ?_⟩
        rw [hinv.counted.reclaimable, Arena.countP_eq_length hnodup' hmem]
      · obtain ⟨values, singly, heach, hsingly, hsheds⟩ := evictPrefix_each hlaw.toRetires
          hretires order hinv
          (hperm.nodup_iff.mpr hnodup) (fun id hmem => hfound id (hperm.subset hmem))
          (fun page hmem => hevicted.removable page (hevicted.retired_perm.mem_iff.mpr
            ((freedBy_perm (pagesOf_perm hperm)).subset hmem)))
        exact ⟨values, singly, heach,
          (hevicted.sheds hretires).same (hsheds.perm hperm) hbatch hsingly⟩

/-- The only entry of a served sequence. -/
theorem commitEvictions_each_served :
    ∃ batch, @commitEvictions Reference.plain [0] 7 (Reference.after Reference.served) =
        .ok () batch ∧ RetiresExactly (Reference.after Reference.served) batch [0] ∧
      ∀ order : List (PrefixEntryId × ℕ), (order.map Prod.fst).Perm [0] →
        ∃ values singly, EachOk (fun item => @evictPrefix Reference.plain item.1 item.2)
          (Reference.after Reference.served) order values singly ∧ SameContents batch singly := by
  have hreach : ReachesIntact Reference.start (Reference.after Reference.served) :=
    Reference.reachesIntact_after (by decide +kernel)
  have hlive : ∀ id ∈ [0], id ∈ (Reference.after Reference.served).prefixes := by decide +kernel
  have hretires : Reference.plain.RetiresUniformly false := fun _ _ _ => rfl
  have hrun : ¬ outcome (@commitEvictions Reference.plain [0] 7
      (Reference.after Reference.served)) = .error (.error (.idExhausted "page generation")) := by
    decide +kernel
  generalize Reference.after Reference.served = cache at *
  exact (commitEvictions_each Reference.plain_lawful Reference.plain_immediateHonest hretires
    Reference.new_start hreach (List.nodup_singleton 0) hlive 7).resolve_left hrun

end SequenceCache

end SeqCache
