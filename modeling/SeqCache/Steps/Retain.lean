import SeqCache.Index.Keys
import SeqCache.Steps.Evict
import SeqCache.Steps.Lookup

/-!
# Retention as a step

A retention interns the blocks of its key, makes room, and files a new entry that shares
the pages of the sequence.  A prefix that is already retained is only used again.
-/

namespace SeqCache

open Machine Program Std

variable {R : Runtime}

/-! ## The index -/

section Index

variable {pageTokens : ℕ} {stray blocks : List TokenBlockId} {index index' : PrefixIndex R}
variable {prefixes : Prefixes R.Snapshot} {id : PrefixEntryId} {entry : PrefixEntry R.Snapshot}

/-- Blocks of a key that no entry has yet. -/
theorem Filed.extend (h : Filed pageTokens stray index prefixes)
    (hextends : PrefixIndex.Extends pageTokens (blockCount prefixes stray) index blocks index') :
    Filed pageTokens (stray ++ blocks) index' prefixes := by
  refine ⟨hextends.interned.congr fun block => ?_, ?_, h.key_eq, h.length_blocks⟩
  · rw [blockCount, blockCount, List.count_append, Nat.add_assoc]
  · rw [hextends.tree]
    exact h.tree

/-- The entry takes over the references to the blocks of its key. -/
theorem Filed.insert (h : Filed pageTokens (stray ++ entry.blocks) index prefixes)
    (hfresh : prefixes[id]? = none) (hkey : entry.key = keyOf entry.blocks)
    (hlength : entry.blocks.length = entry.pages.length)
    (habsent : ∀ (other : PrefixEntryId) (found : PrefixEntry R.Snapshot),
      prefixes[other]? = some found → found.key ≠ entry.key) :
    Filed pageTokens stray { index with tree := R.insertK index.tree entry.key id }
      (prefixes.insert id entry) := by
  have hcount : ∀ block, blockCount prefixes (stray ++ entry.blocks) block =
      blockCount (prefixes.insert id entry) stray block := by
    intro block
    have : mapTotal (fun entry => entry.blocks.count block) (prefixes.insert id entry) =
        mapTotal (fun entry => entry.blocks.count block) prefixes + entry.blocks.count block :=
      mapTotal_insert (fun entry : PrefixEntry R.Snapshot => entry.blocks.count block) hfresh
    unfold blockCount
    rw [List.count_append]
    omega
  refine ⟨?_, ?_, ?_, ?_⟩
  · exact (h.table.congr fun block => (hcount block).symm).setTree _
  · intro key other
    rw [R.getBytes_insertK, getElem?_insert_eq]
    by_cases hother : key = entry.key
    · rw [if_pos hother]
      constructor
      · rintro hsome
        obtain rfl := Option.some.inj hsome
        exact ⟨entry, if_pos rfl, hother.symm⟩
      · rintro ⟨found, hfound, heq⟩
        split_ifs at hfound with hid
        · rw [hid]
        · exact absurd (heq.trans hother) (habsent other found hfound)
    · rw [if_neg hother, h.tree key other]
      constructor
      · rintro ⟨found, hfound, heq⟩
        refine ⟨found, ?_, heq⟩
        rw [if_neg, hfound]
        rintro rfl
        rw [hfresh] at hfound
        cases hfound
      · rintro ⟨found, hfound, heq⟩
        split_ifs at hfound
        · rw [← Option.some.inj hfound] at heq
          exact absurd heq.symm hother
        · exact ⟨found, hfound, heq⟩
  · intro other found hfound
    rw [getElem?_insert_eq] at hfound
    split_ifs at hfound
    · rw [← Option.some.inj hfound, hkey]
    · exact h.key_eq other found hfound
  · intro other found hfound
    rw [getElem?_insert_eq] at hfound
    split_ifs at hfound
    · rw [← Option.some.inj hfound, hlength]
    · exact h.length_blocks other found hfound

theorem Filed.held_of_mem (h : Filed pageTokens stray index prefixes)
    (hentry : prefixes[id]? = some entry) {block : TokenBlockId} (hmem : block ∈ entry.blocks) :
    ∃ tokens, index.tokensOf block = some tokens := by
  refine Option.isSome_iff_exists.mp ((h.table.isSome_iff block).mpr ?_)
  have hpos := List.count_pos_iff.mpr hmem
  have := mapTotal_erase (fun entry : PrefixEntry R.Snapshot => entry.blocks.count block) hentry
  unfold blockCount
  omega

theorem PrefixIndex.Interned.le_of_tokensOf {held : TokenBlockId → ℕ}
    (h : index.Interned pageTokens held) {block : TokenBlockId} {tokens : List Token}
    (htokens : index.tokensOf block = some tokens) : block ≤ usizeMax := by
  obtain ⟨record, hrecord, -⟩ := PrefixIndex.tokensOf_eq_some.mp htokens
  exact (h.below block record hrecord).le.trans h.bounded

/-- When the exact lookup of a query finds nothing, no entry has the key of the query. -/
theorem Filed.absent_of_exact (h : Filed pageTokens stray index prefixes)
    (hextends : PrefixIndex.Extends pageTokens (blockCount prefixes stray) index blocks index')
    {tokens : List Token} (hblocks : blocks.map index'.tokensOf =
      (chunksExact pageTokens tokens).map some) (hne : blocks ≠ [])
    (hexact : index.exact tokens pageTokens = none) (hentry : prefixes[id]? = some entry) :
    entry.key ≠ keyOf blocks := by
  intro hkey
  have hnew : ∀ block ∈ blocks, ∃ tokens, index'.tokensOf block = some tokens := by
    intro block hmem
    have hmap : index'.tokensOf block ∈ (chunksExact pageTokens tokens).map some :=
      hblocks ▸ List.mem_map_of_mem hmem
    obtain ⟨found, -, hfound⟩ := List.mem_map.mp hmap
    exact ⟨found, hfound.symm⟩
  have hsame : entry.blocks = blocks := by
    refine keyOf_injective (fun block hmem => ?_) (fun block hmem => ?_)
      ((h.key_eq id entry hentry).symm.trans hkey)
    · obtain ⟨found, hfound⟩ := h.held_of_mem hentry hmem
      exact h.table.le_of_tokensOf hfound
    · obtain ⟨found, hfound⟩ := hnew block hmem
      exact hextends.interned.le_of_tokensOf hfound
  have hold : blocks.map index.tokensOf = (chunksExact pageTokens tokens).map some := by
    rw [← hblocks]
    refine List.map_congr_left fun block hmem => ?_
    obtain ⟨found, hfound⟩ := h.held_of_mem hentry (hsame ▸ hmem)
    rw [hfound, hextends.tokens block found hfound]
  rw [PrefixIndex.exact_eq h.table hold hne, (h.tree (keyOf blocks) id).mpr ⟨entry, hentry, hkey⟩]
    at hexact
  cases hexact

end Index

/-! ## The new entry -/

section Entry

variable {orphans : List PageId} {pageTokens : ℕ} {prefixes : Prefixes R.Snapshot}
variable {id : PrefixEntryId} {entry : PrefixEntry R.Snapshot}

/-- A sequence that ends on a page boundary consists of complete pages. -/
theorem SequenceOk.complete {Page Transaction : Type} {pages : Pages Page}
    {record : SequenceRecord Transaction} (h : SequenceOk orphans pageTokens pages record)
    (hpos : 0 < pageTokens) (haligned : record.position % pageTokens = 0) (id : PageId)
    (hmem : id ∈ record.pages) :
    ∃ page, pages.get? id = some page ∧ page.physical.isSome ∧ page.sealed = true ∧
      page.validTokens = pageTokens := by
  obtain ⟨n, hn⟩ := List.getElem?_of_mem hmem
  have hlt := (List.getElem?_eq_some_iff.mp hn).1
  have hheld : record.heldPages[n]? = some id := by
    unfold SequenceRecord.heldPages
    rw [List.getElem?_append_left hlt, hn]
  obtain ⟨page, hpage, hpageOk⟩ := h.held n id hheld
  rw [h.length_pages, ceilDiv_of_aligned hpos haligned] at hlt
  have hmul := Nat.mul_le_mul_right pageTokens (Nat.succ_le_of_lt hlt)
  have hdiv := Nat.div_mul_le_self record.position pageTokens
  obtain ⟨hsealed, hvalid⟩ := hpageOk.complete (hmul.trans hdiv)
  exact ⟨page, hpage, hpageOk.storage, hsealed, hvalid⟩

theorem mem_insert_lru {lru : LruSet} (hranked : Ranked prefixes lru)
    (hfresh : prefixes[id]? = none)
    (clock used : ℕ) (other : PrefixEntryId) : (used, other) ∈ lru.insert (clock, id) ↔
      (used, other) ∈ lru ∧ other ≠ id ∨ used = clock ∧ other = id := by
  rw [ExtTreeSet.mem_insert]
  constructor
  · rintro (hcompare | hold)
    · obtain ⟨rfl, rfl⟩ := Prod.mk.inj (LawfulEqCmp.eq_of_compare hcompare)
      exact Or.inr ⟨rfl, rfl⟩
    · refine Or.inl ⟨hold, ?_⟩
      rintro rfl
      obtain ⟨found, hfound, -⟩ := (hranked used other).mp hold
      rw [hfresh] at hfound
      cases hfound
  · rintro (⟨hold, -⟩ | ⟨rfl, rfl⟩)
    · exact Or.inr hold
    · exact Or.inl ReflCmp.compare_self

theorem Ranked.insert {lru : LruSet} (h : Ranked prefixes lru) (hfresh : prefixes[id]? = none) :
    Ranked (prefixes.insert id entry) (lru.insert (entry.lastUsed, id)) := by
  intro used other
  rw [mem_insert_lru h hfresh, getElem?_insert_eq, h used other]
  split_ifs with heq <;> simp [heq, eq_comm]

theorem Clocked.insert {clock : ℕ} (h : Clocked prefixes clock) (hentry : entry.lastUsed ≤ clock) :
    Clocked (prefixes.insert id entry) clock := by
  refine ⟨fun other found hfound => ?_, h.bounded⟩
  rw [getElem?_insert_eq] at hfound
  split_ifs at hfound
  · rw [← Option.some.inj hfound]
    exact hentry
  · exact h.used_le other found hfound

end Entry

namespace SequenceCache

variable {cache cache' : SequenceCache R} {orphans : List PageId}
variable {stray blocks : List TokenBlockId} {tokens : List Token}

/-! ## Interning the blocks of a key -/

/-- The blocks of `tokens` were interned, and no entry holds them yet. -/
structure Interns (cache cache' : SequenceCache R) (stray blocks : List TokenBlockId)
    (tokens : List Token) : Prop where
  state : cache' = { cache with index := cache'.index }
  prepared : PrefixIndex.prepareKey tokens cache.config.pageTokens cache.index =
    .ok ⟨keyOf blocks, blocks⟩ cache'.index
  table : PrefixIndex.Extends cache.config.pageTokens (blockCount cache.prefixes stray)
    cache.index blocks cache'.index
  tokens : blocks.map cache'.index.tokensOf =
    (chunksExact cache.config.pageTokens tokens).map some

theorem Interns.inv (h : Interns cache cache' stray blocks tokens)
    (hinv : Inv orphans stray cache) (hne : blocks ≠ []) : Inv orphans (stray ++ blocks)
      cache' := by
  obtain ⟨hstate, -, htable, -⟩ := h
  generalize cache'.index = index at hstate htable
  subst hstate
  have hstray : stray ++ blocks ≠ [] := fun hnil => hne (List.append_eq_nil_iff.mp hnil).2
  obtain ⟨⟨c1, c2, c3, c4, c5, c6⟩, howned, ⟨n1, n2, n3, n4, n5, n6⟩, ⟨p1, p2, p3, -, p5⟩,
    ⟨b1, b2, b3, b4⟩, hfiled, hranked, hclocked, hbelow, hbounded⟩ := hinv
  exact ⟨⟨c1, c2, c3, c4, c5, c6⟩, howned, ⟨n1, n2, n3, n4, n5, n6⟩,
    ⟨p1, p2, p3, fun hnil => absurd hnil hstray, p5⟩, ⟨b1, b2, b3, b4⟩, hfiled.extend htable,
    hranked, hclocked, hbelow, hbounded⟩

/-- The cache after a retention that failed before its evictions and gave back the blocks of
its key.  Only identities of blocks may have been consumed. -/
structure Undone (cache cache' : SequenceCache R) : Prop where
  state : cache' = { cache with backend := cache'.backend, index := cache'.index }
  table : PrefixIndex.SameTable cache.index cache'.index
  calls : Calls 0 cache.backend [] cache'.backend []

theorem Undone.unchanged (h : Undone cache cache') : Unchanged cache cache' := by
  refine ⟨?_, h.calls⟩
  obtain ⟨hstate, hsame, -⟩ := h
  rw [hstate]
  exact ⟨rfl, rfl, rfl, rfl, rfl, Quiet.sequences_refl _, rfl, rfl, rfl, rfl, rfl, rfl,
    hsame.tree, hsame.blocks, hsame.byTokens, hsame.next, fun _ => hsame.bounded, le_rfl⟩

theorem prepareKey_cases (hinv : Inv orphans stray cache) (tokens : List Token) :
    (∃ error cache', onIndex (PrefixIndex.prepareKey tokens cache.config.pageTokens) cache =
        .error (.error error) cache' ∧ Undone cache cache' ∧
        PrefixIndex.prepareKey tokens cache.config.pageTokens cache.index =
          .error (.error error) cache'.index ∧
        (error = .arithmeticOverflow ∨ error = .idExhausted "token block")) ∨
      ∃ blocks cache', onIndex (PrefixIndex.prepareKey tokens cache.config.pageTokens) cache =
          .ok ⟨keyOf blocks, blocks⟩ cache' ∧ Interns cache cache' stray blocks tokens := by
  have hlength : ∀ block ∈ chunksExact cache.config.pageTokens tokens,
      block.length = cache.config.pageTokens := fun block hmem =>
    length_of_mem_chunks (Nat.div_mul_le_self _ _) hmem
  rcases PrefixIndex.internBlocks_spec hinv.filed.table _ hlength with
    ⟨error, index', hrun, hsame, herror⟩ | ⟨blocks, index', hrun, hextends, htokens⟩
  · have hprepare : PrefixIndex.prepareKey tokens cache.config.pageTokens cache.index =
        .error (.error error) index' := by
      rw [PrefixIndex.prepareKey, bind_error hrun]
    exact Or.inl ⟨error, { cache with index := index' }, onIndex_error hprepare,
      ⟨rfl, hsame, .refl⟩, hprepare, herror⟩
  · have hprepare : PrefixIndex.prepareKey tokens cache.config.pageTokens cache.index =
        .ok ⟨keyOf blocks, blocks⟩ index' := by
      rw [PrefixIndex.prepareKey, bind_ok hrun, pure_run]
    exact Or.inr ⟨blocks, { cache with index := index' }, onIndex_ok hprepare, rfl, hprepare,
      hextends, htokens⟩

/-- Giving the blocks back restores the table, whatever else has changed. -/
theorem Interns.release (h : Interns cache cache' stray blocks tokens)
    (hinv : Inv orphans stray cache) {between : SequenceCache R}
    (hindex : between.index = cache'.index) :
    ∃ index', onIndex (PrefixIndex.rollbackKey ⟨keyOf blocks, blocks⟩) between =
        .ok () { between with index := index' } ∧
      PrefixIndex.SameTable cache.index index' := by
  obtain ⟨index', hrun, hsame, -⟩ := h.table.release hinv.filed.table.toConsistent
    "prepared token block remains interned"
  rw [← hindex] at hrun
  exact ⟨index', onIndex_ok hrun, hsame⟩

/-- Nothing is left of a retention after calls that changed nothing. -/
theorem Interns.rollback (h : Interns cache cache' stray blocks tokens)
    (hinv : Inv orphans stray cache) {between : SequenceCache R}
    (hcalled : Called 0 cache' between []) :
    ∃ cache'', onIndex (PrefixIndex.rollbackKey ⟨keyOf blocks, blocks⟩) between = .ok () cache'' ∧
      Undone cache cache'' := by
  obtain ⟨hbetween, hcalls⟩ := hcalled
  have hindex : between.index = cache'.index := by rw [hbetween]
  obtain ⟨index', hrun, hsame⟩ := h.release hinv hindex
  have hstate := h.state
  have hbackend : cache'.backend = cache.backend := by rw [hstate]
  refine ⟨_, hrun, ?_, hsame, hbackend ▸ hcalls⟩
  rw [hbetween, hstate]

/-! ## Filing the entry -/

/-- The entry that retains the prefix of a sequence. -/
def retainedEntry (record : SequenceRecord R.AppendTransaction) (blocks : List TokenBlockId)
    (snapshot : R.Snapshot) (clock : ℕ) : PrefixEntry R.Snapshot where
  key := keyOf blocks
  blocks := blocks
  pages := record.pages
  position := record.position
  snapshot := snapshot
  snapshotBytes := R.retainedBytes snapshot
  lastUsed := clock

/-- What filing a new entry does. -/
structure Retained (cache cache' : SequenceCache R) (sequence : SequenceId)
    (record : SequenceRecord R.AppendTransaction) (blocks : List TokenBlockId)
    (snapshot : R.Snapshot) : Prop where
  live : cache.sequences.get? sequence = some record
  room : cache.nextPrefixId ≠ usizeMax
  state : cache' = ({ cache.putPages cache'.pages with
    index := { cache.index with
      tree := R.insertK cache.index.tree (keyOf blocks) cache.nextPrefixId }
    prefixes := cache'.prefixes
    lru := cache'.lru
    clock := cache'.clock
    nextPrefixId := cache.nextPrefixId + 1
    stats := { (cache.putPages cache'.pages).stats with
      retainedSnapshotBytes :=
        cache.stats.retainedSnapshotBytes + R.retainedBytes snapshot } } :
    SequenceCache R).refresh
  pages : Arena.Updated (fun id page =>
      { page with prefixRefs := page.prefixRefs + record.pages.count id })
    cache.pages cache'.pages
  prefixes : ∃ retimed, Retimed cache.prefixes retimed ∧ cache'.prefixes =
    retimed.insert cache.nextPrefixId (retainedEntry record blocks snapshot cache'.clock)
  order : cache'.recency = moveToBack cache.recency cache.nextPrefixId

section File

variable {sequence : SequenceId} {record : SequenceRecord R.AppendTransaction}
variable {snapshot : R.Snapshot}

theorem incrementPrefixRefs_ok (hinv : Inv orphans stray cache) {ids : List PageId}
    (hroom : cache.nextPrefixId ≠ usizeMax) (hnodup : ids.Nodup)
    (hlive : ∀ id ∈ ids, ∃ page, cache.pages.get? id = some page) {next : ℕ} :
    ∃ pages', incrementPrefixRefs ids { cache with nextPrefixId := next } =
        .ok () { cache.putPages pages' with nextPrefixId := next } ∧
      Arena.Updated (fun id page => { page with prefixRefs := page.prefixRefs + ids.count id })
        cache.pages pages' := by
  obtain ⟨pages', hrun, hupdated⟩ := (incrementPrefixRef_moves
      { cache with nextPrefixId := next }).visitEach ids
    hinv.pages_le_usize (by
      intro id hmem
      obtain ⟨page, hpage⟩ := hlive id hmem
      have hle := hinv.prefixRefs_le hpage
      have hbounded := hinv.ids_bounded
      have howned := (hinv.owned.page id page hpage).owned
      rw [List.count_eq_one_of_mem hnodup hmem]
      exact ⟨page, hpage, howned, by omega⟩)
  refine ⟨pages', ?_, hupdated⟩
  have hself : ({ cache with nextPrefixId := next } : SequenceCache R).putPages cache.pages =
      { cache with nextPrefixId := next } :=
    congrArg (fun cache : SequenceCache R => { cache with nextPrefixId := next })
      (putPages_self hinv.counted)
  rw [hself] at hrun
  rw [incrementPrefixRefs_eq, hrun]
  rfl

/-- The state once the entry is filed, before its statistics are published. -/
def filedState (cache : SequenceCache R) (record : SequenceRecord R.AppendTransaction)
    (blocks : List TokenBlockId) (snapshot : R.Snapshot) (pages' : Pages R.Page)
    (prefixes : Prefixes R.Snapshot) (lru : LruSet) (clock : ℕ) : SequenceCache R :=
  { cache.putPages pages' with
    index := { cache.index with
      tree := R.insertK cache.index.tree (keyOf blocks) cache.nextPrefixId }
    prefixes := prefixes.insert cache.nextPrefixId (retainedEntry record blocks snapshot clock)
    lru := lru.insert (clock, cache.nextPrefixId)
    clock := clock
    nextPrefixId := cache.nextPrefixId + 1
    stats := { (cache.putPages pages').stats with
      retainedSnapshotBytes :=
        cache.stats.retainedSnapshotBytes + R.retainedBytes snapshot } }

variable {pages' : Pages R.Page} {prefixes : Prefixes R.Snapshot} {lru : LruSet} {clock : ℕ}

/-- The next identity stands for no entry. -/
theorem nextPrefixId_fresh (hinv : Inv orphans (stray ++ blocks) cache) :
    cache.prefixes[cache.nextPrefixId]? = none := by
  by_contra hsome
  have hmem : cache.nextPrefixId ∈ cache.prefixes :=
    ExtTreeMap.mem_iff_isSome_getElem?.mpr (Option.isSome_iff_ne_none.mpr hsome)
  exact absurd (hinv.ids_below _ hmem) (lt_irrefl _)

/-- The entry holds the pages of the sequence, which are complete. -/
theorem filed_owned (hinv : Inv orphans (stray ++ blocks) cache)
    (hrecord : cache.sequences.get? sequence = some record) (hposition : record.position ≠ 0)
    (haligned : record.position % cache.config.pageTokens = 0)
    (hupdated : Arena.Updated (fun id page =>
      { page with prefixRefs := page.prefixRefs + record.pages.count id }) cache.pages pages')
    (hretimed : Retimed cache.prefixes prefixes) (hfresh : prefixes[cache.nextPrefixId]? = none) :
    Owned orphans cache.config.pageTokens pages' cache.sequences
      (prefixes.insert cache.nextPrefixId (retainedEntry record blocks snapshot clock)) := by
  have hok := hinv.owned.sequence sequence record hrecord
  have hcomplete := hok.complete hinv.config.pageTokens_pos haligned
  refine (hinv.owned.relabel (hretimed.map_eq _ fun _ => rfl)).retain
    (hupdated.wf hinv.owned.pages_wf) hupdated.get?
    (fun id hmem => (hcomplete id hmem).imp fun _ h => ⟨h.1, h.2.2.1⟩)
    (fun id => mapTotal_insert _ hfresh) ?_
  intro id entry hentry
  rw [getElem?_insert_eq] at hentry
  split_ifs at hentry
  · right
    rw [← Option.some.inj hentry]
    have hlength := hok.length_pages
    rw [ceilDiv_of_aligned hinv.config.pageTokens_pos haligned] at hlength
    refine ⟨hposition, ?_, ?_, hok.nodup.of_append_left, ?_⟩
    · simp only [retainedEntry, hlength]
      exact Nat.div_mul_cancel (Nat.dvd_of_mod_eq_zero haligned)
    · have := hok.position_le
      have := hok.bounded
      simp only [retainedEntry]
      omega
    · intro id hmem
      obtain ⟨page, hpage, hstorage⟩ := hcomplete id hmem
      refine ⟨{ page with prefixRefs := page.prefixRefs + record.pages.count id },
        (hupdated.get? id).trans ?_, hstorage⟩
      rw [hpage]
      rfl
  · exact Or.inl hentry

/-- The index files the entry under the blocks that were interned for it. -/
theorem filed_filed (hinv : Inv orphans (stray ++ blocks) cache)
    (hlength : blocks.length = record.pages.length)
    (habsent : ∀ (id : PrefixEntryId) (entry : PrefixEntry R.Snapshot),
      cache.prefixes[id]? = some entry → entry.key ≠ keyOf blocks)
    (hretimed : Retimed cache.prefixes prefixes) (hfresh : prefixes[cache.nextPrefixId]? = none) :
    Filed cache.config.pageTokens stray { cache.index with
        tree := R.insertK cache.index.tree (keyOf blocks) cache.nextPrefixId }
      (prefixes.insert cache.nextPrefixId (retainedEntry record blocks snapshot clock)) := by
  refine @Filed.insert R _ _ _ _ _ (retainedEntry record blocks snapshot clock)
    (hinv.filed.retimed hretimed) hfresh rfl hlength fun other found hfound => ?_
  obtain ⟨old, hold, huntimed⟩ := hretimed.of_new hfound
  have hkey : found.untimed.key = old.untimed.key := congrArg PrefixEntry.key huntimed
  exact fun heq => habsent other old hold (hkey.symm.trans heq)

/-- An identity in use is the new one or was used before. -/
theorem filed_ids_below (hinv : Inv orphans (stray ++ blocks) cache)
    (hretimed : Retimed cache.prefixes prefixes) {id : PrefixEntryId}
    (hmem : id ∈ prefixes.insert cache.nextPrefixId
      (retainedEntry record blocks snapshot clock)) : id < cache.nextPrefixId + 1 := by
  rw [ExtTreeMap.mem_insert] at hmem
  rcases hmem with heq | hmem
  · rw [← LawfulEqCmp.eq_of_compare heq]
    exact Nat.lt_succ_self _
  · rw [ExtTreeMap.mem_iff_isSome_getElem?] at hmem
    obtain ⟨found, hfound⟩ := Option.isSome_iff_exists.mp hmem
    obtain ⟨old, hold, -⟩ := hretimed.of_new hfound
    exact (hinv.ids_below id (ExtTreeMap.mem_iff_isSome_getElem?.mpr (by simp [hold]))).trans
      (Nat.lt_succ_self _)

theorem filed_ready (hinv : Inv orphans (stray ++ blocks) cache)
    (hroom : cache.nextPrefixId ≠ usizeMax)
    (hrecord : cache.sequences.get? sequence = some record) (hposition : record.position ≠ 0)
    (haligned : record.position % cache.config.pageTokens = 0)
    (hlength : blocks.length = record.pages.length)
    (habsent : ∀ (id : PrefixEntryId) (entry : PrefixEntry R.Snapshot),
      cache.prefixes[id]? = some entry → entry.key ≠ keyOf blocks)
    (hsnapshot : cache.stats.retainedSnapshotBytes + R.retainedBytes snapshot ≤
      cache.config.maxSnapshotBytes)
    (hentries : ∀ limit, cache.config.maxPrefixEntries = some limit →
      cache.prefixes.size + 1 ≤ limit)
    (hheld : cache.chargedBytes cache.pages.values.length + R.retainedBytes snapshot ≤
      cache.config.maxManagedBytes)
    (hcharged : cache.chargedBytes cache.residentNow + R.retainedBytes snapshot ≤
      2 * cache.config.maxManagedBytes)
    (hupdated : Arena.Updated (fun id page =>
      { page with prefixRefs := page.prefixRefs + record.pages.count id }) cache.pages pages')
    (hretimed : Retimed cache.prefixes prefixes) (hranked : Ranked prefixes lru)
    (hclocked : Clocked prefixes clock) (hfresh : prefixes[cache.nextPrefixId]? = none) :
    Ready orphans stray
      (cache.filedState record blocks snapshot pages' prefixes lru clock) := by
  have hbounded := hinv.ids_bounded
  constructor
  · obtain ⟨h1, h2, h3, h4, h5, h6⟩ := hinv.config
    exact ⟨h1, h2, h3, h4, h5, h6⟩
  · exact filed_owned hinv hrecord hposition haligned hupdated hretimed hfresh
  · obtain ⟨h1, h2, h3, h4, h5, h6⟩ := hinv.counted
    refine ⟨h1, h2, h3, ?_, rfl, h6⟩
    simp only [filedState]
    rw [mapTotal_insert _ hfresh, hretimed.total_eq _ fun _ => rfl, ← h4]
    rfl
  · simp only [filedState, chargedBytes, putPages, hupdated.length_values] at hheld ⊢
    omega
  · simp only [filedState, chargedBytes, residentNow, putPages, hupdated.length_values]
      at hcharged ⊢
    omega
  · exact hsnapshot
  · intro limit hlimit
    have hsize := ExtTreeMap.size_insert_le (t := prefixes) (k := cache.nextPrefixId)
      (v := retainedEntry record blocks snapshot clock)
    have := hretimed.size_eq
    have := hentries limit hlimit
    simp only [filedState]
    omega
  · exact filed_filed hinv hlength habsent hretimed hfresh
  · exact hranked.insert hfresh
  · exact hclocked.insert le_rfl
  · exact fun id hmem => filed_ids_below hinv hretimed hmem
  · simp only [filedState]
    omega

theorem insertEntry_ok (hinv : Inv orphans (stray ++ blocks) cache)
    (hroom : cache.nextPrefixId ≠ usizeMax)
    (hrecord : cache.sequences.get? sequence = some record) (hposition : record.position ≠ 0)
    (haligned : record.position % cache.config.pageTokens = 0)
    (hlength : blocks.length = record.pages.length)
    (habsent : ∀ (id : PrefixEntryId) (entry : PrefixEntry R.Snapshot),
      cache.prefixes[id]? = some entry → entry.key ≠ keyOf blocks)
    (hsnapshot : cache.stats.retainedSnapshotBytes + R.retainedBytes snapshot ≤
      cache.config.maxSnapshotBytes)
    (hentries : ∀ limit, cache.config.maxPrefixEntries = some limit →
      cache.prefixes.size + 1 ≤ limit)
    (hheld : cache.chargedBytes cache.pages.values.length + R.retainedBytes snapshot ≤
      cache.config.maxManagedBytes)
    (hcharged : cache.chargedBytes cache.residentNow + R.retainedBytes snapshot ≤
      2 * cache.config.maxManagedBytes) :
    ∃ cache', insertEntry ⟨keyOf blocks, blocks⟩ record.pages record.position snapshot
        (cache.stats.retainedSnapshotBytes + R.retainedBytes snapshot) cache =
          .ok (.inserted cache.nextPrefixId) cache' ∧
      Inv orphans stray cache' ∧ Retained cache cache' sequence record blocks snapshot := by
  have hok := hinv.owned.sequence sequence record hrecord
  have hcomplete := hok.complete hinv.config.pageTokens_pos haligned
  have hbounded := hinv.ids_bounded
  unfold insertEntry
  rw [get_bind_run]
  simp only
  rw [checkedAdd_of_le (by omega), okOr_some, pure_bind_run, modify_bind_run]
  obtain ⟨pages', hincrement, hupdated⟩ := incrementPrefixRefs_ok hinv hroom
    hok.nodup.of_append_left fun id hmem => (hcomplete id hmem).imp fun _ h => h.1
  rw [bind_ok hincrement]
  have hcommit : onIndex (PrefixIndex.commitKey ⟨keyOf blocks, blocks⟩ cache.nextPrefixId)
      { cache.putPages pages' with nextPrefixId := cache.nextPrefixId + 1 } = .ok ()
        { cache.putPages pages' with
          nextPrefixId := cache.nextPrefixId + 1
          index := { cache.index with
            tree := R.insertK cache.index.tree (keyOf blocks) cache.nextPrefixId } } := rfl
  rw [bind_ok hcommit]
  rcases @tick_cases R { cache.putPages pages' with
      nextPrefixId := cache.nextPrefixId + 1
      index := { cache.index with
        tree := R.insertK cache.index.tree (keyOf blocks) cache.nextPrefixId } }
      ⟨hinv.ranked, hinv.clocked, hinv.size_le.trans hbounded⟩ with
    ⟨hfull, -⟩ | ⟨ticked, htick, htouched, hbefore⟩
  · have hsize := hinv.size_le
    simp only [putPages] at hfull
    omega
  rw [bind_ok htick, modify_bind_run]
  obtain ⟨hstate, hretimed, hranked, hclocked, horder⟩ := htouched
  change keysByTime ticked.lru = keysByTime cache.lru at horder
  change Retimed cache.prefixes ticked.prefixes at hretimed
  generalize ticked.prefixes = prefixes at hstate hretimed hranked hclocked hbefore
  generalize ticked.lru = lru at hstate hranked horder
  generalize ticked.clock = clock at hstate hclocked hbefore
  subst hstate
  have hfresh : prefixes[cache.nextPrefixId]? = none := by
    have hmap := hretimed cache.nextPrefixId
    rw [nextPrefixId_fresh hinv, Option.map_none, Option.map_eq_none_iff] at hmap
    exact hmap
  obtain ⟨hrun, hfinal⟩ := (filed_ready hinv hroom hrecord hposition haligned hlength habsent
    hsnapshot hentries hheld hcharged hupdated hretimed hranked hclocked hfresh).refresh
  refine ⟨_, ?_, hfinal, hrecord, hroom, rfl, hupdated, ⟨prefixes, hretimed, rfl⟩, ?_⟩
  · exact (bind_ok (updateStats_run _ _)).trans ((bind_ok hrun).trans (pure_run _ _))
  · change keysByTime (lru.insert (clock, cache.nextPrefixId)) = moveToBack (keysByTime cache.lru) _
    rw [← horder]
    refine keysByTime_use (fun used other hold => ?_)
      (mem_insert_lru hranked hfresh clock)
    obtain ⟨found, hfound, rfl⟩ := (hranked used other).mp hold
    exact hbefore other found hfound

end File

/-! ## Checks before a retention -/

theorem checkSealed_ok {ids : List PageId}
    (hcomplete : ∀ id ∈ ids, ∃ page, cache.pages.get? id = some page ∧ page.physical.isSome ∧
      page.sealed = true ∧ page.validTokens = cache.config.pageTokens) :
    cache.checkSealed ids = .ok () := by
  induction ids with
  | nil => rfl
  | cons id rest ih =>
      obtain ⟨page, hpage, -, hsealed, hvalid⟩ := hcomplete id (by simp)
      rw [checkSealed, except_bind_ok (pageRecord_ok hpage), ensure_pos (by simp [hsealed, hvalid]),
        pure_bind]
      exact ih fun other hmem => hcomplete other (List.mem_cons_of_mem _ hmem)

theorem checkPrefixRoom_ok {ids : List PageId}
    (hroom : ∀ id ∈ ids, ∃ page, cache.pages.get? id = some page ∧
      page.prefixRefs + 1 ≤ usizeMax) : cache.checkPrefixRoom ids = .ok () := by
  induction ids with
  | nil => rfl
  | cons id rest ih =>
      obtain ⟨page, hpage, hle⟩ := hroom id (by simp)
      rw [checkPrefixRoom, except_bind_ok (pageRecord_ok hpage), checkedAdd_of_le hle, okOr_some,
        pure_bind]
      exact ih fun other hmem => hroom other (List.mem_cons_of_mem _ hmem)

theorem evictedSnapshotBytes_ok {entries : List PrefixEntryId} (total : ℕ)
    (hlive : ∀ id ∈ entries, ∃ entry, cache.prefixes[id]? = some entry)
    (hroom : total + cache.snapshotsOf entries ≤ usizeMax) :
    cache.evictedSnapshotBytes entries total = .ok (total + cache.snapshotsOf entries) := by
  induction entries generalizing total with
  | nil =>
      simp only [evictedSnapshotBytes, snapshotsOf, valuesOf, List.filterMap_nil, List.map_nil,
        List.sum_nil, Nat.add_zero]
      rfl
  | cons id rest ih =>
      obtain ⟨entry, hentry⟩ := hlive id (by simp)
      have hcons : cache.snapshotsOf (id :: rest) =
          entry.snapshotBytes + cache.snapshotsOf rest := by
        simp [snapshotsOf, valuesOf, hentry]
      rw [hcons] at hroom
      rw [evictedSnapshotBytes, hentry, okOr_some, pure_bind,
        checkedAdd_of_le (by omega), okOr_some,
        pure_bind, ih _ (fun other hmem => hlive other (List.mem_cons_of_mem _ hmem)) (by omega),
        hcons, Nat.add_assoc]

/-! ## The step -/

/-- A prefix that the sequence may retain and that no entry retains yet. -/
structure Retainable (cache : SequenceCache R) (sequence : SequenceId) (tokens : List Token)
    (record : SequenceRecord R.AppendTransaction) : Prop where
  live : cache.sequences.get? sequence = some record
  position_ne : record.position ≠ 0
  aligned : record.position % cache.config.pageTokens = 0
  length_le : record.position ≤ tokens.length
  absent : cache.index.exact (tokens.take record.position) cache.config.pageTokens = none

/-- The plan that makes room for a new entry. -/
def retainPlan (cache : SequenceCache R) (snapshot : R.Snapshot) :
    CacheResult R (Option (List PrefixEntryId)) :=
  cache.planEvictions (R.retainedBytes snapshot) 0 cache.config.maxManagedBytes none
    (some (cache.stats.retainedSnapshotBytes + R.retainedBytes snapshot))
    (some (cache.prefixes.size + 1))

/-- What a retention returns and leaves behind. -/
inductive Retains (stray : List TokenBlockId) (cache : SequenceCache R) (sequence : SequenceId)
    (tokens : List Token) (snapshot : R.Snapshot) (context : R.Context) :
    RetainOutcome → SequenceCache R → Prop
  | duplicate {record : SequenceRecord R.AppendTransaction} {id : PrefixEntryId}
      {cache' : SequenceCache R} : cache.sequences.get? sequence = some record →
      cache.index.exact (tokens.take record.position) cache.config.pageTokens = some id →
      Touched cache cache' (some id) →
      Retains stray cache sequence tokens snapshot context (.duplicate id) cache'
  | inserted {record : SequenceRecord R.AppendTransaction} {blocks : List TokenBlockId}
      {interned evicted cache' : SequenceCache R} {plan : List PrefixEntryId}
      {retired : List PageId} {physical : List R.Page} {deferred : ℕ} :
      Retainable cache sequence tokens record → blocks ≠ [] →
      Interns cache interned stray blocks (tokens.take record.position) →
      R.retainedBytes snapshot ≤ cache.config.maxSnapshotBytes →
      cache.retainPlan snapshot = .ok (some plan) →
      Evicted interned evicted plan context retired physical deferred →
      Retained evicted cache' sequence record blocks snapshot →
      Retains stray cache sequence tokens snapshot context (.inserted cache.nextPrefixId) cache'

/-- Why a retention fails.  Two checks come too late: they leave the blocks of the key
interned. -/
inductive RetainFails (stray : List TokenBlockId) (cache : SequenceCache R)
    (sequence : SequenceId) (tokens : List Token) (snapshot : R.Snapshot) (context : R.Context) :
    Failure R.Error → SequenceCache R → Prop
  | stale : cache.sequences.get? sequence = none →
      RetainFails stray cache sequence tokens snapshot context (.error .staleSequence) cache
  | invalid {record : SequenceRecord R.AppendTransaction} :
      cache.sequences.get? sequence = some record →
      record.position = 0 ∨ record.position % cache.config.pageTokens ≠ 0 ∨
        tokens.length < record.position →
      RetainFails stray cache sequence tokens snapshot context (.error .invalidTokenPrefix) cache
  | crowded {record : SequenceRecord R.AppendTransaction} {id : PrefixEntryId}
      {cache' : SequenceCache R} : cache.sequences.get? sequence = some record →
      cache.index.exact (tokens.take record.position) cache.config.pageTokens = some id →
      cache.prefixes.size = usizeMax → Touched cache cache' none →
      RetainFails stray cache sequence tokens snapshot context
        (.panic "attempt to add with overflow") cache'
  | oversized {record : SequenceRecord R.AppendTransaction} :
      Retainable cache sequence tokens record →
      cache.config.maxSnapshotBytes < R.retainedBytes snapshot →
      RetainFails stray cache sequence tokens snapshot context (.error .snapshotCapacity) cache
  | uncountable {record : SequenceRecord R.AppendTransaction} :
      Retainable cache sequence tokens record → cache.prefixes.size = usizeMax →
      RetainFails stray cache sequence tokens snapshot context (.error .arithmeticOverflow) cache
  | unkeyed {record : SequenceRecord R.AppendTransaction} {cache' : SequenceCache R}
      {error : CacheError R.Error} : Retainable cache sequence tokens record →
      R.retainedBytes snapshot ≤ cache.config.maxSnapshotBytes →
      error = .arithmeticOverflow ∨ error = .idExhausted "token block" →
      PrefixIndex.prepareKey (tokens.take record.position) cache.config.pageTokens cache.index =
        .error (.error error) cache'.index → Undone cache cache' →
      RetainFails stray cache sequence tokens snapshot context (.error error) cache'
  | full {record : SequenceRecord R.AppendTransaction} {interned cache' : SequenceCache R}
      {blocks : List TokenBlockId} : Retainable cache sequence tokens record →
      R.retainedBytes snapshot ≤ cache.config.maxSnapshotBytes →
      Interns cache interned stray blocks (tokens.take record.position) →
      cache.retainPlan snapshot = .ok none → Undone cache cache' →
      RetainFails stray cache sequence tokens snapshot context
        (.error (if cache.stats.retainedSnapshotBytes + R.retainedBytes snapshot >
          cache.config.maxSnapshotBytes then .snapshotCapacity else .prefixCapacity)) cache'
  | refused {record : SequenceRecord R.AppendTransaction} {interned cache' : SequenceCache R}
      {plan : List PrefixEntryId} {blocks : List TokenBlockId} {failure : Failure R.Error} :
      Retainable cache sequence tokens record →
      R.retainedBytes snapshot ≤ cache.config.maxSnapshotBytes →
      Interns cache interned stray blocks (tokens.take record.position) →
      cache.retainPlan snapshot = .ok (some plan) →
      cache.nextPrefixId ≠ usizeMax →
      Refused interned (interned.evictionBatch plan) context failure → Undone cache cache' →
      RetainFails stray cache sequence tokens snapshot context failure cache'
  | overflown {record : SequenceRecord R.AppendTransaction} {cache' : SequenceCache R}
      {blocks : List TokenBlockId} : Retainable cache sequence tokens record →
      R.retainedBytes snapshot ≤ cache.config.maxSnapshotBytes →
      usizeMax < cache.stats.totalManagedBytes + R.retainedBytes snapshot ∨
        usizeMax < cache.stats.residentPages + cache.stats.reservedPages →
      cache.prefixes.size ≠ usizeMax → blocks ≠ [] →
      Interns cache cache' stray blocks (tokens.take record.position) →
      RetainFails stray cache sequence tokens snapshot context (.error .arithmeticOverflow) cache'
  | unnumbered {record : SequenceRecord R.AppendTransaction} {cache' : SequenceCache R}
      {blocks : List TokenBlockId} {plan : List PrefixEntryId} :
      Retainable cache sequence tokens record →
      R.retainedBytes snapshot ≤ cache.config.maxSnapshotBytes →
      cache.retainPlan snapshot = .ok (some plan) → cache.nextPrefixId = usizeMax →
      cache.prefixes.size ≠ usizeMax → blocks ≠ [] →
      Interns cache cache' stray blocks (tokens.take record.position) →
      RetainFails stray cache sequence tokens snapshot context
        (.error (.idExhausted "prefix entry")) cache'

/-- A retention that was given up while it carried out its plan, at an answer that breaks the
contract. -/
structure Forsaken (cache : SequenceCache R) (sequence : SequenceId) (tokens : List Token)
    (snapshot : R.Snapshot) (failure : Failure R.Error) (cache' : SequenceCache R) : Prop where
  retainable : ∃ record, Retainable cache sequence tokens record
  planned : ∃ plan, cache.retainPlan snapshot = .ok (some plan)
  numbered : cache.nextPrefixId ≠ usizeMax
  breached : Breached cache failure cache'

section Step

variable {sequence : SequenceId} {record : SequenceRecord R.AppendTransaction}
variable {snapshot : R.Snapshot} {interned : SequenceCache R}

/-- Planning does not look at the index. -/
theorem Interns.retainPlan_eq (h : Interns cache interned stray blocks tokens)
    (hinv : Inv orphans stray cache) (hne : blocks ≠ []) (snapshot : R.Snapshot) :
    interned.retainPlan snapshot = cache.retainPlan snapshot := by
  have hplan := @planEvictions_congr R cache orphans stray (R.retainedBytes snapshot) 0
    cache.config.maxManagedBytes none interned _ hinv (h.inv hinv hne) h.state
    (some (cache.stats.retainedSnapshotBytes + R.retainedBytes snapshot))
    (some (cache.prefixes.size + 1)) (Nat.le_add_right _ _) (Nat.le_succ _)
  unfold retainPlan
  rw [← hplan, show interned.config = cache.config by rw [h.state],
    show interned.stats = cache.stats by rw [h.state],
    show interned.prefixes = cache.prefixes by rw [h.state]]

/-- Once the planned entries are gone there is room for the new one. -/
theorem Plan.insertEntry_ok {extraPages : ℕ} {protectedEntry : Option PrefixEntryId}
    {plan : List PrefixEntryId} {evicted : SequenceCache R} {context : R.Context}
    {retired : List PageId} {physical : List R.Page} {deferred : ℕ}
    (hplan : Plan cache (R.retainedBytes snapshot) extraPages cache.config.maxManagedBytes
      protectedEntry (cache.stats.retainedSnapshotBytes + R.retainedBytes snapshot)
      (cache.prefixes.size + 1) plan)
    (hinv : Inv orphans (stray ++ blocks) cache)
    (hevicted : Evicted cache evicted plan context retired physical deferred)
    (hinv' : Inv orphans (stray ++ blocks) evicted) (hroom : cache.nextPrefixId ≠ usizeMax)
    (hrecord : cache.sequences.get? sequence = some record) (hposition : record.position ≠ 0)
    (haligned : record.position % cache.config.pageTokens = 0)
    (hlength : blocks.length = record.pages.length)
    (habsent : ∀ (id : PrefixEntryId) (entry : PrefixEntry R.Snapshot),
      cache.prefixes[id]? = some entry → entry.key ≠ keyOf blocks) :
    ∃ cache', insertEntry ⟨keyOf blocks, blocks⟩ record.pages record.position snapshot
        (cache.stats.retainedSnapshotBytes - cache.snapshotsOf plan + R.retainedBytes snapshot)
        evicted = .ok (.inserted cache.nextPrefixId) cache' ∧
      Inv orphans stray cache' ∧ Retained evicted cache' sequence record blocks snapshot := by
  have hsnapshots := hevicted.snapshotBytes
  have hbytes : cache.stats.retainedSnapshotBytes - cache.snapshotsOf plan =
      evicted.stats.retainedSnapshotBytes := by
    omega
  have hsize := size_eraseAll hplan.nodup hplan.live
  obtain ⟨hheld, hcharged⟩ := hplan.room hinv le_rfl rfl hevicted
  rw [hbytes, ← hevicted.nextPrefixId]
  apply SequenceCache.insertEntry_ok hinv' _ _ hposition _ hlength _ _ _ hheld hcharged
  · rw [hevicted.nextPrefixId]
    exact hroom
  · rw [hevicted.sequences]
    exact hrecord
  · rw [hevicted.config]
    exact haligned
  · intro id entry hentry
    rw [hevicted.prefixes, getElem?_eraseAll] at hentry
    split_ifs at hentry
    exact habsent id entry hentry
  · have hle := hplan.snapshots_le
    rw [hevicted.config]
    omega
  · intro limit hlimit
    have hle := hplan.entries_le
    rw [hevicted.config] at hlimit
    rw [hlimit, Option.getD_some] at hle
    rw [hevicted.prefixes]
    omega

theorem retainPrepared_ends (hinv : Inv orphans stray cache)
    (hretainable : Retainable cache sequence tokens record)
    (hbytes_le : R.retainedBytes snapshot ≤ cache.config.maxSnapshotBytes)
    (hinterns : Interns cache interned stray blocks (tokens.take record.position))
    (hne : blocks ≠ []) (hlength : blocks.length = record.pages.length)
    (habsent : ∀ (id : PrefixEntryId) (entry : PrefixEntry R.Snapshot),
      cache.prefixes[id]? = some entry → entry.key ≠ keyOf blocks)
    (hsnapshot : cache.stats.retainedSnapshotBytes + R.retainedBytes snapshot ≤ usizeMax)
    (hsize : cache.prefixes.size ≠ usizeMax) (context : R.Context) :
    Ends (retainPrepared ⟨keyOf blocks, blocks⟩ record.pages record.position snapshot
        (cache.stats.retainedSnapshotBytes + R.retainedBytes snapshot)
        (cache.prefixes.size + 1) context interned)
      (fun outcome cache' => Inv orphans stray cache' ∧
        Retains stray cache sequence tokens snapshot context outcome cache')
      (fun failure cache' =>
        RetainFails stray cache sequence tokens snapshot context failure cache' ∨
          Forsaken cache sequence tokens snapshot failure cache') := by
  have hrecord := hretainable.live
  have hposition := hretainable.position_ne
  have haligned := hretainable.aligned
  have hinv' := hinterns.inv hinv hne
  have hcomplete := (hinv.owned.sequence sequence record hrecord).complete
    hinv.config.pageTokens_pos haligned
  have hplan_eq := hinterns.retainPlan_eq hinv hne snapshot
  have hstate := hinterns.state
  have hconfig : interned.config = cache.config := by rw [hstate]
  have hstats : interned.stats = cache.stats := by rw [hstate]
  have hprefixes : interned.prefixes = cache.prefixes := by rw [hstate]
  have hnext : interned.nextPrefixId = cache.nextPrefixId := by rw [hstate]
  have hpages : interned.pages = cache.pages := by rw [hstate]
  have hsequences : interned.sequences = cache.sequences := by rw [hstate]
  have hself : Called 0 interned interned [] := ⟨rfl, .refl⟩
  unfold retainPrepared
  refine Ends.get ?_
  rcases planEvictions_cases hinv'
      (some (cache.stats.retainedSnapshotBytes + R.retainedBytes snapshot))
      (some (cache.prefixes.size + 1)) (by rw [hstats]; exact Nat.le_add_right _ _)
      (by rw [hprefixes]; exact Nat.le_succ _) with
    ⟨hover, herror⟩ | ⟨result, hresult, hplan⟩
  · rw [bind_error (reads_error (fun cache : SequenceCache R =>
      cache.planEvictions _ _ _ _ _ _) herror)]
    rw [hstats] at hover
    exact Or.inl (.overflown hretainable hbytes_le hover hsize hne hinterns)
  rw [bind_ok (reads_ok (fun cache : SequenceCache R =>
    cache.planEvictions _ _ _ _ _ _) hresult)]
  have hplanned_eq : cache.retainPlan snapshot = .ok result := by
    rw [← hplan_eq, ← hresult, retainPlan, hstats, hprefixes]
  cases result with
  | none =>
      obtain ⟨cache'', hrollback, hundone⟩ := hinterns.rollback hinv hself
      simp only
      rw [bind_ok hrollback, throw_run]
      rw [hconfig]
      exact Or.inl (.full hretainable hbytes_le hinterns hplanned_eq hundone)
  | some plan =>
      have hplanned := hplan plan rfl
      rw [Option.getD_some, Option.getD_some, ← hstats, ← hprefixes] at hplanned
      simp only
      by_cases hfull : interned.nextPrefixId = usizeMax
      · have herror : interned.preparePrefixId = .error (.error (.idExhausted "prefix entry")) :=
          ensure_neg (not_not.mpr hfull)
        rw [bind_error (reads_error (fun cache : SequenceCache R =>
          cache.preparePrefixId) herror)]
        exact Or.inl (.unnumbered hretainable hbytes_le hplanned_eq (hnext ▸ hfull) hsize hne
          hinterns)
      have hprepared : interned.preparePrefixId = .ok () := ensure_pos hfull
      have hbounded := hinv'.ids_bounded
      have hroom : interned.checkPrefixRoom record.pages = .ok () := by
        refine checkPrefixRoom_ok fun id hmem => ?_
        obtain ⟨page, hpage, -⟩ := hcomplete id hmem
        rw [← hpages] at hpage
        have := hinv'.prefixRefs_le hpage
        exact ⟨page, hpage, by omega⟩
      have hsnapshots_le := snapshotsOf_le hinv'.counted hplanned.nodup hplanned.live
      have hsnapshot_max := hinv'.budgeted.snapshot_le
      have hmax_le := hinv'.config.maxSnapshotBytes_le
      have hdouble := hinv'.double_le
      have hevictedBytes := evictedSnapshotBytes_ok 0 hplanned.live (by omega)
      rw [Nat.zero_add] at hevictedBytes
      rw [bind_ok (reads_ok (fun cache : SequenceCache R => cache.preparePrefixId)
          hprepared),
        bind_ok (reads_ok (fun cache : SequenceCache R =>
          cache.checkPrefixRoom record.pages) hroom),
        bind_ok (reads_ok (fun cache : SequenceCache R =>
          cache.evictedSnapshotBytes plan 0) hevictedBytes),
        checkedSub_of_le hsnapshots_le, Option.bind_some, checkedAdd_of_le (by rw [hstats]; omega),
        okOr_some, pure_bind_run]
      have hcommit := commitEvictions_ends hinv' hplanned.nodup hplanned.live context
      cases hrun : commitEvictions plan context interned with
      | error failure between =>
          rw [hrun] at hcommit
          rcases hcommit with ⟨hrefused, hcalled⟩ | ⟨hbreached, hbetween⟩
          case inr =>
            obtain ⟨error, rfl⟩ := hbreached.error
            obtain ⟨index', hrollback, -⟩ := hinterns.release hinv
              (show between.index = interned.index by rw [hbetween])
            rw [bind_ok (attempt_error hrun)]
            simp only
            rw [bind_ok hrollback, throw_run]
            have hbackend : Prepares cache.backend interned.backend := by
              rw [hstate]
              exact .refl _
            exact Or.inr ⟨⟨record, hretainable⟩, ⟨plan, hplanned_eq⟩, hnext ▸ hfull,
              (hbackend.breached hpages hbreached).congr rfl rfl⟩
          obtain ⟨error, rfl⟩ := Failure.error_of_isReported hrefused.isReported
          obtain ⟨cache'', hrollback, hundone⟩ := hinterns.rollback hinv hcalled
          rw [bind_ok (attempt_error hrun)]
          simp only
          rw [bind_ok hrollback, throw_run]
          exact Or.inl (.refused hretainable hbytes_le hinterns hplanned_eq (hnext ▸ hfull)
            hrefused hundone)
      | ok value evicted =>
          rw [hrun] at hcommit
          obtain ⟨hinv'', retired, physical, deferred, hevicted⟩ := hcommit
          rw [bind_ok (attempt_ok hrun)]
          simp only
          obtain ⟨cache', hinsert, hfinal, hretained⟩ := hplanned.insertEntry_ok hinv' hevicted hinv''
            hfull (by rw [hsequences]; exact hrecord) hposition
            (by rw [hconfig]; exact haligned) hlength
            (by rw [hprefixes]; exact habsent)
          rw [hinsert]
          refine ⟨hfinal, ?_⟩
          rw [hnext]
          exact .inserted hretainable hne hinterns hbytes_le hplanned_eq hevicted hretained

theorem exact_live (hinv : Inv orphans stray cache) {pageTokens : ℕ} {id : PrefixEntryId}
    (hexact : cache.index.exact tokens pageTokens = some id) :
    ∃ entry, cache.prefixes[id]? = some entry := by
  unfold PrefixIndex.exact at hexact
  split at hexact
  · cases hexact
  · split_ifs at hexact
    obtain ⟨entry, hentry, -⟩ := (hinv.filed.tree _ id).mp hexact
    exact ⟨entry, hentry⟩

theorem retainDuplicate_spec (hinv : Inv orphans stray cache) {id : PrefixEntryId}
    {entry : PrefixEntry R.Snapshot} (hentry : cache.prefixes[id]? = some entry) :
    Ends (retainDuplicate id cache)
      (fun outcome cache' => outcome = .duplicate id ∧ Touched cache cache' (some id))
      (fun failure cache' => failure = .panic "attempt to add with overflow" ∧
        cache.prefixes.size = usizeMax ∧ Touched cache cache' none) := by
  unfold retainDuplicate
  rcases tick_cases hinv.timed with ⟨hfull, htick⟩ | ⟨ticked, htick, htouched, hbefore⟩
  · rw [bind_error htick]
    exact ⟨rfl, hfull, renormalize_touched hinv.timed⟩
  obtain ⟨entry', hentry', -⟩ := htouched.retimed.symm.of_new hentry
  obtain ⟨touched, htouch, htouched'⟩ := touch_ok htouched.ranked htouched.clocked hbefore hentry'
  rw [bind_ok htick, get_bind_run, hentry', okOr_some, pure_bind_run, bind_ok htouch, pure_run]
  exact ⟨rfl, htouched.trans htouched'⟩

end Step

theorem retainPrefix_ends (hinv : Inv orphans stray cache) (sequence : SequenceId)
    (tokens : List Token) (snapshot : R.Snapshot) (context : R.Context) :
    Ends (retainPrefix sequence tokens snapshot context cache)
      (fun outcome cache' => Inv orphans stray cache' ∧
        Retains stray cache sequence tokens snapshot context outcome cache')
      (fun failure cache' =>
        RetainFails stray cache sequence tokens snapshot context failure cache' ∨
          Forsaken cache sequence tokens snapshot failure cache') := by
  unfold retainPrefix
  cases hrecord : cache.sequences.get? sequence with
  | none =>
      have hread : cache.sequenceRecord sequence = .error (.error .staleSequence) := by
        simp only [sequenceRecord, hrecord, okOr_none]
        rfl
      rw [bind_error (reads_error (fun cache : SequenceCache R =>
        cache.sequenceRecord sequence) hread)]
      exact Or.inl (.stale hrecord)
  | some record =>
  rw [bind_ok (reads_ok (fun cache : SequenceCache R =>
    cache.sequenceRecord sequence) (sequenceRecord_eq_ok.mpr hrecord))]
  refine Ends.get (Ends.ensure (fun hinvalid => Or.inl (.invalid hrecord (not_not.mp hinvalid)))
    fun hvalid => ?_)
  obtain ⟨hposition, haligned, htokens⟩ : record.position ≠ 0 ∧
      record.position % cache.config.pageTokens = 0 ∧ record.position ≤ tokens.length := by
    refine ⟨fun h => hvalid (Or.inl h), ?_, ?_⟩
    · by_contra h
      exact hvalid (Or.inr (Or.inl h))
    · by_contra h
      exact hvalid (Or.inr (Or.inr (Nat.lt_of_not_le h)))
  have hpos := hinv.config.pageTokens_pos
  have hok := hinv.owned.sequence sequence record hrecord
  rw [bind_ok (reads_ok (fun cache : SequenceCache R =>
    cache.checkSealed record.pages) (checkSealed_ok (hok.complete hpos haligned)))]
  cases hexact : cache.index.exact (tokens.take record.position) cache.config.pageTokens with
  | some existing =>
      obtain ⟨entry, hentry⟩ := exact_live hinv hexact
      refine Ends.mono (retainDuplicate_spec hinv hentry) ?_ ?_
      · rintro outcome cache' ⟨rfl, htouched⟩
        exact ⟨htouched.inv hinv, .duplicate hrecord hexact htouched⟩
      · rintro failure cache' ⟨rfl, hcrowded, htouched⟩
        exact Or.inl (.crowded hrecord hexact hcrowded htouched)
  | none =>
  have hretainable : Retainable cache sequence tokens record :=
    ⟨hrecord, hposition, haligned, htokens, hexact⟩
  have hsnapshot := hinv.budgeted.snapshot_le
  have hmax_le := hinv.config.maxSnapshotBytes_le
  have hdouble := hinv.double_le
  refine Ends.ensure (fun hover => Or.inl (.oversized hretainable (Nat.lt_of_not_le hover)))
    fun hbytes_le => ?_
  have hnext_le : cache.stats.retainedSnapshotBytes + R.retainedBytes snapshot ≤ usizeMax := by
    omega
  rw [checkedAdd_of_le hnext_le, okOr_some, pure_bind_run]
  refine Ends.okOr (fun hnone => ?_) fun count hcount => ?_
  · refine Or.inl (.uncountable hretainable ?_)
    have hsize := hinv.size_le
    have hids := hinv.ids_bounded
    by_contra hne
    rw [checkedAdd_of_le (by omega)] at hnone
    cases hnone
  obtain ⟨hcount_le, rfl⟩ := checkedAdd_eq_some.mp hcount
  rcases prepareKey_cases hinv (tokens.take record.position) with
    ⟨error, cache', hrun, hundone, hprepare, herror⟩ | ⟨blocks, interned, hrun, hinterns⟩
  · rw [bind_error hrun]
    exact Or.inl (.unkeyed hretainable hbytes_le herror hprepare hundone)
  rw [bind_ok hrun]
  have hlength : blocks.length = record.pages.length := by
    have := congrArg List.length hinterns.tokens
    rw [List.length_map, List.length_map, chunksExact, length_chunks, List.length_take,
      min_eq_left htokens] at this
    rw [this, hok.length_pages, ceilDiv_of_aligned hpos haligned]
  have hne : blocks ≠ [] := by
    rintro rfl
    rw [hok.length_pages, ceilDiv_of_aligned hpos haligned, List.length_nil] at hlength
    have := Nat.div_add_mod' record.position cache.config.pageTokens
    rw [← hlength] at this
    omega
  exact retainPrepared_ends hinv hretainable hbytes_le hinterns hne hlength
    (fun id entry hentry => hinv.filed.absent_of_exact hinterns.table hinterns.tokens hne hexact
      hentry) hnext_le (by omega) context

theorem retainPrefix_spec (hlaw : R.Retires) (hinv : Inv orphans stray cache)
    (sequence : SequenceId) (tokens : List Token) (snapshot : R.Snapshot) (context : R.Context) :
    Ends (retainPrefix sequence tokens snapshot context cache)
      (fun outcome cache' => Inv orphans stray cache' ∧
        Retains stray cache sequence tokens snapshot context outcome cache')
      (RetainFails stray cache sequence tokens snapshot context) :=
  (retainPrefix_ends hinv sequence tokens snapshot context).resolve fun failure cache' hforsaken =>
    not_breached hlaw failure cache' hforsaken.breached

end SequenceCache

end SeqCache
