import SeqCache.Invariant.Checks
import SeqCache.Run.Reachable

/-!
# Validation

`validate` recounts references and totals and looks at the last page of every sequence.  It
accepts every state reached without exhausting an identity space.  What it accepts is not
always well formed: it resolves neither the inner pages of a sequence nor their storage, and
it does not look into the index.
-/

namespace SeqCache

open Machine Program Std

variable {R : Runtime}

namespace SequenceCache

variable {cache : SequenceCache R}

/-! ## Reached states -/

/-- Validation accepts every state reached without exhausting an identity space, whatever
calls of the backend failed on the way. -/
theorem validate_reached (hlaw : R.Lawful) (hhonest : R.ImmediateHonest) {config : CacheConfig}
    {start : SequenceCache R} (hnew : SequenceCache.new R config = .ok start)
    (hreach : ReachesIntact start cache) : cache.validate = .ok () ∧ Checked cache := by
  have hsound := ReachesIntact.sound hreach hlaw.toRetires hhonest (sound_of_new hnew)
  have hchecked := checked_of_inv hsound.inv
  exact ⟨validate_eq_ok.mpr hchecked, hchecked⟩

/-- A retained page, a page shared by no one and a writable tail. -/
theorem validate_reached_unaligned : (Reference.after Reference.unaligned).validate = .ok () ∧
    Checked (Reference.after Reference.unaligned) := by
  have hreach : ReachesIntact Reference.start (Reference.after Reference.unaligned) :=
    Reference.reachesIntact_after (by decide +kernel)
  exact validate_reached Reference.plain_lawful Reference.plain_immediateHonest
    Reference.new_start hreach

/-! ## What acceptance says -/

/-- What a successful validation vouches for.  Handles keep their slots in words of 32
bits. -/
structure Vouched (cache : SequenceCache R) : Prop where
  entry : ∀ (id : PrefixEntryId) entry, cache.prefixes[id]? = some entry → ∀ page ∈ entry.pages,
    ∃ record, cache.pages.get? page = some record ∧ record.sealed = true ∧
      record.validTokens = cache.config.pageTokens
  pending : ∀ sequence record, cache.sequences.get? sequence = some record →
    ∀ id ∈ pendingPages record, ∃ page, cache.pages.get? id = some page ∧
      page.validTokens = 0 ∧ page.sealed = false
  last : ∀ sequence record, cache.sequences.get? sequence = some record →
    ∀ id ∈ record.pages.getLast?, ∃ page, cache.pages.get? id = some page ∧
      page.validTokens = if record.pages.length = record.position ⌈/⌉ cache.config.pageTokens then
        tailRows cache.config.pageTokens record.position else 0
  unshared : ∀ sequence record, cache.sequences.get? sequence = some record →
    ∀ id, id ∈ pendingPages record ∨ (id ∈ record.pages.getLast? ∧
        tailRows cache.config.pageTokens record.position < cache.config.pageTokens) →
      id.slot < 2 ^ 32 → cache.activeHolders.count id = 1 ∧ id ∉ cache.prefixHolders
  page : ∀ id page, cache.pages.get? id = some page → id.slot < 2 ^ 32 →
    page.activeRefs = cache.activeHolders.count id ∧
      page.prefixRefs = cache.prefixHolders.count id ∧ 0 < page.activeRefs + page.prefixRefs
  ranked : Ranked cache.prefixes cache.lru
  interned : cache.stats.internedTokenBlocks = cache.index.blockCount

/-- A preallocated tail is one page more than the position needs, and empty. -/
theorem hasPreallocatedTail_eq_true {record : SequenceRecord R.AppendTransaction} {expected : ℕ}
    (h : cache.hasPreallocatedTail record expected = true) :
    record.position % cache.config.pageTokens = 0 ∧ record.pages.length ≠ expected ∧
      ∀ id ∈ record.pages.getLast?, ∃ page, cache.pages.get? id = some page ∧
        page.validTokens = 0 := by
  unfold hasPreallocatedTail at h
  rw [Bool.and_eq_true, Bool.and_eq_true, decide_eq_true_eq, decide_eq_true_eq] at h
  obtain ⟨⟨haligned, hlength⟩, htail⟩ := h
  refine ⟨haligned, ?_, ?_⟩
  · unfold wrappingAdd at hlength
    omega
  · intro id hid
    rw [Option.mem_def.mp hid] at htail
    cases hpage : cache.pages.get? id with
    | none => simp [hpage] at htail
    | some page =>
        simp only [hpage, Bool.and_eq_true, decide_eq_true_eq] at htail
        exact ⟨page, rfl, htail.1⟩

/-- A full tail is not writable. -/
theorem tailRows_of_aligned {pageTokens position : ℕ} (h : position % pageTokens = 0) :
    tailRows pageTokens position = pageTokens := if_pos h

theorem Checked.page_counts (h : Checked cache) {id : PageId} {page : PageRecord R.Page}
    (hpage : cache.pages.get? id = some page) (hslot : id.slot < 2 ^ 32) :
    PageChecked cache id page := by
  have hcounts := h.page id page hpage
  unfold Handle.new at hcounts
  rwa [Nat.mod_eq_of_lt hslot] at hcounts

/-- A record with a single active reference names a page that is listed once. -/
theorem Checked.unshared (h : Checked cache) {id : PageId} {page : PageRecord R.Page}
    (hpage : cache.pages.get? id = some page) (hslot : id.slot < 2 ^ 32)
    (hactive : page.activeRefs = 1) (hretained : page.prefixRefs = 0) :
    cache.activeHolders.count id = 1 ∧ id ∉ cache.prefixHolders := by
  have hcounts := h.page_counts hpage hslot
  refine ⟨hcounts.active_refs.symm.trans hactive, ?_⟩
  rw [← List.count_eq_zero]
  exact hcounts.prefix_refs.symm.trans hretained

/-- Whatever the state of the cache, a successful validation vouches for the pages of the
entries and of pending appends, for the last page of every sequence, for the references that
page records count, and for the order of use. -/
theorem validate_vouches (h : cache.validate = .ok ()) : Vouched cache := by
  have hchecked := validate_eq_ok.mp h
  constructor
  · intro id entry hentry
    exact (hchecked.entry id entry hentry).pages
  · intro sequence record hrecord id hid
    obtain ⟨page, hpage, hprivate⟩ := (hchecked.sequence sequence record hrecord).pending id hid
    exact ⟨page, hpage, hprivate.validTokens, hprivate.unsealed⟩
  · intro sequence record hrecord id hid
    have hsequence := hchecked.sequence sequence record hrecord
    cases htail : cache.hasPreallocatedTail record
        (record.position ⌈/⌉ cache.config.pageTokens) with
    | true =>
        obtain ⟨-, hlength, hempty⟩ := hasPreallocatedTail_eq_true htail
        rw [if_neg hlength]
        exact hempty id hid
    | false =>
        rw [if_pos (hsequence.length_pages.resolve_right (by simp [htail]))]
        obtain ⟨page, hpage, hvalid, -⟩ := hsequence.tail htail id hid
        exact ⟨page, hpage, hvalid⟩
  · rintro sequence record hrecord id (hid | ⟨hid, hwritable⟩) hslot
    · obtain ⟨page, hpage, hprivate⟩ := (hchecked.sequence sequence record hrecord).pending id hid
      exact hchecked.unshared hpage hslot hprivate.activeRefs hprivate.prefixRefs
    · have hsequence := hchecked.sequence sequence record hrecord
      have htail : cache.hasPreallocatedTail record
          (record.position ⌈/⌉ cache.config.pageTokens) = false := by
        rw [Bool.eq_false_iff]
        intro htail
        rw [tailRows_of_aligned (hasPreallocatedTail_eq_true htail).1] at hwritable
        exact absurd hwritable (Nat.lt_irrefl _)
      obtain ⟨page, hpage, -, hprivate⟩ := hsequence.tail htail id hid
      obtain ⟨-, hactive, hretained⟩ := hprivate hwritable
      exact hchecked.unshared hpage hslot hactive hretained
  · intro id page hpage hslot
    obtain ⟨hactive, hretained, howned⟩ := hchecked.page_counts hpage hslot
    exact ⟨hactive, hretained, howned⟩
  · exact hchecked.ranked
  · exact congrArg StatsOf.internedTokenBlocks hchecked.stats_eq

/-- The state with a retained page and a sequence of three rows is vouched for. -/
theorem validate_vouches_unaligned : Vouched (Reference.after Reference.unaligned) := by
  have hvalid : (Reference.after Reference.unaligned).validate = .ok () := by decide +kernel
  exact validate_vouches hvalid

/-! ## What acceptance does not say -/

/-- Every listed page has a record with storage, no sequence lists a page twice, only the
last page of a sequence is incomplete, and the index finds exactly the entries. -/
structure Coherent (cache : SequenceCache R) : Prop where
  resolved : ∀ id ∈ cache.activeHolders ++ cache.prefixHolders, ∃ page,
    cache.pages.get? id = some page ∧ page.physical.isSome
  distinct : ∀ sequence record, cache.sequences.get? sequence = some record → record.pages.Nodup
  complete : ∀ sequence record, cache.sequences.get? sequence = some record →
    ∀ id ∈ record.pages.dropLast, ∃ page, cache.pages.get? id = some page ∧
      page.sealed = true ∧ page.validTokens = cache.config.pageTokens
  findable : ∀ (key : PrefixKey) (id : PrefixEntryId), R.getBytes cache.index.tree key = some id ↔
    ∃ entry, cache.prefixes[id]? = some entry ∧ entry.key = key

end SequenceCache

namespace Reference

/-- A retained page, and other pages and another table for the sequence of three rows. -/
def rewritten (pages : Arena (PageRecord ℕ)) (table : List PageId) (position : ℕ) :
    SequenceCache plain :=
  ({ after unaligned with
    pages := pages
    sequences := ⟨[⟨1, some ⟨table, position, 8, 2, 0, 0, none⟩⟩], []⟩ } :
      SequenceCache plain).refresh

def retainedPage : Slot (PageRecord ℕ) := ⟨0, some ⟨some 0, 0, 1, 2, true⟩⟩

/-- The first page of the sequence is a handle without a record. -/
def staleInner : SequenceCache plain :=
  rewritten ⟨[retainedPage, ⟨0, none⟩, ⟨0, some ⟨some 2, 1, 0, 1, false⟩⟩], [1]⟩
    [⟨1, 7⟩, ⟨2, 0⟩] 3

/-- The last page of the sequence has lost its storage. -/
def stripped : SequenceCache plain :=
  rewritten ⟨[retainedPage, ⟨0, some ⟨some 1, 1, 0, 2, true⟩⟩, ⟨0, some ⟨none, 1, 0, 1, false⟩⟩],
    []⟩ [⟨1, 0⟩, ⟨2, 0⟩] 3

/-- The sequence lists one page twice. -/
def doubled : SequenceCache plain :=
  rewritten ⟨[retainedPage, ⟨0, some ⟨some 1, 2, 0, 2, true⟩⟩], []⟩ [⟨1, 0⟩, ⟨1, 0⟩] 4

/-- The first page of the sequence is unsealed and holds one row. -/
def unsealedInner : SequenceCache plain :=
  rewritten ⟨[retainedPage, ⟨0, some ⟨some 1, 1, 0, 1, false⟩⟩,
    ⟨0, some ⟨some 2, 1, 0, 1, false⟩⟩], []⟩ [⟨1, 0⟩, ⟨2, 0⟩] 3

/-- The index has lost its tree. -/
def unfiled : SequenceCache plain :=
  { after unaligned with index := { (after unaligned).index with tree := [] } }

end Reference

namespace SequenceCache

/-- Each of the five states is accepted and breaks another part of coherence. -/
theorem validate_accepts_incoherent :
    (Reference.staleInner.validate = .ok () ∧
      (⟨1, 7⟩ : PageId) ∈ Reference.staleInner.activeHolders ∧
      Reference.staleInner.pages.get? ⟨1, 7⟩ = none ∧ ¬ Coherent Reference.staleInner) ∧
    (Reference.stripped.validate = .ok () ∧
      (⟨2, 0⟩ : PageId) ∈ Reference.stripped.activeHolders ∧
      (Reference.stripped.pages.get? ⟨2, 0⟩).bind PageRecord.physical = none ∧
      ¬ Coherent Reference.stripped) ∧
    (Reference.doubled.validate = .ok () ∧
      (Reference.doubled.sequences.get? ⟨0, 1⟩).map SequenceRecord.pages =
        some [⟨1, 0⟩, ⟨1, 0⟩] ∧ ¬ Coherent Reference.doubled) ∧
    (Reference.unsealedInner.validate = .ok () ∧
      (Reference.unsealedInner.sequences.get? ⟨0, 1⟩).map SequenceRecord.pages =
        some [⟨1, 0⟩, ⟨2, 0⟩] ∧
      (Reference.unsealedInner.pages.get? ⟨1, 0⟩).map PageRecord.sealed = some false ∧
      ¬ Coherent Reference.unsealedInner) ∧
    (Reference.unfiled.validate = .ok () ∧ 0 ∈ Reference.unfiled.prefixes ∧
      (∀ key, Reference.plain.getBytes Reference.unfiled.index.tree key = none) ∧
      ¬ Coherent Reference.unfiled) := by
  refine ⟨⟨by decide +kernel, by decide +kernel, rfl, fun h => ?_⟩,
    ⟨by decide +kernel, by decide +kernel, rfl, fun h => ?_⟩,
    ⟨by decide +kernel, rfl, fun h => ?_⟩, ⟨by decide +kernel, rfl, rfl, fun h => ?_⟩,
    ⟨by decide +kernel, by decide +kernel, fun key => rfl, fun h => ?_⟩⟩
  · have hheld : (⟨1, 7⟩ : PageId) ∈ Reference.staleInner.activeHolders := by decide +kernel
    obtain ⟨page, hpage, -⟩ := h.resolved _ (List.mem_append_left _ hheld)
    exact absurd hpage (by rintro ⟨⟩)
  · have hheld : (⟨2, 0⟩ : PageId) ∈ Reference.stripped.activeHolders := by decide +kernel
    obtain ⟨page, hpage, hphysical⟩ := h.resolved _ (List.mem_append_left _ hheld)
    cases hpage
    cases hphysical
  · exact absurd (h.distinct ⟨0, 1⟩ _ rfl) (by decide)
  · obtain ⟨page, hpage, hsealed, -⟩ := h.complete ⟨0, 1⟩ _ rfl ⟨1, 0⟩ (by decide)
    cases hpage
    cases hsealed
  · have hlive : (0 : PrefixEntryId) ∈ Reference.unfiled.prefixes := by decide +kernel
    obtain ⟨entry, hentry⟩ :=
      Option.isSome_iff_exists.mp (ExtTreeMap.mem_iff_isSome_getElem?.mp hlive)
    have hfound := (h.findable entry.key 0).mpr ⟨entry, hentry, rfl⟩
    cases hfound

end SequenceCache

end SeqCache
