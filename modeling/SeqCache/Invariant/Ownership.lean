import SeqCache.Manager.Validate

/-!
# Ownership of pages

The part of the invariant that speaks about page records and their holders.  It is
stated over the three containers and not over the whole cache, so that it is untouched
by everything else an operation changes.

A finalization that fails after the backend has taken pages back leaves page records
behind which no sequence holds.  They are listed by the ghost parameter `orphans`; as
long as it is empty every count and every row is exact.
-/

namespace SeqCache

open Machine Std

variable {Page Transaction Snapshot : Type}

abbrev Pages (Page : Type) := Arena (PageRecord Page)

abbrev Sequences (Transaction : Type) := Arena (SequenceRecord Transaction)

abbrev Prefixes (Snapshot : Type) := ExtTreeMap PrefixEntryId (PrefixEntry Snapshot)

/-- Number of references that sequences hold on a page. -/
def activeCount (sequences : Sequences Transaction) (id : PageId) : ℕ :=
  sequences.total fun record => record.heldPages.count id

/-- Number of references that retained entries hold on a page. -/
def prefixCount (prefixes : Prefixes Snapshot) (id : PageId) : ℕ :=
  mapTotal (fun entry => entry.pages.count id) prefixes

/-- Committed rows in the `n`-th page of a sequence. -/
def validRows (pageTokens position n : ℕ) : ℕ := min pageTokens (position - n * pageTokens)

/-- Rows that an append of `rows` rows at `position` writes in the `n`-th page. -/
def segmentAt (pageTokens position rows n : ℕ) (id : PageId) : AppendSegment where
  page := id
  pageOffset := max position (n * pageTokens) - n * pageTokens
  inputOffset := max position (n * pageTokens) - position
  rows := min (position + rows) ((n + 1) * pageTokens) - max position (n * pageTokens)

def segmentsFrom (pageTokens position rows : ℕ) : ℕ → List PageId → List AppendSegment
  | _, [] => []
  | n, id :: rest =>
      segmentAt pageTokens position rows n id :: segmentsFrom pageTokens position rows (n + 1) rest

/-- Segments of an append, over all pages the sequence holds. -/
def segmentsOf (pageTokens position rows : ℕ) (held : List PageId) : List AppendSegment :=
  segmentsFrom pageTokens position rows (position / pageTokens)
    (held.drop (position / pageTokens))

/-! ## The invariant -/

/-- What holds of the record of the `n`-th page of a sequence. -/
structure HeldOk (orphans : List PageId) (pageTokens position : ℕ) (writing : Bool) (n : ℕ)
    (page : PageRecord Page) : Prop where
  storage : page.physical.isSome
  complete : (n + 1) * pageTokens ≤ position →
    page.sealed = true ∧ page.validTokens = pageTokens
  writable : writing = true → position < (n + 1) * pageTokens → page.sealed = false
  rows : orphans = [] → page.validTokens = validRows pageTokens position n ∧
    (page.sealed = true ↔ validRows pageTokens position n = pageTokens)

/-- A pending append spans exactly the pages its rows need. -/
structure PendingOk (pageTokens : ℕ) (record : SequenceRecord Transaction)
    (pending : PendingAppend Transaction) : Prop where
  start_eq : pending.startPosition = record.position
  rows_pos : 0 < pending.rows
  rows_le : record.position + pending.rows ≤ record.maxPosition
  length_held : record.pages.length + pending.newPages.length =
    (record.position + pending.rows) ⌈/⌉ pageTokens
  segments_eq : pending.segments =
    segmentsOf pageTokens record.position pending.rows record.heldPages

structure SequenceOk (orphans : List PageId) (pageTokens : ℕ) (pages : Pages Page)
    (record : SequenceRecord Transaction) : Prop where
  position_le : record.position ≤ record.maxPosition
  bounded : record.maxPosition + (pageTokens - 1) ≤ usizeMax
  length_pages : record.pages.length = record.position ⌈/⌉ pageTokens
  length_le : record.heldPages.length + record.reservedPages ≤ record.maxPosition ⌈/⌉ pageTokens
  length_total : orphans = [] →
    record.heldPages.length + record.reservedPages = record.maxPosition ⌈/⌉ pageTokens
  nodup : record.heldPages.Nodup
  held : ∀ n id, record.heldPages[n]? = some id → ∃ page, pages.get? id = some page ∧
    HeldOk orphans pageTokens record.position record.pending.isSome n page
  pending : ∀ pending, record.pending = some pending → PendingOk pageTokens record pending

structure EntryOk (pageTokens : ℕ) (pages : Pages Page) (entry : PrefixEntry Snapshot) :
    Prop where
  position_ne : entry.position ≠ 0
  position_eq : entry.pages.length * pageTokens = entry.position
  bounded : entry.position + (pageTokens - 1) ≤ usizeMax
  nodup : entry.pages.Nodup
  held : ∀ id ∈ entry.pages, ∃ page, pages.get? id = some page ∧ page.physical.isSome ∧
    page.sealed = true ∧ page.validTokens = pageTokens

/-- The counts of a page record are the number of its holders, and only complete pages
are shared. -/
structure PageOk (orphans : List PageId) (sequences : Sequences Transaction)
    (prefixes : Prefixes Snapshot) (id : PageId) (page : PageRecord Page) : Prop where
  active_refs : page.activeRefs = activeCount sequences id + orphans.count id
  prefix_refs : page.prefixRefs = prefixCount prefixes id
  owned : 0 < page.activeRefs + page.prefixRefs
  unshared : page.sealed = false → page.activeRefs ≤ 1 ∧ page.prefixRefs = 0

structure Owned (orphans : List PageId) (pageTokens : ℕ) (pages : Pages Page)
    (sequences : Sequences Transaction) (prefixes : Prefixes Snapshot) : Prop where
  pages_wf : pages.WF
  sequences_wf : sequences.WF
  orphans_nodup : orphans.Nodup
  orphans_live : ∀ id ∈ orphans, ∃ page, pages.get? id = some page
  page : ∀ id page, pages.get? id = some page → PageOk orphans sequences prefixes id page
  sequence : ∀ id record, sequences.get? id = some record →
    SequenceOk orphans pageTokens pages record
  entry : ∀ (id : PrefixEntryId) (entry : PrefixEntry Snapshot), prefixes[id]? = some entry →
    EntryOk pageTokens pages entry

/-! ## Holders -/

section Holders

variable {sequences : Sequences Transaction} {prefixes : Prefixes Snapshot}
variable {record record' : SequenceRecord Transaction} {entry : PrefixEntry Snapshot}
variable {sequence sequence' : SequenceId} {id : PageId}

theorem count_le_activeCount (h : sequences.get? sequence = some record) :
    record.heldPages.count id ≤ activeCount sequences id :=
  Arena.le_total (fun record : SequenceRecord Transaction => record.heldPages.count id) h

theorem activeCount_pos (h : sequences.get? sequence = some record)
    (hmem : id ∈ record.heldPages) : 0 < activeCount sequences id :=
  (List.count_pos_iff.mpr hmem).trans_le (count_le_activeCount h)

/-- Two sequences holding one page both count. -/
theorem two_le_activeCount (h : sequences.get? sequence = some record)
    (h' : sequences.get? sequence' = some record') (hne : sequence' ≠ sequence)
    (hmem : id ∈ record.heldPages) (hmem' : id ∈ record'.heldPages) :
    2 ≤ activeCount sequences id := by
  have hset := Arena.total_set
    (fun record : SequenceRecord Transaction => record.heldPages.count id)
    { record with pages := [], pending := none } h
  have hlive : (sequences.set sequence { record with pages := [], pending := none }).get?
      sequence' = some record' := by
    rw [Arena.get?_set h, if_neg hne, h']
  have hother := Arena.le_total
    (fun record : SequenceRecord Transaction => record.heldPages.count id) hlive
  have hcount := List.count_pos_iff.mpr hmem
  have hcount' := List.count_pos_iff.mpr hmem'
  have hempty : ({ record with pages := [], pending := none } :
      SequenceRecord Transaction).heldPages.count id = 0 := rfl
  unfold activeCount
  omega

theorem count_le_prefixCount {key : PrefixEntryId} (h : prefixes[key]? = some entry) :
    entry.pages.count id ≤ prefixCount prefixes id := by
  have herase := mapTotal_erase (fun entry : PrefixEntry Snapshot => entry.pages.count id) h
  unfold prefixCount
  omega

theorem prefixCount_pos {key : PrefixEntryId} (h : prefixes[key]? = some entry)
    (hmem : id ∈ entry.pages) : 0 < prefixCount prefixes id :=
  (List.count_pos_iff.mpr hmem).trans_le (count_le_prefixCount h)

theorem exists_active_holder (h : 0 < activeCount sequences id) :
    ∃ sequence record, sequences.get? sequence = some record ∧ id ∈ record.heldPages := by
  obtain ⟨sequence, record, hrecord, hpos⟩ := Arena.exists_of_total_pos _ h
  exact ⟨sequence, record, hrecord, List.count_pos_iff.mp hpos⟩

theorem exists_prefix_holder (h : 0 < prefixCount prefixes id) :
    ∃ (key : PrefixEntryId) (entry : PrefixEntry Snapshot), prefixes[key]? = some entry ∧
      id ∈ entry.pages := by
  obtain ⟨key, entry, hentry, hpos⟩ := exists_of_mapTotal_pos h
  exact ⟨key, entry, hentry, List.count_pos_iff.mp hpos⟩

theorem mem_pages_heldPages (hmem : id ∈ record.pages) : id ∈ record.heldPages :=
  List.mem_append_left _ hmem

theorem heldPages_of_pending_none (h : record.pending = none) :
    record.heldPages = record.pages := by
  simp [SequenceRecord.heldPages, h]

theorem heldPages_of_pending_some {pending : PendingAppend Transaction}
    (h : record.pending = some pending) :
    record.heldPages = record.pages ++ pending.newPages := by
  simp [SequenceRecord.heldPages, h]

end Holders

/-! ## Frames -/

/-- The record of `id` keeps its storage and its rows; its counts may change. -/
def Keeps (pages pages' : Pages Page) (id : PageId) : Prop :=
  ∀ page, pages.get? id = some page → ∃ page', pages'.get? id = some page' ∧
    page'.physical = page.physical ∧ page'.validTokens = page.validTokens ∧
    page'.sealed = page.sealed

section Frames

variable {orphans : List PageId} {pageTokens : ℕ} {pages pages' : Pages Page}

theorem SequenceOk.keep {record : SequenceRecord Transaction}
    (h : SequenceOk orphans pageTokens pages record)
    (hkeep : ∀ id ∈ record.heldPages, Keeps pages pages' id) :
    SequenceOk orphans pageTokens pages' record := by
  refine { h with held := ?_ }
  intro n id hid
  obtain ⟨page, hpage, hok⟩ := h.held n id hid
  obtain ⟨page', hpage', hphysical, hvalid, hsealed⟩ :=
    hkeep id (List.mem_of_getElem? hid) page hpage
  refine ⟨page', hpage', ?_⟩
  constructor
  · rw [hphysical]
    exact hok.storage
  · rw [hsealed, hvalid]
    exact hok.complete
  · rw [hsealed]
    exact hok.writable
  · rw [hsealed, hvalid]
    exact hok.rows

theorem EntryOk.keep {entry : PrefixEntry Snapshot} (h : EntryOk pageTokens pages entry)
    (hkeep : ∀ id ∈ entry.pages, Keeps pages pages' id) :
    EntryOk pageTokens pages' entry := by
  refine { h with held := ?_ }
  intro id hid
  obtain ⟨page, hpage, hphysical, hsealed, hvalid⟩ := h.held id hid
  obtain ⟨page', hpage', hphysical', hvalid', hsealed'⟩ := hkeep id hid page hpage
  exact ⟨page', hpage', hphysical' ▸ hphysical, hsealed' ▸ hsealed, hvalid' ▸ hvalid⟩

/-- A page without orphans is held by a sequence or an entry. -/
theorem PageOk.holder {sequences : Sequences Transaction} {prefixes : Prefixes Snapshot}
    {id : PageId} {page : PageRecord Page} (h : PageOk [] sequences prefixes id page) :
    (∃ sequence record, sequences.get? sequence = some record ∧ id ∈ record.heldPages) ∨
      ∃ (key : PrefixEntryId) (entry : PrefixEntry Snapshot), prefixes[key]? = some entry ∧
        id ∈ entry.pages := by
  have hactive := h.active_refs
  rw [List.count_nil, Nat.add_zero] at hactive
  rcases Nat.eq_zero_or_pos page.activeRefs with hzero | hpos
  · have howned := h.owned
    rw [hzero, Nat.zero_add, h.prefix_refs] at howned
    exact Or.inr (exists_prefix_holder howned)
  · exact Or.inl (exists_active_holder (hactive ▸ hpos))

theorem SequenceOk.live {record : SequenceRecord Transaction}
    (h : SequenceOk orphans pageTokens pages record) {id : PageId}
    (hmem : id ∈ record.heldPages) :
    ∃ page, pages.get? id = some page ∧ page.physical.isSome := by
  obtain ⟨n, hn⟩ := List.getElem?_of_mem hmem
  obtain ⟨page, hpage, hok⟩ := h.held n id hn
  exact ⟨page, hpage, hok.storage⟩

end Frames

end SeqCache
