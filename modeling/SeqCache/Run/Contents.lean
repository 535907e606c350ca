import SeqCache.Core.Books
import SeqCache.Core.Paging
import SeqCache.Properties.Exclusivity
import SeqCache.Run.Trail

/-!
# Where the rows of a sequence are

The committed rows of a sequence are the valid rows of its pages, in the order of its table,
and so are the rows of a retained entry.  The drafted rows are those of the segments of its
pending append.  Each change of the state changes these books in one of a few ways.
-/

namespace SeqCache

open Machine Program Std Paging

variable {R : Runtime}

/-- A row of the storage of a page. -/
structure Cell (Page : Type) where
  page : PageId
  storage : Page
  row : ℕ

section Cells

variable {Page : Type} (pages : Pages Page)

/-- The storage of a row of a page. -/
def locate (place : PageId × ℕ) : Option (Cell Page) :=
  ((pages.get? place.1).bind PageRecord.physical).map fun storage => ⟨place.1, storage, place.2⟩

/-- Number of valid rows of a page. -/
def validRowsOf (id : PageId) : ℕ := (pages.get? id).elim 0 PageRecord.validTokens

/-- The first `valid_tokens` rows of each page. -/
def cellsOf (ids : List PageId) : List (Cell Page) :=
  (ids.flatMap fun id => (List.range (validRowsOf pages id)).map (id, ·)).filterMap (locate pages)

def AppendSegment.places (segment : AppendSegment) : List (PageId × ℕ) :=
  (List.range' segment.pageOffset segment.rows).map (segment.page, ·)

/-- The rows of the segments of an append. -/
def draftCells (segments : List AppendSegment) : List (Cell Page) :=
  (segments.flatMap AppendSegment.places).filterMap (locate pages)

variable {Transaction : Type}

def SequenceRecord.account (record : SequenceRecord Transaction) : Account (Cell Page) where
  rows := cellsOf pages record.pages
  draft := record.pending.map fun pending => draftCells pages pending.segments

end Cells

/-- The rows of all sequences and retained entries. -/
def SequenceCache.books (cache : SequenceCache R) :
    Books SequenceId PrefixEntryId (Cell R.Page) where
  accounts := fun sequence =>
    (cache.sequences.get? sequence).map (SequenceRecord.account cache.pages)
  frozen := fun id =>
    (cache.prefixes[id]?).map fun entry => cellsOf cache.pages entry.pages

/-! ## Locality -/

section Locality

variable {Page Transaction : Type} {pages pages' : Pages Page}

/-- The storage and the valid rows of a page are the same in both. -/
def SameCells (pages pages' : Pages Page) (id : PageId) : Prop :=
  (pages'.get? id).map (fun page => (page.physical, page.validTokens)) =
    (pages.get? id).map fun page => (page.physical, page.validTokens)

theorem Keeps.alike {id : PageId} (h : Keeps pages pages' id)
    (hlive : ∃ page, pages.get? id = some page) : SameCells pages pages' id := by
  obtain ⟨page, hpage⟩ := hlive
  obtain ⟨page', hpage', hphysical, hvalid, -⟩ := h page hpage
  rw [SameCells, hpage, hpage', Option.map_some, Option.map_some, hphysical, hvalid]

theorem SameCells.validRowsOf_eq {id : PageId} (h : SameCells pages pages' id) :
    validRowsOf pages' id = validRowsOf pages id := by
  have hmap := congrArg (fun found : Option (Option Page × ℕ) => found.elim 0 Prod.snd) h
  simp only [Option.elim_map] at hmap
  exact hmap

theorem SameCells.physical_eq {id : PageId} (h : SameCells pages pages' id) :
    (pages'.get? id).bind PageRecord.physical = (pages.get? id).bind PageRecord.physical := by
  have hmap := congrArg (fun found : Option (Option Page × ℕ) => found.bind Prod.fst) h
  simp only [Option.bind_map] at hmap
  exact hmap

theorem SameCells.locate_eq {place : PageId × ℕ} (h : SameCells pages pages' place.1) :
    locate pages' place = locate pages place := by
  rw [locate, locate, h.physical_eq]

/-- The rows of a table depend on its pages only. -/
theorem cellsOf_congr {ids : List PageId} (h : ∀ id ∈ ids, SameCells pages pages' id) :
    cellsOf pages' ids = cellsOf pages ids := by
  have hrows : (ids.flatMap fun id => (List.range (validRowsOf pages' id)).map (id, ·)) =
      ids.flatMap fun id => (List.range (validRowsOf pages id)).map (id, ·) :=
    List.flatMap_congr fun id hmem => by rw [(h id hmem).validRowsOf_eq]
  rw [cellsOf, cellsOf, hrows]
  refine List.filterMap_congr fun place hmem => ?_
  obtain ⟨id, hid, hplace⟩ := List.mem_flatMap.mp hmem
  obtain ⟨row, -, rfl⟩ := List.mem_map.mp hplace
  exact (h id hid).locate_eq

theorem draftCells_congr {segments : List AppendSegment}
    (h : ∀ segment ∈ segments, SameCells pages pages' segment.page) :
    draftCells pages' segments = draftCells pages segments := by
  refine List.filterMap_congr fun place hmem => ?_
  obtain ⟨segment, hsegment, hplace⟩ := List.mem_flatMap.mp hmem
  obtain ⟨row, -, rfl⟩ := List.mem_map.mp hplace
  exact (h segment hsegment).locate_eq

/-- The segments of a pending append lie on pages that the sequence holds. -/
theorem SequenceOk.segment_held {orphans : List PageId} {pageTokens : ℕ}
    {record : SequenceRecord Transaction} (h : SequenceOk orphans pageTokens pages record)
    {pending : PendingAppend Transaction} (hpending : record.pending = some pending)
    {segment : AppendSegment} (hmem : segment ∈ pending.segments) :
    segment.page ∈ record.heldPages := by
  rw [(h.pending pending hpending).segments_eq] at hmem
  have hpage : segment.page ∈ (record.heldPages.drop (record.position / pageTokens)) := by
    rw [← map_page_segmentsFrom (n := record.position / pageTokens)
      (record.heldPages.drop (record.position / pageTokens))]
    exact List.mem_map_of_mem hmem
  exact List.mem_of_mem_drop hpage

theorem SequenceOk.account_eq {orphans : List PageId} {pageTokens : ℕ}
    {record : SequenceRecord Transaction} (h : SequenceOk orphans pageTokens pages record)
    (halike : ∀ id ∈ record.heldPages, SameCells pages pages' id) :
    record.account pages' = record.account pages := by
  rw [SequenceRecord.account, SequenceRecord.account,
    cellsOf_congr fun id hmem => halike id (mem_pages_heldPages hmem)]
  cases hpending : record.pending with
  | none => rfl
  | some pending =>
      rw [Option.map_some, Option.map_some, draftCells_congr fun segment hmem =>
        halike segment.page (h.segment_held hpending hmem)]

end Locality

/-! ## Rows of a table -/

section Tables

variable {Page Transaction : Type} {pages pages' : Pages Page} {pageTokens : ℕ}
variable {record : SequenceRecord Transaction} {pending : PendingAppend Transaction}

theorem cellsOf_append (pages : Pages Page) (ids ids' : List PageId) :
    cellsOf pages (ids ++ ids') = cellsOf pages ids ++ cellsOf pages ids' := by
  rw [cellsOf, List.flatMap_append, List.filterMap_append]
  rfl

theorem flatMap_places (position rows n : ℕ) (ids : List PageId) :
    (segmentsFrom pageTokens position rows n ids).flatMap AppendSegment.places =
      rowsBetween pageTokens position (position + rows) n ids := by
  induction ids generalizing n with
  | nil => rfl
  | cons id rest ih => rw [segmentsFrom, List.flatMap_cons, rowsBetween, ih]; rfl

/-- Where every row has storage, the first rows have the first storage. -/
theorem take_filterMap {α β : Type*} {view : α → Option β} {items : List α}
    (h : ∀ item ∈ items, (view item).isSome) (count : ℕ) :
    (items.take count).filterMap view = (items.filterMap view).take count := by
  induction items generalizing count with
  | nil => rw [List.take_nil, List.filterMap_nil, List.take_nil]
  | cons item rest ih =>
      obtain ⟨value, hvalue⟩ := Option.isSome_iff_exists.mp (h item List.mem_cons_self)
      cases count with
      | zero => rfl
      | succ count =>
          rw [List.take_succ_cons, List.filterMap_cons_some hvalue, List.filterMap_cons_some hvalue,
            List.take_succ_cons, ih fun other hmem => h other (List.mem_cons_of_mem _ hmem)]

theorem mem_rowsBetween {start stop n : ℕ} {ids : List PageId} {place : PageId × ℕ}
    (h : place ∈ rowsBetween pageTokens start stop n ids) : place.1 ∈ ids := by
  induction ids generalizing n with
  | nil => exact absurd h List.not_mem_nil
  | cons id rest ih =>
      obtain hfirst | hrest := List.mem_append.mp h
      · obtain ⟨row, -, rfl⟩ := List.mem_map.mp hfirst
        exact List.mem_cons_self
      · exact List.mem_cons_of_mem _ (ih hrest)

/-- The rows of a table whose pages are filled up to a position. -/
theorem cellsOf_eq {ids : List PageId} {position : ℕ}
    (h : ∀ n id, ids[n]? = some id → validRowsOf pages id = validRows pageTokens position n) :
    cellsOf pages ids =
      (rowsBetween pageTokens 0 position 0 ids).filterMap (locate pages) := by
  have hfilled : ∀ n id, ids[n]? = some id →
      validRowsOf pages id = min pageTokens (position - (0 + n) * pageTokens) := by
    intro n id hid
    rw [Nat.zero_add]
    exact h n id hid
  rw [cellsOf, flatMap_filled 0 ids hfilled]

theorem SequenceOk.cellsOf_eq (h : SequenceOk [] pageTokens pages record) :
    cellsOf pages record.pages =
      (rowsBetween pageTokens 0 record.position 0 record.pages).filterMap (locate pages) := by
  refine SeqCache.cellsOf_eq fun n id hid => ?_
  have hheld : record.heldPages[n]? = some id := by
    rw [SequenceRecord.heldPages, List.getElem?_append_left (List.getElem?_eq_some_iff.mp hid).1]
    exact hid
  obtain ⟨page, hpage, hok⟩ := h.held n id hheld
  rw [validRowsOf, hpage]
  exact (hok.rows rfl).1

variable (hpos : 0 < pageTokens) (h : SequenceOk [] pageTokens pages record)
  (hpending : record.pending = some pending)

include hpos h hpending

omit hpos in
/-- The drafted rows follow the committed rows. -/
theorem SequenceOk.draftCells_eq : draftCells pages pending.segments =
    (rowsBetween pageTokens record.position (record.position + pending.rows) 0
      record.heldPages).filterMap (locate pages) := by
  have hle : (0 + record.position / pageTokens) * pageTokens ≤ record.position := by
    rw [Nat.zero_add]
    exact Nat.div_mul_le_self _ _
  rw [draftCells, (h.pending pending hpending).segments_eq, segmentsOf, flatMap_places,
    ← rowsBetween_drop (record.position / pageTokens) hle, Nat.zero_add]

omit hpos hpending in
theorem SequenceOk.located {place : PageId × ℕ} {start stop n : ℕ}
    (hmem : place ∈ rowsBetween pageTokens start stop n record.heldPages) :
    (locate pages place).isSome := by
  obtain ⟨page, hpage, hphysical⟩ := h.live (mem_rowsBetween hmem)
  rw [locate, hpage, Option.isSome_map]
  exact hphysical

theorem SequenceOk.length_heldPages :
    record.position + pending.rows ≤ (0 + record.heldPages.length) * pageTokens := by
  rw [heldPages_of_pending_some hpending, List.length_append,
    (h.pending pending hpending).length_held, Nat.zero_add]
  exact (ceilDiv_le_iff hpos).mp le_rfl

theorem SequenceOk.length_draftCells :
    (draftCells pages pending.segments).length = pending.rows := by
  have hreach := h.length_heldPages hpos hpending
  rw [h.draftCells_eq hpending, List.filterMap_length_eq_length.mpr fun place hmem =>
    h.located hmem, length_rowsBetween, Nat.zero_mul, Nat.min_eq_left hreach, Nat.max_zero,
    Nat.add_sub_cancel_left]

/-- A commit moves the first drafted rows behind the committed ones. -/
theorem SequenceOk.cellsOf_settled {committed : ℕ}
    (h' : SequenceOk [] pageTokens pages' (record.settle pageTokens pending committed))
    (hcommitted : committed ≤ pending.rows)
    (hphysical : ∀ id ∈ record.pages ++ keptPages pageTokens record pending committed,
      (pages'.get? id).bind PageRecord.physical = (pages.get? id).bind PageRecord.physical) :
    cellsOf pages' (record.pages ++ keptPages pageTokens record pending committed) =
      cellsOf pages record.pages ++ (draftCells pages pending.segments).take committed := by
  have hlast : record.position + committed ≤
      (0 + (record.position + committed) ⌈/⌉ pageTokens) * pageTokens := by
    rw [Nat.zero_add]
    exact (ceilDiv_le_iff hpos).mp le_rfl
  have hfirst : record.position ≤ (0 + record.pages.length) * pageTokens := by
    rw [Nat.zero_add, h.length_pages]
    exact (ceilDiv_le_iff hpos).mp le_rfl
  have hmono : record.pages.length ≤ (record.position + committed) ⌈/⌉ pageTokens := by
    rw [h.length_pages]
    exact ceilDiv_mono hpos (Nat.le_add_right _ _)
  have hheld := heldPages_of_pending_some hpending
  have htable : record.pages ++ keptPages pageTokens record pending committed =
      record.heldPages.take ((record.position + committed) ⌈/⌉ pageTokens) := by
    rw [hheld, List.take_append, List.take_of_length_le hmono]
    rfl
  have hold : record.pages = record.heldPages.take record.pages.length := by
    rw [hheld, List.take_left']
    rfl
  have hreach := h.length_heldPages hpos hpending
  calc cellsOf pages' (record.pages ++ keptPages pageTokens record pending committed)
      = (rowsBetween pageTokens 0 (record.position + committed) 0
          (record.pages ++ keptPages pageTokens record pending committed)).filterMap
            (locate pages') := h'.cellsOf_eq
    _ = (rowsBetween pageTokens 0 (record.position + committed) 0
          (record.pages ++ keptPages pageTokens record pending committed)).filterMap
            (locate pages) := by
        refine List.filterMap_congr fun place hmem => ?_
        rw [locate, locate, hphysical place.1 (mem_rowsBetween hmem)]
    _ = (rowsBetween pageTokens 0 record.position 0 record.heldPages ++
          rowsBetween pageTokens record.position (record.position + committed) 0
            record.heldPages).filterMap (locate pages) := by
        rw [htable, rowsBetween_take _ hlast,
          rowsBetween_append (Nat.zero_le _) (Nat.le_add_right _ _)]
    _ = cellsOf pages record.pages ++ (draftCells pages pending.segments).take committed := by
        rw [List.filterMap_append, h.cellsOf_eq, h.draftCells_eq hpending,
          ← take_filterMap (fun place hmem => h.located hmem),
          take_rowsBetween (by rw [Nat.zero_mul]; exact Nat.zero_le _)
            ((Nat.add_le_add_left hcommitted _).trans hreach) (Nat.add_le_add_left hcommitted _)]
        rw [← rowsBetween_take record.pages.length hfirst record.heldPages, ← hold]

end Tables

/-! ## Changes -/

@[simp]
theorem SequenceRecord.account_mapTransaction {Page Transaction : Type} (pages : Pages Page)
    (change : Transaction → Transaction) (record : SequenceRecord Transaction) :
    (record.mapTransaction change).account pages = record.account pages := by
  rw [account, account, mapTransaction_pages]
  cases hpending : record.pending <;> simp [mapTransaction, hpending]

namespace SequenceCache

variable {cache cache' : SequenceCache R} {orphans : List PageId}
variable {stray stray' : List TokenBlockId}

theorem books_of_quiet (h : Quiet cache cache') : cache'.books = cache.books := by
  obtain ⟨change, hchange⟩ := h.sequences
  ext1
  · funext sequence
    change (cache'.sequences.get? sequence).map _ = (cache.sequences.get? sequence).map _
    rw [hchange.get?, Option.map_map, h.pages]
    exact Option.map_congr fun record _ => record.account_mapTransaction cache.pages _
  · funext id
    change (cache'.prefixes[id]?).map _ = (cache.prefixes[id]?).map _
    rw [h.prefixes, h.pages]

theorem Called.books_eq {limit : ℕ} {flight : List R.Page} (h : Called limit cache cache' flight) :
    cache'.books = cache.books := by
  rw [h.state]
  rfl

theorem Touched.books_eq {used : Option PrefixEntryId} (h : Touched cache cache' used) :
    cache'.books = cache.books := by
  have hpages : cache'.pages = cache.pages := (congrArg SequenceCache.pages h.state :)
  have hsequences : cache'.sequences = cache.sequences :=
    (congrArg SequenceCache.sequences h.state :)
  ext1
  · funext sequence
    change (cache'.sequences.get? sequence).map _ = (cache.sequences.get? sequence).map _
    rw [hsequences, hpages]
  · funext id
    have huntimed := congrArg (Option.map fun entry => cellsOf cache.pages entry.pages)
      (h.retimed id)
    rw [Option.map_map, Option.map_map] at huntimed
    change (cache'.prefixes[id]?).map _ = (cache.prefixes[id]?).map _
    rw [hpages]
    exact huntimed

end SequenceCache

/-- Pages that are live in both keep their storage and their valid rows. -/
structure Steady {Page : Type} (pages pages' : Pages Page) : Prop where
  advances : Arena.Advances pages pages'
  alike : ∀ id page page', pages.get? id = some page → pages'.get? id = some page' →
    page'.physical = page.physical ∧ page'.validTokens = page.validTokens

namespace Steady

variable {Page : Type} {pages pages' pages'' : Pages Page}

theorem refl (pages : Pages Page) : Steady pages pages where
  advances := .refl _
  alike := by
    intro id page page' hpage hpage'
    rw [hpage] at hpage'
    rw [Option.some.inj hpage']
    exact ⟨rfl, rfl⟩

theorem trans (h : Steady pages pages') (h' : Steady pages' pages'') : Steady pages pages'' where
  advances := h.advances.trans h'.advances
  alike := by
    intro id page page'' hpage hpage''
    rcases h.advances.live_or_expired hpage with ⟨page', hpage'⟩ | hexpired
    · obtain ⟨hphysical, hvalid⟩ := h.alike id page page' hpage hpage'
      obtain ⟨hphysical', hvalid'⟩ := h'.alike id page' page'' hpage' hpage''
      exact ⟨hphysical'.trans hphysical, hvalid'.trans hvalid⟩
    · rw [(h'.advances.expired hexpired).get?] at hpage''
      cases hpage''

theorem ofRemoved {ids : List PageId} {update : PageId → PageRecord Page → PageRecord Page}
    (hadvances : Arena.Advances pages pages')
    (hget : ∀ id, pages'.get? id = if id ∈ ids then none else (pages.get? id).map (update id))
    (hupdate : ∀ id page, (update id page).physical = page.physical ∧
      (update id page).validTokens = page.validTokens) : Steady pages pages' where
  advances := hadvances
  alike := by
    intro id page page' hpage hpage'
    rw [hget, hpage] at hpage'
    split_ifs at hpage'
    rw [← Option.some.inj hpage']
    exact hupdate id page

theorem ofUpdated {update : PageId → PageRecord Page → PageRecord Page}
    (h : Arena.Updated update pages pages')
    (hupdate : ∀ id page, (update id page).physical = page.physical ∧
      (update id page).validTokens = page.validTokens) : Steady pages pages' where
  advances := .ofUpdated h
  alike := by
    intro id page page' hpage hpage'
    rw [h.get?, hpage] at hpage'
    rw [← Option.some.inj hpage']
    exact hupdate id page

theorem ofGrows {shared fresh : List PageId} (h : Grows pages pages' shared fresh) :
    Steady pages pages' where
  advances := h.advances
  alike := by
    intro id page page' hpage hpage'
    obtain ⟨found, hfound, hphysical, hvalid, -⟩ := h.keeps id page hpage
    rw [Option.some.inj (hpage'.symm.trans hfound)]
    exact ⟨hphysical, hvalid⟩

theorem alike_of_live (h : Steady pages pages') {id : PageId}
    (hlive : ∃ page, pages.get? id = some page) (hlive' : ∃ page, pages'.get? id = some page) :
    SameCells pages pages' id := by
  obtain ⟨page, hpage⟩ := hlive
  obtain ⟨page', hpage'⟩ := hlive'
  obtain ⟨hphysical, hvalid⟩ := h.alike id page page' hpage hpage'
  rw [SameCells, hpage, hpage', Option.map_some, Option.map_some, hphysical, hvalid]

end Steady

section Survivors

variable {cache cache' : SequenceCache R} {orphans orphans' : List PageId}
variable {stray stray' : List TokenBlockId}

theorem Inv.held_live (hinv : Inv orphans stray cache) {sequence : SequenceId}
    {record : SequenceRecord R.AppendTransaction}
    (hrecord : cache.sequences.get? sequence = some record) {id : PageId}
    (hmem : id ∈ record.heldPages) : ∃ page, cache.pages.get? id = some page := by
  obtain ⟨page, hpage, -⟩ := (hinv.owned.sequence sequence record hrecord).live hmem
  exact ⟨page, hpage⟩

theorem Inv.retained_live (hinv : Inv orphans stray cache) {entry : PrefixEntry R.Snapshot}
    {key : PrefixEntryId} (hentry : cache.prefixes[key]? = some entry) {id : PageId}
    (hmem : id ∈ entry.pages) : ∃ page, cache.pages.get? id = some page := by
  obtain ⟨page, hpage, -⟩ := (hinv.owned.entry key entry hentry).held id hmem
  exact ⟨page, hpage⟩

variable (hinv : Inv orphans stray cache) (hinv' : Inv orphans' stray' cache')
  (hsteady : Steady cache.pages cache'.pages)

include hinv hinv' hsteady

/-- A sequence that stays keeps its rows. -/
theorem Steady.account_eq {sequence : SequenceId} {record : SequenceRecord R.AppendTransaction}
    (hrecord : cache.sequences.get? sequence = some record)
    (hrecord' : cache'.sequences.get? sequence = some record) :
    record.account cache'.pages = record.account cache.pages :=
  (hinv.owned.sequence sequence record hrecord).account_eq fun _ hmem =>
    hsteady.alike_of_live (hinv.held_live hrecord hmem) (hinv'.held_live hrecord' hmem)

/-- An entry that stays keeps its rows. -/
theorem Steady.cellsOf_eq {id : PrefixEntryId} {entry entry' : PrefixEntry R.Snapshot}
    (hentry : cache.prefixes[id]? = some entry) (hentry' : cache'.prefixes[id]? = some entry')
    (hpages : entry'.pages = entry.pages) :
    cellsOf cache'.pages entry'.pages = cellsOf cache.pages entry.pages := by
  rw [hpages]
  exact cellsOf_congr fun page hmem => hsteady.alike_of_live (hinv.retained_live hentry hmem)
    (hinv'.retained_live hentry' (hpages ▸ hmem))

end Survivors

namespace SequenceCache

variable {cache cache' : SequenceCache R} {orphans : List PageId}
variable {stray stray' : List TokenBlockId}

theorem Evicted.steady {entries : List PrefixEntryId} {context : R.Context}
    {retired : List PageId} {physical : List R.Page} {deferred : ℕ}
    (h : Evicted cache cache' entries context retired physical deferred) :
    Steady cache.pages cache'.pages :=
  .ofRemoved h.advances h.pages fun _ _ => ⟨rfl, rfl⟩

/-- Evictions discard the entries and leave everything else where it is. -/
theorem Evicted.books_eq {entries : List PrefixEntryId} {context : R.Context}
    {retired : List PageId} {physical : List R.Page} {deferred : ℕ}
    (h : Evicted cache cache' entries context retired physical deferred)
    (hinv : Inv orphans stray cache) (hinv' : Inv orphans stray' cache') :
    cache'.books = cache.books.discard entries := by
  ext1
  · funext sequence
    change (cache'.sequences.get? sequence).map _ = (cache.sequences.get? sequence).map _
    rw [h.sequences]
    exact Option.map_congr fun record hrecord =>
      h.steady.account_eq hinv hinv' hrecord (h.sequences ▸ hrecord)
  · funext id
    change (cache'.prefixes[id]?).map _ = if id ∈ entries then none else (cache.prefixes[id]?).map _
    have hkept : cache'.prefixes[id]? = if id ∈ entries then none else cache.prefixes[id]? := by
      rw [h.prefixes, getElem?_eraseAll]
    split_ifs at hkept ⊢ with hmem
    · rw [hkept]
      rfl
    · rw [hkept]
      exact Option.map_congr fun entry hentry =>
        h.steady.cellsOf_eq hinv hinv' hentry (hkept.trans hentry) rfl

/-- An admission discards the planned entries and enrolls the new sequence. -/
theorem Admission.books_eq {limit : ℕ} {protectedEntry : Option PrefixEntryId}
    {flight : List R.Page} {context : R.Context} {shared fresh retired : List PageId}
    {id : SequenceId} {record : SequenceRecord R.AppendTransaction} {plan : List PrefixEntryId}
    {start evicted : SequenceCache R} {physical : List R.Page} {deferred : ℕ}
    (h : Admission cache cache' limit protectedEntry flight context shared fresh id record plan
      start evicted retired physical deferred) (hinv : Inv orphans stray cache)
    (hinv' : Inv orphans stray' cache') : Steady cache.pages cache'.pages ∧
    cache.books.accounts id = none ∧
    cache'.books = (cache.books.discard plan).enroll id (cellsOf cache'.pages record.pages) := by
  have hpages : start.pages = cache.pages := (congrArg SequenceCache.pages h.published :)
  have hsequences : start.sequences = cache.sequences :=
    (congrArg SequenceCache.sequences h.published :)
  have hprefixes : start.prefixes = cache.prefixes :=
    (congrArg SequenceCache.prefixes h.published :)
  have hsteady : Steady cache.pages cache'.pages :=
    hpages ▸ h.carried_out.steady.trans (.ofGrows h.admitted.pages)
  have hlater : cache'.prefixes = eraseAll cache.prefixes plan :=
    (congrArg SequenceCache.prefixes h.admitted.state :).trans (hprefixes ▸ h.carried_out.prefixes)
  have hearlier : ∀ other, evicted.sequences.get? other = cache.sequences.get? other := by
    intro other
    rw [h.carried_out.sequences, hsequences]
  refine ⟨hsteady, ?_, ?_⟩
  · change (cache.sequences.get? id).map _ = none
    rw [← hearlier, h.admitted.absent]
    rfl
  ext1
  · funext sequence
    change (cache'.sequences.get? sequence).map _ =
      Function.update cache.books.accounts id _ sequence
    have hsequence := h.admitted.sequences sequence
    rw [hearlier] at hsequence
    by_cases heq : sequence = id
    · subst heq
      rw [if_pos rfl] at hsequence
      rw [hsequence, Function.update_self, Option.map_some, SequenceRecord.account,
        h.admitted.pending]
      rfl
    · rw [if_neg heq] at hsequence
      rw [Function.update_of_ne heq, hsequence]
      exact Option.map_congr fun record hrecord =>
        hsteady.account_eq hinv hinv' hrecord (hsequence.trans hrecord)
  · funext key
    change (cache'.prefixes[key]?).map _ = if key ∈ plan then none else (cache.prefixes[key]?).map _
    have hkept : cache'.prefixes[key]? = if key ∈ plan then none else cache.prefixes[key]? := by
      rw [hlater, getElem?_eraseAll]
    split_ifs at hkept ⊢ with hmem
    · rw [hkept]
      rfl
    · rw [hkept]
      exact Option.map_congr fun entry hentry =>
        hsteady.cellsOf_eq hinv hinv' hentry (hkept.trans hentry) rfl

/-- A reservation only adds a draft. -/
theorem Reserved.books_eq {sequence : SequenceId} {record : SequenceRecord R.AppendTransaction}
    {rows : ℕ} {context : R.Context} {transaction : R.AppendTransaction} {fresh : List PageId}
    {allocations : List R.Page} {prepared : R.History}
    (h : Reserved cache cache' sequence record rows context transaction fresh allocations prepared)
    (hinv : Inv [] stray cache) (hinv' : Inv [] stray' cache') : ∃ draft,
      draft.length = rows ∧ cache.books.accounts sequence =
        some ⟨cellsOf cache.pages record.pages, none⟩ ∧
      cache'.books = cache.books.reserve sequence draft := by
  have hsequences : cache'.sequences = cache.sequences.set sequence
      (record.reserve cache.config.pageTokens rows cache.appendNonce fresh transaction) :=
    (congrArg SequenceCache.sequences h.state :)
  have hprefixes : cache'.prefixes = cache.prefixes :=
    (congrArg SequenceCache.prefixes h.state :)
  have hconfig : cache'.config = cache.config := (congrArg SequenceCache.config h.state :)
  have hsteady : Steady cache.pages cache'.pages := .ofGrows h.pages
  have hget : ∀ other, cache'.sequences.get? other = if other = sequence then some (record.reserve
      cache.config.pageTokens rows cache.appendNonce fresh transaction)
      else cache.sequences.get? other := by
    intro other
    rw [hsequences]
    exact Arena.get?_set h.live
  have hself := hget sequence
  rw [if_pos rfl] at hself
  have haccount : cache.books.accounts sequence = some
      ⟨cellsOf cache.pages record.pages, none⟩ := by
    change (cache.sequences.get? sequence).map _ = _
    rw [h.live, Option.map_some, SequenceRecord.account, h.pending]
    rfl
  have hok := hinv'.owned.sequence sequence _ hself
  refine ⟨draftCells cache'.pages (segmentsOf cache.config.pageTokens record.position rows
    (record.pages ++ fresh)), hok.length_draftCells (hconfig ▸ hinv.config.pageTokens_pos) rfl,
    haccount, ?_⟩
  ext1
  · funext other
    change (cache'.sequences.get? other).map _ = Function.update cache.books.accounts
      sequence _ other
    rw [hget other]
    by_cases heq : other = sequence
    · subst heq
      rw [if_pos rfl, Function.update_self, haccount, Option.map_some, Option.map_some]
      refine congrArg (fun cells => some (Account.mk cells _)) (cellsOf_congr fun id hmem => ?_)
      exact (h.pages.keeps id).alike (hinv.held_live h.live (mem_pages_heldPages hmem))
    · rw [if_neg heq, Function.update_of_ne heq]
      refine Option.map_congr fun found hfound => hsteady.account_eq hinv hinv' hfound ?_
      rw [hget other, if_neg heq, hfound]
  · funext key
    change (cache'.prefixes[key]?).map _ = (cache.prefixes[key]?).map _
    rw [hprefixes]
    exact Option.map_congr fun entry hentry =>
      hsteady.cellsOf_eq hinv hinv' hentry (hprefixes ▸ hentry) rfl

/-- An open page that a sequence holds is in no other table. -/
theorem not_held_elsewhere (hinv : Inv [] stray cache) {sequence : SequenceId}
    {record : SequenceRecord R.AppendTransaction}
    (hrecord : cache.sequences.get? sequence = some record) {id : PageId}
    (hmem : id ∈ record.heldPages) {page : PageRecord R.Page}
    (hpage : cache.pages.get? id = some page) (hopen : page.sealed = false) :
    (∀ other record', cache.sequences.get? other = some record' → other ≠ sequence →
      id ∉ record'.heldPages) ∧
    ∀ (key : PrefixEntryId) (entry : PrefixEntry R.Snapshot), cache.prefixes[key]? = some entry →
      id ∉ entry.pages := by
  obtain ⟨-, hzero, hothers⟩ := hinv.owned.only_holder hrecord hmem hpage hopen
  refine ⟨hothers, fun key entry hentry hheld => ?_⟩
  have hpositive := prefixCount_pos hentry hheld
  rw [← (hinv.owned.page id page hpage).prefix_refs, hzero] at hpositive
  exact Nat.lt_irrefl 0 hpositive

/-- A finalization adopts the first drafted rows of its sequence. -/
theorem Settled.books_eq {sequence : SequenceId} {record : SequenceRecord R.AppendTransaction}
    {pending : PendingAppend R.AppendTransaction} {committed : ℕ} {event : R.Event}
    (h : Settled cache cache' sequence record pending committed event)
    (hinv : Inv [] stray cache) (hinv' : Inv [] stray' cache') :
    cache.books.accounts sequence = some ⟨cellsOf cache.pages record.pages,
      some (draftCells cache.pages pending.segments)⟩ ∧
    cache'.books = cache.books.commit sequence committed := by
  have hprefixes : cache'.prefixes = cache.prefixes :=
    (congrArg SequenceCache.prefixes h.state :)
  have hconfig : cache'.config = cache.config := (congrArg SequenceCache.config h.state :)
  have hok := hinv.owned.sequence sequence record h.live
  have haccount : cache.books.accounts sequence = some ⟨cellsOf cache.pages record.pages,
      some (draftCells cache.pages pending.segments)⟩ := by
    change (cache.sequences.get? sequence).map _ = _
    rw [h.live, Option.map_some, SequenceRecord.account, h.waiting]
    rfl
  have hget : ∀ other, cache'.sequences.get? other = if other = sequence then some
      (record.settle cache.config.pageTokens pending committed)
      else cache.sequences.get? other := by
    intro other
    rw [h.sequences]
    exact Arena.get?_set h.live
  have hself := hget sequence
  rw [if_pos rfl] at hself
  -- Only the pages of the pending append change, and nobody else holds them.
  have hopen : ∀ id, id ∈ releasedPages cache.config.pageTokens record pending committed ∨
      id ∈ (segmentsDone cache.config.pageTokens record.position committed
        record.heldPages).map AppendSegment.page →
      id ∈ record.heldPages ∧ ∃ page, cache.pages.get? id = some page ∧ page.sealed = false := by
    rintro id (hreleased | hwritten)
    · have hnew : id ∈ pending.newPages := List.mem_of_mem_drop hreleased
      obtain ⟨page, hpage, -, hsealed⟩ := newPages_open hinv h.live h.waiting hnew
      exact ⟨by rw [heldPages_of_pending_some h.waiting]; exact List.mem_append_right _ hnew,
        page, hpage, hsealed⟩
    · obtain ⟨hheld, page, hpage, -, hsealed⟩ := written_open hinv h.live h.waiting hwritten
      exact ⟨hheld, page, hpage, hsealed⟩
  have halike : ∀ id, id ∉ releasedPages cache.config.pageTokens record pending committed →
      id ∉ (segmentsDone cache.config.pageTokens record.position committed
        record.heldPages).map AppendSegment.page → SameCells cache.pages cache'.pages id := by
    intro id hreleased hwritten
    rw [SameCells, h.pages, if_neg hreleased, Option.map_map]
    exact Option.map_congr fun page _ => by
      rw [Function.comp_apply, PageRecord.mark_of_not_mem page hwritten]
  refine ⟨haccount, ?_⟩
  ext1
  · funext other
    change (cache'.sequences.get? other).map _ = Function.update cache.books.accounts
      sequence _ other
    rw [hget other]
    by_cases heq : other = sequence
    · subst heq
      rw [if_pos rfl, Function.update_self, haccount, Option.map_some, Option.map_some]
      refine congrArg (fun cells => some (Account.mk cells none)) ?_
      refine hok.cellsOf_settled hinv.config.pageTokens_pos h.waiting ?_ h.committed_le ?_
      · rw [← hconfig]
        exact hconfig ▸ hinv'.owned.sequence other _ hself
      · intro id hmem
        have hnodup := hok.nodup
        rw [heldPages_of_pending_some h.waiting, ← kept_append_released cache.config.pageTokens
          record pending committed, ← List.append_assoc] at hnodup
        rw [h.pages, if_neg (List.disjoint_of_nodup_append hnodup hmem), Option.bind_map]
        exact congrArg (Option.bind _) (funext fun page => page.mark_physical)
    · rw [if_neg heq, Function.update_of_ne heq]
      refine Option.map_congr fun found hfound => ?_
      have helsewhere : ∀ id ∈ found.heldPages, ¬ (id ∈ record.heldPages ∧
          ∃ page, cache.pages.get? id = some page ∧ page.sealed = false) := by
        rintro id hmem ⟨hheld, page, hpage, hsealed⟩
        exact (not_held_elsewhere hinv h.live hheld hpage hsealed).1 other found hfound heq hmem
      exact (hinv.owned.sequence other found hfound).account_eq fun id hmem => halike id
        (fun hreleased => helsewhere id hmem (hopen id (Or.inl hreleased)))
        fun hwritten => helsewhere id hmem (hopen id (Or.inr hwritten))
  · funext key
    change (cache'.prefixes[key]?).map _ = (cache.prefixes[key]?).map _
    rw [hprefixes]
    refine Option.map_congr fun entry hentry => ?_
    have helsewhere : ∀ id ∈ entry.pages, ¬ (id ∈ record.heldPages ∧
        ∃ page, cache.pages.get? id = some page ∧ page.sealed = false) := by
      rintro id hmem ⟨hheld, page, hpage, hsealed⟩
      exact (not_held_elsewhere hinv h.live hheld hpage hsealed).2 key entry hentry hmem
    exact cellsOf_congr fun id hmem => halike id
      (fun hreleased => helsewhere id hmem (hopen id (Or.inl hreleased)))
      fun hwritten => helsewhere id hmem (hopen id (Or.inr hwritten))

/-- A completion only removes its sequence. -/
theorem Finished.books_eq {sequence : SequenceId} {record : SequenceRecord R.AppendTransaction}
    {context : R.Context} {physical : List R.Page} {deferred : ℕ}
    (h : Finished cache cache' sequence record context physical deferred)
    (hinv : Inv orphans stray cache) (hinv' : Inv orphans stray' cache') :
    cache'.books = cache.books.dismiss sequence := by
  have hsequences : cache'.sequences = cache.sequences.release sequence :=
    (congrArg SequenceCache.sequences h.state :)
  have hprefixes : cache'.prefixes = cache.prefixes :=
    (congrArg SequenceCache.prefixes h.state :)
  have hsteady : Steady cache.pages cache'.pages :=
    .ofRemoved h.advances h.pages fun _ _ => ⟨rfl, rfl⟩
  ext1
  · funext other
    change (cache'.sequences.get? other).map _ = Function.update cache.books.accounts
      sequence _ other
    have hget : cache'.sequences.get? other =
        if other = sequence then none else cache.sequences.get? other := by
      rw [hsequences]
      exact Arena.get?_release h.live
    by_cases heq : other = sequence
    · subst heq
      rw [hget, if_pos rfl, Function.update_self]
      rfl
    · rw [if_neg heq] at hget
      rw [Function.update_of_ne heq, hget]
      exact Option.map_congr fun found hfound =>
        hsteady.account_eq hinv hinv' hfound (hget.trans hfound)
  · funext key
    change (cache'.prefixes[key]?).map _ = (cache.prefixes[key]?).map _
    rw [hprefixes]
    exact Option.map_congr fun entry hentry =>
      hsteady.cellsOf_eq hinv hinv' hentry (hprefixes ▸ hentry) rfl

/-- A retention discards the planned entries and freezes the rows of its sequence. -/
theorem Retained.books_eq {sequence : SequenceId} {record : SequenceRecord R.AppendTransaction}
    {blocks : List TokenBlockId} {snapshot : R.Snapshot} {context : R.Context}
    {retired : List PageId} {plan : List PrefixEntryId} {physical : List R.Page} {deferred : ℕ}
    {interned evicted : SequenceCache R} {tokens : List Token}
    (hinterns : Interns cache interned stray blocks tokens)
    (hevicted : Evicted interned evicted plan context retired physical deferred)
    (h : Retained evicted cache' sequence record blocks snapshot)
    (hinv : Inv orphans stray cache) (hinv' : Inv orphans stray' cache') :
    Steady cache.pages cache'.pages ∧ cache'.books = (cache.books.discard plan).freeze
      cache.nextPrefixId (cellsOf cache.pages record.pages) := by
  have hpages : interned.pages = cache.pages := (congrArg SequenceCache.pages hinterns.state :)
  have hearlier : interned.sequences = cache.sequences :=
    (congrArg SequenceCache.sequences hinterns.state :)
  have hinterned : interned.prefixes = cache.prefixes :=
    (congrArg SequenceCache.prefixes hinterns.state :)
  have hnext : evicted.nextPrefixId = cache.nextPrefixId :=
    hevicted.nextPrefixId.trans (congrArg SequenceCache.nextPrefixId hinterns.state :)
  have hsequences : cache'.sequences = cache.sequences :=
    (congrArg SequenceCache.sequences h.state :).trans (hevicted.sequences.trans hearlier)
  have hsteady : Steady cache.pages cache'.pages :=
    hpages ▸ hevicted.steady.trans (.ofUpdated h.pages fun _ _ => ⟨rfl, rfl⟩)
  have hlive : cache.sequences.get? sequence = some record := by
    rw [← hearlier, ← hevicted.sequences]
    exact h.live
  have hrows : cellsOf cache'.pages record.pages = cellsOf cache.pages record.pages :=
    congrArg Account.rows (hsteady.account_eq hinv hinv' hlive (hsequences ▸ hlive))
  refine ⟨hsteady, ?_⟩
  ext1
  · funext other
    change (cache'.sequences.get? other).map _ = (cache.sequences.get? other).map _
    rw [hsequences]
    exact Option.map_congr fun found hfound =>
      hsteady.account_eq hinv hinv' hfound (hsequences ▸ hfound)
  · funext key
    change (cache'.prefixes[key]?).map _ = Function.update (cache.books.discard plan).frozen
      cache.nextPrefixId _ key
    obtain ⟨retimed, hretimed, hprefixes⟩ := h.prefixes
    by_cases heq : key = cache.nextPrefixId
    · rw [heq, Function.update_self, hprefixes, hnext, ExtTreeMap.getElem?_insert_self]
      exact congrArg some hrows
    · have hother : cache'.prefixes[key]? = retimed[key]? := by
        rw [hprefixes, hnext, ExtTreeMap.getElem?_insert,
          if_neg (by simpa using Ne.symm heq)]
      rw [Function.update_of_ne heq]
      change _ = if key ∈ plan then none else (cache.prefixes[key]?).map _
      have hkept : evicted.prefixes[key]? =
          if key ∈ plan then none else cache.prefixes[key]? := by
        rw [hevicted.prefixes, hinterned, getElem?_eraseAll]
      have huntimed := hretimed key
      rw [hkept, ← hother] at huntimed
      split_ifs at huntimed ⊢ with hmem
      · cases hentry' : cache'.prefixes[key]? with
        | none => rfl
        | some entry' => rw [hentry'] at huntimed; cases huntimed
      · cases hentry : cache.prefixes[key]? with
        | none =>
            rw [hentry] at huntimed
            rw [Option.map_eq_none_iff.mp huntimed]
            rfl
        | some entry =>
            rw [hentry] at huntimed
            obtain ⟨entry', hentry', hsame⟩ := Option.map_eq_some_iff.mp huntimed
            rw [hentry', Option.map_some, Option.map_some]
            exact congrArg some (hsteady.cellsOf_eq hinv hinv' hentry hentry'
              (congrArg PrefixEntry.pages hsame :))

end SequenceCache

end SeqCache
