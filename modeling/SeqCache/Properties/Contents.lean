import SeqCache.Run.Memory

/-!
# The rows of sequences and entries

Over any run, the cache keeps the books of a simple specification: a sequence is a list of
rows to which a commit appends the first drafted rows, an entry is a list that never
changes, a new sequence starts with a copy of an entry or of another sequence, and nothing
else changes any list.  Pages are shared, copied, recycled and evicted underneath.
-/

namespace SeqCache

open Machine Program Std

variable {R : Runtime} {Row : Type}

/-! ## What the books say about the storage -/

def Cell.read {Page : Type} (memory : Page → ℕ → Row) (cell : Cell Page) : Row :=
  memory cell.storage cell.row

/-- The rows of all sequences and entries, as they are stored. -/
def SequenceCache.contents (cache : SequenceCache R) (memory : R.Page → ℕ → Row) :
    Books SequenceId PrefixEntryId Row :=
  cache.books.map (Cell.read memory)

section Places

variable {Page : Type} {pages : Pages Page} {cell : Cell Page}

theorem locate_eq_some {place : PageId × ℕ} : locate pages place = some cell ↔
    (∃ page, pages.get? cell.page = some page ∧ page.physical = some cell.storage) ∧
      place = (cell.page, cell.row) := by
  obtain ⟨id, storage, row⟩ := cell
  rw [locate, Option.map_eq_some_iff]
  constructor
  · rintro ⟨found, hfound, heq⟩
    obtain ⟨rfl, rfl, rfl⟩ := Cell.mk.inj heq
    exact ⟨Option.bind_eq_some_iff.mp hfound, rfl⟩
  · rintro ⟨hstorage, rfl⟩
    exact ⟨storage, Option.bind_eq_some_iff.mpr hstorage, rfl⟩

theorem mem_cellsOf {ids : List PageId} : cell ∈ cellsOf pages ids ↔
    cell.page ∈ ids ∧ ∃ page, pages.get? cell.page = some page ∧
      page.physical = some cell.storage ∧ cell.row < page.validTokens := by
  rw [cellsOf, List.mem_filterMap]
  constructor
  · rintro ⟨place, hmem, hlocate⟩
    obtain ⟨⟨page, hpage, hstorage⟩, rfl⟩ := locate_eq_some.mp hlocate
    obtain ⟨id, hid, hplace⟩ := List.mem_flatMap.mp hmem
    obtain ⟨row, hrow, heq⟩ := List.mem_map.mp hplace
    obtain ⟨rfl, rfl⟩ := Prod.mk.inj heq
    rw [validRowsOf, hpage, List.mem_range] at hrow
    exact ⟨hid, page, hpage, hstorage, hrow⟩
  · rintro ⟨hid, page, hpage, hstorage, hrow⟩
    refine ⟨(cell.page, cell.row), List.mem_flatMap.mpr ⟨cell.page, hid, ?_⟩,
      locate_eq_some.mpr ⟨⟨page, hpage, hstorage⟩, rfl⟩⟩
    refine List.mem_map.mpr ⟨cell.row, ?_, rfl⟩
    rw [validRowsOf, hpage, List.mem_range]
    exact hrow

end Places

namespace SequenceCache

variable {cache cache' : SequenceCache R} {stray stray' : List TokenBlockId}
variable {memory memory' : R.Page → ℕ → Row} {cell : Cell R.Page}

/-- The storage of the cell belongs to its page. -/
def Placed (cache : SequenceCache R) (cell : Cell R.Page) : Prop :=
  ∃ page, cache.pages.get? cell.page = some page ∧ page.physical = some cell.storage

theorem covers_valid (h : cache.books.Covers cell) :
    ∃ page, cache.pages.get? cell.page = some page ∧ page.physical = some cell.storage ∧
      cell.row < page.validTokens := by
  rcases h with ⟨sequence, account, haccount, hmem⟩ | ⟨id, rows, hrows, hmem⟩
  · obtain ⟨record, -, rfl⟩ := Option.map_eq_some_iff.mp haccount
    exact (mem_cellsOf.mp hmem).2
  · obtain ⟨entry, -, rfl⟩ := Option.map_eq_some_iff.mp hrows
    exact (mem_cellsOf.mp hmem).2

theorem placed_of_covers (h : cache.books.Covers cell) : cache.Placed cell := by
  obtain ⟨page, hpage, hstorage, -⟩ := covers_valid h
  exact ⟨page, hpage, hstorage⟩

/-- What stays valid reads the same before and after. -/
theorem SameRows.read_eq (h : SameRows cache cache' memory memory')
    (hcovers : cache'.books.Covers cell) (hplaced : cache.Placed cell) :
    cell.read memory' = cell.read memory := by
  obtain ⟨page', hpage', -, hrow⟩ := covers_valid hcovers
  obtain ⟨page, hpage, hstorage⟩ := hplaced
  exact h cell.page page page' cell.storage cell.row hpage hpage' hstorage hrow

/-- Where all rows were stored before, only drafts are rewritten. -/
theorem SameRows.redrafted (h : SameRows cache cache' memory memory')
    (hplaced : ∀ cell, cache'.books.Covers cell → cache.Placed cell) :
    Books.Redrafted (cache'.books.map (Cell.read memory)) (cache'.contents memory') :=
  Books.redrafted_map fun cell hcovers => h.read_eq hcovers (hplaced cell hcovers)

end SequenceCache

/-! ## The specification -/

open SequenceCache

/-- Rows that an admission starts with. -/
def Starts (books : Books SequenceId PrefixEntryId Row) :
    Option PrefixMatch → List Row → Prop
  | none, rows => rows = []
  | some found, rows => books.frozen found.entry = some rows

/-- Reservations that a batch made. -/
def madeBy {α : Type} : BatchResult R (List α) → ℕ
  | .ok made => made.length
  | .error failure => failure.pending.length

/-- What a call that ended with the result may do to the books. -/
def HasEffect : Operation R → Except (Failure R.Error) (Reply R) →
    Books SequenceId PrefixEntryId Row → Books SequenceId PrefixEntryId Row → Prop
  | .admitSequence prefixMatch _ _ _, .ok (.admission (.admitted id)), books, books' =>
      ∃ rows discarded, Starts books prefixMatch rows ∧ books.accounts id = none ∧
        books' = (books.discard discarded).enroll id rows
  | .branch source _ _, .ok (.admission (.admitted id)), books, books' =>
      ∃ rows discarded, books.accounts source = some ⟨rows, none⟩ ∧ books.accounts id = none ∧
        books' = (books.discard discarded).enroll id rows
  | .reserveAppend sequence rows _, .ok (.reservation _), books, books' =>
      books.Reserves sequence rows books'
  | .commitAppend reservation rows _, .ok .done, books, books' =>
      books.Commits reservation.sequence rows books'
  | .abortAppend reservation _, .ok .done, books, books' =>
      books.Commits reservation.sequence 0 books'
  | .reserveAppendBatch requests _, .ok (.reservations result), books, books' =>
      Books.Each (fun request => Books.Reserves request.sequence request.rows)
        (requests.take (madeBy result)) books books'
  | .commitAppendBatch reservations rows _, .ok (.finalized result), books, books' =>
      ∃ count, (result = .ok () → count = reservations.length) ∧
        (∀ failure, result = .error failure → count = 0 ∨ failure.failedIndex = some count) ∧
        Books.Each (fun item => Books.Commits item.1.sequence item.2)
          ((reservations.zip rows).take count) books books'
  | .abortAppendBatch reservations _, .ok (.finalized result), books, books' =>
      ∃ count, (result = .ok () → count = reservations.length) ∧
        (∀ failure, result = .error failure → count = 0 ∨ failure.failedIndex = some count) ∧
        Books.Each (fun reservation => Books.Commits reservation.sequence 0)
          (reservations.take count) books books'
  | .retainPrefix sequence _ _ _, .ok (.retained (.inserted id)), books, books' =>
      ∃ rows draft discarded, books.accounts sequence = some ⟨rows, draft⟩ ∧
        books.frozen id = none ∧ books' = (books.discard discarded).freeze id rows
  | .evictPrefix id _, .ok .done, books, books' =>
      books.frozen id ≠ none ∧ books' = books.discard [id]
  | .finish sequence _, .ok .done, books, books' =>
      (∃ rows, books.accounts sequence = some ⟨rows, none⟩) ∧ books' = books.dismiss sequence
  | _, _, books, books' => books' = books

/-! ## Calls that leave the books alone -/

namespace SequenceCache

variable {cache cache' cache'' : SequenceCache R} {orphans : List PageId}
variable {stray stray' : List TokenBlockId} {memory memory' : R.Page → ℕ → Row}

/-- Neither the page records nor the tables changed. -/
structure Still (cache cache' : SequenceCache R) : Prop where
  pages : cache'.pages = cache.pages
  books : cache'.books = cache.books

theorem Still.refl (cache : SequenceCache R) : Still cache cache := ⟨rfl, rfl⟩

theorem Still.trans (h : Still cache cache') (h' : Still cache' cache'') : Still cache cache'' :=
  ⟨h'.pages.trans h.pages, h'.books.trans h.books⟩

theorem Still.ofQuiet (h : Quiet cache cache') : Still cache cache' := ⟨h.pages, books_of_quiet h⟩

theorem Called.still {limit : ℕ} {flight : List R.Page} (h : Called limit cache cache' flight) :
    Still cache cache' :=
  ⟨(congrArg SequenceCache.pages h.state :), h.books_eq⟩

theorem Touched.still {used : Option PrefixEntryId} (h : Touched cache cache' used) :
    Still cache cache' :=
  ⟨(congrArg SequenceCache.pages h.state :), h.books_eq⟩

theorem Reclaimed.still {context : R.Context} {reclaimed : ℕ}
    (h : Reclaimed cache cache' context reclaimed) : Still cache cache' := by
  rw [h.state]
  exact ⟨rfl, rfl⟩

theorem Interns.still {blocks : List TokenBlockId} {tokens : List Token}
    (h : Interns cache cache' stray blocks tokens) : Still cache cache' := by
  rw [h.state]
  exact ⟨rfl, rfl⟩

theorem Copies.still {start : SequenceCache R} {record : SequenceRecord R.AppendTransaction}
    {context : R.Context} {copied : Option R.Page} {history : R.History}
    (h : Copies cache start record context copied history) : Still cache start := by
  rw [h.state]
  exact ⟨rfl, rfl⟩

theorem FinalizeFails.still {reservation : AppendReservation} {valid : Prop} {committed : ℕ}
    {context : R.Context} {failure : Failure R.Error}
    (h : FinalizeFails orphans stray cache reservation valid committed context failure cache')
    (hintact : ∀ kind, failure ≠ .error (.idExhausted kind)) : Still cache cache' := by
  rcases h with ⟨-, rfl⟩ | ⟨error, -, hputBack⟩ | ⟨hfailure, -⟩
  · exact .refl _
  · exact .ofQuiet hputBack.unchanged.quiet
  · exact absurd hfailure (hintact _)

theorem RetainFails.still {sequence : SequenceId} {tokens : List Token} {snapshot : R.Snapshot}
    {context : R.Context} {failure : Failure R.Error}
    (h : RetainFails stray cache sequence tokens snapshot context failure cache') :
    Still cache cache' := by
  cases h with
  | stale => exact .refl _
  | invalid => exact .refl _
  | oversized => exact .refl _
  | uncountable => exact .refl _
  | crowded _ _ _ htouched => exact htouched.still
  | unkeyed _ _ _ _ hundone => exact .ofQuiet hundone.unchanged.quiet
  | full _ _ _ _ hundone => exact .ofQuiet hundone.unchanged.quiet
  | refused _ _ _ _ _ _ hundone => exact .ofQuiet hundone.unchanged.quiet
  | overflown _ _ _ _ _ hinterns => exact hinterns.still
  | unnumbered _ _ _ _ _ _ hinterns => exact hinterns.still

theorem Still.redrafted (h : Still cache cache') (hsame : SameRows cache cache' memory memory') :
    Books.Redrafted (cache.contents memory) (cache'.contents memory') := by
  have hredrafted := hsame.redrafted fun cell hcovers => placed_of_covers (h.books ▸ hcovers)
  rw [h.books] at hredrafted
  exact hredrafted

/-! ## Calls that move no row -/

/-- Every page was live before, in the same storage. -/
def Descends (cache cache' : SequenceCache R) : Prop :=
  ∀ id page', cache'.pages.get? id = some page' →
    ∃ page, cache.pages.get? id = some page ∧ page'.physical = page.physical

/-- Every page with valid rows was live before, in the same storage. -/
def Inherits (cache cache' : SequenceCache R) : Prop :=
  ∀ id page', cache'.pages.get? id = some page' → page'.validTokens = 0 ∨
    ∃ page, cache.pages.get? id = some page ∧ page'.physical = page.physical

theorem Descends.inherits (h : Descends cache cache') : Inherits cache cache' :=
  fun id page' hpage' => Or.inr (h id page' hpage')

theorem Descends.trans (h : Descends cache cache') (h' : Descends cache' cache'') :
    Descends cache cache'' := by
  intro id page'' hpage''
  obtain ⟨page', hpage', hphysical'⟩ := h' id page'' hpage''
  obtain ⟨page, hpage, hphysical⟩ := h id page' hpage'
  exact ⟨page, hpage, hphysical'.trans hphysical⟩

theorem Descends.ofRemoved {ids : List PageId}
    {update : PageId → PageRecord R.Page → PageRecord R.Page}
    (hget : ∀ id, cache'.pages.get? id =
      if id ∈ ids then none else (cache.pages.get? id).map (update id))
    (hupdate : ∀ id page, (update id page).physical = page.physical) : Descends cache cache' := by
  intro id page' hpage'
  rw [hget] at hpage'
  split_ifs at hpage'
  obtain ⟨page, hpage, rfl⟩ := Option.map_eq_some_iff.mp hpage'
  exact ⟨page, hpage, hupdate id page⟩

theorem Inherits.trans (h : Inherits cache cache') (h' : Inherits cache' cache'')
    (hsteady : Steady cache'.pages cache''.pages) : Inherits cache cache'' := by
  intro id page'' hpage''
  rcases h' id page'' hpage'' with hzero | ⟨page', hpage', hphysical'⟩
  · exact Or.inl hzero
  rcases h id page' hpage' with hzero | ⟨page, hpage, hphysical⟩
  · exact Or.inl ((hsteady.alike id page' page'' hpage' hpage'').2.trans hzero)
  · exact Or.inr ⟨page, hpage, hphysical'.trans hphysical⟩

theorem Inherits.redrafted (h : Inherits cache cache')
    (hsame : SameRows cache cache' memory memory') :
    Books.Redrafted (cache'.books.map (Cell.read memory)) (cache'.contents memory') := by
  refine hsame.redrafted fun cell hcovers => ?_
  obtain ⟨page', hpage', hstorage, hrow⟩ := covers_valid hcovers
  rcases h cell.page page' hpage' with hzero | ⟨page, hpage, hphysical⟩
  · rw [hzero] at hrow
    exact absurd hrow (Nat.not_lt_zero _)
  · exact ⟨page, hpage, hphysical ▸ hstorage⟩

/-! ## Appends -/

theorem Finalized.commits {reservation : AppendReservation} {committed : ℕ} {context : R.Context}
    (h : Finalized cache reservation committed context cache') (hinv : Inv [] stray cache)
    (hinv' : Inv [] stray' cache') :
    cache.books.Commits reservation.sequence committed cache'.books ∧ Descends cache cache' := by
  obtain ⟨record, pending, event, hmatches, -, hsettled⟩ := h
  obtain ⟨haccount, hbooks⟩ := hsettled.books_eq hinv hinv'
  have hok := hinv.owned.sequence _ _ hsettled.live
  refine ⟨⟨_, _, haccount, ?_, hbooks⟩,
    .ofRemoved hsettled.pages fun _ page => PageRecord.mark_physical page⟩
  rw [hok.length_draftCells hinv.config.pageTokens_pos hsettled.waiting]
  exact hsettled.committed_le

theorem Reserved.reserves {sequence : SequenceId} {record : SequenceRecord R.AppendTransaction}
    {rows : ℕ} {context : R.Context} {transaction : R.AppendTransaction} {fresh : List PageId}
    {allocations : List R.Page} {prepared : R.History}
    (h : Reserved cache cache' sequence record rows context transaction fresh allocations prepared)
    (hinv : Inv [] stray cache) (hinv' : Inv [] stray' cache') :
    cache.books.Reserves sequence rows cache'.books ∧ Inherits cache cache' := by
  obtain ⟨draft, hlength, haccount, hbooks⟩ := h.books_eq hinv hinv'
  refine ⟨⟨_, draft, haccount, hlength, hbooks⟩, fun id page' hpage' => ?_⟩
  by_cases hfresh : id ∈ fresh
  · have hrecord := List.mem_map_of_mem (f := cache'.pages.get?) hfresh
    rw [h.records, hpage'] at hrecord
    obtain ⟨storage, -, heq⟩ := List.mem_map.mp hrecord
    rw [← Option.some.inj heq]
    exact Or.inl rfl
  · rw [h.pages.old id hfresh] at hpage'
    obtain ⟨page, hpage, rfl⟩ := Option.map_eq_some_iff.mp hpage'
    exact Or.inr ⟨page, hpage, rfl⟩

section Loops

variable {ι : Type} {items : List ι}

/-- Finalizations one after the other. -/
theorem EachOk.commits {call : ι → CacheM R Unit} {values : List Unit}
    (reservation : ι → AppendReservation) (rows : ι → ℕ)
    (hcall : ∀ item state, Inv [] stray state → Ends (call item state)
      (fun _ state' => Inv [] stray state' ∧
        ∃ context, Finalized state (reservation item) (rows item) context state')
      fun _ _ => True)
    (h : EachOk call cache items values cache') (hinv : Inv [] stray cache) :
    Books.Each (fun item => Books.Commits (reservation item).sequence (rows item)) items
      cache.books cache'.books ∧ Descends cache cache' ∧ Inv [] stray cache' := by
  induction h with
  | nil => exact ⟨.nil, fun id page hpage => ⟨page, hpage, rfl⟩, hinv⟩
  | @cons state middle _ item _ _ _ hrun _ ih =>
      have hends := hcall item state hinv
      rw [hrun] at hends
      obtain ⟨hmiddle, context, hfinalized⟩ := hends
      obtain ⟨hcommits, hdescends⟩ := hfinalized.commits hinv hmiddle
      obtain ⟨heach, hrest, hlast⟩ := ih hmiddle
      exact ⟨.cons hcommits heach, hdescends.trans hrest, hlast⟩

/-- Reservations one after the other. -/
theorem EachOk.reserves {values : List AppendReservation}
    {requests : List (AppendBatchRequest × R.Context)}
    (h : EachOk reserveItem cache requests values cache') (hinv : Inv [] stray cache) :
    Books.Each (fun item => Books.Reserves item.1.sequence item.1.rows) requests cache.books
      cache'.books ∧ Inherits cache cache' ∧ Steady cache.pages cache'.pages ∧
        Inv [] stray cache' := by
  induction h with
  | nil => exact ⟨.nil, fun id page hpage => Or.inr ⟨page, hpage, rfl⟩, .refl _, hinv⟩
  | @cons state middle _ item _ _ _ hrun _ ih =>
      have hends := reserveAppend_spec hinv item.1.sequence item.1.rows item.2
      rw [show reserveAppend item.1.sequence item.1.rows item.2 state = _ from hrun] at hends
      obtain ⟨hmiddle, record, transaction, fresh, allocations, prepared, hreserved, -⟩ := hends
      obtain ⟨hreserves, hinherits⟩ := hreserved.reserves hinv hmiddle
      obtain ⟨heach, hrest, hsteady, hlast⟩ := ih hmiddle
      exact ⟨.cons hreserves heach, hinherits.trans hrest hsteady,
        (Steady.ofGrows hreserved.pages).trans hsteady, hlast⟩

end Loops

/-! ## New sequences -/

/-- A new sequence reads as told, and what is not discarded reads as before. -/
theorem enrolled_redrafted {id : SequenceId} {plan : List PrefixEntryId} {rows : List Row}
    {cells : List (Cell R.Page)}
    (hbooks : cache'.books = (cache.books.discard plan).enroll id cells)
    (habsent : cache.books.accounts id = none) (hsame : SameRows cache cache' memory memory')
    (hrows : cells.map (Cell.read memory') = rows) :
    Books.Redrafted (((cache.contents memory).discard plan).enroll id rows)
      (cache'.contents memory') := by
  rw [contents, contents, hbooks, Books.map_enroll, hrows, ← Books.map_discard]
  refine Books.Redrafted.write (Books.redrafted_map fun cell hcovers => ?_) id _
  have hkept : cache'.books.Covers cell := by
    rw [hbooks]
    rcases hcovers with ⟨sequence, account, haccount, hmem⟩ | hfrozen
    · refine Or.inl ⟨sequence, account, ?_, hmem⟩
      have hne : sequence ≠ id := by
        rintro rfl
        exact Option.some_ne_none _ (haccount.symm.trans habsent)
      exact (Function.update_of_ne hne _ _).trans haccount
    · exact Or.inr hfrozen
  refine hsame.read_eq hkept (placed_of_covers ?_)
  rcases hcovers with haccount | ⟨key, found, hfound, hmem⟩
  · exact Or.inl haccount
  · change (if key ∈ plan then none else cache.books.frozen key) = some found at hfound
    split_ifs at hfound
    exact Or.inr ⟨key, found, hfound, hmem⟩

/-- The partial page of a sequence is the only one after its complete pages. -/
theorem branchShared_append (hinv : Inv orphans stray cache) {source : SequenceId}
    {record : SequenceRecord R.AppendTransaction}
    (hrecord : cache.sequences.get? source = some record) :
    record.pages = cache.branchShared record ++ (cache.branchPartial record).toList := by
  have hpos := hinv.config.pageTokens_pos
  have hlength : record.pages.length ≤ record.position / cache.config.pageTokens + 1 := by
    rw [(hinv.owned.sequence source record hrecord).length_pages, ceilDiv_le_iff hpos]
    exact (Nat.lt_div_mul_add hpos).le.trans (Nat.succ_mul _ _).ge
  have hdrop : record.pages.drop (record.position / cache.config.pageTokens) =
      (cache.branchPartial record).toList := by
    rw [branchPartial]
    cases hpage : record.pages[record.position / cache.config.pageTokens]? with
    | none => exact List.drop_eq_nil_of_le (List.getElem?_eq_none_iff.mp hpage)
    | some page =>
        obtain ⟨hlt, rfl⟩ := List.getElem?_eq_some_iff.mp hpage
        rw [List.drop_eq_getElem_cons hlt, List.drop_eq_nil_of_le hlength]
        rfl
  rw [← hdrop, branchShared, List.take_append_drop]

theorem cellsOf_singleton {pages : Pages R.Page} {id : PageId} {page : PageRecord R.Page}
    {storage : R.Page} (hpage : pages.get? id = some page)
    (hstorage : page.physical = some storage) :
    cellsOf pages [id] = (List.range page.validTokens).map fun row => ⟨id, storage, row⟩ := by
  have hlocate : ∀ row, locate pages (id, row) = some ⟨id, storage, row⟩ := by
    intro row
    rw [locate, hpage, Option.bind_some, hstorage]
    rfl
  rw [cellsOf, List.flatMap_singleton, validRowsOf, hpage, List.filterMap_map,
    ← List.filterMap_eq_map]
  exact List.filterMap_congr fun row _ => hlocate row

variable [DecidableEq R.Page] {lost : List R.Page}

section Fork

variable {start evicted : SequenceCache R} {source id : SequenceId} {request : AdmissionRequest}
variable {context : R.Context} {record : SequenceRecord R.AppendTransaction}
variable {copied : Option R.Page} {history : R.History} {reservedPages extra limit : ℕ}
variable {plan : List PrefixEntryId} {fresh retired : List PageId} {physical : List R.Page}
variable {deferred : ℕ}

/-- The calls of a branch that copied its tail: the copy was made, and was not handed back. -/
theorem Forked.copy_kept {storage copy : R.Page} {rows : ℕ}
    (hforked : Forked cache start source request context record copied history reservedPages
      extra limit plan)
    (hhistory : history = .copyPartialPage context storage rows (.ok copy) :: cache.backend)
    (hevicted : Evicted start evicted plan context retired physical deferred)
    (hbackend : cache'.backend = evicted.backend) (haccounted : Accounted cache lost)
    (hfresh : HandsOutFresh cache'.backend) :
    .copyPartialPage context storage rows (.ok copy) ∈ callsSince cache.backend cache'.backend ∧
      copy ∉ handedBack (callsSince cache.backend cache'.backend) := by
  obtain ⟨later, hlater⟩ := hevicted.retirement.suffix
  obtain ⟨table, -, -, hstart⟩ := hforked.copies.published
  have hbefore : start.backend = .updatePageTable context (table ++ copied.toList)
      record.position (.ok ()) :: .copyPartialPage context storage rows (.ok copy) ::
        cache.backend := by
    rw [hstart, ← hhistory]
    rfl
  have hadded : cache'.backend = (later ++ [.updatePageTable context (table ++ copied.toList)
      record.position (.ok ()), .copyPartialPage context storage rows (.ok copy)]) ++
        cache.backend := by
    rw [hbackend, hlater, hbefore, List.append_assoc]
    rfl
  rw [hadded, callsSince_append]
  refine ⟨List.mem_append_right _ (List.mem_cons_of_mem _ List.mem_cons_self), ?_⟩
  -- The copy was not outstanding, so no record stored it and the evictions cannot return it.
  have hearlier : HandsOutFresh
      (.copyPartialPage context storage rows (.ok copy) :: cache.backend) := by
    rw [HandsOutFresh, hbackend, hlater, hbefore] at hfresh
    exact hfresh.of_append.1
  have hnew : holders copy cache.pages = 0 := by
    by_contra hheld
    exact hearlier.2.2 copy (List.mem_singleton.mpr rfl)
      (haccounted.outstanding (Nat.pos_of_ne_zero hheld))
  have hids := hevicted.retired_perm.nodup_iff.mpr (nodup_freedBy start _)
  have hholders := hevicted.stored.holders_eq copy hids hevicted.pages fun _ _ => rfl
  have hpages : start.pages = cache.pages := hforked.copies.still.pages
  have hreturned := (hevicted.retirement.count_eq copy).2
  rw [hpages, hnew] at hholders
  rw [hlater, handedBack_append, List.count_append] at hreturned
  rw [handedBack_append, List.mem_append, not_or]
  refine ⟨List.count_eq_zero.mp (by omega), ?_⟩
  exact List.not_mem_nil

/-- The copy of a partial page reads like its original. -/
theorem Forked.tail_rows
    (hforked : Forked cache start source request context record copied history reservedPages
      extra limit plan)
    (hadmission : Admission cache cache' limit none copied.toList context
      (cache.branchShared record) fresh id (admittedRecord (cache.branchShared record ++ fresh)
        record.position reservedPages request) plan start evicted retired physical deferred)
    (hinv : Inv [] stray cache) (hinv' : Inv [] stray' cache') (haccounted : Accounted cache lost)
    (hfresh : HandsOutFresh cache'.backend) (hrespects : Respects cache cache' memory memory') :
    (cellsOf cache'.pages fresh).map (Cell.read memory') =
      (cellsOf cache.pages (cache.branchPartial record).toList).map (Cell.read memory) := by
  have hlive := hforked.quoted.live
  have hstored := hadmission.admitted.stored
  have htail := hforked.copies.tail
  cases hpartial : cache.branchPartial record with
  | none =>
      rw [(htail.aligned hpartial).1] at hstored
      rw [List.map_eq_nil_iff.mp hstored]
      rfl
  | some tail =>
      obtain ⟨page, storage, copy, hpage, hstorage, rfl, -, hhistory⟩ :=
        htail.partial_tail tail hpartial
      obtain ⟨only, rfl, honly⟩ := List.map_eq_singleton_iff.mp hstored
      obtain ⟨page', hpage', hcopy⟩ := Option.bind_eq_some_iff.mp honly
      obtain ⟨hcalled, hkept⟩ := hforked.copy_kept hhistory hadmission.carried_out
        (congrArg SequenceCache.backend hadmission.admitted.state :) haccounted hfresh
      have hconfig : cache'.config = cache.config := hadmission.config
      -- Both pages are the last of a table with the same position.
      have hvalid : page.validTokens = validRows cache.config.pageTokens record.position
          (record.position / cache.config.pageTokens) := by
        have hheld : record.heldPages[record.position / cache.config.pageTokens]? = some tail := by
          rw [heldPages_of_pending_none hforked.quoted.idle]
          exact hpartial
        obtain ⟨found, hfound, hok⟩ := (hinv.owned.sequence source record hlive).held _ _ hheld
        rw [hpage] at hfound
        rw [Option.some.inj hfound]
        exact (hok.rows rfl).1
      have hvalid' : page'.validTokens = page.validTokens := by
        have hnew := hadmission.admitted.sequences id
        rw [if_pos rfl] at hnew
        have hheld : (admittedRecord (R := R) (cache.branchShared record ++ [only])
            record.position reservedPages request).heldPages[
              record.position / cache.config.pageTokens]? = some only := by
          change ((cache.branchShared record ++ [only]) ++ [])[
            record.position / cache.config.pageTokens]? = some only
          rw [List.append_nil, ← length_branchShared hinv hlive]
          exact List.getElem?_concat_length
        obtain ⟨found, hfound, hok⟩ := (hinv'.owned.sequence id _ hnew).held _ _ hheld
        have hrows' := (hok.rows rfl).1
        rw [hpage'] at hfound
        rw [hconfig] at hrows'
        rw [Option.some.inj hfound, hvalid]
        exact hrows'
      have hrows : page.validTokens = record.position % cache.config.pageTokens := by
        have hdiv := Nat.div_add_mod' record.position cache.config.pageTokens
        have hmod := Nat.mod_lt record.position hinv.config.pageTokens_pos
        rw [hvalid, validRows]
        omega
      rw [Option.toList_some, cellsOf_singleton hpage' hcopy, cellsOf_singleton hpage hstorage,
        hvalid', List.map_map, List.map_map]
      refine List.map_congr_left fun row hrow => ?_
      rw [List.mem_range, hrows] at hrow
      exact hrespects.copied context storage _ copy hcalled hkept row hrow

/-- A branch reads like its source. -/
theorem Forked.rows
    (hforked : Forked cache start source request context record copied history reservedPages
      extra limit plan)
    (hadmission : Admission cache cache' limit none copied.toList context
      (cache.branchShared record) fresh id (admittedRecord (cache.branchShared record ++ fresh)
        record.position reservedPages request) plan start evicted retired physical deferred)
    (hinv : Inv [] stray cache) (hinv' : Inv [] stray' cache') (haccounted : Accounted cache lost)
    (hfresh : HandsOutFresh cache'.backend) (hrespects : Respects cache cache' memory memory')
    (hsame : SameRows cache cache' memory memory') :
    (cellsOf cache'.pages (cache.branchShared record ++ fresh)).map (Cell.read memory') =
      (cellsOf cache.pages record.pages).map (Cell.read memory) := by
  have hlive := hforked.quoted.live
  obtain ⟨hsteady, -, -⟩ := hadmission.books_eq hinv hinv'
  have hnew := hadmission.admitted.sequences id
  rw [if_pos rfl] at hnew
  have hshared : cellsOf cache'.pages (cache.branchShared record) =
      cellsOf cache.pages (cache.branchShared record) := by
    refine cellsOf_congr fun page hmem => hsteady.alike_of_live
      (hinv.held_live hlive (mem_pages_heldPages (List.take_subset _ _ hmem)))
      (hinv'.held_live hnew (mem_pages_heldPages (List.mem_append_left _ hmem)))
  have hread : (cellsOf cache'.pages (cache.branchShared record)).map (Cell.read memory') =
      (cellsOf cache.pages (cache.branchShared record)).map (Cell.read memory) := by
    rw [← hshared]
    refine List.map_congr_left fun cell hmem => ?_
    obtain ⟨-, page', hpage', -, hrow⟩ := mem_cellsOf.mp hmem
    obtain ⟨-, page, hpage, hstorage, -⟩ := mem_cellsOf.mp (hshared ▸ hmem)
    exact hsame cell.page page page' cell.storage cell.row hpage hpage' hstorage hrow
  rw [cellsOf_append, List.map_append, hread,
    hforked.tail_rows hadmission hinv hinv' haccounted hfresh hrespects, ← List.map_append,
    ← cellsOf_append, ← branchShared_append hinv hlive]

end Fork

/-! ## All calls -/

/-- Between the two states a call did what its result says. -/
def Accomplishes (operation : Operation R) (cache : SequenceCache R)
    (memory : R.Page → ℕ → Row) (result : Except (Failure R.Error) (Reply R))
    (cache' : SequenceCache R) (memory' : R.Page → ℕ → Row) : Prop :=
  ∃ middle, HasEffect operation result (cache.contents memory) middle ∧
    Books.Redrafted middle (cache'.contents memory')

section Calls

variable {operation : Operation R} {result : Except (Failure R.Error) (Reply R)}

omit [DecidableEq R.Page] in
theorem Still.accomplishes (h : Still cache cache') (hsame : SameRows cache cache' memory memory')
    (heffect : ∀ books : Books SequenceId PrefixEntryId Row,
      HasEffect operation result books books) :
    Accomplishes operation cache memory result cache' memory' :=
  ⟨_, heffect _, h.redrafted hsame⟩

omit [DecidableEq R.Page] in
theorem Inherits.accomplishes (h : Inherits cache cache')
    (hsame : SameRows cache cache' memory memory')
    (heffect : HasEffect operation result (cache.contents memory)
      (cache'.books.map (Cell.read memory))) :
    Accomplishes operation cache memory result cache' memory' :=
  ⟨_, heffect, h.redrafted hsame⟩

omit [DecidableEq R.Page] in
theorem admitSequence_accomplishes (hlaw : R.Retires) (hinv : Inv [] stray cache)
    (prefixMatch : Option PrefixMatch) (request : AdmissionRequest) (context : R.Context)
    (restore : Option R.Snapshot → ℕ → Except R.Error Unit) :
    Ends (admitSequence prefixMatch request context restore cache)
      (fun outcome cache' => SameRows cache cache' memory memory' →
        Accomplishes (.admitSequence prefixMatch request context restore) cache memory
          (.ok (.admission outcome)) cache' memory')
      (fun failure cache' => SameRows cache cache' memory memory' →
        Accomplishes (.admitSequence prefixMatch request context restore) cache memory
          (.error failure) cache' memory') := by
  refine Ends.mono (admitSequence_spec hlaw hinv prefixMatch request context restore) ?_ ?_
  · rintro outcome cache' ⟨hinv', reclaimed, middle, hreclaimed, hmiddle, hadmits⟩ hsame
    have hstill := hreclaimed.still
    rcases hadmits with ⟨rfl, rfl, -⟩ | ⟨protectedEntry, position, shared, reservedPages, extra,
      limit, plan, table, id, evicted, retired, physical, deferred, rfl, hopened, hadmission⟩
    · exact hstill.accomplishes hsame fun _ => rfl
    obtain ⟨hsteady, habsent, hbooks⟩ := hadmission.books_eq hmiddle hinv'
    have hnew := hadmission.admitted.sequences id
    rw [if_pos rfl] at hnew
    rw [hstill.books] at habsent hbooks
    have hrestores := Restores.ofStart hopened.quoted.start
    have hcells : cellsOf cache'.pages shared = cellsOf middle.pages shared := by
      refine cellsOf_congr fun page hmem => hsteady.alike_of_live ?_
        (hinv'.held_live hnew (mem_pages_heldPages hmem))
      obtain ⟨found, hfound, -⟩ := hrestores.complete hmiddle page hmem
      exact ⟨found, hfound⟩
    have hread : (cellsOf cache'.pages shared).map (Cell.read memory') =
        (cellsOf middle.pages shared).map (Cell.read memory) := by
      rw [← hcells]
      refine List.map_congr_left fun cell hmem => ?_
      obtain ⟨-, page', hpage', -, hrow⟩ := mem_cellsOf.mp hmem
      obtain ⟨-, page, hpage, hstorage, -⟩ := mem_cellsOf.mp (hcells ▸ hmem)
      exact hsame cell.page page page' cell.storage cell.row (hstill.pages ▸ hpage) hpage'
        hstorage hrow
    refine ⟨_, ⟨_, plan, ?_, congrArg (Option.map _) habsent, rfl⟩,
      enrolled_redrafted hbooks habsent hsame hread⟩
    cases prefixMatch with
    | none =>
        obtain ⟨-, rfl⟩ := hrestores.fresh hrestores.entry
        rfl
    | some found =>
        obtain ⟨entry, hentry, -, rfl⟩ := hrestores.restored found.entry hrestores.entry
        have hfrozen : middle.books.frozen found.entry = some (cellsOf middle.pages entry.pages) :=
          congrArg (Option.map _) hentry
        rw [hstill.books] at hfrozen
        exact congrArg (Option.map (List.map (Cell.read memory))) hfrozen
  · rintro failure cache' ⟨-, hcalled | ⟨reclaimed, middle, hreclaimed, -, hcalled | hstranded⟩⟩
      hsame
    · exact hcalled.still.accomplishes hsame fun _ => rfl
    · exact (hreclaimed.still.trans hcalled.still).accomplishes hsame fun _ => rfl
    · obtain ⟨_, _, _, _, _, _, _, _, -, -, hcalled⟩ := hstranded
      refine Still.accomplishes (hreclaimed.still.trans ?_) hsame fun _ => rfl
      exact ⟨hcalled.still.pages, hcalled.still.books⟩

theorem branch_accomplishes (hlaw : R.Retires) (hinv : Inv [] stray cache)
    (haccounted : Accounted cache lost) (source : SequenceId) (request : AdmissionRequest)
    (context : R.Context) :
    Ends (branch source request context cache)
      (fun outcome cache' => SameRows cache cache' memory memory' →
        Respects cache cache' memory memory' → HandsOutFresh cache'.backend →
        Accomplishes (.branch source request context) cache memory (.ok (.admission outcome))
          cache' memory')
      (fun failure cache' => SameRows cache cache' memory memory' →
        Accomplishes (.branch source request context) cache memory (.error failure)
          cache' memory') := by
  refine Ends.mono (branch_spec hlaw hinv source request context) ?_ ?_
  · rintro outcome cache' ⟨hinv', ⟨rfl, rfl, -⟩ | ⟨record, copied, history, reservedPages, extra,
      limit, fresh, id, plan, start, evicted, retired, physical, deferred, rfl, hforked,
      hadmission⟩⟩ hsame hrespects hfresh
    · exact (Still.refl _).accomplishes hsame fun _ => rfl
    obtain ⟨-, habsent, hbooks⟩ := hadmission.books_eq hinv hinv'
    have hrows := hforked.rows hadmission hinv hinv' haccounted hfresh hrespects hsame
    refine ⟨_, ⟨_, plan, ?_, congrArg (Option.map _) habsent, rfl⟩,
      enrolled_redrafted hbooks habsent hsame hrows⟩
    have haccount : cache.books.accounts source = some
        ⟨cellsOf cache.pages record.pages, none⟩ := by
      change (cache.sequences.get? source).map _ = _
      rw [hforked.quoted.live, Option.map_some, SequenceRecord.account, hforked.quoted.idle]
      rfl
    exact congrArg (Option.map (Account.map (Cell.read memory))) haccount
  · rintro failure cache' ⟨-, ⟨hcalled, -⟩ | habandoned⟩ hsame
    · exact hcalled.still.accomplishes hsame fun _ => rfl
    · obtain ⟨_, _, _, _, _, _, _, _, hforked, -, hcalled⟩ := habandoned
      exact (hforked.copies.still.trans hcalled.still).accomplishes hsame fun _ => rfl

omit [DecidableEq R.Page] in
theorem reserveAppend_accomplishes (hinv : Inv [] stray cache) (sequence : SequenceId) (rows : ℕ)
    (context : R.Context) :
    Ends (reserveAppend sequence rows context cache)
      (fun reservation cache' => SameRows cache cache' memory memory' →
        Accomplishes (.reserveAppend sequence rows context) cache memory
          (.ok (.reservation reservation)) cache' memory')
      (fun failure cache' => SameRows cache cache' memory memory' →
        Accomplishes (.reserveAppend sequence rows context) cache memory (.error failure)
          cache' memory') := by
  refine Ends.mono (reserveAppend_spec hinv sequence rows context) ?_ ?_
  · rintro reservation cache' ⟨hinv', record, transaction, fresh, allocations, prepared, hreserved,
      -⟩ hsame
    obtain ⟨hreserves, hinherits⟩ := hreserved.reserves hinv hinv'
    exact hinherits.accomplishes hsame (hreserves.map _)
  · rintro failure cache' ⟨-, -, hattempted⟩ hsame
    exact (Still.ofQuiet hattempted.quiet).accomplishes hsame fun _ => rfl

omit [DecidableEq R.Page] in
theorem finalize_accomplishes {program : CacheM R Unit} {reservation : AppendReservation}
    {valid : Prop} {rows : ℕ} {context : R.Context} (hinv : Inv [] stray cache)
    (hspec : Ends (program cache)
      (fun _ cache' => Inv [] stray cache' ∧ Finalized cache reservation rows context cache')
      (FinalizeFails [] stray cache reservation valid rows context))
    (hdone : ∀ books books' : Books SequenceId PrefixEntryId Row,
      books.Commits reservation.sequence rows books' → HasEffect operation (.ok .done) books books')
    (hfailed : ∀ (failure : Failure R.Error) (books : Books SequenceId PrefixEntryId Row),
      HasEffect operation (.error failure) books books) :
    Ends (program cache)
      (fun _ cache' => SameRows cache cache' memory memory' →
        Accomplishes operation cache memory (.ok .done) cache' memory')
      (fun failure cache' => (∀ kind, failure ≠ .error (.idExhausted kind)) →
        SameRows cache cache' memory memory' →
        Accomplishes operation cache memory (.error failure) cache' memory') := by
  refine Ends.mono hspec ?_ ?_
  · rintro - cache' ⟨hinv', hfinalized⟩ hsame
    obtain ⟨hcommits, hdescends⟩ := hfinalized.commits hinv hinv'
    exact hdescends.inherits.accomplishes hsame (hdone _ _ (hcommits.map _))
  · intro failure cache' hfails hintact hsame
    exact (hfails.still hintact).accomplishes hsame (hfailed failure)

omit [DecidableEq R.Page] in
theorem reserveAppendBatch_accomplishes (hinv : Inv [] stray cache)
    (requests : List AppendBatchRequest) (contexts : List R.Context) :
    Ends (reserveAppendBatch requests contexts cache)
      (fun result cache' => SameRows cache cache' memory memory' →
        Accomplishes (.reserveAppendBatch requests contexts) cache memory
          (.ok (.reservations result)) cache' memory')
      (fun failure cache' => SameRows cache cache' memory memory' →
        Accomplishes (.reserveAppendBatch requests contexts) cache memory (.error failure)
          cache' memory') := by
  unfold reserveAppendBatch
  by_cases hlength : requests.length ≠ contexts.length
  · rw [if_pos hlength]
    exact fun hsame => (Still.refl cache).accomplishes hsame fun _ => .nil
  rw [if_neg hlength]
  have hzip : (requests.zip contexts).map Prod.fst = requests :=
    List.map_fst_zip (not_ne_iff.mp hlength).le
  -- What the reservations before the first failure do.
  have hmade : ∀ {before : List (AppendBatchRequest × R.Context)} {values : List AppendReservation}
      {middle : SequenceCache R}, before <+: requests.zip contexts →
      EachOk reserveItem cache before values middle →
      (Books.Each (fun request => Books.Reserves request.sequence request.rows)
        (requests.take values.length) cache.books middle.books) ∧ Inherits cache middle ∧
        Inv [] stray middle := by
    intro before values middle hbefore heach
    obtain ⟨hchain, hinherits, -, hmiddle⟩ := EachOk.reserves heach hinv
    have htake : requests.take values.length = before.map Prod.fst := by
      rw [heach.length_eq, ← hzip, ← List.map_take, ← List.prefix_iff_eq_take.mp hbefore]
    rw [htake]
    exact ⟨Books.Each.of_map hchain, hinherits, hmiddle⟩
  have hview : ∀ {items : List AppendBatchRequest} {middle : SequenceCache R},
      Books.Each (fun request => Books.Reserves request.sequence request.rows) items cache.books
        middle.books →
      Books.Each (fun request => Books.Reserves request.sequence request.rows) items
        (cache.contents memory) (middle.books.map (Cell.read memory)) :=
    fun hchain => hchain.map _ fun _ _ _ hreserves => hreserves.map _
  rcases reserveEach_cases (requests.zip contexts) 0 [] cache with ⟨new, cache', heach, hrun⟩ |
    ⟨before, item, after, new, middle, failure, cache', hitems, hstopped, hresult⟩
  · rw [hrun]
    obtain ⟨hchain, hinherits, -⟩ := hmade (List.prefix_refl _) heach
    exact fun hsame => hinherits.accomplishes hsame (hview hchain)
  obtain ⟨hchain, hinherits, hmiddle⟩ := hmade ⟨item :: after, hitems.symm⟩ hstopped.succeeded
  have hfailed := reserveAppend_spec hmiddle item.1.sequence item.1.rows item.2
  rw [show reserveAppend item.1.sequence item.1.rows item.2 middle = .error failure cache' from
    hstopped.failed] at hfailed
  have hstill := Still.ofQuiet hfailed.2.2.quiet
  have hlater : Inherits cache cache' := fun id page hpage => hinherits id page
    (hstill.pages ▸ hpage)
  rcases hresult with ⟨error, -, hrun⟩ | ⟨message, rfl, hrun⟩
  · rw [hrun]
    refine fun hsame => hlater.accomplishes hsame ?_
    rw [hstill.books]
    exact hview hchain
  · exact absurd hfailed.1 (by rintro ⟨error, heq⟩; cases heq)

omit [DecidableEq R.Page] in
theorem retainPrefix_accomplishes (hlaw : R.Retires) (hinv : Inv [] stray cache)
    (sequence : SequenceId) (tokens : List Token) (snapshot : R.Snapshot) (context : R.Context) :
    Ends (retainPrefix sequence tokens snapshot context cache)
      (fun outcome cache' => SameRows cache cache' memory memory' →
        Accomplishes (.retainPrefix sequence tokens snapshot context) cache memory
          (.ok (.retained outcome)) cache' memory')
      (fun failure cache' => SameRows cache cache' memory memory' →
        Accomplishes (.retainPrefix sequence tokens snapshot context) cache memory
          (.error failure) cache' memory') := by
  refine Ends.mono (retainPrefix_spec hlaw hinv sequence tokens snapshot context) ?_ ?_
  · rintro outcome cache' ⟨hinv', hretains⟩ hsame
    cases hretains with
    | duplicate _ _ htouched => exact htouched.still.accomplishes hsame fun _ => rfl
    | @inserted record blocks interned evicted _ plan retired physical deferred hretainable _
        hinterns _ _ hevicted hretained =>
      obtain ⟨hsteady, hbooks⟩ := hretained.books_eq hinterns hevicted hinv hinv'
      have hdescends : Descends cache cache' := by
        intro id page' hpage'
        rw [hretained.pages.get?] at hpage'
        obtain ⟨middle, hmiddle, rfl⟩ := Option.map_eq_some_iff.mp hpage'
        rw [hevicted.pages] at hmiddle
        split_ifs at hmiddle
        obtain ⟨page, hpage, rfl⟩ := Option.map_eq_some_iff.mp hmiddle
        exact ⟨page, hinterns.still.pages ▸ hpage, rfl⟩
      refine hdescends.inherits.accomplishes hsame ?_
      have haccount : cache.books.accounts sequence = some (record.account cache.pages) :=
        congrArg (Option.map _) hretainable.live
      have habsent : cache.books.frozen cache.nextPrefixId = none := by
        change (cache.prefixes[cache.nextPrefixId]?).map _ = none
        rw [ExtTreeMap.getElem?_eq_none fun hmem => Nat.lt_irrefl _ (hinv.ids_below _ hmem)]
        rfl
      refine ⟨_, _, plan, congrArg (Option.map (Account.map (Cell.read memory))) haccount,
        congrArg (Option.map (List.map (Cell.read memory))) habsent, ?_⟩
      rw [hbooks, Books.map_freeze, Books.map_discard]
      rfl
  · intro failure cache' hfails hsame
    exact hfails.still.accomplishes hsame fun _ => rfl

section Batches

variable {ι : Type} {call : ι → CacheM R Unit} {batch : List AppendReservation} {items : List ι}
variable {outcome : EStateM.Result (Failure R.Error) (SequenceCache R) (BatchResult R Unit)}

omit [DecidableEq R.Page] in
/-- A loop over finalizations does what the items before the first failure say. -/
theorem Finalizes.accomplishes (h : Finalizes call batch items cache outcome)
    (hinv : Inv [] stray cache) (reservation : ι → AppendReservation) (rows : ι → ℕ)
    (hcall : ∀ item state, Inv [] stray state → Ends (call item state)
      (fun _ state' => Inv [] stray state' ∧
        ∃ context, Finalized state (reservation item) (rows item) context state')
      fun failure state' => (∃ error, failure = .error error) ∧
        ((∀ kind, failure ≠ .error (.idExhausted kind)) → Still state state'))
    (heffect : ∀ (value : BatchResult R Unit) (count : ℕ)
      (books books' : Books SequenceId PrefixEntryId Row),
      (value = .ok () → count = items.length) →
      (∀ failure, value = .error failure → failure.failedIndex = some count) →
      Books.Each (fun item => Books.Commits (reservation item).sequence (rows item))
        (items.take count) books books' → HasEffect operation (.ok (.finalized value))
          books books') :
    Ends outcome
      (fun value cache' => ¬ Exhausted
        (.ok (.finalized value) : Except (Failure R.Error) (Reply R)) →
        SameRows cache cache' memory memory' →
        Accomplishes operation cache memory (.ok (.finalized value)) cache' memory')
      (fun _ _ => False) := by
  have hok : ∀ item state, Inv [] stray state → Ends (call item state)
      (fun _ state' => Inv [] stray state' ∧
        ∃ context, Finalized state (reservation item) (rows item) context state')
      fun _ _ => True := fun item state hstate =>
    Ends.mono (hcall item state hstate) (fun _ _ h => h) fun _ _ _ => trivial
  have hview : ∀ {items : List ι} {middle : SequenceCache R},
      Books.Each (fun item => Books.Commits (reservation item).sequence (rows item)) items
        cache.books middle.books →
      Books.Each (fun item => Books.Commits (reservation item).sequence (rows item)) items
        (cache.contents memory) (middle.books.map (Cell.read memory)) :=
    fun hchain => hchain.map _ fun _ _ _ hcommits => hcommits.map _
  rcases h with ⟨new, cache', heach, rfl⟩ |
    ⟨before, item, after, new, middle, failure, cache', rfl, hstopped, hresult⟩
  · obtain ⟨hchain, hdescends, -⟩ := EachOk.commits reservation rows hok heach hinv
    refine fun _ hsame => hdescends.inherits.accomplishes hsame (heffect _ items.length _ _
      (fun _ => rfl) (fun failure heq => by cases heq) ?_)
    rw [List.take_length]
    exact hview hchain
  obtain ⟨hchain, hdescends, hmiddle⟩ := EachOk.commits reservation rows hok hstopped.succeeded hinv
  have hfailed := hcall item middle hmiddle
  rw [hstopped.failed] at hfailed
  obtain ⟨⟨error, rfl⟩, hstill⟩ := hfailed
  rcases hresult with ⟨error', heq, rfl⟩ | ⟨message, heq, -⟩
  · cases heq
    intro hintact hsame
    have hlast : Still middle cache' := hstill fun kind hkind => hintact ⟨kind, by cases hkind; rfl⟩
    have hlater : Inherits cache cache' := fun id page hpage =>
      hdescends.inherits id page (hlast.pages ▸ hpage)
    refine hlater.accomplishes hsame (heffect _ before.length _ _
      (fun heq => by cases heq) (fun failure heq => ?_) ?_)
    · rw [← Except.error.inj heq]
    · rw [List.take_left', hlast.books]
      · exact hview hchain
      · rfl
  · cases heq

end Batches

omit [DecidableEq R.Page] in
theorem FinalizeFails.failed {reservation : AppendReservation} {valid : Prop} {rows : ℕ}
    {context : R.Context} {failure : Failure R.Error}
    (h : FinalizeFails [] stray cache reservation valid rows context failure cache') :
    (∃ error, failure = .error error) ∧
      ((∀ kind, failure ≠ .error (.idExhausted kind)) → Still cache cache') := by
  refine ⟨?_, h.still⟩
  rcases h with ⟨⟨error, -, rfl⟩ | ⟨-, rfl⟩, -⟩ | ⟨error, rfl, -⟩ | ⟨rfl, -⟩
  · exact ⟨_, rfl⟩
  · exact ⟨_, rfl⟩
  · exact ⟨_, rfl⟩
  · exact ⟨_, rfl⟩

omit [DecidableEq R.Page] in
theorem commitAppendBatch_accomplishes (hinv : Inv [] stray cache)
    (reservations : List AppendReservation) (rows : List ℕ) (contexts : List R.Context) :
    Ends (commitAppendBatch reservations rows contexts cache)
      (fun value cache' => ¬ Exhausted
        (.ok (.finalized value) : Except (Failure R.Error) (Reply R)) →
        SameRows cache cache' memory memory' →
        Accomplishes (.commitAppendBatch reservations rows contexts) cache memory
          (.ok (.finalized value)) cache' memory')
      (fun _ _ => False) := by
  rcases commitAppendBatch_cases reservations rows contexts cache with
    ⟨error, index, -, hrun⟩ | ⟨hrows, hcontexts, -, hfinalizes⟩
  · rw [hrun]
    exact fun _ hsame => (Still.refl cache).accomplishes hsame fun books =>
      ⟨0, fun heq => (by cases heq), fun _ _ => Or.inl rfl, .nil⟩
  have hlength : ((reservations.zip rows).zip contexts).length = reservations.length := by
    rw [List.length_zip, List.length_zip]
    omega
  have hzip : ((reservations.zip rows).zip contexts).map Prod.fst = reservations.zip rows := by
    refine List.map_fst_zip ?_
    rw [List.length_zip]
    omega
  refine hfinalizes.accomplishes hinv (fun item => item.1.1) (fun item => item.1.2)
    (fun item state hstate => Ends.mono (commitAppend_spec hstate item.1.1 item.1.2 item.2)
      (fun _ _ h => ⟨h.1, _, h.2⟩) fun _ _ h => h.failed) ?_
  intro value count books books' hdone hfailed hchain
  refine ⟨count, fun heq => (hdone heq).trans hlength,
    fun failure heq => Or.inr (hfailed failure heq), ?_⟩
  rw [← hzip, ← List.map_take]
  exact Books.Each.of_map hchain

omit [DecidableEq R.Page] in
theorem abortAppendBatch_accomplishes (hinv : Inv [] stray cache)
    (reservations : List AppendReservation) (contexts : List R.Context) :
    Ends (abortAppendBatch reservations contexts cache)
      (fun value cache' => ¬ Exhausted
        (.ok (.finalized value) : Except (Failure R.Error) (Reply R)) →
        SameRows cache cache' memory memory' →
        Accomplishes (.abortAppendBatch reservations contexts) cache memory
          (.ok (.finalized value)) cache' memory')
      (fun _ _ => False) := by
  rcases abortAppendBatch_cases reservations contexts cache with
    ⟨error, index, -, hrun⟩ | ⟨hcontexts, -, hfinalizes⟩
  · rw [hrun]
    exact fun _ hsame => (Still.refl cache).accomplishes hsame fun books =>
      ⟨0, fun heq => (by cases heq), fun _ _ => Or.inl rfl, .nil⟩
  have hlength : (reservations.zip contexts).length = reservations.length := by
    rw [List.length_zip]
    omega
  have hzip : (reservations.zip contexts).map Prod.fst = reservations :=
    List.map_fst_zip hcontexts.le
  refine hfinalizes.accomplishes hinv (fun item => item.1) (fun _ => 0)
    (fun item state hstate => Ends.mono (abortAppend_spec hstate item.1 item.2)
      (fun _ _ h => ⟨h.1, _, h.2⟩) fun _ _ h => h.failed) ?_
  intro value count books books' hdone hfailed hchain
  refine ⟨count, fun heq => (hdone heq).trans hlength,
    fun failure heq => Or.inr (hfailed failure heq), ?_⟩
  rw [← hzip, ← List.map_take]
  exact Books.Each.of_map hchain

end Calls

end SequenceCache

section Operations

variable [DecidableEq R.Page] {cache : SequenceCache R} {stray : List TokenBlockId}
variable {lost : List R.Page} {memory memory' : R.Page → ℕ → Row} {operation : Operation R}

/-- What is known of a program is known of the call that runs it. -/
theorem SequenceCache.Accomplishes.ofEnds {α : Type} {program : CacheM R α} {reply : α → Reply R}
    (hrun : operation.run = reply <$> program)
    (h : Ends (program cache)
      (fun value cache' => ¬ Exhausted (.ok (reply value) : Except (Failure R.Error) (Reply R)) →
        SameRows cache cache' memory memory' → Respects cache cache' memory memory' →
        HandsOutFresh cache'.backend →
        Accomplishes operation cache memory (.ok (reply value)) cache' memory')
      (fun failure cache' => ¬ Exhausted (.error failure : Except (Failure R.Error) (Reply R)) →
        SameRows cache cache' memory memory' →
        Accomplishes operation cache memory (.error failure) cache' memory'))
    (hintact : ¬ Exhausted (operation.result cache))
    (hsame : SameRows cache (operation.step cache) memory memory')
    (hrespects : Respects cache (operation.step cache) memory memory')
    (hfresh : HandsOutFresh (operation.step cache).backend) :
    Accomplishes operation cache memory (operation.result cache) (operation.step cache)
      memory' := by
  rw [Operation.step, hrun] at hsame hrespects hfresh ⊢
  rw [Operation.result, hrun] at hintact ⊢
  cases hprogram : program cache with
  | ok value cache' =>
      rw [hprogram] at h
      rw [map_ok reply hprogram] at hintact hsame hrespects hfresh ⊢
      exact h hintact hsame hrespects hfresh
  | error failure cache' =>
      rw [hprogram] at h
      rw [map_error reply hprogram] at hintact hsame ⊢
      exact h hintact hsame

/-- Every call does to the rows what its result says. -/
theorem Operation.accomplishes (hlaw : R.Retires) (hinv : Inv [] stray cache)
    (haccounted : Accounted cache lost) (hintact : ¬ Exhausted (operation.result cache))
    (hfresh : HandsOutFresh (operation.step cache).backend)
    (hrespects : Respects cache (operation.step cache) memory memory') :
    Accomplishes operation cache memory (operation.result cache) (operation.step cache)
      memory' := by
  obtain ⟨hpreserves, hvalidates⟩ := Operation.preserves hlaw hinv haccounted hintact hfresh
  have hsame := hrespects.sameRows hinv haccounted hfresh hpreserves hvalidates
  cases operation with
  | admitSequence prefixMatch request context restore =>
      exact .ofEnds rfl (Ends.mono
        (admitSequence_accomplishes hlaw hinv prefixMatch request context restore)
        (fun _ _ h _ hsame _ _ => h hsame) fun _ _ h _ => h) hintact hsame hrespects hfresh
  | branch source request context =>
      exact .ofEnds rfl (Ends.mono
        (branch_accomplishes hlaw hinv haccounted source request context)
        (fun _ _ h _ => h) fun _ _ h _ => h) hintact hsame hrespects hfresh
  | reserveAppend sequence rows context =>
      exact .ofEnds rfl (Ends.mono (reserveAppend_accomplishes hinv sequence rows context)
        (fun _ _ h _ hsame _ _ => h hsame) fun _ _ h _ => h) hintact hsame hrespects hfresh
  | commitAppend reservation rows context =>
      have hdone : ∀ books books' : Books SequenceId PrefixEntryId Row,
          books.Commits reservation.sequence rows books' →
          HasEffect (.commitAppend reservation rows context : Operation R) (.ok .done) books
            books' := fun _ _ h => h
      have hfailed : ∀ (failure : Failure R.Error) (books : Books SequenceId PrefixEntryId Row),
          HasEffect (.commitAppend reservation rows context) (.error failure) books books :=
        fun _ _ => rfl
      exact .ofEnds rfl (Ends.mono (finalize_accomplishes hinv
        (commitAppend_spec hinv reservation rows context) hdone hfailed)
        (fun _ _ h _ hsame _ _ => h hsame)
        fun _ _ h hkept => h fun kind heq => hkept (heq ▸ trivial)) hintact hsame hrespects hfresh
  | abortAppend reservation context =>
      have hdone : ∀ books books' : Books SequenceId PrefixEntryId Row,
          books.Commits reservation.sequence 0 books' →
          HasEffect (.abortAppend reservation context : Operation R) (.ok .done) books
            books' := fun _ _ h => h
      have hfailed : ∀ (failure : Failure R.Error) (books : Books SequenceId PrefixEntryId Row),
          HasEffect (.abortAppend reservation context) (.error failure) books books :=
        fun _ _ => rfl
      exact .ofEnds rfl (Ends.mono (finalize_accomplishes hinv
        (abortAppend_spec hinv reservation context) hdone hfailed)
        (fun _ _ h _ hsame _ _ => h hsame)
        fun _ _ h hkept => h fun kind heq => hkept (heq ▸ trivial)) hintact hsame hrespects hfresh
  | reserveAppendBatch requests contexts =>
      exact .ofEnds rfl (Ends.mono (reserveAppendBatch_accomplishes hinv requests contexts)
        (fun _ _ h _ hsame _ _ => h hsame) fun _ _ h _ => h) hintact hsame hrespects hfresh
  | commitAppendBatch reservations rows contexts =>
      exact .ofEnds rfl (Ends.mono (commitAppendBatch_accomplishes hinv reservations rows contexts)
        (fun _ _ h hkept hsame _ _ => h hkept hsame) fun _ _ h => h.elim)
        hintact hsame hrespects hfresh
  | abortAppendBatch reservations contexts =>
      exact .ofEnds rfl (Ends.mono (abortAppendBatch_accomplishes hinv reservations contexts)
        (fun _ _ h hkept hsame _ _ => h hkept hsame) fun _ _ h => h.elim)
        hintact hsame hrespects hfresh
  | withAppendPages reservation borrow =>
      refine .ofEnds rfl (Ends.mono (withAppendPages_spec hinv reservation borrow) ?_ ?_)
        hintact hsame hrespects hfresh
      · exact fun _ _ h _ hsame _ _ => h.still.accomplishes hsame fun _ => rfl
      · rintro failure cache' (⟨_, -, -, rfl⟩ | ⟨-, hcalled, -⟩) - hsame
        · exact (Still.refl _).accomplishes hsame fun _ => rfl
        · exact hcalled.still.accomplishes hsame fun _ => rfl
  | withAppendReservations reservations borrow =>
      refine .ofEnds rfl (Ends.mono (withAppendReservations_spec hinv reservations borrow) ?_ ?_)
        hintact hsame hrespects hfresh
      · exact fun _ _ h _ hsame _ _ => h.still.accomplishes hsame fun _ => rfl
      · rintro failure cache' (⟨_, -, _, -, -, rfl⟩ | ⟨-, hcalled, -⟩) - hsame
        · exact (Still.refl _).accomplishes hsame fun _ => rfl
        · exact hcalled.still.accomplishes hsame fun _ => rfl
  | retainPrefix sequence tokens snapshot context =>
      exact .ofEnds rfl (Ends.mono
        (retainPrefix_accomplishes hlaw hinv sequence tokens snapshot context)
        (fun _ _ h _ hsame _ _ => h hsame) fun _ _ h _ => h) hintact hsame hrespects hfresh
  | evictPrefix id context =>
      refine .ofEnds rfl (Ends.mono (evictPrefix_spec hlaw hinv id context) ?_ ?_)
        hintact hsame hrespects hfresh
      · rintro - cache' ⟨hinv', hmem, retired, physical, deferred, hevicted⟩ - hsame - -
        have hdescends : Descends cache cache' := .ofRemoved hevicted.pages fun _ _ => rfl
        refine hdescends.inherits.accomplishes hsame ⟨?_, ?_⟩
        · have hentry : cache.prefixes[id]? = some cache.prefixes[id] :=
            ExtTreeMap.getElem?_eq_some_getElem hmem
          have hfrozen : (cache.contents memory).frozen id =
              some ((cellsOf cache.pages cache.prefixes[id].pages).map (Cell.read memory)) :=
            congrArg (Option.map (List.map (Cell.read memory)))
              (congrArg (Option.map fun entry : PrefixEntry R.Snapshot =>
                cellsOf cache.pages entry.pages) hentry)
          rw [hfrozen]
          exact Option.some_ne_none _
        · rw [hevicted.books_eq hinv hinv', Books.map_discard]
          rfl
      · rintro failure cache' (⟨-, -, rfl⟩ | ⟨-, -, hcalled⟩) - hsame
        · exact (Still.refl _).accomplishes hsame fun _ => rfl
        · exact hcalled.still.accomplishes hsame fun _ => rfl
  | lookupPrefix tokens =>
      refine .ofEnds rfl (Ends.mono (lookupPrefix_spec hinv tokens) ?_ ?_)
        hintact hsame hrespects hfresh
      · exact fun _ _ h _ hsame _ _ => h.1.still.accomplishes hsame fun _ => rfl
      · exact fun _ _ h _ hsame => h.2.2.still.accomplishes hsame fun _ => rfl
  | finish sequence context =>
      refine .ofEnds rfl (Ends.mono (finish_spec hlaw hinv sequence context) ?_ ?_)
        hintact hsame hrespects hfresh
      · rintro - cache' ⟨hinv', record, physical, deferred, hfinished⟩ - hsame - -
        have hdescends : Descends cache cache' := .ofRemoved hfinished.pages fun _ _ => rfl
        refine hdescends.inherits.accomplishes hsame ⟨?_, ?_⟩
        · have haccount : cache.books.accounts sequence =
              some ⟨cellsOf cache.pages record.pages, none⟩ := by
            change (cache.sequences.get? sequence).map _ = _
            rw [hfinished.live, Option.map_some, SequenceRecord.account, hfinished.idle]
            rfl
          exact ⟨_, congrArg (Option.map (Account.map (Cell.read memory))) haccount⟩
        · rw [hfinished.books_eq hinv hinv', Books.map_dismiss]
          rfl
      · rintro failure cache'
          (⟨-, -, rfl⟩ | ⟨record, -, ⟨-, -, rfl⟩ | ⟨-, -, rfl⟩ | ⟨-, hcalled⟩⟩) - hsame
        · exact (Still.refl _).accomplishes hsame fun _ => rfl
        · exact (Still.refl _).accomplishes hsame fun _ => rfl
        · exact (Still.refl _).accomplishes hsame fun _ => rfl
        · exact hcalled.still.accomplishes hsame fun _ => rfl
  | reclaimDeferred context =>
      refine .ofEnds rfl (Ends.mono (reclaimDeferred_spec hinv context) ?_ ?_)
        hintact hsame hrespects hfresh
      · exact fun _ _ h _ hsame _ _ => h.2.still.accomplishes hsame fun _ => rfl
      · exact fun _ _ h _ hsame => h.2.still.accomplishes hsame fun _ => rfl

end Operations

end SeqCache
