import SeqCache.Properties.Aborts

/-!
# Appends in spans

A client can reserve more rows than it keeps, and it can append its rows at once or a few at a
time.  What it is left with depends on the rows that were kept alone: `Grown` says what a
number of kept rows does to a sequence, and one span after the other adds up.
-/

namespace SeqCache

open Machine Program Std

variable {R : Runtime}

/-- One append of a client: `rows` rows are reserved, and the first `kept` of them committed. -/
structure Span (R : Runtime) where
  rows : ℕ
  kept : ℕ
  reserving : R.Context
  committing : R.Context

namespace Span

/-- Rows that the spans keep. -/
def total (spans : List (Span R)) : ℕ := (spans.map Span.kept).sum

/-- Every span keeps some of its rows, and none reaches beyond the maximal position. -/
def Fit (maxPosition : ℕ) : ℕ → List (Span R) → Prop
  | _, [] => True
  | position, span :: rest =>
      0 < span.kept ∧ span.kept ≤ span.rows ∧ position + span.rows ≤ maxPosition ∧
        Fit maxPosition (position + span.kept) rest

end Span

/-- Storage of the pages that the backend was told to be full, in the order of the commits. -/
def sealedReports : R.History → List R.Page
  | [] => []
  | .commitAppend _ commit (.ok ()) :: earlier => sealedReports earlier ++ commit.sealedPages
  | _ :: earlier => sealedReports earlier

namespace SequenceCache

variable {cache middle cache' : SequenceCache R} {sequence : SequenceId}

def appendSpan (sequence : SequenceId) (span : Span R) : CacheM R Unit := do
  let reservation ← reserveAppend sequence span.rows span.reserving
  commitAppend reservation span.kept span.committing

/-- One span after the other. -/
def appendSpans (sequence : SequenceId) : List (Span R) → CacheM R Unit
  | [] => pure ()
  | span :: rest => do
      appendSpan sequence span
      appendSpans sequence rest

/-! ## What kept rows do -/

/-- Pages beyond the rows do not count. -/
theorem filledPages_initial {pageTokens position rows : ℕ} {pages pages' : List PageId}
    (hpages : pages <+: pages') (hlength : (position + rows) / pageTokens ≤ pages.length) :
    filledPages pageTokens position rows pages' = filledPages pageTokens position rows pages := by
  obtain ⟨added, rfl⟩ := hpages
  rw [filledPages, filledPages, List.take_append_of_le_length hlength]

/-- Pages that became full earlier and those that became full since. -/
theorem filledPages_append {pageTokens position rows rows' : ℕ} {pages pages' : List PageId}
    (hpages : pages <+: pages') (hlength : (position + rows) / pageTokens ≤ pages.length) :
    filledPages pageTokens position rows pages ++
        filledPages pageTokens (position + rows) rows' pages' =
      filledPages pageTokens position (rows + rows') pages' := by
  have hlow : position / pageTokens ≤ (position + rows) / pageTokens :=
    Nat.div_le_div_right (Nat.le_add_right _ _)
  have hhigh : (position + rows) / pageTokens ≤ (position + (rows + rows')) / pageTokens :=
    Nat.div_le_div_right (by omega)
  have hlonger := hlength.trans hpages.length_le
  rw [← filledPages_initial hpages hlength, filledPages, filledPages, filledPages, Nat.add_assoc]
  have hsplit := List.take_append_drop ((position + rows) / pageTokens)
    (pages'.take ((position + (rows + rows')) / pageTokens))
  rw [List.take_take, min_eq_left hhigh] at hsplit
  conv_rhs => rw [← hsplit]
  rw [List.drop_append_of_le_length]
  rw [List.length_take]
  omega

/-- `rows` rows were kept between the two caches. -/
structure Grown (cache cache' : SequenceCache R) (sequence : SequenceId)
    (record record' : SequenceRecord R.AppendTransaction) (rows : ℕ) : Prop where
  live : cache.sequences.get? sequence = some record
  live' : cache'.sequences.get? sequence = some record'
  idle' : record'.pending = none
  config : cache'.config = cache.config
  pageBytes : cache'.pageBytes = cache.pageBytes
  position : record'.position = record.position + rows
  maxPosition : record'.maxPosition = record.maxPosition
  pages : record.pages <+: record'.pages
  granted : record'.pages.length + record'.reservedPages =
    record.pages.length + record.reservedPages
  stats : ∃ count, record'.pages.length = record.pages.length + count ∧
    CacheStats.Returned cache.pageBytes count cache'.stats cache.stats
  storage : ∀ id ∈ record.pages, (cache'.pages.get? id).bind PageRecord.physical =
    (cache.pages.get? id).bind PageRecord.physical
  backend : cache.backend <:+ cache'.backend
  reports : ∃ reported, sealedReports cache'.backend = sealedReports cache.backend ++ reported ∧
    Stored cache'.pages
      (filledPages cache.config.pageTokens record.position rows record'.pages) reported

namespace Grown

variable {record record' record'' : SequenceRecord R.AppendTransaction} {rows rows' : ℕ}

theorem refl (hlive : cache.sequences.get? sequence = some record) (hidle : record.pending = none) :
    Grown cache cache sequence record record 0 where
  live := hlive
  live' := hlive
  idle' := hidle
  config := rfl
  pageBytes := rfl
  position := rfl
  maxPosition := rfl
  pages := List.prefix_rfl
  granted := rfl
  stats := ⟨0, rfl, .refl _ _⟩
  storage := fun _ _ => rfl
  backend := List.suffix_refl _
  reports := by
    refine ⟨[], (List.append_nil _).symm, ?_⟩
    rw [filledPages, Nat.add_zero, List.drop_take, Nat.sub_self, List.take_zero]
    rfl

theorem trans (h : Grown cache middle sequence record record' rows)
    (h' : Grown middle cache' sequence record' record'' rows')
    (hfull : record'.position / cache.config.pageTokens ≤ record'.pages.length) :
    Grown cache cache' sequence record record'' (rows + rows') where
  live := h.live
  live' := h'.live'
  idle' := h'.idle'
  config := h'.config.trans h.config
  pageBytes := h'.pageBytes.trans h.pageBytes
  position := by
    rw [h'.position, h.position, Nat.add_assoc]
  maxPosition := h'.maxPosition.trans h.maxPosition
  pages := h.pages.trans h'.pages
  granted := h'.granted.trans h.granted
  stats := by
    obtain ⟨count, hlength, hreturned⟩ := h.stats
    obtain ⟨count', hlength', hreturned'⟩ := h'.stats
    rw [h.pageBytes] at hreturned'
    exact ⟨count' + count, by omega, hreturned'.trans hreturned⟩
  storage := fun id hmem => (h'.storage id (h.pages.subset hmem)).trans (h.storage id hmem)
  backend := h.backend.trans h'.backend
  reports := by
    obtain ⟨reported, hreports, hstored⟩ := h.reports
    obtain ⟨reported', hreports', hstored'⟩ := h'.reports
    refine ⟨reported ++ reported', ?_, ?_⟩
    · rw [hreports', hreports, List.append_assoc]
    · rw [h.config, h.position] at hstored'
      rw [h.position] at hfull
      rw [← filledPages_append h'.pages hfull]
      refine Stored.append (hstored.congr fun id hmem => h'.storage id ?_) hstored'
      exact List.mem_of_mem_take (List.mem_of_mem_drop hmem)

end Grown

/-! ## One span -/

theorem issued_take {α : Type*} (arena : Arena α) {count count' : ℕ} (h : count ≤ count') :
    (arena.issued count').take count = arena.issued count := by
  rw [Arena.issued, Arena.issued, ← List.map_take, List.take_range, min_eq_left h]

section Span

variable {record : SequenceRecord R.AppendTransaction} {pending : PendingAppend R.AppendTransaction}
  {rows kept : ℕ} {context context' : R.Context} {transaction : R.AppendTransaction}
  {fresh : List PageId} {allocations : List R.Page} {prepared : R.History} {event : R.Event}

/-- A reservation reports nothing as full. -/
theorem Reserved.reports
    (h : Reserved cache middle sequence record rows context transaction fresh allocations
      prepared) :
    sealedReports middle.backend = sealedReports cache.backend := by
  obtain ⟨descriptions, -, hprepared⟩ := h.described
  have hallocations : ∀ (events : R.History), (∀ event ∈ events, ∃ page : R.Page,
      event = .allocatePage context (.ok page)) →
      sealedReports (events ++ cache.backend) = sealedReports cache.backend := by
    intro events hevents
    induction events with
    | nil => rfl
    | cons event events ih =>
        obtain ⟨page, rfl⟩ := hevents event List.mem_cons_self
        exact ih fun event hmem => hevents event (List.mem_cons_of_mem _ hmem)
  have hsame : sealedReports prepared = sealedReports cache.backend := by
    rw [hprepared]
    refine hallocations _ fun event hmem => ?_
    obtain ⟨page, -, rfl⟩ := List.mem_map.mp (List.mem_reverse.mp hmem)
    exact ⟨page, rfl⟩
  rcases h.extended with ⟨-, heq⟩ | ⟨table, -, -, heq⟩
  · rw [heq, hsame]
  · rw [heq]
    exact hsame

theorem Reserved.suffix
    (h : Reserved cache middle sequence record rows context transaction fresh allocations
      prepared) :
    cache.backend <:+ middle.backend := by
  obtain ⟨descriptions, -, hprepared⟩ := h.described
  have hsuffix : cache.backend <:+ prepared := by
    rw [hprepared]
    exact (List.suffix_append _ _).trans (List.suffix_cons _ _)
  rcases h.extended with ⟨-, heq⟩ | ⟨table, -, -, heq⟩
  · rwa [heq]
  · rw [heq]
    exact hsuffix.trans (List.suffix_cons _ _)

/-- The first of the new pages hold the rows that are kept. -/
theorem Reserved.kept_eq (hpos : 0 < cache.config.pageTokens) (hle : kept ≤ rows)
    (h : Reserved cache middle sequence record rows context transaction fresh allocations
      prepared) :
    fresh.take ((record.position + kept) ⌈/⌉ cache.config.pageTokens - record.pages.length) =
      cache.pages.issued ((record.position + kept) ⌈/⌉ cache.config.pageTokens -
        record.pages.length) := by
  have hmono := ceilDiv_mono hpos (Nat.add_le_add_left hle record.position)
  have hlength := h.length_table
  rw [h.issued]
  exact issued_take cache.pages (by omega)

/-- Rows that were reserved and committed have been kept. -/
theorem Reserved.grown (hinv : Inv [] [] cache) (hmiddle : Inv [] [] middle)
    (hinv' : Inv [] [] cache')
    (h : Reserved cache middle sequence record rows context transaction fresh allocations prepared)
    (hkept : 0 < kept) (hle : kept ≤ rows)
    (haccepted : Accepted middle (record.reserve cache.config.pageTokens rows cache.appendNonce
      fresh transaction) pending context' kept event)
    (hsettled : Settled middle cache' sequence (record.reserve cache.config.pageTokens rows
      cache.appendNonce fresh transaction) pending kept event) :
    ∃ record', Grown cache cache' sequence record record' kept ∧
      record'.pages = record.pages ++ cache.pages.issued
        ((record.position + kept) ⌈/⌉ cache.config.pageTokens - record.pages.length) := by
  have hconfig : middle.config = cache.config := by rw [h.state]; rfl
  have hpageBytes : middle.pageBytes = cache.pageBytes := by rw [h.state]; rfl
  have hpos := hinv.config.pageTokens_pos
  have hnew : pending.newPages = fresh := by
    rw [← Option.some.inj hsettled.waiting]
  have hlive' : cache'.sequences.get? sequence = some ((record.reserve cache.config.pageTokens rows
      cache.appendNonce fresh transaction).settle cache.config.pageTokens pending kept) := by
    rw [hsettled.sequences, Arena.get?_set hsettled.live, if_pos rfl, hconfig]
  have hkeptPages := h.kept_eq hpos hle
  rw [← hnew] at hkeptPages
  change keptPages cache.config.pageTokens (record.reserve cache.config.pageTokens rows
    cache.appendNonce fresh transaction) pending kept = _ at hkeptPages
  have hsplit := congrArg List.length (kept_append_released cache.config.pageTokens (record.reserve
    cache.config.pageTokens rows cache.appendNonce fresh transaction) pending kept)
  rw [List.length_append, hnew] at hsplit
  have hgranted := h.granted
  have hlength := h.length_table
  have hmono := ceilDiv_mono hpos (Nat.add_le_add_left hle record.position)
  have hkeptLength := congrArg List.length hkeptPages
  rw [Arena.issued, List.length_map, List.length_range] at hkeptLength
  have hstorage : ∀ id ∈ record.pages ++ keptPages cache.config.pageTokens (record.reserve
      cache.config.pageTokens rows cache.appendNonce fresh transaction) pending kept,
      (cache'.pages.get? id).bind PageRecord.physical =
        (middle.pages.get? id).bind PageRecord.physical := by
    have hnodup := (hmiddle.owned.sequence sequence _ hsettled.live).nodup
    rw [heldPages_of_pending_some hsettled.waiting, ← kept_append_released
      cache.config.pageTokens (record.reserve cache.config.pageTokens rows cache.appendNonce fresh
        transaction) pending kept, ← List.append_assoc] at hnodup
    intro id hmem
    rw [hsettled.pages, hconfig,
      if_neg fun hin => List.disjoint_of_nodup_append hnodup hmem hin]
    cases middle.pages.get? id with
    | none => rfl
    | some page => exact PageRecord.mark_physical page
  refine ⟨_, ⟨h.live, hlive', rfl, ?_, ?_, rfl, rfl, List.prefix_append _ _, ?_, ?_, ?_, ?_, ?_⟩,
    ?_⟩
  · rw [hsettled.state]
    exact hconfig
  · rw [hsettled.state]
    exact hpageBytes
  · simp only [SequenceRecord.settle, SequenceRecord.reserve, List.length_append]
    rw [SequenceRecord.reserve] at hsplit
    omega
  · refine ⟨_, List.length_append, ?_⟩
    have hreserved := h.returned hinv hmiddle
    have hback := hsettled.returned hmiddle hinv'
    rw [hconfig, hpageBytes] at hback
    rw [← hsplit, Nat.add_comm] at hreserved
    exact hreserved.between hback
  · intro id hmem
    rw [hstorage id (List.mem_append_left _ hmem)]
    obtain ⟨page, hpage, -⟩ := hinv.owned.live_of_held h.live (mem_pages_heldPages hmem)
    obtain ⟨page', hpage', hphysical, -⟩ := h.pages.keeps id page hpage
    rw [hpage, hpage']
    exact hphysical
  · rw [hsettled.backend]
    exact h.suffix.trans (List.suffix_cons _ _)
  · cases haccepted with
    | commit commit transaction' hrows _ _ _ _ hsealed =>
        refine ⟨commit.sealedPages, ?_, ?_⟩
        · rw [hsettled.backend]
          exact congrArg (· ++ commit.sealedPages) h.reports
        have hinitial : record.pages ++ keptPages cache.config.pageTokens (record.reserve
            cache.config.pageTokens rows cache.appendNonce fresh transaction) pending
              commit.rows <+: (record.reserve cache.config.pageTokens rows cache.appendNonce fresh
                transaction).heldPages := by
          rw [heldPages_of_pending_some hsettled.waiting]
          exact (List.prefix_append_right_inj _).mpr (List.take_prefix _ _)
        rw [hconfig, filledPages_initial hinitial] at hsealed
        · refine hsealed.congr fun id hmem => hstorage id ?_
          exact List.mem_of_mem_take (List.mem_of_mem_drop hmem)
        · have hdiv := @div_le_ceilDiv _ hpos (record.position + commit.rows)
          have hceil := (hinv.owned.sequence sequence record h.live).length_pages
          have hmono' := ceilDiv_mono hpos (Nat.le_add_right record.position commit.rows)
          rw [List.length_append, hkeptLength]
          change (record.position + commit.rows) / _ ≤ _
          omega
    | abort => exact absurd hkept (Nat.lt_irrefl 0)
  · exact congrArg (record.pages ++ ·) hkeptPages

/-- The reservation that was granted matches the pending append of its sequence. -/
theorem Reserved.granted_matches
    (h : Reserved cache middle sequence record rows context transaction fresh allocations
      prepared) :
    ∃ pending, Matches middle ⟨sequence, record.position, rows, segmentsOf cache.config.pageTokens
        record.position rows (record.pages ++ fresh), cache.appendNonce⟩
      (record.reserve cache.config.pageTokens rows cache.appendNonce fresh transaction) pending ∧
      pending.rows = rows := by
  refine ⟨_, ⟨?_, rfl, rfl, rfl, rfl, rfl⟩, rfl⟩
  rw [h.state]
  change (cache.sequences.set sequence _).get? sequence = _
  rw [Arena.get?_set h.live, if_pos rfl]

/-- What stands in the way of an append that the checks admit. -/
def Hindered (cache : SequenceCache R) (failure : Failure R.Error) (cache' : SequenceCache R) :
    Prop :=
  (∃ error, Refuses cache.backend cache'.backend error) ∨
    ∃ kind, failure = .error (.idExhausted kind)

/-- What hinders a later call hinders the run. -/
theorem Hindered.ofSuffix {failure : Failure R.Error} (h : Hindered middle failure cache')
    (hsuffix : cache.backend <:+ middle.backend) : Hindered cache failure cache' := by
  obtain ⟨earlier, hearlier⟩ := hsuffix
  rcases h with ⟨error, added, event, hbackend, hmem, hfailure⟩ | hkind
  · refine Or.inl ⟨error, added ++ earlier, event, ?_, List.mem_append_left _ hmem, hfailure⟩
    rw [hbackend, ← hearlier, List.append_assoc]
  · exact Or.inr hkind

theorem commitAppend_hindered {orphans : List PageId} {stray : List TokenBlockId}
    (hinv : Inv orphans stray cache) {reservation : AppendReservation}
    (hmatches : Matches cache reservation record pending) (hkept : 0 < kept ∧ kept ≤ pending.rows)
    (context : R.Context) :
    Ends (commitAppend reservation kept context cache)
      (fun _ cache' => Inv orphans stray cache' ∧ Finalized cache reservation kept context cache')
      (Hindered cache) := by
  obtain ⟨commit, rfl, hposition, hheld, hreleased, hsealed, hhinges⟩ :=
    commitAppend_hinges hinv hmatches hkept context
  rcases hhinges with ⟨error, hanswer, hrun⟩ | ⟨hanswer, update, hupdate, hrun⟩
  · rw [hrun]
    refine Or.inl ⟨error, [_], _, rfl, List.mem_singleton_self _, ?_⟩
    rw [hanswer]
    rfl
  · rw [hrun, hanswer]
    exact Ends.mono (settle_spec hinv hmatches hkept.2 (Accepted.commit commit _ hkept.1 hposition
        (Prod.ext hanswer rfl) hheld hreleased hsealed) hupdate)
      (fun _ _ h => h) (fun _ _ h => Or.inr ⟨_, h.1⟩)

/-- A span is appended unless the backend refuses a call or an identity space is exhausted. -/
theorem appendSpan_spec (hinv : Inv [] [] cache)
    (hrecord : cache.sequences.get? sequence = some record) (hidle : record.pending = none)
    {span : Span R} (hkept : 0 < span.kept) (hle : span.kept ≤ span.rows)
    (hroom : record.position + span.rows ≤ record.maxPosition) :
    Ends (appendSpan sequence span cache)
      (fun _ cache' => Inv [] [] cache' ∧ ∃ record',
        Grown cache cache' sequence record record' span.kept ∧
        record'.pages = record.pages ++ cache.pages.issued
          ((record.position + span.kept) ⌈/⌉ cache.config.pageTokens - record.pages.length))
      (Hindered cache) := by
  unfold appendSpan
  refine Ends.bind (Ends.mono (reserveAppend_spec hinv sequence span.rows span.reserving)
    (fun _ _ h => h) ?_) ?_
  · rintro failure cache' ⟨-, hfails, -⟩
    rcases (hfails rfl).2 with ⟨error, -, hrefuses⟩ | ⟨hkind, -⟩ | ⟨-, hnot⟩
    · exact Or.inl ⟨error, hrefuses⟩
    · exact Or.inr hkind
    · exact absurd ⟨by omega, record, hrecord, hidle, hroom⟩ hnot
  · rintro reservation middle ⟨hmiddle, found, transaction, fresh, allocations, prepared, hreserved,
      rfl⟩
    obtain rfl := Option.some.inj (hrecord.symm.trans hreserved.live)
    obtain ⟨pending, hmatches, hrows⟩ := hreserved.granted_matches
    refine Ends.mono (commitAppend_hindered hmiddle hmatches ⟨hkept, by rwa [hrows]⟩
      span.committing) ?_ ?_
    · rintro - cache' ⟨hinv', found, waiting, event, hmatches', haccepted, hsettled⟩
      obtain rfl := Option.some.inj (hmatches.live.symm.trans hmatches'.live)
      exact ⟨hinv', hreserved.grown hinv hmiddle hinv' hkept hle haccepted hsettled⟩
    · exact fun failure cache' hhindered => hhindered.ofSuffix hreserved.suffix

end Span

/-! ## Runs of spans -/

section Spans

variable {record record' : SequenceRecord R.AppendTransaction} {spans done : List (Span R)}

theorem appendSpans_append (done rest : List (Span R)) :
    appendSpans sequence (done ++ rest) =
      (appendSpans sequence done >>= fun _ => appendSpans sequence rest) := by
  induction done with
  | nil => rfl
  | cons span done ih =>
      rw [List.cons_append, appendSpans, appendSpans, ih, bind_assoc]

/-- Rows add up over a run of spans. -/
theorem appendSpans_spec (hinv : Inv [] [] cache)
    (hrecord : cache.sequences.get? sequence = some record) (hidle : record.pending = none)
    (hfit : Span.Fit record.maxPosition record.position spans) :
    Ends (appendSpans sequence spans cache)
      (fun _ cache' => Inv [] [] cache' ∧ ∃ record',
        Grown cache cache' sequence record record' (Span.total spans))
      (Hindered cache) := by
  induction spans generalizing cache record with
  | nil => exact ⟨hinv, record, .refl hrecord hidle⟩
  | cons span rest ih =>
      obtain ⟨hkept, hle, hroom, hrest⟩ := hfit
      refine Ends.bind (appendSpan_spec hinv hrecord hidle hkept hle hroom) ?_
      rintro - middle ⟨hmiddle, record', hgrown, -⟩
      rw [← hgrown.maxPosition, ← hgrown.position] at hrest
      refine Ends.mono (ih hmiddle hgrown.live' hgrown.idle' hrest) ?_
        fun failure cache' hhindered => hhindered.ofSuffix hgrown.backend
      rintro - cache' ⟨hinv', record'', hgrown'⟩
      refine ⟨hinv', record'', hgrown.trans hgrown' ?_⟩
      have hok := hmiddle.owned.sequence sequence record' hgrown.live'
      rw [hok.length_pages, hgrown.config]
      exact div_le_ceilDiv hinv.config.pageTokens_pos

/-- The first spans of a run that succeeds succeed. -/
theorem appendSpans_initial (hinitial : done <+: spans)
    (hrun : appendSpans sequence spans cache = .ok () cache') :
    ∃ middle, appendSpans sequence done cache = .ok () middle := by
  obtain ⟨rest, rfl⟩ := hinitial
  rw [appendSpans_append] at hrun
  cases hdone : appendSpans sequence done cache with
  | ok value middle => exact ⟨middle, rfl⟩
  | error failure middle =>
      rw [bind_error hdone] at hrun
      cases hrun

theorem fit_initial {maxPosition position : ℕ} (hinitial : done <+: spans)
    (hfit : Span.Fit maxPosition position spans) : Span.Fit maxPosition position done := by
  induction done generalizing spans position with
  | nil => trivial
  | cons span done ih =>
      obtain ⟨rest, rfl⟩ := hinitial
      obtain ⟨hkept, hle, hroom, hrest⟩ := hfit
      exact ⟨hkept, hle, hroom, ih (List.prefix_append _ _) hrest⟩

/-- Spans that are kept whole fit if their rows do. -/
theorem fit_whole {maxPosition position : ℕ}
    (hwhole : ∀ span ∈ spans, 0 < span.rows ∧ span.kept = span.rows)
    (hroom : position + Span.total spans ≤ maxPosition) : Span.Fit maxPosition position spans := by
  induction spans generalizing position with
  | nil => trivial
  | cons span rest ih =>
      obtain ⟨hpos, hkept⟩ := hwhole span List.mem_cons_self
      have htotal : Span.total (span :: rest) = span.kept + Span.total rest := List.sum_cons
      refine ⟨by omega, hkept.le, by omega, ih (fun other hmem => ?_) (by omega)⟩
      exact hwhole other (List.mem_cons_of_mem _ hmem)

end Spans

/-! ## What the rows leave -/

/-- How far the pages are filled, and whether they are sealed. -/
def fillings (cache : SequenceCache R) (ids : List PageId) : List (Option (ℕ × Bool)) :=
  ids.map fun id => (cache.pages.get? id).map fun page => (page.validTokens, page.sealed)

/-- The position of a sequence says how its pages are filled. -/
theorem fillings_eq {stray : List TokenBlockId} (hinv : Inv [] stray cache)
    {record : SequenceRecord R.AppendTransaction}
    (hrecord : cache.sequences.get? sequence = some record) :
    cache.fillings record.pages =
      (List.range (record.position ⌈/⌉ cache.config.pageTokens)).map fun n =>
        some (validRows cache.config.pageTokens record.position n,
          decide (validRows cache.config.pageTokens record.position n =
            cache.config.pageTokens)) := by
  have hok := hinv.owned.sequence sequence record hrecord
  refine List.ext_getElem? fun n => ?_
  rw [fillings, List.getElem?_map, List.getElem?_map, ← hok.length_pages]
  cases hid : record.pages[n]? with
  | none =>
      have hlength := List.getElem?_eq_none_iff.mp hid
      rw [List.getElem?_eq_none_iff.mpr (by rwa [List.length_range])]
      rfl
  | some id =>
      have hlt := (List.getElem?_eq_some_iff.mp hid).1
      have hheld : record.heldPages[n]? = some id := by
        rw [SequenceRecord.heldPages, List.getElem?_append_left hlt, hid]
      obtain ⟨page, hpage, hpageOk⟩ := hok.held n id hheld
      obtain ⟨hvalid, hsealed⟩ := hpageOk.rows rfl
      rw [List.getElem?_range hlt, Option.map_some, Option.map_some, hpage, Option.map_some, hvalid,
        Bool.eq_iff_iff.mpr (hsealed.trans decide_eq_true_iff.symm)]

/-- The sequence has come as far, over as many pages filled alike, and the books agree. -/
structure SameAppend (cache cache' : SequenceCache R) (sequence : SequenceId)
    (record record' : SequenceRecord R.AppendTransaction) : Prop where
  live : cache.sequences.get? sequence = some record
  live' : cache'.sequences.get? sequence = some record'
  position : record'.position = record.position
  pageCount : record'.pages.length = record.pages.length
  fillings : cache'.fillings record'.pages = cache.fillings record.pages
  reservedPages : record'.reservedPages = record.reservedPages
  stats : cache'.stats = cache.stats

/-- The number of rows that were kept determines all of it. -/
theorem Grown.same {record record₁ record₂ : SequenceRecord R.AppendTransaction} {rows : ℕ}
    (h : Grown cache middle sequence record record₁ rows)
    (h' : Grown cache cache' sequence record record₂ rows) (hinv : Inv [] [] middle)
    (hinv' : Inv [] [] cache') : SameAppend middle cache' sequence record₁ record₂ := by
  have hposition : record₂.position = record₁.position := h'.position.trans h.position.symm
  have hlength : record₂.pages.length = record₁.pages.length := by
    rw [(hinv'.owned.sequence sequence _ h'.live').length_pages,
      (hinv.owned.sequence sequence _ h.live').length_pages, hposition, h.config, h'.config]
  refine ⟨h.live', h'.live', hposition, hlength, ?_, ?_, ?_⟩
  · rw [fillings_eq hinv' h'.live', fillings_eq hinv h.live', hposition, h.config, h'.config]
  · have := h.granted
    have := h'.granted
    omega
  · obtain ⟨count, hcount, hstats⟩ := h.stats
    obtain ⟨count', hcount', hstats'⟩ := h'.stats
    obtain rfl : count' = count := by omega
    exact hstats.unique_left hstats'

/-- Since `cache`, the backend was told to be full exactly those pages of the sequence that the
rows have filled, each once and in the order of the table. -/
def ReportsFull (cache cache' : SequenceCache R) (sequence : SequenceId)
    (record : SequenceRecord R.AppendTransaction) (rows : ℕ) : Prop :=
  ∃ record' reported, cache'.sequences.get? sequence = some record' ∧
    sealedReports cache'.backend = sealedReports cache.backend ++ reported ∧
    Stored cache'.pages
      (filledPages cache.config.pageTokens record.position rows record'.pages) reported ∧
    (filledPages cache.config.pageTokens record.position rows record'.pages).Nodup

/-- After every one of the spans, the reports are complete. -/
def ReportsInTurn (cache : SequenceCache R) (sequence : SequenceId)
    (record : SequenceRecord R.AppendTransaction) (spans : List (Span R)) : Prop :=
  ∀ done, done <+: spans → ∃ middle, appendSpans sequence done cache = .ok () middle ∧
    ReportsFull cache middle sequence record (Span.total done)

theorem Grown.reportsFull {record record' : SequenceRecord R.AppendTransaction} {rows : ℕ}
    {stray : List TokenBlockId} (h : Grown cache cache' sequence record record' rows)
    (hinv' : Inv [] stray cache') : ReportsFull cache cache' sequence record rows := by
  obtain ⟨reported, hreports, hstored⟩ := h.reports
  refine ⟨record', reported, h.live', hreports, hstored, ?_⟩
  have hnodup := (hinv'.owned.sequence sequence record' h.live').nodup
  rw [heldPages_of_pending_none h.idle'] at hnodup
  exact hnodup.sublist ((List.drop_sublist _ _).trans (List.take_sublist _ _))

/-- The backend refuses no call of the run, and no identity space is exhausted. -/
def Untroubled (cache : SequenceCache R) (sequence : SequenceId) (spans : List (Span R)) : Prop :=
  (∀ error, ¬ Refuses cache.backend
    (finalState (appendSpans sequence spans cache)).backend error) ∧
  ∀ kind, outcome (appendSpans sequence spans cache) ≠ .error (.error (.idExhausted kind))

section Runs

variable {record : SequenceRecord R.AppendTransaction} {spans : List (Span R)}

theorem Untroubled.grown (h : Untroubled cache sequence spans) (hinv : Inv [] [] cache)
    (hrecord : cache.sequences.get? sequence = some record) (hidle : record.pending = none)
    (hfit : Span.Fit record.maxPosition record.position spans) :
    ∃ cache', appendSpans sequence spans cache = .ok () cache' ∧ Inv [] [] cache' ∧
      ∃ record', Grown cache cache' sequence record record' (Span.total spans) := by
  have hspec := appendSpans_spec hinv hrecord hidle hfit
  obtain ⟨haccepted, hintact⟩ := h
  cases hrun : appendSpans sequence spans cache with
  | ok value cache' =>
      rw [hrun] at hspec
      exact ⟨cache', rfl, hspec⟩
  | error failure cache' =>
      rw [hrun] at hspec haccepted hintact
      rcases hspec with ⟨error, hrefuses⟩ | ⟨kind, rfl⟩
      · exact absurd hrefuses (haccepted error)
      · exact absurd rfl (hintact kind)

theorem Untroubled.reportsInTurn (h : Untroubled cache sequence spans) (hinv : Inv [] [] cache)
    (hrecord : cache.sequences.get? sequence = some record) (hidle : record.pending = none)
    (hfit : Span.Fit record.maxPosition record.position spans) :
    ReportsInTurn cache sequence record spans := by
  obtain ⟨cache', hrun, -⟩ := h.grown hinv hrecord hidle hfit
  intro done hinitial
  obtain ⟨middle, hdone⟩ := appendSpans_initial hinitial hrun
  have hspec := appendSpans_spec hinv hrecord hidle (fit_initial hinitial hfit)
  rw [hdone] at hspec
  obtain ⟨hmiddle, record', hgrown⟩ := hspec
  exact ⟨middle, hdone, hgrown.reportsFull hmiddle⟩

/-- The pages of a single span are the next to be issued. -/
theorem Untroubled.single {span : Span R} (h : Untroubled cache sequence [span])
    (hinv : Inv [] [] cache) (hrecord : cache.sequences.get? sequence = some record)
    (hidle : record.pending = none) (hkept : 1 ≤ span.kept) (hle : span.kept ≤ span.rows)
    (hroom : record.position + span.rows ≤ record.maxPosition) :
    ∃ cache' record', appendSpans sequence [span] cache = .ok () cache' ∧ Inv [] [] cache' ∧
      Grown cache cache' sequence record record' span.kept ∧
      record'.pages = record.pages ++ cache.pages.issued
        ((record.position + span.kept) ⌈/⌉ cache.config.pageTokens - record.pages.length) := by
  obtain ⟨cache', hrun, -⟩ := h.grown hinv hrecord hidle ⟨hkept, hle, hroom, trivial⟩
  have hspec := appendSpan_spec hinv hrecord hidle hkept hle hroom
  rw [appendSpans] at hrun
  cases hspan : appendSpan sequence span cache with
  | error failure middle =>
      rw [bind_error hspan] at hrun
      cases hrun
  | ok value middle =>
      rw [hspan] at hspec
      obtain ⟨hinv', record', hgrown, hpages⟩ := hspec
      refine ⟨middle, record', ?_, hinv', hgrown, hpages⟩
      rw [appendSpans, bind_ok hspan]
      rfl

/-- Keeping the first of many reserved rows leaves the same as reserving just these, and appending
rows at once the same as appending them in turn.  Along the way the backend is told of every page
that becomes full, in the commit that fills it. -/
theorem appends_agree (hlaw : R.Retires) (hhonest : R.ImmediateHonest) {config : CacheConfig}
    {start : SequenceCache R} (hnew : SequenceCache.new R config = .ok start)
    (hreach : ReachesIntact start cache)
    (hrecord : cache.sequences.get? sequence = some record) (hidle : record.pending = none) :
    (∀ rows kept, 1 ≤ kept → kept ≤ rows → record.position + rows ≤ record.maxPosition →
      ∀ reserving committing reserving' committing' : R.Context,
      Untroubled cache sequence [⟨rows, kept, reserving, committing⟩] →
      Untroubled cache sequence [⟨kept, kept, reserving', committing'⟩] →
      ∃ cache₁ cache₂ record₁ record₂,
        appendSpans sequence [⟨rows, kept, reserving, committing⟩] cache = .ok () cache₁ ∧
        appendSpans sequence [⟨kept, kept, reserving', committing'⟩] cache = .ok () cache₂ ∧
        SameAppend cache₁ cache₂ sequence record₁ record₂ ∧ record₂.pages = record₁.pages) ∧
    (∀ spans : List (Span R), spans ≠ [] →
      (∀ span ∈ spans, 1 ≤ span.rows ∧ span.kept = span.rows) →
      record.position + Span.total spans ≤ record.maxPosition →
      ∀ reserving committing : R.Context, Untroubled cache sequence spans →
      Untroubled cache sequence [⟨Span.total spans, Span.total spans, reserving, committing⟩] →
      ∃ cache₁ cache₂ record₁ record₂,
        appendSpans sequence [⟨Span.total spans, Span.total spans, reserving, committing⟩] cache =
          .ok () cache₁ ∧
        appendSpans sequence spans cache = .ok () cache₂ ∧
        SameAppend cache₁ cache₂ sequence record₁ record₂) ∧
    ∀ spans : List (Span R), Span.Fit record.maxPosition record.position spans →
      Untroubled cache sequence spans → ReportsInTurn cache sequence record spans := by
  have hinv := (hreach.sound hlaw hhonest (sound_of_new hnew)).inv
  refine ⟨?_, ?_, fun spans hfit huntroubled => huntroubled.reportsInTurn hinv hrecord hidle hfit⟩
  · intro rows kept hkept hle hroom reserving committing reserving' committing' hmany hfew
    obtain ⟨cache₁, record₁, hrun, hinv₁, hgrown, hpages⟩ :=
      hmany.single hinv hrecord hidle hkept hle hroom
    obtain ⟨cache₂, record₂, hrun', hinv₂, hgrown', hpages'⟩ :=
      hfew.single hinv hrecord hidle hkept le_rfl
        ((Nat.add_le_add_left hle record.position).trans hroom)
    exact ⟨cache₁, cache₂, record₁, record₂, hrun, hrun', hgrown.same hgrown' hinv₁ hinv₂,
      hpages'.trans hpages.symm⟩
  · intro spans hne hwhole hroom reserving committing hturn honce
    have hpos : 1 ≤ Span.total spans := by
      obtain ⟨span, rest, rfl⟩ := List.exists_cons_of_ne_nil hne
      obtain ⟨hrows, hkept⟩ := hwhole span List.mem_cons_self
      have htotal : Span.total (span :: rest) = span.kept + Span.total rest := List.sum_cons
      omega
    obtain ⟨cache₁, hrun, hinv₁, record₁, hgrown⟩ :=
      honce.grown hinv hrecord hidle ⟨hpos, le_rfl, hroom, trivial⟩
    obtain ⟨cache₂, hrun', hinv₂, record₂, hgrown'⟩ :=
      hturn.grown hinv hrecord hidle (fit_whole hwhole hroom)
    exact ⟨cache₁, cache₂, record₁, record₂, hrun, hrun', hgrown.same hgrown' hinv₁ hinv₂⟩

end Runs

end SequenceCache

namespace Reference

/-- Five rows for the unaligned sequence, of which two are kept. -/
def fewOfFive : List (Span plain) := [⟨5, 2, 8, 8⟩]

def justTwo : List (Span plain) := [⟨2, 2, 8, 8⟩]

/-- Five rows in two spans. -/
def twoAndThree : List (Span plain) := [⟨2, 2, 8, 8⟩, ⟨3, 3, 8, 8⟩]

def allFive : List (Span plain) := [⟨5, 5, 8, 8⟩]

end Reference

open Reference in
theorem SequenceCache.appends_agree_unaligned :
    (∃ cache₁ cache₂ record₁ record₂,
      appendSpans ⟨0, 1⟩ fewOfFive (after unaligned) = .ok () cache₁ ∧
      appendSpans ⟨0, 1⟩ justTwo (after unaligned) = .ok () cache₂ ∧
      SameAppend cache₁ cache₂ ⟨0, 1⟩ record₁ record₂ ∧ record₂.pages = record₁.pages) ∧
    ∃ cache₁ cache₂ record₁ record₂,
      appendSpans ⟨0, 1⟩ allFive (after unaligned) = .ok () cache₁ ∧
      appendSpans ⟨0, 1⟩ twoAndThree (after unaligned) = .ok () cache₂ ∧
      SameAppend cache₁ cache₂ ⟨0, 1⟩ record₁ record₂ := by
  have hreach : ReachesIntact start (after unaligned) := reachesIntact_after (by decide +kernel)
  obtain ⟨record, hrecord, hidle, hposition, hmax⟩ : ∃ record,
      (after unaligned).sequences.get? ⟨0, 1⟩ = some record ∧ record.pending = none ∧
      record.position = 3 ∧ record.maxPosition = 8 := by
    refine ⟨_, Option.some_get (show Option.isSome _ = true by decide +kernel) |>.symm, ?_⟩
    decide +kernel
  have hrun : ∀ spans ∈ [fewOfFive, justTwo, twoAndThree, allFive],
      (finalState (appendSpans ⟨0, 1⟩ spans (after unaligned))).backend.all
          (fun event => event.failure?.isNone) = true ∧
        outcome (appendSpans ⟨0, 1⟩ spans (after unaligned)) = .ok () := by decide +kernel
  generalize after unaligned = cache at *
  have huntroubled : ∀ spans ∈ [fewOfFive, justTwo, twoAndThree, allFive],
      Untroubled cache ⟨0, 1⟩ spans := by
    intro spans hmem
    obtain ⟨haccepted, hok⟩ := hrun spans hmem
    refine ⟨not_refuses haccepted, fun kind hkind => ?_⟩
    rw [hok] at hkind
    cases hkind
  obtain ⟨hsome, hsplit, -⟩ := appends_agree plain_lawful.toRetires plain_immediateHonest
    new_start hreach hrecord hidle
  refine ⟨?_, ?_⟩
  · exact hsome 5 2 (by decide) (by decide) (by omega) 8 8 8 8
      (huntroubled fewOfFive (by simp)) (huntroubled justTwo (by simp))
  · exact hsplit twoAndThree (by simp [twoAndThree]) (by simp [twoAndThree])
      (by rw [hposition, hmax]; decide) 8 8 (huntroubled twoAndThree (by simp))
      (huntroubled allFive (by simp))

end SeqCache
