import SeqCache.Run.Reachable

/-!
# The rows of a reservation

A reservation cuts its rows at page boundaries.  The cache computes the segments once
before the new pages have handles, for the backend, and once after, for the caller.  Both
computations describe the same rows of the same pages.
-/

namespace SeqCache

open Machine Program Std

variable {R : Runtime}

/-! ## Consecutive segments -/

/-- Nonempty segments that cover the input rows from `start` to `stop` in order. -/
def Consecutive : ℕ → List AppendSegment → ℕ → Prop
  | start, [], stop => start = stop
  | start, segment :: rest, stop =>
      segment.inputOffset = start ∧ 0 < segment.rows ∧
        Consecutive (start + segment.rows) rest stop

/-- Every covered row lies in a segment. -/
theorem Consecutive.exists_mem {segments : List AppendSegment} {start stop row : ℕ}
    (h : Consecutive start segments stop) (hle : start ≤ row) (hlt : row < stop) :
    ∃ segment ∈ segments, segment.inputOffset ≤ row ∧ row < segment.inputOffset + segment.rows := by
  induction segments generalizing start with
  | nil =>
      rw [Consecutive] at h
      omega
  | cons segment rest ih =>
      obtain ⟨hstart, -, hrest⟩ := h
      by_cases hhere : row < start + segment.rows
      · exact ⟨segment, by simp, by omega, by omega⟩
      · obtain ⟨found, hfound, hrange⟩ := ih hrest (Nat.not_lt.mp hhere)
        exact ⟨found, List.mem_cons_of_mem _ hfound, hrange⟩

section Segments

variable {pageTokens position rows n : ℕ}

/-- The segment of a page that holds some of the rows. -/
theorem segmentAt_bounds (hpos : 0 < pageTokens) (hlow : position / pageTokens ≤ n)
    (hhigh : n < (position + rows) ⌈/⌉ pageTokens) :
    n * pageTokens < position + rows ∧ position < (n + 1) * pageTokens := by
  rw [lt_ceilDiv_iff hpos] at hhigh
  exact ⟨hhigh, (Nat.div_lt_iff_lt_mul hpos).mp (Nat.lt_succ_of_le hlow)⟩

theorem segmentsFrom_consecutive (hpos : 0 < pageTokens) (hrows : 0 < rows) (ids : List PageId)
    (hlow : position / pageTokens ≤ n)
    (hlength : n + ids.length = (position + rows) ⌈/⌉ pageTokens) :
    Consecutive (min (position + rows) (max position (n * pageTokens)) - position)
      (segmentsFrom pageTokens position rows n ids) rows := by
  induction ids generalizing n with
  | nil =>
      have hend := (ceilDiv_le_iff hpos).mp hlength.symm.le
      rw [List.length_nil, Nat.add_zero] at hend
      rw [segmentsFrom, Consecutive]
      omega
  | cons id rest ih =>
      rw [List.length_cons] at hlength
      obtain ⟨hstart, hend⟩ :=
        @segmentAt_bounds pageTokens position rows n hpos hlow (by omega)
      have hrest := @ih (n + 1) (by omega) (by omega)
      have hnext : max position ((n + 1) * pageTokens) = (n + 1) * pageTokens :=
        max_eq_right hend.le
      rw [hnext] at hrest
      rw [Nat.succ_mul] at hend hrest
      refine ⟨?_, ?_, ?_⟩
      · simp only [segmentAt]
        omega
      · simp only [segmentAt, Nat.succ_mul]
        omega
      · convert hrest using 1
        simp only [segmentAt, Nat.succ_mul]
        omega

/-- A row of a segment is where its position says. -/
theorem segmentAt_row {id : PageId} {row : ℕ}
    (hle : (segmentAt pageTokens position rows n id).inputOffset ≤ row)
    (hlt : row < (segmentAt pageTokens position rows n id).inputOffset +
      (segmentAt pageTokens position rows n id).rows) :
    (position + row) / pageTokens = n ∧
      (segmentAt pageTokens position rows n id).pageOffset +
        (row - (segmentAt pageTokens position rows n id).inputOffset) =
          (position + row) % pageTokens := by
  simp only [segmentAt, Nat.succ_mul] at hle hlt ⊢
  have hlow : n * pageTokens ≤ position + row := by omega
  have hhigh : position + row < (n + 1) * pageTokens := by
    rw [Nat.succ_mul]
    omega
  have hquotient : (position + row) / pageTokens = n := Nat.div_eq_of_lt_le hlow hhigh
  have hsplit := Nat.div_add_mod' (position + row) pageTokens
  rw [hquotient] at hsplit
  exact ⟨hquotient, by omega⟩

end Segments

namespace SequenceCache

/-! ## What the backend is told -/

/-- The description of a segment over the storage `page`. -/
def describe (existing : Bool) (page : R.Page) (segment : AppendSegment) :
    BackendAppendPage R.Page :=
  ⟨page, segment.pageOffset, segment.inputOffset, segment.rows, existing⟩

theorem preparedAllocations_eq {pageTokens position rows n : ℕ} (hpos : 0 < pageTokens)
    (hrows : 0 < rows) (ids : List PageId) (allocations : List R.Page)
    (hcount : allocations.length = ids.length) (hstart : position ≤ n * pageTokens)
    (hlength : n + ids.length = (position + rows) ⌈/⌉ pageTokens) :
    preparedAllocations pageTokens rows allocations
        (min (position + rows) (n * pageTokens) - position) =
      .ok (List.zipWith (describe false) allocations
        (segmentsFrom pageTokens position rows n ids)) := by
  induction ids generalizing allocations n with
  | nil =>
      rw [List.eq_nil_of_length_eq_zero hcount]
      rfl
  | cons id rest ih =>
      obtain ⟨page, allocations, rfl⟩ := List.exists_cons_of_length_eq_add_one hcount
      simp only [List.length_cons] at hcount hlength
      have hlow : position / pageTokens ≤ n := Nat.div_le_of_le_mul (by rwa [Nat.mul_comm])
      obtain ⟨hbefore, -⟩ :=
        @segmentAt_bounds pageTokens position rows n hpos hlow (by omega)
      have hsegment : describe false page (segmentAt pageTokens position rows n id) =
          ⟨page, 0, min (position + rows) (n * pageTokens) - position,
            min (rows - (min (position + rows) (n * pageTokens) - position)) pageTokens,
              false⟩ := by
        simp only [describe, segmentAt, Nat.succ_mul, BackendAppendPage.mk.injEq,
          true_and, and_true]
        omega
      have hrest := @ih (n + 1) allocations (by omega) (by rw [Nat.succ_mul]; omega) (by omega)
      have hnext : min (position + rows) ((n + 1) * pageTokens) - position =
          min (position + rows) (n * pageTokens) - position +
            min (rows - (min (position + rows) (n * pageTokens) - position)) pageTokens := by
        rw [Nat.succ_mul]
        omega
      rw [hnext] at hrest
      rw [preparedAllocations, checkedSub_of_le (by omega), okOr_some, pure_bind]
      simp only
      rw [except_bind_ok hrest, segmentsFrom, List.zipWith_cons_cons, hsegment]
      rfl

/-- Segment and description speak of the same rows of the same page, and the description
says whether the page was in the table `old`. -/
structure Describes (cache : SequenceCache R) (old : List PageId)
    (description : BackendAppendPage R.Page) (segment : AppendSegment) : Prop where
  page : (cache.pages.get? segment.page).bind PageRecord.physical = some description.page
  pageOffset : description.pageOffset = segment.pageOffset
  inputOffset : description.inputOffset = segment.inputOffset
  rows : description.rows = segment.rows
  existing : description.existing = true ↔ segment.page ∈ old

theorem describes_fresh {cache : SequenceCache R} {old : List PageId} {pageTokens position rows : ℕ}
    {fresh : List PageId} {allocations : List R.Page} (n : ℕ)
    (hrecords : fresh.map cache.pages.get? =
      allocations.map fun page => some (privatePage page))
    (hnew : ∀ id ∈ fresh, id ∉ old) :
    List.Forall₂ (Describes cache old) (List.zipWith (describe false) allocations
      (segmentsFrom pageTokens position rows n fresh))
      (segmentsFrom pageTokens position rows n fresh) := by
  induction fresh generalizing allocations n with
  | nil =>
      rw [segmentsFrom, List.zipWith_nil_right]
      exact .nil
  | cons id rest ih =>
      cases allocations with
      | nil => cases hrecords
      | cons page allocations =>
          simp only [List.map_cons, List.cons.injEq] at hrecords
          rw [segmentsFrom, List.zipWith_cons_cons]
          refine .cons ⟨?_, rfl, rfl, rfl, ?_⟩
            (ih (n + 1) hrecords.2 fun other hmem => hnew other (List.mem_cons_of_mem _ hmem))
          · change (cache.pages.get? id).bind PageRecord.physical = some page
            rw [hrecords.1]
            rfl
          · exact iff_of_false Bool.false_ne_true (hnew id List.mem_cons_self)

/-- What the backend is told about a reservation describes its segments. -/
theorem describes_reserved {cache cache' : SequenceCache R} {orphans : List PageId}
    {stray : List TokenBlockId} (hinv : Inv orphans stray cache) {sequence : SequenceId}
    {record : SequenceRecord R.AppendTransaction} {rows : ℕ} {context : R.Context}
    {transaction : R.AppendTransaction} {fresh : List PageId} {allocations : List R.Page}
    {prepared : R.History}
    (h : Reserved cache cache' sequence record rows context transaction fresh allocations prepared)
    {descriptions : List (BackendAppendPage R.Page)}
    (hdescriptions : cache.preparedPages record rows allocations = .ok descriptions) :
    List.Forall₂ (Describes cache' record.pages) descriptions
      (segmentsOf cache.config.pageTokens record.position rows (record.pages ++ fresh)) := by
  have hpos := hinv.config.pageTokens_pos
  have hok := hinv.owned.sequence sequence record h.live
  have hcount : allocations.length = fresh.length := by
    have hlength := congrArg List.length h.records
    simpa using hlength.symm
  have hnew : ∀ id ∈ fresh, id ∉ record.pages := by
    intro id hmem hold
    obtain ⟨page, hpage, -⟩ := hok.live (mem_pages_heldPages hold)
    rw [h.pages.absent id hmem] at hpage
    cases hpage
  have hdiv := Nat.div_add_mod' record.position cache.config.pageTokens
  have hmod := Nat.mod_lt record.position hpos
  have htable := h.length_table
  have hpages := hok.length_pages
  unfold preparedPages at hdescriptions
  by_cases haligned : record.position % cache.config.pageTokens = 0
  · -- The sequence ends on a page boundary: every segment lies in a new page.
    have htail : cache.writableTail record = none := by
      simp [writableTail, haligned]
    rw [ceilDiv_of_aligned hpos haligned] at hpages
    have hstart : 0 = min (record.position + rows)
        (record.position / cache.config.pageTokens * cache.config.pageTokens) -
          record.position := by omega
    rw [htail] at hdescriptions
    simp only at hdescriptions
    rw [hstart, preparedAllocations_eq hpos h.rows_pos fresh allocations hcount (by omega)
      (by omega)] at hdescriptions
    cases hdescriptions
    rw [segmentsOf, List.drop_left' hpages]
    exact describes_fresh _ h.records hnew
  · -- The first segment continues the last page of the sequence.
    rw [ceilDiv_of_unaligned hpos haligned] at hpages
    obtain ⟨before, tail, hsplit⟩ := (List.eq_nil_or_concat' record.pages).resolve_left
      (List.ne_nil_of_length_eq_add_one hpages)
    have hbefore : before.length = record.position / cache.config.pageTokens := by
      simpa [hsplit] using hpages
    have htail : cache.writableTail record = some tail := by
      rw [writableTail, hsplit, List.getLast?_concat, Option.filter_some]
      simp [haligned]
    have hmem : tail ∈ record.pages := by simp [hsplit]
    obtain ⟨page, hpage, hphysical⟩ := hok.live (mem_pages_heldPages hmem)
    obtain ⟨storage, hstorage⟩ := Option.isSome_iff_exists.mp hphysical
    have hstart : min rows (cache.config.pageTokens - record.position % cache.config.pageTokens) =
        min (record.position + rows) ((record.position / cache.config.pageTokens + 1) *
          cache.config.pageTokens) - record.position := by
      rw [Nat.succ_mul]
      omega
    have hsegment : describe true storage (segmentAt cache.config.pageTokens record.position rows
        (record.position / cache.config.pageTokens) tail) =
        ⟨storage, record.position % cache.config.pageTokens, 0,
          min rows (cache.config.pageTokens - record.position % cache.config.pageTokens),
            true⟩ := by
      simp only [describe, segmentAt, Nat.succ_mul, BackendAppendPage.mk.injEq, true_and, and_true]
      omega
    rw [htail] at hdescriptions
    simp only [physicalRef, hpage, hstorage, okOr_some, pure_bind] at hdescriptions
    rw [hstart, except_bind_ok (preparedAllocations_eq hpos h.rows_pos fresh allocations hcount
      (by rw [Nat.succ_mul]; omega) (by omega)), ← hstart, ← hsegment] at hdescriptions
    cases hdescriptions
    have hdrop : (record.pages ++ fresh).drop (record.position / cache.config.pageTokens) =
        tail :: fresh := by
      rw [hsplit, List.append_assoc, List.drop_left' hbefore, List.singleton_append]
    rw [segmentsOf, hdrop, segmentsFrom]
    refine .cons ⟨?_, rfl, rfl, rfl, iff_of_true rfl hmem⟩ (describes_fresh _ h.records hnew)
    change (cache'.pages.get? tail).bind PageRecord.physical = some storage
    rw [h.pages.old tail fun hin => hnew tail hin hmem, hpage]
    exact hstorage

/-! ## Whole reservations -/

/-- The segments of a reservation cover its rows in order, each row where its position says
in the table `old ++ fresh`, and are what the backend was told. -/
structure WellCut (cache : SequenceCache R) (pageTokens position rows : ℕ)
    (old fresh : List PageId) (segments : List AppendSegment)
    (descriptions : List (BackendAppendPage R.Page)) : Prop where
  consecutive : Consecutive 0 segments rows
  covered : ∀ row < rows, ∃ segment ∈ segments,
    segment.inputOffset ≤ row ∧ row < segment.inputOffset + segment.rows
  located : ∀ segment ∈ segments, ∀ row, segment.inputOffset ≤ row →
    row < segment.inputOffset + segment.rows →
      (old ++ fresh)[(position + row) / pageTokens]? = some segment.page ∧
        segment.pageOffset + (row - segment.inputOffset) = (position + row) % pageTokens
  described : List.Forall₂ (Describes cache old) descriptions segments

theorem Reserved.wellCut {cache cache' : SequenceCache R} {orphans : List PageId}
    {stray : List TokenBlockId} (hinv : Inv orphans stray cache) {sequence : SequenceId}
    {record : SequenceRecord R.AppendTransaction} {rows : ℕ} {context : R.Context}
    {transaction : R.AppendTransaction} {fresh : List PageId} {allocations : List R.Page}
    {prepared : R.History}
    (h : Reserved cache cache' sequence record rows context transaction fresh allocations prepared)
    {descriptions : List (BackendAppendPage R.Page)}
    (hdescriptions : cache.preparedPages record rows allocations = .ok descriptions) :
    WellCut cache' cache.config.pageTokens record.position rows record.pages fresh
      (segmentsOf cache.config.pageTokens record.position rows (record.pages ++ fresh))
      descriptions := by
  have hpos := hinv.config.pageTokens_pos
  have hlow := Nat.div_mul_le_self record.position cache.config.pageTokens
  have hpages := (hinv.owned.sequence sequence record h.live).length_pages
  have hdiv := @div_le_ceilDiv cache.config.pageTokens hpos record.position
  have hconsecutive := @segmentsFrom_consecutive cache.config.pageTokens record.position rows
    (record.position / cache.config.pageTokens) hpos h.rows_pos
    ((record.pages ++ fresh).drop (record.position / cache.config.pageTokens)) le_rfl (by
      have htable := h.length_table
      rw [List.length_drop, List.length_append]
      omega)
  rw [max_eq_left hlow, min_eq_right (Nat.le_add_right _ _), Nat.sub_self] at hconsecutive
  refine ⟨hconsecutive, fun row hlt => hconsecutive.exists_mem (Nat.zero_le row) hlt, ?_,
    describes_reserved hinv h hdescriptions⟩
  intro segment hmem row hle hlt
  obtain ⟨index, id, hid, rfl⟩ := mem_segmentsFrom hmem
  obtain ⟨hquotient, hoffset⟩ := segmentAt_row hle hlt
  rw [List.getElem?_drop] at hid
  exact ⟨by rw [hquotient]; exact hid, hoffset⟩

/-- In every reachable state, a successful reservation is well cut, and its descriptions are
those of the only append that the backend was asked to prepare. -/
theorem reserveAppend_wellCut (hlaw : R.Lawful) {config : CacheConfig}
    {start cache cache' : SequenceCache R} (hnew : SequenceCache.new R config = .ok start)
    (hreach : Reaches start cache) {sequence : SequenceId} {rows : ℕ} {context : R.Context}
    {reservation : AppendReservation}
    (hrun : reserveAppend sequence rows context cache = .ok reservation cache') :
    ∃ record pending descriptions allocations published,
      cache.sequences.get? sequence = some record ∧
      (cache'.sequences.get? sequence).bind SequenceRecord.pending = some pending ∧
      cache'.backend = published ++
        .prepareAppend context descriptions record.position (.ok pending.transaction) ::
          (allocationEvents context allocations ++ cache.backend) ∧
      (published = [] ∨
        ∃ table, published = [.updatePageTable context table record.position (.ok ())]) ∧
      WellCut cache' cache.config.pageTokens record.position rows record.pages pending.newPages
        reservation.segments descriptions := by
  obtain ⟨orphans, stray, hinv⟩ := Reaches.inv hreach hlaw.toRetires ⟨[], [], inv_of_new hnew⟩
  have hspec := reserveAppend_spec hinv sequence rows context
  rw [hrun] at hspec
  obtain ⟨-, record, transaction, fresh, allocations, prepared, hreserved, rfl⟩ := hspec
  obtain ⟨descriptions, hdescriptions, hprepared⟩ := hreserved.described
  have hpending : (cache'.sequences.get? sequence).bind SequenceRecord.pending =
      (record.reserve cache.config.pageTokens rows cache.appendNonce fresh
        transaction).pending := by
    rw [hreserved.state]
    change ((cache.sequences.set sequence _).get? sequence).bind _ = _
    rw [Arena.get?_set hreserved.live, if_pos rfl, Option.bind_some]
  have hcut := hreserved.wellCut hinv hdescriptions
  rcases hreserved.extended with ⟨-, hbackend⟩ | ⟨table, -, -, hbackend⟩
  · exact ⟨record, _, descriptions, allocations, [], hreserved.live, hpending,
      hbackend.trans hprepared, Or.inl rfl, hcut⟩
  · exact ⟨record, _, descriptions, allocations, [_], hreserved.live, hpending,
      hbackend.trans (congrArg (List.cons _) hprepared), Or.inr ⟨_, rfl⟩, hcut⟩

/-- Three rows that continue a half-filled page. -/
theorem reserveAppend_wellCut_unaligned :
    ∃ reservation cache', @reserveAppend Reference.plain ⟨0, 1⟩ 3 8
        (Reference.after Reference.unaligned) = .ok reservation cache' ∧
      reservation.segments = [⟨⟨2, 0⟩, 1, 0, 1⟩, ⟨⟨3, 0⟩, 0, 1, 2⟩] ∧
      ∃ record pending descriptions,
        (Reference.after Reference.unaligned).sequences.get? ⟨0, 1⟩ = some record ∧
        (cache'.sequences.get? ⟨0, 1⟩).bind SequenceRecord.pending = some pending ∧
        WellCut cache' (Reference.after Reference.unaligned).config.pageTokens record.position 3
          record.pages pending.newPages reservation.segments descriptions := by
  have hreach : Reaches Reference.start (Reference.after Reference.unaligned) :=
    ReachesIntact.reaches (Reference.reachesIntact_after (by decide +kernel))
  have hrun := eq_ok_of_outcome (show outcome (@reserveAppend Reference.plain ⟨0, 1⟩ 3 8
    (Reference.after Reference.unaligned)) = .ok ⟨⟨0, 1⟩, 3, 3,
      [⟨⟨2, 0⟩, 1, 0, 1⟩, ⟨⟨3, 0⟩, 0, 1, 2⟩], 2⟩ by decide +kernel)
  refine ⟨_, _, hrun, rfl, ?_⟩
  obtain ⟨record, pending, descriptions, -, -, hlive, hpending, -, -, hcut⟩ :=
    reserveAppend_wellCut Reference.plain_lawful Reference.new_start hreach hrun
  exact ⟨record, pending, descriptions, hlive, hpending, hcut⟩

end SequenceCache

end SeqCache
