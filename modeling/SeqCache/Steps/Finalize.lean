import SeqCache.Invariant.Segments
import SeqCache.Steps.Evict

/-!
# Finalizing an append as a step

A commit and an abort hand the pending append to the backend.  When the backend refuses,
everything stays as it was.  When it accepts, the released page records are removed one by
one; a record whose slot is at its last generation cannot be removed, and the call then
ends half way.
-/

namespace SeqCache

open Machine Program Std

variable {R : Runtime}

namespace SequenceCache

variable {cache : SequenceCache R} {orphans : List PageId} {stray : List TokenBlockId}

/-! ## The reservation -/

/-- The reservation describes the pending append of its sequence. -/
structure Matches (cache : SequenceCache R) (reservation : AppendReservation)
    (record : SequenceRecord R.AppendTransaction)
    (pending : PendingAppend R.AppendTransaction) : Prop where
  live : cache.sequences.get? reservation.sequence = some record
  waiting : record.pending = some pending
  startPosition : reservation.startPosition = pending.startPosition
  rows : reservation.rows = pending.rows
  segments : reservation.segments = pending.segments
  nonce : reservation.nonce = pending.nonce

theorem validateReservation_cases (cache : SequenceCache R) (reservation : AppendReservation) :
    (∃ error, cache.validateReservation reservation = .error error ∧
        ¬ ∃ record pending, Matches cache reservation record pending) ∨
      cache.validateReservation reservation = .ok () ∧
        ∃ record pending, Matches cache reservation record pending := by
  unfold validateReservation
  cases hrecord : cache.sequences.get? reservation.sequence with
  | none =>
      refine Or.inl ⟨_, rfl, ?_⟩
      rintro ⟨record, pending, h⟩
      have := h.live
      simp [hrecord] at this
  | some record =>
      rw [okOr_some, pure_bind]
      have hunique : ∀ other pending, Matches cache reservation other pending →
          record.pending = some pending := by
        intro other pending h
        have := h.live
        rw [hrecord, Option.some.injEq] at this
        exact this ▸ h.waiting
      cases hpending : record.pending with
      | none =>
          refine Or.inl ⟨_, rfl, ?_⟩
          rintro ⟨other, pending, h⟩
          simpa [hpending] using hunique other pending h
      | some pending =>
          rw [okOr_some, pure_bind]
          by_cases hsame : ¬ (pending.startPosition ≠ reservation.startPosition ∨
              pending.rows ≠ reservation.rows ∨ pending.segments ≠ reservation.segments ∨
              pending.nonce ≠ reservation.nonce)
          · rw [ensure_pos hsame]
            simp only [not_or, not_not] at hsame
            obtain ⟨h1, h2, h3, h4⟩ := hsame
            exact Or.inr ⟨rfl, record, pending, hrecord, hpending, h1.symm, h2.symm, h3.symm,
              h4.symm⟩
          · rw [ensure_neg hsame]
            refine Or.inl ⟨_, rfl, ?_⟩
            rintro ⟨other, found, h⟩
            obtain rfl : pending = found := by simpa [hpending] using hunique other found h
            exact hsame (by simp [h.startPosition, h.rows, h.segments, h.nonce])

/-! ## Page records -/

theorem markCommitted_ok {pageTokens : ℕ} {segments : List AppendSegment}
    (hnodup : (segments.map AppendSegment.page).Nodup)
    (hlive : ∀ id ∈ segments.map AppendSegment.page, ∃ page, cache.pages.get? id = some page) :
    ∃ pages', markCommitted pageTokens segments cache = .ok () { cache with pages := pages' } ∧
      Arena.Updated (fun id page => page.mark pageTokens segments id) cache.pages pages' := by
  induction segments generalizing cache with
  | nil => exact ⟨cache.pages, rfl, Arena.Updated.refl cache.pages⟩
  | cons segment rest ih =>
      rw [List.map_cons, List.nodup_cons] at hnodup
      obtain ⟨page, hpage⟩ := hlive segment.page (by simp)
      have hset := Arena.Updated.set { page with
        validTokens := segment.pageOffset + segment.rows
        sealed := decide (segment.pageOffset + segment.rows = pageTokens) } hpage
      obtain ⟨pages', hrun, hupdated⟩ := @ih { cache with
          pages := cache.pages.set segment.page { page with
            validTokens := segment.pageOffset + segment.rows
            sealed := decide (segment.pageOffset + segment.rows = pageTokens) } } hnodup.2 (by
        intro id hmem
        obtain ⟨found, hfound⟩ := hlive id (by
          rw [List.map_cons]
          exact List.mem_cons_of_mem _ hmem)
        refine ⟨found, ?_⟩
        simp only
        rw [Arena.get?_set hpage, if_neg, hfound]
        rintro rfl
        exact hnodup.1 hmem)
      refine ⟨pages', ?_, ?_⟩
      · rw [markCommitted, bind_ok (updatePage_ok _ hpage)]
        exact hrun
      · refine (hset.trans hupdated).congr fun id found hfound => ?_
        by_cases heq : id = segment.page
        · subst heq
          obtain rfl : page = found := by simpa [hpage] using hfound
          rw [if_pos rfl, PageRecord.mark_of_not_mem _ hnodup.1]
          simp [PageRecord.mark]
        · rw [if_neg heq]
          simp [PageRecord.mark, Ne.symm heq]

theorem sealedIds_ok {segments : List AppendSegment}
    (hopen : ∀ id ∈ segments.map AppendSegment.page, ∃ page, cache.pages.get? id = some page ∧
      page.sealed = false) :
    cache.sealedIds segments = .ok ((segments.filter fun segment =>
      segment.pageOffset + segment.rows = cache.config.pageTokens).map AppendSegment.page) := by
  induction segments with
  | nil => rfl
  | cons segment rest ih =>
      obtain ⟨page, hpage, hsealed⟩ := hopen segment.page (by simp)
      have hrun := ih fun id hmem => hopen id (by
        rw [List.map_cons]
        exact List.mem_cons_of_mem _ hmem)
      rw [sealedIds]
      by_cases hfull : segment.pageOffset + segment.rows = cache.config.pageTokens
      · rw [if_pos hfull, except_bind_ok (pageRecord_ok hpage), except_bind_ok hrun, hsealed,
          List.filter_cons_of_pos (by simpa using hfull), List.map_cons]
        rfl
      · rw [if_neg hfull, hrun, List.filter_cons_of_neg (by simpa using hfull)]

/-- A page record whose storage has gone. -/
def PageRecord.emptied {Page : Type} (page : PageRecord Page) : PageRecord Page :=
  { page with physical := none }

/-- Where releasing the records `ids` stops. -/
structure Stuck (pages pages' : Pages R.Page) (ids before : List PageId) (last : PageId)
    (after : List PageId) : Prop where
  split : ids = before ++ last :: after
  last_generation : last.generation = u32Max
  wf : pages'.WF
  advances : Arena.Advances pages pages'
  get? : ∀ id, pages'.get? id = if id ∈ before then none else
    (pages.get? id).map fun page => if id = last then PageRecord.emptied page else page

theorem releasePages_spec {ids : List PageId} (hids : ids.Nodup) (hwf : cache.pages.WF)
    (hlive : ∀ id ∈ ids, ∃ page, cache.pages.get? id = some page ∧ page.physical.isSome) :
    Ends (releasePages ids cache)
      (fun _ cache' => (∀ id ∈ ids, id.generation ≠ u32Max) ∧
        cache' = { cache with pages := cache'.pages } ∧ Removed cache.pages cache'.pages ids)
      (fun failure cache' => failure = .error (.idExhausted "page generation") ∧
        cache' = { cache with pages := cache'.pages } ∧
        ∃ before last after, Stuck cache.pages cache'.pages ids before last after) := by
  induction ids generalizing cache with
  | nil => exact ⟨by simp, rfl, hwf, Arena.Advances.refl _, by simp, rfl⟩
  | cons id rest ih =>
      obtain ⟨hnot, hrest⟩ := List.nodup_cons.mp hids
      obtain ⟨page, hpage, hphysical⟩ := hlive id (by simp)
      have hset : (cache.pages.set id (PageRecord.emptied page)).get? id =
          some (PageRecord.emptied page) := by
        rw [Arena.get?_set hpage, if_pos rfl]
      have hwf' : (cache.pages.set id (PageRecord.emptied page)).WF := Arena.wf_set hwf hpage
      rw [releasePages, bind_ok (reads_pageRecord hpage), modify_bind_run, ensure_pos hphysical,
        pure_bind_run]
      by_cases hgen : id.generation = u32Max
      · have hremove : removePage id { cache with
            pages := cache.pages.set id (PageRecord.emptied page) } =
              .error (.error (.idExhausted "page generation")) { cache with
                pages := cache.pages.set id (PageRecord.emptied page) } := by
          unfold removePage
          rw [get_bind_run, Arena.slot?_of_get? hset, okOr_some, pure_bind_run,
            ensure_neg (by simp [hgen]), throw_bind_run]
        refine Eq.mpr (congrArg (fun result => Ends result _ _) (bind_error hremove)) ?_
        refine ⟨rfl, rfl, [], id, rest, rfl, hgen, hwf', Arena.Advances.set hpage,
          fun other => ?_⟩
        simp only [List.not_mem_nil, if_false]
        rw [Arena.get?_set hpage]
        by_cases heq : other = id
        · subst heq
          simp [hpage]
        · simp [heq]
      · have hle : id.generation < u32Max :=
          Nat.lt_of_le_of_ne (Arena.generation_le_of_get? hwf hpage) hgen
        have hremove := @removePage_ok R { cache with
          pages := cache.pages.set id (PageRecord.emptied page) } id _ hset hle
        refine Eq.mpr (congrArg (fun result => Ends result _ _) (bind_ok hremove)) ?_
        have hadvances : Arena.Advances cache.pages
            ((cache.pages.set id (PageRecord.emptied page)).release id) :=
          (Arena.Advances.set hpage).trans (Arena.Advances.release _ id)
        have hget : ∀ other,
            ((cache.pages.set id (PageRecord.emptied page)).release id).get? other =
            if other = id then none else cache.pages.get? other := by
          intro other
          rw [Arena.get?_release hset, Arena.get?_set hpage]
          by_cases heq : other = id
          · simp [heq]
          · simp [heq]
        refine Ends.mono (ih hrest (Arena.wf_release hwf' hset hle) ?_) ?_ ?_
        · intro other hmem
          obtain ⟨found, hfound, hstorage⟩ := hlive other (List.mem_cons_of_mem _ hmem)
          refine ⟨found, ?_, hstorage⟩
          simp only
          rw [hget, if_neg, hfound]
          rintro rfl
          exact hnot hmem
        · rintro - cache' ⟨hgens, hstate, hwf'', hadvances', hget', hupcoming⟩
          refine ⟨?_, ?_, hwf'', hadvances.trans hadvances', fun other => ?_, ?_⟩
          · intro other hmem
            rcases List.mem_cons.mp hmem with rfl | hmem
            · exact hgen
            · exact hgens other hmem
          · rw [hstate]
          · rw [hget']
            simp only
            rw [hget]
            by_cases heq : other = id
            · simp [heq]
            · simp [heq]
          · rw [hupcoming, List.getLast?_cons]
            cases rest.getLast? with
            | none => exact Arena.upcoming_release hset
            | some last => rfl
        · rintro failure cache' ⟨hfailure, hstate, before, last, after, hsplit, hlast, hwf'',
            hadvances', hget'⟩
          refine ⟨hfailure, ?_, id :: before, last, after, by rw [hsplit]; rfl, hlast, hwf'',
            hadvances.trans hadvances', fun other => ?_⟩
          · rw [hstate]
          · rw [hget']
            simp only
            rw [hget]
            by_cases heq : other = id
            · simp [heq]
            · simp [heq]

/-! ## The backend's part -/

section Backend

variable {sequence : SequenceId} {record : SequenceRecord R.AppendTransaction}
variable {pending : PendingAppend R.AppendTransaction}

/-- The cache while the pending append of a sequence is taken. -/
def taken (cache : SequenceCache R) (sequence : SequenceId)
    (record : SequenceRecord R.AppendTransaction) : SequenceCache R :=
  { cache with sequences := cache.sequences.set sequence { record with pending := none } }

theorem finalizePending_cases {α : Type} (arguments : SequenceCache R → CacheResult R α)
    (call : α → CacheM R (Except R.Error Unit × R.AppendTransaction)) {resolved : α}
    {answer : Except R.Error Unit × R.AppendTransaction} {event : R.Event}
    (hrecord : cache.sequences.get? sequence = some record)
    (hpending : record.pending = some pending)
    (harguments : arguments (cache.taken sequence record) = .ok resolved)
    (hcall : call resolved (cache.taken sequence record) = .ok answer
      { cache.taken sequence record with backend := event :: cache.backend }) :
    (∃ error, answer.1 = .error error ∧
        finalizePending sequence pending arguments call cache =
          .error (.error (.backend error)) { cache with
            sequences := cache.sequences.set sequence
              (record.mapTransaction fun _ => answer.2)
            backend := event :: cache.backend }) ∨
      answer.1 = .ok () ∧ finalizePending sequence pending arguments call cache =
        .ok () { cache.taken sequence record with backend := event :: cache.backend } := by
  have hget : (cache.taken sequence record).sequences.get? sequence =
      some { record with pending := none } := by
    unfold taken
    rw [Arena.get?_set hrecord, if_pos rfl]
  unfold finalizePending
  rw [bind_ok (updateSequence_ok _ hrecord), get_bind_run,
    show ({ cache with
      sequences := cache.sequences.set sequence { record with pending := none } } :
        SequenceCache R) = cache.taken sequence record from rfl, harguments]
  simp only
  rw [bind_ok hcall]
  cases hanswer : answer.1 with
  | ok => exact Or.inr ⟨rfl, rfl⟩
  | error error =>
      refine Or.inl ⟨error, rfl, ?_⟩
      simp only
      unfold restorePending
      rw [bind_ok (@updateSequence_ok R { cache.taken sequence record with
        backend := event :: cache.backend } _ _ _ hget), throw_run]
      unfold taken SequenceRecord.mapTransaction
      simp only [Arena.set_set, hpending, Option.map_some]

/-- The backend refused to finalize an append with `error`. -/
def Declines (history : R.History) (error : R.Error) : Prop :=
  (∃ context transaction commit,
      (R.commitAppend history context transaction commit).1 = .error error) ∨
    ∃ context transaction restored released position,
      (R.abortAppend history context transaction restored released position).1 = .error error

/-- The backend refused with `error`, and the pending append was put back, perhaps with
another transaction. -/
structure PutBack (cache cache' : SequenceCache R) (sequence : SequenceId) (error : R.Error) :
    Prop where
  declined : Declines cache.backend error
  state : ∃ record transaction, cache.sequences.get? sequence = some record ∧
    cache' = { cache with
      sequences := cache.sequences.set sequence (record.mapTransaction fun _ => transaction)
      backend := cache'.backend }
  calls : Calls 0 cache.backend [] cache'.backend []

theorem quiet_restored (hrecord : cache.sequences.get? sequence = some record)
    (transaction : R.AppendTransaction) (history : R.History) :
    Quiet cache { cache with
      sequences := cache.sequences.set sequence (record.mapTransaction fun _ => transaction)
      backend := history } := by
  have hset : ∃ change : SequenceId → R.AppendTransaction → R.AppendTransaction,
      Arena.Updated (fun id record => record.mapTransaction (change id)) cache.sequences
        (cache.sequences.set sequence (record.mapTransaction fun _ => transaction)) := by
    refine ⟨fun id old => if id = sequence then transaction else old, ?_⟩
    refine (Arena.Updated.set _ hrecord).congr fun id found hfound => ?_
    by_cases heq : id = sequence
    · subst heq
      obtain rfl : record = found := by simpa [hrecord] using hfound
      simp
    · simp only [heq, if_false]
      exact found.mapTransaction_id
  constructor <;> first | rfl | exact hset | exact le_rfl | exact fun h => h

theorem PutBack.unchanged {cache' : SequenceCache R} {error : R.Error}
    (h : PutBack cache cache' sequence error) : Unchanged cache cache' := by
  refine ⟨?_, h.calls⟩
  obtain ⟨-, ⟨record, transaction, hrecord, hstate⟩, -⟩ := h
  rw [hstate]
  exact quiet_restored hrecord transaction _

end Backend

/-! ## After the backend accepted -/

/-- What a successful finalization of `committed` rows does. -/
structure Settled (cache cache' : SequenceCache R) (sequence : SequenceId)
    (record : SequenceRecord R.AppendTransaction) (pending : PendingAppend R.AppendTransaction)
    (committed : ℕ) (event : R.Event) : Prop where
  live : cache.sequences.get? sequence = some record
  waiting : record.pending = some pending
  committed_le : committed ≤ pending.rows
  state : cache' = ({ cache.putPages cache'.pages with
    backend := event :: cache.backend
    sequences := cache.sequences.set sequence
      (record.settle cache.config.pageTokens pending committed)
    stats := { (cache.putPages cache'.pages).stats with
      reservedPages := cache.stats.reservedPages +
        (releasedPages cache.config.pageTokens record pending committed).length } } :
      SequenceCache R).refresh
  pages : ∀ id, cache'.pages.get? id =
    if id ∈ releasedPages cache.config.pageTokens record pending committed then none
    else (cache.pages.get? id).map fun page => page.mark cache.config.pageTokens
      (segmentsDone cache.config.pageTokens record.position committed record.heldPages) id
  advances : Arena.Advances cache.pages cache'.pages
  length_pages : cache.pages.values.length = cache'.pages.values.length +
    (releasedPages cache.config.pageTokens record pending committed).length
  removable : ∀ id ∈ releasedPages cache.config.pageTokens record pending committed,
    id.generation ≠ u32Max
  upcoming : cache'.pages.upcoming 0 =
    match (releasedPages cache.config.pageTokens record pending committed).getLast? with
    | some id => Handle.new id.slot (id.generation + 1)
    | none => cache.pages.upcoming 0

/-- What a finalization that ran out of generations leaves behind. -/
structure Torn (cache cache' : SequenceCache R) (sequence : SequenceId)
    (record : SequenceRecord R.AppendTransaction) (pending : PendingAppend R.AppendTransaction)
    (committed : ℕ) (event : R.Event) (before : List PageId) (last : PageId)
    (after : List PageId) : Prop where
  live : cache.sequences.get? sequence = some record
  waiting : record.pending = some pending
  committed_le : committed ≤ pending.rows
  state : cache' = { cache.taken sequence record with
    backend := event :: cache.backend, pages := cache'.pages }
  split : releasedPages cache.config.pageTokens record pending committed =
    before ++ last :: after
  last_generation : last.generation = u32Max
  advances : Arena.Advances cache.pages cache'.pages
  pages : ∀ id, cache'.pages.get? id = if id ∈ before then none else
    (cache.pages.get? id).map fun page =>
      if id = last then PageRecord.emptied (page.mark cache.config.pageTokens
        (segmentsDone cache.config.pageTokens record.position committed record.heldPages) id)
      else page.mark cache.config.pageTokens
        (segmentsDone cache.config.pageTokens record.position committed record.heldPages) id

theorem Settled.sequences {cache' : SequenceCache R} {sequence : SequenceId}
    {record : SequenceRecord R.AppendTransaction} {pending : PendingAppend R.AppendTransaction}
    {committed : ℕ} {event : R.Event}
    (h : Settled cache cache' sequence record pending committed event) :
    cache'.sequences = cache.sequences.set sequence
      (record.settle cache.config.pageTokens pending committed) := by
  rw [h.state]
  rfl

theorem Settled.backend {cache' : SequenceCache R} {sequence : SequenceId}
    {record : SequenceRecord R.AppendTransaction} {pending : PendingAppend R.AppendTransaction}
    {committed : ℕ} {event : R.Event}
    (h : Settled cache cache' sequence record pending committed event) :
    cache'.backend = event :: cache.backend := by
  rw [h.state]
  rfl

section Settle

variable {sequence : SequenceId} {record : SequenceRecord R.AppendTransaction}
variable {pending : PendingAppend R.AppendTransaction} {committed : ℕ} {event : R.Event}
variable {marked pages' : Pages R.Page}

/-- Pages that the finalization writes or releases can still be written. -/
theorem pending_open (hinv : Inv orphans stray cache)
    (hrecord : cache.sequences.get? sequence = some record)
    (hpending : record.pending = some pending) {n : ℕ} {id : PageId}
    (hid : record.heldPages[n]? = some id)
    (hopen : record.position < (n + 1) * cache.config.pageTokens) :
    ∃ page, cache.pages.get? id = some page ∧ page.physical.isSome ∧ page.sealed = false := by
  obtain ⟨page, hpage, hok⟩ := (hinv.owned.sequence sequence record hrecord).held n id hid
  exact ⟨page, hpage, hok.storage, hok.writable (by simp [hpending]) hopen⟩

theorem newPages_open (hinv : Inv orphans stray cache)
    (hrecord : cache.sequences.get? sequence = some record)
    (hpending : record.pending = some pending) {id : PageId} (hmem : id ∈ pending.newPages) :
    ∃ page, cache.pages.get? id = some page ∧ page.physical.isSome ∧ page.sealed = false := by
  obtain ⟨n, hn⟩ := List.getElem?_of_mem hmem
  have hok := hinv.owned.sequence sequence record hrecord
  refine pending_open hinv hrecord hpending (n := record.pages.length + n) ?_ ?_
  · rw [heldPages_of_pending_some hpending, List.getElem?_append_right (by omega),
      Nat.add_sub_cancel_left, hn]
  · have := (ceilDiv_le_iff hinv.config.pageTokens_pos).mp hok.length_pages.ge
    have := Nat.mul_le_mul_right cache.config.pageTokens (Nat.le_add_right record.pages.length n)
    have := hinv.config.pageTokens_pos
    rw [Nat.succ_mul]
    omega

theorem written_open (hinv : Inv orphans stray cache)
    (hrecord : cache.sequences.get? sequence = some record)
    (hpending : record.pending = some pending) {id : PageId}
    (hmem : id ∈ (segmentsDone cache.config.pageTokens record.position committed
      record.heldPages).map AppendSegment.page) :
    id ∈ record.heldPages ∧
      ∃ page, cache.pages.get? id = some page ∧ page.physical.isSome ∧ page.sealed = false := by
  unfold segmentsDone at hmem
  split_ifs at hmem with hzero
  · simp at hmem
  unfold segmentsOf at hmem
  rw [map_page_segmentsFrom] at hmem
  obtain ⟨index, hindex⟩ := List.getElem?_of_mem hmem
  rw [List.getElem?_drop, List.getElem?_take] at hindex
  split_ifs at hindex with hlt
  refine ⟨List.mem_of_getElem? hindex, pending_open hinv hrecord hpending hindex ?_⟩
  rw [Nat.mul_comm]
  exact (Nat.lt_mul_div_succ record.position hinv.config.pageTokens_pos).trans_le
    (Nat.mul_le_mul_left _ (Nat.succ_le_succ (Nat.le_add_right _ _)))

theorem released_nodup (hok : SequenceOk orphans cache.config.pageTokens cache.pages record)
    (hpending : record.pending = some pending) (pageTokens committed : ℕ) :
    (keptPages pageTokens record pending committed ++
      releasedPages pageTokens record pending committed).Nodup := by
  have hnodup := hok.nodup
  rw [heldPages_of_pending_some hpending] at hnodup
  rw [kept_append_released]
  exact hnodup.of_append_right

/-- Releasing new pages does not change the reclaimable bytes. -/
theorem countP_released (hinv : Inv orphans stray cache)
    (hrecord : cache.sequences.get? sequence = some record)
    (hpending : record.pending = some pending)
    {update : PageId → PageRecord R.Page → PageRecord R.Page} {ids : List PageId}
    (hids : ids.Nodup) (hsubset : ids ⊆ pending.newPages)
    (hget : ∀ id, pages'.get? id = if id ∈ ids then none else
      (cache.pages.get? id).map (update id))
    (hrefs : ∀ id page, (update id page).activeRefs = page.activeRefs ∧
      (update id page).prefixRefs = page.prefixRefs) :
    pages'.values.countP PageRecord.isReclaimable =
        cache.pages.values.countP PageRecord.isReclaimable ∧
      cache.pages.values.length = pages'.values.length + ids.length := by
  have hlive : ∀ id ∈ ids, ∃ page, cache.pages.get? id = some page := by
    intro id hmem
    obtain ⟨page, hpage, -⟩ := newPages_open hinv hrecord hpending (hsubset hmem)
    exact ⟨page, hpage⟩
  have hrecords := map_get?_recordsOf hlive
  constructor
  · have hnone : ((recordsOf cache.pages ids).map fun page =>
        if page.isReclaimable then 1 else 0).sum = 0 := by
      rw [List.sum_eq_zero_iff]
      intro count hcount
      obtain ⟨page, hpage, rfl⟩ := List.mem_map.mp hcount
      obtain ⟨id, hmem, hid⟩ := List.mem_filterMap.mp hpage
      obtain ⟨found, hfound, -, hopen⟩ := newPages_open hinv hrecord hpending (hsubset hmem)
      obtain rfl : page = found := by simpa [hid] using hfound
      have hheld : id ∈ record.heldPages := by
        rw [heldPages_of_pending_some hpending]
        exact List.mem_append_right _ (hsubset hmem)
      have hone := (hinv.owned.only_holder hrecord hheld hid hopen).1
      simp [PageRecord.isReclaimable, hone]
    rw [← Arena.total_indicator, ← Arena.total_indicator, Arena.total_removeAll _ hids hrecords
      hget fun id page => by simp [PageRecord.isReclaimable, hrefs], hnone, Nat.add_zero]
  · rw [← Arena.total_one, ← Arena.total_one, Arena.total_removeAll _ hids hrecords hget
      fun _ _ => rfl]
    have hlength : (recordsOf cache.pages ids).length = ids.length := by
      simpa using congrArg List.length hrecords.symm
    simp [hlength]

/-- The state once the append is settled, before its statistics are published. -/
def settledState (cache : SequenceCache R) (sequence : SequenceId)
    (record : SequenceRecord R.AppendTransaction) (pending : PendingAppend R.AppendTransaction)
    (committed : ℕ) (event : R.Event) (pages' : Pages R.Page) : SequenceCache R :=
  { cache.putPages pages' with
    backend := event :: cache.backend
    sequences := cache.sequences.set sequence
      (record.settle cache.config.pageTokens pending committed)
    stats := { (cache.putPages pages').stats with
      reservedPages := cache.stats.reservedPages +
        (releasedPages cache.config.pageTokens record pending committed).length } }

/-- No page that the sequence already had is released. -/
theorem not_released (hok : SequenceOk orphans cache.config.pageTokens cache.pages record)
    (hpending : record.pending = some pending) {id : PageId}
    (hmem : id ∈ record.pages ++ keptPages cache.config.pageTokens record pending committed) :
    id ∉ releasedPages cache.config.pageTokens record pending committed := by
  intro hreleased
  have hnodup := hok.nodup
  rw [heldPages_of_pending_some hpending, ← kept_append_released cache.config.pageTokens record
    pending committed, ← List.append_assoc] at hnodup
  exact List.disjoint_of_nodup_append hnodup hmem hreleased

/-- The released pages had one holder, and the marked ones were open. -/
theorem settled_releases (hinv : Inv orphans stray cache)
    (hrecord : cache.sequences.get? sequence = some record)
    (hpending : record.pending = some pending) (hwf : pages'.WF)
    (hget : ∀ id, pages'.get? id =
      if id ∈ releasedPages cache.config.pageTokens record pending committed then none
      else (cache.pages.get? id).map fun page => page.mark cache.config.pageTokens
        (segmentsDone cache.config.pageTokens record.position committed record.heldPages) id) :
    Releases cache.pages pages'
      (releasedPages cache.config.pageTokens record pending committed) []
      (releasedPages cache.config.pageTokens record pending committed)
      ((segmentsDone cache.config.pageTokens record.position committed record.heldPages).map
        AppendSegment.page)
      (fun id page => { page.mark cache.config.pageTokens
        (segmentsDone cache.config.pageTokens record.position committed record.heldPages) id with
          activeRefs := page.activeRefs -
            (releasedPages cache.config.pageTokens record pending committed).count id }) := by
  have hok := hinv.owned.sequence sequence record hrecord
  have hreleased : (releasedPages cache.config.pageTokens record pending committed).Nodup :=
    (released_nodup hok hpending cache.config.pageTokens committed).of_append_right
  refine ⟨hwf, fun id => ?_, fun _ _ _ => rfl, fun _ _ _ => by simp, ?_, ?_, ?_⟩
  · rw [hget]
    split_ifs with hmem
    · rfl
    · congr 1
      funext page
      rw [List.count_eq_zero.mpr hmem, Nat.sub_zero]
      conv_rhs => rw [← @PageRecord.mark_activeRefs _ cache.config.pageTokens
        (segmentsDone cache.config.pageTokens record.position committed record.heldPages) id
        page]
  · intro id page _ hnot
    simp only [PageRecord.mark_of_not_mem page hnot, and_self]
  · intro id page hpage hmem
    obtain ⟨-, found, hfound, -, hopen⟩ := written_open hinv hrecord hpending hmem
    obtain rfl : page = found := by simpa [hpage] using hfound
    exact hopen
  · intro id page hpage
    simp only [List.not_mem_nil, or_false, List.count_nil]
    constructor
    · intro hmem
      have hnew : id ∈ pending.newPages := List.drop_subset _ _ hmem
      have hheld : id ∈ record.heldPages := by
        rw [heldPages_of_pending_some hpending]
        exact List.mem_append_right _ hnew
      obtain ⟨found, hfound, -, hopen⟩ := newPages_open hinv hrecord hpending hnew
      obtain rfl : page = found := by simpa [hpage] using hfound
      obtain ⟨hone, hzero, -⟩ := hinv.owned.only_holder hrecord hheld hpage hopen
      exact ⟨hmem, by rw [hone, List.count_eq_one_of_mem hreleased hmem], hzero⟩
    · exact And.left

/-- The sequence keeps its pages and those of the committed rows. -/
theorem settled_owned (hinv : Inv orphans stray cache)
    (hrecord : cache.sequences.get? sequence = some record)
    (hpending : record.pending = some pending) (hcommitted : committed ≤ pending.rows)
    (hwf : pages'.WF)
    (hget : ∀ id, pages'.get? id =
      if id ∈ releasedPages cache.config.pageTokens record pending committed then none
      else (cache.pages.get? id).map fun page => page.mark cache.config.pageTokens
        (segmentsDone cache.config.pageTokens record.position committed record.heldPages) id) :
    Owned orphans cache.config.pageTokens pages' (cache.sequences.set sequence
      (record.settle cache.config.pageTokens pending committed)) cache.prefixes := by
  have hok := hinv.owned.sequence sequence record hrecord
  refine hinv.owned.release (settled_releases hinv hrecord hpending hwf hget)
    (Arena.wf_set hinv.owned.sequences_wf hrecord) (fun id => ?_) (fun _ => rfl)
    (fun other found hfound => ?_) fun _ _ hentry => hentry
  · have hsum := Arena.total_set (fun record => record.heldPages.count id)
      (record.settle cache.config.pageTokens pending committed) hrecord
    have hnew : (record.settle cache.config.pageTokens pending committed).heldPages =
        record.pages ++ keptPages cache.config.pageTokens record pending committed :=
      List.append_nil _
    have hsplit := congrArg (List.count id) (kept_append_released cache.config.pageTokens
      record pending committed)
    rw [List.count_append] at hsplit
    simp only [hnew, heldPages_of_pending_some hpending, List.count_append] at hsum
    unfold activeCount
    omega
  · rw [Arena.get?_set hrecord] at hfound
    split_ifs at hfound with heq
    · cases hfound
      refine Or.inr (hok.settle hinv.config.pageTokens_pos hpending hcommitted
        fun id hmem page hpage => ?_)
      rw [hget, if_neg (not_released hok hpending hmem), hpage]
      rfl
    · refine Or.inl ⟨hfound, fun id hmem hin => ?_⟩
      obtain ⟨hmine, page, hpage, -, hopen⟩ := written_open hinv hrecord hpending hmem
      exact (hinv.owned.only_holder hrecord hmine hpage hopen).2.2 other found hfound heq hin

theorem settled_counted (hinv : Inv orphans stray cache)
    (hrecord : cache.sequences.get? sequence = some record)
    (hdeferred : deferredTotal (event :: cache.backend) = deferredTotal cache.backend) :
    Counted (cache.settledState sequence record pending committed event pages') := by
  have hset : ∀ weight : SequenceRecord R.AppendTransaction → ℕ,
      (cache.sequences.set sequence (record.settle cache.config.pageTokens pending committed)).total
        weight + weight record = cache.sequences.total weight +
          weight (record.settle cache.config.pageTokens pending committed) :=
    fun weight => Arena.total_set weight _ hrecord
  obtain ⟨hreserved, hprivate, htable, hsnapshot, -, hcount⟩ := hinv.counted
  refine ⟨?_, ?_, ?_, hsnapshot, rfl, hcount.trans hdeferred.symm⟩
  · have := hset SequenceRecord.reservedPages
    simp only [settledState, SequenceRecord.settle] at this ⊢
    omega
  · have := hset SequenceRecord.privateStateBytes
    simp only [settledState, SequenceRecord.settle, putPages] at this ⊢
    omega
  · have := hset SequenceRecord.pageTableBytes
    simp only [settledState, SequenceRecord.settle, putPages] at this ⊢
    omega

/-- Pages that are released become reservations again, so that the charge stays the same. -/
theorem settled_ready (hinv : Inv orphans stray cache)
    (hrecord : cache.sequences.get? sequence = some record)
    (hpending : record.pending = some pending) (hcommitted : committed ≤ pending.rows)
    (hdeferred : deferredTotal (event :: cache.backend) = deferredTotal cache.backend)
    (hwf : pages'.WF)
    (hget : ∀ id, pages'.get? id =
      if id ∈ releasedPages cache.config.pageTokens record pending committed then none
      else (cache.pages.get? id).map fun page => page.mark cache.config.pageTokens
        (segmentsDone cache.config.pageTokens record.position committed record.heldPages) id)
    (hlength : cache.pages.values.length = pages'.values.length +
      (releasedPages cache.config.pageTokens record pending committed).length) :
    Ready orphans stray
      (cache.settledState sequence record pending committed event pages') := by
  have hcharge := hinv.budgeted.held_le
  have hcharged := hinv.ready.charged_le
  constructor
  · obtain ⟨h1, h2, h3, h4, h5, h6⟩ := hinv.config
    exact ⟨h1, h2, h3, h4, h5, h6⟩
  · exact settled_owned hinv hrecord hpending hcommitted hwf hget
  · exact settled_counted hinv hrecord hdeferred
  · unfold chargedBytes at hcharge
    simp only [chargedBytes, settledState, putPages]
    rw [hlength, Nat.add_mul] at hcharge
    rw [Nat.add_mul]
    omega
  · unfold chargedBytes residentNow at hcharged
    simp only [chargedBytes, residentNow, settledState, putPages]
    rw [hlength, Nat.add_right_comm pages'.values.length,
      Nat.add_mul (pages'.values.length + cache.deferredPages)] at hcharged
    rw [Nat.add_mul cache.stats.reservedPages]
    omega
  · exact hinv.budgeted.snapshot_le
  · exact hinv.budgeted.entries_le
  · exact hinv.filed
  · exact hinv.ranked
  · exact hinv.clocked
  · exact hinv.ids_below
  · exact hinv.ids_bounded

theorem settle_ok (hinv : Inv orphans stray cache)
    (hrecord : cache.sequences.get? sequence = some record)
    (hpending : record.pending = some pending) (hcommitted : committed ≤ pending.rows)
    (hdeferred : deferredTotal (event :: cache.backend) = deferredTotal cache.backend)
    (hmarked : Arena.Updated (fun id page => page.mark cache.config.pageTokens
      (segmentsDone cache.config.pageTokens record.position committed record.heldPages) id)
      cache.pages marked)
    (hremoved : Removed marked pages'
      (releasedPages cache.config.pageTokens record pending committed))
    (hgens : ∀ id ∈ releasedPages cache.config.pageTokens record pending committed,
      id.generation ≠ u32Max)
    {update : SequenceRecord R.AppendTransaction → SequenceRecord R.AppendTransaction}
    (hupdate : update { record with pending := none } =
      record.settle cache.config.pageTokens pending committed) :
    ∃ cache', (do
        updateSequence sequence update
        updateStats fun stats => { stats with
          reservedPages := cache.stats.reservedPages +
            (releasedPages cache.config.pageTokens record pending committed).length }
        refreshStats) { cache.taken sequence record with
          backend := event :: cache.backend, pages := pages' } = .ok () cache' ∧
      Inv orphans stray cache' ∧
      Settled cache cache' sequence record pending committed event := by
  have hok := hinv.owned.sequence sequence record hrecord
  have hreleased : (releasedPages cache.config.pageTokens record pending committed).Nodup :=
    (released_nodup hok hpending cache.config.pageTokens committed).of_append_right
  have hget : ∀ id, pages'.get? id =
      if id ∈ releasedPages cache.config.pageTokens record pending committed then none
      else (cache.pages.get? id).map fun page => page.mark cache.config.pageTokens
        (segmentsDone cache.config.pageTokens record.position committed record.heldPages) id := by
    intro id
    rw [hremoved.get?, hmarked.get?]
  obtain ⟨hcount, hlength⟩ := countP_released hinv hrecord hpending hreleased
    (List.drop_subset _ _) hget
    fun _ _ => ⟨PageRecord.mark_activeRefs _, PageRecord.mark_prefixRefs _⟩
  have hready := settled_ready hinv hrecord hpending hcommitted hdeferred hremoved.wf hget hlength
  obtain ⟨hrun, hfinal⟩ := hready.refresh
  have hupcoming := hremoved.upcoming
  rw [hmarked.upcoming_eq] at hupcoming
  refine ⟨_, ?_, hfinal, ⟨hrecord, hpending, hcommitted, rfl, hget,
    (Arena.Advances.ofUpdated hmarked).trans hremoved.advances, hlength, hgens, hupcoming⟩⟩
  have hget' : ({ cache.taken sequence record with
      backend := event :: cache.backend, pages := pages' } : SequenceCache R).sequences.get?
        sequence = some { record with pending := none } := by
    simp only [taken]
    rw [Arena.get?_set hrecord, if_pos rfl]
  rw [bind_ok (updateSequence_ok _ hget'), bind_ok (updateStats_run _ _), hupdate]
  refine Eq.trans (congrArg refreshStats ?_) hrun
  simp only [taken, settledState, putPages, Arena.set_set]
  rw [hcount, ← hinv.counted.reclaimable]

/-- The state where the removal of released pages has stopped. -/
def tornState (cache : SequenceCache R) (sequence : SequenceId)
    (record : SequenceRecord R.AppendTransaction) (event : R.Event) (pages' : Pages R.Page) :
    SequenceCache R :=
  { cache.taken sequence record with backend := event :: cache.backend, pages := pages' }

/-- How the pages look where the removal has stopped: those before the last are gone. -/
def TornPages (cache : SequenceCache R) (record : SequenceRecord R.AppendTransaction)
    (committed : ℕ) (before : List PageId) (last : PageId) (pages' : Pages R.Page) : Prop :=
  ∀ id, pages'.get? id = if id ∈ before then none else
    (cache.pages.get? id).map fun page =>
      if id = last then PageRecord.emptied (page.mark cache.config.pageTokens
        (segmentsDone cache.config.pageTokens record.position committed record.heldPages) id)
      else page.mark cache.config.pageTokens
        (segmentsDone cache.config.pageTokens record.position committed record.heldPages) id

section Torn

variable {before after : List PageId} {last : PageId}

theorem torn_refs (id : PageId) (page : PageRecord R.Page) :
    (if id = last then PageRecord.emptied (page.mark cache.config.pageTokens
        (segmentsDone cache.config.pageTokens record.position committed record.heldPages) id)
      else page.mark cache.config.pageTokens
        (segmentsDone cache.config.pageTokens record.position committed record.heldPages)
          id).activeRefs = page.activeRefs ∧
    (if id = last then PageRecord.emptied (page.mark cache.config.pageTokens
        (segmentsDone cache.config.pageTokens record.position committed record.heldPages) id)
      else page.mark cache.config.pageTokens
        (segmentsDone cache.config.pageTokens record.position committed record.heldPages)
          id).prefixRefs = page.prefixRefs := by
  split_ifs <;> exact ⟨PageRecord.mark_activeRefs _, PageRecord.mark_prefixRefs _⟩

/-- The new pages are those that are gone, those that are kept and those that are stuck. -/
theorem torn_perm (hsplit : releasedPages cache.config.pageTokens record pending committed =
      before ++ last :: after) :
    (before ++ (keptPages cache.config.pageTokens record pending committed ++
      last :: after)).Perm pending.newPages := by
  rw [← kept_append_released cache.config.pageTokens record pending committed, hsplit,
    ← List.append_assoc, ← List.append_assoc]
  exact List.perm_append_comm.append_right _

/-- What a torn finalization has touched could still be written. -/
theorem torn_open (hinv : Inv orphans stray cache)
    (hrecord : cache.sequences.get? sequence = some record)
    (hpending : record.pending = some pending) (hlast : last ∈ pending.newPages) {id : PageId}
    (hmem : id ∈ (segmentsDone cache.config.pageTokens record.position committed
      record.heldPages).map AppendSegment.page ++ [last]) :
    id ∈ record.heldPages ∧
      ∃ page, cache.pages.get? id = some page ∧ page.physical.isSome ∧ page.sealed = false := by
  rcases List.mem_append.mp hmem with hsegment | hstuck
  · exact written_open hinv hrecord hpending hsegment
  · rw [List.mem_singleton.mp hstuck]
    refine ⟨?_, newPages_open hinv hrecord hpending hlast⟩
    rw [heldPages_of_pending_some hpending]
    exact List.mem_append_right _ hlast

theorem torn_owned (hinv : Inv orphans stray cache)
    (hrecord : cache.sequences.get? sequence = some record)
    (hpending : record.pending = some pending) (hwf : pages'.WF)
    (hget : TornPages cache record committed before last pages')
    (hsplit : releasedPages cache.config.pageTokens record pending committed =
      before ++ last :: after) :
    Owned (orphans ++ (keptPages cache.config.pageTokens record pending committed ++
        last :: after)) cache.config.pageTokens pages'
      (cache.sequences.set sequence { record with pending := none }) cache.prefixes := by
  have hok := hinv.owned.sequence sequence record hrecord
  have hperm := torn_perm hsplit
  have hnodup : record.pages.Disjoint pending.newPages ∧ pending.newPages.Nodup := by
    have hheld := hok.nodup
    rw [heldPages_of_pending_some hpending] at hheld
    exact ⟨List.disjoint_of_nodup_append hheld, hheld.of_append_right⟩
  have hlast : last ∈ pending.newPages := hperm.subset (by simp)
  refine @Owned.lose _ _ _ _ _ _ _ _ _ _ _ _ ((segmentsDone cache.config.pageTokens
    record.position committed record.heldPages).map AppendSegment.page ++ [last]) _ hinv.owned
    (by simp) hwf (Arena.wf_set hinv.owned.sequences_wf hrecord) hget torn_refs ?_
    (hperm.nodup_iff.mpr hnodup.2) ?_ (fun id => ?_) ?_
  · intro id page hnot
    simp only [List.mem_append, List.mem_singleton, not_or] at hnot
    rw [if_neg hnot.2, PageRecord.mark_of_not_mem page hnot.1]
    exact ⟨rfl, rfl, rfl⟩
  · intro id hmem
    rcases List.mem_append.mp hmem with hnew | hwritten
    · obtain ⟨page, hpage, -, hopen⟩ := newPages_open hinv hrecord hpending (hperm.subset hnew)
      exact ⟨page, hpage, hopen⟩
    · obtain ⟨-, page, hpage, -, hopen⟩ := torn_open hinv hrecord hpending hlast hwritten
      exact ⟨page, hpage, hopen⟩
  · have hsum := Arena.total_set (fun record => record.heldPages.count id)
      { record with pending := none } hrecord
    have hnew : ({ record with pending := none } :
        SequenceRecord R.AppendTransaction).heldPages = record.pages := List.append_nil _
    have hcounts := hperm.count_eq id
    rw [List.count_append] at hcounts
    simp only [hnew, heldPages_of_pending_some hpending, List.count_append] at hsum
    unfold activeCount
    omega
  · intro other found hfound
    rw [Arena.get?_set hrecord] at hfound
    split_ifs at hfound with heq
    · cases hfound
      refine Or.inr (@SequenceOk.torn _ _ _ _ _ _ _ _ _ committed hinv.config.pageTokens_pos hok
        hpending (by simp) ?_)
      intro id hmem page hpage
      have hnot : id ∉ pending.newPages := fun hin => hnodup.1 hmem hin
      have hne : id ≠ last := fun heq => hnot (heq ▸ hlast)
      change pages'.get? id = _
      rw [hget, if_neg fun hin => hnot (hperm.subset (List.mem_append_left _ hin)), hpage,
        Option.map_some, if_neg hne]
    · refine Or.inl ⟨hfound, fun id hmem hin => ?_⟩
      obtain ⟨hmine, page, hpage, -, hopen⟩ := torn_open hinv hrecord hpending hlast hmem
      exact (hinv.owned.only_holder hrecord hmine hpage hopen).2.2 other found hfound heq hin

theorem torn_counted (hinv : Inv orphans stray cache)
    (hrecord : cache.sequences.get? sequence = some record)
    (hdeferred : deferredTotal (event :: cache.backend) = deferredTotal cache.backend)
    (hcount : pages'.values.countP PageRecord.isReclaimable =
      cache.pages.values.countP PageRecord.isReclaimable) :
    Counted (cache.tornState sequence record event pages') := by
  have hset : ∀ weight : SequenceRecord R.AppendTransaction → ℕ,
      (cache.sequences.set sequence { record with pending := none }).total weight +
        weight record = cache.sequences.total weight + weight { record with pending := none } :=
    fun weight => Arena.total_set weight _ hrecord
  obtain ⟨hreserved, hprivate, htable, hsnapshot, hreclaimable, hdeferrals⟩ := hinv.counted
  refine ⟨?_, ?_, ?_, hsnapshot, ?_, hdeferrals.trans hdeferred.symm⟩
  · have := hset SequenceRecord.reservedPages
    simp only [tornState, taken] at this ⊢
    omega
  · have := hset SequenceRecord.privateStateBytes
    simp only [tornState, taken] at this ⊢
    omega
  · have := hset SequenceRecord.pageTableBytes
    simp only [tornState, taken] at this ⊢
    omega
  · exact hreclaimable.trans (congrArg (· * cache.pageBytes) hcount.symm)

/-- A finalization that stops half way leaves its pages without a holder. -/
theorem torn_inv (hinv : Inv orphans stray cache)
    (hrecord : cache.sequences.get? sequence = some record)
    (hpending : record.pending = some pending) (hcommitted : committed ≤ pending.rows)
    (hdeferred : deferredTotal (event :: cache.backend) = deferredTotal cache.backend)
    (hmarked : Arena.Updated (fun id page => page.mark cache.config.pageTokens
      (segmentsDone cache.config.pageTokens record.position committed record.heldPages) id)
      cache.pages marked)
    (hstuck : Stuck marked pages'
      (releasedPages cache.config.pageTokens record pending committed) before last after) :
    Inv (orphans ++ (keptPages cache.config.pageTokens record pending committed ++ last :: after))
        stray { cache.taken sequence record with
          backend := event :: cache.backend, pages := pages' } ∧
      Torn cache { cache.taken sequence record with
          backend := event :: cache.backend, pages := pages' } sequence record pending committed
        event before last after := by
  have hget : TornPages cache record committed before last pages' := by
    intro id
    rw [hstuck.get?, hmarked.get?, Option.map_map]
    rfl
  have hperm := torn_perm hstuck.split
  have hnodup : pending.newPages.Nodup := by
    have hheld := (hinv.owned.sequence sequence record hrecord).nodup
    rw [heldPages_of_pending_some hpending] at hheld
    exact hheld.of_append_right
  obtain ⟨hcount, hlength⟩ := countP_released hinv hrecord hpending
    (hperm.nodup_iff.mpr hnodup).of_append_left
    (fun id hmem => hperm.subset (List.mem_append_left _ hmem)) hget torn_refs
  refine ⟨?_, hrecord, hpending, hcommitted, rfl, hstuck.split, hstuck.last_generation,
    (Arena.Advances.ofUpdated hmarked).trans hstuck.advances, hget⟩
  constructor
  · obtain ⟨h1, h2, h3, h4, h5, h6⟩ := hinv.config
    exact ⟨h1, h2, h3, h4, h5, h6⟩
  · exact torn_owned hinv hrecord hpending hstuck.wf hget hstuck.split
  · exact torn_counted hinv hrecord hdeferred hcount
  · obtain ⟨h1, h2, h3, h4, h5⟩ := hinv.published
    have hvalues := (Arena.Updated.set { record with pending := none } hrecord).length_values
    refine ⟨?_, ?_, by simp, h4, h5⟩
    · simp only [accounts, chargedBytes, taken, hvalues]
      exact h1
    · simp only [residentNow, taken] at h2 ⊢
      omega
  · obtain ⟨h1, h2, h3, h4⟩ := hinv.budgeted
    refine ⟨?_, h2, h3, h4⟩
    have hmul := Nat.mul_le_mul_right cache.pageBytes (Nat.le.intro hlength.symm)
    unfold chargedBytes at h1
    simp only [chargedBytes, taken]
    omega
  · exact hinv.filed
  · exact hinv.ranked
  · exact hinv.clocked
  · exact hinv.ids_below
  · exact hinv.ids_bounded

end Torn

end Settle

/-! ## The steps -/

/-- The backend accepted the finalization of `committed` rows. -/
inductive Accepted (cache : SequenceCache R) (record : SequenceRecord R.AppendTransaction)
    (pending : PendingAppend R.AppendTransaction) (context : R.Context) : ℕ → R.Event → Prop
  | commit (commit : BackendAppendCommit R.Page) (transaction : R.AppendTransaction) :
      0 < commit.rows → commit.position = record.position + commit.rows →
      R.commitAppend cache.backend context pending.transaction commit = (.ok (), transaction) →
      Stored cache.pages
        (record.pages ++ keptPages cache.config.pageTokens record pending commit.rows)
        commit.committedPages →
      Stored cache.pages (releasedPages cache.config.pageTokens record pending commit.rows)
        commit.releasedPages →
      Stored cache.pages
        (filledPages cache.config.pageTokens record.position commit.rows record.heldPages)
        commit.sealedPages →
      Accepted cache record pending context commit.rows (.commitAppend context commit (.ok ()))
  | abort (restored released : List R.Page) (transaction : R.AppendTransaction) :
      R.abortAppend cache.backend context pending.transaction restored released
        record.position = (.ok (), transaction) →
      Stored cache.pages record.pages restored →
      Stored cache.pages (releasedPages cache.config.pageTokens record pending 0) released →
      Accepted cache record pending context 0
        (.abortAppend context restored released record.position (.ok ()))

/-- An abort hands the old table and position back to the backend. -/
theorem Accepted.abort_event {record : SequenceRecord R.AppendTransaction}
    {pending : PendingAppend R.AppendTransaction} {context : R.Context} {event : R.Event}
    (h : Accepted cache record pending context 0 event) : ∃ restored released,
      event = .abortAppend context restored released record.position (.ok ()) ∧
        Stored cache.pages record.pages restored := by
  generalize hzero : 0 = committed at h
  cases h with
  | commit commit transaction hrows _ _ _ _ _ => exact absurd hzero.symm hrows.ne'
  | abort restored released transaction _ hrestored _ => exact ⟨restored, released, rfl, hrestored⟩

/-- A finalization of `committed` rows that the backend accepted and that succeeded. -/
def Finalized (cache : SequenceCache R) (reservation : AppendReservation) (committed : ℕ)
    (context : R.Context) (cache' : SequenceCache R) : Prop :=
  ∃ record pending event, Matches cache reservation record pending ∧
    Accepted cache record pending context committed event ∧
    Settled cache cache' reservation.sequence record pending committed event

/-- A finalization that the backend accepted and that stopped half way. -/
def Interrupted (cache : SequenceCache R) (reservation : AppendReservation) (committed : ℕ)
    (context : R.Context) (lost : List PageId) (cache' : SequenceCache R) : Prop :=
  ∃ record pending event before last after, Matches cache reservation record pending ∧
    Accepted cache record pending context committed event ∧
    Torn cache cache' reservation.sequence record pending committed event before last after ∧
    lost = keptPages cache.config.pageTokens record pending committed ++ last :: after

theorem Accepted.deferredTotal_eq {record : SequenceRecord R.AppendTransaction}
    {pending : PendingAppend R.AppendTransaction} {context : R.Context} {committed : ℕ}
    {event : R.Event} (h : Accepted cache record pending context committed event) :
    deferredTotal (event :: cache.backend) = deferredTotal cache.backend := by
  cases h with
  | commit => rfl
  | abort => rfl

/-- What is left of a finalization once the backend has accepted it. -/
def settleWith (cache : SequenceCache R) (sequence : SequenceId)
    (record : SequenceRecord R.AppendTransaction) (pending : PendingAppend R.AppendTransaction)
    (committed : ℕ)
    (update : SequenceRecord R.AppendTransaction → SequenceRecord R.AppendTransaction) :
    CacheM R Unit := do
  markCommitted cache.config.pageTokens
    (segmentsDone cache.config.pageTokens record.position committed record.heldPages)
  releasePages (releasedPages cache.config.pageTokens record pending committed)
  updateSequence sequence update
  updateStats fun stats => { stats with
    reservedPages := cache.stats.reservedPages +
      (releasedPages cache.config.pageTokens record pending committed).length }
  refreshStats

/-- The answer of the backend decides whether the append is put back or settled. -/
def Hinges (result : EStateM.Result (Failure R.Error) (SequenceCache R) Unit)
    (cache : SequenceCache R) (sequence : SequenceId)
    (record : SequenceRecord R.AppendTransaction) (pending : PendingAppend R.AppendTransaction)
    (committed : ℕ) (answer : Except R.Error Unit × R.AppendTransaction) (event : R.Event) : Prop :=
  (∃ error, answer.1 = .error error ∧ result =
    .error (.error (.backend error)) { cache with
      sequences := cache.sequences.set sequence (record.mapTransaction fun _ => answer.2)
      backend := event :: cache.backend }) ∨
  answer.1 = .ok () ∧ ∃ update, update { record with pending := none } =
      record.settle cache.config.pageTokens pending committed ∧
    result = settleWith cache sequence record pending committed update
      { cache.taken sequence record with backend := event :: cache.backend }

section Steps

variable {reservation : AppendReservation} {record : SequenceRecord R.AppendTransaction}
variable {pending : PendingAppend R.AppendTransaction} {context : R.Context} {committed : ℕ}
variable {event : R.Event}

/-- Everything after the backend accepted. -/
theorem settle_spec (hinv : Inv orphans stray cache)
    (hmatches : Matches cache reservation record pending) (hcommitted : committed ≤ pending.rows)
    (haccepted : Accepted cache record pending context committed event)
    {update : SequenceRecord R.AppendTransaction → SequenceRecord R.AppendTransaction}
    (hupdate : update { record with pending := none } =
      record.settle cache.config.pageTokens pending committed) :
    Ends (settleWith cache reservation.sequence record pending committed update
        { cache.taken reservation.sequence record with backend := event :: cache.backend })
      (fun _ cache' => Inv orphans stray cache' ∧
        Finalized cache reservation committed context cache')
      (fun failure cache' => failure = .error (.idExhausted "page generation") ∧
        ∃ lost, Inv (orphans ++ lost) stray cache' ∧
          Interrupted cache reservation committed context lost cache') := by
  have hrecord := hmatches.live
  have hpending := hmatches.waiting
  have hok := hinv.owned.sequence _ record hrecord
  have hsegments : ((segmentsDone cache.config.pageTokens record.position committed
      record.heldPages).map AppendSegment.page).Nodup := by
    unfold segmentsDone
    split_ifs
    · exact List.nodup_nil
    · unfold segmentsOf
      rw [map_page_segmentsFrom]
      exact (hok.nodup.sublist (List.take_sublist _ _)).sublist (List.drop_sublist _ _)
  obtain ⟨marked, hmark, hmarked⟩ := @markCommitted_ok R
    { cache.taken reservation.sequence record with backend := event :: cache.backend } _ _
    hsegments (fun id hmem => by
      obtain ⟨-, page, hpage, -⟩ := written_open hinv hrecord hpending hmem
      exact ⟨page, hpage⟩)
  rw [settleWith, bind_ok hmark]
  have hnodup := (released_nodup hok hpending
    cache.config.pageTokens committed).of_append_right
  refine Ends.bind (Ends.mono (releasePages_spec hnodup (hmarked.wf hinv.owned.pages_wf) ?_)
    (fun _ _ h => h) ?_) ?_
  · intro id hmem
    obtain ⟨page, hpage, hphysical, -⟩ := newPages_open hinv hrecord hpending
      (List.mem_of_mem_drop hmem)
    refine ⟨page.mark cache.config.pageTokens (segmentsDone cache.config.pageTokens
      record.position committed record.heldPages) id, ?_, by rwa [PageRecord.mark_physical]⟩
    simp only
    rw [hmarked.get?]
    exact congrArg (Option.map _) hpage
  · rintro failure cache' ⟨hfailure, hstate, before, last, after, hstuck⟩
    generalize cache'.pages = pages' at hstate hstuck
    subst hstate
    obtain ⟨hlost, htorn⟩ := torn_inv hinv hrecord hpending hcommitted
      haccepted.deferredTotal_eq hmarked hstuck
    exact ⟨hfailure, _, hlost, record, pending, event, before, last, after, hmatches, haccepted,
      htorn, rfl⟩
  · rintro - released ⟨hgens, hstate, hremoved⟩
    generalize released.pages = pages' at hstate hremoved
    subst hstate
    obtain ⟨cache', hrun, hfinal, hsettled⟩ := settle_ok hinv hrecord hpending hcommitted
      haccepted.deferredTotal_eq hmarked hremoved hgens hupdate
    refine Eq.mpr (congrArg (fun result => Ends result _ _) hrun) ?_
    exact ⟨hfinal, record, pending, event, hmatches, haccepted, hsettled⟩

/-- A finalization that a check before the backend call rejects. -/
def Rejected (cache : SequenceCache R) (reservation : AppendReservation) (valid : Prop)
    (failure : Failure R.Error) : Prop :=
  (∃ error, cache.validateReservation reservation = .error error ∧ failure = .error error) ∨
    ¬ valid ∧ failure = .error .invalidPosition

/-- What is left of a failed finalization, where `valid` says that the number of rows is
admissible. -/
def FinalizeFails (orphans : List PageId) (stray : List TokenBlockId) (cache : SequenceCache R)
    (reservation : AppendReservation) (valid : Prop) (committed : ℕ) (context : R.Context)
    (failure : Failure R.Error) (cache' : SequenceCache R) : Prop :=
  (Rejected cache reservation valid failure ∧ cache' = cache) ∨
    (∃ error, failure = .error (.backend error) ∧
      PutBack cache cache' reservation.sequence error) ∨
    (failure = .error (.idExhausted "page generation") ∧ ∃ lost,
      Inv (orphans ++ lost) stray cache' ∧
        Interrupted cache reservation committed context lost cache')

theorem requireReservation_cases (cache : SequenceCache R) (reservation : AppendReservation) :
    (∃ error, cache.validateReservation reservation = .error error ∧
        requireReservation reservation cache = .error (.error error) cache) ∨
      requireReservation reservation cache = .ok () cache ∧
        ∃ record pending, Matches cache reservation record pending := by
  unfold requireReservation
  rcases validateReservation_cases cache reservation with ⟨error, herror, -⟩ | ⟨hok, hmatches⟩
  · refine Or.inl ⟨error, herror, reads_error _ ?_⟩
    rw [herror]
    rfl
  · refine Or.inr ⟨reads_ok _ ?_, hmatches⟩
    rw [hok]
    rfl

theorem Matches.requireReservation (h : Matches cache reservation record pending) :
    SequenceCache.requireReservation reservation cache = .ok () cache := by
  rcases validateReservation_cases cache reservation with ⟨error, -, hnone⟩ | ⟨hok, -⟩
  · exact absurd ⟨record, pending, h⟩ hnone
  · refine reads_ok _ ?_
    rw [hok]
    rfl

/-- Storage of pages that the sequence holds. -/
theorem heldRefs_ok (hinv : Inv orphans stray cache)
    (hmatches : Matches cache reservation record pending) (ids : List PageId)
    (hsubset : ids ⊆ record.heldPages) :
    ∃ table, physicalRefsFrom (cache.taken reservation.sequence record).pages ids = .ok table ∧
      Stored cache.pages ids table :=
  physicalRefsFrom_ok fun _ hmem => hinv.owned.live_of_held hmatches.live (hsubset hmem)

/-- The counters have room for the pages that a finalization releases. -/
theorem reserved_add_released_le (hinv : Inv orphans stray cache)
    {sequence : SequenceId} (hrecord : cache.sequences.get? sequence = some record)
    (hpending : record.pending = some pending) (committed : ℕ) :
    cache.stats.reservedPages +
        (releasedPages cache.config.pageTokens record pending committed).length ≤ usizeMax ∧
      record.reservedPages +
        (releasedPages cache.config.pageTokens record pending committed).length ≤ usizeMax := by
  have hok := hinv.owned.sequence sequence record hrecord
  have hlength := Arena.length_le_values (released_nodup hok hpending
    cache.config.pageTokens committed).of_append_right fun id hmem => by
      obtain ⟨page, hpage, -⟩ := newPages_open hinv hrecord hpending (List.mem_of_mem_drop hmem)
      exact ⟨page, hpage⟩
  have htotal := Arena.le_total SequenceRecord.reservedPages hrecord
  rw [← hinv.counted.reserved] at htotal
  have hheld := hinv.budgeted.held_le
  have hdouble := hinv.double_le
  have hmul := hinv.resident_le_mul (cache.pages.values.length + cache.stats.reservedPages)
  rw [Nat.add_mul] at hmul
  unfold chargedBytes at hheld
  omega

/-- A commit hands the tables of the sequence to the backend and does as it answers. -/
theorem commitAppend_hinges (hinv : Inv orphans stray cache)
    (hmatches : Matches cache reservation record pending) {committedRows : ℕ}
    (hcommitted : 0 < committedRows ∧ committedRows ≤ pending.rows) (context : R.Context) :
    ∃ commit : BackendAppendCommit R.Page, commit.rows = committedRows ∧
      commit.position = record.position + committedRows ∧
      Stored cache.pages
        (record.pages ++ keptPages cache.config.pageTokens record pending committedRows)
        commit.committedPages ∧
      Stored cache.pages (releasedPages cache.config.pageTokens record pending committedRows)
        commit.releasedPages ∧
      Stored cache.pages
        (filledPages cache.config.pageTokens record.position committedRows record.heldPages)
        commit.sealedPages ∧
      Hinges (commitAppend reservation committedRows context cache) cache reservation.sequence
        record pending committedRows
        (R.commitAppend cache.backend context pending.transaction commit)
        (.commitAppend context commit
          (R.commitAppend cache.backend context pending.transaction commit).1) := by
  have hrecord := hmatches.live
  have hpending := hmatches.waiting
  have hsequence := hinv.owned.sequence _ record hrecord
  have hpendingOk := hsequence.pending pending hpending
  have hpos := hinv.config.pageTokens_pos
  have hstart : reservation.startPosition = record.position := by
    rw [hmatches.startPosition, hpendingOk.start_eq]
  have hrows_le := hpendingOk.rows_le
  have hbounded := hsequence.bounded
  have hlength := hpendingOk.length_held
  have hmono := ceilDiv_mono hpos (Nat.le_add_right record.position committedRows)
  have hmono' := ceilDiv_mono hpos (Nat.add_le_add_left hcommitted.2 record.position)
  rw [← hsequence.length_pages] at hmono
  unfold commitAppend
  rw [bind_ok hmatches.requireReservation, ensure_pos (by rw [hmatches.rows]; omega), pure_bind_run,
    bind_ok (reads_ok (fun cache : SequenceCache R =>
      cache.sequenceRecord reservation.sequence) (sequenceRecord_eq_ok.mpr hrecord)), hpending,
    okOr_some, pure_bind_run, hstart, checkedAdd_of_le (by omega), okOr_some, pure_bind_run,
    get_bind_run, checkedDivCeil_of_le (by omega), okOr_some, pure_bind_run,
    checkedSub_of_le hmono, okOr_some, pure_bind_run, ensure_pos (by omega), pure_bind_run]
  simp only
  rw [show pending.newPages.take ((record.position + committedRows) ⌈/⌉ cache.config.pageTokens -
      record.pages.length) = keptPages cache.config.pageTokens record pending committedRows
        from rfl,
    show pending.newPages.drop ((record.position + committedRows) ⌈/⌉ cache.config.pageTokens -
      record.pages.length) = releasedPages cache.config.pageTokens record pending committedRows
        from rfl]
  have hroom := reserved_add_released_le hinv hrecord hpending committedRows
  rw [checkedAdd_of_le hroom.1, okOr_some, pure_bind_run, checkedAdd_of_le hroom.2, okOr_some,
    pure_bind_run, hmatches.segments, hpendingOk.segments_eq,
    committedSegments_eq hpos hcommitted.2]
  have hopen : ∀ id ∈ (segmentsDone cache.config.pageTokens record.position committedRows
      record.heldPages).map AppendSegment.page, ∃ page, cache.pages.get? id = some page ∧
        page.sealed = false := by
    intro id hmem
    obtain ⟨-, page, hpage, -, hsealed⟩ := written_open hinv hrecord hpending hmem
    exact ⟨page, hpage, hsealed⟩
  have hsealed := sealedIds_ok hopen
  rw [filled_segmentsDone hpos] at hsealed
  rw [bind_ok (reads_ok (fun state : SequenceCache R => state.sealedIds
    (segmentsDone cache.config.pageTokens record.position committedRows record.heldPages)) hsealed)]
  have hheld := heldPages_of_pending_some hpending
  obtain ⟨committedRefs, hcommittedRefs, hcommittedStored⟩ := heldRefs_ok hinv hmatches
    (record.pages ++ keptPages cache.config.pageTokens record pending committedRows) (by
      rw [hheld]
      exact List.append_subset.mpr ⟨List.subset_append_left _ _,
        List.subset_append_of_subset_right _ (List.take_subset _ _)⟩)
  obtain ⟨sealedRefs, hsealedRefs, hsealedStored⟩ := heldRefs_ok hinv hmatches
    (filledPages cache.config.pageTokens record.position committedRows record.heldPages)
    (List.Subset.trans (List.drop_subset _ _) (List.take_subset _ _))
  obtain ⟨releasedRefs, hreleasedRefs, hreleasedStored⟩ := heldRefs_ok hinv hmatches
    (releasedPages cache.config.pageTokens record pending committedRows) (by
      rw [hheld]
      exact List.subset_append_of_subset_right _ (List.drop_subset _ _))
  rcases finalizePending_cases
    (fun state => do
      let committedRefs ← physicalRefsFrom state.pages
        (record.pages ++ keptPages cache.config.pageTokens record pending committedRows)
      let sealedRefs ← physicalRefsFrom state.pages
        (filledPages cache.config.pageTokens record.position committedRows record.heldPages)
      let releasedRefs ← physicalRefsFrom state.pages
        (releasedPages cache.config.pageTokens record pending committedRows)
      pure (⟨committedRefs, sealedRefs, releasedRefs, committedRows,
        record.position + committedRows⟩ : BackendAppendCommit R.Page))
    (callCommitAppend context pending.transaction)
    hrecord hpending (by
      rw [except_bind_ok hcommittedRefs, except_bind_ok hsealedRefs, except_bind_ok hreleasedRefs]
      rfl) rfl with ⟨error, hanswer, hrun⟩ | ⟨hanswer, hrun⟩
  · exact ⟨_, rfl, rfl, hcommittedStored, hreleasedStored, hsealedStored,
      Or.inl ⟨error, hanswer, bind_error hrun⟩⟩
  · refine ⟨_, rfl, rfl, hcommittedStored, hreleasedStored, hsealedStored, Or.inr ⟨hanswer,
      fun current =>
        { current with
          pages := current.pages ++ keptPages cache.config.pageTokens record pending committedRows
          reservedPages := record.reservedPages +
            (releasedPages cache.config.pageTokens record pending committedRows).length
          position := record.position + committedRows }, rfl, ?_⟩⟩
    exact bind_ok hrun

theorem commitAppend_spec (hinv : Inv orphans stray cache) (reservation : AppendReservation)
    (committedRows : ℕ) (context : R.Context) :
    Ends (commitAppend reservation committedRows context cache)
      (fun _ cache' => Inv orphans stray cache' ∧
        Finalized cache reservation committedRows context cache')
      (FinalizeFails orphans stray cache reservation
        (committedRows ≠ 0 ∧ committedRows ≤ reservation.rows) committedRows context) := by
  rcases requireReservation_cases cache reservation with
    ⟨error, hinvalid, herror⟩ | ⟨hok, record, pending, hmatches⟩
  · rw [commitAppend, bind_error herror]
    exact Or.inl ⟨Or.inl ⟨error, hinvalid, rfl⟩, rfl⟩
  by_cases hrows : committedRows = 0 ∨ committedRows > reservation.rows
  · rw [commitAppend, bind_ok hok, ensure_neg (not_not_intro hrows), throw_bind_run]
    exact Or.inl ⟨Or.inr ⟨by omega, rfl⟩, rfl⟩
  rw [hmatches.rows] at hrows
  have hcommitted : 0 < committedRows ∧ committedRows ≤ pending.rows := by omega
  obtain ⟨commit, rfl, hposition, hheld, hreleased, hsealed, hhinges⟩ :=
    commitAppend_hinges hinv hmatches hcommitted context
  rcases hhinges with ⟨error, hanswer, hrun⟩ | ⟨hanswer, update, hupdate, hrun⟩
  · rw [hrun]
    refine Or.inr (Or.inl ⟨error, rfl, Or.inl ⟨context, _, _, hanswer⟩,
      ⟨record, _, hmatches.live, rfl⟩, .neutral _ .refl ?_⟩)
    rw [hanswer]
    rfl
  · rw [hrun, hanswer]
    exact Ends.mono (settle_spec hinv hmatches hcommitted.2 (Accepted.commit commit _ hcommitted.1
        hposition (Prod.ext hanswer rfl) hheld hreleased hsealed) hupdate)
      (fun _ _ h => h) (fun _ _ h => Or.inr (Or.inr h))

/-- What happens once the backend has carried out a finalization. -/
def CarriedOut (orphans : List PageId) (stray : List TokenBlockId) (cache : SequenceCache R)
    (reservation : AppendReservation) (committed : ℕ) (context : R.Context)
    (result : EStateM.Result (Failure R.Error) (SequenceCache R) Unit) : Prop :=
  Ends result
    (fun _ cache' => Inv orphans stray cache' ∧
      Finalized cache reservation committed context cache')
    (fun failure cache' => failure = .error (.idExhausted "page generation") ∧
      ∃ lost, Inv (orphans ++ lost) stray cache' ∧
        Interrupted cache reservation committed context lost cache')

/-- A commit that the backend accepts is not put back. -/
theorem commitAppend_accepted (hinv : Inv orphans stray cache)
    (hmatches : Matches cache reservation record pending)
    (hcommitted : 0 < committed ∧ committed ≤ pending.rows)
    (haccepted : Accepted cache record pending context committed event) :
    CarriedOut orphans stray cache reservation committed context
      (commitAppend reservation committed context cache) := by
  obtain ⟨commit, hrows, hposition, hheld, hreleased, hsealed, hhinges⟩ :=
    commitAppend_hinges hinv hmatches hcommitted context
  have hsame : (R.commitAppend cache.backend context pending.transaction commit).1 = .ok () := by
    obtain ⟨answered, transaction, -, hposition', hanswer, hheld', hreleased', hsealed'⟩ |
      ⟨restored, released, transaction, -, -, -⟩ := haccepted
    · have heq : commit = answered := by
        cases commit
        cases answered
        simp only [BackendAppendCommit.mk.injEq]
        exact ⟨hheld.unique hheld', hsealed.unique hsealed', hreleased.unique hreleased', hrows,
          hposition.trans hposition'.symm⟩
      rw [heq, hanswer]
    · exact absurd hcommitted.1 (Nat.lt_irrefl 0)
  rcases hhinges with ⟨error, hanswer, -⟩ | ⟨hanswer, update, hupdate, hrun⟩
  · rw [hsame] at hanswer
    cases hanswer
  · subst hrows
    rw [hrun, hanswer]
    exact settle_spec hinv hmatches hcommitted.2 (Accepted.commit commit _ hcommitted.1
      hposition (Prod.ext hanswer rfl) hheld hreleased hsealed) hupdate

/-- An abort hands the old table of the sequence to the backend and does as it answers. -/
theorem abortAppend_hinges (hinv : Inv orphans stray cache)
    (hmatches : Matches cache reservation record pending) (context : R.Context) :
    ∃ restored released, Stored cache.pages record.pages restored ∧
      Stored cache.pages (releasedPages cache.config.pageTokens record pending 0) released ∧
      Hinges (abortAppend reservation context cache) cache reservation.sequence record pending 0
        (R.abortAppend cache.backend context pending.transaction restored released record.position)
        (.abortAppend context restored released record.position
          (R.abortAppend cache.backend context pending.transaction restored released
            record.position).1) := by
  have hrecord := hmatches.live
  have hpending := hmatches.waiting
  have hsequence := hinv.owned.sequence _ record hrecord
  have hheld := heldPages_of_pending_some hpending
  have hreleased := @releasedPages_zero _ _ record pending hsequence.length_pages
  have hkept := @keptPages_zero _ _ record pending hsequence.length_pages
  have hroom := reserved_add_released_le hinv hrecord hpending 0
  rw [hreleased] at hroom
  unfold abortAppend
  rw [bind_ok hmatches.requireReservation, bind_ok (reads_ok (fun cache : SequenceCache R =>
      cache.sequenceRecord reservation.sequence) (sequenceRecord_eq_ok.mpr hrecord)), hpending,
    okOr_some, pure_bind_run, get_bind_run, checkedAdd_of_le hroom.1, okOr_some, pure_bind_run,
    checkedAdd_of_le hroom.2, okOr_some, pure_bind_run]
  obtain ⟨restoredRefs, hrestoredRefs, hrestoredStored⟩ := heldRefs_ok hinv hmatches
    record.pages (by rw [hheld]; exact List.subset_append_left _ _)
  obtain ⟨releasedRefs, hreleasedRefs, hreleasedStored⟩ := heldRefs_ok hinv hmatches
    pending.newPages (by rw [hheld]; exact List.subset_append_right _ _)
  rcases finalizePending_cases
    (fun state => do
      let restoredRefs ← physicalRefsFrom state.pages record.pages
      let releasedRefs ← physicalRefsFrom state.pages pending.newPages
      pure (restoredRefs, releasedRefs))
    (fun refs => callAbortAppend context pending.transaction refs.1 refs.2 record.position)
    hrecord hpending (by
      rw [except_bind_ok hrestoredRefs, except_bind_ok hreleasedRefs]
      rfl) rfl with ⟨error, hanswer, hrun⟩ | ⟨hanswer, hrun⟩
  · exact ⟨_, _, hrestoredStored, hreleased ▸ hreleasedStored,
      Or.inl ⟨error, hanswer, bind_error hrun⟩⟩
  · refine ⟨_, _, hrestoredStored, hreleased ▸ hreleasedStored, Or.inr ⟨hanswer,
      (fun current =>
        { current with reservedPages := record.reservedPages + pending.newPages.length }), ?_, ?_⟩⟩
    · unfold SequenceRecord.settle
      rw [hkept, hreleased, List.append_nil, Nat.add_zero]
    · rw [bind_ok hrun, settleWith, hreleased]
      rfl

theorem abortAppend_spec (hinv : Inv orphans stray cache) (reservation : AppendReservation)
    (context : R.Context) :
    Ends (abortAppend reservation context cache)
      (fun _ cache' => Inv orphans stray cache' ∧ Finalized cache reservation 0 context cache')
      (FinalizeFails orphans stray cache reservation True 0 context) := by
  rcases requireReservation_cases cache reservation with
    ⟨error, hinvalid, herror⟩ | ⟨-, record, pending, hmatches⟩
  · rw [abortAppend, bind_error herror]
    exact Or.inl ⟨Or.inl ⟨error, hinvalid, rfl⟩, rfl⟩
  obtain ⟨restored, released, hrestored, hreleased, hhinges⟩ :=
    abortAppend_hinges hinv hmatches context
  rcases hhinges with ⟨error, hanswer, hrun⟩ | ⟨hanswer, update, hupdate, hrun⟩
  · rw [hrun]
    refine Or.inr (Or.inl ⟨error, rfl, Or.inr ⟨context, _, _, _, _, hanswer⟩,
      ⟨record, _, hmatches.live, rfl⟩, .neutral _ .refl ?_⟩)
    rw [hanswer]
    rfl
  · rw [hrun, hanswer]
    exact Ends.mono (settle_spec hinv hmatches (Nat.zero_le _)
        (Accepted.abort restored released _ (Prod.ext hanswer rfl) hrestored hreleased) hupdate)
      (fun _ _ h => h) (fun _ _ h => Or.inr (Or.inr h))

/-- An abort that the backend accepts is not put back. -/
theorem abortAppend_accepted (hinv : Inv orphans stray cache)
    (hmatches : Matches cache reservation record pending)
    (haccepted : Accepted cache record pending context 0 event) :
    CarriedOut orphans stray cache reservation 0 context
      (abortAppend reservation context cache) := by
  obtain ⟨restored, released, hrestored, hreleased, hhinges⟩ :=
    abortAppend_hinges hinv hmatches context
  have hsame : (R.abortAppend cache.backend context pending.transaction restored released
      record.position).1 = .ok () := by
    generalize hzero : 0 = committed at haccepted
    obtain ⟨commit, transaction, hrows, -, -, -, -, -⟩ |
      ⟨restored', released', transaction, hanswer, hrestored', hreleased'⟩ := haccepted
    · exact absurd hzero.symm hrows.ne'
    · rw [hrestored.unique hrestored', hreleased.unique hreleased', hanswer]
  rcases hhinges with ⟨error, hanswer, -⟩ | ⟨hanswer, update, hupdate, hrun⟩
  · rw [hsame] at hanswer
    cases hanswer
  · rw [hrun, hanswer]
    exact settle_spec hinv hmatches (Nat.zero_le _)
      (Accepted.abort restored released _ (Prod.ext hanswer rfl) hrestored hreleased) hupdate

end Steps

end SequenceCache

end SeqCache
