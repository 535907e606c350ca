import SeqCache.Steps.Branch

/-!
# Reserving an append as a step

A reservation allocates the missing pages one by one, lets the backend prepare the
transaction, publishes the longer table, and only then registers the pages.  Every failure
on the way gives the allocations back.
-/

namespace SeqCache

open Machine Program Std

variable {R : Runtime}

/-! ## Histories -/

/-- The error that a call was answered with. -/
def BackendEvent.failure? {Page Context Transaction Error : Type} :
    BackendEvent Page Context Transaction Error → Option Error
  | .allocatePage _ (.error error) => some error
  | .prepareAppend _ _ _ (.error error) => some error
  | .abortAppend _ _ _ _ (.error error) => some error
  | .copyPartialPage _ _ _ (.error error) => some error
  | .commitAppend _ _ (.error error) => some error
  | .updatePageTable _ _ _ (.error error) => some error
  | .retirePages _ _ (.error failure) => some failure.error
  | .pollReclaimed _ (.error error) => some error
  | _ => none

/-- One of the calls after `history` was answered with `error`. -/
def Refuses (history history' : R.History) (error : R.Error) : Prop :=
  ∃ (added : R.History) (event : R.Event), history' = added ++ history ∧ event ∈ added ∧
    event.failure? = some error

theorem Refuses.ofSuffix {history middle history' : R.History} {error : R.Error}
    {event : R.Event} (h : history <:+ middle) (h' : event :: middle <:+ history')
    (hevent : event.failure? = some error) : Refuses history history' error := by
  obtain ⟨before, rfl⟩ := h
  obtain ⟨after, rfl⟩ := h'
  exact ⟨after ++ event :: before, event, by simp, by simp, hevent⟩

/-- A backend that answered no call with an error refuses none. -/
theorem not_refuses {history history' : R.History}
    (haccepted : history'.all (fun event => event.failure?.isNone) = true) (error : R.Error) :
    ¬ Refuses history history' error := by
  rintro ⟨added, event, hbackend, hmem, hfailure⟩
  rw [hbackend, List.all_append, Bool.and_eq_true] at haccepted
  have hnone := List.all_eq_true.mp haccepted.1 event hmem
  rw [hfailure] at hnone
  cases hnone

theorem Calls.rollbackAll {limit : ℕ} {history history' : R.History} {flight : List R.Page}
    (context : R.Context) (pages : List R.Page)
    (h : Calls limit history [] history' flight) (hperm : flight.Perm pages) :
    Calls limit history []
      ((pages.map (BackendEvent.rollbackPage context)).reverse ++ history') [] := by
  induction pages generalizing history' flight with
  | nil =>
      obtain rfl := hperm.eq_nil
      exact h
  | cons page rest ih =>
      rw [List.map_cons, List.reverse_cons, List.append_assoc]
      exact ih (.rollback context page h hperm) (List.Perm.refl rest)

namespace SequenceCache

variable {cache : SequenceCache R} {orphans : List PageId} {stray : List TokenBlockId}

/-- The cache after calls that may have used up a reservation nonce. -/
structure Attempted (limit : ℕ) (cache cache' : SequenceCache R) (flight : List R.Page) :
    Prop where
  state : cache' = { cache with
    backend := cache'.backend, appendNonce := cache'.appendNonce }
  nonce_le : cache.appendNonce ≤ cache'.appendNonce
  calls : Calls limit cache.backend [] cache'.backend flight

theorem Attempted.quiet {limit : ℕ} {cache' : SequenceCache R} {flight : List R.Page}
    (h : Attempted limit cache cache' flight) : Quiet cache cache' := by
  have hstate := h.state
  have hnonce := h.nonce_le
  generalize cache'.backend = history at hstate
  generalize cache'.appendNonce = nonce at hstate hnonce
  subst hstate
  constructor <;>
    first | rfl | exact Quiet.sequences_refl _ | exact le_rfl | exact hnonce | exact fun h => h

/-- The backend accepted the table of `record` extended by `allocations`, if there are
any. -/
def Extended (pages : Pages R.Page) (record : SequenceRecord R.AppendTransaction)
    (allocations : List R.Page) (context : R.Context) (history history' : R.History) : Prop :=
  (allocations = [] ∧ history' = history) ∨
    ∃ table, allocations ≠ [] ∧ Stored pages record.pages table ∧
      history' = .updatePageTable context (table ++ allocations) record.position (.ok ()) ::
        history

theorem Extended.deferredTotal_eq {pages : Pages R.Page}
    {record : SequenceRecord R.AppendTransaction} {allocations : List R.Page}
    {context : R.Context} {history history' : R.History}
    (h : Extended pages record allocations context history history') :
    deferredTotal history' = deferredTotal history := by
  rcases h with ⟨-, rfl⟩ | ⟨table, -, -, rfl⟩ <;> rfl

/-! ## Allocating -/

section Allocate

variable {limit : ℕ} {context : R.Context} {history : R.History}

/-- The calls that allocated `pages`, one after the other. -/
def allocationEvents (context : R.Context) (pages : List R.Page) : R.History :=
  (pages.map fun page => .allocatePage context (.ok page)).reverse

theorem allocatePages_spec {allocations : List R.Page} (count : ℕ)
    (hcalls : Calls limit history [] cache.backend allocations)
    (hsuffix : history <:+ cache.backend) (hlimit : allocations.length + count ≤ limit) :
    Ends (allocatePages context count allocations cache)
      (fun result cache' => Calls limit history [] cache'.backend result ∧
        history <:+ cache'.backend ∧ result.length = allocations.length + count ∧
        (∃ added, result = allocations ++ added ∧
          cache'.backend = allocationEvents context added ++ cache.backend) ∧
        cache' = { cache with backend := cache'.backend })
      (fun failure cache' => (∃ error, failure = .error (.backend error) ∧
          Refuses history cache'.backend error) ∧
        Calls limit history [] cache'.backend [] ∧
        cache' = { cache with backend := cache'.backend }) := by
  induction count generalizing cache allocations with
  | zero => exact ⟨hcalls, hsuffix, rfl, ⟨[], (List.append_nil _).symm, rfl⟩, rfl⟩
  | succ count ih =>
      rw [allocatePages]
      have hcall : ∀ answer, R.allocatePage cache.backend context = answer →
          callAllocatePage context cache = .ok answer
            { cache with backend := .allocatePage context answer :: cache.backend } := by
        rintro answer rfl
        rfl
      cases hanswer : R.allocatePage cache.backend context with
      | error error =>
          rw [bind_ok (hcall _ hanswer)]
          simp only
          rw [bind_ok (rollbackPages_ok context allocations.reverse), throw_run]
          refine ⟨⟨error, rfl, Refuses.ofSuffix hsuffix (List.suffix_append _ _) rfl⟩, ?_, rfl⟩
          refine Calls.rollbackAll context _ (.acquire _ hcalls rfl (by omega)) ?_
          rw [show BackendEvent.acquired (.allocatePage context (.error error) : R.Event) = []
            from rfl, List.append_nil]
          exact (List.reverse_perm allocations).symm
      | ok page =>
          rw [bind_ok (hcall _ hanswer)]
          simp only
          refine Ends.mono (ih (.acquire _ hcalls rfl (by omega))
            (hsuffix.trans (List.suffix_cons _ _)) ?_) ?_ ?_
          · rw [List.length_append]
            simp only [List.length_singleton]
            omega
          · rintro result cache' ⟨hcalls', hsuffix', hlength, ⟨added, hadded, hevents⟩, hstate⟩
            refine ⟨hcalls', hsuffix', ?_, ⟨page :: added, ?_, ?_⟩, ?_⟩
            · rw [hlength, List.length_append]
              simp only [List.length_singleton]
              omega
            · rw [hadded, List.append_assoc, List.singleton_append]
            · rw [hevents, allocationEvents, allocationEvents, List.map_cons, List.reverse_cons,
                List.append_assoc, List.singleton_append]
            · rw [hstate]
          · rintro failure cache' ⟨herror, hcalls', hstate⟩
            refine ⟨herror, hcalls', ?_⟩
            rw [hstate]

/-- Give everything in flight back and report the error. -/
theorem giveBack_spec {α : Type} {ok : α → SequenceCache R → Prop} {allocations : List R.Page}
    {event : R.Event} {error : R.Error}
    (hcalls : Calls limit history [] cache.backend allocations)
    (hsuffix : history <:+ cache.backend) (hneutral : event.isNeutral = true)
    (hevent : event.failure? = some error) :
    Ends ((do
        rollbackPages context allocations.reverse
        throw (.error (.backend error)) : CacheM R α)
          { cache with backend := event :: cache.backend }) ok
      (fun failure cache' => (∃ error, failure = .error (.backend error) ∧
          Refuses history cache'.backend error) ∧
        Calls limit history [] cache'.backend [] ∧
        cache' = { cache with backend := cache'.backend }) := by
  rw [bind_ok (rollbackPages_ok context allocations.reverse), throw_run]
  exact ⟨⟨error, rfl, Refuses.ofSuffix hsuffix (List.suffix_append _ _) hevent⟩,
    Calls.rollbackAll context _ (.neutral _ hcalls hneutral) (List.reverse_perm allocations).symm,
    rfl⟩

theorem preparedAllocations_ok {pageTokens rows : ℕ} (allocations : List R.Page)
    {inputOffset : ℕ} (hle : inputOffset ≤ rows) :
    ∃ prepared, preparedAllocations pageTokens rows allocations inputOffset = .ok prepared := by
  induction allocations generalizing inputOffset with
  | nil => exact ⟨[], rfl⟩
  | cons page rest ih =>
      obtain ⟨prepared, hprepared⟩ :=
        @ih (inputOffset + min (rows - inputOffset) pageTokens) (by omega)
      refine ⟨⟨page, 0, inputOffset, min (rows - inputOffset) pageTokens, false⟩ :: prepared, ?_⟩
      rw [preparedAllocations, checkedSub_of_le hle, okOr_some, pure_bind]
      simp only
      rw [except_bind_ok hprepared]
      rfl

theorem preparedPages_ok {record : SequenceRecord R.AppendTransaction} {rows : ℕ}
    (allocations : List R.Page)
    (hlive : ∀ id ∈ record.pages, ∃ page, cache.pages.get? id = some page ∧
      page.physical.isSome) :
    ∃ prepared, cache.preparedPages record rows allocations = .ok prepared := by
  unfold preparedPages
  cases htail : cache.writableTail record with
  | none => exact preparedAllocations_ok allocations (Nat.zero_le rows)
  | some tail =>
      have hmem : tail ∈ record.pages := by
        unfold writableTail at htail
        exact List.mem_of_getLast? (Option.filter_eq_some_iff.mp htail).1
      obtain ⟨page, hpage, hphysical⟩ := hlive tail hmem
      obtain ⟨storage, hstorage⟩ := Option.isSome_iff_exists.mp hphysical
      obtain ⟨prepared, hprepared⟩ := preparedAllocations_ok allocations (Nat.min_le_left rows
          (cache.config.pageTokens - record.position % cache.config.pageTokens))
      refine ⟨⟨storage, record.position % cache.config.pageTokens, 0, min rows
        (cache.config.pageTokens - record.position % cache.config.pageTokens), true⟩ :: prepared,
        ?_⟩
      simp only
      rw [physicalRef, hpage, okOr_some, pure_bind, hstorage, okOr_some, pure_bind,
        except_bind_ok hprepared]
      rfl

theorem prepareTransaction_spec {record : SequenceRecord R.AppendTransaction} {rows : ℕ}
    {allocations : List R.Page} (hcalls : Calls limit history [] cache.backend allocations)
    (hsuffix : history <:+ cache.backend)
    (hlive : ∀ id ∈ record.pages, ∃ page, cache.pages.get? id = some page ∧
      page.physical.isSome) :
    Ends (prepareTransaction record rows allocations context cache)
      (fun transaction cache' => Calls limit history [] cache'.backend allocations ∧
        history <:+ cache'.backend ∧ cache' = { cache with backend := cache'.backend } ∧
        ∃ descriptions, cache.preparedPages record rows allocations = .ok descriptions ∧
          cache'.backend = .prepareAppend context descriptions record.position (.ok transaction) ::
            cache.backend)
      (fun failure cache' => (∃ error, failure = .error (.backend error) ∧
          Refuses history cache'.backend error) ∧
        Calls limit history [] cache'.backend [] ∧
        cache' = { cache with backend := cache'.backend }) := by
  obtain ⟨prepared, hprepared⟩ := preparedPages_ok allocations hlive
  unfold prepareTransaction
  rw [bind_ok (reads_ok (fun cache : SequenceCache R =>
    cache.preparedPages record rows allocations) hprepared)]
  have hcall : ∀ answer, R.prepareAppend cache.backend context prepared record.position = answer →
      callPrepareAppend context prepared record.position cache = .ok answer
        { cache with
          backend := .prepareAppend context prepared record.position answer ::
            cache.backend } := by
    rintro answer rfl
    rfl
  cases hanswer : R.prepareAppend cache.backend context prepared record.position with
  | ok transaction =>
      rw [bind_ok (hcall _ hanswer)]
      exact ⟨.neutral _ hcalls rfl, hsuffix.trans (List.suffix_cons _ _), rfl, prepared, hprepared,
        rfl⟩
  | error error =>
      rw [bind_ok (hcall _ hanswer)]
      exact giveBack_spec hcalls hsuffix rfl rfl

theorem publishReserved_spec {record : SequenceRecord R.AppendTransaction}
    {allocations : List R.Page} (hcalls : Calls limit history [] cache.backend allocations)
    (hsuffix : history <:+ cache.backend)
    (hlive : ∀ id ∈ record.pages, ∃ page, cache.pages.get? id = some page ∧
      page.physical.isSome) :
    Ends (publishReserved record allocations context cache)
      (fun _ cache' => Extended cache.pages record allocations context cache.backend
          cache'.backend ∧ cache' = { cache with backend := cache'.backend })
      (fun failure cache' => (∃ error, failure = .error (.backend error) ∧
          Refuses history cache'.backend error) ∧
        Calls limit history [] cache'.backend [] ∧
        cache' = { cache with backend := cache'.backend }) := by
  unfold publishReserved
  split_ifs with hempty
  · exact ⟨Or.inl ⟨hempty, rfl⟩, rfl⟩
  · obtain ⟨table, htable, hstored⟩ := physicalRefsFrom_ok hlive
    rw [get_bind_run, bind_ok (reads_ok (fun _ : SequenceCache R =>
      physicalRefsFrom cache.pages record.pages) htable),
      bind_ok (callUpdatePageTable_run context (table ++ allocations) record.position cache)]
    cases hanswer : R.updatePageTable cache.backend context (table ++ allocations)
        record.position with
    | ok => exact ⟨Or.inr ⟨table, hempty, hstored, rfl⟩, rfl⟩
    | error error =>
        exact giveBack_spec hcalls hsuffix rfl rfl

end Allocate

/-! ## Segments -/

theorem appendSegments_ok {pageTokens position rows : ℕ} (hpos : 0 < pageTokens)
    {pages newPages : List PageId}
    (hlength : (pages ++ newPages).length = (position + rows) ⌈/⌉ pageTokens)
    (fuel : ℕ) {inputOffset n : ℕ} (hfuel : rows - inputOffset ≤ fuel)
    (hinput : inputOffset ≤ rows)
    (hstart : inputOffset < rows → max position (n * pageTokens) = position + inputOffset ∧
      n * pageTokens ≤ position + inputOffset ∧ position + inputOffset < (n + 1) * pageTokens)
    (hend : inputOffset = rows → (pages ++ newPages).length ≤ n) :
    (appendSegments pageTokens pages newPages rows fuel inputOffset (position + inputOffset) :
        CacheResult R (List AppendSegment)) =
      .ok (segmentsFrom pageTokens position rows n ((pages ++ newPages).drop n)) := by
  induction fuel generalizing inputOffset n with
  | zero =>
      obtain rfl : inputOffset = rows := by omega
      rw [appendSegments, List.drop_eq_nil_of_le (hend rfl)]
      rfl
  | succ fuel ih =>
      rw [appendSegments]
      by_cases hrest : inputOffset < rows
      · obtain ⟨hmax, hle, hlt⟩ := hstart hrest
        rw [Nat.succ_mul] at hlt
        have hpage : (position + inputOffset) / pageTokens = n :=
          Nat.div_eq_of_lt_le hle (by rw [Nat.succ_mul]; exact hlt)
        have hoffset : (position + inputOffset) % pageTokens =
            position + inputOffset - n * pageTokens := by
          have := Nat.div_add_mod' (position + inputOffset) pageTokens
          rw [hpage] at this
          omega
        have hn : n < (pages ++ newPages).length := by
          rw [hlength, lt_ceilDiv_iff hpos]
          omega
        have hlookup : (if n < pages.length then pages[n]? else newPages[n - pages.length]?) =
            some ((pages ++ newPages)[n]) := by
          rw [← List.getElem?_eq_getElem hn, List.getElem?_append]
        rw [if_pos hrest]
        simp only [hpage, hoffset, hlookup, okOr_some, pure_bind]
        have hrows : min (rows - inputOffset)
            (pageTokens - (position + inputOffset - n * pageTokens)) =
              min (position + rows) ((n + 1) * pageTokens) - max position (n * pageTokens) := by
          rw [hmax, Nat.succ_mul]
          omega
        have hnext : (appendSegments pageTokens pages newPages rows fuel
            (inputOffset + min (rows - inputOffset)
              (pageTokens - (position + inputOffset - n * pageTokens)))
            (position + inputOffset + min (rows - inputOffset)
              (pageTokens - (position + inputOffset - n * pageTokens))) :
                CacheResult R (List AppendSegment)) =
            .ok (segmentsFrom pageTokens position rows (n + 1)
              ((pages ++ newPages).drop (n + 1))) := by
          rw [Nat.add_assoc]
          refine ih (by omega) (by omega) ?_ ?_
          · intro hmore
            have hfull : position + (inputOffset + min (rows - inputOffset)
                (pageTokens - (position + inputOffset - n * pageTokens))) =
                  (n + 1) * pageTokens := by
              rw [Nat.succ_mul]
              omega
            rw [hfull, Nat.succ_mul (n + 1)]
            refine ⟨max_eq_right ?_, le_rfl, by omega⟩
            rw [Nat.succ_mul]
            omega
          · intro hdone
            rw [hlength, ceilDiv_le_iff hpos, Nat.succ_mul]
            omega
        rw [except_bind_ok hnext, List.drop_eq_getElem_cons hn, segmentsFrom]
        simp only [segmentAt, ← hrows]
        rw [hmax, Nat.add_sub_cancel_left]
        rfl
      · obtain rfl : inputOffset = rows := by omega
        rw [if_neg hrest, List.drop_eq_nil_of_le (hend rfl)]
        rfl

end SequenceCache

/-! ## Registering the pending append -/

/-- The record of a sequence with a new pending append over the pages `fresh`. -/
def SequenceRecord.reserve {Transaction : Type} (record : SequenceRecord Transaction)
    (pageTokens rows nonce : ℕ) (fresh : List PageId) (transaction : Transaction) :
    SequenceRecord Transaction :=
  { record with
    reservedPages := record.reservedPages - fresh.length
    pending := some
      { startPosition := record.position
        rows := rows
        segments := segmentsOf pageTokens record.position rows (record.pages ++ fresh)
        newPages := fresh
        nonce := nonce
        transaction := transaction } }

theorem SequenceOk.reserve {Page Transaction : Type} {orphans : List PageId} {pageTokens : ℕ}
    {pages pages' : Pages Page} {record : SequenceRecord Transaction} {fresh : List PageId}
    {rows nonce : ℕ} {transaction : Transaction} (h : SequenceOk orphans pageTokens pages record)
    (hpos : 0 < pageTokens) (hpending : record.pending = none) (hrows : 0 < rows)
    (hle : record.position + rows ≤ record.maxPosition)
    (hlength : record.pages.length + fresh.length = (record.position + rows) ⌈/⌉ pageTokens)
    (hreserved : fresh.length ≤ record.reservedPages)
    (htail : ∀ n id page, record.pages[n]? = some id → record.position < (n + 1) * pageTokens →
      pages.get? id = some page → page.sealed = false)
    (hgrows : Grows pages pages' [] fresh)
    (hfresh : ∀ id ∈ fresh, ∃ page, pages'.get? id = some page ∧ page.physical.isSome ∧
      page.validTokens = 0 ∧ page.sealed = false) :
    SequenceOk orphans pageTokens pages'
      (record.reserve pageTokens rows nonce fresh transaction) := by
  have hold := heldPages_of_pending_none hpending
  have hnew : (record.reserve pageTokens rows nonce fresh transaction).heldPages =
      record.pages ++ fresh := rfl
  have hlength_le := h.length_le
  have hlength_total := h.length_total
  rw [hold] at hlength_le hlength_total
  refine ⟨h.position_le, h.bounded, h.length_pages, ?_, ?_, ?_, ?_, ?_⟩
  · rw [hnew, List.length_append]
    simp only [SequenceRecord.reserve]
    omega
  · intro hnil
    have := hlength_total hnil
    rw [hnew, List.length_append]
    simp only [SequenceRecord.reserve]
    omega
  · rw [hnew]
    refine (hold ▸ h.nodup).append hgrows.nodup fun id hmem hin => ?_
    obtain ⟨page, hpage, -⟩ := h.live (hold ▸ hmem)
    simp [hgrows.absent id hin] at hpage
  · intro n id hid
    rw [hnew, List.getElem?_append] at hid
    split_ifs at hid with hn
    · obtain ⟨page, hpage, hok⟩ := h.held n id (hold ▸ hid)
      obtain ⟨page', hpage', hphysical, hvalid, hsealed⟩ := hgrows.keeps id page hpage
      refine ⟨page', hpage', ?_, ?_, ?_, ?_⟩
      · rw [hphysical]
        exact hok.storage
      · rw [hsealed, hvalid]
        exact hok.complete
      · intro _ hopen
        rw [hsealed]
        exact htail n id page hid hopen hpage
      · rw [hsealed, hvalid]
        exact hok.rows
    · obtain ⟨page, hpage, hphysical, hvalid, hsealed⟩ := hfresh id (List.mem_of_getElem? hid)
      have hbeyond : record.position ≤ n * pageTokens := by
        rw [← ceilDiv_le_iff hpos, ← h.length_pages]
        omega
      have hrows : validRows pageTokens record.position n = 0 := by
        unfold validRows
        omega
      refine ⟨page, hpage, hphysical, ?_, fun _ _ => hsealed, fun _ => ?_⟩
      · intro hfull
        change (n + 1) * pageTokens ≤ record.position at hfull
        rw [Nat.succ_mul] at hfull
        omega
      · change page.validTokens = validRows pageTokens record.position n ∧
          (page.sealed = true ↔ validRows pageTokens record.position n = pageTokens)
        rw [hrows, hsealed]
        refine ⟨hvalid, ?_⟩
        constructor
        · intro hfalse
          cases hfalse
        · omega
  · intro pending hsome
    cases hsome
    exact ⟨rfl, hrows, hle, hlength, rfl⟩

namespace SequenceCache

variable {cache : SequenceCache R} {orphans : List PageId} {stray : List TokenBlockId}

/-- What a successful reservation does.  The backend has been through `prepared` when the
longer table is published. -/
structure Reserved (cache cache' : SequenceCache R) (sequence : SequenceId)
    (record : SequenceRecord R.AppendTransaction) (rows : ℕ) (context : R.Context)
    (transaction : R.AppendTransaction) (fresh : List PageId) (allocations : List R.Page)
    (prepared : R.History) : Prop where
  live : cache.sequences.get? sequence = some record
  pending : record.pending = none
  rows_pos : 0 < rows
  rows_le : record.position + rows ≤ record.maxPosition
  state : cache' = ({ cache.putPages cache'.pages with
    backend := cache'.backend
    appendNonce := cache.appendNonce + 1
    sequences := cache.sequences.set sequence
      (record.reserve cache.config.pageTokens rows cache.appendNonce fresh transaction)
    stats := { (cache.putPages cache'.pages).stats with
      reservedPages := cache.stats.reservedPages - fresh.length } } : SequenceCache R).refresh
  length_table : record.pages.length + fresh.length =
    (record.position + rows) ⌈/⌉ cache.config.pageTokens
  granted : fresh.length ≤ record.reservedPages
  issued : fresh = cache.pages.issued fresh.length
  pages : Grows cache.pages cache'.pages [] fresh
  length_pages : cache'.pages.values.length = cache.pages.values.length + fresh.length
  records : fresh.map cache'.pages.get? = allocations.map (fun page => some (privatePage page))
  reserved_le : fresh.length ≤ cache.stats.reservedPages
  calls : Calls fresh.length cache.backend [] prepared allocations
  described : ∃ descriptions, cache.preparedPages record rows allocations = .ok descriptions ∧
    prepared = .prepareAppend context descriptions record.position (.ok transaction) ::
      (allocationEvents context allocations ++ cache.backend)
  extended : Extended cache.pages record allocations context prepared cache'.backend

/-- The sequence can take `rows` more rows. -/
def Reservable (cache : SequenceCache R) (sequence : SequenceId) (rows : ℕ) : Prop :=
  0 < rows ∧ ∃ record, cache.sequences.get? sequence = some record ∧ record.pending = none ∧
    record.position + rows ≤ record.maxPosition

/-- Pages that the next `rows` rows need beyond those of the sequence. -/
def missingPages (cache : SequenceCache R) (record : SequenceRecord R.AppendTransaction)
    (rows : ℕ) : ℕ :=
  (record.position + rows) ⌈/⌉ cache.config.pageTokens - record.pages.length

/-- The nonces or the page slots do not suffice for another reservation. -/
def Depleted (cache : SequenceCache R) (sequence : SequenceId) (rows : ℕ) : Prop :=
  usizeMax < cache.appendNonce + 1 ∨ ∃ record, cache.sequences.get? sequence = some record ∧
    2 ^ 32 < cache.pages.values.length + cache.missingPages record rows

/-- Why a reservation fails. -/
def ReserveFails (cache : SequenceCache R) (sequence : SequenceId) (rows : ℕ)
    (failure : Failure R.Error) (cache' : SequenceCache R) : Prop :=
  (∃ error, failure = .error (.backend error) ∧ Refuses cache.backend cache'.backend error) ∨
    (∃ kind, failure = .error (.idExhausted kind)) ∧ Depleted cache sequence rows ∨
    (∃ error, failure = .error error) ∧ ¬ Reservable cache sequence rows

theorem nextAppendNonce_cases (cache : SequenceCache R) :
    (usizeMax < cache.appendNonce + 1 ∧
        nextAppendNonce cache = .error (.error (.idExhausted "append")) cache) ∨
      nextAppendNonce cache =
        .ok cache.appendNonce { cache with appendNonce := cache.appendNonce + 1 } := by
  unfold nextAppendNonce
  rw [get_bind_run]
  by_cases hroom : cache.appendNonce + 1 ≤ usizeMax
  · rw [checkedAdd_of_le hroom, okOr_some, pure_bind_run, modify_bind_run, pure_run]
    exact Or.inr rfl
  · rw [show checkedAdd cache.appendNonce 1 = none by simp [checkedAdd, hroom]]
    exact Or.inl ⟨Nat.lt_of_not_le hroom, rfl⟩

/-- The tail that a sequence would write is not sealed and not shared. -/
theorem checkWritableTail_iff {record : SequenceRecord R.AppendTransaction} {source : SequenceId}
    (hinv : Inv orphans stray cache) (hrecord : cache.sequences.get? source = some record) :
    cache.checkWritableTail record =
        .error (.error (.invariant "writable tail is not private")) ∧ orphans ≠ [] ∨
      cache.checkWritableTail record = .ok () ∧
        ∀ n id page, record.pages[n]? = some id →
          record.position < (n + 1) * cache.config.pageTokens → cache.pages.get? id = some page →
            page.sealed = false := by
  have hok := hinv.owned.sequence source record hrecord
  have hpos := hinv.config.pageTokens_pos
  have hlast : ∀ n, n < record.pages.length →
      record.position < (n + 1) * cache.config.pageTokens → n + 1 = record.pages.length := by
    intro n hn hlt
    have := (ceilDiv_le_iff hpos).mpr hlt.le
    rw [← hok.length_pages] at this
    omega
  unfold checkWritableTail
  cases htail : cache.writableTail record with
  | none =>
      refine Or.inr ⟨rfl, fun n id page hn hlt hpage => ?_⟩
      have hindex := (List.getElem?_eq_some_iff.mp hn).1
      have hlength := hlast n hindex hlt
      unfold writableTail at htail
      rw [List.getLast?_eq_getElem?, show record.pages.length - 1 = n by omega, hn,
        Option.filter_eq_none_iff] at htail
      have haligned := htail id rfl
      simp only [ne_eq, decide_not, Bool.not_eq_true, Bool.not_eq_false', decide_eq_true_eq]
        at haligned
      have hpages := hok.length_pages
      rw [ceilDiv_of_aligned hpos haligned, ← hlength] at hpages
      have := Nat.div_mul_cancel (Nat.dvd_of_mod_eq_zero haligned)
      rw [← hpages] at this
      omega
  | some tail =>
      unfold writableTail at htail
      obtain ⟨hgetLast, hunaligned⟩ := Option.filter_eq_some_iff.mp htail
      have hunaligned : record.position % cache.config.pageTokens ≠ 0 := by simpa using hunaligned
      rw [List.getLast?_eq_getElem?] at hgetLast
      have hmem := List.mem_of_getElem? hgetLast
      have hindex := (List.getElem?_eq_some_iff.mp hgetLast).1
      have hheld : record.heldPages[record.pages.length - 1]? = some tail := by
        unfold SequenceRecord.heldPages
        rw [List.getElem?_append_left hindex, hgetLast]
      obtain ⟨page, hpage, hpageOk⟩ := hok.held _ _ hheld
      have hactive := activeCount_pos hrecord (mem_pages_heldPages hmem)
      have hrefs := hinv.owned.page tail page hpage
      have hrefs_active := hrefs.active_refs
      simp only
      rw [except_bind_ok (pageRecord_ok hpage)]
      by_cases hsealed : page.sealed = true
      · rw [ensure_neg (by simp [hsealed])]
        refine Or.inl ⟨rfl, fun hnil => ?_⟩
        have hfull := (hpageOk.rows hnil).2.mp hsealed
        have hpages := hok.length_pages
        rw [ceilDiv_of_unaligned hpos hunaligned] at hpages
        have := Nat.mod_lt record.position hpos
        have := Nat.div_add_mod' record.position cache.config.pageTokens
        unfold validRows at hfull
        rw [hpages, Nat.add_sub_cancel] at hfull
        omega
      · have hopen : page.sealed = false := by simpa using hsealed
        obtain ⟨hone, hzero⟩ := hrefs.unshared hopen
        rw [ensure_pos (by simp [hopen]; omega)]
        refine Or.inr ⟨rfl, fun n id other hn hlt hother => ?_⟩
        have hlength := hlast n (List.getElem?_eq_some_iff.mp hn).1 hlt
        rw [show record.pages.length - 1 = n by omega, hn] at hgetLast
        cases hgetLast
        rw [hpage] at hother
        cases hother
        exact hopen

section Register

variable {sequence : SequenceId} {record : SequenceRecord R.AppendTransaction} {rows : ℕ}
variable {fresh : List PageId} {allocations : List R.Page} {pages' : Pages R.Page}
variable {prepared history : R.History} {transaction : R.AppendTransaction}
variable {context : R.Context}

/-- The state once the append is registered, before its statistics are published. -/
def reservedState (cache : SequenceCache R) (sequence : SequenceId)
    (record : SequenceRecord R.AppendTransaction) (rows : ℕ) (fresh : List PageId)
    (transaction : R.AppendTransaction) (history : R.History) (pages' : Pages R.Page) :
    SequenceCache R :=
  { cache.putPages pages' with
    backend := history
    appendNonce := cache.appendNonce + 1
    sequences := cache.sequences.set sequence
      (record.reserve cache.config.pageTokens rows cache.appendNonce fresh transaction)
    stats := { (cache.putPages pages').stats with
      reservedPages := cache.stats.reservedPages - fresh.length } }

/-- The new pages have the sequence as their only holder. -/
theorem reserved_owned (hinv : Inv orphans stray cache)
    (hrecord : cache.sequences.get? sequence = some record) (hpending : record.pending = none)
    (hgrows : Grows cache.pages pages' [] fresh)
    (hok : SequenceOk orphans cache.config.pageTokens pages'
      (record.reserve cache.config.pageTokens rows cache.appendNonce fresh transaction)) :
    Owned orphans cache.config.pageTokens pages' (cache.sequences.set sequence
      (record.reserve cache.config.pageTokens rows cache.appendNonce fresh transaction))
        cache.prefixes := by
  refine hinv.owned.grow hgrows (Arena.wf_set hinv.owned.sequences_wf hrecord) (fun id => ?_) ?_
  · have hsum := Arena.total_set (fun record => record.heldPages.count id)
      (record.reserve cache.config.pageTokens rows cache.appendNonce fresh transaction) hrecord
    have hnew : (record.reserve cache.config.pageTokens rows cache.appendNonce fresh
        transaction).heldPages.count id = record.pages.count id + fresh.count id := by
      rw [← List.count_append]
      rfl
    simp only [hnew, heldPages_of_pending_none hpending] at hsum
    unfold activeCount
    simp only [List.count_nil]
    omega
  · intro other found hfound
    rw [Arena.get?_set hrecord] at hfound
    split_ifs at hfound with heq
    · cases hfound
      exact Or.inr hok
    · exact Or.inl hfound

theorem reserved_counted (hinv : Inv orphans stray cache)
    (hrecord : cache.sequences.get? sequence = some record)
    (hreserved : fresh.length ≤ record.reservedPages)
    (hdeferred : deferredTotal history = deferredTotal cache.backend) :
    Counted (cache.reservedState sequence record rows fresh transaction history pages') := by
  have htotal := Arena.le_total SequenceRecord.reservedPages hrecord
  have hset : ∀ weight : SequenceRecord R.AppendTransaction → ℕ,
      (cache.sequences.set sequence (record.reserve cache.config.pageTokens rows cache.appendNonce
        fresh transaction)).total weight + weight record = cache.sequences.total weight +
          weight (record.reserve cache.config.pageTokens rows cache.appendNonce fresh
            transaction) :=
    fun weight => Arena.total_set weight _ hrecord
  obtain ⟨hreserves, hprivate, htable, hsnapshot, -, hdeferrals⟩ := hinv.counted
  refine ⟨?_, ?_, ?_, hsnapshot, rfl, hdeferrals.trans hdeferred.symm⟩
  · have := hset SequenceRecord.reservedPages
    simp only [reservedState, SequenceRecord.reserve] at this ⊢
    omega
  · have := hset SequenceRecord.privateStateBytes
    simp only [reservedState, SequenceRecord.reserve, putPages] at this ⊢
    omega
  · have := hset SequenceRecord.pageTableBytes
    simp only [reservedState, SequenceRecord.reserve, putPages] at this ⊢
    omega

/-- Reserved pages become resident, so that the charge stays the same. -/
theorem reserved_ready (hinv : Inv orphans stray cache)
    (hrecord : cache.sequences.get? sequence = some record) (hpending : record.pending = none)
    (hreserved : fresh.length ≤ record.reservedPages)
    (hgrows : Grows cache.pages pages' [] fresh)
    (hlength : pages'.values.length = cache.pages.values.length + fresh.length)
    (hok : SequenceOk orphans cache.config.pageTokens pages'
      (record.reserve cache.config.pageTokens rows cache.appendNonce fresh transaction))
    (hdeferred : deferredTotal history = deferredTotal cache.backend) :
    Ready orphans stray
      (cache.reservedState sequence record rows fresh transaction history pages') := by
  have hheld := hinv.budgeted.held_le
  have hcharged := hinv.ready.charged_le
  have htotal := Arena.le_total SequenceRecord.reservedPages hrecord
  rw [← hinv.counted.reserved] at htotal
  have hmul : cache.stats.reservedPages * cache.pageBytes =
      (cache.stats.reservedPages - fresh.length) * cache.pageBytes +
        fresh.length * cache.pageBytes := by
    rw [← Nat.add_mul, Nat.sub_add_cancel (hreserved.trans htotal)]
  constructor
  · obtain ⟨h1, h2, h3, h4, h5, h6⟩ := hinv.config
    exact ⟨h1, h2, h3, h4, h5, h6⟩
  · exact reserved_owned hinv hrecord hpending hgrows hok
  · exact reserved_counted hinv hrecord hreserved hdeferred
  · unfold chargedBytes at hheld
    simp only [reservedState, chargedBytes, putPages, hlength]
    rw [Nat.add_mul]
    omega
  · unfold chargedBytes residentNow at hcharged
    simp only [reservedState, chargedBytes, residentNow, putPages, hlength]
    rw [show cache.pages.values.length + fresh.length + cache.deferredPages =
      cache.pages.values.length + cache.deferredPages + fresh.length by omega, Nat.add_mul]
    omega
  · exact hinv.budgeted.snapshot_le
  · exact hinv.budgeted.entries_le
  · exact hinv.filed
  · exact hinv.ranked
  · exact hinv.clocked
  · exact hinv.ids_below
  · exact hinv.ids_bounded

theorem registerAppend_ok (hinv : Inv orphans stray cache)
    (hrecord : cache.sequences.get? sequence = some record) (hpending : record.pending = none)
    (hrows : 0 < rows) (hle : record.position + rows ≤ record.maxPosition)
    (hlength : record.pages.length + fresh.length =
      (record.position + rows) ⌈/⌉ cache.config.pageTokens)
    (hreserved : fresh.length ≤ record.reservedPages)
    (htail : ∀ n id page, record.pages[n]? = some id →
      record.position < (n + 1) * cache.config.pageTokens → cache.pages.get? id = some page →
        page.sealed = false)
    (hissued : fresh = cache.pages.issued fresh.length)
    (hgrows : Grows cache.pages pages' [] fresh)
    (hlength' : pages'.values.length = cache.pages.values.length + fresh.length)
    (hrecords : fresh.map pages'.get? = allocations.map (fun page => some (privatePage page)))
    (hcalls : Calls fresh.length cache.backend [] prepared allocations)
    (hdescribed : ∃ descriptions, cache.preparedPages record rows allocations =
        .ok descriptions ∧
      prepared = .prepareAppend context descriptions record.position (.ok transaction) ::
        (allocationEvents context allocations ++ cache.backend))
    (hextended : Extended cache.pages record allocations context prepared history) :
    ∃ reservation cache', registerAppend sequence record rows cache.appendNonce
        (cache.stats.reservedPages - fresh.length) transaction fresh
        (({ cache with
          backend := history, appendNonce := cache.appendNonce + 1 } :
            SequenceCache R).putPages pages') =
        .ok reservation cache' ∧
      Inv orphans stray cache' ∧
      Reserved cache cache' sequence record rows context transaction fresh allocations prepared ∧
      reservation = ⟨sequence, record.position, rows, segmentsOf cache.config.pageTokens
        record.position rows (record.pages ++ fresh), cache.appendNonce⟩ := by
  have hpos := hinv.config.pageTokens_pos
  have hfresh : ∀ id ∈ fresh, ∃ page, pages'.get? id = some page ∧ page.physical.isSome ∧
      page.validTokens = 0 ∧ page.sealed = false := by
    intro id hmem
    have hin := List.mem_map_of_mem (f := pages'.get?) hmem
    rw [hrecords, List.mem_map] at hin
    obtain ⟨page, -, hpage⟩ := hin
    exact ⟨privatePage page, hpage.symm, rfl, rfl, rfl⟩
  have hok := @SequenceOk.reserve _ _ _ _ _ _ _ _ _ cache.appendNonce transaction
    (hinv.owned.sequence sequence record hrecord) hpos hpending hrows hle hlength hreserved htail
      hgrows hfresh
  have hsegments := @appendSegments_ok R _ _ _ hpos _ _
    (by rw [List.length_append]; exact hlength) rows
    0 (record.position / cache.config.pageTokens) (by omega) (by omega)
    (by
      intro _
      have hdiv := Nat.div_mul_le_self record.position cache.config.pageTokens
      refine ⟨max_eq_left hdiv, hdiv, ?_⟩
      rw [Nat.add_zero, Nat.mul_comm]
      exact Nat.lt_mul_div_succ record.position hpos)
    (by omega)
  have htotal := Arena.le_total SequenceRecord.reservedPages hrecord
  rw [← hinv.counted.reserved] at htotal
  have hready := reserved_ready hinv hrecord hpending hreserved hgrows hlength' hok
    (hextended.deferredTotal_eq.trans hcalls.deferredTotal_eq)
  obtain ⟨hrun, hfinal⟩ := hready.refresh
  refine ⟨_, _, ?_, hfinal, ⟨hrecord, hpending, hrows, hle, rfl, hlength, hreserved, hissued,
    hgrows, hlength', hrecords, hreserved.trans htotal, hcalls, hdescribed, hextended⟩, rfl⟩
  have hrecord' : (({ cache with
      backend := history, appendNonce := cache.appendNonce + 1 } :
        SequenceCache R).putPages pages').sequences.get? sequence = some record := hrecord
  unfold registerAppend
  rw [get_bind_run]
  refine (bind_ok (reads_ok (fun _ : SequenceCache R =>
    appendSegments cache.config.pageTokens record.pages fresh rows rows 0 record.position)
      hsegments)).trans ?_
  refine (bind_ok (reads_ok (fun cache : SequenceCache R =>
    cache.sequenceRecord sequence) (sequenceRecord_eq_ok.mpr hrecord'))).trans ?_
  rw [checkedSub_of_le hreserved, okOr_some, pure_bind_run]
  refine (bind_ok (updateSequence_ok _ hrecord')).trans ?_
  rw [bind_ok (updateStats_run _ _)]
  refine (bind_ok hrun).trans ?_
  rw [pure_run]
  rfl

end Register

/-! ## The step -/

/-- What follows the checks: from here on only the backend can refuse. -/
theorem reserveChecked_spec (hinv : Inv orphans stray cache) {sequence : SequenceId} {rows : ℕ}
    {record : SequenceRecord R.AppendTransaction}
    (hrecord : cache.sequences.get? sequence = some record) (hpending : record.pending = none)
    (hrows : 0 < rows) (hle : record.position + rows ≤ record.maxPosition)
    (hreserved : cache.missingPages record rows ≤ record.reservedPages)
    (hneeded : record.pages.length + cache.missingPages record rows =
      (record.position + rows) ⌈/⌉ cache.config.pageTokens)
    (htail : ∀ n id page, record.pages[n]? = some id →
      record.position < (n + 1) * cache.config.pageTokens → cache.pages.get? id = some page →
        page.sealed = false)
    (hroom : cache.pages.values.length + cache.missingPages record rows ≤ 2 ^ 32)
    (context : R.Context) :
    Ends ((do
        let allocations ← allocatePages context (cache.missingPages record rows) []
        let transaction ← prepareTransaction record rows allocations context
        publishReserved record allocations context
        let newPages ← insertAllocations allocations
        registerAppend sequence record rows cache.appendNonce
          (cache.stats.reservedPages - cache.missingPages record rows) transaction newPages)
          { cache with appendNonce := cache.appendNonce + 1 })
      (fun reservation cache' => Inv orphans stray cache' ∧
        ∃ transaction fresh allocations prepared,
          Reserved cache cache' sequence record rows context transaction fresh allocations
            prepared ∧
          reservation = ⟨sequence, record.position, rows, segmentsOf cache.config.pageTokens
            record.position rows (record.pages ++ fresh), cache.appendNonce⟩)
      (fun failure cache' => (∃ error, failure = .error (.backend error) ∧
          Refuses cache.backend cache'.backend error) ∧
        Calls (cache.missingPages record rows) cache.backend [] cache'.backend [] ∧
        cache' =
          { cache with backend := cache'.backend, appendNonce := cache.appendNonce + 1 }) := by
  have hok := hinv.owned.sequence sequence record hrecord
  have hlive : ∀ id ∈ record.pages, ∃ page, cache.pages.get? id = some page ∧
      page.physical.isSome := fun id hmem => hok.live (mem_pages_heldPages hmem)
  refine Ends.bind (Ends.mono (allocatePages_spec
    (cache.missingPages record rows) .refl (List.suffix_refl cache.backend) (by simp))
    (fun _ _ h => h) (fun _ _ h => h)) ?_
  rintro allocations allocated ⟨hcalls₁, hsuffix₁, hcount, ⟨added, rfl, hevents⟩, hstate₁⟩
  rw [List.length_nil, Nat.zero_add] at hcount
  generalize allocated.backend = history₁ at hcalls₁ hsuffix₁ hevents hstate₁
  subst hstate₁
  refine Ends.bind (Ends.mono (prepareTransaction_spec hcalls₁ hsuffix₁ hlive)
    (fun _ _ h => h) (fun _ _ h => h)) ?_
  rintro transaction prepared ⟨hcalls₂, hsuffix₂, hstate₂, descriptions, hdescriptions, hcalled⟩
  generalize prepared.backend = history₂ at hcalls₂ hsuffix₂ hstate₂ hcalled
  subst hstate₂
  refine Ends.bind (Ends.mono (publishReserved_spec hcalls₂ hsuffix₂ hlive)
    (fun _ _ h => h) (fun _ _ h => h)) ?_
  rintro - published ⟨hextended, hstate₃⟩
  generalize published.backend = history₃ at hextended hstate₃
  subst hstate₃
  obtain ⟨fresh, pages', hinsert, hgrows, hfresh, -, hrecords, hpages⟩ := insertAllocations_ok
    allocations (@Grows.ofUpdated _ _ _ [] hinv.owned.pages_wf
      ((Arena.Updated.refl cache.pages).congr fun _ _ _ => rfl) (by simp))
    (by rw [hcount]; exact hroom)
  have hgrows' : Grows cache.pages pages' [] fresh :=
    hgrows.perm (by simp [(List.reverse_perm fresh).symm])
  have hcount' : fresh.length = cache.missingPages record rows := by
    rw [hfresh, Arena.issued, List.length_map, List.length_range, hcount]
  have hissued : fresh = cache.pages.issued fresh.length := by
    rw [hcount', ← hcount]
    exact hfresh
  rw [show ({ cache with
      backend := history₃, appendNonce := cache.appendNonce + 1 } : SequenceCache R).putPages
        cache.pages = { cache with
      backend := history₃, appendNonce := cache.appendNonce + 1 } by
    conv_rhs => rw [← putPages_self hinv.counted]
    rfl] at hinsert
  rw [bind_ok hinsert, ← hcount']
  obtain ⟨reservation, cache', hrun, hfinal, hdone, hreservation⟩ :=
    registerAppend_ok hinv hrecord hpending hrows hle (by rw [hcount', hneeded]) (by omega) htail
      hissued hgrows' (by rw [hpages, hcount', hcount]) hrecords (by rw [hcount']; exact hcalls₂)
      ⟨descriptions, hdescriptions, hcalled.trans (congrArg (List.cons _) hevents)⟩ hextended
  rw [hrun]
  exact ⟨hfinal, transaction, fresh, allocations, history₂, hdone, hreservation⟩

theorem reserveAppend_spec (hinv : Inv orphans stray cache) (sequence : SequenceId) (rows : ℕ)
    (context : R.Context) :
    Ends (reserveAppend sequence rows context cache)
      (fun reservation cache' => Inv orphans stray cache' ∧
        ∃ record transaction fresh allocations prepared,
          Reserved cache cache' sequence record rows context transaction fresh allocations
            prepared ∧
          reservation = ⟨sequence, record.position, rows, segmentsOf cache.config.pageTokens
            record.position rows (record.pages ++ fresh), cache.appendNonce⟩)
      (fun failure cache' => (∃ error, failure = .error error) ∧
        (orphans = [] →
          failure.isReported = true ∧ ReserveFails cache sequence rows failure cache') ∧
        Attempted cache.stats.reservedPages cache cache' []) := by
  have hself : Attempted cache.stats.reservedPages cache cache [] := ⟨rfl, le_rfl, .refl⟩
  -- A failure of the checks on the arguments.
  have hbad : ∀ error : CacheError R.Error, (orphans = [] →
        (Failure.error error).isReported = true ∧ ¬ Reservable cache sequence rows) →
      (∃ failure, Failure.error error = .error failure) ∧
        (orphans = [] → (Failure.error error).isReported = true ∧
          ReserveFails cache sequence rows (.error error) cache) ∧
        Attempted cache.stats.reservedPages cache cache [] := fun error h =>
    ⟨⟨error, rfl⟩, fun hnil => ⟨(h hnil).1, Or.inr (Or.inr ⟨⟨error, rfl⟩, (h hnil).2⟩)⟩, hself⟩
  unfold reserveAppend
  refine Ends.ensure (fun hzero => hbad _ fun _ => ⟨rfl, fun h => hzero h.1.ne'⟩)
    (fun hrows => ?_)
  refine Ends.reads (fun failure herror => ?_) (fun record hread => ?_)
  · obtain rfl := okOr_eq_error herror
    refine hbad _ fun _ => ⟨rfl, fun h => ?_⟩
    obtain ⟨-, record, hrecord, -⟩ := h
    rw [sequenceRecord_eq_ok.mpr hrecord] at herror
    cases herror
  have hrecord := sequenceRecord_eq_ok.mp hread
  have hunique : ∀ other, cache.sequences.get? sequence = some other → other = record := by
    intro other hother
    simpa [hrecord] using hother.symm
  have hok := hinv.owned.sequence sequence record hrecord
  have hpos := hinv.config.pageTokens_pos
  refine Ends.ensure (fun hbusy => hbad _ fun _ => ⟨rfl, fun h => ?_⟩) (fun hidle => ?_)
  · obtain ⟨-, other, hother, hnone, -⟩ := h
    rw [hunique other hother] at hnone
    simp [hnone] at hbusy
  have hpending : record.pending = none := Option.isNone_iff_eq_none.mp hidle
  have hbounded := hok.bounded
  refine Ends.okOr (fun hnone => hbad _ fun _ => ⟨rfl, fun h => ?_⟩) (fun newPosition hsum => ?_)
  · obtain ⟨-, other, hother, -, hle⟩ := h
    rw [hunique other hother] at hle
    rw [checkedAdd_of_le (by omega)] at hnone
    cases hnone
  obtain ⟨-, rfl⟩ := checkedAdd_eq_some.mp hsum
  refine Ends.ensure (fun hbeyond => hbad _ fun _ => ⟨rfl, fun h => ?_⟩) (fun hle => ?_)
  · obtain ⟨-, other, hother, -, hle⟩ := h
    rw [hunique other hother] at hle
    exact hbeyond hle
  rcases checkWritableTail_iff hinv hrecord with ⟨herror, horphans⟩ | ⟨hwritable, htail⟩
  · rw [bind_error (reads_error (fun cache : SequenceCache R =>
      cache.checkWritableTail record) herror)]
    exact hbad _ fun hnil => absurd hnil horphans
  rw [bind_ok (reads_ok (fun cache : SequenceCache R =>
    cache.checkWritableTail record) hwritable)]
  refine Ends.get ?_
  rw [checkedDivCeil_of_le (by omega), okOr_some, pure_bind_run]
  have hlength := hok.length_pages
  have hmono := ceilDiv_mono hpos (Nat.le_add_right record.position rows)
  have hmono' := ceilDiv_mono hpos hle
  rw [checkedSub_of_le (by omega), okOr_some, pure_bind_run]
  have hmissing : (record.position + rows) ⌈/⌉ cache.config.pageTokens - record.pages.length =
      cache.missingPages record rows := rfl
  rw [hmissing]
  have hneeded : record.pages.length + cache.missingPages record rows =
      (record.position + rows) ⌈/⌉ cache.config.pageTokens := by
    unfold missingPages
    omega
  refine Ends.ensure (fun hexceeds => hbad _ fun hnil => ?_) (fun hreserved => ?_)
  · have := hok.length_total hnil
    rw [heldPages_of_pending_none hpending] at this
    omega
  have htotal := Arena.le_total SequenceRecord.reservedPages hrecord
  rw [← hinv.counted.reserved] at htotal
  rw [checkedSub_of_le (by omega), okOr_some, pure_bind_run]
  rcases preparePageSlots_cases hinv.owned.pages_wf (cache.missingPages record rows) with
    ⟨herror, hfull⟩ | ⟨hslots, hroom⟩
  · rw [bind_error (reads_error (fun state : SequenceCache R =>
      state.preparePageSlots (cache.missingPages record rows)) herror)]
    exact ⟨⟨_, rfl⟩, fun _ => ⟨rfl, Or.inr (Or.inl ⟨⟨_, rfl⟩, Or.inr ⟨record, hrecord, hfull⟩⟩)⟩,
      hself⟩
  rw [bind_ok (reads_ok (fun state : SequenceCache R =>
      state.preparePageSlots (cache.missingPages record rows)) hslots)]
  rcases nextAppendNonce_cases cache with ⟨hspent, herror⟩ | hnonce
  · rw [bind_error herror]
    exact ⟨⟨_, rfl⟩, fun _ => ⟨rfl, Or.inr (Or.inl ⟨⟨_, rfl⟩, Or.inl hspent⟩)⟩, hself⟩
  rw [bind_ok hnonce]
  refine Ends.mono (reserveChecked_spec hinv hrecord hpending (Nat.pos_of_ne_zero hrows) hle
    hreserved hneeded htail hroom context) ?_ ?_
  · rintro reservation cache' ⟨hinv', transaction, fresh, allocations, prepared, hdone, hgranted⟩
    exact ⟨hinv', record, transaction, fresh, allocations, prepared, hdone, hgranted⟩
  · rintro failure cache' ⟨⟨error, rfl, hrefuses⟩, hcalls, hstate⟩
    refine ⟨⟨_, rfl⟩, fun _ => ⟨rfl, Or.inl ⟨error, rfl, hrefuses⟩⟩, ?_, ?_,
      hcalls.mono (by omega)⟩
    · rw [hstate]
    · rw [hstate]
      exact Nat.le_succ _

end SequenceCache

end SeqCache
