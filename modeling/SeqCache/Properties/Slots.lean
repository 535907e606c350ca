import SeqCache.Properties.Budgets
import SeqCache.Properties.Custody

/-!
# Slots of the backend

Admission works with promises: pages that a sequence may still ask for are counted from the
start.  Whenever a reservation turns to the backend for a page, one of the promised slots is
therefore still free, in the middle of the call as between calls.  A branch copies the tail of
its source before it carries out its evictions, and may find one page too many in place.
-/

namespace SeqCache

open Machine Program Std

variable {R : Runtime} [DecidableEq R.Page]

/-! ## Occupied slots -/

/-- Pages that take up a slot of the backend: handed out and not handed back, or retired and
not yet reclaimed. -/
def occupied (history : R.History) : ℕ :=
  ((handedOut history).diff (handedBack history)).length + deferredTotal history

/-- From `history` to a later one, every call for a page finds fewer than `bound` slots
occupied. -/
inductive Meets (bound : ℕ) (history : R.History) : R.History → Prop
  | refl : Meets bound history history
  | call {later : R.History} (event : R.Event) : Meets bound history later →
      (event.isAcquisition = true → occupied later < bound) → Meets bound history (event :: later)

namespace Meets

variable {bound bound' : ℕ} {history history' history'' : R.History}

theorem trans (h : Meets bound history history') (h' : Meets bound history' history'') :
    Meets bound history history'' := by
  induction h' with
  | refl => exact h
  | call event _ hroom ih => exact .call event ih hroom

theorem mono (h : Meets bound history history') (hle : bound ≤ bound') :
    Meets bound' history history' := by
  induction h with
  | refl => exact .refl
  | call event _ hroom ih => exact .call event ih fun hevent => (hroom hevent).trans_le hle

/-- A call that asks for no page. -/
theorem idle {event : R.Event} (hevent : event.isAcquisition = false) :
    Meets bound history (event :: history) := by
  refine .call event .refl fun h => ?_
  rw [hevent] at h
  cases h

/-- What holds for the calls one by one. -/
theorem occupied_lt (h : Meets bound history history') {later earlier : R.History}
    {event : R.Event} (hsplit : history' = later ++ event :: earlier)
    (hduring : history.length ≤ earlier.length) (hevent : event.isAcquisition = true) :
    occupied earlier < bound := by
  induction h generalizing later with
  | refl =>
      have hlength := congrArg List.length hsplit
      rw [List.length_append, List.length_cons] at hlength
      omega
  | call last _ hroom ih =>
      cases later with
      | nil =>
          obtain ⟨rfl, rfl⟩ := List.cons.inj hsplit
          exact hroom hevent
      | cons first later => exact ih (List.cons.inj hsplit).2

end Meets

section Histories

variable {history history' : R.History} {limit : ℕ} {flight flight' : List R.Page}

/-- Calls take up slots for the pages they keep in flight. -/
theorem Calls.occupied_le (h : Calls limit history [] history' flight) :
    occupied history' ≤ occupied history + flight.length := by
  have hle : ((handedOut history').diff (handedBack history')).length ≤
      ((handedOut history).diff (handedBack history) ++ flight).length := by
    refine Ledger.length_diff_le fun page => ?_
    have hcount := h.count_eq page
    rw [List.count_nil] at hcount
    rw [List.count_append, List.count_diff]
    omega
  rw [List.length_append] at hle
  rw [occupied, occupied, h.deferredTotal_eq]
  omega

/-- Calls that keep at most `limit` pages in flight take up at most `limit` more slots. -/
theorem Calls.meets (h : Calls limit history [] history' flight) :
    Meets (occupied history + limit) history history' := by
  induction h with
  | refl => exact .refl
  | acquire event hcalls _ hlt ih =>
      exact .call event ih fun _ => hcalls.occupied_le.trans_lt (Nat.add_lt_add_left hlt _)
  | rollback context page _ _ ih => exact ih.trans (.idle rfl)
  | neutral event _ hevent ih =>
      refine ih.trans (.idle ?_)
      cases event with
      | allocatePage | copyPartialPage => simp [BackendEvent.isNeutral] at hevent
      | _ => rfl
  | overreported context reclaimed _ _ ih => exact ih.trans (.idle rfl)

/-- Calls that keep no page in flight ask for none. -/
theorem Calls.silent (h : Calls 0 history flight history' flight') :
    Meets 0 history history' := by
  induction h with
  | refl => exact .refl
  | acquire _ _ _ hlt _ => exact absurd hlt (Nat.not_lt_zero _)
  | rollback context page _ _ ih => exact ih.trans (.idle rfl)
  | neutral event _ hevent ih =>
      refine ih.trans (.idle ?_)
      cases event with
      | allocatePage | copyPartialPage => simp [BackendEvent.isNeutral] at hevent
      | _ => rfl
  | overreported context reclaimed _ _ ih => exact ih.trans (.idle rfl)

theorem Retirement.silent {context : R.Context} {physical : List R.Page} {deferred : ℕ}
    (h : Retirement context physical deferred history history') : Meets 0 history history' := by
  rcases h with ⟨-, -, rfl⟩ | ⟨outcome, -, rfl, -⟩
  · exact .refl
  · exact .idle rfl

end Histories

namespace SequenceCache

variable {cache cache' : SequenceCache R} {orphans : List PageId} {stray : List TokenBlockId}
  {lost : List R.Page}

theorem Reclaimed.silent {context : R.Context} {reclaimed : ℕ}
    (h : Reclaimed cache cache' context reclaimed) : Meets 0 cache.backend cache'.backend := by
  rw [h.state]
  exact .idle rfl

omit [DecidableEq R.Page] in
theorem Admitted.backend {shared fresh : List PageId} {physical : List R.Page} {id : SequenceId}
    {record : SequenceRecord R.AppendTransaction}
    (h : Admitted cache cache' shared fresh physical id record) :
    cache'.backend = cache.backend := by
  rw [h.state]
  rfl

theorem Accepted.silent {record : SequenceRecord R.AppendTransaction}
    {pending : PendingAppend R.AppendTransaction} {context : R.Context} {committed : ℕ}
    {event : R.Event} (h : Accepted cache record pending context committed event) :
    Meets 0 cache.backend (event :: cache.backend) := by
  cases h with
  | commit => exact .idle rfl
  | abort => exact .idle rfl

theorem FinalizeFails.silent {reservation : AppendReservation} {valid : Prop} {committed : ℕ}
    {context : R.Context} {failure : Failure R.Error}
    (h : FinalizeFails orphans stray cache reservation valid committed context failure cache') :
    Meets 0 cache.backend cache'.backend := by
  rcases h with ⟨-, rfl⟩ | ⟨error, -, hputBack⟩ | ⟨-, lost, -, record, pending, event, before, last,
    after, -, haccepted, htorn, -⟩
  · exact .refl
  · exact hputBack.calls.silent
  · rw [htorn.state]
    exact haccepted.silent

theorem Finalized.silent {reservation : AppendReservation} {committed : ℕ} {context : R.Context}
    (h : Finalized cache reservation committed context cache') :
    Meets 0 cache.backend cache'.backend := by
  obtain ⟨record, pending, event, -, haccepted, hsettled⟩ := h
  rw [hsettled.backend]
  exact haccepted.silent

/-! ## Single calls -/

theorem admitSequence_silent (hlaw : R.Retires) (hinv : Inv orphans stray cache)
    (prefixMatch : Option PrefixMatch) (request : AdmissionRequest) (context : R.Context)
    (restore : Option R.Snapshot → ℕ → Except R.Error Unit) :
    Ends (admitSequence prefixMatch request context restore cache)
      (fun _ cache' => Meets 0 cache.backend cache'.backend)
      (fun _ cache' => Meets 0 cache.backend cache'.backend) := by
  refine Ends.mono (admitSequence_spec hlaw hinv prefixMatch request context restore) ?_ ?_
  · rintro outcome cache' ⟨-, reclaimed, middle, hreclaimed, -, hadmits⟩
    refine hreclaimed.silent.trans ?_
    rcases hadmits with ⟨-, rfl, -⟩ | ⟨protectedEntry, position, shared, reservedPages, extra,
      limit, plan, table, id, evicted, retired, physical, deferred, -, -, hadmission⟩
    · exact .refl
    · rw [hadmission.admitted.backend]
      exact (Meets.idle rfl).trans hadmission.carried_out.retirement.silent
  · rintro failure cache' ⟨-, hcalled | ⟨reclaimed, middle, hreclaimed, -, hfailed⟩⟩
    · exact hcalled.calls.silent
    · refine hreclaimed.silent.trans ?_
      rcases hfailed with hcalled | ⟨protectedEntry, position, shared, reservedPages, extra, limit,
        plan, table, -, -, hcalled⟩
      · exact hcalled.calls.silent
      · exact (Meets.idle rfl).trans hcalled.calls.silent

theorem Copies.meets {start : SequenceCache R} {record : SequenceRecord R.AppendTransaction}
    {context : R.Context} {copied : Option R.Page} {history : R.History}
    (h : Copies cache start record context copied history) :
    Meets (occupied cache.backend + 1) cache.backend start.backend := by
  obtain ⟨table, -, -, rfl⟩ := h.published
  exact h.tail.calls.meets.trans (.idle rfl)

/-- Without a partial page there is nothing to copy. -/
theorem Copies.silent {start : SequenceCache R} {record : SequenceRecord R.AppendTransaction}
    {context : R.Context} {copied : Option R.Page} {history : R.History}
    (h : Copies cache start record context copied history)
    (haligned : cache.branchPartial record = none) : Meets 0 cache.backend start.backend := by
  obtain ⟨table, -, -, rfl⟩ := h.published
  obtain ⟨-, rfl⟩ := h.tail.aligned haligned
  exact .idle rfl

/-- A branch asks for no page, or for one, before its evictions. -/
def BranchMeets (cache : SequenceCache R) (source : SequenceId) (request : AdmissionRequest)
    (cache' : SequenceCache R) : Prop :=
  Meets 0 cache.backend cache'.backend ∨
    Meets (occupied cache.backend + 1) cache.backend cache'.backend ∧
      ∃ record extra limit plan, AsksCopy cache source request record extra limit plan

theorem Forked.meets {start : SequenceCache R} {source : SequenceId} {request : AdmissionRequest}
    {context : R.Context} {record : SequenceRecord R.AppendTransaction} {copied : Option R.Page}
    {history : R.History} {reservedPages extra limit : ℕ} {plan : List PrefixEntryId}
    (h : Forked cache start source request context record copied history reservedPages extra limit
      plan) (hsilent : Meets 0 start.backend cache'.backend) :
    BranchMeets cache source request cache' := by
  cases hpartial : cache.branchPartial record with
  | none => exact Or.inl ((h.copies.silent hpartial).trans hsilent)
  | some tail =>
      have hsome : (cache.branchPartial record).isSome = true := hpartial ▸ rfl
      exact Or.inr ⟨h.copies.meets.trans (hsilent.mono (Nat.zero_le _)), record, extra, limit, plan,
        h.quoted, h.planned, h.slot, h.page_slot hsome, hsome⟩

theorem branch_meets (hlaw : R.Retires) (hinv : Inv orphans stray cache) (source : SequenceId)
    (request : AdmissionRequest) (context : R.Context) :
    Ends (branch source request context cache)
      (fun _ cache' => BranchMeets cache source request cache')
      (fun _ cache' => BranchMeets cache source request cache') := by
  refine Ends.mono (branch_spec hlaw hinv source request context) ?_ ?_
  · rintro outcome cache' ⟨-, ⟨-, rfl, -⟩ | ⟨record, copied, history, reservedPages, extra, limit,
      fresh, id, plan, start, evicted, retired, physical, deferred, -, hforked, hadmission⟩⟩
    · exact Or.inl .refl
    · refine hforked.meets ?_
      rw [hadmission.admitted.backend]
      exact hadmission.carried_out.retirement.silent
  · rintro failure cache' ⟨-, ⟨hcalled, hasks⟩ | ⟨record, copied, history, reservedPages, extra,
      limit, plan, start, hforked, -, hcalled⟩⟩
    · exact hasks.imp (fun hsilent => hsilent.calls.silent) fun hasks =>
        ⟨hcalled.calls.meets, hasks⟩
    · exact hforked.meets hcalled.calls.silent

theorem Reserved.meets {sequence : SequenceId} {record : SequenceRecord R.AppendTransaction}
    {rows : ℕ} {context : R.Context} {transaction : R.AppendTransaction} {fresh : List PageId}
    {allocations : List R.Page} {prepared : R.History}
    (h : Reserved cache cache' sequence record rows context transaction fresh
      allocations prepared) :
    Meets (occupied cache.backend + cache.stats.reservedPages) cache.backend cache'.backend := by
  refine ((h.calls.meets).mono (Nat.add_le_add_left h.reserved_le _)).trans ?_
  rcases h.extended with ⟨-, hsame⟩ | ⟨table, -, -, hpublished⟩
  · rw [hsame]
    exact .refl
  · rw [hpublished]
    exact .idle rfl

/-- A reservation asks for no more pages than are promised. -/
theorem reserveAppend_meets (hinv : Inv orphans stray cache) (sequence : SequenceId) (rows : ℕ)
    (context : R.Context) :
    Ends (reserveAppend sequence rows context cache)
      (fun _ cache' =>
        Meets (occupied cache.backend + cache.stats.reservedPages) cache.backend cache'.backend)
      (fun _ cache' =>
        Meets (occupied cache.backend + cache.stats.reservedPages) cache.backend
          cache'.backend) := by
  refine Ends.mono (reserveAppend_spec hinv sequence rows context) ?_ ?_
  · rintro reservation cache' ⟨-, record, transaction, fresh, allocations, prepared, hreserved, -⟩
    exact hreserved.meets
  · rintro failure cache' ⟨-, -, hattempted⟩
    exact hattempted.calls.meets

theorem retainPrefix_silent (hlaw : R.Retires) (hinv : Inv orphans stray cache)
    (sequence : SequenceId) (tokens : List Token) (snapshot : R.Snapshot) (context : R.Context) :
    Ends (retainPrefix sequence tokens snapshot context cache)
      (fun _ cache' => Meets 0 cache.backend cache'.backend)
      (fun _ cache' => Meets 0 cache.backend cache'.backend) := by
  refine Ends.mono (retainPrefix_spec hlaw hinv sequence tokens snapshot context) ?_ ?_
  · rintro outcome cache' ⟨-, hretains⟩
    cases hretains with
    | duplicate _ _ htouched =>
        rw [htouched.state]
        exact .refl
    | inserted _ _ hinterns _ _ hevicted hretained =>
        have hsame := congrArg SequenceCache.backend hinterns.state
        rw [hretained.state]
        exact hsame ▸ hevicted.retirement.silent
  · intro failure cache' hfails
    cases hfails with
    | crowded _ _ _ htouched =>
        rw [htouched.state]
        exact .refl
    | unkeyed _ _ _ _ hundone => exact hundone.calls.silent
    | full _ _ _ _ hundone => exact hundone.calls.silent
    | refused _ _ _ _ _ _ hundone => exact hundone.calls.silent
    | overflown _ _ _ _ _ hinterns =>
        rw [hinterns.state]
        exact .refl
    | unnumbered _ _ _ _ _ _ hinterns =>
        rw [hinterns.state]
        exact .refl
    | _ => exact .refl

/-! ## Loops -/

/-- A loop of finalizations asks for no page. -/
theorem Finalizes.silent {ι : Type} {call : ι → CacheM R Unit} {batch : List AppendReservation}
    {items : List ι} {result : EStateM.Result (Failure R.Error) (SequenceCache R)
      (BatchResult R Unit)}
    (h : Finalizes call batch items cache result) (hinv : Inv orphans stray cache)
    (hcall : ∀ item state, Inv orphans stray state → Ends (call item state)
      (fun _ state' => Inv orphans stray state' ∧ Meets 0 state.backend state'.backend)
      (fun _ state' => Meets 0 state.backend state'.backend)) :
    Ends result (fun _ cache' => Meets 0 cache.backend cache'.backend)
      (fun _ cache' => Meets 0 cache.backend cache'.backend) := by
  have hkeeps : ∀ item state value state',
      Inv orphans stray state ∧ Meets 0 cache.backend state.backend →
      call item state = .ok value state' →
      Inv orphans stray state' ∧ Meets 0 cache.backend state'.backend := by
    rintro item state value state' ⟨hstate, hmeets⟩ hrun
    have hends := hcall item state hstate
    rw [hrun] at hends
    exact ⟨hends.1, hmeets.trans hends.2⟩
  rcases h with ⟨new, cache', heach, rfl⟩ |
    ⟨before, item, after, new, middle, failure, cache', rfl, hstopped, hresult⟩
  · exact (heach.invariant ⟨hinv, .refl⟩ fun other _ => hkeeps other).2
  obtain ⟨hmiddle, hmeets⟩ := hstopped.succeeded.invariant ⟨hinv, .refl⟩ fun other _ => hkeeps other
  have hfailed := hcall item middle hmiddle
  rw [hstopped.failed] at hfailed
  rcases hresult with ⟨error, -, rfl⟩ | ⟨message, -, rfl⟩
  · exact hmeets.trans hfailed
  · exact hmeets.trans hfailed

theorem Dismissed.silent {batch : List AppendReservation}
    {result : EStateM.Result (Failure R.Error) (SequenceCache R) (BatchResult R Unit)}
    (h : Dismissed batch cache result) :
    Ends result (fun _ cache' => Meets 0 cache.backend cache'.backend)
      (fun _ cache' => Meets 0 cache.backend cache'.backend) := by
  obtain ⟨error, index, -, rfl⟩ := h
  exact .refl

/-- The occupied slots are those of the pages with a record, of the lost ones and of those
whose retirement was deferred. -/
theorem Covered.occupied_le (h : Covered cache lost) : occupied cache.backend ≤
    cache.pages.values.length + lost.length + deferredTotal cache.backend := by
  have hle : ((handedOut cache.backend).diff (handedBack cache.backend)).length ≤
      (storedPages cache.pages ++ lost).length := by
    refine Ledger.length_diff_le fun page => ?_
    rw [List.count_append, count_storedPages]
    exact h page
  have hstored : (storedPages cache.pages).length ≤ cache.pages.values.length :=
    List.length_filterMap_le _ _
  rw [List.length_append] at hle
  rw [occupied]
  omega

omit [DecidableEq R.Page] in
theorem committedPages_eq (hinv : Inv orphans stray cache) : cache.committedPages =
    cache.pages.values.length + deferredTotal cache.backend + cache.stats.reservedPages := by
  rw [committedPages, hinv.counted.reserved]

omit [DecidableEq R.Page] in
/-- A reservation turns promised pages into pages. -/
theorem Reserved.committedPages_eq {sequence : SequenceId}
    {record : SequenceRecord R.AppendTransaction} {rows : ℕ} {context : R.Context}
    {transaction : R.AppendTransaction} {fresh : List PageId} {allocations : List R.Page}
    {prepared : R.History}
    (h : Reserved cache cache' sequence record rows context transaction fresh allocations prepared)
    (hinv : Inv orphans stray cache) (hinv' : Inv orphans stray cache') :
    cache'.committedPages = cache.committedPages := by
  have hreserved : cache'.stats.reservedPages = cache.stats.reservedPages - fresh.length := by
    rw [h.state]
    rfl
  have hle := h.reserved_le
  have hlength := h.length_pages
  rw [SequenceCache.committedPages_eq hinv, SequenceCache.committedPages_eq hinv', hlength,
    hreserved, h.extended.deferredTotal_eq, h.calls.deferredTotal_eq]
  omega

/-- In the middle of a batch of reservations that began at `cache`. -/
structure Midway (cache : SequenceCache R) (orphans : List PageId) (stray : List TokenBlockId)
    (lost : List R.Page) (state : SequenceCache R) : Prop where
  inv : Inv orphans stray state
  covered : Covered state lost
  committed : state.committedPages = cache.committedPages
  meets : Meets (cache.committedPages + lost.length) cache.backend state.backend

theorem Midway.room {state : SequenceCache R} (h : Midway cache orphans stray lost state) :
    occupied state.backend + state.stats.reservedPages ≤ cache.committedPages + lost.length := by
  have hle := h.covered.occupied_le
  have hcommitted := h.committed
  rw [committedPages_eq h.inv] at hcommitted
  omega

theorem Midway.reserve {state state' : SequenceCache R} {reservation : AppendReservation}
    (h : Midway cache orphans stray lost state) {sequence : SequenceId} {rows : ℕ}
    {context : R.Context} (hrun : reserveAppend sequence rows context state = .ok
      reservation state') :
    Midway cache orphans stray lost state' := by
  have hspec := reserveAppend_spec h.inv sequence rows context
  have hmeets := reserveAppend_meets h.inv sequence rows context
  rw [hrun] at hspec hmeets
  obtain ⟨hinv', record, transaction, fresh, allocations, prepared, hreserved, -⟩ := hspec
  have htrail : Trail orphans state [] state' [] := .single (.reserved hreserved)
  have hbalances : Balances True state state' := htrail.balances
  refine ⟨hinv', hbalances.covered h.covered,
    (hreserved.committedPages_eq h.inv hinv').trans h.committed, ?_⟩
  exact h.meets.trans (Meets.mono hmeets h.room)

theorem reserveAppendBatch_meets (hinv : Inv orphans stray cache) (hcovered : Covered cache lost)
    (requests : List AppendBatchRequest) (contexts : List R.Context) :
    Ends (reserveAppendBatch requests contexts cache)
      (fun _ cache' => Meets (cache.committedPages + lost.length) cache.backend cache'.backend)
      (fun _ cache' =>
        Meets (cache.committedPages + lost.length) cache.backend cache'.backend) := by
  have hstart : Midway cache orphans stray lost cache := ⟨hinv, hcovered, rfl, .refl⟩
  unfold reserveAppendBatch
  by_cases hlength : requests.length ≠ contexts.length
  · rw [if_pos hlength]
    exact Meets.refl
  rw [if_neg hlength]
  rcases reserveEach_cases (requests.zip contexts) 0 [] cache with ⟨new, cache', heach, hrun⟩ |
    ⟨before, item, after, new, middle, failure, cache', -, hstopped, hresult⟩
  · rw [hrun]
    exact (heach.invariant hstart fun item _ state value state' hstate hcall =>
      hstate.reserve hcall).meets
  have hmiddle := hstopped.succeeded.invariant hstart
    fun item _ state value state' hstate hcall => Midway.reserve hstate hcall
  have hfailed := reserveAppend_meets hmiddle.inv item.1.sequence item.1.rows item.2
  rw [show reserveAppend item.1.sequence item.1.rows item.2 middle = _ from hstopped.failed]
    at hfailed
  have hends := hmiddle.meets.trans (Meets.mono hfailed hmiddle.room)
  rcases hresult with ⟨error, -, hrun⟩ | ⟨message, -, hrun⟩
  · rw [hrun]
    exact hends
  · rw [hrun]
    exact hends

end SequenceCache

/-! ## All calls -/

namespace Operation

open SequenceCache

/-- Slots that the call may take up beyond those that are promised. -/
def overlap : Operation R → ℕ
  | .branch _ _ _ => 1
  | _ => 0

/-- The calls that may ask the backend for pages. -/
def asks : Operation R → Bool
  | .branch _ _ _ => true
  | .reserveAppend _ _ _ => true
  | .reserveAppendBatch _ _ => true
  | _ => false

variable {cache : SequenceCache R} {orphans : List PageId} {stray : List TokenBlockId}
variable {lost : List R.Page} {bound : ℕ}

/-- What is known of a program is known of the call that runs it. -/
theorem meets_ofEnds {α : Type} {program : CacheM R α} {reply : α → Reply R}
    {operation : Operation R}
    (hrun : operation.run = reply <$> program)
    (h : Ends (program cache) (fun _ cache' => Meets bound cache.backend cache'.backend)
      (fun _ cache' => Meets bound cache.backend cache'.backend)) :
    Meets bound cache.backend (operation.step cache).backend := by
  rw [Operation.step, hrun]
  exact finalState_of_ends h

/-- The other calls ask for no page. -/
theorem silent (hlaw : R.Retires) (hinv : Inv orphans stray cache) {operation : Operation R}
    (hasks : operation.asks = false) : Meets 0 cache.backend (operation.step cache).backend := by
  cases operation with
  | branch | reserveAppend | reserveAppendBatch => cases hasks
  | admitSequence prefixMatch request context restore =>
      exact meets_ofEnds rfl (admitSequence_silent hlaw hinv prefixMatch request context restore)
  | commitAppend reservation rows context =>
      exact meets_ofEnds rfl (Ends.mono (commitAppend_spec hinv reservation rows context)
        (fun _ _ h => h.2.silent) fun _ _ h => h.silent)
  | abortAppend reservation context =>
      exact meets_ofEnds rfl (Ends.mono (abortAppend_spec hinv reservation context)
        (fun _ _ h => h.2.silent) fun _ _ h => h.silent)
  | commitAppendBatch reservations rows contexts =>
      refine meets_ofEnds rfl ?_
      rcases commitAppendBatch_cases reservations rows contexts cache with
        hdismissed | ⟨-, -, -, hfinalizes⟩
      · exact hdismissed.silent
      · exact hfinalizes.silent hinv fun item state hstate => Ends.mono
          (commitAppend_spec hstate item.1.1 item.1.2 item.2)
          (fun _ _ h => ⟨h.1, h.2.silent⟩) fun _ _ h => h.silent
  | abortAppendBatch reservations contexts =>
      refine meets_ofEnds rfl ?_
      rcases abortAppendBatch_cases reservations contexts cache with
        hdismissed | ⟨-, -, hfinalizes⟩
      · exact hdismissed.silent
      · exact hfinalizes.silent hinv fun item state hstate => Ends.mono
          (abortAppend_spec hstate item.1 item.2)
          (fun _ _ h => ⟨h.1, h.2.silent⟩) fun _ _ h => h.silent
  | withAppendPages reservation lend =>
      refine meets_ofEnds rfl (Ends.mono (withAppendPages_spec hinv reservation lend)
        (fun _ _ h => h.calls.silent) ?_)
      rintro failure cache' (⟨_, -, -, rfl⟩ | ⟨-, hcalled, -⟩)
      · exact .refl
      · exact hcalled.calls.silent
  | withAppendReservations reservations lend =>
      refine meets_ofEnds rfl (Ends.mono
        (withAppendReservations_spec hinv reservations lend) (fun _ _ h => h.calls.silent) ?_)
      rintro failure cache' (⟨_, -, _, -, -, rfl⟩ | ⟨-, hcalled, -⟩)
      · exact .refl
      · exact hcalled.calls.silent
  | retainPrefix sequence tokens snapshot context =>
      exact meets_ofEnds rfl (retainPrefix_silent hlaw hinv sequence tokens snapshot context)
  | evictPrefix entry context =>
      refine meets_ofEnds rfl (Ends.mono (evictPrefix_spec hlaw hinv entry context) ?_ ?_)
      · rintro - cache' ⟨-, -, retired, physical, deferred, hevicted⟩
        exact hevicted.retirement.silent
      · rintro failure cache' (⟨-, -, rfl⟩ | ⟨-, -, hcalled⟩)
        · exact .refl
        · exact hcalled.calls.silent
  | lookupPrefix tokens =>
      refine meets_ofEnds rfl (Ends.mono (lookupPrefix_spec hinv tokens) ?_ ?_)
      · rintro result cache' ⟨htouched, -⟩
        rw [htouched.state]
        exact .refl
      · rintro failure cache' ⟨-, -, htouched⟩
        rw [htouched.state]
        exact .refl
  | finish sequence context =>
      refine meets_ofEnds rfl (Ends.mono (finish_spec hlaw hinv sequence context) ?_ ?_)
      · rintro - cache' ⟨-, record, physical, deferred, hfinished⟩
        exact hfinished.retirement.silent
      · rintro failure cache' (⟨-, -, rfl⟩ | ⟨record, -, ⟨-, -, rfl⟩ | ⟨-, -, rfl⟩ | ⟨-, hcalled⟩⟩)
        · exact .refl
        · exact .refl
        · exact .refl
        · exact hcalled.calls.silent
  | reclaimDeferred context =>
      exact meets_ofEnds rfl (Ends.mono (reclaimDeferred_spec hinv context)
        (fun _ _ h => h.2.silent) fun _ _ h => h.2.calls.silent)

theorem branchMeets (hlaw : R.Retires) (hinv : Inv orphans stray cache) (source : SequenceId)
    (request : AdmissionRequest) (context : R.Context) :
    BranchMeets cache source request
      ((Operation.branch source request context).step cache) := by
  exact finalState_of_ends (branch_meets hlaw hinv source request context)

theorem meets (hlaw : R.Retires) (hinv : Inv orphans stray cache) (hcovered : Covered cache lost)
    (operation : Operation R) :
    Meets (cache.committedPages + lost.length + operation.overlap) cache.backend
      (operation.step cache).backend := by
  have hself : Midway cache orphans stray lost cache := ⟨hinv, hcovered, rfl, .refl⟩
  cases operation with
  | branch source request context =>
      have hroom := hself.room
      rcases branchMeets hlaw hinv source request context with hmeets | ⟨hmeets, -⟩
      · exact hmeets.mono (Nat.zero_le _)
      · refine hmeets.mono ?_
        rw [overlap]
        omega
  | reserveAppend sequence rows context =>
      exact (meets_ofEnds rfl (reserveAppend_meets hinv sequence rows context)).mono hself.room
  | reserveAppendBatch requests contexts =>
      exact meets_ofEnds rfl (reserveAppendBatch_meets hinv hcovered requests contexts)
  | _ => exact (silent hlaw hinv rfl).mono (Nat.zero_le _)

end Operation

namespace SequenceCache

/-- In every run without exhaustion, and in the middle of its calls, a call for a page finds a
free slot within the page capacity and within the byte budget, and is made by a reservation or
a branch.  A page lost by an earlier branch still takes up its slot, and a branch may be one
page early. -/
theorem slots_suffice (hlaw : R.Retires) (hhonest : R.ImmediateHonest)
    {config : CacheConfig} {start final : SequenceCache R}
    (hnew : SequenceCache.new R config = .ok start) {operations : List (Operation R)}
    (hintact : AllAllowed Operation.step
      (fun cache operation => ¬ Exhausted (operation.result cache)) operations start)
    (hfinal : runAll Operation.step operations start = final) (operation : Operation R)
    {later earlier : R.History} {event : R.Event}
    (hcall : (operation.step final).backend = later ++ event :: earlier)
    (hduring : final.backend.length ≤ earlier.length) (hasks : event.isAcquisition = true) :
    operation.asks = true ∧ occupied earlier + 1 ≤
        final.pageCapacity + (lostPages operations start).length + operation.overlap ∧
      (occupied earlier + 1) * final.pageBytes ≤ config.maxManagedBytes +
        ((lostPages operations start).length + operation.overlap) * final.pageBytes := by
  have hinv : ∃ stray, Inv [] stray start := ⟨[], inv_of_new hnew⟩
  have haccounted := (accounted_new hnew).runAll hlaw hinv hintact
  have hreach : ReachesIntact start (runAll Operation.step operations start) :=
    Reachable.start.runAll hintact
  rw [hfinal, List.nil_append] at haccounted
  rw [hfinal] at hreach
  obtain ⟨stray, hlast⟩ := hreach.inv hlaw hinv
  have hbudgets := hreach.reaches.budgets hlaw hhonest hnew
  have hlt := (operation.meets hlaw hlast haccounted.covered).occupied_lt hcall hduring hasks
  have hasked : operation.asks = true := by
    rw [← Bool.not_eq_false]
    intro hsilent
    have hnone := (Operation.silent hlaw hlast hsilent).occupied_lt hcall hduring hasks
    exact Nat.not_lt_zero _ hnone
  have hpages := hbudgets.pages.trans hbudgets.slots
  have hbytes := hbudgets.bytes.trans hbudgets.total
  have hmul := Nat.mul_le_mul_right final.pageBytes (show occupied earlier + 1 ≤ _ from hlt)
  rw [Nat.add_assoc, Nat.add_mul final.committedPages] at hmul
  rw [committedBytes] at hbytes
  exact ⟨hasked, by omega, by omega⟩

end SequenceCache

namespace Reference

/-- A backend with two slots. -/
@[reducible]
def tight : Runtime := runtime 1 (some 2) fun _ => false

def twoSlots : SequenceCache tight := (SequenceCache.emptyCache tight ⟨2, 9, 4, none, 0⟩).refresh

/-- Sequence of two pages. -/
def opening : Operation tight := .admitSequence none ⟨4, 0, 0, false⟩ 7 fun _ _ => .ok ()

def filling : Operation tight := .reserveAppend ⟨0, 0⟩ 4 7

end Reference

open Reference in
/-- The reservation asks for a second page when one of the two slots is taken. -/
theorem SequenceCache.slots_suffice_filling :
    ∃ earlier event later, (filling.step (opening.step twoSlots)).backend =
        later ++ event :: earlier ∧ event.isAcquisition = true ∧ occupied earlier = 1 ∧
      occupied earlier + 1 ≤ (opening.step twoSlots).pageCapacity := by
  have hlength : 2 < (filling.step (opening.step twoSlots)).backend.length := by decide
  have hevent : (filling.step (opening.step twoSlots)).backend[2].isAcquisition = true := rfl
  have hearlier : occupied ((filling.step (opening.step twoSlots)).backend.drop 3) = 1 := by decide
  have hduring : (opening.step twoSlots).backend.length ≤
      ((filling.step (opening.step twoSlots)).backend.drop 3).length := by decide
  have hsplit : (filling.step (opening.step twoSlots)).backend =
      (filling.step (opening.step twoSlots)).backend.take 2 ++
        (filling.step (opening.step twoSlots)).backend[2] ::
          (filling.step (opening.step twoSlots)).backend.drop 3 := by
    rw [← List.drop_eq_getElem_cons hlength, List.take_append_drop]
  have hnew : SequenceCache.new tight ⟨2, 9, 4, none, 0⟩ = .ok twoSlots := rfl
  have hintact : AllAllowed Operation.step
      (fun cache operation => ¬ Exhausted (operation.result cache)) [opening] twoSlots := by decide
  have hkept : (lostPages [opening] twoSlots).length = 0 := by decide
  have hroom := (slots_suffice (runtime_lawful _ _ _).toRetires (runtime_immediateHonest _ _ _) hnew
    hintact rfl filling hsplit hduring hevent).2.1
  rw [hkept] at hroom
  exact ⟨_, _, _, hsplit, hevent, hearlier, hroom⟩

/-! ## A copy before its evictions -/

namespace SequenceCache

variable {cache cache' start : SequenceCache R} {orphans : List PageId}
variable {stray : List TokenBlockId} {source : SequenceId} {request : AdmissionRequest}
variable {record : SequenceRecord R.AppendTransaction} {extra limit : ℕ}
variable {plan : List PrefixEntryId}

/-- The first call after `history` asks for a page. -/
def AsksFirst (history history' : R.History) : Prop :=
  ∃ later event, history' = later ++ event :: history ∧ event.isAcquisition = true

omit [DecidableEq R.Page] in
theorem AsksFirst.append {history history' : R.History} (h : AsksFirst history history')
    (added : R.History) : AsksFirst history (added ++ history') := by
  obtain ⟨later, event, rfl, hevent⟩ := h
  exact ⟨added ++ later, event, (List.append_assoc _ _ _).symm, hevent⟩

omit [DecidableEq R.Page] in
/-- A branch whose checks all passed asks for the copy of a partial page before anything else. -/
theorem AsksCopy.ends (h : AsksCopy cache source request record extra limit plan)
    (hlaw : R.Retires) (hinv : Inv orphans stray cache) (context : R.Context) :
    Ends (branch source request context cache)
      (fun _ cache' => AsksFirst cache.backend cache'.backend)
      (fun _ cache' => AsksFirst cache.backend cache'.backend) := by
  have hrecord := h.quoted.live
  have hshared := branchShared_complete hinv hrecord
  have hle : (if (cache.branchPartial record).isSome then 1 else 0) ≤
      cache.branchCommitment record request := by
    have htable := length_branchTable hinv hrecord
    have hceil := ceilDiv_mono hinv.config.pageTokens_pos h.quoted.position_le
    unfold branchCommitment
    omega
  rw [branch_run hinv h.quoted h.planned (Nat.sub_add_cancel hle) h.slot fun _ => h.page_slot]
  refine Ends.bind (Ends.mono (copyTail_spec record.position context (cache.branchPartial record)
    fun id htail => branchPartial_live hinv hrecord htail) (fun _ _ h => h) ?_) ?_
  · rintro failure cache' ⟨-, -, -, event, hbackend, hevent⟩
    exact ⟨[], event, hbackend, hevent⟩
  rintro copied middle ⟨hcopies, hmiddle⟩
  generalize middle.backend = history at hcopies hmiddle
  subst hmiddle
  have hfirst : AsksFirst cache.backend history := by
    obtain ⟨tail, htail⟩ := Option.isSome_iff_exists.mp h.unaligned
    obtain ⟨-, storage, copy, -, -, -, -, rfl⟩ := hcopies.partial_tail tail htail
    exact ⟨[], _, rfl, rfl⟩
  refine Ends.bind (Ends.mono (publishBranch_spec hcopies.calls fun id hmem =>
    (hshared id hmem).imp fun page h => ⟨h.1, h.2.1⟩) (fun _ _ h => h) ?_) ?_
  · rintro failure cache' ⟨-, -, later, hlater⟩
    rw [hlater]
    exact hfirst.append later
  rintro - started hpublished
  have hforked : Forked cache started source request context record copied history _ extra limit
      plan := ⟨h.quoted, h.planned, by rw [hcopies.isSome_iff, Nat.sub_add_cancel hle], h.slot,
    fun _ => h.page_slot, hcopies, hpublished⟩
  have hstarted : AsksFirst cache.backend started.backend := by
    obtain ⟨table, -, -, rfl⟩ := hpublished
    exact hfirst.append [_]
  refine Ends.mono (hforked.ends hinv) ?_ ?_
  · rintro outcome cache' ⟨-, fresh, id, evicted, retired, physical, deferred, -, hadmission⟩
    obtain ⟨later, hlater⟩ := hadmission.carried_out.retirement.suffix
    rw [hadmission.admitted.backend, hlater]
    exact hstarted.append later
  · rintro failure cache' (⟨-, hcalled⟩ | hbreached)
    · obtain ⟨later, hlater⟩ := hcalled.calls.suffix
      rw [hlater]
      exact hstarted.append later
    · exact absurd hbreached (not_breached hlaw _ _)

/-- A plan that retires no page leaves room for the copy at once. -/
theorem AsksCopy.room (h : AsksCopy cache source request record extra limit plan)
    (hinv : Inv orphans stray cache) (hcovered : Covered cache [])
    (hkept : cache.freedBy (cache.pagesOf plan) = []) :
    occupied cache.backend < cache.pageCapacity ∧
      (occupied cache.backend + 1) * cache.pageBytes ≤ cache.config.maxManagedBytes := by
  have hrecord := h.quoted.live
  have hplan : Plan cache extra (cache.branchCommitment record request) limit none
      cache.stats.retainedSnapshotBytes cache.prefixes.size plan := by
    rcases planEvictions_cases hinv none none le_rfl le_rfl with ⟨-, herror⟩ |
      ⟨result, hresult, hplan⟩
    · rw [h.planned] at herror
      cases herror
    · rw [h.planned] at hresult
      exact hplan plan (Except.ok.inj hresult).symm
  have hcredit : cache.creditOf (cache.pagesOf plan) = 0 := by
    rw [creditOf, hkept, List.length_nil, ite_self]
  have hcommitment : 1 ≤ cache.branchCommitment record request := by
    have htable := length_branchTable hinv hrecord
    have hceil := ceilDiv_mono hinv.config.pageTokens_pos h.quoted.position_le
    rw [if_pos h.unaligned] at htable
    unfold branchCommitment
    omega
  have hoccupied : occupied cache.backend ≤ cache.stats.residentPages := by
    have hle := hcovered.occupied_le
    have hresident := hinv.published.resident_le
    have hdeferred := hinv.counted.deferred
    rw [List.length_nil] at hle
    unfold residentNow at hresident
    omega
  constructor
  · have hpages := hplan.pages_le
    omega
  · have hbytes := hplan.bytes_le
    have hlimit := admissionLimit_le h.quoted.limit
    have hsnapshots := snapshotsOf_le hinv.counted hplan.nodup hplan.live
    have hextra := admissionBytes_eq h.quoted.bytes
    have htotal := hinv.total_eq
    have hfirst := Nat.mul_le_mul_right cache.pageBytes hoccupied
    have hsecond := Nat.mul_le_mul_right cache.pageBytes hcommitment
    rw [hcredit, Nat.zero_mul] at hbytes
    rw [Nat.add_mul]
    unfold chargedBytes at htotal
    omega

end SequenceCache

namespace Operation

open SequenceCache

/-- The branch asks for a copy of a partial page and counts on pages that its plan is yet to
retire, while the slots of the backend, or the bytes, are all taken. -/
def CopiesEarly : Operation R → SequenceCache R → Prop
  | .branch source request _, cache => ∃ record extra limit plan,
      AsksCopy cache source request record extra limit plan ∧
      cache.freedBy (cache.pagesOf plan) ≠ [] ∧
      (cache.pageCapacity ≤ occupied cache.backend ∨
        cache.config.maxManagedBytes < (occupied cache.backend + 1) * cache.pageBytes)
  | _, _ => False

/-- Whenever the call asks the backend for a page, a slot is free for it, and the bytes. -/
def FindsRoom (operation : Operation R) (cache : SequenceCache R) : Prop :=
  ∀ later event earlier, (operation.step cache).backend = later ++ event :: earlier →
    cache.backend.length ≤ earlier.length → event.isAcquisition = true →
      occupied earlier < cache.pageCapacity ∧
        (occupied earlier + 1) * cache.pageBytes ≤ cache.config.maxManagedBytes

variable {cache : SequenceCache R} {orphans : List PageId} {stray : List TokenBlockId}
variable {operation : Operation R} {bound : ℕ}

/-- Calls that find fewer than `bound` slots taken find room, if there are so many. -/
theorem findsRoom_of_meets (hmeets : Meets bound cache.backend (operation.step cache).backend)
    (hslots : bound ≤ cache.pageCapacity)
    (hbytes : bound * cache.pageBytes ≤ cache.config.maxManagedBytes) :
    operation.FindsRoom cache := by
  intro later event earlier hcall hduring hevent
  have hlt := hmeets.occupied_lt hcall hduring hevent
  exact ⟨hlt.trans_le hslots, (Nat.mul_le_mul_right _ hlt).trans hbytes⟩

/-- Within the limits every call finds room, unless it is a branch that copies early. -/
theorem findsRoom (hlaw : R.Retires) (hinv : Inv orphans stray cache) (hcovered : Covered cache [])
    (hbudgets : WithinBudgets cache cache.config.maxManagedBytes)
    (hlate : ¬ operation.CopiesEarly cache) : operation.FindsRoom cache := by
  have hslots : cache.committedPages ≤ cache.pageCapacity := hbudgets.pages.trans hbudgets.slots
  have hbytes : cache.committedPages * cache.pageBytes ≤ cache.config.maxManagedBytes := by
    have hle := hbudgets.bytes.trans hbudgets.total
    rw [committedBytes] at hle
    omega
  have hpromised : operation.overlap = 0 → operation.FindsRoom cache := by
    intro hzero
    have hmeets := operation.meets hlaw hinv hcovered
    rw [hzero, List.length_nil] at hmeets
    exact findsRoom_of_meets hmeets hslots hbytes
  cases operation with
  | branch source request context =>
      rcases branchMeets hlaw hinv source request context with
        hsilent | ⟨hmeets, record, extra, limit, plan, hasks⟩
      · exact findsRoom_of_meets hsilent (Nat.zero_le _) (by rw [Nat.zero_mul]; exact Nat.zero_le _)
      · obtain ⟨hroom, hfits⟩ : occupied cache.backend < cache.pageCapacity ∧
            (occupied cache.backend + 1) * cache.pageBytes ≤ cache.config.maxManagedBytes := by
          by_cases hkept : cache.freedBy (cache.pagesOf plan) = []
          · exact hasks.room hinv hcovered hkept
          · by_contra hfull
            refine hlate ⟨record, extra, limit, plan, hasks, hkept, ?_⟩
            rwa [not_and_or, Nat.not_lt, Nat.not_le] at hfull
        exact findsRoom_of_meets hmeets hroom hfits
  | _ => exact hpromised rfl

/-- A branch that copies early asks for a page when there is no room for it. -/
theorem CopiesEarly.not_findsRoom (h : operation.CopiesEarly cache) (hlaw : R.Retires)
    (hinv : Inv orphans stray cache) : ¬ operation.FindsRoom cache := by
  intro hroom
  cases operation with
  | branch source request context =>
      obtain ⟨record, extra, limit, plan, hasks, -, hfull⟩ := h
      have hfirst : AsksFirst cache.backend
          ((Operation.branch source request context).step cache).backend :=
        finalState_of_ends (hasks.ends hlaw hinv context)
      obtain ⟨later, event, hcall, hevent⟩ := hfirst
      obtain ⟨hslots, hbytes⟩ := hroom later event cache.backend hcall le_rfl hevent
      omega
  | _ => exact h

end Operation

namespace SequenceCache

/-- In every run whose branches lose no copy, a call finds room for every page it asks for, in
the middle of the call as between calls, exactly when it is no branch that copies early. -/
theorem findsRoom_iff (hlaw : R.Retires) (hhonest : R.ImmediateHonest) {config : CacheConfig}
    {start cache : SequenceCache R} (hnew : SequenceCache.new R config = .ok start)
    (hreach : Reachable Operation.step (fun cache operation => ¬ operation.LosesCopy cache) start
      cache) (operation : Operation R) :
    operation.FindsRoom cache ↔ ¬ operation.CopiesEarly cache := by
  obtain ⟨hcovered, orphans, stray, hinv⟩ :
      Covered cache [] ∧ ∃ orphans stray, Inv orphans stray cache := by
    induction hreach with
    | start => exact ⟨(accounted_new hnew).covered, [], [], inv_of_new hnew⟩
    | step operation _ hallowed ih =>
        obtain ⟨hcovered, orphans, stray, hinv⟩ := ih
        exact ⟨(operation.balances hlaw hinv hallowed).covered hcovered, operation.inv hlaw hinv⟩
  have hreaches : Reaches start cache := hreach.mono fun _ _ _ => trivial
  obtain ⟨-, -, -, -, hconfig⟩ := hreaches.inv_within hlaw hhonest hnew
  have hbudgets := hreaches.budgets hlaw hhonest hnew
  rw [← hconfig] at hbudgets
  exact ⟨fun hroom hearly => hearly.not_findsRoom hlaw hinv hroom,
    operation.findsRoom hlaw hinv hcovered hbudgets⟩

end SequenceCache

open Reference in
/-- The reservation finds room for both of its pages. -/
theorem SequenceCache.findsRoom_iff_filling : filling.FindsRoom (opening.step twoSlots) := by
  have hreach : Reachable Operation.step (fun cache operation => ¬ operation.LosesCopy cache)
      twoSlots (opening.step twoSlots) := .step opening .start id
  have hnew : SequenceCache.new tight ⟨2, 9, 4, none, 0⟩ = .ok twoSlots := rfl
  exact (findsRoom_iff (runtime_lawful _ _ _).toRetires (runtime_immediateHonest _ _ _) hnew hreach
    filling).mpr id

namespace Reference

/-- A backend with three slots. -/
@[reducible]
def pool : Runtime := runtime 1 (some 3) fun _ => false

def emptyPool : SequenceCache pool := (SequenceCache.emptyCache pool ⟨2, 64, 4, none, 0⟩).refresh

/-- A retained page and a sequence of three rows, which take up all three slots. -/
def fillingPool : List (Operation pool) :=
  [.admitSequence none ⟨2, 0, 0, false⟩ 7 fun _ _ => .ok (), .reserveAppend ⟨0, 0⟩ 2 7,
    .commitAppend ⟨⟨0, 0⟩, 0, 2, [⟨⟨0, 0⟩, 0, 0, 2⟩], 0⟩ 2 7,
    .retainPrefix ⟨0, 0⟩ [1, 1] 4 7, .finish ⟨0, 0⟩ 7,
    .admitSequence none ⟨4, 0, 0, false⟩ 8 fun _ _ => .ok (), .reserveAppend ⟨0, 1⟩ 3 8,
    .commitAppend ⟨⟨0, 1⟩, 0, 3, [⟨⟨1, 0⟩, 0, 0, 2⟩, ⟨⟨2, 0⟩, 0, 2, 1⟩], 1⟩ 3 8]

def fullPool : SequenceCache pool := runAll Operation.step fillingPool emptyPool

/-- A branch that evicts the retained page to make room for its copy. -/
def forking : Operation pool := .branch ⟨0, 1⟩ ⟨4, 0, 0, false⟩ 9

end Reference

open Reference in
/-- The branch asks for a fourth page while all three slots are taken. -/
theorem SequenceCache.forking_overcommits :
    pool.Lawful ∧ pool.ImmediateHonest ∧
      SequenceCache.new pool ⟨2, 64, 4, none, 0⟩ = .ok emptyPool ∧
      ReachesIntact emptyPool fullPool ∧ fullPool.pageCapacity = 3 ∧
      ¬ forking.FindsRoom fullPool := by
  have hlength : 2 < (forking.step fullPool).backend.length := by decide +kernel
  have hsplit : (forking.step fullPool).backend = (forking.step fullPool).backend.take 2 ++
      (forking.step fullPool).backend[2] :: (forking.step fullPool).backend.drop 3 := by
    rw [← List.drop_eq_getElem_cons hlength, List.take_append_drop]
  have hasks : (forking.step fullPool).backend[2]?.map BackendEvent.isAcquisition = some true := by
    decide +kernel
  have hevent : (forking.step fullPool).backend[2].isAcquisition = true := by
    rw [List.getElem?_eq_getElem hlength] at hasks
    exact Option.some.inj hasks
  have hearlier : occupied ((forking.step fullPool).backend.drop 3) = 3 := by decide +kernel
  have hduring : fullPool.backend.length ≤ ((forking.step fullPool).backend.drop 3).length := by
    decide +kernel
  have hcapacity : fullPool.pageCapacity = 3 := by decide +kernel
  refine ⟨runtime_lawful _ _ _, runtime_immediateHonest _ _ _, rfl,
    Reachable.start.runAll (by decide +kernel), hcapacity, fun hroom => ?_⟩
  have hslots := (hroom _ _ _ hsplit hduring hevent).1
  omega

end SeqCache
