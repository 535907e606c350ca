import SeqCache.Core.Traces
import SeqCache.Run.Reachable

/-!
# Reservations that are kept, and used once

A sequence was admitted with all the pages it may ever need, so a reservation within its
maximal position is never refused for a lack of them.  The capability it returns can be
consumed once: its nonce is never issued again, so from the moment it no longer matches the
pending append of its sequence it never will.
-/

namespace SeqCache

open Machine Program Std

variable {R : Runtime}

namespace SequenceCache

variable {cache cache' : SequenceCache R} {reservation : AppendReservation}

/-! ## Strict admission -/

/-- A reservation within the position that a sequence was admitted for fails only where an
identity space is exhausted or the backend refuses one of its calls. -/
theorem reserveAppend_granted (hlaw : R.Retires) {config : CacheConfig}
    {start cache : SequenceCache R} (hnew : SequenceCache.new R config = .ok start)
    (hreach : ReachesIntact start cache) {sequence : SequenceId}
    {record : SequenceRecord R.AppendTransaction}
    (hrecord : cache.sequences.get? sequence = some record) (hidle : record.pending = none)
    {rows : ℕ} (hrows : 1 ≤ rows) (hle : rows ≤ record.maxPosition - record.position)
    (context : R.Context) (hslots : ¬ Depleted cache sequence rows)
    (haccepts : ∀ error, ¬ Refuses cache.backend
      (finalState (reserveAppend sequence rows context cache)).backend error) :
    ∃ reservation, outcome (reserveAppend sequence rows context cache) = .ok reservation := by
  obtain ⟨stray, hinv⟩ := hreach.inv hlaw ⟨[], inv_of_new hnew⟩
  have hreservable : Reservable cache sequence rows :=
    ⟨hrows, record, hrecord, hidle, by omega⟩
  have hspec := reserveAppend_spec hinv sequence rows context
  cases hrun : reserveAppend sequence rows context cache with
  | ok reservation cache' => exact ⟨reservation, rfl⟩
  | error failure cache' =>
      rw [hrun] at hspec haccepts
      obtain ⟨-, hfails, -⟩ := hspec
      obtain ⟨error, -, hrefused⟩ | ⟨-, hdepleted⟩ | ⟨-, hunreservable⟩ := (hfails rfl).2
      · exact absurd hrefused (haccepts error)
      · exact absurd hdepleted hslots
      · exact absurd hreservable hunreservable

/-- Five more rows for the unaligned sequence fill it up. -/
theorem reserveAppend_granted_unaligned :
    ∃ reservation, outcome (@reserveAppend Reference.plain ⟨0, 1⟩ 5 (8 : ℕ)
      (Reference.after Reference.unaligned)) = .ok reservation := by
  have hreach : ReachesIntact Reference.start (Reference.after Reference.unaligned) :=
    Reference.reachesIntact_after (by decide +kernel)
  obtain ⟨record, hrecord, hidle, hroom, hlength, hposition⟩ : ∃ record,
      (Reference.after Reference.unaligned).sequences.get? ⟨0, 1⟩ = some record ∧
      record.pending = none ∧ record.maxPosition - record.position = 5 ∧
      record.pages.length = 2 ∧ record.position = 3 := by
    refine ⟨_, Option.some_get (show Option.isSome _ = true by decide +kernel) |>.symm, ?_⟩
    decide +kernel
  have haccepted : (finalState (@reserveAppend Reference.plain ⟨0, 1⟩ 5 (8 : ℕ)
      (Reference.after Reference.unaligned))).backend.all
        (fun event => event.failure?.isNone) = true := by decide +kernel
  have hcounts : (Reference.after Reference.unaligned).appendNonce = 2 ∧
      (Reference.after Reference.unaligned).pages.values.length = 3 ∧
      (Reference.after Reference.unaligned).config.pageTokens = 2 := by decide +kernel
  generalize Reference.after Reference.unaligned = cache at *
  refine reserveAppend_granted Reference.plain_lawful.toRetires Reference.new_start hreach hrecord
    hidle (by decide) hroom.ge 8 ?_ (not_refuses haccepted)
  rintro (hnonce | ⟨found, hfound, hslots⟩)
  · rw [hcounts.1] at hnonce
    exact absurd hnonce (by decide)
  · obtain rfl : record = found := Option.some.inj (hrecord.symm.trans hfound)
    rw [missingPages, hcounts.2.1, hcounts.2.2, hposition, hlength] at hslots
    exact absurd hslots (by decide +kernel)

/-! ## Single use -/

/-- The reservation is not that of a pending append. -/
def Spent (reservation : AppendReservation) (cache : SequenceCache R) : Prop :=
  ¬ ∃ record pending, Matches cache reservation record pending

/-- A reservation that was issued and no longer matches never will. -/
theorem Follows.spent (h : Follows cache cache') (hissued : reservation.nonce < cache.appendNonce)
    (hspent : Spent reservation cache) : Spent reservation cache' := by
  rintro ⟨record', pending', hmatches⟩
  obtain hnew | ⟨record, change, hrecord, rfl⟩ :=
    h.pending _ _ _ hmatches.live hmatches.waiting
  · rw [← hmatches.nonce] at hnew
    omega
  · have hwaiting := hmatches.waiting
    rw [SequenceRecord.mapTransaction] at hwaiting
    obtain ⟨pending, hpending, rfl⟩ := Option.map_eq_some_iff.mp hwaiting
    exact hspent ⟨record, pending, hrecord, hpending, hmatches.startPosition, hmatches.rows,
      hmatches.segments, hmatches.nonce⟩

theorem spent_of_stale (h : cache.sequences.get? reservation.sequence = none) :
    Spent reservation cache := by
  rintro ⟨record, pending, hmatches⟩
  rw [hmatches.live] at h
  cases h

/-- A sequence has at most one pending append, so at most one reservation matches. -/
theorem spent_of_other {other : AppendReservation} (hne : other ≠ reservation)
    (hsequence : other.sequence = reservation.sequence)
    (hvalid : (cache.validateReservation other).isOk = true) : Spent reservation cache := by
  obtain ⟨record, pending, hother⟩ := validateReservation_isOk.mp hvalid
  rintro ⟨record', pending', hmatches⟩
  have hrecord := hother.live
  rw [hsequence, hmatches.live] at hrecord
  obtain rfl := Option.some.inj hrecord
  obtain rfl := Option.some.inj (hmatches.waiting.symm.trans hother.waiting)
  apply hne
  cases other
  cases reservation
  simp only [AppendReservation.mk.injEq]
  exact ⟨hsequence, hother.startPosition.trans hmatches.startPosition.symm,
    hother.rows.trans hmatches.rows.symm, hother.segments.trans hmatches.segments.symm,
    hother.nonce.trans hmatches.nonce.symm⟩

/-- A finalization consumes its reservation. -/
theorem Finalized.spent {committed : ℕ} {context : R.Context}
    (h : Finalized cache reservation committed context cache') :
    ¬ Spent reservation cache ∧ Spent reservation cache' := by
  obtain ⟨record, pending, event, hmatches, -, hsettled⟩ := h
  refine ⟨fun hspent => hspent ⟨record, pending, hmatches⟩, ?_⟩
  rintro ⟨record', pending', hmatches'⟩
  have hlive := hmatches'.live
  rw [hsettled.sequences, Arena.get?_set hsettled.live, if_pos rfl] at hlive
  have hwaiting := hmatches'.waiting
  rw [← Option.some.inj hlive] at hwaiting
  cases hwaiting

/-! ## What a batch consumes -/

section Batches

variable {ι : Type} {call : ι → CacheM R Unit}

/-- A loop over calls ends in the state in which it was stopped. -/
theorem finalState_loop {loop : List ι → ℕ → CacheM R (BatchResult R Unit)}
    {batch : List AppendReservation} (hnil : ∀ index, loop [] index = pure (.ok ()))
    (hcons : ∀ item rest index, loop (item :: rest) index = (do
      match ← attempt (call item) with
      | .ok () => loop rest (index + 1)
      | .error error => batchFailure batch error (some index)))
    (items : List ι) (index : ℕ) (cache : SequenceCache R) :
    finalState (loop items index cache) = stoppedState call items cache := by
  induction items generalizing index cache with
  | nil => rw [hnil]; rfl
  | cons item rest ih =>
      rw [hcons, stoppedState]
      cases hrun : call item cache with
      | ok value middle =>
          rw [bind_ok (attempt_ok hrun)]
          exact ih (index + 1) middle
      | error failure stop =>
          cases failure with
          | error error => rw [bind_ok (attempt_error hrun)]; rfl
          | panic message => rw [bind_error (attempt_panic hrun)]; rfl

theorem finalState_commitEach (batch : List AppendReservation)
    (items : List ((AppendReservation × ℕ) × R.Context)) (index : ℕ) (cache : SequenceCache R) :
    finalState (commitEach batch items index cache) = stoppedState commitItem items cache :=
  finalState_loop (fun _ => rfl) (fun ⟨⟨_, _⟩, _⟩ _ _ => rfl) items index cache

theorem finalState_abortEach (batch : List AppendReservation)
    (items : List (AppendReservation × R.Context)) (index : ℕ) (cache : SequenceCache R) :
    finalState (abortEach batch items index cache) = stoppedState abortItem items cache :=
  finalState_loop (fun _ => rfl) (fun ⟨_, _⟩ _ _ => rfl) items index cache

end Batches

end SequenceCache

/-! ## What a call issues and consumes -/

open SequenceCache

/-- Reservations that a reply hands to the caller for the first time. -/
def Reply.issued : Reply R → List AppendReservation
  | .reservation granted => [granted]
  | .reservations (.ok granted) => granted
  | .reservations (.error failure) => failure.pending
  | _ => []

/-- The error of a call, also when a batch reports it. -/
def callError : Except (Failure R.Error) (Reply R) → Option (CacheError R.Error)
  | .ok reply => reply.batchError
  | .error (.error error) => some error
  | .error (.panic _) => none

namespace Operation

/-- Reservations that a call returns, directly or in a batch. -/
def issues (operation : Operation R) (cache : SequenceCache R) : List AppendReservation :=
  match operation.result cache with
  | .ok reply => reply.issued
  | .error _ => []

/-- Reservations that a call commits or aborts with success, in order. -/
def consumes : Operation R → SequenceCache R → List AppendReservation
  | .commitAppend reservation rows context, cache =>
      if (outcome (SequenceCache.commitAppend reservation rows context cache)).isOk then
        [reservation]
      else []
  | .abortAppend reservation context, cache =>
      if (outcome (SequenceCache.abortAppend reservation context cache)).isOk then [reservation]
      else []
  | .commitAppendBatch reservations rows contexts, cache =>
      if reservations.length = rows.length ∧ reservations.length = contexts.length ∧
          (cache.checkCommits (reservations.zip rows) 0).isOk then
        (succeeding commitItem ((reservations.zip rows).zip contexts) cache).map (·.1.1)
      else []
  | .abortAppendBatch reservations contexts, cache =>
      if reservations.length = contexts.length ∧ (cache.checkAborts reservations 0).isOk then
        (succeeding abortItem (reservations.zip contexts) cache).map Prod.fst
      else []
  | _, _ => []

/-- Sequences that a call finishes. -/
def closes : Operation R → SequenceCache R → List SequenceId
  | .finish sequence context, cache =>
      if (outcome (SequenceCache.finish sequence context cache)).isOk then [sequence] else []
  | _, _ => []

/-- The call is made with the reservation, or with a batch that contains it. -/
def employs : Operation R → AppendReservation → Prop
  | .commitAppend used _ _, reservation => used = reservation
  | .abortAppend used _, reservation => used = reservation
  | .commitAppendBatch batch _ _, reservation => reservation ∈ batch
  | .abortAppendBatch batch _, reservation => reservation ∈ batch
  | .withAppendPages used _, reservation => used = reservation
  | .withAppendReservations lent _, reservation => reservation ∈ lent
  | _, _ => False

/-- The arguments of a batch do not fit together. -/
def Malformed : Operation R → Prop
  | .commitAppendBatch batch rows contexts => batch.length ≠ rows.length ∨
      batch.length ≠ contexts.length ∨ ∃ item ∈ batch.zip rows, ¬ Admissible item
  | .abortAppendBatch batch contexts => batch.length ≠ contexts.length
  | _ => False

/-- A call is rejected, and leaves everything as it was, because a reservation does not
match a pending append or because its arguments do not fit together. -/
def Rebuffed (operation : Operation R) (cache : SequenceCache R) : Prop :=
  operation.step cache = cache ∧ ∃ error, callError (operation.result cache) = some error ∧
    (error = .staleSequence ∨ error = .noAppendPending ∨ error = .appendReservationMismatch ∨
      operation.Malformed)

end Operation

namespace SequenceCache

/-! ## Runs -/

/-- What is kept along a run after the reservation was issued. -/
def Issued (reservation : AppendReservation) (cache : SequenceCache R) : Prop :=
  (∃ orphans stray, Inv orphans stray cache) ∧ reservation.nonce < cache.appendNonce

section Runs

variable {cache cache' : SequenceCache R} {reservation : AppendReservation}

theorem issued_step (hlaw : R.Retires) (operation : Operation R)
    (hissued : Issued reservation cache) : Issued reservation (operation.step cache) ∧
      (Spent reservation cache → Spent reservation (operation.step cache)) := by
  obtain ⟨⟨orphans, stray, hinv⟩, hnonce⟩ := hissued
  obtain ⟨orphans', stray', hinv'⟩ := operation.inv hlaw hinv
  have hfollows := operation.follows hlaw hinv
  exact ⟨⟨⟨orphans', stray', hinv'⟩, hnonce.trans_le hfollows.appendNonce⟩,
    hfollows.spent hnonce⟩

/-- A finalization that succeeds uses its reservation, and no other. -/
theorem finalize_usedOnce (hlaw : R.Retires) {operation : Operation R} {program : CacheM R Unit}
    {used : AppendReservation} (hrun : operation.run = (fun _ => Reply.done) <$> program)
    (hfinalized : ∀ orphans stray, Inv orphans stray cache → Ends (program cache)
      (fun _ cache' => ∃ committed context, Finalized cache used committed context cache')
      (fun _ _ => True))
    (hissued : Issued reservation cache) :
    Ends (program cache)
      (fun _ cache' => Issued reservation cache' ∧ UsedOnce (Spent reservation) cache cache'
        (if used == reservation then 1 else 0))
      (fun _ cache' => Spent reservation cache → Spent reservation cache') := by
  obtain ⟨hissued', hkept⟩ := issued_step hlaw operation hissued
  obtain ⟨⟨orphans, stray, hinv⟩, -⟩ := hissued
  have hends := hfinalized orphans stray hinv
  rw [Operation.step, hrun] at hissued' hkept
  cases hprogram : program cache with
  | error failure cache' =>
      rw [map_error _ hprogram] at hkept
      exact hkept
  | ok value cache' =>
      rw [hprogram] at hends
      rw [map_ok _ hprogram] at hissued' hkept
      refine ⟨hissued', ?_⟩
      obtain ⟨committed, context, hends⟩ := hends
      by_cases hsame : used = reservation
      · subst hsame
        rw [if_pos (beq_self_eq_true used)]
        exact ⟨hkept, fun hspent => absurd hspent hends.spent.1, le_rfl, fun _ => hends.spent.2⟩
      · rw [if_neg (by simpa using hsame)]
        exact .ofKept hkept

theorem commitItem_usedOnce (hlaw : R.Retires) (reservation : AppendReservation)
    (item : (AppendReservation × ℕ) × R.Context) (cache : SequenceCache R)
    (hissued : Issued reservation cache) :
    Ends (commitItem item cache)
      (fun _ cache' => Issued reservation cache' ∧ UsedOnce (Spent reservation) cache cache'
        (if item.1.1 == reservation then 1 else 0))
      (fun _ cache' => Spent reservation cache → Spent reservation cache') := by
  apply finalize_usedOnce hlaw (rfl : (Operation.commitAppend item.1.1 item.1.2 item.2).run = _)
    _ hissued
  exact fun _ _ hinv => Ends.mono (commitAppend_spec hinv item.1.1 item.1.2 item.2)
    (fun _ _ h => ⟨_, _, h.2⟩) fun _ _ _ => trivial

theorem abortItem_usedOnce (hlaw : R.Retires) (reservation : AppendReservation)
    (item : AppendReservation × R.Context) (cache : SequenceCache R)
    (hissued : Issued reservation cache) :
    Ends (abortItem item cache)
      (fun _ cache' => Issued reservation cache' ∧ UsedOnce (Spent reservation) cache cache'
        (if item.1 == reservation then 1 else 0))
      (fun _ cache' => Spent reservation cache → Spent reservation cache') := by
  apply finalize_usedOnce hlaw (rfl : (Operation.abortAppend item.1 item.2).run = _) _ hissued
  exact fun _ _ hinv => Ends.mono (abortAppend_spec hinv item.1 item.2)
    (fun _ _ h => ⟨_, _, h.2⟩) fun _ _ _ => trivial

/-- A single call that may consume a reservation. -/
theorem usedOnce_ofEnds {operation : Operation R} {program : CacheM R Unit}
    {used : AppendReservation}
    (hrun : operation.run = (fun _ => Reply.done) <$> program)
    (hconsumes : operation.consumes cache =
      if (outcome (program cache)).isOk then [used] else [])
    (h : Ends (program cache)
      (fun _ cache' => Issued reservation cache' ∧ UsedOnce (Spent reservation) cache cache'
        (if used == reservation then 1 else 0))
      (fun _ cache' => Spent reservation cache → Spent reservation cache')) :
    UsedOnce (Spent reservation) cache (operation.step cache)
      ((operation.consumes cache).count reservation) := by
  rw [hconsumes, Operation.step, hrun]
  cases hprogram : program cache with
  | error failure cache' =>
      rw [hprogram] at h
      rw [map_error _ hprogram]
      exact .ofKept h
  | ok value cache' =>
      rw [hprogram] at h
      rw [map_ok _ hprogram, outcome_ok]
      rw [Except.isOk, Except.toBool, if_pos rfl, List.count_singleton]
      exact h.2

theorem operation_usedOnce (hlaw : R.Retires) (operation : Operation R)
    (hissued : Issued reservation cache) :
    UsedOnce (Spent reservation) cache (operation.step cache)
      ((operation.consumes cache).count reservation) := by
  have hkept := (issued_step hlaw operation hissued).2
  cases operation with
  | commitAppend used rows context =>
      exact usedOnce_ofEnds rfl rfl (commitItem_usedOnce hlaw _ ((used, rows), context) _ hissued)
  | abortAppend used context =>
      exact usedOnce_ofEnds rfl rfl (abortItem_usedOnce hlaw _ (used, context) _ hissued)
  | commitAppendBatch reservations rows contexts =>
      rw [Operation.consumes]
      split_ifs with hchecked
      · obtain ⟨hrows, hcontexts, hcheck⟩ := hchecked
        rw [Operation.step, Operation.run, finalState_map,
          commitAppendBatch_checked hrows hcontexts hcheck, finalState_commitEach, List.count,
          List.countP_map]
        exact succeeding_usedOnce (commitItem_usedOnce hlaw reservation) _ hissued
      · exact .ofKept hkept
  | abortAppendBatch reservations contexts =>
      rw [Operation.consumes]
      split_ifs with hchecked
      · obtain ⟨hcontexts, hcheck⟩ := hchecked
        rw [Operation.step, Operation.run, finalState_map,
          abortAppendBatch_checked hcontexts hcheck, finalState_abortEach, List.count,
          List.countP_map]
        exact succeeding_usedOnce (abortItem_usedOnce hlaw reservation) _ hissued
      · exact .ofKept hkept
  | _ => exact .ofKept hkept

/-! ## Spent reservations are rejected -/

/-- A program that ends with the rejection of a reservation. -/
theorem rebuffed_ofError {operation : Operation R} {program : CacheM R Unit}
    {used : AppendReservation} {error : CacheError R.Error}
    (hrun : operation.run = (fun _ => Reply.done) <$> program)
    (hvalid : cache.validateReservation used = .error error)
    (herror : program cache = .error (.error error) cache) : operation.Rebuffed cache := by
  rw [Operation.Rebuffed, Operation.step, Operation.result, hrun, map_error _ herror]
  refine ⟨rfl, error, rfl, ?_⟩
  obtain ⟨hstale, -⟩ | hnone | hmismatch := validateReservation_error hvalid
  · exact Or.inl hstale
  · exact Or.inr (Or.inl hnone)
  · exact Or.inr (Or.inr (Or.inl hmismatch))

/-- A batch that ends before its first call. -/
theorem rebuffed_ofDismissed {operation : Operation R} {program : CacheM R (BatchResult R Unit)}
    {failure : AppendBatchError R.Error} (hrun : operation.run = Reply.finalized <$> program)
    (herror : program cache = .ok (.error failure) cache)
    (hcause : (∃ used, cache.validateReservation used = .error failure.error) ∨
      operation.Malformed) : operation.Rebuffed cache := by
  rw [Operation.Rebuffed, Operation.step, Operation.result, hrun, map_ok _ herror]
  refine ⟨rfl, failure.error, rfl, ?_⟩
  obtain ⟨used, hvalid⟩ | hmalformed := hcause
  · obtain ⟨hstale, -⟩ | hnone | hmismatch := validateReservation_error hvalid
    · exact Or.inl hstale
    · exact Or.inr (Or.inl hnone)
    · exact Or.inr (Or.inr (Or.inl hmismatch))
  · exact Or.inr (Or.inr (Or.inr hmalformed))

theorem Spent.requireReservation (hspent : Spent reservation cache) : ∃ error,
    cache.validateReservation reservation = .error error ∧
      SequenceCache.requireReservation reservation cache = .error (.error error) cache := by
  obtain hfails | ⟨-, hmatches⟩ := requireReservation_cases cache reservation
  · exact hfails
  · exact absurd hmatches hspent

theorem Spent.rebuffed (hspent : Spent reservation cache) {operation : Operation R}
    (hemploys : operation.employs reservation) : operation.Rebuffed cache := by
  obtain ⟨error, hvalid, hrequire⟩ := hspent.requireReservation
  cases operation with
  | commitAppend used rows context =>
      obtain rfl : used = reservation := hemploys
      exact rebuffed_ofError rfl hvalid (bind_error hrequire)
  | abortAppend used context =>
      obtain rfl : used = reservation := hemploys
      exact rebuffed_ofError rfl hvalid (bind_error hrequire)
  | withAppendPages used lend =>
      obtain rfl : used = reservation := hemploys
      exact rebuffed_ofError rfl hvalid (bind_error hrequire)
  | withAppendReservations lent lend =>
      obtain ⟨used, -, error', hvalid', hrun⟩ | ⟨-, hall⟩ := requireReservations_cases cache lent
      · exact rebuffed_ofError rfl hvalid' (bind_error hrun)
      · exact absurd (validateReservation_isOk.mp (hall reservation hemploys)) hspent
  | commitAppendBatch batch rows contexts =>
      by_cases hlength : batch.length ≠ rows.length ∨ batch.length ≠ contexts.length
      · apply rebuffed_ofDismissed (rfl : _ = Reply.finalized <$> _)
        · rw [commitAppendBatch, if_pos hlength]
          rfl
        · exact Or.inr (hlength.imp_right Or.inl)
      obtain ⟨error', index, hcheck, hcause⟩ | ⟨-, hall⟩ :=
        checkCommits_cases cache (batch.zip rows) 0
      · apply rebuffed_ofDismissed (rfl : _ = Reply.finalized <$> _)
        · rw [commitAppendBatch, if_neg hlength, get_bind_run, hcheck]
          rfl
        · obtain ⟨-, hbad⟩ | ⟨item, -, herror⟩ := hcause
          · exact Or.inr (Or.inr (Or.inr hbad))
          · exact Or.inl ⟨item.1, herror⟩
      · have hle : batch.length ≤ rows.length := (not_not.mp (not_or.mp hlength).1).le
        obtain ⟨item, hmem, hitem⟩ : ∃ item ∈ batch.zip rows, item.1 = reservation := by
          have hmem : reservation ∈ (batch.zip rows).map Prod.fst := by
            rw [List.map_fst_zip hle]
            exact hemploys
          exact List.mem_map.mp hmem
        have hok := (hall item hmem).1
        rw [hitem] at hok
        exact absurd (validateReservation_isOk.mp hok) hspent
  | abortAppendBatch batch contexts =>
      by_cases hlength : batch.length ≠ contexts.length
      · apply rebuffed_ofDismissed (rfl : _ = Reply.finalized <$> _)
        · rw [abortAppendBatch, if_pos hlength]
          rfl
        · exact Or.inr hlength
      obtain ⟨error', index, hcheck, item, -, herror⟩ | ⟨-, hall⟩ :=
        checkAborts_cases cache batch 0
      · apply rebuffed_ofDismissed (rfl : _ = Reply.finalized <$> _)
        · rw [abortAppendBatch, if_neg hlength, get_bind_run, hcheck]
          rfl
        · exact Or.inl ⟨item, herror⟩
      · exact absurd (validateReservation_isOk.mp (hall reservation hemploys)) hspent
  | _ => exact hemploys.elim

/-! ## The claim -/

theorem Reserved.nonce {sequence : SequenceId} {record : SequenceRecord R.AppendTransaction}
    {rows : ℕ} {context : R.Context} {transaction : R.AppendTransaction} {fresh : List PageId}
    {allocations : List R.Page} {prepared : R.History}
    (h : Reserved cache cache' sequence record rows context transaction fresh allocations
      prepared) : cache'.appendNonce = cache.appendNonce + 1 := by
  rw [h.state, refresh]

/-- Issued between the two states. -/
def Between (cache cache' : SequenceCache R) (reservation : AppendReservation) : Prop :=
  cache.appendNonce ≤ reservation.nonce ∧ reservation.nonce < cache'.appendNonce

theorem reserveAppend_between {orphans : List PageId} {stray : List TokenBlockId}
    (hinv : Inv orphans stray cache) {sequence : SequenceId} {rows : ℕ} {context : R.Context}
    (h : reserveAppend sequence rows context cache = .ok reservation cache') :
    Between cache cache' reservation ∧ Inv orphans stray cache' := by
  have hspec := reserveAppend_spec hinv sequence rows context
  rw [h] at hspec
  obtain ⟨hinv', record, transaction, fresh, allocations, prepared, hreserved, rfl⟩ := hspec
  refine ⟨⟨le_rfl, ?_⟩, hinv'⟩
  rw [hreserved.nonce]
  exact Nat.lt_succ_self _

/-- The nonces of a batch lie between those of the states around it. -/
theorem eachOk_between {orphans : List PageId} {stray : List TokenBlockId}
    {items : List (AppendBatchRequest × R.Context)} {granted : List AppendReservation}
    (h : EachOk reserveItem cache items granted cache') (hinv : Inv orphans stray cache) :
    Inv orphans stray cache' ∧ cache.appendNonce ≤ cache'.appendNonce ∧
      ∀ reservation ∈ granted, Between cache cache' reservation := by
  induction h with
  | nil => exact ⟨hinv, le_rfl, fun _ hmem => absurd hmem List.not_mem_nil⟩
  | cons hcall _ ih =>
      obtain ⟨⟨hfirst, hlast⟩, hmiddle⟩ := reserveAppend_between hinv hcall
      obtain ⟨hinv', hle, hrest⟩ := ih hmiddle
      refine ⟨hinv', (hfirst.trans hlast.le).trans hle, ?_⟩
      intro reservation hmem
      obtain rfl | hmem := List.mem_cons.mp hmem
      · exact ⟨hfirst, hlast.trans_le hle⟩
      · exact ⟨(hfirst.trans hlast.le).trans (hrest _ hmem).1, (hrest _ hmem).2⟩

/-- A call issues what the reply of its program hands out. -/
theorem issues_eq {α : Type} {operation : Operation R} {program : CacheM R α}
    {reply : α → Reply R} (hrun : operation.run = reply <$> program)
    (hissues : reservation ∈ operation.issues cache) :
    ∃ value cache', program cache = .ok value cache' ∧ operation.step cache = cache' ∧
      reservation ∈ (reply value).issued := by
  rw [Operation.issues] at hissues
  cases hresult : operation.result cache with
  | ok found =>
      rw [hresult] at hissues
      obtain ⟨value, cache', hprogram, hstep, rfl⟩ := Operation.result_eq_ok hrun hresult
      exact ⟨value, cache', hprogram, hstep, hissues⟩
  | error failure =>
      rw [hresult] at hissues
      exact absurd hissues List.not_mem_nil

theorem reserveAppendBatch_between {orphans : List PageId} {stray : List TokenBlockId}
    (hinv : Inv orphans stray cache) {requests : List AppendBatchRequest}
    {contexts : List R.Context} {result : BatchResult R (List AppendReservation)}
    (h : reserveAppendBatch requests contexts cache = .ok result cache')
    (hmem : reservation ∈ (Reply.reservations result : Reply R).issued) :
    Between cache cache' reservation := by
  rw [reserveAppendBatch] at h
  split_ifs at h with hlength
  · cases h
    exact absurd hmem List.not_mem_nil
  obtain ⟨granted, final, heach, hrun⟩ |
    ⟨before, item, after, granted, middle, failure, final, -, hstopped,
      ⟨error, -, hrun⟩ | ⟨message, -, hrun⟩⟩ :=
    reserveEach_cases (requests.zip contexts) 0 [] cache
  · rw [hrun] at h
    cases h
    exact (eachOk_between heach hinv).2.2 _ hmem
  · rw [hrun] at h
    cases h
    obtain ⟨hinv', -, hbetween⟩ := eachOk_between hstopped.succeeded hinv
    have hends := reserveAppend_spec hinv' item.1.sequence item.1.rows item.2
    rw [show reserveAppend item.1.sequence item.1.rows item.2 middle = .error failure cache'
      from hstopped.failed] at hends
    exact ⟨(hbetween _ hmem).1, (hbetween _ hmem).2.trans_le hends.2.2.nonce_le⟩
  · rw [hrun] at h
    cases h

theorem issues_between {orphans : List PageId} {stray : List TokenBlockId}
    (hinv : Inv orphans stray cache) (operation : Operation R)
    (hissues : reservation ∈ operation.issues cache) :
    Between cache (operation.step cache) reservation := by
  cases operation with
  | reserveAppend sequence rows context =>
      obtain ⟨value, cache', hrun, hstep, hmem⟩ := issues_eq rfl hissues
      obtain rfl := List.mem_singleton.mp hmem
      rw [hstep]
      exact (reserveAppend_between hinv hrun).1
  | reserveAppendBatch requests contexts =>
      obtain ⟨value, cache', hrun, hstep, hmem⟩ := issues_eq rfl hissues
      rw [hstep]
      exact reserveAppendBatch_between hinv hrun hmem
  | _ =>
      obtain ⟨value, cache', hrun, hstep, hmem⟩ := issues_eq rfl hissues
      exact absurd hmem List.not_mem_nil

theorem closes_spent (hlaw : R.Retires) {orphans : List PageId} {stray : List TokenBlockId}
    (hinv : Inv orphans stray cache) {operation : Operation R}
    (hcloses : reservation.sequence ∈ operation.closes cache) :
    Spent reservation (operation.step cache) := by
  cases operation with
  | finish sequence context =>
      rw [Operation.closes] at hcloses
      split_ifs at hcloses with hok
      · obtain rfl := List.mem_singleton.mp hcloses
        have hspec := finish_spec hlaw hinv reservation.sequence context
        rw [Operation.step, Operation.run, finalState_map]
        cases hrun : finish reservation.sequence context cache with
        | error failure cache' =>
            rw [hrun] at hok
            cases hok
        | ok value cache' =>
            rw [hrun] at hspec
            obtain ⟨-, record, physical, deferred, hfinished⟩ := hspec
            apply spent_of_stale
            rw [finalState_ok, hfinished.state]
            exact (Arena.get?_release hfinished.live).trans (if_pos rfl)
      · exact absurd hcloses List.not_mem_nil
  | _ => exact absurd hcloses List.not_mem_nil

/-- Another reservation is pending on the sequence. -/
def Superseded (reservation : AppendReservation) (cache : SequenceCache R) : Prop :=
  ∃ other, other ≠ reservation ∧ other.sequence = reservation.sequence ∧
    (cache.validateReservation other).isOk = true

/-- Along every run that follows the call that returned a reservation, the reservation is
consumed at most once and never returned again.  Once it is consumed, its sequence is
finished, or another one is pending in its place, every use of it is rejected without an
effect. -/
theorem reservation_usedOnce (hlaw : R.Retires) {config : CacheConfig}
    {start cache : SequenceCache R} (hnew : SequenceCache.new R config = .ok start)
    (hreach : Reaches start cache) {issuing : Operation R} {reservation : AppendReservation}
    (hissues : reservation ∈ issuing.issues cache) (operations : List (Operation R)) :
    (reported Operation.step Operation.consumes operations
        (issuing.step cache)).count reservation ≤ 1 ∧
      reservation ∉ reported Operation.step Operation.issues operations (issuing.step cache) ∧
      (reservation ∈ reported Operation.step Operation.consumes operations (issuing.step cache) ∨
          reservation.sequence ∈
            reported Operation.step Operation.closes operations (issuing.step cache) ∨
          Superseded reservation (runAll Operation.step operations (issuing.step cache)) →
        ∀ operation : Operation R, operation.employs reservation →
          operation.Rebuffed (runAll Operation.step operations (issuing.step cache))) := by
  obtain ⟨orphans, stray, hinv⟩ := hreach.inv hlaw ⟨[], [], inv_of_new hnew⟩
  have hissued : Issued reservation (issuing.step cache) := by
    obtain ⟨orphans', stray', hinv'⟩ := issuing.inv hlaw hinv
    exact ⟨⟨orphans', stray', hinv'⟩, (issues_between hinv issuing hissues).2⟩
  have hused := reported_usedOnce (fun operation (state : SequenceCache R) h =>
    ⟨(issued_step hlaw operation h).1, operation_usedOnce hlaw operation h⟩) operations hissued
  refine ⟨hused.le_one, ?_, ?_⟩
  · have hnever : ∀ later ∈ reported Operation.step Operation.issues operations
        (issuing.step cache), later ≠ reservation := by
      refine reported_invariant (Issued reservation)
        (fun operation _ h => (issued_step hlaw operation h).1) ?_ operations hissued
      rintro operation state ⟨⟨orphans', stray', hinv'⟩, hnonce⟩ later hlater rfl
      exact absurd (issues_between hinv' operation hlater).1 hnonce.not_ge
    exact fun hagain => hnever reservation hagain rfl
  · rintro (hconsumed | hclosed | ⟨other, hne, hsequence, hvalid⟩) operation hemploys
    · exact (hused.spent_of_used (List.count_pos_iff.mpr hconsumed)).rebuffed hemploys
    · refine Spent.rebuffed (spent_of_reported ?_ operations hissued (Or.inr hclosed)) hemploys
      rintro next state hstate
      refine ⟨(issued_step hlaw next hstate).1, ?_⟩
      rintro (hspent | hcloses)
      · exact (issued_step hlaw next hstate).2 hspent
      · obtain ⟨⟨orphans', stray', hinv'⟩, -⟩ := hstate
        exact closes_spent hlaw hinv' hcloses
    · exact (spent_of_other hne hsequence hvalid).rebuffed hemploys

/-- The first reservation of a sequence. -/
def firstReservation : AppendReservation := ⟨⟨0, 0⟩, 0, 2, [⟨⟨0, 0⟩, 0, 0, 2⟩], 0⟩

/-- After its commit the reservation cannot abort the next one of the sequence. -/
theorem reservation_usedOnce_committed :
    (Operation.abortAppend firstReservation (7 : ℕ) : Operation Reference.plain).Rebuffed
      (runAll Operation.step [.commitAppend firstReservation 1 (7 : ℕ),
          .reserveAppend ⟨0, 0⟩ 2 (7 : ℕ)]
        ((Operation.reserveAppend ⟨0, 0⟩ 2 (7 : ℕ) : Operation Reference.plain).step
          (Reference.after [Reference.admission 7]))) := by
  have hreach : ReachesIntact Reference.start (Reference.after [Reference.admission 7]) :=
    Reference.reachesIntact_after (by decide +kernel)
  have hissues : firstReservation ∈ (Operation.reserveAppend ⟨0, 0⟩ 2 (7 : ℕ) :
      Operation Reference.plain).issues (Reference.after [Reference.admission 7]) := by
    decide +kernel
  refine (reservation_usedOnce Reference.plain_lawful.toRetires Reference.new_start
    hreach.reaches hissues [.commitAppend firstReservation 1 (7 : ℕ),
      .reserveAppend ⟨0, 0⟩ 2 (7 : ℕ)]).2.2 (Or.inl ?_) _ rfl
  decide +kernel

end Runs

end SequenceCache

end SeqCache
