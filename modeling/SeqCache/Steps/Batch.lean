import SeqCache.Steps.Finalize
import SeqCache.Steps.Reserve

/-!
# Batches and borrowed pages as steps

A batch is a loop over the calls for single sequences that stops at the first failure.
Commits and aborts are checked before the first call, so a batch over distinct sequences
stops only where the backend refuses or a slot runs out of generations.
-/

namespace SeqCache

open Machine Program Std

variable {R : Runtime}

namespace SequenceCache

variable {cache cache' : SequenceCache R} {orphans : List PageId} {stray : List TokenBlockId}

/-! ## Stale reservations -/

/-- A reservation is rejected for one of three reasons. -/
theorem validateReservation_error {reservation : AppendReservation} {error : CacheError R.Error}
    (h : cache.validateReservation reservation = .error error) :
    error = .staleSequence ∧ cache.sequences.get? reservation.sequence = none ∨
      error = .noAppendPending ∨ error = .appendReservationMismatch := by
  unfold validateReservation at h
  cases hrecord : cache.sequences.get? reservation.sequence with
  | none =>
      rw [hrecord] at h
      cases h
      exact Or.inl ⟨rfl, rfl⟩
  | some record =>
      rw [hrecord, okOr_some, pure_bind] at h
      cases hpending : record.pending with
      | none =>
          rw [hpending] at h
          cases h
          exact Or.inr (Or.inl rfl)
      | some pending =>
          rw [hpending, okOr_some, pure_bind] at h
          unfold ensure at h
          split_ifs at h
          · cases h
            exact Or.inr (Or.inr rfl)
          · cases h

theorem validateReservation_isOk {reservation : AppendReservation} :
    (cache.validateReservation reservation).isOk = true ↔
      ∃ record pending, Matches cache reservation record pending := by
  rcases validateReservation_cases cache reservation with ⟨error, herror, hnone⟩ | ⟨hok, hmatches⟩
  · rw [herror]
    simp only [Except.isOk, Except.toBool, Bool.false_eq_true, false_iff]
    exact hnone
  · rw [hok]
    simp only [Except.isOk, Except.toBool, true_iff]
    exact hmatches

/-! ## Borrowed pages -/

section Borrow

variable {reservation : AppendReservation} {record : SequenceRecord R.AppendTransaction}
variable {pending : PendingAppend R.AppendTransaction}

theorem appendPages_ok {segments : List AppendSegment}
    (hlive : ∀ segment ∈ segments, ∃ page, cache.pages.get? segment.page = some page ∧
      page.physical.isSome) : ∃ pages, cache.appendPages segments = .ok pages := by
  induction segments with
  | nil => exact ⟨[], rfl⟩
  | cons segment rest ih =>
      obtain ⟨page, hpage, hstorage⟩ := hlive segment (by simp)
      obtain ⟨storage, hstorage⟩ := Option.isSome_iff_exists.mp hstorage
      obtain ⟨pages, hpages⟩ := ih fun other hmem => hlive other (List.mem_cons_of_mem _ hmem)
      refine ⟨(segment, storage) :: pages, ?_⟩
      rw [appendPages, hpage, okOr_some, pure_bind, hstorage, okOr_some, pure_bind,
        except_bind_ok hpages]
      rfl

/-- The segments of a pending append lie on pages that its sequence holds. -/
theorem Matches.segments_live (h : Matches cache reservation record pending)
    (hinv : Inv orphans stray cache) :
    ∀ segment ∈ reservation.segments, ∃ page, cache.pages.get? segment.page = some page ∧
      page.physical.isSome := by
  intro segment hmem
  have hok := hinv.owned.sequence _ record h.live
  rw [h.segments, (hok.pending pending h.waiting).segments_eq] at hmem
  have hpage : segment.page ∈ (segmentsOf cache.config.pageTokens record.position pending.rows
      record.heldPages).map AppendSegment.page := List.mem_map_of_mem hmem
  rw [segmentsOf, map_page_segmentsFrom] at hpage
  exact hok.live (List.mem_of_mem_drop hpage)

/-- Lending pages changes nothing but the history. -/
theorem withAppendPages_spec {α : Type} (hinv : Inv orphans stray cache)
    (reservation : AppendReservation)
    (operation : List (AppendSegment × R.Page) → Except R.Error α) :
    Ends (withAppendPages reservation operation cache)
      (fun _ cache' => Called 0 cache cache' [])
      (fun failure cache' => (∃ error, cache.validateReservation reservation = .error error ∧
          failure = .error error ∧ cache' = cache) ∨
        (∃ error, failure = .error (.backend error)) ∧ Called 0 cache cache' [] ∧
          (cache.validateReservation reservation).isOk = true) := by
  unfold withAppendPages
  rcases requireReservation_cases cache reservation with ⟨error, herror, hrun⟩ | ⟨hrun, hmatches⟩
  · rw [bind_error hrun]
    exact Or.inl ⟨error, herror, rfl, rfl⟩
  rw [bind_ok hrun]
  have hvalid := validateReservation_isOk.mpr hmatches
  obtain ⟨record, pending, hmatches⟩ := hmatches
  obtain ⟨pages, hpages⟩ := appendPages_ok (hmatches.segments_live hinv)
  rw [bind_ok (reads_ok (fun cache : SequenceCache R =>
    cache.appendPages reservation.segments) hpages)]
  have hcalled : Called 0 cache { cache with
      backend := .withAppendPages (pages.map Prod.snd) :: cache.backend } [] :=
    ⟨rfl, .neutral _ .refl rfl⟩
  cases hoperation : operation pages with
  | ok value =>
      simp only [SequenceCache.record]
      rw [modify_bind_run]
      exact hcalled
  | error error =>
      simp only [SequenceCache.record]
      rw [modify_bind_run]
      exact Or.inr ⟨⟨error, rfl⟩, hcalled, hvalid⟩

theorem requireReservations_cases (cache : SequenceCache R)
    (reservations : List AppendReservation) :
    (∃ reservation ∈ reservations, ∃ error,
        cache.validateReservation reservation = .error error ∧
        requireReservations reservations cache = .error (.error error) cache) ∨
      requireReservations reservations cache = .ok () cache ∧
        ∀ reservation ∈ reservations, (cache.validateReservation reservation).isOk = true := by
  induction reservations with
  | nil => exact Or.inr ⟨rfl, by simp⟩
  | cons reservation rest ih =>
      unfold requireReservations
      rcases requireReservation_cases cache reservation with
        ⟨error, herror, hrun⟩ | ⟨hrun, hmatches⟩
      · exact Or.inl ⟨reservation, by simp, error, herror, bind_error hrun⟩
      rw [bind_ok hrun]
      rcases ih with ⟨other, hmem, error, herror, hrest⟩ | ⟨hrest, hvalid⟩
      · exact Or.inl ⟨other, List.mem_cons_of_mem _ hmem, error, herror, hrest⟩
      · refine Or.inr ⟨hrest, ?_⟩
        rintro other hother
        rcases List.mem_cons.mp hother with rfl | hother
        · exact validateReservation_isOk.mpr hmatches
        · exact hvalid other hother

theorem appendReservations_ok (hinv : Inv orphans stray cache)
    {reservations : List AppendReservation}
    (hvalid : ∀ reservation ∈ reservations,
      (cache.validateReservation reservation).isOk = true) :
    ∃ views, cache.appendReservations reservations = .ok views := by
  induction reservations with
  | nil => exact ⟨[], rfl⟩
  | cons reservation rest ih =>
      obtain ⟨record, pending, hmatches⟩ :=
        validateReservation_isOk.mp (hvalid reservation (by simp))
      obtain ⟨pages, hpages⟩ := appendPages_ok (hmatches.segments_live hinv)
      obtain ⟨views, hviews⟩ := ih fun other hmem => hvalid other (List.mem_cons_of_mem _ hmem)
      refine ⟨pages :: views, ?_⟩
      rw [appendReservations, except_bind_ok hpages, except_bind_ok hviews]
      rfl

theorem withAppendReservations_spec {α : Type} (hinv : Inv orphans stray cache)
    (reservations : List AppendReservation)
    (operation : List (List (AppendSegment × R.Page)) → Except R.Error α) :
    Ends (withAppendReservations reservations operation cache)
      (fun _ cache' => Called 0 cache cache' [])
      (fun failure cache' => (∃ reservation ∈ reservations, ∃ error,
          cache.validateReservation reservation = .error error ∧ failure = .error error ∧
            cache' = cache) ∨
        (∃ error, failure = .error (.backend error)) ∧ Called 0 cache cache' [] ∧
          ∀ reservation ∈ reservations,
            (cache.validateReservation reservation).isOk = true) := by
  unfold withAppendReservations
  rcases requireReservations_cases cache reservations with
    ⟨reservation, hmem, error, herror, hrun⟩ | ⟨hrun, hvalid⟩
  · rw [bind_error hrun]
    exact Or.inl ⟨reservation, hmem, error, herror, rfl, rfl⟩
  rw [bind_ok hrun]
  obtain ⟨views, hviews⟩ := appendReservations_ok hinv hvalid
  rw [bind_ok (reads_ok (fun cache : SequenceCache R =>
    cache.appendReservations reservations) hviews)]
  have hcalled : Called 0 cache { cache with
      backend := .withAppendPages (views.flatten.map Prod.snd) :: cache.backend } [] :=
    ⟨rfl, .neutral _ .refl rfl⟩
  cases hoperation : operation views with
  | ok value =>
      simp only [SequenceCache.record]
      rw [modify_bind_run]
      exact hcalled
  | error error =>
      simp only [SequenceCache.record]
      rw [modify_bind_run]
      exact Or.inr ⟨⟨error, rfl⟩, hcalled, hvalid⟩

end Borrow

/-! ## Loops -/

/-- A loop over calls stopped: the items `before` succeeded, `item` failed. -/
structure Stopped {ι α : Type} (call : ι → CacheM R α) (cache : SequenceCache R)
    (before : List ι) (item : ι) (values : List α) (middle : SequenceCache R)
    (failure : Failure R.Error) (cache' : SequenceCache R) : Prop where
  succeeded : EachOk call cache before values middle
  failed : call item middle = .error failure cache'

section Loop

variable {ι α β : Type} {call : ι → CacheM R α} {done : List α → CacheM R β}
variable (loop : List ι → ℕ → List α → CacheM R β)
variable (fail : CacheError R.Error → List α → ℕ → CacheM R β)

/-- How a loop over calls ends: after all of them, or at the first that fails. -/
theorem loop_cases (hnil : ∀ index values, loop [] index values = done values)
    (hcons : ∀ item rest index values, loop (item :: rest) index values = (do
      match ← attempt (call item) with
      | .ok value => loop rest (index + 1) (values ++ [value])
      | .error error => fail error values index))
    (items : List ι) (index : ℕ) (values : List α) (cache : SequenceCache R) :
    (∃ new cache', EachOk call cache items new cache' ∧
        loop items index values cache = done (values ++ new) cache') ∨
      ∃ before item after new middle failure cache', items = before ++ item :: after ∧
        Stopped call cache before item new middle failure cache' ∧
        ((∃ error, failure = .error error ∧ loop items index values cache =
            fail error (values ++ new) (index + before.length) cache') ∨
          ∃ message, failure = .panic message ∧
            loop items index values cache = .error failure cache') := by
  induction items generalizing index values cache with
  | nil => exact Or.inl ⟨[], cache, .nil, by rw [hnil, List.append_nil]⟩
  | cons item rest ih =>
      rw [hcons]
      cases hrun : call item cache with
      | ok value middle =>
          rw [bind_ok (attempt_ok hrun)]
          rcases ih (index + 1) (values ++ [value]) middle with ⟨new, cache', heach, hloop⟩ |
            ⟨before, failing, after, new, stop, failure, cache', rfl, hstopped, hloop⟩
          · rw [List.append_assoc, List.singleton_append] at hloop
            exact Or.inl ⟨value :: new, cache', .cons hrun heach, hloop⟩
          · refine Or.inr ⟨item :: before, failing, after, value :: new, stop, failure, cache', rfl,
              ⟨.cons hrun hstopped.succeeded, hstopped.failed⟩, ?_⟩
            rw [List.append_assoc, List.singleton_append] at hloop
            rw [List.length_cons, Nat.add_comm before.length 1, ← Nat.add_assoc]
            exact hloop
      | error failure stop =>
          refine Or.inr ⟨[], item, rest, [], cache, failure, stop, rfl, ⟨.nil, hrun⟩, ?_⟩
          cases failure with
          | error error =>
              rw [bind_ok (attempt_error hrun), List.append_nil]
              exact Or.inl ⟨error, rfl, rfl⟩
          | panic message =>
              rw [bind_error (attempt_panic hrun)]
              exact Or.inr ⟨message, rfl, rfl⟩

end Loop

/-! ## Batches -/

/-- The part of a batch reservation for one sequence. -/
def reserveItem (item : AppendBatchRequest × R.Context) : CacheM R AppendReservation :=
  reserveAppend item.1.sequence item.1.rows item.2

/-- The part of a batch commit for one sequence. -/
def commitItem (item : (AppendReservation × ℕ) × R.Context) : CacheM R Unit :=
  commitAppend item.1.1 item.1.2 item.2

/-- The part of a batch abort for one sequence. -/
def abortItem (item : AppendReservation × R.Context) : CacheM R Unit :=
  abortAppend item.1 item.2

theorem reserveEach_cases (items : List (AppendBatchRequest × R.Context)) (index : ℕ)
    (reservations : List AppendReservation) (cache : SequenceCache R) :
    (∃ new cache', EachOk reserveItem cache items new cache' ∧
        reserveEach items index reservations cache = .ok (.ok (reservations ++ new)) cache') ∨
      ∃ before item after new middle failure cache', items = before ++ item :: after ∧
        Stopped reserveItem cache before item new middle failure cache' ∧
        ((∃ error, failure = .error error ∧ reserveEach items index reservations cache =
            .ok (.error ⟨error, reservations ++ new, some (index + before.length)⟩) cache') ∨
          ∃ message, failure = .panic message ∧
            reserveEach items index reservations cache = .error failure cache') :=
  loop_cases reserveEach
    (fun error reservations index => pure (.error ⟨error, reservations, some index⟩))
    (fun _ _ => rfl) (fun ⟨_, _⟩ _ _ _ => by
      rw [reserveEach]
      exact congrArg _ (funext fun result => by cases result <;> rfl)) items index
        reservations cache

section Finalize

variable (batch : List AppendReservation)

theorem commitEach_cases (items : List ((AppendReservation × ℕ) × R.Context)) (index : ℕ)
    (cache : SequenceCache R) :
    (∃ new cache', EachOk commitItem cache items new cache' ∧
        commitEach batch items index cache = .ok (.ok ()) cache') ∨
      ∃ before item after new middle failure cache', items = before ++ item :: after ∧
        Stopped commitItem cache before item new middle failure cache' ∧
        ((∃ error, failure = .error error ∧ commitEach batch items index cache =
            .ok (.error ⟨error, cache'.pendingAppendBatch [] batch,
              some (index + before.length)⟩) cache') ∨
          ∃ message, failure = .panic message ∧
            commitEach batch items index cache = .error failure cache') :=
  loop_cases (fun items index (_ : List Unit) => commitEach batch items index)
    (fun error _ index => batchFailure batch error (some index))
    (fun _ _ => rfl) (fun ⟨⟨_, _⟩, _⟩ _ _ _ => by
      rw [commitEach]
      exact congrArg _ (funext fun result => by cases result <;> rfl)) items index [] cache

theorem abortEach_cases (items : List (AppendReservation × R.Context)) (index : ℕ)
    (cache : SequenceCache R) :
    (∃ new cache', EachOk abortItem cache items new cache' ∧
        abortEach batch items index cache = .ok (.ok ()) cache') ∨
      ∃ before item after new middle failure cache', items = before ++ item :: after ∧
        Stopped abortItem cache before item new middle failure cache' ∧
        ((∃ error, failure = .error error ∧ abortEach batch items index cache =
            .ok (.error ⟨error, cache'.pendingAppendBatch [] batch,
              some (index + before.length)⟩) cache') ∨
          ∃ message, failure = .panic message ∧
            abortEach batch items index cache = .error failure cache') :=
  loop_cases (fun items index (_ : List Unit) => abortEach batch items index)
    (fun error _ index => batchFailure batch error (some index))
    (fun _ _ => rfl) (fun ⟨_, _⟩ _ _ _ => by
      rw [abortEach]
      exact congrArg _ (funext fun result => by cases result <;> rfl)) items index [] cache

/-- The rows of a commit are within its reservation. -/
def Admissible (item : AppendReservation × ℕ) : Prop := item.2 ≠ 0 ∧ item.2 ≤ item.1.rows

theorem checkCommits_cases (cache : SequenceCache R) (items : List (AppendReservation × ℕ))
    (index : ℕ) :
    (∃ error position, cache.checkCommits items index = .error (error, position) ∧
        ((error = .invalidPosition ∧ ∃ item ∈ items, ¬ Admissible item) ∨
          ∃ item ∈ items, cache.validateReservation item.1 = .error error)) ∨
      cache.checkCommits items index = .ok () ∧ ∀ item ∈ items,
        (cache.validateReservation item.1).isOk = true ∧ Admissible item := by
  induction items generalizing index with
  | nil => exact Or.inr ⟨rfl, by simp⟩
  | cons item rest ih =>
      obtain ⟨reservation, rows⟩ := item
      unfold checkCommits
      cases hvalid : cache.validateReservation reservation with
      | error error =>
          exact Or.inl ⟨error, index, rfl, Or.inr ⟨_, List.mem_cons_self, hvalid⟩⟩
      | ok _ =>
          simp only
          split_ifs with hrows
          · refine Or.inl ⟨.invalidPosition, index, rfl, Or.inl ⟨rfl, _, List.mem_cons_self, ?_⟩⟩
            rintro ⟨hpos, hle⟩
            exact hrows.elim hpos hle.not_gt
          rcases ih (index + 1) with ⟨error, position, hrest, hcause⟩ | ⟨hrest, hall⟩
          · refine Or.inl ⟨error, position, hrest, hcause.imp ?_ ?_⟩
            · rintro ⟨herror, item, hmem, hbad⟩
              exact ⟨herror, item, List.mem_cons_of_mem _ hmem, hbad⟩
            · rintro ⟨item, hmem, herror⟩
              exact ⟨item, List.mem_cons_of_mem _ hmem, herror⟩
          · refine Or.inr ⟨hrest, ?_⟩
            rintro other hother
            rcases List.mem_cons.mp hother with rfl | hother
            · rw [hvalid]
              exact ⟨rfl, fun h => hrows (Or.inl h), Nat.le_of_not_lt fun h => hrows (Or.inr h)⟩
            · exact hall other hother

theorem checkAborts_cases (cache : SequenceCache R) (items : List AppendReservation) (index : ℕ) :
    (∃ error position, cache.checkAborts items index = .error (error, position) ∧
        ∃ item ∈ items, cache.validateReservation item = .error error) ∨
      cache.checkAborts items index = .ok () ∧ ∀ item ∈ items,
        (cache.validateReservation item).isOk = true := by
  induction items generalizing index with
  | nil => exact Or.inr ⟨rfl, by simp⟩
  | cons reservation rest ih =>
      unfold checkAborts
      cases hvalid : cache.validateReservation reservation with
      | error error =>
          exact Or.inl ⟨error, index, rfl, _, List.mem_cons_self, hvalid⟩
      | ok _ =>
          rcases ih (index + 1) with ⟨error, position, hrest, item, hmem, herror⟩ | ⟨hrest, hall⟩
          · exact Or.inl ⟨error, position, hrest, item, List.mem_cons_of_mem _ hmem, herror⟩
          · refine Or.inr ⟨hrest, ?_⟩
            rintro other hother
            rcases List.mem_cons.mp hother with rfl | hother
            · rw [hvalid]
              rfl
            · exact hall other hother

theorem checkCommits_isOk {items : List (AppendReservation × ℕ)}
    (hvalid : ∀ item ∈ items, (cache.validateReservation item.1).isOk = true ∧ Admissible item)
    (index : ℕ) : (cache.checkCommits items index).isOk = true := by
  obtain ⟨error, position, -, ⟨-, item, hmem, hbad⟩ | ⟨item, hmem, herror⟩⟩ | ⟨hok, -⟩ :=
    checkCommits_cases cache items index
  · exact absurd (hvalid item hmem).2 hbad
  · have hitem := (hvalid item hmem).1
    rw [herror] at hitem
    cases hitem
  · rw [hok]
    rfl

theorem checkAborts_isOk {items : List AppendReservation}
    (hvalid : ∀ item ∈ items, (cache.validateReservation item).isOk = true)
    (index : ℕ) : (cache.checkAborts items index).isOk = true := by
  obtain ⟨error, position, -, item, hmem, herror⟩ | ⟨hok, -⟩ := checkAborts_cases cache items index
  · have hitem := hvalid item hmem
    rw [herror] at hitem
    cases hitem
  · rw [hok]
    rfl

/-- A batch that passes its checks is a loop over single commits. -/
theorem commitAppendBatch_checked {reservations : List AppendReservation} {rows : List ℕ}
    {contexts : List R.Context} (hrows : reservations.length = rows.length)
    (hcontexts : reservations.length = contexts.length)
    (hcheck : (cache.checkCommits (reservations.zip rows) 0).isOk = true) :
    commitAppendBatch reservations rows contexts cache =
      commitEach reservations ((reservations.zip rows).zip contexts) 0 cache := by
  rw [commitAppendBatch, if_neg (by simp [hrows, ← hcontexts]), get_bind_run]
  obtain ⟨error, position, herror, -⟩ | ⟨hok, -⟩ := checkCommits_cases cache
    (reservations.zip rows) 0
  · rw [herror] at hcheck
    cases hcheck
  · rw [hok]

theorem abortAppendBatch_checked {reservations : List AppendReservation}
    {contexts : List R.Context} (hcontexts : reservations.length = contexts.length)
    (hcheck : (cache.checkAborts reservations 0).isOk = true) :
    abortAppendBatch reservations contexts cache =
      abortEach reservations (reservations.zip contexts) 0 cache := by
  rw [abortAppendBatch, if_neg (by simp [hcontexts]), get_bind_run]
  obtain ⟨error, position, herror, -⟩ | ⟨hok, -⟩ := checkAborts_cases cache reservations 0
  · rw [herror] at hcheck
    cases hcheck
  · rw [hok]

/-- How a loop over finalizations ends. -/
def Finalizes {ι : Type} (call : ι → CacheM R Unit) (batch : List AppendReservation)
    (items : List ι) (cache : SequenceCache R)
    (result : EStateM.Result (Failure R.Error) (SequenceCache R) (BatchResult R Unit)) : Prop :=
  (∃ new cache', EachOk call cache items new cache' ∧ result = .ok (.ok ()) cache') ∨
    ∃ before item after new middle failure cache', items = before ++ item :: after ∧
      Stopped call cache before item new middle failure cache' ∧
      ((∃ error, failure = .error error ∧ result =
          .ok (.error ⟨error, cache'.pendingAppendBatch [] batch, some before.length⟩) cache') ∨
        ∃ message, failure = .panic message ∧ result = .error failure cache')

theorem commitAppendBatch_finalizes {reservations : List AppendReservation} {rows : List ℕ}
    {contexts : List R.Context} (hrows : reservations.length = rows.length)
    (hcontexts : reservations.length = contexts.length)
    (hvalid : ∀ item ∈ reservations.zip rows,
      (cache.validateReservation item.1).isOk = true ∧ Admissible item) :
    Finalizes commitItem reservations ((reservations.zip rows).zip contexts) cache
      (commitAppendBatch reservations rows contexts cache) := by
  have hcases := commitEach_cases reservations ((reservations.zip rows).zip contexts) 0 cache
  simp only [Nat.zero_add] at hcases
  rw [commitAppendBatch_checked hrows hcontexts (checkCommits_isOk hvalid 0)]
  exact hcases

theorem abortAppendBatch_finalizes {reservations : List AppendReservation}
    {contexts : List R.Context} (hcontexts : reservations.length = contexts.length)
    (hvalid : ∀ reservation ∈ reservations,
      (cache.validateReservation reservation).isOk = true) :
    Finalizes abortItem reservations (reservations.zip contexts) cache
      (abortAppendBatch reservations contexts cache) := by
  have hcases := abortEach_cases reservations (reservations.zip contexts) 0 cache
  simp only [Nat.zero_add] at hcases
  rw [abortAppendBatch_checked hcontexts (checkAborts_isOk hvalid 0)]
  exact hcases

/-- The error of a batch whose arguments do not fit together, or with a member that does not
match a pending append. -/
def Unfit (cache : SequenceCache R) (batch : List AppendReservation)
    (error : CacheError R.Error) : Prop :=
  error = .appendBatchSizeMismatch ∨ error = .invalidPosition ∨
    ∃ reservation ∈ batch, cache.validateReservation reservation = .error error

/-- A batch that is rejected before its first call. -/
def Dismissed (batch : List AppendReservation) (cache : SequenceCache R)
    (result : EStateM.Result (Failure R.Error) (SequenceCache R) (BatchResult R Unit)) : Prop :=
  ∃ error index, Unfit cache batch error ∧
    result = .ok (.error ⟨error, cache.pendingAppendBatch [] batch, index⟩) cache

theorem commitAppendBatch_cases (reservations : List AppendReservation) (committedRows : List ℕ)
    (contexts : List R.Context) (cache : SequenceCache R) :
    Dismissed reservations cache
        (commitAppendBatch reservations committedRows contexts cache) ∨
      reservations.length = committedRows.length ∧ reservations.length = contexts.length ∧
        (∀ item ∈ reservations.zip committedRows,
          (cache.validateReservation item.1).isOk = true ∧ Admissible item) ∧
        Finalizes commitItem reservations ((reservations.zip committedRows).zip contexts) cache
          (commitAppendBatch reservations committedRows contexts cache) := by
  by_cases hlength : reservations.length ≠ committedRows.length ∨
      reservations.length ≠ contexts.length
  · rw [commitAppendBatch, if_pos hlength]
    exact Or.inl ⟨.appendBatchSizeMismatch, none, Or.inl rfl, rfl⟩
  obtain ⟨hrows, hcontexts⟩ := not_or.mp hlength
  rcases checkCommits_cases cache (reservations.zip committedRows) 0 with
    ⟨error, index, hcheck, hcause⟩ | ⟨hcheck, hvalid⟩
  · rw [commitAppendBatch, if_neg hlength, get_bind_run, hcheck]
    refine Or.inl ⟨error, some index, Or.inr ?_, rfl⟩
    obtain ⟨rfl, -⟩ | ⟨item, hmem, herror⟩ := hcause
    · exact Or.inl rfl
    · exact Or.inr ⟨item.1, (List.of_mem_zip hmem).1, herror⟩
  · exact Or.inr ⟨not_not.mp hrows, not_not.mp hcontexts, hvalid,
      commitAppendBatch_finalizes (not_not.mp hrows) (not_not.mp hcontexts) hvalid⟩

theorem abortAppendBatch_cases (reservations : List AppendReservation)
    (contexts : List R.Context) (cache : SequenceCache R) :
    Dismissed reservations cache (abortAppendBatch reservations contexts cache) ∨
      reservations.length = contexts.length ∧
        (∀ reservation ∈ reservations, (cache.validateReservation reservation).isOk = true) ∧
        Finalizes abortItem reservations (reservations.zip contexts) cache
          (abortAppendBatch reservations contexts cache) := by
  by_cases hlength : reservations.length ≠ contexts.length
  · rw [abortAppendBatch, if_pos hlength]
    exact Or.inl ⟨.appendBatchSizeMismatch, none, Or.inl rfl, rfl⟩
  rcases checkAborts_cases cache reservations 0 with
    ⟨error, index, hcheck, hcause⟩ | ⟨hcheck, hvalid⟩
  · rw [abortAppendBatch, if_neg hlength, get_bind_run, hcheck]
    exact Or.inl ⟨error, some index, Or.inr (Or.inr hcause), rfl⟩
  · exact Or.inr ⟨not_not.mp hlength, hvalid,
      abortAppendBatch_finalizes (not_not.mp hlength) hvalid⟩

end Finalize

end SequenceCache

end SeqCache
