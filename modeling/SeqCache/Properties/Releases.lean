import SeqCache.Run.Reachable

/-!
# Giving back

When a sequence or a retained prefix can be released, and when a pending append can be
finalized.  The backend has a say in both, and so have the generations of the slots that are
given up; nothing else in the history of the cache has.  What fails leaves everything in place,
with one exception: a finalization that the backend has carried out cannot be called back when
a slot turns out to be at its last generation.
-/

namespace SeqCache

open Machine Program Std

variable {R : Runtime}

namespace SequenceCache

variable {cache cache' : SequenceCache R} {ids : List PageId} {context : R.Context}
  {orphans : List PageId} {stray : List TokenBlockId}

/-! ## Retirement -/

/-- The slots of the pages can be given up, and the backend takes their storage. -/
structure Retirable (cache : SequenceCache R) (ids : List PageId) (context : R.Context) : Prop where
  removable : ∀ id ∈ ids, id.generation ≠ u32Max
  accepted : ids ≠ [] → ∃ physical outcome, Stored cache.pages ids physical ∧
    R.retirePages cache.backend context physical = .ok outcome

theorem Refused.not_retirable {failure : Failure R.Error}
    (h : Refused cache ids context failure) : ¬ Retirable cache ids context := by
  rintro ⟨hremovable, haccepted⟩
  rcases h with ⟨-, id, hmem, hlast⟩ | ⟨answer, physical, -, hstored, hanswer, hne⟩
  · exact hremovable id hmem hlast
  · obtain ⟨physical', outcome, hstored', houtcome⟩ := haccepted hne
    rw [hstored.unique hstored', houtcome] at hanswer
    cases hanswer

theorem retirable_ofRetirement {physical : List R.Page} {deferred : ℕ} {history' : R.History}
    (hremovable : ∀ id ∈ ids, id.generation ≠ u32Max) (hstored : Stored cache.pages ids physical)
    (h : Retirement context physical deferred cache.backend history') :
    Retirable cache ids context := by
  refine ⟨hremovable, fun hne => ?_⟩
  rcases h with ⟨rfl, -, -⟩ | ⟨outcome, houtcome, -, -⟩
  · exact absurd (List.map_eq_nil_iff.mp hstored) hne
  · exact ⟨physical, outcome, hstored, houtcome⟩

end SequenceCache

/-! ## Sequences and entries -/

namespace Operation

open SequenceCache

/-- The call releases a sequence or an entry. -/
def releases : Operation R → Bool
  | .finish _ _ => true
  | .evictPrefix _ _ => true
  | _ => false

/-- What the call releases is there, no append is pending on it, and the pages that nothing else
holds can be retired. -/
def Releasable : Operation R → SequenceCache R → Prop
  | .finish sequence context, cache => ∃ record, cache.sequences.get? sequence = some record ∧
      record.pending = none ∧ sequence.generation ≠ u32Max ∧
      Retirable cache (cache.finishBatch record) context
  | .evictPrefix entry context, cache => entry ∈ cache.prefixes ∧
      Retirable cache (cache.evictionBatch [entry]) context
  | _, _ => False

end Operation

namespace SequenceCache

variable {cache cache' start : SequenceCache R} {operation : Operation R}
  {orphans : List PageId} {stray : List TokenBlockId}

theorem finish_releases (hlaw : R.Retires) (hinv : Inv orphans stray cache) (sequence : SequenceId)
    (context : R.Context) :
    Ends (finish sequence context cache)
      (fun _ _ => (Operation.finish sequence context).Releasable cache)
      (fun _ cache' => ¬ (Operation.finish sequence context).Releasable cache ∧
        cache' = { cache with backend := cache'.backend }) := by
  refine Ends.mono (finish_spec hlaw hinv sequence context) ?_ ?_
  · rintro - cache' ⟨-, record, physical, deferred, hfinished⟩
    exact ⟨record, hfinished.live, hfinished.idle, hfinished.generation,
      retirable_ofRetirement hfinished.removable hfinished.stored hfinished.retirement⟩
  · rintro failure cache' (⟨-, hstale, rfl⟩ | ⟨record, hrecord, hcause⟩)
    · refine ⟨?_, rfl⟩
      rintro ⟨record, hrecord, -⟩
      rw [hstale] at hrecord
      cases hrecord
    · have hunique : ∀ other, cache.sequences.get? sequence = some other → other = record :=
        fun other hother => Option.some.inj (hother.symm.trans hrecord)
      rcases hcause with ⟨-, hbusy, rfl⟩ | ⟨-, hlast, rfl⟩ | ⟨hrefused, hcalled⟩
      · refine ⟨?_, rfl⟩
        rintro ⟨other, hother, hidle, -⟩
        rw [hunique other hother] at hidle
        rw [hidle] at hbusy
        cases hbusy
      · refine ⟨?_, rfl⟩
        rintro ⟨-, -, -, hgeneration, -⟩
        exact hgeneration hlast
      · refine ⟨?_, hcalled.state⟩
        rintro ⟨other, hother, -, -, hretirable⟩
        rw [hunique other hother] at hretirable
        exact hrefused.not_retirable hretirable

theorem evictPrefix_releases (hlaw : R.Retires) (hinv : Inv orphans stray cache)
    (entry : PrefixEntryId) (context : R.Context) :
    Ends (evictPrefix entry context cache)
      (fun _ _ => (Operation.evictPrefix entry context).Releasable cache)
      (fun _ cache' => ¬ (Operation.evictPrefix entry context).Releasable cache ∧
        cache' = { cache with backend := cache'.backend }) := by
  refine Ends.mono (evictPrefix_spec hlaw hinv entry context) ?_ ?_
  · rintro - cache' ⟨-, hmem, retired, physical, deferred, hevicted⟩
    refine ⟨hmem, ?_⟩
    rw [← hevicted.batch]
    exact retirable_ofRetirement hevicted.removable hevicted.stored hevicted.retirement
  · rintro failure cache' (⟨-, hgone, rfl⟩ | ⟨-, hrefused, hcalled⟩)
    · exact ⟨fun h => hgone h.1, rfl⟩
    · exact ⟨fun h => hrefused.not_retirable h.2, hcalled.state⟩

/-- In every state of every run, a sequence or an entry is released exactly if it is there and
idle, the backend takes the pages that nothing else holds, and none of the slots given up is at
its last generation.  Otherwise nothing changes. -/
theorem releases_exact (hlaw : R.Retires) {config : CacheConfig}
    (hnew : SequenceCache.new R config = .ok start) (hreach : Reaches start cache)
    (hreleases : operation.releases = true) :
    (operation.result cache = .ok .done ↔ operation.Releasable cache) ∧
      (¬ operation.Releasable cache → operation.step cache =
        { cache with backend := (operation.step cache).backend }) := by
  obtain ⟨orphans, stray, hinv⟩ := Reaches.inv hreach hlaw ⟨_, _, inv_of_new hnew⟩
  suffices hends : ∀ program : CacheM R Unit, operation.run = (fun _ => Reply.done) <$> program →
      Ends (program cache) (fun _ _ => operation.Releasable cache)
        (fun _ cache' => ¬ operation.Releasable cache ∧
          cache' = { cache with backend := cache'.backend }) →
      (operation.result cache = .ok .done ↔ operation.Releasable cache) ∧
        (¬ operation.Releasable cache → operation.step cache =
          { cache with backend := (operation.step cache).backend }) by
    cases operation with
    | finish sequence context => exact hends _ rfl (finish_releases hlaw hinv sequence context)
    | evictPrefix entry context => exact hends _ rfl (evictPrefix_releases hlaw hinv entry context)
    | _ => cases hreleases
  intro program hrun hends
  rw [Operation.result, Operation.step, hrun]
  cases hprogram : program cache with
  | ok value cache' =>
      rw [hprogram] at hends
      rw [map_ok _ hprogram]
      exact ⟨⟨fun _ => hends, fun _ => rfl⟩, fun hnot => absurd hends hnot⟩
  | error failure cache' =>
      rw [hprogram] at hends
      rw [map_error _ hprogram]
      refine ⟨⟨fun h => ?_, fun h => absurd h hends.1⟩, fun _ => hends.2⟩
      cases h

end SequenceCache

/-- The eviction of a retained prefix. -/
def Reference.evicting : Operation Reference.plain := .evictPrefix 0 7

open Reference in
theorem SequenceCache.releases_exact_evicting : evicting.Releasable (after served) := by
  have hreach : ReachesIntact start (after served) := reachesIntact_after (by decide +kernel)
  have hrun := eq_ok_of_outcome (show outcome (@evictPrefix plain 0 (7 : ℕ) (after served)) =
    .ok () by decide +kernel)
  generalize after served = cache at *
  have hdone : evicting.result cache = .ok .done := by
    rw [evicting, Operation.result, Operation.run, map_ok _ hrun]
    rfl
  exact (releases_exact plain_lawful.toRetires new_start hreach.reaches rfl).1.mp hdone

/-! ## Pending appends -/

/-- The backend has carried out a finalization. -/
def BackendEvent.finalizes {Page Context Transaction Error : Type} :
    BackendEvent Page Context Transaction Error → Bool
  | .commitAppend _ _ (.ok ()) => true
  | .abortAppend _ _ _ _ (.ok ()) => true
  | _ => false

/-- The reservation that a call finalizes, and the number of rows it commits. -/
def Operation.finalization? : Operation R → Option (AppendReservation × ℕ)
  | .commitAppend reservation rows _ => some (reservation, rows)
  | .abortAppend reservation _ => some (reservation, 0)
  | _ => none

namespace SequenceCache

/-- What is left in place by a call, with the reservation still pending. -/
def StaysPending (cache cache' : SequenceCache R) (reservation : AppendReservation) : Prop :=
  Unchanged cache cache' ∧ ((cache.validateReservation reservation).isOk = true →
    (cache'.validateReservation reservation).isOk = true)

end SequenceCache

/-- A finalization that fails changes nothing but the transaction of the backend, and one that
the backend carries out succeeds. -/
def Operation.Atomic (operation : Operation R) (reservation : AppendReservation)
    (cache : SequenceCache R) : Prop :=
  (∀ failure, operation.result cache = .error failure →
    cache.StaysPending (operation.step cache) reservation) ∧
  ∀ event, (operation.step cache).backend = event :: cache.backend → event.finalizes = true →
    operation.result cache = .ok .done

namespace SequenceCache

variable {cache cache' start : SequenceCache R} {operation : Operation R}
  {orphans : List PageId} {stray : List TokenBlockId} {reservation : AppendReservation}
  {committed : ℕ}

/-- One of the pages that the finalization releases is at the last generation of its slot. -/
def WornOut (cache : SequenceCache R) (reservation : AppendReservation) (committed : ℕ) : Prop :=
  ∃ record pending, Matches cache reservation record pending ∧
    ∃ id ∈ releasedPages cache.config.pageTokens record pending committed, id.generation = u32Max

theorem Matches.unique {record record' : SequenceRecord R.AppendTransaction}
    {pending pending' : PendingAppend R.AppendTransaction}
    (h : Matches cache reservation record pending)
    (h' : Matches cache reservation record' pending') : record' = record ∧ pending' = pending := by
  obtain rfl := Option.some.inj (h'.live.symm.trans h.live)
  exact ⟨rfl, Option.some.inj (h'.waiting.symm.trans h.waiting)⟩

theorem Finalized.not_wornOut {context : R.Context}
    (h : Finalized cache reservation committed context cache') :
    ¬ WornOut cache reservation committed := by
  obtain ⟨record, pending, event, hmatches, -, hsettled⟩ := h
  rintro ⟨record', pending', hmatches', id, hmem, hlast⟩
  obtain ⟨rfl, rfl⟩ := hmatches.unique hmatches'
  exact hsettled.removable id hmem hlast

theorem Interrupted.wornOut {context : R.Context} {lost : List PageId}
    (h : Interrupted cache reservation committed context lost cache') :
    WornOut cache reservation committed := by
  obtain ⟨record, pending, event, before, last, after, hmatches, -, htorn, -⟩ := h
  refine ⟨record, pending, hmatches, last, ?_, htorn.last_generation⟩
  rw [htorn.split]
  exact List.mem_append_right _ List.mem_cons_self

/-- The backend accepts the finalization, and a page that is released with it is at the last
generation of its slot. -/
def AcceptedWorn (cache : SequenceCache R) (reservation : AppendReservation) (committed : ℕ)
    (context : R.Context) : Prop :=
  ∃ record pending event, Matches cache reservation record pending ∧ committed ≤ pending.rows ∧
    Accepted cache record pending context committed event ∧
    ∃ id ∈ releasedPages cache.config.pageTokens record pending committed, id.generation = u32Max

theorem Interrupted.acceptedWorn {context : R.Context} {lost : List PageId}
    (h : Interrupted cache reservation committed context lost cache') :
    AcceptedWorn cache reservation committed context := by
  obtain ⟨record, pending, event, before, last, after, hmatches, haccepted, htorn, -⟩ := h
  refine ⟨record, pending, event, hmatches, htorn.committed_le, haccepted, last, ?_,
    htorn.last_generation⟩
  rw [htorn.split]
  exact List.mem_append_right _ List.mem_cons_self

/-- What the backend refused is no finalization. -/
theorem Calls.not_finalizes {limit : ℕ} {history : R.History} {flight : List R.Page}
    {event : R.Event} (h : Calls limit history [] (event :: history) flight) :
    event.finalizes = false := by
  cases h with
  | acquire _ _ hevent _ | neutral _ _ hevent =>
      cases event with
      | commitAppend _ _ answer | abortAppend _ _ _ _ answer => cases answer <;> trivial
      | _ => rfl
  | rollback | overreported => rfl

/-- The pending append of a quiet call is still that of its reservation. -/
theorem still_valid (h : Quiet cache cache')
    (hvalid : (cache.validateReservation reservation).isOk = true) :
    (cache'.validateReservation reservation).isOk = true := by
  obtain ⟨record, pending, hmatches⟩ := validateReservation_isOk.mp hvalid
  obtain ⟨change, hchange⟩ := h.sequences
  apply validateReservation_isOk.mpr
  refine ⟨record.mapTransaction (change reservation.sequence),
    { pending with transaction := change reservation.sequence pending.transaction }, ?_, ?_,
    hmatches.startPosition, hmatches.rows, hmatches.segments, hmatches.nonce⟩
  · rw [hchange.get?, hmatches.live]
    rfl
  · rw [SequenceRecord.mapTransaction, hmatches.waiting]
    rfl

theorem Accepted.finalizes {record : SequenceRecord R.AppendTransaction}
    {pending : PendingAppend R.AppendTransaction} {context : R.Context} {event : R.Event}
    (h : Accepted cache record pending context committed event) : event.finalizes = true := by
  cases h with
  | commit => rfl
  | abort => rfl

/-- A finalization is atomic unless it stops half way. -/
theorem finalize_ends {program : CacheM R Unit} {valid : Prop} {context : R.Context}
    (hrun : operation.run = (fun _ => Reply.done) <$> program)
    (hends : Ends (program cache)
      (fun _ cache' => Finalized cache reservation committed context cache')
      (FinalizeFails orphans stray cache reservation valid committed context)) :
    operation.Atomic reservation cache ∧
        (operation.result cache = .ok .done → ¬ WornOut cache reservation committed) ∨
      operation.result cache = .error (.error (.idExhausted "page generation")) ∧
        ∃ lost, Interrupted cache reservation committed context lost (operation.step cache) := by
  rw [Operation.Atomic, Operation.result, Operation.step, hrun]
  cases hprogram : program cache with
  | ok value cache' =>
      rw [hprogram] at hends
      rw [map_ok _ hprogram]
      refine Or.inl ⟨⟨fun failure h => ?_, fun _ _ _ => rfl⟩, fun _ => Finalized.not_wornOut hends⟩
      cases h
  | error failure cache' =>
      rw [hprogram] at hends
      rw [map_error _ hprogram]
      rcases hends with ⟨-, rfl⟩ | ⟨error, -, hputBack⟩ | ⟨rfl, lost, -, hinterrupted⟩
      · refine Or.inl ⟨⟨fun _ _ => ⟨⟨.refl _, .refl⟩, fun h => h⟩, fun event hbackend _ => ?_⟩, ?_⟩
        · have hlength := congrArg List.length hbackend
          rw [List.length_cons] at hlength
          exact absurd hlength (Nat.succ_ne_self _).symm
        · intro h
          cases h
      · refine Or.inl ⟨⟨fun _ _ => ⟨hputBack.unchanged, still_valid hputBack.unchanged.quiet⟩,
          fun event hbackend hevent => ?_⟩, ?_⟩
        · have hcalls := hputBack.calls
          rw [show cache'.backend = _ from hbackend] at hcalls
          rw [Calls.not_finalizes hcalls] at hevent
          cases hevent
        · intro h
          cases h
      · exact Or.inr ⟨rfl, lost, hinterrupted⟩

end SequenceCache

namespace Operation

open SequenceCache

/-- The finalization wears a slot out: the backend carries it out, but a page that it releases
cannot be given up. -/
def WearsOut : Operation R → SequenceCache R → Prop
  | .commitAppend reservation rows context, cache =>
      0 < rows ∧ AcceptedWorn cache reservation rows context
  | .abortAppend reservation context, cache => AcceptedWorn cache reservation 0 context
  | _, _ => False

end Operation

namespace SequenceCache

variable {cache cache' start : SequenceCache R} {operation : Operation R}
  {orphans : List PageId} {stray : List TokenBlockId} {reservation : AppendReservation}
  {committed : ℕ}

/-- A commit of no rows is rejected before the backend is asked. -/
theorem commitAppend_zero_not_interrupted {context : R.Context} {lost : List PageId} :
    ¬ Interrupted cache reservation 0 context lost
      ((Operation.commitAppend reservation 0 context).step cache) := by
  have hrejected : ∃ failure, commitAppend reservation 0 context cache = .error failure cache := by
    unfold commitAppend
    rcases requireReservation_cases cache reservation with ⟨error, -, herror⟩ | ⟨hok, -⟩
    · exact ⟨_, bind_error herror⟩
    · rw [bind_ok hok, ensure_neg (by simp)]
      exact ⟨_, rfl⟩
  obtain ⟨failure, hrun⟩ := hrejected
  rw [Operation.step, Operation.run, map_error _ hrun]
  rintro ⟨record, pending, event, before, last, after, -, -, htorn, -⟩
  have hlength := congrArg List.length (congrArg SequenceCache.backend htorn.state)
  exact absurd hlength (Nat.succ_ne_self _).symm

/-- A finalization that is not atomic wears a slot out. -/
theorem finalization_ends (hinv : Inv orphans stray cache)
    (hfinalizes : operation.finalization? = some (reservation, committed)) :
    operation.Atomic reservation cache ∧
        (operation.result cache = .ok .done → ¬ WornOut cache reservation committed) ∨
      operation.result cache = .error (.error (.idExhausted "page generation")) ∧
        operation.WearsOut cache ∧ WornOut cache reservation committed := by
  cases operation with
  | commitAppend used rows context =>
      obtain ⟨rfl, rfl⟩ := Prod.mk.inj (Option.some.inj hfinalizes)
      refine (finalize_ends rfl (Ends.mono (commitAppend_spec hinv used rows context)
        (fun _ _ h => h.2) fun _ _ h => h)).imp_right ?_
      rintro ⟨hresult, lost, hinterrupted⟩
      refine ⟨hresult, ⟨Nat.pos_of_ne_zero ?_, hinterrupted.acceptedWorn⟩, hinterrupted.wornOut⟩
      rintro rfl
      exact commitAppend_zero_not_interrupted hinterrupted
  | abortAppend used context =>
      obtain ⟨rfl, rfl⟩ := Prod.mk.inj (Option.some.inj hfinalizes)
      refine (finalize_ends rfl (Ends.mono (abortAppend_spec hinv used context)
        (fun _ _ h => h.2) fun _ _ h => h)).imp_right ?_
      rintro ⟨hresult, lost, hinterrupted⟩
      exact ⟨hresult, hinterrupted.acceptedWorn, hinterrupted.wornOut⟩
  | _ => cases hfinalizes

/-- In every state of every run, a finalization that fails leaves everything in place but the
transaction of the backend, and the reservation still pending; and one that the backend carries
out succeeds.  The exception to both is that of a released page at its last generation. -/
theorem finalizations_atomic (hlaw : R.Retires) {config : CacheConfig}
    (hnew : SequenceCache.new R config = .ok start) (hreach : Reaches start cache)
    (hfinalizes : operation.finalization? = some (reservation, committed)) :
    (∀ failure, operation.result cache = .error failure →
      (Unchanged cache (operation.step cache) ∧
        ((cache.validateReservation reservation).isOk = true →
          ((operation.step cache).validateReservation reservation).isOk = true)) ∨
      WornOut cache reservation committed ∧
        failure = .error (.idExhausted "page generation")) ∧
    ∀ event, (operation.step cache).backend = event :: cache.backend → event.finalizes = true →
      (operation.result cache = .ok .done ↔ ¬ WornOut cache reservation committed) := by
  obtain ⟨orphans, stray, hinv⟩ := Reaches.inv hreach hlaw ⟨_, _, inv_of_new hnew⟩
  rcases finalization_ends hinv hfinalizes with ⟨⟨hfails, hdone⟩, hfresh⟩ | ⟨hresult, -, hworn⟩
  · refine ⟨fun failure hfailure => Or.inl (hfails failure hfailure),
      fun event hbackend hevent => ?_⟩
    have hok := hdone event hbackend hevent
    exact ⟨fun _ => hfresh hok, fun _ => hok⟩
  · rw [hresult]
    refine ⟨fun failure hfailure => Or.inr ⟨hworn, ?_⟩, fun event _ _ => ?_⟩
    · exact (Except.error.inj hfailure).symm
    · refine ⟨fun h => ?_, fun h => absurd hworn h⟩
      cases h

end SequenceCache

namespace Reference

/-- A reservation of two rows that is still pending. -/
def requesting : List (Operation plain) := [admission 7, .reserveAppend ⟨0, 0⟩ 2 7]

/-- The abort of this reservation. -/
def aborting : Operation plain := .abortAppend ⟨⟨0, 0⟩, 0, 2, [⟨⟨0, 0⟩, 0, 0, 2⟩], 0⟩ 7

end Reference

open Reference in
theorem SequenceCache.finalizations_atomic_aborting :
    (aborting.step (after requesting)).backend =
        .abortAppend (7 : ℕ) [] [0] 0 (.ok ()) :: (after requesting).backend ∧
      aborting.result (after requesting) = .ok .done ∧
      ¬ WornOut (after requesting) ⟨⟨0, 0⟩, 0, 2, [⟨⟨0, 0⟩, 0, 0, 2⟩], 0⟩ 0 := by
  have hreach : ReachesIntact start (after requesting) := reachesIntact_after (by decide)
  have hbackend : (aborting.step (after requesting)).backend =
      .abortAppend (7 : ℕ) [] [0] 0 (.ok ()) :: (after requesting).backend := rfl
  have hdone : aborting.result (after requesting) = .ok .done := rfl
  refine ⟨hbackend, hdone, ?_⟩
  exact ((finalizations_atomic plain_lawful.toRetires new_start hreach.reaches rfl).2 _ hbackend
    rfl).mp hdone

/-! ## Slots at their last generation -/

namespace SequenceCache

variable {cache start : SequenceCache R} {operation : Operation R}
  {orphans : List PageId} {stray : List TokenBlockId} {reservation : AppendReservation}
  {committed : ℕ}

/-- A finalization that the backend has carried out cannot be called back. -/
theorem CarriedOut.not_atomic {program : CacheM R Unit} {context : R.Context}
    (hrun : operation.run = (fun _ => Reply.done) <$> program)
    (hcarried : CarriedOut orphans stray cache reservation committed context (program cache))
    (hworn : WornOut cache reservation committed) : ¬ operation.Atomic reservation cache := by
  rintro ⟨-, hdone⟩
  rw [Operation.step, Operation.result, hrun] at hdone
  unfold CarriedOut at hcarried
  cases hprogram : program cache with
  | ok value cache' =>
      rw [hprogram] at hcarried
      exact hcarried.2.not_wornOut hworn
  | error failure cache' =>
      rw [hprogram] at hcarried
      obtain ⟨-, lost, -, record, pending, event, before, last, after, -, haccepted, htorn, -⟩ :=
        hcarried
      rw [map_error _ hprogram] at hdone
      have hresult := hdone event (congrArg SequenceCache.backend htorn.state) haccepted.finalizes
      cases hresult

end SequenceCache

namespace SequenceCache

variable {cache start : SequenceCache R} {operation : Operation R} {reservation : AppendReservation}
  {committed : ℕ}

/-- In every state of every run, a finalization is atomic exactly if it does not wear a slot
out. -/
theorem atomic_iff_not_wearsOut (hlaw : R.Retires) {config : CacheConfig}
    (hnew : SequenceCache.new R config = .ok start) (hreach : Reaches start cache)
    (hfinalizes : operation.finalization? = some (reservation, committed)) :
    operation.Atomic reservation cache ↔ ¬ operation.WearsOut cache := by
  obtain ⟨orphans, stray, hinv⟩ := Reaches.inv hreach hlaw ⟨_, _, inv_of_new hnew⟩
  constructor
  · intro hatomic hwears
    cases operation with
    | commitAppend used rows context =>
        obtain ⟨rfl, rfl⟩ := Prod.mk.inj (Option.some.inj hfinalizes)
        obtain ⟨hpos, record, pending, event, hmatches, hle, haccepted, hworn⟩ := hwears
        exact CarriedOut.not_atomic rfl (commitAppend_accepted hinv hmatches ⟨hpos, hle⟩ haccepted)
          ⟨record, pending, hmatches, hworn⟩ hatomic
    | abortAppend used context =>
        obtain ⟨rfl, rfl⟩ := Prod.mk.inj (Option.some.inj hfinalizes)
        obtain ⟨record, pending, event, hmatches, hle, haccepted, hworn⟩ := hwears
        exact CarriedOut.not_atomic rfl (abortAppend_accepted hinv hmatches haccepted)
          ⟨record, pending, hmatches, hworn⟩ hatomic
    | _ => cases hfinalizes
  · intro hfresh
    rcases finalization_ends hinv hfinalizes with ⟨hatomic, -⟩ | ⟨-, hwears, -⟩
    · exact hatomic
    · exact absurd hwears hfresh

end SequenceCache

open Reference in
theorem SequenceCache.atomic_iff_not_wearsOut_aborting :
    aborting.Atomic ⟨⟨0, 0⟩, 0, 2, [⟨⟨0, 0⟩, 0, 0, 2⟩], 0⟩ (after requesting) := by
  have hreach : ReachesIntact start (after requesting) := reachesIntact_after (by decide)
  refine (atomic_iff_not_wearsOut plain_lawful.toRetires new_start hreach.reaches rfl).mpr ?_
  have hyoung : ∀ record ∈ (after requesting).sequences.get? ⟨0, 0⟩, ∀ pending ∈ record.pending,
      ∀ id ∈ pending.newPages, id.generation = 0 := by decide +kernel
  rintro ⟨record, pending, event, hmatches, -, -, id, hmem, hlast⟩
  rw [hyoung record hmatches.live pending hmatches.waiting id (List.mem_of_mem_drop hmem)] at hlast
  exact absurd hlast (by decide)

/-! ## A run that wears a slot out -/

namespace Reference

open SequenceCache

/-- A backend that cannot fail. -/
@[reducible]
def willing : Runtime where
  Page := ℕ
  Context := ℕ
  AppendTransaction := Unit
  Error := Empty
  pageBytes := 1
  pageCapacity := none
  allocatePage history _ := .ok (handedOut history).length
  prepareAppend _ _ _ _ := .ok ()
  abortAppend _ _ _ _ _ _ := (.ok (), ())
  copyPartialPage history _ _ _ := .ok (handedOut history).length
  commitAppend _ _ _ _ := (.ok (), ())
  updatePageTable _ _ _ _ := .ok ()
  retirePages _ _ _ := .ok ⟨0⟩
  retirementIsImmediate _ := true
  pollReclaimed _ _ := .ok 0
  toRetainedSnapshot := sizedSnapshot
  toRadixTree := listTree
  hashOrder _ ids := ids
  hashOrder_perm _ ids := List.Perm.refl ids

theorem willing_retires : willing.Retires := by
  constructor
  · intro history context pages failure h
    cases h
  · intro history context pages outcome h
    cases h
    exact Nat.zero_le _

theorem willing_immediateHonest : willing.ImmediateHonest := by
  constructor
  intro history prepared context pages outcome _ _ h
  cases h
  rfl

/-- A cache over this backend. -/
def begun : SequenceCache willing := (emptyCache willing config).refresh

theorem new_begun : SequenceCache.new willing config = .ok begun := rfl

/-- The reservation of two rows on the first slot, at generation `count`. -/
def twoRows (count : ℕ) : AppendReservation := ⟨⟨0, 0⟩, 0, 2, [⟨⟨0, count⟩, 0, 0, 2⟩], count⟩

def reserveTwo : Operation willing := .reserveAppend ⟨0, 0⟩ 2 7

def abortTwo (count : ℕ) : Operation willing := .abortAppend (twoRows count) 7

/-- Reserve the first slot and give it back, `count` times. -/
def wear : ℕ → List (Operation willing)
  | 0 => [.admitSequence none ⟨8, 0, 0, false⟩ 7 fun _ _ => .ok ()]
  | count + 1 => wear count ++ [reserveTwo, abortTwo count]

/-- The state after `count` reservations were aborted. -/
def worn (count : ℕ) : SequenceCache willing := runAll Operation.step (wear count) begun

/-- The first slot has been used `count` times, and nothing is held. -/
structure Wearing (count : ℕ) (cache : SequenceCache willing) : Prop where
  inv : Inv [] [] cache
  config : cache.config = Reference.config
  live : cache.sequences.get? ⟨0, 0⟩ = some ⟨[], 0, 8, 4, 0, 0, none⟩
  empty : cache.pages.values.length = 0
  upcoming : cache.pages.upcoming 0 = ⟨0, count⟩
  nonce : cache.appendNonce = count

def pendingTwo (count : ℕ) : PendingAppend Unit :=
  ⟨0, 2, [⟨⟨0, count⟩, 0, 0, 2⟩], [⟨0, count⟩], count, ()⟩

def waitingTwo (count : ℕ) : SequenceRecord Unit := ⟨[], 0, 8, 3, 0, 0, some (pendingTwo count)⟩

/-- The first slot has been used `count` times, and a reservation holds it. -/
structure Wanted (count : ℕ) (cache : SequenceCache willing) : Prop where
  inv : Inv [] [] cache
  config : cache.config = Reference.config
  pending : Matches cache (twoRows count) (waitingTwo count) (pendingTwo count)
  unshared : ∃ page, cache.pages.get? ⟨0, count⟩ = some page ∧ page.activeRefs = 1 ∧
    page.prefixRefs = 0
  held : cache.pages.values.length = 1
  nonce : cache.appendNonce = count + 1

variable {count : ℕ} {cache : SequenceCache willing}

theorem Wearing.reserve (h : Wearing count cache) (hlt : count < usizeMax) :
    Wanted count (reserveTwo.step cache) := by
  have hspec := reserveAppend_spec (R := willing) h.inv ⟨0, 0⟩ 2 (7 : ℕ)
  have hpages : (2 : ℕ) ⌈/⌉ cache.config.pageTokens = 1 := by
    rw [h.config]
    rfl
  cases hrun : reserveAppend (R := willing) ⟨0, 0⟩ 2 (7 : ℕ) cache with
  | error failure cache' =>
      rw [hrun] at hspec
      obtain ⟨-, ⟨error, -, -⟩ | ⟨-, hdepleted⟩ | ⟨-, hnot⟩⟩ := hspec.2.1 rfl
      · exact error.elim
      · rcases hdepleted with hnonce | ⟨record, hrecord, hslots⟩
        · rw [h.nonce] at hnonce
          omega
        · rw [h.live] at hrecord
          cases hrecord
          rw [h.empty, missingPages] at hslots
          simp only [Nat.zero_add, List.length_nil, Nat.sub_zero, hpages] at hslots
          omega
      · exact absurd ⟨Nat.two_pos, _, h.live, rfl, by decide⟩ hnot
  | ok reservation cache' =>
      rw [hrun] at hspec
      obtain ⟨hinv, record, transaction, fresh, allocations, prepared, hreserved, -⟩ := hspec
      rw [Operation.step, reserveTwo, Operation.run, map_ok _ hrun, finalState_ok]
      obtain rfl : record = ⟨[], 0, 8, 4, 0, 0, none⟩ :=
        Option.some.inj (hreserved.live.symm.trans h.live)
      have hlength := hreserved.length_table
      simp only [List.length_nil, Nat.zero_add, hpages] at hlength
      have hfresh := hreserved.issued
      rw [hlength] at hfresh
      have hissued : fresh = [⟨0, count⟩] := by
        rw [hfresh, Arena.issued, List.range_one, List.map_singleton, h.upcoming]
      have hrecord : cache'.sequences.get? ⟨0, 0⟩ = some (SequenceRecord.reserve
          ⟨[], 0, 8, 4, 0, 0, none⟩ cache.config.pageTokens 2 cache.appendNonce fresh
            transaction) := by
        rw [hreserved.state]
        change (cache.sequences.set ⟨0, 0⟩ _).get? ⟨0, 0⟩ = _
        rw [Arena.get?_set h.live, if_pos rfl]
      rw [hissued, h.config, h.nonce] at hrecord
      refine ⟨hinv, ?_, ⟨hrecord, rfl, rfl, rfl, rfl, rfl⟩, ?_, ?_, ?_⟩
      · rw [hreserved.state]
        exact h.config
      · exact hreserved.pages.unshared ⟨0, count⟩ (by rw [hissued]; exact List.mem_singleton_self _)
      · rw [hreserved.length_pages, h.empty, hlength]
      · rw [hreserved.state]
        exact congrArg Nat.succ h.nonce

/-- An abort gives the page back. -/
theorem released_abort (count : ℕ) :
    releasedPages 2 (waitingTwo count) (pendingTwo count) 0 = [⟨0, count⟩] :=
  releasedPages_zero (show (0 : ℕ) = 0 ⌈/⌉ 2 by decide)

theorem settle_abort (count : ℕ) :
    (waitingTwo count).settle 2 (pendingTwo count) 0 = ⟨[], 0, 8, 4, 0, 0, none⟩ := by
  have hkept : keptPages 2 (waitingTwo count) (pendingTwo count) 0 = [] :=
    keptPages_zero (show (0 : ℕ) = 0 ⌈/⌉ 2 by decide)
  rw [SequenceRecord.settle, released_abort, hkept]
  rfl

/-- A commit of both rows keeps it. -/
theorem kept_commit (count : ℕ) :
    keptPages 2 (waitingTwo count) (pendingTwo count) 2 = [⟨0, count⟩] ∧
      releasedPages 2 (waitingTwo count) (pendingTwo count) 2 = [] := by
  have hpages : (0 + 2 : ℕ) ⌈/⌉ 2 = 1 := by decide
  change [_].take ((0 + 2) ⌈/⌉ 2 - 0) = _ ∧ [_].drop ((0 + 2) ⌈/⌉ 2 - 0) = _
  rw [hpages]
  exact ⟨rfl, rfl⟩

/-- A backend that cannot fail leaves a finalization only one way to fail. -/
theorem Wanted.wornOut (h : Wanted count cache) {committed : ℕ} {valid : Prop} {context : ℕ}
    {failure : Failure Empty} {cache' : SequenceCache willing} (hvalid : valid)
    (hfails : FinalizeFails (R := willing) [] [] cache (twoRows count) valid committed context
      failure cache') :
    ∃ id ∈ releasedPages 2 (waitingTwo count) (pendingTwo count) committed,
      id.generation = u32Max := by
  rcases hfails with ⟨⟨error, herror, -⟩ | ⟨hnot, -⟩, -⟩ | ⟨error, -, -⟩ | ⟨-, lost, -, htorn⟩
  · have hok := validateReservation_isOk.mpr ⟨_, _, h.pending⟩
    rw [herror] at hok
    cases hok
  · exact absurd hvalid hnot
  · exact error.elim
  · obtain ⟨record, pending, hmatches, hworn⟩ := htorn.wornOut
    obtain ⟨rfl, rfl⟩ := h.pending.unique hmatches
    rwa [h.config] at hworn

theorem Wanted.abort (h : Wanted count cache) (hlt : count < u32Max) :
    Wearing (count + 1) ((abortTwo count).step cache) := by
  have hspec := abortAppend_spec (R := willing) h.inv (twoRows count) (7 : ℕ)
  cases hrun : abortAppend (R := willing) (twoRows count) (7 : ℕ) cache with
  | error failure cache' =>
      rw [hrun] at hspec
      obtain ⟨id, hmem, hlast⟩ := h.wornOut trivial hspec
      rw [released_abort] at hmem
      obtain rfl : id = ⟨0, count⟩ := List.mem_singleton.mp hmem
      exact absurd hlast hlt.ne
  | ok value cache' =>
      rw [hrun] at hspec
      obtain ⟨hinv, record, pending, event, hmatches, -, hsettled⟩ := hspec
      rw [Operation.step, abortTwo, Operation.run, map_ok _ hrun, finalState_ok]
      obtain ⟨rfl, rfl⟩ := h.pending.unique hmatches
      have hlength := hsettled.length_pages
      have hupcoming := hsettled.upcoming
      rw [h.config, show Reference.config.pageTokens = 2 from rfl,
        released_abort] at hlength hupcoming
      refine ⟨hinv, ?_, ?_, ?_, hupcoming, ?_⟩
      · rw [hsettled.state]
        exact h.config
      · rw [hsettled.sequences, Arena.get?_set hmatches.live, if_pos (by rfl), h.config]
        exact congrArg some (settle_abort count)
      · rw [h.held] at hlength
        exact (Nat.succ_injective hlength).symm
      · rw [hsettled.state]
        exact h.nonce

theorem wearing_worn (hle : count ≤ u32Max) :
    Reaches begun (worn count) ∧ Wearing count (worn count) := by
  induction count with
  | zero =>
      have hreach : ReachesIntact begun (worn 0) := Reachable.start.runAll (by decide +kernel)
      have hfacts : (worn 0).config = config ∧
          (worn 0).sequences.get? ⟨0, 0⟩ = some ⟨[], 0, 8, 4, 0, 0, none⟩ ∧
          (worn 0).pages.values.length = 0 ∧ (worn 0).pages.upcoming 0 = ⟨0, 0⟩ ∧
          (worn 0).appendNonce = 0 := by decide +kernel
      obtain ⟨hconfig, hlive, hempty, hupcoming, hnonce⟩ := hfacts
      have hsound := hreach.sound willing_retires willing_immediateHonest (sound_of_new new_begun)
      exact ⟨hreach.reaches, hsound.inv, hconfig, hlive, hempty, hupcoming, hnonce⟩
  | succ count ih =>
      obtain ⟨hreach, hwearing⟩ := ih (Nat.le_of_succ_le hle)
      have hstate : worn (count + 1) = (abortTwo count).step (reserveTwo.step (worn count)) := by
        rw [worn, wear, runAll_append]
        rfl
      rw [hstate]
      have hbound : u32Max ≤ usizeMax := by decide
      exact ⟨(hreach.step reserveTwo trivial).step (abortTwo count) trivial,
        (hwearing.reserve (by omega)).abort hle⟩

/-- A last reservation, on a slot that has been given back as often as it can be. -/
def wornOut : SequenceCache willing := reserveTwo.step (worn u32Max)

theorem wanted_wornOut : Reaches begun wornOut ∧ Wanted u32Max wornOut := by
  obtain ⟨hreach, hwearing⟩ := wearing_worn (Nat.le_refl u32Max)
  exact ⟨hreach.step reserveTwo trivial, hwearing.reserve (by decide)⟩

/-- Both rows of this reservation are committed. -/
def keepTwo : Operation willing := .commitAppend (twoRows u32Max) 2 7

theorem Wanted.commit (h : Wanted u32Max cache) :
    Inv [] [] (keepTwo.step cache) ∧ ∃ record,
      (keepTwo.step cache).sequences.get? ⟨0, 0⟩ = some record ∧ record.pending = none ∧
        ⟨0, u32Max⟩ ∈ (keepTwo.step cache).finishBatch record := by
  have hspec := commitAppend_spec (R := willing) h.inv (twoRows u32Max) 2 (7 : ℕ)
  obtain ⟨hkept, hreleased⟩ := kept_commit u32Max
  cases hrun : commitAppend (R := willing) (twoRows u32Max) 2 (7 : ℕ) cache with
  | error failure cache' =>
      rw [hrun] at hspec
      obtain ⟨id, hmem, -⟩ := h.wornOut ⟨by decide, Nat.le_refl 2⟩ hspec
      rw [hreleased] at hmem
      cases hmem
  | ok value cache' =>
      rw [hrun] at hspec
      obtain ⟨hinv, record, pending, event, hmatches, -, hsettled⟩ := hspec
      rw [Operation.step, keepTwo, Operation.run, map_ok _ hrun, finalState_ok]
      obtain ⟨rfl, rfl⟩ := h.pending.unique hmatches
      refine ⟨hinv, (waitingTwo u32Max).settle cache.config.pageTokens (pendingTwo u32Max) 2, ?_,
        rfl, ?_⟩
      · rw [hsettled.sequences, Arena.get?_set hmatches.live]
        exact if_pos rfl
      obtain ⟨page, hpage, hactive, hprefix⟩ := h.unshared
      have hmarked := hsettled.pages ⟨0, u32Max⟩
      rw [h.config, show Reference.config.pageTokens = 2 from rfl, hreleased,
        if_neg List.not_mem_nil, hpage] at hmarked
      rw [finishBatch, List.mem_filter, solelyHeld_iff hmarked, PageRecord.mark_activeRefs,
        PageRecord.mark_prefixRefs, h.config]
      refine ⟨?_, hactive, hprefix⟩
      rw [SequenceRecord.settle, show Reference.config.pageTokens = 2 from rfl, hkept]
      exact List.mem_singleton_self _

end Reference

namespace SequenceCache

open Reference in
/-- The backend has taken the page back when its slot turns out to be worn out. -/
theorem abortAppend_tears : Reaches begun wornOut ∧
    (wornOut.validateReservation (twoRows u32Max)).isOk = true ∧
      ¬ (abortTwo u32Max).Atomic (twoRows u32Max) wornOut := by
  obtain ⟨hreach, hwanted⟩ := wanted_wornOut
  generalize wornOut = cache at *
  obtain ⟨restored, released, hrestored, hreleased, -⟩ :=
    abortAppend_hinges hwanted.inv hwanted.pending (7 : ℕ)
  refine ⟨hreach, validateReservation_isOk.mpr ⟨_, _, hwanted.pending⟩, ?_⟩
  refine CarriedOut.not_atomic rfl (abortAppend_accepted hwanted.inv hwanted.pending
    (Accepted.abort restored released () rfl hrestored hreleased)) ⟨_, _, hwanted.pending, ?_⟩
  rw [hwanted.config, show Reference.config.pageTokens = 2 from rfl, released_abort]
  exact ⟨_, List.mem_singleton_self _, rfl⟩

open Reference in
/-- The backend would take any page, but a sequence that holds this one can never be finished. -/
theorem finish_wornOut : Reaches begun (keepTwo.step wornOut) ∧
    (∃ record, (keepTwo.step wornOut).sequences.get? ⟨0, 0⟩ = some record ∧
      record.pending = none) ∧
    (∀ history context pages, willing.retirePages history context pages = .ok ⟨0⟩) ∧
    ∀ context, (Operation.finish ⟨0, 0⟩ context).result (keepTwo.step wornOut) =
      .error (.error (.idExhausted "page generation")) := by
  obtain ⟨hreach, hwanted⟩ := wanted_wornOut
  have hreach' := hreach.step keepTwo trivial
  obtain ⟨hinv, record, hrecord, hpending, hmem⟩ := hwanted.commit
  generalize keepTwo.step wornOut = cache at *
  refine ⟨hreach', ⟨record, hrecord, hpending⟩, fun _ _ _ => rfl, fun context => ?_⟩
  have hspec := finish_spec willing_retires hinv ⟨0, 0⟩ context
  rw [Operation.result, Operation.run]
  cases hrun : finish ⟨0, 0⟩ context cache with
  | ok value cache' =>
      rw [hrun] at hspec
      obtain ⟨-, other, physical, deferred, hfinished⟩ := hspec
      obtain rfl := Option.some.inj (hrecord.symm.trans hfinished.live)
      exact absurd rfl (hfinished.removable _ hmem)
  | error failure cache' =>
      rw [hrun] at hspec
      rw [map_error _ hrun]
      rcases hspec with ⟨-, hstale, -⟩ | ⟨other, hother, hcause⟩
      · rw [hrecord] at hstale
        cases hstale
      obtain rfl := Option.some.inj (hrecord.symm.trans hother)
      rcases hcause with ⟨-, hbusy, -⟩ | ⟨-, hlast, -⟩ | ⟨⟨rfl, -⟩ | ⟨answer, _, -⟩, -⟩
      · rw [hpending] at hbusy
        cases hbusy
      · exact absurd hlast (by decide)
      · rfl
      · exact answer.error.elim

end SequenceCache

end SeqCache
