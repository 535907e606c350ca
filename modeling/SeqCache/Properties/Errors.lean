import SeqCache.Invariant.Checks
import SeqCache.Properties.Custody
import SeqCache.Properties.Reservations

/-!
# What calls report

Which errors a call can report, in any state of any run.  No call reports a violated invariant
of the cache itself or a page handle that does not resolve, those that give something back
report no overflow, and the one panic needs more entries than a counter can tell apart.
-/

namespace SeqCache

open Machine Program Std

variable {R : Runtime}

/-! ## Kinds of errors -/

namespace CacheError

variable {Error : Type}

/-- The reservation does not match a pending append. -/
def isMismatch : CacheError Error → Bool
  | .staleSequence => true
  | .noAppendPending => true
  | .appendReservationMismatch => true
  | _ => false

/-- The backend has failed, or identities have run out. -/
def isOutside : CacheError Error → Bool
  | .backend _ => true
  | .idExhausted _ => true
  | _ => false

def isBackend : CacheError Error → Bool
  | .backend _ => true
  | _ => false

end CacheError

namespace Operation

/-- The call makes a reservation. -/
def reserves : Operation R → Bool
  | .reserveAppend _ _ _ => true
  | .reserveAppendBatch _ _ => true
  | _ => false

/-- The call refreshes the time of last use of an entry. -/
def refreshes : Operation R → Bool
  | .lookupPrefix _ => true
  | .retainPrefix _ _ _ _ => true
  | _ => false

/-- The errors that a call can report, by itself or inside a batch. -/
def mayReport (operation : Operation R) (error : CacheError R.Error) : Bool :=
  match operation with
  | .commitAppend _ _ _ => error.isMismatch || error.isOutside || (error matches .invalidPosition)
  | .abortAppend _ _ => error.isMismatch || error.isOutside
  | .commitAppendBatch _ _ _ => error.isMismatch || error.isOutside ||
      (error matches .invalidPosition | .appendBatchSizeMismatch)
  | .abortAppendBatch _ _ => error.isMismatch || error.isOutside ||
      (error matches .appendBatchSizeMismatch)
  | .withAppendPages _ _ => error.isMismatch || error.isBackend
  | .withAppendReservations _ _ => error.isMismatch || error.isBackend
  | .retainPrefix _ _ _ _ => error.isOutside || (error matches .staleSequence |
      .invalidTokenPrefix | .snapshotCapacity | .prefixCapacity | .arithmeticOverflow)
  | .evictPrefix _ _ => error.isOutside || (error matches .stalePrefix)
  | .finish _ _ => error.isOutside || (error matches .staleSequence | .appendPending)
  | .reclaimDeferred _ => error.isBackend
  | .lookupPrefix _ => false
  | .admitSequence _ _ _ _ => (Failure.error error).isReported
  | .branch _ _ _ => (Failure.error error).isReported
  | .reserveAppend _ _ _ => (Failure.error error).isReported
  | .reserveAppendBatch _ _ => (Failure.error error).isReported

/-- The call ends in a way that its caller has to expect. -/
def Expected (operation : Operation R) (cache : SequenceCache R) :
    Except (Failure R.Error) (Reply R) → Prop
  | .ok reply => ∀ error, reply.batchError = some error → operation.mayReport error = true
  | .error (.error error) => operation.mayReport error = true
  | .error (.panic message) => operation.refreshes = true ∧ cache.prefixes.size = usizeMax ∧
      message = "attempt to add with overflow"

end Operation

/-! ## Single calls -/

namespace SequenceCache

variable {cache cache' : SequenceCache R} {operation : Operation R}
  {orphans : List PageId} {stray : List TokenBlockId}

theorem expected_ofReported {failure : Failure R.Error} (h : failure.isReported = true)
    (hmay : ∀ error : CacheError R.Error, (Failure.error error).isReported = true →
      operation.mayReport error = true) : operation.Expected cache (.error failure) := by
  obtain ⟨error, rfl⟩ := Failure.error_of_isReported h
  exact hmay error h

theorem isMismatch_ofInvalid {reservation : AppendReservation} {error : CacheError R.Error}
    (h : cache.validateReservation reservation = .error error) : error.isMismatch = true := by
  rcases validateReservation_error h with ⟨rfl, -⟩ | rfl | rfl <;> rfl

/-- What is known of a program is known of the call that runs it. -/
theorem expected_ofEnds {α : Type} {program : CacheM R α} {reply : α → Reply R}
    (hrun : operation.run = reply <$> program)
    (h : Ends (program cache) (fun value _ => operation.Expected cache (.ok (reply value)))
      (fun failure _ => operation.Expected cache (.error failure))) :
    operation.Expected cache (operation.result cache) := by
  rw [Operation.result, hrun]
  cases hprogram : program cache with
  | ok value cache' =>
      rw [hprogram] at h
      rw [map_ok reply hprogram]
      exact h
  | error failure cache' =>
      rw [hprogram] at h
      rw [map_error reply hprogram]
      exact h

/-- A reply without an error inside. -/
theorem expected_silent {reply : Reply R} (h : reply.batchError = none) :
    operation.Expected cache (.ok reply) := by
  rintro error herror
  rw [h] at herror
  cases herror

theorem expected_ofRefused {ids : List PageId} {context : R.Context} {failure : Failure R.Error}
    {middle : SequenceCache R} (h : Refused middle ids context failure)
    (hmay : ∀ error : CacheError R.Error, error.isOutside = true →
      operation.mayReport error = true) : operation.Expected cache (.error failure) := by
  rcases h with ⟨rfl, -⟩ | ⟨answer, physical, rfl, -⟩
  · exact hmay _ rfl
  · exact hmay _ rfl

/-- A failed finalization reports a mismatch, a bad number of rows or what its surroundings
have failed with. -/
theorem FinalizeFails.mayReport (operation : Operation R) {reservation : AppendReservation}
    {valid : Prop} {committed : ℕ}
    {context : R.Context} {failure : Failure R.Error}
    (h : FinalizeFails orphans stray cache reservation valid committed context failure cache')
    (hmay : ∀ error : CacheError R.Error, (error.isMismatch || error.isOutside) = true →
      operation.mayReport error = true)
    (hrows : ¬ valid → operation.mayReport .invalidPosition = true) :
    ∃ error, failure = .error error ∧ operation.mayReport error = true := by
  rcases h with ⟨⟨error, hinvalid, rfl⟩ | ⟨hvalid, rfl⟩, -⟩ | ⟨error, rfl, -⟩ | ⟨rfl, -⟩
  · refine ⟨error, rfl, hmay error ?_⟩
    rw [isMismatch_ofInvalid hinvalid, Bool.true_or]
  · exact ⟨_, rfl, hrows hvalid⟩
  · exact ⟨_, rfl, hmay _ rfl⟩
  · exact ⟨_, rfl, hmay _ rfl⟩

/-! ## Loops -/

/-- A batch of finalizations reports what its checks or one of its calls report. -/
theorem Finalizes.expected {ι : Type} {call : ι → CacheM R Unit} {batch : List AppendReservation}
    {items : List ι} {result : EStateM.Result (Failure R.Error) (SequenceCache R)
      (BatchResult R Unit)}
    (h : Finalizes call batch items cache result) (hinv : Inv orphans stray cache)
    (hcall : ∀ item state, Inv orphans stray state → Ends (call item state)
      (fun _ state' => Inv orphans stray state')
      (fun failure _ => ∃ error, failure = .error error ∧ operation.mayReport error = true)) :
    Ends result (fun value _ => operation.Expected cache (.ok (.finalized value)))
      (fun failure _ => operation.Expected cache (.error failure)) := by
  have hkeeps : ∀ item state value state', Inv orphans stray state →
      call item state = .ok value state' → Inv orphans stray state' := by
    intro item state value state' hstate hrun
    have hends := hcall item state hstate
    rw [hrun] at hends
    exact hends
  rcases h with ⟨new, cache', heach, rfl⟩ |
    ⟨before, item, after, new, middle, failure, cache', rfl, hstopped, hresult⟩
  · exact @expected_silent R cache operation (.finalized (.ok ())) rfl
  have hmiddle : Inv orphans stray middle := hstopped.succeeded.invariant hinv fun other _ =>
    hkeeps other
  have hfailed := hcall item middle hmiddle
  rw [hstopped.failed] at hfailed
  obtain ⟨error, rfl, hmay⟩ := hfailed
  rcases hresult with ⟨error', heq, rfl⟩ | ⟨message, heq, -⟩
  · cases heq
    rintro reported hreported
    cases hreported
    exact hmay
  · cases heq

/-- A batch of reservations reports what its requests report. -/
theorem reserveAppendBatch_expected (hinv : Inv [] stray cache)
    (requests : List AppendBatchRequest) (contexts : List R.Context) :
    Ends (reserveAppendBatch requests contexts cache)
      (fun value _ => (Operation.reserveAppendBatch requests contexts).Expected cache
        (.ok (.reservations value)))
      (fun failure _ => (Operation.reserveAppendBatch requests contexts).Expected cache
        (.error failure)) := by
  unfold reserveAppendBatch
  by_cases hlength : requests.length ≠ contexts.length
  · rw [if_pos hlength]
    rintro error herror
    cases herror
    rfl
  rw [if_neg hlength]
  rcases reserveEach_cases (requests.zip contexts) 0 [] cache with ⟨new, cache', -, hrun⟩ |
    ⟨before, item, after, new, middle, failure, cache', -, hstopped, hresult⟩
  · rw [hrun]
    exact @expected_silent R cache (.reserveAppendBatch requests contexts)
      (.reservations (.ok ([] ++ new))) rfl
  have hmiddle : Inv [] stray middle := by
    refine hstopped.succeeded.invariant hinv fun item _ state value state' hstate hcall => ?_
    have hspec := reserveAppend_spec hstate item.1.sequence item.1.rows item.2
    rw [show reserveAppend item.1.sequence item.1.rows item.2 state = _ from hcall] at hspec
    exact hspec.1
  have hspec := reserveAppend_spec hmiddle item.1.sequence item.1.rows item.2
  rw [show reserveAppend item.1.sequence item.1.rows item.2 middle = _ from
    hstopped.failed] at hspec
  obtain ⟨⟨error, rfl⟩, hreported, -⟩ := hspec
  rcases hresult with ⟨error', heq, hrun⟩ | ⟨message, heq, -⟩
  · cases heq
    rw [hrun]
    rintro reported hreports
    cases hreports
    exact (hreported rfl).1
  · cases heq

theorem Dismissed.expected {batch : List AppendReservation}
    {result : EStateM.Result (Failure R.Error) (SequenceCache R) (BatchResult R Unit)}
    (h : Dismissed batch cache result)
    (hmay : ∀ error : CacheError R.Error, Unfit cache batch error →
      operation.mayReport error = true) :
    Ends result (fun value _ => operation.Expected cache (.ok (.finalized value)))
      (fun failure _ => operation.Expected cache (.error failure)) := by
  obtain ⟨error, index, hunfit, rfl⟩ := h
  rintro reported hreported
  cases hreported
  exact hmay error hunfit

end SequenceCache

/-! ## All calls -/

namespace Operation

open SequenceCache

variable {cache : SequenceCache R} {orphans : List PageId} {stray : List TokenBlockId}

theorem expected (hlaw : R.Lawful) (hinv : Inv orphans stray cache) (operation : Operation R)
    (hreserves : operation.reserves = true → orphans = []) :
    operation.Expected cache (operation.result cache) := by
  cases operation with
  | admitSequence found request context restore =>
      refine expected_ofEnds rfl (Ends.mono
        (admitSequence_spec hlaw.toRetires hinv found request context restore) ?_ ?_)
      · exact fun _ _ _ => expected_silent rfl
      · rintro failure cache' ⟨hreported | hover, -⟩
        · exact expected_ofReported hreported fun _ h => h
        · exact absurd hlaw hover.not_lawful
  | branch source request context =>
      refine expected_ofEnds rfl (Ends.mono
        (branch_spec hlaw.toRetires hinv source request context) ?_ ?_)
      · exact fun _ _ _ => expected_silent rfl
      · rintro failure cache' ⟨hreported, -⟩
        exact expected_ofReported hreported fun _ h => h
  | reserveAppend sequence rows context =>
      refine expected_ofEnds rfl (Ends.mono (reserveAppend_spec hinv sequence rows context) ?_ ?_)
      · exact fun _ _ _ => expected_silent rfl
      · rintro failure cache' ⟨-, hreported, -⟩
        exact expected_ofReported (hreported (hreserves rfl)).1 fun _ h => h
  | commitAppend reservation rows context =>
      refine expected_ofEnds rfl (Ends.mono (commitAppend_spec hinv reservation rows context) ?_ ?_)
      · exact fun _ _ _ => expected_silent rfl
      · rintro failure cache' hfails
        obtain ⟨error, rfl, hmay⟩ := hfails.mayReport (.commitAppend reservation rows context)
          (fun _ h => by simp [mayReport, h]) fun _ => rfl
        exact hmay
  | abortAppend reservation context =>
      refine expected_ofEnds rfl (Ends.mono (abortAppend_spec hinv reservation context) ?_ ?_)
      · exact fun _ _ _ => expected_silent rfl
      · rintro failure cache' hfails
        obtain ⟨error, rfl, hmay⟩ := hfails.mayReport (.abortAppend reservation context)
          (fun _ h => h) fun hfalse => absurd trivial hfalse
        exact hmay
  | reserveAppendBatch requests contexts =>
      obtain rfl := hreserves rfl
      exact expected_ofEnds rfl (reserveAppendBatch_expected hinv requests contexts)
  | commitAppendBatch reservations rows contexts =>
      have hmay : ∀ error : CacheError R.Error, (error.isMismatch || error.isOutside) = true →
          (Operation.commitAppendBatch reservations rows contexts).mayReport error = true :=
        fun _ h => by simp [mayReport, h]
      refine expected_ofEnds rfl ?_
      rcases commitAppendBatch_cases reservations rows contexts cache with
        hdismissed | ⟨-, -, -, hfinalizes⟩
      · refine hdismissed.expected ?_
        rintro error (rfl | rfl | ⟨reservation, -, hinvalid⟩)
        · rfl
        · rfl
        · exact hmay error (by rw [isMismatch_ofInvalid hinvalid, Bool.true_or])
      · refine hfinalizes.expected hinv fun item state hstate => ?_
        exact Ends.mono (commitAppend_spec hstate item.1.1 item.1.2 item.2) (fun _ _ h => h.1)
          fun _ _ hfails => hfails.mayReport _ hmay fun _ => rfl
  | abortAppendBatch reservations contexts =>
      have hmay : ∀ error : CacheError R.Error, (error.isMismatch || error.isOutside) = true →
          (Operation.abortAppendBatch reservations contexts).mayReport error = true :=
        fun _ h => by simp [mayReport, h]
      refine expected_ofEnds rfl ?_
      by_cases hlength : reservations.length ≠ contexts.length
      · rw [SequenceCache.abortAppendBatch, if_pos hlength]
        rintro error herror
        cases herror
        rfl
      rcases checkAborts_cases cache reservations 0 with
        ⟨error, index, hcheck, item, -, hinvalid⟩ | ⟨-, hvalid⟩
      · rw [SequenceCache.abortAppendBatch, if_neg hlength, get_bind_run, hcheck]
        rintro error herror
        cases herror
        exact hmay error (by rw [isMismatch_ofInvalid hinvalid, Bool.true_or])
      · have hfinalizes := abortAppendBatch_finalizes (not_not.mp hlength) hvalid
        refine hfinalizes.expected hinv fun item state hstate => ?_
        exact Ends.mono (abortAppend_spec hstate item.1 item.2) (fun _ _ h => h.1)
          fun _ _ hfails => hfails.mayReport _ hmay fun hfalse => absurd trivial hfalse
  | withAppendPages reservation lend =>
      refine expected_ofEnds rfl (Ends.mono (withAppendPages_spec hinv reservation lend) ?_ ?_)
      · exact fun _ _ _ => expected_silent rfl
      · rintro failure cache' (⟨error, hinvalid, rfl, -⟩ | ⟨⟨error, rfl⟩, -⟩)
        · rw [Expected, mayReport, isMismatch_ofInvalid hinvalid, Bool.true_or]
        · rfl
  | withAppendReservations reservations lend =>
      refine expected_ofEnds rfl (Ends.mono
        (withAppendReservations_spec hinv reservations lend) ?_ ?_)
      · exact fun _ _ _ => expected_silent rfl
      · rintro failure cache' (⟨reservation, -, error, hinvalid, rfl, -⟩ | ⟨⟨error, rfl⟩, -⟩)
        · rw [Expected, mayReport, isMismatch_ofInvalid hinvalid, Bool.true_or]
        · rfl
  | retainPrefix sequence tokens snapshot context =>
      refine expected_ofEnds rfl (Ends.mono
        (retainPrefix_spec hlaw.toRetires hinv sequence tokens snapshot context) ?_ ?_)
      · exact fun _ _ _ => expected_silent rfl
      · intro failure cache' hfails
        cases hfails with
        | crowded _ _ hfull _ => exact ⟨rfl, hfull, rfl⟩
        | unkeyed _ _ herror _ _ => rcases herror with rfl | rfl <;> rfl
        | full _ _ _ _ _ => split_ifs <;> rfl
        | refused _ _ _ _ _ hrefused _ =>
            exact expected_ofRefused hrefused fun _ h => by simp [mayReport, h]
        | _ => rfl
  | evictPrefix entry context =>
      refine expected_ofEnds rfl (Ends.mono
        (evictPrefix_spec hlaw.toRetires hinv entry context) ?_ ?_)
      · exact fun _ _ _ => expected_silent rfl
      · rintro failure cache' (⟨rfl, -⟩ | ⟨-, hrefused, -⟩)
        · rfl
        · exact expected_ofRefused hrefused fun _ h => by simp [mayReport, h]
  | lookupPrefix tokens =>
      refine expected_ofEnds rfl (Ends.mono (lookupPrefix_spec hinv tokens) ?_ ?_)
      · exact fun _ _ _ => expected_silent rfl
      · rintro failure cache' ⟨rfl, hfull, -⟩
        exact ⟨rfl, hfull, rfl⟩
  | finish sequence context =>
      refine expected_ofEnds rfl
        (Ends.mono (finish_spec hlaw.toRetires hinv sequence context) ?_ ?_)
      · exact fun _ _ _ => expected_silent rfl
      · rintro failure cache' (⟨rfl, -⟩ | ⟨record, -, ⟨rfl, -⟩ | ⟨rfl, -⟩ | ⟨hrefused, -⟩⟩)
        · rfl
        · rfl
        · rfl
        · exact expected_ofRefused hrefused fun _ h => by simp [mayReport, h]
  | reclaimDeferred context =>
      refine expected_ofEnds rfl (Ends.mono (reclaimDeferred_spec hinv context) ?_ ?_)
      · exact fun _ _ _ => expected_silent rfl
      · rintro failure cache' ⟨⟨error, rfl⟩ | hover, -⟩
        · rfl
        · exact absurd hlaw hover.not_lawful

end Operation

namespace SequenceCache

/-- In every run, calls fail only in the ways that their callers have to expect.  A reservation
needs that no identity space was exhausted before: a page that has no holder any more still
takes up what was reserved for it. -/
theorem failures_expected (hlaw : R.Lawful) {config : CacheConfig} {start cache : SequenceCache R}
    (hnew : SequenceCache.new R config = .ok start) (hreach : Reaches start cache)
    (operation : Operation R) (hreserves : operation.reserves = true → ReachesIntact start cache) :
    operation.Expected cache (operation.result cache) := by
  by_cases hreserve : operation.reserves = true
  · obtain ⟨stray, hinv⟩ := ReachesIntact.inv (hreserves hreserve) hlaw.toRetires
      ⟨[], inv_of_new hnew⟩
    exact operation.expected hlaw hinv fun _ => rfl
  · obtain ⟨orphans, stray, hinv⟩ := Reaches.inv hreach hlaw.toRetires ⟨_, _, inv_of_new hnew⟩
    exact operation.expected hlaw hinv fun h => absurd h hreserve

end SequenceCache

/-- A reservation beyond the admitted position. -/
def Reference.excessive : Operation Reference.plain := .reserveAppend ⟨0, 0⟩ 9 7

open Reference in
/-- It is turned down as such. -/
theorem SequenceCache.failures_expected_excessive :
    callError (excessive.result (after [admission 7])) = some .invalidPosition ∧
      excessive.Expected (after [admission 7]) (excessive.result (after [admission 7])) := by
  have hreach : ReachesIntact start (after [admission 7]) := reachesIntact_after (by decide)
  exact ⟨rfl, failures_expected plain_lawful new_start hreach.reaches _ fun _ => hreach⟩

/-! ## Internal errors -/

namespace Operation

/-- The call gives something back. -/
def givesBack : Operation R → Bool
  | .finish _ _ => true
  | .evictPrefix _ _ => true
  | .commitAppend _ _ _ => true
  | .abortAppend _ _ => true
  | .commitAppendBatch _ _ _ => true
  | .abortAppendBatch _ _ => true
  | _ => false

theorem mayReport_invariant (operation : Operation R) (detail : String) :
    operation.mayReport (.invariant detail) = false := by
  cases operation <;> rfl

theorem mayReport_stalePage (operation : Operation R) : operation.mayReport .stalePage = false := by
  cases operation <;> rfl

theorem mayReport_overflow {operation : Operation R} (h : operation.givesBack = true) :
    operation.mayReport .arithmeticOverflow = false := by
  cases operation with
  | finish | evictPrefix | commitAppend | abortAppend | commitAppendBatch | abortAppendBatch => rfl
  | _ => cases h

theorem Expected.mayReport {operation : Operation R} {cache : SequenceCache R}
    {result : Except (Failure R.Error) (Reply R)} {error : CacheError R.Error}
    (h : operation.Expected cache result) (herror : callError result = some error) :
    operation.mayReport error = true := by
  match result, h, herror with
  | .ok reply, h, herror => exact h error herror
  | .error (.error _), h, rfl => exact h

end Operation

namespace SequenceCache

/-- In every run that exhausts no identity space, whatever is called with whatever arguments: no
call reports a violated invariant or a page that does not resolve, those that give something
back report no overflow, and no assertion of a release build, lookup, slice or subtraction
panics; the only sum that can overflow is that of a clock with as many entries.  A page is stale
exactly when it is not there, and validation accepts the state. -/
theorem internals_unreachable (hlaw : R.Lawful) {config : CacheConfig}
    {start cache : SequenceCache R} (hnew : SequenceCache.new R config = .ok start)
    (hreach : ReachesIntact start cache) :
    (∀ (operation : Operation R) detail,
        callError (operation.result cache) ≠ some (.invariant detail)) ∧
      (∀ operation : Operation R, callError (operation.result cache) ≠ some .stalePage) ∧
      (∀ operation : Operation R, operation.givesBack = true →
        callError (operation.result cache) ≠ some .arithmeticOverflow) ∧
      (∀ (operation : Operation R) message, operation.result cache = .error (.panic message) →
        message = "attempt to add with overflow" ∧ operation.refreshes = true ∧
          cache.prefixes.size = usizeMax) ∧
      (∀ id failure, cache.page id = .error failure ↔
        failure = .error .stalePage ∧ cache.pages.get? id = none) ∧
      (R.ImmediateHonest → cache.validate = .ok ()) := by
  obtain ⟨stray, hinv⟩ := ReachesIntact.inv hreach hlaw.toRetires ⟨[], inv_of_new hnew⟩
  have hexpected : ∀ operation : Operation R,
      operation.Expected cache (operation.result cache) := fun operation =>
    operation.expected hlaw hinv fun _ => rfl
  refine ⟨fun operation detail herror => ?_, fun operation herror => ?_,
    fun operation hgives herror => ?_, fun operation message hpanic => ?_, fun id failure => ?_,
    fun hhonest => ?_⟩
  · have hmay := (hexpected operation).mayReport herror
    rw [operation.mayReport_invariant] at hmay
    cases hmay
  · have hmay := (hexpected operation).mayReport herror
    rw [operation.mayReport_stalePage] at hmay
    cases hmay
  · have hmay := (hexpected operation).mayReport herror
    rw [Operation.mayReport_overflow hgives] at hmay
    cases hmay
  · have hfails := hexpected operation
    rw [hpanic] at hfails
    obtain ⟨hrefreshes, hfull, rfl⟩ := hfails
    exact ⟨rfl, hrefreshes, hfull⟩
  · unfold page pageRecord
    cases hpage : cache.pages.get? id with
    | none =>
        constructor
        · intro h
          cases h
          exact ⟨rfl, rfl⟩
        · rintro ⟨rfl, -⟩
          rfl
    | some record =>
        obtain ⟨storage, hstorage⟩ := Option.isSome_iff_exists.mp (storage_of_inv hinv hpage)
        constructor
        · intro h
          change okOr record.physical _ = _ at h
          rw [hstorage] at h
          cases h
        · rintro ⟨-, hnone⟩
          cases hnone
  · have hsound := ReachesIntact.sound hreach hlaw.toRetires hhonest (sound_of_new hnew)
    exact validate_eq_ok.mpr (checked_of_inv hsound.inv)

end SequenceCache

open Reference in
/-- The commit of a reservation that was never made is a mismatch, and no broken invariant. -/
theorem SequenceCache.internals_unreachable_mismatched :
    callError ((.commitAppend ⟨⟨0, 0⟩, 0, 1, [], 9⟩ 1 (7 : ℕ) : Operation plain).result
        (after [admission 7])) = some .noAppendPending ∧
      callError ((.commitAppend ⟨⟨0, 0⟩, 0, 1, [], 9⟩ 1 (7 : ℕ) : Operation plain).result
        (after [admission 7])) ≠ some (.invariant "partial commit page count moved backwards") := by
  have hreach : ReachesIntact start (after [admission 7]) := reachesIntact_after (by decide)
  exact ⟨rfl, (internals_unreachable plain_lawful new_start hreach).1 _ _⟩

end SeqCache
