import SeqCache.Run.Reachable

/-!
# Failures of the backend

A call that the backend refuses, and an admission that would block, leave the manager as it
was.  What they may consume are identities: the nonce of an append, identities of interned
blocks, and the transaction that the backend itself has changed.
-/

namespace SeqCache

open Machine Program Std SequenceCache

variable {R : Runtime}

/-- The backend, or the callback that restores a snapshot, refused the call, or the call
would block. -/
def TurnedDown (result : Except (Failure R.Error) (Reply R)) : Prop :=
  (∃ error, result = .error (.error (.backend error))) ∨ result = .ok (.admission .wouldBlock)

namespace Operation

variable {cache : SequenceCache R} {orphans : List PageId} {stray : List TokenBlockId}
variable {operation : Operation R}

/-- As before, up to the initial reclamation of an admission. -/
def LeavesQuiet (operation : Operation R) (cache cache' : SequenceCache R) : Prop :=
  Quiet cache cache' ∨ ∃ prefixMatch request context restore reclaimed middle,
    operation = .admitSequence prefixMatch request context restore ∧
      Reclaimed cache middle context reclaimed ∧ Quiet middle cache'

/-- What a program leaves behind when it is turned down. -/
theorem leavesQuiet_ofEnds {α : Type} {program : CacheM R α} {reply : α → Reply R}
    (hrun : operation.run = reply <$> program)
    (h : Ends (program cache)
      (fun value cache' => reply value = .admission .wouldBlock →
        operation.LeavesQuiet cache cache')
      (fun failure cache' => (∃ error, failure = .error (.backend error)) →
        operation.LeavesQuiet cache cache'))
    (hturned : TurnedDown (operation.result cache)) :
    operation.LeavesQuiet cache (operation.step cache) := by
  rw [Operation.result, hrun] at hturned
  rw [Operation.step, hrun]
  cases hprogram : program cache with
  | ok value cache' =>
      rw [hprogram] at h
      rw [map_ok reply hprogram] at hturned ⊢
      obtain ⟨error, herror⟩ | hblocked := hturned
      · cases herror
      · exact h (Except.ok.inj hblocked)
  | error failure cache' =>
      rw [hprogram] at h
      rw [map_error reply hprogram] at hturned ⊢
      obtain ⟨error, herror⟩ | hblocked := hturned
      · exact h ⟨error, Except.error.inj herror⟩
      · cases hblocked

theorem quiet_ofCalled {limit : ℕ} {cache' : SequenceCache R} {flight : List R.Page}
    (h : Called limit cache cache' flight) : Quiet cache cache' := by
  rw [h.state]
  exact Quiet.ofBackend _

/-- A reply that is no admission is never turned down. -/
theorem quiet_ofFailure {α : Type} {program : CacheM R α} {reply : α → Reply R}
    {ok : α → SequenceCache R → Prop}
    (hrun : operation.run = reply <$> program)
    (hreply : ∀ value, reply value ≠ .admission .wouldBlock)
    (h : Ends (program cache) ok
      (fun failure cache' => (∃ error, failure = .error (.backend error)) → Quiet cache cache')) :
    TurnedDown (operation.result cache) → operation.LeavesQuiet cache (operation.step cache) := by
  apply leavesQuiet_ofEnds hrun
  exact Ends.mono h (fun value _ _ hvalue => absurd hvalue (hreply value))
    (fun _ _ hquiet herror => Or.inl (hquiet herror))

/-- Batches report errors in their replies. -/
theorem quiet_ofBatch {α : Type} {program : CacheM R α} {reply : α → Reply R}
    (hrun : operation.run = reply <$> program)
    (hreply : ∀ value, reply value ≠ .admission .wouldBlock)
    (h : Ends (program cache) (fun _ _ => True)
      (fun failure _ => ∃ message, failure = .panic message)) :
    TurnedDown (operation.result cache) → operation.LeavesQuiet cache (operation.step cache) := by
  apply quiet_ofFailure hrun hreply
  apply Ends.mono h fun _ _ h => h
  rintro failure cache' ⟨message, rfl⟩ ⟨error, herror⟩
  cases herror

theorem reserveAppendBatch_reports (requests : List AppendBatchRequest)
    (contexts : List R.Context) :
    Ends (SequenceCache.reserveAppendBatch requests contexts cache) (fun _ _ => True)
      (fun failure _ => ∃ message, failure = .panic message) := by
  unfold SequenceCache.reserveAppendBatch
  split_ifs
  · trivial
  · rcases reserveEach_cases (requests.zip contexts) 0 [] cache with ⟨_, _, -, hrun⟩ |
      ⟨_, _, _, _, _, _, _, -, -, ⟨_, -, hrun⟩ | ⟨message, rfl, hrun⟩⟩
    · rw [hrun]
      trivial
    · rw [hrun]
      trivial
    · rw [hrun]
      exact ⟨message, rfl⟩

theorem finalizes_reports {ι : Type} {call : ι → CacheM R Unit} {batch : List AppendReservation}
    {items : List ι}
    {result : EStateM.Result (Failure R.Error) (SequenceCache R) (BatchResult R Unit)}
    (h : Dismissed batch cache result ∨ Finalizes call batch items cache result) :
    Ends result (fun _ _ => True) (fun failure _ => ∃ message, failure = .panic message) := by
  obtain ⟨_, _, -, rfl⟩ | ⟨_, _, -, rfl⟩ |
    ⟨_, _, _, _, _, _, _, -, -, ⟨_, -, rfl⟩ | ⟨message, rfl, rfl⟩⟩ := h
  · trivial
  · trivial
  · trivial
  · exact ⟨message, rfl⟩

theorem finalizeFails_quiet {reservation : AppendReservation} {valid : Prop} {committed : ℕ}
    {context : R.Context} {error : R.Error} {cache' : SequenceCache R}
    (h : FinalizeFails orphans stray cache reservation valid committed context
      (.error (.backend error)) cache') : Quiet cache cache' := by
  obtain ⟨-, rfl⟩ | ⟨_, -, hputBack⟩ | ⟨hexhausted, -⟩ := h
  · exact .refl _
  · exact hputBack.unchanged.quiet
  · cases hexhausted

/-- A retention that the backend refuses has given the blocks of its key back. -/
theorem retainFails_quiet {sequence : SequenceId} {tokens : List Token} {snapshot : R.Snapshot}
    {context : R.Context} {failure : Failure R.Error} {error : R.Error}
    {cache' : SequenceCache R}
    (h : RetainFails stray cache sequence tokens snapshot context failure cache')
    (hfailure : failure = .error (.backend error)) : Quiet cache cache' := by
  cases h with
  | full _ _ _ _ hundone => exact hundone.unchanged.quiet
  | unkeyed _ _ _ _ hundone => exact hundone.unchanged.quiet
  | refused _ _ _ _ _ _ hundone => exact hundone.unchanged.quiet
  | _ => cases hfailure

theorem leavesQuiet (hlaw : R.Retires) (hinv : Inv orphans stray cache)
    (hturned : TurnedDown (operation.result cache)) :
    operation.LeavesQuiet cache (operation.step cache) := by
  cases operation with
  | admitSequence prefixMatch request context restore =>
      refine leavesQuiet_ofEnds rfl (Ends.mono
        (admitSequence_spec hlaw hinv prefixMatch request context restore) ?_ ?_) hturned
      · rintro outcome cache' ⟨-, reclaimed, middle, hreclaimed, -, hadmits⟩ hblocked
        refine Or.inr ⟨_, _, _, _, reclaimed, middle, rfl, hreclaimed, ?_⟩
        obtain ⟨-, rfl, -⟩ | ⟨_, _, _, _, _, _, _, _, _, _, _, _, _, rfl, -⟩ := hadmits
        · exact .refl _
        · cases hblocked
      · rintro failure cache' ⟨-, hcalled | ⟨reclaimed, middle, hreclaimed, -, hleft⟩⟩ -
        · exact Or.inl (quiet_ofCalled hcalled)
        · refine Or.inr ⟨_, _, _, _, reclaimed, middle, rfl, hreclaimed, ?_⟩
          obtain hcalled | ⟨_, _, _, _, _, _, _, _, -, -, hcalled⟩ := hleft
          · exact quiet_ofCalled hcalled
          · exact (Quiet.ofBackend _).trans (quiet_ofCalled hcalled)
  | branch source request context =>
      refine leavesQuiet_ofEnds rfl (Ends.mono (branch_spec hlaw hinv source request context)
        ?_ ?_) hturned
      · rintro outcome cache' ⟨-, ⟨-, rfl, -⟩ | ⟨_, _, _, _, _, _, _, _, _, _, _, _, _, _, rfl, -⟩⟩
          hblocked
        · exact Or.inl (.refl _)
        · cases hblocked
      · rintro failure cache' ⟨-, ⟨hcalled, -⟩ | ⟨_, _, _, _, _, _, _, start, hforked, -,
          hcalled⟩⟩ -
        · exact Or.inl (quiet_ofCalled hcalled)
        · refine Or.inl (Quiet.trans ?_ (quiet_ofCalled hcalled))
          rw [hforked.copies.state]
          exact Quiet.ofBackend _
  | reserveAppend sequence rows context =>
      refine quiet_ofFailure rfl (fun _ h => by cases h) (Ends.mono
        (reserveAppend_spec hinv sequence rows context) (fun _ _ h => h) ?_) hturned
      rintro failure cache' ⟨-, -, hattempted⟩ -
      exact hattempted.quiet
  | commitAppend reservation rows context =>
      refine quiet_ofFailure rfl (fun _ h => by cases h) (Ends.mono
        (commitAppend_spec hinv reservation rows context) (fun _ _ h => h) ?_) hturned
      rintro failure cache' hfails ⟨error, rfl⟩
      exact finalizeFails_quiet hfails
  | abortAppend reservation context =>
      refine quiet_ofFailure rfl (fun _ h => by cases h) (Ends.mono
        (abortAppend_spec hinv reservation context) (fun _ _ h => h) ?_) hturned
      rintro failure cache' hfails ⟨error, rfl⟩
      exact finalizeFails_quiet hfails
  | reserveAppendBatch requests contexts =>
      exact quiet_ofBatch rfl (fun _ h => by cases h) (reserveAppendBatch_reports requests contexts)
        hturned
  | commitAppendBatch reservations rows contexts =>
      exact quiet_ofBatch rfl (fun _ h => by cases h) (finalizes_reports
        ((commitAppendBatch_cases reservations rows contexts cache).imp_right fun h => h.2.2.2))
        hturned
  | abortAppendBatch reservations contexts =>
      exact quiet_ofBatch rfl (fun _ h => by cases h) (finalizes_reports
        ((abortAppendBatch_cases reservations contexts cache).imp_right fun h => h.2.2)) hturned
  | withAppendPages reservation lend =>
      refine quiet_ofFailure rfl (fun _ h => by cases h) (Ends.mono
        (withAppendPages_spec hinv reservation lend) (fun _ _ h => h) ?_) hturned
      rintro failure cache' (⟨_, -, -, rfl⟩ | ⟨-, hcalled, -⟩) -
      · exact .refl _
      · exact quiet_ofCalled hcalled
  | withAppendReservations reservations lend =>
      refine quiet_ofFailure rfl (fun _ h => by cases h) (Ends.mono
        (withAppendReservations_spec hinv reservations lend) (fun _ _ h => h) ?_) hturned
      rintro failure cache' (⟨_, -, _, -, -, rfl⟩ | ⟨-, hcalled, -⟩) -
      · exact .refl _
      · exact quiet_ofCalled hcalled
  | retainPrefix sequence tokens snapshot context =>
      refine quiet_ofFailure rfl (fun _ h => by cases h) (Ends.mono
        (retainPrefix_spec hlaw hinv sequence tokens snapshot context) (fun _ _ h => h) ?_) hturned
      rintro failure cache' hfails ⟨error, rfl⟩
      exact retainFails_quiet hfails rfl
  | evictPrefix entry context =>
      refine quiet_ofFailure rfl (fun _ h => by cases h) (Ends.mono
        (evictPrefix_spec hlaw hinv entry context) (fun _ _ h => h) ?_) hturned
      rintro failure cache' (⟨-, -, rfl⟩ | ⟨-, -, hcalled⟩) -
      · exact .refl _
      · exact quiet_ofCalled hcalled
  | lookupPrefix tokens =>
      refine quiet_ofFailure rfl (fun _ h => by cases h) (Ends.mono
        (lookupPrefix_spec hinv tokens) (fun _ _ h => h) ?_) hturned
      rintro failure cache' ⟨rfl, -⟩ ⟨error, herror⟩
      cases herror
  | finish sequence context =>
      refine quiet_ofFailure rfl (fun _ h => by cases h) (Ends.mono
        (finish_spec hlaw hinv sequence context) (fun _ _ h => h) ?_) hturned
      rintro failure cache' (⟨-, -, rfl⟩ | ⟨_, -, ⟨-, -, rfl⟩ | ⟨-, -, rfl⟩ | ⟨-, hcalled⟩⟩) -
      · exact .refl _
      · exact .refl _
      · exact .refl _
      · exact quiet_ofCalled hcalled
  | reclaimDeferred context =>
      refine quiet_ofFailure rfl (fun _ h => by cases h) (Ends.mono
        (reclaimDeferred_spec hinv context) (fun _ _ h => h) ?_) hturned
      rintro failure cache' ⟨-, hcalled⟩ -
      exact quiet_ofCalled hcalled

end Operation

namespace SequenceCache

/-- In every state of every run, a call that the backend refuses, or that would block, leaves
everything as it was but identities, the transaction of the backend and what an admission has
reclaimed at its start. -/
theorem backendFailure_quiet (hlaw : R.Retires) {config : CacheConfig}
    {start cache : SequenceCache R} (hnew : SequenceCache.new R config = .ok start)
    (hreach : Reaches start cache) {operation : Operation R}
    (hturned : TurnedDown (operation.result cache)) :
    Quiet cache (operation.step cache) ∨
      ∃ prefixMatch request context restore reclaimed middle,
        operation = .admitSequence prefixMatch request context restore ∧
        Reclaimed cache middle context reclaimed ∧ Quiet middle (operation.step cache) := by
  obtain ⟨orphans, stray, hinv⟩ := Reaches.inv hreach hlaw ⟨[], [], inv_of_new hnew⟩
  exact operation.leavesQuiet hlaw hinv hturned

/-- A request for more pages than there are, beside a retained page. -/
def oversized : Operation Reference.plain :=
  .admitSequence none ⟨200, 0, 0, true⟩ (9 : ℕ) fun _ _ => .ok ()

/-- The request blocks, and the retained page is still there. -/
theorem backendFailure_quiet_oversized :
    Quiet (Reference.after Reference.served) (oversized.step (Reference.after Reference.served)) ∨
      ∃ prefixMatch request context restore reclaimed middle,
        oversized = .admitSequence prefixMatch request context restore ∧
        Reclaimed (Reference.after Reference.served) middle context reclaimed ∧
        Quiet middle (oversized.step (Reference.after Reference.served)) := by
  have hreach : ReachesIntact Reference.start (Reference.after Reference.served) :=
    Reference.reachesIntact_after (by decide +kernel)
  have hrun := eq_ok_of_outcome (show outcome (@admitSequence Reference.plain none
    ⟨200, 0, 0, true⟩ (9 : ℕ) (fun _ _ => .ok ()) (Reference.after Reference.served)) =
      .ok .wouldBlock by decide +kernel)
  have hturned : TurnedDown (oversized.result (Reference.after Reference.served)) := by
    rw [oversized, Operation.result, Operation.run, map_ok _ hrun]
    exact Or.inr rfl
  exact backendFailure_quiet Reference.plain_lawful.toRetires Reference.new_start hreach.reaches
    hturned

end SequenceCache

end SeqCache
