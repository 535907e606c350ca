import SeqCache.Properties.Retention

/-!
# Errors that leave the cache alone

Every error other than that of the backend is documented to leave ownership and accounting
unchanged.  This holds whatever the backend answers to a poll.  It fails in exactly two cases:
when an answer defers more pages than were retired, which is rejected after the storage has
left the page records, and for a retention that fails late.
-/

namespace SeqCache

open Machine Program Std

variable {R : Runtime}

namespace SequenceCache

/-- Everything but the history of the backend and the identities of token blocks is as it
was. -/
structure Unharmed (cache cache' : SequenceCache R) : Prop where
  state : cache' = { cache with backend := cache'.backend, index := cache'.index }
  table : PrefixIndex.SameTable cache.index cache'.index

section Unharmed

variable {cache cache' : SequenceCache R} {orphans : List PageId} {stray : List TokenBlockId}

theorem checkPendingPages_congr (hpages : cache'.pages = cache.pages) (ids : List PageId) :
    cache'.checkPendingPages ids = cache.checkPendingPages ids := by
  induction ids with
  | nil => rfl
  | cons id rest ih =>
      unfold checkPendingPages pageRecord
      rw [hpages, ih]

theorem checkEntryPages_congr (hpages : cache'.pages = cache.pages)
    (hconfig : cache'.config = cache.config) (ids : List PageId) :
    cache'.checkEntryPages ids = cache.checkEntryPages ids := by
  induction ids with
  | nil => rfl
  | cons id rest ih =>
      unfold checkEntryPages pageRecord
      rw [hpages, hconfig, ih]

/-- What is left of the cache passes the same checks. -/
theorem Unharmed.validate_eq (h : Unharmed cache cache') :
    cache'.validate = (cache.validate : CacheResult R Unit) := by
  obtain ⟨hstate, htable⟩ := h
  generalize cache'.backend = history at hstate
  generalize cache'.index = index at hstate htable
  subst hstate
  have hsequence : checkSequence { cache with backend := history, index := index } =
      cache.checkSequence := by
    funext record
    unfold checkSequence
    simp only [@checkPendingPages_congr R cache
      { cache with backend := history, index := index } rfl]
    rfl
  have hentry : checkEntry { cache with backend := history, index := index } =
      cache.checkEntry := by
    funext entry
    unfold checkEntry
    simp only [@checkEntryPages_congr R cache { cache with backend := history, index := index } rfl
      rfl]
  have hstats : computeStats { cache with backend := history, index := index } =
      (cache.computeStats : CacheResult R CacheStats) := by
    unfold computeStats PrefixIndex.blockCount
    simp only [htable.blocks]
    rfl
  unfold validate
  rw [hsequence, hentry, hstats]
  rfl

theorem Undone.unharmed (h : Undone cache cache') : Unharmed cache cache' :=
  ⟨h.state, h.table⟩

theorem Unharmed.ofState (hinv : Inv orphans stray cache)
    (hstate : cache' = { cache with backend := cache'.backend }) : Unharmed cache cache' := by
  have hindex : cache'.index = cache.index := by
    rw [hstate]
  refine ⟨?_, ?_⟩
  · rw [hindex]
    exact hstate
  · rw [hindex]
    exact ⟨rfl, rfl, rfl, le_rfl, hinv.filed.table.bounded⟩

theorem Unharmed.refl (hinv : Inv orphans stray cache) : Unharmed cache cache :=
  .ofState hinv rfl

theorem Called.unharmed {limit : ℕ} {flight : List R.Page} (h : Called limit cache cache' flight)
    (hinv : Inv orphans stray cache) : Unharmed cache cache' :=
  .ofState hinv h.state

/-- An over-reported retirement does harm: the storage is gone from a record. -/
theorem Breached.harms {failure : Failure R.Error} (h : Breached cache failure cache')
    (hother : ∀ answer, failure ≠ .error (.backend answer)) : ¬ Unharmed cache cache' := by
  intro hunharmed
  obtain ⟨-, -, -, answer, -, -, -, -, hfailure⟩ := h
  cases answer with
  | error refusal => exact hother _ hfailure
  | ok outcome =>
      obtain ⟨-, id, page, hpage, hphysical, hstripped⟩ := hfailure
      rw [hunharmed.state] at hstripped
      have hsame : page = { page with physical := none } :=
        Option.some.inj (hpage.symm.trans hstripped)
      rw [hsame] at hphysical
      cases hphysical

/-! ## Failures of the single calls -/

theorem FinishFails.unharmed {sequence : SequenceId} {context : R.Context}
    {failure : Failure R.Error} (h : FinishFails cache sequence context failure cache')
    (hinv : Inv orphans stray cache) : Unharmed cache cache' := by
  rcases h with ⟨-, -, rfl⟩ | ⟨record, -, ⟨-, -, rfl⟩ | ⟨-, -, rfl⟩ | ⟨-, hcalled⟩⟩
  · exact .refl hinv
  · exact .refl hinv
  · exact .refl hinv
  · exact hcalled.unharmed hinv

theorem EvictFails.unharmed {entry : PrefixEntryId} {context : R.Context}
    {failure : Failure R.Error} (h : EvictFails cache entry context failure cache')
    (hinv : Inv orphans stray cache) : Unharmed cache cache' := by
  rcases h with ⟨-, -, rfl⟩ | ⟨-, -, hcalled⟩
  · exact .refl hinv
  · exact hcalled.unharmed hinv

/-- Evictions of a branch that are refused leave a copied page behind, but no trace in the
cache. -/
theorem Abandoned.unharmed {source : SequenceId} {request : AdmissionRequest}
    {context : R.Context} {failure : Failure R.Error}
    (h : Abandoned cache source request context failure cache') (hinv : Inv orphans stray cache) :
    Unharmed cache cache' := by
  obtain ⟨record, copied, history, reservedPages, extra, limit, plan, start, hforked, -,
    hcalled⟩ := h
  apply Unharmed.ofState hinv
  rw [hcalled.state, hforked.copies.state]

theorem BranchFails.unharmed {source : SequenceId} {request : AdmissionRequest}
    {context : R.Context} {failure : Failure R.Error}
    (h : BranchFails cache source request context failure cache') (hinv : Inv orphans stray cache) :
    Unharmed cache cache' := by
  obtain ⟨-, ⟨hcalled, -⟩ | habandoned⟩ := h
  · exact hcalled.unharmed hinv
  · exact habandoned.unharmed hinv

end Unharmed

end SequenceCache

/-! ## Answers along a run -/

section Overstated

variable {history history' : R.History}

theorem RetiredHonestly.not_overstated (h : RetiredHonestly history) : ¬ Overstated history := by
  rintro ⟨context, pages, outcome, hmem, hover⟩
  exact Nat.not_le_of_lt hover (h context pages (.ok outcome) hmem)

/-- Only an overstated retirement makes a history overstated. -/
theorem not_overstated_cons {event : R.Event} (h : ¬ Overstated history)
    (hevent : ∀ context pages outcome, event = .retirePages context pages (.ok outcome) →
      outcome.deferredPages ≤ pages.length) : ¬ Overstated (event :: history) := by
  rintro ⟨context, pages, outcome, hmem, hover⟩
  rcases List.mem_cons.mp hmem with heq | hmem
  · exact Nat.not_le_of_lt hover (hevent context pages outcome heq.symm)
  · exact h ⟨context, pages, outcome, hmem, hover⟩

theorem not_overstated_cons_other {event : R.Event} (h : ¬ Overstated history)
    (hevent : event.isRetirement = false) : ¬ Overstated (event :: history) := by
  apply not_overstated_cons h
  rintro context pages outcome rfl
  cases hevent

theorem Calls.not_overstated {limit : ℕ} {flight flight' : List R.Page}
    (h : Calls limit history flight history' flight') (hbefore : ¬ Overstated history) :
    ¬ Overstated history' := by
  induction h with
  | refl => exact hbefore
  | acquire event _ hevent _ ih =>
      refine not_overstated_cons ih ?_
      rintro context pages outcome rfl
      cases hevent
  | rollback _ _ _ _ ih => exact not_overstated_cons_other ih rfl
  | neutral event _ hevent ih =>
      refine not_overstated_cons ih ?_
      rintro context pages outcome rfl
      cases hevent
  | overreported _ _ _ _ ih => exact not_overstated_cons_other ih rfl

theorem Retirement.not_overstated {context : R.Context} {physical : List R.Page} {deferred : ℕ}
    (h : Retirement context physical deferred history history')
    (hdeferred : deferred ≤ physical.length) (hbefore : ¬ Overstated history) :
    ¬ Overstated history' := by
  rcases h with ⟨-, -, rfl⟩ | ⟨outcome, -, rfl, rfl⟩
  · exact hbefore
  · refine not_overstated_cons hbefore ?_
    rintro _ _ _ heq
    cases heq
    exact hdeferred

end Overstated

namespace SequenceCache

section Changes

variable {cache cache' : SequenceCache R} {orphans : List PageId} {stray : List TokenBlockId}
variable {strays : Prop} {uses : SequenceId → R.Context → Prop} {opens : R.Context → Prop}

theorem Accepted.isRetirement {record : SequenceRecord R.AppendTransaction}
    {pending : PendingAppend R.AppendTransaction} {context : R.Context} {committed : ℕ}
    {event : R.Event} (h : Accepted cache record pending context committed event) :
    event.isRetirement = false := by
  cases h with
  | commit => rfl
  | abort => rfl

theorem Change.not_overstated (h : Change orphans uses opens cache cache')
    (hbefore : ¬ Overstated cache.backend) : ¬ Overstated cache'.backend := by
  cases h with
  | quiet _ hcalls => exact hcalls.not_overstated hbefore
  | interned hinterns =>
      rw [hinterns.state]
      exact hbefore
  | published _ => exact not_overstated_cons_other hbefore rfl
  | evicted _ hevicted =>
      exact hevicted.retirement.not_overstated
        (hevicted.stored.length_eq ▸ hevicted.deferred_le) hbefore
  | reclaimed _ hreclaimed =>
      rw [hreclaimed.state]
      exact not_overstated_cons_other hbefore rfl
  | admitted _ hadmitted _ _ _ =>
      rw [hadmitted.state]
      exact hbefore
  | reserved _ _ hreserved =>
      have hprepared := hreserved.calls.not_overstated hbefore
      rcases hreserved.extended with ⟨-, hbackend⟩ | ⟨table, -, -, hbackend⟩
      · rw [hbackend]
        exact hprepared
      · rw [hbackend]
        exact not_overstated_cons_other hprepared rfl
  | settled _ _ haccepted hsettled =>
      rw [hsettled.state]
      exact not_overstated_cons_other hbefore haccepted.isRetirement
  | finished _ hfinished =>
      exact hfinished.retirement.not_overstated
        (hfinished.stored.length_eq ▸ hfinished.deferred_le) hbefore

theorem Progress.not_overstated (h : Progress orphans uses opens cache cache')
    (hbefore : ¬ Overstated cache.backend) : ¬ Overstated cache'.backend := by
  induction h with
  | refl => exact hbefore
  | tail _ hchange ih => exact hchange.not_overstated ih

/-- A call that evolves the state received no overstated answer. -/
theorem Evolves.not_overstated {result : Except (Failure R.Error) (Reply R)}
    (h : Evolves orphans stray strays uses opens cache result cache')
    (hbefore : ¬ Overstated cache.backend) : ¬ Overstated cache'.backend := by
  cases h with
  | progressed hprogress => exact hprogress.not_overstated hbefore
  | touched htouched =>
      rw [htouched.state]
      exact hbefore
  | retained hprogress hretained =>
      rw [hretained.state]
      exact hprogress.not_overstated hbefore
  | torn hprogress _ _ hinterrupted =>
      obtain ⟨_, _, _, _, _, _, -, haccepted, htorn, -⟩ := hinterrupted
      rw [htorn.state]
      exact not_overstated_cons_other (hprogress.not_overstated hbefore) haccepted.isRetirement

end Changes

/-- States reached by calls whose retirements were answered within the contract. -/
abbrev ReachesHonestly (start : SequenceCache R) : SequenceCache R → Prop :=
  Reachable Operation.step
    (fun cache operation => RetiredHonestly (operation.step cache).backend) start

end SequenceCache

/-! ## All of them -/

open SequenceCache

section Honest

variable {start cache : SequenceCache R}

/-- An answer that breaks the contract stays in the history. -/
theorem Operation.Breaks.not_honest {operation : Operation R} (h : operation.Breaks cache) :
    ¬ RetiredHonestly (operation.step cache).backend := by
  obtain ⟨failure, -, events, context, physical, answer, hbackend, -, -, hbroken, -⟩ := h
  intro hhonest
  apply hbroken (hhonest context physical answer _)
  rw [hbackend]
  exact List.mem_cons_self

/-- Nothing but the answers a run received is needed for the invariant along it. -/
theorem SequenceCache.ReachesHonestly.inv (h : ReachesHonestly start cache)
    (hstart : RetiredHonestly start.backend) (hinv : ∃ orphans stray, Inv orphans stray start) :
    RetiredHonestly cache.backend ∧ ∃ orphans stray, Inv orphans stray cache := by
  induction h with
  | start => exact ⟨hstart, hinv⟩
  | step operation _ hhonest ih =>
      obtain ⟨-, orphans, stray, hbefore⟩ := ih
      refine ⟨hhonest, ?_⟩
      rcases operation.evolves_or_breaks hbefore with hevolves | hbreaks
      · exact hevolves.inv
      · exact absurd hhonest hbreaks.not_honest

end Honest

/-- The calls that may hand pages to the backend, or take deferred ones back, without
touching a pending append. -/
def Operation.retires : Operation R → Bool
  | .finish _ _ => true
  | .evictPrefix _ _ => true
  | .retainPrefix _ _ _ _ => true
  | .branch _ _ _ => true
  | .reclaimDeferred _ => true
  | _ => false

/-- The backend tells this call that it defers more pages than it is handed. -/
def Operation.Misreports (operation : Operation R) (cache : SequenceCache R) : Prop :=
  ∃ events, (operation.step cache).backend = events ++ cache.backend ∧ Overstated events

/-- The call is a retention that fails late. -/
def Operation.FailsLate : Operation R → SequenceCache R → Prop
  | .retainPrefix sequence tokens snapshot _, cache => ∃ record,
      Retainable cache sequence tokens record ∧ SequenceCache.FailsLate cache tokens snapshot record
  | _, _ => False

/-- An error that is not the backend's leaves the cache unharmed. -/
def Operation.LeavesUnharmed (operation : Operation R) (cache : SequenceCache R) : Prop :=
  ∀ error, operation.result cache = .error (.error error) →
    (∀ answer, error ≠ .backend answer) → Unharmed cache (operation.step cache)

namespace Operation

variable {orphans : List PageId} {stray : List TokenBlockId} {cache : SequenceCache R}
variable {operation : Operation R}

/-- A breach that is not reported as an error of the backend is an overstated answer. -/
theorem misreports_of_breached {failure : Failure R.Error}
    (h : Breached cache failure (operation.step cache))
    (hother : ∀ answer, failure ≠ .error (.backend answer)) : operation.Misreports cache := by
  obtain ⟨events, context, physical, answer, hbackend, -, -, hbroken, hfailure⟩ := h
  cases answer with
  | error refusal => exact absurd hfailure (hother _)
  | ok outcome =>
      refine ⟨.retirePages context physical (.ok outcome) :: events, hbackend, context, physical,
        outcome, List.mem_cons_self, ?_⟩
      exact Nat.lt_of_not_le hbroken

/-- An overstated answer ends the call at a breach that is not an error of the backend. -/
theorem Misreports.breached (h : operation.Misreports cache) (hinv : Inv orphans stray cache)
    (hhonest : RetiredHonestly cache.backend) :
    ∃ failure, operation.result cache = .error failure ∧
      Breached cache failure (operation.step cache) ∧
      ∀ answer, failure ≠ .error (.backend answer) := by
  obtain ⟨events, hbackend, context, pages, outcome, hmem, hover⟩ := h
  rcases operation.evolves_or_breaks hinv with hevolves | ⟨failure, hresult, hbreached⟩
  · refine absurd ⟨context, pages, outcome, ?_, hover⟩
      (hevolves.not_overstated hhonest.not_overstated)
    rw [hbackend]
    exact List.mem_append_left _ hmem
  · refine ⟨failure, hresult, hbreached, ?_⟩
    obtain ⟨earlier, _, _, answer, hbackend', hearlier, -, -, hfailure⟩ := hbreached
    rw [hbackend, ← List.cons_append] at hbackend'
    -- The answer is the only one to a retirement that the call received.
    obtain rfl := List.append_cancel_right hbackend'
    rcases List.mem_cons.mp hmem with heq | hmem
    · cases heq
      rintro _ rfl
      cases hfailure.1
    · cases hearlier _ hmem

/-- What is left of a failed program is left of the call that runs it. -/
theorem LeavesUnharmed.ofEnds {α : Type} {program : CacheM R α} {reply : α → Reply R}
    {ok : α → SequenceCache R → Prop} (hrun : operation.run = reply <$> program)
    (hright : ¬ operation.Misreports cache)
    (h : Ends (program cache) ok fun failure cache' =>
      (∀ error, failure = .error error → Unharmed cache cache') ∨
        Breached cache failure cache') :
    operation.LeavesUnharmed cache := by
  intro error hresult hother
  cases hprogram : program cache with
  | ok value cache' =>
      rw [Operation.result, hrun, map_ok reply hprogram] at hresult
      cases hresult
  | error failure cache' =>
      have hstep : operation.step cache = cache' := by
        rw [Operation.step, hrun, map_error reply hprogram]
        rfl
      rw [Operation.result, hrun, map_error reply hprogram] at hresult
      obtain rfl : failure = .error error := Except.error.inj hresult
      rw [hprogram] at h
      rcases h with hunharmed | hbreached
      · rw [hstep]
        exact hunharmed error rfl
      · rw [← hstep] at hbreached
        exact absurd (misreports_of_breached hbreached fun answer heq =>
          hother answer (Failure.error.inj heq)) hright

theorem leavesUnharmed (hinv : Inv orphans stray cache) (hretires : operation.retires = true)
    (hright : ¬ operation.Misreports cache) (hearly : ¬ operation.FailsLate cache) :
    operation.LeavesUnharmed cache := by
  cases operation with
  | finish sequence context =>
      exact .ofEnds rfl hright (Ends.mono (finish_ends hinv sequence context) (fun _ _ h => h)
        fun _ _ => Or.imp_left fun h _ _ => h.unharmed hinv)
  | evictPrefix entry context =>
      exact .ofEnds rfl hright (Ends.mono (evictPrefix_ends hinv entry context) (fun _ _ h => h)
        fun _ _ => Or.imp_left fun h _ _ => h.unharmed hinv)
  | branch source request context =>
      exact .ofEnds rfl hright (Ends.mono (branch_ends hinv source request context)
        (fun _ _ h => h) fun _ _ => Or.imp_left fun h _ _ => h.unharmed hinv)
  | reclaimDeferred context =>
      exact .ofEnds rfl hright (Ends.mono (reclaimDeferred_spec hinv context) (fun _ _ h => h)
        fun _ _ h => Or.inl fun _ _ => h.2.unharmed hinv)
  | retainPrefix sequence tokens snapshot context =>
      refine .ofEnds rfl hright (Ends.mono
        (retainPrefix_ends hinv sequence tokens snapshot context) (fun _ _ h => h)
        fun failure cache' => Or.imp ?_ Forsaken.breached)
      rintro hfails error rfl
      exact (hfails.undone hinv fun record hretainable hlate =>
        hearly ⟨record, hretainable, hlate⟩).unharmed
  | _ => cases hretires

/-- A retention that fails late does harm. -/
theorem FailsLate.not_leavesUnharmed (hinv : Inv orphans stray cache)
    (h : operation.FailsLate cache) : ¬ operation.LeavesUnharmed cache := by
  cases operation with
  | retainPrefix sequence tokens snapshot context =>
      obtain ⟨record, hretainable, hlate⟩ := h
      intro hleaves
      have hends := retainPrefix_ends hinv sequence tokens snapshot context
      cases hrun : SequenceCache.retainPrefix sequence tokens snapshot context cache with
      | ok outcome cache' =>
          rw [hrun] at hends
          exact hlate.not_retains hretainable hends.2
      | error failure cache' =>
          rw [hrun] at hends
          rcases hends with hfails | hforsaken
          case inr => exact hlate.not_forsaken hforsaken
          obtain ⟨⟨error, rfl, hother⟩, blocks, hne, hinterns⟩ := hfails.littered hretainable hlate
          have hunharmed := hleaves error (by
            rw [Operation.result, Operation.run, map_error _ hrun]
            rfl) hother
          rw [Operation.step, Operation.run, map_error _ hrun] at hunharmed
          refine hinterns.not_undone hinv hne ⟨hunharmed.state, hunharmed.table, ?_⟩
          rw [hinterns.state]
          exact .refl
  | _ => exact h.elim

/-- A call that is told of too many deferred pages does harm. -/
theorem Misreports.not_leavesUnharmed (hinv : Inv orphans stray cache)
    (hhonest : RetiredHonestly cache.backend) (h : operation.Misreports cache) :
    ¬ operation.LeavesUnharmed cache := by
  intro hleaves
  obtain ⟨failure, hresult, hbreached, hother⟩ := h.breached hinv hhonest
  obtain ⟨error, rfl⟩ := hbreached.error
  refine hbreached.harms hother (hleaves error hresult ?_)
  rintro answer rfl
  exact hother answer rfl

end Operation

namespace SequenceCache

/-- In every run whose retirements were answered within their contract, an error that is not
the backend's leaves the cache unharmed, and as valid as it was, exactly when the call itself
is not told of more deferred pages than it hands over and is not a retention that fails late. -/
theorem rejections_harmless {config : CacheConfig} {start cache : SequenceCache R}
    (hnew : SequenceCache.new R config = .ok start) (hreach : ReachesHonestly start cache)
    {operation : Operation R} (hretires : operation.retires = true) :
    (∀ error, operation.result cache = .error (.error error) →
        (∀ answer, error ≠ .backend answer) →
        Unharmed cache (operation.step cache) ∧
          (operation.step cache).validate = (cache.validate : CacheResult R Unit)) ↔
      ¬ operation.Misreports cache ∧ ¬ operation.FailsLate cache := by
  have hempty : RetiredHonestly start.backend := by
    obtain ⟨-, rfl⟩ := new_eq_ok.mp hnew
    intro _ _ _ hmem
    cases hmem
  obtain ⟨hhonest, orphans, stray, hinv⟩ :=
    ReachesHonestly.inv hreach hempty ⟨[], [], inv_of_new hnew⟩
  constructor
  · intro hharmless
    have hleaves : operation.LeavesUnharmed cache := fun error hresult hother =>
      (hharmless error hresult hother).1
    exact ⟨fun hmisreports => hmisreports.not_leavesUnharmed hinv hhonest hleaves,
      fun hlate => hlate.not_leavesUnharmed hinv hleaves⟩
  · rintro ⟨hright, hearly⟩ error hresult hother
    have hunharmed := Operation.leavesUnharmed hinv hretires hright hearly error hresult hother
    exact ⟨hunharmed, hunharmed.validate_eq⟩

end SequenceCache

/-! ## A backend that reclaims more than was deferred -/

namespace Reference

/-- The reference backend, except that it reports a reclaimed page at every poll. -/
@[reducible]
def eager : Runtime := { plain with pollReclaimed := fun _ _ => .ok 1 }

def eagerStart : SequenceCache eager := (emptyCache eager config).refresh

def eagerPoll : Operation eager := .reclaimDeferred (7 : ℕ)

end Reference

namespace SequenceCache

/-- The poll is rejected and leaves the cache unharmed. -/
theorem rejections_harmless_poll :
    Reference.eagerPoll.result Reference.eagerStart =
        .error (.error (.invariant "backend reclaimed more pages than were deferred")) ∧
      Unharmed Reference.eagerStart (Reference.eagerPoll.step Reference.eagerStart) ∧
      (Reference.eagerPoll.step Reference.eagerStart).validate =
        (Reference.eagerStart.validate : CacheResult Reference.eager Unit) := by
  have hrun := eq_error_of_outcome (show outcome (@reclaimDeferred Reference.eager (7 : ℕ)
    Reference.eagerStart) = .error (.error (.invariant
      "backend reclaimed more pages than were deferred")) by decide +kernel)
  have hresult : Reference.eagerPoll.result Reference.eagerStart =
      .error (.error (.invariant "backend reclaimed more pages than were deferred")) := by
    rw [Reference.eagerPoll, Operation.result, Operation.run, map_error _ hrun]
    rfl
  have hnew : SequenceCache.new Reference.eager Reference.config = .ok Reference.eagerStart := rfl
  have hreach : ReachesHonestly Reference.eagerStart Reference.eagerStart := .start
  have hbackend : (Reference.eagerPoll.step Reference.eagerStart).backend =
      [.pollReclaimed 7 (.ok 1)] := by
    rw [Reference.eagerPoll, Operation.step, Operation.run, map_error _ hrun]
    rfl
  have hright : ¬ Reference.eagerPoll.Misreports Reference.eagerStart := by
    rintro ⟨events, hevents, context, pages, outcome, hmem, -⟩
    have hin : .retirePages context pages (.ok outcome) ∈ events ++ Reference.eagerStart.backend :=
      List.mem_append_left _ hmem
    rw [← hevents, hbackend] at hin
    cases List.mem_singleton.mp hin
  have hearly : ¬ Reference.eagerPoll.FailsLate Reference.eagerStart := id
  exact ⟨hresult, (rejections_harmless hnew hreach rfl).mpr ⟨hright, hearly⟩ _ hresult
    fun answer hanswer => by cases hanswer⟩

end SequenceCache

/-! ## A backend that defers more than it was given -/

namespace Reference

/-- The reference backend, except that it reports one more deferred page than it received. -/
@[reducible]
def lavish : Runtime :=
  { plain with retirePages := fun _ _ pages => .ok ⟨pages.length + 1⟩ }

def lavishStart : SequenceCache lavish := (emptyCache lavish config).refresh

/-- A sequence of two rows. -/
def lavishCalls : List (Operation lavish) :=
  [.admitSequence none ⟨8, 0, 0, false⟩ (7 : ℕ) fun _ _ => .ok (),
    .reserveAppend ⟨0, 0⟩ 2 (7 : ℕ),
    .commitAppend ⟨⟨0, 0⟩, 0, 2, [⟨⟨0, 0⟩, 0, 0, 2⟩], 0⟩ 2 (7 : ℕ)]

/-- The sequence of two rows is open. -/
def lavishServed : SequenceCache lavish := runAll Operation.step lavishCalls lavishStart

def lavishFinish : Operation lavish := .finish ⟨0, 0⟩ (7 : ℕ)

end Reference

namespace SequenceCache

theorem lavishFinish_error {cache : SequenceCache Reference.lavish} {failure : Failure Unit}
    (h : outcome (@finish Reference.lavish ⟨0, 0⟩ (7 : ℕ) cache) = .error failure) :
    Reference.lavishFinish.result cache = .error failure := by
  rw [Reference.lavishFinish, Operation.result, Operation.run, map_error _ (eq_error_of_outcome h)]
  rfl

/-- The completion is rejected, and yet the page of the sequence has lost its storage: the
completion can never be repeated. -/
theorem finish_strips :
    SequenceCache.new Reference.lavish Reference.config = .ok Reference.lavishStart ∧
      ReachesIntact Reference.lavishStart Reference.lavishServed ∧
      Reference.lavishFinish.result Reference.lavishServed =
        .error (.error (.invariant "backend deferred more pages than were retired")) ∧
      Reference.lavishFinish.result (Reference.lavishFinish.step Reference.lavishServed) =
        .error (.error .stalePage) ∧
      ¬ Reference.lavishFinish.LeavesUnharmed Reference.lavishServed := by
  have hresult := lavishFinish_error (show outcome (@finish Reference.lavish ⟨0, 0⟩ (7 : ℕ)
    Reference.lavishServed) = .error (.error (.invariant
      "backend deferred more pages than were retired")) by decide +kernel)
  have hagain := lavishFinish_error (show outcome (@finish Reference.lavish ⟨0, 0⟩ (7 : ℕ)
    (Reference.lavishFinish.step Reference.lavishServed)) = .error (.error .stalePage) by
      decide +kernel)
  have hpages : (Reference.lavishFinish.step Reference.lavishServed).pages.get? ⟨0, 0⟩ ≠
      Reference.lavishServed.pages.get? ⟨0, 0⟩ := by decide +kernel
  have hreach : ReachesIntact Reference.lavishStart Reference.lavishServed :=
    Reachable.start.runAll (by decide +kernel)
  refine ⟨rfl, hreach, hresult, hagain, fun hleaves => hpages ?_⟩
  rw [(hleaves _ hresult fun answer hanswer => by cases hanswer).state]

end SequenceCache

end SeqCache
