import SeqCache.Run.Trail

/-!
# Conservation of physical pages

Over whole runs, whatever calls fail, every physical page that the backend ever handed out
was handed back or is the storage of a live record, with one exception: a branch that
copied its tail and whose evictions are then refused loses the copy.
-/

namespace SeqCache

open Machine Program Std

variable {R : Runtime}

namespace SequenceCache

/-- Every live page record has storage. -/
theorem storage_of_inv {cache : SequenceCache R} {stray : List TokenBlockId}
    (hinv : Inv [] stray cache) {id : PageId} {page : PageRecord R.Page}
    (hpage : cache.pages.get? id = some page) : page.physical.isSome := by
  obtain ⟨sequence, record, hrecord, hmem⟩ | ⟨key, entry, hentry, hmem⟩ :=
    (hinv.owned.page id page hpage).holder
  · obtain ⟨found, hfound, hstorage⟩ := hinv.owned.live_of_held hrecord hmem
    exact (Option.some.inj (hpage.symm.trans hfound)) ▸ hstorage
  · obtain ⟨found, hfound, hstorage, -⟩ := (hinv.owned.entry key entry hentry).held id hmem
    exact (Option.some.inj (hpage.symm.trans hfound)) ▸ hstorage

variable [DecidableEq R.Page]

/-- Pages that the branches of a run have lost. -/
def lostPages (operations : List (Operation R)) (cache : SequenceCache R) : List R.Page :=
  reported Operation.step Operation.leaks operations cache

variable {cache cache' : SequenceCache R} {lost : List R.Page}

/-- One call keeps every page accounted for. -/
theorem Accounted.step (h : Accounted cache lost) (hlaw : R.Retires) {orphans : List PageId}
    {stray : List TokenBlockId} (hinv : Inv orphans stray cache) {operation : Operation R}
    (huntorn : operation.Untorn cache) :
    Accounted (operation.step cache) (lost ++ operation.leaks cache) := by
  have hmoved : Accounted (operation.step cache) (operation.leaks cache ++ lost) :=
    (operation.trail hlaw hinv huntorn).invariant
      (fun state flight => Accounted state (flight ++ lost)) (fun hmove => hmove.accounted) h
  exact hmoved.trans ((List.perm_append_comm.append_left _).append_left _)

theorem Accounted.runAll (h : Accounted cache lost) (hlaw : R.Retires)
    (hinv : ∃ stray, Inv [] stray cache) {operations : List (Operation R)}
    (hintact : AllAllowed Operation.step
      (fun cache operation => ¬ Exhausted (operation.result cache)) operations cache) :
    Accounted (runAll Operation.step operations cache) (lost ++ lostPages operations cache) := by
  induction operations generalizing cache lost with
  | nil =>
      rw [lostPages, reported, List.append_nil]
      exact h
  | cons operation rest ih =>
      obtain ⟨stray, hinv⟩ := hinv
      obtain ⟨stray', hinv', -⟩ := operation.inv_of_intact hlaw hinv hintact.1
      have hrest := ih (h.step hlaw hinv fun _ => hintact.1) ⟨stray', hinv'⟩ hintact.2
      rwa [List.append_assoc] at hrest

omit [DecidableEq R.Page] in
theorem accounted_new {config : CacheConfig} (h : SequenceCache.new R config = .ok cache) :
    Accounted cache [] := by
  obtain ⟨-, rfl⟩ := new_eq_ok.mp h
  exact List.Perm.refl []

/-- Only a branch whose evictions are refused loses a page: the copy of the partial page of
its source. -/
theorem leaks_ne_nil (hlaw : R.Retires) {orphans : List PageId} {stray : List TokenBlockId}
    (hinv : Inv orphans stray cache) {operation : Operation R}
    (hleaks : operation.leaks cache ≠ []) :
    ∃ source request context failure, operation = .branch source request context ∧
      operation.result cache = .error failure ∧
      Abandoned cache source request context failure (operation.step cache) := by
  cases operation with
  | branch source request context =>
      refine ⟨source, request, context, ?_⟩
      have hends := branch_spec hlaw hinv source request context
      have hstep : (Operation.branch source request context).step cache =
          finalState (branch source request context cache) :=
        finalState_map _ (branch source request context) cache
      rw [hstep]
      cases hrun : branch source request context cache with
      | ok outcome cache' =>
          simp only [Operation.leaks, hrun] at hleaks
          exact absurd rfl hleaks
      | error failure cache' =>
          rw [hrun] at hends
          simp only [Operation.leaks, hrun] at hleaks
          refine ⟨failure, rfl, ?_, hends.2.resolve_left fun hcalled => ?_⟩
          · rw [Operation.result, Operation.run, map_error _ hrun]
            rfl
          · exact hleaks hcalled.1.calls.unreturned_eq_nil
  | _ => exact absurd rfl hleaks

omit [DecidableEq R.Page] in
/-- Where no page is stored twice, records with the same storage are the same record. -/
theorem eq_of_stored {pages : Pages R.Page} (h : (storedPages pages).Nodup) {id other : PageId}
    {page page' : PageRecord R.Page} {storage : R.Page} (hpage : pages.get? id = some page)
    (hpage' : pages.get? other = some page') (hstorage : page.physical = some storage)
    (hstorage' : page'.physical = some storage) : other = id := by
  classical
  by_contra hne
  have hset := Arena.total_set
    (fun record : PageRecord R.Page => if record.physical = some storage then 1 else 0)
    { page with physical := none } hpage
  have hlive : (pages.set id { page with physical := none }).get? other = some page' := by
    rw [Arena.get?_set hpage, if_neg hne, hpage']
  have hother := Arena.le_total
    (fun record : PageRecord R.Page => if record.physical = some storage then 1 else 0) hlive
  have hone := List.nodup_iff_count_le_one.mp h storage
  rw [count_storedPages, holders] at hone
  simp only [hstorage, hstorage', if_true, reduceCtorEq, if_false] at hset hother
  omega

/-- Conservation of physical pages over whole runs. -/
theorem pages_conserved (hlaw : R.Retires) {config : CacheConfig}
    (hnew : SequenceCache.new R config = .ok cache) {operations : List (Operation R)}
    (hintact : AllAllowed Operation.step
      (fun cache operation => ¬ Exhausted (operation.result cache)) operations cache)
    {final : SequenceCache R} (hfinal : runAll Operation.step operations cache = final) :
    (handedOut final.backend).Perm (handedBack final.backend ++
      (storedPages final.pages ++ lostPages operations cache)) ∧
    (∀ id page, final.pages.get? id = some page → page.physical.isSome) ∧
    (HandsOutFresh final.backend →
      (storedPages final.pages ++ lostPages operations cache).Nodup ∧
      (∀ storage, Outstanding final.backend storage ↔
        storage ∈ storedPages final.pages ++ lostPages operations cache) ∧
      ∀ id other page page', final.pages.get? id = some page →
        final.pages.get? other = some page' → page'.physical = page.physical → other = id) ∧
    ∀ state, ReachesIntact cache state → ∀ operation : Operation R, operation.leaks state ≠ [] →
      ∃ source request context failure, operation = .branch source request context ∧
        operation.result state = .error failure ∧
        Abandoned state source request context failure (operation.step state) := by
  have hinv : ∃ stray, Inv [] stray cache := ⟨[], inv_of_new hnew⟩
  have haccounted := (accounted_new hnew).runAll hlaw hinv hintact
  have hreached : ReachesIntact cache (runAll Operation.step operations cache) :=
    Reachable.start.runAll hintact
  rw [hfinal, List.nil_append] at haccounted
  rw [hfinal] at hreached
  obtain ⟨stray, hlast⟩ := hreached.inv hlaw hinv
  refine ⟨haccounted, fun id page => storage_of_inv hlast, fun hfresh => ?_, ?_⟩
  · have hnodup := hfresh.nodup_of_perm haccounted
    refine ⟨hnodup, fun storage => Ledger.outstanding_iff_mem haccounted, ?_⟩
    intro id other page page' hpage hpage' hsame
    obtain ⟨storage, hstorage⟩ := Option.isSome_iff_exists.mp (storage_of_inv hlast hpage)
    exact eq_of_stored hnodup.of_append_left hpage hpage' hstorage (hsame.trans hstorage)
  · intro state hstate operation hleaks
    obtain ⟨stray, hmiddle⟩ := hstate.inv hlaw hinv
    exact leaks_ne_nil hlaw hmiddle hleaks

end SequenceCache

namespace Reference

/-- A backend that refuses every retirement after it has copied a page. -/
@[reducible]
def reluctant : Runtime := runtime 1 none fun history => history.any fun event =>
  match event with
  | .copyPartialPage .. => true
  | _ => false

/-- An empty cache of nine bytes. -/
def cramped : SequenceCache reluctant :=
    (SequenceCache.emptyCache reluctant ⟨2, 9, 4, none, 0⟩).refresh

/-- A retained page, a sequence of three rows, and a branch that would have to evict. -/
def refusedBranch : List (Operation reluctant) :=
  [.admitSequence none ⟨2, 0, 0, false⟩ 7 fun _ _ => .ok (), .reserveAppend ⟨0, 0⟩ 2 7,
    .commitAppend ⟨⟨0, 0⟩, 0, 2, [⟨⟨0, 0⟩, 0, 0, 2⟩], 0⟩ 2 7,
    .retainPrefix ⟨0, 0⟩ [1, 1] 4 7, .finish ⟨0, 0⟩ 7,
    .admitSequence none ⟨4, 0, 0, false⟩ 8 fun _ _ => .ok (), .reserveAppend ⟨0, 1⟩ 3 8,
    .commitAppend ⟨⟨0, 1⟩, 0, 3, [⟨⟨1, 0⟩, 0, 0, 2⟩, ⟨⟨2, 0⟩, 0, 2, 1⟩], 1⟩ 3 8,
    .branch ⟨0, 1⟩ ⟨8, 0, 0, false⟩ 9]

end Reference

open Reference in
/-- The refused branch loses the page it copied, and only that. -/
theorem SequenceCache.pages_conserved_refusedBranch :
    lostPages refusedBranch cramped = [3] ∧
      (handedOut (runAll Operation.step refusedBranch cramped).backend).Perm
        (handedBack (runAll Operation.step refusedBranch cramped).backend ++
          (storedPages (runAll Operation.step refusedBranch cramped).pages ++ [3])) := by
  have hintact : AllAllowed Operation.step
      (fun cache operation => ¬ Exhausted (operation.result cache)) refusedBranch cramped := by
    decide +kernel
  have hlost : lostPages refusedBranch cramped = [3] := by decide +kernel
  have hnew : SequenceCache.new reluctant ⟨2, 9, 4, none, 0⟩ = .ok cramped := rfl
  have hlaw : reluctant.Retires := (runtime_lawful _ _ _).toRetires
  generalize hfinal : runAll Operation.step refusedBranch cramped = final
  have hconserved := pages_conserved hlaw hnew hintact hfinal
  rw [hlost] at hconserved
  exact ⟨hlost, hconserved.1⟩

/-! ## Runs that lose no page -/

namespace SequenceCache

/-- The backend takes a finalization of which some page to release is at the last generation of
its slot and is not the last one to be released. -/
def TornBy (cache : SequenceCache R) (reservation : AppendReservation) (committed : ℕ)
    (context : R.Context) : Prop :=
  ∃ record pending event before last after, Matches cache reservation record pending ∧
    committed ≤ pending.rows ∧ Accepted cache record pending context committed event ∧
    releasedPages cache.config.pageTokens record pending committed = before ++ last :: after ∧
    last.generation = u32Max ∧ after ≠ []

/-- One of the calls tears, and those before it succeed. -/
def TornAmong {ι : Type} (call : ι → CacheM R Unit) (tears : ι → SequenceCache R → Prop)
    (items : List ι) (cache : SequenceCache R) : Prop :=
  ∃ before item after values middle, items = before ++ item :: after ∧
    EachOk call cache before values middle ∧ tears item middle

section Finalize

variable [DecidableEq R.Page] {cache cache' cache'' : SequenceCache R} {lost : List R.Page}
variable {orphans : List PageId} {stray : List TokenBlockId} {committed : ℕ} {context : R.Context}
variable {reservation : AppendReservation} {whole whole' : Prop}

/-- Every page handed out was handed back, or is stored by a record, or is lost.  It may be
stored although it was handed back. -/
def Covered (cache : SequenceCache R) (lost : List R.Page) : Prop :=
  ∀ page : R.Page, (handedOut cache.backend).count page ≤
    (handedBack cache.backend).count page + (holders page cache.pages + lost.count page)

/-- From `cache` to `cache'` no page goes missing; if `whole` holds, none is handed back that
stays stored. -/
structure Balances (whole : Prop) (cache cache' : SequenceCache R) : Prop where
  le : ∀ page : R.Page, (handedOut cache'.backend).count page +
      ((handedBack cache.backend).count page + holders page cache.pages) ≤
    (handedOut cache.backend).count page +
      ((handedBack cache'.backend).count page + holders page cache'.pages)
  ge : whole → ∀ page : R.Page, (handedOut cache.backend).count page +
      ((handedBack cache'.backend).count page + holders page cache'.pages) ≤
    (handedOut cache'.backend).count page +
      ((handedBack cache.backend).count page + holders page cache.pages)

theorem Balances.refl (cache : SequenceCache R) : Balances whole cache cache where
  le := fun _ => le_rfl
  ge := fun _ _ => le_rfl

theorem Balances.trans (h : Balances whole cache cache') (h' : Balances whole cache' cache'') :
    Balances whole cache cache'' where
  le := by
    intro page
    have hfirst := h.le page
    have hsecond := h'.le page
    omega
  ge := by
    intro hwhole page
    have hfirst := h.ge hwhole page
    have hsecond := h'.ge hwhole page
    omega

theorem Balances.mono (h : Balances whole cache cache') (himp : whole' → whole) :
    Balances whole' cache cache' where
  le := h.le
  ge := fun hwhole => h.ge (himp hwhole)

theorem Balances.accounted (h : Balances whole cache cache') (hwhole : whole)
    (haccounted : Accounted cache lost) : Accounted cache' lost := by
  refine accounted_iff.mpr fun page => ?_
  have hbefore := accounted_iff.mp haccounted page
  have hle := h.le page
  have hge := h.ge hwhole page
  omega

theorem Balances.covered (h : Balances whole cache cache') (hcovered : Covered cache lost) :
    Covered cache' lost := by
  intro page
  have hbefore := hcovered page
  have hle := h.le page
  omega

theorem Accounted.covered (h : Accounted cache lost) : Covered cache lost :=
  fun page => (accounted_iff.mp h page).le

theorem Trail.balances (h : Trail orphans cache [] cache' []) : Balances whole cache cache' := by
  have hkeeps : ∀ page : R.Page, (handedOut cache'.backend).count page +
        ((handedBack cache.backend).count page + holders page cache.pages) =
      (handedOut cache.backend).count page + ((handedBack cache'.backend).count page +
        (holders page cache'.pages + [].count page)) := by
    intro page
    refine h.invariant (fun state flight => (handedOut state.backend).count page +
        ((handedBack cache.backend).count page + holders page cache.pages) =
      (handedOut cache.backend).count page + ((handedBack state.backend).count page +
        (holders page state.pages + flight.count page))) ?_ rfl
    intro state state' flight flight' hmove hstate
    have hbalance := hmove.balance page
    omega
  exact ⟨fun page => (hkeeps page).le, fun _ page => (hkeeps page).ge⟩

/-- A failing finalization balances, unless it tears. -/
theorem FinalizeFails.balances {valid : Prop} {failure : Failure R.Error}
    (h : FinalizeFails orphans stray cache reservation valid committed context failure cache')
    (hinv : Inv orphans stray cache) :
    Balances (¬ TornBy cache reservation committed context) cache cache' := by
  rcases h with ⟨-, rfl⟩ | ⟨error, -, hputBack⟩ | ⟨-, stuck, -, record, pending, event,
    before, last, after, hmatches, haccepted, htorn, -⟩
  · exact .refl _
  · exact (hputBack.unchanged.trail : Trail orphans cache [] cache' []).balances
  · refine ⟨fun page => ?_, fun hwhole page => ?_⟩
    · obtain ⟨kept, -, hout, hback⟩ := htorn.balance hinv haccepted page
      omega
    · obtain ⟨kept, hkept, hout, hback⟩ := htorn.balance hinv haccepted page
      obtain rfl : after = [] := by
        by_contra hne
        exact hwhole ⟨record, pending, event, before, last, after, hmatches, htorn.committed_le,
          haccepted, htorn.split, htorn.last_generation, hne⟩
      obtain rfl : kept = [] := List.map_eq_nil_iff.mp (Eq.symm hkept)
      rw [List.count_nil] at hback
      omega

/-- How a finalization balances: always if it succeeds, and unless it tears if it fails. -/
abbrev FinalizeBalances (orphans : List PageId) (stray : List TokenBlockId) (tears : Prop)
    (cache : SequenceCache R)
    (result : EStateM.Result (Failure R.Error) (SequenceCache R) Unit) : Prop :=
  Ends result (fun _ cache' => Balances True cache cache' ∧ Inv orphans stray cache')
    fun _ cache' => Balances (¬ tears) cache cache'

theorem commitAppend_balances (hinv : Inv orphans stray cache) :
    FinalizeBalances orphans stray (TornBy cache reservation committed context) cache
      (commitAppend reservation committed context cache) :=
  Ends.mono (commitAppend_spec hinv reservation committed context)
    (fun _ _ h => ⟨(h.2.trail hinv).balances, h.1⟩) fun _ _ h => h.balances hinv

theorem abortAppend_balances (hinv : Inv orphans stray cache) :
    FinalizeBalances orphans stray (TornBy cache reservation 0 context) cache
      (abortAppend reservation context cache) :=
  Ends.mono (abortAppend_spec hinv reservation context)
    (fun _ _ h => ⟨(h.2.trail hinv).balances, h.1⟩) fun _ _ h => h.balances hinv

/-- A loop of finalizations balances, unless one of them tears. -/
theorem Finalizes.balances {ι : Type} {call : ι → CacheM R Unit} {batch : List AppendReservation}
    {items : List ι} {tears : ι → SequenceCache R → Prop}
    {result : EStateM.Result (Failure R.Error) (SequenceCache R) (BatchResult R Unit)}
    (h : Finalizes call batch items cache result) (hinv : Inv orphans stray cache)
    (hcall : ∀ item state, Inv orphans stray state →
      FinalizeBalances orphans stray (tears item state) state (call item state)) :
    Ends result (fun _ cache' => Balances (¬ TornAmong call tears items cache) cache cache')
      fun _ cache' => Balances (¬ TornAmong call tears items cache) cache cache' := by
  have hkeeps : ∀ item state value state', Balances True cache state ∧ Inv orphans stray state →
      call item state = .ok value state' →
      Balances True cache state' ∧ Inv orphans stray state' := by
    rintro item state value state' ⟨hstate, hstill⟩ hrun
    have hends := hcall item state hstill
    rw [hrun] at hends
    exact ⟨hstate.trans hends.1, hends.2⟩
  rcases h with ⟨new, cache', heach, rfl⟩ |
    ⟨before, item, after, new, middle, failure, cache', hitems, hstopped, hresult⟩
  · exact (heach.invariant ⟨.refl cache, hinv⟩ fun item _ => hkeeps item).1.mono fun _ => trivial
  obtain ⟨hmiddle, hstill⟩ := hstopped.succeeded.invariant ⟨.refl cache, hinv⟩
    fun item _ => hkeeps item
  have hfailed := hcall item middle hstill
  rw [hstopped.failed] at hfailed
  have hends : Balances (¬ TornAmong call tears items cache) cache cache' := by
    refine (hmiddle.mono fun _ => trivial).trans (Balances.mono hfailed fun hwhole htears => ?_)
    exact hwhole ⟨before, item, after, new, middle, hitems, hstopped.succeeded, htears⟩
  rcases hresult with ⟨error, -, rfl⟩ | ⟨message, -, rfl⟩
  · exact hends
  · exact hends

theorem Dismissed.balances {batch : List AppendReservation}
    {result : EStateM.Result (Failure R.Error) (SequenceCache R) (BatchResult R Unit)}
    (h : Dismissed batch cache result) :
    Ends result (fun _ cache' => Balances whole cache cache')
      fun _ cache' => Balances whole cache cache' := by
  obtain ⟨error, index, -, rfl⟩ := h
  exact .refl _

theorem Balances.ofEnds {α : Type} {program : CacheM R α} {reply : α → Reply R}
    (h : Ends (program cache) (fun _ cache' => Balances whole cache cache')
      fun _ cache' => Balances whole cache cache') :
    Balances whole cache (finalState ((reply <$> program) cache)) := finalState_of_ends h

end Finalize

end SequenceCache

namespace Operation

open SequenceCache

variable {cache : SequenceCache R} {orphans : List PageId} {stray : List TokenBlockId}
variable {operation : Operation R}

/-- The call is a finalization that tears, or a batch that comes to one. -/
def Tears : Operation R → SequenceCache R → Prop
  | .commitAppend reservation rows context, cache => TornBy cache reservation rows context
  | .abortAppend reservation context, cache => TornBy cache reservation 0 context
  | .commitAppendBatch reservations rows contexts, cache =>
      reservations.length = rows.length ∧ reservations.length = contexts.length ∧
        (∀ item ∈ reservations.zip rows,
          (cache.validateReservation item.1).isOk = true ∧ Admissible item) ∧
        TornAmong commitItem (fun item state => TornBy state item.1.1 item.1.2 item.2)
          ((reservations.zip rows).zip contexts) cache
  | .abortAppendBatch reservations contexts, cache =>
      reservations.length = contexts.length ∧
        (∀ reservation ∈ reservations, (cache.validateReservation reservation).isOk = true) ∧
        TornAmong abortItem (fun item state => TornBy state item.1 0 item.2)
          (reservations.zip contexts) cache
  | _, _ => False

/-- The call is a branch that has copied the partial page of its source when the evictions it
planned are refused. -/
def LosesCopy : Operation R → SequenceCache R → Prop
  | .branch source request context, cache =>
      ∃ record storage history reservedPages extra limit plan start,
        Forked cache start source request context record (some storage) history reservedPages
          extra limit plan ∧
        start.RefusesPlan plan context
  | _, _ => False

/-- What a call leaks is the copy of a branch whose evictions are refused. -/
theorem leaks_eq_nil [DecidableEq R.Page] (hlaw : R.Retires) (hinv : Inv orphans stray cache)
    (h : ¬ operation.LosesCopy cache) : operation.leaks cache = [] := by
  by_contra hleaks
  obtain ⟨source, request, context, failure, rfl, hresult, habandoned⟩ :=
    leaks_ne_nil hlaw hinv hleaks
  obtain ⟨record, copied, history, reservedPages, extra, limit, plan, start, hforked, hrefused,
    hcalled⟩ := habandoned
  cases copied with
  | some storage =>
      exact h ⟨record, storage, history, reservedPages, extra, limit, plan, start, hforked, failure,
        hrefused⟩
  | none =>
      have hnone := hforked.copies.unreturned_eq hcalled
      rw [Operation.step, Operation.run, finalState_map] at hnone
      rw [Operation.leaks] at hleaks
      cases hrun : SequenceCache.branch source request context cache with
      | ok outcome cache' =>
          rw [hrun] at hleaks
          exact hleaks rfl
      | error other cache' =>
          rw [hrun] at hleaks hnone
          exact hleaks hnone

/-- A call that loses no copy balances, unless it tears. -/
theorem balances [DecidableEq R.Page] (hlaw : R.Retires) (hinv : Inv orphans stray cache)
    (hcopy : ¬ operation.LosesCopy cache) :
    Balances (¬ operation.Tears cache) cache (operation.step cache) := by
  have hsteady : operation.settles = false →
      Balances (¬ operation.Tears cache) cache (operation.step cache) := by
    intro hsettles
    have htrail := operation.trail hlaw hinv fun htrue =>
      absurd (hsettles.symm.trans htrue) Bool.false_ne_true
    rw [leaks_eq_nil hlaw hinv hcopy] at htrail
    exact htrail.balances
  cases operation with
  | commitAppend reservation rows context =>
      exact .ofEnds (Ends.mono (commitAppend_balances hinv)
        (fun _ _ h => h.1.mono fun _ => trivial) fun _ _ h => h)
  | abortAppend reservation context =>
      exact .ofEnds (Ends.mono (abortAppend_balances hinv)
        (fun _ _ h => h.1.mono fun _ => trivial) fun _ _ h => h)
  | commitAppendBatch reservations rows contexts =>
      rcases commitAppendBatch_cases reservations rows contexts cache with
        hdismissed | ⟨hrows, hcontexts, hvalid, hfinalizes⟩
      · exact .ofEnds hdismissed.balances
      · refine Balances.mono (.ofEnds (hfinalizes.balances hinv fun item state hstate =>
          commitAppend_balances hstate)) fun hwhole htorn => ?_
        exact hwhole ⟨hrows, hcontexts, hvalid, htorn⟩
  | abortAppendBatch reservations contexts =>
      rcases abortAppendBatch_cases reservations contexts cache with
        hdismissed | ⟨hcontexts, hvalid, hfinalizes⟩
      · exact .ofEnds hdismissed.balances
      · refine Balances.mono (.ofEnds (hfinalizes.balances hinv fun item state hstate =>
          abortAppend_balances hstate)) fun hwhole htorn => ?_
        exact hwhole ⟨hcontexts, hvalid, htorn⟩
  | _ => exact hsteady rfl

end Operation

namespace SequenceCache

/-- In every run whose branches lose no copy, and whose finalizations do not tear, every page
that was handed out is in one place after each call. -/
theorem pages_in_place [DecidableEq R.Page] (hlaw : R.Retires) {config : CacheConfig}
    {start cache : SequenceCache R} (hnew : SequenceCache.new R config = .ok start)
    (hreach : Reachable Operation.step (fun cache operation =>
      ¬ operation.LosesCopy cache ∧ ¬ operation.Tears cache) start cache) :
    (handedOut cache.backend).Perm (handedBack cache.backend ++ storedPages cache.pages) ∧
      (HandsOutFresh cache.backend →
        (storedPages cache.pages).Nodup ∧
        (∀ storage, Outstanding cache.backend storage ↔ storage ∈ storedPages cache.pages) ∧
        ∀ id other page page' storage, cache.pages.get? id = some page →
          cache.pages.get? other = some page' → page.physical = some storage →
          page'.physical = some storage → other = id) := by
  obtain ⟨haccounted, orphans, stray, hinv⟩ :
      Accounted cache [] ∧ ∃ orphans stray, Inv orphans stray cache := by
    induction hreach with
    | start => exact ⟨accounted_new hnew, [], [], inv_of_new hnew⟩
    | step operation _ hallowed ih =>
        obtain ⟨haccounted, orphans, stray, hinv⟩ := ih
        exact ⟨(operation.balances hlaw hinv hallowed.1).accounted hallowed.2 haccounted,
          operation.inv hlaw hinv⟩
  rw [Accounted, List.append_nil] at haccounted
  refine ⟨haccounted, fun hfresh => ?_⟩
  have hnodup : (storedPages cache.pages).Nodup := hfresh.nodup_of_perm haccounted
  refine ⟨hnodup, fun storage => Ledger.outstanding_iff_mem haccounted, ?_⟩
  exact fun id other page page' storage => eq_of_stored hnodup

end SequenceCache

open Reference in
/-- After the refused branch the page it copied is outstanding, and no record stores it. -/
theorem SequenceCache.refusedBranch_strays :
    reluctant.Lawful ∧ SequenceCache.new reluctant ⟨2, 9, 4, none, 0⟩ = .ok cramped ∧
      ReachesIntact cramped (runAll Operation.step refusedBranch cramped) ∧
      HandsOutFresh (runAll Operation.step refusedBranch cramped).backend ∧
      Outstanding (runAll Operation.step refusedBranch cramped).backend 3 ∧
      3 ∉ storedPages (runAll Operation.step refusedBranch cramped).pages :=
  ⟨runtime_lawful _ _ _, rfl, Reachable.start.runAll (by decide +kernel), by decide +kernel,
    by decide +kernel, by decide +kernel⟩

namespace Reference

/-- A reservation of one page that is aborted. -/
def withdrawn : List (Operation plain) :=
  [admission 7, .reserveAppend ⟨0, 0⟩ 2 7,
    .abortAppend ⟨⟨0, 0⟩, 0, 2, [⟨⟨0, 0⟩, 0, 0, 2⟩], 0⟩ 7]

/-- The abort releases one page, at its first generation. -/
theorem withdrawn_untorn : ¬ SequenceCache.TornBy (after (withdrawn.take 2))
    ⟨⟨0, 0⟩, 0, 2, [⟨⟨0, 0⟩, 0, 0, 2⟩], 0⟩ 0 (7 : ℕ) := by
  have hreleased : ((after (withdrawn.take 2)).sequences.get? ⟨0, 0⟩).bind (fun record =>
      record.pending.map fun pending => releasedPages 2 record pending 0) = some [⟨0, 0⟩] := by
    decide +kernel
  have htokens : (after (withdrawn.take 2)).config.pageTokens = 2 := rfl
  rintro ⟨record, pending, event, before, last, later, hmatches, -, -, hsplit, -, hne⟩
  rw [hmatches.live, Option.bind_some, hmatches.waiting, Option.map_some] at hreleased
  rw [htokens, Option.some.inj hreleased] at hsplit
  have hlength := congrArg List.length hsplit
  simp only [List.length_append, List.length_cons, List.length_nil] at hlength
  exact hne (List.length_eq_zero_iff.mp (by omega))

end Reference

set_option linter.constructorNameAsVariable false in
open Reference in
/-- The aborted reservation has handed its page back, once, and nothing is outstanding. -/
theorem SequenceCache.pages_in_place_withdrawn :
    handedOut (after withdrawn).backend = [0] ∧ (handedOut (after withdrawn).backend).Perm
      (handedBack (after withdrawn).backend ++ storedPages (after withdrawn).pages) ∧
      ¬ Outstanding (after withdrawn).backend 0 := by
  have hlaw : plain.Retires := plain_lawful.toRetires
  have hallowed : AllAllowed Operation.step (fun cache operation =>
      ¬ operation.LosesCopy cache ∧ ¬ operation.Tears cache) withdrawn start :=
    ⟨⟨id, id⟩, ⟨id, id⟩, ⟨id, withdrawn_untorn⟩, trivial⟩
  have hfresh : HandsOutFresh (after withdrawn).backend := by decide +kernel
  have hhanded : handedOut (after withdrawn).backend = [0] := by decide +kernel
  have hempty : storedPages (after withdrawn).pages = [] := by decide +kernel
  have hreach : Reachable Operation.step (fun cache operation =>
      ¬ operation.LosesCopy cache ∧ ¬ operation.Tears cache) start (after withdrawn) :=
    Reachable.start.runAll hallowed
  generalize after withdrawn = final at *
  obtain ⟨hperm, hplace⟩ := pages_in_place hlaw new_start hreach
  refine ⟨hhanded, hperm, fun hout => ?_⟩
  have hmem := ((hplace hfresh).2.1 0).mp hout
  rw [hempty] at hmem
  cases hmem

end SeqCache
