import SeqCache.Properties.Errors
import SeqCache.Properties.Starvation

/-!
# What idle caches grant

In a cache without live sequences and deferred pages, only retained entries are in the way of
a request that a new cache grants.  Where retirement is immediate they give way.  Otherwise
planning credits none of their pages, and the request is granted only if it fits beside them.
-/

namespace SeqCache

open Machine Program Std

variable {R : Runtime}

namespace SequenceCache

/-! ## The geometry of a run -/

/-- The two caches have the same limits and pages of the same size. -/
structure SameGeometry (cache cache' : SequenceCache R) : Prop where
  config : cache'.config = cache.config
  pageBytes : cache'.pageBytes = cache.pageBytes
  pageCapacity : cache'.pageCapacity = cache.pageCapacity

section Geometry

variable {cache cache' cache'' start : SequenceCache R} {operation : Operation R}
variable {orphans : List PageId} {stray : List TokenBlockId}
variable {uses : SequenceId → R.Context → Prop} {opens : R.Context → Prop}

theorem SameGeometry.refl (cache : SequenceCache R) : SameGeometry cache cache := ⟨rfl, rfl, rfl⟩

theorem SameGeometry.trans (h : SameGeometry cache cache') (h' : SameGeometry cache' cache'') :
    SameGeometry cache cache'' :=
  ⟨h'.config.trans h.config, h'.pageBytes.trans h.pageBytes,
    h'.pageCapacity.trans h.pageCapacity⟩

theorem Reclaimed.sameGeometry {context : R.Context} {reclaimed : ℕ}
    (h : Reclaimed cache cache' context reclaimed) : SameGeometry cache cache' := by
  rw [h.state]
  exact ⟨rfl, rfl, rfl⟩

theorem Change.sameGeometry (h : Change orphans uses opens cache cache') :
    SameGeometry cache cache' := by
  cases h with
  | quiet hquiet _ => exact ⟨hquiet.config, hquiet.pageBytes, hquiet.pageCapacity⟩
  | interned hinterns =>
      rw [hinterns.state]
      exact ⟨rfl, rfl, rfl⟩
  | published _ => exact ⟨rfl, rfl, rfl⟩
  | evicted _ hevicted => exact ⟨hevicted.config, hevicted.pageBytes, hevicted.pageCapacity⟩
  | reclaimed _ hreclaimed => exact hreclaimed.sameGeometry
  | admitted _ hadmitted _ _ _ =>
      rw [hadmitted.state]
      exact ⟨rfl, rfl, rfl⟩
  | reserved _ _ hreserved =>
      rw [hreserved.state]
      exact ⟨rfl, rfl, rfl⟩
  | settled _ _ _ hsettled =>
      rw [hsettled.state]
      exact ⟨rfl, rfl, rfl⟩
  | finished _ hfinished =>
      rw [hfinished.state]
      exact ⟨rfl, rfl, rfl⟩

theorem Progress.sameGeometry (h : Progress orphans uses opens cache cache') :
    SameGeometry cache cache' := by
  induction h with
  | refl => exact .refl cache
  | tail _ hchange ih => exact ih.trans hchange.sameGeometry

/-- No call changes the limits or the size of pages. -/
theorem step_sameGeometry (hlaw : R.Retires) (hinv : Inv orphans stray cache)
    (operation : Operation R) : SameGeometry cache (operation.step cache) := by
  cases operation.evolves hlaw hinv with
  | progressed hprogress => exact hprogress.sameGeometry
  | touched htouched =>
      rw [htouched.state]
      exact ⟨rfl, rfl, rfl⟩
  | retained hprogress hretained =>
      refine hprogress.sameGeometry.trans ?_
      rw [hretained.state]
      exact ⟨rfl, rfl, rfl⟩
  | torn hprogress _ _ hinterrupted =>
      obtain ⟨_, _, _, _, _, _, -, -, htorn, -⟩ := hinterrupted
      refine hprogress.sameGeometry.trans ?_
      rw [htorn.state]
      exact ⟨rfl, rfl, rfl⟩

theorem ReachesIntact.sameGeometry (hreach : ReachesIntact start cache) (hlaw : R.Retires)
    (hinv : ∃ stray, Inv [] stray start) : SameGeometry start cache := by
  induction hreach with
  | start => exact .refl start
  | step operation hreach _ ih =>
      obtain ⟨stray, hmiddle⟩ := ReachesIntact.inv hreach hlaw hinv
      exact ih.trans (step_sameGeometry hlaw hmiddle operation)

end Geometry

/-! ## Requests that a new cache grants -/

/-- The request has room beside the given number of pages. -/
def FitsBeside (cache : SequenceCache R) (pages : ℕ) (request : AdmissionRequest) : Prop :=
  (pages + request.maxPosition ⌈/⌉ cache.config.pageTokens) * cache.pageBytes +
        request.privateStateBytes + request.pageTableBytes ≤ cache.byteLimit request ∧
    pages + request.maxPosition ⌈/⌉ cache.config.pageTokens ≤ cache.pageCapacity

instance (cache : SequenceCache R) (pages : ℕ) (request : AdmissionRequest) :
    Decidable (cache.FitsBeside pages request) :=
  inferInstanceAs (Decidable (_ ∧ _))

/-- Some admission of the request, without a prefix, is granted. -/
def Grants (cache : SequenceCache R) (request : AdmissionRequest) : Prop :=
  ∃ context restore id, (Operation.admitSequence none request context restore).result cache =
    .ok (.admission (.admitted id))

section Requests

variable {cache cache' start middle : SequenceCache R} {request : AdmissionRequest}
variable {orphans : List PageId} {stray : List TokenBlockId}
variable {reservedPages extra limit : ℕ}

theorem SameGeometry.fitsBeside_iff (h : SameGeometry cache cache') (pages : ℕ) :
    cache'.FitsBeside pages request ↔ cache.FitsBeside pages request := by
  rw [FitsBeside, FitsBeside, byteLimit, byteLimit, h.config, h.pageBytes, h.pageCapacity]

/-- What a request without a prefix asks for depends on the geometry alone. -/
theorem Quoted.sameGeometry
    (h : Quoted cache none request none 0 [] reservedPages extra limit)
    (hsame : SameGeometry cache cache') :
    Quoted cache' none request none 0 [] reservedPages extra limit := by
  obtain ⟨-, hposition, hreserved, hbytes, hlimit⟩ := h
  refine ⟨rfl, hposition, ?_, ?_, ?_⟩
  · rw [hsame.config]
    exact hreserved
  · rw [← hbytes]
    unfold admissionBytes
    rw [hsame.pageBytes]
  · rw [← hlimit]
    unfold admissionLimit
    rw [hsame.config]

/-- An idle cache has no room for a request exactly when it does not fit beside the pages that
no plan frees. -/
theorem overcommits_idle (hinv : Inv orphans stray cache)
    (hidle : ∀ id, cache.sequences.get? id = none) :
    cache.Overcommits none (request.maxPosition ⌈/⌉ cache.config.pageTokens) request ↔
      ¬ cache.FitsBeside (cache.fixedPages none) request := by
  obtain ⟨-, hreserved, hbytes⟩ := fixedBytes_idle hinv hidle
  rw [Overcommits, FitsBeside, hbytes, hreserved, Nat.add_mul]
  omega

/-- A cache built anew that grants the request has room for it. -/
theorem Grants.quoted {config : CacheConfig} (h : start.Grants request) (hlaw : R.Retires)
    (hnew : SequenceCache.new R config = .ok start) :
    ∃ reservedPages extra limit, Quoted start none request none 0 [] reservedPages extra limit ∧
      start.FitsBeside 0 request := by
  obtain ⟨context, restore, id, hresult⟩ := h
  have hinv := inv_of_new hnew
  obtain ⟨outcome, cache', hrun, -, hreply⟩ := Operation.result_eq_ok rfl hresult
  cases Reply.admission.inj hreply
  have hspec := admitSequence_spec hlaw hinv none request context restore
  rw [hrun] at hspec
  obtain ⟨-, reclaimed, middle, hreclaimed, hmiddle, hadmits⟩ := hspec
  obtain ⟨hblocked, -⟩ | ⟨protectedEntry, position, shared, reservedPages, extra, limit, plan, _, _,
    _, _, _, _, -, hopened, -⟩ := hadmits
  · cases hblocked
  have hstart := hopened.quoted.start
  cases hstart
  have hquoted := hopened.quoted
  obtain ⟨-, hempty⟩ := new_eq_ok.mp hnew
  have hidle : ∀ id, middle.sequences.get? id = none := by
    intro id
    rw [hreclaimed.state, hempty]
    exact Arena.get?_empty id
  have hdeferred : middle.deferredPages = 0 := by
    rw [hreclaimed.state, hempty]
    exact Nat.zero_sub _
  have hresident : middle.stats.residentPages = 0 := by
    rw [hmiddle.published.resident_eq rfl, residentNow, hdeferred, hreclaimed.state, hempty]
    rfl
  have hfixed : middle.fixedPages none = 0 := by
    obtain ⟨hpinned, -, -⟩ := fixedBytes_idle hmiddle hidle
    rw [fixedPages, hpinned, hresident]
    split_ifs <;> rfl
  have hsame := hreclaimed.sameGeometry
  obtain ⟨-, hpages⟩ := checkedDivCeil_eq_some.mp hquoted.reserved
  have hunprotected : ∀ id, (none : Option PrefixEntryId) = some id →
      ∃ entry, middle.prefixes[id]? = some entry := by
    rintro id ⟨⟩
  have hroom := overcommits_iff hmiddle (fun _ => hdeferred) hlaw hunprotected hquoted.bytes
    hquoted.limit hopened.planned
  rw [List.length_nil, Nat.zero_add] at hpages
  rw [hpages, overcommits_idle hmiddle hidle, hfixed, hsame.fitsBeside_iff] at hroom
  refine ⟨reservedPages, extra, limit, hquoted.sameGeometry ⟨?_, ?_, ?_⟩, ?_⟩
  · exact hsame.config.symm
  · exact hsame.pageBytes.symm
  · exact hsame.pageCapacity.symm
  · by_contra hfits
    cases hroom.mpr hfits

/-- Whatever the cache holds, such a request fails only where the backend does or where an
identity space is exhausted. -/
theorem admitSequence_outside (hlaw : R.Lawful) (hhonest : R.ImmediateHonest)
    (hsound : Sound cache) (hquoted : Quoted cache none request none 0 [] reservedPages extra limit)
    (hextra : extra ≤ cache.config.maxManagedBytes) (context : R.Context)
    (restore : Option R.Snapshot → ℕ → Except R.Error Unit) :
    Ends (admitSequence none request context restore cache) (fun _ _ => True)
      fun failure _ => ∃ error, failure = .error error ∧ error.isOutside = true := by
  unfold admitSequence
  refine Ends.bind (Ends.mono (reclaimDeferred_spec hsound.inv context) (fun _ _ h => h) ?_) ?_
  · rintro failure cache' ⟨⟨error, rfl⟩ | hover, -⟩
    · exact ⟨_, rfl, rfl⟩
    · exact absurd hlaw hover.not_lawful
  rintro reclaimed middle ⟨hmiddle, hreclaimed⟩
  have hchange : Change [] (fun _ _ => False) (fun _ => False) cache middle :=
    .reclaimed hsound.inv hreclaimed
  have hwithin := hchange.within hhonest hsound.within
  rw [← hreclaimed.sameGeometry.config] at hextra
  obtain ⟨-, -, hreserved, hbytes, hlimit⟩ := hquoted.sameGeometry hreclaimed.sameGeometry
  have hplanned : ∃ result,
      middle.planEvictions extra reservedPages limit none none none = .ok result := by
    rcases @planEvictions_cases R middle [] [] extra reservedPages limit none hmiddle none none
      le_rfl le_rfl with ⟨hover, -⟩ | ⟨result, hresult, -⟩
    · have hdouble := hmiddle.double_le
      have htotal := hmiddle.total_eq
      have hmanaged := hwithin.bytes
      have hresident := hmiddle.resident_le_mul middle.stats.residentPages
      have hheld := hmiddle.resident_le_mul middle.stats.reservedPages
      have hasked := hmiddle.resident_le_mul reservedPages
      have hsum := admissionBytes_eq hbytes
      unfold chargedBytes at htotal
      omega
    · exact ⟨result, hresult⟩
  obtain ⟨result, hresult⟩ := hplanned
  rw [bind_ok (reads_ok (fun cache : SequenceCache R => cache.admissionStart none) rfl)]
  simp only
  rw [ensure_pos (Nat.zero_le _), pure_bind_run, get_bind_run, hreserved, okOr_some, pure_bind_run,
    checkedSub_of_le (Nat.le_add_right _ _), Nat.add_sub_cancel_left, okOr_some, pure_bind_run,
    bind_ok (reads_ok (fun cache : SequenceCache R =>
      cache.admissionBytes reservedPages request) hbytes),
    bind_ok (reads_ok (fun cache : SequenceCache R =>
      cache.admissionLimit request.allowEmergency) hlimit),
    bind_ok (reads_ok (fun cache : SequenceCache R =>
      cache.planEvictions extra reservedPages limit none none none) hresult)]
  cases result with
  | none => exact trivial
  | some plan =>
      simp only
      rcases prepareSequenceSlot_cases middle with herror | ⟨hslot, -⟩
      · rw [bind_error (reads_error (fun cache : SequenceCache R =>
          cache.prepareSequenceSlot) herror)]
        exact ⟨_, rfl, rfl⟩
      rw [bind_ok (reads_ok (fun cache : SequenceCache R =>
          cache.prepareSequenceSlot) hslot),
        bind_ok (reads_ok (fun cache : SequenceCache R => cache.checkActiveRoom []) rfl),
        bind_ok (reads_ok (fun cache : SequenceCache R => cache.snapshotOf none) rfl)]
      cases hrestore : restore none 0 with
      | error error => exact ⟨_, rfl, rfl⟩
      | ok =>
          simp only
          rw [bind_ok (reads_ok (fun cache : SequenceCache R =>
            physicalRefsFrom cache.pages []) rfl)]
          unfold publishTable
          rw [bind_assoc, bind_ok (callUpdatePageTable_run context [] 0 middle)]
          cases hanswer : R.updatePageTable middle.backend context [] 0 with
          | error error => exact ⟨_, rfl, rfl⟩
          | ok =>
              have hopened : Opened middle none request context restore none 0 [] reservedPages
                  extra limit plan [] :=
                ⟨⟨rfl, Nat.zero_le _, hreserved, hbytes, hlimit⟩, hresult, hslot, rfl,
                  ⟨none, rfl, hrestore⟩, rfl, hanswer⟩
              simp only
              rw [pure_bind_run, completeAdmission_eq]
              refine Ends.mono (hopened.ends hmiddle) (fun _ _ _ => trivial) ?_
              rintro failure cache' (⟨⟨rfl, -⟩ | ⟨answer, physical, rfl, -⟩, -⟩ | hbreached)
              · exact ⟨_, rfl, rfl⟩
              · exact ⟨_, rfl, rfl⟩
              · exact absurd hbreached (not_breached hlaw.toRetires failure cache')

end Requests

/-! ## Requests to idle caches -/

end SequenceCache

/-- The backend does not fail during the call, and no identity space is exhausted. -/
def Operation.Unhindered (operation : Operation R) (cache : SequenceCache R) : Prop :=
  ∀ error, operation.result cache = .error (.error error) → error.isOutside = false

namespace SequenceCache

/-- Some entry is retained before the call and not after it. -/
def EvictsSome (cache cache' : SequenceCache R) : Prop :=
  ∃ entry, entry ∈ cache.prefixes ∧ entry ∉ cache'.prefixes

section Idle

variable {start cache : SequenceCache R} {request : AdmissionRequest} {context : R.Context}
variable {restore : Option R.Snapshot → ℕ → Except R.Error Unit}
variable {orphans : List PageId} {stray : List TokenBlockId}

/-- A request that fits alone asks for no more than the budget. -/
theorem FitsBeside.extra_le {reservedPages extra limit : ℕ} (h : cache.FitsBeside 0 request)
    (hquoted : Quoted cache none request none 0 [] reservedPages extra limit) :
    extra ≤ cache.config.maxManagedBytes := by
  obtain ⟨hbytes, -⟩ := h
  obtain ⟨-, hpages⟩ := checkedDivCeil_eq_some.mp hquoted.reserved
  rw [List.length_nil, Nat.zero_add] at hpages
  rw [admissionBytes_eq hquoted.bytes, hpages]
  rw [Nat.zero_add] at hbytes
  refine hbytes.trans ?_
  unfold byteLimit
  split_ifs <;> omega

/-- An admission to an idle cache is blocked exactly when the request does not fit beside the
pages that stay. -/
theorem admitSequence_idle (hlaw : R.Retires) (hinv : Inv [] [] cache)
    (hidle : ∀ id, cache.sequences.get? id = none) (hsettled : cache.deferredPages = 0)
    {reply : AdmissionOutcome} {cache' : SequenceCache R}
    (hrun : admitSequence none request context restore cache = .ok reply cache') :
    reply = .wouldBlock ↔ ¬ cache.FitsBeside
      (if R.retirementIsImmediate ((Operation.reclaimDeferred context).step cache).backend then 0
        else cache.stats.residentPages) request := by
  obtain ⟨_, hpolled⟩ := polls hinv hrun
  have hspec := admitSequence_spec hlaw hinv none request context restore
  rw [hrun] at hspec
  obtain ⟨-, reclaimed, middle, hreclaimed, hmiddle, -⟩ := hspec
  have hstep := hpolled.unique hreclaimed
  have hidle' : ∀ id, middle.sequences.get? id = none := by
    rw [hreclaimed.state]
    exact hidle
  have hdeferred : middle.deferredPages = 0 := by
    rw [hreclaimed.state]
    change cache.deferredPages - reclaimed = 0
    rw [hsettled, Nat.zero_sub]
  have hresident : middle.stats.residentPages = cache.stats.residentPages := by
    rw [hmiddle.published.resident_eq rfl, hinv.published.resident_eq rfl, residentNow, residentNow,
      hdeferred, hsettled, hreclaimed.state]
    rfl
  have hsame := hreclaimed.sameGeometry
  obtain ⟨hpinned, -, -⟩ := fixedBytes_idle hmiddle hidle'
  have hblocked := admitSequence_blocked hinv hlaw (by
    rw [hstep]
    exact fun _ => hdeferred) hrun
  rw [hstep, Option.map_none, Option.elim_none, Nat.sub_zero, ← hsame.config,
    overcommits_idle hmiddle hidle', hsame.fitsBeside_iff] at hblocked
  rw [hblocked, fixedPages, hpinned, hresident, hstep, List.length_nil]

/-- An admission that is blocked evicts nothing. -/
theorem prefixes_of_blocked (hlaw : R.Retires) (hinv : Inv orphans stray cache)
    {prefixMatch : Option PrefixMatch} {cache' : SequenceCache R}
    (hrun : admitSequence prefixMatch request context restore cache = .ok .wouldBlock cache') :
    cache'.prefixes = cache.prefixes := by
  have hspec := admitSequence_spec hlaw hinv prefixMatch request context restore
  rw [hrun] at hspec
  obtain ⟨-, reclaimed, middle, hreclaimed, -, hadmits⟩ := hspec
  obtain ⟨-, rfl, -⟩ | ⟨_, _, _, _, _, _, _, _, _, _, _, _, _, hadmitted, -⟩ := hadmits
  · rw [hreclaimed.state]
    rfl
  · cases hadmitted

/-- With neither sequences nor deferred pages, a request that a new cache grants is granted, or
evicts an entry, exactly when the backend retires at once or the request fits beside the
pages of the retained entries. -/
theorem admits_or_evicts_iff (hlaw : R.Lawful) (hhonest : R.ImmediateHonest)
    {config : CacheConfig} (hnew : SequenceCache.new R config = .ok start)
    (hreach : ReachesIntact start cache) (hidle : ∀ id, cache.sequences.get? id = none)
    (hsettled : cache.deferredPages = 0) (hgrants : start.Grants request)
    (hcalls : (Operation.admitSequence none request context restore).Unhindered cache) :
    (∃ id, (Operation.admitSequence none request context restore).result cache =
          .ok (.admission (.admitted id))) ∨
        EvictsSome cache ((Operation.admitSequence none request context restore).step cache) ↔
      R.retirementIsImmediate ((Operation.admitSequence none request context
          restore).planningState cache).backend = true ∨
        cache.FitsBeside cache.stats.residentPages request := by
  have hsound := ReachesIntact.sound hreach hlaw.toRetires hhonest (sound_of_new hnew)
  have hgeometry := ReachesIntact.sameGeometry hreach hlaw.toRetires ⟨[], inv_of_new hnew⟩
  obtain ⟨reservedPages, extra, limit, hquoted, hfresh⟩ := hgrants.quoted hlaw.toRetires hnew
  have hfits := (hgeometry.fitsBeside_iff 0).mpr hfresh
  have hquoted' := hquoted.sameGeometry hgeometry
  cases hrun : admitSequence none request context restore cache with
  | error failure cache' =>
      have hends := admitSequence_outside hlaw hhonest hsound hquoted' (hfits.extra_le hquoted')
        context restore
      rw [hrun] at hends
      obtain ⟨error, rfl, houtside⟩ := hends
      have hresult : (Operation.admitSequence none request context restore).result cache =
          .error (.error error) := congrArg outcome (map_error Reply.admission hrun)
      rw [hcalls error hresult] at houtside
      cases houtside
  | ok reply cache' =>
      have hblocked := admitSequence_idle hlaw.toRetires hsound.inv hidle hsettled hrun
      have hresult : (Operation.admitSequence none request context restore).result cache =
          .ok (.admission reply) := congrArg outcome (map_ok Reply.admission hrun)
      have hstep : (Operation.admitSequence none request context restore).step cache = cache' :=
        congrArg finalState (map_ok Reply.admission hrun)
      have hroom : cache.FitsBeside (if R.retirementIsImmediate
          ((Operation.reclaimDeferred context).step cache).backend then 0
          else cache.stats.residentPages) request ↔ R.retirementIsImmediate
            ((Operation.reclaimDeferred context).step cache).backend = true ∨
          cache.FitsBeside cache.stats.residentPages request := by
        split_ifs with himmediate
        · exact ⟨fun _ => Or.inl himmediate, fun _ => hfits⟩
        · exact ⟨Or.inr, fun h => h.resolve_left himmediate⟩
      rw [Operation.planningState, ← hroom, hresult, hstep]
      cases reply with
      | admitted id =>
          have hgranted : ¬ AdmissionOutcome.admitted id = .wouldBlock := fun heq => nomatch heq
          rw [hblocked, not_not] at hgranted
          exact ⟨fun _ => hgranted, fun _ => Or.inl ⟨id, rfl⟩⟩
      | wouldBlock =>
          have hrefused := hblocked.mp rfl
          refine ⟨?_, fun hgranted => absurd hgranted hrefused⟩
          rintro (⟨id, heq⟩ | ⟨entry, hmem, hgone⟩)
          · cases heq
          · rw [prefixes_of_blocked hlaw.toRetires hsound.inv hrun] at hgone
            exact absurd hmem hgone

end Idle

end SequenceCache

/-! ## A backend that defers every retirement -/

namespace Reference

/-- The reference backend, except that retired pages are free at the next poll only. -/
@[reducible]
def deferring : Runtime :=
  { plain with
    retirePages := fun _ _ pages => .ok ⟨pages.length⟩
    retirementIsImmediate := fun _ => false
    pollReclaimed := fun history _ => .ok (deferredTotal history) }

theorem deferring_lawful : deferring.Lawful where
  retire_failure _ _ _ _ h := by cases h
  retire_deferred _ _ _ _ h := by
    cases h
    exact le_rfl
  poll_reclaimed _ _ _ h := by
    cases h
    exact le_rfl

theorem deferring_immediateHonest : deferring.ImmediateHonest where
  never_deferred _ _ _ _ _ himmediate _ _ := nomatch himmediate

def deferringStart : SequenceCache deferring :=
  (SequenceCache.emptyCache deferring config).refresh

/-- A sequence of two rows that is retained and finished. -/
def deferringCalls : List (Operation deferring) :=
  [.admitSequence none ⟨8, 0, 0, false⟩ (7 : ℕ) fun _ _ => .ok (),
    .reserveAppend ⟨0, 0⟩ 2 (7 : ℕ),
    .commitAppend ⟨⟨0, 0⟩, 0, 2, [⟨⟨0, 0⟩, 0, 0, 2⟩], 0⟩ 2 (7 : ℕ),
    .retainPrefix ⟨0, 0⟩ [1, 1] (4 : ℕ) (7 : ℕ), .finish ⟨0, 0⟩ (7 : ℕ)]

/-- Nothing is left but one retained page. -/
def deferringIdle : SequenceCache deferring := runAll Operation.step deferringCalls deferringStart

/-- Admission of a sequence of at most `maxPosition` rows. -/
def deferringAdmission (maxPosition : ℕ) : Operation deferring :=
  .admitSequence none ⟨maxPosition, 0, 0, false⟩ (9 : ℕ) fun _ _ => .ok ()

theorem deferringAdmission_result {maxPosition : ℕ} {cache : SequenceCache deferring}
    {reply : AdmissionOutcome} (h : outcome (@SequenceCache.admitSequence deferring none
      ⟨maxPosition, 0, 0, false⟩ (9 : ℕ) (fun _ _ => .ok ()) cache) = .ok reply) :
    (deferringAdmission maxPosition).result cache = .ok (.admission reply) :=
  congrArg outcome (map_ok Reply.admission (eq_ok_of_outcome h))

end Reference

open Reference in
/-- Beside the retained page, sixty-three of sixty-four are left. -/
theorem SequenceCache.admits_or_evicts_iff_deferring :
    deferringIdle.FitsBeside deferringIdle.stats.residentPages ⟨126, 0, 0, false⟩ ∧
      ((∃ id, (deferringAdmission 126).result deferringIdle = .ok (.admission (.admitted id))) ∨
        SequenceCache.EvictsSome deferringIdle ((deferringAdmission 126).step deferringIdle)) := by
  have hnew : SequenceCache.new deferring Reference.config = .ok deferringStart := rfl
  have hreach : SequenceCache.ReachesIntact deferringStart deferringIdle :=
    Reachable.start.runAll (by decide +kernel)
  have hidle : ∀ id, deferringIdle.sequences.get? id = none := by
    apply Arena.get?_eq_none
    decide +kernel
  have hsettled : deferringIdle.deferredPages = 0 := by decide +kernel
  have hfits : deferringIdle.FitsBeside deferringIdle.stats.residentPages ⟨126, 0, 0, false⟩ := by
    decide +kernel
  have hgrants : deferringStart.Grants ⟨126, 0, 0, false⟩ :=
    ⟨(9 : ℕ), fun _ _ => .ok (), ⟨0, 0⟩, deferringAdmission_result (by decide +kernel)⟩
  have hadmitted : (deferringAdmission 126).result deferringIdle =
      .ok (.admission (.admitted ⟨0, 1⟩)) := deferringAdmission_result (by decide +kernel)
  have hcalls : (deferringAdmission 126).Unhindered deferringIdle := by
    rw [Operation.Unhindered, hadmitted]
    rintro error herror
    cases herror
  generalize deferringIdle = cache at *
  exact ⟨hfits, (SequenceCache.admits_or_evicts_iff deferring_lawful deferring_immediateHonest hnew
    hreach hidle hsettled hgrants hcalls).mpr (Or.inr hfits)⟩

open Reference in
/-- The retained page blocks a request for all sixty-four pages, and does so again. -/
theorem SequenceCache.idle_starves :
    deferring.Lawful ∧ SequenceCache.new deferring Reference.config = .ok deferringStart ∧
      SequenceCache.ReachesIntact deferringStart deferringIdle ∧
      (∀ id, deferringIdle.sequences.get? id = none) ∧ deferringIdle.deferredPages = 0 ∧
      deferringStart.Grants ⟨128, 0, 0, false⟩ ∧
      (deferringAdmission 128).result deferringIdle = .ok (.admission .wouldBlock) ∧
      ¬ SequenceCache.EvictsSome deferringIdle ((deferringAdmission 128).step deferringIdle) ∧
      (deferringAdmission 128).result ((deferringAdmission 128).step deferringIdle) =
        .ok (.admission .wouldBlock) := by
  have hnew : SequenceCache.new deferring Reference.config = .ok deferringStart := rfl
  have hreach : SequenceCache.ReachesIntact deferringStart deferringIdle :=
    Reachable.start.runAll (by decide +kernel)
  have hidle : ∀ id, deferringIdle.sequences.get? id = none := by
    apply Arena.get?_eq_none
    decide +kernel
  have hgrants : deferringStart.Grants ⟨128, 0, 0, false⟩ :=
    ⟨(9 : ℕ), fun _ _ => .ok (), ⟨0, 0⟩, deferringAdmission_result (by decide +kernel)⟩
  have hresult : (deferringAdmission 128).result deferringIdle = .ok (.admission .wouldBlock) :=
    deferringAdmission_result (by decide +kernel)
  have hagain : (deferringAdmission 128).result ((deferringAdmission 128).step deferringIdle) =
      .ok (.admission .wouldBlock) := deferringAdmission_result (by decide +kernel)
  refine ⟨deferring_lawful, hnew, hreach, hidle, by decide +kernel, hgrants, hresult, ?_, hagain⟩
  obtain ⟨final, hrun⟩ : ∃ final, @SequenceCache.admitSequence deferring none
      ⟨128, 0, 0, false⟩ (9 : ℕ) (fun _ _ => .ok ()) deferringIdle = .ok .wouldBlock final :=
    ⟨_, eq_ok_of_outcome (by decide +kernel)⟩
  have hstep : (deferringAdmission 128).step deferringIdle = final :=
    congrArg finalState (map_ok Reply.admission hrun)
  have hsound := hreach.sound deferring_lawful.toRetires deferring_immediateHonest
    (SequenceCache.sound_of_new hnew)
  rintro ⟨entry, hmem, hgone⟩
  rw [hstep, SequenceCache.prefixes_of_blocked deferring_lawful.toRetires hsound.inv hrun] at hgone
  exact hgone hmem

end SeqCache
