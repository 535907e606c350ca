import SeqCache.Core.Traces
import SeqCache.Backend.Reference
import SeqCache.Run.History

/-!
# Reachable states

A run starts with a new cache and makes calls one after the other, whether they succeed
or fail.  Every state of a run satisfies the invariant.  As long as no call reports an
exhausted identity space, no page record is ever without a holder.
-/

namespace SeqCache

open Machine Program Std

variable {R : Runtime}

/-! ## Construction -/

theorem validateConfig_ok {config : CacheConfig} {pageBytes : ℕ}
    (h : SequenceCache.validateConfig config pageBytes = .ok ()) :
    0 < config.pageTokens ∧ 0 < pageBytes ∧ pageBytes ≤ config.maxManagedBytes ∧
      config.emergencyBytes ≤ config.maxManagedBytes ∧
      config.maxSnapshotBytes ≤ config.maxManagedBytes ∧ config.maxManagedBytes ≤ i64Max := by
  unfold SequenceCache.validateConfig at h
  obtain ⟨htokens, h⟩ := ensure_bind_eq_ok.mp h
  obtain ⟨hbytes, h⟩ := ensure_bind_eq_ok.mp h
  obtain ⟨-, h⟩ := ensure_bind_eq_ok.mp h
  obtain ⟨hpage, h⟩ := ensure_bind_eq_ok.mp h
  obtain ⟨hemergency, h⟩ := ensure_bind_eq_ok.mp h
  obtain ⟨hsnapshot, h⟩ := ensure_bind_eq_ok.mp h
  obtain ⟨hmanaged, -⟩ := ensure_bind_eq_ok.mp h
  exact ⟨Nat.pos_of_ne_zero htokens, Nat.pos_of_ne_zero hbytes, hpage, hemergency, hsnapshot,
    hmanaged⟩

theorem ready_emptyCache {config : CacheConfig}
    (h : SequenceCache.validateConfig config R.pageBytes = .ok ()) :
    Ready [] [] (SequenceCache.emptyCache R config) := by
  obtain ⟨htokens, hbytes, hpage, hemergency, hsnapshot, hmanaged⟩ := validateConfig_ok h
  have hcharged : ∀ resident, (SequenceCache.emptyCache R config).chargedBytes resident =
      resident * R.pageBytes := fun resident => by
    simp [SequenceCache.chargedBytes, SequenceCache.emptyCache, StatsOf.replicate]
  have hblocks : blockCount (∅ : Prefixes R.Snapshot) [] = fun _ => 0 := by
    funext id
    simp [blockCount]
  constructor
  case config => exact ⟨htokens, hbytes, hpage, hemergency, hsnapshot, hmanaged⟩
  case owned =>
    refine ⟨Arena.wf_empty, Arena.wf_empty, List.nodup_nil, by simp, ?_, ?_, ?_⟩
    · intro id page hpage
      rw [SequenceCache.emptyCache, Arena.get?_empty] at hpage
      cases hpage
    · intro id record hrecord
      rw [SequenceCache.emptyCache, Arena.get?_empty] at hrecord
      cases hrecord
    · intro id entry hentry
      simp [SequenceCache.emptyCache] at hentry
  case counted =>
    refine ⟨rfl, rfl, rfl, ?_, ?_, rfl⟩
    · simp [SequenceCache.emptyCache, StatsOf.replicate]
    · simp [SequenceCache.emptyCache, StatsOf.replicate, Arena.values, Arena.empty]
  case held_le =>
    rw [hcharged]
    simp [SequenceCache.emptyCache, Arena.values, Arena.empty]
  case charged_le =>
    rw [hcharged]
    simp [SequenceCache.residentNow, SequenceCache.emptyCache, Arena.values, Arena.empty]
  case snapshot_le => exact Nat.zero_le _
  case entries_le => intro limit _; simp [SequenceCache.emptyCache]
  case filed =>
    refine ⟨?_, ?_, ?_, ?_⟩
    · rw [SequenceCache.emptyCache, hblocks]
      exact PrefixIndex.interned_new
    · intro key id
      simp [SequenceCache.emptyCache, PrefixIndex.new, R.getBytes_newTree]
    · intro id entry hentry
      simp [SequenceCache.emptyCache] at hentry
    · intro id entry hentry
      simp [SequenceCache.emptyCache] at hentry
  case ranked => intro used id; simp [SequenceCache.emptyCache]
  case clocked => exact ⟨fun id entry hentry => by simp [SequenceCache.emptyCache] at hentry,
    Nat.zero_le _⟩
  case ids_below => intro id hmem; simp [SequenceCache.emptyCache] at hmem
  case ids_bounded => exact Nat.zero_le _

/-- A cache can be built exactly for a valid configuration, and starts empty. -/
theorem new_eq_ok {config : CacheConfig} {cache : SequenceCache R} :
    SequenceCache.new R config = .ok cache ↔
      SequenceCache.validateConfig config R.pageBytes = .ok () ∧
        cache = (SequenceCache.emptyCache R config).refresh := by
  unfold SequenceCache.new
  cases hvalid : SequenceCache.validateConfig config R.pageBytes with
  | error error => simp [throw, throwThe, MonadExceptOf.throw]
  | ok value =>
      have hrun := (ready_emptyCache (R := R) hvalid).refresh.1
      simp only [hrun, true_and]
      exact ⟨fun h => (Except.ok.inj h).symm, fun h => h ▸ rfl⟩

theorem inv_of_new {config : CacheConfig} {cache : SequenceCache R}
    (h : SequenceCache.new R config = .ok cache) : Inv [] [] cache := by
  obtain ⟨hvalid, rfl⟩ := new_eq_ok.mp h
  exact (ready_emptyCache hvalid).refresh.2

/-! ## Runs -/

/-- States reached from a cache by any calls. -/
abbrev SequenceCache.Reaches (cache : SequenceCache R) : SequenceCache R → Prop :=
  Reachable Operation.step (fun _ _ => True) cache

/-- States reached from a cache by calls none of which reports an exhausted identity
space. -/
abbrev SequenceCache.ReachesIntact (cache : SequenceCache R) : SequenceCache R → Prop :=
  Reachable Operation.step (fun cache operation => ¬ Exhausted (operation.result cache)) cache

open SequenceCache

variable {orphans : List PageId} {stray : List TokenBlockId} {cache cache' : SequenceCache R}

theorem Operation.follows (hlaw : R.Retires) (hinv : Inv orphans stray cache)
    (operation : Operation R) : Follows cache (operation.step cache) :=
  (operation.evolves hlaw hinv).follows

theorem SequenceCache.Evolves.inv {strays : Prop} {uses : SequenceId → R.Context → Prop}
    {opens : R.Context → Prop} {result : Except (Failure R.Error) (Reply R)}
    (h : Evolves orphans stray strays uses opens cache result cache') :
    ∃ orphans' stray', Inv orphans' stray' cache' := by
  cases h with
  | progressed _ _ _ hinv' => exact ⟨_, _, hinv'⟩
  | touched _ hinv' => exact ⟨_, _, hinv'⟩
  | retained _ _ _ hinv' => exact ⟨_, _, hinv'⟩
  | torn _ _ _ _ _ _ hinv' => exact ⟨_, _, hinv'⟩

/-- The invariant survives every call, up to the pages that the call has lost. -/
theorem Operation.inv (hlaw : R.Retires) (hinv : Inv orphans stray cache)
    (operation : Operation R) : ∃ orphans' stray', Inv orphans' stray' (operation.step cache) :=
  (operation.evolves hlaw hinv).inv

/-- A call that reports no exhausted identity space loses no page, and leaves no block
behind unless it is a retention that failed late. -/
theorem Operation.inv_of_intact (hlaw : R.Retires) (hinv : Inv orphans stray cache)
    {operation : Operation R} (hintact : ¬ Exhausted (operation.result cache)) :
    ∃ stray', Inv orphans stray' (operation.step cache) ∧
      (stray' = stray ∨ operation.Strays cache) := by
  cases operation.evolves hlaw hinv with
  | progressed _ _ hstray hinv' => exact ⟨_, hinv', hstray⟩
  | touched _ hinv' => exact ⟨stray, hinv', Or.inl rfl⟩
  | retained _ _ _ hinv' => exact ⟨stray, hinv', Or.inl rfl⟩
  | torn _ _ _ _ hexhausted => exact absurd hexhausted hintact

/-- The calls that finalize pending appends. -/
def Operation.settles : Operation R → Bool
  | .commitAppend _ _ _ => true
  | .abortAppend _ _ => true
  | .commitAppendBatch _ _ _ => true
  | .abortAppendBatch _ _ => true
  | _ => false

/-- The call is no finalization that runs out of generations. -/
def Operation.Untorn (cache : SequenceCache R) (operation : Operation R) : Prop :=
  operation.settles = true → ¬ Exhausted (operation.result cache)

/-- A reply comes from the program behind the call. -/
theorem Operation.result_eq_ok {α : Type} {operation : Operation R} {program : CacheM R α}
    {view : α → Reply R} {reply : Reply R} (hrun : operation.run = view <$> program)
    (h : operation.result cache = .ok reply) : ∃ value cache', program cache = .ok value cache' ∧
      operation.step cache = cache' ∧ reply = view value := by
  rw [Operation.result, hrun] at h
  rw [Operation.step, hrun]
  cases hprogram : program cache with
  | ok value cache' =>
      rw [map_ok view hprogram] at h ⊢
      exact ⟨value, cache', rfl, rfl, (Except.ok.inj h).symm⟩
  | error failure cache' =>
      rw [map_error view hprogram] at h
      cases h

/-! ## Limits -/

section Limits

variable {uses : SequenceId → R.Context → Prop} {opens : R.Context → Prop}

/-- With no more pages and no more of the other bytes the limits still hold. -/
theorem SequenceCache.Within.shrink {stray : List TokenBlockId}
    (h : Within cache cache.config.maxManagedBytes) (hinv : Inv orphans stray cache)
    (hconfig : cache'.config = cache.config) (hpageBytes : cache'.pageBytes = cache.pageBytes)
    (hcapacity : cache'.pageCapacity = cache.pageCapacity)
    (htotal : cache'.stats.totalManagedBytes = cache'.chargedBytes cache'.stats.residentPages)
    (hpages : cache'.stats.residentPages + cache'.stats.reservedPages ≤
      cache.stats.residentPages + cache.stats.reservedPages)
    (hothers : cache'.stats.activePrivateStateBytes + cache'.stats.retainedSnapshotBytes +
        cache'.stats.pageTableBytes ≤
      cache.stats.activePrivateStateBytes + cache.stats.retainedSnapshotBytes +
        cache.stats.pageTableBytes) :
    Within cache' cache'.config.maxManagedBytes := by
  have hbytes := h.bytes
  have hbefore := hinv.total_eq
  have hmul := Nat.mul_le_mul_right cache.pageBytes hpages
  rw [Nat.add_mul, Nat.add_mul] at hmul
  unfold chargedBytes at htotal hbefore
  rw [hpageBytes] at htotal
  constructor
  · rw [hconfig]
    omega
  · rw [hcapacity]
    exact hpages.trans h.pages

/-- With an honest backend no change exceeds the limits. -/
theorem SequenceCache.Change.within (h : Change orphans uses opens cache cache')
    (hhonest : R.ImmediateHonest) (hwithin : Within cache cache.config.maxManagedBytes) :
    Within cache' cache'.config.maxManagedBytes := by
  cases h with
  | quiet hquiet _ =>
      obtain ⟨hbytes, hpages⟩ := hwithin
      rw [hquiet.config]
      exact ⟨hquiet.stats ▸ hbytes, hquiet.stats ▸ hquiet.pageCapacity ▸ hpages⟩
  | interned hinterns =>
      rw [hinterns.state]
      exact ⟨hwithin.bytes, hwithin.pages⟩
  | published _ => exact ⟨hwithin.bytes, hwithin.pages⟩
  | evicted hinv hevicted =>
      have hresident := hevicted.resident_le
      have hdeferred := hevicted.deferred_le
      have hsnapshot := hevicted.snapshotBytes
      refine hwithin.shrink hinv hevicted.config hevicted.pageBytes hevicted.pageCapacity
        (hevicted.total_eq hinv.total_eq) ?_ ?_
      · rw [hevicted.reservedPages]
        omega
      · rw [hevicted.privateStateBytes, hevicted.pageTableBytes]
        omega
  | @reclaimed _ _ context reclaimed hinv hreclaimed =>
      have hresident := hinv.published.resident_le
      have hle := hreclaimed.reclaimed_le
      unfold residentNow at hresident
      rw [hreclaimed.state]
      refine hwithin.shrink hinv rfl rfl rfl rfl ?_ le_rfl
      change cache.pages.values.length + (cache.deferredPages - reclaimed) +
        cache.stats.reservedPages ≤ _
      omega
  | admitted _ _ _ _ hfits => exact hfits hhonest
  | @reserved _ _ _ _ _ _ _ fresh _ _ _ hinv hreserved =>
      have hresident := hinv.published.resident_le
      have hlength := hreserved.length_pages
      have hgranted := hreserved.reserved_le
      unfold residentNow at hresident
      rw [hreserved.state]
      refine hwithin.shrink hinv rfl rfl rfl rfl ?_ le_rfl
      change cache'.pages.values.length + cache.deferredPages +
        (cache.stats.reservedPages - fresh.length) ≤ _
      omega
  | @settled _ _ _ record pending _ committed _ _ hinv _ hsettled =>
      have hresident := hinv.published.resident_le
      have hlength := hsettled.length_pages
      unfold residentNow at hresident
      rw [hsettled.state]
      refine hwithin.shrink hinv rfl rfl rfl rfl ?_ le_rfl
      change cache'.pages.values.length + cache.deferredPages + (cache.stats.reservedPages +
        (releasedPages cache.config.pageTokens record pending committed).length) ≤ _
      omega
  | @finished _ _ _ record _ _ deferred hinv hfinished =>
      have hresident := hinv.published.resident_le
      have hlength := hfinished.length_pages
      have hdeferred := hfinished.deferred_le
      unfold residentNow at hresident
      rw [hfinished.state]
      refine hwithin.shrink hinv rfl rfl rfl rfl ?_ ?_
      · change cache'.pages.values.length + (cache.deferredPages + deferred) +
          (cache.stats.reservedPages - record.reservedPages) ≤ _
        omega
      · exact Nat.add_le_add (Nat.add_le_add_right (Nat.sub_le _ _) _) (Nat.sub_le _ _)

theorem SequenceCache.Progress.within (h : Progress orphans uses opens cache cache')
    (hhonest : R.ImmediateHonest) (hwithin : Within cache cache.config.maxManagedBytes) :
    Within cache' cache'.config.maxManagedBytes := by
  induction h with
  | refl => exact hwithin
  | tail _ hchange ih => exact hchange.within hhonest ih

theorem Operation.within (hlaw : R.Retires) (hhonest : R.ImmediateHonest)
    (hinv : Inv orphans stray cache) (hwithin : Within cache cache.config.maxManagedBytes)
    (operation : Operation R) :
    Within (operation.step cache) (operation.step cache).config.maxManagedBytes := by
  cases operation.evolves hlaw hinv with
  | progressed hprogress => exact hprogress.within hhonest hwithin
  | touched htouched =>
      rw [htouched.state]
      exact ⟨hwithin.bytes, hwithin.pages⟩
  | retained _ _ _ _ hfits => exact hfits hhonest
  | torn hprogress _ _ hinterrupted =>
      obtain ⟨_, _, _, _, _, _, -, -, htorn, -⟩ := hinterrupted
      have hmiddle := hprogress.within hhonest hwithin
      rw [htorn.state]
      exact ⟨hmiddle.bytes, hmiddle.pages⟩

/-! ## Backends that retire at once -/

/-- A backend that always promises immediate retirement never defers a page. -/
theorem SequenceCache.Change.deferred_eq_zero (h : Change orphans uses opens cache cache')
    (hhonest : R.ImmediateHonest) (hsteady : R.SteadyRetirement) {history : R.History}
    (himmediate : R.retirementIsImmediate history = true) (hzero : cache.deferredPages = 0) :
    cache'.deferredPages = 0 := by
  cases h with
  | quiet hquiet _ => rw [hquiet.deferredPages, hzero]
  | interned hinterns => rw [hinterns.state, hzero]
  | published _ => exact hzero
  | evicted _ hevicted =>
      have hpromise : R.retirementIsImmediate cache.backend = true :=
        (hsteady _ _).trans himmediate
      have hdeferred := hevicted.retirement.deferred_of_immediate hhonest (.refl _) hpromise
      rw [hevicted.deferredPages, hzero, hdeferred]
  | reclaimed _ hreclaimed =>
      rw [hreclaimed.state]
      change cache.deferredPages - _ = 0
      rw [hzero, Nat.zero_sub]
  | admitted _ hadmitted _ _ _ =>
      rw [hadmitted.state]
      exact hzero
  | reserved _ _ hreserved =>
      rw [hreserved.state]
      exact hzero
  | settled _ _ _ hsettled =>
      rw [hsettled.state]
      exact hzero
  | @finished _ _ _ _ _ _ deferred _ hfinished =>
      have hpromise : R.retirementIsImmediate cache.backend = true :=
        (hsteady _ _).trans himmediate
      have hdeferred := hfinished.retirement.deferred_of_immediate hhonest (.refl _) hpromise
      rw [hfinished.state]
      change cache.deferredPages + deferred = 0
      rw [hzero, hdeferred]

theorem SequenceCache.Progress.deferred_eq_zero (h : Progress orphans uses opens cache cache')
    (hhonest : R.ImmediateHonest) (hsteady : R.SteadyRetirement) {history : R.History}
    (himmediate : R.retirementIsImmediate history = true) (hzero : cache.deferredPages = 0) :
    cache'.deferredPages = 0 := by
  induction h with
  | refl => exact hzero
  | tail _ hchange ih => exact hchange.deferred_eq_zero hhonest hsteady himmediate ih

theorem Operation.deferred_eq_zero (hlaw : R.Retires) (hhonest : R.ImmediateHonest)
    (hsteady : R.SteadyRetirement) (hinv : Inv orphans stray cache) {history : R.History}
    (himmediate : R.retirementIsImmediate history = true) (hzero : cache.deferredPages = 0)
    (operation : Operation R) : (operation.step cache).deferredPages = 0 := by
  cases operation.evolves hlaw hinv with
  | progressed hprogress => exact hprogress.deferred_eq_zero hhonest hsteady himmediate hzero
  | touched htouched =>
      rw [htouched.state]
      exact hzero
  | retained hprogress hretained =>
      rw [hretained.state]
      exact hprogress.deferred_eq_zero hhonest hsteady himmediate hzero
  | torn hprogress _ _ hinterrupted =>
      obtain ⟨_, _, _, _, _, _, -, -, htorn, -⟩ := hinterrupted
      rw [htorn.state]
      exact hprogress.deferred_eq_zero hhonest hsteady himmediate hzero

end Limits

namespace SequenceCache

/-- What holds in every state of an intact run over an honest backend. -/
structure Sound (cache : SequenceCache R) : Prop where
  inv : Inv [] [] cache
  within : Within cache cache.config.maxManagedBytes
  immediate : R.SteadyRetirement → ∀ history, R.retirementIsImmediate history = true →
    cache.deferredPages = 0

/-- Within the limits, no retention can fail so late that it leaves blocks behind. -/
theorem Sound.not_strays (h : Sound cache) {operation : Operation R}
    (hintact : ¬ Exhausted (operation.result cache)) : ¬ operation.Strays cache := by
  intro hstrays
  cases operation with
  | retainPrefix sequence tokens snapshot context =>
      obtain hresult | ⟨-, hoverflow⟩ := hstrays
      · exact hintact (by rw [hresult]; trivial)
      · have hbytes := h.within.bytes
        have htotal := h.inv.total_eq
        have hsnapshot := h.inv.config.maxSnapshotBytes_le
        have hdouble := h.inv.double_le
        have hresident := h.inv.resident_le_mul cache.stats.residentPages
        have hreserved := h.inv.resident_le_mul cache.stats.reservedPages
        unfold chargedBytes at htotal
        omega
  | _ => exact hstrays

theorem Sound.step (h : Sound cache) (hlaw : R.Retires) (hhonest : R.ImmediateHonest)
    {operation : Operation R} (hintact : ¬ Exhausted (operation.result cache)) :
    Sound (operation.step cache) := by
  obtain ⟨stray', hinv', rfl | hstrays⟩ := Operation.inv_of_intact hlaw h.inv hintact
  · exact ⟨hinv', operation.within hlaw hhonest h.inv h.within,
      fun hsteady history himmediate => operation.deferred_eq_zero hlaw hhonest hsteady h.inv
        himmediate (h.immediate hsteady history himmediate)⟩
  · exact absurd hstrays (h.not_strays hintact)

/-- A call that succeeds and exhausts nothing. -/
theorem Sound.ok {operation : Operation R} {reply : Reply R} (h : Sound cache)
    (hlaw : R.Retires) (hhonest : R.ImmediateHonest)
    (hrun : operation.run cache = .ok reply cache')
    (hintact : ∀ kind, reply.batchError ≠ some (.idExhausted kind)) : Sound cache' := by
  have hstep : operation.step cache = cache' := congrArg finalState hrun
  have hresult : operation.result cache = .ok reply := congrArg outcome hrun
  rw [← hstep]
  apply h.step hlaw hhonest
  rw [hresult]
  rintro ⟨kind, hkind⟩
  exact hintact kind hkind

theorem sound_of_new {config : CacheConfig} (h : SequenceCache.new R config = .ok cache) :
    Sound cache := by
  have hinv := inv_of_new h
  obtain ⟨hvalid, rfl⟩ := new_eq_ok.mp h
  refine ⟨hinv, ⟨?_, ?_⟩, fun _ _ _ => rfl⟩
  · simp [refresh, refreshed, accounts, residentNow, chargedBytes, emptyCache, Arena.values,
      Arena.empty, StatsOf.replicate]
  · simp [refresh, refreshed, accounts, residentNow, emptyCache, Arena.values, Arena.empty,
      StatsOf.replicate]

theorem ReachesIntact.sound (h : ReachesIntact cache cache') (hlaw : R.Retires)
    (hhonest : R.ImmediateHonest) (hsound : Sound cache) : Sound cache' := by
  induction h with
  | start => exact hsound
  | step operation _ hintact ih => exact ih.step hlaw hhonest hintact

theorem Reaches.inv (h : Reaches cache cache') (hlaw : R.Retires)
    (hinv : ∃ orphans stray, Inv orphans stray cache) :
    ∃ orphans stray, Inv orphans stray cache' := by
  induction h with
  | start => exact hinv
  | step operation _ _ ih =>
      obtain ⟨orphans, stray, hinv'⟩ := ih
      exact operation.inv hlaw hinv'

theorem Reaches.follows (h : Reaches cache cache') (hlaw : R.Retires)
    (hinv : ∃ orphans stray, Inv orphans stray cache) : Follows cache cache' := by
  induction h with
  | start => exact .refl cache
  | step operation hreach _ ih =>
      obtain ⟨orphans, stray, hinv'⟩ := Reaches.inv hreach hlaw hinv
      exact ih.trans (operation.follows hlaw hinv')

theorem ReachesIntact.inv (h : ReachesIntact cache cache') (hlaw : R.Retires)
    (hinv : ∃ stray, Inv orphans stray cache) : ∃ stray, Inv orphans stray cache' := by
  induction h with
  | start => exact hinv
  | step operation _ hintact ih =>
      obtain ⟨stray, hinv'⟩ := ih
      obtain ⟨stray', hinv'', -⟩ := Operation.inv_of_intact hlaw hinv' hintact
      exact ⟨stray', hinv''⟩

theorem ReachesIntact.reaches (h : ReachesIntact cache cache') : Reaches cache cache' :=
  h.mono fun _ _ _ => trivial

/-- One more call, which succeeds. -/
theorem ReachesIntact.ok {middle : SequenceCache R} {operation : Operation R} {reply : Reply R}
    (h : ReachesIntact cache middle) (hrun : operation.run middle = .ok reply cache')
    (hintact : ∀ kind, reply.batchError ≠ some (.idExhausted kind)) :
    ReachesIntact cache cache' := by
  have hstep : operation.step middle = cache' := by
    rw [Operation.step, hrun]
    rfl
  rw [← hstep]
  apply h.step operation
  rw [Operation.result, hrun]
  rintro ⟨kind, hkind⟩
  exact hintact kind hkind

/-- One more call, which fails. -/
theorem ReachesIntact.error {middle : SequenceCache R} {operation : Operation R}
    {failure : Failure R.Error} (h : ReachesIntact cache middle)
    (hrun : operation.run middle = .error failure cache')
    (hintact : ∀ kind, failure ≠ .error (.idExhausted kind)) : ReachesIntact cache cache' := by
  have hstep : operation.step middle = cache' := by
    rw [Operation.step, hrun]
    rfl
  rw [← hstep]
  apply h.step operation
  rw [Operation.result, hrun]
  intro hexhausted
  unfold Exhausted at hexhausted
  split at hexhausted
  · rename_i kind heq
    cases heq
    exact hintact kind rfl
  · rename_i heq
    cases heq
  · exact hexhausted

end SequenceCache

/-! ## Runs over the reference backend -/

namespace Reference

/-- Pages of one byte, and as many as fit the budget. -/
@[reducible]
def plain : Runtime := runtime 1 none fun _ => false

/-- Pages of two tokens, sixty-four bytes in all. -/
def config : CacheConfig := ⟨2, 64, 16, none, 0⟩

def start : SequenceCache plain := (emptyCache plain config).refresh

theorem new_start : SequenceCache.new plain config = .ok start := rfl

/-- The state after the listed calls on a new cache. -/
def after (operations : List (Operation plain)) : SequenceCache plain :=
  runAll Operation.step operations start

theorem plain_lawful : plain.Lawful := runtime_lawful _ _ _

theorem plain_immediateHonest : plain.ImmediateHonest := runtime_immediateHonest _ _ _

theorem plain_steadyRetirement : plain.SteadyRetirement := runtime_steadyRetirement _ _ _

theorem reachesIntact_after {operations : List (Operation plain)}
    (h : AllAllowed Operation.step (fun cache operation => ¬ Exhausted (operation.result cache))
      operations start) : ReachesIntact start (after operations) :=
  Reachable.start.runAll h

/-- Admission of a sequence of at most eight rows, without a prefix. -/
def admission (context : ℕ) : Operation plain :=
  .admitSequence none ⟨8, 0, 0, false⟩ context fun _ _ => .ok ()

/-- A sequence of two rows that is retained with a snapshot of four bytes and finished. -/
def served : List (Operation plain) :=
  [admission 7, .reserveAppend ⟨0, 0⟩ 2 7,
    .commitAppend ⟨⟨0, 0⟩, 0, 2, [⟨⟨0, 0⟩, 0, 0, 2⟩], 0⟩ 2 7,
    .retainPrefix ⟨0, 0⟩ [1, 1] 4 7, .finish ⟨0, 0⟩ 7]

/-- A retained page, and a second sequence of three rows. -/
def unaligned : List (Operation plain) :=
  served ++ [admission 8, .reserveAppend ⟨0, 1⟩ 3 8,
    .commitAppend ⟨⟨0, 1⟩, 0, 3, [⟨⟨1, 0⟩, 0, 0, 2⟩, ⟨⟨2, 0⟩, 0, 2, 1⟩], 1⟩ 3 8]

end Reference

end SeqCache
