import SeqCache.Run.Reachable

/-!
# Budgets along runs

Whatever a client calls and whatever the backend refuses, the cache stays within its limits:
the bytes of its records, its pages in the slots of the backend, its snapshots and the number
of its entries.  The emergency reserve is left alone by those who may not use it.
-/

namespace SeqCache

open Machine Program Std

variable {R : Runtime}

namespace SequenceCache

/-- Pages that occupy a slot of the backend or are promised one, record by record. -/
def committedPages (cache : SequenceCache R) : ℕ :=
  cache.pages.values.length + deferredTotal cache.backend +
    cache.sequences.total SequenceRecord.reservedPages

/-- Bytes that the cache holds or has promised, record by record. -/
def committedBytes (cache : SequenceCache R) : ℕ :=
  cache.committedPages * cache.pageBytes + cache.sequences.total SequenceRecord.privateStateBytes +
    cache.sequences.total SequenceRecord.pageTableBytes +
      mapTotal PrefixEntry.snapshotBytes cache.prefixes

/-- The state is within its limits, and its statistics report no less than there is. -/
structure WithinBudgets (cache : SequenceCache R) (byteLimit : ℕ) : Prop where
  bytes : cache.committedBytes ≤ cache.stats.totalManagedBytes
  total : cache.stats.totalManagedBytes ≤ byteLimit
  pages : cache.committedPages ≤ cache.stats.residentPages + cache.stats.reservedPages
  slots : cache.stats.residentPages + cache.stats.reservedPages ≤ cache.pageCapacity
  snapshots : mapTotal PrefixEntry.snapshotBytes cache.prefixes ≤ cache.config.maxSnapshotBytes
  retained : cache.stats.retainedSnapshotBytes ≤ cache.config.maxSnapshotBytes
  entries : ∀ limit, cache.config.maxPrefixEntries = some limit → cache.prefixes.size ≤ limit

variable {cache cache' start : SequenceCache R} {orphans : List PageId}
variable {stray : List TokenBlockId} {byteLimit : ℕ} {operation : Operation R}

/-- The statistics count every record. -/
theorem Within.budgets (h : Within cache byteLimit) (hinv : Inv orphans stray cache) :
    WithinBudgets cache byteLimit := by
  obtain ⟨hreserved, hprivate, htable, hsnapshot, -, hdeferred⟩ := hinv.counted
  have hresident : cache.pages.values.length + deferredTotal cache.backend ≤
      cache.stats.residentPages := hdeferred ▸ hinv.published.resident_le
  have hpages : cache.committedPages ≤ cache.stats.residentPages + cache.stats.reservedPages := by
    rw [committedPages, ← hreserved]
    exact Nat.add_le_add_right hresident _
  refine ⟨?_, h.bytes, hpages, h.pages, hsnapshot ▸ hinv.budgeted.snapshot_le,
    hinv.budgeted.snapshot_le, hinv.budgeted.entries_le⟩
  have hmul := Nat.mul_le_mul_right cache.pageBytes hpages
  rw [Nat.add_mul] at hmul
  rw [hinv.total_eq, committedBytes, chargedBytes, ← hprivate, ← htable, ← hsnapshot]
  omega

theorem admissionLimit_eq {limit : ℕ} (h : cache.admissionLimit false = .ok limit) :
    limit = cache.config.maxManagedBytes - cache.config.emergencyBytes := by
  unfold admissionLimit at h
  rw [if_neg Bool.false_ne_true] at h
  exact (checkedSub_eq_some.mp (okOr_eq_ok.mp h)).2

end SequenceCache

/-- What a call that opens a sequence asks for. -/
def Operation.request? : Operation R → Option AdmissionRequest
  | .admitSequence _ request _ _ => some request
  | .branch _ request _ => some request
  | _ => none

namespace SequenceCache

section Admissions

variable {cache cache' start : SequenceCache R} {orphans : List PageId}
variable {stray : List TokenBlockId} {operation : Operation R} {request : AdmissionRequest}

theorem admitSequence_within (hlaw : R.Retires) (hhonest : R.ImmediateHonest)
    (hinv : Inv orphans stray cache) (prefixMatch : Option PrefixMatch) (context : R.Context)
    (restore : Option R.Snapshot → ℕ → Except R.Error Unit)
    (hordinary : request.allowEmergency = false) :
    Ends (admitSequence prefixMatch request context restore cache)
      (fun outcome cache' => ∀ id, outcome = .admitted id →
        Within cache' (cache'.config.maxManagedBytes - cache'.config.emergencyBytes))
      (fun _ _ => True) := by
  refine Ends.mono (admitSequence_spec hlaw hinv prefixMatch request context restore) ?_
    fun _ _ _ => trivial
  rintro outcome cache' ⟨-, reclaimed, middle, -, hmiddle,
    ⟨rfl, -, -⟩ | ⟨_, _, _, _, _, limit, _, _, _, _, _, _, _, rfl, hopened, hadmission⟩⟩ id heq
  · cases heq
  · have hlimit := hopened.quoted.limit
    rw [hordinary] at hlimit
    rw [hadmission.config, ← admissionLimit_eq hlimit]
    exact hadmission.within hhonest hmiddle

theorem branch_within (hlaw : R.Retires) (hhonest : R.ImmediateHonest)
    (hinv : Inv orphans stray cache) (source : SequenceId) (context : R.Context)
    (hordinary : request.allowEmergency = false) :
    Ends (branch source request context cache)
      (fun outcome cache' => ∀ id, outcome = .admitted id →
        Within cache' (cache'.config.maxManagedBytes - cache'.config.emergencyBytes))
      (fun _ _ => True) := by
  refine Ends.mono (branch_spec hlaw hinv source request context) ?_ fun _ _ _ => trivial
  rintro outcome cache' ⟨-, ⟨rfl, -, -⟩ | ⟨_, _, _, _, _, limit, _, _, _, _, _, _, _, _,
    rfl, hforked, hadmission⟩⟩ id heq
  · cases heq
  · have hlimit := hforked.quoted.limit
    rw [hordinary] at hlimit
    rw [hadmission.config, ← admissionLimit_eq hlimit]
    exact hadmission.within hhonest hinv

/-- An ordinary admission leaves the emergency reserve free. -/
theorem admitted_within (hlaw : R.Retires) (hhonest : R.ImmediateHonest)
    (hinv : Inv orphans stray cache) (hrequest : operation.request? = some request)
    (hordinary : request.allowEmergency = false) {id : SequenceId}
    (hadmitted : operation.result cache = .ok (.admission (.admitted id))) :
    Within (operation.step cache) ((operation.step cache).config.maxManagedBytes -
      (operation.step cache).config.emergencyBytes) := by
  cases operation with
  | admitSequence prefixMatch found context restore =>
      obtain rfl := Option.some.inj hrequest
      obtain ⟨outcome, cache', hrun, rfl, hreply⟩ := Operation.result_eq_ok rfl hadmitted
      have hspec := admitSequence_within hlaw hhonest hinv prefixMatch context restore hordinary
      rw [hrun] at hspec
      exact hspec id (Reply.admission.inj hreply).symm
  | branch source found context =>
      obtain rfl := Option.some.inj hrequest
      obtain ⟨outcome, cache', hrun, rfl, hreply⟩ := Operation.result_eq_ok rfl hadmitted
      have hspec := branch_within hlaw hhonest hinv source context hordinary
      rw [hrun] at hspec
      exact hspec id (Reply.admission.inj hreply).symm
  | _ => cases hrequest

/-- The invariant and the limits hold along every run. -/
theorem Reaches.inv_within (hreach : Reaches start cache) (hlaw : R.Retires)
    (hhonest : R.ImmediateHonest) {config : CacheConfig}
    (hnew : SequenceCache.new R config = .ok start) :
    ∃ orphans stray, Inv orphans stray cache ∧ Within cache config.maxManagedBytes ∧
      cache.config = config := by
  have hboth : (∃ orphans stray, Inv orphans stray cache) ∧
      Within cache cache.config.maxManagedBytes := by
    induction hreach with
    | start => exact ⟨⟨[], [], inv_of_new hnew⟩, (sound_of_new hnew).within⟩
    | step operation _ _ ih =>
        obtain ⟨⟨orphans, stray, hinv⟩, hwithin⟩ := ih
        exact ⟨operation.inv hlaw hinv, operation.within hlaw hhonest hinv hwithin⟩
  have hfollows := hreach.follows hlaw ⟨[], [], inv_of_new hnew⟩
  have hconfig : cache.config = config := by
    rw [hfollows.config]
    obtain ⟨-, rfl⟩ := new_eq_ok.mp hnew
    rfl
  obtain ⟨⟨orphans, stray, hinv⟩, hwithin⟩ := hboth
  exact ⟨orphans, stray, hinv, hconfig ▸ hwithin, hconfig⟩

theorem Reaches.budgets (hreach : Reaches start cache) (hlaw : R.Retires)
    (hhonest : R.ImmediateHonest) {config : CacheConfig}
    (hnew : SequenceCache.new R config = .ok start) :
    WithinBudgets cache config.maxManagedBytes := by
  obtain ⟨orphans, stray, hinv, hwithin, -⟩ := hreach.inv_within hlaw hhonest hnew
  exact hwithin.budgets hinv

/-- With a backend that defers nothing it promised to retire at once, every state of every run
is within the limits, and after an ordinary admission the emergency reserve is free. -/
theorem budgets_hold (hlaw : R.Retires) (hhonest : R.ImmediateHonest) {config : CacheConfig}
    (hnew : SequenceCache.new R config = .ok start) (hreach : Reaches start cache) :
    WithinBudgets cache config.maxManagedBytes ∧
      ∀ (operation : Operation R) (request : AdmissionRequest) (id : SequenceId),
        operation.request? = some request → request.allowEmergency = false →
        operation.result cache = .ok (.admission (.admitted id)) →
          WithinBudgets (operation.step cache)
            (config.maxManagedBytes - config.emergencyBytes) := by
  obtain ⟨orphans, stray, hinv, hwithin, hconfig⟩ := hreach.inv_within hlaw hhonest hnew
  refine ⟨hwithin.budgets hinv, fun operation request id hrequest hordinary hadmitted => ?_⟩
  obtain ⟨orphans', stray', hinv'⟩ := operation.inv hlaw hinv
  have hlater := admitted_within hlaw hhonest hinv hrequest hordinary hadmitted
  rw [(operation.follows hlaw hinv).config, hconfig] at hlater
  exact hlater.budgets hinv'

end Admissions

end SequenceCache

open Reference in
/-- A reserve of eight bytes is still free after an ordinary admission. -/
theorem SequenceCache.budgets_hold_guarded :
    WithinBudgets ((admission 7).step (emptyCache plain ⟨2, 64, 16, none, 8⟩).refresh) 56 := by
  have hnew : SequenceCache.new plain ⟨2, 64, 16, none, 8⟩ =
      .ok (emptyCache plain ⟨2, 64, 16, none, 8⟩).refresh := rfl
  have hadmitted : ∃ id, (admission 7).result (emptyCache plain ⟨2, 64, 16, none, 8⟩).refresh =
      .ok (.admission (.admitted id)) := ⟨⟨0, 0⟩, rfl⟩
  obtain ⟨id, hid⟩ := hadmitted
  exact (budgets_hold plain_lawful.toRetires plain_immediateHonest hnew .start).2 (admission 7) _ id
    rfl rfl hid

end SeqCache
