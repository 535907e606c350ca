import SeqCache.Properties.Evictions

/-!
# Retentions that fail

A retention interns the blocks of its key before it plans its evictions.  Every later
failure gives the blocks back, with two exceptions: sums that do not fit a machine word,
and an exhausted space of entry identities.  The reported kind of a missing capacity is
chosen from the snapshot bytes before any eviction, and is right exactly when these would
have fit, or when the entry could not be held at all.
-/

namespace SeqCache

open Machine Program Std

variable {R : Runtime}

namespace SequenceCache

/-! ## All or nothing -/

/-- The retention passes every check up to the planning of its evictions, and then fails
where the blocks of its key are not given back. -/
structure FailsLate (cache : SequenceCache R) (tokens : List Token) (snapshot : R.Snapshot)
    (record : SequenceRecord R.AppendTransaction) : Prop where
  fits : R.retainedBytes snapshot ≤ cache.config.maxSnapshotBytes
  countable : cache.prefixes.size ≠ usizeMax
  interned : ∃ prepared index', PrefixIndex.prepareKey (tokens.take record.position)
    cache.config.pageTokens cache.index = .ok prepared index'
  late : usizeMax < cache.stats.totalManagedBytes + R.retainedBytes snapshot ∨
    usizeMax < cache.stats.residentPages + cache.stats.reservedPages ∨
    (∃ plan, cache.retainPlan snapshot = .ok (some plan)) ∧ cache.nextPrefixId = usizeMax

section Undo

variable {cache cache' : SequenceCache R} {orphans : List PageId}
variable {stray blocks : List TokenBlockId} {tokens : List Token} {sequence : SequenceId}
variable {record : SequenceRecord R.AppendTransaction} {snapshot : R.Snapshot}
variable {context : R.Context}

/-- Interned blocks count their new references. -/
theorem Interns.not_undone (h : Interns cache cache' stray blocks tokens)
    (hinv : Inv orphans stray cache) (hne : blocks ≠ []) : ¬ Undone cache cache' := by
  intro hundone
  obtain ⟨block, hmem⟩ := List.exists_mem_of_ne_nil blocks hne
  have hcount : 0 < blocks.count block := List.count_pos_iff.mpr hmem
  obtain ⟨found, hfound⟩ := h.table.interned.present block (by omega)
  have hrefs' := (h.table.interned.refs block found hfound).1
  rw [hundone.table.blocks] at hfound
  have hrefs := (hinv.filed.table.refs block found hfound).1
  omega

theorem Undone.refl (hinv : Inv orphans stray cache) : Undone cache cache :=
  ⟨rfl, ⟨rfl, rfl, rfl, le_rfl, hinv.filed.table.bounded⟩, .refl⟩

/-- When the sums of its plan do not fit, a retention has no plan. -/
theorem retainPlan_overflow (h : usizeMax < cache.stats.totalManagedBytes +
    R.retainedBytes snapshot ∨ usizeMax < cache.stats.residentPages + cache.stats.reservedPages) :
    cache.retainPlan snapshot = .error (.error .arithmeticOverflow) :=
  planEvictions_overflow h

/-- A retention that fails undoes what it did, unless it fails late. -/
theorem RetainFails.undone {error : CacheError R.Error}
    (h : RetainFails stray cache sequence tokens snapshot context (.error error) cache')
    (hinv : Inv orphans stray cache)
    (hearly : ∀ record, Retainable cache sequence tokens record →
      ¬ FailsLate cache tokens snapshot record) : Undone cache cache' := by
  cases h with
  | stale _ => exact .refl hinv
  | invalid _ _ => exact .refl hinv
  | oversized _ _ => exact .refl hinv
  | uncountable _ _ => exact .refl hinv
  | unkeyed _ _ _ _ hundone => exact hundone
  | full _ _ _ _ hundone => exact hundone
  | refused _ _ _ _ _ _ hundone => exact hundone
  | overflown hretainable hfits hover hsize _ hinterns =>
      refine absurd ⟨hfits, hsize, ⟨_, _, hinterns.prepared⟩, ?_⟩ (hearly _ hretainable)
      exact hover.imp_right Or.inl
  | unnumbered hretainable hfits hplan hnext hsize _ hinterns =>
      exact absurd ⟨hfits, hsize, ⟨_, _, hinterns.prepared⟩, Or.inr (Or.inr ⟨⟨_, hplan⟩, hnext⟩)⟩
        (hearly _ hretainable)

theorem Retainable.record_eq (h : Retainable cache sequence tokens record)
    {other : SequenceRecord R.AppendTransaction}
    (hother : cache.sequences.get? sequence = some other) : other = record :=
  Option.some.inj (hother.symm.trans h.live)

theorem Retainable.not_invalid (h : Retainable cache sequence tokens record) :
    ¬ (record.position = 0 ∨ record.position % cache.config.pageTokens ≠ 0 ∨
      tokens.length < record.position) := by
  rintro (hzero | hunaligned | hshort)
  · exact h.position_ne hzero
  · exact hunaligned h.aligned
  · exact Nat.not_le_of_lt hshort h.length_le

/-- A retention that fails late does not succeed. -/
theorem FailsLate.not_retains (h : FailsLate cache tokens snapshot record)
    (hretainable : Retainable cache sequence tokens record) {outcome : RetainOutcome} :
    ¬ Retains stray cache sequence tokens snapshot context outcome cache' := by
  intro hretains
  cases hretains with
  | duplicate hlive hexact _ =>
      obtain rfl := hretainable.record_eq hlive
      rw [hretainable.absent] at hexact
      cases hexact
  | inserted _ _ hinterns _ hplan hevicted hretained =>
      rcases h.late with hbytes | hpages | ⟨-, hnext⟩
      · rw [retainPlan_overflow (Or.inl hbytes)] at hplan
        cases hplan
      · rw [retainPlan_overflow (Or.inr hpages)] at hplan
        cases hplan
      · apply hretained.room
        rw [hevicted.nextPrefixId, hinterns.state]
        exact hnext

/-- A retention that fails late has no plan that it could carry out. -/
theorem FailsLate.not_planned (h : FailsLate cache tokens snapshot record)
    {plan : List PrefixEntryId} (hplan : cache.retainPlan snapshot = .ok (some plan))
    (hnext : cache.nextPrefixId ≠ usizeMax) : False := by
  rcases h.late with hbytes | hpages | ⟨-, hfull⟩
  · rw [retainPlan_overflow (Or.inl hbytes)] at hplan
    cases hplan
  · rw [retainPlan_overflow (Or.inr hpages)] at hplan
    cases hplan
  · exact hnext hfull

theorem FailsLate.not_forsaken {failure : Failure R.Error}
    (h : FailsLate cache tokens snapshot record) :
    ¬ Forsaken cache sequence tokens snapshot failure cache' := by
  intro hforsaken
  obtain ⟨plan, hplan⟩ := hforsaken.planned
  exact h.not_planned hplan hforsaken.numbered

/-- A retention that fails late fails with an error, and keeps the blocks of its key. -/
theorem RetainFails.littered {failure : Failure R.Error}
    (h : RetainFails stray cache sequence tokens snapshot context failure cache')
    (hretainable : Retainable cache sequence tokens record)
    (hlate : FailsLate cache tokens snapshot record) :
    (∃ error, failure = .error error ∧ ∀ answer, error ≠ .backend answer) ∧
      ∃ blocks, blocks ≠ [] ∧
        Interns cache cache' stray blocks (tokens.take record.position) := by
  cases h with
  | stale hnone =>
      rw [hretainable.live] at hnone
      cases hnone
  | invalid hlive hinvalid =>
      obtain rfl := hretainable.record_eq hlive
      exact absurd hinvalid hretainable.not_invalid
  | crowded hlive hexact _ _ =>
      obtain rfl := hretainable.record_eq hlive
      rw [hretainable.absent] at hexact
      cases hexact
  | oversized _ hover => exact absurd hlate.fits (Nat.not_le_of_lt hover)
  | uncountable _ hsize => exact absurd hsize hlate.countable
  | unkeyed hother _ _ hprepare _ =>
      obtain rfl := hretainable.record_eq hother.live
      obtain ⟨prepared, index', hinterned⟩ := hlate.interned
      rw [hinterned] at hprepare
      cases hprepare
  | full _ _ _ hplan _ =>
      rcases hlate.late with hbytes | hpages | ⟨⟨plan, hsome⟩, -⟩
      · rw [retainPlan_overflow (Or.inl hbytes)] at hplan
        cases hplan
      · rw [retainPlan_overflow (Or.inr hpages)] at hplan
        cases hplan
      · rw [hplan] at hsome
        cases hsome
  | refused _ _ _ hplan hnext _ _ => exact (hlate.not_planned hplan hnext).elim
  | overflown hother _ _ _ hne hinterns =>
      obtain rfl := hretainable.record_eq hother.live
      exact ⟨⟨_, rfl, fun answer hanswer => by cases hanswer⟩, _, hne, hinterns⟩
  | unnumbered hother _ _ _ _ hne hinterns =>
      obtain rfl := hretainable.record_eq hother.live
      exact ⟨⟨_, rfl, fun answer hanswer => by cases hanswer⟩, _, hne, hinterns⟩

/-- Every error of a retention leaves the state as it was, identities of blocks apart, exactly
when the retention does not fail late. -/
theorem undone_iff_not_failsLate (hlaw : R.Retires) (hinv : Inv orphans stray cache)
    (sequence : SequenceId) (tokens : List Token) (snapshot : R.Snapshot) (context : R.Context) :
    (∀ error cache', retainPrefix sequence tokens snapshot context cache =
        .error (.error error) cache' → Undone cache cache') ↔
      ∀ record, Retainable cache sequence tokens record →
        ¬ FailsLate cache tokens snapshot record := by
  have hspec := retainPrefix_spec hlaw hinv sequence tokens snapshot context
  constructor
  · intro hundone record hretainable hlate
    cases hrun : retainPrefix sequence tokens snapshot context cache with
    | ok outcome cache' =>
        rw [hrun] at hspec
        exact hlate.not_retains hretainable hspec.2
    | error failure cache' =>
        rw [hrun] at hspec
        obtain ⟨⟨error, rfl, -⟩, blocks, hne, hinterns⟩ := hspec.littered hretainable hlate
        exact hinterns.not_undone hinv hne (hundone error cache' hrun)
  · intro hearly error cache' hrun
    rw [hrun] at hspec
    exact hspec.undone hinv hearly

/-- Within the limits, the sums of a retention fit, and its plan is the shortest one. -/
theorem Sound.retainPlan_eq (h : Sound cache)
    (hfits : R.retainedBytes snapshot ≤ cache.config.maxSnapshotBytes) :
    cache.retainPlan snapshot = .ok ((cache.candidates none).inits.find?
      (cache.accommodates (R.retainedBytes snapshot) 0 cache.config.maxManagedBytes
        (cache.stats.retainedSnapshotBytes + R.retainedBytes snapshot)
        (cache.prefixes.size + 1))) := by
  rcases planEvictions_search h.inv
      (some (cache.stats.retainedSnapshotBytes + R.retainedBytes snapshot))
      (some (cache.prefixes.size + 1)) with hsearch | ⟨-, hoverflow⟩
  · exact hsearch
  · refine absurd ⟨?_, ?_, Nat.le_add_right _ _, Nat.le_succ _⟩ hoverflow
    · have hbytes := h.within.bytes
      have hsnapshot := h.inv.config.maxSnapshotBytes_le
      have hdouble := h.inv.double_le
      omega
    · have hbytes := h.within.bytes
      have htotal := h.inv.total_eq
      have hdouble := h.inv.double_le
      have hresident := h.inv.resident_le_mul cache.stats.residentPages
      have hreserved := h.inv.resident_le_mul cache.stats.reservedPages
      unfold chargedBytes at htotal
      omega

/-- A retention for which there is a plan and an identity fails only when its evictions are
refused. -/
theorem retains_or_refused (hlaw : R.Retires) (hinv : Inv orphans stray cache)
    (hretainable : Retainable cache sequence tokens record)
    (hfits : R.retainedBytes snapshot ≤ cache.config.maxSnapshotBytes)
    (hsize : cache.prefixes.size ≠ usizeMax)
    (hinterned : ∃ prepared index', PrefixIndex.prepareKey (tokens.take record.position)
      cache.config.pageTokens cache.index = .ok prepared index')
    {plan : List PrefixEntryId} (hplan : cache.retainPlan snapshot = .ok (some plan))
    (hnext : cache.nextPrefixId ≠ usizeMax) (context : R.Context) :
    (∃ cache', retainPrefix sequence tokens snapshot context cache =
        .ok (.inserted cache.nextPrefixId) cache' ∧ Inv orphans stray cache' ∧
        ∃ blocks interned evicted retired physical deferred, blocks ≠ [] ∧
          Interns cache interned stray blocks (tokens.take record.position) ∧
          Evicted interned evicted plan context retired physical deferred ∧
          Retained evicted cache' sequence record blocks snapshot) ∨
      ∃ failure cache' blocks interned, retainPrefix sequence tokens snapshot context cache =
          .error failure cache' ∧
        Interns cache interned stray blocks (tokens.take record.position) ∧
        Refused interned (interned.evictionBatch plan) context failure := by
  have hspec := retainPrefix_spec hlaw hinv sequence tokens snapshot context
  cases hrun : retainPrefix sequence tokens snapshot context cache with
  | ok outcome cache' =>
      rw [hrun] at hspec
      obtain ⟨hinv', hretains⟩ := hspec
      cases hretains with
      | duplicate hlive hexact _ =>
          obtain rfl := hretainable.record_eq hlive
          rw [hretainable.absent] at hexact
          cases hexact
      | inserted hother hne hinterns _ hplan' hevicted hretained =>
          obtain rfl := hretainable.record_eq hother.live
          rw [hplan] at hplan'
          cases hplan'
          exact Or.inl ⟨cache', rfl, hinv', _, _, _, _, _, _, hne, hinterns, hevicted, hretained⟩
  | error failure cache' =>
      rw [hrun] at hspec
      cases hspec with
      | stale hnone =>
          rw [hretainable.live] at hnone
          cases hnone
      | invalid hlive hinvalid =>
          obtain rfl := hretainable.record_eq hlive
          exact absurd hinvalid hretainable.not_invalid
      | crowded hlive hexact _ _ =>
          obtain rfl := hretainable.record_eq hlive
          rw [hretainable.absent] at hexact
          cases hexact
      | oversized _ hover => exact absurd hfits (Nat.not_le_of_lt hover)
      | uncountable _ hfull => exact absurd hfull hsize
      | unkeyed hother _ _ hprepare _ =>
          obtain rfl := hretainable.record_eq hother.live
          obtain ⟨prepared, index', hprepared⟩ := hinterned
          rw [hprepared] at hprepare
          cases hprepare
      | full _ _ _ hnone _ =>
          rw [hplan] at hnone
          cases hnone
      | refused hother _ hinterns hplan' _ hrefused _ =>
          obtain rfl := hretainable.record_eq hother.live
          rw [hplan] at hplan'
          cases hplan'
          exact Or.inr ⟨failure, cache', _, _, rfl, hinterns, hrefused⟩
      | overflown _ _ hover _ _ _ =>
          rw [retainPlan_overflow hover] at hplan
          cases hplan
      | unnumbered _ _ _ hfull _ _ _ => exact absurd hfull hnext

end Undo

/-- In every reachable state, whatever identities have been used up, a retention that fails
with an error undoes what it did exactly when it does not fail late. -/
theorem retainPrefix_undone_iff (hlaw : R.Lawful) {config : CacheConfig}
    {start cache : SequenceCache R} (hnew : SequenceCache.new R config = .ok start)
    (hreach : Reaches start cache) (sequence : SequenceId) (tokens : List Token)
    (snapshot : R.Snapshot) (context : R.Context) :
    (∀ error cache', retainPrefix sequence tokens snapshot context cache =
        .error (.error error) cache' → Undone cache cache') ↔
      ∀ record, Retainable cache sequence tokens record →
        ¬ FailsLate cache tokens snapshot record := by
  obtain ⟨orphans, stray, hinv⟩ := Reaches.inv hreach hlaw.toRetires ⟨[], [], inv_of_new hnew⟩
  exact undone_iff_not_failsLate hlaw.toRetires hinv sequence tokens snapshot context

end SequenceCache

/-- A retained page, and a second sequence of two rows that takes most of the bytes. -/
def Reference.crowded : List (Operation Reference.plain) :=
  Reference.served ++ [.admitSequence none ⟨8, 50, 0, false⟩ 8 fun _ _ => .ok (),
    .reserveAppend ⟨0, 1⟩ 2 8, .commitAppend ⟨⟨0, 1⟩, 0, 2, [⟨⟨1, 0⟩, 0, 0, 2⟩], 1⟩ 2 8]

/-- The record of the second sequence. -/
def Reference.crowdedRecord : SequenceRecord Unit := ⟨[⟨1, 0⟩], 2, 8, 3, 50, 0, none⟩

namespace SequenceCache

theorem retainable_crowded : Retainable (Reference.after Reference.crowded) ⟨0, 1⟩ [2, 2]
    Reference.crowdedRecord := by
  have hfacts : (Reference.after Reference.crowded).sequences.get? ⟨0, 1⟩ =
        some Reference.crowdedRecord ∧
      2 % (Reference.after Reference.crowded).config.pageTokens = 0 ∧
      (Reference.after Reference.crowded).index.exact [2, 2]
        (Reference.after Reference.crowded).config.pageTokens = none := by decide +kernel
  generalize Reference.after Reference.crowded = cache at *
  exact ⟨hfacts.1, two_ne_zero, hfacts.2.1, le_rfl, hfacts.2.2⟩

/-- Thirteen snapshot bytes are refused after the key was interned, and nothing of it stays. -/
theorem retainPrefix_undone_iff_crowded :
    outcome (retainPrefix (R := Reference.plain) ⟨0, 1⟩ [2, 2] 13 8
        (Reference.after Reference.crowded)) = .error (.error .snapshotCapacity) ∧
      ∀ error cache', retainPrefix (R := Reference.plain) ⟨0, 1⟩ [2, 2] 13 8
        (Reference.after Reference.crowded) = .error (.error error) cache' →
          Undone (Reference.after Reference.crowded) cache' := by
  have hreach : Reaches Reference.start (Reference.after Reference.crowded) :=
    ReachesIntact.reaches (Reference.reachesIntact_after (by decide +kernel))
  have hresult : outcome (retainPrefix (R := Reference.plain) ⟨0, 1⟩ [2, 2] 13 8
      (Reference.after Reference.crowded)) = .error (.error .snapshotCapacity) := by
    decide +kernel
  have hfacts : (Reference.after Reference.crowded).stats.totalManagedBytes + 13 ≤ usizeMax ∧
      (Reference.after Reference.crowded).stats.residentPages +
        (Reference.after Reference.crowded).stats.reservedPages ≤ usizeMax ∧
      (Reference.after Reference.crowded).nextPrefixId ≠ usizeMax := by decide +kernel
  generalize Reference.after Reference.crowded = cache at *
  obtain ⟨hbytes, hpages, hnext⟩ := hfacts
  refine ⟨hresult, (retainPrefix_undone_iff Reference.plain_lawful Reference.new_start hreach
    ⟨0, 1⟩ [2, 2] 13 8).mpr fun record _ hlate => ?_⟩
  rcases hlate.late with hover | hover | ⟨-, hfull⟩
  · exact Nat.not_lt_of_le hbytes hover
  · exact Nat.not_lt_of_le hpages hover
  · exact hnext hfull

/-! ## The kind of a missing capacity -/

/-- After the eviction of every entry there is room for one of `bytes` snapshot bytes.  Its
pages are there already, and the pages of the others count as far as they come back at once. -/
structure CouldHold (cache : SequenceCache R) (bytes : ℕ) : Prop where
  entry : cache.config.maxPrefixEntries ≠ some 0
  bytes : cache.stats.totalManagedBytes + bytes ≤
    cache.config.maxManagedBytes + cache.stats.retainedSnapshotBytes +
      if R.retirementIsImmediate cache.backend then cache.stats.reclaimablePrefixOnlyBytes else 0

/-- What a retention that is new and of `bytes` snapshot bytes should report. -/
structure ReportsTruthfully (cache : SequenceCache R) (bytes : ℕ)
    (result : Except (Failure R.Error) RetainOutcome) : Prop where
  snapshot : result = .error (.error .snapshotCapacity) ↔ cache.config.maxSnapshotBytes < bytes
  entry : result = .error (.error .prefixCapacity) ↔
    bytes ≤ cache.config.maxSnapshotBytes ∧ ¬ CouldHold cache bytes
  inserted : (∃ id, result = .ok (.inserted id)) ↔
    bytes ≤ cache.config.maxSnapshotBytes ∧ CouldHold cache bytes

/-- The counts of the blocks of a key have room for the references of one more key. -/
def CountsFit (cache : SequenceCache R) (tokens : List Token) : Prop :=
  cache.index.CountsFit (chunksExact cache.config.pageTokens tokens)

instance (cache : SequenceCache R) (tokens : List Token) : Decidable (CountsFit cache tokens) :=
  inferInstanceAs (Decidable (cache.index.CountsFit _))

section Capacity

variable {cache : SequenceCache R} {tokens : List Token} {sequence : SequenceId}
variable {record : SequenceRecord R.AppendTransaction} {snapshot : R.Snapshot} {bytes : ℕ}

/-- A key can be prepared only if its counts fit, and overflows only if they do not. -/
theorem prepareKey_counts (hinv : Inv [] [] cache) (tokens : List Token) :
    (∀ prepared index', PrefixIndex.prepareKey tokens cache.config.pageTokens cache.index =
        .ok prepared index' → CountsFit cache tokens) ∧
      ∀ index', PrefixIndex.prepareKey tokens cache.config.pageTokens cache.index =
        .error (.error .arithmeticOverflow) index' → ¬ CountsFit cache tokens := by
  have hconsistent := hinv.filed.table.toConsistent
  obtain ⟨hfit, hover⟩ := PrefixIndex.internBlocks_counts hconsistent
    (chunksExact cache.config.pageTokens tokens) (.refl hconsistent)
  unfold PrefixIndex.prepareKey
  cases hrun : PrefixIndex.internBlocks (chunksExact cache.config.pageTokens tokens) []
    cache.index with
  | ok ids index'' =>
      rw [bind_ok hrun]
      exact ⟨fun _ _ _ => hfit ids index'' hrun, fun _ herror => (by cases herror)⟩
  | error failure index'' =>
      rw [bind_error hrun]
      refine ⟨fun _ _ hok => (by cases hok), fun _ herror => ?_⟩
      cases herror
      exact hover _ hrun

theorem candidates_none (cache : SequenceCache R) : cache.candidates none = cache.recency := by
  apply List.filter_eq_self.mpr
  intro id _
  exact decide_eq_true (Option.some_ne_none id)

/-- The credit for evicting every entry. -/
theorem creditOf_all (hinv : Inv [] [] cache) :
    cache.creditOf (cache.pagesOf cache.recency) * cache.pageBytes =
      if R.retirementIsImmediate cache.backend then cache.stats.reclaimablePrefixOnlyBytes
      else 0 := by
  have hmem : ∀ id, id ∈ cache.recency ↔ ∃ entry, cache.prefixes[id]? = some entry :=
    fun id => mem_recency hinv.ranked
  have hall : ∀ id ∈ cache.prefixes, id ∈ cache.recency := fun id hlive =>
    (hmem id).mpr (Option.isSome_iff_exists.mp (ExtTreeMap.mem_iff_isSome_getElem?.mp hlive))
  have hbatch := evictionBatch_perm cache cache.recency
  have hreclaimable := mem_evictionBatch_all hinv (nodup_recency hinv.ranked)
    (fun id hlive => (hmem id).mp hlive) hall
  unfold creditOf
  split_ifs with himmediate
  · rw [hinv.counted.reclaimable, ← hbatch.length_eq,
      Arena.countP_eq_length (hbatch.nodup_iff.mpr (nodup_freedBy cache _)) hreclaimable]
  · exact Nat.zero_mul _

theorem snapshotsOf_all (hinv : Inv [] [] cache) :
    cache.snapshotsOf cache.recency = cache.stats.retainedSnapshotBytes := by
  have hmem : ∀ id, id ∈ cache.recency ↔ ∃ entry, cache.prefixes[id]? = some entry :=
    fun id => mem_recency hinv.ranked
  have hempty : eraseAll cache.prefixes cache.recency = ∅ := eraseAll_all fun id hlive =>
    (hmem id).mpr (Option.isSome_iff_exists.mp (ExtTreeMap.mem_iff_isSome_getElem?.mp hlive))
  have htotal := mapTotal_eraseAll PrefixEntry.snapshotBytes (nodup_recency hinv.ranked)
    fun id hlive => (hmem id).mp hlive
  rw [hempty, mapTotal_empty, Nat.zero_add] at htotal
  rw [hinv.counted.snapshot, htotal]
  rfl

/-- There is no plan exactly when even an empty cache could not hold the entry. -/
theorem Sound.retainPlan_eq_none (h : Sound cache)
    (hfits : R.retainedBytes snapshot ≤ cache.config.maxSnapshotBytes) :
    cache.retainPlan snapshot = .ok none ↔ ¬ CouldHold cache (R.retainedBytes snapshot) := by
  have hsize := size_eq_length_recency h.inv.ranked
  have hpages := h.within.pages
  have hcredit := creditOf_all h.inv
  have hsnapshots := snapshotsOf_all h.inv
  have hentries : 1 ≤ cache.config.maxPrefixEntries.getD usizeMax ↔
      cache.config.maxPrefixEntries ≠ some 0 := by
    cases cache.config.maxPrefixEntries with
    | none => exact iff_of_true (by decide) (Option.some_ne_none 0).symm
    | some limit => simp [Nat.one_le_iff_ne_zero]
  rw [h.retainPlan_eq hfits, Except.ok.injEq]
  refine (find?_inits_eq_none ?_).trans ?_
  · exact fun shorter hsegment => accommodates_candidates h.inv hsegment
  rw [← Bool.not_eq_true, not_iff_not, candidates_none]
  simp only [accommodates, Bool.and_eq_true, decide_eq_true_eq, hcredit, hsnapshots]
  constructor
  · rintro ⟨⟨⟨hbytes, -⟩, -⟩, hcount⟩
    exact ⟨hentries.mp (by omega), by omega⟩
  · rintro ⟨hentry, hbytes⟩
    have := hentries.mpr hentry
    refine ⟨⟨⟨?_, ?_⟩, ?_⟩, ?_⟩ <;> omega

/-- How a retention ends within the limits, as long as there are identities. -/
theorem Sound.retainPrefix_cases (h : Sound cache) (hlaw : R.Retires)
    (hretainable : Retainable cache sequence tokens record)
    (hnext : cache.nextPrefixId ≠ usizeMax) (snapshot : R.Snapshot) (context : R.Context) :
    (cache.config.maxSnapshotBytes < R.retainedBytes snapshot ∧
        outcome (retainPrefix sequence tokens snapshot context cache) =
          .error (.error .snapshotCapacity)) ∨
      R.retainedBytes snapshot ≤ cache.config.maxSnapshotBytes ∧
        ((∃ error index', (error = .arithmeticOverflow ∨ error = .idExhausted "token block") ∧
            PrefixIndex.prepareKey (tokens.take record.position) cache.config.pageTokens
              cache.index = .error (.error error) index' ∧
            outcome (retainPrefix sequence tokens snapshot context cache) =
              .error (.error error)) ∨
          CountsFit cache (tokens.take record.position) ∧
            ((cache.retainPlan snapshot = .ok none ∧
                outcome (retainPrefix sequence tokens snapshot context cache) =
                  .error (.error (if cache.stats.retainedSnapshotBytes + R.retainedBytes snapshot >
                    cache.config.maxSnapshotBytes then .snapshotCapacity else .prefixCapacity))) ∨
              (∃ plan, cache.retainPlan snapshot = .ok (some plan)) ∧
                ((∃ id, outcome (retainPrefix sequence tokens snapshot context cache) =
                    .ok (.inserted id)) ∨
                  ∃ interned ids failure, Refused interned ids context failure ∧
                    outcome (retainPrefix sequence tokens snapshot context cache) =
                      .error failure))) := by
  have hcounts : ∀ {stray blocks interned}, @Interns R cache interned stray blocks
      (tokens.take record.position) → CountsFit cache (tokens.take record.position) := by
    intro stray blocks interned hinterns
    exact (prepareKey_counts h.inv _).1 _ _ hinterns.prepared
  have hsize : cache.prefixes.size ≠ usizeMax := by
    have := h.inv.size_le
    have := h.inv.ids_bounded
    omega
  have hspec := retainPrefix_spec hlaw h.inv sequence tokens snapshot context
  cases hrun : retainPrefix sequence tokens snapshot context cache with
  | ok result cache' =>
      rw [hrun] at hspec
      obtain ⟨-, hretains⟩ := hspec
      cases hretains with
      | duplicate hlive hexact _ =>
          obtain rfl := hretainable.record_eq hlive
          rw [hretainable.absent] at hexact
          cases hexact
      | inserted hother _ hinterns hfits hplan _ _ =>
          obtain rfl := hretainable.record_eq hother.live
          exact Or.inr ⟨hfits, Or.inr ⟨hcounts hinterns, Or.inr ⟨⟨_, hplan⟩, Or.inl ⟨_, rfl⟩⟩⟩⟩
  | error failure cache' =>
      rw [hrun] at hspec
      cases hspec with
      | stale hnone =>
          rw [hretainable.live] at hnone
          cases hnone
      | invalid hlive hinvalid =>
          obtain rfl := hretainable.record_eq hlive
          exact absurd hinvalid hretainable.not_invalid
      | crowded _ _ hfull _ => exact absurd hfull hsize
      | oversized _ hover => exact Or.inl ⟨hover, rfl⟩
      | uncountable _ hfull => exact absurd hfull hsize
      | unkeyed hother hfits herror hprepare _ =>
          obtain rfl := hretainable.record_eq hother.live
          exact Or.inr ⟨hfits, Or.inl ⟨_, _, herror, hprepare, rfl⟩⟩
      | full hother hfits hinterns hnone _ =>
          obtain rfl := hretainable.record_eq hother.live
          exact Or.inr ⟨hfits, Or.inr ⟨hcounts hinterns, Or.inl ⟨hnone, rfl⟩⟩⟩
      | refused hother hfits hinterns hplan _ hrefused _ =>
          obtain rfl := hretainable.record_eq hother.live
          exact Or.inr ⟨hfits, Or.inr ⟨hcounts hinterns, Or.inr ⟨⟨_, hplan⟩,
            Or.inr ⟨_, _, _, hrefused, rfl⟩⟩⟩⟩
      | overflown _ hfits hover _ _ _ =>
          have hplan := h.retainPlan_eq hfits
          rw [retainPlan_overflow hover] at hplan
          cases hplan
      | unnumbered _ _ _ hfull _ _ _ => exact absurd hfull hnext

/-- Within the limits, the reported kind is right exactly when the snapshot itself is too
large, or when the counts have room and, if nothing can make enough room, the snapshot limit
would not have been exceeded even without evictions. -/
theorem Sound.reportsTruthfully_iff (h : Sound cache) (hlaw : R.Retires)
    (hretires : ∀ history context pages failure,
      R.retirePages history context pages ≠ .error failure)
    (hretainable : Retainable cache sequence tokens record)
    (hnext : cache.nextPrefixId ≠ usizeMax) (snapshot : R.Snapshot) (context : R.Context)
    (hids : ∀ kind, outcome (retainPrefix sequence tokens snapshot context cache) ≠
      .error (.error (.idExhausted kind))) :
    ReportsTruthfully cache (R.retainedBytes snapshot)
        (outcome (retainPrefix sequence tokens snapshot context cache)) ↔
      cache.config.maxSnapshotBytes < R.retainedBytes snapshot ∨
        CountsFit cache (tokens.take record.position) ∧
          (CouldHold cache (R.retainedBytes snapshot) ∨
            cache.stats.retainedSnapshotBytes + R.retainedBytes snapshot ≤
              cache.config.maxSnapshotBytes) := by
  rcases h.retainPrefix_cases hlaw hretainable hnext snapshot context with
    ⟨hover, hresult⟩ | ⟨hfits, ⟨error, index', herror, hprepare, hresult⟩ | ⟨hcounts,
      ⟨hnone, hresult⟩ | ⟨⟨plan, hplan⟩, ⟨id, hresult⟩ | ⟨interned, ids, failure, hrefused,
        hresult⟩⟩⟩⟩
  · rw [hresult]
    refine iff_of_true ⟨iff_of_true rfl hover, ?_, ?_⟩ (Or.inl hover)
    · simp [Nat.not_le_of_lt hover]
    · simp [Nat.not_le_of_lt hover]
  · rcases herror with rfl | rfl
    · rw [hresult]
      refine iff_of_false (fun htruthful => ?_) ?_
      · by_cases hcould : CouldHold cache (R.retainedBytes snapshot)
        · obtain ⟨id, hid⟩ := htruthful.inserted.mpr ⟨hfits, hcould⟩
          cases hid
        · cases htruthful.entry.mpr ⟨hfits, hcould⟩
      · rintro (hover | ⟨hcounts, -⟩)
        · exact Nat.not_le_of_lt hover hfits
        · exact (prepareKey_counts h.inv _).2 index' hprepare hcounts
    · exact absurd hresult (hids _)
  · have hcould := (h.retainPlan_eq_none hfits).mp hnone
    rw [hresult]
    split_ifs with hlarge
    · refine iff_of_false (fun htruthful => ?_) ?_
      · exact Nat.not_le_of_lt (htruthful.snapshot.mp rfl) hfits
      · rintro (hover | ⟨-, hholds | hsmall⟩)
        · exact Nat.not_le_of_lt hover hfits
        · exact hcould hholds
        · exact Nat.not_le_of_lt hlarge hsmall
    · refine iff_of_true ⟨?_, iff_of_true rfl ⟨hfits, hcould⟩, ?_⟩
        (Or.inr ⟨hcounts, Or.inr (Nat.le_of_not_lt hlarge)⟩)
      · simp [hfits]
      · simp [hcould]
  · have hcould : CouldHold cache (R.retainedBytes snapshot) := by
      by_contra hnot
      rw [(h.retainPlan_eq_none hfits).mpr hnot] at hplan
      cases hplan
    rw [hresult]
    refine iff_of_true ⟨?_, ?_, iff_of_true ⟨id, rfl⟩ ⟨hfits, hcould⟩⟩
      (Or.inr ⟨hcounts, Or.inl hcould⟩)
    · simp [hfits]
    · simp [hcould]
  · rcases hrefused with ⟨rfl, -⟩ | ⟨answer, physical, -, -, hanswer, -⟩
    · exact absurd hresult (hids _)
    · exact absurd hanswer (hretires _ _ _ _)

end Capacity

/-- In every state reached without exhausting an identity space, over an honest backend that
does not fail, a retention of a new prefix reports a missing capacity truthfully exactly when
its snapshot exceeds the limit on its own, or when the counts of its blocks have room and
either something can make enough room or its snapshot would fit without evictions. -/
theorem retainPrefix_truthful_iff (hlaw : R.Lawful) (hhonest : R.ImmediateHonest)
    (hretires : ∀ history context pages failure,
      R.retirePages history context pages ≠ .error failure)
    {config : CacheConfig} {start cache : SequenceCache R}
    (hnew : SequenceCache.new R config = .ok start) (hreach : ReachesIntact start cache)
    {sequence : SequenceId} {tokens : List Token} {record : SequenceRecord R.AppendTransaction}
    (hretainable : Retainable cache sequence tokens record)
    (hnext : cache.nextPrefixId ≠ usizeMax) (snapshot : R.Snapshot) (context : R.Context)
    (hids : ∀ kind, outcome (retainPrefix sequence tokens snapshot context cache) ≠
      .error (.error (.idExhausted kind))) :
    ReportsTruthfully cache (R.retainedBytes snapshot)
        (outcome (retainPrefix sequence tokens snapshot context cache)) ↔
      cache.config.maxSnapshotBytes < R.retainedBytes snapshot ∨
        CountsFit cache (tokens.take record.position) ∧
          (CouldHold cache (R.retainedBytes snapshot) ∨
            cache.stats.retainedSnapshotBytes + R.retainedBytes snapshot ≤
              cache.config.maxSnapshotBytes) :=
  (ReachesIntact.sound hreach hlaw.toRetires hhonest (sound_of_new hnew)).reportsTruthfully_iff
    hlaw.toRetires hretires hretainable hnext snapshot context hids

/-- A snapshot of two bytes fits. -/
theorem retainPrefix_truthful_iff_crowded :
    ReportsTruthfully (R := Reference.plain) (Reference.after Reference.crowded) 2
      (outcome (retainPrefix (R := Reference.plain) ⟨0, 1⟩ [2, 2] 2 8
        (Reference.after Reference.crowded))) := by
  have hreach : ReachesIntact Reference.start (Reference.after Reference.crowded) :=
    Reference.reachesIntact_after (by decide +kernel)
  have hresult : outcome (retainPrefix (R := Reference.plain) ⟨0, 1⟩ [2, 2] 2 8
      (Reference.after Reference.crowded)) = .ok (.inserted 1) := by decide +kernel
  have hfacts : (Reference.after Reference.crowded).nextPrefixId ≠ usizeMax ∧
      (Reference.after Reference.crowded).stats.retainedSnapshotBytes + 2 ≤
        (Reference.after Reference.crowded).config.maxSnapshotBytes ∧
      CountsFit (R := Reference.plain) (Reference.after Reference.crowded) [2, 2] := by
    decide +kernel
  obtain ⟨hnext, hsmall, hcounts⟩ := hfacts
  have hretainable := retainable_crowded
  generalize Reference.after Reference.crowded = cache at *
  have hids : ∀ kind, outcome (retainPrefix (R := Reference.plain) ⟨0, 1⟩ [2, 2] 2 8 cache) ≠
      .error (.error (.idExhausted kind)) := by
    intro kind hkind
    rw [hresult] at hkind
    cases hkind
  exact (retainPrefix_truthful_iff Reference.plain_lawful Reference.plain_immediateHonest
    (fun _ _ _ _ h => by cases h) Reference.new_start hreach hretainable hnext 2 8 hids).mpr
    (Or.inr ⟨hcounts, Or.inr hsmall⟩)

/-- Thirteen bytes would fit the snapshot limit once the entry is gone, but not the budget:
yet the snapshot limit is blamed. -/
theorem retainPrefix_misreports :
    ReachesIntact Reference.start (Reference.after Reference.crowded) ∧
      Retainable (Reference.after Reference.crowded) ⟨0, 1⟩ [2, 2] Reference.crowdedRecord ∧
      outcome (retainPrefix (R := Reference.plain) ⟨0, 1⟩ [2, 2] 13 8
        (Reference.after Reference.crowded)) = .error (.error .snapshotCapacity) ∧
      13 ≤ (Reference.after Reference.crowded).config.maxSnapshotBytes ∧
      ¬ ReportsTruthfully (R := Reference.plain) (Reference.after Reference.crowded) 13
        (outcome (retainPrefix (R := Reference.plain) ⟨0, 1⟩ [2, 2] 13 8
          (Reference.after Reference.crowded))) := by
  have hresult : outcome (retainPrefix (R := Reference.plain) ⟨0, 1⟩ [2, 2] 13 8
      (Reference.after Reference.crowded)) = .error (.error .snapshotCapacity) := by
    decide +kernel
  have hfits : 13 ≤ (Reference.after Reference.crowded).config.maxSnapshotBytes := by
    decide +kernel
  refine ⟨Reference.reachesIntact_after (by decide +kernel), retainable_crowded, hresult, hfits,
    fun htruthful => ?_⟩
  exact Nat.not_le_of_lt (htruthful.snapshot.mp hresult) hfits

end SequenceCache

/-! ## A run that uses up the identities of entries -/

namespace Reference

/-- A sequence of four rows, retained under two blocks. -/
def retaining : List (Operation plain) :=
  [admission 7, .reserveAppend ⟨0, 0⟩ 4 7,
    .commitAppend ⟨⟨0, 0⟩, 0, 4, [⟨⟨0, 0⟩, 0, 0, 2⟩, ⟨⟨1, 0⟩, 0, 2, 2⟩], 0⟩ 4 7,
    .retainPrefix ⟨0, 0⟩ [1, 1, 2, 2] 0 7]

/-- Retain the sequence under the first of the blocks, twice. -/
def retainAgain : Operation plain := .retainPrefix ⟨0, 0⟩ [1, 1, 1, 1] 0 7

def evictAgain (id : PrefixEntryId) : Operation plain := .evictPrefix id 7

/-- Retain and evict again, `count` times. -/
def churn : ℕ → List (Operation plain)
  | 0 => []
  | count + 1 => churn count ++ [retainAgain, evictAgain (count + 1)]

open SequenceCache

/-- What a retention under the first block relies on, after `count` entries were evicted. -/
structure Churned (count : ℕ) (cache : SequenceCache plain) : Prop where
  sound : Sound cache
  config : cache.config = Reference.config
  live : ∃ record, cache.sequences.get? ⟨0, 0⟩ = some record ∧ record.position = 4
  block : cache.index.tokensOf 0 = some [1, 1]
  held : blockCount cache.prefixes [] 0 = 1
  size : cache.prefixes.size = 1
  keys : ∀ (id : PrefixEntryId) (entry : PrefixEntry ℕ), cache.prefixes[id]? = some entry →
    entry.key ≠ keyOf [0, 0]
  next : cache.nextPrefixId = count + 1

variable {count : ℕ} {cache : SequenceCache plain}

theorem Churned.table (h : Churned count cache) :
    cache.index.Interned 2 (blockCount cache.prefixes []) := by
  have htable := h.sound.inv.filed.table
  rw [h.config] at htable
  exact htable

theorem Churned.blocks_eq (h : Churned count cache) :
    [0, 0].map cache.index.tokensOf = (chunksExact 2 [1, 1, 1, 1]).map some := by
  rw [List.map_cons, List.map_cons, h.block]
  rfl

theorem Churned.retainable (h : Churned count cache) : ∃ record,
    record.position = 4 ∧ Retainable cache ⟨0, 0⟩ [1, 1, 1, 1] record := by
  obtain ⟨record, hlive, hposition⟩ := h.live
  refine ⟨record, hposition, hlive, by omega, by rw [hposition, h.config]; rfl, by
    rw [hposition]; exact le_rfl, ?_⟩
  rw [hposition, h.config]
  change cache.index.exact [1, 1, 1, 1] 2 = none
  rw [PrefixIndex.exact_eq h.table h.blocks_eq (by simp), Option.eq_none_iff_forall_ne_some]
  intro id hid
  obtain ⟨entry, hentry, hkey⟩ := (h.sound.inv.filed.tree _ id).mp hid
  exact h.keys id entry hentry hkey

theorem Churned.interned (h : Churned count cache) : ∃ prepared index',
    PrefixIndex.prepareKey [1, 1, 1, 1] cache.config.pageTokens cache.index =
      .ok prepared index' := by
  have hknown : ∀ block ∈ chunksExact 2 ([1, 1, 1, 1] : List Token), ∃ id,
      cache.index.byTokens[block]? = some id ∧ blockCount cache.prefixes [] id + 2 ≤ usizeMax := by
    intro block hmem
    obtain rfl : block = [1, 1] := by simpa [chunksExact, chunks] using hmem
    refine ⟨0, h.table.byTokens_iff.mpr h.block, ?_⟩
    rw [h.held]
    decide
  obtain ⟨ids, index', hrun⟩ := PrefixIndex.internBlocks_known h.table.toConsistent _ hknown []
  rw [h.config]
  exact ⟨⟨keyOf ids, ids⟩, index', by rw [PrefixIndex.prepareKey]; exact bind_ok hrun⟩

/-- An entry without a snapshot fits without evictions. -/
theorem Churned.plan_eq (h : Churned count cache) :
    @retainPlan plain cache (0 : ℕ) = .ok (some []) := by
  rw [h.sound.retainPlan_eq (Nat.zero_le _)]
  congr 1
  rw [find?_inits_eq_some]
  refine ⟨List.nil_prefix, ?_, fun shorter _ hshorter => absurd hshorter (Nat.not_lt_zero _)⟩
  have hbytes := h.sound.within.bytes
  have hpages := h.sound.within.pages
  have hsnapshots := h.sound.inv.budgeted.snapshot_le
  have hentries : cache.config.maxPrefixEntries.getD usizeMax = usizeMax := by
    rw [h.config]
    rfl
  have hbound : 2 ≤ usizeMax := by decide
  simp only [accommodates, Bool.and_eq_true, decide_eq_true_eq, hentries, h.size, id_eq,
    List.length_nil]
  omega

/-- The only pages of the new entry are those of the sequence, so its eviction retires none. -/
theorem evictPrefix_held {middle : SequenceCache plain} (hinv : Inv [] [] middle)
    {sequence : SequenceId} {record : SequenceRecord Unit}
    (hrecord : middle.sequences.get? sequence = some record) {id : PrefixEntryId}
    {entry : PrefixEntry ℕ} (hentry : middle.prefixes[id]? = some entry)
    (hpages : entry.pages = record.pages) :
    ∃ cache' retired physical deferred, evictPrefix (R := plain) id 7 middle = .ok () cache' ∧
      Evicted (R := plain) middle cache' [id] 7 retired physical deferred := by
  have hspec := evictPrefix_spec plain_lawful.toRetires hinv id 7
  have hnone : ∀ page, page ∉ middle.evictionBatch [id] := by
    intro page hmem
    have hfreed := (evictionBatch_perm middle [id]).subset hmem
    obtain ⟨found, hfound, hin⟩ :=
      mem_pagesOf.mp (List.mem_dedup.mp (List.mem_filter.mp hfreed).1)
    obtain ⟨other, hother, hmem'⟩ := hin
    obtain rfl := List.mem_singleton.mp hfound
    obtain rfl : entry = other := Option.some.inj (hentry.symm.trans hother)
    rw [hpages] at hmem'
    exact held_not_evicted hinv hrecord (mem_pages_heldPages hmem') hmem
  cases hrun : evictPrefix (R := plain) id 7 middle with
  | ok value cache' =>
      rw [hrun] at hspec
      obtain ⟨-, -, retired, physical, deferred, hevicted⟩ := hspec
      exact ⟨cache', retired, physical, deferred, rfl, hevicted⟩
  | error failure cache' =>
      rw [hrun] at hspec
      rcases hspec with ⟨-, hnot, -⟩ | ⟨-, ⟨-, page, hmem, -⟩ | ⟨answer, physical, -, -, -, hne⟩, -⟩
      · refine absurd (ExtTreeMap.mem_iff_isSome_getElem?.mpr ?_) hnot
        rw [hentry]
        rfl
      · exact absurd hmem (hnone page)
      · exact absurd (List.eq_nil_iff_forall_not_mem.mpr hnone) hne

/-- One retention and its eviction lead back, except that an identity is used up. -/
theorem Churned.cycle (h : Churned count cache) (hlt : count + 1 < usizeMax) :
    Churned (count + 1) (runAll Operation.step [retainAgain, evictAgain (count + 1)] cache) := by
  obtain ⟨record, hposition, hretainable⟩ := h.retainable
  have hinterned := h.interned
  have hsize : cache.prefixes.size ≠ usizeMax := by
    rw [h.size]
    decide
  have hnext : cache.nextPrefixId ≠ usizeMax := by
    rw [h.next]
    omega
  rcases retains_or_refused plain_lawful.toRetires h.sound.inv hretainable (Nat.zero_le _) hsize
      (by rw [hposition]; exact hinterned) h.plan_eq hnext 7 with
    ⟨middle, hrun, hmiddle, blocks, interned, evicted, retired, physical, deferred, hne, hinterns,
      hevicted, hretained⟩ |
    ⟨failure, cache', blocks, interned, -, -, ⟨-, id, hmem, -⟩ | ⟨_, _, -, -, -, hne⟩⟩
  rotate_left
  · cases hmem
  · exact absurd rfl hne
  have hid : evicted.nextPrefixId = count + 1 := by
    rw [hevicted.nextPrefixId, hinterns.state]
    exact h.next
  obtain ⟨retimed, hretimed, hprefixes⟩ := hretained.prefixes
  have hevicted_prefixes : evicted.prefixes = cache.prefixes := by
    rw [hevicted.prefixes, hinterns.state]
    rfl
  rw [hevicted_prefixes] at hretimed
  rw [hid] at hprefixes
  have hentry : middle.prefixes[count + 1]? =
      some (retainedEntry record blocks (0 : ℕ) middle.clock) := by
    rw [hprefixes, ExtTreeMap.getElem?_insert_self]
  have hrecord : middle.sequences.get? ⟨0, 0⟩ = some record := by
    rw [hretained.state]
    exact hretained.live
  obtain ⟨cache', retired', physical', deferred', hrun', hevicted'⟩ :=
    evictPrefix_held hmiddle hrecord hentry rfl
  have hfresh : cache.prefixes[count + 1]? = none := by
    rw [ExtTreeMap.getElem?_eq_none]
    intro hmem
    have hbelow := h.sound.inv.ids_below _ hmem
    rw [h.next] at hbelow
    exact Nat.lt_irrefl _ hbelow
  have hfinal : Retimed cache.prefixes cache'.prefixes := by
    rw [hevicted'.prefixes, hprefixes]
    exact hretimed.eraseAll_insert hfresh _
  have hretained_run : retainAgain.run cache = .ok (.retained (.inserted cache.nextPrefixId))
      middle := map_ok Reply.retained hrun
  have hevicted_run : (evictAgain (count + 1)).run middle = .ok .done cache' :=
    map_ok (fun _ => Reply.done) hrun'
  have hsound : Sound middle := by
    apply h.sound.ok plain_lawful.toRetires plain_immediateHonest hretained_run
    rintro kind ⟨⟩
  have hsound' : Sound cache' := by
    apply hsound.ok plain_lawful.toRetires plain_immediateHonest hevicted_run
    rintro kind ⟨⟩
  have hstate : runAll Operation.step [retainAgain, evictAgain (count + 1)] cache = cache' := by
    simp only [runAll, Operation.step]
    rw [hretained_run, finalState_ok, hevicted_run, finalState_ok]
  rw [hstate]
  have hconfig : cache'.config = Reference.config := by
    rw [hevicted'.config, hretained.state]
    change evicted.config = _
    rw [hevicted.config, hinterns.state]
    exact h.config
  have hheld : blockCount cache'.prefixes [] 0 = 1 := by
    rw [blockCount, hfinal.total_eq _ fun _ => rfl]
    exact h.held
  have htable := hsound'.inv.filed.table
  have hsome : (cache'.index.tokensOf 0).isSome := by
    rw [htable.isSome_iff, hheld]
    exact Nat.one_pos
  obtain ⟨tokens, htokens⟩ := Option.isSome_iff_exists.mp hsome
  -- The block was interned all along, so its tokens are the same.
  have hblock : tokens = [1, 1] := by
    have hmiddle_tokens := hevicted'.tokens 0 tokens htokens
    rw [hretained.state] at hmiddle_tokens
    have hbefore := hevicted.tokens 0 tokens hmiddle_tokens
    rw [hinterns.table.tokens 0 [1, 1] h.block] at hbefore
    exact (Option.some.inj hbefore).symm
  refine ⟨hsound', hconfig, ⟨record, ?_, hposition⟩, hblock ▸ htokens, hheld, ?_, ?_, ?_⟩
  · rw [hevicted'.sequences]
    exact hrecord
  · rw [hfinal.size_eq]
    exact h.size
  · intro id entry hentry
    obtain ⟨old, hold, huntimed⟩ := hfinal.of_new hentry
    have hkey : entry.key = old.key := congrArg (fun entry => entry.key) huntimed
    rw [hkey]
    exact h.keys id old hold
  · rw [hevicted'.nextPrefixId, hretained.state]
    change evicted.nextPrefixId + 1 = _
    rw [hid]

/-- The state after `count` entries were retained and evicted again. -/
def churned (count : ℕ) : SequenceCache plain := after (retaining ++ churn count)

theorem churned_zero : Churned 0 (churned 0) := by
  have hreach : ReachesIntact start (churned 0) := reachesIntact_after (by decide +kernel)
  have hfacts : (churned 0).config = config ∧
      ((churned 0).sequences.get? ⟨0, 0⟩).map SequenceRecord.position = some 4 ∧
      (churned 0).index.tokensOf 0 = some [1, 1] ∧ blockCount (churned 0).prefixes [] 0 = 1 ∧
      (churned 0).prefixes.size = 1 ∧
      (∀ item ∈ (churned 0).prefixes.toList, item.2.key ≠ keyOf [0, 0]) ∧
      (churned 0).nextPrefixId = 1 := by decide +kernel
  obtain ⟨hconfig, hposition, hblock, hheld, hsize, hkeys, hnext⟩ := hfacts
  obtain ⟨record, hrecord, hposition⟩ := Option.map_eq_some_iff.mp hposition
  exact ⟨ReachesIntact.sound hreach plain_lawful.toRetires plain_immediateHonest
    (sound_of_new new_start),
    hconfig, ⟨record, hrecord, hposition⟩, hblock, hheld, hsize, fun id entry hentry =>
      hkeys (id, entry) (ExtTreeMap.mem_toList_iff_getElem?_eq_some.mpr hentry), hnext⟩

/-- Every identity but the last can be used up by retaining and evicting. -/
theorem churned_reached (hlt : count + 1 ≤ usizeMax) :
    Reaches start (churned count) ∧ Churned count (churned count) := by
  induction count with
  | zero =>
      exact ⟨ReachesIntact.reaches (reachesIntact_after (by decide +kernel)), churned_zero⟩
  | succ count ih =>
      obtain ⟨hreach, hchurned⟩ := ih (Nat.le_of_succ_le hlt)
      have hstate : churned (count + 1) =
          runAll Operation.step [retainAgain, evictAgain (count + 1)] (churned count) := by
        rw [churned, after, churn, ← List.append_assoc, runAll_append]
        rfl
      rw [hstate]
      refine ⟨?_, hchurned.cycle hlt⟩
      exact (hreach.step retainAgain trivial).step (evictAgain (count + 1)) trivial

end Reference

namespace SequenceCache

/-- With the last identity, a retention is refused after it has interned its blocks. -/
theorem retainPrefix_litters :
    Reaches Reference.start (Reference.churned (usizeMax - 1)) ∧
      ¬ ∀ error cache', retainPrefix (R := Reference.plain) ⟨0, 0⟩ [1, 1, 1, 1] 0 7
          (Reference.churned (usizeMax - 1)) = .error (.error error) cache' →
        Undone (Reference.churned (usizeMax - 1)) cache' := by
  have hpos : usizeMax - 1 + 1 = usizeMax := by decide
  obtain ⟨hreach, hchurned⟩ := Reference.churned_reached hpos.le
  refine ⟨hreach, ?_⟩
  obtain ⟨record, hposition, hretainable⟩ := hchurned.retainable
  rw [undone_iff_not_failsLate Reference.plain_lawful.toRetires hchurned.sound.inv]
  intro hearly
  refine hearly record hretainable ⟨Nat.zero_le _, ?_, ?_, Or.inr (Or.inr ⟨⟨[], ?_⟩, ?_⟩)⟩
  · rw [hchurned.size]
    decide
  · rw [hposition]
    exact hchurned.interned
  · exact hchurned.plan_eq
  · rw [hchurned.next, hpos]

end SequenceCache

end SeqCache
