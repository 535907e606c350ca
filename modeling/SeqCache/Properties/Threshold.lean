import SeqCache.Invariant.Checks
import SeqCache.Run.Reachable

/-!
# The admission threshold

`refreshStats` computes `free_pages` with saturating subtractions and a rounded division,
and looks at bytes and page slots only.  `admitSequence` compares checked sums with four
limits.  In every state reached without exhausting an identity space the two agree, as long
as the number of pages asked for can be computed at all.
-/

namespace SeqCache

open Machine Program Std

variable {R : Runtime}

namespace SequenceCache

variable {cache : SequenceCache R} {orphans : List PageId} {stray : List TokenBlockId}

/-! ## A poll that reports nothing -/

/-- Without ghosts, the statistics are what `refreshStats` computes. -/
theorem refresh_of_inv (hinv : Inv [] [] cache) : cache.refresh = cache := by
  unfold refresh
  rw [refreshed_of_inv hinv, ← hinv.published.gauges_eq]

/-- The cache after a poll that reported no page. -/
def polled (cache : SequenceCache R) (context : R.Context) : SequenceCache R :=
  { cache with backend := .pollReclaimed context (.ok 0) :: cache.backend }

theorem polled_inv (hinv : Inv orphans stray cache) (context : R.Context) :
    Inv orphans stray (cache.polled context) := by
  apply (Quiet.ofBackend _).inv hinv
  simp [deferredTotal]

theorem reclaimDeferred_nothing (hinv : Inv [] [] cache) {context : R.Context}
    (hpoll : R.pollReclaimed cache.backend context = .ok 0) :
    reclaimDeferred context cache = .ok 0 (cache.polled context) := by
  have hpolled := polled_inv hinv context
  obtain ⟨hrefresh, -⟩ := hpolled.ready.refresh
  rw [refresh_of_inv hpolled] at hrefresh
  have hcall : callPollReclaimed context cache = .ok (.ok 0) (cache.polled context) := by
    rw [← hpoll]
    unfold polled
    rw [← hpoll]
    rfl
  unfold reclaimDeferred
  rw [bind_ok hcall]
  simp only
  rw [get_bind_run, ensure_pos (Nat.zero_le _), pure_bind_run, modify_bind_run]
  exact (bind_ok hrefresh).trans (pure_run _ _)

/-! ## What the statistics say -/

/-- Without evictions, nothing is counted as freed. -/
theorem accommodates_nil {extraBytes extraPages byteLimit snapshots entries : ℕ} :
    cache.accommodates extraBytes extraPages byteLimit snapshots entries [] = true ↔
      cache.stats.totalManagedBytes + extraBytes ≤ byteLimit ∧
      cache.stats.residentPages + cache.stats.reservedPages + extraPages ≤ cache.pageCapacity ∧
      snapshots ≤ cache.config.maxSnapshotBytes ∧
      entries ≤ cache.config.maxPrefixEntries.getD usizeMax := by
  have hcredit : cache.creditOf (cache.pagesOf []) = 0 := by
    unfold creditOf freedBy pagesOf valuesOf
    simp
  have hshed : cache.snapshotsOf [] = 0 := rfl
  simp only [accommodates, hcredit, hshed, List.length_nil, Nat.zero_mul, Nat.add_zero,
    Bool.and_eq_true, decide_eq_true_eq, and_assoc]

theorem Plan.accommodates {extraBytes extraPages byteLimit snapshots entries : ℕ}
    {protectedEntry : Option PrefixEntryId} {plan : List PrefixEntryId}
    (h : Plan cache extraBytes extraPages byteLimit protectedEntry snapshots entries plan) :
    cache.accommodates extraBytes extraPages byteLimit snapshots entries plan = true := by
  simp only [SequenceCache.accommodates, Bool.and_eq_true, decide_eq_true_eq]
  exact ⟨⟨⟨h.bytes_le, h.pages_le⟩, h.snapshots_le⟩, h.entries_le⟩

/-- `free_pages` counts the pages that fit without any eviction. -/
theorem Sound.le_freePages_iff (h : Sound cache) (pages : ℕ) :
    pages ≤ cache.stats.freePages ↔
      cache.accommodates (pages * cache.pageBytes) pages cache.config.maxManagedBytes
        cache.stats.retainedSnapshotBytes cache.prefixes.size [] = true := by
  have hbytes := h.within.bytes
  have hpages := h.within.pages
  have htotal := h.inv.total_eq
  have hdouble := h.inv.double_le
  have hfree : cache.stats.freePages =
      min ((cache.config.maxManagedBytes - cache.stats.totalManagedBytes) / cache.pageBytes)
        (cache.pageCapacity - saturatingAdd cache.stats.residentPages
          cache.stats.reservedPages) := by
    rw [htotal]
    exact congrArg StatsOf.freePages h.inv.published.stats_eq
  have hsum : saturatingAdd cache.stats.residentPages cache.stats.reservedPages =
      cache.stats.residentPages + cache.stats.reservedPages := by
    have hresident := h.inv.resident_le_mul cache.stats.residentPages
    have hreserved := h.inv.resident_le_mul cache.stats.reservedPages
    unfold chargedBytes at htotal
    exact min_eq_left (by omega)
  have hsnapshots := h.inv.budgeted.snapshot_le
  have hentries : cache.prefixes.size ≤ cache.config.maxPrefixEntries.getD usizeMax := by
    cases hlimit : cache.config.maxPrefixEntries with
    | none => exact h.inv.size_le.trans h.inv.ids_bounded
    | some limit => exact h.inv.budgeted.entries_le limit hlimit
  rw [hfree, hsum, Nat.le_min, Nat.le_div_iff_mul_le h.inv.config.pageBytes_pos,
    accommodates_nil]
  constructor
  · rintro ⟨hroom, hslots⟩
    exact ⟨by omega, by omega, hsnapshots, hentries⟩
  · rintro ⟨hroom, hslots, -, -⟩
    exact ⟨by omega, by omega⟩

/-- Pages within `free_pages` are planned without evictions. -/
theorem Sound.planEvictions_nothing (h : Sound cache) {pages : ℕ}
    (hfree : pages ≤ cache.stats.freePages) :
    cache.planEvictions (pages * cache.pageBytes) pages cache.config.maxManagedBytes none none
      none = .ok (some []) := by
  have hfits := (h.le_freePages_iff pages).mp hfree
  obtain ⟨hbytes, hslots, -, -⟩ := accommodates_nil.mp hfits
  have hdouble := h.inv.double_le
  have htotal := h.inv.total_eq
  have hresident := h.inv.resident_le_mul cache.stats.residentPages
  have hreserved := h.inv.resident_le_mul cache.stats.reservedPages
  have hpages := h.inv.resident_le_mul pages
  have hsums : SumsFit cache (pages * cache.pageBytes) pages cache.stats.retainedSnapshotBytes
      cache.prefixes.size := by
    unfold chargedBytes at htotal
    exact ⟨by omega, by omega, le_rfl, le_rfl⟩
  rcases @planEvictions_search R cache [] [] (pages * cache.pageBytes) pages
    cache.config.maxManagedBytes none h.inv none none with hsearch | ⟨-, hsums'⟩
  · rw [hsearch]
    cases cache.candidates none with
    | nil => simp [hfits]
    | cons id rest => simp [hfits]
  · exact absurd hsums hsums'

/-! ## Admitting empty sequences -/

/-- A request for pages alone, under the whole budget. -/
def pagesAlone (maxPosition : ℕ) : AdmissionRequest := ⟨maxPosition, 0, 0, true⟩

section Alone

variable {maxPosition : ℕ} {context : R.Context}
variable {restore : Option R.Snapshot → ℕ → Except R.Error Unit}

/-- Without a prefix, such a request asks for its pages and their bytes. -/
theorem Quoted.alone {protectedEntry : Option PrefixEntryId} {position : ℕ}
    {shared : List PageId} {reservedPages extra limit : ℕ}
    (h : Quoted cache none (pagesAlone maxPosition) protectedEntry position shared reservedPages
      extra limit) :
    maxPosition + (cache.config.pageTokens - 1) ≤ usizeMax ∧ protectedEntry = none ∧
      reservedPages = maxPosition ⌈/⌉ cache.config.pageTokens ∧
      extra = reservedPages * cache.pageBytes ∧ limit = cache.config.maxManagedBytes := by
  have hstart := h.start
  cases hstart
  obtain ⟨hbounded, hpages⟩ := checkedDivCeil_eq_some.mp h.reserved
  have hlimit := h.limit
  cases hlimit
  rw [List.length_nil, Nat.zero_add] at hpages
  exact ⟨hbounded, rfl, hpages, admissionBytes_eq h.bytes, rfl⟩

theorem Sound.opened (h : Sound cache)
    (hbounded : maxPosition + (cache.config.pageTokens - 1) ≤ usizeMax)
    (hfree : maxPosition ⌈/⌉ cache.config.pageTokens ≤ cache.stats.freePages)
    (hslot : cache.prepareSequenceSlot = .ok ()) (hrestore : restore none 0 = .ok ())
    (hpublish : R.updatePageTable cache.backend context [] 0 = .ok ()) :
    Opened cache none (pagesAlone maxPosition) context restore none 0 []
      (maxPosition ⌈/⌉ cache.config.pageTokens)
      (maxPosition ⌈/⌉ cache.config.pageTokens * cache.pageBytes) cache.config.maxManagedBytes []
      [] := by
  have hplan := h.planEvictions_nothing hfree
  obtain ⟨hbytes, -, -, -⟩ := accommodates_nil.mp ((h.le_freePages_iff _).mp hfree)
  have hdouble := h.inv.double_le
  refine ⟨⟨rfl, Nat.zero_le _, ?_, ?_, rfl⟩, hplan, hslot, rfl, ⟨none, rfl, hrestore⟩, rfl,
    hpublish⟩
  · rw [List.length_nil, Nat.zero_add]
    exact checkedDivCeil_of_le hbounded
  · unfold admissionBytes pagesAlone
    rw [checkedMul_of_le (by omega)]
    simp only [Option.bind_eq_bind, Option.bind_some]
    rw [checkedAdd_of_le (by omega), Option.bind_some, checkedAdd_of_le (by omega)]
    rfl

/-- Such an admission evicts nothing. -/
theorem Sound.plan_eq_nil (h : Sound cache)
    (hfree : maxPosition ⌈/⌉ cache.config.pageTokens ≤ cache.stats.freePages)
    {protectedEntry : Option PrefixEntryId} {position : ℕ} {shared : List PageId}
    {reservedPages extra limit : ℕ} {plan : List PrefixEntryId} {table : List R.Page}
    (hopened : Opened cache none (pagesAlone maxPosition) context restore protectedEntry position
      shared reservedPages extra limit plan table) : plan = [] := by
  have hplan := hopened.planned
  obtain ⟨-, rfl, rfl, rfl, rfl⟩ := hopened.quoted.alone
  rw [h.planEvictions_nothing hfree] at hplan
  exact (Option.some.inj (Except.ok.inj hplan)).symm

theorem Sound.not_stranded (h : Sound cache)
    (hfree : maxPosition ⌈/⌉ cache.config.pageTokens ≤ cache.stats.freePages)
    {failure : Failure R.Error} {cache' : SequenceCache R} :
    ¬ Stranded cache none (pagesAlone maxPosition) context restore failure cache' := by
  rintro ⟨_, position, _, _, _, _, plan, table, hopened, hrefused, -⟩
  obtain rfl := h.plan_eq_nil hfree hopened
  have hbatch : (cache.publish context table position).evictionBatch [] = [] := by
    apply List.Perm.eq_nil
    exact evictionBatch_perm _ []
  rw [hbatch] at hrefused
  obtain ⟨-, _, hmem, -⟩ | ⟨_, _, -, -, -, hnonempty⟩ := hrefused
  · exact absurd hmem List.not_mem_nil
  · exact hnonempty rfl

/-- The evictions of an admission that keeps every entry. -/
theorem Admission.plan_eq_nil {cache' start evicted : SequenceCache R} {limit : ℕ}
    {protectedEntry : Option PrefixEntryId} {flight : List R.Page}
    {shared fresh retired : List PageId} {id : SequenceId}
    {record : SequenceRecord R.AppendTransaction} {plan : List PrefixEntryId}
    {physical : List R.Page} {deferred : ℕ}
    (h : Admission cache cache' limit protectedEntry flight context shared fresh id record plan
      start evicted retired physical deferred) :
    cache'.prefixes = cache.prefixes ↔ plan = [] := by
  have hprefixes : cache'.prefixes = eraseAll cache.prefixes plan := by
    rw [h.admitted.state]
    change evicted.prefixes = _
    rw [h.carried_out.prefixes, h.published]
  rw [hprefixes]
  constructor
  · intro hkept
    rw [List.eq_nil_iff_forall_not_mem]
    intro entry hmem
    obtain ⟨found, hfound⟩ := h.planned.live entry hmem
    have hgone := @getElem?_eraseAll _ _ _ _ _ cache.prefixes _ plan entry
    rw [hkept, if_pos hmem, hfound] at hgone
    cases hgone
  · rintro rfl
    rfl

/-- The admission is granted and every retained entry is still there. -/
def GrantsOutright (cache : SequenceCache R) (maxPosition : ℕ) (context : R.Context)
    (restore : Option R.Snapshot → ℕ → Except R.Error Unit) : Prop :=
  ∃ id cache', admitSequence none (pagesAlone maxPosition) context restore cache =
    .ok (.admitted id) cache' ∧ cache'.prefixes = cache.prefixes

/-- In every state reached without exhausting an identity space, when nothing is reclaimed
and the other calls succeed, an admission of pages alone is granted without evictions exactly
when its pages are within `free_pages` and their number can be computed. -/
theorem admitSequence_threshold (hlaw : R.Lawful) (hhonest : R.ImmediateHonest)
    {config : CacheConfig} {start : SequenceCache R}
    (hnew : SequenceCache.new R config = .ok start) (hreach : ReachesIntact start cache)
    (hpoll : R.pollReclaimed cache.backend context = .ok 0)
    (hpublish : R.updatePageTable (.pollReclaimed context (.ok 0) :: cache.backend) context [] 0 =
      .ok ())
    (hrestore : restore none 0 = .ok ()) (hslot : cache.prepareSequenceSlot = .ok ()) :
    cache.GrantsOutright maxPosition context restore ↔
      maxPosition ⌈/⌉ cache.config.pageTokens ≤ cache.stats.freePages ∧
        maxPosition + (cache.config.pageTokens - 1) ≤ usizeMax := by
  have hsound := ReachesIntact.sound hreach hlaw.toRetires hhonest (sound_of_new hnew)
  have hinv : Inv [] [] (cache.polled context) := polled_inv hsound.inv context
  have hsound' : Sound (cache.polled context) :=
    ⟨hinv, ⟨hsound.within.bytes, hsound.within.pages⟩, hsound.immediate⟩
  have hreclaim := reclaimDeferred_nothing hsound.inv hpoll
  have hspec := admitSequence_spec hlaw.toRetires hsound.inv none (pagesAlone maxPosition) context
    restore
  constructor
  · rintro ⟨id, cache', hrun, hkept⟩
    rw [hrun] at hspec
    obtain ⟨-, reclaimed, middle, hreclaimed, -, hadmits⟩ := hspec
    obtain rfl : reclaimed = 0 := by
      have hanswer := hreclaimed.answer
      rw [hpoll] at hanswer
      exact (Except.ok.inj hanswer).symm
    obtain rfl : middle = cache.polled context :=
      hreclaimed.state.trans (refresh_of_inv hinv)
    obtain ⟨houtcome, -⟩ | ⟨_, _, _, _, _, _, _, _, _, _, _, _, _, -, hopened,
      hadmission⟩ := hadmits
    · cases houtcome
    obtain ⟨hbounded, rfl, rfl, rfl, rfl⟩ := hopened.quoted.alone
    refine ⟨?_, hbounded⟩
    obtain rfl := hadmission.plan_eq_nil.mp hkept
    have hbytes := hadmission.planned.accommodates
    change maxPosition ⌈/⌉ (cache.polled context).config.pageTokens ≤
      (cache.polled context).stats.freePages
    apply (hsound'.le_freePages_iff _).mpr
    simpa [admittedBytes, admittedRecord, pagesAlone] using hbytes
  · rintro ⟨hfree, hbounded⟩
    have hopened := hsound'.opened hbounded hfree hslot hrestore hpublish
    have hends := (hopened.completes hinv).resolve (not_breached hlaw.toRetires)
    unfold GrantsOutright
    rw [hopened.run hreclaim]
    cases hrun : completeBranch [] [] none 0
        (maxPosition ⌈/⌉ (cache.polled context).config.pageTokens)
        (pagesAlone maxPosition) context ((cache.polled context).publish context [] 0) with
    | error failure cache' =>
        rw [hrun] at hends
        exact absurd hends (hsound'.not_stranded hfree)
    | ok outcome cache' =>
        rw [hrun] at hends
        obtain ⟨-, ⟨-, -, _, _, _, _, _, _, hquoted, hblocked⟩ |
          ⟨_, _, _, _, _, _, _, _, id, _, _, _, _, rfl, hopened', hadmission⟩⟩ := hends
        · obtain ⟨-, rfl, rfl, rfl, rfl⟩ := hquoted.alone
          rw [hopened.planned] at hblocked
          cases hblocked
        · exact ⟨id, cache', rfl, hadmission.plan_eq_nil.mpr (hsound'.plan_eq_nil hfree hopened')⟩

end Alone

/-- Fifty-five pages are free beside a retained page and a sequence of three rows. -/
theorem admitSequence_threshold_unaligned :
    (Reference.after Reference.unaligned).GrantsOutright 110 (7 : ℕ) (fun _ _ => .ok ()) ∧
      ¬ (Reference.after Reference.unaligned).GrantsOutright 111 (7 : ℕ) (fun _ _ => .ok ()) := by
  have hreach : ReachesIntact Reference.start (Reference.after Reference.unaligned) :=
    Reference.reachesIntact_after (by decide +kernel)
  have hslot : (Reference.after Reference.unaligned).prepareSequenceSlot = .ok () := by
    decide +kernel
  have hfits : 110 ⌈/⌉ (Reference.after Reference.unaligned).config.pageTokens ≤
      (Reference.after Reference.unaligned).stats.freePages ∧
        110 + ((Reference.after Reference.unaligned).config.pageTokens - 1) ≤ usizeMax := by
    decide +kernel
  have hover : ¬ 111 ⌈/⌉ (Reference.after Reference.unaligned).config.pageTokens ≤
      (Reference.after Reference.unaligned).stats.freePages := by decide +kernel
  generalize Reference.after Reference.unaligned = cache at *
  exact ⟨(admitSequence_threshold Reference.plain_lawful Reference.plain_immediateHonest
      Reference.new_start hreach rfl rfl rfl hslot).mpr hfits,
    fun hgrants => hover ((admitSequence_threshold Reference.plain_lawful
      Reference.plain_immediateHonest Reference.new_start hreach rfl rfl rfl hslot).mp hgrants).1⟩

/-- A new cache whose pages hold as many tokens as a machine word can count. -/
def wideConfig : CacheConfig := ⟨usizeMax, 64, 16, none, 0⟩

def wideStart : SequenceCache Reference.plain := (emptyCache Reference.plain wideConfig).refresh

/-- One page would do for two positions and sixty-four are free, but their number is not
computed. -/
theorem admitSequence_overflows :
    SequenceCache.new Reference.plain wideConfig = .ok wideStart ∧
      ReachesIntact wideStart wideStart ∧
      Reference.plain.pollReclaimed wideStart.backend (7 : ℕ) = .ok 0 ∧
      wideStart.prepareSequenceSlot = .ok () ∧
      2 ⌈/⌉ wideStart.config.pageTokens = 1 ∧ wideStart.stats.freePages = 64 ∧
      outcome (@admitSequence Reference.plain none (pagesAlone 2) (7 : ℕ) (fun _ _ => .ok ())
        wideStart) = .error (.error .arithmeticOverflow) ∧
      ¬ wideStart.GrantsOutright 2 (7 : ℕ) (fun _ _ => .ok ()) := by
  have hslot : wideStart.prepareSequenceSlot = .ok () := by decide +kernel
  have hpages : 2 ⌈/⌉ wideStart.config.pageTokens = 1 := by decide +kernel
  have hfree : wideStart.stats.freePages = 64 := by decide +kernel
  have hrun : outcome (@admitSequence Reference.plain none (pagesAlone 2) (7 : ℕ)
      (fun _ _ => .ok ()) wideStart) = .error (.error .arithmeticOverflow) := by
    decide +kernel
  refine ⟨rfl, .start, rfl, hslot, hpages, hfree, hrun, ?_⟩
  rintro ⟨id, cache', hgranted, -⟩
  rw [hgranted] at hrun
  cases hrun

end SequenceCache

end SeqCache
