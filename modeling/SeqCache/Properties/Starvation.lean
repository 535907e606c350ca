import SeqCache.Invariant.Checks
import SeqCache.Properties.Budgets
import SeqCache.Properties.Planning

/-!
# Retained prefixes never starve admissions

A call that opens a sequence is blocked exactly when it would be blocked with every entry
evicted that it may evict.  With a backend that retires at once, that is when the request does
not fit beside the live sequences and the entry it starts from: retained prefixes hold up
nobody, and an idle cache admits what a new one admits.
-/

namespace SeqCache

open Machine Program Std

variable {R : Runtime}

/-! ## Arenas without values -/

theorem Arena.get?_eq_none {α : Type} {arena : Arena α} (h : arena.entries = []) (id : Handle) :
    arena.get? id = none := by
  cases hfound : arena.get? id with
  | none => rfl
  | some value =>
      have hmem := Arena.mem_entries.mpr hfound
      rw [h] at hmem
      cases hmem

theorem Arena.values_eq_nil {α : Type} {arena : Arena α} (h : ∀ id, arena.get? id = none) :
    arena.values = [] := by
  have hentries : arena.entries = [] := by
    apply List.eq_nil_iff_forall_not_mem.mpr
    rintro ⟨id, value⟩ hmem
    have hlive := Arena.mem_entries.mp hmem
    rw [h id] at hlive
    cases hlive
  rw [← Arena.map_snd_entries, hentries, List.map_nil]

/-! ## What a plan cannot free -/

namespace SequenceCache

/-- Pages that live sequences or the protected entry hold, each once. -/
def pinnedPages (cache : SequenceCache R) (protectedEntry : Option PrefixEntryId) : List PageId :=
  (cache.activeHolders ++ cache.pagesOf protectedEntry.toList).dedup

/-- Pages that stay in their slots whatever a plan evicts. -/
def fixedPages (cache : SequenceCache R) (protectedEntry : Option PrefixEntryId) : ℕ :=
  if R.retirementIsImmediate cache.backend then (cache.pinnedPages protectedEntry).length
  else cache.stats.residentPages

/-- Bytes that stay charged whatever a plan evicts. -/
def fixedBytes (cache : SequenceCache R) (protectedEntry : Option PrefixEntryId) : ℕ :=
  (cache.fixedPages protectedEntry + cache.stats.reservedPages) * cache.pageBytes +
    cache.stats.activePrivateStateBytes + cache.stats.pageTableBytes +
      cache.snapshotsOf protectedEntry.toList

/-- Bytes that a request may bring the total to. -/
def byteLimit (cache : SequenceCache R) (request : AdmissionRequest) : ℕ :=
  if request.allowEmergency then cache.config.maxManagedBytes
  else cache.config.maxManagedBytes - cache.config.emergencyBytes

/-- Even without the entries that may be evicted, there is no room for the request and the
`pages` pages it asks for. -/
def Overcommits (cache : SequenceCache R) (protectedEntry : Option PrefixEntryId) (pages : ℕ)
    (request : AdmissionRequest) : Prop :=
  cache.byteLimit request < cache.fixedBytes protectedEntry + pages * cache.pageBytes +
      request.privateStateBytes + request.pageTableBytes ∨
    cache.pageCapacity < cache.fixedPages protectedEntry + cache.stats.reservedPages + pages

instance (cache : SequenceCache R) (protectedEntry : Option PrefixEntryId) (pages : ℕ)
    (request : AdmissionRequest) : Decidable (cache.Overcommits protectedEntry pages request) :=
  inferInstanceAs (Decidable (_ ∨ _))

variable {cache : SequenceCache R} {stray : List TokenBlockId}
variable {protectedEntry : Option PrefixEntryId}

/-! ## What all evictions together leave -/

theorem mem_pinnedPages (hinv : Inv [] stray cache) {id : PageId} {page : PageRecord R.Page}
    (hpage : cache.pages.get? id = some page) :
    id ∈ cache.pinnedPages protectedEntry ↔
      0 < page.activeRefs ∨ id ∈ cache.pagesOf protectedEntry.toList := by
  have hactive := (hinv.owned.page id page hpage).active_refs
  rw [List.count_nil, Nat.add_zero, ← count_activeHolders] at hactive
  rw [pinnedPages, List.mem_dedup, List.mem_append, hactive, List.count_pos_iff]

theorem pinnedPages_live (hinv : Inv [] stray cache) {id : PageId}
    (hmem : id ∈ cache.pinnedPages protectedEntry) : ∃ page, cache.pages.get? id = some page := by
  rw [pinnedPages, List.mem_dedup, List.mem_append] at hmem
  cases hmem with
  | inl hactive =>
      rw [← List.count_pos_iff, count_activeHolders] at hactive
      obtain ⟨sequence, record, hrecord, hheld⟩ := exists_active_holder hactive
      obtain ⟨page, hpage, -⟩ := (hinv.owned.sequence sequence record hrecord).live hheld
      exact ⟨page, hpage⟩
  | inr hentry =>
      obtain ⟨key, -, entry, hentry, hheld⟩ := mem_pagesOf.mp hentry
      obtain ⟨page, hpage, -⟩ := (hinv.owned.entry key entry hentry).held id hheld
      exact ⟨page, hpage⟩

section Candidates

variable (hinv : Inv [] stray cache)
  (hprotected : ∀ id, protectedEntry = some id → ∃ entry, cache.prefixes[id]? = some entry)

include hinv

/-- Every entry is protected or a candidate. -/
theorem mem_candidates_or (id : PrefixEntryId) :
    id ∈ cache.candidates protectedEntry ++ protectedEntry.toList ↔
      (∃ entry, cache.prefixes[id]? = some entry) ∨ protectedEntry = some id := by
  rw [List.mem_append, mem_candidates hinv, Option.mem_toList]
  by_cases heq : protectedEntry = some id
  · simp [heq]
  · simp [heq, Ne.symm heq]

theorem nodup_candidates_append :
    (cache.candidates protectedEntry ++ protectedEntry.toList).Nodup := by
  rw [List.nodup_append]
  refine ⟨candidates_nodup hinv protectedEntry, Option.toList_nodup protectedEntry, ?_⟩
  rintro id hid _ hsame rfl
  exact ((mem_candidates hinv).mp hid).2 (Option.mem_toList.mp hsame).symm

include hprotected

/-- What the entries hold is what the candidates hold and what the protected entry holds. -/
theorem mapTotal_candidates (weight : PrefixEntry R.Snapshot → ℕ) :
    mapTotal weight cache.prefixes =
      ((valuesOf cache.prefixes (cache.candidates protectedEntry)).map weight).sum +
        ((valuesOf cache.prefixes protectedEntry.toList).map weight).sum := by
  have hlive : ∀ id ∈ cache.candidates protectedEntry ++ protectedEntry.toList,
      ∃ entry, cache.prefixes[id]? = some entry := by
    intro id hid
    exact ((mem_candidates_or hinv id).mp hid).elim (fun hlive => hlive) (hprotected id)
  have hnone : mapTotal weight (eraseAll cache.prefixes
      (cache.candidates protectedEntry ++ protectedEntry.toList)) = 0 := by
    by_contra hne
    obtain ⟨id, entry, hentry, -⟩ := exists_of_mapTotal_pos (Nat.pos_of_ne_zero hne)
    rw [getElem?_eraseAll] at hentry
    split_ifs at hentry with hmem
    exact hmem ((mem_candidates_or hinv id).mpr (Or.inl ⟨entry, hentry⟩))
  rw [mapTotal_eraseAll weight (nodup_candidates_append hinv) hlive, hnone, Nat.zero_add]
  simp [valuesOf]

theorem prefixCount_candidates (id : PageId) :
    prefixCount cache.prefixes id = (cache.pagesOf (cache.candidates protectedEntry)).count id +
      (cache.pagesOf protectedEntry.toList).count id := by
  rw [count_pagesOf, count_pagesOf]
  exact mapTotal_candidates hinv hprotected _

/-- Evicting every candidate frees exactly the pages that are not pinned. -/
theorem mem_freedBy_candidates {id : PageId} {page : PageRecord R.Page}
    (hpage : cache.pages.get? id = some page) :
    id ∈ cache.freedBy (cache.pagesOf (cache.candidates protectedEntry)) ↔
      id ∉ cache.pinnedPages protectedEntry := by
  have hrefs := (hinv.owned.page id page hpage).prefix_refs
  have howned := (hinv.owned.page id page hpage).owned
  rw [prefixCount_candidates hinv hprotected] at hrefs
  rw [mem_freedBy hpage, mem_pinnedPages hinv hpage, ← List.count_pos_iff (a := id),
    ← List.count_pos_iff (a := id)]
  omega

theorem length_freedBy_candidates :
    (cache.freedBy (cache.pagesOf (cache.candidates protectedEntry))).length +
      (cache.pinnedPages protectedEntry).length = cache.pages.values.length := by
  have hnodup : (cache.freedBy (cache.pagesOf (cache.candidates protectedEntry)) ++
      cache.pinnedPages protectedEntry).Nodup := by
    rw [List.nodup_append]
    refine ⟨nodup_freedBy cache _, List.nodup_dedup _, ?_⟩
    rintro id hfreed _ hpinned rfl
    obtain ⟨page, hpage⟩ := pinnedPages_live hinv hpinned
    exact (mem_freedBy_candidates hinv hprotected hpage).mp hfreed hpinned
  have hlive : ∀ id, id ∈ cache.freedBy (cache.pagesOf (cache.candidates protectedEntry)) ++
      cache.pinnedPages protectedEntry ↔ ∃ page, cache.pages.get? id = some page ∧ true = true := by
    intro id
    simp only [List.mem_append, and_true]
    constructor
    · rintro (hfreed | hpinned)
      · have hheld := (List.mem_filter.mp hfreed).2
        unfold lastHeld at hheld
        cases hpage : cache.pages.get? id with
        | none => simp [hpage] at hheld
        | some page => exact ⟨page, rfl⟩
      · exact pinnedPages_live hinv hpinned
    · rintro ⟨page, hpage⟩
      rw [mem_freedBy_candidates hinv hprotected hpage]
      exact (em _).symm
  have hcount := @Arena.countP_eq_length _ cache.pages (fun _ => true) _ hnodup hlive
  rw [← List.length_append, ← hcount, List.countP_true]

end Candidates

/-! ## When planning finds no room -/

section Planning

variable {extraBytes extraPages byteLimit : ℕ}
variable (hinv : Inv [] stray cache)
  (hdeferred : R.retirementIsImmediate cache.backend = true → cache.deferredPages = 0)
  (hprotected : ∀ id, protectedEntry = some id → ∃ entry, cache.prefixes[id]? = some entry)

include hinv hdeferred hprotected

/-- What the candidates give back is what is not fixed. -/
theorem creditOf_candidates :
    cache.creditOf (cache.pagesOf (cache.candidates protectedEntry)) +
      cache.fixedPages protectedEntry = cache.stats.residentPages := by
  have hresident := hinv.published.resident_eq rfl
  have hfreed := length_freedBy_candidates hinv hprotected
  unfold creditOf fixedPages
  split_ifs with himmediate
  · rw [hfreed, hresident, residentNow, hdeferred himmediate, Nat.add_zero]
  · exact Nat.zero_add _

theorem accommodates_candidates_iff :
    cache.accommodates extraBytes extraPages byteLimit cache.stats.retainedSnapshotBytes
        cache.prefixes.size (cache.candidates protectedEntry) = true ↔
      cache.fixedBytes protectedEntry + extraBytes ≤ byteLimit ∧
        cache.fixedPages protectedEntry + cache.stats.reservedPages + extraPages ≤
          cache.pageCapacity := by
  have hcredit := creditOf_candidates hinv hdeferred hprotected
  have hbytes := congrArg (· * cache.pageBytes) hcredit
  have hsnapshots : cache.stats.retainedSnapshotBytes =
      cache.snapshotsOf (cache.candidates protectedEntry) +
        cache.snapshotsOf protectedEntry.toList := by
    rw [hinv.counted.snapshot]
    exact mapTotal_candidates hinv hprotected PrefixEntry.snapshotBytes
  have htotal := hinv.total_eq
  have hlimit := hinv.budgeted.snapshot_le
  have hentries : cache.prefixes.size ≤ cache.config.maxPrefixEntries.getD usizeMax := by
    cases hmax : cache.config.maxPrefixEntries with
    | none => exact hinv.size_le.trans hinv.ids_bounded
    | some limit => exact hinv.budgeted.entries_le limit hmax
  simp only [Nat.add_mul] at hbytes
  unfold chargedBytes at htotal
  simp only [accommodates, fixedBytes, Bool.and_eq_true, decide_eq_true_eq, Nat.add_mul]
  omega

theorem planEvictions_none_iff (hlaw : R.Retires) {result : Option (List PrefixEntryId)}
    (hplan : cache.planEvictions extraBytes extraPages byteLimit protectedEntry none none =
      .ok result) :
    result = none ↔ ¬ (cache.fixedBytes protectedEntry + extraBytes ≤ byteLimit ∧
      cache.fixedPages protectedEntry + cache.stats.reservedPages + extraPages ≤
        cache.pageCapacity) := by
  rw [← accommodates_candidates_iff hinv hdeferred hprotected, Bool.not_eq_true]
  exact (plansExactly hlaw hinv hplan).complete

end Planning

theorem admissionLimit_eq_byteLimit {request : AdmissionRequest} {limit : ℕ}
    (h : cache.admissionLimit request.allowEmergency = .ok limit) :
    limit = cache.byteLimit request := by
  unfold byteLimit
  split_ifs with hemergency
  · rw [hemergency] at h
    exact (Except.ok.inj h).symm
  · rw [Bool.not_eq_true] at hemergency
    rw [hemergency] at h
    exact admissionLimit_eq h

/-- Planning for a request finds no room exactly when the request overcommits the cache. -/
theorem overcommits_iff (hinv : Inv [] stray cache)
    (hdeferred : R.retirementIsImmediate cache.backend = true → cache.deferredPages = 0)
    (hlaw : R.Retires)
    (hprotected : ∀ id, protectedEntry = some id → ∃ entry, cache.prefixes[id]? = some entry)
    {request : AdmissionRequest} {pages extra limit : ℕ} {result : Option (List PrefixEntryId)}
    (hbytes : cache.admissionBytes pages request = .ok extra)
    (hlimit : cache.admissionLimit request.allowEmergency = .ok limit)
    (hplan : cache.planEvictions extra pages limit protectedEntry none none = .ok result) :
    result = none ↔ cache.Overcommits protectedEntry pages request := by
  rw [planEvictions_none_iff hinv hdeferred hprotected hlaw hplan, admissionBytes_eq hbytes,
    admissionLimit_eq_byteLimit hlimit, Overcommits]
  omega

end SequenceCache

/-! ## Calls that open a sequence -/

/-- The state in which a call plans its evictions: an admission polls the backend first. -/
def Operation.planningState : Operation R → SequenceCache R → SequenceCache R
  | .admitSequence _ _ context _, cache => (Operation.reclaimDeferred context).step cache
  | _, cache => cache

/-- The entry that a call keeps from being evicted. -/
def Operation.protectedEntry : Operation R → Option PrefixEntryId
  | .admitSequence prefixMatch _ _ _ => prefixMatch.map PrefixMatch.entry
  | _ => none

/-- Complete pages that a call shares with an entry or with its source. -/
def Operation.sharedPages : Operation R → SequenceCache R → ℕ
  | .admitSequence prefixMatch _ _ _, _ => prefixMatch.elim 0 PrefixMatch.pageCount
  | .branch source _ _, cache => (cache.sequences.get? source).elim 0 fun record =>
      record.position / cache.config.pageTokens
  | _, _ => 0

/-- Pages that a call asks for. -/
def Operation.askedPages (operation : Operation R) (cache : SequenceCache R)
    (request : AdmissionRequest) : ℕ :=
  request.maxPosition ⌈/⌉ cache.config.pageTokens - operation.sharedPages cache

namespace SequenceCache

section Blocked

variable {start cache : SequenceCache R} {operation : Operation R} {request : AdmissionRequest}
variable {protectedEntry : Option PrefixEntryId}
variable {reply : AdmissionOutcome}

/-- A match that is not stale has as many pages as it says. -/
theorem length_shared {prefixMatch : Option PrefixMatch} {position : ℕ} {shared : List PageId}
    (h : cache.admissionStart prefixMatch = .ok (protectedEntry, position, shared)) :
    prefixMatch.elim 0 PrefixMatch.pageCount = shared.length := by
  unfold admissionStart at h
  cases prefixMatch with
  | none =>
      cases h
      rfl
  | some found =>
      obtain ⟨entry, -, h⟩ := okOr_bind_eq_ok.mp h
      obtain ⟨hmatch, h⟩ := ensure_bind_eq_ok.mp h
      cases h
      rw [not_or, not_not, not_not] at hmatch
      exact hmatch.2.symm

theorem Reclaimed.unique {middle middle' : SequenceCache R} {context : R.Context}
    {reclaimed reclaimed' : ℕ} (h : Reclaimed cache middle context reclaimed)
    (h' : Reclaimed cache middle' context reclaimed') : middle = middle' := by
  obtain rfl := Except.ok.inj (h.answer.symm.trans h'.answer)
  rw [h.state, h'.state]

section Admissions

variable {prefixMatch : Option PrefixMatch} {context : R.Context}
variable {restore : Option R.Snapshot → ℕ → Except R.Error Unit} {cache' : SequenceCache R}

/-- An admission that returns has polled the backend. -/
theorem polls (hinv : Inv [] stray cache)
    (hrun : admitSequence prefixMatch request context restore cache = .ok reply cache') :
    ∃ reclaimed,
      Reclaimed cache ((Operation.reclaimDeferred context).step cache) context reclaimed := by
  obtain ⟨reclaimed, middle, hpoll, -⟩ := bind_eq_ok hrun
  have hrun : (Operation.reclaimDeferred context).run cache = .ok (.reclaimed reclaimed) middle :=
    map_ok _ hpoll
  have hspec := reclaimDeferred_spec hinv context
  rw [hpoll] at hspec
  rw [Operation.step, hrun]
  exact ⟨reclaimed, hspec.2⟩

theorem Sound.polls (h : Sound cache) (hlaw : R.Retires) (hhonest : R.ImmediateHonest)
    (hrun : admitSequence prefixMatch request context restore cache = .ok reply cache') :
    Sound ((Operation.reclaimDeferred context).step cache) := by
  obtain ⟨reclaimed, middle, hpoll, -⟩ := bind_eq_ok hrun
  have hrun : (Operation.reclaimDeferred context).run cache = .ok (.reclaimed reclaimed) middle :=
    map_ok _ hpoll
  have hstep : (Operation.reclaimDeferred context).step cache = middle := congrArg finalState hrun
  rw [hstep]
  apply h.ok hlaw hhonest hrun
  rintro kind ⟨⟩

/-- What an admission returns depends on what its evictions must leave. -/
theorem admitSequence_blocked (hinv : Inv [] stray cache) (hlaw : R.Retires)
    (hdeferred : R.retirementIsImmediate
        ((Operation.reclaimDeferred context).step cache).backend = true →
      ((Operation.reclaimDeferred context).step cache).deferredPages = 0)
    (hrun : admitSequence prefixMatch request context restore cache = .ok reply cache') :
    reply = .wouldBlock ↔
      ((Operation.reclaimDeferred context).step cache).Overcommits
        (prefixMatch.map PrefixMatch.entry)
        (request.maxPosition ⌈/⌉ cache.config.pageTokens -
          prefixMatch.elim 0 PrefixMatch.pageCount) request := by
  obtain ⟨_, hpolled⟩ := polls hinv hrun
  have hspec := admitSequence_spec hlaw hinv prefixMatch request context restore
  rw [hrun] at hspec
  obtain ⟨-, reclaimed, middle, hreclaimed, hmiddle, hadmits⟩ := hspec
  rw [hpolled.unique hreclaimed] at hdeferred ⊢
  have hconfig : cache.config = middle.config := by
    rw [hreclaimed.state]
    rfl
  rw [hconfig]
  have hiff : ∀ protectedEntry position shared reservedPages extra limit result,
      Quoted middle prefixMatch request protectedEntry position shared reservedPages extra limit →
      middle.planEvictions extra reservedPages limit protectedEntry none none = .ok result →
        (result = none ↔ middle.Overcommits (prefixMatch.map PrefixMatch.entry)
          (request.maxPosition ⌈/⌉ middle.config.pageTokens -
            prefixMatch.elim 0 PrefixMatch.pageCount) request) := by
    intro protectedEntry position shared reservedPages extra limit result hquoted hplan
    have hrestores := Restores.ofStart hquoted.start
    have hlive : ∀ id, protectedEntry = some id → ∃ entry, middle.prefixes[id]? = some entry := by
      intro id hid
      obtain ⟨entry, hentry, -⟩ := hrestores.restored id hid
      exact ⟨entry, hentry⟩
    have hshared := length_shared hquoted.start
    obtain ⟨-, hpages⟩ := checkedDivCeil_eq_some.mp hquoted.reserved
    rw [← hpages, hshared, Nat.add_sub_cancel_left, ← hrestores.entry]
    exact overcommits_iff hmiddle hdeferred hlaw hlive hquoted.bytes hquoted.limit hplan
  obtain ⟨rfl, -, protectedEntry, position, shared, reservedPages, extra, limit, hquoted,
    hblocked⟩ | ⟨protectedEntry, position, shared, reservedPages, extra, limit, plan, table, id, _,
    _, _, _, rfl, hopened, -⟩ := hadmits
  · have hnone := hiff protectedEntry position shared reservedPages extra limit none hquoted
      hblocked
    exact ⟨fun _ => hnone.mp rfl, fun _ => rfl⟩
  · have hsome := hiff protectedEntry position shared reservedPages extra limit (some plan)
      hopened.quoted hopened.planned
    exact ⟨(fun heq => nomatch heq), fun hover => nomatch hsome.mpr hover⟩

end Admissions

theorem Sound.branch_blocked (h : Sound cache) (hlaw : R.Retires)
    (hsteady : R.SteadyRetirement) {source : SequenceId} {context : R.Context}
    {cache' : SequenceCache R}
    (hrun : branch source request context cache = .ok reply cache') :
    reply = .wouldBlock ↔ cache.Overcommits none
      (request.maxPosition ⌈/⌉ cache.config.pageTokens - (cache.sequences.get? source).elim 0
        fun record => record.position / cache.config.pageTokens) request := by
  have hspec := branch_spec hlaw h.inv source request context
  rw [hrun] at hspec
  have hunprotected : ∀ id, (none : Option PrefixEntryId) = some id →
      ∃ entry, cache.prefixes[id]? = some entry := fun _ hnone => nomatch hnone
  obtain ⟨-, ⟨rfl, -, record, extra, limit, hquoted, hblocked⟩ | ⟨record, _, _, _, extra, limit, _,
    _, _, _, _, _, _, _, rfl, hforked, -⟩⟩ := hspec
  · have hiff := overcommits_iff h.inv (h.immediate hsteady _) hlaw hunprotected hquoted.bytes
      hquoted.limit hblocked
    rw [hquoted.live]
    exact ⟨fun _ => hiff.mp rfl, fun _ => rfl⟩
  · have hquoted := hforked.quoted
    have hiff := overcommits_iff h.inv (h.immediate hsteady _) hlaw hunprotected hquoted.bytes
      hquoted.limit hforked.planned
    rw [hquoted.live]
    exact ⟨(fun heq => nomatch heq), fun hover => nomatch hiff.mpr hover⟩

/-- In every state reached without exhausting an identity space, a call that opens a sequence
is blocked exactly when there is no room for it beside what its evictions must leave. -/
theorem blocked_exactly (hlaw : R.Retires) (hhonest : R.ImmediateHonest)
    (hsteady : R.SteadyRetirement) {config : CacheConfig}
    (hnew : SequenceCache.new R config = .ok start) (hreach : ReachesIntact start cache)
    (hrequest : operation.request? = some request)
    (hresult : operation.result cache = .ok (.admission reply)) :
    reply = .wouldBlock ↔ (operation.planningState cache).Overcommits operation.protectedEntry
      (operation.askedPages cache request) request := by
  have hsound := ReachesIntact.sound hreach hlaw hhonest (sound_of_new hnew)
  cases operation with
  | admitSequence prefixMatch found context restore =>
      obtain rfl := Option.some.inj hrequest
      obtain ⟨outcome, cache', hrun, -, hreply⟩ := Operation.result_eq_ok rfl hresult
      rw [Reply.admission.inj hreply]
      have hmiddle := hsound.polls hlaw hhonest hrun
      exact admitSequence_blocked hsound.inv hlaw (hmiddle.immediate hsteady _) hrun
  | branch source found context =>
      obtain rfl := Option.some.inj hrequest
      obtain ⟨outcome, cache', hrun, -, hreply⟩ := Operation.result_eq_ok rfl hresult
      rw [Reply.admission.inj hreply]
      exact hsound.branch_blocked hlaw hsteady hrun
  | _ => cases hrequest

end Blocked

/-- Admission of a sequence of at most `maxPosition` rows that continues the retained page. -/
def Reference.continuing (maxPosition : ℕ) : Operation Reference.plain :=
  .admitSequence (some ⟨0, 2, 1⟩) ⟨maxPosition, 0, 0, false⟩ 9 fun _ _ => .ok ()

/-- Beside a sequence of four pages and the entry it starts from, the sequence may ask for
fifty-five pages and not for one more. -/
theorem blocked_exactly_continuing :
    ¬ ((Reference.continuing 112).planningState (Reference.after Reference.unaligned)).Overcommits
        (Reference.continuing 112).protectedEntry
        ((Reference.continuing 112).askedPages (Reference.after Reference.unaligned)
          ⟨112, 0, 0, false⟩) ⟨112, 0, 0, false⟩ ∧
      ((Reference.continuing 114).planningState (Reference.after Reference.unaligned)).Overcommits
        (Reference.continuing 114).protectedEntry
        ((Reference.continuing 114).askedPages (Reference.after Reference.unaligned)
          ⟨114, 0, 0, false⟩) ⟨114, 0, 0, false⟩ := by
  have hreach : ReachesIntact Reference.start (Reference.after Reference.unaligned) :=
    Reference.reachesIntact_after (by decide +kernel)
  have hadmitted : outcome (admitSequence (some ⟨0, 2, 1⟩) ⟨112, 0, 0, false⟩ (9 : ℕ)
      (fun _ _ => .ok ()) (Reference.after Reference.unaligned)) = .ok (.admitted ⟨1, 0⟩) := by
    decide +kernel
  have hblocked : outcome (admitSequence (some ⟨0, 2, 1⟩) ⟨114, 0, 0, false⟩ (9 : ℕ)
      (fun _ _ => .ok ()) (Reference.after Reference.unaligned)) = .ok .wouldBlock := by
    decide +kernel
  have hgrants : (Reference.continuing 112).result (Reference.after Reference.unaligned) =
      .ok (.admission (.admitted ⟨1, 0⟩)) :=
    congrArg outcome (map_ok Reply.admission (eq_ok_of_outcome hadmitted))
  have hrefuses : (Reference.continuing 114).result (Reference.after Reference.unaligned) =
      .ok (.admission .wouldBlock) :=
    congrArg outcome (map_ok Reply.admission (eq_ok_of_outcome hblocked))
  generalize Reference.after Reference.unaligned = cache at *
  have hlaw := Reference.plain_lawful.toRetires
  constructor
  · intro hover
    cases (blocked_exactly hlaw Reference.plain_immediateHonest Reference.plain_steadyRetirement
      Reference.new_start hreach rfl hgrants).mpr hover
  · exact (blocked_exactly hlaw Reference.plain_immediateHonest Reference.plain_steadyRetirement
      Reference.new_start hreach rfl hrefuses).mp rfl

/-! ## Idle caches -/

section Idle

variable {start cache : SequenceCache R} {request : AdmissionRequest} {reply : AdmissionOutcome}
variable {orphans : List PageId} {stray : List TokenBlockId}

/-- Without sequences, no page is pinned and nothing is charged but what entries hold. -/
theorem fixedBytes_idle (hinv : Inv orphans stray cache)
    (hidle : ∀ id, cache.sequences.get? id = none) :
    cache.pinnedPages none = [] ∧ cache.stats.reservedPages = 0 ∧
      cache.fixedBytes none = cache.fixedPages none * cache.pageBytes := by
  have htotal : ∀ weight : SequenceRecord R.AppendTransaction → ℕ,
      cache.sequences.total weight = 0 := by
    intro weight
    rw [Arena.total, Arena.values_eq_nil hidle, List.map_nil, List.sum_nil]
  obtain ⟨hreserved, hprivate, htable, -, -, -⟩ := hinv.counted
  rw [htotal] at hreserved hprivate htable
  have hpinned : cache.pinnedPages none = [] := by
    apply List.eq_nil_iff_forall_not_mem.mpr
    intro id hmem
    rw [pinnedPages, List.mem_dedup, List.mem_append, ← List.count_pos_iff,
      count_activeHolders, activeCount, htotal] at hmem
    exact hmem.elim (Nat.lt_irrefl 0) fun hentry => by
      obtain ⟨key, hkey, -⟩ := mem_pagesOf.mp hentry
      cases hkey
  refine ⟨hpinned, hreserved, ?_⟩
  rw [fixedBytes, hreserved, hprivate, htable, Nat.add_zero]
  rfl

/-- With a backend that retires at once, a cache without live sequences blocks a request
without a prefix exactly when the request alone exceeds the limits, whatever is retained. -/
theorem idle_blocks_exactly (hlaw : R.Retires) (hhonest : R.ImmediateHonest)
    (hsteady : R.SteadyRetirement) (himmediate : R.retirementIsImmediate [] = true)
    {config : CacheConfig}
    (hnew : SequenceCache.new R config = .ok start) (hreach : ReachesIntact start cache)
    (hidle : ∀ id, cache.sequences.get? id = none) {context : R.Context}
    {restore : Option R.Snapshot → ℕ → Except R.Error Unit}
    (hresult : (Operation.admitSequence none request context restore).result cache =
      .ok (.admission reply)) :
    reply = .wouldBlock ↔
      cache.byteLimit request < request.maxPosition ⌈/⌉ cache.config.pageTokens * cache.pageBytes +
          request.privateStateBytes + request.pageTableBytes ∨
        cache.pageCapacity < request.maxPosition ⌈/⌉ cache.config.pageTokens := by
  have hsound := ReachesIntact.sound hreach hlaw hhonest (sound_of_new hnew)
  obtain ⟨outcome, cache', hrun, -, hreply⟩ := Operation.result_eq_ok rfl hresult
  have hmiddle := hsound.polls hlaw hhonest hrun
  obtain ⟨reclaimed, hpolled⟩ := polls hsound.inv hrun
  have hblocked := admitSequence_blocked hsound.inv hlaw (hmiddle.immediate hsteady _) hrun
  generalize (Operation.reclaimDeferred context).step cache = middle at *
  have hidle' : ∀ id, middle.sequences.get? id = none := by
    rw [hpolled.state]
    exact hidle
  have himmediate' : R.retirementIsImmediate middle.backend = true :=
    (hsteady _ _).trans himmediate
  obtain ⟨hpinned, hreserved, hbytes⟩ := fixedBytes_idle hmiddle.inv hidle'
  have hpages : middle.fixedPages none = 0 := by
    rw [fixedPages, if_pos himmediate', hpinned, List.length_nil]
  rw [Reply.admission.inj hreply, hblocked, Overcommits, Option.map_none, hbytes, hpages,
    hreserved, Nat.zero_mul, hpolled.state]
  simp only [Option.elim_none, Nat.sub_zero, Nat.zero_add]
  rfl

end Idle

/-- With one page and its snapshot retained, an idle cache of sixty-four bytes still grants a
request for all of them. -/
theorem idle_blocks_exactly_served :
    ¬ ((Reference.after Reference.served).byteLimit ⟨128, 0, 0, false⟩ <
          128 ⌈/⌉ (Reference.after Reference.served).config.pageTokens *
            (Reference.after Reference.served).pageBytes + 0 + 0 ∨
        (Reference.after Reference.served).pageCapacity <
          128 ⌈/⌉ (Reference.after Reference.served).config.pageTokens) := by
  have hreach : ReachesIntact Reference.start (Reference.after Reference.served) :=
    Reference.reachesIntact_after (by decide +kernel)
  have hidle : ∀ id, (Reference.after Reference.served).sequences.get? id = none := by
    apply Arena.get?_eq_none
    decide +kernel
  have hadmitted : outcome (admitSequence none ⟨128, 0, 0, false⟩ (9 : ℕ) (fun _ _ => .ok ())
      (Reference.after Reference.served)) = .ok (.admitted ⟨0, 1⟩) := by decide +kernel
  have hgrants : (Operation.admitSequence none ⟨128, 0, 0, false⟩ (9 : ℕ)
      fun _ _ => .ok ()).result (Reference.after Reference.served) =
        .ok (.admission (.admitted ⟨0, 1⟩)) :=
    congrArg outcome (map_ok Reply.admission (eq_ok_of_outcome hadmitted))
  generalize Reference.after Reference.served = cache at *
  intro hover
  cases (idle_blocks_exactly Reference.plain_lawful.toRetires Reference.plain_immediateHonest
    Reference.plain_steadyRetirement rfl Reference.new_start hreach hidle hgrants).mpr hover

end SequenceCache

end SeqCache
