import SeqCache.Steps.Admit

/-!
# Branching as a step

A branch shares the complete pages of its source and copies the writable tail.  The copy
is obtained before the planned evictions are carried out, so a branch whose evictions are
refused leaves a page behind that nothing records.
-/

namespace SeqCache

open Machine Program Std

variable {R : Runtime}

namespace SequenceCache

variable {cache : SequenceCache R} {orphans : List PageId} {stray : List TokenBlockId}

/-- Complete pages that a branch from `record` shares. -/
def branchShared (cache : SequenceCache R) (record : SequenceRecord R.AppendTransaction) :
    List PageId :=
  record.pages.take (record.position / cache.config.pageTokens)

/-- The partial page of `record`, if there is one. -/
def branchPartial (cache : SequenceCache R) (record : SequenceRecord R.AppendTransaction) :
    Option PageId :=
  record.pages[record.position / cache.config.pageTokens]?

/-- Pages a branch commits to: those beyond the complete pages of the source. -/
def branchCommitment (cache : SequenceCache R) (record : SequenceRecord R.AppendTransaction)
    (request : AdmissionRequest) : ℕ :=
  request.maxPosition ⌈/⌉ cache.config.pageTokens - record.position / cache.config.pageTokens

/-- What a branch asks for, before it plans evictions. -/
structure BranchQuoted (cache : SequenceCache R) (source : SequenceId)
    (request : AdmissionRequest) (record : SequenceRecord R.AppendTransaction)
    (extra limit : ℕ) : Prop where
  live : cache.sequences.get? source = some record
  idle : record.pending = none
  position_ne : record.position ≠ 0
  position_le : record.position ≤ request.maxPosition
  bounded : request.maxPosition + (cache.config.pageTokens - 1) ≤ usizeMax
  bytes : cache.admissionBytes (cache.branchCommitment record request) request = .ok extra
  limit : cache.admissionLimit request.allowEmergency = .ok limit

/-- The copy of the tail, with the history it leaves. -/
structure CopiesTail (cache : SequenceCache R) (position : ℕ) (context : R.Context)
    (tail : Option PageId) (copied : Option R.Page) (history : R.History) : Prop where
  aligned : tail = none → copied = none ∧ history = cache.backend
  partial_tail : ∀ id, tail = some id → ∃ page storage copy,
    cache.pages.get? id = some page ∧ page.physical = some storage ∧ copied = some copy ∧
    R.copyPartialPage cache.backend context storage (position % cache.config.pageTokens) =
      .ok copy ∧
    history = .copyPartialPage context storage (position % cache.config.pageTokens) (.ok copy) ::
      cache.backend

theorem CopiesTail.calls {position : ℕ} {context : R.Context} {tail : Option PageId}
    {copied : Option R.Page} {history : R.History}
    (h : CopiesTail cache position context tail copied history) :
    Calls 1 cache.backend [] history copied.toList := by
  cases tail with
  | none =>
      obtain ⟨rfl, rfl⟩ := h.aligned rfl
      exact .refl
  | some id =>
      obtain ⟨page, storage, copy, -, -, rfl, -, rfl⟩ := h.partial_tail id rfl
      exact Calls.acquire _ .refl rfl Nat.one_pos

theorem CopiesTail.isSome_iff {position : ℕ} {context : R.Context} {tail : Option PageId}
    {copied : Option R.Page} {history : R.History}
    (h : CopiesTail cache position context tail copied history) :
    copied.toList.length = if tail.isSome then 1 else 0 := by
  cases tail with
  | none => simp [(h.aligned rfl).1]
  | some id =>
      obtain ⟨page, storage, copy, -, -, rfl, -⟩ := h.partial_tail id rfl
      rfl

theorem CopiesTail.run {position : ℕ} {context : R.Context} {tail : Option PageId}
    {copied : Option R.Page} {history : R.History}
    (h : CopiesTail cache position context tail copied history) :
    copyTail position context tail cache = .ok copied { cache with backend := history } := by
  cases tail with
  | none =>
      obtain ⟨rfl, rfl⟩ := h.aligned rfl
      rfl
  | some id =>
      obtain ⟨page, storage, copy, hpage, hstorage, rfl, hanswer, rfl⟩ := h.partial_tail id rfl
      have hread : physicalRef cache.pages id = .ok storage := by
        simp only [physicalRef, hpage, okOr_some, pure_bind, hstorage]
        rfl
      have hcall : callCopyPartialPage context storage (position % cache.config.pageTokens) cache =
          .ok (.ok copy) { cache with
            backend := .copyPartialPage context storage (position % cache.config.pageTokens)
              (.ok copy) :: cache.backend } := by
        rw [← hanswer]
        rfl
      unfold copyTail
      simp only
      rw [bind_ok (reads_ok (fun cache : SequenceCache R =>
        physicalRef cache.pages id) hread), get_bind_run, bind_ok hcall]
      rfl

/-- The cache after the tail was copied and the table of the branch was published. -/
structure Copies (cache start : SequenceCache R) (record : SequenceRecord R.AppendTransaction)
    (context : R.Context) (copied : Option R.Page) (history : R.History) : Prop where
  tail : CopiesTail cache record.position context (cache.branchPartial record) copied history
  published : ∃ table, Stored cache.pages (cache.branchShared record) table ∧
    R.updatePageTable history context (table ++ copied.toList) record.position = .ok () ∧
    start = ({ cache with backend := history } : SequenceCache R).publish context
      (table ++ copied.toList) record.position

theorem Copies.state {start : SequenceCache R} {record : SequenceRecord R.AppendTransaction}
    {context : R.Context} {copied : Option R.Page} {history : R.History}
    (h : Copies cache start record context copied history) :
    start = { cache with backend := start.backend } := by
  obtain ⟨table, -, -, rfl⟩ := h.published
  rfl

theorem Copies.run {start : SequenceCache R} {record : SequenceRecord R.AppendTransaction}
    {context : R.Context} {copied : Option R.Page} {history : R.History}
    (h : Copies cache start record context copied history) :
    publishBranch (cache.branchShared record) copied record.position context
      { cache with backend := history } = .ok () start := by
  obtain ⟨table, hstored, hanswer, rfl⟩ := h.published
  have hread : reads (fun state : SequenceCache R =>
        physicalRefsFrom state.pages (cache.branchShared record))
      { cache with backend := history } = .ok table { cache with backend := history } :=
    reads_ok _ (physicalRefsFrom_of_stored hstored)
  unfold publishBranch
  rw [bind_ok hread, bind_ok (callUpdatePageTable_run context (table ++ copied.toList)
    record.position { cache with backend := history }), hanswer]
  rfl

theorem Copies.prepares {start : SequenceCache R} {record : SequenceRecord R.AppendTransaction}
    {context : R.Context} {copied : Option R.Page} {history : R.History}
    (h : Copies cache start record context copied history) :
    Prepares cache.backend start.backend := by
  obtain ⟨table, -, -, rfl⟩ := h.published
  refine Prepares.cons ?_ rfl
  cases htail : cache.branchPartial record with
  | none =>
      obtain ⟨-, rfl⟩ := h.tail.aligned htail
      exact .refl _
  | some id =>
      obtain ⟨page, storage, copy, -, -, -, -, rfl⟩ := h.tail.partial_tail id htail
      exact (Prepares.refl _).cons rfl

theorem Copies.inv {start : SequenceCache R} {record : SequenceRecord R.AppendTransaction}
    {context : R.Context} {copied : Option R.Page} {history : R.History}
    (h : Copies cache start record context copied history) (hinv : Inv orphans stray cache) :
    Inv orphans stray start := by
  obtain ⟨table, -, -, rfl⟩ := h.published
  exact publish_inv ((Quiet.ofBackend history).inv hinv h.tail.calls.deferredTotal_eq) _ _ _

/-- A branch whose checks all passed, with the evictions `plan` still to be carried out,
whose tail was copied and whose page table the backend accepted. -/
structure Forked (cache start : SequenceCache R) (source : SequenceId)
    (request : AdmissionRequest) (context : R.Context)
    (record : SequenceRecord R.AppendTransaction) (copied : Option R.Page)
    (history : R.History) (reservedPages extra limit : ℕ) (plan : List PrefixEntryId) : Prop where
  quoted : BranchQuoted cache source request record extra limit
  planned : cache.planEvictions extra (cache.branchCommitment record request) limit none none
    none = .ok (some plan)
  reserved : reservedPages + copied.toList.length = cache.branchCommitment record request
  slot : cache.prepareSequenceSlot = .ok ()
  page_slot : (cache.branchPartial record).isSome = true → cache.preparePageSlot = .ok ()
  copies : Copies cache start record context copied history

/-- A branch gets as far as asking the backend for a copy of its partial page, with the
evictions `plan` still to be carried out. -/
structure AsksCopy (cache : SequenceCache R) (source : SequenceId) (request : AdmissionRequest)
    (record : SequenceRecord R.AppendTransaction) (extra limit : ℕ)
    (plan : List PrefixEntryId) : Prop where
  quoted : BranchQuoted cache source request record extra limit
  planned : cache.planEvictions extra (cache.branchCommitment record request) limit none none
    none = .ok (some plan)
  slot : cache.prepareSequenceSlot = .ok ()
  page_slot : cache.preparePageSlot = .ok ()
  unaligned : (cache.branchPartial record).isSome = true

/-- What a successful branch does. -/
def Branched (cache : SequenceCache R) (source : SequenceId) (request : AdmissionRequest)
    (context : R.Context) (outcome : AdmissionOutcome) (cache' : SequenceCache R) : Prop :=
  (outcome = .wouldBlock ∧ cache' = cache ∧ ∃ record extra limit,
    BranchQuoted cache source request record extra limit ∧
      cache.planEvictions extra (cache.branchCommitment record request) limit none none none =
        .ok none) ∨
    ∃ record copied history reservedPages extra limit fresh id plan start evicted retired physical
        deferred,
      outcome = .admitted id ∧
        Forked cache start source request context record copied history reservedPages extra limit
          plan ∧
        Admission cache cache' limit none copied.toList context (cache.branchShared record) fresh
          id (admittedRecord (cache.branchShared record ++ fresh) record.position reservedPages
            request) plan start evicted retired physical deferred

/-- A branch that published its table and could not carry out its evictions.  A copied
tail is then recorded nowhere. -/
def Abandoned (cache : SequenceCache R) (source : SequenceId) (request : AdmissionRequest)
    (context : R.Context) (failure : Failure R.Error) (cache' : SequenceCache R) : Prop :=
  ∃ record copied history reservedPages extra limit plan start,
    Forked cache start source request context record copied history reservedPages extra limit
      plan ∧
    Refused start (start.evictionBatch plan) context failure ∧ Called 0 start cache' []

/-! ## The parts of a branch -/

section Parts

variable {record : SequenceRecord R.AppendTransaction} {source : SequenceId}

theorem branchTail_ok (hinv : Inv orphans stray cache)
    (hrecord : cache.sequences.get? source = some record) :
    cache.branchTail record = .ok (cache.branchPartial record) ∧
      ((cache.branchPartial record).isSome ↔ record.position % cache.config.pageTokens ≠ 0) := by
  have hpos := hinv.config.pageTokens_pos
  have hlength := (hinv.owned.sequence source record hrecord).length_pages
  unfold branchTail branchPartial
  by_cases haligned : record.position % cache.config.pageTokens = 0
  · rw [ceilDiv_of_aligned hpos haligned] at hlength
    rw [if_pos haligned, List.getElem?_eq_none hlength.le]
    exact ⟨rfl, by simp [haligned]⟩
  · rw [ceilDiv_of_unaligned hpos haligned] at hlength
    rw [if_neg haligned, List.getElem?_eq_getElem (by omega), okOr_some]
    exact ⟨rfl, by simp [haligned]⟩

theorem branchShared_complete (hinv : Inv orphans stray cache)
    (hrecord : cache.sequences.get? source = some record) :
    ∀ id ∈ cache.branchShared record, ∃ page, cache.pages.get? id = some page ∧
      page.physical.isSome ∧ page.sealed = true ∧
      page.validTokens = cache.config.pageTokens := by
  intro id hmem
  have hok := hinv.owned.sequence source record hrecord
  obtain ⟨n, hn⟩ := List.getElem?_of_mem hmem
  unfold branchShared at hn
  rw [List.getElem?_take] at hn
  split_ifs at hn with hlt
  have hheld : record.heldPages[n]? = some id := by
    unfold SequenceRecord.heldPages
    rw [List.getElem?_append_left (List.getElem?_eq_some_iff.mp hn).1, hn]
  obtain ⟨page, hpage, hpageOk⟩ := hok.held n id hheld
  have hmul := Nat.mul_le_mul_right cache.config.pageTokens (Nat.succ_le_of_lt hlt)
  have hdiv := Nat.div_mul_le_self record.position cache.config.pageTokens
  obtain ⟨hsealed, hvalid⟩ := hpageOk.complete (hmul.trans hdiv)
  exact ⟨page, hpage, hpageOk.storage, hsealed, hvalid⟩

theorem branchPartial_live (hinv : Inv orphans stray cache)
    (hrecord : cache.sequences.get? source = some record) {tail : PageId}
    (htail : cache.branchPartial record = some tail) :
    ∃ page, cache.pages.get? tail = some page ∧ page.physical.isSome :=
  hinv.owned.live_of_held hrecord (mem_pages_heldPages (List.mem_of_getElem? htail))

/-- The predicted handle is the next one to be issued. -/
theorem peekPageId_ok (hwf : cache.pages.WF) (hslot : cache.preparePageSlot = .ok ()) :
    cache.peekPageId = .ok (cache.pages.upcoming 0) := by
  unfold peekPageId Arena.upcoming
  cases hfree : cache.pages.free with
  | nil =>
      simp only
      rw [except_bind_ok hslot]
      rfl
  | cons slot free =>
      obtain ⟨generation, hold⟩ := (hwf.mem_free slot).mp (by simp [hfree])
      simp only [List.getElem?_cons_zero, hold, okOr_some, Option.map_some, Option.getD_some,
        pure_bind]
      rfl

theorem rollbackPages_ok (context : R.Context) (pages : List R.Page) :
    rollbackPages context pages cache = .ok ()
      { cache with
        backend := (pages.map (BackendEvent.rollbackPage context)).reverse ++ cache.backend } := by
  induction pages generalizing cache with
  | nil => rfl
  | cons page rest ih =>
      rw [rollbackPages]
      refine (bind_ok rfl).trans ?_
      rw [ih]
      simp

theorem copyTail_spec (position : ℕ) (context : R.Context) (tail : Option PageId)
    (hlive : ∀ id, tail = some id → ∃ page, cache.pages.get? id = some page ∧
      page.physical.isSome) :
    Ends (copyTail position context tail cache)
      (fun copied cache' => CopiesTail cache position context tail copied cache'.backend ∧
        cache' = { cache with backend := cache'.backend })
      (fun failure cache' => failure.isReported = true ∧ tail.isSome = true ∧
        Called 1 cache cache' [] ∧
        ∃ event, cache'.backend = event :: cache.backend ∧ event.isAcquisition = true) := by
  cases tail with
  | none => exact ⟨⟨fun _ => ⟨rfl, rfl⟩, by simp⟩, rfl⟩
  | some id =>
      obtain ⟨page, hpage, hphysical⟩ := hlive id rfl
      obtain ⟨storage, hstorage⟩ := Option.isSome_iff_exists.mp hphysical
      have hread : physicalRef cache.pages id = .ok storage := by
        simp only [physicalRef, hpage, okOr_some, pure_bind, hstorage]
        rfl
      unfold copyTail
      simp only
      rw [bind_ok (reads_ok (fun cache : SequenceCache R =>
        physicalRef cache.pages id) hread), get_bind_run]
      have hcall : ∀ answer, R.copyPartialPage cache.backend context storage
            (position % cache.config.pageTokens) = answer →
          callCopyPartialPage context storage (position % cache.config.pageTokens) cache =
            .ok answer { cache with
              backend := .copyPartialPage context storage (position % cache.config.pageTokens)
                answer :: cache.backend } := by
        rintro answer rfl
        rfl
      cases hanswer : R.copyPartialPage cache.backend context storage
          (position % cache.config.pageTokens) with
      | error error =>
          rw [bind_ok (hcall _ hanswer)]
          exact ⟨rfl, rfl, ⟨rfl, Calls.acquire _ .refl rfl Nat.one_pos⟩, _, rfl, rfl⟩
      | ok copy =>
          rw [bind_ok (hcall _ hanswer)]
          refine ⟨⟨by simp, fun other hother => ?_⟩, rfl⟩
          cases hother
          exact ⟨page, storage, copy, hpage, hstorage, rfl, hanswer, rfl⟩

theorem publishBranch_spec {shared : List PageId} {copied : Option R.Page} {limit position : ℕ}
    {context : R.Context} {history : R.History}
    (hcalls : Calls limit cache.backend [] history copied.toList)
    (hlive : ∀ id ∈ shared, ∃ page, cache.pages.get? id = some page ∧ page.physical.isSome) :
    Ends (publishBranch shared copied position context { cache with backend := history })
      (fun _ start => ∃ table, Stored cache.pages shared table ∧
        R.updatePageTable history context (table ++ copied.toList) position = .ok () ∧
        start = ({ cache with backend := history } : SequenceCache R).publish context
          (table ++ copied.toList) position)
      (fun failure cache' => failure.isReported = true ∧ Called limit cache cache' [] ∧
        ∃ later, cache'.backend = later ++ history) := by
  obtain ⟨table, htable, hstored⟩ := physicalRefsFrom_ok hlive
  have hread : reads (fun cache : SequenceCache R => physicalRefsFrom cache.pages shared)
      { cache with backend := history } = .ok table { cache with backend := history } :=
    reads_ok _ htable
  unfold publishBranch
  rw [bind_ok hread, bind_ok (callUpdatePageTable_run context (table ++ copied.toList) position
      { cache with backend := history })]
  cases hanswer : R.updatePageTable history context (table ++ copied.toList) position with
  | ok => exact ⟨table, hstored, hanswer, rfl⟩
  | error error =>
      simp only
      rw [bind_ok (rollbackPages_ok context copied.toList)]
      cases copied with
      | none => exact ⟨rfl, ⟨rfl, .neutral _ hcalls rfl⟩, [_], rfl⟩
      | some page =>
          exact ⟨rfl, ⟨rfl, .rollback context page (.neutral _ hcalls rfl) (List.Perm.refl _)⟩,
            [_, _], rfl⟩

end Parts

/-! ## The step -/

section Step

variable {source : SequenceId} {request : AdmissionRequest} {context : R.Context}
variable {record : SequenceRecord R.AppendTransaction} {copied : Option R.Page}
variable {history : R.History} {reservedPages extra limit : ℕ} {plan : List PrefixEntryId}
variable {start : SequenceCache R}

theorem length_branchShared (hinv : Inv orphans stray cache)
    (hrecord : cache.sequences.get? source = some record) :
    (cache.branchShared record).length = record.position / cache.config.pageTokens := by
  have hlength := (hinv.owned.sequence source record hrecord).length_pages
  have hle := @div_le_ceilDiv _ hinv.config.pageTokens_pos record.position
  unfold branchShared
  rw [List.length_take]
  omega

/-- Pages of the table of a branch. -/
theorem length_branchTable (hinv : Inv orphans stray cache)
    (hrecord : cache.sequences.get? source = some record) :
    record.position / cache.config.pageTokens +
        (if (cache.branchPartial record).isSome then 1 else 0) =
      record.position ⌈/⌉ cache.config.pageTokens := by
  have hpos := hinv.config.pageTokens_pos
  have hunaligned := (branchTail_ok hinv hrecord).2
  by_cases haligned : record.position % cache.config.pageTokens = 0
  · rw [if_neg (by rw [hunaligned]; simp [haligned]), ceilDiv_of_aligned hpos haligned]
    rfl
  · rw [if_pos (hunaligned.mpr haligned), ceilDiv_of_unaligned hpos haligned]

theorem checkActiveRoom_shared (hinv : Inv orphans stray cache)
    (hrecord : cache.sequences.get? source = some record) :
    cache.checkActiveRoom (cache.branchShared record) = .ok () :=
  checkActiveRoom_ok fun id hmem => by
    obtain ⟨page, hpage, -⟩ := branchShared_complete hinv hrecord id hmem
    have := hinv.activeRefs_le hpage
    exact ⟨page, hpage, by unfold usizeMax; omega⟩

/-- A branch whose table is published only has to carry out its evictions. -/
theorem Forked.ends (hinv : Inv orphans stray cache)
    (h : Forked cache start source request context record copied history reservedPages extra limit
      plan) :
    Ends (completeBranch plan (cache.branchShared record) copied record.position reservedPages
        request context start)
      (fun outcome cache' => Inv orphans stray cache' ∧
        ∃ fresh id evicted retired physical deferred, outcome = .admitted id ∧
          Admission cache cache' limit none copied.toList context (cache.branchShared record) fresh
            id (admittedRecord (cache.branchShared record ++ fresh) record.position reservedPages
              request) plan start evicted retired physical deferred)
      (fun failure cache' => Refused start (start.evictionBatch plan) context failure ∧
          Called 0 start cache' [] ∨
        Breached start failure cache') := by
  have hrecord := h.quoted.live
  have hok := hinv.owned.sequence source record hrecord
  have hlength := h.copies.tail.isSome_iff
  have htake := length_branchShared hinv hrecord
  have htable := length_branchTable hinv hrecord
  have hextra := admissionBytes_eq h.quoted.bytes
  have hceil := ceilDiv_mono hinv.config.pageTokens_pos h.quoted.position_le
  have hcommitment := h.reserved
  have hslots := (prepareSequenceSlot_cases cache).resolve_left (by
    rw [h.slot]
    exact fun heq => nomatch heq)
  have hplan : Plan cache extra (cache.branchCommitment record request) limit none
      cache.stats.retainedSnapshotBytes cache.prefixes.size plan := by
    rcases planEvictions_cases hinv none none le_rfl le_rfl with ⟨-, herror⟩ |
      ⟨result, hresult, hplan⟩
    · rw [h.planned] at herror
      cases herror
    · rw [h.planned] at hresult
      exact hplan plan (Except.ok.inj hresult).symm
  have hsum : copied.toList.length * cache.pageBytes + (reservedPages * cache.pageBytes +
      request.privateStateBytes + request.pageTableBytes) = extra := by
    rw [hextra, ← hcommitment, Nat.add_mul]
    omega
  have hfits : Plan cache (copied.toList.length * cache.pageBytes + (reservedPages *
      cache.pageBytes + request.privateStateBytes + request.pageTableBytes))
      (reservedPages + copied.toList.length) limit none cache.stats.retainedSnapshotBytes
      cache.prefixes.size plan := by
    rw [hsum, hcommitment]
    exact hplan
  refine Ends.mono (completeBranch_ends hinv h.copies.state h.copies.prepares (h.copies.inv hinv)
    hfits (admissionLimit_le h.quoted.limit) h.slot hslots.2 ?_ ?_ htake ?_ h.quoted.position_le
    h.quoted.bounded ?_ ?_) (fun _ _ h => h) fun _ _ h => h
  · intro hsome
    have hunaligned : (cache.branchPartial record).isSome = true := by
      cases htail : cache.branchPartial record with
      | none => simp [(h.copies.tail.aligned htail).1] at hsome
      | some tail => rfl
    rcases preparePageSlot_cases hinv.owned.pages_wf with hfull | hroom
    · rw [h.page_slot hunaligned] at hfull
      cases hfull
    · exact hroom.2
  · exact (hok.nodup.of_append_left).sublist (List.take_sublist _ _)
  · rw [htake, hlength, htable]
  · rw [htake, hlength, htable]
    unfold branchCommitment at hcommitment
    omega
  · intro evicted retired physical deferred hinv' hevicted
    have hconfig : evicted.config = cache.config := by
      rw [hevicted.config, h.copies.state]
    have hsequences : evicted.sequences = cache.sequences := by
      rw [hevicted.sequences, h.copies.state]
    have hcomplete := branchShared_complete hinv'
      (by rw [hsequences, hrecord])
    unfold branchShared at hcomplete ⊢
    rwa [hconfig] at hcomplete

/-- What happens once the table of a branch is published. -/
theorem Forked.completes (hinv : Inv orphans stray cache)
    (h : Forked cache start source request context record copied history reservedPages extra limit
      plan) :
    Ends (completeBranch plan (cache.branchShared record) copied record.position reservedPages
        request context start)
      (fun outcome cache' => Inv orphans stray cache' ∧
        Branched cache source request context outcome cache')
      (fun failure cache' => Abandoned cache source request context failure cache' ∨
        Breached cache failure cache') := by
  refine Ends.mono (h.ends hinv) ?_ ?_
  · rintro outcome cache' ⟨hfinal, fresh, id, evicted, retired, physical, deferred, rfl,
      hadmission⟩
    exact ⟨hfinal, Or.inr ⟨record, copied, history, reservedPages, extra, limit, fresh, id, plan,
      start, evicted, retired, physical, deferred, rfl, h, hadmission⟩⟩
  · rintro failure cache' (⟨hrefused, hcalled⟩ | hbreached)
    · exact Or.inl ⟨record, copied, history, reservedPages, extra, limit, plan, start, h, hrefused,
        hcalled⟩
    · have hpages : start.pages = cache.pages := by rw [h.copies.state]
      exact Or.inr (h.copies.prepares.breached hpages hbreached)

/-- A branch whose checks all passed turns to the backend. -/
theorem branch_run (hinv : Inv orphans stray cache)
    (hquoted : BranchQuoted cache source request record extra limit)
    (hplanned : cache.planEvictions extra (cache.branchCommitment record request) limit none none
      none = .ok (some plan))
    (hreserved : reservedPages + (if (cache.branchPartial record).isSome then 1 else 0) =
      cache.branchCommitment record request)
    (hslot : cache.prepareSequenceSlot = .ok ())
    (hroom : (cache.branchPartial record).isSome = true → cache.preparePageSlot = .ok ()) :
    branch source request context cache = (do
      let copied ← copyTail record.position context (cache.branchPartial record)
      publishBranch (cache.branchShared record) copied record.position context
      completeBranch plan (cache.branchShared record) copied record.position reservedPages request
        context : CacheM R AdmissionOutcome) cache := by
  have hrecord := hquoted.live
  have htable := length_branchTable hinv hrecord
  have hceil := ceilDiv_mono hinv.config.pageTokens_pos hquoted.position_le
  have hshared := branchShared_complete hinv hrecord
  have hcount : record.position / cache.config.pageTokens ≤ record.pages.length := by
    rw [(hinv.owned.sequence source record hrecord).length_pages]
    exact div_le_ceilDiv hinv.config.pageTokens_pos
  have hsub : checkedSub (request.maxPosition ⌈/⌉ cache.config.pageTokens)
      (record.position / cache.config.pageTokens +
        if (cache.branchPartial record).isSome then 1 else 0) = some reservedPages := by
    rw [checkedSub_eq_some]
    unfold branchCommitment at hreserved
    omega
  have hadd : checkedAdd reservedPages (if (cache.branchPartial record).isSome then 1 else 0) =
      some (cache.branchCommitment record request) := by
    rw [checkedAdd_eq_some, hreserved]
    have hle : request.maxPosition ⌈/⌉ cache.config.pageTokens ≤ request.maxPosition := by
      rw [ceilDiv_le_iff hinv.config.pageTokens_pos]
      exact Nat.le_mul_of_pos_right _ hinv.config.pageTokens_pos
    have hbounded := hquoted.bounded
    have hcommitment_le : cache.branchCommitment record request ≤
        request.maxPosition ⌈/⌉ cache.config.pageTokens := Nat.sub_le _ _
    exact ⟨by omega, rfl⟩
  unfold branch
  rw [bind_ok (reads_ok (fun cache : SequenceCache R => cache.sequenceRecord source)
    (sequenceRecord_eq_ok.mpr hrecord)), ensure_pos (by simp [hquoted.idle]), pure_bind_run]
  simp only
  rw [ensure_pos hquoted.position_ne, pure_bind_run, ensure_pos hquoted.position_le,
    pure_bind_run, get_bind_run, ensure_pos hcount, pure_bind_run,
    bind_ok (reads_ok (fun cache : SequenceCache R => cache.branchTail record)
      (branchTail_ok hinv hrecord).1),
    checkedDivCeil_eq_some.mpr ⟨hquoted.bounded, rfl⟩, okOr_some, pure_bind_run, hsub, okOr_some,
    pure_bind_run, hadd, okOr_some, pure_bind_run,
    bind_ok (reads_ok (fun state : SequenceCache R =>
      state.admissionBytes (cache.branchCommitment record request) request) hquoted.bytes),
    bind_ok (reads_ok (fun cache : SequenceCache R =>
      cache.admissionLimit request.allowEmergency) hquoted.limit),
    bind_ok (reads_ok (fun state : SequenceCache R =>
      state.planEvictions extra (cache.branchCommitment record request) limit none none none)
      hplanned)]
  simp only
  rw [bind_ok (reads_ok (fun cache : SequenceCache R => cache.prepareSequenceSlot) hslot),
    bind_ok (reads_ok (fun state : SequenceCache R =>
      if (cache.branchPartial record).isSome then state.preparePageSlot else pure ())
      (by split_ifs with hsome <;> [exact hroom hsome; rfl])),
    show record.pages.take (record.position / cache.config.pageTokens) =
      cache.branchShared record from rfl,
    bind_ok (reads_ok (fun state : SequenceCache R =>
      state.checkActiveRoom (cache.branchShared record)) (checkActiveRoom_shared hinv hrecord))]
  have hpeek : ∃ peeked, (if (cache.branchPartial record).isSome then some <$> cache.peekPageId
      else pure none : CacheResult R (Option PageId)) = .ok peeked := by
    split_ifs with hsome
    · rw [peekPageId_ok hinv.owned.pages_wf (hroom hsome)]
      exact ⟨some _, rfl⟩
    · exact ⟨none, rfl⟩
  obtain ⟨peeked, hpeek⟩ := hpeek
  exact bind_ok (reads_ok (fun state : SequenceCache R =>
    if (cache.branchPartial record).isSome then some <$> state.peekPageId else pure none) hpeek)

/-- A branch whose checks all passed only has to be completed. -/
theorem Forked.run (hinv : Inv orphans stray cache)
    (h : Forked cache start source request context record copied history reservedPages extra limit
      plan) :
    branch source request context cache =
      completeBranch plan (cache.branchShared record) copied record.position reservedPages request
        context start := by
  rw [branch_run hinv h.quoted h.planned (h.copies.tail.isSome_iff ▸ h.reserved) h.slot h.page_slot,
    bind_ok h.copies.tail.run]
  exact bind_ok h.copies.run

end Step

/-- Why a branch fails: at one of its checks or calls, or when its evictions are refused. -/
def BranchFails (cache : SequenceCache R) (source : SequenceId) (request : AdmissionRequest)
    (context : R.Context) (failure : Failure R.Error) (cache' : SequenceCache R) : Prop :=
  failure.isReported = true ∧
    (Called 1 cache cache' [] ∧ (Called 0 cache cache' [] ∨
        ∃ record extra limit plan, AsksCopy cache source request record extra limit plan) ∨
      Abandoned cache source request context failure cache')

theorem branch_ends (hinv : Inv orphans stray cache) (source : SequenceId)
    (request : AdmissionRequest) (context : R.Context) :
    Ends (branch source request context cache)
      (fun outcome cache' => Inv orphans stray cache' ∧
        Branched cache source request context outcome cache')
      (fun failure cache' => BranchFails cache source request context failure cache' ∨
        Breached cache failure cache') := by
  have hself : Called 1 cache cache [] ∧ (Called 0 cache cache [] ∨
      ∃ record extra limit plan, AsksCopy cache source request record extra limit plan) :=
    ⟨⟨rfl, .refl⟩, Or.inl ⟨rfl, .refl⟩⟩
  unfold branch
  refine Ends.reads (fun failure herror => ?_) (fun record hread => ?_)
  · rw [okOr_eq_error herror]
    exact Or.inl ⟨rfl, Or.inl hself⟩
  have hrecord := sequenceRecord_eq_ok.mp hread
  refine Ends.ensure (fun _ => Or.inl ⟨rfl, Or.inl hself⟩) (fun hpending => ?_)
  have hpending : record.pending = none := Option.isNone_iff_eq_none.mp hpending
  simp only
  refine Ends.ensure (fun _ => Or.inl ⟨rfl, Or.inl hself⟩) (fun hpositive => ?_)
  refine Ends.ensure (fun _ => Or.inl ⟨rfl, Or.inl hself⟩) (fun hposition => ?_)
  refine Ends.get ?_
  have hpos := hinv.config.pageTokens_pos
  have hcount : record.position / cache.config.pageTokens ≤ record.pages.length := by
    rw [(hinv.owned.sequence source record hrecord).length_pages]
    exact div_le_ceilDiv hpos
  obtain ⟨htail, hunaligned⟩ := branchTail_ok hinv hrecord
  have htable := length_branchTable hinv hrecord
  rw [ensure_pos hcount, pure_bind_run,
    bind_ok (reads_ok (fun cache : SequenceCache R => cache.branchTail record) htail)]
  refine Ends.okOr (fun _ => Or.inl ⟨rfl, Or.inl hself⟩) (fun totalPages htotal => ?_)
  obtain ⟨hbounded, rfl⟩ := checkedDivCeil_eq_some.mp htotal
  have hceil := ceilDiv_mono hpos hposition
  rw [checkedSub_of_le (htable ▸ hceil), okOr_some, pure_bind_run]
  generalize hreserved : request.maxPosition ⌈/⌉ cache.config.pageTokens -
    (record.position / cache.config.pageTokens +
      if (cache.branchPartial record).isSome then 1 else 0) = reservedPages
  refine Ends.okOr (fun _ => Or.inl ⟨rfl, Or.inl hself⟩) (fun pageCommitment hcommitment => ?_)
  obtain ⟨-, hcommitment⟩ := checkedAdd_eq_some.mp hcommitment
  obtain rfl : pageCommitment = cache.branchCommitment record request := by
    unfold branchCommitment
    omega
  refine Ends.reads (fun failure herror => ?_) (fun extra hbytes => ?_)
  · rw [okOr_eq_error herror]
    exact Or.inl ⟨rfl, Or.inl hself⟩
  refine Ends.reads (fun failure herror => Or.inl ⟨admissionLimit_error herror, Or.inl hself⟩)
    (fun limit hlimit => ?_)
  have hquoted : BranchQuoted cache source request record extra limit :=
    ⟨hrecord, hpending, hpositive, hposition, hbounded, hbytes, hlimit⟩
  rcases planEvictions_cases hinv none none le_rfl le_rfl with ⟨-, herror⟩ | ⟨result, hresult, -⟩
  · rw [bind_error (reads_error (fun state : SequenceCache R =>
      state.planEvictions extra (cache.branchCommitment record request) limit none none none)
      herror)]
    exact Or.inl ⟨rfl, Or.inl hself⟩
  rw [bind_ok (reads_ok (fun state : SequenceCache R =>
    state.planEvictions extra (cache.branchCommitment record request) limit none none none)
    hresult)]
  cases result with
  | none => exact ⟨hinv, Or.inl ⟨rfl, rfl, record, extra, limit, hquoted, hresult⟩⟩
  | some plan =>
      simp only
      rcases prepareSequenceSlot_cases cache with herror | ⟨hslot, -⟩
      · rw [bind_error (reads_error (fun cache : SequenceCache R =>
          cache.prepareSequenceSlot) herror)]
        exact Or.inl ⟨rfl, Or.inl hself⟩
      rw [bind_ok (reads_ok (fun cache : SequenceCache R =>
          cache.prepareSequenceSlot) hslot)]
      have hshared := branchShared_complete hinv hrecord
      refine Ends.reads (fun failure herror => Or.inl ⟨?_, Or.inl hself⟩) (fun _ hpageSlot => ?_)
      · split_ifs at herror
        · rcases preparePageSlot_cases hinv.owned.pages_wf with hfull | ⟨hok, -⟩
          · rw [hfull] at herror
            cases herror
            rfl
          · rw [hok] at herror
            cases herror
        · cases herror
      have hroom : (cache.branchPartial record).isSome = true → cache.preparePageSlot = .ok () := by
        intro hsome
        rwa [if_pos hsome] at hpageSlot
      rw [show record.pages.take (record.position / cache.config.pageTokens) =
          cache.branchShared record from rfl,
        bind_ok (reads_ok (fun state : SequenceCache R =>
          state.checkActiveRoom (cache.branchShared record)) (checkActiveRoom_shared hinv hrecord))]
      refine Ends.reads (fun failure herror => ?_) (fun _ _ => ?_)
      · split_ifs at herror with hsome
        · rw [peekPageId_ok hinv.owned.pages_wf (hroom hsome)] at herror
          cases herror
        · cases herror
      have hasks : (cache.branchPartial record).isSome = true →
          ∃ record extra limit plan, AsksCopy cache source request record extra limit plan :=
        fun hsome => ⟨record, extra, limit, plan, hquoted, hresult, hslot, hroom hsome, hsome⟩
      refine Ends.bind (Ends.mono
        (copyTail_spec record.position context (cache.branchPartial record)
        fun id htail => branchPartial_live hinv hrecord htail) (fun _ _ h => h)
        (fun failure cache' h => Or.inl ⟨h.1, Or.inl ⟨h.2.2.1, Or.inr (hasks h.2.1)⟩⟩)) ?_
      rintro copied middle ⟨hcopies, hmiddle⟩
      generalize middle.backend = history at hcopies hmiddle
      subst hmiddle
      obtain ⟨asked, hle, hcalls, hasked⟩ : ∃ asked, asked ≤ 1 ∧
          Calls asked cache.backend [] history copied.toList ∧
          (asked = 0 ∨ (cache.branchPartial record).isSome = true) := by
        cases hpartial : cache.branchPartial record with
        | none =>
            obtain ⟨rfl, rfl⟩ := hcopies.aligned hpartial
            exact ⟨0, Nat.zero_le 1, .refl, Or.inl rfl⟩
        | some id => exact ⟨1, le_rfl, hcopies.calls, Or.inr rfl⟩
      refine Ends.bind (Ends.mono (publishBranch_spec hcalls fun id hmem =>
          (hshared id hmem).imp fun page h => ⟨h.1, h.2.1⟩) (fun _ _ h => h)
        (fun failure cache' h =>
          Or.inl ⟨h.1, Or.inl ⟨⟨h.2.1.state, h.2.1.calls.mono hle⟩, ?_⟩⟩)) ?_
      · rcases hasked with rfl | hsome
        · exact Or.inl h.2.1
        · exact Or.inr (hasks hsome)
      rintro - start hpublished
      have hforked : Forked cache start source request context record copied history reservedPages
          extra limit plan :=
        ⟨hquoted, hresult, by rw [hcopies.isSome_iff, hcommitment], hslot, hroom, hcopies,
          hpublished⟩
      refine Ends.mono (hforked.completes hinv) (fun _ _ h => h) ?_
      rintro failure cache' (habandoned | hbreached)
      case inr => exact Or.inr hbreached
      refine Or.inl ⟨?_, Or.inr habandoned⟩
      obtain ⟨_, _, _, _, _, _, _, _, -, hrefused, -⟩ := habandoned
      exact hrefused.isReported

theorem branch_spec (hlaw : R.Retires) (hinv : Inv orphans stray cache) (source : SequenceId)
    (request : AdmissionRequest) (context : R.Context) :
    Ends (branch source request context cache)
      (fun outcome cache' => Inv orphans stray cache' ∧
        Branched cache source request context outcome cache')
      (BranchFails cache source request context) :=
  (branch_ends hinv source request context).resolve (not_breached hlaw)

end SequenceCache

end SeqCache
