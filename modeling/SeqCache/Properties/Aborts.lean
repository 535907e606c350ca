import SeqCache.Invariant.Likeness
import SeqCache.Run.Reachable

/-!
# An abort undoes its reservation

A reservation moves pages from the reserved to the resident ones and an abort moves them
back.  Between the two, finalizations of the same append may have failed, and other calls
may have changed the rest of the cache: the abort takes back exactly what its own
reservation did.
-/

namespace SeqCache

open Machine Program Std

variable {R : Runtime}

namespace SequenceCache

/-! ## The statistics of an append -/

section Statistics

variable {cache cache' : SequenceCache R} {sequence : SequenceId}
variable {record : SequenceRecord R.AppendTransaction}

/-- A reservation turns reserved pages into resident ones. -/
theorem Reserved.returned {rows : ℕ} {context : R.Context} {transaction : R.AppendTransaction}
    {fresh : List PageId} {allocations : List R.Page} {prepared : R.History}
    (h : Reserved cache cache' sequence record rows context transaction fresh allocations prepared)
    (hinv : Inv [] [] cache) (hinv' : Inv [] [] cache') :
    CacheStats.Returned cache.pageBytes fresh.length cache'.stats cache.stats := by
  have hrecords : fresh.map cache'.pages.get? = (allocations.map privatePage).map some := by
    rw [h.records, List.map_map]
    rfl
  have hget : ∀ id, cache.pages.get? id =
      if id ∈ fresh then none else (cache'.pages.get? id).map fun page => page := by
    intro id
    split_ifs with hmem
    · exact h.pages.absent id hmem
    · rw [h.pages.old id hmem]
      simp
  have hcount : cache'.pages.values.countP PageRecord.isReclaimable =
      cache.pages.values.countP PageRecord.isReclaimable := by
    rw [← Arena.total_indicator, ← Arena.total_indicator,
      Arena.total_removeAll _ h.pages.nodup hrecords hget fun _ _ => rfl, Nat.add_eq_left,
      List.sum_eq_zero_iff]
    intro count hcount
    obtain ⟨page, hpage, rfl⟩ := List.mem_map.mp hcount
    obtain ⟨allocation, -, rfl⟩ := List.mem_map.mp hpage
    rfl
  have hpageBytes : cache'.pageBytes = cache.pageBytes := by rw [h.state]; rfl
  have hactive : cache'.sequences.values.length = cache.sequences.values.length := by
    rw [h.state, ← Arena.total_one, ← Arena.total_one]
    exact Nat.add_right_cancel (Arena.total_set (fun _ => 1) _ h.live)
  rw [← hpageBytes]
  refine returned_of_counts hinv' hinv ?_ ?_ ?_ h.length_pages hcount.symm ?_ ?_ ?_ ?_ hactive.symm
    ?_ ?_ ?_
  · rw [h.state]; rfl
  · rw [h.state]; rfl
  · rw [h.state]; rfl
  · have hreserved : cache'.stats.reservedPages = cache.stats.reservedPages - fresh.length := by
      rw [h.state]; rfl
    rw [hreserved, Nat.sub_add_cancel h.reserved_le]
  all_goals rw [h.state]; rfl

/-- A finalization turns the released pages into reserved ones. -/
theorem Settled.returned {pending : PendingAppend R.AppendTransaction} {committed : ℕ}
    {event : R.Event} (h : Settled cache cache' sequence record pending committed event)
    (hinv : Inv [] [] cache) (hinv' : Inv [] [] cache') :
    CacheStats.Returned cache.pageBytes
      (releasedPages cache.config.pageTokens record pending committed).length cache.stats
      cache'.stats := by
  have hok := hinv.owned.sequence sequence record h.live
  obtain ⟨hcount, hlength⟩ := countP_released hinv h.live h.waiting
    (released_nodup hok h.waiting cache.config.pageTokens committed).of_append_right
    (List.drop_subset _ _) h.pages
    fun _ _ => ⟨PageRecord.mark_activeRefs _, PageRecord.mark_prefixRefs _⟩
  have hactive : cache'.sequences.values.length = cache.sequences.values.length := by
    rw [h.state, ← Arena.total_one, ← Arena.total_one]
    exact Nat.add_right_cancel (Arena.total_set (fun _ => 1) _ h.live)
  refine returned_of_counts hinv hinv' ?_ ?_ ?_ hlength hcount ?_ ?_ ?_ ?_ hactive ?_ ?_ ?_
  all_goals rw [h.state]; rfl

end Statistics

/-! ## The record of the sequence -/

/-- An abort turns the record of a reserved append back into the record before it. -/
theorem settle_reserve {Transaction : Type} {record : SequenceRecord Transaction}
    {pending : PendingAppend Transaction} {pageTokens rows nonce : ℕ} {fresh : List PageId}
    {transaction : Transaction} {change : Transaction → Transaction}
    (hpending : record.pending = none) (hgranted : fresh.length ≤ record.reservedPages)
    (hlength : record.pages.length = record.position ⌈/⌉ pageTokens)
    (hnew : pending.newPages = fresh) :
    ((record.reserve pageTokens rows nonce fresh transaction).mapTransaction change).settle
      pageTokens pending 0 = record := by
  have hkept := @keptPages_zero _ pageTokens
    ((record.reserve pageTokens rows nonce fresh transaction).mapTransaction change) pending hlength
  have hreleased := @releasedPages_zero _ pageTokens
    ((record.reserve pageTokens rows nonce fresh transaction).mapTransaction change) pending hlength
  unfold SequenceRecord.settle
  rw [hkept, hreleased, hnew, List.append_nil, Nat.add_zero]
  cases record with
  | mk pages position maxPosition reservedPages privateStateBytes pageTableBytes waiting =>
      obtain rfl : waiting = none := hpending
      simp only [SequenceRecord.mapTransaction, SequenceRecord.reserve,
        Nat.sub_add_cancel hgranted]

/-! ## Between the reservation and the abort -/

/-- The reservation that led from `cache` to `reserved` created the page. -/
def Created (cache reserved : SequenceCache R) (id : PageId) : Prop :=
  cache.pages.get? id = none ∧ ∃ page, reserved.pages.get? id = some page

/-- `final` is `middle` without the append that was reserved between `cache` and
`reserved`. -/
structure Withdrawn (cache reserved middle final : SequenceCache R) (sequence : SequenceId)
    (context : R.Context) : Prop where
  state : final = { middle with
    backend := final.backend, pages := final.pages, sequences := final.sequences
    stats := final.stats, gauges := final.gauges }
  own : final.sequences.get? sequence = cache.sequences.get? sequence
  others : ∀ id, id ≠ sequence → final.sequences.get? id = middle.sequences.get? id
  created : ∀ id, Created cache reserved id → final.pages.get? id = none
  kept : ∀ id, ¬ Created cache reserved id → final.pages.get? id = middle.pages.get? id
  stats : ∃ count, CacheStats.Returned cache.pageBytes count reserved.stats cache.stats ∧
    CacheStats.Returned middle.pageBytes count middle.stats final.stats
  republished : ∃ record restored released, cache.sequences.get? sequence = some record ∧
    Stored middle.pages record.pages restored ∧
    final.backend = .abortAppend context restored released record.position (.ok ()) ::
      middle.backend

section Abort

variable {cache reserved middle final : SequenceCache R} {sequence : SequenceId} {rows : ℕ}
variable {context context' : R.Context} {reservation : AppendReservation}

theorem Reserved.created_iff {record : SequenceRecord R.AppendTransaction}
    {transaction : R.AppendTransaction} {fresh : List PageId} {allocations : List R.Page}
    {prepared : R.History}
    (h : Reserved cache reserved sequence record rows context transaction fresh allocations
      prepared) (id : PageId) : Created cache reserved id ↔ id ∈ fresh := by
  constructor
  · rintro ⟨hnone, page, hpage⟩
    by_contra hmem
    rw [h.pages.old id hmem, hnone] at hpage
    cases hpage
  · intro hmem
    obtain ⟨page, hpage, -⟩ := h.pages.unshared id hmem
    exact ⟨h.pages.absent id hmem, page, hpage⟩

theorem ReachesIntact.ofReserve
    (h : reserveAppend sequence rows context cache = .ok reservation reserved) :
    ReachesIntact cache reserved :=
  @ReachesIntact.ok _ _ _ _ (.reserveAppend sequence rows context) _ .start (map_ok _ h)
    (by simp [Reply.batchError])

/-- Whatever was called in between, an abort takes back what its reservation did. -/
theorem Sound.withdrawn (hsound : Sound cache) (hlaw : R.Retires) (hhonest : R.ImmediateHonest)
    (hreserve : reserveAppend sequence rows context cache = .ok reservation reserved)
    (hreach : ReachesIntact reserved middle)
    (habort : abortAppend reservation context' middle = .ok () final) :
    Withdrawn cache reserved middle final sequence context' := by
  have hspec := reserveAppend_spec hsound.inv sequence rows context
  rw [hreserve] at hspec
  obtain ⟨hreservedInv, record, transaction, fresh, allocations, prepared, hreserved, rfl⟩ := hspec
  have hreservedSound : Sound reserved :=
    ReachesIntact.sound (.ofReserve hreserve) hlaw hhonest hsound
  have hmiddle := ReachesIntact.sound hreach hlaw hhonest hreservedSound
  have hfollows := Reaches.follows hreach.reaches hlaw ⟨[], [], hreservedInv⟩
  have haborted := abortAppend_spec hmiddle.inv ⟨sequence, record.position, rows,
    segmentsOf cache.config.pageTokens record.position rows (record.pages ++ fresh),
    cache.appendNonce⟩ context'
  rw [habort] at haborted
  obtain ⟨hfinal, record', pending, event, hmatches, haccepted, hsettled⟩ := haborted
  have hlive := hmatches.live
  have hlength := (hsound.inv.owned.sequence sequence record hreserved.live).length_pages
  have hpageTokens : middle.config.pageTokens = cache.config.pageTokens := by
    rw [hfollows.config, hreserved.state]
    rfl
  -- The nonce is not newer than the reservation, so the append is still the reserved one.
  obtain ⟨change, rfl, hnew⟩ : ∃ change, record' = (record.reserve cache.config.pageTokens rows
      cache.appendNonce fresh transaction).mapTransaction change ∧ pending.newPages = fresh := by
    have hnonce : ¬ reserved.appendNonce ≤ pending.nonce := by
      rw [← hmatches.nonce, hreserved.state]
      exact Nat.not_succ_le_self _
    obtain ⟨found, change, hfound, rfl⟩ :=
      (hfollows.pending _ _ _ hlive hmatches.waiting).resolve_left hnonce
    rw [hreserved.state] at hfound
    change (cache.sequences.set sequence _).get? sequence = _ at hfound
    rw [Arena.get?_set hreserved.live, if_pos rfl, Option.some.injEq] at hfound
    subst hfound
    have hwaiting := hmatches.waiting
    simp only [SequenceRecord.mapTransaction, SequenceRecord.reserve, Option.map_some,
      Option.some.injEq] at hwaiting
    exact ⟨change, rfl, by rw [← hwaiting]⟩
  have hreleased := @releasedPages_zero _ middle.config.pageTokens
    ((record.reserve cache.config.pageTokens rows cache.appendNonce fresh
      transaction).mapTransaction change) pending (by rw [hpageTokens]; exact hlength)
  have hpages := hsettled.pages
  have hreturned := hsettled.returned hmiddle.inv hfinal
  rw [hreleased, hnew] at hpages hreturned
  have hsequences : final.sequences = middle.sequences.set sequence record := by
    rw [hsettled.sequences, hpageTokens,
      settle_reserve hreserved.pending hreserved.granted hlength hnew]
  obtain ⟨restored, released, hevent, hrestored⟩ := haccepted.abort_event
  refine ⟨?_, ?_, ?_, ?_, ?_, ⟨fresh.length, hreserved.returned hsound.inv hreservedInv, ?_⟩, ?_⟩
  · rw [hsettled.state]
    rfl
  · rw [hsequences, hreserved.live, Arena.get?_set hlive, if_pos rfl]
  · intro id hne
    rw [hsequences, Arena.get?_set hlive, if_neg hne]
  · intro id hcreated
    rw [hpages, if_pos ((hreserved.created_iff id).mp hcreated)]
  · intro id hcreated
    rw [hpages, if_neg fun hmem => hcreated ((hreserved.created_iff id).mpr hmem)]
    simp [segmentsDone, PageRecord.mark]
  · exact hreturned
  · exact ⟨record, restored, released, hreserved.live, hrestored,
      by rw [hsettled.backend, hevent]; rfl⟩

end Abort

/-! ## Retries -/

/-- A finalization of the reservation that fails, without an exhausted identity space. -/
inductive Retry (reservation : AppendReservation) (cache : SequenceCache R) :
    SequenceCache R → Prop
  | commit {cache' : SequenceCache R} (committedRows : ℕ) (context : R.Context)
      (failure : Failure R.Error) :
      commitAppend reservation committedRows context cache = .error failure cache' →
      (∀ kind, failure ≠ .error (.idExhausted kind)) → Retry reservation cache cache'
  | abort {cache' : SequenceCache R} (context : R.Context) (failure : Failure R.Error) :
      abortAppend reservation context cache = .error failure cache' →
      (∀ kind, failure ≠ .error (.idExhausted kind)) → Retry reservation cache cache'

/-- Only calls on the backend and the pending append of the sequence tell the caches apart. -/
structure Resumes (sequence : SequenceId) (cache cache' : SequenceCache R) : Prop where
  state : cache' = { cache with backend := cache'.backend, sequences := cache'.sequences }
  others : ∀ id, id ≠ sequence → cache'.sequences.get? id = cache.sequences.get? id

section Retries

variable {cache cache' cache'' reserved middle final : SequenceCache R} {sequence : SequenceId}
variable {rows : ℕ} {context context' : R.Context} {reservation : AppendReservation}

theorem Resumes.refl (sequence : SequenceId) (cache : SequenceCache R) :
    Resumes sequence cache cache :=
  ⟨rfl, fun _ _ => rfl⟩

theorem Resumes.trans (h : Resumes sequence cache cache') (h' : Resumes sequence cache' cache'') :
    Resumes sequence cache cache'' := by
  refine ⟨?_, fun id hne => (h'.others id hne).trans (h.others id hne)⟩
  rw [h'.state, h.state]

theorem PutBack.resumes {error : R.Error} (h : PutBack cache cache' sequence error) :
    Resumes sequence cache cache' := by
  obtain ⟨record, transaction, hlive, hstate⟩ := h.state
  refine ⟨by rw [hstate], fun id hne => ?_⟩
  rw [hstate]
  change (cache.sequences.set sequence _).get? id = _
  rw [Arena.get?_set hlive, if_neg hne]

theorem FinalizeFails.resumes {valid : Prop} {committed : ℕ} {failure : Failure R.Error}
    (h : FinalizeFails [] [] cache reservation valid committed context failure cache')
    (hintact : ∀ kind, failure ≠ .error (.idExhausted kind)) :
    Resumes reservation.sequence cache cache' := by
  rcases h with ⟨-, rfl⟩ | ⟨error, -, hputBack⟩ | ⟨hexhausted, -⟩
  · exact .refl _ cache'
  · exact hputBack.resumes
  · exact absurd hexhausted (hintact _)

theorem Retry.resumes (h : Retry reservation cache cache') (hinv : Inv [] [] cache) :
    Resumes reservation.sequence cache cache' := by
  cases h with
  | commit committedRows context failure hrun hintact =>
      have hspec := commitAppend_spec hinv reservation committedRows context
      rw [hrun] at hspec
      exact FinalizeFails.resumes hspec hintact
  | abort context failure hrun hintact =>
      have hspec := abortAppend_spec hinv reservation context
      rw [hrun] at hspec
      exact FinalizeFails.resumes hspec hintact

theorem Retry.reachesIntact (h : Retry reservation middle cache')
    (hreach : ReachesIntact cache middle) : ReachesIntact cache cache' := by
  cases h with
  | commit committedRows context failure hrun hintact =>
      exact @ReachesIntact.error _ _ _ _ (.commitAppend reservation committedRows context) _ hreach
        (map_error _ hrun) hintact
  | abort context failure hrun hintact =>
      exact @ReachesIntact.error _ _ _ _ (.abortAppend reservation context) _ hreach
        (map_error _ hrun) hintact

/-- Failed finalizations leave everything but the pending append as it was reserved. -/
theorem Sound.retries (hsound : Sound reserved) (hlaw : R.Retires) (hhonest : R.ImmediateHonest)
    (h : Relation.ReflTransGen (Retry reservation) reserved middle) :
    ReachesIntact reserved middle ∧ Resumes reservation.sequence reserved middle := by
  induction h with
  | refl => exact ⟨.start, .refl _ reserved⟩
  | tail _ hretry ih =>
      have hinv := (ReachesIntact.sound ih.1 hlaw hhonest hsound).inv
      exact ⟨hretry.reachesIntact ih.1, ih.2.trans (hretry.resumes hinv)⟩

/-- `final` is `cache` again, except for slot generations, free slots, the nonce, and the
calls on the backend, the last of which gave the old table and position back. -/
structure Restored (cache final : SequenceCache R) (sequence : SequenceId)
    (context : R.Context) : Prop where
  state : final = { cache with
    backend := final.backend, pages := final.pages, sequences := final.sequences
    appendNonce := cache.appendNonce + 1 }
  sequences : ∀ id, final.sequences.get? id = cache.sequences.get? id
  pages : ∀ id, final.pages.get? id = cache.pages.get? id
  republished : ∃ record restored released history,
    cache.sequences.get? sequence = some record ∧ Stored cache.pages record.pages restored ∧
    final.backend = .abortAppend context restored released record.position (.ok ()) :: history

theorem Withdrawn.restored {record : SequenceRecord R.AppendTransaction}
    {transaction : R.AppendTransaction} {fresh : List PageId} {allocations : List R.Page}
    {prepared : R.History} (h : Withdrawn cache reserved middle final sequence context')
    (hreserved : Reserved cache reserved sequence record rows context transaction fresh allocations
      prepared) (hresumes : Resumes sequence reserved middle) (hinv : Inv [] [] cache)
    (hfinal : Inv [] [] final) : Restored cache final sequence context' := by
  have hpages : ∀ id, final.pages.get? id = cache.pages.get? id := by
    intro id
    by_cases hcreated : Created cache reserved id
    · rw [h.created id hcreated, hcreated.1]
    · have hold := hreserved.pages.old id fun hmem => hcreated ((hreserved.created_iff id).mpr hmem)
      rw [h.kept id hcreated, hresumes.state, hold]
      simp
  have hstats : final.stats = cache.stats := by
    obtain ⟨count, hcache, hmiddle⟩ := h.stats
    have hpageBytes : reserved.pageBytes = cache.pageBytes := by rw [hreserved.state]; rfl
    rw [hresumes.state] at hmiddle
    exact hcache.unique (hpageBytes ▸ hmiddle)
  have hgauges : final.gauges = cache.gauges := by
    rw [hfinal.published.gauges_eq, hinv.published.gauges_eq, hstats]
  refine ⟨?_, ?_, hpages, ?_⟩
  · rw [h.state, hstats, hgauges, hresumes.state, hreserved.state]
    rfl
  · intro id
    by_cases hself : id = sequence
    · rw [hself, h.own]
    · rw [h.others id hself, hresumes.others id hself, hreserved.state]
      change (cache.sequences.set sequence _).get? id = _
      rw [Arena.get?_set hreserved.live, if_neg hself]
  · obtain ⟨record', restored, released, hlive, hstored, hbackend⟩ := h.republished
    refine ⟨record', restored, released, middle.backend, hlive, ?_, hbackend⟩
    have hrestored : ∀ id ∈ record'.pages, middle.pages.get? id = cache.pages.get? id := by
      intro id hmem
      obtain ⟨page, hpage, -⟩ := hinv.owned.live_of_held hlive
        (List.mem_append_left _ hmem)
      rw [← hpages, h.kept id]
      rintro ⟨hnone, -⟩
      rw [hpage] at hnone
      cases hnone
    unfold Stored at hstored ⊢
    rw [← hstored]
    exact List.map_congr_left fun id hmem => by rw [hrestored id hmem]

/-- In every state of an intact run, an abort undoes its reservation: exactly, when only
finalizations of the same append have failed in between, and up to the effects of the other
calls otherwise. -/
theorem abortAppend_undoes (hlaw : R.Lawful) (hhonest : R.ImmediateHonest) {config : CacheConfig}
    {start : SequenceCache R} (hnew : SequenceCache.new R config = .ok start)
    (hreach : ReachesIntact start cache)
    (hreserve : reserveAppend sequence rows context cache = .ok reservation reserved) :
    (∀ middle final context', Relation.ReflTransGen (Retry reservation) reserved middle →
        abortAppend reservation context' middle = .ok () final →
        Restored cache final sequence context') ∧
      ∀ middle final context', ReachesIntact reserved middle →
        abortAppend reservation context' middle = .ok () final →
        Withdrawn cache reserved middle final sequence context' := by
  have hsound := ReachesIntact.sound hreach hlaw.toRetires hhonest (sound_of_new hnew)
  refine ⟨?_, fun middle final context' hmiddle habort =>
    hsound.withdrawn hlaw.toRetires hhonest hreserve hmiddle habort⟩
  intro middle final context' hretries habort
  have hreservedSound : Sound reserved :=
    ReachesIntact.sound (.ofReserve hreserve) hlaw.toRetires hhonest hsound
  obtain ⟨hmiddle, hresumes⟩ := hreservedSound.retries hlaw.toRetires hhonest hretries
  have hmiddleInv := (ReachesIntact.sound hmiddle hlaw.toRetires hhonest hreservedSound).inv
  have haborted := abortAppend_spec hmiddleInv reservation context'
  rw [habort] at haborted
  have hwithdrawn := hsound.withdrawn hlaw.toRetires hhonest hreserve hmiddle habort
  have hspec := reserveAppend_spec hsound.inv sequence rows context
  rw [hreserve] at hspec
  obtain ⟨-, record, transaction, fresh, allocations, prepared, hreserved, rfl⟩ := hspec
  exact hwithdrawn.restored hreserved hresumes hsound.inv haborted.1

end Retries

end SequenceCache

/-- Three rows that continue a half-filled page. -/
def Reference.requested : AppendReservation :=
  ⟨⟨0, 1⟩, 3, 3, [⟨⟨2, 0⟩, 1, 0, 1⟩, ⟨⟨3, 0⟩, 0, 1, 2⟩], 2⟩

namespace SequenceCache

/-- A commit of more rows than were reserved fails, and the abort then undoes the
reservation. -/
theorem abortAppend_undoes_retried : ∃ reserved middle final : SequenceCache Reference.plain,
    @reserveAppend Reference.plain ⟨0, 1⟩ 3 8 (Reference.after Reference.unaligned) =
        .ok Reference.requested reserved ∧
      @commitAppend Reference.plain Reference.requested 4 8 reserved =
        .error (.error .invalidPosition) middle ∧
      @abortAppend Reference.plain Reference.requested 8 middle = .ok () final ∧
      @Restored Reference.plain (Reference.after Reference.unaligned) final ⟨0, 1⟩ 8 ∧
      @Withdrawn Reference.plain (Reference.after Reference.unaligned) reserved middle final
        ⟨0, 1⟩ 8 := by
  have hreach : ReachesIntact Reference.start (Reference.after Reference.unaligned) :=
    Reference.reachesIntact_after (by decide +kernel)
  have hreserve := eq_ok_of_outcome (show outcome (@reserveAppend Reference.plain ⟨0, 1⟩ 3 8
    (Reference.after Reference.unaligned)) = .ok Reference.requested by decide +kernel)
  have hcommit := eq_error_of_outcome (show outcome (@commitAppend Reference.plain
    Reference.requested 4 8 (finalState (@reserveAppend Reference.plain ⟨0, 1⟩ 3 8
      (Reference.after Reference.unaligned)))) = .error (.error .invalidPosition) by
        decide +kernel)
  have habort := eq_ok_of_outcome (show outcome (@abortAppend Reference.plain
    Reference.requested 8 (finalState (@commitAppend Reference.plain Reference.requested 4 8
      (finalState (@reserveAppend Reference.plain ⟨0, 1⟩ 3 8
        (Reference.after Reference.unaligned)))))) = .ok () by decide +kernel)
  generalize Reference.after Reference.unaligned = cache at *
  generalize finalState (@reserveAppend Reference.plain ⟨0, 1⟩ 3 8 cache) = reserved at *
  generalize finalState (@commitAppend Reference.plain Reference.requested 4 8 reserved) = middle
    at *
  generalize finalState (@abortAppend Reference.plain Reference.requested 8 middle) = final at *
  have hundoes := abortAppend_undoes Reference.plain_lawful Reference.plain_immediateHonest
    Reference.new_start hreach hreserve
  have hretry := @Retry.commit Reference.plain Reference.requested reserved middle 4 8 _ hcommit
    fun kind hkind => by cases hkind
  exact ⟨_, _, _, hreserve, hcommit, habort, hundoes.1 _ _ _ (.single hretry) habort,
    hundoes.2 _ _ _ (hretry.reachesIntact .start) habort⟩

end SequenceCache

end SeqCache
