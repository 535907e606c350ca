import SeqCache.Core.Traces
import SeqCache.Properties.Finalization

/-!
# What a batch reports

A batch that fails hands back the reservations that are still pending, in the order of the
caller.  Before its first call it is checked as a whole; after that it stops at the first
call that fails, as if the calls had been made one by one.  Finalizing what it hands back
leads where the batch would have led.
-/

namespace SeqCache

open Machine Program Std

variable {R : Runtime}

namespace SequenceCache

variable {orphans : List PageId} {stray : List TokenBlockId}
variable {cache middle cache' : SequenceCache R}

/-! ## One reservation for each sequence -/

/-- No two members of the batch are for the same sequence. -/
def OneEach (batch : List AppendReservation) : Prop :=
  (batch.map AppendReservation.sequence).Nodup

section OneEach

variable {sequence : SequenceId} {batch granted : List AppendReservation}
variable {items : List (AppendBatchRequest × R.Context)}

/-- The sequence has a pending append. -/
def Busy (cache : SequenceCache R) (sequence : SequenceId) : Prop :=
  ∃ record, cache.sequences.get? sequence = some record ∧ record.pending.isSome

theorem reserveAppend_busy (hinv : Inv orphans stray cache) {rows : ℕ} {context : R.Context}
    {reservation : AppendReservation}
    (h : reserveAppend sequence rows context cache = .ok reservation cache') :
    Inv orphans stray cache' ∧ reservation.sequence = sequence ∧ ¬ Busy cache sequence ∧
      Busy cache' sequence ∧ ∀ other, Busy cache other → Busy cache' other := by
  have hspec := reserveAppend_spec hinv sequence rows context
  rw [h] at hspec
  obtain ⟨hinv', record, transaction, fresh, allocations, prepared, hreserved, rfl⟩ := hspec
  have hsequences : ∀ other, cache'.sequences.get? other = if other = sequence then
      some (record.reserve cache.config.pageTokens rows cache.appendNonce fresh transaction)
      else cache.sequences.get? other := by
    intro other
    rw [hreserved.state]
    exact Arena.get?_set hreserved.live
  have hself : Busy cache' sequence := ⟨_, (hsequences sequence).trans (if_pos rfl), rfl⟩
  refine ⟨hinv', rfl, ?_, hself, ?_⟩
  · rintro ⟨found, hfound, hbusy⟩
    obtain rfl := Option.some.inj (hreserved.live.symm.trans hfound)
    rw [hreserved.pending] at hbusy
    cases hbusy
  · rintro other ⟨found, hfound, hbusy⟩
    by_cases hsame : other = sequence
    · rw [hsame]
      exact hself
    · exact ⟨found, by rw [hsequences, if_neg hsame, hfound], hbusy⟩

theorem EachOk.busy (h : EachOk reserveItem cache items granted cache')
    (hinv : Inv orphans stray cache) (hbusy : Busy cache sequence) :
    sequence ∉ granted.map AppendReservation.sequence := by
  induction h with
  | nil => exact List.not_mem_nil
  | cons hcall _ ih =>
      obtain ⟨hnext, hsequence, hidle, -, hkeeps⟩ := reserveAppend_busy hinv hcall
      rw [List.map_cons, List.mem_cons, not_or]
      refine ⟨?_, ih hnext (hkeeps _ hbusy)⟩
      rintro rfl
      rw [hsequence] at hbusy
      exact hidle hbusy

/-- A reserved batch has one member for each sequence. -/
theorem EachOk.oneEach (h : EachOk reserveItem cache items granted cache')
    (hinv : Inv orphans stray cache) : OneEach granted := by
  induction h with
  | nil => exact List.nodup_nil
  | cons hcall hrest ih =>
      obtain ⟨hnext, hsequence, -, hself, -⟩ := reserveAppend_busy hinv hcall
      rw [← hsequence] at hself
      exact List.nodup_cons.mpr ⟨EachOk.busy hrest hnext hself, ih hnext⟩

/-- Neither does a batch that is handed back. -/
theorem pendingAppendBatch_oneEach (cache : SequenceCache R) (sequences : List SequenceId)
    (batch : List AppendReservation) :
    OneEach (cache.pendingAppendBatch sequences batch) ∧
      ∀ reservation ∈ cache.pendingAppendBatch sequences batch,
        reservation.sequence ∉ sequences := by
  induction batch generalizing sequences with
  | nil => exact ⟨List.nodup_nil, fun _ hmem => absurd hmem List.not_mem_nil⟩
  | cons first rest ih =>
      obtain ⟨hnodup, hfresh⟩ := ih (first.sequence :: sequences)
      rw [pendingAppendBatch]
      split_ifs with hpending
      · refine ⟨List.nodup_cons.mpr ⟨fun hmem => ?_, hnodup⟩, ?_⟩
        · obtain ⟨other, hother, hsame⟩ := List.mem_map.mp hmem
          exact hfresh other hother (hsame ▸ List.mem_cons_self)
        · intro reservation hmem
          obtain rfl | hmem := List.mem_cons.mp hmem
          · exact hpending.1
          · exact fun hold => hfresh reservation hmem (List.mem_cons_of_mem _ hold)
      · exact ⟨hnodup, fun reservation hmem hold =>
          hfresh reservation hmem (List.mem_cons_of_mem _ hold)⟩

/-- With one member for each sequence, what is handed back is what still matches. -/
theorem pendingAppendBatch_eq_filter (hone : OneEach batch) {sequences : List SequenceId}
    (hfresh : ∀ reservation ∈ batch, reservation.sequence ∉ sequences) :
    cache.pendingAppendBatch sequences batch =
      batch.filter fun reservation => (cache.validateReservation reservation).isOk := by
  induction batch generalizing sequences with
  | nil => rfl
  | cons first rest ih =>
      obtain ⟨hnew, hrest⟩ := List.nodup_cons.mp hone
      have hlater : ∀ reservation ∈ rest, reservation.sequence ∉ first.sequence :: sequences := by
        intro reservation hmem hold
        obtain hsame | hold := List.mem_cons.mp hold
        · exact hnew (hsame ▸ List.mem_map_of_mem hmem)
        · exact hfresh reservation (List.mem_cons_of_mem _ hmem) hold
      rw [pendingAppendBatch, List.filter_cons, ih hrest hlater]
      simp only [hfresh first List.mem_cons_self, not_false_eq_true, true_and]

end OneEach

end SequenceCache

/-! ## Batches that a client can hold -/

open SequenceCache

/-- Batches that a reply hands to the caller. -/
def Reply.batches : Reply R → List (List AppendReservation)
  | .reservations (.ok granted) => [granted]
  | .reservations (.error report) => [report.pending]
  | .finalized (.error report) => [report.pending]
  | _ => []

/-- Batches that a call returns. -/
def Operation.batches (operation : Operation R) (cache : SequenceCache R) :
    List (List AppendReservation) :=
  match operation.result cache with
  | .ok reply => reply.batches
  | .error _ => []

namespace SequenceCache

section Returned

variable {orphans : List PageId} {stray : List TokenBlockId} {cache : SequenceCache R}

theorem reserveAppendBatch_oneEach (hinv : Inv orphans stray cache)
    (requests : List AppendBatchRequest) (contexts : List R.Context) :
    Ends (reserveAppendBatch requests contexts cache)
      (fun result _ => ∀ batch ∈ (Reply.reservations result : Reply R).batches, OneEach batch)
      (fun _ _ => True) := by
  rw [reserveAppendBatch]
  split_ifs
  · intro batch hmem
    rw [List.mem_singleton.mp hmem]
    exact List.nodup_nil
  · obtain ⟨granted, final, heach, hrun⟩ |
      ⟨before, item, after, granted, middle, failure, final, -, hstopped,
        ⟨error, -, hrun⟩ | ⟨message, -, hrun⟩⟩ :=
      reserveEach_cases (requests.zip contexts) 0 [] cache
    · rw [hrun]
      intro batch hmem
      rw [List.mem_singleton.mp hmem]
      exact EachOk.oneEach heach hinv
    · rw [hrun]
      intro batch hmem
      rw [List.mem_singleton.mp hmem]
      exact EachOk.oneEach hstopped.succeeded hinv
    · rw [hrun]
      trivial

/-- What a failed finalization hands back has one member for each sequence. -/
theorem finalizes_oneEach {ι : Type} {call : ι → CacheM R Unit} {batch : List AppendReservation}
    {items : List ι}
    {result : EStateM.Result (Failure R.Error) (SequenceCache R) (BatchResult R Unit)}
    (h : Dismissed batch cache result ∨ Finalizes call batch items cache result) :
    Ends result
      (fun result _ => ∀ batch ∈ (Reply.finalized result : Reply R).batches, OneEach batch)
      (fun _ _ => True) := by
  obtain ⟨error, index, -, rfl⟩ | ⟨values, final, -, rfl⟩ |
    ⟨before, item, after, values, middle, failure, final, -, -,
      ⟨error, -, rfl⟩ | ⟨message, -, rfl⟩⟩ := h
  · intro other hmem
    rw [List.mem_singleton.mp hmem]
    exact (pendingAppendBatch_oneEach cache [] batch).1
  · exact fun other hmem => absurd hmem List.not_mem_nil
  · intro other hmem
    rw [List.mem_singleton.mp hmem]
    exact (pendingAppendBatch_oneEach final [] batch).1
  · trivial

theorem batches_oneEach (hinv : Inv orphans stray cache) (operation : Operation R) :
    ∀ batch ∈ operation.batches cache, OneEach batch := by
  intro batch hmem
  rw [Operation.batches] at hmem
  cases hresult : operation.result cache with
  | error failure =>
      rw [hresult] at hmem
      exact absurd hmem List.not_mem_nil
  | ok reply =>
      rw [hresult] at hmem
      cases operation with
      | reserveAppendBatch requests contexts =>
          have hends := reserveAppendBatch_oneEach hinv requests contexts
          obtain ⟨value, cache', hrun, -, rfl⟩ := Operation.result_eq_ok rfl hresult
          rw [hrun] at hends
          exact hends batch hmem
      | commitAppendBatch reservations rows contexts =>
          have hends := finalizes_oneEach
            ((commitAppendBatch_cases reservations rows contexts cache).imp_right fun h => h.2.2.2)
          obtain ⟨value, cache', hrun, -, rfl⟩ := Operation.result_eq_ok rfl hresult
          rw [hrun] at hends
          exact hends batch hmem
      | abortAppendBatch reservations contexts =>
          have hends := finalizes_oneEach
            ((abortAppendBatch_cases reservations contexts cache).imp_right fun h => h.2.2)
          obtain ⟨value, cache', hrun, -, rfl⟩ := Operation.result_eq_ok rfl hresult
          rw [hrun] at hends
          exact hends batch hmem
      | _ =>
          obtain ⟨value, cache', -, -, rfl⟩ := Operation.result_eq_ok rfl hresult
          exact absurd hmem List.not_mem_nil

end Returned

end SequenceCache

namespace SequenceCache

/-! ## How a batch ends -/

/-- Members of a batch that still match a pending append, in their order. -/
def stillPending (batch : List AppendReservation) (cache : SequenceCache R) :
    List AppendReservation :=
  batch.filter fun reservation => (cache.validateReservation reservation).isOk

/-- How a batch of finalizations ends: all calls succeed, it is rejected as a whole, or it
stops at the first call that the backend refuses. -/
inductive BatchEnds {ι : Type} (call : ι → CacheM R Unit) (batch : List AppendReservation)
    (items : List ι) (cache : SequenceCache R) :
    EStateM.Result (Failure R.Error) (SequenceCache R) (BatchResult R Unit) → Prop
  | completed {values : List Unit} {cache' : SequenceCache R} :
      EachOk call cache items values cache' →
      BatchEnds call batch items cache (.ok (.ok ()) cache')
  | rejected {report : AppendBatchError R.Error} : Unfit cache batch report.error →
      report.pending = stillPending batch cache →
      BatchEnds call batch items cache (.ok (.error report) cache)
  | stopped {before after : List ι} {item : ι} {values : List Unit}
      {middle cache' : SequenceCache R} {report : AppendBatchError R.Error} :
      items = before ++ item :: after → EachOk call cache before values middle →
      call item middle = .error (.error report.error) cache' →
      (∃ refusal, report.error = .backend refusal) ∧ Quiet middle cache' ∨
        (∃ kind, report.error = .idExhausted kind) →
      report.failedIndex = some before.length → report.pending = stillPending batch cache' →
      BatchEnds call batch items cache (.ok (.error report) cache')

section Ends

variable {orphans : List PageId} {stray : List TokenBlockId} {cache : SequenceCache R}
variable {ι : Type} {call : ι → CacheM R Unit} {items : List ι} {batch : List AppendReservation}
variable {result : EStateM.Result (Failure R.Error) (SequenceCache R) (BatchResult R Unit)}

theorem pendingAppendBatch_eq_stillPending (hone : OneEach batch) (cache : SequenceCache R) :
    cache.pendingAppendBatch [] batch = stillPending batch cache :=
  pendingAppendBatch_eq_filter hone fun _ _ => List.not_mem_nil

theorem batchEnds_ofDismissed (h : Dismissed batch cache result) (hone : OneEach batch) :
    BatchEnds call batch items cache result := by
  obtain ⟨error, index, hunfit, rfl⟩ := h
  exact .rejected hunfit (pendingAppendBatch_eq_stillPending hone cache)

theorem batchEnds_ofFinalizes (choice : ι → Choice) (h : Finalizes call batch items cache result)
    (hone : OneEach batch) (hinv : Inv orphans stray cache)
    (hdistinct : Distinct (items.map choice))
    (heligible : ∀ item ∈ items, Eligible cache (choice item))
    (hcall : ∀ item ∈ items, ∀ state, Inv orphans stray state → Eligible state (choice item) →
      Concludes orphans stray state (choice item) (call item state)) :
    BatchEnds call batch items cache result := by
  obtain ⟨values, cache', heach, rfl, -⟩ |
    ⟨before, item, after, values, stop, cache', error, hitems, hstopped, -, -, hcause, rfl⟩ :=
    h.settles hinv hinv (.nil cache) hdistinct heligible hcall
  · exact .completed heach
  · refine .stopped hitems hstopped.succeeded hstopped.failed ?_ rfl
      (pendingAppendBatch_eq_stillPending hone cache')
    obtain ⟨refusal, rfl, hrefused⟩ | rfl := hcause
    · exact Or.inl ⟨⟨refusal, rfl⟩, hrefused.unchanged.quiet⟩
    · exact Or.inr ⟨_, rfl⟩

/-- Finalizing with `retry` what was left at `stopped` leads where `whole` would have led from
`cache`, whatever the backend was asked before, or fails again. -/
def Converges (retry whole : CacheM R (BatchResult R Unit)) (cache stopped : SequenceCache R) :
    Prop :=
  Ends (retry stopped)
    (fun result final => match result with
      | .ok () => ∀ history ideal, deferredTotal history = deferredTotal cache.backend →
          whole { cache with backend := history } = .ok (.ok ()) ideal → SameTables ideal final
      | .error report => (∃ refusal, report.error = .backend refusal) ∨
          ∃ kind, report.error = .idExhausted kind)
    (fun _ _ => False)

theorem converges_ofFinalizes (choice : ι → Choice) {batch' : List AppendReservation}
    {items' : List ι} {retry whole : CacheM R (BatchResult R Unit)} {stopped : SequenceCache R}
    {done choices : List Choice} (hretry : Finalizes call batch' items' stopped (retry stopped))
    (hchoices : done ++ items'.map choice = choices) (hinv : Inv [] [] cache)
    (hstopped : Inv [] [] stopped) (hsettles : Settles cache stopped done)
    (hdistinct : Distinct choices) (heligible : ∀ chosen ∈ choices, Eligible cache chosen)
    (hcall : ∀ item, choice item ∈ choices → ∀ state, Inv [] [] state →
      Eligible state (choice item) → Concludes [] [] state (choice item) (call item state))
    (hwhole : ∀ history ideal, whole { cache with backend := history } = .ok (.ok ()) ideal →
      ∃ batch items, Finalizes call batch items { cache with backend := history }
        (.ok (.ok ()) ideal) ∧ items.map choice = choices) :
    Converges retry whole cache stopped := by
  have hleft : ∀ item ∈ items', choice item ∈ choices := by
    intro item hmem
    rw [← hchoices]
    exact List.mem_append_right _ (List.mem_map_of_mem hmem)
  rw [Converges]
  obtain ⟨values, final, -, hresult, hfinal, hsettles'⟩ |
    ⟨before, item, after, values, stop, final, error, -, -, -, -, hcause, hresult⟩ :=
    hretry.settles hinv hstopped hsettles (by rwa [hchoices])
      (fun item hmem => heligible _ (hleft item hmem)) fun item hmem => hcall item (hleft item hmem)
  · rw [hresult]
    intro history ideal hdeferred hideal
    obtain ⟨batch, items, hloop, hitems⟩ := hwhole history ideal hideal
    have hinv' : Inv [] [] { cache with backend := history } :=
      (Quiet.ofBackend history).inv hinv hdeferred
    have hall : ∀ item ∈ items, choice item ∈ choices := by
      intro item hmem
      rw [← hitems]
      exact List.mem_map_of_mem hmem
    obtain ⟨values, other, -, hother, hideal', hsettles''⟩ |
      ⟨before, item, after, values, stop, other, error, -, -, -, -, -, hother⟩ :=
      hloop.settles hinv' hinv' (.nil _) (by rwa [List.nil_append, hitems])
        (fun item hmem => by
          obtain ⟨⟨record, pending, hmatches⟩, hle⟩ := heligible _ (hall item hmem)
          exact ⟨⟨record, pending, hmatches.live, hmatches.waiting, hmatches.startPosition,
            hmatches.rows, hmatches.segments, hmatches.nonce⟩, hle⟩)
        fun item hmem => hcall item (hall item hmem)
    · cases hother
      rw [List.nil_append, hitems] at hsettles''
      rw [hchoices] at hsettles'
      obtain ⟨halike, hpages⟩ := hsettles''.ofBackend.alike hsettles'
      exact ⟨halike.sequences, hpages, halike.stats_eq hideal' hfinal⟩
    · cases hother
  · rw [hresult]
    obtain ⟨refusal, rfl, -⟩ | rfl := hcause
    · exact Or.inl ⟨refusal, rfl⟩
    · exact Or.inr ⟨_, rfl⟩

/-- A batch that the backend stopped has finalized its first members, and hands back the
others. -/
theorem handsBack_ofFinalizes (choice : ι → Choice) {report : AppendBatchError R.Error}
    {stopped : SequenceCache R} (h : Finalizes call batch items cache (.ok (.error report) stopped))
    (hrefused : ∃ refusal, report.error = .backend refusal) (hone : OneEach batch)
    (hinv : Inv orphans stray cache) (hbatch : items.map (fun item => (choice item).1) = batch)
    (hdistinct : Distinct (items.map choice))
    (heligible : ∀ item ∈ items, Eligible cache (choice item))
    (hcall : ∀ item ∈ items, ∀ state, Inv orphans stray state → Eligible state (choice item) →
      Concludes orphans stray state (choice item) (call item state)) :
    ∃ index, report.failedIndex = some index ∧ report.pending = batch.drop index ∧
      Inv orphans stray stopped ∧ Settles cache stopped ((items.take index).map choice) := by
  obtain ⟨values, cache', -, hresult, -⟩ |
    ⟨before, item, after, values, stop, cache', error, rfl, -, hstop, hsettles, hcause, hresult⟩ :=
    h.settles hinv hinv (.nil cache) hdistinct heligible hcall
  · cases hresult
  cases hresult
  obtain ⟨refusal, rfl, hput⟩ | rfl := hcause
  · rw [List.nil_append] at hsettles
    rw [List.map_append, List.map_cons] at hdistinct
    have hfinal := hsettles.putBack hdistinct.fresh hput
    refine ⟨before.length, rfl, ?_, hput.unchanged.inv hstop, by rwa [List.take_left]⟩
    rw [pendingAppendBatch_eq_stillPending hone, stillPending, ← hbatch, ← List.map_drop,
      List.drop_left, List.map_append, List.filter_append]
    have hgone : ∀ reservation ∈ before.map (fun item => (choice item).1),
        ¬ (stopped.validateReservation reservation).isOk = true := by
      intro reservation hmem hvalid
      obtain ⟨done, hdone, rfl⟩ := List.mem_map.mp hmem
      obtain ⟨record, pending, hmatches⟩ := validateReservation_isOk.mp hvalid
      obtain ⟨old, waiting, -, hrecord, -⟩ := hfinal.settled _ (List.mem_map_of_mem hdone)
      have hlive := hmatches.live
      rw [hrecord] at hlive
      have hwaiting := hmatches.waiting
      rw [← Option.some.inj hlive] at hwaiting
      cases hwaiting
    have hleft : ∀ reservation ∈ (item :: after).map (fun item => (choice item).1),
        (stopped.validateReservation reservation).isOk = true := by
      intro reservation hmem
      obtain ⟨later, hlater, rfl⟩ := List.mem_map.mp hmem
      exact validateReservation_isOk.mpr (hfinal.eligible
        (hdistinct.fresh_of_mem (List.mem_map_of_mem hlater))
        (heligible later (List.mem_append_right _ hlater))).1
    rw [List.filter_eq_nil_iff.mpr hgone, List.filter_eq_self.mpr hleft, List.nil_append]
  · obtain ⟨refusal, hrefusal⟩ := hrefused
    cases hrefusal

theorem Unfit.not_backend {error : CacheError R.Error} (h : Unfit cache batch error) :
    ¬ ∃ refusal, error = .backend refusal := by
  rintro ⟨refusal, rfl⟩
  obtain hsize | hposition | ⟨reservation, -, herror⟩ := h
  · cases hsize
  · cases hposition
  · obtain ⟨hstale, -⟩ | hnone | hmismatch := validateReservation_error herror
    · cases hstale
    · cases hnone
    · cases hmismatch

end Ends

/-! ## Commits and aborts -/

section Batches

variable {orphans : List PageId} {stray : List TokenBlockId} {cache : SequenceCache R}
variable {batch : List AppendReservation} {rows : List ℕ} {contexts : List R.Context}

theorem distinct_zip (hone : OneEach batch) (hrows : batch.length = rows.length) :
    Distinct (batch.zip rows) := by
  have hmap : (batch.zip rows).map (fun choice : Choice => choice.1.sequence) =
      batch.map AppendReservation.sequence := by
    conv_rhs => rw [← List.map_fst_zip hrows.le, List.map_map]
    rfl
  rw [Distinct, hmap]
  exact hone

theorem distinct_aborts (hone : OneEach batch) :
    Distinct (batch.map fun reservation => ((reservation, 0) : Choice)) := by
  rw [Distinct, List.map_map]
  exact hone

theorem eligible_ofCommits
    (hvalid : ∀ item ∈ batch.zip rows,
      (cache.validateReservation item.1).isOk = true ∧ Admissible item) :
    ∀ item ∈ batch.zip rows, Eligible cache item :=
  fun item hmem => ⟨validateReservation_isOk.mp (hvalid item hmem).1, (hvalid item hmem).2.2⟩

theorem commitAppendBatch_ends (hinv : Inv orphans stray cache) (hone : OneEach batch) :
    BatchEnds commitItem batch ((batch.zip rows).zip contexts) cache
      (commitAppendBatch batch rows contexts cache) := by
  obtain hdismissed | ⟨hrows, hcontexts, hvalid, hloop⟩ :=
    commitAppendBatch_cases batch rows contexts cache
  · exact batchEnds_ofDismissed hdismissed hone
  · refine batchEnds_ofFinalizes Prod.fst hloop hone hinv ?_ ?_ ?_
    · rw [map_commitItems hrows hcontexts]
      exact distinct_zip hone hrows
    · exact fun item hmem => eligible_ofCommits hvalid item.1 (List.of_mem_zip hmem).1
    · exact fun item hmem state hstate h => commitItem_concludes hstate item h
        (hvalid item.1 (List.of_mem_zip hmem).1).2.1

theorem abortAppendBatch_ends (hinv : Inv orphans stray cache) (hone : OneEach batch) :
    BatchEnds abortItem batch (batch.zip contexts) cache
      (abortAppendBatch batch contexts cache) := by
  obtain hdismissed | ⟨hcontexts, hvalid, hloop⟩ := abortAppendBatch_cases batch contexts cache
  · exact batchEnds_ofDismissed hdismissed hone
  · refine batchEnds_ofFinalizes (fun item => (item.1, 0)) hloop hone hinv ?_ ?_ ?_
    · rw [map_abortItems hcontexts]
      exact distinct_aborts hone
    · exact fun item hmem => ⟨validateReservation_isOk.mp
        (hvalid item.1 (List.of_mem_zip hmem).1), Nat.zero_le _⟩
    · exact fun item _ state hstate h => abortItem_concludes hstate item h

/-- Where the backend stops a batch, its first members are finalized, the others are handed
back, and they can be finalized instead. -/
def HandsBack (finalize : List AppendReservation → List ℕ → List R.Context →
    CacheM R (BatchResult R Unit)) (batch : List AppendReservation) (rows : List ℕ)
    (contexts : List R.Context) (cache : SequenceCache R) : Prop :=
  ∀ report stopped, finalize batch rows contexts cache = .ok (.error report) stopped →
    (∃ refusal, report.error = .backend refusal) →
    ∃ index, report.failedIndex = some index ∧ report.pending = batch.drop index ∧
      ∀ contexts' contexts'', contexts'.length = report.pending.length →
        Converges (finalize report.pending (rows.drop index) contexts')
          (finalize batch rows contexts'') cache stopped

theorem commitAppendBatch_handsBack (hinv : Inv [] [] cache) (hone : OneEach batch) :
    HandsBack commitAppendBatch batch rows contexts cache := by
  intro report stopped h hrefused
  obtain ⟨error, position, hunfit, hresult⟩ | ⟨hrows, hcontexts, hvalid, hloop⟩ :=
    commitAppendBatch_cases batch rows contexts cache
  · rw [h] at hresult
    cases hresult
    exact absurd hrefused hunfit.not_backend
  rw [h] at hloop
  have hitems := map_commitItems hrows hcontexts
  obtain ⟨index, hindex, hpending, hstopped, hsettles⟩ := handsBack_ofFinalizes Prod.fst hloop
    hrefused hone hinv (by
      conv_rhs => rw [← List.map_fst_zip hrows.le, ← hitems, List.map_map]
      rfl)
    (by rw [hitems]; exact distinct_zip hone hrows)
    (fun item hmem => eligible_ofCommits hvalid item.1 (List.of_mem_zip hmem).1)
    fun item hmem state hstate h => commitItem_concludes hstate item h
      (hvalid item.1 (List.of_mem_zip hmem).1).2.1
  refine ⟨index, hindex, hpending, fun contexts' contexts'' hlength => ?_⟩
  rw [hpending] at hlength ⊢
  rw [List.map_take, hitems] at hsettles
  have hdrop : (batch.drop index).zip (rows.drop index) = (batch.zip rows).drop index :=
    List.drop_zipWith.symm
  have hrows' : (batch.drop index).length = (rows.drop index).length := by
    rw [List.length_drop, List.length_drop, hrows]
  have hkept : ∀ item ∈ (batch.drop index).zip (rows.drop index),
      (stopped.validateReservation item.1).isOk = true ∧ Admissible item := by
    intro item hmem
    rw [hdrop] at hmem
    have hmem' := List.mem_of_mem_drop hmem
    have hfresh : ∀ other ∈ (batch.zip rows).take index, other.1.sequence ≠ item.1.sequence := by
      refine Distinct.fresh_of_mem (?_ : Distinct (_ ++ (batch.zip rows).drop index)) hmem
      rw [List.take_append_drop]
      exact distinct_zip hone hrows
    exact ⟨validateReservation_isOk.mpr (hsettles.eligible hfresh
      (eligible_ofCommits hvalid item hmem')).1, (hvalid item hmem').2⟩
  have hchoices : (batch.zip rows).take index ++ (((batch.drop index).zip (rows.drop index)).zip
      contexts').map Prod.fst = batch.zip rows := by
    rw [map_commitItems hrows' hlength.symm, hdrop, List.take_append_drop]
  refine converges_ofFinalizes Prod.fst (commitAppendBatch_finalizes hrows' hlength.symm hkept)
    hchoices hinv hstopped hsettles (distinct_zip hone hrows) (eligible_ofCommits hvalid) ?_ ?_
  · exact fun item hmem state hstate h => commitItem_concludes hstate item h
      (hvalid item.1 hmem).2.1
  · intro history ideal hideal
    obtain ⟨error, position, -, hresult⟩ | ⟨-, hcontexts', -, hwhole⟩ :=
      commitAppendBatch_cases batch rows contexts'' { cache with backend := history }
    · rw [hideal] at hresult
      cases hresult
    · rw [hideal] at hwhole
      exact ⟨batch, _, hwhole, map_commitItems hrows hcontexts'⟩

theorem abortAppendBatch_handsBack (hinv : Inv [] [] cache) (hone : OneEach batch) :
    HandsBack (fun batch _ => abortAppendBatch batch) batch rows contexts cache := by
  intro report stopped h hrefused
  beta_reduce at h ⊢
  obtain ⟨error, position, hunfit, hresult⟩ | ⟨hcontexts, hvalid, hloop⟩ :=
    abortAppendBatch_cases batch contexts cache
  · rw [h] at hresult
    cases hresult
    exact absurd hrefused hunfit.not_backend
  rw [h] at hloop
  have hitems := map_abortItems hcontexts
  have heligible : ∀ reservation ∈ batch, Eligible cache (reservation, 0) :=
    fun reservation hmem => ⟨validateReservation_isOk.mp (hvalid reservation hmem), Nat.zero_le _⟩
  obtain ⟨index, hindex, hpending, hstopped, hsettles⟩ :=
    handsBack_ofFinalizes (fun item => (item.1, 0)) hloop hrefused hone hinv
      (List.map_fst_zip hcontexts.le) (by rw [hitems]; exact distinct_aborts hone)
      (fun item hmem => heligible item.1 (List.of_mem_zip hmem).1)
      fun item _ state hstate h => abortItem_concludes hstate item h
  refine ⟨index, hindex, hpending, fun contexts' contexts'' hlength => ?_⟩
  rw [hpending] at hlength ⊢
  rw [List.map_take, hitems] at hsettles
  have hkept : ∀ reservation ∈ batch.drop index,
      (stopped.validateReservation reservation).isOk = true := by
    intro reservation hmem
    have hmem' : ((reservation, 0) : Choice) ∈ (batch.map (·, 0)).drop index := by
      rw [← List.map_drop]
      exact List.mem_map_of_mem hmem
    have hfresh : ∀ other ∈ (batch.map fun reservation => ((reservation, 0) : Choice)).take index,
        other.1.sequence ≠ reservation.sequence := by
      refine Distinct.fresh_of_mem (?_ : Distinct (_ ++ (batch.map (·, 0)).drop index)) hmem'
      rw [List.take_append_drop]
      exact distinct_aborts hone
    exact validateReservation_isOk.mpr
      (hsettles.eligible hfresh (heligible reservation (List.mem_of_mem_drop hmem))).1
  have hchoices : (batch.map fun reservation => ((reservation, 0) : Choice)).take index ++
      ((batch.drop index).zip contexts').map (fun item => (item.1, 0)) = batch.map (·, 0) := by
    rw [map_abortItems hlength.symm, List.map_drop, List.take_append_drop]
  refine converges_ofFinalizes (fun item => (item.1, 0))
    (abortAppendBatch_finalizes hlength.symm hkept) hchoices hinv hstopped hsettles
    (distinct_aborts hone) ?_ ?_ ?_
  · intro chosen hmem
    obtain ⟨reservation, hreservation, rfl⟩ := List.mem_map.mp hmem
    exact heligible reservation hreservation
  · exact fun item _ state hstate h => abortItem_concludes hstate item h
  · intro history ideal hideal
    obtain ⟨error, position, -, hresult⟩ | ⟨hcontexts', -, hwhole⟩ :=
      abortAppendBatch_cases batch contexts'' { cache with backend := history }
    · rw [hideal] at hresult
      cases hresult
    · rw [hideal] at hwhole
      exact ⟨batch, _, hwhole, map_abortItems hcontexts'⟩

end Batches

/-! ## Batch reservations -/

/-- How a batch reservation ends: it reserves for every request, it is rejected as a whole, or
it stops at the first request that fails and keeps what it has reserved. -/
inductive ReserveEnds (requests : List AppendBatchRequest) (contexts : List R.Context)
    (cache : SequenceCache R) : EStateM.Result (Failure R.Error) (SequenceCache R)
      (BatchResult R (List AppendReservation)) → Prop
  | completed {granted : List AppendReservation} {cache' : SequenceCache R} :
      EachOk reserveItem cache (requests.zip contexts) granted cache' →
      ReserveEnds requests contexts cache (.ok (.ok granted) cache')
  | rejected : requests.length ≠ contexts.length →
      ReserveEnds requests contexts cache
        (.ok (.error ⟨.appendBatchSizeMismatch, [], none⟩) cache)
  | stopped {before after : List (AppendBatchRequest × R.Context)}
      {item : AppendBatchRequest × R.Context} {granted : List AppendReservation}
      {middle cache' : SequenceCache R} {error : CacheError R.Error} :
      requests.zip contexts = before ++ item :: after →
      EachOk reserveItem cache before granted middle →
      reserveItem item middle = .error (.error error) cache' → Quiet middle cache' →
      ReserveEnds requests contexts cache
        (.ok (.error ⟨error, granted, some before.length⟩) cache')

theorem EachOk.reserved_inv {orphans : List PageId} {stray : List TokenBlockId}
    {cache cache' : SequenceCache R} {items : List (AppendBatchRequest × R.Context)}
    {granted : List AppendReservation} (h : EachOk reserveItem cache items granted cache')
    (hinv : Inv orphans stray cache) : Inv orphans stray cache' := by
  refine h.invariant hinv fun item _ state value state' hstate hcall => ?_
  exact (reserveAppend_busy hstate hcall).1

theorem reserveAppendBatch_ends {orphans : List PageId} {stray : List TokenBlockId}
    {cache : SequenceCache R} (hinv : Inv orphans stray cache)
    (requests : List AppendBatchRequest) (contexts : List R.Context) :
    ReserveEnds requests contexts cache (reserveAppendBatch requests contexts cache) := by
  rw [reserveAppendBatch]
  split_ifs with hlength
  · exact .rejected hlength
  obtain ⟨granted, final, heach, hrun⟩ |
    ⟨before, item, after, granted, middle, failure, final, hitems, hstopped, hrun⟩ :=
    reserveEach_cases (requests.zip contexts) 0 [] cache
  · rw [hrun]
    exact .completed heach
  · have hends := reserveAppend_spec (EachOk.reserved_inv hstopped.succeeded hinv)
      item.1.sequence item.1.rows item.2
    have hfailed := hstopped.failed
    rw [reserveItem] at hfailed
    rw [hfailed] at hends
    obtain ⟨⟨error, rfl⟩, -, hattempted⟩ := hends
    obtain ⟨error, herror, hrun⟩ | ⟨message, hpanic, -⟩ := hrun
    · cases herror
      rw [hrun, List.nil_append, Nat.zero_add]
      exact .stopped hitems hstopped.succeeded hstopped.failed hattempted.quiet
    · cases hpanic

/-! ## Runs -/

/-- In every state of an intact run over an honest backend: a batch reservation that fails
keeps exactly what it had reserved; a batch that the run has returned, perhaps finalized in
part since then, reports exactly its members that are still pending when its commit or abort
fails; and where the backend stopped it, finalizing what it hands back leads where the whole
batch would have led. -/
theorem batches_converge (hlaw : R.Lawful) (hhonest : R.ImmediateHonest) {config : CacheConfig}
    {start cache : SequenceCache R} (hnew : SequenceCache.new R config = .ok start)
    {operations : List (Operation R)} (hintact : Intact operations start)
    (hcache : runAll Operation.step operations start = cache) :
    (∀ requests contexts, ReserveEnds requests contexts cache
        (reserveAppendBatch requests contexts cache)) ∧
      ∀ batch ∈ reported Operation.step Operation.batches operations start, ∀ rows contexts,
        BatchEnds commitItem batch ((batch.zip rows).zip contexts) cache
            (commitAppendBatch batch rows contexts cache) ∧
          BatchEnds abortItem batch (batch.zip contexts) cache
            (abortAppendBatch batch contexts cache) ∧
          HandsBack commitAppendBatch batch rows contexts cache ∧
          HandsBack (fun batch _ => abortAppendBatch batch) batch rows contexts cache := by
  have hreach : ReachesIntact start cache := hcache ▸ Reachable.start.runAll hintact
  have hinv := (hreach.sound hlaw.toRetires hhonest (sound_of_new hnew)).inv
  refine ⟨reserveAppendBatch_ends hinv, fun batch hmem rows contexts => ?_⟩
  have hone : OneEach batch := by
    refine reported_invariant (fun state => ∃ orphans stray, Inv orphans stray state) ?_ ?_
      operations ⟨[], [], inv_of_new hnew⟩ batch hmem
    · rintro operation state ⟨orphans, stray, hstate⟩
      exact operation.inv hlaw.toRetires hstate
    · rintro operation state ⟨orphans, stray, hstate⟩
      exact batches_oneEach hstate operation
  exact ⟨commitAppendBatch_ends hinv hone, abortAppendBatch_ends hinv hone,
    commitAppendBatch_handsBack hinv hone, abortAppendBatch_handsBack hinv hone⟩

end SequenceCache

namespace Reference

/-- The reference backend, except that it refuses to commit in the context eight. -/
@[reducible]
def wary : Runtime :=
  { plain with commitAppend := fun _ context _ _ =>
      (if context = 8 then .error () else .ok (), ()) }

def waryStart : SequenceCache wary := (emptyCache wary config).refresh

/-- Two sequences whose appends were reserved as a batch. -/
def waryPending : List (Operation wary) :=
  [.admitSequence none ⟨8, 0, 0, false⟩ (7 : ℕ) fun _ _ => .ok (),
    .admitSequence none ⟨8, 0, 0, false⟩ (8 : ℕ) fun _ _ => .ok (),
    .reserveAppendBatch [⟨⟨0, 0⟩, 3⟩, ⟨⟨1, 0⟩, 2⟩] [(7 : ℕ), (8 : ℕ)]]

def waryAfter (operations : List (Operation wary)) : SequenceCache wary :=
  runAll Operation.step operations waryStart

theorem wary_lawful : wary.Lawful :=
  ⟨⟨plain_lawful.retire_failure, plain_lawful.retire_deferred⟩, plain_lawful.poll_reclaimed⟩

theorem wary_immediateHonest : wary.ImmediateHonest := ⟨plain_immediateHonest.never_deferred⟩

end Reference

namespace SequenceCache

open Reference in
/-- The second commit is refused, and can be repeated in another context.  After an abort of
the first member the whole batch is rejected. -/
theorem batches_converge_refusedMember :
    (outcome (@commitAppendBatch wary [longAppend, shortAppend] [1, 1] [(7 : ℕ), (8 : ℕ)]
        (waryAfter waryPending)) = .ok (.error ⟨.backend (), [shortAppend], some 1⟩) ∧
      Converges (@commitAppendBatch wary [shortAppend] [1] [(9 : ℕ)])
        (@commitAppendBatch wary [longAppend, shortAppend] [1, 1] [(7 : ℕ), (9 : ℕ)])
        (waryAfter waryPending)
        (finalState (@commitAppendBatch wary [longAppend, shortAppend] [1, 1] [(7 : ℕ), (8 : ℕ)]
          (waryAfter waryPending)))) ∧
      BatchEnds (@commitItem wary) [longAppend, shortAppend]
        (([longAppend, shortAppend].zip [1, 1]).zip [(7 : ℕ), (8 : ℕ)])
        (waryAfter (waryPending ++ [.abortAppend longAppend (7 : ℕ)]))
        (commitAppendBatch [longAppend, shortAppend] [1, 1] [(7 : ℕ), (8 : ℕ)]
          (waryAfter (waryPending ++ [.abortAppend longAppend (7 : ℕ)]))) := by
  have hnew : SequenceCache.new wary Reference.config = .ok waryStart := rfl
  have hintact : Intact waryPending waryStart := by decide +kernel
  have hbatch : [longAppend, shortAppend] ∈
      reported Operation.step Operation.batches waryPending waryStart := by decide +kernel
  have hintact' : Intact (waryPending ++ [.abortAppend longAppend (7 : ℕ)]) waryStart := by
    decide +kernel
  have hbatch' : [longAppend, shortAppend] ∈ reported Operation.step Operation.batches
      (waryPending ++ [.abortAppend longAppend (7 : ℕ)]) waryStart := by decide +kernel
  have hresult : outcome (@commitAppendBatch wary [longAppend, shortAppend] [1, 1]
      [(7 : ℕ), (8 : ℕ)] (waryAfter waryPending)) =
        .ok (.error ⟨.backend (), [shortAppend], some 1⟩) := by decide +kernel
  have hpending : runAll Operation.step waryPending waryStart = waryAfter waryPending := rfl
  have haborted : runAll Operation.step (waryPending ++ [.abortAppend longAppend (7 : ℕ)])
      waryStart = waryAfter (waryPending ++ [.abortAppend longAppend (7 : ℕ)]) := rfl
  generalize waryAfter (waryPending ++ [.abortAppend longAppend (7 : ℕ)]) = aborted at *
  generalize waryAfter waryPending = pending at *
  refine ⟨⟨hresult, ?_⟩, ((batches_converge wary_lawful wary_immediateHonest hnew hintact'
    haborted).2 _ hbatch' [1, 1] [(7 : ℕ), (8 : ℕ)]).1⟩
  obtain ⟨-, -, hcommits, -⟩ := (batches_converge wary_lawful wary_immediateHonest hnew hintact
    hpending).2 _ hbatch [1, 1] [(7 : ℕ), (8 : ℕ)]
  obtain ⟨index, hindex, -, hconverges⟩ := hcommits _ _ (eq_ok_of_outcome hresult) ⟨(), rfl⟩
  cases hindex
  exact hconverges [(9 : ℕ)] [(7 : ℕ), (9 : ℕ)] rfl

end SequenceCache

end SeqCache
