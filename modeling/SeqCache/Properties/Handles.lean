import SeqCache.Properties.Finalization
import SeqCache.Properties.Reservations

/-!
# Handles along runs

Slots are used again, handles are not.  A sequence, page or entry that is gone never comes
back under the same handle, in no continuation of the run, and every call that still names it
is rejected.
-/

namespace SeqCache

open Machine Program Std

variable {R : Runtime}

/-! ## Names -/

/-- What the cache hands out to its clients. -/
inductive Name
  | sequence (id : SequenceId)
  | page (id : PageId)
  | entry (id : PrefixEntryId)

/-- The name stands for something the cache holds. -/
def SequenceCache.Knows (cache : SequenceCache R) : Name → Prop
  | .sequence id => (cache.sequences.get? id).isSome
  | .page id => (cache.pages.get? id).isSome
  | .entry id => id ∈ cache.prefixes

instance (cache : SequenceCache R) : (name : Name) → Decidable (cache.Knows name)
  | .sequence id => inferInstanceAs (Decidable ((cache.sequences.get? id).isSome = true))
  | .page id => inferInstanceAs (Decidable ((cache.pages.get? id).isSome = true))
  | .entry id => inferInstanceAs (Decidable (id ∈ cache.prefixes))

/-- The name was handed out, and what it stood for is gone. -/
def SequenceCache.Forgot (cache : SequenceCache R) : Name → Prop
  | .sequence id => cache.sequences.Expired id
  | .page id => cache.pages.Expired id
  | .entry id => id < cache.nextPrefixId ∧ id ∉ cache.prefixes

namespace Operation

/-- The call passes the name in, by itself or inside a reservation. -/
def names : Operation R → Name → Prop
  | .admitSequence found _ _ _, .entry id => found.map PrefixMatch.entry = some id
  | .evictPrefix entry _, .entry id => entry = id
  | .branch source _ _, .sequence id => source = id
  | .reserveAppend sequence _ _, .sequence id => sequence = id
  | .reserveAppendBatch requests _, .sequence id => ∃ request ∈ requests, request.sequence = id
  | .retainPrefix sequence _ _ _, .sequence id => sequence = id
  | .finish sequence _, .sequence id => sequence = id
  | operation, .sequence id => ∃ reservation, operation.employs reservation ∧
      reservation.sequence = id
  | operation, .page id => ∃ reservation, operation.employs reservation ∧
      id ∈ reservation.segments.map AppendSegment.page
  | _, .entry _ => False

/-- The part of a batch of reservations before the first request for the sequence. -/
def batchBefore (id : SequenceId) (requests : List AppendBatchRequest)
    (contexts : List R.Context) : Operation R :=
  .reserveAppendBatch (requests.takeWhile (·.sequence ≠ id))
    (contexts.take (requests.takeWhile (·.sequence ≠ id)).length)

/-- The state that the call leaves behind when it rejects a name.  An admission has polled the
backend before it looks at its entry, and a batch of reservations does what the requests before
the first for the sequence do on their own, unless its arguments do not fit together. -/
def Leaves (operation : Operation R) (name : Name) (cache cache' : SequenceCache R) : Prop :=
  match operation, name with
  | .admitSequence _ _ context _, _ => cache' = (Operation.reclaimDeferred context).step cache
  | .reserveAppendBatch requests contexts, .sequence id =>
      cache' = if requests.length = contexts.length
        then (batchBefore id requests contexts).step cache else cache
  | _, _ => cache' = cache

/-- The call does not go through, because of a name it was given. -/
def Rejects (operation : Operation R) (name : Name) (cache : SequenceCache R) : Prop :=
  ¬ operation.Succeeds cache ∧ operation.Leaves name cache (operation.step cache)

end Operation

namespace SequenceCache

variable {cache cache' : SequenceCache R} {operation : Operation R} {name : Name}
  {orphans : List PageId} {stray : List TokenBlockId}

/-! ## What is gone stays gone -/

theorem Forgot.not_knows (h : cache.Forgot name) : ¬ cache.Knows name := by
  cases name with
  | sequence id =>
      rw [Knows, Arena.Expired.get? h]
      exact Bool.false_ne_true
  | page id =>
      rw [Knows, Arena.Expired.get? h]
      exact Bool.false_ne_true
  | entry id => exact h.2

/-- A name that is known stays known until it is forgotten. -/
theorem Follows.knows_or_forgot (h : Follows cache cache') (hinv : Inv orphans stray cache)
    (hknows : cache.Knows name) : cache'.Knows name ∨ cache'.Forgot name := by
  cases name with
  | sequence id =>
      obtain ⟨record, hrecord⟩ := Option.isSome_iff_exists.mp hknows
      refine (h.sequences.live_or_expired hrecord).imp_left ?_
      exact Option.isSome_iff_exists.mpr
  | page id =>
      obtain ⟨page, hpage⟩ := Option.isSome_iff_exists.mp hknows
      refine (h.pages.live_or_expired hpage).imp_left ?_
      exact Option.isSome_iff_exists.mpr
  | entry id =>
      by_cases hmem : id ∈ cache'.prefixes
      · exact Or.inl hmem
      · exact Or.inr ⟨(hinv.ids_below id hknows).trans_le h.nextPrefixId, hmem⟩

/-- No name is handed out twice. -/
theorem Follows.forgot (h : Follows cache cache') (hforgot : cache.Forgot name) :
    cache'.Forgot name := by
  cases name with
  | sequence id => exact h.sequences.expired hforgot
  | page id => exact h.pages.expired hforgot
  | entry id =>
      refine ⟨hforgot.1.trans_le h.nextPrefixId, fun hmem => ?_⟩
      rcases h.prefixes id hmem with hold | hnew
      · exact hforgot.2 hold
      · exact absurd hforgot.1 hnew.not_gt

/-! ## Rejections -/

theorem sequenceRecord_stale {id : SequenceId} (hdead : cache.sequences.get? id = none) :
    cache.sequenceRecord id = .error (.error .staleSequence) := by
  rw [sequenceRecord, hdead]
  rfl

theorem rejects_of_error {failure : Failure R.Error}
    (hleaves : operation.Leaves name cache cache)
    (hrun : operation.run cache = .error failure cache) : operation.Rejects name cache := by
  rw [Operation.Rejects, Operation.Succeeds, Operation.result, Operation.step, hrun]
  refine ⟨?_, hleaves⟩
  rintro ⟨reply, hreply, -⟩
  cases hreply

theorem rejects_of_rebuffed (hleaves : operation.Leaves name cache cache)
    (h : operation.Rebuffed cache) : operation.Rejects name cache := by
  obtain ⟨hstep, error, herror, -⟩ := h
  refine ⟨?_, hstep.symm ▸ hleaves⟩
  rintro ⟨reply, hreply, hnone⟩
  rw [hreply, callError, hnone] at herror
  cases herror

/-- A reservation that writes to a page that is gone is none of a pending append. -/
theorem spent_of_page {reservation : AppendReservation} {id : PageId}
    (hinv : Inv orphans stray cache) (hmem : id ∈ reservation.segments.map AppendSegment.page)
    (hdead : cache.pages.get? id = none) : Spent reservation cache := by
  rintro ⟨record, pending, hmatches⟩
  have hok := hinv.owned.sequence _ _ hmatches.live
  have hpending := hok.pending pending hmatches.waiting
  rw [hmatches.segments, hpending.segments_eq, segmentsOf, map_page_segmentsFrom] at hmem
  obtain ⟨page, hpage, -⟩ := hok.live (List.mem_of_mem_drop hmem)
  rw [hdead] at hpage
  cases hpage

/-- A request for a sequence that is gone stops its batch. -/
theorem eachOk_reserve_live {items : List (AppendBatchRequest × R.Context)}
    {granted : List AppendReservation} (hlaw : R.Retires)
    (h : EachOk reserveItem cache items granted cache') (hinv : Inv orphans stray cache)
    {item : AppendBatchRequest × R.Context} (hmem : item ∈ items) :
    ¬ cache.sequences.Expired item.1.sequence := by
  induction h generalizing orphans stray with
  | nil => exact absurd hmem List.not_mem_nil
  | @cons state middle final first rest value values hcall _ ih =>
      have hrun : (Operation.reserveAppend first.1.sequence first.1.rows first.2).run state =
          .ok (.reservation value) middle := map_ok _ hcall
      have hfollows := Operation.follows hlaw hinv
        (.reserveAppend first.1.sequence first.1.rows first.2)
      obtain ⟨orphans', stray', hinv'⟩ := Operation.inv hlaw hinv
        (.reserveAppend first.1.sequence first.1.rows first.2)
      rw [Operation.step, hrun] at hfollows hinv'
      rcases List.mem_cons.mp hmem with rfl | hmem
      · intro hexpired
        have hspec := reserveAppend_spec hinv item.1.sequence item.1.rows item.2
        rw [show reserveAppend item.1.sequence item.1.rows item.2 state = _ from hcall] at hspec
        obtain ⟨-, record, transaction, fresh, allocations, prepared, hreserved, -⟩ := hspec
        have hlive := hreserved.live
        rw [hexpired.get?] at hlive
        cases hlive
      · intro hexpired
        exact ih hinv' hmem (hfollows.sequences.expired hexpired)

/-- What a reservation of so many rows reports when its sequence is gone: the number of rows is
checked first. -/
def staleRequest (rows : ℕ) : CacheError R.Error :=
  if rows = 0 then .invalidPosition else .staleSequence

/-- A reservation for a sequence that is gone does nothing. -/
theorem reserveAppend_gone {id : SequenceId} (hdead : cache.sequences.get? id = none) (rows : ℕ)
    (context : R.Context) :
    SequenceCache.reserveAppend id rows context cache =
      .error (.error (staleRequest rows)) cache := by
  have hread : reads (·.sequenceRecord id) cache = .error (.error .staleSequence) cache :=
    reads_error (fun cache : SequenceCache R => cache.sequenceRecord id)
      (sequenceRecord_stale hdead)
  cases rows with
  | zero => rfl
  | succ rows =>
      rw [SequenceCache.reserveAppend, ensure_pos (Nat.succ_ne_zero rows), pure_bind_run]
      exact bind_error hread

/-- The loop of a batch does nothing from the first request for a sequence that is gone. -/
theorem reserveEach_stops (hlaw : R.Retires) (hinv : Inv orphans stray cache) {id : SequenceId}
    (hexpired : cache.sequences.Expired id) (items : List (AppendBatchRequest × R.Context))
    (index : ℕ) (granted : List AppendReservation) :
    finalState (reserveEach items index granted cache) =
      finalState (reserveEach (items.takeWhile (·.1.sequence ≠ id)) index granted cache) := by
  induction items generalizing cache index granted orphans stray with
  | nil => rfl
  | cons item rest ih =>
      obtain ⟨request, context⟩ := item
      by_cases hnamed : request.sequence = id
      · have hrun := reserveAppend_gone (hnamed ▸ hexpired.get?) request.rows context
        rw [List.takeWhile_cons_of_neg (by simpa using hnamed),
          reserveEach.eq_2, bind_ok (attempt_error hrun)]
        rfl
      · rw [List.takeWhile_cons_of_pos (by simpa using hnamed), reserveEach, reserveEach]
        cases hrun : SequenceCache.reserveAppend request.sequence request.rows context cache with
        | ok reservation middle =>
            have hcall : (Operation.reserveAppend request.sequence request.rows context).run cache =
                .ok (.reservation reservation) middle := map_ok _ hrun
            have hfollows := Operation.follows hlaw hinv
              (.reserveAppend request.sequence request.rows context)
            obtain ⟨orphans', stray', hinv'⟩ := Operation.inv hlaw hinv
              (.reserveAppend request.sequence request.rows context)
            rw [Operation.step, hcall] at hfollows hinv'
            rw [bind_ok (attempt_ok hrun), bind_ok (attempt_ok hrun)]
            exact ih hinv' (hfollows.sequences.expired hexpired) _ _
        | error failure middle =>
            cases failure with
            | error error => rw [bind_ok (attempt_error hrun), bind_ok (attempt_error hrun)]
            | panic message => rw [bind_error (attempt_panic hrun), bind_error (attempt_panic hrun)]

theorem zip_takeWhile {α β : Type} (keep : α → Bool) (xs : List α) (ys : List β) :
    (xs.zip ys).takeWhile (keep ·.1) =
      (xs.takeWhile keep).zip (ys.take (xs.takeWhile keep).length) := by
  induction xs generalizing ys with
  | nil => rfl
  | cons x xs ih =>
      cases ys with
      | nil => simp
      | cons y ys =>
          cases hkeep : keep x with
          | false => simp [hkeep]
          | true => simp [hkeep, ih]

theorem reserveAppendBatch_leaves (hlaw : R.Retires) (hinv : Inv orphans stray cache)
    (requests : List AppendBatchRequest) (contexts : List R.Context) {id : SequenceId}
    (hexpired : cache.sequences.Expired id) :
    (Operation.reserveAppendBatch requests contexts).Leaves (.sequence id) cache
      ((Operation.reserveAppendBatch requests contexts).step cache) := by
  have hstep : ∀ requests contexts,
      (Operation.reserveAppendBatch requests contexts).step cache =
        finalState (reserveAppendBatch requests contexts cache) := by
    intro requests contexts
    rw [Operation.step, Operation.run]
    cases hrun : reserveAppendBatch requests contexts cache with
    | ok value cache' => rw [map_ok _ hrun]; rfl
    | error failure cache' => rw [map_error _ hrun]; rfl
  have hbefore := (requests.takeWhile_sublist (·.sequence ≠ id)).length_le
  have hitems := zip_takeWhile (fun request : AppendBatchRequest => request.sequence ≠ id) requests
    contexts
  rw [Operation.Leaves, Operation.batchBefore, hstep, hstep]
  by_cases hlength : requests.length = contexts.length
  · rw [if_pos hlength, reserveAppendBatch, reserveAppendBatch, if_neg (not_not.mpr hlength),
      if_neg (by rw [List.length_take]; omega), ← hitems]
    exact reserveEach_stops hlaw hinv hexpired _ _ _
  · rw [if_neg hlength, reserveAppendBatch, if_pos hlength]
    rfl

theorem reserveAppendBatch_rejects (hlaw : R.Retires) (hinv : Inv orphans stray cache)
    {requests : List AppendBatchRequest} {contexts : List R.Context}
    {request : AppendBatchRequest} (hmem : request ∈ requests)
    (hexpired : cache.sequences.Expired request.sequence) :
    (Operation.reserveAppendBatch requests contexts).Rejects
      (.sequence request.sequence) cache := by
  refine ⟨?_, reserveAppendBatch_leaves hlaw hinv requests contexts hexpired⟩
  rintro ⟨reply, hreply, hnone⟩
  rw [Operation.result, Operation.run] at hreply
  by_cases hlength : requests.length ≠ contexts.length
  · rw [reserveAppendBatch, if_pos hlength] at hreply
    obtain rfl := Except.ok.inj hreply
    cases hnone
  rw [reserveAppendBatch, if_neg hlength] at hreply
  have hzip : ∃ item ∈ requests.zip contexts, item.1 = request := by
    have hfst : request ∈ (requests.zip contexts).map Prod.fst := by
      rwa [List.map_fst_zip (not_not.mp hlength).le]
    exact List.mem_map.mp hfst
  obtain ⟨item, hitem, rfl⟩ := hzip
  obtain ⟨granted, cache', heach, -⟩ |
      ⟨before, item', after, granted, middle, failure, cache', -, -, hends⟩ :=
    reserveEach_cases (requests.zip contexts) 0 [] cache
  · exact eachOk_reserve_live hlaw heach hinv hitem hexpired
  · obtain ⟨error, -, hrun⟩ | ⟨message, -, hrun⟩ := hends
    · rw [map_ok _ hrun] at hreply
      obtain rfl := Except.ok.inj hreply
      cases hnone
    · rw [map_error _ hrun] at hreply
      cases hreply

/-- An admission whose entry is gone ends when it has polled the backend. -/
theorem admitSequence_gone (hinv : Inv orphans stray cache) {found : PrefixMatch}
    (hgone : found.entry ∉ cache.prefixes) (request : AdmissionRequest) (context : R.Context)
    (restore : Option R.Snapshot → ℕ → Except R.Error Unit) :
    admitSequence (some found) request context restore cache =
      match reclaimDeferred context cache with
      | .ok _ polled => .error (.error .stalePrefix) polled
      | .error failure polled => .error failure polled := by
  have hspec := reclaimDeferred_spec hinv context
  cases hpoll : reclaimDeferred context cache with
  | error failure polled => exact bind_error hpoll
  | ok reclaimed polled =>
      rw [hpoll] at hspec
      have hkept : polled.prefixes = cache.prefixes := by
        rw [hspec.2.state, refresh]
      have hstart : polled.admissionStart (some found) = .error (.error .stalePrefix) := by
        rw [admissionStart, hkept, ExtTreeMap.getElem?_eq_none hgone]
        rfl
      rw [admitSequence, bind_ok hpoll]
      exact bind_error (reads_error (fun cache : SequenceCache R =>
        cache.admissionStart (some found)) hstart)

/-- An admission whose entry is gone has only polled the backend. -/
theorem admitSequence_rejects (hinv : Inv orphans stray cache) {found : PrefixMatch}
    (hgone : found.entry ∉ cache.prefixes) (request : AdmissionRequest) (context : R.Context)
    (restore : Option R.Snapshot → ℕ → Except R.Error Unit) :
    (Operation.admitSequence (some found) request context restore).Rejects
      (.entry found.entry) cache := by
  have hadmit := admitSequence_gone hinv hgone request context restore
  rw [Operation.Rejects, Operation.Succeeds, Operation.result, Operation.Leaves, Operation.step,
    Operation.step, Operation.run, Operation.run]
  cases hpoll : reclaimDeferred context cache with
  | error failure polled =>
      rw [hpoll] at hadmit
      rw [map_error _ hadmit, map_error _ hpoll]
      refine ⟨?_, rfl⟩
      rintro ⟨reply, hreply, -⟩
      cases hreply
  | ok reclaimed polled =>
      rw [hpoll] at hadmit
      rw [map_error _ hadmit, map_ok _ hpoll]
      refine ⟨?_, rfl⟩
      rintro ⟨reply, hreply, -⟩
      cases hreply

/-- An eviction of an entry that is gone does nothing. -/
theorem evictPrefix_gone {entry : PrefixEntryId} (hgone : entry ∉ cache.prefixes)
    (context : R.Context) :
    evictPrefix entry context cache = .error (.error .stalePrefix) cache := by
  rw [evictPrefix, get_bind_run, ensure_neg (by simpa using hgone), throw_bind_run]

/-- Whoever holds a name that is gone is turned away. -/
theorem Forgot.rejects (h : cache.Forgot name) (hlaw : R.Retires)
    (hinv : Inv orphans stray cache) (hnames : operation.names name) :
    operation.Rejects name cache := by
  cases name with
  | sequence id =>
      have hdead := Arena.Expired.get? h
      have hread : reads (·.sequenceRecord id) cache = .error (.error .staleSequence) cache :=
        reads_error (fun cache : SequenceCache R => cache.sequenceRecord id)
          (sequenceRecord_stale hdead)
      have hreserved : ∀ reservation, operation.employs reservation →
          reservation.sequence = id → operation.Rebuffed cache := by
        rintro reservation hemploys rfl
        exact (spent_of_stale hdead).rebuffed hemploys
      cases operation with
      | branch source request context =>
          obtain rfl := hnames
          exact rejects_of_error rfl (map_error Reply.admission (bind_error hread))
      | reserveAppend sequence rows context =>
          obtain rfl := hnames
          exact rejects_of_error rfl
            (map_error Reply.reservation (reserveAppend_gone hdead rows context))
      | reserveAppendBatch requests contexts =>
          obtain ⟨request, hmem, rfl⟩ := hnames
          exact reserveAppendBatch_rejects hlaw hinv hmem h
      | retainPrefix sequence tokens snapshot context =>
          obtain rfl := hnames
          exact rejects_of_error rfl (map_error Reply.retained (bind_error hread))
      | finish sequence context =>
          obtain rfl := hnames
          exact rejects_of_error rfl (map_error _ (bind_error hread))
      | admitSequence => obtain ⟨reservation, hfalse, -⟩ := hnames; exact hfalse.elim
      | evictPrefix => obtain ⟨reservation, hfalse, -⟩ := hnames; exact hfalse.elim
      | lookupPrefix => obtain ⟨reservation, hfalse, -⟩ := hnames; exact hfalse.elim
      | reclaimDeferred => obtain ⟨reservation, hfalse, -⟩ := hnames; exact hfalse.elim
      | _ =>
          obtain ⟨reservation, hemploys, hsequence⟩ := hnames
          exact rejects_of_rebuffed rfl (hreserved reservation hemploys hsequence)
  | page id =>
      have hreserved : ∀ reservation, operation.employs reservation →
          id ∈ reservation.segments.map AppendSegment.page → operation.Rebuffed cache :=
        fun reservation hemploys hmem =>
          (spent_of_page hinv hmem (Arena.Expired.get? h)).rebuffed hemploys
      cases operation with
      | commitAppend | abortAppend | commitAppendBatch | abortAppendBatch | withAppendPages
      | withAppendReservations =>
          obtain ⟨reservation, hemploys, hmem⟩ := hnames
          exact rejects_of_rebuffed rfl (hreserved reservation hemploys hmem)
      | _ => obtain ⟨reservation, hfalse, -⟩ := hnames; exact hfalse.elim
  | entry id =>
      cases operation with
      | admitSequence found request context restore =>
          obtain ⟨hit, rfl, rfl⟩ := Option.map_eq_some_iff.mp hnames
          exact admitSequence_rejects hinv h.2 request context restore
      | evictPrefix entry context =>
          obtain rfl := hnames
          exact rejects_of_error rfl (map_error _ (evictPrefix_gone h.2 context))
      | _ => cases hnames

/-- A page that is gone cannot be resolved, nor the table of a sequence that is. -/
theorem Forgot.reads (h : cache.Forgot name) :
    (∀ id, name = .page id → cache.page id = .error (.error .stalePage)) ∧
      ∀ id, name = .sequence id → cache.pageTable id = .error (.error .staleSequence) := by
  constructor
  · rintro id rfl
    rw [page, pageRecord, Arena.Expired.get? h]
    rfl
  · rintro id rfl
    rw [pageTable, sequenceRecord_stale (Arena.Expired.get? h)]
    rfl

/-- In every run, a name that was known and is no longer never comes back, and from then on
every call that is given it fails without an effect of its own. -/
theorem handles_never_revive {start first middle last : SequenceCache R} {config : CacheConfig}
    (hlaw : R.Retires) (hnew : SequenceCache.new R config = .ok start)
    (hfirst : Reaches start first) (hmiddle : Reaches first middle) (hlast : Reaches middle last)
    (hknown : first.Knows name) (hgone : ¬ middle.Knows name) :
    ¬ last.Knows name ∧
      (∀ id, name = .page id → last.page id = .error (.error .stalePage)) ∧
      (∀ id, name = .sequence id → last.pageTable id = .error (.error .staleSequence)) ∧
      ∀ operation : Operation R, operation.names name → operation.Rejects name last := by
  have hinv := Reaches.inv hfirst hlaw ⟨_, _, inv_of_new hnew⟩
  have hinv' := Reaches.inv hmiddle hlaw hinv
  obtain ⟨orphans', stray', hinv''⟩ := Reaches.inv hlast hlaw hinv'
  obtain ⟨orphans, stray, hinv⟩ := hinv
  have hforgot : middle.Forgot name :=
    ((Reaches.follows hmiddle hlaw ⟨_, _, hinv⟩).knows_or_forgot hinv hknown).resolve_left hgone
  have hstill := (Reaches.follows hlast hlaw hinv').forgot hforgot
  exact ⟨hstill.not_knows, hstill.reads.1, hstill.reads.2,
    fun operation hnames => hstill.rejects hlaw hinv'' hnames⟩

end SequenceCache

namespace Reference

/-- A sequence that has finished. -/
def finished : SequenceCache plain := Operation.step (.finish ⟨0, 0⟩ 7) (after [admission 7])

/-- Another one in the same slot. -/
def recycled : SequenceCache plain := (admission 7).step finished

end Reference

open Reference in
/-- A second sequence takes the slot of the first, which cannot be finished again. -/
theorem SequenceCache.handles_never_revive_recycled :
    recycled.Knows (.sequence ⟨0, 1⟩) ∧
      (Operation.finish ⟨0, 0⟩ 7 : Operation plain).Rejects (.sequence ⟨0, 0⟩) recycled := by
  have hfirst : Reaches start (after [admission 7]) := (reachesIntact_after (by decide)).reaches
  have hmiddle : Reaches (after [admission 7]) finished := Reachable.start.step _ trivial
  have hlast : Reaches finished recycled := Reachable.start.step (admission 7) trivial
  have hknown : (after [admission 7]).Knows (.sequence ⟨0, 0⟩) := by decide
  have hgone : ¬ finished.Knows (.sequence ⟨0, 0⟩) := by decide
  exact ⟨by decide, (handles_never_revive plain_lawful.toRetires new_start hfirst hmiddle hlast
    hknown hgone).2.2.2 _ rfl⟩

end SeqCache
