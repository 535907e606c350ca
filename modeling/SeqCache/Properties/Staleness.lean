import SeqCache.Properties.Handles

/-!
# Replies to handles that are gone

Every handle is issued once.  A call that is given a handle of something that is gone reports
the error for that kind of handle, unless a check that the call makes before, or an earlier item
of its batch, fails first.
-/

namespace SeqCache

open Machine Program Std

variable {R : Runtime}

/-! ## Replies -/

/-- What the checks of a batch end with when those before item `index` end with `checked` and
the item names a sequence that is gone. -/
def faultAt (index : ℕ) : Except (CacheError R.Error × ℕ) Unit → CacheError R.Error × ℕ
  | .error fault => fault
  | .ok () => (.staleSequence, index)

namespace Operation

open SequenceCache

/-- The call issues the name. -/
def Introduces (operation : Operation R) (cache : SequenceCache R) (name : Name) : Prop :=
  ¬ cache.Knows name ∧ (operation.step cache).Knows name

/-- How a call ends that is given a sequence that is gone.  It reports `staleSequence` and does
nothing.  A reservation checks its number of rows first, and a batch its lengths and then its
items in order, of which those of a reservation have taken effect. -/
def Declines (operation : Operation R) (id : SequenceId) (cache : SequenceCache R) : Prop :=
  match operation with
  | .reserveAppend _ rows _ =>
      operation.result cache = .error (.error (staleRequest rows)) ∧ operation.step cache = cache
  | .reserveAppendBatch requests contexts =>
      if requests.length ≠ contexts.length then
        operation.result cache = .ok (.reservations (.error ⟨.appendBatchSizeMismatch, [], none⟩)) ∧
          operation.step cache = cache
      else ∃ before item after, requests.zip contexts = before ++ item :: after ∧
        item.1.sequence = id ∧ (∀ earlier ∈ before, earlier.1.sequence ≠ id) ∧
        operation.step cache =
          (Operation.reserveAppendBatch (before.map Prod.fst) (before.map Prod.snd)).step cache ∧
        operation.result cache =
          match (Operation.reserveAppendBatch (before.map Prod.fst) (before.map Prod.snd)).result
            cache with
          | .ok (.reservations (.ok granted)) => .ok (.reservations
              (.error ⟨staleRequest item.1.rows, granted, some before.length⟩))
          | reply => reply
  | .commitAppendBatch reservations rows contexts =>
      operation.step cache = cache ∧
        if reservations.length ≠ rows.length ∨ reservations.length ≠ contexts.length then
          operation.result cache = .ok (.finalized (.error
            ⟨.appendBatchSizeMismatch, cache.pendingAppendBatch [] reservations, none⟩))
        else ∃ before item after, reservations.zip rows = before ++ item :: after ∧
          item.1.sequence = id ∧ (∀ earlier ∈ before, earlier.1.sequence ≠ id) ∧
          ∃ fault, faultAt before.length (cache.checkCommits before 0) = fault ∧
            operation.result cache = .ok (.finalized (.error
              ⟨fault.1, cache.pendingAppendBatch [] reservations, some fault.2⟩))
  | .abortAppendBatch reservations contexts =>
      operation.step cache = cache ∧
        if reservations.length ≠ contexts.length then
          operation.result cache = .ok (.finalized (.error
            ⟨.appendBatchSizeMismatch, cache.pendingAppendBatch [] reservations, none⟩))
        else ∃ before item after, reservations = before ++ item :: after ∧
          item.sequence = id ∧ (∀ earlier ∈ before, earlier.sequence ≠ id) ∧
          ∃ fault, faultAt before.length (cache.checkAborts before 0) = fault ∧
            operation.result cache = .ok (.finalized (.error
              ⟨fault.1, cache.pendingAppendBatch [] reservations, some fault.2⟩))
  | .withAppendReservations reservations _ =>
      operation.step cache = cache ∧
        ∃ before item after, reservations = before ++ item :: after ∧
          item.sequence = id ∧ (∀ earlier ∈ before, earlier.sequence ≠ id) ∧
          operation.result cache =
            .error (.error (faultAt before.length (cache.checkAborts before 0)).1)
  | _ => operation.result cache = .error (.error .staleSequence) ∧ operation.step cache = cache

/-- How a call ends that is given an entry that is gone.  It reports `stalePrefix` and does
nothing, but an admission first polls the backend. -/
def DeclinesEntry (operation : Operation R) (cache : SequenceCache R) : Prop :=
  match operation with
  | .admitSequence _ _ context _ =>
      operation.step cache = (Operation.reclaimDeferred context).step cache ∧
        operation.result cache = match (Operation.reclaimDeferred context).result cache with
          | .ok _ => .error (.error .stalePrefix)
          | .error failure => .error failure
  | _ => operation.result cache = .error (.error .stalePrefix) ∧ operation.step cache = cache

end Operation

namespace SequenceCache

variable {cache cache' : SequenceCache R} {id : SequenceId} {orphans : List PageId}
variable {stray : List TokenBlockId} {operation : Operation R}

/-! ## Checks of a batch -/

theorem validateReservation_gone {reservation : AppendReservation}
    (hdead : cache.sequences.get? reservation.sequence = none) :
    cache.validateReservation reservation = .error .staleSequence := by
  rw [validateReservation, hdead]
  rfl

theorem requireReservation_gone {reservation : AppendReservation}
    (hdead : cache.sequences.get? reservation.sequence = none) :
    requireReservation reservation cache = .error (.error .staleSequence) cache := by
  refine reads_error _ ?_
  rw [validateReservation_gone hdead]
  rfl

/-- The checks of an abort stop at the first reservation of the sequence, or before. -/
theorem checkAborts_gone {item : AppendReservation}
    (hdead : cache.sequences.get? item.sequence = none) (before after : List AppendReservation)
    (index : ℕ) :
    cache.checkAborts (before ++ item :: after) index =
      .error (faultAt (index + before.length) (cache.checkAborts before index)) := by
  induction before generalizing index with
  | nil =>
      rw [List.nil_append, checkAborts.eq_2, validateReservation_gone hdead]
      rfl
  | cons first rest ih =>
      rw [List.cons_append, checkAborts.eq_2, checkAborts.eq_2]
      cases cache.validateReservation first with
      | error error => rfl
      | ok value =>
          simp only
          rw [ih, List.length_cons, Nat.add_assoc, Nat.add_comm 1]

theorem checkCommits_gone {item : AppendReservation × ℕ}
    (hdead : cache.sequences.get? item.1.sequence = none)
    (before after : List (AppendReservation × ℕ)) (index : ℕ) :
    cache.checkCommits (before ++ item :: after) index =
      .error (faultAt (index + before.length) (cache.checkCommits before index)) := by
  induction before generalizing index with
  | nil =>
      rw [List.nil_append, checkCommits.eq_2, validateReservation_gone hdead]
      rfl
  | cons first rest ih =>
      rw [List.cons_append, checkCommits.eq_2, checkCommits.eq_2]
      cases cache.validateReservation first.1 with
      | error error => rfl
      | ok value =>
          simp only
          split_ifs
          · rfl
          · rw [ih, List.length_cons, Nat.add_assoc, Nat.add_comm 1]

/-- Lending pages makes the checks of an abort. -/
theorem requireReservations_eq (items : List AppendReservation) (index : ℕ) :
    requireReservations items cache = match cache.checkAborts items index with
      | .error (error, _) => .error (.error error) cache
      | .ok () => .ok () cache := by
  induction items generalizing index with
  | nil => rfl
  | cons item rest ih =>
      rw [requireReservations, checkAborts]
      cases hvalid : cache.validateReservation item with
      | error error =>
          have hrequire : requireReservation item cache = .error (.error error) cache :=
            reads_error _ (by rw [hvalid]; rfl)
          exact bind_error hrequire
      | ok value =>
          have hrequire : requireReservation item cache = .ok () cache :=
            reads_ok _ (by rw [hvalid]; rfl)
          rw [bind_ok hrequire]
          exact ih (index + 1)

/-- The loop of a batch of reservations stops at the first one for the sequence, or before. -/
theorem reserveEach_gone (hlaw : R.Retires) (hinv : Inv orphans stray cache)
    {item : AppendBatchRequest × R.Context} (hexpired : cache.sequences.Expired item.1.sequence)
    (before after : List (AppendBatchRequest × R.Context)) (index : ℕ)
    (granted : List AppendReservation) :
    reserveEach (before ++ item :: after) index granted cache =
      match reserveEach before index granted cache with
      | .ok (.ok granted') cache' => .ok (.error
          ⟨staleRequest item.1.rows, granted', some (index + before.length)⟩) cache'
      | ended => ended := by
  induction before generalizing cache index granted orphans stray with
  | nil =>
      have hrun := reserveAppend_gone hexpired.get? item.1.rows item.2
      rw [List.nil_append, reserveEach.eq_2, bind_ok (attempt_error hrun)]
      rfl
  | cons first rest ih =>
      obtain ⟨request, context⟩ := first
      rw [List.cons_append, reserveEach.eq_2, reserveEach.eq_2]
      cases hrun : SequenceCache.reserveAppend request.sequence request.rows context cache with
      | ok reservation middle =>
          have hcall : (Operation.reserveAppend request.sequence request.rows context).run cache =
              .ok (.reservation reservation) middle := map_ok _ hrun
          have hfollows := Operation.follows hlaw hinv
            (.reserveAppend request.sequence request.rows context)
          obtain ⟨orphans', stray', hinv'⟩ := Operation.inv hlaw hinv
            (.reserveAppend request.sequence request.rows context)
          rw [Operation.step, hcall] at hfollows hinv'
          rw [bind_ok (attempt_ok hrun), bind_ok (attempt_ok hrun), List.length_cons,
            Nat.add_comm rest.length, ← Nat.add_assoc]
          exact ih hinv' (hfollows.sequences.expired hexpired) (index + 1)
            (granted ++ [reservation])
      | error failure middle =>
          cases failure with
          | error error => rw [bind_ok (attempt_error hrun), bind_ok (attempt_error hrun)]; rfl
          | panic message => rw [bind_error (attempt_panic hrun), bind_error (attempt_panic hrun)]

/-! ## Replies -/

/-- The first item that names the sequence, in a list that has one. -/
theorem exists_first {ι : Type*} (named : ι → SequenceId) {items : List ι}
    (h : ∃ item ∈ items, named item = id) : ∃ before item after, items = before ++ item :: after ∧
      named item = id ∧ ∀ earlier ∈ before, named earlier ≠ id := by
  have hsome : (items.find? (named · = id)).isSome := by simpa using h
  obtain ⟨item, hitem⟩ := Option.isSome_iff_exists.mp hsome
  obtain ⟨hnamed, before, after, hsplit, hbefore⟩ := List.find?_eq_some_iff_append.mp hitem
  exact ⟨before, item, after, hsplit, by simpa using hnamed,
    fun earlier hmem => by simpa using hbefore earlier hmem⟩

theorem ends_of_error {failure : Failure R.Error}
    (hrun : operation.run cache = .error failure cache') :
    operation.result cache = .error failure ∧ operation.step cache = cache' := by
  rw [Operation.result, Operation.step, hrun]
  exact ⟨rfl, rfl⟩

theorem ends_of_ok {reply : Reply R} (hrun : operation.run cache = .ok reply cache') :
    operation.result cache = .ok reply ∧ operation.step cache = cache' := by
  rw [Operation.result, Operation.step, hrun]
  exact ⟨rfl, rfl⟩

theorem withAppendReservations_declines {reservations : List AppendReservation}
    {lend : List (List (AppendSegment × R.Page)) → Except R.Error Unit}
    (hdead : cache.sequences.get? id = none)
    (hnamed : ∃ reservation ∈ reservations, reservation.sequence = id) :
    (Operation.withAppendReservations reservations lend).Declines id cache := by
  obtain ⟨before, item, after, rfl, hitem, hbefore⟩ :=
    exists_first AppendReservation.sequence hnamed
  have hchecks := checkAborts_gone (hitem ▸ hdead) before after 0
  have hrequire := @requireReservations_eq R cache (before ++ item :: after) 0
  rw [hchecks, Nat.zero_add] at hrequire
  have hrun : (Operation.withAppendReservations (before ++ item :: after) lend).run cache =
      .error (.error (faultAt before.length (cache.checkAborts before 0)).1) cache :=
    map_error _ (bind_error hrequire)
  obtain ⟨hresult, hstep⟩ := ends_of_error hrun
  exact ⟨hstep, before, item, after, rfl, hitem, hbefore, hresult⟩

theorem abortAppendBatch_declines {reservations : List AppendReservation}
    {contexts : List R.Context} (hdead : cache.sequences.get? id = none)
    (hnamed : ∃ reservation ∈ reservations, reservation.sequence = id) :
    (Operation.abortAppendBatch reservations contexts).Declines id cache := by
  by_cases hlength : reservations.length ≠ contexts.length
  · have hbatch : abortAppendBatch reservations contexts cache = .ok (.error
        ⟨.appendBatchSizeMismatch, cache.pendingAppendBatch [] reservations, none⟩) cache := by
      rw [abortAppendBatch, if_pos hlength]
      rfl
    have hrun : (Operation.abortAppendBatch reservations contexts).run cache = _ :=
      map_ok Reply.finalized hbatch
    obtain ⟨hresult, hstep⟩ := ends_of_ok hrun
    rw [Operation.Declines, if_pos hlength]
    exact ⟨hstep, hresult⟩
  · obtain ⟨before, item, after, hsplit, hitem, hbefore⟩ :=
      exists_first AppendReservation.sequence hnamed
    have hchecks := checkAborts_gone (hitem ▸ hdead) before after 0
    rw [Nat.zero_add, ← hsplit] at hchecks
    generalize hfault : faultAt before.length (cache.checkAborts before 0) = fault at hchecks
    have hbatch : abortAppendBatch reservations contexts cache = .ok (.error
        ⟨fault.1, cache.pendingAppendBatch [] reservations, some fault.2⟩) cache := by
      rw [abortAppendBatch, if_neg hlength, get_bind_run, hchecks]
      rfl
    have hrun : (Operation.abortAppendBatch reservations contexts).run cache = _ :=
      map_ok Reply.finalized hbatch
    obtain ⟨hresult, hstep⟩ := ends_of_ok hrun
    rw [Operation.Declines, if_neg hlength]
    exact ⟨hstep, before, item, after, hsplit, hitem, hbefore, fault, hfault, hresult⟩

theorem commitAppendBatch_declines {reservations : List AppendReservation} {rows : List ℕ}
    {contexts : List R.Context} (hdead : cache.sequences.get? id = none)
    (hnamed : ∃ reservation ∈ reservations, reservation.sequence = id) :
    (Operation.commitAppendBatch reservations rows contexts).Declines id cache := by
  by_cases hlength : reservations.length ≠ rows.length ∨ reservations.length ≠ contexts.length
  · have hbatch : commitAppendBatch reservations rows contexts cache = .ok (.error
        ⟨.appendBatchSizeMismatch, cache.pendingAppendBatch [] reservations, none⟩) cache := by
      rw [commitAppendBatch, if_pos hlength]
      rfl
    have hrun : (Operation.commitAppendBatch reservations rows contexts).run cache = _ :=
      map_ok Reply.finalized hbatch
    obtain ⟨hresult, hstep⟩ := ends_of_ok hrun
    rw [Operation.Declines, if_pos hlength]
    exact ⟨hstep, hresult⟩
  · have hzip : ∃ item ∈ reservations.zip rows, item.1.sequence = id := by
      obtain ⟨reservation, hmem, hreservation⟩ := hnamed
      have hrows : reservations.length ≤ rows.length := by omega
      rw [← List.map_fst_zip hrows] at hmem
      obtain ⟨item, hitem, rfl⟩ := List.mem_map.mp hmem
      exact ⟨item, hitem, hreservation⟩
    obtain ⟨before, item, after, hsplit, hitem, hbefore⟩ :=
      exists_first (fun item : AppendReservation × ℕ => item.1.sequence) hzip
    have hchecks := checkCommits_gone (hitem ▸ hdead) before after 0
    rw [Nat.zero_add, ← hsplit] at hchecks
    generalize hfault : faultAt before.length (cache.checkCommits before 0) = fault at hchecks
    have hbatch : commitAppendBatch reservations rows contexts cache = .ok (.error
        ⟨fault.1, cache.pendingAppendBatch [] reservations, some fault.2⟩) cache := by
      rw [commitAppendBatch, if_neg hlength, get_bind_run, hchecks]
      rfl
    have hrun : (Operation.commitAppendBatch reservations rows contexts).run cache = _ :=
      map_ok Reply.finalized hbatch
    obtain ⟨hresult, hstep⟩ := ends_of_ok hrun
    rw [Operation.Declines, if_neg hlength]
    exact ⟨hstep, before, item, after, hsplit, hitem, hbefore, fault, hfault, hresult⟩

theorem reserveAppendBatch_ends_ok {requests : List AppendBatchRequest} {contexts : List R.Context}
    {value : BatchResult R (List AppendReservation)}
    (h : reserveAppendBatch requests contexts cache = .ok value cache') :
    (Operation.reserveAppendBatch requests contexts).result cache = .ok (.reservations value) ∧
      (Operation.reserveAppendBatch requests contexts).step cache = cache' :=
  ends_of_ok (map_ok Reply.reservations h)

theorem reserveAppendBatch_ends_error {requests : List AppendBatchRequest}
    {contexts : List R.Context} {failure : Failure R.Error}
    (h : reserveAppendBatch requests contexts cache = .error failure cache') :
    (Operation.reserveAppendBatch requests contexts).result cache = .error failure ∧
      (Operation.reserveAppendBatch requests contexts).step cache = cache' :=
  ends_of_error (map_error Reply.reservations h)

theorem reserveAppendBatch_declines (hlaw : R.Retires) (hinv : Inv orphans stray cache)
    {requests : List AppendBatchRequest} {contexts : List R.Context}
    (hexpired : cache.sequences.Expired id)
    (hnamed : ∃ request ∈ requests, request.sequence = id) :
    (Operation.reserveAppendBatch requests contexts).Declines id cache := by
  by_cases hlength : requests.length ≠ contexts.length
  · have hbatch : reserveAppendBatch requests contexts cache =
        .ok (.error ⟨.appendBatchSizeMismatch, [], none⟩) cache := by
      rw [reserveAppendBatch, if_pos hlength]
      rfl
    have hrun : (Operation.reserveAppendBatch requests contexts).run cache = _ :=
      map_ok Reply.reservations hbatch
    rw [Operation.Declines, if_pos hlength]
    exact ends_of_ok hrun
  · have hzip : ∃ item ∈ requests.zip contexts, item.1.sequence = id := by
      obtain ⟨request, hmem, hrequest⟩ := hnamed
      rw [← List.map_fst_zip (not_not.mp hlength).le] at hmem
      obtain ⟨item, hitem, rfl⟩ := List.mem_map.mp hmem
      exact ⟨item, hitem, hrequest⟩
    obtain ⟨before, item, after, hsplit, hitem, hbefore⟩ :=
      exists_first (fun item : AppendBatchRequest × R.Context => item.1.sequence) hzip
    have hloop := reserveEach_gone hlaw hinv (hitem ▸ hexpired) before after 0 []
    have hpart : reserveAppendBatch (before.map Prod.fst) (before.map Prod.snd) cache =
        reserveEach before 0 [] cache := by
      rw [reserveAppendBatch, if_neg (by simp), ← List.zip_of_prod rfl rfl]
    have hbatch : reserveAppendBatch requests contexts cache =
        reserveEach (before ++ item :: after) 0 [] cache := by
      rw [reserveAppendBatch, if_neg hlength, hsplit]
    rw [Nat.zero_add, ← hpart, ← hbatch] at hloop
    rw [Operation.Declines, if_neg hlength]
    refine ⟨before, item, after, hsplit, hitem, hbefore, ?_⟩
    cases hearlier : reserveAppendBatch (before.map Prod.fst) (before.map Prod.snd) cache with
    | ok value cache' =>
        obtain ⟨hresult, hstep⟩ := reserveAppendBatch_ends_ok hearlier
        rw [hresult, hstep]
        rw [hearlier] at hloop
        cases value with
        | ok granted => exact (reserveAppendBatch_ends_ok hloop).symm
        | error failure => exact (reserveAppendBatch_ends_ok hloop).symm
    | error failure cache' =>
        obtain ⟨hresult, hstep⟩ := reserveAppendBatch_ends_error hearlier
        rw [hresult, hstep]
        rw [hearlier] at hloop
        exact (reserveAppendBatch_ends_error hloop).symm

/-- Whoever holds a sequence that is gone is told so. -/
theorem forgot_declines (h : cache.Forgot (.sequence id)) (hlaw : R.Retires)
    (hinv : Inv orphans stray cache) (hnames : operation.names (.sequence id)) :
    operation.Declines id cache := by
  have hexpired : cache.sequences.Expired id := h
  have hdead := hexpired.get?
  have hread : reads (·.sequenceRecord id) cache = .error (.error .staleSequence) cache :=
    reads_error (fun cache : SequenceCache R => cache.sequenceRecord id)
      (sequenceRecord_stale hdead)
  cases operation with
  | branch source request context =>
      obtain rfl := hnames
      exact ends_of_error (map_error Reply.admission (bind_error hread))
  | retainPrefix sequence tokens snapshot context =>
      obtain rfl := hnames
      exact ends_of_error (map_error Reply.retained (bind_error hread))
  | finish sequence context =>
      obtain rfl := hnames
      exact ends_of_error (map_error _ (bind_error hread))
  | reserveAppend sequence rows context =>
      obtain rfl := hnames
      exact ends_of_error (map_error Reply.reservation (reserveAppend_gone hdead rows context))
  | commitAppend reservation rows context =>
      obtain ⟨used, rfl, rfl⟩ := hnames
      exact ends_of_error (map_error _ (bind_error (requireReservation_gone hdead)))
  | abortAppend reservation context =>
      obtain ⟨used, rfl, rfl⟩ := hnames
      exact ends_of_error (map_error _ (bind_error (requireReservation_gone hdead)))
  | withAppendPages reservation lend =>
      obtain ⟨used, rfl, rfl⟩ := hnames
      exact ends_of_error (map_error _ (bind_error (requireReservation_gone hdead)))
  | withAppendReservations reservations lend => exact withAppendReservations_declines hdead hnames
  | abortAppendBatch reservations contexts => exact abortAppendBatch_declines hdead hnames
  | commitAppendBatch reservations rows contexts => exact commitAppendBatch_declines hdead hnames
  | reserveAppendBatch requests contexts =>
      exact reserveAppendBatch_declines hlaw hinv hexpired hnames
  | admitSequence | evictPrefix | lookupPrefix | reclaimDeferred =>
      obtain ⟨reservation, hfalse, -⟩ := hnames
      exact hfalse.elim

/-- Whoever holds an entry that is gone is told so. -/
theorem forgot_declinesEntry {entry : PrefixEntryId} (h : cache.Forgot (.entry entry))
    (hinv : Inv orphans stray cache) (hnames : operation.names (.entry entry)) :
    operation.DeclinesEntry cache := by
  cases operation with
  | admitSequence found request context restore =>
      obtain ⟨hit, rfl, rfl⟩ := Option.map_eq_some_iff.mp hnames
      have hadmit := admitSequence_gone hinv h.2 request context restore
      cases hpoll : reclaimDeferred context cache with
      | error failure polled =>
          have hreclaim : (Operation.reclaimDeferred context).run cache = .error failure polled :=
            map_error Reply.reclaimed hpoll
          rw [hpoll] at hadmit
          have hrun : (Operation.admitSequence (some hit) request context restore).run cache =
              .error failure polled := map_error Reply.admission hadmit
          rw [Operation.DeclinesEntry, (ends_of_error hreclaim).1, (ends_of_error hreclaim).2]
          exact (ends_of_error hrun).symm
      | ok reclaimed polled =>
          have hreclaim : (Operation.reclaimDeferred context).run cache =
              .ok (.reclaimed reclaimed) polled := map_ok Reply.reclaimed hpoll
          rw [hpoll] at hadmit
          have hrun : (Operation.admitSequence (some hit) request context restore).run cache =
              .error (.error .stalePrefix) polled := map_error Reply.admission hadmit
          rw [Operation.DeclinesEntry, (ends_of_ok hreclaim).1, (ends_of_ok hreclaim).2]
          exact (ends_of_error hrun).symm
  | evictPrefix entry context =>
      obtain rfl := hnames
      exact ends_of_error (map_error _ (evictPrefix_gone h.2 context))
  | _ => cases hnames

/-- How every use of a name ends that is gone. -/
def DeclinesName (cache : SequenceCache R) : Name → Prop
  | .sequence id => cache.pageTable id = .error (.error .staleSequence) ∧
      ∀ operation : Operation R, operation.names (.sequence id) → operation.Declines id cache
  | .page id => cache.page id = .error (.error .stalePage) ∧
      ∀ operation : Operation R, operation.names (.page id) → operation.Rebuffed cache
  | .entry entry =>
      ∀ operation : Operation R, operation.names (.entry entry) → operation.DeclinesEntry cache

theorem forgot_declinesName {name : Name} (h : cache.Forgot name) (hlaw : R.Retires)
    (hinv : Inv orphans stray cache) : cache.DeclinesName name := by
  cases name with
  | sequence id => exact ⟨h.reads.2 id rfl, fun _ hnames => forgot_declines h hlaw hinv hnames⟩
  | page id =>
      refine ⟨h.reads.1 id rfl, fun operation hnames => ?_⟩
      obtain ⟨reservation, hemploys, hmem⟩ : ∃ reservation, operation.employs reservation ∧
          id ∈ reservation.segments.map AppendSegment.page := by
        cases operation <;> exact hnames
      exact (spent_of_page hinv hmem (Arena.Expired.get? h)).rebuffed hemploys
  | entry entry => exact fun _ hnames => forgot_declinesEntry h hinv hnames

/-- In every run each handle is issued once, also to the pages of one sequence, and once what it
stood for is gone every use of it ends as above. -/
theorem stale_handles_declined {start : SequenceCache R} {config : CacheConfig}
    (hlaw : R.Retires) (hnew : SequenceCache.new R config = .ok start) :
    (∀ first later (issuing again : Operation R) (name name' : Name), Reaches start first →
      issuing.Introduces first name → Reaches (issuing.step first) later →
      again.Introduces later name' → name' ≠ name) ∧
    (∀ state id record, Reaches start state → state.sequences.get? id = some record →
      record.heldPages.Nodup) ∧
    ∀ first middle last (name : Name), Reaches start first → first.Knows name →
      Reaches first middle → ¬ middle.Knows name → Reaches middle last →
      ¬ last.Knows name ∧ last.DeclinesName name := by
  have hinv : ∀ state, Reaches start state → ∃ orphans stray, Inv orphans stray state :=
    fun state hreach => Reaches.inv hreach hlaw ⟨_, _, inv_of_new hnew⟩
  have hforgot : ∀ first middle last (name : Name), Reaches start first → first.Knows name →
      Reaches first middle → ¬ middle.Knows name → Reaches middle last → last.Forgot name := by
    intro first middle last name hfirst hknown hmiddle hgone hlast
    obtain ⟨orphans, stray, hstate⟩ := hinv first hfirst
    have hmiddleInv := Reaches.inv hmiddle hlaw ⟨_, _, hstate⟩
    have hlost := ((Reaches.follows hmiddle hlaw ⟨_, _, hstate⟩).knows_or_forgot hstate
      hknown).resolve_left hgone
    exact (Reaches.follows hlast hlaw hmiddleInv).forgot hlost
  refine ⟨?_, ?_, ?_⟩
  · rintro first later issuing again name name' hfirst hissued hlater hissued' rfl
    have hafter : Reaches start (issuing.step first) := hfirst.step issuing trivial
    exact (hforgot _ later _ name' hafter hissued.2 hlater hissued'.1
      (.step again .start trivial)).not_knows hissued'.2
  · intro state id record hreach hrecord
    obtain ⟨orphans, stray, hstate⟩ := hinv state hreach
    exact (hstate.owned.sequence id record hrecord).nodup
  · intro first middle last name hfirst hknown hmiddle hgone hlast
    have hlost := hforgot first middle last name hfirst hknown hmiddle hgone hlast
    obtain ⟨orphans, stray, hstate⟩ :=
      Reaches.inv hlast hlaw (Reaches.inv hmiddle hlaw (hinv first hfirst))
    exact ⟨hlost.not_knows, forgot_declinesName hlost hlaw hstate⟩

end SequenceCache

section Recycled

open Reference

theorem SequenceCache.recycled_reached : Reaches start (after [admission 7]) ∧
    (after [admission 7]).Knows (.sequence ⟨0, 0⟩) ∧ Reaches (after [admission 7]) finished ∧
      ¬ finished.Knows (.sequence ⟨0, 0⟩) ∧ Reaches finished recycled := by
  have hfirst : Reaches start (after [admission 7]) := (reachesIntact_after (by decide)).reaches
  have hmiddle : Reaches (after [admission 7]) finished := Reachable.start.step _ trivial
  have hlast : Reaches finished recycled := Reachable.start.step (admission 7) trivial
  exact ⟨hfirst, by decide, hmiddle, by decide, hlast⟩

/-- The finished sequence, whose slot is used again, cannot be branched. -/
theorem SequenceCache.stale_handles_declined_recycled :
    (Operation.branch ⟨0, 0⟩ ⟨2, 0, 0, false⟩ 7 : Operation plain).result recycled =
      .error (.error .staleSequence) := by
  obtain ⟨hfirst, hknown, hmiddle, hgone, hlast⟩ := recycled_reached
  obtain ⟨-, -, hdeclined⟩ := stale_handles_declined plain_lawful.toRetires new_start
  exact ((hdeclined _ _ _ _ hfirst hknown hmiddle hgone hlast).2.2
    (.branch ⟨0, 0⟩ ⟨2, 0, 0, false⟩ 7) rfl).1

/-- A reservation of no rows for a sequence that has finished reports that there are no rows. -/
theorem SequenceCache.recycled_invalidPosition :
    plain.Lawful ∧ SequenceCache.new plain Reference.config = .ok start ∧
      Reaches start (after [admission 7]) ∧ (after [admission 7]).Knows (.sequence ⟨0, 0⟩) ∧
      Reaches (after [admission 7]) finished ∧ ¬ finished.Knows (.sequence ⟨0, 0⟩) ∧
      (Operation.reserveAppend ⟨0, 0⟩ 0 7 : Operation plain).result finished =
        .error (.error .invalidPosition) := by
  obtain ⟨hfirst, hknown, hmiddle, hgone, -⟩ := recycled_reached
  exact ⟨plain_lawful, new_start, hfirst, hknown, hmiddle, hgone, rfl⟩

end Recycled

end SeqCache
