import SeqCache.Invariant.Likeness
import SeqCache.Properties.Starvation

/-!
# The life cycle of a request

A sequence is opened, reserved for, committed to, aborted and finished.  Once it is gone, the
cache is as it was before it came: the records of pages and all statistics are determined by
the other sequences and the retained entries, which such a life does not touch.
-/

namespace SeqCache

open Machine Program Std

variable {R : Runtime}

/-! ## Holders determine the rest -/

/-- Maps with the same keys have the same size. -/
theorem size_congr {K V : Type} [DecidableEq K] {cmp : K → K → Ordering} [TransCmp cmp]
    [LawfulEqCmp cmp] {map map' : ExtTreeMap K V cmp}
    (h : ∀ key : K, (∃ value, map[key]? = some value) ↔ ∃ value, map'[key]? = some value) :
    map.size = map'.size := by
  have hperm : (map.toList.map Prod.fst).Perm (map'.toList.map Prod.fst) := by
    apply (List.perm_ext_iff_of_nodup (tabulates_toList map).keys_nodup
      (tabulates_toList map').keys_nodup).mpr
    intro key
    have hkey : ∀ map : ExtTreeMap K V cmp,
        key ∈ map.toList.map Prod.fst ↔ ∃ value, map[key]? = some value := by
      intro map
      rw [List.mem_map]
      constructor
      · rintro ⟨⟨_, value⟩, hmem, rfl⟩
        exact ⟨value, ((tabulates_toList map).mem_iff _ value).mp hmem⟩
      · rintro ⟨value, hvalue⟩
        exact ⟨(key, value), ((tabulates_toList map).mem_iff key value).mpr hvalue, rfl⟩
    rw [hkey, hkey]
    exact h key
  rw [← ExtTreeMap.length_toList, ← ExtTreeMap.length_toList, ← List.length_map, hperm.length_eq,
    List.length_map]

@[simp]
theorem SequenceRecord.shape_heldPages {Transaction : Type}
    (record : SequenceRecord Transaction) : record.shape.heldPages = record.heldPages := by
  cases record with
  | mk pages position maxPosition reservedPages privateStateBytes pageTableBytes pending =>
      cases pending <;> rfl

namespace SequenceCache

variable {cache cache' cache'' : SequenceCache R}

/-- Two caches of one geometry with the same sequences and the same entries. -/
structure SameHolders (cache cache' : SequenceCache R) : Prop where
  config : cache'.config = cache.config
  pageBytes : cache'.pageBytes = cache.pageBytes
  pageCapacity : cache'.pageCapacity = cache.pageCapacity
  sequences : ∀ id, (cache'.sequences.get? id).map SequenceRecord.shape =
    (cache.sequences.get? id).map SequenceRecord.shape
  prefixes : cache'.prefixes = cache.prefixes

namespace SameHolders

theorem symm (h : SameHolders cache cache') : SameHolders cache' cache :=
  ⟨h.config.symm, h.pageBytes.symm, h.pageCapacity.symm, fun id => (h.sequences id).symm,
    h.prefixes.symm⟩

theorem activeCount_eq (h : SameHolders cache cache') (id : PageId) :
    activeCount cache'.sequences id = activeCount cache.sequences id := by
  apply Arena.total_congr
  intro sequence
  have hview := congrArg (Option.map fun record : SequenceRecord Unit =>
    record.heldPages.count id) (h.sequences sequence)
  rw [Option.map_map, Option.map_map] at hview
  simpa only [Function.comp_def, SequenceRecord.shape_heldPages] using hview

/-- A sequence of one cache has its counterpart in the other. -/
theorem sequence (h : SameHolders cache cache') {id : SequenceId}
    {record : SequenceRecord R.AppendTransaction}
    (hrecord : cache.sequences.get? id = some record) :
    ∃ record', cache'.sequences.get? id = some record' ∧ record'.shape = record.shape := by
  have hview := h.sequences id
  rw [hrecord] at hview
  exact Option.map_eq_some_iff.mp hview

/-- A page with a record in one cache has the same counts and rows in the other. -/
theorem page (h : SameHolders cache cache') (hinv : Inv [] [] cache) (hinv' : Inv [] [] cache')
    {id : PageId} {page : PageRecord R.Page} (hpage : cache.pages.get? id = some page) :
    ∃ page', cache'.pages.get? id = some page' ∧ page'.rowsAndRefs = page.rowsAndRefs := by
  have hok := hinv.owned.page id page hpage
  suffices hrows : ∃ page', cache'.pages.get? id = some page' ∧
      page'.validTokens = page.validTokens ∧ page'.sealed = page.sealed by
    obtain ⟨page', hpage', hvalid, hsealed⟩ := hrows
    have hok' := hinv'.owned.page id page' hpage'
    have hactive : page'.activeRefs = page.activeRefs := by
      rw [hok'.active_refs, hok.active_refs, h.activeCount_eq]
    have hprefix : page'.prefixRefs = page.prefixRefs := by
      rw [hok'.prefix_refs, hok.prefix_refs, h.prefixes]
    refine ⟨page', hpage', ?_⟩
    unfold PageRecord.rowsAndRefs
    rw [hactive, hprefix, hvalid, hsealed]
  obtain ⟨sequence, record, hrecord, hmem⟩ | ⟨key, entry, hentry, hmem⟩ := hok.holder
  · obtain ⟨record', hrecord', hshape⟩ := h.sequence hrecord
    have hheld : record'.heldPages = record.heldPages := by
      rw [← record'.shape_heldPages, hshape, record.shape_heldPages]
    have hposition : record'.position = record.position := by
      change record'.shape.position = record.shape.position
      rw [hshape]
    obtain ⟨n, hn⟩ := List.getElem?_of_mem hmem
    obtain ⟨found, hfound, hheldOk⟩ := (hinv.owned.sequence sequence record hrecord).held n id hn
    obtain rfl := Option.some.inj (hpage.symm.trans hfound)
    obtain ⟨page', hpage', hheldOk'⟩ :=
      (hinv'.owned.sequence sequence record' hrecord').held n id (hheld ▸ hn)
    obtain ⟨hvalid, hsealed⟩ := hheldOk.rows rfl
    obtain ⟨hvalid', hsealed'⟩ := hheldOk'.rows rfl
    rw [hposition, h.config] at hvalid' hsealed'
    refine ⟨page', hpage', hvalid'.trans hvalid.symm, ?_⟩
    rw [Bool.eq_iff_iff, hsealed', hsealed]
  · obtain ⟨found, hfound, -, hsealed, hvalid⟩ := (hinv.owned.entry key entry hentry).held id hmem
    obtain rfl := Option.some.inj (hpage.symm.trans hfound)
    obtain ⟨page', hpage', -, hsealed', hvalid'⟩ :=
      (hinv'.owned.entry key entry (h.prefixes ▸ hentry)).held id hmem
    rw [h.config] at hvalid'
    exact ⟨page', hpage', hvalid'.trans hvalid.symm, hsealed'.trans hsealed.symm⟩

/-- What the sequences and entries hold determines everything a client can see. -/
theorem alike (h : SameHolders cache cache') (hinv : Inv [] [] cache) (hinv' : Inv [] [] cache')
    (hdeferred : cache'.deferredPages = cache.deferredPages) : Alike cache cache' := by
  refine ⟨h.config, h.pageBytes, h.pageCapacity, h.sequences, fun id => ?_, h.prefixes, hdeferred,
    ?_⟩
  · cases hpage : cache.pages.get? id with
    | some page =>
        obtain ⟨page', hpage', hsame⟩ := h.page hinv hinv' hpage
        rw [hpage', Option.map_some, Option.map_some, hsame]
    | none =>
        cases hpage' : cache'.pages.get? id with
        | none => rfl
        | some page' =>
            obtain ⟨found, hfound, -⟩ := h.symm.page hinv' hinv hpage'
            rw [hpage] at hfound
            cases hfound
  · apply size_congr
    intro block
    have hheld : ∀ {cache : SequenceCache R}, Inv [] [] cache → ((∃ record,
        cache.index.blocks[block]? = some record) ↔ 0 < blockCount cache.prefixes [] block) := by
      intro cache hinv
      constructor
      · rintro ⟨record, hrecord⟩
        exact (hinv.filed.table.refs block record hrecord).2
      · exact hinv.filed.table.present block
    rw [hheld hinv, hheld hinv', h.prefixes]

end SameHolders

/-! ## Calls on one sequence -/

/-- Nothing but the sequence and what it holds has changed. -/
structure Beside (sequence : SequenceId) (cache cache' : SequenceCache R) : Prop where
  config : cache'.config = cache.config
  pageBytes : cache'.pageBytes = cache.pageBytes
  pageCapacity : cache'.pageCapacity = cache.pageCapacity
  others : ∀ id, id ≠ sequence → (cache'.sequences.get? id).map SequenceRecord.shape =
    (cache.sequences.get? id).map SequenceRecord.shape
  prefixes : cache'.prefixes = cache.prefixes

variable {sequence : SequenceId}

theorem Beside.refl (sequence : SequenceId) (cache : SequenceCache R) :
    Beside sequence cache cache := ⟨rfl, rfl, rfl, fun _ _ => rfl, rfl⟩

theorem Beside.trans (h : Beside sequence cache cache') (h' : Beside sequence cache' cache'') :
    Beside sequence cache cache'' :=
  ⟨h'.config.trans h.config, h'.pageBytes.trans h.pageBytes,
    h'.pageCapacity.trans h.pageCapacity,
    fun id hne => (h'.others id hne).trans (h.others id hne), h'.prefixes.trans h.prefixes⟩

/-- Where the sequence is unknown before and after, nothing has changed. -/
theorem Beside.sameHolders (h : Beside sequence cache cache')
    (hnone : cache.sequences.get? sequence = none)
    (hnone' : cache'.sequences.get? sequence = none) : SameHolders cache cache' := by
  refine ⟨h.config, h.pageBytes, h.pageCapacity, fun id => ?_, h.prefixes⟩
  by_cases heq : id = sequence
  · rw [heq, hnone, hnone']
  · exact h.others id heq

/-- Nothing but the sequence has changed, and it is not removed. -/
structure Attended (sequence : SequenceId) (cache cache' : SequenceCache R) : Prop
    extends Beside sequence cache cache' where
  live : (cache.sequences.get? sequence).isSome → (cache'.sequences.get? sequence).isSome

theorem Attended.refl (sequence : SequenceId) (cache : SequenceCache R) :
    Attended sequence cache cache := ⟨.refl sequence cache, fun hlive => hlive⟩

theorem Attended.trans (h : Attended sequence cache cache')
    (h' : Attended sequence cache' cache'') : Attended sequence cache cache'' :=
  ⟨h.toBeside.trans h'.toBeside, fun hlive => h'.live (h.live hlive)⟩

theorem Reserved.attended {record : SequenceRecord R.AppendTransaction} {rows : ℕ}
    {context : R.Context} {transaction : R.AppendTransaction} {fresh : List PageId}
    {allocations : List R.Page} {prepared : R.History}
    (h : Reserved cache cache' sequence record rows context transaction fresh allocations
      prepared) : Attended sequence cache cache' := by
  rw [h.state]
  refine ⟨⟨rfl, rfl, rfl, fun id hne => ?_, rfl⟩, fun _ => ?_⟩
  · change ((cache.sequences.set sequence _).get? id).map _ = _
    rw [Arena.get?_set h.live, if_neg hne]
  · change ((cache.sequences.set sequence _).get? sequence).isSome
    rw [Arena.get?_set h.live, if_pos rfl, Option.isSome_some]

theorem Settled.attended {record : SequenceRecord R.AppendTransaction}
    {pending : PendingAppend R.AppendTransaction} {committed : ℕ} {event : R.Event}
    (h : Settled cache cache' sequence record pending committed event) :
    Attended sequence cache cache' := by
  rw [h.state]
  refine ⟨⟨rfl, rfl, rfl, fun id hne => ?_, rfl⟩, fun _ => ?_⟩
  · change ((cache.sequences.set sequence _).get? id).map _ = _
    rw [Arena.get?_set h.live, if_neg hne]
  · change ((cache.sequences.set sequence _).get? sequence).isSome
    rw [Arena.get?_set h.live, if_pos rfl, Option.isSome_some]

theorem Finished.beside {record : SequenceRecord R.AppendTransaction} {context : R.Context}
    {physical : List R.Page} {deferred : ℕ}
    (h : Finished cache cache' sequence record context physical deferred) :
    Beside sequence cache cache' ∧ cache'.sequences.get? sequence = none := by
  rw [h.state]
  refine ⟨⟨rfl, rfl, rfl, fun id hne => ?_, rfl⟩, ?_⟩
  · change ((cache.sequences.release sequence).get? id).map _ = _
    rw [Arena.get?_release h.live, if_neg hne]
  · change (cache.sequences.release sequence).get? sequence = none
    rw [Arena.get?_release h.live, if_pos rfl]

theorem Reclaimed.beside {context : R.Context} {reclaimed : ℕ}
    (h : Reclaimed cache cache' context reclaimed) (sequence : SequenceId) :
    Beside sequence cache cache' := by
  rw [h.state]
  exact ⟨rfl, rfl, rfl, fun _ _ => rfl, rfl⟩

theorem Admission.beside {limit : ℕ} {protectedEntry : Option PrefixEntryId}
    {flight physical : List R.Page} {context : R.Context} {shared fresh retired : List PageId}
    {record : SequenceRecord R.AppendTransaction} {plan : List PrefixEntryId}
    {opened evicted : SequenceCache R} {deferred : ℕ}
    (h : Admission cache cache' limit protectedEntry flight context shared fresh sequence record
      plan opened evicted retired physical deferred) (hkept : cache'.prefixes = cache.prefixes) :
    Beside sequence cache cache' ∧ cache.sequences.get? sequence = none ∧
      (cache'.sequences.get? sequence).isSome := by
  have hsequences : evicted.sequences = cache.sequences := by
    rw [h.carried_out.sequences, h.published]
  refine ⟨⟨h.config, ?_, ?_, fun id hne => ?_, hkept⟩, hsequences ▸ h.admitted.absent, ?_⟩
  · rw [h.admitted.state]
    change evicted.pageBytes = cache.pageBytes
    rw [h.carried_out.pageBytes, h.published]
  · rw [h.admitted.state]
    change evicted.pageCapacity = cache.pageCapacity
    rw [h.carried_out.pageCapacity, h.published]
  · rw [h.admitted.sequences, if_neg hne, hsequences]
  · rw [h.admitted.sequences, if_pos rfl, Option.isSome_some]

end SequenceCache

theorem Quiet.attended {cache cache' : SequenceCache R} (h : Quiet cache cache')
    (sequence : SequenceId) :
    SequenceCache.Attended sequence cache cache' := by
  obtain ⟨change, hupdated⟩ := h.sequences
  refine ⟨⟨h.config, h.pageBytes, h.pageCapacity, fun id _ => ?_, h.prefixes⟩, fun hlive => ?_⟩
  · rw [hupdated.get? id, Option.map_map]
    congr 1
    funext record
    exact record.shape_mapTransaction (change id)
  · rw [hupdated.get? sequence, Option.isSome_map]
    exact hlive

/-- The call works on the appends of this sequence and on nothing else. -/
def Operation.Serves (sequence : SequenceId) : Operation R → Prop
  | .reserveAppend id _ _ => id = sequence
  | .commitAppend reservation _ _ => reservation.sequence = sequence
  | .abortAppend reservation _ => reservation.sequence = sequence
  | .withAppendPages reservation _ => reservation.sequence = sequence
  | _ => False

namespace SequenceCache

variable {cache cache' final start : SequenceCache R} {sequence : SequenceId}
variable {operation opening : Operation R} {operations : List (Operation R)}

theorem attended_ofEnds {α : Type} {program : CacheM R α} {reply : α → Reply R}
    (hrun : operation.run = reply <$> program) (hintact : ¬ Exhausted (operation.result cache))
    (h : Ends (program cache) (fun _ cache' => Attended sequence cache cache')
      (fun failure cache' => ¬ Exhausted (.error failure : Except (Failure R.Error) (Reply R)) →
        Attended sequence cache cache')) : Attended sequence cache (operation.step cache) := by
  rw [Operation.result, hrun] at hintact
  rw [Operation.step, hrun]
  cases hprogram : program cache with
  | ok value cache' =>
      rw [hprogram] at h
      rw [map_ok reply hprogram]
      exact h
  | error failure cache' =>
      rw [hprogram] at h
      rw [map_error reply hprogram] at hintact ⊢
      exact h hintact

theorem FinalizeFails.attended {stray : List TokenBlockId} {reservation : AppendReservation}
    {valid : Prop} {committed : ℕ} {context : R.Context} {failure : Failure R.Error}
    (h : FinalizeFails [] stray cache reservation valid committed context failure cache')
    (hintact : ¬ Exhausted (.error failure : Except (Failure R.Error) (Reply R))) :
    Attended sequence cache cache' := by
  obtain ⟨-, rfl⟩ | ⟨error, -, hback⟩ | ⟨rfl, -⟩ := h
  · exact .refl sequence cache'
  · exact hback.unchanged.quiet.attended sequence
  · exact absurd trivial hintact

/-- A call on one sequence leaves the others and the entries alone, also when it fails. -/
theorem Sound.attended (h : Sound cache) (hserves : operation.Serves sequence)
    (hintact : ¬ Exhausted (operation.result cache)) :
    Attended sequence cache (operation.step cache) := by
  cases operation with
  | reserveAppend id rows context =>
      obtain rfl := hserves
      apply attended_ofEnds rfl hintact
      refine Ends.mono (reserveAppend_spec h.inv id rows context) ?_ ?_
      · rintro reservation cache' ⟨-, record, transaction, fresh, allocations, prepared,
          hreserved, -⟩
        exact hreserved.attended
      · rintro failure cache' ⟨-, -, hattempted⟩ -
        exact hattempted.quiet.attended id
  | commitAppend reservation rows context =>
      obtain rfl := hserves
      apply attended_ofEnds rfl hintact
      refine Ends.mono (commitAppend_spec h.inv reservation rows context) ?_ ?_
      · rintro - cache' ⟨-, record, pending, event, -, -, hsettled⟩
        exact hsettled.attended
      · exact fun failure cache' hfails => hfails.attended
  | abortAppend reservation context =>
      obtain rfl := hserves
      apply attended_ofEnds rfl hintact
      refine Ends.mono (abortAppend_spec h.inv reservation context) ?_ ?_
      · rintro - cache' ⟨-, record, pending, event, -, -, hsettled⟩
        exact hsettled.attended
      · exact fun failure cache' hfails => hfails.attended
  | withAppendPages reservation lend =>
      have hcalled : ∀ {cache' : SequenceCache R}, Called 0 cache cache' [] →
          Attended sequence cache cache' := by
        intro cache' hcalled
        rw [hcalled.state]
        exact (Quiet.ofBackend _).attended sequence
      apply attended_ofEnds rfl hintact
      refine Ends.mono (withAppendPages_spec h.inv reservation lend) ?_ ?_
      · exact fun _ cache' => hcalled
      · rintro failure cache' (⟨error, -, -, rfl⟩ | ⟨-, hlent, -⟩) -
        · exact .refl sequence cache'
        · exact hcalled hlent
  | _ => exact hserves.elim

theorem Sound.runAll_attended (hlaw : R.Retires) (hhonest : R.ImmediateHonest) (h : Sound cache)
    (hserves : ∀ operation ∈ operations, operation.Serves sequence)
    (hintact : AllAllowed Operation.step
      (fun cache operation => ¬ Exhausted (operation.result cache)) operations cache) :
    Attended sequence cache (runAll Operation.step operations cache) ∧
      Sound (runAll Operation.step operations cache) := by
  induction operations generalizing cache with
  | nil => exact ⟨.refl sequence cache, h⟩
  | cons operation rest ih =>
      have hfirst := h.attended (hserves operation (by simp)) hintact.1
      obtain ⟨hrest, hsound⟩ := ih (h.step hlaw hhonest hintact.1)
        (fun other hmem => hserves other (List.mem_cons_of_mem _ hmem)) hintact.2
      exact ⟨hfirst.trans hrest, hsound⟩

/-- An admission that keeps every entry adds a sequence and changes nothing else. -/
theorem Sound.opened_beside (hlaw : R.Retires) (h : Sound cache) {request : AdmissionRequest}
    (hrequest : opening.request? = some request)
    (hadmitted : opening.result cache = .ok (.admission (.admitted sequence)))
    (hkept : (opening.step cache).prefixes = cache.prefixes) :
    Beside sequence cache (opening.step cache) ∧ cache.sequences.get? sequence = none ∧
      ((opening.step cache).sequences.get? sequence).isSome := by
  cases opening with
  | admitSequence prefixMatch found context restore =>
      obtain ⟨outcome, cache', hrun, rfl, hreply⟩ := Operation.result_eq_ok rfl hadmitted
      obtain rfl := Reply.admission.inj hreply
      have hspec := admitSequence_spec hlaw h.inv prefixMatch found context restore
      rw [hrun] at hspec
      obtain ⟨-, reclaimed, middle, hreclaimed, -, ⟨hblocked, -⟩ | ⟨_, _, _, _, _, _, _, _, id, _,
        _, _, _, hopened, -, hadmission⟩⟩ := hspec
      · cases hblocked
      · obtain rfl := AdmissionOutcome.admitted.inj hopened
        have hpolled := hreclaimed.beside sequence
        obtain ⟨hbeside, hnone, hlive⟩ := hadmission.beside (hkept.trans hpolled.prefixes.symm)
        refine ⟨hpolled.trans hbeside, ?_, hlive⟩
        rw [hreclaimed.state] at hnone
        exact hnone
  | branch source found context =>
      obtain ⟨outcome, cache', hrun, rfl, hreply⟩ := Operation.result_eq_ok rfl hadmitted
      obtain rfl := Reply.admission.inj hreply
      have hspec := branch_spec hlaw h.inv source found context
      rw [hrun] at hspec
      obtain ⟨-, ⟨hblocked, -⟩ | ⟨_, _, _, _, _, _, _, id, _, _, _, _, _, _, hopened, -,
        hadmission⟩⟩ := hspec
      · cases hblocked
      · obtain rfl := AdmissionOutcome.admitted.inj hopened
        exact hadmission.beside hkept
  | _ => cases hrequest

/-- Finishing removes the sequence and leaves the others and the entries alone. -/
theorem Sound.finished_beside (hlaw : R.Retires) (hhonest : R.ImmediateHonest) (h : Sound cache)
    {context : R.Context}
    (hfinished : (Operation.finish sequence context).run cache = .ok .done final) :
    Beside sequence cache final ∧ final.sequences.get? sequence = none ∧ Sound final := by
  have hresult : (Operation.finish sequence context).result cache = .ok .done := by
    rw [Operation.result, hfinished]
    rfl
  have hstep : (Operation.finish sequence context).step cache = final := by
    rw [Operation.step, hfinished]
    rfl
  obtain ⟨_, cache', hrun, hcache', -⟩ := Operation.result_eq_ok rfl hresult
  obtain rfl := hcache'.symm.trans hstep
  have hspec := finish_spec hlaw h.inv sequence context
  rw [hrun] at hspec
  obtain ⟨-, record, physical, deferred, hleft⟩ := hspec
  obtain ⟨hbeside, hgone⟩ := hleft.beside
  refine ⟨hbeside, hgone, ?_⟩
  apply h.ok hlaw hhonest hfinished
  rintro kind ⟨⟩

/-- A sequence that is opened without evictions, operated in any way and finished leaves the
cache as it was, when the backend always retires at once. -/
theorem Sound.lifecycle (h : Sound cache) (hlaw : R.Retires) (hhonest : R.ImmediateHonest)
    (hsteady : R.SteadyRetirement) (himmediate : R.retirementIsImmediate [] = true)
    {request : AdmissionRequest} (hrequest : opening.request? = some request)
    (hadmitted : opening.result cache = .ok (.admission (.admitted sequence)))
    (hkept : (opening.step cache).prefixes = cache.prefixes)
    (hserves : ∀ operation ∈ operations, operation.Serves sequence)
    (hintact : AllAllowed Operation.step
      (fun cache operation => ¬ Exhausted (operation.result cache)) operations
      (opening.step cache)) :
    Sound (runAll Operation.step operations (opening.step cache)) ∧
      ((runAll Operation.step operations (opening.step cache)).sequences.get? sequence).isSome ∧
      ∀ context final, (Operation.finish sequence context).run
          (runAll Operation.step operations (opening.step cache)) = .ok .done final →
        Alike cache final ∧ final.stats = cache.stats ∧ final.gauges = cache.gauges := by
  obtain ⟨hopened, hnone, hlive⟩ := h.opened_beside hlaw hrequest hadmitted hkept
  have hbegun : Sound (opening.step cache) := by
    apply h.step hlaw hhonest
    rw [hadmitted]
    rintro ⟨kind, hkind⟩
    cases hkind
  obtain ⟨hserved, hlast⟩ := hbegun.runAll_attended hlaw hhonest hserves hintact
  refine ⟨hlast, hserved.live hlive, fun context final hfinished => ?_⟩
  obtain ⟨hfinish, hgone, hfinal⟩ := hlast.finished_beside hlaw hhonest hfinished
  have hholders := ((hopened.trans hserved.toBeside).trans hfinish).sameHolders hnone hgone
  -- Nothing is ever deferred, so the charge depends on the holders alone.
  have hdeferred : final.deferredPages = cache.deferredPages := by
    rw [hfinal.immediate hsteady [] himmediate, h.immediate hsteady [] himmediate]
  have halike := hholders.alike h.inv hfinal.inv hdeferred
  have hstats := halike.stats_eq h.inv hfinal.inv
  refine ⟨halike, hstats, ?_⟩
  rw [hfinal.inv.published.gauges_eq, h.inv.published.gauges_eq, hstats]

/-- An idle sequence can be finished, when the backend refuses no retirement. -/
theorem Sound.finish_completes (hlaw : R.Retires) (h : Sound cache)
    (hretires : ∀ history context pages failure,
      R.retirePages history context pages ≠ .error failure)
    (hlive : (cache.sequences.get? sequence).isSome)
    (hidle : ∀ record, cache.sequences.get? sequence = some record → record.pending = none)
    {context : R.Context}
    (hintact : ¬ Exhausted ((Operation.finish sequence context).result cache)) :
    ∃ final, (Operation.finish sequence context).run cache = .ok .done final := by
  obtain ⟨record, hrecord⟩ := Option.isSome_iff_exists.mp hlive
  have hspec := finish_spec hlaw h.inv sequence context
  rw [Operation.run]
  rw [Operation.result, Operation.run] at hintact
  cases hrun : finish sequence context cache with
  | ok value final => exact ⟨final, map_ok _ hrun⟩
  | error failure final =>
      rw [hrun] at hspec
      rw [map_error _ hrun] at hintact
      obtain ⟨-, hstale, -⟩ | ⟨other, hother,
        ⟨-, hbusy, -⟩ | ⟨rfl, -⟩ | ⟨⟨rfl, -⟩ | ⟨answer, physical, -, -, hanswer, -⟩, -⟩⟩ := hspec
      · rw [hrecord] at hstale
        cases hstale
      · rw [hidle other hother] at hbusy
        cases hbusy
      · exact absurd trivial hintact
      · exact absurd trivial hintact
      · exact absurd hanswer (hretires _ _ _ _)

/-- From every state of every run that exhausts no identity space, a sequence that is opened
without evictions, operated in any way and finished leaves the cache as it was, when the
backend always retires at once. -/
theorem lifecycle_restores (hlaw : R.Retires) (hhonest : R.ImmediateHonest)
    (hsteady : R.SteadyRetirement) (himmediate : R.retirementIsImmediate [] = true)
    {config : CacheConfig} (hnew : SequenceCache.new R config = .ok start)
    (hreach : ReachesIntact start cache)
    {request : AdmissionRequest} (hrequest : opening.request? = some request)
    (hadmitted : opening.result cache = .ok (.admission (.admitted sequence)))
    (hkept : (opening.step cache).prefixes = cache.prefixes)
    (hserves : ∀ operation ∈ operations, operation.Serves sequence)
    (hintact : AllAllowed Operation.step
      (fun cache operation => ¬ Exhausted (operation.result cache)) operations
      (opening.step cache))
    {context : R.Context}
    (hfinished : (Operation.finish sequence context).run
      (runAll Operation.step operations (opening.step cache)) = .ok .done final) :
    Alike cache final ∧ final.stats = cache.stats ∧ final.gauges = cache.gauges :=
  ((ReachesIntact.sound hreach hlaw hhonest (sound_of_new hnew)).lifecycle hlaw hhonest hsteady
    himmediate hrequest hadmitted hkept hserves hintact).2.2 context final hfinished

end SequenceCache

/-- Three rows of which two are committed, and one more that is aborted. -/
def Reference.attempts : List (Operation Reference.plain) :=
  [.reserveAppend ⟨1, 0⟩ 3 9,
    .commitAppend ⟨⟨1, 0⟩, 2, 3, [⟨⟨3, 0⟩, 0, 0, 2⟩, ⟨⟨4, 0⟩, 0, 2, 1⟩], 2⟩ 2 9,
    .reserveAppend ⟨1, 0⟩ 1 9,
    .abortAppend ⟨⟨1, 0⟩, 4, 1, [⟨⟨4, 1⟩, 0, 0, 1⟩], 3⟩ 9]

/-- A sequence that continues the retained page, beside another sequence. -/
theorem SequenceCache.lifecycle_restores_continuing :
    ∃ final, (@Operation.finish Reference.plain ⟨1, 0⟩ 9).run (runAll Operation.step
        Reference.attempts ((Reference.continuing 8).step (Reference.after Reference.unaligned))) =
          .ok .done final ∧
      Alike (Reference.after Reference.unaligned) final ∧
      final.stats = (Reference.after Reference.unaligned).stats ∧
      final.gauges = (Reference.after Reference.unaligned).gauges := by
  have hreach : ReachesIntact Reference.start (Reference.after Reference.unaligned) :=
    Reference.reachesIntact_after (by decide +kernel)
  have hadmitted : outcome (admitSequence (some ⟨0, 2, 1⟩) ⟨8, 0, 0, false⟩ (9 : ℕ)
      (fun _ _ => .ok ()) (Reference.after Reference.unaligned)) = .ok (.admitted ⟨1, 0⟩) := by
    decide +kernel
  have hopened : (Reference.continuing 8).result (Reference.after Reference.unaligned) =
      .ok (.admission (.admitted ⟨1, 0⟩)) :=
    congrArg outcome (map_ok Reply.admission (eq_ok_of_outcome hadmitted))
  have hkept : ((Reference.continuing 8).step (Reference.after Reference.unaligned)).prefixes =
      (Reference.after Reference.unaligned).prefixes := by
    decide +kernel
  have hintact : AllAllowed Operation.step
      (fun cache operation => ¬ Exhausted (operation.result cache)) Reference.attempts
      ((Reference.continuing 8).step (Reference.after Reference.unaligned)) := by decide +kernel
  have hserves : ∀ operation ∈ Reference.attempts, operation.Serves ⟨1, 0⟩ := by
    simp [Reference.attempts, Operation.Serves]
  have hfinished : outcome (finish ⟨1, 0⟩ (9 : ℕ) (runAll Operation.step Reference.attempts
      ((Reference.continuing 8).step (Reference.after Reference.unaligned)))) = .ok () := by
    decide +kernel
  obtain ⟨final, hfinal⟩ : ∃ final, (@Operation.finish Reference.plain ⟨1, 0⟩ 9).run (runAll
      Operation.step Reference.attempts
      ((Reference.continuing 8).step (Reference.after Reference.unaligned))) = .ok .done final :=
    ⟨_, map_ok (fun _ => Reply.done) (eq_ok_of_outcome hfinished)⟩
  generalize Reference.after Reference.unaligned = cache at *
  exact ⟨final, hfinal, lifecycle_restores Reference.plain_lawful.toRetires
    Reference.plain_immediateHonest Reference.plain_steadyRetirement rfl Reference.new_start hreach
    rfl hopened hkept hserves hintact hfinal⟩

namespace SequenceCache

variable {cache start : SequenceCache R} {sequence : SequenceId} {opening : Operation R}
variable {operations : List (Operation R)}

/-- When the backend refuses no retirement, a sequence without a pending append can be finished,
and its life has left no trace. -/
theorem lifecycle_leaks_nothing (hlaw : R.Retires) (hhonest : R.ImmediateHonest)
    (hsteady : R.SteadyRetirement) (himmediate : R.retirementIsImmediate [] = true)
    (hretires : ∀ history context pages failure,
      R.retirePages history context pages ≠ .error failure)
    {config : CacheConfig} (hnew : SequenceCache.new R config = .ok start)
    (hreach : ReachesIntact start cache)
    {request : AdmissionRequest} (hrequest : opening.request? = some request)
    (hadmitted : opening.result cache = .ok (.admission (.admitted sequence)))
    (hkept : (opening.step cache).prefixes = cache.prefixes)
    (hserves : ∀ operation ∈ operations, operation.Serves sequence)
    (hintact : AllAllowed Operation.step
      (fun cache operation => ¬ Exhausted (operation.result cache)) operations
      (opening.step cache))
    (hidle : ∀ record, (runAll Operation.step operations (opening.step cache)).sequences.get?
      sequence = some record → record.pending = none)
    {context : R.Context} (hlast : ¬ Exhausted ((Operation.finish sequence context).result
      (runAll Operation.step operations (opening.step cache)))) :
    ∃ final, (Operation.finish sequence context).run
        (runAll Operation.step operations (opening.step cache)) = .ok .done final ∧
      Alike cache final ∧ final.stats = cache.stats := by
  have hsound := ReachesIntact.sound hreach hlaw hhonest (sound_of_new hnew)
  obtain ⟨hserved, hlive, hrestores⟩ := hsound.lifecycle hlaw hhonest hsteady himmediate hrequest
    hadmitted hkept hserves hintact
  obtain ⟨final, hfinal⟩ := hserved.finish_completes hlaw hretires hlive hidle hlast
  obtain ⟨halike, hstats, -⟩ := hrestores context final hfinal
  exact ⟨final, hfinal, halike, hstats⟩

end SequenceCache

/-- A branch of a sequence of three rows, which copies its last page. -/
def Reference.branching : Operation Reference.plain := .branch ⟨0, 1⟩ ⟨8, 0, 0, false⟩ (9 : ℕ)

/-- Two more rows, of which one is committed. -/
def Reference.oneRow : List (Operation Reference.plain) :=
  [.reserveAppend ⟨1, 0⟩ 2 9,
    .commitAppend ⟨⟨1, 0⟩, 3, 2, [⟨⟨3, 0⟩, 1, 0, 1⟩, ⟨⟨4, 0⟩, 0, 1, 1⟩], 2⟩ 1 9]

/-- A branch of an unaligned sequence that grows by one row. -/
theorem SequenceCache.lifecycle_leaks_nothing_branched :
    ∃ final, (@Operation.finish Reference.plain ⟨1, 0⟩ (9 : ℕ)).run (runAll Operation.step
        Reference.oneRow (Reference.branching.step (Reference.after Reference.unaligned))) =
          .ok .done final ∧
      Alike (Reference.after Reference.unaligned) final ∧
      final.stats = (Reference.after Reference.unaligned).stats := by
  have hreach : ReachesIntact Reference.start (Reference.after Reference.unaligned) :=
    Reference.reachesIntact_after (by decide +kernel)
  have hbranched : outcome (branch ⟨0, 1⟩ ⟨8, 0, 0, false⟩ (9 : ℕ)
      (Reference.after Reference.unaligned)) = .ok (.admitted ⟨1, 0⟩) := by decide +kernel
  have hadmitted : Reference.branching.result (Reference.after Reference.unaligned) =
      .ok (.admission (.admitted ⟨1, 0⟩)) :=
    congrArg outcome (map_ok Reply.admission (eq_ok_of_outcome hbranched))
  have hkept : (Reference.branching.step (Reference.after Reference.unaligned)).prefixes =
      (Reference.after Reference.unaligned).prefixes := by
    decide +kernel
  have hserves : ∀ operation ∈ Reference.oneRow, operation.Serves ⟨1, 0⟩ := by
    simp [Reference.oneRow, Operation.Serves]
  have hintact : AllAllowed Operation.step
      (fun cache operation => ¬ Exhausted (operation.result cache)) Reference.oneRow
      (Reference.branching.step (Reference.after Reference.unaligned)) := by decide +kernel
  have hposition : ((runAll Operation.step Reference.oneRow (Reference.branching.step
      (Reference.after Reference.unaligned))).sequences.get? ⟨1, 0⟩).map
        (fun record => (record.position, record.pending.isSome)) = some (4, false) := by
    decide +kernel
  have hlast : ¬ Exhausted ((@Operation.finish Reference.plain ⟨1, 0⟩ (9 : ℕ)).result
      (runAll Operation.step Reference.oneRow (Reference.branching.step
        (Reference.after Reference.unaligned)))) := by decide +kernel
  generalize Reference.after Reference.unaligned = cache at *
  refine lifecycle_leaks_nothing Reference.plain_lawful.toRetires Reference.plain_immediateHonest
    Reference.plain_steadyRetirement rfl (fun _ _ _ _ h => by cases h) Reference.new_start hreach
    rfl hadmitted hkept hserves hintact (fun record hrecord => ?_) hlast
  rw [hrecord, Option.map_some, Option.some.injEq, Prod.mk.injEq] at hposition
  exact Option.not_isSome_iff_eq_none.mp (Bool.eq_false_iff.mp hposition.2)

end SeqCache
