import SeqCache.Properties.Tables

/-!
# Tables left behind

An admission and a branch publish the table of their sequence before they carry out the
evictions they planned.  When these are refused no sequence is opened, but the table is not
withdrawn: its context shows it until something else is published there.
-/

namespace SeqCache

open Machine Program Std

variable {R : Runtime}

namespace SequenceCache

variable {cache cache' start : SequenceCache R} {operation : Operation R}
variable {orphans : List PageId} {stray : List TokenBlockId}

instance decidableShows [DecidableEq R.Page] [DecidableEq R.Context] (context : R.Context)
    (table : List R.Page) (position : ℕ) :
    (history : R.History) → Decidable (Shows context table position history)
  | [] => inferInstanceAs (Decidable False)
  | event :: earlier =>
      have := decidableShows context table position earlier
      match hevent : event.publication? with
      | some published =>
          decidable_of_iff (published = (context, table, position) ∨
            published.1 ≠ context ∧ Shows context table position earlier) (by rw [Shows, hevent])
      | none => decidable_of_iff (Shows context table position earlier) (by rw [Shows, hevent])

/-- The contexts show the same tables before and after. -/
def ShowsSame (history history' : R.History) : Prop :=
  ∀ context table position,
    Shows context table position history' ↔ Shows context table position history

/-- One context shows the given table, and the others what they showed. -/
def ShowsIn (context : R.Context) (table : List R.Page) (position : ℕ)
    (history history' : R.History) : Prop :=
  Shows context table position history' ∧ ∀ other table' position', other ≠ context →
    (Shows other table' position' history' ↔ Shows other table' position' history)

theorem Called.showsSame {limit : ℕ} {flight : List R.Page}
    (h : Called limit cache cache' flight) : ShowsSame cache.backend cache'.backend :=
  fun _ _ _ => h.calls.shows_iff

theorem ShowsSame.trans {history history' history'' : R.History} (h : ShowsSame history history')
    (h' : ShowsSame history' history'') : ShowsSame history history'' :=
  fun context table position => (h' context table position).trans (h context table position)

/-- A table that was published stays shown over calls that publish nothing. -/
theorem showsIn_of_published (cache : SequenceCache R) {context : R.Context}
    {table : List R.Page} {position : ℕ}
    {history history' : R.History} (hbefore : ShowsSame history cache.backend)
    (hafter : ShowsSame (cache.publish context table position).backend history') :
    ShowsIn context table position history history' := by
  refine ⟨(hafter _ _ _).mpr (shows_publish cache context table position), ?_⟩
  intro other table' position' hne
  rw [hafter, publish_shows_iff hne.symm, hbefore]

/-! ## Tables published in vain -/

/-- The call published a table, and was then refused the evictions it had planned. -/
def Strands : Operation R → SequenceCache R → Failure R.Error → Prop
  | .admitSequence prefixMatch request context restore, cache, failure =>
      ∃ reclaimed middle, Reclaimed cache middle context reclaimed ∧
        Stranded middle prefixMatch request context restore failure
          ((Operation.admitSequence prefixMatch request context restore).step cache)
  | .branch source request context, cache, failure =>
      Abandoned cache source request context failure
        ((Operation.branch source request context).step cache)
  | _, _, _ => False

/-- The call gets as far as publishing this table, at this position, and the evictions that it
planned are then refused. -/
def InVain : Operation R → SequenceCache R → List R.Page → ℕ → Prop
  | .admitSequence prefixMatch request context restore, cache, table, position =>
      ∃ reclaimed middle, Reclaimed cache middle context reclaimed ∧
        ∃ protectedEntry shared reservedPages extra limit plan,
          Opened middle prefixMatch request context restore protectedEntry position shared
            reservedPages extra limit plan table ∧
          (middle.publish context table position).RefusesPlan plan context
  | .branch source request context, cache, table, position =>
      ∃ record copied history reservedPages extra limit plan start, position = record.position ∧
        start = ({ cache with backend := history } : SequenceCache R).publish context table
          position ∧
        Forked cache start source request context record copied history reservedPages extra limit
          plan ∧
        start.RefusesPlan plan context
  | _, _, _, _ => False

theorem run_error {α : Type} {program : CacheM R α} {reply : α → Reply R}
    {failure : Failure R.Error} (hrun : operation.run = reply <$> program)
    (h : program cache = .error failure cache') :
    operation.result cache = .error failure ∧ operation.step cache = cache' := by
  rw [Operation.result, Operation.step, hrun, map_error reply h]
  exact ⟨rfl, rfl⟩

/-- What is left of a call that opens no sequence. -/
structure LeftBehind (operation : Operation R) (cache : SequenceCache R) (context : R.Context)
    (table : List R.Page) (position : ℕ) : Prop where
  failed : ∃ failure, operation.result cache = .error failure ∧ Strands operation cache failure
  in_vain : InVain operation cache table position
  shows : ShowsIn context table position cache.backend (operation.step cache).backend

theorem Stranded.inVain {prefixMatch : Option PrefixMatch} {request : AdmissionRequest}
    {context : R.Context} {restore : Option R.Snapshot → ℕ → Except R.Error Unit}
    {failure : Failure R.Error} {reclaimed : ℕ}
    (hreclaimed : Reclaimed start cache context reclaimed)
    (h : Stranded cache prefixMatch request context restore failure cache') :
    ∃ table position, InVain (.admitSequence prefixMatch request context restore) start table
        position ∧
      ShowsIn context table position start.backend cache'.backend := by
  obtain ⟨protectedEntry, position, shared, reservedPages, extra, limit, plan, table, hopened,
    hrefused, hcalled⟩ := h
  exact ⟨table, position,
    ⟨reclaimed, cache, hreclaimed, protectedEntry, shared, reservedPages, extra, limit, plan,
      hopened, failure, hrefused⟩,
    showsIn_of_published cache (fun _ _ _ => hreclaimed.shows_iff) hcalled.showsSame⟩

theorem Abandoned.inVain {source : SequenceId} {request : AdmissionRequest} {context : R.Context}
    {failure : Failure R.Error} (h : Abandoned cache source request context failure cache') :
    ∃ table position, InVain (.branch source request context) cache table position ∧
      ShowsIn context table position cache.backend cache'.backend := by
  obtain ⟨record, copied, history, reservedPages, extra, limit, plan, start, hforked, hrefused,
    hcalled⟩ := h
  obtain ⟨table, -, -, hstart⟩ := hforked.copies.published
  refine ⟨table ++ copied.toList, record.position,
    ⟨record, copied, history, reservedPages, extra, limit, plan, start, rfl, hstart, hforked,
      failure, hrefused⟩,
    showsIn_of_published { cache with backend := history } ?_ (hstart ▸ hcalled.showsSame)⟩
  exact fun _ _ _ => hforked.copies.tail.calls.shows_iff

theorem admission_leftBehind (hlaw : R.Retires) (hinv : Inv orphans stray cache)
    {context : R.Context} (hopens : operation.opens context) :
    (∃ id, operation.result cache = .ok (.admission (.admitted id))) ∨
      ShowsSame cache.backend (operation.step cache).backend ∨
        ∃ table position, LeftBehind operation cache context table position := by
  cases operation with
  | admitSequence prefixMatch request other restore =>
      obtain rfl : context = other := hopens
      have hspec := admitSequence_spec hlaw hinv prefixMatch request context restore
      have hrun : (Operation.admitSequence prefixMatch request context restore).run =
          Reply.admission <$> admitSequence prefixMatch request context restore := rfl
      cases hprogram : admitSequence prefixMatch request context restore cache with
      | ok outcome cache' =>
          rw [hprogram] at hspec
          rw [Operation.step, Operation.result, Operation.run, map_ok Reply.admission hprogram]
          obtain ⟨-, reclaimed, middle, hreclaimed, -, ⟨-, rfl, -⟩ | ⟨_, _, _, _, _, _, _, _, id, _,
            _, _, _, rfl, -⟩⟩ := hspec
          · exact Or.inr (Or.inl fun _ _ _ => hreclaimed.shows_iff)
          · exact Or.inl ⟨id, rfl⟩
      | error failure cache' =>
          rw [hprogram] at hspec
          obtain ⟨hresult, hstep⟩ := run_error hrun hprogram
          refine Or.inr ?_
          obtain ⟨-, hcalled | ⟨reclaimed, middle, hreclaimed, -, hcalled | hstranded⟩⟩ := hspec
          · exact Or.inl (hstep ▸ hcalled.showsSame)
          · refine Or.inl (ShowsSame.trans (fun _ _ _ => hreclaimed.shows_iff) ?_)
            exact hstep ▸ hcalled.showsSame
          · obtain ⟨table, position, hvain, hshows⟩ := hstranded.inVain hreclaimed
            refine Or.inr ⟨table, position, ⟨failure, hresult, reclaimed, middle, hreclaimed, ?_⟩,
              hvain, ?_⟩
            · rw [hstep]
              exact hstranded
            · rw [hstep]
              exact hshows
  | branch source request other =>
      obtain rfl : context = other := hopens
      have hspec := branch_spec hlaw hinv source request context
      have hrun : (Operation.branch source request context).run =
          Reply.admission <$> branch source request context := rfl
      cases hprogram : branch source request context cache with
      | ok outcome cache' =>
          rw [hprogram] at hspec
          rw [Operation.step, Operation.result, Operation.run, map_ok Reply.admission hprogram]
          obtain ⟨-, ⟨-, rfl, -⟩ | ⟨_, _, _, _, _, _, _, id, _, _, _, _, _, _, rfl, -⟩⟩ := hspec
          · exact Or.inr (Or.inl fun _ _ _ => Iff.rfl)
          · exact Or.inl ⟨id, rfl⟩
      | error failure cache' =>
          rw [hprogram] at hspec
          obtain ⟨hresult, hstep⟩ := run_error hrun hprogram
          refine Or.inr ?_
          obtain ⟨-, ⟨hcalled, -⟩ | habandoned⟩ := hspec
          · exact Or.inl (hstep ▸ hcalled.showsSame)
          · obtain ⟨table, position, hvain, hshows⟩ := habandoned.inVain
            refine Or.inr ⟨table, position, ⟨failure, hresult, ?_⟩, hvain, ?_⟩
            · change Abandoned cache source request context failure (Operation.step _ cache)
              rw [hstep]
              exact habandoned
            · rw [hstep]
              exact hshows
  | _ => exact hopens.elim

/-- A call that opens a sequence admits it, or leaves all tables as they were, or has published
its table when the backend refuses the evictions that were planned. -/
theorem tables_unless_stranded (hlaw : R.Retires) {config : CacheConfig}
    (hnew : SequenceCache.new R config = .ok start) (hreach : Reaches start cache)
    {context : R.Context} (hopens : operation.opens context) :
    (∃ id, operation.result cache = .ok (.admission (.admitted id))) ∨
      ShowsSame cache.backend (operation.step cache).backend ∨
        ∃ failure, operation.result cache = .error failure ∧ Strands operation cache failure ∧
          ∃ table position,
            ShowsIn context table position cache.backend (operation.step cache).backend := by
  obtain ⟨orphans, stray, hinv⟩ := hreach.inv hlaw ⟨[], [], inv_of_new hnew⟩
  rcases admission_leftBehind hlaw hinv hopens with hadmitted | hsame | ⟨table, position, hleft⟩
  · exact Or.inl hadmitted
  · exact Or.inr (Or.inl hsame)
  · obtain ⟨failure, hresult, hstrands⟩ := hleft.failed
    exact Or.inr (Or.inr ⟨failure, hresult, hstrands, table, position, hleft.shows⟩)

end SequenceCache

namespace Reference

/-- The state in which the branch finds its evictions refused. -/
def saturated : SequenceCache reluctant := runAll Operation.step (refusedBranch.take 8) cramped

def stranding : Operation reluctant := .branch ⟨0, 1⟩ ⟨8, 0, 0, false⟩ 9

end Reference

set_option linter.constructorNameAsVariable false in
open Reference SequenceCache in
/-- The refused branch leaves a table with its copy behind. -/
theorem SequenceCache.tables_unless_stranded_saturated :
    ∃ failure, stranding.result saturated = .error failure ∧ Strands stranding saturated failure ∧
      ∃ table position, ShowsIn (9 : ℕ) table position saturated.backend
        (stranding.step saturated).backend := by
  have hreaches : Reaches cramped saturated :=
    Reachable.start.runAll (by decide +kernel)
  have hfailed : (stranding.result saturated).isOk = false := by decide +kernel
  have hbefore : ¬ @Shows reluctant (9 : ℕ) [1, 3] 3 saturated.backend := by decide +kernel
  have hafter : @Shows reluctant (9 : ℕ) [1, 3] 3 (stranding.step saturated).backend := by
    decide +kernel
  have hnew : SequenceCache.new reluctant ⟨2, 9, 4, none, 0⟩ = .ok cramped := rfl
  have hlaw : reluctant.Retires := (runtime_lawful _ _ _).toRetires
  have hopens : stranding.opens (9 : ℕ) := rfl
  generalize stranding = operation at *
  generalize saturated = cache at *
  rcases tables_unless_stranded hlaw hnew hreaches hopens with ⟨id, hid⟩ | hsame | hstranded
  · rw [hid] at hfailed
    cases hfailed
  · exact absurd ((hsame _ _ _).mp hafter) hbefore
  · exact hstranded

/-! ## Exactly when a table is left -/

namespace SequenceCache

variable {cache start : SequenceCache R} {operation : Operation R}
variable {orphans : List PageId} {stray : List TokenBlockId}

/-- Refused evictions end a call whose table is published, and the table stays. -/
theorem shows_of_refused {α : Type} {program : CacheM R α} {reply : α → Reply R}
    {plan : List PrefixEntryId} {context : R.Context} {table : List R.Page} {position : ℕ}
    (hlaw : R.Retires) (hrun : operation.run = reply <$> program)
    (hshows : Shows context table position start.backend)
    (hrefuses : start.RefusesPlan plan context)
    (h : Ends (program cache)
      (fun _ _ => ∃ evicted retired physical deferred,
        Evicted start evicted plan context retired physical deferred)
      (fun failure cache' => Refused start (start.evictionBatch plan) context failure ∧
          Called 0 start cache' [] ∨
        Breached start failure cache')) :
    (∃ failure, operation.result cache = .error failure) ∧
      Shows context table position (operation.step cache).backend := by
  cases hprogram : program cache with
  | ok value cache' =>
      rw [hprogram] at h
      obtain ⟨evicted, retired, physical, deferred, hevicted⟩ := h
      exact absurd hrefuses hevicted.not_refusesPlan
  | error failure cache' =>
      rw [hprogram] at h
      obtain ⟨hresult, hstep⟩ := run_error hrun hprogram
      obtain ⟨-, hcalled⟩ := h.resolve_right (not_breached hlaw failure cache')
      refine ⟨⟨failure, hresult⟩, ?_⟩
      rw [hstep]
      exact hcalled.calls.shows_iff.mpr hshows

theorem InVain.shows {context : R.Context} {table : List R.Page} {position : ℕ}
    (h : InVain operation cache table position) (hlaw : R.Retires) (hinv : Inv orphans stray cache)
    (hopens : operation.opens context) :
    (∃ failure, operation.result cache = .error failure) ∧
      Shows context table position (operation.step cache).backend := by
  cases operation with
  | admitSequence prefixMatch request other restore =>
      obtain rfl : context = other := hopens
      obtain ⟨reclaimed, middle, hreclaimed, protectedEntry, shared, reservedPages, extra, limit,
        plan, hopened, hrefuses⟩ := h
      have hpolled := hreclaimed.run hinv
      have hmiddle : Inv orphans stray middle := by
        have hspec := reclaimDeferred_spec hinv context
        rw [hpolled] at hspec
        exact hspec.1
      have hshows := shows_publish middle context table position
      refine shows_of_refused hlaw rfl hshows hrefuses ?_
      rw [hopened.run hpolled]
      refine Ends.mono (hopened.ends hmiddle) ?_ fun _ _ h => h
      rintro - cache' ⟨-, id, evicted, retired, physical, deferred, -, hadmission⟩
      exact ⟨evicted, retired, physical, deferred, hadmission.carried_out⟩
  | branch source request other =>
      obtain rfl : context = other := hopens
      obtain ⟨record, copied, history, reservedPages, extra, limit, plan, begun, rfl, hbegun,
        hforked, hrefuses⟩ := h
      refine shows_of_refused hlaw rfl ?_ hrefuses ?_
      · rw [hbegun]
        exact shows_publish _ context table record.position
      · rw [hforked.run hinv]
        refine Ends.mono (hforked.ends hinv) ?_ fun _ _ h => h
        rintro - cache' ⟨-, fresh, id, evicted, retired, physical, deferred, -, hadmission⟩
        exact ⟨evicted, retired, physical, deferred, hadmission.carried_out⟩
  | _ => exact h.elim

/-- The call does not open a sequence: it fails, or would block. -/
def TurnsAway (operation : Operation R) (cache : SequenceCache R) : Prop :=
  operation.result cache = .ok (.admission .wouldBlock) ∨
    ∃ failure, operation.result cache = .error failure

/-- A call that opens no sequence leaves what its context shows exactly when it does not publish
a new table in vain. -/
theorem tables_left_iff (hlaw : R.Retires) {config : CacheConfig}
    (hnew : SequenceCache.new R config = .ok start) (hreach : Reaches start cache)
    {context : R.Context} (hopens : operation.opens context) :
    (TurnsAway operation cache → ∀ table position,
        (Shows context table position (operation.step cache).backend ↔
          Shows context table position cache.backend)) ↔
      ∀ table position, InVain operation cache table position →
        Shows context table position cache.backend := by
  obtain ⟨orphans, stray, hinv⟩ := hreach.inv hlaw ⟨[], [], inv_of_new hnew⟩
  constructor
  · intro hkeeps table position hvain
    obtain ⟨hfailed, hshown⟩ := hvain.shows hlaw hinv hopens
    exact (hkeeps (Or.inr hfailed) table position).mp hshown
  · intro hknown hturns table position
    rcases admission_leftBehind hlaw hinv hopens with ⟨id, hid⟩ | hsame | ⟨kept, reached, hleft⟩
    · rcases hturns with hblocks | ⟨failure, hfailed⟩
      · rw [hid] at hblocks
        cases hblocks
      · rw [hid] at hfailed
        cases hfailed
    · exact hsame context table position
    · -- Both show the table that was published in vain, and nothing else.
      have hbefore := hknown kept reached hleft.in_vain
      have hafter := hleft.shows.1
      constructor
      · intro hshown
        obtain ⟨rfl, rfl⟩ := hafter.unique hshown
        exact hbefore
      · intro hshown
        obtain ⟨rfl, rfl⟩ := hbefore.unique hshown
        exact hafter

end SequenceCache

set_option linter.constructorNameAsVariable false in
theorem Reference.stranding_fails : ∃ failure, stranding.result saturated = .error failure := by
  have hfailed : (stranding.result saturated).isOk = false := by decide +kernel
  generalize stranding.result saturated = result at hfailed
  cases result with
  | ok reply => cases hfailed
  | error failure => exact ⟨failure, rfl⟩

open Reference in
/-- The refused branch leaves its context with a table that no sequence has. -/
theorem SequenceCache.stranding_shows :
    SequenceCache.new reluctant ⟨2, 9, 4, none, 0⟩ = .ok cramped ∧ Reaches cramped saturated ∧
      TurnsAway stranding saturated ∧ ¬ @Shows reluctant (9 : ℕ) [1, 3] 3 saturated.backend ∧
      @Shows reluctant (9 : ℕ) [1, 3] 3 (stranding.step saturated).backend :=
  ⟨rfl, Reachable.start.runAll (by decide +kernel), Or.inr stranding_fails, by decide +kernel,
    by decide +kernel⟩

set_option linter.constructorNameAsVariable false in
open Reference in
/-- It published that table before its evictions were refused. -/
theorem SequenceCache.tables_left_iff_stranding :
    ∃ table position, InVain stranding saturated table position ∧
      ¬ @Shows reluctant (9 : ℕ) table position saturated.backend := by
  have hreaches : Reaches cramped saturated :=
    Reachable.start.runAll (by decide +kernel)
  have hbefore : ¬ @Shows reluctant (9 : ℕ) [1, 3] 3 saturated.backend := by decide +kernel
  have hafter : @Shows reluctant (9 : ℕ) [1, 3] 3 (stranding.step saturated).backend := by
    decide +kernel
  have hfails := stranding_fails
  have hnew : SequenceCache.new reluctant ⟨2, 9, 4, none, 0⟩ = .ok cramped := rfl
  have hlaw : reluctant.Retires := (runtime_lawful _ _ _).toRetires
  have hopens : stranding.opens (9 : ℕ) := rfl
  generalize stranding = operation at *
  generalize saturated = cache at *
  by_contra hnone
  have hkeeps := (tables_left_iff hlaw hnew hreaches hopens).mpr fun table position hvain =>
    not_not.mp fun hnot => hnone ⟨table, position, hvain, hnot⟩
  exact hbefore ((hkeeps (Or.inr hfails) _ _).mp hafter)

end SeqCache
