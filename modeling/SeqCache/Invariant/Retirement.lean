import SeqCache.Invariant.References

/-!
# Retiring pages

`retirePageIds` either hands all pages of a batch to the backend and removes their
records, or leaves every record as it was.
-/

namespace SeqCache

open Machine Program Std

variable {R : Runtime}

theorem Arena.slot?_of_get? {α : Type*} {arena : Arena α} {id : Handle} {value : α}
    (h : arena.get? id = some value) : arena.slot? id = some ⟨id.generation, some value⟩ := by
  simp [Arena.slot?, Arena.get?_eq_some.mp h, Option.filter]

/-- The records of `ids` are gone, the others are untouched. -/
structure Removed (pages pages' : Pages R.Page) (ids : List PageId) : Prop where
  wf : pages'.WF
  advances : Arena.Advances pages pages'
  get? : ∀ id, pages'.get? id = if id ∈ ids then none else pages.get? id
  upcoming : pages'.upcoming 0 = match ids.getLast? with
    | some id => Handle.new id.slot (id.generation + 1)
    | none => pages.upcoming 0

/-- Storage of the listed pages, in order. -/
def Stored (pages : Pages R.Page) (ids : List PageId) (physical : List R.Page) : Prop :=
  ids.map (fun id => (pages.get? id).bind PageRecord.physical) = physical.map some

theorem Stored.append {pages : Pages R.Page} {ids ids' : List PageId} {table table' : List R.Page}
    (h : Stored pages ids table) (h' : Stored pages ids' table') :
    Stored pages (ids ++ ids') (table ++ table') := by
  unfold Stored at h h' ⊢
  rw [List.map_append, List.map_append, h, h']

/-- Storage depends only on the records of the listed pages. -/
theorem Stored.congr {pages pages' : Pages R.Page} {ids : List PageId} {table : List R.Page}
    (h : Stored pages ids table)
    (hsame : ∀ id ∈ ids, (pages'.get? id).bind PageRecord.physical =
      (pages.get? id).bind PageRecord.physical) : Stored pages' ids table := by
  unfold Stored at h ⊢
  rw [← h]
  exact List.map_congr_left hsame

theorem Stored.unique {pages : Pages R.Page} {ids : List PageId} {table table' : List R.Page}
    (h : Stored pages ids table) (h' : Stored pages ids table') : table = table' :=
  List.map_injective_iff.mpr (Option.some_injective _) (h.symm.trans h')

theorem Stored.length_eq {pages : Pages R.Page} {ids : List PageId} {table : List R.Page}
    (h : Stored pages ids table) : table.length = ids.length := by
  have hlength := congrArg List.length h
  simpa using hlength.symm

/-- The storage of a list of pages, up to order. -/
theorem Stored.perm {pages : Pages R.Page} {ids ids' : List PageId} {table table' : List R.Page}
    (h : Stored pages ids table) (h' : Stored pages ids' table') (hperm : ids.Perm ids') :
    table.Perm table' := by
  have hmap := hperm.map fun id => (pages.get? id).bind PageRecord.physical
  rw [h, h'] at hmap
  simpa [List.filterMap_map] using hmap.filterMap id

/-- The batch `physical` was handed to the backend, which deferred `deferred` of it. -/
def Retirement (context : R.Context) (physical : List R.Page) (deferred : ℕ)
    (history history' : R.History) : Prop :=
  (physical = [] ∧ deferred = 0 ∧ history' = history) ∨
    ∃ outcome, R.retirePages history context physical = .ok outcome ∧
      history' = .retirePages context physical (.ok outcome) :: history ∧
      deferred = outcome.deferredPages

/-- Putting the storage back where it was taken from changes nothing. -/
theorem Stored.restored_eq {pages taken restored : Pages R.Page} {ids : List PageId}
    {physical : List R.Page} (hstored : Stored pages ids physical)
    (htaken : Arena.Updated
      (fun id page => if id ∈ ids then { page with physical := none } else page) pages taken)
    (hrestored : Arena.Updated (fun id page =>
      if id ∈ ids then { page with physical := physical[ids.idxOf id]? } else page)
      taken restored) : restored = pages := by
  refine (htaken.trans hrestored).eq_of_id fun id page hpage => ?_
  by_cases hmem : id ∈ ids
  · have hindex : ids[ids.idxOf id]? = some id := List.getElem?_idxOf hmem
    have hentry := congrArg (fun list => list[ids.idxOf id]?) hstored
    simp only [List.getElem?_map, hindex, Option.map_some, hpage, Option.bind_some] at hentry
    cases hphysical : physical[ids.idxOf id]? with
    | none => simp [hphysical] at hentry
    | some storage =>
        simp only [hphysical, Option.map_some, Option.some.injEq] at hentry
        simp only [hmem, if_true]
        rw [← hentry]
  · simp [hmem]

/-- A batch is removed from the records it was taken from. -/
theorem Removed.ofTaken {pages taken pages' : Pages R.Page} {ids : List PageId}
    (h : Removed taken pages' ids)
    (htaken : Arena.Updated
      (fun id page => if id ∈ ids then { page with physical := none } else page) pages taken) :
    Removed pages pages' ids := by
  refine ⟨h.wf, (Arena.Advances.ofUpdated htaken).trans h.advances, fun id => ?_, ?_⟩
  · rw [h.get?, htaken.get?]
    by_cases hmem : id ∈ ids
    · simp [hmem]
    · simp [hmem]
  · rw [h.upcoming]
    simp only [htaken.upcoming_eq]

namespace SequenceCache

variable {cache : SequenceCache R} {pages : Pages R.Page} {ids : List PageId}

/-! ## The steps of a retirement -/

/-- Records of the listed pages. -/
def recordsOf (pages : Pages R.Page) (ids : List PageId) : List (PageRecord R.Page) :=
  ids.filterMap pages.get?

theorem map_get?_recordsOf
    (hlive : ∀ id ∈ ids, ∃ page, pages.get? id = some page) :
    ids.map pages.get? = (recordsOf pages ids).map some := by
  induction ids with
  | nil => rfl
  | cons id rest ih =>
      obtain ⟨page, hpage⟩ := hlive id (by simp)
      have htail := ih fun other hmem => hlive other (List.mem_cons_of_mem _ hmem)
      simp [recordsOf, hpage, htail]

theorem physicalRefsFrom_ok
    (hlive : ∀ id ∈ ids, ∃ page, pages.get? id = some page ∧ page.physical.isSome) :
    ∃ table, physicalRefsFrom pages ids = .ok table ∧ Stored pages ids table := by
  induction ids with
  | nil => exact ⟨[], rfl, rfl⟩
  | cons id rest ih =>
      obtain ⟨page, hpage, hphysical⟩ := hlive id (by simp)
      obtain ⟨storage, hstorage⟩ := Option.isSome_iff_exists.mp hphysical
      obtain ⟨table, hrun, hstored⟩ := ih fun other hmem =>
        hlive other (List.mem_cons_of_mem _ hmem)
      refine ⟨storage :: table, ?_, ?_⟩
      · rw [physicalRefsFrom, physicalRef, hpage, okOr_some, pure_bind, hstorage, okOr_some,
          pure_bind, except_bind_ok hrun]
        rfl
      · unfold Stored at hstored ⊢
        rw [List.map_cons, List.map_cons, hstored, hpage, Option.bind_some, hstorage]

theorem physicalRefsFrom_of_stored {table : List R.Page} (h : Stored pages ids table) :
    physicalRefsFrom pages ids = .ok table := by
  induction ids generalizing table with
  | nil =>
      rw [List.map_eq_nil_iff.mp (Eq.symm h)]
      rfl
  | cons id rest ih =>
      cases table with
      | nil => cases h
      | cons storage table =>
          obtain ⟨hhead, hrest⟩ := List.cons.inj h
          obtain ⟨page, hpage, hphysical⟩ := Option.bind_eq_some_iff.mp hhead
          have hread : physicalRef pages id = .ok storage := by
            simp only [physicalRef, hpage, okOr_some, pure_bind, hphysical]
            rfl
          rw [physicalRefsFrom, except_bind_ok hread, except_bind_ok (ih hrest)]
          rfl

theorem stored_of_physicalRefsFrom {table : List R.Page}
    (h : physicalRefsFrom pages ids = .ok table) : Stored pages ids table := by
  induction ids generalizing table with
  | nil =>
      cases h
      rfl
  | cons id rest ih =>
      rw [physicalRefsFrom, physicalRef, bind_assoc, okOr_bind_eq_ok] at h
      obtain ⟨page, hpage, h⟩ := h
      rw [okOr_bind_eq_ok] at h
      obtain ⟨storage, hphysical, h⟩ := h
      cases hrest : physicalRefsFrom pages rest with
      | error failure =>
          rw [except_bind_error hrest] at h
          cases h
      | ok refs =>
          rw [except_bind_ok hrest] at h
          cases h
          unfold Stored at ih ⊢
          rw [List.map_cons, List.map_cons, ih hrest, hpage, Option.bind_some, hphysical]

theorem countReclaimable_cases
    (hlive : ∀ id ∈ ids, ∃ page, cache.pages.get? id = some page ∧ page.physical.isSome)
    (count : ℕ) (hroom : count + ids.length ≤ usizeMax) :
    ((∃ id ∈ ids, id.generation = u32Max) ∧
        cache.countReclaimable ids count = .error (.error (.idExhausted "page generation"))) ∨
      ((∀ id ∈ ids, id.generation ≠ u32Max) ∧ cache.countReclaimable ids count =
        .ok (count + (recordsOf cache.pages ids).countP PageRecord.isReclaimable)) := by
  induction ids generalizing count with
  | nil => exact Or.inr ⟨by simp, rfl⟩
  | cons id rest ih =>
      obtain ⟨page, hpage, hphysical⟩ := hlive id (by simp)
      have hrest : ∀ id ∈ rest, ∃ page, cache.pages.get? id = some page ∧ page.physical.isSome :=
        fun other hmem => hlive other (List.mem_cons_of_mem _ hmem)
      rw [List.length_cons] at hroom
      by_cases hgen : id.generation = u32Max
      · refine Or.inl ⟨⟨id, by simp, hgen⟩, ?_⟩
        rw [countReclaimable, Arena.slot?_of_get? hpage, okOr_some, pure_bind,
          ensure_neg (by simpa using hgen)]
        rfl
      · have hcount : (if page.isReclaimable then 1 else 0) ≤ 1 := by split <;> omega
        have hrun : cache.countReclaimable (id :: rest) count =
            cache.countReclaimable rest (count + if page.isReclaimable then 1 else 0) := by
          rw [countReclaimable, Arena.slot?_of_get? hpage, okOr_some, pure_bind,
            ensure_pos (by simpa using hgen), pure_bind, okOr_some, pure_bind,
            ensure_pos hphysical, pure_bind, checkedAdd_of_le (by omega), okOr_some, pure_bind]
        rw [hrun]
        rcases ih hrest (count + if page.isReclaimable then 1 else 0) (by omega) with
          ⟨⟨other, hother, hlast⟩, herror⟩ | ⟨hall, hok⟩
        · exact Or.inl ⟨⟨other, List.mem_cons_of_mem _ hother, hlast⟩, herror⟩
        · refine Or.inr ⟨?_, ?_⟩
          · intro other hother
            rcases List.mem_cons.mp hother with rfl | hmem
            · exact hgen
            · exact hall other hmem
          · rw [hok]
            simp only [recordsOf, List.filterMap_cons, hpage, List.countP_cons]
            congr 1
            omega

theorem takePhysical_ok (hids : ids.Nodup)
    (hlive : ∀ id ∈ ids, ∃ page, cache.pages.get? id = some page ∧ page.physical.isSome) :
    ∃ physical pages', takePhysical ids cache = .ok physical { cache with pages := pages' } ∧
      Stored cache.pages ids physical ∧
      Arena.Updated (fun id page => if id ∈ ids then { page with physical := none } else page)
        cache.pages pages' := by
  induction ids generalizing cache with
  | nil => exact ⟨[], cache.pages, rfl, rfl, (Arena.Updated.refl _).congr fun _ _ _ => by simp⟩
  | cons id rest ih =>
      obtain ⟨hnot, hrest⟩ := List.nodup_cons.mp hids
      obtain ⟨page, hpage, hphysical⟩ := hlive id (by simp)
      obtain ⟨storage, hstorage⟩ := Option.isSome_iff_exists.mp hphysical
      have hset := Arena.Updated.set { page with physical := none } hpage
      have hother : ∀ other ∈ rest, (cache.pages.set id { page with physical := none }).get? other =
          cache.pages.get? other := by
        intro other hmem
        rw [Arena.get?_set hpage, if_neg]
        rintro rfl
        exact hnot hmem
      obtain ⟨physical, pages', hrun, hstored, hupdated⟩ :=
        @ih { cache with pages := cache.pages.set id { page with physical := none } }
          hrest (by
            intro other hmem
            rw [hother other hmem]
            exact hlive other (List.mem_cons_of_mem _ hmem))
      refine ⟨storage :: physical, pages', ?_, ?_, ?_⟩
      · rw [takePhysical, bind_ok (reads_pageRecord hpage), modify_bind_run, hstorage, okOr_some,
          pure_bind_run, bind_ok hrun]
        rfl
      · unfold Stored at hstored ⊢
        rw [List.map_cons, List.map_cons, ← hstored, hpage]
        simp only [Option.bind_some, hstorage, List.cons.injEq, true_and]
        refine List.map_congr_left fun other hmem => ?_
        rw [hother other hmem]
      · refine (hset.trans hupdated).congr fun other found hfound => ?_
        by_cases heq : other = id
        · subst heq
          obtain rfl : page = found := by simpa [hpage] using hfound
          simp [hnot]
        · simp [heq]

theorem restorePhysical_ok {physical : List R.Page} (hids : ids.Nodup)
    (hlive : ∀ id ∈ ids, ∃ page, cache.pages.get? id = some page)
    (hlength : physical.length = ids.length) :
    ∃ pages', restorePhysical (ids.zip physical) cache = .ok () { cache with pages := pages' } ∧
      Arena.Updated (fun id page =>
        if id ∈ ids then { page with physical := physical[ids.idxOf id]? } else page)
        cache.pages pages' := by
  induction ids generalizing cache physical with
  | nil => exact ⟨cache.pages, rfl, (Arena.Updated.refl _).congr fun _ _ _ => by simp⟩
  | cons id rest ih =>
      obtain ⟨hnot, hrest⟩ := List.nodup_cons.mp hids
      obtain ⟨storage, physical, rfl⟩ : ∃ head tail, physical = head :: tail := by
        cases physical with
        | nil => simp at hlength
        | cons head tail => exact ⟨head, tail, rfl⟩
      obtain ⟨page, hpage⟩ := hlive id (by simp)
      have hset := Arena.Updated.set { page with physical := some storage } hpage
      obtain ⟨pages', hrun, hupdated⟩ :=
        @ih { cache with
            pages := cache.pages.set id { page with physical := some storage } } _ hrest (by
            intro other hmem
            obtain ⟨found, hfound⟩ := hlive other (List.mem_cons_of_mem _ hmem)
            refine ⟨found, ?_⟩
            rw [Arena.get?_set hpage, if_neg, hfound]
            rintro rfl
            exact hnot hmem) (by simpa using hlength)
      refine ⟨pages', ?_, ?_⟩
      · rw [List.zip_cons_cons, restorePhysical, bind_ok (updatePage_ok _ hpage)]
        exact hrun
      · refine (hset.trans hupdated).congr fun other found hfound => ?_
        by_cases heq : other = id
        · subst heq
          obtain rfl : page = found := by simpa [hpage] using hfound
          simp [hnot]
        · have hne : id ≠ other := Ne.symm heq
          simp [heq, List.idxOf_cons_ne _ hne]

/-- Storage is put back whatever list it comes from. -/
theorem restorePhysical_total {physical : List R.Page}
    (hlive : ∀ id ∈ ids, ∃ page, cache.pages.get? id = some page) :
    ∃ pages', restorePhysical (ids.zip physical) cache = .ok () { cache with pages := pages' } := by
  induction ids generalizing cache physical with
  | nil => exact ⟨cache.pages, rfl⟩
  | cons id rest ih =>
      cases physical with
      | nil => exact ⟨cache.pages, rfl⟩
      | cons storage physical =>
          obtain ⟨page, hpage⟩ := hlive id (by simp)
          rw [List.zip_cons_cons, restorePhysical, bind_ok (updatePage_ok _ hpage)]
          apply @ih
            { cache with pages := cache.pages.set id { page with physical := some storage } }
          intro other hmem
          obtain ⟨found, hfound⟩ := hlive other (List.mem_cons_of_mem _ hmem)
          rw [Arena.get?_set hpage]
          split_ifs
          · exact ⟨_, rfl⟩
          · exact ⟨found, hfound⟩

theorem removePage_ok {id : PageId} {page : PageRecord R.Page}
    (hpage : cache.pages.get? id = some page) (hgen : id.generation < u32Max) :
    removePage id cache = .ok () { cache with pages := cache.pages.release id } := by
  unfold removePage
  rw [get_bind_run, Arena.slot?_of_get? hpage, okOr_some, pure_bind_run,
    ensure_pos (Nat.succ_le_of_lt hgen), pure_bind_run, ensure_pos (by simp), pure_bind_run,
    modify_run]

theorem removePages_ok (hids : ids.Nodup) (hwf : cache.pages.WF)
    (hlive : ∀ id ∈ ids, ∃ page, cache.pages.get? id = some page)
    (hgen : ∀ id ∈ ids, id.generation ≠ u32Max) :
    ∃ pages', removePages ids cache = .ok () { cache with pages := pages' } ∧
      Removed cache.pages pages' ids := by
  induction ids generalizing cache with
  | nil => exact ⟨cache.pages, rfl, hwf, .refl _, by simp, rfl⟩
  | cons id rest ih =>
      obtain ⟨hnot, hrest⟩ := List.nodup_cons.mp hids
      obtain ⟨page, hpage⟩ := hlive id (by simp)
      have hlast : id.generation < u32Max :=
        Nat.lt_of_le_of_ne (Arena.generation_le_of_get? hwf hpage) (hgen id (by simp))
      obtain ⟨pages', hrun, hremoved⟩ := @ih { cache with pages := cache.pages.release id }
        hrest (Arena.wf_release hwf hpage hlast) (by
          intro other hmem
          obtain ⟨found, hfound⟩ := hlive other (List.mem_cons_of_mem _ hmem)
          refine ⟨found, ?_⟩
          rw [Arena.get?_release hpage, if_neg, hfound]
          rintro rfl
          exact hnot hmem)
        fun other hmem => hgen other (List.mem_cons_of_mem _ hmem)
      refine ⟨pages', ?_, hremoved.wf, (Arena.Advances.release _ _).trans hremoved.advances, ?_,
        ?_⟩
      · rw [removePages, bind_ok (removePage_ok hpage hlast)]
        exact hrun
      · intro other
        rw [hremoved.get?, Arena.get?_release hpage]
        by_cases heq : other = id <;> by_cases hmem : other ∈ rest <;> simp [heq, hmem]
      · rw [hremoved.upcoming, List.getLast?_cons]
        cases rest.getLast? with
        | none => exact Arena.upcoming_release hpage
        | some last => rfl

/-! ## A whole batch -/

/-- The records of a batch are gone, and its reclaimable bytes with them. -/
theorem countP_removed {pages' : Pages R.Page} (hids : ids.Nodup)
    (hlive : ∀ id ∈ ids, ∃ page, pages.get? id = some page) (h : Removed pages pages' ids) :
    pages.values.countP PageRecord.isReclaimable =
      pages'.values.countP PageRecord.isReclaimable +
        (recordsOf pages ids).countP PageRecord.isReclaimable := by
  rw [← Arena.total_indicator, ← Arena.total_indicator,
    Arena.total_removeAll _ hids (map_get?_recordsOf hlive)
      (fun other => by rw [h.get?]; simp) fun _ _ => rfl]
  congr 1
  induction recordsOf pages ids with
  | nil => rfl
  | cons page rest ih => rw [List.map_cons, List.sum_cons, ih, List.countP_cons, Nat.add_comm]

theorem length_removed {pages' : Pages R.Page} (hids : ids.Nodup)
    (hlive : ∀ id ∈ ids, ∃ page, pages.get? id = some page) (h : Removed pages pages' ids) :
    pages.values.length = pages'.values.length + ids.length := by
  have hlength : (recordsOf pages ids).length = ids.length := by
    simpa using congrArg List.length (map_get?_recordsOf hlive).symm
  rw [← Arena.total_one, ← Arena.total_one,
    Arena.total_removeAll _ hids (map_get?_recordsOf hlive)
      (fun other => by rw [h.get?]; simp) fun _ _ => rfl]
  simp [hlength]

/-- What a successful retirement of `ids` does. -/
structure Retired (cache cache' : SequenceCache R) (ids : List PageId) (context : R.Context)
    (pages' : Pages R.Page) (physical : List R.Page) (deferred : ℕ) : Prop where
  state : cache' = { cache.putPages pages' with
    backend := cache'.backend, deferredPages := cache.deferredPages + deferred }
  removed : Removed cache.pages pages' ids
  stored : Stored cache.pages ids physical
  retirement : Retirement context physical deferred cache.backend cache'.backend
  deferred_le : deferred ≤ ids.length
  removable : ∀ id ∈ ids, id.generation ≠ u32Max

/-- Why a retirement of `ids` fails: a slot is at its last generation, or the backend
refuses the batch. -/
def Refused (cache : SequenceCache R) (ids : List PageId) (context : R.Context)
    (failure : Failure R.Error) : Prop :=
  (failure = .error (.idExhausted "page generation") ∧ ∃ id ∈ ids, id.generation = u32Max) ∨
    ∃ answer physical, failure = .error (.backend answer.error) ∧
      Stored cache.pages ids physical ∧
      R.retirePages cache.backend context physical = .error answer ∧ ids ≠ []

theorem Refused.isReported {context : R.Context} {failure : Failure R.Error}
    (h : Refused cache ids context failure) : failure.isReported = true := by
  rcases h with ⟨rfl, -⟩ | ⟨answer, physical, rfl, -⟩ <;> rfl

/-- A call that ended at its first retirement since `start`, which was answered against its
contract.  When too many pages are said to be deferred, their storage is already out of the
records. -/
def Breached (start : SequenceCache R) (failure : Failure R.Error) (cache' : SequenceCache R) :
    Prop :=
  ∃ events context physical answer,
    cache'.backend = .retirePages context physical answer :: (events ++ start.backend) ∧
      (∀ event ∈ events, event.isRetirement = false) ∧
      R.retirePages (events ++ start.backend) context physical = answer ∧
      ¬ KeepsContract physical answer ∧
      match answer with
      | .error refusal => failure = .error (.backend refusal.error)
      | .ok _ => failure = .error (.invariant "backend deferred more pages than were retired") ∧
          ∃ id page, start.pages.get? id = some page ∧ page.physical.isSome = true ∧
            cache'.pages.get? id = some { page with physical := none }

section Breached

variable {start middle last : SequenceCache R} {failure : Failure R.Error}

/-- A backend that keeps the contract cannot break it. -/
theorem not_breached (hlaw : R.Retires) (failure : Failure R.Error) (last : SequenceCache R) :
    ¬ Breached start failure last := by
  rintro ⟨events, context, physical, answer, -, -, rfl, hbroken, -⟩
  exact hbroken (hlaw.keepsContract (events ++ start.backend) context physical)

theorem Breached.error (h : Breached start failure last) : ∃ error, failure = .error error := by
  obtain ⟨-, -, -, answer, -, -, -, -, hfailure⟩ := h
  cases answer with
  | error refusal => exact ⟨_, hfailure⟩
  | ok outcome => exact ⟨_, hfailure.1⟩

/-- A breach does not depend on anything but the pages and the history. -/
theorem Breached.congr (h : Breached start failure middle)
    (hbackend : last.backend = middle.backend)
    (hpages : last.pages = middle.pages) : Breached start failure last := by
  unfold Breached at h ⊢
  rw [hbackend, hpages]
  exact h

/-- The calls before may have been any but retirements. -/
theorem Breached.after {events : R.History} (h : Breached middle failure last)
    (hmiddle : middle.backend = events ++ start.backend) (hpages : middle.pages = start.pages)
    (hevents : ∀ event ∈ events, event.isRetirement = false) : Breached start failure last := by
  obtain ⟨later, context, physical, answer, hbackend, hlater, hanswer, hrest⟩ := h
  rw [hmiddle, ← List.append_assoc] at hbackend hanswer
  rw [hpages] at hrest
  refine ⟨later ++ events, context, physical, answer, hbackend, ?_, hanswer, hrest⟩
  exact fun event hmem => (List.mem_append.mp hmem).elim (hlater event) (hevents event)

end Breached

/-- The cache after calls that leave no page in flight. -/
structure Called (limit : ℕ) (cache cache' : SequenceCache R) (flight : List R.Page) : Prop where
  state : cache' = { cache with backend := cache'.backend }
  calls : Calls limit cache.backend [] cache'.backend flight

/-- Whatever the backend answers, a batch is retired, refused or kept from retirement by an
answer that breaks the contract. -/
theorem retirePageIds_ends (hcounted : Counted cache) (hwf : cache.pages.WF)
    (hids : ids.Nodup)
    (hlive : ∀ id ∈ ids, ∃ page, cache.pages.get? id = some page ∧ page.physical.isSome)
    (hbytes : cache.pages.values.length * cache.pageBytes ≤ usizeMax)
    (hroom : cache.deferredPages + ids.length ≤ usizeMax)
    (context : R.Context) :
    Ends (retirePageIds ids context cache)
      (fun _ cache' => ∃ pages' physical deferred,
        Retired cache cache' ids context pages' physical deferred)
      (fun failure cache' => Refused cache ids context failure ∧ Called 0 cache cache' [] ∨
        Breached cache failure cache' ∧
          cache' = { cache with backend := cache'.backend, pages := cache'.pages }) := by
  have hlive' : ∀ id ∈ ids, ∃ page, cache.pages.get? id = some page := fun id hmem =>
    (hlive id hmem).imp fun _ h => h.1
  unfold retirePageIds
  by_cases hempty : ids = []
  · subst hempty
    rw [if_pos rfl, pure_run]
    refine ⟨cache.pages, [], 0, ?_, ⟨hwf, .refl _, by simp, rfl⟩, rfl, Or.inl ⟨rfl, rfl, rfl⟩,
      Nat.zero_le _, by simp⟩
    rw [putPages_self hcounted]
    rfl
  rw [if_neg hempty]
  rcases countReclaimable_cases hlive 0 (by omega) with ⟨hlast, herror⟩ | ⟨hgen, hcount⟩
  · refine Ends.reads (fun failure hfailure => ?_) (fun value hvalue => ?_)
    · rw [herror] at hfailure
      cases hfailure
      exact Or.inl ⟨Or.inl ⟨rfl, hlast⟩, rfl, .refl⟩
    · rw [herror] at hvalue
      cases hvalue
  refine Ends.reads (fun failure hfailure => ?_) (fun value hvalue => ?_)
  · rw [hcount] at hfailure
    cases hfailure
  obtain rfl : 0 + (recordsOf cache.pages ids).countP PageRecord.isReclaimable = value := by
    rw [hcount] at hvalue
    exact Except.ok.inj hvalue
  have hle : (recordsOf cache.pages ids).countP PageRecord.isReclaimable ≤
      cache.pages.values.countP PageRecord.isReclaimable := by
    obtain ⟨pages', -, hremoved⟩ := removePages_ok hids hwf hlive' hgen
    have := countP_removed hids hlive' hremoved
    omega
  have hcountP : cache.pages.values.countP PageRecord.isReclaimable ≤
      cache.pages.values.length := List.countP_le_length
  have hmul := Nat.mul_le_mul_right cache.pageBytes hle
  have hmul' := Nat.mul_le_mul_right cache.pageBytes hcountP
  refine Ends.get ?_
  rw [Nat.zero_add, checkedMul_of_le (by omega), okOr_some, pure_bind_run,
    hcounted.reclaimable, checkedSub_of_le hmul, okOr_some, pure_bind_run, retireBatch]
  obtain ⟨physical, taken, htake, hstored, htaken⟩ := takePhysical_ok hids hlive
  have htaken_live : ∀ id ∈ ids, ∃ page, taken.get? id = some page := by
    intro id hmem
    obtain ⟨page, hpage⟩ := hlive' id hmem
    exact ⟨_, by rw [htaken.get?, hpage]; rfl⟩
  have hlength : physical.length = ids.length := by
    simpa using congrArg List.length hstored.symm
  rw [bind_ok htake]
  have hcall : ∀ answer, R.retirePages cache.backend context physical = answer →
      callRetirePages context physical { cache with pages := taken } =
        .ok answer { cache with
          pages := taken, backend := .retirePages context physical answer :: cache.backend } := by
    rintro answer rfl
    rfl
  cases hanswer : R.retirePages cache.backend context physical with
  | error failure =>
      rw [bind_ok (hcall _ hanswer)]
      by_cases hpages : failure.pages = physical
      case neg =>
        obtain ⟨restored, hrestore⟩ := @restorePhysical_total R
          { cache with
            pages := taken
            backend := .retirePages context physical (.error failure) :: cache.backend }
          ids failure.pages htaken_live
        simp only
        rw [bind_ok hrestore, throw_run]
        exact Or.inr ⟨⟨[], context, physical, .error failure, rfl, by simp, hanswer, hpages, rfl⟩,
          rfl⟩
      obtain ⟨restored, hrestore, hrestored⟩ := @restorePhysical_ok R
        { cache with
          pages := taken
          backend := .retirePages context physical (.error failure) :: cache.backend }
        ids failure.pages hids htaken_live (by rw [hpages, hlength])
      rw [hpages] at hrestored
      have hsame : restored = cache.pages := hstored.restored_eq htaken hrestored
      subst hsame
      simp only
      rw [bind_ok hrestore, throw_run]
      exact Or.inl ⟨Or.inr ⟨failure, physical, rfl, hstored, hanswer, hempty⟩, rfl,
        .neutral _ .refl rfl⟩
  | ok outcome =>
      rw [bind_ok (hcall _ hanswer)]
      by_cases hdeferred : outcome.deferredPages ≤ ids.length
      case neg =>
        obtain ⟨id, hmem⟩ := List.exists_mem_of_ne_nil ids hempty
        obtain ⟨page, hpage, hphysical⟩ := hlive id hmem
        simp only
        rw [ensure_neg hdeferred, throw_bind_run]
        refine Or.inr ⟨⟨[], context, physical, .ok outcome, rfl, by simp, hanswer, ?_, rfl, id,
          page, hpage, hphysical, ?_⟩, rfl⟩
        · rw [KeepsContract, hlength]
          exact hdeferred
        · rw [htaken.get?, hpage, Option.map_some, if_pos hmem]
      obtain ⟨pages', hremove, hremoved⟩ := @removePages_ok R
        { cache with
          pages := taken
          backend := .retirePages context physical (.ok outcome) :: cache.backend }
        ids hids (htaken.wf hwf) htaken_live hgen
      simp only
      rw [ensure_pos hdeferred, pure_bind_run, get_bind_run, checkedAdd_of_le (by simp only; omega),
        okOr_some, pure_bind_run, bind_ok hremove, modify_run]
      have hremoved' : Removed cache.pages pages' ids := hremoved.ofTaken htaken
      refine ⟨pages', physical, outcome.deferredPages, ?_, hremoved', hstored,
        Or.inr ⟨outcome, hanswer, rfl, rfl⟩, hdeferred, hgen⟩
      simp only [putPages]
      rw [countP_removed hids hlive' hremoved', Nat.add_mul, Nat.add_sub_cancel]

end SequenceCache

end SeqCache
