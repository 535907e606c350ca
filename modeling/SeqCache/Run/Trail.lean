import SeqCache.Core.Ledger
import SeqCache.Core.Traces
import SeqCache.Run.Reachable

/-!
# Pages in flight

Between a call to the backend that hands out a page and the record that stores it, the page
is in flight.  A trail follows a call of a client through its changes with the pages in
flight, and so accounts for every page: it was handed back, it is stored by one record, or
it is still in flight when the call is over, which is a leak.
-/

namespace SeqCache

open Machine Program Std

variable {R : Runtime}

/-! ## Stored pages -/

/-- Physical pages of the live records. -/
def storedPages {Page : Type} (pages : Pages Page) : List Page :=
  pages.values.filterMap PageRecord.physical

section Stored

variable [DecidableEq R.Page] {pages pages' : Pages R.Page} {ids : List PageId}
variable {physical : List R.Page} {page : R.Page}

/-- Number of live records that store the page. -/
def holders (page : R.Page) (pages : Pages R.Page) : ℕ :=
  pages.total fun record => if record.physical = some page then 1 else 0

theorem sum_holds (page : R.Page) (records : List (PageRecord R.Page)) :
    (records.map fun record => if record.physical = some page then 1 else 0).sum =
      (records.filterMap PageRecord.physical).count page := by
  induction records with
  | nil => rfl
  | cons record rest ih =>
      rw [List.map_cons, List.sum_cons, ih]
      cases hphysical : record.physical with
      | none => rw [List.filterMap_cons_none hphysical, if_neg (Option.some_ne_none page).symm,
          Nat.zero_add]
      | some other =>
          rw [List.filterMap_cons_some hphysical, List.count_cons, Nat.add_comm]
          simp only [Option.some.injEq, beq_iff_eq]

theorem count_storedPages (page : R.Page) (pages : Pages R.Page) :
    (storedPages pages).count page = holders page pages :=
  (sum_holds page pages.values).symm

theorem holders_pos {id : PageId} {record : PageRecord R.Page}
    (hrecord : pages.get? id = some record) (hstored : record.physical = some page) :
    0 < holders page pages := by
  have hle := Arena.le_total
    (fun record : PageRecord R.Page => if record.physical = some page then 1 else 0) hrecord
  rw [if_pos hstored] at hle
  exact hle

/-- Removing records removes the pages they store. -/
theorem Stored.holders_eq {update : PageId → PageRecord R.Page → PageRecord R.Page}
    (h : Stored pages ids physical) (page : R.Page) (hids : ids.Nodup)
    (hget : ∀ id, pages'.get? id = if id ∈ ids then none else (pages.get? id).map (update id))
    (hupdate : ∀ id record, (update id record).physical = record.physical) :
    holders page pages = holders page pages' + physical.count page := by
  have hlive : ∀ id ∈ ids, ∃ record, pages.get? id = some record := by
    intro id hmem
    cases hrecord : pages.get? id with
    | some record => exact ⟨record, rfl⟩
    | none =>
        have hnone : none ∈ ids.map fun id => (pages.get? id).bind PageRecord.physical :=
          List.mem_map.mpr ⟨id, hmem, by rw [hrecord]; rfl⟩
        rw [h] at hnone
        simp at hnone
  have hphysical : (SequenceCache.recordsOf pages ids).filterMap PageRecord.physical =
      physical := by
    have hmap := congrArg (List.filterMap fun page : Option R.Page => page) h
    simpa [SequenceCache.recordsOf, List.filterMap_map, List.filterMap_filterMap] using hmap
  rw [holders, Arena.total_removeAll _ hids (SequenceCache.map_get?_recordsOf hlive) hget
    (fun id record => by rw [hupdate]), sum_holds, hphysical]
  rfl

/-- Fresh records add the pages they store. -/
theorem Grows.holders_eq {shared fresh : List PageId} (h : Grows pages pages' shared fresh)
    (page : R.Page) (hstored : Stored pages' fresh physical) :
    holders page pages' = holders page pages + physical.count page := by
  have hget : ∀ id, pages.get? id = if id ∈ fresh then none else (pages'.get? id).map fun record =>
      { record with activeRefs := record.activeRefs - shared.count id } := by
    intro id
    split_ifs with hmem
    · exact h.absent id hmem
    · rw [h.old id hmem, Option.map_map]
      have hsame : (fun record : PageRecord R.Page =>
          { record with activeRefs := record.activeRefs - shared.count id }) ∘
          (fun record : PageRecord R.Page =>
            { record with activeRefs := record.activeRefs + shared.count id }) =
              fun record => record := by
        funext record
        simp
      rw [hsame, Option.map_id']
  exact hstored.holders_eq page h.nodup hget fun _ _ => rfl

omit [DecidableEq R.Page] in
/-- A record that is not removed keeps its storage. -/
theorem physical_of_removed {update : PageId → PageRecord R.Page → PageRecord R.Page}
    (hget : ∀ id, pages'.get? id = if id ∈ ids then none else (pages.get? id).map (update id))
    (hupdate : ∀ id record, (update id record).physical = record.physical)
    (id : PageId) (record record' : PageRecord R.Page) (hrecord : pages.get? id = some record)
    (hrecord' : pages'.get? id = some record') : record'.physical = record.physical := by
  rw [hget] at hrecord'
  split_ifs at hrecord'
  rw [hrecord] at hrecord'
  rw [← Option.some.inj hrecord', hupdate]

omit [DecidableEq R.Page] in
theorem Grows.physical_eq {shared fresh : List PageId} (h : Grows pages pages' shared fresh)
    (id : PageId) (record record' : PageRecord R.Page) (hrecord : pages.get? id = some record)
    (hrecord' : pages'.get? id = some record') : record'.physical = record.physical := by
  obtain ⟨found, hfound, hphysical, -⟩ := h.keeps id record hrecord
  rw [Option.some.inj (hrecord'.symm.trans hfound), hphysical]

omit [DecidableEq R.Page] in
theorem stored_privatePages {fresh : List PageId} {allocations : List R.Page}
    (h : fresh.map pages.get? = allocations.map fun page => some (SequenceCache.privatePage page)) :
    Stored pages fresh allocations := by
  have hmap := congrArg (List.map fun record => record.bind PageRecord.physical) h
  rw [List.map_map, List.map_map] at hmap
  exact hmap

omit [DecidableEq R.Page] in
/-- What is stored under a list of records, taken apart with the list. -/
theorem Stored.split {before after : List PageId} {last : PageId}
    (h : Stored pages (before ++ last :: after) physical) :
    ∃ first storage kept, physical = first ++ storage :: kept ∧ Stored pages before first ∧
      (pages.get? last).bind PageRecord.physical = some storage ∧ Stored pages after kept := by
  have hmap : _ = physical.map some := h
  rw [List.map_append, List.map_cons] at hmap
  obtain ⟨first, rest, rfl, hfirst, hrest⟩ := List.map_eq_append_iff.mp hmap.symm
  obtain ⟨storage, kept, rfl, hstorage, hkept⟩ := List.map_eq_cons_iff.mp hrest
  exact ⟨first, storage, kept, rfl, hfirst.symm, hstorage.symm, hkept.symm⟩

end Stored

/-! ## Histories -/

section Histories

variable {history history' : R.History} {event : R.Event} {page : R.Page}

theorem Calls.suffix {limit : ℕ} {history history' : R.History} {flight flight' : List R.Page}
    (h : Calls limit history flight history' flight') : ∃ added, history' = added ++ history := by
  induction h with
  | refl => exact ⟨[], rfl⟩
  | acquire event _ _ _ ih | neutral event _ _ ih =>
      obtain ⟨added, rfl⟩ := ih
      exact ⟨event :: added, rfl⟩
  | rollback context page _ _ ih =>
      obtain ⟨added, rfl⟩ := ih
      exact ⟨.rollbackPage context page :: added, rfl⟩
  | overreported context reclaimed _ _ ih =>
      obtain ⟨added, rfl⟩ := ih
      exact ⟨.pollReclaimed context (.ok reclaimed) :: added, rfl⟩

theorem handedOut_append (added history : R.History) :
    handedOut (added ++ history) = handedOut added ++ handedOut history := List.flatMap_append

theorem handedBack_append (added history : R.History) :
    handedBack (added ++ history) = handedBack added ++ handedBack history := List.flatMap_append

/-- A call that is neither an acquisition nor a return. -/
theorem BackendEvent.idle_of_neutral (h : event.isNeutral = true) :
    event.acquired = [] ∧ event.returned = [] := by
  cases event with
  | abortAppend _ _ _ _ answer | commitAppend _ _ answer | retirePages _ _ answer
    | updatePageTable _ _ _ answer =>
      cases answer with
      | ok _ => simp [BackendEvent.isNeutral] at h
      | error _ => exact ⟨rfl, rfl⟩
  | allocatePage | copyPartialPage | rollbackPage => simp [BackendEvent.isNeutral] at h
  | _ => exact ⟨rfl, rfl⟩

theorem BackendEvent.returned_of_acquisition (h : event.isAcquisition = true) :
    event.returned = [] := by
  cases event with
  | allocatePage | copyPartialPage => rfl
  | _ => simp [BackendEvent.isAcquisition] at h

variable [DecidableEq R.Page]

theorem count_handedOut_cons (event : R.Event) (history : R.History) (page : R.Page) :
    (handedOut (event :: history)).count page =
      event.acquired.count page + (handedOut history).count page := by
  rw [handedOut, List.flatMap_cons, List.count_append]
  rfl

theorem count_handedBack_cons (event : R.Event) (history : R.History) (page : R.Page) :
    (handedBack (event :: history)).count page =
      event.returned.count page + (handedBack history).count page := by
  rw [handedBack, List.flatMap_cons, List.count_append]
  rfl

namespace SequenceCache

/-- No page was ever handed out while it was still outstanding. -/
def HandsOutFresh (history : R.History) : Prop :=
  Ledger.Fresh BackendEvent.acquired BackendEvent.returned history

instance (history : R.History) : Decidable (HandsOutFresh history) :=
  inferInstanceAs (Decidable (Ledger.Fresh _ _ history))

/-- The page was handed out more often than it was handed back. -/
def Outstanding (history : R.History) (page : R.Page) : Prop :=
  Ledger.Outstanding BackendEvent.acquired BackendEvent.returned history page

instance (history : R.History) (page : R.Page) : Decidable (Outstanding history page) :=
  inferInstanceAs (Decidable (Ledger.Outstanding _ _ history page))

end SequenceCache

open SequenceCache

/-- Calls change the pages in flight by what they obtain and hand back. -/
theorem Calls.count_eq {limit : ℕ} {flight flight' : List R.Page}
    (h : Calls limit history flight history' flight') (page : R.Page) :
    (handedOut history').count page + (handedBack history).count page + flight.count page =
      (handedOut history).count page + (handedBack history').count page + flight'.count page := by
  induction h with
  | refl => rfl
  | acquire event _ hevent _ ih =>
      rw [count_handedOut_cons, count_handedBack_cons, List.count_append,
        BackendEvent.returned_of_acquisition hevent, List.count_nil]
      omega
  | rollback context other _ hperm ih =>
      have hcount := hperm.count_eq page
      rw [List.count_cons] at hcount
      rw [count_handedOut_cons, count_handedBack_cons]
      change ([] : List R.Page).count page + _ + _ + _ = _ + ([other].count page + _) + _
      rw [List.count_nil, List.count_singleton]
      omega
  | neutral event _ hevent ih =>
      obtain ⟨hacquired, hreturned⟩ := BackendEvent.idle_of_neutral hevent
      rw [count_handedOut_cons, count_handedBack_cons, hacquired, hreturned, List.count_nil]
      omega
  | overreported context reclaimed _ _ ih =>
      rw [count_handedOut_cons, count_handedBack_cons]
      change ([] : List R.Page).count page + _ + _ + _ = _ + (([] : List R.Page).count page + _) + _
      rw [List.count_nil]
      omega

/-- Calls leave an outstanding page alone that is not in flight. -/
theorem Calls.untouched {limit : ℕ} {flight flight' : List R.Page}
    (h : Calls limit history flight history' flight') (hfresh : HandsOutFresh history')
    (hout : Outstanding history page) (hflight : page ∉ flight) : page ∉ flight' ∧
      (handedOut history').count page = (handedOut history).count page ∧
      (handedBack history').count page = (handedBack history).count page := by
  induction h with
  | refl => exact ⟨hflight, rfl, rfl⟩
  | @acquire later flight' event hcalls hevent _ ih =>
      obtain ⟨hnot, heqOut, heqBack⟩ := ih hfresh.1
      have hstill : Outstanding later page := by
        change (handedBack later).count page < (handedOut later).count page
        rw [heqOut, heqBack]
        exact hout
      have hother : page ∉ event.acquired := fun hmem => hfresh.2.2 page hmem hstill
      rw [count_handedOut_cons, count_handedBack_cons, List.count_eq_zero.mpr hother,
        BackendEvent.returned_of_acquisition hevent, List.count_nil, Nat.zero_add, Nat.zero_add]
      exact ⟨fun hmem => (List.mem_append.mp hmem).elim hnot hother, heqOut, heqBack⟩
  | rollback context other _ hperm ih =>
      obtain ⟨hnot, heqOut, heqBack⟩ := ih hfresh.1
      obtain ⟨hne, hrest⟩ := not_or.mp (mt List.mem_cons.mpr (mt hperm.mem_iff.mpr hnot))
      refine ⟨hrest, heqOut, ?_⟩
      rw [count_handedBack_cons]
      change [other].count page + _ = _
      rw [List.count_singleton, if_neg (by simpa using Ne.symm hne), Nat.zero_add, heqBack]
  | neutral event _ hevent ih =>
      obtain ⟨hnot, heqOut, heqBack⟩ := ih hfresh.1
      obtain ⟨hacquired, hreturned⟩ := BackendEvent.idle_of_neutral hevent
      rw [count_handedOut_cons, count_handedBack_cons, hacquired, hreturned, List.count_nil,
        Nat.zero_add, Nat.zero_add]
      exact ⟨hnot, heqOut, heqBack⟩
  | overreported context reclaimed _ _ ih =>
      obtain ⟨hnot, heqOut, heqBack⟩ := ih hfresh.1
      refine ⟨hnot, ?_, ?_⟩
      · rw [count_handedOut_cons, ← heqOut]
        exact Nat.zero_add _
      · rw [count_handedBack_cons, ← heqBack]
        exact Nat.zero_add _

theorem Retirement.count_eq {context : R.Context} {physical : List R.Page} {deferred : ℕ}
    (h : Retirement context physical deferred history history') (page : R.Page) :
    (handedOut history').count page = (handedOut history).count page ∧
      (handedBack history').count page =
        physical.count page + (handedBack history).count page := by
  rcases h with ⟨rfl, -, rfl⟩ | ⟨outcome, -, rfl, -⟩
  · exact ⟨rfl, (Nat.zero_add _).symm⟩
  · rw [count_handedOut_cons, count_handedBack_cons]
    exact ⟨Nat.zero_add _, rfl⟩

omit [DecidableEq R.Page] in
theorem Retirement.suffix {context : R.Context} {physical : List R.Page} {deferred : ℕ}
    (h : Retirement context physical deferred history history') :
    ∃ added, history' = added ++ history := by
  rcases h with ⟨-, -, rfl⟩ | ⟨outcome, -, rfl, -⟩
  · exact ⟨[], rfl⟩
  · exact ⟨[_], rfl⟩

omit [DecidableEq R.Page] in
theorem SequenceCache.Extended.suffix {pages : Pages R.Page}
    {record : SequenceRecord R.AppendTransaction} {allocations : List R.Page}
    {context : R.Context} (h : SequenceCache.Extended pages record allocations context history
      history') : ∃ added, history' = added ++ history := by
  rcases h with ⟨-, rfl⟩ | ⟨table, -, -, rfl⟩
  · exact ⟨[], rfl⟩
  · exact ⟨[_], rfl⟩

theorem SequenceCache.Extended.count_eq {pages : Pages R.Page}
    {record : SequenceRecord R.AppendTransaction} {allocations : List R.Page}
    {context : R.Context} (h : SequenceCache.Extended pages record allocations context history
      history') (page : R.Page) :
    (handedOut history').count page = (handedOut history).count page ∧
      (handedBack history').count page = (handedBack history).count page := by
  rcases h with ⟨-, rfl⟩ | ⟨table, -, -, rfl⟩
  · exact ⟨rfl, rfl⟩
  · rw [count_handedOut_cons, count_handedBack_cons]
    exact ⟨Nat.zero_add _, Nat.zero_add _⟩

/-- An accepted finalization hands back the storage of the released pages. -/
theorem SequenceCache.Accepted.released {cache : SequenceCache R}
    {record : SequenceRecord R.AppendTransaction} {pending : PendingAppend R.AppendTransaction}
    {context : R.Context} {committed : ℕ}
    (h : SequenceCache.Accepted cache record pending context committed event) (page : R.Page) :
    ∃ released, Stored cache.pages
        (releasedPages cache.config.pageTokens record pending committed) released ∧
      (handedOut (event :: cache.backend)).count page = (handedOut cache.backend).count page ∧
      (handedBack (event :: cache.backend)).count page =
        released.count page + (handedBack cache.backend).count page := by
  cases h with
  | commit commit _ _ _ _ _ hreleased _ =>
      refine ⟨commit.releasedPages, hreleased, ?_⟩
      rw [count_handedOut_cons, count_handedBack_cons]
      exact ⟨Nat.zero_add _, rfl⟩
  | abort _ released _ _ _ hreleased =>
      refine ⟨released, hreleased, ?_⟩
      rw [count_handedOut_cons, count_handedBack_cons]
      exact ⟨Nat.zero_add _, rfl⟩

end Histories

/-! ## Moves -/

namespace SequenceCache

/-- One change of the state, with the pages in flight before and after it. -/
inductive Carries (orphans : List PageId) (cache : SequenceCache R) (flight : List R.Page) :
    SequenceCache R → List R.Page → Prop
  | called {cache' : SequenceCache R} {limit : ℕ} {obtained : List R.Page} :
      Quiet cache cache' → Calls limit cache.backend [] cache'.backend obtained →
      Carries orphans cache flight cache' (flight ++ obtained)
  | published (context : R.Context) (table : List R.Page) (position : ℕ) :
      Carries orphans cache flight (cache.publish context table position) flight
  | interned {cache' : SequenceCache R} {stray blocks : List TokenBlockId} {tokens : List Token} :
      Interns cache cache' stray blocks tokens → Carries orphans cache flight cache' flight
  | touched {cache' : SequenceCache R} {used : Option PrefixEntryId} :
      Touched cache cache' used → Carries orphans cache flight cache' flight
  | evicted {cache' : SequenceCache R} {stray : List TokenBlockId} {entries : List PrefixEntryId}
      {context : R.Context} {retired : List PageId} {physical : List R.Page} {deferred : ℕ} :
      Inv orphans stray cache → Evicted cache cache' entries context retired physical deferred →
      Carries orphans cache flight cache' flight
  | reclaimed {cache' : SequenceCache R} {context : R.Context} {reclaimed : ℕ} :
      Reclaimed cache cache' context reclaimed → Carries orphans cache flight cache' flight
  | admitted {cache' : SequenceCache R} {shared fresh : List PageId} {id : SequenceId}
      {record : SequenceRecord R.AppendTransaction} :
      Admitted cache cache' shared fresh flight id record → Carries orphans cache flight cache' []
  | reserved {cache' : SequenceCache R} {sequence : SequenceId}
      {record : SequenceRecord R.AppendTransaction} {rows : ℕ} {context : R.Context}
      {transaction : R.AppendTransaction} {fresh : List PageId} {allocations : List R.Page}
      {prepared : R.History} :
      Reserved cache cache' sequence record rows context transaction fresh allocations prepared →
      Carries orphans cache flight cache' flight
  | settled {cache' : SequenceCache R} {stray : List TokenBlockId} {sequence : SequenceId}
      {record : SequenceRecord R.AppendTransaction} {pending : PendingAppend R.AppendTransaction}
      {context : R.Context} {committed : ℕ} {event : R.Event} : Inv orphans stray cache →
      Accepted cache record pending context committed event →
      Settled cache cache' sequence record pending committed event →
      Carries orphans cache flight cache' flight
  | finished {cache' : SequenceCache R} {stray : List TokenBlockId} {sequence : SequenceId}
      {record : SequenceRecord R.AppendTransaction} {context : R.Context}
      {physical : List R.Page} {deferred : ℕ} : Inv orphans stray cache →
      Finished cache cache' sequence record context physical deferred →
      Carries orphans cache flight cache' flight
  | retained {cache' : SequenceCache R} {sequence : SequenceId}
      {record : SequenceRecord R.AppendTransaction} {blocks : List TokenBlockId}
      {snapshot : R.Snapshot} : Retained cache cache' sequence record blocks snapshot →
      Carries orphans cache flight cache' flight

/-- A chain of moves. -/
def Trail (orphans : List PageId) (cache : SequenceCache R) (flight : List R.Page)
    (cache' : SequenceCache R) (flight' : List R.Page) : Prop :=
  Relation.ReflTransGen
    (fun before after : SequenceCache R × List R.Page =>
      Carries orphans before.1 before.2 after.1 after.2) (cache, flight) (cache', flight')

namespace Trail

variable {orphans : List PageId} {cache cache' cache'' : SequenceCache R}
variable {flight flight' flight'' : List R.Page}

theorem refl : Trail orphans cache flight cache flight := Relation.ReflTransGen.refl

theorem trans (h : Trail orphans cache flight cache' flight')
    (h' : Trail orphans cache' flight' cache'' flight'') :
    Trail orphans cache flight cache'' flight'' := Relation.ReflTransGen.trans h h'

theorem single (h : Carries orphans cache flight cache' flight') :
    Trail orphans cache flight cache' flight' := Relation.ReflTransGen.single h

theorem tail (h : Trail orphans cache flight cache' flight')
    (h' : Carries orphans cache' flight' cache'' flight'') :
    Trail orphans cache flight cache'' flight'' := h.trans (.single h')

/-- What every move preserves, a trail preserves. -/
theorem invariant (holds : SequenceCache R → List R.Page → Prop)
    (h : Trail orphans cache flight cache' flight')
    (hmove : ∀ {state state' : SequenceCache R} {pages pages' : List R.Page},
      Carries orphans state pages state' pages' → holds state pages → holds state' pages')
    (hholds : holds cache flight) : holds cache' flight' := by
  have hall : ∀ last : SequenceCache R × List R.Page, Relation.ReflTransGen
      (fun before after : SequenceCache R × List R.Page =>
        Carries orphans before.1 before.2 after.1 after.2) (cache, flight) last →
      holds last.1 last.2 := by
    intro last hlast
    induction hlast with
    | refl => exact hholds
    | tail _ hlast ih => exact hmove hlast ih
  exact hall (cache', flight') h

end Trail

/-! ## Every page is accounted for -/

/-- Every page handed out was handed back, or is stored by a record, or is in flight. -/
def Accounted (cache : SequenceCache R) (flight : List R.Page) : Prop :=
  (handedOut cache.backend).Perm
    (handedBack cache.backend ++ (storedPages cache.pages ++ flight))

variable {orphans : List PageId} {cache cache' : SequenceCache R}
variable {flight flight' lost : List R.Page}

section Counts

variable [DecidableEq R.Page] {page : R.Page}

theorem accounted_iff : Accounted cache flight ↔ ∀ page : R.Page,
    (handedOut cache.backend).count page =
      (handedBack cache.backend).count page + (holders page cache.pages + flight.count page) := by
  rw [Accounted, List.perm_iff_count]
  simp only [List.count_append, count_storedPages]

/-- A move changes the pages that are stored or in flight by what was obtained and handed
back. -/
theorem Carries.balance (h : Carries orphans cache flight cache' flight') (page : R.Page) :
    (handedOut cache'.backend).count page +
        ((handedBack cache.backend).count page + (holders page cache.pages + flight.count page)) =
      (handedOut cache.backend).count page + ((handedBack cache'.backend).count page +
        (holders page cache'.pages + flight'.count page)) := by
  cases h with
  | called hquiet hcalls =>
      have hcount := hcalls.count_eq page
      rw [List.count_nil] at hcount
      rw [hquiet.pages, List.count_append]
      omega
  | published context table position =>
      have hout := count_handedOut_cons (.updatePageTable context table position (.ok ()))
        cache.backend page
      have hback := count_handedBack_cons (.updatePageTable context table position (.ok ()))
        cache.backend page
      rw [publish, hout, hback]
      simp only [BackendEvent.acquired, BackendEvent.returned, List.count_nil]
      omega
  | interned hinterns => rw [hinterns.state]
  | touched htouched => rw [htouched.state]
  | evicted hinv hevicted =>
      have hids := hevicted.retired_perm.nodup_iff.mpr (nodup_freedBy cache _)
      have hholders := hevicted.stored.holders_eq page hids hevicted.pages
        fun _ _ => rfl
      obtain ⟨hout, hback⟩ := hevicted.retirement.count_eq page
      omega
  | @reclaimed _ context reclaimed hreclaimed =>
      have hout := count_handedOut_cons (.pollReclaimed context (.ok reclaimed)) cache.backend page
      have hback := count_handedBack_cons (.pollReclaimed context (.ok reclaimed))
        cache.backend page
      have hpages : cache'.pages = cache.pages :=
        (congrArg SequenceCache.pages hreclaimed.state :)
      have hbackend : cache'.backend = .pollReclaimed context (.ok reclaimed) :: cache.backend :=
        (congrArg SequenceCache.backend hreclaimed.state :)
      rw [hbackend, hpages, hout, hback]
      simp only [BackendEvent.acquired, BackendEvent.returned, List.count_nil]
      omega
  | admitted hadmitted =>
      have hholders := hadmitted.pages.holders_eq page hadmitted.stored
      have hbackend : cache'.backend = cache.backend :=
        (congrArg SequenceCache.backend hadmitted.state :)
      rw [hbackend, List.count_nil]
      omega
  | reserved hreserved =>
      have hholders := hreserved.pages.holders_eq page (stored_privatePages hreserved.records)
      have hcount := hreserved.calls.count_eq page
      rw [List.count_nil] at hcount
      obtain ⟨hout, hback⟩ := hreserved.extended.count_eq page
      omega
  | @settled _ _ _ _ _ _ committed _ hinv haccepted hsettled =>
      have hnodup := released_nodup (hinv.owned.sequence _ _ hsettled.live) hsettled.waiting
        cache.config.pageTokens committed
      obtain ⟨released, hstored, hout, hback⟩ := haccepted.released page
      have hholders := hstored.holders_eq page hnodup.of_append_right hsettled.pages
        fun _ _ => PageRecord.mark_physical _
      rw [hsettled.backend]
      omega
  | finished hinv hfinished =>
      have hok := hinv.owned.sequence _ _ hfinished.live
      have hids : (cache.finishBatch _).Nodup := (heldPages_of_pending_none hfinished.idle ▸
        hok.nodup).filter cache.solelyHeld
      have hholders := hfinished.stored.holders_eq page hids hfinished.pages
        fun _ _ => rfl
      obtain ⟨hout, hback⟩ := hfinished.retirement.count_eq page
      omega
  | retained hretained =>
      have hholders : holders page cache'.pages = holders page cache.pages :=
        Arena.total_map _ hretained.pages.get? fun _ _ => rfl
      have hbackend : cache'.backend = cache.backend :=
        (congrArg SequenceCache.backend hretained.state :)
      rw [hbackend, hholders]

/-- A move keeps every page accounted for, whatever was lost before. -/
theorem Carries.accounted (h : Carries orphans cache flight cache' flight')
    (haccounted : Accounted cache (flight ++ lost)) : Accounted cache' (flight' ++ lost) := by
  refine accounted_iff.mpr fun page => ?_
  have hbefore := accounted_iff.mp haccounted page
  have hbalance := h.balance page
  rw [List.count_append] at hbefore ⊢
  omega

/-- A finalization that stops half way hands back every page it releases, but the records
behind the one at its last generation keep theirs. -/
theorem Torn.balance {sequence : SequenceId} {record : SequenceRecord R.AppendTransaction}
    {pending : PendingAppend R.AppendTransaction} {context : R.Context} {committed : ℕ}
    {event : R.Event} {before after : List PageId} {last : PageId} {stray : List TokenBlockId}
    (h : Torn cache cache' sequence record pending committed event before last after)
    (hinv : Inv orphans stray cache)
    (haccepted : Accepted cache record pending context committed event) (page : R.Page) :
    ∃ kept, Stored cache.pages after kept ∧
      (handedOut cache'.backend).count page = (handedOut cache.backend).count page ∧
      (handedBack cache'.backend).count page + holders page cache'.pages =
        (handedBack cache.backend).count page + holders page cache.pages + kept.count page := by
  obtain ⟨released, hstored, hout, hback⟩ := haccepted.released page
  rw [h.split] at hstored
  obtain ⟨first, storage, kept, rfl, hfirst, hstorage, hkept⟩ := Stored.split hstored
  have hbackend : cache'.backend = event :: cache.backend :=
    (congrArg SequenceCache.backend h.state :)
  have hnodup : (before ++ last :: after).Nodup := by
    have hheld := released_nodup (hinv.owned.sequence _ _ h.live) h.waiting
      cache.config.pageTokens committed
    rw [h.split] at hheld
    exact hheld.of_append_right
  have hlast : last ∉ before := fun hmem =>
    List.disjoint_of_nodup_append hnodup hmem List.mem_cons_self
  obtain ⟨old, hold, hphysical⟩ := Option.bind_eq_some_iff.mp hstorage
  -- With its storage put back, the emptied record is one that was only marked.
  let marked := old.mark cache.config.pageTokens
    (segmentsDone cache.config.pageTokens record.position committed record.heldPages) last
  have hemptied : cache'.pages.get? last = some (PageRecord.emptied marked) := by
    rw [h.pages, if_neg hlast, hold, Option.map_some, if_pos rfl]
  have hget : ∀ id, (cache'.pages.set last marked).get? id = if id ∈ before then none else
      (cache.pages.get? id).map fun page => page.mark cache.config.pageTokens
        (segmentsDone cache.config.pageTokens record.position committed record.heldPages) id := by
    intro id
    rw [Arena.get?_set hemptied, h.pages]
    split_ifs with heq hmem
    · exact absurd (heq ▸ hmem) hlast
    · rw [heq, hold, Option.map_some]
    · rfl
    · rfl
  have hholders := hfirst.holders_eq page hnodup.of_append_left hget
    fun _ _ => PageRecord.mark_physical _
  have hrestored := Arena.total_set
    (fun record : PageRecord R.Page => if record.physical = some page then 1 else 0)
    marked hemptied
  have hmarked : marked.physical = some storage := (PageRecord.mark_physical _).trans hphysical
  have hnone : (PageRecord.emptied marked).physical = none := rfl
  refine ⟨kept, hkept, ?_, ?_⟩
  · rw [hbackend, hout]
  · rw [hbackend, hback, List.count_append, List.count_cons]
    simp only [hmarked, hnone, Option.some.injEq, reduceCtorEq, if_false, beq_iff_eq] at hrestored ⊢
    unfold holders at hholders ⊢
    omega

/-! ## What survives keeps its storage -/

/-- The history and the slots only grow, and a page that is live at both ends keeps its
storage, which was not handed back in between. -/
structure Preserves (cache cache' : SequenceCache R) : Prop where
  history : ∃ added, cache'.backend = added ++ cache.backend
  advances : Arena.Advances cache.pages cache'.pages
  storage : ∀ id page page', cache.pages.get? id = some page →
    cache'.pages.get? id = some page' → page'.physical = page.physical
  unreturned : ∀ id page page' storage, cache.pages.get? id = some page →
    cache'.pages.get? id = some page' → page.physical = some storage →
    (handedBack cache'.backend).count storage = (handedBack cache.backend).count storage

namespace Preserves

variable {cache'' : SequenceCache R}

theorem refl (cache : SequenceCache R) : Preserves cache cache where
  history := ⟨[], rfl⟩
  advances := .refl _
  storage := by
    intro id page page' hpage hpage'
    rw [hpage] at hpage'
    rw [Option.some.inj hpage']
  unreturned := fun _ _ _ _ _ _ _ => rfl

theorem trans (h : Preserves cache cache') (h' : Preserves cache' cache'') :
    Preserves cache cache'' := by
  have hmiddle : ∀ id page page'', cache.pages.get? id = some page →
      cache''.pages.get? id = some page'' → ∃ page', cache'.pages.get? id = some page' := by
    intro id page page'' hpage hpage''
    rcases h.advances.live_or_expired hpage with hlive | hexpired
    · exact hlive
    · rw [(h'.advances.expired hexpired).get?] at hpage''
      cases hpage''
  obtain ⟨added, hadded⟩ := h.history
  obtain ⟨added', hadded'⟩ := h'.history
  refine ⟨⟨added' ++ added, ?_⟩, h.advances.trans h'.advances, ?_, ?_⟩
  · rw [hadded', hadded, List.append_assoc]
  · intro id page page'' hpage hpage''
    obtain ⟨page', hpage'⟩ := hmiddle id page page'' hpage hpage''
    exact (h'.storage id page' page'' hpage' hpage'').trans (h.storage id page page' hpage hpage')
  · intro id page page'' storage hpage hpage'' hstorage
    obtain ⟨page', hpage'⟩ := hmiddle id page page'' hpage hpage''
    have hkept := (h.storage id page page' hpage hpage').trans hstorage
    exact (h'.unreturned id page' page'' storage hpage' hpage'' hkept).trans
      (h.unreturned id page page' storage hpage hpage' hstorage)

/-- Only the storage that is held before and after matters. -/
theorem ofHeld (hhistory : ∃ added, cache'.backend = added ++ cache.backend)
    (hadvances : Arena.Advances cache.pages cache'.pages)
    (hstorage : ∀ id page page', cache.pages.get? id = some page →
      cache'.pages.get? id = some page' → page'.physical = page.physical)
    (hback : ∀ storage, 0 < holders storage cache.pages → 0 < holders storage cache'.pages →
      (handedBack cache'.backend).count storage = (handedBack cache.backend).count storage) :
    Preserves cache cache' where
  history := hhistory
  advances := hadvances
  storage := hstorage
  unreturned := fun id page page' storage hpage hpage' hheld =>
    hback storage (holders_pos hpage hheld)
      (holders_pos hpage' ((hstorage id page page' hpage hpage').trans hheld))

end Preserves

theorem Accounted.holders_le (h : Accounted cache flight) (hfresh : HandsOutFresh cache.backend)
    (storage : R.Page) : holders storage cache.pages ≤ 1 := by
  have hnodup : (storedPages cache.pages ++ flight).Nodup := hfresh.nodup_of_perm h
  have hle := List.nodup_iff_count_le_one.mp hnodup.of_append_left storage
  rwa [count_storedPages] at hle

theorem Accounted.outstanding {storage : R.Page} (h : Accounted cache flight)
    (hheld : 0 < holders storage cache.pages) : Outstanding cache.backend storage := by
  have hmem : storage ∈ storedPages cache.pages ++ flight := by
    rw [← count_storedPages] at hheld
    exact List.mem_append_left _ (List.count_pos_iff.mp hheld)
  exact (Ledger.outstanding_iff_mem h).mpr hmem

/-- A batch that is handed back contains no page that is still stored. -/
theorem Accounted.not_retired {physical : List R.Page} {storage : R.Page}
    (h : Accounted cache flight) (hfresh : HandsOutFresh cache.backend)
    (hholders : holders storage cache.pages =
      holders storage cache'.pages + physical.count storage)
    (hheld' : 0 < holders storage cache'.pages) : physical.count storage = 0 := by
  have hle := h.holders_le hfresh storage
  omega

theorem Carries.preserves (h : Carries orphans cache flight cache' flight')
    (haccounted : Accounted cache (flight ++ lost)) (hfresh : HandsOutFresh cache'.backend) :
    Preserves cache cache' := by
  have hearlier : ∀ added, cache'.backend = added ++ cache.backend →
      HandsOutFresh cache.backend := by
    intro added hadded
    rw [HandsOutFresh, hadded] at hfresh
    exact hfresh.of_append
  have hsame : cache'.pages = cache.pages → ∀ id page page', cache.pages.get? id = some page →
      cache'.pages.get? id = some page' → page'.physical = page.physical := by
    intro hpages id page page' hpage hpage'
    rw [hpages, hpage] at hpage'
    rw [Option.some.inj hpage']
  cases h with
  | called hquiet hcalls =>
      refine .ofHeld hcalls.suffix (hquiet.pages ▸ .refl _) (hsame hquiet.pages)
        fun storage hheld _ => ?_
      exact (hcalls.untouched hfresh (haccounted.outstanding hheld) List.not_mem_nil).2.2
  | published context table position =>
      refine .ofHeld ⟨[_], rfl⟩ (.refl _) (hsame rfl) fun storage _ _ => ?_
      exact (count_handedBack_cons _ _ _).trans (Nat.zero_add _)
  | interned hinterns =>
      have hbackend : cache'.backend = cache.backend :=
        (congrArg SequenceCache.backend hinterns.state :)
      have hpages : cache'.pages = cache.pages :=
        (congrArg SequenceCache.pages hinterns.state :)
      exact .ofHeld ⟨[], hbackend⟩ (hpages ▸ .refl _) (hsame hpages)
        fun storage _ _ => by rw [hbackend]
  | touched htouched =>
      have hbackend : cache'.backend = cache.backend :=
        (congrArg SequenceCache.backend htouched.state :)
      have hpages : cache'.pages = cache.pages :=
        (congrArg SequenceCache.pages htouched.state :)
      exact .ofHeld ⟨[], hbackend⟩ (hpages ▸ .refl _) (hsame hpages)
        fun storage _ _ => by rw [hbackend]
  | evicted hinv hevicted =>
      obtain ⟨added, hadded⟩ := hevicted.retirement.suffix
      have hids := hevicted.retired_perm.nodup_iff.mpr (nodup_freedBy cache _)
      refine .ofHeld ⟨added, hadded⟩ hevicted.advances
        (physical_of_removed hevicted.pages fun _ _ => rfl) fun storage _ hheld' => ?_
      have hholders := hevicted.stored.holders_eq storage hids hevicted.pages
        fun _ _ => rfl
      rw [(hevicted.retirement.count_eq storage).2,
        haccounted.not_retired (hearlier added hadded) hholders hheld', Nat.zero_add]
  | reclaimed hreclaimed =>
      have hpages : cache'.pages = cache.pages :=
        (congrArg SequenceCache.pages hreclaimed.state :)
      have hbackend : cache'.backend = _ :: cache.backend :=
        (congrArg SequenceCache.backend hreclaimed.state :)
      refine .ofHeld ⟨[_], hbackend⟩ (hpages ▸ .refl _) (hsame hpages)
        fun storage _ _ => ?_
      rw [hbackend]
      exact (count_handedBack_cons _ _ _).trans (Nat.zero_add _)
  | admitted hadmitted =>
      have hbackend : cache'.backend = cache.backend :=
        (congrArg SequenceCache.backend hadmitted.state :)
      exact .ofHeld ⟨[], hbackend⟩ hadmitted.pages.advances hadmitted.pages.physical_eq
        fun storage _ _ => by rw [hbackend]
  | reserved hreserved =>
      obtain ⟨added, hadded⟩ := hreserved.calls.suffix
      obtain ⟨later, hlater⟩ := hreserved.extended.suffix
      refine .ofHeld ⟨later ++ added, by rw [hlater, hadded, List.append_assoc]⟩
        hreserved.pages.advances hreserved.pages.physical_eq fun storage hheld _ => ?_
      rw [(hreserved.extended.count_eq storage).2]
      rw [HandsOutFresh, hlater] at hfresh
      exact (hreserved.calls.untouched hfresh.of_append (haccounted.outstanding hheld)
        List.not_mem_nil).2.2
  | @settled _ _ _ _ _ _ committed _ hinv haccepted hsettled =>
      have hnodup := released_nodup (hinv.owned.sequence _ _ hsettled.live) hsettled.waiting
        cache.config.pageTokens committed
      refine .ofHeld ⟨[_], hsettled.backend⟩ hsettled.advances
        (physical_of_removed hsettled.pages fun _ _ => PageRecord.mark_physical _)
        fun storage _ hheld' => ?_
      obtain ⟨released, hstored, -, hback⟩ := haccepted.released storage
      have hholders := hstored.holders_eq storage hnodup.of_append_right hsettled.pages
        fun _ _ => PageRecord.mark_physical _
      rw [hsettled.backend, hback, haccounted.not_retired (hearlier [_] hsettled.backend) hholders
        hheld', Nat.zero_add]
  | finished hinv hfinished =>
      obtain ⟨added, hadded⟩ := hfinished.retirement.suffix
      have hok := hinv.owned.sequence _ _ hfinished.live
      have hids : (cache.finishBatch _).Nodup := (heldPages_of_pending_none hfinished.idle ▸
        hok.nodup).filter cache.solelyHeld
      refine .ofHeld ⟨added, hadded⟩ hfinished.advances
        (physical_of_removed hfinished.pages fun _ _ => rfl) fun storage _ hheld' => ?_
      have hholders := hfinished.stored.holders_eq storage hids hfinished.pages
        fun _ _ => rfl
      rw [(hfinished.retirement.count_eq storage).2,
        haccounted.not_retired (hearlier added hadded) hholders hheld', Nat.zero_add]
  | retained hretained =>
      have hbackend : cache'.backend = cache.backend :=
        (congrArg SequenceCache.backend hretained.state :)
      refine .ofHeld ⟨[], hbackend⟩ (.ofUpdated hretained.pages) ?_
        fun storage _ _ => by rw [hbackend]
      intro id page page' hpage hpage'
      rw [hretained.pages.get?, hpage] at hpage'
      rw [← Option.some.inj hpage']

end Counts

/-! ## Single calls -/

section Calls

variable {cache cache' middle : SequenceCache R} {orphans : List PageId}
variable {stray : List TokenBlockId}

theorem Called.trail {limit : ℕ} {flight obtained : List R.Page}
    (h : Called limit cache cache' obtained) :
    Trail orphans cache flight cache' (flight ++ obtained) := by
  refine .single (.called ?_ h.calls)
  rw [h.state]
  exact Quiet.ofBackend cache'.backend

theorem Called.trail_nil {limit : ℕ} {flight : List R.Page} (h : Called limit cache cache' []) :
    Trail orphans cache flight cache' flight := by
  have htrail : Trail orphans cache flight cache' (flight ++ []) := h.trail
  rwa [List.append_nil] at htrail

theorem Unchanged.trail {flight : List R.Page} (h : Unchanged cache cache') :
    Trail orphans cache flight cache' flight := by
  have hmove : Carries orphans cache flight cache' (flight ++ []) := .called h.quiet h.calls
  rw [List.append_nil] at hmove
  exact .single hmove

theorem Admission.trail {protectedEntry : Option PrefixEntryId} {context : R.Context}
    {shared fresh retired : List PageId} {id : SequenceId} {limit : ℕ} {flight : List R.Page}
    {record : SequenceRecord R.AppendTransaction} {plan : List PrefixEntryId}
    {start evicted : SequenceCache R} {physical : List R.Page} {deferred : ℕ}
    (h : Admission cache cache' limit protectedEntry flight context shared fresh id record plan
      start evicted retired physical deferred) (hinv : Inv orphans stray start) :
    Trail orphans start flight cache' [] :=
  (Trail.single (.evicted hinv h.carried_out)).tail (.admitted h.admitted)

/-- A copied tail is in flight until the branch is registered. -/
theorem Copies.trail {start : SequenceCache R} {record : SequenceRecord R.AppendTransaction}
    {context : R.Context} {copied : Option R.Page} {history : R.History}
    (h : Copies cache start record context copied history) :
    Trail orphans cache [] start copied.toList := by
  obtain ⟨table, -, -, hstart⟩ := h.published
  rw [hstart]
  exact Trail.tail (.single (.called (Quiet.ofBackend history) h.tail.calls))
    (.published context _ record.position)

theorem admitSequence_trail (hlaw : R.Retires) (hinv : Inv orphans stray cache)
    (prefixMatch : Option PrefixMatch) (request : AdmissionRequest) (context : R.Context)
    (restore : Option R.Snapshot → ℕ → Except R.Error Unit) :
    Ends (admitSequence prefixMatch request context restore cache)
      (fun _ cache' => Trail orphans cache [] cache' [])
      (fun _ cache' => Trail orphans cache [] cache' []) := by
  refine Ends.mono (admitSequence_spec hlaw hinv prefixMatch request context restore) ?_ ?_
  · rintro outcome cache' ⟨-, reclaimed, middle, hreclaimed, hmiddle, hadmits⟩
    have hfirst : Trail orphans cache [] middle [] := .single (.reclaimed hreclaimed)
    rcases hadmits with ⟨-, rfl, -⟩ |
      ⟨_, position, _, _, _, _, _, table, _, _, _, _, _, -, -, hadmission⟩
    · exact hfirst
    · exact (hfirst.tail (.published context table position)).trans
        (hadmission.trail (publish_inv hmiddle context table position))
  · rintro failure cache' ⟨-, hcalled | ⟨reclaimed, middle, hreclaimed, hmiddle, hrest⟩⟩
    · exact hcalled.trail_nil
    have hfirst : Trail orphans cache [] middle [] := .single (.reclaimed hreclaimed)
    rcases hrest with hcalled | ⟨_, position, _, _, _, _, _, table, -, -, hcalled⟩
    · exact hfirst.trans hcalled.trail_nil
    · exact (hfirst.tail (.published context table position)).trans hcalled.trail_nil

theorem branch_trail (hlaw : R.Retires) (hinv : Inv orphans stray cache) (source : SequenceId)
    (request : AdmissionRequest) (context : R.Context) :
    Ends (branch source request context cache)
      (fun _ cache' => Trail orphans cache [] cache' [])
      (fun _ cache' => ∃ flight, Trail orphans cache [] cache' flight ∧
        ((flight = [] ∧ Called 1 cache cache' []) ∨
          ∃ start record copied history, Copies cache start record context copied history ∧
            Called 0 start cache' [] ∧ flight = copied.toList)) := by
  refine Ends.mono (branch_spec hlaw hinv source request context) ?_ ?_
  · rintro outcome cache' ⟨-, ⟨-, rfl, -⟩ |
      ⟨_, copied, _, _, _, _, _, _, _, _, _, _, _, _, -, hforked, hadmission⟩⟩
    · exact .refl
    · exact hforked.copies.trail.trans (hadmission.trail (hforked.copies.inv hinv))
  · rintro failure cache' ⟨-, ⟨hcalled, -⟩ |
      ⟨record, copied, history, _, _, _, _, start, hforked, -, hcalled⟩⟩
    · exact ⟨[], hcalled.trail_nil, Or.inl ⟨rfl, hcalled⟩⟩
    · exact ⟨copied.toList, hforked.copies.trail.trans hcalled.trail_nil,
        Or.inr ⟨start, record, copied, history, hforked.copies, hcalled, rfl⟩⟩

theorem reserveAppend_trail (hinv : Inv orphans stray cache) (sequence : SequenceId) (rows : ℕ)
    (context : R.Context) :
    Ends (reserveAppend sequence rows context cache)
      (fun _ cache' => Trail orphans cache [] cache' [] ∧ Inv orphans stray cache')
      (fun _ cache' => Trail orphans cache [] cache' []) := by
  refine Ends.mono (reserveAppend_spec hinv sequence rows context) ?_ ?_
  · rintro reservation cache' ⟨hfinal, _, _, _, _, _, hreserved, -⟩
    exact ⟨.single (.reserved hreserved), hfinal⟩
  · rintro failure cache' ⟨-, -, hattempted⟩
    exact Trail.single (.called hattempted.quiet hattempted.calls)

section Finalize

variable {reservation : AppendReservation} {committed : ℕ} {context : R.Context}

theorem Finalized.trail (h : Finalized cache reservation committed context cache')
    (hinv : Inv orphans stray cache) : Trail orphans cache [] cache' [] := by
  obtain ⟨record, pending, event, -, haccepted, hsettled⟩ := h
  exact .single (.settled hinv haccepted hsettled)

/-- A finalization that fails without running out of generations leaves the pages alone. -/
theorem FinalizeFails.trail {valid : Prop} {failure : Failure R.Error}
    (h : FinalizeFails orphans stray cache reservation valid committed context failure cache') :
    (∃ error, failure = .error error) ∧
      ((∀ kind, failure ≠ .error (.idExhausted kind)) → Trail orphans cache [] cache' []) := by
  rcases h with ⟨⟨error, -, rfl⟩ | ⟨-, rfl⟩, rfl⟩ | ⟨error, rfl, hputBack⟩ | ⟨rfl, -⟩
  · exact ⟨⟨_, rfl⟩, fun _ => .refl⟩
  · exact ⟨⟨_, rfl⟩, fun _ => .refl⟩
  · exact ⟨⟨_, rfl⟩, fun _ => hputBack.unchanged.trail⟩
  · exact ⟨⟨_, rfl⟩, fun hintact => absurd rfl (hintact _)⟩

/-- What a finalization leaves behind, if it does not run out of generations. -/
abbrev FinalizeTrails (orphans : List PageId) (stray : List TokenBlockId) (cache : SequenceCache R)
    (result : EStateM.Result (Failure R.Error) (SequenceCache R) Unit) : Prop :=
  Ends result
    (fun _ cache' => Trail orphans cache [] cache' [] ∧ Inv orphans stray cache')
    (fun failure cache' => (∃ error, failure = .error error) ∧
      ((∀ kind, failure ≠ .error (.idExhausted kind)) → Trail orphans cache [] cache' []))

theorem commitAppend_trail (hinv : Inv orphans stray cache) :
    FinalizeTrails orphans stray cache (commitAppend reservation committed context cache) :=
  Ends.mono (commitAppend_spec hinv reservation committed context)
    (fun _ _ h => ⟨h.2.trail hinv, h.1⟩) fun _ _ h => h.trail

theorem abortAppend_trail (hinv : Inv orphans stray cache) :
    FinalizeTrails orphans stray cache (abortAppend reservation context cache) :=
  Ends.mono (abortAppend_spec hinv reservation context)
    (fun _ _ h => ⟨h.2.trail hinv, h.1⟩) fun _ _ h => h.trail

end Finalize

theorem retainPrefix_trail (hlaw : R.Retires) (hinv : Inv orphans stray cache)
    (sequence : SequenceId) (tokens : List Token) (snapshot : R.Snapshot) (context : R.Context) :
    Ends (retainPrefix sequence tokens snapshot context cache)
      (fun _ cache' => Trail orphans cache [] cache' [])
      (fun _ cache' => Trail orphans cache [] cache' []) := by
  refine Ends.mono (retainPrefix_spec hlaw hinv sequence tokens snapshot context) ?_ ?_
  · rintro outcome cache' ⟨-, hretains⟩
    cases hretains with
    | duplicate _ _ htouched => exact .single (.touched htouched)
    | inserted _ hne hinterns _ _ hevicted hretained =>
        exact ((Trail.single (.interned hinterns)).tail
          (.evicted (hinterns.inv hinv hne) hevicted)).tail (.retained hretained)
  · intro failure cache' hfails
    cases hfails with
    | stale _ | invalid _ _ | oversized _ _ | uncountable _ _ => exact .refl
    | crowded _ _ _ htouched => exact .single (.touched htouched)
    | unkeyed _ _ _ _ hundone => exact hundone.unchanged.trail
    | full _ _ _ _ hundone => exact hundone.unchanged.trail
    | refused _ _ _ _ _ _ hundone => exact hundone.unchanged.trail
    | overflown _ _ _ _ _ hinterns => exact .single (.interned hinterns)
    | unnumbered _ _ _ _ _ _ hinterns => exact .single (.interned hinterns)

/-! ## Loops of calls -/

section Loops

variable {ι α : Type} {call : ι → CacheM R α} {items : List ι} {values : List α}

theorem EachOk.trail (h : EachOk call cache items values cache') (hinv : Inv orphans stray cache)
    (hcall : ∀ item state, Inv orphans stray state → Ends (call item state)
      (fun _ state' => Trail orphans state [] state' [] ∧ Inv orphans stray state')
      fun _ _ => True) :
    Trail orphans cache [] cache' [] ∧ Inv orphans stray cache' := by
  have hkeeps : ∀ item ∈ items, ∀ state value state',
      Trail orphans cache [] state [] ∧ Inv orphans stray state →
      call item state = .ok value state' →
      Trail orphans cache [] state' [] ∧ Inv orphans stray state' := by
    rintro item - state value state' ⟨htrail, hstate⟩ hrun
    have hends := hcall item state hstate
    rw [hrun] at hends
    exact ⟨htrail.trans hends.1, hends.2⟩
  exact h.invariant ⟨.refl, hinv⟩ hkeeps

/-- A loop over finalizations that does not run out of generations. -/
theorem Finalizes.trail {call : ι → CacheM R Unit} {batch : List AppendReservation}
    {result : EStateM.Result (Failure R.Error) (SequenceCache R) (BatchResult R Unit)}
    (h : Finalizes call batch items cache result) (hinv : Inv orphans stray cache)
    (hcall : ∀ item state, Inv orphans stray state →
      FinalizeTrails orphans stray state (call item state)) :
    Ends result
      (fun value cache' => ¬ Exhausted (.ok (Reply.finalized value) :
        Except (Failure R.Error) (Reply R)) → Trail orphans cache [] cache' [])
      (fun _ _ => False) := by
  have hok : ∀ item state, Inv orphans stray state → Ends (call item state)
      (fun _ state' => Trail orphans state [] state' [] ∧ Inv orphans stray state')
      fun _ _ => True := fun item state hstate =>
    Ends.mono (hcall item state hstate) (fun _ _ h => h) fun _ _ _ => trivial
  rcases h with ⟨new, cache', heach, rfl⟩ |
    ⟨before, item, after, new, middle, failure, cache', -, hstopped, hresult⟩
  · exact fun _ => (EachOk.trail heach hinv hok).1
  obtain ⟨htrail, hmiddle⟩ := EachOk.trail hstopped.succeeded hinv hok
  have hfailed := hcall item middle hmiddle
  rw [hstopped.failed] at hfailed
  obtain ⟨⟨error, rfl⟩, hlast⟩ := hfailed
  rcases hresult with ⟨error', heq, rfl⟩ | ⟨message, heq, -⟩
  · cases heq
    intro hintact
    refine htrail.trans (hlast fun kind heq => hintact ⟨kind, ?_⟩)
    cases heq
    rfl
  · cases heq

theorem Dismissed.trail {batch : List AppendReservation}
    {result : EStateM.Result (Failure R.Error) (SequenceCache R) (BatchResult R Unit)}
    (h : Dismissed batch cache result) :
    Ends result (fun _ cache' => Trail orphans cache [] cache' []) (fun _ _ => False) := by
  obtain ⟨error, index, -, rfl⟩ := h
  exact .refl

end Loops

theorem reserveAppendBatch_trail (hinv : Inv orphans stray cache)
    (requests : List AppendBatchRequest) (contexts : List R.Context) :
    Ends (reserveAppendBatch requests contexts cache)
      (fun _ cache' => Trail orphans cache [] cache' [])
      (fun _ cache' => Trail orphans cache [] cache' []) := by
  have hcall : ∀ (item : AppendBatchRequest × R.Context) (state : SequenceCache R),
      Inv orphans stray state → Ends (reserveItem item state)
        (fun _ state' => Trail orphans state [] state' [] ∧ Inv orphans stray state')
        fun _ _ => True := fun item state hstate =>
    Ends.mono (reserveAppend_trail hstate item.1.sequence item.1.rows item.2)
      (fun _ _ h => h) fun _ _ _ => trivial
  unfold reserveAppendBatch
  by_cases hlength : requests.length ≠ contexts.length
  · rw [if_pos hlength]
    exact .refl
  rw [if_neg hlength]
  rcases reserveEach_cases (requests.zip contexts) 0 [] cache with ⟨new, cache', heach, hrun⟩ |
    ⟨before, item, after, new, middle, failure, cache', -, hstopped, hresult⟩
  · rw [hrun]
    exact (EachOk.trail heach hinv hcall).1
  obtain ⟨htrail, hmiddle⟩ := EachOk.trail hstopped.succeeded hinv hcall
  have hfailed := reserveAppend_trail hmiddle item.1.sequence item.1.rows item.2
  rw [show reserveAppend item.1.sequence item.1.rows item.2 middle = .error failure cache' from
    hstopped.failed] at hfailed
  rcases hresult with ⟨error, -, hrun⟩ | ⟨message, -, hrun⟩
  · rw [hrun]
    exact htrail.trans hfailed
  · rw [hrun]
    exact htrail.trans hfailed

end Calls

end SequenceCache

/-! ## All calls -/

open SequenceCache

section Operations

variable [DecidableEq R.Page]

/-- Pages obtained and not handed back between two histories. -/
def unreturned (earlier later : R.History) : List R.Page :=
  let added := later.take (later.length - earlier.length)
  (handedOut added).filter (· ∉ handedBack added)

/-- Pages that a failing branch obtained and did not hand back. -/
def Operation.leaks : Operation R → SequenceCache R → List R.Page
  | .branch source request context, cache =>
      match SequenceCache.branch source request context cache with
      | .ok _ _ => []
      | .error _ cache' => unreturned cache.backend cache'.backend
  | _, _ => []

theorem unreturned_append (added history : R.History) :
    unreturned history (added ++ history) = (handedOut added).filter (· ∉ handedBack added) := by
  rw [unreturned, List.length_append, Nat.add_sub_cancel, List.take_left']
  rfl

omit [DecidableEq R.Page] in
/-- Without an allowance no page is obtained, and so none is handed back. -/
theorem Calls.of_zero {history history' : R.History} {flight : List R.Page}
    (h : Calls 0 history [] history' flight) : flight = [] ∧
      handedOut history' = handedOut history ∧ handedBack history' = handedBack history := by
  induction h with
  | refl => exact ⟨rfl, rfl, rfl⟩
  | acquire _ _ _ hlimit => exact absurd hlimit (Nat.not_lt_zero _)
  | rollback _ _ _ hperm ih =>
      rw [ih.1] at hperm
      exact absurd hperm.symm.eq_nil (List.cons_ne_nil _ _)
  | neutral event _ hevent ih =>
      obtain ⟨hacquired, hreturned⟩ := BackendEvent.idle_of_neutral hevent
      refine ⟨ih.1, ?_, ?_⟩
      · rw [handedOut, List.flatMap_cons, hacquired]
        exact ih.2.1
      · rw [handedBack, List.flatMap_cons, hreturned]
        exact ih.2.2
  | overreported _ _ _ _ ih => exact ih

/-- A call that hands back whatever it obtained leaks nothing. -/
theorem Calls.unreturned_eq_nil {limit : ℕ} {history history' : R.History}
    (h : Calls limit history [] history' []) : unreturned history history' = [] := by
  obtain ⟨added, rfl⟩ := h.suffix
  rw [unreturned_append, List.filter_eq_nil_iff]
  intro page hmem
  have hcount := h.count_eq page
  rw [handedOut_append, handedBack_append, List.count_append, List.count_append] at hcount
  have hpos : 0 < (handedOut added).count page := List.count_pos_iff.mpr hmem
  have hback : 0 < (handedBack added).count page := by omega
  simpa using List.count_pos_iff.mp hback

/-- A branch that is given up after its tail was copied leaks the copy. -/
theorem SequenceCache.Copies.unreturned_eq {cache start cache' : SequenceCache R}
    {record : SequenceRecord R.AppendTransaction} {context : R.Context} {copied : Option R.Page}
    {history : R.History} (h : Copies cache start record context copied history)
    (hcalled : Called 0 start cache' []) :
    unreturned cache.backend cache'.backend = copied.toList := by
  obtain ⟨-, hout, hback⟩ := hcalled.calls.of_zero
  obtain ⟨table, -, -, hstart⟩ := h.published
  obtain ⟨before, hhistory, hbeforeOut, hbeforeBack⟩ : ∃ before, history = before ++ cache.backend ∧
      handedOut before = copied.toList ∧ handedBack before = [] := by
    cases hpartial : cache.branchPartial record with
    | none =>
        obtain ⟨rfl, rfl⟩ := h.tail.aligned hpartial
        exact ⟨[], rfl, rfl, rfl⟩
    | some id =>
        obtain ⟨_, storage, copy, -, -, rfl, -, rfl⟩ := h.tail.partial_tail id hpartial
        exact ⟨[_], rfl, rfl, rfl⟩
  obtain ⟨added, hadded⟩ := hcalled.calls.suffix
  have hbackend : start.backend = .updatePageTable context (table ++ copied.toList) record.position
      (.ok ()) :: (before ++ cache.backend) := by rw [hstart, ← hhistory]; rfl
  rw [hadded, handedOut_append] at hout
  rw [hadded, handedBack_append] at hback
  have hnoneOut : handedOut added = [] := List.append_cancel_right hout
  have hnoneBack : handedBack added = [] := List.append_cancel_right hback
  rw [hadded, hbackend, ← List.cons_append, ← List.append_assoc, unreturned_append,
    handedOut_append, handedBack_append, hnoneOut, hnoneBack, List.nil_append, List.nil_append]
  change (handedOut before).filter (· ∉ handedBack before) = _
  rw [hbeforeOut, hbeforeBack, List.filter_eq_self]
  simp

/-- A branch leaks at most the copy of its tail. -/
theorem SequenceCache.branch_leaks (hlaw : R.Retires) {orphans : List PageId}
    {stray : List TokenBlockId} {cache : SequenceCache R} (hinv : Inv orphans stray cache)
    (source : SequenceId) (request : AdmissionRequest) (context : R.Context) :
    Trail orphans cache [] ((Operation.branch source request context).step cache)
      ((Operation.branch source request context).leaks cache) := by
  have hends := branch_trail hlaw hinv source request context
  have hstep : (Operation.branch source request context).step cache =
      finalState (branch source request context cache) :=
    finalState_map _ (branch source request context) cache
  rw [hstep, Operation.leaks]
  cases hrun : branch source request context cache with
  | ok outcome cache' =>
      rw [hrun] at hends
      exact hends
  | error failure cache' =>
      rw [hrun] at hends
      obtain ⟨flight, htrail, ⟨rfl, hcalled⟩ | ⟨start, record, copied, history, hcopies, hcalled,
        rfl⟩⟩ := hends
      · simp only [hcalled.calls.unreturned_eq_nil]
        exact htrail
      · simp only [hcopies.unreturned_eq hcalled]
        exact htrail

omit [DecidableEq R.Page] in
/-- What is known of a program is known of the call that runs it. -/
theorem SequenceCache.Trail.ofEnds {α : Type} {orphans : List PageId} {cache : SequenceCache R}
    {program : CacheM R α} {reply : α → Reply R}
    (h : Ends (program cache) (fun _ cache' => Trail orphans cache [] cache' [])
      (fun _ cache' => Trail orphans cache [] cache' [])) :
    Trail orphans cache [] (finalState ((reply <$> program) cache)) [] := finalState_of_ends h

omit [DecidableEq R.Page] in
theorem SequenceCache.Trail.ofSettled {α : Type} {orphans : List PageId} {cache : SequenceCache R}
    {program : CacheM R α} {reply : α → Reply R}
    (h : Ends (program cache)
      (fun value cache' => ¬ Exhausted (.ok (reply value) : Except (Failure R.Error) (Reply R)) →
        Trail orphans cache [] cache' [])
      (fun failure cache' => ¬ Exhausted (.error failure : Except (Failure R.Error) (Reply R)) →
        Trail orphans cache [] cache' []))
    (hintact : ¬ Exhausted (outcome ((reply <$> program) cache))) :
    Trail orphans cache [] (finalState ((reply <$> program) cache)) [] := by
  cases hrun : program cache with
  | ok value cache' =>
      rw [hrun] at h
      rw [map_ok reply hrun] at hintact ⊢
      exact h hintact
  | error failure cache' =>
      rw [hrun] at h
      rw [map_error reply hrun] at hintact ⊢
      exact h hintact

/-- A call moves pages along a trail, unless it is a finalization that runs out of
generations. -/
theorem Operation.trail (hlaw : R.Retires) {orphans : List PageId} {stray : List TokenBlockId}
    {cache : SequenceCache R} (hinv : Inv orphans stray cache) {operation : Operation R}
    (huntorn : operation.Untorn cache) :
    Trail orphans cache [] (operation.step cache) (operation.leaks cache) := by
  cases operation with
  | admitSequence prefixMatch request context restore =>
      exact .ofEnds (admitSequence_trail hlaw hinv prefixMatch request context restore)
  | branch source request context => exact branch_leaks hlaw hinv source request context
  | reserveAppend sequence rows context =>
      exact .ofEnds (Ends.mono (reserveAppend_trail hinv sequence rows context)
        (fun _ _ h => h.1) fun _ _ h => h)
  | commitAppend reservation rows context =>
      exact .ofSettled (Ends.mono (commitAppend_trail hinv) (fun _ _ h _ => h.1)
        fun failure _ h hkind => h.2 fun kind heq => hkind (heq ▸ trivial)) (huntorn rfl)
  | abortAppend reservation context =>
      exact .ofSettled (Ends.mono (abortAppend_trail hinv) (fun _ _ h _ => h.1)
        fun failure _ h hkind => h.2 fun kind heq => hkind (heq ▸ trivial)) (huntorn rfl)
  | reserveAppendBatch requests contexts =>
      exact .ofEnds (reserveAppendBatch_trail hinv requests contexts)
  | commitAppendBatch reservations rows contexts =>
      refine .ofSettled ?_ (huntorn rfl)
      rcases commitAppendBatch_cases reservations rows contexts cache with
        hdismissed | ⟨-, -, -, hfinalizes⟩
      · exact Ends.mono hdismissed.trail (fun _ _ h _ => h) fun _ _ h => h.elim
      · exact Ends.mono (hfinalizes.trail hinv fun item state hstate => commitAppend_trail hstate)
          (fun _ _ h => h) fun _ _ h => h.elim
  | abortAppendBatch reservations contexts =>
      refine .ofSettled ?_ (huntorn rfl)
      rcases abortAppendBatch_cases reservations contexts cache with
        hdismissed | ⟨-, -, hfinalizes⟩
      · exact Ends.mono hdismissed.trail (fun _ _ h _ => h) fun _ _ h => h.elim
      · exact Ends.mono (hfinalizes.trail hinv fun item state hstate => abortAppend_trail hstate)
          (fun _ _ h => h) fun _ _ h => h.elim
  | withAppendPages reservation operation =>
      refine .ofEnds (Ends.mono (withAppendPages_spec hinv reservation operation) ?_ ?_)
      · exact fun _ _ h => h.trail_nil
      · rintro failure cache' (⟨_, -, -, rfl⟩ | ⟨-, hcalled, -⟩)
        · exact .refl
        · exact hcalled.trail_nil
  | withAppendReservations reservations operation =>
      refine .ofEnds (Ends.mono
        (withAppendReservations_spec hinv reservations operation) ?_ ?_)
      · exact fun _ _ h => h.trail_nil
      · rintro failure cache' (⟨_, -, _, -, -, rfl⟩ | ⟨-, hcalled, -⟩)
        · exact .refl
        · exact hcalled.trail_nil
  | retainPrefix sequence tokens snapshot context =>
      exact .ofEnds (retainPrefix_trail hlaw hinv sequence tokens snapshot context)
  | evictPrefix entry context =>
      refine .ofEnds (Ends.mono (evictPrefix_spec hlaw hinv entry context) ?_ ?_)
      · rintro - cache' ⟨-, -, retired, physical, deferred, hevicted⟩
        exact .single (.evicted hinv hevicted)
      · rintro failure cache' (⟨-, -, rfl⟩ | ⟨-, -, hcalled⟩)
        · exact .refl
        · exact hcalled.trail_nil
  | lookupPrefix tokens =>
      refine .ofEnds (Ends.mono (lookupPrefix_spec hinv tokens) ?_ ?_)
      · exact fun _ _ h => .single (.touched h.1)
      · exact fun _ _ h => .single (.touched h.2.2)
  | finish sequence context =>
      refine .ofEnds (Ends.mono (finish_spec hlaw hinv sequence context) ?_ ?_)
      · rintro - cache' ⟨-, record, physical, deferred, hfinished⟩
        exact .single (.finished hinv hfinished)
      · rintro failure cache' (⟨-, -, rfl⟩ | ⟨record, -, ⟨-, -, rfl⟩ | ⟨-, -, rfl⟩ | ⟨-, hcalled⟩⟩)
        · exact .refl
        · exact .refl
        · exact .refl
        · exact hcalled.trail_nil
  | reclaimDeferred context =>
      refine .ofEnds (Ends.mono (reclaimDeferred_spec hinv context) ?_ ?_)
      · exact fun _ _ h => .single (.reclaimed h.2)
      · exact fun _ _ h => h.2.trail_nil

end Operations

end SeqCache
