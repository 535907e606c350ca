import SeqCache.Properties.Custody
import SeqCache.Run.Contents

/-!
# What is stored

The backend stores the rows.  It copies what it is told to copy, keeps the rows of a
committed table, and otherwise changes outstanding pages at most in rows that a pending
append may write.  Under this contract no call changes a row that was valid and stays so.
-/

namespace SeqCache

open Machine Program Std

variable {R : Runtime}

/-- The call was asked for a copy. -/
def BackendEvent.copies {Page Context Transaction Error : Type} :
    BackendEvent Page Context Transaction Error → Bool
  | .copyPartialPage .. => true
  | _ => false

/-! ## Rows that become valid -/

/-- One of the calls committed a table in which the storage holds the row. -/
def CommittedIn (pageTokens : ℕ) (added : R.History) (storage : R.Page) (row : ℕ) : Prop :=
  ∃ context commit index, BackendEvent.commitAppend context commit (.ok ()) ∈ added ∧
    commit.committedPages[index]? = some storage ∧
      row < validRows pageTokens commit.position index

theorem CommittedIn.mono {pageTokens : ℕ} {added added' : R.History} {storage : R.Page} {row : ℕ}
    (h : CommittedIn pageTokens added storage row) (hsubset : added ⊆ added') :
    CommittedIn pageTokens added' storage row := by
  obtain ⟨context, commit, index, hmem, hstorage, hrow⟩ := h
  exact ⟨context, commit, index, hsubset hmem, hstorage, hrow⟩

namespace SequenceCache

/-- Rows that are valid and were not valid before were committed in between. -/
def Validates (pageTokens : ℕ) (cache cache' : SequenceCache R) : Prop :=
  ∀ id page page' storage row, cache.pages.get? id = some page →
    cache'.pages.get? id = some page' → page.physical = some storage → row < page'.validTokens →
      row < page.validTokens ∨ ∃ added, cache'.backend = added ++ cache.backend ∧
        CommittedIn pageTokens added storage row

variable {cache cache' cache'' : SequenceCache R} {pageTokens : ℕ} {orphans : List PageId}
variable {flight flight' lost : List R.Page}

theorem Steady.validates (h : Steady cache.pages cache'.pages) :
    Validates pageTokens cache cache' := by
  intro id page page' storage row hpage hpage' _ hrow
  rw [(h.alike id page page' hpage hpage').2] at hrow
  exact Or.inl hrow

theorem Validates.trans [DecidableEq R.Page] (h : Validates pageTokens cache cache')
    (h' : Validates pageTokens cache' cache'') (hpreserves : Preserves cache cache')
    (hpreserves' : Preserves cache' cache'') : Validates pageTokens cache cache'' := by
  intro id page page'' storage row hpage hpage'' hstorage hrow
  rcases hpreserves.advances.live_or_expired hpage with ⟨page', hpage'⟩ | hexpired
  · have hstorage' := (hpreserves.storage id page page' hpage hpage').trans hstorage
    rcases h' id page' page'' storage row hpage' hpage'' hstorage' hrow with
      hrow' | ⟨added', hadded', hcommitted⟩
    · rcases h id page page' storage row hpage hpage' hstorage hrow' with
        hvalid | ⟨added, hadded, hcommitted⟩
      · exact Or.inl hvalid
      · obtain ⟨added', hadded'⟩ := hpreserves'.history
        exact Or.inr ⟨added' ++ added, by rw [hadded', hadded, List.append_assoc],
          hcommitted.mono (List.subset_append_right _ _)⟩
    · obtain ⟨added, hadded⟩ := hpreserves.history
      exact Or.inr ⟨added' ++ added, by rw [hadded', hadded, List.append_assoc],
        hcommitted.mono (List.subset_append_left _ _)⟩
  · rw [(hpreserves'.advances.expired hexpired).get?] at hpage''
    cases hpage''

/-- A finalization makes rows valid only by committing them. -/
theorem Settled.validates {stray : List TokenBlockId} {sequence : SequenceId}
    {record : SequenceRecord R.AppendTransaction} {pending : PendingAppend R.AppendTransaction}
    {context : R.Context} {committed : ℕ} {event : R.Event}
    (h : Settled cache cache' sequence record pending committed event)
    (haccepted : Accepted cache record pending context committed event)
    (hinv : Inv orphans stray cache) : Validates cache.config.pageTokens cache cache' := by
  have hok := hinv.owned.sequence sequence record h.live
  have hpos := hinv.config.pageTokens_pos
  intro id page page' storage row hpage hpage' hstorage hrow
  have hmark := h.pages id
  rw [hpage', hpage] at hmark
  split_ifs at hmark with hreleased
  rw [Option.map_some] at hmark
  by_cases hwritten : id ∈ (segmentsDone cache.config.pageTokens record.position committed
      record.heldPages).map AppendSegment.page
  · have hheld := (written_open hinv h.live h.waiting hwritten).1
    have htable : id ∈ record.pages ++ keptPages cache.config.pageTokens record pending
        committed := by
      rw [heldPages_of_pending_some h.waiting, ← kept_append_released cache.config.pageTokens
        record pending committed, ← List.append_assoc] at hheld
      exact (List.mem_append.mp hheld).resolve_right hreleased
    obtain ⟨n, hn⟩ := List.mem_iff_getElem?.mp htable
    obtain ⟨hid, hlt⟩ := getElem?_table hpos hok h.waiting h.committed_le hn
    rw [PageRecord.mark_held hpos hok.nodup hid hlt] at hmark
    split_ifs at hmark with hsame
    · rw [Option.some.inj hmark] at hrow
      exact Or.inl hrow
    · refine Or.inr ⟨[event], h.backend, ?_⟩
      rw [Option.some.inj hmark] at hrow
      cases haccepted with
      | commit commit transaction _ hposition _ hcommitted _ _ =>
          have hentry := congrArg (fun table => table[n]?) hcommitted
          simp only [List.getElem?_map, hn, Option.map_some, hpage, Option.bind_some,
            hstorage] at hentry
          obtain ⟨found, hfound, hsome⟩ := Option.map_eq_some_iff.mp hentry.symm
          rw [Option.some.inj hsome] at hfound
          exact ⟨context, commit, n, List.mem_singleton.mpr rfl, hfound, hposition ▸ hrow⟩
      | abort => exact absurd (Or.inl rfl) hsame
  · rw [PageRecord.mark_of_not_mem page hwritten] at hmark
    rw [Option.some.inj hmark] at hrow
    exact Or.inl hrow

theorem Carries.config_eq (h : Carries orphans cache flight cache' flight') :
    cache'.config = cache.config := by
  cases h with
  | called hquiet _ => exact hquiet.config
  | published => rfl
  | interned hinterns => exact (congrArg SequenceCache.config hinterns.state :)
  | touched htouched => exact (congrArg SequenceCache.config htouched.state :)
  | evicted _ hevicted => exact hevicted.config
  | reclaimed hreclaimed => exact (congrArg SequenceCache.config hreclaimed.state :)
  | admitted hadmitted => exact (congrArg SequenceCache.config hadmitted.state :)
  | reserved hreserved => exact (congrArg SequenceCache.config hreserved.state :)
  | settled _ _ hsettled => exact (congrArg SequenceCache.config hsettled.state :)
  | finished _ hfinished => exact (congrArg SequenceCache.config hfinished.state :)
  | retained hretained => exact (congrArg SequenceCache.config hretained.state :)

theorem Carries.validates (h : Carries orphans cache flight cache' flight') :
    Validates cache.config.pageTokens cache cache' := by
  cases h with
  | called hquiet _ => exact Steady.validates (hquiet.pages ▸ .refl _)
  | published => exact Steady.validates (.refl _)
  | interned hinterns =>
      exact Steady.validates ((congrArg SequenceCache.pages hinterns.state :) ▸ .refl _)
  | touched htouched =>
      exact Steady.validates ((congrArg SequenceCache.pages htouched.state :) ▸ .refl _)
  | evicted _ hevicted => exact Steady.validates hevicted.steady
  | reclaimed hreclaimed =>
      exact Steady.validates ((congrArg SequenceCache.pages hreclaimed.state :) ▸ .refl _)
  | admitted hadmitted => exact Steady.validates (.ofGrows hadmitted.pages)
  | reserved hreserved => exact Steady.validates (.ofGrows hreserved.pages)
  | settled hinv haccepted hsettled => exact hsettled.validates haccepted hinv
  | finished _ hfinished =>
      exact Steady.validates (.ofRemoved hfinished.advances hfinished.pages fun _ _ => ⟨rfl, rfl⟩)
  | retained hretained => exact Steady.validates (.ofUpdated hretained.pages fun _ _ => ⟨rfl, rfl⟩)

section Preserved

variable [DecidableEq R.Page]

/-- What survives a trail keeps its storage, and gains rows only through commits. -/
theorem Trail.preserves (h : Trail orphans cache flight cache' flight')
    (haccounted : Accounted cache (flight ++ lost)) (hfresh : HandsOutFresh cache'.backend) :
    Preserves cache cache' ∧ Validates cache.config.pageTokens cache cache' := by
  refine (h.invariant (fun state pages => Accounted state (pages ++ lost) ∧
    state.config = cache.config ∧ (HandsOutFresh state.backend →
      Preserves cache state ∧ Validates cache.config.pageTokens cache state))
    ?_ ⟨haccounted, rfl, fun _ => ⟨.refl cache, Steady.validates (.refl _)⟩⟩).2.2 hfresh
  rintro state state' pages pages' hmove ⟨hstate, hconfig, hkept⟩
  refine ⟨hmove.accounted hstate, hmove.config_eq.trans hconfig, fun hlater => ?_⟩
  have hlast := hmove.preserves hstate hlater
  obtain ⟨added, hadded⟩ := hlast.history
  have hearlier : HandsOutFresh state.backend := by
    rw [HandsOutFresh, hadded] at hlater
    exact hlater.of_append
  obtain ⟨hpreserves, hvalidates⟩ := hkept hearlier
  exact ⟨hpreserves.trans hlast,
    hvalidates.trans (hconfig ▸ hmove.validates) hpreserves hlast⟩

theorem Operation.preserves (hlaw : R.Retires) {stray : List TokenBlockId}
    (hinv : Inv [] stray cache) (haccounted : Accounted cache lost) {operation : Operation R}
    (hintact : ¬ Exhausted (operation.result cache))
    (hfresh : HandsOutFresh (operation.step cache).backend) :
    Preserves cache (operation.step cache) ∧
      Validates cache.config.pageTokens cache (operation.step cache) :=
  (operation.trail hlaw hinv fun _ => hintact).preserves haccounted hfresh

end Preserved

/-! ## The contract of the memory -/

/-- Calls made since an earlier history. -/
def callsSince (earlier later : R.History) : R.History :=
  later.take (later.length - earlier.length)

theorem callsSince_append (added history : R.History) :
    callsSince history (added ++ history) = added := by
  rw [callsSince, List.length_append, Nat.add_sub_cancel, List.take_left']
  rfl

/-- A pending append may write the row of the storage. -/
def Drafted (cache : SequenceCache R) (storage : R.Page) (row : ℕ) : Prop :=
  ∃ sequence, ∃ segment ∈ cache.pendingSegments sequence,
    (cache.pages.get? segment.page).bind PageRecord.physical = some storage ∧
      segment.pageOffset ≤ row ∧ row < segment.pageOffset + segment.rows

variable [DecidableEq R.Page] {Row : Type} {memory memory' : R.Page → ℕ → Row}

/-- What the backend promises about the rows it stores, over the calls between two states. -/
structure Respects (cache cache' : SequenceCache R) (memory memory' : R.Page → ℕ → Row) :
    Prop where
  kept : ∀ storage row, Outstanding cache.backend storage →
    storage ∉ handedBack (callsSince cache.backend cache'.backend) →
    ¬ cache.Drafted storage row → memory' storage row = memory storage row
  copied : ∀ context source rows copy,
    .copyPartialPage context source rows (.ok copy) ∈
      callsSince cache.backend cache'.backend →
    copy ∉ handedBack (callsSince cache.backend cache'.backend) →
    ∀ row < rows, memory' copy row = memory source row
  committed : ∀ storage row, CommittedIn cache.config.pageTokens
    (callsSince cache.backend cache'.backend) storage row →
    memory' storage row = memory storage row

/-- A backend that copied no page keeps its promises by leaving all rows alone. -/
theorem Respects.ofSame {cache cache' : SequenceCache R}
    (h : ∀ event ∈ callsSince cache.backend cache'.backend, event.copies = false) :
    Respects cache cache' memory memory where
  kept _ _ _ _ _ := rfl
  copied context source rows copy hmem _ := absurd (h _ hmem) (by simp [BackendEvent.copies])
  committed _ _ _ := rfl

/-- Between calls only the rows of pending appends change. -/
def Writes (cache : SequenceCache R) (memory memory' : R.Page → ℕ → Row) : Prop :=
  ∀ storage row, Outstanding cache.backend storage → ¬ cache.Drafted storage row →
    memory' storage row = memory storage row

/-- Valid rows are not drafted. -/
theorem not_drafted {stray : List TokenBlockId} (hinv : Inv [] stray cache)
    (haccounted : Accounted cache lost) (hfresh : HandsOutFresh cache.backend) {id : PageId}
    {page : PageRecord R.Page} {storage : R.Page} {row : ℕ}
    (hpage : cache.pages.get? id = some page) (hstorage : page.physical = some storage)
    (hrow : row < page.validTokens) : ¬ cache.Drafted storage row := by
  rintro ⟨sequence, segment, hsegment, hplace, hle, -⟩
  obtain ⟨other, ⟨hother, -⟩, hvalid, -⟩ :=
    (Exclusive.ofInv hinv).writable sequence segment hsegment
  rw [hother, Option.bind_some] at hplace
  have hnodup : (storedPages cache.pages ++ lost).Nodup := hfresh.nodup_of_perm haccounted
  have heq := eq_of_stored hnodup.of_append_left hpage hother hstorage hplace
  rw [heq, hpage] at hother
  rw [Option.some.inj hother] at hrow
  omega

/-- Valid rows of pages that stay live are the same before and after. -/
def SameRows (cache cache' : SequenceCache R) (memory memory' : R.Page → ℕ → Row) : Prop :=
  ∀ id page page' storage row, cache.pages.get? id = some page →
    cache'.pages.get? id = some page' → page.physical = some storage → row < page'.validTokens →
      memory' storage row = memory storage row

theorem Respects.sameRows (h : Respects cache cache' memory memory') {stray : List TokenBlockId}
    (hinv : Inv [] stray cache) (haccounted : Accounted cache lost)
    (hfresh : HandsOutFresh cache'.backend) (hpreserves : Preserves cache cache')
    (hvalidates : Validates cache.config.pageTokens cache cache') :
    SameRows cache cache' memory memory' := by
  intro id page page' storage row hpage hpage' hstorage hrow
  obtain ⟨added, hadded⟩ := hpreserves.history
  have hsince : callsSince cache.backend cache'.backend = added := by
    rw [hadded, callsSince_append]
  rcases hvalidates id page page' storage row hpage hpage' hstorage hrow with
    hvalid | ⟨added', hadded', hcommitted⟩
  · have hearlier : HandsOutFresh cache.backend := by
      rw [HandsOutFresh, hadded] at hfresh
      exact hfresh.of_append
    refine h.kept storage row (haccounted.outstanding (holders_pos hpage hstorage)) ?_
      (not_drafted hinv haccounted hearlier hpage hstorage hvalid)
    have hcount := hpreserves.unreturned id page page' storage hpage hpage' hstorage
    rw [hadded, handedBack_append, List.count_append] at hcount
    rw [hsince, ← List.count_eq_zero]
    omega
  · rw [hadded] at hadded'
    rw [List.append_cancel_right hadded'] at hsince
    exact h.committed storage row (hsince ▸ hcommitted)

theorem Writes.sameRows (h : Writes cache memory memory') {stray : List TokenBlockId}
    (hinv : Inv [] stray cache) (haccounted : Accounted cache lost)
    (hfresh : HandsOutFresh cache.backend) : SameRows cache cache memory memory' := by
  intro id page page' storage row hpage hpage' hstorage hrow
  rw [hpage] at hpage'
  rw [← Option.some.inj hpage'] at hrow
  exact h storage row (haccounted.outstanding (holders_pos hpage hstorage))
    (not_drafted hinv haccounted hfresh hpage hstorage hrow)

end SequenceCache

end SeqCache
