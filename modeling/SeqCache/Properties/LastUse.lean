import SeqCache.Core.Traces
import SeqCache.Run.Reachable

/-!
# The order of last use

The LRU set is a set of times.  Read in ascending order it is the list that a client would
keep by hand: an entry moves to the back when it is inserted, retained again or found, and
disappears when it is evicted.  The clock may restart at any point of the run without a
trace in that list.
-/

namespace SeqCache

open Machine Program Std

variable {R : Runtime}

namespace SequenceCache

variable {orphans : List PageId} {stray : List TokenBlockId} {cache cache' : SequenceCache R}
variable {uses : SequenceId → R.Context → Prop} {opens : R.Context → Prop}

/-! ## Changes only remove entries -/

private theorem sublist_of_lru (h : cache'.lru = cache.lru) :
    cache'.recency.Sublist cache.recency := by
  rw [recency, h, recency]

theorem Change.recency_sublist (h : Change orphans uses opens cache cache') :
    cache'.recency.Sublist cache.recency := by
  cases h with
  | quiet hquiet _ => exact sublist_of_lru hquiet.lru
  | interned h => exact sublist_of_lru (congrArg SequenceCache.lru h.state :)
  | published _ => exact List.Sublist.refl _
  | evicted _ h =>
      rw [h.order]
      exact List.filter_sublist
  | reclaimed _ h => exact sublist_of_lru (congrArg SequenceCache.lru h.state :)
  | admitted _ h _ _ _ => exact sublist_of_lru (congrArg SequenceCache.lru h.state :)
  | reserved _ _ h => exact sublist_of_lru (congrArg SequenceCache.lru h.state :)
  | settled _ _ _ h => exact sublist_of_lru (congrArg SequenceCache.lru h.state :)
  | finished _ h => exact sublist_of_lru (congrArg SequenceCache.lru h.state :)

theorem Progress.recency_sublist (h : Progress orphans uses opens cache cache') :
    cache'.recency.Sublist cache.recency := by
  induction h with
  | refl => exact List.Sublist.refl _
  | tail _ hchange ih => exact hchange.recency_sublist.trans ih

theorem Interrupted.recency_eq {reservation : AppendReservation} {committed : ℕ}
    {context : R.Context} {lost : List PageId}
    (h : Interrupted cache reservation committed context lost cache') :
    cache'.recency = cache.recency := by
  obtain ⟨record, pending, event, before, last, after, -, -, htorn, -⟩ := h
  rw [recency, htorn.state]
  rfl

/-! ## Every call -/

/-- Entries of a list that are still retained. -/
def keepRetained (cache : SequenceCache R) (order : List PrefixEntryId) : List PrefixEntryId :=
  order.filter (· ∈ cache.prefixes)

theorem mem_recency_iff (hinv : Inv orphans stray cache) {id : PrefixEntryId} :
    id ∈ cache.recency ↔ id ∈ cache.prefixes := by
  rw [mem_recency hinv.ranked, ← ExtTreeMap.isSome_getElem?_iff_mem, Option.isSome_iff_exists]

theorem recency_eq_keepRetained {orphans' : List PageId} {stray' : List TokenBlockId}
    (hsub : cache'.recency.Sublist cache.recency) (hinv : Inv orphans stray cache)
    (hinv' : Inv orphans' stray' cache') : cache'.recency = cache'.keepRetained cache.recency := by
  refine eq_filter_of_sublist hsub (nodup_recency hinv.ranked) fun id _ => ?_
  rw [mem_recency_iff hinv', decide_eq_true_iff]

theorem keepRetained_recency (hinv : Inv orphans stray cache)
    (hmem : ∀ id ∈ cache.prefixes, id ∈ cache'.prefixes) :
    cache'.keepRetained cache.recency = cache.recency :=
  List.filter_eq_self.mpr fun id h => decide_eq_true (hmem id ((mem_recency_iff hinv).mp h))

end SequenceCache

open SequenceCache

/-- What a call does to the order of last use: entries that it evicts leave, and the entry that
it reports as inserted, retained again or found moves to the back. -/
def Operation.useOrder (operation : Operation R) (cache : SequenceCache R)
    (order : List PrefixEntryId) : List PrefixEntryId :=
  let kept := (operation.step cache).keepRetained order
  match touchedBy (operation.result cache) with
  | some id => moveToBack kept id
  | none => kept

namespace SequenceCache

theorem Evolves.useOrder {strays : Prop} {operation : Operation R}
    (h : Evolves orphans stray strays uses opens cache (operation.result cache)
      (operation.step cache)) (hinv : Inv orphans stray cache) :
    (operation.step cache).recency = operation.useOrder cache cache.recency := by
  rw [Operation.useOrder]
  generalize operation.step cache = cache' at h ⊢
  generalize operation.result cache = result at h ⊢
  cases h with
  | progressed hprogress htouched _ hinv' =>
      rw [htouched]
      exact recency_eq_keepRetained hprogress.recency_sublist hinv hinv'
  | touched htouched hinv' =>
      rw [keepRetained_recency hinv fun id => (htouched.mem_iff id).mpr, htouched.order]
      cases touchedBy result <;> rfl
  | @retained middle cache' _ _ _ _ hprogress hretained htouched hinv' _ =>
      rw [htouched, hretained.order]
      congr 1
      refine eq_filter_of_sublist hprogress.recency_sublist (nodup_recency hinv.ranked) ?_
      intro id hmem
      have hold : id ≠ middle.nextPrefixId :=
        ((hinv.ids_below id ((mem_recency_iff hinv).mp hmem)).trans_le
          hprogress.follows.nextPrefixId).ne
      rw [decide_eq_true_iff, ← mem_recency_iff hinv', hretained.order, mem_moveToBack hold]
  | torn hprogress hmiddle _ htorn _ htouched hinv' =>
      rw [htouched]
      refine recency_eq_keepRetained ?_ hinv hinv'
      rw [htorn.recency_eq]
      exact hprogress.recency_sublist

/-! ## Runs -/

/-- The order of last use that a client keeps who watches the calls. -/
def useOrderAfter : List (Operation R) → SequenceCache R → List PrefixEntryId →
    List PrefixEntryId
  | [], _, order => order
  | operation :: rest, cache, order =>
      useOrderAfter rest (operation.step cache) (operation.useOrder cache order)

theorem recency_runAll (hlaw : R.Retires) (operations : List (Operation R))
    (hinv : ∃ orphans stray, Inv orphans stray cache) :
    (runAll Operation.step operations cache).recency =
      useOrderAfter operations cache cache.recency := by
  induction operations generalizing cache with
  | nil => rfl
  | cons operation rest ih =>
      obtain ⟨orphans, stray, hinv⟩ := hinv
      rw [runAll, ih (operation.inv hlaw hinv), useOrderAfter,
        (operation.evolves hlaw hinv).useOrder hinv]

/-- In every state of a run the LRU set lists exactly the retained entries, in the order in
which they were last used.  A new time of use is later than every stored one, and restarting
the clock for it keeps the order. -/
theorem recency_eq_useOrderAfter (hlaw : R.Lawful) {config : CacheConfig}
    {start cache : SequenceCache R} (hnew : SequenceCache.new R config = .ok start)
    {operations : List (Operation R)} (hcache : runAll Operation.step operations start = cache) :
    cache.recency = useOrderAfter operations start [] ∧
      (∀ id : PrefixEntryId, id ∈ cache.recency ↔ id ∈ cache.prefixes) ∧ cache.recency.Nodup ∧
      cache.renormalize.recency = cache.recency ∧
      Ends (tick cache)
        (fun now cache' => now = cache'.clock ∧ cache'.recency = cache.recency ∧
          ∀ (used : ℕ) (id : PrefixEntryId), (used, id) ∈ cache'.lru → used < now)
        (fun _ cache' => cache.prefixes.size = usizeMax ∧ cache'.recency = cache.recency) := by
  have hstart : start.recency = [] := by
    rw [(new_eq_ok.mp hnew).2]
    rfl
  have hrun := recency_runAll hlaw.toRetires operations ⟨[], [], inv_of_new hnew⟩
  obtain ⟨orphans, stray, hinv⟩ : ∃ orphans stray, Inv orphans stray cache := by
    rw [← hcache]
    refine runAll_invariant (fun state => ∃ orphans stray, Inv orphans stray state) ?_ operations
      ⟨[], [], inv_of_new hnew⟩
    rintro operation state ⟨orphans, stray, hstate⟩
    exact operation.inv hlaw.toRetires hstate
  refine ⟨by rw [← hcache, hrun, hstart], fun _ => mem_recency_iff hinv, nodup_recency hinv.ranked,
    (renormalize_touched hinv.timed).order, ?_⟩
  obtain ⟨hfull, hrun⟩ | ⟨cache', hrun, htouched, hbefore⟩ := tick_cases hinv.timed
  · rw [hrun]
    exact ⟨hfull, (renormalize_touched hinv.timed).order⟩
  · rw [hrun]
    refine ⟨rfl, htouched.order, fun used id hmem => ?_⟩
    obtain ⟨entry, hentry, rfl⟩ := (htouched.ranked used id).mp hmem
    exact hbefore id entry hentry

/-- Two entries, of which the older one is found again. -/
def foundAgain : List (Operation Reference.plain) :=
  Reference.served ++ [Reference.admission 8, .reserveAppend ⟨0, 1⟩ 2 (8 : ℕ),
    .commitAppend ⟨⟨0, 1⟩, 0, 2, [⟨⟨1, 0⟩, 0, 0, 2⟩], 1⟩ 2 (8 : ℕ),
    .retainPrefix ⟨0, 1⟩ [2, 2] 4 (8 : ℕ), .lookupPrefix [1, 1, 1]]

theorem recency_eq_useOrderAfter_foundAgain :
    (Reference.after foundAgain).recency = useOrderAfter foundAgain Reference.start [] :=
  (recency_eq_useOrderAfter Reference.plain_lawful Reference.new_start rfl).1

end SequenceCache

end SeqCache
