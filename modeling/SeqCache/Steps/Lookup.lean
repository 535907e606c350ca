import SeqCache.Invariant.Evictions

/-!
# Lookup as a step

A lookup moves the clock and the LRU position of the entry it finds.  Everything else,
in particular the pages, the index and the statistics, stays as it is.
-/

namespace SeqCache

open Machine Program Std

variable {R : Runtime}

/-- An entry without its place in the LRU order. -/
def PrefixEntry.untimed {Snapshot : Type} (entry : PrefixEntry Snapshot) : PrefixEntry Snapshot :=
  { entry with lastUsed := 0 }

/-- The same entries, possibly used at other times. -/
def Retimed {Snapshot : Type} (prefixes prefixes' : Prefixes Snapshot) : Prop :=
  ∀ id : PrefixEntryId,
    prefixes'[id]?.map PrefixEntry.untimed = prefixes[id]?.map PrefixEntry.untimed

namespace Retimed

variable {Snapshot : Type} {prefixes prefixes' prefixes'' : Prefixes Snapshot}

theorem refl (prefixes : Prefixes Snapshot) : Retimed prefixes prefixes := fun _ => rfl

theorem trans (h : Retimed prefixes prefixes') (h' : Retimed prefixes' prefixes'') :
    Retimed prefixes prefixes'' := fun id => (h' id).trans (h id)

/-- What does not mention the time of last use is the same on both sides. -/
theorem map_eq {α : Type} (h : Retimed prefixes prefixes') (view : PrefixEntry Snapshot → α)
    (hview : ∀ entry, view entry.untimed = view entry) (id : PrefixEntryId) :
    prefixes'[id]?.map view = prefixes[id]?.map view := by
  have := congrArg (Option.map view) (h id)
  simpa only [Option.map_map, Function.comp_def, hview] using this

theorem of_new (h : Retimed prefixes prefixes') {id : PrefixEntryId}
    {entry' : PrefixEntry Snapshot} (hentry : prefixes'[id]? = some entry') :
    ∃ entry, prefixes[id]? = some entry ∧ entry'.untimed = entry.untimed := by
  have := h id
  rw [hentry, Option.map_some, eq_comm, Option.map_eq_some_iff] at this
  obtain ⟨entry, hold, heq⟩ := this
  exact ⟨entry, hold, heq.symm⟩

theorem symm (h : Retimed prefixes prefixes') : Retimed prefixes' prefixes := fun id => (h id).symm

/-- Filing an entry and taking it out again. -/
theorem eraseAll_insert (h : Retimed prefixes prefixes') {id : PrefixEntryId}
    (hfresh : prefixes[id]? = none) (entry : PrefixEntry Snapshot) :
    Retimed prefixes (eraseAll (prefixes'.insert id entry) [id]) := by
  intro other
  rw [getElem?_eraseAll]
  by_cases heq : other = id
  · rw [if_pos (List.mem_singleton.mpr heq), heq, hfresh]
  · rw [if_neg (mt List.mem_singleton.mp heq), getElem?_insert_eq, if_neg heq]
    exact h other

theorem total_eq (h : Retimed prefixes prefixes') (weight : PrefixEntry Snapshot → ℕ)
    (hweight : ∀ entry, weight entry.untimed = weight entry) :
    mapTotal weight prefixes' = mapTotal weight prefixes :=
  mapTotal_congr weight (h.map_eq weight hweight)

theorem size_eq (h : Retimed prefixes prefixes') : prefixes'.size = prefixes.size := by
  have htotal : ∀ prefixes : Prefixes Snapshot, mapTotal (fun _ => 1) prefixes = prefixes.size := by
    intro prefixes
    simp [mapTotal, ExtTreeMap.length_toList]
  rw [← htotal, ← htotal]
  exact h.total_eq _ fun _ => rfl

theorem insert {id : PrefixEntryId} {entry : PrefixEntry Snapshot} {clock : ℕ}
    (hentry : prefixes[id]? = some entry) :
    Retimed prefixes (prefixes.insert id { entry with lastUsed := clock }) := by
  intro other
  rw [getElem?_insert_eq]
  split_ifs with heq
  · subst heq
    rw [hentry]
    rfl
  · rfl

end Retimed

theorem Filed.retimed {pageTokens : ℕ} {stray : List TokenBlockId} {index : PrefixIndex R}
    {prefixes prefixes' : Prefixes R.Snapshot} (h : Filed pageTokens stray index prefixes)
    (hretimed : Retimed prefixes prefixes') : Filed pageTokens stray index prefixes' := by
  have hsome : ∀ {prefixes prefixes' : Prefixes R.Snapshot}, Retimed prefixes prefixes' →
      ∀ (id : PrefixEntryId) (key : PrefixKey), (∃ entry, prefixes[id]? = some entry ∧
        entry.key = key) → ∃ entry, prefixes'[id]? = some entry ∧ entry.key = key := by
    rintro prefixes prefixes' hretimed id key ⟨entry, hentry, rfl⟩
    obtain ⟨entry', hentry', heq⟩ := hretimed.symm.of_new hentry
    exact ⟨entry', hentry', (congrArg PrefixEntry.key heq).symm⟩
  refine ⟨h.table.congr fun block => ?_, fun key id => ?_, ?_, ?_⟩
  · unfold blockCount
    rw [hretimed.total_eq _ fun _ => rfl]
  · rw [h.tree]
    exact ⟨hsome hretimed id key, hsome hretimed.symm id key⟩
  · intro id entry' hentry'
    obtain ⟨entry, hentry, heq⟩ := hretimed.of_new hentry'
    have hkey := congrArg PrefixEntry.key heq
    have hblocks := congrArg PrefixEntry.blocks heq
    exact hkey.trans ((h.key_eq id entry hentry).trans (congrArg keyOf hblocks.symm))
  · intro id entry' hentry'
    obtain ⟨entry, hentry, heq⟩ := hretimed.of_new hentry'
    have hblocks := congrArg (fun entry => entry.blocks.length) heq
    have hpages := congrArg (fun entry => entry.pages.length) heq
    exact hblocks.trans ((h.length_blocks id entry hentry).trans hpages.symm)

namespace SequenceCache

/-- What the clock relies on: the LRU set and the times of last use are in order. -/
structure Timed (cache : SequenceCache R) : Prop where
  ranked : Ranked cache.prefixes cache.lru
  clocked : Clocked cache.prefixes cache.clock
  size_le : cache.prefixes.size ≤ usizeMax

end SequenceCache

theorem Inv.timed {orphans : List PageId} {stray : List TokenBlockId} {cache : SequenceCache R}
    (h : Inv orphans stray cache) : cache.Timed :=
  ⟨h.ranked, h.clocked, h.size_le.trans h.ids_bounded⟩

namespace SequenceCache

/-- Only the clock and the times of last use have changed: the entry `used`, if any, was
used just now. -/
structure Touched (cache cache' : SequenceCache R) (used : Option PrefixEntryId) : Prop where
  state : cache' = { cache with
    prefixes := cache'.prefixes, lru := cache'.lru, clock := cache'.clock }
  retimed : Retimed cache.prefixes cache'.prefixes
  ranked : Ranked cache'.prefixes cache'.lru
  clocked : Clocked cache'.prefixes cache'.clock
  order : cache'.recency = used.elim cache.recency (moveToBack cache.recency)

variable {cache cache' cache'' : SequenceCache R} {orphans : List PageId}
variable {stray : List TokenBlockId}

theorem Touched.trans {used : Option PrefixEntryId} (h : Touched cache cache' none)
    (h' : Touched cache' cache'' used) : Touched cache cache'' used := by
  refine ⟨?_, h.retimed.trans h'.retimed, h'.ranked, h'.clocked, ?_⟩
  · rw [h'.state, h.state]
  · rw [h'.order, h.order]
    rfl

theorem Touched.refl (htimed : Timed cache) : Touched cache cache none :=
  ⟨rfl, Retimed.refl _, htimed.ranked, htimed.clocked, rfl⟩

theorem Touched.inv {used : Option PrefixEntryId} (h : Touched cache cache' used)
    (hinv : Inv orphans stray cache) : Inv orphans stray cache' := by
  obtain ⟨hstate, hretimed, hranked, hclocked, -⟩ := h
  generalize cache'.prefixes = prefixes at hstate hretimed hranked hclocked
  generalize cache'.lru = lru at hstate hranked
  generalize cache'.clock = clock at hstate hclocked
  subst hstate
  obtain ⟨⟨c1, c2, c3, c4, c5, c6⟩, howned, ⟨n1, n2, n3, n4, n5, n6⟩, ⟨p1, p2, p3, p4, p5⟩,
    ⟨b1, b2, b3, b4⟩, hfiled, -, -, hbelow, hbounded⟩ := hinv
  refine ⟨⟨c1, c2, c3, c4, c5, c6⟩, ?_, ⟨n1, n2, n3, ?_, n5, n6⟩, ⟨?_, p2, p3, p4, p5⟩,
    ⟨b1, b2, b3, ?_⟩, hfiled.retimed hretimed, hranked, hclocked, ?_, hbounded⟩
  · exact howned.relabel (hretimed.map_eq _ fun _ => rfl)
  · exact n4.trans (hretimed.total_eq _ fun _ => rfl).symm
  · simp only [accounts, chargedBytes, hretimed.size_eq]
    exact p1
  · intro limit hlimit
    exact hretimed.size_eq ▸ b4 limit hlimit
  · intro id hmem
    apply hbelow
    rw [ExtTreeMap.mem_iff_isSome_getElem?] at hmem ⊢
    obtain ⟨entry', hentry'⟩ := Option.isSome_iff_exists.mp hmem
    obtain ⟨entry, hentry, -⟩ := hretimed.of_new hentry'
    simp [hentry]

/-! ## Restarting the clock -/

/-- The order in which `tick` sorts. -/
private def usedBefore (left right : ℕ × ℕ) : Prop :=
  left.1 < right.1 ∨ left.1 = right.1 ∧ left.2 ≤ right.2

private instance : DecidableRel usedBefore :=
  fun left right => inferInstanceAs (Decidable (left.1 < right.1 ∨ left.1 = right.1 ∧ _))

private instance : Std.Total usedBefore := ⟨fun left right => by unfold usedBefore; omega⟩

private instance : IsTrans _ usedBefore := ⟨fun left middle right h h' => by
  unfold usedBefore at *
  omega⟩

private instance : Std.Antisymm usedBefore := ⟨fun left right h h' => by
  unfold usedBefore at *
  exact Prod.ext (by omega) (by omega)⟩

/-- Sorting the entries by their last use gives the order of the LRU set. -/
theorem useOrder_eq (hranked : Ranked cache.prefixes cache.lru) :
    cache.useOrder = cache.recency := by
  have htabulates := tabulates_toList cache.prefixes
  have hsorted : (cache.prefixes.toList.map fun item => (item.2.lastUsed, item.1)).insertionSort
      usedBefore = cache.lru.toList := by
    refine insertionSort_eq_toList ?_ ?_ ?_
    · intro left right hlt
      refine (compare_lt_cases hlt).imp id (And.imp_right fun h => ?_)
      exact (Nat.compare_eq_lt.mp h).le
    · refine htabulates.nodup.map_on ?_
      rintro ⟨id, entry⟩ hmem ⟨id', entry'⟩ hmem' heq
      obtain ⟨-, rfl⟩ := Prod.mk.inj heq
      have hentry := (htabulates.mem_iff _ _).mp hmem
      rw [(htabulates.mem_iff _ _).mp hmem'] at hentry
      rw [Option.some.inj hentry]
    · rintro ⟨used, id⟩
      rw [hranked used id, List.mem_map]
      constructor
      · rintro ⟨⟨found, entry⟩, hmem, heq⟩
        obtain ⟨rfl, rfl⟩ := Prod.mk.inj heq
        exact ⟨entry, (htabulates.mem_iff _ _).mp hmem, rfl⟩
      · rintro ⟨entry, hentry, rfl⟩
        exact ⟨(id, entry), (htabulates.mem_iff _ _).mpr hentry, rfl⟩
  exact congrArg (List.map Prod.snd) hsorted

/-- Numbering entries from `first` on, in a given order. -/
private theorem getElem?_number (order : List PrefixEntryId) (hnodup : order.Nodup) (first : ℕ)
    (prefixes : Prefixes R.Snapshot) (id : PrefixEntryId) :
    ((order.zipIdx first).foldl (fun prefixes item =>
        prefixes.modify item.1 fun entry => { entry with lastUsed := item.2 + 1 }) prefixes)[id]? =
      if id ∈ order then prefixes[id]?.map fun entry =>
        { entry with lastUsed := first + order.idxOf id + 1 }
      else prefixes[id]? := by
  induction order generalizing first prefixes with
  | nil => rfl
  | cons head rest ih =>
      obtain ⟨hhead, hrest⟩ := List.nodup_cons.mp hnodup
      rw [List.zipIdx_cons, List.foldl_cons, ih hrest, ExtTreeMap.getElem?_modify]
      by_cases heq : head = id
      · subst heq
        rw [if_neg hhead, if_pos ReflCmp.compare_self, if_pos List.mem_cons_self,
          List.idxOf_cons_self, Nat.add_zero]
      · have hcompare : ¬ compare head id = .eq := fun h => heq (LawfulEqCmp.eq_of_compare h)
        rw [if_neg hcompare, List.idxOf_cons_ne _ heq]
        simp only [List.mem_cons, Ne.symm heq, false_or]
        split_ifs
        · rw [show first + 1 + rest.idxOf id + 1 = first + (rest.idxOf id).succ + 1 by omega]
        · rfl

theorem getElem?_renormalize (hranked : Ranked cache.prefixes cache.lru) (id : PrefixEntryId) :
    cache.renormalize.prefixes[id]? = cache.prefixes[id]?.map fun entry =>
      { entry with lastUsed := cache.recency.idxOf id + 1 } := by
  change (cache.useOrder.zipIdx.foldl _ cache.prefixes)[id]? = _
  rw [useOrder_eq hranked, getElem?_number _ (nodup_recency hranked), Nat.zero_add]
  split_ifs with hmem
  · rfl
  · rw [mem_recency hranked, not_exists] at hmem
    rw [Option.eq_none_iff_forall_ne_some.mpr hmem]
    rfl

theorem size_eq_length_recency (hranked : Ranked cache.prefixes cache.lru) :
    cache.prefixes.size = cache.recency.length := by
  have hperm : (cache.prefixes.toList.map Prod.fst).Perm cache.recency := by
    refine (List.perm_ext_iff_of_nodup (tabulates_toList _).keys_nodup
      (nodup_recency hranked)).mpr fun id => ?_
    rw [mem_recency hranked, List.mem_map]
    constructor
    · rintro ⟨⟨key, entry⟩, hmem, rfl⟩
      exact ⟨entry, ((tabulates_toList _).mem_iff _ _).mp hmem⟩
    · rintro ⟨entry, hentry⟩
      exact ⟨(id, entry), ((tabulates_toList _).mem_iff _ _).mpr hentry, rfl⟩
  rw [← hperm.length_eq, List.length_map, ExtTreeMap.length_toList]

/-- Restarting the clock keeps the entries and their order. -/
theorem renormalize_touched (htimed : Timed cache) :
    Touched cache cache.renormalize none := by
  have hget := getElem?_renormalize htimed.ranked
  have hretimed : Retimed cache.prefixes cache.renormalize.prefixes := by
    intro id
    rw [hget, Option.map_map]
    rfl
  have hranked : Ranked cache.renormalize.prefixes cache.renormalize.lru := by
    intro used id
    unfold renormalize
    simp only
    rw [ExtTreeSet.mem_ofList, List.contains_iff_mem, List.mem_map]
    constructor
    · rintro ⟨⟨key, entry⟩, hmem, heq⟩
      obtain ⟨rfl, rfl⟩ := Prod.mk.inj heq
      exact ⟨entry, ((tabulates_toList _).mem_iff _ _).mp hmem, rfl⟩
    · rintro ⟨entry, hentry, rfl⟩
      exact ⟨(id, entry), ((tabulates_toList _).mem_iff _ _).mpr hentry, rfl⟩
  have hsize : cache.renormalize.clock = cache.recency.length :=
    hretimed.size_eq.trans (size_eq_length_recency htimed.ranked)
  refine ⟨rfl, hretimed, hranked, ⟨?_, ?_⟩, ?_⟩
  · intro id entry hentry
    rw [hget, Option.map_eq_some_iff] at hentry
    obtain ⟨old, hold, rfl⟩ := hentry
    have hmem : id ∈ cache.recency := (mem_recency htimed.ranked).mpr ⟨old, hold⟩
    rw [hsize]
    exact List.idxOf_lt_length_iff.mpr hmem
  · rw [hsize, ← size_eq_length_recency htimed.ranked]
    exact htimed.size_le
  · refine keysByTime_number cache.recency fun used id => ?_
    rw [hranked used id, hget]
    constructor
    · rintro ⟨entry, hentry, rfl⟩
      obtain ⟨old, hold, rfl⟩ := Option.map_eq_some_iff.mp hentry
      have hmem : id ∈ cache.recency := (mem_recency htimed.ranked).mpr ⟨old, hold⟩
      exact ⟨cache.recency.idxOf id, List.getElem?_idxOf hmem, rfl⟩
    · rintro ⟨index, hindex, rfl⟩
      obtain ⟨entry, hentry⟩ := (mem_recency htimed.ranked).mp (List.mem_of_getElem? hindex)
      rw [hentry]
      refine ⟨_, rfl, ?_⟩
      obtain ⟨hlt, rfl⟩ := List.getElem?_eq_some_iff.mp hindex
      simp only
      rw [(nodup_recency htimed.ranked).idxOf_getElem]

/-! ## The clock -/

/-- The clock moves past every use so far.  It cannot when every identity an entry can
have is retained. -/
theorem tick_cases (htimed : Timed cache) :
    (cache.prefixes.size = usizeMax ∧ tick cache =
        .error (.panic "attempt to add with overflow") cache.renormalize) ∨
      ∃ cache', tick cache = .ok cache'.clock cache' ∧ Touched cache cache' none ∧
        ∀ (id : PrefixEntryId) (entry : PrefixEntry R.Snapshot),
          cache'.prefixes[id]? = some entry → entry.lastUsed < cache'.clock := by
  have hadvance : ∀ {start : SequenceCache R}, Touched cache start none →
      start.clock < usizeMax → ∃ cache', ({ start with clock := start.clock + 1 } :
        SequenceCache R) = cache' ∧ Touched cache cache' none ∧
          ∀ (id : PrefixEntryId) (entry : PrefixEntry R.Snapshot),
            cache'.prefixes[id]? = some entry → entry.lastUsed < cache'.clock := by
    intro start hstart hlt
    refine ⟨_, rfl, ⟨?_, hstart.retimed, hstart.ranked, ⟨?_, hlt⟩, hstart.order⟩, ?_⟩
    · simp only
      rw [hstart.state]
    · exact fun id entry hentry => (hstart.clocked.used_le id entry hentry).trans (Nat.le_succ _)
    · exact fun id entry hentry => Nat.lt_succ_of_le (hstart.clocked.used_le id entry hentry)
  have hbounded := htimed.clocked.bounded
  unfold tick
  rw [modify_bind_run]
  by_cases hclock : cache.clock = usizeMax
  · rw [if_pos hclock, get_bind_run]
    have htouched := renormalize_touched htimed
    have hsize : cache.renormalize.clock = cache.prefixes.size := htouched.retimed.size_eq
    have hle := htouched.clocked.bounded
    by_cases hfull : cache.renormalize.clock = usizeMax
    · left
      refine ⟨hsize ▸ hfull, ?_⟩
      have hnone : checkedAdd cache.renormalize.clock 1 = none := by
        simp [checkedAdd, hfull]
      rw [hnone]
      rfl
    · right
      obtain ⟨cache', rfl, htouched', hbefore⟩ := hadvance htouched (by omega)
      refine ⟨_, ?_, htouched', hbefore⟩
      rw [checkedAdd_of_le (by omega), okOr_some, pure_bind_run, modify_bind_run, pure_run]
  · right
    rw [if_neg hclock, get_bind_run]
    obtain ⟨cache', rfl, htouched', hbefore⟩ := hadvance (Touched.refl htimed) (by omega)
    refine ⟨_, ?_, htouched', hbefore⟩
    rw [checkedAdd_of_le (by omega), okOr_some, pure_bind_run, modify_bind_run, pure_run]

theorem touch_ok {id : PrefixEntryId} {entry : PrefixEntry R.Snapshot}
    (hranked : Ranked cache.prefixes cache.lru) (hclocked : Clocked cache.prefixes cache.clock)
    (hbefore : ∀ (id : PrefixEntryId) (entry : PrefixEntry R.Snapshot),
      cache.prefixes[id]? = some entry → entry.lastUsed < cache.clock)
    (hentry : cache.prefixes[id]? = some entry) :
    ∃ cache', touch cache.clock id entry cache = .ok () cache' ∧
      Touched cache cache' (some id) := by
  have hmem : ∀ (used : ℕ) (other : PrefixEntryId),
      (used, other) ∈ (cache.lru.erase (entry.lastUsed, id)).insert (cache.clock, id) ↔
        (used, other) ∈ cache.lru ∧ other ≠ id ∨ used = cache.clock ∧ other = id := by
    intro used other
    rw [ExtTreeSet.mem_insert, ExtTreeSet.mem_erase]
    constructor
    · rintro (hcompare | ⟨hne, hold⟩)
      · obtain ⟨rfl, rfl⟩ := Prod.mk.inj (LawfulEqCmp.eq_of_compare hcompare)
        exact Or.inr ⟨rfl, rfl⟩
      · refine Or.inl ⟨hold, ?_⟩
        rintro rfl
        obtain ⟨found, hfound, rfl⟩ := (hranked used other).mp hold
        rw [hentry] at hfound
        rw [Option.some.inj hfound] at hne
        exact hne ReflCmp.compare_self
    · rintro (⟨hold, hne⟩ | ⟨rfl, rfl⟩)
      · refine Or.inr ⟨fun hcompare => hne ?_, hold⟩
        exact (congrArg Prod.snd (LawfulEqCmp.eq_of_compare hcompare)).symm
      · exact Or.inl ReflCmp.compare_self
  refine ⟨_, rfl, rfl, Retimed.insert hentry, ?_, ⟨?_, hclocked.bounded⟩, ?_⟩
  · intro used other
    rw [hmem, getElem?_insert_eq, hranked used other]
    split_ifs with heq <;> simp [heq, eq_comm]
  · intro other found hfound
    rw [getElem?_insert_eq] at hfound
    split_ifs at hfound
    · exact (congrArg PrefixEntry.lastUsed (Option.some.inj hfound)).ge
    · exact hclocked.used_le other found hfound
  · refine keysByTime_use (fun used other hold => ?_) hmem
    obtain ⟨found, hfound, rfl⟩ := (hranked used other).mp hold
    exact hbefore other found hfound

/-! ## The step -/

/-- A lookup can only fail in the clock; a hit returns the entry that was found. -/
theorem lookupPrefix_spec (hinv : Inv orphans stray cache) (tokens : List Token) :
    Ends (lookupPrefix tokens cache)
      (fun result cache' => Touched cache cache' (result.map PrefixMatch.entry) ∧
        result = (cache.findPrefix tokens).bind fun id => cache.prefixes[id]?.map fun entry =>
          ⟨id, entry.position, entry.pages.length⟩)
      (fun failure cache' => failure = .panic "attempt to add with overflow" ∧
        cache.prefixes.size = usizeMax ∧ Touched cache cache' none) := by
  unfold lookupPrefix
  rw [get_bind_run]
  cases hfind : cache.findPrefix tokens with
  | none => exact ⟨Touched.refl hinv.timed, rfl⟩
  | some id =>
      simp only
      rcases tick_cases hinv.timed with ⟨hfull, htick⟩ | ⟨ticked, htick, htouched, hbefore⟩
      · rw [bind_error htick]
        exact ⟨rfl, hfull, renormalize_touched hinv.timed⟩
      have hmap := htouched.retimed.map_eq (fun entry => (entry.position, entry.pages.length))
        (fun _ => rfl) id
      rw [bind_ok htick, get_bind_run]
      cases hentry : ticked.prefixes[id]? with
      | none =>
          refine ⟨htouched, ?_⟩
          rw [hentry, Option.map_none, eq_comm, Option.map_eq_none_iff] at hmap
          simp [hmap]
      | some entry =>
          obtain ⟨touched, htouch, htouched'⟩ := touch_ok htouched.ranked htouched.clocked
            hbefore hentry
          simp only
          rw [bind_ok htouch, pure_run]
          refine ⟨htouched.trans htouched', ?_⟩
          rw [hentry, Option.map_some, eq_comm, Option.map_eq_some_iff] at hmap
          obtain ⟨old, hold, heq⟩ := hmap
          obtain ⟨hposition, hlength⟩ := Prod.mk.inj heq
          simp [hold, hposition, hlength]

end SequenceCache

end SeqCache
